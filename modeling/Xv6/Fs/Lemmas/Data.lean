import Mathlib.Data.List.TakeWhile
import Xv6.Fs.Lemmas.Journal

/-!
# `readi` and `writei`

A read of a file without holes changes nothing. A write gives the file the bytes it has copied, up
to the block for which there was no space or no source.
-/

namespace Xv6.Fs

open Lib Function

variable {s t u : Fs} {e i j b c k bn : Nat} {X Y : Nat → Prop} {extra : List Nat} {d : Dinode} {blk : Nat → Block}
  {F : Stop → Fs → Prop} {data : Block} {f : FileView}

theorem Inv.mono (h : Inv X extra s) (hXY : ∀ e, X e → Y e) : Inv Y extra s := ⟨h.layout, h.table.mono hXY, h.blocks⟩

/-! ## Fields of an inode other than its addresses -/

theorem indirect_of_addrs {d d' : Dinode} (h : d'.addrs = d.addrs) : indirect blk d' j = indirect blk d j := by
  rw [indirect, indirect, h]

theorem addrOf_of_addrs {d d' : Dinode} (h : d'.addrs = d.addrs) : addrOf blk d' bn = addrOf blk d bn := by
  rw [addrOf, addrOf, h, indirect_of_addrs h]

theorem slots_of_addrs {d d' : Dinode} (h : d'.addrs = d.addrs) : slots blk d' = slots blk d := by
  rw [slots, slots, h, List.map_congr_left fun j _ => indirect_of_addrs h]

theorem Inv.setFields (h : Inv X extra s) (he : s.At e i) (hv : (s.inode e).valid = true) (hX : X e)
    (ht : (s.inode e).d.type ≠ 0) (haddrs : d.addrs = (s.inode e).d.addrs) (hwf : d.Wf) (htype : d.type ≠ 0)
    (hN : NoHole s.blk d) :
    Inv X extra (s.setD e d) ∧ (s.setD e d).refs = s.refs ∧
      (s.setD e d).file = Function.update s.file i (some (fileOf s.blk d)) := by
  have hi := (h.table.range e i he).1
  have hn := h.table.node_of_valid he hv
  obtain ⟨hnode, hrefs⟩ := setD_node h.table he hv hX hwf
  have hni : (s.setD e d).node i = d := by rw [hnode, update_self]
  have hnj : ∀ j, j ≠ i → (s.setD e d).node j = s.node j := fun j hji => by rw [hnode, update_of_ne hji]
  have hslots : ∀ c j, (s.setD e d).slotsAt c j = s.slotsAt c j := by
    intro c j
    obtain rfl | hji := eq_or_ne j i
    · rw [Fs.slotsAt, Fs.slotsAt, hni, hn, if_neg htype, if_neg ht]
      exact congrArg (List.count c) (slots_of_addrs haddrs)
    · rw [Fs.slotsAt, Fs.slotsAt, hnj j hji]
      rfl
  refine ⟨⟨h.layout, setD_table h.table he hX hwf, ⟨fun c hc => ?_, h.blocks.metadata⟩, fun j hj htj => ?_⟩, hrefs,
    funext fun j => ?_⟩
  · have hcount : (s.setD e d).slotCount c = s.slotCount c := slotCount_congr rfl fun j _ => hslots c j
    rw [hcount]
    exact h.blocks.own c hc
  · obtain rfl | hji := eq_or_ne j i
    · rw [hni]
      exact hN
    · rw [hnj j hji] at htj ⊢
      exact h.blocks.noHole j hj htj
  · obtain rfl | hji := eq_or_ne j i
    · rw [update_self, Fs.file, hni, if_pos ⟨hi, htype⟩]
      rfl
    · rw [update_of_ne hji, Fs.file, Fs.file, hnj j hji]
      rfl

/-! ## The contents of a block of a file -/

theorem addrOf_inj (hone : (slots blk d).count (addrOf blk d bn) = 1) (hne : addrOf blk d bn ≠ 0)
    (heq : addrOf blk d k = addrOf blk d bn) : k = bn := by
  obtain ⟨h₁, h₂, h₃⟩ := slots_inj hone
  have hk : addrOf blk d k ≠ 0 := heq ▸ hne
  -- an address is that of a direct block or an entry of the indirect block
  have hcase : ∀ m, addrOf blk d m ≠ 0 → (m < ndirect ∧ d.addrs m = addrOf blk d m) ∨
      (¬ m < ndirect ∧ m - ndirect < nindirect ∧ indirect blk d (m - ndirect) = addrOf blk d m) := by
    intro m hm
    by_cases hlt : m < ndirect
    · exact Or.inl ⟨hlt, by rw [addrOf, if_pos hlt]⟩
    · by_cases hin : m - ndirect < nindirect
      · exact Or.inr ⟨hlt, hin, by rw [addrOf, if_neg hlt, if_pos hin]⟩
      · rw [addrOf, if_neg hlt, if_neg hin] at hm
        exact absurd rfl hm
  rcases hcase k hk with ⟨hlt, ha⟩ | ⟨hge, hin, ha⟩
  · rcases hcase bn hne with ⟨hlt', ha'⟩ | ⟨hge', hin', ha'⟩
    · exact h₁ k bn (by omega) (by omega) (ha.trans heq) ha'
    · exact absurd ha' (h₂ k _ (by omega) hin' (ha.trans heq))
  · rcases hcase bn hne with ⟨hlt', ha'⟩ | ⟨hge', hin', ha'⟩
    · exact absurd (ha.trans heq) (h₂ bn _ (by omega) hin ha')
    · have := h₃ _ _ hin hin' (ha.trans heq) ha'
      omega

theorem Inv.writeData (h : Inv X [] s) (he : s.At e i) (hv : (s.inode e).valid = true) (ht : (s.inode e).d.type ≠ 0)
    (hne : addrOf s.blk (s.inode e).d bn ≠ 0) (hinode : u.inode = s.inode) (hsb : u.sb = s.sb)
    (hblk : u.blk = (s.setBlk (addrOf s.blk (s.inode e).d bn) data).blk) :
    Inv X [] u ∧ (∀ j, j ≠ i → u.file j = s.file j) ∧ (∀ j, j < s.sb.ninodes → u.disk j = s.disk j) ∧
      (∀ m, addrOf u.blk (s.inode e).d m = addrOf s.blk (s.inode e).d m) ∧
      ∀ x, addrOf s.blk (s.inode e).d (x / bsize) ≠ 0 → rawByte u.blk (s.inode e).d x =
        if x / bsize = bn then data (x % bsize) else rawByte s.blk (s.inode e).d x := by
  have hi := (h.table.range e i he).1
  have hni := h.table.node_of_valid he hv
  have htn : (s.node i).type ≠ 0 := by rw [hni]; exact ht
  have hmem : addrOf s.blk (s.inode e).d bn ∈ slots s.blk (s.node i) := by
    rw [hni]
    exact mem_slots_addrOf hne
  obtain ⟨hdata, _, hone, _, _⟩ := h.blocks.of_mem hi htn hne hmem
  rw [hni] at hone
  have hupd : ∀ c, c ≠ addrOf s.blk (s.inode e).d bn → u.blk c = s.blk c := fun c hc => by
    rw [hblk]
    exact update_of_ne hc ..
  have hself : u.blk (addrOf s.blk (s.inode e).d bn) = data := by
    rw [hblk]
    exact update_self ..
  obtain ⟨hused', hdisk'⟩ := data_same hsb hblk h.layout hdata
  have hnode : ∀ j, j < s.sb.ninodes → u.node j = s.node j := fun j hj => node_congr hinode (hdisk' j hj)
  -- the block is no indirect block
  have htbl : ∀ j, j < s.sb.ninodes → (s.node j).type ≠ 0 → ∀ x, x < bsize →
      u.blk ((s.node j).addrs ndirect) x = s.blk ((s.node j).addrs ndirect) x ∨ (s.node j).addrs ndirect = 0 := by
    intro j hj htj x _
    by_cases hz : (s.node j).addrs ndirect = 0
    · exact Or.inr hz
    · refine Or.inl (congrFun (hupd _ fun heq => ?_) x)
      obtain rfl | hji := eq_or_ne j i
      · rw [hni] at heq hz
        refine addrOf_ne_table bn ?_ hz heq.symm
        rw [heq]
        exact hone
      · exact h.blocks.other hi htn hne hmem hj hji htj (mem_slots_addrs (Nat.lt_succ_self _)) heq
  have haddr : ∀ m, addrOf u.blk (s.inode e).d m = addrOf s.blk (s.inode e).d m := by
    intro m
    refine addrOf_congr fun x hx => ?_
    have := htbl i hi htn x hx
    rwa [hni] at this
  refine ⟨⟨hsb ▸ h.layout, h.table.congr hinode hsb hdisk', ⟨fun c hc => ?_, fun c hc => ?_⟩, fun j hj htj => ?_⟩,
    fun j hji => ?_, hdisk', haddr, fun x hx => ?_⟩
  · rw [slotCount_congr hsb fun j hj => slotsAt_congr (hnode j hj) fun htj x hx => htbl j hj htj x hx, hsb,
      if_congr (isData_and_used hused') rfl rfl]
    exact h.blocks.own c hc
  · rw [hsb] at hc
    exact (hused' c (Nat.lt_of_lt_of_le hc (Super.Layout.dataStart_le _))).trans (h.blocks.metadata c hc)
  · rw [hsb] at hj
    rw [hnode j hj] at htj ⊢
    exact noHole_congr (h.blocks.noHole j hj htj) fun x hx => htbl j hj htj x hx
  · simp only [Fs.file, hsb]
    by_cases hj : j < s.sb.ninodes
    · rw [hnode j hj]
      by_cases htj : (s.node j).type = 0
      · simp [htj]
      · rw [if_pos ⟨hj, htj⟩, if_pos ⟨hj, htj⟩]
        refine congrArg some (fileOf_congr (h.blocks.noHole j hj htj) fun c hc _ x _ => congrFun (hupd c ?_) x)
        exact h.blocks.other hi htn hne hmem hj hji htj hc
    · simp [hj]
  · rw [rawByte, rawByte, haddr]
    split
    · rename_i hbn
      rw [hbn, hself]
    · rename_i hbn
      rw [hupd _ fun heq => hbn (addrOf_inj hone hne heq)]

/-! ## `readi` -/

theorem readiLoop_spec {n tot off : Nat} {copyout : Nat → Nat → Bool} {buf : Bytes}
    (hmap : ∀ m, m * bsize < off + (n - tot) → addrOf s.blk (s.inode e).d m ≠ 0) (htot : tot ≤ n) (hk : n - tot ≤ k) :
    wp (readiLoop e n copyout k tot off buf) (fun r t => t = s ∧ ((∀ a m, copyout a m = true) →
      ∃ b', r = some (n, b') ∧ (∀ x, x < tot → b' x = buf x) ∧
        ∀ x, tot ≤ x → x < n → b' x = rawByte s.blk (s.inode e).d (off + (x - tot)))) F s := by
  have hs := sizes
  induction k generalizing tot off buf with
  | zero =>
      have hn : tot = n := by omega
      exact ⟨rfl, fun _ => ⟨buf, by rw [hn], fun _ _ => rfl, fun x h₁ h₂ => by omega⟩⟩
  | succ k ih =>
      rw [readiLoop]
      apply wp_ite
      · intro hlt
        rw [wp_bind]
        have hne := hmap (off / bsize) (by have := Nat.div_mul_le_self off bsize; omega)
        refine bmap_read hne ?_
        rw [if_neg hne]
        simp only [wp_bind, wp_get]
        have hmod := Nat.mod_lt off (show 0 < bsize by omega)
        apply wp_ite
        · intro _
          refine wp_post (ih (fun m hm => hmap m (by omega)) (by omega) (by omega)) ?_
          rintro r t ⟨rfl, hr⟩
          refine ⟨rfl, fun hc => ?_⟩
          obtain ⟨b', rfl, h₁, h₂⟩ := hr hc
          refine ⟨b', rfl, fun x hx => ?_, fun x hx hxn => ?_⟩
          · rw [h₁ x (by omega), blit_apply_of_lt (Or.inl hx)]
          · by_cases hxm : x < tot + min (n - tot) (bsize - off % bsize)
            · rw [h₁ x hxm, blit_apply ⟨hx, by omega⟩, rawByte]
              have hb : bsize = 1024 := hs.1
              rw [hb] at hxm ⊢
              have h₃ : (off + (x - tot)) / 1024 = off / 1024 := by omega
              have h₄ : (off + (x - tot)) % 1024 = off % 1024 + (x - tot) := by omega
              rw [h₃, h₄]
            · rw [h₂ x (by omega) hxn]
              congr 1
              omega
        · intro hc
          exact ⟨rfl, fun hall => absurd (hall _ _) hc⟩
      · intro hge
        have hn : tot = n := by omega
        exact ⟨rfl, fun _ => ⟨buf, by rw [hn], fun _ _ => rfl, fun x h₁ h₂ => by omega⟩⟩

/-- A file without holes is at most `MAXFILE` blocks long. -/
theorem NoHole.size_le (h : NoHole blk d) : d.size ≤ maxFile * bsize := by
  have hs := sizes
  by_contra hgt
  refine h maxFile (by omega) ?_
  rw [addrOf, if_neg (by omega), if_neg (by omega)]

/-- How many bytes `readi` of `n` bytes at `off` returns. -/
def FileView.readable (f : FileView) (off n : Nat) : Nat :=
  if off > f.size ∨ (off + n) % 2 ^ 32 < off then 0 else min n (f.size - off)

/-- A read changes nothing, in a transaction or outside, and does not stop. -/
theorem readi_spec {copyout : Nat → Nat → Bool} {off n : Nat} (hN : NoHole s.blk (s.inode e).d)
    (hf : fileOf s.blk (s.inode e).d = f) :
    wp (readi e copyout off n) (fun r t => t = s ∧ ((∀ a m, copyout a m = true) →
      ∃ b', r = some (f.readable off n, b') ∧ ∀ x, x < f.readable off n → b' x = f.byte (off + x))) F s := by
  subst hf
  simp only [readi, wp_bind, wp_get]
  apply wp_ite
  · intro hc
    have hz : (fileOf s.blk (s.inode e).d).readable off n = 0 := if_pos hc
    rw [hz]
    exact ⟨rfl, fun _ => ⟨fun _ => 0, rfl, fun x hx => by omega⟩⟩
  · intro hc
    have hle : (if off + n > (s.inode e).d.size then (s.inode e).d.size - off else n) =
        (fileOf s.blk (s.inode e).d).readable off n := by
      refine Eq.trans ?_ (if_neg hc).symm
      show _ = min n ((s.inode e).d.size - off)
      split <;> omega
    have hbound : off + (fileOf s.blk (s.inode e).d).readable off n ≤ (s.inode e).d.size := by
      rw [← hle]
      split <;> omega
    rw [hle]
    refine wp_post (readiLoop_spec (fun m hm => hN m (by omega)) (Nat.zero_le _) (by omega)) ?_
    rintro r t ⟨rfl, hr⟩
    refine ⟨rfl, fun hall => ?_⟩
    obtain ⟨b', rfl, _, h₂⟩ := hr hall
    refine ⟨b', rfl, fun x hx => ?_⟩
    rw [h₂ x (Nat.zero_le _) hx]
    exact (if_pos (show off + x < (t.inode e).d.size by omega)).symm

theorem readiKernel_spec {off n : Nat} {Q : Nat × Bytes → Fs → Prop} (hN : NoHole s.blk (s.inode e).d)
    (hf : fileOf s.blk (s.inode e).d = f)
    (hQ : ∀ b', (∀ x, x < f.readable off n → b' x = f.byte (off + x)) → Q (f.readable off n, b') s) :
    wp (readiKernel e off n) Q F s := by
  simp only [readiKernel, wp_bind]
  refine wp_post (readi_spec hN hf) ?_
  rintro r t ⟨rfl, hr⟩
  obtain ⟨b', rfl, hb⟩ := hr fun _ _ => rfl
  exact hQ b' hb

/-! ## `writei` -/

/-- The blocks that `n` bytes at `off` touch. -/
def touched (off n : Nat) : Nat := if n = 0 then 0 else (off % bsize + n + (bsize - 1)) / bsize

/-- The file after `writei` at `off` that returned `tot` and copied `r` more bytes. -/
structure Written (f : FileView) (src : Nat → Option Byte) (off tot r : Nat) (f' : FileView) : Prop where
  type : f'.type = f.type
  major : f'.major = f.major
  minor : f'.minor = f.minor
  nlink : f'.nlink = f.nlink
  size : f'.size = max f.size (off + tot)
  byte : ∀ x, f'.byte x = if off ≤ x ∧ x < off + (tot + r) ∧ x < f'.size then (src (x - off)).getD 0 else f.byte x

theorem Written.inside {src : Nat → Option Byte} {off tot r x : Nat} {f' : FileView} (h : Written f src off tot r f')
    (hx : x < tot) : f'.byte (off + x) = (src x).getD 0 := by
  have hsize := h.size
  rw [h.byte, if_pos (by omega), Nat.add_sub_cancel_left]

theorem Written.outside {src : Nat → Option Byte} {off tot r x : Nat} {f' : FileView} (h : Written f src off tot r f')
    (hx : x < off ∨ off + (tot + r) ≤ x) : f'.byte x = f.byte x := by
  rw [h.byte, if_neg (by omega)]

/-- Why `writei` stops after `tot` of `n` bytes, with `r` bytes of the next block copied. `addr` is the
address of the block of the next byte. -/
inductive WriteEnd (src : Nat → Option Byte) (off n tot addr : Nat) (full : Prop) : Nat → Prop
  | done (h : tot = n) : WriteEnd src off n tot addr full 0
  | noBlock (h : tot < n) (haddr : addr = 0) (hfull : full) : WriteEnd src off n tot addr full 0
  | copy {r : Nat} (haddr : addr ≠ 0) (hread : ∀ x, x < r → (src (tot + x)).isSome = true) (hbad : src (tot + r) = none)
      (hn : tot + r < n) (hblock : (off + tot) % bsize + r < bsize) : WriteEnd src off n tot addr full r

theorem WriteEnd.eq_zero {src : Nat → Option Byte} {off n tot addr r : Nat} {full : Prop}
    (h : WriteEnd src off n tot addr full r) (hall : ∀ x, x < n → (src x).isSome = true) : r = 0 := by
  cases h with
  | done => rfl
  | noBlock => rfl
  | copy _ _ hbad hn =>
      have := hall _ hn
      rw [hbad] at this
      cases this

theorem WriteEnd.congr {src : Nat → Option Byte} {off n tot addr addr' r : Nat} {full full' : Prop}
    (h : WriteEnd src off n tot addr full r) (haddr : addr' = addr) (hfull : full → full') :
    WriteEnd src off n tot addr' full' r := by
  cases h with
  | done h => exact .done h
  | noBlock h hz hf => exact .noBlock h (haddr.trans hz) (hfull hf)
  | copy hne hread hbad hn hblock => exact .copy (haddr ▸ hne) hread hbad hn hblock

/-- The state in the loop of `writei` after `tot` bytes, with `r` more bytes copied. -/
structure Writing (X : Nat → Prop) (e i : Nat) (src : Nat → Option Byte) (off tot r : Nat) (s t : Fs) : Prop where
  inv : Inv X [] t
  keep : Keep All s t
  refs : t.refs = s.refs
  other : ∀ e', e' ≠ e → t.inode e' = s.inode e'
  entry : ∃ a, t.inode e = { s.inode e with d := { (s.inode e).d with addrs := a } }
  file : ∀ j, j ≠ i → t.file j = s.file j
  disk : ∀ j, j < s.sb.ninodes → t.disk j = s.disk j
  addr : ∀ m, addrOf s.blk (s.inode e).d m ≠ 0 → addrOf t.blk (t.inode e).d m = addrOf s.blk (s.inode e).d m
  mapped : ∀ m, m * bsize < max (s.inode e).d.size (off + tot) → addrOf t.blk (t.inode e).d m ≠ 0
  byte : ∀ x, x < max (s.inode e).d.size (off + tot) → rawByte t.blk (t.inode e).d x =
    if off ≤ x ∧ x < off + (tot + r) then (src (x - off)).getD 0 else rawByte s.blk (s.inode e).d x

namespace Writing

variable {src : Nat → Option Byte} {off n tot r : Nat}

theorem start (e i : Nat) (src : Nat → Option Byte) (h : Inv X [] s) (hN : NoHole s.blk (s.inode e).d) (hoff : off ≤ (s.inode e).d.size) :
    Writing X e i src off 0 0 s s where
  inv := h
  keep := Keep.refl _ s
  refs := rfl
  other := fun _ _ => rfl
  entry := ⟨_, rfl⟩
  file := fun _ _ => rfl
  disk := fun _ _ => rfl
  addr := fun _ _ => rfl
  mapped := fun m hm => hN m (by omega)
  byte := fun x _ => by rw [if_neg (by omega)]

theorem size (h : Writing X e i src off tot r s t) : (t.inode e).d.size = (s.inode e).d.size := by
  obtain ⟨a, ha⟩ := h.entry
  rw [ha]

theorem valid (h : Writing X e i src off tot r s t) (hv : (s.inode e).valid = true) : (t.inode e).valid = true := by
  obtain ⟨a, ha⟩ := h.entry
  rw [ha]
  exact hv

theorem type (h : Writing X e i src off tot r s t) (ht : (s.inode e).d.type ≠ 0) : (t.inode e).d.type ≠ 0 := by
  obtain ⟨a, ha⟩ := h.entry
  rw [ha]
  exact ht

theorem grow (h : Writing X e i src off tot r s t) (hinv : Inv X [] u) (hg : Grow e t u) :
    Writing X e i src off tot r s u := by
  have hraw : ∀ x, x < max (s.inode e).d.size (off + tot) →
      rawByte u.blk (u.inode e).d x = rawByte t.blk (t.inode e).d x := by
    intro x hx
    obtain ⟨h₁, h₂⟩ := hg.mapped (x / bsize) (h.mapped _ (by have := Nat.div_mul_le_self x bsize; omega))
    rw [rawByte, rawByte, h₁, h₂]
  refine ⟨hinv, h.keep.trans' hg.keep, hg.refs.trans h.refs, fun e' hne => (hg.other e' hne).trans (h.other e' hne), ?_,
    fun j hji => by rw [hg.file]; exact h.file j hji, fun j hj => (hg.disk j (h.keep.sb ▸ hj)).trans (h.disk j hj),
    fun m hm => (hg.mapped m (by rw [h.addr m hm]; exact hm)).1.trans (h.addr m hm), fun m hm => ?_,
    fun x hx => (hraw x hx).trans (h.byte x hx)⟩
  · obtain ⟨a, ha⟩ := h.entry
    obtain ⟨a', ha'⟩ := hg.entry
    exact ⟨a', by rw [ha', ha]⟩
  · rw [(hg.mapped m (h.mapped m hm)).1]
    exact h.mapped m hm

/-- The block at `off + tot` is written: `m + r` bytes of the source are in it, `m` of them counted. -/
theorem write {m : Nat} (h : Writing X e i src off tot 0 s t) (he : s.At e i) (hv : (s.inode e).valid = true)
    (ht : (s.inode e).d.type ≠ 0) (hne : addrOf t.blk (t.inode e).d ((off + tot) / bsize) ≠ 0) (hinode : u.inode = t.inode)
    (hsb : u.sb = t.sb) (htrans : u.trans = t.trans)
    (hblk : u.blk = (t.setBlk (addrOf t.blk (t.inode e).d ((off + tot) / bsize))
      (blit (t.blk (addrOf t.blk (t.inode e).d ((off + tot) / bsize))) ((off + tot) % bsize) (fun x => (src x).getD 0) tot (m + r))).blk)
    (hr : (off + tot) % bsize + (m + r) ≤ bsize) : Writing X e i src off (tot + m) r s u := by
  have hs := sizes
  have hb : bsize = 1024 := hs.1
  have hat := (h.keep.entry e i trivial he).1
  obtain ⟨hinv, hfile, hdisk, haddr, hraw⟩ := h.inv.writeData hat (h.valid hv) (h.type ht) hne hinode hsb hblk
  -- the positions below the size and those written so far have blocks
  have hmap : ∀ k, k * bsize < max (s.inode e).d.size (off + (tot + m)) → addrOf t.blk (t.inode e).d k ≠ 0 := by
    intro k hk
    by_cases hk' : k * bsize < max (s.inode e).d.size (off + tot)
    · exact h.mapped k hk'
    · have hkb : k = (off + tot) / bsize := by
        rw [hb] at hk hk' hr ⊢
        omega
      rw [hkb]
      exact hne
  refine ⟨hinv, h.keep.trans' (.of_inode hinode hsb htrans), (refs_congr hinode).trans h.refs,
    fun e' hne' => by rw [hinode]; exact h.other e' hne', by rw [hinode]; exact h.entry,
    fun j hji => (hfile j hji).trans (h.file j hji), fun j hj => (hdisk j (h.keep.sb ▸ hj)).trans (h.disk j hj),
    fun k hk => by rw [hinode, haddr]; exact h.addr k hk, fun k hk => ?_, fun x hx => ?_⟩
  · rw [hinode, haddr]
    exact hmap k hk
  · rw [hinode, hraw x (hmap _ (by have := Nat.div_mul_le_self x bsize; omega))]
    rw [hb] at hr ⊢
    by_cases hin : off + tot ≤ x ∧ x < off + tot + (m + r)
    · rw [if_pos (show x / 1024 = (off + tot) / 1024 by omega), blit_apply (by omega), if_pos (by omega)]
      congr 2
      omega
    · have hold : (if x / 1024 = (off + tot) / 1024 then
          blit (t.blk (addrOf t.blk (t.inode e).d ((off + tot) / 1024))) ((off + tot) % 1024) (fun x => (src x).getD 0) tot
            (m + r) (x % 1024) else rawByte t.blk (t.inode e).d x) = rawByte t.blk (t.inode e).d x := by
        by_cases hbx : x / 1024 = (off + tot) / 1024
        · rw [if_pos hbx, blit_apply_of_lt (by omega), rawByte, hb, hbx]
        · rw [if_neg hbx]
      rw [hold, h.byte x (by omega)]
      refine if_congr ?_ rfl rfl
      omega

end Writing

theorem readable_le (src : Nat → Option Byte) (tot m : Nat) : readable src tot m ≤ m := by
  have h := (List.takeWhile_sublist (fun i => (src (tot + i)).isSome) (l := List.range m)).length_le
  rwa [List.length_range] at h

theorem readable_isSome {src : Nat → Option Byte} {tot m x : Nat} (h : x < readable src tot m) :
    (src (tot + x)).isSome = true := by
  have hx := (List.takeWhile_prefix (fun i => (src (tot + i)).isSome) (l := List.range m)).getElem h
  rw [List.getElem_range] at hx
  have hmem := List.getElem_mem h
  rw [hx] at hmem
  have := List.mem_takeWhile_imp hmem
  exact this

theorem readable_none {src : Nat → Option Byte} {tot m : Nat} (h : readable src tot m < m) :
    src (tot + readable src tot m) = none := by
  have hget : (List.range m)[readable src tot m]? = some (readable src tot m) := List.getElem?_range h
  nth_rewrite 1 [← List.takeWhile_append_dropWhile (p := fun i => (src (tot + i)).isSome) (l := List.range m)] at hget
  have hzero : readable src tot m - ((List.range m).takeWhile fun i => (src (tot + i)).isSome).length = 0 := Nat.sub_self _
  rw [List.getElem?_append_right (show _ ≤ readable src tot m from Nat.le_refl _), hzero, ← List.head?_eq_getElem?] at hget
  have hnot := List.head?_dropWhile_not (fun i => (src (tot + i)).isSome) (List.range m)
  rw [hget] at hnot
  simpa using hnot

/-- The loop of `writei`, from a state with `tot` bytes written. -/
theorem writeiLoop_spec {src : Nat → Option Byte} {off n tot : Nat} (h : Writing X e i src off tot 0 s t) (he : s.At e i)
    (hv : (s.inode e).valid = true) (hX : X e) (ht : (s.inode e).d.type ≠ 0) (htrans : s.trans = true)
    (hmax : off + n ≤ maxFile * bsize) (htot : tot ≤ n) (hread : ∀ x, x < tot → (src x).isSome = true)
    (halign : tot = 0 ∨ tot = n ∨ (off + tot) % bsize = 0) (hk : n - tot ≤ k)
    (hbig : TooBig F s.sb.IsBitmap (2 * touched (off + tot) (n - tot)) t) :
    wp (writeiLoop e n src k tot (off + tot)) (fun r u => r.2 = off + r.1 ∧ r.1 ≤ n ∧
      (∀ x, x < r.1 → (src x).isSome = true) ∧ (r.1 = 0 ∨ r.1 = n ∨ (off + r.1) % bsize = 0) ∧
      (∃ m, WriteEnd src off n r.1 (addrOf u.blk (u.inode e).d ((off + r.1) / bsize)) u.Full m ∧
        Writing X e i src off r.1 m s u) ∧ Logs s.sb.IsBitmap (2 * touched (off + tot) (n - tot)) t u ∧
      Held (fun b => r.1 < n ∧ b = addrOf u.blk (u.inode e).d ((off + r.1) / bsize)) t u) F t := by
  have hs := sizes
  have hb : bsize = 1024 := hs.1
  induction k generalizing tot t with
  | zero => exact ⟨rfl, htot, hread, halign, ⟨0, .done (show tot = n by omega), h⟩, Logs.of_eq rfl, Held.of_eq rfl rfl⟩
  | succ k ih =>
      rw [writeiLoop]
      apply wp_ite
      · intro hlt
        rw [wp_bind]
        have hat := (h.keep.entry e i trivial he).1
        have htouch : 1 ≤ touched (off + tot) (n - tot) := by
          rw [touched, hb, if_neg (by omega)]
          omega
        have hbn : (off + tot) / bsize < maxFile := by
          rw [hb] at hmax ⊢
          omega
        have hbm : ∀ c, t.sb.IsBitmap c → s.sb.IsBitmap c := fun c hc => h.keep.sb ▸ hc
        refine wp_post (wp_also (bmap_spec h.inv hat (h.valid hv) hX (h.type ht) (h.keep.trans.trans htrans)
          (hbig.mono hbm (by omega)) hbn) (bmap_held (A := fun _ => False) t)) ?_
        rintro addr w ⟨⟨hinv, hgrow, haddr, hlogs, hfull⟩, hheld⟩
        have hw := h.grow hinv hgrow
        have hor : ∀ c, (t.sb.IsBitmap c ∨ c = (w.inode e).d.addrs ndirect ∨ c = addr) →
            (s.sb.IsBitmap c ∨ c = (w.inode e).d.addrs ndirect) ∨ c = addr := by
          rintro c (hc | hc | hc)
          · exact Or.inl (Or.inl (hbm c hc))
          · exact Or.inl (Or.inr hc)
          · exact Or.inr hc
        have hlogs₁ := hlogs.mono hor (Nat.le_refl _)
        have hlogs₂ : Logs s.sb.IsBitmap 2 t w := hlogs₁.add.add
        apply wp_ite
        · rintro rfl
          exact ⟨rfl, htot, hread, halign, ⟨0, .noBlock hlt haddr (hfull rfl), hw⟩,
            hlogs₂.mono (fun _ hc => hc) (by omega), hheld.mono fun _ hc => hc.elim⟩
        · intro hne
          simp only [wp_bind, wp_get]
          have hmod := Nat.mod_lt (off + tot) (show 0 < bsize by omega)
          have hle := readable_le src tot (min (n - tot) (bsize - (off + tot) % bsize))
          have hne' : addrOf w.blk (w.inode e).d ((off + tot) / bsize) ≠ 0 := by rw [haddr]; exact hne
          apply wp_ite
          · intro hbad
            simp only [wp_bind, wp_modify, wp_pure]
            have hstep := hw.write (m := 0) (r := readable src tot (min (n - tot) (bsize - (off + tot) % bsize)))
              (u := w.setBlk addr (blit (w.blk addr) ((off + tot) % bsize) (fun x => (src x).getD 0) tot
                (readable src tot (min (n - tot) (bsize - (off + tot) % bsize))))) he hv ht hne' rfl rfl rfl
              (by rw [haddr, Nat.zero_add]) (by omega)
            obtain ⟨_, _, _, hsame, _⟩ := hw.inv.writeData (u := w.setBlk addr (blit (w.blk addr) ((off + tot) % bsize)
              (fun x => (src x).getD 0) tot (readable src tot (min (n - tot) (bsize - (off + tot) % bsize)))))
              (hw.keep.entry e i trivial he).1 (hw.valid hv) (hw.type ht) hne' rfl rfl (by rw [haddr])
            refine ⟨trivial, htot, hread, halign, ⟨_, .copy ?_ (fun x hx => readable_isSome hx) (readable_none hbad)
              (by omega) (by omega), hstep⟩, hlogs₂.mono (fun _ hc => hc) (by omega),
              (hheld.trans Held.of_setBlk fun _ hc => hc.elim).mono fun b hb => ⟨hlt, ?_⟩⟩
            · exact fun hz => hne' ((hsame _).symm.trans hz)
            · exact hb.trans ((hsame _).trans haddr).symm
          · intro hgood
            have hreq : readable src tot (min (n - tot) (bsize - (off + tot) % bsize)) =
                min (n - tot) (bsize - (off + tot) % bsize) := by omega
            simp only [wp_bind, hreq]
            have hlogs₃ : Logs s.sb.IsBitmap 2 t (w.wrote addr (blit (w.blk addr) ((off + tot) % bsize)
                (fun x => (src x).getD 0) tot (min (n - tot) (bsize - (off + tot) % bsize)))) :=
              (hlogs₁.comp logs_wrote (fun _ hc => hc) (fun _ hc => Or.inr hc) (Nat.le_refl _)).add.add
            refine wp_logWrite (hgrow.keep.trans.trans (h.keep.trans.trans htrans))
              (hbig.stop (hlogs₂.mono (fun _ hc => hc) (by omega))) ?_
            have hstep := hw.write (r := 0) (m := min (n - tot) (bsize - (off + tot) % bsize)) (u := w.wrote addr (blit (w.blk addr) ((off + tot) % bsize)
              (fun x => (src x).getD 0) tot (min (n - tot) (bsize - (off + tot) % bsize)))) he hv ht hne' rfl rfl rfl
              (by rw [haddr]; rfl) (by omega)
            have hcount : 1 + touched (off + (tot + min (n - tot) (bsize - (off + tot) % bsize)))
                (n - (tot + min (n - tot) (bsize - (off + tot) % bsize))) ≤ touched (off + tot) (n - tot) := by
              rw [touched, touched, hb, if_neg (show n - tot ≠ 0 by omega)]
              split <;> omega
            have hread' : ∀ x, x < tot + min (n - tot) (bsize - (off + tot) % bsize) → (src x).isSome = true := by
              intro x hx
              by_cases hxt : x < tot
              · exact hread x hxt
              · have hx' : x - tot < readable src tot (min (n - tot) (bsize - (off + tot) % bsize)) := by omega
                have := readable_isSome hx'
                rwa [Nat.add_sub_cancel' (by omega)] at this
            have halign' : tot + min (n - tot) (bsize - (off + tot) % bsize) = n ∨
                (off + (tot + min (n - tot) (bsize - (off + tot) % bsize))) % bsize = 0 := by
              rw [hb]
              omega
            rw [Nat.add_assoc]
            refine wp_post (ih hstep (by omega) hread' (Or.inr halign') (by omega)
              (hbig.after hlogs₃ (fun _ hc => hc) (fun _ hc => hc) (by omega))) ?_
            rintro r u ⟨h₁, h₂, h₃, h₄, h₅, h₆, h₇⟩
            exact ⟨h₁, h₂, h₃, h₄, h₅, hlogs₃.comp h₆ (fun _ hc => hc) (fun _ hc => hc) (by omega),
              (hheld.trans held_wrote fun _ hc => hc).trans h₇ fun _ hc => hc.elim⟩
      · intro hge
        exact ⟨rfl, htot, hread, halign, ⟨0, .done (show tot = n by omega), h⟩, Logs.of_eq rfl, Held.of_eq rfl rfl⟩

/-- The end of `writei`: the size, and the inode on the disk. -/
theorem Writing.finish {src : Nat → Option Byte} {off tot r : Nat} (h : Writing X e i src off tot r s t)
    (he : s.At e i) (hv : (s.inode e).valid = true) (hX : X e) (ht : (s.inode e).d.type ≠ 0)
    (hoff : off ≤ (s.inode e).d.size) (hmax : off + tot ≤ maxFile * bsize)
    (hf : fileOf s.blk (s.inode e).d = f) :
    let d := (t.inode e).d
    let u := if off + tot > d.size then t.setD e { d with size := off + tot } else t
    Inv X [] u ∧ u.refs = s.refs ∧ Keep All s u ∧ (∃ d', u = t.setD e d' ∧ d'.addrs = d.addrs) ∧ (u.inode e).d.type ≠ 0 ∧
      ∃ f', u.file = Function.update s.file i (some f') ∧ Written f src off tot r f' := by
  intro d u
  subst hf
  have hcap : maxFile * bsize = 274432 := rfl
  have hat := (h.keep.entry e i trivial he).1
  have hvt := h.valid hv
  have htt := h.type ht
  have hsize := h.size
  have hi := (h.inv.table.range e i hat).1
  have hwf := h.inv.table.wf e i hat hvt
  obtain ⟨a, ha⟩ := h.entry
  have hd : d = { (s.inode e).d with addrs := a } := by
    show (t.inode e).d = _
    rw [ha]
  -- in both cases the inode is the old one with blocks for all bytes up to the new size
  have key : ∀ d' : Dinode, d' = { d with size := max (s.inode e).d.size (off + tot) } →
      Written (fileOf s.blk (s.inode e).d) src off tot r (fileOf t.blk d') := by
    rintro d' rfl
    have hraw : ∀ x, rawByte t.blk { d with size := max (s.inode e).d.size (off + tot) } x = rawByte t.blk d x :=
      fun _ => rfl
    refine ⟨by rw [hd]; rfl, by rw [hd]; rfl, by rw [hd]; rfl, by rw [hd]; rfl, rfl, fun x => ?_⟩
    simp only [fileOf, hraw]
    by_cases hx : x < max (s.inode e).d.size (off + tot)
    · rw [if_pos hx, h.byte x hx]
      by_cases hin : off ≤ x ∧ x < off + (tot + r)
      · rw [if_pos hin, if_pos ⟨hin.1, hin.2, hx⟩]
      · rw [if_neg hin, if_neg (fun h => hin ⟨h.1, h.2.1⟩), if_pos (by omega)]
    · rw [if_neg hx, if_neg (fun h => hx h.2.2), if_neg (by omega)]
  by_cases hgt : off + tot > d.size
  · have hu : u = t.setD e { d with size := off + tot } := if_pos hgt
    have hmx : max (s.inode e).d.size (off + tot) = off + tot := by
      rw [← hsize]
      exact Nat.max_eq_right (Nat.le_of_lt hgt)
    have hwf' : Dinode.Wf { d with size := off + tot } :=
      ⟨hwf.type, hwf.major, hwf.minor, hwf.nlink, show off + tot < 2 ^ 32 by omega, hwf.addrs, hwf.high⟩
    have hN : NoHole t.blk { d with size := off + tot } := fun m hm => h.mapped m (by rw [hmx]; exact hm)
    obtain ⟨h₁, h₂, h₃⟩ := h.inv.setFields hat hvt hX htt (d := { d with size := off + tot }) rfl hwf' htt hN
    rw [hu]
    refine ⟨h₁, h₂.trans h.refs, h.keep.trans' (setD_keep _), ⟨_, rfl, rfl⟩, by rw [setD_inode]; exact htt, _, ?_,
      key _ (by rw [hmx])⟩
    rw [h₃]
    funext j
    obtain rfl | hji := eq_or_ne j i
    · rw [update_self, update_self]
    · rw [update_of_ne hji, update_of_ne hji]
      exact h.file j hji
  · have hu : u = t := if_neg hgt
    have hmx : max (s.inode e).d.size (off + tot) = d.size := by
      rw [← hsize]
      exact Nat.max_eq_left (Nat.le_of_not_gt hgt)
    rw [hu]
    refine ⟨h.inv, h.refs, h.keep, ⟨d, ?_, rfl⟩, htt, _, ?_, key d (by rw [hmx])⟩
    · rw [Fs.setD, Fs.setInode, update_eq_self]
    · funext j
      obtain rfl | hji := eq_or_ne j i
      · rw [update_self, file_of_valid h.inv.table hat hvt htt]
      · rw [update_of_ne hji]
        exact h.file j hji

/-- A call of `writei` on inode `i` at entry `e` that returned `tot`. -/
structure WriteOk (X : Nat → Prop) (e i : Nat) (src : Nat → Option Byte) (off n : Nat) (f : FileView) (s : Fs) (tot : Nat)
    (t : Fs) : Prop where
  le : tot ≤ n
  start : off ≤ f.size
  fits : off + n ≤ maxFile * bsize
  read : ∀ x, x < tot → (src x).isSome = true
  aligned : tot = 0 ∨ tot = n ∨ (off + tot) % bsize = 0
  inv : Inv X [] t
  keep : Keep All s t
  refs : t.refs = s.refs
  node : ∀ j, j ≠ i → j < s.sb.ninodes → t.node j = s.node j
  addr : ∀ m, addrOf s.blk (s.inode e).d m ≠ 0 → addrOf t.blk (t.inode e).d m = addrOf s.blk (s.inode e).d m
  held : Held (fun b => tot < n ∧ b = addrOf t.blk (t.inode e).d ((off + tot) / bsize)) s t
  stop : ∃ r f', WriteEnd src off n tot (addrOf t.blk (t.inode e).d ((off + tot) / bsize)) t.Full r ∧
    t.file = Function.update s.file i (some f') ∧ Written f src off tot r f'

theorem node_of_other (he : s.At e i) (hother : ∀ e', e' ≠ e → t.inode e' = s.inode e')
    (hentry : ∃ d, t.inode e = { s.inode e with d := d }) (hji : j ≠ i) (hdisk : t.disk j = s.disk j) : t.node j = s.node j := by
  have hsame : ∀ e', (t.inode e').ref = (s.inode e').ref ∧ (t.inode e').dev = (s.inode e').dev ∧
      (t.inode e').inum = (s.inode e').inum := by
    intro e'
    obtain rfl | hne := eq_or_ne e' e
    · obtain ⟨d, hd⟩ := hentry
      rw [hd]
      exact ⟨rfl, rfl, rfl⟩
    · rw [hother e' hne]
      exact ⟨rfl, rfl, rfl⟩
  have hfind : t.find rootDev j = s.find rootDev j := by
    simp only [Fs.find, fun e' => (hsame e').1, fun e' => (hsame e').2.1, fun e' => (hsame e').2.2]
  rw [Fs.node, Fs.node, hfind]
  cases hf : s.find rootDev j with
  | none => exact hdisk
  | some e' =>
      have hne : e' ≠ e := by
        rintro rfl
        have := List.find?_some hf
        simp only [Bool.and_eq_true, beq_iff_eq] at this
        exact hji (this.2.symm.trans he.inum)
      simp only [hother e' hne, hdisk]

/-- `writei` fails without a change, or writes some bytes. -/
theorem writei_spec {src : Nat → Option Byte} {off n : Nat} (h : Inv X [] s) (he : s.At e i)
    (hv : (s.inode e).valid = true) (ht : (s.inode e).d.type ≠ 0) (htrans : s.trans = true) (hf : s.file i = some f)
    (hbig : TooBig F (fun c => s.sb.IsBitmap c ∨ c = s.sb.iblock i) (2 * touched off n) s) :
    wp (writei e src off n) (fun r t => (r = none ∧ t = s ∧ (f.size < off ∨ maxFile * bsize < off + n)) ∨
      ∃ tot, r = some tot ∧ WriteOk X e i src off n f s tot t ∧
        Logs (fun c => s.sb.IsBitmap c ∨ c = s.sb.iblock i) (2 * touched off n) s t) F s := by
  have hs := sizes
  have hb : bsize = 1024 := hs.1
  have hi := (h.table.range e i he).1
  have hfe : fileOf s.blk (s.inode e).d = f := by
    rw [file_of_valid h.table he hv ht] at hf
    exact Option.some.inj hf
  have hN : NoHole s.blk (s.inode e).d := by
    have hn := h.table.node_of_valid he hv
    rw [← hn]
    exact h.blocks.noHole i hi (by rw [hn]; exact ht)
  have hcap : maxFile * bsize = 274432 := rfl
  have hle := hN.size_le
  have hsz : f.size = (s.inode e).d.size := by rw [← hfe]; rfl
  simp only [writei, wp_bind, wp_get]
  apply wp_ite
  · intro hbad
    exact Or.inl ⟨rfl, rfl, by omega⟩
  · intro hoff
    have hoff' : off ≤ (s.inode e).d.size := by omega
    apply wp_ite
    · intro hbad
      exact Or.inl ⟨rfl, rfl, Or.inr hbad⟩
    · intro hmax
      rw [wp_bind]
      have h' : Inv (fun e' => X e' ∨ e' = e) [] s := h.mono fun _ hx => Or.inl hx
      have hstart := Writing.start e i src h' hN hoff'
      refine wp_post (writeiLoop_spec hstart he hv (Or.inr rfl) ht htrans (by omega) (Nat.zero_le _)
        (fun x hx => absurd hx (Nat.not_lt_zero x)) (Or.inl rfl) (by omega)
        (hbig.mono (fun _ hc => Or.inl hc) (by rw [Nat.add_zero, Nat.sub_zero]))) ?_
      rintro ⟨tot, off'⟩ t ⟨hoff₂, htot, hread, halign, ⟨r, hstop, hw⟩, hlogs, hheld⟩
      simp only at hoff₂ htot hstop hw hheld
      subst hoff₂
      obtain ⟨h₁, h₂, h₃, ⟨d', h₄, haddrs⟩, h₅, f', h₆, h₇⟩ := hw.finish he hv (Or.inr rfl) ht hoff' (by omega) hfe
      simp only [wp_bind, wp_modify, wp_pure]
      rw [h₄] at h₁ h₂ h₃ h₅ h₆ ⊢
      have hat := (h₃.entry e i trivial he).1
      have hlogs' : Logs (fun c => s.sb.IsBitmap c ∨ c = s.sb.iblock i) (2 * touched off n) s (t.setD e d') := by
        refine hlogs.comp (Logs.of_eq rfl (A := fun _ => False) (k := 0)) (fun _ hc => Or.inl hc) (fun _ hc => hc.elim) ?_
        rw [Nat.add_zero, Nat.add_zero, Nat.sub_zero]
      have hheld' : Held (fun b => tot < n ∧ b = addrOf t.blk (t.inode e).d ((off + tot) / bsize)) s (t.setD e d') :=
        ⟨hheld.logged, hheld.blk⟩
      refine wp_post (wp_also (iupdate_spec h₁.layout h₁.table hat ((h₃.entry e i trivial he).2 hv) (h₃.trans.trans htrans)
        (hbig.stop hlogs')) (iupdate_held (A := fun _ => False) _)) ?_
      rintro _ u ⟨hu, hheld₂⟩
      have hvt := (h₃.entry e i trivial he).2 hv
      have hnode := h₁.table.node_of_valid hat hvt
      have hsame : ∀ m, addrOf u.blk (u.inode e).d m = addrOf t.blk (t.inode e).d m := by
        intro m
        have hm : addrOf u.blk ((t.setD e d').node i) m = _ := hu.same.addrOf h₁.blocks.toOwnOk (h₁.table.range e i hat).1
          (by rw [hnode]; exact h₅)
        rw [hnode] at hm
        rw [hu.inode, hm, setD_inode]
        exact addrOf_of_addrs haddrs
      refine Or.inr ⟨tot, rfl, ⟨htot, by omega, by omega, hread, halign, hu.inv h₁ hat (Or.inr h₅) fun e' hne hX =>
        hX.resolve_right hne, h₃.trans' (hu.keep _), hu.refs.trans h₂, fun j hji hj => ?_,
        fun m hm => (hsame m).trans (hw.addr m hm), ?_, r, f', ?_, (hu.file h₁.blocks).trans h₆, h₇⟩,
        hlogs'.comp hu.logs (fun _ hc => hc) (fun c hc => Or.inr ?_) (Nat.le_refl _)⟩
      · refine node_of_other he (fun e' hne => ?_) ?_ hji ?_
        · rw [hu.inode, Fs.setD, setInode_ne hne]
          exact hw.other e' hne
        · obtain ⟨a, ha⟩ := hw.entry
          exact ⟨d', by rw [hu.inode, setD_inode, ha]⟩
        · rw [hu.disk, update_of_ne hji]
          exact hw.disk j hj
      · rw [hsame]
        exact hheld'.trans (hheld₂.mono fun _ hc => hc.elim) fun _ hc => hc
      · refine hstop.congr (hsame _) fun hfull c hc => ?_
        rw [hu.sb] at hc
        exact (hu.same.used c hc).trans (hfull c hc)
      · rw [hc, h₃.sb]

end Xv6.Fs
