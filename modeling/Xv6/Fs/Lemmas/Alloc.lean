import Xv6.Lib.Count
import Xv6.Fs.Lemmas.Table

/-!
# Block ownership, `balloc` and `bfree`
-/

namespace Xv6.Fs

open Lib Function

variable {s t : Fs} {e i j b c : Nat} {X : Nat → Prop} {extra : List Nat} {d : Dinode} {blk blk' : Nat → Block}
  {F : Stop → Fs → Prop} {data : Block}

/-! ## The slots of an inode -/

theorem indirect_congr (h : ∀ x, x < bsize → blk' (d.addrs ndirect) x = blk (d.addrs ndirect) x ∨ d.addrs ndirect = 0)
    (hj : j < nindirect) : indirect blk' d j = indirect blk d j := by
  have hs := sizes
  simp only [indirect]
  split
  · rfl
  · rename_i hne
    exact load_congr fun x hx => (h _ (by omega)).resolve_right hne

theorem slots_congr (h : ∀ x, x < bsize → blk' (d.addrs ndirect) x = blk (d.addrs ndirect) x ∨ d.addrs ndirect = 0) :
    slots blk' d = slots blk d := by
  simp only [slots]
  congr 1
  exact List.map_congr_left fun j hj => indirect_congr h (List.mem_range.1 hj)

theorem mem_slots_addrs {k : Nat} (hk : k < ndirect + 1) : d.addrs k ∈ slots blk d :=
  List.mem_append_left _ (List.mem_map.2 ⟨k, List.mem_range.2 hk, rfl⟩)

theorem mem_slots_indirect (hj : j < nindirect) : indirect blk d j ∈ slots blk d :=
  List.mem_append_right _ (List.mem_map.2 ⟨j, List.mem_range.2 hj, rfl⟩)

theorem mem_slots_addrOf {bn : Nat} (h : addrOf blk d bn ≠ 0) : addrOf blk d bn ∈ slots blk d := by
  have hs := sizes
  simp only [addrOf] at h ⊢
  split at h
  · rename_i hbn
    rw [if_pos hbn]
    exact mem_slots_addrs (by omega)
  · rename_i hbn
    rw [if_neg hbn]
    split at h
    · rename_i hbn'
      rw [if_pos hbn']
      exact mem_slots_indirect hbn'
    · exact absurd rfl h

theorem addrOf_congr {bn : Nat}
    (h : ∀ x, x < bsize → blk' (d.addrs ndirect) x = blk (d.addrs ndirect) x ∨ d.addrs ndirect = 0) :
    addrOf blk' d bn = addrOf blk d bn := by
  simp only [addrOf]
  split
  · rfl
  · split
    · exact indirect_congr h ‹_›
    · rfl

theorem fileOf_congr (hN : NoHole blk d) (h : ∀ b ∈ slots blk d, b ≠ 0 → ∀ x, x < bsize → blk' b x = blk b x) :
    fileOf blk' d = fileOf blk d := by
  have hs := sizes
  have htbl : ∀ x, x < bsize → blk' (d.addrs ndirect) x = blk (d.addrs ndirect) x ∨ d.addrs ndirect = 0 := by
    intro x hx
    by_cases hz : d.addrs ndirect = 0
    · exact Or.inr hz
    · exact Or.inl (h _ (mem_slots_addrs (Nat.lt_succ_self _)) hz x hx)
  simp only [fileOf, FileView.mk.injEq, true_and]
  funext k
  split
  · rename_i hk
    have haddr : addrOf blk d (k / bsize) ≠ 0 := hN _ (by have := Nat.div_mul_le_self k bsize; omega)
    simp only [rawByte, addrOf_congr htbl]
    exact h _ (mem_slots_addrOf haddr) haddr _ (Nat.mod_lt _ (by omega))
  · rfl

theorem noHole_congr (hN : NoHole blk d)
    (h : ∀ x, x < bsize → blk' (d.addrs ndirect) x = blk (d.addrs ndirect) x ∨ d.addrs ndirect = 0) : NoHole blk' d :=
  fun bn hbn => by
    rw [addrOf_congr h]
    exact hN bn hbn

/-! ## Owners -/

namespace OwnOk

/-- The address in a slot is a data block in use, and no other slot or block in flight has it. -/
theorem of_mem (h : OwnOk extra s) (hi : i < s.sb.ninodes) (ht : (s.node i).type ≠ 0) (hb : b ≠ 0)
    (hmem : b ∈ slots s.blk (s.node i)) :
    s.sb.IsData b ∧ s.used b = true ∧ (slots s.blk (s.node i)).count b = 1 ∧ b ∉ extra ∧
      ∀ j, j < s.sb.ninodes → (s.node j).type ≠ 0 → b ∈ slots s.blk (s.node j) → j = i := by
  have hat : s.slotsAt b i = (slots s.blk (s.node i)).count b := if_neg ht
  have hpos : 0 < s.slotsAt b i := by
    rw [hat]
    exact List.count_pos_iff.2 hmem
  have hle : s.slotsAt b i ≤ s.slotCount b := le_sum (Finset.mem_range.2 hi)
  have hown := h.own b hb
  split at hown
  · rename_i hc
    refine ⟨hc.1, hc.2, by omega, ?_, fun j hj htj hmemj => ?_⟩
    · rw [← List.count_eq_zero]
      omega
    · by_contra hne
      have hposj : 0 < s.slotsAt b j := by
        rw [Fs.slotsAt, if_neg htj]
        exact List.count_pos_iff.2 hmemj
      have hsum : s.slotsAt b j + s.slotsAt b i ≤ s.slotCount b :=
        add_le_sum (Finset.mem_range.2 hj) (Finset.mem_range.2 hi) hne
      omega
  · omega

theorem slotCount_eq_zero (h : OwnOk extra s) (hb : b ≠ 0) (hf : ¬ (s.sb.IsData b ∧ s.used b = true)) :
    s.slotCount b = 0 := by
  have := h.own b hb
  rw [if_neg hf] at this
  omega

/-- A data block is in use if and only if a slot has its address. -/
theorem used_iff (h : OwnOk [] s) (hb : b ≠ 0) (hd : s.sb.IsData b) :
    s.used b = true ↔ ∃ j, j < s.sb.ninodes ∧ (s.node j).type ≠ 0 ∧ b ∈ slots s.blk (s.node j) := by
  constructor
  · intro hused
    have hown := h.own b hb
    rw [if_pos ⟨hd, hused⟩, List.count_nil, Nat.add_zero] at hown
    obtain ⟨j, hj, hne⟩ := Finset.exists_ne_zero_of_sum_ne_zero (show s.slotCount b ≠ 0 by omega)
    by_cases ht : (s.node j).type = 0
    · exact absurd (if_pos ht) hne
    · rw [Fs.slotsAt, if_neg ht] at hne
      exact ⟨j, Finset.mem_range.1 hj, ht, List.count_pos_iff.1 (Nat.pos_of_ne_zero hne)⟩
  · rintro ⟨j, hj, ht, hmem⟩
    exact (h.of_mem hj ht hb hmem).2.1

end OwnOk

theorem slotCount_change (hsb : t.sb = s.sb) (hi : i < s.sb.ninodes)
    (h : ∀ j, j < s.sb.ninodes → j ≠ i → t.slotsAt b j = s.slotsAt b j) :
    t.slotCount b + s.slotsAt b i = s.slotCount b + t.slotsAt b i := by
  simp only [Fs.slotCount, hsb]
  exact sum_change (s.slotsAt b) (t.slotsAt b) (Finset.mem_range.2 hi) fun j hj hne => h j (Finset.mem_range.1 hj) hne

theorem slotsAt_congr (hnode : t.node j = s.node j) (h : (s.node j).type ≠ 0 → ∀ x, x < bsize →
    t.blk ((s.node j).addrs ndirect) x = s.blk ((s.node j).addrs ndirect) x ∨ (s.node j).addrs ndirect = 0) :
    t.slotsAt b j = s.slotsAt b j := by
  simp only [Fs.slotsAt, hnode]
  split
  · rfl
  · rename_i ht
    rw [slots_congr (h ht)]

theorem slotCount_congr (hsb : t.sb = s.sb) (h : ∀ j, j < s.sb.ninodes → t.slotsAt b j = s.slotsAt b j) :
    t.slotCount b = s.slotCount b := by
  simp only [Fs.slotCount, hsb]
  exact Finset.sum_congr rfl fun j hj => h j (Finset.mem_range.1 hj)

/-! ## The inode table over a changed disk -/

theorem find_congr (h : t.inode = s.inode) : t.find rootDev i = s.find rootDev i := by
  simp only [Fs.find, h]

theorem node_congr (h : t.inode = s.inode) (hdisk : t.disk i = s.disk i) : t.node i = s.node i := by
  simp only [Fs.node, find_congr h, h, hdisk]

theorem refs_congr (h : t.inode = s.inode) : t.refs = s.refs := by
  funext i
  simp only [Fs.refs, find_congr h, h]

theorem at_iff (h : t.inode = s.inode) : t.At e i ↔ s.At e i := at_congr fun e => by rw [h]; exact ⟨rfl, rfl⟩

theorem TableOk.congr (h : TableOk X s) (hinode : t.inode = s.inode) (hsb : t.sb = s.sb)
    (hdisk : ∀ i, i < s.sb.ninodes → t.disk i = s.disk i) : TableOk X t where
  uniq := fun e e' i h₁ h₂ => h.uniq e e' i ((at_iff hinode).1 h₁) ((at_iff hinode).1 h₂)
  range := fun e i h₁ => by
    rw [hinode, hsb]
    exact h.range e i ((at_iff hinode).1 h₁)
  pos := fun e i h₁ => h.pos e i ((at_iff hinode).1 h₁)
  wf := fun e i h₁ => by
    rw [hinode]
    exact h.wf e i ((at_iff hinode).1 h₁)
  clean := fun e i h₁ => by
    have hat := (at_iff hinode).1 h₁
    rw [hinode, hdisk i (h.range e i hat).1]
    exact h.clean e i hat
  typed := fun e i h₁ => by
    rw [hinode]
    exact h.typed e i ((at_iff hinode).1 h₁)

theorem Keep.of_inode {P : Nat → Prop} (hinode : t.inode = s.inode) (hsb : t.sb = s.sb) (htrans : t.trans = s.trans) :
    Keep P s t := ⟨hsb, htrans, fun e i _ he => ⟨(at_iff hinode).2 he, by rw [hinode]; exact id⟩⟩

/-! ## The log -/

/-- The blocks logged between `s` and `t`: those of `A`, and at most `k` others. -/
def Logs (A : Nat → Prop) (k : Nat) (s t : Fs) : Prop :=
  (s.logged.Nodup → t.logged.Nodup) ∧
    ∃ N : List Nat, N.length ≤ k ∧ ∀ b ∈ t.logged, b ∈ s.logged ∨ A b ∨ b ∈ N

namespace Logs

variable {A A' B : Nat → Prop} {k k' : Nat}

theorem of_eq (h : t.logged = s.logged) : Logs A k s t :=
  ⟨fun hn => h ▸ hn, [], Nat.zero_le _, fun b hb => Or.inl (h ▸ hb)⟩

theorem comp {u : Fs} {n : Nat} (h : Logs A k s t) (h' : Logs A' k' t u) (hA : ∀ b, A b → B b)
    (hA' : ∀ b, A' b → B b) (hk : k + k' ≤ n) : Logs B n s u := by
  obtain ⟨hn, N, hN, hmem⟩ := h
  obtain ⟨hn', N', hN', hmem'⟩ := h'
  refine ⟨fun h => hn' (hn h), N ++ N', by rw [List.length_append]; omega, fun b hb => ?_⟩
  rcases hmem' b hb with hb | hb | hb
  · rcases hmem b hb with hb | hb | hb
    · exact Or.inl hb
    · exact Or.inr (Or.inl (hA b hb))
    · exact Or.inr (Or.inr (List.mem_append_left _ hb))
  · exact Or.inr (Or.inl (hA' b hb))
  · exact Or.inr (Or.inr (List.mem_append_right _ hb))

theorem mono {n : Nat} (h : Logs A k s t) (hA : ∀ b, A b → B b) (hk : k ≤ n) : Logs B n s t :=
  h.comp (of_eq (A := B) (k := 0) rfl) hA (fun _ hb => hb) (by omega)

theorem add {b : Nat} (h : Logs (fun c => A c ∨ c = b) k s t) : Logs A (k + 1) s t := by
  obtain ⟨hn, N, hN, hmem⟩ := h
  refine ⟨hn, b :: N, Nat.succ_le_succ hN, fun c hc => ?_⟩
  rcases hmem c hc with hc | (hc | rfl) | hc
  · exact Or.inl hc
  · exact Or.inr (Or.inl hc)
  · exact Or.inr (Or.inr (List.mem_cons_self ..))
  · exact Or.inr (Or.inr (List.mem_cons_of_mem _ hc))

end Logs

/-- The state after `log_write`. -/
def Fs.wrote (s : Fs) (b : Nat) (data : Block) : Fs :=
  { s.setBlk b data with logged := if b ∈ s.logged then s.logged else s.logged ++ [b] }

/-- The transaction is too big in every state with blocks of `A` and at most `k` others logged after `s`. -/
abbrev TooBig (F : Stop → Fs → Prop) (A : Nat → Prop) (k : Nat) (s : Fs) : Prop :=
  ∀ t, Logs A k s t → logBlocks ≤ t.logged.length → F (.panic .tooBig) t

theorem TooBig.after {A A' B : Nat → Prop} {k k' n : Nat} (h : TooBig F B n s) (hl : Logs A k s t) (hA : ∀ b, A b → B b)
    (hA' : ∀ b, A' b → B b) (hk : k + k' ≤ n) : TooBig F A' k' t := fun u hu => h u (hl.comp hu hA hA' hk)

theorem TooBig.mono {A B : Nat → Prop} {k n : Nat} (h : TooBig F B n s) (hA : ∀ b, A b → B b) (hk : k ≤ n) : TooBig F A k s :=
  fun u hu => h u (hu.mono hA hk)

theorem TooBig.none {A : Nat → Prop} {k : Nat} (h : TooBig F A k s) : TooBig F (fun _ => False) 0 s :=
  h.mono (fun _ hb => hb.elim) (Nat.zero_le _)

/-- What is logged is within the bound: no more may follow. -/
theorem TooBig.stop {B : Nat → Prop} {n : Nat} (h : TooBig F B n s) (hl : Logs B n s t) : TooBig F (fun _ => False) 0 t :=
  h.after hl (fun _ hc => hc) (fun _ hc => hc.elim) (Nat.le_refl _)

theorem wp_logWrite {Q : Unit → Fs → Prop} (htrans : s.trans = true) (hbig : TooBig F (fun _ => False) 0 s)
    (hQ : Q () (s.wrote b data)) : wp (logWrite b data) Q F s := by
  simp only [logWrite, wp_bind, wp_modify, wp_get]
  refine wp_ite (fun hlen => hbig _ (Logs.of_eq rfl) hlen) fun _ => wp_ite (fun h => absurd htrans h) fun _ => ?_
  exact hQ

theorem mem_wrote {c : Nat} (h : c ∈ (s.wrote b data).logged) : c ∈ s.logged ∨ c = b := by
  simp only [Fs.wrote] at h
  split at h
  · exact Or.inl h
  · simpa using h

theorem nodup_wrote (h : s.logged.Nodup) : (s.wrote b data).logged.Nodup := by
  simp only [Fs.wrote]
  split
  · exact h
  · rename_i hb
    exact List.nodup_append.2 ⟨h, by simp, by rintro x hx y hy rfl; exact hb (List.mem_singleton.1 hy ▸ hx)⟩

theorem logs_wrote : Logs (· = b) 0 s (s.wrote b data) :=
  ⟨nodup_wrote, [], Nat.le_refl _, fun _ hc => (mem_wrote hc).imp_right Or.inl⟩

/-! ## `balloc` and `bfree` -/

/-- The blocks of the free map. -/
def Super.IsBitmap (sb : Super) (b : Nat) : Prop := ∃ c, c < sb.size ∧ b = sb.bblock c

/-- The bit of block `b` becomes `v`, and no other data block, inode or bit changes. -/
structure BitStep (s : Fs) (b : Nat) (v : Bool) (t : Fs) : Prop where
  inode : t.inode = s.inode
  sb : t.sb = s.sb
  trans : t.trans = s.trans
  used : ∀ c, c < s.sb.size → t.used c = if c = b then v else s.used c
  disk : ∀ i, i < s.sb.ninodes → t.disk i = s.disk i
  blk : ∀ c, s.sb.IsData c → c ≠ b → t.blk c = s.blk c

/-- `balloc` returned `b`. -/
structure Alloc (s : Fs) (b : Nat) (t : Fs) : Prop extends BitStep s b true t where
  isData : s.sb.IsData b
  free : s.used b = false
  zero : ∀ x, x < bsize → t.blk b x = 0
  logs : Logs (fun c => s.sb.IsBitmap c ∨ c = b) 0 s t

structure Freed (s : Fs) (b : Nat) (t : Fs) : Prop extends BitStep s b false t where
  same : s.sb.IsData b → t.blk b = s.blk b
  logs : Logs s.sb.IsBitmap 0 s t

theorem bitStep_wrote {v : Bool} (data : Block) (hl : s.sb.Layout) (hb : b < s.sb.size)
    (hbit : ∀ bj, bitSet data bj = if bj = b % bpb then v else bitSet (s.blk (s.sb.bblock b)) bj) :
    BitStep s b v (s.wrote (s.sb.bblock b) data) ∧
      ∀ c, s.sb.IsData c → (s.wrote (s.sb.bblock b) data).blk c = s.blk c := by
  have hblk : ∀ c, s.sb.IsData c → (s.wrote (s.sb.bblock b) data).blk c = s.blk c := by
    intro c hc
    refine update_of_ne ?_ ..
    have h₁ := hl.bblock_lt hb
    have h₂ := hc.1
    omega
  refine ⟨⟨rfl, rfl, rfl, fun c _ => ?_, fun i hi => ?_, fun c hc _ => hblk c hc⟩, hblk⟩
  · have := used_setBlk_bblock (s := s) hbit
    show (s.setBlk (s.sb.bblock b) data).used c = _
    rw [this, update_apply]
  · refine disk_setBlk_of_ne (s := s) (fun j hj => ?_) hi
    have h₁ := hl.iblock_lt hj
    have h₂ := Super.Layout.bblock_ge s.sb b
    omega

theorem data_wrote (data : Block) (hl : s.sb.Layout) (hb : s.sb.IsData b) :
    (∀ c, c < s.sb.size → (s.setBlk b data).used c = s.used c) ∧
      ∀ i, i < s.sb.ninodes → (s.setBlk b data).disk i = s.disk i := by
  have hge := hb.1
  refine ⟨fun c hc => used_setBlk_of_ne ?_, fun i hi => disk_setBlk_of_ne (fun j hj => ?_) hi⟩
  · have := hl.bblock_lt hc
    omega
  · have h₁ := hl.iblock_lt hj
    have h₂ := Super.Layout.bblock_ge s.sb 0
    have h₃ := hl.bblock_lt (c := 0) (by have := hb.2; omega)
    omega

theorem data_same (hsb : t.sb = s.sb) (hblk : t.blk = (s.setBlk b data).blk) (hl : s.sb.Layout) (hb : s.sb.IsData b) :
    (∀ c, c < s.sb.size → t.used c = s.used c) ∧ ∀ i, i < s.sb.ninodes → t.disk i = s.disk i := by
  obtain ⟨hused, hdisk⟩ := data_wrote data hl hb
  refine ⟨fun c hc => Eq.trans ?_ (hused c hc), fun i hi => Eq.trans ?_ (hdisk i hi)⟩
  · simp only [Fs.used, hblk, hsb]
    rfl
  · simp only [Fs.disk, hblk, hsb]
    rfl

theorem freeBit_spec {n bi : Nat} (h : freeBit data n = some bi) : bi < n ∧ bitSet data bi = false := by
  have hp := List.find?_some h
  have hm := List.mem_range.1 (List.mem_of_find?_eq_some h)
  exact ⟨hm, by simpa using hp⟩

theorem freeBit_none {n bi : Nat} (h : freeBit data n = none) (hbi : bi < n) : bitSet data bi = true := by
  have := List.find?_eq_none.1 h bi (List.mem_range.2 hbi)
  simpa using this

/-- No block is free. -/
def Fs.Full (s : Fs) : Prop := ∀ c, c < s.sb.size → s.used c = true

theorem ballocFrom_spec {k : Nat} (hl : s.sb.Layout) (hmeta : ∀ c, c < s.sb.dataStart → s.used c = true)
    (htrans : s.trans = true) (hbig : TooBig F s.sb.IsBitmap 0 s) (hb : b % bpb = 0) (hk : s.sb.size ≤ b + k * bpb)
    (hbefore : ∀ c, c < b → c < s.sb.size → s.used c = true) :
    wp (ballocFrom k b) (fun r t => (r = 0 ∧ t = s ∧ s.Full) ∨ (r ≠ 0 ∧ Alloc s r t)) F s := by
  have hs := sizes
  have hbpb : bpb = 8192 := rfl
  induction k generalizing b with
  | zero => exact Or.inl ⟨rfl, rfl, fun c hc => hbefore c (by omega) hc⟩
  | succ k ih =>
      simp only [ballocFrom, wp_bind, wp_get]
      apply wp_ite
      · intro hlt
        cases hf : freeBit (s.blk (s.sb.bblock b)) (min bpb (s.sb.size - b)) with
        | none =>
            refine ih (by rw [Nat.add_mod_right]; exact hb) (by rw [hbpb] at hk ⊢; omega) fun c hc hsize => ?_
            by_cases hcb : c < b
            · exact hbefore c hcb hsize
            · have hb' : b % 8192 = 0 := hb
              rw [hbpb] at hc
              have hblock : s.sb.bblock c = s.sb.bblock b := by
                show c / 8192 + _ = b / 8192 + _
                omega
              have hmod : c % bpb = c - b := by
                show c % 8192 = c - b
                omega
              rw [Fs.used, hblock, hmod]
              exact freeBit_none hf (by omega)
        | some bi =>
            obtain ⟨hbi, hclear⟩ := freeBit_spec hf
            have hsize : b + bi < s.sb.size := by omega
            have hbi' : bi < 8192 := by omega
            have hb' : b % 8192 = 0 := hb
            have hblock : s.sb.bblock (b + bi) = s.sb.bblock b := by
              show (b + bi) / 8192 + _ = b / 8192 + _
              omega
            have hmod : (b + bi) % bpb = bi := by
              show (b + bi) % 8192 = bi
              omega
            have hfree : s.used (b + bi) = false := by rw [Fs.used, hblock, hmod, hclear]
            have hdata : s.sb.IsData (b + bi) := by
              refine ⟨?_, hsize⟩
              by_contra hge
              rw [hmeta _ (by omega)] at hfree
              cases hfree
            have hstep := bitStep_wrote (s := s) (setBit (s.blk (s.sb.bblock b)) bi) (v := true) hl hsize
              (by rw [hblock, hmod]; exact fun bj => bitSet_setBit _ bi bj)
            rw [hblock] at hstep
            obtain ⟨hbit, hblk⟩ := hstep
            simp only [wp_bind, bzero, wp_get, wp_pure]
            refine wp_logWrite htrans hbig.none (wp_logWrite htrans
              (hbig.stop (logs_wrote.mono (fun c hc => ⟨b, hlt, hc⟩) (Nat.le_refl _))) (Or.inr ⟨?_, ?_⟩))
            · have := hl.dataStart_pos
              have := hdata.1
              omega
            · have hwrote := data_wrote (s := s.wrote (s.sb.bblock b) (setBit (s.blk (s.sb.bblock b)) bi))
                (memset ((s.wrote (s.sb.bblock b) (setBit (s.blk (s.sb.bblock b)) bi)).blk (b + bi)) 0 0 bsize)
                hl hdata
              refine ⟨⟨rfl, rfl, rfl, fun c hc => ?_, fun i hi => ?_, fun c hc hne => ?_⟩, hdata, hfree, fun x hx => ?_, ?_⟩
              · exact (hwrote.1 c hc).trans (hbit.used c hc)
              · exact (hwrote.2 i hi).trans (hbit.disk i hi)
              · exact (update_of_ne hne ..).trans (hblk c hc)
              · refine (congrFun (update_self ..) x).trans (memset_apply ⟨Nat.zero_le _, by omega⟩)
              · exact logs_wrote.comp logs_wrote (fun c hc => Or.inl ⟨b, hlt, hc⟩) (fun _ hc => Or.inr hc) (Nat.le_refl _)
      · intro hge
        exact Or.inl ⟨rfl, rfl, fun c hc => hbefore c (by omega) hc⟩

theorem balloc_spec (hl : s.sb.Layout) (hmeta : ∀ c, c < s.sb.dataStart → s.used c = true)
    (htrans : s.trans = true) (hbig : TooBig F s.sb.IsBitmap 0 s) :
    wp balloc (fun r t => (r = 0 ∧ t = s ∧ s.Full) ∨ (r ≠ 0 ∧ Alloc s r t)) F s := by
  have hbpb : bpb = 8192 := rfl
  simp only [balloc, wp_bind, wp_get]
  refine ballocFrom_spec hl hmeta htrans hbig (Nat.zero_mod _) ?_ fun c hc => absurd hc (Nat.not_lt_zero c)
  rw [hbpb]
  omega

theorem bfree_spec (hl : s.sb.Layout) (hb : b < s.sb.size) (hused : s.used b = true) (htrans : s.trans = true)
    (hbig : TooBig F s.sb.IsBitmap 0 s) : wp (bfree b) (fun _ t => Freed s b t) F s := by
  simp only [bfree, wp_bind, wp_get]
  rw [if_neg (by simpa [Fs.used] using hused)]
  obtain ⟨hbit, hblk⟩ := bitStep_wrote (s := s) (clearBit (s.blk (s.sb.bblock b)) (b % bpb)) (v := false) hl hb
    fun bj => bitSet_clearBit _ _ bj
  refine wp_logWrite htrans hbig.none ⟨hbit, hblk b, ?_⟩
  exact logs_wrote.mono (fun c hc => ⟨b, hb, hc⟩) (Nat.le_refl _)

/-! ## What an allocation does to the invariant -/

namespace BitStep

variable {v : Bool}

theorem node (h : BitStep s b v t) (hi : i < s.sb.ninodes) : t.node i = s.node i := node_congr h.inode (h.disk i hi)

theorem table (h : BitStep s b v t) (ht : TableOk X s) : TableOk X t := ht.congr h.inode h.sb h.disk

theorem keep (h : BitStep s b v t) (P : Nat → Prop) : Keep P s t := .of_inode h.inode h.sb h.trans

end BitStep

theorem Alloc.tables (h : Alloc s b t) (hb : BlocksOk extra s) (hj : j < s.sb.ninodes)
    (ht : (s.node j).type ≠ 0) : ∀ c ∈ slots s.blk (s.node j), c ≠ 0 → t.blk c = s.blk c := by
  intro c hc hc0
  have hmem := hb.of_mem hj ht hc0 hc
  refine h.blk c hmem.1 ?_
  rintro rfl
  rw [h.free] at hmem
  cases hmem.2.1

theorem Alloc.slotsAt (h : Alloc s b t) (hb : BlocksOk extra s) (hj : j < s.sb.ninodes) :
    t.slotsAt c j = s.slotsAt c j := by
  refine slotsAt_congr (h.node hj) fun ht x _ => ?_
  by_cases hz : (s.node j).addrs ndirect = 0
  · exact Or.inr hz
  · exact Or.inl (congrFun (h.tables hb hj ht _ (mem_slots_addrs (Nat.lt_succ_self _)) hz) x)

theorem Alloc.blocks (h : Alloc s b t) (hb : BlocksOk [] s) : BlocksOk [b] t where
  own := fun c hc => by
    have hown := hb.own c hc
    rw [slotCount_congr h.sb fun j hj => h.slotsAt hb hj, h.sb]
    obtain rfl | hcb := eq_or_ne c b
    · have hz := hb.slotCount_eq_zero hc (by rw [h.free]; simp)
      rw [hz, if_pos ⟨h.isData, by rw [h.used c h.isData.2, if_pos rfl]⟩]
      simp
    · by_cases hd : s.sb.IsData c
      · rw [h.used c hd.2, if_neg hcb, List.count_cons_of_ne hcb.symm]
        exact hown
      · rw [if_neg (fun hh => hd hh.1), List.count_cons_of_ne hcb.symm]
        rw [if_neg (fun hh => hd hh.1)] at hown
        exact hown
  metadata := fun c hc => by
    rw [h.sb] at hc
    rw [h.used c (Nat.lt_of_lt_of_le hc (Super.Layout.dataStart_le _))]
    split
    · rfl
    · exact hb.metadata c hc
  noHole := fun j hj ht => by
    rw [h.sb] at hj
    rw [h.node hj] at ht ⊢
    refine noHole_congr (hb.noHole j hj ht) fun x _ => ?_
    by_cases hz : (s.node j).addrs ndirect = 0
    · exact Or.inr hz
    · exact Or.inl (congrFun (h.tables hb hj ht _ (mem_slots_addrs (Nat.lt_succ_self _)) hz) x)

theorem Alloc.file (h : Alloc s b t) (hb : BlocksOk extra s) : t.file = s.file := by
  funext j
  simp only [Fs.file, h.sb]
  by_cases hj : j < s.sb.ninodes
  · rw [h.node hj]
    by_cases ht : (s.node j).type = 0
    · simp [ht]
    · rw [if_pos ⟨hj, ht⟩, if_pos ⟨hj, ht⟩]
      refine congrArg some (fileOf_congr (hb.noHole j hj ht) fun c hc hc0 x _ => ?_)
      exact congrFun (h.tables hb hj ht c hc hc0) x
  · simp [hj]

theorem Alloc.inv (h : Alloc s b t) (hi : Inv X [] s) : Inv X [b] t :=
  ⟨h.sb ▸ hi.layout, h.table hi.table, h.blocks hi.blocks⟩

end Xv6.Fs
