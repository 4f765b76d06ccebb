import Xv6.Fs.Lemmas.Alloc

/-!
# `bmap`

A new block is in flight after `balloc` returns it, until a slot of the inode gets its address.
-/

namespace Xv6.Fs

open Lib Function

variable {s t u : Fs} {e i j b c k bn : Nat} {X : Nat → Prop} {extra : List Nat} {d d' : Dinode} {blk : Nat → Block}
  {F : Stop → Fs → Prop}

/-! ## The in-memory inode -/

theorem setD_table (h : TableOk X s) (he : s.At e i) (hX : X e) (hwf : d.Wf) : TableOk X (s.setD e d) := by
  obtain ⟨hlt, hr, hi⟩ := he
  have hrange := h.range e i ⟨hlt, hr, hi⟩
  refine h.setInode hlt (fun e' he' => h.uniq e' e i (hi ▸ he') ⟨hlt, hr, hi⟩) ?_ ?_ (fun _ => hwf)
    (fun _ _ hX => hX) fun _ hno => absurd hX hno
  · exact ⟨hi ▸ hrange.1, hrange.2⟩
  · exact h.pos e _ ⟨hlt, hr, rfl⟩

theorem setD_inode : (s.setD e d).inode e = { s.inode e with d := d } := setInode_self

theorem setD_node (h : TableOk X s) (he : s.At e i) (hv : (s.inode e).valid = true) (hX : X e) (hwf : d.Wf) :
    (s.setD e d).node = Function.update s.node i d ∧ (s.setD e d).refs = s.refs := by
  obtain ⟨h₁, h₂⟩ := node_setInode h (setD_table h he hX hwf) he he.inum he.ref
  constructor
  · rw [Fs.setD, h₁]
    simp only [hv, if_true]
  · rw [Fs.setD, h₂, ← h.refs_of_at he, update_eq_self]

theorem setD_keep (P : Nat → Prop) : Keep P s (s.setD e d) := by
  refine ⟨rfl, rfl, fun e' i _ he' => ?_⟩
  obtain rfl | hne := eq_or_ne e' e
  · rw [setD_inode]
    exact ⟨at_setInode_self.2 ⟨he'.lt, he'.ref, he'.inum⟩, id⟩
  · simp only [Fs.setD]
    rw [setInode_ne hne]
    exact ⟨(at_setInode_ne hne).2 he', id⟩

/-! ## Slots of one inode -/

theorem slots_inj (h : (slots blk d).count b = 1) :
    (∀ k k', k < ndirect + 1 → k' < ndirect + 1 → d.addrs k = b → d.addrs k' = b → k = k') ∧
    (∀ k j, k < ndirect + 1 → j < nindirect → d.addrs k = b → indirect blk d j ≠ b) ∧
    ∀ j j', j < nindirect → j' < nindirect → indirect blk d j = b → indirect blk d j' = b → j = j' := by
  simp only [slots, List.count_append, count_map_range] at h
  refine ⟨fun k k' hk hk' h₁ h₂ => ?_, fun k j hk hj h₁ h₂ => ?_, fun j j' hj hj' h₁ h₂ => ?_⟩
  · by_contra hne
    have := add_le_sum (f := fun x => if d.addrs x = b then 1 else 0) (Finset.mem_range.2 hk) (Finset.mem_range.2 hk') hne
    simp only [h₁, h₂, if_true] at this
    omega
  · have h₃ := le_sum (f := fun x => if d.addrs x = b then 1 else 0) (Finset.mem_range.2 hk)
    have h₄ := le_sum (f := fun x => if indirect blk d x = b then 1 else 0) (Finset.mem_range.2 hj)
    simp only [h₁, h₂, if_true] at h₃ h₄
    omega
  · by_contra hne
    have := add_le_sum (f := fun x => if indirect blk d x = b then 1 else 0) (Finset.mem_range.2 hj)
      (Finset.mem_range.2 hj') hne
    simp only [h₁, h₂, if_true] at this
    omega

theorem addrOf_ne_table (bn : Nat) (h : (slots blk d).count (d.addrs ndirect) = 1) (hne : d.addrs ndirect ≠ 0) :
    addrOf blk d bn ≠ d.addrs ndirect := by
  obtain ⟨h₁, h₂, _⟩ := slots_inj h
  simp only [addrOf]
  split
  · rename_i hbn
    intro heq
    exact absurd (h₁ bn ndirect (by omega) (by omega) heq rfl) (by omega)
  · split
    · exact h₂ ndirect _ (by omega) ‹_› rfl
    · exact hne.symm

/-! ## Giving a new block to a slot of the inode -/

/-- The inode with address `b` in slot `k`. -/
def Dinode.fill (d : Dinode) (k b : Nat) : Dinode := { d with addrs := Function.update d.addrs k b }

theorem fill_self : (d.fill k b).addrs k = b := update_self ..

theorem fill_ne (h : j ≠ k) : (d.fill k b).addrs j = d.addrs j := update_of_ne h ..

theorem Dinode.Wf.fill (h : d.Wf) (hk : k < ndirect + 1) (hb : b < 2 ^ 32) : (d.fill k b).Wf where
  type := h.type
  major := h.major
  minor := h.minor
  nlink := h.nlink
  size := h.size
  addrs := fun j => by
    simp only [Dinode.fill, update_apply]
    split
    · exact hb
    · exact h.addrs j
  high := fun j hj => by
    simp only [Dinode.fill]
    rw [update_of_ne (by omega)]
    exact h.high j hj

theorem indirect_fill (hz : d.addrs k = 0) (hzero : ∀ x, x < bsize → blk b x = 0) (hj : j < nindirect) :
    indirect blk (d.fill k b) j = indirect blk d j := by
  have hs := sizes
  obtain rfl | hk := eq_or_ne k ndirect
  · rw [indirect, indirect, if_pos hz, fill_self]
    split
    · rfl
    · have h₁ : load 4 (blk b) (4 * j) = load 4 (memset (blk b) 0 0 bsize) (4 * j) := load_congr fun x hx => by
        rw [hzero _ (by omega), memset_apply ⟨Nat.zero_le _, by omega⟩]
      rw [h₁, load_memset_zero ⟨Nat.zero_le _, by omega⟩]
  · rw [indirect, indirect, fill_ne hk.symm]

theorem count_fill (hk : k < ndirect + 1) (hz : d.addrs k = 0) (hzero : ∀ x, x < bsize → blk b x = 0) (hc : c ≠ 0) :
    (slots blk (d.fill k b)).count c = (slots blk d).count c + if b = c then 1 else 0 := by
  have hind : (List.range nindirect).map (indirect blk (d.fill k b)) = (List.range nindirect).map (indirect blk d) :=
    List.map_congr_left fun j hj => indirect_fill hz hzero (List.mem_range.1 hj)
  have hcount := count_map_update (g := d.addrs) (v := b) (b := c) hk
  rw [hz, if_neg hc.symm] at hcount
  rw [slots, slots, List.count_append, List.count_append, hind]
  show ((List.range (ndirect + 1)).map (Function.update d.addrs k b)).count c + _ = _
  omega

theorem addrOf_fill (hz : d.addrs k = 0) (hzero : ∀ x, x < bsize → blk b x = 0) (h : addrOf blk d bn ≠ 0) :
    addrOf blk (d.fill k b) bn = addrOf blk d bn := by
  simp only [addrOf] at h ⊢
  split at h
  · rename_i hbn
    rw [if_pos hbn, if_pos hbn]
    refine update_of_ne ?_ ..
    rintro rfl
    exact h hz
  · rename_i hbn
    rw [if_neg hbn, if_neg hbn]
    split at h
    · rename_i hbn'
      rw [if_pos hbn', if_pos hbn', indirect_fill hz hzero hbn']
    · exact absurd rfl h

/-- A change of one inode that keeps the bytes of its file, and what it does to the invariant. -/
theorem Inv.setD_fill (h : Inv X [b] s) (he : s.At e i) (hv : (s.inode e).valid = true) (hX : X e)
    (ht : (s.inode e).d.type ≠ 0) (hk : k < ndirect + 1) (hz : (s.inode e).d.addrs k = 0) (hb : s.sb.IsData b)
    (hzero : ∀ x, x < bsize → s.blk b x = 0) :
    Inv X [] (s.setD e ((s.inode e).d.fill k b)) ∧ (s.setD e ((s.inode e).d.fill k b)).file = s.file := by
  have hwf : ((s.inode e).d.fill k b).Wf :=
    (h.table.wf e i he hv).fill hk (Nat.lt_trans hb.2 h.layout.size)
  obtain ⟨hnode, _⟩ := setD_node h.table he hv hX hwf
  have hi := (h.table.range e i he).1
  have hni := h.table.node_of_valid he hv
  have htn : (s.node i).type ≠ 0 := by rw [hni]; exact ht
  have hself : (s.setD e ((s.inode e).d.fill k b)).node i = (s.inode e).d.fill k b := by rw [hnode, update_self]
  have hne : ∀ j, j ≠ i → (s.setD e ((s.inode e).d.fill k b)).node j = s.node j := fun j hj => by
    rw [hnode, update_of_ne hj]
  have hN := h.blocks.noHole i hi htn
  rw [hni] at hN
  refine ⟨⟨h.layout, setD_table h.table he hX hwf, ⟨?_, h.blocks.metadata⟩, fun j hj htj => ?_⟩, ?_⟩
  · intro c hc
    have hown := h.blocks.own c hc
    have hchange := slotCount_change (s := s) (t := s.setD e ((s.inode e).d.fill k b)) (b := c) rfl hi
      fun j _ hji => by simp only [Fs.slotsAt, hne j hji]; rfl
    have hold : s.slotsAt c i = (slots s.blk (s.inode e).d).count c := by rw [Fs.slotsAt, if_neg htn, hni]
    have hnew : (s.setD e ((s.inode e).d.fill k b)).slotsAt c i = (slots s.blk (s.inode e).d).count c +
        if b = c then 1 else 0 := by
      rw [Fs.slotsAt, hself, if_neg (show ((s.inode e).d.fill k b).type ≠ 0 from ht)]
      exact count_fill hk hz hzero hc
    have hextra : [b].count c = if b = c then 1 else 0 := by simp [List.count_cons]
    rw [hold, hnew] at hchange
    rw [hextra] at hown
    rw [List.count_nil, Nat.add_zero]
    refine Eq.trans ?_ hown
    omega
  · obtain rfl | hji := eq_or_ne j i
    · rw [hself]
      intro bn hbn
      have hb' := hN bn hbn
      show addrOf s.blk _ bn ≠ 0
      rw [addrOf_fill hz hzero hb']
      exact hb'
    · rw [hne j hji] at htj ⊢
      exact h.blocks.noHole j hj htj
  · funext j
    simp only [Fs.file]
    obtain rfl | hji := eq_or_ne j i
    · rw [hself, hni, if_pos ⟨hi, ht⟩, if_pos ⟨hi, ht⟩]
      refine congrArg some ?_
      simp only [fileOf, FileView.mk.injEq]
      refine ⟨rfl, rfl, rfl, rfl, rfl, funext fun x => ?_⟩
      show (if x < (s.inode e).d.size then _ else _) = _
      split
      · rename_i hx
        have hb' := hN (x / bsize) (by have := Nat.div_mul_le_self x bsize; omega)
        show s.blk (addrOf s.blk _ _) _ = _
        rw [addrOf_fill hz hzero hb']
        rfl
      · rfl
    · rw [hne j hji]
      rfl

/-! ## Giving a new block to a slot of the indirect block -/

theorem indirect_store {tbl : Nat} (htbl : d.addrs ndirect = tbl) (hne : tbl ≠ 0) (hb : b < 2 ^ 32) :
    indirect (Function.update blk tbl (store 4 (blk tbl) (4 * j) b)) d k =
      Function.update (indirect blk d) j b k := by
  subst htbl
  rw [indirect, if_neg hne, update_self]
  obtain rfl | hkj := eq_or_ne k j
  · rw [update_self, load_of_lt hb]
  · rw [update_of_ne hkj, indirect, if_neg hne, load_store_disjoint (by omega)]

theorem isData_and_used (hused : ∀ c, c < s.sb.size → t.used c = s.used c) :
    s.sb.IsData c ∧ t.used c = true ↔ s.sb.IsData c ∧ s.used c = true := by
  constructor
  · rintro ⟨h₁, h₂⟩
    exact ⟨h₁, (hused c h₁.2).symm.trans h₂⟩
  · rintro ⟨h₁, h₂⟩
    exact ⟨h₁, (hused c h₁.2).trans h₂⟩

/-- A data block of inode `i` is written: the other inodes keep their files. -/
theorem OwnOk.other (h : OwnOk extra s) (hi : i < s.sb.ninodes) (ht : (s.node i).type ≠ 0) (hc : c ≠ 0)
    (hmem : c ∈ slots s.blk (s.node i)) (hj : j < s.sb.ninodes) (hji : j ≠ i) (htj : (s.node j).type ≠ 0)
    (hbj : b ∈ slots s.blk (s.node j)) : b ≠ c := by
  rintro rfl
  exact hji ((h.of_mem hi ht hc hmem).2.2.2.2 j hj htj hbj)

theorem Inv.fill_entry (h : Inv X [b] s) (he : s.At e i) (hv : (s.inode e).valid = true)
    (ht : (s.inode e).d.type ≠ 0) {tbl : Nat} (htbl : (s.inode e).d.addrs ndirect = tbl) (hne : tbl ≠ 0)
    (hj : j < nindirect) (hz : indirect s.blk (s.inode e).d j = 0) (hb : s.sb.IsData b) (hinode : u.inode = s.inode)
    (hsb : u.sb = s.sb) (hblk : u.blk = (s.setBlk tbl (store 4 (s.blk tbl) (4 * j) b)).blk) :
    Inv X [] u ∧ u.file = s.file ∧ indirect u.blk (s.inode e).d j = b ∧
      ∀ bn, addrOf s.blk (s.inode e).d bn ≠ 0 → addrOf u.blk (s.inode e).d bn = addrOf s.blk (s.inode e).d bn ∧
        u.blk (addrOf s.blk (s.inode e).d bn) = s.blk (addrOf s.blk (s.inode e).d bn) := by
  have hi := (h.table.range e i he).1
  have hni := h.table.node_of_valid he hv
  have htn : (s.node i).type ≠ 0 := by rw [hni]; exact ht
  have hmem : tbl ∈ slots s.blk (s.node i) := by
    rw [hni, ← htbl]
    exact mem_slots_addrs (Nat.lt_succ_self _)
  obtain ⟨hdata, _, hcount, _, _⟩ := h.blocks.of_mem hi htn hne hmem
  rw [hni] at hcount
  have hb32 : b < 2 ^ 32 := Nat.lt_trans hb.2 h.layout.size
  obtain ⟨hused, hdisk⟩ := data_same hsb hblk h.layout hdata
  have hnode : ∀ k, k < s.sb.ninodes → u.node k = s.node k := fun k hk => node_congr hinode (hdisk k hk)
  have hupd : ∀ c, c ≠ tbl → u.blk c = s.blk c := fun c hc => by
    rw [hblk]
    exact update_of_ne hc ..
  have hind : ∀ k, k < nindirect → indirect u.blk (s.inode e).d k = Function.update (indirect s.blk (s.inode e).d) j b k :=
    fun k _ => by rw [hblk]; exact indirect_store htbl hne hb32
  have hother : ∀ k, k < s.sb.ninodes → k ≠ i → (s.node k).type ≠ 0 → ∀ c ∈ slots s.blk (s.node k), c ≠ 0 →
      u.blk c = s.blk c := fun k hk hki htk c hc _ => hupd c (h.blocks.other hi htn hne hmem hk hki htk hc)
  have haddr : ∀ bn, addrOf s.blk (s.inode e).d bn ≠ 0 →
      addrOf u.blk (s.inode e).d bn = addrOf s.blk (s.inode e).d bn ∧
        u.blk (addrOf s.blk (s.inode e).d bn) = s.blk (addrOf s.blk (s.inode e).d bn) := by
    intro bn hbn
    refine ⟨?_, hupd _ (htbl ▸ addrOf_ne_table bn (htbl.symm ▸ hcount) (htbl.symm ▸ hne))⟩
    simp only [addrOf] at hbn ⊢
    split at hbn
    · rename_i h₁
      rw [if_pos h₁, if_pos h₁]
    · rename_i h₁
      rw [if_neg h₁, if_neg h₁]
      split at hbn
      · rename_i h₂
        rw [if_pos h₂, if_pos h₂, hind _ h₂]
        refine update_of_ne ?_ ..
        rintro rfl
        exact hbn hz
      · exact absurd rfl hbn
  refine ⟨⟨hsb ▸ h.layout, h.table.congr hinode hsb hdisk, ⟨fun c hc => ?_, fun c hc => ?_⟩, fun k hk htk => ?_⟩, ?_,
    (hind j hj).trans (update_self ..), haddr⟩
  · have hown := h.blocks.own c hc
    have hchange := slotCount_change (s := s) (t := u) (b := c) hsb hi fun k hk hki => slotsAt_congr (hnode k hk)
      fun htk x _ => by
        by_cases hz' : (s.node k).addrs ndirect = 0
        · exact Or.inr hz'
        · exact Or.inl (congrFun (hother k hk hki htk _ (mem_slots_addrs (Nat.lt_succ_self _)) hz') x)
    have hmap : (List.range nindirect).map (indirect u.blk (s.inode e).d) =
        (List.range nindirect).map (Function.update (indirect s.blk (s.inode e).d) j b) :=
      List.map_congr_left fun k hk => hind k (List.mem_range.1 hk)
    have hupd := count_map_update (g := indirect s.blk (s.inode e).d) (v := b) (b := c) hj
    rw [hz, if_neg hc.symm] at hupd
    have hold : s.slotsAt c i = (slots s.blk (s.inode e).d).count c := by rw [Fs.slotsAt, if_neg htn, hni]
    have hnew : u.slotsAt c i = (slots u.blk (s.inode e).d).count c := by
      rw [Fs.slotsAt, hnode i hi, if_neg htn, hni]
    rw [hold, hnew, slots, slots, List.count_append, List.count_append, hmap] at hchange
    have hextra : [b].count c = if b = c then 1 else 0 := by simp [List.count_cons]
    rw [hextra] at hown
    rw [List.count_nil, Nat.add_zero, hsb, if_congr (isData_and_used hused) rfl rfl]
    refine Eq.trans ?_ hown
    omega
  · rw [hsb] at hc
    exact (hused c (Nat.lt_of_lt_of_le hc (Super.Layout.dataStart_le _))).trans (h.blocks.metadata c hc)
  · rw [hsb] at hk
    rw [hnode k hk] at htk ⊢
    obtain rfl | hki := eq_or_ne k i
    · have hN := h.blocks.noHole k hk htk
      rw [hni] at hN ⊢
      intro bn hbn
      rw [(haddr bn (hN bn hbn)).1]
      exact hN bn hbn
    · refine noHole_congr (h.blocks.noHole k hk htk) fun x _ => ?_
      by_cases hz' : (s.node k).addrs ndirect = 0
      · exact Or.inr hz'
      · exact Or.inl (congrFun (hother k hk hki htk _ (mem_slots_addrs (Nat.lt_succ_self _)) hz') x)
  · funext k
    simp only [Fs.file, hsb]
    by_cases hk : k < s.sb.ninodes
    · rw [hnode k hk]
      by_cases htk : (s.node k).type = 0
      · simp [htk]
      · rw [if_pos ⟨hk, htk⟩, if_pos ⟨hk, htk⟩]
        refine congrArg some ?_
        obtain rfl | hki := eq_or_ne k i
        · have hN := h.blocks.noHole k hk htk
          rw [hni] at hN ⊢
          simp only [fileOf, FileView.mk.injEq, true_and]
          funext x
          split
          · rename_i hx
            obtain ⟨h₁, h₂⟩ := haddr (x / bsize) (hN _ (by have := Nat.div_mul_le_self x bsize; omega))
            simp only [rawByte, h₁, h₂]
          · rfl
        · exact fileOf_congr (h.blocks.noHole k hk htk) fun c hc hc0 x _ => congrFun (hother k hk hki htk c hc hc0) x
    · simp [hk]

/-! ## `bmap` -/

/-- The inode of entry `e` has got blocks, where it had none. -/
structure Grow (e : Nat) (s t : Fs) : Prop where
  keep : Keep All s t
  refs : t.refs = s.refs
  other : ∀ e', e' ≠ e → t.inode e' = s.inode e'
  entry : ∃ a, t.inode e = { s.inode e with d := { (s.inode e).d with addrs := a } }
  file : t.file = s.file
  disk : ∀ j, j < s.sb.ninodes → t.disk j = s.disk j
  mapped : ∀ bn, addrOf s.blk (s.inode e).d bn ≠ 0 →
    addrOf t.blk (t.inode e).d bn = addrOf s.blk (s.inode e).d bn ∧
      t.blk (addrOf s.blk (s.inode e).d bn) = s.blk (addrOf s.blk (s.inode e).d bn)

namespace Grow

theorem refl (e : Nat) (s : Fs) : Grow e s s :=
  ⟨Keep.refl _ s, rfl, fun _ _ => rfl, ⟨_, rfl⟩, rfl, fun _ _ => rfl, fun _ _ => ⟨rfl, rfl⟩⟩

theorem trans (h : Grow e s t) (h' : Grow e t u) : Grow e s u where
  keep := h.keep.trans' h'.keep
  refs := h'.refs.trans h.refs
  other := fun e' he => (h'.other e' he).trans (h.other e' he)
  entry := by
    obtain ⟨a, ha⟩ := h.entry
    obtain ⟨a', ha'⟩ := h'.entry
    exact ⟨a', by rw [ha', ha]⟩
  file := h'.file.trans h.file
  disk := fun j hj => (h'.disk j (h.keep.sb ▸ hj)).trans (h.disk j hj)
  mapped := fun bn hbn => by
    obtain ⟨h₁, h₂⟩ := h.mapped bn hbn
    obtain ⟨h₃, h₄⟩ := h'.mapped bn (by rw [h₁]; exact hbn)
    rw [h₁] at h₃ h₄
    exact ⟨h₃, h₄.trans h₂⟩

end Grow

theorem Alloc.grow (h : Alloc s b t) (hi : Inv X [] s) (he : s.At e i) (hv : (s.inode e).valid = true)
    (ht : (s.inode e).d.type ≠ 0) : Grow e s t := by
  have hn := hi.table.node_of_valid he hv
  have htn : (s.node i).type ≠ 0 := by rw [hn]; exact ht
  have htables := h.tables hi.blocks (hi.table.range e i he).1 htn
  rw [hn] at htables
  refine ⟨h.keep _, refs_congr h.inode, fun _ _ => by rw [h.inode], ⟨_, by rw [h.inode]⟩, h.file hi.blocks, h.disk, fun bn hbn => ?_⟩
  refine ⟨?_, htables _ (mem_slots_addrOf hbn) hbn⟩
  rw [h.inode]
  refine addrOf_congr fun x _ => ?_
  by_cases hz : (s.inode e).d.addrs ndirect = 0
  · exact Or.inr hz
  · exact Or.inl (congrFun (htables _ (mem_slots_addrs (Nat.lt_succ_self _)) hz) x)

theorem Alloc.fill (ha : Alloc s b t) (h : Inv X [] s) (he : s.At e i) (hv : (s.inode e).valid = true) (hX : X e)
    (ht : (s.inode e).d.type ≠ 0) (hk : k < ndirect + 1) (hz : (s.inode e).d.addrs k = 0) :
    Inv X [] (t.setD e ((s.inode e).d.fill k b)) ∧ Grow e s (t.setD e ((s.inode e).d.fill k b)) := by
  rw [← ha.inode] at hv ht hz ⊢
  have hat : t.At e i := (at_iff ha.inode).2 he
  have hdata : t.sb.IsData b := by rw [ha.sb]; exact ha.isData
  obtain ⟨hinv, hfile⟩ := (ha.inv h).setD_fill hat hv hX ht hk hz hdata ha.zero
  have hwf : ((t.inode e).d.fill k b).Wf :=
    ((ha.table h.table).wf e i hat hv).fill hk (Nat.lt_trans hdata.2 (ha.sb ▸ h.layout.size))
  refine ⟨hinv, (ha.grow h he (ha.inode ▸ hv) (ha.inode ▸ ht)).trans ⟨setD_keep _,
    (setD_node (ha.table h.table) hat hv hX hwf).2, fun e' hne => setInode_ne hne, ⟨_, setD_inode⟩, hfile, fun _ _ => rfl,
    fun bn hbn => ⟨?_, rfl⟩⟩⟩
  rw [show (t.setD e _).inode e = _ from setD_inode]
  exact addrOf_fill hz ha.zero hbn

theorem Alloc.fillEntry (ha : Alloc s b t) (h : Inv X [] s) (he : s.At e i) (hv : (s.inode e).valid = true)
    (ht : (s.inode e).d.type ≠ 0) (hne : (s.inode e).d.addrs ndirect ≠ 0) (hj : j < nindirect)
    (hz : indirect s.blk (s.inode e).d j = 0) (hinode : u.inode = t.inode) (hsb : u.sb = t.sb) (htrans : u.trans = t.trans)
    (hblk : u.blk = (t.setBlk ((s.inode e).d.addrs ndirect) (store 4 (t.blk ((s.inode e).d.addrs ndirect)) (4 * j) b)).blk) :
    Inv X [] u ∧ Grow e s u ∧ indirect u.blk (u.inode e).d j = b := by
  have hinv := ha.inv h
  have hgrow := ha.grow h he hv ht
  have hn := h.table.node_of_valid he hv
  have hmem : (s.inode e).d.addrs ndirect ∈ slots s.blk (s.node i) := by
    rw [hn]
    exact mem_slots_addrs (Nat.lt_succ_self _)
  have htn : (s.node i).type ≠ 0 := by rw [hn]; exact ht
  -- the indirect block keeps its contents: it was in use before the allocation
  have hsame := ha.tables h.blocks (h.table.range e i he).1 htn _ hmem hne
  have hdata := (h.blocks.of_mem (h.table.range e i he).1 htn hne hmem).1
  have hz' : indirect t.blk (t.inode e).d j = 0 := by
    rw [ha.inode, indirect, if_neg hne, hsame]
    rw [indirect, if_neg hne] at hz
    exact hz
  rw [← ha.inode] at hv ht hne hblk
  obtain ⟨h₁, h₂, h₃, h₄⟩ := hinv.fill_entry ((at_iff ha.inode).2 he) hv ht rfl hne hj hz' (by rw [ha.sb]; exact ha.isData)
    hinode hsb hblk
  rw [← hinode] at h₃
  refine ⟨h₁, hgrow.trans ⟨Keep.of_inode hinode hsb htrans, refs_congr hinode, fun _ _ => by rw [hinode],
    ⟨_, by rw [hinode]⟩, h₂, fun k hk => (data_same hsb hblk hinv.layout ?_).2 k hk, fun bn hbn => ?_⟩, h₃⟩
  · rw [ha.inode, ha.sb]
    exact hdata
  · rw [hinode]
    exact h₄ bn hbn

theorem bmapAddr_spec (h : Inv X [] s) (he : s.At e i) (hv : (s.inode e).valid = true) (hX : X e)
    (ht : (s.inode e).d.type ≠ 0) (htrans : s.trans = true) (hbig : TooBig F s.sb.IsBitmap 0 s) (hk : k < ndirect + 1) :
    wp (bmapAddr e k) (fun r t => Inv X [] t ∧ Grow e s t ∧ (t.inode e).d.addrs k = r ∧
      Logs (fun c => s.sb.IsBitmap c ∨ c = r) 0 s t ∧ (r = 0 → t.Full)) F s := by
  simp only [bmapAddr, wp_bind, wp_get]
  apply wp_ite
  · intro hz
    simp only [wp_bind]
    refine wp_post (balloc_spec h.layout h.blocks.metadata htrans hbig) ?_
    rintro r t (⟨rfl, rfl, hfull⟩ | ⟨hr, ha⟩)
    · rw [if_pos rfl]
      exact ⟨h, Grow.refl e t, hz, Logs.of_eq rfl, fun _ => hfull⟩
    · rw [if_neg hr]
      simp only [wp_bind, wp_modify, wp_pure]
      obtain ⟨h₁, h₂⟩ := ha.fill h he hv hX ht hk hz
      rw [← ha.inode] at h₁ h₂
      refine ⟨h₁, h₂, ?_, ha.logs, fun hz => absurd hz hr⟩
      rw [show (t.setD e _).inode e = _ from setD_inode]
      exact fill_self
  · intro hne
    exact ⟨h, Grow.refl e s, rfl, Logs.of_eq rfl, fun hz => absurd hz hne⟩

/-- `bmap` returns the address of the block, which it allocates if need be. -/
theorem bmap_spec (h : Inv X [] s) (he : s.At e i) (hv : (s.inode e).valid = true) (hX : X e)
    (ht : (s.inode e).d.type ≠ 0) (htrans : s.trans = true) (hbig : TooBig F s.sb.IsBitmap 2 s) (hbn : bn < maxFile) :
    wp (bmap e bn) (fun r t => Inv X [] t ∧ Grow e s t ∧ addrOf t.blk (t.inode e).d bn = r ∧
      Logs (fun c => s.sb.IsBitmap c ∨ c = (t.inode e).d.addrs ndirect ∨ c = r) 0 s t ∧ (r = 0 → t.Full)) F s := by
  have hs := sizes
  have hbig₀ : TooBig F s.sb.IsBitmap 0 s := hbig.mono (fun _ hc => hc) (by omega)
  rw [bmap]
  apply wp_ite
  · intro hlt
    refine wp_post (bmapAddr_spec h he hv hX ht htrans hbig₀ (by omega)) ?_
    rintro r t ⟨h₁, h₂, h₃, h₄, h₅⟩
    refine ⟨h₁, h₂, by rw [addrOf, if_pos hlt]; exact h₃, h₄.mono (fun c hc => ?_) (Nat.le_refl _), h₅⟩
    exact hc.imp_right Or.inr
  · intro hge
    rw [if_pos (by omega)]
    simp only [wp_bind]
    refine wp_post (bmapAddr_spec h he hv hX ht htrans hbig₀ (Nat.lt_succ_self _)) ?_
    rintro tbl t ⟨hinv, hgrow, htbl, hlogs, hfull⟩
    obtain ⟨a, ha⟩ := hgrow.entry
    have hat := (hgrow.keep.entry e i trivial he).1
    have hv' : (t.inode e).valid = true := by rw [ha]; exact hv
    have ht' : (t.inode e).d.type ≠ 0 := by rw [ha]; exact ht
    have hj : bn - ndirect < nindirect := by omega
    have haddr : ∀ u : Fs, addrOf u.blk (u.inode e).d bn = indirect u.blk (u.inode e).d (bn - ndirect) := fun u => by
      rw [addrOf, if_neg hge, if_pos hj]
    subst htbl
    have htblLogs : Logs (fun c => s.sb.IsBitmap c ∨ c = (t.inode e).d.addrs ndirect ∨ c = 0) 0 s t :=
      hlogs.mono (fun c hc => hc.imp_right Or.inl) (Nat.le_refl _)
    apply wp_ite
    · intro hz
      refine ⟨hinv, hgrow, ?_, htblLogs, fun _ => hfull hz⟩
      rw [haddr, indirect, if_pos hz]
    · intro hne
      simp only [wp_bind, wp_get]
      have hload : indirect t.blk (t.inode e).d (bn - ndirect) =
          load 4 (t.blk ((t.inode e).d.addrs ndirect)) (4 * (bn - ndirect)) := by
        rw [indirect, if_neg hne]
      apply wp_ite
      · intro hzero
        simp only [wp_bind]
        have hbig₁ : TooBig F t.sb.IsBitmap 0 t :=
          hbig.after hlogs.add (fun _ hc => hc) (fun c hc => hgrow.keep.sb ▸ hc) (by omega)
        refine wp_post (balloc_spec hinv.layout hinv.blocks.metadata (hgrow.keep.trans.trans htrans) hbig₁) ?_
        rintro r t' (⟨rfl, rfl, hfull'⟩ | ⟨hr, hal⟩)
        · rw [if_pos rfl]
          refine ⟨hinv, hgrow, ?_, htblLogs, fun _ => hfull'⟩
          rw [haddr, hload, hzero]
        · rw [if_neg hr]
          simp only [wp_bind, wp_get, wp_pure]
          have hlogs' : Logs s.sb.IsBitmap 2 s t' :=
            hlogs.add.comp hal.logs.add (fun _ hc => hc) (fun c hc => hgrow.keep.sb ▸ hc) (Nat.le_refl _)
          obtain ⟨h₁, h₂, h₃⟩ := hal.fillEntry (u := t'.wrote ((t.inode e).d.addrs ndirect)
            (store 4 (t'.blk ((t.inode e).d.addrs ndirect)) (4 * (bn - ndirect)) r))
            hinv hat hv' ht' hne hj (hload.trans hzero) rfl rfl rfl rfl
          refine wp_logWrite (hal.trans.trans (hgrow.keep.trans.trans htrans)) (hbig.stop hlogs') ⟨h₁, hgrow.trans h₂,
            (haddr _).trans h₃, ?_, fun hz => absurd hz hr⟩
          have hbm : ∀ c, t.sb.IsBitmap c → s.sb.IsBitmap c := fun c hc => hgrow.keep.sb ▸ hc
          have htbl : ((t'.wrote ((t.inode e).d.addrs ndirect) (store 4 (t'.blk ((t.inode e).d.addrs ndirect))
              (4 * (bn - ndirect)) r)).inode e).d.addrs ndirect = (t.inode e).d.addrs ndirect := by
            show (t'.inode e).d.addrs ndirect = _
            rw [hal.inode]
          rw [htbl]
          refine (hlogs.comp hal.logs (B := fun c => s.sb.IsBitmap c ∨ c = (t.inode e).d.addrs ndirect ∨ c = r) ?_ ?_
            (Nat.le_refl _)).comp logs_wrote (fun _ hc => hc) (fun c hc => Or.inr (Or.inl hc)) (Nat.le_refl _)
          · exact fun c hc => hc.imp_right Or.inl
          · exact fun c hc => hc.imp (hbm c) Or.inr
      · intro hnz
        refine ⟨hinv, hgrow, (haddr t).trans hload, ?_, fun hz => absurd hz hnz⟩
        exact hlogs.mono (fun c hc => hc.imp_right Or.inl) (Nat.le_refl _)

/-- `bmap` of a block that the inode has changes nothing, in a transaction or outside. -/
theorem bmap_read {Q : Nat → Fs → Prop} {F : Stop → Fs → Prop} (hne : addrOf s.blk (s.inode e).d bn ≠ 0)
    (hQ : Q (addrOf s.blk (s.inode e).d bn) s) : wp (bmap e bn) Q F s := by
  rw [bmap]
  simp only [addrOf] at hne hQ
  split at hne
  · rename_i hlt
    rw [if_pos hlt] at hQ ⊢
    simp only [bmapAddr, wp_bind, wp_get]
    rw [if_neg hne]
    exact hQ
  · rename_i hge
    rw [if_neg hge] at hQ ⊢
    split at hne
    · rename_i hlt
      rw [if_pos hlt] at hQ ⊢
      have htbl : (s.inode e).d.addrs ndirect ≠ 0 := by
        intro hz
        rw [indirect, if_pos hz] at hne
        exact hne rfl
      rw [indirect, if_neg htbl] at hne hQ
      simp only [bmapAddr, wp_bind, wp_get]
      rw [if_neg htbl]
      simp only [wp_pure]
      rw [if_neg htbl]
      simp only [wp_bind, wp_get]
      rw [if_neg hne]
      exact hQ
    · exact absurd rfl hne

end Xv6.Fs
