import Xv6.Fs.Lemmas.Layout

/-!
# The inode table

How `node` and `refs` change when an entry of the table is changed, taken or dropped.
-/

namespace Xv6.Fs

open Lib Function

variable {s t : Fs} {e e' i j : Nat} {x : Inode} {X Y : Nat → Prop} {extra : List Nat} {d : Dinode}

/-! ## Looking up an inode -/

namespace TableOk

theorem find_of_at (h : TableOk X s) (he : s.At e i) : s.find rootDev i = some e := by
  have hpred : (fun e => decide (0 < (s.inode e).ref) && (s.inode e).dev == rootDev && (s.inode e).inum == i) e = true := by
    simp [he.ref, he.inum, (h.range e i he).2]
  cases hf : s.find rootDev i with
  | none =>
      have := List.find?_eq_none.1 hf e (List.mem_range.2 he.lt)
      exact absurd hpred this
  | some e' =>
      have hp := List.find?_some hf
      have hm := List.mem_range.1 (List.mem_of_find?_eq_some hf)
      simp only [Bool.and_eq_true, decide_eq_true_eq, beq_iff_eq] at hp
      rw [h.uniq e' e i ⟨hm, hp.1.1, hp.2⟩ he]

theorem at_of_find (hf : s.find rootDev i = some e) : s.At e i := by
  have hp := List.find?_some hf
  have hm := List.mem_range.1 (List.mem_of_find?_eq_some hf)
  simp only [Bool.and_eq_true, decide_eq_true_eq, beq_iff_eq] at hp
  exact ⟨hm, hp.1.1, hp.2⟩

theorem find_eq_none (h : TableOk X s) : s.find rootDev i = none ↔ ∀ e, ¬ s.At e i := by
  constructor
  · intro hf e he
    rw [h.find_of_at he] at hf
    cases hf
  · intro hno
    cases hf : s.find rootDev i with
    | none => rfl
    | some e => exact absurd (at_of_find hf) (hno e)

theorem node_of_at (h : TableOk X s) (he : s.At e i) :
    s.node i = if (s.inode e).valid then (s.inode e).d else s.disk i := by
  rw [Fs.node, h.find_of_at he]

theorem node_of_valid (h : TableOk X s) (he : s.At e i) (hv : (s.inode e).valid = true) : s.node i = (s.inode e).d := by
  rw [h.node_of_at he, if_pos hv]

theorem node_of_none (h : TableOk X s) (hno : ∀ e, ¬ s.At e i) : s.node i = s.disk i := by
  rw [Fs.node, h.find_eq_none.2 hno]

theorem refs_of_at (h : TableOk X s) (he : s.At e i) : s.refs i = (s.inode e).ref := by
  rw [Fs.refs, h.find_of_at he]

theorem refs_of_none (h : TableOk X s) (hno : ∀ e, ¬ s.At e i) : s.refs i = 0 := by
  rw [Fs.refs, h.find_eq_none.2 hno]

theorem refs_pos (h : TableOk X s) : 0 < s.refs i ↔ ∃ e, s.At e i := by
  constructor
  · intro hpos
    by_contra hno
    rw [h.refs_of_none fun e he => hno ⟨e, he⟩] at hpos
    exact absurd hpos (Nat.lt_irrefl 0)
  · rintro ⟨e, he⟩
    rw [h.refs_of_at he]
    exact he.ref

theorem node_eq_disk (h : TableOk X s) (hX : ∀ e, s.At e i → ¬ X e) : s.node i = s.disk i := by
  by_cases hex : ∃ e, s.At e i
  · obtain ⟨e, he⟩ := hex
    rw [h.node_of_at he]
    cases hv : (s.inode e).valid with
    | true => exact h.clean e i he hv (hX e he)
    | false => rfl
  · exact h.node_of_none fun e he => hex ⟨e, he⟩

theorem mono (h : TableOk X s) (hXY : ∀ e, X e → Y e) : TableOk Y s where
  uniq := h.uniq
  range := h.range
  pos := h.pos
  wf := h.wf
  clean := fun e i he hv hY => h.clean e i he hv fun hX => hY (hXY e hX)
  typed := fun e i he hv hY => h.typed e i he hv fun hX => hY (hXY e hX)

end TableOk

/-! ## Changing an entry -/

@[simp] theorem setInode_sb : (s.setInode e x).sb = s.sb := rfl
@[simp] theorem setInode_blk : (s.setInode e x).blk = s.blk := rfl
@[simp] theorem setInode_trans : (s.setInode e x).trans = s.trans := rfl
@[simp] theorem setInode_logged : (s.setInode e x).logged = s.logged := rfl
@[simp] theorem setInode_disk : (s.setInode e x).disk = s.disk := rfl
@[simp] theorem setInode_self : (s.setInode e x).inode e = x := update_self ..

theorem setInode_ne (h : e' ≠ e) : (s.setInode e x).inode e' = s.inode e' := update_of_ne h ..

theorem at_congr (h : ∀ e, (t.inode e).ref = (s.inode e).ref ∧ (t.inode e).inum = (s.inode e).inum) :
    t.At e i ↔ s.At e i := by
  constructor
  · rintro ⟨h₁, h₂, h₃⟩
    exact ⟨h₁, (h e).1 ▸ h₂, (h e).2 ▸ h₃⟩
  · rintro ⟨h₁, h₂, h₃⟩
    exact ⟨h₁, (h e).1.symm ▸ h₂, (h e).2.symm ▸ h₃⟩

theorem at_setInode_ne (h : e' ≠ e) : (s.setInode e x).At e' j ↔ s.At e' j := by
  constructor
  · rintro ⟨h₁, h₂, h₃⟩
    rw [setInode_ne h] at h₂ h₃
    exact ⟨h₁, h₂, h₃⟩
  · rintro ⟨h₁, h₂, h₃⟩
    exact ⟨h₁, by rw [setInode_ne h]; exact h₂, by rw [setInode_ne h]; exact h₃⟩

theorem at_setInode_self : (s.setInode e x).At e j ↔ e < ninode ∧ 0 < x.ref ∧ x.inum = j := by
  constructor
  · rintro ⟨h₁, h₂, h₃⟩
    rw [setInode_self] at h₂ h₃
    exact ⟨h₁, h₂, h₃⟩
  · rintro ⟨h₁, h₂, h₃⟩
    exact ⟨h₁, by rw [setInode_self]; exact h₂, by rw [setInode_self]; exact h₃⟩

/-- The table after entry `e` becomes `x`, a reference to inode `i` that no other entry has. -/
theorem TableOk.setInode (h : TableOk X s) (hlt : e < ninode) (hother : ∀ e', s.At e' x.inum → e' = e)
    (hrange : x.inum < s.sb.ninodes ∧ x.dev = rootDev) (hpos : x.inum ≠ 0) (hwf : x.valid = true → x.d.Wf)
    (hXY : ∀ e', e' ≠ e → X e' → Y e')
    (hclean : x.valid = true → ¬ Y e → x.d = s.disk x.inum ∧ x.d.type ≠ 0) : TableOk Y (s.setInode e x) := by
  have hX : ∀ e', e' ≠ e → ¬ Y e' → ¬ X e' := fun e' hne hY hXe => hY (hXY e' hne hXe)
  refine ⟨fun e₁ e₂ i h₁ h₂ => ?_, fun e₁ i h₁ => ?_, fun e₁ i h₁ => ?_, fun e₁ i h₁ hv => ?_, fun e₁ i h₁ hv hY => ?_,
    fun e₁ i h₁ hv hY => ?_⟩
  · by_cases he₁ : e₁ = e
    · by_cases he₂ : e₂ = e
      · rw [he₁, he₂]
      · subst he₁
        obtain ⟨_, _, rfl⟩ := at_setInode_self.1 h₁
        exact (hother e₂ ((at_setInode_ne he₂).1 h₂)).symm
    · by_cases he₂ : e₂ = e
      · subst he₂
        obtain ⟨_, _, rfl⟩ := at_setInode_self.1 h₂
        exact hother e₁ ((at_setInode_ne he₁).1 h₁)
      · exact h.uniq e₁ e₂ i ((at_setInode_ne he₁).1 h₁) ((at_setInode_ne he₂).1 h₂)
  · by_cases he₁ : e₁ = e
    · subst he₁
      obtain ⟨_, _, rfl⟩ := at_setInode_self.1 h₁
      rw [setInode_self]
      exact hrange
    · rw [setInode_ne he₁]
      exact h.range e₁ i ((at_setInode_ne he₁).1 h₁)
  · by_cases he₁ : e₁ = e
    · subst he₁
      obtain ⟨_, _, rfl⟩ := at_setInode_self.1 h₁
      exact hpos
    · exact h.pos e₁ i ((at_setInode_ne he₁).1 h₁)
  · by_cases he₁ : e₁ = e
    · subst he₁
      rw [setInode_self] at hv ⊢
      exact hwf hv
    · rw [setInode_ne he₁] at hv ⊢
      exact h.wf e₁ i ((at_setInode_ne he₁).1 h₁) hv
  · by_cases he₁ : e₁ = e
    · subst he₁
      obtain ⟨_, _, rfl⟩ := at_setInode_self.1 h₁
      rw [setInode_self] at hv ⊢
      exact (hclean hv hY).1
    · rw [setInode_ne he₁] at hv ⊢
      exact h.clean e₁ i ((at_setInode_ne he₁).1 h₁) hv (hX e₁ he₁ hY)
  · by_cases he₁ : e₁ = e
    · subst he₁
      rw [setInode_self] at hv ⊢
      exact (hclean hv hY).2
    · rw [setInode_ne he₁] at hv ⊢
      exact h.typed e₁ i ((at_setInode_ne he₁).1 h₁) hv (hX e₁ he₁ hY)

theorem node_setInode_ne (h : TableOk X s) (h' : TableOk Y (s.setInode e x)) (hold : ¬ s.At e j)
    (hnew : ¬ (s.setInode e x).At e j) :
    (s.setInode e x).node j = s.node j ∧ (s.setInode e x).refs j = s.refs j := by
  by_cases hex : ∃ e', s.At e' j
  · obtain ⟨e', he'⟩ := hex
    have hne : e' ≠ e := by
      rintro rfl
      exact hold he'
    have ht : (s.setInode e x).At e' j := (at_setInode_ne hne).2 he'
    rw [h.node_of_at he', h'.node_of_at ht, h.refs_of_at he', h'.refs_of_at ht, setInode_ne hne]
    exact ⟨rfl, rfl⟩
  · have hno : ∀ e', ¬ s.At e' j := fun e' he' => hex ⟨e', he'⟩
    have hno' : ∀ e', ¬ (s.setInode e x).At e' j := by
      intro e' he'
      by_cases hne : e' = e
      · subst hne
        exact hnew he'
      · exact hno e' ((at_setInode_ne hne).1 he')
    rw [h.node_of_none hno, h'.node_of_none hno', h.refs_of_none hno, h'.refs_of_none hno']
    exact ⟨rfl, rfl⟩

theorem node_setInode (h : TableOk X s) (h' : TableOk Y (s.setInode e x)) (he : s.At e i) (hi : x.inum = i)
    (hr : 0 < x.ref) :
    (s.setInode e x).node = Function.update s.node i (if x.valid then x.d else s.disk i) ∧
      (s.setInode e x).refs = Function.update s.refs i x.ref := by
  have hat : (s.setInode e x).At e i := at_setInode_self.2 ⟨he.lt, hr, hi⟩
  constructor
  · funext j
    obtain rfl | hj := eq_or_ne j i
    · rw [h'.node_of_at hat, setInode_self, update_self, setInode_disk]
    · rw [update_of_ne hj]
      refine (node_setInode_ne h h' (fun h₁ => hj ?_) fun h₁ => hj ?_).1
      · exact h₁.inum.symm.trans he.inum
      · exact h₁.inum.symm.trans hat.inum
  · funext j
    obtain rfl | hj := eq_or_ne j i
    · rw [h'.refs_of_at hat, setInode_self, update_self]
    · rw [update_of_ne hj]
      refine (node_setInode_ne h h' (fun h₁ => hj ?_) fun h₁ => hj ?_).2
      · exact h₁.inum.symm.trans he.inum
      · exact h₁.inum.symm.trans hat.inum

/-! ## Steps that leave the inodes as they are -/

/-- The disk, the inodes and the log are as they were. -/
structure Same (s t : Fs) : Prop where
  sb : t.sb = s.sb
  trans : t.trans = s.trans
  blk : t.blk = s.blk
  logged : t.logged = s.logged
  node : ∀ i, i < s.sb.ninodes → t.node i = s.node i

/-- The entries referenced in `s`, those of `P` at least, are where they were. -/
structure Keep (P : Nat → Prop) (s t : Fs) : Prop where
  sb : t.sb = s.sb
  trans : t.trans = s.trans
  entry : ∀ e i, P e → s.At e i → t.At e i ∧ ((s.inode e).valid = true → (t.inode e).valid = true)

/-- All entries. -/
abbrev All : Nat → Prop := fun _ => True

namespace Same

theorem trans' {u : Fs} (h : Same s t) (h' : Same t u) : Same s u :=
  ⟨h'.sb.trans h.sb, h'.trans.trans h.trans, h'.blk.trans h.blk, h'.logged.trans h.logged, fun i hi => by
    rw [h'.node i (by rw [h.sb]; exact hi), h.node i hi]⟩

theorem file (h : Same s t) : t.file = s.file := by
  funext i
  simp only [Fs.file, h.sb, h.blk]
  by_cases hi : i < s.sb.ninodes
  · rw [h.node i hi]
  · simp [hi]

theorem slotCount (h : Same s t) : t.slotCount = s.slotCount := by
  funext b
  simp only [Fs.slotCount, h.sb]
  refine Finset.sum_congr rfl fun i hi => ?_
  simp only [Fs.slotsAt, h.blk, h.node i (Finset.mem_range.1 hi)]

theorem used (h : Same s t) : t.used = s.used := by
  funext b
  simp only [Fs.used, h.sb, h.blk]

theorem blocks (h : Same s t) (hb : BlocksOk extra s) : BlocksOk extra t where
  own := fun b hb0 => by
    rw [h.slotCount, h.used, h.sb]
    exact hb.own b hb0
  metadata := fun b hb0 => by
    rw [h.used]
    exact hb.metadata b (h.sb ▸ hb0)
  noHole := fun i hi ht => by
    rw [h.sb] at hi
    rw [h.node i hi] at ht ⊢
    rw [h.blk]
    exact hb.noHole i hi ht

theorem inv (h : Same s t) (hi : Inv X extra s) (ht : TableOk Y t) : Inv Y extra t :=
  ⟨h.sb ▸ hi.layout, ht, h.blocks hi.blocks⟩

end Same

namespace Keep

theorem refl (P : Nat → Prop) (s : Fs) : Keep P s s := ⟨rfl, rfl, fun _ _ _ h => ⟨h, id⟩⟩

theorem comp {u : Fs} {P Q R : Nat → Prop} (h : Keep P s t) (h' : Keep Q t u) (hP : ∀ e, R e → P e)
    (hQ : ∀ e, R e → Q e) : Keep R s u where
  sb := h'.sb.trans h.sb
  trans := h'.trans.trans h.trans
  entry := fun e i he hat => by
    obtain ⟨h₁, h₂⟩ := h.entry e i (hP e he) hat
    obtain ⟨h₃, h₄⟩ := h'.entry e i (hQ e he) h₁
    exact ⟨h₃, fun hv => h₄ (h₂ hv)⟩

theorem trans' {u : Fs} {P : Nat → Prop} (h : Keep P s t) (h' : Keep P t u) : Keep P s u :=
  h.comp h' (fun _ h => h) fun _ h => h

end Keep

theorem file_of_valid (h : TableOk X s) (he : s.At e i) (hv : (s.inode e).valid = true)
    (ht : (s.inode e).d.type ≠ 0) : s.file i = some (fileOf s.blk (s.inode e).d) := by
  simp only [Fs.file, h.node_of_valid he hv]
  rw [if_pos ⟨(h.range e i he).1, ht⟩]

end Xv6.Fs
