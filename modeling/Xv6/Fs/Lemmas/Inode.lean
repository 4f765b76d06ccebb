import Xv6.Fs.Effect
import Xv6.Fs.Lemmas.Spec

/-!
# `iget`, `ilock`, `iput` and `ialloc`
-/

namespace Xv6.Fs

open Lib Function

variable {D : Prop} {A : Nat → Prop} {k : Nat} {s t u : Fs} {e e' i j : Nat} {X Y : Nat → Prop} {x : Inode} {f : FileView}
  {F : Stop → Fs → Prop}
  {d : Dinode} {extra : List Nat}

/-- The invariant when no in-memory inode is newer than the disk. -/
abbrev Ok (s : Fs) : Prop := Inv (fun _ => False) [] s

/-- Entry `e` has inode `i`, read from the disk, whose file is `f`. -/
structure Entry (s : Fs) (e i : Nat) (f : FileView) : Prop where
  at_ : s.At e i
  valid : (s.inode e).valid = true
  file : s.file i = some f

namespace Entry

theorem lt (h : Entry s e i f) : i < s.sb.ninodes := by
  have hf := h.file
  rw [Fs.file] at hf
  split at hf
  · rename_i hc
    exact hc.1
  · cases hf

theorem type (h : Entry s e i f) (ht : TableOk X s) : (s.inode e).d.type ≠ 0 := by
  have hf := h.file
  rw [Fs.file, ht.node_of_valid h.at_ h.valid] at hf
  split at hf
  · rename_i hc
    exact hc.2
  · cases hf

theorem fileOf (h : Entry s e i f) (ht : TableOk X s) : fileOf s.blk (s.inode e).d = f := by
  have hf := h.file
  rw [file_of_valid ht h.at_ h.valid (h.type ht)] at hf
  exact Option.some.inj hf

theorem noHole (h : Entry s e i f) (hi : Inv X extra s) : NoHole s.blk (s.inode e).d := by
  have hn := hi.table.node_of_valid h.at_ h.valid
  rw [← hn]
  exact hi.blocks.noHole i h.lt (by rw [hn]; exact h.type hi.table)

theorem keep {P : Nat → Prop} (h : Entry s e i f) (hk : Keep P s t) (hP : P e) (hf : t.file i = s.file i) : Entry t e i f :=
  ⟨(hk.entry e i hP h.at_).1, (hk.entry e i hP h.at_).2 h.valid, hf.trans h.file⟩

end Entry

/-! ## Entries that stay the inode they are -/

theorem setInode_setInode {y : Inode} : (s.setInode e x).setInode e y = s.setInode e y := by
  simp only [Fs.setInode, update_idem]

theorem same_setInode (hnode : ∀ i, i < s.sb.ninodes → (s.setInode e x).node i = s.node i) : Same s (s.setInode e x) :=
  ⟨rfl, rfl, rfl, rfl, hnode⟩

theorem Inv.setEntry (h : Inv X [] s) (he : s.At e i) (hi : x.inum = (s.inode e).inum) (hdev : x.dev = (s.inode e).dev)
    (hr : 0 < x.ref) (hv : x.valid = (s.inode e).valid) (hd : x.d = (s.inode e).d) :
    Inv X [] (s.setInode e x) ∧ Same s (s.setInode e x) ∧ Keep All s (s.setInode e x) ∧
      (s.setInode e x).refs = Function.update s.refs i x.ref := by
  have hrange := h.table.range e i he
  have hxi : x.inum = i := hi.trans he.inum
  have htable : TableOk X (s.setInode e x) := by
    refine h.table.setInode he.lt (fun e' he' => h.table.uniq e' e i (hxi ▸ he') he) ⟨hxi ▸ hrange.1, hdev.trans hrange.2⟩
      (hxi ▸ h.table.pos e i he) (fun hv' => ?_) (fun _ _ hX => hX) fun hv' hX => ?_
    · rw [hd]
      exact h.table.wf e i he (hv ▸ hv')
    · rw [hd, hxi]
      exact ⟨h.table.clean e i he (hv ▸ hv') hX, h.table.typed e i he (hv ▸ hv') hX⟩
  obtain ⟨hnode, hrefs⟩ := node_setInode h.table htable he hxi hr
  have hsame : Same s (s.setInode e x) := same_setInode fun j _ => by
    rw [hnode, hv, hd, ← h.table.node_of_at he, update_eq_self]
  refine ⟨hsame.inv h htable, hsame, ⟨rfl, rfl, fun e' j _ he' => ?_⟩, hrefs⟩
  obtain rfl | hne := eq_or_ne e' e
  · rw [setInode_self]
    exact ⟨at_setInode_self.2 ⟨he'.lt, hr, hi.trans he'.inum⟩, fun hv' => hv ▸ hv'⟩
  · rw [setInode_ne hne]
    exact ⟨(at_setInode_ne hne).2 he', id⟩

theorem idup_spec (h : Inv X [] s) (he : s.At e i) :
    Spec D A k (idup e) (fun r t => r = e ∧ Inv X [] t ∧ Same s t ∧ Keep All s t ∧
      t.refs = Function.update s.refs i (s.refs i + 1)) s := by
  obtain ⟨h₁, h₂, h₃, h₄⟩ := h.setEntry (x := { s.inode e with ref := (s.inode e).ref + 1 }) he rfl rfl (Nat.succ_pos _) rfl rfl
  refine Spec.of_modify rfl (Spec.of_pure ⟨rfl, h₁, h₂, h₃, ?_⟩)
  rw [h.table.refs_of_at he]
  exact h₄

theorem Inv.takeEntry (h : Inv X [] s) (hlt : e < ninode) (hfree : (s.inode e).ref = 0) (hi : i < s.sb.ninodes)
    (hpos : i ≠ 0) (hno : ∀ e', ¬ s.At e' i) (hxi : x.inum = i) (hdev : x.dev = rootDev) (hr : x.ref = 1) (hv : x.valid = false) :
    Inv X [] (s.setInode e x) ∧ Same s (s.setInode e x) ∧ Keep All s (s.setInode e x) ∧ (s.setInode e x).At e i ∧
      (s.setInode e x).refs = Function.update s.refs i 1 := by
  have hnat : ∀ j, ¬ s.At e j := fun j he => by
    have := he.ref
    omega
  have htable : TableOk X (s.setInode e x) := by
    refine h.table.setInode hlt (fun e' he' => absurd (hxi ▸ he') (hno e')) ⟨hxi.symm ▸ hi, hdev⟩ (hxi.symm ▸ hpos)
      (fun hv' => ?_) (fun _ _ hX => hX) fun hv' => ?_
    · rw [hv] at hv'
      cases hv'
    · rw [hv] at hv'
      cases hv'
  have hat : (s.setInode e x).At e i := at_setInode_self.2 ⟨hlt, by omega, hxi⟩
  have hother : ∀ j, j ≠ i → (s.setInode e x).node j = s.node j ∧ (s.setInode e x).refs j = s.refs j := fun j hj =>
    node_setInode_ne h.table htable (hnat j) fun he => hj (he.inum.symm.trans hat.inum)
  have hsame : Same s (s.setInode e x) := by
    refine same_setInode fun j _ => ?_
    obtain rfl | hj := eq_or_ne j i
    · rw [htable.node_of_at hat, setInode_self, hv, if_neg (by decide), h.table.node_of_none hno]
      rfl
    · exact (hother j hj).1
  refine ⟨hsame.inv h htable, hsame, ⟨rfl, rfl, fun e' j _ he' => ?_⟩, hat, funext fun j => ?_⟩
  · have hne : e' ≠ e := by
      rintro rfl
      exact hnat j he'
    rw [setInode_ne hne]
    exact ⟨(at_setInode_ne hne).2 he', id⟩
  · obtain rfl | hj := eq_or_ne j i
    · rw [update_self, htable.refs_of_at hat, setInode_self, hr]
    · rw [update_of_ne hj]
      exact (hother j hj).2

theorem empty_spec (h : s.empty = some e) : e < ninode ∧ (s.inode e).ref = 0 := by
  have hp := List.find?_some h
  exact ⟨List.mem_range.1 (List.mem_of_find?_eq_some h), by simpa using hp⟩

/-- `iget` returns a reference; an entry that it has taken has not been read from the disk. -/
theorem iget_spec (h : Inv X [] s) (hi : i < s.sb.ninodes) (hpos : i ≠ 0) :
    Spec D A k (iget rootDev i) (fun e t => Inv X [] t ∧ Same s t ∧ Keep All s t ∧ t.At e i ∧
      t.refs = Function.update s.refs i (s.refs i + 1) ∧ (s.refs i = 0 → (t.inode e).valid = false) ∧
      ∀ e', 0 < (s.inode e').ref → (t.inode e').locked = (s.inode e').locked) s := by
  refine Spec.of_get ?_
  cases hf : s.find rootDev i with
  | some e =>
      have he := TableOk.at_of_find hf
      obtain ⟨h₁, h₂, h₃, h₄⟩ := h.setEntry (x := { s.inode e with ref := (s.inode e).ref + 1 }) he rfl rfl (Nat.succ_pos _)
        rfl rfl
      have hr := h.table.refs_of_at he
      refine Spec.of_set rfl (Spec.of_pure ⟨h₁, h₂, h₃, (h₃.entry e i trivial he).1, ?_, fun hz => ?_, fun e' _ => ?_⟩)
      · rw [hr]
        exact h₄
      · have := he.ref
        omega
      · obtain rfl | hne := eq_or_ne e' e
        · rw [setInode_self]
        · rw [setInode_ne hne]
  | none =>
      have hno := h.table.find_eq_none.1 hf
      cases hempty : s.empty with
      | none => exact Spec.of_throw trivial (by decide)
      | some e =>
          obtain ⟨hlt, hfree⟩ := empty_spec hempty
          obtain ⟨h₁, h₂, h₃, h₄, h₅⟩ := h.takeEntry
            (x := { s.inode e with dev := rootDev, inum := i, ref := 1, valid := false }) hlt hfree hi hpos hno rfl rfl rfl rfl
          refine Spec.of_set rfl (Spec.of_pure ⟨h₁, h₂, h₃, h₄, ?_, fun _ => by rw [setInode_self], fun e' he' => ?_⟩)
          · rw [h.table.refs_of_none hno]
            exact h₅
          · rw [setInode_ne]
            rintro rfl
            omega

/-! ## Locks -/

theorem acquiresleep_spec (h : Inv X [] s) (he : s.At e i) :
    Spec D A k (acquiresleep e) (fun _ t => Inv X [] t ∧ Same s t ∧ Keep All s t ∧ t.refs = s.refs ∧
      (s.inode e).locked = false ∧ (t.inode e).locked = true) s := by
  refine Spec.of_get (Spec.of_ite (fun _ => Spec.of_throw trivial (by decide)) fun hlock => ?_)
  obtain ⟨h₁, h₂, h₃, h₄⟩ := h.setEntry (x := { s.inode e with locked := true }) he rfl rfl he.ref rfl rfl
  have hrefs : Function.update s.refs i (s.inode e).ref = s.refs := by rw [← h.table.refs_of_at he, update_eq_self]
  exact ⟨⟨h₁, h₂, h₃, h₄.trans hrefs, by simpa using hlock, by rw [setInode_self]⟩, Logs.of_eq rfl⟩

theorem Inv.loadEntry (h : Ok s) (he : s.At e i) (hx : x = { s.inode e with d := s.disk i, valid := true })
    (hv : (s.inode e).valid = false) (ht : (s.disk i).type ≠ 0) :
    Ok (s.setInode e x) ∧ Same s (s.setInode e x) ∧ Keep All s (s.setInode e x) ∧ (s.setInode e x).refs = s.refs := by
  subst hx
  have hrange := h.table.range e i he
  have hdev := hrange.2
  have hinum := he.inum
  have htable : TableOk (fun _ => False) (s.setInode e { s.inode e with d := s.disk i, valid := true }) := by
    refine h.table.setInode he.lt (fun e' he' => h.table.uniq e' e i (hinum ▸ he') he) ⟨hinum.symm ▸ hrange.1, hdev⟩
      (hinum.symm ▸ h.table.pos e i he)
      (fun _ => getDinode_wf _ _) (fun _ _ hX => hX) fun _ _ => ⟨?_, ht⟩
    rw [hinum]
  obtain ⟨hnode, hrefs⟩ := node_setInode h.table htable he hinum he.ref
  have hsame : Same s (s.setInode e { s.inode e with d := s.disk i, valid := true }) := same_setInode fun j _ => by
    rw [hnode]
    obtain rfl | hj := eq_or_ne j i
    · rw [update_self, h.table.node_of_at he, hv]
      simp
    · rw [update_of_ne hj]
  refine ⟨hsame.inv h htable, hsame, ⟨rfl, rfl, fun e' j _ he' => ?_⟩, ?_⟩
  · obtain rfl | hne := eq_or_ne e' e
    · rw [setInode_self]
      exact ⟨at_setInode_self.2 ⟨he'.lt, he'.ref, he'.inum⟩, fun _ => rfl⟩
    · rw [setInode_ne hne]
      exact ⟨(at_setInode_ne hne).2 he', id⟩
  · rw [hrefs, ← h.table.refs_of_at he, update_eq_self]

/-- After `ilock` the entry has its inode, which is allocated. -/
theorem ilock_spec (h : Ok s) (he : s.At e i) :
    Spec D A k (ilock e) (fun _ t => Ok t ∧ Same s t ∧ Keep All s t ∧ t.refs = s.refs ∧
      (∃ f, Entry t e i f) ∧ (s.inode e).locked = false ∧ (t.inode e).locked = true) s := by
  refine Spec.of_get (Spec.of_ite (fun hr => absurd he.ref (by omega)) fun _ => ?_)
  refine Spec.seq (acquiresleep_spec h he) ?_
  rintro _ t ⟨h₁, h₂, h₃, h₄, hunlocked, hlocked⟩
  have hat := (h₃.entry e i trivial he).1
  refine Spec.of_get (Spec.of_ite (fun hv => ?_) fun hv => ?_)
  · have hv' : (t.inode e).valid = false := by simpa using hv
    rw [hat.inum]
    refine Spec.of_set rfl (Spec.of_ite (fun _ => Spec.of_throw trivial (by decide)) fun ht => Spec.of_pure ?_)
    obtain ⟨h₅, h₆, h₇, h₈⟩ := h₁.loadEntry hat rfl hv' ht
    have hat' := (h₇.entry e i trivial hat).1
    refine ⟨h₅, h₂.trans' h₆, h₃.trans' h₇, h₈.trans h₄, ⟨_, hat', ?_, file_of_valid h₅.table hat' ?_ ?_⟩, hunlocked, ?_⟩
    · rw [setInode_self]
    · rw [setInode_self]
    · rw [setInode_self]
      exact ht
    · rw [setInode_self]
      exact hlocked
  · have hv' : (t.inode e).valid = true := by simpa using hv
    refine Spec.of_pure ⟨h₁, h₂, h₃, h₄, ⟨_, hat, hv', file_of_valid h₁.table hat hv' ?_⟩, hunlocked, hlocked⟩
    exact h₁.table.typed e i hat hv' (fun h => h)

/-! ## `iput` -/

/-- The entry is given up: the inode on the disk is what is left. -/
theorem Inv.dropEntry (h : Inv X [] s) (he : s.At e i) (hx : x.ref = 0) (hd : (s.inode e).valid = true → (s.inode e).d = s.disk i)
    (hXY : ∀ e', e' ≠ e → X e' → Y e') :
    Inv Y [] (s.setInode e x) ∧ Same s (s.setInode e x) ∧ (s.setInode e x).refs = Function.update s.refs i 0 ∧
      ∀ e' j, s.At e' j → e' ≠ e → (s.setInode e x).At e' j ∧ (s.setInode e x).inode e' = s.inode e' := by
  have hno : ∀ j, ¬ (s.setInode e x).At e j := fun j he' => by
    have := (at_setInode_self.1 he').2.1
    omega
  have hold : ∀ e' j, (s.setInode e x).At e' j → s.At e' j ∧ e' ≠ e := fun e' j he' => by
    have hne : e' ≠ e := by
      rintro rfl
      exact hno j he'
    exact ⟨(at_setInode_ne hne).1 he', hne⟩
  have htable : TableOk Y (s.setInode e x) := by
    refine ⟨fun e₁ e₂ j h₁ h₂ => h.table.uniq e₁ e₂ j (hold e₁ j h₁).1 (hold e₂ j h₂).1, fun e₁ j h₁ => ?_,
      fun e₁ j h₁ => h.table.pos e₁ j (hold e₁ j h₁).1, fun e₁ j h₁ hv => ?_, fun e₁ j h₁ hv hY => ?_, fun e₁ j h₁ hv hY => ?_⟩ <;> obtain ⟨h₂, hne⟩ := hold e₁ j h₁
    · rw [setInode_ne hne]
      exact h.table.range e₁ j h₂
    · rw [setInode_ne hne] at hv ⊢
      exact h.table.wf e₁ j h₂ hv
    · rw [setInode_ne hne] at hv ⊢
      exact h.table.clean e₁ j h₂ hv fun hX => hY (hXY e₁ hne hX)
    · rw [setInode_ne hne] at hv ⊢
      exact h.table.typed e₁ j h₂ hv fun hX => hY (hXY e₁ hne hX)
  have hnone : ∀ e', ¬ (s.setInode e x).At e' i := fun e' he' => (hold e' i he').2 (h.table.uniq e' e i (hold e' i he').1 he)
  have hother : ∀ j, j ≠ i → (s.setInode e x).node j = s.node j ∧ (s.setInode e x).refs j = s.refs j := fun j hj =>
    node_setInode_ne h.table htable (fun he' => hj (he'.inum.symm.trans he.inum)) (hno j)
  have hsame : Same s (s.setInode e x) := by
    refine same_setInode fun j _ => ?_
    obtain rfl | hj := eq_or_ne j i
    · rw [htable.node_of_none hnone, h.table.node_of_at he]
      split
      · rename_i hv
        exact (hd hv).symm
      · rfl
    · exact (hother j hj).1
  refine ⟨hsame.inv h htable, hsame, funext fun j => ?_, fun e' j he' hne => ⟨(at_setInode_ne hne).2 he', setInode_ne hne⟩⟩
  obtain rfl | hj := eq_or_ne j i
  · rw [update_self, htable.refs_of_none hnone]
  · rw [update_of_ne hj]
    exact (hother j hj).2

theorem Inv.setFree (h : Inv X [] s) (he : s.At e i) (hv : (s.inode e).valid = true) (hX : X e)
    (hz : ∀ j, (s.inode e).d.addrs j = 0) :
    Inv X [] (s.setD e { (s.inode e).d with type := 0 }) ∧
      (s.setD e { (s.inode e).d with type := 0 }).refs = s.refs ∧
      (s.setD e { (s.inode e).d with type := 0 }).file = Function.update s.file i none := by
  have hn := h.table.node_of_valid he hv
  have hw := h.table.wf e i he hv
  have hwf : Dinode.Wf { (s.inode e).d with type := 0 } :=
    ⟨Nat.two_pow_pos 16, hw.major, hw.minor, hw.nlink, hw.size, hw.addrs, hw.high⟩
  obtain ⟨hnode, hrefs⟩ := setD_node h.table he hv hX hwf
  have hni : (s.setD e { (s.inode e).d with type := 0 }).node i = { (s.inode e).d with type := 0 } := by
    rw [hnode, update_self]
  have hnj : ∀ j, j ≠ i → (s.setD e { (s.inode e).d with type := 0 }).node j = s.node j := fun j hji => by
    rw [hnode, update_of_ne hji]
  -- no slot of the inode held a block
  have hslots : ∀ c, c ≠ 0 → ∀ j, (s.setD e { (s.inode e).d with type := 0 }).slotsAt c j = s.slotsAt c j := by
    intro c hc j
    obtain rfl | hji := eq_or_ne j i
    · have hzero : s.slotsAt c j = 0 := by
        rw [Fs.slotsAt, hn]
        split
        · rfl
        · refine List.count_eq_zero.2 fun hmem => ?_
          rcases mem_slots.1 hmem with ⟨k, _, hk⟩ | ⟨k, _, hk⟩
          · exact hc (hk.symm.trans (hz k))
          · rw [indirect, if_pos (hz _)] at hk
            exact hc hk.symm
      rw [hzero, Fs.slotsAt, hni]
      exact if_pos rfl
    · rw [Fs.slotsAt, Fs.slotsAt, hnj j hji]
      rfl
  refine ⟨⟨h.layout, setD_table h.table he hX hwf, ⟨fun c hc => ?_, h.blocks.metadata⟩, fun j hj htj => ?_⟩, hrefs,
    funext fun j => ?_⟩
  · have hcount : (s.setD e { (s.inode e).d with type := 0 }).slotCount c = s.slotCount c :=
      slotCount_congr rfl fun j _ => hslots c hc j
    rw [hcount]
    exact h.blocks.own c hc
  · obtain rfl | hji := eq_or_ne j i
    · rw [hni] at htj
      exact absurd rfl htj
    · rw [hnj j hji] at htj ⊢
      exact h.blocks.noHole j hj htj
  · obtain rfl | hji := eq_or_ne j i
    · rw [update_self, Fs.file, hni, if_neg fun hc => hc.2 rfl]
    · rw [update_of_ne hji, Fs.file, Fs.file, hnj j hji]
      rfl

/-- `iput` of entry `e` frees the inode: it drops the last reference to an inode without links. -/
structure Frees (s : Fs) (e i : Nat) : Prop where
  last : s.refs i = 1
  valid : (s.inode e).valid = true
  unlinked : ∃ f, s.file i = some f ∧ f.nlink = 0

/-- What `iput` of entry `e`, with inode `i`, does. -/
structure Dropped (e i : Nat) (s t : Fs) : Prop where
  ok : Ok t
  sb : t.sb = s.sb
  trans : t.trans = s.trans
  entry : ∀ e' j, s.At e' j → e' ≠ e ∨ 1 < s.refs i → t.At e' j ∧ ((s.inode e').valid = true → (t.inode e').valid = true)
  refs : t.refs = Function.update s.refs i (s.refs i - 1)
  file : (Frees s e i ∧ t.file = Function.update s.file i none) ∨ (¬ Frees s e i ∧ t.file = s.file)
  others : Others i s t

theorem keep_trunc (hinode : t.inode = Function.update s.inode e (s.inode e).trunc) (hsb : t.sb = s.sb)
    (htrans : t.trans = s.trans) : Keep All s t := by
  refine ⟨hsb, htrans, fun e' j _ he' => ?_⟩
  obtain rfl | hne := eq_or_ne e' e
  · have hself : t.inode e' = (s.inode e').trunc := by rw [hinode, update_self]
    exact ⟨⟨he'.lt, by rw [hself]; exact he'.ref, by rw [hself]; exact he'.inum⟩, by rw [hself]; exact id⟩
  · have hoth : t.inode e' = s.inode e' := by rw [hinode, update_of_ne hne]
    exact ⟨⟨he'.lt, by rw [hoth]; exact he'.ref, by rw [hoth]; exact he'.inum⟩, by rw [hoth]; exact id⟩

theorem frees_iff (h : Ok s) (he : s.At e i) :
    Frees s e i ↔ (s.inode e).ref = 1 ∧ (s.inode e).valid = true ∧ (s.inode e).d.nlink = 0 := by
  have hr := h.table.refs_of_at he
  constructor
  · rintro ⟨hl, hv, f, hf, hn⟩
    rw [file_of_valid h.table he hv (h.table.typed e i he hv fun h => h)] at hf
    cases hf
    exact ⟨hr.symm.trans hl, hv, hn⟩
  · rintro ⟨hl, hv, hn⟩
    exact ⟨hr.trans hl, hv, _, file_of_valid h.table he hv (h.table.typed e i he hv fun h => h), hn⟩

theorem Ok.decRef (h : Ok s) (he : s.At e i) (hno : ¬ Frees s e i) :
    Dropped e i s (s.setInode e { s.inode e with ref := (s.inode e).ref - 1 }) := by
  have hr := h.table.refs_of_at he
  have hpos := he.ref
  by_cases hone : (s.inode e).ref = 1
  · obtain ⟨h₁, h₂, h₃, h₄⟩ := h.dropEntry (Y := fun _ => False) (x := { s.inode e with ref := (s.inode e).ref - 1 }) he
      (show (s.inode e).ref - 1 = 0 by omega) (fun hv => h.table.clean e i he hv fun h => h) fun _ _ hX => hX
    refine ⟨h₁, rfl, rfl, fun e' j he' hor => ?_, ?_, Or.inr ⟨hno, h₂.file⟩, h₂.others i⟩
    · have hne : e' ≠ e := by
        rcases hor with hne | hlt
        · exact hne
        · omega
      rw [(h₄ e' j he' hne).2]
      exact ⟨(h₄ e' j he' hne).1, id⟩
    · rw [h₃, hr, hone]
  · obtain ⟨h₁, h₂, h₃, h₄⟩ := h.setEntry (x := { s.inode e with ref := (s.inode e).ref - 1 }) he rfl rfl
      (show 0 < (s.inode e).ref - 1 by omega) rfl rfl
    refine ⟨h₁, rfl, rfl, fun e' j he' _ => h₃.entry e' j trivial he', ?_, Or.inr ⟨hno, h₂.file⟩, h₂.others i⟩
    rw [h₄, hr]

/-- `iput` of the last reference to an inode without links, which nobody has locked. -/
theorem iput_frees (h : Ok s) (he : s.At e i) (hfrees : Frees s e i) (hlock : (s.inode e).locked = false)
    (htrans : s.trans = true) (hbig : TooBig F (fun c => s.sb.IsBitmap c ∨ c = s.sb.iblock i) 0 s) :
    wp (iput e) (fun _ t => Dropped e i s t ∧ Logs (fun c => s.sb.IsBitmap c ∨ c = s.sb.iblock i) 0 s t ∧
      ∃ x, t.inode = Function.update s.inode e x ∧ x.ref = 0 ∧ x.locked = false) F s := by
  have ⟨hlast, hv, f, hf, _⟩ := hfrees
  obtain ⟨h₁, hsame₁, hkeep₁, hrefs₁⟩ := h.setEntry (x := { s.inode e with locked := true }) he rfl rfl he.ref rfl rfl
  rw [← h.table.refs_of_at he, update_eq_self] at hrefs₁
  simp only [iput, wp_bind, wp_get]
  rw [if_pos ((frees_iff h he).1 hfrees)]
  simp only [wp_bind, acquiresleep, wp_get, hlock, Bool.false_eq_true, if_false, wp_set]
  have hinode₁ : ∀ e', e' ≠ e → (s.setInode e { s.inode e with locked := true }).inode e' = s.inode e' := fun e' => setInode_ne
  generalize s.setInode e { s.inode e with locked := true } = s₁ at h₁ hsame₁ hkeep₁ hrefs₁ hinode₁
  have he₁ : Entry s₁ e i f := ⟨(hkeep₁.entry e i trivial he).1, (hkeep₁.entry e i trivial he).2 hv, by
    rw [hsame₁.file]
    exact hf⟩
  have hlogs₁ : Logs (fun c => s.sb.IsBitmap c ∨ c = s.sb.iblock i) 0 s s₁ := Logs.of_eq hsame₁.logged
  have hbig₁ : TooBig F s₁.sb.IsBitmap 0 s₁ :=
    hbig.after hlogs₁ (fun _ hc => hc) (fun c hc => Or.inl (hsame₁.sb ▸ hc)) (Nat.le_refl _)
  have h₁' : Inv (fun e' => e' = e) [] s₁ := h₁.mono fun _ hx => hx.elim
  refine wp_post (itrunc_spec h₁' he₁.at_ he₁.valid rfl (he₁.type h₁.table) (hsame₁.trans.trans htrans)
    hbig₁ he₁.file) ?_
  rintro _ s₂ ⟨h₂, hsb₂, htrans₂, hrefs₂, hinode₂, hfile₂, hoth₂, hlogs₂⟩
  rw [hsame₁.sb] at hlogs₂
  have hlogs₂' := hlogs₁.comp hlogs₂ (fun _ hc => hc) (fun _ hc => hc) (Nat.le_refl _)
  have hkeep₂ := keep_trunc hinode₂ hsb₂ htrans₂
  have hself₂ : s₂.inode e = (s₁.inode e).trunc := by rw [hinode₂, update_self]
  have hat₂ := (hkeep₂.entry e i trivial he₁.at_).1
  have hv₂ := (hkeep₂.entry e i trivial he₁.at_).2 he₁.valid
  have h₂' : Inv (fun e' => e' = e) [] s₂ := h₂.mono fun _ hx => hx.1
  obtain ⟨h₃, hrefs₃, hfile₃⟩ := h₂'.setFree hat₂ hv₂ rfl fun j => by rw [hself₂]; rfl
  have hkeep₃ : Keep All s₂ (s₂.setD e { (s₂.inode e).d with type := 0 }) := setD_keep _
  obtain ⟨hat₃, hv₃⟩ := hkeep₃.entry e i trivial hat₂
  have hwf₃ : Dinode.Wf { (s₂.inode e).d with type := 0 } := by
    have := h₃.table.wf e i hat₃ (hv₃ hv₂)
    rwa [setD_inode] at this
  have hoth₃ := setD_others h₂'.table hat₂ hv₂ rfl hwf₃
  simp only [wp_modify]
  refine wp_post (iupdate_spec h₃.layout h₃.table hat₃ (hv₃ hv₂) (htrans₂.trans (hsame₁.trans.trans htrans))
    (hbig.stop hlogs₂')) ?_
  intro _ s₄ hu
  have h₄ := hu.inv (Y := fun e' => e' = e) h₃ hat₃ (Or.inl rfl) fun e' _ hX => hX
  have hat₄ : s₄.At e i := (at_iff hu.inode).2 hat₃
  simp only [releasesleep, wp_modify]
  rw [setInode_self, setInode_setInode, setInode_self, setInode_setInode]
  have href₄ : (s₄.inode e).ref = 1 := by
    rw [hu.inode, setD_inode]
    rw [hself₂]
    show (s₁.inode e).ref = 1
    rw [← h₁.table.refs_of_at he₁.at_, hrefs₁]
    exact hlast
  obtain ⟨h₅, h₆, h₇, h₈⟩ := h₄.dropEntry (Y := fun _ => False)
    (x := { s₄.inode e with valid := false, locked := false, ref := (s₄.inode e).ref - 1 }) hat₄
    (show (s₄.inode e).ref - 1 = 0 by omega) (fun _ => by rw [hu.disk, update_self, hu.inode])
    fun e' hne hX => hne hX
  refine ⟨⟨h₅, ?_, ?_, fun e' j he' hor => ?_, ?_, Or.inl ⟨hfrees, ?_⟩, ?_⟩, ?_,
    { s₄.inode e with valid := false, locked := false, ref := (s₄.inode e).ref - 1 }, funext fun e' => ?_,
    show (s₄.inode e).ref - 1 = 0 by omega, rfl⟩
  · exact hu.sb.trans (hsb₂.trans hsame₁.sb)
  · exact hu.trans.trans (htrans₂.trans hsame₁.trans)
  · have hne : e' ≠ e := by
      rcases hor with hne | hlt
      · exact hne
      · omega
    obtain ⟨ha₁, hv₁⟩ := hkeep₁.entry e' j trivial he'
    obtain ⟨ha₂, hv₂⟩ := hkeep₂.entry e' j trivial ha₁
    obtain ⟨ha₃, hv₃⟩ := hkeep₃.entry e' j trivial ha₂
    obtain ⟨ha₄, hv₄⟩ := (hu.keep All).entry e' j trivial ha₃
    rw [(h₈ e' j ha₄ hne).2]
    exact ⟨(h₈ e' j ha₄ hne).1, fun hv => hv₄ (hv₃ (hv₂ (hv₁ hv)))⟩
  · rw [h₇, hu.refs, hrefs₃, hrefs₂, hrefs₁, hlast]
  · rw [h₆.file, hu.file h₃.blocks, hfile₃, hfile₂, hsame₁.file, update_idem]
  · have hsb : s₂.sb = s.sb := hsb₂.trans hsame₁.sb
    exact ((((hsame₁.others i).trans hsame₁.sb hoth₂).trans hsb hoth₃).trans hsb (hu.same.others i)).trans
      (hu.sb.trans hsb) (h₆.others i)
  · refine hlogs₂'.comp hu.logs (fun _ hc => hc) (fun c hc => Or.inr ?_) (Nat.le_refl _)
    rw [hc]
    show s₂.sb.iblock i = _
    rw [hsb₂, hsame₁.sb]
  · obtain rfl | hne := eq_or_ne e' e
    · rw [setInode_self, update_self]
    · rw [setInode_ne hne, hu.inode, Fs.setD, setInode_ne hne, hinode₂, update_of_ne hne, update_of_ne hne]
      exact hinode₁ e' hne

/-! ## `ialloc` -/

theorem Ok.newInode {u : Fs} {d : Dinode} {data : Block} (h : Ok s) (hi : i < s.sb.ninodes) (hfree : (s.disk i).type = 0)
    (ht : d.type ≠ 0) (hsize : d.size = 0) (haddrs : ∀ k, d.addrs k = 0) (hinode : u.inode = s.inode) (hsb : u.sb = s.sb)
    (hblk : u.blk = (s.setBlk (s.sb.iblock i) data).blk) (hd : getDinode data (ipos i) = d)
    (hother : ∀ x, x < ipos i ∨ ipos i + dinodeSize ≤ x → data x = s.blk (s.sb.iblock i) x) :
    s.file i = none ∧ Ok u ∧ u.refs = s.refs ∧ u.file = Function.update s.file i (some (fileOf u.blk d)) := by
  have hdisk : u.disk = Function.update s.disk i d := by
    refine Eq.trans (funext fun j => ?_) (disk_setBlk_iblock (s := s) hother hd)
    simp only [Fs.disk, hblk, hsb]
    rfl
  -- no entry has read a free inode
  have hinv : ∀ e, s.At e i → (s.inode e).valid = false := fun e he => by
    cases hv : (s.inode e).valid with
    | false => rfl
    | true =>
        refine absurd ?_ (h.table.typed e i he hv fun h => h)
        rw [h.table.clean e i he hv fun h => h]
        exact hfree
  have htable : TableOk (fun _ => False) u := by
    have hat : ∀ e j, u.At e j → s.At e j := fun e j he => (at_iff hinode).1 he
    refine ⟨fun e e' j h₁ h₂ => h.table.uniq e e' j (hat e j h₁) (hat e' j h₂), fun e j he => ?_,
      fun e j he => h.table.pos e j (hat e j he), fun e j he => ?_, fun e j he hv _ => ?_, fun e j he => ?_⟩
    · rw [hinode, hsb]
      exact h.table.range e j (hat e j he)
    · rw [hinode]
      exact h.table.wf e j (hat e j he)
    · rw [hinode] at hv ⊢
      have hji : j ≠ i := by
        rintro rfl
        rw [hinv e (hat e j he)] at hv
        cases hv
      rw [hdisk, update_of_ne hji]
      exact h.table.clean e j (hat e j he) hv fun h => h
    · rw [hinode]
      exact h.table.typed e j (hat e j he)
  have hdata : ∀ c, s.sb.IsData c → u.blk c = s.blk c := fun c hc => by
    rw [hblk]
    refine update_of_ne ?_ ..
    have h₁ := h.layout.iblock_lt hi
    have h₂ := h.layout.bblock_lt (c := 0) (by have := hc.2; omega)
    have h₃ := Super.Layout.bblock_ge s.sb 0
    have h₄ := hc.1
    omega
  have hused : ∀ c, u.used c = s.used c := fun c => by
    refine Eq.trans ?_ (show (s.setBlk (s.sb.iblock i) data).used c = s.used c from used_setBlk_of_ne ?_)
    · simp only [Fs.used, hblk, hsb]
      rfl
    have h₁ := h.layout.iblock_lt hi
    have h₂ := Super.Layout.bblock_ge s.sb c
    omega
  have hnj : ∀ j, j ≠ i → u.node j = s.node j := fun j hj => node_congr hinode (by rw [hdisk, update_of_ne hj])
  have hni : s.node i = s.disk i := h.table.node_eq_disk fun _ _ h => h
  have hui : u.node i = d := by
    rw [htable.node_eq_disk fun _ _ h => h, hdisk, update_self]
  have hslots : ∀ c, c ≠ 0 → ∀ j, j < s.sb.ninodes → u.slotsAt c j = s.slotsAt c j := by
    intro c hc j hj
    obtain rfl | hji := eq_or_ne j i
    · have hold : s.slotsAt c j = 0 := by
        rw [Fs.slotsAt, hni]
        exact if_pos hfree
      rw [hold, Fs.slotsAt, hui, if_neg ht]
      refine List.count_eq_zero.2 fun hmem => ?_
      rcases mem_slots.1 hmem with ⟨k, _, hk⟩ | ⟨k, _, hk⟩
      · exact hc (hk.symm.trans (haddrs k))
      · rw [indirect, if_pos (haddrs ndirect)] at hk
        exact hc hk.symm
    · exact slotsAt_congr (hnj j hji) fun htj x _ => h.blocks.tbl hdata hj htj x
  refine ⟨?_, ⟨hsb ▸ h.layout, htable, ⟨fun c hc => ?_, fun c hc => ?_⟩, fun j hj htj => ?_⟩, refs_congr hinode,
    funext fun j => ?_⟩
  · rw [Fs.file, hni, if_neg fun hc => hc.2 hfree]
  · rw [slotCount_congr (s := s) (t := u) hsb fun j hj => hslots c hc j hj, hused, hsb]
    exact h.blocks.own c hc
  · rw [hused]
    exact h.blocks.metadata c (hsb ▸ hc)
  · rw [hsb] at hj
    obtain rfl | hji := eq_or_ne j i
    · rw [hui]
      exact fun bn hbn => absurd (hsize ▸ hbn) (Nat.not_lt_zero _)
    · rw [hnj j hji] at htj ⊢
      exact noHole_congr (h.blocks.noHole j hj htj) fun x _ => h.blocks.tbl hdata hj htj x
  · obtain rfl | hji := eq_or_ne j i
    · rw [update_self, Fs.file, hui, if_pos ⟨hsb ▸ hi, ht⟩]
    · rw [update_of_ne hji]
      simp only [Fs.file, hnj j hji, hsb]
      by_cases hj : j < s.sb.ninodes ∧ (s.node j).type ≠ 0
      · rw [if_pos hj, if_pos hj]
        exact congrArg some (fileOf_congr (h.blocks.noHole j hj.1 hj.2) fun c hc hc0 x _ =>
          congrFun (hdata c (h.blocks.isData hj.1 hj.2 hc0 hc)) x)
      · rw [if_neg hj, if_neg hj]

end Xv6.Fs
