import Xv6.Fs.Lemmas.Inode

/-!
# Directories and path elements
-/

namespace Xv6.Fs

open Lib Function

variable {D : Prop} {A : Nat → Prop} {k n : Nat} {s s₀ t u : Fs} {e e' i j : Nat} {f f' : FileView} {name : Name}
  {H : List Nat}

/-! ## References that a function holds -/

/-- The references in `s` are those in `s₀`, where they were, and one for each inode of `H`. -/
structure Frame (s₀ : Fs) (H : List Nat) (s : Fs) : Prop where
  sb : s.sb = s₀.sb
  trans : s.trans = s₀.trans
  entry : ∀ e i, s₀.At e i → s.At e i ∧ ((s₀.inode e).valid = true → (s.inode e).valid = true)
  refs : ∀ i, s.refs i = s₀.refs i + H.count i

namespace Frame

theorem refl (s : Fs) : Frame s [] s := ⟨rfl, rfl, fun _ _ he => ⟨he, id⟩, fun _ => rfl⟩

theorem keep (h : Frame s₀ H s) (hk : Keep All s t) (hr : t.refs = s.refs) : Frame s₀ H t where
  sb := hk.sb.trans h.sb
  trans := hk.trans.trans h.trans
  entry := fun e i he => by
    obtain ⟨h₁, h₂⟩ := h.entry e i he
    obtain ⟨h₃, h₄⟩ := hk.entry e i trivial h₁
    exact ⟨h₃, fun hv => h₄ (h₂ hv)⟩
  refs := fun i => by
    rw [hr]
    exact h.refs i

theorem take (h : Frame s₀ H s) (hk : Keep All s t) (hr : t.refs = Function.update s.refs i (s.refs i + 1)) :
    Frame s₀ (i :: H) t where
  sb := hk.sb.trans h.sb
  trans := hk.trans.trans h.trans
  entry := fun e j he => by
    obtain ⟨h₁, h₂⟩ := h.entry e j he
    obtain ⟨h₃, h₄⟩ := hk.entry e j trivial h₁
    exact ⟨h₃, fun hv => h₄ (h₂ hv)⟩
  refs := fun j => by
    rw [hr]
    obtain rfl | hj := eq_or_ne j i
    · rw [update_self, h.refs j, List.count_cons_self, Nat.add_assoc]
    · rw [update_of_ne hj, h.refs j, List.count_cons_of_ne hj.symm]

theorem drop (h : Frame s₀ H s) (h₀ : Ok s₀) (he : s.At e i) (hd : Dropped e i s t) (hi : i ∈ H) : Frame s₀ (H.erase i) t where
  sb := hd.sb.trans h.sb
  trans := hd.trans.trans h.trans
  entry := fun e' j he' => by
    obtain ⟨h₁, h₂⟩ := h.entry e' j he'
    obtain ⟨h₃, h₄⟩ := hd.entry e' j h₁ (by
      by_cases hne : e' = e
      · subst hne
        have hji : j = i := h₁.inum.symm.trans he.inum
        have hpos : 0 < s₀.refs i := h₀.table.refs_pos.2 ⟨e', hji ▸ he'⟩
        have hcount := List.count_pos_iff.2 hi
        right
        rw [h.refs i]
        omega
      · exact Or.inl hne)
    exact ⟨h₃, fun hv => h₄ (h₂ hv)⟩
  refs := fun j => by
    rw [hd.refs]
    have hcount := List.count_pos_iff.2 hi
    obtain rfl | hj := eq_or_ne j i
    · rw [update_self, h.refs j, List.count_erase_self]
      omega
    · rw [update_of_ne hj, h.refs j, List.count_erase_of_ne hj]

end Frame

theorem Dropped.other (h : Dropped e i s t) (he : s.At e i) (he' : s.At e' j) (hj : j ≠ i ∨ 1 < s.refs i) :
    t.At e' j ∧ ((s.inode e').valid = true → (t.inode e').valid = true) ∧ t.file j = s.file j := by
  have hor : e' ≠ e ∨ 1 < s.refs i := by
    rcases hj with hj | hj
    · left
      rintro rfl
      exact hj (he'.inum.symm.trans he.inum)
    · exact Or.inr hj
  refine ⟨(h.entry e' j he' hor).1, (h.entry e' j he' hor).2, ?_⟩
  rcases h.file with ⟨hf, hfile⟩ | ⟨_, hfile⟩
  · rw [hfile]
    refine update_of_ne ?_ ..
    rintro rfl
    have := hf.last
    rcases hj with hj | hj
    · exact hj rfl
    · omega
  · rw [hfile]

/-! ## The entries of a directory -/

theorem slot_setSlot_self {de : Dirent} (h : NameOk de.name) (hi : de.inum < 2 ^ 16) : (f.setSlot k de).slot k = de := by
  have hget := getDirent_putDirent h
  rw [Nat.mod_eq_of_lt hi] at hget
  refine Eq.trans (getDirent_congr fun x hx => ?_) hget
  show blit f.byte (direntSize * k) (putDirent de) 0 direntSize (direntSize * k + x) = _
  rw [blit_apply (by omega), Nat.add_sub_cancel_left]

theorem slot_setSlot_ne {de : Dirent} (h : j ≠ k) : (f.setSlot k de).slot j = f.slot j := by
  have hs : direntSize = 16 := rfl
  refine getDirent_congr fun x hx => ?_
  show blit f.byte (direntSize * k) (putDirent de) 0 direntSize (direntSize * j + x) = _
  rw [hs] at hx ⊢
  exact blit_apply_of_lt (by omega)

theorem nslots_setSlot {de : Dirent} : (f.setSlot k de).nslots = max f.nslots (k + 1) := by
  show max f.size (16 * k + 16) / 16 = max (f.size / 16) (k + 1)
  omega

theorem dvd_setSlot {de : Dirent} (h : direntSize ∣ f.size) : direntSize ∣ (f.setSlot k de).size := by
  have hs : direntSize = 16 := rfl
  show direntSize ∣ max f.size (direntSize * k + direntSize)
  rw [hs] at h ⊢
  omega

theorem Written.setSlot {de : Dirent} (h : Written f (fun x => some (putDirent de x)) (direntSize * k) direntSize 0 f') :
    f' = f.setSlot k de := by
  have hbyte : f'.byte = blit f.byte (direntSize * k) (putDirent de) 0 direntSize := by
    funext x
    by_cases hx : direntSize * k ≤ x ∧ x < direntSize * k + direntSize
    · have := h.inside (x := x - direntSize * k) (by omega)
      rw [Nat.add_sub_cancel' hx.1] at this
      rw [this, blit_apply hx, Nat.zero_add]
      rfl
    · rw [h.outside (by omega), blit_apply_of_lt (by omega)]
  cases f'
  simp only [FileView.setSlot, FileView.mk.injEq]
  exact ⟨h.type, h.major, h.minor, h.nlink, h.size, hbyte⟩

/-- A write that found no space changes no byte. -/
theorem Written.none {src : Nat → Option Byte} {off : Nat} (h : Written f src off 0 0 f') (hoff : off ≤ f.size) : f' = f := by
  have hbyte : f'.byte = f.byte := funext fun x => h.outside (by omega)
  have hsize := h.size
  cases f'
  cases f
  simp only [FileView.mk.injEq] at hsize hbyte ⊢
  exact ⟨h.type, h.major, h.minor, h.nlink, by simp only at hoff; omega, hbyte⟩

/-! ## `dirlookup` -/

theorem readSlot {Q : Nat × Bytes → Fs → Prop} {F : Stop → Fs → Prop} {X : Nat → Prop} (h : Inv X [] s) (he : Entry s e i f)
    (hk : direntSize * k < f.size)
    (hyes : ∀ b, k < f.nslots → getDirent b 0 = f.slot k → Q (direntSize, b) s)
    (hno : ∀ r b, r ≠ direntSize → ¬ direntSize ∣ f.size → Q (r, b) s) :
    wp (readiKernel e (direntSize * k) direntSize) Q F s := by
  have hfile := he.fileOf h.table
  have hcap : f.size ≤ 274432 := by
    have := (he.noHole h).size_le
    rw [← hfile]
    exact this
  refine readiKernel_spec (he.noHole h) hfile fun b hb => ?_
  have hs : direntSize = 16 := rfl
  have hread : f.readable (direntSize * k) direntSize = min direntSize (f.size - direntSize * k) := by
    refine if_neg ?_
    rw [hs] at hk ⊢
    omega
  rw [hread] at hb ⊢
  by_cases hfull : direntSize * k + direntSize ≤ f.size
  · have hmin : min direntSize (f.size - direntSize * k) = direntSize := by omega
    rw [hmin] at hb ⊢
    refine hyes b ?_ (getDirent_congr fun x hx => ?_)
    · show k < f.size / 16
      rw [hs] at hfull
      omega
    · rw [Nat.zero_add]
      exact hb x hx
  · refine hno _ b (by omega) fun hdvd => ?_
    rw [hs] at hk hfull hdvd
    omega

theorem slotsFrom_succ {size K : Nat} (h : slotsFrom size (direntSize * k) = K + 1) :
    direntSize * k < size ∧ slotsFrom size (direntSize * (k + 1)) = K := by
  have hs : direntSize = 16 := rfl
  simp only [slotsFrom, hs] at h ⊢
  omega

theorem slotsFrom_zero {size : Nat} (h : slotsFrom size (direntSize * k) = 0) : size ≤ direntSize * k := by
  have hs : direntSize = 16 := rfl
  simp only [slotsFrom, hs] at h ⊢
  omega

/-! ## `dirlink` -/

theorem dirlinkFrom_spec {K : Nat} (h : Ok s) (he : Entry s e i f) (hwhole : direntSize ∣ f.size ∨ D)
    (hK : slotsFrom f.size (direntSize * k) = K) (hk : k ≤ f.nslots) :
    Spec D A n (dirlinkFrom e K (direntSize * k)) (fun r t => t = s ∧ ∃ j, r = direntSize * j ∧
      ((j < f.nslots ∧ (f.slot j).inum = 0) ∨ direntSize * j = f.size)) s := by
  induction K generalizing k with
  | zero =>
      have hle := slotsFrom_zero hK
      refine Spec.of_pure ⟨rfl, k, rfl, Or.inr ?_⟩
      have hk' : k ≤ f.size / 16 := hk
      have hs : direntSize = 16 := rfl
      rw [hs] at hle ⊢
      omega
  | succ K ih =>
      obtain ⟨hlt, hK'⟩ := slotsFrom_succ hK
      rw [dirlinkFrom, Spec, wp_bind]
      refine readSlot h he hlt (fun b hk hb => ?_) fun r b hr hdvd => ?_
      · simp only [ne_eq, not_true_eq_false, if_false, hb]
        refine Spec.of_ite (fun hc => ?_) fun hc => ?_
        · exact Spec.of_pure ⟨rfl, k, rfl, Or.inl ⟨hk, hc⟩⟩
        · exact ih hK' hk
      · simp only [ne_eq, hr, not_false_eq_true, if_true]
        exact Spec.of_throw (hwhole.resolve_left hdvd) (by decide)

theorem writei_ok {src : Nat → Option Byte} {off : Nat} (h : Ok s) (he : Entry s e i f) (htrans : s.trans = true)
    (hbm : ∀ c, s.sb.IsBitmap c → A c) (hA : A (s.sb.iblock i)) :
    Spec D A (2 * touched off n) (writei e src off n) (fun r t =>
      (r = none ∧ t = s ∧ (f.size < off ∨ maxFile * bsize < off + n)) ∨
        ∃ tot, r = some tot ∧ WriteOk (fun _ => False) e i src off n f s tot t) s := by
  have hor : ∀ c, (s.sb.IsBitmap c ∨ c = s.sb.iblock i) → A c := by
    rintro c (hc | rfl)
    · exact hbm c hc
    · exact hA
  refine Spec.of_wp fun F hbig => ?_
  refine wp_post (writei_spec h he.at_ he.valid (he.type h.table) htrans he.file (hbig.mono hor (Nat.le_refl _))) ?_
  rintro r t (⟨rfl, rfl, hlt⟩ | ⟨tot, h₁, h₂, h₃⟩)
  · exact ⟨Or.inl ⟨rfl, rfl, hlt⟩, Logs.of_eq rfl⟩
  · exact ⟨Or.inr ⟨tot, h₁, h₂⟩, h₃.mono hor (Nat.le_refl _)⟩

namespace WriteOk

variable {X : Nat → Prop} {src : Nat → Option Byte} {off tot : Nat}

theorem entry (h : WriteOk X e i src off n f s tot t) (he : Entry s e i f) : ∃ r f', Entry t e i f' ∧
    WriteEnd src off n tot (addrOf t.blk (t.inode e).d ((off + tot) / bsize)) t.Full r ∧
    t.file = Function.update s.file i (some f') ∧ Written f src off tot r f' := by
  obtain ⟨r, f', hend, hfile, hw⟩ := h.stop
  obtain ⟨hat, hv⟩ := h.keep.entry e i trivial he.at_
  exact ⟨r, f', ⟨hat, hv he.valid, by rw [hfile, update_self]⟩, hend, hfile, hw⟩

/-- A byte of the file has a block: the space ran out at the end of the file, at the start of a block. -/
theorem end_of_noBlock {f' : FileView} (h : WriteOk X e i src off n f s tot t) (he : Entry t e i f')
    (hsize : f'.size = max f.size (off + tot)) (hz : addrOf t.blk (t.inode e).d ((off + tot) / bsize) = 0) :
    f.size ≤ off + tot ∧ (off + tot) % bsize = 0 := by
  have hN := he.noHole h.inv
  have hge : ¬ (off + tot) / bsize * bsize < (t.inode e).d.size := fun hlt => hN _ hlt hz
  have hsz : f'.size = (t.inode e).d.size := by rw [← he.fileOf h.inv.table]; rfl
  have hmod := Nat.div_add_mod (off + tot) bsize
  rw [Nat.mul_comm] at hmod
  omega

/-- A write inside one block, of bytes that can be read, is all or nothing. -/
theorem oneBlock (h : WriteOk X e i src off n f s tot t) (he : Entry s e i f) (hall : ∀ x, (src x).isSome = true)
    (hone : off % bsize + n ≤ bsize) : ∃ f', t.file = Function.update s.file i (some f') ∧ Written f src off tot 0 f' ∧
      (tot = n ∨ (tot = 0 ∧ off = f.size)) := by
  have hb : bsize = 1024 := rfl
  obtain ⟨r, f', he', hend, hfile, hw⟩ := h.entry he
  obtain rfl := hend.eq_zero fun x _ => hall x
  refine ⟨f', hfile, hw, ?_⟩
  cases hend with
  | done hn => exact Or.inl hn
  | noBlock hlt hz _ =>
      obtain ⟨h₁, h₂⟩ := h.end_of_noBlock he' hw.size hz
      have hoff := h.start
      rw [hb] at hone h₂
      exact Or.inr ⟨by omega, by omega⟩
  | copy _ _ hbad => exact absurd (hall _) (by rw [hbad]; exact Bool.false_ne_true)

end WriteOk

/-- An entry does not cross a block. -/
theorem slot_block (k : Nat) : direntSize * k % bsize + direntSize ≤ bsize := by
  show 16 * k % 1024 + 16 ≤ 1024
  omega

/-! ## Path elements -/

theorem skipelem_length {path rest : List Byte} (h : skipelem path = some (name, rest)) : rest.length < path.length := by
  simp only [skipelem] at h
  split at h
  · cases h
  · rename_i hne
    simp only [Option.some.injEq, Prod.mk.injEq] at h
    obtain ⟨_, rfl⟩ := h
    have hle := (List.dropWhile_sublist (l := path) (· == slash)).length_le
    have hfirst := List.dropWhile_get_zero_not (fun c => c == slash) path (List.length_pos_iff.2 (by simpa using hne))
    cases hd : path.dropWhile (· == slash) with
    | nil => simp [hd] at hne
    | cons c cs =>
        rw [hd, List.length_cons] at hle
        simp only [hd, List.get_eq_getElem, List.getElem_cons_zero, beq_iff_eq] at hfirst
        rw [List.dropWhile_cons_of_pos (by simpa using hfirst)]
        have h₁ := (List.dropWhile_sublist (l := cs.dropWhile (· != slash)) (· == slash)).length_le
        have h₂ := (List.dropWhile_sublist (l := cs) (· != slash)).length_le
        omega

end Xv6.Fs
