import Mathlib.Algebra.GroupWithZero.Nat
import Mathlib.Data.List.Nodup
import Mathlib.Data.List.Perm.Basic
import Mathlib.Algebra.BigOperators.Group.List.Basic

/-!
# Extents

An extent is a start and a length. A list of extents in order, with gaps between them, stands for the set
of its addresses in the shortest way; `insert` adds an extent and joins it with its neighbours.
-/

namespace Xv6.Lib.Extents

abbrev Extent := Nat × Nat

variable {a b m n : Nat} {x y z : Extent} {l l' : List Extent}

/-- The addresses of an extent. -/
def cover (x : Extent) : List Nat := List.range' x.1 x.2

/-- The addresses of all. -/
def covers (l : List Extent) : List Nat := l.flatMap cover

theorem mem_cover : b ∈ cover x ↔ x.1 ≤ b ∧ b < x.1 + x.2 := List.mem_range'_1

theorem mem_covers : b ∈ covers l ↔ ∃ x ∈ l, b ∈ cover x := List.mem_flatMap

theorem cover_add (a m n : Nat) : cover (a, m + n) = cover (a, m) ++ cover (a + m, n) := List.range'_append_1.symm

theorem covers_cons (x : Extent) (l : List Extent) : covers (x :: l) = cover x ++ covers l := rfl

theorem covers_append (l l' : List Extent) : covers (l ++ l') = covers l ++ covers l' := List.flatMap_append

theorem covers_perm (h : l.Perm l') : (covers l).Perm (covers l') := h.flatMap_right _

theorem length_covers (l : List Extent) : (covers l).length = (l.map Prod.snd).sum := by
  induction l with
  | nil => rfl
  | cons x l ih => rw [covers_cons, List.length_append, ih, List.map_cons, List.sum_cons, cover, List.length_range']

/-- The second extent starts where the first ends, or later; or the other way round. -/
def Disjoint (x y : Extent) : Prop := x.1 + x.2 ≤ y.1 ∨ y.1 + y.2 ≤ x.1

theorem Disjoint.symm (h : Disjoint x y) : Disjoint y x := Or.symm h

theorem Disjoint.ne (h : Disjoint x y) (hx : 0 < x.2) (hy : 0 < y.2) : x.1 ≠ y.1 := by
  unfold Disjoint at h
  omega

theorem disjoint_of_cover (hx : 0 < x.2) (hy : 0 < y.2) (h : ∀ b, b ∈ cover x → b ∉ cover y) : Disjoint x y := by
  have h₁ := h x.1 (mem_cover.2 ⟨Nat.le_refl _, by omega⟩)
  have h₂ := h y.1
  rw [mem_cover] at h₁ h₂
  rw [mem_cover] at h₂
  unfold Disjoint
  omega

/-- Extents of which no address occurs twice. -/
theorem disjoint_of_nodup (h : (covers (x :: l)).Nodup) (hx : 0 < x.2) (hy : y ∈ l) (hy₀ : 0 < y.2) : Disjoint x y := by
  rw [covers_cons, List.nodup_append] at h
  exact disjoint_of_cover hx hy₀ fun b h₁ h₂ => h.2.2 b h₁ b (mem_covers.2 ⟨y, hy, h₂⟩) rfl

theorem pairwise_disjoint (h : (covers l).Nodup) (hl : ∀ x ∈ l, 0 < x.2) : l.Pairwise Disjoint := by
  induction l with
  | nil => exact .nil
  | cons x l ih =>
      have hl' : ∀ y ∈ l, 0 < y.2 := fun y hy => hl y (List.mem_cons_of_mem x hy)
      refine List.pairwise_cons.2 ⟨fun y hy => disjoint_of_nodup h (hl x List.mem_cons_self) hy (hl' y hy), ih ?_ hl'⟩
      rw [covers_cons, List.nodup_append] at h
      exact h.2.1

/-! ## Extents with gaps between them -/

def Gaps (l : List Extent) : Prop := l.Pairwise fun x y => x.1 + x.2 < y.1

theorem Gaps.shorten (hl : Gaps (l ++ x :: l')) (hn : n ≤ x.2) : Gaps (l ++ (x.1, n) :: l') := by
  unfold Gaps at hl ⊢
  rw [List.pairwise_append, List.pairwise_cons] at hl ⊢
  refine ⟨hl.1, ⟨fun y hy => ?_, hl.2.1.2⟩, fun y hy z hz => ?_⟩
  · have h₁ := hl.2.1.1 y hy
    omega
  · rcases List.mem_cons.1 hz with rfl | hz
    · exact hl.2.2 y hy x List.mem_cons_self
    · exact hl.2.2 y hy z (List.mem_cons_of_mem x hz)

/-- The extents before and after an address at which none starts. -/
theorem Gaps.split (hl : Gaps l) (ha : ∀ y ∈ l, y.1 ≠ a) :
    ∃ l₁ l₂, l = l₁ ++ l₂ ∧ (∀ y ∈ l₁, y.1 < a) ∧ ∀ y ∈ l₂, a < y.1 := by
  induction l with
  | nil => exact ⟨[], [], rfl, by simp, by simp⟩
  | cons y l ih =>
      have hy := List.pairwise_cons.1 hl
      have hne := ha y List.mem_cons_self
      by_cases hlt : y.1 < a
      · obtain ⟨l₁, l₂, rfl, h₁, h₂⟩ := ih hy.2 fun z hz => ha z (List.mem_cons_of_mem y hz)
        refine ⟨y :: l₁, l₂, rfl, fun z hz => ?_, h₂⟩
        rcases List.mem_cons.1 hz with rfl | hz
        · exact hlt
        · exact h₁ z hz
      · refine ⟨[], y :: l, rfl, by simp, fun z hz => ?_⟩
        rcases List.mem_cons.1 hz with rfl | hz
        · omega
        · have h₁ := hy.1 z hz
          omega

/-- The starts are in order. -/
theorem Gaps.starts (hl : Gaps l) : (l.map Prod.fst).Pairwise (· < ·) := by
  rw [List.pairwise_map]
  exact List.Pairwise.imp (fun h => by omega) hl

/-- `x` before `l`, joined with the first if they touch. -/
def join (x : Extent) : List Extent → List Extent
  | [] => [x]
  | y :: l => if x.1 + x.2 = y.1 then (x.1, x.2 + y.2) :: l else x :: y :: l

/-- `x` added in its place, joined with the extents that it touches. -/
def insert (x : Extent) : List Extent → List Extent
  | [] => [x]
  | y :: l => if x.1 < y.1 then join x (y :: l) else join y (insert x l)

theorem join_of_gap (h : ∀ y ∈ l, x.1 + x.2 < y.1) : join x l = x :: l := by
  cases l with
  | nil => rfl
  | cons y l => exact if_neg (Nat.ne_of_lt (h y List.mem_cons_self))

theorem covers_join (x : Extent) (l : List Extent) : covers (join x l) = cover x ++ covers l := by
  cases l with
  | nil => rfl
  | cons y l =>
      rw [join]
      split
      · rename_i h
        rw [covers_cons, cover_add, h, List.append_assoc, covers_cons]
      · rfl

theorem covers_insert (x : Extent) (l : List Extent) : (covers (insert x l)).Perm (cover x ++ covers l) := by
  induction l with
  | nil => exact .refl _
  | cons y l ih =>
      rw [insert]
      split
      · rw [covers_join]
      · rw [covers_join, covers_cons]
        refine (ih.append_left _).trans ?_
        rw [← List.append_assoc, ← List.append_assoc]
        exact List.perm_append_comm.append_right _

theorem Gaps.join (hl : Gaps l) (hx : ∀ y ∈ l, x.1 + x.2 ≤ y.1) : Gaps (join x l) := by
  cases l with
  | nil => exact List.pairwise_singleton _ _
  | cons y l =>
      have hy := List.pairwise_cons.1 hl
      have h₁ := hx y List.mem_cons_self
      rw [Extents.join]
      split
      · refine List.pairwise_cons.2 ⟨fun z hz => ?_, hy.2⟩
        have h₂ := hy.1 z hz
        omega
      · refine List.pairwise_cons.2 ⟨fun z hz => ?_, hl⟩
        rcases List.mem_cons.1 hz with rfl | hz
        · omega
        · have h₂ := hy.1 z hz
          omega

theorem start_mem_join (h : z ∈ join x l) : z.1 = x.1 ∨ ∃ y ∈ l, z.1 = y.1 := by
  cases l with
  | nil => exact .inl (by rw [List.mem_singleton.1 h])
  | cons y l =>
      rw [join] at h
      split at h <;> rcases List.mem_cons.1 h with rfl | h
      · exact .inl rfl
      · exact .inr ⟨z, List.mem_cons_of_mem y h, rfl⟩
      · exact .inl rfl
      · exact .inr ⟨z, h, rfl⟩

theorem start_mem_insert (h : z ∈ insert x l) : z.1 = x.1 ∨ ∃ y ∈ l, z.1 = y.1 := by
  induction l generalizing z with
  | nil => exact .inl (by rw [List.mem_singleton.1 h])
  | cons y l ih =>
      rw [insert] at h
      split at h
      · exact start_mem_join h
      · rcases start_mem_join h with h | ⟨w, hw, h⟩
        · exact .inr ⟨y, List.mem_cons_self, h⟩
        · rcases ih hw with h' | ⟨v, hv, h'⟩
          · exact .inl (h.trans h')
          · exact .inr ⟨v, List.mem_cons_of_mem y hv, h.trans h'⟩

theorem Gaps.insert (hl : Gaps l) (hx : 0 < x.2) (hd : ∀ y ∈ l, Disjoint y x) : Gaps (insert x l) := by
  induction l with
  | nil => exact List.pairwise_singleton _ _
  | cons y l ih =>
      have hy := List.pairwise_cons.1 hl
      have hdy := hd y List.mem_cons_self
      unfold Disjoint at hdy
      rw [Extents.insert]
      split
      · refine hl.join fun z hz => ?_
        rcases List.mem_cons.1 hz with rfl | hz
        · omega
        · have h₂ := hy.1 z hz
          omega
      · refine Gaps.join (ih hy.2 fun z hz => hd z (List.mem_cons_of_mem y hz)) fun z hz => ?_
        rcases start_mem_insert hz with h | ⟨w, hw, h⟩
        · omega
        · have h₂ := hy.1 w hw
          omega

theorem insert_of_lt (hl : ∀ z ∈ l, x.1 < z.1) : insert x l = join x l := by
  cases l with
  | nil => rfl
  | cons z l => exact if_pos (hl z List.mem_cons_self)

/-- Where an extent is added: after `l`, whose last extent may touch it. -/
theorem insert_append (hg : Gaps (l ++ y :: l')) (hl : ∀ z ∈ l ++ [y], z.1 < x.1) (hl' : ∀ z ∈ l', x.1 < z.1) :
    insert x (l ++ y :: l') = l ++ join y (join x l') := by
  induction l with
  | nil =>
      have hy := hl y (List.mem_singleton.2 rfl)
      rw [List.nil_append, insert, if_neg (by omega), insert_of_lt hl', List.nil_append]
  | cons z l ih =>
      have hz := hl z List.mem_cons_self
      have hg' := List.pairwise_cons.1 hg
      rw [List.cons_append, insert, if_neg (by omega), ih hg'.2 fun w hw => hl w (List.mem_cons_of_mem z hw)]
      refine join_of_gap fun w hw => ?_
      rcases List.mem_append.1 hw with hw | hw
      · exact hg'.1 w (List.mem_append_left _ hw)
      · have hy := hg'.1 y (List.mem_append_right _ List.mem_cons_self)
        rcases start_mem_join hw with h | ⟨v, hv, h⟩
        · omega
        · rcases start_mem_join hv with h' | ⟨u, hu, h'⟩
          · have h₁ := hl y (List.mem_append_right _ (List.mem_singleton.2 rfl))
            omega
          · have h₁ := hg'.1 u (List.mem_append_right _ (List.mem_cons_of_mem y hu))
            omega

/-- An extent is added at the end. -/
theorem mem_insert_of_le (hg : Gaps l) (hpos : ∀ z ∈ l, 0 < z.2) (hl : ∀ z ∈ l, z.1 + z.2 ≤ x.1) (hz : z ∈ insert x l) :
    z ∈ l ∨ z.1 + z.2 = x.1 + x.2 := by
  rcases List.eq_nil_or_concat l with rfl | ⟨l₀, y, rfl⟩
  · exact .inr (by rw [List.mem_singleton.1 hz])
  · rw [List.concat_eq_append] at *
    have hlt : ∀ z ∈ l₀ ++ [y], z.1 < x.1 := fun z hz => by
      have h₁ := hpos z hz
      have h₂ := hl z hz
      omega
    rw [insert_append hg hlt (by simp), join, join] at hz
    split at hz
    · rename_i hj
      rcases List.mem_append.1 hz with hz | hz
      · exact .inl (List.mem_append_left _ hz)
      · refine .inr ?_
        rw [List.mem_singleton.1 hz, ← hj]
        exact Nat.add_assoc _ _ _ |>.symm
    · rcases List.mem_append.1 hz with hz | hz
      · exact .inl (List.mem_append_left _ hz)
      · rcases List.mem_cons.1 hz with rfl | hz
        · exact .inl (List.mem_append_right _ (List.mem_singleton.2 rfl))
        · exact .inr (by rw [List.mem_singleton.1 hz])

theorem length_join_le (x : Extent) (l : List Extent) : (join x l).length ≤ l.length + 1 := by
  cases l with
  | nil => exact Nat.le_refl _
  | cons y l =>
      rw [join]
      split
      · exact Nat.le_succ _
      · exact Nat.le_refl _

theorem length_insert_le (x : Extent) (l : List Extent) : (insert x l).length ≤ l.length + 1 := by
  induction l with
  | nil => exact Nat.le_refl _
  | cons y l ih =>
      rw [insert]
      split
      · exact length_join_le _ _
      · exact Nat.le_trans (length_join_le _ _) (Nat.succ_le_succ ih)

end Xv6.Lib.Extents
