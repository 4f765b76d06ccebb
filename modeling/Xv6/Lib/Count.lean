import Mathlib.Algebra.Order.BigOperators.Group.Finset

/-!
# Counting occurrences

Sums and counts in which one summand or one place changes.
-/

namespace Xv6.Lib

open Function

open Finset

variable {ι : Type} [DecidableEq ι] {s : Finset ι} {f f' : ι → Nat} {i j : ι}

theorem le_sum (hi : i ∈ s) : f i ≤ ∑ k ∈ s, f k :=
  Finset.single_le_sum (fun _ _ => Nat.zero_le _) hi

theorem add_le_sum (hi : i ∈ s) (hj : j ∈ s) (hij : i ≠ j) : f i + f j ≤ ∑ k ∈ s, f k := by
  rw [← Finset.add_sum_erase s f hi]
  exact Nat.add_le_add_left (le_sum (Finset.mem_erase.2 ⟨hij.symm, hj⟩)) _

/-- One summand changes. -/
theorem sum_change (f f' : ι → Nat) (hi : i ∈ s) (h : ∀ k ∈ s, k ≠ i → f' k = f k) :
    ∑ k ∈ s, f' k + f i = ∑ k ∈ s, f k + f' i := by
  rw [← Finset.add_sum_erase s f hi, ← Finset.add_sum_erase s f' hi]
  have : ∑ k ∈ s.erase i, f' k = ∑ k ∈ s.erase i, f k :=
    Finset.sum_congr rfl fun k hk => h k (Finset.mem_of_mem_erase hk) (Finset.ne_of_mem_erase hk)
  omega

theorem count_map_range {g : Nat → Nat} {n b : Nat} :
    ((List.range n).map g).count b = ∑ x ∈ Finset.range n, if g x = b then 1 else 0 := by
  induction n with
  | zero => rfl
  | succ n ih =>
      rw [List.range_succ, List.map_append, List.count_append, ih, Finset.sum_range_succ]
      simp [List.count_cons]

/-- One place of a list changes. -/
theorem count_map_update {g : Nat → Nat} {k n v b : Nat} (hk : k < n) :
    ((List.range n).map (update g k v)).count b + (if g k = b then 1 else 0) =
      ((List.range n).map g).count b + (if v = b then 1 else 0) := by
  rw [count_map_range, count_map_range]
  have := sum_change (fun x => if g x = b then 1 else 0) (fun x => if update g k v x = b then 1 else 0)
    (Finset.mem_range.2 hk) fun x _ hx => by simp [update_of_ne hx]
  simpa using this

end Xv6.Lib
