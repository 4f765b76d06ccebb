import Mathlib.Algebra.BigOperators.Group.Finset.Piecewise
import Mathlib.Tactic.Ring

/-!
# Counting the elements with a property

How the number of elements of a finite set with a property changes when the property changes at one
element.
-/

namespace Xv6.Lib

variable {α : Type} [DecidableEq α] {S : Finset α} {P Q : α → Prop} [DecidablePred P] [DecidablePred Q]

theorem card_filter_except {a : α} (ha : a ∈ S) (h : ∀ x ∈ S, x ≠ a → (P x ↔ Q x)) :
    (S.filter Q).card + (if P a then 1 else 0) = (S.filter P).card + (if Q a then 1 else 0) := by
  have hrest : ∑ x ∈ S.erase a, (if Q x then 1 else 0) = ∑ x ∈ S.erase a, (if P x then 1 else 0) := by
    apply Finset.sum_congr rfl
    intro x hx
    obtain ⟨hne, hx'⟩ := Finset.mem_erase.1 hx
    rw [if_congr (h x hx' hne) rfl rfl]
  rw [Finset.card_filter, Finset.card_filter, ← Finset.add_sum_erase S _ ha,
    ← Finset.add_sum_erase S (fun x => if P x then 1 else 0) ha, hrest]
  ring

end Xv6.Lib
