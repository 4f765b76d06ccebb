import Mathlib.Logic.Function.Basic

/-!
# Stores that are written one item at a time

A store maps places to values. Code that writes it leaves a list of writes; a crash after the
first `k` of them leaves the store with those applied. `Along R d ws` says that `R k` holds of the
store after every `k` of the writes.
-/

namespace Xv6.Lib

open Function

variable {κ β : Type} [DecidableEq κ]

def applyWrites (d : κ → β) (ws : List (κ × β)) : κ → β :=
  ws.foldl (fun d w => update d w.1 w.2) d

/-- `R k` holds of the store after the first `k` writes, for every `k`. -/
def Along (R : Nat → (κ → β) → Prop) (d : κ → β) (ws : List (κ × β)) : Prop :=
  ∀ k ≤ ws.length, R k (applyWrites d (ws.take k))

variable {R : Nat → (κ → β) → Prop} {d : κ → β} {ws : List (κ × β)}

@[simp] theorem applyWrites_nil (d : κ → β) : applyWrites d [] = d := rfl

theorem applyWrites_snoc (d : κ → β) (ws : List (κ × β)) (a : κ) (x : β) :
    applyWrites d (ws ++ [(a, x)]) = update (applyWrites d ws) a x := by
  simp [applyWrites]

theorem Along.nil (h : R 0 d) : Along R d [] := by
  intro k hk
  obtain rfl : k = 0 := by simpa using hk
  exact h

/-- One more write. -/
theorem Along.snoc {a : κ} {x : β} (h : Along R d ws)
    (hR : R (ws.length + 1) (update (applyWrites d ws) a x)) : Along R d (ws ++ [(a, x)]) := by
  intro k hk
  rw [List.length_append, List.length_singleton] at hk
  by_cases hlt : k ≤ ws.length
  · rw [List.take_append_of_le_length hlt]
    exact h k hlt
  · obtain rfl : k = ws.length + 1 := by omega
    rw [List.take_of_length_le (by simp), applyWrites_snoc]
    exact hR

end Xv6.Lib
