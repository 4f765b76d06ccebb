import Xv6.Proc.Proc

/-!
# What the sections do to the table
-/

namespace Xv6.Proc

variable {init p : Fin nproc} {slot : Table} {x : Slot} {env : Env} {pid status : BitVec 32}

/-! ## `kfork` -/

/-- A slot that `allocproc` and the copy of `kfork` fill: everything that they do not set is as it was
in the unused slot. -/
theorem fork_ok {y : Slot} (h : (allocproc pid env x >>= copyproc (slot p) env) = .ok y) :
    y.state = .used ∧ y.pid = pid ∧ y.parent = x.parent ∧ y.killed = x.killed ∧ y.xstate = x.xstate := by
  unfold allocproc at h
  split at h
  · cases h
  · split at h
    · cases h
    · unfold copyproc at h
      split at h
      · cases h
        exact ⟨rfl, rfl, rfl, rfl, rfl⟩
      · cases h

theorem fork_error {y : Slot} (h : (allocproc pid env x >>= copyproc (slot p) env) = .error y) :
    y = { ofile := x.ofile, cwd := x.cwd } := by
  unfold allocproc at h
  split at h
  · cases h
    rfl
  · split at h
    · cases h
      rfl
    · unfold copyproc at h
      split at h
      · cases h
      · cases h
        rfl

/-! ## `kexit` -/

/-- The parent of a slot after `reparent(p)`. -/
def newParent (init p : Fin nproc) (x : Slot) : Option (Fin nproc) :=
  if x.parent = some p then some init else x.parent

/-- The state of slot `i` after a `wakeup(chan)` by `p`, if it is called. -/
def wokenIf (called : Prop) [Decidable called] (p : Fin nproc) (chan : Option Chan) (i : Fin nproc) (x : Slot) : State :=
  if called ∧ i ≠ p ∧ x.state = .sleeping ∧ x.chan = chan then .runnable else x.state

theorem wakeup_apply (chan : Option Chan) (i : Fin nproc) :
    wakeup p chan slot i = { slot i with state := wokenIf True p chan i (slot i) } := by
  unfold wakeup wokenIf
  split
  · rw [if_pos ⟨trivial, by assumption⟩]
  · rw [if_neg (fun h => by exact absurd h.2 (by assumption))]

theorem reparent_foldl (hne : p ≠ init) (l : List (Fin nproc)) (i : Fin nproc) :
    l.foldl (reparentSlot init p) slot i =
      { slot i with
        parent := if i ∈ l then newParent init p (slot i) else (slot i).parent
        state := wokenIf (∃ c ∈ l, (slot c).parent = some p) p (some (.proc init)) i (slot i) } := by
  induction l generalizing slot with
  | nil => simp [wokenIf]
  | cons pp l ih =>
      rw [List.foldl_cons, ih]
      by_cases hpp : (slot pp).parent = some p
      · have hslot : ∀ j, reparentSlot init p slot pp j =
            { slot j with
              parent := if j = pp then some init else (slot j).parent
              state := wokenIf True p (some (.proc init)) j (slot j) } := by
          intro j
          rw [reparentSlot, if_pos hpp, wakeup_apply]
          obtain rfl | hj := eq_or_ne j pp
          · simp [wokenIf]
          · simp [hj]
        have hkids : ∃ c ∈ pp :: l, (slot c).parent = some p := ⟨pp, List.mem_cons_self, hpp⟩
        simp only [hslot, newParent, wokenIf, true_and]
        congr 1
        · grind
        · grind
      · have hslot : reparentSlot init p slot pp = slot := if_neg hpp
        have hkids : (∃ c ∈ pp :: l, (slot c).parent = some p) ↔ ∃ c ∈ l, (slot c).parent = some p := by
          simp [hpp]
        simp only [hslot, newParent, wokenIf, hkids]
        congr 1
        grind

theorem reparent_apply (hne : p ≠ init) (i : Fin nproc) :
    reparent init p slot i =
      { slot i with
        parent := newParent init p (slot i)
        state := wokenIf (∃ c, (slot c).parent = some p) p (some (.proc init)) i (slot i) } := by
  rw [reparent, reparent_foldl hne]
  simp only [List.mem_finRange, if_true, true_and]

/-- The section of `kexit`: the children go to `init`, which is woken if there are any, then the
parent is woken, and the slot becomes a zombie. -/
theorem exitSection_apply (hne : p ≠ init) (i : Fin nproc) :
    exitSection init p status slot i =
      { slot i with
        parent := newParent init p (slot i)
        xstate := if i = p then status else (slot i).xstate
        state :=
          if i = p then .zombie
          else if (slot i).state = .sleeping ∧
              ((∃ c, (slot c).parent = some p) ∧ (slot i).chan = some (.proc init) ∨
                (slot i).chan = (newParent init p (slot p)).map .proc) then .runnable
          else (slot i).state } := by
  simp only [exitSection]
  obtain rfl | hi := eq_or_ne i p
  · simp [wakeup_apply, reparent_apply hne]
  · simp only [Function.update_of_ne hi, wakeup_apply, reparent_apply hne, if_neg hi, wokenIf]
    congr 1
    by_cases hkids : ∃ c, (slot c).parent = some p
    · by_cases hchan : (slot i).chan = some (.proc init)
      · simp [hkids, hchan, hi]
        grind
      · simp [hchan, hi]
    · simp [hkids, hi]

end Xv6.Proc
