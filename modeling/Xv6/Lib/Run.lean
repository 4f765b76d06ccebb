import Mathlib.Tactic.Basic

/-!
# Runs of a system of labelled steps

A step of the system is a function: on a state and a label it is not enabled (`none`), stops the
system with an `ε`, or gives the next state. `ok` restricts the labels the environment may choose
in a state. An invariant is a property of the first state that every step keeps.
-/

namespace Xv6.Lib

variable {σ ℓ ε : Type}

/-- The states reached from `s₀` by steps whose labels `ok` allows. -/
inductive Reach (step : σ → ℓ → Option (Except ε σ)) (ok : σ → ℓ → Prop) (s₀ : σ) : σ → Prop
  | init : Reach step ok s₀ s₀
  | step {s l t} : Reach step ok s₀ s → ok s l → step s l = some (.ok t) → Reach step ok s₀ t

/-- The steps named by a list of labels, in order. -/
def run (step : σ → ℓ → Option (Except ε σ)) : List ℓ → σ → Option (Except ε σ)
  | [], s => some (.ok s)
  | l :: ls, s =>
      match step s l with
      | some (.ok t) => run step ls t
      | r => r

variable {step : σ → ℓ → Option (Except ε σ)} {ok ok' : σ → ℓ → Prop} {s₀ s t : σ}

/-- The invariant rule. -/
theorem Reach.inv {I : σ → Prop} (h : Reach step ok s₀ s) (h₀ : I s₀)
    (hstep : ∀ s l t, I s → ok s l → step s l = some (.ok t) → I t) : I s := by
  induction h with
  | init => exact h₀
  | step _ hok hs ih => exact hstep _ _ _ ih hok hs

theorem Reach.mono (h : Reach step ok s₀ s) (hok : ∀ s l, ok s l → ok' s l) :
    Reach step ok' s₀ s := by
  induction h with
  | init => exact .init
  | step _ hl hs ih => exact .step ih (hok _ _ hl) hs

theorem Reach.trans (h : Reach step ok s₀ s) (h' : Reach step ok s t) : Reach step ok s₀ t := by
  induction h' with
  | init => exact h
  | step _ hl hs ih => exact .step ih hl hs

/-- `ok` holds of every label of the list in the state where the run reaches it. -/
def RunOk (step : σ → ℓ → Option (Except ε σ)) (ok : σ → ℓ → Prop) : List ℓ → σ → Prop
  | [], _ => True
  | l :: ls, s => ok s l ∧ ∀ t, step s l = some (.ok t) → RunOk step ok ls t

/-- A run of allowed labels reaches its last state. -/
theorem reach_of_run {ls : List ℓ} (hok : RunOk step ok ls s) (h : run step ls s = some (.ok t)) :
    Reach step ok s t := by
  induction ls generalizing s with
  | nil =>
      simp only [run, Option.some.injEq, Except.ok.injEq] at h
      subst h; exact .init
  | cons l ls ih =>
      simp only [run] at h
      split at h
      · rename_i u hu
        exact (Reach.step .init hok.1 hu).trans (ih (hok.2 u hu) h)
      · rename_i hne; exact absurd h (hne t)

theorem RunOk.of_forall {ls : List ℓ} (h : ∀ l ∈ ls, ∀ s, ok s l) : RunOk step ok ls s := by
  induction ls generalizing s with
  | nil => trivial
  | cons l ls ih => exact ⟨h l List.mem_cons_self s, fun _ _ => ih fun l' hl' => h l' (List.mem_cons_of_mem _ hl')⟩

theorem RunOk.of_true {ls : List ℓ} : RunOk step (fun _ _ => True) ls s := .of_forall fun _ _ _ => trivial

/-- The steps named by a list of labels, as long as `ok` allows them. -/
def runIf (step : σ → ℓ → Option (Except ε σ)) (ok : σ → ℓ → Prop) [∀ s l, Decidable (ok s l)] : List ℓ → σ → Option σ
  | [], s => some s
  | l :: ls, s =>
      if ok s l then
        match step s l with
        | some (.ok t) => runIf step ok ls t
        | _ => none
      else none

theorem reach_of_runIf [∀ s l, Decidable (ok s l)] {ls : List ℓ} (h : runIf step ok ls s = some t) : Reach step ok s t := by
  induction ls generalizing s with
  | nil =>
      cases h
      exact .init
  | cons l ls ih =>
      rw [runIf] at h
      split at h
      · rename_i hl
        split at h
        · rename_i u hu
          exact (Reach.step .init hl hu).trans (ih h)
        · cases h
      · cases h

/-- A state that a run ends in, and that passes a check. -/
theorem exists_of_runIf [∀ s l, Decidable (ok s l)] {ls : List ℓ} {check : σ → Bool} (h : (runIf step ok ls s).any check = true) :
    ∃ t, Reach step ok s t ∧ check t = true := by
  cases hr : runIf step ok ls s with
  | none =>
      rw [hr] at h
      cases h
  | some t =>
      rw [hr] at h
      exact ⟨t, reach_of_runIf hr, h⟩

end Xv6.Lib
