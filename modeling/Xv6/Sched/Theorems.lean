import Mathlib.Data.Fintype.Pi
import Xv6.Sched.Lemmas

/-!
# Theorems about scheduling
-/

namespace Xv6.Sched

open Lib
open Xv6.Proc (State)

variable {C L K : Type} [DecidableEq C] [DecidableEq L] [DecidableEq K] {lk : K → L} {cond : K → Bool} {s : Sys C L K}
  {p : Fin nproc} {k : K}

/-! ## A run to test on -/

instance [Fintype K] (s : Sys C L K) (l : L) : Decidable (s.Settled lk l) := inferInstanceAs (Decidable (∀ _, _ → _ → _))

instance [Fintype K] (s : Sys C L K) (a : Label C L K) : Decidable (s.ok lk a) := by
  unfold Sys.ok
  split <;> infer_instance

/-- The process sleeps. Then an interrupt on its CPU makes the condition true. -/
def sleeper : List (Label Unit Unit Unit) :=
  [.call () (.pick 0), .go (), .go (), .call () (.acquire ()), .call () (.sleep ()), .go (), .go (), .go (), .call () (.acquire ()),
    .call () (.set () true)]

theorem exists_sleeper : ∃ s : Sys Unit Unit Unit, Reach (Sys.step id) (Sys.ok id) (init fun _ => false) s ∧
    (s.slot 0).state = .sleeping ∧ (s.slot 0).chan = some () ∧ s.cond () = true := by
  have hrun : (runIf (Sys.step id) (Sys.ok id) sleeper (init fun _ => false)).any fun s : Sys Unit Unit Unit =>
      decide ((s.slot 0).state = .sleeping ∧ (s.slot 0).chan = some () ∧ s.cond () = true) := by decide +kernel
  obtain ⟨s, hs, h⟩ := exists_of_runIf hrun
  exact ⟨s, hs, of_decide_eq_true h⟩

/-! ## Processes and CPUs -/

/-- In every state that is reached, on any number of CPUs: a process is on one CPU at most, and on one if it is `RUNNING`; if it is on
one and not `RUNNING`, this CPU has its lock. No step panics: not in `acquire` or `release`, not in `sched` over the lock or the
state, and no exited process runs again. -/
theorem one_cpu (h : Reach (Sys.step lk) (Sys.ok lk) (init cond) s) :
    (∀ c d p, (s.cpu c).proc = some p → (s.cpu d).proc = some p → c = d) ∧
    (∀ p, (s.slot p).state = .running → ∃ c, (s.cpu c).proc = some p) ∧
    (∀ c p, (s.cpu c).proc = some p → (s.slot p).state = .running ∨ (s.slot p).lock = some c) ∧
    ∀ a e, s.ok lk a → s.step lk a ≠ some (.error e) := by
  obtain ⟨g, h⟩ := ok_of_reach h
  refine ⟨fun c d p hc hd => ?_, fun p hp => ?_, fun c p hp => ?_, fun a e ha he => ?_⟩
  · exact Option.some.inj (((h.rel c p).proc.2 hc).symm.trans ((h.rel d p).proc.2 hd))
  · obtain ⟨c, hc⟩ := Option.ne_none_iff_exists'.1 ((h.slot p).running hp)
    exact ⟨c, (h.rel c p).proc.1 hc⟩
  · rw [or_iff_not_imp_right]
    exact fun hl => ((h.rel c p).running (h.cpu c) hp (mt (h.rel c p).lock.2 hl)).1
  · obtain ⟨t, -, ht, -⟩ := step_kept h ha _ he
    cases ht

theorem one_cpu_sleeper : ∃ s : Sys Unit Unit Unit, (s.slot 0).state = .sleeping ∧ ∀ a e, s.ok id a → s.step id a ≠ some (.error e) := by
  obtain ⟨s, hs, h, -⟩ := exists_sleeper
  exact ⟨s, h, (one_cpu hs).2.2.2⟩

/-! ## Sleepers -/

/-- In every state that is reached: if a process sleeps although its condition is true, then some CPU has the lock of the condition, has
made it true since it took the lock, and has yet to come to the process in its `wakeup`. -/
theorem no_lost_wakeup (h : Reach (Sys.step lk) (Sys.ok lk) (init cond) s) (hst : (s.slot p).state = .sleeping)
    (hk : (s.slot p).chan = some k) (hc : s.cond k = true) :
    ∃ c, s.lock (lk k) = some c ∧ s.told k = true ∧ s.woke k = false ∧ (s.cpu c).pc.Before k p := by
  obtain ⟨g, h⟩ := ok_of_reach h
  have hchan : (g p).chan = some k := by rw [(h.slot p).chan (by simp [hst]), if_pos hst, hk]
  have htold := h.wake.told p k hchan hc
  obtain ⟨c, hl⟩ := Option.ne_none_iff_exists'.1 (h.wake.held k (.inl htold))
  exact ⟨c, hl, htold, h.wake.woke p k c hchan hl⟩

theorem no_lost_wakeup_sleeper : ∃ s : Sys Unit Unit Unit, (s.slot 0).state = .sleeping ∧ s.lock () = some () := by
  obtain ⟨s, hs, h₁, h₂, h₃⟩ := exists_sleeper
  obtain ⟨c, hc, -⟩ := no_lost_wakeup hs h₁ h₂ h₃
  exact ⟨s, h₁, hc⟩

end Xv6.Sched
