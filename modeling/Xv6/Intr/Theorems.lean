import Xv6.Intr.Nesting

/-!
# Interrupts are restored

The invariant ties the fields of a CPU to the thread that runs on it, and the local variable of `sched` to the thread
that waits in it.
-/

namespace Xv6.Intr

open Xv6.Lib
open Function (update update_self update_of_ne)

variable {C P : Type} {s t : State C P} {c : C} {p : P} {k : Cpu P}

/-! ## The invariant -/

structure Ok (s : State C P) : Prop where
  noff : ∀ c, (s.cpu c).noff = s.depth (s.thread c)
  off : ∀ c, 0 < s.depth (s.thread c) → (s.cpu c).intr = false
  intena : ∀ c p, (s.cpu c).proc = some p → s.stage p = .past → 0 < s.depth (.proc p) → (s.cpu c).intena = s.start (.proc p)
  out : ∀ p, (∀ c, (s.cpu c).proc ≠ some p) → s.depth (.proc p) = 1 ∧ (s.stage p = .past → s.intena p = s.start (.proc p))
  new : ∀ c p, (s.cpu c).proc = some p → s.stage p ≠ .new
  scheduler : ∀ c p, (s.cpu c).proc = some p → s.depth (.scheduler c) = 1
  once : ∀ c c' p, (s.cpu c).proc = some p → (s.cpu c').proc = some p → c = c'

theorem thread_proc (h : (s.cpu c).proc = some p) : s.thread c = .proc p := by
  unfold State.thread
  rw [h]

theorem thread_scheduler (h : (s.cpu c).proc = none) : s.thread c = .scheduler c := by
  unfold State.thread
  rw [h]

theorem thread_eq_proc (h : s.thread c = .proc p) : (s.cpu c).proc = some p := by
  unfold State.thread at h
  split at h
  · rename_i q hq
    cases h
    exact hq
  · cases h

theorem Ok.thread_inj (h : Ok s) {c' : C} (heq : s.thread c = s.thread c') : c = c' := by
  cases hc : (s.cpu c).proc with
  | none =>
      rw [thread_scheduler hc] at heq
      cases hc' : (s.cpu c').proc with
      | none =>
          rw [thread_scheduler hc'] at heq
          exact Thread.scheduler.inj heq
      | some q =>
          rw [thread_proc hc'] at heq
          cases heq
  | some p =>
      rw [thread_proc hc] at heq
      exact h.once c c' p hc (thread_eq_proc heq.symm)

theorem init_ok (intr : C → Bool) : Ok (init intr : State C P) where
  noff _ := rfl
  off _ h := absurd h (Nat.lt_irrefl 0)
  intena _ _ h := by cases h
  out _ _ := ⟨rfl, fun h => by cases h⟩
  new _ _ h := by cases h
  scheduler _ _ h := by cases h
  once _ _ _ h := by cases h

/-! ## The functions -/

@[simp] theorem pushOff_proc : (pushOff k).proc = k.proc := by
  unfold pushOff
  simp only
  split <;> rfl

@[simp] theorem pushOff_noff : (pushOff k).noff = k.noff + 1 := by
  unfold pushOff
  simp only
  split <;> rfl

@[simp] theorem pushOff_intr : (pushOff k).intr = false := by
  unfold pushOff
  simp only
  split <;> rfl

theorem pushOff_intena : (pushOff k).intena = if k.noff = 0 then k.intr else k.intena := by
  unfold pushOff
  simp only
  split <;> rfl

/-- `pop_off` inside a bracket. -/
theorem popOff_ok (hintr : k.intr = false) (hnoff : 0 < k.noff) : ∃ k', popOff k = .ok k' ∧ k'.proc = k.proc ∧ k'.noff = k.noff - 1 ∧
    k'.intena = k.intena ∧ k'.intr = (decide (k.noff = 1) && k.intena) := by
  have hlt : ¬ k.noff < 1 := by omega
  unfold popOff
  rw [if_neg (by rw [hintr]; decide), if_neg hlt]
  by_cases hone : k.noff = 1
  · cases hi : k.intena with
    | false => exact ⟨_, rfl, by simp [hintr]⟩
    | true => exact ⟨_, rfl, by simp [hone]⟩
  · have hne : ¬ k.noff - 1 = 0 := by omega
    exact ⟨_, rfl, by simp [hne, hone, hintr]⟩

variable [DecidableEq C] [DecidableEq P]

/-! ## A step of the thread on a CPU -/

theorem act_proc (hk : k.proc = (s.cpu c).proc) {d : Nat} {b : Bool} (c' : C) :
    ((s.act c k d b).cpu c').proc = (s.cpu c').proc := by
  show (update s.cpu c k c').proc = _
  by_cases h : c' = c
  · rw [h, update_self, hk]
  · rw [update_of_ne h]

theorem act_thread (hk : k.proc = (s.cpu c).proc) {d : Nat} {b : Bool} (c' : C) :
    (s.act c k d b).thread c' = s.thread c' := by
  unfold State.thread
  rw [act_proc hk]

/-- The thread on `c` changes the fields of the CPU, as long as they stay its own. -/
theorem Ok.act (h : Ok s) {d : Nat} {b : Bool} (hk : k.proc = (s.cpu c).proc) (hnoff : k.noff = d)
    (hoff : 0 < d → k.intr = false) (hintena : ∀ p, (s.cpu c).proc = some p → s.stage p = .past → 0 < d → k.intena = b) :
    Ok (s.act c k d b) where
  noff c' := by
    rw [act_thread hk]
    show (update s.cpu c k c').noff = (update s.depth (s.thread c) d (s.thread c') : Nat)
    by_cases hc : c' = c
    · rw [hc, update_self, update_self, hnoff]
    · rw [update_of_ne hc, update_of_ne fun e => hc (h.thread_inj e), h.noff]
  off c' := by
    rw [act_thread hk]
    show 0 < update s.depth (s.thread c) d (s.thread c') → (update s.cpu c k c').intr = false
    by_cases hc : c' = c
    · rw [hc, update_self, update_self]
      exact hoff
    · rw [update_of_ne hc, update_of_ne fun e => hc (h.thread_inj e)]
      exact h.off c'
  intena c' p hp hpast hd := by
    rw [act_proc hk] at hp
    have hth := thread_proc hp
    change 0 < update s.depth (s.thread c) d (.proc p) at hd
    show (update s.cpu c k c').intena = update s.start (s.thread c) b (.proc p)
    rw [← hth] at hd ⊢
    by_cases hc : c' = c
    · subst hc
      rw [update_self] at hd ⊢
      rw [update_self]
      exact hintena p hp hpast hd
    · have hne : s.thread c' ≠ s.thread c := fun e => hc (h.thread_inj e)
      rw [update_of_ne hne] at hd ⊢
      rw [update_of_ne hc, hth]
      exact h.intena c' p hp hpast (hth ▸ hd)
  out p hp := by
    have hp' : ∀ c, (s.cpu c).proc ≠ some p := fun c' => by
      have := hp c'
      rwa [act_proc hk] at this
    have hne : Thread.proc p ≠ s.thread c := fun e => hp' c (thread_eq_proc e.symm)
    show update s.depth (s.thread c) d (.proc p) = 1 ∧ (_ → s.intena p = update s.start (s.thread c) b (.proc p))
    rw [update_of_ne hne, update_of_ne hne]
    exact h.out p hp'
  new c' p hp := by
    rw [act_proc hk] at hp
    exact h.new c' p hp
  scheduler c' p hp := by
    rw [act_proc hk] at hp
    have hne : Thread.scheduler c' ≠ s.thread c := fun e => by
      cases hc : (s.cpu c).proc with
      | none =>
          rw [thread_scheduler hc] at e
          cases e
          rw [hc] at hp
          cases hp
      | some q =>
          rw [thread_proc hc] at e
          cases e
    show update s.depth (s.thread c) d (.scheduler c') = 1
    rw [update_of_ne hne]
    exact h.scheduler c' p hp
  once c₁ c₂ p h₁ h₂ := by
    rw [act_proc hk] at h₁ h₂
    exact h.once c₁ c₂ p h₁ h₂

omit [DecidableEq C] in
theorem leave_cpu (s : State C P) (c : C) : (s.leave c).cpu = s.cpu := by
  unfold State.leave
  split
  · split <;> rfl
  · rfl

omit [DecidableEq C] in
theorem Ok.leave (h : Ok s) (c : C) : Ok (s.leave c) := by
  unfold State.leave
  split
  · rename_i p hp
    split
    · rename_i hd
      have hstage : ∀ q, update s.stage p .past q = .past → q = p ∨ s.stage q = .past := fun q hq => by
        by_cases e : q = p
        · exact .inl e
        · rw [update_of_ne e] at hq
          exact .inr hq
      exact {
        noff := h.noff
        off := h.off
        intena := fun c' q hq hpast hpos => by
          rcases hstage q hpast with rfl | hpast
          · exact absurd hpos (by rw [show _ = 0 from hd]; decide)
          · exact h.intena c' q hq hpast hpos
        out := fun q hq => by
          refine ⟨(h.out q hq).1, fun hpast => ?_⟩
          rcases hstage q hpast with rfl | hpast
          · exact absurd hp (hq c)
          · exact (h.out q hq).2 hpast
        new := fun c' q hq => by
          show update s.stage p .past q ≠ .new
          by_cases e : q = p
          · rw [e, update_self]
            decide
          · rw [update_of_ne e]
            exact h.new c' q hq
        scheduler := h.scheduler
        once := h.once }
    · exact h
  · exact h

theorem pushOff_step_ok (h : Ok s) (c : C) :
    Ok (s.act c (pushOff (s.cpu c)) (s.depth (s.thread c) + 1)
      (if s.depth (s.thread c) = 0 then (s.cpu c).intr else s.start (s.thread c))) := by
  refine h.act pushOff_proc ?_ (fun _ => pushOff_intr) fun p hp hpast _ => ?_
  · rw [pushOff_noff, h.noff]
    rfl
  · rw [pushOff_intena, h.noff, thread_proc hp]
    by_cases hd : s.depth (.proc p) = 0
    · rw [if_pos (by rw [hd]; rfl), if_pos hd]
    · rw [if_neg (by exact_mod_cast hd), if_neg hd]
      exact h.intena c p hp hpast (Nat.pos_of_ne_zero hd)

/-- `pop_off` in a bracket returns; after the outermost one interrupts are as the CPU remembers. -/
theorem Ok.popOff (h : Ok s) (hd : 0 < s.depth (s.thread c)) : ∃ k, popOff (s.cpu c) = .ok k ∧
    Ok (s.act c k (s.depth (s.thread c) - 1) (s.start (s.thread c))) ∧
    (s.depth (s.thread c) = 1 → k.intr = (s.cpu c).intena) := by
  have hnoff := h.noff c
  obtain ⟨k, hk, hproc, hn, hena, hintr⟩ := popOff_ok (h.off c hd) (by omega : 0 < (s.cpu c).noff)
  refine ⟨k, hk, h.act hproc (by omega) (fun hpos => ?_) fun p hp hpast _ => ?_, fun hone => ?_⟩
  · rw [hintr, decide_eq_false (by omega), Bool.false_and]
  · rw [hena, thread_proc hp]
    exact h.intena c p hp hpast (by rw [← thread_proc hp]; exact hd)
  · rw [hintr, decide_eq_true (by omega), Bool.true_and]

theorem setIntr_ok (h : Ok s) (hd : s.depth (s.thread c) = 0) (on : Bool) :
    Ok (s.act c { s.cpu c with intr := on } (s.depth (s.thread c)) (s.start (s.thread c))) :=
  h.act rfl (h.noff c) (fun hpos => absurd hpos (by omega)) fun p hp hpast hpos => by
    rw [thread_proc hp] at hpos ⊢
    exact h.intena c p hp hpast hpos

/-! ## Switches -/

omit [DecidableEq C] [DecidableEq P] in
theorem Ok.sched (h : Ok s) (hd : s.depth (s.thread c) = 1) : sched (s.cpu c) = .ok (s.cpu c).intena := by
  unfold Intr.sched
  rw [if_neg (by rw [h.noff, hd]; decide), if_neg (by rw [h.off c (by omega)]; decide)]

omit [DecidableEq P] in
/-- Another thread, also at depth 1, gets the CPU. -/
theorem Ok.switch (h : Ok s) (hcpu : t.cpu = update s.cpu c k) (hdepth : t.depth = s.depth)
    (hstart : t.start = s.start) (hnoff : k.noff = 1) (hoff : k.intr = false) (hthread : s.depth (t.thread c) = 1)
    (hstage : ∀ q, t.stage q = .past ↔ s.stage q = .past)
    (hrun : ∀ p, k.proc = some p → t.stage p ≠ .new ∧ (t.stage p = .past → k.intena = s.start (.proc p)) ∧
      s.depth (.scheduler c) = 1 ∧ ∀ c', (s.cpu c').proc ≠ some p)
    (hnew : ∀ c' p, (s.cpu c').proc = some p → t.stage p ≠ .new)
    (hout : ∀ p, (∀ c', (t.cpu c').proc ≠ some p) → s.depth (.proc p) = 1 ∧ (s.stage p = .past → t.intena p = s.start (.proc p))) :
    Ok t := by
  have hself : t.cpu c = k := by rw [hcpu, update_self]
  have hother : ∀ c', c' ≠ c → t.cpu c' = s.cpu c' := fun c' hc => by rw [hcpu, update_of_ne hc]
  have hsame : ∀ c', c' ≠ c → t.thread c' = s.thread c' := fun c' hc => by
    unfold State.thread
    rw [hother c' hc]
  refine ⟨fun c' => ?_, fun c' hpos => ?_, fun c' p hp hpast hpos => ?_, fun p hp => ?_, fun c' p hp => ?_, fun c' p hp => ?_,
    fun c₁ c₂ p h₁ h₂ => ?_⟩
  · by_cases hc : c' = c
    · rw [hc, hself, hnoff, hdepth, hthread]
      rfl
    · rw [hother c' hc, hsame c' hc, hdepth]
      exact h.noff c'
  · by_cases hc : c' = c
    · rw [hc, hself]
      exact hoff
    · rw [hsame c' hc, hdepth] at hpos
      rw [hother c' hc]
      exact h.off c' hpos
  · by_cases hc : c' = c
    · rw [hc, hself] at hp ⊢
      rw [hstart]
      exact (hrun p hp).2.1 hpast
    · rw [hother c' hc] at hp ⊢
      rw [hdepth] at hpos
      rw [hstart]
      exact h.intena c' p hp ((hstage p).1 hpast) hpos
  · rw [hdepth, hstart, hstage]
    exact hout p hp
  · by_cases hc : c' = c
    · rw [hc, hself] at hp
      exact (hrun p hp).1
    · rw [hother c' hc] at hp
      exact hnew c' p hp
  · rw [hdepth]
    by_cases hc : c' = c
    · rw [hc, hself] at hp
      rw [hc]
      exact (hrun p hp).2.2.1
    · rw [hother c' hc] at hp
      exact h.scheduler c' p hp
  · by_cases hc₁ : c₁ = c
    · by_cases hc₂ : c₂ = c
      · rw [hc₁, hc₂]
      · rw [hc₁, hself] at h₁
        rw [hother c₂ hc₂] at h₂
        exact absurd h₂ ((hrun p h₁).2.2.2 c₂)
    · rw [hother c₁ hc₁] at h₁
      by_cases hc₂ : c₂ = c
      · rw [hc₂, hself] at h₂
        exact absurd h₁ ((hrun p h₂).2.2.2 c₁)
      · rw [hother c₂ hc₂] at h₂
        exact h.once c₁ c₂ p h₁ h₂

/-- The process on `c` gives the CPU back to the scheduler. -/
theorem sched_ok (h : Ok s) (hp : (s.cpu c).proc = some p) (hd : s.depth (s.thread c) = 1) :
    Ok { s with
      cpu := update s.cpu c { s.cpu c with proc := none }
      intena := update s.intena p (s.cpu c).intena } := by
  have hdp : s.depth (.proc p) = 1 := by
    rw [← thread_proc hp]
    exact hd
  refine h.switch rfl rfl rfl (by rw [h.noff, hd]; rfl) (h.off c (by omega)) ?_ (fun _ => Iff.rfl) (fun _ e => by cases e)
    h.new fun q hq => ?_
  · rw [thread_scheduler (by simp)]
    exact h.scheduler c p hp
  · by_cases e : q = p
    · rw [e]
      refine ⟨hdp, fun hpast => ?_⟩
      show update s.intena p (s.cpu c).intena p = _
      rw [update_self]
      exact h.intena c p hp hpast (by omega)
    · have hq' : ∀ c', (s.cpu c').proc ≠ some q := fun c' hc' => by
        by_cases hc : c' = c
        · rw [hc, hp] at hc'
          exact e (Option.some.inj hc').symm
        · refine hq c' ?_
          show (update s.cpu c _ c').proc = _
          rw [update_of_ne hc]
          exact hc'
      show _ ∧ (_ → update s.intena p (s.cpu c).intena q = _)
      rw [update_of_ne e]
      exact h.out q hq'

/-- The scheduler on `c` gives the CPU to a process. -/
theorem swtch_ok (h : Ok s) (hnone : (s.cpu c).proc = none) (hd : s.depth (.scheduler c) = 1)
    (hp : ∀ c', (s.cpu c').proc ≠ some p) : Ok (s.swtch c p) := by
  have hnoff : (s.cpu c).noff = 1 := by
    rw [h.noff, thread_scheduler hnone, hd]
    rfl
  have hoff : (s.cpu c).intr = false := h.off c (by rw [thread_scheduler hnone]; omega)
  obtain ⟨hdp, hsaved⟩ := h.out p hp
  have hout : ∀ {k : Cpu P} q, (∀ c', (update s.cpu c k c').proc ≠ some q) → ∀ c', (s.cpu c').proc ≠ some q := fun q hq c' hc' => by
    by_cases hc : c' = c
    · rw [hc, hnone] at hc'
      cases hc'
    · refine hq c' ?_
      rw [update_of_ne hc]
      exact hc'
  unfold State.swtch
  split
  · rename_i hstage
    refine h.switch rfl rfl rfl hnoff hoff ?_ (fun q => ?_) (fun q e => ?_) (fun c' q hq => ?_) fun q hq => h.out q (hout q hq)
    · rw [thread_proc (p := p) (by simp)]
      exact hdp
    · show update s.stage p .forkret q = _ ↔ _
      by_cases e : q = p
      · rw [e, update_self, hstage]
        decide
      · rw [update_of_ne e]
    · cases e
      refine ⟨?_, fun e => ?_, hd, hp⟩
      · show update s.stage p .forkret p ≠ _
        rw [update_self]
        decide
      · change update s.stage p .forkret p = _ at e
        rw [update_self] at e
        cases e
    · have e : q ≠ p := fun e => hp c' (e ▸ hq)
      show update s.stage p .forkret q ≠ _
      rw [update_of_ne e]
      exact h.new c' q hq
  · rename_i hstage
    refine h.switch rfl rfl rfl hnoff hoff ?_ (fun _ => Iff.rfl) (fun q e => ?_) h.new fun q hq => h.out q (hout q hq)
    · rw [thread_proc (p := p) (by simp)]
      exact hdp
    · cases e
      exact ⟨hstage, hsaved, hd, hp⟩

/-! ## Runs -/

theorem step_ok {l : Label C P} (h : Ok s) (hl : Bracketed s l) (hs : step s l = some (.ok t)) : Ok t := by
  cases l with
  | pushOff c =>
      cases hs
      exact pushOff_step_ok h c
  | popOff c =>
      obtain ⟨k, hk, hok, -⟩ := h.popOff hl
      simp only [step, hk] at hs
      cases hs
      exact hok.leave c
  | setIntr c on =>
      cases hs
      exact setIntr_ok h hl on
  | sched c =>
      cases hp : (s.cpu c).proc with
      | none =>
          simp only [step, hp] at hs
          cases hs
      | some p =>
          simp only [step, hp, h.sched hl] at hs
          cases hs
          exact sched_ok h hp hl
  | swtch c p =>
      cases hp : (s.cpu c).proc with
      | some q =>
          simp only [step, hp] at hs
          cases hs
      | none =>
          simp only [step, hp] at hs
          cases hs
          exact swtch_ok h hp hl.1 hl.2

theorem reach_ok {intr : C → Bool} (h : Reach step Bracketed (init intr) s) : Ok s :=
  h.inv (init_ok intr) fun _ _ _ hok hl hs => step_ok hok hl hs

/-- No well bracketed call panics. -/
theorem step_no_panic {l : Label C P} (h : Ok s) (hl : Bracketed s l) (e : Panic) : step s l ≠ some (.error e) := by
  intro hs
  cases l with
  | pushOff c => cases hs
  | popOff c =>
      obtain ⟨k, hk, -⟩ := h.popOff hl
      simp only [step, hk] at hs
      cases hs
  | setIntr c on => cases hs
  | sched c =>
      cases hp : (s.cpu c).proc with
      | none =>
          simp only [step, hp] at hs
          cases hs
      | some p =>
          simp only [step, hp, h.sched hl] at hs
          cases hs
  | swtch c p =>
      cases hp : (s.cpu c).proc with
      | some q =>
          simp only [step, hp] at hs
          cases hs
      | none =>
          simp only [step, hp] at hs
          cases hs

/-- In every run of well bracketed calls, with switches at depth 1 only: interrupts are off on a CPU whose counter is not
0, no call panics, and after the outermost `pop_off` of a process, its first one in `forkret` apart, interrupts are as they
were when it called the outermost `push_off`. -/
theorem interrupts_restored (intr : C → Bool) (h : Reach step Bracketed (init intr) s) :
    (∀ c, 0 < (s.cpu c).noff → (s.cpu c).intr = false) ∧
    (∀ l e, Bracketed s l → step s l ≠ some (.error e)) ∧
    ∀ c, 0 < s.depth (s.thread c) → ∃ t, step s (.popOff c) = some (.ok t) ∧
      ∀ p, s.thread c = .proc p → s.depth (.proc p) = 1 → s.stage p = .past → (t.cpu c).intr = s.start (.proc p) := by
  have hok := reach_ok h
  refine ⟨fun c hpos => hok.off c ?_, fun l e hl => step_no_panic hok hl e, fun c hd => ?_⟩
  · rw [hok.noff] at hpos
    exact_mod_cast hpos
  · obtain ⟨k, hk, -, hintr⟩ := hok.popOff hd
    refine ⟨(s.act c k (s.depth (s.thread c) - 1) (s.start (s.thread c))).leave c, by simp only [step, hk], fun p hp hone hpast => ?_⟩
    rw [leave_cpu]
    show (update s.cpu c k c).intr = _
    rw [update_self, hintr (by rw [hp]; exact hone)]
    exact hok.intena c p (thread_eq_proc hp) hpast (by omega)

/-- A process that opened its bracket with interrupts on waits while one that has them off runs, and goes on on the other
CPU. -/
def migration : List (Label (Fin 2) (Fin 2)) :=
  [.pushOff 0, .swtch 0 0, .popOff 0, .setIntr 0 true, .pushOff 0, .sched 0, .popOff 0,
    .pushOff 1, .swtch 1 1, .popOff 1, .pushOff 1, .sched 1, .popOff 1, .pushOff 1, .swtch 1 0]

/-- The process has its interrupts on again, on a CPU where they were off. -/
theorem interrupts_restored_migration : ∃ s : State (Fin 2) (Fin 2), Reach step Bracketed (init fun _ => false) s ∧
    s.thread 1 = .proc 0 ∧ (s.cpu 1).intr = false ∧ ∃ t, step s (.popOff 1) = some (.ok t) ∧ (t.cpu 1).intr = true := by
  have hrun : (runIf step Bracketed migration (init fun _ => false)).any (fun s => decide (s.thread 1 = .proc 0 ∧
      (s.cpu 1).intr = false ∧ s.depth (.proc 0) = 1 ∧ s.stage 0 = .past ∧ s.start (.proc 0) = true)) = true := by decide
  obtain ⟨s, hs, hcheck⟩ := exists_of_runIf hrun
  obtain ⟨hthread, hoff, hdepth, hpast, hstart⟩ := of_decide_eq_true hcheck
  obtain ⟨t, ht, hintr⟩ := (interrupts_restored (fun _ => false) hs).2.2 1 (by rw [hthread, hdepth]; decide)
  exact ⟨s, hs, hthread, hoff, t, ht, by rw [hintr 0 hthread hdepth hpast, hstart]⟩

end Xv6.Intr
