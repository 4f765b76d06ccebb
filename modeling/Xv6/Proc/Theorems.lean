import Xv6.Proc.Lemmas.Runs

/-!
# The guarantees of the process table
-/

namespace Xv6.Proc

open Lib

variable {s t u : Sys} {p c : Fin nproc} {a : Act} {r : Option (BitVec 32)} {env : Env} {root : Nat}

/-! ## Fork, exit and wait -/

/-- The step is a section of `kwait` by the parent of `c` that returns the pid of `c`, takes its
status and frees its slot, and no other slot. -/
structure Takes (s : Sys) (a : Act) (r : Option (BitVec 32)) (t : Sys) (c : Fin nproc) : Prop where
  call : ∃ p env addr, a = .go p env ∧ s.pc p = .wait addr ∧ (s.slot c).parent = some p ∧ (addr → env.copyout)
  zombie : (s.slot c).state = .zombie
  ret : r = some (s.slot c).pid
  reaps : t.reaps = s.reaps ++ [((s.slot c).pid, (s.slot c).xstate)]
  freed : (t.slot c).state = .unused
  others : ∀ i, i ≠ c → t.slot i = s.slot i

/-- No child is lost or returned twice. -/
structure ChildrenKept (s : Sys) : Prop where
  pid_ne_zero : ∀ i, (s.slot i).state ≠ .unused → (s.slot i).pid ≠ 0
  pid_inj : ∀ i j, (s.slot i).state ≠ .unused → (s.slot j).state ≠ .unused → (s.slot i).pid = (s.slot j).pid → i = j
  /-- A child that has been linked to the process of pid `o` has that process as its parent, or
  `init` if that process has exited; the parent is alive. -/
  parent : ∀ i o, s.origin i = some o → ∃ q, (s.slot i).parent = some q ∧
    (s.slot q).state ≠ .unused ∧ (s.slot q).state ≠ .zombie ∧
    ((s.slot q).pid = o ∨ q = s.initproc ∧ o ∈ s.exits.map Prod.fst)
  exits_nodup : (s.exits.map Prod.fst).Nodup
  reaps_nodup : (s.reaps.map Prod.fst).Nodup
  reaps_sub : s.reaps ⊆ s.exits
  zombie : ∀ i, (s.slot i).state = .zombie → ((s.slot i).pid, (s.slot i).xstate) ∈ s.exits
  /-- Whoever has exited has been returned by one `kwait`, or waits for it as a zombie. -/
  kept : ∀ e ∈ s.exits, (e ∈ s.reaps ∧ ∀ i, (s.slot i).state = .zombie → (s.slot i).pid ≠ e.1) ∨
    (e.1 ∉ s.reaps.map Prod.fst ∧ ∃ i, (s.slot i).state = .zombie ∧ (s.slot i).pid = e.1 ∧ (s.slot i).xstate = e.2)
  /-- A zombie stays until its parent takes it. -/
  stays : ∀ a r t c, exec s a = some (.ok (r, t)) → (s.slot c).state = .zombie →
    ((t.slot c).state = .zombie ∧ (t.slot c).pid = (s.slot c).pid ∧ (t.slot c).xstate = (s.slot c).xstate) ∨
      Takes s a r t c
  taken : ∀ a r t, exec s a = some (.ok (r, t)) → t.reaps = s.reaps ∨ ∃ c, Takes s a r t c
  /-- A `kwait` that returns without a child returns -1 and changes no slot: `copyout` has failed for
  an exited child, the caller has been killed, or no slot names it as parent. -/
  failed : ∀ p addr env v t, s.pc p = .wait addr → exec s (.go p env) = some (.ok (some v, t)) →
    t.reaps = s.reaps → v = -1 ∧ t.slot = s.slot ∧
      (addr = true ∧ env.copyout = false ∧ (∃ c, (s.slot c).parent = some p ∧ (s.slot c).state = .zombie) ∨
        (s.slot p).killed = true ∨ ∀ c, (s.slot c).parent ≠ some p)
  /-- Nobody sleeps in `kwait` while it has an exited child. -/
  wakeup : ∀ p, (s.slot p).state = .sleeping → (s.slot p).chan = some (.proc p) →
    ∀ c, (s.slot c).parent = some p → (s.slot c).state ≠ .zombie

theorem takes_of_reap {addr : Bool} (hrun : (s.slot p).state = .running) (hz : (s.slot c).state = .zombie)
    (hpar : (s.slot c).parent = some p) (hpc : s.pc p = .wait addr) (hc : exitedChild s.slot p = some c)
    (hout : ¬ (addr ∧ !env.copyout)) (hs : exec s (.go p env) = some (.ok (r, t))) : Takes s (.go p env) r t c := by
  simp only [exec, hrun, if_true, proceed, hpc, hc, if_neg hout, Option.map_some, Option.some.injEq,
    Except.ok.injEq, Prod.mk.injEq] at hs
  obtain ⟨rfl, rfl⟩ := hs
  refine ⟨⟨p, env, addr, rfl, hpc, hpar, fun ha => ?_⟩, hz, rfl, rfl, ?_, fun i hi => setSlot_ne _ hi⟩
  · cases ho : env.copyout with
    | false => exact absurd ⟨ha, by rw [ho]; rfl⟩ hout
    | true => rfl
  · show ((s.setSlot c _).slot c).state = _
    rw [setSlot_self]
    rfl

theorem reaps_of_exec (hwf : Wf s) (hs : exec s a = some (.ok (r, t))) : t.reaps = s.reaps ∨ ∃ c, Takes s a r t c := by
  cases effect_of_exec hwf hs with
  | reap p c env addr hrun hz hpar ha hpc hc hout =>
      subst ha
      exact Or.inr ⟨c, takes_of_reap hrun hz hpar hpc hc hout hs⟩
  | mild | failed | alloc | link | start | exit => exact Or.inl rfl

theorem zombie_of_exec (hwf : Wf s) (hs : exec s a = some (.ok (r, t))) (hz : (s.slot c).state = .zombie) :
    ((t.slot c).state = .zombie ∧ (t.slot c).pid = (s.slot c).pid ∧ (t.slot c).xstate = (s.slot c).xstate) ∨
      Takes s a r t c := by
  have hne : ∀ {np : Fin nproc} {x : Slot}, (s.slot np).state ≠ .zombie → (s.setSlot np x).slot c = s.slot c := by
    intro np x hnp
    refine setSlot_ne x ?_
    rintro rfl
    exact hnp hz
  have hsame : ∀ {y : Slot}, y = s.slot c →
      y.state = .zombie ∧ y.pid = (s.slot c).pid ∧ y.xstate = (s.slot c).xstate := by
    rintro _ rfl
    exact ⟨hz, rfl, rfl⟩
  cases effect_of_exec hwf hs with
  | mild i p x pc hm _ =>
      obtain ⟨h₁, h₂, _, h₄⟩ := hm.same c
      rw [hz] at h₁
      exact Or.inl ⟨life_zombie h₁, h₂, h₄⟩
  | failed p np hu hrun => exact Or.inl (hsame (hne (by rw [hu]; decide)))
  | alloc p np x hu hrun _ _ _ _ _ => exact Or.inl (hsame (hne (x := x) (by rw [hu]; decide)))
  | link p np pid hpc hrun =>
      have hok := hwf.pc p
      rw [hpc] at hok
      exact Or.inl (hsame (hne (by rw [hok.1]; decide)))
  | start p np pid hpc hrun =>
      have hok := hwf.pc p
      rw [hpc] at hok
      exact Or.inl (hsame (hne (by rw [hok.1]; decide)))
  | exit p status hpc hrun =>
      have hok := hwf.pc p
      rw [hpc] at hok
      have hcp : c ≠ p := by
        rintro rfl
        rw [hrun] at hz
        cases hz
      refine Or.inl ?_
      simp only [exitSection_apply hok.1, if_neg hcp, hz]
      exact ⟨if_neg (fun h => by cases h.1), trivial, trivial⟩
  | reap p c' env addr hrun hz' hpar ha hpc hc hout =>
      subst ha
      obtain rfl | hcc := eq_or_ne c c'
      · exact Or.inr (takes_of_reap hrun hz' hpar hpc hc hout hs)
      · exact Or.inl (hsame (setSlot_ne _ hcc))

theorem kwait_failed {addr : Bool} {v : BitVec 32} (hpc : s.pc p = .wait addr)
    (hs : exec s (.go p env) = some (.ok (some v, t))) (hreaps : t.reaps = s.reaps) :
    v = -1 ∧ t.slot = s.slot ∧
      (addr = true ∧ env.copyout = false ∧ (∃ c, (s.slot c).parent = some p ∧ (s.slot c).state = .zombie) ∨
        (s.slot p).killed = true ∨ ∀ c, (s.slot c).parent ≠ some p) := by
  simp only [exec, Option.ite_none_right_eq_some, Option.map_eq_some_iff] at hs
  obtain ⟨_, rt, hs, heq⟩ := hs
  cases heq
  unfold proceed at hs
  rw [hpc] at hs
  dsimp only at hs
  split at hs
  · rename_i c hc
    split at hs
    · rename_i hout
      cases hs
      exact ⟨rfl, rfl, Or.inl ⟨hout.1, by simpa using hout.2, c, exitedChild_some hc⟩⟩
    · cases hs
      simp at hreaps
  · split at hs
    · rename_i hfail
      cases hs
      refine ⟨rfl, rfl, Or.inr ?_⟩
      rw [Bool.or_eq_true] at hfail
      rcases hfail with hkids | hkilled
      · refine Or.inr fun c hc => ?_
        simp only [havekids, Bool.not_eq_true', List.any_eq_false, decide_eq_true_eq] at hkids
        exact hkids c (List.mem_finRange c) hc
      · exact Or.inl hkilled
    · cases hs

/-- In every run with fewer than 2³¹ - 1 forks no child is lost or returned twice. -/
theorem children_kept (h : Reach step (fun _ _ => True) (userinit env root) s) (hforks : s.forks < 2 ^ 31 - 1) :
    ChildrenKept s := by
  have hinv := inv_of_reach h
  have hok := hinv.family hforks
  have huse : ∀ i, (s.slot i).state ≠ .unused → (s.view.member i).life ≠ .free :=
    fun i hi hf => hi (life_free hf)
  have hview : ∀ i, (s.slot i).state = .zombie → (s.view.member i).life = .zombie := fun i hi => by
    simp only [Sys.view, hi]
    rfl
  constructor
  case pid_ne_zero =>
    intro i hi heq
    refine (hok.pids.pid i (huse i hi)).1 ?_
    show (s.slot i).pid.toNat = 0
    rw [heq]
    rfl
  case pid_inj => exact fun i j hi hj heq => hok.pids.inj i j (huse i hi) (huse j hj) heq
  case parent =>
    intro i o ho
    obtain ⟨q, hq⟩ := Option.ne_none_iff_exists'.1 (hok.parents.origin i o ho)
    obtain ⟨halive, o', ho', hor⟩ := hok.parents.parent i q hq
    obtain rfl : o = o' := Option.some.inj (ho.symm.trans ho')
    have hlife : (s.slot q).state.life = .alive := halive
    refine ⟨q, hq, fun hu => ?_, fun hu => ?_, hor⟩
    · rw [hu] at hlife
      cases hlife
    · rw [hu] at hlife
      cases hlife
  case exits_nodup => exact hok.history.exits_nodup
  case reaps_nodup => exact hok.history.reaps_nodup
  case reaps_sub => exact hok.history.reaps_sub
  case zombie => exact fun i hi => (hok.history.zombie i (hview i hi)).1
  case kept =>
    intro e he
    by_cases hmem : e.1 ∈ s.reaps.map Prod.fst
    · refine Or.inl ⟨?_, fun i hi heq => (hok.history.zombie i (hview i hi)).2 ?_⟩
      · obtain ⟨e', he', heq⟩ := List.mem_map.1 hmem
        obtain rfl : e' = e := List.inj_on_of_nodup_map hok.history.exits_nodup (hok.history.reaps_sub he') he heq
        exact he'
      · show (s.slot i).pid ∈ _
        rw [heq]
        exact hmem
    · refine Or.inr ⟨hmem, ?_⟩
      rcases hok.history.kept e he with hr | ⟨i, hi, rfl⟩
      · exact absurd (List.mem_map.2 ⟨e, hr, rfl⟩) hmem
      · exact ⟨i, life_zombie hi, rfl, rfl⟩
  case stays => exact fun a r t c hs hz => zombie_of_exec hinv.wf hs hz
  case taken => exact fun a r t hs => reaps_of_exec hinv.wf hs
  case failed => exact fun p addr env v t hpc hs hreaps => kwait_failed hpc hs hreaps
  case wakeup => exact fun p hs hc => (hinv.wakeup p p hs hc).2

/-- Every allocation and copy succeeds. -/
def goodEnv : Env := ⟨1, 1, true, true⟩

/-- The first process, in slot 0, forks a child into slot 1 and waits for it. -/
def forkAndWait : List Act :=
  [.schedule 0, .kfork 0, .go 0 goodEnv, .go 0 goodEnv, .go 0 goodEnv, .go 0 goodEnv, .kwait 0 true, .go 0 goodEnv]

theorem children_kept_forkAndWait :
    ∃ s, run step forkAndWait (userinit goodEnv 1) = some (.ok s) ∧ (s.slot 0).state = .sleeping ∧
      s.origin 1 = some 1 ∧ ChildrenKept s := by
  have hok : RunOk step (fun _ _ => True) forkAndWait (userinit goodEnv 1) := by simp [forkAndWait, RunOk]
  exact ⟨_, rfl, rfl, rfl, children_kept (reach_of_run hok rfl) (by decide)⟩

/-! ## Every process starts clean -/

theorem forked_killed {k : Nat} {np : Fin nproc} {pid : BitVec 32} (hpc : s.pc p = .alloc k)
    (hs : exec s (.go p env) = some (.ok (r, t))) (hlink : t.pc p = .link np pid) :
    (s.slot np).state = .unused ∧ (t.slot np).killed = (s.slot np).killed := by
  simp only [exec, Option.ite_none_right_eq_some, Option.map_eq_some_iff] at hs
  obtain ⟨_, rt, hs, heq⟩ := hs
  cases heq
  unfold proceed at hs
  rw [hpc] at hs
  dsimp only at hs
  split at hs
  · split at hs
    · rename_i hu
      split at hs
      · cases hs
        rw [setPc_self] at hlink
        cases hlink
      · rename_i x hx
        cases hs
        rw [setPc_self] at hlink
        cases hlink
        simp only [setPc_slot, setSlot_self]
        exact ⟨hu, (fork_ok hx).2.2.2.1⟩
    · cases hs
      rw [setPc_self] at hlink
      cases hlink
  · cases hs
    rw [setPc_self] at hlink
    cases hlink

theorem kkill_found {k : Nat} {pid : BitVec 32} (hpc : s.pc p = .kill pid k)
    (hs : exec s (.go p env) = some (.ok (some 0, t))) : ∃ i, (s.slot i).pid = pid := by
  simp only [exec, Option.ite_none_right_eq_some, Option.map_eq_some_iff] at hs
  obtain ⟨_, rt, hs, heq⟩ := hs
  cases heq
  unfold proceed at hs
  rw [hpc] at hs
  dsimp only at hs
  split at hs
  · split at hs
    · rename_i hq
      exact ⟨_, hq⟩
    · cases hs
  · cases hs

/-- In every run in which `kkill` is never called with pid 0: an unused slot is clean, the process
that a `kfork` makes is not marked killed, and `kkill(pid)` returns 0 only if a process that is not
unused has the pid. -/
theorem slots_clean (h : Reach step (fun _ a => ∀ p, a ≠ .kkill p 0) (userinit env root) s) :
    (∀ i, (s.slot i).state = .unused → (s.slot i).killed = false ∧ (s.slot i).xstate = 0 ∧
      (s.slot i).chan = none ∧ (s.slot i).pid = 0 ∧ (s.slot i).sz = 0 ∧ (s.slot i).parent = none ∧
      (s.slot i).trapframe = 0 ∧ (s.slot i).pagetable = 0 ∧ ∀ fd, (s.slot i).ofile fd = 0) ∧
    (∀ p env r t k np pid, s.pc p = .alloc k → exec s (.go p env) = some (.ok (r, t)) → t.pc p = .link np pid →
      (t.slot np).killed = false) ∧
    ∀ p env t pid k, s.pc p = .kill pid k → exec s (.go p env) = some (.ok (some 0, t)) →
      ∃ i, (s.slot i).state ≠ .unused ∧ (s.slot i).pid = pid := by
  have hinv := inv_of_reach h
  obtain ⟨hclean, hkills⟩ : Clean s ∧ KillsNonzero s := by
    refine (h.inv (I := fun s => Inv s ∧ Clean s ∧ KillsNonzero s) ?_ ?_).2
    · exact ⟨inv_userinit env root, clean_userinit env root, nofun⟩
    · rintro s a t ⟨hi, hc, hk⟩ ha hs
      obtain ⟨r, he⟩ := exec_of_step hs
      have heff := effect_of_exec hi.wf he
      exact ⟨hi.effect heff, hc.effect hi.wf hk heff, hk.effect ha heff⟩
  refine ⟨fun i hi => ?_, fun p env r t k np pid hpc hs hlink => ?_, fun p env t pid k hpc hs => ?_⟩
  · rw [hclean i hi]
    exact ⟨rfl, rfl, rfl, rfl, rfl, rfl, rfl, rfl, fun _ => rfl⟩
  · obtain ⟨hu, hkilled⟩ := forked_killed hpc hs hlink
    rw [hkilled, hclean np hu]
  · obtain ⟨i, hi⟩ := kkill_found hpc hs
    refine ⟨i, fun hu => hkills p pid k hpc ?_, hi⟩
    rw [← hi, hclean i hu]

theorem slots_clean_killOne :
    ∃ s t, run step [.schedule 0, .kkill 0 1] (userinit goodEnv 1) = some (.ok s) ∧
      exec s (.go 0 goodEnv) = some (.ok (some 0, t)) ∧ ∃ i, (s.slot i).state ≠ .unused ∧ (s.slot i).pid = 1 := by
  have hok : RunOk step (fun _ a => ∀ p, a ≠ .kkill p 0) [.schedule 0, .kkill 0 1] (userinit goodEnv 1) := by
    simp [RunOk]
  exact ⟨_, _, rfl, rfl, (slots_clean (reach_of_run hok rfl)).2.2 0 goodEnv _ 1 0 rfl rfl⟩

/-- A process calls `kkill(0)`. -/
def killZero : List Act := [.schedule 0, .kkill 0 0, .go 0 goodEnv]

/-- `kkill(0)` finds slot 1, which is unused: it returns 0 although no process has pid 0, it marks the
slot killed, and the next `kfork` makes a process that is marked killed. -/
theorem kkill_zero_marks_unused :
    ∃ s t u, Reach step (fun _ _ => True) (userinit goodEnv 1) s ∧ s.pc 0 = .kill 0 1 ∧
      (∀ i, (s.slot i).state ≠ .unused → (s.slot i).pid ≠ 0) ∧
      exec s (.go 0 goodEnv) = some (.ok (some 0, t)) ∧ (t.slot 1).state = .unused ∧ (t.slot 1).killed = true ∧
      run step [.kfork 0, .go 0 goodEnv, .go 0 goodEnv] t = some (.ok u) ∧ u.pc 0 = .link 1 2 ∧
      (u.slot 1).killed = true := by
  have hok : RunOk step (fun _ _ => True) killZero (userinit goodEnv 1) := by simp [killZero, RunOk]
  exact ⟨_, _, _, reach_of_run hok rfl, rfl, by decide, rfl, rfl, rfl, rfl, rfl, rfl⟩

end Xv6.Proc
