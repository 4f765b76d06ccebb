import Xv6.Proc.Family
import Xv6.Proc.Lemmas.Sections

/-!
# What every step keeps

The steps fall into seven kinds (`Effect`). Most of them change nothing that the family of processes
is about; the others are a step of the family each, so the table refines the family.
-/

namespace Xv6.Proc

open Function

variable {s t : Sys} {p q i np : Fin nproc} {a : Act}

/-! ## The invariants -/

def State.life : State → Life
  | .unused => .free
  | .used => .embryo
  | .sleeping | .runnable | .running => .alive
  | .zombie => .zombie

/-- The child that a `kfork` has allocated and not yet started. -/
def Pc.child : Pc → Option (Fin nproc)
  | .link np _ | .start np _ => some np
  | _ => none

/-- What a process may rely on where it is. -/
def Pc.Ok (s : Sys) (p : Fin nproc) : Pc → Prop
  | .link np pid => (s.slot np).state = .used ∧ (s.slot np).parent = none ∧ (s.slot np).pid = pid
  | .start np pid => (s.slot np).state = .used ∧ (s.slot np).parent = some p ∧ (s.slot np).pid = pid
  | .closing _ fd => p ≠ s.initproc ∧ ∀ j : Fin nofile, j.val < fd → (s.slot p).ofile j = 0
  | .exiting _ => p ≠ s.initproc ∧ (∀ j, (s.slot p).ofile j = 0) ∧ (s.slot p).cwd = 0
  | _ => True

structure Wf (s : Sys) : Prop where
  pc : ∀ p, (s.pc p).Ok s p
  busy : ∀ p, s.pc p ≠ .user → (s.slot p).state.life = .alive
  unique : ∀ p q np, (s.pc p).child = some np → (s.pc q).child = some np → p = q
  zombie : ∀ p, (s.slot p).state = .zombie → (∀ j, (s.slot p).ofile j = 0) ∧ (s.slot p).cwd = 0
  unused : ∀ p, (s.slot p).state = .unused →
    (s.slot p).pid = 0 ∧ (s.slot p).parent = none ∧ (s.slot p).xstate = 0 ∧ s.origin p = none
  nextpid : s.nextpid = BitVec.ofNat 32 (s.forks + 2)

/-- Nobody sleeps in `kwait` while a child is a zombie. -/
def NoLostWakeup (s : Sys) : Prop :=
  ∀ p q, (s.slot p).state = .sleeping → (s.slot p).chan = some (.proc q) →
    q = p ∧ ∀ c, (s.slot c).parent = some p → (s.slot c).state ≠ .zombie

/-- The family that the table holds. -/
def Sys.view (s : Sys) : Family (Fin nproc) where
  member i := ⟨(s.slot i).state.life, (s.slot i).pid, (s.slot i).xstate, (s.slot i).parent, s.origin i⟩
  next := s.forks + 2
  exits := s.exits
  reaps := s.reaps

/-! ## The kinds of steps -/

/-- A step that sets slot `i` to `x` and moves `p` to `pc`, and leaves the family alone. -/
structure Mild (s : Sys) (i p : Fin nproc) (x : Slot) (pc : Pc) : Prop where
  life : x.state.life = (s.slot i).state.life
  pid : x.pid = (s.slot i).pid
  parent : x.parent = (s.slot i).parent
  xstate : x.xstate = (s.slot i).xstate
  files : x.ofile = (s.slot i).ofile ∧ x.cwd = (s.slot i).cwd ∨ i = p ∧ (s.slot p).state.life = .alive ∧ pc.Ok ((s.setSlot i x).setPc p pc) p
  moves : pc = s.pc p ∨ pc.child = none ∧ (s.slot p).state.life = .alive ∧ pc.Ok ((s.setSlot i x).setPc p pc) p
  unused : (s.slot i).state = .unused → x = s.slot i ∨
    x = killSlot (s.slot i) ∧ ∃ k, s.pc p = .kill (s.slot i).pid k
  asleep : x.state = .sleeping → ∀ q, x.chan = some (.proc q) →
    (s.slot i).state = .sleeping ∧ (s.slot i).chan = some (.proc q) ∨ q = i ∧ exitedChild s.slot i = none

/-- `kkill` only looks for the pid it was called with. -/
def KillMoves (s : Sys) (a : Act) (p : Fin nproc) (pc : Pc) : Prop :=
  ∀ pid k, pc = .kill pid k → (∃ k', s.pc p = .kill pid k') ∨ a = .kkill p pid

inductive Effect (s : Sys) (a : Act) : Sys → Prop
  | mild (i p : Fin nproc) (x : Slot) (pc : Pc) : Mild s i p x pc → KillMoves s a p pc →
      Effect s a ((s.setSlot i x).setPc p pc)
  | failed (p np : Fin nproc) : (s.slot np).state = .unused → (s.slot p).state = .running →
      Effect s a (({ s with nextpid := s.nextpid + 1, forks := s.forks + 1 }.setSlot np
        { ofile := (s.slot np).ofile, cwd := (s.slot np).cwd }).setPc p .user)
  | alloc (p np : Fin nproc) (x : Slot) : (s.slot np).state = .unused → (s.slot p).state = .running →
      x.state = .used → x.pid = s.nextpid → x.parent = (s.slot np).parent → x.killed = (s.slot np).killed →
      x.xstate = (s.slot np).xstate →
      Effect s a ((({ s with nextpid := s.nextpid + 1, forks := s.forks + 1 }.setSlot np x).setPc np .user).setPc p
        (.link np s.nextpid))
  | link (p np : Fin nproc) (pid : BitVec 32) : s.pc p = .link np pid → (s.slot p).state = .running →
      Effect s a { (s.setSlot np { s.slot np with parent := some p }).setPc p (.start np pid) with
        origin := update s.origin np (some (s.slot p).pid) }
  | start (p np : Fin nproc) (pid : BitVec 32) : s.pc p = .start np pid → (s.slot p).state = .running →
      Effect s a ((s.setSlot np { s.slot np with state := .runnable }).setPc p .user)
  | exit (p : Fin nproc) (status : BitVec 32) : s.pc p = .exiting status → (s.slot p).state = .running →
      Effect s a { s.setPc p .user with
        slot := exitSection s.initproc p status s.slot
        exits := s.exits ++ [((s.slot p).pid, status)] }
  | reap (p c : Fin nproc) (env : Env) (addr : Bool) : (s.slot p).state = .running →
      (s.slot c).state = .zombie → (s.slot c).parent = some p → a = .go p env → s.pc p = .wait addr →
      exitedChild s.slot p = some c → ¬ (addr ∧ !env.copyout) →
      Effect s a { (s.setSlot c (freeproc (s.slot c))).setPc p .user with
        origin := update s.origin c none
        reaps := s.reaps ++ [((s.slot c).pid, (s.slot c).xstate)] }

@[simp] theorem setSlot_self (x : Slot) : (s.setSlot i x).slot i = x := update_self ..

theorem setSlot_ne (x : Slot) (h : q ≠ i) : (s.setSlot i x).slot q = s.slot q := update_of_ne h ..

@[simp] theorem setPc_slot (pc : Pc) : (s.setPc p pc).slot = s.slot := rfl

@[simp] theorem setSlot_pc (x : Slot) : (s.setSlot i x).pc = s.pc := rfl

@[simp] theorem setPc_self (pc : Pc) : (s.setPc p pc).pc p = pc := update_self ..

theorem setPc_ne (pc : Pc) (h : q ≠ p) : (s.setPc p pc).pc q = s.pc q := update_of_ne h ..

theorem exitedChild_some {slot : Table} {c : Fin nproc} (h : exitedChild slot p = some c) :
    (slot c).parent = some p ∧ (slot c).state = .zombie := by
  simpa using List.find?_some h

theorem exitedChild_none {slot : Table} (h : exitedChild slot p = none) (c : Fin nproc)
    (hc : (slot c).parent = some p) : (slot c).state ≠ .zombie := by
  simpa [hc] using List.find?_eq_none.1 h c (List.mem_finRange c)

theorem setSlot_eq (x : Slot) : s.setSlot p x = (s.setSlot p x).setPc p (s.pc p) := by
  simp only [Sys.setPc, setSlot_pc, update_eq_self]
  rfl

/-- A process that is alive changes its running state, its channel or whether it is killed. -/
theorem Effect.slot (st : State) (chan : Option Chan) (killed : Bool) (halive : (s.slot p).state.life = .alive)
    (hst : st.life = .alive)
    (hasleep : st = .sleeping → ∀ q, chan = some (.proc q) →
      (s.slot p).state = .sleeping ∧ (s.slot p).chan = some (.proc q) ∨ q = p ∧ exitedChild s.slot p = none) :
    Effect s a (s.setSlot p { s.slot p with state := st, chan := chan, killed := killed }) := by
  rw [setSlot_eq]
  refine .mild p p _ _ ⟨hst.trans halive.symm, rfl, rfl, rfl, Or.inl ⟨rfl, rfl⟩, Or.inl rfl, fun hu => ?_, hasleep⟩
    fun pid k hpc => Or.inl ⟨k, hpc⟩
  rw [hu] at halive
  cases halive

/-- A process that runs in none of the calls changes its files or its memory. -/
theorem Effect.user (x : Slot) (hrun : (s.slot p).state = .running) (hpc : s.pc p = .user)
    (hx : x = { s.slot p with sz := x.sz, pagetable := x.pagetable, ofile := x.ofile, cwd := x.cwd }) :
    Effect s a (s.setSlot p x) := by
  rw [setSlot_eq, hx]
  refine .mild p p _ _ ⟨rfl, rfl, rfl, rfl, Or.inr ⟨rfl, by rw [hrun]; rfl, ?_⟩, Or.inl rfl, fun hu => ?_, fun hs => ?_⟩
    fun pid k hpc => Or.inl ⟨k, hpc⟩
  · rw [hpc]
    trivial
  · rw [hrun] at hu
    cases hu
  · rw [show _ = State.running from hrun] at hs
    cases hs

theorem Effect.move (pc : Pc) (hchild : pc.child = none) (hrun : (s.slot p).state = .running) (hok : pc.Ok s p)
    (hkill : KillMoves s a p pc) : Effect s a (s.setPc p pc) := by
  have h : s.setPc p pc = (s.setSlot p (s.slot p)).setPc p pc := by
    simp only [Sys.setSlot, update_eq_self]
  rw [h]
  refine .mild p p _ pc ⟨rfl, rfl, rfl, rfl, Or.inl ⟨rfl, rfl⟩, Or.inr ⟨hchild, by rw [hrun]; rfl, ?_⟩, fun _ => Or.inl rfl, fun hs => ?_⟩
    hkill
  · rw [← h]
    cases pc with
    | link | start => cases hchild
    | closing | exiting => exact hok
    | user | alloc | wait | kill => trivial
  · rw [hrun] at hs
    cases hs

theorem effect_kill {pid : BitVec 32} {k : Nat} (hpc : s.pc p = .kill pid k) (hrun : (s.slot p).state = .running)
    (hq : (s.slot q).pid = pid) : Effect s a ((s.setSlot q (killSlot (s.slot q))).setPc p .user) := by
  have hlife : (killSlot (s.slot q)).state.life = (s.slot q).state.life := by
    unfold killSlot
    split
    · rename_i h
      rw [h]
      rfl
    · rfl
  refine .mild q p _ _ ⟨hlife, rfl, rfl, rfl, Or.inl ⟨rfl, rfl⟩, Or.inr ⟨rfl, by rw [hrun]; rfl, trivial⟩,
    fun _ => Or.inr ⟨rfl, k, by rw [hpc, hq]⟩, fun hs => ?_⟩ nofun
  unfold killSlot at hs
  split at hs
  · cases hs
  · rename_i h
    exact absurd hs h

theorem effect_closing {status : BitVec 32} {fd : Nat} (h : Wf s) (hpc : s.pc p = .closing status fd)
    (hrun : (s.slot p).state = .running) (hfd : fd < nofile) :
    Effect s a ((s.setSlot p { s.slot p with
      ofile := update (s.slot p).ofile ⟨fd, hfd⟩ 0 }).setPc p (.closing status (fd + 1))) := by
  have hok := h.pc p
  rw [hpc] at hok
  have hok' : (Pc.closing status (fd + 1)).Ok ((s.setSlot p { s.slot p with
      ofile := update (s.slot p).ofile ⟨fd, hfd⟩ 0 }).setPc p (.closing status (fd + 1))) p := by
    refine ⟨hok.1, fun j hj => ?_⟩
    rw [setPc_slot, setSlot_self]
    obtain rfl | hne := eq_or_ne j ⟨fd, hfd⟩
    · simp
    · show update (s.slot p).ofile _ 0 j = 0
      rw [update_of_ne hne]
      have hval : j.val ≠ fd := fun he => hne (Fin.ext he)
      exact hok.2 j (by omega)
  refine .mild p p _ _ ⟨rfl, rfl, rfl, rfl, Or.inr ⟨rfl, by rw [hrun]; rfl, hok'⟩,
    Or.inr ⟨rfl, by rw [hrun]; rfl, hok'⟩, fun hu => ?_, fun hs => ?_⟩ nofun
  · rw [hrun] at hu
    cases hu
  · rw [show _ = State.running from hrun] at hs
    cases hs

theorem effect_closed {status : BitVec 32} {fd : Nat} (h : Wf s) (hpc : s.pc p = .closing status fd)
    (hrun : (s.slot p).state = .running) (hfd : ¬ fd < nofile) :
    Effect s a ((s.setSlot p { s.slot p with cwd := 0 }).setPc p (.exiting status)) := by
  have hok := h.pc p
  rw [hpc] at hok
  have hok' : (Pc.exiting status).Ok ((s.setSlot p { s.slot p with cwd := 0 }).setPc p (.exiting status)) p := by
    refine ⟨hok.1, fun j => ?_, ?_⟩
    · rw [setPc_slot, setSlot_self]
      exact hok.2 j (by have := j.isLt; omega)
    · rw [setPc_slot, setSlot_self]
  refine .mild p p _ _ ⟨rfl, rfl, rfl, rfl, Or.inr ⟨rfl, by rw [hrun]; rfl, hok'⟩,
    Or.inr ⟨rfl, by rw [hrun]; rfl, hok'⟩, fun hu => ?_, fun hs => ?_⟩ nofun
  · rw [hrun] at hu
    cases hu
  · rw [show _ = State.running from hrun] at hs
    cases hs

theorem effect_of_proceed {env : Env} {r : Option (BitVec 32)} (h : Wf s) (hrun : (s.slot p).state = .running)
    (hs : proceed s p env = some (r, t)) : Effect s (.go p env) t := by
  unfold proceed at hs
  cases hpc : s.pc p with
  | user =>
      rw [hpc] at hs
      cases hs
  | alloc k =>
      rw [hpc] at hs
      dsimp only at hs
      split at hs
      · split at hs
        · rename_i hk hu
          split at hs
          · rename_i x hx
            cases hs
            rw [fork_error hx]
            exact .failed p _ hu hrun
          · rename_i x hx
            cases hs
            obtain ⟨h₁, h₂, h₃, h₄, h₅⟩ := fork_ok hx
            exact .alloc p _ x hu hrun h₁ h₂ h₃ h₄ h₅
        · cases hs
          exact .move _ rfl hrun trivial nofun
      · cases hs
        exact .move _ rfl hrun trivial nofun
  | link np pid =>
      rw [hpc] at hs
      cases hs
      exact .link p np pid hpc hrun
  | start np pid =>
      rw [hpc] at hs
      cases hs
      exact .start p np pid hpc hrun
  | closing status fd =>
      rw [hpc] at hs
      dsimp only at hs
      split at hs
      · rename_i hfd
        cases hs
        exact effect_closing h hpc hrun hfd
      · rename_i hfd
        cases hs
        exact effect_closed h hpc hrun hfd
  | exiting status =>
      rw [hpc] at hs
      cases hs
      exact .exit p status hpc hrun
  | wait addr =>
      rw [hpc] at hs
      dsimp only at hs
      split at hs
      · rename_i c hc
        split at hs
        · cases hs
          exact .move _ rfl hrun trivial nofun
        · rename_i hout
          cases hs
          exact .reap p c env addr hrun (exitedChild_some hc).2 (exitedChild_some hc).1 rfl hpc hc hout
      · rename_i hnone
        split at hs
        · cases hs
          exact .move _ rfl hrun trivial nofun
        · cases hs
          refine .slot .sleeping (some (.proc p)) (s.slot p).killed (by rw [hrun]; rfl) rfl fun _ q hq => ?_
          cases hq
          exact Or.inr ⟨rfl, hnone⟩
  | kill pid k =>
      rw [hpc] at hs
      dsimp only at hs
      split at hs
      · split at hs
        · rename_i hq
          cases hs
          exact effect_kill hpc hrun hq
        · cases hs
          exact .move _ rfl hrun trivial fun pid' k' heq => Or.inl ⟨k, by cases heq; exact hpc⟩
      · cases hs
        exact .move _ rfl hrun trivial nofun

/-- Every step has one of the effects. -/
theorem effect_of_exec {r : Option (BitVec 32)} (h : Wf s) (hs : exec s a = some (.ok (r, t))) : Effect s a t := by
  cases a with
  | schedule p =>
      simp only [exec, Option.ite_none_right_eq_some, Option.some.injEq] at hs
      obtain ⟨hst, hs⟩ := hs
      cases hs
      exact .slot .running none (s.slot p).killed (by rw [hst]; rfl) rfl nofun
  | yield p =>
      simp only [exec, Option.ite_none_right_eq_some, Option.some.injEq] at hs
      obtain ⟨hst, hs⟩ := hs
      cases hs
      exact .slot .runnable (s.slot p).chan (s.slot p).killed (by rw [hst]; rfl) rfl nofun
  | sleep p addr =>
      simp only [exec, Option.ite_none_right_eq_some, Option.some.injEq] at hs
      obtain ⟨⟨hst, _⟩, hs⟩ := hs
      cases hs
      exact .slot .sleeping (some (.other addr)) (s.slot p).killed (by rw [hst]; rfl) rfl fun _ _ hq => by cases hq
  | wakeup p chan =>
      simp only [exec, Option.ite_none_right_eq_some, Option.some.injEq] at hs
      obtain ⟨⟨hst, _⟩, hs⟩ := hs
      cases hs
      exact .slot .runnable (s.slot p).chan (s.slot p).killed (by rw [hst]; rfl) rfl nofun
  | setkilled p =>
      simp only [exec, Option.ite_none_right_eq_some, Option.some.injEq] at hs
      obtain ⟨hst, hs⟩ := hs
      cases hs
      refine .slot (s.slot p).state (s.slot p).chan true (by rw [hst]; rfl) (by rw [hst]; rfl) fun hs => ?_
      rw [hst] at hs
      cases hs
  | files p ofile cwd =>
      simp only [exec, Sys.free, Option.ite_none_right_eq_some, Option.some.injEq, decide_eq_true_eq] at hs
      obtain ⟨⟨hst, hpc⟩, hs⟩ := hs
      cases hs
      exact .user _ hst hpc rfl
  | memory p pagetable sz =>
      simp only [exec, Sys.free, Option.ite_none_right_eq_some, Option.some.injEq, decide_eq_true_eq] at hs
      obtain ⟨⟨hst, hpc⟩, hs⟩ := hs
      cases hs
      exact .user _ hst hpc rfl
  | kfork p =>
      simp only [exec, Sys.free, Option.ite_none_right_eq_some, Option.some.injEq, decide_eq_true_eq] at hs
      obtain ⟨⟨hst, _⟩, hs⟩ := hs
      cases hs
      exact .move _ rfl hst trivial nofun
  | kexit p status =>
      simp only [exec, Sys.free, Option.ite_none_right_eq_some, decide_eq_true_eq] at hs
      obtain ⟨⟨hst, _⟩, hs⟩ := hs
      split at hs
      · cases hs
      · rename_i hne
        cases hs
        exact .move _ rfl hst ⟨hne, fun j hj => absurd hj (Nat.not_lt_zero _)⟩ nofun
  | kwait p addr =>
      simp only [exec, Sys.free, Option.ite_none_right_eq_some, Option.some.injEq, decide_eq_true_eq] at hs
      obtain ⟨⟨hst, _⟩, hs⟩ := hs
      cases hs
      exact .move _ rfl hst trivial nofun
  | kkill p pid =>
      simp only [exec, Sys.free, Option.ite_none_right_eq_some, Option.some.injEq, decide_eq_true_eq] at hs
      obtain ⟨⟨hst, _⟩, hs⟩ := hs
      cases hs
      exact .move _ rfl hst trivial fun pid' k hpc => Or.inr (by cases hpc; rfl)
  | go p env =>
      simp only [exec, Option.ite_none_right_eq_some, Option.map_eq_some_iff] at hs
      obtain ⟨hst, ⟨r', t'⟩, hs, heq⟩ := hs
      cases heq
      exact effect_of_proceed h hst hs

/-! ## The table stays well formed -/

theorem life_free {st : State} (h : st.life = .free) : st = .unused := by
  cases st <;> first | rfl | cases h

theorem life_embryo {st : State} (h : st.life = .embryo) : st = .used := by
  cases st <;> first | rfl | cases h

theorem life_zombie {st : State} (h : st.life = .zombie) : st = .zombie := by
  cases st <;> first | rfl | cases h

theorem Wf.idle (h : Wf s) (hp : (s.slot p).state.life ≠ .alive) : s.pc p = .user := by
  by_contra hne
  exact hp (h.busy p hne)

theorem Wf.child (h : Wf s) (hp : (s.pc p).child = some np) :
    (s.slot np).state = .used ∧ ((s.slot np).parent = none ∨ (s.slot np).parent = some p) := by
  have hok := h.pc p
  cases hpc : s.pc p with
  | link np' pid =>
      rw [hpc] at hp hok
      cases hp
      exact ⟨hok.1, Or.inl hok.2.1⟩
  | start np' pid =>
      rw [hpc] at hp hok
      cases hp
      exact ⟨hok.1, Or.inr hok.2.1⟩
  | user | alloc | closing | exiting | wait | kill =>
      rw [hpc] at hp
      cases hp

/-- What a process relies on is about its child and its own files. -/
theorem Pc.Ok.congr {pc : Pc} (h : pc.Ok s p)
    (hchild : ∀ np, pc.child = some np → (t.slot np).state = (s.slot np).state ∧
      (t.slot np).parent = (s.slot np).parent ∧ (t.slot np).pid = (s.slot np).pid)
    (hfiles : (t.slot p).ofile = (s.slot p).ofile ∧ (t.slot p).cwd = (s.slot p).cwd)
    (hinit : t.initproc = s.initproc) : pc.Ok t p := by
  cases pc with
  | link np pid | start np pid =>
      obtain ⟨h₁, h₂, h₃⟩ := hchild np rfl
      simp only [Pc.Ok, h₁, h₂, h₃]
      exact h
  | closing status fd =>
      simp only [Pc.Ok, hfiles.1, hinit]
      exact h
  | exiting status =>
      simp only [Pc.Ok, hfiles.1, hfiles.2, hinit]
      exact h
  | user | alloc | wait | kill => trivial

/-- A step in which only `p` moves keeps what the others rely on. -/
theorem Wf.update (h : Wf s) (p : Fin nproc) (hpc : ∀ q, q ≠ p → t.pc q = s.pc q)
    (hok : (t.pc p).Ok t p) (hbusy : t.pc p ≠ .user → (t.slot p).state.life = .alive)
    (hnew : ∀ np q, (t.pc p).child = some np → q ≠ p → (s.pc q).child ≠ some np)
    (hchild : ∀ q np, q ≠ p → (s.pc q).child = some np → (t.slot np).state = (s.slot np).state ∧
      (t.slot np).parent = (s.slot np).parent ∧ (t.slot np).pid = (s.slot np).pid)
    (hother : ∀ q, q ≠ p → (s.slot q).state.life = .alive →
      (t.slot q).state.life = .alive ∧ (t.slot q).ofile = (s.slot q).ofile ∧ (t.slot q).cwd = (s.slot q).cwd)
    (hzombie : ∀ q, (t.slot q).state = .zombie → (∀ j, (t.slot q).ofile j = 0) ∧ (t.slot q).cwd = 0)
    (hunused : ∀ q, (t.slot q).state = .unused →
      (t.slot q).pid = 0 ∧ (t.slot q).parent = none ∧ (t.slot q).xstate = 0 ∧ t.origin q = none)
    (hnext : t.nextpid = BitVec.ofNat 32 (t.forks + 2)) (hinit : t.initproc = s.initproc) : Wf t := by
  refine ⟨fun q => ?_, fun q hq => ?_, fun q q' np hq hq' => ?_, hzombie, hunused, hnext⟩
  · obtain rfl | hqp := eq_or_ne q p
    · exact hok
    · rw [hpc q hqp]
      by_cases huser : s.pc q = .user
      · rw [huser]
        trivial
      · exact (h.pc q).congr (fun np => hchild q np hqp) (hother q hqp (h.busy q huser)).2 hinit
  · obtain rfl | hqp := eq_or_ne q p
    · exact hbusy hq
    · rw [hpc q hqp] at hq
      exact (hother q hqp (h.busy q hq)).1
  · obtain rfl | hqp := eq_or_ne q p
    · obtain rfl | hq'p := eq_or_ne q' q
      · rfl
      · rw [hpc q' hq'p] at hq'
        exact absurd hq' (hnew np q' hq hq'p)
    · rw [hpc q hqp] at hq
      obtain rfl | hq'p := eq_or_ne q' p
      · exact absurd hq (hnew np q hq' hqp)
      · rw [hpc q' hq'p] at hq'
        exact h.unique q q' np hq hq'

theorem Mild.same {x : Slot} {pc : Pc} (h : Mild s i p x pc) (j : Fin nproc) :
    ((s.setSlot i x).slot j).state.life = (s.slot j).state.life ∧
      ((s.setSlot i x).slot j).pid = (s.slot j).pid ∧ ((s.setSlot i x).slot j).parent = (s.slot j).parent ∧
      ((s.setSlot i x).slot j).xstate = (s.slot j).xstate := by
  obtain rfl | hj := eq_or_ne j i
  · rw [setSlot_self]
    exact ⟨h.life, h.pid, h.parent, h.xstate⟩
  · rw [setSlot_ne _ hj]
    exact ⟨rfl, rfl, rfl, rfl⟩

theorem Mild.files_ne {x : Slot} {pc : Pc} (h : Mild s i p x pc) {j : Fin nproc}
    (hj : j ≠ p ∨ (s.slot j).state.life ≠ .alive) :
    ((s.setSlot i x).slot j).ofile = (s.slot j).ofile ∧ ((s.setSlot i x).slot j).cwd = (s.slot j).cwd := by
  obtain rfl | hji := eq_or_ne j i
  · rw [setSlot_self]
    refine h.files.resolve_right fun ⟨heq, halive, _⟩ => ?_
    subst heq
    exact hj.elim (fun hne => hne rfl) fun hne => hne halive
  · rw [setSlot_ne _ hji]
    exact ⟨rfl, rfl⟩

theorem Wf.mild {x : Slot} {pc : Pc} (h : Wf s) (hm : Mild s i p x pc) : Wf ((s.setSlot i x).setPc p pc) := by
  have hchild : ∀ q np, (s.pc q).child = some np → ((s.setSlot i x).slot np).state = (s.slot np).state ∧
      ((s.setSlot i x).slot np).parent = (s.slot np).parent ∧ ((s.setSlot i x).slot np).pid = (s.slot np).pid := by
    intro q np hq
    obtain ⟨h₁, h₂, h₃, _⟩ := hm.same np
    have hu := (h.child hq).1
    rw [hu] at h₁ ⊢
    exact ⟨life_embryo h₁, h₃, h₂⟩
  refine h.update p (fun q hq => setPc_ne _ hq) ?_ ?_ ?_ (fun q np _ => hchild q np) ?_ ?_ ?_ h.nextpid rfl
  · rw [setPc_self]
    rcases hm.moves with rfl | ⟨_, _, hok⟩
    · rcases hm.files with hf | ⟨_, _, hok⟩
      · refine (h.pc p).congr (hchild p) ?_ rfl
        obtain rfl | hpi := eq_or_ne p i
        · rw [setPc_slot, setSlot_self]
          exact hf
        · rw [setPc_slot, setSlot_ne _ hpi]
          exact ⟨rfl, rfl⟩
      · exact hok
    · exact hok
  · intro hpc
    rw [setPc_self] at hpc
    rw [setPc_slot, (hm.same p).1]
    rcases hm.moves with rfl | ⟨_, halive, _⟩
    · exact h.busy p hpc
    · exact halive
  · intro np q hp hq hq'
    rw [setPc_self] at hp
    rcases hm.moves with rfl | ⟨hnone, _⟩
    · exact hq (h.unique q p np hq' hp)
    · rw [hnone] at hp
      cases hp
  · intro q hq halive
    rw [setPc_slot, (hm.same q).1]
    exact ⟨halive, hm.files_ne (Or.inl hq)⟩
  · intro q hq
    rw [setPc_slot] at hq ⊢
    have hz : (s.slot q).state = .zombie := life_zombie (by rw [← (hm.same q).1, hq]; rfl)
    obtain ⟨h₁, h₂⟩ := hm.files_ne (j := q) (Or.inr (by rw [hz]; decide))
    rw [h₁, h₂]
    exact h.zombie q hz
  · intro q hq
    rw [setPc_slot] at hq ⊢
    obtain ⟨h₁, h₂, h₃, h₄⟩ := hm.same q
    rw [h₂, h₃, h₄]
    exact h.unused q (life_free (by rw [← h₁, hq]; rfl))

theorem Wf.nextpid_succ (h : Wf s) : s.nextpid + 1 = BitVec.ofNat 32 (s.forks + 1 + 2) := by
  rw [h.nextpid, show (1 : BitVec 32) = BitVec.ofNat 32 1 from rfl, ← BitVec.ofNat_add]

/-- A slot that is not alive changes, and `p` moves; no other process has the slot as its child. -/
theorem Wf.replace {x : Slot} (h : Wf s) (np : Fin nproc) (hp : (s.slot p).state = .running) (hnp : (s.slot np).state.life ≠ .alive)
    (hslot : t.slot = (s.setSlot np x).slot) (hpc : ∀ q, q ≠ p → t.pc q = s.pc q)
    (hok : (t.pc p).Ok t p) (hchild : ∀ q, q ≠ p → (s.pc q).child ≠ some np)
    (hnew : (t.pc p).child = none ∨ (t.pc p).child = some np)
    (hzombie : x.state ≠ .zombie)
    (hunused : x.state = .unused → x.pid = 0 ∧ x.parent = none ∧ x.xstate = 0 ∧ t.origin np = none)
    (horigin : ∀ q, q ≠ np → t.origin q = s.origin q)
    (hnext : t.nextpid = BitVec.ofNat 32 (t.forks + 2)) (hinit : t.initproc = s.initproc) : Wf t := by
  have hne : p ≠ np := by
    rintro rfl
    rw [hp] at hnp
    exact hnp rfl
  have hsame : ∀ q, q ≠ np → t.slot q = s.slot q := fun q hq => by rw [hslot, setSlot_ne _ hq]
  have hx : t.slot np = x := by rw [hslot, setSlot_self]
  refine h.update p hpc hok ?_ ?_ ?_ ?_ ?_ ?_ hnext hinit
  · intro _
    rw [hsame p hne, hp]
    rfl
  · intro np' q hp' hq hq'
    rcases hnew with hnew | hnew
    · rw [hnew] at hp'
      cases hp'
    · rw [hnew] at hp'
      cases hp'
      exact hchild q hq hq'
  · intro q np' hq hq'
    have hne' : np' ≠ np := by
      rintro rfl
      exact hchild q hq hq'
    rw [hsame np' hne']
    exact ⟨rfl, rfl, rfl⟩
  · intro q _ halive
    have hne' : q ≠ np := by
      rintro rfl
      exact hnp halive
    rw [hsame q hne']
    exact ⟨halive, rfl, rfl⟩
  · intro q hq
    obtain rfl | hqn := eq_or_ne q np
    · rw [hx] at hq
      exact absurd hq hzombie
    · rw [hsame q hqn] at hq ⊢
      exact h.zombie q hq
  · intro q hq
    obtain rfl | hqn := eq_or_ne q np
    · rw [hx] at hq ⊢
      exact hunused hq
    · rw [hsame q hqn] at hq ⊢
      rw [horigin q hqn]
      exact h.unused q hq

theorem Wf.not_child (h : Wf s) (hnp : (s.slot np).state ≠ .used) (q : Fin nproc) : (s.pc q).child ≠ some np :=
  fun hq => hnp (h.child hq).1

theorem Wf.exit {status : BitVec 32} (h : Wf s) (hpc : s.pc p = .exiting status) (hrun : (s.slot p).state = .running) :
    Wf { s.setPc p .user with
      slot := exitSection s.initproc p status s.slot
      exits := s.exits ++ [((s.slot p).pid, status)] } := by
  have hok := h.pc p
  rw [hpc] at hok
  obtain ⟨hne, hofile, hcwd⟩ := hok
  refine h.update p (fun q hq => setPc_ne _ hq) ?_ ?_ ?_ ?_ ?_ ?_ ?_ h.nextpid rfl
  · rw [setPc_self]
    trivial
  · intro hp
    exact absurd (setPc_self _) hp
  · intro np q hp
    rw [setPc_self] at hp
    cases hp
  · intro q np hq hq'
    obtain ⟨hused, hpar⟩ := h.child hq'
    have hnp : np ≠ p := by
      rintro rfl
      rw [hrun] at hused
      cases hused
    have hpp : (s.slot np).parent ≠ some p := by
      rcases hpar with hpar | hpar
      · rw [hpar]
        nofun
      · rw [hpar]
        exact fun heq => hq (Option.some.inj heq)
    simp only [exitSection_apply hne, newParent, if_neg hnp, if_neg hpp, hused]
    exact ⟨rfl, trivial, trivial⟩
  · intro q hq halive
    simp only [exitSection_apply hne, if_neg hq, and_true]
    split
    · rfl
    · exact halive
  · intro q hq
    simp only [exitSection_apply hne] at hq ⊢
    obtain rfl | hqp := eq_or_ne q p
    · exact ⟨hofile, hcwd⟩
    · rw [if_neg hqp] at hq
      split at hq
      · cases hq
      · exact h.zombie q hq
  · intro q hq
    simp only [exitSection_apply hne] at hq ⊢
    obtain rfl | hqp := eq_or_ne q p
    · rw [if_pos rfl] at hq
      cases hq
    · rw [if_neg hqp] at hq ⊢
      split at hq
      · cases hq
      · obtain ⟨h₁, h₂, h₃, h₄⟩ := h.unused q hq
        rw [newParent, h₂]
        exact ⟨h₁, rfl, h₃, h₄⟩

theorem Wf.effect (h : Wf s) (he : Effect s a t) : Wf t := by
  cases he with
  | mild i p x pc hm _ => exact h.mild hm
  | failed p np hu hrun =>
      have horigin := (h.unused np hu).2.2.2
      refine h.replace np hrun (by rw [hu]; decide) rfl (fun q hq => setPc_ne _ hq) ?_
        (fun q _ => h.not_child (by rw [hu]; decide) q) (Or.inl ?_) nofun (fun _ => ⟨rfl, rfl, rfl, horigin⟩) (fun _ _ => rfl)
        h.nextpid_succ rfl
      · rw [setPc_self]
        trivial
      · rw [setPc_self]
        rfl
  | alloc p np x hu hrun h₁ h₂ h₃ _ h₅ =>
      have hpar := (h.unused np hu).2.1
      have hidle : s.pc np = .user := h.idle (by rw [hu]; decide)
      refine h.replace np (x := x) hrun (by rw [hu]; decide) rfl (fun q hq => ?_) ?_
        (fun q _ => h.not_child (by rw [hu]; decide) q) (Or.inr ?_) (by rw [h₁]; decide)
        (fun hx => absurd (h₁.symm.trans hx) (by decide)) (fun _ _ => rfl) h.nextpid_succ rfl
      · rw [setPc_ne _ hq]
        obtain rfl | hqn := eq_or_ne q np
        · rw [setPc_self, hidle]
        · rw [setPc_ne _ hqn]
          rfl
      · rw [setPc_self]
        simp only [Pc.Ok, setPc_slot, setSlot_self]
        exact ⟨h₁, h₃.trans hpar, h₂⟩
      · rw [setPc_self]
        rfl
  | link p np pid hpc hrun =>
      have hok := h.pc p
      rw [hpc] at hok
      obtain ⟨h₁, _, h₃⟩ := hok
      have hchild : (s.pc p).child = some np := by rw [hpc]; rfl
      refine h.replace np hrun (by rw [h₁]; decide) rfl (fun q hq => setPc_ne _ hq) ?_
        (fun q hq hq' => hq (h.unique q p np hq' hchild)) (Or.inr ?_) ?_ ?_
        (fun q hq => update_of_ne hq ..) h.nextpid rfl
      · rw [setPc_self]
        simp only [Pc.Ok, setPc_slot, setSlot_self]
        exact ⟨h₁, trivial, h₃⟩
      · rw [setPc_self]
        rfl
      · rw [h₁]
        decide
      · intro hu
        rw [h₁] at hu
        cases hu
  | start p np pid hpc hrun =>
      have hok := h.pc p
      rw [hpc] at hok
      have hchild : (s.pc p).child = some np := by rw [hpc]; rfl
      refine h.replace np hrun (by rw [hok.1]; decide) rfl (fun q hq => setPc_ne _ hq) ?_
        (fun q hq hq' => hq (h.unique q p np hq' hchild)) (Or.inl ?_) nofun nofun (fun _ _ => rfl) h.nextpid rfl
      · rw [setPc_self]
        trivial
      · rw [setPc_self]
        rfl
  | exit p status hpc hrun => exact h.exit hpc hrun
  | reap p c env addr hrun hz _ _ _ _ _ =>
      refine h.replace c hrun (by rw [hz]; decide) rfl (fun q hq => setPc_ne _ hq) ?_
        (fun q _ => h.not_child (by rw [hz]; decide) q) (Or.inl ?_) nofun
        (fun _ => ⟨rfl, rfl, rfl, update_self ..⟩) (fun q hq => update_of_ne hq ..) h.nextpid rfl
      · rw [setPc_self]
        trivial
      · rw [setPc_self]
        rfl

/-! ## The table refines the family -/

theorem view_congr {F : Family (Fin nproc)} (hm : ∀ i, t.view.member i = F.member i) (hnext : t.view.next = F.next)
    (hexits : t.exits = F.exits) (hreaps : t.reaps = F.reaps) : t.view = F := by
  obtain ⟨m, n, e, r⟩ := F
  cases hexits
  cases hreaps
  cases hnext
  obtain rfl : t.view.member = m := funext hm
  rfl

theorem view_set {x : Slot} (np : Fin nproc) {o : Option (BitVec 32)} {m : Member (Fin nproc)} {F : Family (Fin nproc)}
    (hslot : t.slot = (s.setSlot np x).slot) (horigin : t.origin = update s.origin np o)
    (hm : m = ⟨x.state.life, x.pid, x.xstate, x.parent, o⟩) (hF : F.member = (s.view.set np m).member)
    (hnext : t.view.next = F.next) (hexits : t.exits = F.exits) (hreaps : t.reaps = F.reaps) : t.view = F := by
  refine view_congr (fun i => ?_) hnext hexits hreaps
  rw [hF]
  simp only [Sys.view, hslot, horigin, hm]
  obtain rfl | hi := eq_or_ne i np
  · rw [Family.set_self, setSlot_self, update_self]
  · rw [Family.set_ne _ hi, setSlot_ne _ hi, update_of_ne hi]

/-- Every step of the table leaves the family as it is or is a step of it. -/
theorem view_effect (h : Wf s) (he : Effect s a t) : t.view = s.view ∨ s.view.Step s.initproc t.view := by
  cases he with
  | mild i p x pc hm _ =>
      refine Or.inl (view_congr (fun j => ?_) rfl rfl rfl)
      obtain ⟨h₁, h₂, h₃, h₄⟩ := hm.same j
      simp only [Sys.view, setPc_slot, h₁, h₂, h₃, h₄]
      rfl
  | failed p np hu hrun =>
      obtain ⟨g₀, g₁, g₂, g₃⟩ := h.unused np hu
      refine Or.inr ?_
      have hview : s.view.Step s.initproc _ := .skip
      convert hview using 1
      refine view_set (s := s) np (x := { ofile := (s.slot np).ofile, cwd := (s.slot np).cwd }) (o := none)
        rfl ?_ rfl ?_ rfl rfl rfl
      · rw [← g₃, update_eq_self]
        rfl
      · funext i
        obtain rfl | hi := eq_or_ne i np
        · rw [Family.set_self]
          simp only [Sys.view, hu, g₀, g₁, g₂, g₃]
        · rw [Family.set_ne _ hi]
  | alloc p np x hu hrun h₁ h₂ h₃ _ h₅ =>
      obtain ⟨_, g₁, g₂, g₃⟩ := h.unused np hu
      refine Or.inr ?_
      have hview : s.view.Step s.initproc _ := .alloc np (by simp only [Sys.view, hu]; rfl)
      convert hview using 1
      refine view_set (s := s) np (x := x) (o := none) rfl ?_ ?_ rfl rfl rfl rfl
      · rw [← g₃, update_eq_self]
        rfl
      · rw [h₁, h₂, h₃, h₅, g₁, g₂, h.nextpid]
        rfl
  | link p np pid hpc hrun =>
      have hok := h.pc p
      rw [hpc] at hok
      refine Or.inr ?_
      have hview : s.view.Step s.initproc _ := .link np p
        (by simp only [Sys.view, hok.1]; rfl) (by simp only [Sys.view, hrun]; rfl)
      convert hview using 1
      exact view_set (s := s) np rfl rfl rfl rfl rfl rfl rfl
  | start p np pid hpc hrun =>
      have hok := h.pc p
      rw [hpc] at hok
      refine Or.inr ?_
      have hview : s.view.Step s.initproc _ := .start np (by simp only [Sys.view, hok.1]; rfl)
      convert hview using 1
      exact view_set (s := s) np (o := s.origin np) rfl (update_eq_self ..).symm rfl rfl rfl rfl rfl
  | exit p status hpc hrun =>
      have hok := h.pc p
      rw [hpc] at hok
      refine Or.inr ?_
      have hview : s.view.Step s.initproc _ := .exit p status (by simp only [Sys.view, hrun]; rfl) hok.1
      convert hview using 1
      refine view_congr (fun i => ?_) rfl rfl rfl
      simp only [Sys.view, Family.leave, exitSection_apply hok.1]
      obtain rfl | hi := eq_or_ne i p
      · simp only [if_true]
        rfl
      · simp only [if_neg hi]
        congr 1
        split
        · rename_i hs
          rw [hs.1]
          rfl
        · rfl
  | reap p c env addr hrun hz _ _ _ _ _ =>
      refine Or.inr ?_
      have hview : s.view.Step s.initproc _ := .reap c (by simp only [Sys.view, hz]; rfl)
      convert hview using 1
      exact view_set (s := s) c (o := none) rfl rfl rfl rfl rfl rfl rfl

end Xv6.Proc
