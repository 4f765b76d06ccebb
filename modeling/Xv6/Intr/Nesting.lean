import Xv6.Lib.Run
import Xv6.Param
import Mathlib.Data.Fintype.Basic

/-!
# Interrupt nesting (`push_off`, `pop_off`, `sched`, `scheduler`)

A CPU counts the `push_off`s that are not undone, and remembers whether interrupts were on at the first of them. Both
belong to the thread that runs on it: a process, or the CPU's own `scheduler`. `sched` carries the second over `swtch`.
-/

namespace Xv6.Intr

variable {C P : Type}

/-- `struct cpu` without the saved context, and the interrupt bit of the CPU's `sstatus`. -/
structure Cpu (P : Type) where
  proc : Option P := none
  noff : Int := 0
  intena : Bool := false
  intr : Bool

/-! ## The functions -/

def pushOff (c : Cpu P) : Cpu P :=
  let old := c.intr
  let c := { c with intr := false }
  let c := if c.noff = 0 then { c with intena := old } else c
  { c with noff := c.noff + 1 }

def popOff (c : Cpu P) : Except Panic (Cpu P) :=
  if c.intr then .error .popOffInterruptible
  else if c.noff < 1 then .error .popOff
  else
    let c := { c with noff := c.noff - 1 }
    .ok (if c.noff = 0 ∧ c.intena then { c with intr := true } else c)

/-- `sched` up to `swtch`: the value of its local variable. That `p->lock` is held and that the state is not `RUNNING` is
up to the callers. -/
def sched (c : Cpu P) : Except Panic Bool :=
  if c.noff ≠ 1 then .error .schedLocks
  else if c.intr then .error .schedInterruptible
  else .ok c.intena

/-! ## Threads on CPUs -/

inductive Thread (C P : Type)
  | proc (p : P)
  | scheduler (c : C)
  deriving DecidableEq

/-- How far a process is: never switched to, still in its first `release` in `forkret`, or after it. -/
inductive Stage
  | new
  | forkret
  | past
  deriving DecidableEq

/-- `intena` is the local variable of `sched` of a process that is switched out. `depth` and `start` only record: the
`push_off`s a thread has not undone, and whether interrupts were on when it called the outermost of them. -/
structure State (C P : Type) where
  cpu : C → Cpu P
  intena : P → Bool
  stage : P → Stage
  depth : Thread C P → Nat
  start : Thread C P → Bool

/-- The thread that runs on a CPU. -/
def State.thread (s : State C P) (c : C) : Thread C P :=
  match (s.cpu c).proc with
  | some p => .proc p
  | none => .scheduler c

/-- All CPUs are in `main` or at the start of `scheduler`. A process starts inside the bracket that the scheduler opened
with `acquire(&p->lock)`. -/
def init (intr : C → Bool) : State C P where
  cpu c := { intr := intr c }
  intena _ := false
  stage _ := .new
  depth
    | .proc _ => 1
    | .scheduler _ => 0
  start _ := false

variable [DecidableEq C] [DecidableEq P]

/-- The thread on `c` leaves the CPU as `k`. -/
def State.act (s : State C P) (c : C) (k : Cpu P) (depth : Nat) (start : Bool) : State C P :=
  { s with
    cpu := Function.update s.cpu c k
    depth := Function.update s.depth (s.thread c) depth
    start := Function.update s.start (s.thread c) start }

/-- The thread on `c` has undone its outermost `push_off`. -/
def State.leave (s : State C P) (c : C) : State C P :=
  match (s.cpu c).proc with
  | some p => if s.depth (.proc p) = 0 then { s with stage := Function.update s.stage p .past } else s
  | none => s

/-- `scheduler` switches to `p`. A new process begins in `forkret`, any other goes on in `sched`. -/
def State.swtch (s : State C P) (c : C) (p : P) : State C P :=
  match s.stage p with
  | .new =>
      { s with
        cpu := Function.update s.cpu c { s.cpu c with proc := some p }
        stage := Function.update s.stage p .forkret }
  | _ => { s with cpu := Function.update s.cpu c { s.cpu c with proc := some p, intena := s.intena p } }

inductive Label (C P : Type)
  /-- The thread on `c` calls `push_off`. -/
  | pushOff (c : C)
  | popOff (c : C)
  /-- `intr_on` or `intr_off`, a trap or the return from one. -/
  | setIntr (c : C) (on : Bool)
  /-- The process on `c` calls `sched`. -/
  | sched (c : C)
  /-- The scheduler of `c` switches to `p`. -/
  | swtch (c : C) (p : P)

def step (s : State C P) : Label C P → Option (Except Panic (State C P))
  | .pushOff c =>
      let d := s.depth (s.thread c)
      some (.ok (s.act c (Intr.pushOff (s.cpu c)) (d + 1) (if d = 0 then (s.cpu c).intr else s.start (s.thread c))))
  | .popOff c =>
      let d := s.depth (s.thread c)
      match Intr.popOff (s.cpu c) with
      | .ok k => some (.ok ((s.act c k (d - 1) (s.start (s.thread c))).leave c))
      | .error e => some (.error e)
  | .setIntr c on =>
      some (.ok (s.act c { s.cpu c with intr := on } (s.depth (s.thread c)) (s.start (s.thread c))))
  | .sched c =>
      match (s.cpu c).proc with
      | none => none
      | some p =>
          match Intr.sched (s.cpu c) with
          | .ok intena => some (.ok { s with
              cpu := Function.update s.cpu c { s.cpu c with proc := none }
              intena := Function.update s.intena p intena })
          | .error e => some (.error e)
  | .swtch c p =>
      match (s.cpu c).proc with
      | none => some (.ok (s.swtch c p))
      | some _ => none

/-- The calls of a thread are well bracketed: it undoes only what it did, switches interrupts itself only outside of all
brackets, and switches to another thread only at depth 1. A process runs on one CPU at most. -/
def Bracketed (s : State C P) : Label C P → Prop
  | .pushOff _ => True
  | .popOff c => 0 < s.depth (s.thread c)
  | .setIntr c _ => s.depth (s.thread c) = 0
  | .sched c => s.depth (s.thread c) = 1
  | .swtch c p => s.depth (.scheduler c) = 1 ∧ ∀ c', (s.cpu c').proc ≠ some p

instance [Fintype C] (s : State C P) : (l : Label C P) → Decidable (Bracketed s l)
  | .pushOff _ => inferInstanceAs (Decidable True)
  | .popOff c => inferInstanceAs (Decidable (0 < s.depth (s.thread c)))
  | .setIntr c _ => inferInstanceAs (Decidable (s.depth (s.thread c) = 0))
  | .sched c => inferInstanceAs (Decidable (s.depth (s.thread c) = 1))
  | .swtch c p => inferInstanceAs (Decidable (s.depth (.scheduler c) = 1 ∧ ∀ c', (s.cpu c').proc ≠ some p))

end Xv6.Intr
