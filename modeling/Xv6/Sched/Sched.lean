import Mathlib.Logic.Function.Basic
import Xv6.Proc.Proc

/-!
# Scheduling (`scheduler`, `sched`, `yield`, `sleep`, `wakeup`)

Each CPU runs a process or its own `scheduler`. A step runs a CPU up to where it takes or gives back a lock or switches to
another thread, so other CPUs come in between at all these points. `lk k` is the lock that goes with the channel `k`: it
guards the condition that sleepers on `k` wait for. `noff` is in `Intr.Nesting`.
-/

namespace Xv6.Sched

open Function
open Xv6.Proc (State)

variable {C L K : Type}

inductive Panic
  | acquire
  | release
  /-- `sched p->lock` -/
  | schedLock
  | schedRunning
  | zombieExit

/-- A section on one slot, under its lock. -/
inductive Section (K : Type)
  /-- `wakeup`, which has the slots `rest` before it. -/
  | wakeup (k : K) (rest : List (Fin nproc))
  /-- `kkill` at the slot that has the pid. -/
  | kkill
  /-- `allocproc`, and `kfork` up to `release(&np->lock)`. -/
  | allocproc
  /-- The end of `kfork`. -/
  | start
  /-- `freeproc` in `kwait`. -/
  | freeproc
  /-- `setkilled`, `killed`, and slots that a loop passes over. -/
  | pass

/-- Where a thread is. -/
inductive Pc (L K : Type)
  /-- In none of these functions, or in `scheduler` between two slots. -/
  | out
  /-- `scheduler`, with the lock of slot `q`. -/
  | hold (q : Fin nproc)
  /-- `scheduler`, after a process has switched back to it. -/
  | back
  /-- `yield` or `forkret`, switched to. -/
  | ret
  | yield
  /-- `sleep`, before `release(lk)`. -/
  | sleep (k : K)
  /-- `sleep`, after it. -/
  | slept (k : K)
  /-- `sleep`, switched to. The `acquire(lk)` at its end is a call like any other. -/
  | woken
  /-- `kexit`, before `release(&wait_lock)`. -/
  | exit (l : L)
  /-- `kexit`, after it. -/
  | exited
  /-- `kexit`, switched to. -/
  | dead
  | wakeup (k : K) (rest : List (Fin nproc))
  | look (u : Section K) (q : Fin nproc)

/-- `struct proc`. `maker` is the process whose `kfork` has the slot in hand. -/
structure Slot (C L K : Type) where
  lock : Option C := none
  state : State := .unused
  chan : Option K := none
  context : Pc L K := .ret
  maker : Option (Fin nproc) := none

/-- `c->proc`, and where the thread on it is. -/
structure Cpu (L K : Type) where
  proc : Option (Fin nproc) := none
  pc : Pc L K := .out

/-- `told` and `woke` only record: a condition was made true, and a `wakeup` was run, since its lock was taken. -/
structure Sys (C L K : Type) where
  slot : Fin nproc → Slot C L K
  cpu : C → Cpu L K
  lock : L → Option C
  cond : K → Bool
  told : K → Bool
  woke : K → Bool

/-- What a step leads to, if it can be taken now. -/
abbrev Result (C L K : Type) := Option (Except Panic (Sys C L K))

/-- After `userinit`. -/
def init (cond : K → Bool) : Sys C L K where
  slot p := if p = 0 then { state := .runnable } else {}
  cpu _ := {}
  lock _ := none
  cond := cond
  told _ := false
  woke _ := false

/-- What a section leaves of its slot. -/
def Section.body [DecidableEq K] (me : Option (Fin nproc)) (y : Slot C L K) : Section K → Slot C L K
  | .wakeup k _ => if y.state = .sleeping ∧ y.chan = some k then { y with state := .runnable } else y
  | .kkill => if y.state = .sleeping then { y with state := .runnable } else y
  | .allocproc => if y.state = .unused then { y with state := .used, context := .ret, maker := me } else y
  | .start => { y with state := .runnable, maker := none }
  | .freeproc => if y.state = .zombie then { y with state := .unused, chan := none } else y
  | .pass => y

/-- Where its caller goes on. -/
def Section.after : Section K → Pc L K
  | .wakeup k rest => .wakeup k rest
  | _ => .out

/-- What a thread calls. -/
inductive Call (L K : Type)
  | acquire (l : L)
  | release (l : L)
  /-- The condition of `k` becomes `b`. -/
  | set (k : K) (b : Bool)
  | wakeup (k : K)
  | look (u : Section K) (q : Fin nproc)
  | yield
  | sleep (k : K)
  | exit (l : L)
  /-- `scheduler` comes to slot `q`. It takes the slots in turn, here in any order. -/
  | pick (q : Fin nproc)

inductive Label (C L K : Type)
  | go (c : C)
  | call (c : C) (f : Call L K)

namespace Sys

variable [DecidableEq C] [DecidableEq L] [DecidableEq K]

/-! ## Locks -/

/-- `acquire` of the lock of slot `q`. -/
def acquireProc (s : Sys C L K) (c : C) (q : Fin nproc) (pc : Pc L K) : Result C L K :=
  match (s.slot q).lock with
  | none => some (.ok { s with
      cpu := update s.cpu c { s.cpu c with pc := pc }
      slot := update s.slot q { s.slot q with lock := some c } })
  | some d => if d = c then some (.error .acquire) else none

/-- `release` of the lock of slot `q`, which is now `y`. -/
def releaseProc (s : Sys C L K) (c : C) (x : Cpu L K) (q : Fin nproc) (y : Slot C L K) : Except Panic (Sys C L K) :=
  if (s.slot q).lock = some c then .ok { s with cpu := update s.cpu c x, slot := update s.slot q { y with lock := none } }
  else .error .release

def acquire (s : Sys C L K) (c : C) (l : L) : Result C L K :=
  match s.lock l with
  | none => some (.ok { s with lock := update s.lock l (some c) })
  | some d => if d = c then some (.error .acquire) else none

def release (lk : K → L) (s : Sys C L K) (c : C) (l : L) (pc : Pc L K) : Except Panic (Sys C L K) :=
  if s.lock l = some c then .ok { s with
    cpu := update s.cpu c { s.cpu c with pc := pc }
    lock := update s.lock l none
    told := fun k => if lk k = l then false else s.told k
    woke := fun k => if lk k = l then false else s.woke k }
  else .error .release

/-! ## Switches -/

/-- `scheduler` with the lock of slot `q`. -/
def pick (s : Sys C L K) (c : C) (q : Fin nproc) : Except Panic (Sys C L K) :=
  let y := s.slot q
  if y.state = .runnable then .ok { s with
    cpu := update s.cpu c { s.cpu c with proc := some q, pc := y.context }
    slot := update s.slot q { y with state := .running } }
  else s.releaseProc c { s.cpu c with pc := .out } q y

/-- `sched` by `p`, which has made its slot `y`. -/
def sched (s : Sys C L K) (c : C) (p : Fin nproc) (y : Slot C L K) : Except Panic (Sys C L K) :=
  if y.lock ≠ some c then .error .schedLock
  else if y.state = .running then .error .schedRunning
  else .ok { s with cpu := update s.cpu c { s.cpu c with pc := .back }, slot := update s.slot p y }

/-! ## Steps -/

/-- The loop of `wakeup`. -/
def goWakeup (lk : K → L) (s : Sys C L K) (c : C) (k : K) : List (Fin nproc) → Result C L K
  | q :: rest =>
      if (s.cpu c).proc = some q then some (.ok { s with cpu := update s.cpu c { s.cpu c with pc := .wakeup k rest } })
      else s.acquireProc c q (.look (.wakeup k rest) q)
  | [] => some (.ok { s with
      cpu := update s.cpu c { s.cpu c with pc := .out }
      woke := if s.lock (lk k) = some c then update s.woke k true else s.woke })

/-- The process `p` on `c`, or the scheduler after a switch from it, goes on. -/
def goProc (lk : K → L) (s : Sys C L K) (c : C) (p : Fin nproc) : Result C L K :=
  let x := s.cpu c
  let y := s.slot p
  match x.pc with
  | .back => some (s.releaseProc c { x with proc := none, pc := .out } p y)
  | .ret => some (s.releaseProc c { x with pc := .out } p y)
  | .yield => some (s.sched c p { y with state := .runnable, context := .ret })
  | .sleep k => some (s.release lk c (lk k) (.slept k))
  | .slept k => some (s.sched c p { y with chan := some k, state := .sleeping, context := .woken })
  | .woken => some (s.releaseProc c { x with pc := .out } p { y with chan := none })
  | .exit l => some ({ s with slot := update s.slot p { y with state := .zombie } }.release lk c l .exited)
  | .exited => some (s.sched c p { y with context := .dead })
  | .dead => some (.error .zombieExit)
  | _ => none

/-- The thread on `c` goes on to its next lock or switch. -/
def go (lk : K → L) (s : Sys C L K) (c : C) : Result C L K :=
  let x := s.cpu c
  match x.pc with
  | .hold q => some (s.pick c q)
  | .wakeup k rest => s.goWakeup lk c k rest
  | .look u q => some (s.releaseProc c { x with pc := u.after } q (u.body x.proc (s.slot q)))
  | _ => x.proc.bind (s.goProc lk c)

/-- A call by the thread on `c`. -/
def call (lk : K → L) (s : Sys C L K) (c : C) : Call L K → Result C L K
  | .acquire l => s.acquire c l
  | .release l => some (s.release lk c l .out)
  | .set k b => some (.ok { s with cond := update s.cond k b, told := if b then update s.told k true else s.told })
  | .wakeup k => some (.ok { s with cpu := update s.cpu c { s.cpu c with pc := .wakeup k (List.finRange nproc) } })
  | .look u q => s.acquireProc c q (.look u q)
  | .yield => (s.cpu c).proc.bind fun p => s.acquireProc c p .yield
  | .sleep k => (s.cpu c).proc.bind fun p => s.acquireProc c p (.sleep k)
  | .exit l => (s.cpu c).proc.bind fun p => s.acquireProc c p (.exit l)
  | .pick q => if (s.cpu c).proc = none then s.acquireProc c q (.hold q) else none

def step (lk : K → L) (s : Sys C L K) : Label C L K → Result C L K
  | .go c => s.go lk c
  | .call c f =>
      match (s.cpu c).pc with
      | .out => s.call lk c f
      | _ => none

/-- Whoever has the lock `l` and has made a condition true has also called `wakeup`. -/
def Settled (lk : K → L) (s : Sys C L K) (l : L) : Prop := ∀ k, lk k = l → s.told k = true → s.woke k = true

/-- What callers see to: a condition is changed, and slept on, with its lock; nobody sleeps when it is true, or gives the lock
back without a `wakeup` after making it true; `kfork` starts the slot it has found. -/
def ok (lk : K → L) (s : Sys C L K) : Label C L K → Prop
  | .call c (.acquire l) => s.lock l ≠ some c
  | .call c (.release l) | .call c (.exit l) => s.lock l = some c ∧ s.Settled lk l
  | .call c (.set k _) => s.lock (lk k) = some c
  | .call _ (.look (.wakeup _ _) _) => False
  | .call c (.look .start q) => (s.slot q).maker ≠ none ∧ (s.slot q).maker = (s.cpu c).proc
  | .call c (.sleep k) => s.cond k = false ∧ s.lock (lk k) = some c ∧ s.Settled lk (lk k)
  | _ => True

end Sys

end Xv6.Sched
