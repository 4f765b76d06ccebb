import Mathlib.Data.Fintype.Basic
import Mathlib.Data.List.FinRange
import Xv6.Lib.Run
import Xv6.Param

/-!
# Processes (`proc.c`)

The process table, and `kfork`, `kexit`, `kwait`, `kkill`, `sleep` and `wakeup` on it. A call is cut
into the sections it runs under `p->lock` or `wait_lock`; between two sections any other process,
and any interrupt, may take a step. Addresses are numbers, and 0 is the null pointer.
-/

namespace Xv6.Proc

open Function

/-- `enum procstate`. -/
inductive State
  | unused
  | used
  | sleeping
  | runnable
  | running
  | zombie
  deriving DecidableEq, Repr

/-- A sleep channel: the address of a slot, on which `kwait` sleeps, or another address. -/
inductive Chan
  | proc (p : Fin nproc)
  | other (addr : Nat)
  deriving DecidableEq

/-- `struct proc`; the kernel stack, the saved context and the name are left out. -/
structure Slot where
  state : State := .unused
  chan : Option Chan := none
  killed : Bool := false
  xstate : BitVec 32 := 0
  pid : BitVec 32 := 0
  parent : Option (Fin nproc) := none
  sz : Nat := 0
  pagetable : Nat := 0
  trapframe : Nat := 0
  ofile : Fin nofile → Nat := fun _ => 0
  cwd : Nat := 0

instance : NeZero nproc := ⟨by decide⟩

abbrev Table := Fin nproc → Slot

/-- What a section gets from outside the process table: the page of `kalloc` for the trapframe and
the page table of `proc_pagetable` (0 when they fail), and whether `uvmcopy` and `copyout`
succeed. -/
structure Env where
  trapframe : Nat
  pagetable : Nat
  uvmcopy : Bool
  copyout : Bool

/-! ## The sections -/

def freeproc (x : Slot) : Slot :=
  { x with
    trapframe := 0, pagetable := 0, sz := 0, pid := 0, parent := none, chan := none, killed := false
    xstate := 0, state := .unused }

/-- `allocproc` from `found` on. On failure the slot is left as `freeproc` leaves it. -/
def allocproc (pid : BitVec 32) (env : Env) (x : Slot) : Except Slot Slot :=
  let x := { x with pid := pid, state := .used, trapframe := env.trapframe }
  if env.trapframe = 0 then .error (freeproc x)
  else
    let x := { x with pagetable := env.pagetable }
    if env.pagetable = 0 then .error (freeproc x) else .ok x

/-- What `kfork` copies from the parent `p`, before it releases `np->lock`. -/
def copyproc (p : Slot) (env : Env) (x : Slot) : Except Slot Slot :=
  if env.uvmcopy then
    .ok { x with
      sz := p.sz, ofile := fun fd => if p.ofile fd ≠ 0 then p.ofile fd else x.ofile fd, cwd := p.cwd }
  else .error (freeproc x)

/-- `wakeup(chan)` by the process `me`. -/
def wakeup (me : Fin nproc) (chan : Option Chan) (slot : Table) : Table := fun i =>
  if i ≠ me ∧ (slot i).state = .sleeping ∧ (slot i).chan = chan then { slot i with state := .runnable }
  else slot i

/-- One round of the loop of `reparent`. -/
def reparentSlot (initproc p : Fin nproc) (slot : Table) (pp : Fin nproc) : Table :=
  if (slot pp).parent = some p then
    wakeup p (some (.proc initproc)) (update slot pp { slot pp with parent := some initproc })
  else slot

def reparent (initproc p : Fin nproc) (slot : Table) : Table :=
  (List.finRange nproc).foldl (reparentSlot initproc p) slot

/-- The section of `kexit` under `wait_lock`. -/
def exitSection (initproc p : Fin nproc) (status : BitVec 32) (slot : Table) : Table :=
  let slot := reparent initproc p slot
  let slot := wakeup p ((slot p).parent.map .proc) slot
  update slot p { slot p with xstate := status, state := .zombie }

/-- The first exited child of `p` that the scan of `kwait` meets. -/
def exitedChild (slot : Table) (p : Fin nproc) : Option (Fin nproc) :=
  (List.finRange nproc).find? fun pp => (slot pp).parent = some p ∧ (slot pp).state = .zombie

/-- `havekids` after a scan that met no exited child. -/
def havekids (slot : Table) (p : Fin nproc) : Bool :=
  (List.finRange nproc).any fun pp => (slot pp).parent = some p

/-- What `kkill` does to a slot that has the pid. -/
def killSlot (x : Slot) : Slot :=
  { x with killed := true, state := if x.state = .sleeping then .runnable else x.state }

/-! ## The system -/

/-- Where a process is in the calls of this file: before the section that the constructor names. -/
inductive Pc
  /-- In none of them. -/
  | user
  /-- `kfork`: `allocproc` looks at slot `k`. -/
  | alloc (k : Nat)
  /-- `kfork`: the child `np` gets its parent. -/
  | link (np : Fin nproc) (pid : BitVec 32)
  /-- `kfork`: the child `np` becomes runnable. -/
  | start (np : Fin nproc) (pid : BitVec 32)
  /-- `kexit`: the file `fd` is closed, or the current directory is put. -/
  | closing (status : BitVec 32) (fd : Nat)
  /-- `kexit`: the section under `wait_lock`. -/
  | exiting (status : BitVec 32)
  /-- `kwait`, with an address for the status or without one. -/
  | wait (addr : Bool)
  /-- `kkill`: slot `k` is looked at. -/
  | kill (pid : BitVec 32) (k : Nat)
  deriving DecidableEq

/-- The process table, where each process is, and the history: how many `kfork`s have taken a pid,
the pid of the process that linked each child, and the pids with the statuses of the processes that
have exited and of those that `kwait` has returned. -/
structure Sys where
  slot : Table
  pc : Fin nproc → Pc
  nextpid : BitVec 32
  initproc : Fin nproc
  forks : Nat
  origin : Fin nproc → Option (BitVec 32)
  exits : List (BitVec 32 × BitVec 32)
  reaps : List (BitVec 32 × BitVec 32)

def Sys.setSlot (s : Sys) (p : Fin nproc) (x : Slot) : Sys :=
  { s with slot := update s.slot p x }

def Sys.setPc (s : Sys) (p : Fin nproc) (pc : Pc) : Sys :=
  { s with pc := update s.pc p pc }

/-- The table after `userinit`, which runs before any process: `initproc` is the first slot, runnable
and in the root directory. -/
def userinit (env : Env) (root : Nat) : Sys :=
  { slot := update (fun _ => {}) ⟨0, by decide⟩
      { state := .runnable, pid := 1, trapframe := env.trapframe, pagetable := env.pagetable, cwd := root }
    pc := fun _ => .user
    nextpid := 2
    initproc := ⟨0, by decide⟩
    forks := 0
    origin := fun _ => none
    exits := []
    reaps := [] }

inductive Act
  /-- The scheduler runs `p`; a process that has slept clears its channel. -/
  | schedule (p : Fin nproc)
  | yield (p : Fin nproc)
  | sleep (p : Fin nproc) (addr : Nat)
  /-- A `wakeup(chan)` of another file, or of an interrupt, looks at slot `p`. -/
  | wakeup (p : Fin nproc) (chan : Chan)
  | setkilled (p : Fin nproc)
  /-- A system call changes the open files or the current directory of `p`. -/
  | files (p : Fin nproc) (ofile : Fin nofile → Nat) (cwd : Nat)
  /-- A system call changes the memory of `p`. -/
  | memory (p : Fin nproc) (pagetable sz : Nat)
  | kfork (p : Fin nproc)
  | kexit (p : Fin nproc) (status : BitVec 32)
  | kwait (p : Fin nproc) (addr : Bool)
  | kkill (p : Fin nproc) (pid : BitVec 32)
  /-- The next section of the call that `p` is in. -/
  | go (p : Fin nproc) (env : Env)

/-- The next section of the call that `p` is in: the value that the call returns, if it returns, and
the state. -/
def proceed (s : Sys) (p : Fin nproc) (env : Env) : Option (Option (BitVec 32) × Sys) :=
  match s.pc p with
  | .user => none
  | .alloc k =>
      if h : k < nproc then
        let np : Fin nproc := ⟨k, h⟩
        if (s.slot np).state = .unused then
          let s' := { s with nextpid := s.nextpid + 1, forks := s.forks + 1 }
          match allocproc s.nextpid env (s.slot np) >>= copyproc (s.slot p) env with
          | .error x => some (some (-1), (s'.setSlot np x).setPc p .user)
          | .ok x => some (none, ((s'.setSlot np x).setPc np .user).setPc p (.link np s.nextpid))
        else some (none, s.setPc p (.alloc (k + 1)))
      else some (some (-1), s.setPc p .user)
  | .link np pid =>
      some (none, { (s.setSlot np { s.slot np with parent := some p }).setPc p (.start np pid) with
        origin := update s.origin np (some (s.slot p).pid) })
  | .start np pid =>
      some (some pid, (s.setSlot np { s.slot np with state := .runnable }).setPc p .user)
  | .closing status fd =>
      if h : fd < nofile then
        some (none, (s.setSlot p { s.slot p with
          ofile := update (s.slot p).ofile ⟨fd, h⟩ 0 }).setPc p (.closing status (fd + 1)))
      else some (none, (s.setSlot p { s.slot p with cwd := 0 }).setPc p (.exiting status))
  | .exiting status =>
      some (none, { s.setPc p .user with
        slot := exitSection s.initproc p status s.slot
        exits := s.exits ++ [((s.slot p).pid, status)] })
  | .wait addr =>
      match exitedChild s.slot p with
      | some pp =>
          if addr ∧ !env.copyout then some (some (-1), s.setPc p .user)
          else some (some (s.slot pp).pid, { (s.setSlot pp (freeproc (s.slot pp))).setPc p .user with
            origin := update s.origin pp none
            reaps := s.reaps ++ [((s.slot pp).pid, (s.slot pp).xstate)] })
      | none =>
          if !havekids s.slot p || (s.slot p).killed then some (some (-1), s.setPc p .user)
          else some (none, s.setSlot p { s.slot p with chan := some (.proc p), state := .sleeping })
  | .kill pid k =>
      if h : k < nproc then
        let q : Fin nproc := ⟨k, h⟩
        if (s.slot q).pid = pid then some (some 0, (s.setSlot q (killSlot (s.slot q))).setPc p .user)
        else some (none, s.setPc p (.kill pid (k + 1)))
      else some (some (-1), s.setPc p .user)

/-- A call of this file, other than `kwait`, sleeps only while `kexit` closes files. -/
def Pc.maySleep : Pc → Bool
  | .user => true
  | .closing _ _ => true
  | _ => false

/-- `p` runs and is in none of the calls. -/
def Sys.free (s : Sys) (p : Fin nproc) : Bool := (s.slot p).state = .running ∧ s.pc p = .user

/-- A step: the value that a call returns in it, if one returns, and the state. -/
def exec (s : Sys) : Act → Option (Except Stop (Option (BitVec 32) × Sys))
  | .schedule p =>
      if (s.slot p).state = .runnable then
        some (.ok (none, s.setSlot p { s.slot p with state := .running, chan := none }))
      else none
  | .yield p =>
      if (s.slot p).state = .running then
        some (.ok (none, s.setSlot p { s.slot p with state := .runnable }))
      else none
  | .sleep p addr =>
      if (s.slot p).state = .running ∧ (s.pc p).maySleep then
        some (.ok (none, s.setSlot p { s.slot p with chan := some (.other addr), state := .sleeping }))
      else none
  | .wakeup p chan =>
      if (s.slot p).state = .sleeping ∧ (s.slot p).chan = some chan then
        some (.ok (none, s.setSlot p { s.slot p with state := .runnable }))
      else none
  | .setkilled p =>
      if (s.slot p).state = .running then some (.ok (none, s.setSlot p { s.slot p with killed := true }))
      else none
  | .files p ofile cwd =>
      if s.free p then some (.ok (none, s.setSlot p { s.slot p with ofile := ofile, cwd := cwd })) else none
  | .memory p pagetable sz =>
      if s.free p then some (.ok (none, s.setSlot p { s.slot p with pagetable := pagetable, sz := sz }))
      else none
  | .kfork p => if s.free p then some (.ok (none, s.setPc p (.alloc 0))) else none
  | .kexit p status =>
      if s.free p then
        if p = s.initproc then some (.error (.panic .initExiting))
        else some (.ok (none, s.setPc p (.closing status 0)))
      else none
  | .kwait p addr => if s.free p then some (.ok (none, s.setPc p (.wait addr))) else none
  | .kkill p pid => if s.free p then some (.ok (none, s.setPc p (.kill pid 0))) else none
  | .go p env => if (s.slot p).state = .running then (proceed s p env).map .ok else none

def step (s : Sys) (a : Act) : Option (Except Stop Sys) := (exec s a).map fun r => r.map Prod.snd

end Xv6.Proc
