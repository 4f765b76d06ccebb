import Xv6.Lib.Ring
import Xv6.Lib.Run
import Xv6.Param

/-!
# Pipes (`pipe.c`)

A section is what a process does from taking `pi->lock` until it gives the lock back, by returning
or by going to sleep. What the section learns from outside, whether the process has been killed and
what `copyin` and `copyout` return, is its environment.
-/

namespace Xv6.Pipes

open Xv6.Lib Function

abbrev Byte := BitVec 8

def pipeSize : Nat := 512

structure Pipe where
  data : Nat → Byte
  nread : BitVec 32
  nwrite : BitVec 32
  readopen : Bool
  writeopen : Bool

/-- The pipe that `pipealloc` makes in a page with the contents `data`. -/
def pipealloc (data : Nat → Byte) : Pipe := ⟨data, 0, 0, true, true⟩

/-- What the rounds of a loop find: the value of `killed(pr)`, the byte that `copyin` fetches or
that it fails, and whether `copyout` succeeds, for the round of index `i`. -/
structure Env where
  killed : Nat → Bool
  copyin : Nat → Option Byte
  copyout : Nat → Bool

/-- How a section ends: the call returns, or sleeps with the index it has reached. -/
inductive Ending
  | ret (r : Int)
  | asleep (i : Nat)
  deriving DecidableEq

/-- `pi->data[pi->nwrite++ % PIPESIZE] = ch`. -/
def Pipe.put (pi : Pipe) (ch : Byte) : Pipe :=
  { pi with data := update pi.data (pi.nwrite.toNat % pipeSize) ch, nwrite := pi.nwrite + 1 }

/-- The loop of `pipewrite` at index `i` with `k` bytes to go: how it ends, the pipe, and the bytes
stored. -/
def writeLoop (env : Env) : Nat → Nat → Pipe → Ending × Pipe × List Byte
  | 0, i, pi => (.ret i, pi, [])
  | k + 1, i, pi =>
      if !pi.readopen || env.killed i then (.ret (-1), pi, [])
      else if pi.nwrite = pi.nread + BitVec.ofNat 32 pipeSize then (.asleep i, pi, [])
      else
        match env.copyin i with
        | none => (.ret i, pi, [])
        | some ch =>
            let (e, pi', chs) := writeLoop env k (i + 1) (pi.put ch)
            (e, pi', ch :: chs)

/-- `pipewrite` of `n` bytes, from index `i` on. -/
def pipewrite (env : Env) (n : Int) (i : Nat) (pi : Pipe) : Ending × Pipe × List Byte :=
  writeLoop env (n.toNat - i) i pi

/-- The copying loop of `piperead` at index `i` with `k` bytes to go: the result, the pipe, and the
bytes copied out. -/
def readLoop (env : Env) : Nat → Nat → Pipe → Int × Pipe × List Byte
  | 0, i, pi => (i, pi, [])
  | k + 1, i, pi =>
      if pi.nread = pi.nwrite then (i, pi, [])
      else if !env.copyout i then (if i = 0 then -1 else i, pi, [])
      else
        let (r, pi', chs) := readLoop env k (i + 1) { pi with nread := pi.nread + 1 }
        (r, pi', pi.data (pi.nread.toNat % pipeSize) :: chs)

/-- `piperead` of `n` bytes, from the test of its first loop on. -/
def piperead (env : Env) (n : Int) (pi : Pipe) : Ending × Pipe × List Byte :=
  if pi.nread = pi.nwrite ∧ pi.writeopen then
    if env.killed 0 then (.ret (-1), pi, []) else (.asleep 0, pi, [])
  else
    let (r, pi', chs) := readLoop env n.toNat 0 pi
    (.ret r, pi', chs)

def pipeclose (pi : Pipe) (writable : Bool) : Pipe :=
  if writable then { pi with writeopen := false } else { pi with readopen := false }

/-! ## Readers and writers -/

/-- A call that is asleep. -/
inductive Call
  | write (n : Int) (i : Nat)
  | read (n : Int)
  deriving DecidableEq

/-- A pipe, the calls asleep on it, by process, and its history: the bytes stored by all calls of
`pipewrite` and the bytes copied out by all calls of `piperead`, in the order of the lock. `freed`
says that `pipeclose` has given the page back. -/
structure Sys where
  pipe : Pipe
  asleep : Nat → Option Call
  accepted : List Byte
  delivered : List Byte
  freed : Bool

def Sys.new (data : Nat → Byte) : Sys := ⟨pipealloc data, fun _ => none, [], [], false⟩

/-- A process calls `pipewrite` or `piperead`, a sleeping call goes on, or an end is closed. A
sleeping call may go on at any time: it tests again what it waits for. -/
inductive Act
  | write (t : Nat) (n : Int) (env : Env)
  | read (t : Nat) (n : Int) (env : Env)
  | wake (t : Nat) (env : Env)
  | close (writable : Bool)

/-- The call `t` sleeps on as the ending says. -/
def Sys.sleepOr (s : Sys) (t : Nat) (call : Nat → Call) : Ending → Nat → Option Call
  | .ret _ => update s.asleep t none
  | .asleep i => update s.asleep t (some (call i))

def Sys.write (s : Sys) (t : Nat) (n : Int) (i : Nat) (env : Env) : Ending × Sys :=
  let (e, pi, chs) := pipewrite env n i s.pipe
  (e, { s with
    pipe := pi, accepted := s.accepted ++ chs, asleep := s.sleepOr t (.write n) e })

def Sys.read (s : Sys) (t : Nat) (n : Int) (env : Env) : Ending × Sys :=
  let (e, pi, chs) := piperead env n s.pipe
  (e, { s with
    pipe := pi, delivered := s.delivered ++ chs, asleep := s.sleepOr t (fun _ => .read n) e })

def Sys.close (s : Sys) (writable : Bool) : Sys :=
  let pi := pipeclose s.pipe writable
  { s with pipe := pi, freed := !pi.readopen && !pi.writeopen }

/-- The section that an action runs: how the call ends, and the state after it. A process calls only
when it is not asleep, and nobody calls once the page is free. -/
def exec (s : Sys) : Act → Option (Ending × Sys)
  | .write t n env => if !s.freed ∧ s.asleep t = none then some (s.write t n 0 env) else none
  | .read t n env => if !s.freed ∧ s.asleep t = none then some (s.read t n env) else none
  | .wake t env =>
      if s.freed then none
      else
        match s.asleep t with
        | none => none
        | some (.write n i) => some (s.write t n i env)
        | some (.read n) => some (s.read t n env)
  | .close writable => if s.freed then none else some (.ret 0, s.close writable)

/-- The size and the environment of the section of `piperead` that an action runs. -/
def reading (s : Sys) : Act → Option (Int × Env)
  | .read _ n env => some (n, env)
  | .wake t env =>
      match s.asleep t with
      | some (.read n) => some (n, env)
      | _ => none
  | _ => none

def step (s : Sys) (a : Act) : Option (Except Stop Sys) := (exec s a).map fun r => .ok r.2

end Xv6.Pipes
