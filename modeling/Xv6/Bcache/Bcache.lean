import Mathlib.Data.List.FinRange
import Xv6.Lib.Dll
import Xv6.Lib.Run
import Xv6.Param

/-!
# The list of buffers (`bio.c`)

The buffer cache down to the `prev` and `next` fields, the sleep locks and the reference counts, for
any number of processes. A section under `bcache.lock` is one step, and so is each change of a sleep
lock; what is in the buffers is left out here.
-/

namespace Xv6.Bcache

open Lib Dll Function

/-- `bcache.head` or `bcache.buf[i]`. -/
inductive Node
  | head
  | buf (i : Fin nbuf)
  deriving DecidableEq

structure Buf where
  valid : Bool
  dev : Nat
  blockno : Nat
  refcnt : BitVec 32
  lock : Option Nat

/-- Where a process is with a buffer that its `bget` has counted: it waits for the lock, it holds
the lock, or its `brelse` has given the lock back and not yet the reference. -/
inductive Phase
  | waiting
  | holding
  | releasing
  deriving DecidableEq

structure Use where
  proc : Nat
  buf : Fin nbuf
  phase : Phase
  deriving DecidableEq

/-- The cache, and the history: who uses which buffer, how many `bpin`s of a buffer no `bunpin` has
undone, and the time of the latest `brelse` that brought its count to 0 (0 if there was none). -/
structure Cache where
  links : Links Node
  buf : Fin nbuf → Buf
  uses : List Use
  pins : Fin nbuf → Nat
  clock : Nat
  lastRelease : Fin nbuf → Nat

def Cache.setBuf (s : Cache) (i : Fin nbuf) (b : Buf) : Cache := { s with buf := update s.buf i b }

/-- The loop of `binit` puts the buffers at the front one after the other. -/
def binit : Cache where
  links := (List.finRange nbuf).foldl (fun L i => L.pushFront .head (.buf i)) ⟨fun _ => .head, fun _ => .head⟩
  buf := fun _ => ⟨false, 0, 0, 0, none⟩
  uses := []
  pins := fun _ => 0
  clock := 0
  lastRelease := fun _ => 0

/-! ## The sections -/

/-- The test of the first loop of `bget`. -/
def Cache.holds (s : Cache) (dev blockno : Nat) : Node → Bool
  | .head => false
  | .buf i => (s.buf i).dev = dev ∧ (s.buf i).blockno = blockno

/-- The test of the second loop. -/
def Cache.unused (s : Cache) : Node → Bool
  | .head => false
  | .buf i => (s.buf i).refcnt = 0

/-- A loop from `bcache.head` along a field, for as many rounds as there are nodes. -/
def Cache.find (f : Node → Node) (P : Node → Bool) : Option (Option Node) :=
  scan f .head P (nbuf + 1) (f .head)

/-- The section of `bget`: the buffer, with its new reference. `none` says that a loop does not
end. -/
def bget (s : Cache) (dev blockno : Nat) : Option (Except Stop (Fin nbuf × Cache)) :=
  match Cache.find s.links.next (s.holds dev blockno) with
  | some (some (.buf i)) => some (.ok (i, s.setBuf i { s.buf i with refcnt := (s.buf i).refcnt + 1 }))
  | some none =>
      match Cache.find s.links.prev s.unused with
      | some (some (.buf i)) =>
          some (.ok (i, s.setBuf i { s.buf i with dev := dev, blockno := blockno, valid := false, refcnt := 1 }))
      | some none => some (.error (.panic .bget))
      | _ => none
  | _ => none

/-- The section of `brelse` under `bcache.lock`. -/
def brelse (s : Cache) (i : Fin nbuf) : Cache :=
  let s := s.setBuf i { s.buf i with refcnt := (s.buf i).refcnt - 1 }
  if (s.buf i).refcnt = 0 then
    { s with
      links := (s.links.unlink (.buf i)).pushFront .head (.buf i)
      clock := s.clock + 1
      lastRelease := update s.lastRelease i (s.clock + 1) }
  else s

def bpin (s : Cache) (i : Fin nbuf) : Cache :=
  s.setBuf i { s.buf i with refcnt := (s.buf i).refcnt + 1 }

def bunpin (s : Cache) (i : Fin nbuf) : Cache :=
  s.setBuf i { s.buf i with refcnt := (s.buf i).refcnt - 1 }

/-! ## The system -/

inductive Act
  /-- `bget`, up to `acquiresleep`. -/
  | bget (p dev blockno : Nat)
  /-- `acquiresleep` in `bget` gets the lock. -/
  | acquire (p : Nat) (i : Fin nbuf)
  /-- `brelse`, up to `acquire(&bcache.lock)`. -/
  | release (p : Nat) (i : Fin nbuf)
  /-- The rest of `brelse`. -/
  | brelse (p : Nat) (i : Fin nbuf)
  | bpin (i : Fin nbuf)
  /-- Each `bunpin` undoes a `bpin`. -/
  | bunpin (i : Fin nbuf)

def Cache.setUses (s : Cache) (uses : List Use) : Cache := { s with uses := uses }

def Cache.setPins (s : Cache) (i : Fin nbuf) (n : Nat) : Cache := { s with pins := update s.pins i n }

def Cache.setLock (s : Cache) (i : Fin nbuf) (lock : Option Nat) : Cache := s.setBuf i { s.buf i with lock := lock }

def step (s : Cache) : Act → Option (Except Stop Cache)
  | .bget p dev blockno =>
      (bget s dev blockno).map fun r => r.map fun (i, s) => s.setUses (⟨p, i, .waiting⟩ :: s.uses)
  | .acquire p i =>
      if ⟨p, i, .waiting⟩ ∈ s.uses ∧ (s.buf i).lock = none then
        some (.ok ((s.setLock i (some p)).setUses (⟨p, i, .holding⟩ :: s.uses.erase ⟨p, i, .waiting⟩)))
      else none
  | .release p i =>
      -- holdingsleep(&b->lock)
      if (s.buf i).lock = some p then
        if ⟨p, i, .holding⟩ ∈ s.uses then
          some (.ok ((s.setLock i none).setUses (⟨p, i, .releasing⟩ :: s.uses.erase ⟨p, i, .holding⟩)))
        else none
      else some (.error (.panic .brelse))
  | .brelse p i =>
      if ⟨p, i, .releasing⟩ ∈ s.uses then
        some (.ok ((brelse s i).setUses (s.uses.erase ⟨p, i, .releasing⟩)))
      else none
  | .bpin i => some (.ok ((bpin s i).setPins i (s.pins i + 1)))
  | .bunpin i =>
      if 0 < s.pins i then some (.ok ((bunpin s i).setPins i (s.pins i - 1))) else none

end Xv6.Bcache
