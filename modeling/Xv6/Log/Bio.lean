import Mathlib.Logic.Function.Basic
import Xv6.Param
import Xv6.Lib.Bytes

/-!
# The buffer cache (`bio.c`) over a block device

The kernel state of the block layer and of the log. The list through `prev`/`next` is `lru`: the
numbers of the buffers from `head.next` to `head.prev`. The device (`ramdisk_rw`, `sd_disk_rw`)
maps a block number to the contents of the block; each call reads or writes one whole block.
`p` is the process that runs the code.
-/

namespace Xv6.Log

open Lib

/-- The contents of a block. Offsets below `bsize` are used. -/
abbrev Block := Bytes

structure Buf where
  valid : Bool
  dev : Nat
  blockno : Nat
  lock : Option Nat
  refcnt : Nat
  data : Block

/-- The in-memory log (`struct log`). The header `lh.block[0..n)` is the list `lh`. -/
structure LogSt where
  start : Nat
  outstanding : Int
  committing : Bool
  dev : Nat
  lh : List Nat

/-- What the history of a run records. -/
inductive Event
  | pin (b : Nat)
  | unpin (b : Nat)
  | beginOp (p : Nat)
  | logWrite (p b : Nat)
  | endOp (p : Nat)
  | commit (bs : List Nat)
  deriving DecidableEq, Repr

/-- The disk, the buffer cache and the log. `writes` and `hist` are history: the blocks written to
the device, and the events of the log, both in order. -/
structure Sys where
  disk : Nat → Block
  buf : Nat → Buf
  lru : List Nat
  log : LogSt
  writes : List (Nat × Block)
  hist : List Event

abbrev K := EStateM Stop Sys

namespace Sys

def setBuf (s : Sys) (i : Nat) (b : Buf) : Sys := { s with buf := Function.update s.buf i b }

def record (s : Sys) (e : Event) : Sys := { s with hist := s.hist ++ [e] }

end Sys

/-- The state after `binit`, with nothing cached, over the disk `d` and a log at `start`. -/
def binit (d : Nat → Block) (dev start : Nat) : Sys where
  disk := d
  buf := fun _ => ⟨false, 0, 0, none, 0, fun _ => 0⟩
  lru := (List.range nbuf).reverse
  log := ⟨start, 0, false, dev, []⟩
  writes := []
  hist := []

/-! ## Sleep locks of buffers -/

def acquiresleep (p i : Nat) : K Unit := do
  let s ← get
  if (s.buf i).lock.isSome then throw .sleep
  else set (s.setBuf i { s.buf i with lock := some p })

def releasesleep (i : Nat) : K Unit :=
  modify fun s => s.setBuf i { s.buf i with lock := none }

def holdingsleep (s : Sys) (p i : Nat) : Bool := (s.buf i).lock == some p

/-! ## `bget`, `bread`, `bwrite`, `brelse`, `bpin`, `bunpin` -/

/-- The cached buffer of a block: the first one from the front of the list. -/
def cached (s : Sys) (dev blockno : Nat) : Option Nat :=
  s.lru.find? fun i => (s.buf i).dev == dev && (s.buf i).blockno == blockno

/-- The least recently used buffer that nobody references. -/
def unused (s : Sys) : Option Nat := s.lru.reverse.find? fun i => (s.buf i).refcnt == 0

def bget (p dev blockno : Nat) : K Nat := do
  let s ← get
  match cached s dev blockno with
  | some i =>
      set (s.setBuf i { s.buf i with refcnt := (s.buf i).refcnt + 1 })
      acquiresleep p i
      pure i
  | none =>
      match unused s with
      | some i =>
          set (s.setBuf i
            { s.buf i with dev := dev, blockno := blockno, valid := false, refcnt := 1 })
          acquiresleep p i
          pure i
      | none => throw (.panic .bget)

/-- One request to the device for a locked buffer. -/
def diskRw (p i : Nat) (write : Bool) : K Unit := do
  let s ← get
  if ¬ holdingsleep s p i then throw (.panic .diskNotLocked)
  else if write then
    set { s with
      disk := Function.update s.disk (s.buf i).blockno (s.buf i).data
      writes := s.writes ++ [((s.buf i).blockno, (s.buf i).data)] }
  else set (s.setBuf i { s.buf i with data := s.disk (s.buf i).blockno, valid := true })

def bread (p dev blockno : Nat) : K Nat := do
  let i ← bget p dev blockno
  let s ← get
  if (s.buf i).valid then pure i
  else do
    diskRw p i false
    pure i

def bwrite (p i : Nat) : K Unit := do
  let s ← get
  if ¬ holdingsleep s p i then throw (.panic .bwrite)
  else diskRw p i true

def brelse (p i : Nat) : K Unit := do
  let s ← get
  if ¬ holdingsleep s p i then throw (.panic .brelse)
  else do
    releasesleep i
    let s ← get
    let s := s.setBuf i { s.buf i with refcnt := (s.buf i).refcnt - 1 }
    -- no one is waiting for it: to the front of the list
    if (s.buf i).refcnt = 0 then set { s with lru := i :: s.lru.erase i } else set s

def bpin (i : Nat) : K Unit :=
  modify fun s => (s.setBuf i { s.buf i with refcnt := (s.buf i).refcnt + 1 }).record
    (.pin (s.buf i).blockno)

def bunpin (i : Nat) : K Unit :=
  modify fun s => (s.setBuf i { s.buf i with refcnt := (s.buf i).refcnt - 1 }).record
    (.unpin (s.buf i).blockno)

/-- `memmove(to->data, from->data, BSIZE)`. -/
def copyData (dst src : Nat) : K Unit :=
  modify fun s => s.setBuf dst { s.buf dst with data := (s.buf src).data }

end Xv6.Log
