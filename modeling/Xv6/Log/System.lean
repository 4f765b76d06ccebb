import Xv6.Log.Log

/-!
# Processes that use the log

Any number of processes call `begin_op`, `bread`, `log_write`, `brelse` and `end_op`, in any order of
steps. A section under `log.lock` is one step; `commit` runs without the lock, and each part of it
up to the next call that can sleep is one step. A step that sleeps is not enabled: the process
tests its condition again when it is taken later.
-/

namespace Xv6.Log

open Lib

/-- Where a process is in `commit`, in the order of the code. -/
inductive Pc
  | start
  | logBlock (tail : Nat)
  | logCopy (tail dst : Nat)
  | head
  | homeBlock (tail : Nat)
  | homeCopy (tail lbuf : Nat)
  | erase
  | finish
  deriving DecidableEq, Repr

/-- Where a process is: outside, in an operation that has logged `blocks`, or in `commit`. -/
inductive Phase
  | idle
  | op (blocks : List Nat)
  | commit (pc : Pc)
  deriving DecidableEq, Repr

inductive Act
  | beginOp (p : Nat)
  | bread (p b : Nat)
  | store (p i : Nat) (data : Block)
  | logWrite (p i : Nat)
  | brelse (p i : Nat)
  | endOp (p : Nat)
  | commit (p : Nat)

structure Conc where
  sys : Sys
  phase : List Phase

/-- One step of `commit` and of the section of `end_op` after it; `none` is its return. -/
def commitStep (p : Nat) : Pc → K (Option Pc)
  | .start => do
      let s ← get
      if s.log.lh.length > 0 then pure (some (.logBlock 0)) else pure (some .finish)
  | .logBlock tail => do
      let s ← get
      if tail < s.log.lh.length then do
        let dst ← bread p s.log.dev (s.log.start + tail + 1)
        pure (some (.logCopy tail dst))
      else pure (some .head)
  | .logCopy tail dst => do
      let s ← get
      writeLogCopy p s.log.dev (s.log.lh.getD tail 0) dst
      pure (some (.logBlock (tail + 1)))
  | .head => do
      recordCommit
      writeHead p
      pure (some (.homeBlock 0))
  | .homeBlock tail => do
      let s ← get
      if tail < s.log.lh.length then do
        let lbuf ← bread p s.log.dev (s.log.start + tail + 1)
        pure (some (.homeCopy tail lbuf))
      else do
        clearHead
        pure (some .erase)
  | .homeCopy tail lbuf => do
      let s ← get
      installCopy p false s.log.dev (s.log.lh.getD tail 0) lbuf
      pure (some (.homeBlock (tail + 1)))
  | .erase => do
      writeHead p
      pure (some .finish)
  | .finish => do
      endCommit
      pure none

/-- A step that runs `m` and then moves on to the phases `next` gives. -/
def Conc.exec {α : Type} (c : Conc) (m : K α) (next : α → List Phase) : Option (Except Panic Conc) :=
  match m c.sys with
  | .ok a t => some (.ok ⟨t, next a⟩)
  | .error (.panic e) _ => some (.error e)
  | .error .sleep _ => none

/-- The phases after a step of `commit`. -/
def Conc.after (c : Conc) (p : Nat) (r : Option Pc) : List Phase :=
  c.phase.set p (match r with | some pc => .commit pc | none => .idle)

/-- The process runs code of its own: it is not in `commit`. -/
def Conc.runs (c : Conc) (p : Nat) : Bool :=
  match c.phase[p]? with
  | some .idle | some (.op _) => true
  | _ => false

/-- One step of the system. Clients call `log_write` on a buffer they hold, and bracket it by
`begin_op` and `end_op`. -/
def step (c : Conc) : Act → Option (Except Panic Conc)
  | .beginOp p =>
      match c.phase[p]? with
      | some .idle => c.exec (beginOp p) fun _ => c.phase.set p (.op [])
      | _ => none
  | .bread p b => if c.runs p then c.exec (bread p c.sys.log.dev b) fun _ => c.phase else none
  | .store p i data =>
      if c.runs p ∧ holdingsleep c.sys p i then
        c.exec (modify fun s => s.setBuf i { s.buf i with data := data }) fun _ => c.phase
      else none
  | .logWrite p i =>
      match c.phase[p]? with
      | some (.op bs) =>
          if holdingsleep c.sys p i then
            c.exec (logWrite p i) fun _ => c.phase.set p (.op (bs.insert (c.sys.buf i).blockno))
          else none
      | _ => none
  | .brelse p i => if c.runs p then c.exec (brelse p i) fun _ => c.phase else none
  | .endOp p =>
      match c.phase[p]? with
      | some (.op _) => c.exec (endOp p) fun r => c.phase.set p (if r then .commit .start else .idle)
      | _ => none
  | .commit p =>
      match c.phase[p]? with
      | some (.commit pc) =>
          c.exec (commitStep p pc) (c.after p)
      | _ => none

/-- The machine after boot, with `n` processes and an empty log at `start` of the disk `d`. -/
def boot (d : Nat → Block) (start n : Nat) : Conc := ⟨binit d rootDev start, List.replicate n .idle⟩

/-- An operation logs at most `MAXOPBLOCKS` distinct blocks. -/
def OpBound (c : Conc) : Act → Prop
  | .logWrite p i => ∀ bs, c.phase[p]? = some (.op bs) →
      (bs.insert (c.sys.buf i).blockno).length ≤ maxOpBlocks
  | _ => True

/-- A `log_write` of a block that is in the header finds the header not full. -/
def AbsorbsInRoom (c : Conc) : Act → Prop
  | .logWrite p i => ∀ bs, c.phase[p]? = some (.op bs) → holdingsleep c.sys p i →
      (c.sys.buf i).blockno ∈ c.sys.log.lh → c.sys.log.lh.length < logBlocks
  | _ => True

/-- The log area: the header block and the blocks after it. -/
def InLog (start b : Nat) : Prop := start ≤ b ∧ b ≤ start + logBlocks

instance (start b : Nat) : Decidable (InLog start b) := inferInstanceAs (Decidable (_ ∧ _))

/-- Nobody logs a block of the log area. -/
def OutOfLog (c : Conc) : Act → Prop
  | .logWrite _ i => ¬ InLog c.sys.log.start (c.sys.buf i).blockno
  | _ => True

/-- What the file system keeps to when it uses the log. -/
def ClientOk (c : Conc) (a : Act) : Prop := OpBound c a ∧ OutOfLog c a

/-- Buffers are referenced by the log's pins only. -/
def OnlyPins (s : Sys) : Prop := ∀ i ∈ s.lru, (s.buf i).refcnt =
  if (s.buf i).dev = s.log.dev ∧ (s.buf i).blockno ∈ s.log.lh then 1 else 0

/-- The blocks that are pinned: those of the header that `install_trans` has not passed. -/
def Pc.installed : Pc → Nat
  | .homeBlock tail | .homeCopy tail _ => tail
  | _ => 0

@[inherit_doc Pc.installed]
def Phase.installed : Phase → Nat
  | .commit pc => pc.installed
  | _ => 0

def Phase.ops : Phase → Nat
  | .op _ => 1
  | _ => 0

def Phase.commits : Phase → Nat
  | .commit _ => 1
  | _ => 0

/-- The blocks an operation may still log. -/
def Phase.reserve : Phase → Nat
  | .op bs => maxOpBlocks - bs.length
  | _ => 0

def Conc.total (c : Conc) (f : Phase → Nat) : Nat := (c.phase.map f).sum

@[inherit_doc Pc.installed]
def Conc.pinned (c : Conc) : List Nat := c.sys.log.lh.drop (c.total Phase.installed)

end Xv6.Log
