import Xv6.Log.Bio

/-!
# The redo log (`log.c`)

The on-disk header is the block `start`: `n` and then `block[0..n)`, 32 bits each; the logged
blocks follow it. Each section that runs under `log.lock` is one function. `sleep` on the log is
the stop `sleep`: the caller tests its condition again when it runs the function again.
-/

namespace Xv6.Log

open Lib

/-! ## The header block -/

/-- `hb->n = n` and `hb->block[i] = block[i]`. -/
def putHead (lh : List Nat) (b : Block) : Block :=
  lh.zipIdx.foldl (fun b x => store 4 b (4 + 4 * x.2) x.1) (store 4 b 0 lh.length)

/-- `n` and `block[0..n)` of a header block. A negative `n` is an empty header: the loops over it
do not run. -/
def getHead (b : Block) : List Nat :=
  if load 4 b 0 < 2 ^ 31 then (List.range (load 4 b 0)).map fun i => load 4 b (4 + 4 * i) else []

def Sys.setLh (s : Sys) (lh : List Nat) : Sys := { s with log := { s.log with lh := lh } }

def readHead (p : Nat) : K Unit := do
  let s ← get
  let i ← bread p s.log.dev s.log.start
  modify fun s => s.setLh (getHead (s.buf i).data)
  brelse p i

def writeHead (p : Nat) : K Unit := do
  let s ← get
  let i ← bread p s.log.dev s.log.start
  modify fun s => s.setBuf i { s.buf i with data := putHead s.log.lh (s.buf i).data }
  bwrite p i
  brelse p i

/-! ## Writing the log and installing it -/

/-- The part of an iteration of `write_log` that runs with the log block in `dst`. -/
def writeLogCopy (p dev home dst : Nat) : K Unit := do
  let src ← bread p dev home
  copyData dst src
  bwrite p dst
  brelse p src
  brelse p dst

/-- One iteration of `write_log`: copy a modified block from the cache to the log. -/
def writeLogBody (p tail : Nat) : K Unit := do
  let s ← get
  let dst ← bread p s.log.dev (s.log.start + tail + 1)
  writeLogCopy p s.log.dev (s.log.lh.getD tail 0) dst

def writeLog (p : Nat) : K Unit := do
  let s ← get
  forN (writeLogBody p) s.log.lh.length 0

/-- The part of an iteration of `install_trans` that runs with the log block in `lbuf`. -/
def installCopy (p : Nat) (recovering : Bool) (dev home lbuf : Nat) : K Unit := do
  let dbuf ← bread p dev home
  copyData dbuf lbuf
  bwrite p dbuf
  if ¬ recovering then bunpin dbuf
  brelse p lbuf
  brelse p dbuf

/-- One iteration of `install_trans`: copy a committed block from the log to its home. -/
def installBody (p : Nat) (recovering : Bool) (tail : Nat) : K Unit := do
  let s ← get
  let lbuf ← bread p s.log.dev (s.log.start + tail + 1)
  installCopy p recovering s.log.dev (s.log.lh.getD tail 0) lbuf

def installTrans (p : Nat) (recovering : Bool) : K Unit := do
  let s ← get
  forN (installBody p recovering) s.log.lh.length 0

/-- `log.lh.n = 0`. -/
def clearHead : K Unit := modify fun s => s.setLh []

def recoverFromLog (p : Nat) : K Unit := do
  readHead p
  installTrans p true
  clearHead
  writeHead p

def recordCommit : K Unit := modify fun s => s.record (.commit s.log.lh)

def commit (p : Nat) : K Unit := do
  let s ← get
  if s.log.lh.length > 0 then do
    writeLog p
    recordCommit
    writeHead p
    installTrans p false
    clearHead
    writeHead p

/-! ## Operations -/

def beginOp (p : Nat) : K Unit := do
  let s ← get
  if s.log.committing then throw .sleep
  else if (s.log.lh.length : Int) + (s.log.outstanding + 1) * maxOpBlocks > logBlocks then throw .sleep
  else set ({ s with log := { s.log with outstanding := s.log.outstanding + 1 } }.record (.beginOp p))

/-- The first section of `end_op`; the result is `do_commit`. -/
def endOp (p : Nat) : K Bool := do
  modify fun s => { s with log := { s.log with outstanding := s.log.outstanding - 1 } }.record (.endOp p)
  let s ← get
  if s.log.committing then throw (.panic .logCommitting)
  else if s.log.outstanding = 0 then do
    set { s with log := { s.log with committing := true } }
    pure true
  else pure false

/-- The last section of `end_op`, after `commit`. -/
def endCommit : K Unit := modify fun s => { s with log := { s.log with committing := false } }

def logWrite (p i : Nat) : K Unit := do
  let s ← get
  if s.log.lh.length ≥ logBlocks then throw (.panic .tooBig)
  else if s.log.outstanding < 1 then throw (.panic .outsideTrans)
  else do
    modify fun s => s.record (.logWrite p (s.buf i).blockno)
    -- absorption: a block that is in the log keeps its place
    if (s.buf i).blockno ∈ s.log.lh then pure ()
    else do
      bpin i
      modify fun s => s.setLh (s.log.lh ++ [(s.buf i).blockno])

end Xv6.Log
