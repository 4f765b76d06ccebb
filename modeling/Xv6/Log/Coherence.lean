import Xv6.Log.System

/-!
# What clients give to the blocks

The processes of `System.lean`, with a history of what each block was given: a change of a buffer's
data counts for its block when `log_write` is called on the buffer.
-/

namespace Xv6.Log

open Lib Function

/-- The system, the contents that the latest `log_write` gave to each block, and the buffers whose
data has changed since the latest `log_write` on them. -/
structure Coh where
  conc : Conc
  given : Nat → Option Block
  touched : Nat → Bool

/-- The contents most recently given to a block: by a `log_write`, else those of the disk. -/
def current (given : Nat → Option Block) (disk : Nat → Block) (b : Nat) : Block := (given b).getD (disk b)

/-- The history after a step to `c`. -/
def Coh.after (s : Coh) (c : Conc) : Act → Coh
  | .store _ i _ => { s with conc := c, touched := update s.touched i true }
  | .logWrite _ i =>
      { conc := c
        given := update s.given (s.conc.sys.buf i).blockno (some (s.conc.sys.buf i).data)
        touched := update s.touched i false }
  | _ => { s with conc := c }

def Coh.step (s : Coh) (a : Act) : Option (Except Panic Coh) :=
  (Log.step s.conc a).map fun r => r.map fun c => s.after c a

/-- A client that has changed a buffer's data calls `log_write` on it before `brelse`, and only for
blocks outside the log. -/
def Coh.Ok (s : Coh) : Act → Prop
  | .brelse _ i => s.touched i = false
  | a => OutOfLog s.conc a

def Coh.boot (d : Nat → Block) (start n : Nat) : Coh := ⟨Log.boot d start n, fun _ => none, fun _ => false⟩

/-- A valid buffer of the log's device whose data is not what the disk has. -/
def Sys.Dirty (s : Sys) (i : Nat) : Prop :=
  i ∈ s.lru ∧ (s.buf i).valid = true ∧ (s.buf i).dev = s.log.dev ∧ (s.buf i).data ≠ s.disk (s.buf i).blockno

end Xv6.Log
