import Mathlib.Algebra.BigOperators.Group.Finset.Basic
import Xv6.Fs.File
import Xv6.Lib.Run

/-!
# Runs of the system, and who holds what

One step is one whole system call of a process, or one iteration of `ireclaim`. The descriptors of
the processes hold the entries of the table of open files; those and the current directories hold the
entries of the inode table.
-/

namespace Xv6.Fs

open Lib

/-! ## Steps -/

inductive Act
  | call (p : Nat) (c : Call)
  | reclaim (inum : Nat)

/-- A step that runs `m`. It stops the system when it panics; a call that sleeps forever is not a
step. -/
def Sys.exec (s : Sys) (m : M Unit) : Option (Except Panic Sys) :=
  match m s with
  | .ok _ t => some (.ok t)
  | .error (.panic e) _ => some (.error e)
  | .error .sleep _ => none

def step (s : Sys) : Act → Option (Except Panic Sys)
  | .call p c =>
      match s.proc p with
      | none => none
      | some pr => if c.enabled s then s.exec (call p pr c) else none
  | .reclaim inum => if 1 ≤ inum ∧ inum < s.fs.sb.ninodes then s.exec (lift (ireclaimOne inum)) else none

/-- An image that is not used yet. -/
def mount (sb : Super) (blk : Nat → Block) : Fs := ⟨sb, blk, fun _ => ⟨0, 0, 0, false, false, ⟨0, 0, 0, 0, 0, fun _ => 0⟩⟩, false, []⟩

/-- The machine after `userinit`: the first process is in the root directory. -/
def boot (sb : Super) (blk : Nat → Block) : Sys where
  fs := (mount sb blk).setInode 0 { (mount sb blk).inode 0 with dev := rootDev, inum := rootIno, ref := 1 }
  file := fun _ => ⟨.none, 0, false, false, 0, 0, 0, 0⟩
  pipe := fun _ => ⟨false, false, 0⟩
  npipe := 0
  proc := Function.update (fun _ => none) initproc (some ⟨fun _ => none, 0⟩)

/-! ## Holders -/

/-- The descriptors of a process that are open on the file `f`. -/
def fdsOf (q : Option Proc) (f : Nat) : Nat := ∑ fd ∈ Finset.range nofile, if q.bind (·.ofile fd) = some f then 1 else 0

/-- The (process, descriptor) slots that hold the file `f`. -/
def fdCount (P : Nat → Option Proc) (f : Nat) : Nat := ∑ p ∈ Finset.range nproc, fdsOf (P p) f

/-- The processes whose current directory is the entry `e` of the inode table. -/
def cwdCount (P : Nat → Option Proc) (e : Nat) : Nat := ∑ p ∈ Finset.range nproc, if (P p).map (·.cwd) = some e then 1 else 0

/-- A live file on the entry `e` of the inode table. -/
structure File.Holds (x : File) (e : Nat) : Prop where
  live : 0 < x.ref
  type : x.type = .inode ∨ x.type = .device
  ip : x.ip = e

instance (x : File) (e : Nat) : Decidable (x.Holds e) :=
  decidable_of_iff (0 < x.ref ∧ (x.type = .inode ∨ x.type = .device) ∧ x.ip = e)
    ⟨fun h => ⟨h.1, h.2.1, h.2.2⟩, fun h => ⟨h.live, h.type, h.ip⟩⟩

/-- The live files on the entry `e` of the inode table. -/
def fileCount (file : Nat → File) (e : Nat) : Nat := ∑ f ∈ Finset.range nfile, if (file f).Holds e then 1 else 0

/-- A live file that is an end of pipe `i`: the write end, if `w`. -/
structure File.IsEnd (x : File) (i : Nat) (w : Bool) : Prop where
  live : 0 < x.ref
  type : x.type = .pipe
  pipe : x.pipe = i
  writable : x.writable = w

/-- The counts of references to open files, pipes and inodes are exact. -/
structure FileRefs (s : Sys) : Prop where
  files : ∀ f, f < nfile → (s.file f).ref = fdCount s.proc f
  free : ∀ f, f < nfile → ((s.file f).ref = 0 ↔ (s.file f).type = .none)
  read : ∀ i, i < s.npipe → ((s.pipe i).readopen = true ↔ ∃ f, f < nfile ∧ (s.file f).IsEnd i false)
  write : ∀ i, i < s.npipe → ((s.pipe i).writeopen = true ↔ ∃ f, f < nfile ∧ (s.file f).IsEnd i true)
  freed : ∀ i, i < s.npipe → (s.pipe i).frees = if (s.pipe i).readopen = false ∧ (s.pipe i).writeopen = false then 1 else 0
  inodes : ∀ e, e < ninode → (s.fs.inode e).ref = fileCount s.file e + cwdCount s.proc e

end Xv6.Fs
