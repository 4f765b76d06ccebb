import Xv6.Fs.Dirent

/-!
# What a path means

A path is a list of names, looked up one after the other in the files.
-/

namespace Xv6.Fs

open Lib

/-- The maximal runs of a path without a slash. -/
def runs (path : List Byte) : List (List Byte) := (path.splitOnP (· == slash)).filter (· != [])

/-- The names of a path: its runs, each cut to `DIRSIZ` bytes. -/
def components (path : List Byte) : List Name := (runs path).map (·.take dirSiz)

/-- The inode where the lookup of a path starts. -/
def startOf (path : List Byte) (cwd : Nat) : Nat := if path.head? = some slash then rootIno else cwd

/-- The inode that the names lead to from inode `i`. -/
def resolve (F : Files) : Nat → List Name → Option Nat
  | i, [] => some i
  | i, name :: rest =>
      match F i with
      | none => none
      | some f =>
          if f.type ≠ tDir then none
          else
            match f.find name with
            | none => none
            | some k => resolve F (f.slot k).inum rest

/-- The directory that all names but the last lead to, and the last name. -/
def resolveParent (F : Files) (i : Nat) (names : List Name) : Option (Nat × Name) :=
  match names.getLast?, resolve F i names.dropLast with
  | some name, some p => if (F p).any fun f => f.type == tDir then some (p, name) else none
  | _, _ => none

/-- The inodes of `T` are a tree as far as lookups can tell: they are allocated and have a link or a
reference, and the entries of the directories among them name inodes of `T`. -/
structure Tree (s : Fs) (T : Nat → Prop) : Prop where
  file : ∀ i, T i → ∃ f, s.file i = some f ∧ (f.nlink ≠ 0 ∨ 0 < s.refs i)
  dir : ∀ i f, T i → s.file i = some f → f.type = tDir → direntSize ∣ f.size
  closed : Closed T s.file

/-- What the lookup of a path does when it leads to `want`: it returns 0 and takes no reference, or
returns a reference to that inode and takes no other; or it panics because the inode table is full.
The files stay as they are. -/
def Finds (s : Fs) (want : Option Nat) : EStateM.Result Stop Fs (Option Nat) → Prop
  | .ok none t => want = none ∧ t.refs = s.refs ∧ t.file = s.file
  | .ok (some e) t => ∃ i, want = some i ∧ t.At e i ∧ t.refs = Function.update s.refs i (s.refs i + 1) ∧ t.file = s.file
  | .error x t => x = .panic .igetFull ∧ t.empty = none

/-- The same, with a name. -/
def FindsNamed (s : Fs) (want : Option (Nat × Name)) : EStateM.Result Stop Fs (Option (Nat × Name)) → Prop
  | .ok none t => want = none ∧ t.refs = s.refs ∧ t.file = s.file
  | .ok (some (e, name)) t => ∃ i, want = some (i, name) ∧ t.At e i ∧ t.refs = Function.update s.refs i (s.refs i + 1) ∧
      t.file = s.file
  | .error x t => x = .panic .igetFull ∧ t.empty = none

end Xv6.Fs
