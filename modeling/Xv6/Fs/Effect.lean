import Xv6.Fs.Call
import Xv6.Fs.View

/-!
# Files and directories

A directory is seen as its entries.
-/

namespace Xv6.Fs

open Lib

/-! ## Directories -/

/-- Entry `k` of a directory. -/
def FileView.slot (f : FileView) (k : Nat) : Dirent := getDirent f.byte (direntSize * k)

def FileView.nslots (f : FileView) : Nat := f.size / direntSize

/-- Entry `k` is in use and has the name `name`. -/
structure FileView.Has (f : FileView) (k : Nat) (name : Name) : Prop where
  lt : k < f.nslots
  live : (f.slot k).inum ≠ 0
  name : (f.slot k).name = name

/-- The directory with `de` in entry `k`. -/
def FileView.setSlot (f : FileView) (k : Nat) (de : Dirent) : FileView :=
  { f with size := max f.size (direntSize * k + direntSize), byte := blit f.byte (direntSize * k) (putDirent de) 0 direntSize }

/-- The entry that `dirlink` takes: a free one, or a new one at the end. -/
def FileView.Free (f : FileView) (k : Nat) : Prop := (k < f.nslots ∧ (f.slot k).inum = 0) ∨ direntSize * k = f.size

/-! ## Files -/

abbrev Files := Nat → Option FileView

/-- The file of a new inode with one link. -/
def newFile (type major minor : Nat) : FileView := ⟨type, major, minor, 1, 0, fun _ => 0⟩

/-- A lookup in a directory of `T` leads to an inode of `T`. -/
def Closed (T : Nat → Prop) (F : Files) : Prop :=
  ∀ i f k, T i → F i = some f → f.type = tDir → k < f.nslots → (f.slot k).inum ≠ 0 → T (f.slot k).inum

end Xv6.Fs
