import Xv6.Fs.Effect

/-!
# Names as bytes

`dirlookup` and `dirlink` as the source has them: a name is a buffer of characters that ends at a NUL
or after `DIRSIZ` bytes, and so is the name in a directory entry. `strncmp` compares the two and
`strncpy` copies one into the other.
-/

namespace Xv6.Fs

open Lib

/-- The name in a buffer: the bytes before the first NUL, of the first `DIRSIZ`. -/
def cname (b : Bytes) : Name := ((List.range dirSiz).map b).takeWhile (· != 0)

/-- The buffers agree on their first `DIRSIZ` bytes up to the first NUL. -/
def SameName (b b' : Bytes) : Prop := ∀ x, x < dirSiz → (∀ y, y < x → b y ≠ 0) → b x = b' x

namespace Raw

/-! ## Strings (`string.c`) -/

/-- The loop of `strncmp` with `n` bytes left, at byte `i` of both strings. -/
def strncmp (p q : Bytes) : Nat → Nat → Int
  | 0, _ => 0
  | n + 1, i => if p i ≠ 0 ∧ p i = q i then strncmp p q n (i + 1) else (p i).toNat - (q i).toNat

/-- The second loop of `strncpy`. -/
def strncpyPad : Nat → Nat → Bytes → Bytes
  | 0, _, s => s
  | n + 1, d, s => strncpyPad n (d + 1) (Function.update s d 0)

/-- `strncpy` with `n` bytes left, from byte `i` of `t` to byte `d` of `s`. -/
def strncpy (t : Bytes) : Nat → Nat → Nat → Bytes → Bytes
  | 0, _, _, s => s
  | n + 1, i, d, s =>
      if t i ≠ 0 then strncpy t n (i + 1) (d + 1) (Function.update s d (t i))
      else strncpyPad n (d + 1) (Function.update s d (t i))

/-! ## Directories (`fs.c`) -/

def namecmp (s t : Bytes) : Int := strncmp s t dirSiz 0

/-- The field `name` of a directory entry. -/
def nameField (de : Bytes) : Bytes := fun x => de (2 + x)

/-- The loop of `dirlookup` over `k` entries from `off` on. -/
def dirlookupFrom (dp : Nat) (name : Bytes) : Nat → Nat → K (Option (Nat × Nat))
  | 0, _ => pure none
  | k + 1, off => do
      let (r, de) ← readiKernel dp off direntSize
      if r ≠ direntSize then throw (.panic .dirlookupRead)
      else if load 2 de 0 = 0 then dirlookupFrom dp name k (off + direntSize)
      else if namecmp name (nameField de) = 0 then do
        -- entry matches path element
        let e ← iget rootDev (load 2 de 0)
        pure (some (e, off))
      else dirlookupFrom dp name k (off + direntSize)

def dirlookup (dp : Nat) (name : Bytes) : K (Option (Nat × Nat)) := do
  let s ← get
  if (s.inode dp).d.type ≠ tDir then throw (.panic .dirlookupNotDir)
  else dirlookupFrom dp name (slotsFrom (s.inode dp).d.size 0) 0

/-- The loop of `dirlink` for an empty entry; returns its offset and the entry read last. -/
def dirlinkFrom (dp : Nat) : Nat → Nat → Bytes → K (Nat × Bytes)
  | 0, off, de => pure (off, de)
  | k + 1, off, _ => do
      let (r, de) ← readiKernel dp off direntSize
      if r ≠ direntSize then throw (.panic .dirlinkRead)
      else if load 2 de 0 = 0 then pure (off, de)
      else dirlinkFrom dp k (off + direntSize) de

/-- `dirlink`; the variable `de` is not initialised. -/
def dirlink (de : Bytes) (dp : Nat) (name : Bytes) (inum : Nat) : K Bool := do
  -- Check that name is not present.
  match ← dirlookup dp name with
  | some (e, _) => do
      iput e
      pure false
  | none => do
      -- Look for an empty dirent.
      let s ← get
      let (off, de) ← dirlinkFrom dp (slotsFrom (s.inode dp).d.size 0) 0 de
      let de := store 2 (strncpy name dirSiz 0 2 de) 0 inum
      let r ← writei dp (fun x => some (if x < direntSize then de x else 0)) off direntSize
      pure (r == some direntSize)

end Raw

/-! ## A directory as a map from names -/

/-- The field `name` of entry `k`. -/
def FileView.nameField (f : FileView) (k : Nat) : Bytes := fun x => f.byte (direntSize * k + 2 + x)

/-- Entry `k` is in use, and its name agrees with the buffer. -/
structure FileView.Agrees (f : FileView) (k : Nat) (b : Bytes) : Prop where
  lt : k < f.nslots
  live : (f.slot k).inum ≠ 0
  same : SameName b (f.nameField k)

/-- No two entries in use have the same name. -/
def FileView.Distinct (f : FileView) : Prop :=
  ∀ j k, j < f.nslots → k < f.nslots → (f.slot j).inum ≠ 0 → (f.slot k).inum ≠ 0 →
    SameName (f.nameField j) (f.nameField k) → j = k

/-- The first entry in use with the name. -/
def FileView.find (f : FileView) (name : Name) : Option Nat :=
  (List.range f.nslots).find? fun k => (f.slot k).inum != 0 && (f.slot k).name == name

/-- The inode that the map has under the name in the buffer, and the offset of the entry. -/
def FileView.lookup (f : FileView) (b : Bytes) : Option (Nat × Nat) :=
  (f.find (cname b)).map fun k => ((f.slot k).inum, direntSize * k)

/-- What `dirlookup` does when the map has `r`: it returns 0, or a reference to the inode and the
offset; or it panics for lack of an entry in the inode table. Files stay as they are. -/
def Yields (m : K (Option (Nat × Nat))) (s : Fs) : Option (Nat × Nat) → Prop
  | none => m s = .ok none s
  | some (inum, off) =>
      (∃ e t, m s = .ok (some (e, off)) t ∧ (t.inode e).dev = rootDev ∧ (t.inode e).inum = inum ∧ 0 < (t.inode e).ref ∧
        t.blk = s.blk ∧ ∀ e', 0 < (s.inode e').ref → (t.inode e').d = (s.inode e').d) ∨
      m s = .error (.panic .igetFull) s ∧ s.find rootDev inum = none ∧ s.empty = none

end Xv6.Fs
