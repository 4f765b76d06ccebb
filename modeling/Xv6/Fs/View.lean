import Mathlib.Algebra.BigOperators.Group.Finset.Basic
import Xv6.Fs.Fs

/-!
# What the blocks and the inode table mean

`node i` is inode `i` as the file system sees it: the copy in the inode table if there is a valid
one, else the inode on the disk. `file i` is the file it stands for, with the bytes of its blocks.
`Inv` says that each block in use has one owner and that a file has a block for each of its bytes.
-/

namespace Xv6.Fs

open Lib

namespace Fs

/-- The bit of a block in the free map. -/
def used (s : Fs) (b : Nat) : Bool := bitSet (s.blk (s.sb.bblock b)) (b % bpb)

/-- Entry `e` of the inode table is inode `i`. -/
structure At (s : Fs) (e i : Nat) : Prop where
  lt : e < ninode
  ref : 0 < (s.inode e).ref
  inum : (s.inode e).inum = i

def node (s : Fs) (i : Nat) : Dinode :=
  match s.find rootDev i with
  | some e => if (s.inode e).valid then (s.inode e).d else s.disk i
  | none => s.disk i

/-- The references to inode `i`. -/
def refs (s : Fs) (i : Nat) : Nat :=
  match s.find rootDev i with
  | some e => (s.inode e).ref
  | none => 0

end Fs

/-! ## The blocks of an inode -/

/-- Entry `j` of the indirect block; 0 if there is none. -/
def indirect (blk : Nat → Block) (d : Dinode) (j : Nat) : Nat :=
  if d.addrs ndirect = 0 then 0 else load 4 (blk (d.addrs ndirect)) (4 * j)

/-- What the slots for block addresses hold: those of the inode, then those of its indirect block. -/
def slots (blk : Nat → Block) (d : Dinode) : List Nat :=
  (List.range (ndirect + 1)).map d.addrs ++ (List.range nindirect).map (indirect blk d)

/-- The address of the `bn`-th block of a file; 0 if it has none. -/
def addrOf (blk : Nat → Block) (d : Dinode) (bn : Nat) : Nat :=
  if bn < ndirect then d.addrs bn
  else if bn - ndirect < nindirect then indirect blk d (bn - ndirect)
  else 0

/-- How many slots of inode `i` hold the address `b`. -/
def Fs.slotsAt (s : Fs) (b i : Nat) : Nat :=
  if (s.node i).type = 0 then 0 else (slots s.blk (s.node i)).count b

/-- How many slots of the allocated inodes hold the address `b`. -/
def Fs.slotCount (s : Fs) (b : Nat) : Nat := ∑ i ∈ Finset.range s.sb.ninodes, s.slotsAt b i

/-! ## Files -/

structure FileView where
  type : Nat
  major : Nat
  minor : Nat
  nlink : Nat
  size : Nat
  byte : Nat → Byte

/-- The byte at an offset, also beyond the size of the file. -/
def rawByte (blk : Nat → Block) (d : Dinode) (k : Nat) : Byte := blk (addrOf blk d (k / bsize)) (k % bsize)

def fileOf (blk : Nat → Block) (d : Dinode) : FileView where
  type := d.type
  major := d.major
  minor := d.minor
  nlink := d.nlink
  size := d.size
  byte := fun k => if k < d.size then rawByte blk d k else 0

/-- The file of an allocated inode. -/
def Fs.file (s : Fs) (i : Nat) : Option FileView :=
  if i < s.sb.ninodes ∧ (s.node i).type ≠ 0 then some (fileOf s.blk (s.node i)) else none

/-! ## The invariant -/

/-- The values fit the fields of the inode on the disk. -/
structure Dinode.Wf (d : Dinode) : Prop where
  type : d.type < 2 ^ 16
  major : d.major < 2 ^ 16
  minor : d.minor < 2 ^ 16
  nlink : d.nlink < 2 ^ 16
  size : d.size < 2 ^ 32
  addrs : ∀ j, d.addrs j < 2 ^ 32
  high : ∀ j, ndirect + 1 ≤ j → d.addrs j = 0

/-- There is a block for each byte of the file. -/
def NoHole (blk : Nat → Block) (d : Dinode) : Prop := ∀ bn, bn * bsize < d.size → addrOf blk d bn ≠ 0

/-- The inode table. `X` are the entries whose copy of the inode may be newer than the disk's. -/
structure TableOk (X : Nat → Prop) (s : Fs) : Prop where
  uniq : ∀ e e' i, s.At e i → s.At e' i → e = e'
  range : ∀ e i, s.At e i → i < s.sb.ninodes ∧ (s.inode e).dev = rootDev
  pos : ∀ e i, s.At e i → i ≠ 0
  wf : ∀ e i, s.At e i → (s.inode e).valid = true → (s.inode e).d.Wf
  clean : ∀ e i, s.At e i → (s.inode e).valid = true → ¬ X e → (s.inode e).d = s.disk i
  typed : ∀ e i, s.At e i → (s.inode e).valid = true → ¬ X e → (s.inode e).d.type ≠ 0

/-- The owners of the blocks. `extra` are blocks in use that no slot holds yet. -/
structure OwnOk (extra : List Nat) (s : Fs) : Prop where
  own : ∀ b, b ≠ 0 → s.slotCount b + extra.count b = if s.sb.IsData b ∧ s.used b = true then 1 else 0
  metadata : ∀ b, b < s.sb.dataStart → s.used b = true

structure BlocksOk (extra : List Nat) (s : Fs) : Prop extends OwnOk extra s where
  noHole : ∀ i, i < s.sb.ninodes → (s.node i).type ≠ 0 → NoHole s.blk (s.node i)

structure Inv (X : Nat → Prop) (extra : List Nat) (s : Fs) : Prop where
  layout : s.sb.Layout
  table : TableOk X s
  blocks : BlocksOk extra s

end Xv6.Fs
