import Mathlib.Logic.Function.Basic
import Xv6.Param
import Xv6.Lib.Bytes

/-!
# The on-disk format (`fs.h`)

The image is `[ boot block | super block | log | inode blocks | free bit map | data blocks ]`.
Inodes, directory entries and the bits of the free map are read from the bytes of their blocks.
-/

namespace Xv6.Fs

open Lib

abbrev Byte := BitVec 8

/-- The contents of a block. Offsets below `bsize` are used. -/
abbrev Block := Bytes

/-- A path element, without its terminating zero. -/
abbrev Name := List Byte

/-! ## The super block -/

structure Super where
  size : Nat
  nblocks : Nat
  ninodes : Nat
  nlog : Nat
  logstart : Nat
  inodestart : Nat
  bmapstart : Nat
  deriving DecidableEq, Repr

/-- `sizeof(struct dinode)`. -/
def dinodeSize : Nat := 64

def ipb : Nat := bsize / dinodeSize
def bpb : Nat := bsize * 8

namespace Super

def iblock (sb : Super) (i : Nat) : Nat := i / ipb + sb.inodestart

def bblock (sb : Super) (b : Nat) : Nat := b / bpb + sb.bmapstart

/-- The data blocks are the last `nblocks` of the image. -/
def dataStart (sb : Super) : Nat := sb.size - sb.nblocks

def IsData (sb : Super) (b : Nat) : Prop := sb.dataStart ≤ b ∧ b < sb.size

instance (sb : Super) (b : Nat) : Decidable (sb.IsData b) := inferInstanceAs (Decidable (_ ∧ _))

/-- The parts of the image are in the order of the disk layout, and block and inode numbers fit the
fields that hold them. -/
structure Layout (sb : Super) : Prop where
  super : 2 ≤ sb.logstart
  log : sb.logstart + sb.nlog ≤ sb.inodestart
  inodes : sb.iblock sb.ninodes < sb.bmapstart
  bitmap : sb.bblock sb.size < sb.dataStart
  size : sb.size < 2 ^ 32
  ninodes : sb.ninodes ≤ 2 ^ 16
  root : rootIno < sb.ninodes

end Super

def fsMagic : Nat := 0x10203040

/-- `memmove(buf, &sb, sizeof(sb))`. -/
def putSuper (b : Block) (sb : Super) : Block :=
  let b := store 4 b 0 fsMagic
  let b := store 4 b 4 sb.size
  let b := store 4 b 8 sb.nblocks
  let b := store 4 b 12 sb.ninodes
  let b := store 4 b 16 sb.nlog
  let b := store 4 b 20 sb.logstart
  let b := store 4 b 24 sb.inodestart
  store 4 b 28 sb.bmapstart

def getMagic (b : Block) : Nat := load 4 b 0

def getSuper (b : Block) : Super :=
  ⟨load 4 b 4, load 4 b 8, load 4 b 12, load 4 b 16, load 4 b 20, load 4 b 24, load 4 b 28⟩

/-! ## Inodes -/

structure Dinode where
  type : Nat
  major : Nat
  minor : Nat
  nlink : Nat
  size : Nat
  addrs : Nat → Nat

/-- The byte position of inode `i` in its block. -/
def ipos (i : Nat) : Nat := i % ipb * dinodeSize

/-- `memmove(dip->addrs, ip->addrs, sizeof(ip->addrs))`. -/
def putAddrs (b : Block) (k : Nat) (addrs : Nat → Nat) : Block :=
  fun x => if k ≤ x ∧ x < k + 4 * (ndirect + 1) then
    BitVec.ofNat 8 (addrs ((x - k) / 4) / 256 ^ ((x - k) % 4)) else b x

def getDinode (b : Block) (k : Nat) : Dinode where
  type := load 2 b k
  major := load 2 b (k + 2)
  minor := load 2 b (k + 4)
  nlink := load 2 b (k + 6)
  size := load 4 b (k + 8)
  addrs := fun j => if j < ndirect + 1 then load 4 b (k + 12 + 4 * j) else 0

def putDinode (b : Block) (k : Nat) (d : Dinode) : Block :=
  let b := store 2 b k d.type
  let b := store 2 b (k + 2) d.major
  let b := store 2 b (k + 4) d.minor
  let b := store 2 b (k + 6) d.nlink
  let b := store 4 b (k + 8) d.size
  putAddrs b (k + 12) d.addrs

/-! ## The free map -/

/-- `1 << (bi % 8)`. -/
def bitMask (bi : Nat) : Byte := 1#8 <<< (bi % 8)

def bitSet (data : Block) (bi : Nat) : Bool := data (bi / 8) &&& bitMask bi != 0

def setBit (data : Block) (bi : Nat) : Block :=
  Function.update data (bi / 8) (data (bi / 8) ||| bitMask bi)

def clearBit (data : Block) (bi : Nat) : Block :=
  Function.update data (bi / 8) (data (bi / 8) &&& ~~~ bitMask bi)

/-! ## Directory entries -/

structure Dirent where
  inum : Nat
  name : Name
  deriving DecidableEq, Repr

/-- `sizeof(struct dirent)`. -/
def direntSize : Nat := 16

/-- The entry at a position. A name ends at its first zero byte. -/
def getDirent (b : Bytes) (k : Nat) : Dirent where
  inum := load 2 b k
  name := ((List.range dirSiz).map fun j => b (k + 2 + j)).takeWhile (· != 0)

/-- The bytes of an entry; `strncpy` pads the name with zeros. -/
def putDirent (de : Dirent) : Bytes :=
  store 2 (fun x => if x < direntSize then de.name.getD (x - 2) 0 else 0) 0 de.inum

/-- A name that a directory entry can hold. -/
def NameOk (name : Name) : Prop := name.length ≤ dirSiz ∧ ∀ c ∈ name, c ≠ 0

end Xv6.Fs
