import Xv6.Fs.Effect
import Xv6.Fs.System

/-!
# Building the image (`mkfs.c`)

`mkfs` fills an image of zeros: the super block, the root directory, one inode per input file with
the bytes of the file, and the free map. It hands out inodes and blocks in order.
-/

namespace Xv6.Mkfs

open Lib Fs

/-! ## The image -/

def fsSize : Nat := 2000
def nInodes : Nat := 200
def nbitmap : Nat := fsSize / bpb + 1
def ninodeblocks : Nat := nInodes / ipb + 1

/-- Header followed by LOGBLOCKS data blocks. -/
def nlog : Nat := logBlocks + 1

/-- Number of meta blocks (boot, sb, nlog, inode, bitmap). -/
def nmeta : Nat := 2 + nlog + ninodeblocks + nbitmap

/-- Number of data blocks. -/
def nblocks : Nat := fsSize - nmeta

def superBlock : Super where
  size := fsSize
  nblocks := nblocks
  ninodes := nInodes
  nlog := nlog
  logstart := 2
  inodestart := 2 + nlog
  bmapstart := 2 + nlog + ninodeblocks

structure Image where
  blk : Nat → Block
  freeinode : Nat
  freeblock : Nat

/-- The assertions of `mkfs`. -/
inductive Assert
  | rootIno
  | slash
  | longName
  | maxFile
  | bitmap
  deriving DecidableEq, Repr

abbrev Mk := EStateM Assert Image

def rsect (sec : Nat) : Mk Block := do
  let m ← get
  pure (m.blk sec)

def wsect (sec : Nat) (buf : Block) : Mk Unit := modify fun m => { m with blk := Function.update m.blk sec buf }

/-! ## Inodes -/

def winode (inum : Nat) (din : Dinode) : Mk Unit := do
  let buf ← rsect (superBlock.iblock inum)
  wsect (superBlock.iblock inum) (putDinode buf (ipos inum) din)

def rinode (inum : Nat) : Mk Dinode := do
  let buf ← rsect (superBlock.iblock inum)
  pure (getDinode buf (ipos inum))

def ialloc (type : Nat) : Mk Nat := do
  let m ← get
  set { m with freeinode := m.freeinode + 1 }
  winode m.freeinode ⟨type, 0, 0, 1, 0, fun _ => 0⟩
  pure m.freeinode

/-! ## Blocks -/

/-- `freeblock++`. -/
def freshBlock : Mk Nat := do
  let m ← get
  set { m with freeblock := m.freeblock + 1 }
  pure m.freeblock

/-- A free map with the first `used` bits set. -/
def bitmap (used : Nat) : Block := (List.range used).foldl setBit fun _ => 0

/-- Write the free map. -/
def balloc (used : Nat) : Mk Unit :=
  if used < bpb then wsect superBlock.bmapstart (bitmap used) else throw .bitmap

/-- `din.addrs[k]`, allocated if it is 0. -/
def fillAddr (din : Dinode) (k : Nat) : Mk Dinode :=
  if din.addrs k = 0 then do
    let b ← freshBlock
    pure { din with addrs := Function.update din.addrs k b }
  else pure din

/-- The address of the `fbn`-th block in `iappend`, and the inode with it. -/
def blockAddr (din : Dinode) (fbn : Nat) : Mk (Nat × Dinode) :=
  if fbn < ndirect then do
    let din ← fillAddr din fbn
    pure (din.addrs fbn, din)
  else do
    let din ← fillAddr din ndirect
    let indirect ← rsect (din.addrs ndirect)
    if load 4 indirect (4 * (fbn - ndirect)) = 0 then do
      let x ← freshBlock
      wsect (din.addrs ndirect) (store 4 indirect (4 * (fbn - ndirect)) x)
      pure (x, din)
    else pure (load 4 indirect (4 * (fbn - ndirect)), din)

/-- The loop of `iappend`, with `tot` of the `n` bytes written. -/
def iappendLoop (p : Bytes) (n : Nat) : Nat → Nat → Nat → Dinode → Mk (Nat × Dinode)
  | 0, _, off, din => pure (off, din)
  | k + 1, tot, off, din =>
      if tot < n then
        if off / bsize < maxFile then do
          let (x, din) ← blockAddr din (off / bsize)
          let n1 := min (n - tot) ((off / bsize + 1) * bsize - off)
          let buf ← rsect x
          wsect x (blit buf (off - off / bsize * bsize) p tot n1)
          iappendLoop p n k (tot + n1) (off + n1) din
        else throw .maxFile
      else pure (off, din)

/-- Append `n` bytes to an inode. -/
def iappend (inum : Nat) (p : Bytes) (n : Nat) : Mk Unit := do
  let din ← rinode inum
  let (off, din) ← iappendLoop p n n 0 din.size din
  winode inum { din with size := off }

/-! ## Files -/

/-- Add an entry to the root directory. -/
def addEntry (inum : Nat) (name : Name) : Mk Unit := iappend rootIno (putDirent ⟨inum, name⟩) direntSize

/-- `"user/"`. -/
def userDir : List Byte := [117#8, 115#8, 101#8, 114#8, 47#8]

def underscore : Byte := 95#8

/-- The argument without `"user/"`. -/
def baseName (arg : List Byte) : List Byte := if userDir.isPrefixOf arg then arg.drop 5 else arg

/-- Skip leading _ in name when writing to file system. -/
def shortname (arg : List Byte) : Name :=
  match baseName arg with
  | [] => []
  | c :: rest => if c = underscore then rest else c :: rest

/-- The loop over the blocks that `read` returns. -/
def copyFile (inum : Nat) : Nat → List Byte → Mk Unit
  | 0, _ => pure ()
  | k + 1, data =>
      if data.isEmpty then pure ()
      else do
        iappend inum (fun x => data.getD x 0) (min data.length bsize)
        copyFile inum k (data.drop bsize)

/-- One input file: its argument and its bytes. -/
def addFile (arg data : List Byte) : Mk Unit :=
  if slash ∈ baseName arg then throw .slash
  else if (shortname arg).length > dirSiz then throw .longName
  else do
    let inum ← ialloc tFile
    addEntry inum (shortname arg)
    copyFile inum data.length data

def addFiles : List (List Byte × List Byte) → Mk Unit
  | [] => pure ()
  | f :: fs => do
      addFile f.1 f.2
      addFiles fs

/-- Fix size of root inode dir. -/
def fixRoot : Mk Unit := do
  let din ← rinode rootIno
  winode rootIno { din with size := (din.size / bsize + 1) * bsize }

/-- The root directory with its first two entries. -/
def mkRoot : Mk Unit := do
  let rootino ← ialloc tDir
  if rootino ≠ rootIno then throw .rootIno
  else do
    addEntry rootino dot
    addEntry rootino dotdot

def main (files : List (List Byte × List Byte)) : Mk Unit := do
  set (⟨fun _ _ => 0, 1, nmeta⟩ : Image)
  wsect 1 (putSuper (fun _ => 0) superBlock)
  mkRoot
  addFiles files
  fixRoot
  let m ← get
  balloc m.freeblock

/-! ## What the input needs -/

/-- The blocks of a file of `size` bytes, with its indirect block. -/
def blocksFor (size : Nat) : Nat := (size + (bsize - 1)) / bsize + if ndirect * bsize < size then 1 else 0

/-- The blocks of the root directory and of the input files. -/
def blocksOf (files : List (List Byte × List Byte)) : Nat :=
  blocksFor (direntSize * (files.length + 2)) + (files.map fun f => blocksFor f.2.length).sum

/-- The inodes and blocks of the input fit in the image. -/
structure Fits (files : List (List Byte × List Byte)) : Prop where
  inodes : files.length + 2 ≤ nInodes
  blocks : nmeta + blocksOf files ≤ fsSize
  size : ∀ f ∈ files, f.2.length ≤ maxFile * bsize

/-- The arguments are strings with short names that a directory entry can hold. -/
structure ArgOk (arg : List Byte) : Prop where
  string : ∀ c ∈ arg, c ≠ 0
  base : slash ∉ baseName arg
  short : (shortname arg).length ≤ dirSiz

/-! ## Sequences of calls -/

/-- A call that changes an inode. -/
inductive Call
  | ialloc (type : Nat)
  | iappend (inum : Nat) (chunk : List Byte)

def Call.exec : Call → Mk Unit
  | .ialloc type => do
      let _ ← Mkfs.ialloc type
      pure ()
  | .iappend inum chunk => Mkfs.iappend inum (fun x => chunk.getD x 0) chunk.length

def calls : List Call → Mk Unit
  | [] => pure ()
  | c :: cs => do
      c.exec
      calls cs

/-- The inodes handed out by the calls: 1 up to this number. -/
def allocated (cs : List Call) : Nat := cs.countP fun | .ialloc _ => true | .iappend _ _ => false

def Call.chunk (inum : Nat) : Call → List Byte
  | .ialloc _ => []
  | .iappend i chunk => if i = inum then chunk else []

/-- The chunks appended to an inode, one after the other. -/
def contents (inum : Nat) (cs : List Call) : List Byte := cs.flatMap (Call.chunk inum)

/-- Inodes are appended to after they have been handed out, and everything fits in the image. -/
structure CallsOk (cs : List Call) : Prop where
  type : ∀ type, .ialloc type ∈ cs → type ≠ 0 ∧ type < 2 ^ 16
  order : ∀ done inum chunk rest, cs = done ++ .iappend inum chunk :: rest → 1 ≤ inum ∧ inum ≤ allocated done
  inodes : allocated cs < nInodes
  size : ∀ inum, (contents inum cs).length ≤ maxFile * bsize
  blocks : nmeta + ∑ inum ∈ Finset.range nInodes, blocksFor (contents inum cs).length ≤ fsSize

/-! ## What the kernel expects -/

/-- The entries of the root directory: one per file after the first two. -/
def rootEntries (files : List (List Byte × List Byte)) : List Dirent :=
  [⟨rootIno, dot⟩, ⟨rootIno, dotdot⟩] ++ files.mapIdx fun k f => ⟨k + 2, shortname f.1⟩

/-- The entries of a directory that are in use. -/
def liveEntries (f : FileView) : List Dirent := ((List.range f.nslots).map f.slot).filter fun de => de.inum != 0

/-- The file system that the kernel finds on the image. -/
def Image.mounted (m : Image) : Fs := mount (getSuper (m.blk 1)) m.blk

/-- The image satisfies the invariants of the kernel, and has the input files in its root directory. -/
structure Consistent (files : List (List Byte × List Byte)) (m : Image) : Prop where
  magic : getMagic (m.blk 1) = fsMagic
  layout : m.mounted.sb.Layout
  logstart : m.mounted.sb.logstart = 2
  inodestart : m.mounted.sb.inodestart = m.mounted.sb.logstart + m.mounted.sb.nlog
  bmapstart : m.mounted.sb.bmapstart = m.mounted.sb.inodestart + (m.mounted.sb.ninodes / ipb + 1)
  dataStart : m.mounted.sb.dataStart = m.mounted.sb.bmapstart + (m.mounted.sb.size / bpb + 1)
  bitmap : ∀ b, b < m.mounted.sb.size → (m.mounted.used b = true ↔ b < m.freeblock)
  owned : ∀ i, i < m.mounted.sb.ninodes → ∀ b ∈ slots m.blk (m.mounted.disk i), b ≠ 0 →
    m.mounted.sb.dataStart ≤ b ∧ b < m.freeblock ∧ m.mounted.slotCount b = 1
  noHole : ∀ i, i < m.mounted.sb.ninodes → NoHole m.blk (m.mounted.disk i)
  root : ∃ f, m.mounted.file rootIno = some f ∧ f.type = tDir ∧ liveEntries f = rootEntries files

end Xv6.Mkfs
