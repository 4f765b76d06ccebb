import Xv6.Fs.Layout

/-!
# Inodes, directories and paths (`fs.c`)

One system call runs at a time. A block has the contents that `bread` returns for it; `log_write`
records the block in the header of the log. `logged` is the header of the running transaction, and
of the last one when none runs.
-/

namespace Xv6.Fs

open Lib

/-! ## The state -/

/-- An entry of the inode table. The fields of the inode on the disk are in `d`. -/
structure Inode where
  dev : Nat
  inum : Nat
  ref : Nat
  locked : Bool
  valid : Bool
  d : Dinode

structure Fs where
  sb : Super
  blk : Nat → Block
  inode : Nat → Inode
  trans : Bool
  logged : List Nat

abbrev K := EStateM Stop Fs

namespace Fs

def setBlk (s : Fs) (b : Nat) (data : Block) : Fs := { s with blk := Function.update s.blk b data }

def setInode (s : Fs) (e : Nat) (ip : Inode) : Fs := { s with inode := Function.update s.inode e ip }

/-- `ip->xxx = …` for a field that lives on the disk. -/
def setD (s : Fs) (e : Nat) (d : Dinode) : Fs := s.setInode e { s.inode e with d := d }

/-- The inode `i` on the disk. -/
def disk (s : Fs) (i : Nat) : Dinode := getDinode (s.blk (s.sb.iblock i)) (ipos i)

end Fs

/-! ## Transactions -/

def beginOp : K Unit := modify fun s => { s with trans := true, logged := [] }

def endOp : K Unit := modify fun s => { s with trans := false }

/-- Change the buffer of `b` to `data` and call `log_write` on it. -/
def logWrite (b : Nat) (data : Block) : K Unit := do
  modify fun s => s.setBlk b data
  let s ← get
  if s.logged.length ≥ logBlocks then throw (.panic .tooBig)
  else if ¬ s.trans then throw (.panic .outsideTrans)
  else set { s with logged := if b ∈ s.logged then s.logged else s.logged ++ [b] }

/-! ## Blocks -/

def bzero (b : Nat) : K Unit := do
  let s ← get
  logWrite b (memset (s.blk b) 0 0 bsize)

/-- The loop over the bits of one block of the free map. -/
def freeBit (data : Block) (n : Nat) : Option Nat := (List.range n).find? fun bi => !bitSet data bi

/-- The loop of `balloc` over `k` blocks of the free map, from the one with the bit of `b` on. -/
def ballocFrom : Nat → Nat → K Nat
  | 0, _ => pure 0
  | k + 1, b => do
      let s ← get
      if b < s.sb.size then
        match freeBit (s.blk (s.sb.bblock b)) (min bpb (s.sb.size - b)) with
        | some bi => do
            logWrite (s.sb.bblock b) (setBit (s.blk (s.sb.bblock b)) bi)
            bzero (b + bi)
            pure (b + bi)
        | none => ballocFrom k (b + bpb)
      else pure 0

/-- Allocate a zeroed disk block; 0 if out of disk space. -/
def balloc : K Nat := do
  let s ← get
  ballocFrom (s.sb.size / bpb + 1) 0

def bfree (b : Nat) : K Unit := do
  let s ← get
  let data := s.blk (s.sb.bblock b)
  if ¬ bitSet data (b % bpb) then throw (.panic .freeingFree)
  else logWrite (s.sb.bblock b) (clearBit data (b % bpb))

/-! ## The inode table -/

/-- The entry of an inode that the table has. -/
def Fs.find (s : Fs) (dev inum : Nat) : Option Nat :=
  (List.range ninode).find? fun e => 0 < (s.inode e).ref && (s.inode e).dev == dev && (s.inode e).inum == inum

/-- The first entry that nobody references. -/
def Fs.empty (s : Fs) : Option Nat := (List.range ninode).find? fun e => (s.inode e).ref == 0

def iget (dev inum : Nat) : K Nat := do
  let s ← get
  match s.find dev inum with
  | some e => do
      set (s.setInode e { s.inode e with ref := (s.inode e).ref + 1 })
      pure e
  | none =>
      match s.empty with
      | none => throw (.panic .igetFull)
      | some e => do
          set (s.setInode e { s.inode e with dev := dev, inum := inum, ref := 1, valid := false })
          pure e

def idup (e : Nat) : K Nat := do
  modify fun s => s.setInode e { s.inode e with ref := (s.inode e).ref + 1 }
  pure e

/-- The loop of `ialloc` over `k` inodes from `inum` on. -/
def iallocFrom (type : Nat) : Nat → Nat → K (Option Nat)
  | 0, _ => pure none
  | k + 1, inum => do
      let s ← get
      if (s.disk inum).type = 0 then do
        let data := memset (s.blk (s.sb.iblock inum)) (ipos inum) 0 dinodeSize
        logWrite (s.sb.iblock inum) (store 2 data (ipos inum) type)
        let e ← iget rootDev inum
        pure (some e)
      else iallocFrom type k (inum + 1)

/-- Allocate an inode; `none` if there is no free inode. -/
def ialloc (type : Nat) : K (Option Nat) := do
  let s ← get
  iallocFrom type (s.sb.ninodes - 1) 1

/-- Copy a modified in-memory inode to disk. -/
def iupdate (e : Nat) : K Unit := do
  let s ← get
  let b := s.sb.iblock (s.inode e).inum
  logWrite b (putDinode (s.blk b) (ipos (s.inode e).inum) (s.inode e).d)

/-- `acquiresleep`. Nobody else runs, so a lock that is taken is never released. -/
def acquiresleep (e : Nat) : K Unit := do
  let s ← get
  if (s.inode e).locked then throw .sleep
  else set (s.setInode e { s.inode e with locked := true })

def releasesleep (e : Nat) : K Unit := modify fun s => s.setInode e { s.inode e with locked := false }

def ilock (e : Nat) : K Unit := do
  let s ← get
  if (s.inode e).ref < 1 then throw (.panic .ilock)
  else do
    acquiresleep e
    let s ← get
    if ¬ (s.inode e).valid then do
      let d := s.disk (s.inode e).inum
      set (s.setInode e { s.inode e with d := d, valid := true })
      if d.type = 0 then throw (.panic .ilockNoType) else pure ()
    else pure ()

def iunlock (e : Nat) : K Unit := do
  let s ← get
  if ¬ (s.inode e).locked ∨ (s.inode e).ref < 1 then throw (.panic .iunlock)
  else releasesleep e

/-! ## The contents of an inode -/

/-- `ip->addrs[k]`, allocated if it is 0. -/
def bmapAddr (e k : Nat) : K Nat := do
  let s ← get
  if (s.inode e).d.addrs k = 0 then do
    let addr ← balloc
    if addr = 0 then pure 0
    else do
      modify fun s => s.setD e { (s.inode e).d with addrs := Function.update (s.inode e).d.addrs k addr }
      pure addr
  else pure ((s.inode e).d.addrs k)

/-- The block address of the `bn`-th block of an inode, allocated if there is none; 0 if out of disk
space. -/
def bmap (e bn : Nat) : K Nat :=
  if bn < ndirect then bmapAddr e bn
  else if bn - ndirect < nindirect then do
    -- Load indirect block, allocating if necessary.
    let tbl ← bmapAddr e ndirect
    if tbl = 0 then pure 0
    else do
      let s ← get
      let addr := load 4 (s.blk tbl) (4 * (bn - ndirect))
      if addr = 0 then do
        let addr ← balloc
        if addr = 0 then pure 0
        else do
          let s ← get
          logWrite tbl (store 4 (s.blk tbl) (4 * (bn - ndirect)) addr)
          pure addr
      else pure addr
  else throw (.panic .bmapRange)

/-- Discard the contents of an inode. -/
def itrunc (e : Nat) : K Unit := do
  forN (fun i => do
    let s ← get
    if (s.inode e).d.addrs i = 0 then pure ()
    else do
      bfree ((s.inode e).d.addrs i)
      modify fun s => s.setD e { (s.inode e).d with addrs := Function.update (s.inode e).d.addrs i 0 }) ndirect 0
  let s ← get
  let tbl := (s.inode e).d.addrs ndirect
  if tbl = 0 then pure ()
  else do
    let a := s.blk tbl
    forN (fun j => if load 4 a (4 * j) = 0 then pure () else bfree (load 4 a (4 * j))) nindirect 0
    bfree tbl
    modify fun s => s.setD e { (s.inode e).d with addrs := Function.update (s.inode e).d.addrs ndirect 0 }
  modify fun s => s.setD e { (s.inode e).d with size := 0 }
  iupdate e

/-- Drop a reference to an inode; the last reference to an inode without links frees it. -/
def iput (e : Nat) : K Unit := do
  let s ← get
  if (s.inode e).ref = 1 ∧ (s.inode e).valid ∧ (s.inode e).d.nlink = 0 then do
    acquiresleep e
    itrunc e
    modify fun s => s.setD e { (s.inode e).d with type := 0 }
    iupdate e
    modify fun s => s.setInode e { s.inode e with valid := false }
    releasesleep e
  else pure ()
  modify fun s => s.setInode e { s.inode e with ref := (s.inode e).ref - 1 }

def iunlockput (e : Nat) : K Unit := do
  iunlock e
  iput e

/-- One iteration of `ireclaim`. -/
def ireclaimOne (inum : Nat) : K Unit := do
  let s ← get
  if (s.disk inum).type ≠ 0 ∧ (s.disk inum).nlink = 0 then do
    let e ← iget rootDev inum
    beginOp
    ilock e
    iunlock e
    iput e
    endOp
  else pure ()

/-- Free the inodes that were open without links at a crash. -/
def ireclaim : K Unit := do
  let s ← get
  forN ireclaimOne (s.sb.ninodes - 1) 1

/-- The loop of `readi`: `tot` bytes are in `buf`. `copyout tot m` says whether the `m` bytes of the
destination from `tot` on can be written; -1 is `none`. -/
def readiLoop (e n : Nat) (copyout : Nat → Nat → Bool) : Nat → Nat → Nat → Bytes → K (Option (Nat × Bytes))
  | 0, tot, _, buf => pure (some (tot, buf))
  | k + 1, tot, off, buf =>
      if tot < n then do
        let addr ← bmap e (off / bsize)
        if addr = 0 then pure (some (tot, buf))
        else do
          let s ← get
          let m := min (n - tot) (bsize - off % bsize)
          if copyout tot m then
            readiLoop e n copyout k (tot + m) (off + m) (blit buf tot (s.blk addr) (off % bsize) m)
          else pure none
      else pure (some (tot, buf))

def readi (e : Nat) (copyout : Nat → Nat → Bool) (off n : Nat) : K (Option (Nat × Bytes)) := do
  let s ← get
  let size := (s.inode e).d.size
  if off > size ∨ (off + n) % 2 ^ 32 < off then pure (some (0, fun _ => 0))
  else do
    let n := if off + n > size then size - off else n
    readiLoop e n copyout n 0 off fun _ => 0

/-- `readi` into kernel memory. -/
def readiKernel (e off n : Nat) : K (Nat × Bytes) := do
  let r ← readi e (fun _ _ => true) off n
  pure (r.getD (0, fun _ => 0))

/-- The bytes of a source that can be read before the first that cannot, of `m` from `tot` on. -/
def readable (src : Nat → Option Byte) (tot m : Nat) : Nat :=
  ((List.range m).takeWhile fun i => (src (tot + i)).isSome).length

/-- The loop of `writei`; returns `tot` and `off`. A source byte that is `none` cannot be read:
`either_copyin` then fails after the bytes before it are in the buffer. -/
def writeiLoop (e n : Nat) (src : Nat → Option Byte) : Nat → Nat → Nat → K (Nat × Nat)
  | 0, tot, off => pure (tot, off)
  | k + 1, tot, off =>
      if tot < n then do
        let addr ← bmap e (off / bsize)
        if addr = 0 then pure (tot, off)
        else do
          let s ← get
          let m := min (n - tot) (bsize - off % bsize)
          let r := readable src tot m
          let data := blit (s.blk addr) (off % bsize) (fun x => (src x).getD 0) tot r
          if r < m then do
            modify fun s => s.setBlk addr data
            pure (tot, off)
          else do
            logWrite addr data
            writeiLoop e n src k (tot + m) (off + m)
      else pure (tot, off)

/-- Write data to an inode; -1 is `none`. -/
def writei (e : Nat) (src : Nat → Option Byte) (off n : Nat) : K (Option Nat) := do
  let s ← get
  if off > (s.inode e).d.size ∨ (off + n) % 2 ^ 32 < off then pure none
  else if off + n > maxFile * bsize then pure none
  else do
    let (tot, off) ← writeiLoop e n src n 0 off
    modify fun s => if off > (s.inode e).d.size then s.setD e { (s.inode e).d with size := off } else s
    iupdate e
    pure (some tot)

/-! ## Directories -/

/-- The loop of `dirlookup` over `k` entries from `off` on. -/
def dirlookupFrom (dp : Nat) (name : Name) : Nat → Nat → K (Option (Nat × Nat))
  | 0, _ => pure none
  | k + 1, off => do
      let (r, de) ← readiKernel dp off direntSize
      if r ≠ direntSize then throw (.panic .dirlookupRead)
      else
        let de := getDirent de 0
        if de.inum ≠ 0 ∧ name = de.name then do
          let e ← iget rootDev de.inum
          pure (some (e, off))
        else dirlookupFrom dp name k (off + direntSize)

/-- The number of iterations of a loop over the entries below `size` from `off` on. -/
def slotsFrom (size off : Nat) : Nat := (size - off + (direntSize - 1)) / direntSize

/-- Look for a directory entry; returns the inode it names and the offset of the entry. -/
def dirlookup (dp : Nat) (name : Name) : K (Option (Nat × Nat)) := do
  let s ← get
  if (s.inode dp).d.type ≠ tDir then throw (.panic .dirlookupNotDir)
  else dirlookupFrom dp name (slotsFrom (s.inode dp).d.size 0) 0

/-- The loop of `dirlink` for an empty entry; returns its offset. -/
def dirlinkFrom (dp : Nat) : Nat → Nat → K Nat
  | 0, off => pure off
  | k + 1, off => do
      let (r, de) ← readiKernel dp off direntSize
      if r ≠ direntSize then throw (.panic .dirlinkRead)
      else if (getDirent de 0).inum = 0 then pure off
      else dirlinkFrom dp k (off + direntSize)

/-- Write a new directory entry; `false` is the return value -1. -/
def dirlink (dp : Nat) (name : Name) (inum : Nat) : K Bool := do
  match ← dirlookup dp name with
  | some (e, _) => do
      iput e
      pure false
  | none => do
      let s ← get
      let off ← dirlinkFrom dp (slotsFrom (s.inode dp).d.size 0) 0
      let r ← writei dp (fun x => some (putDirent ⟨inum, name⟩ x)) off direntSize
      pure (r == some direntSize)

/-! ## Paths -/

def slash : Byte := 47#8

/-- The next path element, cut to `DIRSIZ` bytes, and the path after it. -/
def skipelem (path : List Byte) : Option (Name × List Byte) :=
  let s := path.dropWhile (· == slash)
  if s.isEmpty then none
  else some ((s.takeWhile (· != slash)).take dirSiz, (s.dropWhile (· != slash)).dropWhile (· == slash))

/-- The loop of `namex`; the path gets shorter in each of the `k` iterations. -/
def namexFrom (parent : Bool) : Nat → Nat → List Byte → K (Option (Nat × Name))
  | 0, _, _ => pure none
  | k + 1, e, path =>
      match skipelem path with
      | none =>
          if parent then do
            iput e
            pure none
          else pure (some (e, []))
      | some (name, rest) => do
          ilock e
          let s ← get
          if (s.inode e).d.type ≠ tDir then do
            iunlockput e
            pure none
          else if parent && rest.isEmpty then do
            -- Stop one level early.
            iunlock e
            pure (some (e, name))
          else
            match ← dirlookup e name with
            | none => do
                iunlockput e
                pure none
            | some (next, _) => do
                iunlockput e
                namexFrom parent k next rest

def namex (cwd : Nat) (path : List Byte) (parent : Bool) : K (Option (Nat × Name)) := do
  let e ← (if path.head? = some slash then iget rootDev rootIno else idup cwd)
  namexFrom parent (path.length + 1) e path

def namei (cwd : Nat) (path : List Byte) : K (Option Nat) := do
  let r ← namex cwd path false
  pure (r.map Prod.fst)

def nameiparent (cwd : Nat) (path : List Byte) : K (Option (Nat × Name)) := namex cwd path true

end Xv6.Fs
