import Mathlib.Algebra.GroupWithZero.Nat
import Xv6.Lib.Wp

/-!
# Constants of the kernel, and the ways its code stops

The values are those of `param.h`, `fs.h`, `stat.h`, `riscv.h` and `memlayout.h`.
-/

namespace Xv6

/-! ## `param.h` -/

def nproc : Nat := 64
def nofile : Nat := 16
def nfile : Nat := 100
def ninode : Nat := 50
def ndev : Nat := 10
def rootDev : Nat := 1
def maxOpBlocks : Nat := 10
def maxArg : Nat := 32
def logBlocks : Nat := maxOpBlocks * 3
def nbuf : Nat := maxOpBlocks * 3
def maxPath : Nat := 128
def userStack : Nat := 1

/-! ## `fs.h` and `stat.h` -/

def rootIno : Nat := 1
def bsize : Nat := 1024
def ndirect : Nat := 12
def nindirect : Nat := bsize / 4
def maxFile : Nat := ndirect + nindirect
def dirSiz : Nat := 14
def tDir : Nat := 1
def tFile : Nat := 2
def tDevice : Nat := 3

/-! ## `riscv.h` and `memlayout.h` -/

def pgSize : Nat := 4096
def maxVa : Nat := 2 ^ 38
def kernBase : Nat := 0x200000
@[irreducible] def physTop : Nat := kernBase + 1022 * 1024 * 1024
def trampoline : Nat := maxVa - pgSize
def trapframe : Nat := trampoline - pgSize

/-- The calls of `panic` in the modelled code. `exception` is what
`kerneltrap` prints before it reboots, when the kernel itself reads through a null pointer. -/
inductive Panic
  | bget
  | bwrite
  | brelse
  | diskNotLocked
  | ramdiskBounds
  | sdDiskRw
  | logCommitting
  | tooBig
  | outsideTrans
  | kfree
  | walk
  | remap
  | notAligned
  | freewalkLeaf
  | uvmclear
  | loadseg
  | initExiting
  | freeingFree
  | bmapRange
  | igetFull
  | ilock
  | ilockNoType
  | iunlock
  | dirlookupNotDir
  | dirlookupRead
  | dirlinkRead
  | isdiremptyRead
  | unlinkNlink
  | unlinkWritei
  | filedup
  | fileclose
  | fileread
  | filewrite
  | exception
  | userTriggered
  | popOffInterruptible
  | popOff
  | schedLocks
  | schedInterruptible
  deriving DecidableEq, Repr

/-- The text `panic` prints. -/
def Panic.message : Panic → String
  | .bget => "bget: no buffers"
  | .bwrite => "bwrite"
  | .brelse => "brelse"
  | .diskNotLocked => "ramdisk_rw: buf not locked"
  | .ramdiskBounds => "ramdisk: read/write out of bounds"
  | .sdDiskRw => "sd_disk_rw"
  | .logCommitting => "log.committing"
  | .tooBig => "too big a transaction"
  | .outsideTrans => "log_write outside of trans"
  | .kfree => "kfree"
  | .walk => "walk"
  | .remap => "remap"
  | .notAligned => "uvmunmap: not aligned"
  | .freewalkLeaf => "freewalk: leaf"
  | .uvmclear => "uvmclear"
  | .loadseg => "loadseg: address should exist"
  | .initExiting => "init exiting"
  | .freeingFree => "freeing free block"
  | .bmapRange => "bmap: out of range"
  | .igetFull => "iget: no inodes"
  | .ilock => "ilock"
  | .ilockNoType => "ilock: no type"
  | .iunlock => "iunlock"
  | .dirlookupNotDir => "dirlookup not DIR"
  | .dirlookupRead => "dirlookup read"
  | .dirlinkRead => "dirlink read"
  | .isdiremptyRead => "isdirempty: readi"
  | .unlinkNlink => "unlink: nlink < 1"
  | .unlinkWritei => "unlink: writei"
  | .filedup => "filedup"
  | .fileclose => "fileclose"
  | .fileread => "fileread"
  | .filewrite => "filewrite"
  | .exception => "<<<< KERNEL PANIC: EXCEPTION >>>>"
  | .userTriggered => "User triggered panic!"
  | .popOffInterruptible => "pop_off - interruptible"
  | .popOff => "pop_off"
  | .schedLocks => "sched locks"
  | .schedInterruptible => "sched interruptible"

/-- Why a piece of kernel code does not return: it panics, or it sleeps until another process
changes what it waits for. -/
inductive Stop
  | panic (e : Panic)
  | sleep
  deriving DecidableEq, Repr

end Xv6
