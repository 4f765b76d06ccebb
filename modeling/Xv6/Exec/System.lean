import Xv6.Exec.Plan
import Xv6.Fs.Lemmas.Inode
import Xv6.Fs.Path
import Xv6.Vm.Lemmas.Image
import Xv6.Vm.Tables

/-!
# What `kexec` does to the machine

`kexec` is called with the file system at rest and a process whose memory is in order. Either it
leaves everything as it was, or the process runs the program that the file and the arguments call for.
-/

namespace Xv6.Exec

open Lib Fs Vm

/-! ## Before the call -/

/-- The memory of the process is in order, where `g` says what each page is for. -/
structure MemOk (g : View) (M : Mach) : Prop where
  inv : Vm.Inv userPages g M.ram
  live : Live g M.ram
  root : g.role M.proc.pagetable = .table M.proc.pagetable 2 0
  within : g.Within M.proc.pagetable (npages M.proc.sz)
  size : npages M.proc.sz ≤ userPages
  trapframe : g.role M.proc.trapframe = .kern

/-- The file system is at rest. The files in `T` are those that a path can lead to, and `j` is the
current directory of the process. -/
structure FsOk (T : Nat → Prop) (j : Nat) (M : Mach) : Prop where
  ok : Fs.Ok M.fs
  tree : Fs.Tree M.fs T
  unlocked : ∀ e, (M.fs.inode e).locked = false
  cwd : M.fs.At M.proc.cwd j
  mem : T j
  root : T rootIno

/-- The strings of the arguments. -/
def strings (s : Ram) (argv : List Nat) : List (List Byte) := argv.map (stringAt s)

/-- The arguments are strings that end within a page of the kernel. -/
structure ArgsOk (g : View) (s : Ram) (argv : List Nat) : Prop where
  kern : ∀ a ∈ argv, g.role a = .kern
  short : ∀ a ∈ argv, (stringAt s a).length < pgSize

/-- The file that a path leads to. -/
def program (M : Mach) (j : Nat) (path : List Byte) : Option FileView :=
  (resolve M.fs.file (startOf path j) (components path)).bind M.fs.file

/-! ## What a user sees -/

/-- The flags of a page in the page table of the process. -/
def Mach.flagsAt (M : Mach) (v : Nat) : Option Pte := (M.ram.table M.proc.pagetable v).map Prod.snd

/-- The byte at an address of the process. -/
def Mach.byteAt (M : Mach) (a : Nat) : Option Byte :=
  (M.ram.table M.proc.pagetable (a / pgSize)).map fun x => M.ram.mem x.1 (a % pgSize)

/-! ## After the call -/

/-- The file system is at rest again, with the files and the references it had. -/
structure Rested (M N : Mach) : Prop where
  ok : Fs.Ok N.fs
  unlocked : ∀ e, (N.fs.inode e).locked = false
  file : N.fs.file = M.fs.file
  refs : N.fs.refs = M.fs.refs
  entry : ∀ e i, M.fs.At e i → N.fs.At e i
  trans : N.fs.trans = false
  outstanding : N.outstanding = M.outstanding

/-- The process and its memory are what they were. -/
structure Unchanged (g : View) (M N : Mach) : Prop where
  proc : N.proc = M.proc
  ram : ∃ h, Vm.Same userPages ∅ g M.ram h N.ram

/-- The memory after the page table of the process has been replaced by one that shows `m`. -/
structure Swapped (g : View) (M : Mach) (m : Image) (h : View) (N : Mach) : Prop where
  size : m.npages ≤ userPages
  inv : Vm.Inv userPages h N.ram
  live : Live h N.ram
  root : h.role N.proc.pagetable = .table N.proc.pagetable 2 0
  fresh : g.role N.proc.pagetable = .free
  shows : Shows h N.ram N.proc.pagetable m
  gone : ∀ p l k, h.role p ≠ .table M.proc.pagetable l k
  roots : h.roots = insert N.proc.pagetable g.roots \ {M.proc.pagetable}
  kern : h.kern = g.kern
  bytes : ∀ p, g.role p = .kern → p ≠ M.proc.trapframe → N.ram.mem p = M.ram.mem p
  leak : h.leak = g.leak
  frame : Frame userPages (fun r _ => r = M.proc.pagetable ∨ r = N.proc.pagetable) g M.ram h N.ram

/-- The trapframe with which the program starts. -/
def startFrame (tf : Bytes) (entry sp : Nat) : Bytes :=
  store 8 (store 8 (store 8 tf tfA1 sp) tfEpc entry) tfSp sp

/-- The process runs the program `P`. -/
structure Replaced (g : View) (path : List Byte) (P : Plan) (M N : Mach) : Prop where
  proc : ∃ r, N.proc = { M.proc with name := (lastName path).take 15, pagetable := r, sz := P.sz }
  trapframe : N.ram.mem M.proc.trapframe = startFrame (M.ram.mem M.proc.trapframe) P.entry P.sp
  memory : ∃ h, Swapped g M P.image h N

/-- The file system when the transaction has begun. -/
def began (s : Fs) : Fs := { s with trans := true, logged := [] }

/-- The one way in which `kexec` stops: the lookup of the path, which was begun with at most one free
entry in the inode table, finds none. -/
structure NoInode (M : Mach) (path : List Byte) (x : Stop) (N : Mach) : Prop where
  stop : x = .panic .igetFull
  lookup : namei M.proc.cwd path (began M.fs) = .error x N.fs
  few : ∀ e e', e < ninode → e' < ninode → (M.fs.inode e).ref = 0 → (M.fs.inode e').ref = 0 → e = e'

/-- What `kexec` returns, and what it leaves, when the file and the arguments call for `want`. It
fails without need only if there are few free pages. -/
def Outcome (g : View) (path : List Byte) (argc : Nat) (want : Option Plan) (M : Mach) (res : Int) (N : Mach) : Prop :=
  Rested M N ∧
  ((res = -1 ∧ Unchanged g M N ∧ ∀ P, want = some P → M.ram.freelist.length ≤ 5 + 3 * npages P.sz) ∨
    ∃ P, want = some P ∧ res = argc ∧ Replaced g path P M N)

/-- The pages that a call of `sys_exec` takes for its arguments. -/
def argPages (M : Mach) : List Nat :=
  let tf := M.ram.mem M.proc.trapframe
  match onRam (copyinstr M.proc.pagetable (load 8 tf tfA0) maxPath) M with
  | .ok (true, _) N =>
      match fetchArgs (load 8 tf tfA1) maxArg [] N with
      | .ok (_, argv) _ => argv
      | .error _ _ => []
  | _ => []

/-- The pages in `argv` were not the kernel's, and are on the free list now, each of them once. The
kernel holds the pages it held before. -/
structure ArgsFreed (g : View) (argv : List Nat) (N : Mach) : Prop where
  nodup : argv.Nodup
  fresh : ∀ a ∈ argv, g.role a ≠ .kern
  free : ∃ rest, N.ram.freelist = argv.reverse ++ rest
  once : N.ram.freelist.Nodup
  kern : ∃ h, Vm.Inv userPages h N.ram ∧ h.kern = g.kern ∧ h.leak = g.leak

end Xv6.Exec
