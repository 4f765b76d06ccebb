import Xv6.Fs.Fs
import Xv6.Vm.Vm

/-!
# Running a program (`exec.c`, `sys_exec`)

`kexec` reads the program through the file system into the memory of the process. Both are part of
the state here, with the process that makes the call. Numbers of the file are 64-bit; where the
source stores one in an `int` or a `uint`, it is taken modulo `2 ^ 32`.
-/

namespace Xv6.Exec

open Lib

abbrev Byte := BitVec 8

/-! ## `elf.h` -/

def elfMagic : Nat := 0x464C457F
def elfProgLoad : Nat := 1

/-- `sizeof(struct elfhdr)`. -/
def elfHdrSize : Nat := 64

/-- `sizeof(struct proghdr)`. -/
def progHdrSize : Nat := 56

/-- The fields of `struct elfhdr` that are read. -/
structure ElfHdr where
  magic : Nat
  entry : Nat
  phoff : Nat
  phnum : Nat
  deriving DecidableEq, Repr

/-- The fields of `struct proghdr` that are read. -/
structure ProgHdr where
  type : Nat
  flags : Nat
  off : Nat
  vaddr : Nat
  filesz : Nat
  memsz : Nat
  deriving DecidableEq, Repr

def ElfHdr.read (b : Bytes) : ElfHdr := ⟨load 4 b 0, load 8 b 24, load 8 b 32, load 2 b 56⟩

def ProgHdr.read (b : Bytes) : ProgHdr :=
  ⟨load 4 b 0, load 4 b 4, load 8 b 8, load 8 b 16, load 8 b 32, load 8 b 40⟩

/-- `ph.vaddr + ph.memsz`, in 64-bit arithmetic. -/
def ProgHdr.last (ph : ProgHdr) : Nat := (ph.vaddr + ph.memsz) % 2 ^ 64

def flags2perm (flags : Nat) : Vm.Pte :=
  (if flags.testBit 0 then Vm.pteX else 0) ||| if flags.testBit 1 then Vm.pteW else 0

/-! ## The machine -/

/-- The fields of `struct proc` that this code reads or writes. `name` is the string in the array. -/
structure Task extends Vm.Proc where
  cwd : Nat
  name : List Byte

/-- `proc` is `myproc()`, and `outstanding` the field of `log` that counts the calls in a transaction. -/
structure Mach where
  fs : Fs.Fs
  ram : Vm.Ram
  proc : Task
  outstanding : Int

abbrev K := EStateM Stop Mach

def onFs {α : Type} (m : Fs.K α) : K α := fun s =>
  match m s.fs with
  | .ok a fs => .ok a { s with fs := fs }
  | .error e fs => .error e { s with fs := fs }

def onRam {α : Type} (m : Vm.K α) : K α := fun s =>
  match m s.ram with
  | .ok a ram => .ok a { s with ram := ram }
  | .error e ram => .error e { s with ram := ram }

def beginOp : K Unit := do
  modify fun s => { s with outstanding := s.outstanding + 1 }
  onFs Fs.beginOp

def endOp : K Unit := do
  modify fun s => { s with outstanding := s.outstanding - 1 }
  onFs Fs.endOp

/-- The offsets of `struct trapframe`. -/
def tfEpc : Nat := 24
def tfSp : Nat := 48
def tfA0 : Nat := 112
def tfA1 : Nat := 120

/-- Stores a register in the trapframe of the process. -/
def setTrapframe (off x : Nat) : K Unit := do
  let tf := (← get).proc.trapframe
  onRam (modify fun r => { r with mem := Function.update r.mem tf (store 8 (r.mem tf) off x) })

/-! ## Loading -/

/-- The loop of `loadseg`; an iteration reads a byte at least, so `sz` bounds their number. -/
def loadsegLoop (e pagetable va offset sz : Nat) : Nat → Nat → K Int
  | 0, _ => pure 0
  | fuel + 1, i =>
      if i < sz then do
        let a := (va + i) % 2 ^ 64
        match ← onRam (Vm.walkaddr pagetable a) with
        | none => throw (.panic .loadseg)
        | some pa => do
            let offInPage := a % pgSize
            let n := if sz - i < pgSize - offInPage then sz - i else pgSize - offInPage
            let (tot, buf) ← onFs (Fs.readiKernel e ((offset + i) % 2 ^ 32) n)
            onRam (modify fun r => r.write pa offInPage ((List.range tot).map buf))
            if tot ≠ n then pure (-1) else loadsegLoop e pagetable va offset sz fuel (i + n)
      else pure 0

def loadseg (pagetable va e offset sz : Nat) : K Int := loadsegLoop e pagetable va offset sz sz 0

/-- The loop over the program headers, `n` of them from `off` on: whether it came to its end, and
`sz`. -/
def loadSegments (e pagetable : Nat) : Nat → Nat → Nat → K (Bool × Nat)
  | 0, _, sz => pure (true, sz)
  | n + 1, off, sz => do
      let (tot, buf) ← onFs (Fs.readiKernel e off progHdrSize)
      if tot ≠ progHdrSize then pure (false, sz)
      else
        let ph := ProgHdr.read buf
        if ph.type ≠ elfProgLoad then loadSegments e pagetable n ((off + progHdrSize) % 2 ^ 32) sz
        else if ph.memsz < ph.filesz then pure (false, sz)
        else if ph.last < ph.vaddr then pure (false, sz)
        else
          let sz1 ← onRam (Vm.uvmalloc pagetable sz ph.last (flags2perm ph.flags))
          if sz1 = 0 then pure (false, sz)
          else if (← loadseg pagetable ph.vaddr e (ph.off % 2 ^ 32) (ph.filesz % 2 ^ 32)) < 0 then pure (false, sz1)
          else loadSegments e pagetable n ((off + progHdrSize) % 2 ^ 32) sz1

/-! ## Arguments -/

/-- The string at the start of the page `pa` of kernel memory. -/
def stringAt (r : Vm.Ram) (pa : Nat) : List Byte := (r.read pa 0 pgSize).takeWhile (· != 0)

/-- `sp -= n; sp -= sp % 16`, in 64-bit arithmetic. -/
def pushDown (sp n : Nat) : Nat :=
  let sp := (sp + (2 ^ 64 - n)) % 2 ^ 64
  sp - sp % 16

/-- `ustack[i] = x`. There is no check in the source; a write past the array stops the model. -/
def setUstack (ustack : Nat → Nat) (i x : Nat) : K (Nat → Nat) :=
  if i < maxArg then pure (Function.update ustack i x) else throw (.panic .exception)

/-- The loop over the arguments: `sp` and `ustack`, or nothing for `goto bad`. -/
def pushStrings (pagetable stackbase : Nat) : List Nat → Nat → Nat → (Nat → Nat) → K (Option (Nat × (Nat → Nat)))
  | [], _, sp, ustack => pure (some (sp, ustack))
  | arg :: rest, argc, sp, ustack => do
      if maxArg ≤ argc then pure none
      else
        let s ← get
        let str := stringAt s.ram arg
        let sp := pushDown sp (str.length + 1)
        if sp < stackbase then pure none
        else if (← onRam (Vm.copyout s.proc.toProc pagetable sp (str ++ [0]))) < 0 then pure none
        else
          let ustack ← setUstack ustack argc sp
          pushStrings pagetable stackbase rest (argc + 1) sp ustack

/-- The first `n` words of `ustack` as they are in memory. -/
def wordBytes (ustack : Nat → Nat) (n : Nat) : List Byte :=
  (List.range (n * 8)).map fun i => BitVec.ofNat 8 (ustack (i / 8) / 256 ^ (i % 8))

/-- The argument strings and the array of pointers to them: `sp`, or nothing for `goto bad`. -/
def pushArgs (pagetable stackbase sz : Nat) (argv : List Nat) : K (Option Nat) := do
  match ← pushStrings pagetable stackbase argv 0 sz fun _ => 0 with
  | none => pure none
  | some (sp, ustack) => do
      let argc := argv.length
      let ustack ← setUstack ustack argc 0
      let sp := pushDown sp ((argc + 1) * 8)
      if sp < stackbase then pure none
      else
        let p := (← get).proc
        if (← onRam (Vm.copyout p.toProc pagetable sp (wordBytes ustack (argc + 1)))) < 0 then pure none
        else pure (some sp)

/-! ## `kexec` -/

/-- The end of `path` after its last slash. -/
def lastName (path : List Byte) : List Byte := (path.reverse.takeWhile (· != Fs.slash)).reverse

/-- `goto bad` with the inode held. -/
def badLocked (e : Nat) : K Int := do
  onFs (Fs.iunlockput e)
  endOp
  pure (-1)

/-- Commits to the new image. `name` has room for 15 bytes and the zero at the end. -/
def commit (path : List Byte) (argc entry pagetable sz sp : Nat) : K Int := do
  setTrapframe tfA1 sp
  let old := (← get).proc
  modify fun s => { s with proc := { s.proc with name := (lastName path).take 15, pagetable := pagetable, sz := sz } }
  setTrapframe tfEpc entry
  setTrapframe tfSp sp
  onRam (Vm.procFreepagetable old.pagetable old.sz)
  pure argc

/-- `kexec` after the inode has been released. -/
def finish (path : List Byte) (argv : List Nat) (entry pagetable sz : Nat) : K Int := do
  let sz := Vm.pgRoundUp sz
  let sz1 ← onRam (Vm.uvmalloc pagetable sz ((sz + (userStack + 1) * pgSize) % 2 ^ 64) Vm.pteW)
  if sz1 = 0 then
    onRam (Vm.procFreepagetable pagetable sz)
    pure (-1)
  else
    onRam (Vm.uvmclear pagetable (sz1 - (userStack + 1) * pgSize))
    match ← pushArgs pagetable (sz1 - userStack * pgSize) sz1 argv with
    | none => do
        onRam (Vm.procFreepagetable pagetable sz1)
        pure (-1)
    | some sp => commit path argv.length entry pagetable sz1 sp

/-- `kexec` from the first read on, with the inode held. -/
def execHeld (path : List Byte) (argv : List Nat) (e : Nat) : K Int := do
  let p := (← get).proc
  let (tot, buf) ← onFs (Fs.readiKernel e 0 elfHdrSize)
  if tot ≠ elfHdrSize then badLocked e
  else
    let elf := ElfHdr.read buf
    if elf.magic ≠ elfMagic then badLocked e
    else
      match ← onRam (Vm.procPagetable p.toProc) with
      | none => badLocked e
      | some pagetable => do
          let (done, sz) ← loadSegments e pagetable elf.phnum (elf.phoff % 2 ^ 32) 0
          if !done then
            onRam (Vm.procFreepagetable pagetable sz)
            badLocked e
          else
            onFs (Fs.iunlockput e)
            endOp
            finish path argv elf.entry pagetable sz

/-- `argv` are the addresses of the argument strings, up to the zero at the end of the array. -/
def kexec (path : List Byte) (argv : List Nat) : K Int := do
  let p := (← get).proc
  beginOp
  match ← onFs (Fs.namei p.cwd path) with
  | none => do
      endOp
      pure (-1)
  | some e => do
      onFs (Fs.ilock e)
      execHeld path argv e

/-! ## `sys_exec` -/

/-- `fetchaddr`: the word at a user address, or nothing where the source returns -1. -/
def fetchaddr (addr : Nat) : K (Option Nat) := do
  let p := (← get).proc
  if p.sz ≤ addr ∨ p.sz < (addr + 8) % 2 ^ 64 then pure none
  else
    let (r, bytes) ← onRam (Vm.copyin p.toProc p.pagetable addr 8)
    if r ≠ 0 then pure none else pure (some (load 8 (fun i => bytes.getD i 0) 0))

/-- The loop of `sys_exec`: whether it came to the end of the user's array, and the pages in `argv`. -/
def fetchArgs (uargv : Nat) : Nat → List Nat → K (Bool × List Nat)
  | 0, argv => pure (false, argv)
  | n + 1, argv => do
      match ← fetchaddr ((uargv + 8 * argv.length) % 2 ^ 64) with
      | none => pure (false, argv)
      | some uarg => do
          if uarg = 0 then pure (true, argv)
          else
            match ← onRam Vm.kalloc with
            | none => pure (false, argv)
            | some page => do
                let p := (← get).proc
                let (found, bytes) ← onRam (Vm.copyinstr p.pagetable uarg pgSize)
                onRam (modify fun r => r.write page 0 bytes)
                if !found then pure (false, argv ++ [page]) else fetchArgs uargv n (argv ++ [page])

/-- `for(i = 0; i < NELEM(argv) && argv[i] != 0; i++) kfree(argv[i])`. -/
def freeArgs : List Nat → K Unit
  | [] => pure ()
  | page :: rest => do
      onRam (Vm.kfree page)
      freeArgs rest

/-- The system call; its arguments are in the trapframe. The first `MAXARG` passes of the loop are
those before `i >= NELEM(argv)`. -/
def sysExec : K Int := do
  let s ← get
  let tf := s.ram.mem s.proc.trapframe
  let uargv := load 8 tf tfA1
  let (found, path) ← onRam (Vm.copyinstr s.proc.pagetable (load 8 tf tfA0) maxPath)
  if !found then pure (-1)
  else
    let (done, argv) ← fetchArgs uargv maxArg []
    if !done then
      freeArgs argv
      pure (-1)
    else
      let ret ← kexec path.dropLast argv
      freeArgs argv
      pure ret

end Xv6.Exec
