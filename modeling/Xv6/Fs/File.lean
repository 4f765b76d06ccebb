import Xv6.Fs.Call

/-!
# Open files and processes (`file.c`, `sysfile.c`, `pipe.c`, `proc.c`)

The system: the file system, the table of open files, the pipes, and the descriptors and current
directory of each process.
-/

namespace Xv6.Fs

open Lib

/-! ## The state -/

inductive FileType
  | none
  | pipe
  | inode
  | device
  deriving DecidableEq, Repr

structure File where
  type : FileType
  ref : Nat
  readable : Bool
  writable : Bool
  pipe : Nat
  ip : Nat
  off : Nat
  major : Nat

/-- A pipe in its page, and how often the page has been freed. -/
structure Pipe where
  readopen : Bool
  writeopen : Bool
  frees : Nat
  deriving DecidableEq, Repr

structure Proc where
  ofile : Nat → Option Nat
  cwd : Nat

/-- `pipe i` is the `i`-th pipe that was made, and `npipe` how many there were. -/
structure Sys where
  fs : Fs
  file : Nat → File
  pipe : Nat → Pipe
  npipe : Nat
  proc : Nat → Option Proc

abbrev M := EStateM Stop Sys

namespace Sys

def setFile (s : Sys) (f : Nat) (x : File) : Sys := { s with file := Function.update s.file f x }

def setPipe (s : Sys) (i : Nat) (x : Pipe) : Sys := { s with pipe := Function.update s.pipe i x }

def setProc (s : Sys) (p : Nat) (x : Option Proc) : Sys := { s with proc := Function.update s.proc p x }

end Sys

/-- Code of the file system. -/
def lift {α : Type} (m : K α) : M α := fun s =>
  match m s.fs with
  | .ok a t => .ok a { s with fs := t }
  | .error e t => .error e { s with fs := t }

/-! ## `file.c` and `pipe.c` -/

def filealloc : M (Option Nat) := do
  let s ← get
  match (List.range nfile).find? fun f => (s.file f).ref == 0 with
  | none => pure none
  | some f => do
      set (s.setFile f { s.file f with ref := 1 })
      pure (some f)

def filedup (f : Nat) : M Unit := do
  let s ← get
  if (s.file f).ref < 1 then throw (.panic .filedup)
  else set (s.setFile f { s.file f with ref := (s.file f).ref + 1 })

def pipeclose (i : Nat) (writable : Bool) : M Unit := do
  modify fun s => s.setPipe i
    (if writable then { s.pipe i with writeopen := false } else { s.pipe i with readopen := false })
  let s ← get
  if ¬ (s.pipe i).readopen ∧ ¬ (s.pipe i).writeopen then
    -- kfree((char*)pi)
    set (s.setPipe i { s.pipe i with frees := (s.pipe i).frees + 1 })
  else pure ()

def fileclose (f : Nat) : M Unit := do
  let s ← get
  let ff := s.file f
  if ff.ref < 1 then throw (.panic .fileclose)
  else if 1 < ff.ref then set (s.setFile f { ff with ref := ff.ref - 1 })
  else do
    set (s.setFile f { ff with ref := 0, type := .none })
    match ff.type with
    | .none => pure ()
    | .pipe => pipeclose ff.pipe ff.writable
    | .inode | .device => do
        lift beginOp
        lift (iput ff.ip)
        lift endOp

/-- `pipealloc`; `page` says whether `kalloc` returns a page. -/
def pipealloc (page : Bool) : M (Option (Nat × Nat)) := do
  match ← filealloc with
  | none => pure none
  | some f0 =>
      match ← filealloc with
      | none => do
          fileclose f0
          pure none
      | some f1 =>
          if ¬ page then do
            fileclose f0
            fileclose f1
            pure none
          else do
            modify fun s => { s with npipe := s.npipe + 1 }.setPipe s.npipe ⟨true, true, 0⟩
            modify fun s => s.setFile f0
              { s.file f0 with type := .pipe, readable := true, writable := false, pipe := s.npipe - 1 }
            modify fun s => s.setFile f1
              { s.file f1 with type := .pipe, readable := false, writable := true, pipe := s.npipe - 1 }
            pure (some (f0, f1))

/-- `filewrite` for `FD_INODE`: `i` of the `n` bytes are written. -/
def filewriteLoop (f n : Nat) (src : Nat → Option Byte) : Nat → Nat → M Nat
  | 0, i => pure i
  | k + 1, i =>
      if i < n then do
        let s ← get
        let n1 := min (n - i) ((maxOpBlocks - 1 - 1 - 2) / 2 * bsize)
        let ip := (s.file f).ip
        lift beginOp
        lift (ilock ip)
        let r ← lift (writei ip (fun x => src (i + x)) (s.file f).off n1)
        modify fun s => s.setFile f { s.file f with off := ((s.file f).off + r.getD 0) % 2 ^ 32 }
        lift (iunlock ip)
        lift endOp
        if r ≠ some n1 then pure i else filewriteLoop f n src k (i + n1)
      else pure i

/-- `filewrite`. Pipes and devices do not touch this state. -/
def filewrite (f : Nat) (src : Nat → Option Byte) (n : Nat) : M Unit := do
  let s ← get
  if ¬ (s.file f).writable then pure ()
  else
    match (s.file f).type with
    | .pipe | .device => pure ()
    | .inode => do
        let _ ← filewriteLoop f n src n 0
        pure ()
    | .none => throw (.panic .filewrite)

def fileread (f : Nat) (copyout : Nat → Nat → Bool) (n : Nat) : M Unit := do
  let s ← get
  if ¬ (s.file f).readable then pure ()
  else
    match (s.file f).type with
    | .pipe | .device => pure ()
    | .inode => do
        let ip := (s.file f).ip
        lift (ilock ip)
        let r ← lift (readi ip copyout (s.file f).off n)
        match r with
        | none => pure ()
        | some (tot, _) =>
            modify fun s => s.setFile f { s.file f with off := ((s.file f).off + tot) % 2 ^ 32 }
        lift (iunlock ip)
    | .none => throw (.panic .fileread)

/-! ## Descriptors -/

/-- `fdalloc`: the first free descriptor takes over the reference. -/
def fdalloc (p f : Nat) : M (Option Nat) := do
  let s ← get
  match s.proc p with
  | none => pure none
  | some pr =>
      match (List.range nofile).find? fun fd => (pr.ofile fd).isNone with
      | none => pure none
      | some fd => do
          set (s.setProc p (some { pr with ofile := Function.update pr.ofile fd (some f) }))
          pure (some fd)

/-- `argfd`. -/
def argfd (pr : Proc) (fd : Nat) : Option Nat := if fd < nofile then pr.ofile fd else none

def clearFd (p fd : Nat) : M Unit :=
  modify fun s => s.setProc p ((s.proc p).map fun pr => { pr with ofile := Function.update pr.ofile fd none })

/-! ## The system calls -/

inductive Call
  | openat (path : List Byte) (omode : Nat)
  | mkdir (path : List Byte)
  | mknod (path : List Byte) (major minor : Nat)
  | link (old new : List Byte)
  | unlink (path : List Byte)
  | chdir (path : List Byte)
  | exec (path : List Byte) (reads : List (Nat × Nat))
  | read (fd : Nat) (copyout : Nat → Nat → Bool) (n : Nat)
  | write (fd : Nat) (src : Nat → Option Byte) (n : Nat)
  | dup (fd : Nat)
  | close (fd : Nat)
  | pipe (page : Bool) (copyout : Bool)
  | fork (child : Nat) (memory : Bool)
  | exit

/-- A transaction around code of the file system. -/
def inTrans {α : Type} (m : M α) : M α := do
  lift beginOp
  let a ← m
  lift endOp
  pure a

/-- The fields that `sys_open` sets in the file `f`, for the inode `e`. -/
def Sys.openFile (s : Sys) (e f omode : Nat) : File where
  type := if (s.fs.inode e).d.type = tDevice then .device else .inode
  ref := (s.file f).ref
  readable := !hasFlag omode oWronly
  writable := hasFlag omode oWronly || hasFlag omode oRdwr
  pipe := (s.file f).pipe
  ip := e
  off := if (s.fs.inode e).d.type = tDevice then (s.file f).off else 0
  major := if (s.fs.inode e).d.type = tDevice then (s.fs.inode e).d.major else (s.file f).major

def sysOpen (p cwd : Nat) (path : List Byte) (omode : Nat) : M Unit := do
  match argstr path with
  | none => pure ()
  | some path => inTrans do
      match ← lift (openInode cwd path omode) with
      | none => pure ()
      | some e =>
          match ← filealloc with
          | none => lift (iunlockput e)
          | some f =>
              match ← fdalloc p f with
              | none => do
                  fileclose f
                  lift (iunlockput e)
              | some _ => do
                  modify fun s => s.setFile f (s.openFile e f omode)
                  lift (openTrunc e omode)

/-- A call with one path that runs in a transaction. -/
def withPath (path : List Byte) (m : List Byte → M Unit) : M Unit :=
  inTrans do
    match argstr path with
    | none => pure ()
    | some path => m path

def sysLink (cwd : Nat) (old new : List Byte) : M Unit :=
  match argstr old, argstr new with
  | some old, some new => inTrans do
      let _ ← lift (link cwd old new)
      pure ()
  | _, _ => pure ()

def sysUnlink (cwd : Nat) (path : List Byte) : M Unit :=
  match argstr path with
  | none => pure ()
  | some path => inTrans do
      let _ ← lift (unlink cwd path)
      pure ()

def sysExec (cwd : Nat) (path : List Byte) (reads : List (Nat × Nat)) : M Unit :=
  match argstr path with
  | none => pure ()
  | some path => inTrans do
      let _ ← lift (exec cwd path reads)
      pure ()

def sysChdir (p cwd : Nat) (path : List Byte) : M Unit := do
  let r ← inTrans do
    match argstr path with
    | none => pure none
    | some path => lift (chdir cwd path)
  match r with
  | none => pure ()
  | some e => modify fun s => s.setProc p ((s.proc p).map fun pr => { pr with cwd := e })

def sysDup (p fd : Nat) (pr : Proc) : M Unit :=
  match argfd pr fd with
  | none => pure ()
  | some f => do
      match ← fdalloc p f with
      | none => pure ()
      | some _ => filedup f

def sysClose (p fd : Nat) (pr : Proc) : M Unit :=
  match argfd pr fd with
  | none => pure ()
  | some f => do
      clearFd p fd
      fileclose f

/-- `sys_pipe`; `copyout` says whether both descriptors can be written to the user's array. -/
def sysPipe (p : Nat) (page copyout : Bool) : M Unit := do
  match ← pipealloc page with
  | none => pure ()
  | some (rf, wf) =>
      match ← fdalloc p rf with
      | none => do
          fileclose rf
          fileclose wf
      | some fd0 =>
          match ← fdalloc p wf with
          | none => do
              clearFd p fd0
              fileclose rf
              fileclose wf
          | some fd1 =>
              if copyout then pure ()
              else do
                clearFd p fd0
                clearFd p fd1
                fileclose rf
                fileclose wf

/-- The part of `kfork` that copies descriptors and the current directory to the child. -/
def forkFiles (child : Nat) (pr : Proc) : M Unit := do
  modify fun s => s.setProc child (some ⟨fun _ => none, pr.cwd⟩)
  forN (fun fd =>
    match pr.ofile fd with
    | none => pure ()
    | some f => do
        filedup f
        modify fun s => s.setProc child
          ((s.proc child).map fun c => { c with ofile := Function.update c.ofile fd (some f) })) nofile 0
  let _ ← lift (idup pr.cwd)
  pure ()

/-- The part of `kexit` that closes the files and drops the current directory. -/
def exitFiles (p : Nat) (pr : Proc) : M Unit := do
  forN (fun fd =>
    match pr.ofile fd with
    | none => pure ()
    | some f => do
        fileclose f
        clearFd p fd) nofile 0
  lift beginOp
  lift (iput pr.cwd)
  lift endOp
  modify fun s => s.setProc p none

/-- `userinit` takes the first slot of the process table. -/
def initproc : Nat := 0

/-- A system call of process `p`. -/
def call (p : Nat) (pr : Proc) : Call → M Unit
  | .openat path omode => sysOpen p pr.cwd path omode
  | .mkdir path => withPath path fun path => do
      let _ ← lift (make pr.cwd path tDir 0 0)
      pure ()
  | .mknod path major minor => withPath path fun path => do
      let _ ← lift (make pr.cwd path tDevice major minor)
      pure ()
  | .link old new => sysLink pr.cwd old new
  | .unlink path => sysUnlink pr.cwd path
  | .chdir path => sysChdir p pr.cwd path
  | .exec path reads => sysExec pr.cwd path reads
  | .read fd copyout n =>
      match argfd pr fd with
      | none => pure ()
      | some f => fileread f copyout n
  | .write fd src n =>
      match argfd pr fd with
      | none => pure ()
      | some f => filewrite f src n
  | .dup fd => sysDup p fd pr
  | .close fd => sysClose p fd pr
  | .pipe page copyout => sysPipe p page copyout
  | .fork child memory => if memory then forkFiles child pr else pure ()
  | .exit => if p = initproc then throw (.panic .initExiting) else exitFiles p pr

/-- A fork takes a free slot of the process table. -/
def Call.enabled (s : Sys) : Call → Bool
  | .fork child _ => child < nproc && (s.proc child).isNone
  | _ => true

end Xv6.Fs
