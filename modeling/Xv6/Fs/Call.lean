import Xv6.Fs.Fs

/-!
# The file-system part of the system calls (`sysfile.c`, `exec.c`)

`cwd` is the entry of the caller's current directory in the inode table. Each function runs inside
the transaction that its system call brackets with `begin_op` and `end_op`.
-/

namespace Xv6.Fs

open Lib

/-- `argstr(n, buf, MAXPATH)`: a string up to its first zero byte, if it is short enough. -/
def argstr (path : List Byte) : Option (List Byte) :=
  let s := path.takeWhile (· != 0)
  if s.length < maxPath then some s else none

def dot : Name := [46#8]
def dotdot : Name := [46#8, 46#8]

/-- Change fields of an in-memory inode and call `iupdate`. -/
def update (e : Nat) (f : Dinode → Dinode) : K Unit := do
  modify fun s => s.setD e (f (s.inode e).d)
  iupdate e

/-! ## `create` -/

/-- The part of `create` after the `fail` label. -/
def createFail (dp e : Nat) : K (Option Nat) := do
  -- something went wrong. de-allocate ip.
  update e fun d => { d with nlink := 0 }
  iunlockput e
  iunlockput dp
  pure none

/-- The entries of a new inode: `.` and `..` if it is a directory, and its name in `dp`. -/
def createLinks (dp e : Nat) (name : Name) (type : Nat) : K Bool := do
  let s ← get
  let inum := (s.inode e).inum
  let dots ← (if type = tDir then do
      if ← dirlink e dot inum then do
        let s ← get
        dirlink e dotdot (s.inode dp).inum
      else pure false
    else pure true)
  if dots then dirlink dp name inum else pure false

/-- The part of `create` that makes a new inode in the locked directory `dp`. -/
def createNew (dp : Nat) (name : Name) (type major minor : Nat) : K (Option Nat) := do
  match ← ialloc type with
  | none => do
      iunlockput dp
      pure none
  | some e => do
      ilock e
      update e fun d => { d with major := major % 2 ^ 16, minor := minor % 2 ^ 16, nlink := 1 }
      if ← createLinks dp e name type then do
        if type = tDir then
          -- now that success is guaranteed: for ".."
          update dp fun d => { d with nlink := (d.nlink + 1) % 2 ^ 16 }
        else pure ()
        iunlockput dp
        pure (some e)
      else createFail dp e

def create (cwd : Nat) (path : List Byte) (type major minor : Nat) : K (Option Nat) := do
  match ← nameiparent cwd path with
  | none => pure none
  | some (dp, name) => do
      ilock dp
      match ← dirlookup dp name with
      | some (e, _) => do
          iunlockput dp
          ilock e
          let s ← get
          if type = tFile ∧ ((s.inode e).d.type = tFile ∨ (s.inode e).d.type = tDevice) then pure (some e)
          else do
            iunlockput e
            pure none
      | none => createNew dp name type major minor

/-! ## `sys_link` and `sys_unlink` -/

/-- `sys_link` after the `bad` label. -/
def linkBad (e : Nat) : K Bool := do
  ilock e
  update e fun d => { d with nlink := (d.nlink + 2 ^ 16 - 1) % 2 ^ 16 }
  iunlockput e
  pure false

def link (cwd : Nat) (old new : List Byte) : K Bool := do
  match ← namei cwd old with
  | none => pure false
  | some e => do
      ilock e
      let s ← get
      if (s.inode e).d.type = tDir then do
        iunlockput e
        pure false
      else do
        update e fun d => { d with nlink := (d.nlink + 1) % 2 ^ 16 }
        iunlock e
        match ← nameiparent cwd new with
        | none => linkBad e
        | some (dp, name) => do
            ilock dp
            let s ← get
            if (s.inode dp).dev ≠ (s.inode e).dev then do
              iunlockput dp
              linkBad e
            else if ← dirlink dp name (s.inode e).inum then do
              iunlockput dp
              iput e
              pure true
            else do
              iunlockput dp
              linkBad e

/-- The loop of `isdirempty` over `k` entries from `off` on. -/
def isdiremptyFrom (dp : Nat) : Nat → Nat → K Bool
  | 0, _ => pure true
  | k + 1, off => do
      let (r, de) ← readiKernel dp off direntSize
      if r ≠ direntSize then throw (.panic .isdiremptyRead)
      else if (getDirent de 0).inum ≠ 0 then pure false
      else isdiremptyFrom dp k (off + direntSize)

/-- Is the directory empty except for `.` and `..`? -/
def isdirempty (dp : Nat) : K Bool := do
  let s ← get
  isdiremptyFrom dp (slotsFrom (s.inode dp).d.size (2 * direntSize)) (2 * direntSize)

/-- The part of `sys_unlink` that removes the entry at `off` of `dp`, which names the inode `e`. -/
def unlinkEntry (dp e off : Nat) : K Bool := do
  let s ← get
  let isDir := (s.inode e).d.type == tDir
  let empty ← (if isDir then isdirempty e else pure true)
  if ¬ empty then do
    iunlockput e
    iunlockput dp
    pure false
  else do
    let r ← writei dp (fun _ => some 0) off direntSize
    if r ≠ some direntSize then throw (.panic .unlinkWritei)
    else do
      if isDir then update dp fun d => { d with nlink := (d.nlink + 2 ^ 16 - 1) % 2 ^ 16 } else pure ()
      iunlockput dp
      update e fun d => { d with nlink := (d.nlink + 2 ^ 16 - 1) % 2 ^ 16 }
      iunlockput e
      pure true

def unlink (cwd : Nat) (path : List Byte) : K Bool := do
  match ← nameiparent cwd path with
  | none => pure false
  | some (dp, name) => do
      ilock dp
      -- Cannot unlink "." or "..".
      if name = dot ∨ name = dotdot then do
        iunlockput dp
        pure false
      else
        match ← dirlookup dp name with
        | none => do
            iunlockput dp
            pure false
        | some (e, off) => do
            ilock e
            let s ← get
            -- `ip->nlink` is a short
            if (s.inode e).d.nlink = 0 ∨ 2 ^ 15 ≤ (s.inode e).d.nlink then throw (.panic .unlinkNlink)
            else unlinkEntry dp e off

/-! ## `sys_open`, `sys_mkdir`, `sys_mknod`, `sys_chdir`, `kexec` -/

def oRdonly : Nat := 0x000
def oWronly : Nat := 0x001
def oRdwr : Nat := 0x002
def oCreate : Nat := 0x200
def oTrunc : Nat := 0x400

/-- `omode & flag`. -/
def hasFlag (omode flag : Nat) : Bool := omode &&& flag != 0

/-- The part of `sys_open` up to the allocation of a file: the inode, locked. -/
def openInode (cwd : Nat) (path : List Byte) (omode : Nat) : K (Option Nat) := do
  let ip ← (if hasFlag omode oCreate then create cwd path tFile 0 0
    else do
      match ← namei cwd path with
      | none => pure none
      | some e => do
          ilock e
          let s ← get
          if (s.inode e).d.type = tDir ∧ omode ≠ oRdonly then do
            iunlockput e
            pure none
          else pure (some e))
  match ip with
  | none => pure none
  | some e => do
      let s ← get
      if (s.inode e).d.type = tDevice ∧ ndev ≤ (s.inode e).d.major then do
        iunlockput e
        pure none
      else pure (some e)

/-- The end of a successful `sys_open`. -/
def openTrunc (e omode : Nat) : K Unit := do
  let s ← get
  if hasFlag omode oTrunc ∧ (s.inode e).d.type = tFile then itrunc e else pure ()
  iunlock e

/-- `sys_mkdir` and `sys_mknod`. -/
def make (cwd : Nat) (path : List Byte) (type major minor : Nat) : K Bool := do
  match ← create cwd path type major minor with
  | none => pure false
  | some e => do
      iunlockput e
      pure true

/-- The part of `sys_chdir` in the transaction: the new current directory. -/
def chdir (cwd : Nat) (path : List Byte) : K (Option Nat) := do
  match ← namei cwd path with
  | none => pure none
  | some e => do
      ilock e
      let s ← get
      if (s.inode e).d.type ≠ tDir then do
        iunlockput e
        pure none
      else do
        iunlock e
        iput cwd
        pure (some e)

/-- The reads of the loader. -/
def readAll (e : Nat) : List (Nat × Nat) → K Unit
  | [] => pure ()
  | (off, n) :: rs => do
      let _ ← readiKernel e off n
      readAll e rs

/-- `kexec` reads the program from the inode, at offsets that its contents determine. -/
def exec (cwd : Nat) (path : List Byte) (reads : List (Nat × Nat)) : K Bool := do
  match ← namei cwd path with
  | none => pure false
  | some e => do
      ilock e
      readAll e reads
      iunlockput e
      pure true

end Xv6.Fs
