import Xv6.Exec.System
import Xv6.Space.Space

/-!
# The system of all processes

Processes are made, run programs, grow and shrink, take page faults, have the kernel copy to and from
them, and exit, in any order. The kernel takes pages for itself in between. `byte` is what a process
reads.
-/

namespace Xv6.Space

open Lib Vm

/-- `proc i` is the process in slot `i`, if there is one; `pages` are pages the kernel took. -/
structure Spaces where
  ram : Ram
  proc : Nat → Option Vm.Proc
  pages : List Nat

/-- The machine on which `kexec` is called. -/
def Spaces.mach (S : Spaces) (p : Vm.Proc) (fs : Fs.Fs) (cwd : Nat) (name : List Exec.Byte) (outstanding : Int) : Exec.Mach :=
  ⟨fs, S.ram, ⟨p, cwd, name⟩, outstanding⟩

inductive Act
  | kalloc
  | kfree (a : Nat)
  /-- The kernel writes a page it has, or a trapframe. -/
  | write (a : Nat) (b : Bytes)
  /-- `userinit` in slot `i`. -/
  | start (i : Nat)
  /-- `kfork` by the process `i`, with slot `j` for the child. -/
  | fork (i j : Nat)
  | exec (i : Nat) (fs : Fs.Fs) (cwd : Nat) (name : List Exec.Byte) (outstanding : Int) (path : List Exec.Byte) (argv : List Nat)
  | sbrk (i : Nat) (n t : Int)
  /-- A page fault at `a`. -/
  | fault (i a : Nat)
  /-- The process stores a byte, which its page table allows. -/
  | store (i a : Nat) (c : BitVec 8)
  | copyout (i a : Nat) (src : List (BitVec 8))
  | copyin (i a len : Nat)
  /-- `freeproc`, which `kwait` calls for a process that has exited. -/
  | free (i : Nat)

/-- The process whose memory changes. -/
def Act.slot : Act → Option Nat
  | .exec i .. | .sbrk i .. | .fault i _ | .store i .. | .copyout i .. | .copyin i .. | .free i => some i
  | _ => none

namespace Spaces

def setProc (S : Spaces) (i : Nat) (p : Option Vm.Proc) : Nat → Option Vm.Proc := Function.update S.proc i p

def exec {α : Type} (S : Spaces) (m : K α) (k : α → Ram → Spaces) : Option (Except Stop Spaces) :=
  match m S.ram with
  | .ok a t => some (.ok (k a t))
  | .error e _ => some (.error e)

/-- A call by the process `i`. -/
def call {α : Type} (S : Spaces) (i : Nat) (m : Vm.Proc → K α) (k : Vm.Proc → α → Ram → Spaces) : Option (Except Stop Spaces) :=
  (S.proc i).bind fun p => S.exec (m p) (k p)

/-- A new process in slot `i`, if there is one. -/
def add (S : Spaces) (i : Nat) (p : Option Vm.Proc) (t : Ram) : Spaces :=
  match p with
  | none => { S with ram := t }
  | some p => { S with ram := t, proc := S.setProc i (some p) }

/-- The page that a process may store to at `a`. -/
def storePage (S : Spaces) (p : Vm.Proc) (a : Nat) : Option Nat :=
  (S.ram.table p.pagetable (a / pgSize)).bind fun x => if x.2.has pteU ∧ x.2.has pteW then some x.1 else none

def step (S : Spaces) : Act → Option (Except Stop Spaces)
  | .kalloc => S.exec kalloc fun res t => { S with ram := t, pages := res.toList ++ S.pages }
  | .kfree a => S.exec (Vm.kfree a) fun _ t => { S with ram := t, pages := S.pages.erase a }
  | .write a b => some (.ok { S with ram := { S.ram with mem := Function.update S.ram.mem a b } })
  | .start i => if S.proc i = none then S.exec allocproc (S.add i) else none
  | .fork i j => if S.proc j = none then S.call i kfork fun _ => S.add j else none
  | .exec i fs cwd name outstanding path argv =>
      (S.proc i).bind fun p =>
        match Exec.kexec path argv (S.mach p fs cwd name outstanding) with
        | .ok _ N => some (.ok { S with ram := N.ram, proc := S.setProc i (some N.proc.toProc) })
        | .error e _ => some (.error e)
  | .sbrk i n t => S.call i (sysSbrk · n t) fun _ res u => { S with ram := u, proc := S.setProc i (some res.2) }
  | .fault i a => S.call i (fun p => vmfault p p.pagetable a) fun _ _ t => { S with ram := t }
  | .store i a c => do
      let p ← S.proc i
      let q ← S.storePage p a
      some (.ok { S with ram := S.ram.write q (a % pgSize) [c] })
  | .copyout i a src => S.call i (fun p => Vm.copyout p p.pagetable a src) fun _ _ t => { S with ram := t }
  | .copyin i a len => S.call i (fun p => Vm.copyin p p.pagetable a len) fun _ _ t => { S with ram := t }
  | .free i => S.call i (fun p => freeproc (some p.trapframe) (some p.pagetable) p.sz) fun _ _ t =>
      { S with ram := t, proc := S.setProc i none }

/-- The pages that the kernel has: those it took, and the trapframes. -/
def Owns (S : Spaces) (a : Nat) : Prop := a ∈ S.pages ∨ ∃ i p, S.proc i = some p ∧ p.trapframe = a

/-- What callers see to. `kexec` runs with the file system at rest, and its arguments are strings in pages
of the kernel; the argument of `sbrk` is an `int`. -/
def ok (S : Spaces) : Act → Prop
  | .kfree a => a ∈ S.pages
  | .write a _ => S.Owns a
  | .exec i fs cwd name outstanding _ argv => argv.length < maxArg ∧
      (∀ a ∈ argv, a ∈ S.pages ∧ (Exec.stringAt S.ram a).length < pgSize) ∧
      ∀ p, S.proc i = some p → ∃ T j, Exec.FsOk T j (S.mach p fs cwd name outstanding)
  | .sbrk _ n _ => -2 ^ 31 ≤ n ∧ n < 2 ^ 31
  | _ => True

/-- After `kinit`. -/
def boot (ram : Ram) : Spaces := ⟨ram, fun _ => none, []⟩

/-- A state that is reached after `kinit`, which is called with an empty free list. -/
def Reachable (S : Spaces) : Prop := ∃ s₀ s, (kernBase ≤ s₀.kend ∧ s₀.kend ≤ physTop ∧ s₀.freelist = []) ∧
  kinit s₀ = .ok () s ∧ Reach step ok (boot s) S

end Spaces

/-! ## What a process reads -/

/-- The byte at an address. A page that is not there yet reads as zero. -/
def byte (s : Ram) (p : Vm.Proc) (a : Nat) : BitVec 8 :=
  ((s.table p.pagetable (a / pgSize)).map fun x => s.mem x.1 (a % pgSize)).getD 0

/-- The bytes of a range. -/
def bytes (s : Ram) (p : Vm.Proc) (a n : Nat) : List (BitVec 8) := (List.range n).map fun k => byte s p (a + k)

/-- Zeroed pages that the user may read and write are mapped from `lo` to `hi`, and no other entry has
changed. -/
structure GrownTable (s : Ram) (r lo hi : Nat) (t : Ram) : Prop where
  new : ∀ v, lo ≤ v → v < hi → ∃ a, t.table r v = some (a, allocPerm pteW ||| pteV) ∧ t.mem a = fun _ => 0
  old : ∀ v, v < lo ∨ hi ≤ v → t.table r v = s.table r v

/-- Exactly the entries from `lo` to `hi` are gone. -/
structure ShrunkTable (s : Ram) (r lo hi : Nat) (t : Ram) : Prop where
  gone : ∀ v, lo ≤ v → v < hi → t.table r v = none
  old : ∀ v, v < lo ∨ hi ≤ v → t.table r v = s.table r v

/-- The page at an address is mapped, and neither writable nor copy-on-write. -/
def ReadOnly (s : Ram) (p : Vm.Proc) (a : Nat) : Prop :=
  ∃ x, s.table p.pagetable (a / pgSize) = some x ∧ x.2.has pteW = false ∧ x.2.has pteCow = false

/-- The page at an address is not mapped, and is not below the size. -/
def Beyond (s : Ram) (p : Vm.Proc) (a : Nat) : Prop :=
  s.table p.pagetable (a / pgSize) = none ∧ p.sz ≤ a / pgSize * pgSize

/-! ## Shape of page tables -/

/-- The page `t` of the page table of process `i`, `d` levels below the root: it points to further pages of
the table only, and is used for nothing else. -/
structure TablePage (S : Spaces) (i d k t : Nat) : Prop where
  inner : d < 2 → ∀ n, n < 512 → (S.ram.pte t n).has pteV = true →
    (S.ram.pte t n).has (pteR ||| pteW ||| pteX) = false ∧
      ∀ p, S.proc i = some p → S.ram.node p.pagetable (d + 1) (512 * k + n) = some (pte2pa (S.ram.pte t n))
  only : ∀ j q d' k', S.proc j = some q → d' ≤ 2 → k' < 512 ^ d' → S.ram.node q.pagetable d' k' = some t →
    j = i ∧ d' = d ∧ k' = k
  user : ∀ j q v x, S.proc j = some q → v < trapframe / pgSize → S.ram.table q.pagetable v = some x → x.1 ≠ t
  kern : ¬ S.Owns t
  free : t ∉ S.ram.freelist

/-- An entry of the page table of `p` is below the size, or one of the two pages at the top, which are not
the user's. -/
def EntryOk (p : Vm.Proc) (v : Nat) (flags : Pte) : Prop :=
  v * pgSize < pgRoundUp p.sz ∨ (v * pgSize = trapframe ∨ v * pgSize = trampoline) ∧ flags.has pteU = false

/-! ## Pages that are not there yet -/

/-- The page at an address is below the size, and not mapped yet. -/
def Lazy (s : Ram) (p : Vm.Proc) (a : Nat) : Prop :=
  s.table p.pagetable (a / pgSize) = none ∧ a / pgSize * pgSize < p.sz

instance (s : Ram) (p : Vm.Proc) (a : Nat) : Decidable (Lazy s p a) := inferInstanceAs (Decidable (_ ∧ _))

/-- The process touches every page below `n` that is not mapped; whether each was mapped then. -/
def touchPages (p : Vm.Proc) : Nat → K Bool
  | 0 => pure true
  | n + 1 => do
      let done ← touchPages p n
      if ← ismapped p.pagetable (n * pgSize) then pure done
      else
        let page ← vmfault p p.pagetable (n * pgSize)
        pure (done && page.isSome)

/-- All pages below the size. -/
def touchAll (p : Vm.Proc) : K Bool := touchPages p (npages p.sz)

end Xv6.Space
