import Mathlib.Logic.Function.Basic
import Xv6.Lib.Bytes
import Xv6.Vm.Riscv

/-!
# The physical page allocator (`kalloc.c`)

Physical memory is kept page by page. The free list is linked through the free pages in the source;
here it is a list of page addresses, the first page to be handed out first.
-/

namespace Xv6.Vm

open Xv6.Lib Function

/-- Physical memory and the allocator's data. `kend` is the linker's `end`, `trampolinePage` the
address of the trampoline code; they never change. `kfail` records that some call of `kalloc` has
returned 0. -/
structure Ram where
  mem : Nat → Bytes
  freelist : List Nat
  krefcount : Nat → Nat
  kend : Nat
  trampolinePage : Nat
  kfail : Bool

/-- Code that works on physical memory. -/
abbrev K := EStateM Stop Ram

def panic {α : Type} (e : Panic) : K α := throw (.panic e)

/-- `KREF_INDEX`, in 64-bit arithmetic. -/
@[irreducible] def krefIndex (pa : Nat) : Nat := (pa + (2 ^ 64 - kernBase)) % 2 ^ 64 / pgSize

/-- `KREF_COUNT`. -/
@[irreducible] def krefCount : Nat := (physTop - kernBase) / pgSize

namespace Ram

/-- `memset(pa, c, PGSIZE)`. -/
def memset (s : Ram) (pa : Nat) (c : BitVec 8) : Ram :=
  { s with mem := update s.mem pa fun _ => c }

/-- `memmove(dst, src, PGSIZE)`. -/
def copyPage (s : Ram) (dst src : Nat) : Ram :=
  { s with mem := update s.mem dst (s.mem src) }

/-- Writes bytes into the page at `pa`, from offset `off` on. -/
def write (s : Ram) (pa off : Nat) (bytes : List (BitVec 8)) : Ram :=
  let page := blit (s.mem pa) off (fun i => bytes.getD i 0) 0 bytes.length
  { s with mem := update s.mem pa page }

/-- The `n` bytes of the page at `pa` from offset `off` on. -/
def read (s : Ram) (pa off n : Nat) : List (BitVec 8) :=
  (List.range n).map fun i => s.mem pa (off + i)

def setRef (s : Ram) (idx n : Nat) : Ram :=
  { s with krefcount := update s.krefcount idx n }

end Ram

def krefpage (pa : Nat) : K Unit := do
  let idx := krefIndex pa
  if krefCount ≤ idx then pure ()
  else modify fun s => s.setRef idx (s.krefcount idx + 1)

/-- Puts the page at the head of the free list, filled with junk. -/
def Ram.push (s : Ram) (pa : Nat) : Ram := { s.memset pa 1 with freelist := pa :: s.freelist }

def kfree (pa : Nat) : K Unit := do
  let s ← get
  if pa % pgSize ≠ 0 ∨ pa < s.kend ∨ physTop ≤ pa then panic .kfree
  else
    let idx := krefIndex pa
    if idx < krefCount then
      if 1 < s.krefcount idx then set (s.setRef idx (s.krefcount idx - 1))
      else set ((s.setRef idx 0).push pa)
    else set (s.push pa)

/-- Takes the page `pa` off the free list, leaving `rest`. -/
def Ram.pop (s : Ram) (pa : Nat) (rest : List Nat) : Ram :=
  { (s.memset pa 0).setRef (krefIndex pa) 1 with freelist := rest }

/-- The state after a call of `kalloc` that found no page. -/
def Ram.outOfMemory (s : Ram) : Ram := { s with kfail := true }

/-- The address of a free page, or nothing where the source returns 0. -/
def kalloc : K (Option Nat) := do
  let s ← get
  match s.freelist with
  | [] => do
      set s.outOfMemory
      pure none
  | pa :: rest => do
      set (s.pop pa rest)
      pure (some pa)

/-- The loop of `kinit`: `n` pages from `p` on. -/
def kinitLoop : Nat → Nat → K Unit
  | 0, _ => pure ()
  | n + 1, p => do
      modify fun s => s.setRef (krefIndex p) 1
      kfree p
      kinitLoop n (p + pgSize)

/-- `for(p = PGROUNDUP(end); p + PGSIZE <= PHYSTOP; p += PGSIZE)`. -/
def kinit : K Unit := do
  let s ← get
  let p := pgRoundUp s.kend
  kinitLoop ((physTop - p) / pgSize) p

end Xv6.Vm
