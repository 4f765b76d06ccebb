import Xv6.Vm.Vm

/-!
# The memory of processes (`proc.c`, `sysproc.c`)

`allocproc`, `freeproc`, `kfork` and `growproc` as far as they concern memory, and `sys_sbrk`. A pointer
that may be 0 is an `Option`. A function that changes fields of the process returns them.
-/

namespace Xv6.Space

open Lib Vm

/-- `sizeof(struct trapframe)`. -/
def trapframeSize : Nat := 288

/-- The offset of the field `a0` of `struct trapframe`. -/
def trapframeA0 : Nat := 112

def freeproc (trapframe pagetable : Option Nat) (sz : Nat) : K Unit := do
  match trapframe with
  | none => pure ()
  | some tf => kfree tf
  match pagetable with
  | none => pure ()
  | some r => procFreepagetable r sz

/-- `allocproc` from `found` on. The `sz` of an unused slot is 0. -/
def allocproc : K (Option Vm.Proc) := do
  match ← kalloc with
  | none =>
      freeproc none none 0
      pure none
  | some tf => do
      match ← procPagetable ⟨0, tf, 0⟩ with
      | none =>
          freeproc (some tf) none 0
          pure none
      | some r => pure (some ⟨r, tf, 0⟩)

/-- `*(np->trapframe) = *(p->trapframe)` and `np->trapframe->a0 = 0`. -/
def copyTrapframe (s : Ram) (tf tf' : Nat) : Ram :=
  { s with mem := Function.update s.mem tf' (store 8 (blit (s.mem tf') 0 (s.mem tf) 0 trapframeSize) trapframeA0 0) }

/-- The child of the process `p`. -/
def kfork (p : Vm.Proc) : K (Option Vm.Proc) := do
  match ← allocproc with
  | none => pure none
  | some np => do
      if (← uvmcopy p.pagetable np.pagetable p.sz) < 0 then
        freeproc (some np.trapframe) (some np.pagetable) np.sz
        pure none
      else
        modify fun s => copyTrapframe s p.trapframe np.trapframe
        pure (some { np with sz := p.sz })

/-- `sz + n`, where `sz` is a `uint64` and `n` an `int`. -/
def addSize (sz : Nat) (n : Int) : Nat := ((sz + n) % 2 ^ 64).toNat

def growproc (p : Vm.Proc) (n : Int) : K (Int × Vm.Proc) := do
  let sz := p.sz
  if 0 < n then
    if trapframe < addSize sz n then pure (-1, p)
    else
      let sz ← uvmalloc p.pagetable sz (addSize sz n) pteW
      if sz = 0 then pure (-1, p) else pure (0, { p with sz := sz })
  else if n < 0 then
    let sz ← uvmdealloc p.pagetable sz (addSize sz n)
    pure (0, { p with sz := sz })
  else pure (0, p)

def sbrkEager : Int := 1

/-- The result is a `uint64` in the source, and -1 is the largest. -/
def sysSbrk (p : Vm.Proc) (n t : Int) : K (Int × Vm.Proc) := do
  let addr := p.sz
  if t = sbrkEager ∨ n < 0 then
    let (res, p) ← growproc p n
    if res < 0 then pure (-1, p) else pure (addr, p)
  else if addSize addr n < addr then pure (-1, p)
  else if trapframe < addSize addr n then pure (-1, p)
  else pure (addr, { p with sz := addSize p.sz n })

end Xv6.Space
