import Xv6.Space.Space
import Xv6.Umalloc.Umalloc
import Xv6.Vm.Image
import Xv6.Vm.Tables

/-!
# `malloc` on the kernel

`sbrk` calls `sys_sbrk` with `SBRK_EAGER`. The break of the process is its size.
-/

namespace Xv6.Umalloc

open Lib Vm

/-- `sbrk` by a process. -/
def kernelSbrk (n : Int) : EStateM Stop (Ram × Vm.Proc) Int := fun (s, p) =>
  match Space.sysSbrk p n Space.sbrkEager s with
  | .ok (r, q) t => .ok r (t, q)
  | .error e t => .error e (t, p)

/-- `malloc` returns 0 or a block of `nbytes` bytes below the break, and the break has not moved down. -/
def Promised (h : Heap) (s : Ram) (p : Vm.Proc) (nbytes : Nat) : Prop :=
  ∃ n res u, (∀ k, n ≤ k → malloc kernelSbrk k nbytes ⟨h, (s, p)⟩ = .ok res u) ∧
    p.sz ≤ u.sys.2.sz ∧ (res = 0 ∨ res + nbytes ≤ u.sys.2.sz)

/-- The kernel refuses to let the process grow by one unit. -/
def NoRoom (s : Ram) (p : Vm.Proc) : Prop :=
  trapframe < p.sz + headerSize ∨
    s.freelist.length < s.pagesNeeded p.pagetable (npages p.sz) (npages (p.sz + headerSize))

end Xv6.Umalloc
