import Xv6.Vm.Vm

/-!
# What a user sees

The pages of a user from address 0 on, with the flags of their entries and their bytes, apart from
where they lie in physical memory.
-/

namespace Xv6.Vm

open Xv6.Lib

/-- The number of pages of a size. -/
def npages (sz : Nat) : Nat := (sz + (pgSize - 1)) / pgSize

/-- The permission of the pages that `uvmalloc` adds. -/
def allocPerm (xperm : Pte) : Pte := pteR ||| pteU ||| xperm ||| pteA ||| pteD ||| pteMaee

structure Image where
  npages : Nat
  flags : Nat → Pte
  byte : Bytes

namespace Image

def empty : Image := ⟨0, fun _ => 0, fun _ => 0⟩

/-- Zeroed pages with the flags `perm` are added, up to page number `n`. -/
def grow (m : Image) (n : Nat) (perm : Pte) : Image where
  npages := max m.npages n
  flags v := if v < m.npages then m.flags v else perm
  byte a := if a < m.npages * pgSize then m.byte a else 0

/-- The `n` bytes of `src` are written at `a`. -/
def write (m : Image) (a : Nat) (src : Bytes) (n : Nat) : Image := { m with byte := blit m.byte a src 0 n }

/-- A flag of a page is cleared. -/
def clear (m : Image) (v : Nat) (flag : Pte) : Image :=
  { m with flags := Function.update m.flags v (m.flags v &&& ~~~flag) }

theorem grow_npages (m : Image) (n : Nat) (perm : Pte) : (m.grow n perm).npages = max m.npages n := rfl

theorem grow_flags (m : Image) (n : Nat) (perm : Pte) (v : Nat) :
    (m.grow n perm).flags v = if v < m.npages then m.flags v else perm := rfl

theorem grow_byte (m : Image) (n : Nat) (perm : Pte) (a : Nat) :
    (m.grow n perm).byte a = if a < m.npages * pgSize then m.byte a else 0 := rfl

theorem write_byte (m : Image) (a : Nat) (src : Bytes) (n : Nat) : (m.write a src n).byte = blit m.byte a src 0 n := rfl

@[simp] theorem write_npages (m : Image) (a : Nat) (src : Bytes) (n : Nat) : (m.write a src n).npages = m.npages := rfl

@[simp] theorem write_flags (m : Image) (a : Nat) (src : Bytes) (n : Nat) : (m.write a src n).flags = m.flags := rfl

@[simp] theorem clear_npages (m : Image) (v : Nat) (flag : Pte) : (m.clear v flag).npages = m.npages := rfl

@[simp] theorem clear_byte (m : Image) (v : Nat) (flag : Pte) : (m.clear v flag).byte = m.byte := rfl

end Image

end Xv6.Vm
