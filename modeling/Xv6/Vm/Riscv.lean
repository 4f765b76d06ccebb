import Xv6.Param

/-!
# Addresses and page-table entries

The macros of `riscv.h`. An address is a natural number below `2 ^ 64`, a page-table entry a 64-bit
word: the physical page number in bits 10 to 53, flags below and above it.
-/

namespace Xv6.Vm

/-! ## Addresses -/

/-- `PGROUNDDOWN`. -/
def pgRoundDown (a : Nat) : Nat := a / pgSize * pgSize

/-- `PGROUNDUP`, in 64-bit arithmetic. -/
def pgRoundUp (sz : Nat) : Nat := pgRoundDown ((sz + (pgSize - 1)) % 2 ^ 64)

/-- `PX(level, va)`. -/
def px (level va : Nat) : Nat := va / 2 ^ (12 + 9 * level) % 512

/-- A 64-bit value stored in an `int` and widened to 64 bits again. -/
def throughInt (n : Nat) : Nat :=
  if n % 2 ^ 32 < 2 ^ 31 then n % 2 ^ 32 else n % 2 ^ 32 + (2 ^ 64 - 2 ^ 32)

/-! ## Page-table entries -/

abbrev Pte := BitVec 64

def pteV : Pte := 0x001
def pteR : Pte := 0x002
def pteW : Pte := 0x004
def pteX : Pte := 0x008
def pteU : Pte := 0x010
def pteA : Pte := 0x040
def pteD : Pte := 0x080
def pteCow : Pte := 0x100

/-- `PTE_THEAD_MAEE`, the memory attributes of the C908 core. -/
def pteMaee : Pte := 0x7000000000000000

/-- The bits of the physical page number. -/
def ppnMask : Pte := 0x003FFFFFFFFFFC00

/-- `*pte & flag`, as a truth value. -/
def Pte.has (pte flag : Pte) : Bool := pte &&& flag != 0

/-- `PA2PTE`. -/
def pa2pte (pa : Nat) : Pte := (BitVec.ofNat 64 pa >>> 12) <<< 10

/-- `PTE2PA`. -/
def pte2pa (pte : Pte) : Nat := (((pte >>> 10) <<< 12) &&& 0x00FFFFFFFFFFFF00#64).toNat

/-- `*pte & ~0x003FFFFFFFFFFC00UL`: the entry without its page number. -/
def pteFlags (pte : Pte) : Pte := pte &&& ~~~ppnMask

end Xv6.Vm
