import Xv6.Vm.Tables

/-!
# Strings of a user (`fetchstr`)

`Ram.userByte` is the byte that a user reads at an address, and `fetchString` reads a string byte by
byte. `copyinstr` reads it page by page.
-/

namespace Xv6.Vm

open Xv6.Lib

/-- The counter is an `int`. -/
def strlen (b : List (BitVec 8)) : Int := Int.bmod (b.takeWhile (· != 0)).length (2 ^ 32)

/-- The length of the string, or -1; and the bytes stored in `buf`. `max` is an `int` here and a `uint64` in
`copyinstr`; the process `p` is `myproc()`. -/
def fetchstr (p : Proc) (addr : Nat) (max : Int) : K (Int × List (BitVec 8)) := do
  let (found, buf) ← copyinstr p.pagetable addr (max % 2 ^ 64).toNat
  if !found then pure (-1, buf) else pure (strlen buf, buf)

/-- The physical page of the virtual page number `v`, below `MAXVA` and mapped with `PTE_V` and `PTE_U`. -/
def Ram.userPage (s : Ram) (r v : Nat) : Option Nat :=
  (s.table r v).bind fun x => if x.2.has pteU then some x.1 else none

/-- The byte that a user reads at an address. -/
def Ram.userByte (s : Ram) (r a : Nat) : Option (BitVec 8) :=
  (s.userPage r (a / pgSize)).map fun p => s.mem p (a % pgSize)

/-- The string from `a` on, of at most `max` bytes with the zero at its end: whether the end was found,
and the bytes up to there. -/
def Ram.fetchString (s : Ram) (r : Nat) : Nat → Nat → Bool × List (BitVec 8)
  | _, 0 => (false, [])
  | a, max + 1 =>
      match s.userByte r a with
      | none => (false, [])
      | some c =>
          if c = 0 then (true, [0])
          else
            let (found, rest) := s.fetchString r (a + 1) max
            (found, c :: rest)

/-- The string from `a` on has length `k`: no byte before the `k`-th is zero, and all are a user's. -/
structure Ram.StringAt (s : Ram) (r a k : Nat) : Prop where
  last : s.userByte r (a + k) = some 0
  before : ∀ i, i < k → ∃ c, s.userByte r (a + i) = some c ∧ c ≠ 0

/-- The bytes from `a` on that a user reads, zero where there is none. -/
def Ram.userBytes (s : Ram) (r a n : Nat) : List (BitVec 8) := (List.range n).map fun i => (s.userByte r (a + i)).getD 0

end Xv6.Vm
