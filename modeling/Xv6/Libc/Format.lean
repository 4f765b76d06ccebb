import Mathlib.Data.Nat.Digits.Defs
import Xv6.Libc.Printf

/-!
# Numerals, and formats by their pieces

What the two libraries should print, said without their loops.
-/

namespace Xv6.Libc

/-! ## Numerals -/

/-- The argument of `printint` as a number. -/
def number (xx : BitVec 64) (sign : Bool) : Int := if sign then xx.toInt else xx.toNat

/-- The digits `ds`, most significant first, behind a `-` if `neg`, are the canonical numeral of `v`. -/
structure Numeral (base : Nat) (v : Int) (neg : Bool) (ds : List Nat) : Prop where
  nonempty : ds ≠ []
  digits : ∀ d ∈ ds, d < base
  leading : ds.head? = some 0 → ds = [0]
  sign : neg = true ↔ v < 0
  value : Nat.ofDigits base ds.reverse = v.natAbs

/-- The characters of a numeral. -/
def spell (digits : Nat → Byte) (neg : Bool) (ds : List Nat) : List Byte := (if neg then [ascii '-'] else []) ++ ds.map digits

/-! ## Formats -/

inductive Conv
  | d | ld | x | lx | p | s
  deriving DecidableEq

def Conv.bytes : Conv → List Byte
  | .d => [ascii 'd']
  | .ld => [ascii 'l', ascii 'd']
  | .x => [ascii 'x']
  | .lx => [ascii 'l', ascii 'x']
  | .p => [ascii 'p']
  | .s => [ascii 's']

/-- A piece of a format: a character that is printed as it is, `%%`, or a conversion of an argument. -/
inductive Piece
  | lit (c : Byte) (h : c ≠ 0 ∧ c ≠ ascii '%')
  | percent
  | conv (c : Conv)

def Piece.bytes : Piece → List Byte
  | .lit c _ => [c]
  | .percent => [ascii '%', ascii '%']
  | .conv c => ascii '%' :: c.bytes

/-- The format string. -/
def format (ps : List Piece) : List Byte := ps.flatMap Piece.bytes

/-- The conversions of a format, in order. -/
def conversions : List Piece → List Conv
  | [] => []
  | .conv c :: ps => c :: conversions ps
  | _ :: ps => conversions ps

/-- Hexadecimal digits of either case become the same. -/
def foldCase (c : Byte) : Byte := if ascii 'A' ≤ c ∧ c ≤ ascii 'F' then c + 32 else c

/-- The two libraries print the same for this format and these arguments, but for the case of hexadecimal digits, and
each conversion takes one argument. -/
def Agree (str : BitVec 64 → List Byte) (ps : List Piece) (ap : List (BitVec 64)) : Prop :=
  ∃ out out', Kernel.printf str 0 (format ps) ap = some (out, []) ∧ User.vprintf str false 0 (format ps) ap = some (out', []) ∧
    out.map foldCase = out'.map foldCase

/-- There is no `%lx`, and an argument of `%x` is less than 2^31. -/
def Supported (ps : List Piece) (ap : List (BitVec 64)) : Prop :=
  ∀ q ∈ (conversions ps).zip ap, q.1 ≠ .lx ∧ (q.1 = .x → (q.2.setWidth 32).toNat < 2 ^ 31)

end Xv6.Libc
