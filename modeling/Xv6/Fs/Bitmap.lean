import Xv6.Fs.Layout

/-!
# The free map with the integers of `fs.c`

`balloc` counts in an `int`, which wraps, and compares it with the unsigned size of the file system; `bfree` takes an
unsigned block number. A block has the contents that `bread` returns for it.
-/

namespace Xv6.Fs.Bitmap

open Lib

abbrev Word := BitVec 32

/-- The fields of the super block that are used, and the blocks. -/
structure Map where
  size : Word
  bmapstart : Word
  blk : Word → Block

namespace Map

def setBlk (s : Map) (b : Word) (data : Block) : Map := { s with blk := Function.update s.blk b data }

/-- `BBLOCK(b, sb)` for a `uint`. -/
def bblock (s : Map) (b : Word) : Word := b / 8192 + s.bmapstart

/-- `BBLOCK(b, sb)` for an `int`. -/
def bblockInt (s : Map) (b : Word) : Word := b.sdiv 8192 + s.bmapstart

end Map

def bzero (bno : Word) (s : Map) : Map := s.setBlk bno (memset (s.blk bno) 0 0 bsize)

/-- The loop over the bits of one block: `n` are left, from `bi` on. -/
def freeBitFrom (data : Block) (b size : Word) : Nat → Nat → Option Nat
  | 0, _ => none
  | n + 1, bi =>
      if b + BitVec.ofNat 32 bi < size then
        if bitSet data bi then freeBitFrom data b size n (bi + 1) else some bi
      else none

/-- The loop over the blocks of the free map, from the one with the bit of `b` on, as long as there is `fuel`. -/
def ballocFrom : Nat → Word → Map → Option (Word × Map)
  | 0, _, _ => none
  | fuel + 1, b, s =>
      if b < s.size then
        match freeBitFrom (s.blk (s.bblockInt b)) b s.size bpb 0 with
        | some bi =>
            let s := s.setBlk (s.bblockInt b) (setBit (s.blk (s.bblockInt b)) bi)
            some (b + BitVec.ofNat 32 bi, bzero (b + BitVec.ofNat 32 bi) s)
        | none => ballocFrom fuel (b + 8192) s
      else some (0, s)

def balloc (fuel : Nat) (s : Map) : Option (Word × Map) := ballocFrom fuel 0 s

/-- `none` is `panic("freeing free block")`. -/
def bfree (b : Word) (s : Map) : Option Map :=
  if bitSet (s.blk (s.bblock b)) (b % 8192).toNat then
    some (s.setBlk (s.bblock b) (clearBit (s.blk (s.bblock b)) (b % 8192).toNat))
  else none

/-! ## The map as a set -/

namespace Map

/-- The block `c` is in use. -/
def bit (s : Map) (c : Word) : Bool := bitSet (s.blk (s.bblock c)) (c % 8192).toNat

/-- The bit of `c` is in a block of the free map. -/
def Has (s : Map) (c : Word) : Prop := ∃ c', c' < s.size ∧ c' / 8192 = c / 8192

/-- The free map does not offer its own blocks, nor block 0. -/
structure Ok (s : Map) : Prop where
  zero : s.bit 0 = true
  own : ∀ c, c < s.size → s.bblock c < s.size → s.bit (s.bblock c) = true

/-- The least free block `r` has been taken and zeroed, and nothing else has changed. -/
structure Taken (s : Map) (r : Word) (t : Map) : Prop where
  lt : r < s.size
  free : s.bit r = false
  least : ∀ c, c < r → s.bit c = true
  bits : ∀ c, s.Has c → t.bit c = (s.bit c || c == r)
  zeroed : ∀ i < bsize, t.blk r i = 0
  rest : ∀ k, k ≠ r → k ≠ s.bblock r → t.blk k = s.blk k

/-- The block `b` has been made free, and nothing else has changed. -/
structure Released (s : Map) (b : Word) (t : Map) : Prop where
  bits : ∀ c, s.Has c → t.bit c = (s.bit c && c != b)
  rest : ∀ k, k ≠ s.bblock b → t.blk k = s.blk k

/-- What `balloc` and `bfree` are for. -/
structure IsSet (s : Map) : Prop where
  balloc : ∃ n, ∀ fuel, n ≤ fuel → ∃ r t, Bitmap.balloc fuel s = some (r, t) ∧
    (r = 0 ∧ t = s ∧ (∀ c, c < s.size → s.bit c = true) ∨
      r ≠ 0 ∧ s.Taken r t ∧ ∃ u, Bitmap.bfree r t = some u ∧ ∀ c, s.Has c → u.bit c = s.bit c)
  bfree : ∀ b, b < s.size → s.bit b = true → ∃ t, Bitmap.bfree b s = some t ∧ s.Released b t

end Map

end Xv6.Fs.Bitmap
