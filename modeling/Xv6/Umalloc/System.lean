import Xv6.Lib.Extents
import Xv6.Lib.Linked
import Xv6.Lib.Run
import Xv6.Umalloc.Umalloc

/-!
# A program that uses the allocator

The program calls `malloc` and `free` in any order and writes to the blocks it has. Each call of `sbrk` gives
a region, or fails.
-/

namespace Xv6.Umalloc

open Lib

/-- What `sbrk` answers, and the regions it gave. -/
structure Env where
  answer : Option Nat
  regions : List Extents.Extent

def Env.sbrk (n : Int) : EStateM Stop Env Int := fun e =>
  match e.answer with
  | some r => .ok (r : Int) ⟨none, (r, n.toNat) :: e.regions⟩
  | none => .ok (-1) e

/-- `live` are the headers of the blocks that the program has. -/
structure Program where
  heap : Heap
  live : List Nat
  regions : List Extents.Extent

inductive Act
  /-- `malloc`, and what `sbrk` answers if it is called. -/
  | malloc (fuel nbytes : Nat) (answer : Option Nat)
  | free (fuel ap : Nat)
  /-- A write to a block, where a header would be. -/
  | write (a ptr size : Nat)

namespace Program

def step (w : Program) : Act → Option (Except Stop Program)
  | .malloc fuel nbytes answer =>
      match Umalloc.malloc Env.sbrk fuel nbytes ⟨w.heap, ⟨answer, w.regions⟩⟩ with
      | .ok res u => some (.ok ⟨u.heap, if res = 0 then w.live else (res - headerSize) :: w.live, u.sys.regions⟩)
      | .error .steps _ => none
      | .error (.kernel e) _ => some (.error e)
  | .free fuel ap => (w.heap.free fuel ap).map fun h => .ok { w with heap := h, live := w.live.erase (ap - headerSize) }
  | .write a ptr size =>
      some (.ok { w with heap := { w.heap with ptr := Function.update w.heap.ptr a ptr, size := Function.update w.heap.size a size } })

/-- A region of `n` bytes at `r` is above `base` and all earlier regions. -/
def Higher (w : Program) (r : Nat) : Prop :=
  r % headerSize = 0 ∧ w.heap.base + headerSize ≤ r ∧ ∀ x ∈ w.regions, x.1 + x.2 ≤ r

instance (w : Program) (r : Nat) : Decidable (w.Higher r) := inferInstanceAs (Decidable (_ ∧ _ ∧ _))

/-- How the program and `sbrk` behave. -/
def ok (w : Program) : Act → Prop
  | .malloc _ nbytes answer => nbytes < 2 ^ 32 ∧ units (nunits nbytes) * headerSize < 2 ^ 31 ∧
      ∀ r ∈ answer, w.Higher r
  | .free _ ap => headerSize ≤ ap ∧ ap - headerSize ∈ w.live
  | .write a _ size => size < 2 ^ 32 ∧ ∃ b ∈ w.live, b < a ∧ a < b + headerSize * w.heap.size b

instance (w : Program) (l : Act) : Decidable (w.ok l) :=
  match l with
  | .malloc .. => inferInstanceAs (Decidable (_ ∧ _ ∧ _))
  | .free .. => inferInstanceAs (Decidable (_ ∧ _))
  | .write .. => inferInstanceAs (Decidable (_ ∧ _))

/-- `sbrk` has given fewer than 2^32 units in all. -/
def Bounded (w : Program) : Act → Prop
  | .malloc _ nbytes (some _) => (w.regions.map Prod.snd).sum + units (nunits nbytes) * headerSize < 2 ^ 32 * headerSize
  | _ => True

instance (w : Program) (l : Act) : Decidable (w.Bounded l) :=
  match l with
  | .malloc _ _ (some _) => inferInstanceAs (Decidable (_ < _))
  | .malloc _ _ none => .isTrue trivial
  | .free .. => .isTrue trivial
  | .write .. => .isTrue trivial

/-- The allocator before the first call. The memory holds anything. -/
def init (base : Nat) (ptr size : Nat → Nat) : Program := ⟨⟨base, ptr, size, 0⟩, [], []⟩

/-- The bytes of the block `b` with its header. -/
def block (w : Program) (b : Nat) : Extents.Extent := (b, headerSize * w.heap.size b)

end Program

/-! ## What holds of the heap -/

/-- From `base` through the free blocks in the order of their addresses and back; no two of them touch. -/
structure FreeList (h : Heap) (free : List Nat) : Prop where
  ring : Linked h.ptr h.base free h.base
  freep : h.freep ∈ h.base :: free
  order : (h.base :: free).Pairwise (· < ·)
  gaps : free.Pairwise fun a b => a + headerSize * h.size a < b

/-- The free blocks and those that the program has are disjoint, and make up the regions. -/
structure Tiled (w : Program) (free : List Nat) : Prop where
  disjoint : ((free ++ w.live).map w.block).Pairwise Extents.Disjoint
  inside : ∀ b ∈ free ++ w.live, ∀ a ∈ Extents.cover (w.block b), ∃ x ∈ w.regions, a ∈ Extents.cover x
  sum : headerSize * ((free ++ w.live).map w.heap.size).sum = (w.regions.map Prod.snd).sum

/-- What `malloc` may return: 0 if `sbrk` fails, or a block of `nbytes` bytes after its header. -/
def Returned (w : Program) (nbytes : Nat) (answer : Option Nat) (res : Nat) (u : Task Env) : Prop :=
  res = 0 ∧ answer = none ∨
  headerSize ≤ res ∧ nbytes + headerSize ≤ headerSize * u.heap.size (res - headerSize) ∧
    (∀ a ∈ Extents.cover (res, nbytes), ∃ x ∈ u.sys.regions, a ∈ Extents.cover x) ∧
    ∀ b ∈ w.live, Extents.Disjoint (w.block b) (res - headerSize, nbytes + headerSize)

end Xv6.Umalloc
