import Mathlib.Logic.Function.Basic
import Xv6.Param

/-!
# The allocator of user programs (`umalloc.c`)

Headers lie in memory at the addresses of their blocks. The functions take the number of steps their loops
may make; a loop that needs more stops with `steps`. The system call `sbrk` is a parameter.
-/

namespace Xv6.Umalloc

open Lib Function

/-- `sizeof(Header)`. -/
def headerSize : Nat := 16

/-- The headers in memory, by address, with the variables `base` and `freep`. -/
structure Heap where
  base : Nat
  ptr : Nat → Nat
  size : Nat → Nat
  freep : Nat

namespace Heap

def setPtr (h : Heap) (p x : Nat) : Heap := { h with ptr := update h.ptr p x }

/-- The field `size` is a `uint`. -/
def setSize (h : Heap) (p x : Nat) : Heap := { h with size := update h.size p (x % 2 ^ 32) }

/-- The loop of `free`, from `p` on. -/
def place (h : Heap) (bp : Nat) : Nat → Nat → Option Nat
  | 0, _ => none
  | fuel + 1, p =>
      if p < bp ∧ bp < h.ptr p then some p
      else if h.ptr p ≤ p ∧ (p < bp ∨ bp < h.ptr p) then some p
      else h.place bp fuel (h.ptr p)

/-- The first `if` of `free`: the block `bp` and the one after `p`. -/
def joinNext (h : Heap) (bp p : Nat) : Heap :=
  if bp + headerSize * h.size bp = h.ptr p then
    (h.setSize bp (h.size bp + h.size (h.ptr p))).setPtr bp (h.ptr (h.ptr p))
  else h.setPtr bp (h.ptr p)

/-- The second `if`: the block `p` and `bp`. -/
def joinPrev (h : Heap) (bp p : Nat) : Heap :=
  if p + headerSize * h.size p = bp then (h.setSize p (h.size p + h.size bp)).setPtr p (h.ptr bp)
  else h.setPtr p bp

def free (h : Heap) (fuel ap : Nat) : Option Heap := do
  let bp := ap - headerSize
  let p ← h.place bp fuel h.freep
  some { (h.joinNext bp p).joinPrev bp p with freep := p }

/-- `malloc` at a block `p` that is large enough, after `prevp`: the heap, and the block. -/
def take (h : Heap) (nunits prevp p : Nat) : Heap × Nat :=
  if h.size p = nunits then ({ h.setPtr prevp (h.ptr p) with freep := prevp }, p)
  else
    let h := h.setSize p (h.size p - nunits)
    let p := p + headerSize * h.size p
    ({ h.setSize p nunits with freep := prevp }, p)

/-- The first lines of `malloc`. -/
def start (h : Heap) : Heap :=
  if h.freep = 0 then { h.setPtr h.base h.base with freep := h.base, size := update h.size h.base 0 } else h

end Heap

/-! ## With `sbrk` -/

/-- Why a call does not return. -/
inductive Halt
  | steps
  | kernel (e : Stop)
  deriving DecidableEq, Repr

/-- A user program, and what `sbrk` works on. -/
structure Task (σ : Type) where
  heap : Heap
  sys : σ

abbrev U (σ α : Type) := EStateM Halt (Task σ) α

/-- A `size_t` passed as an `int`. -/
def toInt (n : Nat) : Int := Int.bmod n (2 ^ 32)

section

variable {σ : Type} (sbrk : Int → EStateM Stop σ Int)

def callSbrk (n : Int) : U σ Int := fun u =>
  match sbrk n u.sys with
  | .ok r t => .ok r { u with sys := t }
  | .error e t => .error (.kernel e) { u with sys := t }

def free (fuel ap : Nat) : U σ Unit := do
  let u ← get
  match u.heap.free fuel ap with
  | none => throw .steps
  | some h => set { u with heap := h }

def units (nu : Nat) : Nat := if nu < 4096 then 4096 else nu

/-- `SBRK_ERROR` is -1. The result is 0 for a null pointer. -/
def morecore (fuel nu : Nat) : U σ Nat := do
  let nu := units nu
  let p ← callSbrk sbrk (toInt (nu * headerSize))
  if p = -1 then pure 0
  else do
    let hp := p.toNat
    modify fun u => { u with heap := u.heap.setSize hp nu }
    free fuel (hp + headerSize)
    pure (← get).heap.freep

/-- The loop of `malloc`. -/
def mallocLoop (nunits : Nat) : Nat → Nat → Nat → U σ Nat
  | 0, _, _ => throw .steps
  | fuel + 1, prevp, p => do
      let u ← get
      if nunits ≤ u.heap.size p then do
        let (h, p) := u.heap.take nunits prevp p
        set { u with heap := h }
        pure (p + headerSize)
      else if p = u.heap.freep then do
        let p ← morecore sbrk fuel nunits
        if p = 0 then pure 0
        else mallocLoop nunits fuel p ((← get).heap.ptr p)
      else mallocLoop nunits fuel p (u.heap.ptr p)

/-- The sum is a `size_t`, the result a `uint`. -/
def nunits (nbytes : Nat) : Nat := ((nbytes + headerSize - 1) / headerSize + 1) % 2 ^ 32

def malloc (fuel nbytes : Nat) : U σ Nat := do
  modify fun u => { u with heap := u.heap.start }
  let h := (← get).heap
  mallocLoop sbrk (nunits nbytes) fuel h.freep (h.ptr h.freep)

end

end Xv6.Umalloc
