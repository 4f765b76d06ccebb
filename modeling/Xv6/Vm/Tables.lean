import Mathlib.Data.Finset.Card
import Mathlib.Order.Interval.Finset.Nat
import Xv6.Lib.Run
import Xv6.Vm.Vm

/-!
# Page tables as finite maps

A page table stands for a partial function from virtual page numbers to physical pages and flags.
`Ram.table` reads that function off memory, level by level. `Tables` is a machine on which callers
create page tables and map and unmap pages in them, in any order.
-/

namespace Xv6.Vm

open Xv6.Lib Function

/-! ## Finite maps -/

/-- From virtual page numbers to the address of a page and the flags of its entry. -/
abbrev PageMap := Nat → Option (Nat × Pte)

namespace PageMap

def empty : PageMap := fun _ => none

/-- The `n` pages from `lo` on are mapped to consecutive pages from `pa` on. -/
def extend (m : PageMap) (lo n pa : Nat) (flags : Pte) : PageMap := fun v =>
  if lo ≤ v ∧ v < lo + n then some (pa + (v - lo) * pgSize, flags) else m v

/-- The `n` pages from `lo` on are unmapped. -/
def remove (m : PageMap) (lo n : Nat) : PageMap := fun v => if lo ≤ v ∧ v < lo + n then none else m v

/-- How many of the `n` pages from `lo` on are mapped to `p`. -/
def count (m : PageMap) (lo n p : Nat) : Nat :=
  (List.range' lo n).countP fun v => (m v).map Prod.fst = some p

end PageMap

/-! ## The map of a page table -/

/-- What an entry stands for. -/
def Pte.decode (x : Pte) : Option (Nat × Pte) := if x.has pteV then some (pte2pa x, pteFlags x) else none

/-- The lowest page-table page for the virtual page number `v`, below the page `t` of a level. -/
def Ram.lowest (s : Ram) (v : Nat) : Nat → Nat → Option Nat
  | 0, t => some t
  | l + 1, t =>
      let x := s.pte t (v / 512 ^ (l + 1) % 512)
      if x.has pteV then s.lowest v l (pte2pa x) else none

/-- The place of the entry for `v` under the root `r`. -/
def Ram.slot (s : Ram) (r v : Nat) : Option (Nat × Nat) := (s.lowest v 2 r).map fun t => (t, v % 512)

/-- The function that the page table with root `r` stands for. -/
def Ram.table (s : Ram) (r : Nat) : PageMap := fun v =>
  if v < maxVa / pgSize then (s.slot r v).bind fun x => (s.pte x.1 x.2).decode else none

/-- The page-table page `d` levels below the root `r` that has the index `k` on its level. -/
def Ram.node (s : Ram) (r : Nat) : Nat → Nat → Option Nat
  | 0, _ => some r
  | d + 1, k => (s.node r d (k / 512)).bind fun t =>
      let x := s.pte t (k % 512)
      if x.has pteV then some (pte2pa x) else none

/-- How many page-table pages are missing under `r` for the virtual page numbers in `V`. -/
def Ram.tablesNeeded (s : Ram) (r : Nat) (V : Finset Nat) : Nat :=
  ((V.image (· / 512 ^ 2)).filter fun k => s.node r 1 k = none).card +
    ((V.image (· / 512)).filter fun k => s.node r 2 k = none).card

/-- How many pages `uvmalloc` takes to map the pages from `lo` to `hi`. -/
def Ram.pagesNeeded (s : Ram) (r lo hi : Nat) : Nat := hi - lo + s.tablesNeeded r (Finset.Ico lo hi)

/-! ## Callers -/

/-- `held p` counts the references to the page `p` that the callers have and have not given back. -/
structure Tables where
  ram : Ram
  roots : List Nat
  held : Nat → Nat

inductive TableAct
  | create
  | alloc
  | share (p : Nat)
  | drop (p : Nat)
  | map (r va size pa : Nat) (perm : Pte)
  | unmap (r va n : Nat) (doFree : Bool)

namespace Tables

/-- The references that `uvmunmap` gives back. -/
def given (S : Tables) (r va n : Nat) (doFree : Bool) (p : Nat) : Nat :=
  if doFree ∧ kernBase ≤ p ∧ p < physTop then (S.ram.table r).count (va / pgSize) n p else 0

def exec {α : Type} (S : Tables) (m : K α) (k : α → Ram → Tables) : Option (Except Stop Tables) :=
  match m S.ram with
  | .ok a t => some (.ok (k a t))
  | .error e _ => some (.error e)

def step (S : Tables) : TableAct → Option (Except Stop Tables)
  | .create => S.exec uvmcreate fun res t => { S with ram := t, roots := res.toList ++ S.roots }
  | .alloc => S.exec kalloc fun res t =>
      match res with
      | none => { S with ram := t }
      | some p => { S with ram := t, held := update S.held p (S.held p + 1) }
  | .share p => S.exec (krefpage p) fun _ t =>
      { S with ram := t, held := update S.held p (S.held p + 1) }
  | .drop p => S.exec (kfree p) fun _ t =>
      { S with ram := t, held := update S.held p (S.held p - 1) }
  | .map r va size pa perm => S.exec (mappages r va size pa perm) fun _ t => { S with ram := t }
  | .unmap r va n doFree => S.exec (uvmunmap r va n doFree) fun _ t =>
      { S with ram := t, held := fun p => S.held p - S.given r va n doFree p }

/-- The arguments of `mappages`. -/
structure MapArgs (S : Tables) (r va size pa : Nat) (perm : Pte) : Prop where
  root : r ∈ S.roots
  aligned : va % pgSize = 0
  pos : 0 < size
  le : va + size ≤ maxVa
  page : pa % pgSize = 0 ∧ pa < 2 ^ 56
  perm : perm &&& ppnMask = 0

/-- The arguments of `uvmunmap`. Its caller has the references that it gives back. -/
structure UnmapArgs (S : Tables) (r va n : Nat) (doFree : Bool) : Prop where
  root : r ∈ S.roots
  aligned : va % pgSize = 0
  le : va + n * pgSize ≤ maxVa
  held : ∀ p, S.given r va n doFree p ≤ S.held p

/-- What callers see to. -/
def ok (S : Tables) : TableAct → Prop
  | .create | .alloc => True
  | .share p | .drop p => 0 < S.held p
  | .map r va size pa perm => S.MapArgs r va size pa perm
  | .unmap r va n doFree => S.UnmapArgs r va n doFree

/-- After `kinit`. -/
def boot (ram : Ram) : Tables := ⟨ram, [], fun _ => 0⟩

end Tables

end Xv6.Vm
