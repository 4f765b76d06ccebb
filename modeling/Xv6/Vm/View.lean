import Mathlib.Data.Set.Card
import Xv6.Vm.Vm

/-!
# What physical memory stands for

The view of a memory says what each page is used for and which entry each page table has for each
virtual page number. `Tree` relates the page-table pages in memory to the view; `Count` relates the
reference counts to it.
-/

namespace Xv6.Vm

open Function

/-- What a page is used for: a page outside the allocator's range, a free one, one held by the
kernel, one of user memory, or the page-table page of a level and index in the tree of a root. -/
inductive Role
  | outside
  | free
  | kern
  | user
  | table (root level index : Nat)
  deriving DecidableEq

/-- `leaf r v` is the entry for virtual page number `v` under the root `r`, 0 where the tree has no
page for it; `leak p` counts references to `p` that no entry accounts for. -/
structure View where
  role : Nat → Role
  leaf : Nat → Nat → Pte
  leak : Nat → Nat

namespace View

def setRole (g : View) (p : Nat) (x : Role) : View := { g with role := update g.role p x }

def setLeaf (g : View) (r v : Nat) (x : Pte) : View :=
  { g with leaf := update g.leaf r (update (g.leaf r) v x) }

def setLeak (g : View) (p n : Nat) : View := { g with leak := update g.leak p n }

/-- The virtual page number `v` is mapped under `r`. -/
def Mapped (g : View) (r v : Nat) : Prop := (g.leaf r v).has pteV = true

instance (g : View) (r v : Nat) : Decidable (g.Mapped r v) := inferInstanceAs (Decidable (_ = _))

/-- The page `v` is mapped to. -/
def page (g : View) (r v : Nat) : Nat := pte2pa (g.leaf r v)

/-- The entries for virtual page numbers below `top` that map `p`. -/
def maps (top : Nat) (g : View) (p : Nat) : Finset (Nat × Nat) :=
  (Finset.range physTop ×ˢ Finset.range top).filter fun x => g.Mapped x.1 x.2 ∧ g.page x.1 x.2 = p

/-- Their number. -/
noncomputable def mapCount (top : Nat) (g : View) (p : Nat) : Nat := (g.maps top p : Set (Nat × Nat)).ncard

end View

/-- A page that the allocator hands out. -/
def Ram.managed (s : Ram) (p : Nat) : Prop := p % pgSize = 0 ∧ s.kend ≤ p ∧ p < physTop

/-- The page-table pages in memory are the trees of the view. -/
structure Tree (g : View) (s : Ram) : Prop where
  base : kernBase ≤ s.kend
  managed : ∀ p, g.role p ≠ .outside ↔ s.managed p
  free : ∀ p, p ∈ s.freelist ↔ g.role p = .free
  nodup : s.freelist.Nodup
  root : ∀ p r l k, g.role p = .table r l k → g.role r = .table r 2 0
  top : ∀ p r k, g.role p = .table r 2 k → p = r ∧ k = 0
  level : ∀ p r l k, g.role p = .table r l k → l ≤ 2
  parent : ∀ p r l k, g.role p = .table r l k → l < 2 →
    ∃ t, g.role t = .table r (l + 1) (k / 512) ∧ s.pte t (k % 512) = pa2pte p ||| pteV
  child : ∀ t r l k i, g.role t = .table r (l + 1) k → i < 512 → (s.pte t i).has pteV = true →
    ∃ p, s.pte t i = pa2pte p ||| pteV ∧ g.role p = .table r l (512 * k + i)
  leaf : ∀ t r k i, g.role t = .table r 0 k → i < 512 → s.pte t i = g.leaf r (512 * k + i)
  noLeaf : ∀ r v, (∀ t, g.role t ≠ .table r 0 (v / 512)) → g.leaf r v = 0
  clean : ∀ r v, g.Mapped r v ∨ g.leaf r v = 0

/-- The count the allocator keeps for a page. -/
def Ram.ref (s : Ram) (p : Nat) : Nat := s.krefcount (krefIndex p)

/-- The references to a page that the view accounts for. -/
noncomputable def View.refs (top : Nat) (g : View) (p : Nat) : Nat :=
  match g.role p with
  | .outside | .free => 0
  | .kern | .table _ _ _ => 1
  | .user => g.mapCount top p + g.leak p

/-- The reference counts are those of the view. Entries for virtual page numbers from `top` on are
not counted. -/
structure Count (top : Nat) (g : View) (s : Ram) : Prop where
  user : ∀ r v, v < top → g.Mapped r v → g.role (g.page r v) = .user
  ref : ∀ p, s.managed p → s.ref p = g.refs top p
  write : ∀ r v, v < top → g.Mapped r v → (g.leaf r v).has pteW = true → s.ref (g.page r v) = 1
  noLeak : ∀ p, g.role p ≠ .user → g.leak p = 0

structure Inv (top : Nat) (g : View) (s : Ram) : Prop where
  tree : Tree g s
  count : Count top g s

end Xv6.Vm
