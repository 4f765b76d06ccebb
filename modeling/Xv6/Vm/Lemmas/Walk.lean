import Mathlib.Data.Set.Finite.Lattice
import Xv6.Vm.Lemmas.Frame

/-!
# Looking up an entry

`walk` finds the entry of a virtual page number in the tree, or that there is none; with `alloc` it
adds the page-table pages that are missing, and changes nothing else.
-/

namespace Xv6.Vm

open Xv6.Lib Function

variable {top : Nat} {f g h : View} {s t u : Ram} {a p r v va k l i : Nat}
  {Q : Option (Nat × Nat) → Ram → Prop} {E : Stop → Ram → Prop}

theorem px_eq (l va : Nat) : px l va = va / pgSize / 512 ^ l % 512 := by
  have h₁ : 2 ^ (12 + 9 * l) = pgSize * 512 ^ l := by
    rw [Nat.pow_add, Nat.pow_mul]
    rfl
  unfold px
  rw [h₁, Nat.div_div_eq_div_mul]

theorem index_eq (v l : Nat) : 512 * (v / 512 ^ (l + 1)) + v / 512 ^ l % 512 = v / 512 ^ l := by
  rw [Nat.pow_succ, ← Nat.div_div_eq_div_mul]
  exact Nat.div_add_mod _ _

/-- Above a page-table page there is one of each level. -/
theorem Tree.ancestor (ht : Tree g s) (h : g.role p = .table r l k) (n : Nat) (hn : l + n ≤ 2) :
    ∃ q, g.role q = .table r (l + n) (k / 512 ^ n) := by
  induction n with
  | zero => exact ⟨p, by simpa using h⟩
  | succ n ih =>
      obtain ⟨q, hq⟩ := ih (by omega)
      obtain ⟨q', hq', -⟩ := ht.parent _ _ _ _ hq (by omega)
      refine ⟨q', ?_⟩
      rw [Nat.pow_succ, ← Nat.div_div_eq_div_mul]
      exact hq'

/-- Where an entry on the way is not valid, there is no page-table page further down. -/
theorem Tree.leaf_eq_zero (ht : Tree g s) (hT : g.role a = .table r (l + 1) (v / 512 ^ (l + 2)))
    (hv : (s.pte a (v / 512 ^ (l + 1) % 512)).has pteV = false) : g.leaf r v = 0 := by
  refine ht.noLeaf r v fun q hq => ?_
  have hl := ht.level _ _ _ _ hT
  obtain ⟨q', hq'⟩ := ht.ancestor hq l (by omega)
  have h₁ : v / 512 / 512 ^ l = v / 512 ^ (l + 1) := by
    rw [Nat.div_div_eq_div_mul, Nat.pow_succ, Nat.mul_comm]
  rw [Nat.zero_add, h₁] at hq'
  have h₂ : v / 512 ^ (l + 1) / 512 = v / 512 ^ (l + 2) := by
    rw [Nat.div_div_eq_div_mul, ← Nat.pow_succ]
  have h₃ := ht.parent_valid hq' (by rw [h₂]; exact hT)
  rw [hv] at h₃
  cases h₃

theorem Tree.next (ht : Tree g s) (hT : g.role a = .table r (l + 1) (v / 512 ^ (l + 2)))
    (hv : (s.pte a (v / 512 ^ (l + 1) % 512)).has pteV = true) :
    g.role (pte2pa (s.pte a (v / 512 ^ (l + 1) % 512))) = .table r l (v / 512 ^ (l + 1)) := by
  obtain ⟨p, h₁, h₂⟩ := ht.child _ _ _ _ _ hT (Nat.mod_lt _ (by omega)) hv
  rw [index_eq] at h₂
  rw [h₁, pte2pa_make (ht.isPage (by rw [h₂]; simp)) (by decide)]
  exact h₂

theorem wp_walkFrom (ht : Tree g s) (hT : g.role a = .table r l (va / pgSize / 512 ^ (l + 1)))
    (hsome : ∀ a, g.role a = .table r 0 (va / pgSize / 512) →
      s.pte a (va / pgSize % 512) = g.leaf r (va / pgSize) → Q (some (a, va / pgSize % 512)) s)
    (hnone : g.leaf r (va / pgSize) = 0 → Q none s) : wp (walkFrom va false l a) Q E s := by
  induction l generalizing a with
  | zero =>
      simp only [walkFrom, wp_pure, px_eq, Nat.pow_zero, Nat.div_one]
      rw [Nat.zero_add, Nat.pow_one] at hT
      refine hsome a hT ?_
      rw [ht.leaf _ _ _ _ hT (Nat.mod_lt _ (by omega)), Nat.div_add_mod]
  | succ l ih =>
      simp only [walkFrom, readPte, wp_bind, wp_get, wp_pure, px_eq]
      by_cases hv : (s.pte a (va / pgSize / 512 ^ (l + 1) % 512)).has pteV = true
      · rw [if_pos hv]
        exact ih (ht.next hT hv)
      · have hv' := Bool.eq_false_iff.2 hv
        simp only [hv', Bool.false_eq_true, if_false, Bool.not_false, if_true, wp_pure]
        exact hnone (ht.leaf_eq_zero hT hv')

theorem wp_walk (ht : Tree g s) (hr : g.role r = .table r 2 0) (hva : va < maxVa)
    (hsome : ∀ a, g.role a = .table r 0 (va / pgSize / 512) →
      s.pte a (va / pgSize % 512) = g.leaf r (va / pgSize) → Q (some (a, va / pgSize % 512)) s)
    (hnone : g.leaf r (va / pgSize) = 0 → Q none s) : wp (walk r va false) Q E s := by
  have h₀ : va / pgSize / 512 ^ 3 = 0 := by
    unfold maxVa at hva
    unfold pgSize
    omega
  unfold walk
  rw [if_neg (by omega)]
  exact wp_walkFrom ht (by rw [h₀]; exact hr) hsome hnone

/-! ## Adding page-table pages -/

/-- Some free pages have become page-table pages below the root `r`, and nothing else has changed. -/
structure Grow (r : Nat) (g : View) (s : Ram) (h : View) (t : Ram) : Prop where
  leaf : h.leaf = g.leaf
  leak : h.leak = g.leak
  role : ∀ p, g.role p ≠ .free → h.role p = g.role p
  free : ∀ p, g.role p = .free → h.role p = .free ∨ ∃ l k, h.role p = .table r l k ∧ l < 2
  mem : ∀ p, g.role p = .user ∨ g.role p = .kern → t.mem p = s.mem p
  kfail : s.kfail = true → t.kfail = true
  kend : t.kend = s.kend
  trampoline : t.trampolinePage = s.trampolinePage
  ref : ∀ p, g.role p ≠ .free → s.managed p → t.ref p = s.ref p

theorem Grow.refl (r : Nat) (g : View) (s : Ram) : Grow r g s g s :=
  ⟨rfl, rfl, fun _ _ => rfl, fun _ hp => .inl hp, fun _ _ => rfl, id, rfl, rfl, fun _ _ _ => rfl⟩

theorem Grow.trans (hf : Grow r f s g t) (hg : Grow r g t h u) : Grow r f s h u where
  leaf := hg.leaf.trans hf.leaf
  leak := hg.leak.trans hf.leak
  role p hp := by
    have h₁ := hf.role p hp
    rw [hg.role p (by rw [h₁]; exact hp), h₁]
  free p hp := by
    rcases hf.free p hp with h₁ | ⟨l, k, h₁, hl⟩
    · exact hg.free p h₁
    · exact .inr ⟨l, k, by rw [hg.role p (by rw [h₁]; simp), h₁], hl⟩
  mem p hp := by
    have h₁ : g.role p = f.role p := hf.role p (by rcases hp with hp | hp <;> rw [hp] <;> simp)
    rw [hg.mem p (by rw [h₁]; exact hp), hf.mem p hp]
  kfail hk := hg.kfail (hf.kfail hk)
  kend := hg.kend.trans hf.kend
  trampoline := hg.trampoline.trans hf.trampoline
  ref p hp hm := by
    have h₁ : g.role p = f.role p := hf.role p hp
    have hm' : t.managed p := by unfold Ram.managed at *; rwa [hf.kend]
    rw [hg.ref p (by rw [h₁]; exact hp) hm', hf.ref p hp hm]

theorem Grow.frame (hg : Grow r g s h t) (hc : Count top g s) : Frame top none₂ g s h t :=
  Frame.of_user hc hg.leaf (fun p hp => hg.mem p (.inl hp)) hg.kfail hg.kend hg.trampoline

theorem Grow.kern (hg : Grow r g s h t) : h.kern = g.kern := by
  ext p
  show h.role p = .kern ↔ g.role p = .kern
  by_cases hp : g.role p = .free
  · rcases hg.free p hp with h₁ | ⟨l, k, h₁, -⟩ <;> simp [h₁, hp]
  · rw [hg.role p hp]

theorem Grow.roots (hg : Grow r g s h t) : h.roots = g.roots := by
  ext p
  show h.role p = .table p 2 0 ↔ g.role p = .table p 2 0
  by_cases hp : g.role p = .free
  · rcases hg.free p hp with h₁ | ⟨l, k, h₁, hl⟩
    · simp [h₁, hp]
    · rw [h₁, hp]
      refine iff_of_false (fun h₂ => ?_) (by simp)
      injection h₂ with _ h₃ _
      omega
  · rw [hg.role p hp]

theorem Grow.apart (hg : Grow r g s h t) (ht : Tree g s) : Apart {r} g s h t where
  table p r' l k hr := by
    by_cases hp : g.role p = .free
    · rw [hp]
      refine iff_of_false (fun h₂ => ?_) (by simp)
      rcases hg.free p hp with h₁ | ⟨l', k', h₁, -⟩ <;> rw [h₁] at h₂ <;> cases h₂
      exact hr rfl
    · rw [hg.role p hp]
  kern p hp := ⟨by rw [hg.role p (by rw [hp]; simp), hp], hg.mem p (.inr hp)⟩
  live hl p hp := by
    have hp' : g.role p = .user := by
      by_cases hfree : g.role p = .free
      · rcases hg.free p hfree with h₁ | ⟨l', k', h₁, -⟩ <;> rw [h₁] at hp <;> cases hp
      · rw [← hg.role p hfree, hp]
    rw [hg.ref p (by rw [hp']; simp) (managed_of_role ht hp' (by simp))]
    exact hl p hp'

theorem Inv.link (hI : Inv top g s) (hp : g.role p = .kern) (hz : s.mem p = fun _ => 0)
    (hT : g.role a = .table r (l + 1) k) (hi : i < 512) (hv : (s.pte a i).has pteV = false) :
    Inv top (g.setRole p (.table r l (512 * k + i))) (s.setPte a i (pa2pte p ||| pteV)) := by
  refine ⟨hI.tree.link hp hz hT hi hv, ?_⟩
  refine hI.count.relabel rfl (by rw [hp]; simp) ?_ (fun _ _ _ => rfl)
    fun q hq => (hI.tree.managed q).1 hq
  have h₁ : (s.setPte a i (pa2pte p ||| pteV)).ref p = s.ref p := rfl
  rw [h₁, hI.count.ref p (managed_of_role hI.tree hp (by simp))]
  unfold View.refs
  rw [hp, setRole_role_self]

theorem Inv.newRoot (hI : Inv top g s) (hp : g.role p = .kern) (hz : s.mem p = fun _ => 0) :
    Inv top (g.setRole p (.table p 2 0)) s := by
  refine ⟨hI.tree.newRoot hp hz, ?_⟩
  refine hI.count.relabel rfl (by rw [hp]; simp) ?_ (fun _ _ _ => rfl) fun q hq => (hI.tree.managed q).1 hq
  rw [hI.count.ref p (managed_of_role hI.tree hp (by simp))]
  unfold View.refs
  rw [hp, setRole_role_self]

theorem Inv.setMem (hI : Inv top g s) (hp : g.role p = .kern ∨ g.role p = .user) (b : Bytes) :
    Inv top g { s with mem := update s.mem p b } := by
  refine ⟨hI.tree.of_pte rfl rfl fun t r l k i ht => ?_, hI.count.of_ref rfl fun _ => rfl⟩
  refine pte_congr (update_of_ne ?_ _ _)
  rcases hp with hp | hp <;> exact ne_of_role ht hp (by simp)

theorem memset_zero (hz : s.mem p = fun _ => 0) : s.memset p 0 = s := by
  unfold Ram.memset
  rw [← hz, update_eq_self]

theorem setRole_setRole (g : View) (p : Nat) (x y : Role) : (g.setRole p x).setRole p y = g.setRole p y := by
  unfold View.setRole
  rw [update_idem]

theorem grow_link (ha : Allocated top g s p t) (hT : g.role a = .table r (l + 1) k) (hl : l < 2) :
    Grow r g s (g.setRole p (.table r l (512 * k + i))) (t.setPte a i (pa2pte p ||| pteV)) where
  leaf := rfl
  leak := rfl
  role q hq := setRole_role_of_ne (ne_of_role rfl ha.role hq)
  free q hq := by
    by_cases hqp : q = p
    · exact .inr ⟨l, 512 * k + i, by rw [hqp, setRole_role_self], hl⟩
    · exact .inl (by rw [setRole_role_of_ne hqp, hq])
  mem q hq := by
    have hqa : q ≠ a := by rcases hq with hq | hq <;> exact ne_of_role hq hT (by simp)
    have hqp : q ≠ p := by rcases hq with hq | hq <;> exact ne_of_role hq ha.role (by simp)
    rw [setPte_mem, update_of_ne hqa, ha.mem q hqp]
  kfail hk := ha.kfail.trans hk
  kend := ha.kend
  trampoline := ha.trampoline
  ref q hq hm := ha.ref q hm (ne_of_role rfl ha.role hq)

/-! ## How many page-table pages are added -/

/-- The levels and indices of the page-table pages of the root `r`. -/
def View.tables (g : View) (r : Nat) : Set (Nat × Nat) := { x | ∃ p, g.role p = .table r x.1 x.2 }

/-- The page-table pages on the way to `v`, below a level. -/
def path (v l : Nat) : Set (Nat × Nat) := { x | x.1 < l ∧ x.2 = v / 512 ^ (x.1 + 1) }

theorem Tree.finite_tables (ht : Tree g s) (r : Nat) : (g.tables r).Finite := by
  let index : Nat → Nat × Nat := fun p =>
    match g.role p with
    | .table _ l k => (l, k)
    | _ => (0, 0)
  refine ((Finset.range physTop).finite_toSet.image index).subset ?_
  rintro ⟨l, k⟩ ⟨p, hp⟩
  refine ⟨p, Finset.mem_range.2 (ht.lt_physTop (by rw [hp]; simp)), ?_⟩
  show (match g.role p with | .table _ l k => (l, k) | _ => (0, 0)) = (l, k)
  rw [hp]

theorem tables_link (hp : g.role p = .free) (r l k : Nat) :
    (g.setRole p (.table r l k)).tables r = insert (l, k) (g.tables r) := by
  ext ⟨l', k'⟩
  constructor
  · rintro ⟨q, hq⟩
    by_cases hqp : q = p
    · rw [hqp, setRole_role_self] at hq
      cases hq
      exact .inl rfl
    · rw [setRole_role_of_ne hqp] at hq
      exact .inr ⟨q, hq⟩
  · rintro (h | ⟨q, hq⟩)
    · cases h
      exact ⟨p, setRole_role_self _ _ _⟩
    · exact ⟨q, by rw [setRole_role_of_ne (ne_of_role hq hp (by simp))]; exact hq⟩

/-- Each page-table page that was added below `r`, on the way to `v`, came off the free list. -/
structure Spent (g : View) (s : Ram) (r v l : Nat) (h : View) (t : Ram) : Prop where
  free : t.freelist.length + (h.tables r).ncard = s.freelist.length + (g.tables r).ncard
  tables : h.tables r ⊆ g.tables r ∪ path v l

theorem Spent.refl (g : View) (s : Ram) (r v l : Nat) : Spent g s r v l g s :=
  ⟨rfl, Set.subset_union_left⟩

theorem Spent.succ (hs : Spent g s r v l h t) : Spent g s r v (l + 1) h t :=
  ⟨hs.free, hs.tables.trans (Set.union_subset_union_right _ fun _ hx => ⟨Nat.lt_succ_of_lt hx.1, hx.2⟩)⟩

theorem Spent.link (ha : Allocated top g s p t) (hI : Inv top g s)
    (hnew : (l, v / 512 ^ (l + 1)) ∉ g.tables r) {t' : Ram} (ht' : t'.freelist = t.freelist)
    (hs : Spent (g.setRole p (.table r l (v / 512 ^ (l + 1)))) t' r v l h u) : Spent g s r v (l + 1) h u where
  free := by
    have h₁ := hs.free
    rw [tables_link ha.role, Set.ncard_insert_of_notMem hnew (hI.tree.finite_tables r), ht'] at h₁
    have h₂ := ha.length
    omega
  tables := by
    refine hs.tables.trans ?_
    rw [tables_link ha.role]
    rintro x ((rfl | hx) | hx)
    · exact .inr ⟨Nat.lt_succ_self l, rfl⟩
    · exact .inl hx
    · exact .inr ⟨Nat.lt_succ_of_lt hx.1, hx.2⟩

theorem Grow.subset_tables (hg : Grow r g s h t) (r' : Nat) : g.tables r' ⊆ h.tables r' := by
  rintro y ⟨p, hp⟩
  exact ⟨p, by rw [hg.role p (by rw [hp]; simp), hp]⟩

/-- The page-table pages on the way to the pages in `V`. -/
def span (V : Set Nat) : Set (Nat × Nat) := { x | ∃ v ∈ V, x ∈ path v 2 }

theorem tables_setRole (hp : ∀ r l k, g.role p ≠ .table r l k) {y : Role} (hy : ∀ r l k, y ≠ .table r l k) (r : Nat) :
    (g.setRole p y).tables r = g.tables r := by
  ext x
  refine exists_congr fun q => ?_
  by_cases hq : q = p
  · subst hq
    rw [setRole_role_self]
    exact iff_of_false (hy _ _ _) (hp _ _ _)
  · rw [setRole_role_of_ne hq]

theorem path_two (v : Nat) : path v 2 ⊆ {(0, v / 512), (1, v / 512 ^ 2)} := by
  rintro ⟨l, k⟩ ⟨(hl : l < 2), (hk : k = v / 512 ^ (l + 1))⟩
  have hcases : l = 0 ∨ l = 1 := by omega
  rcases hcases with rfl | rfl
  · exact .inl (by rw [hk, Nat.zero_add, Nat.pow_one])
  · exact .inr (by rw [hk]; rfl)

theorem finite_path (v : Nat) : (path v 2).Finite := (Set.toFinite _).subset (path_two v)

theorem finite_span {V : Set Nat} (hV : V.Finite) : (span V).Finite := by
  refine (hV.biUnion fun v _ => finite_path v).subset ?_
  rintro x ⟨v, hv, hx⟩
  exact Set.mem_biUnion hv hx

theorem span_mono {V W : Set Nat} (h : V ⊆ W) : span V ⊆ span W := fun _ ⟨v, hv, hx⟩ => ⟨v, h hv, hx⟩

theorem span_insert (V : Set Nat) (v : Nat) : span (insert v V) = span V ∪ path v 2 := by
  ext x
  constructor
  · rintro ⟨w, rfl | hw, hx⟩
    · exact .inr hx
    · exact .inl ⟨w, hw, hx⟩
  · rintro (⟨w, hw, hx⟩ | hx)
    · exact ⟨w, .inr hw, hx⟩
    · exact ⟨v, .inl rfl, hx⟩

theorem span_Ico_succ {lo i : Nat} (h : lo ≤ i) : span (Set.Ico lo (i + 1)) = span (Set.Ico lo i) ∪ path i 2 := by
  rw [← span_insert]
  congr 1
  ext v
  show lo ≤ v ∧ v < i + 1 ↔ v = i ∨ lo ≤ v ∧ v < i
  omega

/-- A walk takes at most two pages off the free list. -/
theorem Spent.length (hs : Spent g s r v 2 h t) (hg : Grow r g s h t) (ht : Tree g s) (ht' : Tree h t) :
    t.freelist.length ≤ s.freelist.length ∧ s.freelist.length ≤ t.freelist.length + 2 := by
  have hfree := hs.free
  have h₁ := Set.ncard_le_ncard (hg.subset_tables r) (ht'.finite_tables r)
  have h₂ : (h.tables r).ncard ≤ (g.tables r).ncard + 2 := by
    have hsub := hs.tables.trans (Set.union_subset_union_right _ (path_two v))
    have hfin : ({(0, v / 512), (1, v / 512 ^ 2)} : Set (Nat × Nat)).Finite := Set.toFinite _
    have h₃ := Set.ncard_le_ncard hsub ((ht.finite_tables r).union hfin)
    have h₄ := Set.ncard_union_le (g.tables r) {(0, v / 512), (1, v / 512 ^ 2)}
    have h₅ := Set.ncard_insert_le (0, v / 512) {((1, v / 512 ^ 2) : Nat × Nat)}
    rw [Set.ncard_singleton] at h₅
    omega
  omega

/-- Where `walk` with `alloc` found no memory. -/
structure Starved (r v l : Nat) (h : View) (t : Ram) : Prop where
  kfail : t.kfail = true
  freelist : t.freelist = []
  missing : ∃ x ∈ path v l, x ∉ h.tables r

/-- The pages of the free list were too few. -/
theorem Spent.short (hs : Spent g s r v 2 h t) (hk : Starved r v 2 h t) (ht : Tree g s) :
    s.freelist.length + (g.tables r).ncard < (g.tables r ∪ path v 2).ncard := by
  obtain ⟨x, hx, hnx⟩ := hk.missing
  have hfree := hs.free
  rw [hk.freelist, List.length_nil, Nat.zero_add] at hfree
  rw [← hfree]
  refine Set.ncard_lt_ncard ⟨hs.tables, fun hsub => hnx (hsub (.inr hx))⟩ ((ht.finite_tables r).union (finite_path v))

/-- What `walk` with `alloc` gives: the entry's place in a grown tree, or that memory ran out. -/
def Walked (top : Nat) (g : View) (s : Ram) (r v l : Nat) (res : Option (Nat × Nat)) (t : Ram) : Prop :=
  ∃ h, Inv top h t ∧ Grow r g s h t ∧ Spent g s r v l h t ∧
    (res = none ∧ Starved r v l h t ∨ ∃ a, res = some (a, v % 512) ∧ h.role a = .table r 0 (v / 512))

theorem Tree.not_mem_tables (ht : Tree g s) (hT : g.role a = .table r (l + 1) (v / 512 ^ (l + 2)))
    (hv : (s.pte a (v / 512 ^ (l + 1) % 512)).has pteV = false) : (l, v / 512 ^ (l + 1)) ∉ g.tables r := by
  rintro ⟨q, hq⟩
  have h₂ : v / 512 ^ (l + 1) / 512 = v / 512 ^ (l + 2) := by
    rw [Nat.div_div_eq_div_mul, ← Nat.pow_succ]
  have h₃ := ht.parent_valid hq (by rw [h₂]; exact hT)
  rw [hv] at h₃
  cases h₃

theorem walkFrom_alloc (hI : Inv top g s) (hT : g.role a = .table r l (va / pgSize / 512 ^ (l + 1))) :
    wp (walkFrom va true l a) (Walked top g s r (va / pgSize) l) E s := by
  induction l generalizing a g s with
  | zero =>
      simp only [walkFrom, wp_pure, px_eq, Nat.pow_zero, Nat.div_one]
      rw [Nat.zero_add, Nat.pow_one] at hT
      exact ⟨g, hI, .refl r g s, .refl g s _ _ _, .inr ⟨a, rfl, hT⟩⟩
  | succ l ih =>
      have hl := hI.tree.level _ _ _ _ hT
      simp only [walkFrom, readPte, wp_bind, wp_get, wp_pure, px_eq]
      by_cases hv : (s.pte a (va / pgSize / 512 ^ (l + 1) % 512)).has pteV = true
      · rw [if_pos hv]
        refine wp_post (ih hI (hI.tree.next hT hv)) ?_
        rintro res t ⟨h, hI', hg, hs, hres⟩
        refine ⟨h, hI', hg, hs.succ, hres.imp_left fun hk => ⟨hk.1, hk.2.kfail, hk.2.freelist, ?_⟩⟩
        obtain ⟨x, hx, hm⟩ := hk.2.missing
        exact ⟨x, ⟨Nat.lt_succ_of_lt hx.1, hx.2⟩, hm⟩
      · have hv' := Bool.eq_false_iff.2 hv
        have hnew := hI.tree.not_mem_tables hT hv'
        simp only [hv', Bool.false_eq_true, if_false, Bool.not_true, wp_bind]
        refine wp_kalloc hI (fun hf => ?_) fun p t ha => ?_
        · exact ⟨g, hI.setKfail, ⟨rfl, rfl, fun _ _ => rfl, fun _ hp => .inl hp, fun _ _ => rfl,
            fun _ => rfl, rfl, rfl, fun _ _ _ => rfl⟩, ⟨rfl, Set.subset_union_left⟩,
            .inl ⟨rfl, rfl, hf, _, ⟨Nat.lt_succ_self l, rfl⟩, hnew⟩⟩
        · simp only [writePte, wp_bind, wp_modify, memset_zero ha.zero]
          have hap : a ≠ p := ne_of_role hT ha.role (by simp)
          have hT' : (g.setRole p .kern).role a = .table r (l + 1) (va / pgSize / 512 ^ (l + 2)) := by
            rw [setRole_role_of_ne hap]
            exact hT
          have hv'' : (t.pte a (va / pgSize / 512 ^ (l + 1) % 512)).has pteV = false := by
            rw [pte_congr (ha.mem a hap)]
            exact hv'
          have hlink := ha.inv.link (setRole_role_self _ _ _) ha.zero hT' (Nat.mod_lt _ (by omega)) hv''
          rw [setRole_setRole, index_eq] at hlink
          have hgrow := grow_link (i := va / pgSize / 512 ^ (l + 1) % 512) ha hT (by omega)
          rw [index_eq] at hgrow
          refine wp_post (ih hlink (setRole_role_self _ _ _)) ?_
          rintro res u ⟨h, hI', hg', hs, hres⟩
          have hfree : (t.setPte a (va / pgSize / 512 ^ (l + 1) % 512) (pa2pte p ||| pteV)).freelist =
            t.freelist := rfl
          refine ⟨h, hI', hgrow.trans hg', .link ha hI hnew hfree hs, ?_⟩
          refine hres.imp_left fun hk => ⟨hk.1, hk.2.kfail, hk.2.freelist, ?_⟩
          obtain ⟨x, hx, hm⟩ := hk.2.missing
          exact ⟨x, ⟨Nat.lt_succ_of_lt hx.1, hx.2⟩, hm⟩

theorem walk_alloc (hI : Inv top g s) (hr : g.role r = .table r 2 0) (hva : va < maxVa) :
    wp (walk r va true) (Walked top g s r (va / pgSize) 2) E s := by
  have h₀ : va / pgSize / 512 ^ 3 = 0 := by
    unfold maxVa at hva
    unfold pgSize
    omega
  unfold walk
  rw [if_neg (by omega)]
  exact walkFrom_alloc hI (by rw [h₀]; exact hr)

/-- All page-table pages on the way to `v` are there once the lowest is. -/
theorem Tree.path_subset (ht : Tree g s) (ha : g.role a = .table r 0 (v / 512)) : path v 2 ⊆ g.tables r := by
  rintro ⟨l, k⟩ ⟨(hl : l < 2), (hk : k = v / 512 ^ (l + 1))⟩
  obtain ⟨q, hq⟩ := ht.ancestor ha l (by omega)
  have h₁ : v / 512 / 512 ^ l = k := by
    rw [hk, Nat.div_div_eq_div_mul, Nat.pow_succ, Nat.mul_comm]
  rw [Nat.zero_add, h₁] at hq
  exact ⟨q, hq⟩

end Xv6.Vm
