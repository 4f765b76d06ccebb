import Xv6.Vm.View
import Xv6.Vm.Lemmas.Pte

/-!
# Page-table trees in memory

How each change of memory changes the trees: a page given out or taken back, an entry of the lowest
level written, a page-table page linked or removed.
-/

namespace Xv6.Vm

open Xv6.Lib Function

variable {g : View} {s s' : Ram} {p r t k l i v : Nat}

/-! ## Entries in memory -/

theorem setPte_mem (s : Ram) (t i : Nat) (x : Pte) :
    (s.setPte t i x).mem = update s.mem t (store 8 (s.mem t) (8 * i) x.toNat) := rfl

theorem setPte_setPte (s : Ram) (t i : Nat) (x y : Pte) : (s.setPte t i x).setPte t i y = s.setPte t i y := by
  unfold Ram.setPte
  simp only [update_self, update_idem, store_store]

@[simp] theorem pte_setPte (s : Ram) (t i : Nat) (x : Pte) : (s.setPte t i x).pte t i = x := by
  have h : x.toNat < 256 ^ 8 := x.isLt
  unfold Ram.pte
  rw [setPte_mem, update_self, load_store, Nat.mod_eq_of_lt h]
  exact BitVec.ofNat_toNat _ _ |>.trans (BitVec.setWidth_eq x)

theorem pte_congr (h : s'.mem t = s.mem t) : s'.pte t i = s.pte t i := by
  unfold Ram.pte
  rw [h]

theorem pte_setPte_of_ne {t' j : Nat} {x : Pte} (h : t' ≠ t ∨ j ≠ i) :
    (s.setPte t i x).pte t' j = s.pte t' j := by
  by_cases ht : t' = t
  · subst ht
    have hj : j ≠ i := h.resolve_left fun hne => hne rfl
    unfold Ram.pte
    rw [setPte_mem, update_self, load_store_disjoint (by omega)]
  · exact pte_congr (update_of_ne ht _ _)

theorem pte_of_zero (h : s.mem t = fun _ => 0) : s.pte t i = 0 := by
  have h₀ : ∀ n a, load n (fun _ => 0) a = 0 := by
    intro n
    induction n with
    | zero => intro a; rfl
    | succ n ih => intro a; rw [load, ih]; rfl
  unfold Ram.pte
  rw [h, h₀]
  rfl

@[simp] theorem not_has_zero (x : Pte) : (0 : Pte).has x = false := by
  unfold Pte.has
  simp

/-! ## Roles -/

@[simp] theorem setRole_role_self (g : View) (p : Nat) (x : Role) : (g.setRole p x).role p = x :=
  update_self ..

theorem setRole_role_of_ne {q : Nat} {x : Role} (h : q ≠ p) : (g.setRole p x).role q = g.role q :=
  update_of_ne h ..

theorem setRole_role_iff {q : Nat} {x y : Role} : (g.setRole p x).role q = y ↔ (q = p ∧ x = y) ∨ (q ≠ p ∧ g.role q = y) := by
  by_cases hq : q = p
  · subst hq
    rw [setRole_role_self]
    simp
  · rw [setRole_role_of_ne hq]
    simp [hq]

@[simp] theorem setRole_leaf (g : View) (p : Nat) (x : Role) : (g.setRole p x).leaf = g.leaf := rfl
@[simp] theorem setRole_leak (g : View) (p : Nat) (x : Role) : (g.setRole p x).leak = g.leak := rfl
@[simp] theorem setLeaf_role (g : View) (r v : Nat) (x : Pte) : (g.setLeaf r v x).role = g.role := rfl
@[simp] theorem setLeaf_leak (g : View) (r v : Nat) (x : Pte) : (g.setLeaf r v x).leak = g.leak := rfl
@[simp] theorem setLeak_role (g : View) (p n : Nat) : (g.setLeak p n).role = g.role := rfl
@[simp] theorem setLeak_leaf (g : View) (p n : Nat) : (g.setLeak p n).leaf = g.leaf := rfl

@[simp] theorem setLeaf_leaf_self (g : View) (r v : Nat) (x : Pte) : (g.setLeaf r v x).leaf r v = x := by
  simp [View.setLeaf]

theorem setLeaf_leaf_of_ne {r' v' : Nat} {x : Pte} (h : r' ≠ r ∨ v' ≠ v) :
    (g.setLeaf r v x).leaf r' v' = g.leaf r' v' := by
  have hl : (g.setLeaf r v x).leaf = update g.leaf r (update (g.leaf r) v x) := rfl
  rw [hl]
  by_cases hr : r' = r
  · subst hr
    rw [update_self, update_of_ne (h.resolve_left fun hne => hne rfl)]
  · rw [update_of_ne hr]

theorem kernBase_eq : kernBase = 2097152 := rfl

theorem physTop_eq : physTop = 1073741824 := by
  unfold physTop
  rfl

theorem isPage_of_managed (h : s.managed p) : IsPage p := by
  have h₁ : physTop < 2 ^ 56 := by rw [physTop_eq]; decide
  exact ⟨h.1, Nat.lt_trans h.2.2 h₁⟩

theorem Tree.isPage (ht : Tree g s) (h : g.role p ≠ .outside) : IsPage p :=
  isPage_of_managed ((ht.managed p).1 h)

theorem Tree.lt_physTop (ht : Tree g s) (h : g.role p ≠ .outside) : p < physTop :=
  ((ht.managed p).1 h).2.2

theorem Tree.managed_setRole (ht : Tree g s) {x : Role} (hp : g.role p ≠ .outside) (hx : x ≠ .outside) (q : Nat) :
    (g.setRole p x).role q ≠ .outside ↔ s.managed q := by
  by_cases hq : q = p
  · subst hq
    rw [setRole_role_self]
    exact iff_of_true hx ((ht.managed q).1 hp)
  · rw [setRole_role_of_ne hq]
    exact ht.managed q

theorem Tree.free_setRole (ht : Tree g s) {x : Role} (hp : g.role p ≠ .free) (hx : x ≠ .free) (q : Nat) :
    q ∈ s.freelist ↔ (g.setRole p x).role q = .free := by
  by_cases hq : q = p
  · subst hq
    rw [setRole_role_self]
    exact iff_of_false (fun h => hp ((ht.free q).1 h)) hx
  · rw [setRole_role_of_ne hq]
    exact ht.free q

/-- A level and index of a tree belong to one page. -/
theorem Tree.unique (ht : Tree g s) {p' : Nat} (h : g.role p = .table r l k)
    (h' : g.role p' = .table r l k) : p = p' := by
  obtain ⟨n, hn⟩ : ∃ n, n + l = 2 := ⟨2 - l, Nat.sub_add_cancel (ht.level _ _ _ _ h)⟩
  induction n generalizing l k p p' with
  | zero =>
      have hl : l = 2 := by omega
      subst hl
      rw [(ht.top _ _ _ h).1, (ht.top _ _ _ h').1]
  | succ n ih =>
      obtain ⟨t, hr, hp⟩ := ht.parent _ _ _ _ h (by omega)
      obtain ⟨t', hr', hp'⟩ := ht.parent _ _ _ _ h' (by omega)
      have htt := ih hr hr' (by omega)
      subst htt
      rw [hp] at hp'
      exact pa2pte_inj (ht.isPage (by rw [h]; simp)) (ht.isPage (by rw [h']; simp)) (by decide)
        (by decide) hp'

/-! ## Changes that leave the trees alone -/

/-- Memory outside the page-table pages does not matter. -/
theorem Tree.of_pte (ht : Tree g s) (hk : s'.kend = s.kend) (hf : s'.freelist = s.freelist)
    (hp : ∀ t r l k i, g.role t = .table r l k → s'.pte t i = s.pte t i) : Tree g s' where
  base := hk ▸ ht.base
  managed p := by rw [ht.managed p]; unfold Ram.managed; rw [hk]
  free p := hf ▸ ht.free p
  nodup := hf ▸ ht.nodup
  root := ht.root
  top := ht.top
  level := ht.level
  parent p r l k h hl := by
    obtain ⟨t, h₁, h₂⟩ := ht.parent p r l k h hl
    exact ⟨t, h₁, (hp _ _ _ _ _ h₁).trans h₂⟩
  child t r l k i h hi hv := by
    rw [hp _ _ _ _ _ h] at hv ⊢
    exact ht.child t r l k i h hi hv
  leaf t r k i h hi := (hp _ _ _ _ _ h).trans (ht.leaf t r k i h hi)
  noLeaf := ht.noLeaf
  clean := ht.clean

theorem Tree.setLeak (ht : Tree g s) (p n : Nat) : Tree (g.setLeak p n) s :=
  ⟨ht.base, ht.managed, ht.free, ht.nodup, ht.root, ht.top, ht.level, ht.parent, ht.child, ht.leaf,
    ht.noLeaf, ht.clean⟩

/-- A role that is no page-table page and within the allocator's range. -/
def Role.Plain : Role → Prop
  | .free | .kern | .user => True
  | .outside | .table _ _ _ => False

theorem Tree.relabel (ht : Tree g s) {x : Role} (ha : (g.role p).Plain) (hb : x.Plain)
    (hk : s'.kend = s.kend) (hn : s'.freelist.Nodup)
    (hf : ∀ q, q ∈ s'.freelist ↔ (g.setRole p x).role q = .free)
    (hp : ∀ t r l k i, g.role t = .table r l k → s'.pte t i = s.pte t i) :
    Tree (g.setRole p x) s' := by
  have hto : ∀ q r l k, (g.setRole p x).role q = .table r l k ↔ g.role q = .table r l k := by
    intro q r l k
    by_cases hq : q = p
    · subst hq
      rw [setRole_role_self]
      constructor
      · intro h; rw [h] at hb; exact hb.elim
      · intro h; rw [h] at ha; exact ha.elim
    · rw [setRole_role_of_ne hq]
  exact {
    base := hk ▸ ht.base
    managed := fun q => by
      have hm : s'.managed q ↔ s.managed q := by unfold Ram.managed; rw [hk]
      rw [hm]
      exact ht.managed_setRole (fun h => by rw [h] at ha; exact ha) (fun h => by rw [h] at hb; exact hb) q
    free := hf
    nodup := hn
    root := fun q r l k h => (hto _ _ _ _).2 (ht.root q r l k ((hto _ _ _ _).1 h))
    top := fun q r k h => ht.top q r k ((hto _ _ _ _).1 h)
    level := fun q r l k h => ht.level q r l k ((hto _ _ _ _).1 h)
    parent := fun q r l k h hl => by
      obtain ⟨t, h₁, h₂⟩ := ht.parent q r l k ((hto _ _ _ _).1 h) hl
      exact ⟨t, (hto _ _ _ _).2 h₁, (hp _ _ _ _ _ h₁).trans h₂⟩
    child := fun t r l k i h hi hv => by
      have h₁ := (hto _ _ _ _).1 h
      rw [hp _ _ _ _ _ h₁] at hv ⊢
      obtain ⟨q, h₂, h₃⟩ := ht.child t r l k i h₁ hi hv
      exact ⟨q, h₂, (hto _ _ _ _).2 h₃⟩
    leaf := fun t r k i h hi =>
      (hp _ _ _ _ _ ((hto _ _ _ _).1 h)).trans (ht.leaf t r k i ((hto _ _ _ _).1 h) hi)
    noLeaf := fun r v h => ht.noLeaf r v fun t ht' => h t ((hto _ _ _ _).2 ht')
    clean := ht.clean }

/-! ## Writing an entry of the lowest level -/

theorem Tree.setLeaf (ht : Tree g s) (h : g.role t = .table r 0 k) (hi : i < 512) {x : Pte}
    (hx : x.has pteV = true ∨ x = 0) : Tree (g.setLeaf r (512 * k + i) x) (s.setPte t i x) where
  base := ht.base
  managed := ht.managed
  free := ht.free
  nodup := ht.nodup
  root := ht.root
  top := ht.top
  level := ht.level
  parent q r' l k' hq hl := by
    obtain ⟨t', h₁, h₂⟩ := ht.parent q r' l k' hq hl
    refine ⟨t', h₁, (pte_setPte_of_ne (.inl ?_)).trans h₂⟩
    rintro rfl
    rw [h] at h₁
    cases h₁
  child t' r' l k' j (h₁ : g.role t' = _) hj hv := by
    have hne : t' ≠ t := by
      rintro rfl
      rw [h] at h₁
      cases h₁
    rw [pte_setPte_of_ne (.inl hne)] at hv ⊢
    exact ht.child t' r' l k' j h₁ hj hv
  leaf t' r' k' j h₁ hj := by
    by_cases he : t' = t ∧ j = i
    · obtain ⟨rfl, rfl⟩ := he
      rw [setLeaf_role, h] at h₁
      cases h₁
      rw [pte_setPte, setLeaf_leaf_self]
    · rw [pte_setPte_of_ne (by omega), ht.leaf t' r' k' j h₁ hj, setLeaf_leaf_of_ne]
      by_contra hc
      have h₂ : r' = r ∧ 512 * k' + j = 512 * k + i := by omega
      have h₃ : k' = k ∧ j = i := by omega
      obtain ⟨rfl, rfl⟩ := h₃
      rw [h₂.1] at h₁
      exact he ⟨ht.unique h₁ h, rfl⟩
  noLeaf r' v' hno := by
    rw [setLeaf_leaf_of_ne]
    · exact ht.noLeaf r' v' hno
    · by_contra hc
      have h₂ : r' = r ∧ v' = 512 * k + i := by omega
      obtain ⟨rfl, rfl⟩ := h₂
      have h₃ : (512 * k + i) / 512 = k := by omega
      exact hno t (by rw [h₃]; exact h)
  clean r' v' := by
    by_cases he : r' = r ∧ v' = 512 * k + i
    · obtain ⟨rfl, rfl⟩ := he
      unfold View.Mapped
      rw [setLeaf_leaf_self]
      exact hx
    · unfold View.Mapped
      rw [setLeaf_leaf_of_ne (by omega)]
      exact ht.clean r' v'

/-! ## Linking and removing page-table pages -/

theorem ne_of_role {q : Nat} {a b : Role} (hp : g.role p = a) (hq : g.role q = b) (h : a ≠ b) : p ≠ q := by
  rintro rfl
  exact h (hp.symm.trans hq)

theorem make_has_pteV (p : Nat) : (pa2pte p ||| pteV).has pteV = true := by
  rw [has_pteV, getLsbD_make (by omega), getLsbD_pteV]
  rfl

theorem Tree.parent_valid (ht : Tree g s) {p : Nat} (h : g.role p = .table r l k)
    (hT : g.role t = .table r (l + 1) (k / 512)) : (s.pte t (k % 512)).has pteV = true := by
  have hl : l < 2 := by have := ht.level _ _ _ _ hT; omega
  obtain ⟨t', h₁, h₂⟩ := ht.parent _ _ _ _ h hl
  rw [ht.unique hT h₁, h₂]
  exact make_has_pteV p

/-- A zeroed page becomes the page-table page behind an entry that was not valid. -/
theorem Tree.link (ht : Tree g s) (hp : g.role p = .kern) (hz : s.mem p = fun _ => 0)
    (hT : g.role t = .table r (l + 1) k) (hi : i < 512) (hv : (s.pte t i).has pteV = false) :
    Tree (g.setRole p (.table r l (512 * k + i))) (s.setPte t i (pa2pte p ||| pteV)) := by
  have hdiv : (512 * k + i) / 512 = k := by omega
  have hmod : (512 * k + i) % 512 = i := by omega
  have hlv := ht.level _ _ _ _ hT
  have htp : t ≠ p := ne_of_role hT hp (by simp)
  have hnew : ∀ {q r' l' k'}, g.role q = .table r' l' k' →
      (g.setRole p (.table r l (512 * k + i))).role q = .table r' l' k' := fun h =>
    setRole_role_iff.2 (.inr ⟨ne_of_role h hp (by simp), h⟩)
  have hpz : ∀ j, (s.setPte t i (pa2pte p ||| pteV)).pte p j = 0 := fun j => by
    rw [pte_setPte_of_ne (.inl htp.symm), pte_of_zero hz]
  exact {
    base := ht.base
    managed := ht.managed_setRole (by rw [hp]; simp) (by simp)
    free := ht.free_setRole (by rw [hp]; simp) (by simp)
    nodup := ht.nodup
    root := fun q r' l' k' h => by
      rcases setRole_role_iff.1 h with ⟨rfl, h₀⟩ | ⟨-, h₀⟩
      · cases h₀
        exact hnew (ht.root _ _ _ _ hT)
      · exact hnew (ht.root _ _ _ _ h₀)
    top := fun q r' k' h => by
      rcases setRole_role_iff.1 h with ⟨rfl, h₀⟩ | ⟨-, h₀⟩
      · cases h₀
        omega
      · exact ht.top q r' k' h₀
    level := fun q r' l' k' h => by
      rcases setRole_role_iff.1 h with ⟨rfl, h₀⟩ | ⟨-, h₀⟩
      · cases h₀
        omega
      · exact ht.level _ _ _ _ h₀
    parent := fun q r' l' k' h hl => by
      rcases setRole_role_iff.1 h with ⟨rfl, h₀⟩ | ⟨-, h₀⟩
      · cases h₀
        rw [hdiv, hmod]
        exact ⟨t, hnew hT, pte_setPte _ _ _ _⟩
      · obtain ⟨t', h₁, h₂⟩ := ht.parent q r' l' k' h₀ hl
        refine ⟨t', hnew h₁, ?_⟩
        rw [pte_setPte_of_ne, h₂]
        -- the entry that is written was not valid, the one of `q` is
        by_contra hc
        have he : t' = t ∧ k' % 512 = i := by omega
        rw [he.1, he.2] at h₂
        rw [h₂, make_has_pteV] at hv
        cases hv
    child := fun t' r' l' k' j h hj hv' => by
      rcases setRole_role_iff.1 h with ⟨rfl, -⟩ | ⟨-, h₀⟩
      · rw [hpz, not_has_zero] at hv'
        cases hv'
      · by_cases he : t' = t ∧ j = i
        · obtain ⟨rfl, rfl⟩ := he
          rw [hT] at h₀
          cases h₀
          exact ⟨p, pte_setPte _ _ _ _, setRole_role_self _ _ _⟩
        · rw [pte_setPte_of_ne (by omega)] at hv' ⊢
          obtain ⟨q, h₂, h₃⟩ := ht.child t' r' l' k' j h₀ hj hv'
          exact ⟨q, h₂, hnew h₃⟩
    leaf := fun t' r' k' j h hj => by
      rcases setRole_role_iff.1 h with ⟨rfl, h₀⟩ | ⟨-, h₀⟩
      · cases h₀
        rw [hpz]
        refine (ht.noLeaf _ _ fun q hq' => ?_).symm
        have h₁ : (512 * (512 * k + i) + j) / 512 = 512 * k + i := by omega
        rw [h₁] at hq'
        have h₂ := ht.parent_valid hq' (by rw [hdiv]; exact hT)
        rw [hmod, hv] at h₂
        cases h₂
      · rw [pte_setPte_of_ne (.inl (ne_of_role h₀ hT (by simp)))]
        exact ht.leaf t' r' k' j h₀ hj
    noLeaf := fun r' v h => ht.noLeaf r' v fun q hq => h q (hnew hq)
    clean := ht.clean }

/-- A zeroed page becomes the root of a tree with no entries. -/
theorem Tree.newRoot (ht : Tree g s) (hp : g.role p = .kern) (hz : s.mem p = fun _ => 0) :
    Tree (g.setRole p (.table p 2 0)) s := by
  have hnew : ∀ {q r' l' k'}, g.role q = .table r' l' k' →
      (g.setRole p (.table p 2 0)).role q = .table r' l' k' := fun h =>
    setRole_role_iff.2 (.inr ⟨ne_of_role h hp (by simp), h⟩)
  exact {
    base := ht.base
    managed := ht.managed_setRole (by rw [hp]; simp) (by simp)
    free := ht.free_setRole (by rw [hp]; simp) (by simp)
    nodup := ht.nodup
    root := fun q r' l' k' h => by
      rcases setRole_role_iff.1 h with ⟨rfl, h₀⟩ | ⟨-, h₀⟩
      · cases h₀
        exact setRole_role_self _ _ _
      · exact hnew (ht.root _ _ _ _ h₀)
    top := fun q r' k' h => by
      rcases setRole_role_iff.1 h with ⟨rfl, h₀⟩ | ⟨-, h₀⟩
      · cases h₀
        exact ⟨rfl, rfl⟩
      · exact ht.top q r' k' h₀
    level := fun q r' l' k' h => by
      rcases setRole_role_iff.1 h with ⟨rfl, h₀⟩ | ⟨-, h₀⟩
      · cases h₀
        exact Nat.le_refl _
      · exact ht.level _ _ _ _ h₀
    parent := fun q r' l' k' h hl => by
      rcases setRole_role_iff.1 h with ⟨rfl, h₀⟩ | ⟨-, h₀⟩
      · cases h₀
        omega
      · obtain ⟨t', h₁, h₂⟩ := ht.parent q r' l' k' h₀ hl
        exact ⟨t', hnew h₁, h₂⟩
    child := fun t' r' l' k' j h hj hv' => by
      rcases setRole_role_iff.1 h with ⟨rfl, -⟩ | ⟨-, h₀⟩
      · rw [pte_of_zero hz, not_has_zero] at hv'
        cases hv'
      · obtain ⟨q, h₂, h₃⟩ := ht.child t' r' l' k' j h₀ hj hv'
        exact ⟨q, h₂, hnew h₃⟩
    leaf := fun t' r' k' j h hj => by
      rcases setRole_role_iff.1 h with ⟨rfl, h₀⟩ | ⟨-, h₀⟩
      · cases h₀
      · exact ht.leaf t' r' k' j h₀ hj
    noLeaf := fun r' v h => ht.noLeaf r' v fun q hq => h q (hnew hq)
    clean := ht.clean }

/-- The page-table page `p` is empty and goes on the free list. -/
structure Freed (s s' : Ram) (p : Nat) : Prop where
  kend : s'.kend = s.kend
  freelist : s'.freelist = p :: s.freelist
  pte : ∀ t i, t ≠ p → s'.pte t i = s.pte t i

theorem role_of_setRole_free {q : Nat} (h : (g.setRole p .free).role q = .table r l k) :
    q ≠ p ∧ g.role q = .table r l k := by
  rcases setRole_role_iff.1 h with ⟨-, h⟩ | h
  · cases h
  · exact h

theorem Tree.eq_root (ht : Tree g s) (he : ∀ j, j < 512 → (s.pte r j).has pteV = false) {q : Nat}
    (h : g.role q = .table r l k) : q = r := by
  have h₁ : ∀ {q k}, g.role q ≠ .table r 1 k := by
    intro q k hq
    obtain ⟨t, h₂, h₃⟩ := ht.parent q r 1 k hq (by omega)
    have h₄ := (ht.top _ _ _ h₂).1
    subst h₄
    have h₅ := he (k % 512) (Nat.mod_lt _ (by omega))
    rw [h₃, make_has_pteV] at h₅
    cases h₅
  have hl := ht.level _ _ _ _ h
  match l, hl with
  | 0, _ =>
      obtain ⟨t, h₂, -⟩ := ht.parent q r 0 k h (by omega)
      exact (h₁ h₂).elim
  | 1, _ => exact (h₁ h).elim
  | 2, _ => exact (ht.top _ _ _ h).1

/-- An empty page-table page is freed, and the entry that points to it, if it has a parent, is cleared. -/
theorem Tree.drop (ht : Tree g s) (hk : s'.kend = s.kend) (hf : s'.freelist = p :: s.freelist) (hp : g.role p = .table r l k)
    (he : ∀ j, j < 512 → (s.pte p j).has pteV = false)
    (hpte : ∀ t r' l' k' j, t ≠ p → g.role t = .table r' l' k' → j < 512 →
      s'.pte t j = if r' = r ∧ l' = l + 1 ∧ 512 * k' + j = k then 0 else s.pte t j) :
    Tree (g.setRole p .free) s' := by
  have hnew : ∀ {q r' l' k'}, q ≠ p → g.role q = .table r' l' k' →
      (g.setRole p .free).role q = .table r' l' k' := fun hq h => setRole_role_iff.2 (.inr ⟨hq, h⟩)
  exact {
    base := hk ▸ ht.base
    managed := fun q => by
      rw [ht.managed_setRole (by rw [hp]; simp) (by simp) q]
      unfold Ram.managed
      rw [hk]
    free := fun q => by
      rw [hf, List.mem_cons, setRole_role_iff, ht.free q]
      by_cases hq : q = p <;> simp [hq]
    nodup := by
      rw [hf, List.nodup_cons]
      refine ⟨fun h => ?_, ht.nodup⟩
      rw [(ht.free p).1 h] at hp
      cases hp
    root := fun q r' l' k' h => by
      obtain ⟨hq, h₁⟩ := role_of_setRole_free h
      refine hnew ?_ (ht.root _ _ _ _ h₁)
      rintro rfl
      exact hq (ht.eq_root he h₁)
    top := fun q r' k' h => ht.top q r' k' (role_of_setRole_free h).2
    level := fun q r' l' k' h => ht.level _ _ _ _ (role_of_setRole_free h).2
    parent := fun q r' l' k' h hl' => by
      obtain ⟨hq, h₁⟩ := role_of_setRole_free h
      obtain ⟨t', h₂, h₃⟩ := ht.parent q r' l' k' h₁ hl'
      have htp : t' ≠ p := by
        rintro rfl
        have h₄ := he (k' % 512) (Nat.mod_lt _ (by omega))
        rw [h₃, make_has_pteV] at h₄
        cases h₄
      refine ⟨t', hnew htp h₂, ?_⟩
      rw [hpte _ _ _ _ _ htp h₂ (Nat.mod_lt _ (by omega)), if_neg, h₃]
      -- the cleared entry is that of `p`, which is another page
      rintro ⟨rfl, h₄, h₅⟩
      obtain rfl : l' = l := by omega
      obtain rfl : k' = k := by omega
      exact hq (ht.unique h₁ hp)
    child := fun t' r' l' k' j h hj hv => by
      obtain ⟨hq, h₁⟩ := role_of_setRole_free h
      rw [hpte _ _ _ _ _ hq h₁ hj] at hv ⊢
      split at hv
      · rw [not_has_zero] at hv
        cases hv
      · rename_i hc
        rw [if_neg hc]
        obtain ⟨q, h₂, h₃⟩ := ht.child t' r' l' k' j h₁ hj hv
        refine ⟨q, h₂, hnew ?_ h₃⟩
        rintro rfl
        rw [hp] at h₃
        cases h₃
        exact hc ⟨rfl, rfl, rfl⟩
    leaf := fun t' r' k' j h hj => by
      obtain ⟨hq, h₁⟩ := role_of_setRole_free h
      rw [hpte _ _ _ _ _ hq h₁ hj, if_neg (by omega)]
      exact ht.leaf t' r' k' j h₁ hj
    noLeaf := fun r' v h => by
      by_cases hc : r' = r ∧ l = 0 ∧ k = v / 512
      · obtain ⟨rfl, rfl, rfl⟩ := hc
        have h₁ := ht.leaf p r' (v / 512) (v % 512) hp (Nat.mod_lt _ (by omega))
        rw [Nat.div_add_mod] at h₁
        refine (ht.clean r' v).resolve_left fun h₂ => ?_
        unfold View.Mapped at h₂
        rw [← h₁, he _ (Nat.mod_lt _ (by omega))] at h₂
        cases h₂
      · refine ht.noLeaf r' v fun q hq => h q (hnew ?_ hq)
        rintro rfl
        rw [hp] at hq
        cases hq
        exact hc ⟨rfl, rfl, rfl⟩
    clean := ht.clean }

theorem Tree.unlink (ht : Tree g s) (hf : Freed s s' p) (hp : g.role p = .table r l k)
    (hT : g.role t = .table r (l + 1) (k / 512))
    (he : ∀ j, j < 512 → (s.pte p j).has pteV = false) :
    Tree (g.setRole p .free) (s'.setPte t (k % 512) 0) := by
  refine ht.drop hf.kend hf.freelist hp he fun t' r' l' k' j hne h hj => ?_
  split
  · rename_i hc
    obtain ⟨rfl, rfl, rfl⟩ := hc
    have h₁ : (512 * k' + j) / 512 = k' := by omega
    have h₂ : (512 * k' + j) % 512 = j := by omega
    rw [h₁] at hT
    rw [ht.unique h hT, h₂, pte_setPte]
  · rename_i hc
    rw [pte_setPte_of_ne, hf.pte _ _ hne]
    by_contra h₁
    have h₂ : t' = t ∧ j = k % 512 := by omega
    rw [h₂.1, hT] at h
    cases h
    exact hc ⟨rfl, rfl, by omega⟩

theorem Tree.freeRoot (ht : Tree g s) (hf : Freed s s' r) (hr : g.role r = .table r 2 0)
    (he : ∀ j, j < 512 → (s.pte r j).has pteV = false) : Tree (g.setRole r .free) s' := by
  refine ht.drop hf.kend hf.freelist hr he fun t r' l' k' j hne h hj => ?_
  have hl := ht.level _ _ _ _ h
  rw [if_neg (by omega), hf.pte _ _ hne]

end Xv6.Vm
