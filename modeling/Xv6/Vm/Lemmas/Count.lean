import Xv6.Lib.Card
import Xv6.Vm.Lemmas.Tree

/-!
# Reference counts

How each change of an entry or of a reference count changes the account of a page. A reference that
no entry stands for yet, or any longer, is a leak of the page; mapping and unmapping turn leaks into
entries and back.
-/

namespace Xv6.Vm

open Xv6.Lib Function

variable {top : Nat} {g : View} {s s' : Ram} {p q r v n : Nat} {x : Pte}

/-! ## Counts in memory -/

theorem krefCount_eq : krefCount = 261632 := by
  unfold krefCount
  rw [physTop_eq]
  rfl

theorem krefIndex_eq (hb : kernBase ≤ p) (hp : p < physTop) : krefIndex p = (p - kernBase) / pgSize := by
  unfold krefIndex pgSize
  rw [kernBase_eq] at hb ⊢
  rw [physTop_eq] at hp
  omega

theorem krefIndex_lt (hb : kernBase ≤ p) (hp : p < physTop) : krefIndex p < krefCount := by
  rw [krefIndex_eq hb hp, krefCount_eq]
  unfold pgSize
  rw [kernBase_eq] at hb ⊢
  rw [physTop_eq] at hp
  omega

theorem krefIndex_inj (hb : kernBase ≤ s.kend) (hp : s.managed p) (hq : s.managed q)
    (h : krefIndex p = krefIndex q) : p = q := by
  obtain ⟨hp₁, hp₂, hp₃⟩ := hp
  obtain ⟨hq₁, hq₂, hq₃⟩ := hq
  rw [krefIndex_eq (by omega) hp₃, krefIndex_eq (by omega) hq₃] at h
  unfold pgSize at *
  rw [kernBase_eq] at hb h
  omega

theorem setRef_krefcount (s : Ram) (i n : Nat) :
    (s.setRef i n).krefcount = update s.krefcount i n := rfl

@[simp] theorem ref_setRef_self (s : Ram) (p n : Nat) : (s.setRef (krefIndex p) n).ref p = n := by
  unfold Ram.ref
  rw [setRef_krefcount, update_self]

theorem ref_setRef_of_ne (hb : kernBase ≤ s.kend) (hp : s.managed p) (hq : s.managed q) (h : q ≠ p) :
    (s.setRef (krefIndex p) n).ref q = s.ref q := by
  unfold Ram.ref
  rw [setRef_krefcount, update_of_ne fun he => h (krefIndex_inj hb hq hp he)]

/-! ## The entries that map a page -/

theorem mem_maps : (r, v) ∈ g.maps top p ↔ (r < physTop ∧ v < top) ∧ g.Mapped r v ∧ g.page r v = p := by
  unfold View.maps
  rw [Finset.mem_filter, Finset.mem_product, Finset.mem_range, Finset.mem_range]

theorem mapCount_eq_card : g.mapCount top p = (g.maps top p).card := Set.ncard_coe_finset _

theorem mapCount_setLeaf (hr : r < physTop) (hv : v < top) :
    (g.setLeaf r v x).mapCount top p + (if g.Mapped r v ∧ g.page r v = p then 1 else 0) =
      g.mapCount top p + (if x.has pteV = true ∧ pte2pa x = p then 1 else 0) := by
  have ha : (r, v) ∈ Finset.range physTop ×ˢ Finset.range top := by
    rw [Finset.mem_product, Finset.mem_range, Finset.mem_range]
    exact ⟨hr, hv⟩
  have hoff : ∀ y ∈ Finset.range physTop ×ˢ Finset.range top, y ≠ (r, v) →
      (g.Mapped y.1 y.2 ∧ g.page y.1 y.2 = p ↔
        (g.setLeaf r v x).Mapped y.1 y.2 ∧ (g.setLeaf r v x).page y.1 y.2 = p) := by
    intro y _ hy
    have hne : y.1 ≠ r ∨ y.2 ≠ v := by
      by_contra hc
      exact hy (Prod.ext (by omega) (by omega))
    unfold View.Mapped View.page
    rw [setLeaf_leaf_of_ne hne]
  rw [mapCount_eq_card, mapCount_eq_card]
  unfold View.maps
  rw [card_filter_except ha hoff]
  congr 1
  refine if_congr ?_ rfl rfl
  unfold View.Mapped View.page
  rw [setLeaf_leaf_self]

theorem mapCount_setLeaf_of_le (hv : top ≤ v) : (g.setLeaf r v x).mapCount top p = g.mapCount top p := by
  rw [mapCount_eq_card, mapCount_eq_card]
  congr 1
  apply Finset.filter_congr
  intro y hy
  rw [Finset.mem_product, Finset.mem_range, Finset.mem_range] at hy
  unfold View.Mapped View.page
  rw [setLeaf_leaf_of_ne (.inr (by omega))]

@[simp] theorem mapCount_setRole (g : View) (a : Nat) (y : Role) (p : Nat) :
    (g.setRole a y).mapCount top p = g.mapCount top p := by
  rfl

@[simp] theorem mapCount_setLeak (g : View) (a n p : Nat) :
    (g.setLeak a n).mapCount top p = g.mapCount top p := by
  rfl

theorem mapCount_eq_zero : g.mapCount top p = 0 ↔ g.maps top p = ∅ := by
  rw [mapCount_eq_card]
  exact Finset.card_eq_zero

theorem Tree.root_of_mapped (ht : Tree g s) (h : g.Mapped r v) : g.role r = .table r 2 0 := by
  by_contra hc
  have h₀ := ht.noLeaf r v fun t hr => hc (ht.root _ _ _ _ hr)
  unfold View.Mapped at h
  rw [h₀, not_has_zero] at h
  cases h

theorem Tree.mem_maps_of_mapped (ht : Tree g s) (hv : v < top) (h : g.Mapped r v) :
    (r, v) ∈ g.maps top (g.page r v) := by
  have hr := ht.lt_physTop (p := r) (by rw [ht.root_of_mapped h]; simp)
  exact mem_maps.2 ⟨⟨hr, hv⟩, h, rfl⟩

theorem refs_of_user (hp : g.role p = .user) : g.refs top p = g.mapCount top p + g.leak p := by
  unfold View.refs
  rw [hp]

theorem refs_congr (top : Nat) (f g : View) (p : Nat) (hrole : f.role p = g.role p) 
    (hmaps : f.mapCount top p = g.mapCount top p) (hleak : f.leak p = g.leak p) :
    f.refs top p = g.refs top p := by
  unfold View.refs
  rw [hrole, hmaps, hleak]

/-! ## Changes of the view and of the counts -/

theorem Count.of_ref (h : Count top g s) (hk : s'.kend = s.kend) (hr : ∀ p, s'.ref p = s.ref p) :
    Count top g s' where
  user := h.user
  ref p hp := by
    rw [hr]
    exact h.ref p (by unfold Ram.managed at *; rwa [hk] at hp)
  write r v hv hm hw := (hr _).trans (h.write r v hv hm hw)
  noLeak := h.noLeak

theorem Count.relabel (h : Count top g s) {y : Role} (hk : s'.kend = s.kend) (hp : g.role p ≠ .user)
    (href : s'.ref p = (g.setRole p y).refs top p)
    (hne : ∀ q, s.managed q → q ≠ p → s'.ref q = s.ref q)
    (hm : ∀ q, g.role q ≠ .outside → s.managed q) : Count top (g.setRole p y) s' where
  user r v hv hmap := by
    have hu := h.user r v hv hmap
    have hpg : (g.setRole p y).page r v = g.page r v := rfl
    have hne : g.page r v ≠ p := ne_of_role hu rfl hp.symm
    rw [hpg, setRole_role_of_ne hne]
    exact hu
  ref q hq := by
    by_cases hqp : q = p
    · rw [hqp]; exact href
    · have hq' : s.managed q := by unfold Ram.managed at *; rwa [hk] at hq
      rw [hne q hq' hqp, h.ref q hq']
      symm
      apply refs_congr
      · exact setRole_role_of_ne hqp
      · rw [mapCount_setRole]
      · rfl
  write r v hv hmap hw := by
    have hu := h.user r v hv hmap
    have hpg : g.page r v ≠ p := ne_of_role hu rfl hp.symm
    exact (hne _ (hm _ (by rw [hu]; simp)) hpg).trans (h.write r v hv hmap hw)
  noLeak q hq := by
    by_cases hqp : q = p
    · rw [hqp]; exact h.noLeak p hp
    · rw [setRole_role_of_ne hqp] at hq
      exact h.noLeak q hq

theorem Count.maps_eq_empty (h : Count top g s) (hp : g.role p ≠ .user) : g.maps top p = ∅ := by
  by_contra hc
  obtain ⟨⟨r, v⟩, hrv⟩ := Finset.nonempty_iff_ne_empty.2 hc
  obtain ⟨⟨-, hv⟩, hmap, hpg⟩ := mem_maps.1 hrv
  exact hp (hpg ▸ h.user r v hv hmap)

@[simp] theorem setLeak_leak_self (g : View) (p n : Nat) : (g.setLeak p n).leak p = n :=
  update_self ..

theorem setLeak_leak_of_ne (h : q ≠ p) : (g.setLeak p n).leak q = g.leak q := update_of_ne h ..

/-- The kernel's page becomes user memory, its one reference a leak. -/
theorem Count.kernToUser (h : Count top g s) (hp : g.role p = .kern) :
    Count top ((g.setRole p .user).setLeak p 1) s where
  user r v hv hmap := by
    have hu := h.user r v hv hmap
    show (g.setRole p .user).role (g.page r v) = .user
    by_cases he : g.page r v = p
    · rw [he, setRole_role_self]
    · rw [setRole_role_of_ne he]
      exact hu
  ref q hq := by
    rw [h.ref q hq]
    by_cases hqp : q = p
    · subst hqp
      have hu : ((g.setRole q .user).setLeak q 1).role q = .user := setRole_role_self _ _ _
      rw [refs_of_user hu, setLeak_leak_self, mapCount_setLeak, mapCount_setRole,
        mapCount_eq_zero.2 (h.maps_eq_empty (by rw [hp]; simp))]
      unfold View.refs
      rw [hp]
    · symm
      apply refs_congr
      · exact setRole_role_of_ne hqp
      · rw [mapCount_setLeak, mapCount_setRole]
      · exact setLeak_leak_of_ne hqp
  write := h.write
  noLeak q hq := by
    by_cases hqp : q = p
    · subst hqp
      exact absurd (setRole_role_self g q .user) hq
    · rw [setLeak_leak_of_ne hqp]
      exact h.noLeak q (by rw [← setRole_role_of_ne (g := g) (x := .user) hqp]; exact hq)

/-- An entry is removed, its reference stays as a leak. -/
theorem Count.unmap (h : Count top g s) (ht : Tree g s) (hv : v < top) (hmap : g.Mapped r v)
    (hx : x.has pteV = false) :
    Count top ((g.setLeaf r v x).setLeak (g.page r v) (g.leak (g.page r v) + 1)) s := by
  have hr := ht.lt_physTop (p := r) (by rw [ht.root_of_mapped hmap]; simp)
  have hu := h.user r v hv hmap
  have hoff : ∀ {r' v'}, (g.setLeaf r v x).Mapped r' v' →
      (g.setLeaf r v x).leaf r' v' = g.leaf r' v' := by
    intro r' v' hm
    apply setLeaf_leaf_of_ne
    by_contra hc
    have he : r' = r ∧ v' = v := by omega
    unfold View.Mapped at hm
    rw [he.1, he.2, setLeaf_leaf_self, hx] at hm
    cases hm
  exact {
    user := fun r' v' hv' hm => by
      have hl := hoff hm
      have hm' : g.Mapped r' v' := by unfold View.Mapped; rw [← hl]; exact hm
      show g.role (pte2pa ((g.setLeaf r v x).leaf r' v')) = .user
      rw [hl]
      exact h.user r' v' hv' hm'
    ref := fun q hq => by
      rw [h.ref q hq]
      by_cases hqp : q = g.page r v
      · subst hqp
        have hc := mapCount_setLeaf (g := g) (p := g.page r v) (x := x) hr hv
        simp only [hmap, hx, true_and, if_true, Bool.false_eq_true, false_and, if_false] at hc
        rw [refs_of_user hu, refs_of_user (g := (g.setLeaf r v x).setLeak _ _) hu, setLeak_leak_self,
          mapCount_setLeak]
        omega
      · have hc := mapCount_setLeaf (g := g) (p := q) (x := x) hr hv
        simp only [hx, Ne.symm hqp, and_false, if_false, Bool.false_eq_true, false_and,
          Nat.add_zero] at hc
        symm
        apply refs_congr
        · rfl
        · rw [mapCount_setLeak]; exact hc
        · exact setLeak_leak_of_ne hqp
    write := fun r' v' hv' hm hw => by
      have hl := hoff hm
      have hm' : g.Mapped r' v' := by unfold View.Mapped; rw [← hl]; exact hm
      show s.ref (pte2pa ((g.setLeaf r v x).leaf r' v')) = 1
      have hw' : ((g.setLeaf r v x).leaf r' v').has pteW = true := hw
      rw [hl] at hw' ⊢
      exact h.write r' v' hv' hm' hw'
    noLeak := fun q hq => by
      rw [setLeak_leak_of_ne (ne_of_role (g := g) rfl hu hq)]
      exact h.noLeak q hq }

/-- A leak of a page becomes an entry. -/
theorem Count.map (h : Count top g s) (hr : r < physTop) (hv : v < top) (hmap : ¬ g.Mapped r v)
    (hx : x.has pteV = true) (hu : g.role (pte2pa x) = .user) (hn : g.leak (pte2pa x) = n + 1)
    (hw : x.has pteW = true → s.ref (pte2pa x) = 1) :
    Count top ((g.setLeaf r v x).setLeak (pte2pa x) n) s where
  user r' v' hv' hm := by
    by_cases he : r' = r ∧ v' = v
    · obtain ⟨rfl, rfl⟩ := he
      show g.role (pte2pa ((g.setLeaf r' v' x).leaf r' v')) = .user
      rw [setLeaf_leaf_self]
      exact hu
    · have hl : (g.setLeaf r v x).leaf r' v' = g.leaf r' v' := setLeaf_leaf_of_ne (by omega)
      show g.role (pte2pa ((g.setLeaf r v x).leaf r' v')) = .user
      rw [hl]
      refine h.user r' v' hv' ?_
      unfold View.Mapped
      rw [← hl]
      exact hm
  ref q hq := by
    rw [h.ref q hq]
    have hc := mapCount_setLeaf (g := g) (p := q) (x := x) hr hv
    simp only [hmap, hx, true_and, false_and, if_false, Nat.add_zero] at hc
    by_cases hqp : q = pte2pa x
    · subst hqp
      rw [if_pos rfl] at hc
      rw [refs_of_user hu, refs_of_user (g := (g.setLeaf r v x).setLeak _ _) hu, setLeak_leak_self,
        mapCount_setLeak, hn]
      omega
    · rw [if_neg (Ne.symm hqp), Nat.add_zero] at hc
      symm
      apply refs_congr
      · rfl
      · rw [mapCount_setLeak]; exact hc
      · exact setLeak_leak_of_ne hqp
  write r' v' hv' hm hw' := by
    by_cases he : r' = r ∧ v' = v
    · obtain ⟨rfl, rfl⟩ := he
      have hw₁ : ((g.setLeaf r' v' x).leaf r' v').has pteW = true := hw'
      show s.ref (pte2pa ((g.setLeaf r' v' x).leaf r' v')) = 1
      rw [setLeaf_leaf_self] at hw₁ ⊢
      exact hw hw₁
    · have hl : (g.setLeaf r v x).leaf r' v' = g.leaf r' v' := setLeaf_leaf_of_ne (by omega)
      have hw₁ : ((g.setLeaf r v x).leaf r' v').has pteW = true := hw'
      have hm₁ : ((g.setLeaf r v x).leaf r' v').has pteV = true := hm
      show s.ref (pte2pa ((g.setLeaf r v x).leaf r' v')) = 1
      rw [hl] at hw₁ hm₁ ⊢
      exact h.write r' v' hv' hm₁ hw₁
  noLeak q hq := by
    rw [setLeak_leak_of_ne (ne_of_role (g := g) rfl hu hq)]
    exact h.noLeak q hq

theorem Count.setFlags (h : Count top g s) (ht : Tree g s) (hv : v < top) (hmap : g.Mapped r v)
    (hx : x.has pteV = true) (hp : pte2pa x = g.page r v)
    (hw : x.has pteW = true → (g.leaf r v).has pteW = true) : Count top (g.setLeaf r v x) s := by
  have hr := ht.lt_physTop (p := r) (by rw [ht.root_of_mapped hmap]; simp)
  have hoff : ∀ r' v', ((g.setLeaf r v x).Mapped r' v' → g.Mapped r' v') ∧
      (g.setLeaf r v x).page r' v' = g.page r' v' ∧
      (((g.setLeaf r v x).leaf r' v').has pteW = true → (g.leaf r' v').has pteW = true) := by
    intro r' v'
    by_cases he : r' = r ∧ v' = v
    · obtain ⟨rfl, rfl⟩ := he
      unfold View.page
      rw [setLeaf_leaf_self]
      exact ⟨fun _ => hmap, hp, hw⟩
    · unfold View.Mapped View.page
      rw [setLeaf_leaf_of_ne (by omega)]
      exact ⟨id, rfl, id⟩
  exact {
    user := fun r' v' hv' hm => by
      obtain ⟨h₁, h₂, -⟩ := hoff r' v'
      rw [h₂]
      exact h.user r' v' hv' (h₁ hm)
    ref := fun q hq => by
      rw [h.ref q hq]
      have hc := mapCount_setLeaf (g := g) (p := q) (x := x) hr hv
      rw [hp] at hc
      simp only [hmap, hx, true_and] at hc
      symm
      apply refs_congr
      · rfl
      · omega
      · rfl
    write := fun r' v' hv' hm hw' => by
      obtain ⟨h₁, h₂, h₃⟩ := hoff r' v'
      rw [h₂]
      exact h.write r' v' hv' (h₁ hm) (h₃ hw')
    noLeak := h.noLeak }

theorem Count.setHigh (h : Count top g s) (hv : top ≤ v) : Count top (g.setLeaf r v x) s := by
  have hl : ∀ r' v', v' < top → (g.setLeaf r v x).leaf r' v' = g.leaf r' v' := fun r' v' hv' =>
    setLeaf_leaf_of_ne (.inr (by omega))
  exact {
    user := fun r' v' hv' hm => by
      unfold View.Mapped View.page at *
      rw [hl r' v' hv'] at hm ⊢
      exact h.user r' v' hv' hm
    ref := fun q hq => by
      rw [h.ref q hq]
      symm
      apply refs_congr
      · rfl
      · rw [mapCount_setLeaf_of_le hv]
      · rfl
    write := fun r' v' hv' hm hw => by
      unfold View.Mapped View.page at *
      rw [hl r' v' hv'] at hm hw ⊢
      exact h.write r' v' hv' hm hw
    noLeak := h.noLeak }

/-! ## Changes of one reference count -/

/-- The counts of `s'` are those of `s` but for the page `p`, whose count is `n`. -/
structure RefSet (s s' : Ram) (p n : Nat) : Prop where
  kend : s'.kend = s.kend
  self : s'.ref p = n
  other : ∀ q, s.managed q → q ≠ p → s'.ref q = s.ref q

theorem RefSet.managed (hs : RefSet s s' p n) (q : Nat) : s'.managed q ↔ s.managed q := by
  unfold Ram.managed
  rw [hs.kend]

/-- The count of a user page and its leaks change together, while no entry to it is writable. -/
theorem Count.setRefLeak (h : Count top g s) (ht : Tree g s) {m : Nat} (hs : RefSet s s' p m)
    (hu : g.role p = .user) (hm : m = g.mapCount top p + n)
    (hw : ∀ r v, v < top → g.Mapped r v → g.page r v = p → (g.leaf r v).has pteW = false) :
    Count top (g.setLeak p n) s' where
  user := h.user
  ref q hq := by
    by_cases hqp : q = p
    · subst hqp
      rw [hs.self, hm, refs_of_user (g := g.setLeak q n) hu, setLeak_leak_self, mapCount_setLeak]
    · have hq' := (hs.managed q).1 hq
      rw [hs.other q hq' hqp, h.ref q hq']
      symm
      apply refs_congr
      · rfl
      · rw [mapCount_setLeak]
      · exact setLeak_leak_of_ne hqp
  write r v hv hmap hw' := by
    have hpg : g.page r v ≠ p := fun he => by
      have h₁ : (g.leaf r v).has pteW = true := hw'
      rw [hw r v hv hmap he] at h₁
      cases h₁
    have hmg := (ht.managed (g.page r v)).1 (by rw [h.user r v hv hmap]; simp)
    exact (hs.other _ hmg hpg).trans (h.write r v hv hmap hw')
  noLeak q hq := by
    rw [setLeak_leak_of_ne (ne_of_role (g := g) rfl hu hq)]
    exact h.noLeak q hq

/-- A page whose count is not 1 has no writable entry. -/
theorem Count.not_write (h : Count top g s) (hp : s.ref p ≠ 1) :
    ∀ r v, v < top → g.Mapped r v → g.page r v = p → (g.leaf r v).has pteW = false := by
  intro r v hv hmap he
  cases hw : (g.leaf r v).has pteW with
  | false => rfl
  | true => exact absurd (he ▸ h.write r v hv hmap hw) hp

theorem Count.free (h : Count top g s) (ht : Tree g s) (hs : RefSet s s' p 0)
    (hu : g.role p = .user) (hm : g.mapCount top p = 0) :
    Count top ((g.setLeak p 0).setRole p .free) s' := by
  have hpg : ∀ r v, v < top → g.Mapped r v → g.page r v ≠ p := by
    intro r v hv hmap he
    have h₁ := ht.mem_maps_of_mapped hv hmap
    rw [he, mapCount_eq_zero.1 hm] at h₁
    exact absurd h₁ (Finset.notMem_empty _)
  exact {
    user := fun r v hv hmap => by
      show ((g.setLeak p 0).setRole p .free).role (g.page r v) = .user
      rw [setRole_role_of_ne (hpg r v hv hmap)]
      exact h.user r v hv hmap
    ref := fun q hq => by
      by_cases hqp : q = p
      · subst hqp
        rw [hs.self]
        unfold View.refs
        rw [setRole_role_self]
      · have hq' := (hs.managed q).1 hq
        rw [hs.other q hq' hqp, h.ref q hq']
        symm
        apply refs_congr
        · exact setRole_role_of_ne hqp
        · rw [mapCount_setRole, mapCount_setLeak]
        · exact setLeak_leak_of_ne hqp
    write := fun r v hv hmap hw => by
      have hmg := (ht.managed (g.page r v)).1 (by rw [h.user r v hv hmap]; simp)
      exact (hs.other _ hmg (hpg r v hv hmap)).trans (h.write r v hv hmap hw)
    noLeak := fun q hq => by
      by_cases hqp : q = p
      · subst hqp
        exact setLeak_leak_self g q 0
      · rw [setRole_role_of_ne hqp] at hq
        exact (setLeak_leak_of_ne hqp).trans (h.noLeak q hq) }

end Xv6.Vm
