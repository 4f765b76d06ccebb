import Xv6.Vm.Lemmas.Map
import Mathlib.Order.CompletePartialOrder

/-!
# Sharing the memory of a process

`uvmcopy` gives the child the entries of the parent, none of them writable. Where no page is left for
a page-table page of the child it takes the child's entries back, but not the reference for the page
it was about to map.
-/

namespace Xv6.Vm

open Xv6.Lib Function

variable {top : Nat} {f g h : View} {s t u w : Ram} {a p q r v i n old new sz : Nat} {x : Pte}
  {E : Stop → Ram → Prop}

/-! ## One entry -/

/-- While a page has an entry that is not writable, it has no writable one. -/
theorem Count.no_write (hc : Count top g s) (ht : Tree g s) (hv : v < top) (hm : g.Mapped r v)
    (hw : (g.leaf r v).has pteW = false) :
    ∀ r' v', v' < top → g.Mapped r' v' → g.page r' v' = g.page r v → (g.leaf r' v').has pteW = false := by
  intro r' v' hv' hm' he
  cases hw' : (g.leaf r' v').has pteW with
  | false => rfl
  | true =>
      have hu := hc.user r v hv hm
      have href := hc.write r' v' hv' hm' hw'
      rw [he, hc.ref _ (managed_of_role ht hu (by simp)), refs_of_user hu, mapCount_eq_card] at href
      have h₁ := ht.mem_maps_of_mapped hv hm
      have h₂ := ht.mem_maps_of_mapped hv' hm'
      rw [he] at h₂
      have h₃ := Finset.card_le_one.1 (by omega) _ h₁ _ h₂
      cases h₃
      rw [hw] at hw'
      cases hw'

/-- The view after the entry of `v` has been shared and the reference for the child taken. -/
def View.shared (g : View) (r v : Nat) : View :=
  (g.setLeaf r v (share (g.leaf r v))).setLeak (g.page r v) (g.leak (g.page r v) + 1)

/-- Only entries and counts have changed. -/
structure Quiet (g : View) (s t : Ram) : Prop where
  mem : ∀ q, g.role q = .user ∨ g.role q = .kern → t.mem q = s.mem q
  freelist : t.freelist = s.freelist
  kfail : t.kfail = s.kfail
  kend : t.kend = s.kend
  trampoline : t.trampolinePage = s.trampolinePage

theorem setLeaf_same (g : View) (r v : Nat) : g.setLeaf r v (g.leaf r v) = g := by
  unfold View.setLeaf
  rw [update_eq_self, update_eq_self]

theorem shared_page (g : View) (r v : Nat) (x : Pte) (hx : pte2pa x = g.page r v) :
    (g.setLeaf r v x).page r v = g.page r v := by
  unfold View.page
  rw [setLeaf_leaf_self]
  exact hx

theorem Inv.shared (hI : Inv top g s) (ha : g.role a = .table r 0 (v / 512)) (hv : v < top)
    (hm : g.Mapped r v) (hw : (g.leaf r v).has pteW = true) :
    Inv top (g.shared r v) ((s.setPte a (v % 512) (share (g.leaf r v))).setRef (krefIndex (g.page r v))
      (s.ref (g.page r v) + 1)) := by
  have hx : (share (g.leaf r v)).has pteV = true := by rw [share_has_pteV]; exact hm
  have hI₁ := hI.setFlags ha hv hm hx (pte2pa_share _) (fun _ => hw)
  have hm₁ : (g.setLeaf r v (share (g.leaf r v))).Mapped r v := by
    unfold View.Mapped
    rw [setLeaf_leaf_self]
    exact hx
  have hpg := shared_page g r v _ (pte2pa_share (g.leaf r v))
  have hno := hI₁.count.no_write hI₁.tree hv hm₁ (by rw [setLeaf_leaf_self]; exact share_has_pteW _)
  rw [hpg] at hno
  exact hI₁.kref (hI.count.user r v hv hm) hno

theorem share_of_not_write (hw : x.has pteW = false) : share x = x := by
  unfold share
  rw [hw]
  rfl

theorem wp_share {Q : Pte → Ram → Prop} (hI : Inv top g s) (ha : g.role a = .table r 0 (v / 512)) (hv : v < top)
    (hm : g.Mapped r v)
    (hQ : ∀ t, Inv top (g.shared r v) t → Quiet g s t → Q (childFlags (g.leaf r v)) t) :
    wp (krefpage (g.page r v)) (fun _ t => wp (shareEntry (a, v % 512) (g.leaf r v)) Q E t) E s := by
  have hu := hI.count.user r v hv hm
  refine wp_krefpage hI hu ?_
  unfold childFlags at hQ
  unfold shareEntry
  cases hw : (g.leaf r v).has pteW with
  | true =>
      simp only [pteFlags_has_pteW, hw, if_true, writePte, wp_bind, wp_modify, wp_pure] at hQ ⊢
      have hs : (g.leaf r v &&& ~~~(pteW ||| pteCow)) ||| pteCow = share (g.leaf r v) := by
        unfold share
        rw [hw]
        rfl
      rw [hs]
      refine hQ _ (hI.shared ha hv hm hw) ⟨fun q hq => ?_, rfl, rfl, rfl, rfl⟩
      refine update_of_ne ?_ _ _
      rcases hq with hq | hq <;> exact ne_of_role hq ha (by simp)
  | false =>
      simp only [pteFlags_has_pteW, hw, Bool.false_eq_true, if_false, wp_pure] at hQ ⊢
      refine hQ _ ?_ ⟨fun _ _ => rfl, rfl, rfl, rfl, rfl⟩
      unfold View.shared
      rw [share_of_not_write hw, setLeaf_same]
      exact hI.kref hu (hI.count.no_write hI.tree hv hm hw)

/-! ## The loop -/

/-- The page-table pages on the way to the pages below `i` that the table `old` maps. -/
def View.paths (g : View) (old i : Nat) : Set (Nat × Nat) :=
  { x | ∃ v, v < i ∧ g.Mapped old v ∧ x ∈ path v 2 }

/-- What has been left alone: pages that were in use keep their use, user and kernel memory is as it
was, and each new page-table page of `new` came off the free list. -/
structure Kept (g : View) (s : Ram) (new : Nat) (h : View) (t : Ram) : Prop where
  role : ∀ p, g.role p ≠ .free → h.role p = g.role p
  user : ∀ p, h.role p = .user → g.role p = .user
  roots : h.roots = g.roots
  kern : h.kern = g.kern
  mem : ∀ p, g.role p = .user ∨ g.role p = .kern → t.mem p = s.mem p
  kfail : s.kfail = true → t.kfail = true
  kend : t.kend = s.kend
  trampoline : t.trampolinePage = s.trampolinePage
  free : t.freelist.length + (h.tables new).ncard = s.freelist.length + (g.tables new).ncard

/-- The pages below `i` have been shared. -/
structure Copied (top : Nat) (g : View) (s : Ram) (old new i : Nat) (h : View) (t : Ram) : Prop where
  inv : Inv top h t
  kept : Kept g s new h t
  leaf : ∀ r v, h.leaf r v = if v < i ∧ (r = old ∨ r = new) then share (g.leaf old v) else g.leaf r v
  leak : h.leak = g.leak
  tables : h.tables new = g.tables new ∪ g.paths old i

/-- Memory ran out when the page `i` was to be shared. -/
structure CopyFailed (top : Nat) (g : View) (s : Ram) (old new i : Nat) (h : View) (t : Ram) : Prop where
  inv : Inv top h t
  kept : Kept g s new h t
  mapped : g.Mapped old i
  leaf : ∀ r v, h.leaf r v =
    if r = old ∧ v < i + 1 ∨ r = new ∧ v < i then share (g.leaf old v) else g.leaf r v
  leak : h.leak = update g.leak (g.page old i) (g.leak (g.page old i) + 1)
  kfail : t.kfail = true
  freelist : t.freelist = []
  tables : h.tables new ⊂ g.tables new ∪ g.paths old (i + 1)

@[simp] theorem share_zero : share 0 = 0 := share_of_not_write (not_has_zero _)

theorem paths_succ_of_not (hm : ¬ g.Mapped old i) : g.paths old (i + 1) = g.paths old i := by
  ext y
  constructor
  · rintro ⟨v, hv, hv', hy⟩
    have hne : v ≠ i := fun he => hm (he ▸ hv')
    exact ⟨v, by omega, hv', hy⟩
  · rintro ⟨v, hv, hv', hy⟩
    exact ⟨v, by omega, hv', hy⟩

theorem paths_succ (hm : g.Mapped old i) : g.paths old (i + 1) = g.paths old i ∪ path i 2 := by
  ext y
  constructor
  · rintro ⟨v, hv, hv', hy⟩
    by_cases he : v = i
    · exact .inr (he ▸ hy)
    · exact .inl ⟨v, by omega, hv', hy⟩
  · rintro (⟨v, hv, hv', hy⟩ | hy)
    · exact ⟨v, by omega, hv', hy⟩
    · exact ⟨i, by omega, hm, hy⟩

theorem Kept.refl (g : View) (s : Ram) (new : Nat) : Kept g s new g s :=
  ⟨fun _ _ => rfl, fun _ => id, rfl, rfl, fun _ _ => rfl, id, rfl, rfl, rfl⟩

theorem Copied.zero (hI : Inv top g s) (old new : Nat) : Copied top g s old new 0 g s where
  inv := hI
  kept := .refl g s new
  leaf r v := by rw [if_neg (by omega)]
  leak := rfl
  tables := by
    have h₀ : g.paths old 0 = ∅ := by
      ext y
      exact iff_of_false (fun ⟨v, hv, _⟩ => Nat.not_lt_zero v hv) id
    rw [h₀, Set.union_empty]

theorem Copied.skip (hc : Copied top g s old new i h t) (h₀ : g.leaf old i = 0) (h₁ : g.leaf new i = 0) :
    Copied top g s old new (i + 1) h t where
  inv := hc.inv
  kept := hc.kept
  leaf r v := by
    rw [hc.leaf]
    by_cases hv : v = i
    · subst hv
      rw [if_neg (by omega), h₀, share_zero]
      split
      · rename_i hr
        rcases hr.2 with rfl | rfl <;> assumption
      · rfl
    · have h₂ : v < i ↔ v < i + 1 := by omega
      simp only [h₂]
  leak := hc.leak
  tables := by
    rw [hc.tables, paths_succ_of_not]
    unfold View.Mapped
    rw [h₀, not_has_zero]
    simp

/-- Sharing the page `i`, up to the reference for the child. -/
theorem Copied.shared_leaf (hc : Copied top g s old new i h t) (hne : old ≠ new) (r v : Nat) :
    (h.shared old i).leaf r v =
      if r = old ∧ v < i + 1 ∨ r = new ∧ v < i then share (g.leaf old v) else g.leaf r v := by
  have hi : h.leaf old i = g.leaf old i := by rw [hc.leaf, if_neg (by omega)]
  show (h.setLeaf old i (share (h.leaf old i))).leaf r v = _
  by_cases he : r = old ∧ v = i
  · obtain ⟨rfl, rfl⟩ := he
    rw [setLeaf_leaf_self, hi, if_pos (.inl ⟨rfl, by omega⟩)]
  · rw [setLeaf_leaf_of_ne (by omega), hc.leaf]
    have h₂ : (v < i ∧ (r = old ∨ r = new)) ↔ (r = old ∧ v < i + 1 ∨ r = new ∧ v < i) := by omega
    simp only [h₂]

theorem Copied.page_eq (hc : Copied top g s old new i h t) : h.leaf old i = g.leaf old i := by
  rw [hc.leaf, if_neg (by omega)]

theorem Kept.quiet (hk : Kept g s new h t) (hq : Quiet h t u) {h' : View} (hrole : h'.role = h.role) :
    Kept g s new h' u where
  role p hp := by rw [hrole]; exact hk.role p hp
  user p hp := hk.user p (by rw [← hrole]; exact hp)
  roots := by
    have h₁ : h'.roots = h.roots := by unfold View.roots; rw [hrole]
    rw [h₁, hk.roots]
  kern := by
    have h₁ : h'.kern = h.kern := by unfold View.kern; rw [hrole]
    rw [h₁, hk.kern]
  mem p hp := by
    have h₁ : h.role p = g.role p := hk.role p (by rcases hp with hp | hp <;> rw [hp] <;> simp)
    rw [hq.mem p (by rw [h₁]; exact hp), hk.mem p hp]
  kfail h₁ := by rw [hq.kfail]; exact hk.kfail h₁
  kend := hq.kend.trans hk.kend
  trampoline := hq.trampoline.trans hk.trampoline
  free := by
    have h₁ : h'.tables new = h.tables new := by unfold View.tables; rw [hrole]
    rw [hq.freelist, h₁, hk.free]

theorem Kept.grow (hk : Kept g s new h t) (hg : Grow new h t f u) (hs : Spent h t new v 2 f u) :
    Kept g s new f u where
  role p hp := by
    have h₁ := hk.role p hp
    rw [hg.role p (by rw [h₁]; exact hp), h₁]
  user p hp := by
    by_cases hfree : h.role p = .free
    · rcases hg.free p hfree with h₁ | ⟨l, k, h₁, -⟩ <;> rw [hp] at h₁ <;> cases h₁
    · exact hk.user p (by rw [← hg.role p hfree]; exact hp)
  roots := hg.roots.trans hk.roots
  kern := hg.kern.trans hk.kern
  mem p hp := by
    have h₁ : h.role p = g.role p := hk.role p (by rcases hp with hp | hp <;> rw [hp] <;> simp)
    rw [hg.mem p (by rw [h₁]; exact hp), hk.mem p hp]
  kfail h₁ := hg.kfail (hk.kfail h₁)
  kend := hg.kend.trans hk.kend
  trampoline := hg.trampoline.trans hk.trampoline
  free := hs.free.trans hk.free

theorem Copied.shared_leak (hc : Copied top g s old new i h t) :
    (h.shared old i).leak = update g.leak (g.page old i) (g.leak (g.page old i) + 1) := by
  have hpg : h.page old i = g.page old i := by unfold View.page; rw [hc.page_eq]
  show update h.leak (h.page old i) (h.leak (h.page old i) + 1) = _
  rw [hc.leak, hpg]

theorem Copied.shared_tables (hc : Copied top g s old new i h t) :
    (h.shared old i).tables new = g.tables new ∪ g.paths old i := hc.tables

/-- There is no memory for the page-table pages of page `i`. -/
theorem Copied.failed (hc : Copied top g s old new i h t) (hne : old ≠ new) (hm : g.Mapped old i)
    (hk : Kept g s new (h.shared old i) w) (hI : Inv top f u) (hg : Grow new (h.shared old i) w f u)
    (hs : Spent (h.shared old i) w new i 2 f u) (hstarved : Starved new i 2 f u) :
    CopyFailed top g s old new i f u where
  inv := hI
  kept := hk.grow hg hs
  mapped := hm
  leaf r v := by
    rw [hg.leaf]
    exact hc.shared_leaf hne r v
  leak := by rw [hg.leak, hc.shared_leak]
  kfail := hstarved.kfail
  freelist := hstarved.freelist
  tables := by
    obtain ⟨y, hy, hny⟩ := hstarved.missing
    rw [paths_succ hm, ← Set.union_assoc]
    refine ⟨?_, fun hsub => hny (hsub (.inr hy))⟩
    rw [← hc.shared_tables]
    exact hs.tables

theorem Copied.succ (hc : Copied top g s old new i h t) (hne : old ≠ new) (hi : i < top) (hm : g.Mapped old i)
    (hun : ¬ (h.shared old i).Mapped new i) (hk : Kept g s new (h.shared old i) w) (hI : Inv top f u)
    (hg : Grow new (h.shared old i) w f u) (hs : Spent (h.shared old i) w new i 2 f u)
    (ha : f.role a = .table new 0 (i / 512)) :
    ∃ h', Copied top g s old new (i + 1) h' (u.setPte a (i % 512) (share (g.leaf old i))) := by
  have hleak : f.leak = update g.leak (g.page old i) (g.leak (g.page old i) + 1) :=
    hg.leak.trans hc.shared_leak
  have hu : f.role (g.page old i) = .user := by
    have h₁ : h.role (h.page old i) = .user :=
      hc.inv.count.user old i hi (by unfold View.Mapped; rw [hc.page_eq]; exact hm)
    have h₂ : h.page old i = g.page old i := by unfold View.page; rw [hc.page_eq]
    rw [h₂] at h₁
    exact (hg.role _ (by show h.role _ ≠ _; rw [h₁]; simp)).trans h₁
  have hI' := hI.mapUser (x := share (g.leaf old i)) (n := g.leak (g.page old i)) ha hi
    (by unfold View.Mapped; rw [hg.leaf]; exact hun) (by rw [share_has_pteV]; exact hm)
    (by rw [pte2pa_share]; exact hu) (by rw [pte2pa_share, hleak]; exact update_self _ _ _)
    (fun hw => by rw [share_has_pteW] at hw; cases hw)
  have hq : Quiet f u (u.setPte a (i % 512) (share (g.leaf old i))) := by
    refine ⟨fun q hq => update_of_ne ?_ _ _, rfl, rfl, rfl, rfl⟩
    rcases hq with hq | hq <;> exact ne_of_role hq ha (by simp)
  refine ⟨_, hI', (hk.grow hg hs).quiet hq rfl, fun r v => ?_, ?_, ?_⟩
  · show (f.setLeaf new i (share (g.leaf old i))).leaf r v = _
    by_cases he : r = new ∧ v = i
    · obtain ⟨rfl, rfl⟩ := he
      rw [setLeaf_leaf_self, if_pos ⟨by omega, .inr rfl⟩]
    · rw [setLeaf_leaf_of_ne (by omega), hg.leaf, hc.shared_leaf hne]
      have h₂ : (r = old ∧ v < i + 1 ∨ r = new ∧ v < i) ↔ (v < i + 1 ∧ (r = old ∨ r = new)) := by omega
      simp only [h₂]
  · have hpg : pte2pa (share (g.leaf old i)) = g.page old i := pte2pa_share _
    show update f.leak (pte2pa (share (g.leaf old i))) (g.leak (g.page old i)) = _
    rw [hpg, hleak, update_idem, update_eq_self]
  · rw [paths_succ hm, ← Set.union_assoc, ← hc.shared_tables]
    exact hs.tables.antisymm (Set.union_subset (hg.subset_tables new) (hI.tree.path_subset ha))

/-- What an iteration of the loop leaves. -/
def CopyStep (top : Nat) (g : View) (s : Ram) (old new i : Nat) (res : Int) (t : Ram) : Prop :=
  res = 0 ∧ (∃ h, Copied top g s old new (i + 1) h t) ∨ res = -1 ∧ ∃ h, CopyFailed top g s old new i h t

theorem Kept.root (hk : Kept g s new h t) (hr : g.role r = .table r 2 0) : h.role r = .table r 2 0 := by
  rw [hk.role _ (by rw [hr]; simp), hr]

theorem copyEntry_spec (hc : Copied top g s old new i h t) (hold : g.role old = .table old 2 0)
    (hnew : g.role new = .table new 2 0) (hne : old ≠ new) (hi : i < top) (hva : i * pgSize < maxVa)
    (hz : g.leaf new i = 0) :
    wp (copyEntry old new (i * pgSize)) (CopyStep top g s old new i) E t := by
  have hI := hc.inv
  have hskip : g.leaf old i = 0 → CopyStep top g s old new i 0 t := fun h₀ => .inl ⟨rfl, h, hc.skip h₀ hz⟩
  simp only [copyEntry, wp_bind]
  refine wp_walk hI.tree (hc.kept.root hold) hva ?_ ?_ <;> rw [mul_pgSize_div, hc.page_eq]
  · intro a ha hpte
    simp only [readPte, wp_bind, wp_get, wp_pure]
    rw [hpte]
    cases hm : (g.leaf old i).has pteV with
    | false =>
        rcases hI.tree.clean old i with h₁ | h₁
        · unfold View.Mapped at h₁
          rw [hc.page_eq, hm] at h₁
          cases h₁
        · rw [hc.page_eq] at h₁
          exact hskip h₁
    | true =>
        simp only [Bool.not_true, Bool.false_eq_true, if_false, wp_bind]
        have hm' : h.Mapped old i := by unfold View.Mapped; rw [hc.page_eq]; exact hm
        have hun : ¬ (h.shared old i).Mapped new i := by
          unfold View.Mapped
          rw [hc.shared_leaf hne, if_neg (by omega), hz, not_has_zero]
          simp
        have hshare := wp_share (E := E) (Q := fun flags u =>
          wp (mappages new (i * pgSize) pgSize (pte2pa (g.leaf old i)) flags) (CopyStep top g s old new i) E u)
          hI ha hi hm' ?_
        · have hpg : h.page old i = pte2pa (g.leaf old i) := by unfold View.page; rw [hc.page_eq]
          rw [hpg, hc.page_eq] at hshare
          exact hshare
        · intro u hI₁ hq
          have hk : Kept g s new (h.shared old i) u := hc.kept.quiet hq rfl
          rw [hc.page_eq]
          refine wp_mappages hI₁ (hk.root hnew) hva hun ?_ ?_
          · intro f u' hI₂ hg hs hstarved
            exact .inr ⟨rfl, f, hc.failed hne hm hk hI₂ hg hs hstarved⟩
          · intro f u' b hI₂ hg hs hb
            have hx : pa2pte (pte2pa (g.leaf old i)) ||| childFlags (g.leaf old i) ||| pteV =
                share (g.leaf old i) := make_childFlags hm
            rw [hx]
            exact .inl ⟨rfl, hc.succ hne hi hm hun hk hI₂ hg hs hb⟩
  · intro h₀
    exact hskip h₀

/-! ## `uvmcopy` -/

/-- How many page-table pages `new` lacks for the pages below `n` that `old` maps. -/
noncomputable def View.lack (g : View) (old new n : Nat) : Nat := (g.paths old n \ g.tables new).ncard

theorem finite_paths (g : View) (old n : Nat) : (g.paths old n).Finite := by
  refine ((Finset.range n ×ˢ Finset.range 2).finite_toSet.image
    fun x : Nat × Nat => (x.2, x.1 / 512 ^ (x.2 + 1))).subset ?_
  rintro ⟨l, k⟩ ⟨v, hv, -, (hl : l < 2), (hk : k = v / 512 ^ (l + 1))⟩
  refine ⟨(v, l), ?_, by rw [hk]⟩
  rw [Finset.mem_coe, Finset.mem_product, Finset.mem_range, Finset.mem_range]
  exact ⟨hv, hl⟩

theorem ncard_tables_union (ht : Tree g s) (old new n : Nat) :
    (g.tables new ∪ g.paths old n).ncard = (g.tables new).ncard + g.lack old new n := by
  unfold View.lack
  rw [← Set.union_sdiff_self, Set.ncard_union_eq Set.disjoint_sdiff_right (ht.finite_tables new)
    ((finite_paths g old n).sdiff)]

/-- `uvmcopy` has failed at page `i`. The child's entries are gone; the reference for page `i` is
left. -/
structure CopyUndone (top : Nat) (g : View) (s : Ram) (old new i : Nat) (h : View) (t : Ram) : Prop where
  inv : Inv top h t
  mapped : g.Mapped old i
  leaf : ∀ r v, h.leaf r v = if r = old ∧ v < i + 1 then share (g.leaf old v) else g.leaf r v
  leak : h.leak = update g.leak (g.page old i) (g.leak (g.page old i) + 1)
  roots : h.roots = g.roots
  kern : h.kern = g.kern
  mem : ∀ r v, v < top → g.Mapped r v → t.mem (g.page r v) = s.mem (g.page r v)
  kfail : t.kfail = true
  kend : t.kend = s.kend
  trampoline : t.trampolinePage = s.trampolinePage
  live : Live g s → Live h t
  short : s.freelist.length < g.lack old new (i + 1)

theorem CopyFailed.short (hf : CopyFailed top g s old new i h t) (ht : Tree g s) :
    s.freelist.length < g.lack old new (i + 1) := by
  have h₁ := hf.kept.free
  have h₂ := Set.ncard_lt_ncard hf.tables ((ht.finite_tables new).union (finite_paths g old (i + 1)))
  rw [hf.freelist, List.length_nil, Nat.zero_add] at h₁
  rw [ncard_tables_union ht, h₁] at h₂
  omega

theorem live_of_maps (hI : Inv top g s) (hJ : Inv top h t) (hrole : ∀ p, h.role p = .user → g.role p = .user)
    (hmaps : ∀ r v, g.Mapped r v → h.Mapped r v ∧ h.page r v = g.page r v) (hleak : ∀ p, g.leak p ≤ h.leak p)
    (hl : Live g s) : Live h t := by
  intro p hp
  have hp' := hrole p hp
  have h₁ := hl p hp'
  rw [hI.count.ref p (managed_of_role hI.tree hp' (by simp)), refs_of_user hp', mapCount_eq_card] at h₁
  rw [hJ.count.ref p (managed_of_role hJ.tree hp (by simp)), refs_of_user hp, mapCount_eq_card]
  have h₂ : (g.maps top p).card ≤ (h.maps top p).card := by
    refine Finset.card_le_card fun x hx => ?_
    unfold View.maps at hx ⊢
    rw [Finset.mem_filter] at hx ⊢
    obtain ⟨hx₁, hm, hpg⟩ := hx
    obtain ⟨hm', hpg'⟩ := hmaps x.1 x.2 hm
    exact ⟨hx₁, hm', hpg'.trans hpg⟩
  have h₃ := hleak p
  omega

theorem share_keeps (hl : h.leaf r v = share (g.leaf r v) ∨ h.leaf r v = g.leaf r v) (hm : g.Mapped r v) :
    h.Mapped r v ∧ h.page r v = g.page r v := by
  unfold View.Mapped View.page at *
  rcases hl with hl | hl <;> rw [hl]
  · exact ⟨by rw [share_has_pteV]; exact hm, pte2pa_share _⟩
  · exact ⟨hm, rfl⟩

theorem not_new_of_mapped (hz : ∀ v, v < i → g.leaf new v = 0) (hm : g.Mapped r v) : ¬ pages new 0 i r v := by
  rintro ⟨rfl, -, hlt⟩
  unfold View.Mapped at hm
  rw [hz v hlt, not_has_zero] at hm
  cases hm

theorem CopyFailed.keeps (hf : CopyFailed top g s old new i h t) (hz : ∀ v, v < i → g.leaf new v = 0)
    (hm : g.Mapped r v) : h.Mapped r v ∧ h.page r v = g.page r v := by
  refine share_keeps ?_ hm
  rw [hf.leaf]
  split
  · rename_i hc
    rcases hc with ⟨rfl, -⟩ | ⟨rfl, hlt⟩
    · exact .inl rfl
    · exact absurd ⟨rfl, Nat.zero_le _, hlt⟩ (not_new_of_mapped hz hm)
  · exact .inr rfl

theorem CopyFailed.undone (hI : Inv top g s) (hf : CopyFailed top g s old new i h t) (hne : old ≠ new)
    (hz : ∀ v, v < i → g.leaf new v = 0) (hu : Unmapped top (pages new 0 i) h t f u) :
    CopyUndone top g s old new i f u where
  inv := hu.inv
  mapped := hf.mapped
  leaf r v := by
    by_cases hv : r = new ∧ v < i
    · obtain ⟨rfl, hv⟩ := hv
      rw [hu.leaf _ _ ⟨rfl, Nat.zero_le _, hv⟩, if_neg (by omega), hz v hv]
    · rw [hu.frame.leaf r v fun hx => hv ⟨hx.1, hx.2.2⟩, hf.leaf]
      have h₁ : (r = old ∧ v < i + 1 ∨ r = new ∧ v < i) ↔ r = old ∧ v < i + 1 := or_iff_left hv
      simp only [h₁]
  leak := hu.leak.trans hf.leak
  roots := hu.roots.trans hf.kept.roots
  kern := hu.kern.trans hf.kept.kern
  mem r v hv hm := by
    have hmem := hf.kept.mem _ (.inl (hI.count.user r v hv hm))
    obtain ⟨hm', hpg⟩ := hf.keeps hz hm
    have h₁ := hu.frame.mem r v (not_new_of_mapped hz hm) hv hm'
    rw [hpg] at h₁
    exact h₁.trans hmem
  kfail := hu.frame.kfail hf.kfail
  kend := hu.frame.kend.trans hf.kept.kend
  trampoline := hu.frame.trampoline.trans hf.kept.trampoline
  live hl := by
    refine hu.apart.live (live_of_maps hI hf.inv hf.kept.user (fun r v => hf.keeps hz) (fun p => ?_) hl)
    rw [hf.leak]
    by_cases hp : p = g.page old i
    · rw [hp, update_self]
      exact Nat.le_succ _
    · rw [update_of_ne hp]
  short := hf.short hI.tree

theorem uvmcopyLoop_spec (hI : Inv top g s) (hc : Copied top g s old new i h t)
    (hold : g.role old = .table old 2 0) (hnew : g.role new = .table new 2 0) (hne : old ≠ new)
    (htop : i + n ≤ top) (hva : (i + n) * pgSize ≤ maxVa) (hz : ∀ v, v < i + n → g.leaf new v = 0) :
    wp (uvmcopyLoop old new n (i * pgSize)) (fun res u =>
      res = 0 ∧ (∃ h, Copied top g s old new (i + n) h u) ∨
      res = -1 ∧ ∃ j h, j < i + n ∧ CopyUndone top g s old new j h u) E t := by
  induction n generalizing i h t with
  | zero => exact .inl ⟨rfl, h, hc⟩
  | succ n ih =>
      have hva' : i * pgSize < maxVa := by
        have h₁ : (i + 1) * pgSize ≤ (i + (n + 1)) * pgSize := Nat.mul_le_mul_right _ (by omega)
        rw [Nat.add_mul, Nat.one_mul] at h₁
        have h₂ : 0 < pgSize := by decide
        omega
      simp only [uvmcopyLoop, wp_bind]
      refine wp_post (copyEntry_spec hc hold hnew hne (by omega) hva' (hz i (by omega))) ?_
      rintro res u (⟨rfl, f, hf⟩ | ⟨rfl, f, hf⟩)
      · simp only [ne_eq, not_true_eq_false, if_false]
        have h₁ : i * pgSize + pgSize = (i + 1) * pgSize := by rw [Nat.add_mul, Nat.one_mul]
        have h₂ : i + (n + 1) = i + 1 + n := by omega
        rw [h₁, h₂]
        rw [h₂] at htop hva hz
        exact ih hf htop hva hz
      · simp only [ne_eq, show ¬ (-1 : Int) = 0 by decide, not_false_eq_true, if_true, wp_bind, mul_pgSize_div]
        have hun : wp (uvmunmap new (0 * pgSize) (i - 0) true) _ E u := uvmunmap_free hf.inv (hf.kept.root hnew)
          (Nat.zero_le _) (Nat.le_of_lt hva') (by omega)
        rw [Nat.zero_mul, Nat.sub_zero] at hun
        refine wp_post hun ?_
        rintro _ w ⟨f', hu⟩
        exact .inr ⟨rfl, i, f', by omega, hf.undone hI hne (fun v hv => hz v (by omega)) hu⟩

theorem uvmcopy_spec (hI : Inv top g s) (hold : g.role old = .table old 2 0)
    (hnew : g.role new = .table new 2 0) (hne : old ≠ new) (htop : npages sz ≤ top) (hmax : sz ≤ maxVa)
    (hz : ∀ v, v < npages sz → g.leaf new v = 0) :
    wp (uvmcopy old new sz) (fun res u =>
      res = 0 ∧ (∃ h, Copied top g s old new (npages sz) h u) ∨
      res = -1 ∧ ∃ j h, j < npages sz ∧ CopyUndone top g s old new j h u) E s := by
  have hva : (0 + npages sz) * pgSize ≤ maxVa := by
    unfold npages
    unfold maxVa at hmax ⊢
    unfold pgSize
    omega
  have hloop := uvmcopyLoop_spec (E := E) (n := npages sz) hI (Copied.zero hI old new) hold hnew hne
    (by omega) hva (by rw [Nat.zero_add]; exact hz)
  rw [Nat.zero_add, Nat.zero_mul] at hloop
  exact hloop

theorem Copied.live (hc : Copied top g s old new i h t) (hI : Inv top g s) (hz : ∀ v, v < i → g.leaf new v = 0)
    (hl : Live g s) : Live h t := by
  refine live_of_maps hI hc.inv hc.kept.user (fun r v hm => share_keeps ?_ hm) (fun p => by rw [hc.leak]) hl
  rw [hc.leaf]
  split
  · rename_i hv
    rcases hv with ⟨hlt, rfl | rfl⟩
    · exact .inl rfl
    · unfold View.Mapped at hm
      rw [hz v hlt, not_has_zero] at hm
      cases hm
  · exact .inr rfl

end Xv6.Vm
