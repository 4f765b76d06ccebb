import Xv6.Vm.Image
import Xv6.Vm.Lemmas.Walk

/-!
# Mapping and unmapping a page

The rules for `mappages` on one page and for `uvmunmap` on a range of them.
-/

namespace Xv6.Vm

open Xv6.Lib Function

variable {top : Nat} {f g h : View} {s t u : Ram} {a p r v n lo hi : Nat} {x perm : Pte}
  {E : Stop → Ram → Prop}

/-! ## Writing an entry -/

theorem Inv.mapUser (hI : Inv top g s) (ha : g.role a = .table r 0 (v / 512)) (hv : v < top)
    (hm : ¬ g.Mapped r v) (hx : x.has pteV = true) (hu : g.role (pte2pa x) = .user)
    (hn : g.leak (pte2pa x) = n + 1) (hw : x.has pteW = true → s.ref (pte2pa x) = 1) :
    Inv top ((g.setLeaf r v x).setLeak (pte2pa x) n) (s.setPte a (v % 512) x) := by
  have ht := hI.tree.setLeaf ha (Nat.mod_lt v (by omega)) (.inl hx)
  rw [Nat.div_add_mod] at ht
  have hr := hI.tree.lt_physTop (p := r) (by rw [hI.tree.root _ _ _ _ ha]; simp)
  exact ⟨ht.setLeak _ _, (hI.count.map hr hv hm hx hu hn hw).of_ref rfl fun _ => rfl⟩

theorem Inv.unmapUser (hI : Inv top g s) (ha : g.role a = .table r 0 (v / 512)) (hv : v < top)
    (hm : g.Mapped r v) :
    Inv top ((g.setLeaf r v 0).setLeak (g.page r v) (g.leak (g.page r v) + 1))
      (s.setPte a (v % 512) 0) := by
  have ht := hI.tree.setLeaf ha (Nat.mod_lt v (by omega)) (.inr rfl)
  rw [Nat.div_add_mod] at ht
  exact ⟨ht.setLeak _ _, (hI.count.unmap hI.tree hv hm (not_has_zero _)).of_ref rfl fun _ => rfl⟩

theorem Inv.setHigh (hI : Inv top g s) (ha : g.role a = .table r 0 (v / 512)) (hv : top ≤ v)
    (hx : x.has pteV = true ∨ x = 0) : Inv top (g.setLeaf r v x) (s.setPte a (v % 512) x) := by
  have ht := hI.tree.setLeaf ha (Nat.mod_lt v (by omega)) hx
  rw [Nat.div_add_mod] at ht
  exact ⟨ht, (hI.count.setHigh hv).of_ref rfl fun _ => rfl⟩

theorem Inv.setFlags (hI : Inv top g s) (ha : g.role a = .table r 0 (v / 512)) (hv : v < top)
    (hm : g.Mapped r v) (hx : x.has pteV = true) (hp : pte2pa x = g.page r v)
    (hw : x.has pteW = true → (g.leaf r v).has pteW = true) :
    Inv top (g.setLeaf r v x) (s.setPte a (v % 512) x) := by
  have ht := hI.tree.setLeaf ha (Nat.mod_lt v (by omega)) (.inl hx)
  rw [Nat.div_add_mod] at ht
  exact ⟨ht, (hI.count.setFlags hI.tree hv hm hx hp hw).of_ref rfl fun _ => rfl⟩

theorem make_perm_has_pteV (p : Nat) (perm : Pte) : (pa2pte p ||| perm ||| pteV).has pteV = true := by
  rw [has_pteV, BitVec.getLsbD_or, getLsbD_pteV]
  simp

theorem pte2pa_make_perm (h : IsPage p) (hp : IsPerm perm) : pte2pa (pa2pte p ||| perm ||| pteV) = p := by
  rw [BitVec.or_assoc]
  exact pte2pa_make h (hp.or (by decide))

/-- The view after the kernel's page `p` has been mapped. -/
def View.mapped (g : View) (r v p : Nat) (x : Pte) : View := (g.setRole p .user).setLeaf r v x

theorem Inv.kernToUser (hI : Inv top g s) (hp : g.role p = .kern) :
    Inv top ((g.setRole p .user).setLeak p 1) s := by
  refine ⟨Tree.setLeak ?_ _ _, hI.count.kernToUser hp⟩
  refine hI.tree.relabel (by rw [hp]; trivial) trivial rfl hI.tree.nodup ?_ fun _ _ _ _ _ _ => rfl
  intro q
  rw [hI.tree.free q]
  by_cases hq : q = p
  · subst hq
    rw [setRole_role_self, hp]
    simp
  · rw [setRole_role_of_ne hq]

theorem Inv.mapFresh (hI : Inv top g s) (ha : g.role a = .table r 0 (v / 512)) (hv : v < top)
    (hm : ¬ g.Mapped r v) (hp : g.role p = .kern) (hperm : IsPerm perm) :
    Inv top (g.mapped r v p (pa2pte p ||| perm ||| pteV))
      (s.setPte a (v % 512) (pa2pte p ||| perm ||| pteV)) := by
  have hpg := hI.tree.isPage (p := p) (by rw [hp]; simp)
  have hpa := pte2pa_make_perm hpg hperm
  have hap : a ≠ p := ne_of_role ha hp (by simp)
  have hu : ((g.setRole p .user).setLeak p 1).role p = .user := setRole_role_self _ _ _
  have href : s.ref p = 1 := by
    rw [hI.count.ref p (managed_of_role hI.tree hp (by simp))]
    unfold View.refs
    rw [hp]
  have hI₁ := hI.kernToUser hp
  have hI₂ := hI₁.mapUser (n := 0) (x := pa2pte p ||| perm ||| pteV)
    (by rw [setLeak_role, setRole_role_of_ne hap]; exact ha) hv hm (make_perm_has_pteV _ _)
    (by rw [hpa]; exact hu) (by rw [hpa]; exact setLeak_leak_self _ _ _) (fun _ => by rw [hpa]; exact href)
  have hview : (((g.setRole p .user).setLeak p 1).setLeaf r v (pa2pte p ||| perm ||| pteV)).setLeak p 0 =
      g.mapped r v p (pa2pte p ||| perm ||| pteV) := by
    have h₀ : g.leak p = 0 := hI.count.noLeak p (by rw [hp]; simp)
    unfold View.mapped View.setLeak View.setLeaf View.setRole
    simp only [update_idem]
    rw [← h₀, update_eq_self]
  rw [hpa, hview] at hI₂
  exact hI₂

theorem Inv.kref (hI : Inv top g s) (hp : g.role p = .user)
    (hw : ∀ r v, v < top → g.Mapped r v → g.page r v = p → (g.leaf r v).has pteW = false) :
    Inv top (g.setLeak p (g.leak p + 1)) (s.setRef (krefIndex p) (s.ref p + 1)) := by
  have hm := managed_of_role hI.tree hp (by simp)
  refine ⟨(hI.tree.setRef _ _).setLeak _ _, ?_⟩
  refine hI.count.setRefLeak hI.tree (refSet_setRef hI.tree.base hm _) hp ?_ hw
  rw [hI.count.ref p hm, refs_of_user hp, Nat.add_assoc]

theorem wp_krefpage {Q : Unit → Ram → Prop} (hI : Inv top g s) (hp : g.role p = .user)
    (hQ : Q () (s.setRef (krefIndex p) (s.ref p + 1))) : wp (krefpage p) Q E s := by
  have hm := managed_of_role hI.tree hp (by simp)
  have hidx : ¬ krefCount ≤ krefIndex p :=
    Nat.not_le.2 (krefIndex_lt (Nat.le_trans hI.tree.base hm.2.1) hm.2.2)
  simp only [krefpage, hidx, if_false, wp_modify]
  exact hQ

/-! ## `mappages` -/

theorem mappages_page (hv : v * pgSize < maxVa) (r p : Nat) (perm : Pte) :
    mappages r (v * pgSize) pgSize p perm = mappagesLoop r perm 0 (v * pgSize) p := by
  unfold maxVa at hv
  unfold pgSize at hv
  have h₁ : pgRoundDown (v * pgSize) = v * pgSize := by
    unfold pgRoundDown pgSize
    omega
  have h₂ : pgRoundDown ((v * pgSize + pgSize + (2 ^ 64 - 1)) % 2 ^ 64) = v * pgSize := by
    unfold pgRoundDown pgSize
    omega
  have h₃ : (v * pgSize + (2 ^ 64 - v * pgSize)) % 2 ^ 64 / pgSize = 0 := by
    unfold pgSize
    omega
  simp only [mappages, h₁, h₂, h₃]

theorem mul_pgSize_div (v : Nat) : v * pgSize / pgSize = v := Nat.mul_div_cancel v (by decide)

theorem wp_mappages {Q : Int → Ram → Prop} (hI : Inv top g s) (hr : g.role r = .table r 2 0)
    (hv : v * pgSize < maxVa) (hm : ¬ g.Mapped r v)
    (hfail : ∀ h t, Inv top h t → Grow r g s h t → Spent g s r v 2 h t → Starved r v 2 h t → Q (-1) t)
    (hok : ∀ h t a, Inv top h t → Grow r g s h t → Spent g s r v 2 h t → h.role a = .table r 0 (v / 512) →
      Q 0 (t.setPte a (v % 512) (pa2pte p ||| perm ||| pteV))) :
    wp (mappages r (v * pgSize) pgSize p perm) Q E s := by
  rw [mappages_page hv]
  unfold mappagesLoop
  rw [wp_bind]
  have hw := walk_alloc (E := E) hI hr hv
  rw [mul_pgSize_div] at hw
  refine wp_post hw ?_
  rintro res t ⟨h, hI', hg, hs, ⟨rfl, hk⟩ | ⟨a, rfl, ha⟩⟩
  · exact hfail h t hI' hg hs hk
  · have hpte : t.pte a (v % 512) = g.leaf r v := by
      rw [hI'.tree.leaf _ _ _ _ ha (Nat.mod_lt _ (by omega)), Nat.div_add_mod, hg.leaf]
    have hnv : (t.pte a (v % 512)).has pteV = false := by
      rw [hpte]
      exact Bool.eq_false_iff.2 hm
    simp only [readPte, writePte, wp_bind, wp_get, wp_pure, hnv, Bool.false_eq_true, if_false,
      wp_modify]
    exact hok h t a hI' hg hs ha

/-- What mapping the kernel's page `p` at `v` with `perm` has done. -/
structure MappedFresh (top : Nat) (g : View) (s : Ram) (r v p : Nat) (perm : Pte) (h : View) (t : Ram) :
    Prop where
  inv : Inv top h t
  frame : Frame top (one r v) g s h t
  leaf : h.leaf r v = pa2pte p ||| perm ||| pteV
  kern : h.kern = g.kern \ {p}
  roots : h.roots = g.roots
  leak : h.leak = g.leak
  mem : t.mem p = s.mem p
  ref : ∀ q, g.role q ≠ .free → s.managed q → t.ref q = s.ref q
  -- seen from before the page was taken
  apart : ∀ f u, f.role p = .free → Apart {r} f u g s → Apart {r} f u h t
  length : t.freelist.length ≤ s.freelist.length ∧ s.freelist.length ≤ t.freelist.length + 2
  tables : h.tables r = g.tables r ∪ path v 2
  spent : t.freelist.length + (h.tables r).ncard = s.freelist.length + (g.tables r).ncard

theorem mapped_kern (g : View) (r v p : Nat) (x : Pte) : (g.mapped r v p x).kern = g.kern \ {p} := by
  ext q
  show (g.setRole p .user).role q = .kern ↔ g.role q = .kern ∧ q ≠ p
  by_cases hq : q = p
  · subst hq
    rw [setRole_role_self]
    exact iff_of_false (by simp) fun h => h.2 rfl
  · rw [setRole_role_of_ne hq]
    exact (and_iff_left hq).symm

theorem mapped_roots (hp : g.role p = .kern) (r v : Nat) (x : Pte) :
    (g.mapped r v p x).roots = g.roots := by
  ext q
  show (g.setRole p .user).role q = .table q 2 0 ↔ g.role q = .table q 2 0
  by_cases hq : q = p
  · subst hq
    rw [setRole_role_self, hp]
    exact iff_of_false (by simp) (by simp)
  · rw [setRole_role_of_ne hq]

theorem mappages_fresh {Q : Int → Ram → Prop} (hI : Inv top g s) (hr : g.role r = .table r 2 0)
    (hva : v * pgSize < maxVa) (hv : v < top) (hm : ¬ g.Mapped r v) (hp : g.role p = .kern)
    (hperm : IsPerm perm)
    (hfail : ∀ h t, Inv top h t → Grow r g s h t → t.kfail = true → s.freelist.length ≤ 2 →
      s.freelist.length + (g.tables r).ncard < (g.tables r ∪ path v 2).ncard → Q (-1) t)
    (hok : ∀ h t, MappedFresh top g s r v p perm h t → Q 0 t) :
    wp (mappages r (v * pgSize) pgSize p perm) Q E s := by
  refine wp_mappages hI hr hva hm (fun h t hI' hg hs hk => ?_) fun h t a hI' hg hs ha => ?_
  · have hlen := hs.length hg hI.tree hI'.tree
    rw [hk.freelist] at hlen
    exact hfail h t hI' hg hk.kfail hlen.2 (hs.short hk hI.tree)
  have hp' : h.role p = .kern := by rw [hg.role p (by rw [hp]; simp), hp]
  have hm' : ¬ h.Mapped r v := by unfold View.Mapped; rw [hg.leaf]; exact hm
  have htables : (h.mapped r v p (pa2pte p ||| perm ||| pteV)).tables r = h.tables r :=
    tables_setRole (by rw [hp']; simp) (by simp) r
  refine hok (h.mapped r v p (pa2pte p ||| perm ||| pteV)) _
    ⟨hI'.mapFresh ha hv hm' hp' hperm, ?_, setLeaf_leaf_self _ _ _ _, ?_, ?_, hg.leak, ?_, hg.ref, ?_,
      hs.length hg hI.tree hI'.tree, ?_, ?_⟩
  · refine ((hg.frame hI.count).mono fun _ _ hx => hx.elim).trans ?_
    refine ⟨fun r' v' hn => setLeaf_leaf_of_ne (by unfold one at hn; omega), ?_, id, rfl, rfl⟩
    intro r' v' _ hv' hmap
    rw [setPte_mem, update_of_ne]
    exact ne_of_role (hI'.count.user r' v' hv' hmap) ha (by simp)
  · rw [mapped_kern, hg.kern]
  · rw [mapped_roots hp', hg.roots]
  · rw [setPte_mem, update_of_ne (ne_of_role hp' ha (by simp))]
    exact hg.mem p (.inr hp)
  · intro f u hfree hap
    refine (hap.trans (hg.apart hI.tree)).relabel hfree (fun q hq => setRole_role_of_ne hq) ?_ ?_ (fun _ _ _ => rfl) ?_
    · intro r' l k _ hx
      have hu : (h.mapped r v p (pa2pte p ||| perm ||| pteV)).role p = .user := setRole_role_self _ _ _
      rw [hu] at hx
      cases hx
    · intro q hq _
      rw [setPte_mem, update_of_ne (ne_of_role hq ha (by simp))]
    · intro _
      show 0 < t.ref p
      rw [hI'.count.ref p (managed_of_role hI'.tree hp' (by simp))]
      unfold View.refs
      rw [hp']
      exact Nat.one_pos
  · rw [htables]
    exact hs.tables.antisymm (Set.union_subset (hg.subset_tables r) (hI'.tree.path_subset ha))
  · rw [htables]
    exact hs.free

/-! ## `uvmunmap` -/

/-- What a call that only takes entries away from `X` has done. -/
structure Unmapped (top : Nat) (X : Nat → Nat → Prop) (g : View) (s : Ram) (h : View) (t : Ram) : Prop
    extends Change top ∅ X g s h t where
  leaf : ∀ r v, X r v → h.leaf r v = 0

theorem setPte_push (s : Ram) (i n : Nat) (h : a ≠ p) (j : Nat) (x : Pte) :
    ((s.setRef i n).push p).setPte a j x = ((s.setPte a j x).setRef i n).push p := by
  have h₁ : ((s.setRef i n).push p).mem a = s.mem a := push_mem_of_ne h
  unfold Ram.setPte
  rw [h₁]
  unfold Ram.push Ram.memset Ram.setRef
  simp only [update_comm h]

/-- An entry is cleared after its page has been given back, as if before. -/
theorem wp_kfree_writePte {Q : Unit → Ram → Prop} (hb : kernBase ≤ s.kend) (hp : s.managed p) (h : a ≠ p)
    (i : Nat) (x : Pte) (hQ : wp (kfree p) Q E (s.setPte a i x)) :
    wp (do kfree p; writePte (a, i) x) Q E s := by
  simp only [writePte, wp_bind, wp_modify]
  have hok : ¬ (p % pgSize ≠ 0 ∨ p < s.kend ∨ physTop ≤ p) := by
    obtain ⟨h₁, h₂, h₃⟩ := hp
    omega
  have hidx : krefIndex p < krefCount := krefIndex_lt (by have := hp.2.1; omega) hp.2.2
  have hok' : ¬ (p % pgSize ≠ 0 ∨ p < (s.setPte a i x).kend ∨ physTop ≤ p) := hok
  simp only [kfree, wp_bind, wp_get, hok', if_false, hidx, if_true] at hQ
  simp only [kfree, wp_bind, wp_get, hok, if_false, hidx, if_true]
  by_cases href : 1 < s.krefcount (krefIndex p)
  · have href' : 1 < (s.setPte a i x).krefcount (krefIndex p) := href
    simp only [href', if_true, wp_set] at hQ
    simp only [href, if_true, wp_set]
    exact hQ
  · have href' : ¬ 1 < (s.setPte a i x).krefcount (krefIndex p) := href
    simp only [href', if_false, wp_set] at hQ
    simp only [href, if_false, wp_set]
    rw [setPte_push _ _ _ h]
    exact hQ

theorem Dropped.kern (hd : Dropped top g s p n h t) (hp : g.role p = .user) : h.kern = g.kern := by
  ext q
  show h.role q = .kern ↔ g.role q = .kern
  rcases hd.role q with h₁ | ⟨rfl, h₁⟩
  · rw [h₁]
  · rw [h₁, hp]
    exact iff_of_false (by simp) (by simp)

theorem Dropped.roots (hd : Dropped top g s p n h t) (hp : g.role p = .user) : h.roots = g.roots := by
  ext q
  show h.role q = .table q 2 0 ↔ g.role q = .table q 2 0
  rcases hd.role q with h₁ | ⟨rfl, h₁⟩
  · rw [h₁]
  · rw [h₁, hp]
    exact iff_of_false (by simp) (by simp)

theorem Frame.setLeaf (hI : Inv top g s) (ha : g.role a = .table r 0 (v / 512)) (i : Nat) (x y : Pte) :
    Frame top (one r v) g s (g.setLeaf r v x) (s.setPte a i y) where
  leaf r' v' hn := setLeaf_leaf_of_ne (by unfold one at hn; omega)
  mem r' v' _ hv' hmap := by
    rw [setPte_mem, update_of_ne]
    exact ne_of_role (hI.count.user r' v' hv' hmap) ha (by simp)
  kfail := id
  kend := rfl
  trampoline := rfl

theorem Apart.setLeaf (ha : g.role a = .table r 0 (v / 512)) (i : Nat) (x y : Pte) :
    Apart ∅ g s (g.setLeaf r v x) (s.setPte a i y) := by
  refine .of_role ∅ rfl (fun q hq => ?_) fun _ => rfl
  rw [setPte_mem, update_of_ne (ne_of_role hq ha (by simp))]

theorem Frame.of_setLeak {X : Nat → Nat → Prop} (hf : Frame top X (g.setLeak p n) s h t) :
    Frame top X g s h t := ⟨hf.leaf, hf.mem, hf.kfail, hf.kend, hf.trampoline⟩

theorem Apart.of_setLeak {R : Set Nat} (ha : Apart R (g.setLeak p n) s h t) : Apart R g s h t :=
  ⟨ha.table, ha.kern, ha.live⟩

theorem unmapPage_free (hI : Inv top g s) (hr : g.role r = .table r 2 0) (hva : v * pgSize < maxVa)
    (hv : v < top) :
    wp (unmapPage r (v * pgSize) true) (fun _ t => ∃ h, Unmapped top (one r v) g s h t) E s := by
  have hsame : g.leaf r v = 0 → ∃ h, Unmapped top (one r v) g s h s := fun h₀ =>
    ⟨g, .refl hI ∅ _, by rintro r' v' ⟨rfl, rfl⟩; exact h₀⟩
  simp only [unmapPage, wp_bind]
  refine wp_walk hI.tree hr hva ?_ ?_ <;> rw [mul_pgSize_div]
  · intro a ha hpte
    simp only [readPte, wp_bind, wp_get, wp_pure]
    rw [hpte]
    by_cases hm : g.Mapped r v
    · have hu := hI.count.user r v hv hm
      have hmg := managed_of_role hI.tree hu (by simp)
      have hrange : kernBase ≤ pte2pa (g.leaf r v) ∧ pte2pa (g.leaf r v) < physTop :=
        ⟨Nat.le_trans hI.tree.base hmg.2.1, hmg.2.2⟩
      have hm' : (g.leaf r v).has pteV = true := hm
      simp only [hm', Bool.not_true, Bool.false_eq_true, if_false, hrange, and_self, if_true]
      refine wp_kfree_writePte hI.tree.base hmg (ne_of_role ha hu (by simp)) _ _ ?_
      have hI₁ := hI.unmapUser ha hv hm
      refine wp_kfree_user hI₁ (p := g.page r v) hu (setLeak_leak_self _ _ _) fun h t hd => ?_
      refine ⟨h, ⟨hd.inv, ?_, hd.kern hu, hd.roots hu, ?_, ?_⟩, ?_⟩
      · exact Frame.trans_none (Frame.setLeaf hI ha _ _ _) hd.frame.of_setLeak
      · rw [hd.leak]
        unfold View.setLeak View.setLeaf
        simp only [update_idem, update_eq_self]
      · exact (Apart.setLeaf ha _ 0 0).trans (hd.apart ∅).of_setLeak
      · rintro r' v' ⟨rfl, rfl⟩
        rw [hd.frame.leaf _ _ id]
        exact setLeaf_leaf_self _ _ _ _
    · have hm' : (g.leaf r v).has pteV = false := Bool.eq_false_iff.2 hm
      simp only [hm', Bool.not_false, if_true, wp_pure]
      exact hsame ((hI.tree.clean r v).resolve_left hm)
  · intro h₀
    simp only [wp_pure]
    exact hsame h₀

/-- Without `do_free` the page stays with whoever else holds it. -/
theorem unmapPage_keep (hI : Inv top g s) (hr : g.role r = .table r 2 0) (hva : v * pgSize < maxVa)
    (hv : top ≤ v) :
    wp (unmapPage r (v * pgSize) false) (fun _ t => ∃ h, Unmapped top (one r v) g s h t) E s := by
  have hsame : g.leaf r v = 0 → ∃ h, Unmapped top (one r v) g s h s := fun h₀ =>
    ⟨g, .refl hI ∅ _, by rintro r' v' ⟨rfl, rfl⟩; exact h₀⟩
  simp only [unmapPage, wp_bind]
  refine wp_walk hI.tree hr hva ?_ ?_ <;> rw [mul_pgSize_div]
  · intro a ha hpte
    simp only [readPte, wp_bind, wp_get, wp_pure]
    rw [hpte]
    cases hm : (g.leaf r v).has pteV with
    | true =>
        simp only [Bool.not_true, Bool.false_eq_true, if_false, false_and, writePte, wp_modify]
        refine ⟨g.setLeaf r v 0, ⟨hI.setHigh ha hv (.inr rfl), Frame.setLeaf hI ha _ _ _, rfl, rfl, rfl,
          Apart.setLeaf ha _ _ _⟩, ?_⟩
        rintro r' v' ⟨rfl, rfl⟩
        exact setLeaf_leaf_self _ _ _ _
    | false =>
        simp only [Bool.not_false, if_true, wp_pure]
        exact hsame ((hI.tree.clean r v).resolve_left (by unfold View.Mapped; rw [hm]; simp))
  · intro h₀
    simp only [wp_pure]
    exact hsame h₀

theorem Unmapped.refl (hI : Inv top g s) (r lo : Nat) : Unmapped top (pages r lo lo) g s g s :=
  ⟨.refl hI ∅ _, fun _ _ hx => absurd hx.2.2 (by have := hx.2.1; omega)⟩

theorem Unmapped.mono {X Y : Nat → Nat → Prop} (hu : Unmapped top X g s h t) (hXY : ∀ r v, X r v ↔ Y r v) :
    Unmapped top Y g s h t :=
  ⟨hu.toChange.mono (Set.Subset.refl _) fun r v => (hXY r v).1, fun r v hy => hu.leaf r v ((hXY r v).2 hy)⟩

theorem Unmapped.trans {X Y : Nat → Nat → Prop} (hf : Unmapped top X f s g t) (hg : Unmapped top Y g t h u) :
    Unmapped top (fun r v => X r v ∨ Y r v) f s h u where
  toChange := (hf.toChange.mono (Set.Subset.refl _) fun _ _ => .inl).trans
    (hg.toChange.mono (Set.Subset.refl _) fun _ _ => .inr)
  leaf r v hx := by
    by_cases hy : Y r v
    · exact hg.leaf r v hy
    · rw [hg.frame.leaf r v hy]
      exact hf.leaf r v (hx.resolve_right hy)

/-- The pages from `lo` to `hi` are unmapped and their references dropped. -/
theorem uvmunmap_free (hI : Inv top g s) (hr : g.role r = .table r 2 0) (hlo : lo ≤ hi)
    (hva : hi * pgSize ≤ maxVa) (hhi : hi ≤ top) :
    wp (uvmunmap r (lo * pgSize) (hi - lo) true) (fun _ t => ∃ h, Unmapped top (pages r lo hi) g s h t)
      E s := by
  have hmod : ¬ lo * pgSize % pgSize ≠ 0 := by rw [Nat.mul_mod_left]; simp
  have hn : ((lo * pgSize + (hi - lo) * pgSize) % 2 ^ 64 - lo * pgSize) / pgSize = hi - lo := by
    unfold maxVa at hva
    unfold pgSize at *
    omega
  simp only [uvmunmap, hmod, if_false, hn]
  have hloop := wp_forN (E := E) (f := fun i => unmapPage r (lo * pgSize + i * pgSize) true)
    (fun i t => ∃ h, Unmapped top (pages r lo (lo + i)) g s h t) (hi - lo) 0 (s := s) ?_
    ⟨g, .refl hI r lo⟩
  · refine wp_post hloop ?_
    rintro _ t ⟨h, hu⟩
    rw [Nat.zero_add, Nat.add_sub_cancel' hlo] at hu
    exact ⟨h, hu⟩
  · rintro i t _ hi' ⟨h, hu⟩
    rw [← Nat.add_mul]
    have hva' : (lo + i) * pgSize < maxVa := by
      refine Nat.lt_of_lt_of_le ?_ hva
      exact Nat.mul_lt_mul_of_pos_right (by omega) (by decide)
    refine wp_post (unmapPage_free hu.inv (hu.root hr) hva' (by omega)) ?_
    rintro _ u ⟨h', hu'⟩
    refine ⟨h', (hu.trans hu').mono fun r' v' => ?_⟩
    constructor
    · rintro (⟨h₁, h₂, h₃⟩ | ⟨h₁, h₂⟩) <;> exact ⟨h₁, by omega, by omega⟩
    · rintro ⟨h₁, h₂, h₃⟩
      by_cases hc : v' = lo + i
      · exact .inr ⟨h₁, hc⟩
      · exact .inl ⟨h₁, h₂, by omega⟩

theorem uvmunmap_keep (hI : Inv top g s) (hr : g.role r = .table r 2 0) (hva : v * pgSize < maxVa)
    (hv : top ≤ v) :
    wp (uvmunmap r (v * pgSize) 1 false) (fun _ t => ∃ h, Unmapped top (one r v) g s h t) E s := by
  have hmod : ¬ v * pgSize % pgSize ≠ 0 := by rw [Nat.mul_mod_left]; simp
  have hn : ((v * pgSize + 1 * pgSize) % 2 ^ 64 - v * pgSize) / pgSize = 1 := by
    unfold maxVa at hva
    unfold pgSize at *
    omega
  simp only [uvmunmap, hmod, if_false, hn, forN, wp_bind, wp_pure, Nat.zero_mul, Nat.add_zero]
  exact unmapPage_keep hI hr hva hv

/-! ## `uvmdealloc` -/

theorem pgRoundUp_eq {sz : Nat} (h : sz ≤ maxVa) : pgRoundUp sz = npages sz * pgSize := by
  unfold pgRoundUp pgRoundDown npages
  unfold maxVa at h
  unfold pgSize
  omega

theorem npages_le {a b : Nat} (h : a ≤ b) : npages a ≤ npages b :=
  Nat.div_le_div_right (Nat.add_le_add_right h _)

theorem npages_mul (v : Nat) : npages (v * pgSize) = v := by
  unfold npages pgSize
  omega

theorem npages_le_iff {sz : Nat} : npages sz ≤ v ↔ sz ≤ v * pgSize := by
  unfold npages pgSize
  omega

/-- Shrinking from `oldsz` to `newsz`. -/
theorem uvmdealloc_spec {oldsz newsz : Nat} (hI : Inv top g s) (hr : g.role r = .table r 2 0)
    (hle : newsz ≤ oldsz) (hmax : oldsz ≤ maxVa) (htop : npages oldsz ≤ top) :
    wp (uvmdealloc r oldsz newsz)
      (fun n t => n = newsz ∧ ∃ h, Unmapped top (pages r (npages newsz) (npages oldsz)) g s h t) E s := by
  have hpg := npages_le hle
  have hold := pgRoundUp_eq hmax
  have hnew := pgRoundUp_eq (Nat.le_trans hle hmax)
  have hbnd : npages oldsz ≤ 67108864 := by
    rw [npages_le_iff]
    exact hmax
  unfold uvmdealloc
  by_cases heq : oldsz ≤ newsz
  · have : oldsz = newsz := by omega
    subst this
    rw [if_pos heq, wp_pure]
    exact ⟨rfl, g, .refl hI r _⟩
  · rw [if_neg heq]
    by_cases hlt : npages newsz < npages oldsz
    · have hlt' : pgRoundUp newsz < pgRoundUp oldsz := by
        rw [hold, hnew]
        exact Nat.mul_lt_mul_of_pos_right hlt (by decide)
      have hn : throughInt ((pgRoundUp oldsz - pgRoundUp newsz) / pgSize) =
          npages oldsz - npages newsz := by
        rw [hold, hnew, ← Nat.sub_mul, mul_pgSize_div]
        unfold throughInt
        rw [if_pos (by omega)]
        omega
      simp only [hlt', if_true, hn]
      rw [hnew, wp_bind]
      refine wp_post (uvmunmap_free hI hr hpg ?_ htop) ?_
      · have h₁ : (67108864 : Nat) * pgSize = maxVa := rfl
        rw [← h₁]
        exact Nat.mul_le_mul_right _ hbnd
      · rintro _ t ⟨h, hu⟩
        rw [wp_pure]
        exact ⟨rfl, h, hu⟩
    · have hlt' : ¬ pgRoundUp newsz < pgRoundUp oldsz := by
        rw [hold, hnew]
        exact Nat.not_lt.2 (Nat.mul_le_mul_right _ (by omega))
      have he : npages oldsz = npages newsz := by omega
      simp only [hlt', if_false]
      refine ⟨rfl, g, ?_⟩
      rw [he]
      exact .refl hI r _

end Xv6.Vm
