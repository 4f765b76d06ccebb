import Xv6.Vm.Lemmas.Free

/-!
# A page table of its own

A page table that a call sets up shares nothing with what was there before. If the call fails, the
page table goes, and the free pages are those from before.
-/

namespace Xv6.Vm

open Xv6.Lib

variable {top : Nat} {f g h : View} {s t u : Ram} {a p r v n : Nat} {x : Pte} {E : Stop → Ram → Prop}

/-! ## Setting one up -/

/-- There is a new page table `r`, and everything outside it is as before. -/
structure Planted (top : Nat) (g : View) (s : Ram) (r : Nat) (h : View) (t : Ram) : Prop where
  inv : Inv top h t
  frame : Frame top (tree r) g s h t
  free : g.role r = .free
  root : h.role r = .table r 2 0
  kern : h.kern = g.kern
  roots : h.roots = insert r g.roots
  leak : h.leak = g.leak
  apart : Apart {r} g s h t

theorem Allocated.planted (ha : Allocated top g s p t) (hI : Inv top g s) :
    Planted top g s p (g.setRole p (.table p 2 0)) t where
  inv := by
    have h₁ := ha.inv.newRoot (setRole_role_self _ _ _) ha.zero
    rwa [setRole_setRole] at h₁
  frame := by
    have hf := ha.frame hI
    exact ⟨fun _ _ _ => rfl, fun r v _ => hf.mem r v id, hf.kfail, hf.kend, hf.trampoline⟩
  free := ha.role
  root := setRole_role_self _ _ _
  kern := by
    ext q
    show (g.setRole p (.table p 2 0)).role q = .kern ↔ g.role q = .kern
    by_cases hq : q = p
    · subst hq
      rw [setRole_role_self, ha.role]
      exact iff_of_false (by simp) (by simp)
    · rw [setRole_role_of_ne hq]
  roots := by
    ext q
    show (g.setRole p (.table p 2 0)).role q = .table q 2 0 ↔ q = p ∨ g.role q = .table q 2 0
    by_cases hq : q = p
    · subst hq
      rw [setRole_role_self]
      exact iff_of_true rfl (.inl rfl)
    · rw [setRole_role_of_ne hq]
      exact (or_iff_right hq).symm
  leak := rfl
  apart := by
    refine (Apart.refl {p} g s).relabel ha.role (fun q hq => setRole_role_of_ne hq) ?_ (fun q _ hq => ha.mem q hq) ?_ ?_
    · intro r l k hr h₁
      rw [setRole_role_self] at h₁
      cases h₁
      exact hr rfl
    · exact fun q hq hne => ha.ref q (managed_of_role hI.tree hq (by simp)) hne
    · rw [setRole_role_self]
      simp

theorem Planted.grow (hp : Planted top g s r h t) (hI : Inv top f u) (hg : Grow r h t f u) :
    Planted top g s r f u where
  inv := hI
  frame := Frame.trans_none hp.frame (hg.frame hp.inv.count)
  free := hp.free
  root := by rw [hg.role r (by rw [hp.root]; simp), hp.root]
  kern := hg.kern.trans hp.kern
  roots := hg.roots.trans hp.roots
  leak := hg.leak.trans hp.leak
  apart := hp.apart.trans (hg.apart hp.inv.tree)

theorem Planted.setHigh (hp : Planted top g s r h t) (ha : h.role a = .table r 0 (v / 512)) (hv : top ≤ v)
    (hx : x.has pteV = true ∨ x = 0) : Planted top g s r (h.setLeaf r v x) (t.setPte a (v % 512) x) where
  inv := hp.inv.setHigh ha hv hx
  frame := hp.frame.trans ((Frame.setLeaf hp.inv ha _ _ _).mono fun _ _ hx => hx.1)
  free := hp.free
  root := hp.root
  kern := hp.kern
  roots := hp.roots
  leak := hp.leak
  apart := hp.apart.trans ((Apart.setLeaf ha _ _ _).mono (Set.empty_subset _))

theorem Planted.leaf_before (hp : Planted top g s r h t) (hI : Inv top g s) (v : Nat) : g.leaf r v = 0 := by
  refine hI.tree.noLeaf r v fun q hq => ?_
  have h₁ := hI.tree.root _ _ _ _ hq
  rw [hp.free] at h₁
  cases h₁

theorem Planted.undo (hp : Planted top g s r h t) (hI : Inv top g s) (hr : Erased top r h t f u) :
    Same top ∅ g s f u where
  inv := hr.inv
  frame := by
    have hf := hp.frame.trans hr.frame
    refine ⟨fun r' v _ => ?_, fun r' v _ hv hm => ?_, hf.kfail, hf.kend, hf.trampoline⟩
    · by_cases hrr : r' = r
      · rw [hrr, hr.leaf, hp.leaf_before hI]
      · exact hf.leaf r' v hrr
    · refine hf.mem r' v (fun hrr => ?_) hv hm
      unfold View.Mapped at hm
      rw [show r' = r from hrr, hp.leaf_before hI, not_has_zero] at hm
      cases hm
  kern := hr.kern.trans hp.kern
  roots := by
    have hn : r ∉ g.roots := fun (h₁ : g.role r = _) => by rw [hp.free] at h₁; cases h₁
    rw [hr.roots, hp.roots, Set.insert_sdiff_self_of_notMem hn]
  leak := hr.leak.trans hp.leak
  apart := by
    have ha := hp.apart.trans hr.apart
    refine ⟨fun p r' l k _ => ?_, ha.kern, ha.live⟩
    by_cases hrr : r' = r
    · subst hrr
      refine iff_of_false (hr.table p l k) fun h₁ => ?_
      have h₂ := hI.tree.root _ _ _ _ h₁
      rw [hp.free] at h₂
      cases h₂
    · exact ha.table p r' l k hrr

/-! ## `proc_pagetable` -/

/-- What `proc_pagetable` leaves: a page table with entries for the trampoline and the trapframe only. -/
structure NewTable (top : Nat) (g : View) (s : Ram) (tf r : Nat) (h : View) (t : Ram) : Prop where
  planted : Planted top g s r h t
  within : h.Within r 0
  trampoline : h.leaf r (userPages + 1) = pa2pte s.trampolinePage ||| (pteR ||| pteX ||| pteA) ||| pteV
  trapframe : h.leaf r userPages = pa2pte tf ||| (pteR ||| pteW ||| pteA ||| pteD ||| pteMaee) ||| pteV
  length : t.freelist.length + 1 ≤ s.freelist.length ∧ s.freelist.length ≤ t.freelist.length + 5

theorem NewTable.hidesTop {tf : Nat} (hn : NewTable top g s tf r h t) : h.HidesTop r := by
  intro v hv
  have hmake : ∀ p perm, (pa2pte p ||| perm ||| pteV).has pteU = perm.has pteU := fun p perm => by
    rw [has_pteU, has_pteU, BitVec.or_assoc, getLsbD_make (by omega), BitVec.getLsbD_or, getLsbD_pteV]
    simp
  by_cases h₁ : v = userPages
  · rw [h₁, hn.trapframe, hmake]
    decide
  by_cases h₂ : v = userPages + 1
  · rw [h₂, hn.trampoline, hmake]
    decide
  rw [hn.within v (Nat.zero_le v) h₁ h₂]
  exact not_has_zero _

theorem wp_mapHigh {Q : Int → Ram → Prop} {pa : Nat} {perm : Pte} (hp : Planted top g s r h t) (hv : v * pgSize < maxVa)
    (htop : top ≤ v) (hz : h.leaf r v = 0)
    (hfail : ∀ f u, Planted top g s r f u → f.leaf = h.leaf → t.freelist.length ≤ 2 → Q (-1) u)
    (hok : ∀ f u, Planted top g s r f u → f.leaf = (h.setLeaf r v (pa2pte pa ||| perm ||| pteV)).leaf →
      u.freelist.length ≤ t.freelist.length → t.freelist.length ≤ u.freelist.length + 2 → Q 0 u) :
    wp (mappages r (v * pgSize) pgSize pa perm) Q E t := by
  have hm : ¬ h.Mapped r v := by
    unfold View.Mapped
    rw [hz, not_has_zero]
    simp
  refine wp_mappages hp.inv hp.root hv hm ?_ ?_
  · intro f u hI hg hs hk
    have hlen := hs.length hg hp.inv.tree hI.tree
    rw [hk.freelist] at hlen
    exact hfail f u (hp.grow hI hg) hg.leaf hlen.2
  · intro f u a hI hg hs ha
    obtain ⟨h₁, h₂⟩ := hs.length hg hp.inv.tree hI.tree
    refine hok _ _ ((hp.grow hI hg).setHigh ha htop (.inl (make_perm_has_pteV _ _))) ?_ h₁ h₂
    unfold View.setLeaf
    simp only [hg.leaf]

/-- `uvmfree(pagetable, 0)` undoes what there is of the page table. -/
theorem uvmfree_undo (hp : Planted top g s r h t) (hI : Inv top g s) (hz : ∀ v, h.leaf r v = 0) :
    wp (uvmfree r 0) (fun _ u => ∃ f, Same top ∅ g s f u) E t := by
  refine wp_post (uvmfree_spec hp.inv hp.root (Nat.zero_le _) (Nat.zero_le _) fun v _ => hz v) ?_
  rintro _ u ⟨f, hr⟩
  exact ⟨f, hp.undo hI hr⟩

theorem procPagetable_spec {p : Proc} (hI : Inv top g s) (htop : top ≤ userPages) :
    wp (procPagetable p) (fun res t =>
      (res = none ∧ s.freelist.length ≤ 5 ∧ ∃ h, Same top ∅ g s h t) ∨
      ∃ r h, res = some r ∧ NewTable top g s p.trapframe r h t) E s := by
  have hlt : userPages * pgSize < maxVa := Nat.mul_lt_mul_of_pos_right (Nat.lt_add_of_pos_right Nat.two_pos) (by decide)
  have hlt' : (userPages + 1) * pgSize < maxVa := Nat.mul_lt_mul_of_pos_right (Nat.lt_succ_self _) (by decide)
  simp only [procPagetable, uvmcreate, wp_bind]
  refine wp_kalloc hI (fun hnil => ?_) fun r t ha => ?_
  · simp only [wp_pure]
    exact .inl ⟨trivial, by rw [hnil]; exact Nat.zero_le _, g, .outOfMemory hI ∅⟩
  · have hp := ha.planted hI
    have hlen := ha.length
    have hz : ∀ v, (g.setRole r (.table r 2 0)).leaf r v = 0 := hp.leaf_before hI
    simp only [wp_bind, wp_modify, wp_pure, memset_zero ha.zero, wp_get]
    rw [trampoline_eq, trapframe_eq]
    refine wp_mapHigh hp hlt' (by omega) (hz _) ?_ ?_
    · intro f u hp' hl hshort
      rw [if_pos (by decide), wp_bind]
      refine wp_post (uvmfree_undo hp' hI fun v => by rw [hl]; exact hz v) fun _ w hs => ?_
      exact .inl ⟨rfl, by omega, hs⟩
    · intro f u hp' hl h₁ h₂
      have hf : ∀ v, v ≠ userPages + 1 → f.leaf r v = 0 := fun v hv => by
        rw [hl, setLeaf_leaf_of_ne (.inr hv)]
        exact hz v
      rw [if_neg (by decide), wp_bind]
      refine wp_mapHigh hp' hlt htop (hf _ (by omega)) ?_ ?_
      · intro f' u' hp'' hl' hshort
        rw [if_pos (by decide), wp_bind]
        refine wp_post (uvmunmap_keep hp''.inv hp''.root hlt' (by omega)) ?_
        rintro _ w ⟨k, hu⟩
        rw [wp_bind]
        refine wp_post (uvmfree_spec hu.inv (hu.root hp''.root) (Nat.zero_le _) (Nat.zero_le _) fun v _ => ?_) ?_
        · by_cases hv : v = userPages + 1
          · exact hu.leaf r v ⟨rfl, hv⟩
          · rw [hu.frame.leaf r v fun hx => hv hx.2, hl']
            exact hf v hv
        · rintro _ w' ⟨k', hr⟩
          exact .inl ⟨rfl, by omega, k', hp''.undo hI (hu.erased (fun _ _ hx => hx.1) hr)⟩
      · intro f' u' hp'' hl' h₃ h₄
        rw [if_neg (by decide), wp_pure]
        refine .inr ⟨r, f', rfl, hp'', fun v _ hv hv' => ?_, ?_, ?_, by omega, by omega⟩
        · rw [hl', setLeaf_leaf_of_ne (.inr hv)]
          exact hf v hv'
        · rw [hl', setLeaf_leaf_of_ne (.inr (by omega)), hl, setLeaf_leaf_self, ha.trampoline]
        · rw [hl', setLeaf_leaf_self]

/-! ## The free pages -/

theorem mapCount_congr (hl : h.leaf = g.leaf) : h.mapCount top p = g.mapCount top p := by
  unfold View.mapCount
  congr 1
  ext ⟨r, v⟩
  rw [Finset.mem_coe, Finset.mem_coe, mem_maps, mem_maps]
  unfold View.Mapped View.page
  rw [hl]

/-- A page that is free in one view and in the other user memory would have a reference for which
nothing stands. -/
theorem Count.not_user (hc : Count top g s) (hc' : Count top h t) (hm : t.managed p) (hl : h.leaf = g.leaf)
    (hleak : h.leak = g.leak) (hlive : Live h t) (hp : g.role p = .free) : h.role p ≠ .user := by
  intro hu
  have h₁ := hlive p hu
  have h₂ : g.role p ≠ .user := by rw [hp]; simp
  rw [hc'.ref p hm, refs_of_user hu, mapCount_congr hl, mapCount_eq_zero.2 (hc.maps_eq_empty h₂), hleak,
    hc.noLeak p h₂] at h₁
  exact Nat.lt_irrefl _ h₁

theorem role_free_of (hs : Apart ∅ g s h t) (hI : Inv top g s) (hJ : Inv top h t) (hk : h.kern = g.kern)
    (hend : t.kend = s.kend) (hl : h.leaf = g.leaf) (hleak : h.leak = g.leak) (hlive : Live h t)
    (hp : g.role p = .free) : h.role p = .free := by
  have hm : t.managed p := by
    have h₁ := managed_of_role hI.tree hp (by simp)
    unfold Ram.managed at *
    rwa [hend]
  cases hr : h.role p with
  | outside => exact absurd hr ((hJ.tree.managed p).2 hm)
  | free => rfl
  | kern =>
      have h₁ : p ∈ g.kern := by rw [← hk]; exact hr
      have h₂ : g.role p = .kern := h₁
      rw [hp] at h₂
      cases h₂
  | user => exact absurd hr (hI.count.not_user hJ.count hm hl hleak hlive hp)
  | table r l k =>
      have h₁ := (hs.table p r l k (Set.notMem_empty r)).1 hr
      rw [hp] at h₁
      cases h₁

theorem Same.free (hs : Same top ∅ g s h t) (hI : Inv top g s) (hlive : Live g s) (p : Nat) :
    p ∈ t.freelist ↔ p ∈ s.freelist := by
  have hl : h.leaf = g.leaf := funext fun r => funext fun v => hs.frame.leaf r v id
  rw [hs.inv.tree.free, hI.tree.free]
  constructor
  · intro hp
    refine role_free_of (s := t) (t := s) ⟨fun q r l k hr => (hs.apart.table q r l k hr).symm, fun q hq => ?_, fun _ => hlive⟩
      hs.inv hI hs.kern.symm hs.frame.kend.symm hl.symm hs.leak.symm hlive hp
    have h₁ : q ∈ g.kern := by rw [← hs.kern]; exact hq
    exact ⟨h₁, (hs.apart.kern q h₁).2.symm⟩
  · exact role_free_of hs.apart hI hs.inv hs.kern hs.frame.kend hl hs.leak (hs.apart.live hlive)

end Xv6.Vm
