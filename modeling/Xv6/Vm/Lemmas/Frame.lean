import Xv6.Vm.Lemmas.Count

/-!
# What a call leaves alone

`Frame X` says that a call changes no entry outside `X`, and no byte of a page mapped outside it.
The rules for the allocator and for `walk` are stated with it.
-/

namespace Xv6.Vm

open Xv6.Lib Function

variable {top : Nat} {X Y : Nat → Nat → Prop} {f g h : View} {s t u : Ram} {p r v va k l : Nat}

/-- The pages the kernel holds. -/
def View.kern (g : View) : Set Nat := { p | g.role p = .kern }

/-- The roots of the page tables. -/
def View.roots (g : View) : Set Nat := { p | g.role p = .table p 2 0 }

theorem root_of_roots (hr : h.roots = g.roots) (h₀ : g.role r = .table r 2 0) : h.role r = .table r 2 0 := by
  have h₁ : r ∈ h.roots := by rw [hr]; exact h₀
  exact h₁

structure Frame (top : Nat) (X : Nat → Nat → Prop) (g : View) (s : Ram) (h : View) (t : Ram) : Prop where
  leaf : ∀ r v, ¬ X r v → h.leaf r v = g.leaf r v
  mem : ∀ r v, ¬ X r v → v < top → g.Mapped r v → t.mem (g.page r v) = s.mem (g.page r v)
  kfail : s.kfail = true → t.kfail = true
  kend : t.kend = s.kend
  trampoline : t.trampolinePage = s.trampolinePage

def none₂ : Nat → Nat → Prop := fun _ _ => False

def one (r v : Nat) : Nat → Nat → Prop := fun r' v' => r' = r ∧ v' = v

def pages (r lo hi : Nat) : Nat → Nat → Prop := fun r' v' => r' = r ∧ lo ≤ v' ∧ v' < hi

theorem Frame.refl (top : Nat) (g : View) (s : Ram) : Frame top none₂ g s g s where
  leaf _ _ _ := rfl
  mem _ _ _ _ _ := rfl
  kfail := id
  kend := rfl
  trampoline := rfl

theorem Frame.mono (hf : Frame top X g s h t) (hXY : ∀ r v, X r v → Y r v) : Frame top Y g s h t where
  leaf r v hn := hf.leaf r v fun hx => hn (hXY r v hx)
  mem r v hn := hf.mem r v fun hx => hn (hXY r v hx)
  kfail := hf.kfail
  kend := hf.kend
  trampoline := hf.trampoline

theorem Frame.mapped (hf : Frame top X g s h t) (hn : ¬ X r v) : h.Mapped r v ↔ g.Mapped r v := by
  unfold View.Mapped
  rw [hf.leaf r v hn]

theorem Frame.page (hf : Frame top X g s h t) (hn : ¬ X r v) : h.page r v = g.page r v := by
  unfold View.page
  rw [hf.leaf r v hn]

theorem Frame.trans (hf : Frame top X f s g t) (hg : Frame top X g t h u) : Frame top X f s h u where
  leaf r v hn := (hg.leaf r v hn).trans (hf.leaf r v hn)
  mem r v hn hv hm := by
    have h₁ := hg.mem r v hn hv ((hf.mapped hn).2 hm)
    rw [hf.page hn] at h₁
    exact h₁.trans (hf.mem r v hn hv hm)
  kfail hk := hg.kfail (hf.kfail hk)
  kend := hg.kend.trans hf.kend
  trampoline := hg.trampoline.trans hf.trampoline

theorem Frame.none_trans (hf : Frame top none₂ f s g t) (hg : Frame top X g t h u) :
    Frame top X f s h u := (hf.mono fun _ _ hx => hx.elim).trans hg

theorem Frame.trans_none (hf : Frame top X f s g t) (hg : Frame top none₂ g t h u) :
    Frame top X f s h u := hf.trans (hg.mono fun _ _ hx => hx.elim)

/-- A change of roles and of memory that no user page notices. -/
theorem Frame.of_user (hc : Count top g s) (hl : h.leaf = g.leaf)
    (hm : ∀ p, g.role p = .user → t.mem p = s.mem p) (hk : s.kfail = true → t.kfail = true)
    (he : t.kend = s.kend) (ht : t.trampolinePage = s.trampolinePage) : Frame top none₂ g s h t where
  leaf _ _ _ := by rw [hl]
  mem r v _ hv hmap := hm _ (hc.user r v hv hmap)
  kfail := hk
  kend := he
  trampoline := ht

/-! ## What lies outside a tree -/

/-- Every page of user memory has a reference. -/
def Live (g : View) (s : Ram) : Prop := ∀ p, g.role p = .user → 0 < s.ref p

/-- The page tables but for those in `R` have the page-table pages they had, and the pages of the
kernel are still its own, with the same bytes. -/
structure Apart (R : Set Nat) (g : View) (s : Ram) (h : View) (t : Ram) : Prop where
  table : ∀ p r l k, r ∉ R → (h.role p = .table r l k ↔ g.role p = .table r l k)
  kern : ∀ p, g.role p = .kern → h.role p = .kern ∧ t.mem p = s.mem p
  live : Live g s → Live h t

section Apart

variable {R R' : Set Nat}

theorem Apart.refl (R : Set Nat) (g : View) (s : Ram) : Apart R g s g s :=
  ⟨fun _ _ _ _ _ => Iff.rfl, fun _ hp => ⟨hp, rfl⟩, id⟩

theorem Apart.trans (hf : Apart R f s g t) (hg : Apart R g t h u) : Apart R f s h u where
  table p r l k hr := (hg.table p r l k hr).trans (hf.table p r l k hr)
  kern p hp := by
    obtain ⟨h₁, h₂⟩ := hf.kern p hp
    obtain ⟨h₃, h₄⟩ := hg.kern p h₁
    exact ⟨h₃, h₄.trans h₂⟩
  live hl := hg.live (hf.live hl)

theorem Apart.mono (ha : Apart R g s h t) (hR : R ⊆ R') : Apart R' g s h t where
  table p r l k hr := ha.table p r l k fun hm => hr (hR hm)
  kern := ha.kern
  live := ha.live

theorem Apart.relabel (ha : Apart R g s h t) (hp : g.role p = .free) (hrole : ∀ q, q ≠ p → f.role q = h.role q)
    (htab : ∀ r l k, r ∉ R → f.role p ≠ .table r l k)
    (hmem : ∀ q, h.role q = .kern → q ≠ p → u.mem q = t.mem q)
    (href : ∀ q, h.role q = .user → q ≠ p → u.ref q = t.ref q) (hlive : f.role p = .user → 0 < u.ref p) :
    Apart R g s f u where
  table q r l k hr := by
    by_cases hq : q = p
    · subst hq
      exact iff_of_false (htab r l k hr) (by rw [hp]; simp)
    · rw [hrole q hq]
      exact ha.table q r l k hr
  kern q hq := by
    have hne : q ≠ p := ne_of_role hq hp (by simp)
    obtain ⟨h₁, h₂⟩ := ha.kern q hq
    exact ⟨by rw [hrole q hne, h₁], (hmem q h₁ hne).trans h₂⟩
  live hl q hq := by
    by_cases hqp : q = p
    · subst hqp
      exact hlive hq
    · rw [hrole q hqp] at hq
      rw [href q hq hqp]
      exact ha.live hl q hq

/-- Neither roles nor counts change, and only page-table pages and user memory are written. -/
theorem Apart.of_role (R : Set Nat) (hrole : h.role = g.role) (hmem : ∀ q, g.role q = .kern → t.mem q = s.mem q)
    (href : ∀ q, t.ref q = s.ref q) : Apart R g s h t where
  table p r l k _ := by rw [hrole]
  kern p hp := ⟨by rw [hrole, hp], hmem p hp⟩
  live hl p hp := by
    rw [href]
    rw [hrole] at hp
    exact hl p hp

end Apart

/-- A call keeps the invariant; it changes entries in `X` only, with the memory behind them, and the
page tables in `R`. It keeps no page for the kernel. -/
structure Change (top : Nat) (R : Set Nat) (X : Nat → Nat → Prop) (g : View) (s : Ram) (h : View) (t : Ram) : Prop where
  inv : Inv top h t
  frame : Frame top X g s h t
  kern : h.kern = g.kern
  roots : h.roots = g.roots
  leak : h.leak = g.leak
  apart : Apart R g s h t

section Change

variable {R R' : Set Nat}

theorem Change.refl (hI : Inv top g s) (R : Set Nat) (X : Nat → Nat → Prop) : Change top R X g s g s :=
  ⟨hI, (Frame.refl top g s).mono fun _ _ hx => hx.elim, rfl, rfl, rfl, .refl R g s⟩

theorem Change.trans (hf : Change top R X f s g t) (hg : Change top R X g t h u) : Change top R X f s h u where
  inv := hg.inv
  frame := hf.frame.trans hg.frame
  kern := hg.kern.trans hf.kern
  roots := hg.roots.trans hf.roots
  leak := hg.leak.trans hf.leak
  apart := hf.apart.trans hg.apart

theorem Change.mono (hc : Change top R X g s h t) (hR : R ⊆ R') (hX : ∀ r v, X r v → Y r v) : Change top R' Y g s h t :=
  ⟨hc.inv, hc.frame.mono hX, hc.kern, hc.roots, hc.leak, hc.apart.mono hR⟩

theorem Change.root (hc : Change top R X g s h t) (hr : g.role r = .table r 2 0) : h.role r = .table r 2 0 :=
  root_of_roots hc.roots hr

end Change

/-! ## The allocator -/

/-- The page `p` has been taken off the free list. -/
structure Allocated (top : Nat) (g : View) (s : Ram) (p : Nat) (t : Ram) : Prop where
  role : g.role p = .free
  inv : Inv top (g.setRole p .kern) t
  zero : t.mem p = fun _ => 0
  length : s.freelist.length = t.freelist.length + 1
  mem : ∀ q, q ≠ p → t.mem q = s.mem q
  kfail : t.kfail = s.kfail
  kend : t.kend = s.kend
  trampoline : t.trampolinePage = s.trampolinePage
  ref : ∀ q, s.managed q → q ≠ p → t.ref q = s.ref q

theorem managed_of_role {x : Role} (ht : Tree g s) (h : g.role p = x) (hx : x ≠ .outside) : s.managed p :=
  (ht.managed p).1 (by rw [h]; exact hx)

theorem Tree.setRef (ht : Tree g s) (i n : Nat) : Tree g (s.setRef i n) :=
  ht.of_pte rfl rfl fun _ _ _ _ _ _ => rfl

theorem Inv.pop (hI : Inv top g s) {rest : List Nat} (hf : s.freelist = p :: rest) :
    Allocated top g s p (s.pop p rest) := by
  have hrole : g.role p = .free := (hI.tree.free p).1 (by rw [hf]; exact List.mem_cons_self)
  have hnd : p ∉ rest ∧ rest.Nodup := by
    have h₁ := hI.tree.nodup
    rw [hf, List.nodup_cons] at h₁
    exact h₁
  have hmem : ∀ q, q ≠ p → (s.pop p rest).mem q = s.mem q := fun q hq => update_of_ne hq _ _
  have hm := managed_of_role hI.tree hrole (by simp)
  have hother : ∀ q, s.managed q → q ≠ p → (s.pop p rest).ref q = s.ref q := fun q hq hne =>
    ref_setRef_of_ne (s := s.memset p 0) hI.tree.base hm hq hne
  refine ⟨hrole, ⟨?_, ?_⟩, update_self _ _ _, by rw [hf]; rfl, hmem, rfl, rfl, rfl, hother⟩
  · refine hI.tree.relabel (by rw [hrole]; trivial) trivial rfl hnd.2 ?_ ?_
    · intro q
      by_cases hq : q = p
      · subst hq
        rw [setRole_role_self]
        exact iff_of_false hnd.1 (by simp)
      · rw [setRole_role_of_ne hq, ← hI.tree.free q, hf, List.mem_cons]
        exact (or_iff_right hq).symm
    · intro t' r l k i ht'
      exact pte_congr (hmem t' (ne_of_role ht' hrole (by simp)))
  · refine hI.count.relabel rfl (by rw [hrole]; simp) ?_ hother
      fun q hq => (hI.tree.managed q).1 hq
    have h₁ : (s.pop p rest).ref p = 1 := ref_setRef_self (s.memset p 0) p 1
    rw [h₁]
    unfold View.refs
    rw [setRole_role_self]

theorem wp_kalloc {Q : Option Nat → Ram → Prop} {E : Stop → Ram → Prop} (hI : Inv top g s)
    (hnone : s.freelist = [] → Q none s.outOfMemory)
    (hsome : ∀ p t, Allocated top g s p t → Q (some p) t) : wp kalloc Q E s := by
  simp only [kalloc, wp_bind, wp_get]
  cases hf : s.freelist with
  | nil =>
      simp only [wp_bind, wp_set, wp_pure]
      exact hnone hf
  | cons p rest =>
      simp only [wp_bind, wp_set, wp_pure]
      exact hsome p _ (hI.pop hf)

theorem Inv.setKfail (hI : Inv top g s) : Inv top g s.outOfMemory :=
  ⟨hI.tree.of_pte rfl rfl fun _ _ _ _ _ _ => rfl, hI.count.of_ref rfl fun _ => rfl⟩

theorem Frame.setKfail (top : Nat) (g : View) (s : Ram) :
    Frame top none₂ g s g s.outOfMemory where
  leaf _ _ _ := rfl
  mem _ _ _ _ _ := rfl
  kfail _ := rfl
  kend := rfl
  trampoline := rfl

theorem Allocated.frame (ha : Allocated top g s p t) (hI : Inv top g s) :
    Frame top none₂ g s (g.setRole p .kern) t := by
  refine Frame.of_user hI.count rfl ?_ (fun hk => ha.kfail.trans hk) ha.kend ha.trampoline
  intro q hq
  exact ha.mem q (ne_of_role hq ha.role (by simp))

theorem Allocated.apart (ha : Allocated top g s p t) (hI : Inv top g s) (R : Set Nat) :
    Apart R g s (g.setRole p .kern) t := by
  refine (Apart.refl R g s).relabel ha.role (fun q hq => setRole_role_of_ne hq) ?_ (fun q _ hq => ha.mem q hq) ?_ ?_
  · intro r l k _
    rw [setRole_role_self]
    simp
  · intro q hq hne
    exact ha.ref q (managed_of_role hI.tree hq (by simp)) hne
  · rw [setRole_role_self]
    simp

theorem wp_kfree {Q : Unit → Ram → Prop} {E : Stop → Ram → Prop} (hb : kernBase ≤ s.kend)
    (hp : s.managed p)
    (hmore : 1 < s.ref p → Q () (s.setRef (krefIndex p) (s.ref p - 1)))
    (hlast : s.ref p ≤ 1 → Q () ((s.setRef (krefIndex p) 0).push p)) : wp (kfree p) Q E s := by
  obtain ⟨hp₁, hp₂, hp₃⟩ := hp
  have hok : ¬ (p % pgSize ≠ 0 ∨ p < s.kend ∨ physTop ≤ p) := by omega
  have hidx : krefIndex p < krefCount := krefIndex_lt (by omega) hp₃
  simp only [kfree, wp_bind, wp_get, hok, if_false, hidx, if_true]
  by_cases href : 1 < s.krefcount (krefIndex p)
  · simp only [href, if_true, wp_set]
    exact hmore href
  · simp only [href, if_false, wp_set]
    exact hlast (by unfold Ram.ref; omega)

theorem refSet_setRef (hb : kernBase ≤ s.kend) (hp : s.managed p) (n : Nat) :
    RefSet s (s.setRef (krefIndex p) n) p n where
  kend := rfl
  self := ref_setRef_self s p n
  other _ hq hne := ref_setRef_of_ne hb hp hq hne

theorem refSet_push (hb : kernBase ≤ s.kend) (hp : s.managed p) :
    RefSet s ((s.setRef (krefIndex p) 0).push p) p 0 where
  kend := rfl
  self := ref_setRef_self s p 0
  other _ hq hne := ref_setRef_of_ne hb hp hq hne

theorem push_mem_of_ne {q : Nat} (h : q ≠ p) : (s.push p).mem q = s.mem q := update_of_ne h _ _

theorem Tree.push (ht : Tree g s) (hp : (g.role p).Plain) (hne : g.role p ≠ .free) (i n : Nat) :
    Tree (g.setRole p .free) ((s.setRef i n).push p) := by
  have hmem : ∀ q, q ≠ p → ((s.setRef i n).push p).mem q = s.mem q := fun q hq =>
    push_mem_of_ne hq
  refine ht.relabel hp trivial rfl ?_ ?_ ?_
  · exact List.nodup_cons.2 ⟨fun hm => hne ((ht.free p).1 hm), ht.nodup⟩
  · intro q
    show q ∈ p :: s.freelist ↔ _
    rw [List.mem_cons]
    by_cases hq : q = p
    · subst hq
      simp
    · rw [setRole_role_of_ne hq, ← ht.free q]
      exact or_iff_right hq
  · intro t' r l k j ht'
    refine pte_congr (hmem t' fun he => ?_)
    rw [← he, ht'] at hp
    exact hp

theorem wp_kfree_kern {Q : Unit → Ram → Prop} {E : Stop → Ram → Prop} (hI : Inv top g s)
    (hp : g.role p = .kern)
    (hQ : ∀ t, Inv top (g.setRole p .free) t → Frame top none₂ g s (g.setRole p .free) t →
      (∀ q, q ≠ p → t.mem q = s.mem q) → (∀ q, s.managed q → q ≠ p → t.ref q = s.ref q) →
      t.freelist = p :: s.freelist → Q () t) :
    wp (kfree p) Q E s := by
  have hm := managed_of_role hI.tree hp (by simp)
  have href : s.ref p = 1 := by
    rw [hI.count.ref p hm]
    unfold View.refs
    rw [hp]
  refine wp_kfree hI.tree.base hm (fun h₁ => by omega) fun _ =>
    hQ _ ⟨?_, ?_⟩ ?_ (fun _ => push_mem_of_ne) (refSet_push hI.tree.base hm).other rfl
  · exact hI.tree.push (by rw [hp]; trivial) (by rw [hp]; simp) _ _
  · have hs := refSet_push hI.tree.base hm
    refine hI.count.relabel rfl (by rw [hp]; simp) ?_ hs.other fun q hq => (hI.tree.managed q).1 hq
    rw [hs.self]
    unfold View.refs
    rw [setRole_role_self]
  · exact Frame.of_user hI.count rfl (fun q hq => push_mem_of_ne (ne_of_role hq hp (by simp))) id rfl rfl

/-- The view after a leaked reference of the user page `p` has been dropped: one leak less, or the
page free. -/
structure Dropped (top : Nat) (g : View) (s : Ram) (p n : Nat) (h : View) (t : Ram) : Prop where
  inv : Inv top h t
  frame : Frame top none₂ g s h t
  leak : h.leak = update g.leak p n
  role : ∀ q, h.role q = g.role q ∨ q = p ∧ h.role q = .free
  apart : ∀ R, Apart R g s h t

theorem wp_kfree_user {Q : Unit → Ram → Prop} {E : Stop → Ram → Prop} {n : Nat} (hI : Inv top g s)
    (hp : g.role p = .user) (hn : g.leak p = n + 1)
    (hQ : ∀ h t, Dropped top g s p n h t → Q () t) : wp (kfree p) Q E s := by
  have hm := managed_of_role hI.tree hp (by simp)
  have href : s.ref p = g.mapCount top p + (n + 1) := by
    rw [hI.count.ref p hm, refs_of_user hp, hn]
  refine wp_kfree hI.tree.base hm (fun h₁ => hQ (g.setLeak p n) _ ?_) (fun h₁ => ?_)
  · have hs := refSet_setRef hI.tree.base hm (s.ref p - 1)
    refine ⟨⟨(hI.tree.setRef _ _).setLeak _ _, ?_⟩, ?_, rfl, fun q => .inl rfl, fun R => ?_⟩
    · exact hI.count.setRefLeak hI.tree hs hp (by omega) (hI.count.not_write (by omega))
    · exact Frame.of_user hI.count rfl (fun _ _ => rfl) id rfl rfl
    · refine ⟨fun _ _ _ _ _ => Iff.rfl, fun q hq => ⟨hq, rfl⟩, fun hl q hq => ?_⟩
      by_cases hqp : q = p
      · rw [hqp, hs.self]
        omega
      · rw [hs.other q (managed_of_role hI.tree hq (by simp)) hqp]
        exact hl q hq
  · have hz : g.mapCount top p = 0 := by omega
    have hn₀ : n = 0 := by omega
    subst hn₀
    have hs := refSet_push hI.tree.base hm
    refine hQ ((g.setLeak p 0).setRole p .free) _
      ⟨⟨?_, ?_⟩, ⟨fun _ _ _ => rfl, ?_, id, rfl, rfl⟩, rfl, ?_, fun R => ⟨?_, ?_, ?_⟩⟩
    · exact (hI.tree.setLeak p 0).push (by rw [setLeak_role, hp]; trivial) (by rw [setLeak_role, hp]; simp) _ _
    · exact hI.count.free hI.tree hs hp hz
    · intro r v _ hv hmap
      refine push_mem_of_ne fun he => ?_
      have h₂ := hI.tree.mem_maps_of_mapped hv hmap
      rw [he, mapCount_eq_zero.1 hz] at h₂
      exact absurd h₂ (Finset.notMem_empty _)
    · intro q
      by_cases hq : q = p
      · exact .inr ⟨hq, by rw [hq, setRole_role_self]⟩
      · exact .inl (setRole_role_of_ne hq)
    · intro q r l k _
      by_cases hq : q = p
      · subst hq
        rw [setRole_role_self, hp]
        exact iff_of_false (by simp) (by simp)
      · rw [setRole_role_of_ne hq, setLeak_role]
    · intro q hq
      have hne : q ≠ p := ne_of_role hq hp (by simp)
      exact ⟨by rw [setRole_role_of_ne hne]; exact hq, push_mem_of_ne hne⟩
    · intro hl q hq
      by_cases hqp : q = p
      · subst hqp
        rw [setRole_role_self] at hq
        cases hq
      · rw [setRole_role_of_ne hqp, setLeak_role] at hq
        rw [hs.other q (managed_of_role hI.tree hq (by simp)) hqp]
        exact hl q hq

end Xv6.Vm
