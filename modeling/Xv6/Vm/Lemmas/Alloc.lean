import Mathlib.Order.Interval.Finset.Nat
import Xv6.Vm.Lemmas.Map

/-!
# Adding pages to a process

A new page is taken from the allocator, zeroed and mapped; where that fails, the page goes back.
`uvmalloc` does so for a range of pages and takes all of them back where one fails.
-/

namespace Xv6.Vm

open Xv6.Lib

variable {top : Nat} {f g h : View} {s t u w : Ram} {a p q r v i n lo hi oldsz newsz : Nat} {x perm xperm : Pte}
  {E : Stop → Ram → Prop}

/-! ## A new page -/

/-- No entry and no page in use has changed, but for page-table pages of the roots in `R`. -/
abbrev Same (top : Nat) (R : Set Nat) : View → Ram → View → Ram → Prop := Change top R none₂

theorem Change.outOfMemory (hI : Inv top g s) (R : Set Nat) : Same top R g s g s.outOfMemory :=
  ⟨hI.setKfail, .setKfail top g s, rfl, rfl, rfl, .of_role R rfl (fun _ _ => rfl) fun _ => rfl⟩

/-- Entries that were not there are taken away again. -/
theorem Frame.undo {X : Nat → Nat → Prop} (hf : Frame top X g s h t) (hu : Unmapped top X h t f u)
    (hX : ∀ r v, X r v → g.leaf r v = 0) : Frame top none₂ g s f u where
  leaf r v _ := by
    by_cases hx : X r v
    · rw [hu.leaf r v hx, hX r v hx]
    · rw [hu.frame.leaf r v hx, hf.leaf r v hx]
  mem r v _ hv hm := by
    have hx : ¬ X r v := fun hx => by
      unfold View.Mapped at hm
      rw [hX r v hx, not_has_zero] at hm
      cases hm
    have h₁ := hu.frame.mem r v hx hv ((hf.mapped hx).2 hm)
    rw [hf.page hx] at h₁
    exact h₁.trans (hf.mem r v hx hv hm)
  kfail hk := hu.frame.kfail (hf.kfail hk)
  kend := hu.frame.kend.trans hf.kend
  trampoline := hu.frame.trampoline.trans hf.trampoline

/-- The new page `p` has been mapped at `v`. -/
structure PageAdded (top : Nat) (g : View) (s : Ram) (r v p : Nat) (perm : Pte) (h : View) (t : Ram) : Prop
    extends Change top {r} (one r v) g s h t where
  page : IsPage p
  leaf : h.leaf r v = pa2pte p ||| perm ||| pteV
  zero : t.mem p = fun _ => 0
  own : t.ref p = 1
  ref : ∀ q, g.role q = .user → t.ref q = s.ref q
  length : t.freelist.length + 1 ≤ s.freelist.length ∧ s.freelist.length ≤ t.freelist.length + 3
  tables : h.tables r = g.tables r ∪ path v 2
  spent : t.freelist.length + 1 + (h.tables r).ncard = s.freelist.length + (g.tables r).ncard

theorem setRole_kern (hp : g.role p = .free) : (g.setRole p .kern).kern \ {p} = g.kern := by
  ext q
  show (g.setRole p .kern).role q = .kern ∧ q ≠ p ↔ g.role q = .kern
  by_cases hq : q = p
  · subst hq
    rw [hp]
    exact iff_of_false (fun h => h.2 rfl) (by simp)
  · rw [setRole_role_of_ne hq]
    exact and_iff_left hq

theorem setRole_roots (hp : ∀ r l k, g.role p ≠ .table r l k) {y : Role} (hy : ∀ r l k, y ≠ .table r l k) :
    (g.setRole p y).roots = g.roots := by
  ext q
  show (g.setRole p y).role q = .table q 2 0 ↔ g.role q = .table q 2 0
  by_cases hq : q = p
  · subst hq
    rw [setRole_role_self]
    exact iff_of_false (hy _ _ _) (hp _ _ _)
  · rw [setRole_role_of_ne hq]

/-- A page that the allocator has just given out and that nothing maps yet. -/
structure Holding (top : Nat) (R : Set Nat) (g : View) (s : Ram) (p : Nat) (h : View) (t : Ram) : Prop where
  inv : Inv top h t
  frame : Frame top none₂ g s h t
  free : g.role p = .free
  role : h.role p = .kern
  kern : h.kern \ {p} = g.kern
  roots : h.roots = g.roots
  leak : h.leak = g.leak
  apart : Apart R g s h t

theorem Allocated.holding (ha : Allocated top g s p t) (hI : Inv top g s) (R : Set Nat) :
    Holding top R g s p (g.setRole p .kern) t where
  inv := ha.inv
  frame := ha.frame hI
  free := ha.role
  apart := ha.apart hI R
  role := setRole_role_self _ _ _
  kern := setRole_kern ha.role
  roots := setRole_roots (by rw [ha.role]; simp) (by simp)
  leak := rfl

theorem Holding.grow (hh : Holding top {r} g s p h t) (hI : Inv top f u) (hg : Grow r h t f u) :
    Holding top {r} g s p f u where
  inv := hI
  frame := hh.frame.trans (hg.frame hh.inv.count)
  free := hh.free
  apart := hh.apart.trans (hg.apart hh.inv.tree)
  role := by rw [hg.role p (by rw [hh.role]; simp), hh.role]
  kern := by rw [hg.kern, hh.kern]
  roots := hg.roots.trans hh.roots
  leak := hg.leak.trans hh.leak

theorem wp_kfree_holding {R : Set Nat} {Q : Unit → Ram → Prop} (hh : Holding top R g s p h t)
    (hQ : ∀ f u, Same top R g s f u → (t.kfail = true → u.kfail = true) → Q () u) : wp (kfree p) Q E t := by
  refine wp_kfree_kern hh.inv hh.role fun u hI hf hmem href _ => hQ (h.setRole p .free) u ?_ hf.kfail
  refine ⟨hI, hh.frame.trans hf, ?_, ?_, hh.leak, ?_⟩
  · rw [← hh.kern]
    ext q
    show (h.setRole p .free).role q = .kern ↔ h.role q = .kern ∧ q ≠ p
    by_cases hq : q = p
    · subst hq
      rw [setRole_role_self]
      exact iff_of_false (by simp) fun h₁ => h₁.2 rfl
    · rw [setRole_role_of_ne hq]
      exact (and_iff_left hq).symm
  · rw [setRole_roots (by rw [hh.role]; simp) (by simp), hh.roots]
  · refine hh.apart.relabel hh.free (fun q hq => setRole_role_of_ne hq) ?_ (fun q _ hq => hmem q hq) ?_ ?_
    · rw [setRole_role_self]
      simp
    · exact fun q hq hne => href q (managed_of_role hh.inv.tree hq (by simp)) hne
    · rw [setRole_role_self]
      simp

theorem wp_mapNew {Q : Int → Ram → Prop} (hI : Inv top g s) (ha : Allocated top g s p t)
    (hr : g.role r = .table r 2 0) (hva : v * pgSize < maxVa) (hv : v < top) (hm : ¬ g.Mapped r v)
    (hperm : IsPerm perm)
    (hfail : ∀ h u, Holding top {r} g s p h u → u.kfail = true → s.freelist.length ≤ 3 →
      s.freelist.length + (g.tables r).ncard < 1 + (g.tables r ∪ path v 2).ncard → Q (-1) u)
    (hok : ∀ h u, PageAdded top g s r v p perm h u → Q 0 u) :
    wp (mappages r (v * pgSize) pgSize p perm) Q E t := by
  have hh := ha.holding hI {r}
  have hlen := ha.length
  have hr' : (g.setRole p .kern).role r = .table r 2 0 := by
    rw [setRole_role_of_ne (ne_of_role hr ha.role (by simp)), hr]
  have htables : (g.setRole p .kern).tables r = g.tables r := tables_setRole (by rw [ha.role]; simp) (by simp) r
  refine mappages_fresh ha.inv hr' hva hv hm hh.role hperm ?_ ?_
  · intro h u hI' hg hk hshort hlack
    rw [htables] at hlack
    exact hfail h u (hh.grow hI' hg) hk (by omega) (by omega)
  · intro h u hmf
    have hshort := hmf.length
    have href : ∀ q, (g.setRole p .kern).role q ≠ .free → (g.setRole p .kern).role q ≠ .outside →
        u.ref q = t.ref q := fun q h₁ h₂ => hmf.ref q h₁ ((ha.inv.tree.managed q).1 h₂)
    refine hok h u ⟨⟨hmf.inv, (hh.frame.mono fun _ _ hx => hx.elim).trans hmf.frame, ?_, ?_, ?_,
      hmf.apart g s ha.role hh.apart⟩, ?_, hmf.leaf, ?_, ?_, fun q hq => ?_, ⟨by omega, by omega⟩, ?_, ?_⟩
    · rw [hmf.kern, hh.kern]
    · rw [hmf.roots, hh.roots]
    · rw [hmf.leak, hh.leak]
    · exact ha.inv.tree.isPage (by rw [hh.role]; simp)
    · rw [hmf.mem, ha.zero]
    · rw [href p (by rw [hh.role]; simp) (by rw [hh.role]; simp),
        ha.inv.count.ref p (managed_of_role ha.inv.tree hh.role (by simp))]
      unfold View.refs
      rw [hh.role]
    · have hne : q ≠ p := ne_of_role hq ha.role (by simp)
      have hq' : (g.setRole p .kern).role q = .user := by rw [setRole_role_of_ne hne, hq]
      rw [href q (by rw [hq']; simp) (by rw [hq']; simp), ha.ref q (managed_of_role hI.tree hq (by simp)) hne]
    · rw [hmf.tables, htables]
    · have hspent := hmf.spent
      rw [htables] at hspent
      omega

/-! ## `uvmalloc` -/

/-- New zeroed pages have been mapped from `lo` to `hi`. -/
structure Grown (top : Nat) (g : View) (s : Ram) (r lo hi : Nat) (perm : Pte) (h : View) (t : Ram) : Prop
    extends Change top {r} (pages r lo hi) g s h t where
  fresh : ∀ v, lo ≤ v → v < hi →
    ∃ p, IsPage p ∧ h.leaf r v = pa2pte p ||| perm ||| pteV ∧ (t.mem p = fun _ => 0) ∧ t.ref p = 1
  ref : ∀ r' v, v < top → g.Mapped r' v → ¬ pages r lo hi r' v → t.ref (g.page r' v) = s.ref (g.page r' v)
  length : t.freelist.length + (hi - lo) ≤ s.freelist.length ∧ s.freelist.length ≤ t.freelist.length + 3 * (hi - lo)
  tables : h.tables r = g.tables r ∪ span (Set.Ico lo hi)
  spent : t.freelist.length + (hi - lo) + (h.tables r).ncard = s.freelist.length + (g.tables r).ncard

theorem Grown.refl (hI : Inv top g s) (r lo : Nat) (perm : Pte) : Grown top g s r lo lo perm g s where
  toChange := .refl hI {r} _
  fresh v h₁ h₂ := by omega
  ref _ _ _ _ _ := rfl
  length := by omega
  tables := by
    have h₀ : span (Set.Ico lo lo) = ∅ := by
      rw [Set.Ico_self]
      exact Set.eq_empty_of_forall_notMem fun x ⟨v, hv, _⟩ => hv
    rw [h₀, Set.union_empty]
  spent := by omega

theorem Grown.snoc (hg : Grown top g s r lo i perm h t) (hlo : lo ≤ i) (hi : i ≤ top) (hperm : IsPerm perm)
    (ha : PageAdded top h t r i p perm f u) : Grown top g s r lo (i + 1) perm f u where
  toChange := by
    refine (hg.toChange.mono (Set.Subset.refl _) fun r' v' hx => ⟨hx.1, hx.2.1, by have := hx.2.2; omega⟩).trans
      (ha.toChange.mono (Set.Subset.refl _) fun r' v' hx => ?_)
    obtain ⟨rfl, rfl⟩ := hx
    exact ⟨rfl, hlo, by omega⟩
  fresh v h₁ h₂ := by
    by_cases hv : v = i
    · subst hv
      exact ⟨p, ha.page, ha.leaf, ha.zero, ha.own⟩
    · obtain ⟨q, hq, hl, hz, hone⟩ := hg.fresh v h₁ (by omega)
      have hx : ¬ one r i r v := fun hx => hv hx.2
      have hpg : h.page r v = q := by
        unfold View.page
        rw [hl, pte2pa_make_perm hq hperm]
      have hm : h.Mapped r v := by unfold View.Mapped; rw [hl]; exact make_perm_has_pteV _ _
      have hmem := ha.frame.mem r v hx (by omega) hm
      have href := ha.ref _ (hg.inv.count.user r v (by omega) hm)
      rw [hpg] at hmem href
      exact ⟨q, hq, by rw [ha.frame.leaf r v hx, hl], by rw [hmem, hz], by rw [href, hone]⟩
  ref r' v hv hm hn := by
    have hn' : ¬ pages r lo i r' v := fun hx => hn ⟨hx.1, hx.2.1, by have := hx.2.2; omega⟩
    rw [← hg.ref r' v hv hm hn', ← hg.frame.page hn']
    exact ha.ref _ (hg.inv.count.user r' v hv ((hg.frame.mapped hn').2 hm))
  length := by
    have h₁ := hg.length
    have h₂ := ha.length
    omega
  tables := by rw [ha.tables, hg.tables, span_Ico_succ hlo, Set.union_assoc]
  spent := by
    have h₁ := hg.spent
    have h₂ := ha.spent
    omega

theorem Grown.undo {k : View} (hg : Grown top g s r lo i perm h t) (hs : Same top {r} h t f u)
    (hu : Unmapped top (pages r lo i) f u k w) (hz : ∀ v, lo ≤ v → v < i → g.leaf r v = 0) :
    Same top {r} g s k w where
  inv := hu.inv
  frame := by
    refine (Frame.trans_none hg.frame hs.frame).undo hu ?_
    rintro r' v ⟨rfl, h₁, h₂⟩
    exact hz v h₁ h₂
  kern := hu.kern.trans (hs.kern.trans hg.kern)
  roots := hu.roots.trans (hs.roots.trans hg.roots)
  leak := hu.leak.trans (hs.leak.trans hg.leak)
  apart := hg.apart.trans (hs.apart.trans (hu.apart.mono (Set.empty_subset _)))

theorem uvmdealloc_undo (hg : Grown top g s r lo i perm h t) (hs : Same top {r} h t f u)
    (hr : g.role r = .table r 2 0) (hlo : lo ≤ i) (hi : i ≤ top) (hva : i * pgSize ≤ maxVa)
    (hz : ∀ v, lo ≤ v → v < i → g.leaf r v = 0) (hk : u.kfail = true) :
    wp (uvmdealloc r (i * pgSize) (lo * pgSize)) (fun _ w => w.kfail = true ∧ ∃ k, Same top {r} g s k w) E u := by
  have hr' : f.role r = .table r 2 0 := hs.root (hg.root hr)
  have hd : wp (uvmdealloc r (i * pgSize) (lo * pgSize)) _ E u := uvmdealloc_spec hs.inv hr'
    (Nat.mul_le_mul_right _ hlo) hva (by rw [npages_mul]; exact hi)
  rw [npages_mul, npages_mul] at hd
  refine wp_post hd ?_
  rintro _ w ⟨-, k, hu⟩
  exact ⟨hu.frame.kfail hk, k, hg.undo hs hu hz⟩

theorem IsPerm.allocPerm (h : IsPerm xperm) : IsPerm (Vm.allocPerm xperm) := by
  exact ((((show IsPerm (pteR ||| pteU) by decide).or h).or (by decide)).or (by decide)).or (by decide)

/-- What `uvmalloc` leaves: the pages, or what was there before if there were too few free ones. -/
def Allocs (top : Nat) (g : View) (s : Ram) (r lo hi newsz : Nat) (perm : Pte) (res : Nat) (t : Ram) : Prop :=
  res = newsz ∧ (∃ h, Grown top g s r lo hi perm h t) ∨
  res = 0 ∧ t.kfail = true ∧ s.freelist.length ≤ 3 * (hi - lo) ∧
    s.freelist.length + (g.tables r).ncard < hi - lo + (g.tables r ∪ span (Set.Ico lo hi)).ncard ∧
    ∃ h, Same top {r} g s h t

/-- The page after the last that was added was one too many. -/
theorem Grown.short {hi : Nat} (hg : Grown top g s r lo i perm h t) (hlo : lo ≤ i) (hi' : i < hi)
    (hlack : t.freelist.length + (h.tables r).ncard < 1 + (h.tables r ∪ path i 2).ncard) (ht : Tree g s) :
    s.freelist.length + (g.tables r).ncard < hi - lo + (g.tables r ∪ span (Set.Ico lo hi)).ncard := by
  have hspent := hg.spent
  rw [hg.tables, Set.union_assoc, ← span_Ico_succ hlo, ← hg.tables] at hlack
  have hsub : (g.tables r ∪ span (Set.Ico lo (i + 1))).ncard ≤ (g.tables r ∪ span (Set.Ico lo hi)).ncard :=
    Set.ncard_le_ncard (Set.union_subset_union_right _ (span_mono (Set.Ico_subset_Ico_right hi')))
      ((ht.finite_tables r).union (finite_span (Set.finite_Ico lo hi)))
  omega

/-- The free list bounds how far the loop gets, however many pages are asked for. -/
theorem uvmallocLoop_spec (hI : Inv top g s) (hg : Grown top g s r lo i (allocPerm xperm) h t) (hr : g.role r = .table r 2 0)
    (hlo : lo ≤ i) (htop : i + min n t.freelist.length ≤ top) (hva : top * pgSize ≤ maxVa)
    (hz : ∀ v, lo ≤ v → v < top → g.leaf r v = 0) (hx : IsPerm xperm) :
    wp (uvmallocLoop r (lo * pgSize) newsz xperm n (i * pgSize))
      (Allocs top g s r lo (i + n) newsz (allocPerm xperm)) E t := by
  induction n generalizing i h t with
  | zero =>
      simp only [uvmallocLoop, wp_pure, Nat.add_zero]
      exact .inl ⟨rfl, h, hg⟩
  | succ n ih =>
      have hroot := hg.root hr
      have hlen := hg.length
      have hile : i * pgSize ≤ maxVa := Nat.le_trans (Nat.mul_le_mul_right _ (by omega)) hva
      have hundo : ∀ f u, Same top {r} h t f u → u.kfail = true → t.freelist.length ≤ 3 →
          t.freelist.length + (h.tables r).ncard < 1 + (h.tables r ∪ path i 2).ncard →
          wp (uvmdealloc r (i * pgSize) (lo * pgSize))
            (fun _ w => Allocs top g s r lo (i + (n + 1)) newsz (allocPerm xperm) 0 w) E u := by
        intro f u hs hk hshort hlack
        refine wp_post (uvmdealloc_undo hg hs hr hlo (by omega) hile (fun v a b => hz v a (by omega)) hk) ?_
        rintro _ w ⟨hk, hs⟩
        exact .inr ⟨rfl, hk, by omega, hg.short hlo (by omega) hlack hI.tree, hs⟩
      simp only [uvmallocLoop, wp_bind]
      refine wp_kalloc hg.inv (fun hnil => ?_) fun p u ha => ?_
      · simp only [wp_bind]
        refine hundo h _ (.outOfMemory hg.inv {r}) rfl (by rw [hnil]; exact Nat.zero_le _) ?_
        have hsub := Set.ncard_le_ncard (Set.subset_union_left (s := h.tables r) (t := path i 2))
          ((hg.inv.tree.finite_tables r).union (finite_path i))
        rw [hnil, List.length_nil]
        omega
      · have hpos := ha.length
        have hi : i < top := by omega
        have hva' : i * pgSize < maxVa := Nat.lt_of_lt_of_le (Nat.mul_lt_mul_of_pos_right hi (by decide)) hva
        have hun : ¬ h.Mapped r i := by
          unfold View.Mapped
          rw [hg.frame.leaf r i fun hx => Nat.lt_irrefl _ hx.2.2, hz i hlo hi, not_has_zero]
          simp
        rw [wp_bind, wp_modify, memset_zero ha.zero, wp_bind]
        refine wp_mapNew hg.inv ha hroot hva' hi hun hx.allocPerm ?_ ?_
        · intro f w hh hk hshort hlack
          rw [if_pos (by decide), wp_bind]
          refine wp_kfree_holding hh fun f' w' hs hk' => ?_
          rw [wp_bind]
          exact hundo f' w' hs (hk' hk) hshort hlack
        · intro f w hadd
          have hlen' := hadd.length
          have h₂ : i * pgSize + pgSize = (i + 1) * pgSize := by rw [Nat.add_mul, Nat.one_mul]
          have h₄ : i + (n + 1) = i + 1 + n := by omega
          rw [if_neg (by decide), h₂, h₄]
          exact ih (hg.snoc hlo (by omega) hx.allocPerm hadd) (by omega) (by omega)

theorem uvmalloc_spec (hI : Inv top g s) (hr : g.role r = .table r 2 0) (hle : oldsz ≤ newsz) (hmax : oldsz ≤ maxVa)
    (htop : npages oldsz + min (npages newsz - npages oldsz) s.freelist.length ≤ top) (hva : top * pgSize ≤ maxVa)
    (hz : ∀ v, npages oldsz ≤ v → v < top → g.leaf r v = 0) (hx : IsPerm xperm) :
    wp (uvmalloc r oldsz newsz xperm)
      (Allocs top g s r (npages oldsz) (npages newsz) newsz (allocPerm xperm)) E s := by
  have hpg := npages_le hle
  have hold := pgRoundUp_eq hmax
  have hn : (newsz - npages oldsz * pgSize + (pgSize - 1)) / pgSize = npages newsz - npages oldsz := by
    unfold npages pgSize
    omega
  unfold uvmalloc
  rw [if_neg (by omega)]
  simp only [hold, hn]
  have hloop : wp (uvmallocLoop r (npages oldsz * pgSize) newsz xperm (npages newsz - npages oldsz)
      (npages oldsz * pgSize)) _ E s :=
    uvmallocLoop_spec hI (Grown.refl hI r (npages oldsz) (allocPerm xperm)) hr (Nat.le_refl _) htop hva hz hx
  rw [Nat.add_sub_cancel' hpg] at hloop
  exact hloop

end Xv6.Vm
