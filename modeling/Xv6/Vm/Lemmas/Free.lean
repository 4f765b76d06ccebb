import Xv6.Vm.Lemmas.Alloc

/-!
# Giving a page table back

`freewalk` frees the page-table pages of a tree without entries, the lowest first. It frees a page
before it clears the entry that leads to it, so the rule for a page-table page below the root says
what memory was like just before that page went, and its caller goes on from there.
-/

namespace Xv6.Vm

open Xv6.Lib

variable {top : Nat} {f g h : View} {s t u : Ram} {a p r v k l i n m : Nat} {E : Stop → Ram → Prop}

theorem not_has_leaf (p : Nat) : (pa2pte p ||| pteV).has (pteR ||| pteW ||| pteX) = false := by
  have hmask : ∀ j : Fin 64, (pteR ||| pteW ||| pteX).getLsbD j = decide (1 ≤ j.val ∧ j.val ≤ 3) := by decide
  have hzero : (pa2pte p ||| pteV) &&& (pteR ||| pteW ||| pteX) = 0 := by
    refine BitVec.eq_of_getLsbD_eq fun i hi => ?_
    rw [BitVec.getLsbD_and, hmask ⟨i, hi⟩]
    by_cases h₁ : i < 10
    · rw [getLsbD_make h₁, getLsbD_pteV]
      by_cases h₂ : i = 0 <;> simp [h₂]
    · have h₂ : ¬ i ≤ 3 := by omega
      simp [h₂]
  unfold Pte.has
  rw [hzero]
  rfl

/-! ## Page-table pages that go -/

/-- A page-table page of `r` below level `n`. -/
def View.Lower (g : View) (r n p : Nat) : Prop := ∃ l k, g.role p = .table r l k ∧ l < n

/-- Page-table pages of `r` below level `n` have been written or freed, and nothing else. -/
structure Torn (top r n : Nat) (g : View) (s : Ram) (h : View) (t : Ram) : Prop where
  inv : Inv top h t
  leaf : h.leaf = g.leaf
  leak : h.leak = g.leak
  role : ∀ p, h.role p = g.role p ∨ g.Lower r n p ∧ h.role p = .free
  mem : ∀ p, ¬ g.Lower r n p → t.mem p = s.mem p
  ref : ∀ p, s.managed p → ¬ g.Lower r n p → t.ref p = s.ref p
  kfail : t.kfail = s.kfail
  kend : t.kend = s.kend
  trampoline : t.trampolinePage = s.trampolinePage

theorem Torn.refl (hI : Inv top g s) (r n : Nat) : Torn top r n g s g s :=
  ⟨hI, rfl, rfl, fun _ => .inl rfl, fun _ _ => rfl, fun _ _ _ => rfl, rfl, rfl, rfl⟩

theorem Torn.lower (hT : Torn top r n g s h t) (hp : h.Lower r m p) : g.Lower r m p := by
  obtain ⟨l, k, hk, hl⟩ := hp
  rcases hT.role p with h₁ | ⟨-, h₁⟩
  · exact ⟨l, k, by rw [← h₁, hk], hl⟩
  · rw [hk] at h₁
    cases h₁

theorem View.Lower.mono (hp : g.Lower r m p) (hle : m ≤ n) : g.Lower r n p := by
  obtain ⟨l, k, hk, hl⟩ := hp
  exact ⟨l, k, hk, Nat.lt_of_lt_of_le hl hle⟩

theorem Torn.trans (hf : Torn top r n f s g t) (hg : Torn top r m g t h u) (hle : m ≤ n) : Torn top r n f s h u where
  inv := hg.inv
  leaf := hg.leaf.trans hf.leaf
  leak := hg.leak.trans hf.leak
  role p := by
    rcases hg.role p with h₁ | ⟨hp, h₁⟩
    · rw [h₁]
      exact hf.role p
    · exact .inr ⟨(hf.lower hp).mono hle, h₁⟩
  mem p hp := by
    rw [hg.mem p fun hp' => hp ((hf.lower hp').mono hle)]
    exact hf.mem p hp
  ref p hm hp := by
    have hm' : t.managed p := by unfold Ram.managed at *; rwa [hf.kend]
    rw [hg.ref p hm' fun hp' => hp ((hf.lower hp').mono hle)]
    exact hf.ref p hm hp
  kfail := hg.kfail.trans hf.kfail
  kend := hg.kend.trans hf.kend
  trampoline := hg.trampoline.trans hf.trampoline

theorem Torn.kept (hT : Torn top r n g s h t) (hp : ¬ g.Lower r n p) : h.role p = g.role p :=
  (hT.role p).resolve_right fun h₁ => hp h₁.1

theorem not_lower (hp : g.role p = .table r l k) (hle : n ≤ l) : ¬ g.Lower r n p := by
  rintro ⟨l', k', h₁, h₂⟩
  rw [hp] at h₁
  cases h₁
  omega

/-- Memory after the page-table page `p` has gone on the free list. -/
def Ram.release (s : Ram) (p : Nat) : Ram := (s.setRef (krefIndex p) 0).push p

theorem release_mem (hne : v ≠ p) : (s.release p).mem v = s.mem v := push_mem_of_ne hne

theorem freed_release (s : Ram) (p : Nat) : Freed s (s.release p) p :=
  ⟨rfl, rfl, fun _ _ hne => pte_congr (release_mem hne)⟩

theorem Count.release (hI : Inv top g s) (hp : g.role p = .table r l k) :
    Count top (g.setRole p .free) (s.release p) := by
  have hs : RefSet s (s.release p) p 0 := refSet_push hI.tree.base (managed_of_role hI.tree hp (by simp))
  refine hI.count.relabel hs.kend (by rw [hp]; simp) ?_ hs.other fun q hq => (hI.tree.managed q).1 hq
  rw [hs.self]
  unfold View.refs
  rw [setRole_role_self]

/-- An empty page-table page has been freed and its entry cleared. -/
theorem Torn.unlink (hI : Inv top g s) (hp : g.role p = .table r l k) (ha : g.role a = .table r (l + 1) (k / 512))
    (he : ∀ j, j < 512 → (s.pte p j).has pteV = false) :
    Torn top r (l + 2) g s (g.setRole p .free) ((s.release p).setPte a (k % 512) 0) := by
  have hm := managed_of_role hI.tree hp (by simp)
  have hlow : g.Lower r (l + 2) p := ⟨l, k, hp, by omega⟩
  have hlow' : g.Lower r (l + 2) a := ⟨l + 1, _, ha, by omega⟩
  refine ⟨⟨hI.tree.unlink (freed_release s p) hp ha he, (Count.release hI hp).of_ref rfl fun _ => rfl⟩, rfl, rfl, ?_,
    ?_, ?_, rfl, rfl, rfl⟩
  · intro q
    by_cases hq : q = p
    · subst hq
      exact .inr ⟨hlow, setRole_role_self _ _ _⟩
    · exact .inl (setRole_role_of_ne hq)
  · intro q hq
    have hqa : q ≠ a := fun h₁ => hq (h₁ ▸ hlow')
    have hqp : q ≠ p := fun h₁ => hq (h₁ ▸ hlow)
    rw [setPte_mem, Function.update_of_ne hqa, release_mem hqp]
  · intro q hq hn
    exact (refSet_push hI.tree.base hm).other q hq fun h₁ => hn (h₁ ▸ hlow)

/-! ## `freewalk` -/

/-- What `freewalk` leaves at a page-table page of level `l`: the pages below it are gone, and it was
empty when it was freed itself. -/
def FreedAt (top : Nat) (g : View) (s : Ram) (r l k a : Nat) (t : Ram) : Prop :=
  ∃ h u, Torn top r (l + 1) g s h u ∧ h.role a = .table r l k ∧
    (∀ j, j < 512 → (u.pte a j).has pteV = false) ∧ t = u.release a

/-- The loop of `freewalk` has dealt with the entries below `i`. -/
def FreedTo (top : Nat) (g : View) (s : Ram) (r l k a i : Nat) (u : Ram) : Prop :=
  ∃ h, Torn top r (l + 1) g s h u ∧ h.role a = .table r l k ∧ ∀ j, j < i → (u.pte a j).has pteV = false

theorem FreedTo.child (hT : Torn top r (l + 2) g s h t) (ha : h.role a = .table r (l + 1) k)
    (hbelow : ∀ j, j < i → (t.pte a j).has pteV = false) (hi : i < 512)
    (hf : FreedAt top h t r l (512 * k + i) p u) :
    FreedTo top g s r (l + 1) k a (i + 1) (u.setPte a i 0) := by
  obtain ⟨h', u', hT', hp, he, rfl⟩ := hf
  have hdiv : (512 * k + i) / 512 = k := by omega
  have hmod : (512 * k + i) % 512 = i := by omega
  have hna : ¬ h.Lower r (l + 1) a := not_lower ha (Nat.le_refl _)
  have ha' : h'.role a = .table r (l + 1) k := by rw [hT'.kept hna, ha]
  have hap : a ≠ p := ne_of_role ha' hp (by simp)
  have hun := Torn.unlink hT'.inv hp (by rw [hdiv]; exact ha') he
  rw [hmod] at hun
  refine ⟨_, (hT.trans hT' (Nat.le_succ _)).trans hun (Nat.le_refl _), ?_, fun j hj => ?_⟩
  · rw [setRole_role_of_ne hap, ha']
  · by_cases hji : j = i
    · rw [hji, pte_setPte, not_has_zero]
    · rw [pte_setPte_of_ne (.inr hji), pte_congr (release_mem hap), pte_congr (hT'.mem a hna)]
      exact hbelow j (by omega)

theorem freewalk_level (hI : Inv top g s) (ha : g.role a = .table r l k) (hz : ∀ v, g.leaf r v = 0)
    (hrec : ∀ l', l = l' + 1 → ∀ h u p k', Inv top h u → h.role p = .table r l' k' → (∀ v, h.leaf r v = 0) →
      wp (freewalk l p) (fun _ t => FreedAt top h u r l' k' p t) E u) :
    wp (freewalk (l + 1) a) (fun _ t => FreedAt top g s r l k a t) E s := by
  rw [freewalk, wp_bind]
  refine wp_post (wp_forN (fun i u => FreedTo top g s r l k a i u) 512 0 ?_
    ⟨g, .refl hI r _, ha, fun j hj => absurd hj (Nat.not_lt_zero j)⟩) ?_
  · rintro i u - hi ⟨h, hT, ha', hbelow⟩
    have hi' : i < 512 := by omega
    simp only [readPte, wp_bind, wp_get, wp_pure]
    cases hv : (u.pte a i).has pteV with
    | false =>
        simp only [Bool.false_eq_true, false_and, if_false, wp_pure]
        refine ⟨h, hT, ha', fun j hj => ?_⟩
        by_cases hji : j = i
        · rw [hji, hv]
        · exact hbelow j (by omega)
    | true =>
        cases l with
        | zero =>
            -- an entry of the lowest level is one of the address space, and there are none
            rw [hT.inv.tree.leaf _ _ _ _ ha' hi', hT.leaf, hz, not_has_zero] at hv
            cases hv
        | succ l =>
            obtain ⟨p, hpte, hp⟩ := hT.inv.tree.child _ _ _ _ _ ha' hi' hv
            have hpa : pte2pa (u.pte a i) = p := by
              rw [hpte, pte2pa_make (hT.inv.tree.isPage (by rw [hp]; simp)) (by decide)]
            have hleaf : (u.pte a i).has (pteR ||| pteW ||| pteX) = false := by
              rw [hpte]
              exact not_has_leaf p
            simp only [hleaf, Bool.not_false, and_self, if_true, hpa, wp_bind]
            refine wp_post (hrec l rfl h u p _ hT.inv hp fun v => by rw [hT.leaf]; exact hz v) ?_
            intro _ w hw
            exact FreedTo.child hT ha' hbelow hi' hw
  · rintro _ u ⟨h, hT, ha', hbelow⟩
    have hm := managed_of_role hT.inv.tree ha' (by simp)
    have href : u.ref a = 1 := by
      rw [hT.inv.count.ref a hm]
      unfold View.refs
      rw [ha']
    refine wp_kfree hT.inv.tree.base hm (fun h₁ => by omega) fun _ => ?_
    exact ⟨h, u, hT, ha', fun j hj => hbelow j (by omega), rfl⟩

theorem freewalk_spec (hI : Inv top g s) (ha : g.role a = .table r l k) (hz : ∀ v, g.leaf r v = 0) :
    wp (freewalk (l + 1) a) (fun _ t => FreedAt top g s r l k a t) E s := by
  induction l generalizing g s a k with
  | zero => exact freewalk_level hI ha hz fun l' hl => absurd hl (by omega)
  | succ l ih =>
      refine freewalk_level hI ha hz fun l' hl h u p k' hI' hp hz' => ?_
      obtain rfl : l = l' := by omega
      exact ih hI' hp hz'

theorem Torn.kern (hT : Torn top r n g s h t) : h.kern = g.kern := by
  ext p
  show h.role p = .kern ↔ g.role p = .kern
  rcases hT.role p with h₁ | ⟨⟨l, k, h₂, -⟩, h₁⟩
  · rw [h₁]
  · rw [h₁, h₂]
    exact iff_of_false (by simp) (by simp)

theorem Torn.frame (hT : Torn top r n g s h t) (hI : Inv top g s) : Frame top none₂ g s h t := by
  refine Frame.of_user hI.count hT.leaf (fun p hp => hT.mem p ?_) (fun hk => hT.kfail.trans hk) hT.kend hT.trampoline
  rintro ⟨l, k, h₁, -⟩
  rw [hp] at h₁
  cases h₁

theorem Torn.apart (hT : Torn top r n g s h t) (hI : Inv top g s) : Apart {r} g s h t where
  table p r' l k hr := by
    rcases hT.role p with h₁ | ⟨⟨l', k', h₂, -⟩, h₁⟩
    · rw [h₁]
    · rw [h₁, h₂]
      refine iff_of_false (by simp) fun h₃ => ?_
      cases h₃
      exact hr rfl
  kern p hp := by
    have hn : ¬ g.Lower r n p := fun ⟨l, k, h₁, _⟩ => by rw [hp] at h₁; cases h₁
    exact ⟨by rw [hT.kept hn, hp], hT.mem p hn⟩
  live hl p hp := by
    rcases hT.role p with h₁ | ⟨-, h₁⟩
    · rw [hp] at h₁
      have hn : ¬ g.Lower r n p := fun ⟨l, k, h₂, _⟩ => by rw [← h₁] at h₂; cases h₂
      rw [hT.ref p (managed_of_role hI.tree h₁.symm (by simp)) hn]
      exact hl p h₁.symm
    · rw [hp] at h₁
      cases h₁

theorem freewalk_root (hI : Inv top g s) (hr : g.role r = .table r 2 0) (hz : ∀ v, g.leaf r v = 0) :
    wp (freewalk 3 r) (fun _ t => ∃ h, Torn top r 3 g s h t ∧ h.role r = .free) E s := by
  refine wp_post (freewalk_spec hI hr hz) ?_
  rintro _ t ⟨h, u, hT, hr', he, rfl⟩
  have hlow : h.Lower r 3 r := ⟨2, 0, hr', by omega⟩
  have hm := managed_of_role hT.inv.tree hr' (by simp)
  have hrel : Torn top r 3 h u (h.setRole r .free) (u.release r) := by
    refine ⟨⟨hT.inv.tree.freeRoot (freed_release u r) hr' he, Count.release hT.inv hr'⟩, rfl, rfl, ?_, ?_, ?_, rfl, rfl,
      rfl⟩
    · intro q
      by_cases hq : q = r
      · subst hq
        exact .inr ⟨hlow, setRole_role_self _ _ _⟩
      · exact .inl (setRole_role_of_ne hq)
    · intro q hq
      exact release_mem fun h₁ => hq (h₁.symm ▸ hlow)
    · intro q hq hn
      exact (refSet_push hT.inv.tree.base hm).other q hq fun h₁ => hn (h₁.symm ▸ hlow)
  exact ⟨_, hT.trans hrel (Nat.le_refl _), setRole_role_self _ _ _⟩

/-! ## `uvmfree` and `proc_freepagetable` -/

/-- The entries of the root `r`. -/
def tree (r : Nat) : Nat → Nat → Prop := fun r' _ => r' = r

/-- The page table `r` is gone, with the references that its entries held. -/
structure Erased (top r : Nat) (g : View) (s : Ram) (h : View) (t : Ram) : Prop where
  inv : Inv top h t
  frame : Frame top (tree r) g s h t
  leaf : ∀ v, h.leaf r v = 0
  table : ∀ p l k, h.role p ≠ .table r l k
  kern : h.kern = g.kern
  roots : h.roots = g.roots \ {r}
  leak : h.leak = g.leak
  apart : Apart {r} g s h t

theorem Torn.erased (hT : Torn top r 3 g s h t) (hI : Inv top g s) (hz : ∀ v, g.leaf r v = 0)
    (hr : h.role r = .free) : Erased top r g s h t where
  inv := hT.inv
  frame := (hT.frame hI).mono fun _ _ hx => hx.elim
  leaf v := by rw [hT.leaf]; exact hz v
  table p l k hp := by
    have h₁ := hT.inv.tree.root _ _ _ _ hp
    rw [hr] at h₁
    cases h₁
  kern := hT.kern
  roots := by
    ext q
    show h.role q = .table q 2 0 ↔ g.role q = .table q 2 0 ∧ q ≠ r
    by_cases hq : q = r
    · subst hq
      rw [hr]
      exact iff_of_false (by simp) fun h₁ => h₁.2 rfl
    · rcases hT.role q with h₁ | ⟨⟨l, k, h₂, -⟩, h₁⟩
      · rw [h₁]
        exact (and_iff_left hq).symm
      · rw [h₁, h₂]
        refine iff_of_false (by simp) fun h₃ => ?_
        injection h₃.1 with h₄ _ _
        exact hq h₄.symm
  leak := hT.leak
  apart := hT.apart hI

theorem Unmapped.erased {X : Nat → Nat → Prop} (hu : Unmapped top X g s h t) (hX : ∀ r' v, X r' v → r' = r)
    (hrel : Erased top r h t f u) : Erased top r g s f u where
  inv := hrel.inv
  frame := (hu.frame.mono hX).trans hrel.frame
  leaf := hrel.leaf
  table := hrel.table
  kern := hrel.kern.trans hu.kern
  roots := by rw [hrel.roots, hu.roots]
  leak := hrel.leak.trans hu.leak
  apart := (hu.apart.mono (Set.empty_subset _)).trans hrel.apart

theorem uvmfree_spec {sz : Nat} (hI : Inv top g s) (hr : g.role r = .table r 2 0) (hsz : sz ≤ maxVa)
    (htop : npages sz ≤ top) (hz : ∀ v, npages sz ≤ v → g.leaf r v = 0) :
    wp (uvmfree r sz) (fun _ t => ∃ h, Erased top r g s h t) E s := by
  have hwalk : ∀ h u, Inv top h u → h.role r = .table r 2 0 → (∀ v, h.leaf r v = 0) →
      wp (freewalk 3 r) (fun _ t => ∃ f, Erased top r h u f t) E u := by
    intro h u hI' hr' hz'
    refine wp_post (freewalk_root hI' hr' hz') ?_
    rintro _ t ⟨f, hT, hfree⟩
    exact ⟨f, hT.erased hI' hz' hfree⟩
  unfold uvmfree
  by_cases hpos : 0 < sz
  · have hn : pgRoundUp sz / pgSize = npages sz - 0 := by
      rw [pgRoundUp_eq hsz, mul_pgSize_div, Nat.sub_zero]
    have hva : npages sz * pgSize ≤ maxVa := by
      unfold npages pgSize
      unfold maxVa at hsz ⊢
      omega
    have hzero : 0 = 0 * pgSize := (Nat.zero_mul _).symm
    simp only [hpos, if_true, hn, wp_bind]
    rw [hzero]
    refine wp_post (uvmunmap_free hI hr (Nat.zero_le _) hva htop) ?_
    rintro _ u ⟨h, hu⟩
    refine wp_post (hwalk h u hu.inv (hu.root hr) fun v => ?_) ?_
    · by_cases hv : v < npages sz
      · exact hu.leaf r v ⟨rfl, Nat.zero_le _, hv⟩
      · rw [hu.frame.leaf r v fun hx => hv hx.2.2]
        exact hz v (by omega)
    · rintro _ t ⟨f, hrel⟩
      exact ⟨f, hu.erased (fun _ _ hx => hx.1) hrel⟩
  · have h₀ : npages sz = 0 := by
      unfold npages pgSize
      omega
    simp only [hpos, if_false]
    exact hwalk g s hI hr fun v => hz v (by omega)

/-- The virtual page number of the trapframe; that of the trampoline is the next, and the last. -/
def userPages : Nat := 2 ^ 26 - 2

theorem trapframe_eq : trapframe = userPages * pgSize := rfl

theorem trampoline_eq : trampoline = (userPages + 1) * pgSize := rfl

theorem maxVa_eq : maxVa = (userPages + 2) * pgSize := rfl

/-- The root `r` has entries below `n` only, and on top those for the trapframe and the trampoline. -/
def View.Within (g : View) (r n : Nat) : Prop :=
  ∀ v, n ≤ v → v ≠ userPages → v ≠ userPages + 1 → g.leaf r v = 0

/-- No entry of the root `r` from the trapframe on is the user's. -/
def View.HidesTop (g : View) (r : Nat) : Prop := ∀ v, userPages ≤ v → (g.leaf r v).has pteU = false

theorem procFreepagetable_spec {sz : Nat} (hI : Inv top g s) (hr : g.role r = .table r 2 0) (hw : g.Within r (npages sz))
    (hsz : npages sz ≤ top) (htop : top ≤ userPages) :
    wp (procFreepagetable r sz) (fun _ t => ∃ h, Erased top r g s h t) E s := by
  have hmax : sz ≤ maxVa := by
    have h₁ := npages_le_iff.1 hsz
    have h₂ : top * pgSize ≤ userPages * pgSize := Nat.mul_le_mul_right _ htop
    rw [maxVa_eq, Nat.add_mul]
    omega
  rw [procFreepagetable, trampoline_eq, trapframe_eq, wp_bind]
  refine wp_post (uvmunmap_keep hI hr (Nat.mul_lt_mul_of_pos_right (Nat.lt_succ_self _) (by decide)) (by omega)) ?_
  rintro _ t ⟨h, hu⟩
  rw [wp_bind]
  refine wp_post (uvmunmap_keep hu.inv (hu.root hr)
    (Nat.mul_lt_mul_of_pos_right (Nat.lt_add_of_pos_right Nat.two_pos) (by decide)) htop) ?_
  rintro _ u ⟨h', hu'⟩
  have hun := hu.trans hu'
  refine wp_post (uvmfree_spec hun.inv (hun.root hr) hmax hsz fun v hv => ?_) ?_
  · by_cases hx : one r (userPages + 1) r v ∨ one r userPages r v
    · exact hun.leaf r v hx
    · rw [hun.frame.leaf r v hx]
      exact hw v hv (fun he => hx (.inr ⟨rfl, he⟩)) fun he => hx (.inl ⟨rfl, he⟩)
  · rintro _ w ⟨f, hrel⟩
    exact ⟨f, hun.erased (fun _ _ hx => hx.elim And.left And.left) hrel⟩

end Xv6.Vm
