import Xv6.Vm.Lemmas.Free

/-!
# Page faults

`vmfault` maps a page that a process has not touched yet, or gives it its own copy of a page that it
shares. Where it returns nothing, no page in use has changed.
-/

namespace Xv6.Vm

open Xv6.Lib Function

variable {top : Nat} {f g h : View} {s t u : Ram} {a p r v n sz : Nat} {x perm : Pte} {E : Stop → Ram → Prop}

/-! ## A page of one's own -/

/-- The entry for `v` has been replaced by one for the new page `p`, a copy of the page it was for. -/
structure PageCopied (top : Nat) (g : View) (s : Ram) (r v p : Nat) (h : View) (t : Ram) : Prop
    extends Change top {r} (one r v) g s h t where
  page : IsPage p
  leaf : h.leaf r v = pa2pte p ||| unshare (g.leaf r v) ||| pteV
  mem : t.mem p = s.mem (g.page r v)

/-- The view after the entry for `v` has been replaced by `x`, which maps the kernel's page `p`. The
reference that the old entry stood for leaks. -/
def View.replaced (g : View) (r v p : Nat) (x : Pte) : View :=
  ((g.setLeaf r v 0).setLeak (g.page r v) (g.leak (g.page r v) + 1)).mapped r v p x

theorem replaced_role (g : View) (r v p : Nat) (x : Pte) : (g.replaced r v p x).role = (g.setRole p .user).role := rfl

theorem replaced_leaf (g : View) (r v p : Nat) (x : Pte) : (g.replaced r v p x).leaf = (g.setLeaf r v x).leaf := by
  unfold View.replaced View.mapped View.setLeak View.setRole View.setLeaf
  simp only [update_self, update_idem]

theorem Inv.replace (hI : Inv top g s) (ha : g.role a = .table r 0 (v / 512)) (hv : v < top) (hm : g.Mapped r v)
    (hp : g.role p = .kern) (hperm : IsPerm perm) :
    Inv top (g.replaced r v p (pa2pte p ||| perm ||| pteV)) (s.setPte a (v % 512) (pa2pte p ||| perm ||| pteV)) := by
  have hnot : ¬ ((g.setLeaf r v 0).setLeak (g.page r v) (g.leak (g.page r v) + 1)).Mapped r v := by
    unfold View.Mapped
    rw [setLeak_leaf, setLeaf_leaf_self, not_has_zero]
    simp
  have h₁ := (hI.unmapUser ha hv hm).mapFresh (a := a) (p := p) ha hv hnot hp hperm
  rw [setPte_setPte] at h₁
  exact h₁

theorem Frame.of_leaf {X : Nat → Nat → Prop} (hf : Frame top X g s f t) (hl : h.leaf = f.leaf) : Frame top X g s h t :=
  ⟨fun r v hn => by rw [hl]; exact hf.leaf r v hn, hf.mem, hf.kfail, hf.kend, hf.trampoline⟩

theorem Frame.setMem (hI : Inv top g s) (hp : g.role p = .kern) (b : Bytes) :
    Frame top none₂ g s g { s with mem := update s.mem p b } :=
  .of_user hI.count rfl (fun _ hq => update_of_ne (ne_of_role hq hp (by simp)) _ _) id rfl rfl

/-- The new page `p` has been filled from the page behind the entry for `v` and put in its place. -/
structure Replacing (top : Nat) (g : View) (s : Ram) (r v p : Nat) (h : View) (t : Ram) : Prop where
  inv : Inv top h t
  frame : Frame top (one r v) g s h t
  page : IsPage p
  leaf : h.leaf r v = pa2pte p ||| unshare (g.leaf r v) ||| pteV
  kern : h.kern = g.kern
  roots : h.roots = g.roots
  role : h.role (g.page r v) = .user
  leak : h.leak = update g.leak (g.page r v) (g.leak (g.page r v) + 1)
  mem : t.mem p = s.mem (g.page r v)
  apart : Apart {r} g s h t

theorem Allocated.replacing (hal : Allocated top g s p t) (hI : Inv top g s) (ha : g.role a = .table r 0 (v / 512))
    (hv : v < top) (hm : g.Mapped r v) :
    Replacing top g s r v p ((g.setRole p .kern).replaced r v p (pa2pte p ||| unshare (g.leaf r v) ||| pteV))
      ((t.copyPage p (g.page r v)).setPte a (v % 512) (pa2pte p ||| unshare (g.leaf r v) ||| pteV)) := by
  have hu := hI.count.user r v hv hm
  have hh := hal.holding hI {r}
  have hap : a ≠ p := ne_of_role ha hal.role (by simp)
  have hold : g.page r v ≠ p := ne_of_role hu hal.role (by simp)
  have ha' : (g.setRole p .kern).role a = .table r 0 (v / 512) := by rw [setRole_role_of_ne hap, ha]
  have hI₁ := hal.inv.setMem (.inl hh.role) (t.mem (g.page r v))
  have hrole : ∀ q, q ≠ p → ((g.setRole p .kern).replaced r v p (pa2pte p ||| unshare (g.leaf r v) ||| pteV)).role q =
      (g.setRole p .kern).role q := fun q hq => by rw [replaced_role, setRole_role_of_ne hq]
  refine ⟨hI₁.replace ha' hv hm hh.role (isPerm_unshare _), ?_, hI₁.tree.isPage (by rw [hh.role]; simp), ?_, ?_, ?_, ?_, rfl, ?_, ?_⟩
  · refine (hh.frame.trans (.setMem hal.inv hh.role (t.mem (g.page r v)))).none_trans ?_
    exact (Frame.setLeaf hI₁ ha' _ _ _).of_leaf (replaced_leaf _ _ _ _ _)
  · rw [replaced_leaf, setLeaf_leaf_self]
  · exact (mapped_kern _ r v p _).trans hh.kern
  · exact (mapped_roots hh.role r v (pa2pte p ||| unshare (g.leaf r v) ||| pteV)).trans hh.roots
  · rw [hrole _ hold, setRole_role_of_ne hold, hu]
  · rw [setPte_mem, update_of_ne hap.symm, show (t.copyPage p (g.page r v)).mem p = _ from update_self ..,
      hal.mem _ hold]
  · refine hh.apart.relabel hal.role hrole ?_ ?_ (fun _ _ _ => rfl) ?_
    · rw [replaced_role, setRole_role_self]
      simp
    · intro q hq hne
      rw [setPte_mem, update_of_ne (ne_of_role hq ha' (by simp))]
      exact update_of_ne hne _ _
    · intro _
      have href : t.ref p = 1 := by
        rw [hal.inv.count.ref p (managed_of_role hal.inv.tree hh.role (by simp))]
        unfold View.refs
        rw [hh.role]
      exact href ▸ Nat.one_pos

theorem Replacing.copied (hr : Replacing top g s r v p h t) (hv : v < top)
    (hd : Dropped top h t (g.page r v) (g.leak (g.page r v)) f u) : PageCopied top g s r v p f u := by
  have hnew : h.page r v = p := by
    unfold View.page
    rw [hr.leaf, pte2pa_make_perm hr.page (isPerm_unshare _)]
  have hm : h.Mapped r v := by
    unfold View.Mapped
    rw [hr.leaf]
    exact make_perm_has_pteV _ _
  refine ⟨⟨hd.inv, hr.frame.trans_none hd.frame, ?_, ?_, ?_, hr.apart.trans (hd.apart _)⟩, hr.page, ?_, ?_⟩
  · rw [hd.kern hr.role, hr.kern]
  · rw [hd.roots hr.role, hr.roots]
  · rw [hd.leak, hr.leak, update_idem, update_eq_self]
  · rw [hd.frame.leaf r v id, hr.leaf]
  · have h₁ := hd.frame.mem r v id hv hm
    rw [hnew] at h₁
    exact h₁.trans hr.mem

theorem cowFault_spec (hI : Inv top g s) (ha : g.role a = .table r 0 (v / 512)) (hv : v < top) (hm : g.Mapped r v) :
    wp (cowFault (a, v % 512) (g.leaf r v)) (fun res t =>
      (res = none ∧ t.kfail = true ∧ ∃ h, Same top {r} g s h t) ∨
        ∃ p h, res = some p ∧ PageCopied top g s r v p h t) E s := by
  simp only [cowFault, wp_bind]
  refine wp_kalloc hI (fun _ => .inl ⟨rfl, rfl, g, .outOfMemory hI {r}⟩) fun p t hal => ?_
  simp only [writePte, wp_bind, wp_modify, wp_pure]
  have hr := hal.replacing hI ha hv hm
  -- the reference that the entry stood for is the one that `kfree` drops
  have hleak : _ = _ + 1 := (congrFun hr.leak (g.page r v)).trans (update_self ..)
  exact wp_kfree_user hr.inv hr.role hleak fun h u hd => .inr ⟨p, h, rfl, hr.copied hv hd⟩

/-! ## A page that was not there -/

/-- The permission of the pages that `vmfault` adds. -/
def lazyPerm : Pte := pteW ||| pteU ||| pteR ||| pteA ||| pteD ||| pteMaee

theorem isPerm_lazyPerm : IsPerm lazyPerm := by decide

theorem lazyFault_spec {P : Proc} (hI : Inv top g s) (hr : g.role P.pagetable = .table P.pagetable 2 0)
    (hva : v * pgSize < maxVa) (hv : v < top) (hm : ¬ g.Mapped P.pagetable v) :
    wp (lazyFault P (v * pgSize)) (fun res t =>
      (res = none ∧ t.kfail = true ∧ ∃ h, Same top {P.pagetable} g s h t) ∨
        ∃ p h, res = some p ∧ PageAdded top g s P.pagetable v p lazyPerm h t) E s := by
  rw [lazyFault, wp_bind]
  refine wp_kalloc hI (fun _ => .inl ⟨rfl, rfl, g, .outOfMemory hI _⟩) fun p t hal => ?_
  rw [wp_bind, wp_modify, memset_zero hal.zero, wp_bind, ← lazyPerm]
  refine wp_mapNew hI hal hr hva hv hm isPerm_lazyPerm ?_ ?_
  · intro h u hh hk _ _
    rw [if_pos (by decide), wp_bind]
    refine wp_kfree_holding hh fun f w hs hk' => ?_
    rw [wp_pure]
    exact .inl ⟨rfl, hk' hk, f, hs⟩
  · intro h u hadd
    rw [if_neg (by decide), wp_pure]
    exact .inr ⟨p, h, rfl, hadd⟩

/-! ## `vmfault` -/

/-- What `vmfault` returns for an address in page `v`, and what it leaves. It refuses an address from
`sz` on and a page that is mapped and not shared. -/
inductive Faulted (top : Nat) (g : View) (s : Ram) (r sz a : Nat) : Option Nat → Ram → Prop
  | refused {h : View} {t : Ram} (hs : Same top {r} g s h t)
      (why : sz ≤ a ∨ (g.Mapped r (a / pgSize) ∧ (g.leaf r (a / pgSize)).has pteCow = false) ∨ t.kfail = true) :
      Faulted top g s r sz a none t
  | added {p : Nat} {h : View} {t : Ram} (lt : a < sz) (hz : ¬ g.Mapped r (a / pgSize))
      (hadd : PageAdded top g s r (a / pgSize) p lazyPerm h t) : Faulted top g s r sz a (some p) t
  | copied {p : Nat} {h : View} {t : Ram} (lt : a < sz) (hm : g.Mapped r (a / pgSize))
      (hcow : (g.leaf r (a / pgSize)).has pteCow = true) (hcopy : PageCopied top g s r (a / pgSize) p h t) :
      Faulted top g s r sz a (some p) t

theorem wp_ismapped {Q : Bool → Ram → Prop} (hI : Inv top g s) (hr : g.role r = .table r 2 0) (ha : a < maxVa)
    (hQ : ∀ b, (b = true ↔ g.Mapped r (a / pgSize)) → Q b s) : wp (ismapped r a) Q E s := by
  simp only [ismapped, wp_bind]
  refine wp_walk hI.tree hr ha (fun b _ hpte => ?_) fun h₀ => ?_
  · simp only [readPte, wp_bind, wp_get, wp_pure, hpte]
    exact hQ _ Iff.rfl
  · rw [wp_pure]
    refine hQ false (iff_of_false (by simp) ?_)
    unfold View.Mapped
    rw [h₀, not_has_zero]
    simp

theorem vmfault_spec {P : Proc} (hI : Inv top g s) (hr : g.role P.pagetable = .table P.pagetable 2 0)
    (hsz : npages P.sz ≤ top) (htop : top * pgSize ≤ maxVa) :
    wp (vmfault P P.pagetable a) (Faulted top g s P.pagetable P.sz a) E s := by
  simp only [vmfault]
  by_cases hlt : P.sz ≤ a
  · rw [if_pos hlt, wp_pure]
    exact .refused (.refl hI _ _) (.inl hlt)
  · rw [if_neg hlt]
    have hv : a / pgSize < top := by
      have h₁ := npages_le_iff.1 hsz
      exact (Nat.div_lt_iff_lt_mul (by decide)).2 (by omega)
    have hva : a / pgSize * pgSize < maxVa := Nat.lt_of_lt_of_le (Nat.mul_lt_mul_of_pos_right hv (by decide)) htop
    simp only [pgRoundDown, wp_bind]
    refine wp_ismapped hI hr hva fun b hb => ?_
    rw [mul_pgSize_div] at hb
    cases b with
    | false =>
        have hm : ¬ g.Mapped P.pagetable (a / pgSize) := fun hm => by cases hb.2 hm
        simp only [Bool.false_eq_true, if_false]
        refine wp_post (lazyFault_spec hI hr hva hv hm) ?_
        rintro res t (⟨rfl, hk, h, hs⟩ | ⟨p, h, rfl, hadd⟩)
        · exact .refused hs (.inr (.inr hk))
        · exact .added (Nat.not_le.1 hlt) hm hadd
    | true =>
        have hm : g.Mapped P.pagetable (a / pgSize) := hb.1 rfl
        simp only [if_true, wp_bind]
        refine wp_walk hI.tree hr hva ?_ ?_ <;> rw [mul_pgSize_div]
        · intro b ha hpte
          simp only [readPte, wp_bind, wp_get, wp_pure, hpte]
          cases hcow : (g.leaf P.pagetable (a / pgSize)).has pteCow with
          | false =>
              simp only [Bool.false_eq_true, if_false, wp_pure]
              exact .refused (.refl hI _ _) (.inr (.inl ⟨hm, hcow⟩))
          | true =>
              simp only [if_true]
              refine wp_post (cowFault_spec hI ha hv hm) ?_
              rintro res t (⟨rfl, hk, h, hs⟩ | ⟨p, h, rfl, hcopy⟩)
              · exact .refused hs (.inr (.inr hk))
              · exact .copied (Nat.not_le.1 hlt) hm hcow hcopy
        · intro h₀
          unfold View.Mapped at hm
          rw [h₀, not_has_zero] at hm
          cases hm

/-! ## What a user sees of it -/

/-- The byte at an address; a page that is not there yet reads as zero. -/
def View.byte (g : View) (s : Ram) (r a : Nat) : BitVec 8 :=
  if g.Mapped r (a / pgSize) then s.mem (g.page r (a / pgSize)) (a % pgSize) else 0

/-- How faults change an entry. -/
inductive Refreshed (x : Pte) : Pte → Prop
  | same : Refreshed x x
  | added {p : Nat} (hp : IsPage p) (hx : x.has pteV = false) : Refreshed x (pa2pte p ||| lazyPerm ||| pteV)
  | copied {p : Nat} (hp : IsPage p) (hx : x.has pteV = true) (hc : x.has pteCow = true) :
      Refreshed x (pa2pte p ||| unshare x ||| pteV)

theorem has_pteCow_make (p : Nat) (perm : Pte) : (pa2pte p ||| perm ||| pteV).has pteCow = perm.has pteCow := by
  rw [has_pteCow, has_pteCow, BitVec.or_assoc, getLsbD_make (by omega), BitVec.getLsbD_or, getLsbD_pteV]
  simp

/-- After a fault there is nothing left to do for the entry. -/
theorem Refreshed.trans {y z : Pte} (h₁ : Refreshed x y) (h₂ : Refreshed y z) : Refreshed x z := by
  cases h₁ with
  | same => exact h₂
  | added hp hx =>
      cases h₂ with
      | same => exact .added hp hx
      | added _ hy =>
          rw [make_perm_has_pteV] at hy
          cases hy
      | copied _ _ hc =>
          rw [has_pteCow_make] at hc
          exact absurd hc (by decide)
  | copied hp hx hc =>
      cases h₂ with
      | same => exact .copied hp hx hc
      | added _ hy =>
          rw [make_perm_has_pteV] at hy
          cases hy
      | copied _ _ hc' =>
          rw [has_pteCow_make, unshare_has_pteCow] at hc'
          cases hc'

/-- Pages of `r` below `n` have been faulted in or copied; no byte that a user sees has changed. -/
structure Touched (top r n : Nat) (g : View) (s : Ram) (h : View) (t : Ram) : Prop
    extends Change top {r} (pages r 0 n) g s h t where
  entry : ∀ v, Refreshed (g.leaf r v) (h.leaf r v)
  byte : ∀ a, a / pgSize < top → h.byte t r a = g.byte s r a

theorem Touched.refl (hI : Inv top g s) (r n : Nat) : Touched top r n g s g s :=
  ⟨.refl hI {r} _, fun _ => .same, fun _ _ => rfl⟩

theorem Touched.trans (hf : Touched top r n f s g t) (hg : Touched top r n g t h u) : Touched top r n f s h u :=
  ⟨hf.toChange.trans hg.toChange, fun v => (hf.entry v).trans (hg.entry v),
    fun a ha => (hg.byte a ha).trans (hf.byte a ha)⟩

theorem Frame.byte {X : Nat → Nat → Prop} (hf : Frame top X g s h t) (hn : ¬ X r (a / pgSize)) (hv : a / pgSize < top) :
    h.byte t r a = g.byte s r a := by
  unfold View.byte
  by_cases hm : g.Mapped r (a / pgSize)
  · rw [if_pos hm, if_pos ((hf.mapped hn).2 hm), hf.page hn, hf.mem r _ hn hv hm]
  · rw [if_neg hm, if_neg fun h₁ => hm ((hf.mapped hn).1 h₁)]

theorem byte_make (hp : IsPage p) (hperm : IsPerm perm) (hl : h.leaf r (a / pgSize) = pa2pte p ||| perm ||| pteV) :
    h.byte t r a = t.mem p (a % pgSize) := by
  have hm : h.Mapped r (a / pgSize) := by
    unfold View.Mapped
    rw [hl]
    exact make_perm_has_pteV _ _
  unfold View.byte View.page
  rw [if_pos hm, hl, pte2pa_make_perm hp hperm]

theorem lt_npages : v < npages sz ↔ v * pgSize < sz := by
  rw [← Nat.not_le, npages_le_iff, Nat.not_le]

theorem div_lt_npages (ha : a < sz) : a / pgSize < npages sz :=
  lt_npages.2 (Nat.lt_of_le_of_lt (Nat.div_mul_le_self a pgSize) ha)

theorem Touched.of_same (hs : Same top {r} g s h t) (n : Nat) : Touched top r n g s h t where
  toChange := hs.mono (Set.Subset.refl _) fun _ _ hx => hx.elim
  entry v := by
    rw [hs.frame.leaf r v id]
    exact .same
  byte _ ha := hs.frame.byte id ha

theorem Touched.of_one (hc : Change top {r} (one r v) g s h t) (hv : v < n) (he : Refreshed (g.leaf r v) (h.leaf r v))
    (hb : ∀ a, a / pgSize = v → h.byte t r a = g.byte s r a) : Touched top r n g s h t where
  toChange := hc.mono (Set.Subset.refl _) fun r' v' ⟨h₁, h₂⟩ => ⟨h₁, Nat.zero_le _, h₂ ▸ hv⟩
  entry v' := by
    by_cases hv' : v' = v
    · rw [hv']
      exact he
    · rw [hc.frame.leaf r v' fun hx => hv' hx.2]
      exact .same
  byte a ha := by
    by_cases hav : a / pgSize = v
    · exact hb a hav
    · exact hc.frame.byte (fun hx => hav hx.2) ha

theorem PageAdded.touched (hadd : PageAdded top g s r v p lazyPerm h t) (hz : ¬ g.Mapped r v) (hv : v < n) :
    Touched top r n g s h t := by
  refine .of_one hadd.toChange hv ?_ fun b hb => ?_
  · rw [hadd.leaf]
    exact .added hadd.page (Bool.eq_false_iff.2 hz)
  · have hz' : ¬ g.Mapped r (b / pgSize) := by rw [hb]; exact hz
    rw [byte_make hadd.page isPerm_lazyPerm (by rw [hb]; exact hadd.leaf), hadd.zero]
    unfold View.byte
    rw [if_neg hz']

theorem PageAdded.mapped {perm : Pte} (hadd : PageAdded top g s r v p perm h t) : h.Mapped r v := by
  unfold View.Mapped
  rw [hadd.leaf]
  exact make_perm_has_pteV _ _

theorem Faulted.touched {res : Option Nat} (hf : Faulted top g s r sz a res t) :
    ∃ h, Touched top r (npages sz) g s h t ∧
      ∀ p, res = some p → a < sz ∧ h.Mapped r (a / pgSize) ∧ h.page r (a / pgSize) = p ∧
        (g.Mapped r (a / pgSize) → (g.leaf r (a / pgSize)).has pteCow = true) := by
  cases hf with
  | refused hs why => exact ⟨_, .of_same hs _, fun p hp => by cases hp⟩
  | @added p h _ lt hz hadd =>
      refine ⟨h, hadd.touched hz (div_lt_npages lt), ?_⟩
      rintro q ⟨⟩
      refine ⟨lt, hadd.mapped, ?_, fun hm => absurd hm hz⟩
      unfold View.page
      rw [hadd.leaf, pte2pa_make_perm hadd.page isPerm_lazyPerm]
  | @copied p h _ lt hm hcow hcopy =>
      refine ⟨h, .of_one hcopy.toChange (div_lt_npages lt) ?_ ?_, ?_⟩
      · rw [hcopy.leaf]
        exact .copied hcopy.page hm hcow
      · intro b hb
        have hm' : g.Mapped r (b / pgSize) := by rw [hb]; exact hm
        rw [byte_make hcopy.page (isPerm_unshare _) (by rw [hb]; exact hcopy.leaf), hcopy.mem]
        unfold View.byte
        rw [if_pos hm', hb]
      · rintro q ⟨⟩
        refine ⟨lt, ?_, ?_, fun _ => hcow⟩
        · unfold View.Mapped
          rw [hcopy.leaf]
          exact make_perm_has_pteV _ _
        · unfold View.page
          rw [hcopy.leaf, pte2pa_make_perm hcopy.page (isPerm_unshare _)]

end Xv6.Vm
