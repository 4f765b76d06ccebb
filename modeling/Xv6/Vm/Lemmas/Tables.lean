import Xv6.Vm.Lemmas.Boot
import Xv6.Vm.Lemmas.Map
import Xv6.Vm.Tables

/-!
# Page tables as finite maps: the operations

No entry is counted here (`Inv 0`): an entry may name any page, and the references to pages are those
the callers hold. Each operation is stated by what it does to the entries of the view.
-/

namespace Xv6.Vm

open Xv6.Lib Function

variable {top : Nat} {f g h : View} {s t u : Ram} {a p q r v va k l i j n lo pa size : Nat} {x perm : Pte}
  {doFree : Bool} {E : Stop → Ram → Prop}

/-! ## Reading a table -/

theorem wp_walkFrom_lowest (s : Ram) (va l a : Nat) :
    wp (walkFrom va false l a)
      (fun res t => res = (s.lowest (va / pgSize) l a).map (fun t => (t, va / pgSize % 512)) ∧ t = s)
      (fun _ _ => False) s := by
  induction l generalizing a with
  | zero =>
      simp only [walkFrom, wp_pure, px_eq, Nat.pow_zero, Nat.div_one, Ram.lowest, Option.map_some, and_self]
  | succ l ih =>
      simp only [walkFrom, readPte, wp_bind, wp_get, wp_pure, px_eq, Ram.lowest]
      cases (s.pte a (va / pgSize / 512 ^ (l + 1) % 512)).has pteV with
      | true => exact ih _
      | false => exact ⟨rfl, rfl⟩

/-- A look-up changes nothing and finds the place of the entry. -/
theorem walk_eq_slot (hva : va < maxVa) : walk r va false s = .ok (s.slot r (va / pgSize)) s := by
  obtain ⟨res, t, hw, hres, rfl⟩ := wp_returns (wp_walkFrom_lowest s va 2 r)
  unfold walk
  rw [if_neg (by omega), hw, hres]
  rfl

theorem page_lt (hv : v < maxVa / pgSize) : v * pgSize < maxVa := by
  have h₁ : maxVa / pgSize * pgSize = maxVa := rfl
  rw [← h₁]
  exact Nat.mul_lt_mul_of_pos_right hv (by decide)

/-- Where the entry for `v` lies in a tree. -/
inductive SlotOf (g : View) (s : Ram) (r v : Nat) : Option (Nat × Nat) → Prop
  | found (a : Nat) (table : g.role a = .table r 0 (v / 512)) (entry : s.pte a (v % 512) = g.leaf r v) :
      SlotOf g s r v (some (a, v % 512))
  | missing (entry : g.leaf r v = 0) : SlotOf g s r v none

theorem Tree.slotOf (ht : Tree g s) (hr : g.role r = .table r 2 0) (hv : v < maxVa / pgSize) :
    SlotOf g s r v (s.slot r v) := by
  have hw : wp (walk r (v * pgSize) false) (fun res _ => SlotOf g s r v res) (fun _ _ => True) s := by
    refine wp_walk ht hr (page_lt hv) ?_ ?_ <;> rw [mul_pgSize_div]
    · intro a h₁ h₂
      exact .found a h₁ h₂
    · intro h₀
      exact .missing h₀
  have h₁ := wp_ok hw (walk_eq_slot (page_lt hv))
  rwa [mul_pgSize_div] at h₁

@[simp] theorem decode_zero : (0 : Pte).decode = none := by
  unfold Pte.decode
  rw [not_has_zero]
  rfl

theorem Tree.table_eq (ht : Tree g s) (hr : g.role r = .table r 2 0) :
    s.table r = fun v => if v < maxVa / pgSize then (g.leaf r v).decode else none := by
  funext v
  unfold Ram.table
  split
  · rename_i hv
    have h₁ := ht.slotOf hr hv
    cases hs : s.slot r v with
    | none =>
        rw [hs] at h₁
        cases h₁ with
        | missing h₂ => rw [h₂, decode_zero]; rfl
    | some x =>
        rw [hs] at h₁
        cases h₁ with
        | found a _ h₂ => rw [← h₂]; rfl
  · rfl

theorem Tree.slot_inj {r' v' : Nat} {y : Nat × Nat} (ht : Tree g s) (hr : g.role r = .table r 2 0)
    (hr' : g.role r' = .table r' 2 0) (hv : v < maxVa / pgSize) (hv' : v' < maxVa / pgSize)
    (h : s.slot r v = some y) (h' : s.slot r' v' = some y) : r = r' ∧ v = v' := by
  have h₁ := ht.slotOf hr hv
  have h₂ := ht.slotOf hr' hv'
  rw [h] at h₁
  rw [h'] at h₂
  cases h₁ with
  | found a ha _ =>
      generalize hy : (a, v % 512) = y at h₂
      cases h₂ with
      | found a' ha' _ =>
          obtain ⟨rfl, hm⟩ := Prod.mk.inj hy
          rw [ha] at ha'
          injection ha' with h₃ _ h₄
          exact ⟨h₃, by omega⟩

/-! ## Page-table pages that are missing -/

theorem Tree.node (ht : Tree g s) (hr : g.role r = .table r 2 0) {d : Nat} (hd : d ≤ 2) (hk : k < 512 ^ d) :
    (∃ p, s.node r d k = some p ∧ g.role p = .table r (2 - d) k) ∨ s.node r d k = none ∧ (2 - d, k) ∉ g.tables r := by
  induction d generalizing k with
  | zero =>
      obtain rfl : k = 0 := by simpa using hk
      exact .inl ⟨r, rfl, hr⟩
  | succ d ih =>
      have hl : 2 - d = 2 - (d + 1) + 1 := by omega
      have hdiv : k / 512 < 512 ^ d := by
        rw [Nat.div_lt_iff_lt_mul (by decide), ← Nat.pow_succ]
        exact hk
      rcases ih (by omega) hdiv with ⟨t, hnode, hrole⟩ | ⟨hnode, hno⟩
      · rw [hl] at hrole
        rw [Ram.node, hnode, Option.bind_some]
        cases hv : (s.pte t (k % 512)).has pteV with
        | true =>
            obtain ⟨p, hpte, hp⟩ := ht.child _ _ _ _ _ hrole (Nat.mod_lt _ (by decide)) hv
            rw [Nat.div_add_mod] at hp
            have hpage : pte2pa (s.pte t (k % 512)) = p := by
              rw [hpte]
              exact pte2pa_make (ht.isPage (by rw [hp]; simp)) (by decide)
            exact .inl ⟨p, by simp [hpage, hv], hp⟩
        | false =>
            refine .inr ⟨by simp [hv], fun ⟨q, hq⟩ => ?_⟩
            rw [ht.parent_valid hq hrole] at hv
            cases hv
      · refine .inr ⟨by rw [Ram.node, hnode, Option.bind_none], fun ⟨q, hq⟩ => hno ?_⟩
        obtain ⟨t, hrole, -⟩ := ht.parent _ _ _ _ hq (by omega)
        rw [← hl] at hrole
        exact ⟨t, hrole⟩

theorem Tree.node_none (ht : Tree g s) (hr : g.role r = .table r 2 0) {d : Nat} (hd : d ≤ 2) (hk : k < 512 ^ d) :
    s.node r d k = none ↔ (2 - d, k) ∉ g.tables r := by
  rcases ht.node hr hd hk with ⟨p, hnode, hrole⟩ | ⟨hnode, hno⟩
  · rw [hnode]
    exact iff_of_false (by simp) fun hno => hno ⟨p, hrole⟩
  · exact iff_of_true hnode hno

theorem Tree.tablesNeeded_eq (ht : Tree g s) (hr : g.role r = .table r 2 0) {V : Finset Nat}
    (hV : ∀ v ∈ V, v < maxVa / pgSize) : s.tablesNeeded r V = (span (V : Set Nat) \ g.tables r).ncard := by
  have hlow : ∀ v ∈ V, v / 512 < 512 ^ 2 ∧ v / 512 ^ 2 < 512 ^ 1 := fun v hv => by
    have h₁ : maxVa / pgSize = 2 ^ 26 := by decide
    have h₂ := hV v hv
    omega
  have hset : span (V : Set Nat) \ g.tables r =
      Prod.mk 1 '' (((V.image (· / 512 ^ 2)).filter fun k => s.node r 1 k = none : Finset Nat) : Set Nat) ∪
      Prod.mk 0 '' (((V.image (· / 512)).filter fun k => s.node r 2 k = none : Finset Nat) : Set Nat) := by
    ext ⟨l, k⟩
    simp only [Set.mem_union, Set.mem_image, Finset.coe_filter, Finset.mem_image, Set.mem_ofPred_eq, Prod.mk.injEq]
    constructor
    · rintro ⟨⟨v, hv, (hl : l < 2), (hk : k = v / 512 ^ (l + 1))⟩, hno⟩
      have hv' : v ∈ V := hv
      have hcases : l = 0 ∨ l = 1 := by omega
      rcases hcases with rfl | rfl
      · rw [Nat.zero_add, Nat.pow_one] at hk
        subst hk
        exact .inr ⟨_, ⟨⟨v, hv', rfl⟩, (ht.node_none hr (Nat.le_refl 2) (hlow v hv').1).2 hno⟩, rfl, rfl⟩
      · subst hk
        exact .inl ⟨_, ⟨⟨v, hv', rfl⟩, (ht.node_none hr (Nat.le_succ 1) (hlow v hv').2).2 hno⟩, rfl, rfl⟩
    · rintro (⟨_, ⟨⟨v, hv, rfl⟩, hnode⟩, rfl, rfl⟩ | ⟨_, ⟨⟨v, hv, rfl⟩, hnode⟩, rfl, rfl⟩)
      · exact ⟨⟨v, hv, Nat.one_lt_two, rfl⟩, (ht.node_none hr (Nat.le_succ 1) (hlow v hv).2).1 hnode⟩
      · exact ⟨⟨v, hv, Nat.two_pos, (by rw [Nat.zero_add, Nat.pow_one])⟩, (ht.node_none hr (Nat.le_refl 2) (hlow v hv).1).1 hnode⟩
  have hinj : ∀ l : Nat, Function.Injective (Prod.mk l : Nat → Nat × Nat) := fun l a b h => (Prod.mk.inj h).2
  rw [hset, Set.ncard_union_eq ?_ (Set.toFinite _) (Set.toFinite _), Set.ncard_image_of_injective _ (hinj 1),
    Set.ncard_image_of_injective _ (hinj 0), Set.ncard_coe_finset, Set.ncard_coe_finset]
  · rfl
  · rw [Set.disjoint_left]
    rintro _ ⟨a, -, rfl⟩ ⟨b, -, hb⟩
    cases hb

theorem Tree.pagesNeeded_eq {hi : Nat} (ht : Tree g s) (hr : g.role r = .table r 2 0) (lo : Nat) (hhi : hi ≤ maxVa / pgSize) :
    s.pagesNeeded r lo hi + (g.tables r).ncard = hi - lo + (g.tables r ∪ span (Set.Ico lo hi)).ncard := by
  have hfin : (span (Set.Ico lo hi)).Finite := finite_span (Set.finite_Ico lo hi)
  have h₁ := ht.tablesNeeded_eq hr (V := Finset.Ico lo hi) fun v hv => Nat.lt_of_lt_of_le (Finset.mem_Ico.1 hv).2 hhi
  rw [Finset.coe_Ico] at h₁
  unfold Ram.pagesNeeded
  rw [h₁, ← Set.union_sdiff_self, Set.ncard_union_eq Set.disjoint_sdiff_right (ht.finite_tables r) hfin.sdiff]
  omega

/-! ## Mapping pages -/

theorem pa2pte_mod_add (b c : Nat) : pa2pte (b % 2 ^ 64 + c) = pa2pte (b + c) := by
  unfold pa2pte
  have h₁ : BitVec.ofNat 64 (b % 2 ^ 64 + c) = BitVec.ofNat 64 (b + c) := by
    apply BitVec.eq_of_toNat_eq
    rw [BitVec.toNat_ofNat, BitVec.toNat_ofNat, Nat.mod_add_mod]
  rw [h₁]

/-- The entry that `mappages` writes for the page `v`, where `lo` is mapped to `pa`. -/
def madeEntry (lo pa : Nat) (perm : Pte) (v : Nat) : Pte :=
  pa2pte (pa + (v - lo) * pgSize) ||| perm ||| pteV

/-- `j` pages from `lo` on have been mapped. -/
structure Extended (g : View) (r lo j pa : Nat) (perm : Pte) (h : View) (t : Ram) : Prop where
  inv : Inv 0 h t
  unmapped : ∀ v, lo ≤ v → v < lo + j → ¬ g.Mapped r v
  leaf : ∀ r' v, h.leaf r' v =
    if r' = r ∧ lo ≤ v ∧ v < lo + j then madeEntry lo pa perm v else g.leaf r' v
  roots : h.roots = g.roots
  leak : h.leak = g.leak

theorem Extended.cons (hg : Extended g r v 1 pa perm h t)
    (he : Extended h r (v + 1) j ((pa + pgSize) % 2 ^ 64) perm f u) : Extended g r v (j + 1) pa perm f u where
  inv := he.inv
  unmapped v' h₁ h₂ := by
    by_cases hv : v' = v
    · exact hg.unmapped v' h₁ (by omega)
    · have h₃ := he.unmapped v' (by omega) (by omega)
      unfold View.Mapped at h₃ ⊢
      rwa [hg.leaf, if_neg (by omega)] at h₃
  leaf r' v' := by
    rw [he.leaf r' v', hg.leaf r' v']
    by_cases hc : r' = r ∧ v + 1 ≤ v' ∧ v' < v + 1 + j
    · obtain ⟨rfl, h₁, h₂⟩ := hc
      rw [if_pos ⟨rfl, h₁, h₂⟩, if_pos ⟨rfl, by omega, by omega⟩]
      have h₃ : pa + pgSize + (v' - (v + 1)) * pgSize = pa + (v' - v) * pgSize := by
        have h₄ : v' - v = v' - (v + 1) + 1 := by omega
        rw [h₄, Nat.add_mul, Nat.one_mul]
        omega
      unfold madeEntry
      rw [pa2pte_mod_add, h₃]
    · rw [if_neg hc]
      by_cases hv : r' = r ∧ v' = v
      · rw [if_pos ⟨hv.1, by omega, by omega⟩, if_pos ⟨hv.1, by omega, by omega⟩]
      · rw [if_neg (by omega), if_neg (by omega)]
  roots := he.roots.trans hg.roots
  leak := he.leak.trans hg.leak

theorem Extended.nil (hI : Inv 0 h t) (hg : Grow r g s h t) (lo pa : Nat) (perm : Pte) :
    Extended g r lo 0 pa perm h t where
  inv := hI
  unmapped v h₁ h₂ := by omega
  leaf r' v := by rw [hg.leaf, if_neg (by omega)]
  roots := hg.roots
  leak := hg.leak

theorem Extended.one (hI : Inv 0 h t) (hg : Grow r g s h t) (ha : h.role a = .table r 0 (v / 512))
    (hm : ¬ g.Mapped r v) (pa : Nat) (perm : Pte) :
    Extended g r v 1 pa perm (h.setLeaf r v (pa2pte pa ||| perm ||| pteV))
      (t.setPte a (v % 512) (pa2pte pa ||| perm ||| pteV)) where
  inv := hI.setHigh ha (Nat.zero_le v) (.inl (make_perm_has_pteV pa perm))
  unmapped v' h₁ h₂ := by
    have h₃ : v' = v := by omega
    rw [h₃]
    exact hm
  leaf r' v' := by
    by_cases hv : r' = r ∧ v' = v
    · obtain ⟨rfl, rfl⟩ := hv
      rw [if_pos ⟨rfl, by omega, by omega⟩, setLeaf_leaf_self]
      unfold madeEntry
      rw [Nat.sub_self, Nat.zero_mul, Nat.add_zero]
    · rw [if_neg (by omega), setLeaf_leaf_of_ne (by omega), hg.leaf]
  roots := hg.roots
  leak := hg.leak

theorem mappagesLoop_first {Q : Int → Ram → Prop} (hI : Inv 0 g s) (hr : g.role r = .table r 2 0)
    (hv : v < maxVa / pgSize) (hfail : ∀ h t, Extended g r v 0 pa perm h t → Q (-1) t)
    (hlast : ∀ h t, n = 0 → Extended g r v 1 pa perm h t → Q 0 t)
    (hnext : ∀ h t m, n = m + 1 → Extended g r v 1 pa perm h t →
      wp (mappagesLoop r perm m ((v * pgSize + pgSize) % 2 ^ 64) ((pa + pgSize) % 2 ^ 64)) Q
        (fun _ _ => True) t) :
    wp (mappagesLoop r perm n (v * pgSize) pa) Q (fun _ _ => True) s := by
  unfold mappagesLoop
  rw [wp_bind]
  have hw := walk_alloc (E := fun _ _ => True) hI hr (page_lt hv)
  rw [mul_pgSize_div] at hw
  refine wp_post hw ?_
  rintro res t ⟨h, hI', hg, -, ⟨rfl, -⟩ | ⟨a, rfl, ha⟩⟩
  · exact hfail h t (.nil hI' hg v pa perm)
  · simp only [readPte, writePte, wp_bind, wp_get, wp_pure]
    refine wp_ite (fun _ => trivial) fun hv => ?_
    rw [wp_bind, wp_modify]
    have hm : ¬ g.Mapped r v := by
      rw [hI'.tree.leaf _ _ _ _ ha (Nat.mod_lt _ (by omega)), Nat.div_add_mod, hg.leaf] at hv
      exact hv
    have he := Extended.one hI' hg ha hm pa perm
    cases n with
    | zero => exact hlast _ _ rfl he
    | succ m => exact hnext _ _ m rfl he

/-- The loop of `mappages` maps its pages one after the other, and stops early where memory runs
out. -/
theorem mappagesLoop_spec (hI : Inv 0 g s) (hr : g.role r = .table r 2 0)
    (hv : v + n < maxVa / pgSize) :
    wp (mappagesLoop r perm n (v * pgSize) pa)
      (fun res t => ∃ j h, Extended g r v j pa perm h t ∧ (res = 0 → j = n + 1)) (fun _ _ => True) s := by
  induction n generalizing g s v pa with
  | zero =>
      refine mappagesLoop_first hI hr hv (fun h t he => ?_) (fun h t _ he => ?_) fun _ _ _ hn => by cases hn
      · exact ⟨0, h, he, fun h₀ => by cases h₀⟩
      · exact ⟨1, h, he, fun _ => rfl⟩
  | succ n ih =>
      refine mappagesLoop_first hI hr (by omega) (fun h t he => ?_) (fun h t hn => by cases hn) ?_
      · exact ⟨0, h, he, fun h₀ => by cases h₀⟩
      · intro h t m hm he
        cases hm
        have hva : (v * pgSize + pgSize) % 2 ^ 64 = (v + 1) * pgSize := by
          have h₁ := page_lt (v := v + 1) (by omega)
          rw [Nat.add_mul, Nat.one_mul] at h₁ ⊢
          unfold maxVa at h₁
          exact Nat.mod_eq_of_lt (by omega)
        rw [hva]
        refine wp_post (ih he.inv (root_of_roots he.roots hr) (by omega)) ?_
        rintro res u ⟨j, f, he', hj⟩
        exact ⟨j + 1, f, he.cons he', fun h₀ => by rw [hj h₀]⟩

theorem mappages_loop (ha : va % pgSize = 0) (hs : 0 < size) (hle : va + size ≤ maxVa) (r pa : Nat)
    (perm : Pte) :
    ∃ n, npages size = n + 1 ∧ va / pgSize + n < maxVa / pgSize ∧
      mappages r va size pa perm = mappagesLoop r perm n (va / pgSize * pgSize) pa := by
  unfold maxVa at hle
  unfold pgSize at ha
  refine ⟨npages size - 1, ?_, ?_, ?_⟩
  · unfold npages pgSize
    omega
  · unfold npages pgSize maxVa
    omega
  · have h₁ : pgRoundDown ((va + size + (2 ^ 64 - 1)) % 2 ^ 64) = va + (npages size - 1) * pgSize := by
      unfold pgRoundDown npages pgSize
      omega
    have h₂ : (va + (npages size - 1) * pgSize + (2 ^ 64 - pgRoundDown va)) % 2 ^ 64 / pgSize =
        npages size - 1 := by
      unfold pgRoundDown npages pgSize
      omega
    unfold mappages
    simp only [h₁, h₂]
    rfl

theorem mappages_extends (hI : Inv 0 g s) (hr : g.role r = .table r 2 0) (ha : va % pgSize = 0)
    (hs : 0 < size) (hle : va + size ≤ maxVa) :
    wp (mappages r va size pa perm)
      (fun res t => ∃ j h, Extended g r (va / pgSize) j pa perm h t ∧ (res = 0 → j = npages size))
      (fun _ _ => True) s := by
  obtain ⟨n, hn, hlt, he⟩ := mappages_loop ha hs hle r pa perm
  rw [he, hn]
  exact mappagesLoop_spec hI hr hlt

/-- What the entries that `mappages` writes stand for, where the pages fit an entry. -/
theorem madeEntry_decode (hp : pa % pgSize = 0) (hlt : pa + (v - lo) * pgSize < 2 ^ 56)
    (hperm : IsPerm perm) :
    (madeEntry lo pa perm v).decode = some (pa + (v - lo) * pgSize, perm ||| pteV) := by
  have hpage : IsPage (pa + (v - lo) * pgSize) := ⟨by rw [Nat.add_mul_mod_self_right]; exact hp, hlt⟩
  unfold Pte.decode madeEntry
  rw [make_perm_has_pteV, if_pos rfl, pte2pa_make_perm hpage hperm, BitVec.or_assoc,
    pteFlags_make hpage (hperm.or (by decide))]

/-! ## Unmapping pages -/

/-- The references to `p` that unmapping the `n` pages from `lo` on gives back. -/
def View.given (g : View) (r lo n : Nat) (doFree : Bool) (p : Nat) : Nat :=
  if doFree ∧ kernBase ≤ p ∧ p < physTop then
    (List.range' lo n).countP fun v => g.Mapped r v ∧ g.page r v = p
  else 0

theorem View.given_succ (g : View) (r lo n : Nat) (doFree : Bool) (p : Nat) :
    g.given r lo (n + 1) doFree p = g.given r lo n doFree p + g.given r (lo + n) 1 doFree p := by
  unfold View.given
  split
  · rw [List.range'_concat, List.countP_append, Nat.one_mul]
    rfl
  · rfl

theorem View.given_mono (g : View) (r lo : Nat) (doFree : Bool) (p : Nat) {m n : Nat} (h : m ≤ n) :
    g.given r lo m doFree p ≤ g.given r lo n doFree p := by
  induction h with
  | refl => exact Nat.le_refl _
  | step _ ih =>
      rw [View.given_succ]
      exact Nat.le_trans ih (Nat.le_add_right _ _)

theorem View.given_one (g : View) (r v : Nat) (doFree : Bool) (p : Nat) :
    g.given r v 1 doFree p =
      if (doFree ∧ kernBase ≤ p ∧ p < physTop) ∧ g.Mapped r v ∧ g.page r v = p then 1 else 0 := by
  unfold View.given
  by_cases h₁ : doFree ∧ kernBase ≤ p ∧ p < physTop
  · by_cases h₂ : g.Mapped r v ∧ g.page r v = p
    · simp [h₁, h₂]
    · rw [if_pos h₁, if_neg fun h => h₂ h.2]
      simpa using h₂
  · rw [if_neg h₁, if_neg fun h => h₁ h.1]

/-- `n` pages from `lo` on have been unmapped. -/
structure Removed (g : View) (r lo n : Nat) (doFree : Bool) (h : View) (t : Ram) : Prop where
  inv : Inv 0 h t
  leaf : ∀ r' v, h.leaf r' v = if r' = r ∧ lo ≤ v ∧ v < lo + n then 0 else g.leaf r' v
  roots : h.roots = g.roots
  leak : ∀ p, h.leak p = g.leak p - g.given r lo n doFree p

theorem setLeaf_zero_leaf (g : View) (r v r' v' : Nat) :
    (g.setLeaf r v 0).leaf r' v' = if r' = r ∧ v ≤ v' ∧ v' < v + 1 then 0 else g.leaf r' v' := by
  by_cases hv : r' = r ∧ v' = v
  · obtain ⟨rfl, rfl⟩ := hv
    rw [if_pos ⟨rfl, by omega, by omega⟩, setLeaf_leaf_self]
  · rw [if_neg (by omega), setLeaf_leaf_of_ne (by omega)]

theorem Removed.same (hI : Inv 0 g s) (h₀ : g.leaf r v = 0) (doFree : Bool) : Removed g r v 1 doFree g s where
  inv := hI
  leaf r' v' := by
    split
    · rename_i hv
      obtain ⟨rfl, h₁, h₂⟩ := hv
      have h₃ : v' = v := by omega
      rw [h₃, h₀]
    · rfl
  roots := rfl
  leak p := by
    have hm : ¬ g.Mapped r v := by
      unfold View.Mapped
      rw [h₀, not_has_zero]
      simp
    rw [View.given_one, if_neg fun h => hm h.2.1, Nat.sub_zero]

theorem unmapPage_spec (hI : Inv 0 g s) (hr : g.role r = .table r 2 0) (hv : v < maxVa / pgSize)
    (hheld : ∀ p, g.given r v 1 doFree p ≤ g.leak p) :
    wp (unmapPage r (v * pgSize) doFree) (fun _ t => ∃ h, Removed g r v 1 doFree h t) E s := by
  simp only [unmapPage, wp_bind]
  refine wp_walk hI.tree hr (page_lt hv) ?_ ?_ <;> rw [mul_pgSize_div]
  · intro a ha hpte
    simp only [readPte, wp_bind, wp_get, wp_pure]
    rw [hpte]
    have hI₁ := hI.setHigh ha (Nat.zero_le v) (x := 0) (.inr rfl)
    cases hm : (g.leaf r v).has pteV with
    | false =>
        exact ⟨g, .same hI ((hI.tree.clean r v).resolve_left (by unfold View.Mapped; rw [hm]; simp)) _⟩
    | true =>
        by_cases hf : doFree ∧ kernBase ≤ pte2pa (g.leaf r v) ∧ pte2pa (g.leaf r v) < physTop
        · obtain ⟨rfl, hrange⟩ := hf
          have hone : ∀ p, g.given r v 1 true p = if g.page r v = p then 1 else 0 := by
            intro p
            rw [View.given_one]
            by_cases hp : g.page r v = p
            · subst hp
              rw [if_pos ⟨⟨rfl, hrange⟩, hm, rfl⟩, if_pos rfl]
            · rw [if_neg fun h => hp h.2.2, if_neg hp]
          have hpos := hheld (g.page r v)
          rw [hone, if_pos rfl] at hpos
          obtain ⟨n, hn⟩ : ∃ n, g.leak (g.page r v) = n + 1 := ⟨_, (Nat.sub_add_cancel hpos).symm⟩
          have hu : g.role (g.page r v) = .user := by
            by_contra hc
            rw [hI.count.noLeak _ hc] at hn
            cases hn
          have hmg := managed_of_role hI.tree hu (by simp)
          simp only [Bool.not_true, Bool.false_eq_true, if_false, hrange, and_self, if_true]
          refine wp_kfree_writePte hI.tree.base hmg (ne_of_role ha hu (by simp)) _ _ ?_
          refine wp_kfree_user hI₁ (p := g.page r v) hu hn fun h t hd => ?_
          refine ⟨h, hd.inv, fun r' v' => ?_, hd.roots hu, fun p => ?_⟩
          · rw [hd.frame.leaf _ _ id]
            exact setLeaf_zero_leaf g r v r' v'
          · rw [hd.leak, hone]
            by_cases hp : g.page r v = p
            · subst hp
              rw [update_self, if_pos rfl, hn, Nat.add_sub_cancel]
            · rw [update_of_ne (Ne.symm hp), if_neg hp]
              rfl
        · simp only [Bool.not_true, Bool.false_eq_true, if_false, hf, writePte, wp_modify]
          refine ⟨_, hI₁, setLeaf_zero_leaf g r v, rfl, fun p => ?_⟩
          rw [View.given_one, if_neg, Nat.sub_zero]
          · rfl
          · rintro ⟨h₁, -, rfl⟩
            exact hf h₁
  · intro h₀
    exact ⟨g, .same hI h₀ _⟩

theorem Removed.given (hu : Removed g r lo i doFree h t) (p : Nat) :
    h.given r (lo + i) 1 doFree p = g.given r (lo + i) 1 doFree p := by
  have h₁ : h.leaf r (lo + i) = g.leaf r (lo + i) := by rw [hu.leaf, if_neg (by omega)]
  have h₂ : h.Mapped r (lo + i) ↔ g.Mapped r (lo + i) := by unfold View.Mapped; rw [h₁]
  have h₃ : h.page r (lo + i) = g.page r (lo + i) := by unfold View.page; rw [h₁]
  rw [View.given_one, View.given_one]
  simp only [h₂, h₃]

theorem Removed.snoc (hu : Removed g r lo i doFree h t) (hv : Removed h r (lo + i) 1 doFree f u) :
    Removed g r lo (i + 1) doFree f u where
  inv := hv.inv
  leaf r' v' := by
    rw [hv.leaf, hu.leaf]
    by_cases h₁ : r' = r ∧ lo ≤ v' ∧ v' < lo + (i + 1)
    · rw [if_pos h₁]
      split
      · rfl
      · rw [if_pos (by omega)]
    · rw [if_neg h₁, if_neg (by omega), if_neg (by omega)]
  roots := hv.roots.trans hu.roots
  leak p := by
    rw [hv.leak, hu.leak, hu.given, View.given_succ g r lo i, Nat.sub_sub]

theorem uvmunmap_spec (hI : Inv 0 g s) (hr : g.role r = .table r 2 0) (ha : va % pgSize = 0)
    (hle : va + n * pgSize ≤ maxVa) (hheld : ∀ p, g.given r (va / pgSize) n doFree p ≤ g.leak p) :
    wp (uvmunmap r va n doFree) (fun _ t => ∃ h, Removed g r (va / pgSize) n doFree h t) E s := by
  have hn : ((va + n * pgSize) % 2 ^ 64 - va) / pgSize = n := by
    unfold maxVa at hle
    unfold pgSize at *
    omega
  simp only [uvmunmap, ha, ne_eq, not_true_eq_false, if_false, hn]
  have hloop := wp_forN (E := E) (f := fun i => unmapPage r (va + i * pgSize) doFree)
    (fun i t => ∃ h, Removed g r (va / pgSize) i doFree h t) n 0 (s := s) ?_ ⟨g, hI, fun r' v => ?_, rfl, ?_⟩
  · rw [Nat.zero_add] at hloop
    exact hloop
  · rintro i t - hi ⟨h, hu⟩
    have hva : va + i * pgSize = (va / pgSize + i) * pgSize := by
      unfold pgSize at *
      omega
    rw [hva]
    refine wp_post (unmapPage_spec hu.inv (root_of_roots hu.roots hr) ?_ fun p => ?_) ?_
    · unfold pgSize at *
      omega
    · have h₁ := View.given_mono g r (va / pgSize) doFree p (m := i + 1) (n := n) (by omega)
      have h₂ := hheld p
      rw [View.given_succ g r _ i] at h₁
      rw [hu.given, hu.leak]
      omega
    · rintro _ u ⟨f, hf⟩
      exact ⟨f, hu.snoc hf⟩
  · rw [if_neg (by omega)]
  · intro p
    unfold View.given
    split <;> rfl

/-! ## The callers -/

/-- The view says which references the callers hold and which tables there are. -/
structure Tables.Of (g : View) (S : Tables) : Prop where
  inv : Inv 0 g S.ram
  roots : ∀ r, r ∈ S.roots ↔ g.role r = .table r 2 0
  held : ∀ p, S.held p = g.leak p

variable {S S' : Tables}

theorem Tables.exec_ok {α : Type} {m : K α} {κ : α → Ram → Tables} {Q : α → Ram → Prop} (h : wp m Q E S.ram)
    (hs : S.exec m κ = some (.ok S')) : ∃ a t, Q a t ∧ S' = κ a t := by
  unfold Tables.exec at hs
  cases hm : m S.ram with
  | ok a t =>
      rw [hm] at hs
      cases hs
      exact ⟨a, t, wp_ok h hm, rfl⟩
  | error e t =>
      rw [hm] at hs
      cases hs

theorem Tables.Of.user (hS : S.Of g) (hp : 0 < S.held p) : g.role p = .user := by
  by_contra hc
  rw [hS.held, hS.inv.count.noLeak _ hc] at hp
  exact Nat.lt_irrefl _ hp

/-- `uvmcreate` gives a page that was no table, or finds no memory. -/
theorem uvmcreate_spec (hI : Inv top g s) :
    wp uvmcreate (fun res t => match res with
      | none => Inv top g t
      | some p => g.role p = .free ∧ Inv top (g.setRole p (.table p 2 0)) t) E s := by
  simp only [uvmcreate, wp_bind]
  refine wp_kalloc hI (fun _ => ?_) fun p t ha => ?_
  · exact hI.setKfail
  · simp only [wp_bind, wp_modify, memset_zero ha.zero, wp_pure]
    have h₁ := ha.inv.newRoot (setRole_role_self _ _ _) ha.zero
    rw [setRole_setRole] at h₁
    exact ⟨ha.role, h₁⟩

theorem newRoot_role (hp : g.role p ≠ .table p 2 0) :
    (g.setRole p (.table p 2 0)).role r = .table r 2 0 ↔ r = p ∨ g.role r = .table r 2 0 := by
  by_cases hr : r = p
  · subst hr
    rw [setRole_role_self]
    exact iff_of_true rfl (.inl rfl)
  · rw [setRole_role_of_ne hr]
    exact (or_iff_right hr).symm

theorem given_eq (hS : S.Of g) (hr : r ∈ S.roots) (hle : va + n * pgSize ≤ maxVa) (doFree : Bool) (p : Nat) :
    S.given r va n doFree p = g.given r (va / pgSize) n doFree p := by
  unfold Tables.given View.given
  rw [hS.inv.tree.table_eq ((hS.roots r).1 hr)]
  split
  · refine List.countP_congr fun v hv => ?_
    rw [List.mem_range'_1] at hv
    have hv' : v < maxVa / pgSize := by
      unfold pgSize at *
      omega
    simp only [hv', if_true, decide_eq_true_eq]
    unfold Pte.decode View.Mapped View.page
    cases (g.leaf r v).has pteV with
    | true => simp
    | false => simp
  · rfl

theorem Tables.Of.step {act : TableAct} (hS : S.Of g) (hok : S.ok act) (hs : S.step act = some (.ok S')) :
    ∃ h, S'.Of h := by
  have hI := hS.inv
  cases act with
  | create =>
      obtain ⟨res, t, hQ, rfl⟩ := exec_ok (uvmcreate_spec (E := fun _ _ => True) hI) hs
      cases res with
      | none => exact ⟨g, hQ, hS.roots, hS.held⟩
      | some p =>
          obtain ⟨hfree, hI'⟩ := hQ
          refine ⟨_, hI', fun r => ?_, hS.held⟩
          rw [newRoot_role (by rw [hfree]; simp), ← hS.roots r]
          exact List.mem_cons
  | alloc =>
      have hk : wp kalloc (fun res t => match res with
          | none => Inv 0 g t
          | some p => g.role p = .free ∧ Inv 0 ((g.setRole p .user).setLeak p 1) t) (fun _ _ => True) S.ram := by
        refine wp_kalloc hI (fun _ => hI.setKfail) fun p t ha => ⟨ha.role, ?_⟩
        have h₁ := ha.inv.kernToUser (setRole_role_self _ _ _)
        rwa [setRole_setRole] at h₁
      obtain ⟨res, t, hQ, rfl⟩ := exec_ok hk hs
      cases res with
      | none => exact ⟨g, hQ, hS.roots, hS.held⟩
      | some p =>
          obtain ⟨hfree, hI'⟩ := hQ
          have h₀ : S.held p = 0 := by rw [hS.held, hI.count.noLeak p (by rw [hfree]; simp)]
          refine ⟨_, hI', fun r => ?_, fun q => ?_⟩
          · rw [hS.roots r, setLeak_role]
            by_cases hr : r = p
            · rw [hr, hfree, setRole_role_self]
              exact iff_of_false (by simp) (by simp)
            · rw [setRole_role_of_ne hr]
          · show update S.held p (S.held p + 1) q = update g.leak p 1 q
            rw [h₀, funext hS.held]
  | share p =>
      have hok : 0 < S.held p := hok
      have hu := hS.user hok
      have hI' := hI.kref hu fun r v hv => absurd hv (Nat.not_lt_zero v)
      have hk : wp (krefpage p) (fun _ t => t = S.ram.setRef (krefIndex p) (S.ram.ref p + 1)) (fun _ _ => True)
        S.ram := wp_krefpage hI hu rfl
      obtain ⟨_, t, rfl, rfl⟩ := exec_ok hk hs
      refine ⟨_, hI', hS.roots, fun q => ?_⟩
      show update S.held p (S.held p + 1) q = update g.leak p (g.leak p + 1) q
      rw [funext hS.held]
  | drop p =>
      have hok : 0 < S.held p := hok
      have hu := hS.user hok
      have hn : g.leak p = (S.held p - 1) + 1 := by rw [← hS.held]; exact (Nat.sub_add_cancel hok).symm
      have hk : wp (kfree p) (fun _ t => ∃ h, Dropped 0 g S.ram p (S.held p - 1) h t) (fun _ _ => True) S.ram :=
        wp_kfree_user hI hu hn fun h t hd => ⟨h, hd⟩
      obtain ⟨_, t, ⟨h, hd⟩, rfl⟩ := exec_ok hk hs
      refine ⟨h, hd.inv, fun r => ?_, fun q => ?_⟩
      · rw [hS.roots r]
        exact (Set.ext_iff.1 (hd.roots hu) r).symm
      · rw [hd.leak, ← funext hS.held]
  | map r va size pa perm =>
      have hr := (hS.roots r).1 hok.root
      obtain ⟨res, t, ⟨j, h, he, -⟩, rfl⟩ := exec_ok (mappages_extends hI hr hok.aligned hok.pos hok.le) hs
      refine ⟨h, he.inv, fun r' => ?_, fun p => ?_⟩
      · rw [hS.roots r']
        exact (Set.ext_iff.1 he.roots r').symm
      · rw [he.leak]
        exact hS.held p
  | unmap r va n doFree =>
      have hr := (hS.roots r).1 hok.root
      have hheld : ∀ p, g.given r (va / pgSize) n doFree p ≤ g.leak p := fun p => by
        rw [← given_eq hS hok.root hok.le, ← hS.held]
        exact hok.held p
      obtain ⟨_, t, ⟨h, hu⟩, rfl⟩ :=
        exec_ok (uvmunmap_spec (E := fun _ _ => True) hI hr hok.aligned hok.le hheld) hs
      refine ⟨h, hu.inv, fun r' => ?_, fun p => ?_⟩
      · rw [hS.roots r']
        exact (Set.ext_iff.1 hu.roots r').symm
      · rw [hu.leak, ← given_eq hS hok.root hok.le, ← hS.held]

theorem Tables.Of.boot (hI : Inv 0 (View.fresh s) s) : (Tables.boot s).Of (View.fresh s) where
  inv := hI
  roots r := iff_of_false List.not_mem_nil (fresh_ne_table s r r 2 0)
  held _ := rfl

/-- Every state that the callers reach after `kinit`. -/
theorem Tables.Of.reach (hI : Inv 0 (View.fresh s) s) (h : Reach Tables.step Tables.ok (Tables.boot s) S) :
    ∃ g, S.Of g :=
  Reach.inv (I := fun S => ∃ g, S.Of g) h ⟨_, Tables.Of.boot hI⟩ fun _ _ _ ⟨_, hg⟩ hok hs => hg.step hok hs

/-! ## What the calls do to the maps -/

theorem table_of_leaf {r' : Nat} (hS : S.Of g) (hr : r' ∈ S.roots) (hI : Inv 0 h t)
    (hr' : h.role r' = .table r' 2 0) (hl : h.leaf r' = g.leaf r') : t.table r' = S.ram.table r' := by
  rw [hI.tree.table_eq hr', hS.inv.tree.table_eq ((hS.roots r').1 hr), hl]

theorem uvmcreate_table (hS : S.Of g) (h : uvmcreate S.ram = .ok (some r) t) :
    r ∉ S.roots ∧ t.table r = .empty ∧ ∀ r' ∈ S.roots, t.table r' = S.ram.table r' := by
  have hspec := wp_ok (uvmcreate_spec (E := fun _ _ => True) hS.inv) h
  obtain ⟨hfree, hI⟩ : g.role r = .free ∧ Inv 0 (g.setRole r (.table r 2 0)) t := hspec
  have hnew : r ∉ S.roots := by
    rw [hS.roots r, hfree]
    simp
  refine ⟨hnew, ?_, fun r' hr' => ?_⟩
  · rw [hI.tree.table_eq (setRole_role_self _ _ _)]
    funext v
    have h₀ : g.leaf r v = 0 := hS.inv.tree.noLeaf r v fun a ha => by
      have h₁ := hS.inv.tree.root _ _ _ _ ha
      rw [hfree] at h₁
      cases h₁
    rw [setRole_leaf, h₀, decode_zero, ite_self]
    rfl
  · have hne : r' ≠ r := fun he => hnew (he ▸ hr')
    refine table_of_leaf hS hr' hI ?_ rfl
    rw [setRole_role_of_ne hne]
    exact (hS.roots r').1 hr'

theorem Extended.table (hS : S.Of g) (hr : r ∈ S.roots) (he : Extended g r lo n pa perm h t)
    (hlo : lo + n ≤ maxVa / pgSize) (hp : pa % pgSize = 0) (hlt : pa + n * pgSize ≤ 2 ^ 56)
    (hperm : IsPerm perm) : t.table r = (S.ram.table r).extend lo n pa (perm ||| pteV) := by
  have hr' := (hS.roots r).1 hr
  rw [he.inv.tree.table_eq (root_of_roots he.roots hr'), hS.inv.tree.table_eq hr']
  funext v
  unfold PageMap.extend
  simp only [he.leaf r v, true_and]
  by_cases hv : lo ≤ v ∧ v < lo + n
  · have h₁ : (v - lo) * pgSize + pgSize ≤ n * pgSize := by
      rw [← Nat.succ_mul]
      exact Nat.mul_le_mul_right _ (by omega)
    have h₂ : 0 < pgSize := by decide
    rw [if_pos hv, if_pos (by omega), if_pos hv, madeEntry_decode hp (by omega) hperm]
  · rw [if_neg hv, if_neg hv]

theorem mappages_table (hS : S.Of g) (ha : S.MapArgs r va size pa perm) (hpa : pa + size ≤ 2 ^ 56)
    (h : mappages r va size pa perm S.ram = .ok 0 t) :
    (∀ v, va / pgSize ≤ v → v < va / pgSize + npages size → S.ram.table r v = none) ∧
    t.table r = (S.ram.table r).extend (va / pgSize) (npages size) pa (perm ||| pteV) ∧
      ∀ r' ∈ S.roots, r' ≠ r → t.table r' = S.ram.table r' := by
  have hr := (hS.roots r).1 ha.root
  obtain ⟨j, f, he, hj⟩ := wp_ok (mappages_extends hS.inv hr ha.aligned ha.pos ha.le) h
  have hj := hj rfl
  subst hj
  have hal := ha.aligned
  have hle := ha.le
  have hpg := ha.page.1
  refine ⟨fun v h₁ h₂ => ?_, he.table hS ha.root ?_ hpg ?_ ha.perm, fun r' hr' hne => ?_⟩
  · rw [hS.inv.tree.table_eq hr]
    have h₃ : (g.leaf r v).has pteV = false := Bool.eq_false_iff.2 (he.unmapped v h₁ h₂)
    simp only [Pte.decode, h₃, Bool.false_eq_true, if_false, ite_self]
  · unfold npages
    unfold maxVa at *
    unfold pgSize at *
    omega
  · unfold npages
    unfold pgSize at *
    omega
  · refine table_of_leaf hS hr' he.inv (root_of_roots he.roots ((hS.roots r').1 hr')) ?_
    funext v
    rw [he.leaf, if_neg fun h => hne h.1]

/-- A look-up finds the entry of its page, and of no other page of this or another table. -/
theorem walk_table (hS : S.Of g) (hr : r ∈ S.roots) (hva : va < maxVa) :
    ∃ res, walk r va false S.ram = .ok res S.ram ∧
      (res = none → S.ram.table r (va / pgSize) = none) ∧
      ∀ slot, res = some slot → S.ram.table r (va / pgSize) = (S.ram.pte slot.1 slot.2).decode ∧
        ∀ r' ∈ S.roots, ∀ va', va' < maxVa → walk r' va' false S.ram = .ok (some slot) S.ram →
          r' = r ∧ va' / pgSize = va / pgSize := by
  have hpage : ∀ {a}, a < maxVa → a / pgSize < maxVa / pgSize := fun h => by
    unfold maxVa at *
    unfold pgSize
    omega
  have htab : S.ram.table r (va / pgSize) =
      (S.ram.slot r (va / pgSize)).bind fun x => (S.ram.pte x.1 x.2).decode := if_pos (hpage hva)
  refine ⟨_, walk_eq_slot hva, fun hn => by rw [htab, hn]; rfl, fun slot hs => ⟨by rw [htab, hs]; rfl, ?_⟩⟩
  intro r' hr' va' hva' hw
  rw [walk_eq_slot hva'] at hw
  injection hw with hw _
  exact hS.inv.tree.slot_inj ((hS.roots r').1 hr') ((hS.roots r).1 hr) (hpage hva') (hpage hva) hw hs

theorem uvmunmap_table (hS : S.Of g) (ha : S.UnmapArgs r va n doFree) :
    ∃ t, uvmunmap r va n doFree S.ram = .ok () t ∧ t.table r = (S.ram.table r).remove (va / pgSize) n ∧
      ∀ r' ∈ S.roots, r' ≠ r → t.table r' = S.ram.table r' := by
  have hr := (hS.roots r).1 ha.root
  have hheld : ∀ p, g.given r (va / pgSize) n doFree p ≤ g.leak p := fun p => by
    rw [← given_eq hS ha.root ha.le, ← hS.held]
    exact ha.held p
  obtain ⟨_, t, hu, h, hrem⟩ :=
    wp_returns (uvmunmap_spec (E := fun _ _ => False) hS.inv hr ha.aligned ha.le hheld)
  refine ⟨t, hu, ?_, fun r' hr' hne => ?_⟩
  · rw [hrem.inv.tree.table_eq (root_of_roots hrem.roots hr), hS.inv.tree.table_eq hr]
    funext v
    unfold PageMap.remove
    simp only [hrem.leaf r v, true_and]
    by_cases hv : va / pgSize ≤ v ∧ v < va / pgSize + n
    · rw [if_pos hv, if_pos hv, decode_zero, ite_self]
    · rw [if_neg hv, if_neg hv]
  · refine table_of_leaf hS hr' hrem.inv (root_of_roots hrem.roots ((hS.roots r').1 hr')) ?_
    funext v
    rw [hrem.leaf, if_neg fun h => hne h.1]

end Xv6.Vm
