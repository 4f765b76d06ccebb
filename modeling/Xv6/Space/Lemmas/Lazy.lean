import Xv6.Space.Lemmas.Bytes

/-!
# Pages that are mapped when they are touched

A process that touches its pages gets a zeroed page where there was none, and keeps the others. So a
string that `copyinstr` reads is the same before and after, unless it runs into a page that is not there
yet: `copyinstr` gives up there, and would have found a zero.
-/

namespace Xv6.Space

open Lib Vm

variable {f g h : View} {S : Spaces} {s t u : Ram} {i a n v : Nat} {p : Vm.Proc} {E : Stop → Ram → Prop}

/-! ## Touching pages -/

/-- Some pages have been added; those that were there are as before. -/
structure Added (p : Vm.Proc) (g : View) (s : Ram) (h : View) (t : Ram) : Prop
    extends Touched userPages p.pagetable (npages p.sz) g s h t where
  keep : ∀ v, g.Mapped p.pagetable v → h.leaf p.pagetable v = g.leaf p.pagetable v

theorem Added.mapped (ha : Added p g s h t) (hm : g.Mapped p.pagetable v) : h.Mapped p.pagetable v := by
  unfold View.Mapped
  rw [ha.keep v hm]
  exact hm

theorem Added.trans (ha : Added p f s g t) (hb : Added p g t h u) : Added p f s h u :=
  ⟨ha.toTouched.trans hb.toTouched, fun v hm => (hb.keep v (ha.mapped hm)).trans (ha.keep v hm)⟩

theorem Added.user (ha : Added p g s h t) (hz : ¬ g.Mapped p.pagetable v) (hm : h.Mapped p.pagetable v) :
    (h.leaf p.pagetable v).has pteU = true := by
  have he := ha.entry v
  unfold View.Mapped at hz hm
  generalize h.leaf p.pagetable v = y at he hm
  cases he with
  | same => exact absurd hm hz
  | added hp hx =>
      rw [has_pteU, BitVec.or_assoc, getLsbD_make (by omega), BitVec.getLsbD_or]
      decide
  | copied _ hx _ => exact absurd hx hz

theorem Added.of_fault {res : Option Nat} (hm : ¬ g.Mapped p.pagetable (a / pgSize))
    (hf : Faulted userPages g s p.pagetable p.sz a res t) :
    ∃ h, Added p g s h t ∧ (res.isSome = true → h.Mapped p.pagetable (a / pgSize)) := by
  cases hf with
  | @refused h _ hs why => exact ⟨h, ⟨.of_same hs _, fun v _ => hs.frame.leaf _ v id⟩, fun h₁ => by cases h₁⟩
  | @added q h _ lt hz hadd =>
      refine ⟨h, ⟨hadd.touched hz (div_lt_npages lt), fun v hv => ?_⟩, fun _ => hadd.mapped⟩
      exact hadd.frame.leaf _ v fun hx => hz (hx.2 ▸ hv)
  | copied lt hm' hcow hcopy => exact absurd hm' hm

/-- Each page below `n` is there, if every fault got its page. -/
theorem touchPages_spec (hS : Ok g S) (hp : S.proc i = some p) (hn : n ≤ npages p.sz) :
    wp (touchPages p n) (fun done t => ∃ h, Added p g S.ram h t ∧ (done = true → ∀ v, v < n → h.Mapped p.pagetable v)) E
      S.ram := by
  induction n with
  | zero =>
      rw [touchPages, wp_pure]
      exact ⟨g, ⟨.refl hS.inv _ _, fun _ _ => rfl⟩, fun _ v hv => absurd hv (Nat.not_lt_zero v)⟩
  | succ n ih =>
      have hold := hS.proc i p hp
      rw [touchPages, wp_bind]
      refine wp_post (ih (Nat.le_of_succ_le hn)) ?_
      rintro done t ⟨h, ha, hdone⟩
      have ht := hS.call hp ha.toChange
      have hlt : n * pgSize < maxVa :=
        Nat.lt_of_lt_of_le (Nat.mul_lt_mul_of_pos_right (Nat.lt_of_lt_of_le hn hold.size) (by decide)) userPages_le
      rw [wp_bind]
      refine wp_ismapped ht.inv (ht.root hp) hlt fun b hb => ?_
      rw [mul_pgSize_div] at hb
      cases b with
      | true =>
          rw [if_pos rfl, wp_pure]
          refine ⟨h, ha, fun h₁ v hv => ?_⟩
          rcases Nat.lt_succ_iff_lt_or_eq.1 hv with hv | rfl
          · exact hdone h₁ v hv
          · exact hb.1 rfl
      | false =>
          have hm : ¬ h.Mapped p.pagetable (n * pgSize / pgSize) := by
            rw [mul_pgSize_div]
            exact fun hm => by cases hb.2 hm
          rw [if_neg (by decide), wp_bind]
          refine wp_post (vmfault_spec ht.inv (ht.root hp) hold.size userPages_le) fun res u hf => ?_
          obtain ⟨h', ha', hres⟩ := Added.of_fault hm hf
          rw [mul_pgSize_div] at hres
          rw [wp_pure]
          refine ⟨h', ha.trans ha', fun h₁ v hv => ?_⟩
          rw [Bool.and_eq_true] at h₁
          rcases Nat.lt_succ_iff_lt_or_eq.1 hv with hv | rfl
          · exact ha'.mapped (hdone h₁.1 v hv)
          · exact hres h₁.2

/-! ## Strings -/

theorem Ok.userByte_eq (hS : Ok g S) (hp : S.proc i = some p) (a : Nat) : S.ram.userByte p.pagetable a =
    if g.Mapped p.pagetable (a / pgSize) ∧ (g.leaf p.pagetable (a / pgSize)).has pteU = true then some (g.byte S.ram p.pagetable a)
    else none := by
  unfold Ram.userByte Ram.userPage View.byte
  by_cases hm : g.Mapped p.pagetable (a / pgSize)
  · rw [hS.table_some hp hm, Option.bind_some, pteFlags_has_pteU, if_pos hm]
    cases (g.leaf p.pagetable (a / pgSize)).has pteU with
    | false => simp
    | true => simp [hm]
  · rw [(hS.table_none hp).2 hm, if_neg fun h₁ => hm h₁.1]
    rfl

theorem Added.userByte (hS : Ok g S) (hp : S.proc i = some p) (ha : Added p g S.ram h t)
    (hall : ∀ v, v < npages p.sz → h.Mapped p.pagetable v) (a : Nat) :
    t.userByte p.pagetable a = if Lazy S.ram p a then some 0 else S.ram.userByte p.pagetable a := by
  have hold := hS.proc i p hp
  have h₁ : t.userByte p.pagetable a = _ := (hS.call hp ha.toChange).userByte_eq hp a
  have hlazy : Lazy S.ram p a ↔ ¬ g.Mapped p.pagetable (a / pgSize) ∧ a / pgSize < npages p.sz :=
    and_congr (hS.table_none hp) lt_npages.symm
  rw [h₁, hS.userByte_eq hp]
  by_cases hm : g.Mapped p.pagetable (a / pgSize)
  · rw [if_neg fun hl => (hlazy.1 hl).1 hm, ha.keep _ hm]
    by_cases hu : a / pgSize < userPages
    · simp only [hm, ha.mapped hm, ha.byte a hu]
    · simp only [hold.top _ (Nat.le_of_not_lt hu), Bool.false_eq_true, and_false, if_false]
  · by_cases hlt : a / pgSize < npages p.sz
    · have hb := ha.byte a (Nat.lt_of_lt_of_le hlt hold.size)
      have hz : g.byte S.ram p.pagetable a = 0 := if_neg hm
      rw [if_pos (hlazy.2 ⟨hm, hlt⟩), if_pos ⟨hall _ hlt, ha.user hm (hall _ hlt)⟩, hb, hz]
    · have hl : h.leaf p.pagetable (a / pgSize) = g.leaf p.pagetable (a / pgSize) := ha.frame.leaf _ _ fun hx => hlt hx.2.2
      have hm' : ¬ h.Mapped p.pagetable (a / pgSize) := by
        unfold View.Mapped
        rw [hl]
        exact hm
      rw [if_neg fun hl => hlt (hlazy.1 hl).2, if_neg fun hx => hm' hx.1, if_neg fun hx => hm hx.1]

theorem Lazy.userByte (hl : Lazy s p a) : s.userByte p.pagetable a = none := by
  unfold Ram.userByte Ram.userPage
  rw [hl.1]
  rfl

/-- A string before and after the pages of the process have been touched. -/
theorem fetchString_touched {max : Nat} (hS : Ok g S) (hp : S.proc i = some p) (ht : touchAll p S.ram = .ok true t) :
    S.ram.fetchString p.pagetable a max = t.fetchString p.pagetable a max ↔
      ¬ ∃ k, k < max ∧ Lazy S.ram p (a + k) ∧ ∀ j, j < k → ∃ c, S.ram.userByte p.pagetable (a + j) = some c ∧ c ≠ 0 := by
  obtain ⟨done, t', hrun, h, ha, hall⟩ := wp_returns (touchPages_spec hS hp (Nat.le_refl _))
  unfold touchAll at ht
  rw [hrun] at ht
  cases ht
  refine fetchString_eq_iff (fun b hb => ?_) (fun b hb => hb.userByte) fun b hb => ?_
  · rw [ha.userByte hS hp (hall rfl), if_neg hb]
  · rw [ha.userByte hS hp (hall rfl), if_pos hb]

end Xv6.Space
