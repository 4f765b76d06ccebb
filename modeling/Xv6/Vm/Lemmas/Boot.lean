import Xv6.Vm.Lemmas.Walk

/-!
# Memory after `kinit`

`kinit` gives every page of the allocator's range to the free list. What it leaves is the first state
of every run.
-/

namespace Xv6.Vm

open Xv6.Lib

variable {top : Nat} {s t : Ram} {p q n : Nat} {E : Stop → Ram → Prop}

instance (s : Ram) (p : Nat) : Decidable (s.managed p) := inferInstanceAs (Decidable (_ ∧ _ ∧ _))

/-- The pages below `p` have been freed, and no other. -/
structure Released (s : Ram) (p : Nat) (t : Ram) : Prop where
  kend : t.kend = s.kend
  nodup : t.freelist.Nodup
  mem : ∀ q, q ∈ t.freelist ↔ s.managed q ∧ q < p
  ref : ∀ q, s.managed q → q < p → t.ref q = 0

theorem Released.push (hb : kernBase ≤ s.kend) (hr : Released s p t) (hp : s.managed p) :
    Released s (p + pgSize) (((t.setRef (krefIndex p) 1).setRef (krefIndex p) 0).push p) where
  kend := hr.kend
  nodup := List.nodup_cons.2 ⟨fun h => Nat.lt_irrefl _ ((hr.mem p).1 h).2, hr.nodup⟩
  mem q := by
    show q ∈ p :: t.freelist ↔ _
    rw [List.mem_cons, hr.mem q]
    have hp₁ := hp.1
    constructor
    · rintro (rfl | ⟨h₁, h₂⟩)
      · exact ⟨hp, Nat.lt_add_of_pos_right (by decide)⟩
      · exact ⟨h₁, by omega⟩
    · rintro ⟨h₁, h₂⟩
      have hq₁ := h₁.1
      unfold pgSize at hp₁ hq₁ h₂
      by_cases hq : q = p
      · exact .inl hq
      · exact .inr ⟨h₁, by omega⟩
  ref q hq hlt := by
    have hm : ∀ {x}, s.managed x → t.managed x := fun h => by unfold Ram.managed; rw [hr.kend]; exact h
    have hb' : kernBase ≤ t.kend := by rw [hr.kend]; exact hb
    by_cases hqp : q = p
    · rw [hqp]
      exact ref_setRef_self (t.setRef (krefIndex p) 1) p 0
    · have h₁ : (t.setRef (krefIndex p) 1).ref q = t.ref q := ref_setRef_of_ne hb' (hm hp) (hm hq) hqp
      have h₂ : ((t.setRef (krefIndex p) 1).setRef (krefIndex p) 0).ref q = _ :=
        ref_setRef_of_ne (s := t.setRef (krefIndex p) 1) hb' (hm hp) (hm hq) hqp
      refine h₂.trans (h₁.trans (hr.ref q hq ?_))
      have hp₁ := hp.1
      have hq₁ := hq.1
      unfold pgSize at hp₁ hq₁ hlt
      omega

theorem kinitLoop_spec (hb : kernBase ≤ s.kend) (hp : p % pgSize = 0) (hk : s.kend ≤ p)
    (hn : n = (physTop - p) / pgSize) (hr : Released s p t) :
    wp (kinitLoop n p) (fun _ u => Released s (p + n * pgSize) u) E t := by
  induction n generalizing p t with
  | zero =>
      rw [Nat.zero_mul]
      exact hr
  | succ n ih =>
      have hm : s.managed p := ⟨hp, hk, by unfold pgSize at hn; omega⟩
      have hm' : t.managed p := by unfold Ram.managed; rw [hr.kend]; exact hm
      simp only [kinitLoop, wp_bind, wp_modify]
      refine wp_kfree (s := t.setRef (krefIndex p) 1) (by show kernBase ≤ t.kend; rw [hr.kend]; exact hb) hm'
        (fun h => ?_) fun _ => ?_
      · rw [ref_setRef_self] at h
        exact absurd h (by decide)
      · have h₁ := ih (by unfold pgSize at *; omega) (by omega) (by unfold pgSize at *; omega) (hr.push hb hm)
        have h₂ : p + (n + 1) * pgSize = p + pgSize + n * pgSize := by rw [Nat.add_mul, Nat.one_mul]; omega
        rw [h₂]
        exact h₁

/-- Every page of the allocator is free. -/
def View.fresh (s : Ram) : View where
  role p := if s.managed p then .free else .outside
  leaf _ _ := 0
  leak _ := 0

theorem fresh_role (s : Ram) (p : Nat) : (View.fresh s).role p = if s.managed p then .free else .outside := rfl

theorem fresh_ne_table (s : Ram) (p r l k : Nat) : (View.fresh s).role p ≠ .table r l k := by
  rw [fresh_role]
  split <;> simp

theorem fresh_inv (hb : kernBase ≤ s.kend) (hr : Released s p t) (hp : physTop ≤ p) :
    Inv top (View.fresh t) t := by
  have hmem : ∀ q, q ∈ t.freelist ↔ t.managed q := fun q => by
    rw [hr.mem q]
    unfold Ram.managed
    rw [hr.kend]
    exact and_iff_left_of_imp fun h => Nat.lt_of_lt_of_le h.2.2 hp
  have hunmapped : ∀ r v, ¬ (View.fresh t).Mapped r v := fun r v h => by
    have h₁ : (0 : Pte).has pteV = true := h
    rw [not_has_zero] at h₁
    cases h₁
  refine ⟨⟨by rw [hr.kend]; exact hb, fun q => ?_, fun q => ?_, hr.nodup, ?_, ?_, ?_, ?_, ?_, ?_, ?_, ?_⟩,
    ⟨fun r v _ h => absurd h (hunmapped r v), fun q hq => ?_, fun r v _ h => absurd h (hunmapped r v),
      fun _ _ => rfl⟩⟩
  · rw [fresh_role]
    split <;> simp [*]
  · rw [hmem, fresh_role]
    split <;> simp [*]
  · exact fun q r l k h => absurd h (fresh_ne_table t q r l k)
  · exact fun q r k h => absurd h (fresh_ne_table t q r 2 k)
  · exact fun q r l k h => absurd h (fresh_ne_table t q r l k)
  · exact fun q r l k h => absurd h (fresh_ne_table t q r l k)
  · exact fun q r l k i h => absurd h (fresh_ne_table t q r (l + 1) k)
  · exact fun q r k i h => absurd h (fresh_ne_table t q r 0 k)
  · exact fun _ _ _ => rfl
  · exact fun _ _ => .inr rfl
  · have h₁ : (View.fresh t).role q = .free := by rw [fresh_role, if_pos hq]
    have hq' : s.managed q := by unfold Ram.managed at *; rwa [hr.kend] at hq
    rw [hr.ref q hq' (Nat.lt_of_lt_of_le hq.2.2 hp)]
    unfold View.refs
    rw [h₁]

/-- The kernel's image leaves room for a page. -/
theorem kinit_spec (hb : kernBase ≤ s.kend) (hk : s.kend ≤ physTop) (hf : s.freelist = []) :
    wp kinit (fun _ t => Inv top (View.fresh t) t ∧ t.kend = s.kend) E s := by
  have h₀ : pgRoundUp s.kend = (s.kend + 4095) / 4096 * 4096 := by
    rw [physTop_eq] at hk
    unfold pgRoundUp pgRoundDown pgSize
    rw [Nat.mod_eq_of_lt (by omega)]
  have hfresh : Released s (pgRoundUp s.kend) s := by
    refine ⟨rfl, by rw [hf]; exact List.nodup_nil, fun q => ?_, fun q hq hlt => ?_⟩
    · rw [hf]
      refine iff_of_false List.not_mem_nil fun h => ?_
      have h₁ := h.1.1
      have h₂ := h.1.2.1
      have h₃ := h.2
      unfold pgSize at h₁
      omega
    · have h₁ := hq.1
      have h₂ := hq.2.1
      unfold pgSize at h₁
      omega
  simp only [kinit, wp_bind, wp_get]
  refine wp_post (kinitLoop_spec hb (by rw [h₀]; exact Nat.mul_mod_left _ _) (by omega) rfl hfresh) ?_
  intro _ t ht
  refine ⟨fresh_inv hb ht ?_, ht.kend⟩
  rw [h₀, physTop_eq] at *
  unfold pgSize
  omega

end Xv6.Vm
