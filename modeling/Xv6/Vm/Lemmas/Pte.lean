import Xv6.Vm.Riscv

/-!
# Bits of page-table entries

A flag is a bit of the entry, and the page number is the bits from 10 to 53, so entries are compared
bit by bit.
-/

namespace Xv6.Vm

variable {x y perm : Pte} {pa i : Nat}

/-! ## Single bits -/

theorem has_twoPow (x : Pte) (i : Nat) (h : i < 64) : Pte.has x (BitVec.twoPow 64 i) = x.getLsbD i := by
  unfold Pte.has
  rw [BitVec.and_twoPow]
  cases x.getLsbD i with
  | true =>
      have h₀ : BitVec.twoPow 64 i ≠ 0 := fun h₁ => by
        have h₂ := congrArg (fun b => b.getLsbD i) h₁
        simp [h] at h₂
      simpa using h₀
  | false => simp

theorem has_pteV (x : Pte) : x.has pteV = x.getLsbD 0 := has_twoPow x 0 (by decide)
theorem has_pteW (x : Pte) : x.has pteW = x.getLsbD 2 := has_twoPow x 2 (by decide)
theorem has_pteU (x : Pte) : x.has pteU = x.getLsbD 4 := has_twoPow x 4 (by decide)
theorem has_pteCow (x : Pte) : x.has pteCow = x.getLsbD 8 := has_twoPow x 8 (by decide)

theorem getLsbD_pteV : pteV.getLsbD i = decide (i = 0) := by
  show (BitVec.twoPow 64 0).getLsbD i = _
  rw [BitVec.getLsbD_twoPow]
  simp [eq_comm]

theorem getLsbD_pteW : pteW.getLsbD i = decide (i = 2) := by
  show (BitVec.twoPow 64 2).getLsbD i = _
  rw [BitVec.getLsbD_twoPow]
  simp [eq_comm]

theorem getLsbD_pteU : pteU.getLsbD i = decide (i = 4) := by
  show (BitVec.twoPow 64 4).getLsbD i = _
  rw [BitVec.getLsbD_twoPow]
  simp [eq_comm]

theorem getLsbD_pteCow : pteCow.getLsbD i = decide (i = 8) := by
  show (BitVec.twoPow 64 8).getLsbD i = _
  rw [BitVec.getLsbD_twoPow]
  simp [eq_comm]

theorem getLsbD_ppnMask : ppnMask.getLsbD i = decide (10 ≤ i ∧ i < 54) := by
  by_cases hi : i < 64
  · have h : ∀ j : Fin 64, ppnMask.getLsbD j = decide (10 ≤ j.val ∧ j.val < 54) := by decide
    exact h ⟨i, hi⟩
  · rw [BitVec.getLsbD_of_ge _ _ (by omega)]
    simp only [Bool.false_eq, decide_eq_false_iff_not]
    omega

/-! ## Page numbers -/

theorem getLsbD_pa2pte (pa i : Nat) :
    (pa2pte pa).getLsbD i = (decide (10 ≤ i ∧ i < 64) && pa.testBit (i + 2) && decide (i < 62)) := by
  unfold pa2pte
  rw [BitVec.getLsbD_shiftLeft, BitVec.getLsbD_ushiftRight, BitVec.getLsbD_ofNat]
  by_cases h : 10 ≤ i
  · have hi : 12 + (i - 10) = i + 2 := by omega
    have h₁ : ¬ i < 10 := by omega
    rw [hi]
    by_cases h₂ : i < 64 <;> by_cases h₃ : i < 62 <;> simp [h, h₁, h₂, h₃] <;> omega
  · have h₁ : i < 10 := by omega
    simp [h, h₁]

theorem testBit_pte2pa (x : Pte) (i : Nat) :
    (pte2pa x).testBit i = (decide (12 ≤ i ∧ i < 56) && x.getLsbD (i - 2)) := by
  have hm : (0x00FFFFFFFFFFFF00#64).getLsbD i = decide (8 ≤ i ∧ i < 56) := by
    by_cases hi : i < 64
    · have h : ∀ j : Fin 64, (0x00FFFFFFFFFFFF00#64).getLsbD j = decide (8 ≤ j.val ∧ j.val < 56) := by
        decide
      exact h ⟨i, hi⟩
    · rw [BitVec.getLsbD_of_ge _ _ (by omega)]
      simp only [Bool.false_eq, decide_eq_false_iff_not]
      omega
  unfold pte2pa
  rw [BitVec.testBit_toNat, BitVec.getLsbD_and, hm, BitVec.getLsbD_shiftLeft,
    BitVec.getLsbD_ushiftRight]
  by_cases h : 12 ≤ i ∧ i < 56
  · have hi : 10 + (i - 12) = i - 2 := by omega
    have h₁ : ¬ i < 12 := by omega
    have h₂ : i < 64 := by omega
    have h₃ : 8 ≤ i := by omega
    rw [hi]
    simp [h, h₁, h₂, h₃]
  · simp only [h, decide_false, Bool.false_and]
    by_cases h₁ : i < 12
    · simp [h₁]
    · have h₂ : ¬ (8 ≤ i ∧ i < 56) := by omega
      simp [h₂]

theorem pte2pa_congr (h : ∀ i, 10 ≤ i → i < 54 → x.getLsbD i = y.getLsbD i) : pte2pa x = pte2pa y := by
  apply Nat.eq_of_testBit_eq
  intro i
  rw [testBit_pte2pa, testBit_pte2pa]
  by_cases hi : 12 ≤ i ∧ i < 56
  · rw [h (i - 2) (by omega) (by omega)]
  · simp [hi]

/-- The bits of a permission lie outside the page number. -/
def IsPerm (perm : Pte) : Prop := perm &&& ppnMask = 0

instance : Decidable (IsPerm perm) := inferInstanceAs (Decidable (_ = _))

theorem IsPerm.getLsbD (h : IsPerm perm) (h₁ : 10 ≤ i) (h₂ : i < 54) : perm.getLsbD i = false := by
  have h₃ := congrArg (fun b => BitVec.getLsbD b i) h
  simpa [getLsbD_ppnMask, h₁, h₂] using h₃

theorem IsPerm.or (hx : IsPerm x) (hy : IsPerm y) : IsPerm (x ||| y) := by
  apply BitVec.eq_of_getLsbD_eq
  intro i hi
  have h₁ := congrArg (fun b => BitVec.getLsbD b i) hx
  have h₂ := congrArg (fun b => BitVec.getLsbD b i) hy
  simp only [BitVec.getLsbD_and, BitVec.getLsbD_or, BitVec.ofNat_eq_ofNat, BitVec.getLsbD_zero] at *
  rw [Bool.and_or_distrib_right, h₁, h₂]
  rfl

theorem isPerm_pteFlags (x : Pte) : IsPerm (pteFlags x) := by
  unfold IsPerm pteFlags
  apply BitVec.eq_of_getLsbD_eq
  intro i hi
  simp only [BitVec.getLsbD_and, BitVec.getLsbD_not, BitVec.ofNat_eq_ofNat, BitVec.getLsbD_zero]
  cases ppnMask.getLsbD i <;> simp

theorem IsPerm.and (hx : IsPerm x) (y : Pte) : IsPerm (x &&& y) := by
  apply BitVec.eq_of_getLsbD_eq
  intro i hi
  have h₁ := congrArg (fun b => BitVec.getLsbD b i) hx
  simp only [BitVec.getLsbD_and, BitVec.ofNat_eq_ofNat, BitVec.getLsbD_zero] at *
  rw [Bool.and_right_comm, h₁]
  rfl

/-! ## Entries made from a page and a permission -/

/-- A page address that fits an entry. -/
def IsPage (pa : Nat) : Prop := pa % pgSize = 0 ∧ pa < 2 ^ 56

theorem IsPage.testBit (h : IsPage pa) : pa.testBit i = (decide (12 ≤ i ∧ i < 56) && pa.testBit i) := by
  by_cases hi : 12 ≤ i ∧ i < 56
  · simp [hi]
  · have h₀ : pa.testBit i = false := by
      by_cases h₁ : i < 12
      · have h₂ : (pa % 2 ^ 12).testBit i = false := by rw [show pa % 2 ^ 12 = 0 from h.1]; simp
        rwa [Nat.testBit_mod_two_pow, decide_eq_true h₁, Bool.true_and] at h₂
      · exact Nat.testBit_lt_two_pow (Nat.lt_of_lt_of_le h.2 (Nat.pow_le_pow_right (by omega) (by omega)))
    simp [h₀]

theorem pte2pa_make (h : IsPage pa) (hp : IsPerm perm) : pte2pa (pa2pte pa ||| perm) = pa := by
  apply Nat.eq_of_testBit_eq
  intro i
  rw [testBit_pte2pa, h.testBit]
  by_cases hi : 12 ≤ i ∧ i < 56
  · have h₁ : i - 2 + 2 = i := by omega
    have h₂ : 10 ≤ i - 2 ∧ i - 2 < 64 := by omega
    rw [BitVec.getLsbD_or, getLsbD_pa2pte, hp.getLsbD (by omega) (by omega), h₁]
    simp only [hi, h₂, show i - 2 < 62 by omega, decide_true, Bool.and_true, Bool.true_and,
      Bool.or_false, and_self]
  · simp [hi]

theorem getLsbD_make (h : i < 10) : (pa2pte pa ||| perm).getLsbD i = perm.getLsbD i := by
  rw [BitVec.getLsbD_or, getLsbD_pa2pte]
  have h₁ : ¬ (10 ≤ i ∧ i < 64) := by omega
  simp [h₁]

theorem pa2pte_inj {pa' : Nat} (h : IsPage pa) (h' : IsPage pa') (hp : IsPerm x) (hp' : IsPerm y)
    (he : pa2pte pa ||| x = pa2pte pa' ||| y) : pa = pa' := by
  rw [← pte2pa_make h hp, he, pte2pa_make h' hp']

theorem make_pte2pa (x : Pte) : pa2pte (pte2pa x) ||| pteFlags x = x := by
  apply BitVec.eq_of_getLsbD_eq
  intro i hi
  unfold pteFlags
  rw [BitVec.getLsbD_or, getLsbD_pa2pte, testBit_pte2pa, BitVec.getLsbD_and, BitVec.getLsbD_not,
    getLsbD_ppnMask]
  by_cases h : 10 ≤ i ∧ i < 54
  · simp [h, hi, show 12 ≤ i + 2 ∧ i + 2 < 56 by omega, show i < 62 by omega]
  · have h₁ : ¬ (10 ≤ i ∧ i + 2 < 56) := by omega
    simp only [h, hi, show (12 ≤ i + 2 ∧ i + 2 < 56) ↔ (10 ≤ i ∧ i + 2 < 56) by omega, h₁,
      decide_false, decide_true, Bool.false_and, Bool.and_false, Bool.not_false, Bool.and_true,
      Bool.false_or]

theorem pteFlags_make (h : IsPage pa) (hp : IsPerm perm) : pteFlags (pa2pte pa ||| perm) = perm := by
  apply BitVec.eq_of_getLsbD_eq
  intro i hi
  unfold pteFlags
  rw [BitVec.getLsbD_and, BitVec.getLsbD_or, getLsbD_pa2pte, h.testBit, BitVec.getLsbD_not,
    getLsbD_ppnMask]
  by_cases h₁ : 10 ≤ i ∧ i < 54
  · simp [h₁, hp.getLsbD h₁.1 h₁.2]
  · have h₂ : ¬ (12 ≤ i + 2 ∧ i + 2 < 56) := by omega
    simp only [h₁, hi, h₂, decide_false, decide_true, Bool.false_and, Bool.and_false,
      Bool.not_false, Bool.and_true, Bool.false_or]

theorem getLsbD_pteFlags (h : i < 10) : (pteFlags x).getLsbD i = x.getLsbD i := by
  unfold pteFlags
  rw [BitVec.getLsbD_and, BitVec.getLsbD_not, getLsbD_ppnMask]
  simp [show ¬ (10 ≤ i ∧ i < 54) by omega, show i < 64 by omega]

/-! ## The entries `uvmcopy` and `vmfault` write -/

/-- A writable entry as `uvmcopy` leaves it; another entry as it is. -/
def share (x : Pte) : Pte := if x.has pteW then (x &&& ~~~(pteW ||| pteCow)) ||| pteCow else x

/-- The flags of a copy-on-write entry after a fault. -/
def unshare (x : Pte) : Pte := (pteFlags x ||| pteW) &&& ~~~pteCow

theorem isPerm_unshare (x : Pte) : IsPerm (unshare x) := ((isPerm_pteFlags x).or (by decide)).and _

theorem unshare_has_pteCow (x : Pte) : (unshare x).has pteCow = false := by
  unfold unshare
  rw [has_pteCow, BitVec.getLsbD_and, BitVec.getLsbD_not, getLsbD_pteCow]
  simp

theorem getLsbD_share (h : i ≠ 2) (h' : i ≠ 8) : (share x).getLsbD i = x.getLsbD i := by
  unfold share
  split
  · by_cases hi : i < 64
    · simp only [BitVec.getLsbD_or, BitVec.getLsbD_and, BitVec.getLsbD_not, getLsbD_pteW,
        getLsbD_pteCow, h, h', hi, decide_true, decide_false, Bool.or_false, Bool.not_false,
        Bool.and_true]
    · rw [BitVec.getLsbD_of_ge _ _ (by omega), BitVec.getLsbD_of_ge _ _ (by omega)]
  · rfl

@[simp] theorem pte2pa_share (x : Pte) : pte2pa (share x) = pte2pa x :=
  pte2pa_congr fun i _ _ => getLsbD_share (by omega) (by omega)

@[simp] theorem share_has_pteV (x : Pte) : (share x).has pteV = x.has pteV := by
  rw [has_pteV, has_pteV, getLsbD_share (by omega) (by omega)]

@[simp] theorem share_has_pteU (x : Pte) : (share x).has pteU = x.has pteU := by
  rw [has_pteU, has_pteU, getLsbD_share (by omega) (by omega)]

@[simp] theorem share_has_pteW (x : Pte) : (share x).has pteW = false := by
  unfold share
  split
  · rw [has_pteW]
    simp only [BitVec.getLsbD_or, BitVec.getLsbD_and, BitVec.getLsbD_not, getLsbD_pteW,
      getLsbD_pteCow]
    simp
  next h => exact Bool.eq_false_iff.2 h

theorem pteFlags_has_pteU (x : Pte) : (pteFlags x).has pteU = x.has pteU := by
  rw [has_pteU, has_pteU, getLsbD_pteFlags (by omega)]

theorem pteFlags_has_pteW (x : Pte) : (pteFlags x).has pteW = x.has pteW := by
  rw [has_pteW, has_pteW, getLsbD_pteFlags (by omega)]

/-- The flags `uvmcopy` gives the child. -/
def childFlags (x : Pte) : Pte :=
  if (pteFlags x).has pteW then (pteFlags x ||| pteCow) &&& ~~~pteW else pteFlags x

theorem or_pteV (h : x.has pteV = true) : x ||| pteV = x := by
  apply BitVec.eq_of_getLsbD_eq
  intro i hi
  rw [BitVec.getLsbD_or, getLsbD_pteV]
  by_cases h₀ : i = 0
  · subst h₀; rw [has_pteV] at h; simp [h]
  · simp [h₀]

/-- The child's entry is the one the parent is left with. -/
theorem make_childFlags (h : x.has pteV = true) :
    pa2pte (pte2pa x) ||| childFlags x ||| pteV = share x := by
  have hs : pa2pte (pte2pa x) ||| childFlags x = share x := by
    have hx := make_pte2pa x
    unfold childFlags share
    rw [pteFlags_has_pteW]
    split
    · apply BitVec.eq_of_getLsbD_eq
      intro i hi
      have hb := congrArg (fun b => BitVec.getLsbD b i) hx
      have hp := getLsbD_pa2pte (pte2pa x) i
      simp only [BitVec.getLsbD_or, BitVec.getLsbD_and, BitVec.getLsbD_not, getLsbD_pteW,
        getLsbD_pteCow, hi, decide_true, Bool.true_and] at hb ⊢
      by_cases h₂ : i = 2
      · subst h₂; rw [hp]; simp
      · by_cases h₈ : i = 8
        · subst h₈; simp
        · simpa [h₂, h₈] using hb
    · exact hx
  rw [hs]
  exact or_pteV (by simpa using h)

end Xv6.Vm
