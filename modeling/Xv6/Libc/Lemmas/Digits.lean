import Mathlib.Data.Nat.Digits.Lemmas
import Xv6.Libc.Format

/-!
# The loop of `printint`

The digits come out least significant first and are printed in the other order.
-/

namespace Xv6.Libc

variable {digits : Nat → Byte} {base room x : Nat} {buf : List Byte} {xx : BitVec 64} {sign : Bool}

/-- The digits of `x`, most significant first. -/
def numeral (base x : Nat) : List Nat := if x = 0 then [0] else (Nat.digits base x).reverse

theorem numeral_of_lt (h : x < base) : numeral base x = [x] := by
  unfold numeral
  by_cases h₀ : x = 0
  · rw [if_pos h₀, h₀]
  · rw [if_neg h₀, Nat.digits_of_lt base x h₀ h]
    rfl

theorem numeral_of_ge (hb : 1 < base) (h : base ≤ x) : numeral base x = numeral base (x / base) ++ [x % base] := by
  have hdiv : 0 < x / base := Nat.div_pos h (by omega)
  unfold numeral
  rw [if_neg (by omega), if_neg (by omega), Nat.digits_def' hb (by omega), List.reverse_cons]

theorem numeral_length_le {k : Nat} (hb : 1 < base) (hk : 0 < k) (h : x < base ^ k) : (numeral base x).length ≤ k := by
  unfold numeral
  split
  · exact hk
  · rw [List.length_reverse]
    exact (Nat.digits_length_le_iff hb x).2 h

theorem lt_numeral_length {k : Nat} (hb : 1 < base) (h : base ^ k ≤ x) : k < (numeral base x).length := by
  have hpos : 0 < base ^ k := Nat.pow_pos (by omega)
  unfold numeral
  rw [if_neg (by omega), List.length_reverse]
  exact (Nat.lt_digits_length_iff hb x).2 h

/-- The loop stores the digits, if they fit. -/
theorem putDigits_eq (hb : 1 < base) (hr : (numeral base x).length ≤ room) :
    putDigits digits base room x buf = some (room - (numeral base x).length, (numeral base x).map digits ++ buf) := by
  induction room generalizing x buf with
  | zero =>
      have hpos : 0 < (numeral base x).length := by
        rcases Nat.lt_or_ge x base with h | h
        · simp [numeral_of_lt h]
        · simp [numeral_of_ge hb h]
      omega
  | succ room ih =>
      rw [putDigits]
      rcases Nat.lt_or_ge x base with h | h
      · rw [if_neg (by rw [Nat.div_eq_of_lt h]; simp), numeral_of_lt h, Nat.mod_eq_of_lt h]
        rfl
      · have hdiv : x / base ≠ 0 := Nat.ne_of_gt (Nat.div_pos h (by omega))
        rw [numeral_of_ge hb h, List.length_append, List.length_singleton] at hr ⊢
        rw [if_pos hdiv, ih (by omega)]
        simp only [List.map_append, List.append_assoc, List.map_cons, List.map_nil, List.cons_append, List.nil_append]
        rw [Nat.add_sub_add_right]

theorem numeral_ok (hb : 1 < base) (x : Nat) : numeral base x ≠ [] ∧ (∀ d ∈ numeral base x, d < base) ∧
    ((numeral base x).head? = some 0 → numeral base x = [0]) ∧ Nat.ofDigits base (numeral base x).reverse = x := by
  unfold numeral
  by_cases h₀ : x = 0
  · rw [if_pos h₀, h₀]
    refine ⟨List.cons_ne_nil _ _, fun d hd => ?_, fun _ => rfl, by simp⟩
    rw [List.mem_singleton.1 hd]
    omega
  · rw [if_neg h₀]
    refine ⟨?_, fun d hd => Nat.digits_lt_base hb (List.mem_reverse.1 hd), fun h => ?_, ?_⟩
    · simpa [Nat.digits_eq_nil_iff_eq_zero] using h₀
    · rw [List.head?_reverse, List.getLast?_eq_some_getLast (Nat.digits_ne_nil_iff_ne_zero.2 h₀), Option.some.injEq] at h
      exact absurd h (Nat.getLast_digit_ne_zero base h₀)
    · rw [List.reverse_reverse, Nat.ofDigits_digits]

/-! ## The sign -/

theorem slt_zero_iff : xx.slt 0 = true ↔ xx.toInt < 0 := by
  rw [BitVec.slt_iff_toInt_lt]
  rfl

/-- `x` is the absolute value of the argument, also of the least one. -/
theorem magnitude_eq (xx : BitVec 64) (sign : Bool) : (if (sign && xx.slt 0) = true then -xx else xx).toNat = (number xx sign).natAbs := by
  have hcond := BitVec.toInt_eq_toNat_cond xx
  have hlt := xx.isLt
  unfold number
  cases sign with
  | false => simp
  | true =>
      rw [Bool.true_and, if_pos rfl]
      by_cases h : xx.slt 0 = true
      · have hneg := slt_zero_iff.1 h
        rw [if_pos h, BitVec.toNat_neg]
        split at hcond <;> omega
      · have hneg := mt slt_zero_iff.2 h
        rw [if_neg h]
        split at hcond <;> omega

theorem neg_iff : (sign && xx.slt 0) = true ↔ number xx sign < 0 := by
  unfold number
  cases sign with
  | false =>
      rw [Bool.false_and, if_neg (by decide)]
      exact iff_of_false (by decide) (by omega)
  | true => rw [Bool.true_and, if_pos rfl, slt_zero_iff]

theorem numeral_fits (xx : BitVec 64) (sign : Bool) (hb : base = 10 ∨ base = 16) :
    (numeral base (number xx sign).natAbs).length + (if (sign && xx.slt 0) = true then 1 else 0) ≤ intBuf := by
  have hb' : 1 < base := by omega
  have hnat := magnitude_eq xx sign
  have hlt := (if (sign && xx.slt 0) = true then -xx else xx).isLt
  rw [hnat] at hlt
  split
  · rename_i hneg
    have hsigned : (number xx sign).natAbs ≤ 2 ^ 63 := by
      have h₁ := xx.le_toInt
      have h₂ := neg_iff.1 hneg
      unfold number at h₂ ⊢
      split at h₂ <;> rename_i hs
      · rw [if_pos hs]
        omega
      · omega
    have h₃ : (numeral base (number xx sign).natAbs).length ≤ 19 := by
      refine numeral_length_le hb' (by decide) (Nat.lt_of_le_of_lt hsigned ?_)
      rcases hb with rfl | rfl <;> decide
    exact Nat.succ_le_succ h₃
  · refine numeral_length_le hb' (by decide) (Nat.lt_of_lt_of_le hlt ?_)
    rcases hb with rfl | rfl <;> decide

theorem printint_eq (digits : Nat → Byte) (xx : BitVec 64) (sign : Bool) (hb : base = 10 ∨ base = 16) :
    printint digits xx base sign = some (spell digits (sign && xx.slt 0) (numeral base (number xx sign).natAbs)) := by
  have hfit := numeral_fits xx sign hb
  unfold printint
  simp only
  rw [magnitude_eq, putDigits_eq (by omega) (by omega), Option.bind_some, List.append_nil, spell]
  generalize (sign && xx.slt 0) = neg at hfit
  cases neg with
  | false => rfl
  | true =>
      rw [if_pos rfl] at hfit
      obtain ⟨room, hroom⟩ : ∃ room, intBuf - (numeral base (number xx sign).natAbs).length = room + 1 :=
        ⟨intBuf - (numeral base (number xx sign).natAbs).length - 1, by omega⟩
      rw [hroom]
      rfl

theorem printint_numeral (hb : 1 < base) (xx : BitVec 64) (sign : Bool) :
    Numeral base (number xx sign) (sign && xx.slt 0) (numeral base (number xx sign).natAbs) := by
  obtain ⟨h₁, h₂, h₃, h₄⟩ := numeral_ok hb (number xx sign).natAbs
  exact ⟨h₁, h₂, h₃, neg_iff, h₄⟩

end Xv6.Libc
