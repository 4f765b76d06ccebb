import Xv6.Lib.Ring

/-!
# `memmove`, in the kernel and in the user library

Addresses are 64-bit words. The kernel's `n` is a `uint`, the user library's an `int`.
-/

namespace Xv6.Libc

open Function

abbrev Mem := BitVec 64 → BitVec 8

/-- `while(n-- > 0) *d++ = *s++;` -/
def copyUp : Nat → BitVec 64 → BitVec 64 → Mem → Mem
  | 0, _, _, m => m
  | n + 1, d, s, m => copyUp n (d + 1) (s + 1) (update m d (m s))

/-- `while(n-- > 0) *--d = *--s;` -/
def copyDown : Nat → BitVec 64 → BitVec 64 → Mem → Mem
  | 0, _, _, m => m
  | n + 1, d, s, m => copyDown n (d - 1) (s - 1) (update m (d - 1) (m (s - 1)))

/-- `memmove` of `string.c`. -/
def Kernel.memmove (dst src : BitVec 64) (n : BitVec 32) (m : Mem) : BitVec 64 × Mem :=
  if n = 0 then (dst, m)
  else if src < dst ∧ dst < src + n.zeroExtend 64 then
    (dst, copyDown n.toNat (dst + n.zeroExtend 64) (src + n.zeroExtend 64) m)
  else (dst, copyUp n.toNat dst src m)

/-- `memmove` of `ulib.c`. -/
def User.memmove (dst src : BitVec 64) (n : BitVec 32) (m : Mem) : BitVec 64 × Mem :=
  if dst < src then (dst, copyUp n.toInt.toNat dst src m)
  else (dst, copyDown n.toInt.toNat (dst + n.signExtend 64) (src + n.signExtend 64) m)

/-- The `n` bytes at `dst` are those that were at `src`, and no other byte is changed. -/
structure Moved (dst src : BitVec 64) (n : Nat) (m m' : Mem) : Prop where
  copied : ∀ i < n, m' (dst + BitVec.ofNat 64 i) = m (src + BitVec.ofNat 64 i)
  rest : ∀ a, (∀ i < n, a ≠ dst + BitVec.ofNat 64 i) → m' a = m a

/-! ## The loops -/

variable {dst src : BitVec 64} {n : Nat} {m : Mem}

theorem offset_toNat {a : BitVec 64} {i : Nat} (h : a.toNat + n ≤ 2 ^ 64) (hi : i < n) : (a + BitVec.ofNat 64 i).toNat = a.toNat + i := by
  rw [BitVec.toNat_add, BitVec.toNat_ofNat]
  omega

theorem offset_succ (a : BitVec 64) (i : Nat) : a + BitVec.ofNat 64 (i + 1) = a + 1 + BitVec.ofNat 64 i := Lib.Ring.add_succ a i

theorem offset_zero (a : BitVec 64) : a + BitVec.ofNat 64 0 = a := BitVec.add_zero a

theorem offset_ne {a : BitVec 64} {i : Nat} (hi : i < n) (hn : n < 2 ^ 64) : a ≠ a + 1 + BitVec.ofNat 64 i := by
  rw [← offset_succ]
  intro h
  have h₁ := congrArg BitVec.toNat h
  simp only [BitVec.toNat_add, BitVec.toNat_ofNat] at h₁
  omega

/-- No byte is read after it has been written. -/
theorem copyUp_moved (hn : n < 2 ^ 64) (h : ∀ i j, i < j → j < n → src + BitVec.ofNat 64 j ≠ dst + BitVec.ofNat 64 i) :
    Moved dst src n m (copyUp n dst src m) := by
  induction n generalizing dst src m with
  | zero => exact ⟨fun i hi => absurd hi (Nat.not_lt_zero i), fun _ _ => rfl⟩
  | succ n ih =>
      have hrec : ∀ i j, i < j → j < n → src + 1 + BitVec.ofNat 64 j ≠ dst + 1 + BitVec.ofNat 64 i := fun i j hij hj => by
        rw [← offset_succ, ← offset_succ]
        exact h (i + 1) (j + 1) (by omega) (by omega)
      obtain ⟨hcopied, hrest⟩ := ih (m := update m dst (m src)) (by omega) hrec
      refine ⟨fun i hi => ?_, fun a ha => ?_⟩
      · cases i with
        | zero =>
            rw [offset_zero, offset_zero, copyUp, hrest dst fun i hi => offset_ne hi (by omega), update_self]
        | succ i =>
            have hne : src + 1 + BitVec.ofNat 64 i ≠ dst := by
              rw [← offset_succ, ← offset_zero dst]
              exact h 0 (i + 1) (by omega) hi
            rw [offset_succ, offset_succ, copyUp, hcopied i (by omega), update_of_ne hne]
      · have hne : a ≠ dst := by
          rw [← offset_zero dst]
          exact ha 0 (by omega)
        rw [copyUp, hrest a fun i hi => ?_, update_of_ne hne]
        rw [← offset_succ]
        exact ha (i + 1) (by omega)

theorem copyDown_moved (hn : n < 2 ^ 64) (h : ∀ i j, i < j → j < n → src + BitVec.ofNat 64 i ≠ dst + BitVec.ofNat 64 j) :
    Moved dst src n m (copyDown n (dst + BitVec.ofNat 64 n) (src + BitVec.ofNat 64 n) m) := by
  have hlast : ∀ (a : BitVec 64) (n : Nat), a + BitVec.ofNat 64 (n + 1) - 1 = a + BitVec.ofNat 64 n := fun a n => by
    rw [BitVec.ofNat_add, ← BitVec.add_assoc]
    exact BitVec.add_sub_cancel _ _
  induction n generalizing m with
  | zero => exact ⟨fun i hi => absurd hi (Nat.not_lt_zero i), fun _ _ => rfl⟩
  | succ n ih =>
      rw [copyDown, hlast, hlast]
      obtain ⟨hcopied, hrest⟩ := ih (m := update m (dst + BitVec.ofNat 64 n) (m (src + BitVec.ofNat 64 n))) (by omega)
        fun i j hij hj => h i j hij (by omega)
      refine ⟨fun i hi => ?_, fun a ha => ?_⟩
      · rcases Nat.lt_succ_iff_lt_or_eq.1 hi with hi | rfl
        · rw [hcopied i hi, update_of_ne (h i n hi (by omega))]
        · rw [hrest _ fun j hj heq => ?_, update_self]
          have h₁ := congrArg BitVec.toNat heq
          simp only [BitVec.toNat_add, BitVec.toNat_ofNat] at h₁
          omega
      · rw [hrest a fun i hi => ha i (by omega), update_of_ne (ha n (by omega))]

/-! ## `memmove` -/

/-- Going up is right if the destination is below the source, or above its end. -/
theorem copyUp_ok (hd : dst.toNat + n ≤ 2 ^ 64) (hs : src.toNat + n ≤ 2 ^ 64) (hn : n < 2 ^ 64)
    (h : dst.toNat ≤ src.toNat ∨ src.toNat + n ≤ dst.toNat) : Moved dst src n m (copyUp n dst src m) := by
  apply copyUp_moved hn
  intro i j hij hj heq
  have h₁ := congrArg BitVec.toNat heq
  rw [offset_toNat hs hj, offset_toNat hd (by omega)] at h₁
  omega

/-- Going down is right if the destination is above the source. -/
theorem copyDown_ok (hd : dst.toNat + n ≤ 2 ^ 64) (hs : src.toNat + n ≤ 2 ^ 64) (hn : n < 2 ^ 64)
    (h : src.toNat ≤ dst.toNat) : Moved dst src n m (copyDown n (dst + BitVec.ofNat 64 n) (src + BitVec.ofNat 64 n) m) := by
  apply copyDown_moved hn
  intro i j hij hj heq
  have h₁ := congrArg BitVec.toNat heq
  rw [offset_toNat hs (by omega), offset_toNat hd hj] at h₁
  omega

theorem kernel_memmove_ok {n : BitVec 32} (hd : dst.toNat + n.toNat ≤ 2 ^ 64) (hs : src.toNat + n.toNat ≤ 2 ^ 64) :
    Moved dst src n.toNat m (Kernel.memmove dst src n m).2 := by
  have hn := n.isLt
  unfold Kernel.memmove
  by_cases h₀ : n = 0
  · rw [if_pos h₀, h₀]
    exact ⟨fun i hi => absurd hi (Nat.not_lt_zero i), fun _ _ => rfl⟩
  · have hpos : 0 < n.toNat := Nat.pos_of_ne_zero fun h => h₀ (BitVec.eq_of_toNat_eq h)
    have hword : n.zeroExtend 64 = BitVec.ofNat 64 n.toNat := BitVec.eq_of_toNat_eq (by simp)
    rw [if_neg h₀, hword]
    split
    · rename_i h
      exact copyDown_ok hd hs (by omega) (Nat.le_of_lt (BitVec.lt_def.1 h.1))
    · rename_i h
      -- a source that ends at 2^64 lies above every destination that fits
      refine copyUp_ok hd hs (by omega) ?_
      rw [BitVec.lt_def, BitVec.lt_def, BitVec.toNat_add, BitVec.toNat_ofNat] at h
      omega

theorem user_memmove_ok {n : BitVec 32} (hd : dst.toNat + n.toInt.toNat ≤ 2 ^ 64) (hs : src.toNat + n.toInt.toNat ≤ 2 ^ 64) :
    Moved dst src n.toInt.toNat m (User.memmove dst src n m).2 := by
  have hn : n.toInt.toNat < 2 ^ 64 := by
    have h₁ := n.toInt_lt
    omega
  unfold User.memmove
  by_cases hneg : n.toInt ≤ 0
  · rw [Int.toNat_of_nonpos hneg]
    split <;> exact ⟨fun i hi => absurd hi (Nat.not_lt_zero i), fun _ _ => rfl⟩
  · have hword : n.signExtend 64 = BitVec.ofNat 64 n.toInt.toNat := by
      have hmsb : n.msb = false := by
        rw [BitVec.msb_eq_toInt, decide_eq_false_iff_not]
        omega
      rw [BitVec.signExtend_eq_setWidth_of_msb_false hmsb, BitVec.toInt_eq_toNat_of_msb hmsb]
      exact BitVec.eq_of_toNat_eq (by simp)
    rw [hword]
    split
    · rename_i h
      exact copyUp_ok hd hs hn (.inl (Nat.le_of_lt (BitVec.lt_def.1 h)))
    · rename_i h
      rw [BitVec.lt_def] at h
      exact copyDown_ok hd hs hn (Nat.not_lt.1 h)

end Xv6.Libc
