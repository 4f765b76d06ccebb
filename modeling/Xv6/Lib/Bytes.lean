import Mathlib.Tactic.Ring
import Mathlib.Data.Nat.Init

/-!
# Byte memories

A memory maps an address to a byte. `load n` and `store n` read and write an `n`-byte little-endian
number; `memset` and `memmove` change a range of bytes.
-/

namespace Xv6.Lib

abbrev Bytes := Nat → BitVec 8

/-- The `n`-byte little-endian number at `a`. -/
def load : Nat → Bytes → Nat → Nat
  | 0, _, _ => 0
  | n + 1, m, a => (m a).toNat + 256 * load n m (a + 1)

/-- The memory with the low `n` bytes of `v` at `a`, little-endian. -/
def store (n : Nat) (m : Bytes) (a v : Nat) : Bytes :=
  fun x => if a ≤ x ∧ x < a + n then BitVec.ofNat 8 (v / 256 ^ (x - a)) else m x

def memset (m : Bytes) (dst : Nat) (c : BitVec 8) (n : Nat) : Bytes :=
  fun x => if dst ≤ x ∧ x < dst + n then c else m x

/-- `n` bytes of `m'` from `src` on, copied to `dst` in `m`. -/
def blit (m : Bytes) (dst : Nat) (m' : Bytes) (src n : Nat) : Bytes :=
  fun x => if dst ≤ x ∧ x < dst + n then m' (src + (x - dst)) else m x

variable {m m' : Bytes} {a b n k v : Nat}

theorem load_congr (h : ∀ i < n, m (a + i) = m' (a + i)) : load n m a = load n m' a := by
  induction n generalizing a with
  | zero => rfl
  | succ n ih =>
      simp only [load]
      have h₀ := h 0 (by omega)
      rw [Nat.add_zero] at h₀
      rw [h₀, ih fun i hi => by have := h (i + 1) (by omega); rwa [Nat.add_assoc, Nat.add_comm 1 i]]

theorem load_lt (n : Nat) (m : Bytes) (a : Nat) : load n m a < 256 ^ n := by
  induction n generalizing a with
  | zero => simp [load]
  | succ n ih =>
      have h₁ := ih (a + 1)
      have h₂ := (m a).isLt
      simp only [load, Nat.pow_succ]
      omega

theorem load_store_disjoint (h : b + k ≤ a ∨ a + n ≤ b) :
    load k (store n m a v) b = load k m b := by
  apply load_congr
  intro i hi
  exact if_neg (by omega)

/-- The bytes of `store n m a v` from the `j`-th on spell `v` without its low `j` bytes. -/
theorem load_store_from {j : Nat} (h : j + k = n) :
    load k (store n m a v) (a + j) = v / 256 ^ j % 256 ^ k := by
  induction k generalizing j with
  | zero => simp [load, Nat.mod_one]
  | succ k ih =>
      have hb : store n m a v (a + j) = BitVec.ofNat 8 (v / 256 ^ j) := by
        unfold store
        rw [if_pos (by omega), Nat.add_sub_cancel_left]
      have hr := ih (j := j + 1) (by omega)
      rw [← Nat.add_assoc] at hr
      rw [load, hb, hr, BitVec.toNat_ofNat, Nat.pow_succ 256 j, ← Nat.div_div_eq_div_mul,
        Nat.pow_succ 256 k, Nat.mul_comm (256 ^ k) 256, Nat.mod_mul]

theorem load_store (n : Nat) (m : Bytes) (a v : Nat) :
    load n (store n m a v) a = v % 256 ^ n := by
  have h := load_store_from (m := m) (a := a) (v := v) (j := 0) (k := n) (n := n) (by omega)
  simpa using h

theorem store_apply_of_lt (h : b < a ∨ a + n ≤ b) : store n m a v b = m b :=
  if_neg (by omega)

theorem store_store (n : Nat) (m : Bytes) (a v w : Nat) : store n (store n m a v) a w = store n m a w := by
  funext x
  unfold store
  split <;> rfl

theorem memset_apply {c : BitVec 8} (h : a ≤ b ∧ b < a + n) : memset m a c n b = c := if_pos h

theorem load_zero (n a : Nat) : load n (fun _ => 0) a = 0 := by
  induction n generalizing a with
  | zero => rfl
  | succ n ih =>
      rw [load, ih]
      rfl

theorem load_memset_zero (h : a ≤ b ∧ b + k ≤ a + n) : load k (memset m a 0 n) b = 0 := by
  induction k generalizing b with
  | zero => rfl
  | succ k ih =>
      rw [load, ih (by omega), memset_apply (by omega)]
      rfl

theorem blit_apply (h : a ≤ b ∧ b < a + n) : blit m a m' k n b = m' (k + (b - a)) := if_pos h

theorem blit_apply_of_lt (h : b < a ∨ a + n ≤ b) : blit m a m' k n b = m b := if_neg (by omega)

end Xv6.Lib
