import Mathlib.Data.Int.ModEq
import Mathlib.Data.List.Range
import Mathlib.Logic.Function.Basic

/-!
# Ring buffers with free-running counters

`rd` and `wr` count the elements ever taken and put, in `w` bits; an element lies at its count
modulo the capacity. The capacity divides `2 ^ w`, so that the place of an element does not jump
when a counter wraps.
-/

namespace Xv6.Lib.Ring

open Function

variable {α : Type} {w cap : Nat} {data : Nat → α} {rd wr : BitVec w} {x : α}

/-- The number of elements in the ring. -/
def len (rd wr : BitVec w) : Nat := (wr - rd).toNat

/-- The elements in the ring, the oldest first. -/
def contents (cap : Nat) (data : Nat → α) (rd wr : BitVec w) : List α :=
  (List.range (len rd wr)).map fun i => data ((rd.toNat + i) % cap)

theorem add_sub_self (rd wr : BitVec w) : rd + (wr - rd) = wr := by
  rw [BitVec.add_comm]
  exact BitVec.sub_add_cancel _ _

theorem len_eq_zero : len rd wr = 0 ↔ rd = wr := by
  unfold len
  constructor
  · intro h
    have h₁ : wr - rd = 0#w := BitVec.eq_of_toNat_eq (by rw [h]; simp)
    rw [← add_sub_self rd wr, h₁, BitVec.add_zero]
  · intro h
    rw [h]
    simp

theorem contents_eq_nil : contents cap data rd wr = [] ↔ rd = wr := by
  unfold contents
  rw [List.map_eq_nil_iff, List.range_eq_nil, len_eq_zero]

@[simp] theorem contents_length : (contents cap data rd wr).length = len rd wr := by
  simp [contents]

theorem toNat_eq (rd wr : BitVec w) : wr.toNat = (rd.toNat + len rd wr) % 2 ^ w := by
  unfold len
  rw [← BitVec.toNat_add, add_sub_self]

theorem full_iff (hc : cap < 2 ^ w) : wr = rd + BitVec.ofNat w cap ↔ len rd wr = cap := by
  unfold len
  constructor
  · intro h
    have h₂ : wr - rd = BitVec.ofNat w cap := by
      rw [h, BitVec.add_comm]
      exact BitVec.add_sub_cancel _ _
    rw [h₂, BitVec.toNat_ofNat, Nat.mod_eq_of_lt hc]
  · intro h
    have h₂ : wr - rd = BitVec.ofNat w cap := BitVec.eq_of_toNat_eq (by
      rw [h, BitVec.toNat_ofNat, Nat.mod_eq_of_lt hc])
    rw [← h₂, add_sub_self]

/-! ## Putting and taking an element -/

theorem len_put (h : len rd wr + 1 < 2 ^ w) : len rd (wr + 1) = len rd wr + 1 := by
  have hone : (1 : BitVec w).toNat = 1 := by
    have hw : 1 < 2 ^ w := by omega
    rw [BitVec.ofNat_eq_ofNat, BitVec.toNat_ofNat, Nat.mod_eq_of_lt hw]
  have h₁ : wr + 1 - rd = (wr - rd) + 1 := by
    rw [BitVec.sub_eq_add_neg, BitVec.sub_eq_add_neg, BitVec.add_assoc, BitVec.add_comm 1,
      ← BitVec.add_assoc]
  unfold len at *
  rw [h₁, BitVec.toNat_add, hone, Nat.mod_eq_of_lt h]

theorem len_take (h : rd ≠ wr) : len (rd + 1) wr + 1 = len rd wr := by
  have hpos : 0 < len rd wr := Nat.pos_of_ne_zero fun h₀ => h (len_eq_zero.1 h₀)
  have hlt : len rd wr < 2 ^ w := (wr - rd).isLt
  have hone : (1 : BitVec w).toNat = 1 := by
    have hw : 1 < 2 ^ w := by omega
    rw [BitVec.ofNat_eq_ofNat, BitVec.toNat_ofNat, Nat.mod_eq_of_lt hw]
  have h₁ : wr - (rd + 1) = (wr - rd) - 1 := by
    rw [BitVec.sub_eq_add_neg, BitVec.sub_eq_add_neg, BitVec.sub_eq_add_neg, BitVec.neg_add,
      BitVec.sub_eq_add_neg, BitVec.add_assoc]
  have h₂ : (wr - rd - 1).toNat = (wr - rd).toNat - 1 := by
    rw [BitVec.toNat_sub_of_le, hone]
    rw [BitVec.le_def, hone]
    exact hpos
  unfold len at *
  rw [h₁, h₂]
  omega

theorem contents_put (hd : cap ∣ 2 ^ w) (hc : cap < 2 ^ w) (h : len rd wr < cap) :
    contents cap (update data (wr.toNat % cap) x) rd (wr + 1) =
      contents cap data rd wr ++ [x] := by
  have hpos : 0 < cap := by omega
  have hslot : wr.toNat % cap = (rd.toNat + len rd wr) % cap := by
    rw [toNat_eq rd wr, Nat.mod_mod_of_dvd _ hd]
  unfold contents
  rw [len_put (by omega), List.range_succ, List.map_append, List.map_singleton, hslot,
    update_self]
  congr 1
  apply List.map_congr_left
  intro i hi
  rw [List.mem_range] at hi
  -- two places less than `cap` apart are different
  apply update_of_ne
  intro he
  have h₁ : i ≡ len rd wr [MOD cap] := Nat.ModEq.add_left_cancel' rd.toNat he
  have h₂ := Nat.ModEq.eq_of_lt_of_lt h₁ (by omega) h
  omega

theorem contents_take (hd : cap ∣ 2 ^ w) (h : rd ≠ wr) :
    contents cap data rd wr = data (rd.toNat % cap) :: contents cap data (rd + 1) wr := by
  have hlen := len_take h
  have hlt : len rd wr < 2 ^ w := (wr - rd).isLt
  have hone : (rd + 1).toNat % cap = (rd.toNat + 1) % cap := by
    have hw : 1 < 2 ^ w ∨ len rd wr = 1 ∧ w = 0 := by
      by_cases hw : 1 < 2 ^ w
      · exact .inl hw
      · omega
    rcases hw with hw | ⟨h₁, rfl⟩
    · rw [BitVec.toNat_add, BitVec.ofNat_eq_ofNat, BitVec.toNat_ofNat, Nat.mod_eq_of_lt hw,
        Nat.mod_mod_of_dvd _ hd]
    · omega
  unfold contents
  rw [← hlen, List.range_succ_eq_map, List.map_cons, List.map_map, Nat.add_zero]
  congr 1
  apply List.map_congr_left
  intro i _
  show data ((rd.toNat + (i + 1)) % cap) = data (((rd + 1).toNat + i) % cap)
  rw [Nat.add_mod (rd + 1).toNat, hone, ← Nat.add_mod, Nat.add_assoc, Nat.add_comm 1 i]

/-! ## Taking several elements, and taking back the last one -/

theorem eq_iff_len (rd : BitVec w) {wr wr' : BitVec w} : wr = wr' ↔ len rd wr = len rd wr' := by
  constructor
  · rintro rfl
    rfl
  · intro h
    rw [← add_sub_self rd wr, ← add_sub_self rd wr', BitVec.eq_of_toNat_eq h]

theorem add_succ (rd : BitVec w) (k : Nat) : rd + BitVec.ofNat w (k + 1) = rd + 1 + BitVec.ofNat w k := by
  rw [BitVec.ofNat_add, BitVec.add_comm (BitVec.ofNat w k), ← BitVec.add_assoc]
  rfl

theorem len_drop {k : Nat} (hk : k ≤ len rd wr) : len (rd + BitVec.ofNat w k) wr = len rd wr - k := by
  induction k generalizing rd with
  | zero => simp
  | succ k ih =>
      have hne : rd ≠ wr := fun h => by
        rw [len_eq_zero.2 h] at hk
        omega
      have hlen := len_take hne
      rw [add_succ, ih (by omega)]
      omega

/-- The first `k` elements are taken. -/
theorem contents_drop (hd : cap ∣ 2 ^ w) {k : Nat} (hk : k ≤ len rd wr) :
    contents cap data (rd + BitVec.ofNat w k) wr = (contents cap data rd wr).drop k := by
  induction k generalizing rd with
  | zero => simp
  | succ k ih =>
      have hne : rd ≠ wr := fun h => by
        rw [len_eq_zero.2 h] at hk
        omega
      have hlen := len_take hne
      rw [add_succ, ih (by omega), contents_take hd hne, List.drop_succ_cons]

theorem len_back (h : rd ≠ wr) : len rd (wr - 1) + 1 = len rd wr := by
  have hpos : 0 < len rd wr := Nat.pos_of_ne_zero fun h₀ => h (len_eq_zero.1 h₀)
  have hlt : len rd wr < 2 ^ w := (wr - rd).isLt
  have hone : (1 : BitVec w).toNat = 1 := by
    have hw : 1 < 2 ^ w := by omega
    rw [BitVec.ofNat_eq_ofNat, BitVec.toNat_ofNat, Nat.mod_eq_of_lt hw]
  have h₁ : wr - 1 - rd = (wr - rd) - 1 := by
    rw [BitVec.sub_eq_add_neg, BitVec.sub_eq_add_neg, BitVec.sub_eq_add_neg, BitVec.sub_eq_add_neg, BitVec.add_assoc,
      BitVec.add_comm (-1), ← BitVec.add_assoc]
  have h₂ : (wr - rd - 1).toNat = (wr - rd).toNat - 1 := by
    rw [BitVec.toNat_sub_of_le, hone]
    rw [BitVec.le_def, hone]
    exact hpos
  unfold len at *
  rw [h₁, h₂]
  omega

theorem contents_back (hd : cap ∣ 2 ^ w) (h : rd ≠ wr) :
    contents cap data rd wr = contents cap data rd (wr - 1) ++ [data ((wr - 1).toNat % cap)] := by
  have hlen := len_back h
  unfold contents
  rw [← hlen, List.range_succ, List.map_append, List.map_singleton, toNat_eq rd (wr - 1), Nat.mod_mod_of_dvd _ hd]

end Xv6.Lib.Ring
