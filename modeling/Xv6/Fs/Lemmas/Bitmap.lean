import Xv6.Fs.Bitmap
import Xv6.Fs.Lemmas.Layout

/-!
# `balloc` finds the least free block

The induction is over the blocks of the free map. Block numbers below 2^31 are the same as an `int` and as a `uint`.
-/

namespace Xv6.Fs.Bitmap

open Lib Function

variable {s t : Map} {b c r : Word} {data : Block} {n bi j k : Nat}

/-! ## Where bits are -/

theorem mod_toNat (c : Word) : (c % 8192).toNat = c.toNat % 8192 := BitVec.toNat_umod

theorem div_toNat (c : Word) : (c / 8192).toNat = c.toNat / 8192 := BitVec.toNat_udiv

theorem bblock_inj : s.bblock b = s.bblock c ↔ b / 8192 = c / 8192 := by
  exact BitVec.add_left_inj ..

theorem word_eq_iff : b = c ↔ b / 8192 = c / 8192 ∧ (b % 8192).toNat = (c % 8192).toNat := by
  constructor
  · rintro rfl
    exact ⟨rfl, rfl⟩
  · rintro ⟨h₁, h₂⟩
    have h₃ := congrArg BitVec.toNat h₁
    rw [div_toNat, div_toNat] at h₃
    rw [mod_toNat, mod_toNat] at h₂
    exact BitVec.eq_of_toNat_eq (by omega)

/-- Below 2^31 the two ways to find the block of a bit agree. -/
theorem bblockInt_eq (h : b.toNat < 2 ^ 31) : s.bblockInt b = s.bblock b := by
  have hmsb : b.msb = false := by
    rw [BitVec.msb_eq_decide, decide_eq_false_iff_not]
    omega
  unfold Map.bblockInt Map.bblock
  rw [BitVec.sdiv_eq, hmsb]
  rfl

theorem bit_setBlk {v : Bool} (data : Block) (hdata : ∀ bj, bitSet data bj =
    if bj = (r % 8192).toNat then v else bitSet (s.blk (s.bblock r)) bj) :
    (s.setBlk (s.bblock r) data).bit c = if c = r then v else s.bit c := by
  show bitSet (Function.update s.blk (s.bblock r) data (s.bblock c)) (c % 8192).toNat = _
  by_cases hblock : c / 8192 = r / 8192
  · rw [bblock_inj.2 hblock, update_self, hdata]
    unfold Map.bit
    rw [bblock_inj.2 hblock]
    by_cases hbit : (c % 8192).toNat = (r % 8192).toNat
    · rw [if_pos hbit, if_pos (word_eq_iff.2 ⟨hblock, hbit⟩)]
    · rw [if_neg hbit, if_neg fun h => hbit (by rw [h])]
  · rw [update_of_ne fun h => hblock (bblock_inj.1 h), if_neg fun h => hblock (by rw [h])]
    rfl

theorem bzero_blk_of_ne {k : Word} (h : k ≠ r) : (bzero r s).blk k = s.blk k := update_of_ne h _ _

theorem bzero_blk_self : (bzero r s).blk r = memset (s.blk r) 0 0 bsize := update_self ..

theorem bzero_bit (h : s.bblock c ≠ r) : (bzero r s).bit c = s.bit c := by
  show bitSet ((bzero r s).blk (s.bblock c)) _ = _
  rw [bzero_blk_of_ne h]
  rfl

/-! ## `bfree` -/

theorem bfree_ok (h : s.bit b = true) : ∃ t, bfree b s = some t ∧ s.Released b t := by
  refine ⟨_, if_pos h, fun c _ => ?_, fun k hk => update_of_ne hk _ _⟩
  rw [bit_setBlk _ fun bj => bitSet_clearBit _ _ bj]
  by_cases hc : c = b
  · rw [if_pos hc, hc]
    simp
  · rw [if_neg hc]
    simp [hc]

/-! ## `balloc` -/

theorem freeBitFrom_some (h : freeBitFrom data b s.size n bi = some k) :
    bi ≤ k ∧ k < bi + n ∧ b + BitVec.ofNat 32 k < s.size ∧ bitSet data k = false ∧ ∀ j, bi ≤ j → j < k → bitSet data j = true := by
  induction n generalizing bi with
  | zero => cases h
  | succ n ih =>
      rw [freeBitFrom] at h
      split at h
      · rename_i hlt
        by_cases hbit : bitSet data bi = true
        · rw [if_pos hbit] at h
          obtain ⟨h₁, h₂, h₃, h₄, h₅⟩ := ih h
          refine ⟨by omega, by omega, h₃, h₄, fun j hj hjk => ?_⟩
          rcases Nat.eq_or_lt_of_le hj with rfl | hj
          · exact hbit
          · exact h₅ j hj hjk
        · rw [if_neg hbit] at h
          cases h
          exact ⟨Nat.le_refl _, by omega, hlt, Bool.eq_false_iff.2 hbit, fun j h₁ h₂ => absurd h₁ (by omega)⟩
      · cases h

theorem freeBitFrom_none (hb : b.toNat + bi + n ≤ 2 ^ 32) (h : freeBitFrom data b s.size n bi = none) :
    ∀ j, bi ≤ j → j < bi + n → b + BitVec.ofNat 32 j < s.size → bitSet data j = true := by
  induction n generalizing bi with
  | zero => exact fun j h₁ h₂ => absurd h₁ (by omega)
  | succ n ih =>
      intro j h₁ h₂ h₃
      have hj : bi < 2 ^ 32 ∧ j < 2 ^ 32 := ⟨by omega, by omega⟩
      rw [BitVec.lt_def, BitVec.toNat_add, BitVec.toNat_ofNat] at h₃
      rw [freeBitFrom] at h
      split at h
      · split at h
        · rename_i hbit
          rcases Nat.eq_or_lt_of_le h₁ with rfl | h₁
          · exact hbit
          · refine ih (by omega) h j h₁ (by omega) ?_
            rw [BitVec.lt_def, BitVec.toNat_add, BitVec.toNat_ofNat]
            exact h₃
        · cases h
      · rename_i hge
        rw [BitVec.lt_def, BitVec.toNat_add, BitVec.toNat_ofNat] at hge
        omega

/-- The start of the `j`-th block of bits. -/
def start (j : Nat) : Word := BitVec.ofNat 32 (j * 8192)

theorem start_toNat (h : j * 8192 < 2 ^ 32) : (start j).toNat = j * 8192 := by
  rw [start, BitVec.toNat_ofNat, Nat.mod_eq_of_lt h]

theorem start_succ (j : Nat) : start j + 8192 = start (j + 1) := by
  rw [start, start, Nat.add_mul, BitVec.ofNat_add]
  rfl

theorem bit_start (hj : j < 2 ^ 18) (hbi : bi < 8192) : (start j + BitVec.ofNat 32 bi).toNat = j * 8192 + bi ∧
    s.bit (start j + BitVec.ofNat 32 bi) = bitSet (s.blk (s.bblockInt (start j))) bi ∧
    s.bblock (start j + BitVec.ofNat 32 bi) = s.bblockInt (start j) := by
  have hstart := start_toNat (show j * 8192 < 2 ^ 32 by omega)
  have hsum : (start j + BitVec.ofNat 32 bi).toNat = j * 8192 + bi := by
    rw [BitVec.toNat_add, BitVec.toNat_ofNat, hstart]
    omega
  have hblock : s.bblock (start j + BitVec.ofNat 32 bi) = s.bblockInt (start j) := by
    rw [bblockInt_eq (by omega), bblock_inj]
    apply BitVec.eq_of_toNat_eq
    rw [div_toNat, div_toNat, hsum, hstart]
    omega
  refine ⟨hsum, ?_, hblock⟩
  unfold Map.bit
  rw [hblock, mod_toNat, hsum, show (j * 8192 + bi) % 8192 = bi by omega]

/-- A free block is none of the map's own. -/
theorem Map.Ok.not_own (hs : s.Ok) (hr : r < s.size) (hfree : s.bit r = false) (hc : s.Has c) : s.bblock c ≠ r := by
  intro h
  obtain ⟨c', hlt, hblock⟩ := hc
  have h₁ : s.bblock c' = r := by rw [bblock_inj.2 hblock, h]
  have h₂ := hs.own c' hlt (by rw [h₁]; exact hr)
  rw [h₁, hfree] at h₂
  cases h₂

theorem taken_ok (hs : s.Ok) (hj : j < 2 ^ 18) (hbi : bi < 8192) (hlt : start j + BitVec.ofNat 32 bi < s.size)
    (hfree : bitSet (s.blk (s.bblockInt (start j))) bi = false) (hbefore : ∀ c, c < start j + BitVec.ofNat 32 bi → s.bit c = true) :
    s.Taken (start j + BitVec.ofNat 32 bi) (bzero (start j + BitVec.ofNat 32 bi)
      (s.setBlk (s.bblockInt (start j)) (setBit (s.blk (s.bblockInt (start j))) bi))) := by
  obtain ⟨hsum, hbit, hblock⟩ := bit_start (s := s) hj hbi
  have hmod : ((start j + BitVec.ofNat 32 bi) % 8192).toNat = bi := by
    rw [mod_toNat, hsum]
    omega
  generalize start j + BitVec.ofNat 32 bi = r at *
  rw [hfree] at hbit
  rw [← hblock] at hfree ⊢
  refine ⟨hlt, hbit, hbefore, fun c hc => ?_, fun i hi => ?_, fun k h₁ h₂ => ?_⟩
  · have hne := hs.not_own hlt hbit hc
    have h₁ := bit_setBlk (s := s) (c := c) (v := true) (setBit (s.blk (s.bblock r)) bi)
      fun bj => by rw [hmod]; exact bitSet_setBit _ _ bj
    refine (bzero_bit (show (s.setBlk _ _).bblock c ≠ r from hne)).trans (h₁.trans ?_)
    by_cases hcr : c = r
    · rw [if_pos hcr, hcr]
      simp
    · rw [if_neg hcr]
      simp [hcr]
  · rw [bzero_blk_self]
    exact if_pos ⟨Nat.zero_le i, by omega⟩
  · rw [bzero_blk_of_ne h₁]
    exact update_of_ne h₂ _ _

theorem taken_bfree (ht : s.Taken r t) (hsize : t.size = s.size) : ∃ u, bfree r t = some u ∧ ∀ c, s.Has c → u.bit c = s.bit c := by
  have hr : t.bit r = true := by
    rw [ht.bits r ⟨r, ht.lt, rfl⟩]
    simp
  obtain ⟨u, hu, hbits, -⟩ := bfree_ok hr
  refine ⟨u, hu, fun c hc => ?_⟩
  rw [hbits c (by unfold Map.Has; rw [hsize]; exact hc), ht.bits c hc]
  by_cases hcr : c = r
  · rw [hcr, ht.free, bne_self_eq_false, Bool.and_false]
  · rw [beq_eq_false_iff_ne.2 hcr, Bool.or_false, bne_iff_ne.2 hcr, Bool.and_true]

/-- What `balloc` returns, from a block of the map on. -/
def Result (s : Map) (fuel : Nat) (b : Word) : Prop := ∃ r t, ballocFrom fuel b s = some (r, t) ∧
  (r = 0 ∧ t = s ∧ (∀ c, c < s.size → s.bit c = true) ∨ r ≠ 0 ∧ s.Taken r t ∧ t.size = s.size)

theorem result_full (hge : ¬ start j < s.size) (hj : (start j).toNat = j * 8192)
    (hbefore : ∀ c, c.toNat < j * 8192 → c < s.size → s.bit c = true) : Result s (n + 1) (start j) := by
  refine ⟨0, s, by rw [ballocFrom, if_neg hge], .inl ⟨rfl, rfl, fun c hc => hbefore c ?_ hc⟩⟩
  rw [BitVec.lt_def] at hge hc
  omega

theorem exists_bit (h₁ : j * 8192 ≤ c.toNat) (h₂ : c.toNat < (j + 1) * 8192) :
    ∃ bi, bi < 8192 ∧ c.toNat = j * 8192 + bi ∧ c = start j + BitVec.ofNat 32 bi := by
  refine ⟨c.toNat - j * 8192, by omega, by omega, ?_⟩
  rw [start, ← BitVec.ofNat_add, Nat.add_sub_cancel' h₁]
  exact (BitVec.eq_of_toNat_eq (by rw [BitVec.toNat_ofNat, Nat.mod_eq_of_lt c.isLt])).symm

theorem ballocFrom_ok (hs : s.Ok) (hsize : s.size.toNat ≤ 2 ^ 31) (hj : j ≤ 2 ^ 18) (hfuel : s.size.toNat ≤ (j + n) * 8192)
    (hbefore : ∀ c, c.toNat < j * 8192 → c < s.size → s.bit c = true) : Result s (n + 1) (start j) := by
  induction n generalizing j with
  | zero =>
      have hstart := start_toNat (j := j) (by omega)
      exact result_full (by rw [BitVec.lt_def]; omega) hstart hbefore
  | succ n ih =>
      have hstart := start_toNat (j := j) (by omega)
      by_cases hlt : (start j).toNat < s.size.toNat
      · have hj' : j < 2 ^ 18 := by omega
        have hfuel' : s.size.toNat ≤ (j + 1 + n) * 8192 := by
          rw [Nat.add_assoc, Nat.add_comm 1]
          exact hfuel
        have hfit : (start j).toNat + 0 + bpb ≤ 2 ^ 32 := by
          rw [hstart, show bpb = 8192 from rfl]
          omega
        unfold Result
        rw [ballocFrom, if_pos (BitVec.lt_def.2 hlt)]
        cases hfree : freeBitFrom (s.blk (s.bblockInt (start j))) (start j) s.size bpb 0 with
        | none =>
            rw [start_succ]
            have hnone := freeBitFrom_none hfit hfree
            refine ih hj' hfuel' fun c hc hsz => ?_
            rcases Nat.lt_or_ge c.toNat (j * 8192) with hcj | hcj
            · exact hbefore c hcj hsz
            · obtain ⟨bi, hbi, -, rfl⟩ := exists_bit hcj hc
              rw [(bit_start hj' hbi).2.1]
              exact hnone bi (Nat.zero_le bi) (by rw [Nat.zero_add]; exact hbi) hsz
        | some bi =>
            obtain ⟨-, hbi, hlt', hclear, hset⟩ := freeBitFrom_some hfree
            have hbi : bi < 8192 := by rwa [Nat.zero_add] at hbi
            have hbefore' : ∀ c, c < start j + BitVec.ofNat 32 bi → s.bit c = true := fun c hc => by
              rw [BitVec.lt_def] at hc hlt'
              rw [(bit_start (s := s) hj' hbi).1] at hc hlt'
              rcases Nat.lt_or_ge c.toNat (j * 8192) with hcj | hcj
              · exact hbefore c hcj (by rw [BitVec.lt_def]; omega)
              · obtain ⟨bj, hbj, hsum, rfl⟩ := exists_bit hcj (by omega)
                rw [(bit_start hj' hbj).2.1]
                exact hset bj (Nat.zero_le bj) (by omega)
            refine ⟨_, _, rfl, .inr ⟨fun h₀ => ?_, taken_ok hs hj' hbi hlt' hclear hbefore', rfl⟩⟩
            have hzero := hs.zero
            rw [← h₀, (bit_start hj' hbi).2.1, hclear] at hzero
            cases hzero
      · exact result_full (mt BitVec.lt_def.1 hlt) hstart hbefore

/-- With more than 2^31 bits, of which the first 2^31 are set, the loop goes on at an `int` that is negative, and looks
at a block before the free map. -/
theorem ballocFrom_wraps (hsize : 2 ^ 31 < s.size.toNat) (hset : ∀ c : Word, c.toNat < 2 ^ 31 → s.bit c = true) (n : Nat) :
    ballocFrom (n + 2 ^ 18) 0 s = ballocFrom n (start (2 ^ 18)) s ∧ s.bblockInt (start (2 ^ 18)) = s.bmapstart - 262144 := by
  constructor
  · have hloop : ∀ k j, j + k = 2 ^ 18 → ballocFrom (n + k) (start j) s = ballocFrom n (start (2 ^ 18)) s := by
      intro k
      induction k with
      | zero => exact fun j hj => by rw [← hj]; rfl
      | succ k ih =>
          intro j hj
          have hj' : j < 2 ^ 18 := by omega
          have hstart := start_toNat (j := j) (by omega)
          have hlt : start j < s.size := by
            rw [BitVec.lt_def]
            omega
          rw [← Nat.add_assoc, ballocFrom, if_pos hlt]
          cases hfree : freeBitFrom (s.blk (s.bblockInt (start j))) (start j) s.size bpb 0 with
          | none =>
              rw [start_succ]
              exact ih (j + 1) (by rw [Nat.add_assoc, Nat.add_comm 1]; exact hj)
          | some bi =>
              obtain ⟨-, hbi, -, hclear, -⟩ := freeBitFrom_some hfree
              have hbi : bi < 8192 := by rwa [Nat.zero_add] at hbi
              obtain ⟨hsum, hbit, -⟩ := bit_start (s := s) hj' hbi
              rw [hset _ (by rw [hsum]; omega), hclear] at hbit
              cases hbit
    exact hloop (2 ^ 18) 0 (Nat.zero_add _)
  · unfold Map.bblockInt
    rw [show (start (2 ^ 18)).sdiv 8192 = -262144 by decide]
    bv_omega

/-- All bits are set, but the block that the loop then looks at is empty. -/
def tooLarge (size bmapstart : Word) : Map := ⟨size, bmapstart, fun b _ => if b = bmapstart - 262144 then 0 else 0xff⟩

theorem tooLarge_bit (size bmapstart c : Word) : (tooLarge size bmapstart).bit c = true := by
  have hne : (tooLarge size bmapstart).bblock c ≠ bmapstart - 262144 := by
    have h₁ := div_toNat c
    have h₂ := c.isLt
    show c / 8192 + bmapstart ≠ _
    generalize c / 8192 = d at h₁
    bv_omega
  have hones : ∀ bi, bitSet (fun _ => 0xff) bi = true := fun bi => by
    rw [bitSet_eq]
    have hlt : bi % 8 < 8 := Nat.mod_lt _ (by decide)
    generalize bi % 8 = i at hlt
    interval_cases i <;> rfl
  show bitSet (fun _ => if (tooLarge size bmapstart).bblock c = bmapstart - 262144 then 0 else 0xff) _ = true
  rw [if_neg hne]
  exact hones _

theorem tooLarge_ok (size bmapstart : Word) : (tooLarge size bmapstart).Ok :=
  ⟨tooLarge_bit .., fun _ _ _ => tooLarge_bit ..⟩

theorem tooLarge_not_isSet {size : Word} (bmapstart : Word) (hsize : 2 ^ 31 < size.toNat) : ¬ (tooLarge size bmapstart).IsSet := by
  intro h
  obtain ⟨n, hn⟩ := h.balloc
  obtain ⟨r, t, hrun, hres⟩ := hn (n + 1 + 2 ^ 18) (by omega)
  obtain ⟨hloop, hblock⟩ := ballocFrom_wraps (s := tooLarge size bmapstart) hsize (fun c _ => tooLarge_bit ..) (n + 1)
  have hlt : start (2 ^ 18) < (tooLarge size bmapstart).size := by
    rw [BitVec.lt_def]
    exact hsize
  have hempty : (tooLarge size bmapstart).blk (bmapstart - 262144) = fun _ => 0 := funext fun _ => if_pos rfl
  have hfree : freeBitFrom (fun _ => 0) (start (2 ^ 18)) (tooLarge size bmapstart).size bpb 0 = some 0 := by
    rw [show bpb = 8191 + 1 from rfl, freeBitFrom, if_pos (by rw [show start (2 ^ 18) + BitVec.ofNat 32 0 = start (2 ^ 18) by decide]; exact hlt),
      if_neg (by decide)]
  have hr : r = start (2 ^ 18) := by
    rw [balloc, hloop, ballocFrom, if_pos hlt, hblock] at hrun
    simp only [show (tooLarge size bmapstart).bmapstart = bmapstart from rfl, hempty, hfree, Option.some.injEq, Prod.mk.injEq] at hrun
    rw [← hrun.1]
    decide
  rcases hres with ⟨h₀, -⟩ | ⟨-, htaken, -⟩
  · rw [hr] at h₀
    exact absurd h₀ (by decide)
  · have hfalse := htaken.free
    rw [tooLarge_bit] at hfalse
    cases hfalse

end Xv6.Fs.Bitmap
