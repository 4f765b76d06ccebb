import Xv6.Vm.Lemmas.Tables
import Xv6.Vm.Strings

/-!
# `copyinstr` reads a string

Within a page the two loops of `copyinstr` are the scan of a list. The equation with `fetchString` holds
for every memory and every root, whatever the tables look like.
-/

namespace Xv6.Vm

open Xv6.Lib

variable {s t : Ram} {r a k n max : Nat}

/-! ## One page -/

theorem fetchString_zero (s : Ram) (r a : Nat) : s.fetchString r a 0 = (false, []) := by
  rfl

theorem fetchString_none (h : s.userByte r a = none) : s.fetchString r a n = (false, []) := by
  cases n with
  | zero => exact fetchString_zero s r a
  | succ n =>
      rw [Ram.fetchString, h]

theorem fetchString_append {b : List (BitVec 8)} (hb : ∀ i, i < b.length → s.userByte r (a + i) = some (b.getD i 0)) (m : Nat) :
    s.fetchString r a (b.length + m) =
      if (b.takeWhile (· != 0)).length < b.length then (true, b.takeWhile (· != 0) ++ [0])
      else ((s.fetchString r (a + b.length) m).1, b ++ (s.fetchString r (a + b.length) m).2) := by
  induction b generalizing a with
  | nil => simp
  | cons c b ih =>
      have h₀ := hb 0 (Nat.succ_pos _)
      have hrest : ∀ i, i < b.length → s.userByte r (a + 1 + i) = some (b.getD i 0) := fun i hi => by
        have h₁ := hb (i + 1) (Nat.succ_lt_succ hi)
        rw [show a + (i + 1) = a + 1 + i by omega] at h₁
        exact h₁
      have ha : a + (c :: b).length = a + 1 + b.length := by
        rw [List.length_cons]
        omega
      rw [List.length_cons, Nat.add_right_comm, Ram.fetchString]
      rw [Nat.add_zero] at h₀
      rw [h₀]
      by_cases hc : c = 0
      · subst hc
        simp
      · have hc' : (c != 0) = true := by simpa using hc
        simp only [List.getD_cons_zero, hc, if_false, ih hrest, List.takeWhile_cons, hc', if_true, List.length_cons,
          Nat.add_lt_add_iff_right]
        rw [show a + 1 + b.length = a + (b.length + 1) by omega]
        split <;> rfl

/-! ## The loop over the pages -/

theorem page_lt_iff : a / pgSize < maxVa / pgSize ↔ a < maxVa := by
  unfold maxVa pgSize
  omega

theorem userPage_eq (ha : a < maxVa) :
    s.userPage r (a / pgSize) = (s.slot r (a / pgSize)).bind fun x =>
      if (s.pte x.1 x.2).has pteV ∧ (s.pte x.1 x.2).has pteU then some (pte2pa (s.pte x.1 x.2)) else none := by
  unfold Ram.userPage Ram.table
  rw [if_pos (page_lt_iff.2 ha)]
  cases s.slot r (a / pgSize) with
  | none => rfl
  | some x =>
      rw [Option.bind_some, Option.bind_some, Pte.decode]
      cases hv : (s.pte x.1 x.2).has pteV with
      | false => simp
      | true => simp [pteFlags_has_pteU]

theorem userPage_none (ha : maxVa ≤ a) : s.userPage r (a / pgSize) = none := by
  unfold Ram.userPage Ram.table
  rw [if_neg (fun h => absurd (page_lt_iff.1 h) (by omega)), Option.bind_none]

theorem userByte_none (h : s.userPage r (a / pgSize) = none) : s.userByte r a = none := by
  unfold Ram.userByte
  rw [h, Option.map_none]

theorem userByte_page {p : Nat} (h : s.userPage r (a / pgSize) = some p) (hn : n ≤ pgSize - a % pgSize) :
    ∀ i, i < (s.read p (a % pgSize) n).length → s.userByte r (a + i) = some ((s.read p (a % pgSize) n).getD i 0) := by
  intro i hi
  rw [Ram.read, List.length_map, List.length_range] at hi
  have h₁ : (a + i) / pgSize = a / pgSize ∧ (a + i) % pgSize = a % pgSize + i := by
    unfold pgSize at hn ⊢
    omega
  unfold Ram.userByte Ram.read
  rw [h₁.1, h₁.2, h, Option.map_some, List.getD_eq_getElem?_getD, List.getElem?_map, List.getElem?_range hi]
  rfl

theorem sub_pgRoundDown (a : Nat) : a - pgRoundDown a = a % pgSize := by
  unfold pgRoundDown pgSize
  omega

theorem pgRoundDown_div (a : Nat) : pgRoundDown a / pgSize = a / pgSize := Nat.mul_div_cancel _ (by decide)

theorem maxVa_le_pgRoundDown : maxVa ≤ pgRoundDown a ↔ maxVa ≤ a := by
  unfold pgRoundDown maxVa pgSize
  omega

/-- Page by page, the loop reads what `fetchString` reads byte by byte. -/
theorem wp_copyinstrLoop {fuel : Nat} (s : Ram) (h : max ≤ fuel) :
    wp (copyinstrLoop r fuel a max) (fun res t => res = s.fetchString r a max ∧ t = s) (fun _ _ => False) s := by
  induction fuel generalizing a max with
  | zero =>
      rw [Nat.le_zero.1 h, copyinstrLoop, wp_pure, fetchString_zero]
      exact ⟨rfl, rfl⟩
  | succ fuel ih =>
      refine wp_ite (fun h₀ => ?_) fun h₀ => wp_ite (fun hva => ?_) fun hva => ?_
      · rw [h₀, wp_pure, fetchString_zero]
        exact ⟨rfl, rfl⟩
      · rw [wp_pure, fetchString_none (userByte_none (userPage_none (maxVa_le_pgRoundDown.1 hva)))]
        exact ⟨rfl, rfl⟩
      have ha : a < maxVa := Nat.lt_of_not_le fun h₁ => hva (maxVa_le_pgRoundDown.2 h₁)
      have hpage := userPage_eq (s := s) (r := r) ha
      rw [wp_bind]
      refine wp_of_ok (walk_eq_slot (Nat.lt_of_not_le hva)) ?_
      rw [pgRoundDown_div]
      cases hslot : s.slot r (a / pgSize) with
      | none =>
          rw [hslot, Option.bind_none] at hpage
          rw [wp_pure, fetchString_none (userByte_none hpage)]
          exact ⟨rfl, rfl⟩
      | some x =>
          rw [hslot, Option.bind_some] at hpage
          simp only [readPte, wp_bind, wp_get, wp_pure, sub_pgRoundDown]
          generalize s.pte x.1 x.2 = pte at hpage ⊢
          refine wp_ite (fun hno => ?_) fun hno => ?_
          · rw [if_neg (by simpa [or_iff_not_imp_left] using hno)] at hpage
            rw [wp_pure, fetchString_none (userByte_none hpage)]
            exact ⟨rfl, rfl⟩
          rw [if_pos (by simpa using hno)] at hpage
          rw [wp_bind, wp_get]
          generalize hk : min (pgSize - a % pgSize) max = k
          have hpos : 0 < k := by
            have h₁ : a % pgSize < pgSize := Nat.mod_lt _ (by decide)
            omega
          have hkle : k ≤ pgSize - a % pgSize := hk ▸ Nat.min_le_left _ _
          have hbytes := userByte_page hpage hkle
          have hlen : (s.read (pte2pa pte) (a % pgSize) k).length = k := by rw [Ram.read, List.length_map, List.length_range]
          have hstep := fetchString_append hbytes (max - k)
          rw [hlen, show k + (max - k) = max by omega] at hstep
          rw [hstep]
          refine wp_ite (fun hstr => ?_) fun hstr => ?_
          · rw [wp_pure, if_pos hstr]
            exact ⟨rfl, rfl⟩
          · rw [wp_bind, if_neg hstr]
            refine wp_post (ih (by omega)) ?_
            rintro _ t ⟨rfl, rfl⟩
            rw [wp_pure]
            refine ⟨?_, rfl⟩
            -- the next page starts where this one ends, or nothing more is read
            rcases Nat.le_total max (pgSize - a % pgSize) with h₁ | h₁
            · rw [show max - k = 0 by omega, fetchString_zero, fetchString_zero, List.append_nil]
            · have hnext : pgRoundDown a + pgSize = a + k := by
                rw [← hk, Nat.min_eq_left h₁]
                unfold pgRoundDown pgSize
                omega
              rw [hnext]

/-- `copyinstr` always comes back, changes nothing and reads the string. -/
theorem copyinstr_eq (s : Ram) (r a max : Nat) : copyinstr r a max s = .ok (s.fetchString r a max) s := by
  obtain ⟨res, t, h, rfl, rfl⟩ := wp_returns (wp_copyinstrLoop (r := r) (a := a) s (Nat.le_refl max))
  exact h

/-! ## The string -/

theorem fetchString_length (s : Ram) (r a max : Nat) : (s.fetchString r a max).2.length ≤ max := by
  induction max generalizing a with
  | zero => rw [fetchString_zero]; exact Nat.le_refl 0
  | succ max ih =>
      rw [Ram.fetchString]
      cases s.userByte r a with
      | none => exact Nat.zero_le _
      | some c =>
          have h₁ := ih (a + 1)
          simp only
          split
          · exact Nat.succ_le_succ (Nat.zero_le _)
          · exact Nat.succ_le_succ h₁

theorem Ram.StringAt.succ {c : BitVec 8} (hc : s.userByte r a = some c) (h₀ : c ≠ 0) (h : s.StringAt r (a + 1) k) :
    s.StringAt r a (k + 1) where
  last := by
    rw [← h.last]
    congr 1
    omega
  before i hi := by
    cases i with
    | zero => exact ⟨c, hc, h₀⟩
    | succ i =>
        obtain ⟨d, hd⟩ := h.before i (by omega)
        rw [show a + 1 + i = a + (i + 1) by omega] at hd
        exact ⟨d, hd⟩

theorem Ram.StringAt.tail (h : s.StringAt r a (k + 1)) : s.StringAt r (a + 1) k where
  last := by
    rw [← h.last]
    congr 1
    omega
  before i hi := by
    obtain ⟨d, hd⟩ := h.before (i + 1) (by omega)
    rw [show a + (i + 1) = a + 1 + i by omega] at hd
    exact ⟨d, hd⟩

theorem userBytes_succ (s : Ram) (r a n : Nat) :
    s.userBytes r a (n + 1) = (s.userByte r a).getD 0 :: s.userBytes r (a + 1) n := by
  unfold Ram.userBytes
  rw [List.range_succ_eq_map, List.map_cons, List.map_map, Nat.add_zero]
  congr 1
  apply List.map_congr_left
  intro i _
  rw [Function.comp_apply, show a + 1 + i = a + (i + 1) by omega]

theorem userBytes_snoc (s : Ram) (r a n : Nat) :
    s.userBytes r a (n + 1) = s.userBytes r a n ++ [(s.userByte r (a + n)).getD 0] := by
  unfold Ram.userBytes
  rw [List.range_succ, List.map_append]
  rfl

theorem Ram.StringAt.zero_notMem (h : s.StringAt r a k) : 0 ∉ s.userBytes r a k := by
  intro h₀
  obtain ⟨i, hi, he⟩ := List.mem_map.1 h₀
  obtain ⟨c, hc, hne⟩ := h.before i (List.mem_range.1 hi)
  rw [hc, Option.getD_some] at he
  exact hne he

theorem fetchString_of_stringAt (h : s.StringAt r a k) (hk : k < max) :
    s.fetchString r a max = (true, s.userBytes r a (k + 1)) := by
  induction k generalizing a max with
  | zero =>
      obtain ⟨max, rfl⟩ := Nat.exists_eq_succ_of_ne_zero (Nat.ne_of_gt hk)
      have h₀ := h.last
      rw [Nat.add_zero] at h₀
      rw [Ram.fetchString, h₀, userBytes_succ, h₀]
      simp [Ram.userBytes]
  | succ k ih =>
      obtain ⟨max, rfl⟩ := Nat.exists_eq_succ_of_ne_zero (Nat.ne_of_gt (Nat.lt_of_le_of_lt (Nat.zero_le _) hk))
      obtain ⟨c, hc, h₀⟩ := h.before 0 (Nat.succ_pos k)
      rw [Nat.add_zero] at hc
      have htail := ih h.tail (Nat.lt_of_succ_lt_succ hk)
      rw [Ram.fetchString, hc, userBytes_succ, hc]
      simp only [h₀, if_false, htail, Option.getD_some]

theorem stringAt_of_fetchString (h : (s.fetchString r a max).1 = true) : ∃ k, k < max ∧ s.StringAt r a k := by
  induction max generalizing a with
  | zero =>
      rw [fetchString_zero] at h
      cases h
  | succ max ih =>
      rw [Ram.fetchString] at h
      cases hc : s.userByte r a with
      | none =>
          rw [hc] at h
          cases h
      | some c =>
          rw [hc] at h
          by_cases h₀ : c = 0
          · subst h₀
            exact ⟨0, Nat.succ_pos _, hc, fun i hi => absurd hi (Nat.not_lt_zero i)⟩
          · simp only [h₀, if_false] at h
            obtain ⟨k, hk, hs⟩ := ih h
            exact ⟨k + 1, by omega, hs.succ hc h₀⟩

theorem fetchString_iff : (s.fetchString r a max).1 = true ↔ ∃ k, k < max ∧ s.StringAt r a k :=
  ⟨stringAt_of_fetchString, fun ⟨_, hk, h⟩ => by rw [fetchString_of_stringAt h hk]⟩

/-- Two memories that differ where the first has nothing and the second a zero. -/
theorem fetchString_eq_iff {L : Nat → Prop} (hsame : ∀ b, ¬ L b → t.userByte r b = s.userByte r b)
    (hnone : ∀ b, L b → s.userByte r b = none) (hzero : ∀ b, L b → t.userByte r b = some 0) :
    s.fetchString r a max = t.fetchString r a max ↔
      ¬ ∃ k, k < max ∧ L (a + k) ∧ ∀ j, j < k → ∃ c, s.userByte r (a + j) = some c ∧ c ≠ 0 := by
  induction max generalizing a with
  | zero =>
      rw [fetchString_zero, fetchString_zero]
      exact iff_of_true rfl fun ⟨k, hk, _⟩ => Nat.not_lt_zero k hk
  | succ max ih =>
      rw [Ram.fetchString, Ram.fetchString]
      by_cases hL : L a
      · rw [hnone a hL, hzero a hL]
        exact iff_of_false (by simp) fun hno => hno ⟨0, Nat.succ_pos _, hL, fun j hj => absurd hj (Nat.not_lt_zero j)⟩
      rw [hsame a hL]
      cases hc : s.userByte r a with
      | none =>
          simp only [true_iff]
          rintro ⟨k, hk, hLk, hbefore⟩
          cases k with
          | zero => exact hL hLk
          | succ k =>
              obtain ⟨c, hc', -⟩ := hbefore 0 (Nat.succ_pos k)
              rw [Nat.add_zero, hc] at hc'
              cases hc'
      | some c =>
          by_cases h₀ : c = 0
          · subst h₀
            simp only [if_true, true_iff]
            rintro ⟨k, hk, hLk, hbefore⟩
            cases k with
            | zero => exact hL hLk
            | succ k =>
                obtain ⟨c, hc', hne⟩ := hbefore 0 (Nat.succ_pos k)
                rw [Nat.add_zero, hc] at hc'
                cases hc'
                exact hne rfl
          · simp only [h₀, if_false, Prod.mk.injEq, List.cons.injEq, true_and]
            rw [← Prod.ext_iff, ih]
            refine not_congr ⟨?_, ?_⟩
            · rintro ⟨k, hk, hLk, hbefore⟩
              refine ⟨k + 1, by omega, by rwa [show a + (k + 1) = a + 1 + k by omega], fun j hj => ?_⟩
              cases j with
              | zero => exact ⟨c, hc, h₀⟩
              | succ j =>
                  rw [show a + (j + 1) = a + 1 + j by omega]
                  exact hbefore j (by omega)
            · rintro ⟨k, hk, hLk, hbefore⟩
              cases k with
              | zero => exact absurd hLk hL
              | succ k =>
                  refine ⟨k, by omega, by rwa [show a + 1 + k = a + (k + 1) by omega], fun j hj => ?_⟩
                  rw [show a + 1 + j = a + (j + 1) by omega]
                  exact hbefore (j + 1) (by omega)

theorem takeWhile_userBytes (h : s.StringAt r a k) :
    ((s.userBytes r a (k + 1)).takeWhile (· != 0)).length = k := by
  induction k generalizing a with
  | zero =>
      have h₀ := h.last
      rw [Nat.add_zero] at h₀
      rw [userBytes_succ, h₀]
      simp
  | succ k ih =>
      obtain ⟨c, hc, h₀⟩ := h.before 0 (Nat.succ_pos k)
      rw [Nat.add_zero] at hc
      have hc' : (c != 0) = true := by simpa using h₀
      rw [userBytes_succ, hc, Option.getD_some, List.takeWhile_cons, if_pos hc', List.length_cons, ih h.tail]

theorem strlen_userBytes (h : s.StringAt r a k) (hk : k < 2 ^ 31) : strlen (s.userBytes r a (k + 1)) = k := by
  unfold strlen
  rw [takeWhile_userBytes h]
  exact Int.bmod_eq_of_le (by omega) (by omega)

theorem fetchstr_of_stringAt {p : Proc} (h : s.StringAt p.pagetable a k) (hk : k < max) (hmax : max < 2 ^ 31) :
    fetchstr p a max s = .ok ((k : Int), s.userBytes p.pagetable a (k + 1)) s := by
  have hint : ((max : Int) % 2 ^ 64).toNat = max := by omega
  have hwp : wp (fetchstr p a max) (fun res t => res = ((k : Int), s.userBytes p.pagetable a (k + 1)) ∧ t = s)
      (fun _ _ => False) s := by
    rw [fetchstr, wp_bind, hint]
    refine wp_of_ok (copyinstr_eq s p.pagetable a max) ?_
    rw [fetchString_of_stringAt h hk]
    exact ⟨by rw [strlen_userBytes h (by omega)], rfl⟩
  obtain ⟨res, t, hf, rfl, rfl⟩ := wp_returns hwp
  exact hf

end Xv6.Vm
