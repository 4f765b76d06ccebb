import Xv6.Grep.Match

/-!
# The matcher decides what patterns mean

`matchhere` is about a match at the start of the text. The induction is over the pattern; `matchstar` has one of its own
over the text.
-/

namespace Xv6.Grep

variable {c d t : Byte} {re text : List Byte} {items : List Item} {stop : Bool}

/-- A match at the start of the text. -/
def Here (items : List Item) (stop : Bool) (text : List Byte) : Prop :=
  ∃ part after, text = part ++ after ∧ Matches items part ∧ (stop = true → after = [])

theorem fits_iff : (c == ascii '.' || c == t) = true ↔ Fits c t := by
  rw [Bool.or_eq_true, beq_iff_eq, beq_iff_eq]
  rfl

theorem here_nil_false : Here [] false text := ⟨[], text, rfl, .nil, fun h => by cases h⟩

theorem here_nil_true : Here [] true text ↔ text = [] := by
  constructor
  · rintro ⟨part, after, rfl, h, hstop⟩
    cases h
    exact hstop rfl
  · rintro rfl
    exact ⟨[], [], rfl, .nil, fun _ => rfl⟩

theorem not_here_one_nil : ¬ Here (.one c :: items) stop [] := by
  rintro ⟨part, after, htext, h, -⟩
  cases h
  cases htext

theorem here_one : Here (.one c :: items) stop (t :: text) ↔ Fits c t ∧ Here items stop text := by
  constructor
  · rintro ⟨part, after, htext, h, hstop⟩
    cases h with
    | one hc h =>
        cases htext
        exact ⟨hc, _, after, rfl, h, hstop⟩
  · rintro ⟨hc, part, after, rfl, h, hstop⟩
    exact ⟨t :: part, after, rfl, .one hc h, hstop⟩

theorem here_star : Here (.star c :: items) stop text ↔ ∃ run rest, text = run ++ rest ∧ (∀ t ∈ run, Fits c t) ∧ Here items stop rest := by
  constructor
  · rintro ⟨part, after, rfl, h, hstop⟩
    cases h with
    | @star _ run _ part hc h => exact ⟨run, part ++ after, List.append_assoc .., hc, part, after, rfl, h, hstop⟩
  · rintro ⟨run, rest, rfl, hc, part, after, rfl, h, hstop⟩
    exact ⟨run ++ part, after, (List.append_assoc ..).symm, .star hc h, hstop⟩

/-- `matchstar` tries every run of characters that fit. -/
theorem matchstar_iff {matchhere : List Byte → Bool} : matchstar matchhere c text = true ↔
    ∃ run rest, text = run ++ rest ∧ (∀ t ∈ run, Fits c t) ∧ matchhere rest = true := by
  induction text with
  | nil =>
      rw [matchstar]
      constructor
      · exact fun h => ⟨[], [], rfl, fun _ ht => absurd ht List.not_mem_nil, h⟩
      · rintro ⟨run, rest, htext, -, h⟩
        obtain ⟨rfl, rfl⟩ := List.append_eq_nil_iff.1 htext.symm
        exact h
  | cons t text ih =>
      have hfits : (t == c || c == ascii '.') = true ↔ Fits c t := by
        rw [Bool.or_eq_true, beq_iff_eq, beq_iff_eq]
        exact ⟨fun h => h.symm.imp_right Eq.symm, fun h => h.symm.imp_left Eq.symm⟩
      rw [matchstar, Bool.or_eq_true, Bool.and_eq_true, hfits, ih]
      constructor
      · rintro (h | ⟨hc, run, rest, rfl, hrun, h⟩)
        · exact ⟨[], t :: text, rfl, fun _ ht => absurd ht List.not_mem_nil, h⟩
        · refine ⟨t :: run, rest, rfl, fun u hu => ?_, h⟩
          rcases List.mem_cons.1 hu with rfl | hu
          · exact hc
          · exact hrun u hu
      · rintro ⟨run, rest, htext, hrun, h⟩
        cases run with
        | nil =>
            obtain rfl : t :: text = rest := htext
            exact .inl h
        | cons u run =>
            cases htext
            exact .inr ⟨hrun _ List.mem_cons_self, run, rest, rfl, fun u hu => hrun u (List.mem_cons_of_mem _ hu), h⟩

theorem matchhere_one {rest : List Byte → Bool} (hrest : ∀ text, rest text = true ↔ Here items stop text) :
    (match text with
      | [] => false
      | t :: text => (c == ascii '.' || c == t) && rest text) = true ↔ Here (.one c :: items) stop text := by
  cases text with
  | nil => exact iff_of_false Bool.false_ne_true not_here_one_nil
  | cons t text => rw [here_one, ← fits_iff, ← hrest text, Bool.and_eq_true]

theorem matchhere_iff : ∀ (re text : List Byte), matchhere re text = true ↔ Here (readItems re).1 (readItems re).2 text
  | [], text => by
      rw [matchhere]
      exact iff_of_true rfl here_nil_false
  | [c], text => by
      unfold matchhere readItems
      by_cases hc : c = ascii '$'
      · rw [if_pos hc, if_pos hc, here_nil_true, List.isEmpty_iff]
      · rw [if_neg hc, if_neg hc]
        exact matchhere_one (matchhere_iff [])
  | c :: d :: re, text => by
      unfold matchhere readItems
      by_cases hd : d = ascii '*'
      · rw [if_pos hd, if_pos hd, here_star, matchstar_iff]
        simp only [matchhere_iff re]
      · rw [if_neg hd, if_neg hd]
        exact matchhere_one (matchhere_iff (d :: re))

theorem matchAnywhere_iff : matchAnywhere re text = true ↔ ∃ before rest, text = before ++ rest ∧ matchhere re rest = true := by
  induction text with
  | nil =>
      rw [matchAnywhere]
      constructor
      · exact fun h => ⟨[], [], rfl, h⟩
      · rintro ⟨before, rest, htext, h⟩
        obtain ⟨rfl, rfl⟩ := List.append_eq_nil_iff.1 htext.symm
        exact h
  | cons t text ih =>
      rw [matchAnywhere, Bool.or_eq_true, ih]
      constructor
      · rintro (h | ⟨before, rest, rfl, h⟩)
        · exact ⟨[], t :: text, rfl, h⟩
        · exact ⟨t :: before, rest, rfl, h⟩
      · rintro ⟨before, rest, htext, h⟩
        cases before with
        | nil =>
            obtain rfl : t :: text = rest := htext
            exact .inl h
        | cons u before =>
            cases htext
            exact .inr ⟨before, rest, rfl, h⟩

end Xv6.Grep
