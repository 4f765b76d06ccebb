import Mathlib.Tactic.IntervalCases
import Xv6.Libc.Lemmas.Digits

/-!
# The two format interpreters, piece by piece

Each reads a piece of the format and goes on with the rest. The kernel's takes `%lx` for a character it does not know.
-/

namespace Xv6.Libc

variable {str : BitVec 64 → List Byte} {fmt : List Byte} {ap : List (BitVec 64)} {w : BitVec 64} {c : Conv} {ps : List Piece}

/-! ## What a conversion prints -/

def decimal (digits : Nat → Byte) (w : BitVec 64) : List Byte := spell digits (w.slt 0) (numeral 10 w.toInt.natAbs)

def hex (digits : Nat → Byte) (w : BitVec 64) : List Byte := (numeral 16 w.toNat).map digits

/-- `vaHex` is how `%x` reads its argument. -/
def text (digits : Nat → Byte) (vaHex : BitVec 64 → BitVec 64) (str : BitVec 64 → List Byte) : Conv → BitVec 64 → List Byte
  | .d, w => decimal digits (vaInt w)
  | .ld, w => decimal digits w
  | .x, w => hex digits (vaHex w)
  | .lx, w => hex digits w
  | .p, w => printptr digits w
  | .s, w => putString str w

/-- What a format prints if each conversion prints `f` of its argument. -/
def texts (f : Conv → BitVec 64 → List Byte) : List Piece → List (BitVec 64) → List Byte
  | .lit c _ :: ps, ap => c :: texts f ps ap
  | .percent :: ps, ap => ascii '%' :: texts f ps ap
  | .conv c :: ps, w :: ap => f c w ++ texts f ps ap
  | _, _ => []

theorem printint_decimal (digits : Nat → Byte) (w : BitVec 64) : printint digits w 10 true = some (decimal digits w) := by
  rw [printint_eq digits w true (.inl rfl), Bool.true_and]
  rfl

theorem printint_hex (digits : Nat → Byte) (w : BitVec 64) : printint digits w 16 false = some (hex digits w) := by
  rw [printint_eq digits w false (.inr rfl), Bool.false_and]
  rfl

theorem next_some {f : BitVec 64 → Option (List Byte)} {rest : List (BitVec 64) → Printed} {out : List Byte} (h : f w = some out) :
    next f rest (w :: ap) = (rest ap).after out := by
  rw [next, h, Option.bind_some]

theorem after_some {out out' : List Byte} {rest : List (BitVec 64)} : Printed.after out (some (out', rest)) = some (out ++ out', rest) := rfl

theorem format_lit {b : Byte} (h : b ≠ 0 ∧ b ≠ ascii '%') : format (.lit b h :: ps) = b :: format ps := rfl

theorem format_percent : format (.percent :: ps) = ascii '%' :: ascii '%' :: format ps := rfl

theorem format_conv : format (.conv c :: ps) = ascii '%' :: (c.bytes ++ format ps) := rfl

/-! ## The kernel -/

theorem kernel_lit {b : Byte} (h : b ≠ ascii '%') : Kernel.printf str 0 (b :: fmt) ap = (Kernel.printf str 0 fmt ap).after [b] := by
  rw [Kernel.printf, if_pos h]

theorem kernel_percent : Kernel.printf str 0 (ascii '%' :: ascii '%' :: fmt) ap = (Kernel.printf str 0 fmt ap).after [ascii '%'] := by
  rw [Kernel.printf]
  rfl

theorem kernel_conv (hc : c ≠ .lx) : Kernel.printf str 0 (ascii '%' :: (c.bytes ++ fmt)) (w :: ap) =
    (Kernel.printf str 0 fmt ap).after (text Kernel.digits vaInt str c w) := by
  rw [Kernel.printf, if_neg (by decide)]
  cases c with
  | d => exact next_some (f := fun w => Kernel.printint (vaInt w) 10 true) (printint_decimal _ _)
  | ld => exact next_some (f := fun w => Kernel.printint w 10 true) (printint_decimal _ _)
  | x => exact next_some (f := fun w => Kernel.printint (vaInt w) 16 false) (printint_hex _ _)
  | lx => exact absurd rfl hc
  | p => rfl
  | s => rfl

theorem after_after (out out' : List Byte) (p : Printed) : (p.after out').after out = p.after (out ++ out') := by
  cases p with
  | none => rfl
  | some q => simp [Printed.after]

theorem kernel_lx : Kernel.printf str 0 (ascii '%' :: (Conv.lx.bytes ++ fmt)) ap =
    (Kernel.printf str 0 fmt ap).after (ascii '%' :: Conv.lx.bytes) := by
  rw [Kernel.printf, if_neg (by decide)]
  show (Kernel.printf str 0 (ascii 'x' :: fmt) ap).after [ascii '%', ascii 'l'] = _
  rw [kernel_lit (by decide), after_after]
  rfl

theorem kernel_run (str : BitVec 64 → List Byte) (hlen : (conversions ps).length ≤ ap.length) :
    ∃ out rest, Kernel.printf str 0 (format ps) ap = some (out, rest) ∧
    rest.length + ((conversions ps).filter (· ≠ .lx)).length = ap.length := by
  induction ps generalizing ap with
  | nil => exact ⟨[], ap, rfl, rfl⟩
  | cons q ps ih =>
      cases q with
      | lit b h =>
          obtain ⟨out, rest, hrun, hrest⟩ := ih hlen
          exact ⟨[b] ++ out, rest, by rw [format_lit, kernel_lit h.2, hrun, after_some], hrest⟩
      | percent =>
          obtain ⟨out, rest, hrun, hrest⟩ := ih hlen
          exact ⟨[ascii '%'] ++ out, rest, by rw [format_percent, kernel_percent, hrun, after_some], hrest⟩
      | conv c =>
          cases ap with
          | nil => exact absurd hlen (Nat.not_succ_le_zero _)
          | cons w ap =>
              by_cases hc : c = .lx
              · subst hc
                have hle : (conversions ps).length ≤ (w :: ap).length := Nat.le_of_succ_le hlen
                obtain ⟨out, rest, hrun, hrest⟩ := ih hle
                exact ⟨_, rest, by rw [format_conv, kernel_lx, hrun, after_some], hrest⟩
              · obtain ⟨out, rest, hrun, hrest⟩ := ih (Nat.le_of_succ_le_succ hlen)
                refine ⟨_, rest, by rw [format_conv, kernel_conv hc, hrun, after_some], ?_⟩
                rw [conversions, List.filter_cons_of_pos (by simpa using hc), List.length_cons, List.length_cons]
                omega

/-- Without `%lx` the kernel prints the texts of the conversions. -/
theorem kernel_texts (hlen : ap.length = (conversions ps).length) (hc : Conv.lx ∉ conversions ps) :
    Kernel.printf str 0 (format ps) ap = some (texts (text Kernel.digits vaInt str) ps ap, []) := by
  induction ps generalizing ap with
  | nil =>
      obtain rfl := List.length_eq_zero_iff.1 hlen
      rfl
  | cons q ps ih =>
      cases q with
      | lit b h =>
          rw [format_lit, kernel_lit h.2, ih hlen hc]
          rfl
      | percent =>
          rw [format_percent, kernel_percent, ih hlen hc]
          rfl
      | conv c =>
          obtain ⟨h₁, h₂⟩ := not_or.1 (mt List.mem_cons.2 hc)
          cases ap with
          | nil => cases hlen
          | cons w ap =>
              rw [format_conv, kernel_conv (Ne.symm h₁), ih (Nat.succ.inj hlen) h₂]
              rfl

/-! ## The user library -/

theorem user_lit {b : Byte} (h : b ≠ ascii '%') :
    User.vprintf str false 0 (b :: fmt) ap = (User.vprintf str false 0 fmt ap).after [b] := by
  rw [User.vprintf, if_neg h]

theorem user_percent : User.vprintf str false 0 (ascii '%' :: ascii '%' :: fmt) ap =
    (User.vprintf str false 0 fmt ap).after [ascii '%'] := by
  rw [User.vprintf, if_pos rfl, User.vprintf]
  rfl

theorem user_conv : User.vprintf str false 0 (ascii '%' :: (c.bytes ++ fmt)) (w :: ap) =
    (User.vprintf str false 0 fmt ap).after (text User.digits vaUint str c w) := by
  rw [User.vprintf, if_pos rfl]
  cases c with
  | d => exact next_some (f := fun w => User.printint (vaInt w) 10 true) (printint_decimal _ _)
  | ld => exact next_some (f := fun w => User.printint w 10 true) (printint_decimal _ _)
  | x => exact next_some (f := fun w => User.printint (vaUint w) 16 false) (printint_hex _ _)
  | lx => exact next_some (f := fun w => User.printint w 16 false) (printint_hex _ _)
  | p => rfl
  | s => rfl

theorem user_texts (hlen : ap.length = (conversions ps).length) :
    User.vprintf str false 0 (format ps) ap = some (texts (text User.digits vaUint str) ps ap, []) := by
  induction ps generalizing ap with
  | nil =>
      obtain rfl := List.length_eq_zero_iff.1 hlen
      rfl
  | cons q ps ih =>
      cases q with
      | lit b h =>
          rw [format_lit, user_lit h.2, ih hlen]
          rfl
      | percent =>
          rw [format_percent, user_percent, ih hlen]
          rfl
      | conv c =>
          cases ap with
          | nil => cases hlen
          | cons w ap =>
              rw [format_conv, user_conv, ih (Nat.succ.inj hlen)]
              rfl

/-! ## Comparing the texts -/

theorem foldCase_digits {i : Nat} (hi : i < 16) : foldCase (Kernel.digits i) = foldCase (User.digits i) := by
  interval_cases i <;> decide

theorem foldCase_spell {ds : List Nat} (hds : ∀ d ∈ ds, d < 16) (neg : Bool) :
    (spell Kernel.digits neg ds).map foldCase = (spell User.digits neg ds).map foldCase := by
  unfold spell
  rw [List.map_append, List.map_append, List.map_map, List.map_map]
  congr 1
  exact List.map_congr_left fun d hd => foldCase_digits (hds d hd)

theorem foldCase_nibbles (n : Nat) (x : BitVec 64) :
    (putNibbles Kernel.digits n x).map foldCase = (putNibbles User.digits n x).map foldCase := by
  induction n generalizing x with
  | zero => rfl
  | succ n ih =>
      have hlt : (x >>> 60).toNat < 16 := by
        have h₁ := x.isLt
        rw [BitVec.toNat_ushiftRight, Nat.shiftRight_eq_div_pow]
        omega
      rw [putNibbles, putNibbles, List.map_cons, List.map_cons, foldCase_digits hlt, ih]

theorem foldCase_text (str : BitVec 64 → List Byte) (vaHex : BitVec 64 → BitVec 64) (c : Conv) (w : BitVec 64) :
    (text Kernel.digits vaHex str c w).map foldCase = (text User.digits vaHex str c w).map foldCase := by
  have hdec : ∀ w, (decimal Kernel.digits w).map foldCase = (decimal User.digits w).map foldCase := fun w =>
    foldCase_spell (fun d hd => Nat.lt_trans ((numeral_ok (by decide) _).2.1 d hd) (by decide)) _
  have hhex : ∀ w, (hex Kernel.digits w).map foldCase = (hex User.digits w).map foldCase := fun w =>
    foldCase_spell (fun d hd => (numeral_ok (by decide) _).2.1 d hd) false
  cases c with
  | d => exact hdec _
  | ld => exact hdec _
  | x => exact hhex _
  | lx => exact hhex _
  | p =>
      show (printptr Kernel.digits w).map foldCase = (printptr User.digits w).map foldCase
      rw [printptr, printptr, List.map_append, List.map_append, foldCase_nibbles]
  | s => rfl

/-- An argument of `%x` that is less than 2^31 is the same number either way. -/
theorem vaInt_eq (h : (w.setWidth 32).toNat < 2 ^ 31) : vaInt w = vaUint w := by
  have hmsb : (w.setWidth 32).msb = false := by
    rw [BitVec.msb_eq_decide, decide_eq_false_iff_not]
    omega
  exact BitVec.signExtend_eq_setWidth_of_msb_false hmsb

theorem text_length (str : BitVec 64 → List Byte) (vaHex : BitVec 64 → BitVec 64) (c : Conv) (w : BitVec 64) :
    (text Kernel.digits vaHex str c w).length = (text User.digits vaHex str c w).length := by
  have h₁ := congrArg List.length (foldCase_text str vaHex c w)
  rw [List.length_map, List.length_map] at h₁
  exact h₁

theorem hex_longer (h : 2 ^ 31 ≤ (w.setWidth 32).toNat) : (hex User.digits (vaUint w)).length < (hex Kernel.digits (vaInt w)).length := by
  have hlt := (w.setWidth 32).isLt
  have hmsb : (w.setWidth 32).msb = true := by
    rw [BitVec.msb_eq_decide, decide_eq_true_iff]
    omega
  have huser : (vaUint w).toNat = (w.setWidth 32).toNat := by
    unfold vaUint
    rw [BitVec.toNat_setWidth]
    omega
  have hkernel : 16 ^ 15 ≤ (vaInt w).toNat := by
    unfold vaInt
    rw [BitVec.toNat_signExtend, hmsb, BitVec.toNat_setWidth]
    simp only [if_true]
    omega
  unfold hex
  rw [List.length_map, List.length_map, huser]
  have h₁ : (numeral 16 (w.setWidth 32).toNat).length ≤ 8 := numeral_length_le (by decide) (by decide) (by omega)
  have h₂ : 15 < (numeral 16 (vaInt w).toNat).length := lt_numeral_length (by decide) hkernel
  omega

theorem Supported.tail {q : Piece} (h : Supported (q :: ps) ap) (hq : conversions (q :: ps) = conversions ps) : Supported ps ap := by
  unfold Supported at h
  rw [hq] at h
  exact h

theorem texts_agree (h : Supported ps ap) :
    (texts (text Kernel.digits vaInt str) ps ap).map foldCase = (texts (text User.digits vaUint str) ps ap).map foldCase := by
  induction ps generalizing ap with
  | nil => rfl
  | cons q ps ih =>
      cases q with
      | lit b hb => rw [texts, texts, List.map_cons, List.map_cons, ih (h.tail rfl)]
      | percent => rw [texts, texts, List.map_cons, List.map_cons, ih (h.tail rfl)]
      | conv c =>
          cases ap with
          | nil => rfl
          | cons w ap =>
              have hrest : Supported ps ap := fun q hq => h q (List.mem_cons_of_mem _ hq)
              have hx := (h (c, w) List.mem_cons_self).2
              have hconv : (text Kernel.digits vaInt str c w).map foldCase = (text User.digits vaUint str c w).map foldCase := by
                rw [foldCase_text]
                cases c with
                | x => rw [text, text, vaInt_eq (hx rfl)]
                | _ => rfl
              rw [texts, texts, List.map_append, List.map_append, hconv, ih hrest]

/-- The kernel never prints less, and as much only if the arguments of `%x` are less than 2^31. -/
theorem texts_length (hlen : ap.length = (conversions ps).length) :
    (texts (text User.digits vaUint str) ps ap).length ≤ (texts (text Kernel.digits vaInt str) ps ap).length ∧
    ((texts (text Kernel.digits vaInt str) ps ap).length = (texts (text User.digits vaUint str) ps ap).length →
      ∀ q ∈ (conversions ps).zip ap, q.1 = .x → (q.2.setWidth 32).toNat < 2 ^ 31) := by
  induction ps generalizing ap with
  | nil => exact ⟨Nat.le_refl _, fun _ q hq => by cases hq⟩
  | cons q ps ih =>
      cases q with
      | lit b hb =>
          obtain ⟨h₁, h₂⟩ := ih hlen
          exact ⟨Nat.succ_le_succ h₁, fun h => h₂ (Nat.succ.inj h)⟩
      | percent =>
          obtain ⟨h₁, h₂⟩ := ih hlen
          exact ⟨Nat.succ_le_succ h₁, fun h => h₂ (Nat.succ.inj h)⟩
      | conv c =>
          cases ap with
          | nil => cases hlen
          | cons w ap =>
              obtain ⟨h₁, h₂⟩ := ih (Nat.succ.inj hlen)
              rw [texts, texts, List.length_append, List.length_append]
              have hconv : (text User.digits vaUint str c w).length ≤ (text Kernel.digits vaInt str c w).length ∧
                  ((text Kernel.digits vaInt str c w).length = (text User.digits vaUint str c w).length →
                    c = .x → (w.setWidth 32).toNat < 2 ^ 31) := by
                by_cases hx : c = .x
                · subst hx
                  rcases Nat.lt_or_ge (w.setWidth 32).toNat (2 ^ 31) with hlt | hge
                  · have h₃ := text_length str vaInt .x w
                    rw [text, text] at h₃ ⊢
                    rw [← vaInt_eq hlt]
                    exact ⟨Nat.le_of_eq h₃.symm, fun _ _ => hlt⟩
                  · have h₃ := hex_longer hge
                    exact ⟨Nat.le_of_lt h₃, fun h => absurd h (Nat.ne_of_gt h₃)⟩
                · have h₃ := text_length str vaInt c w
                  have h₄ : text User.digits vaInt str c w = text User.digits vaUint str c w := by
                    cases c with
                    | x => exact absurd rfl hx
                    | _ => rfl
                  rw [h₄] at h₃
                  exact ⟨Nat.le_of_eq h₃.symm, fun _ h => absurd h hx⟩
              refine ⟨by omega, fun h q hq => ?_⟩
              rcases List.mem_cons.1 hq with rfl | hq
              · exact hconv.2 (by omega)
              · exact h₂ (by omega) q hq

end Xv6.Libc
