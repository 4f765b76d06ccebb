import Xv6.Libc.Lemmas.Printf
import Xv6.Libc.Memmove

/-!
# Theorems about the libraries of the kernel and of user programs
-/

namespace Xv6.Libc

/-! ## `memmove` -/

/-- In either library, `memmove` moves the bytes whether or not the ranges overlap. Neither range runs past the end of
the address space; a negative length is one of 0. -/
theorem memmove_moves (dst src : BitVec 64) (n : BitVec 32) (m : Mem) :
    (dst.toNat + n.toNat ≤ 2 ^ 64 → src.toNat + n.toNat ≤ 2 ^ 64 →
      Moved dst src n.toNat m (Kernel.memmove dst src n m).2) ∧
    (dst.toNat + n.toInt.toNat ≤ 2 ^ 64 → src.toNat + n.toInt.toNat ≤ 2 ^ 64 →
      Moved dst src n.toInt.toNat m (User.memmove dst src n m).2) :=
  ⟨kernel_memmove_ok, user_memmove_ok⟩

/-- Ten bytes are moved up by three, at the end of the address space. -/
theorem memmove_moves_top :
    Moved (-10) (-13) 10 (fun a => a.setWidth 8) (Kernel.memmove (-10) (-13) 10 fun a => a.setWidth 8).2 ∧
    Moved (-10) (-13) 10 (fun a => a.setWidth 8) (User.memmove (-10) (-13) 10 fun a => a.setWidth 8).2 :=
  ⟨(memmove_moves (-10) (-13) 10 _).1 (by decide) (by decide), (memmove_moves (-10) (-13) 10 _).2 (by decide) (by decide)⟩

/-! ## `printint` -/

/-- For every argument, both libraries print the canonical numeral, and no character goes outside the buffer. -/
theorem printint_exact (xx : BitVec 64) (sign : Bool) (base : Nat) (hb : base = 10 ∨ base = 16) : ∃ neg ds,
    Kernel.printint xx base sign = some (spell Kernel.digits neg ds) ∧ User.printint xx base sign = some (spell User.digits neg ds) ∧
      Numeral base (number xx sign) neg ds :=
  ⟨_, _, printint_eq Kernel.digits xx sign hb, printint_eq User.digits xx sign hb, printint_numeral (by omega) xx sign⟩

/-- The least number takes all of the buffer. -/
theorem printint_exact_least : ∃ neg ds, Kernel.printint (BitVec.ofInt 64 (-2 ^ 63)) 10 true = some (spell Kernel.digits neg ds) ∧
    User.printint (BitVec.ofInt 64 (-2 ^ 63)) 10 true = some (spell User.digits neg ds) ∧
    Numeral 10 (number (BitVec.ofInt 64 (-2 ^ 63)) true) neg ds :=
  printint_exact (BitVec.ofInt 64 (-2 ^ 63)) true 10 (.inl rfl)

example : (Kernel.printint (BitVec.ofInt 64 (-2 ^ 63)) 10 true).map List.length = some 20 := by decide

/-! ## `printf` -/

/-- For a format made of the conversions that the kernel uses, and one argument for each: the two libraries print the same
and take all arguments exactly if there is no `%lx` and each argument of `%x` is less than 2^31. -/
theorem printf_agrees_iff (str : BitVec 64 → List Byte) (ps : List Piece) (ap : List (BitVec 64))
    (hlen : ap.length = (conversions ps).length) : Agree str ps ap ↔ Supported ps ap := by
  constructor
  · rintro ⟨out, out', hk, hu, hout⟩
    obtain ⟨o, rest, hrun, hrest⟩ := kernel_run str (Nat.le_of_eq hlen.symm)
    rw [hrun] at hk
    cases hk
    have hlx : Conv.lx ∉ conversions ps := fun hmem => by
      have h₁ : ((conversions ps).filter (· ≠ .lx)).length < (conversions ps).length :=
        List.length_filter_lt_length_iff_exists.2 ⟨Conv.lx, hmem, by decide⟩
      rw [List.length_nil, Nat.zero_add, hlen] at hrest
      exact Nat.ne_of_lt h₁ hrest
    rw [kernel_texts hlen hlx] at hrun
    rw [user_texts hlen] at hu
    cases hrun
    cases hu
    have hsame := congrArg List.length hout
    rw [List.length_map, List.length_map] at hsame
    intro q hq
    refine ⟨fun h => hlx (h ▸ (List.of_mem_zip hq).1), (texts_length hlen).2 hsame q hq⟩
  · intro h
    have hlx : Conv.lx ∉ conversions ps := fun hmem => by
      obtain ⟨i, hi, heq⟩ := List.getElem_of_mem hmem
      have hi' : i < ((conversions ps).zip ap).length := by
        rw [List.length_zip]
        omega
      have h₁ := (h _ (List.getElem_mem hi')).1
      rw [List.getElem_zip] at h₁
      exact h₁ heq
    exact ⟨_, _, kernel_texts hlen hlx, user_texts hlen, texts_agree h⟩

/-- `"0x%x"` with an argument that the kernel can print. -/
theorem printf_agrees_hex : Agree (fun _ => []) [.lit (ascii '0') (by decide), .lit (ascii 'x') (by decide), .conv .x] [0x7fffffff] :=
  (printf_agrees_iff _ _ _ rfl).2 (by unfold Supported; decide)

/-- `"%lx"`, and `"%x"` with an argument whose 32 bits are all set. -/
theorem printf_disagrees : ¬ Agree (fun _ => []) [.conv .lx] [5] ∧ ¬ Agree (fun _ => []) [.conv .x] [0xffffffff] := by
  constructor
  · rintro ⟨out, out', hk, -⟩
    have h₁ : Kernel.printf (fun _ => []) 0 (format [.conv .lx]) [5] = some (ascii '%' :: Conv.lx.bytes, [5]) := by decide
    rw [h₁] at hk
    cases hk
  · rintro ⟨out, out', hk, hu, hout⟩
    have h₁ : (Kernel.printf (fun _ => []) 0 (format [.conv .x]) [0xffffffff]).map (fun q => q.1.length) = some 16 := by decide
    have h₂ : (User.vprintf (fun _ => []) false 0 (format [.conv .x]) [0xffffffff]).map (fun q => q.1.length) = some 8 := by decide
    rw [hk] at h₁
    rw [hu] at h₂
    have h₃ := congrArg List.length hout
    rw [List.length_map, List.length_map] at h₃
    simp only [Option.map_some, Option.some.injEq] at h₁ h₂
    omega

end Xv6.Libc
