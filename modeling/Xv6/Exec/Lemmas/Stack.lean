import Xv6.Exec.Plan

/-!
# Where the arguments lie

Each string ends below the one before it, and the array of pointers below the last. The stack pointer
never wraps: it is above the first page when something is subtracted from it, and less than a page is.
-/

namespace Xv6.Exec

open Lib Fs Vm

variable {base top sp k n : Nat} {strs : List (List Byte)} {ptrs : List Nat} {m m' : Image}

/-! ## Moving the stack pointer -/

theorem pushDown_eq (hk : k ≤ sp) (hsp : sp < 2 ^ 64) : pushDown sp k = sp - k - (sp - k) % 16 := by
  have h₁ : (sp + (2 ^ 64 - k)) % 2 ^ 64 = sp - k := by omega
  unfold pushDown
  rw [h₁]

theorem pushDown_le (sp k : Nat) (hk : k ≤ sp) (hsp : sp < 2 ^ 64) : pushDown sp k + k ≤ sp ∧ pushDown sp k % 16 = 0 := by
  rw [pushDown_eq hk hsp]
  omega

theorem pushDown_down (sp k : Nat) (hk : k ≤ sp) (hsp : sp < 2 ^ 64) : (pushDown sp k : Int) = down sp k := by
  rw [pushDown_eq hk hsp]
  unfold down
  omega

theorem down_le (x : Int) (k : Nat) : down x k ≤ x - k := by
  unfold down
  omega

theorem foldl_down_le (strs : List (List Byte)) (x : Int) : strs.foldl (fun sp str => down sp (str.length + 1)) x ≤ x := by
  induction strs generalizing x with
  | nil => exact le_refl x
  | cons str rest ih =>
      have h₁ := down_le x (str.length + 1)
      have h₂ := ih (down x (str.length + 1))
      rw [List.foldl_cons]
      omega

theorem down_shift (x : Int) (k : Nat) (c : Int) : down (x + c * 16) k = down x k + c * 16 := by
  unfold down
  omega

theorem foldl_down_shift (strs : List (List Byte)) (x c : Int) :
    strs.foldl (fun sp str => down sp (str.length + 1)) (x + c * 16) =
      strs.foldl (fun sp str => down sp (str.length + 1)) x + c * 16 := by
  induction strs generalizing x with
  | nil => rfl
  | cons str rest ih => rw [List.foldl_cons, List.foldl_cons, down_shift, ih]

/-- Whether the arguments fit does not depend on where the stack is. -/
theorem argsEnd_top (n : Nat) (strs : List (List Byte)) : argsEnd ((n + 1) * pgSize) strs = argsEnd pgSize strs + n * pgSize := by
  have htop : (((n + 1) * pgSize : Nat) : Int) = (pgSize : Nat) + (n * 256 : Int) * 16 := by
    unfold pgSize
    omega
  have hend : (n * pgSize : Int) = (n * 256 : Int) * 16 := by
    unfold pgSize
    omega
  unfold argsEnd
  rw [htop, foldl_down_shift, down_shift, hend]

/-! ## The strings -/

/-- The strings lie between `sp` and `top`, each below the one before it. -/
structure Strung (top : Nat) (strs : List (List Byte)) (m : Image) (ptrs : List Nat) (sp : Nat) (m' : Image) : Prop where
  length : ptrs.length = strs.length
  high : sp ≤ top
  pos : (sp : Int) = strs.foldl (fun sp str => down sp (str.length + 1)) (top : Int)
  aligned : ∀ x ∈ strs.zip ptrs, x.2 % 16 = 0
  inside : ∀ x ∈ strs.zip ptrs, sp ≤ x.2 ∧ x.2 + (x.1.length + 1) ≤ top
  apart : (strs.zip ptrs).Pairwise fun x y => y.2 + (y.1.length + 1) ≤ x.2
  bytes : ∀ x ∈ strs.zip ptrs, ∀ k, k < x.1.length + 1 → m'.byte (x.2 + k) = (x.1 ++ [0]).getD k 0
  other : ∀ a, a < sp ∨ top ≤ a → m'.byte a = m.byte a
  npages : m'.npages = m.npages
  flags : m'.flags = m.flags

theorem Strung.nil (top : Nat) (m : Image) : Strung top [] m [] top m :=
  ⟨rfl, Nat.le_refl _, rfl, fun _ h => absurd h List.not_mem_nil, fun _ h => absurd h List.not_mem_nil, .nil,
    fun _ h => absurd h List.not_mem_nil, fun _ _ => rfl, rfl, rfl⟩

theorem Strung.cons {str : List Byte} {p : Nat} (h : Strung p strs (putString m p str) ptrs sp m') (hp : p + (str.length + 1) ≤ top)
    (hpos : (p : Int) = down top (str.length + 1)) (hal : p % 16 = 0) : Strung top (str :: strs) m (p :: ptrs) sp m' := by
  have hhigh := h.high
  have hput : ∀ a, (putString m p str).byte a = blit m.byte p (fun i => (str ++ [0]).getD i 0) 0 (str.length + 1) a := fun _ => rfl
  refine ⟨by rw [List.length_cons, List.length_cons, h.length], by omega, ?_, ?_, ?_, ?_, ?_, ?_, h.npages, h.flags⟩
  · rw [List.foldl_cons, ← hpos]
    exact h.pos
  · rintro x hx
    rcases List.mem_cons.1 hx with rfl | hx
    · exact hal
    · exact h.aligned x hx
  · rintro x hx
    rcases List.mem_cons.1 hx with rfl | hx
    · exact ⟨hhigh, hp⟩
    · obtain ⟨h₁, h₂⟩ := h.inside x hx
      exact ⟨h₁, by omega⟩
  · exact List.pairwise_cons.2 ⟨fun y hy => (h.inside y hy).2, h.apart⟩
  · rintro x hx k hk
    rcases List.mem_cons.1 hx with rfl | hx
    · have hk' : k < str.length + 1 := hk
      rw [h.other _ (.inr (Nat.le_add_right _ _)), hput, blit_apply (by omega)]
      congr 1
      omega
    · exact h.bytes x hx k hk
  · intro a ha
    rw [h.other a (by omega), hput, blit_apply_of_lt (by omega)]

/-- What `placeStrings` makes of the strings. -/
theorem placeStrings_spec (hshort : ∀ str ∈ strs, str.length < pgSize) (hbase : pgSize ≤ base) (htop : base ≤ top) (hlt : top < 2 ^ 64) :
    match placeStrings base strs top m with
    | none => strs.foldl (fun sp str => down sp (str.length + 1)) (top : Int) < base
    | some (ptrs, sp, m') => base ≤ sp ∧ Strung top strs m ptrs sp m' := by
  induction strs generalizing top m with
  | nil => exact ⟨htop, .nil top m⟩
  | cons str rest ih =>
      have hlen := hshort str List.mem_cons_self
      have hpos := pushDown_down top (str.length + 1) (by omega) hlt
      obtain ⟨hle, hal⟩ := pushDown_le top (str.length + 1) (by omega) hlt
      rw [placeStrings]
      generalize pushDown top (str.length + 1) = p at hpos hle hal
      by_cases hfull : p < base
      · rw [if_pos hfull, List.foldl_cons]
        have h₁ := foldl_down_le rest (down top (str.length + 1))
        omega
      · rw [if_neg hfull]
        have hrest := @ih p (putString m p str) (fun str hmem => hshort str (List.mem_cons_of_mem _ hmem)) (by omega)
          (by omega)
        cases hplace : placeStrings base rest p (putString m p str) with
        | none =>
            rw [hplace] at hrest
            rw [List.foldl_cons, ← hpos]
            exact hrest
        | some x =>
            obtain ⟨ptrs, sp, m'⟩ := x
            rw [hplace] at hrest
            exact ⟨hrest.1, hrest.2.cons hle hpos hal⟩

/-! ## The array of pointers -/

theorem load_words {w : Nat} {b : Bytes} {a : Nat} (hw : w < 2 ^ 64) (h : ∀ j, j < 8 → b (a + j) = BitVec.ofNat 8 (w / 256 ^ j)) :
    load 8 b a = w := by
  have hstore : load 8 b a = load 8 (store 8 b a w) a := by
    refine load_congr fun j hj => ?_
    rw [h j hj]
    unfold store
    rw [if_pos (by omega), Nat.add_sub_cancel_left]
  rw [hstore, load_store]
  exact Nat.mod_eq_of_lt hw

/-- The arguments lie on the stack, between `base` and `top`. -/
structure Placed (base top : Nat) (strs : List (List Byte)) (m : Image) (ptrs : List Nat) (sp : Nat) (m' : Image) : Prop where
  length : ptrs.length = strs.length
  low : base ≤ sp
  aligned : sp % 16 = 0
  room : sp + (strs.length + 1) * 8 ≤ top
  pos : (sp : Int) = argsEnd top strs
  words : ∀ i, i ≤ strs.length → load 8 m'.byte (sp + i * 8) = ptrs.getD i 0
  string : ∀ x ∈ strs.zip ptrs, x.2 % 16 = 0 ∧ sp + (strs.length + 1) * 8 ≤ x.2 ∧ x.2 + (x.1.length + 1) ≤ top ∧
    ∀ k, k < x.1.length + 1 → m'.byte (x.2 + k) = (x.1 ++ [0]).getD k 0
  apart : (strs.zip ptrs).Pairwise fun x y => y.2 + (y.1.length + 1) ≤ x.2
  below : ∀ a, a < base → m'.byte a = m.byte a
  npages : m'.npages = m.npages
  flags : m'.flags = m.flags

theorem Strung.ptr_lt (h : Strung top strs m ptrs sp m') (hlt : top < 2 ^ 64) (i : Nat) : ptrs.getD i 0 < 2 ^ 64 := by
  rw [List.getD_eq_getElem?_getD]
  cases hi : ptrs[i]? with
  | none => decide
  | some p =>
      obtain ⟨hlen, hp⟩ := List.getElem?_eq_some_iff.1 hi
      have hlen' : i < strs.length := by rw [← h.length]; exact hlen
      have hmem : (strs[i], p) ∈ strs.zip ptrs := by
        rw [← hp, ← List.getElem_zip (h := by rw [List.length_zip]; omega)]
        exact List.getElem_mem _
      have h₁ := (h.inside _ hmem).2
      show p < _
      omega

theorem placeArgs_spec (hshort : ∀ str ∈ strs, str.length < pgSize) (hn : (strs.length + 1) * 8 ≤ pgSize) (hbase : pgSize ≤ base)
    (htop : base ≤ top) (hlt : top < 2 ^ 64) :
    match placeArgs base top strs m with
    | none => argsEnd top strs < base
    | some (ptrs, sp, m') => Placed base top strs m ptrs sp m' := by
  have hs := placeStrings_spec (m := m) hshort hbase htop hlt
  unfold placeArgs argsEnd
  cases hplace : placeStrings base strs top m with
  | none =>
      rw [hplace] at hs
      have h₁ := down_le (strs.foldl (fun sp str => down sp (str.length + 1)) (top : Int)) ((strs.length + 1) * 8)
      have h₂ : strs.foldl (fun sp str => down sp (str.length + 1)) (top : Int) < base := hs
      show _ < _
      omega
  | some x =>
      obtain ⟨ptrs, sp, m'⟩ := x
      rw [hplace] at hs
      obtain ⟨hlow, hs⟩ := hs
      have hhigh := hs.high
      have hpos := pushDown_down sp ((strs.length + 1) * 8) (by omega) (by omega)
      obtain ⟨hle, hal⟩ := pushDown_le sp ((strs.length + 1) * 8) (by omega) (by omega)
      simp only [Option.bind_eq_bind, Option.bind_some]
      rw [← hs.pos]
      generalize pushDown sp ((strs.length + 1) * 8) = q at hpos hle hal
      by_cases hfull : q < base
      · rw [if_pos hfull, ← hpos]
        omega
      · rw [if_neg hfull]
        have hbyte : ∀ a, (m'.write q (words ptrs) ((strs.length + 1) * 8)).byte a =
            blit m'.byte q (words ptrs) 0 ((strs.length + 1) * 8) a := fun _ => rfl
        refine ⟨hs.length, by omega, hal, by omega, ?_, fun i hi => ?_, fun x hx => ?_, hs.apart, fun a ha => ?_, hs.npages, hs.flags⟩
        · unfold argsEnd
          rw [← hs.pos, hpos]
        · refine load_words (hs.ptr_lt hlt i) fun j hj => ?_
          have h₁ : (q + i * 8 + j - q) / 8 = i := by omega
          have h₂ : (q + i * 8 + j - q) % 8 = j := by omega
          rw [hbyte, blit_apply (by omega), Nat.zero_add]
          unfold words
          rw [h₁, h₂]
        · obtain ⟨h₁, h₂⟩ := hs.inside x hx
          refine ⟨hs.aligned x hx, by omega, h₂, fun k hk => ?_⟩
          rw [hbyte, blit_apply_of_lt (by omega)]
          exact hs.bytes x hx k hk
        · rw [hbyte, blit_apply_of_lt (by omega)]
          exact hs.other a (by omega)

end Xv6.Exec
