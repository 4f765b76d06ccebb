import Xv6.Console.Lines
import Xv6.Lib.Ring

/-!
# The buffer of the console

The ring holds the bytes that are committed and not read, and then the current line.
-/

namespace Xv6.Console

open Lib

variable {s : Cons} {unread pending : List Byte} {c : Byte} {k n target : Nat} {got : List Byte} {works : Nat → Bool}

theorem inputBufSize_dvd : inputBufSize ∣ 2 ^ 32 := by decide

theorem inputBufSize_lt : inputBufSize < 2 ^ 32 := by decide

/-- `unread` and `pending` are in the buffer. -/
structure BufOk (s : Cons) (unread pending : List Byte) : Prop where
  contents : Ring.contents inputBufSize s.buf s.r s.e = unread ++ pending
  len : Ring.len s.r s.w = unread.length
  cap : unread.length + pending.length ≤ inputBufSize

theorem BufOk.len_e (hs : BufOk s unread pending) : Ring.len s.r s.e = unread.length + pending.length := by
  rw [← List.length_append, ← hs.contents, Ring.contents_length]

theorem BufOk.e_eq_w (hs : BufOk s unread pending) : s.e = s.w ↔ pending = [] := by
  rw [Ring.eq_iff_len s.r, hs.len_e, hs.len, ← List.length_eq_zero_iff]
  omega

theorem BufOk.r_eq_w (hs : BufOk s unread pending) : s.r = s.w ↔ unread = [] := by
  rw [← Ring.len_eq_zero, hs.len, List.length_eq_zero_iff]

theorem BufOk.putc (hs : BufOk s unread pending) (c : Byte) : BufOk (uartputcSync c s) unread pending := ⟨hs.contents, hs.len, hs.cap⟩

theorem BufOk.backspace (hs : BufOk s unread pending) : BufOk (consputcBackspace s) unread pending :=
  ⟨hs.contents, hs.len, hs.cap⟩

/-! ## Editing -/

theorem BufOk.r_ne_e (hs : BufOk s unread (pending ++ [c])) : s.r ≠ s.e := fun h => by
  have h₁ := hs.len_e
  rw [Ring.len_eq_zero.2 h, List.length_append, List.length_singleton] at h₁
  omega

theorem BufOk.last (hs : BufOk s unread (pending ++ [c])) : s.buf ((s.e - 1).toNat % inputBufSize) = c ∧
    BufOk { s with e := s.e - 1 } unread pending := by
  have h₁ := hs.contents
  rw [Ring.contents_back inputBufSize_dvd hs.r_ne_e, ← List.append_assoc] at h₁
  obtain ⟨h₂, h₃⟩ := List.append_inj' h₁ rfl
  refine ⟨List.singleton_inj.1 h₃, h₂, hs.len, ?_⟩
  have h₄ := hs.cap
  rw [List.length_append] at h₄
  omega

theorem BufOk.killLine (hs : BufOk s unread pending) (hp : newline ∉ pending) : BufOk (killLine pending.length s) unread [] := by
  induction pending using List.reverseRecOn generalizing s with
  | nil => exact hs
  | append_singleton pending c ih =>
      obtain ⟨hc, hs'⟩ := hs.last
      have hne : s.e ≠ s.w := fun h => by simpa using hs.e_eq_w.1 h
      have hc' : c ≠ newline := fun h => hp (List.mem_append_right _ (List.mem_singleton.2 h.symm))
      rw [List.length_append, List.length_singleton, Console.killLine, if_pos ⟨hne, by rw [hc]; exact hc'⟩]
      exact ih hs'.backspace fun h => hp (List.mem_append_left _ h)

theorem BufOk.len_we (hs : BufOk s unread pending) : (s.e - s.w).toNat = pending.length := by
  have h₁ : (s.e - s.r).toNat = unread.length + pending.length := hs.len_e
  have h₂ : (s.w - s.r).toNat = unread.length := hs.len
  bv_omega

theorem BufOk.put (hs : BufOk s unread pending) (hlt : unread.length + pending.length < inputBufSize) (c : Byte) :
    BufOk { s with buf := Function.update s.buf (s.e.toNat % inputBufSize) c, e := s.e + 1 } unread (pending ++ [c]) := by
  have hlen := hs.len_e
  refine ⟨?_, hs.len, ?_⟩
  · rw [Ring.contents_put inputBufSize_dvd inputBufSize_lt (show Ring.len s.r s.e < inputBufSize by omega), hs.contents, List.append_assoc]
  · rw [List.length_append, List.length_singleton]
    omega

theorem BufOk.commit (hs : BufOk s unread pending) : BufOk { s with w := s.e } (unread ++ pending) [] :=
  ⟨by rw [List.append_nil]; exact hs.contents, by rw [hs.len_e, List.length_append], by
    rw [List.length_append, List.length_nil]
    exact hs.cap⟩

/-! ## Reading -/

theorem BufOk.take (hs : BufOk s unread pending) (hk : k ≤ unread.length) :
    BufOk { s with r := s.r + BitVec.ofNat 32 k } (unread.drop k) pending := by
  have he : k ≤ Ring.len s.r s.e := by
    rw [hs.len_e]
    omega
  have hw : k ≤ Ring.len s.r s.w := by
    rw [hs.len]
    exact hk
  refine ⟨?_, ?_, ?_⟩
  · rw [Ring.contents_drop inputBufSize_dvd he, hs.contents, List.drop_append_of_le_length hk]
  · rw [Ring.len_drop hw, hs.len, List.length_drop]
  · have h₃ := hs.cap
    rw [List.length_drop]
    omega

theorem BufOk.head (hs : BufOk s (c :: unread) pending) : s.r ≠ s.w ∧ s.buf (s.r.toNat % inputBufSize) = c := by
  have hne : s.r ≠ s.w := fun h => by cases hs.r_eq_w.1 h
  refine ⟨hne, ?_⟩
  have hne' : s.r ≠ s.e := fun h => by
    have h₁ := hs.len_e
    rw [Ring.len_eq_zero.2 h, List.length_cons] at h₁
    omega
  have h₁ := hs.contents
  rw [Ring.contents_take inputBufSize_dvd hne', List.cons_append] at h₁
  exact (List.cons.inj h₁).1

end Xv6.Console
