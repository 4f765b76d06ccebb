import Xv6.Console.Lemmas.Buffer

/-!
# `consoleintr` and `consoleread`

`consoleintr` edits the input as `Lines` does. `consoleread` takes bytes up to the end of a line; it sleeps where it
has taken all that is there.
-/

namespace Xv6.Console

open Lib

variable {s : Cons} {l : Lines} {unread pending got : List Byte} {c : Byte} {k n taken target : Nat} {works : Nat → Bool}

/-! ## `consoleintr` -/

theorem full_iff : l.full taken = true ↔ (l.committed.drop taken).length + l.pending.length = inputBufSize := by
  unfold Lines.full
  rw [beq_iff_eq, List.length_drop]

/-- What editing leaves. -/
structure Edited (l : Lines) (taken : Nat) (s : Cons) (l' : Lines) : Prop where
  buf : BufOk s (l'.committed.drop taken) l'.pending
  plain : Plain l'.pending
  grows : ∃ d, l'.committed = l.committed ++ d

theorem plain_nil : Plain [] := ⟨List.not_mem_nil, List.not_mem_nil⟩

theorem Plain.dropLast (hp : Plain pending) : Plain pending.dropLast :=
  ⟨fun h => hp.1 (List.dropLast_subset _ h), fun h => hp.2 (List.dropLast_subset _ h)⟩

section

variable (hs : BufOk s (l.committed.drop taken) l.pending) (ht : taken ≤ l.committed.length) (hp : Plain l.pending)

include hs hp

theorem edited_self : Edited l taken s l := ⟨hs, hp, [], (List.append_nil _).symm⟩

theorem consoleChar_ok (ht : taken ≤ l.committed.length) (hU : c ≠ control 'U') (hH : ¬ (c = control 'H' ∨ c = delete)) :
    Edited l taken (consoleChar c s) (l.type taken c) := by
  have hlen : (s.e - s.r).toNat = (l.committed.drop taken).length + l.pending.length := hs.len_e
  have hcap := hs.cap
  unfold consoleChar Lines.type
  rw [if_neg hU, if_neg hH]
  by_cases hno : c = 0 ∨ l.full taken = true
  · have hno' : ¬ (c ≠ 0 ∧ (s.e - s.r).toNat < inputBufSize) := by
      rw [hlen]
      rintro ⟨h₁, h₂⟩
      rcases hno with h₃ | h₃
      · exact h₁ h₃
      · rw [full_iff] at h₃
        omega
    rw [if_pos hno, if_neg hno']
    exact edited_self hs hp
  · obtain ⟨hc, hf⟩ := not_or.1 hno
    rw [full_iff] at hf
    have hlt : (l.committed.drop taken).length + l.pending.length < inputBufSize := by omega
    rw [if_neg hno, if_pos ⟨hc, by rw [hlen]; exact hlt⟩]
    generalize (if c = carriageReturn then newline else c) = d
    have hput := (hs.putc d).put hlt d
    have hfull : ((uartputcSync d s).e + 1 - (uartputcSync d s).r).toNat = inputBufSize ↔
        (⟨l.committed, l.pending ++ [d]⟩ : Lines).full taken = true := by
      rw [full_iff, show ((uartputcSync d s).e + 1 - (uartputcSync d s).r).toNat = _ from hput.len_e]
    simp only [hfull]
    by_cases hend : d = newline ∨ d = control 'D' ∨ (⟨l.committed, l.pending ++ [d]⟩ : Lines).full taken = true
    · rw [if_pos hend, if_pos hend]
      refine ⟨?_, plain_nil, l.pending ++ [d], rfl⟩
      have h₁ := hput.commit
      rw [← List.drop_append_of_le_length ht] at h₁
      exact h₁
    · rw [if_neg hend, if_neg hend]
      obtain ⟨h₁, h₂⟩ := not_or.1 hend
      refine ⟨hput, ⟨fun h => ?_, fun h => ?_⟩, [], (List.append_nil _).symm⟩
      · rcases List.mem_append.1 h with h | h
        · exact hp.1 h
        · exact h₁ (List.mem_singleton.1 h).symm
      · rcases List.mem_append.1 h with h | h
        · exact hp.2 h
        · exact (not_or.1 h₂).1 (List.mem_singleton.1 h).symm

theorem consoleintr_ok (ht : taken ≤ l.committed.length) (hc : c ≠ control 'P' ∧ c ≠ control 'X' ∧ c ≠ control 'C') :
    ∃ s', consoleintr none c s = .ok (s', none) ∧ Edited l taken s' (l.type taken c) := by
  unfold consoleintr
  rw [if_neg hc.1]
  by_cases hU : c = control 'U'
  · rw [if_pos hU, hs.len_we]
    refine ⟨_, rfl, ?_⟩
    unfold Lines.type
    rw [if_pos hU]
    exact ⟨hs.killLine hp.1, plain_nil, [], (List.append_nil _).symm⟩
  rw [if_neg hU, if_neg hc.2.1, if_neg hc.2.2]
  by_cases hH : c = control 'H' ∨ c = delete
  · have htype : l.type taken c = { l with pending := l.pending.dropLast } := by
      unfold Lines.type
      rw [if_neg hU, if_pos hH]
    rw [if_pos hH, htype]
    rcases List.eq_nil_or_concat l.pending with hnil | ⟨q, d, hq⟩
    · rw [if_neg (not_not.2 (hs.e_eq_w.2 hnil))]
      refine ⟨s, rfl, ?_, hp.dropLast, [], (List.append_nil _).symm⟩
      rw [hnil] at hs ⊢
      exact hs
    · rw [List.concat_eq_append] at hq
      have hne : s.e ≠ s.w := fun h => by
        have h₁ := hs.e_eq_w.1 h
        rw [hq] at h₁
        simp at h₁
      rw [if_pos hne]
      refine ⟨_, rfl, ?_, hp.dropLast, [], (List.append_nil _).symm⟩
      rw [hq] at hs ⊢
      rw [List.dropLast_concat]
      exact hs.last.2.backspace
  · rw [if_neg hH]
    exact ⟨_, rfl, consoleChar_ok hs hp ht hU hH⟩

end

/-! ## `consoleread` -/

/-- How many bytes a read takes, how many it still wants, what it has then, and whether it is done. -/
inductive Reads (n : Nat) (got unread : List Byte) : Nat → Nat → List Byte → Bool → Prop
  /-- It has taken all that is there, and sleeps. -/
  | wait (hn : unread.length < n) (hu : Plain unread) : Reads n got unread unread.length (n - unread.length) (got ++ unread) false
  /-- It has got `n` bytes, or the end of the line. -/
  | line {d v : List Byte} (hu : unread = d ++ v) (hd : PartOfLine d) (hle : d.length ≤ n)
      (hend : d.length = n ∨ d.getLast? = some newline) : Reads n got unread d.length (n - d.length) (got ++ d) true
  /-- It comes to a `^D`, and takes it if it has got nothing else. -/
  | eof {d v : List Byte} (hu : unread = d ++ control 'D' :: v) (hd : Plain d) (hlt : d.length < n) :
      Reads n got unread (d.length + if got ++ d = [] then 1 else 0) (n - d.length) (got ++ d) true

theorem Reads.cons {k n' : Nat} {got' : List Byte} {done : Bool} (h : Reads n (got ++ [c]) unread k n' got' done) (hc : c ≠ newline)
    (hD : c ≠ control 'D') : Reads (n + 1) got (c :: unread) (k + 1) n' got' done := by
  have hplain : ∀ {d}, Plain d → Plain (c :: d) := fun hd =>
    ⟨fun h => (List.mem_cons.1 h).elim (fun h => hc h.symm) hd.1, fun h => (List.mem_cons.1 h).elim (fun h => hD h.symm) hd.2⟩
  cases h with
  | wait hn hu =>
      have h₁ : Reads (n + 1) got (c :: unread) _ _ _ _ := .wait (by rw [List.length_cons]; omega) (hplain hu)
      rw [List.length_cons, Nat.add_sub_add_right] at h₁
      rw [List.append_assoc]
      exact h₁
  | @line d v hu hd hle hend =>
      have hpart : PartOfLine (c :: d) := by
        refine ⟨fun h => ?_, fun h => (List.mem_cons.1 h).elim (fun h => hD h.symm) hd.2⟩
        cases d with
        | nil => cases h
        | cons e d =>
            rcases List.mem_cons.1 h with h | h
            · exact hc h.symm
            · exact hd.1 h
      have h₁ : Reads (n + 1) got (c :: unread) _ _ _ _ := .line (d := c :: d) (v := v) (by rw [hu]; rfl) hpart
        (by rw [List.length_cons]; omega) (hend.imp (fun h => by rw [List.length_cons, h]) fun h => by
          cases d with
          | nil => cases h
          | cons e d => exact h)
      rw [List.length_cons, Nat.add_sub_add_right] at h₁
      rw [List.append_assoc]
      exact h₁
  | @eof d v hu hd hlt =>
      have h₁ : Reads (n + 1) got (c :: unread) _ _ _ _ := .eof (d := c :: d) (v := v) (by rw [hu]; rfl) (hplain hd)
        (by rw [List.length_cons]; omega)
      rw [List.length_cons, Nat.add_sub_add_right, if_neg (by simp)] at h₁
      rw [List.append_assoc, if_neg (by simp)]
      exact h₁

theorem consoleread_spec (hs : BufOk s unread pending) (hw : ∀ i, works i = true) (ht : target = n + got.length) :
    ∃ k n' got' done, consoleread works target n got s = ({ s with r := s.r + BitVec.ofNat 32 k }, ⟨target, n', got'⟩, done) ∧
      Reads n got unread k n' got' done := by
  have hzero : ∀ s : Cons, { s with r := s.r + BitVec.ofNat 32 0 } = s := fun s => by
    rw [show s.r + BitVec.ofNat 32 0 = s.r from BitVec.add_zero _]
  induction n generalizing got s unread with
  | zero =>
      refine ⟨0, 0, got, true, by rw [consoleread, hzero], ?_⟩
      have h₁ : Reads 0 got unread _ _ _ _ := .line (d := []) (v := unread) rfl ⟨List.not_mem_nil, List.not_mem_nil⟩ (Nat.le_refl _) (.inl rfl)
      rw [List.append_nil] at h₁
      exact h₁
  | succ n ih =>
      cases unread with
      | nil =>
          refine ⟨0, n + 1, got, false, by rw [consoleread, if_pos (hs.r_eq_w.2 rfl), hzero], ?_⟩
          have h₁ : Reads (n + 1) got [] _ _ _ _ := .wait (Nat.succ_pos n) plain_nil
          rw [List.append_nil] at h₁
          exact h₁
      | cons c u =>
          obtain ⟨hne, hc⟩ := hs.head
          rw [consoleread, if_neg hne]
          simp only [hc]
          by_cases hD : c = control 'D'
          · rw [if_pos hD]
            have h₁ : Reads (n + 1) got (c :: u) _ _ _ _ := .eof (d := []) (v := u) (by rw [hD]; rfl) plain_nil (Nat.succ_pos n)
            refine ⟨_, _, _, _, ?_, h₁⟩
            rw [List.append_nil]
            by_cases hgot : got = []
            · rw [if_neg (by rw [ht, hgot]; simp), if_pos hgot]
              rfl
            · have hpos := List.length_pos_iff.2 hgot
              rw [if_pos (by omega), if_neg hgot, show s.r + 1 - 1 = s.r + BitVec.ofNat 32 0 by
                rw [BitVec.add_sub_cancel]; exact (BitVec.add_zero _).symm]
              rfl
          rw [if_neg hD, hw, if_neg (by decide)]
          by_cases hnl : c = newline
          · rw [if_pos hnl]
            refine ⟨1, n, got ++ [c], true, rfl, ?_⟩
            exact .line (d := [c]) (v := u) rfl ⟨List.not_mem_nil, fun h => hD (List.mem_singleton.1 h).symm⟩ (Nat.succ_le_succ (Nat.zero_le n))
              (.inr (by rw [hnl]; rfl))
          · rw [if_neg hnl]
            have hs' := hs.take (k := 1) (Nat.succ_le_succ (Nat.zero_le _))
            have ht' : target = n + (got ++ [c]).length := by
              rw [List.length_append, List.length_singleton]
              omega
            obtain ⟨k, n', got', done, hread, h₁⟩ := ih hs' ht'
            refine ⟨k + 1, n', got', done, ?_, h₁.cons hnl hD⟩
            rw [show s.r + 1 = s.r + BitVec.ofNat 32 1 from rfl, hread, Ring.add_succ s.r k]
            rfl

end Xv6.Console
