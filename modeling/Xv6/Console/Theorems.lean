import Xv6.Console.Lemmas.System
import Mathlib.Data.List.Infix

/-!
# Theorems about the console
-/

namespace Xv6.Console

open Lib

/-- In every run: the indices are in order, around the wraps of 32 bits; the bytes that have been copied out are
those of the edited input without the `^D`s, and the others are in the buffer. A read of something that no
other read was beside has a part of one line, or nothing at a `^D`, which it takes. -/
theorem line_discipline {buf : Nat → Byte} {r : BitVec 32} {s : Sys} (h : Reach Sys.step Sys.ok (Sys.init buf r) s) :
    (s.cons.w - s.cons.r).toNat ≤ (s.cons.e - s.cons.r).toNat ∧ (s.cons.e - s.cons.r).toNat ≤ inputBufSize ∧
    s.delivered = (s.lines.committed.take s.taken).filter (· ≠ control 'D') ∧
    Ring.contents inputBufSize s.cons.buf s.cons.r s.cons.e = s.lines.committed.drop s.taken ++ s.lines.pending ∧
    (∀ x ∈ s.completed, x.reader.result = x.reader.got.length ∧
      (x.alone = true → 0 < x.reader.target → x.Whole s.lines.committed)) ∧
    ∀ c, s.ok (.intr c) → ∃ t, s.step (.intr c) = some (.ok t) := by
  have hs := reach_ok h
  have hw : (s.cons.w - s.cons.r).toNat = _ := hs.buf.len
  have he : (s.cons.e - s.cons.r).toNat = _ := hs.buf.len_e
  refine ⟨?_, ?_, hs.delivered, hs.buf.contents, fun x hx => ⟨hs.result x hx, hs.whole x hx⟩, fun c hc => ?_⟩
  · rw [hw, he]
    exact Nat.le_add_right _ _
  · rw [he]
    exact hs.buf.cap
  · obtain ⟨t, ht, -⟩ := intr_ok hs hc
    exact ⟨t, ht⟩

/-! ## Two runs -/

def typed (text : List Byte) : List Act := text.map .intr

theorem typed_ok {text : List Byte} (h : ∀ c ∈ text, c ≠ control 'P' ∧ c ≠ control 'X' ∧ c ≠ control 'C') :
    ∀ l ∈ typed text, ∀ s : Sys, s.ok l := fun l hl s => by
  obtain ⟨c, hc, rfl⟩ := List.mem_map.1 hl
  exact h c hc

def endsIn (ls : List Act) (f : Sys → Bool) : Bool :=
  match run Sys.step ls (Sys.init (fun _ => 0) 0) with
  | some (.ok s) => f s
  | _ => false

theorem exists_of_endsIn {ls : List Act} {f : Sys → Bool} (hok : ∀ l ∈ ls, ∀ s : Sys, s.ok l) (h : endsIn ls f = true) :
    ∃ s, Reach Sys.step Sys.ok (Sys.init (fun _ => 0) 0) s ∧ f s = true := by
  unfold endsIn at h
  split at h
  · rename_i s hs
    exact ⟨s, reach_of_run (.of_forall hok) hs, h⟩
  · cases h

/-- A line is read in two parts. -/
def twoParts : List Act := typed [104, 106, delete, 105, carriageReturn] ++ [.read 2 fun _ => true, .read 2 fun _ => true]

theorem twoParts_ok : ∀ l ∈ twoParts, ∀ s : Sys, s.ok l := by
  intro l hl
  simp only [twoParts, List.mem_append, List.mem_cons, List.not_mem_nil, or_false] at hl
  rcases hl with hl | rfl | rfl
  · exact typed_ok (by decide) l hl
  · exact fun _ _ => rfl
  · exact fun _ _ => rfl

theorem line_discipline_parts : ∃ s x y, Reach Sys.step Sys.ok (Sys.init (fun _ => 0) 0) s ∧ s.completed = [x, y] ∧
    x.reader.got = [104, 105] ∧ y.reader.got = [newline] ∧ x.Whole s.lines.committed ∧ y.Whole s.lines.committed := by
  have hrun : endsIn twoParts (fun s => s.completed.map (fun x => (x.reader.got, x.reader.target, x.alone)) ==
      [([104, 105], 2, true), ([newline], 2, true)]) = true := by decide +kernel
  obtain ⟨s, hs, hc⟩ := exists_of_endsIn twoParts_ok hrun
  have hall := (line_discipline hs).2.2.2.2.1
  rw [beq_iff_eq] at hc
  obtain ⟨x, l, hl, hx, hc⟩ := List.map_eq_cons_iff.1 hc
  obtain ⟨y, l', rfl, hy, hc⟩ := List.map_eq_cons_iff.1 hc
  rw [List.map_eq_nil_iff.1 hc] at hl
  simp only [Prod.mk.injEq] at hx hy
  refine ⟨s, x, y, hs, hl, hx.1, hy.1, ?_, ?_⟩
  · exact (hall x (by rw [hl]; simp)).2 hx.2.2 (by rw [hx.2.1]; decide)
  · exact (hall y (by rw [hl]; simp)).2 hy.2.2 (by rw [hy.2.1]; decide)

/-- A reader of 200 bytes takes a full buffer and sleeps; another reads the rest of the line. -/
def twoReaders : List Act :=
  [.read 200 fun _ => true] ++ typed (List.replicate 128 97) ++ [.resume 0] ++ typed [98, newline] ++ [.read 200 fun _ => true] ++
    typed [99, newline] ++ [.resume 0]

theorem twoReaders_ok : ∀ l ∈ twoReaders, ∀ s : Sys, s.ok l := by
  intro l hl
  simp only [twoReaders, List.mem_append, List.mem_singleton] at hl
  rcases hl with (((((rfl | hl) | rfl) | hl) | rfl) | hl) | rfl
  · exact fun _ _ => rfl
  · refine typed_ok (fun c hc => ?_) l hl
    rw [List.eq_of_mem_replicate hc]
    decide
  · exact fun _ => trivial
  · exact typed_ok (by decide) l hl
  · exact fun _ _ => rfl
  · exact typed_ok (by decide) l hl
  · exact fun _ => trivial

/-- What the first reader gets is no part of the edited input. -/
theorem line_discipline_split : ∃ s x, Reach Sys.step Sys.ok (Sys.init (fun _ => 0) 0) s ∧ x ∈ s.completed ∧ x.reader.target = 200 ∧
    x.reader.got = List.replicate 128 97 ++ [99, newline] ∧ s.lines.committed = List.replicate 128 97 ++ [98, newline, 99, newline] ∧
    ¬ x.reader.got <:+: s.lines.committed := by
  have hrun : endsIn twoReaders (fun s => s.completed.any (fun x => x.reader.target == 200 &&
      x.reader.got == List.replicate 128 97 ++ [99, newline]) &&
      s.lines.committed == List.replicate 128 97 ++ [98, newline, 99, newline]) = true := by decide +kernel
  obtain ⟨s, hs, hc⟩ := exists_of_endsIn twoReaders_ok hrun
  simp only [Bool.and_eq_true, List.any_eq_true, beq_iff_eq] at hc
  obtain ⟨⟨x, hx, htarget, hgot⟩, hcommitted⟩ := hc
  refine ⟨s, x, hs, hx, htarget, hgot, hcommitted, ?_⟩
  rw [hgot, hcommitted]
  decide +kernel

end Xv6.Console
