import Xv6.Grep.Lemmas.Grep
import Xv6.Grep.Lemmas.Match

/-!
# Theorems about `grep`
-/

namespace Xv6.Grep

open Lib

/-! ## The matcher -/

/-- `match` finds out whether a part of the text matches the pattern. -/
theorem match_correct (re text : List Byte) : grepMatch re text = true ↔ Accepts re text := by
  unfold Accepts
  by_cases hc : re.head? = some (ascii '^')
  · obtain ⟨re, rfl⟩ := List.head?_eq_some_iff.1 hc
    rw [grepMatch, if_pos rfl, matchhere_iff, if_pos hc, List.tail_cons]
    constructor
    · rintro ⟨part, after, rfl, h, hstop⟩
      exact ⟨[], part, after, rfl, fun _ => rfl, h, hstop⟩
    · rintro ⟨before, part, after, rfl, hbefore, h, hstop⟩
      rw [hbefore hc]
      exact ⟨part, after, rfl, h, hstop⟩
  · have hany : grepMatch re text = matchAnywhere re text := by
      cases re with
      | nil => rfl
      | cons c re => exact if_neg fun h => hc (congrArg some h)
    rw [hany, matchAnywhere_iff, if_neg hc]
    constructor
    · rintro ⟨before, rest, rfl, h⟩
      obtain ⟨part, after, rfl, h, hstop⟩ := (matchhere_iff _ _).1 h
      exact ⟨before, part, after, (List.append_assoc ..).symm, fun h₀ => absurd h₀ hc, h, hstop⟩
    · rintro ⟨before, part, after, rfl, -, h, hstop⟩
      exact ⟨before, part ++ after, List.append_assoc .., (matchhere_iff _ _).2 ⟨part, after, rfl, h, hstop⟩⟩

example : grepMatch ("^*a*$".toList.map ascii) ("*aa".toList.map ascii) = true := by decide

/-! ## The output -/

/-- However the file arrives: nothing is read or written outside the buffer, `read` is asked for something as long as
there is something to read, and in the end the accepted lines have been written, whole and in order. -/
theorem output_of_lines {pattern : List Byte} {ls : List (List Byte)} {buf : Buf} {s : State} (hls : ∀ l ∈ ls, LineOk l)
    (h : Reach (State.step pattern) (fun _ _ => True) (State.init buf (file ls)) s) :
    (∀ piece e, s.step pattern piece ≠ some (.error e)) ∧ 0 < s.want ∧
    (∃ done todo, ls = done ++ todo ∧ s.out = accepted pattern done) ∧
    (s.rest = [] → s.out = accepted pattern ls) := by
  have hs := reach_ok hls h
  obtain ⟨done, todo, part, rfl, hfile, hnl, hm, -, hout⟩ := hs.read
  have htodo : ∀ l ∈ todo, LineOk l := fun l hl => hls l (List.mem_append_right _ hl)
  refine ⟨fun piece e he => ?_, ?_, ⟨done, todo, rfl, hout⟩, fun hrest => ?_⟩
  · obtain ⟨t, ht, -⟩ := step_ok hls hs he
    cases ht
  · have hlen := part_length htodo hfile hnl
    unfold State.want
    omega
  · rw [hrest, List.append_nil] at hfile
    cases todo with
    | nil => rw [hout, List.append_nil]
    | cons l ls =>
        rw [file_cons] at hfile
        rw [← hfile] at hnl
        exact absurd (List.mem_append_right _ List.mem_cons_self) hnl

def twoLines : List (List Byte) := ["ab".toList.map ascii, "cab".toList.map ascii]

theorem twoLines_ok : ∀ l ∈ twoLines, LineOk l := by
  intro l hl
  simp only [twoLines, List.mem_cons, List.not_mem_nil, or_false] at hl
  rcases hl with rfl | rfl <;> exact ⟨by decide, by decide, by decide⟩

/-- Two lines that arrive in three pieces. -/
def threePieces : List (List Byte) := ["a".toList.map ascii, "b\nca".toList.map ascii, "b\n".toList.map ascii]

theorem threePieces_runs : (match run (State.step ("^a".toList.map ascii)) threePieces (State.init (fun _ => 0) (file twoLines)) with
    | some (.ok s) => s.rest.isEmpty
    | _ => false) = true := by decide +kernel

theorem output_of_lines_pieces : ∃ s, Reach (State.step ("^a".toList.map ascii)) (fun _ _ => True) (State.init (fun _ => 0) (file twoLines)) s ∧
    s.out = "ab\n".toList.map ascii := by
  have hrun := threePieces_runs
  split at hrun
  · rename_i s hs
    have hreach := reach_of_run RunOk.of_true hs
    refine ⟨s, hreach, ?_⟩
    rw [(output_of_lines twoLines_ok hreach).2.2.2 (List.isEmpty_iff.1 hrun)]
    decide
  · cases hrun

end Xv6.Grep
