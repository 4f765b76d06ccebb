import Xv6.Lib.Run
import Xv6.Console.Lemmas.Read

/-!
# Runs of the console with its readers

`Ok` says where the bytes of the committed stream are: the first `taken` have been taken by readers, the
others are in the buffer. A read that is alone holds the bytes of the stream from the place where it started.
-/

namespace Xv6.Console

open Lib

/-! ## What a read takes -/

section

variable {n k n' : Nat} {got unread got' : List Byte} {done : Bool}

theorem Reads.le (h : Reads n got unread k n' got' done) : k ≤ unread.length := by
  cases h with
  | wait => exact Nat.le_refl _
  | line hu =>
      rw [hu, List.length_append]
      exact Nat.le_add_right _ _
  | eof hu =>
      rw [hu, List.length_append, List.length_cons]
      split <;> omega

theorem filter_of_not_mem {d : List Byte} (hd : control 'D' ∉ d) : d.filter (· ≠ control 'D') = d :=
  List.filter_eq_self.2 fun _ hc => decide_eq_true fun h => hd (h ▸ hc)

/-- All that is taken is copied out, but for a `^D`. -/
theorem Reads.copied (h : Reads n got unread k n' got' done) :
    got' = got ++ (unread.take k).filter (· ≠ control 'D') := by
  cases h with
  | wait hn hu => rw [List.take_length, filter_of_not_mem hu.2]
  | line hu hd => rw [hu, List.take_left, filter_of_not_mem hd.2]
  | @eof d v hu hd hlt =>
      rw [hu, List.take_length_add_append, List.filter_append, filter_of_not_mem hd.2]
      split
      · simp
      · simp

theorem Reads.length (h : Reads n got unread k n' got' done) : n' + got'.length = n + got.length := by
  cases h with
  | wait | line | eof =>
      rw [List.length_append]
      omega

theorem Reads.more (h : Reads n got unread k n' got' false) : 0 < n' ∧ k = unread.length ∧
    got' = got ++ unread ∧ Plain unread := by
  cases h with
  | wait hn hu =>
      exact ⟨by omega, rfl, rfl, hu⟩

end

/-! ## The invariant -/

/-- A read in progress. -/
structure Held (x : Reading) : Prop where
  pos : 0 < x.reader.target → 0 < x.reader.n
  target : x.reader.target = x.reader.n + x.reader.got.length
  works : ∀ i, x.works i = true

/-- A read that no other has been beside. -/
structure Alone (s : Sys) (x : Reading) : Prop where
  taken : s.taken = x.start + x.reader.got.length
  got : ∃ v, s.lines.committed.drop x.start = x.reader.got ++ v
  plain : Plain x.reader.got

/-- The stream, the buffer and the reads that have returned. -/
structure Flow (s : Sys) : Prop where
  buf : BufOk s.cons (s.lines.committed.drop s.taken) s.lines.pending
  taken : s.taken ≤ s.lines.committed.length
  plain : Plain s.lines.pending
  delivered : s.delivered = (s.lines.committed.take s.taken).filter (· ≠ control 'D')
  result : ∀ x ∈ s.completed, x.reader.result = x.reader.got.length
  whole : ∀ x ∈ s.completed, x.alone = true → 0 < x.reader.target → x.Whole s.lines.committed

structure Ok (s : Sys) : Prop extends Flow s where
  held : ∀ x ∈ s.readings, Held x
  alone : ∀ x ∈ s.readings, x.alone = true → s.readings = [x] ∧ Alone s x

variable {s t : Sys} {x : Reading} {before after : List Reading}

/-! ## Steps -/

theorem advance_eq (hs : Flow s) (hx : Held x) (before after : List Reading) : ∃ k n' got' done,
    Reads x.reader.n x.reader.got (s.lines.committed.drop s.taken) k n' got' done ∧
      s.advance x before after =
        { s with
          cons := { s.cons with r := s.cons.r + BitVec.ofNat 32 k }
          taken := s.taken + k
          delivered := s.delivered ++ got'.drop x.reader.got.length
          readings := before ++ (if done then [] else [{ x with reader := ⟨x.reader.target, n', got'⟩ }]) ++ after
          completed := if done then s.completed ++ [⟨⟨x.reader.target, n', got'⟩, x.start, s.taken + k, x.alone⟩] else s.completed } := by
  obtain ⟨k, n', got', done, hread, hr⟩ := consoleread_spec hs.buf hx.works hx.target
  refine ⟨k, n', got', done, hr, ?_⟩
  have hk : (s.cons.r + BitVec.ofNat 32 k - s.cons.r).toNat = k := by
    have h₁ := hr.le
    have h₂ := hs.buf.cap
    have h₃ : inputBufSize = 128 := rfl
    bv_omega
  unfold Sys.advance
  rw [hread]
  simp only [hk]

theorem take_add_filter (l : List Byte) (a k : Nat) : (l.take (a + k)).filter (· ≠ control 'D') =
    (l.take a).filter (· ≠ control 'D') ++ ((l.drop a).take k).filter (· ≠ control 'D') := by
  rw [List.take_add, List.filter_append]

theorem Plain.partOfLine {b : List Byte} (hb : Plain b) : PartOfLine b := ⟨fun h => hb.1 (List.dropLast_subset _ h), hb.2⟩

theorem Plain.append {b d : List Byte} (hb : Plain b) (hd : Plain d) : Plain (b ++ d) :=
  ⟨fun h => (List.mem_append.1 h).elim hb.1 hd.1, fun h => (List.mem_append.1 h).elim hb.2 hd.2⟩

theorem Plain.append_part {b d : List Byte} (hb : Plain b) (hd : PartOfLine d) (hne : d ≠ []) : PartOfLine (b ++ d) := by
  refine ⟨fun h => ?_, fun h => (List.mem_append.1 h).elim hb.2 hd.2⟩
  rw [List.dropLast_append_of_ne_nil hne] at h
  exact (List.mem_append.1 h).elim hb.1 hd.1

theorem Alone.drop_start (hx : Alone s x) : s.lines.committed.drop x.start = x.reader.got ++ s.lines.committed.drop s.taken := by
  obtain ⟨v, hv⟩ := hx.got
  rw [hx.taken, ← List.drop_drop, hv, List.drop_left]

/-- A read that is alone and comes to its end has a part of a line, or a `^D`. -/
theorem Reads.whole {k n' : Nat} {got' : List Byte} (hr : Reads x.reader.n x.reader.got (s.lines.committed.drop s.taken) k n' got' true)
    (ha : Alone s x) (hx : Held x) (hpos : 0 < x.reader.target) :
    Completed.Whole s.lines.committed ⟨⟨x.reader.target, n', got'⟩, x.start, s.taken + k, x.alone⟩ := by
  have hn := hx.pos hpos
  have htarget := hx.target
  have hdrop := ha.drop_start
  have htaken := ha.taken
  cases hr with
  | @line d v hu hd hle hend =>
      have hne : d ≠ [] := fun h => by
        rw [h] at hend
        rcases hend with h₁ | h₁
        · exact absurd h₁.symm (Nat.ne_of_gt hn)
        · cases h₁
      refine .inl ⟨fun h => hne (List.append_eq_nil_iff.1 h).2, ha.plain.append_part hd hne, ?_, ?_, v, ?_⟩
      · simp only [List.length_append]
        omega
      · simp only [List.length_append, htaken]
        omega
      · rw [hdrop, hu, List.append_assoc]
  | @eof d v hu hd hlt =>
      by_cases hnil : x.reader.got ++ d = []
      · obtain ⟨h₁, h₂⟩ := List.append_eq_nil_iff.1 hnil
        refine .inr ⟨hnil, ?_, v, ?_⟩
        · rw [if_pos hnil, htaken, h₁, h₂]
          rfl
        · rw [hdrop, hu, h₁, h₂]
          rfl
      · refine .inl ⟨hnil, (ha.plain.append hd).partOfLine, ?_, ?_, control 'D' :: v, ?_⟩
        · simp only [List.length_append]
          omega
        · simp only [List.length_append, htaken, if_neg hnil]
          omega
        · rw [hdrop, hu, List.append_assoc]

theorem advance_ok (hs : Flow s) (hx : Held x) (hheld : ∀ y ∈ before ++ after, Held y) (hothers : ∀ y ∈ before ++ after, y.alone = false)
    (halone : x.alone = true → before = [] ∧ after = [] ∧ Alone s x) : Ok (s.advance x before after) := by
  obtain ⟨k, n', got', done, hr, heq⟩ := advance_eq hs hx before after
  rw [heq]
  have hle := hr.le
  have hlen := hr.length
  rw [List.length_drop] at hle
  have hflow : ∀ readings completed, (∀ y ∈ completed, y.reader.result = y.reader.got.length) →
      (∀ y ∈ completed, y.alone = true → 0 < y.reader.target → y.Whole s.lines.committed) →
      Flow { s with
        cons := { s.cons with r := s.cons.r + BitVec.ofNat 32 k }
        taken := s.taken + k
        delivered := s.delivered ++ got'.drop x.reader.got.length
        readings := readings
        completed := completed } := fun readings completed hresult hwhole => by
    refine ⟨?_, ?_, hs.plain, ?_, hresult, hwhole⟩
    · have h₁ := hs.buf.take (k := k) hr.le
      rw [List.drop_drop] at h₁
      exact h₁
    · show s.taken + k ≤ s.lines.committed.length
      have h₂ := hs.taken
      omega
    · rw [take_add_filter, hs.delivered, hr.copied, List.drop_left]
  cases done with
  | true =>
      refine ⟨hflow _ _ ?_ ?_, ?_, ?_⟩
      · intro y hy
        rcases List.mem_append.1 hy with hy | hy
        · exact hs.result y hy
        · rw [List.mem_singleton.1 hy]
          show x.reader.target - n' = got'.length
          have h₃ := hx.target
          omega
      · intro y hy ha hpos
        rcases List.mem_append.1 hy with hy | hy
        · exact hs.whole y hy ha hpos
        · rw [List.mem_singleton.1 hy] at ha hpos ⊢
          exact hr.whole (halone ha).2.2 hx hpos
      · intro y hy
        exact hheld y (by simpa using hy)
      · intro y hy ha
        rw [hothers y (by simpa using hy)] at ha
        cases ha
  | false =>
      obtain ⟨hpos, hk, hgot, hplain⟩ := hr.more
      refine ⟨hflow _ _ hs.result hs.whole, ?_, ?_⟩
      · intro y hy
        rcases List.mem_append.1 hy with hy | hy
        · rcases List.mem_append.1 hy with hy | hy
          · exact hheld y (List.mem_append_left _ hy)
          · rw [List.mem_singleton.1 hy]
            exact ⟨fun _ => hpos, by rw [hx.target]; exact hlen.symm, hx.works⟩
        · exact hheld y (List.mem_append_right _ hy)
      · intro y hy ha
        by_cases hxa : x.alone = true
        · obtain ⟨h₁, h₂, h₃⟩ := halone hxa
          subst h₁ h₂
          rw [List.mem_singleton.1 hy]
          refine ⟨rfl, ?_, ⟨s.lines.committed.drop (s.taken + k), ?_⟩, ?_⟩
          · rw [hgot, List.length_append, hk, ← Nat.add_assoc, ← h₃.taken]
          · rw [h₃.drop_start, hgot, List.append_assoc, ← List.drop_drop, hk, List.drop_length, List.append_nil]
          · rw [hgot]
            exact h₃.plain.append hplain
        · rcases List.mem_append.1 hy with hy | hy
          · rcases List.mem_append.1 hy with hy | hy
            · rw [hothers y (List.mem_append_left _ hy)] at ha
              cases ha
            · rw [List.mem_singleton.1 hy] at ha
              exact absurd ha hxa
          · rw [hothers y (List.mem_append_right _ hy)] at ha
            cases ha

theorem Alone.grows (ha : Alone s x) (ht : t.taken = s.taken) {d : List Byte} (hd : t.lines.committed = s.lines.committed ++ d)
    (hle : s.taken ≤ s.lines.committed.length) : Alone t x := by
  obtain ⟨v, hv⟩ := ha.got
  have h₁ := ha.taken
  refine ⟨by rw [ht, h₁], ⟨v ++ d, ?_⟩, ha.plain⟩
  rw [hd, List.drop_append_of_le_length (by omega), hv, List.append_assoc]

theorem Completed.Whole.grows {c : List Byte} {y : Completed} (h : y.Whole c) (d : List Byte) : y.Whole (c ++ d) := by
  have hdrop : ∀ a v, a ≠ [] → c.drop y.start = a ++ v → (c ++ d).drop y.start = a ++ (v ++ d) := fun a v ha hv => by
    have hlen : y.start ≤ c.length := by
      by_contra hlt
      rw [List.drop_eq_nil_of_le (by omega)] at hv
      exact ha (List.append_eq_nil_iff.1 hv.symm).1
    rw [List.drop_append_of_le_length hlen, hv, List.append_assoc]
  rcases h with ⟨h₁, h₂, h₃, h₄, v, hv⟩ | ⟨h₁, h₂, v, hv⟩
  · exact .inl ⟨h₁, h₂, h₃, h₄, v ++ d, hdrop _ v h₁ hv⟩
  · exact .inr ⟨h₁, h₂, v ++ d, hdrop [control 'D'] v (List.cons_ne_nil _ _) hv⟩

theorem intr_ok {c : Byte} (hs : Ok s) (hc : s.ok (.intr c)) : ∃ t, s.step (.intr c) = some (.ok t) ∧ Ok t := by
  obtain ⟨cons, hintr, hbuf, hplain, d, hd⟩ := consoleintr_ok hs.buf hs.plain hs.taken hc
  refine ⟨{ s with cons := cons, lines := s.lines.type s.taken c }, by rw [Sys.step, hintr], ?_⟩
  refine ⟨⟨hbuf, ?_, hplain, ?_, hs.result, fun y hy ha hpos => ?_⟩, hs.held, fun y hy ha => ?_⟩
  · rw [hd, List.length_append]
    exact Nat.le_trans hs.taken (Nat.le_add_right _ _)
  · rw [hs.delivered, hd, List.take_append_of_le_length hs.taken]
  · rw [hd]
    exact (hs.whole y hy ha hpos).grows d
  · obtain ⟨h₁, h₂⟩ := hs.alone y hy ha
    exact ⟨h₁, h₂.grows rfl hd hs.taken⟩

theorem read_ok {n : Int} {works : Nat → Bool} (hs : Ok s) (hw : ∀ i, works i = true) (h : s.step (.read n works) = some (.ok t)) : Ok t := by
  cases h
  apply advance_ok hs.toFlow
  · exact ⟨id, rfl, hw⟩
  · intro y hy
    rw [List.append_nil] at hy
    obtain ⟨z, hz, rfl⟩ := List.mem_map.1 hy
    obtain ⟨h₁, h₂, h₃⟩ := hs.held z hz
    exact ⟨h₁, h₂, h₃⟩
  · intro y hy
    rw [List.append_nil] at hy
    obtain ⟨z, -, rfl⟩ := List.mem_map.1 hy
    rfl
  · intro ha
    have hnil : s.readings = [] := List.isEmpty_iff.1 ha
    exact ⟨by rw [hnil]; rfl, rfl, rfl, ⟨_, rfl⟩, plain_nil⟩

theorem resume_ok {k : Nat} (hs : Ok s) (h : s.step (.resume k) = some (.ok t)) : Ok t := by
  simp only [Sys.step] at h
  cases hk : s.readings[k]? with
  | none =>
      rw [hk] at h
      cases h
  | some x =>
      rw [hk] at h
      cases h
      have hmem := List.mem_of_getElem? hk
      have hothers : ∀ y ∈ s.readings.take k ++ s.readings.drop (k + 1), y ∈ s.readings := fun y hy =>
        (List.mem_append.1 hy).elim List.mem_of_mem_take List.mem_of_mem_drop
      have hsplit : s.readings.length = 1 → s.readings.take k = [] ∧ s.readings.drop (k + 1) = [] := fun hlen => by
        have hlt := (List.getElem?_eq_some_iff.1 hk).1
        have hk₀ : k = 0 := by omega
        subst hk₀
        exact ⟨rfl, List.drop_eq_nil_of_le (by omega)⟩
      apply advance_ok hs.toFlow (hs.held x hmem) fun y hy => hs.held y (hothers y hy)
      · intro y hy
        by_contra ha
        obtain ⟨h₁, -⟩ := hs.alone y (hothers y hy) (Bool.not_eq_false _ ▸ ha)
        obtain ⟨h₂, h₃⟩ := hsplit (by rw [h₁]; rfl)
        rw [h₂, h₃] at hy
        cases hy
      · intro ha
        obtain ⟨h₁, h₂⟩ := hs.alone x hmem ha
        obtain ⟨h₃, h₄⟩ := hsplit (by rw [h₁]; rfl)
        exact ⟨h₃, h₄, h₂⟩

theorem kill_ok {k : Nat} (hs : Ok s) (h : s.step (.kill k) = some (.ok t)) : Ok t := by
  simp only [Sys.step] at h
  split at h
  · rename_i hk
    cases h
    refine ⟨⟨hs.buf, hs.taken, hs.plain, hs.delivered, hs.result, hs.whole⟩, fun y hy => hs.held y (List.mem_of_mem_eraseIdx hy),
      fun y hy ha => ?_⟩
    have h₁ := (hs.alone y (List.mem_of_mem_eraseIdx hy) ha).1
    have hk₀ : k = 0 := by
      have h₂ := hk.1
      rw [h₁, List.length_singleton] at h₂
      omega
    rw [hk₀, h₁] at hy
    cases hy
  · cases h

theorem step_ok {l : Act} (hs : Ok s) (hl : s.ok l) (h : s.step l = some (.ok t)) : Ok t := by
  cases l with
  | intr c =>
      obtain ⟨u, hu, hok⟩ := intr_ok hs hl
      rw [hu] at h
      cases h
      exact hok
  | read n works => exact read_ok hs hl h
  | resume k => exact resume_ok hs h
  | kill k => exact kill_ok hs h

theorem init_ok (buf : Nat → Byte) (r : BitVec 32) : Ok (Sys.init buf r) := by
  have hlen : Ring.len r r = 0 := Ring.len_eq_zero.2 rfl
  refine ⟨⟨⟨?_, hlen, Nat.zero_le _⟩, Nat.le_refl _, plain_nil, rfl, ?_, ?_⟩, ?_, ?_⟩
  · exact List.length_eq_zero_iff.1 (by rw [Ring.contents_length]; exact hlen)
  all_goals
    intro y hy
    cases hy

theorem reach_ok {buf : Nat → Byte} {r : BitVec 32} (h : Reach Sys.step Sys.ok (Sys.init buf r) s) : Ok s :=
  h.inv (init_ok buf r) fun _ _ _ hs hl hstep => step_ok hs hl hstep

end Xv6.Console
