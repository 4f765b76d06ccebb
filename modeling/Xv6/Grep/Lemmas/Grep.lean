import Xv6.Grep.Grep
import Xv6.Lib.Run
import Xv6.Libc.Memmove

/-!
# Every way to read a file gives the same output

Between two reads the start of the next line is at the front of the buffer. `lines` takes the whole lines that a
read has completed.
-/

namespace Xv6.Grep

open Lib Function

variable {buf : Buf} {p n q room : Nat} {b l text pattern out : List Byte} {c : Byte} {ls : List (List Byte)}

/-! ## The buffer -/

theorem slice_length (buf : Buf) (p n : Nat) : (slice buf p n).length = n := by
  induction n generalizing p with
  | zero => rfl
  | succ n ih => rw [slice, List.length_cons, ih]

theorem slice_congr {buf' : Buf} (h : ∀ i, p ≤ i → i < p + n → buf' i = buf i) : slice buf' p n = slice buf p n := by
  induction n generalizing p with
  | zero => rfl
  | succ n ih =>
      rw [slice, slice, h p (Nat.le_refl p) (by omega), ih fun i h₁ h₂ => h i (by omega) (by omega)]

theorem slice_append (buf : Buf) (p a k : Nat) : slice buf p (a + k) = slice buf p a ++ slice buf (p + a) k := by
  induction a generalizing p with
  | zero => rw [Nat.zero_add, Nat.add_zero]; rfl
  | succ a ih => rw [Nat.add_right_comm, slice, slice, List.cons_append, ih, Nat.add_right_comm, Nat.add_assoc]

theorem slice_place : slice (place buf p b) p b.length = b := by
  have h : ∀ (k : Nat) (d : List Byte), b.drop k = d → slice (place buf p b) (p + k) d.length = d := by
    intro k d
    induction d generalizing k with
    | nil => exact fun _ => rfl
    | cons x d ih =>
        intro hd
        have hk : k < b.length := by
          by_contra hlt
          rw [List.drop_eq_nil_of_le (by omega)] at hd
          cases hd
        have hx : place buf p b (p + k) = x := by
          unfold place
          rw [if_pos (by omega), Nat.add_sub_cancel_left]
          have h₁ := congrArg List.head? hd
          rw [List.head?_drop] at h₁
          rw [List.getD_eq_getElem?_getD, h₁]
          rfl
        rw [List.length_cons, slice, hx, Nat.add_assoc, ih (k + 1)]
        rw [← List.tail_drop, hd]
        rfl
  exact h 0 b rfl

/-- The buffer holds `b` at `p`. -/
def Holds (buf : Buf) (p : Nat) (b : List Byte) : Prop := slice buf p b.length = b

theorem holds_cons : Holds buf p (c :: b) ↔ buf p = c ∧ Holds buf (p + 1) b := by
  unfold Holds
  rw [List.length_cons, slice, List.cons.injEq]

theorem holds_append {d : List Byte} : Holds buf p (b ++ d) ↔ Holds buf p b ∧ Holds buf (p + b.length) d := by
  unfold Holds
  rw [List.length_append, slice_append]
  constructor
  · intro h
    exact List.append_inj h (slice_length ..)
  · rintro ⟨h₁, h₂⟩
    rw [h₁, h₂]

theorem Holds.congr {buf' : Buf} (h : Holds buf p b) (hsame : ∀ i, p ≤ i → i < p + b.length → buf' i = buf i) : Holds buf' p b := by
  unfold Holds
  rw [slice_congr hsame]
  exact h

theorem Holds.update (h : Holds buf p b) (hi : q < p ∨ p + b.length ≤ q) : Holds (update buf q c) p b := by
  refine h.congr fun i h₁ h₂ => update_of_ne ?_ _ _
  omega

theorem slice_getD {i : Nat} (hi : i < n) : (slice buf p n).getD i 0 = buf (p + i) := by
  induction n generalizing p i with
  | zero => exact absurd hi (Nat.not_lt_zero i)
  | succ n ih =>
      cases i with
      | zero => rfl
      | succ i =>
          rw [slice, List.getD_cons_succ, ih (Nat.lt_of_succ_lt_succ hi), Nat.add_assoc, Nat.add_comm 1]

/-- `moveDown` is what the `memmove` of the user library does to a buffer in memory. -/
theorem moveDown_memmove {mem : Libc.Mem} {base : BitVec 64} {m : Nat} (hbase : base.toNat + bufSize ≤ 2 ^ 64)
    (hbuf : ∀ i < bufSize, mem (base + BitVec.ofNat 64 i) = buf i) (hpm : p + m ≤ bufSize) : ∃ buf', moveDown buf p m = some buf' ∧
      ∀ i < bufSize, (Libc.User.memmove base (base + BitVec.ofNat 64 p) (BitVec.ofNat 32 m) mem).2 (base + BitVec.ofNat 64 i) = buf' i := by
  have hsize : bufSize = 1024 := rfl
  have hm : (BitVec.ofNat 32 m).toInt.toNat = m := by
    rw [BitVec.toInt_eq_toNat_cond, BitVec.toNat_ofNat]
    split <;> omega
  have hp : (base + BitVec.ofNat 64 p).toNat ≤ base.toNat + p := by
    rw [BitVec.toNat_add, BitVec.toNat_ofNat]
    omega
  have hmoved : Libc.Moved base (base + BitVec.ofNat 64 p) (BitVec.ofNat 32 m).toInt.toNat mem
      (Libc.User.memmove base (base + BitVec.ofNat 64 p) (BitVec.ofNat 32 m) mem).2 := Libc.user_memmove_ok (by omega) (by omega)
  rw [hm] at hmoved
  obtain ⟨hcopied, hrest⟩ := hmoved
  refine ⟨_, if_pos hpm, fun i hi => ?_⟩
  unfold place
  rw [slice_length, Nat.zero_add, Nat.sub_zero]
  by_cases him : i < m
  · rw [if_pos ⟨Nat.zero_le i, him⟩, slice_getD him, hcopied i him, BitVec.add_assoc, ← BitVec.ofNat_add]
    exact hbuf (p + i) (by omega)
  · rw [if_neg (fun h => him h.2), hrest _ fun j hj heq => ?_, hbuf i hi]
    have h₁ := congrArg BitVec.toNat heq
    rw [BitVec.toNat_add, BitVec.toNat_add, BitVec.toNat_ofNat, BitVec.toNat_ofNat] at h₁
    omega

/-! ## `strchr` and strings -/

theorem strchr_found (h : Holds buf p (l ++ [c])) (hnul : 0 ∉ l) (hc : c ∉ l) (hc₀ : c ≠ 0) (hroom : l.length < room) :
    strchr buf c room p = some (some (p + l.length)) := by
  induction l generalizing p room with
  | nil =>
      obtain ⟨room, rfl⟩ := Nat.exists_eq_succ_of_ne_zero (Nat.ne_of_gt hroom)
      have h₁ := (holds_cons.1 h).1
      rw [strchr, if_neg (by rw [h₁]; exact hc₀), if_pos h₁]
      rfl
  | cons x l ih =>
      obtain ⟨room, rfl⟩ := Nat.exists_eq_succ_of_ne_zero (Nat.ne_of_gt (Nat.zero_lt_of_lt hroom))
      obtain ⟨h₁, h₂⟩ := holds_cons.1 h
      obtain ⟨hx, hnul'⟩ := not_or.1 (mt List.mem_cons.2 hnul)
      obtain ⟨hxc, hc'⟩ := not_or.1 (mt List.mem_cons.2 hc)
      rw [strchr, if_neg (by rw [h₁]; exact Ne.symm hx), if_neg (by rw [h₁]; exact Ne.symm hxc),
        ih h₂ hnul' hc' (Nat.lt_of_succ_lt_succ hroom), List.length_cons, Nat.add_assoc, Nat.add_comm 1]

theorem strchr_none (h : Holds buf p (l ++ [0])) (hnul : 0 ∉ l) (hc : c ∉ l) (hroom : l.length < room) :
    strchr buf c room p = some none := by
  induction l generalizing p room with
  | nil =>
      obtain ⟨room, rfl⟩ := Nat.exists_eq_succ_of_ne_zero (Nat.ne_of_gt hroom)
      rw [strchr, if_pos (holds_cons.1 h).1]
  | cons x l ih =>
      obtain ⟨room, rfl⟩ := Nat.exists_eq_succ_of_ne_zero (Nat.ne_of_gt (Nat.zero_lt_of_lt hroom))
      obtain ⟨h₁, h₂⟩ := holds_cons.1 h
      obtain ⟨hx, hnul'⟩ := not_or.1 (mt List.mem_cons.2 hnul)
      obtain ⟨hxc, hc'⟩ := not_or.1 (mt List.mem_cons.2 hc)
      rw [strchr, if_neg (by rw [h₁]; exact Ne.symm hx), if_neg (by rw [h₁]; exact Ne.symm hxc)]
      exact ih h₂ hnul' hc' (Nat.lt_of_succ_lt_succ hroom)

theorem cstring_eq (h : Holds buf p (l ++ [0])) (hnul : 0 ∉ l) (hroom : l.length < room) : cstring buf room p = some l := by
  induction l generalizing p room with
  | nil =>
      obtain ⟨room, rfl⟩ := Nat.exists_eq_succ_of_ne_zero (Nat.ne_of_gt hroom)
      rw [cstring, if_pos (holds_cons.1 h).1]
  | cons x l ih =>
      obtain ⟨room, rfl⟩ := Nat.exists_eq_succ_of_ne_zero (Nat.ne_of_gt (Nat.zero_lt_of_lt hroom))
      obtain ⟨h₁, h₂⟩ := holds_cons.1 h
      obtain ⟨hx, hnul'⟩ := not_or.1 (mt List.mem_cons.2 hnul)
      rw [cstring, if_neg (by rw [h₁]; exact Ne.symm hx), ih h₂ hnul' (Nat.lt_of_succ_lt_succ hroom), h₁]
      rfl

/-! ## The lines in the buffer -/

theorem file_cons (l : List Byte) (ls : List (List Byte)) : file (l :: ls) = l ++ newline :: file ls := by
  unfold file
  rw [List.flatMap_cons, List.append_assoc]
  rfl

theorem accepted_cons (pattern l : List Byte) (ls : List (List Byte)) :
    accepted pattern (l :: ls) = (if grepMatch pattern l then l ++ [newline] else []) ++ accepted pattern ls := by
  unfold accepted
  rw [List.filter_cons]
  split
  · rw [file_cons, List.append_assoc]
    rfl
  · rfl

theorem lines_cons {d : List Byte} (pattern out : List Byte) (fuel : Nat) (hl : LineOk l) (h : Holds buf p (l ++ newline :: (d ++ [0])))
    (hp : p + l.length + 1 + d.length < bufSize) : ∃ buf', Holds buf' (p + l.length + 1) (d ++ [0]) ∧
      lines pattern (fuel + 1) buf p out =
        lines pattern fuel buf' (p + l.length + 1) (out ++ if grepMatch pattern l then l ++ [newline] else []) := by
  obtain ⟨hline, hrest⟩ := holds_append.1 h
  obtain ⟨hnl, hd⟩ := holds_cons.1 hrest
  have hfound : strchr buf newline (bufSize - p) p = some (some (p + l.length)) :=
    strchr_found (holds_append.2 ⟨hline, holds_cons.2 ⟨hnl, rfl⟩⟩) hl.noNul hl.noNewline (by decide) (by omega)
  have hput : ∀ (buf : Buf) b, put buf (p + l.length) b = some (update buf (p + l.length) b) := fun buf b => if_pos (by omega)
  have hstr : cstring (update buf (p + l.length) 0) (bufSize - p) p = some l := by
    refine cstring_eq (holds_append.2 ⟨hline.update (.inr (Nat.le_refl _)), holds_cons.2 ⟨?_, rfl⟩⟩) hl.noNul (by omega)
    exact update_self ..
  rw [lines, hfound]
  simp only [Option.bind_eq_bind, Option.bind_some, hput, hstr]
  cases hm : grepMatch pattern l with
  | false =>
      refine ⟨update buf (p + l.length) 0, hd.update (.inl (Nat.lt_succ_self _)), ?_⟩
      rw [if_neg (by decide), if_neg (by decide), List.append_nil]
  | true =>
      refine ⟨update (update buf (p + l.length) 0) (p + l.length) newline,
        (hd.update (.inl (Nat.lt_succ_self _))).update (.inl (Nat.lt_succ_self _)), ?_⟩
      rw [if_pos rfl, if_pos rfl]
      congr 2
      have hlen : p + l.length + 1 - p = (l ++ [newline]).length := by
        rw [List.length_append, List.length_singleton]
        omega
      rw [hlen]
      refine holds_append.2 ⟨(hline.update (.inr (Nat.le_refl _))).update (.inr (Nat.le_refl _)), holds_cons.2 ⟨?_, rfl⟩⟩
      exact update_self ..

/-- What has been read of a file either has its first line, or is a part of it. -/
theorem file_cons_split {content rest : List Byte} (h : file (l :: ls) = content ++ rest) :
    (∃ d, content = l ++ newline :: d ∧ file ls = d ++ rest) ∨ ∃ e, l = content ++ e ∧ rest = e ++ newline :: file ls := by
  rw [file_cons] at h
  rcases List.append_eq_append_iff.1 h with ⟨d, hd, hrest⟩ | ⟨e, he, hrest⟩
  · cases d with
    | nil => exact .inr ⟨[], by rw [hd, List.append_nil, List.append_nil], hrest.symm⟩
    | cons x d =>
        obtain ⟨hx, hls⟩ := List.cons_eq_cons.1 hrest
        exact .inl ⟨d, by rw [hd, hx], hls⟩
  · exact .inr ⟨e, he, hrest⟩

/-- The loop takes the whole lines of what is in the buffer, and leaves the start of the next one. -/
theorem lines_ok {content rest : List Byte} {fuel : Nat} (pattern out : List Byte) (hls : ∀ l ∈ ls, LineOk l) (hfile : file ls = content ++ rest)
    (h : Holds buf p (content ++ [0])) (hp : p + content.length < bufSize) (hfuel : content.length < fuel) :
    ∃ buf' p' part done todo, ls = done ++ todo ∧ file todo = part ++ rest ∧ newline ∉ part ∧ p' + part.length = p + content.length ∧
      Holds buf' p' part ∧ lines pattern fuel buf p out = some (buf', p', out ++ accepted pattern done) := by
  induction ls generalizing content p buf fuel out with
  | nil =>
      obtain ⟨rfl, rfl⟩ := List.append_eq_nil_iff.1 hfile.symm
      obtain ⟨fuel, rfl⟩ := Nat.exists_eq_succ_of_ne_zero (Nat.ne_of_gt hfuel)
      have hnone := strchr_none (c := newline) h List.not_mem_nil List.not_mem_nil (show 0 < bufSize - p by
        rw [List.length_nil] at hp
        omega)
      refine ⟨buf, p, [], [], [], rfl, rfl, List.not_mem_nil, rfl, rfl, ?_⟩
      rw [lines, hnone]
      simp [accepted, file]
  | cons l ls ih =>
      obtain ⟨fuel, rfl⟩ := Nat.exists_eq_succ_of_ne_zero (Nat.ne_of_gt (Nat.zero_lt_of_lt hfuel))
      have hl := hls l List.mem_cons_self
      rcases file_cons_split hfile with ⟨d, rfl, hrest⟩ | ⟨e, rfl, hrest⟩
      · -- the line is complete
        rw [List.append_assoc, List.cons_append] at h
        rw [List.length_append, List.length_cons] at hp hfuel
        obtain ⟨buf₁, hd₁, hstep⟩ := lines_cons pattern out fuel hl h (by omega)
        obtain ⟨buf', p', part, done, todo, rfl, htodo, hnl, hlen, hpart, hrun⟩ :=
          ih (out ++ if grepMatch pattern l then l ++ [newline] else [])
            (fun k hk => hls k (List.mem_cons_of_mem _ hk)) hrest hd₁ (by omega) (show d.length < fuel by omega)
        refine ⟨buf', p', part, l :: done, todo, rfl, htodo, hnl, ?_, hpart, ?_⟩
        · rw [List.length_append, List.length_cons]
          omega
        · rw [hstep, hrun, accepted_cons, List.append_assoc]
      · -- only a part of it is there
        have hnone := strchr_none (c := newline) h (fun h₀ => hl.noNul (List.mem_append_left _ h₀))
          (fun h₀ => hl.noNewline (List.mem_append_left _ h₀)) (show content.length < bufSize - p by omega)
        refine ⟨buf, p, content, [], (content ++ e) :: ls, rfl, hfile, fun h₀ => hl.noNewline (List.mem_append_left _ h₀), rfl,
          (holds_append.1 h).1, ?_⟩
        rw [lines, hnone]
        simp [accepted, file]

/-! ## Reading -/

/-- The start of the next line is in the buffer, and the lines before it have been written if they are accepted. -/
structure Ok (pattern : List Byte) (ls : List (List Byte)) (s : State) : Prop where
  read : ∃ done todo part, ls = done ++ todo ∧ file todo = part ++ s.rest ∧ newline ∉ part ∧ s.m = part.length ∧
    Holds s.buf 0 part ∧ s.out = accepted pattern done

theorem part_length {todo : List (List Byte)} {part rest : List Byte} (hls : ∀ l ∈ todo, LineOk l) (h : file todo = part ++ rest)
    (hnl : newline ∉ part) : part.length + 2 ≤ bufSize := by
  cases todo with
  | nil =>
      obtain ⟨rfl, rfl⟩ := List.append_eq_nil_iff.1 h.symm
      decide
  | cons l ls =>
      have hshort := (hls l List.mem_cons_self).short
      rcases file_cons_split h with ⟨d, rfl, -⟩ | ⟨e, rfl, -⟩
      · exact absurd (List.mem_append_right _ List.mem_cons_self) hnl
      · rw [List.length_append] at hshort
        omega

theorem body_ok {s : State} {piece rest : List Byte} (hls : ∀ l ∈ ls, LineOk l) (hs : Ok pattern ls s) (hne : piece ≠ [])
    (hwant : piece.length ≤ s.want) (hrest : s.rest = piece ++ rest) :
    ∃ t, s.body pattern piece = some t ∧ Ok pattern ls { t with rest := rest } := by
  obtain ⟨done, todo, part, rfl, hfile, hnl, hm, hpart, hout⟩ := hs.read
  have htodo : ∀ l ∈ todo, LineOk l := fun l hl => hls l (List.mem_append_right _ hl)
  have hlen := part_length htodo hfile hnl
  have hfits : s.m + piece.length < bufSize := by
    unfold State.want at hwant
    omega
  -- the buffer with what has been read and the terminator
  have hholds : Holds (update (place s.buf s.m piece) (s.m + piece.length) 0) 0 (part ++ piece ++ [0]) := by
    refine holds_append.2 ⟨Holds.update (holds_append.2 ⟨hpart.congr fun i _ hi => if_neg (by omega), ?_⟩) (.inr ?_),
      holds_cons.2 ⟨?_, rfl⟩⟩
    · rw [Nat.zero_add, ← hm]
      exact slice_place
    · rw [List.length_append]
      omega
    · rw [List.length_append, Nat.zero_add, ← hm]
      exact update_self ..
  have hpos := List.length_pos_iff.2 hne
  rw [hrest, ← List.append_assoc] at hfile
  obtain ⟨buf', p', part', done', todo', rfl, hfile', hnl', hp', hpart', hrun⟩ :=
    lines_ok pattern s.out htodo hfile hholds (by rw [List.length_append]; omega)
      (show (part ++ piece).length < bufSize by rw [List.length_append]; omega)
  rw [List.length_append] at hp'
  have hm' : s.m + piece.length - p' = part'.length := by omega
  refine ⟨{ s with buf := place buf' 0 (slice buf' p' part'.length), m := part'.length, out := s.out ++ accepted pattern done' }, ?_, ?_⟩
  · unfold State.body fill put moveDown
    rw [if_pos (Nat.le_of_lt hfits)]
    simp only [Option.bind_eq_bind, Option.bind_some, if_pos hfits, hrun]
    rw [if_pos (by omega), hm', if_pos (by omega)]
    rfl
  · refine ⟨done ++ done', todo', part', (List.append_assoc ..).symm, hfile', hnl', rfl, ?_, ?_⟩
    · have h₁ : slice buf' p' part'.length = part' := hpart'
      rw [h₁]
      exact slice_place
    · rw [hout]
      unfold accepted file
      rw [List.filter_append, List.flatMap_append]

theorem step_ok {s : State} {piece : List Byte} {r : Except Unit State} (hls : ∀ l ∈ ls, LineOk l) (hs : Ok pattern ls s)
    (h : s.step pattern piece = some r) : ∃ t, r = .ok t ∧ Ok pattern ls t := by
  unfold State.step at h
  split at h
  · cases h
  · rename_i hno
    obtain ⟨hne, hno⟩ := not_or.1 hno
    obtain ⟨hwant, hpiece⟩ := not_or.1 hno
    have hrest : s.rest = piece ++ s.rest.drop piece.length := by
      have h₁ := List.take_append_drop piece.length s.rest
      rw [not_not.1 hpiece] at h₁
      exact h₁.symm
    obtain ⟨t, hbody, ht⟩ := body_ok hls hs hne (Nat.not_lt.1 hwant) hrest
    rw [hbody] at h
    cases h
    exact ⟨_, rfl, ht⟩

theorem reach_ok {s : State} {buf : Buf} (hls : ∀ l ∈ ls, LineOk l)
    (h : Reach (State.step pattern) (fun _ _ => True) (State.init buf (file ls)) s) : Ok pattern ls s := by
  refine h.inv ⟨[], ls, [], rfl, rfl, List.not_mem_nil, rfl, rfl, rfl⟩ fun s piece t hs _ hstep => ?_
  obtain ⟨u, hu, hok⟩ := step_ok hls hs hstep
  cases hu
  exact hok

end Xv6.Grep
