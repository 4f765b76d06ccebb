import Xv6.Bcache.Bcache

/-!
# The structure of the buffer cache

The links stay a ring of all the buffers in the order of their latest release, so the loops of `bget`
end and search this list; the counts count the uses and the pins.
-/

namespace Xv6.Bcache

open Lib Dll Function

variable {s t : Cache} {i j : Fin nbuf} {a : Act} {xs : List (Fin nbuf)}

/-- How many of the uses are of the buffer: who holds it, waits for it, or gives it back. -/
def users (uses : List Use) (i : Fin nbuf) : Nat := uses.countP fun u => u.buf = i

/-- `i` stands before `j`: it was released later, or neither was and it is before `j` in the list that
`binit` makes. -/
def Cache.Before (s : Cache) (i j : Fin nbuf) : Prop :=
  s.lastRelease j < s.lastRelease i ∨ s.lastRelease i = 0 ∧ s.lastRelease j = 0 ∧ j < i

/-! ## The list -/

/-- The links are a ring of the buffers in the order of `xs`. -/
structure Ordered (s : Cache) (xs : List (Fin nbuf)) : Prop where
  ring : Dll.Ring s.links .head (xs.map .buf)
  nodup : xs.Nodup
  all : ∀ i, i ∈ xs
  order : xs.Pairwise s.Before
  clock : ∀ i, s.lastRelease i ≤ s.clock

theorem map_buf_nodup (h : xs.Nodup) : (Node.head :: xs.map .buf).Nodup := by
  refine List.nodup_cons.2 ⟨by simp, h.map fun i j hij => Node.buf.inj hij⟩

theorem head_notMem : Node.head ∉ xs.map .buf := by simp

theorem Ordered.length (h : Ordered s xs) : xs.length = nbuf := by
  have hperm : xs.Perm (List.finRange nbuf) := by
    rw [List.perm_ext_iff_of_nodup h.nodup (List.nodup_finRange nbuf)]
    exact fun i => ⟨fun _ => List.mem_finRange i, fun _ => h.all i⟩
  rw [hperm.length_eq, List.length_finRange]

/-- The rings that the loop of `binit` makes. -/
theorem ring_binit_foldl (xs l : List (Fin nbuf)) {L : Links Node} (hr : Dll.Ring L .head (xs.map .buf)) (hnd : (l.reverse ++ xs).Nodup) :
    Dll.Ring (l.foldl (fun L i => L.pushFront .head (.buf i)) L) .head ((l.reverse ++ xs).map .buf) := by
  induction l generalizing L xs with
  | nil => exact hr
  | cons i l ih =>
      rw [List.reverse_cons, List.append_assoc] at hnd ⊢
      rw [List.foldl_cons]
      have hixs : (i :: xs).Nodup := (List.nodup_append.1 hnd).2.1
      refine ih (i :: xs) (hr.pushFront (map_buf_nodup (List.nodup_cons.1 hixs).2) ?_) hnd
      simpa using (List.nodup_cons.1 hixs).1

theorem ordered_binit : Ordered binit (List.finRange nbuf).reverse := by
  have hnd : (List.finRange nbuf).reverse.Nodup := List.nodup_reverse.2 (List.nodup_finRange nbuf)
  refine ⟨?_, hnd, fun i => List.mem_reverse.2 (List.mem_finRange i), ?_, fun i => Nat.le_refl _⟩
  · have h := ring_binit_foldl [] (L := ⟨fun _ => .head, fun _ => .head⟩) (List.finRange nbuf)
      (by simp [Dll.Ring, Link]) (by simpa using hnd)
    rwa [List.append_nil] at h
  · rw [List.pairwise_reverse]
    refine (List.pairwise_lt_finRange nbuf).imp fun {i j} hij => Or.inr ⟨rfl, rfl, hij⟩

theorem Ordered.congr (h : Ordered s xs) (hlinks : t.links = s.links) (hclock : t.clock = s.clock)
    (hlast : t.lastRelease = s.lastRelease) : Ordered t xs := by
  refine ⟨by rw [hlinks]; exact h.ring, h.nodup, h.all, ?_, ?_⟩
  · refine h.order.imp fun {i j} hij => ?_
    simp only [Cache.Before, hlast]
    exact hij
  · rw [hlast, hclock]
    exact h.clock

/-- The buffer goes to the front at the time after all others. -/
theorem Ordered.moveFront (h : Ordered s xs) (hlinks : t.links = (s.links.unlink (.buf i)).pushFront .head (.buf i))
    (hclock : t.clock = s.clock + 1) (hlast : t.lastRelease = update s.lastRelease i (s.clock + 1)) :
    Ordered t (i :: xs.erase i) := by
  have herase : (xs.erase i).map Node.buf = (xs.map Node.buf).erase (.buf i) :=
    List.map_erase (fun i j hij => Node.buf.inj hij) xs
  have hne : ∀ j ∈ xs.erase i, j ≠ i := fun j hj => ((List.Nodup.mem_erase_iff h.nodup).1 hj).1
  refine ⟨?_, List.nodup_cons.2 ⟨fun hm => hne i hm rfl, h.nodup.erase i⟩, fun j => ?_, ?_, fun j => ?_⟩
  · rw [List.map_cons, herase, hlinks]
    exact h.ring.moveFront (map_buf_nodup h.nodup) (List.mem_map.2 ⟨i, h.all i, rfl⟩)
  · obtain rfl | hj := eq_or_ne j i
    · exact List.mem_cons_self
    · exact List.mem_cons_of_mem _ ((List.mem_erase_of_ne hj).2 (h.all j))
  · refine List.pairwise_cons.2 ⟨fun j hj => Or.inl ?_, ?_⟩
    · rw [hlast, update_self, update_of_ne (hne j hj)]
      exact Nat.lt_succ_of_le (h.clock j)
    · refine ((h.order.sublist (List.erase_sublist)).imp_of_mem ?_)
      intro j k hj hk hjk
      simp only [Cache.Before, hlast, update_of_ne (hne j hj), update_of_ne (hne k hk)]
      exact hjk
  · rw [hlast, hclock]
    obtain rfl | hj := eq_or_ne j i
    · rw [update_self]
    · rw [update_of_ne hj]
      exact Nat.le_succ_of_le (h.clock j)

/-! ## The loops of `bget` -/

theorem Ordered.find_next (h : Ordered s xs) (P : Node → Bool) :
    Cache.find s.links.next P = some ((xs.find? (P ∘ .buf)).map .buf) := by
  rw [Cache.find, h.ring.scan_next head_notMem (by rw [List.length_map, h.length]; exact Nat.lt_succ_self _), List.find?_map]

theorem Ordered.find_prev (h : Ordered s xs) (P : Node → Bool) :
    Cache.find s.links.prev P = some ((xs.reverse.find? (P ∘ .buf)).map .buf) := by
  rw [Cache.find, h.ring.scan_prev head_notMem (by rw [List.length_map, h.length]; exact Nat.lt_succ_self _),
    ← List.map_reverse, List.find?_map]

/-- What the section of `bget` does. -/
inductive Got (s : Cache) (dev blockno : Nat) : Except Stop (Fin nbuf × Cache) → Prop
  | cached (i : Fin nbuf) : (s.buf i).dev = dev → (s.buf i).blockno = blockno →
      Got s dev blockno (.ok (i, s.setBuf i { s.buf i with refcnt := (s.buf i).refcnt + 1 }))
  | recycled (i : Fin nbuf) : (∀ j, ¬ ((s.buf j).dev = dev ∧ (s.buf j).blockno = blockno)) → (s.buf i).refcnt = 0 →
      Got s dev blockno
        (.ok (i, s.setBuf i { s.buf i with dev := dev, blockno := blockno, valid := false, refcnt := 1 }))
  | panics : (∀ j, (s.buf j).refcnt ≠ 0) → Got s dev blockno (.error (.panic .bget))

/-- The loops of `bget` end, and it returns or panics as it should. -/
theorem bget_spec (h : Ordered s xs) (dev blockno : Nat) : ∃ r, bget s dev blockno = some r ∧ Got s dev blockno r := by
  unfold bget
  rw [h.find_next]
  cases hc : xs.find? (s.holds dev blockno ∘ .buf) with
  | some i =>
      have hi := List.find?_some hc
      simp only [Function.comp, Cache.holds, decide_eq_true_eq] at hi
      exact ⟨_, rfl, .cached i hi.1 hi.2⟩
  | none =>
      have hnot : ∀ j, ¬ ((s.buf j).dev = dev ∧ (s.buf j).blockno = blockno) := by
        intro j hj
        have hn := List.find?_eq_none.1 hc j (h.all j)
        simp only [Function.comp, Cache.holds, decide_eq_true_eq] at hn
        exact hn hj
      simp only [Option.map_none]
      rw [h.find_prev]
      cases hu : xs.reverse.find? (s.unused ∘ .buf) with
      | some i =>
          have hi := List.find?_some hu
          simp only [Function.comp, Cache.unused, decide_eq_true_eq] at hi
          exact ⟨_, rfl, .recycled i hnot hi⟩
      | none =>
          refine ⟨_, rfl, .panics fun j hj => ?_⟩
          have hn := List.find?_eq_none.1 hu j (List.mem_reverse.2 (h.all j))
          simp only [Function.comp, Cache.unused, decide_eq_true_eq] at hn
          exact hn hj

/-! ## The counts -/

theorem users_cons (u : Use) (l : List Use) (j : Fin nbuf) :
    users (u :: l) j = users l j + if u.buf = j then 1 else 0 := by
  simp only [users, List.countP_cons, decide_eq_true_eq]

theorem users_erase {u : Use} {l : List Use} (hu : u ∈ l) (j : Fin nbuf) :
    users l j = users (l.erase u) j + if u.buf = j then 1 else 0 := by
  rw [← users_cons]
  exact (List.perm_cons_erase hu).countP_eq _

/-- The invariant of every run. -/
structure Inv (s : Cache) : Prop where
  ordered : ∃ xs, Ordered s xs
  unique : ∀ i j, (s.buf i).dev ≠ 0 → (s.buf i).dev = (s.buf j).dev → (s.buf i).blockno = (s.buf j).blockno → i = j
  count : ∀ i, (s.buf i).refcnt = BitVec.ofNat 32 (users s.uses i + s.pins i)

theorem inv_binit : Inv binit :=
  ⟨⟨_, ordered_binit⟩, fun i j hi => absurd rfl hi, fun i => rfl⟩

/-- Buffer `i` changes to `b` and has `n` references; it holds the block it held before or one that no
other buffer holds. -/
theorem Inv.change {b : Buf} {n : Nat} (h : Inv s) (hord : ∃ xs, Ordered t xs) (hbuf : t.buf = update s.buf i b)
    (hblock : b.dev = (s.buf i).dev ∧ b.blockno = (s.buf i).blockno ∨
      ∀ j, ¬ ((s.buf j).dev = b.dev ∧ (s.buf j).blockno = b.blockno))
    (hsame : ∀ j, j ≠ i → users t.uses j + t.pins j = users s.uses j + s.pins j)
    (hn : users t.uses i + t.pins i = n) (hrefcnt : b.refcnt = BitVec.ofNat 32 n) : Inv t := by
  have hself : t.buf i = b := by rw [hbuf, update_self]
  have hne : ∀ j, j ≠ i → t.buf j = s.buf j := fun j hj => by rw [hbuf, update_of_ne hj]
  -- the block of `i` is not the block of another buffer
  have hnew : ∀ j, j ≠ i → (s.buf j).dev ≠ 0 → ¬ ((s.buf j).dev = b.dev ∧ (s.buf j).blockno = b.blockno) := by
    intro j hj hdev heq
    rcases hblock with hold | hnot
    · exact hj (h.unique j i hdev (heq.1.trans hold.1) (heq.2.trans hold.2))
    · exact hnot j heq
  refine ⟨hord, fun j k hj hd hb => ?_, fun j => ?_⟩
  · obtain rfl | hji := eq_or_ne j i
    · obtain rfl | hki := eq_or_ne k j
      · rfl
      · rw [hself] at hj hd hb
        rw [hne k hki] at hd hb
        exact absurd ⟨hd.symm, hb.symm⟩ (hnew k hki (by rwa [← hd]))
    · rw [hne j hji] at hj hd hb
      obtain rfl | hki := eq_or_ne k i
      · rw [hself] at hd hb
        exact absurd ⟨hd, hb⟩ (hnew j hji hj)
      · rw [hne k hki] at hd hb
        exact h.unique j k hj hd hb
  · obtain rfl | hj := eq_or_ne j i
    · rw [hself, hn, hrefcnt]
    · rw [hne j hj, hsame j hj]
      exact h.count j

theorem ofNat_succ (n : Nat) : BitVec.ofNat 32 n + 1 = BitVec.ofNat 32 (n + 1) := (BitVec.ofNat_add n 1).symm

theorem ofNat_pred (n : Nat) : BitVec.ofNat 32 (n + 1) - 1 = BitVec.ofNat 32 n := by
  rw [← ofNat_succ, BitVec.add_sub_cancel]

/-! ## Steps -/

theorem Inv.got {p dev blockno : Nat} (h : Inv s) (hg : Got s dev blockno (.ok (i, t))) :
    Inv (t.setUses (⟨p, i, .waiting⟩ :: t.uses)) := by
  obtain ⟨xs, hord⟩ := h.ordered
  have hsame : ∀ j, j ≠ i → users (⟨p, i, .waiting⟩ :: s.uses) j + s.pins j = users s.uses j + s.pins j := by
    intro j hj
    rw [users_cons, if_neg (Ne.symm hj), Nat.add_zero]
  have hself : users (⟨p, i, .waiting⟩ :: s.uses) i + s.pins i = users s.uses i + s.pins i + 1 := by
    rw [users_cons, if_pos rfl, Nat.add_right_comm]
  cases hg with
  | cached i _ _ =>
      refine h.change ⟨xs, hord.congr rfl rfl rfl⟩ rfl (Or.inl ⟨rfl, rfl⟩) hsame hself ?_
      rw [h.count i, ofNat_succ]
  | recycled i hnot hzero =>
      refine h.change ⟨xs, hord.congr rfl rfl rfl⟩ rfl (Or.inr hnot) hsame hself ?_
      rw [← ofNat_succ, ← h.count i, hzero]
      rfl

theorem Inv.setLock {u u' : Use} (h : Inv s) (lock : Option Nat) (hu : u ∈ s.uses) (hbuf : u'.buf = u.buf) :
    Inv ((s.setLock i lock).setUses (u' :: s.uses.erase u)) := by
  obtain ⟨xs, hord⟩ := h.ordered
  have hsame : ∀ j, users (u' :: s.uses.erase u) j + s.pins j = users s.uses j + s.pins j := by
    intro j
    rw [users_cons, users_erase hu, hbuf]
  exact h.change ⟨xs, hord.congr rfl rfl rfl⟩ rfl (Or.inl ⟨rfl, rfl⟩) (fun j _ => hsame j) (hsame i) (h.count i)

theorem Inv.brelse {u : Use} (h : Inv s) (hu : u ∈ s.uses) : Inv ((brelse s u.buf).setUses (s.uses.erase u)) := by
  obtain ⟨xs, hord⟩ := h.ordered
  have hsame : ∀ j, j ≠ u.buf → users (s.uses.erase u) j + s.pins j = users s.uses j + s.pins j := by
    intro j hj
    rw [users_erase hu j, if_neg (Ne.symm hj), Nat.add_zero]
  have hcount : (s.buf u.buf).refcnt - 1 = BitVec.ofNat 32 (users (s.uses.erase u) u.buf + s.pins u.buf) := by
    rw [h.count, users_erase hu, if_pos rfl, Nat.add_right_comm, ofNat_pred]
  unfold Bcache.brelse
  dsimp only
  split
  · exact h.change ⟨_, hord.moveFront rfl rfl rfl⟩ rfl (Or.inl ⟨rfl, rfl⟩) hsame rfl hcount
  · exact h.change ⟨xs, hord.congr rfl rfl rfl⟩ rfl (Or.inl ⟨rfl, rfl⟩) hsame rfl hcount

/-- The pins of a buffer and its count change by the same amount. -/
theorem Inv.setPins {n : Nat} {refcnt : BitVec 32} (h : Inv s) (hrefcnt : refcnt = BitVec.ofNat 32 (users s.uses i + n)) :
    Inv ((s.setBuf i { s.buf i with refcnt := refcnt }).setPins i n) := by
  obtain ⟨xs, hord⟩ := h.ordered
  refine h.change ⟨xs, hord.congr rfl rfl rfl⟩ rfl (Or.inl ⟨rfl, rfl⟩) (fun j hj => ?_) ?_ hrefcnt
  · show _ + update s.pins i n j = _
    rw [update_of_ne hj]
    rfl
  · show _ + update s.pins i n i = _
    rw [update_self]
    rfl

theorem Inv.step (h : Inv s) (hs : step s a = some (.ok t)) : Inv t := by
  cases a with
  | bget p dev blockno =>
      obtain ⟨xs, hord⟩ := h.ordered
      obtain ⟨r, hr, hg⟩ := bget_spec hord dev blockno
      simp only [Bcache.step, hr, Option.map_some, Option.some.injEq] at hs
      cases r with
      | error e => cases hs
      | ok it =>
          obtain ⟨i, u⟩ := it
          cases hs
          exact h.got hg
  | acquire p i =>
      simp only [Bcache.step, Option.ite_none_right_eq_some, Option.some.injEq] at hs
      obtain ⟨⟨hu, _⟩, hs⟩ := hs
      cases hs
      exact h.setLock _ hu rfl
  | release p i =>
      simp only [Bcache.step] at hs
      split at hs
      · simp only [Option.ite_none_right_eq_some, Option.some.injEq] at hs
        obtain ⟨hu, hs⟩ := hs
        cases hs
        exact h.setLock _ hu rfl
      · cases hs
  | brelse p i =>
      simp only [Bcache.step, Option.ite_none_right_eq_some, Option.some.injEq] at hs
      obtain ⟨hu, hs⟩ := hs
      cases hs
      exact h.brelse hu
  | bpin i =>
      cases hs
      refine h.setPins ?_
      rw [h.count, ofNat_succ, Nat.add_assoc]
  | bunpin i =>
      simp only [Bcache.step, Option.ite_none_right_eq_some, Option.some.injEq] at hs
      obtain ⟨hpos, hs⟩ := hs
      cases hs
      refine h.setPins ?_
      obtain ⟨n, hn⟩ := Nat.exists_eq_add_one_of_ne_zero (Nat.ne_of_gt hpos)
      rw [h.count, hn, ← Nat.add_assoc, ofNat_pred, Nat.add_sub_cancel]

/-! ## The structure -/

/-- In every run of calls for devices other than 0: the links form one ring through all the buffers,
each once, in the order of their latest `brelse` to count 0 and then in the order of `binit`; no two
buffers that hold a block of a device hold the same one; the count of a buffer is the number of
processes that hold it, wait for it or give it back, and its pins; the loops of `bget` end, and it
panics only if no count is 0. -/
theorem bcache_structure (h : Reach Bcache.step (fun _ a => ∀ p blockno, a ≠ .bget p 0 blockno) binit s) :
    (∃ xs : List (Fin nbuf), Dll.Ring s.links .head (xs.map .buf) ∧ xs.Nodup ∧ (∀ i, i ∈ xs) ∧ xs.Pairwise s.Before) ∧
    (∀ i j, (s.buf i).dev ≠ 0 → (s.buf i).dev = (s.buf j).dev → (s.buf i).blockno = (s.buf j).blockno → i = j) ∧
    (∀ i, (s.buf i).refcnt = BitVec.ofNat 32 (users s.uses i + s.pins i)) ∧
    ∀ p dev blockno, Bcache.step s (.bget p dev blockno) ≠ none ∧
      ∀ e, Bcache.step s (.bget p dev blockno) = some (.error e) → e = .panic .bget ∧ ∀ i, (s.buf i).refcnt ≠ 0 := by
  have hinv : Inv s := h.inv inv_binit fun _ _ _ hi _ hs => hi.step hs
  obtain ⟨xs, hord⟩ := hinv.ordered
  refine ⟨⟨xs, hord.ring, hord.nodup, hord.all, hord.order⟩, hinv.unique, hinv.count, fun p dev blockno => ?_⟩
  obtain ⟨r, hr, hg⟩ := bget_spec hord dev blockno
  simp only [Bcache.step, hr, Option.map_some]
  refine ⟨nofun, fun e he => ?_⟩
  cases hg with
  | cached | recycled => cases he
  | panics hall =>
      cases he
      exact ⟨rfl, hall⟩

theorem bcache_structure_bget :
    ∃ s, Bcache.step binit (.bget 0 1 7) = some (.ok s) ∧
      ∀ i, (s.buf i).refcnt = BitVec.ofNat 32 (users s.uses i + s.pins i) := by
  obtain ⟨r, hr, hg⟩ := bget_spec ordered_binit 1 7
  cases hg with
  | cached i hdev => cases hdev
  | panics hall => exact absurd rfl (hall ⟨0, by decide⟩)
  | recycled i _ _ =>
      refine ⟨_, by simp only [Bcache.step, hr]; rfl, ?_⟩
      refine (bcache_structure (.step .init (l := .bget 0 1 7) ?_ ?_)).2.2.1
      · exact fun p blockno heq => by cases heq
      · simp only [Bcache.step, hr]
        rfl

/-- After `binit` all buffers hold block 0 of device 0. -/
theorem binit_same_block :
    ∃ s, Reach Bcache.step (fun _ a => ∀ p blockno, a ≠ .bget p 0 blockno) binit s ∧
      ∃ i j : Fin nbuf, i ≠ j ∧ (s.buf i).dev = (s.buf j).dev ∧ (s.buf i).blockno = (s.buf j).blockno :=
  ⟨binit, .init, ⟨0, by decide⟩, ⟨1, by decide⟩, by decide, rfl, rfl⟩

end Xv6.Bcache
