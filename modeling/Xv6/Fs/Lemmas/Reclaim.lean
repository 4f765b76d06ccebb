import Xv6.Fs.Lemmas.Inode

/-!
# Recovery of orphans at boot

`ireclaim` runs with an empty inode table. It frees each allocated inode without links, in a
transaction of its own.
-/

namespace Xv6.Fs

open Lib Function

variable {s t : Fs} {e i j b n : Nat} {F : Stop → Fs → Prop}

/-- An allocated inode on the disk to which there is no link. -/
def Fs.Orphan (s : Fs) (i : Nat) : Prop := (s.disk i).type ≠ 0 ∧ (s.disk i).nlink = 0

/-- Nobody references an inode. -/
def Fs.Idle (s : Fs) : Prop := ∀ e, (s.inode e).ref = 0 ∧ (s.inode e).locked = false

theorem Fs.Idle.not_at (h : s.Idle) : ¬ s.At e i := fun he => by
  have := he.ref
  rw [(h e).1] at this
  exact Nat.lt_irrefl 0 this

theorem Fs.Idle.node (h : s.Idle) (hs : Ok s) : s.node i = s.disk i := hs.table.node_of_none fun _ => h.not_at

/-! ## One orphan -/

/-- The state when `ireclaim` drops its reference to inode `i`. -/
def Fs.opened (s : Fs) (e i : Nat) : Fs :=
  { s.setInode e ⟨rootDev, i, 1, false, true, s.disk i⟩ with trans := true, logged := [] }

theorem opened_spec (h : Ok s) (hidle : s.Idle) (he : e < ninode) (hi : i < s.sb.ninodes) (hpos : i ≠ 0) (ho : s.Orphan i) :
    Ok (s.opened e i) ∧ (s.opened e i).At e i ∧ Frees (s.opened e i) e i ∧ Others i s (s.opened e i) ∧
      (s.opened e i).file = s.file := by
  obtain ⟨h₁, h₂, _, hat₁, hrefs₁⟩ := h.takeEntry (x := ⟨rootDev, i, 1, false, false, s.disk i⟩) he (hidle e).1 hi hpos
    (fun _ => hidle.not_at) rfl rfl rfl rfl
  obtain ⟨h₃, h₄, h₅, hrefs₂⟩ := h₁.loadEntry (x := ⟨rootDev, i, 1, false, true, s.disk i⟩) hat₁ (by rw [setInode_self]; rfl)
    (by rw [setInode_self]) ho.1
  rw [setInode_setInode] at h₃ h₄ h₅ hrefs₂
  obtain ⟨h₆, hfile⟩ := h₃.of_eq (t := s.opened e i) rfl rfl rfl
  have hinode : (s.opened e i).inode = (s.setInode e ⟨rootDev, i, 1, false, true, s.disk i⟩).inode := rfl
  have hat : (s.opened e i).At e i := (at_iff hinode).2 (h₅.entry e i trivial hat₁).1
  have hd : (s.opened e i).inode e = ⟨rootDev, i, 1, false, true, s.disk i⟩ := setInode_self
  have hsame := h₂.trans' h₄
  refine ⟨h₆, hat, (frees_iff h₆ hat).2 ⟨by rw [hd], by rw [hd], by rw [hd]; exact ho.2⟩, ⟨fun j hj _ => ?_, fun _ _ => rfl⟩,
    hfile.trans hsame.file⟩
  exact (node_congr hinode rfl).trans (hsame.node j hj)

/-- `ilock` of an entry that nobody has locked and that has not been read from the disk. -/
theorem ilock_fresh {Q : Unit → Fs → Prop} {d : Dinode} (he : s.inode e = ⟨rootDev, i, 1, false, false, d⟩)
    (ht : (s.disk i).type ≠ 0) (hQ : Q () (s.setInode e ⟨rootDev, i, 1, true, true, s.disk i⟩)) : wp (ilock e) Q F s := by
  have hdisk : ∀ x, (s.setInode e x).disk i = s.disk i := fun _ => rfl
  simp only [ilock, acquiresleep, wp_bind, wp_get, he, wp_set, Nat.lt_irrefl, if_false, Bool.false_eq_true, setInode_self,
    not_false_eq_true, if_true, setInode_setInode, hdisk, ht, wp_pure]
  exact hQ

theorem ireclaimOne_opened {Q : Unit → Fs → Prop} (hidle : s.Idle) (ho : s.Orphan i)
    (hQ : ∀ e, e < ninode → wp (iput e) (fun _ t => Q () { t with trans := false }) F (s.opened e i)) :
    wp (ireclaimOne i) Q F s := by
  have hfind : s.find rootDev i = none := by
    refine List.find?_eq_none.2 fun e _ => ?_
    rw [(hidle e).1]
    simp
  obtain ⟨e, hempty⟩ : ∃ e, s.empty = some e := by
    cases hemp : s.empty with
    | some e => exact ⟨e, rfl⟩
    | none =>
        have := List.find?_eq_none.1 hemp 0 (List.mem_range.2 (by decide))
        rw [(hidle 0).1] at this
        exact absurd rfl this
  have hq := hQ e (empty_spec hempty).1
  simp only [ireclaimOne, wp_bind, wp_get]
  refine wp_ite (fun _ => ?_) fun h => absurd ho h
  simp only [wp_bind, iget, wp_get, hfind, hempty, wp_set, wp_pure, beginOp, wp_modify, (hidle e).2]
  refine ilock_fresh setInode_self ho.1 ?_
  simp only [iunlock, wp_bind, wp_get, setInode_self, releasesleep]
  refine wp_ite (fun h => absurd h (by decide)) fun _ => ?_
  rw [wp_modify, setInode_self, setInode_setInode]
  refine (congrArg (wp (iput e) _ F) ?_).mpr hq
  simp only [Fs.opened, Fs.setInode, update_idem]
  rfl

/-- The blocks of the free map. -/
def Super.nbitmap (sb : Super) : Nat := (sb.size + bpb - 1) / bpb

/-- With the free map and the block of an inode the log is not full. -/
theorem Logs.length_lt {k : Nat} (h : Logs (fun c => s.sb.IsBitmap c ∨ c = k) 0 s t) (hlog : s.logged = []) :
    t.logged.length ≤ s.sb.nbitmap + 1 := by
  obtain ⟨hn, N, hN, hmem⟩ := h
  have hsub : t.logged ⊆ k :: (List.range s.sb.nbitmap).map (· + s.sb.bmapstart) := by
    intro c hc
    rcases hmem c hc with h | (⟨b, hb, rfl⟩ | rfl) | h
    · rw [hlog] at h
      cases h
    · refine List.mem_cons_of_mem _ (List.mem_map.2 ⟨b / bpb, List.mem_range.2 ?_, rfl⟩)
      show b / 8192 < (s.sb.size + 8192 - 1) / 8192
      omega
    · exact List.mem_cons_self ..
    · rw [List.eq_nil_of_length_eq_zero (Nat.le_zero.1 hN)] at h
      cases h
  have hle := ((hn (hlog ▸ List.nodup_nil)).subperm hsub).length_le
  rwa [List.length_cons, List.length_map, List.length_range] at hle

/-- What one iteration does to an orphan. -/
structure Reclaimed (i : Nat) (s t : Fs) : Prop where
  ok : Ok t
  idle : t.Idle
  sb : t.sb = s.sb
  file : t.file = Function.update s.file i none
  others : Others i s t

theorem ireclaimOne_spec (h : Ok s) (hidle : s.Idle) (hi : i < s.sb.ninodes) (hpos : i ≠ 0)
    (hroom : s.sb.nbitmap + 1 < logBlocks) :
    wp (ireclaimOne i) (fun _ t => (s.Orphan i ∧ Reclaimed i s t) ∨ (¬ s.Orphan i ∧ t = s)) (fun _ _ => False) s := by
  by_cases ho : s.Orphan i
  · refine ireclaimOne_opened hidle ho fun e he => ?_
    obtain ⟨h₁, hat, hfrees, hoth, hfile⟩ := opened_spec h hidle he hi hpos ho
    have hlock : ((s.opened e i).inode e).locked = false := by
      show ((s.setInode e _).inode e).locked = false
      rw [setInode_self]
    refine wp_post (iput_frees h₁ hat hfrees hlock rfl fun u hu hlen => ?_) ?_
    · have : _ ≤ s.sb.nbitmap + 1 := hu.length_lt rfl
      omega
    · rintro _ t ⟨hd, _, x, hinode, href, hunlocked⟩
      obtain ⟨hok, hfile'⟩ := hd.ok.of_eq (t := { t with trans := false }) rfl rfl rfl
      have hnot : Others i t { t with trans := false } := ⟨fun _ _ _ => node_congr rfl rfl, fun _ _ => rfl⟩
      refine Or.inl ⟨ho, hok, fun e' => ?_, hd.sb, ?_, hoth.trans rfl (hd.others.trans hd.sb hnot)⟩
      · rw [hinode]
        obtain rfl | hne := eq_or_ne e' e
        · rw [update_self]
          exact ⟨href, hunlocked⟩
        · rw [update_of_ne hne]
          show ((s.setInode e _).inode e').ref = 0 ∧ ((s.setInode e _).inode e').locked = false
          rw [setInode_ne hne]
          exact hidle e'
      · rcases hd.file with ⟨_, h⟩ | ⟨h, _⟩
        · rw [hfile', h, hfile]
        · exact absurd hfrees h
  · simp only [ireclaimOne, wp_bind, wp_get]
    exact wp_ite (fun hc => absurd hc ho) fun _ => Or.inr ⟨ho, rfl⟩

/-! ## All orphans -/

/-- After the iterations for the inodes below `k`. -/
structure Reclaiming (k : Nat) (s t : Fs) : Prop where
  ok : Ok t
  idle : t.Idle
  sb : t.sb = s.sb
  freed : ∀ j, j ≠ 0 → j < k → s.Orphan j → (t.disk j).type = 0
  disk : ∀ j, j < s.sb.ninodes → ¬ (j ≠ 0 ∧ j < k ∧ s.Orphan j) → t.disk j = s.disk j ∧ t.file j = s.file j
  data : ∀ c, s.sb.IsData c → t.blk c = s.blk c

theorem Reclaiming.step {k : Nat} {u : Fs} (h : Reclaiming k s t) (hk : k < s.sb.ninodes) (hpos : k ≠ 0)
    (hu : (t.Orphan k ∧ Reclaimed k t u) ∨ (¬ t.Orphan k ∧ u = t)) : Reclaiming (k + 1) s u := by
  have hdk : t.disk k = s.disk k := (h.disk k hk fun hc => Nat.lt_irrefl _ hc.2.1).1
  have horphan : t.Orphan k ↔ s.Orphan k := by rw [Fs.Orphan, Fs.Orphan, hdk]
  rcases hu with ⟨ho, hr⟩ | ⟨hno, rfl⟩
  · have hdisk : ∀ j, j < s.sb.ninodes → j ≠ k → u.disk j = t.disk j := fun j hj hjk => by
      rw [← hr.idle.node hr.ok, ← h.idle.node h.ok]
      exact hr.others.node j (h.sb.symm ▸ hj) hjk
    have hfree : (u.disk k).type = 0 := by
      have hnone : u.file k = none := by rw [hr.file, update_self]
      rw [Fs.file, hr.idle.node hr.ok] at hnone
      by_contra ht
      rw [if_pos ⟨by rw [hr.sb, h.sb]; exact hk, ht⟩] at hnone
      cases hnone
    refine ⟨hr.ok, hr.idle, hr.sb.trans h.sb, fun j hj0 hjk hoj => ?_, fun j hj hno => ?_,
      fun c hc => (hr.others.data c (h.sb.symm ▸ hc)).trans (h.data c hc)⟩
    · obtain rfl | hne := eq_or_ne j k
      · exact hfree
      · rw [hdisk j (by omega) hne]
        exact h.freed j hj0 (by omega) hoj
    · have hne : j ≠ k := by
        rintro rfl
        exact hno ⟨hpos, Nat.lt_succ_self _, horphan.1 ho⟩
      obtain ⟨h₁, h₂⟩ := h.disk j hj fun hc => hno ⟨hc.1, Nat.lt_succ_of_lt hc.2.1, hc.2.2⟩
      rw [hdisk j hj hne, hr.file, update_of_ne hne]
      exact ⟨h₁, h₂⟩
  · refine ⟨h.ok, h.idle, h.sb, fun j hj0 hjk hoj => ?_, fun j hj hno' => h.disk j hj fun hc => hno' ⟨hc.1,
      Nat.lt_succ_of_lt hc.2.1, hc.2.2⟩, h.data⟩
    obtain rfl | hne := eq_or_ne j k
    · exact absurd (horphan.2 hoj) hno
    · exact h.freed j hj0 (by omega) hoj

theorem ireclaim_spec (h : Ok s) (hidle : s.Idle) (hroom : s.sb.nbitmap + 1 < logBlocks) :
    wp ireclaim (fun _ t => Reclaiming s.sb.ninodes s t) (fun _ _ => False) s := by
  simp only [ireclaim, wp_bind, wp_get]
  refine wp_post (wp_forN (fun k t => Reclaiming k s t) (s.sb.ninodes - 1) 1 ?_ ?_) fun _ t ht => ?_
  · intro k t hk hlt ht
    refine wp_post (ireclaimOne_spec ht.ok ht.idle (by rw [ht.sb]; omega) (by omega) (by rw [ht.sb]; exact hroom)) ?_
    exact fun _ u hu => ht.step (by omega) (by omega) hu
  · exact ⟨h, hidle, rfl, fun j hj hj' => absurd (Nat.lt_one_iff.1 hj') hj, fun _ _ _ => ⟨rfl, rfl⟩, fun _ _ => rfl⟩
  · by_cases hz : s.sb.ninodes = 0
    · refine ⟨ht.ok, ht.idle, ht.sb, fun j _ hj => ?_, fun j hj => ?_, ht.data⟩ <;> omega
    · rwa [Nat.add_sub_cancel' (Nat.pos_of_ne_zero hz)] at ht

/-- Exactly the blocks of the orphans become free. -/
theorem Reclaiming.used (h : Reclaiming s.sb.ninodes s t) (hs : Ok s) (hidle : s.Idle) (hb : b < s.sb.size) :
    t.used b = true ↔ s.used b = true ∧
      ¬ ∃ i, i ≠ 0 ∧ i < s.sb.ninodes ∧ s.Orphan i ∧ b ≠ 0 ∧ b ∈ slots s.blk (s.disk i) := by
  have hns : ∀ j, s.node j = s.disk j := fun j => hidle.node hs
  have hnt : ∀ j, t.node j = t.disk j := fun j => h.idle.node h.ok
  by_cases hd : s.sb.IsData b
  · have hb0 : b ≠ 0 := by
      have := hs.layout.dataStart_pos
      have := hd.1
      omega
    -- the slots of an inode that is no orphan
    have hslots : ∀ j, j < s.sb.ninodes → (s.node j).type ≠ 0 → ¬ (j ≠ 0 ∧ j < s.sb.ninodes ∧ s.Orphan j) →
        t.node j = s.node j ∧ slots t.blk (s.node j) = slots s.blk (s.node j) := by
      intro j hj ht hno
      rw [hnt, (h.disk j hj hno).1, ← hns]
      exact ⟨rfl, slots_congr fun x _ => hs.blocks.tbl h.data hj ht x⟩
    rw [h.ok.blocks.used_iff hb0 (by rw [h.sb]; exact hd), hs.blocks.used_iff hb0 hd]
    constructor
    · rintro ⟨j, hj, htype, hmem⟩
      rw [h.sb] at hj
      have hno : ¬ (j ≠ 0 ∧ j < s.sb.ninodes ∧ s.Orphan j) := fun hc => htype (by rw [hnt, h.freed j hc.1 hj hc.2.2])
      have hnode : t.node j = s.node j := by rw [hnt, (h.disk j hj hno).1, ← hns]
      rw [hnode] at htype hmem
      rw [(hslots j hj htype hno).2] at hmem
      refine ⟨⟨j, hj, htype, hmem⟩, ?_⟩
      rintro ⟨i, hi0, hi, ho, _, hmem'⟩
      rw [← hns] at hmem'
      have := (hs.blocks.of_mem hj htype hb0 hmem).2.2.2.2 i hi (by rw [hns]; exact ho.1) hmem'
      subst this
      exact hno ⟨hi0, hi, ho⟩
    · rintro ⟨⟨j, hj, htype, hmem⟩, hnot⟩
      obtain ⟨hnode, hsame⟩ := hslots j hj htype fun hc => hnot ⟨j, hc.1, hj, hc.2.2, hb0, by rw [← hns]; exact hmem⟩
      exact ⟨j, by rw [h.sb]; exact hj, by rw [hnode]; exact htype, by rw [hnode, hsame]; exact hmem⟩
  · have hlt : b < s.sb.dataStart := Nat.lt_of_not_le fun hge => hd ⟨hge, hb⟩
    have hused := hs.blocks.metadata b hlt
    have hused' := h.ok.blocks.metadata b (by rw [h.sb]; exact hlt)
    refine iff_of_true hused' ⟨hused, ?_⟩
    rintro ⟨i, _, hi, ho, hb0, hmem⟩
    rw [← hns] at hmem
    exact hd (hs.blocks.isData hi (by rw [hns]; exact ho.1) hb0 hmem)

/-! ## A crash with an open file -/

/-- The only open file loses its links, and the machine stops. -/
theorem exists_orphan {f : FileView} (h : Ok s) (he : Entry s e i f) (htrans : s.trans = true) (hlog : s.logged = [])
    (hother : ∀ e', e' ≠ e → (s.inode e').ref = 0 ∧ (s.inode e').locked = false) :
    ∃ t : Fs, Ok t ∧ t.Idle ∧ t.sb = s.sb ∧ t.Orphan i := by
  have h' : Inv (fun e' => e' = e) [] s := h.mono fun _ hx => hx.elim
  have htype := he.type h.table
  have hw := h.table.wf e i he.at_ he.valid
  obtain ⟨h₁, _, _⟩ := h'.setFields (d := { (s.inode e).d with nlink := 0 }) he.at_ he.valid rfl htype rfl
    ⟨hw.type, hw.major, hw.minor, Nat.two_pow_pos 16, hw.size, hw.addrs, hw.high⟩ htype (he.noHole h)
  have hat : (s.setD e { (s.inode e).d with nlink := 0 }).At e i := ((setD_keep All).entry e i trivial he.at_).1
  have hv : ((s.setD e { (s.inode e).d with nlink := 0 }).inode e).valid = true := by
    rw [setD_inode]
    exact he.valid
  have hlog' : (s.setD e { (s.inode e).d with nlink := 0 }).logged = [] := hlog
  obtain ⟨_, u, _, hu⟩ := wp_returns (iupdate_spec h₁.layout h₁.table hat hv htrans fun t ht hlen => by
    have hle := ht.length_le (by rw [hlog']; exact List.nodup_nil)
    rw [hlog'] at hle
    exact absurd (Nat.le_trans hlen hle) (by decide))
  have hatu : u.At e i := (at_iff hu.inode).2 hat
  have h₂ := hu.inv (Y := fun e' => e' = e) h₁ hat (Or.inl rfl) fun _ _ hX => hX
  have hdisk : u.disk i = { (s.inode e).d with nlink := 0 } := by rw [hu.disk, update_self, setD_inode]
  obtain ⟨h₃, _⟩ := h₂.dropEntry (Y := fun _ => False) (x := { u.inode e with ref := 0, locked := false }) hatu rfl
    (fun _ => by rw [hdisk, hu.inode, setD_inode]) fun e' hne hX => hne hX
  refine ⟨_, h₃, fun e' => ?_, hu.sb, ?_⟩
  · obtain rfl | hne := eq_or_ne e' e
    · rw [setInode_self]
      exact ⟨rfl, rfl⟩
    · rw [setInode_ne hne, hu.inode, Fs.setD, setInode_ne hne]
      exact hother e' hne
  · show (u.disk i).type ≠ 0 ∧ (u.disk i).nlink = 0
    rw [hdisk]
    exact ⟨htype, rfl⟩

end Xv6.Fs
