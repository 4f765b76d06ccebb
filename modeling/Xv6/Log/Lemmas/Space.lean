import Mathlib.Algebra.Order.Ring.Nat
import Xv6.Log.Lemmas.Group

/-!
# The space in the log, and the buffers for a commit

`begin_op` reserves `MAXOPBLOCKS` blocks for every operation, so a block that is new to the header
always fits. A commit needs one buffer that the log does not pin.
-/

namespace Xv6.Log

open Lib

variable {c c' : Conc} {s t : Sys} {p q b i : Nat} {a : Act} {P : List Nat} {f g : Phase → Nat}

/-! ## The reservation -/

/-- What the header holds and the running operations may still add fits in the log. -/
structure Budget (c : Conc) : Prop where
  space : c.sys.log.lh.length + c.total Phase.reserve ≤ logBlocks
  bound : ∀ (p : Nat) (bs : List Nat), c.phase[p]? = some (.op bs) → bs.length ≤ maxOpBlocks

theorem Conc.total_le_mul {k : Nat} (hfg : ∀ x, f x ≤ k * g x) (c : Conc) : c.total f ≤ k * c.total g := by
  unfold Conc.total
  induction c.phase with
  | nil => simp
  | cons x l ih =>
      have := hfg x
      simp only [List.map_cons, List.sum_cons, Nat.mul_add]
      omega

theorem Phase.reserve_le (x : Phase) : x.reserve ≤ maxOpBlocks * x.ops := by
  cases x with
  | op bs => simp [Phase.reserve, Phase.ops]
  | _ => simp [Phase.reserve, Phase.ops]

theorem reserve_insert_le (b : Nat) (bs : List Nat) :
    (Phase.op (bs.insert b)).reserve ≤ (Phase.op bs).reserve := by
  have := List.length_le_length_insert (l := bs) (a := b)
  simp only [Phase.reserve]
  omega

theorem Budget.bound_set {x : Phase} {bs' : List Nat} (h : Budget c) (hp : c.phase[p]? = some x)
    (hbs : bs'.length ≤ maxOpBlocks) (q : Nat) (bs : List Nat)
    (hq : (c.phase.set p (.op bs'))[q]? = some (.op bs)) : bs.length ≤ maxOpBlocks := by
  rcases (phase_set hp).mp hq with ⟨_, he⟩ | ⟨_, hq⟩
  · cases he
    exact hbs
  · exact h.bound q bs hq

theorem Budget.release {x y : Phase} (h : Budget c) (hp : c.phase[p]? = some x) (hy : y.ops = 0)
    (hlh : c'.sys.log.lh.length ≤ c.sys.log.lh.length) (hphase : c'.phase = c.phase.set p y) :
    Budget c' := by
  have hr := Conc.total_set hp hphase Phase.reserve
  have hy' := Phase.reserve_le y
  have hs := h.space
  rw [hy] at hy'
  refine ⟨by omega, fun q bs hq => ?_⟩
  rw [hphase] at hq
  rcases (phase_set hp).mp hq with ⟨_, he⟩ | ⟨_, hq⟩
  · subst he
    cases hy
  · exact h.bound q bs hq

theorem Budget.effect (h : Budget c) (hi : Inv c) (hok : OpBound c a) (he : Effect c a c') : Budget c' := by
  have hs := h.space
  cases he with
  | beginOp p hp hfree hroom hlog hhist hphase hcache =>
      have hr := Conc.total_set hp hphase Phase.reserve
      have hle := c.total_le_mul Phase.reserve_le
      have ho := hi.ops
      simp only [Phase.reserve, List.length_nil] at hr
      refine ⟨?_, ?_⟩
      · rw [hlog]
        simp only [ho, logBlocks, maxOpBlocks] at hroom hle hr ⊢
        push_cast at hroom
        omega
      · rw [hphase]
        exact h.bound_set hp (by simp)
  | buffer hlog hhist hphase hcache =>
      refine ⟨?_, by rw [hphase]; exact h.bound⟩
      rw [hlog, Conc.total, hphase]
      exact hs
  | absorb p i b bs ha hb hp hmem hlog hhist hphase hcache =>
      have hr := Conc.total_set hp hphase Phase.reserve
      have hle := reserve_insert_le b bs
      subst ha hb
      refine ⟨?_, ?_⟩
      · rw [hlog]
        omega
      · rw [hphase]
        exact h.bound_set hp (hok bs hp)
  | logNew p i b bs ha hb hp hmem hlog hhist hphase hcache =>
      have hr := Conc.total_set hp hphase Phase.reserve
      subst ha hb
      -- the block is new to the operation too, so the operation uses one block of its reserve
      have hnot : (c.sys.buf i).blockno ∉ bs := fun hb => hmem ((hi.blocks p bs hp).2 _ hb)
      have hlen := hok bs hp
      rw [List.insert_of_not_mem hnot] at hr hlen hphase
      simp only [Phase.reserve, List.length_cons] at hr hlen
      refine ⟨?_, ?_⟩
      · rw [hlog]
        simp only [List.length_append, List.length_singleton]
        omega
      · rw [hphase]
        exact h.bound_set hp (by simpa using hlen)
  | endOp p bs last hp hlast hlog hhist hphase hcache =>
      exact h.release hp (by cases last <;> rfl) (by rw [hlog]) hphase
  | move p pc pc' hp hinst hpast hok hlog hhist hphase hcache =>
      exact h.release hp rfl (by rw [hlog]) hphase
  | head p hp hlog hhist hphase hcache => exact h.release hp rfl (by rw [hlog]) hphase
  | install p tail lbuf hp hlog hhist hphase hcache => exact h.release hp rfl (by rw [hlog]) hphase
  | clear p tail hp htail hlog hhist hphase hcache => exact h.release hp rfl (by rw [hlog]; simp) hphase
  | finish p hp hlog hhist hphase hcache => exact h.release hp rfl (by rw [hlog]) hphase

theorem budget_boot (d : Nat → Block) (start n : Nat) : Budget (boot d start n) := by
  refine ⟨?_, fun p bs hp => ?_⟩
  · simp [boot, binit, Conc.total, Phase.reserve]
  · cases List.eq_of_mem_replicate (List.mem_of_getElem? hp)

theorem Budget.room_of_new {bs : List Nat} (h : Budget c) (hi : Inv c) (hp : c.phase[p]? = some (.op bs))
    (hok : (bs.insert b).length ≤ maxOpBlocks) (hb : b ∉ c.sys.log.lh) :
    c.sys.log.lh.length < logBlocks := by
  have hnot : b ∉ bs := fun hb' => hb ((hi.blocks p bs hp).2 _ hb')
  have hr := Conc.le_total hp Phase.reserve
  have hs := h.space
  rw [List.insert_of_not_mem hnot] at hok
  simp only [Phase.reserve, List.length_cons] at hr hok
  omega

/-- `log_write` finds the header full exactly when it is called for a block that is in a full header. -/
theorem step_fits_iff (hi : Inv c) (hb : Budget c) (ha : OpBound c a) :
    step c a ≠ some (.error .tooBig) ↔ AbsorbsInRoom c a := by
  constructor
  · intro hne
    cases a with
    | logWrite p i =>
        intro bs hp hh _
        by_contra hfull
        have hw : wp (logWrite p i) (fun _ _ => False) (fun e _ => e = .panic .tooBig) c.sys := by
          simp only [logWrite, wp_bind, wp_get]
          rw [if_pos (by omega)]
          rfl
        obtain ⟨e, t, ht, rfl⟩ := wp_stops hw
        exact hne (by simp only [step, hp, hh, if_true, Conc.exec, ht])
    | _ => trivial
  · intro hroom hs
    rcases step_error hi hs with he | ⟨p, i, rfl, _, hfull⟩
    · simp [BioStop] at he
    · simp only [step] at hs
      split at hs
      · rename_i bs hp
        split at hs
        · rename_i hh
          by_cases hmem : (c.sys.buf i).blockno ∈ c.sys.log.lh
          · exact absurd (hroom bs hp hh hmem) (by omega)
          · exact absurd (hb.room_of_new hi hp (ha bs hp) hmem) (by omega)
        · cases hs
      · cases hs

theorem run_fits_iff_of_budget (as : List Act) (hi : Inv c) (hb : Budget c) (h : RunOk step OpBound as c) :
    run step as c ≠ some (.error .tooBig) ↔ RunOk step AbsorbsInRoom as c := by
  induction as generalizing c with
  | nil => simp [run, RunOk]
  | cons a as ih =>
      have hstep := step_fits_iff hi hb h.1
      cases hs : step c a with
      | none => simp_all [run, RunOk]
      | some r =>
          cases r with
          | error e => simp_all [run, RunOk]
          | ok c' =>
              have he := step_effect hi hs
              have := ih (hi.effect he) (hb.effect hi h.1 he) (h.2 c' hs)
              simp_all [run, RunOk]

/-! ## The buffers for a commit -/

/-- Nothing is locked: the blocks `P` are pinned and nothing else is referenced. -/
structure Avail (P : List Nat) (s : Sys) : Prop where
  pin : PinOk rootDev P (fun _ => 0) s
  free : ∀ i, (s.buf i).lock = none
  lru : s.lru.length = nbuf

namespace Avail

theorem refcnt (h : Avail P s) (hi : i ∈ s.lru) : (s.buf i).refcnt = (s.buf i).pins rootDev P := by
  have := h.pin.refs i hi
  simpa [Buf.holders, h.free i] using this

/-- Fewer pinned blocks than buffers leave a buffer free. -/
theorem exists_unused (h : Avail P s) (hlt : P.length < nbuf) : ∃ i ∈ s.lru, (s.buf i).refcnt = 0 := by
  by_contra hall
  have hpin : ∀ i ∈ s.lru, s.Has rootDev (s.buf i).blockno i ∧ (s.buf i).blockno ∈ P := by
    intro i hi
    have hr := h.refcnt hi
    by_cases hd : (s.buf i).dev = rootDev ∧ (s.buf i).blockno ∈ P
    · exact ⟨⟨hi, hd.1, rfl⟩, hd.2⟩
    · rw [Buf.pins, if_neg hd] at hr
      exact absurd ⟨i, hi, hr⟩ hall
  -- a block has one buffer, so as many blocks are pinned as there are buffers
  have hnd : (s.lru.map fun i => (s.buf i).blockno).Nodup := by
    refine List.Nodup.map_on ?_ h.pin.nodup
    intro i hi j hj hij
    exact h.pin.uniq _ i j (hpin i hi).1 (hij ▸ (hpin j hj).1)
  have hsub : (s.lru.map fun i => (s.buf i).blockno) ⊆ P := by
    intro b hb
    obtain ⟨i, hi, rfl⟩ := List.mem_map.mp hb
    exact (hpin i hi).2
  have hlen := (List.subperm_of_subset hnd hsub).length_le
  rw [List.length_map, h.lru] at hlen
  omega

/-- As many pinned blocks as buffers leave none: every buffer holds a pinned block. -/
theorem pinned_of_full (h : Avail P s) (hnd : P.Nodup) (hfull : nbuf ≤ P.length) (hi : i ∈ s.lru) :
    (s.buf i).dev = rootDev ∧ (s.buf i).blockno ∈ P := by
  let l := s.lru.filter fun i => decide ((s.buf i).dev = rootDev ∧ (s.buf i).blockno ∈ P)
  have hsub : P ⊆ l.map fun i => (s.buf i).blockno := by
    intro b hb
    obtain ⟨j, hj, _⟩ := h.pin.pinned b hb
    refine List.mem_map.mpr ⟨j, List.mem_filter.mpr ⟨hj.1, ?_⟩, hj.2.2⟩
    simp [hj.2.1, hj.2.2, hb]
  have hlen := (List.subperm_of_subset hnd hsub).length_le
  have hle := List.length_filter_le (fun i => decide ((s.buf i).dev = rootDev ∧ (s.buf i).blockno ∈ P)) s.lru
  rw [List.length_map] at hlen
  have hlru := h.lru
  have heq : l.length = s.lru.length := by
    have : l.length ≤ s.lru.length := hle
    omega
  have := List.length_filter_eq_length_iff.mp heq i hi
  simpa using this

theorem wrote {Q : List Nat} {d : Block} (h : Avail P s) (hpin : PinOk rootDev Q (fun _ => 0) t) {P' : List Nat}
    (hw : Wrote rootDev P' b d s t) : Avail Q t :=
  ⟨hpin, fun i => (hw.lock i).trans (h.free i), hw.lru.length_eq.trans h.lru⟩

theorem not_stuck {e : Stop} (h : Avail P s) (hlt : P.length < nbuf) : ¬ Stuck s rootDev b e := by
  rintro (⟨_, i, _, hl⟩ | ⟨_, hr, _⟩)
  · exact hl (h.free i)
  · obtain ⟨i, hi, h₀⟩ := h.exists_unused hlt
    exact hr i hi h₀

theorem not_stuck₂ {e : Stop} {d : Nat} (h : Avail P s) (hlt : P.length < nbuf) (hd : d ∈ P) (hne : b ≠ d) :
    ¬ Stuck₂ s rootDev b d e := by
  intro hst
  rcases hst.of_pinned h.pin hd with ⟨_, hbd | ⟨_, i, _, hl⟩⟩ | ⟨_, hr, _⟩
  · exact hne hbd
  · exact hl (h.free i)
  · obtain ⟨i, hi, h₀⟩ := h.exists_unused hlt
    exact hr i hi h₀

end Avail

theorem logBlock_ne_home {start m : Nat} {lh : List Nat} (hout : ∀ b ∈ lh, ¬ InLog start b)
    (hlt : lh.length < nbuf) (hm : m < lh.length) : start + m + 1 ≠ lh.getD m 0 := by
  intro heq
  refine hout _ (getD_mem hm) ?_
  rw [← heq]
  have : nbuf = logBlocks := rfl
  simp only [InLog]
  omega

theorem writeLog_returns (h : Avail s.log.lh s) (hdev : s.log.dev = rootDev)
    (hout : ∀ b ∈ s.log.lh, ¬ InLog s.log.start b) (hlt : s.log.lh.length < nbuf) :
    wp (writeLog p) (fun _ t => Avail s.log.lh t ∧ t.log = s.log) (fun _ _ => False) s := by
  simp only [writeLog, wp_bind, wp_get]
  refine wp_forN (f := writeLogBody p) (fun _ t => Avail s.log.lh t ∧ t.log = s.log) _ 0 ?_ ⟨h, rfl⟩
  rintro m t _ hm ⟨ht, hlog⟩
  rw [Nat.zero_add] at hm
  have hmem := getD_mem hm
  have hne := logBlock_ne_home hout hlt hm
  refine wp_mono (writeLogBody_spec ht.pin (by rw [hlog, hdev]) hmem (by rw [hlog]) (by rw [hlog])) ?_ ?_
  · rintro _ u ⟨hpin, _, hw⟩
    exact ⟨ht.wrote hpin hw, hw.log.trans hlog⟩
  · rintro e u ⟨_, hst⟩
    exact ht.not_stuck₂ hlt hmem hne hst

theorem writeHead_returns (h : Avail P s) (hdev : s.log.dev = rootDev) (hlt : P.length < nbuf) :
    wp (writeHead p) (fun _ t => Avail P t ∧ t.log = s.log) (fun _ _ => False) s := by
  refine wp_mono (writeHead_spec h.pin hdev rfl) ?_ ?_
  · rintro _ t ⟨hpin, _, hw⟩
    exact ⟨h.wrote hpin hw, hw.log⟩
  · rintro e t ⟨_, hst⟩
    exact h.not_stuck hlt hst

theorem installTrans_returns (h : Avail s.log.lh s) (hdev : s.log.dev = rootDev) (hnd : s.log.lh.Nodup)
    (hout : ∀ b ∈ s.log.lh, ¬ InLog s.log.start b) (hlt : s.log.lh.length < nbuf) :
    wp (installTrans p false) (fun _ t => Avail [] t ∧ t.log = s.log) (fun _ _ => False) s := by
  simp only [installTrans, wp_bind, wp_get]
  have := wp_forN (f := installBody p false) (E := fun _ _ => False)
    (fun m t => Avail (s.log.lh.drop m) t ∧ t.log = s.log) s.log.lh.length 0 ?_ ⟨h, rfl⟩
  · simpa using this
  · rintro m t _ hm ⟨ht, hlog⟩
    rw [Nat.zero_add] at hm
    have hne := logBlock_ne_home hout hlt hm
    rw [drop_eq_getD_cons hm] at ht
    have hlen : (s.log.lh.getD m 0 :: s.log.lh.drop (m + 1)).length < nbuf := by
      rw [← drop_eq_getD_cons hm, List.length_drop]
      omega
    refine wp_mono (installBody_spec ht.pin (by rw [hlog, hdev]) (getD_notMem_drop hnd hm) (by rw [hlog])
      (by rw [hlog])) ?_ ?_
    · rintro _ u ⟨hpin, _, hw⟩
      exact ⟨ht.wrote hpin hw, hw.log.trans hlog⟩
    · rintro e u ⟨_, hst⟩
      exact ht.not_stuck₂ hlen (by simp) hne hst

/-- With a buffer to spare `commit` returns. -/
theorem commit_returns (h : Avail s.log.lh s) (hdev : s.log.dev = rootDev) (hnd : s.log.lh.Nodup)
    (hout : ∀ b ∈ s.log.lh, ¬ InLog s.log.start b) (hlt : s.log.lh.length < nbuf) :
    wp (commit p) (fun _ _ => True) (fun _ _ => False) s := by
  simp only [commit, wp_bind, wp_get]
  apply wp_ite
  · intro _
    simp only [wp_bind]
    refine wp_post (writeLog_returns h hdev hout hlt) ?_
    rintro _ t ⟨ht, hlog⟩
    simp only [recordCommit, wp_modify]
    have ht' : Avail s.log.lh (t.record (.commit t.log.lh)) := ⟨ht.pin.congr rfl rfl, ht.free, ht.lru⟩
    refine wp_post (writeHead_returns ht' (by rw [Sys.record, hlog, hdev]) hlt) ?_
    rintro _ u ⟨hu, hlog₁⟩
    have hlogu : u.log = s.log := hlog₁.trans hlog
    refine wp_post (installTrans_returns (hlogu ▸ hu) (hlogu ▸ hdev) (hlogu ▸ hnd) (hlogu ▸ hout)
      (hlogu ▸ hlt)) ?_
    rintro _ v ⟨hv, hlog₂⟩
    simp only [clearHead, wp_modify]
    have hv' : Avail [] (v.setLh []) := ⟨hv.pin.setLh [], hv.free, hv.lru⟩
    refine wp_post (writeHead_returns hv' ?_ (by decide)) fun _ _ _ => trivial
    simp [Sys.setLh, hlog₂, hlogu, hdev]
  · intro _
    trivial

/-- With every buffer pinned the first `bread` of `commit` finds none. -/
theorem commit_panics (h : Avail s.log.lh s) (hdev : s.log.dev = rootDev) (hnd : s.log.lh.Nodup)
    (hout : ∀ b ∈ s.log.lh, ¬ InLog s.log.start b) (hfull : nbuf ≤ s.log.lh.length) :
    wp (commit p) (fun _ _ => False) (fun e _ => e = .panic .bget) s := by
  have hno : ∀ i, ¬ s.Has rootDev (s.log.start + 0 + 1) i := by
    intro i hi
    have := (h.pinned_of_full hnd hfull hi.1).2
    rw [hi.2.2] at this
    refine hout _ this ?_
    simp [InLog, logBlocks, maxOpBlocks]
  have hpos : ∃ k, s.log.lh.length = k + 1 := ⟨s.log.lh.length - 1, by simp [nbuf, maxOpBlocks] at hfull; omega⟩
  obtain ⟨k, hk⟩ := hpos
  have hgt : s.log.lh.length > 0 := by omega
  simp only [commit, wp_bind, wp_get, if_pos hgt]
  simp only [writeLog, wp_bind, wp_get, hk, forN, writeLogBody, hdev]
  apply wp_bread h.pin.cacheOk
  · intro i hi _
    rcases hi with hi | ⟨hi, _, h₀⟩
    · exact (hno i hi).elim
    · have hp := h.pinned_of_full hnd hfull hi
      have hr := h.refcnt hi
      rw [Buf.pins, if_pos hp] at hr
      omega
  · intro i hi _
    exact (hno i hi).elim
  · intro _ _
    rfl

/-! ## The blocks that are logged -/

/-- No block of the log area is in the header. -/
def HomesOut (c : Conc) : Prop := ∀ b ∈ c.sys.log.lh, ¬ InLog c.sys.log.start b

theorem HomesOut.effect (h : HomesOut c) (hok : OutOfLog c a) (he : Effect c a c') : HomesOut c' := by
  cases he with
  | logNew p i b bs ha hb hp hmem hlog hhist hphase hcache =>
      subst ha hb
      intro b' hb'
      rw [hlog] at hb' ⊢
      rcases List.mem_append.mp hb' with hb' | hb'
      · exact h b' hb'
      · rw [List.mem_singleton.mp hb']
        exact hok
  | clear p tail hp htail hlog hhist hphase hcache =>
      intro b' hb'
      rw [hlog] at hb'
      cases hb'
  | beginOp p hp hfree hroom hlog | buffer hlog | absorb p i b bs ha hb hp hmem hlog
  | endOp p bs last hp hlast hlog | move p pc pc' hp hinst hpast hok' hlog | head p hp hlog
  | install p tail lbuf hp hlog | finish p hp hlog =>
      unfold HomesOut
      rw [hlog]
      exact h

theorem clientOk_of_reach {d : Nat → Block} {start n : Nat} (h : Reach step ClientOk (boot d start n) c) :
    (Inv c ∧ Budget c) ∧ HomesOut c := by
  refine h.inv (I := fun c => (Inv c ∧ Budget c) ∧ HomesOut c)
    ⟨⟨inv_boot d start n, budget_boot d start n⟩, fun b hb => by cases hb⟩ ?_
  rintro c a c' ⟨⟨hi, hb⟩, ho⟩ ⟨hbound, hout⟩ hs
  have he := step_effect hi hs
  exact ⟨⟨hi.effect he, hb.effect hi hbound he⟩, ho.effect hout he⟩

/-- When a commit starts and only its pins refer to buffers, nothing is locked. -/
theorem Inv.avail_of_onlyPins (h : Inv c) (hp : c.phase[p]? = some (.commit .start)) (ho : OnlyPins c.sys) :
    Avail c.sys.log.lh c.sys := by
  have hpin : c.pinned = c.sys.log.lh := h.pinned_of_commit hp
  refine ⟨hpin ▸ h.cache.pin, fun i => ?_, by rw [h.cache.lru.length_eq, List.length_range]⟩
  cases hl : (c.sys.buf i).lock with
  | none => rfl
  | some q =>
      have hi := (h.cache.held i (by simp [hl])).1
      have hr := h.cache.pin.refs i hi
      rw [ho i hi, h.dev, hpin] at hr
      simp only [Buf.holders, hl, Option.isSome_some, if_true, Buf.pins] at hr
      omega

end Xv6.Log
