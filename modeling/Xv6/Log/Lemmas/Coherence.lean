import Xv6.Log.Coherence
import Xv6.Log.Lemmas.Inv

/-!
# The contents of the buffers

`DataOk P` holds between any two steps: a buffer that no client has touched has the current contents
of its block, and the disk has them too unless the block is one of the pinned blocks `P`. While a
process commits, the log on the disk has the current contents of the blocks copied so far.
-/

namespace Xv6.Log

open Lib Function

variable {s t : Sys} {p b i j : Nat} {P : List Nat} {given : Nat → Option Block} {touched : Nat → Bool}

structure DataOk (P : List Nat) (given : Nat → Option Block) (touched : Nat → Bool) (s : Sys) : Prop where
  data : ∀ b i, s.Has rootDev b i → (s.buf i).valid = true → touched i = false →
    (s.buf i).data = current given s.disk b
  clean : ∀ b, b ∉ P → current given s.disk b = s.disk b
  held : ∀ i, touched i = true → (s.buf i).lock.isSome

/-! ## One operation of the cache -/

namespace DataOk

theorem congr (h : DataOk P given touched s) (hlru : ∀ i, i ∈ t.lru ↔ i ∈ s.lru)
    (hbuf : ∀ i, (t.buf i).dev = (s.buf i).dev ∧ (t.buf i).blockno = (s.buf i).blockno ∧
      (t.buf i).valid = (s.buf i).valid ∧ (t.buf i).data = (s.buf i).data ∧ (t.buf i).lock = (s.buf i).lock)
    (hdisk : t.disk = s.disk) : DataOk P given touched t := by
  refine ⟨fun b i hi hv ht => ?_, fun b hb => ?_, fun i hi => ?_⟩
  · obtain ⟨h₁, h₂, h₃, h₄, _⟩ := hbuf i
    rw [h₄, hdisk]
    exact h.data b i ⟨(hlru i).1 hi.1, h₁ ▸ hi.2.1, h₂ ▸ hi.2.2⟩ (h₃ ▸ hv) ht
  · rw [hdisk]
    exact h.clean b hb
  · rw [(hbuf i).2.2.2.2]
    exact h.held i hi

/-- What `bread` returns of a block that nobody holds. -/
theorem view_eq (h : DataOk P given touched s) (hc : CacheInv rootDev P s)
    (hfree : ∀ i, s.Has rootDev b i → (s.buf i).lock = none) : s.view rootDev b = current given s.disk b := by
  by_cases hex : ∃ i, s.Has rootDev b i
  · obtain ⟨i, hi⟩ := hex
    have ht : touched i = false := by
      by_contra htouched
      have hheld := h.held i (by simpa using htouched)
      rw [hfree i hi] at hheld
      cases hheld
    rw [hc.pin.cacheOk.view_has hi]
    cases hv : (s.buf i).valid with
    | true => exact h.data b i hi hv ht
    | false =>
        refine (h.clean b fun hb => ?_).symm
        obtain ⟨j, hj, hjv⟩ := hc.pin.pinned b hb
        rw [hc.pin.uniq b j i hj hi, hv] at hjv
        cases hjv
  · have hno : ∀ i, ¬ s.Has rootDev b i := fun i hi => hex ⟨i, hi⟩
    rw [view_none hno]
    refine (h.clean b fun hb => ?_).symm
    obtain ⟨j, hj, _⟩ := hc.pin.pinned b hb
    exact hno j hj

theorem got (h : DataOk P given touched s) (hc : CacheInv rootDev P s) (hi : s.Picks rootDev b i)
    (hl : (s.buf i).lock = none) :
    DataOk P given touched (s.got p rootDev b i) ∧
      ((s.got p rootDev b i).buf i).data = current given s.disk b := by
  have hview : s.view rootDev b = current given s.disk b := by
    refine h.view_eq hc fun j hj => ?_
    rcases hi with hi | ⟨_, hno, _⟩
    · rw [hc.pin.uniq b j i hj hi]
      exact hl
    · exact absurd hj (hno j)
  have hself : ((s.got p rootDev b i).buf i) = ⟨true, rootDev, b, some p, (s.buf i).refcnt + 1, s.view rootDev b⟩ := by
    simp [Sys.got]
  have hne : ∀ j, j ≠ i → (s.got p rootDev b i).buf j = s.buf j := fun j hj => by simp [Sys.got, hj]
  refine ⟨⟨fun c j hj hv ht => ?_, h.clean, fun j hj => ?_⟩, ?_⟩
  · obtain rfl | hji := eq_or_ne j i
    · have hcb : b = c := by simpa only [Sys.Has, hself] using hj.2.2
      rw [hself, ← hcb]
      exact hview
    · rw [hne j hji] at hv ⊢
      exact h.data c j ⟨hj.1, by simpa only [hne j hji] using hj.2⟩ hv ht
  · obtain rfl | hji := eq_or_ne j i
    · rw [hself]
      rfl
    · rw [hne j hji]
      exact h.held j hj
  · rw [hself]
    exact hview

theorem released {l : List Nat} (h : DataOk P given touched s) (hl : l.Perm s.lru) (ht : touched i = false) :
    DataOk P given touched (s.released i l) := by
  have hself : (s.released i l).buf i = { s.buf i with lock := none, refcnt := (s.buf i).refcnt - 1 } := by
    simp [Sys.released]
  have hne : ∀ j, j ≠ i → (s.released i l).buf j = s.buf j := fun j hj => by simp [Sys.released, hj]
  refine ⟨fun c j hj hv htj => ?_, h.clean, fun j hj => ?_⟩
  · have hmem : j ∈ s.lru := hl.mem_iff.1 hj.1
    obtain rfl | hji := eq_or_ne j i
    · rw [hself] at hv ⊢
      exact h.data c j ⟨hmem, by simpa only [hself] using hj.2⟩ hv htj
    · rw [hne j hji] at hv ⊢
      exact h.data c j ⟨hmem, by simpa only [hne j hji] using hj.2⟩ hv htj
  · obtain rfl | hji := eq_or_ne j i
    · rw [ht] at hj
      cases hj
    · rw [hne j hji]
      exact h.held j hj

theorem touch {d : Block} (h : DataOk P given touched s) (hl : (s.buf i).lock.isSome) :
    DataOk P given (update touched i true) (s.withData i d) := by
  refine ⟨fun c j hj hv ht => ?_, h.clean, fun j hj => ?_⟩
  · obtain rfl | hji := eq_or_ne j i
    · rw [update_self] at ht
      cases ht
    · rw [update_of_ne hji] at ht
      have hbuf : (s.withData i d).buf j = s.buf j := by simp [Sys.withData, hji]
      rw [hbuf] at hv ⊢
      exact h.data c j ((PinOk.has_withData c j).1 hj) hv ht
  · obtain rfl | hji := eq_or_ne j i
    · simpa [Sys.withData] using hl
    · rw [update_of_ne hji] at hj
      simpa [Sys.withData, hji] using h.held j hj

/-- `log_write` makes the data of a buffer the current contents of its block, which is pinned. -/
theorem give {P' : List Nat} (h : DataOk P given touched s) (hc : CacheInv rootDev P s) (hi : s.Has rootDev b i)
    (hP : ∀ c, c ∈ P ∨ c = b → c ∈ P') :
    DataOk P' (update given b (some (s.buf i).data)) (update touched i false) s := by
  refine ⟨fun c j hj hv ht => ?_, fun c hcP => ?_, fun j hj => ?_⟩
  · obtain rfl | hcb := eq_or_ne c b
    · rw [hc.pin.uniq c j i hj hi, current, update_self]
      rfl
    · have hji : j ≠ i := by
        rintro rfl
        exact hcb (hj.2.2.symm.trans hi.2.2)
      rw [update_of_ne hji] at ht
      rw [current, update_of_ne hcb]
      exact h.data c j hj hv ht
  · have hcb : c ≠ b := by
      rintro rfl
      exact hcP (hP c (Or.inr rfl))
    rw [current, update_of_ne hcb]
    exact h.clean c fun hm => hcP (hP c (Or.inl hm))
  · obtain rfl | hji := eq_or_ne j i
    · rw [update_self] at hj
      cases hj
    · rw [update_of_ne hji] at hj
      exact h.held j hj

/-- The log's own code changes the data of a buffer and writes it to the device. -/
theorem wrote {P' : List Nat} {d : Block} (h : DataOk P given touched s) (hc : CacheInv rootDev P s)
    (hi : s.Has rootDev b i) (hd : given b = none ∨ given b = some d) (hP : ∀ c, c ∈ P → c ∈ P' ∨ c = b) :
    DataOk P' given touched ((s.withData i d).written i) := by
  have hblock : ((s.withData i d).buf i).blockno = b := by simpa [Sys.withData] using hi.2.2
  have hdisk : ((s.withData i d).written i).disk = update s.disk b d := by
    simp only [Sys.written, hblock]
    simp [Sys.withData]
  have hcur : ∀ c, c ≠ b → current given (update s.disk b d) c = current given s.disk c := by
    intro c hcb
    rw [current, current, update_of_ne hcb]
  have hcurb : current given (update s.disk b d) b = d := by
    rcases hd with hd | hd
    · rw [current, hd, update_self]
      rfl
    · rw [current, hd]
      rfl
  refine ⟨fun c j hj hv ht => ?_, fun c hcP => ?_, fun j hj => ?_⟩
  · have hj' : s.Has rootDev c j := (PinOk.has_withData c j).1 hj
    rw [hdisk]
    obtain rfl | hcb := eq_or_ne c b
    · rw [hc.pin.uniq c j i hj' hi, hcurb]
      simp [Sys.written, Sys.withData]
    · have hji : j ≠ i := by
        rintro rfl
        exact hcb (hj'.2.2.symm.trans hi.2.2)
      have hbuf : ((s.withData i d).written i).buf j = s.buf j := by simp [Sys.written, Sys.withData, hji]
      rw [hbuf] at hv ⊢
      rw [hcur c hcb]
      exact h.data c j hj' hv ht
  · rw [hdisk]
    obtain rfl | hcb := eq_or_ne c b
    · rw [hcurb, update_self]
    · rw [hcur c hcb, update_of_ne hcb]
      refine h.clean c fun hm => ?_
      rcases hP c hm with hm | hm
      · exact hcP hm
      · exact hcb hm
  · obtain rfl | hji := eq_or_ne j i
    · simpa [Sys.written, Sys.withData] using h.held j hj
    · simpa [Sys.written, Sys.withData, hji] using h.held j hj

end DataOk

/-! ## The calls of the cache -/

/-- The cache invariant with the contents, the disk `disk` and the log of `s`. -/
structure Steady (P : List Nat) (given : Nat → Option Block) (touched : Nat → Bool) (disk : Nat → Block) (s t : Sys) :
    Prop where
  cache : CacheInv rootDev P t
  data : DataOk P given touched t
  disk : t.disk = disk
  log : t.log = s.log

/-- `p` holds buffer `i` of block `b`, and no client has touched it. -/
structure Holds (touched : Nat → Bool) (p b i : Nat) (s : Sys) : Prop where
  has : s.Has rootDev b i
  lock : (s.buf i).lock = some p
  untouched : touched i = false

theorem Holds.congr (h : Holds touched p b i s) (hbuf : t.buf i = s.buf i) (hlru : i ∈ s.lru → i ∈ t.lru) :
    Holds touched p b i t :=
  ⟨⟨hlru h.has.1, by rw [hbuf]; exact h.has.2⟩, by rw [hbuf]; exact h.lock, h.untouched⟩

theorem Holds.contents (h : Holds touched p b i s) (hc : CacheInv rootDev P s) (hd : DataOk P given touched s) :
    (s.buf i).data = current given s.disk b :=
  hd.data b i h.has (hc.held i (by rw [h.lock]; rfl)).2.2 h.untouched

theorem bread_data (hc : CacheInv rootDev P s) (hd : DataOk P given touched s) :
    wp (bread p rootDev b) (fun i t => Steady P given touched s.disk s t ∧ Holds touched p b i t ∧
      (∀ j, (s.buf j).lock.isSome → t.buf j = s.buf j) ∧ t.lru = s.lru) (fun _ _ => True) s := by
  apply wp_bread hc.pin.cacheOk
  · intro i hi hl
    have ht : touched i = false := by
      by_contra htouched
      have hheld := hd.held i (by simpa using htouched)
      rw [hl] at hheld
      cases hheld
    refine ⟨⟨hc.got hi hl, (hd.got hc hi hl).1, rfl, rfl⟩, ⟨hi.has_got, by simp [Sys.got], ht⟩, fun j hj => ?_, rfl⟩
    have hji : j ≠ i := by
      rintro rfl
      rw [hl] at hj
      cases hj
    simp [Sys.got, hji]
  · exact fun _ _ _ => trivial
  · exact fun _ _ => trivial

theorem brelse_data (hc : CacheInv rootDev P s) (hd : DataOk P given touched s) (ht : touched i = false) :
    wp (brelse p i) (fun _ t => Steady P given touched s.disk s t ∧ (s.buf i).lock = some p ∧
      (∀ j, j ≠ i → t.buf j = s.buf j) ∧ ∀ j, j ∈ s.lru → j ∈ t.lru) (fun _ _ => True) s := by
  by_cases hl : (s.buf i).lock = some p
  · refine wp_brelse (hc.held i (by rw [hl]; rfl)).1 hl fun l hperm => ?_
    refine ⟨⟨hc.released hl hperm, hd.released hperm ht, rfl, rfl⟩, hl, fun j hj => ?_,
      fun j hj => hperm.mem_iff.2 hj⟩
    simp [Sys.released, hj]
  · simp [brelse, holdingsleep, hl]

/-- The log's own code changes a buffer that it holds and writes it: the state before the buffer is
given back. -/
theorem Holds.wrote {Q : List Nat} {d : Block} (h : Holds touched p b i s) (hc : CacheInv rootDev P s)
    (hd : DataOk P given touched s) (hgiven : given b = none ∨ given b = some d) (hP : ∀ c, c ∈ P → c ∈ Q ∨ c = b) :
    DataOk Q given touched ((s.withData i d).written i) ∧ CacheInv rootDev P ((s.withData i d).written i) ∧
      ((s.withData i d).written i).disk = update s.disk b d ∧
      Holds touched p b i ((s.withData i d).written i) := by
  refine ⟨hd.wrote hc h.has hgiven hP, (hc.withData i d).written i, ?_, ?_⟩
  · have hblock : ((s.withData i d).buf i).blockno = b := by simpa [Sys.withData] using h.has.2.2
    simp only [Sys.written, hblock]
    simp [Sys.withData]
  · refine ⟨(PinOk.has_withData b i).2 h.has, ?_, h.untouched⟩
    simpa [Sys.written, Sys.withData] using h.lock

theorem wp_bwrite_held {Q : Unit → Sys → Prop} {E : Stop → Sys → Prop} {d : Block} (h : Holds touched p b i s)
    (hQ : Q () ((s.withData i d).written i)) : wp (bwrite p i) Q E (s.withData i d) :=
  wp_bwrite (by simpa [Sys.withData] using h.lock) hQ

/-! ## The steps of `commit` -/

theorem writeLogCopy_data {home dst : Nat} (hc : CacheInv rootDev P s) (hd : DataOk P given touched s)
    (hdst : Holds touched p b dst s) (hb : given b = none) (hne : home ≠ b) :
    wp (writeLogCopy p rootDev home dst)
      (fun _ t => Steady P given touched (update s.disk b (current given s.disk home)) s t)
      (fun _ _ => True) s := by
  simp only [writeLogCopy, wp_bind]
  refine wp_post (bread_data hc hd) ?_
  rintro src t ⟨ht, hsrc, hothers, hlru⟩
  have hdst' : Holds touched p b dst t := hdst.congr (hothers dst (by rw [hdst.lock]; rfl)) fun hm => hlru ▸ hm
  have hcontents := hsrc.contents ht.cache ht.data
  rw [ht.disk] at hcontents
  simp only [copyData, wp_modify, hcontents]
  obtain ⟨hd₁, hc₁, hdisk₁, hdst₁⟩ := hdst'.wrote (d := current given s.disk home) ht.cache ht.data (Or.inl hb)
    fun c hcP => Or.inl hcP
  refine wp_bwrite_held hdst' ?_
  refine wp_post (brelse_data hc₁ hd₁ hsrc.untouched) ?_
  rintro _ u ⟨hu, _⟩
  refine wp_post (brelse_data hu.cache hu.data hdst.untouched) ?_
  rintro _ v ⟨hv, _⟩
  refine ⟨hv.cache, hv.data, ?_, ?_⟩
  · rw [hv.disk, hu.disk, hdisk₁, ht.disk]
  · rw [hv.log, hu.log]
    exact ht.log

theorem writeHead_data (start : Nat) (hc : CacheInv rootDev P s) (hd : DataOk P given touched s)
    (hdev : s.log.dev = rootDev) (hs : s.log.start = start) (hstart : given start = none) :
    wp (writeHead p) (fun _ t => ∃ d, Steady P given touched (update s.disk start d) s t)
      (fun _ _ => True) s := by
  simp only [writeHead, wp_bind, wp_get, hdev, hs]
  refine wp_post (bread_data hc hd) ?_
  rintro i t ⟨ht, hi, _, _⟩
  simp only [wp_modify]
  obtain ⟨hd₁, hc₁, hdisk₁, hi₁⟩ := hi.wrote (d := putHead t.log.lh (t.buf i).data) ht.cache ht.data (Or.inl hstart)
    fun c hcP => Or.inl hcP
  refine wp_bwrite_held hi ?_
  refine wp_post (brelse_data hc₁ hd₁ hi.untouched) ?_
  rintro _ u ⟨hu, _⟩
  refine ⟨putHead t.log.lh (t.buf i).data, hu.cache, hu.data, ?_, ?_⟩
  · rw [hu.disk, hdisk₁, ht.disk]
  · rw [hu.log]
    exact ht.log

theorem installCopy_data {c lbuf : Nat} {d : Block} (hc : CacheInv rootDev (b :: P) s) (hd : DataOk (b :: P) given touched s)
    (hb : b ∉ P) (hlbuf : Holds touched p c lbuf s) (hne : b ≠ c) (hcontents : (s.buf lbuf).data = d)
    (hgiven : given b = some d) :
    wp (installCopy p false rootDev b lbuf) (fun _ t => Steady P given touched (update s.disk b d) s t)
      (fun _ _ => True) s := by
  simp only [installCopy, wp_bind]
  refine wp_post (bread_data hc hd) ?_
  rintro dbuf t ⟨ht, hdbuf, hothers, hlru⟩
  have hbuf : t.buf lbuf = s.buf lbuf := hothers lbuf (by rw [hlbuf.lock]; rfl)
  simp only [copyData, wp_modify, hbuf, hcontents]
  obtain ⟨hd₁, hc₁, hdisk₁, hdbuf₁⟩ := hdbuf.wrote (Q := P) (d := d) ht.cache ht.data (Or.inr hgiven) fun c hcP => by
    rcases List.mem_cons.1 hcP with rfl | hcP
    · exact Or.inr rfl
    · exact Or.inl hcP
  refine wp_bwrite_held hdbuf ?_
  simp only [Bool.false_eq_true, not_false_eq_true, if_true, wp_bind, bunpin, wp_modify]
  have hc₂ := hc₁.unpinned hdbuf₁.has hb
  have hd₂ : DataOk P given touched (((t.withData dbuf d).written dbuf).unpinned dbuf) := by
    refine hd₁.congr (fun _ => Iff.rfl) (fun j => ?_) rfl
    obtain rfl | hj := eq_or_ne j dbuf
    · simp [Sys.unpinned, Sys.record]
    · simp [Sys.unpinned, Sys.record, hj]
  refine wp_post (brelse_data hc₂ hd₂ hlbuf.untouched) ?_
  rintro _ u ⟨hu, _⟩
  refine wp_post (brelse_data hu.cache hu.data hdbuf.untouched) ?_
  rintro _ v ⟨hv, _⟩
  refine ⟨hv.cache, hv.data, ?_, ?_⟩
  · rw [hv.disk, hu.disk]
    exact hdisk₁.trans (by rw [ht.disk])
  · rw [hv.log, hu.log]
    exact ht.log

/-! ## The invariant of the processes -/

theorem current_some {disk : Nat → Block} {d : Block} (h : given b = some d) : current given disk b = d := by
  rw [current, h]
  rfl

theorem current_none {disk : Nat → Block} (h : given b = none) : current given disk b = disk b := by
  rw [current, h]
  rfl

/-- A write to the device does not change the current contents of a block that was given some. -/
theorem current_update {disk : Nat → Block} {x : Block} {c : Nat} (h : (given b).isSome) :
    current given (update disk c x) b = current given disk b := by
  obtain ⟨d, hd⟩ := Option.isSome_iff_exists.1 h
  rw [current_some hd, current_some hd]

/-- How many of the `n` blocks of the header the log on the disk has. -/
def Pc.copied (n : Nat) : Pc → Nat
  | .logBlock tail | .logCopy tail _ => tail
  | .head | .homeBlock _ | .homeCopy _ _ => n
  | _ => 0

/-- The position in the log and the buffer of the log block that a process in `commit` holds. -/
def Pc.holds : Pc → Option (Nat × Nat)
  | .logCopy tail i | .homeCopy tail i => some (tail, i)
  | _ => none

structure PcData (given : Nat → Option Block) (touched : Nat → Bool) (p : Nat) (pc : Pc) (s : Sys) : Prop where
  copied : ∀ k, k < pc.copied s.log.lh.length → k < s.log.lh.length →
    s.disk (s.log.start + k + 1) = current given s.disk (s.log.lh.getD k 0)
  holds : ∀ tail i, pc.holds = some (tail, i) → Holds touched p (s.log.start + tail + 1) i s
  erased : pc = .erase ∨ pc = .finish → s.log.lh = []

/-- The invariant, on a disk that was `d` at boot. -/
structure Coherent (d : Nat → Block) (s : Coh) : Prop where
  data : DataOk s.conc.pinned s.given s.touched s.conc.sys
  logged : ∀ b ∈ s.conc.sys.log.lh, (s.given b).isSome
  outside : ∀ b, InLog s.conc.sys.log.start b → s.given b = none
  fresh : ∀ b, s.given b = none → ¬ InLog s.conc.sys.log.start b → s.conc.sys.disk b = d b
  room : s.conc.sys.log.lh.length ≤ logBlocks
  pc : ∀ (p : Nat) (pc : Pc), s.conc.phase[p]? = some (.commit pc) → PcData s.given s.touched p pc s.conc.sys

theorem exec_coherent {α : Type} {m : K α} {next : α → List Phase} {Q : Conc → Prop} {E : Stop → Sys → Prop}
    {c c' : Conc} (h : c.exec m next = some (.ok c')) (hm : wp m (fun r t => Q ⟨t, next r⟩) E c.sys) : Q c' := by
  unfold Conc.exec at h
  split at h
  · rename_i r t ht
    cases h
    exact wp_ok hm ht
  · cases h
  · cases h

section

variable {d : Nat → Block} {s : Coh} {c' : Conc} {t : Sys} {touched' : Nat → Bool}

theorem Coherent.client (h : Coherent d s) (hlh : c'.sys.log.lh = s.conc.sys.log.lh)
    (hstart : c'.sys.log.start = s.conc.sys.log.start) (hdisk : c'.sys.disk = s.conc.sys.disk)
    (hpin : c'.pinned = s.conc.pinned) (hdata : DataOk s.conc.pinned s.given touched' c'.sys)
    (hpc : ∀ (q : Nat) (pc : Pc), c'.phase[q]? = some (.commit pc) →
      s.conc.phase[q]? = some (.commit pc) ∧
        ∀ b i, Holds s.touched q b i s.conc.sys → Holds touched' q b i c'.sys) :
    Coherent d ⟨c', s.given, touched'⟩ where
  data := by
    rw [hpin]
    exact hdata
  logged := fun b hb => h.logged b (hlh ▸ hb)
  outside := fun b hb => h.outside b (hstart ▸ hb)
  fresh := fun b hb hout => by
    rw [hdisk]
    exact h.fresh b hb (hstart ▸ hout)
  room := by
    rw [hlh]
    exact h.room
  pc := fun q pc hq => by
    obtain ⟨hq, hheld⟩ := hpc q pc hq
    have hold := h.pc q pc hq
    refine ⟨?_, fun tail i hi => ?_, ?_⟩
    · rw [hlh, hdisk, hstart]
      exact hold.copied
    · rw [hstart]
      exact hheld _ _ (hold.holds tail i hi)
    · rw [hlh]
      exact hold.erased

theorem Coherent.commit {p : Nat} {pc : Pc} (h : Coherent d s) (pc' : Pc) (hi : Inv s.conc)
    (hp : s.conc.phase[p]? = some (.commit pc)) {disk : Nat → Block}
    (ht : Steady (t.log.lh.drop pc'.installed) s.given s.touched disk t t)
    (hstart : t.log.start = s.conc.sys.log.start) (hlh : t.log.lh = s.conc.sys.log.lh ∨ t.log.lh = [])
    (hfresh : ∀ b, s.given b = none → ¬ InLog s.conc.sys.log.start b → disk b = s.conc.sys.disk b)
    (hpc : PcData s.given s.touched p pc' t) :
    Coherent d ⟨⟨t, s.conc.after p (some pc')⟩, s.given, s.touched⟩ where
  data := by
    let c' : Conc := ⟨t, s.conc.after p (some pc')⟩
    have htotal : c'.total Phase.installed + _ = _ := Conc.total_set hp rfl Phase.installed
    have hpin : c'.pinned = t.log.lh.drop pc'.installed := by
      rw [hi.installed_of_commit hp] at htotal
      simp only [Phase.installed] at htotal
      rw [Conc.pinned, show c'.total Phase.installed = pc'.installed by omega]
    rw [hpin]
    exact ht.data
  logged := fun b hb => by
    rcases hlh with hlh | hlh
    · exact h.logged b (hlh ▸ hb)
    · have hb' : b ∈ t.log.lh := hb
      rw [hlh] at hb'
      cases hb'
  outside := fun b hb => h.outside b (hstart ▸ hb)
  fresh := fun b hb hout => by
    have hout' : ¬ InLog s.conc.sys.log.start b := hstart ▸ hout
    rw [ht.disk, hfresh b hb hout']
    exact h.fresh b hb hout'
  room := by
    rcases hlh with hlh | hlh
    · rw [hlh]
      exact h.room
    · rw [hlh]
      exact Nat.zero_le _
  pc := fun q pcq hq => by
    rcases (phase_set hp).1 hq with ⟨rfl, hpcq⟩ | ⟨hne, hq⟩
    · cases hpcq
      exact hpc
    · exact absurd (hi.eq_of_commit hp hq).symm hne

theorem Steady.rebase {u : Sys} {disk : Nat → Block} {P Q : List Nat} (h : Steady P s.given s.touched disk u t)
    (hPQ : Q = P) : Steady Q s.given s.touched disk t t :=
  ⟨hPQ ▸ h.cache, hPQ ▸ h.data, h.disk, rfl⟩

/-- The home block of a position of the header was given contents, and a block of the log was not. -/
theorem Coherent.given_lh {k : Nat} (h : Coherent d s) (hk : k < s.conc.sys.log.lh.length) :
    (s.given (s.conc.sys.log.lh.getD k 0)).isSome ∧ s.given (s.conc.sys.log.start + k + 1) = none := by
  refine ⟨h.logged _ ?_, h.outside _ ?_⟩
  · simp [List.getD, hk]
  · have := h.room
    exact ⟨by omega, by omega⟩

theorem commitStep_coherent {pc : Pc} (h : Coherent d s) (hi : Inv s.conc)
    (hp : s.conc.phase[p]? = some (.commit pc)) :
    wp (commitStep p pc) (fun r t => Coherent d ⟨⟨t, s.conc.after p r⟩, s.given, s.touched⟩) (fun _ _ => True)
      s.conc.sys := by
  have hpin := hi.pinned_of_commit hp
  have hpc := h.pc p pc hp
  have hnow : Steady s.conc.pinned s.given s.touched s.conc.sys.disk s.conc.sys s.conc.sys :=
    ⟨hi.cache, h.data, rfl, rfl⟩
  cases pc with
  | start =>
      simp only [commitStep, wp_bind, wp_get]
      apply wp_ite
      · intro _
        refine h.commit (.logBlock 0) hi hp (hnow.rebase hpin.symm) rfl (Or.inl rfl) (fun _ _ _ => rfl) ?_
        exact ⟨fun k hk => absurd hk (Nat.not_lt_zero k), by simp [Pc.holds], by simp⟩
      · intro hlen
        refine h.commit .finish hi hp (hnow.rebase hpin.symm) rfl (Or.inl rfl) (fun _ _ _ => rfl) ?_
        exact ⟨fun k hk => absurd hk (Nat.not_lt_zero k), by simp [Pc.holds],
          fun _ => List.length_eq_zero_iff.1 (by omega)⟩
  | logBlock tail =>
      simp only [commitStep, wp_bind, wp_get, hi.dev]
      apply wp_ite
      · intro hlt
        simp only [wp_bind, wp_pure]
        refine wp_post (bread_data hi.cache h.data) ?_
        rintro dst t ⟨ht, hdst, _, _⟩
        refine h.commit (.logCopy tail dst) hi hp (ht.rebase (by rw [hpin, ht.log]; rfl)) (by rw [ht.log])
          (Or.inl (by rw [ht.log])) (fun _ _ _ => rfl) ⟨?_, ?_, by simp⟩
        · rw [ht.log, ht.disk]
          exact hpc.copied
        · rintro k i hki
          cases hki
          rw [ht.log]
          exact hdst
      · intro hge
        refine h.commit .head hi hp (hnow.rebase hpin.symm) rfl (Or.inl rfl) (fun _ _ _ => rfl) ?_
        exact ⟨fun k _ hk => hpc.copied k (by simp only [Pc.copied]; omega) hk, by simp [Pc.holds], by simp⟩
  | logCopy tail dst =>
      have hlt : tail < s.conc.sys.log.lh.length := hi.pc p _ hp
      obtain ⟨hhome, hlog⟩ := h.given_lh hlt
      have hne : s.conc.sys.log.lh.getD tail 0 ≠ s.conc.sys.log.start + tail + 1 := by
        intro heq
        rw [heq, hlog] at hhome
        cases hhome
      simp only [commitStep, wp_bind, wp_get, wp_pure, hi.dev]
      refine wp_post (writeLogCopy_data hi.cache h.data (hpc.holds tail dst rfl) hlog hne) ?_
      intro _ t ht
      refine h.commit (.logBlock (tail + 1)) hi hp (ht.rebase (by rw [hpin, ht.log]; rfl)) (by rw [ht.log])
        (Or.inl (by rw [ht.log])) (fun b hb hout => ?_) ⟨fun k hk hkn => ?_, by simp [Pc.holds], by simp⟩
      · refine update_of_ne ?_ ..
        rintro rfl
        have := h.room
        exact hout ⟨by omega, by omega⟩
      · rw [ht.log] at hkn ⊢
        rw [ht.disk, current_update (h.given_lh hkn).1]
        obtain rfl | hkt := eq_or_ne k tail
        · exact update_self ..
        · rw [update_of_ne (by omega)]
          simp only [Pc.copied] at hk
          exact hpc.copied k (by simp only [Pc.copied]; omega) hkn
  | head =>
      simp only [commitStep, recordCommit, wp_bind, wp_modify, wp_pure]
      have hstart : s.given s.conc.sys.log.start = none := h.outside _ ⟨le_refl _, by omega⟩
      refine wp_post (writeHead_data s.conc.sys.log.start (hi.cache.congr rfl rfl)
        (h.data.congr (fun _ => Iff.rfl) (fun _ => ⟨rfl, rfl, rfl, rfl, rfl⟩) rfl) hi.dev rfl hstart) ?_
      rintro _ t ⟨x, ht⟩
      have hlog : t.log = s.conc.sys.log := ht.log
      refine h.commit (.homeBlock 0) hi hp (ht.rebase (by rw [hpin, hlog]; rfl)) (by rw [hlog])
        (Or.inl (by rw [hlog])) (fun b hb hout => ?_) ⟨fun k hk hkn => ?_, by simp [Pc.holds], by simp⟩
      · refine update_of_ne ?_ ..
        rintro rfl
        exact hout ⟨le_refl _, by omega⟩
      · rw [hlog] at hkn ⊢
        rw [ht.disk, current_update (h.given_lh hkn).1]
        exact (update_of_ne (by omega) ..).trans (hpc.copied k hkn hkn)
  | homeBlock tail =>
      simp only [commitStep, wp_bind, wp_get, hi.dev]
      apply wp_ite
      · intro hlt
        simp only [wp_bind, wp_pure]
        refine wp_post (bread_data hi.cache h.data) ?_
        rintro lbuf t ⟨ht, hlbuf, _, _⟩
        refine h.commit (.homeCopy tail lbuf) hi hp (ht.rebase (by rw [hpin, ht.log]; rfl)) (by rw [ht.log])
          (Or.inl (by rw [ht.log])) (fun _ _ _ => rfl) ⟨?_, ?_, by simp⟩
        · rw [ht.log, ht.disk]
          exact hpc.copied
        · rintro k i hki
          cases hki
          rw [ht.log]
          exact hlbuf
      · intro hge
        simp only [clearHead, wp_bind, wp_modify, wp_pure]
        have hnil : s.conc.pinned = [] := by
          rw [hpin]
          exact List.drop_eq_nil_of_le (by simpa [Pc.installed] using hge)
        have hdata : DataOk [] s.given s.touched (s.conc.sys.setLh []) :=
          (hnil ▸ h.data).congr (fun _ => Iff.rfl) (fun _ => ⟨rfl, rfl, rfl, rfl, rfl⟩) rfl
        refine h.commit .erase hi hp ⟨(hnil ▸ hi.cache).setLh [], hdata, rfl, rfl⟩ rfl (Or.inr rfl)
          (fun _ _ _ => rfl) ⟨fun k hk => absurd hk (Nat.not_lt_zero k), by simp [Pc.holds], fun _ => rfl⟩
  | homeCopy tail lbuf =>
      have hlt : tail < s.conc.sys.log.lh.length := hi.pc p _ hp
      obtain ⟨hhome, hlog⟩ := h.given_lh hlt
      obtain ⟨x, hx⟩ := Option.isSome_iff_exists.1 hhome
      have hne : s.conc.sys.log.lh.getD tail 0 ≠ s.conc.sys.log.start + tail + 1 := by
        intro heq
        rw [heq, hlog] at hhome
        cases hhome
      have hlbuf := hpc.holds tail lbuf rfl
      have hcontents : (s.conc.sys.buf lbuf).data = x := by
        rw [hlbuf.contents hi.cache h.data, current_none hlog, hpc.copied tail hlt hlt, current_some hx]
      have hpin' : s.conc.pinned = s.conc.sys.log.lh.getD tail 0 :: s.conc.sys.log.lh.drop (tail + 1) := by
        rw [← drop_eq_getD_cons hlt]
        exact hpin
      simp only [commitStep, wp_bind, wp_get, wp_pure, hi.dev]
      refine wp_post (installCopy_data (hpin' ▸ hi.cache) (hpin' ▸ h.data) (getD_notMem_drop hi.nodup hlt) hlbuf hne
        hcontents hx) ?_
      intro _ t ht
      refine h.commit (.homeBlock (tail + 1)) hi hp (ht.rebase (by rw [ht.log]; rfl)) (by rw [ht.log])
        (Or.inl (by rw [ht.log])) (fun b hb hout => ?_) ⟨fun k hk hkn => ?_, by simp [Pc.holds], by simp⟩
      · refine update_of_ne ?_ ..
        rintro rfl
        rw [hb] at hx
        cases hx
      · rw [ht.log] at hkn ⊢
        have hk' : s.conc.sys.log.start + k + 1 ≠ s.conc.sys.log.lh.getD tail 0 := by
          intro heq
          have hnone := (h.given_lh hkn).2
          rw [heq, hx] at hnone
          cases hnone
        rw [ht.disk, current_update (h.given_lh hkn).1, update_of_ne hk']
        exact hpc.copied k hkn hkn
  | erase =>
      simp only [commitStep, wp_bind, wp_pure]
      have hstart : s.given s.conc.sys.log.start = none := h.outside _ ⟨le_refl _, by omega⟩
      refine wp_post (writeHead_data s.conc.sys.log.start hi.cache h.data hi.dev rfl hstart) ?_
      rintro _ t ⟨x, ht⟩
      refine h.commit .finish hi hp (ht.rebase (by rw [hpin, ht.log]; rfl)) (by rw [ht.log])
        (Or.inl (by rw [ht.log])) (fun b hb hout => ?_)
        ⟨fun k hk => absurd hk (Nat.not_lt_zero k), by simp [Pc.holds], fun _ => ?_⟩
      · refine update_of_ne ?_ ..
        rintro rfl
        exact hout ⟨le_refl _, by omega⟩
      · rw [ht.log]
        exact hpc.erased (Or.inl rfl)
  | finish =>
      simp only [commitStep, endCommit, wp_bind, wp_modify, wp_pure]
      refine h.client rfl rfl rfl (pinned_of_set hp rfl rfl rfl) ?_ fun q pc hq => ?_
      · exact h.data.congr (fun _ => Iff.rfl) (fun _ => ⟨rfl, rfl, rfl, rfl, rfl⟩) rfl
      · rcases (phase_set hp).1 hq with ⟨_, hidle⟩ | ⟨hne, hq⟩
        · cases hidle
        · exact absurd (hi.eq_of_commit hp hq).symm hne

/-! ## Every step keeps the invariant -/

theorem not_commit_of_runs {c : Conc} {q : Nat} {pc : Pc} (h : c.runs p = true) (hq : c.phase[q]? = some (.commit pc)) :
    q ≠ p := by
  rintro rfl
  rw [Conc.runs, hq] at h
  cases h

theorem Coherent.gave {bs : List Nat} (h : Coherent d s) (lh : List Nat) (hi : Inv s.conc) (hp : s.conc.phase[p]? = some (.op bs))
    (hhas : s.conc.sys.Has rootDev (s.conc.sys.buf i).blockno i)
    (hout : ¬ InLog s.conc.sys.log.start (s.conc.sys.buf i).blockno)
    (hlh : ∀ c, c ∈ lh ↔ c ∈ s.conc.sys.log.lh ∨ c = (s.conc.sys.buf i).blockno) (hroom : lh.length ≤ logBlocks)
    (hlog : t.log.lh = lh) (hstart : t.log.start = s.conc.sys.log.start) (hdisk : t.disk = s.conc.sys.disk)
    (hlru : t.lru = s.conc.sys.lru)
    (hbuf : ∀ j, (t.buf j).dev = (s.conc.sys.buf j).dev ∧ (t.buf j).blockno = (s.conc.sys.buf j).blockno ∧
      (t.buf j).valid = (s.conc.sys.buf j).valid ∧ (t.buf j).data = (s.conc.sys.buf j).data ∧
      (t.buf j).lock = (s.conc.sys.buf j).lock) :
    Coherent d (s.after ⟨t, s.conc.phase.set p (.op (bs.insert (s.conc.sys.buf i).blockno))⟩ (.logWrite p i)) where
  data := by
    let c' : Conc := ⟨t, s.conc.phase.set p (.op (bs.insert (s.conc.sys.buf i).blockno))⟩
    have htotal : c'.total Phase.installed + _ = _ := Conc.total_set hp rfl Phase.installed
    have hpin : c'.pinned = lh := by
      rw [hi.installed_of_op hp] at htotal
      simp only [Phase.installed, Nat.add_zero] at htotal
      rw [Conc.pinned, htotal, List.drop_zero]
      exact hlog
    refine DataOk.congr (s := s.conc.sys) ?_ (fun j => by rw [← hlru]; rfl) hbuf hdisk
    show DataOk c'.pinned _ _ _
    rw [hpin]
    refine h.data.give hi.cache hhas fun c hc => (hlh c).2 ?_
    rwa [hi.pinned_of_op hp] at hc
  logged := fun c hc => by
    show (update s.given _ _ c).isSome
    obtain rfl | hcb := eq_or_ne c (s.conc.sys.buf i).blockno
    · rw [update_self]
      rfl
    · rw [update_of_ne hcb]
      have hc' : c ∈ lh := hlog ▸ hc
      exact h.logged c (((hlh c).1 hc').resolve_right hcb)
  outside := fun c hc => by
    have hc' : InLog s.conc.sys.log.start c := hstart ▸ hc
    show update s.given _ _ c = none
    rw [update_of_ne (by rintro rfl; exact hout hc')]
    exact h.outside c hc'
  fresh := fun c hc hcout => by
    have hc₁ : update s.given (s.conc.sys.buf i).blockno (some (s.conc.sys.buf i).data) c = none := hc
    have hcb : c ≠ (s.conc.sys.buf i).blockno := by
      rintro rfl
      rw [update_self] at hc₁
      cases hc₁
    rw [update_of_ne hcb] at hc₁
    show t.disk c = d c
    rw [hdisk]
    exact h.fresh c hc₁ (hstart ▸ hcout)
  room := by
    show t.log.lh.length ≤ logBlocks
    rw [hlog]
    exact hroom
  pc := fun q pc hq => by
    rcases (phase_set hp).1 hq with ⟨_, hop⟩ | ⟨_, hq⟩
    · cases hop
    · exact absurd hq (hi.no_commit_of_op hp q pc)

theorem Coherent.logWrite {bs : List Nat} (h : Coherent d s) (hi : Inv s.conc) (hp : s.conc.phase[p]? = some (.op bs))
    (hh : holdingsleep s.conc.sys p i = true) (hout : ¬ InLog s.conc.sys.log.start (s.conc.sys.buf i).blockno) :
    wp (logWrite p i)
      (fun _ t => Coherent d (s.after ⟨t, s.conc.phase.set p (.op (bs.insert (s.conc.sys.buf i).blockno))⟩ (.logWrite p i)))
      (fun _ _ => True) s.conc.sys := by
  have hhas := (holds_of_holdingsleep hi hh).1
  simp only [Log.logWrite, wp_bind, wp_get]
  refine wp_ite (fun _ => trivial) fun hroom => wp_ite (fun _ => trivial) fun _ => ?_
  simp only [wp_bind, wp_modify]
  apply wp_ite
  · intro hb
    refine h.gave s.conc.sys.log.lh hi hp hhas hout (fun c => ⟨Or.inl, ?_⟩) h.room rfl rfl rfl rfl fun j => ⟨rfl, rfl, rfl, rfl, rfl⟩
    rintro (hc | rfl)
    · exact hc
    · exact hb
  · intro hb
    simp only [wp_bind, bpin, wp_modify]
    refine h.gave (s.conc.sys.log.lh ++ [(s.conc.sys.buf i).blockno]) hi hp hhas hout (fun c => by simp) ?_ ?_ ?_ ?_
      ?_ fun j => ?_
    · simp only [List.length_append, List.length_singleton]
      omega
    · simp [Sys.setLh, Sys.record]
    · simp [Sys.setLh, Sys.record]
    · simp [Sys.setLh, Sys.record]
    · simp [Sys.setLh, Sys.record]
    · obtain rfl | hji := eq_or_ne j i
      · simp [Sys.setLh, Sys.record]
      · simp [Sys.setLh, Sys.record, hji]

theorem Coherent.endOp {bs : List Nat} (h : Coherent d s) (last : Bool) (hi : Inv s.conc)
    (hp : s.conc.phase[p]? = some (.op bs)) (hlh : t.log.lh = s.conc.sys.log.lh)
    (hstart : t.log.start = s.conc.sys.log.start) (hdisk : t.disk = s.conc.sys.disk) (hbuf : t.buf = s.conc.sys.buf)
    (hlru : t.lru = s.conc.sys.lru) :
    Coherent d ⟨⟨t, s.conc.phase.set p (if last then .commit .start else .idle)⟩, s.given, s.touched⟩ where
  data := by
    rw [pinned_of_set hp rfl (by cases last <;> rfl) hlh]
    exact h.data.congr (fun j => by rw [hlru]) (fun j => by rw [hbuf]; exact ⟨rfl, rfl, rfl, rfl, rfl⟩) hdisk
  logged := fun b hb => h.logged b (hlh ▸ hb)
  outside := fun b hb => h.outside b (hstart ▸ hb)
  fresh := fun b hb hout => by
    rw [hdisk]
    exact h.fresh b hb (hstart ▸ hout)
  room := by
    rw [hlh]
    exact h.room
  pc := fun q pc hq => by
    rcases (phase_set hp).1 hq with ⟨_, hpc⟩ | ⟨_, hq⟩
    · cases last with
      | false => cases hpc
      | true =>
          cases hpc
          exact ⟨fun k hk => absurd hk (Nat.not_lt_zero k), by simp [Pc.holds], by simp⟩
    · exact absurd hq (hi.no_commit_of_op hp q pc)

theorem Coh.step_inv {s' : Coh} {a : Act} (hs : s.step a = some (.ok s')) :
    ∃ c', Log.step s.conc a = some (.ok c') ∧ s.after c' a = s' := by
  simp only [Coh.step, Option.map_eq_some_iff] at hs
  obtain ⟨r, hr, hs⟩ := hs
  cases r with
  | error e => cases hs
  | ok c' =>
      cases hs
      exact ⟨c', hr, rfl⟩

theorem Coh.conc_after (s : Coh) (c : Conc) (a : Act) : (s.after c a).conc = c := by
  cases a with
  | _ => rfl

theorem Coherent.step {s' : Coh} {a : Act} (h : Coherent d s) (hi : Inv s.conc) (hok : s.Ok a)
    (hs : s.step a = some (.ok s')) : Coherent d s' := by
  obtain ⟨c', hc, rfl⟩ := Coh.step_inv hs
  cases a with
  | beginOp p =>
      simp only [Log.step] at hc
      split at hc
      · rename_i hp
        refine exec_coherent (E := fun _ _ => True) (Q := fun c => Coherent d (s.after c (.beginOp p))) hc ?_
        simp only [beginOp, wp_bind, wp_get]
        refine wp_ite (fun _ => trivial) fun _ => wp_ite (fun _ => trivial) fun _ => ?_
        refine h.client rfl rfl rfl (pinned_of_set hp rfl rfl rfl)
          (h.data.congr (fun _ => Iff.rfl) (fun _ => ⟨rfl, rfl, rfl, rfl, rfl⟩) rfl) fun q pc hq => ?_
        rcases (phase_set hp).1 hq with ⟨_, hop⟩ | ⟨_, hq⟩
        · cases hop
        · exact ⟨hq, fun b i hb => hb.congr rfl id⟩
      · cases hc
  | bread p b =>
      simp only [Log.step, hi.dev] at hc
      split at hc
      · refine exec_coherent (E := fun _ _ => True) (Q := fun c => Coherent d (s.after c (.bread p b))) hc ?_
        refine wp_post (bread_data hi.cache h.data) ?_
        rintro i t ⟨ht, _, hothers, hlru⟩
        refine h.client (by rw [ht.log]) (by rw [ht.log]) ht.disk (pinned_congr (by rw [ht.log]) rfl) ht.data ?_
        intro q pc hq
        exact ⟨hq, fun b j hj => hj.congr (hothers j (by rw [hj.lock]; rfl)) fun hm => hlru ▸ hm⟩
      · cases hc
  | store p i x =>
      simp only [Log.step] at hc
      split at hc
      · rename_i hcond
        have hl : (s.conc.sys.buf i).lock = some p := by simpa [holdingsleep] using hcond.2
        refine exec_coherent (E := fun _ _ => True) (Q := fun c => Coherent d (s.after c (.store p i x))) hc ?_
        refine h.client rfl rfl rfl (pinned_congr rfl rfl) (h.data.touch (by rw [hl]; rfl)) fun q pc hq => ?_
        refine ⟨hq, fun b j hj => ?_⟩
        have hji : j ≠ i := by
          rintro rfl
          rw [hj.lock] at hl
          cases hl
          exact not_commit_of_runs hcond.1 hq rfl
        have hheld : Holds s.touched q b j (s.conc.sys.withData i x) :=
          hj.congr (by simp [Sys.withData, hji]) id
        exact ⟨hheld.has, hheld.lock, by rw [update_of_ne hji]; exact hj.untouched⟩
      · cases hc
  | logWrite p i =>
      simp only [Log.step] at hc
      split at hc
      · split at hc
        · exact exec_coherent (Q := fun c => Coherent d (s.after c (.logWrite p i))) hc (h.logWrite hi ‹_› ‹_› hok)
        · cases hc
      · cases hc
  | brelse p i =>
      simp only [Log.step] at hc
      split at hc
      · rename_i hruns
        refine exec_coherent (E := fun _ _ => True) (Q := fun c => Coherent d (s.after c (.brelse p i))) hc ?_
        refine wp_post (brelse_data hi.cache h.data hok) ?_
        rintro _ t ⟨ht, hl, hothers, hlru⟩
        refine h.client (by rw [ht.log]) (by rw [ht.log]) ht.disk (pinned_congr (by rw [ht.log]) rfl) ht.data ?_
        refine fun q pc hq => ⟨hq, fun b j hj => hj.congr (hothers j ?_) (hlru j)⟩
        rintro rfl
        rw [hj.lock] at hl
        cases hl
        exact not_commit_of_runs hruns hq rfl
      · cases hc
  | endOp p =>
      simp only [Log.step] at hc
      split at hc
      · rename_i bs hp
        refine exec_coherent (E := fun _ _ => True) (Q := fun c => Coherent d (s.after c (.endOp p))) hc ?_
        simp only [Log.endOp, wp_bind, wp_modify, wp_get, Sys.record]
        refine wp_ite (fun _ => trivial) fun _ => wp_ite (fun _ => ?_) fun _ => ?_
        · simp only [wp_bind, wp_set, wp_pure]
          exact h.endOp true hi hp rfl rfl rfl rfl rfl
        · simp only [wp_pure]
          exact h.endOp false hi hp rfl rfl rfl rfl rfl
      · cases hc
  | commit p =>
      simp only [Log.step] at hc
      split at hc
      · exact exec_coherent (Q := fun c => Coherent d ⟨c, s.given, s.touched⟩) hc (commitStep_coherent h hi ‹_›)
      · cases hc

theorem coherent_boot (start n : Nat) : Coherent d (Coh.boot d start n) where
  data := by
    refine ⟨fun b i _ hv _ => ?_, fun b _ => rfl, fun i hi => ?_⟩
    · cases hv
    · cases hi
  logged := by rintro b hb; cases hb
  outside := fun _ _ => rfl
  fresh := fun _ _ _ => rfl
  room := Nat.zero_le _
  pc := fun p pc hp => by
    cases List.eq_of_mem_replicate (List.mem_of_getElem? hp)

theorem coherent_of_reach {start n : Nat} (h : Reach Coh.step Coh.Ok (Coh.boot d start n) s) :
    Coherent d s ∧ Inv s.conc := by
  refine h.inv (I := fun s => Coherent d s ∧ Inv s.conc) ⟨coherent_boot start n, inv_boot d start n⟩ ?_
  rintro s a s' ⟨hc, hi⟩ hok hs
  obtain ⟨c', hc', rfl⟩ := Coh.step_inv hs
  exact ⟨hc.step hi hok hs, Coh.conc_after .. ▸ hi.step hc'⟩

/-! ## Buffers that differ from the disk -/

theorem Coherent.dirty_refs (h : Coherent d s) (hi : Inv s.conc) (hdirty : s.conc.sys.Dirty i) :
    0 < (s.conc.sys.buf i).refcnt := by
  obtain ⟨hmem, hv, hdev, hne⟩ := hdirty
  rw [hi.dev] at hdev
  rw [hi.cache.pin.refs i hmem]
  cases ht : s.touched i with
  | true =>
      have hheld := h.data.held i ht
      simp [Buf.holders, hheld]
  | false =>
      have hpinned : (s.conc.sys.buf i).blockno ∈ s.conc.pinned := by
        by_contra hb
        refine hne ?_
        rw [h.data.data _ i ⟨hmem, hdev, rfl⟩ hv ht]
        exact h.data.clean _ hb
      simp [Buf.pins, hdev, hpinned]

theorem Coherent.dirty_kept (h : Coherent d s) (hi : Inv s.conc) (hdirty : s.conc.sys.Dirty j) :
    wp (bread p rootDev b) (fun _ t => (t.buf j).blockno = (s.conc.sys.buf j).blockno ∧
      (t.buf j).data = (s.conc.sys.buf j).data) (fun _ _ => True) s.conc.sys := by
  have hrefs := h.dirty_refs hi hdirty
  apply wp_bread hi.cache.pin.cacheOk
  · intro i hpick hl
    obtain rfl | hji := eq_or_ne j i
    · rcases hpick with hhas | ⟨_, _, hzero⟩
      · have hdata : ((s.conc.sys.got p rootDev b j).buf j).data = s.conc.sys.view rootDev b := by simp [Sys.got]
        have hblock : ((s.conc.sys.got p rootDev b j).buf j).blockno = b := by simp [Sys.got]
        refine ⟨hblock.trans hhas.2.2.symm, ?_⟩
        rw [hdata, hi.cache.pin.cacheOk.view_has hhas, if_pos hdirty.2.1]
      · omega
    · simp [Sys.got, hji]
  · exact fun _ _ _ => trivial
  · exact fun _ _ => trivial

end

end Xv6.Log
