import Xv6.Log.Lemmas.Bio

/-!
# What one iteration of `write_log` and of `install_trans` does, and `write_head`

Each of them writes one block of the disk (`Wrote`). It stops only in `bread`: asleep on a lock, or
without a buffer.
-/

namespace Xv6.Log

open Lib

variable {s t : Sys} {p dev b c x y tail : Nat} {P : List Nat} {ext : Nat → Nat} {d : Block}
  {Q : Unit → Sys → Prop} {E : Stop → Sys → Prop}

/-- From `s` to `t` one block was written: `d` to block `c`. Blocks that are pinned, or cached as
they are on the disk, read the same. -/
structure Wrote (dev : Nat) (P : List Nat) (c : Nat) (d : Block) (s t : Sys) : Prop where
  log : t.log = s.log
  lru : t.lru.Perm s.lru
  lock : ∀ i, (t.buf i).lock = (s.buf i).lock
  disk : t.disk = Function.update s.disk c d
  writes : t.writes = s.writes ++ [(c, d)]
  view : t.view dev c = d
  stable : ∀ a, a ≠ c → (a ∈ P ∨ s.view dev a = s.disk a) → t.view dev a = s.view dev a

/-- Why `bread` of block `c` stops in `s`. -/
def Stuck (s : Sys) (dev c : Nat) (e : Stop) : Prop :=
  (e = .sleep ∧ ∃ i, s.Has dev c i ∧ (s.buf i).lock ≠ none) ∨
    (e = .panic .bget ∧ (∀ i ∈ s.lru, (s.buf i).refcnt ≠ 0) ∧ ∀ i, ¬ s.Has dev c i)

theorem wp_bread_of_pinOk {Q : Nat → Sys → Prop} (h : PinOk dev P ext s)
    (hQ : ∀ i, s.Picks dev c i → (s.buf i).lock = none → Q i (s.got p dev c i))
    (hE : ∀ e t, t.writes = s.writes → Stuck s dev c e → E e t) : wp (bread p dev c) Q E s := by
  apply wp_bread h.cacheOk hQ
  · intro i hi hl
    exact hE _ _ rfl (Or.inl ⟨rfl, i, hi, hl⟩)
  · intro hr hno
    exact hE _ _ rfl (Or.inr ⟨rfl, hr, hno⟩)

theorem Sys.Picks.has_got (h : s.Picks dev c x) : (s.got p dev c x).Has dev c x :=
  ⟨h.mem, by simp [Sys.got], by simp [Sys.got]⟩

/-! ## Two blocks at once -/

/-- The facts about the state in which `p` holds block `c` in `x` and then block `b` in `y`. -/
structure Held₂ (dev : Nat) (P : List Nat) (ext : Nat → Nat) (p c b x y : Nat) (s t : Sys) : Prop where
  pin : PinOk dev P ext t
  log : t.log = s.log
  hist : t.hist = s.hist
  lru : t.lru = s.lru
  disk : t.disk = s.disk
  writes : t.writes = s.writes
  ne : x ≠ y
  freeX : (s.buf x).lock = none
  freeY : (s.buf y).lock = none
  lock : ∀ i, (t.buf i).lock = if i = x ∨ i = y then some p else (s.buf i).lock
  hasX : t.Has dev c x
  hasY : t.Has dev b y
  validX : (t.buf x).valid = true
  validY : (t.buf y).valid = true
  dataX : (t.buf x).data = s.view dev c
  stable : ∀ a, (a ∈ P ∨ s.view dev a = s.disk a) → t.view dev a = s.view dev a

theorem Held₂.of_picks (h : PinOk dev P ext s) (hx : s.Picks dev c x) (hlx : (s.buf x).lock = none)
    (hy : (s.got p dev c x).Picks dev b y) (hly : ((s.got p dev c x).buf y).lock = none) :
    Held₂ dev P ext p c b x y s ((s.got p dev c x).got p dev b y) := by
  have h₁ := h.got (p := p) hx hlx
  have hxy : x ≠ y := by
    rintro rfl
    simp [Sys.got] at hly
  have hyx : y ≠ x := hxy.symm
  refine ⟨h₁.got hy hly, rfl, rfl, rfl, rfl, rfl, hxy, hlx, ?_, ?_, ?_, hy.has_got, ?_, ?_, ?_, ?_⟩
  · simpa [Sys.got, hyx] using hly
  · intro i
    by_cases hiy : i = y
    · subst hiy; simp [Sys.got]
    · by_cases hix : i = x
      · subst hix; simp [Sys.got, hxy]
      · simp [Sys.got, hiy, hix]
  · exact ⟨hx.mem, by simp [Sys.got, hxy], by simp [Sys.got, hxy]⟩
  · simp [Sys.got, hxy]
  · simp [Sys.got]
  · simp [Sys.got, hxy]
  · intro a ha
    have e₁ := h.view_got (p := p) hx hlx (c := a) (Or.inr ha)
    rw [h₁.view_got hy hly (c := a), e₁]
    rcases ha with ha | ha
    · exact Or.inr (Or.inl ha)
    · exact Or.inr (Or.inr (by rw [e₁, ha]; rfl))

/-- Why one of two `bread`s stops: on the first block, or on the second with the first held. -/
def Stuck₂ (s : Sys) (dev c b : Nat) (e : Stop) : Prop :=
  Stuck s dev c e ∨ (e = .sleep ∧ (c = b ∨ ∃ i, s.Has dev b i ∧ (s.buf i).lock ≠ none)) ∨
    ∃ x, e = .panic .bget ∧ c ≠ b ∧ s.Picks dev c x ∧
      (∀ i ∈ s.lru, i ≠ x → (s.buf i).refcnt ≠ 0) ∧ ∀ i, i ≠ x → ¬ s.Has dev b i

theorem wp_bread₂ {R : Nat → Nat → Sys → Prop} (h : PinOk dev P ext s)
    (hR : ∀ x y u, Held₂ dev P ext p c b x y s u → R x y u)
    (hE : ∀ e t, t.writes = s.writes → Stuck₂ s dev c b e → E e t) :
    wp (bread p dev c) (fun x t => wp (bread p dev b) (fun y u => R x y u) E t) E s := by
  apply wp_bread_of_pinOk h
  · intro x hx hlx
    apply wp_bread_of_pinOk (h.got hx hlx)
    · intro y hy hly
      exact hR x y _ (Held₂.of_picks h hx hlx hy hly)
    · intro e t ht hst
      apply hE e t ht
      rcases hst with ⟨he, i, hi, hl⟩ | ⟨he, hr, hno⟩
      · refine Or.inr (Or.inl ⟨he, ?_⟩)
        by_cases hix : i = x
        · subst hix
          exact Or.inl (by simpa [Sys.got, Sys.Has] using hi.2.2)
        · refine Or.inr ⟨i, ?_, ?_⟩
          · simpa [Sys.got, Sys.Has, hix] using hi
          · simpa [Sys.got, hix] using hl
      · refine Or.inr (Or.inr ⟨x, he, ?_, hx, ?_, ?_⟩)
        · rintro rfl
          exact hno x hx.has_got
        · intro i hi hix
          simpa [Sys.got, hix] using hr i hi
        · intro i hix hi
          exact hno i (by simpa [Sys.got, Sys.Has, hix] using hi)
  · intro e t ht hst
    exact hE e t ht (Or.inl hst)

/-- A pinned second block needs no new buffer. -/
theorem Stuck₂.of_pinned {e : Stop} (h : PinOk dev P ext s) (hb : b ∈ P) (hst : Stuck₂ s dev c b e) :
    (e = .sleep ∧ (c = b ∨ ∃ a i, s.Has dev a i ∧ (s.buf i).lock ≠ none)) ∨
      (e = .panic .bget ∧ (∀ i ∈ s.lru, (s.buf i).refcnt ≠ 0) ∧ ∀ i, ¬ s.Has dev c i) := by
  rcases hst with (⟨he, i, hi, hl⟩ | hst) | ⟨he, hcb | ⟨i, hi, hl⟩⟩ | ⟨x, _, hcb, hx, _, hno⟩
  · exact Or.inl ⟨he, Or.inr ⟨c, i, hi, hl⟩⟩
  · exact Or.inr hst
  · exact Or.inl ⟨he, Or.inl hcb⟩
  · exact Or.inl ⟨he, Or.inr ⟨b, i, hi, hl⟩⟩
  · -- the buffer of `b` is not the one picked for `c`, so it is found
    obtain ⟨y, hy, _⟩ := h.pinned b hb
    by_cases hyx : y = x
    · subst hyx
      rcases hx with hx | ⟨_, _, hx⟩
      · exact absurd (hx.2.2.symm.trans hy.2.2) hcb
      · exact absurd hb (h.not_mem_of_refcnt_eq_zero hy hx)
    · exact absurd hy (hno y hyx)

/-- The state `t` is `u` with two held buffers released. -/
structure Released₂ (dev : Nat) (x y : Nat) (u t : Sys) : Prop where
  log : t.log = u.log
  hist : t.hist = u.hist
  lru : t.lru.Perm u.lru
  disk : t.disk = u.disk
  writes : t.writes = u.writes
  lock : ∀ i, (t.buf i).lock = if i = x ∨ i = y then none else (u.buf i).lock
  view : ∀ a, t.view dev a = u.view dev a

theorem wp_brelse₂ {u : Sys} (h : PinOk dev P ext u) (hne : x ≠ y) (hx : x ∈ u.lru) (hy : y ∈ u.lru)
    (hlx : (u.buf x).lock = some p) (hly : (u.buf y).lock = some p)
    (hQ : ∀ t, PinOk dev P ext t → Released₂ dev x y u t → Q () t) :
    wp (brelse p x) (fun _ t => wp (brelse p y) Q E t) E u := by
  apply wp_brelse hx hlx
  intro l hl
  have h₁ := h.released hlx hl
  have hly' : ((u.released x l).buf y).lock = some p := by
    simpa [Sys.released, hne.symm] using hly
  apply wp_brelse (hl.mem_iff.mpr hy) hly'
  intro l' hl'
  refine hQ _ (h₁.released hly' hl') ⟨rfl, rfl, hl'.trans hl, rfl, rfl, ?_, ?_⟩
  · intro i
    by_cases hiy : i = y
    · subst hiy; simp [Sys.released]
    · by_cases hix : i = x
      · subst hix; simp [Sys.released, hiy]
      · simp [Sys.released, hiy, hix]
  · intro a
    rw [h₁.view_released hly' hl', h.view_released hlx hl]

theorem Released₂.symm {u : Sys} (h : Released₂ dev x y u t) : Released₂ dev y x u t := by
  obtain ⟨h₁, h₂, h₃, h₄, h₅, h₆, h₇⟩ := h
  exact ⟨h₁, h₂, h₃, h₄, h₅, fun i => by rw [h₆ i]; exact if_congr or_comm rfl rfl, h₇⟩

/-- The held state `u`, with `d` written to block `a`, is `v`. -/
structure WroteHeld (dev a : Nat) (d : Block) (u v : Sys) : Prop where
  log : v.log = u.log
  lru : v.lru = u.lru
  lock : ∀ i, (v.buf i).lock = (u.buf i).lock
  disk : v.disk = Function.update u.disk a d
  writes : v.writes = u.writes ++ [(a, d)]
  view : v.view dev a = d
  view_of_ne : ∀ a', a' ≠ a → v.view dev a' = u.view dev a'

theorem Held₂.wrote {a : Nat} {u v : Sys} (hu : Held₂ dev P ext p c b x y s u)
    (hv : WroteHeld dev a d u v) (hr : Released₂ dev x y v t) : Wrote dev P a d s t where
  log := by rw [hr.log, hv.log, hu.log]
  lru := by rw [← hu.lru, ← hv.lru]; exact hr.lru
  lock := by
    intro i
    rw [hr.lock]
    by_cases hix : i = x
    · subst hix; simp [hu.freeX]
    · by_cases hiy : i = y
      · subst hiy; simp [hu.freeY]
      · simp [hv.lock, hu.lock, hix, hiy]
  disk := by rw [hr.disk, hv.disk, hu.disk]
  writes := by rw [hr.writes, hv.writes, hu.writes]
  view := by rw [hr.view, hv.view]
  stable := by
    intro a' ha hst
    rw [hr.view, hv.view_of_ne a' ha, hu.stable a' hst]

theorem WroteHeld.of_withData {a z : Nat} {u : Sys} (h : PinOk dev P ext u) (hz : u.Has dev a z)
    (hv : (u.buf z).valid = true) (d : Block) :
    WroteHeld dev a d u ((u.withData z d).written z) := by
  have h₁ := h.withData z d
  have hz₁ : (u.withData z d).Has dev a z := (PinOk.has_withData a z).mpr hz
  have hv₁ : ((u.withData z d).buf z).valid = true := by simp [Sys.withData, hv]
  refine ⟨rfl, rfl, fun i => ?_, ?_, ?_, ?_, fun a' ha => ?_⟩
  · by_cases hiz : i = z
    · subst hiz; simp [Sys.written, Sys.withData]
    · simp [Sys.written, Sys.withData, hiz]
  · simp [Sys.written, Sys.withData, hz.2.2]
  · simp [Sys.written, Sys.withData, hz.2.2]
  · rw [h₁.view_written hz₁ hv₁, h.view_withData hz hv]
  · rw [h₁.view_written hz₁ hv₁, h.view_withData_of_ne hz ha]

theorem WroteHeld.unpinned {a z : Nat} {u v : Sys} (hw : WroteHeld dev a d u v)
    (h : PinOk dev (b :: P) ext v) (hz : v.Has dev b z) (hb : b ∉ P) :
    WroteHeld dev a d u (v.unpinned z) := by
  have hview := h.view_unpinned hz hb
  refine ⟨hw.log, hw.lru, fun i => ?_, hw.disk, hw.writes, (hview a).trans hw.view, fun a' ha => ?_⟩
  · rw [← hw.lock i]
    by_cases hiz : i = z
    · subst hiz; simp [Sys.unpinned, Sys.record]
    · simp [Sys.unpinned, Sys.record, hiz]
  · rw [hview, hw.view_of_ne a' ha]

/-! ## The iterations -/

/-- `write_log` copies what is read of the home block to the log block. -/
theorem writeLogBody_spec (h : PinOk dev P ext s) (hdev : s.log.dev = dev) (hb : b ∈ P)
    (hlh : s.log.lh.getD tail 0 = b) (hc : s.log.start + tail + 1 = c) :
    wp (writeLogBody p tail)
      (fun _ t => PinOk dev P ext t ∧ t.hist = s.hist ∧ Wrote dev P c (s.view dev b) s t)
      (fun e t => t.writes = s.writes ∧ Stuck₂ s dev c b e) s := by
  simp only [writeLogBody, writeLogCopy, wp_bind, wp_get, hdev, hlh, hc]
  apply wp_bread₂ h
  · intro x y u hu
    have hdata : (u.buf y).data = s.view dev b := by
      rw [← hu.stable b (Or.inl hb), hu.pin.cacheOk.view_has hu.hasY]
      simp [hu.validY]
    have hw := WroteHeld.of_withData hu.pin hu.hasX hu.validX (s.view dev b)
    have hlx : ((u.withData x (s.view dev b)).buf x).lock = some p := by
      simp [Sys.withData, hu.lock]
    simp only [copyData, wp_modify, hdata]
    apply wp_bwrite hlx
    apply wp_brelse₂ ((hu.pin.withData x _).written x) hu.ne.symm hu.hasY.1 hu.hasX.1
      ((hw.lock y).trans (by simp [hu.lock])) ((hw.lock x).trans (by simp [hu.lock]))
    intro t ht hr
    exact ⟨ht, hr.hist.trans hu.hist, hu.wrote hw hr.symm⟩
  · intro e t ht hst
    exact ⟨ht, hst⟩

/-- In recovery `install_trans` copies what is read of the log block to the home block. -/
theorem installBody_recovering_spec (h : PinOk dev P ext s) (hdev : s.log.dev = dev)
    (hlh : s.log.lh.getD tail 0 = b) (hc : s.log.start + tail + 1 = c) :
    wp (installBody p true tail)
      (fun _ t => PinOk dev P ext t ∧ t.hist = s.hist ∧ Wrote dev P b (s.view dev c) s t)
      (fun e t => t.writes = s.writes ∧ Stuck₂ s dev c b e) s := by
  simp only [installBody, installCopy, wp_bind, wp_get, hdev, hlh, hc]
  apply wp_bread₂ h
  · intro x y u hu
    have hw := WroteHeld.of_withData hu.pin hu.hasY hu.validY (s.view dev c)
    have hly : ((u.withData y (s.view dev c)).buf y).lock = some p := by
      simp [Sys.withData, hu.lock]
    simp only [copyData, wp_modify, hu.dataX]
    apply wp_bwrite hly
    simp only [not_true_eq_false, if_false, wp_bind]
    apply wp_brelse₂ ((hu.pin.withData y _).written y) hu.ne hu.hasX.1 hu.hasY.1
      ((hw.lock x).trans (by simp [hu.lock])) ((hw.lock y).trans (by simp [hu.lock]))
    intro t ht hr
    exact ⟨ht, hr.hist.trans hu.hist, hu.wrote hw hr⟩
  · intro e t ht hst
    exact ⟨ht, hst⟩

/-- In a commit `install_trans` also unpins the home block. -/
theorem installBody_spec (h : PinOk dev (b :: P) ext s) (hdev : s.log.dev = dev) (hb : b ∉ P)
    (hlh : s.log.lh.getD tail 0 = b) (hc : s.log.start + tail + 1 = c) :
    wp (installBody p false tail)
      (fun _ t => PinOk dev P ext t ∧ t.hist = s.hist ++ [.unpin b] ∧
        Wrote dev (b :: P) b (s.view dev c) s t)
      (fun e t => t.writes = s.writes ∧ Stuck₂ s dev c b e) s := by
  simp only [installBody, installCopy, wp_bind, wp_get, hdev, hlh, hc]
  apply wp_bread₂ h
  · intro x y u hu
    have hw := WroteHeld.of_withData hu.pin hu.hasY hu.validY (s.view dev c)
    have hly : ((u.withData y (s.view dev c)).buf y).lock = some p := by
      simp [Sys.withData, hu.lock]
    simp only [copyData, wp_modify, hu.dataX]
    apply wp_bwrite hly
    simp only [Bool.false_eq_true, not_false_eq_true, if_true, wp_bind, bunpin, wp_modify]
    have h₂ := (hu.pin.withData y (s.view dev c)).written y
    have hy₂ : ((u.withData y (s.view dev c)).written y).Has dev b y :=
      (PinOk.has_withData b y).mpr hu.hasY
    have hw' := hw.unpinned h₂ hy₂ hb
    apply wp_brelse₂ (h₂.unpinned hy₂ hb) hu.ne hu.hasX.1 hu.hasY.1
      ((hw'.lock x).trans (by simp [hu.lock])) ((hw'.lock y).trans (by simp [hu.lock]))
    intro t ht hr
    refine ⟨ht, ?_, hu.wrote hw' hr⟩
    rw [hr.hist]
    simp [Sys.unpinned, Sys.record, Sys.written, Sys.withData, hu.hist, hu.hasY.2.2]
  · intro e t ht hst
    exact ⟨ht, hst⟩

/-! ## The header block -/

theorem drop_eq_getD_cons {l : List Nat} {k : Nat} (h : k < l.length) :
    l.drop k = l.getD k 0 :: l.drop (k + 1) := by
  rw [List.drop_eq_getElem_cons h]
  simp [List.getD_eq_getElem?_getD, h]

theorem getD_mem {l : List Nat} {k : Nat} (h : k < l.length) : l.getD k 0 ∈ l := by
  simp [List.getD_eq_getElem?_getD, h]

theorem getD_notMem_drop {l : List Nat} {k : Nat} (hn : l.Nodup) (h : k < l.length) :
    l.getD k 0 ∉ l.drop (k + 1) :=
  (List.nodup_cons.mp (drop_eq_getD_cons h ▸ hn.sublist (List.drop_sublist k _))).1

theorem load_putHead_zero (lh : List Nat) (blk : Block) :
    load 4 (putHead lh blk) 0 = lh.length % 2 ^ 32 := by
  have h : ∀ (xs : List (Nat × Nat)) (blk : Block),
      load 4 (xs.foldl (fun b x => store 4 b (4 + 4 * x.2) x.1) blk) 0 = load 4 blk 0 := by
    intro xs
    induction xs with
    | nil => intro blk; rfl
    | cons x xs ih =>
        intro blk
        rw [List.foldl_cons, ih, load_store_disjoint]
        omega
  rw [putHead, h, load_store]
  rfl

theorem load_putHead_succ {lh : List Nat} {k : Nat} (hk : k < lh.length) (blk : Block) :
    load 4 (putHead lh blk) (4 + 4 * k) = lh.getD k 0 % 2 ^ 32 := by
  have h : ∀ (xs : List Nat) (o : Nat) (blk : Block),
      load 4 ((xs.zipIdx o).foldl (fun b x => store 4 b (4 + 4 * x.2) x.1) blk) (4 + 4 * k) =
        if o ≤ k ∧ k < o + xs.length then xs.getD (k - o) 0 % 2 ^ 32 else load 4 blk (4 + 4 * k) := by
    intro xs
    induction xs with
    | nil =>
        intro o blk
        rw [if_neg (by simp)]
        rfl
    | cons x xs ih =>
        intro o blk
        rw [List.zipIdx_cons, List.foldl_cons, ih]
        by_cases hok : o = k
        · subst hok
          simp [load_store]
        · rw [load_store_disjoint (by omega)]
          by_cases hlt : o + 1 ≤ k ∧ k < o + 1 + xs.length
          · rw [if_pos hlt, if_pos (by simp; omega)]
            obtain ⟨j, hj⟩ : ∃ j, k - o = j + 1 := ⟨k - o - 1, by omega⟩
            rw [hj, show k - (o + 1) = j by omega, List.getD_cons_succ]
          · rw [if_neg hlt, if_neg (by simp; omega)]
  rw [putHead, h, if_pos (by simpa using hk), Nat.sub_zero]

theorem getHead_putHead {lh : List Nat} (hn : lh.length < 2 ^ 31) (hb : ∀ b ∈ lh, b < 2 ^ 32)
    (blk : Block) : getHead (putHead lh blk) = lh := by
  have h₀ : load 4 (putHead lh blk) 0 = lh.length := by
    rw [load_putHead_zero, Nat.mod_eq_of_lt (by omega)]
  rw [getHead, h₀, if_pos hn]
  apply List.ext_getElem
  · simp
  · intro k h₁ h₂
    rw [List.getElem_map, List.getElem_range, load_putHead_succ h₂,
      List.getD_eq_getElem?_getD, List.getElem?_eq_getElem h₂, Option.getD_some,
      Nat.mod_eq_of_lt (hb _ (List.getElem_mem h₂))]

theorem writeHead_spec (h : PinOk dev P ext s) (hdev : s.log.dev = dev) (hc : s.log.start = c) :
    wp (writeHead p)
      (fun _ t => PinOk dev P ext t ∧ t.hist = s.hist ∧
        Wrote dev P c (putHead s.log.lh (s.view dev c)) s t)
      (fun e t => t.writes = s.writes ∧ Stuck s dev c e) s := by
  simp only [writeHead, wp_bind, wp_get, hdev, hc]
  apply wp_bread_of_pinOk h
  · intro x hx hlx
    have h₁ := h.got (p := p) hx hlx
    have hv : ((s.got p dev c x).buf x).valid = true := by simp [Sys.got]
    have hw := WroteHeld.of_withData h₁ hx.has_got hv (putHead s.log.lh (s.view dev c))
    have hl₁ : ∀ d, (((s.got p dev c x).withData x d).buf x).lock = some p := by
      intro d; simp [Sys.withData, Sys.got]
    have hdata : ((s.got p dev c x).buf x).data = s.view dev c := by simp [Sys.got]
    simp only [wp_modify, hdata]
    apply wp_bwrite (hl₁ _)
    refine wp_brelse (p := p) ?_ (hl₁ _) ?_
    · exact hx.mem
    intro l hl
    have h₂ := (h₁.withData x (putHead s.log.lh (s.view dev c))).written x
    refine ⟨h₂.released (hl₁ _) hl, rfl, rfl, hl, fun i => ?_, hw.disk, hw.writes, ?_, fun a ha hst => ?_⟩
    · by_cases hix : i = x
      · subst hix; simp [Sys.released, hlx]
      · simp [Sys.released, Sys.written, Sys.withData, Sys.got, hix]
    · exact (h₂.view_released (hl₁ _) hl c).trans hw.view
    · rw [← h.view_got (p := p) hx hlx (c := a) (Or.inr hst), ← hw.view_of_ne a ha]
      exact h₂.view_released (hl₁ _) hl a
  · intro e t ht hst
    exact ⟨ht, hst⟩

theorem PinOk.setLh (h : PinOk dev P ext s) (lh : List Nat) : PinOk dev P ext (s.setLh lh) :=
  h.congr rfl rfl

theorem readHead_spec (h : PinOk dev P ext s) (hdev : s.log.dev = dev) (hc : s.log.start = c)
    (hclean : ∀ a, s.view dev a = s.disk a) :
    wp (readHead p)
      (fun _ t => PinOk dev P ext t ∧ t.log = { s.log with lh := getHead (s.disk c) } ∧
        t.lru.Perm s.lru ∧ (∀ i, (t.buf i).lock = (s.buf i).lock) ∧ t.disk = s.disk ∧
        t.writes = s.writes ∧ ∀ a, t.view dev a = t.disk a)
      (fun e t => t.writes = s.writes ∧ Stuck s dev c e) s := by
  subst hdev hc
  simp only [readHead, wp_bind, wp_get]
  apply wp_bread_of_pinOk h
  · intro x hx hlx
    have h₁ := h.got (p := p) hx hlx
    have hdata : ((s.got p s.log.dev s.log.start x).buf x).data = s.disk s.log.start := by
      simp [Sys.got, hclean]
    simp only [wp_modify, hdata]
    have h₂ := h₁.setLh (getHead (s.disk s.log.start))
    have hl₂ : (((s.got p s.log.dev s.log.start x).setLh (getHead (s.disk s.log.start))).buf x).lock =
        some p := by
      simp [Sys.setLh, Sys.got]
    refine wp_brelse (p := p) ?_ hl₂ ?_
    · exact hx.mem
    intro l hl
    refine ⟨h₂.released hl₂ hl, rfl, hl, fun i => ?_, rfl, rfl, fun a => ?_⟩
    · by_cases hix : i = x
      · subst hix; simp [Sys.released, hlx]
      · simp [Sys.released, Sys.setLh, Sys.got, hix]
    · rw [h₂.view_released hl₂ hl]
      exact (h.view_got hx hlx (Or.inr (Or.inr (hclean a)))).trans (hclean a)
  · intro e t ht hst
    exact ⟨ht, hst⟩

end Xv6.Log
