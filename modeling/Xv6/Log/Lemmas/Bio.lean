import Xv6.Log.Log

/-!
# What the operations of the buffer cache do

`bget` picks one buffer for a block: the one that holds it, or one that nobody references. Every
other operation changes one buffer. `PinOk` is the invariant of the cache under the log: a buffer's
references are its holder, its pin and references from elsewhere (`ext`).
-/

namespace Xv6.Log

open Lib Function

variable {s t : Sys} {p dev b i j : Nat}

namespace Sys

@[simp] theorem setBuf_buf (s : Sys) (i : Nat) (x : Buf) :
    (s.setBuf i x).buf = update s.buf i x := rfl

@[simp] theorem setBuf_disk (s : Sys) (i : Nat) (x : Buf) : (s.setBuf i x).disk = s.disk := rfl

@[simp] theorem setBuf_lru (s : Sys) (i : Nat) (x : Buf) : (s.setBuf i x).lru = s.lru := rfl

@[simp] theorem setBuf_log (s : Sys) (i : Nat) (x : Buf) : (s.setBuf i x).log = s.log := rfl

@[simp] theorem setBuf_writes (s : Sys) (i : Nat) (x : Buf) : (s.setBuf i x).writes = s.writes := rfl

@[simp] theorem setBuf_hist (s : Sys) (i : Nat) (x : Buf) : (s.setBuf i x).hist = s.hist := rfl

@[simp] theorem setBuf_setBuf (s : Sys) (i : Nat) (x y : Buf) :
    (s.setBuf i x).setBuf i y = s.setBuf i y := by
  simp [setBuf]

/-- Buffer `i` is on the list and belongs to block `b`. -/
def Has (s : Sys) (dev b i : Nat) : Prop :=
  i ∈ s.lru ∧ (s.buf i).dev = dev ∧ (s.buf i).blockno = b

/-- Buffer `i` is the one `bget` picks for block `b`. -/
def Picks (s : Sys) (dev b i : Nat) : Prop :=
  s.Has dev b i ∨ (i ∈ s.lru ∧ (∀ j, ¬ s.Has dev b j) ∧ (s.buf i).refcnt = 0)

/-- The contents `bread` returns for a block: the valid cached copy, else the disk's. -/
def view (s : Sys) (dev b : Nat) : Block :=
  match cached s dev b with
  | some i => if (s.buf i).valid then (s.buf i).data else s.disk b
  | none => s.disk b

/-- The state after `p` has got block `b` in buffer `i`. -/
def got (s : Sys) (p dev b i : Nat) : Sys :=
  s.setBuf i ⟨true, dev, b, some p, (s.buf i).refcnt + 1, s.view dev b⟩

/-- The state after buffer `i` is released; the list may be reordered. -/
def released (s : Sys) (i : Nat) (l : List Nat) : Sys :=
  { s.setBuf i { s.buf i with lock := none, refcnt := (s.buf i).refcnt - 1 } with lru := l }

/-- The state after the data of buffer `i` is written to the device. -/
def written (s : Sys) (i : Nat) : Sys :=
  { s with
    disk := update s.disk (s.buf i).blockno (s.buf i).data
    writes := s.writes ++ [((s.buf i).blockno, (s.buf i).data)] }

/-- The state after `bpin`, and after `bunpin`, of buffer `i`. -/
def pinned (s : Sys) (i : Nat) : Sys :=
  (s.setBuf i { s.buf i with refcnt := (s.buf i).refcnt + 1 }).record (.pin (s.buf i).blockno)

@[inherit_doc pinned]
def unpinned (s : Sys) (i : Nat) : Sys :=
  (s.setBuf i { s.buf i with refcnt := (s.buf i).refcnt - 1 }).record (.unpin (s.buf i).blockno)

/-- The state with other data in buffer `i`. -/
def withData (s : Sys) (i : Nat) (d : Block) : Sys := s.setBuf i { s.buf i with data := d }

theorem Picks.mem (h : s.Picks dev b i) : i ∈ s.lru := by
  rcases h with h | h
  · exact h.1
  · exact h.1

end Sys

/-- The list has no repetitions, a block has at most one buffer, an unreferenced buffer is
unlocked. -/
structure CacheOk (dev : Nat) (s : Sys) : Prop where
  nodup : s.lru.Nodup
  uniq : ∀ b i j, s.Has dev b i → s.Has dev b j → i = j
  free : ∀ i ∈ s.lru, (s.buf i).refcnt = 0 → (s.buf i).lock = none

/-! ## `bget` and `bread` -/

theorem cached_has (h : cached s dev b = some i) : s.Has dev b i := by
  have h₁ := List.mem_of_find?_eq_some h
  have h₂ := List.find?_some h
  simp only [Bool.and_eq_true, beq_iff_eq] at h₂
  exact ⟨h₁, h₂.1, h₂.2⟩

theorem cached_eq_none : cached s dev b = none ↔ ∀ j, ¬ s.Has dev b j := by
  unfold cached
  rw [List.find?_eq_none]
  constructor
  · rintro h j ⟨hj, hd, hb⟩
    exact h j hj (by simp [hd, hb])
  · intro h j hj hp
    simp only [Bool.and_eq_true, beq_iff_eq] at hp
    exact h j ⟨hj, hp.1, hp.2⟩

theorem CacheOk.cached_eq (hc : CacheOk dev s) (h : s.Has dev b i) : cached s dev b = some i := by
  cases hf : cached s dev b with
  | none => exact absurd h (cached_eq_none.mp hf i)
  | some j => rw [hc.uniq b j i (cached_has hf) h]

theorem unused_spec (h : unused s = some i) : i ∈ s.lru ∧ (s.buf i).refcnt = 0 := by
  have h₁ := List.mem_of_find?_eq_some h
  have h₂ := List.find?_some h
  exact ⟨List.mem_reverse.mp h₁, by simpa using h₂⟩

theorem unused_eq_none : unused s = none ↔ ∀ i ∈ s.lru, (s.buf i).refcnt ≠ 0 := by
  unfold unused
  simp [List.find?_eq_none]

/-- `bread` in terms of the picked buffer. It sleeps when the block's buffer is locked and panics
when the block has no buffer and every buffer is referenced. -/
theorem wp_bread {Q : Nat → Sys → Prop} {E : Stop → Sys → Prop} (hc : CacheOk dev s)
    (hQ : ∀ i, s.Picks dev b i → (s.buf i).lock = none → Q i (s.got p dev b i))
    (hsleep : ∀ i, s.Has dev b i → (s.buf i).lock ≠ none →
      E .sleep (s.setBuf i { s.buf i with refcnt := (s.buf i).refcnt + 1 }))
    (hpanic : (∀ i ∈ s.lru, (s.buf i).refcnt ≠ 0) → (∀ i, ¬ s.Has dev b i) → E (.panic .bget) s) :
    wp (bread p dev b) Q E s := by
  unfold bread bget
  simp only [wp_bind, wp_get]
  cases hf : cached s dev b with
  | some i =>
      have hi := cached_has hf
      simp only [wp_bind, wp_set, acquiresleep, wp_get, Sys.setBuf_buf, update_self]
      apply wp_ite
      · intro hl
        simp only [wp_throw]
        exact hsleep i hi (by simpa [Option.isSome_iff_ne_none] using hl)
      · intro hl
        have hl' : (s.buf i).lock = none := by simpa using hl
        have := hQ i (Or.inl hi) hl'
        simp only [wp_set, wp_pure, Sys.setBuf_buf, update_self, Sys.setBuf_setBuf]
        simp only [Sys.got, Sys.view, hf] at this
        apply wp_ite
        · intro hv
          simpa [hv, hi.2.1, hi.2.2] using this
        · intro hv
          simpa [hv, diskRw, holdingsleep, hi.2.1, hi.2.2] using this
  | none =>
      have hno := cached_eq_none.mp hf
      simp only
      cases hu : unused s with
      | none => exact hpanic (unused_eq_none.mp hu) hno
      | some i =>
          obtain ⟨hi, hr⟩ := unused_spec hu
          have hl := hc.free i hi hr
          have := hQ i (Or.inr ⟨hi, hno, hr⟩) hl
          simp only [Sys.got, Sys.view, hf, hr] at this
          simpa [acquiresleep, hl, diskRw, holdingsleep] using this

/-! ## `bwrite` and `brelse` -/

theorem wp_bwrite {Q : Unit → Sys → Prop} {E : Stop → Sys → Prop} (hl : (s.buf i).lock = some p)
    (hQ : Q () (s.written i)) : wp (bwrite p i) Q E s := by
  simpa [bwrite, diskRw, holdingsleep, hl, Sys.written] using hQ

theorem wp_brelse {Q : Unit → Sys → Prop} {E : Stop → Sys → Prop} (hi : i ∈ s.lru)
    (hl : (s.buf i).lock = some p) (hQ : ∀ l, l.Perm s.lru → Q () (s.released i l)) :
    wp (brelse p i) Q E s := by
  simp only [brelse, holdingsleep, hl, releasesleep, wp_bind, wp_get, beq_self_eq_true,
    not_true_eq_false, ite_false, wp_modify, Sys.setBuf_buf, update_self, Sys.setBuf_setBuf,
    Sys.setBuf_lru]
  apply wp_ite
  · intro _
    simpa [Sys.released, Sys.setBuf] using hQ _ (List.perm_cons_erase hi).symm
  · intro _
    simpa [Sys.released, Sys.setBuf] using hQ _ (List.Perm.refl _)

/-! ## The references of a buffer -/

/-- The reference of the lock's holder. -/
def Buf.holders (x : Buf) : Nat := if x.lock.isSome then 1 else 0

/-- The reference of the log, for a buffer of a block in `P`. -/
def Buf.pins (x : Buf) (dev : Nat) (P : List Nat) : Nat := if x.dev = dev ∧ x.blockno ∈ P then 1 else 0

/-- The blocks in `P` are pinned: each has a valid buffer, and every buffer has one reference for
its holder, one for its pin, and `ext` others. -/
structure PinOk (dev : Nat) (P : List Nat) (ext : Nat → Nat) (s : Sys) : Prop where
  nodup : s.lru.Nodup
  uniq : ∀ b i j, s.Has dev b i → s.Has dev b j → i = j
  refs : ∀ i ∈ s.lru, (s.buf i).refcnt = (s.buf i).holders + (s.buf i).pins dev P + ext i
  pinned : ∀ b ∈ P, ∃ i, s.Has dev b i ∧ (s.buf i).valid = true

variable {P : List Nat} {ext : Nat → Nat} {l : List Nat} {d : Block}

namespace PinOk

theorem cacheOk (h : PinOk dev P ext s) : CacheOk dev s where
  nodup := h.nodup
  uniq := h.uniq
  free := by
    intro i hi hr
    have := h.refs i hi
    cases hl : (s.buf i).lock with
    | none => rfl
    | some q => simp [Buf.holders, hl] at this; omega

theorem congr (h : PinOk dev P ext s) (hb : t.buf = s.buf) (hl : t.lru = s.lru) :
    PinOk dev P ext t := by
  obtain ⟨h₁, h₂, h₃, h₄⟩ := h
  constructor
  · rwa [hl]
  · simpa only [Sys.Has, hb, hl] using h₂
  · simpa only [hb, hl] using h₃
  · simpa only [Sys.Has, hb, hl] using h₄

theorem not_mem_of_refcnt_eq_zero (h : PinOk dev P ext s) (hi : s.Has dev b i)
    (hr : (s.buf i).refcnt = 0) : b ∉ P := by
  intro hb
  have := h.refs i hi.1
  simp [Buf.pins, hi.2.1, hi.2.2, hb] at this
  omega

theorem got (h : PinOk dev P ext s) (hi : s.Picks dev b i) (hl : (s.buf i).lock = none) :
    PinOk dev P ext (s.got p dev b i) := by
  -- another buffer of the block would be the one picked
  have hother : ∀ j, s.Has dev b j → j = i := by
    intro j hj
    rcases hi with hi | ⟨_, hno, _⟩
    · exact h.uniq b j i hj hi
    · exact absurd hj (hno j)
  have hhas : ∀ c j, j ≠ i → ((s.got p dev b i).Has dev c j ↔ s.Has dev c j) := by
    intro c j hj
    simp [Sys.got, Sys.Has, hj]
  constructor
  · exact h.nodup
  · intro c j k hj hk
    by_cases hji : j = i <;> by_cases hki : k = i
    · rw [hji, hki]
    · have hc : c = b := by subst hji; simpa [Sys.got, Sys.Has] using hj.2.2.symm
      subst hc
      exact absurd (hother k ((hhas _ _ hki).mp hk)) hki
    · have hc : c = b := by subst hki; simpa [Sys.got, Sys.Has] using hk.2.2.symm
      subst hc
      exact absurd (hother j ((hhas _ _ hji).mp hj)) hji
    · exact h.uniq c j k ((hhas _ _ hji).mp hj) ((hhas _ _ hki).mp hk)
  · intro j hj
    by_cases hji : j = i
    · subst hji
      have hr := h.refs j hj
      simp only [Sys.got, Sys.setBuf_buf, update_self, Buf.holders, Buf.pins, hl,
        Option.isSome_none, Option.isSome_some] at hr ⊢
      rcases hi with hi | ⟨_, hno, h₀⟩
      · simp only [hi.2.1, hi.2.2] at hr
        simp at hr ⊢; omega
      · have hb : b ∉ P := fun hb => by
          obtain ⟨k, hk, _⟩ := h.pinned b hb
          exact hno k hk
        simp [hb] at hr ⊢; omega
    · simpa [Sys.got, hji] using h.refs j hj
  · intro c hc
    obtain ⟨j, hj, hv⟩ := h.pinned c hc
    by_cases hji : j = i
    · subst hji
      have hcb : c = b := by
        rcases hi with hi | ⟨_, _, h₀⟩
        · rw [← hj.2.2, hi.2.2]
        · exact absurd hc (h.not_mem_of_refcnt_eq_zero hj h₀)
      subst hcb
      exact ⟨j, ⟨hj.1, by simp [Sys.got], by simp [Sys.got]⟩, by simp [Sys.got]⟩
    · exact ⟨j, (hhas _ _ hji).mpr hj, by simpa [Sys.got, hji] using hv⟩

/-- A change of one buffer that keeps its block, and may keep or drop references, keeps `PinOk` when
the references still add up. -/
theorem setBuf {P' : List Nat} (h : PinOk dev P ext s) (x : Buf) (hd : x.dev = (s.buf i).dev)
    (hb : x.blockno = (s.buf i).blockno) (hv : (s.buf i).valid = true → x.valid = true)
    (hsub : ∀ c ∈ P', c ∈ P ∨ ∃ j, s.Has dev c j ∧ (s.buf j).valid = true)
    (hi : i ∈ s.lru → x.refcnt = x.holders + x.pins dev P' + ext i)
    (hrest : ∀ j ∈ s.lru, j ≠ i → (s.buf j).pins dev P' = (s.buf j).pins dev P) :
    PinOk dev P' ext (s.setBuf i x) := by
  have hhas : ∀ c j, (s.setBuf i x).Has dev c j ↔ s.Has dev c j := by
    intro c j
    by_cases hji : j = i
    · subst hji; simp [Sys.Has, hd, hb]
    · simp [Sys.Has, hji]
  constructor
  · exact h.nodup
  · intro c j k hj hk
    exact h.uniq c j k ((hhas c j).mp hj) ((hhas c k).mp hk)
  · intro j hj
    by_cases hji : j = i
    · subst hji; simpa using hi hj
    · have := h.refs j hj
      simpa [hji, hrest j hj hji] using this
  · intro c hc
    obtain ⟨j, hj, hjv⟩ : ∃ j, s.Has dev c j ∧ (s.buf j).valid = true := by
      rcases hsub c hc with hc | hc
      · exact h.pinned c hc
      · exact hc
    refine ⟨j, (hhas c j).mpr hj, ?_⟩
    by_cases hji : j = i
    · subst hji; simpa using hv hjv
    · simpa [hji] using hjv

theorem perm (h : PinOk dev P ext s) (hl : l.Perm s.lru) : PinOk dev P ext { s with lru := l } := by
  constructor
  · exact hl.nodup_iff.mpr h.nodup
  · intro c j k hj hk
    exact h.uniq c j k ⟨hl.mem_iff.mp hj.1, hj.2⟩ ⟨hl.mem_iff.mp hk.1, hk.2⟩
  · intro j hj
    exact h.refs j (hl.mem_iff.mp hj)
  · intro c hc
    obtain ⟨j, hj, hv⟩ := h.pinned c hc
    exact ⟨j, ⟨hl.mem_iff.mpr hj.1, hj.2⟩, hv⟩

theorem released (h : PinOk dev P ext s) (hlock : (s.buf i).lock = some p) (hl : l.Perm s.lru) :
    PinOk dev P ext (s.released i l) := by
  have h' : PinOk dev P ext
      (s.setBuf i { s.buf i with lock := none, refcnt := (s.buf i).refcnt - 1 }) := by
    refine h.setBuf _ rfl rfl id (fun c hc => Or.inl hc) (fun hi => ?_) (fun _ _ _ => rfl)
    have := h.refs i hi
    simp only [Buf.holders, hlock, Option.isSome_some, ite_true] at this
    simp [Buf.holders, Buf.pins] at this ⊢
    omega
  exact h'.perm hl

theorem withData (h : PinOk dev P ext s) (i : Nat) (d : Block) : PinOk dev P ext (s.withData i d) :=
  h.setBuf _ rfl rfl id (fun _ hc => Or.inl hc) (fun hi => h.refs i hi) (fun _ _ _ => rfl)

theorem written (h : PinOk dev P ext s) (i : Nat) : PinOk dev P ext (s.written i) :=
  h.congr rfl rfl

theorem pin (h : PinOk dev P ext s) (hi : s.Has dev b i) (hv : (s.buf i).valid = true) (hb : b ∉ P) :
    PinOk dev (P ++ [b]) ext (s.pinned i) := by
  refine congr (h.setBuf (i := i) { s.buf i with refcnt := (s.buf i).refcnt + 1 } rfl rfl id (fun c hc => ?_)
    (fun hm => ?_) (fun j hj hji => ?_)) rfl rfl
  · rcases List.mem_append.mp hc with hc | hc
    · exact Or.inl hc
    · rw [List.mem_singleton.mp hc]; exact Or.inr ⟨i, hi, hv⟩
  · have := h.refs i hm
    simp [Buf.pins, Buf.holders, hi.2.1, hi.2.2, hb] at this ⊢
    omega
  · have : ¬ ((s.buf j).dev = dev ∧ (s.buf j).blockno = b) := fun hh => hji (h.uniq b j i ⟨hj, hh⟩ hi)
    simp only [Buf.pins, List.mem_append, List.mem_singleton]
    congr 1
    simp only [eq_iff_iff]
    tauto

theorem unpinned (h : PinOk dev (b :: P) ext s) (hi : s.Has dev b i) (hb : b ∉ P) :
    PinOk dev P ext (s.unpinned i) := by
  refine congr (h.setBuf (i := i) { s.buf i with refcnt := (s.buf i).refcnt - 1 } rfl rfl id
    (fun c hc => Or.inl (List.mem_cons_of_mem _ hc)) (fun hm => ?_) (fun j hj hji => ?_)) rfl rfl
  · have := h.refs i hm
    simp [Buf.pins, Buf.holders, hi.2.1, hi.2.2, hb] at this ⊢
    omega
  · have : ¬ ((s.buf j).dev = dev ∧ (s.buf j).blockno = b) := fun hh => hji (h.uniq b j i ⟨hj, hh⟩ hi)
    simp only [Buf.pins, List.mem_cons]
    congr 1
    simp only [eq_iff_iff]
    tauto

end PinOk

/-! ## The contents `bread` returns -/

theorem CacheOk.view_has (h : CacheOk dev s) (hi : s.Has dev b i) :
    s.view dev b = if (s.buf i).valid then (s.buf i).data else s.disk b := by
  simp [Sys.view, h.cached_eq hi]

theorem view_none (h : ∀ j, ¬ s.Has dev b j) : s.view dev b = s.disk b := by
  simp [Sys.view, cached_eq_none.mpr h]

theorem view_congr (hs : CacheOk dev s) (ht : CacheOk dev t)
    (hhas : ∀ i, t.Has dev b i ↔ s.Has dev b i)
    (hbuf : ∀ i, s.Has dev b i → (t.buf i).valid = (s.buf i).valid ∧ (t.buf i).data = (s.buf i).data)
    (hdisk : t.disk b = s.disk b) : t.view dev b = s.view dev b := by
  by_cases h : ∃ i, s.Has dev b i
  · obtain ⟨i, hi⟩ := h
    rw [hs.view_has hi, ht.view_has ((hhas i).mpr hi), (hbuf i hi).1, (hbuf i hi).2, hdisk]
  · have h' : ∀ i, ¬ s.Has dev b i := fun i hi => h ⟨i, hi⟩
    rw [view_none h', view_none fun i hi => h' i ((hhas i).mp hi), hdisk]

/-- Getting a block does not change what is read of that block, of a pinned block, or of one whose
cached copy agrees with the disk. -/
theorem PinOk.view_got {c : Nat} (h : PinOk dev P ext s) (hi : s.Picks dev b i)
    (hl : (s.buf i).lock = none) (hc : c = b ∨ c ∈ P ∨ s.view dev c = s.disk c) :
    (s.got p dev b i).view dev c = s.view dev c := by
  have h' := (h.got (p := p) hi hl).cacheOk
  by_cases hcb : c = b
  · subst hcb
    have : (s.got p dev c i).Has dev c i := ⟨hi.mem, by simp [Sys.got], by simp [Sys.got]⟩
    rw [h'.view_has this]
    simp [Sys.got]
  · by_cases hci : s.Has dev c i
    · -- buffer `i` was taken from block `c`
      have hr : (s.buf i).refcnt = 0 := by
        rcases hi with hi | hi
        · exact absurd (hci.2.2.symm.trans hi.2.2) hcb
        · exact hi.2.2
      have hd : s.view dev c = s.disk c := by
        rcases hc with hc | hc | hc
        · exact absurd hc hcb
        · exact absurd hc (h.not_mem_of_refcnt_eq_zero hci hr)
        · exact hc
      rw [hd, view_none]
      · rfl
      · intro j hj
        by_cases hji : j = i
        · subst hji
          exact hcb (by simpa [Sys.got, Sys.Has] using hj.2.2.symm)
        · exact hji (h.uniq c j i (by simpa [Sys.got, Sys.Has, hji] using hj) hci)
    · apply view_congr h.cacheOk h'
      · intro j
        by_cases hji : j = i
        · subst hji
          refine ⟨fun hj => absurd ?_ hcb, fun hj => absurd hj hci⟩
          simpa [Sys.got, Sys.Has] using hj.2.2.symm
        · simp [Sys.got, Sys.Has, hji]
      · intro j hj
        have hji : j ≠ i := by rintro rfl; exact hci hj
        simp [Sys.got, hji]
      · rfl

theorem PinOk.view_released (h : PinOk dev P ext s) (hlock : (s.buf i).lock = some p)
    (hl : l.Perm s.lru) (c : Nat) : (s.released i l).view dev c = s.view dev c := by
  apply view_congr h.cacheOk (h.released hlock hl).cacheOk
  · intro j
    by_cases hji : j = i
    · subst hji; simp [Sys.released, Sys.Has, hl.mem_iff]
    · simp [Sys.released, Sys.Has, hl.mem_iff, hji]
  · intro j _
    by_cases hji : j = i
    · subst hji; simp [Sys.released]
    · simp [Sys.released, hji]
  · rfl

theorem PinOk.has_withData (c j : Nat) : (s.withData i d).Has dev c j ↔ s.Has dev c j := by
  by_cases hji : j = i
  · subst hji; simp [Sys.withData, Sys.Has]
  · simp [Sys.withData, Sys.Has, hji]

theorem PinOk.view_withData (h : PinOk dev P ext s) (hi : s.Has dev b i) (hv : (s.buf i).valid = true) :
    (s.withData i d).view dev b = d := by
  rw [(h.withData i d).cacheOk.view_has ((has_withData b i).mpr hi)]
  simp [Sys.withData, hv]

theorem PinOk.view_withData_of_ne {c : Nat} (h : PinOk dev P ext s) (hi : s.Has dev b i) (hc : c ≠ b) :
    (s.withData i d).view dev c = s.view dev c := by
  apply view_congr h.cacheOk (h.withData i d).cacheOk (has_withData c)
  · intro j hj
    have hji : j ≠ i := by rintro rfl; exact hc (hj.2.2.symm.trans hi.2.2)
    simp [Sys.withData, hji]
  · rfl

theorem PinOk.view_written (h : PinOk dev P ext s) (hi : s.Has dev b i) (hv : (s.buf i).valid = true)
    (c : Nat) : (s.written i).view dev c = s.view dev c := by
  by_cases hc : c = b
  · subst hc
    rw [h.cacheOk.view_has hi, (h.written i).cacheOk.view_has hi]
    simp [Sys.written, hv]
  · apply view_congr h.cacheOk (h.written i).cacheOk (fun _ => Iff.rfl) (fun _ _ => ⟨rfl, rfl⟩)
    simp [Sys.written, hi.2.2, hc]

theorem PinOk.view_unpinned (h : PinOk dev (b :: P) ext s) (hi : s.Has dev b i) (hb : b ∉ P) (c : Nat) :
    (s.unpinned i).view dev c = s.view dev c := by
  apply view_congr h.cacheOk (h.unpinned hi hb).cacheOk
  · intro j
    by_cases hji : j = i
    · subst hji; simp [Sys.unpinned, Sys.record, Sys.Has]
    · simp [Sys.unpinned, Sys.record, Sys.Has, hji]
  · intro j _
    by_cases hji : j = i
    · subst hji; simp [Sys.unpinned, Sys.record]
    · simp [Sys.unpinned, Sys.record, hji]
  · rfl

end Xv6.Log
