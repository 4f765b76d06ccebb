import Xv6.Log.System
import Xv6.Log.Lemmas.Body

/-!
# What the log's code keeps of the buffer cache

`CacheInv dev P` holds between any two steps of any process: the blocks `P` are pinned, a held
buffer belongs to the log's device and has the contents of its block. The lemmas hold in every state;
where the code stops, it stops in the buffer cache.
-/

namespace Xv6.Log

open Lib

variable {s t : Sys} {p dev b c i : Nat} {P : List Nat}

structure CacheInv (dev : Nat) (P : List Nat) (s : Sys) : Prop where
  pin : PinOk dev P (fun _ => 0) s
  held : ∀ i, (s.buf i).lock.isSome → i ∈ s.lru ∧ (s.buf i).dev = dev ∧ (s.buf i).valid = true
  lru : s.lru.Perm (List.range nbuf)

/-- The stops of the buffer cache. -/
def BioStop : Stop → Prop
  | .sleep => True
  | .panic e => e = .bget ∨ e = .bwrite ∨ e = .brelse ∨ e = .diskNotLocked

/-- `t` has the log and the history of `s`, and the blocks `P` are pinned in it. -/
structure Kept (dev : Nat) (P : List Nat) (s t : Sys) : Prop where
  inv : CacheInv dev P t
  log : t.log = s.log
  hist : t.hist = s.hist

namespace CacheInv

theorem congr (h : CacheInv dev P s) (hb : t.buf = s.buf) (hl : t.lru = s.lru) : CacheInv dev P t := by
  refine ⟨h.pin.congr hb hl, ?_, hl ▸ h.lru⟩
  rw [hb, hl]
  exact h.held

/-- A change of buffer `j` that keeps what `held` looks at, or releases the buffer. -/
theorem of_pinOk {P' : List Nat} {j : Nat} (h : CacheInv dev P s) (hpin : PinOk dev P' (fun _ => 0) t)
    (hlru : t.lru.Perm s.lru) (hne : ∀ i, i ≠ j → t.buf i = s.buf i)
    (hj : (t.buf j).lock.isSome → j ∈ s.lru ∧ (t.buf j).dev = dev ∧ (t.buf j).valid = true) :
    CacheInv dev P' t := by
  refine ⟨hpin, fun i hi => ?_, hlru.trans h.lru⟩
  rw [hlru.mem_iff]
  by_cases hij : i = j
  · subst hij
    exact hj hi
  · rw [hne i hij] at hi ⊢
    exact h.held i hi

theorem got (h : CacheInv dev P s) (hi : s.Picks dev b i) (hl : (s.buf i).lock = none) :
    CacheInv dev P (s.got p dev b i) := by
  refine h.of_pinOk (j := i) (h.pin.got hi hl) (.refl _) (fun k hk => ?_) fun _ => ⟨hi.mem, ?_, ?_⟩
  · simp [Sys.got, hk]
  · simp [Sys.got]
  · simp [Sys.got]

theorem released {l : List Nat} (h : CacheInv dev P s) (hlock : (s.buf i).lock = some p)
    (hl : l.Perm s.lru) : CacheInv dev P (s.released i l) := by
  refine h.of_pinOk (j := i) (h.pin.released hlock hl) hl (fun k hk => ?_) fun hi => ?_
  · simp [Sys.released, hk]
  · simp [Sys.released] at hi

theorem of_setBuf {P' : List Nat} {x : Buf} (h : CacheInv dev P s)
    (hpin : PinOk dev P' (fun _ => 0) (s.setBuf i x)) (hl : x.lock = (s.buf i).lock)
    (hd : x.dev = (s.buf i).dev) (hv : x.valid = (s.buf i).valid) : CacheInv dev P' (s.setBuf i x) := by
  refine h.of_pinOk (j := i) hpin (.refl _) (fun k hk => ?_) fun hi => ?_
  · simp [hk]
  · simp only [Sys.setBuf_buf, Function.update_self, hl, hd, hv] at hi ⊢
    exact h.held i hi

theorem withData (h : CacheInv dev P s) (i : Nat) (d : Block) : CacheInv dev P (s.withData i d) :=
  h.of_setBuf (h.pin.withData i d) rfl rfl rfl

theorem written (h : CacheInv dev P s) (i : Nat) : CacheInv dev P (s.written i) := h.congr rfl rfl

theorem pinned (h : CacheInv dev P s) (hi : s.Has dev b i) (hl : (s.buf i).lock.isSome) (hb : b ∉ P) :
    CacheInv dev (P ++ [b]) (s.pinned i) := by
  have hpin := h.pin.pin hi (h.held i hl).2.2 hb
  exact (h.of_setBuf (hpin.congr rfl rfl) rfl rfl rfl).congr rfl rfl

theorem unpinned (h : CacheInv dev (b :: P) s) (hi : s.Has dev b i) (hb : b ∉ P) :
    CacheInv dev P (s.unpinned i) := by
  have hpin := h.pin.unpinned hi hb
  exact (h.of_setBuf (hpin.congr rfl rfl) rfl rfl rfl).congr rfl rfl

theorem setLh (h : CacheInv dev P s) (lh : List Nat) : CacheInv dev P (s.setLh lh) := h.congr rfl rfl

end CacheInv

/-! ## The operations of the cache -/

theorem bread_keep (h : CacheInv dev P s) :
    wp (bread p dev b) (fun i t => Kept dev P s t ∧ t.Has dev b i ∧ (t.buf i).lock = some p)
      (fun e _ => BioStop e) s := by
  apply wp_bread h.pin.cacheOk
  · intro i hi hl
    exact ⟨⟨h.got hi hl, rfl, rfl⟩, hi.has_got, by simp [Sys.got]⟩
  · intro i _ _
    trivial
  · intro _ _
    exact Or.inl rfl

theorem brelse_keep (h : CacheInv dev P s) :
    wp (brelse p i) (fun _ t => Kept dev P s t) (fun e _ => BioStop e) s := by
  by_cases hl : (s.buf i).lock = some p
  · apply wp_brelse (h.held i (by simp [hl])).1 hl
    intro l hperm
    exact ⟨h.released hl hperm, rfl, rfl⟩
  · simp [brelse, holdingsleep, hl, BioStop]

theorem bwrite_keep (h : CacheInv dev P s) :
    wp (bwrite p i) (fun _ t => Kept dev P s t ∧ t.buf = s.buf ∧ t.lru = s.lru) (fun e _ => BioStop e) s := by
  by_cases hl : (s.buf i).lock = some p
  · exact wp_bwrite hl ⟨⟨h.written i, rfl, rfl⟩, rfl, rfl⟩
  · simp [bwrite, holdingsleep, hl, BioStop]

theorem Kept.trans {u : Sys} {P' : List Nat} (h : Kept dev P s t) (h' : Kept dev P' t u) :
    Kept dev P' s u :=
  ⟨h'.inv, h'.log.trans h.log, h'.hist.trans h.hist⟩

theorem brelse₂_keep {x y : Nat} {Q : Unit → Sys → Prop} (h : CacheInv dev P s)
    (hQ : ∀ t, Kept dev P s t → Q () t) :
    wp (brelse p x) (fun _ t => wp (brelse p y) Q (fun e _ => BioStop e) t) (fun e _ => BioStop e) s := by
  refine wp_post (brelse_keep h) fun _ t ht => ?_
  refine wp_post (brelse_keep ht.inv) fun _ u hu => ?_
  exact hQ u (ht.trans hu)

/-! ## `write_log`, `write_head` and `install_trans` -/

theorem writeLogCopy_keep {dst : Nat} (h : CacheInv dev P s) :
    wp (writeLogCopy p dev b dst) (fun _ t => Kept dev P s t) (fun e _ => BioStop e) s := by
  simp only [writeLogCopy, wp_bind]
  refine wp_post (bread_keep h) ?_
  rintro src t ⟨ht, _, _⟩
  simp only [copyData, wp_modify]
  have h₁ : Kept dev P s (t.withData dst (t.buf src).data) := ⟨ht.inv.withData _ _, ht.log, ht.hist⟩
  refine wp_post (bwrite_keep h₁.inv) ?_
  rintro _ u ⟨hu, _, _⟩
  exact brelse₂_keep hu.inv fun v hv => (h₁.trans hu).trans hv

theorem writeHead_keep (h : CacheInv dev P s) (hdev : s.log.dev = dev) :
    wp (writeHead p) (fun _ t => Kept dev P s t) (fun e _ => BioStop e) s := by
  simp only [writeHead, wp_bind, wp_get, hdev]
  refine wp_post (bread_keep h) ?_
  rintro i t ⟨ht, _, _⟩
  simp only [wp_modify]
  have h₁ : Kept dev P s (t.withData i (putHead t.log.lh (t.buf i).data)) :=
    ⟨ht.inv.withData _ _, ht.log, ht.hist⟩
  refine wp_post (bwrite_keep h₁.inv) ?_
  rintro _ u ⟨hu, _, _⟩
  refine wp_post (brelse_keep hu.inv) fun _ v hv => ?_
  exact (h₁.trans hu).trans hv

theorem installCopy_keep {lbuf : Nat} (h : CacheInv dev (b :: P) s) (hb : b ∉ P) :
    wp (installCopy p false dev b lbuf)
      (fun _ t => CacheInv dev P t ∧ t.log = s.log ∧ t.hist = s.hist ++ [.unpin b])
      (fun e _ => BioStop e) s := by
  simp only [installCopy, wp_bind]
  refine wp_post (bread_keep h) ?_
  rintro dbuf t ⟨ht, hhas, _⟩
  simp only [copyData, wp_modify]
  have h₁ : Kept dev (b :: P) s (t.withData dbuf (t.buf lbuf).data) :=
    ⟨ht.inv.withData _ _, ht.log, ht.hist⟩
  refine wp_post (bwrite_keep h₁.inv) ?_
  rintro _ u ⟨hu, hbuf, hlru⟩
  simp only [Bool.false_eq_true, not_false_eq_true, if_true, wp_bind, bunpin, wp_modify]
  have hhas' : u.Has dev b dbuf := by
    rw [Sys.Has, hbuf, hlru]
    exact (PinOk.has_withData b dbuf).mpr hhas
  refine brelse₂_keep (hu.inv.unpinned hhas' hb) fun w hw => ⟨hw.inv, ?_, ?_⟩
  · rw [hw.log]
    exact hu.log.trans h₁.log
  · rw [hw.hist]
    show u.hist ++ [.unpin (u.buf dbuf).blockno] = _
    rw [hhas'.2.2, hu.hist.trans h₁.hist]

end Xv6.Log
