import Xv6.Lib.Extents
import Xv6.Lib.Linked
import Xv6.Umalloc.Umalloc

/-!
# The free list

The free blocks form a ring with `base`, in the order of their addresses. `free` adds a block in its
place and joins it with its neighbours.
-/

namespace Xv6.Umalloc

open Lib Function

variable {h h' : Heap} {l l₁ l₂ : List Extents.Extent} {bp p a fuel : Nat} {x : Extents.Extent}

/-! ## Fields -/

@[simp] theorem setPtr_base (h : Heap) (p x : Nat) : (h.setPtr p x).base = h.base := rfl
@[simp] theorem setPtr_size (h : Heap) (p x : Nat) : (h.setPtr p x).size = h.size := rfl
@[simp] theorem setPtr_freep (h : Heap) (p x : Nat) : (h.setPtr p x).freep = h.freep := rfl
@[simp] theorem setPtr_ptr (h : Heap) (p x : Nat) : (h.setPtr p x).ptr = update h.ptr p x := rfl
@[simp] theorem setSize_base (h : Heap) (p x : Nat) : (h.setSize p x).base = h.base := rfl
@[simp] theorem setSize_ptr (h : Heap) (p x : Nat) : (h.setSize p x).ptr = h.ptr := rfl
@[simp] theorem setSize_freep (h : Heap) (p x : Nat) : (h.setSize p x).freep = h.freep := rfl
@[simp] theorem setSize_size (h : Heap) (p x : Nat) : (h.setSize p x).size = update h.size p (x % 2 ^ 32) := rfl

/-! ## The ring -/

/-- The free blocks are `l`, with their lengths in bytes. -/
structure Ring (h : Heap) (l : List Extents.Extent) : Prop where
  links : Linked h.ptr h.base (l.map Prod.fst) h.base
  gaps : Extents.Gaps l
  size : ∀ x ∈ l, x.2 = headerSize * h.size x.1 ∧ 0 < x.2
  above : ∀ x ∈ l, h.base < x.1
  base : h.size h.base = 0
  freep : h.freep ∈ h.base :: l.map Prod.fst

theorem Ring.sorted (hr : Ring h l) : (h.base :: l.map Prod.fst).Pairwise (· < ·) := by
  refine List.pairwise_cons.2 ⟨fun a ha => ?_, hr.gaps.starts⟩
  obtain ⟨x, hx, rfl⟩ := List.mem_map.1 ha
  exact hr.above x hx

theorem Ring.nodup (hr : Ring h l) : (h.base :: l.map Prod.fst).Nodup := hr.sorted.imp Nat.ne_of_lt

/-! ## The loop of `free` -/

/-- The loop stops at `p`. -/
def Heap.stops (h : Heap) (bp p : Nat) : Bool :=
  decide (p < bp ∧ bp < h.ptr p) || decide (h.ptr p ≤ p ∧ (p < bp ∨ bp < h.ptr p))

theorem place_eq_search (h : Heap) (bp fuel p : Nat) : h.place bp fuel p = search h.ptr (h.stops bp) fuel p := by
  induction fuel generalizing p with
  | zero => rfl
  | succ fuel ih =>
      rw [Heap.place, search, ih, Heap.stops]
      split
      · rename_i h₁
        simp [h₁]
      · rename_i h₁
        split
        · rename_i h₂
          simp [h₂]
        · rename_i h₂
          rw [decide_eq_false h₁, decide_eq_false h₂]
          rfl

theorem stops_iff : h.stops bp p = true ↔ (p < bp ∧ bp < h.ptr p) ∨ (h.ptr p ≤ p ∧ (p < bp ∨ bp < h.ptr p)) := by
  unfold Heap.stops
  rw [Bool.or_eq_true, decide_eq_true_eq, decide_eq_true_eq]

/-- The nodes below and above `bp`; the loop stops at the last one below. -/
theorem stops_iff_last {m₁ m₂ : List Nat} (hlinks : Linked h.ptr h.base (m₁ ++ m₂) h.base)
    (hsorted : (h.base :: (m₁ ++ m₂)).Pairwise (· < ·)) (h₁ : ∀ a ∈ h.base :: m₁, a < bp) (h₂ : ∀ a ∈ m₂, bp < a)
    (ha : a ∈ h.base :: (m₁ ++ m₂)) : h.stops bp a = true ↔ a = m₁.getLastD h.base := by
  have hbase : h.base < bp := h₁ h.base List.mem_cons_self
  have hlast := h₁ _ (getLastD_mem m₁ h.base)
  have hle : h.base ≤ a := by
    rcases List.mem_cons.1 ha with rfl | ha
    · exact Nat.le_refl _
    · exact Nat.le_of_lt (List.rel_of_pairwise_cons hsorted ha)
  -- a node below `bp` that is not the last one
  have hlow : h.ptr a ∈ m₁ ∧ a < h.ptr a → ¬ h.stops bp a = true := fun ⟨h₃, h₄⟩ h₅ => by
    have h₆ := h₁ _ (List.mem_cons_of_mem h.base h₃)
    rw [stops_iff] at h₅
    omega
  rw [← List.cons_append, List.mem_append] at ha
  cases m₂ with
  | nil =>
      rw [List.append_nil] at hlinks hsorted
      rw [List.mem_nil_iff, or_false] at ha
      constructor
      · intro hs
        rcases hlinks.next hsorted ha with ⟨h₃, -⟩ | h₃
        · exact h₃
        · exact absurd hs (hlow h₃)
      · rintro rfl
        rw [stops_iff, hlinks.last]
        exact .inr ⟨hle, .inl hlast⟩
  | cons q m =>
      obtain ⟨hl₁, hl₂⟩ := Linked.append_iff.1 hlinks
      rw [← List.cons_append, List.pairwise_append] at hsorted
      have hq := h₂ q List.mem_cons_self
      constructor
      · intro hs
        rcases ha with ha | ha
        · rcases hl₁.next hsorted.1 ha with ⟨h₃, -⟩ | h₃
          · exact h₃
          · exact absurd hs (hlow h₃)
        · have hhigh := h₂ a ha
          rw [stops_iff] at hs
          rcases hl₂.next hsorted.2.1 ha with ⟨-, h₃⟩ | ⟨-, h₃⟩ <;> omega
      · rintro rfl
        rw [stops_iff, hl₁.last]
        exact .inl ⟨hlast, hq⟩

/-- The loop of `free` finds the last block before `bp`. -/
theorem Ring.place (hr : Ring h (l₁ ++ l₂)) (hbase : h.base < bp) (h₁ : ∀ y ∈ l₁, y.1 < bp) (h₂ : ∀ y ∈ l₂, bp < y.1)
    (hf : (l₁ ++ l₂).length < fuel) : h.place bp fuel h.freep = some ((l₁.map Prod.fst).getLastD h.base) := by
  have hlinks := hr.links
  have hsorted := hr.sorted
  have hfreep := hr.freep
  rw [List.map_append] at hlinks hsorted hfreep
  have hlow : ∀ a ∈ h.base :: l₁.map Prod.fst, a < bp := fun a ha => by
    rcases List.mem_cons.1 ha with rfl | ha
    · exact hbase
    · obtain ⟨x, hx, rfl⟩ := List.mem_map.1 ha
      exact h₁ x hx
  have hhigh : ∀ a ∈ l₂.map Prod.fst, bp < a := fun a ha => by
    obtain ⟨x, hx, rfl⟩ := List.mem_map.1 ha
    exact h₂ x hx
  rw [place_eq_search]
  refine search_ring hlinks hfreep ?_ (fun a ha => stops_iff_last hlinks hsorted hlow hhigh ha) ?_
  · rw [← List.cons_append]
    exact List.mem_append_left _ (getLastD_mem _ h.base)
  · rw [← List.map_append, List.length_map]
    exact hf

/-! ## Joining blocks -/

/-- The block `bp` before the blocks `l₂`, which follow `p`. -/
structure Tail (h : Heap) (bp : Nat) (l₂ : List Extents.Extent) (h' : Heap) (n : Nat) (r : List Extents.Extent) : Prop where
  join : Extents.join (bp, headerSize * h.size bp) l₂ = (bp, n) :: r
  links : Linked h'.ptr bp (r.map Prod.fst) h.base
  len : n = headerSize * h'.size bp
  pos : headerSize * h.size bp ≤ n
  total : n + (r.map Prod.snd).sum = (l₂.map Prod.snd).sum + headerSize * h.size bp
  sub : ∀ y ∈ r, y ∈ l₂
  frame : ∀ a, a ≠ bp → h'.size a = h.size a ∧ h'.ptr a = h.ptr a
  base : h'.base = h.base

theorem joinNext_spec (hbase : h.base < bp) (hlinks : Linked h.ptr p (l₂.map Prod.fst) h.base) (h₂ : ∀ y ∈ l₂, bp < y.1)
    (hsize : ∀ y ∈ l₂, y.2 = headerSize * h.size y.1) (hover : (l₂.map Prod.snd).sum + headerSize * h.size bp < headerSize * 2 ^ 32) :
    ∃ len r, Tail h bp l₂ (h.joinNext bp p) len r := by
  cases l₂ with
  | nil =>
      have hend : h.ptr p = h.base := hlinks
      have hno : ¬ bp + headerSize * h.size bp = h.ptr p := by omega
      rw [Heap.joinNext, if_neg hno, hend]
      exact ⟨_, [], rfl, update_self .., rfl, Nat.le_refl _, by simp, by simp,
        fun a ha => ⟨rfl, update_of_ne ha ..⟩, rfl⟩
  | cons y l =>
      have hnext : h.ptr p = y.1 := hlinks.1
      have hnot : bp ∉ (y :: l).map Prod.fst := fun hm => by
        obtain ⟨z, hz, rfl⟩ := List.mem_map.1 hm
        exact absurd (h₂ z hz) (Nat.lt_irrefl _)
      have hsz := hsize y List.mem_cons_self
      rw [List.map_cons, List.sum_cons] at hover
      rw [Heap.joinNext, hnext]
      by_cases hj : bp + headerSize * h.size bp = y.1
      · have hlt : h.size bp + h.size y.1 < 2 ^ 32 := by
          unfold headerSize at hover hsz
          omega
        rw [if_pos hj]
        refine ⟨headerSize * h.size bp + y.2, l, if_pos hj, ?_, ?_, Nat.le_add_right _ _, ?_,
          fun z hz => List.mem_cons_of_mem y hz, fun a ha => ?_, rfl⟩
        · exact hlinks.2.replaceHead fun hm => hnot (List.mem_cons_of_mem _ hm)
        · rw [setPtr_size, setSize_size, update_self, Nat.mod_eq_of_lt hlt, hsz, Nat.mul_add]
        · rw [List.map_cons, List.sum_cons]
          omega
        · exact ⟨update_of_ne ha .., update_of_ne ha ..⟩
      · rw [if_neg hj]
        refine ⟨headerSize * h.size bp, y :: l, if_neg hj, ?_, rfl, Nat.le_refl _, Nat.add_comm _ _, fun z hz => hz, fun a ha => ?_, rfl⟩
        · refine ⟨update_self .., hlinks.2.congr fun a ha => update_of_ne ?_ ..⟩
          rintro rfl
          exact hnot ha
        · exact ⟨rfl, update_of_ne ha ..⟩

/-- What `free` leaves. -/
structure Freed (h : Heap) (l : List Extents.Extent) (bp : Nat) (h' : Heap) : Prop where
  ring : Ring h' (Extents.insert (bp, headerSize * h.size bp) l)
  base : h'.base = h.base
  frame : ∀ a, a ∉ h.base :: bp :: l.map Prod.fst → h'.size a = h.size a

section

variable (hr : Ring h l) (hbase : h.base < bp) (hsz : 0 < h.size bp)
  (hd : ∀ y ∈ l, Extents.Disjoint y (bp, headerSize * h.size bp))
  (hover : (l.map Prod.snd).sum + headerSize * h.size bp < headerSize * 2 ^ 32)

include hr hbase hsz hd hover

theorem freed_first (h₂ : ∀ y ∈ l, bp < y.1) :
    Freed h l bp { (h.joinNext bp h.base).joinPrev bp h.base with freep := h.base } := by
  obtain ⟨len, r, ht⟩ := joinNext_spec hbase hr.links h₂ (fun y hy => (hr.size y hy).1) hover
  generalize h.joinNext bp h.base = h₁ at ht
  have hne : h.base ≠ bp := Nat.ne_of_lt hbase
  have hno : ¬ h₁.base + headerSize * h₁.size h.base = bp := by
    rw [(ht.frame _ hne).1, hr.base, ht.base]
    omega
  have hgaps := hr.gaps.insert (x := (bp, headerSize * h.size bp)) (Nat.mul_pos (by decide) hsz) hd
  have habove : ∀ x ∈ (bp, len) :: r, h.base < x.1 := fun x hx => by
    rcases List.mem_cons.1 hx with rfl | hx
    · exact hbase
    · exact hr.above x (ht.sub x hx)
  rw [ht.base] at hno
  rw [Heap.joinPrev, if_neg hno]
  refine ⟨?_, ht.base, fun a ha => ?_⟩
  · rw [Extents.insert_of_lt h₂, ht.join] at hgaps ⊢
    refine ⟨?_, hgaps, fun x hx => ?_, ?_, ?_, ?_⟩
    · show Linked (update h₁.ptr h.base bp) h₁.base _ h₁.base
      rw [ht.base]
      refine ⟨update_self .., ht.links.congr fun a ha => update_of_ne ?_ ..⟩
      rcases List.mem_cons.1 ha with rfl | ha
      · exact Nat.ne_of_gt hbase
      · obtain ⟨x, hx, rfl⟩ := List.mem_map.1 ha
        exact Nat.ne_of_gt (habove x (List.mem_cons_of_mem _ hx))
    · rcases List.mem_cons.1 hx with rfl | hx
      · exact ⟨ht.len, Nat.lt_of_lt_of_le (Nat.mul_pos (by decide) hsz) ht.pos⟩
      · have hx' := hr.size x (ht.sub x hx)
        rw [← (ht.frame x.1 (Nat.ne_of_gt (h₂ x (ht.sub x hx)))).1] at hx'
        exact hx'
    · show ∀ x ∈ (bp, len) :: r, h₁.base < x.1
      rw [ht.base]
      exact habove
    · show h₁.size h₁.base = 0
      rw [ht.base, (ht.frame _ hne).1, hr.base]
    · show h.base ∈ h₁.base :: _
      rw [ht.base]
      exact List.mem_cons_self
  · exact (ht.frame a fun h₃ => ha (by simp [h₃])).1

theorem freed_after {y : Extents.Extent} (hl : l = l₁ ++ y :: l₂) (h₁ : ∀ z ∈ l₁ ++ [y], z.1 < bp) (h₂ : ∀ z ∈ l₂, bp < z.1) :
    Freed h l bp { (h.joinNext bp y.1).joinPrev bp y.1 with freep := y.1 } := by
  subst hl
  have hlinks := hr.links
  have hnodup := hr.nodup
  rw [List.map_append, List.map_cons] at hlinks hnodup
  obtain ⟨hlinks₁, hlinks₂⟩ := Linked.append_iff.1 hlinks
  have hy := h₁ y (List.mem_append_right _ (List.mem_singleton.2 rfl))
  have hysz := hr.size y (List.mem_append_right _ List.mem_cons_self)
  rw [List.map_append, List.sum_append, List.map_cons, List.sum_cons] at hover
  obtain ⟨len, r, ht⟩ := joinNext_spec hbase hlinks₂ h₂
    (fun z hz => (hr.size z (List.mem_append_right _ (List.mem_cons_of_mem y hz))).1) (by omega)
  generalize h.joinNext bp y.1 = h' at ht
  have hysz' : y.2 = headerSize * h'.size y.1 := by
    rw [(ht.frame y.1 (Nat.ne_of_lt hy)).1]
    exact hysz.1
  have hgaps := hr.gaps.insert (x := (bp, headerSize * h.size bp)) (Nat.mul_pos (by decide) hsz) hd
  have hinsert : Extents.insert (bp, headerSize * h.size bp) (l₁ ++ y :: l₂) = l₁ ++ Extents.join y ((bp, len) :: r) := by
    rw [Extents.insert_append hr.gaps h₁ h₂, ht.join]
  -- the nodes before `y` are as they were
  have hlow : ∀ a ∈ h.base :: l₁.map Prod.fst, a ≠ bp ∧ a ≠ y.1 := fun a ha => by
    rw [← List.cons_append, List.nodup_append] at hnodup
    refine ⟨?_, fun h₃ => hnodup.2.2 a ha y.1 List.mem_cons_self h₃⟩
    rcases List.mem_cons.1 ha with rfl | ha
    · exact Nat.ne_of_lt hbase
    · obtain ⟨z, hz, rfl⟩ := List.mem_map.1 ha
      exact Nat.ne_of_lt (h₁ z (List.mem_append_left _ hz))
  have hhigh : ∀ z ∈ r, bp < z.1 := fun z hz => h₂ z (ht.sub z hz)
  have hhigh' : y.1 ∉ r.map Prod.fst := fun hm => by
    obtain ⟨z, hz, h₃⟩ := List.mem_map.1 hm
    have h₄ := hhigh z hz
    omega
  have hpre : ∀ x, Linked (update h'.ptr y.1 x) h.base (l₁.map Prod.fst) y.1 := fun x =>
    hlinks₁.congr fun a ha => by rw [update_of_ne (hlow a ha).2, (ht.frame a (hlow a ha).1).2]
  have hold : ∀ z, z ∈ l₁ ∨ z ∈ r → z.1 ≠ y.1 ∧ z.2 = headerSize * h'.size z.1 ∧ 0 < z.2 := fun z hz => by
    have h₃ : z.1 ≠ bp ∧ z.1 ≠ y.1 := by
      rcases hz with hz | hz
      · exact hlow z.1 (List.mem_cons_of_mem _ (List.mem_map_of_mem hz))
      · have h₃ := hhigh z hz
        omega
    have h₄ : z ∈ l₁ ++ y :: l₂ := by
      rcases hz with hz | hz
      · exact List.mem_append_left _ hz
      · exact List.mem_append_right _ (List.mem_cons_of_mem y (ht.sub z hz))
    rw [(ht.frame z.1 h₃.1).1]
    exact ⟨h₃.2, hr.size z h₄⟩
  have habove : ∀ z, z ∈ l₁ ∨ z ∈ r → h.base < z.1 := fun z hz => by
    rcases hz with hz | hz
    · exact hr.above z (List.mem_append_left _ hz)
    · exact Nat.lt_trans hbase (hhigh z hz)
  have hyabove := hr.above y (List.mem_append_right _ List.mem_cons_self)
  have hbase₀ : h'.size h.base = 0 := by
    rw [(ht.frame h.base (Nat.ne_of_lt hbase)).1, hr.base]
  have hlen : 0 < len := Nat.lt_of_lt_of_le (Nat.mul_pos (by decide) hsz) ht.pos
  have hframe : ∀ a, a ∉ h.base :: bp :: (l₁ ++ y :: l₂).map Prod.fst → a ≠ y.1 ∧ h'.size a = h.size a := fun a ha => by
    refine ⟨fun h₃ => ha (by simp [h₃]), (ht.frame a fun h₃ => ha (by simp [h₃])).1⟩
  rw [Heap.joinPrev]
  by_cases hj : y.1 + y.2 = bp
  · have htotal := ht.total
    have hlt : h'.size y.1 + h'.size bp < 2 ^ 32 := by
      have h₃ := ht.len
      unfold headerSize at hysz' hover htotal h₃
      omega
    rw [if_pos (hysz' ▸ hj)]
    rw [hinsert, Extents.join, if_pos hj] at hgaps
    refine ⟨?_, ht.base, fun a ha => ?_⟩
    · rw [hinsert, Extents.join, if_pos hj]
      refine ⟨?_, hgaps, fun x hx => ?_, fun x hx => ?_, ?_, ?_⟩
      · show Linked (update h'.ptr y.1 (h'.ptr bp)) h'.base _ h'.base
        rw [ht.base, List.map_append, List.map_cons]
        exact Linked.append_iff.2 ⟨hpre _, ht.links.replaceHead hhigh'⟩
      · show x.2 = headerSize * update h'.size y.1 ((h'.size y.1 + h'.size bp) % 2 ^ 32) x.1 ∧ 0 < x.2
        rcases List.mem_append.1 hx with hx | hx
        · rw [update_of_ne (hold x (.inl hx)).1]
          exact (hold x (.inl hx)).2
        · rcases List.mem_cons.1 hx with rfl | hx
          · rw [update_self, Nat.mod_eq_of_lt hlt, Nat.mul_add, ← hysz', ← ht.len]
            exact ⟨rfl, Nat.add_pos_right _ hlen⟩
          · rw [update_of_ne (hold x (.inr hx)).1]
            exact (hold x (.inr hx)).2
      · show h'.base < x.1
        rw [ht.base]
        rcases List.mem_append.1 hx with hx | hx
        · exact habove x (.inl hx)
        · rcases List.mem_cons.1 hx with rfl | hx
          · exact hyabove
          · exact habove x (.inr hx)
      · show update h'.size y.1 ((h'.size y.1 + h'.size bp) % 2 ^ 32) h'.base = 0
        rw [ht.base, update_of_ne (Nat.ne_of_lt hyabove), hbase₀]
      · simp
    · show update h'.size y.1 ((h'.size y.1 + h'.size bp) % 2 ^ 32) a = h.size a
      rw [update_of_ne (hframe a ha).1]
      exact (hframe a ha).2
  · rw [if_neg (hysz' ▸ hj)]
    rw [hinsert, Extents.join, if_neg hj] at hgaps
    refine ⟨?_, ht.base, fun a ha => (hframe a ha).2⟩
    rw [hinsert, Extents.join, if_neg hj]
    refine ⟨?_, hgaps, fun x hx => ?_, fun x hx => ?_, ?_, ?_⟩
    · show Linked (update h'.ptr y.1 bp) h'.base _ h'.base
      rw [ht.base, List.map_append, List.map_cons]
      refine Linked.append_iff.2 ⟨hpre _, update_self .., ht.links.congr fun a ha => update_of_ne ?_ ..⟩
      rintro rfl
      rcases List.mem_cons.1 ha with h₃ | h₃
      · omega
      · exact hhigh' h₃
    · rcases List.mem_append.1 hx with hx | hx
      · exact (hold x (.inl hx)).2
      · rcases List.mem_cons.1 hx with rfl | hx
        · exact ⟨hysz', hysz.2⟩
        · rcases List.mem_cons.1 hx with rfl | hx
          · exact ⟨ht.len, hlen⟩
          · exact (hold x (.inr hx)).2
    · show h'.base < x.1
      rw [ht.base]
      rcases List.mem_append.1 hx with hx | hx
      · exact habove x (.inl hx)
      · rcases List.mem_cons.1 hx with rfl | hx
        · exact hyabove
        · rcases List.mem_cons.1 hx with rfl | hx
          · exact hbase
          · exact habove x (.inr hx)
    · show h'.size h'.base = 0
      rw [ht.base, hbase₀]
    · simp

theorem Ring.free (hf : l.length < fuel) : ∃ h', h.free fuel (bp + headerSize) = some h' ∧ Freed h l bp h' := by
  have hne : ∀ y ∈ l, y.1 ≠ bp := fun y hy => by
    have h₁ := hd y hy
    have h₂ := (hr.size y hy).2
    have h₃ := Nat.mul_pos (show 0 < headerSize by decide) hsz
    unfold Extents.Disjoint at h₁
    simp only at h₁
    omega
  obtain ⟨l₁, l₂, rfl, h₁, h₂⟩ := hr.gaps.split hne
  have hplace := hr.place hbase h₁ h₂ hf
  unfold Heap.free
  rw [Nat.add_sub_cancel]
  simp only [hplace, Option.bind_eq_bind, Option.bind_some]
  refine ⟨_, rfl, ?_⟩
  rcases List.eq_nil_or_concat l₁ with rfl | ⟨l₀, y, rfl⟩
  · exact freed_first hr hbase hsz hd hover h₂
  · rw [List.concat_eq_append] at *
    rw [List.map_append, List.map_singleton, List.getLastD_concat]
    exact freed_after hr hbase hsz hd hover (by simp) h₁ h₂

end

end Xv6.Umalloc
