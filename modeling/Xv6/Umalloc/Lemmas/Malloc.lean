import Xv6.Umalloc.Lemmas.Ring

/-!
# The blocks of the heap

Free and live blocks together cover the regions that `sbrk` gave, each address once. `malloc` makes a free
block, or the end of one, a live block, and asks for another region if no free block is large enough.
-/

namespace Xv6.Umalloc

open Lib Function

variable {h h' : Heap} {l l₁ l₂ live regions : List Extents.Extent} {a p n fuel : Nat} {x y : Extents.Extent}

/-- The free blocks are `l`, the others `live`; `regions` are the regions they lie in. -/
structure HeapOk (h : Heap) (l live regions : List Extents.Extent) : Prop where
  ring : Ring h l
  sized : ∀ x ∈ live, x.2 = headerSize * h.size x.1 ∧ 0 < x.2
  perm : (Extents.covers (l ++ live)).Perm (Extents.covers regions)
  nodup : (Extents.covers regions).Nodup
  above : ∀ x ∈ regions, h.base < x.1

theorem HeapOk.nodup_blocks (hok : HeapOk h l live regions) : (Extents.covers (l ++ live)).Nodup := hok.perm.nodup_iff.2 hok.nodup

theorem HeapOk.pos (hok : HeapOk h l live regions) (hx : x ∈ l ++ live) : 0 < x.2 := by
  rcases List.mem_append.1 hx with hx | hx
  · exact (hok.ring.size x hx).2
  · exact (hok.sized x hx).2

theorem HeapOk.mem_region (hok : HeapOk h l live regions) (hx : x ∈ l ++ live) (ha : a ∈ Extents.cover x) :
    ∃ y ∈ regions, a ∈ Extents.cover y :=
  Extents.mem_covers.1 (hok.perm.mem_iff.1 (Extents.mem_covers.2 ⟨x, hx, ha⟩))

theorem HeapOk.above_base (hok : HeapOk h l live regions) (hx : x ∈ l ++ live) : h.base < x.1 := by
  obtain ⟨y, hy, h₂⟩ := hok.mem_region hx (Extents.mem_cover.2 ⟨Nat.le_refl _, Nat.lt_add_of_pos_right (hok.pos hx)⟩)
  exact Nat.lt_of_lt_of_le (hok.above y hy) (Extents.mem_cover.1 h₂).1

theorem HeapOk.stop_le {r : Nat} (hok : HeapOk h l live regions) (hr : ∀ y ∈ regions, y.1 + y.2 ≤ r) (hx : x ∈ l ++ live) :
    x.1 + x.2 ≤ r := by
  have hpos := hok.pos hx
  obtain ⟨y, hy, h₂⟩ := hok.mem_region (a := x.1 + x.2 - 1) hx (Extents.mem_cover.2 (by omega))
  have h₃ := hr y hy
  have h₄ := Extents.mem_cover.1 h₂
  omega

theorem HeapOk.disjoint (hok : HeapOk h l live regions) {rest : List Extents.Extent} (hperm : (l ++ live).Perm (x :: rest))
    (hy : y ∈ rest) : Extents.Disjoint x y := by
  have hnd := (Extents.covers_perm hperm).nodup_iff.1 hok.nodup_blocks
  have hmem : ∀ z ∈ x :: rest, 0 < z.2 := fun z hz => hok.pos (hperm.mem_iff.2 hz)
  exact Extents.disjoint_of_nodup hnd (hmem x List.mem_cons_self) hy (hmem y (List.mem_cons_of_mem x hy))

theorem perm_block (x : Extents.Extent) (l₁ l₂ live : List Extents.Extent) :
    (l₁ ++ x :: l₂ ++ live).Perm (x :: (l₁ ++ l₂ ++ live)) := by
  rw [List.append_assoc, List.append_assoc]
  exact List.perm_middle

theorem HeapOk.free_ne (hok : HeapOk h l live regions) (hx : x ∈ l) (hy : y ∈ live) : x.1 ≠ y.1 := by
  obtain ⟨l₁, l₂, rfl⟩ := List.append_of_mem hx
  exact (hok.disjoint (perm_block x l₁ l₂ live) (List.mem_append_right _ hy)).ne (hok.pos (List.mem_append_left _ hx)) (hok.pos (List.mem_append_right _ hy))

theorem HeapOk.sum (hok : HeapOk h l live regions) :
    (l.map Prod.snd).sum + (live.map Prod.snd).sum = (regions.map Prod.snd).sum := by
  have h₁ := hok.perm.length_eq
  rw [Extents.length_covers, Extents.length_covers, List.map_append, List.sum_append] at h₁
  exact h₁

/-! ## `free` -/

theorem HeapOk.free (hok : HeapOk h l (x :: live) regions) (htotal : (regions.map Prod.snd).sum < headerSize * 2 ^ 32)
    (hf : l.length < fuel) :
    ∃ h', h.free fuel (x.1 + headerSize) = some h' ∧ h'.base = h.base ∧ HeapOk h' (Extents.insert x l) live regions := by
  have hx := hok.sized x List.mem_cons_self
  have hsz : 0 < h.size x.1 := by
    have h₁ := hx.2
    rw [hx.1] at h₁
    exact Nat.pos_of_mul_pos_left h₁
  have heq : (x.1, headerSize * h.size x.1) = x := Prod.ext rfl hx.1.symm
  have hperm : (l ++ x :: live).Perm (x :: (l ++ live)) := List.perm_middle
  have hd : ∀ y ∈ l ++ live, Extents.Disjoint x y := fun y hy => hok.disjoint hperm hy
  have hsum := hok.sum
  rw [List.map_cons, List.sum_cons] at hsum
  obtain ⟨h', hfree, hfreed⟩ := hok.ring.free (hok.above_base (List.mem_append_right _ List.mem_cons_self)) hsz
    (fun y hy => by rw [heq]; exact (hd y (List.mem_append_left _ hy)).symm) (by rw [← hx.1]; omega) hf
  refine ⟨h', hfree, hfreed.base, ?_⟩
  have hring := hfreed.ring
  rw [heq] at hring
  refine ⟨hring, fun y hy => ?_, ?_, hok.nodup, ?_⟩
  · rw [hfreed.frame]
    · exact hok.sized y (List.mem_cons_of_mem x hy)
    · simp only [List.mem_cons, List.mem_map, not_or, not_exists, not_and]
      have hy' : y ∈ l ++ x :: live := List.mem_append_right _ (List.mem_cons_of_mem x hy)
      refine ⟨Nat.ne_of_gt (hok.above_base hy'), ?_, fun z hz h₁ => ?_⟩
      · exact ((hd y (List.mem_append_right _ hy)).ne hx.2 (hok.pos hy')).symm
      · exact hok.free_ne hz (List.mem_cons_of_mem x hy) h₁
  · refine List.Perm.trans ?_ hok.perm
    rw [Extents.covers_append, Extents.covers_append, Extents.covers_cons]
    refine ((Extents.covers_insert x l).append_right _).trans ?_
    rw [List.append_assoc]
    exact List.perm_append_comm_assoc _ _ _
  · rw [hfreed.base]
    exact hok.above

/-! ## `take` -/

/-- A free block has been taken, or its end: the block `q` of `n` units. -/
structure Taken (h : Heap) (l live regions : List Extents.Extent) (x : Extents.Extent) (n : Nat) (h' : Heap) (q : Nat)
    (l' : List Extents.Extent) : Prop where
  ok : HeapOk h' l' ((q, headerSize * n) :: live) regions
  base : h'.base = h.base
  stop : q + headerSize * n = x.1 + x.2
  length : l'.length ≤ l.length

section

variable (hok : HeapOk h (l₁ ++ x :: l₂) live regions)

include hok

theorem take_all (he : h.size x.1 = n) :
    Taken h (l₁ ++ x :: l₂) live regions x n
      { h.setPtr ((l₁.map Prod.fst).getLastD h.base) (h.ptr x.1) with freep := (l₁.map Prod.fst).getLastD h.base } x.1 (l₁ ++ l₂) := by
  have hlinks := hok.ring.links
  have hnodup := hok.ring.nodup
  rw [List.map_append, List.map_cons] at hlinks hnodup
  have hsize := hok.ring.size x (List.mem_append_right _ List.mem_cons_self)
  have hsub : (l₁ ++ l₂).Sublist (l₁ ++ x :: l₂) := List.Sublist.append_left (List.sublist_cons_self x l₂) l₁
  have hxe : (x.1, headerSize * n) = x := Prod.ext rfl (by rw [← he]; exact hsize.1.symm)
  refine ⟨⟨⟨?_, hok.ring.gaps.sublist hsub, fun y hy => hok.ring.size y (hsub.subset hy),
    fun y hy => hok.ring.above y (hsub.subset hy), hok.ring.base, ?_⟩, ?_, ?_, hok.nodup, hok.above⟩, rfl, ?_, hsub.length_le⟩
  · rw [List.map_append]
    exact hlinks.remove hnodup
  · rw [List.map_append, ← List.cons_append]
    exact List.mem_append_left _ (getLastD_mem _ _)
  · intro y hy
    rw [hxe] at hy
    rcases List.mem_cons.1 hy with rfl | hy
    · exact hsize
    · exact hok.sized y hy
  · rw [hxe]
    exact (Extents.covers_perm (List.perm_middle.trans (perm_block x l₁ l₂ live).symm)).trans hok.perm
  · rw [hsize.1, he]

/-- The last `n` units of the block `x` are taken, and `m` remain. -/
theorem take_end {m : Nat} (hm : 0 < m) (hn : 0 < n) (he : h.size x.1 = m + n) (hlt : h.size x.1 < 2 ^ 32) (prevp : Nat)
    (hprev : prevp ∈ h.base :: l₁.map Prod.fst) :
    Taken h (l₁ ++ x :: l₂) live regions x n
      { (h.setSize x.1 m).setSize (x.1 + headerSize * m) n with freep := prevp } (x.1 + headerSize * m)
      (l₁ ++ (x.1, headerSize * m) :: l₂) := by
  have hsize := hok.ring.size x (List.mem_append_right _ List.mem_cons_self)
  have hx₂ : x.2 = headerSize * m + headerSize * n := by rw [hsize.1, he, Nat.mul_add]
  have hpos := Nat.mul_pos (show 0 < headerSize by decide) hm
  have hpos' := Nat.mul_pos (show 0 < headerSize by decide) hn
  -- no other block starts at `x` or in its end
  have hother : ∀ y ∈ l₁ ++ l₂ ++ live, y.1 ≠ x.1 ∧ y.1 ≠ x.1 + headerSize * m := fun y hy => by
    have h₁ := hok.disjoint (perm_block x l₁ l₂ live) hy
    have h₂ := hok.pos ((perm_block x l₁ l₂ live).mem_iff.2 (List.mem_cons_of_mem x hy))
    unfold Extents.Disjoint at h₁
    omega
  have hbase := hok.ring.above x (List.mem_append_right _ List.mem_cons_self)
  have hsz : ∀ a, a ≠ x.1 ∧ a ≠ x.1 + headerSize * m →
      ((h.setSize x.1 m).setSize (x.1 + headerSize * m) n).size a = h.size a := fun a ha => by
    rw [setSize_size, update_of_ne ha.2, setSize_size, update_of_ne ha.1]
  have hszx : ((h.setSize x.1 m).setSize (x.1 + headerSize * m) n).size x.1 = m := by
    rw [setSize_size, update_of_ne (by omega), setSize_size, update_self, Nat.mod_eq_of_lt (by omega)]
  have hszq : ((h.setSize x.1 m).setSize (x.1 + headerSize * m) n).size (x.1 + headerSize * m) = n := by
    rw [setSize_size, update_self, Nat.mod_eq_of_lt (by omega)]
  have hmap : (l₁ ++ (x.1, headerSize * m) :: l₂).map Prod.fst = (l₁ ++ x :: l₂).map Prod.fst := by simp
  refine ⟨⟨⟨?_, hok.ring.gaps.shorten (by omega), fun y hy => ?_, fun y hy => ?_, ?_, ?_⟩, fun y hy => ?_, ?_, hok.nodup, hok.above⟩,
    rfl, by omega, by simp⟩
  · rw [hmap]
    exact hok.ring.links
  · rcases List.mem_cons.1 (List.perm_middle.mem_iff.1 hy) with rfl | hy
    · exact ⟨by rw [hszx], hpos⟩
    · rw [hsz y.1 (hother y (List.mem_append_left _ hy))]
      exact hok.ring.size y (List.perm_middle.mem_iff.2 (List.mem_cons_of_mem x hy))
  · rcases List.mem_cons.1 (List.perm_middle.mem_iff.1 hy) with rfl | hy
    · exact hbase
    · exact hok.ring.above y (List.perm_middle.mem_iff.2 (List.mem_cons_of_mem x hy))
  · show ((h.setSize x.1 m).setSize (x.1 + headerSize * m) n).size h.base = 0
    rw [hsz h.base (by omega)]
    exact hok.ring.base
  · rw [hmap, List.map_append, ← List.cons_append]
    exact List.mem_append_left _ hprev
  · rcases List.mem_cons.1 hy with rfl | hy
    · exact ⟨by rw [hszq], hpos'⟩
    · rw [hsz y.1 (hother y (List.mem_append_right _ hy))]
      exact hok.sized y hy
  · refine List.Perm.trans ?_ hok.perm
    refine (Extents.covers_perm List.perm_middle).trans ?_
    refine List.Perm.trans ?_ (Extents.covers_perm (perm_block x l₁ l₂ live)).symm
    have hcover : Extents.cover x = Extents.cover (x.1, headerSize * m) ++ Extents.cover (x.1 + headerSize * m, headerSize * n) := by
      rw [← Extents.cover_add, ← hx₂]
    rw [Extents.covers_cons, Extents.covers_cons, hcover, List.append_assoc (Extents.cover _)]
    refine List.Perm.trans ((Extents.covers_perm (perm_block _ l₁ l₂ live)).append_left _) ?_
    rw [Extents.covers_cons]
    exact List.perm_append_comm_assoc _ _ _

theorem HeapOk.take (htotal : (regions.map Prod.snd).sum < headerSize * 2 ^ 32) (hn : 0 < n) (hfit : n ≤ h.size x.1) :
    ∃ l', Taken h (l₁ ++ x :: l₂) live regions x n (h.take n ((l₁.map Prod.fst).getLastD h.base) x.1).1
      (h.take n ((l₁.map Prod.fst).getLastD h.base) x.1).2 l' := by
  unfold Heap.take
  by_cases he : h.size x.1 = n
  · rw [if_pos he]
    exact ⟨_, take_all hok he⟩
  · have hsum := hok.sum
    have hsize := hok.ring.size x (List.mem_append_right _ List.mem_cons_self)
    have hlt : h.size x.1 < 2 ^ 32 := by
      rw [List.map_append, List.map_cons, List.sum_append, List.sum_cons] at hsum
      unfold headerSize at hsize htotal
      omega
    have hm : (h.setSize x.1 (h.size x.1 - n)).size x.1 = h.size x.1 - n := by
      rw [setSize_size, update_self, Nat.mod_eq_of_lt (by omega)]
    rw [if_neg he]
    simp only [hm]
    exact ⟨_, take_end hok (m := h.size x.1 - n) (by omega) hn (by omega) hlt _ (getLastD_mem _ _)⟩

end

end Xv6.Umalloc
