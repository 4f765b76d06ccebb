import Mathlib.Algebra.BigOperators.Ring.List
import Mathlib.Algebra.Ring.Nat
import Xv6.Umalloc.Lemmas.Loop
import Xv6.Umalloc.System

/-!
# Runs of a program

Each step keeps the heap in order.
-/

namespace Xv6.Umalloc

open Lib Function

variable {h : Heap} {w w' : Program} {l live live' regions : List Extents.Extent} {a b r n fuel nbytes : Nat}
  {answer : Option Nat} {x : Extents.Extent}

/-! ## The invariant -/

/-- The free blocks are `l` and the others `live`. -/
structure ProgOk (w : Program) (l live : List Extents.Extent) : Prop where
  good : Good w.heap l live w.regions
  live : (live.map Prod.fst).Perm w.live
  total : (w.regions.map Prod.snd).sum < headerSize * 2 ^ 32
  fresh : w.heap.freep = 0 → w.regions = []

theorem HeapOk.perm_live (hok : HeapOk h l live regions) (hp : live.Perm live') : HeapOk h l live' regions :=
  ⟨hok.ring, fun x hx => hok.sized x (hp.mem_iff.2 hx), (Extents.covers_perm (hp.symm.append_left l)).trans hok.perm, hok.nodup, hok.above⟩

theorem toInt_of_lt (hn : n < 2 ^ 31) : toInt n = n := by
  exact Int.bmod_eq_of_le (by omega) (by omega)

theorem malloc_ok (hw : ProgOk w l live) (hok : w.ok (.malloc fuel nbytes answer)) (hb : w.Bounded (.malloc fuel nbytes answer))
    {k : Nat} (hf : 2 * l.length + 3 < k) :
    ∃ res u, malloc Env.sbrk k nbytes ⟨w.heap, ⟨answer, w.regions⟩⟩ = .ok res u ∧
      (res = 0 ∧ answer = none ∧ ProgOk ⟨u.heap, w.live, u.sys.regions⟩ l live ∨
        ∃ q l', res = q + headerSize ∧
          ProgOk ⟨u.heap, q :: w.live, u.sys.regions⟩ l' ((q, headerSize * nunits nbytes) :: live)) := by
  obtain ⟨hn, hlt, hr⟩ := hok
  have hlive : ∀ q, (((q, headerSize * nunits nbytes) :: live).map Prod.fst).Perm (q :: w.live) := fun q => hw.live.cons q
  by_cases hfit : Fits l (nunits nbytes)
  · obtain ⟨q, h', l', hm, hg⟩ := malloc_fit (u := ⟨w.heap, ⟨answer, w.regions⟩⟩) hw.good hn Env.sbrk hw.total hfit
      (show l.length < k by omega)
    refine ⟨_, _, hm, .inr ⟨q, l', rfl, hg, hlive q, hw.total, fun h₀ => ?_⟩⟩
    cases hg.started h₀
  · obtain ⟨k, rfl⟩ : ∃ j, k = j + 1 + l.length := ⟨k - 1 - l.length, by omega⟩
    cases answer with
    | none =>
        have hbase : 0 < w.heap.start.base := (Heap.start_base w.heap).symm ▸ hw.good.base
        refine ⟨0, _, malloc_fail hw.good hn hfit rfl, .inl ⟨rfl, rfl, hw.good.ok.good hbase, hw.live, hw.total, fun h₀ => ?_⟩⟩
        exact absurd h₀ (hw.good.ok.freep_ne hbase)
    | some r =>
        obtain ⟨-, hbase, hle⟩ := hr r rfl
        have hb' : (w.regions.map Prod.snd).sum + units (nunits nbytes) * headerSize < 2 ^ 32 * headerSize := hb
        rw [Nat.mul_comm _ headerSize, Nat.mul_comm _ headerSize] at hb'
        have hfresh : Fresh w.heap w.regions r (units (nunits nbytes)) := ⟨by unfold headerSize at hbase; omega, hle, hb'⟩
        have hs : Env.sbrk (toInt (units (nunits nbytes) * headerSize)) ⟨some r, w.regions⟩ =
            .ok (r : Int) ⟨none, (r, headerSize * units (nunits nbytes)) :: w.regions⟩ := by
          rw [toInt_of_lt hlt, Nat.mul_comm]
          rfl
        obtain ⟨h', l', hm, hg⟩ := malloc_grow (u := (⟨w.heap, ⟨some r, w.regions⟩⟩ : Task Env)) hw.good hn hfit hfresh hs
          (show l.length + 1 < k by omega)
        refine ⟨_, _, hm, .inr ⟨_, l', rfl, hg, hlive _, ?_, fun h₀ => ?_⟩⟩
        · rw [List.map_cons, List.sum_cons, Nat.add_comm]
          exact hb'
        · cases hg.started h₀

/-! ## Steps -/

theorem ProgOk.heapOk (hw : ProgOk w l live) (hb : b ∈ w.live) :
    ∃ x live', x.1 = b ∧ live.Perm (x :: live') ∧ HeapOk w.heap l (x :: live') w.regions := by
  obtain ⟨x, hx, rfl⟩ := List.mem_map.1 (hw.live.mem_iff.2 hb)
  obtain ⟨u, v, rfl⟩ := List.append_of_mem hx
  have hp : (u ++ x :: v).Perm (x :: (u ++ v)) := List.perm_middle
  refine ⟨x, u ++ v, rfl, hp, ?_⟩
  have hg : Good w.heap l (x :: (u ++ v)) w.regions := by
    refine ⟨hw.good.ok.perm_live hp, hw.good.base, fun h₀ => ?_⟩
    have h₁ := hw.good.started h₀
    simp at h₁
  exact hg.heapOk

theorem free_ok (hw : ProgOk w l live) (hb : b ∈ w.live) (hf : l.length < fuel) :
    ∃ h l' live', w.heap.free fuel (b + headerSize) = some h ∧ ProgOk { w with heap := h, live := w.live.erase b } l' live' := by
  obtain ⟨x, live', rfl, hp, hok⟩ := hw.heapOk hb
  obtain ⟨h, hfree, hbase, hok'⟩ := hok.free hw.total hf
  have hbase' : 0 < h.base := hbase.symm ▸ hw.good.base
  refine ⟨h, _, live', hfree, hok'.good hbase', ?_, hw.total, fun h₀ => absurd h₀ (hok'.freep_ne hbase')⟩
  have h₁ : (x.1 :: live'.map Prod.fst).Perm w.live := (hp.map Prod.fst).symm.trans hw.live
  have h₂ := h₁.erase x.1
  rw [List.erase_cons_head] at h₂
  exact h₂

theorem HeapOk.write (ptr size : Nat) (hok : HeapOk h l (x :: live) regions) (ha : x.1 < a) (ha' : a < x.1 + x.2) :
    HeapOk { h with ptr := update h.ptr a ptr, size := update h.size a size } l (x :: live) regions := by
  have hperm : (l ++ x :: live).Perm (x :: (l ++ live)) := List.perm_middle
  have hne : ∀ y ∈ l ++ x :: live, y.1 ≠ a := fun y hy => by
    rcases List.mem_cons.1 (hperm.mem_iff.1 hy) with rfl | hy'
    · omega
    · have h₁ := hok.disjoint hperm hy'
      have h₂ := hok.pos hy
      unfold Extents.Disjoint at h₁
      omega
  have hbase := hok.above_base (List.mem_append_right l List.mem_cons_self)
  have hsize : ∀ y ∈ l ++ x :: live, update h.size a size y.1 = h.size y.1 := fun y hy =>
    update_of_ne (hne y hy) ..
  refine ⟨⟨hok.ring.links.congr fun b hb => update_of_ne ?_ .., hok.ring.gaps, fun y hy => ?_, hok.ring.above, ?_, hok.ring.freep⟩,
    fun y hy => ?_, hok.perm, hok.nodup, hok.above⟩
  · rcases List.mem_cons.1 hb with rfl | hb
    · omega
    · obtain ⟨y, hy, rfl⟩ := List.mem_map.1 hb
      exact hne y (List.mem_append_left _ hy)
  · show y.2 = headerSize * update h.size a size y.1 ∧ 0 < y.2
    rw [hsize y (List.mem_append_left _ hy)]
    exact hok.ring.size y hy
  · show update h.size a size h.base = 0
    rw [update_of_ne (by omega)]
    exact hok.ring.base
  · show y.2 = headerSize * update h.size a size y.1 ∧ 0 < y.2
    rw [hsize y (List.mem_append_right _ hy)]
    exact hok.sized y hy

theorem ProgOk.write {ptr size : Nat} (hw : ProgOk w l live) (hok : w.ok (.write a ptr size)) :
    ∃ live', ProgOk { w with heap := { w.heap with ptr := update w.heap.ptr a ptr, size := update w.heap.size a size } }
      l live' := by
  obtain ⟨-, b, hb, h₁, h₂⟩ := hok
  obtain ⟨x, live', rfl, hp, hheap⟩ := hw.heapOk hb
  rw [← (hheap.sized x List.mem_cons_self).1] at h₂
  have hheap' := hheap.write ptr size h₁ h₂
  exact ⟨_, hheap'.good hw.good.base, (hp.map Prod.fst).symm.trans hw.live, hw.total, fun h₀ => absurd h₀ (hheap'.freep_ne hw.good.base)⟩

theorem ProgOk.step {act : Act} (hw : ProgOk w l live) (hok : w.ok act) (hb : w.Bounded act) (hs : w.step act = some (.ok w')) :
    ∃ l' live', ProgOk w' l' live' := by
  cases act with
  | malloc fuel nbytes answer =>
      -- with more steps the result is the same
      obtain ⟨res, u, hm, hres⟩ := malloc_ok hw hok hb (show 2 * l.length + 3 < max fuel (2 * l.length + 4) by omega)
      simp only [Program.step] at hs
      split at hs
      · rename_i res' u' hm'
        rw [malloc_extends (Nat.le_max_left _ _) _ _ _ hm'] at hm
        cases hm
        cases hs
        rcases hres with ⟨rfl, -, h₁⟩ | ⟨q, l', rfl, h₁⟩
        · exact ⟨l, live, h₁⟩
        · rw [if_neg (by simp [headerSize]), Nat.add_sub_cancel]
          exact ⟨l', _, h₁⟩
      · cases hs
      · cases hs
  | free fuel ap =>
      obtain ⟨hle, hmem⟩ := hok
      obtain ⟨b, rfl⟩ : ∃ b, ap = b + headerSize := ⟨ap - headerSize, by omega⟩
      rw [Nat.add_sub_cancel] at hmem
      obtain ⟨h, l', live', hfree, h₁⟩ := free_ok hw hmem (show l.length < max fuel (l.length + 1) by omega)
      simp only [Program.step] at hs
      obtain ⟨h', hfree', hw'⟩ := Option.map_eq_some_iff.1 hs
      rw [Heap.free_mono hfree' (Nat.le_max_left _ _)] at hfree
      cases hfree
      cases hw'
      rw [Nat.add_sub_cancel]
      exact ⟨l', live', h₁⟩
  | write a ptr size =>
      cases hs
      obtain ⟨live', h₁⟩ := hw.write hok
      exact ⟨l, live', h₁⟩

theorem ProgOk.reach {base : Nat} {ptr size : Nat → Nat} (hb : 0 < base)
    (hw : Reach Program.step (fun w l => w.ok l ∧ w.Bounded l) (Program.init base ptr size) w) : ∃ l live, ProgOk w l live := by
  refine hw.inv (I := fun w => ∃ l live, ProgOk w l live) ?_ ?_
  · exact ⟨[], [], good_init hb rfl, .refl _, show 0 < headerSize * 2 ^ 32 by decide, fun _ => rfl⟩
  · rintro w act w' ⟨l, live, h₁⟩ ⟨hok, hbound⟩ hs
    exact h₁.step hok hbound hs

/-! ## What the invariant says -/

theorem ProgOk.started (hw : ProgOk w l live) (h₀ : w.heap.freep ≠ 0) : HeapOk w.heap l live w.regions := by
  have hok := hw.good.ok
  rw [Heap.start, if_neg h₀] at hok
  exact hok

theorem map_block {m : List Extents.Extent} (hm : ∀ x ∈ m, x.2 = headerSize * w.heap.size x.1) : (m.map Prod.fst).map w.block = m := by
  rw [List.map_map]
  have h₁ : m.map (w.block ∘ Prod.fst) = m.map id := List.map_congr_left fun x hx => Prod.ext rfl (hm x hx).symm
  rw [h₁, List.map_id]

theorem ProgOk.blocks (hw : ProgOk w l live) (h₀ : w.heap.freep ≠ 0) :
    ((l.map Prod.fst ++ w.live).map w.block).Perm (l ++ live) := by
  have hok := hw.started h₀
  rw [List.map_append, map_block fun x hx => (hok.ring.size x hx).1]
  refine List.Perm.append_left l ((hw.live.map w.block).symm.trans ?_)
  rw [map_block fun x hx => (hok.sized x hx).1]

theorem ProgOk.freeList (hw : ProgOk w l live) (h₀ : w.heap.freep ≠ 0) : FreeList w.heap (l.map Prod.fst) := by
  have hok := hw.started h₀
  refine ⟨hok.ring.links, hok.ring.freep, hok.ring.sorted, ?_⟩
  rw [List.pairwise_map]
  refine List.Pairwise.imp_of_mem (fun {x y} hx _ h₁ => ?_) hok.ring.gaps
  rw [← (hok.ring.size x hx).1]
  exact h₁

theorem ProgOk.tiled (hw : ProgOk w l live) (h₀ : w.heap.freep ≠ 0) : Tiled w (l.map Prod.fst) := by
  have hok := hw.started h₀
  have hperm := hw.blocks h₀
  refine ⟨?_, fun b hb a ha => ?_, ?_⟩
  · refine (hperm.pairwise_iff fun h₁ => Extents.Disjoint.symm h₁).2 ?_
    exact Extents.pairwise_disjoint hok.nodup_blocks fun x hx => hok.pos hx
  · exact hok.mem_region (hperm.mem_iff.1 (List.mem_map_of_mem hb)) ha
  · have h₁ := (hperm.map Prod.snd).sum_eq
    rw [List.map_map, List.map_append (f := Prod.snd), List.sum_append, hok.sum] at h₁
    rw [← h₁, ← List.sum_map_mul_left]
    rfl

theorem ProgOk.returned (hw : ProgOk w l live) (hok : w.ok (.malloc fuel nbytes answer)) (hb : w.Bounded (.malloc fuel nbytes answer)) :
    ∃ n res u, (∀ k, n ≤ k → malloc Env.sbrk k nbytes ⟨w.heap, ⟨answer, w.regions⟩⟩ = .ok res u) ∧ Returned w nbytes answer res u := by
  obtain ⟨res, u, hm, hres⟩ := malloc_ok hw hok hb (Nat.lt_succ_self _)
  refine ⟨_, res, u, fun k hk => malloc_extends hk _ _ _ hm, ?_⟩
  rcases hres with ⟨rfl, rfl, -⟩ | ⟨q, l', rfl, hw'⟩
  · exact .inl ⟨rfl, rfl⟩
  · have hne : u.heap.freep ≠ 0 := fun h₀ => by cases hw'.good.started h₀
    have hheap : HeapOk u.heap l' ((q, headerSize * nunits nbytes) :: live) u.sys.regions := hw'.started hne
    have hsize : headerSize * nunits nbytes = headerSize * u.heap.size q := (hheap.sized _ List.mem_cons_self).1
    have hlen : nbytes + headerSize ≤ headerSize * nunits nbytes := by
      rw [nunits_eq hok.1]
      unfold headerSize
      omega
    refine .inr ⟨Nat.le_add_left _ _, ?_, fun a ha => ?_, fun b hmem => ?_⟩
    · rw [Nat.add_sub_cancel, ← hsize]
      exact hlen
    · refine hheap.mem_region (List.mem_append_right _ List.mem_cons_self) (Extents.mem_cover.2 ?_)
      have h₁ := Extents.mem_cover.1 ha
      simp only at h₁ ⊢
      omega
    · obtain ⟨x, hx, rfl⟩ := List.mem_map.1 (hw.live.mem_iff.2 hmem)
      have hne' : w.heap.freep ≠ 0 := fun h₀ => by
        rw [hw.good.started h₀] at hx
        cases hx
      have hblock : w.block x.1 = x := Prod.ext rfl ((hw.started hne').sized x hx).1.symm
      have hdis := hheap.disjoint List.perm_middle (List.mem_append_right l' hx)
      rw [hblock, Nat.add_sub_cancel]
      unfold Extents.Disjoint at hdis ⊢
      simp only at hdis ⊢
      omega

end Xv6.Umalloc
