import Xv6.Space.Theorems
import Xv6.Umalloc.Lemmas.Kernel

/-!
# Theorems about the allocator of user programs
-/

namespace Xv6.Umalloc

open Lib

/-! ## Integrity of the heap -/

/-- In every state that a program reaches, while `sbrk` has given fewer than 2^32 units: the free list goes
from `base` through all free blocks in order and back, none touches the next; free and live blocks are
disjoint and make up the regions that `sbrk` gave. `malloc` comes back with a block that is large enough, or
with 0 if `sbrk` fails; `free` comes back. -/
theorem heap_integrity {base : Nat} {ptr size : Nat → Nat} {w : Program} (hb : 0 < base)
    (hw : Reach Program.step (fun w l => w.ok l ∧ w.Bounded l) (Program.init base ptr size) w) :
    (w.heap.freep = 0 ∧ w.live = [] ∧ w.regions = [] ∨ ∃ free, FreeList w.heap free ∧ Tiled w free) ∧
    (∀ nbytes answer, w.ok (.malloc 0 nbytes answer) → w.Bounded (.malloc 0 nbytes answer) →
      ∃ n res u, (∀ k, n ≤ k → malloc Env.sbrk k nbytes ⟨w.heap, ⟨answer, w.regions⟩⟩ = .ok res u) ∧
        Returned w nbytes answer res u) ∧
    ∀ b ∈ w.live, ∃ n h, ∀ k, n ≤ k → w.heap.free k (b + headerSize) = some h := by
  obtain ⟨l, live, hok⟩ := ProgOk.reach hb hw
  refine ⟨?_, fun nbytes answer h₁ h₂ => hok.returned h₁ h₂, fun b hmem => ?_⟩
  · by_cases h₀ : w.heap.freep = 0
    · have h₁ := hok.live
      rw [hok.good.started h₀] at h₁
      exact .inl ⟨h₀, List.nil_perm.1 h₁, hok.fresh h₀⟩
    · exact .inr ⟨_, hok.freeList h₀, hok.tiled h₀⟩
  · obtain ⟨h, l', live', hfree, -⟩ := free_ok hok hmem (Nat.lt_succ_self _)
    exact ⟨_, h, fun k hk => Heap.free_mono hfree hk⟩

/-- A program that calls `malloc(100)` and gets a region at 4096. -/
theorem heap_integrity_block : ∃ w, Reach Program.step (fun w l => w.ok l ∧ w.Bounded l) (Program.init 16 (fun _ => 0) fun _ => 0) w ∧
    w.live = [69504] ∧ ∃ free, FreeList w.heap free ∧ Tiled w free := by
  have hrun : (runIf Program.step (fun w l => w.ok l ∧ w.Bounded l) [.malloc 5 100 (some 4096)]
      (Program.init 16 (fun _ => 0) fun _ => 0)).any (fun w => w.live == [69504] && w.heap.freep == 16) = true := by decide +kernel
  obtain ⟨w, hw, hc⟩ := exists_of_runIf hrun
  rw [Bool.and_eq_true, beq_iff_eq, beq_iff_eq] at hc
  refine ⟨w, hw, hc.1, ((heap_integrity (by decide) hw).1).resolve_left fun h₁ => ?_⟩
  rw [hc.2] at h₁
  exact absurd h₁.1 (by decide)

/-! ## 2^32 units -/

/-- The `i`-th region of 2^27 - 1 units. -/
def bigRegion (i : Nat) : Nat := 4096 + i * (2 ^ 31 - 16)

/-- 33 blocks, each a region of its own, are allocated and freed again. -/
def manyBlocks : List Act :=
  (List.range 33).map (fun i => .malloc 3 (2 ^ 31 - 32) (some (bigRegion i))) ++
    (List.range 33).map fun i => .free 3 (bigRegion i + headerSize)

theorem manyBlocks_runs : (runIf Program.step Program.ok manyBlocks (Program.init 16 (fun _ => 0) fun _ => 0)).any
    (fun w => w.live == [] && w.heap.base == 16 && w.heap.ptr 16 == 4096 && w.heap.ptr 4096 == 16 &&
      headerSize * w.heap.size 4096 != (w.regions.map Prod.snd).sum) = true := by decide +kernel

/-- The free blocks have become one, whose size is a `uint` and too small. -/
theorem heap_lost : ∃ w, Reach Program.step Program.ok (Program.init 16 (fun _ => 0) fun _ => 0) w ∧ w.live = [] ∧
    ¬ ∃ free, FreeList w.heap free ∧ Tiled w free := by
  obtain ⟨w, hw, hc⟩ := exists_of_runIf manyBlocks_runs
  simp only [Bool.and_eq_true, beq_iff_eq, bne_iff_ne] at hc
  obtain ⟨⟨⟨⟨hlive, hbase⟩, hfirst⟩, hnext⟩, hsum⟩ := hc
  refine ⟨w, hw, hlive, ?_⟩
  rintro ⟨free, hf, ht⟩
  have hring := hf.ring
  have horder := hf.order
  rw [hbase] at hring horder
  cases free with
  | nil =>
      have h₁ : w.heap.ptr 16 = 16 := hring
      omega
  | cons a free =>
      obtain ⟨h₁, h₂⟩ := hring
      obtain rfl : a = 4096 := by omega
      cases free with
      | nil =>
          have h₃ := ht.sum
          rw [hlive] at h₃
          simp at h₃
          exact hsum h₃
      | cons b free =>
          have h₃ := h₂.1
          have h₄ := List.rel_of_pairwise_cons horder (List.mem_cons_of_mem _ List.mem_cons_self)
          omega

/-! ## Memory that `malloc` promises -/

/-- In every state that is reached, for every process and every heap below its break: `malloc` returns 0 or a
block below the break exactly when a free block is large enough, or `morecore` asks for fewer than 2^31 bytes,
or for 2^32 + 16 bytes and the kernel has no room for 16 more. -/
theorem malloc_promise {S : Space.Spaces} {i : Nat} {p : Vm.Proc} {h : Heap} {l live regions : List Extents.Extent} {nbytes : Nat}
    (hS : S.Reachable) (hp : S.proc i = some p) (hh : Below h p l live regions) (hn : nbytes < 2 ^ 32) :
    Promised h S.ram p nbytes ↔ Fits l (nunits nbytes) ∨ units (nunits nbytes) * headerSize < 2 ^ 31 ∨
      (nunits nbytes = 2 ^ 28 + 1 ∧ NoRoom S.ram p) := by
  obtain ⟨g, hok⟩ := hS.ok
  exact promised_iff hok hp hh hn

/-- A program whose allocator has not been called yet. -/
def firstCall : Heap := ⟨16, fun _ => 0, fun _ => 0, 0⟩

/-- A process of 112 bytes: its page is there, but most of it is above the break. -/
def partPage : List Space.Act := [.start 0, .sbrk 0 112 1]

theorem partPage_runs : Space.runsTo (Space.somePages 8) partPage (fun S =>
    match S.proc 0 with
    | some p => p.sz == 112 &&
        returns (malloc kernelSbrk 5 (2 ^ 31)) (fun res u => res == 128 && u.sys.2.sz == 112) ⟨firstCall, (S.ram, p)⟩
    | none => false) = true := by decide +kernel

theorem exists_partPage : ∃ S p, Space.Spaces.Reachable S ∧ S.proc 0 = some p ∧ Below firstCall p [] [] [] ∧
    ∃ u, malloc kernelSbrk 5 (2 ^ 31) ⟨firstCall, (S.ram, p)⟩ = .ok 128 u ∧ u.sys.2.sz = 112 := by
  have hrun : ∀ s, RunOk Space.Spaces.step Space.Spaces.ok partPage (Space.Spaces.boot s) :=
    fun s => ⟨trivial, fun _ _ => ⟨⟨by decide, by decide⟩, fun _ _ => trivial⟩⟩
  obtain ⟨S, hS, h⟩ := Space.reachable_of_runsTo hrun (by decide) partPage_runs
  split at h
  · rename_i p hp
    rw [Bool.and_eq_true, beq_iff_eq] at h
    obtain ⟨res, u, hm, hc⟩ := of_returns h.2
    rw [Bool.and_eq_true, beq_iff_eq, beq_iff_eq] at hc
    obtain ⟨rfl, hsz⟩ := hc
    refine ⟨S, p, hS, hp, ⟨good_init (by decide) rfl, ?_, by simp, Nat.zero_le _⟩, u, hm, hsz⟩
    rw [h.1]
    decide
  · cases h

/-- In such a process `malloc(100)` keeps its promise and `malloc(2^31)` does not. -/
theorem malloc_promise_part : ∃ S p, Space.Spaces.Reachable S ∧ S.proc 0 = some p ∧ Promised firstCall S.ram p 100 ∧
    ¬ Promised firstCall S.ram p (2 ^ 31) := by
  obtain ⟨S, p, hS, hp, hh, -⟩ := exists_partPage
  refine ⟨S, p, hS, hp, (malloc_promise hS hp hh (by decide)).2 (.inr (.inl (by decide))), fun h₁ => ?_⟩
  rcases (malloc_promise hS hp hh (by decide)).1 h₁ with ⟨x, hx, -⟩ | h₂ | ⟨h₂, -⟩
  · cases hx
  · exact absurd h₂ (by decide)
  · exact absurd h₂ (by decide)

/-- `malloc(2^31)` asks for 2^31 + 16 bytes, `sys_sbrk` is called with a negative number and changes nothing,
and `malloc` returns a block above the break. -/
theorem malloc_broken_promise : ∃ S p, Space.Spaces.Reachable S ∧ S.proc 0 = some p ∧ Below firstCall p [] [] [] ∧
    ∃ res u, malloc kernelSbrk 5 (2 ^ 31) ⟨firstCall, (S.ram, p)⟩ = .ok res u ∧ res ≠ 0 ∧ u.sys.2.sz < res + 2 ^ 31 := by
  obtain ⟨S, p, hS, hp, hh, u, hm, hsz⟩ := exists_partPage
  exact ⟨S, p, hS, hp, hh, _, u, hm, by decide, by omega⟩

end Xv6.Umalloc
