import Xv6.Space.Lemmas.Sbrk
import Xv6.Umalloc.Kernel
import Xv6.Umalloc.Lemmas.Program

/-!
# `malloc` on the kernel

The number of bytes that `morecore` asks for is passed as an `int`. From 2^31 on it is negative, or as
small as one unit, and `sys_sbrk` hardly ever refuses it.
-/

namespace Xv6.Umalloc

open Lib Vm

variable {g : View} {S : Space.Spaces} {h : Heap} {l live regions : List Extents.Extent} {i nbytes : Nat} {n : Int} {p : Vm.Proc}

/-- The heap of a process: its regions are below the break, and in memory. -/
structure Below (h : Heap) (p : Vm.Proc) (l live regions : List Extents.Extent) : Prop where
  good : Good h l live regions
  base : h.base < p.sz
  le : ∀ x ∈ regions, x.1 + x.2 ≤ p.sz
  total : (regions.map Prod.snd).sum ≤ physTop - kernBase

theorem kernelSbrk_spec (hS : Space.Ok g S) (hp : S.proc i = some p) (hn : -2 ^ 31 ≤ n ∧ n < 2 ^ 31) :
    ∃ r q t, kernelSbrk n (S.ram, p) = .ok r (t, q) ∧ Space.Sbrked g S.ram p n Space.sbrkEager (r, q) t := by
  obtain ⟨⟨r, q⟩, t, hrun, hres⟩ := wp_returns (Space.sysSbrk_spec (t := Space.sbrkEager) hS hp hn)
  refine ⟨r, q, t, ?_, hres⟩
  unfold kernelSbrk
  simp only [hrun]

/-! ## The number of bytes -/

theorem units_nunits_le (hn : nbytes < 2 ^ 32) : units (nunits nbytes) ≤ 2 ^ 28 + 1 := by
  rw [nunits_eq hn]
  unfold units
  split <;> omega

theorem toInt_bounds (k : Nat) : -2 ^ 31 ≤ toInt k ∧ toInt k < 2 ^ 31 := by
  unfold toInt
  have h₁ := Int.le_bmod (x := k) (m := 2 ^ 32) (by decide)
  have h₂ := Int.bmod_lt (x := k) (m := 2 ^ 32) (by decide)
  omega

/-- From 2^31 bytes on the argument of `sbrk` is at most one unit. -/
theorem toInt_big {k : Nat} (h₁ : 2 ^ 31 ≤ k) (h₂ : k ≤ 2 ^ 32 + 16) : toInt k = (k : Int) - 2 ^ 32 := by
  unfold toInt
  rw [Int.bmod_def]
  split <;> omega

/-! ## `malloc` -/

theorem memory_le : physTop - kernBase ≤ 2 ^ 32 := by
  rw [physTop_eq]
  decide

theorem Below.fresh (hh : Below h p l live regions) (hn : nbytes < 2 ^ 32) : Fresh h regions p.sz (units (nunits nbytes)) := by
  refine ⟨hh.base, hh.le, ?_⟩
  have h₁ := hh.total
  have h₂ := units_nunits_le hn
  have h₃ := memory_le
  unfold headerSize
  omega

/-- No free block is large enough: what `sbrk` returns decides. -/
theorem malloc_sbrk (hS : Space.Ok g S) (hp : S.proc i = some p) (hh : Below h p l live regions) (hn : nbytes < 2 ^ 32)
    (hno : ¬ Fits l (nunits nbytes)) :
    ∃ r q t, Space.Sbrked g S.ram p (toInt (units (nunits nbytes) * headerSize)) Space.sbrkEager (r, q) t ∧
      ∃ h', ∀ k, 2 * l.length + 4 ≤ k → malloc kernelSbrk k nbytes ⟨h, (S.ram, p)⟩ =
        .ok (if r = -1 then 0 else p.sz + headerSize * (units (nunits nbytes) - nunits nbytes) + headerSize) ⟨h', (t, q)⟩ := by
  obtain ⟨r, q, t, hs, hres⟩ := kernelSbrk_spec hS hp (toInt_bounds (units (nunits nbytes) * headerSize))
  refine ⟨r, q, t, hres, ?_⟩
  by_cases hr : r = -1
  · subst hr
    refine ⟨h.start, fun k hk => ?_⟩
    obtain ⟨j, rfl⟩ : ∃ j, k = j + 1 + l.length := ⟨k - 1 - l.length, by omega⟩
    rw [if_pos rfl]
    exact malloc_fail hh.good hn hno hs
  · have hsz : r = p.sz := by
      cases hres with
      | lazy | grown | shrunk | under => rfl
      | above | short => exact absurd rfl hr
    rw [hsz] at hs
    obtain ⟨h', l', hm, -⟩ := malloc_grow (u := (⟨h, (S.ram, p)⟩ : Task (Ram × Vm.Proc))) hh.good hn hno (hh.fresh hn) hs
      (show l.length + 1 < l.length + 3 by omega)
    refine ⟨h', fun k hk => ?_⟩
    rw [if_neg hr]
    exact malloc_extends (show l.length + 3 + 1 + l.length ≤ k by omega) _ _ _ hm

theorem promised_of_fits (hh : Below h p l live regions) (hn : nbytes < 2 ^ 32) (hfit : Fits l (nunits nbytes)) (s : Ram) :
    Promised h s p nbytes := by
  have htotal : (regions.map Prod.snd).sum < headerSize * 2 ^ 32 := Nat.lt_of_le_of_lt (Nat.le_trans hh.total memory_le) (by decide)
  obtain ⟨q, h', l', hm, hg⟩ := malloc_fit (u := (⟨h, (s, p)⟩ : Task (Ram × Vm.Proc))) hh.good hn kernelSbrk htotal hfit
    (Nat.lt_succ_self _)
  refine ⟨_, _, _, fun k hk => malloc_extends hk _ _ _ hm, Nat.le_refl _, .inr ?_⟩
  have hstop := hg.ok.stop_le hh.le (List.mem_append_right l' List.mem_cons_self)
  have h₁ := nunits_eq hn
  show q + headerSize + nbytes ≤ p.sz
  unfold headerSize at *
  simp only at hstop
  omega

theorem promised_iff (hS : Space.Ok g S) (hp : S.proc i = some p) (hh : Below h p l live regions) (hn : nbytes < 2 ^ 32) :
    Promised h S.ram p nbytes ↔ Fits l (nunits nbytes) ∨ units (nunits nbytes) * headerSize < 2 ^ 31 ∨
      (nunits nbytes = 2 ^ 28 + 1 ∧ NoRoom S.ram p) := by
  by_cases hfit : Fits l (nunits nbytes)
  · exact iff_of_true (promised_of_fits hh hn hfit S.ram) (.inl hfit)
  obtain ⟨r, q, t, hres, h', hm⟩ := malloc_sbrk hS hp hh hn hfit
  have hmax := Space.size_le (hS.proc i p hp).size
  have hunits := units_nunits_le hn
  have hle := le_units (nunits nbytes)
  have hnu := nunits_eq hn
  have hpromised : Promised h S.ram p nbytes ↔ p.sz ≤ q.sz ∧
      (r = -1 ∨ p.sz + headerSize * (units (nunits nbytes) - nunits nbytes) + headerSize + nbytes ≤ q.sz) := by
    constructor
    · rintro ⟨n, res, u, hrun, h₁, h₂⟩
      have h₃ := (hrun (max n (2 * l.length + 4)) (Nat.le_max_left _ _)).symm.trans (hm _ (Nat.le_max_right _ _))
      cases h₃
      refine ⟨h₁, ?_⟩
      by_cases hr : r = -1
      · exact .inl hr
      · rw [if_neg hr] at h₂
        exact .inr (h₂.resolve_left (by unfold headerSize; omega))
    · rintro ⟨h₁, h₂⟩
      refine ⟨_, _, _, hm, h₁, ?_⟩
      rcases h₂ with h₂ | h₂
      · exact .inl (if_pos h₂)
      · by_cases hr : r = -1
        · exact .inl (if_pos hr)
        · rw [if_neg hr]
          exact .inr h₂
  rw [hpromised, or_iff_right hfit]
  by_cases hsmall : units (nunits nbytes) * headerSize < 2 ^ 31
  · refine iff_of_true ?_ (.inl hsmall)
    rw [toInt_of_lt hsmall] at hres
    have hpos : (0 : Int) < (units (nunits nbytes) * headerSize : Nat) := by
      have h₁ := Nat.mul_pos (units_pos (nunits nbytes)) (show 0 < headerSize by decide)
      omega
    unfold headerSize at *
    cases hres with
    | lazy heager hn' hsz hle => exact absurd (heager.resolve_left fun h₁ => h₁ rfl) (by omega)
    | @grown sz _ _ heager hn' hsz hle henough hg =>
        refine ⟨show p.sz ≤ sz by omega, .inr (show p.sz + 16 * (units (nunits nbytes) - nunits nbytes) + 16 + nbytes ≤ sz from ?_)⟩
        omega
    | shrunk hn' hsz hu => exact absurd hn' (by omega)
    | under hn' => exact absurd hn' (by omega)
    | above hn' => exact ⟨Nat.le_refl _, .inl rfl⟩
    | short heager hn' hsz hle hlack hs => exact ⟨Nat.le_refl _, .inl rfl⟩
  · rw [or_iff_right hsmall]
    have heq : units (nunits nbytes) = nunits nbytes := by
      unfold units headerSize at *
      split at hsmall
      · exact absurd (by decide) hsmall
      · rename_i h₁
        rw [if_neg h₁]
    rw [heq, toInt_big (by unfold headerSize at *; omega) (by unfold headerSize at *; omega)] at hres
    rw [heq, Nat.sub_self, Nat.mul_zero, Nat.add_zero]
    unfold NoRoom
    unfold headerSize at *
    cases hres with
    | @lazy sz heager hn' hsz hle =>
        have h₁ := heager.resolve_left fun h₁ => h₁ rfl
        refine iff_of_false ?_ fun h₂ => absurd h₂.1 (by omega)
        rintro ⟨-, h₂ | (h₂ : p.sz + 16 + nbytes ≤ sz)⟩ <;> omega
    | @grown sz _ _ heager hn' hsz hle henough hg =>
        obtain rfl : sz = p.sz + 16 := by omega
        refine iff_of_false ?_ ?_
        · rintro ⟨-, h₂ | (h₂ : p.sz + 16 + nbytes ≤ p.sz + 16)⟩ <;> omega
        · rintro ⟨-, h₂ | h₂⟩ <;> omega
    | @shrunk sz _ _ hn' hsz hu =>
        refine iff_of_false ?_ fun h₂ => absurd h₂.1 (by omega)
        rintro ⟨(h₂ : p.sz ≤ sz), -⟩
        omega
    | under hn' =>
        refine iff_of_false ?_ fun h₂ => absurd h₂.1 (by omega)
        rintro ⟨-, h₂ | h₂⟩ <;> omega
    | above hn' => exact iff_of_true ⟨Nat.le_refl _, .inl rfl⟩ ⟨by omega, .inl (by omega)⟩
    | @short sz _ _ heager hn' hsz hle hlack hs =>
        obtain rfl : sz = p.sz + 16 := by omega
        exact iff_of_true ⟨Nat.le_refl _, .inl rfl⟩ ⟨by omega, .inr hlack⟩

end Xv6.Umalloc
