import Xv6.Vm.Lemmas.Strings

/-!
# Theorems about physical memory and page tables
-/

namespace Xv6.Vm

open Xv6.Lib

/-! ## Page tables are finite maps -/

/-- In every state that callers reach after `kinit`: a new table is the empty map; `mappages` that
returns 0 extends the map on exactly its pages, all unmapped before, with the flags it was given;
`walk` finds the entry of exactly its page; `uvmunmap` removes exactly its pages; and every other
table stays as it is. -/
theorem page_tables_are_maps {s₀ s : Ram} {S : Tables} (hb : kernBase ≤ s₀.kend) (hk : s₀.kend ≤ physTop)
    (hf : s₀.freelist = []) (hinit : kinit s₀ = .ok () s)
    (hS : Reach Tables.step Tables.ok (Tables.boot s) S) :
    (∀ r t, uvmcreate S.ram = .ok (some r) t →
      r ∉ S.roots ∧ t.table r = .empty ∧ ∀ r' ∈ S.roots, t.table r' = S.ram.table r') ∧
    (∀ r va size pa perm t, S.MapArgs r va size pa perm → pa + size ≤ 2 ^ 56 →
      mappages r va size pa perm S.ram = .ok 0 t →
      (∀ v, va / pgSize ≤ v → v < va / pgSize + npages size → S.ram.table r v = none) ∧
      t.table r = (S.ram.table r).extend (va / pgSize) (npages size) pa (perm ||| pteV) ∧
        ∀ r' ∈ S.roots, r' ≠ r → t.table r' = S.ram.table r') ∧
    (∀ r va, r ∈ S.roots → va < maxVa → ∃ res, walk r va false S.ram = .ok res S.ram ∧
      (res = none → S.ram.table r (va / pgSize) = none) ∧
      ∀ slot, res = some slot → S.ram.table r (va / pgSize) = (S.ram.pte slot.1 slot.2).decode ∧
        ∀ r' ∈ S.roots, ∀ va', va' < maxVa → walk r' va' false S.ram = .ok (some slot) S.ram →
          r' = r ∧ va' / pgSize = va / pgSize) ∧
    (∀ r va n doFree, S.UnmapArgs r va n doFree →
      ∃ t, uvmunmap r va n doFree S.ram = .ok () t ∧ t.table r = (S.ram.table r).remove (va / pgSize) n ∧
        ∀ r' ∈ S.roots, r' ≠ r → t.table r' = S.ram.table r') := by
  have hinv : wp kinit (fun _ t => Inv 0 (View.fresh t) t ∧ t.kend = s₀.kend) (fun _ _ => True) s₀ := kinit_spec hb hk hf
  have hI := (wp_ok hinv hinit).1
  obtain ⟨g, hg⟩ := Tables.Of.reach hI hS
  exact ⟨fun r t => uvmcreate_table hg, fun r va size pa perm t => mappages_table hg,
    fun r va => walk_table hg, fun r va n doFree => uvmunmap_table hg⟩

/-- A memory with room for four pages. -/
def smallRam : Ram where
  mem _ _ := 0
  freelist := []
  krefcount _ := 0
  kend := physTop - 4 * pgSize
  trampolinePage := kernBase
  kfail := false

theorem smallRam_kend : kernBase ≤ smallRam.kend ∧ smallRam.kend ≤ physTop := by
  show kernBase ≤ physTop - 4 * pgSize ∧ physTop - 4 * pgSize ≤ physTop
  rw [physTop_eq]
  decide

/-- A table is made and `size` bytes from `pa` on are mapped at 0. -/
def mapsFirst (s₀ : Ram) (size pa : Nat) (perm : Pte) (P : PageMap → Bool) : Bool :=
  returns kinit (fun _ s => returns uvmcreate (fun res u =>
    match res with
    | some r => returns (mappages r 0 size pa perm) (fun res t => res == 0 && P (t.table r)) u
    | none => false) s) s₀

theorem mapsFirst_run {s₀ : Ram} {size pa : Nat} {perm : Pte} {P : PageMap → Bool}
    (h : mapsFirst s₀ size pa perm P = true) :
    ∃ s S r t, kinit s₀ = .ok () s ∧ Reach Tables.step Tables.ok (Tables.boot s) S ∧ r ∈ S.roots ∧
      mappages r 0 size pa perm S.ram = .ok 0 t ∧ P (t.table r) = true := by
  obtain ⟨_, s, hs, h⟩ := of_returns h
  obtain ⟨res, u, hu, h⟩ := of_returns h
  cases res with
  | none => cases h
  | some r =>
      obtain ⟨res, t, ht, h⟩ := of_returns h
      rw [Bool.and_eq_true, beq_iff_eq] at h
      obtain ⟨rfl, hP⟩ := h
      have hstep : (Tables.boot s).step .create = some (.ok ⟨u, [r], fun _ => 0⟩) := by
        have hu' : uvmcreate (Tables.boot s).ram = .ok (some r) u := hu
        unfold Tables.step Tables.exec
        rw [hu']
        rfl
      have hok : (Tables.boot s).ok .create := trivial
      exact ⟨s, _, r, t, hs, .step .init hok hstep, List.mem_singleton.2 rfl, ht, hP⟩

theorem farPage : mapsFirst smallRam (2 * pgSize) (2 ^ 56 - pgSize) pteR
    (fun m => decide (m 1 ≠ some (2 ^ 56, pteR ||| pteV))) = true := by decide +kernel

theorem onePage : mapsFirst smallRam pgSize kernBase pteR (fun _ => true) = true := by decide +kernel

/-- The second page of the range does not fit an entry: its page number runs into the attribute
bits. -/
theorem mappages_past_ppn : ∃ s S r t, kinit smallRam = .ok () s ∧
    Reach Tables.step Tables.ok (Tables.boot s) S ∧ S.MapArgs r 0 (2 * pgSize) (2 ^ 56 - pgSize) pteR ∧
    mappages r 0 (2 * pgSize) (2 ^ 56 - pgSize) pteR S.ram = .ok 0 t ∧
    t.table r ≠ (S.ram.table r).extend 0 2 (2 ^ 56 - pgSize) (pteR ||| pteV) := by
  obtain ⟨s, S, r, t, hs, hS, hr, ht, hP⟩ := mapsFirst_run farPage
  refine ⟨s, S, r, t, hs, hS, ⟨hr, rfl, by decide, by decide, by decide, by decide⟩, ht, fun he => ?_⟩
  rw [he] at hP
  exact of_decide_eq_true hP rfl

theorem page_tables_are_maps_one : ∃ S r t, Tables.MapArgs S r 0 pgSize kernBase pteR ∧
    mappages r 0 pgSize kernBase pteR S.ram = .ok 0 t ∧
    t.table r = (S.ram.table r).extend 0 1 kernBase (pteR ||| pteV) := by
  obtain ⟨s, S, r, t, hs, hS, hr, ht, -⟩ := mapsFirst_run onePage
  have hargs : S.MapArgs r 0 pgSize kernBase pteR :=
    ⟨hr, rfl, by decide, by decide, by decide, by decide⟩
  have hmap := (page_tables_are_maps smallRam_kend.1 smallRam_kend.2 rfl hs hS).2.1
  exact ⟨S, r, t, hargs, ht, (hmap r 0 pgSize kernBase pteR t hargs (by decide) ht).2.1⟩

/-! ## Strings -/

/-- For every page table, address and bound: `copyinstr` comes back and changes nothing but `max` bytes at
most at `dst`; it succeeds exactly when a string lies there whose end is below the bound and all of whose
bytes are the user's; those bytes with the zero are what it stored, and `fetchstr` returns the length. -/
theorem copyinstr_exact (s : Ram) (r a max : Nat) :
    ∃ found dst, copyinstr r a max s = .ok (found, dst) s ∧ dst.length ≤ max ∧
      (found = true ↔ ∃ k, k < max ∧ s.StringAt r a k) ∧
      ∀ k, k < max → s.StringAt r a k → dst = s.userBytes r a (k + 1) ∧
        (max < 2 ^ 31 → ∀ p : Proc, p.pagetable = r → fetchstr p a max s = .ok ((k : Int), dst) s) := by
  refine ⟨_, _, copyinstr_eq s r a max, fetchString_length s r a max, fetchString_iff, fun k hk h => ?_⟩
  rw [fetchString_of_stringAt h hk]
  refine ⟨rfl, fun hmax p hp => ?_⟩
  subst hp
  exact fetchstr_of_stringAt h hk hmax

end Xv6.Vm
