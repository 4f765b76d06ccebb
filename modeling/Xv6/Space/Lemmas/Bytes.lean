import Xv6.Space.Lemmas.Run

/-!
# What processes read

The bytes and entries of a process, as its page table in memory gives them, are those of the view.
-/

namespace Xv6.Space

open Lib Vm

variable {g h : View} {S : Spaces} {s t : Ram} {i j a b n v : Nat} {p q : Vm.Proc}

theorem Ok.table_eq (hS : Ok g S) (hp : S.proc i = some p) (v : Nat) : S.ram.table p.pagetable v =
    if v < maxVa / pgSize then (g.leaf p.pagetable v).decode else none := by
  rw [hS.inv.tree.table_eq (hS.root hp)]

theorem Ok.lt_of_mapped (hS : Ok g S) (hp : S.proc i = some p) (hm : g.Mapped p.pagetable v) : v < maxVa / pgSize := by
  have hok := hS.proc i p hp
  refine Nat.lt_of_not_le fun hle => ?_
  have h₁ : maxVa / pgSize = userPages + 2 := rfl
  have h₂ := hok.size
  unfold View.Mapped at hm
  rw [hok.within v (by omega) (by omega) (by omega), not_has_zero] at hm
  cases hm

theorem Ok.table_none (hS : Ok g S) (hp : S.proc i = some p) : S.ram.table p.pagetable v = none ↔ ¬ g.Mapped p.pagetable v := by
  rw [hS.table_eq hp]
  unfold Pte.decode
  constructor
  · intro h₁ hm
    have hv : (g.leaf p.pagetable v).has pteV = true := hm
    rw [if_pos (hS.lt_of_mapped hp hm), if_pos hv] at h₁
    cases h₁
  · intro hm
    have hv : ¬ (g.leaf p.pagetable v).has pteV = true := hm
    rw [if_neg hv, ite_self]

theorem Ok.table_some (hS : Ok g S) (hp : S.proc i = some p) (hm : g.Mapped p.pagetable v) :
    S.ram.table p.pagetable v = some (g.page p.pagetable v, pteFlags (g.leaf p.pagetable v)) := by
  have hv : (g.leaf p.pagetable v).has pteV = true := hm
  rw [hS.table_eq hp, if_pos (hS.lt_of_mapped hp hm), Pte.decode, if_pos hv]
  rfl

theorem Ok.of_table (hS : Ok g S) (hp : S.proc i = some p) {x : Nat × Pte} (hx : S.ram.table p.pagetable v = some x) :
    g.Mapped p.pagetable v ∧ x = (g.page p.pagetable v, pteFlags (g.leaf p.pagetable v)) := by
  by_cases hm : g.Mapped p.pagetable v
  · rw [hS.table_some hp hm] at hx
    exact ⟨hm, (Option.some.inj hx).symm⟩
  · rw [(hS.table_none hp).2 hm] at hx
    cases hx

theorem Ok.byte_eq (hS : Ok g S) (hp : S.proc i = some p) (a : Nat) : byte S.ram p a = g.byte S.ram p.pagetable a := by
  unfold byte View.byte
  by_cases hm : g.Mapped p.pagetable (a / pgSize)
  · rw [hS.table_some hp hm, if_pos hm]
    rfl
  · rw [(hS.table_none hp).2 hm, if_neg hm]
    rfl

theorem Ok.bytes_eq (hS : Ok g S) (hp : S.proc i = some p) (a n : Nat) : bytes S.ram p a n = g.bytes S.ram p.pagetable a n :=
  List.map_congr_left fun k _ => hS.byte_eq hp (a + k)

theorem page_lt_userPages (hb : b < trapframe) : b / pgSize < userPages := (Nat.div_lt_iff_lt_mul (by decide)).2 hb

theorem Ok.other_byte (hS : Ok g S) (hp : S.proc i = some p) (hq : S.proc j = some q) (hne : j ≠ i)
    (hc : Change userPages {p.pagetable} (pages p.pagetable 0 (npages p.sz)) g S.ram h t) (hb : b < trapframe) :
    byte t q b = byte S.ram q b := by
  rw [(hS.call hp hc).byte_eq hq, hS.byte_eq hq]
  exact hc.frame.byte (fun hx => (hS.apart j i q p hq hp hne).1 hx.1) (page_lt_userPages hb)

/-- A page from which the kernel may copy, or to which it may. -/
theorem ProcOk.lt_of_copyable (hp : ProcOk g p) (hc : g.Copyable p.pagetable (npages p.sz) v) : v < npages p.sz := by
  rcases hc with ⟨hm, hu⟩ | ⟨-, hlt⟩ | ⟨-, -, hlt⟩
  · refine Nat.lt_of_not_le fun hle => ?_
    rw [hp.userWithin v hle hm] at hu
    cases hu
  · exact hlt
  · exact hlt

theorem Ok.not_storable (hS : Ok g S) (hp : S.proc i = some p) (h : ReadOnly S.ram p b ∨ Beyond S.ram p b) :
    ¬ g.Storable p.pagetable (npages p.sz) (b / pgSize) := by
  rintro ⟨hc, hw⟩
  rcases h with ⟨x, hx, hW, hC⟩ | ⟨hnone, hle⟩
  · have hm : g.Mapped p.pagetable (b / pgSize) := by
      refine Decidable.not_not.1 fun hm => ?_
      rw [(hS.table_none hp).2 hm] at hx
      cases hx
    rw [hS.table_some hp hm] at hx
    cases hx
    rw [has_pteW, getLsbD_pteFlags (by omega), ← has_pteW] at hW
    rw [has_pteCow, getLsbD_pteFlags (by omega), ← has_pteCow] at hC
    rcases hw hm with h₁ | h₁
    · rw [hW] at h₁
      cases h₁
    · rw [hC] at h₁
      cases h₁
  · have hm := (hS.table_none hp).1 hnone
    have hlt := (hS.proc i p hp).lt_of_copyable hc
    exact absurd (lt_npages.1 hlt) (Nat.not_lt.2 hle)

/-! ## Copies -/

/-- What `copyout` leaves, as processes see it. -/
theorem copiedOut_seen {src : List (BitVec 8)} {k : Nat} (hS : Ok g S) (hp : S.proc i = some p)
    (hc : CopiedOut userPages p g S.ram a src k h t) (hq : S.proc j = some q) (hb : b < trapframe) :
    byte t q b = if j = i ∧ a ≤ b ∧ b < a + k then src.getD (b - a) 0 else byte S.ram q b := by
  by_cases hj : j = i
  · subst hj
    rw [hp] at hq
    cases hq
    rw [(hS.call hp hc.toChange).byte_eq hp, hS.byte_eq hp, hc.byte b (page_lt_userPages hb)]
    simp only [true_and]
  · rw [if_neg fun h₁ => hj h₁.1]
    exact hS.other_byte hp hq hj hc.toChange hb

theorem copiedIn_seen {len : Nat} {res : Int × List (BitVec 8)} (hS : Ok g S) (hp : S.proc i = some p)
    (hc : CopiedIn userPages p g S.ram a len res h t) (hq : S.proc j = some q) (hb : b < trapframe) :
    byte t q b = byte S.ram q b := by
  by_cases hj : j = i
  · subst hj
    rw [hp] at hq
    cases hq
    rw [(hS.call hp hc.touched.toChange).byte_eq hp, hS.byte_eq hp, hc.touched.byte b (page_lt_userPages hb)]
  · exact hS.other_byte hp hq hj hc.touched.toChange hb

theorem copiedIn_bytes {len : Nat} {res : Int × List (BitVec 8)} (hS : Ok g S) (hp : S.proc i = some p)
    (hc : CopiedIn userPages p g S.ram a len res h t) (h₀ : res.1 = 0) : res.2 = bytes S.ram p a len := by
  rw [hS.bytes_eq hp]
  refine hc.bytes h₀ fun k hk => ?_
  exact Nat.lt_of_lt_of_le ((hS.proc i p hp).lt_of_copyable (hc.pages h₀ k hk)) (hS.proc i p hp).size

end Xv6.Space
