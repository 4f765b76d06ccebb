import Xv6.Space.Lemmas.Bytes

/-!
# Shape of page tables

What the invariant says about the page table of a process, in terms of the memory.
-/

namespace Xv6.Space

open Lib Vm

variable {g : View} {S : Spaces} {i d k t v : Nat} {p : Vm.Proc} {x : Nat × Pte}

theorem Ok.entryOk (hS : Ok g S) (hp : S.proc i = some p) (hx : S.ram.table p.pagetable v = some x) : EntryOk p v x.2 := by
  have hold := hS.proc i p hp
  obtain ⟨hm, rfl⟩ := hS.of_table hp hx
  by_cases hv : v < npages p.sz
  · have hle : p.sz ≤ maxVa := Nat.le_trans (npages_le_iff.1 hold.size) userPages_le
    refine .inl ?_
    rw [pgRoundUp_eq hle]
    exact Nat.mul_lt_mul_of_pos_right hv (by decide)
  · have htop : v = userPages ∨ v = userPages + 1 := by
      by_contra hne
      unfold View.Mapped at hm
      rw [hold.within v (Nat.le_of_not_lt hv) (fun h => hne (.inl h)) fun h => hne (.inr h), not_has_zero] at hm
      cases hm
    refine .inr ⟨?_, ?_⟩
    · rcases htop with rfl | rfl
      · exact .inl rfl
      · exact .inr rfl
    · rw [pteFlags_has_pteU]
      exact hold.top v (by omega)

theorem Ok.role_of_node (hS : Ok g S) (hp : S.proc i = some p) (hd : d ≤ 2) (hk : k < 512 ^ d)
    (ht : S.ram.node p.pagetable d k = some t) : g.role t = .table p.pagetable (2 - d) k := by
  rcases hS.inv.tree.node (hS.root hp) hd hk with ⟨t', hnode, hrole⟩ | ⟨hnode, -⟩
  · rw [hnode] at ht
    cases ht
    exact hrole
  · rw [hnode] at ht
    cases ht

theorem Ok.tablePage (hS : Ok g S) (hp : S.proc i = some p) (hd : d ≤ 2) (hk : k < 512 ^ d)
    (ht : S.ram.node p.pagetable d k = some t) : TablePage S i d k t where
  inner hlt n hn hv := by
    have hrole := hS.role_of_node hp hd hk ht
    obtain ⟨l, hl⟩ : ∃ l, 2 - d = l + 1 := ⟨1 - d, by omega⟩
    rw [hl] at hrole
    obtain ⟨q, hpte, -⟩ := hS.inv.tree.child _ _ _ _ _ hrole hn hv
    refine ⟨?_, fun p' hp' => ?_⟩
    · rw [hpte]
      exact not_has_leaf q
    · rw [hp] at hp'
      cases hp'
      rw [Ram.node, show (512 * k + n) / 512 = k by omega, show (512 * k + n) % 512 = n by omega, ht, Option.bind_some]
      simp [hv]
  only j q d' k' hq hd' hk' ht' := by
    have h₁ := hS.role_of_node hp hd hk ht
    have h₂ := hS.role_of_node hq hd' hk' ht'
    rw [h₁] at h₂
    injection h₂ with h₃ h₄ h₅
    refine ⟨?_, by omega, h₅.symm⟩
    by_contra hne
    exact (hS.apart j i q p hq hp hne).1 h₃.symm
  user j q v x hq hv hx he := by
    have h₁ := hS.role_of_node hp hd hk ht
    obtain ⟨hm, rfl⟩ := hS.of_table hq hx
    have h₂ := hS.inv.count.user _ v hv hm
    rw [show g.page q.pagetable v = t from he, h₁] at h₂
    cases h₂
  kern ho := by
    have h₁ := hS.role_of_node hp hd hk ht
    rw [(hS.kern t).2 ho] at h₁
    cases h₁
  free hf := by
    have h₁ := hS.role_of_node hp hd hk ht
    rw [(hS.inv.tree.free t).1 hf] at h₁
    cases h₁

end Xv6.Space
