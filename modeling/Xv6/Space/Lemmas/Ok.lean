import Xv6.Exec.Lemmas.Kexec
import Xv6.Space.System
import Xv6.Vm.Lemmas.Copy
import Xv6.Vm.Lemmas.Copyout

/-!
# The memory of all processes

One view accounts for all pages. A call by one process changes entries of its own page table, and the
kernel's pages are those it took and the trapframes.
-/

namespace Xv6.Space

open Lib Vm

variable {f g h : View} {S : Spaces} {s t u : Ram} {i j a n v : Nat} {p q : Vm.Proc} {E : Stop → Ram → Prop}

/-! ## The invariant -/

/-- The page table of a process. -/
structure ProcOk (g : View) (p : Vm.Proc) : Prop where
  within : g.Within p.pagetable (npages p.sz)
  top : g.HidesTop p.pagetable
  size : npages p.sz ≤ userPages

structure Ok (g : View) (S : Spaces) : Prop where
  inv : Inv userPages g S.ram
  live : Live g S.ram
  proc : ∀ i p, S.proc i = some p → ProcOk g p
  kern : ∀ a, g.role a = .kern ↔ S.Owns a
  roots : ∀ a, g.role a = .table a 2 0 ↔ ∃ i p, S.proc i = some p ∧ p.pagetable = a
  apart : ∀ i j p q, S.proc i = some p → S.proc j = some q → i ≠ j →
    p.pagetable ≠ q.pagetable ∧ p.trapframe ≠ q.trapframe
  own : ∀ i p, S.proc i = some p → p.trapframe ∉ S.pages
  nodup : S.pages.Nodup

/-- What a step leaves: the memory is in order, and processes but for that in slot `o` read the same. -/
structure Next (o : Option Nat) (g : View) (S : Spaces) (h : View) (T : Spaces) : Prop extends Ok h T where
  keeps : ∀ j q, S.proc j = some q → some j ≠ o → T.proc j = some q ∧
    ∀ b, b / pgSize < userPages → h.byte T.ram q.pagetable b = g.byte S.ram q.pagetable b

theorem Ok.root (hS : Ok g S) (hp : S.proc i = some p) : g.role p.pagetable = .table p.pagetable 2 0 :=
  (hS.roots _).2 ⟨i, p, hp, rfl⟩

theorem Ok.trapframe_kern (hS : Ok g S) (hp : S.proc i = some p) : g.role p.trapframe = .kern := (hS.kern _).2 (.inr ⟨i, p, hp, rfl⟩)

theorem userPages_le : userPages * pgSize ≤ maxVa := by
  rw [maxVa_eq]
  exact Nat.mul_le_mul_right _ (by omega)

theorem ProcOk.userWithin (hp : ProcOk g p) : g.UserWithin p.pagetable (npages p.sz) := fun v hv hm => by
  by_cases hu : userPages ≤ v
  · exact hp.top v hu
  · unfold View.Mapped at hm
    rw [hp.within v hv (by omega) (by omega), not_has_zero] at hm
    cases hm

theorem ProcOk.of_leaf (hp : ProcOk g p) (hl : ∀ v, h.leaf p.pagetable v = g.leaf p.pagetable v) : ProcOk h p where
  within v h₁ h₂ h₃ := by
    rw [hl]
    exact hp.within v h₁ h₂ h₃
  top v hv := by
    rw [hl]
    exact hp.top v hv
  size := hp.size

theorem leaf_of_not_root {r : Nat} (hI : Inv userPages g s) (hr : g.role r ≠ .table r 2 0) (v : Nat) : g.leaf r v = 0 :=
  hI.tree.noLeaf r v fun _ hb => hr (hI.tree.root _ _ _ _ hb)

/-! ## Slots -/

theorem setProc_self (S : Spaces) (i : Nat) (p : Option Vm.Proc) : S.setProc i p i = p := Function.update_self ..

theorem setProc_of_ne (hne : j ≠ i) (x : Option Vm.Proc) : S.setProc i x j = S.proc j := Function.update_of_ne hne ..

theorem setProc_eq_some {p' : Vm.Proc} (h : S.setProc i (some p') j = some q) : (j = i ∧ q = p') ∨ (j ≠ i ∧ S.proc j = some q) := by
  by_cases hj : j = i
  · subst hj
    rw [setProc_self] at h
    exact .inl ⟨rfl, (Option.some.inj h).symm⟩
  · rw [setProc_of_ne hj] at h
    exact .inr ⟨hj, h⟩

/-- A process of the same slot with the same trapframe and page table owns the same pages. -/
theorem exists_setProc {P : Vm.Proc → Prop} (p' : Vm.Proc) (hp : S.proc i = some p) (hP : P p' ↔ P p) :
    (∃ j q, S.setProc i (some p') j = some q ∧ P q) ↔ ∃ j q, S.proc j = some q ∧ P q := by
  constructor
  · rintro ⟨j, q, hq, hPq⟩
    rcases setProc_eq_some hq with ⟨rfl, rfl⟩ | ⟨-, hq⟩
    · exact ⟨j, p, hp, hP.1 hPq⟩
    · exact ⟨j, q, hq, hPq⟩
  · rintro ⟨j, q, hq, hPq⟩
    by_cases hj : j = i
    · subst hj
      rw [hp] at hq
      cases hq
      exact ⟨j, p', setProc_self .., hP.2 hPq⟩
    · exact ⟨j, q, by rw [setProc_of_ne hj]; exact hq, hPq⟩

/-! ## Calls by a process -/

theorem Ok.keeps {X : Nat → Nat → Prop} {x : Option Vm.Proc} (hS : Ok g S) (hp : S.proc i = some p)
    (hf : Frame userPages X g S.ram h t) (hX : ∀ r v, X r v → r = p.pagetable ∨ g.role r = .free) (j : Nat) (q : Vm.Proc)
    (hq : S.proc j = some q) (hj : some j ≠ some i) :
    S.setProc i x j = some q ∧ ∀ b, b / pgSize < userPages → h.byte t q.pagetable b = g.byte S.ram q.pagetable b := by
  have hne : j ≠ i := fun he => hj (congrArg some he)
  refine ⟨(setProc_of_ne hne _).trans hq, fun b => hf.byte fun hx => ?_⟩
  rcases hX _ _ hx with h₁ | h₁
  · exact (hS.apart j i q p hq hp hne).1 h₁
  · rw [hS.root hq] at h₁
    cases h₁

/-- A call that changes entries of the page table of the process, and perhaps its size. -/
theorem Ok.change {X : Nat → Nat → Prop} {sz : Nat} (hS : Ok g S) (hp : S.proc i = some p)
    (hc : Change userPages {p.pagetable} X g S.ram h t) (hX : ∀ r v, X r v → r = p.pagetable)
    (hok : ProcOk h { p with sz := sz }) : Next (some i) g S h { S with ram := t, proc := S.setProc i (some { p with sz := sz }) } where
  inv := hc.inv
  live := hc.apart.live hS.live
  proc j q hq := by
    rcases setProc_eq_some hq with ⟨rfl, rfl⟩ | ⟨hj, hq⟩
    · exact hok
    · exact (hS.proc j q hq).of_leaf fun v => hc.frame.leaf _ v fun hx => (hS.apart j i q p hq hp hj).1 (hX _ _ hx)
  kern b := by
    have h₁ : h.role b = .kern ↔ g.role b = .kern := by
      have h₂ := Set.ext_iff.1 hc.kern b
      exact h₂
    rw [h₁, hS.kern b]
    exact or_congr Iff.rfl (exists_setProc { p with sz := sz } (P := fun q => q.trapframe = b) hp Iff.rfl).symm
  roots b := by
    have h₁ : h.role b = .table b 2 0 ↔ g.role b = .table b 2 0 := by
      have h₂ := Set.ext_iff.1 hc.roots b
      exact h₂
    rw [h₁, hS.roots b]
    exact (exists_setProc { p with sz := sz } (P := fun q => q.pagetable = b) hp Iff.rfl).symm
  apart j k q q' hq hq' hne := by
    rcases setProc_eq_some hq with ⟨h₁, rfl⟩ | ⟨-, h₁⟩ <;> rcases setProc_eq_some hq' with ⟨h₂, rfl⟩ | ⟨-, h₂⟩
    · exact absurd (h₁.trans h₂.symm) hne
    · exact hS.apart i k p q' hp h₂ (h₁ ▸ hne)
    · exact hS.apart j i q p h₁ hp (h₂ ▸ hne)
    · exact hS.apart j k q q' h₁ h₂ hne
  own j q hq := by
    rcases setProc_eq_some hq with ⟨rfl, rfl⟩ | ⟨-, hq⟩
    · exact hS.own j p hp
    · exact hS.own j q hq
  nodup := hS.nodup
  keeps := hS.keeps hp hc.frame fun r v hx => .inl (hX r v hx)

theorem Ok.call (hS : Ok g S) (hp : S.proc i = some p)
    (hc : Change userPages {p.pagetable} (pages p.pagetable 0 (npages p.sz)) g S.ram h t) : Next (some i) g S h { S with ram := t } := by
  have hold := hS.proc i p hp
  have hok : ProcOk h { p with sz := p.sz } := by
    refine ⟨fun v h₁ h₂ h₃ => ?_, fun v hv => ?_, hold.size⟩
    · rw [hc.frame.leaf _ v fun hx => absurd hx.2.2 (Nat.not_lt.2 h₁)]
      exact hold.within v h₁ h₂ h₃
    · rw [hc.frame.leaf _ v fun hx => absurd hx.2.2 (Nat.not_lt.2 (Nat.le_trans hold.size hv))]
      exact hold.top v hv
  have h₁ := hS.change hp hc (fun _ _ hx => hx.1) hok
  have h₂ : S.setProc i (some { p with sz := p.sz }) = S.proc := by
    unfold Spaces.setProc
    rw [Function.update_eq_iff]
    exact ⟨hp.symm, fun _ _ => rfl⟩
  rwa [h₂] at h₁

/-! ## Faults and copies -/

theorem fault_ok (hS : Ok g S) (hp : S.proc i = some p) :
    wp (vmfault p p.pagetable a) (fun _ t => ∃ h, Touched userPages p.pagetable (npages p.sz) g S.ram h t) E S.ram := by
  refine wp_post (vmfault_spec hS.inv (hS.root hp) (hS.proc i p hp).size userPages_le) fun res t hf => ?_
  obtain ⟨h, ht, -⟩ := hf.touched
  exact ⟨h, ht⟩

theorem copyin_ok (a len : Nat) (hS : Ok g S) (hp : S.proc i = some p) :
    wp (copyin p p.pagetable a len) (fun res t => ∃ h, CopiedIn userPages p g S.ram a len res h t) E S.ram :=
  copyin_spec hS.inv (hS.root hp) (hS.proc i p hp).size userPages_le

theorem copyout_ok (a : Nat) (src : List (BitVec 8)) (hS : Ok g S) (hp : S.proc i = some p) :
    wp (copyout p p.pagetable a src) (CopyoutResult userPages p g S.ram a src) E S.ram :=
  copyout_spec hS.inv (hS.root hp) (hS.proc i p hp).size userPages_le (hS.proc i p hp).userWithin

end Xv6.Space
