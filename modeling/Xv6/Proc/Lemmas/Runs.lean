import Xv6.Proc.Lemmas.Inv

/-!
# Sleeping parents and clean slots

Two more invariants: a process asleep in `kwait` has no exited child, and, as long as `kkill` is not
asked for pid 0, an unused slot is as clean as in the first state. Then the invariants of every run.
-/

namespace Xv6.Proc

open Lib

variable {s t : Sys} {p q i : Fin nproc} {a : Act}

/-! ## No wakeup is lost -/

/-- A slot is replaced by one that neither sleeps nor is a zombie, with the same parent or none at
all, or with a parent for an embryo. -/
theorem NoLostWakeup.replace {x : Slot} (h : NoLostWakeup s) (np : Fin nproc) (hslot : t.slot = (s.setSlot np x).slot)
    (hx : x.state ≠ .sleeping ∧ x.state ≠ .zombie) : NoLostWakeup t := by
  intro p q hs hc
  rw [hslot] at hs hc ⊢
  obtain rfl | hp := eq_or_ne p np
  · rw [setSlot_self] at hs
    exact absurd hs hx.1
  · rw [setSlot_ne _ hp] at hs hc
    obtain ⟨hq, hkids⟩ := h p q hs hc
    refine ⟨hq, fun c hpar => ?_⟩
    obtain rfl | hcn := eq_or_ne c np
    · rw [setSlot_self]
      exact hx.2
    · rw [setSlot_ne _ hcn] at hpar ⊢
      exact hkids c hpar

theorem NoLostWakeup.mild {x : Slot} {pc : Pc} (h : NoLostWakeup s) (hm : Mild s i p x pc) :
    NoLostWakeup ((s.setSlot i x).setPc p pc) := by
  intro q q' hs hc
  rw [setPc_slot] at hs hc ⊢
  have hkids : q' = q ∧ ∀ c, (s.slot c).parent = some q → (s.slot c).state ≠ .zombie := by
    obtain rfl | hqi := eq_or_ne q i
    · rw [setSlot_self] at hs hc
      rcases hm.asleep hs q' hc with ⟨hs', hc'⟩ | ⟨hq, hnone⟩
      · exact h q q' hs' hc'
      · exact ⟨hq, exitedChild_none hnone⟩
    · rw [setSlot_ne _ hqi] at hs hc
      exact h q q' hs hc
  refine ⟨hkids.1, fun c hpar hz => ?_⟩
  obtain ⟨h₁, _, h₃, _⟩ := hm.same c
  rw [h₃] at hpar
  rw [hz] at h₁
  exact hkids.2 c hpar (life_zombie h₁.symm)

theorem NoLostWakeup.exit {status : BitVec 32} (h : NoLostWakeup s) (hne : p ≠ s.initproc)
    (ht : t.slot = exitSection s.initproc p status s.slot) : NoLostWakeup t := by
  intro q q' hs hc
  simp only [ht, exitSection_apply hne] at hs hc ⊢
  obtain rfl | hqp := eq_or_ne q p
  · rw [if_pos rfl] at hs
    cases hs
  · rw [if_neg hqp] at hs
    split at hs
    · cases hs
    · rename_i hwoken
      obtain ⟨rfl, hkids⟩ := h q q' hs hc
      refine ⟨rfl, fun c hpar hz => hwoken ⟨hs, ?_⟩⟩
      obtain rfl | hcp := eq_or_ne c p
      · refine Or.inr ?_
        rw [hpar, hc]
        rfl
      · rw [if_neg hcp] at hz
        have hz' : (s.slot c).state = .zombie := by
          split at hz
          · cases hz
          · exact hz
        rw [newParent] at hpar
        split at hpar
        · rename_i hcpar
          cases hpar
          exact Or.inl ⟨⟨c, hcpar⟩, hc⟩
        · exact absurd hz' (hkids c hpar)

theorem NoLostWakeup.effect (h : NoLostWakeup s) (hwf : Wf s) (he : Effect s a t) : NoLostWakeup t := by
  cases he with
  | mild i p x pc hm _ => exact h.mild hm
  | failed p np hu hrun => exact h.replace np rfl ⟨nofun, nofun⟩
  | alloc p np x hu hrun h₁ _ _ _ _ => exact h.replace np (x := x) rfl ⟨by rw [h₁]; decide, by rw [h₁]; decide⟩
  | link p np pid hpc hrun =>
      have hok := hwf.pc p
      rw [hpc] at hok
      exact h.replace np rfl ⟨by rw [hok.1]; decide, by rw [hok.1]; decide⟩
  | start p np pid hpc hrun => exact h.replace np rfl ⟨nofun, nofun⟩
  | exit p status hpc hrun =>
      have hok := hwf.pc p
      rw [hpc] at hok
      exact h.exit hok.1 rfl
  | reap p c env addr hrun hz _ _ _ _ _ => exact h.replace c rfl ⟨nofun, nofun⟩

/-! ## Clean slots -/

/-- An unused slot is as it was in the beginning. -/
def Clean (s : Sys) : Prop := ∀ p, (s.slot p).state = .unused → s.slot p = {}

/-- No `kkill` looks for pid 0. -/
def KillsNonzero (s : Sys) : Prop := ∀ p pid k, s.pc p = .kill pid k → pid ≠ 0

theorem KillsNonzero.effect (h : KillsNonzero s) (ha : ∀ p, a ≠ .kkill p 0) (he : Effect s a t) : KillsNonzero t := by
  have hmove : ∀ {u : Sys} {p : Fin nproc} {pc : Pc}, KillsNonzero u → (∀ pid k, pc = .kill pid k → pid ≠ 0) →
      KillsNonzero (u.setPc p pc) := by
    intro u p pc hu hpc q pid k hq
    obtain rfl | hqp := eq_or_ne q p
    · rw [setPc_self] at hq
      exact hpc pid k hq
    · rw [setPc_ne _ hqp] at hq
      exact hu q pid k hq
  cases he with
  | mild i p x pc hm hkill =>
      refine hmove h fun pid k hpc => ?_
      rcases hkill pid k hpc with ⟨k', hk⟩ | rfl
      · exact h p pid k' hk
      · rintro rfl
        exact ha p rfl
  | failed p np hu hrun => exact hmove h nofun
  | alloc p np x hu hrun _ _ _ _ _ => exact hmove (hmove (u := Sys.setSlot _ np x) h nofun) nofun
  | link p np pid hpc hrun => exact hmove (u := s.setSlot np _) h nofun
  | start p np pid hpc hrun => exact hmove h nofun
  | exit p status hpc hrun => exact hmove h nofun
  | reap p c env addr hrun hz _ _ _ _ _ => exact hmove (u := s.setSlot c _) h nofun

theorem Clean.replace {x : Slot} (h : Clean s) (np : Fin nproc) (hslot : t.slot = (s.setSlot np x).slot)
    (hx : x.state = .unused → x = {}) : Clean t := by
  intro p hp
  rw [hslot] at hp ⊢
  obtain rfl | hpn := eq_or_ne p np
  · rw [setSlot_self] at hp ⊢
    exact hx hp
  · rw [setSlot_ne _ hpn] at hp ⊢
    exact h p hp

theorem freeproc_eq {x : Slot} (hofile : ∀ j, x.ofile j = 0) (hcwd : x.cwd = 0) : freeproc x = {} := by
  have h : x.ofile = fun _ => 0 := funext hofile
  simp only [freeproc, h, hcwd]

theorem Clean.effect (h : Clean s) (hwf : Wf s) (hkills : KillsNonzero s) (he : Effect s a t) : Clean t := by
  cases he with
  | mild i p x pc hm _ =>
      refine h.replace i (x := x) rfl fun hx => ?_
      have hu : (s.slot i).state = .unused := life_free (by rw [← hm.life, hx]; rfl)
      rcases hm.unused hu with rfl | ⟨_, k, hk⟩
      · exact h i hu
      · exact absurd (by rw [h i hu]) (hkills p _ k hk)
  | failed p np hu hrun => exact h.replace np rfl fun _ => by rw [h np hu]
  | alloc p np x hu hrun h₁ _ _ _ _ =>
      exact h.replace np (x := x) rfl fun hx => absurd (h₁.symm.trans hx) (by decide)
  | link p np pid hpc hrun =>
      have hok := hwf.pc p
      rw [hpc] at hok
      exact h.replace np rfl fun hx => absurd (hok.1.symm.trans hx) (by decide)
  | start p np pid hpc hrun => exact h.replace np rfl nofun
  | exit p status hpc hrun =>
      have hok := hwf.pc p
      rw [hpc] at hok
      intro q hq
      simp only [exitSection_apply hok.1] at hq ⊢
      obtain rfl | hqp := eq_or_ne q p
      · rw [if_pos rfl] at hq
        cases hq
      · rw [if_neg hqp] at hq
        have hu : (s.slot q).state = .unused := by
          split at hq
          · cases hq
          · exact hq
        simp [h q hu, newParent, hqp]
  | reap p c env addr hrun hz _ _ _ _ _ =>
      obtain ⟨h₁, h₂⟩ := hwf.zombie c hz
      exact h.replace c rfl fun _ => freeproc_eq h₁ h₂

/-! ## Runs -/

theorem Effect.initproc (he : Effect s a t) : t.initproc = s.initproc := by
  cases he <;> rfl

theorem Effect.forks_le (he : Effect s a t) : s.forks ≤ t.forks := by
  cases he with
  | failed | alloc => exact Nat.le_succ _
  | mild | link | start | exit | reap => exact Nat.le_refl _

theorem exec_of_step (hs : step s a = some (.ok t)) : ∃ r, exec s a = some (.ok (r, t)) := by
  obtain ⟨r, he, hr⟩ := Option.map_eq_some_iff.1 hs
  cases r with
  | error e => cases hr
  | ok rt =>
      obtain ⟨r, u⟩ := rt
      cases hr
      exact ⟨r, he⟩

theorem slot_userinit_ne {env : Env} {root : Nat} (hp : p ≠ (userinit env root).initproc) :
    (userinit env root).slot p = {} := by
  simp only [userinit] at hp ⊢
  rw [Function.update_of_ne hp]

theorem slot_userinit (env : Env) (root : Nat) (p : Fin nproc) :
    (userinit env root).slot p = {} ∨ p = (userinit env root).initproc ∧ ((userinit env root).slot p).state = .runnable ∧
      ((userinit env root).slot p).pid = 1 ∧ ((userinit env root).slot p).parent = none := by
  obtain rfl | hp := eq_or_ne p (userinit env root).initproc
  · exact Or.inr ⟨rfl, rfl, rfl, rfl⟩
  · exact Or.inl (slot_userinit_ne hp)

theorem wf_userinit (env : Env) (root : Nat) : Wf (userinit env root) := by
  refine ⟨fun _ => trivial, fun p hp => absurd rfl hp, nofun, fun p hp => ?_, fun p hp => ?_, rfl⟩
  · rcases slot_userinit env root p with h | ⟨_, h, _⟩
    · rw [h] at hp
      cases hp
    · rw [h] at hp
      cases hp
  · rcases slot_userinit env root p with h | ⟨_, h, _⟩
    · rw [h]
      exact ⟨rfl, rfl, rfl, rfl⟩
    · rw [h] at hp
      cases hp

theorem noLostWakeup_userinit (env : Env) (root : Nat) : NoLostWakeup (userinit env root) := by
  intro p q hs _
  rcases slot_userinit env root p with h | ⟨_, h, _⟩
  · rw [h] at hs
    cases hs
  · rw [h] at hs
    cases hs

theorem clean_userinit (env : Env) (root : Nat) : Clean (userinit env root) := by
  intro p hp
  rcases slot_userinit env root p with h | ⟨_, h, _⟩
  · exact h
  · rw [h] at hp
    cases hp

theorem family_userinit (env : Env) (root : Nat) : (userinit env root).view.Ok (userinit env root).initproc := by
  have hmember : ∀ p, (userinit env root).view.member p = .gone ∨ p = (userinit env root).initproc ∧
      (userinit env root).view.member p = ⟨.alive, 1, 0, none, none⟩ := by
    intro p
    obtain rfl | hp := eq_or_ne p (userinit env root).initproc
    · exact Or.inr ⟨rfl, rfl⟩
    · refine Or.inl ?_
      simp only [Sys.view, slot_userinit_ne hp]
      rfl
  have hlife : ∀ p, ((userinit env root).view.member p).life ≠ .free → p = (userinit env root).initproc ∧
      (userinit env root).view.member p = ⟨.alive, 1, 0, none, none⟩ := by
    intro p hp
    rcases hmember p with h | h
    · rw [h] at hp
      exact absurd rfl hp
    · exact h
  have hnone : ∀ p, ((userinit env root).view.member p).parent = none ∧
      ((userinit env root).view.member p).origin = none ∧ ((userinit env root).view.member p).life ≠ .zombie := by
    intro p
    rcases hmember p with h | ⟨_, h⟩
    · rw [h]
      exact ⟨rfl, rfl, fun h => by cases h⟩
    · rw [h]
      exact ⟨rfl, rfl, fun h => by cases h⟩
  refine ⟨⟨fun p hp => ?_, fun p q hp hq _ => ?_, fun _ h => absurd h List.not_mem_nil, fun _ _ => List.not_mem_nil⟩,
    ⟨fun p _ => ?_, fun p q hp => ?_, fun p o hp => ?_, rfl⟩,
    ⟨List.nodup_nil, fun p hp => ?_, fun _ h => absurd h List.not_mem_nil, List.Subset.refl _, List.nodup_nil⟩⟩
  · rw [(hlife p hp).2]
    exact ⟨by decide, Nat.lt_succ_self 1⟩
  · exact (hlife p hp).1.trans (hlife q hq).1.symm
  · exact ⟨(hnone p).1, (hnone p).2.1⟩
  · rw [(hnone p).1] at hp
    cases hp
  · rw [(hnone p).2.1] at hp
    cases hp
  · exact absurd hp (hnone p).2.2

/-- The invariants of every run. -/
structure Inv (s : Sys) : Prop where
  wf : Wf s
  wakeup : NoLostWakeup s
  family : s.forks < 2 ^ 31 - 1 → s.view.Ok s.initproc

theorem inv_userinit (env : Env) (root : Nat) : Inv (userinit env root) :=
  ⟨wf_userinit env root, noLostWakeup_userinit env root, fun _ => family_userinit env root⟩

theorem Inv.effect (h : Inv s) (he : Effect s a t) : Inv t := by
  refine ⟨h.wf.effect he, h.wakeup.effect h.wf he, fun hforks => ?_⟩
  have hle := he.forks_le
  have hok := h.family (by omega)
  rw [he.initproc]
  rcases view_effect h.wf he with heq | hstep
  · rw [heq]
    exact hok
  · refine hok.step hstep (Nat.succ_pos _) ?_
    show s.forks + 2 < 2 ^ 32
    omega

theorem Inv.step (h : Inv s) (hs : step s a = some (.ok t)) : Inv t := by
  obtain ⟨r, he⟩ := exec_of_step hs
  exact h.effect (effect_of_exec h.wf he)

theorem inv_of_reach {ok : Sys → Act → Prop} {env : Env} {root : Nat} (h : Reach Proc.step ok (userinit env root) s) :
    Inv s :=
  h.inv (inv_userinit env root) fun _ _ _ hi _ hs => hi.step hs

end Xv6.Proc
