import Xv6.Space.Lemmas.Lazy
import Xv6.Space.Lemmas.Shape

/-!
# Theorems about the memory of processes
-/

namespace Xv6.Space

open Lib Vm

variable {S T : Spaces} {i : Nat} {p : Vm.Proc}

/-! ## A run to test on -/

/-- A memory with `n` pages. -/
def somePages (n : Nat) : Ram where
  mem _ _ := 0
  freelist := []
  krefcount _ := 0
  kend := physTop - n * pgSize
  trampolinePage := kernBase
  kfail := false

/-- A run after `kinit` comes to an end, and the state reached passes the check. -/
def runsTo (s₀ : Ram) (ls : List Act) (check : Spaces → Bool) : Bool :=
  returns kinit (fun _ s =>
    match run Spaces.step ls (Spaces.boot s) with
    | some (.ok S) => check S
    | _ => false) s₀

theorem reachable_of_runsTo {ls : List Act} {check : Spaces → Bool} {n : Nat} (hok : ∀ s, RunOk Spaces.step Spaces.ok ls (Spaces.boot s))
    (hn : n ≤ 1000) (h : runsTo (somePages n) ls check = true) : ∃ S, S.Reachable ∧ check S = true := by
  obtain ⟨_, s, hs, h⟩ := of_returns h
  split at h
  · rename_i S hrun
    refine ⟨S, ⟨somePages n, s, ⟨?_, Nat.sub_le _ _, rfl⟩, hs, reach_of_run (hok s) hrun⟩, h⟩
    show kernBase ≤ physTop - n * pgSize
    rw [physTop_eq]
    unfold kernBase pgSize
    omega
  · cases h

/-- A process grows by a page that is not there yet. -/
def lazyPage : List Act := [.start 0, .sbrk 0 4096 2]

theorem lazyPage_ok (s : Ram) : RunOk Spaces.step Spaces.ok lazyPage (Spaces.boot s) :=
  ⟨trivial, fun _ _ => ⟨⟨by decide, by decide⟩, fun _ _ => trivial⟩⟩

theorem lazyPage_runs : runsTo (somePages 8) lazyPage (fun S =>
    match S.proc 0 with
    | some p => p.sz == 4096 && (S.ram.table p.pagetable 0).isNone
    | none => false) = true := by decide +kernel

theorem exists_lazyPage : ∃ S p, Spaces.Reachable S ∧ S.proc 0 = some p ∧ p.sz = 4096 ∧ S.ram.table p.pagetable 0 = none := by
  obtain ⟨S, hS, h⟩ := reachable_of_runsTo lazyPage_ok (by decide) lazyPage_runs
  split at h
  · rename_i p hp
    rw [Bool.and_eq_true, beq_iff_eq, Option.isNone_iff_eq_none] at h
    exact ⟨S, p, hS, hp, h.1, h.2⟩
  · cases h

/-! ## Page tables -/

/-- In every state that is reached: a process is no larger than `TRAPFRAME`, its page table has entries below
its size and the two at the top only, and each page of the table is used for this table only. So no call
panics, unless `kexec` finds the inode table full. -/
theorem page_table_shape (hS : S.Reachable) :
    (∀ i p, S.proc i = some p → p.sz ≤ trapframe ∧
      (∀ v x, S.ram.table p.pagetable v = some x → EntryOk p v x.2) ∧
      ∀ d k t, d ≤ 2 → k < 512 ^ d → S.ram.node p.pagetable d k = some t → TablePage S i d k t) ∧
    ∀ l e, S.ok l → S.step l = some (.error e) → e = .panic .igetFull := by
  obtain ⟨g, hok⟩ := hS.ok
  refine ⟨fun i p hp => ⟨size_le (hok.proc i p hp).size, fun v x hx => hok.entryOk hp hx, fun d k t hd hk ht => ?_⟩, ?_⟩
  · exact hok.tablePage hp hd hk ht
  · intro l e hl he
    rcases hok.step hl with h₁ | ⟨T, h, h₁, -⟩ | h₁
    · rw [h₁] at he
      cases he
    · rw [h₁] at he
      cases he
    · rw [h₁] at he
      cases he
      rfl

theorem page_table_shape_lazy : ∃ S p, Spaces.Reachable S ∧ S.proc 0 = some p ∧ p.sz = 4096 ∧
    TablePage S 0 0 0 p.pagetable ∧ ∀ l e, S.ok l → S.step l = some (.error e) → e = .panic .igetFull := by
  obtain ⟨S, p, hS, hp, hsz, -⟩ := exists_lazyPage
  obtain ⟨h₁, h₂⟩ := page_table_shape hS
  exact ⟨S, p, hS, hp, hsz, (h₁ 0 p hp).2.2 0 0 p.pagetable (by omega) Nat.one_pos rfl, h₂⟩

/-! ## Pages -/

/-- The entries of processes that map the page `a`, with the roots of their page tables. -/
def Spaces.maps (S : Spaces) (a : Nat) : Set (Nat × Nat) :=
  {x | (∃ i p, S.proc i = some p ∧ p.pagetable = x.1) ∧ x.2 < userPages ∧ ∃ flags, S.ram.table x.1 x.2 = some (a, flags)}

/-- In every state that is reached, for every process, every `int` and both modes. A sum below 0 changes
nothing, and one above `TRAPFRAME` fails. Otherwise the size becomes the sum: shrinking unmaps exactly the
pages above the new size; growing without `SBRK_EAGER` maps nothing; with it, zeroed pages are mapped
exactly where the process has grown, or nothing changes if there are too few free pages. -/
theorem sbrk_arithmetic (hS : S.Reachable) (hp : S.proc i = some p) (n t : Int) (hn : -2 ^ 31 ≤ n ∧ n < 2 ^ 31) :
    p.sz ≤ trapframe ∧ ∃ res q u, sysSbrk p n t S.ram = .ok (res, q) u ∧ q.sz ≤ trapframe ∧
      ((p.sz : Int) + n < 0 → res = p.sz ∧ q = p ∧ u = S.ram) ∧
      ((trapframe : Int) < p.sz + n → res = -1 ∧ q = p ∧ u = S.ram) ∧
      ∀ sz : Nat, (sz : Int) = p.sz + n → sz ≤ trapframe →
        (n < 0 → res = p.sz ∧ q = { p with sz := sz } ∧ ShrunkTable S.ram p.pagetable (npages sz) (npages p.sz) u) ∧
        (0 ≤ n → t ≠ sbrkEager → res = p.sz ∧ q = { p with sz := sz } ∧ u = S.ram) ∧
        (0 ≤ n → t = sbrkEager → S.ram.pagesNeeded p.pagetable (npages p.sz) (npages sz) ≤ S.ram.freelist.length →
          res = p.sz ∧ q = { p with sz := sz } ∧ GrownTable S.ram p.pagetable (npages p.sz) (npages sz) u) ∧
        (0 ≤ n → t = sbrkEager → S.ram.freelist.length < S.ram.pagesNeeded p.pagetable (npages p.sz) (npages sz) →
          res = -1 ∧ q = p ∧ ∀ v, u.table p.pagetable v = S.ram.table p.pagetable v) := by
  obtain ⟨g, hok⟩ := hS.ok
  have hold := hok.proc i p hp
  have hle := size_le hold.size
  refine ⟨hle, ?_⟩
  obtain ⟨⟨res, q⟩, u, hrun, hres⟩ := wp_returns (sysSbrk_spec (t := t) hok hp hn)
  refine ⟨res, q, u, hrun, ?_⟩
  cases hres with
  | @lazy sz heager hpos hsz hle' =>
      refine ⟨hle', fun h₁ => absurd h₁ (by omega), fun h₁ => absurd h₁ (by omega), fun sz' hsz' _ => ?_⟩
      obtain rfl : sz' = sz := by omega
      refine ⟨fun h₁ => absurd h₁ (by omega), fun _ _ => ⟨rfl, rfl, rfl⟩, fun _ h₁ _ => ⟨rfl, rfl, ?_⟩, fun _ h₁ hlack => ?_⟩ <;>
        obtain rfl : sz' = p.sz := by have h₂ := heager.resolve_left (fun h₂ => h₂ h₁); omega
      · exact ⟨fun v h₂ h₃ => absurd h₂ (Nat.not_le.2 h₃), fun v _ => rfl⟩
      · refine absurd hlack (Nat.not_lt.2 ?_)
        unfold Ram.pagesNeeded Ram.tablesNeeded
        simp
  | @grown sz h _ heager hpos hsz hle' henough hg =>
      refine ⟨hle', fun h₁ => absurd h₁ (by omega), fun h₁ => absurd h₁ (by omega), fun sz' hsz' _ => ?_⟩
      obtain rfl : sz' = sz := by omega
      refine ⟨fun h₁ => absurd h₁ (by omega), fun _ h₁ => absurd heager h₁, fun _ _ _ => ⟨rfl, rfl, ?_⟩,
        fun _ _ hlack => absurd hlack (Nat.not_lt.2 henough)⟩
      exact grownTable hok.inv (hok.root hp) (npages_le_userPages hle') hg
  | @shrunk sz h _ hneg hsz hu =>
      refine ⟨by show sz ≤ trapframe; omega, fun h₁ => absurd h₁ (by omega), fun h₁ => absurd h₁ (by omega), fun sz' hsz' _ => ?_⟩
      obtain rfl : sz' = sz := by omega
      exact ⟨fun _ => ⟨rfl, rfl, shrunkTable hok.inv (hok.root hp) hu⟩, fun h₁ => absurd h₁ (by omega),
        fun h₁ => absurd h₁ (by omega), fun h₁ => absurd h₁ (by omega)⟩
  | under hneg => exact ⟨hle, fun _ => ⟨rfl, rfl, rfl⟩, fun h₁ => absurd h₁ (by omega), fun sz hsz _ => absurd hsz (by omega)⟩
  | above hover => exact ⟨hle, fun h₁ => absurd h₁ (by omega), fun _ => ⟨rfl, rfl, rfl⟩, fun sz hsz _ => absurd hsz (by omega)⟩
  | @short sz h _ heager hpos hsz hle' hlack hs =>
      refine ⟨hle, fun h₁ => absurd h₁ (by omega), fun h₁ => absurd h₁ (by omega), fun sz' hsz' _ => ?_⟩
      obtain rfl : sz' = sz := by omega
      refine ⟨fun h₁ => absurd h₁ (by omega), fun _ h₁ => absurd heager h₁,
        fun _ _ henough => absurd henough (Nat.not_le.2 hlack), fun _ _ _ => ⟨rfl, rfl, fun v => ?_⟩⟩
      exact table_of_leaf hok.inv (hok.root hp) hs.inv (hs.root (hok.root hp)) (hs.frame.leaf _ v id)

/-- 3 bytes less. -/
theorem sbrk_arithmetic_lazy : ∃ S p, Spaces.Reachable S ∧ S.proc 0 = some p ∧ p.sz = 4096 ∧
    ∃ res q u, sysSbrk p (-3) 1 S.ram = .ok (res, q) u ∧ res = 4096 ∧ q = { p with sz := 4093 } := by
  obtain ⟨S, p, hS, hp, hsz, -⟩ := exists_lazyPage
  obtain ⟨-, res, q, u, hrun, -, -, -, hin⟩ := sbrk_arithmetic hS hp (-3) 1 (by decide)
  obtain ⟨hres, hq, -⟩ := (hin 4093 (by rw [hsz]; rfl) (by decide)).1 (by decide)
  exact ⟨S, p, hS, hp, hsz, res, q, u, hrun, by rw [hres, hsz]; rfl, hq⟩

/-! ## Strings in pages that are not there yet -/

/-- In every state that is reached, when the pages of a process can all be mapped: `copyinstr` does what it
would do if the process had touched them, unless the string runs into a page that is not there. -/
theorem lazy_strings (hS : S.Reachable) (hp : S.proc i = some p) {t : Ram} (ht : touchAll p S.ram = .ok true t) (a max : Nat) :
    (∃ res, copyinstr p.pagetable a max S.ram = .ok res S.ram ∧ copyinstr p.pagetable a max t = .ok res t) ↔
      ¬ ∃ k, k < max ∧ Lazy S.ram p (a + k) ∧ ∀ j, j < k → ∃ c, S.ram.userByte p.pagetable (a + j) = some c ∧ c ≠ 0 := by
  obtain ⟨g, hok⟩ := hS.ok
  rw [← fetchString_touched hok hp ht, copyinstr_eq, copyinstr_eq]
  constructor
  · rintro ⟨res, h₁, h₂⟩
    have h₃ := (EStateM.Result.ok.inj h₁).1
    rw [h₃]
    exact (EStateM.Result.ok.inj h₂).1.symm
  · intro h₁
    exact ⟨_, rfl, by rw [h₁]⟩

theorem touched_runs : runsTo (somePages 8) lazyPage (fun S =>
    match S.proc 0 with
    | some p => decide (Lazy S.ram p 0 ∧ p.sz = 4096) &&
        returns (touchAll p) (fun done t => done && t.fetchString p.pagetable 0 1 == (true, [0])) S.ram
    | none => false) = true := by decide +kernel

/-- The pages of a process that has grown lazily can be touched. -/
theorem exists_touched : ∃ S p t, Spaces.Reachable S ∧ S.proc 0 = some p ∧ (Lazy S.ram p 0 ∧ p.sz = 4096) ∧
    touchAll p S.ram = .ok true t ∧ t.fetchString p.pagetable 0 1 = (true, [0]) := by
  obtain ⟨S, hS, h⟩ := reachable_of_runsTo lazyPage_ok (by decide) touched_runs
  split at h
  · rename_i p hp
    rw [Bool.and_eq_true, decide_eq_true_eq] at h
    obtain ⟨done, t, ht, hdone⟩ := of_returns h.2
    rw [Bool.and_eq_true, beq_iff_eq] at hdone
    exact ⟨S, p, t, hS, hp, h.1, hdone.1 ▸ ht, hdone.2⟩
  · cases h

/-- The empty string at address 0 in the page that is not there: refused, although it is read once the page
has been touched. A string beyond the size is refused in both cases. -/
theorem lazy_strings_page : ∃ S p t, Spaces.Reachable S ∧ S.proc 0 = some p ∧ touchAll p S.ram = .ok true t ∧
    (¬ ∃ res, copyinstr p.pagetable 0 1 S.ram = .ok res S.ram ∧ copyinstr p.pagetable 0 1 t = .ok res t) ∧
    ∃ res, copyinstr p.pagetable 4096 1 S.ram = .ok res S.ram ∧ copyinstr p.pagetable 4096 1 t = .ok res t := by
  obtain ⟨S, p, t, hS, hp, ⟨hl, hsz⟩, ht, -⟩ := exists_touched
  refine ⟨S, p, t, hS, hp, ht, fun h₁ => ?_, (lazy_strings hS hp ht 4096 1).2 ?_⟩
  · exact (lazy_strings hS hp ht 0 1).1 h₁ ⟨0, Nat.one_pos, hl, fun j hj => absurd hj (Nat.not_lt_zero j)⟩
  · rintro ⟨k, hk, ⟨-, hlt⟩, -⟩
    rw [hsz, Nat.lt_one_iff.1 hk] at hlt
    exact absurd hlt (by decide)

/-- `copyinstr` does not map the page that `copyin` would map. -/
theorem lazy_string_refused : ∃ S p t, Spaces.Reachable S ∧ S.proc 0 = some p ∧ touchAll p S.ram = .ok true t ∧
    copyinstr p.pagetable 0 1 S.ram = .ok (false, []) S.ram ∧ copyinstr p.pagetable 0 1 t = .ok (true, [0]) t := by
  obtain ⟨S, p, t, hS, hp, ⟨hl, -⟩, ht, hstr⟩ := exists_touched
  refine ⟨S, p, t, hS, hp, ht, ?_, ?_⟩
  · rw [copyinstr_eq, fetchString_none hl.userByte]
  · rw [copyinstr_eq, hstr]

end Xv6.Space
