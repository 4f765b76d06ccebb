import Mathlib.Algebra.GroupWithZero.Nat
import Mathlib.Data.Fintype.Basic
import Mathlib.Data.List.Nodup

/-!
# Families of processes

What the process table is for, without its fields and locks: slots of an arbitrary type hold
processes with a pid, a parent and a life, and the family grows by forks and shrinks when a parent
takes the status of an exited child. The invariant says that nobody is lost on the way.
-/

namespace Xv6.Proc

open Function

inductive Life
  | free
  | embryo
  | alive
  | zombie
  deriving DecidableEq

/-- A slot: `origin` is the pid of the process that became the parent when the child was linked. -/
structure Member (ι : Type) where
  life : Life
  pid : BitVec 32
  status : BitVec 32
  parent : Option ι
  origin : Option (BitVec 32)

/-- The slots, the number of the next pid, and the pids with the statuses of those that have exited
and of those that a parent has taken. -/
structure Family (ι : Type) where
  member : ι → Member ι
  next : Nat
  exits : List (BitVec 32 × BitVec 32)
  reaps : List (BitVec 32 × BitVec 32)

variable {ι : Type} [DecidableEq ι]

def Member.gone : Member ι := ⟨.free, 0, 0, none, none⟩

def Family.set (F : Family ι) (k : ι) (m : Member ι) : Family ι :=
  { F with member := update F.member k m }

/-- `p` exits and its children go to `init`. -/
def Family.leave (F : Family ι) (init p : ι) (status : BitVec 32) (i : ι) : Member ι :=
  { F.member i with
    life := if i = p then .zombie else (F.member i).life
    status := if i = p then status else (F.member i).status
    parent := if (F.member i).parent = some p then some init else (F.member i).parent }

inductive Family.Step (init : ι) (F : Family ι) : Family ι → Prop
  /-- A pid is taken and not used. -/
  | skip : Step init F { F with next := F.next + 1 }
  | alloc (k : ι) : (F.member k).life = .free →
      Step init F { F.set k ⟨.embryo, BitVec.ofNat 32 F.next, 0, none, none⟩ with next := F.next + 1 }
  | link (k p : ι) : (F.member k).life = .embryo → (F.member p).life = .alive →
      Step init F (F.set k { F.member k with parent := some p, origin := some (F.member p).pid })
  | start (k : ι) : (F.member k).life = .embryo → Step init F (F.set k { F.member k with life := .alive })
  | exit (p : ι) (status : BitVec 32) : (F.member p).life = .alive → p ≠ init →
      Step init F { F with
        member := F.leave init p status
        exits := F.exits ++ [((F.member p).pid, status)] }
  | reap (c : ι) : (F.member c).life = .zombie →
      Step init F { F.set c .gone with reaps := F.reaps ++ [((F.member c).pid, (F.member c).status)] }

/-! ## The invariant -/

/-- An embryo or alive. -/
def Life.here : Life → Bool
  | .embryo | .alive => true
  | .free | .zombie => false

/-- Pids are given out in order and no two slots in use share one; nobody who is here has exited. -/
structure Family.Pids (F : Family ι) : Prop where
  pid : ∀ i, (F.member i).life ≠ .free → (F.member i).pid.toNat ≠ 0 ∧ (F.member i).pid.toNat < F.next
  inj : ∀ i j, (F.member i).life ≠ .free → (F.member j).life ≠ .free → (F.member i).pid = (F.member j).pid → i = j
  exits_lt : ∀ e ∈ F.exits, e.1.toNat < F.next
  here : ∀ i, (F.member i).life.here = true → (F.member i).pid ∉ F.exits.map Prod.fst

/-- A child that has been linked has a parent that is alive: the one it was linked to, or `init` when
that one has exited. -/
structure Family.Parents (init : ι) (F : Family ι) : Prop where
  free : ∀ i, (F.member i).life = .free → (F.member i).parent = none ∧ (F.member i).origin = none
  parent : ∀ i q, (F.member i).parent = some q → (F.member q).life = .alive ∧
    ∃ o, (F.member i).origin = some o ∧ ((F.member q).pid = o ∨ q = init ∧ o ∈ F.exits.map Prod.fst)
  origin : ∀ i o, (F.member i).origin = some o → (F.member i).parent ≠ none
  init : (F.member init).life = .alive

/-- Whoever has exited is a zombie, or has been taken once. -/
structure Family.History (F : Family ι) : Prop where
  exits_nodup : (F.exits.map Prod.fst).Nodup
  zombie : ∀ i, (F.member i).life = .zombie →
    ((F.member i).pid, (F.member i).status) ∈ F.exits ∧ (F.member i).pid ∉ F.reaps.map Prod.fst
  kept : ∀ e ∈ F.exits, e ∈ F.reaps ∨ ∃ i, (F.member i).life = .zombie ∧ e = ((F.member i).pid, (F.member i).status)
  reaps_sub : F.reaps ⊆ F.exits
  reaps_nodup : (F.reaps.map Prod.fst).Nodup

structure Family.Ok (init : ι) (F : Family ι) : Prop where
  pids : F.Pids
  parents : F.Parents init
  history : F.History

variable {init : ι} {F G : Family ι} {k p c : ι}

namespace Family

theorem set_self (m : Member ι) : (F.set k m).member k = m := update_self ..

theorem set_ne {i : ι} (m : Member ι) (h : i ≠ k) : (F.set k m).member i = F.member i :=
  update_of_ne h ..

/-! ## Pids -/

omit [DecidableEq ι] in
theorem Pids.skip (h : F.Pids) : ({ F with next := F.next + 1 } : Family ι).Pids :=
  { h with
    pid := fun i hi => ⟨(h.pid i hi).1, Nat.lt_succ_of_lt (h.pid i hi).2⟩
    exits_lt := fun e he => Nat.lt_succ_of_lt (h.exits_lt e he) }

/-- A pid that has been given out is not the next one. -/
theorem ne_ofNat {x : BitVec 32} {n : Nat} (hn : n < 2 ^ 32) (h : x.toNat < n) : x ≠ BitVec.ofNat 32 n := by
  rintro rfl
  rw [BitVec.toNat_ofNat, Nat.mod_eq_of_lt hn] at h
  exact Nat.lt_irrefl _ h

theorem Pids.alloc (h : F.Pids) (hpos : 0 < F.next) (hn : F.next < 2 ^ 32) :
    ({ F.set k ⟨.embryo, BitVec.ofNat 32 F.next, 0, none, none⟩ with next := F.next + 1 } : Family ι).Pids := by
  have hpid : (BitVec.ofNat 32 F.next).toNat = F.next := by rw [BitVec.toNat_ofNat, Nat.mod_eq_of_lt hn]
  have hold : ∀ i, (F.member i).life ≠ .free → (F.member i).pid ≠ BitVec.ofNat 32 F.next :=
    fun i hi => ne_ofNat hn (h.pid i hi).2
  constructor
  · intro i hi
    obtain rfl | hik := eq_or_ne i k
    · simp only [set_self, hpid]
      omega
    · simp only [set_ne _ hik] at hi ⊢
      exact ⟨(h.pid i hi).1, Nat.lt_succ_of_lt (h.pid i hi).2⟩
  · intro i j hi hj heq
    obtain rfl | hik := eq_or_ne i k
    · obtain rfl | hjk := eq_or_ne j i
      · rfl
      · simp only [set_self, set_ne _ hjk] at hj heq
        exact absurd heq.symm (hold j hj)
    · obtain rfl | hjk := eq_or_ne j k
      · simp only [set_self, set_ne _ hik] at hi heq
        exact absurd heq (hold i hi)
      · simp only [set_ne _ hik, set_ne _ hjk] at hi hj heq
        exact h.inj i j hi hj heq
  · intro e he
    exact Nat.lt_succ_of_lt (h.exits_lt e he)
  · intro i hi
    obtain rfl | hik := eq_or_ne i k
    · simp only [set_self]
      intro hmem
      obtain ⟨e, he, heq⟩ := List.mem_map.1 hmem
      exact ne_ofNat hn (h.exits_lt e he) heq
    · simp only [set_ne _ hik] at hi ⊢
      exact h.here i hi

omit [DecidableEq ι] in
/-- Pids stay right when nobody who was free comes into use and nobody who was not here comes here. -/
theorem Pids.mono (h : F.Pids) (hpid : ∀ i, (G.member i).life ≠ .free → (G.member i).pid = (F.member i).pid)
    (hfree : ∀ i, (F.member i).life = .free → (G.member i).life = .free)
    (hhere : ∀ i, (G.member i).life.here = true → (F.member i).life.here = true)
    (hexits : ∀ e ∈ G.exits, e ∈ F.exits) (hnext : G.next = F.next) : G.Pids := by
  have huse : ∀ i, (G.member i).life ≠ .free → (F.member i).life ≠ .free := fun i hi hf => hi (hfree i hf)
  constructor
  · intro i hi
    rw [hpid i hi, hnext]
    exact h.pid i (huse i hi)
  · intro i j hi hj heq
    rw [hpid i hi, hpid j hj] at heq
    exact h.inj i j (huse i hi) (huse j hj) heq
  · intro e he
    rw [hnext]
    exact h.exits_lt e (hexits e he)
  · intro i hi hmem
    obtain ⟨e, he, heq⟩ := List.mem_map.1 hmem
    have hne : (G.member i).life ≠ .free := fun hf => by rw [hf] at hi; cases hi
    rw [hpid i hne] at heq
    exact h.here i (hhere i hi) (List.mem_map.2 ⟨e, hexits e he, heq⟩)

theorem Pids.exit {status : BitVec 32} (h : F.Pids) (hp : (F.member p).life = .alive) :
    ({ F with
        member := F.leave init p status
        exits := F.exits ++ [((F.member p).pid, status)] } : Family ι).Pids := by
  have huse : ∀ i, (F.leave init p status i).life ≠ .free → (F.member i).life ≠ .free := by
    intro i hi hf
    obtain rfl | hip := eq_or_ne i p
    · rw [hp] at hf
      cases hf
    · simp only [leave, if_neg hip] at hi
      exact hi hf
  constructor
  · exact fun i hi => h.pid i (huse i hi)
  · exact fun i j hi hj heq => h.inj i j (huse i hi) (huse j hj) heq
  · intro e he
    rcases List.mem_append.1 he with he | he
    · exact h.exits_lt e he
    · obtain rfl := List.mem_singleton.1 he
      exact (h.pid p (by rw [hp]; decide)).2
  · intro i hi hmem
    obtain rfl | hip := eq_or_ne i p
    · simp only [leave, if_true] at hi
      cases hi
    · simp only [leave, if_neg hip] at hi hmem
      rw [List.map_append, List.mem_append] at hmem
      rcases hmem with hmem | hmem
      · exact h.here i hi hmem
      · have hne : (F.member i).life ≠ .free := fun hf => by rw [hf] at hi; cases hi
        exact hip (h.inj i p hne (by rw [hp]; decide) (List.mem_singleton.1 hmem))

/-! ## Parents -/

/-- A slot that nobody names as parent gets new contents. -/
theorem Parents.set {m : Member ι} (h : F.Parents init) (hk : (F.member k).life ≠ .alive)
    (hfree : m.life = .free → m.parent = none ∧ m.origin = none)
    (hpar : ∀ q, m.parent = some q → (F.member q).life = .alive ∧
      ∃ o, m.origin = some o ∧ ((F.member q).pid = o ∨ q = init ∧ o ∈ F.exits.map Prod.fst))
    (horigin : ∀ o, m.origin = some o → m.parent ≠ none) : (F.set k m).Parents init := by
  have hne : ∀ q, (F.member q).life = .alive → q ≠ k := by
    rintro q hq rfl
    exact hk hq
  constructor
  · intro i hi
    obtain rfl | hik := eq_or_ne i k
    · rw [set_self] at hi ⊢
      exact hfree hi
    · rw [set_ne _ hik] at hi ⊢
      exact h.free i hi
  · intro i q hi
    obtain rfl | hik := eq_or_ne i k
    · rw [set_self] at hi ⊢
      rw [set_ne _ (hne q (hpar q hi).1)]
      exact hpar q hi
    · rw [set_ne _ hik] at hi ⊢
      rw [set_ne _ (hne q (h.parent i q hi).1)]
      exact h.parent i q hi
  · intro i o hi
    obtain rfl | hik := eq_or_ne i k
    · rw [set_self] at hi ⊢
      exact horigin o hi
    · rw [set_ne _ hik] at hi ⊢
      exact h.origin i o hi
  · rw [set_ne _ (hne init h.init)]
    exact h.init

theorem Parents.exit {status : BitVec 32} (h : F.Parents init) (hp : (F.member p).life = .alive) (hne : p ≠ init) :
    ({ F with
        member := F.leave init p status
        exits := F.exits ++ [((F.member p).pid, status)] } : Family ι).Parents init := by
  have hinit : (F.leave init p status init).life = .alive := by
    simp only [leave, if_neg hne.symm]
    exact h.init
  constructor
  · intro i hi
    have hf : (F.member i).life = .free := by
      obtain rfl | hip := eq_or_ne i p
      · simp only [leave, if_true] at hi
        cases hi
      · simpa only [leave, if_neg hip] using hi
    simp only [leave, h.free i hf]
    exact ⟨rfl, trivial⟩
  · intro i q hi
    simp only [leave] at hi
    split at hi
    · rename_i hip
      cases hi
      refine ⟨hinit, ?_⟩
      obtain ⟨_, o, ho, hq⟩ := h.parent i p hip
      refine ⟨o, ho, Or.inr ⟨rfl, ?_⟩⟩
      rcases hq with rfl | ⟨hq, _⟩
      · simp
      · exact absurd hq hne
    · rename_i hip
      have hqp : q ≠ p := by
        rintro rfl
        exact hip hi
      obtain ⟨hq, o, ho, hor⟩ := h.parent i q hi
      refine ⟨by simpa only [leave, if_neg hqp] using hq, o, ho, ?_⟩
      rcases hor with hor | ⟨rfl, hor⟩
      · exact Or.inl hor
      · exact Or.inr ⟨rfl, by rw [List.map_append]; exact List.mem_append_left _ hor⟩
  · intro i o hi hn
    simp only [leave] at hn
    split at hn
    · cases hn
    · exact h.origin i o hi hn
  · exact hinit

/-! ## History -/

omit [DecidableEq ι] in
/-- Nobody becomes a zombie or stops being one. -/
theorem History.mono (h : F.History) (hz : ∀ i, (G.member i).life = .zombie ↔ (F.member i).life = .zombie)
    (hm : ∀ i, (F.member i).life = .zombie →
      (G.member i).pid = (F.member i).pid ∧ (G.member i).status = (F.member i).status)
    (hexits : G.exits = F.exits) (hreaps : G.reaps = F.reaps) : G.History := by
  constructor
  · rw [hexits]
    exact h.exits_nodup
  · intro i hi
    have hi' := (hz i).1 hi
    rw [(hm i hi').1, (hm i hi').2, hexits, hreaps]
    exact h.zombie i hi'
  · intro e he
    rw [hexits] at he
    rw [hreaps]
    rcases h.kept e he with he | ⟨i, hi, rfl⟩
    · exact Or.inl he
    · exact Or.inr ⟨i, (hz i).2 hi, by rw [(hm i hi).1, (hm i hi).2]⟩
  · rw [hexits, hreaps]
    exact h.reaps_sub
  · rw [hreaps]
    exact h.reaps_nodup

theorem History.set {m : Member ι} (h : F.History) (hk : (F.member k).life ≠ .zombie) (hm : m.life ≠ .zombie) :
    (F.set k m).History := by
  refine h.mono (fun i => ?_) (fun i hi => ?_) rfl rfl
  · obtain rfl | hik := eq_or_ne i k
    · rw [set_self]
      exact ⟨fun h => absurd h hm, fun h => absurd h hk⟩
    · rw [set_ne _ hik]
  · obtain rfl | hik := eq_or_ne i k
    · exact absurd hi hk
    · rw [set_ne _ hik]
      exact ⟨rfl, rfl⟩

theorem History.exit {status : BitVec 32} (h : F.History) (hpids : F.Pids) (hp : (F.member p).life = .alive) :
    ({ F with
        member := F.leave init p status
        exits := F.exits ++ [((F.member p).pid, status)] } : Family ι).History := by
  have hnew : (F.member p).pid ∉ F.exits.map Prod.fst := hpids.here p (by rw [hp]; rfl)
  constructor
  · rw [List.map_append]
    exact List.nodup_append'.2 ⟨h.exits_nodup, List.nodup_singleton _, by simpa using hnew⟩
  · intro i hi
    obtain rfl | hip := eq_or_ne i p
    · simp only [leave, if_true]
      refine ⟨List.mem_append_right _ (List.mem_singleton.2 rfl), fun hmem => hnew ?_⟩
      obtain ⟨e, he, heq⟩ := List.mem_map.1 hmem
      exact List.mem_map.2 ⟨e, h.reaps_sub he, heq⟩
    · simp only [leave, if_neg hip] at hi ⊢
      exact ⟨List.mem_append_left _ (h.zombie i hi).1, (h.zombie i hi).2⟩
  · intro e he
    rcases List.mem_append.1 he with he | he
    · rcases h.kept e he with he | ⟨i, hi, rfl⟩
      · exact Or.inl he
      · have hip : i ≠ p := by
          rintro rfl
          exact absurd (hi.symm.trans hp) (by decide)
        refine Or.inr ⟨i, ?_, ?_⟩
        · simpa only [leave, if_neg hip] using hi
        · simp only [leave, if_neg hip]
    · obtain rfl := List.mem_singleton.1 he
      exact Or.inr ⟨p, by simp only [leave, if_true], by simp only [leave, if_true]⟩
  · exact fun e he => List.mem_append_left _ (h.reaps_sub he)
  · exact h.reaps_nodup

theorem History.reap (h : F.History) (hpids : F.Pids) (hc : (F.member c).life = .zombie) :
    ({ F.set c .gone with reaps := F.reaps ++ [((F.member c).pid, (F.member c).status)] } : Family ι).History := by
  obtain ⟨hexit, hnot⟩ := h.zombie c hc
  constructor
  · exact h.exits_nodup
  · intro i hi
    obtain rfl | hic := eq_or_ne i c
    · simp only [set_self] at hi
      cases hi
    · simp only [set_ne _ hic] at hi ⊢
      refine ⟨(h.zombie i hi).1, fun hmem => ?_⟩
      rw [List.map_append, List.mem_append] at hmem
      rcases hmem with hmem | hmem
      · exact (h.zombie i hi).2 hmem
      · exact hic (hpids.inj i c (by rw [hi]; decide) (by rw [hc]; decide) (List.mem_singleton.1 hmem))
  · intro e he
    rcases h.kept e he with he | ⟨i, hi, rfl⟩
    · exact Or.inl (List.mem_append_left _ he)
    · obtain rfl | hic := eq_or_ne i c
      · exact Or.inl (List.mem_append_right _ (List.mem_singleton.2 rfl))
      · exact Or.inr ⟨i, by simpa only [set_ne _ hic] using hi, by simp only [set_ne _ hic]⟩
  · intro e he
    rcases List.mem_append.1 he with he | he
    · exact h.reaps_sub he
    · obtain rfl := List.mem_singleton.1 he
      exact hexit
  · rw [List.map_append]
    exact List.nodup_append'.2 ⟨h.reaps_nodup, List.nodup_singleton _, by simpa using hnot⟩

/-! ## Steps -/

/-- Every step keeps the invariant while the pids last. -/
theorem Ok.step (h : F.Ok init) (hs : F.Step init G) (hpos : 0 < F.next) (hn : F.next < 2 ^ 32) : G.Ok init := by
  cases hs with
  | skip =>
      exact ⟨h.pids.skip, ⟨h.parents.free, h.parents.parent, h.parents.origin, h.parents.init⟩,
        h.history.mono (fun _ => Iff.rfl) (fun _ _ => ⟨rfl, rfl⟩) rfl rfl⟩
  | alloc k hk =>
      let m : Member ι := ⟨.embryo, BitVec.ofNat 32 F.next, 0, none, none⟩
      have hpar := h.parents.set (m := m) (by rw [hk]; decide) nofun nofun nofun
      have hhist := h.history.set (k := k) (m := m) (by rw [hk]; decide) nofun
      exact ⟨h.pids.alloc hpos hn, ⟨hpar.free, hpar.parent, hpar.origin, hpar.init⟩,
        hhist.mono (fun _ => Iff.rfl) (fun _ _ => ⟨rfl, rfl⟩) rfl rfl⟩
  | link k p hk hp =>
      refine ⟨?_, ?_, h.history.set (by rw [hk]; decide) (by rw [hk]; decide)⟩
      · refine h.pids.mono ?_ ?_ ?_ (fun _ he => he) rfl
        all_goals
          intro i
          obtain rfl | hik := eq_or_ne i k
          · rw [set_self]
            simp
          · rw [set_ne _ hik]
            simp
      · refine h.parents.set (by rw [hk]; decide) (fun hf => absurd (hf.symm.trans hk) (by decide)) ?_ nofun
        intro q hq
        cases hq
        exact ⟨hp, _, rfl, Or.inl rfl⟩
  | start k hk =>
      refine ⟨?_, ?_, h.history.set (by rw [hk]; decide) nofun⟩
      · refine h.pids.mono ?_ ?_ ?_ (fun _ he => he) rfl
        all_goals
          intro i
          obtain rfl | hik := eq_or_ne i k
          · rw [set_self]
            simp [hk, Life.here]
          · rw [set_ne _ hik]
            simp
      · exact h.parents.set (by rw [hk]; decide) nofun (h.parents.parent k) (h.parents.origin k)
  | exit p status hp hne => exact ⟨h.pids.exit hp, h.parents.exit hp hne, h.history.exit h.pids hp⟩
  | reap c hc =>
      have hpar := h.parents.set (k := c) (m := .gone) (by rw [hc]; decide) (fun _ => ⟨rfl, rfl⟩) nofun nofun
      refine ⟨?_, ⟨hpar.free, hpar.parent, hpar.origin, hpar.init⟩, h.history.reap h.pids hc⟩
      refine h.pids.mono ?_ ?_ ?_ (fun _ he => he) rfl
      all_goals
        intro i
        obtain rfl | hic := eq_or_ne i c
        · simp [set_self, Member.gone, Life.here]
        · simp [set_ne _ hic]

end Family

end Xv6.Proc
