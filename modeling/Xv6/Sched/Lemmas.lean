import Xv6.Sched.Sched

/-!
# The invariant of scheduling

A CPU changes its own record and slots whose lock it has, so what holds between another CPU and a slot stays.
-/

namespace Xv6.Sched

open Function Lib
open Xv6.Proc (State)

variable {C L K : Type}

attribute [grind] Section.body Section.after Sys.Settled

namespace Pc

/-- The slot whose lock a thread has; `proc` is its own. -/
@[grind] def owned (proc : Option (Fin nproc)) : Pc L K → Option (Fin nproc)
  | .out | .wakeup _ _ => none
  | .hold q | .look _ q => some q
  | _ => proc

/-- The state of the process on a CPU. -/
@[grind] def StateOk (st : State) : Pc L K → Prop
  | .hold _ | .dead => False
  | .back => st ≠ .running
  | .exited => st = .zombie
  | _ => st = .running

@[grind] def Idle : Pc L K → Prop
  | .out | .wakeup _ _ => True
  | _ => False

/-- The lock that is given back next. -/
@[simp, grind] def gives (lk : K → L) : Pc L K → Option L
  | .sleep k => some (lk k)
  | .exit l => some l
  | _ => none

/-- The channel on which a process is about to sleep, with its lock given back. -/
@[grind] def chan : Pc L K → Option K
  | .slept k => some k
  | _ => none

/-- A `wakeup` on `k` has yet to come to `p`. -/
@[simp, grind] def Before (k : K) (p : Fin nproc) : Pc L K → Prop
  | .wakeup k' rest => k' = k → p ∈ rest
  | .look (.wakeup k' rest) q => k' = k → p = q ∨ p ∈ rest
  | _ => True

end Pc

/-- The CPU that runs a process, and the channel on which it sleeps or is about to. -/
structure Note (C K : Type) where
  cpu : Option C := none
  chan : Option K := none

@[grind] def Cpu.owned (x : Cpu L K) : Option (Fin nproc) := x.pc.owned x.proc

@[grind] def Cpu.Ok (x : Cpu L K) : Prop := ∀ q, x.pc = .hold q → x.proc = none

@[grind] structure Slot.Ok (y : Slot C L K) (n : Note C K) : Prop where
  maker : y.maker ≠ none → y.state = .used
  context : y.state = .used ∨ y.state = .runnable ∨ y.state = .sleeping → y.context = .ret ∨ y.context = .woken
  running : y.state = .running → n.cpu ≠ none
  chan : y.state ≠ .running → n.chan = if y.state = .sleeping then y.chan else none

/-- What holds between a CPU and a slot. -/
@[grind] structure Rel (c : C) (x : Cpu L K) (q : Fin nproc) (y : Slot C L K) (n : Note C K) : Prop where
  lock : y.lock = some c ↔ x.owned = some q
  proc : n.cpu = some c ↔ x.proc = some q
  state : x.proc = some q → x.pc.StateOk y.state
  start : x.pc = .look .start q → y.state = .used
  chan : x.proc = some q → y.state = .running → n.chan = x.pc.chan

/-- What holds of the conditions. -/
@[grind] structure Wake (lk : K → L) (g : Fin nproc → Note C K) (s : Sys C L K) : Prop where
  told : ∀ p k, (g p).chan = some k → s.cond k = true → s.told k = true
  woke : ∀ p k c, (g p).chan = some k → s.lock (lk k) = some c → s.woke k = false ∧ (s.cpu c).pc.Before k p
  held : ∀ k, s.told k = true ∨ s.woke k = true → s.lock (lk k) ≠ none
  gives : ∀ c l, (s.cpu c).pc.gives lk = some l → s.lock l = some c ∧ s.Settled lk l
  sleep : ∀ c k, (s.cpu c).pc = .sleep k → s.cond k = false

structure Ok (lk : K → L) (g : Fin nproc → Note C K) (s : Sys C L K) : Prop where
  cpu : ∀ c, (s.cpu c).Ok
  slot : ∀ q, (s.slot q).Ok (g q)
  rel : ∀ c q, Rel c (s.cpu c) q (s.slot q) (g q)
  wake : Wake lk g s

variable {lk : K → L} {g g' : Fin nproc → Note C K} {s t : Sys C L K} {c : C} {q p : Fin nproc} {x : Cpu L K} {y : Slot C L K}
  {n : Note C K} {k : K} {l : L} {pc : Pc L K} {slot : Fin nproc → Slot C L K}

/-- A step does not panic, and leaves the system in order. -/
def Kept (lk : K → L) (r : Result C L K) : Prop := ∀ z, r = some z → ∃ t g, z = .ok t ∧ Ok lk g t

theorem Kept.none : Kept lk (none : Result C L K) := fun _ hz => by cases hz

theorem Ok.kept (h : Ok lk g t) : Kept lk (some (.ok t)) := fun _ hz => ⟨t, g, (Option.some.inj hz).symm, h⟩

theorem Kept.bind {o : Option (Fin nproc)} {F : Fin nproc → Result C L K} (h : ∀ p, o = some p → Kept lk (F p)) :
    Kept lk (o.bind F) := by
  cases o with
  | none => exact .none
  | some p => exact h p rfl

theorem ok_init (cond : K → Bool) : Ok lk (fun _ => {}) (init cond : Sys C L K) := by
  refine ⟨fun c q hq => rfl, fun q => ?_, fun c q => ?_, ⟨?_, ?_, ?_, ?_, ?_⟩⟩
  · constructor <;> simp only [init] <;> split <;> simp
  · constructor <;> simp only [init] <;> first | split <;> simp [Cpu.owned, Pc.owned] | simp
  all_goals simp [init, Pc.gives]

theorem Wake.acquire [DecidableEq L] (h : Wake lk g s) (hl : s.lock l = none) (hb : ∀ k p, (s.cpu c).pc.Before k p) :
    Wake lk g { s with lock := update s.lock l (some c) } := by
  constructor <;> intros <;> dsimp only at * <;> grind

theorem Wake.set [DecidableEq K] {b : Bool} (h : Wake lk g s) (hl : s.lock (lk k) = some c) (hc : (s.cpu c).pc = .out) :
    Wake lk g { s with cond := update s.cond k b, told := if b then update s.told k true else s.told } := by
  constructor <;> intros <;> dsimp only at * <;> grind

/-! ## Steps of a CPU -/

theorem Pc.Idle.owned (h : x.pc.Idle) : x.owned = none := by
  unfold Cpu.owned
  cases hx : x.pc <;> simp_all [Pc.Idle, Pc.owned]

theorem Pc.Idle.ok (h : x.pc.Idle) : x.Ok := fun q hx => by
  rw [hx] at h
  exact h.elim

/-- A process whose CPU does not have its lock is running, and is not about to sleep. -/
theorem Cpu.Ok.away (hx : x.Ok) (hp : x.proc = some q) (ho : x.owned ≠ some q) :
    (∀ st, x.pc.StateOk st ↔ st = .running) ∧ x.pc.chan = none := by
  unfold Cpu.owned at ho
  unfold Cpu.Ok at hx
  cases hpc : x.pc <;> simp_all [Pc.StateOk, Pc.chan, Pc.owned]

theorem Rel.running (h : Rel c x q y n) (hx : x.Ok) (hp : x.proc = some q) (ho : x.owned ≠ some q) :
    y.state = .running ∧ n.chan = none := by
  obtain ⟨h₁, h₂⟩ := hx.away hp ho
  have hrun := (h₁ _).1 (h.state hp)
  exact ⟨hrun, (h.chan hp hrun).trans h₂⟩

variable [DecidableEq C]

/-- A step of the CPU `c` on the slot `q`, whose lock it has or takes. They become `x` and `y`, and the note on the slot `n`. -/
structure Act (g : Fin nproc → Note C K) (s : Sys C L K) (c : C) (x : Cpu L K) (q : Fin nproc) (y : Slot C L K) (n : Note C K) :
    Prop where
  own : ∀ p, p ≠ q → (s.cpu c).owned ≠ some p ∧ x.owned ≠ some p
  lock : y.lock = some c ↔ x.owned = some q
  free : ∀ d, d ≠ c → (s.slot q).lock ≠ some d ∧ y.lock ≠ some d
  cpu : x.Ok
  slot : y.Ok n
  switch : x.proc = (s.cpu c).proc ∧ n.cpu = (g q).cpu ∨ x.proc = some q ∧ (s.cpu c).proc = none ∧ n.cpu = some c ∧ (g q).cpu = none ∨
    x.proc = none ∧ (s.cpu c).proc = some q ∧ n.cpu = none
  mine : x.proc = some q → x.pc.StateOk y.state ∧ (y.state = .running → n.chan = x.pc.chan)
  start : x.pc = .look .start q → y.state = .used
  keep : (s.cpu c).proc ≠ some q → (s.slot q).state = .running → y.state = .running ∧ n.chan = (g q).chan

theorem Act.ok (ha : Act g s c x q y n) (h : Ok lk g s) (hcpu : t.cpu = update s.cpu c x) (hslot : t.slot = update s.slot q y)
    (hw : Wake lk (update g q n) t) : Ok lk (update g q n) t := by
  obtain ⟨h₁, h₂, h₃, h₄, h₅, h₆, h₇, h₈, h₉⟩ := ha
  refine ⟨fun d => ?_, fun p => ?_, fun d p => ?_, hw⟩
  · rw [hcpu]
    have := h.cpu d
    grind
  · rw [hslot]
    have := h.slot p
    grind
  · rw [hcpu, hslot]
    have ⟨r₁, r₂, r₃, r₄, r₅⟩ := h.rel d p
    have hproc := (h.rel c q).proc
    have haway := (h.cpu d).away (q := p)
    by_cases hd : d = c <;> by_cases hp : p = q
    · constructor <;> grind
    · have haway' := h₄.away (q := p)
      constructor <;> grind
    · have hfree := h₃ d hd
      constructor <;> grind
    · constructor <;> grind

/-- A step that has nothing to do with slots. -/
theorem Ok.move (h : Ok lk g s) (ho : (s.cpu c).pc.Idle) (hcpu : t.cpu = update s.cpu c x) (hslot : t.slot = s.slot) (hx : x.pc.Idle)
    (hp : x.proc = (s.cpu c).proc) (hw : Wake lk g t) : Ok lk g t := by
  have hown := ho.owned
  have hown' := hx.owned
  refine ⟨fun d => ?_, hslot ▸ h.slot, fun d q => ?_, hw⟩ <;> rw [hcpu]
  · have := h.cpu d
    grind [hx.ok]
  · have ⟨r₁, r₂, r₃, r₄, r₅⟩ := h.rel d q
    have haway := (h.cpu c).away (q := q)
    have haway' := hx.ok.away (q := q)
    rw [hslot]
    constructor <;> grind

/-! ## Conditions -/

namespace Wake

/-- A step that changes no lock, no condition and no record. -/
theorem step (h : Wake lk g s) (hn : ∀ p k, (g' p).chan = some k → (g p).chan = some k)
    (hb : ∀ p k, (g' p).chan = some k → (s.cpu c).pc.Before k p → x.pc.Before k p)
    (hg : ∀ l, x.pc.gives lk = some l → s.lock l = some c ∧ s.Settled lk l) (hs : ∀ k, x.pc = .sleep k → s.cond k = false) :
    Wake lk g' { s with cpu := update s.cpu c x, slot := slot } := by
  constructor <;> intros <;> dsimp only at * <;> grind

/-- Sleepers on a condition that is true have been woken before its lock is given back. -/
theorem release [DecidableEq L] (h : Wake lk g s) (hl : s.lock l = some c) (hs : s.Settled lk l) (hx : x.pc.gives lk = none)
    (hb : ∀ k p, x.pc.Before k p)
    (hn : ∀ p k, (g' p).chan = some k → (g p).chan = some k ∨ lk k = l ∧ s.cond k = false) :
    Wake lk g' { s with
      cpu := update s.cpu c x, slot := slot, lock := update s.lock l none
      told := fun k => if lk k = l then false else s.told k
      woke := fun k => if lk k = l then false else s.woke k } := by
  constructor <;> intros <;> dsimp only at * <;> grind

theorem wakeup [DecidableEq K] (h : Wake lk g s) (hc : (s.cpu c).pc = .wakeup k []) (hx : x.pc = .out) :
    Wake lk g { s with cpu := update s.cpu c x, woke := if s.lock (lk k) = some c then update s.woke k true else s.woke } := by
  constructor <;> intros <;> dsimp only at * <;> grind

end Wake

/-! ## Slots -/

/-- What a thread may begin by taking the lock of slot `q`. -/
inductive Entry (lk : K → L) (s : Sys C L K) (c : C) (q : Fin nproc) : Pc L K → Prop
  | hold (hp : (s.cpu c).proc = none) : Entry lk s c q (.hold q)
  | yield (hp : (s.cpu c).proc = some q) : Entry lk s c q .yield
  | sleep {k : K} (hp : (s.cpu c).proc = some q) (hok : s.cond k = false ∧ s.lock (lk k) = some c ∧ s.Settled lk (lk k)) :
      Entry lk s c q (.sleep k)
  | exit {l : L} (hp : (s.cpu c).proc = some q) (hok : s.lock l = some c ∧ s.Settled lk l) : Entry lk s c q (.exit l)
  | look {u : Section K} (hu : u = .start → (s.slot q).state = .used)
      (hb : ∀ p k, (s.cpu c).pc.Before k p → (Pc.look u q : Pc L K).Before k p) : Entry lk s c q (.look u q)

theorem acquireProc_kept (h : Ok lk g s) (ho : (s.cpu c).pc.Idle) (he : Entry lk s c q pc) : Kept lk (s.acquireProc c q pc) := by
  have hlock := (h.rel c q).lock
  have hown := ho.owned
  have hidle := fun hp => (h.rel c q).running (h.cpu c) hp (by simp [hown])
  have hslot := h.slot q
  unfold Sys.acquireProc
  split
  · refine Ok.kept (Act.ok (n := g q) ?_ h rfl rfl (h.wake.step ?_ ?_ ?_ ?_))
    · constructor <;> cases he <;> grind
    all_goals cases he <;> grind
  · rw [if_neg (by grind)]
    exact .none

theorem releaseProc_kept (h : Ok lk g s) (ho : (s.cpu c).owned = some q) (hx : x.pc.Idle) (hy : y.Ok n)
    (hsw : x.proc = (s.cpu c).proc ∧ n.cpu = (g q).cpu ∨ x.proc = none ∧ (s.cpu c).proc = some q ∧ n.cpu = none)
    (hr : x.proc = some q → y.state = .running ∧ n.chan = none := by grind)
    (hk : (s.cpu c).proc ≠ some q → (s.slot q).state = .running → y.state = .running ∧ n.chan = (g q).chan := by grind)
    (hn : ∀ k, n.chan = some k → (g q).chan = some k := by grind)
    (hb : ∀ p k, (update g q n p).chan = some k → (s.cpu c).pc.Before k p → x.pc.Before k p := by grind) :
    Kept lk (some (s.releaseProc c x q y)) := by
  have hl := (h.rel c q).lock.2 ho
  have hown := hx.owned
  unfold Sys.releaseProc
  rw [if_pos hl]
  refine Ok.kept (Act.ok (n := n) ?_ h rfl rfl (h.wake.step (by grind) hb ?_ ?_))
  · constructor <;> cases hpc : x.pc <;> grind
  all_goals cases hpc : x.pc <;> grind

theorem sched_kept (h : Ok lk g s) (hp : (s.cpu c).proc = some p) (ho : (s.cpu c).owned = some p) (hl : y.lock = (s.slot p).lock)
    (hst : y.state ≠ .running) (hy : y.Ok (g p)) : Kept lk (some (s.sched c p y)) := by
  have hc := (h.rel c p).lock.2 ho
  unfold Sys.sched
  rw [if_neg (by simp [hl, hc]), if_neg hst]
  refine Ok.kept (Act.ok (n := g p) ?_ h rfl rfl (h.wake.step (by grind) ?_ ?_ ?_))
  · constructor <;> grind
  all_goals simp

theorem pick_kept (h : Ok lk g s) (hc : (s.cpu c).pc = .hold q) : Kept lk (some (s.pick c q)) := by
  have ho : (s.cpu c).owned = some q := by rw [Cpu.owned, hc, Pc.owned]
  have hl := (h.rel c q).lock.2 ho
  have hnone := h.cpu c q hc
  have hslot := h.slot q
  unfold Sys.pick
  dsimp only
  split
  · rename_i hst
    -- no other CPU runs the process, for it would have the lock or the state would be `RUNNING`
    have hg : (g q).cpu = none := by
      refine Option.eq_none_iff_forall_ne_some.2 fun d hd => ?_
      have hrel := h.rel d q
      have hrun := hrel.running (h.cpu d)
      grind
    have hctx := hslot.context (.inr (.inl hst))
    refine Ok.kept (Act.ok (n := { g q with cpu := some c }) ?_ h rfl rfl (h.wake.step (by grind) ?_ ?_ ?_))
    · constructor <;> rcases hctx with h₁ | h₁ <;> grind
    all_goals rcases hctx with h₁ | h₁ <;> simp [h₁]
  · exact releaseProc_kept h ho trivial (h.slot q) (.inl ⟨rfl, rfl⟩)

theorem look_kept [DecidableEq K] {u : Section K} (h : Ok lk g s) (hc : (s.cpu c).pc = .look u q) :
    Kept lk (some (s.releaseProc c { s.cpu c with pc := u.after } q (u.body (s.cpu c).proc (s.slot q)))) := by
  have ho : (s.cpu c).owned = some q := by rw [Cpu.owned, hc, Pc.owned]
  have hrel := h.rel c q
  have hslot := h.slot q
  -- whoever is about to sleep has the lock of its slot
  have hnc : (s.slot q).state = .running → (g q).chan = none := fun hr => by
    obtain ⟨d, hd⟩ := Option.ne_none_iff_exists'.1 (hslot.running hr)
    have hrel' := h.rel d q
    have hrun := hrel'.running (h.cpu d)
    grind
  have hx : (u.after : Pc L K).Idle := by cases u <;> trivial
  let chan := if (u.body (s.cpu c).proc (s.slot q)).state = .sleeping then (s.slot q).chan else none
  refine releaseProc_kept (n := { g q with chan := chan }) h ho hx ?_ (.inl ⟨rfl, rfl⟩) (fun hp => ?_) (fun _ hr => ?_) (fun k => ?_)
    fun p k hp => ?_
  all_goals cases u <;> grind

theorem goWakeup_kept [DecidableEq K] {rest : List (Fin nproc)} (h : Ok lk g s) (hc : (s.cpu c).pc = .wakeup k rest) :
    Kept lk (s.goWakeup lk c k rest) := by
  have ho : (s.cpu c).pc.Idle := by rw [hc]; trivial
  cases rest with
  | nil => exact Ok.kept (h.move ho rfl rfl trivial rfl (h.wake.wakeup hc rfl))
  | cons q rest =>
      simp only [Sys.goWakeup]
      split
      · rename_i hq
        have hidle := (h.rel c q).running (h.cpu c) hq (by simp [ho.owned])
        refine Ok.kept (h.move ho rfl rfl trivial rfl (h.wake.step (fun _ _ => id) (fun p k' hp => ?_) ?_ ?_))
        · grind
        all_goals simp
      · exact acquireProc_kept h ho (.look (by simp) fun p k' => by simp [hc])

variable [DecidableEq L]

/-- A process gives back a lock before it sleeps or exits. -/
theorem release_kept (h : Ok lk g s) (hp : (s.cpu c).proc = some p) (ho : (s.cpu c).owned = some p) (hg : (s.cpu c).pc.gives lk = some l)
    (hl : y.lock = (s.slot p).lock) (hy : y.Ok n) (hn : n.cpu = (g p).cpu)
    (hpc : pc = .exited ∧ y.state = .zombie ∨ ∃ k, pc = .slept k ∧ y.state = .running ∧ n.chan = some k)
    (hc : ∀ k, n.chan = some k → (g p).chan = some k ∨ lk k = l ∧ s.cond k = false) :
    Kept lk (some ({ s with slot := update s.slot p y }.release lk c l pc)) := by
  obtain ⟨hlk, hs⟩ := h.wake.gives c l hg
  have hlock := (h.rel c p).lock.2 ho
  unfold Sys.release
  rw [if_pos hlk]
  refine Ok.kept (Act.ok (n := n) ?_ h rfl rfl (h.wake.release hlk hs ?_ ?_ (by grind)))
  · constructor <;> rcases hpc with ⟨rfl, h₁⟩ | ⟨k, rfl, h₁, h₂⟩ <;> grind
  all_goals rcases hpc with ⟨rfl, -⟩ | ⟨k, rfl, -⟩ <;> simp

theorem goProc_kept (h : Ok lk g s) (hp : (s.cpu c).proc = some p) : Kept lk (s.goProc lk c p) := by
  have hst := (h.rel c p).state hp
  have hchan := (h.rel c p).chan hp
  have ho : (s.cpu c).pc.owned (some p) = some p → (s.cpu c).owned = some p := fun h₁ => by rw [Cpu.owned, hp, h₁]
  have hslot := h.slot p
  unfold Sys.goProc
  cases hc : (s.cpu c).pc <;> simp only [hc] at hst ho hchan ⊢
  case back =>
    exact releaseProc_kept (n := { g p with cpu := none }) h (ho rfl) trivial (by grind) (.inr ⟨rfl, hp, rfl⟩)
  case ret | woken =>
    exact releaseProc_kept (n := g p) h (ho rfl) trivial (by grind) (.inl ⟨rfl, rfl⟩)
  case yield | slept | exited => exact sched_kept h hp (ho rfl) rfl (by grind) (by grind)
  case sleep k =>
    have h₅ := release_kept (y := s.slot p) (n := { g p with chan := some k }) h hp (ho rfl) (by rw [hc]; rfl) rfl (by grind) rfl
      (.inr ⟨k, rfl, hst, rfl⟩) fun k' hk => .inr ⟨?_, h.wake.sleep c k' ?_⟩
    · rwa [update_eq_self] at h₅
    all_goals cases hk
    · rfl
    · exact hc
  case exit l => exact release_kept (n := g p) h hp (ho rfl) (by rw [hc]; rfl) rfl (by grind) rfl (.inl ⟨rfl, rfl⟩) fun _ => .inl
  case dead => exact hst.elim
  all_goals exact .none

variable [DecidableEq K]

/-! ## Runs -/

theorem go_kept (h : Ok lk g s) : Kept lk (s.go lk c) := by
  unfold Sys.go
  dsimp only
  split
  · exact pick_kept h ‹_›
  · exact goWakeup_kept h ‹_›
  · exact look_kept h ‹_›
  · exact .bind fun p hp => goProc_kept h hp

theorem call_kept {f : Call L K} (h : Ok lk g s) (hc : (s.cpu c).pc = .out) (hok : s.ok lk (.call c f)) : Kept lk (s.call lk c f) := by
  have ho : (s.cpu c).pc.Idle := by rw [hc]; trivial
  have hcpu : s.cpu = update s.cpu c (s.cpu c) := (update_eq_self ..).symm
  cases f with
  | acquire l =>
      simp only [Sys.call, Sys.acquire]
      split
      · rename_i hl
        exact Ok.kept (h.move ho hcpu rfl ho rfl (h.wake.acquire hl (by simp [hc])))
      · rename_i d hl
        rw [if_neg fun h₁ => hok (by rw [← h₁]; exact hl)]
        exact .none
  | release l =>
      simp only [Sys.call, Sys.release]
      rw [if_pos hok.1]
      exact Ok.kept (h.move ho rfl rfl trivial rfl (h.wake.release hok.1 hok.2 rfl (fun _ _ => trivial) fun _ _ => .inl))
  | set k b => exact Ok.kept (h.move ho hcpu rfl ho rfl (h.wake.set hok hc))
  | wakeup k =>
      refine Ok.kept (h.move ho rfl rfl trivial rfl (h.wake.step (fun _ _ => id) ?_ ?_ ?_))
      all_goals simp
  | look u q =>
      refine acquireProc_kept h ho (.look (fun hu => ?_) fun p k _ => ?_)
      · subst hu
        exact (h.slot q).maker hok.1
      · cases u <;> first | exact hok.elim | trivial
  | yield => exact .bind fun p hp => acquireProc_kept h ho (.yield hp)
  | sleep k => exact .bind fun p hp => acquireProc_kept h ho (.sleep hp hok)
  | exit l => exact .bind fun p hp => acquireProc_kept h ho (.exit hp hok)
  | pick q =>
      simp only [Sys.call]
      split
      · exact acquireProc_kept h ho (.hold ‹_›)
      · exact .none

theorem step_kept {a : Label C L K} (h : Ok lk g s) (hok : s.ok lk a) : Kept lk (s.step lk a) := by
  cases a with
  | go c => exact go_kept h
  | call c f =>
      simp only [Sys.step]
      split
      · exact call_kept h ‹_› hok
      · exact .none

theorem ok_of_reach {cond : K → Bool} (h : Reach (Sys.step lk) (Sys.ok lk) (init cond) s) : ∃ g, Ok lk g s := by
  refine h.inv (I := fun s => ∃ g, Ok lk g s) ⟨_, ok_init cond⟩ ?_
  rintro s a t ⟨g, hg⟩ hok hstep
  obtain ⟨t', g', ht, hg'⟩ := step_kept hg hok _ hstep
  cases ht
  exact ⟨g', hg'⟩

end Xv6.Sched
