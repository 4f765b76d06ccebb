import Xv6.Log.Lemmas.Inv

/-!
# The history of the log, and the space in it

`Open` speaks about the events of a history that no later event has closed: an operation that has
not ended, a logged block that no commit has written.
-/

namespace Xv6.Log

open Lib

variable {c c' : Conc} {p q b : Nat} {a : Act} {l : List Event} {e x : Event} {stop : Event → Prop}

/-- `x` occurs in the history and no event after it is a `stop`. -/
def Open (l : List Event) (x : Event) (stop : Event → Prop) : Prop :=
  ∃ l₁ l₂, l = l₁ ++ x :: l₂ ∧ ∀ e ∈ l₂, ¬ stop e

/-- The operation of `p` has begun and not ended. -/
def OpOpen (l : List Event) (p : Nat) : Prop := Open l (.beginOp p) (· = .endOp p)

/-- Block `b` was logged after the last commit. -/
def Unwritten (l : List Event) (b : Nat) : Prop := ∃ p, Open l (.logWrite p b) (∃ bs, · = .commit bs)

theorem append_singleton_eq {l₁ l₂ : List Event} (h : l ++ [e] = l₁ ++ x :: l₂) :
    (e = x ∧ l = l₁ ∧ l₂ = []) ∨ ∃ l₃, l₂ = l₃ ++ [e] ∧ l = l₁ ++ x :: l₃ := by
  rcases List.eq_nil_or_concat l₂ with rfl | ⟨l₃, y, rfl⟩
  · obtain ⟨h₁, h₂⟩ := List.append_inj' h rfl
    cases h₂
    exact Or.inl ⟨rfl, h₁, rfl⟩
  · have h' : l ++ [e] = (l₁ ++ x :: l₃) ++ [y] := by simpa using h
    obtain ⟨h₁, h₂⟩ := List.append_inj' h' rfl
    cases h₂
    exact Or.inr ⟨l₃, List.concat_eq_append, h₁⟩

theorem Open.snoc (h : Open (l ++ [e]) x stop) : e = x ∨ (¬ stop e ∧ Open l x stop) := by
  obtain ⟨l₁, l₂, h, hs⟩ := h
  rcases append_singleton_eq h with ⟨he, _, _⟩ | ⟨l₃, rfl, hl⟩
  · exact Or.inl he
  · exact Or.inr ⟨hs e (by simp), l₁, l₃, hl, fun e' he' => hs e' (by simp [he'])⟩

theorem OpOpen.snoc (h : OpOpen (l ++ [e]) p) : e = .beginOp p ∨ (e ≠ .endOp p ∧ OpOpen l p) := Open.snoc h

theorem Unwritten.snoc (h : Unwritten (l ++ [e]) b) :
    (∃ p, e = .logWrite p b) ∨ ((∀ bs, e ≠ .commit bs) ∧ Unwritten l b) := by
  obtain ⟨p, h⟩ := h
  rcases Open.snoc h with he | ⟨hn, h⟩
  · exact Or.inl ⟨p, he⟩
  · exact Or.inr ⟨fun bs hbs => hn ⟨bs, hbs⟩, p, h⟩

/-! ## The invariant of the history -/

/-- When a commit happened no operation was open, and it wrote every block logged since the commit
before it. -/
def GroupCommits (l : List Event) : Prop :=
  ∀ l₁ bs l₂, l = l₁ ++ .commit bs :: l₂ → (∀ p, ¬ OpOpen l₁ p) ∧ ∀ b, Unwritten l₁ b → b ∈ bs

structure HistInv (c : Conc) : Prop where
  opened : ∀ p, OpOpen c.sys.hist p → ∃ bs, c.phase[p]? = some (.op bs)
  unwritten : ∀ b, Unwritten c.sys.hist b → b ∈ c.sys.log.lh
  past : ∀ (p : Nat) (pc : Pc), c.phase[p]? = some (.commit pc) → pc.Past → ∀ b, ¬ Unwritten c.sys.hist b
  group : GroupCommits c.sys.hist
  pins : ∀ b, c.sys.hist.count (.pin b) = c.sys.hist.count (.unpin b) + if b ∈ c.pinned then 1 else 0

theorem GroupCommits.snoc (h : GroupCommits l) (he : ∀ bs, e ≠ .commit bs) : GroupCommits (l ++ [e]) := by
  intro l₁ bs l₂ hl
  rcases append_singleton_eq hl with ⟨hx, _, _⟩ | ⟨l₃, _, hl⟩
  · exact absurd hx (he bs)
  · exact h l₁ bs l₃ hl

theorem GroupCommits.commit {bs : List Nat} (h : GroupCommits l) (hop : ∀ p, ¬ OpOpen l p)
    (hw : ∀ b, Unwritten l b → b ∈ bs) : GroupCommits (l ++ [.commit bs]) := by
  intro l₁ bs' l₂ hl
  rcases append_singleton_eq hl with ⟨hx, rfl, _⟩ | ⟨l₃, _, hl⟩
  · cases hx
    exact ⟨hop, hw⟩
  · exact h l₁ bs' l₃ hl

theorem HistInv.move {x y : Phase} (h : HistInv c) (hp : c.phase[p]? = some x) (hx : ∀ bs, x ≠ .op bs)
    (hlh : ∀ b, Unwritten c.sys.hist b → b ∈ c'.sys.log.lh) (hhist : c'.sys.hist = c.sys.hist)
    (hphase : c'.phase = c.phase.set p y)
    (hy : ∀ pc, y = .commit pc → pc.Past → ∀ b, ¬ Unwritten c.sys.hist b)
    (hpin : c'.pinned = c.pinned) : HistInv c' := by
  refine ⟨fun q hq => ?_, fun b hb => ?_, fun q pc hq hpast b => ?_, ?_, fun b => ?_⟩
  · rw [hhist] at hq
    obtain ⟨bs, hbs⟩ := h.opened q hq
    rw [hphase]
    refine ⟨bs, (phase_set hp).mpr (Or.inr ⟨?_, hbs⟩)⟩
    rintro rfl
    rw [hp] at hbs
    exact hx bs (Option.some.inj hbs)
  · rw [hhist] at hb
    exact hlh b hb
  · rw [hhist]
    rw [hphase] at hq
    rcases (phase_set hp).mp hq with ⟨_, hpc⟩ | ⟨_, hq⟩
    · exact hy pc hpc.symm hpast b
    · exact h.past q pc hq hpast b
  · rw [hhist]
    exact h.group
  · rw [hhist, hpin]
    exact h.pins b

theorem HistInv.beginOp (h : HistInv c) (hp : c.phase[p]? = some .idle)
    (hlh : c'.sys.log.lh = c.sys.log.lh) (hhist : c'.sys.hist = c.sys.hist ++ [.beginOp p])
    (hphase : c'.phase = c.phase.set p (.op [])) : HistInv c' := by
  have hpin := pinned_of_set hp hphase rfl hlh
  have hun : ∀ b, Unwritten c'.sys.hist b → Unwritten c.sys.hist b := by
    intro b hb
    rw [hhist] at hb
    rcases hb.snoc with ⟨_, he⟩ | ⟨_, hb⟩
    · cases he
    · exact hb
  refine ⟨fun q hq => ?_, fun b hb => ?_, fun q pc hq hpast b hb => ?_, ?_, fun b => ?_⟩
  · rw [hphase]
    rw [hhist] at hq
    rcases hq.snoc with he | ⟨_, hq⟩
    · cases he
      exact ⟨[], (phase_set hp).mpr (Or.inl ⟨rfl, rfl⟩)⟩
    · obtain ⟨bs, hbs⟩ := h.opened q hq
      refine ⟨bs, (phase_set hp).mpr (Or.inr ⟨?_, hbs⟩)⟩
      rintro rfl
      rw [hp] at hbs
      cases hbs
  · rw [hlh]
    exact h.unwritten b (hun b hb)
  · rw [hphase] at hq
    rcases (phase_set hp).mp hq with ⟨_, hpc⟩ | ⟨_, hq⟩
    · cases hpc
    · exact h.past q pc hq hpast b (hun b hb)
  · rw [hhist]
    exact h.group.snoc (by simp)
  · rw [hhist, hpin]
    simpa using h.pins b

theorem HistInv.logWrite {bs bs' : List Nat} {es : List Event} (h : HistInv c) (hi : Inv c)
    (hp : c.phase[p]? = some (.op bs)) (hsub : ∀ b ∈ c.sys.log.lh, b ∈ c'.sys.log.lh)
    (hb : b ∈ c'.sys.log.lh) (hhist : c'.sys.hist = c.sys.hist ++ .logWrite p b :: es)
    (hes : es = [] ∨ es = [.pin b]) (hphase : c'.phase = c.phase.set p (.op bs'))
    (hpins : ∀ b, c'.sys.hist.count (.pin b) =
      c'.sys.hist.count (.unpin b) + if b ∈ c'.pinned then 1 else 0) : HistInv c' := by
  have hopen : ∀ q, OpOpen c'.sys.hist q → OpOpen c.sys.hist q := by
    intro q hq
    rw [hhist] at hq
    have h₁ : OpOpen (c.sys.hist ++ [.logWrite p b]) q := by
      rcases hes with rfl | rfl
      · exact hq
      · rw [List.append_cons] at hq
        rcases hq.snoc with he | ⟨_, hq⟩
        · cases he
        · exact hq
    rcases h₁.snoc with he | ⟨_, hq⟩
    · cases he
    · exact hq
  have hun : ∀ b', Unwritten c'.sys.hist b' → b' = b ∨ Unwritten c.sys.hist b' := by
    intro b' hb'
    rw [hhist] at hb'
    have h₁ : Unwritten (c.sys.hist ++ [.logWrite p b]) b' := by
      rcases hes with rfl | rfl
      · exact hb'
      · rw [List.append_cons] at hb'
        rcases hb'.snoc with ⟨_, he⟩ | ⟨_, hb'⟩
        · cases he
        · exact hb'
    rcases h₁.snoc with ⟨_, he⟩ | ⟨_, hb'⟩
    · cases he
      exact Or.inl rfl
    · exact Or.inr hb'
  refine ⟨fun q hq => ?_, fun b' hb' => ?_, fun q pc hq => ?_, ?_, hpins⟩
  · obtain ⟨bs₀, hbs⟩ := h.opened q (hopen q hq)
    rw [hphase]
    by_cases hqp : q = p
    · exact ⟨bs', (phase_set hp).mpr (Or.inl ⟨hqp, rfl⟩)⟩
    · exact ⟨bs₀, (phase_set hp).mpr (Or.inr ⟨hqp, hbs⟩)⟩
  · rcases hun b' hb' with rfl | hb'
    · exact hb
    · exact hsub b' (h.unwritten b' hb')
  · rw [hphase] at hq
    rcases (phase_set hp).mp hq with ⟨_, hpc⟩ | ⟨_, hq⟩
    · cases hpc
    · exact absurd hq (hi.no_commit_of_op hp q pc)
  · rw [hhist]
    rcases hes with rfl | rfl
    · exact h.group.snoc (by simp)
    · rw [List.append_cons]
      exact (h.group.snoc (by simp)).snoc (by simp)

theorem HistInv.endOp {bs : List Nat} {last : Bool} (h : HistInv c) (hi : Inv c)
    (hp : c.phase[p]? = some (.op bs)) (hlh : c'.sys.log.lh = c.sys.log.lh)
    (hhist : c'.sys.hist = c.sys.hist ++ [.endOp p])
    (hphase : c'.phase = c.phase.set p (if last then .commit .start else .idle)) : HistInv c' := by
  have hpin := pinned_of_set hp hphase (by cases last <;> rfl) hlh
  refine ⟨fun q hq => ?_, fun b hb => ?_, fun q pc hq hpast => ?_, ?_, fun b => ?_⟩
  · rw [hphase]
    rw [hhist] at hq
    rcases hq.snoc with he | ⟨hne, hq⟩
    · cases he
    · obtain ⟨bs', hbs⟩ := h.opened q hq
      refine ⟨bs', (phase_set hp).mpr (Or.inr ⟨?_, hbs⟩)⟩
      rintro rfl
      exact hne rfl
  · rw [hhist] at hb
    rw [hlh]
    rcases hb.snoc with ⟨_, he⟩ | ⟨_, hb⟩
    · cases he
    · exact h.unwritten b hb
  · rw [hphase] at hq
    rcases (phase_set hp).mp hq with ⟨_, hpc⟩ | ⟨_, hq⟩
    · cases last with
      | false => cases hpc
      | true => cases hpc; exact hpast.elim
    · exact absurd hq (hi.no_commit_of_op hp q pc)
  · rw [hhist]
    exact h.group.snoc (by simp)
  · rw [hhist, hpin]
    simpa using h.pins b

/-- The header write: nothing logged before it is unwritten after it. -/
theorem HistInv.head (h : HistInv c) (hi : Inv c) (hp : c.phase[p]? = some (.commit .head))
    (hlh : c'.sys.log.lh = c.sys.log.lh) (hhist : c'.sys.hist = c.sys.hist ++ [.commit c.sys.log.lh])
    (hphase : c'.phase = c.phase.set p (.commit (.homeBlock 0))) : HistInv c' := by
  have hpin := pinned_of_set hp hphase rfl hlh
  have hop : ∀ q, ¬ OpOpen c.sys.hist q := by
    intro q hq
    obtain ⟨bs, hbs⟩ := h.opened q hq
    exact hi.no_op_of_commit hp q bs hbs
  have hun : ∀ b, ¬ Unwritten c'.sys.hist b := by
    intro b hb
    rw [hhist] at hb
    rcases hb.snoc with ⟨_, he⟩ | ⟨hne, _⟩
    · cases he
    · exact hne _ rfl
  refine ⟨fun q hq => ?_, fun b hb => absurd hb (hun b), fun _ _ _ _ b => hun b, ?_, fun b => ?_⟩
  · rw [hhist] at hq
    rcases hq.snoc with he | ⟨_, hq⟩
    · cases he
    · exact absurd hq (hop q)
  · rw [hhist]
    exact h.group.commit hop h.unwritten
  · rw [hhist, hpin]
    simpa using h.pins b

theorem HistInv.install {tail lbuf : Nat} (h : HistInv c) (hi : Inv c) (hi' : Inv c')
    (hp : c.phase[p]? = some (.commit (.homeCopy tail lbuf))) (hlh : c'.sys.log.lh = c.sys.log.lh)
    (hhist : c'.sys.hist = c.sys.hist ++ [.unpin (c.sys.log.lh.getD tail 0)])
    (hphase : c'.phase = c.phase.set p (.commit (.homeBlock (tail + 1)))) : HistInv c' := by
  have hlt : tail < c.sys.log.lh.length := hi.pc p _ hp
  have hp' : c'.phase[p]? = some (.commit (.homeBlock (tail + 1))) := by
    rw [hphase]
    exact (phase_set hp).mpr (Or.inl ⟨rfl, rfl⟩)
  have hpin : c.pinned = c.sys.log.lh.getD tail 0 :: c'.pinned := by
    rw [hi.pinned_of_commit hp, hi'.pinned_of_commit hp', hlh]
    exact drop_eq_getD_cons hlt
  have hnot : c.sys.log.lh.getD tail 0 ∉ c'.pinned := by
    rw [hi'.pinned_of_commit hp', hlh]
    exact getD_notMem_drop hi.nodup hlt
  have hun : ∀ b, ¬ Unwritten c'.sys.hist b := by
    intro b hb
    rw [hhist] at hb
    rcases hb.snoc with ⟨_, he⟩ | ⟨_, hb⟩
    · cases he
    · exact h.past p _ hp trivial b hb
  refine ⟨fun q hq => ?_, fun b hb => absurd hb (hun b), fun _ _ _ _ b => hun b, ?_, fun b => ?_⟩
  · rw [hhist] at hq
    rcases hq.snoc with he | ⟨_, hq⟩
    · cases he
    · obtain ⟨bs, hbs⟩ := h.opened q hq
      exact absurd hbs (hi.no_op_of_commit hp q bs)
  · rw [hhist]
    exact h.group.snoc (by simp)
  · have hb := h.pins b
    rw [hpin] at hb
    rw [hhist]
    generalize c.sys.log.lh.getD tail 0 = b₀ at hb hnot ⊢
    by_cases hbt : b₀ = b
    · subst hbt
      simpa [hnot] using hb
    · simpa [hbt, Ne.symm hbt] using hb

theorem HistInv.effect (h : HistInv c) (hi : Inv c) (he : Effect c a c') : HistInv c' := by
  have hi' := hi.effect he
  cases he with
  | beginOp p hp hfree hroom hlog hhist hphase hcache => exact h.beginOp hp (by rw [hlog]) hhist hphase
  | buffer hlog hhist hphase hcache =>
      have hpin : c'.pinned = c.pinned := by rw [Conc.pinned, Conc.pinned, Conc.total, Conc.total, hphase, hlog]
      refine ⟨?_, ?_, ?_, ?_, ?_⟩
      · rw [hhist, hphase]; exact h.opened
      · rw [hhist, hlog]; exact h.unwritten
      · rw [hhist, hphase]; exact h.past
      · rw [hhist]; exact h.group
      · rw [hhist, hpin]; exact h.pins
  | absorb p i b bs ha hb hp hmem hlog hhist hphase hcache =>
      have hpin := pinned_of_set hp hphase rfl (by rw [hlog])
      refine h.logWrite hi hp (fun b hb => by rw [hlog]; exact hb) (by rw [hlog]; exact hmem) hhist
        (Or.inl rfl) hphase fun b' => ?_
      rw [hhist, hpin]
      simpa using h.pins b'
  | logNew p i b bs ha hb hp hmem hlog hhist hphase hcache =>
      have hp' : c'.phase[p]? = some (.op (bs.insert b)) := by
        rw [hphase]
        exact (phase_set hp).mpr (Or.inl ⟨rfl, rfl⟩)
      refine h.logWrite hi hp (fun b hb => by rw [hlog]; simp [hb]) (by rw [hlog]; simp) hhist
        (Or.inr rfl) hphase fun b' => ?_
      have hb' := h.pins b'
      rw [hi.pinned_of_op hp] at hb'
      rw [hhist, hi'.pinned_of_op hp', hlog]
      by_cases hbb : b = b'
      · subst hbb
        simp [hmem] at hb' ⊢
        omega
      · simpa [hbb, Ne.symm hbb] using hb'
  | endOp p bs last hp hlast hlog hhist hphase hcache =>
      exact h.endOp hi hp (by rw [hlog]) hhist hphase
  | move p pc pc' hp hinst hpast hok hlog hhist hphase hcache =>
      refine h.move hp (by simp) (fun b hb => by rw [hlog]; exact h.unwritten b hb) hhist hphase ?_
        (pinned_of_set hp hphase hinst (by rw [hlog]))
      intro pc₁ hpc hpast₁
      cases hpc
      exact h.past p pc hp (hpast hpast₁)
  | head p hp hlog hhist hphase hcache => exact h.head hi hp (by rw [hlog]) hhist hphase
  | install p tail lbuf hp hlog hhist hphase hcache => exact h.install hi hi' hp (by rw [hlog]) hhist hphase
  | clear p tail hp htail hlog hhist hphase hcache =>
      have hp' : c'.phase[p]? = some (.commit .erase) := by
        rw [hphase]
        exact (phase_set hp).mpr (Or.inl ⟨rfl, rfl⟩)
      have hpin : c'.pinned = c.pinned := by
        rw [hi'.pinned_of_commit hp', hi.pinned_of_commit hp, hlog]
        exact (List.drop_eq_nil_of_le htail).symm
      refine h.move hp (by simp) (fun b hb => absurd hb (h.past p _ hp trivial b)) hhist hphase ?_ hpin
      intro pc hpc hpast
      cases hpc
      exact hpast.elim
  | finish p hp hlog hhist hphase hcache =>
      exact h.move hp (by simp) (fun b hb => by rw [hlog]; exact h.unwritten b hb) hhist hphase (by simp)
        (pinned_of_set hp hphase rfl (by rw [hlog]))

theorem histInv_boot (d : Nat → Block) (start n : Nat) : HistInv (boot d start n) := by
  have hno : ∀ x stop, ¬ Open (boot d start n).sys.hist x stop := by
    rintro x stop ⟨l₁, l₂, h, _⟩
    cases l₁ <;> cases h
  refine ⟨fun p hp => absurd hp (hno _ _), ?_, ?_, ?_, fun b => ?_⟩
  · rintro b ⟨p, hp⟩
    exact absurd hp (hno _ _)
  · rintro p pc _ _ b ⟨q, hq⟩
    exact hno _ _ hq
  · intro l₁ bs l₂ h
    cases l₁ <;> cases h
  · simp [boot, binit, Conc.pinned]

theorem beginOp_of_committing (h : c.sys.log.committing = true) (q : Nat) : step c (.beginOp q) = none := by
  have hw : wp (beginOp q) (fun _ _ => False) (fun e _ => e = .sleep) c.sys := by
    simp only [beginOp, wp_bind, wp_get, h, if_true]
    rfl
  obtain ⟨e, t, ht, rfl⟩ := wp_stops hw
  simp only [step, Conc.exec, ht]
  split <;> rfl

theorem pinned_of_no_commit (hno : ∀ (p : Nat) (pc : Pc), c.phase[p]? ≠ some (.commit pc)) :
    c.pinned = c.sys.log.lh := by
  have h₀ : c.total Phase.installed = 0 := by
    simp only [Conc.total, List.sum_eq_zero_iff, List.mem_map, forall_exists_index, and_imp,
      forall_apply_eq_imp_iff₂]
    intro x hx
    obtain ⟨p, hp⟩ := List.getElem?_of_mem hx
    cases x with
    | commit pc => exact absurd hp (hno p pc)
    | _ => rfl
  rw [Conc.pinned, h₀, List.drop_zero]

end Xv6.Log
