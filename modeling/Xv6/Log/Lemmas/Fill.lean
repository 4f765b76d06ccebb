import Xv6.Log.Lemmas.Space

/-!
# Operations that fill the log

An operation of an otherwise quiet system can log any list of new blocks that fits. Three operations
of `MAXOPBLOCKS` blocks each fill the log.
-/

namespace Xv6.Log

open Lib

variable {c c' : Conc} {p b : Nat} {bs : List Nat}

theorem exec_returns {α : Type} {m : K α} {Q : α → Sys → Prop} (next : α → List Phase)
    (h : wp m Q (fun _ _ => False) c.sys) : ∃ r t, c.exec m next = some (.ok ⟨t, next r⟩) ∧ Q r t := by
  obtain ⟨r, t, hm, hQ⟩ := wp_returns h
  exact ⟨r, t, by rw [Conc.exec, hm], hQ⟩

theorem Inv.avail (h : Inv c) (hfree : ∀ i, (c.sys.buf i).lock = none) : Avail c.pinned c.sys :=
  ⟨h.cache.pin, hfree, by rw [h.cache.lru.length_eq, List.length_range]⟩

theorem runs_of_op (hp : c.phase[p]? = some (.op bs)) : c.runs p = true := by
  simp [Conc.runs, hp]

/-! ## Logging one block -/

theorem bread_step (h : Inv c) (hfree : ∀ i, (c.sys.buf i).lock = none) (hp : c.phase[p]? = some (.op bs))
    (hav : c.sys.log.lh.length < nbuf ∨ b ∈ c.sys.log.lh) :
    ∃ i, c.sys.Picks rootDev b i ∧ step c (.bread p b) = some (.ok ⟨c.sys.got p rootDev b i, c.phase⟩) := by
  have ha := h.pinned_of_op hp ▸ h.avail hfree
  obtain ⟨i, t, hs, hi, rfl⟩ := exec_returns (c := c) (m := bread p rootDev b)
    (Q := fun i t => c.sys.Picks rootDev b i ∧ t = c.sys.got p rootDev b i) (fun _ => c.phase) (by
      apply wp_bread_of_pinOk ha.pin
      · intro i hi _
        exact ⟨hi, rfl⟩
      · intro e t _ hst
        rcases hav with hlt | hb
        · exact ha.not_stuck hlt hst
        · obtain ⟨j, hj, _⟩ := ha.pin.pinned b hb
          rcases hst with ⟨_, k, _, hl⟩ | ⟨_, _, hno⟩
          · exact hl (hfree k)
          · exact hno j hj)
  exact ⟨i, hi, by simp only [step, runs_of_op hp, if_true, h.dev, hs]⟩

theorem logWrite_step {i : Nat} (h : Inv c) (hp : c.phase[p]? = some (.op bs))
    (hl : (c.sys.buf i).lock = some p) (hlt : c.sys.log.lh.length < logBlocks)
    (hb : (c.sys.buf i).blockno ∉ c.sys.log.lh) :
    step c (.logWrite p i) = some (.ok
      ⟨((c.sys.record (.logWrite p (c.sys.buf i).blockno)).pinned i).setLh
        (c.sys.log.lh ++ [(c.sys.buf i).blockno]),
        c.phase.set p (.op (bs.insert (c.sys.buf i).blockno))⟩) := by
  have hout := h.outstanding_of_op hp
  obtain ⟨r, t, hs, rfl⟩ := exec_returns (c := c) (m := logWrite p i)
    (Q := fun _ t => t = ((c.sys.record (.logWrite p (c.sys.buf i).blockno)).pinned i).setLh
      (c.sys.log.lh ++ [(c.sys.buf i).blockno]))
    (fun _ => c.phase.set p (.op (bs.insert (c.sys.buf i).blockno))) (by
      simp only [logWrite, wp_bind, wp_get]
      rw [if_neg (by omega), if_neg (by omega)]
      simp only [wp_bind, wp_modify]
      rw [if_neg hb]
      simp [bpin, Sys.pinned, Sys.record])
  have hh : holdingsleep c.sys p i = true := by simp [holdingsleep, hl]
  simp only [step, hp, hh, if_true, hs]

theorem brelse_step {i : Nat} (h : Inv c) (hp : c.phase[p]? = some (.op bs))
    (hl : (c.sys.buf i).lock = some p) :
    ∃ l, step c (.brelse p i) = some (.ok ⟨c.sys.released i l, c.phase⟩) := by
  obtain ⟨r, t, hs, l, rfl⟩ := exec_returns (c := c) (m := brelse p i)
    (Q := fun _ t => ∃ l, t = c.sys.released i l) (fun _ => c.phase) (by
      apply wp_brelse (h.cache.held i (by simp [hl])).1 hl
      intro l _
      exact ⟨l, rfl⟩)
  exact ⟨l, by simp only [step, runs_of_op hp, if_true, hs]⟩

theorem log_new (h : Inv c) (hfree : ∀ i, (c.sys.buf i).lock = none) (hp : c.phase[p]? = some (.op bs))
    (hb : b ∉ c.sys.log.lh) (hlt : c.sys.log.lh.length < logBlocks) (hbs : bs.length < maxOpBlocks)
    (hout : ¬ InLog c.sys.log.start b) :
    ∃ c', Reach step ClientOk c c' ∧ (∀ i, (c'.sys.buf i).lock = none) ∧
      c'.sys.log = { c.sys.log with lh := c.sys.log.lh ++ [b] } ∧
      c'.phase = c.phase.set p (.op (b :: bs)) := by
  obtain ⟨i, hi, hs₁⟩ := bread_step h hfree hp (Or.inl hlt)
  have hb₁ : ((c.sys.got p rootDev b i).buf i).blockno = b := by simp [Sys.got]
  have hl₁ : ((c.sys.got p rootDev b i).buf i).lock = some p := by simp [Sys.got]
  have hbbs : b ∉ bs := fun hmem => hb ((h.blocks p bs hp).2 b hmem)
  have hi₁ := h.step hs₁
  have hs₂ := logWrite_step hi₁ hp hl₁ hlt (by rw [hb₁]; exact hb)
  have hi₂ := hi₁.step hs₂
  rw [hb₁, List.insert_of_not_mem hbbs] at hs₂ hi₂
  have hp₂ : (c.phase.set p (.op (b :: bs)))[p]? = some (.op (b :: bs)) := (phase_set hp).mpr (Or.inl ⟨rfl, rfl⟩)
  obtain ⟨l, hs₃⟩ := brelse_step hi₂ hp₂ (i := i) (by simp [Sys.setLh, Sys.pinned, Sys.record, hl₁])
  have hok : ClientOk ⟨c.sys.got p rootDev b i, c.phase⟩ (.logWrite p i) := by
    refine ⟨fun bs' hbs' => ?_, by rw [OutOfLog, hb₁]; exact hout⟩
    rw [hp] at hbs'
    cases hbs'
    simp only [hb₁, List.insert_of_not_mem hbbs, List.length_cons]
    omega
  have hr₁ := Reach.step .init (show ClientOk c (.bread p b) from ⟨trivial, trivial⟩) hs₁
  have hr₃ := Reach.step (.step hr₁ hok hs₂) (show ClientOk _ (.brelse p i) from ⟨trivial, trivial⟩) hs₃
  refine ⟨_, hr₃, fun j => ?_, rfl, rfl⟩
  by_cases hji : j = i
  · subst hji
    simp [Sys.released]
  · simp [Sys.released, Sys.setLh, Sys.pinned, Sys.record, Sys.got, hji, hfree j]

theorem log_list (xs : List Nat) (h : Inv c) (hfree : ∀ i, (c.sys.buf i).lock = none)
    (hp : c.phase[p]? = some (.op bs)) (hnd : xs.Nodup) (hnew : ∀ b ∈ xs, b ∉ c.sys.log.lh)
    (hlt : c.sys.log.lh.length + xs.length ≤ logBlocks) (hbs : bs.length + xs.length ≤ maxOpBlocks)
    (hout : ∀ b ∈ xs, ¬ InLog c.sys.log.start b) :
    ∃ c', Reach step ClientOk c c' ∧ (∀ i, (c'.sys.buf i).lock = none) ∧
      c'.sys.log = { c.sys.log with lh := c.sys.log.lh ++ xs } ∧
      c'.phase = c.phase.set p (.op (xs.reverse ++ bs)) := by
  induction xs generalizing c bs with
  | nil =>
      obtain ⟨hlen, hget⟩ := List.getElem?_eq_some_iff.mp hp
      refine ⟨c, .init, hfree, by simp, ?_⟩
      rw [List.reverse_nil, List.nil_append, ← hget, List.set_getElem_self]
  | cons b xs ih =>
      rw [List.nodup_cons] at hnd
      simp only [List.length_cons] at hlt hbs
      obtain ⟨c₁, hr₁, hf₁, hlog₁, hphase₁⟩ := log_new h hfree hp (hnew b (by simp)) (by omega) (by omega)
        (hout b (by simp))
      have hi₁ : Inv c₁ := hr₁.inv h fun _ _ _ hi _ hs => hi.step hs
      have hp₁ : c₁.phase[p]? = some (.op (b :: bs)) := by
        rw [hphase₁]
        exact (phase_set hp).mpr (Or.inl ⟨rfl, rfl⟩)
      have hnew₁ : ∀ b' ∈ xs, b' ∉ c₁.sys.log.lh := by
        intro b' hb'
        rw [hlog₁]
        simp only [List.mem_append, List.mem_singleton, not_or]
        exact ⟨hnew b' (by simp [hb']), fun he => hnd.1 (he ▸ hb')⟩
      have hlt₁ : c₁.sys.log.lh.length + xs.length ≤ logBlocks := by
        rw [hlog₁]
        simp only [List.length_append, List.length_singleton]
        omega
      have hout₁ : ∀ b' ∈ xs, ¬ InLog c₁.sys.log.start b' := by
        rw [hlog₁]
        exact fun b' hb' => hout b' (by simp [hb'])
      obtain ⟨c₂, hr₂, hf₂, hlog₂, hphase₂⟩ := ih hi₁ hf₁ hp₁ hnd.2 hnew₁ hlt₁
        (by simp only [List.length_cons]; omega) hout₁
      refine ⟨c₂, hr₁.trans hr₂, hf₂, ?_, ?_⟩
      · rw [hlog₂, hlog₁]
        simp
      · rw [hphase₂, hphase₁]
        simp

/-! ## Beginning and ending operations -/

theorem beginOp_step (hp : c.phase[p]? = some .idle) (hc : c.sys.log.committing = false)
    (hroom : (c.sys.log.lh.length : Int) + (c.sys.log.outstanding + 1) * maxOpBlocks ≤ logBlocks) :
    ∃ c', Reach step ClientOk c c' ∧ c'.sys.buf = c.sys.buf ∧
      c'.sys.log = { c.sys.log with outstanding := c.sys.log.outstanding + 1 } ∧
      c'.phase = c.phase.set p (.op []) := by
  obtain ⟨r, t, hs, rfl⟩ := exec_returns (c := c) (m := beginOp p)
    (Q := fun _ t => t = { c.sys with
      log := { c.sys.log with outstanding := c.sys.log.outstanding + 1 } }.record (.beginOp p))
    (fun _ => c.phase.set p (.op [])) (by
      simp only [beginOp, wp_bind, wp_get, hc, Bool.false_eq_true, if_false]
      rw [if_neg (by omega)]
      rfl)
  have hs' : step c (.beginOp p) = c.exec (beginOp p) fun _ => c.phase.set p (.op []) := by
    simp only [step, hp]
  exact ⟨_, .step .init (show ClientOk c (.beginOp p) from ⟨trivial, trivial⟩) (hs'.trans hs), rfl, rfl, rfl⟩

theorem endOp_step (h : Inv c) (hp : c.phase[p]? = some (.op bs)) :
    ∃ c', Reach step ClientOk c c' ∧ c'.sys.buf = c.sys.buf ∧ c'.sys.log.lh = c.sys.log.lh ∧
      c'.sys.log.outstanding = c.sys.log.outstanding - 1 ∧
      c'.phase = c.phase.set p (if c.sys.log.outstanding = 1 then .commit .start else .idle) := by
  obtain ⟨r, t, hs, ⟨hr, hbuf, hlh, ho⟩⟩ := exec_returns (c := c) (m := endOp p)
    (Q := fun r t => (r = decide (c.sys.log.outstanding = 1)) ∧ t.buf = c.sys.buf ∧
      t.log.lh = c.sys.log.lh ∧ t.log.outstanding = c.sys.log.outstanding - 1)
    (fun r => c.phase.set p (if r then .commit .start else .idle)) (by
      simp only [endOp, wp_bind, wp_modify, wp_get, Sys.record, h.committing_of_op hp, Bool.false_eq_true,
        if_false]
      apply wp_ite
      · intro ho
        exact ⟨(decide_eq_true (by omega)).symm, rfl, rfl, rfl⟩
      · intro ho
        exact ⟨(decide_eq_false (by omega)).symm, rfl, rfl, rfl⟩)
  have hs' : step c (.endOp p) =
      c.exec (endOp p) fun r => c.phase.set p (if r then .commit .start else .idle) := by
    simp only [step, hp]
  refine ⟨_, .step .init (show ClientOk c (.endOp p) from ⟨trivial, trivial⟩) (hs'.trans hs), hbuf, hlh, ho, ?_⟩
  simp [hr]

/-! ## A full log -/

/-- The blocks that operation `p` of a full log has logged. -/
def filled (p : Nat) : List Nat := (List.range' (100 + 10 * p) 10).reverse

theorem exists_full (d : Nat → Block) :
    ∃ c, Reach step ClientOk (boot d 2 3) c ∧ (∀ i, (c.sys.buf i).lock = none) ∧
      c.sys.log = ⟨2, 3, false, rootDev, List.range' 100 30⟩ ∧
      c.phase = [.op (filled 0), .op (filled 1), .op (filled 2)] := by
  have l₀ : (boot d 2 3).sys.log = ⟨2, 0, false, rootDev, []⟩ := rfl
  obtain ⟨c₁, r₁, b₁, l₁, p₁⟩ := beginOp_step (c := boot d 2 3) (p := 0) rfl rfl (by rw [l₀]; decide)
  obtain ⟨c₂, r₂, b₂, l₂, p₂⟩ := beginOp_step (c := c₁) (p := 1) (by rw [p₁]; rfl) (by rw [l₁]; rfl)
    (by rw [l₁, l₀]; decide)
  obtain ⟨c₃, r₃, b₃, l₃, p₃⟩ := beginOp_step (c := c₂) (p := 2) (by rw [p₂, p₁]; rfl) (by rw [l₂, l₁]; rfl)
    (by rw [l₂, l₁, l₀]; decide)
  have hr₃ := (r₁.trans r₂).trans r₃
  have hf₃ : ∀ i, (c₃.sys.buf i).lock = none := fun i => by rw [b₃, b₂, b₁]; rfl
  have hl₃ : c₃.sys.log = ⟨2, 3, false, rootDev, []⟩ := by rw [l₃, l₂, l₁]; rfl
  have hp₃ : c₃.phase = [.op [], .op [], .op []] := by rw [p₃, p₂, p₁]; rfl
  obtain ⟨c₄, r₄, hf₄, l₄, p₄⟩ := log_list (p := 0) (List.range' 100 10) (inv_of_reach hr₃) hf₃
    (by rw [hp₃]; rfl) (by decide) (by rw [hl₃]; decide) (by rw [hl₃]; decide) (by decide)
    (by rw [hl₃]; decide)
  have hr₄ := hr₃.trans r₄
  obtain ⟨c₅, r₅, hf₅, l₅, p₅⟩ := log_list (p := 1) (List.range' 110 10) (inv_of_reach hr₄) hf₄
    (by rw [p₄, hp₃]; rfl) (by decide) (by rw [l₄, hl₃]; decide) (by rw [l₄, hl₃]; decide) (by decide)
    (by rw [l₄, hl₃]; decide)
  have hr₅ := hr₄.trans r₅
  obtain ⟨c₆, r₆, hf₆, l₆, p₆⟩ := log_list (p := 2) (List.range' 120 10) (inv_of_reach hr₅) hf₅
    (by rw [p₅, p₄, hp₃]; rfl) (by decide) (by rw [l₅, l₄, hl₃]; decide) (by rw [l₅, l₄, hl₃]; decide) (by decide)
    (by rw [l₅, l₄, hl₃]; decide)
  refine ⟨c₆, hr₅.trans r₆, hf₆, by rw [l₆, l₅, l₄, hl₃]; rfl, by rw [p₆, p₅, p₄, hp₃]; rfl⟩

/-- The three operations end, and the last of them commits. -/
theorem exists_full_commit (d : Nat → Block) :
    ∃ c, Reach step ClientOk (boot d 2 3) c ∧ c.phase[2]? = some (.commit .start) ∧ OnlyPins c.sys ∧
      c.sys.log.lh = List.range' 100 30 := by
  obtain ⟨c, hr, hf, hlog, hphase⟩ := exists_full d
  obtain ⟨c₁, r₁, b₁, l₁, o₁, p₁⟩ := endOp_step (p := 0) (inv_of_reach hr) (by rw [hphase]; rfl)
  have hr₁ := hr.trans r₁
  rw [hphase, hlog] at p₁
  rw [hlog] at o₁ l₁
  obtain ⟨c₂, r₂, b₂, l₂, o₂, p₂⟩ := endOp_step (p := 1) (inv_of_reach hr₁) (by rw [p₁]; rfl)
  have hr₂ := hr₁.trans r₂
  rw [p₁, o₁] at p₂
  rw [o₁] at o₂
  obtain ⟨c₃, r₃, b₃, l₃, o₃, p₃⟩ := endOp_step (p := 2) (inv_of_reach hr₂) (by rw [p₂]; rfl)
  rw [p₂, o₂] at p₃
  have hr₃ := hr₂.trans r₃
  have hi := inv_of_reach hr₃
  have hp : c₃.phase[2]? = some (.commit .start) := by rw [p₃]; rfl
  refine ⟨c₃, hr₃, hp, fun i hm => ?_, by rw [l₃, l₂, l₁]⟩
  have hrefs := hi.cache.pin.refs i hm
  have hl : (c₃.sys.buf i).lock = none := by rw [b₃, b₂, b₁]; exact hf i
  rw [hi.pinned_of_commit hp] at hrefs
  rw [hrefs, hi.dev]
  simp [Buf.holders, Buf.pins, hl, Pc.installed]

end Xv6.Log
