import Mathlib.Algebra.Order.BigOperators.Group.List
import Xv6.Lib.Run
import Xv6.Log.Lemmas.Crash
import Xv6.Log.Lemmas.Keep

/-!
# The invariant of the processes that use the log

`Effect` lists what one step can do. The invariant is kept by each of the effects: `outstanding`
counts the processes in an operation, at most one process is in `commit` and then none is in an
operation, and the blocks of the header that are not installed are pinned.
-/

namespace Xv6.Log

open Lib

variable {c c' : Conc} {p q b : Nat} {x y z : Phase} {f g : Phase → Nat} {a : Act}

/-! ## Sums over the processes -/

theorem sum_map_set {l : List Phase} (hp : l[p]? = some x) (y : Phase) (f : Phase → Nat) :
    ((l.set p y).map f).sum + f x = (l.map f).sum + f y := by
  induction l generalizing p with
  | nil => simp at hp
  | cons z l ih =>
      cases p with
      | zero =>
          simp only [List.getElem?_cons_zero, Option.some.injEq] at hp
          subst hp
          simp only [List.set_cons_zero, List.map_cons, List.sum_cons]
          omega
      | succ p =>
          simp only [List.getElem?_cons_succ] at hp
          have := ih hp
          simp only [List.set_cons_succ, List.map_cons, List.sum_cons]
          omega

theorem Conc.total_set (hp : c.phase[p]? = some x) (hphase : c'.phase = c.phase.set p y)
    (f : Phase → Nat) : c'.total f + f x = c.total f + f y := by
  rw [Conc.total, hphase]
  exact sum_map_set hp y f

theorem Conc.le_total (hp : c.phase[p]? = some x) (f : Phase → Nat) : f x ≤ c.total f :=
  List.le_sum_of_mem (List.mem_map_of_mem (List.mem_of_getElem? hp))

theorem Conc.total_eq_zero (hfg : ∀ x, f x = 0 → g x = 0) (h : c.total f = 0) : c.total g = 0 := by
  simp only [Conc.total, List.sum_eq_zero_iff, List.mem_map, forall_exists_index, and_imp,
    forall_apply_eq_imp_iff₂] at h ⊢
  exact fun x hx => hfg x (h x hx)

theorem phase_set (hp : c.phase[p]? = some x) :
    (c.phase.set p y)[q]? = some z ↔ (q = p ∧ z = y) ∨ (q ≠ p ∧ c.phase[q]? = some z) := by
  obtain ⟨hlt, _⟩ := List.getElem?_eq_some_iff.mp hp
  rw [List.getElem?_set]
  by_cases hqp : p = q
  · subst hqp
    simp [hlt, eq_comm]
  · simp [hqp, Ne.symm hqp]

/-! ## The invariant -/

/-- The loop tests passed on the way to `pc`. -/
def Pc.Ok (lh : List Nat) : Pc → Prop
  | .logCopy tail _ | .homeCopy tail _ => tail < lh.length
  | _ => True

/-- The header write of `commit` is done and its installation is not. -/
def Pc.Past : Pc → Prop
  | .homeBlock _ | .homeCopy _ _ => True
  | _ => False

structure Inv (c : Conc) : Prop where
  dev : c.sys.log.dev = rootDev
  cache : CacheInv rootDev c.pinned c.sys
  ops : c.sys.log.outstanding = (c.total Phase.ops : Int)
  commits : c.total Phase.commits = if c.sys.log.committing then 1 else 0
  quiet : c.sys.log.committing = true → c.total Phase.ops = 0
  nodup : c.sys.log.lh.Nodup
  pc : ∀ (p : Nat) (pc : Pc), c.phase[p]? = some (.commit pc) → pc.Ok c.sys.log.lh
  blocks : ∀ (p : Nat) (bs : List Nat), c.phase[p]? = some (.op bs) → bs.Nodup ∧ ∀ b ∈ bs, b ∈ c.sys.log.lh

theorem Phase.installed_of_commits (x : Phase) (h : x.commits = 0) : x.installed = 0 := by
  cases x with
  | commit pc => simp [Phase.commits] at h
  | _ => rfl

namespace Inv

theorem committing_of_op {bs : List Nat} (h : Inv c) (hp : c.phase[p]? = some (.op bs)) :
    c.sys.log.committing = false := by
  cases hc : c.sys.log.committing with
  | false => rfl
  | true =>
      have h₀ := h.quiet hc
      have h₁ := Conc.le_total hp Phase.ops
      simp only [Phase.ops] at h₁
      omega

theorem outstanding_of_op {bs : List Nat} (h : Inv c) (hp : c.phase[p]? = some (.op bs)) :
    1 ≤ c.sys.log.outstanding := by
  have h₁ := Conc.le_total hp Phase.ops
  rw [h.ops]
  simp only [Phase.ops] at h₁
  omega

theorem committing_of_commit {pc : Pc} (h : Inv c) (hp : c.phase[p]? = some (.commit pc)) :
    c.sys.log.committing = true := by
  have h₁ := Conc.le_total hp Phase.commits
  rw [h.commits] at h₁
  by_contra hc
  simp [hc, Phase.commits] at h₁

theorem installed_of_op {bs : List Nat} (h : Inv c) (hp : c.phase[p]? = some (.op bs)) :
    c.total Phase.installed = 0 := by
  refine Conc.total_eq_zero (f := Phase.commits) Phase.installed_of_commits ?_
  rw [h.commits, h.committing_of_op hp]
  rfl

theorem pinned_of_op {bs : List Nat} (h : Inv c) (hp : c.phase[p]? = some (.op bs)) :
    c.pinned = c.sys.log.lh := by
  rw [Conc.pinned, h.installed_of_op hp, List.drop_zero]

theorem installed_of_commit {pc : Pc} (h : Inv c) (hp : c.phase[p]? = some (.commit pc)) :
    c.total Phase.installed = pc.installed := by
  -- without this process nobody commits
  let c₀ : Conc := ⟨c.sys, c.phase.set p .idle⟩
  have h₁ : c₀.total Phase.commits + _ = c.total Phase.commits + _ := sum_map_set hp .idle _
  have h₂ : c₀.total Phase.installed + _ = c.total Phase.installed + _ := sum_map_set hp .idle _
  have h₃ : c₀.total Phase.commits = 0 := by
    rw [h.commits, h.committing_of_commit hp] at h₁
    simp only [Phase.commits, if_true] at h₁
    omega
  have h₄ := Conc.total_eq_zero Phase.installed_of_commits h₃
  simp only [Phase.installed] at h₂
  omega

theorem pinned_of_commit {pc : Pc} (h : Inv c) (hp : c.phase[p]? = some (.commit pc)) :
    c.pinned = c.sys.log.lh.drop pc.installed := by
  rw [Conc.pinned, h.installed_of_commit hp]

theorem eq_of_commit {pc pc' : Pc} (h : Inv c) (hp : c.phase[p]? = some (.commit pc))
    (hq : c.phase[q]? = some (.commit pc')) : p = q := by
  by_contra hne
  let c₀ : Conc := ⟨c.sys, c.phase.set p .idle⟩
  have h₁ : c₀.total Phase.commits + _ = c.total Phase.commits + _ := sum_map_set hp .idle _
  have hq' : c₀.phase[q]? = some (.commit pc') := (phase_set hp).mpr (Or.inr ⟨fun h => hne h.symm, hq⟩)
  have h₂ := Conc.le_total hq' Phase.commits
  rw [h.commits, h.committing_of_commit hp] at h₁
  simp only [Phase.commits, if_true] at h₁ h₂
  omega

end Inv

/-! ## What a step does -/

theorem exec_error {α : Type} {m : K α} {next : α → List Phase} {Q : α → Sys → Prop}
    {E : Stop → Sys → Prop} {e : Panic} (h : c.exec m next = some (.error e)) (hm : wp m Q E c.sys) :
    ∃ t, E (.panic e) t := by
  unfold Conc.exec at h
  split at h
  · cases h
  · rename_i t ht
    cases h
    exact ⟨t, wp_error hm ht⟩
  · cases h

/-- What the step `a` from `c` to `c'` can do. -/
inductive Effect (c : Conc) (a : Act) (c' : Conc) : Prop
  | beginOp (p : Nat) (hp : c.phase[p]? = some .idle) (hfree : c.sys.log.committing = false)
      (hroom : (c.sys.log.lh.length : Int) + (c.sys.log.outstanding + 1) * maxOpBlocks ≤ logBlocks)
      (hlog : c'.sys.log = { c.sys.log with outstanding := c.sys.log.outstanding + 1 })
      (hhist : c'.sys.hist = c.sys.hist ++ [.beginOp p]) (hphase : c'.phase = c.phase.set p (.op []))
      (hcache : CacheInv rootDev c.pinned c'.sys)
  | buffer (hlog : c'.sys.log = c.sys.log) (hhist : c'.sys.hist = c.sys.hist)
      (hphase : c'.phase = c.phase) (hcache : CacheInv rootDev c.pinned c'.sys)
  | absorb (p i b : Nat) (bs : List Nat) (ha : a = .logWrite p i) (hi : (c.sys.buf i).blockno = b)
      (hp : c.phase[p]? = some (.op bs)) (hb : b ∈ c.sys.log.lh)
      (hlog : c'.sys.log = c.sys.log) (hhist : c'.sys.hist = c.sys.hist ++ [.logWrite p b])
      (hphase : c'.phase = c.phase.set p (.op (bs.insert b))) (hcache : CacheInv rootDev c.pinned c'.sys)
  | logNew (p i b : Nat) (bs : List Nat) (ha : a = .logWrite p i) (hi : (c.sys.buf i).blockno = b)
      (hp : c.phase[p]? = some (.op bs)) (hb : b ∉ c.sys.log.lh)
      (hlog : c'.sys.log = { c.sys.log with lh := c.sys.log.lh ++ [b] })
      (hhist : c'.sys.hist = c.sys.hist ++ [.logWrite p b, .pin b])
      (hphase : c'.phase = c.phase.set p (.op (bs.insert b)))
      (hcache : CacheInv rootDev (c.sys.log.lh ++ [b]) c'.sys)
  | endOp (p : Nat) (bs : List Nat) (last : Bool) (hp : c.phase[p]? = some (.op bs))
      (hlast : last = true ↔ c.sys.log.outstanding = 1)
      (hlog : c'.sys.log =
        { c.sys.log with outstanding := c.sys.log.outstanding - 1, committing := last })
      (hhist : c'.sys.hist = c.sys.hist ++ [.endOp p])
      (hphase : c'.phase = c.phase.set p (if last then .commit .start else .idle))
      (hcache : CacheInv rootDev c.pinned c'.sys)
  | move (p : Nat) (pc pc' : Pc) (hp : c.phase[p]? = some (.commit pc))
      (hinst : pc'.installed = pc.installed) (hpast : pc'.Past → pc.Past) (hok : pc'.Ok c.sys.log.lh)
      (hlog : c'.sys.log = c.sys.log) (hhist : c'.sys.hist = c.sys.hist)
      (hphase : c'.phase = c.phase.set p (.commit pc')) (hcache : CacheInv rootDev c.pinned c'.sys)
  | head (p : Nat) (hp : c.phase[p]? = some (.commit .head)) (hlog : c'.sys.log = c.sys.log)
      (hhist : c'.sys.hist = c.sys.hist ++ [.commit c.sys.log.lh])
      (hphase : c'.phase = c.phase.set p (.commit (.homeBlock 0)))
      (hcache : CacheInv rootDev c.pinned c'.sys)
  | install (p tail lbuf : Nat) (hp : c.phase[p]? = some (.commit (.homeCopy tail lbuf)))
      (hlog : c'.sys.log = c.sys.log)
      (hhist : c'.sys.hist = c.sys.hist ++ [.unpin (c.sys.log.lh.getD tail 0)])
      (hphase : c'.phase = c.phase.set p (.commit (.homeBlock (tail + 1))))
      (hcache : CacheInv rootDev (c.sys.log.lh.drop (tail + 1)) c'.sys)
  | clear (p tail : Nat) (hp : c.phase[p]? = some (.commit (.homeBlock tail)))
      (htail : c.sys.log.lh.length ≤ tail) (hlog : c'.sys.log = { c.sys.log with lh := [] })
      (hhist : c'.sys.hist = c.sys.hist) (hphase : c'.phase = c.phase.set p (.commit .erase))
      (hcache : CacheInv rootDev [] c'.sys)
  | finish (p : Nat) (hp : c.phase[p]? = some (.commit .finish))
      (hlog : c'.sys.log = { c.sys.log with committing := false }) (hhist : c'.sys.hist = c.sys.hist)
      (hphase : c'.phase = c.phase.set p .idle) (hcache : CacheInv rootDev c.pinned c'.sys)

theorem exec_effect {α : Type} {m : K α} {next : α → List Phase} {E : Stop → Sys → Prop}
    (h : c.exec m next = some (.ok c')) (hm : wp m (fun r t => Effect c a ⟨t, next r⟩) E c.sys) :
    Effect c a c' := by
  unfold Conc.exec at h
  split at h
  · rename_i r t ht
    cases h
    have := wp_ok hm ht
    exact this
  · cases h
  · cases h

theorem Kept.move {pc pc' : Pc} {t : Sys} (hk : Kept rootDev c.pinned c.sys t)
    (hp : c.phase[p]? = some (.commit pc)) (hinst : pc'.installed = pc.installed)
    (hpast : pc'.Past → pc.Past) (hok : pc'.Ok c.sys.log.lh) : Effect c a ⟨t, c.after p (some pc')⟩ :=
  .move p pc pc' hp hinst hpast hok hk.log hk.hist rfl hk.inv

theorem commitStep_spec {pc : Pc} (h : Inv c) (hp : c.phase[p]? = some (.commit pc)) :
    wp (commitStep p pc) (fun r t => Effect c (.commit p) ⟨t, c.after p r⟩) (fun e _ => BioStop e) c.sys := by
  have hpin := h.pinned_of_commit hp
  have hsame : Kept rootDev c.pinned c.sys c.sys := ⟨h.cache, rfl, rfl⟩
  cases pc with
  | start =>
      simp only [commitStep, wp_bind, wp_get]
      apply wp_ite
      · intro _
        exact hsame.move hp rfl id trivial
      · intro _
        exact hsame.move hp rfl id trivial
  | logBlock tail =>
      simp only [commitStep, wp_bind, wp_get, h.dev]
      apply wp_ite
      · intro hlt
        simp only [wp_bind, wp_pure]
        refine wp_post (bread_keep h.cache) ?_
        rintro i t ⟨ht, _⟩
        exact ht.move hp rfl id hlt
      · intro _
        exact hsame.move hp rfl id trivial
  | logCopy tail dst =>
      simp only [commitStep, wp_bind, wp_get, wp_pure, h.dev]
      exact wp_post (writeLogCopy_keep h.cache) fun _ t ht => ht.move hp rfl id trivial
  | head =>
      simp only [commitStep, recordCommit, wp_bind, wp_modify, wp_pure]
      refine wp_post (writeHead_keep (h.cache.congr rfl rfl) h.dev) fun _ t ht => ?_
      exact .head p hp ht.log ht.hist rfl ht.inv
  | homeBlock tail =>
      simp only [commitStep, wp_bind, wp_get, h.dev]
      apply wp_ite
      · intro hlt
        simp only [wp_bind, wp_pure]
        refine wp_post (bread_keep h.cache) ?_
        rintro i t ⟨ht, _⟩
        exact ht.move hp rfl id hlt
      · intro hge
        simp only [clearHead, wp_bind, wp_modify, wp_pure]
        have hnil : c.pinned = [] := by
          rw [hpin]
          exact List.drop_eq_nil_of_le (by simpa [Pc.installed] using hge)
        exact .clear p tail hp (by omega) rfl rfl rfl ((hnil ▸ h.cache).setLh [])
  | homeCopy tail lbuf =>
      have hlt : tail < c.sys.log.lh.length := h.pc p _ hp
      have hcache : CacheInv rootDev (c.sys.log.lh.getD tail 0 :: c.sys.log.lh.drop (tail + 1)) c.sys := by
        rw [← drop_eq_getD_cons hlt]
        exact hpin ▸ h.cache
      simp only [commitStep, wp_bind, wp_get, wp_pure, h.dev]
      refine wp_post (installCopy_keep hcache (getD_notMem_drop h.nodup hlt)) ?_
      rintro _ t ⟨hc, hlog, hhist⟩
      exact .install p tail lbuf hp hlog hhist rfl hc
  | erase =>
      simp only [commitStep, wp_bind, wp_pure]
      exact wp_post (writeHead_keep h.cache h.dev) fun _ t ht => ht.move hp rfl id trivial
  | finish =>
      simp only [commitStep, endCommit, wp_bind, wp_modify, wp_pure]
      exact .finish p hp rfl rfl rfl (h.cache.congr rfl rfl)

theorem holds_of_holdingsleep {i : Nat} (h : Inv c) (hh : holdingsleep c.sys p i = true) :
    c.sys.Has rootDev (c.sys.buf i).blockno i ∧ (c.sys.buf i).lock.isSome := by
  have hl : (c.sys.buf i).lock = some p := by simpa [holdingsleep] using hh
  have := h.cache.held i (by simp [hl])
  exact ⟨⟨this.1, this.2.1, rfl⟩, by simp [hl]⟩

/-- In an operation `log_write` stops only when the header is full. -/
theorem logWrite_spec {bs : List Nat} {i : Nat} (h : Inv c) (hp : c.phase[p]? = some (.op bs))
    (hh : holdingsleep c.sys p i = true) :
    wp (logWrite p i)
      (fun _ t => c.sys.log.lh.length < logBlocks ∧
        Effect c (.logWrite p i) ⟨t, c.phase.set p (.op (bs.insert (c.sys.buf i).blockno))⟩)
      (fun e _ => e = .panic .tooBig ∧ logBlocks ≤ c.sys.log.lh.length) c.sys := by
  obtain ⟨hhas, hl⟩ := holds_of_holdingsleep h hh
  have hpin := h.pinned_of_op hp
  have hout := h.outstanding_of_op hp
  simp only [logWrite, wp_bind, wp_get]
  apply wp_ite
  · intro hfull
    exact ⟨rfl, hfull⟩
  · intro hroom
    rw [if_neg (by omega)]
    simp only [wp_bind, wp_modify]
    apply wp_ite
    · intro hb
      exact ⟨by omega, .absorb p i _ bs rfl rfl hp hb rfl rfl rfl (h.cache.congr rfl rfl)⟩
    · intro hb
      simp only [wp_bind, bpin, wp_modify]
      refine ⟨by omega, .logNew p i _ bs rfl rfl hp hb ?_ ?_ rfl ?_⟩
      · simp [Sys.setLh, Sys.record]
      · simp [Sys.setLh, Sys.record]
      · have hc : CacheInv rootDev c.sys.log.lh (c.sys.record (.logWrite p (c.sys.buf i).blockno)) :=
          (hpin ▸ h.cache).congr rfl rfl
        exact (hc.pinned hhas hl hb).setLh _

theorem endOp_spec {bs : List Nat} (h : Inv c) (hp : c.phase[p]? = some (.op bs)) :
    wp (endOp p)
      (fun r t => Effect c (.endOp p) ⟨t, c.phase.set p (if r then .commit .start else .idle)⟩)
      (fun _ _ => False) c.sys := by
  simp only [endOp, wp_bind, wp_modify, wp_get, Sys.record, h.committing_of_op hp, Bool.false_eq_true,
    if_false]
  have hcache : ∀ t : Sys, t.buf = c.sys.buf → t.lru = c.sys.lru → CacheInv rootDev c.pinned t :=
    fun t hb hl => h.cache.congr hb hl
  apply wp_ite
  · intro ho
    simp only [wp_bind, wp_set, wp_pure]
    exact .endOp p bs true hp ⟨fun _ => by omega, fun _ => rfl⟩ rfl rfl rfl (hcache _ rfl rfl)
  · intro ho
    simp only [wp_pure]
    exact .endOp p bs false hp ⟨fun hf => (by cases hf), fun hf => by omega⟩ rfl rfl rfl (hcache _ rfl rfl)

theorem beginOp_spec (h : Inv c) (hp : c.phase[p]? = some .idle) :
    wp (beginOp p) (fun _ t => Effect c (.beginOp p) ⟨t, c.phase.set p (.op [])⟩)
      (fun e _ => e = .sleep) c.sys := by
  simp only [beginOp, wp_bind, wp_get]
  refine wp_ite (fun _ => rfl) fun hc => wp_ite (fun _ => rfl) fun hr => ?_
  exact .beginOp p hp (by simpa using hc) (by omega) rfl rfl rfl (h.cache.congr rfl rfl)

theorem Kept.buffer {t : Sys} (hk : Kept rootDev c.pinned c.sys t) : Effect c a ⟨t, c.phase⟩ :=
  .buffer hk.log hk.hist rfl hk.inv

theorem step_effect (h : Inv c) (hs : step c a = some (.ok c')) : Effect c a c' := by
  cases a with
  | beginOp p =>
      simp only [step] at hs
      split at hs
      · exact exec_effect hs (beginOp_spec h ‹_›)
      · cases hs
  | bread p b =>
      simp only [step, h.dev] at hs
      split at hs
      · exact exec_effect hs (wp_post (bread_keep h.cache) fun _ _ hk => hk.1.buffer)
      · cases hs
  | store p i d =>
      simp only [step] at hs
      split at hs
      · refine exec_effect (E := fun _ _ => True) hs ?_
        exact .buffer rfl rfl rfl (h.cache.withData i d)
      · cases hs
  | logWrite p i =>
      simp only [step] at hs
      split at hs
      · split at hs
        · exact exec_effect hs (wp_post (logWrite_spec h ‹_› ‹_›) fun _ _ he => he.2)
        · cases hs
      · cases hs
  | brelse p i =>
      simp only [step] at hs
      split at hs
      · exact exec_effect hs (wp_post (brelse_keep h.cache) fun _ _ hk => hk.buffer)
      · cases hs
  | endOp p =>
      simp only [step] at hs
      split at hs
      · exact exec_effect hs (endOp_spec h ‹_›)
      · cases hs
  | commit p =>
      simp only [step] at hs
      split at hs
      · exact exec_effect hs (commitStep_spec h ‹_›)
      · cases hs

/-- A step panics in the buffer cache, or in a `log_write` on a full header. -/
theorem step_error {e : Panic} (h : Inv c) (hs : step c a = some (.error e)) :
    BioStop (.panic e) ∨ ∃ p i, a = .logWrite p i ∧ e = .tooBig ∧ logBlocks ≤ c.sys.log.lh.length := by
  cases a with
  | beginOp p =>
      simp only [step] at hs
      split at hs
      · obtain ⟨_, he⟩ := exec_error hs (beginOp_spec h ‹_›)
        cases he
      · cases hs
  | bread p b =>
      simp only [step, h.dev] at hs
      split at hs
      · obtain ⟨_, he⟩ := exec_error hs (bread_keep h.cache)
        exact Or.inl he
      · cases hs
  | store p i d =>
      simp only [step] at hs
      split at hs
      · cases hs
      · cases hs
  | logWrite p i =>
      simp only [step] at hs
      split at hs
      · split at hs
        · obtain ⟨_, he, hfull⟩ := exec_error hs (logWrite_spec h ‹_› ‹_›)
          cases he
          exact Or.inr ⟨p, i, rfl, rfl, hfull⟩
        · cases hs
      · cases hs
  | brelse p i =>
      simp only [step] at hs
      split at hs
      · obtain ⟨_, he⟩ := exec_error hs (brelse_keep h.cache)
        exact Or.inl he
      · cases hs
  | endOp p =>
      simp only [step] at hs
      split at hs
      · obtain ⟨_, he⟩ := exec_error hs (endOp_spec h ‹_›)
        exact he.elim
      · cases hs
  | commit p =>
      simp only [step] at hs
      split at hs
      · obtain ⟨_, he⟩ := exec_error hs (commitStep_spec h ‹_›)
        exact Or.inl he
      · cases hs

/-! ## Every step keeps the invariant -/

theorem pinned_congr (hlh : c'.sys.log.lh = c.sys.log.lh)
    (hi : c'.total Phase.installed = c.total Phase.installed) : c'.pinned = c.pinned := by
  rw [Conc.pinned, Conc.pinned, hlh, hi]

theorem pinned_of_set (hp : c.phase[p]? = some x) (hphase : c'.phase = c.phase.set p y)
    (hi : y.installed = x.installed) (hlh : c'.sys.log.lh = c.sys.log.lh) : c'.pinned = c.pinned := by
  have := Conc.total_set hp hphase Phase.installed
  exact pinned_congr hlh (by omega)

/-- The operations of the other processes keep their blocks in a header that only grows. -/
theorem Inv.blocks_set (h : Inv c) (hp : c.phase[p]? = some x) {lh : List Nat}
    (hlh : ∀ b ∈ c.sys.log.lh, b ∈ lh)
    (hy : ∀ bs, y = .op bs → bs.Nodup ∧ ∀ b ∈ bs, b ∈ lh) (q : Nat) (bs : List Nat)
    (hq : (c.phase.set p y)[q]? = some (.op bs)) : bs.Nodup ∧ ∀ b ∈ bs, b ∈ lh := by
  rcases (phase_set hp).mp hq with ⟨_, hbs⟩ | ⟨_, hq⟩
  · exact hy bs hbs.symm
  · have := h.blocks q bs hq
    exact ⟨this.1, fun b hb => hlh b (this.2 b hb)⟩

theorem Inv.pc_set (h : Inv c) (hp : c.phase[p]? = some x) (hy : ∀ pc, y = .commit pc → pc.Ok c.sys.log.lh)
    (q : Nat) (pc : Pc) (hq : (c.phase.set p y)[q]? = some (.commit pc)) : pc.Ok c.sys.log.lh := by
  rcases (phase_set hp).mp hq with ⟨_, hpc⟩ | ⟨_, hq⟩
  · exact hy pc hpc.symm
  · exact h.pc q pc hq

theorem Inv.no_commit_of_op {bs : List Nat} (h : Inv c) (hp : c.phase[p]? = some (.op bs)) (q : Nat)
    (pc : Pc) : c.phase[q]? ≠ some (.commit pc) := by
  intro hq
  have := h.committing_of_commit hq
  rw [h.committing_of_op hp] at this
  cases this

theorem Inv.no_op_of_commit {pc : Pc} (h : Inv c) (hp : c.phase[p]? = some (.commit pc)) (q : Nat)
    (bs : List Nat) : c.phase[q]? ≠ some (.op bs) :=
  fun hq => h.no_commit_of_op hq p pc hp

theorem Inv.beginOp (h : Inv c) (hp : c.phase[p]? = some .idle) (hfree : c.sys.log.committing = false)
    (hlog : c'.sys.log = { c.sys.log with outstanding := c.sys.log.outstanding + 1 })
    (hphase : c'.phase = c.phase.set p (.op [])) (hcache : CacheInv rootDev c.pinned c'.sys) : Inv c' := by
  have ho := Conc.total_set hp hphase Phase.ops
  have hc := Conc.total_set hp hphase Phase.commits
  simp only [Phase.ops, Phase.commits, Nat.add_zero] at ho hc
  refine ⟨by rw [hlog, h.dev], ?_, ?_, ?_, ?_, by rw [hlog]; exact h.nodup, ?_, ?_⟩
  · rw [pinned_of_set hp hphase rfl (by rw [hlog])]
    exact hcache
  · rw [hlog, ho, h.ops]
    rfl
  · rw [hc, hlog, h.commits]
  · rw [hlog]
    intro hcom
    simp [hfree] at hcom
  · rw [hlog, hphase]
    exact h.pc_set hp (by simp)
  · rw [hlog, hphase]
    exact h.blocks_set hp (fun _ hb => hb) (by simp)

theorem Inv.logWrite {bs : List Nat} (h : Inv c) (hp : c.phase[p]? = some (.op bs)) {lh : List Nat}
    (hsub : ∀ b ∈ c.sys.log.lh, b ∈ lh) (hb : b ∈ lh) (hnd : lh.Nodup)
    (hlog : c'.sys.log = { c.sys.log with lh := lh })
    (hphase : c'.phase = c.phase.set p (.op (bs.insert b))) (hcache : CacheInv rootDev lh c'.sys) :
    Inv c' := by
  have ho := Conc.total_set hp hphase Phase.ops
  have hc := Conc.total_set hp hphase Phase.commits
  have hi := Conc.total_set hp hphase Phase.installed
  simp only [Phase.ops, Phase.commits, Phase.installed, Nat.add_zero, Nat.add_right_cancel_iff] at ho hc hi
  rw [h.installed_of_op hp] at hi
  refine ⟨by rw [hlog, h.dev], ?_, ?_, ?_, ?_, by rw [hlog]; exact hnd, ?_, ?_⟩
  · rw [Conc.pinned, hi, List.drop_zero, hlog]
    exact hcache
  · rw [hlog, ho, h.ops]
  · rw [hc, hlog, h.commits]
  · rw [hlog, ho]
    exact h.quiet
  · intro q pc hq
    rw [hphase] at hq
    rcases (phase_set hp).mp hq with ⟨_, hpc⟩ | ⟨_, hq⟩
    · cases hpc
    · exact absurd hq (h.no_commit_of_op hp q pc)
  · rw [hlog, hphase]
    refine h.blocks_set hp hsub fun bs' hbs => ?_
    cases hbs
    have := h.blocks p bs hp
    refine ⟨this.1.insert, fun b' hb' => ?_⟩
    rcases List.mem_insert_iff.mp hb' with rfl | hb'
    · exact hb
    · exact hsub b' (this.2 b' hb')

theorem Inv.endOp {bs : List Nat} {last : Bool} (h : Inv c) (hp : c.phase[p]? = some (.op bs))
    (hlast : last = true ↔ c.sys.log.outstanding = 1)
    (hlog : c'.sys.log =
      { c.sys.log with outstanding := c.sys.log.outstanding - 1, committing := last })
    (hphase : c'.phase = c.phase.set p (if last then .commit .start else .idle))
    (hcache : CacheInv rootDev c.pinned c'.sys) : Inv c' := by
  have ho := Conc.total_set hp hphase Phase.ops
  have hc := Conc.total_set hp hphase Phase.commits
  have hc₀ := h.commits
  have hops := h.ops
  rw [h.committing_of_op hp] at hc₀
  have hop : (if last then Phase.commit .start else .idle).ops = 0 := by cases last <;> rfl
  rw [hop] at ho
  simp only [Phase.ops, Phase.commits] at ho hc hc₀
  refine ⟨by rw [hlog, h.dev], ?_, ?_, ?_, ?_, by rw [hlog]; exact h.nodup, ?_, ?_⟩
  · rw [pinned_of_set hp hphase (by cases last <;> rfl) (by rw [hlog])]
    exact hcache
  · rw [hlog]
    show c.sys.log.outstanding - 1 = _
    omega
  · rw [hlog]
    cases last with
    | false => simp at hc hc₀ ⊢; omega
    | true => simp at hc hc₀ ⊢; omega
  · rw [hlog]
    intro hl
    have := hlast.mp hl
    omega
  · rw [hlog, hphase]
    refine h.pc_set hp fun pc hpc => ?_
    cases last with
    | false => cases hpc
    | true => cases hpc; trivial
  · rw [hlog, hphase]
    refine h.blocks_set hp (fun _ hb => hb) fun bs' hbs => ?_
    cases last with
    | false => cases hbs
    | true => cases hbs

theorem Inv.commit {pc pc' : Pc} (h : Inv c) (hp : c.phase[p]? = some (.commit pc)) {lh : List Nat}
    (hlog : c'.sys.log = { c.sys.log with lh := lh }) (hnd : lh.Nodup) (hok : pc'.Ok lh)
    (hphase : c'.phase = c.phase.set p (.commit pc'))
    (hcache : CacheInv rootDev (lh.drop pc'.installed) c'.sys) : Inv c' := by
  have ho := Conc.total_set hp hphase Phase.ops
  have hc := Conc.total_set hp hphase Phase.commits
  have hi := Conc.total_set hp hphase Phase.installed
  have hi₀ := h.installed_of_commit hp
  simp only [Phase.ops, Phase.commits, Phase.installed, Nat.add_zero, Nat.add_right_cancel_iff] at ho hc hi
  refine ⟨by rw [hlog, h.dev], ?_, ?_, ?_, ?_, by rw [hlog]; exact hnd, ?_, ?_⟩
  · rw [Conc.pinned, hlog, show c'.total Phase.installed = pc'.installed by omega]
    exact hcache
  · rw [hlog, ho, h.ops]
  · rw [hc, hlog, h.commits]
  · rw [hlog, ho]
    exact h.quiet
  · intro q pc₁ hq
    rw [hphase] at hq
    rcases (phase_set hp).mp hq with ⟨_, hpc⟩ | ⟨hne, hq⟩
    · cases hpc
      rw [hlog]
      exact hok
    · exact absurd (h.eq_of_commit hp hq).symm hne
  · intro q bs hq
    rw [hphase] at hq
    rcases (phase_set hp).mp hq with ⟨_, hpc⟩ | ⟨_, hq⟩
    · cases hpc
    · exact absurd hq (h.no_op_of_commit hp q bs)

theorem Inv.finish (h : Inv c) (hp : c.phase[p]? = some (.commit .finish))
    (hlog : c'.sys.log = { c.sys.log with committing := false })
    (hphase : c'.phase = c.phase.set p .idle) (hcache : CacheInv rootDev c.pinned c'.sys) : Inv c' := by
  have ho := Conc.total_set hp hphase Phase.ops
  have hc := Conc.total_set hp hphase Phase.commits
  have hc₀ := h.commits
  rw [h.committing_of_commit hp] at hc₀
  simp only [Phase.ops, Phase.commits, Nat.add_zero, if_true] at ho hc hc₀
  refine ⟨by rw [hlog, h.dev], ?_, ?_, ?_, ?_, by rw [hlog]; exact h.nodup, ?_, ?_⟩
  · rw [pinned_of_set hp hphase rfl (by rw [hlog])]
    exact hcache
  · rw [hlog, ho, h.ops]
  · rw [hlog]
    simp
    omega
  · rw [hlog]
    intro hcom
    cases hcom
  · rw [hlog, hphase]
    exact h.pc_set hp (by simp)
  · rw [hlog, hphase]
    exact h.blocks_set hp (fun _ hb => hb) (by simp)

theorem Inv.effect (h : Inv c) (he : Effect c a c') : Inv c' := by
  cases he with
  | beginOp p hp hfree hroom hlog hhist hphase hcache => exact h.beginOp hp hfree hlog hphase hcache
  | buffer hlog hhist hphase hcache =>
      have htotal : ∀ f, c'.total f = c.total f := fun f => by rw [Conc.total, hphase, Conc.total]
      refine ⟨by rw [hlog, h.dev], ?_, by rw [hlog, htotal, h.ops], by rw [hlog, htotal, h.commits], ?_,
        by rw [hlog]; exact h.nodup, by rw [hlog, hphase]; exact h.pc, by rw [hlog, hphase]; exact h.blocks⟩
      · rw [pinned_congr (by rw [hlog]) (htotal _)]
        exact hcache
      · rw [hlog, htotal]
        exact h.quiet
  | absorb p i b bs ha hi hp hb hlog hhist hphase hcache =>
      exact h.logWrite hp (fun _ hb => hb) hb h.nodup hlog hphase (h.pinned_of_op hp ▸ hcache)
  | logNew p i b bs ha hi hp hb hlog hhist hphase hcache =>
      refine h.logWrite hp (fun b' hb' => List.mem_append_left _ hb') (by simp) ?_ hlog hphase hcache
      exact List.nodup_append.mpr ⟨h.nodup, by simp, by rintro a ha b' hb' rfl; exact hb (List.mem_singleton.mp hb' ▸ ha)⟩
  | endOp p bs last hp hlast hlog hhist hphase hcache => exact h.endOp hp hlast hlog hphase hcache
  | move p pc pc' hp hinst hpast hok hlog hhist hphase hcache =>
      exact h.commit hp hlog h.nodup hok hphase (hinst ▸ h.pinned_of_commit hp ▸ hcache)
  | head p hp hlog hhist hphase hcache =>
      have hok : Pc.Ok c.sys.log.lh (.homeBlock 0) := trivial
      exact h.commit hp hlog h.nodup hok hphase (h.pinned_of_commit hp ▸ hcache)
  | install p tail lbuf hp hlog hhist hphase hcache =>
      have hok : Pc.Ok c.sys.log.lh (.homeBlock (tail + 1)) := trivial
      exact h.commit hp hlog h.nodup hok hphase hcache
  | clear p tail hp htail hlog hhist hphase hcache =>
      have hok : Pc.Ok [] .erase := trivial
      exact h.commit hp hlog List.nodup_nil hok hphase hcache
  | finish p hp hlog hhist hphase hcache => exact h.finish hp hlog hphase hcache

theorem Inv.step (h : Inv c) (hs : step c a = some (.ok c')) : Inv c' := h.effect (step_effect h hs)

theorem inv_boot (d : Nat → Block) (start n : Nat) : Inv (boot d start n) := by
  have htotal : ∀ f : Phase → Nat, f .idle = 0 → (boot d start n).total f = 0 := by
    intro f hf
    simp [boot, Conc.total, hf]
  have hphase : ∀ {q : Nat} {x : Phase}, (boot d start n).phase[q]? = some x → x = .idle :=
    fun hq => List.eq_of_mem_replicate (List.mem_of_getElem? hq)
  constructor
  · rfl
  · rw [Conc.pinned, htotal _ rfl]
    refine ⟨(Quiet.reboot d start).pin, fun i hi => ?_, List.reverse_perm _⟩
    simp [boot, binit] at hi
  · rw [htotal _ rfl]
    rfl
  · rw [htotal _ rfl]
    rfl
  · exact fun _ => htotal _ rfl
  · exact List.nodup_nil
  · intro p pc hp
    cases hphase hp
  · intro p bs hp
    cases hphase hp

theorem inv_of_reach {ok : Conc → Act → Prop} {d : Nat → Block} {start n : Nat}
    (h : Reach step ok (boot d start n) c) : Inv c :=
  h.inv (inv_boot d start n) fun _ _ _ hi _ hs => hi.step hs

end Xv6.Log
