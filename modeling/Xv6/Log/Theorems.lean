import Xv6.Log.Lemmas.Coherence
import Xv6.Log.Lemmas.Fill

/-!
# The guarantees of the log
-/

namespace Xv6.Log

open Lib

variable {s : Sys} {ext : Nat → Nat}

/-! ## A crash keeps a transaction whole -/

/-- `commit` crashes after `k` of its writes, recovery crashes after `ks[0]`, `ks[1]`, … of its own
writes and then runs to its end: the header is empty, the home blocks have all their old or all
their new contents, and no other block outside the log has changed. -/
theorem commit_crash_atomic (hpin : PinOk rootDev s.log.lh ext s) (hdev : s.log.dev = rootDev)
    (hmax : s.log.lh.length ≤ logBlocks) (hnd : s.log.lh.Nodup)
    (hout : ∀ b ∈ s.log.lh, ¬ InLog s.log.start b) (hlt : ∀ b ∈ s.log.lh, b < 2 ^ 32)
    (hempty : load 4 (s.disk s.log.start) 0 = 0) (p q k : Nat)
    (hk : k ≤ (writesOf (commit p) s).length) (ks : List Nat) :
    ∃ t, recoverFromLog q (reboot
        (crashedRecoveries q s.log.start (crashDisk (commit p) s k) ks) s.log.start) = .ok () t ∧
      load 4 (t.disk s.log.start) 0 = 0 ∧
      (∀ b ∈ s.log.lh, t.disk b = if k ≤ s.log.lh.length then s.disk b else s.view rootDev b) ∧
      ∀ b, ¬ InLog s.log.start b → b ∉ s.log.lh → t.disk b = s.disk b := by
  let T : Txn := ⟨s.log.start, s.log.lh, s.disk, s.view rootDev, hmax, hnd, hout, hlt⟩
  have hbefore : T.Before s.disk := ⟨hempty, fun _ _ => rfl, fun _ _ _ => rfl⟩
  have hcopying : Copying T rootDev ext s 0 s :=
    ⟨hpin, rfl, .zero (by simp [Txn.Along, hbefore]) rfl rfl, hbefore, fun _ _ => rfl, by omega⟩
  have hcrash := commit_along (p := p) (T := T) rfl rfl hdev hcopying k hk
  by_cases hkn : k ≤ s.log.lh.length
  · rw [Txn.Along, if_pos hkn] at hcrash
    obtain ⟨t, ht, h₁, h₂, h₃⟩ := recover_before (p := q) ks hcrash
    exact ⟨t, ht, h₁, fun b hb => by rw [if_pos hkn]; exact h₂ b hb, h₃⟩
  · rw [Txn.Along, if_neg hkn] at hcrash
    obtain ⟨t, ht, h₁, h₂, h₃⟩ := recover_committed (p := q) ks hcrash
    exact ⟨t, ht, h₁, fun b hb => by rw [if_neg hkn]; exact h₂ b hb, h₃⟩

/-- Block 100 is logged with the contents 9; the disk is `e` and the log starts at block 2. -/
def oneLogged (e : Nat → Block) : Sys :=
  (((reboot e 2).setBuf 0 ⟨true, rootDev, 100, none, 1, fun _ => 9⟩).setLh [100])

theorem oneLogged_pinOk (e : Nat → Block) : PinOk rootDev [100] (fun _ => 0) (oneLogged e) := by
  have hbuf : ∀ i, i ≠ 0 → (oneLogged e).buf i = ⟨false, 0, 0, none, 0, fun _ => 0⟩ := by
    intro i hi
    simp [oneLogged, Sys.setLh, reboot, binit, hi]
  have hhas : ∀ b i, (oneLogged e).Has rootDev b i → i = 0 := by
    intro b i hi
    by_contra hne
    have := hi.2.1
    rw [hbuf i hne] at this
    cases this
  refine ⟨(Quiet.reboot e 2).pin.nodup, fun b i j hi hj => (hhas b i hi).trans (hhas b j hj).symm, ?_, ?_⟩
  · intro i _
    by_cases hi : i = 0
    · subst hi
      rfl
    · rw [hbuf i hi]
      rfl
  · intro b hb
    obtain rfl : b = 100 := by simpa using hb
    exact ⟨0, ⟨by simp [oneLogged, Sys.setLh, reboot, binit, nbuf, maxOpBlocks], rfl, rfl⟩, rfl⟩

theorem commit_crash_atomic_oneLogged :
    ∃ t, recoverFromLog 0 (reboot (crashedRecoveries 0 2
        (crashDisk (commit 0) (oneLogged fun _ _ => 0) 0) [0, 1]) 2) = .ok () t ∧
      load 4 (t.disk 2) 0 = 0 ∧ (∀ b ∈ [100], t.disk b = fun _ => 0) ∧
      ∀ b, ¬ InLog 2 b → b ∉ [100] → t.disk b = fun _ => 0 := by
  obtain ⟨t, ht, h₁, h₂, h₃⟩ := commit_crash_atomic (s := oneLogged fun _ _ => 0) (oneLogged_pinOk _) rfl
    (by decide) (by decide) (by decide) (by decide) (by decide) 0 0 0 (Nat.zero_le _) [0, 1]
  exact ⟨t, ht, h₁, h₂, h₃⟩

/-- A disk whose header still names block 100, with other contents in the log. -/
def staleDisk (b : Nat) : Block := if b = 2 then putHead [100] fun _ => 0 else if b = 3 then fun _ => 5 else fun _ => 0

/-- Without an empty header on the disk, a crash before the first write of `commit` lets recovery
install what the old header names. -/
theorem commit_crash_stale_header :
    ∃ s : Sys, PinOk rootDev s.log.lh (fun _ => 0) s ∧ s.log.dev = rootDev ∧ 0 < s.log.lh.length ∧
      s.log.lh.length ≤ logBlocks ∧ s.log.lh.Nodup ∧ (∀ b ∈ s.log.lh, ¬ InLog s.log.start b) ∧
      (∀ b ∈ s.log.lh, b < 2 ^ 32) ∧
      ∃ t, recoverFromLog 0 (reboot (crashDisk (commit 0) s 0) s.log.start) = .ok () t ∧
        ∃ b ∈ s.log.lh, t.disk b ≠ s.disk b := by
  let T : Txn := ⟨2, [100], staleDisk, fun _ _ => 5, by decide, by decide, by decide, by decide⟩
  have hlogged : T.Logged staleDisk := by
    refine ⟨getHead_putHead (by decide) (by decide) _, fun k hk => ?_, fun _ _ _ => rfl⟩
    obtain rfl : k = 0 := by simpa [T] using hk
    rfl
  obtain ⟨t, ht, _, h₂, _⟩ := recover_committed (p := 0) [] (Or.inl hlogged)
  refine ⟨oneLogged staleDisk, oneLogged_pinOk _, rfl, by decide, by decide, by decide, by decide,
    by decide, t, ht, 100, by decide, fun heq => ?_⟩
  have h0 := congrFun ((h₂ 100 (by decide)).symm.trans heq) 0
  cases h0

/-! ## The space reserved for operations -/

variable {c : Conc} {a : Act} {d : Nat → Block} {start n p : Nat}

/-- A run of operations of at most `MAXOPBLOCKS` blocks ends in "too big a transaction" exactly when
one of its `log_write`s is called for a block that is in a full header. -/
theorem run_fits_iff (as : List Act) (h : RunOk step OpBound as (boot d start n)) :
    run step as (boot d start n) ≠ some (.error .tooBig) ↔ RunOk step AbsorbsInRoom as (boot d start n) :=
  run_fits_iff_of_budget as (inv_boot d start n) (budget_boot d start n) h

theorem run_fits_iff_begin :
    RunOk step OpBound [.beginOp 0, .bread 0 100] (boot (fun _ _ => 0) 2 3) ∧
      (run step [.beginOp 0, .bread 0 100] (boot (fun _ _ => 0) 2 3) ≠ some (.error .tooBig) ↔
        RunOk step AbsorbsInRoom [.beginOp 0, .bread 0 100] (boot (fun _ _ => 0) 2 3)) := by
  have h : RunOk step OpBound [.beginOp 0, .bread 0 100] (boot (fun _ _ => 0) 2 3) :=
    ⟨trivial, fun _ _ => ⟨trivial, fun _ _ => trivial⟩⟩
  exact ⟨h, run_fits_iff _ h⟩

/-- Three operations log ten blocks each; then the first logs one of its blocks once more. -/
theorem logWrite_again_panics :
    ∃ c i, Reach step OpBound (boot (fun _ _ => 0) 2 3) c ∧ OpBound c (.logWrite 0 i) ∧
      step c (.logWrite 0 i) = some (.error .tooBig) := by
  obtain ⟨c, hr, hf, hlog, hphase⟩ := exists_full fun _ _ => 0
  have hp : c.phase[0]? = some (.op (filled 0)) := by rw [hphase]; rfl
  obtain ⟨i, hi, hs⟩ := bread_step (b := 100) (inv_of_reach hr) hf hp (Or.inr (by rw [hlog]; decide))
  have hb : ((c.sys.got 0 rootDev 100 i).buf i).blockno = 100 := by simp [Sys.got]
  have hh : holdingsleep (c.sys.got 0 rootDev 100 i) 0 i = true := by simp [holdingsleep, Sys.got]
  refine ⟨_, i, .step (hr.mono fun _ _ h => h.1) (show OpBound c (.bread 0 100) from trivial) hs, ?_, ?_⟩
  · intro bs hbs
    rw [hp] at hbs
    cases hbs
    rw [hb]
    decide
  · have hw : wp (logWrite 0 i) (fun _ _ => False) (fun e _ => e = .panic .tooBig)
        (c.sys.got 0 rootDev 100 i) := by
      have hfull : (c.sys.got 0 rootDev 100 i).log.lh.length ≥ logBlocks := by
        show c.sys.log.lh.length ≥ _
        rw [hlog]
        decide
      simp only [logWrite, wp_bind, wp_get, if_pos hfull]
      rfl
    obtain ⟨e, t, ht, rfl⟩ := wp_stops hw
    simp only [step, hp, hh, if_true, Conc.exec, ht]

/-! ## Operations commit as a whole -/

/-- When `commit` runs and the log's pins are the only references to buffers, it finds its buffers
exactly when fewer than `NBUF` blocks are logged. -/
theorem commit_finds_buffers_iff (h : Reach step ClientOk (boot d start n) c)
    (hp : c.phase[p]? = some (.commit .start)) (ho : OnlyPins c.sys) :
    (∀ t, commit p c.sys ≠ .error (.panic .bget) t) ↔ c.sys.log.lh.length < nbuf := by
  obtain ⟨⟨hi, _⟩, hout⟩ := clientOk_of_reach h
  have hav := hi.avail_of_onlyPins hp ho
  constructor
  · intro hne
    by_contra hfull
    obtain ⟨e, t, ht, rfl⟩ := wp_stops (commit_panics (p := p) hav hi.dev hi.nodup hout (by omega))
    exact hne t ht
  · intro hlt t ht
    obtain ⟨_, u, hu, _⟩ := wp_returns (commit_returns (p := p) hav hi.dev hi.nodup hout hlt)
    rw [ht] at hu
    cases hu

theorem commit_finds_buffers_iff_full :
    ∃ c, Reach step ClientOk (boot (fun _ _ => 0) 2 3) c ∧ c.phase[2]? = some (.commit .start) ∧
      OnlyPins c.sys ∧ ((∀ t, commit 2 c.sys ≠ .error (.panic .bget) t) ↔ c.sys.log.lh.length < nbuf) := by
  obtain ⟨c, hr, hp, ho, _⟩ := exists_full_commit fun _ _ => 0
  exact ⟨c, hr, hp, ho, commit_finds_buffers_iff hr hp ho⟩

/-- Three operations log ten blocks each; the commit of the thirty blocks finds no buffer. -/
theorem commit_without_buffers :
    ∃ c t, Reach step ClientOk (boot (fun _ _ => 0) 2 3) c ∧ c.phase[2]? = some (.commit .start) ∧
      OnlyPins c.sys ∧ commit 2 c.sys = .error (.panic .bget) t := by
  obtain ⟨c, hr, hp, ho, hlh⟩ := exists_full_commit fun _ _ => 0
  obtain ⟨⟨hi, _⟩, hout⟩ := clientOk_of_reach hr
  have hfull : nbuf ≤ c.sys.log.lh.length := by rw [hlh]; decide
  obtain ⟨e, t, ht, rfl⟩ := wp_stops
    (commit_panics (p := 2) (hi.avail_of_onlyPins hp ho) hi.dev hi.nodup hout hfull)
  exact ⟨c, t, hr, hp, ho, ht⟩

/-! ## The cache and the disk -/

/-- A process logs 9 for block 100 and gives the buffer back. -/
def nineGiven : List Act := [.beginOp 0, .bread 0 100, .store 0 0 fun _ => 9, .logWrite 0 0, .brelse 0 0]

end Xv6.Log
