import Mathlib.Data.List.Nodup
import Mathlib.Data.List.Perm.Subperm
import Xv6.Log.Crash
import Xv6.Log.Lemmas.Body

/-!
# The disk while a transaction commits, and while it is recovered

Every write of `commit` up to the first header write leaves the disk as it was `Before` the
transaction; the header write makes it `Logged`, the installation keeps it so, and the second
header write makes it `Done`. Recovery keeps each of the three kinds of disk and ends with an empty
header.
-/

namespace Xv6.Log

open Lib Function

variable {T : Txn} {s t u : Sys} {p dev b c m start : Nat} {P : List Nat} {ext : Nat → Nat} {d : Block}
  {R : Nat → (Nat → Block) → Prop}

/-! ## Single writes -/

theorem Txn.Rest.log {e : Nat → Block} (h : T.Rest e) (hc : InLog T.start c) :
    T.Rest (update e c d) := by
  intro b hb hn
  have hbc : b ≠ c := by rintro rfl; exact hb hc
  simpa [hbc] using h b hb hn

theorem Txn.Rest.home {e : Nat → Block} (h : T.Rest e) (hc : c ∈ T.blocks) :
    T.Rest (update e c d) := by
  intro b hb hn
  have hbc : b ≠ c := by rintro rfl; exact hn hc
  simpa [hbc] using h b hb hn

theorem Txn.ne_log (hb : b ∈ T.blocks) (hc : InLog T.start c) : b ≠ c := by
  rintro rfl
  exact T.out b hb hc

theorem Txn.inLog_start (T : Txn) : InLog T.start T.start := by
  simp [InLog]

theorem Txn.inLog_succ (hm : m < T.blocks.length) : InLog T.start (T.start + m + 1) := by
  have := T.length_le
  simp only [InLog]
  omega

theorem Txn.Before.log {e : Nat → Block} (h : T.Before e) (hc : InLog T.start c) (hne : c ≠ T.start) :
    T.Before (update e c d) := by
  obtain ⟨h₁, h₂, h₃⟩ := h
  refine ⟨by simpa [hne.symm] using h₁, fun b hb => ?_, h₃.log hc⟩
  simpa [T.ne_log hb hc] using h₂ b hb

theorem Txn.Done.head {e : Nat → Block} (h : T.Done e) (hd : load 4 d 0 = 0) :
    T.Done (update e T.start d) := by
  obtain ⟨_, h₂, h₃⟩ := h
  refine ⟨by simpa using hd, fun b hb => ?_, h₃.log T.inLog_start⟩
  simpa [T.ne_log hb T.inLog_start] using h₂ b hb

theorem Txn.Before.head {e : Nat → Block} (h : T.Before e) (hd : load 4 d 0 = 0) :
    T.Before (update e T.start d) := by
  obtain ⟨_, h₂, h₃⟩ := h
  refine ⟨by simpa using hd, fun b hb => ?_, h₃.log T.inLog_start⟩
  simpa [T.ne_log hb T.inLog_start] using h₂ b hb

theorem Txn.Logged.home {e : Nat → Block} (h : T.Logged e) (hc : c ∈ T.blocks) :
    T.Logged (update e c d) := by
  obtain ⟨h₁, h₂, h₃⟩ := h
  refine ⟨?_, fun k hk => ?_, h₃.home hc⟩
  · simpa [(T.ne_log hc T.inLog_start).symm] using h₁
  · simpa [(T.ne_log hc (T.inLog_succ hk)).symm] using h₂ k hk

/-- The header write that commits. -/
theorem Txn.Before.commit {e : Nat → Block} (h : T.Before e)
    (hcopied : ∀ k < T.blocks.length, e (T.start + k + 1) = T.new (T.blocks.getD k 0)) (blk : Block) :
    T.Logged (update e T.start (putHead T.blocks blk)) := by
  refine ⟨?_, fun k hk => ?_, h.2.2.log T.inLog_start⟩
  · have hn : T.blocks.length < 2 ^ 31 := by
      have := T.length_le
      have : logBlocks = 30 := rfl
      omega
    simpa using getHead_putHead hn T.lt blk
  · have : T.start + k + 1 ≠ T.start := by omega
    simpa [this] using hcopied k hk

/-- The header write that ends the installation. -/
theorem Txn.Logged.done {e : Nat → Block} (h : T.Logged e)
    (hinst : ∀ k < T.blocks.length, e (T.blocks.getD k 0) = T.new (T.blocks.getD k 0)) (blk : Block) :
    T.Done (update e T.start (putHead [] blk)) := by
  refine ⟨by simp [load_putHead_zero], fun b hb => ?_, h.2.2.log T.inLog_start⟩
  obtain ⟨k, hk, rfl⟩ := List.getElem_of_mem hb
  have := hinst k hk
  simp only [List.getD_eq_getElem?_getD, List.getElem?_eq_getElem hk, Option.getD_some] at this
  simpa [T.ne_log hb T.inLog_start] using this

/-! ## Runs of writes -/

/-- From `s` to `t` the disk was written `m` times, and `R` holds along the writes. -/
def Since (R : Nat → (Nat → Block) → Prop) (s : Sys) (m : Nat) (t : Sys) : Prop :=
  ∃ ws, ws.length = m ∧ t.writes = s.writes ++ ws ∧ t.disk = applyWrites s.disk ws ∧ Along R s.disk ws

/-- `R` holds along the writes made from `s` when the code stopped in `t`. -/
def Stopped (R : Nat → (Nat → Block) → Prop) (s t : Sys) : Prop :=
  ∃ ws, t.writes = s.writes ++ ws ∧ Along R s.disk ws

theorem Since.zero (h : R 0 s.disk) (hw : t.writes = s.writes) (hd : t.disk = s.disk) :
    Since R s 0 t :=
  ⟨[], rfl, by simp [hw], by simp [hd], .nil h⟩

theorem Since.wrote (h : Since R s m t) (hw : Wrote dev P c d t u)
    (hR : R (m + 1) (update t.disk c d)) : Since R s (m + 1) u := by
  obtain ⟨ws, rfl, h₁, h₂, h₃⟩ := h
  refine ⟨ws ++ [(c, d)], by simp, ?_, ?_, h₃.snoc (h₂ ▸ hR)⟩
  · rw [hw.writes, h₁, List.append_assoc]
  · rw [hw.disk, h₂, applyWrites_snoc]

theorem Since.stopped (h : Since R s m t) (hw : u.writes = t.writes) : Stopped R s u := by
  obtain ⟨ws, _, h₁, _, h₃⟩ := h
  exact ⟨ws, hw.trans h₁, h₃⟩

/-- What holds along the writes of `k` holds of every disk a crash of `k` leaves. -/
theorem crashDisk_of_wp {k : K Unit} (h : wp k (fun _ t => Stopped R s t) (fun _ t => Stopped R s t) s) :
    Along R s.disk (writesOf k s) := by
  unfold wp at h
  unfold writesOf
  cases hk : k s with
  | ok a t =>
      rw [hk] at h
      obtain ⟨ws, h₁, h₂⟩ := h
      simpa [h₁] using h₂
  | error e t =>
      rw [hk] at h
      obtain ⟨ws, h₁, h₂⟩ := h
      simpa [h₁] using h₂

/-! ## `commit` -/

/-- What holds along the writes of `commit`: the first header write is number `blocks.length + 1`. -/
def Txn.Along (T : Txn) (k : Nat) (e : Nat → Block) : Prop :=
  if k ≤ T.blocks.length then T.Before e else T.Logged e ∨ T.Done e

/-- Before iteration `m` of `write_log`. -/
structure Copying (T : Txn) (dev : Nat) (ext : Nat → Nat) (s : Sys) (m : Nat) (t : Sys) : Prop where
  pin : PinOk dev T.blocks ext t
  log : t.log = s.log
  since : Since T.Along s m t
  before : T.Before t.disk
  home : ∀ b ∈ T.blocks, t.view dev b = T.new b
  copied : ∀ k < m, t.disk (T.start + k + 1) = T.new (T.blocks.getD k 0) ∧
    t.view dev (T.start + k + 1) = t.disk (T.start + k + 1)

/-- Before iteration `m` of `install_trans`. -/
structure Installing (T : Txn) (dev : Nat) (ext : Nat → Nat) (s : Sys) (m : Nat) (t : Sys) : Prop where
  pin : PinOk dev (T.blocks.drop m) ext t
  log : t.log = s.log
  since : Since T.Along s (T.blocks.length + 1 + m) t
  logged : T.Logged t.disk
  clean : ∀ k < T.blocks.length, t.view dev (T.start + k + 1) = t.disk (T.start + k + 1)
  installed : ∀ k < m, t.disk (T.blocks.getD k 0) = T.new (T.blocks.getD k 0)

variable (hstart : s.log.start = T.start) (hlh : s.log.lh = T.blocks) (hdev : s.log.dev = dev)

include hstart hlh hdev in
theorem writeLog_spec (h : Copying T dev ext s 0 s) :
    wp (writeLog p) (fun _ t => Copying T dev ext s T.blocks.length t) (fun _ t => Stopped T.Along s t)
      s := by
  simp only [writeLog, wp_bind, wp_get, hlh]
  have := wp_forN (E := fun _ t => Stopped T.Along s t) (f := writeLogBody p)
    (Copying T dev ext s) T.blocks.length 0 ?_ h
  · simpa using this
  · intro m t _ hm ht
    rw [Nat.zero_add] at hm
    have hb := getD_mem hm
    have hc := T.inLog_succ hm
    refine wp_mono (writeLogBody_spec ht.pin (by rw [ht.log, hdev]) hb (by rw [ht.log, hlh])
      (by rw [ht.log, hstart])) ?_ ?_
    · rintro _ u ⟨hpin, _, hw⟩
      have hbefore := ht.before.log (d := t.view dev (T.blocks.getD m 0)) hc (by omega)
      refine ⟨hpin, hw.log.trans ht.log, ht.since.wrote hw ?_, hw.disk ▸ hbefore, ?_, ?_⟩
      · rw [Txn.Along, if_pos (by omega)]
        exact hbefore
      · intro b hb'
        rw [hw.stable b (T.ne_log hb' hc) (Or.inl hb'), ht.home b hb']
      · intro k hk
        by_cases hkm : k = m
        · subst hkm
          rw [hw.view, hw.disk, ht.home _ hb]
          simp
        · have hne : T.start + k + 1 ≠ T.start + m + 1 := by omega
          obtain ⟨h₁, h₂⟩ := ht.copied k (by omega)
          rw [hw.stable _ hne (Or.inr h₂), hw.disk, update_of_ne hne]
          exact ⟨h₁, h₂⟩
    · rintro e u ⟨hu, _⟩
      exact ht.since.stopped hu

include hstart hlh hdev in
theorem writeHead_commit_spec (h : Copying T dev ext s T.blocks.length t) :
    wp (writeHead p) (fun _ u => Installing T dev ext s 0 u) (fun _ u => Stopped T.Along s u) t := by
  refine wp_mono (writeHead_spec h.pin (by rw [h.log, hdev]) (by rw [h.log, hstart])) ?_ ?_
  · rintro _ u ⟨hpin, _, hw⟩
    rw [h.log, hlh] at hw
    have hlogged := h.before.commit (fun k hk => (h.copied k hk).1) (t.view dev T.start)
    refine ⟨hpin, hw.log.trans h.log, h.since.wrote hw ?_, hw.disk ▸ hlogged, fun k hk => ?_, ?_⟩
    · rw [Txn.Along, if_neg (by omega)]
      exact Or.inl hlogged
    · have hne : T.start + k + 1 ≠ T.start := by omega
      rw [hw.stable _ hne (Or.inr (h.copied k hk).2), (h.copied k hk).2, hw.disk]
      simp [hne]
    · intro k hk
      omega
  · rintro e u ⟨hu, _⟩
    exact h.since.stopped hu

include hstart hlh hdev in
theorem installTrans_spec (h : Installing T dev ext s 0 t) :
    wp (installTrans p false) (fun _ u => Installing T dev ext s T.blocks.length u)
      (fun _ u => Stopped T.Along s u) t := by
  have hlh' : t.log.lh = T.blocks := by rw [h.log, hlh]
  simp only [installTrans, wp_bind, wp_get, hlh']
  have := wp_forN (E := fun _ t => Stopped T.Along s t) (f := installBody p false)
    (Installing T dev ext s) T.blocks.length 0 ?_ h
  · simpa using this
  · intro m t _ hm ht
    rw [Nat.zero_add] at hm
    have hb := getD_mem hm
    have hdrop := drop_eq_getD_cons hm
    have hnd := getD_notMem_drop T.nodup hm
    refine wp_mono (installBody_spec (hdrop ▸ ht.pin) (by rw [ht.log, hdev]) hnd
      (by rw [ht.log, hlh]) (by rw [ht.log, hstart])) ?_ ?_
    · rintro _ u ⟨hpin, _, hw⟩
      have hlogged := ht.logged.home (d := t.view dev (T.start + m + 1)) hb
      refine ⟨hpin, hw.log.trans ht.log, ht.since.wrote hw ?_, hw.disk ▸ hlogged, fun k hk => ?_,
        fun k hk => ?_⟩
      · rw [Txn.Along, if_neg (by omega)]
        exact Or.inl hlogged
      · have hne := (T.ne_log hb (T.inLog_succ hk)).symm
        rw [hw.stable _ hne (Or.inr (ht.clean k hk)), ht.clean k hk, hw.disk, update_of_ne hne]
      · rw [hw.disk]
        by_cases hkm : k = m
        · subst hkm
          rw [update_self, ht.clean k hm, ht.logged.2.1 k hm]
        · have hne : T.blocks.getD k 0 ≠ T.blocks.getD m 0 := by
            have hk' : k < T.blocks.length := by omega
            simpa [List.getD_eq_getElem?_getD, hk', hm, T.nodup.getElem_inj_iff] using hkm
          rw [update_of_ne hne]
          exact ht.installed k (by omega)
    · rintro e u ⟨hu, _⟩
      exact ht.since.stopped hu

include hstart hdev in
theorem writeHead_erase_spec (h : Installing T dev ext s T.blocks.length t) :
    wp (writeHead p) (fun _ u => Stopped T.Along s u) (fun _ u => Stopped T.Along s u) (t.setLh []) := by
  have hpin := h.pin.setLh []
  refine wp_mono (writeHead_spec hpin (c := T.start) ?_ ?_) ?_ ?_
  · simp [Sys.setLh, h.log, hdev]
  · simp [Sys.setLh, h.log, hstart]
  · rintro _ u ⟨_, _, hw⟩
    have hsince : Since T.Along s (T.blocks.length + 1 + T.blocks.length) (t.setLh []) := h.since
    refine (hsince.wrote hw ?_).stopped rfl
    rw [Txn.Along, if_neg (by omega)]
    exact Or.inr (h.logged.done h.installed _)
  · rintro e u ⟨hu, _⟩
    exact h.since.stopped hu

include hstart hlh hdev in
/-- Every disk that a crash of `commit` leaves is `Before` the transaction until the first header
write, and `Logged` or `Done` from then on. -/
theorem commit_along (h : Copying T dev ext s 0 s) : Lib.Along T.Along s.disk (writesOf (commit p) s) := by
  apply crashDisk_of_wp
  simp only [commit, wp_bind, wp_get]
  apply wp_ite
  · intro _
    simp only [wp_bind]
    refine wp_post (writeLog_spec hstart hlh hdev h) fun _ t ht => ?_
    simp only [recordCommit, wp_modify]
    have ht' : Copying T dev ext s T.blocks.length (t.record (.commit t.log.lh)) :=
      ⟨ht.pin.congr rfl rfl, ht.log, ht.since, ht.before, ht.home, ht.copied⟩
    refine wp_post (writeHead_commit_spec hstart hlh hdev ht') fun _ u hu => ?_
    refine wp_post (installTrans_spec hstart hlh hdev hu) fun _ v hv => ?_
    exact writeHead_erase_spec hstart hdev hv
  · intro _
    exact h.since.stopped rfl

/-! ## `recover_from_log` -/

/-- Nothing is referenced and the cache agrees with the disk. -/
structure Quiet (dev : Nat) (t : Sys) : Prop where
  pin : PinOk dev [] (fun _ => 0) t
  free : ∀ i, (t.buf i).lock = none
  two : 2 ≤ t.lru.length
  clean : ∀ a, t.view dev a = t.disk a

namespace Quiet

theorem reboot (e : Nat → Block) (start : Nat) : Quiet rootDev (reboot e start) := by
  have hno : ∀ b i, ¬ (Log.reboot e start).Has rootDev b i := by
    rintro b i ⟨_, hd, _⟩
    simp [Log.reboot, binit, rootDev] at hd
  refine ⟨⟨?_, fun b i j hi => absurd hi (hno b i), ?_, by simp⟩, fun _ => rfl, ?_, ?_⟩
  · simp [Log.reboot, binit, List.nodup_range]
  · intro i _
    simp [Log.reboot, binit, Buf.holders, Buf.pins]
  · simp [Log.reboot, binit, nbuf, maxOpBlocks]
  · intro a
    exact view_none fun i => hno a i

theorem refcnt (h : Quiet dev t) (i : Nat) (hi : i ∈ t.lru) : (t.buf i).refcnt = 0 := by
  have := h.pin.refs i hi
  simpa [Buf.holders, Buf.pins, h.free i] using this

theorem not_stuck {e : Stop} (h : Quiet dev t) : ¬ Stuck t dev c e := by
  rintro (⟨_, i, _, hl⟩ | ⟨_, hr, _⟩)
  · exact hl (h.free i)
  · obtain ⟨i, hi⟩ := List.exists_mem_of_length_pos (l := t.lru) (by have := h.two; omega)
    exact hr i hi (h.refcnt i hi)

theorem not_stuck₂ {e : Stop} (h : Quiet dev t) (hcb : c ≠ b) : ¬ Stuck₂ t dev c b e := by
  rintro (hs | ⟨_, hs | ⟨i, _, hl⟩⟩ | ⟨x, _, _, _, hr, _⟩)
  · exact h.not_stuck hs
  · exact hcb hs
  · exact hl (h.free i)
  · -- two buffers are enough
    obtain ⟨i, hi, hix⟩ : ∃ i ∈ t.lru, i ≠ x := by
      by_contra hall
      have hsub : t.lru ⊆ [x] := fun i hi => by
        by_contra hix
        exact hall ⟨i, hi, by simpa using hix⟩
      have hlen := (List.subperm_of_subset h.pin.nodup hsub).length_le
      have := h.two
      rw [List.length_singleton] at hlen
      omega
    exact hr i hi hix (h.refcnt i hi)

theorem wrote (h : Quiet dev t) (hpin : PinOk dev [] (fun _ => 0) u) (hw : Wrote dev [] c d t u) :
    Quiet dev u := by
  refine ⟨hpin, fun i => (hw.lock i).trans (h.free i), ?_, fun a => ?_⟩
  · rw [hw.lru.length_eq]
    exact h.two
  · rw [hw.disk]
    by_cases ha : a = c
    · subst ha
      simp [hw.view]
    · rw [hw.stable a ha (Or.inr (h.clean a)), h.clean a, update_of_ne ha]

theorem setLh (h : Quiet dev t) (lh : List Nat) : Quiet dev (t.setLh lh) :=
  ⟨h.pin.setLh lh, h.free, h.two, h.clean⟩

theorem readHead_spec (h : Quiet dev s) (hdev : s.log.dev = dev) (hc : s.log.start = c) :
    wp (readHead p)
      (fun _ t => Quiet dev t ∧ t.log = { s.log with lh := getHead (s.disk c) } ∧ t.disk = s.disk ∧
        t.writes = s.writes)
      (fun _ _ => False) s := by
  refine wp_mono (Log.readHead_spec h.pin hdev hc h.clean) ?_ ?_
  · rintro _ t ⟨hpin, hlog, hlru, hlock, hdisk, hwrites, hclean⟩
    refine ⟨⟨hpin, fun i => (hlock i).trans (h.free i), ?_, hclean⟩, hlog, hdisk, hwrites⟩
    rw [hlru.length_eq]
    exact h.two
  · rintro e t ⟨_, hst⟩
    exact h.not_stuck hst

theorem writeHead_spec (h : Quiet dev s) (hdev : s.log.dev = dev) (hc : s.log.start = c) :
    wp (writeHead p)
      (fun _ t => ∃ blk, Wrote dev [] c (putHead s.log.lh blk) s t)
      (fun _ _ => False) s := by
  refine wp_mono (Log.writeHead_spec h.pin hdev hc) ?_ ?_
  · rintro _ t ⟨_, _, hw⟩
    exact ⟨_, hw⟩
  · rintro e t ⟨_, hst⟩
    exact h.not_stuck hst

end Quiet

/-- Before iteration `m` of the installation in recovery. -/
structure Recovering (T : Txn) (s : Sys) (m : Nat) (t : Sys) : Prop where
  quiet : Quiet rootDev t
  dev : t.log.dev = rootDev
  start : t.log.start = T.start
  lh : t.log.lh = T.blocks
  since : Since (fun _ e => T.Logged e ∨ T.Done e) s m t
  logged : T.Logged t.disk
  installed : ∀ k < m, t.disk (T.blocks.getD k 0) = T.new (T.blocks.getD k 0)

theorem recoverInstall_spec (h : Recovering T s 0 t) :
    wp (installTrans p true) (fun _ u => Recovering T s T.blocks.length u) (fun _ _ => False) t := by
  simp only [installTrans, wp_bind, wp_get, h.lh]
  have := wp_forN (E := fun _ _ => False) (f := installBody p true)
    (Recovering T s) T.blocks.length 0 ?_ h
  · simpa using this
  · intro m t _ hm ht
    rw [Nat.zero_add] at hm
    have hb := getD_mem hm
    have hne := T.ne_log hb (T.inLog_succ hm)
    refine wp_mono (installBody_recovering_spec ht.quiet.pin ht.dev (by rw [ht.lh]) (by rw [ht.start])) ?_ ?_
    · rintro _ u ⟨hpin, _, hw⟩
      have hlogged := ht.logged.home (d := t.view rootDev (T.start + m + 1)) hb
      refine ⟨ht.quiet.wrote hpin hw, by rw [hw.log, ht.dev], by rw [hw.log, ht.start],
        by rw [hw.log, ht.lh], ht.since.wrote hw (Or.inl hlogged), hw.disk ▸ hlogged, fun k hk => ?_⟩
      rw [hw.disk]
      by_cases hkm : T.blocks.getD k 0 = T.blocks.getD m 0
      · rw [hkm, update_self, ht.quiet.clean, ht.logged.2.1 m hm]
      · rw [update_of_ne hkm]
        refine ht.installed k (Nat.lt_of_le_of_ne (by omega) ?_)
        rintro rfl
        exact hkm rfl
    · rintro e u ⟨_, hst⟩
      exact ht.quiet.not_stuck₂ hne.symm hst

/-- A disk with an empty header: recovery writes the header once more. -/
theorem recover_of_empty {Q : (Nat → Block) → Prop} {e : Nat → Block}
    (hQ : ∀ e blk, Q e → load 4 blk 0 = 0 → Q (update e start blk))
    (h₀ : load 4 (e start) 0 = 0) (h : Q e) :
    wp (recoverFromLog p)
      (fun _ t => Stopped (fun _ => Q) (reboot e start) t ∧ Q t.disk ∧ load 4 (t.disk start) 0 = 0)
      (fun _ _ => False) (reboot e start) := by
  have hhead : getHead (e start) = [] := by simp [getHead, h₀]
  have hread := (Quiet.reboot e start).readHead_spec (p := p) (c := start) rfl rfl
  simp only [recoverFromLog, wp_bind]
  refine wp_post hread ?_
  rintro _ t ⟨hq, hlog, hdisk, hwrites⟩
  have hlh : t.log.lh = [] := by rw [hlog]; exact hhead
  simp only [installTrans, wp_bind, wp_get, hlh, List.length_nil, forN, wp_pure, clearHead, wp_modify]
  have hsince : Since (fun _ => Q) (reboot e start) 0 (t.setLh []) := .zero h hwrites hdisk
  refine wp_post ((hq.setLh []).writeHead_spec (c := start) ?_ ?_) ?_
  · simp [Sys.setLh, hlog, reboot, binit]
  · simp [Sys.setLh, hlog, reboot, binit]
  · rintro _ u ⟨blk, hw⟩
    have hload : load 4 (putHead [] blk) 0 = 0 := by simp [load_putHead_zero]
    have hQ' : Q (update t.disk start (putHead [] blk)) :=
      hQ _ _ (by rw [hdisk]; exact h) hload
    refine ⟨(hsince.wrote hw hQ').stopped rfl, ?_, ?_⟩
    · rw [hw.disk]
      exact hQ'
    · rw [hw.disk, update_self]
      exact hload

/-- A disk with a committed transaction: recovery installs it. -/
theorem recover_of_logged {e : Nat → Block} (h : T.Logged e) :
    wp (recoverFromLog p)
      (fun _ t => Stopped (fun _ e => T.Logged e ∨ T.Done e) (reboot e T.start) t ∧ T.Done t.disk)
      (fun _ _ => False) (reboot e T.start) := by
  have hread := (Quiet.reboot e T.start).readHead_spec (p := p) (c := T.start) rfl rfl
  simp only [recoverFromLog, wp_bind]
  refine wp_post hread ?_
  rintro _ t ⟨hq, hlog, hdisk, hwrites⟩
  have ht : Recovering T (reboot e T.start) 0 t :=
    ⟨hq, by rw [hlog]; rfl, by rw [hlog]; rfl, by rw [hlog]; exact h.1,
      .zero (Or.inl h) hwrites hdisk, by rw [hdisk]; exact h, by omega⟩
  refine wp_post (recoverInstall_spec ht) fun _ u hu => ?_
  simp only [clearHead, wp_modify]
  refine wp_post ((hu.quiet.setLh []).writeHead_spec (c := T.start) hu.dev hu.start) ?_
  rintro _ v ⟨blk, hw⟩
  have hdone := hu.logged.done hu.installed blk
  have hsince : Since _ (reboot e T.start) T.blocks.length (u.setLh []) := hu.since
  exact ⟨(hsince.wrote hw (Or.inr hdone)).stopped rfl, by rw [hw.disk]; exact hdone⟩

/-! ## Any number of crashes -/

/-- A kind of disk that every crash of recovery keeps is kept by any number of them. -/
theorem crashedRecoveries_keep {Q : (Nat → Block) → Prop}
    (hstep : ∀ e, Q e → wp (recoverFromLog p) (fun _ t => Stopped (fun _ => Q) (reboot e start) t)
      (fun _ _ => False) (reboot e start))
    (ks : List Nat) {e : Nat → Block} (h : Q e) : Q (crashedRecoveries p start e ks) := by
  unfold crashedRecoveries
  induction ks generalizing e with
  | nil => exact h
  | cons k ks ih =>
      rw [List.foldl_cons]
      apply ih
      have halong := crashDisk_of_wp (wp_mono (hstep e h) (fun _ _ h => h) (fun _ _ h => h.elim))
      unfold crashDisk
      by_cases hk : k ≤ (writesOf (recoverFromLog p) (reboot e start)).length
      · exact halong k hk
      · have := halong _ (Nat.le_refl _)
        rw [List.take_length] at this
        rw [List.take_of_length_le (by omega)]
        exact this

theorem recover_before (ks : List Nat) {e : Nat → Block} (h : T.Before e) :
    ∃ t, recoverFromLog p (reboot (crashedRecoveries p T.start e ks) T.start) = .ok () t ∧
      T.Before t.disk := by
  have hstep : ∀ e, T.Before e → _ := fun e he =>
    recover_of_empty (p := p) (fun e blk he hb => he.head hb) he.1 he
  have hks := crashedRecoveries_keep (fun e he => wp_post (hstep e he) fun _ _ h => h.1) ks h
  obtain ⟨_, t, ht, _, hQ, _⟩ := wp_returns (hstep _ hks)
  exact ⟨t, ht, hQ⟩

theorem recover_committed (ks : List Nat) {e : Nat → Block} (h : T.Logged e ∨ T.Done e) :
    ∃ t, recoverFromLog p (reboot (crashedRecoveries p T.start e ks) T.start) = .ok () t ∧
      T.Done t.disk := by
  have hdone : ∀ e, T.Done e → _ := fun e he =>
    recover_of_empty (p := p) (fun e blk he hb => he.head hb) he.1 he
  have hstep : ∀ e, T.Logged e ∨ T.Done e → wp (recoverFromLog p)
      (fun _ t => Stopped (fun _ e => T.Logged e ∨ T.Done e) (reboot e T.start) t ∧ T.Done t.disk)
      (fun _ _ => False) (reboot e T.start) := by
    intro e he
    rcases he with he | he
    · exact recover_of_logged he
    · refine wp_post (hdone e he) ?_
      rintro _ t ⟨⟨ws, hws, halong⟩, hQ, _⟩
      exact ⟨⟨ws, hws, fun k hk => Or.inr (halong k hk)⟩, hQ⟩
  have hks := crashedRecoveries_keep (fun e he => wp_post (hstep e he) fun _ _ h => h.1) ks h
  obtain ⟨_, t, ht, _, hQ⟩ := wp_returns (hstep _ hks)
  exact ⟨t, ht, hQ⟩

end Xv6.Log
