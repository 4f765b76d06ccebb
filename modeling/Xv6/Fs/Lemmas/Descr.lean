import Xv6.Fs.Lemmas.Files

/-!
# Descriptors, and the system calls that take and drop references
-/

namespace Xv6.Fs

open Lib Function

variable {α : Type} {P P' : Nat → Option Proc} {X X' H H' : List Nat} {s t : Sys} {f f' e i p fd : Nat} {w : Bool} {pr : Proc}
  {q q' : Option Proc}

/-- `fileclose` calls `iput` on the inode of the file when its last reference is dropped, and not
before. -/
theorem fileclose_refs : wp (fileclose f) (fun _ t => ∀ e, t.fs.ref e =
    s.fs.ref e - if (s.file f).ref = 1 ∧ (s.file f).Holds e then 1 else 0) (fun _ _ => True) s := by
  refine wp_ite (fun _ => trivial) fun hpos => wp_ite (fun hmore => fun e => ?_) fun hone => ?_
  · rw [if_neg fun hh => by omega]
    rfl
  · have href : (s.file f).ref = 1 := by omega
    have hdrop : (s.file f).type = .inode ∨ (s.file f).type = .device →
        wp (do
          lift beginOp
          lift (iput (s.file f).ip)
          lift endOp) (fun _ t => ∀ e, t.fs.ref e = s.fs.ref e - if (s.file f).ref = 1 ∧ (s.file f).Holds e then 1 else 0)
          (fun _ _ => True) (s.setFile f { s.file f with ref := 0, type := .none }) := fun htype => by
      rw [wp_bind, wp_lift]
      refine wp_post (beginOp_still s.fs.ref s.fs rfl) fun _ fs₁ h₁ => ?_
      rw [wp_bind, wp_lift]
      refine wp_post (iput_refs fs₁ h₁) fun _ fs₂ h₂ => ?_
      rw [wp_lift]
      refine wp_post (endOp_still fs₂.ref fs₂ rfl) fun _ fs₃ h₃ e => ?_
      rw [h₃, h₂]
      obtain rfl | hne := eq_or_ne e (s.file f).ip
      · rw [update_self, if_pos ⟨href, by omega, htype, rfl⟩]
      · rw [update_of_ne hne, if_neg fun hh => hne hh.2.ip.symm]
        rfl
    have hno : (s.file f).type ≠ .inode → (s.file f).type ≠ .device → ∀ e, s.fs.ref e =
        s.fs.ref e - if (s.file f).ref = 1 ∧ (s.file f).Holds e then 1 else 0 := fun h₁ h₂ e => by
      rw [if_neg fun hh => hh.2.type.elim h₁ h₂]
      rfl
    rw [wp_bind, wp_set]
    cases htype : (s.file f).type with
    | none => exact hno (by rw [htype]; decide) (by rw [htype]; decide)
    | pipe =>
        refine wp_post pipeclose_spec ?_
        rintro _ t rfl
        exact hno (by rw [htype]; decide) (by rw [htype]; decide)
    | inode => exact hdrop (Or.inl htype)
    | device => exact hdrop (Or.inr htype)

theorem fileclose_head (h : Table P (f :: X) H s) :
    wp (fileclose f) (fun _ t => t.proc = s.proc ∧ Table P X H t) (fun _ _ => True) s := by
  have hspec := fileclose_spec h (List.mem_cons_self ..)
  rwa [List.erase_cons_head] at hspec

/-! ## Slots -/

theorem Table.setProcs (h : Table P X H s) (hprocs : Procs P') (hrange : ∀ f ∈ X', f < nfile)
    (hX : ∀ f, fdCount P' f + X'.count f = fdCount P f + X.count f)
    (hH : ∀ e, cwdCount P' e + H'.count e = cwdCount P e + H.count e)
    (htyped : ∀ f, f < nfile → (s.file f).type = .none → fdCount P' f = 0) : Table P' X' H' s := by
  refine ⟨⟨hprocs, hrange, fun f hf => ?_, h.free, htyped, fun e => ?_, h.ips⟩, h.pipes⟩
  · rw [hX]
    exact h.files f hf
  · have h₁ := h.inodes e
    have h₂ := hH e
    omega

theorem Table.swap (h : Table P (f :: f' :: X) H s) : Table P (f' :: f :: X) H s := by
  refine h.setProcs h.procs (fun g hg => h.range g ?_) (fun g => ?_) (fun _ => rfl) h.typed
  · exact (List.Perm.swap f f' X).mem_iff.1 hg
  · rw [(List.Perm.swap f f' X).count_eq]

theorem Table.congr (h : Table P X H s) (hfs : t.fs = s.fs) (hfile : t.file = s.file) (hpipe : t.pipe = s.pipe)
    (hn : t.npipe = s.npipe) : Table P X H t := by
  obtain ⟨fs, file, pipe, npipe, proc⟩ := t
  obtain rfl : fs = s.fs := hfs
  obtain rfl : file = s.file := hfile
  obtain rfl : pipe = s.pipe := hpipe
  obtain rfl : npipe = s.npipe := hn
  exact ⟨⟨h.procs, h.range, h.files, h.free, h.typed, h.inodes, h.ips⟩,
    ⟨h.pipes.range, h.pipes.uniq, h.pipes.read, h.pipes.write, h.pipes.freed⟩⟩

/-- The process `pr` with the descriptor `fd` set. -/
def Proc.setFd (pr : Proc) (fd : Nat) (v : Option Nat) : Proc := { pr with ofile := Function.update pr.ofile fd v }

theorem ofile_setFd_self {v : Option Nat} : (pr.setFd fd v).ofile fd = v := update_self ..

theorem ofile_setFd_ne {fd' : Nat} {v : Option Nat} (h : fd' ≠ fd) : (pr.setFd fd v).ofile fd' = pr.ofile fd' :=
  update_of_ne h ..

theorem Procs.update (h : Procs P) (hp : p < nproc) (hq : ∀ pr, q = some pr → pr.cwd < ninode ∧
    ∀ fd f, pr.ofile fd = some f → fd < nofile ∧ f < nfile) : Procs (Function.update P p q) := by
  refine ⟨fun p' pr' hp' => ?_, fun p' pr' fd f hp' hf => ?_⟩ <;> obtain rfl | hne := eq_or_ne p' p
  · rw [update_self] at hp'
    exact ⟨hp, (hq pr' hp').1⟩
  · rw [update_of_ne hne] at hp'
    exact h.proc p' pr' hp'
  · rw [update_self] at hp'
    exact (hq pr' hp').2 fd f hf
  · rw [update_of_ne hne] at hp'
    exact h.fd p' pr' fd f hp' hf

/-- What the process in slot `p` gains is no longer held by the code, and what it loses is. -/
theorem Table.setProc (h : Table P X H s) (hp : p < nproc) (hq : ∀ pr, q = some pr → pr.cwd < ninode ∧
      ∀ fd f, pr.ofile fd = some f → fd < nofile ∧ f < nfile) (hrange : ∀ f ∈ X', f < nfile)
    (hX : ∀ f, X'.count f + fdsOf q f = X.count f + fdsOf (P p) f)
    (hH : ∀ e, H'.count e + (if q.map (·.cwd) = some e then 1 else 0) = H.count e + if (P p).map (·.cwd) = some e then 1 else 0)
    (htyped : ∀ f, (s.file f).type = .none → fdsOf q f ≤ fdsOf (P p) f) : Table (Function.update P p q) X' H' s := by
  have hfd := fun f => fdCount_update (P := P) (q := q) (f := f) hp
  refine h.setProcs (h.procs.update hp hq) hrange (fun f => ?_) (fun e => ?_) fun f hf ht => ?_
  · have h₁ := hfd f
    have h₂ := hX f
    omega
  · have h₁ := cwdCount_update (P := P) (q := q) (e := e) hp
    have h₂ := hH e
    omega
  · have h₁ := hfd f
    have h₂ := h.typed f hf ht
    have h₃ := htyped f ht
    omega

theorem Table.setFd {v : Option Nat} (h : Table P X H s) (hP : P p = some pr) (hfd : fd < nofile)
    (hv : ∀ f, v = some f → f < nfile ∧ (s.file f).type ≠ .none) (hrange : ∀ f ∈ X', f < nfile)
    (hX : ∀ f, X'.count f + (if v = some f then 1 else 0) = X.count f + if pr.ofile fd = some f then 1 else 0) :
    Table (Function.update P p (some (pr.setFd fd v))) X' H s := by
  obtain ⟨hp, hcwd⟩ := h.procs.proc p pr hP
  have hfds : ∀ f, fdsOf (some (pr.setFd fd v)) f + (if pr.ofile fd = some f then 1 else 0) =
      fdsOf (P p) f + if v = some f then 1 else 0 := fun f => hP ▸ fdsOf_update pr.ofile pr.cwd v f hfd
  refine h.setProc hp (fun pr' hpr => ?_) hrange (fun f => ?_) (fun e => by rw [hP]; rfl) fun f ht => ?_
  · cases hpr
    refine ⟨hcwd, fun fd' f hf => ?_⟩
    obtain rfl | hne := eq_or_ne fd' fd
    · exact ⟨hfd, (hv f (ofile_setFd_self.symm.trans hf)).1⟩
    · exact h.procs.fd p pr fd' f hP ((ofile_setFd_ne hne).symm.trans hf)
  · have h₁ := hfds f
    have h₂ := hX f
    omega
  · have h₁ := hfds f
    rw [if_neg fun h₂ => (hv f h₂).2 ht] at h₁
    omega

/-- A free descriptor takes a reference that the code holds. -/
theorem Table.give (h : Table P (f :: X) H s) (hP : P p = some pr) (hfd : fd < nofile) (hfree : pr.ofile fd = none)
    (htype : (s.file f).type ≠ .none) : Table (Function.update P p (some (pr.setFd fd (some f)))) X H s := by
  refine h.setFd hP hfd (fun g hg => ?_) (fun g hg => h.range g (List.mem_cons_of_mem _ hg)) fun g => ?_
  · cases hg
    exact ⟨h.range f (List.mem_cons_self ..), htype⟩
  · simp [hfree, List.count_cons]

/-- The reference of a descriptor is taken from it. -/
theorem Table.take (h : Table P X H s) (hP : P p = some pr) (hf : pr.ofile fd = some f) :
    Table (Function.update P p (some (pr.setFd fd none))) (f :: X) H s := by
  obtain ⟨hfd, hlt⟩ := h.procs.fd p pr fd f hP hf
  refine h.setFd hP hfd (fun g hg => by cases hg) (fun g hg => ?_) fun g => by simp [hf, List.count_cons]
  rcases List.mem_cons.1 hg with rfl | hg
  · exact hlt
  · exact h.range g hg

theorem Table.type_ne (h : Table P X H s) (hP : P p = some pr) (hf : pr.ofile fd = some f) : (s.file f).type ≠ .none := by
  intro ht
  obtain ⟨hfd, hlt⟩ := h.procs.fd p pr fd f hP hf
  have := fdCount_pos (h.procs.proc p pr hP).1 hP hfd hf
  have := h.typed f hlt ht
  omega

theorem fdalloc_spec (hP : s.proc p = some pr) :
    wp (fdalloc p f) (fun r t => match r with
      | none => t = s
      | some fd => fd < nofile ∧ pr.ofile fd = none ∧ t = s.setProc p (some (pr.setFd fd (some f)))) (fun _ _ => True) s := by
  rw [fdalloc, wp_bind, wp_get, hP]
  show wp (match (List.range nofile).find? fun fd => (pr.ofile fd).isNone with | none => _ | some _ => _) _ _ s
  cases hfind : (List.range nofile).find? fun fd => (pr.ofile fd).isNone with
  | none => rfl
  | some fd =>
      refine ⟨List.mem_range.1 (List.mem_of_find?_eq_some hfind), ?_, rfl⟩
      simpa using List.find?_some hfind

theorem clearFd_spec (hP : s.proc p = some pr) :
    wp (clearFd p fd) (fun _ t => t = s.setProc p (some (pr.setFd fd none))) (fun _ _ => True) s := by
  rw [clearFd, wp_modify, hP]
  rfl

/-! ## `open`, `dup`, `close` -/

/-- What a system call of process `p` keeps. -/
abbrev Kept (m : M α) (s : Sys) : Prop := wp m (fun _ t => Table t.proc [] [] t) (fun _ _ => True) s

/-- Code of the file system in the middle of a call. -/
theorem Table.run {m : K α} (h : Table s.proc X H s) (hm : Still Fs.ref m) :
    wp (lift m) (fun _ t => t.proc = s.proc ∧ Table t.proc X H t) (fun _ _ => True) s := by
  refine wp_post (h.still hm) ?_
  rintro _ t ⟨h₁, _, h₂⟩
  exact ⟨h₁, h₁ ▸ h₂⟩

theorem Kept.inTrans {m : M α} (h : Table s.proc [] [] s)
    (hm : ∀ t, t.proc = s.proc → Table t.proc [] [] t → Kept m t) : Kept (inTrans m) s := by
  simp only [Kept, Xv6.Fs.inTrans, wp_bind]
  refine wp_post (h.run beginOp_still) ?_
  rintro _ t ⟨h₁, h₂⟩
  refine wp_post (hm t h₁ h₂) fun a u hu => ?_
  exact wp_post (hu.run endOp_still) fun _ v hv => hv.2

theorem Table.install {x : File} (h : Table P [f] (e :: H) s) (he : e < ninode) (htype : (s.file f).type = .none)
    (hx : x.type = .inode ∨ x.type = .device) (hip : x.ip = e) (href : x.ref = (s.file f).ref) :
    Table P [f] H (s.setFile f x) := by
  have hlt := h.range f (List.mem_singleton.2 rfl)
  have hfiles := h.files f hlt
  rw [List.count_singleton_self] at hfiles
  have hlive : 0 < x.ref := by omega
  have hold : ∀ e, ¬ (s.file f).Holds e := fun e hh => by
    rcases hh.type with ht | ht <;> exact absurd (htype.symm.trans ht) (by decide)
  refine ⟨h.toCounts.setFile hlt rfl rfl ?_ (fun _ _ => rfl) (fun hz => absurd hlive (by omega)) (fun ht => ?_) (fun e' hh => ?_)
    fun e' => ?_, h.pipes.setFile fun i w => iff_of_false (fun hh => ?_) fun hh => absurd (htype.symm.trans hh.type) (by decide)⟩
  · rw [href, List.count_singleton_self]
    exact hfiles
  · rw [ht] at hx
    rcases hx with hx | hx <;> cases hx
  · rw [← hh.ip, hip]
    exact he
  · rw [if_neg (hold e'), Nat.zero_add]
    by_cases hee : e = e'
    · rw [if_pos ⟨hlive, hx, hip.trans hee⟩, hee, List.count_cons_self, Nat.add_comm]
    · rw [if_neg fun hh => hee (hip.symm.trans hh.ip), List.count_cons_of_ne hee, Nat.zero_add]
  · rw [hh.type] at hx
    rcases hx with hx | hx <;> cases hx

theorem openFile_type {omode : Nat} : (s.openFile e f omode).type = .inode ∨ (s.openFile e f omode).type = .device := by
  simp only [Sys.openFile]
  split
  · exact Or.inr rfl
  · exact Or.inl rfl

theorem sysOpen_kept {path : List Byte} {omode : Nat} (h : Table s.proc [] [] s) (hP : s.proc p = some pr) :
    Kept (sysOpen p pr.cwd path omode) s := by
  rw [sysOpen]
  cases argstr path with
  | none => exact h
  | some path =>
      refine Kept.inTrans h fun t ht h => ?_
      rw [← ht] at hP
      have hcwd := (h.procs.proc p pr hP).2
      rw [Kept, wp_bind]
      refine wp_post (h.got (openInode_refs hcwd)) ?_
      rintro (_ | e) t₂ ⟨h₁, h₂, h₃⟩
      · show Table t₂.proc [] [] t₂
        rw [h₁]
        exact h₃
      · obtain ⟨he, h₃⟩ := h₃
        rw [wp_bind]
        refine wp_post (filealloc_spec h₃) ?_
        rintro (_ | f) t₃ h₄
        · subst h₄
          refine wp_post h₃.iunlockput ?_
          rintro _ u ⟨h₇, _, h₈⟩
          rw [h₇, h₁]
          exact h₈
        · obtain ⟨hf, _, htype, rfl, h₆⟩ := h₄
          have hP₃ : t₂.proc p = some pr := by rw [h₁, hP]
          rw [wp_bind]
          refine wp_post (fdalloc_spec (s := t₂.setFile f _) hP₃) ?_
          rintro (_ | fd) t₄ h₇
          · subst h₇
            rw [wp_bind]
            refine wp_post (fileclose_head h₆) ?_
            rintro _ t₅ ⟨h₈, h₉⟩
            refine wp_post h₉.iunlockput ?_
            rintro _ u ⟨h₁₀, _, h₁₁⟩
            rw [h₁₀, h₈]
            show Table t₂.proc [] [] u
            rw [h₁]
            exact h₁₁
          · obtain ⟨hfd, hfree, rfl⟩ := h₇
            have h₈ : Table t.proc [f] [e] ((t₂.setFile f { t₂.file f with ref := 1 }).setProc p (some (pr.setFd fd (some f)))) :=
              h₆.congr rfl rfl rfl rfl
            have htype' : (((t₂.setFile f { t₂.file f with ref := 1 }).setProc p (some (pr.setFd fd (some f)))).file f).type = .none :=
              (congrArg File.type (file_setFile_self (s := t₂))).trans htype
            rw [wp_bind, wp_modify]
            refine wp_post (Table.still (P := Function.update t.proc p (some (pr.setFd fd (some f)))) (X := []) (H := []) ?_
              openTrunc_still) ?_
            · refine Table.give (h₈.install he htype' openFile_type rfl rfl) hP hfd hfree ?_
              rw [file_setFile_self]
              rcases openFile_type with ht | ht <;> rw [ht] <;> decide
            · rintro _ u ⟨h₉, _, h₁₀⟩
              rw [h₉]
              show Table (Function.update t₂.proc p _) [] [] u
              rw [h₁]
              exact h₁₀

theorem argfd_some (h : argfd pr fd = some f) : pr.ofile fd = some f := by
  rw [argfd] at h
  split at h
  · exact h
  · cases h

theorem sysDup_kept (h : Table s.proc [] [] s) (hP : s.proc p = some pr) : Kept (sysDup p fd pr) s := by
  rw [sysDup]
  cases harg : argfd pr fd with
  | none => exact h
  | some f =>
      have hf := argfd_some harg
      have hlt := (h.procs.fd p pr fd f hP hf).2
      have htype := h.type_ne hP hf
      show wp (do let r ← fdalloc p f; _) _ _ _
      rw [wp_bind]
      refine wp_post (fdalloc_spec hP) ?_
      rintro (_ | fd') t ht
      · subst ht
        exact h
      · obtain ⟨hfd', hfree, rfl⟩ := ht
        have h' : Table s.proc [] [] (s.setProc p (some (pr.setFd fd' (some f)))) := h.congr rfl rfl rfl rfl
        refine wp_post (filedup_spec h' hlt) ?_
        rintro _ u ⟨h₁, h₂, h₃, _⟩
        rw [h₁]
        exact h₂.give hP hfd' hfree (h₃ ▸ htype)

theorem sysClose_kept (h : Table s.proc [] [] s) (hP : s.proc p = some pr) : Kept (sysClose p fd pr) s := by
  rw [sysClose]
  cases harg : argfd pr fd with
  | none => exact h
  | some f =>
      have hf := argfd_some harg
      show wp (do clearFd p fd; fileclose f) _ _ _
      rw [wp_bind]
      refine wp_post (clearFd_spec hP) ?_
      rintro _ t rfl
      have h' := (h.take hP hf).congr (t := s.setProc p (some (pr.setFd fd none))) rfl rfl rfl rfl
      refine wp_post (fileclose_head h') ?_
      rintro _ u ⟨h₁, h₂⟩
      rw [h₁]
      exact h₂

/-! ## `pipe` -/

theorem Pipes.create {f : Bool → Nat} {x : Bool → File} (h : Pipes s) (hlt : ∀ w, f w < nfile) (hne : f false ≠ f true)
    (hno : ∀ w, (s.file (f w)).type = .none) (hx : ∀ v i w, (x v).IsEnd i w ↔ i = s.npipe ∧ w = v)
    (hfile : t.file = Function.update (Function.update s.file (f false) (x false)) (f true) (x true))
    (hpipe : t.pipe = Function.update s.pipe s.npipe ⟨true, true, 0⟩) (hn : t.npipe = s.npipe + 1) : Pipes t := by
  have hnew : ∀ w, t.file (f w) = x w := fun w => by
    rw [hfile]
    cases w with
    | false => rw [update_of_ne hne, update_self]
    | true => rw [update_self]
  -- the ends are those of before, and the two new ones
  have hends : ∀ f' i w, f' < nfile → ((t.file f').IsEnd i w ↔
      ((s.file f').IsEnd i w ∧ i < s.npipe) ∨ (f' = f w ∧ i = s.npipe)) := by
    intro f' i w hf'
    by_cases hv : ∃ v, f' = f v
    · obtain ⟨v, rfl⟩ := hv
      rw [hnew, hx]
      constructor
      · rintro ⟨hi, rfl⟩
        exact Or.inr ⟨rfl, hi⟩
      · rintro (⟨hh, -⟩ | ⟨hf, hi⟩)
        · exact absurd ((hno v).symm.trans hh.type) (by decide)
        · refine ⟨hi, ?_⟩
          cases v <;> cases w <;> first | rfl | exact absurd hf hne | exact absurd hf.symm hne
    · have hv' : ∀ v, f' ≠ f v := fun v hf => hv ⟨v, hf⟩
      rw [hfile, update_of_ne (hv' true), update_of_ne (hv' false)]
      exact ⟨fun hh => Or.inl ⟨hh, h.range f' i w hf' hh⟩, fun hh => (hh.resolve_right fun h₁ => hv' w h₁.1).1⟩
  have hopen : ∀ w, ∃ f', f' < nfile ∧ (t.file f').IsEnd s.npipe w := fun w =>
    ⟨f w, hlt w, (hends _ _ _ (hlt w)).2 (Or.inr ⟨rfl, rfl⟩)⟩
  have hsame : ∀ i w, i < s.npipe → ((∃ f', f' < nfile ∧ (t.file f').IsEnd i w) ↔ ∃ f', f' < nfile ∧ (s.file f').IsEnd i w) :=
    fun i w hi => exists_congr fun f' => and_congr_right fun hf' => by
      rw [hends f' i w hf']
      exact ⟨fun hh => (hh.resolve_right fun h₁ => Nat.ne_of_lt hi h₁.2).1, fun hh => Or.inl ⟨hh, hi⟩⟩
  refine ⟨fun f' i w hf hh => ?_, fun f₁ f₂ i w h₁ h₂ hh₁ hh₂ => ?_, fun i hi => ?_, fun i hi => ?_, fun i hi => ?_⟩
  · rcases (hends f' i w hf).1 hh with hh | hh <;> omega
  · rcases (hends f₁ i w h₁).1 hh₁ with hh₁ | hh₁ <;> rcases (hends f₂ i w h₂).1 hh₂ with hh₂ | hh₂
    · exact h.uniq f₁ f₂ i w h₁ h₂ hh₁.1 hh₂.1
    · exact absurd hh₂.2 (Nat.ne_of_lt hh₁.2)
    · exact absurd hh₁.2 (Nat.ne_of_lt hh₂.2)
    · exact hh₁.1.trans hh₂.1.symm
  · obtain rfl | hne := eq_or_ne i s.npipe
    · rw [hpipe, update_self]
      exact iff_of_true rfl (hopen false)
    · rw [hpipe, update_of_ne hne, hsame i false (by omega)]
      exact h.read i (by omega)
  · obtain rfl | hne := eq_or_ne i s.npipe
    · rw [hpipe, update_self]
      exact iff_of_true rfl (hopen true)
    · rw [hpipe, update_of_ne hne, hsame i true (by omega)]
      exact h.write i (by omega)
  · obtain rfl | hne := eq_or_ne i s.npipe
    · rw [hpipe, update_self]
      rfl
    · rw [hpipe, update_of_ne hne]
      exact h.freed i (by omega)

theorem Counts.setType {x : File} (h : Counts P X H s) (hf : f ∈ X) (htype : (s.file f).type = .none) (hx : x.type = .pipe)
    (href : x.ref = (s.file f).ref) (hfile : t.file = Function.update s.file f x) (hfs : t.fs = s.fs) : Counts P X H t := by
  have hlt := h.range f hf
  have hfiles := h.files f hlt
  have hcount := List.count_pos_iff.2 hf
  have hno : ∀ e, ¬ x.Holds e := fun e hh => by
    rcases hh.type with ht | ht <;> exact absurd (hx.symm.trans ht) (by decide)
  have hno' : ∀ e, ¬ (s.file f).Holds e := fun e hh => by
    rcases hh.type with ht | ht <;> exact absurd (htype.symm.trans ht) (by decide)
  refine h.setFile hlt hfile hfs (href.trans hfiles) (fun _ _ => rfl) (fun hz => by omega)
    (fun ht => absurd (hx.symm.trans ht) (by decide)) (fun e hh => absurd hh (hno e)) fun e => ?_
  rw [if_neg (hno e), if_neg (hno' e)]

theorem pipealloc_spec {page : Bool} (h : Table P X H s) :
    wp (pipealloc page) (fun r t => t.proc = s.proc ∧ match r with
      | none => Table P X H t
      | some (f₀, f₁) => Table P (f₁ :: f₀ :: X) H t ∧ (t.file f₀).type ≠ .none ∧ (t.file f₁).type ≠ .none) (fun _ _ => True) s := by
  rw [pipealloc, wp_bind]
  refine wp_post (filealloc_spec h) ?_
  rintro (_ | f₀) t h₁
  · subst h₁
    exact ⟨rfl, h⟩
  obtain ⟨hf₀, hz₀, htype₀, rfl, h₁⟩ := h₁
  rw [wp_bind]
  refine wp_post (filealloc_spec h₁) ?_
  rintro (_ | f₁) t h₂
  · subst h₂
    rw [wp_bind]
    exact fileclose_head h₁
  obtain ⟨hf₁, hz₁, htype₁, rfl, h₂⟩ := h₂
  have hne : f₀ ≠ f₁ := by
    rintro rfl
    rw [file_setFile_self] at hz₁
    exact Nat.one_ne_zero hz₁
  refine wp_ite (fun _ => ?_) fun _ => ?_
  · simp only [wp_bind, wp_pure]
    refine wp_post (fileclose_head h₂.swap) ?_
    rintro _ u ⟨h₃, h₄⟩
    refine wp_post (fileclose_head h₄) ?_
    rintro _ v ⟨h₅, h₆⟩
    exact ⟨h₅.trans h₃, h₆⟩
  · -- the two files, before they get their type
    generalize hu : (s.setFile f₀ { s.file f₀ with ref := 1 }).setFile f₁
      { (s.setFile f₀ { s.file f₀ with ref := 1 }).file f₁ with ref := 1 } = u at h₂ ⊢
    have hproc : u.proc = s.proc := by rw [← hu]; rfl
    have hu₀ : u.file f₀ = { s.file f₀ with ref := 1 } := by rw [← hu, file_setFile_ne hne, file_setFile_self]
    have hu₁ : u.file f₁ = { (s.setFile f₀ { s.file f₀ with ref := 1 }).file f₁ with ref := 1 } := by rw [← hu, file_setFile_self]
    have ht₀ : (u.file f₀).type = .none := by rw [hu₀]; exact htype₀
    have ht₁ : (u.file f₁).type = .none := by rw [hu₁]; exact htype₁
    let x₀ : File := { u.file f₀ with type := .pipe, readable := true, writable := false, pipe := u.npipe }
    let x₁ : File := { u.file f₁ with type := .pipe, readable := false, writable := true, pipe := u.npipe }
    let u₁ : Sys := ({ u with npipe := u.npipe + 1 }.setPipe u.npipe ⟨true, true, 0⟩).setFile f₀ x₀
    have hfile₁ : u₁.file f₁ = u.file f₁ := file_setFile_ne hne.symm
    have hc₁ : Counts P (f₁ :: f₀ :: X) H u₁ :=
      h₂.toCounts.setType (x := x₀) (List.mem_cons_of_mem _ (List.mem_cons_self ..)) ht₀ rfl rfl rfl rfl
    have hc₂ : Counts P (f₁ :: f₀ :: X) H (u₁.setFile f₁ x₁) :=
      hc₁.setType (x := x₁) (List.mem_cons_self ..) (by rw [hfile₁]; exact ht₁) rfl (by rw [hfile₁]) rfl rfl
    have hpipes : Pipes (u₁.setFile f₁ x₁) := by
      refine h₂.pipes.create (f := fun w => if w then f₁ else f₀) (x := fun w => if w then x₁ else x₀) ?_ hne ?_ (fun v i w => ?_)
        rfl rfl rfl
      · rintro (_ | _) <;> assumption
      · rintro (_ | _) <;> assumption
      · have hlive : 0 < (if v then x₁ else x₀ : File).ref := by
          cases v
          · show 0 < (u.file f₀).ref
            rw [hu₀]
            exact Nat.one_pos
          · show 0 < (u.file f₁).ref
            rw [hu₁]
            exact Nat.one_pos
        constructor
        · intro hh
          have hp := hh.pipe
          have hw := hh.writable
          cases v <;> exact ⟨hp.symm, hw.symm⟩
        · rintro ⟨rfl, rfl⟩
          cases w <;> exact ⟨hlive, rfl, rfl, rfl⟩
    have hlast : ∀ v, v = u₁.setFile f₁ x₁ → v.proc = s.proc ∧ Table P (f₁ :: f₀ :: X) H v ∧ (v.file f₀).type ≠ .none ∧
        (v.file f₁).type ≠ .none := by
      rintro v rfl
      refine ⟨hproc, ⟨hc₂, hpipes⟩, ?_, ?_⟩
      · rw [file_setFile_ne hne]
        rw [file_setFile_self]
        exact FileType.noConfusion
      · rw [file_setFile_self]
        exact FileType.noConfusion
    have heq : u₁.setFile f₁ { u₁.file f₁ with type := .pipe, readable := false, writable := true, pipe := u.npipe } =
        u₁.setFile f₁ x₁ := by rw [hfile₁]
    simp only [wp_bind, wp_modify, wp_pure]
    exact hlast _ heq

theorem closeBoth {f₀ f₁ : Nat} (h : Table s.proc [f₁, f₀] [] s) :
    Kept (do
      fileclose f₀
      fileclose f₁) s := by
  rw [Kept, wp_bind]
  refine wp_post (fileclose_head h.swap) ?_
  rintro _ t ⟨h₁, h₂⟩
  refine wp_post (fileclose_head h₂) ?_
  rintro _ u ⟨h₃, h₄⟩
  rw [h₃, h₁]
  exact h₄

theorem setFd_setFd {v v' : Option Nat} : (pr.setFd fd v).setFd fd v' = pr.setFd fd v' := by
  simp only [Proc.setFd, update_idem]

theorem setProc_setProc : (s.setProc p q).setProc p q' = s.setProc p q' := by
  simp only [Sys.setProc, update_idem]

theorem proc_setProc : (s.setProc p q).proc p = q := update_self ..

theorem setFd_comm {fd' : Nat} {v v' : Option Nat} (h : fd' ≠ fd) :
    (pr.setFd fd' v).setFd fd v' = (pr.setFd fd v').setFd fd' v := by
  simp only [Proc.setFd, update_comm h]

theorem setFd_none (h : pr.ofile fd = none) : pr.setFd fd none = pr := by
  rw [Proc.setFd, ← h, update_eq_self]

theorem setProc_eq_self (h : s.proc p = q) : s.setProc p q = s := by
  rw [Sys.setProc, ← h, update_eq_self]

theorem sysPipe_kept {page copyout : Bool} (h : Table s.proc [] [] s) (hP : s.proc p = some pr) :
    Kept (sysPipe p page copyout) s := by
  rw [Kept, sysPipe, wp_bind]
  refine wp_post (pipealloc_spec h) ?_
  rintro (_ | ⟨rf, wf⟩) t ⟨h₁, h₂⟩
  · show Table t.proc [] [] t
    rw [h₁]
    exact h₂
  obtain ⟨h₂, ht₀, ht₁⟩ := h₂
  rw [← h₁] at hP h₂
  rw [wp_bind]
  refine wp_post (fdalloc_spec hP) ?_
  rintro (_ | fd₀) u h₃
  · subst h₃
    exact closeBoth h₂
  obtain ⟨hfd₀, hfree₀, rfl⟩ := h₃
  rw [wp_bind]
  refine wp_post (fdalloc_spec proc_setProc) ?_
  rintro (_ | fd₁) v h₄
  · subst h₄
    rw [wp_bind]
    refine wp_post (clearFd_spec proc_setProc) ?_
    rintro _ w rfl
    rw [setProc_setProc, setFd_setFd, setFd_none hfree₀, setProc_eq_self hP]
    exact closeBoth h₂
  obtain ⟨hfd₁, hfree₁, rfl⟩ := h₄
  refine wp_ite (fun _ => ?_) fun _ => ?_
  · have hgive := Table.give (h₂.swap.give hP hfd₀ hfree₀ ht₀) (update_self ..) hfd₁ hfree₁ ht₁
    exact hgive.congr rfl rfl rfl rfl
  · rw [setProc_setProc, wp_bind]
    refine wp_post (clearFd_spec proc_setProc) ?_
    rintro _ w rfl
    rw [setProc_setProc, wp_bind]
    refine wp_post (clearFd_spec proc_setProc) ?_
    rintro _ w rfl
    have hne : fd₁ ≠ fd₀ := by
      rintro rfl
      rw [ofile_setFd_self] at hfree₁
      cases hfree₁
    rw [ofile_setFd_ne hne] at hfree₁
    have hback : (((pr.setFd fd₀ (some rf)).setFd fd₁ (some wf)).setFd fd₀ none).setFd fd₁ none = pr := by
      rw [setFd_comm hne, setFd_setFd, setFd_setFd, setFd_none hfree₀, setFd_none hfree₁]
    rw [setProc_setProc, hback, setProc_eq_self hP]
    exact closeBoth h₂

/-! ## `fork` and `exit` -/

/-- The files that the child has got so far: it holds them, but is not counted yet. -/
def Forking (P : Nat → Option Proc) (child cwd k : Nat) (s : Sys) : Prop :=
  ∃ o, s.proc = Function.update P child (some ⟨o, cwd⟩) ∧ (∀ fd, k ≤ fd → o fd = none) ∧
    ∃ X, Table P X [] s ∧ (∀ f, X.count f = fdsOf (some ⟨o, cwd⟩) f) ∧ (∀ f ∈ X, (s.file f).type ≠ .none) ∧
      ∀ fd f, o fd = some f → fd < nofile ∧ f < nfile

theorem Forking.dup {child cwd k : Nat} (h : Forking P child cwd k s) (hk : k < nofile) (hP : P p = some pr)
    (hf : pr.ofile k = some f) :
    wp (do
      filedup f
      modify fun s => s.setProc child ((s.proc child).map fun c => { c with ofile := Function.update c.ofile k (some f) }))
      (fun _ t => Forking P child cwd (k + 1) t) (fun _ _ => True) s := by
  obtain ⟨o, hproc, hnone, X, hT, hcount, htyped, hrange⟩ := h
  obtain ⟨_, hlt⟩ := hT.procs.fd p pr k f hP hf
  have htype := hT.type_ne hP hf
  rw [wp_bind]
  refine wp_post (filedup_spec hT hlt) ?_
  rintro _ t ⟨h₁, h₂, h₃, h₄⟩
  rw [wp_modify]
  have hchild : t.proc child = some ⟨o, cwd⟩ := by rw [h₁, hproc, update_self]
  rw [hchild]
  refine ⟨Function.update o k (some f), ?_, fun fd hfd => ?_, f :: X, h₂.congr rfl rfl rfl rfl, fun g => ?_, fun g hg => ?_,
    fun fd g hg => ?_⟩
  · show Function.update t.proc child _ = _
    rw [h₁, hproc, update_idem]
    rfl
  · rw [update_of_ne (by omega)]
    exact hnone fd (by omega)
  · have h₅ := fdsOf_update o cwd (some f) g hk
    rw [hnone k (Nat.le_refl _)] at h₅
    simp only [reduceCtorEq, if_false, Option.some.injEq, Nat.add_zero] at h₅
    rw [h₅, List.count_cons, hcount]
    simp only [beq_iff_eq]
  · show (t.file g).type ≠ .none
    by_cases hgf : g = f
    · rw [hgf, h₃]
      exact htype
    · rw [h₄ g hgf]
      rcases List.mem_cons.1 hg with hg | hg
      · exact absurd hg hgf
      · exact htyped g hg
  · obtain rfl | hne := eq_or_ne fd k
    · rw [update_self] at hg
      cases hg
      exact ⟨hk, hlt⟩
    · rw [update_of_ne hne] at hg
      exact hrange fd g hg

theorem Forking.done {child cwd k : Nat} (h : Forking P child cwd k s) (hchild : child < nproc) (hnew : P child = none)
    (hcwd : cwd < ninode) (ht : t = { s with fs := t.fs }) (hfs : t.fs.ref = hold s.fs.ref [cwd]) : Table t.proc [] [] t := by
  obtain ⟨o, hproc, hnone, X, hT, hcount, htyped, hrange⟩ := h
  have hT' : Table P X [cwd] t := by
    rw [ht]
    exact hT.setFs fun e => by rw [hfs, hold]; simp
  have htproc : t.proc = s.proc := by rw [ht]
  have htfile : t.file = s.file := by rw [ht]
  rw [htproc, hproc]
  refine hT'.setProc hchild (fun pr' hpr => ?_) (by simp) (fun f => ?_) (fun e => ?_) fun f htype => ?_
  · cases hpr
    exact ⟨hcwd, hrange⟩
  · rw [← hcount, hnew, fdsOf_none, List.count_nil, Nat.zero_add, Nat.add_zero]
  · simp [hnew, List.count_cons]
  · rw [← hcount]
    refine (List.count_eq_zero.2 fun hmem => htyped f hmem ?_).trans_le (Nat.zero_le _)
    rw [← htfile]
    exact htype

theorem forkFiles_kept {child : Nat} (h : Table s.proc [] [] s) (hP : s.proc p = some pr) (hchild : child < nproc)
    (hnew : s.proc child = none) : Kept (forkFiles child pr) s := by
  have hcwd := (h.procs.proc p pr hP).2
  rw [Kept, forkFiles, wp_bind, wp_modify, wp_bind]
  have hstart : Forking s.proc child pr.cwd 0 (s.setProc child (some ⟨fun _ => none, pr.cwd⟩)) :=
    ⟨fun _ => none, rfl, fun _ _ => rfl, [], h.congr rfl rfl rfl rfl, fun f => fdsOf_empty.symm, by simp, by simp⟩
  refine wp_post (wp_forN (fun k t => Forking s.proc child pr.cwd k t) nofile 0 (fun k t _ hk hF => ?_) hstart) ?_
  · cases hf : pr.ofile k with
    | none =>
        obtain ⟨o, h₁, h₂, h₃⟩ := hF
        exact ⟨o, h₁, fun fd hfd => h₂ fd (by omega), h₃⟩
    | some f => exact hF.dup (by omega) hP hf
  · intro _ t hF
    rw [wp_bind, wp_lift]
    refine wp_post (idup_refs t.fs rfl) ?_
    rintro r fs ⟨_, hfs⟩
    exact hF.done hchild hnew hcwd rfl hfs

theorem Table.leave (h : Table P X H s) (hP : P p = some pr) (hfds : ∀ fd, pr.ofile fd = none) :
    Table (Function.update P p none) X (pr.cwd :: H) s := by
  have hnone : ∀ f, fdsOf (P p) f = 0 := fun f => by
    rw [hP]
    exact Finset.sum_eq_zero fun fd _ => if_neg (by simp [hfds fd])
  refine h.setProc (h.procs.proc p pr hP).1 (fun pr' hpr => by cases hpr) h.range (fun f => ?_) (fun e => ?_) fun f _ => ?_
  · rw [hnone, fdsOf_none]
  · simp [hP, List.count_cons]
  · rw [fdsOf_none]
    exact Nat.zero_le _

/-- The files of an exiting process up to `k` are closed. -/
def Exiting (p : Nat) (pr : Proc) (k : Nat) (s : Sys) : Prop :=
  Table s.proc [] [] s ∧ ∃ o, s.proc p = some ⟨o, pr.cwd⟩ ∧ ∀ fd, o fd = if fd < k then none else pr.ofile fd

theorem Exiting.close {k : Nat} (h : Exiting p pr k s) (hf : pr.ofile k = some f) :
    wp (do
      fileclose f
      clearFd p k) (fun _ t => Exiting p pr (k + 1) t) (fun _ _ => True) s := by
  obtain ⟨hT, o, hP, ho⟩ := h
  have hfk : (⟨o, pr.cwd⟩ : Proc).ofile k = some f := by
    show o k = some f
    rw [ho, if_neg (Nat.lt_irrefl k), hf]
  rw [wp_bind]
  refine wp_post (fileclose_head (hT.take hP hfk)) ?_
  rintro _ t ⟨h₁, h₂⟩
  refine wp_post (clearFd_spec (h₁ ▸ hP)) ?_
  rintro _ u rfl
  refine ⟨?_, Function.update o k none, proc_setProc, fun fd => ?_⟩
  · have h₃ := h₂.congr (t := t.setProc p (some (Proc.setFd ⟨o, pr.cwd⟩ k none))) rfl rfl rfl rfl
    rw [← h₁] at h₃
    exact h₃
  · obtain rfl | hne := eq_or_ne fd k
    · rw [update_self, if_pos (Nat.lt_succ_self _)]
    · rw [update_of_ne hne, ho]
      by_cases hlt : fd < k
      · rw [if_pos hlt, if_pos (Nat.lt_succ_of_lt hlt)]
      · rw [if_neg hlt, if_neg (by omega)]

theorem exitFiles_kept (h : Table s.proc [] [] s) (hP : s.proc p = some pr) : Kept (exitFiles p pr) s := by
  rw [Kept, exitFiles, wp_bind]
  have hstart : Exiting p pr 0 s := ⟨h, pr.ofile, hP, fun fd => (if_neg (Nat.not_lt_zero _)).symm⟩
  refine wp_post (wp_forN (fun k t => Exiting p pr k t) nofile 0 (fun k t _ _ hE => ?_) hstart) ?_
  · cases hf : pr.ofile k with
    | none =>
        obtain ⟨hT, o, hP', ho⟩ := hE
        refine ⟨hT, o, hP', fun fd => ?_⟩
        obtain rfl | hne := eq_or_ne fd k
        · rw [ho, if_neg (Nat.lt_irrefl _), if_pos (Nat.lt_succ_self _), hf]
        · rw [ho]
          by_cases hlt : fd < k
          · rw [if_pos hlt, if_pos (Nat.lt_succ_of_lt hlt)]
          · rw [if_neg hlt, if_neg (by omega)]
    | some f => exact hE.close hf
  · rintro _ t ⟨hT, o, hP', ho⟩
    have hno : ∀ fd, o fd = none := fun fd => by
      rw [ho]
      split
      · rfl
      · rename_i hge
        cases hf : pr.ofile fd with
        | none => rfl
        | some f => exact absurd (by have := (h.procs.fd p pr fd f hP hf).1; omega) hge
    have hL := hT.leave hP' hno
    simp only [wp_bind, wp_modify]
    refine wp_post (hL.still beginOp_still) ?_
    rintro _ t₁ ⟨h₁, _, h₂⟩
    refine wp_post h₂.iput ?_
    rintro _ t₂ ⟨h₃, _, h₄⟩
    refine wp_post (h₄.still endOp_still) ?_
    rintro _ t₃ ⟨h₅, _, h₆⟩
    have h₇ := h₆.congr (t := t₃.setProc p none) rfl rfl rfl rfl
    rw [← h₁, ← h₃, ← h₅] at h₇
    exact h₇

/-! ## The other calls -/

theorem Table.chdir {fs : Fs} (h : Table P [] [] s) (hP : P p = some pr) (he : e < ninode)
    (hfs : fs.ref = Function.update (hold s.fs.ref [e]) pr.cwd (hold s.fs.ref [e] pr.cwd - 1)) :
    Table (Function.update P p (some { pr with cwd := e })) [] [] { s with fs := fs } := by
  have hp := (h.procs.proc p pr hP).1
  have hfd : ∀ f, fdCount (Function.update P p (some { pr with cwd := e })) f = fdCount P f := fun f => by
    have h₁ := fdCount_update (P := P) (q := some { pr with cwd := e }) (f := f) hp
    rw [hP] at h₁
    exact Nat.add_right_cancel h₁
  have hcwd : ∀ x, cwdCount (Function.update P p (some { pr with cwd := e })) x + (if pr.cwd = x then 1 else 0) =
      cwdCount P x + if e = x then 1 else 0 := fun x => by
    have h₁ := cwdCount_update (P := P) (q := some { pr with cwd := e }) (e := x) hp
    rw [hP] at h₁
    simpa using h₁
  refine ⟨⟨h.procs.update hp fun pr' hpr => ?_, h.range, fun f hf => ?_, h.free, fun f hf ht => ?_, fun x => ?_,
    h.ips⟩, ⟨h.pipes.range, h.pipes.uniq, h.pipes.read, h.pipes.write, h.pipes.freed⟩⟩
  · cases hpr
    exact ⟨he, fun fd f => h.procs.fd p pr fd f hP⟩
  · rw [hfd]
    exact h.files f hf
  · rw [hfd]
    exact h.typed f hf ht
  · have h₁ := h.inodes x
    have h₂ := hcwd x
    have h₃ : hold s.fs.ref [e] x = s.fs.ref x + if e = x then 1 else 0 := by
      rw [hold, List.count_singleton]
      simp only [beq_iff_eq]
    show fs.ref x = fileCount s.file x + cwdCount _ x + _
    rw [hfs]
    obtain rfl | hne := eq_or_ne x pr.cwd
    · rw [update_self, h₃]
      rw [if_pos rfl] at h₂
      omega
    · rw [update_of_ne hne, h₃]
      rw [if_neg hne.symm] at h₂
      omega

/-- The transaction of `sysChdir`. -/
def chdirBody (cwd : Nat) (path : List Byte) : M (Option Nat) :=
  match argstr path with
  | none => pure none
  | some path => lift (chdir cwd path)

theorem sysChdir_kept {path : List Byte} (h : Table s.proc [] [] s) (hP : s.proc p = some pr) :
    Kept (sysChdir p pr.cwd path) s := by
  have hp := (h.procs.proc p pr hP).1
  have hcwd := (h.procs.proc p pr hP).2
  -- the counts after the code in the transaction
  have hbody : wp (inTrans (chdirBody pr.cwd path)) (fun r t => t = { s with fs := t.fs } ∧ r.elim (t.fs.ref = s.fs.ref) fun e =>
        e < ninode ∧ t.fs.ref = Function.update (hold s.fs.ref [e]) pr.cwd (hold s.fs.ref [e] pr.cwd - 1))
      (fun _ _ => True) s := by
    simp only [inTrans, chdirBody, wp_bind]
    rw [wp_lift]
    refine wp_post (beginOp_still s.fs.ref s.fs rfl) fun _ fs₁ h₁ => ?_
    cases argstr path with
    | none =>
        rw [wp_pure, wp_lift]
        refine wp_post (endOp_still fs₁.ref fs₁ rfl) fun _ fs₂ h₂ => ?_
        exact ⟨rfl, h₂.trans h₁⟩
    | some path =>
        rw [wp_lift]
        refine wp_post (chdir_refs hcwd fs₁ h₁) fun r fs₂ h₂ => ?_
        rw [wp_lift]
        refine wp_post (endOp_still fs₂.ref fs₂ rfl) fun _ fs₃ h₃ => ⟨rfl, ?_⟩
        cases r with
        | none => exact h₃.trans h₂
        | some e => exact ⟨h₂.1, h₃.trans h₂.2⟩
  rw [Kept, sysChdir, wp_bind]
  refine wp_post hbody ?_
  rintro r t ⟨ht, hr⟩
  have htproc : t.proc = s.proc := by rw [ht]
  cases r with
  | none =>
      show Table t.proc [] [] t
      rw [htproc, ht]
      exact h.setFs fun e => by rw [show t.fs.ref = s.fs.ref from hr]
  | some e =>
      obtain ⟨he, hfs⟩ := hr
      have hset : (t.proc p).map (fun pr => { pr with cwd := e }) = some { pr with cwd := e } := by rw [htproc, hP]; rfl
      show Table (Function.update t.proc p _) [] [] (t.setProc p _)
      rw [hset, htproc]
      refine Table.congr (s := t) ?_ rfl rfl rfl rfl
      rw [ht]
      exact h.chdir hP he hfs

theorem withPath_kept {path : List Byte} {m : List Byte → K Bool} (h : Table s.proc [] [] s)
    (hm : ∀ path, Still Fs.ref (m path)) :
    Kept (withPath path fun path => do
      let _ ← lift (m path)
      pure ()) s := by
  refine Kept.inTrans h fun t ht h => ?_
  cases argstr path with
  | none => exact h
  | some path =>
      show wp (do let _ ← lift (m path); _) _ _ _
      rw [wp_bind]
      exact wp_post (h.run (hm path)) fun _ _ hu => hu.2

theorem trans_kept {m : K α} (h : Table s.proc [] [] s) (hm : Still Fs.ref m) :
    Kept (inTrans do
      let _ ← lift m
      pure ()) s := by
  refine Kept.inTrans h fun t ht h => ?_
  rw [Kept, wp_bind]
  exact wp_post (h.run hm) fun _ _ hu => hu.2

theorem Table.setOff {off : Nat} (h : Table P X H s) (hf : f < nfile) :
    Table P X H (s.setFile f { s.file f with off := off }) := by
  have hholds : ∀ e, File.Holds { s.file f with off := off } e ↔ (s.file f).Holds e := fun e =>
    ⟨fun hh => ⟨hh.live, hh.type, hh.ip⟩, fun hh => ⟨hh.live, hh.type, hh.ip⟩⟩
  refine ⟨h.toCounts.setFile hf rfl rfl (h.files f hf) (fun _ _ => rfl) (h.free f hf) (h.typed f hf)
    (fun e hh => h.ips f e hf ((hholds e).1 hh)) fun e => by simp only [hholds], h.pipes.setFile fun i w => ?_⟩
  exact ⟨fun hh => ⟨hh.live, hh.type, hh.pipe, hh.writable⟩, fun hh => ⟨hh.live, hh.type, hh.pipe, hh.writable⟩⟩

theorem filewriteLoop_spec {n k i : Nat} {src : Nat → Option Byte} (h : Table P X H s) (hf : f < nfile) :
    wp (filewriteLoop f n src k i) (fun _ t => t.proc = s.proc ∧ Table P X H t) (fun _ _ => True) s := by
  induction k generalizing i s with
  | zero => exact ⟨rfl, h⟩
  | succ k ih =>
      rw [filewriteLoop]
      refine wp_ite (fun _ => ?_) fun _ => ⟨rfl, h⟩
      simp only [wp_bind, wp_get]
      refine wp_post (h.still beginOp_still) ?_
      rintro _ t₁ ⟨h₁, _, h₂⟩
      refine wp_post (h₂.still ilock_still) ?_
      rintro _ t₂ ⟨h₃, _, h₄⟩
      refine wp_post (h₄.still writei_still) ?_
      rintro r t₃ ⟨h₅, _, h₆⟩
      rw [wp_modify]
      refine wp_post ((h₆.setOff hf).still iunlock_still) ?_
      rintro _ t₄ ⟨h₇, _, h₈⟩
      refine wp_post (h₈.still endOp_still) ?_
      rintro _ t₅ ⟨h₉, _, h₁₀⟩
      have hproc : t₅.proc = s.proc := h₉.trans (h₇.trans (h₅.trans (h₃.trans h₁)))
      refine wp_ite (fun _ => ⟨hproc, h₁₀⟩) fun _ => ?_
      exact wp_post (ih h₁₀) fun _ u hu => ⟨hu.1.trans hproc, hu.2⟩

theorem filewrite_kept {n : Nat} {src : Nat → Option Byte} (h : Table s.proc [] [] s) (hf : f < nfile) :
    Kept (filewrite f src n) s := by
  refine wp_ite (fun _ => h) fun _ => ?_
  cases (s.file f).type with
  | none => trivial
  | pipe => exact h
  | device => exact h
  | inode =>
      rw [wp_bind]
      refine wp_post (filewriteLoop_spec h hf) ?_
      rintro _ t ⟨h₁, h₂⟩
      rw [wp_pure, h₁]
      exact h₂

theorem fileread_kept {n : Nat} {copyout : Nat → Nat → Bool} (h : Table s.proc [] [] s) (hf : f < nfile) :
    Kept (fileread f copyout n) s := by
  refine wp_ite (fun _ => h) fun _ => ?_
  cases (s.file f).type with
  | none => trivial
  | pipe => exact h
  | device => exact h
  | inode =>
      simp only [wp_bind]
      refine wp_post (h.run ilock_still) ?_
      rintro _ t₁ ⟨_, h₁⟩
      refine wp_post (h₁.run readi_still) ?_
      rintro (_ | ⟨tot, b⟩) t₂ ⟨_, h₂⟩
      · exact wp_post (h₂.run iunlock_still) fun _ _ hu => hu.2
      · have h₃ : Table t₂.proc [] [] (t₂.setFile f { t₂.file f with off := ((t₂.file f).off + tot) % 2 ^ 32 }) := h₂.setOff hf
        exact wp_post (Table.run (s := t₂.setFile f _) h₃ iunlock_still) fun _ _ hu => hu.2

/-- Every system call keeps the counts exact. -/
theorem call_kept {c : Call} (h : Table s.proc [] [] s) (hP : s.proc p = some pr) (hen : c.enabled s = true) :
    Kept (call p pr c) s := by
  have hcwd := (h.procs.proc p pr hP).2
  cases c with
  | openat path omode => exact sysOpen_kept h hP
  | mkdir path => exact withPath_kept h fun _ => make_still hcwd
  | mknod path major minor => exact withPath_kept h fun _ => make_still hcwd
  | link old new =>
      show Kept (sysLink pr.cwd old new) s
      rw [sysLink]
      cases argstr old <;> cases argstr new
      case some.some => exact trans_kept h (link_still hcwd)
      all_goals exact h
  | unlink path =>
      show Kept (sysUnlink pr.cwd path) s
      rw [sysUnlink]
      cases argstr path with
      | none => exact h
      | some path => exact trans_kept h (unlink_still hcwd)
  | chdir path => exact sysChdir_kept h hP
  | exec path reads =>
      show Kept (sysExec pr.cwd path reads) s
      rw [sysExec]
      cases argstr path with
      | none => exact h
      | some path => exact trans_kept h (exec_still hcwd)
  | read fd copyout n =>
      show Kept (match argfd pr fd with | none => pure () | some f => fileread f copyout n) s
      cases harg : argfd pr fd with
      | none => exact h
      | some f => exact fileread_kept h (h.procs.fd p pr fd f hP (argfd_some harg)).2
  | write fd src n =>
      show Kept (match argfd pr fd with | none => pure () | some f => filewrite f src n) s
      cases harg : argfd pr fd with
      | none => exact h
      | some f => exact filewrite_kept h (h.procs.fd p pr fd f hP (argfd_some harg)).2
  | dup fd => exact sysDup_kept h hP
  | close fd => exact sysClose_kept h hP
  | pipe page copyout => exact sysPipe_kept h hP
  | fork child memory =>
      refine wp_ite (fun _ => ?_) fun _ => h
      simp only [Call.enabled, Bool.and_eq_true, decide_eq_true_eq, Option.isNone_iff_eq_none] at hen
      exact forkFiles_kept h hP hen.1 hen.2
  | exit => exact wp_ite (fun _ => trivial) fun _ => exitFiles_kept h hP

theorem exec_ok {m : M Unit} {Q : Sys → Prop} {E : Stop → Sys → Prop} (h : wp m (fun _ t => Q t) E s)
    (hs : s.exec m = some (.ok t)) : Q t := by
  rw [Sys.exec] at hs
  split at hs
  · rename_i a u hm
    cases hs
    exact wp_ok h hm
  · cases hs
  · cases hs

theorem Table.step {a : Act} (h : Table s.proc [] [] s) (hs : step s a = some (.ok t)) : Table t.proc [] [] t := by
  cases a with
  | call p c =>
      simp only [Xv6.Fs.step] at hs
      split at hs
      · cases hs
      · rename_i pr hP
        split at hs
        · rename_i hen
          exact exec_ok (Q := fun t => Table t.proc [] [] t) (call_kept h hP hen) hs
        · cases hs
  | reclaim inum =>
      simp only [Xv6.Fs.step] at hs
      split at hs
      · refine exec_ok (Q := fun t => Table t.proc [] [] t) (E := fun _ _ => True) ?_ hs
        exact wp_post (h.run ireclaimOne_still) fun _ _ hu => hu.2
      · cases hs

theorem Table.boot {sb : Super} {blk : Nat → Block} : Table (boot sb blk).proc [] [] (boot sb blk) := by
  have hend : ∀ f i w, ¬ ((Xv6.Fs.boot sb blk).file f).IsEnd i w := fun f i w hh => absurd hh.live (Nat.lt_irrefl 0)
  -- before the first process takes its reference to the root directory
  have hT : Table (fun _ => none) [] [0] (Xv6.Fs.boot sb blk) := by
    have hfd : ∀ f, fdCount (fun _ => none) f = 0 := fun f => Finset.sum_eq_zero fun _ _ => fdsOf_none
    refine ⟨⟨⟨fun p pr hp => (by cases hp), fun p pr fd f hp => (by cases hp)⟩, by simp, fun f _ => ?_, fun f _ _ => rfl,
      fun f _ _ => hfd f, fun e => ?_, fun f e _ hh => absurd hh.live (Nat.lt_irrefl 0)⟩, ⟨fun f i w _ hh => absurd hh (hend f i w),
      fun f f' i w _ _ hh => absurd hh (hend f i w), fun i hi => absurd hi (Nat.not_lt_zero i),
      fun i hi => absurd hi (Nat.not_lt_zero i), fun i hi => absurd hi (Nat.not_lt_zero i)⟩⟩
    · rw [hfd]
      rfl
    · have hfile : fileCount (Xv6.Fs.boot sb blk).file e = 0 :=
        Finset.sum_eq_zero fun f _ => if_neg fun hh => absurd hh.live (Nat.lt_irrefl 0)
      have hcwd : cwdCount (fun _ => none) e = 0 := Finset.sum_eq_zero fun _ _ => if_neg (by simp)
      rw [hfile, hcwd]
      show ((mount sb blk).setInode 0 _).ref e = _
      rw [ref_setInode]
      obtain rfl | hne := eq_or_ne e 0
      · rw [update_self]
        rfl
      · rw [update_of_ne hne, List.count_singleton, if_neg (by simpa using hne.symm)]
        rfl
  refine hT.setProc (q := some ⟨fun _ => none, 0⟩) (by decide) (fun pr hpr => ?_) (by simp) (fun f => ?_) (fun e => ?_) fun f _ => ?_
  · cases hpr
    exact ⟨by decide, fun fd f hf => by cases hf⟩
  · rw [fdsOf_empty, fdsOf_none]
  · simp [List.count_cons]
  · rw [fdsOf_empty]
    exact Nat.zero_le _

end Xv6.Fs
