import Xv6.Fs.Lemmas.Refs
import Xv6.Fs.System

/-!
# Open files

`Table P X H s`: the counts of references are exact, where the slots are those of the processes `P`,
the code holds one reference to each file of `X`, and one to each entry of `H` in the inode table.
-/

namespace Xv6.Fs

open Lib Function

variable {α : Type} {P : Nat → Option Proc} {X H : List Nat} {s t : Sys} {f f' e i p fd : Nat} {w : Bool} {pr : Proc}
  {q q' : Option Proc}

/-! ## Holders -/

theorem fdCount_update (hp : p < nproc) : fdCount (Function.update P p q) f + fdsOf (P p) f = fdCount P f + fdsOf q f := by
  have h := sum_change (fun k => fdsOf (P k) f) (fun k => fdsOf (Function.update P p q k) f) (Finset.mem_range.2 hp)
    fun k _ hk => by rw [update_of_ne hk]
  rwa [update_self] at h

theorem cwdCount_update (hp : p < nproc) : cwdCount (Function.update P p q) e + (if (P p).map (·.cwd) = some e then 1 else 0) =
    cwdCount P e + if q.map (·.cwd) = some e then 1 else 0 := by
  have h := sum_change (fun k => if (P k).map (·.cwd) = some e then 1 else 0)
    (fun k => if (Function.update P p q k).map (·.cwd) = some e then 1 else 0) (Finset.mem_range.2 hp)
    fun k _ hk => by rw [update_of_ne hk]
  rwa [update_self] at h

theorem fileCount_update (file : Nat → File) (x : File) (e : Nat) (hf : f < nfile) :
    fileCount (Function.update file f x) e + (if (file f).Holds e then 1 else 0) =
      fileCount file e + if x.Holds e then 1 else 0 := by
  have h := sum_change (fun k => if (file k).Holds e then 1 else 0)
    (fun k => if (Function.update file f x k).Holds e then 1 else 0) (Finset.mem_range.2 hf)
    fun k _ hk => by rw [update_of_ne hk]
  rwa [update_self] at h

theorem fdsOf_update (o : Nat → Option Nat) (cwd : Nat) (v : Option Nat) (f : Nat) (hfd : fd < nofile) :
    fdsOf (some ⟨Function.update o fd v, cwd⟩) f + (if o fd = some f then 1 else 0) =
      fdsOf (some ⟨o, cwd⟩) f + if v = some f then 1 else 0 := by
  have h := sum_change (fun k => if o k = some f then 1 else 0) (fun k => if Function.update o fd v k = some f then 1 else 0)
    (Finset.mem_range.2 hfd) fun k _ hk => by rw [update_of_ne hk]
  simpa [fdsOf] using h

theorem fdsOf_none : fdsOf none f = 0 := by simp [fdsOf]

theorem fdsOf_empty {cwd : Nat} : fdsOf (some ⟨fun _ => none, cwd⟩) f = 0 := by simp [fdsOf]

theorem fdsOf_le (hp : p < nproc) : fdsOf (P p) f ≤ fdCount P f := le_sum (f := fun k => fdsOf (P k) f) (Finset.mem_range.2 hp)

theorem fdCount_pos (hp : p < nproc) (hP : P p = some pr) (hfd : fd < nofile) (hf : pr.ofile fd = some f) : 0 < fdCount P f := by
  have h : 1 ≤ fdsOf (P p) f := by
    have := le_sum (f := fun k => if (P p).bind (·.ofile k) = some f then 1 else 0) (Finset.mem_range.2 hfd)
    rw [hP] at this ⊢
    simpa [fdsOf, hf] using this
  exact Nat.lt_of_lt_of_le h (fdsOf_le hp)

/-! ## The invariant -/

/-- The ends of the pipes. -/
structure Pipes (s : Sys) : Prop where
  range : ∀ f i w, f < nfile → (s.file f).IsEnd i w → i < s.npipe
  uniq : ∀ f f' i w, f < nfile → f' < nfile → (s.file f).IsEnd i w → (s.file f').IsEnd i w → f = f'
  read : ∀ i, i < s.npipe → ((s.pipe i).readopen = true ↔ ∃ f, f < nfile ∧ (s.file f).IsEnd i false)
  write : ∀ i, i < s.npipe → ((s.pipe i).writeopen = true ↔ ∃ f, f < nfile ∧ (s.file f).IsEnd i true)
  freed : ∀ i, i < s.npipe → (s.pipe i).frees = if (s.pipe i).readopen = false ∧ (s.pipe i).writeopen = false then 1 else 0

/-- The processes. -/
structure Procs (P : Nat → Option Proc) : Prop where
  proc : ∀ p pr, P p = some pr → p < nproc ∧ pr.cwd < ninode
  fd : ∀ p pr fd f, P p = some pr → pr.ofile fd = some f → fd < nofile ∧ f < nfile

structure Counts (P : Nat → Option Proc) (X H : List Nat) (s : Sys) : Prop where
  procs : Procs P
  range : ∀ f ∈ X, f < nfile
  files : ∀ f, f < nfile → (s.file f).ref = fdCount P f + X.count f
  free : ∀ f, f < nfile → (s.file f).ref = 0 → (s.file f).type = .none
  typed : ∀ f, f < nfile → (s.file f).type = .none → fdCount P f = 0
  inodes : ∀ e, s.fs.ref e = fileCount s.file e + cwdCount P e + H.count e
  ips : ∀ f e, f < nfile → (s.file f).Holds e → e < ninode

structure Table (P : Nat → Option Proc) (X H : List Nat) (s : Sys) : Prop extends Counts P X H s where
  pipes : Pipes s

theorem Table.fileRefs (h : Table s.proc [] [] s) : FileRefs s where
  files := fun f hf => by simpa using h.files f hf
  free := fun f hf => ⟨h.free f hf, fun ht => by rw [h.files f hf, h.typed f hf ht]; rfl⟩
  read := h.pipes.read
  write := h.pipes.write
  freed := h.pipes.freed
  inodes := fun e _ => (h.inodes e).trans (by simp)

/-! ## The file system -/

theorem wp_lift {m : K α} {Q : α → Sys → Prop} {E : Stop → Sys → Prop} :
    wp (lift m) Q E s ↔ wp m (fun a t => Q a { s with fs := t }) (fun x t => E x { s with fs := t }) s.fs := by
  unfold wp lift
  cases m s.fs <;> rfl

theorem Table.setFs {H' : List Nat} {fs : Fs} (h : Table P X H s) (hfs : ∀ e, fs.ref e + H.count e = s.fs.ref e + H'.count e) :
    Table P X H' { s with fs := fs } :=
  ⟨⟨h.procs, h.range, h.files, h.free, h.typed, fun e => by
      have h₁ := hfs e
      have h₂ := h.inodes e
      show fs.ref e = fileCount s.file e + cwdCount P e + H'.count e
      omega, h.ips⟩, ⟨h.pipes.range, h.pipes.uniq, h.pipes.read, h.pipes.write, h.pipes.freed⟩⟩

theorem Table.still {m : K α} (h : Table P X H s) (hm : Still Fs.ref m) :
    wp (lift m) (fun _ t => t.proc = s.proc ∧ t.file = s.file ∧ Table P X H t) (fun _ _ => True) s := by
  rw [wp_lift]
  refine wp_post (hm s.fs.ref s.fs rfl) fun _ fs hfs => ⟨rfl, rfl, h.setFs fun e => ?_⟩
  rw [hfs]

theorem Table.got {m : K (Option Nat)} (h : Table P X H s) (hm : Track Fs.ref s.fs.ref m (Got s.fs.ref)) :
    wp (lift m) (fun r t => t.proc = s.proc ∧ t.file = s.file ∧ match r with
      | none => Table P X H t
      | some e => e < ninode ∧ Table P X (e :: H) t) (fun _ _ => True) s := by
  rw [wp_lift]
  refine wp_post (hm s.fs rfl) fun r fs hr => ⟨rfl, rfl, ?_⟩
  cases r with
  | none => exact h.setFs fun e => by rw [show fs.ref = s.fs.ref from hr]
  | some e =>
      obtain ⟨he, hfs⟩ := hr
      refine ⟨he, h.setFs fun e' => ?_⟩
      rw [hfs, hold]
      simp only [List.count_cons, List.count_nil]
      omega

theorem Table.iput (h : Table P X (e :: H) s) :
    wp (lift (iput e)) (fun _ t => t.proc = s.proc ∧ t.file = s.file ∧ Table P X H t) (fun _ _ => True) s := by
  rw [wp_lift]
  refine wp_post (iput_refs s.fs rfl) fun _ fs hfs => ⟨rfl, rfl, h.setFs fun e' => ?_⟩
  have he := h.inodes e
  rw [List.count_cons_self] at he
  rw [hfs]
  obtain rfl | hne := eq_or_ne e' e
  · rw [update_self, List.count_cons_self]
    omega
  · rw [update_of_ne hne, List.count_cons_of_ne hne.symm]

theorem Table.iunlockput (h : Table P X (e :: H) s) :
    wp (lift (iunlockput e)) (fun _ t => t.proc = s.proc ∧ t.file = s.file ∧ Table P X H t) (fun _ _ => True) s := by
  have hbind : lift (Xv6.Fs.iunlockput e) = (do lift (iunlock e); lift (Xv6.Fs.iput e)) := by
    funext s
    show lift (EStateM.bind _ _) s = EStateM.bind _ _ s
    simp only [lift, EStateM.bind]
    cases iunlock e s.fs <;> rfl
  rw [hbind, wp_bind]
  refine wp_post (h.still iunlock_still) ?_
  rintro _ t ⟨h₁, h₂, h₃⟩
  refine wp_post h₃.iput ?_
  rintro _ u ⟨h₄, h₅, h₆⟩
  exact ⟨h₄.trans h₁, h₅.trans h₂, h₆⟩

/-! ## Entries of the file table -/

theorem file_setFile_self {x : File} : (s.setFile f x).file f = x := update_self ..

theorem file_setFile_ne {x : File} (h : f' ≠ f) : (s.setFile f x).file f' = s.file f' := update_of_ne h ..

theorem Pipes.setFile {x : File} (h : Pipes s) (hx : ∀ i w, x.IsEnd i w ↔ (s.file f).IsEnd i w) : Pipes (s.setFile f x) := by
  have hends : ∀ f' i w, ((s.setFile f x).file f').IsEnd i w ↔ (s.file f').IsEnd i w := fun f' i w => by
    obtain rfl | hf := eq_or_ne f' f
    · rw [file_setFile_self]
      exact hx i w
    · rw [file_setFile_ne hf]
  refine ⟨fun f' i w hf hend => h.range f' i w hf ((hends f' i w).1 hend), fun f₁ f₂ i w h₁ h₂ hend₁ hend₂ => ?_,
    fun i hi => ?_, fun i hi => ?_, h.freed⟩
  · exact h.uniq f₁ f₂ i w h₁ h₂ ((hends f₁ i w).1 hend₁) ((hends f₂ i w).1 hend₂)
  · simp only [hends]
    exact h.read i hi
  · simp only [hends]
    exact h.write i hi

/-- An entry changes: `X'` and `H'` are what is held after it. -/
theorem Counts.setFile {X' H' : List Nat} {x : File} (h : Counts P X H s) (hf : f < nfile)
    (hfile : t.file = Function.update s.file f x) (hfs : t.fs = s.fs) (href : x.ref = fdCount P f + X'.count f)
    (hX : ∀ f', f' ≠ f → X'.count f' = X.count f') (hfree : x.ref = 0 → x.type = .none)
    (htyped : x.type = .none → fdCount P f = 0) (hip : ∀ e, x.Holds e → e < ninode)
    (hH : ∀ e, (if x.Holds e then 1 else 0) + H'.count e = (if (s.file f).Holds e then 1 else 0) + H.count e) :
    Counts P X' H' t := by
  have hself : t.file f = x := by rw [hfile, update_self]
  have hother : ∀ f', f' ≠ f → t.file f' = s.file f' := fun f' hne => by rw [hfile, update_of_ne hne]
  refine ⟨h.procs, fun f' hf' => ?_, fun f' hf' => ?_, fun f' hf' => ?_, fun f' hf' => ?_, fun e => ?_, fun f' e hf' => ?_⟩
  · obtain rfl | hne := eq_or_ne f' f
    · exact hf
    · exact h.range f' (List.count_pos_iff.1 (hX f' hne ▸ List.count_pos_iff.2 hf'))
  · obtain rfl | hne := eq_or_ne f' f
    · rw [hself]
      exact href
    · rw [hother f' hne, hX f' hne]
      exact h.files f' hf'
  · obtain rfl | hne := eq_or_ne f' f
    · rw [hself]
      exact hfree
    · rw [hother f' hne]
      exact h.free f' hf'
  · obtain rfl | hne := eq_or_ne f' f
    · rw [hself]
      exact htyped
    · rw [hother f' hne]
      exact h.typed f' hf'
  · have h₁ := h.inodes e
    have h₂ := hH e
    have h₃ := fileCount_update s.file x e hf
    rw [hfs, hfile]
    omega
  · obtain rfl | hne := eq_or_ne f' f
    · rw [hself]
      exact hip e
    · rw [hother f' hne]
      exact h.ips f' e hf'

theorem Table.setRef {X' : List Nat} {n : Nat} (h : Table P X H s) (hf : f < nfile) (hpos : 0 < (s.file f).ref) (hn : 0 < n)
    (href : n = fdCount P f + X'.count f) (hX : ∀ f', f' ≠ f → X'.count f' = X.count f') :
    Table P X' H (s.setFile f { s.file f with ref := n }) := by
  have hholds : ∀ e, File.Holds { s.file f with ref := n } e ↔ (s.file f).Holds e := fun e =>
    ⟨fun hh => ⟨hpos, hh.type, hh.ip⟩, fun hh => ⟨hn, hh.type, hh.ip⟩⟩
  refine ⟨h.toCounts.setFile hf rfl rfl href hX (fun hz : n = 0 => by omega) (h.typed f hf)
    (fun e hh => h.ips f e hf ((hholds e).1 hh)) fun e => by simp only [hholds], h.pipes.setFile fun i w => ?_⟩
  exact ⟨fun hh => ⟨hpos, hh.type, hh.pipe, hh.writable⟩, fun hh => ⟨hn, hh.type, hh.pipe, hh.writable⟩⟩

theorem filealloc_spec (h : Table P X H s) :
    wp filealloc (fun r t => match r with
      | none => t = s
      | some f => f < nfile ∧ (s.file f).ref = 0 ∧ (s.file f).type = .none ∧ t = s.setFile f { s.file f with ref := 1 } ∧
          Table P (f :: X) H t) (fun _ _ => True) s := by
  show wp (match (List.range nfile).find? fun f => (s.file f).ref == 0 with | none => _ | some _ => _) _ _ s
  cases hfind : (List.range nfile).find? fun f => (s.file f).ref == 0 with
  | none => rfl
  | some f =>
      have hf : f < nfile := List.mem_range.1 (List.mem_of_find?_eq_some hfind)
      have hz : (s.file f).ref = 0 := by simpa using List.find?_some hfind
      have htype := h.free f hf hz
      have hfiles := h.files f hf
      refine ⟨hf, hz, htype, rfl, ⟨h.toCounts.setFile hf rfl rfl ?_ (fun f' hne => List.count_cons_of_ne hne.symm)
        (fun h : 1 = 0 => absurd h (by decide)) (h.typed f hf) (fun e hh => ?_) fun e => ?_, h.pipes.setFile fun i w => ?_⟩⟩
      · rw [List.count_cons_self]
        show 1 = _
        omega
      · rcases hh.type with ht | ht <;> exact absurd (htype.symm.trans ht) (by decide)
      · rw [if_neg, if_neg] <;> intro hh <;> rcases hh.type with ht | ht <;> exact absurd (htype.symm.trans ht) (by decide)
      · constructor <;> intro hh <;> exact absurd (htype.symm.trans hh.type) (by decide)

theorem filedup_spec (h : Table P X H s) (hf : f < nfile) :
    wp (filedup f) (fun _ t => t.proc = s.proc ∧ Table P (f :: X) H t ∧ (t.file f).type = (s.file f).type ∧
      ∀ f', f' ≠ f → t.file f' = s.file f') (fun _ _ => True) s := by
  refine wp_ite (fun _ => trivial) fun hpos => ⟨rfl, ?_, ?_, fun f' hne => file_setFile_ne hne⟩
  · refine h.setRef hf (by omega) (Nat.succ_pos _) ?_ fun f' hne => List.count_cons_of_ne hne.symm
    rw [h.files f hf, List.count_cons_self, Nat.add_assoc]
  · rw [file_setFile_self]

/-! ## `fileclose` -/

/-- A pipe after `pipeclose` of one of its ends. -/
def Pipe.close (x : Pipe) (w : Bool) : Pipe :=
  let y := if w then { x with writeopen := false } else { x with readopen := false }
  if ¬ y.readopen ∧ ¬ y.writeopen then { y with frees := y.frees + 1 } else y

theorem Pipe.readopen_close {x : Pipe} : (x.close w).readopen = (w && x.readopen) := by
  cases w <;> cases hr : x.readopen <;> cases hw : x.writeopen <;> simp [Pipe.close, hr, hw]

theorem Pipe.writeopen_close {x : Pipe} : (x.close w).writeopen = (!w && x.writeopen) := by
  cases w <;> cases hr : x.readopen <;> cases hw : x.writeopen <;> simp [Pipe.close, hr, hw]

theorem Pipe.frees_close {x : Pipe} : (x.close w).frees =
    if (x.close w).readopen = false ∧ (x.close w).writeopen = false then x.frees + 1 else x.frees := by
  rw [Pipe.readopen_close, Pipe.writeopen_close]
  cases w <;> cases hr : x.readopen <;> cases hw : x.writeopen <;> simp [Pipe.close, hr, hw]

theorem pipeclose_spec : wp (pipeclose i w) (fun _ t => t = s.setPipe i ((s.pipe i).close w)) (fun _ _ => True) s := by
  have hself : ∀ y, (s.setPipe i y).pipe i = y := fun _ => update_self ..
  have hidem : ∀ y z, (s.setPipe i y).setPipe i z = s.setPipe i z := fun _ _ => by simp only [Sys.setPipe, update_idem]
  simp only [pipeclose, wp_bind, wp_modify, wp_get, hself]
  refine wp_ite (fun hc => ?_) fun hc => ?_
  · rw [wp_set, hidem, Pipe.close, if_pos hc]
  · rw [wp_pure, Pipe.close, if_neg hc]

theorem Pipes.close {x : File} (h : Pipes s) (hf : f < nfile) (hend : (s.file f).IsEnd i w) (hx : x.ref = 0)
    (hfile : t.file = Function.update s.file f x) (hpipe : t.pipe = Function.update s.pipe i ((s.pipe i).close w))
    (hn : t.npipe = s.npipe) : Pipes t := by
  have hi := h.range f i w hf hend
  have hno : ∀ j v, ¬ (t.file f).IsEnd j v := fun j v hh => by
    have hlive := hh.live
    rw [hfile, update_self, hx] at hlive
    exact absurd hlive (Nat.lt_irrefl 0)
  have hold : ∀ f' j v, (t.file f').IsEnd j v → (s.file f').IsEnd j v ∧ f' ≠ f := fun f' j v hh => by
    have hne : f' ≠ f := by
      rintro rfl
      exact hno j v hh
    rw [hfile, update_of_ne hne] at hh
    exact ⟨hh, hne⟩
  -- the other ends are where they were
  have hends : ∀ j v, (j ≠ i ∨ v ≠ w) → ((∃ f', f' < nfile ∧ (t.file f').IsEnd j v) ↔ ∃ f', f' < nfile ∧ (s.file f').IsEnd j v) := by
    intro j v hjv
    constructor
    · rintro ⟨f', hf', hh⟩
      exact ⟨f', hf', (hold f' j v hh).1⟩
    · rintro ⟨f', hf', hh⟩
      refine ⟨f', hf', ?_⟩
      have hne : f' ≠ f := by
        rintro rfl
        rcases hjv with hj | hv
        · exact hj (hh.pipe.symm.trans hend.pipe)
        · exact hv (hh.writable.symm.trans hend.writable)
      rwa [hfile, update_of_ne hne]
  have hgone : ¬ ∃ f', f' < nfile ∧ (t.file f').IsEnd i w := by
    rintro ⟨f', hf', hh⟩
    obtain ⟨hh', hne⟩ := hold f' i w hh
    exact hne (h.uniq f' f i w hf' hf hh' hend)
  have hopen : w = false → (s.pipe i).readopen = true := fun hw => (h.read i hi).2 ⟨f, hf, hw ▸ hend⟩
  have hopen' : w = true → (s.pipe i).writeopen = true := fun hw => (h.write i hi).2 ⟨f, hf, hw ▸ hend⟩
  have hfreed := h.freed i hi
  refine ⟨fun f' j v hf' hh => hn ▸ h.range f' j v hf' (hold f' j v hh).1,
    fun f₁ f₂ j v h₁ h₂ hh₁ hh₂ => h.uniq f₁ f₂ j v h₁ h₂ (hold f₁ j v hh₁).1 (hold f₂ j v hh₂).1, fun j hj => ?_, fun j hj => ?_,
    fun j hj => ?_⟩
  · obtain rfl | hji := eq_or_ne j i
    · rw [hpipe, update_self, Pipe.readopen_close]
      cases w with
      | false => exact iff_of_false (by simp) hgone
      | true =>
          rw [Bool.true_and, hends j false (Or.inr (by decide))]
          exact h.read j hi
    · rw [hpipe, update_of_ne hji, hends j false (Or.inl hji)]
      exact h.read j (hn ▸ hj)
  · obtain rfl | hji := eq_or_ne j i
    · rw [hpipe, update_self, Pipe.writeopen_close]
      cases w with
      | true => exact iff_of_false (by simp) hgone
      | false =>
          rw [Bool.not_false, Bool.true_and, hends j true (Or.inr (by decide))]
          exact h.write j hi
    · rw [hpipe, update_of_ne hji, hends j true (Or.inl hji)]
      exact h.write j (hn ▸ hj)
  · obtain rfl | hji := eq_or_ne j i
    · have hzero : (s.pipe j).frees = 0 := by
        rw [hfreed, if_neg]
        rintro ⟨hr, hw⟩
        cases hwv : w with
        | false => exact absurd hr (by rw [hopen hwv]; decide)
        | true => exact absurd hw (by rw [hopen' hwv]; decide)
      rw [hpipe, update_self, Pipe.frees_close, hzero]
    · rw [hpipe, update_of_ne hji]
      exact h.freed j (hn ▸ hj)

/-- The last reference to a file is dropped; `H'` is what is held then. -/
theorem Table.closeLast {H' : List Nat} (h : Table P X H s) (hf : f ∈ X) (href : (s.file f).ref = 1)
    (hfile : t.file = Function.update s.file f { s.file f with ref := 0, type := .none }) (hfs : t.fs = s.fs) (hpipes : Pipes t)
    (hH : ∀ e, H'.count e = (if (s.file f).Holds e then 1 else 0) + H.count e) : Table P (X.erase f) H' t := by
  have hlt := h.range f hf
  have hcount := List.count_pos_iff.2 hf
  have hfiles := h.files f hlt
  have hno : ∀ e, ¬ File.Holds { s.file f with ref := 0, type := .none } e := fun e hh => absurd hh.live (Nat.lt_irrefl 0)
  refine ⟨h.toCounts.setFile hlt hfile hfs ?_ (fun f' hne => List.count_erase_of_ne hne) (fun _ => rfl) (fun _ => by omega)
    (fun e hh => absurd hh (hno e)) fun e => ?_, hpipes⟩
  · rw [List.count_erase_self]
    show 0 = _
    omega
  · rw [if_neg (hno e), Nat.zero_add]
    exact hH e

/-- A reference to a file that the code holds is dropped. -/
theorem fileclose_spec (h : Table P X H s) (hf : f ∈ X) :
    wp (fileclose f) (fun _ t => t.proc = s.proc ∧ Table P (X.erase f) H t) (fun _ _ => True) s := by
  have hlt := h.range f hf
  have hcount := List.count_pos_iff.2 hf
  have hfiles := h.files f hlt
  refine wp_ite (fun _ => trivial) fun hpos => wp_ite (fun hmore => ?_) fun hone => ?_
  · refine ⟨rfl, h.setRef hlt (by omega) (by omega) ?_ fun f' hne => List.count_erase_of_ne hne⟩
    rw [List.count_erase_self]
    omega
  · have href : (s.file f).ref = 1 := by omega
    have hsame : ∀ i w, (s.file f).type ≠ .pipe →
        (File.IsEnd { s.file f with ref := 0, type := .none } i w ↔ (s.file f).IsEnd i w) := fun i w ht =>
      iff_of_false (fun hh => absurd hh.live (Nat.lt_irrefl 0)) fun hh => ht hh.type
    -- the inode of the file is held for `iput`
    have hdrop : (s.file f).type = .inode ∨ (s.file f).type = .device →
        wp (do
          lift beginOp
          lift (iput (s.file f).ip)
          lift endOp) (fun _ t => t.proc = s.proc ∧ Table P (X.erase f) H t) (fun _ _ => True)
          (s.setFile f { s.file f with ref := 0, type := .none }) := fun htype => by
      have hpipe : (s.file f).type ≠ .pipe := fun ht => by
        rw [ht] at htype
        rcases htype with ht | ht <;> cases ht
      have hclose : Table P (X.erase f) ((s.file f).ip :: H) (s.setFile f { s.file f with ref := 0, type := .none }) := by
        refine h.closeLast hf href rfl rfl (h.pipes.setFile fun i w => hsame i w hpipe) fun e => ?_
        by_cases he : (s.file f).ip = e
        · rw [if_pos ⟨by omega, htype, he⟩, he, List.count_cons_self, Nat.add_comm]
        · rw [if_neg fun hh => he hh.ip, List.count_cons_of_ne he, Nat.zero_add]
      simp only [wp_bind]
      refine wp_post (hclose.still beginOp_still) ?_
      rintro _ t₁ ⟨h₁, _, h₂⟩
      refine wp_post h₂.iput ?_
      rintro _ t₂ ⟨h₃, _, h₄⟩
      refine wp_post (h₄.still endOp_still) ?_
      rintro _ t₃ ⟨h₅, _, h₆⟩
      exact ⟨h₅.trans (h₃.trans h₁), h₆⟩
    rw [wp_bind, wp_set]
    cases htype : (s.file f).type with
    | none =>
        refine ⟨rfl, h.closeLast hf href rfl rfl (h.pipes.setFile fun i w => hsame i w (by rw [htype]; decide)) fun e => ?_⟩
        rw [if_neg, Nat.zero_add]
        intro hh
        rcases hh.type with ht | ht <;> exact absurd (htype.symm.trans ht) (by decide)
    | pipe =>
        have hend : (s.file f).IsEnd (s.file f).pipe (s.file f).writable := ⟨by omega, htype, rfl, rfl⟩
        refine wp_post pipeclose_spec ?_
        rintro _ t rfl
        refine ⟨rfl, h.closeLast hf href rfl rfl (h.pipes.close hlt hend rfl rfl rfl rfl) fun e => ?_⟩
        rw [if_neg, Nat.zero_add]
        intro hh
        rcases hh.type with ht | ht <;> exact absurd (htype.symm.trans ht) (by decide)
    | inode => exact hdrop (Or.inl htype)
    | device => exact hdrop (Or.inr htype)

end Xv6.Fs
