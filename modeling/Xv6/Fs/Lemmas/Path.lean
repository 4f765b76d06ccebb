import Xv6.Fs.Lemmas.Dirent
import Xv6.Fs.Path

/-!
# Path resolution

`namex` walks over the components of its path; what it returns is what they resolve to.
-/

namespace Xv6.Fs

open Lib Function

variable {s s₀ t : Fs} {T : Nat → Prop} {H : List Nat} {e e' i j k cwd : Nat} {f : FileView} {F : Files} {name : Name}
  {L : Option Nat} {names rest : List Name} {path path' w : List Byte} {parent : Bool} {E : Stop → Fs → Prop}

/-! ## The components of a path -/

theorem runs_slash (path : List Byte) : runs (slash :: path) = runs path := by
  simp [runs, List.splitOnP_cons_eq_if_modifyHead]

theorem runs_dropWhile (path : List Byte) : runs (path.dropWhile (· == slash)) = runs path := by
  induction path with
  | nil => rfl
  | cons c path ih =>
      by_cases hc : c = slash
      · rw [List.dropWhile_cons_of_pos (by simpa using hc), ih, hc, runs_slash]
      · rw [List.dropWhile_cons_of_neg (by simpa using hc)]

theorem runs_word (hw : ∀ c ∈ w, (c == slash) = false) (hne : w ≠ []) (rest : List Byte) (hrest : rest = [] ∨ rest.head? = some slash) :
    runs (w ++ rest) = w :: runs rest := by
  cases rest with
  | nil => simp [runs, List.splitOnP_eq_singleton hw, hne]
  | cons c rest =>
      obtain rfl : c = slash := by simpa using hrest
      rw [runs_slash, runs, List.splitOnP_append_cons_of_forall_mem hw slash (beq_self_eq_true _), List.filter_cons_of_pos (by simpa using hne)]
      rfl

theorem dropWhile_head (path : List Byte) :
    path.dropWhile (· != slash) = [] ∨ (path.dropWhile (· != slash)).head? = some slash := by
  cases h : path.dropWhile (· != slash) with
  | nil => exact .inl rfl
  | cons c rest =>
      right
      have hc := List.head?_dropWhile_not (· != slash) path
      rw [h] at hc
      simpa using hc

theorem runs_eq_nil_iff (h : path.head? ≠ some slash) : runs path = [] ↔ path = [] := by
  constructor
  · intro hr
    cases path with
    | nil => rfl
    | cons c path =>
        exfalso
        have hc : (c == slash) = false := by simpa using h
        have hw : ∀ d ∈ (c :: path).takeWhile (· != slash), (d == slash) = false := fun d hd => by
          simpa using List.mem_takeWhile_imp hd
        have hne : (c :: path).takeWhile (· != slash) ≠ [] := by
          rw [List.takeWhile_cons_of_pos (by simpa using hc)]
          exact List.cons_ne_nil _ _
        have hsplit := runs_word hw hne _ (dropWhile_head (c :: path))
        rw [List.takeWhile_append_dropWhile, hr] at hsplit
        cases hsplit
  · rintro rfl
    rfl

/-- `skipelem` takes the first component off the path. -/
theorem skipelem_components (path : List Byte) :
    (skipelem path = none ∧ components path = []) ∨
      ∃ name rest, skipelem path = some (name, rest) ∧ components path = name :: components rest ∧
        (rest.isEmpty = true ↔ components rest = []) := by
  rw [skipelem]
  cases hd : path.dropWhile (· == slash) with
  | nil =>
      refine .inl ⟨rfl, ?_⟩
      rw [components, ← runs_dropWhile, hd]
      rfl
  | cons c cs =>
      have hc : (c == slash) = false := by
        have := List.head?_dropWhile_not (· == slash) path
        rw [hd] at this
        simpa using this
      have hw : ∀ d ∈ (c :: cs).takeWhile (· != slash), (d == slash) = false := fun d hd => by
        simpa using List.mem_takeWhile_imp hd
      have hne : (c :: cs).takeWhile (· != slash) ≠ [] := by
        rw [List.takeWhile_cons_of_pos (by simpa using hc)]
        exact List.cons_ne_nil _ _
      have hsplit := runs_word hw hne _ (dropWhile_head (c :: cs))
      rw [List.takeWhile_append_dropWhile, ← hd, runs_dropWhile, hd] at hsplit
      refine .inr ⟨_, _, rfl, ?_, ?_⟩
      · rw [components, components, hsplit, runs_dropWhile, List.map_cons]
      · have hhead : (((c :: cs).dropWhile (· != slash)).dropWhile (· == slash)).head? ≠ some slash := fun h => by
          have := List.head?_dropWhile_not (· == slash) ((c :: cs).dropWhile (· != slash))
          rw [h] at this
          simp at this
        rw [List.isEmpty_iff, components, List.map_eq_nil_iff, runs_eq_nil_iff hhead]

/-- The loop of `namex` over the components of the path. -/
def namexOver (parent : Bool) : Nat → List Name → K (Option (Nat × Name))
  | e, [] =>
      if parent then do
        iput e
        pure none
      else pure (some (e, []))
  | e, name :: rest => do
      ilock e
      let s ← get
      if (s.inode e).d.type ≠ tDir then do
        iunlockput e
        pure none
      else if parent && rest.isEmpty then do
        iunlock e
        pure (some (e, name))
      else
        match ← dirlookup e name with
        | none => do
            iunlockput e
            pure none
        | some (next, _) => do
            iunlockput e
            namexOver parent next rest

theorem namexFrom_eq (parent : Bool) (e : Nat) (hk : path.length < k) :
    namexFrom parent k e path = namexOver parent e (components path) := by
  induction k generalizing e path with
  | zero => exact absurd hk (Nat.not_lt_zero _)
  | succ k ih =>
      rw [namexFrom]
      rcases skipelem_components path with ⟨hskip, hcomp⟩ | ⟨name, rest, hskip, hcomp, hempty⟩
      · rw [hskip, hcomp]
        rfl
      · have hlen := skipelem_length hskip
        rw [hskip, hcomp, namexOver]
        have hempty' : rest.isEmpty = (components rest).isEmpty := by
          rw [Bool.eq_iff_iff, hempty, List.isEmpty_iff]
        have hrest : ∀ e, namexFrom parent k e rest = namexOver parent e (components rest) := fun e => ih e (by omega)
        simp only [hempty', hrest] <;> rfl

theorem namex_eq (cwd : Nat) (path : List Byte) (parent : Bool) :
    namex cwd path parent = (do
      let e ← (if path.head? = some slash then iget rootDev rootIno else idup cwd)
      namexOver parent e (components path)) := by
  simp only [namex, namexFrom_eq parent _ (Nat.lt_succ_self path.length)]

/-! ## Locks and references along the path -/

/-- `s` is `s₀` with the references `H`, and inode table entry `L` is locked. -/
structure OnPath (s₀ : Fs) (H : List Nat) (L : Option Nat) (s : Fs) : Prop where
  ok : Ok s
  file : s.file = s₀.file
  frame : Frame s₀ H s
  locked : ∀ e, (s.inode e).locked = (L == some e)

/-- The one way in which a lookup stops: it has at most one inode in hand, and there is no free entry in
the inode table for the next. -/
structure TableFull (s₀ : Fs) (x : Stop) (t : Fs) : Prop where
  stop : x = .panic .igetFull
  full : t.empty = none
  path : ∃ H L, H.length ≤ 1 ∧ OnPath s₀ H L t

theorem wp_ilock {Q : Unit → Fs → Prop} (h : Ok s) (he : s.At e i) (hun : (s.inode e).locked = false) (hf : s.file i = some f)
    (hQ : ∀ t, Ok t → Same s t → Keep All s t → t.refs = s.refs → Entry t e i f → (t.inode e).locked = true →
      (∀ e', e' ≠ e → t.inode e' = s.inode e') → Q () t) : wp (ilock e) Q E s := by
  have hret : wp (ilock e) (fun _ t => ∀ e', e' ≠ e → t.inode e' = s.inode e') E s := by
    have hpos := he.ref
    simp only [ilock, acquiresleep, wp_bind, wp_get, show ¬ (s.inode e).ref < 1 by omega, if_false, hun, Bool.false_eq_true, wp_set,
      setInode_self]
    refine wp_ite (fun hv => ?_) fun hv => ?_
    · have hv' : (s.inode e).valid = false := by simpa using hv
      have htype : (s.disk i).type ≠ 0 := by
        rw [Fs.file] at hf
        split at hf
        · rename_i hc
          rw [h.table.node_of_at he, hv'] at hc
          simpa using hc.2
        · cases hf
      simp only [he.inum, wp_bind, wp_set]
      rw [if_neg (show ¬ ((s.setInode e _).disk i).type = 0 from htype)]
      intro e' hne
      rw [setInode_ne hne, setInode_ne hne]
    · intro e' hne
      rw [setInode_ne hne]
  have hspec : Spec True All 0 (ilock e) _ s := ilock_spec h he
  refine wp_post (wp_also hret (wp_mono hspec (fun _ _ h => h.1) fun _ _ _ => trivial)) ?_
  rintro _ t ⟨hother, h₁, h₂, h₃, h₄, ⟨f', h₅⟩, _, h₆⟩
  have hff : f' = f := by
    have := h₅.file
    rw [h₂.file, hf] at this
    exact (Option.some.inj this).symm
  exact hQ t h₁ h₂ h₃ h₄ (hff ▸ h₅) h₆ hother

namespace OnPath

theorem lock (h : OnPath s₀ H none s) (he : s.At e i) (hf : s₀.file i = some f) :
    wp (ilock e) (fun _ t => OnPath s₀ H (some e) t ∧ Entry t e i f) E s := by
  refine wp_ilock h.ok he (h.locked e) (by rw [h.file]; exact hf) fun t h₁ h₂ h₃ h₄ h₅ h₆ h₇ => ?_
  refine ⟨⟨h₁, h₂.file.trans h.file, h.frame.keep h₃ h₄, fun e' => ?_⟩, h₅⟩
  obtain rfl | hne := eq_or_ne e' e
  · rw [h₆]
    simp
  · rw [h₇ e' hne, h.locked e']
    simpa using Ne.symm hne

theorem unlock (h : OnPath s₀ H (some e) s) (he : s.At e i) :
    wp (iunlock e) (fun _ t => OnPath s₀ H none t ∧ Keep All s t ∧ t.file = s.file) E s := by
  obtain ⟨h₁, h₂, h₃, h₄⟩ := h.ok.setEntry (x := { s.inode e with locked := false }) he rfl rfl he.ref rfl rfl
  have hrefs : (s.setInode e { s.inode e with locked := false }).refs = s.refs := by
    refine h₄.trans ?_
    rw [← h.ok.table.refs_of_at he, update_eq_self]
  have hlocked : (s.inode e).locked = true := by rw [h.locked]; simp
  have hpos := he.ref
  simp only [iunlock, wp_bind, wp_get]
  rw [if_neg (by rw [hlocked]; simp; omega)]
  refine ⟨⟨h₁, h₂.file.trans h.file, h.frame.keep h₃ hrefs, fun e' => ?_⟩, h₃, h₂.file⟩
  obtain rfl | hne := eq_or_ne e' e
  · rw [setInode_self]
    rfl
  · rw [setInode_ne hne, h.locked]
    simpa using Ne.symm hne

/-- An inode of the tree is not freed when a reference that the lookup has taken is dropped. -/
theorem not_frees (h : OnPath s₀ H L s) (hT : Tree s₀ T) (hi : T i) (hH : i ∈ H) : ¬ Frees s e i := by
  rintro ⟨hlast, _, f, hf, hn⟩
  obtain ⟨f', hf', hpos⟩ := hT.file i hi
  rw [h.file, hf'] at hf
  obtain rfl := Option.some.inj hf
  have hrefs := h.frame.refs i
  have hcount := List.count_pos_iff.2 hH
  rcases hpos with hpos | hpos
  · exact hpos hn
  · omega

theorem drop (h : OnPath s₀ H none s) (h₀ : Ok s₀) (hT : Tree s₀ T) (he : s.At e i) (hi : T i) (hH : i ∈ H) :
    wp (iput e) (fun _ t => OnPath s₀ (H.erase i) none t ∧ Dropped e i s t) E s := by
  have hno : ¬ Frees s e i := h.not_frees hT hi hH
  have hd := h.ok.decRef he hno
  have hc := hno
  rw [frees_iff h.ok he] at hc
  simp only [iput, wp_bind, wp_get]
  rw [if_neg hc]
  refine ⟨⟨hd.ok, ?_, h.frame.drop h₀ he hd hH, fun e' => ?_⟩, hd⟩
  · rcases hd.file with ⟨hf, _⟩ | ⟨_, hfile⟩
    · exact absurd hf hno
    · exact hfile.trans h.file
  · obtain rfl | hne := eq_or_ne e' e
    · rw [setInode_self]
      exact h.locked e'
    · rw [setInode_ne hne]
      exact h.locked e'

theorem unlockDrop (h : OnPath s₀ H (some e) s) (h₀ : Ok s₀) (hT : Tree s₀ T) (he : s.At e i) (hi : T i) (hH : i ∈ H) :
    wp (iunlockput e) (fun _ t => OnPath s₀ (H.erase i) none t ∧
      ∀ e' j, s.At e' j → j ≠ i ∨ 1 < s.refs i → t.At e' j) E s := by
  rw [iunlockput, wp_bind]
  refine wp_post (h.unlock he) ?_
  rintro _ t ⟨ht, hkeep, -⟩
  have he' := (hkeep.entry e i trivial he).1
  refine wp_post (ht.drop h₀ hT he' hi hH) ?_
  rintro _ u ⟨hu, hd⟩
  refine ⟨hu, fun e' j hj hor => (hd.other he' (hkeep.entry e' j trivial hj).1 ?_).1⟩
  rcases hor with hor | hor
  · exact .inl hor
  · right
    rw [ht.frame.refs i, ← h.frame.refs i]
    exact hor

theorem get (h : OnPath s₀ H L s) (hH : H.length ≤ 1) (hi : i < s.sb.ninodes) (hpos : i ≠ 0) :
    wp (iget rootDev i) (fun e t => OnPath s₀ (i :: H) L t ∧ t.At e i ∧ Keep All s t ∧ t.file = s.file) (TableFull s₀) s := by
  have hspec : Spec True All 0 (iget rootDev i) _ s := iget_spec h.ok hi hpos
  have hlocked : wp (iget rootDev i) (fun _ t => ∀ e, (t.inode e).locked = (s.inode e).locked) (TableFull s₀) s := by
    have hset : ∀ e x, x.locked = (s.inode e).locked → ∀ e', ((s.setInode e x).inode e').locked = (s.inode e').locked :=
      fun e x hx e' => by
        obtain rfl | hne := eq_or_ne e' e
        · rw [setInode_self, hx]
        · rw [setInode_ne hne]
    exact wp_iget (fun e _ => hset e _ rfl) (fun e _ _ => hset e _ rfl) fun _ h₂ => ⟨rfl, h₂, H, L, hH, h⟩
  refine wp_post (wp_also hlocked (wp_mono hspec (fun _ _ h => h.1) fun _ _ _ => trivial)) ?_
  rintro e t ⟨hl, h₁, h₂, h₃, h₄, h₅, _⟩
  exact ⟨⟨h₁, h₂.file.trans h.file, h.frame.take h₃ h₅, fun e' => (hl e').trans (h.locked e')⟩, h₄, h₃, h₂.file⟩

theorem lookup (h : OnPath s₀ H L s) (hH : H.length ≤ 1) (he : Entry s e i f) (hT : Tree s₀ T) (hi : T i) (ht : f.type = tDir) (name : Name) :
    wp (dirlookup e name) (fun r t => (r = none ∧ t = s ∧ f.find name = none) ∨
      ∃ e' off k, r = some (e', off) ∧ f.find name = some k ∧ T (f.slot k).inum ∧ OnPath s₀ ((f.slot k).inum :: H) L t ∧
        t.At e' (f.slot k).inum ∧ Keep All s t ∧ t.file = s.file) (TableFull s₀) s := by
  have hf : s₀.file i = some f := by rw [← h.file]; exact he.file
  refine wp_dirlookup h.ok he ht (hT.dir i f hi hf ht) (fun hnone => .inl ⟨rfl, rfl, hnone⟩) fun k hk => ?_
  have hhas := find_some hk
  have hTk := hT.closed i f k hi hf ht hhas.lt hhas.live
  obtain ⟨g, hg, _⟩ := hT.file _ hTk
  have hlt : (f.slot k).inum < s.sb.ninodes := by
    rw [← h.file, Fs.file] at hg
    split at hg
    · rename_i hc
      exact hc.1
    · cases hg
  refine wp_post (h.get hH hlt hhas.live) ?_
  rintro e' t ⟨h₁, h₂, h₃, h₄⟩
  exact .inr ⟨e', _, k, rfl, hk, hTk, h₁, h₂, h₃, h₄⟩

end OnPath

/-- A lookup that stops was begun with at most one free entry. -/
theorem TableFull.few {x : Stop} (h : TableFull s₀ x t) (h₀ : Ok s₀) (he : e < ninode) (he' : e' < ninode)
    (hz : (s₀.inode e).ref = 0) (hz' : (s₀.inode e').ref = 0) : e = e' := by
  obtain ⟨H, L, hH, hp⟩ := h.path
  have hused : ∀ e, e < ninode → t.At e (t.inode e).inum := fun e he => by
    have h₁ := List.find?_eq_none.1 h.full e (List.mem_range.2 he)
    exact ⟨he, Nat.pos_of_ne_zero (by simpa using h₁), rfl⟩
  -- an entry that was free holds an inode the lookup has in hand
  have hheld : ∀ e, e < ninode → (s₀.inode e).ref = 0 → (t.inode e).inum ∈ H := fun e he hz => by
    have hat := hused e he
    have hrefs := hp.frame.refs (t.inode e).inum
    have hpos := (hp.ok.table.refs_pos).2 ⟨e, hat⟩
    by_cases h₁ : 0 < s₀.refs (t.inode e).inum
    · obtain ⟨e₀, hat₀⟩ := h₀.table.refs_pos.1 h₁
      obtain rfl := hp.ok.table.uniq _ _ _ (hp.frame.entry _ _ hat₀).1 hat
      have h₂ := hat₀.ref
      omega
    · exact List.count_pos_iff.1 (by omega)
  have h₁ := hheld e he hz
  have h₂ := hheld e' he' hz'
  have heq : (t.inode e).inum = (t.inode e').inum := by
    cases H with
    | nil => exact absurd h₁ List.not_mem_nil
    | cons i rest =>
        obtain rfl : rest = [] := List.length_eq_zero_iff.1 (by rw [List.length_cons] at hH; omega)
        rw [List.mem_singleton.1 h₁, List.mem_singleton.1 h₂]
  exact hp.ok.table.uniq _ _ _ (hused e he) (heq ▸ hused e' he')

/-! ## `namex` -/

/-- What the loop of `namex` returns. -/
def target (parent : Bool) (F : Files) : Nat → List Name → Option (Nat × Name)
  | i, [] => if parent then none else some (i, [])
  | i, name :: rest =>
      match F i with
      | none => none
      | some f =>
          if f.type ≠ tDir then none
          else if parent && rest.isEmpty then some (i, name)
          else
            match f.find name with
            | none => none
            | some k => target parent F (f.slot k).inum rest

theorem target_false (F : Files) (i : Nat) (names : List Name) :
    target false F i names = (resolve F i names).map fun j => (j, []) := by
  induction names generalizing i with
  | nil => rfl
  | cons name rest ih =>
      rw [target, resolve]
      cases F i with
      | none => rfl
      | some f =>
          by_cases ht : f.type ≠ tDir
          · simp only [if_pos ht]
            rfl
          · simp only [if_neg ht, Bool.false_and, Bool.false_eq_true, if_false]
            cases f.find name with
            | none => rfl
            | some k => exact ih _

theorem target_true (F : Files) (i : Nat) (names : List Name) : target true F i names = resolveParent F i names := by
  induction names generalizing i with
  | nil => rfl
  | cons name rest ih =>
      rw [target]
      cases rest with
      | nil =>
          simp only [resolveParent, List.getLast?_singleton, List.dropLast_singleton, resolve]
          cases F i with
          | none => rfl
          | some f =>
              by_cases ht : f.type = tDir
              · simp [ht]
              · simp [ht]
      | cons name' rest =>
          have hlast : (name :: name' :: rest).getLast? = (name' :: rest).getLast? := List.getLast?_cons_cons
          simp only [resolveParent, hlast, List.dropLast_cons_cons, resolve]
          cases hF : F i with
          | none =>
              simp only
              split <;> simp_all
          | some f =>
              by_cases ht : f.type ≠ tDir
              · simp only [if_pos ht]
                split <;> simp_all
              · simp only [if_neg ht, List.isEmpty_cons, Bool.and_false, Bool.false_eq_true, if_false]
                cases f.find name with
                | none =>
                    simp only
                    split <;> simp_all
                | some k => exact ih _

/-- The outcome of a lookup that leads to `want`. -/
def Ends (s₀ : Fs) (want r : Option (Nat × Name)) (t : Fs) : Prop :=
  match r with
  | none => want = none ∧ OnPath s₀ [] none t
  | some (e, name) => ∃ i, want = some (i, name) ∧ t.At e i ∧ OnPath s₀ [i] none t

theorem namexOver_spec (h₀ : Ok s₀) (hT : Tree s₀ T) (h : OnPath s₀ [i] none s) (he : s.At e i) (hi : T i) :
    wp (namexOver parent e names) (Ends s₀ (target parent s₀.file i names)) (TableFull s₀) s := by
  induction names generalizing s e i with
  | nil =>
      rw [namexOver, target]
      cases parent with
      | false => exact ⟨i, rfl, he, h⟩
      | true =>
          simp only [if_true, wp_bind]
          refine wp_post (h.drop h₀ hT he hi (List.mem_singleton.2 rfl)) ?_
          rintro _ t ⟨ht, _⟩
          rw [List.erase_cons_head] at ht
          exact ⟨rfl, ht⟩
  | cons name rest ih =>
      obtain ⟨f, hf, _⟩ := hT.file i hi
      rw [namexOver, target, hf, wp_bind]
      refine wp_post (h.lock he hf) ?_
      rintro _ t ⟨ht, hent⟩
      have htype : (t.inode e).d.type = f.type := by rw [← hent.fileOf ht.ok.table]; rfl
      have hmem : i ∈ [i] := List.mem_singleton.2 rfl
      have hput : wp (iunlockput e) (fun _ u => OnPath s₀ [] none u) (TableFull s₀) t := by
        refine wp_post (ht.unlockDrop h₀ hT hent.at_ hi hmem) ?_
        rintro _ u ⟨hu, _⟩
        rwa [List.erase_cons_head] at hu
      simp only [wp_bind, wp_get, htype]
      by_cases hdir : f.type ≠ tDir
      · simp only [if_pos hdir, wp_bind]
        exact wp_post hput fun _ u hu => ⟨rfl, hu⟩
      · have hdir' : f.type = tDir := not_not.1 hdir
        simp only [if_neg hdir]
        by_cases hlast : (parent && rest.isEmpty) = true
        · simp only [if_pos hlast, wp_bind]
          refine wp_post (ht.unlock hent.at_) ?_
          rintro _ u ⟨hu, hkeep, _⟩
          exact ⟨i, rfl, (hkeep.entry e i trivial hent.at_).1, hu⟩
        · simp only [if_neg hlast, wp_bind]
          refine wp_post (ht.lookup (Nat.le_refl _) hent hT hi hdir' name) ?_
          rintro r u (⟨rfl, rfl, hnone⟩ | ⟨e', off, k, rfl, hk, hTk, hu, hat, hkeep, _⟩)
          · rw [hnone]
            simp only [wp_bind]
            exact wp_post hput fun _ u hu => ⟨rfl, hu⟩
          · rw [hk]
            simp only [wp_bind]
            have hat' := (hkeep.entry e i trivial hent.at_).1
            refine wp_post (hu.unlockDrop h₀ hT hat' hi (List.mem_cons_of_mem _ hmem)) ?_
            rintro _ v ⟨hv, hother⟩
            have herase : [(f.slot k).inum, i].erase i = [(f.slot k).inum] := by
              by_cases heq : (f.slot k).inum = i
              · rw [heq, List.erase_cons_head]
              · rw [List.erase_cons_tail (by simpa using heq), List.erase_cons_head]
            rw [herase] at hv
            refine ih hv (hother e' _ hat ?_) hTk
            by_cases heq : (f.slot k).inum = i
            · right
              rw [hu.frame.refs i, heq, List.count_cons_self, List.count_cons_self]
              omega
            · exact .inl heq

theorem namex_ends (h : Ok s) (hT : Tree s T) (hun : ∀ e, (s.inode e).locked = false) (hcwd : s.At cwd j) (hj : T j)
    (hroot : T rootIno) (path : List Byte) (parent : Bool) :
    wp (namex cwd path parent) (Ends s (target parent s.file (startOf path j) (components path)))
      (TableFull s) s := by
  have hstart : OnPath s [] none s := ⟨h, rfl, .refl s, hun⟩
  rw [namex_eq, wp_bind, startOf]
  by_cases hc : path.head? = some slash
  · simp only [if_pos hc]
    refine wp_post (hstart.get (Nat.zero_le _) h.layout.root (by decide)) ?_
    rintro e t ⟨ht, he, _⟩
    exact namexOver_spec h hT ht he hroot
  · simp only [if_neg hc]
    have hspec : Spec True All 0 (idup cwd) _ s := idup_spec h hcwd
    have hret : wp (idup cwd) (fun e t => e = cwd ∧ ∀ e', (t.inode e').locked = false) (fun _ _ => False) s := by
      refine ⟨rfl, fun e' => ?_⟩
      obtain rfl | hne := eq_or_ne e' cwd
      · rw [setInode_self]
        exact hun e'
      · rw [setInode_ne hne]
        exact hun e'
    refine wp_mono (wp_also hret (wp_mono hspec (fun _ _ h => h.1) fun _ _ _ => trivial)) ?_ fun _ _ h => h.elim
    rintro _ t ⟨⟨rfl, hl⟩, -, h₁, h₂, h₃, h₄⟩
    exact namexOver_spec h hT ⟨h₁, h₂.file, hstart.frame.take h₃ h₄, hl⟩ (h₃.entry _ j trivial hcwd).1 hj

theorem namex_finds (h : Ok s) (hT : Tree s T) (hun : ∀ e, (s.inode e).locked = false) (hcwd : s.At cwd j) (hj : T j)
    (hroot : T rootIno) (path : List Byte) (parent : Bool) :
    FindsNamed s (target parent s.file (startOf path j) (components path)) (namex cwd path parent s) := by
  have hend := namex_ends h hT hun hcwd hj hroot path parent
  cases hm : namex cwd path parent s with
  | error x t =>
      have hx := wp_error hend hm
      exact ⟨hx.stop, hx.full⟩
  | ok r t =>
      have hr := wp_ok hend hm
      cases r with
      | none => exact ⟨hr.1, funext fun i => (hr.2.frame.refs i), hr.2.file⟩
      | some p =>
          obtain ⟨e, name⟩ := p
          obtain ⟨i, hi, hat, ht⟩ := hr
          refine ⟨i, hi, hat, funext fun i' => ?_, ht.file⟩
          rw [ht.frame.refs i']
          obtain rfl | hne := eq_or_ne i' i
          · rw [update_self, List.count_singleton_self]
          · rw [update_of_ne hne, List.count_singleton, if_neg (by simpa using Ne.symm hne)]
            rfl

/-- Where a lookup that starts in `T` ends. -/
theorem resolve_mem (hT : Closed T F) (hi : T i) (h : resolve F i names = some j) : T j := by
  induction names generalizing i with
  | nil =>
      cases h
      exact hi
  | cons name rest ih =>
      rw [resolve] at h
      cases hf : F i with
      | none =>
          rw [hf] at h
          cases h
      | some f =>
          simp only [hf] at h
          split at h
          · cases h
          · cases hk : f.find name with
            | none =>
                rw [hk] at h
                cases h
            | some k =>
                simp only [hk] at h
                have hhas := find_some hk
                exact ih (hT i f k hi hf (not_not.1 ‹_›) hhas.lt hhas.live) h

/-- `namei` with the inodes it has in hand when it returns. -/
theorem namei_ends {Q : Option Nat → Fs → Prop} (h : Ok s) (hT : Tree s T) (hun : ∀ e, (s.inode e).locked = false)
    (hcwd : s.At cwd j) (hj : T j) (hroot : T rootIno)
    (hE : ∀ x t, TableFull s x t → namei cwd path s = .error x t → E x t)
    (hnone : ∀ t, resolve s.file (startOf path j) (components path) = none → OnPath s [] none t → Q none t)
    (hsome : ∀ e i t, resolve s.file (startOf path j) (components path) = some i → T i → t.At e i → OnPath s [i] none t →
      Q (some e) t) : wp (namei cwd path) Q E s := by
  have hstart : T (startOf path j) := by
    unfold startOf
    split
    · exact hroot
    · exact hj
  have hend := namex_ends h hT hun hcwd hj hroot path false
  rw [target_false] at hend
  unfold wp
  cases hm : namei cwd path s with
  | error x t =>
      have hx : namex cwd path false s = .error x t := by
        have h₁ : EStateM.bind (namex cwd path false) _ s = .error x t := hm
        unfold EStateM.bind at h₁
        split at h₁
        · cases h₁
        · cases h₁
          assumption
      exact hE x t (wp_error hend hx) hm
  | ok r t =>
      have h₁ : EStateM.bind (namex cwd path false) _ s = .ok r t := hm
      unfold EStateM.bind at h₁
      split at h₁
      · rename_i r' t' hx
        cases h₁
        have hr := wp_ok hend hx
        cases r' with
        | none => exact hnone _ (Option.map_eq_none_iff.1 hr.1) hr.2
        | some p =>
            obtain ⟨e, name⟩ := p
            obtain ⟨i, hi, hat, ht⟩ := hr
            obtain ⟨i', hi', heq⟩ := Option.map_eq_some_iff.1 hi
            obtain rfl : i' = i := (Prod.mk.inj heq).1
            exact hsome e i' _ hi' (resolve_mem hT.closed hstart hi') hat ht
      · cases h₁

theorem namei_finds (h : Ok s) (hT : Tree s T) (hun : ∀ e, (s.inode e).locked = false) (hcwd : s.At cwd j) (hj : T j)
    (hroot : T rootIno) (path : List Byte) :
    Finds s (resolve s.file (startOf path j) (components path)) (namei cwd path s) := by
  have hx := namex_finds h hT hun hcwd hj hroot path false
  rw [target_false] at hx
  cases hm : namex cwd path false s with
  | error x t =>
      rw [hm] at hx
      have hi : namei cwd path s = .error x t := by
        show EStateM.bind _ _ s = _
        rw [EStateM.bind, hm]
      rw [hi]
      exact hx
  | ok r t =>
      rw [hm] at hx
      have hi : namei cwd path s = .ok (r.map Prod.fst) t := by
        show EStateM.bind _ _ s = _
        rw [EStateM.bind, hm]
        rfl
      rw [hi]
      cases r with
      | none => exact ⟨Option.map_eq_none_iff.1 hx.1, hx.2⟩
      | some p =>
          obtain ⟨i, hi, hrest⟩ := hx
          obtain ⟨i', hi', heq⟩ := Option.map_eq_some_iff.1 hi
          obtain rfl : i' = i := (Prod.mk.inj heq).1
          exact ⟨i', hi', hrest⟩

end Xv6.Fs
