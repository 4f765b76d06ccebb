import Xv6.Fs.Dirent
import Xv6.Fs.Lemmas.Dir

/-!
# Directories are maps from names

The functions on buffers are those on names; `dirlookup` finds the first entry with the name, and
`dirlink` adds one.
-/

namespace Xv6.Fs

open Lib Function

variable {s t : Fs} {e i j k n d inum : Nat} {f : FileView} {name name' : Name} {b b' p q u : Bytes} {X : Nat → Prop}
  {E : Stop → Fs → Prop}

/-! ## Strings -/

/-- The bytes from `i` on, `n` at most, before the first NUL. -/
def upTo (n : Nat) (b : Bytes) (i : Nat) : Name := ((List.range n).map fun j => b (i + j)).takeWhile (· != 0)

theorem upTo_succ (n : Nat) (b : Bytes) (i : Nat) : upTo (n + 1) b i = if b i = 0 then [] else b i :: upTo n b (i + 1) := by
  have hshift : (fun j => b (i + j)) ∘ Nat.succ = fun j => b (i + 1 + j) := funext fun j => by
    show b (i + (j + 1)) = _
    congr 1
    omega
  rw [upTo, List.range_succ_eq_map, List.map_cons, List.map_map, hshift, Nat.add_zero]
  by_cases hz : b i = 0
  · rw [if_pos hz, List.takeWhile_cons_of_neg (by simp [hz])]
  · rw [if_neg hz, List.takeWhile_cons_of_pos (p := (· != 0)) (bne_iff_ne.2 hz)]
    rfl

theorem upTo_eq_iff : upTo n p i = upTo n q i ↔ ∀ x, x < n → (∀ y, y < x → p (i + y) ≠ 0) → p (i + x) = q (i + x) := by
  induction n generalizing i with
  | zero => simp [upTo]
  | succ n ih =>
      rw [upTo_succ, upTo_succ]
      constructor
      · intro h x hx hp
        have hhead : p i = q i := by
          by_cases hz : p i = 0 <;> by_cases hz' : q i = 0
          · rw [hz, hz']
          · rw [if_pos hz, if_neg hz'] at h
            cases h
          · rw [if_neg hz, if_pos hz'] at h
            cases h
          · simp only [hz, hz', if_false, List.cons.injEq] at h
            exact h.1
        cases x with
        | zero => exact hhead
        | succ x =>
            have hz : p i ≠ 0 := hp 0 (Nat.succ_pos x)
            have hz' : q i ≠ 0 := hhead ▸ hz
            simp only [hz, hz', if_false, List.cons.injEq] at h
            have := ih.1 h.2 x (by omega) fun y hy => by
              rw [Nat.add_assoc, Nat.add_comm 1]
              exact hp (y + 1) (by omega)
            rwa [Nat.add_assoc, Nat.add_comm 1] at this
      · intro h
        have hhead : p i = q i := h 0 (Nat.succ_pos n) fun y hy => absurd hy (Nat.not_lt_zero y)
        by_cases hz : p i = 0
        · rw [if_pos hz, if_pos (hhead ▸ hz)]
        · rw [if_neg hz, if_neg (hhead ▸ hz), hhead]
          refine congrArg _ (ih.2 fun x hx hp => ?_)
          have := h (x + 1) (by omega) fun y hy => by
            cases y with
            | zero => exact hz
            | succ y =>
                have := hp y (by omega)
                rwa [Nat.add_assoc, Nat.add_comm 1] at this
          rwa [Nat.add_assoc, Nat.add_comm 1]

theorem upTo_zero (b : Bytes) : upTo dirSiz b 0 = cname b := by
  simp only [upTo, cname, Nat.zero_add]

theorem sameName_iff : SameName b b' ↔ cname b = cname b' := by
  rw [← upTo_zero, ← upTo_zero, upTo_eq_iff]
  simp only [Nat.zero_add, SameName]

theorem strncmp_eq_zero : Raw.strncmp p q n i = 0 ↔ upTo n p i = upTo n q i := by
  induction n generalizing i with
  | zero => simp [Raw.strncmp, upTo]
  | succ n ih =>
      rw [Raw.strncmp, upTo_succ, upTo_succ]
      by_cases hc : p i ≠ 0 ∧ p i = q i
      · obtain ⟨hz, heq⟩ := hc
        have hz' : q i ≠ 0 := heq ▸ hz
        simp only [hz', heq, ne_eq, not_false_eq_true, and_self, if_true, if_false, List.cons.injEq, true_and]
        exact ih
      · rw [if_neg hc]
        have hdiff : ((p i).toNat : Int) - (q i).toNat = 0 ↔ p i = q i := by
          constructor
          · intro h
            exact BitVec.eq_of_toNat_eq (by omega)
          · intro h
            rw [h]
            omega
        rw [hdiff]
        by_cases hz : p i = 0 <;> by_cases hz' : q i = 0
        · rw [if_pos hz, if_pos hz', hz, hz']
          exact iff_of_true rfl rfl
        · rw [if_pos hz, if_neg hz', hz]
          exact iff_of_false (Ne.symm hz') (List.cons_ne_nil _ _).symm
        · rw [if_neg hz, if_pos hz', hz']
          exact iff_of_false hz (List.cons_ne_nil _ _)
        · simp only [hz, hz', if_false, List.cons.injEq]
          exact ⟨fun h => absurd ⟨hz, h⟩ hc, fun h => h.1⟩

theorem namecmp_eq_zero : Raw.namecmp b b' = 0 ↔ cname b = cname b' := by
  rw [Raw.namecmp, strncmp_eq_zero, upTo_zero, upTo_zero]

theorem strncpyPad_spec (n d : Nat) (u : Bytes) (x : Nat) :
    Raw.strncpyPad n d u x = if d ≤ x ∧ x < d + n then 0 else u x := by
  induction n generalizing d u with
  | zero => rw [Raw.strncpyPad, if_neg (by omega)]
  | succ n ih =>
      rw [Raw.strncpyPad, ih]
      obtain rfl | hne := eq_or_ne x d
      · rw [if_neg (by omega), if_pos (by omega), update_self]
      · rw [update_of_ne hne]
        exact if_congr (by omega) rfl rfl

/-- `strncpy` copies the name and pads it. -/
theorem strncpy_spec (n i d : Nat) (u : Bytes) (x : Nat) :
    Raw.strncpy b n i d u x = if d ≤ x ∧ x < d + n then (upTo n b i).getD (x - d) 0 else u x := by
  induction n generalizing i d u with
  | zero => rw [Raw.strncpy, if_neg (by omega)]
  | succ n ih =>
      rw [Raw.strncpy, upTo_succ]
      by_cases hz : b i = 0
      · rw [if_neg (not_not.2 hz), if_pos hz, strncpyPad_spec]
        obtain rfl | hne := eq_or_ne x d
        · rw [if_neg (by omega), if_pos (by omega), update_self, hz]
          rfl
        · rw [update_of_ne hne]
          exact if_congr (by omega) rfl rfl
      · rw [if_pos hz, if_neg hz, ih]
        obtain rfl | hne := eq_or_ne x d
        · rw [if_neg (by omega), if_pos (by omega), update_self, Nat.sub_self]
          rfl
        · rw [update_of_ne hne]
          by_cases hx : d ≤ x ∧ x < d + (n + 1)
          · rw [if_pos (by omega), if_pos hx, show x - d = x - (d + 1) + 1 by omega, List.getD_cons_succ]
          · rw [if_neg (by omega), if_neg hx]

/-! ## The functions on buffers -/

theorem cname_nameField (de : Bytes) : cname (Raw.nameField de) = (getDirent de 0).name := by
  simp only [getDirent, Nat.zero_add]
  rfl

theorem dirlookupFrom_raw (K off : Nat) : Raw.dirlookupFrom e b K off = dirlookupFrom e (cname b) K off := by
  induction K generalizing off with
  | zero => rfl
  | succ K ih =>
      rw [Raw.dirlookupFrom, dirlookupFrom]
      refine bind_congr fun r => ?_
      rw [ih]
      refine if_congr Iff.rfl rfl ?_
      have hinum : (getDirent r.2 0).inum = load 2 r.2 0 := rfl
      by_cases hz : load 2 r.2 0 = 0
      · simp [hz, hinum]
      · simp [hz, hinum, namecmp_eq_zero, cname_nameField]

theorem dirlookup_raw : Raw.dirlookup e b = dirlookup e (cname b) := by
  simp only [Raw.dirlookup, dirlookup, dirlookupFrom_raw]

theorem dirlinkFrom_raw (K off : Nat) (de : Bytes) : Prod.fst <$> Raw.dirlinkFrom e K off de = dirlinkFrom e K off := by
  induction K generalizing off de with
  | zero => rfl
  | succ K ih =>
      rw [Raw.dirlinkFrom, dirlinkFrom, map_bind]
      refine bind_congr ?_
      rintro ⟨r, de⟩
      have hinum : (getDirent de 0).inum = load 2 de 0 := rfl
      simp only [hinum, ← ih (off + direntSize) de]
      by_cases hr : r ≠ direntSize
      · simp only [if_pos hr]
        rfl
      · simp only [if_neg hr]
        by_cases hz : load 2 de 0 = 0
        · simp only [if_pos hz]
          rfl
        · simp only [if_neg hz]

/-- Whatever the variable held, the entry has the number and the padded name. -/
theorem dirent_raw (de : Bytes) (x : Nat) :
    (if x < direntSize then store 2 (Raw.strncpy b dirSiz 0 2 de) 0 inum x else 0) = putDirent ⟨inum, cname b⟩ x := by
  have hs : direntSize = 16 ∧ dirSiz = 14 := ⟨rfl, rfl⟩
  simp only [putDirent, store]
  by_cases hx : x < direntSize
  · rw [if_pos hx]
    by_cases h2 : 2 ≤ x
    · rw [if_neg (by omega), if_neg (by omega), if_pos hx, strncpy_spec, if_pos (by omega), upTo_zero]
    · rw [if_pos (by omega), if_pos (by omega)]
  · rw [if_neg hx, if_neg (by omega), if_neg hx]

theorem dirlink_raw (de : Bytes) : Raw.dirlink de e b inum = dirlink e (cname b) inum := by
  rw [Raw.dirlink, dirlink, dirlookup_raw]
  refine bind_congr fun r => ?_
  cases r with
  | some p => rfl
  | none =>
      refine bind_congr fun s => ?_
      rw [← dirlinkFrom_raw _ _ de, bind_map_left]
      refine bind_congr fun p => ?_
      simp only [dirent_raw]

/-! ## Entries by name -/

theorem cname_slot (f : FileView) (k : Nat) : cname (f.nameField k) = (f.slot k).name := rfl

theorem agrees_iff : f.Agrees k b ↔ f.Has k (cname b) := by
  constructor
  · rintro ⟨h₁, h₂, h₃⟩
    exact ⟨h₁, h₂, by rw [← cname_slot]; exact (sameName_iff.1 h₃).symm⟩
  · rintro ⟨h₁, h₂, h₃⟩
    exact ⟨h₁, h₂, sameName_iff.2 (by rw [cname_slot, h₃])⟩

theorem distinct_iff : f.Distinct ↔ ∀ j k name, f.Has j name → f.Has k name → j = k := by
  constructor
  · intro h j k name hj hk
    refine h j k hj.lt hk.lt hj.live hk.live (sameName_iff.2 ?_)
    rw [cname_slot, cname_slot, hj.name, hk.name]
  · intro h j k hj hk hlj hlk hs
    rw [sameName_iff, cname_slot, cname_slot] at hs
    exact h j k _ ⟨hj, hlj, hs⟩ ⟨hk, hlk, rfl⟩

theorem find_some (h : f.find name = some k) : f.Has k name := by
  have hp := List.find?_some h
  have hm := List.mem_range.1 (List.mem_of_find?_eq_some h)
  simp only [Bool.and_eq_true, bne_iff_ne, ne_eq, beq_iff_eq] at hp
  exact ⟨hm, hp.1, hp.2⟩

theorem find_none (h : f.find name = none) (hk : f.Has k name) : False := by
  have := List.find?_eq_none.1 h k (List.mem_range.2 hk.lt)
  simp [hk.live, hk.name] at this

theorem find_iff (hf : f.Distinct) : f.find name = some k ↔ f.Has k name := by
  refine ⟨find_some, fun hk => ?_⟩
  cases hfind : f.find name with
  | none => exact (find_none hfind hk).elim
  | some j => rw [distinct_iff.1 hf j k name (find_some hfind) hk]

theorem has_setSlot (hfree : f.Free k) (hw : direntSize ∣ f.size) (hname : NameOk name) (hpos : inum ≠ 0) (hlt : inum < 2 ^ 16) :
    (f.setSlot k ⟨inum, name⟩).Has j name' ↔ (j = k ∧ name' = name) ∨ f.Has j name' := by
  have hs : direntSize = 16 := rfl
  have hn : (f.setSlot k ⟨inum, name⟩).nslots = max f.nslots (k + 1) := nslots_setSlot
  have hsz : f.nslots = f.size / direntSize := rfl
  have hslot : (f.setSlot k ⟨inum, name⟩).slot k = ⟨inum, name⟩ := slot_setSlot_self hname hlt
  rw [hs] at hw hsz
  obtain rfl | hne := eq_or_ne j k
  · constructor
    · intro h
      have hnm := h.name
      rw [hslot] at hnm
      exact .inl ⟨rfl, hnm.symm⟩
    · rintro (⟨-, rfl⟩ | h)
      · exact ⟨by omega, by rw [hslot]; exact hpos, by rw [hslot]⟩
      · exfalso
        have hl := h.lt
        rcases hfree with ⟨_, hz⟩ | hend
        · exact h.live hz
        · rw [hs] at hend
          omega
  · have hsame : (f.setSlot k ⟨inum, name⟩).slot j = f.slot j := slot_setSlot_ne hne
    constructor
    · rintro ⟨h₁, h₂, h₃⟩
      rw [hsame] at h₂ h₃
      refine .inr ⟨?_, h₂, h₃⟩
      rcases hfree with ⟨hk, _⟩ | hend
      · omega
      · rw [hs] at hend
        omega
    · rintro (⟨h, _⟩ | ⟨h₁, h₂, h₃⟩)
      · exact absurd h hne
      · exact ⟨by omega, by rw [hsame]; exact h₂, by rw [hsame]; exact h₃⟩

theorem distinct_setSlot (hf : f.Distinct) (hfree : f.Free k) (hw : direntSize ∣ f.size) (hname : NameOk name) (hpos : inum ≠ 0)
    (hlt : inum < 2 ^ 16) (hnew : ∀ j, ¬ f.Has j name) : (f.setSlot k ⟨inum, name⟩).Distinct := by
  refine distinct_iff.2 fun i j n hi hj => ?_
  rw [has_setSlot hfree hw hname hpos hlt] at hi hj
  rcases hi with ⟨rfl, rfl⟩ | hi <;> rcases hj with ⟨rfl, hn⟩ | hj
  · rfl
  · exact absurd hj (hnew j)
  · exact absurd (hn ▸ hi) (hnew i)
  · exact distinct_iff.1 hf i j n hi hj

theorem nameOk_cname (b : Bytes) : NameOk (cname b) := by
  refine ⟨?_, fun c hc => ?_⟩
  · refine Nat.le_trans (List.takeWhile_sublist _).length_le ?_
    rw [List.length_map, List.length_range]
  · have := List.mem_takeWhile_imp hc
    simpa using this

/-! ## `dirlookup` -/

theorem wp_iget {Q : Nat → Fs → Prop} {dev i : Nat}
    (hhit : ∀ e, s.find dev i = some e → Q e (s.setInode e { s.inode e with ref := (s.inode e).ref + 1 }))
    (hmiss : ∀ e, s.find dev i = none → s.empty = some e →
      Q e (s.setInode e { s.inode e with dev := dev, inum := i, ref := 1, valid := false }))
    (hfull : s.find dev i = none → s.empty = none → E (.panic .igetFull) s) : wp (iget dev i) Q E s := by
  rw [iget, wp_bind, wp_get]
  cases hf : s.find dev i with
  | some e => exact hhit e hf
  | none =>
      cases he : s.empty with
      | some e => exact hmiss e hf he
      | none => exact hfull hf he

theorem wp_dirlookupFrom {K : Nat} {Q : Option (Nat × Nat) → Fs → Prop} (h : Inv X [] s) (he : Entry s e i f)
    (hw : direntSize ∣ f.size) (hK : slotsFrom f.size (direntSize * k) = K) (hn : k + K = f.nslots)
    (hnone : (List.range' k K).find? (fun j => (f.slot j).inum != 0 && (f.slot j).name == name) = none → Q none s)
    (hsome : ∀ j, (List.range' k K).find? (fun j => (f.slot j).inum != 0 && (f.slot j).name == name) = some j →
      wp (iget rootDev (f.slot j).inum) (fun e' t => Q (some (e', direntSize * j)) t) E s) :
    wp (dirlookupFrom e name K (direntSize * k)) Q E s := by
  induction K generalizing k with
  | zero => exact hnone rfl
  | succ K ih =>
      obtain ⟨hlt, hK'⟩ := slotsFrom_succ hK
      rw [List.range'_succ] at hnone hsome
      rw [dirlookupFrom, wp_bind]
      refine readSlot h he hlt (fun b hk hb => ?_) fun r b hr hdvd => absurd hw hdvd
      simp only [ne_eq, not_true_eq_false, if_false, hb]
      refine wp_ite (fun hc => ?_) fun hc => ?_
      · have hp : ((f.slot k).inum != 0 && (f.slot k).name == name) = true := by simp [hc.1, hc.2]
        rw [wp_bind]
        exact hsome k (List.find?_cons_of_pos hp)
      · have hp : ¬ ((f.slot k).inum != 0 && (f.slot k).name == name) = true := by
          simp only [Bool.and_eq_true, bne_iff_ne, ne_eq, beq_iff_eq]
          exact fun ⟨h₁, h₂⟩ => hc ⟨h₁, h₂.symm⟩
        have hfind := List.find?_cons_of_neg (l := List.range' (k + 1) K)
          (p := fun j => (f.slot j).inum != 0 && (f.slot j).name == name) hp
        rw [hfind] at hnone hsome
        exact ih hK' (by omega) hnone hsome

theorem slotsFrom_whole (hw : direntSize ∣ f.size) : slotsFrom f.size 0 = f.nslots := by
  have hs : direntSize = 16 := rfl
  rw [hs] at hw
  show (f.size - 0 + (16 - 1)) / 16 = f.size / 16
  omega

theorem wp_dirlookup {Q : Option (Nat × Nat) → Fs → Prop} (h : Inv X [] s) (he : Entry s e i f) (ht : f.type = tDir)
    (hw : direntSize ∣ f.size) (hnone : f.find name = none → Q none s)
    (hsome : ∀ j, f.find name = some j → wp (iget rootDev (f.slot j).inum) (fun e' t => Q (some (e', direntSize * j)) t) E s) :
    wp (dirlookup e name) Q E s := by
  have hfile := he.fileOf h.table
  have htype : (s.inode e).d.type = f.type := by rw [← hfile]; rfl
  have hsize : (s.inode e).d.size = f.size := by rw [← hfile]; rfl
  rw [FileView.find, List.range_eq_range'] at hnone hsome
  rw [dirlookup, wp_bind, wp_get, if_neg (by rw [htype, ht]; simp), hsize, slotsFrom_whole hw]
  exact wp_dirlookupFrom (k := 0) h he hw (by rw [Nat.mul_zero]; exact slotsFrom_whole hw) (Nat.zero_add _) hnone hsome

/-- `dirlookup` reads the map. -/
theorem dirlookup_yields (h : Inv X [] s) (he : Entry s e i f) (ht : f.type = tDir) (hw : direntSize ∣ f.size) (b : Bytes) :
    Yields (Raw.dirlookup e b) s (f.lookup b) := by
  rw [dirlookup_raw, FileView.lookup]
  cases hfind : f.find (cname b) with
  | none =>
      have hret : wp (dirlookup e (cname b)) (fun r t => r = none ∧ t = s) (fun _ _ => False) s :=
        wp_dirlookup h he ht hw (fun _ => ⟨rfl, rfl⟩) fun j hj => by rw [hfind] at hj; cases hj
      obtain ⟨_, _, hm, rfl, rfl⟩ := wp_returns hret
      exact hm
  | some k =>
      show _ ∨ _
      have hret : wp (dirlookup e (cname b)) (fun r t => ∃ e', r = some (e', direntSize * k) ∧ (t.inode e').dev = rootDev ∧
          (t.inode e').inum = (f.slot k).inum ∧ 0 < (t.inode e').ref ∧ t.blk = s.blk ∧
          ∀ e'', 0 < (s.inode e'').ref → (t.inode e'').d = (s.inode e'').d)
          (fun x t => x = .panic .igetFull ∧ t = s ∧ s.find rootDev (f.slot k).inum = none ∧ s.empty = none) s := by
        refine wp_dirlookup h he ht hw (fun hn => by rw [hfind] at hn; cases hn) fun j hj => ?_
        obtain rfl : k = j := Option.some.inj (hfind.symm.trans hj)
        refine wp_iget (fun e' he' => ?_) (fun e' _ he' => ?_) fun h₁ h₂ => ⟨rfl, rfl, h₁, h₂⟩
        · have hp := List.find?_some he'
          simp only [Bool.and_eq_true, decide_eq_true_eq, beq_iff_eq] at hp
          refine ⟨e', rfl, ?_, ?_, ?_, rfl, fun e'' _ => ?_⟩
          · rw [setInode_self]
            exact hp.1.2
          · rw [setInode_self]
            exact hp.2
          · rw [setInode_self]
            exact Nat.succ_pos _
          · obtain rfl | hne := eq_or_ne e'' e'
            · rw [setInode_self]
            · rw [setInode_ne hne]
        · refine ⟨e', rfl, ?_, ?_, ?_, rfl, fun e'' hpos => ?_⟩
          · rw [setInode_self]
          · rw [setInode_self]
          · rw [setInode_self]
            exact Nat.one_pos
          · have hne : e'' ≠ e' := by
              rintro rfl
              have := (empty_spec he').2
              omega
            rw [setInode_ne hne]
      cases hm : dirlookup e (cname b) s with
      | ok r t =>
          obtain ⟨e', rfl, hrest⟩ := wp_ok hret hm
          exact .inl ⟨e', t, rfl, hrest⟩
      | error x t =>
          obtain ⟨rfl, rfl, hrest⟩ := wp_error hret hm
          exact .inr ⟨rfl, hrest⟩

/-! ## `dirlink` -/

theorem Inv.setUnused {x : Inode} (h : Inv X [] s) (hfree : (s.inode e).ref = 0) (hx : x.ref = 0) :
    Inv X [] (s.setInode e x) ∧ Same s (s.setInode e x) ∧ Keep All s (s.setInode e x) := by
  have hno : ∀ j, ¬ (s.setInode e x).At e j := fun j he' => by
    have := (at_setInode_self.1 he').2.1
    omega
  have hno' : ∀ j, ¬ s.At e j := fun j he' => by
    have := he'.ref
    omega
  have hold : ∀ e' j, (s.setInode e x).At e' j → s.At e' j ∧ (s.setInode e x).inode e' = s.inode e' := fun e' j he' => by
    have hne : e' ≠ e := by
      rintro rfl
      exact hno j he'
    exact ⟨(at_setInode_ne hne).1 he', setInode_ne hne⟩
  have htable : TableOk X (s.setInode e x) := by
    refine ⟨fun e₁ e₂ j h₁ h₂ => h.table.uniq e₁ e₂ j (hold e₁ j h₁).1 (hold e₂ j h₂).1, fun e₁ j h₁ => ?_,
      fun e₁ j h₁ => h.table.pos e₁ j (hold e₁ j h₁).1, fun e₁ j h₁ => ?_, fun e₁ j h₁ => ?_, fun e₁ j h₁ => ?_⟩
    · rw [(hold e₁ j h₁).2]
      exact h.table.range e₁ j (hold e₁ j h₁).1
    · rw [(hold e₁ j h₁).2]
      exact h.table.wf e₁ j (hold e₁ j h₁).1
    · rw [(hold e₁ j h₁).2]
      exact h.table.clean e₁ j (hold e₁ j h₁).1
    · rw [(hold e₁ j h₁).2]
      exact h.table.typed e₁ j (hold e₁ j h₁).1
  have hsame : Same s (s.setInode e x) := same_setInode fun j _ => (node_setInode_ne h.table htable (hno' j) (hno j)).1
  refine ⟨hsame.inv h htable, hsame, rfl, rfl, fun e' j _ he' => ?_⟩
  have hne : e' ≠ e := by
    rintro rfl
    exact hno' j he'
  rw [setInode_ne hne]
  exact ⟨(at_setInode_ne hne).2 he', id⟩

/-- A reference that has just been taken is dropped again. -/
theorem wp_iget_iput {Q : Unit → Fs → Prop} {dev i : Nat} (hback : Q () s)
    (hmiss : ∀ e x, (s.inode e).ref = 0 → x.ref = 0 → Q () (s.setInode e x)) :
    wp (iget dev i) (fun e t => wp (iput e) Q (fun _ _ => True) t) (fun _ _ => True) s := by
  refine wp_iget (fun e he => ?_) (fun e _ he => ?_) fun _ _ => trivial
  · have hp := List.find?_some he
    simp only [Bool.and_eq_true, decide_eq_true_eq] at hp
    simp only [iput, wp_bind, wp_get, setInode_self]
    rw [if_neg (by omega)]
    simp only [wp_modify, setInode_self, setInode_setInode, Nat.add_sub_cancel]
    have hself : s.setInode e (s.inode e) = s := by simp only [Fs.setInode, update_eq_self]
    rw [hself]
    exact hback
  · simp only [iput, wp_bind, wp_get, setInode_self, Bool.false_eq_true, false_and, and_false, if_false, wp_modify,
      setInode_setInode]
    exact hmiss e _ (empty_spec he).2 rfl

/-- `dirlink` keeps the files, or puts the entry into the directory. -/
theorem dirlink_wp (h : Ok s) (he : Entry s e i f) (ht : f.type = tDir) (hw : direntSize ∣ f.size) (htrans : s.trans = true) :
    wp (dirlink e name inum) (fun r t => Ok t ∧ Keep All s t ∧ ((r = false ∧ t.file = s.file) ∨
      (r = true ∧ ∃ k, f.Free k ∧ f.find name = none ∧ t.file = Function.update s.file i (some (f.setSlot k ⟨inum, name⟩)))))
      (fun _ _ => True) s := by
  have hsize : (s.inode e).d.size = f.size := by rw [← he.fileOf h.table]; rfl
  rw [dirlink, wp_bind]
  refine wp_dirlookup h he ht hw (fun hnone => ?_) fun j _ => ?_
  · simp only [wp_bind, wp_get, hsize]
    have hfrom : Spec False All 0 (dirlinkFrom e (slotsFrom f.size 0) 0) _ s :=
      dirlinkFrom_spec (k := 0) h he (Or.inl hw) rfl (Nat.zero_le _)
    refine wp_mono hfrom ?_ fun _ _ _ => trivial
    rintro _ t ⟨⟨rfl, k, rfl, hk⟩, _⟩
    have hwrite : Spec False All (2 * touched (direntSize * k) direntSize)
        (writei e (fun x => some (putDirent ⟨inum, name⟩ x)) (direntSize * k) direntSize) _ t :=
      writei_ok h he htrans (fun _ _ => trivial) trivial
    refine wp_mono hwrite ?_ fun _ _ _ => trivial
    rintro r u ⟨⟨rfl, rfl, _⟩ | ⟨tot, rfl, hok⟩, _⟩
    · exact ⟨h, Keep.refl _ _, Or.inl ⟨rfl, rfl⟩⟩
    · obtain ⟨f', h₄, h₅, rfl | ⟨rfl, hoff⟩⟩ := hok.oneBlock he (fun _ => rfl) (slot_block k)
      · refine ⟨hok.inv, hok.keep, Or.inr ⟨by decide, k, hk, hnone, ?_⟩⟩
        rw [h₄, h₅.setSlot]
      · refine ⟨hok.inv, hok.keep, Or.inl ⟨by decide, ?_⟩⟩
        rw [h₄, h₅.none (Nat.le_of_eq hoff), ← he.file, update_eq_self]
  · refine wp_post (wp_iget_iput (Q := fun _ t => Ok t ∧ Keep All s t ∧ t.file = s.file) ⟨h, Keep.refl _ _, rfl⟩ ?_) ?_
    · intro e' x hfree hx
      obtain ⟨h₁, h₂, h₃⟩ := h.setUnused hfree hx
      exact ⟨h₁, h₃, h₂.file⟩
    · intro e' t hput
      rw [wp_bind]
      refine wp_post hput ?_
      rintro _ u ⟨h₁, h₂, h₃⟩
      exact ⟨h₁, h₂, Or.inl ⟨rfl, h₃⟩⟩

end Xv6.Fs
