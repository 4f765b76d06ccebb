import Mathlib.Data.List.GetD
import Xv6.Mkfs.Lemmas.Image

/-!
# The input files

The files of the image after each input file, and what `main` ends with.
-/

namespace Xv6.Mkfs

open Lib Fs Function

variable {m m' : Image} {inum i j b c k n : Nat} {F : Files} {f : FileView} {es : List Dirent} {de : Dirent} {name : Name}

/-! ## Directories and files as `mkfs` makes them -/

/-- A directory with the entries `es`. -/
def dirOf (es : List Dirent) : FileView := es.foldl (fun f de => f.setSlot f.nslots de) (newFile tDir 0 0)

/-- A file with the bytes `data`. -/
def dataFile (data : List Byte) : FileView := ⟨tFile, 0, 0, 1, data.length, fun x => data.getD x 0⟩

theorem dirOf_append (es : List Dirent) (de : Dirent) : dirOf (es ++ [de]) = (dirOf es).setSlot (dirOf es).nslots de := by
  rw [dirOf, List.foldl_append]
  rfl

theorem size_dirOf (es : List Dirent) : (dirOf es).size = direntSize * es.length := by
  induction es using List.reverseRecOn with
  | nil => rfl
  | append_singleton es de ih =>
      rw [dirOf_append, List.length_append]
      show max (dirOf es).size (16 * ((dirOf es).size / 16) + 16) = 16 * (es.length + 1)
      rw [ih]
      show max (16 * es.length) (16 * (16 * es.length / 16) + 16) = _
      omega

theorem nslots_dirOf (es : List Dirent) : (dirOf es).nslots = es.length := by
  show (dirOf es).size / 16 = _
  rw [size_dirOf]
  show 16 * es.length / 16 = _
  omega

theorem type_dirOf (es : List Dirent) : (dirOf es).type = tDir := by
  induction es using List.reverseRecOn with
  | nil => rfl
  | append_singleton es de ih =>
      rw [dirOf_append]
      exact ih

/-- An entry that a directory can hold. -/
def EntryOk (de : Dirent) : Prop := NameOk de.name ∧ de.inum < 2 ^ 16 ∧ de.inum ≠ 0

theorem slot_dirOf (h : ∀ de ∈ es, EntryOk de) (hk : k < es.length) : (dirOf es).slot k = es.get ⟨k, hk⟩ := by
  induction es using List.reverseRecOn with
  | nil => exact absurd hk (Nat.not_lt_zero _)
  | append_singleton es de ih =>
      rw [dirOf_append, nslots_dirOf]
      have hde := h de (by simp)
      by_cases hlt : k < es.length
      · rw [slot_setSlot_ne (by omega), ih (fun d hd => h d (by simp [hd])) hlt]
        simp [List.getElem_append_left hlt]
      · have hlen : k = es.length := by
          simp only [List.length_append, List.length_singleton] at hk
          omega
        subst hlen
        rw [slot_setSlot_self hde.1 hde.2.1]
        simp

/-! ## `ialloc` -/

/-- What `ialloc` leaves. -/
structure Allocated (type : Nat) (m : Image) (F : Files) (m' : Image) : Prop where
  new : F m.freeinode = none
  built : Built m' (update F m.freeinode (some (newFile type 0 0)))
  tidy : m'.TidyAt m.freeinode
  disk : ∀ j, j ≠ m.freeinode → j < superBlock.ninodes → m'.fs.disk j = m.fs.disk j
  others : ∀ j, j ≠ m.freeinode → j < superBlock.ninodes → (m.fs.disk j).type ≠ 0 → m.TidyAt j → m'.TidyAt j
  freeblock : m'.freeblock = m.freeblock
  freeinode : m'.freeinode = m.freeinode + 1

theorem ialloc_spec {type : Nat} (h : Built m F) (hlt : m.freeinode < nInodes) (ht : type ≠ 0) (ht' : type < 2 ^ 16) :
    wp (ialloc type) (fun r m' => r = m.freeinode ∧ Allocated type m F m') (fun _ _ => False) m := by
  have hk := consts
  have hlt' : m.freeinode < superBlock.ninodes := by omega
  have hib := iblock_bound hlt'
  have hmeta := h.metadata
  simp only [ialloc, winode, rsect, wsect, wp_bind, wp_get, wp_set, wp_pure, wp_modify, true_and]
  generalize hm : ({ blk := update m.blk (superBlock.iblock m.freeinode) (putDinode (m.blk (superBlock.iblock m.freeinode))
    (ipos m.freeinode) ⟨type, 0, 0, 1, 0, fun _ => 0⟩), freeinode := m.freeinode + 1, freeblock := m.freeblock } : Image) = m'
  have hwf : Dinode.Wf ⟨type, 0, 0, 1, 0, fun _ => 0⟩ :=
    ⟨ht', Nat.two_pow_pos 16, Nat.two_pow_pos 16, show 1 < 2 ^ 16 by decide, Nat.two_pow_pos 32, fun _ => Nat.two_pow_pos 32,
      fun _ _ => rfl⟩
  have hfree : m.fs.disk m.freeinode = blank := h.free _ (Or.inr (Nat.le_refl _)) hlt
  have hblk : m'.fs.blk = (m.fs.setBlk (superBlock.iblock m.freeinode) (putDinode (m.fs.blk (superBlock.iblock m.freeinode))
      (ipos m.freeinode) ⟨type, 0, 0, 1, 0, fun _ => 0⟩)).blk := by
    subst hm
    show update (update m.blk _ _) _ _ = update (update m.blk _ _) _ _
    rw [update_comm (show superBlock.iblock m.freeinode ≠ superBlock.bmapstart by omega)]
    have hsame : m.fs.blk (superBlock.iblock m.freeinode) = m.blk (superBlock.iblock m.freeinode) :=
      update_of_ne (by omega) ..
    rw [hsame]
  obtain ⟨h₁, h₂, _, h₄⟩ := h.ok.newInode (u := m'.fs) (d := ⟨type, 0, 0, 1, 0, fun _ => 0⟩) hlt' (by rw [hfree]; rfl) ht rfl
    (fun _ => rfl) rfl rfl hblk (getDinode_putDinode hwf) fun x hx => putDinode_apply_of_ne hx
  have hnew : fileOf m'.fs.blk ⟨type, 0, 0, 1, 0, fun _ => 0⟩ = newFile type 0 0 := by
    simp only [fileOf, newFile, Nat.not_lt_zero, if_false]
  have hdisk : m'.fs.disk = update m.fs.disk m.freeinode ⟨type, 0, 0, 1, 0, fun _ => 0⟩ := by
    refine Eq.trans (funext fun j => ?_) (disk_setBlk_iblock (s := m.fs) (i := m.freeinode)
      (fun x hx => putDinode_apply_of_ne hx) (getDinode_putDinode hwf))
    simp only [Fs.disk, hblk]
    rfl
  have hblk' : ∀ c, c ≠ superBlock.iblock m.freeinode → m'.blk c = m.blk c := fun c hc => by
    subst hm
    exact update_of_ne hc ..
  have hfi : m'.freeinode = m.freeinode + 1 := by rw [← hm]
  have hfb : m'.freeblock = m.freeblock := by rw [← hm]
  refine ⟨by rw [← h.file]; exact h₁, ⟨h₂, ?_, fun c hc => ?_, by omega, fun i hi hN => ?_, by omega,
    (hblk' 1 (by omega)).trans h.super, (hblk' 0 (by omega)).trans h.boot⟩, ?_, fun j hj _ => by rw [hdisk, update_of_ne hj],
    fun j hj hN htj htidy => ?_, hfb, hfi⟩
  · rw [h₄, hnew, h.file]
  · rw [hblk' c (by omega)]
    exact h.zero c (by omega)
  · have hpos := h.pos
    rw [hdisk, update_of_ne (by omega)]
    exact h.free i (by omega) hN
  · rw [Image.TidyAt, hdisk, update_self]
    refine ⟨fun bn _ => ?_, fun _ => rfl, fun x _ hne => absurd ?_ hne⟩
    · simp only [addrOf, indirect, if_true]
      split <;> [rfl; (split <;> rfl)]
    · simp only [addrOf, indirect, if_true]
      split <;> [rfl; (split <;> rfl)]
  · have hdj : m'.fs.disk j = m.fs.disk j := by rw [hdisk, update_of_ne hj]
    rw [Image.TidyAt, hdj]
    refine htidy.congr rfl fun c hc hc0 => ?_
    rw [← node_fs m j] at hc htj
    have hdata := (h.ok.blocks.of_mem hN htj hc0 hc).1
    have hge : superBlock.dataStart ≤ c := hdata.1
    rw [hblk]
    exact update_of_ne (by omega) ..

/-! ## Entries and contents -/

theorem addEntry_spec (es : List Dirent) (h : Built m F) (hf : F rootIno = some (dirOf es)) (htidy : m.TidyAt rootIno) (hlen : es.length < 2 ^ 14)
    (hfit : m.freeblock + blocksFor (direntSize * (es.length + 1)) ≤ fsSize + blocksFor (direntSize * es.length)) :
    wp (addEntry inum name) (fun _ m' => Appended rootIno direntSize (putDirent ⟨inum, name⟩) m F (dirOf es) m'
      (dirOf (es ++ [⟨inum, name⟩]))) (fun _ _ => False) m := by
  have hsize : (dirOf es).size = 16 * es.length := size_dirOf es
  have hds : direntSize = 16 := rfl
  have hmax : maxFile * bsize = 274432 := rfl
  rw [addEntry]
  refine wp_post (iappend_spec h hf htidy (by omega) ?_) ?_
  · rw [hsize]
    exact hfit
  · rintro _ m' ⟨f', ha⟩
    have hw := ha.written
    rw [hsize] at hw
    have hf' := Written.setSlot hw
    rw [← nslots_dirOf es, ← dirOf_append] at hf'
    rw [← hf']
    exact ha

theorem getD_append_take {data done : List Byte} {x : Nat} :
    (done ++ data.take n).getD x 0 =
      if done.length ≤ x ∧ x < done.length + min n data.length then data.getD (x - done.length) 0 else done.getD x 0 := by
  by_cases hx : x < done.length
  · rw [if_neg (by omega), List.getD_append _ _ _ _ hx]
  · rw [List.getD_append_right _ _ _ _ (by omega)]
    by_cases hn : x - done.length < min n data.length
    · rw [if_pos (by omega)]
      simp only [List.getD_eq_getElem?_getD]
      rw [List.getElem?_take_of_lt (by omega)]
    · rw [if_neg (by omega), List.getD_eq_default _ _ (by rw [List.length_take]; omega), List.getD_eq_default _ _ (by omega)]

theorem copyFile_spec {data done : List Byte} (h : Built m F) (hf : F inum = some (dataFile done)) (htidy : m.TidyAt inum)
    (hk : data.length ≤ k) (hmax : done.length + data.length ≤ maxFile * bsize)
    (hfit : m.freeblock + blocksFor (done.length + data.length) ≤ fsSize + blocksFor done.length) :
    wp (copyFile inum k data) (fun _ m' => Built m' (update F inum (some (dataFile (done ++ data)))) ∧
      (∀ j, j ≠ inum → j < superBlock.ninodes → m'.fs.disk j = m.fs.disk j) ∧
      (∀ j, j ≠ inum → j < superBlock.ninodes → (m.fs.disk j).type ≠ 0 → m.TidyAt j → m'.TidyAt j) ∧
      m'.freeblock + blocksFor done.length = m.freeblock + blocksFor (done.length + data.length) ∧
      m'.freeinode = m.freeinode) (fun _ _ => False) m := by
  induction k generalizing m F done data with
  | zero =>
      obtain rfl : data = [] := List.eq_nil_of_length_eq_zero (by omega)
      refine ⟨?_, fun _ _ _ => rfl, fun _ _ _ _ h => h, rfl, rfl⟩
      rw [List.append_nil, ← hf, update_eq_self]
      exact h
  | succ k ih =>
      rw [copyFile]
      refine wp_ite (fun hnil => ?_) fun hne => ?_
      · obtain rfl : data = [] := List.isEmpty_iff.1 hnil
        refine ⟨?_, fun _ _ _ => rfl, fun _ _ _ _ h => h, rfl, rfl⟩
        rw [List.append_nil, ← hf, update_eq_self]
        exact h
      · have hb : bsize = 1024 := rfl
        have hpos : 0 < data.length := List.length_pos_iff.2 fun h => hne (by rw [h]; rfl)
        have hmono := blocksFor_mono (show done.length + min data.length bsize ≤ done.length + data.length by omega)
        rw [wp_bind]
        refine wp_post (iappend_spec (n := min data.length bsize) h hf htidy (show done.length + _ ≤ _ by omega)
          (show _ + blocksFor (done.length + _) ≤ _ + blocksFor done.length by omega)) ?_
        rintro _ m' ⟨f', ha⟩
        have hf' : f' = dataFile (done ++ data.take bsize) := by
          have hw := ha.written
          have hbyte : f'.byte = (dataFile (done ++ data.take bsize)).byte := by
            funext x
            rw [hw.byte, hw.size]
            show (if done.length ≤ x ∧ _ ∧ x < max done.length _ then _ else done.getD x 0) = (done ++ data.take bsize).getD x 0
            rw [getD_append_take]
            refine if_congr ?_ rfl rfl
            show done.length ≤ x ∧ x < done.length + _ ∧ x < max done.length (done.length + _) ↔ _
            omega
          have hsize : f'.size = (dataFile (done ++ data.take bsize)).size := by
            rw [hw.size]
            show max done.length (done.length + _) = (done ++ data.take bsize).length
            rw [List.length_append, List.length_take]
            omega
          cases f'
          simp only [dataFile, FileView.mk.injEq] at hbyte hsize ⊢
          exact ⟨hw.type, hw.major, hw.minor, hw.nlink, hsize, hbyte⟩
        subst hf'
        have hlen : (done ++ data.take bsize).length + (data.drop bsize).length = done.length + data.length := by
          rw [List.length_append, List.length_take, List.length_drop]
          omega
        have hlen' : (done ++ data.take bsize).length = done.length + min data.length bsize := by
          rw [List.length_append, List.length_take]
          omega
        have hblocks : m'.freeblock + blocksFor done.length = m.freeblock + blocksFor (done.length + min data.length bsize) :=
          ha.blocks
        refine wp_post (ih ha.built (update_self ..) ha.tidy
          (by rw [List.length_drop]; omega) (by omega) (by rw [hlen, hlen']; omega)) ?_
        rintro _ m'' ⟨h₁, h₂, h₃, h₄, h₅⟩
        refine ⟨?_, fun j hj hN => (h₂ j hj hN).trans (ha.disk j hj hN), fun j hj hN htj ht => ?_, ?_, h₅.trans ha.freeinode⟩
        · rw [update_idem, List.append_assoc, List.take_append_drop] at h₁
          exact h₁
        · exact h₃ j hj hN (by rw [ha.disk j hj hN]; exact htj) (ha.others j hj hN htj ht)
        · rw [hlen, hlen'] at h₄
          omega

/-! ## All files -/

section

variable {files rest : List (List Byte × List Byte)} {a : List Byte × List Byte}

/-- The files of the image: inode `k + 2` is the `k`-th input file. -/
def filesOf (files : List (List Byte × List Byte)) : Files := fun i =>
  if i = rootIno then some (dirOf (rootEntries files)) else if 2 ≤ i then (files[i - 2]?).map fun f => dataFile f.2 else none

/-- The image after the input files `files`. -/
structure Progress (m : Image) (files : List (List Byte × List Byte)) : Prop where
  built : Built m (filesOf files)
  tidy : m.TidyAt rootIno
  freeinode : m.freeinode = files.length + 2
  freeblock : m.freeblock = nmeta + blocksOf files

theorem length_rootEntries : (rootEntries files).length = files.length + 2 := by
  rw [rootEntries, List.length_append, List.length_mapIdx]
  exact Nat.add_comm ..

theorem rootEntries_append : rootEntries (files ++ [a]) = rootEntries files ++ [⟨files.length + 2, shortname a.1⟩] := by
  rw [rootEntries, rootEntries, List.mapIdx_append]
  simp

theorem blocksOf_append (files : List (List Byte × List Byte)) (a : List Byte × List Byte) : blocksOf (files ++ [a]) + blocksFor (direntSize * (files.length + 2)) =
    blocksOf files + blocksFor (direntSize * (files.length + 3)) + blocksFor a.2.length := by
  simp only [blocksOf, List.length_append, List.map_append, List.sum_append, List.length_singleton, List.map_cons, List.map_nil,
    List.sum_cons, List.sum_nil]
  have : files.length + 1 + 2 = files.length + 3 := rfl
  rw [this]
  omega

theorem blocksOf_mono : blocksOf files ≤ blocksOf (files ++ rest) := by
  have hmono := blocksFor_mono (show direntSize * (files.length + 2) ≤ direntSize * ((files ++ rest).length + 2) by
    rw [List.length_append]
    exact Nat.mul_le_mul_left _ (by omega))
  simp only [blocksOf, List.map_append, List.sum_append]
  omega

theorem Fits.of_append (h : Fits (files ++ rest)) : Fits files where
  inodes := by
    have := h.inodes
    rw [List.length_append] at this
    omega
  blocks := Nat.le_trans (Nat.add_le_add_left blocksOf_mono _) h.blocks
  size := fun f hf => h.size f (List.mem_append_left _ hf)

theorem filesOf_append : filesOf (files ++ [a]) = update (update (filesOf files) (files.length + 2)
    (some (dataFile a.2))) rootIno (some (dirOf (rootEntries (files ++ [a])))) := by
  funext i
  obtain rfl | hroot := eq_or_ne i rootIno
  · rw [update_self, filesOf, if_pos rfl]
  · rw [update_of_ne hroot, filesOf, if_neg hroot]
    obtain rfl | hlast := eq_or_ne i (files.length + 2)
    · rw [update_self, if_pos (by omega), Nat.add_sub_cancel, List.getElem?_append_right (Nat.le_refl _)]
      simp
    · rw [update_of_ne hlast, filesOf, if_neg hroot]
      split
      · rename_i hge
        by_cases hlt : i - 2 < files.length
        · rw [List.getElem?_append_left hlt]
        · rw [List.getElem?_eq_none (by rw [List.length_append, List.length_singleton]; omega), List.getElem?_eq_none (by omega)]
      · rfl

theorem addFile_spec (h : Progress m files) (hfit : Fits (files ++ [a])) (harg : ArgOk a.1) :
    wp (addFile a.1 a.2) (fun _ m' => Progress m' (files ++ [a])) (fun _ _ => False) m := by
  have hk := consts
  have hinodes := hfit.inodes
  have hblocks := hfit.blocks
  have hroot : rootIno = 1 := rfl
  rw [List.length_append, List.length_singleton] at hinodes
  have hfi := h.freeinode
  have hfb := h.freeblock
  have hcount := blocksOf_append files a
  rw [addFile, if_neg harg.base, if_neg (Nat.not_lt.2 harg.short), wp_bind]
  refine wp_post (ialloc_spec h.built (by omega) (by decide) (by decide)) ?_
  rintro _ m₁ ⟨rfl, h₁⟩
  have hrootFile : filesOf files rootIno = some (dirOf (rootEntries files)) := if_pos rfl
  obtain ⟨hrlt, hrtype, _⟩ := h.built.lt hrootFile
  have hne : rootIno ≠ m.freeinode := by omega
  rw [wp_bind]
  refine wp_post (addEntry_spec (rootEntries files) h₁.built (by rw [update_of_ne hne]; exact hrootFile)
    (h₁.others _ hne hrlt hrtype h.tidy) (by rw [length_rootEntries]; omega) ?_) ?_
  · rw [length_rootEntries, h₁.freeblock]
    show _ + blocksFor (direntSize * (files.length + 3)) ≤ _
    omega
  intro _ m₂ h₂
  have hnew : (update (filesOf files) m.freeinode (some (newFile tFile 0 0))) m.freeinode =
      some (dataFile []) := by rw [update_self]; rfl
  obtain ⟨hnlt, hntype, _⟩ := h₁.built.lt hnew
  have hb₂ := h₂.blocks
  rw [size_dirOf, length_rootEntries, h₁.freeblock] at hb₂
  have hb₂' : m₂.freeblock + blocksFor (direntSize * (files.length + 2)) =
      m.freeblock + blocksFor (direntSize * (files.length + 3)) := hb₂
  have hzero : blocksFor 0 = 0 := by decide
  have hsize := hfit.size a (by simp)
  refine wp_post (copyFile_spec h₂.built (by rw [update_of_ne hne.symm]; exact hnew)
    (h₂.others _ hne.symm hnlt hntype h₁.tidy) (Nat.le_refl _) (by simpa using hsize) ?_) ?_
  · simp only [List.length_nil, Nat.zero_add, hzero]
    omega
  rintro _ m₃ ⟨h₃, hdisk, hothers, hb₃, hi₃⟩
  simp only [List.length_nil, Nat.zero_add, hzero, Nat.add_zero] at hb₃
  obtain ⟨_, hrtype₂, _⟩ := h₂.built.lt (update_self ..)
  refine ⟨?_, hothers _ hne hrlt hrtype₂ h₂.tidy, ?_, ?_⟩
  · rw [List.nil_append, update_comm hne, update_idem, hfi, ← rootEntries_append, ← filesOf_append] at h₃
    exact h₃
  · rw [hi₃, h₂.freeinode, h₁.freeinode, hfi, List.length_append, List.length_singleton]
  · omega

theorem addFiles_spec (h : Progress m files) (hfit : Fits (files ++ rest)) (harg : ∀ a ∈ rest, ArgOk a.1) :
    wp (addFiles rest) (fun _ m' => Progress m' (files ++ rest)) (fun _ _ => False) m := by
  induction rest generalizing m files with
  | nil =>
      rw [List.append_nil]
      exact h
  | cons a rest ih =>
      have hsplit : files ++ a :: rest = files ++ [a] ++ rest := by simp
      rw [hsplit] at hfit ⊢
      rw [addFiles, wp_bind]
      refine wp_post (addFile_spec h hfit.of_append (harg a (by simp))) fun _ m' h' => ?_
      exact ih h' hfit fun b hb => harg b (by simp [hb])

/-! ## The start of `main` -/

theorem getDinode_zero (k : Nat) : getDinode (fun _ => 0) k = blank := by
  simp only [getDinode, load_zero, ite_self, blank]

/-- The image of zeros with the super block. -/
def start : Image := Image.write ⟨fun _ _ => 0, 1, nmeta⟩ 1 (putSuper (fun _ => 0) superBlock)

theorem start_blk (hc : c ≠ 1) : start.blk c = fun _ => 0 := by
  rw [start, Image.write]
  exact update_of_ne hc ..

theorem built_start : Built start fun _ => none := by
  have hk := consts
  have hdisk : ∀ i, i < superBlock.ninodes → start.fs.disk i = blank := fun i hi => by
    have hib := iblock_bound hi
    have hblk : start.fs.blk (superBlock.iblock i) = fun _ => 0 :=
      (update_of_ne (by omega) ..).trans (start_blk (by omega))
    show getDinode (start.fs.blk (superBlock.iblock i)) _ = _
    rw [hblk]
    exact getDinode_zero _
  have hfree : ∀ i, i < superBlock.ninodes → (start.fs.node i).type = 0 := fun i hi => by
    rw [node_fs, hdisk i hi]
    rfl
  have hfb : start.freeblock = nmeta := rfl
  have hsb : start.fs.sb = superBlock := rfl
  refine ⟨⟨layout, table_fs start, ⟨fun b hb => ?_, fun b hb => ?_⟩, fun i hi ht => absurd (hfree i hi) ht⟩, funext fun i => ?_,
    fun c hc => start_blk (by omega), by omega, fun i _ hi => hdisk i (by omega), Nat.one_ne_zero, ?_, start_blk (by decide)⟩
  · have hcount : start.fs.slotCount b = 0 := Finset.sum_eq_zero fun i hi => if_pos (hfree i (Finset.mem_range.1 hi))
    rw [hcount, if_neg]
    · rfl
    · rintro ⟨hdata, hused⟩
      have hge : superBlock.dataStart ≤ b := hdata.1
      have hlt : b < superBlock.size := hdata.2
      rw [used_fs start (by omega)] at hused
      have := of_decide_eq_true hused
      omega
  · rw [hsb] at hb
    rw [used_fs start (by omega)]
    exact decide_eq_true (by omega)
  · rw [Fs.file, if_neg]
    exact fun h => h.2 (hfree i h.1)
  · simp only [start, Image.write, update_self]

theorem mkRoot_spec : wp mkRoot (fun _ m' => Progress m' []) (fun _ _ => False) start := by
  have hk := consts
  rw [mkRoot, wp_bind]
  refine wp_post (ialloc_spec built_start (by decide) (by decide) (by decide)) ?_
  rintro _ m₁ ⟨rfl, h₁⟩
  have hroot : start.freeinode = rootIno := rfl
  rw [hroot]
  simp only [ne_eq, not_true_eq_false, if_false, wp_bind]
  have hfb₁ : m₁.freeblock = nmeta := h₁.freeblock
  have hb₁ : blocksFor (direntSize * 1) = 1 ∧ blocksFor (direntSize * 0) = 0 ∧ blocksFor (direntSize * 2) = 1 := by decide
  refine wp_post (addEntry_spec [] h₁.built (update_self ..) h₁.tidy (by decide) ?_) fun _ m₂ h₂ => ?_
  · show m₁.freeblock + blocksFor (direntSize * 1) ≤ fsSize + blocksFor (direntSize * 0)
    omega
  have hfb₂ : m₂.freeblock + blocksFor (direntSize * 0) = m₁.freeblock + blocksFor (direntSize * 1) := h₂.blocks
  refine wp_post (addEntry_spec [⟨rootIno, dot⟩] h₂.built (update_self ..) h₂.tidy (by decide) ?_) fun _ m₃ h₃ => ?_
  · show m₂.freeblock + blocksFor (direntSize * 2) ≤ fsSize + blocksFor (direntSize * 1)
    omega
  have hfb₃ : m₃.freeblock + blocksFor (direntSize * 1) = m₂.freeblock + blocksFor (direntSize * 2) := h₃.blocks
  refine ⟨?_, h₃.tidy, ?_, ?_⟩
  · have hbuilt := h₃.built
    rw [update_idem, hroot, update_idem] at hbuilt
    have hF : filesOf [] = update (fun _ => none) rootIno (some (dirOf ([⟨rootIno, dot⟩] ++ [⟨rootIno, dotdot⟩]))) := by
      funext i
      obtain rfl | hne := eq_or_ne i rootIno
      · rw [update_self]
        rfl
      · rw [update_of_ne hne, filesOf, if_neg hne]
        split <;> rfl
    rw [hF]
    exact hbuilt
  · rw [h₃.freeinode, h₂.freeinode, h₁.freeinode]
    rfl
  · have hblocks : blocksOf [] = 1 := by decide
    omega

end

end Xv6.Mkfs
