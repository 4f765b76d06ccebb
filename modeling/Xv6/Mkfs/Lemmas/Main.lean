import Xv6.Mkfs.Lemmas.Files

/-!
# The end of `main`

The size of the root directory is rounded up to the next block, also when it fills its last block;
then the free map is written.
-/

namespace Xv6.Mkfs

open Lib Fs Function

variable {m m' : Image} {files : List (List Byte × List Byte)} {i b c k : Nat} {es : List Dirent} {f : FileView}

/-! ## The live entries of a directory -/

theorem liveEntries_dirOf (h : ∀ de ∈ es, EntryOk de) (hbyte : f.byte = (dirOf es).byte)
    (hzero : ∀ x, direntSize * es.length ≤ x → f.byte x = 0) (hsize : direntSize * es.length ≤ f.size) : liveEntries f = es := by
  have hn : es.length ≤ f.nslots := by
    have hsize' : 16 * es.length ≤ f.size := hsize
    show es.length ≤ f.size / 16
    omega
  have hslot : ∀ k, f.slot k = (dirOf es).slot k := fun k => by rw [FileView.slot, FileView.slot, hbyte]
  have hfirst : (List.range es.length).map f.slot = es := by
    refine List.ext_getElem (by rw [List.length_map, List.length_range]) fun k h₁ h₂ => ?_
    rw [List.getElem_map, List.getElem_range, hslot, slot_dirOf h h₂]
    rfl
  have hlast : ∀ k, (f.slot (es.length + k)).inum = 0 := fun k => by
    have hz : f.slot (es.length + k) = getDirent (fun _ => 0) 0 :=
      getDirent_congr fun x _ => hzero _ (Nat.le_add_right_of_le (Nat.mul_le_mul_left _ (Nat.le_add_right _ _)))
    rw [hz, getDirent_zero]
  rw [liveEntries, ← Nat.add_sub_of_le hn, List.range_add, List.map_append, List.filter_append, hfirst]
  have h₁ : es.filter (fun de => de.inum != 0) = es := List.filter_eq_self.2 fun de hde => by simpa using (h de hde).2.2
  have h₂ : ((List.map (fun x => es.length + x) (List.range (f.nslots - es.length))).map f.slot).filter
      (fun de => de.inum != 0) = [] := by
    refine List.filter_eq_nil_iff.2 fun de hde => ?_
    rw [List.map_map] at hde
    obtain ⟨k, _, rfl⟩ := List.mem_map.1 hde
    simp [hlast k]
  rw [h₁, h₂, List.append_nil]

theorem rootEntries_ok (hlen : files.length + 2 ≤ nInodes) (harg : ∀ a ∈ files, ArgOk a.1) :
    ∀ de ∈ rootEntries files, EntryOk de := by
  have hk := consts
  intro de hde
  rw [rootEntries] at hde
  rcases List.mem_append.1 hde with hde | hde
  · have hroot : rootIno = 1 := rfl
    simp only [List.mem_cons, List.not_mem_nil, or_false] at hde
    rcases hde with rfl | rfl
    · exact ⟨⟨by decide, by decide⟩, by decide, by decide⟩
    · exact ⟨⟨by decide, by decide⟩, by decide, by decide⟩
  · obtain ⟨k, hlt, rfl⟩ := List.mem_mapIdx.1 hde
    have ha := harg _ (List.getElem_mem hlt)
    refine ⟨⟨ha.short, fun c hc => ha.string c ?_⟩, by show k + 2 < 2 ^ 16; omega, Nat.succ_ne_zero _⟩
    -- the short name is a part of the argument
    have hbase : ∀ c ∈ baseName files[k].1, c ∈ files[k].1 := fun c hc => by
      rw [baseName] at hc
      split at hc
      · exact List.mem_of_mem_drop hc
      · exact hc
    refine hbase c ?_
    rw [shortname] at hc
    cases hb : baseName files[k].1 with
    | nil =>
        rw [hb] at hc
        exact hc
    | cons c' rest =>
        rw [hb] at hc
        simp only at hc
        split at hc
        · exact List.mem_cons_of_mem _ hc
        · exact hc

/-! ## The size of the root directory -/

/-- The inode of the root directory with its size rounded up. -/
def roundUp (d : Dinode) : Dinode := { d with size := (d.size / bsize + 1) * bsize }

/-- The image with the size of the root directory rounded up. -/
def Image.fixed (m : Image) : Image :=
  m.write (superBlock.iblock rootIno) (putDinode (m.blk (superBlock.iblock rootIno)) (ipos rootIno) (roundUp (m.fs.disk rootIno)))

namespace Progress

theorem root (h : Progress m files) : rootIno < superBlock.ninodes ∧ (m.fs.disk rootIno).type ≠ 0 ∧
    fileOf m.fs.blk (m.fs.disk rootIno) = dirOf (rootEntries files) := h.built.lt (if_pos rfl)

theorem size (h : Progress m files) : (m.fs.disk rootIno).size = direntSize * (files.length + 2) := by
  have hsize : (m.fs.disk rootIno).size = (dirOf (rootEntries files)).size := by rw [← h.root.2.2]; rfl
  rw [hsize, size_dirOf, length_rootEntries]

theorem blk_fixed (hc : c ≠ superBlock.iblock rootIno) : m.fixed.fs.blk c = m.fs.blk c := by
  show update (update m.blk _ _) _ _ c = update m.blk _ _ c
  simp only [update_apply, if_neg hc]
  rfl

theorem disk_fixed (h : Progress m files) (hlen : files.length + 2 ≤ nInodes) :
    m.fixed.fs.disk = update m.fs.disk rootIno (roundUp (m.fs.disk rootIno)) := by
  have hk := consts
  have hib := iblock_bound h.root.1
  have hwf := getDinode_wf (m.fs.blk (superBlock.iblock rootIno)) (ipos rootIno)
  have hsize : (roundUp (m.fs.disk rootIno)).size < 2 ^ 32 := by
    show ((m.fs.disk rootIno).size / 1024 + 1) * 1024 < 2 ^ 32
    rw [h.size]
    show (16 * (files.length + 2) / 1024 + 1) * 1024 < 2 ^ 32
    omega
  have hwf' : (roundUp (m.fs.disk rootIno)).Wf := ⟨hwf.type, hwf.major, hwf.minor, hwf.nlink, hsize, hwf.addrs, hwf.high⟩
  have hblk : m.fixed.fs.blk = (m.fs.setBlk (superBlock.iblock rootIno) (putDinode (m.fs.blk (superBlock.iblock rootIno))
      (ipos rootIno) (roundUp (m.fs.disk rootIno)))).blk := by
    rw [fs_blk m (by omega)]
    exact update_comm (show superBlock.iblock rootIno ≠ superBlock.bmapstart by omega) ..
  refine Eq.trans (funext fun j => ?_) (disk_setBlk_iblock (s := m.fs) (i := rootIno) (fun x hx => putDinode_apply_of_ne hx)
    (getDinode_putDinode hwf'))
  simp only [Fs.disk, hblk]
  rfl

theorem addrs_fixed (h : Progress m files) (hlen : files.length + 2 ≤ nInodes) (i : Nat) :
    (m.fixed.fs.disk i).addrs = (m.fs.disk i).addrs ∧ (m.fixed.fs.disk i).type = (m.fs.disk i).type := by
  rw [h.disk_fixed hlen]
  obtain rfl | hne := eq_or_ne i rootIno
  · rw [update_self]
    exact ⟨rfl, rfl⟩
  · rw [update_of_ne hne]
    exact ⟨rfl, rfl⟩

theorem taken (h : Progress m files) (hi : i < superBlock.ninodes) : (m.fs.disk i).type ≠ 0 ∨ m.fs.disk i = blank := by
  have hk := consts
  have hfi := h.freeinode
  have hroot : rootIno = 1 := rfl
  by_cases hfree : i = 0 ∨ m.freeinode ≤ i
  · exact Or.inr (h.built.free i hfree (by omega))
  · have hfile : ∃ f, filesOf files i = some f := by
      rw [filesOf]
      split
      · exact ⟨_, rfl⟩
      · rw [if_pos (by omega), List.getElem?_eq_getElem (show i - 2 < files.length by omega)]
        exact ⟨_, rfl⟩
    obtain ⟨f, hf⟩ := hfile
    exact Or.inl (h.built.lt hf).2.1

theorem mem (h : Progress m files) (hi : i < superBlock.ninodes) (hb : b ≠ 0)
    (hmem : b ∈ slots m.fs.blk (m.fs.disk i)) : superBlock.dataStart ≤ b ∧ b < m.freeblock ∧ m.fs.slotCount b = 1 := by
  have hk := consts
  have ht : (m.fs.disk i).type ≠ 0 := by
    refine (h.taken hi).resolve_right fun hblank => ?_
    rw [hblank] at hmem
    rcases mem_slots.1 hmem with ⟨k, _, hk⟩ | ⟨k, _, hk⟩
    · exact hb hk.symm
    · exact hb hk.symm
  rw [← node_fs] at hmem ht
  obtain ⟨hdata, hused, _⟩ := h.built.ok.blocks.of_mem hi ht hb hmem
  have hge : superBlock.dataStart ≤ b := hdata.1
  have hlt : b < superBlock.size := hdata.2
  have hown := h.built.ok.blocks.own b hb
  rw [if_pos ⟨hdata, hused⟩, List.count_nil, Nat.add_zero] at hown
  rw [used_fs m (by omega)] at hused
  exact ⟨hge, of_decide_eq_true hused, hown⟩

theorem blk_of_mem (h : Progress m files) (hi : i < superBlock.ninodes) (hb : b ≠ 0)
    (hmem : b ∈ slots m.fs.blk (m.fs.disk i)) : m.fixed.fs.blk b = m.fs.blk b := by
  have hk := consts
  have hib := iblock_bound h.root.1
  have hmem' := h.mem hi hb hmem
  exact blk_fixed (by omega)

theorem tbl_fixed (h : Progress m files) (hi : i < superBlock.ninodes) (x : Nat) :
    m.fixed.fs.blk ((m.fs.disk i).addrs ndirect) x = m.fs.blk ((m.fs.disk i).addrs ndirect) x ∨
      (m.fs.disk i).addrs ndirect = 0 := by
  by_cases hz : (m.fs.disk i).addrs ndirect = 0
  · exact Or.inr hz
  · have hmem : (m.fs.disk i).addrs ndirect ∈ slots m.fs.blk (m.fs.disk i) := mem_slots_addrs (Nat.lt_succ_self _)
    exact Or.inl (congrFun (h.blk_of_mem hi hz hmem) x)

theorem slots_fixed (h : Progress m files) (hlen : files.length + 2 ≤ nInodes) (hi : i < superBlock.ninodes) :
    slots m.fixed.fs.blk (m.fixed.fs.disk i) = slots m.fs.blk (m.fs.disk i) := by
  rw [slots_of_addrs (h.addrs_fixed hlen i).1]
  exact slots_congr fun x _ => h.tbl_fixed hi x

theorem addrOf_fixed (h : Progress m files) (bn : Nat) (hlen : files.length + 2 ≤ nInodes) (hi : i < superBlock.ninodes) :
    addrOf m.fixed.fs.blk (m.fixed.fs.disk i) bn = addrOf m.fs.blk (m.fs.disk i) bn := by
  rw [addrOf_of_addrs (h.addrs_fixed hlen i).1]
  exact addrOf_congr fun x _ => h.tbl_fixed hi x

theorem slotCount_fixed (h : Progress m files) (hlen : files.length + 2 ≤ nInodes) (b : Nat) :
    m.fixed.fs.slotCount b = m.fs.slotCount b := by
  refine slotCount_congr (s := m.fs) (t := m.fixed.fs) rfl fun i hi => ?_
  simp only [Fs.slotsAt, node_fs, (h.addrs_fixed hlen i).2, h.slots_fixed hlen hi]

/-- A hole appears when the entries fill the last block of the root directory. -/
theorem noHole_fixed (h : Progress m files) (hlen : files.length + 2 ≤ nInodes) :
    (∀ i, i < superBlock.ninodes → NoHole m.fixed.fs.blk (m.fixed.fs.disk i)) ↔ (files.length + 2) % 64 ≠ 0 := by
  have hk := consts
  have hsize : (m.fs.disk rootIno).size = 16 * (files.length + 2) := h.size
  have hround : (m.fixed.fs.disk rootIno).size = (16 * (files.length + 2) / 1024 + 1) * 1024 := by
    rw [h.disk_fixed hlen, update_self]
    show ((m.fs.disk rootIno).size / 1024 + 1) * 1024 = _
    rw [hsize]
  have hN : ∀ i, i < superBlock.ninodes → NoHole m.fs.blk (m.fs.disk i) := fun i hi bn hbn => by
    rcases h.taken hi with ht | hblank
    · have := h.built.ok.blocks.noHole i hi (by rw [node_fs]; exact ht)
      rw [node_fs] at this
      exact this bn hbn
    · rw [hblank] at hbn
      exact absurd hbn (Nat.not_lt_zero _)
  constructor
  · intro hall hmod
    refine hall rootIno h.root.1 (16 * (files.length + 2) / 1024) ?_ ?_
    · show _ * 1024 < _
      rw [hround]
      omega
    · rw [h.addrOf_fixed _ hlen h.root.1]
      refine h.tidy.tight _ ?_
      rw [hsize]
      show _ ≤ _ * 1024
      omega
  · intro hmod i hi bn hbn
    rw [h.addrOf_fixed _ hlen hi]
    refine hN i hi bn ?_
    obtain rfl | hne := eq_or_ne i rootIno
    · have hbn' : bn * 1024 < (m.fixed.fs.disk rootIno).size := hbn
      rw [hround] at hbn'
      show bn * 1024 < _
      rw [hsize]
      omega
    · rw [h.disk_fixed hlen, update_of_ne hne] at hbn
      exact hbn

/-- The entries of the root directory; what follows them is zero. -/
theorem root_fixed (h : Progress m files) (hlen : files.length + 2 ≤ nInodes) (harg : ∀ a ∈ files, ArgOk a.1) :
    ∃ f, m.fixed.fs.file rootIno = some f ∧ f.type = tDir ∧ liveEntries f = rootEntries files := by
  have hk := consts
  obtain ⟨hlt, htype, hfile⟩ := h.root
  have hib := iblock_bound hlt
  have hself : m.fixed.fs.disk rootIno = roundUp (m.fs.disk rootIno) := by rw [h.disk_fixed hlen, update_self]
  have hsize := h.size
  have hbyte : (fileOf m.fixed.fs.blk (m.fixed.fs.disk rootIno)).byte = (dirOf (rootEntries files)).byte := by
    rw [← hfile]
    funext x
    have haddr := h.addrOf_fixed (x / bsize) hlen hlt
    simp only [fileOf]
    by_cases hx : x < (m.fs.disk rootIno).size
    · have hle : (m.fs.disk rootIno).size ≤ (m.fixed.fs.disk rootIno).size := by
        rw [hself]
        show _ ≤ ((m.fs.disk rootIno).size / 1024 + 1) * 1024
        omega
      have hne : addrOf m.fs.blk (m.fs.disk rootIno) (x / bsize) ≠ 0 := by
        have := h.built.ok.blocks.noHole rootIno hlt (by rw [node_fs]; exact htype)
        rw [node_fs] at this
        exact this _ (by have := Nat.div_mul_le_self x bsize; omega)
      rw [if_pos (by omega), if_pos hx, rawByte, rawByte, haddr, h.blk_of_mem hlt hne (mem_slots_addrOf hne)]
    · rw [if_neg hx]
      split
      · rw [rawByte, haddr]
        by_cases hz : addrOf m.fs.blk (m.fs.disk rootIno) (x / bsize) = 0
        · -- a hole reads as the boot block here
          rw [hz, blk_fixed (by omega), fs_blk m (by omega), h.built.boot]
        · rw [h.blk_of_mem hlt hz (mem_slots_addrOf hz)]
          exact h.tidy.tail x (by omega) hz
      · rfl
  refine ⟨fileOf m.fixed.fs.blk (m.fixed.fs.disk rootIno), ?_, ?_, ?_⟩
  · rw [Fs.file, node_fs, if_pos ⟨hlt, by rw [(h.addrs_fixed hlen _).2]; exact htype⟩]
  · show (m.fixed.fs.disk rootIno).type = tDir
    have : (fileOf m.fs.blk (m.fs.disk rootIno)).type = tDir := by rw [hfile, type_dirOf]
    rw [(h.addrs_fixed hlen _).2]
    exact this
  · refine liveEntries_dirOf (rootEntries_ok hlen harg) hbyte (fun x hx => ?_) ?_
    · rw [hbyte, ← hfile, length_rootEntries, ← hsize] at *
      exact if_neg (by omega)
    · rw [length_rootEntries, ← hsize]
      rw [hself]
      show _ ≤ ((m.fs.disk rootIno).size / 1024 + 1) * 1024
      omega

/-- The image is consistent if and only if the rounded size of the root directory is one of its blocks. -/
theorem consistent (h : Progress m files) (hfit : Fits files) (harg : ∀ a ∈ files, ArgOk a.1)
    (hm : m' = m.fixed.write superBlock.bmapstart (bitmap m.freeblock)) :
    Consistent files m' ↔ (files.length + 2) % 64 ≠ 0 := by
  have hk := consts
  have hlen := hfit.inodes
  have hib := iblock_bound h.root.1
  have hsuper : m'.blk 1 = putSuper (fun _ => 0) superBlock := by
    rw [hm, write_blk _ _ (by omega), Image.fixed, write_blk _ _ (by omega), h.built.super]
  have hwf : superBlock.Wf := ⟨by decide, by decide, by decide, by decide, by decide, by decide, by decide⟩
  obtain ⟨hsb, hmagic⟩ := getSuper_putSuper (b := fun _ => 0) hwf
  have hmounted : m'.mounted = m.fixed.fs := by
    rw [Image.mounted, hsuper, hsb, hm]
    rfl
  have hblk : m'.blk = m.fixed.fs.blk := by rw [← hmounted]; rfl
  have hfb : m'.freeblock = m.freeblock := by rw [hm]; rfl
  have hN : (∀ i, i < m'.mounted.sb.ninodes → NoHole m'.blk (m'.mounted.disk i)) ↔ (files.length + 2) % 64 ≠ 0 := by
    rw [hmounted, hblk]
    exact h.noHole_fixed hlen
  refine ⟨fun hc => hN.1 hc.noHole, fun hmod => ⟨by rw [hsuper, hmagic], ?_, ?_, ?_, ?_, ?_, fun b hb => ?_, fun i hi b hmem hb => ?_,
    hN.2 hmod, ?_⟩⟩
  · rw [hmounted]
    exact layout
  · rw [hmounted]
    rfl
  · rw [hmounted]
    exact (by decide : superBlock.inodestart = superBlock.logstart + superBlock.nlog)
  · rw [hmounted]
    exact (by decide : superBlock.bmapstart = superBlock.inodestart + (superBlock.ninodes / ipb + 1))
  · rw [hmounted]
    exact (by decide : superBlock.dataStart = superBlock.bmapstart + (superBlock.size / bpb + 1))
  · rw [hmounted] at hb ⊢
    have hb' : b < superBlock.size := hb
    rw [used_fs _ (by omega), hfb]
    exact decide_eq_true_iff
  · rw [hmounted] at hi hmem ⊢
    rw [hblk, h.slots_fixed hlen hi] at hmem
    rw [h.slotCount_fixed hlen, hfb]
    exact h.mem hi hb hmem
  · rw [hmounted]
    exact h.root_fixed hlen harg

end Progress

theorem main_spec (hfit : Fits files) (harg : ∀ a ∈ files, ArgOk a.1) (m₀ : Image) :
    wp (main files) (fun _ m' => Consistent files m' ↔ (files.length + 2) % 64 ≠ 0) (fun _ _ => False) m₀ := by
  have hk := consts
  simp only [main, wsect, wp_bind, wp_set, wp_modify]
  refine wp_post mkRoot_spec fun _ m₁ h₁ => ?_
  refine wp_post (addFiles_spec h₁ hfit harg) fun _ m h => ?_
  rw [List.nil_append] at h
  have hib := iblock_bound h.root.1
  have hdin : getDinode (m.blk (superBlock.iblock rootIno)) (ipos rootIno) = m.fs.disk rootIno := by
    rw [← fs_blk m (by omega)]
    rfl
  simp only [fixRoot, rinode, winode, rsect, wsect, wp_bind, wp_get, wp_pure, wp_modify, hdin]
  have hfb := h.freeblock
  have hblocks := hfit.blocks
  have hbpb : bpb = 8192 := rfl
  rw [balloc, if_pos (show m.freeblock < bpb by omega)]
  exact h.consistent hfit harg rfl

/-! ## An inode of the image in the inode table -/

theorem exists_progress (hfit : Fits files) (harg : ∀ a ∈ files, ArgOk a.1) : ∃ m, Progress m files := by
  obtain ⟨_, m₁, _, h₁⟩ := wp_returns mkRoot_spec
  obtain ⟨_, m, _, h⟩ := wp_returns (addFiles_spec h₁ hfit harg)
  exact ⟨m, h⟩

theorem exists_one {arg data : List Byte} (harg : ArgOk arg) (hlen : data.length ≤ maxFile * bsize) : ∃ m, Progress m [(arg, data)] := by
  have hk := consts
  have hd : maxFile * bsize = 274432 := rfl
  have hfor : blocksFor data.length ≤ 269 := by
    have hle : (data.length + 1023) / 1024 ≤ 268 := by omega
    rw [blocksFor]
    show (data.length + 1023) / 1024 + _ ≤ 269
    split <;> omega
  have hone : blocksFor (direntSize * 3) = 1 := by decide
  have hfit : Fits [(arg, data)] := by
    refine ⟨show 3 ≤ nInodes by omega, ?_, fun f hf => ?_⟩
    · rw [blocksOf, List.map_singleton, List.sum_singleton]
      show nmeta + (blocksFor (direntSize * 3) + blocksFor data.length) ≤ _
      omega
    · obtain rfl := List.mem_singleton.1 hf
      exact hlen
  refine exists_progress hfit fun a ha => ?_
  obtain rfl := List.mem_singleton.1 ha
  exact harg

/-- In a transaction on the image of one file with the bytes `data`, the file has been read into the
inode table. -/
theorem exists_entry {data : List Byte} (hlen : data.length ≤ maxFile * bsize) (logged : List Nat) :
    ∃ s : Fs, Ok s ∧ s.trans = true ∧ s.logged = logged ∧ Entry s 0 2 (dataFile data) ∧ s.sb = superBlock ∧
      ∀ e, e ≠ 0 → (s.inode e).ref = 0 ∧ (s.inode e).locked = false := by
  obtain ⟨m, h⟩ := exists_one (⟨by decide, by decide, by decide⟩ : ArgOk dot) hlen
  obtain ⟨s, h₁, h₂, h₃, h₄, h₅, _, _, h₆⟩ := h.built.held (i := 2) (f := dataFile data) rfl logged
  exact ⟨s, h₁, h₂, h₃, h₄, h₅, h₆⟩

theorem exists_root : ∃ s : Fs, Ok s ∧ s.trans = true ∧ s.logged = [] ∧ Entry s 0 rootIno (dirOf (rootEntries [])) ∧
    s.sb = superBlock ∧ s.file = filesOf [] ∧ (s.inode 0).locked = false ∧
      ∀ e, e ≠ 0 → (s.inode e).ref = 0 ∧ (s.inode e).locked = false := by
  obtain ⟨_, m, _, h⟩ := wp_returns mkRoot_spec
  exact h.built.held rfl []

end Xv6.Mkfs
