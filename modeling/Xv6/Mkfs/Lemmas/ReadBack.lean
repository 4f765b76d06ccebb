import Xv6.Fs.Lemmas.Reclaim
import Xv6.Mkfs.Lemmas.Files

/-!
# Any sequence of `ialloc` and `iappend`

After each call every inode holds its own chunks, in the order of the calls, and the kernel reads
them back.
-/

namespace Xv6.Mkfs

open Lib Fs Function

variable {m m' : Image} {F : Files} {f f' : FileView} {cs done rest : List Call} {c : Call} {chunk : List Byte}
  {inum i type : Nat}

/-! ## The contents -/

theorem contents_snoc (i : Nat) (cs : List Call) (c : Call) : contents i (cs ++ [c]) = contents i cs ++ c.chunk i := by
  simp only [contents, List.flatMap_append, List.flatMap_cons, List.flatMap_nil, List.append_nil]

theorem contents_ialloc : contents i (cs ++ [.ialloc type]) = contents i cs := by
  rw [contents_snoc]
  exact List.append_nil _

theorem contents_self : contents inum (cs ++ [.iappend inum chunk]) = contents inum cs ++ chunk := by
  rw [contents_snoc, Call.chunk, if_pos rfl]

theorem contents_other (h : i ≠ inum) : contents i (cs ++ [.iappend inum chunk]) = contents i cs := by
  rw [contents_snoc, Call.chunk, if_neg (Ne.symm h), List.append_nil]

theorem contents_append_length (i : Nat) (cs rest : List Call) : (contents i cs).length ≤ (contents i (cs ++ rest)).length := by
  simp only [contents, List.flatMap_append, List.length_append]
  omega

theorem allocated_ialloc : allocated (cs ++ [.ialloc type]) = allocated cs + 1 := by
  simp [allocated]

theorem allocated_iappend : allocated (cs ++ [.iappend inum chunk]) = allocated cs := by
  simp [allocated]

theorem allocated_append (cs rest : List Call) : allocated cs ≤ allocated (cs ++ rest) := by
  simp only [allocated, List.countP_append]
  omega

theorem CallsOk.of_append (h : CallsOk (done ++ rest)) : CallsOk done where
  type := fun type hmem => h.type type (List.mem_append_left _ hmem)
  order := fun d inum chunk r hd => h.order d inum chunk (r ++ rest) (by rw [hd]; simp)
  inodes := Nat.lt_of_le_of_lt (allocated_append _ _) h.inodes
  size := fun inum => Nat.le_trans (contents_append_length _ _ _) (h.size inum)
  blocks := by
    have hsum : ∑ inum ∈ Finset.range nInodes, blocksFor (contents inum done).length ≤
        ∑ inum ∈ Finset.range nInodes, blocksFor (contents inum (done ++ rest)).length :=
      Finset.sum_le_sum fun i _ => blocksFor_mono (contents_append_length _ _ _)
    exact Nat.le_trans (Nat.add_le_add_left hsum _) h.blocks

/-! ## The calls -/

/-- The file holds exactly `data`. -/
structure Holds (f : FileView) (data : List Byte) : Prop where
  size : f.size = data.length
  byte : ∀ x, x < data.length → f.byte x = data.getD x 0

/-- The image after the calls `cs`. -/
structure Filled (m : Image) (F : Files) (cs : List Call) : Prop where
  built : Built m F
  taken : ∀ i, 1 ≤ i → i ≤ allocated cs → ∃ f, F i = some f
  file : ∀ i f, F i = some f → Holds f (contents i cs) ∧ m.TidyAt i
  fresh : ∀ i, allocated cs < i → contents i cs = []
  freeinode : m.freeinode = allocated cs + 1
  freeblock : m.freeblock = nmeta + ∑ i ∈ Finset.range nInodes, blocksFor (contents i cs).length

theorem filled_start : Filled start (fun _ => none) [] where
  built := built_start
  taken := fun i h₁ h₂ => absurd (Nat.le_trans h₁ h₂) (by decide)
  file := fun i f h => nomatch h
  fresh := fun _ _ => rfl
  freeinode := rfl
  freeblock := by
    have hzero : ∀ i ∈ Finset.range nInodes, blocksFor (contents i []).length = 0 := fun _ _ => by
      show blocksFor 0 = 0
      decide
    rw [Finset.sum_eq_zero hzero]
    rfl

theorem Filled.ialloc (h : Filled m F cs) (hok : CallsOk (cs ++ [.ialloc type])) :
    wp (Call.exec (.ialloc type)) (fun _ m' => ∃ F', Filled m' F' (cs ++ [.ialloc type])) (fun _ _ => False) m := by
  obtain ⟨ht, ht'⟩ := hok.type type (by simp)
  have hinodes := hok.inodes
  have hfi := h.freeinode
  rw [allocated_ialloc] at hinodes
  rw [Call.exec, wp_bind]
  refine wp_post (ialloc_spec h.built (by omega) ht ht') ?_
  rintro _ m' ⟨rfl, ha⟩
  refine ⟨_, ha.built, fun i h₁ h₂ => ?_, fun i f hf => ?_, fun i hi => ?_, ?_, ?_⟩
  · rw [allocated_ialloc] at h₂
    obtain rfl | hne := eq_or_ne i m.freeinode
    · exact ⟨_, update_self ..⟩
    · rw [update_of_ne hne]
      exact h.taken i h₁ (by omega)
  · rw [contents_ialloc]
    obtain rfl | hne := eq_or_ne i m.freeinode
    · rw [update_self] at hf
      obtain rfl := Option.some.inj hf
      rw [h.fresh m.freeinode (by omega)]
      exact ⟨⟨rfl, fun x hx => absurd hx (Nat.not_lt_zero x)⟩, ha.tidy⟩
    · rw [update_of_ne hne] at hf
      obtain ⟨hlt, htype, _⟩ := h.built.lt hf
      obtain ⟨hholds, htidy⟩ := h.file i f hf
      exact ⟨hholds, ha.others i hne hlt htype htidy⟩
  · rw [allocated_ialloc] at hi
    rw [contents_ialloc]
    exact h.fresh i (by omega)
  · rw [ha.freeinode, hfi, allocated_ialloc]
  · simp only [contents_ialloc]
    rw [ha.freeblock, h.freeblock]

theorem Holds.append {data : List Byte} (h : Holds f data)
    (hw : Written f (fun x => some (chunk.getD x 0)) f.size chunk.length 0 f') : Holds f' (data ++ chunk) where
  size := by
    rw [hw.size, h.size, List.length_append]
    omega
  byte := fun x hx => by
    rw [List.length_append] at hx
    by_cases hlt : x < data.length
    · rw [hw.outside (Or.inl (by rw [h.size]; exact hlt)), h.byte x hlt, List.getD_append _ _ _ _ hlt]
    · have hin := hw.inside (show x - data.length < chunk.length by omega)
      rw [h.size, Nat.add_sub_of_le (by omega)] at hin
      rw [hin, List.getD_append_right _ _ _ _ (by omega)]
      rfl

theorem Filled.iappend (h : Filled m F cs) (hok : CallsOk (cs ++ [.iappend inum chunk])) :
    wp (Call.exec (.iappend inum chunk)) (fun _ m' => ∃ F', Filled m' F' (cs ++ [.iappend inum chunk]))
      (fun _ _ => False) m := by
  obtain ⟨hpos, hle⟩ := hok.order cs inum chunk [] rfl
  obtain ⟨f, hf⟩ := h.taken inum hpos hle
  obtain ⟨hholds, htidy⟩ := h.file inum f hf
  have hlt : inum ∈ Finset.range nInodes := by
    have hin := hok.inodes
    rw [allocated_iappend] at hin
    exact Finset.mem_range.2 (by omega)
  have hsize := hok.size inum
  have hblocks := hok.blocks
  have hsum := sum_change (fun i => blocksFor (contents i cs).length)
    (fun i => blocksFor (contents i (cs ++ [.iappend inum chunk])).length) hlt fun i _ hi => by
      simp only [contents_other hi]
  simp only [contents_self, List.length_append] at hsize hsum
  rw [← hholds.size] at hsize hsum
  have hfb := h.freeblock
  rw [Call.exec]
  refine wp_post (iappend_spec h.built hf htidy hsize (by omega)) ?_
  rintro _ m' ⟨f', ha⟩
  have hb := ha.blocks
  refine ⟨_, ha.built, fun i h₁ h₂ => ?_, fun i f'' hf'' => ?_, fun i hi => ?_, ?_, by omega⟩
  · obtain rfl | hne := eq_or_ne i inum
    · exact ⟨_, update_self ..⟩
    · rw [update_of_ne hne]
      rw [allocated_iappend] at h₂
      exact h.taken i h₁ h₂
  · obtain rfl | hne := eq_or_ne i inum
    · rw [update_self] at hf''
      obtain rfl := Option.some.inj hf''
      rw [contents_self]
      exact ⟨hholds.append ha.written, ha.tidy⟩
    · rw [update_of_ne hne] at hf''
      obtain ⟨hlt', htype, _⟩ := h.built.lt hf''
      obtain ⟨hholds', htidy'⟩ := h.file i f'' hf''
      rw [contents_other hne]
      exact ⟨hholds', ha.others i hne hlt' htype htidy'⟩
  · rw [allocated_iappend] at hi
    rw [contents_other (by omega)]
    exact h.fresh i hi
  · rw [ha.freeinode, h.freeinode, allocated_iappend]

theorem calls_spec (h : Filled m F done) (hok : CallsOk (done ++ cs)) :
    wp (calls cs) (fun _ m' => ∃ F', Filled m' F' (done ++ cs)) (fun _ _ => False) m := by
  induction cs generalizing m F done with
  | nil =>
      rw [List.append_nil]
      exact ⟨F, h⟩
  | cons c cs ih =>
      have hsplit : done ++ c :: cs = done ++ [c] ++ cs := by simp
      rw [hsplit] at hok ⊢
      have hstep : wp c.exec (fun _ m' => ∃ F', Filled m' F' (done ++ [c])) (fun _ _ => False) m := by
        cases c with
        | ialloc type => exact h.ialloc hok.of_append
        | iappend inum chunk => exact h.iappend hok.of_append
      rw [calls, wp_bind]
      refine wp_post hstep ?_
      rintro _ m' ⟨F', h'⟩
      exact ih h' hok

/-! ## The kernel on the image -/

theorem Built.mounted (h : Built m F) : m.mounted = mount superBlock m.blk := by
  have hwf : superBlock.Wf := ⟨by decide, by decide, by decide, by decide, by decide, by decide, by decide⟩
  rw [Image.mounted, h.super, (getSuper_putSuper hwf).1]

theorem Built.disk_mounted (h : Built m F) (hi : i < superBlock.ninodes) : m.mounted.disk i = m.fs.disk i := by
  have hk := consts
  have hib := iblock_bound hi
  rw [h.mounted]
  show getDinode (m.blk (superBlock.iblock i)) _ = getDinode (m.fs.blk (superBlock.iblock i)) _
  rw [fs_blk m (by omega)]

theorem Built.blk_of_mem {b : Nat} (h : Built m F) (hf : F i = some f) (hb : b ∈ slots m.fs.blk (m.fs.disk i)) (hne : b ≠ 0) :
    m.blk b = m.fs.blk b := by
  have hk := consts
  obtain ⟨hlt, htype, _⟩ := h.lt hf
  rw [← node_fs m i] at htype hb
  have hdata := (h.ok.blocks.of_mem hlt htype hne hb).1
  have hge : superBlock.dataStart ≤ b := hdata.1
  exact (fs_blk m (by omega)).symm

theorem Built.noHole (h : Built m F) (hf : F i = some f) : NoHole m.fs.blk (m.fs.disk i) := by
  obtain ⟨hlt, htype, _⟩ := h.lt hf
  rw [← node_fs m i] at htype ⊢
  exact h.ok.blocks.noHole i hlt htype

/-- The kernel reads the file of an inode on the image. -/
theorem Built.read {copyout : Nat → Nat → Bool} {off n : Nat} (h : Built m F) (hf : F i = some f) (hc : ∀ a k, copyout a k = true) :
    wp (do
      let e ← iget rootDev i
      ilock e
      readi e copyout off n)
      (fun r _ => ∃ buf, r = some (f.readable off n, buf) ∧ ∀ x, x < f.readable off n → buf x = f.byte (off + x))
      (fun _ _ => False) m.mounted := by
  obtain ⟨hlt, htype, hfile⟩ := h.lt hf
  have hdisk := h.disk_mounted hlt
  have hblk : m.mounted.blk = m.blk := rfl
  have hN := h.noHole hf
  have hsame : ∀ b ∈ slots m.fs.blk (m.fs.disk i), b ≠ 0 → ∀ x, x < bsize → m.blk b x = m.fs.blk b x := fun b hb hne x _ =>
    congrFun (h.blk_of_mem hf hb hne) x
  have hfind : m.mounted.find rootDev i = none := by rfl
  have hempty : m.mounted.empty = some 0 := by rfl
  simp only [iget, wp_bind, wp_get, hfind, hempty, wp_set, wp_pure]
  refine ilock_fresh (i := i) (d := ⟨0, 0, 0, 0, 0, fun _ => 0⟩) setInode_self ?_ ?_
  · show (m.mounted.disk i).type ≠ 0
    rw [hdisk]
    exact htype
  · refine wp_post (readi_spec (f := f) ?_ ?_) fun r t hr => hr.2 hc
    · rw [setInode_self]
      show NoHole m.blk (m.mounted.disk i)
      rw [hdisk]
      refine noHole_congr hN fun x hx => ?_
      by_cases hz : (m.fs.disk i).addrs ndirect = 0
      · exact Or.inr hz
      · exact Or.inl (hsame _ (mem_slots_addrs (Nat.lt_succ_self _)) hz x hx)
    · rw [setInode_self]
      show fileOf m.blk (m.mounted.disk i) = f
      rw [hdisk, fileOf_congr hN hsame]
      exact hfile

end Xv6.Mkfs
