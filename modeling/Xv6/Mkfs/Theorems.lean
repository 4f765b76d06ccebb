import Xv6.Mkfs.Lemmas.Main
import Xv6.Mkfs.Lemmas.ReadBack

/-!
# Results about `mkfs`
-/

namespace Xv6.Mkfs

open Lib Fs

/-- For input files that fit, `mkfs` writes an image that is consistent if and only if the entries of
the root directory do not fill its last block. -/
theorem main_consistent_iff {files : List (List Byte × List Byte)} (hfit : Fits files) (harg : ∀ f ∈ files, ArgOk f.1)
    (m₀ : Image) : ∃ m, main files m₀ = .ok () m ∧ (Consistent files m ↔ (files.length + 2) % 64 ≠ 0) := by
  obtain ⟨_, m, hm, h⟩ := wp_returns (main_spec hfit harg m₀)
  exact ⟨m, hm, h⟩

/-- An image with one file, `user/_cat`. -/
theorem main_consistent_iff_cat : ∃ m, main [(userDir ++ [95#8, 99#8, 97#8, 116#8], [1#8, 2#8])] ⟨fun _ _ => 0, 0, 0⟩ = .ok () m ∧
    (Consistent [(userDir ++ [95#8, 99#8, 97#8, 116#8], [1#8, 2#8])] m ↔ (1 + 2) % 64 ≠ 0) :=
  main_consistent_iff ⟨by decide, by decide, by decide⟩ (by
    intro f hf
    obtain rfl := List.mem_singleton.1 hf
    exact ⟨by decide, by decide, by decide⟩) _

/-- A file name of one letter. -/
def letter (k : Nat) : List Byte := [BitVec.ofNat 8 (97 + k)]

theorem letter_ne {k c : Nat} (hk : k < 62) (hc : c < 97) : BitVec.ofNat 8 (97 + k) ≠ BitVec.ofNat 8 c := by
  intro h
  have := congrArg BitVec.toNat h
  simp only [BitVec.toNat_ofNat] at this
  omega

theorem shortname_letter {k : Nat} (hk : k < 62) : baseName (letter k) = letter k ∧ shortname (letter k) = letter k := by
  have hbase : baseName (letter k) = letter k := by
    rw [baseName, if_neg (by simp [userDir, letter, List.isPrefixOf])]
  refine ⟨hbase, ?_⟩
  rw [shortname, hbase]
  exact if_neg (letter_ne hk (by decide))

/-- Empty files with names of one letter. -/
@[irreducible] def letters : List (List Byte × List Byte) := (List.range 62).map fun k => (letter k, [])

theorem mem_letters {f : List Byte × List Byte} (hf : f ∈ letters) : ∃ k, k < 62 ∧ (letter k, []) = f := by
  rw [letters] at hf
  obtain ⟨k, hk, rfl⟩ := List.mem_map.1 hf
  exact ⟨k, List.mem_range.1 hk, rfl⟩

theorem letters_ok {f : List Byte × List Byte} (hf : f ∈ letters) : ArgOk f.1 ∧ 1 ≤ (shortname f.1).length := by
  obtain ⟨k, hk, rfl⟩ := mem_letters hf
  obtain ⟨h₁, h₂⟩ := shortname_letter hk
  refine ⟨⟨fun c hc => ?_, fun hc => ?_, ?_⟩, ?_⟩
  · rw [List.mem_singleton.1 hc]
    exact letter_ne hk (c := 0) (by decide)
  · rw [h₁] at hc
    exact letter_ne hk (c := 47) (by decide) (List.mem_singleton.1 hc).symm
  · rw [h₂]
    exact (by decide : 1 ≤ dirSiz)
  · rw [h₂]
    exact Nat.le_refl 1

theorem letters_nodup : (letters.map fun f => shortname f.1).Nodup := by
  rw [letters, List.map_map]
  refine List.Nodup.map_on (fun k hk k' hk' h => ?_) List.nodup_range
  have hlt := List.mem_range.1 hk
  have hlt' := List.mem_range.1 hk'
  simp only [Function.comp_apply, (shortname_letter hlt).2, (shortname_letter hlt').2] at h
  have := congrArg BitVec.toNat (List.cons.inj h).1
  simp only [BitVec.toNat_ofNat] at this
  omega

theorem letters_fit : Fits letters := by
  have hlen : letters.length = 62 := by rw [letters, List.length_map, List.length_range]
  have hsum : (letters.map fun f => blocksFor f.2.length).sum = 0 := by
    refine List.sum_eq_zero fun x hx => ?_
    obtain ⟨f, hf, rfl⟩ := List.mem_map.1 hx
    obtain ⟨k, _, rfl⟩ := mem_letters hf
    exact (by decide : blocksFor 0 = 0)
  refine ⟨by rw [hlen]; decide, ?_, fun f hf => ?_⟩
  · rw [blocksOf, hlen, hsum]
    decide
  · obtain ⟨k, _, rfl⟩ := mem_letters hf
    exact Nat.zero_le _

/-- With 62 files the root directory has 64 entries, which fill its one block; its size says that it has
two. -/
theorem main_full_root : ∃ files m, (files.map fun f => shortname f.1).Nodup ∧
    (∀ f ∈ files, ArgOk f.1 ∧ 1 ≤ (shortname f.1).length) ∧ Fits files ∧
    main files ⟨fun _ _ => 0, 0, 0⟩ = .ok () m ∧ ¬ Consistent files m := by
  obtain ⟨_, m, hm, h⟩ := wp_returns (main_spec letters_fit (fun f hf => (letters_ok hf).1) ⟨fun _ _ => 0, 0, 0⟩)
  refine ⟨letters, m, letters_nodup, fun f hf => letters_ok hf, letters_fit, hm, fun hc => h.1 hc ?_⟩
  rw [letters, List.length_map, List.length_range]

/-! ## Reading back -/

/-- After any sequence of `ialloc` and `iappend` that fits in the image, each inode has the size of its
own chunks, and the kernel reads exactly these chunks. -/
theorem iappend_reads_back {cs : List Call} (h : CallsOk cs) : ∃ m, calls cs start = .ok () m ∧
    ∀ inum, 1 ≤ inum → inum ≤ allocated cs → (m.mounted.disk inum).size = (contents inum cs).length ∧
      ∃ buf s, (do
        let e ← iget rootDev inum
        ilock e
        readi e (fun _ _ => true) 0 (m.mounted.disk inum).size) m.mounted = .ok (some ((contents inum cs).length, buf)) s ∧
        (List.range (contents inum cs).length).map buf = contents inum cs := by
  obtain ⟨_, m, hm, F, hF⟩ := wp_returns (calls_spec filled_start h)
  refine ⟨m, hm, fun inum hpos hle => ?_⟩
  obtain ⟨f, hf⟩ := hF.taken inum hpos hle
  obtain ⟨hlt, _, hfile⟩ := hF.built.lt hf
  have hholds : Holds f (contents inum cs) := (hF.file inum f hf).1
  have hsize : (m.mounted.disk inum).size = (contents inum cs).length := by
    rw [hF.built.disk_mounted hlt, ← hholds.size, ← hfile]
    rfl
  have hmax : maxFile * bsize < 2 ^ 32 := by decide
  have hfits := h.size inum
  have hall : f.readable 0 (contents inum cs).length = (contents inum cs).length := by
    rw [FileView.readable, if_neg (by omega), hholds.size]
    omega
  obtain ⟨r, s, hr, buf, rfl, hbuf⟩ := wp_returns (hF.built.read hf fun _ _ => rfl)
  rw [hall] at hr hbuf
  refine ⟨hsize, buf, s, by rw [hsize]; exact hr, List.ext_getElem (by simp) fun x h₁ h₂ => ?_⟩
  rw [List.getElem_map, List.getElem_range, hbuf x h₂, Nat.zero_add, hholds.byte x h₂, List.getD_eq_getElem _ _ h₂]

/-- Two files that grow in turn. -/
def twoFiles : List Call := [.ialloc tFile, .iappend 1 [1#8, 2#8], .ialloc tFile, .iappend 2 [3#8], .iappend 1 [4#8]]

theorem twoFiles_ok : CallsOk twoFiles where
  type := fun type h => by
    simp only [twoFiles, List.mem_cons, Call.ialloc.injEq, reduceCtorEq, List.not_mem_nil, or_false, false_or, or_self] at h
    subst h
    decide
  order := fun done inum chunk rest h => by
    have hk : twoFiles[done.length]? = some (.iappend inum chunk) ∧ done = twoFiles.take done.length := by
      rw [h]
      simp
    obtain ⟨h₁, h₂⟩ := hk
    rw [h₂]
    generalize done.length = k at h₁
    rcases k with _ | _ | _ | _ | _ | k <;> simp [twoFiles] at h₁
    · rw [← h₁.1]
      decide
    · rw [← h₁.1]
      decide
    · rw [← h₁.1]
      decide
  inodes := by decide
  size := fun inum => by
    refine Nat.le_trans ?_ (show 5 ≤ maxFile * bsize by decide)
    simp only [contents, twoFiles, List.flatMap_cons, List.flatMap_nil, Call.chunk]
    split <;> split <;> simp
  blocks := by decide +kernel

theorem iappend_reads_back_two : ∃ m buf s, calls twoFiles start = .ok () m ∧ (do
    let e ← iget rootDev 1
    ilock e
    readi e (fun _ _ => true) 0 (m.mounted.disk 1).size) m.mounted = .ok (some (3, buf)) s ∧
    (List.range 3).map buf = [1#8, 2#8, 4#8] := by
  obtain ⟨m, hm, hread⟩ := iappend_reads_back twoFiles_ok
  obtain ⟨_, buf, s, hs, hbuf⟩ := hread 1 (by decide) (by decide)
  exact ⟨m, buf, s, hm, hs, hbuf⟩

end Xv6.Mkfs
