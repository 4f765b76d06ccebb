import Mathlib.Tactic.IntervalCases
import Xv6.Fs.View

/-!
# Reading back what is written to a block

A write to an inode, to a bit of the free map or to a data block changes that one and no other,
because the three parts of the image are disjoint.
-/

namespace Xv6.Fs

open Lib Function

variable {b b' : Block} {k k' i j : Nat} {d : Dinode}

theorem sizes : bsize = 1024 ∧ ndirect = 12 ∧ nindirect = 256 ∧ maxFile = 268 ∧ dirSiz = 14 ∧ direntSize = 16 ∧
    dinodeSize = 64 ∧ ipb = 16 ∧ bpb = 8192 := by decide

/-! ## Inodes -/

theorem load_putAddrs {a : Nat → Nat} (hj : j < ndirect + 1) :
    load 4 (putAddrs b k a) (k + 4 * j) = a j % 2 ^ 32 := by
  have hcongr : load 4 (putAddrs b k a) (k + 4 * j) = load 4 (store 4 b (k + 4 * j) (a j)) (k + 4 * j) := by
    apply load_congr
    intro x hx
    have h₁ : (k + 4 * j + x - k) / 4 = j := by omega
    have h₂ : (k + 4 * j + x - k) % 4 = x := by omega
    rw [putAddrs, if_pos ⟨by omega, by omega⟩, store, if_pos ⟨by omega, by omega⟩, h₁, h₂,
      Nat.add_sub_cancel_left]
  rw [hcongr, load_store]
  rfl

theorem load_putAddrs_of_ne {a : Nat → Nat} {n p : Nat} (h : p + n ≤ k ∨ k + 4 * (ndirect + 1) ≤ p) :
    load n (putAddrs b k a) p = load n b p := by
  apply load_congr
  intro x hx
  exact if_neg (by omega)

theorem load_of_lt {n v : Nat} (h : v < 256 ^ n) : load n (store n b k v) k = v := by
  rw [load_store, Nat.mod_eq_of_lt h]

theorem getDinode_putDinode (h : d.Wf) : getDinode (putDinode b k d) k = d := by
  obtain ⟨type, major, minor, nlink, size, addrs⟩ := d
  have h₁ := h.type
  have h₂ := h.major
  have h₃ := h.minor
  have h₄ := h.nlink
  have h₅ := h.size
  simp only at h₁ h₂ h₃ h₄ h₅
  have haddrs : (fun j => if j < ndirect + 1 then
      load 4 (putDinode b k ⟨type, major, minor, nlink, size, addrs⟩) (k + 12 + 4 * j) else 0) = addrs := by
    funext j
    split
    · rename_i hj
      simp only [putDinode]
      rw [load_putAddrs hj, Nat.mod_eq_of_lt (h.addrs j)]
    · rename_i hj
      exact (h.high j (by omega)).symm
  simp only [getDinode]
  rw [haddrs]
  simp only [putDinode]
  simp (disch := omega) only [load_putAddrs_of_ne, load_store_disjoint, load_of_lt]

/-- The fields of a super block fit in 32 bits. -/
structure Super.Wf (sb : Super) : Prop where
  size : sb.size < 2 ^ 32
  nblocks : sb.nblocks < 2 ^ 32
  ninodes : sb.ninodes < 2 ^ 32
  nlog : sb.nlog < 2 ^ 32
  logstart : sb.logstart < 2 ^ 32
  inodestart : sb.inodestart < 2 ^ 32
  bmapstart : sb.bmapstart < 2 ^ 32

theorem getSuper_putSuper {sb : Super} (h : sb.Wf) : getSuper (putSuper b sb) = sb ∧ getMagic (putSuper b sb) = fsMagic := by
  have hmagic : fsMagic < 256 ^ 4 := by decide
  obtain ⟨h₁, h₂, h₃, h₄, h₅, h₆, h₇⟩ := h
  constructor
  · cases sb
    simp only [getSuper, putSuper, Super.mk.injEq]
    simp (disch := omega) only [load_store_disjoint]
    exact ⟨load_of_lt h₁, load_of_lt h₂, load_of_lt h₃, load_of_lt h₄, load_of_lt h₅, load_of_lt h₆, load_of_lt h₇⟩
  · simp only [getMagic, putSuper]
    simp (disch := omega) only [load_store_disjoint]
    exact load_of_lt hmagic

theorem getDinode_congr (h : ∀ x, k ≤ x → x < k + dinodeSize → b x = b' x) : getDinode b k = getDinode b' k := by
  have hload : ∀ n p, k ≤ p → p + n ≤ k + 64 → load n b p = load n b' p := fun n p h₁ h₂ =>
    load_congr fun i hi => h _ (by omega) (by simp only [dinodeSize]; omega)
  have haddrs : (fun j => if j < ndirect + 1 then load 4 b (k + 12 + 4 * j) else 0) =
      fun j => if j < ndirect + 1 then load 4 b' (k + 12 + 4 * j) else 0 := by
    funext j
    split
    · rename_i hj
      simp only [ndirect] at hj
      exact hload 4 _ (by omega) (by omega)
    · rfl
  simp only [getDinode]
  rw [haddrs, hload 2 _ (by omega) (by omega), hload 2 _ (by omega) (by omega), hload 2 _ (by omega) (by omega),
    hload 2 _ (by omega) (by omega), hload 4 _ (by omega) (by omega)]

theorem putDinode_apply_of_ne {x : Nat} (h : x < k ∨ k + dinodeSize ≤ x) : putDinode b k d x = b x := by
  have hs := sizes
  simp only [putDinode, putAddrs]
  rw [if_neg (by omega)]
  simp (disch := omega) only [store_apply_of_lt]

theorem getDinode_wf (b : Block) (k : Nat) : (getDinode b k).Wf where
  type := load_lt 2 b k
  major := load_lt 2 b (k + 2)
  minor := load_lt 2 b (k + 4)
  nlink := load_lt 2 b (k + 6)
  size := load_lt 4 b (k + 8)
  addrs := fun j => by
    simp only [getDinode]
    split
    · exact load_lt 4 b (k + 12 + 4 * j)
    · omega
  high := fun j hj => by
    simp only [getDinode]
    rw [if_neg (by omega)]

/-! ## Bits -/

theorem bitSet_eq (data : Block) (bi : Nat) : bitSet data bi = (data (bi / 8)).getLsbD (bi % 8) := by
  have hlt : bi % 8 < 8 := Nat.mod_lt _ (by omega)
  rw [Bool.eq_iff_iff]
  simp only [bitSet, bne_iff_ne, ne_eq]
  constructor
  · intro hne
    by_contra hbit
    refine hne ?_
    ext n hn
    simp only [bitMask, BitVec.getElem_and, BitVec.getElem_zero]
    by_cases hnb : n = bi % 8
    · subst hnb
      simp [← BitVec.getLsbD_eq_getElem, hbit]
    · have : (1#8 <<< (bi % 8)).getLsbD n = false := by
        simp only [BitVec.getLsbD_shiftLeft, BitVec.getLsbD_one]
        simp
        omega
      simp [← BitVec.getLsbD_eq_getElem, this]
  · intro hbit heq
    have hz : (data (bi / 8) &&& bitMask bi).getLsbD (bi % 8) = false := by rw [heq]; simp
    rw [BitVec.getLsbD_and, hbit] at hz
    simp [bitMask, hlt] at hz

theorem getLsbD_bitMask {n bi : Nat} (hn : n < 8) : (bitMask bi).getLsbD n = decide (n = bi % 8) := by
  have hlt : bi % 8 < 8 := Nat.mod_lt _ (by omega)
  simp only [bitMask, BitVec.getLsbD_shiftLeft, BitVec.getLsbD_one]
  rw [Bool.eq_iff_iff]
  simp
  omega

theorem bitSet_setBit (data : Block) (bi bj : Nat) :
    bitSet (setBit data bi) bj = if bj = bi then true else bitSet data bj := by
  have hlt : bj % 8 < 8 := Nat.mod_lt _ (by omega)
  rw [bitSet_eq, bitSet_eq, setBit]
  by_cases hbyte : bj / 8 = bi / 8
  · rw [hbyte, update_self, BitVec.getLsbD_or, getLsbD_bitMask hlt]
    by_cases heq : bj = bi
    · simp [heq]
    · have hne : bj % 8 ≠ bi % 8 := by omega
      simp [heq, hne]
  · have hne : bj ≠ bi := by
      rintro rfl
      exact hbyte rfl
    rw [update_of_ne hbyte, if_neg hne]

theorem bitSet_clearBit (data : Block) (bi bj : Nat) :
    bitSet (clearBit data bi) bj = if bj = bi then false else bitSet data bj := by
  have hlt : bj % 8 < 8 := Nat.mod_lt _ (by omega)
  rw [bitSet_eq, bitSet_eq, clearBit]
  by_cases hbyte : bj / 8 = bi / 8
  · rw [hbyte, update_self, BitVec.getLsbD_and, BitVec.getLsbD_not, getLsbD_bitMask hlt]
    by_cases heq : bj = bi
    · simp [heq]
    · have hne : bj % 8 ≠ bi % 8 := by omega
      simp [heq, hne, hlt]
  · have hne : bj ≠ bi := by
      rintro rfl
      exact hbyte rfl
    rw [update_of_ne hbyte, if_neg hne]

/-! ## Directory entries -/

theorem takeWhile_padded {name : Name} {n : Nat} (hlen : name.length ≤ n) (hz : ∀ c ∈ name, c ≠ 0) :
    ((List.range n).map fun j => name.getD j 0).takeWhile (· != 0) = name := by
  induction name generalizing n with
  | nil =>
      cases n with
      | zero => rfl
      | succ n => simp [List.range_succ_eq_map]
  | cons c name ih =>
      cases n with
      | zero => simp at hlen
      | succ n =>
          have hc : c ≠ 0 := hz c (by simp)
          simp only [List.length_cons, Nat.add_le_add_iff_right] at hlen
          rw [List.range_succ_eq_map, List.map_cons, List.map_map]
          simp only [List.getD_cons_zero]
          rw [List.takeWhile_cons_of_pos (by simpa using hc)]
          congr 1
          exact ih hlen fun x hx => hz x (by simp [hx])

theorem getDirent_putDirent {de : Dirent} (h : NameOk de.name) :
    getDirent (putDirent de) 0 = ⟨de.inum % 2 ^ 16, de.name⟩ := by
  have hname : ((List.range dirSiz).map fun j => putDirent de (0 + 2 + j)) =
      (List.range dirSiz).map fun j => de.name.getD j 0 := by
    refine List.map_congr_left fun j hj => ?_
    have hj' := List.mem_range.1 hj
    have hs := sizes
    simp only [putDirent]
    rw [store_apply_of_lt (by omega), if_pos (by omega)]
    congr 1
    omega
  simp only [getDirent, hname]
  rw [takeWhile_padded h.1 h.2, putDirent, load_store]
  rfl

theorem getDirent_zero : getDirent (fun _ => 0) 0 = ⟨0, []⟩ := by decide

theorem getDirent_congr {m m' : Bytes} {p p' : Nat} (h : ∀ x, x < direntSize → m (p + x) = m' (p' + x)) :
    getDirent m p = getDirent m' p' := by
  simp only [direntSize] at h
  have h₀ := h 0 (by omega)
  have h₁ := h 1 (by omega)
  have hname : ((List.range dirSiz).map fun j => m (p + 2 + j)) = (List.range dirSiz).map fun j => m' (p' + 2 + j) := by
    refine List.map_congr_left fun j hj => ?_
    have hj' := List.mem_range.1 hj
    simp only [dirSiz] at hj'
    have := h (2 + j) (by omega)
    rwa [← Nat.add_assoc, ← Nat.add_assoc] at this
  simp only [Nat.add_zero] at h₀
  simp only [getDirent, hname, load, h₀, h₁]

/-! ## The parts of the image -/

namespace Super.Layout

variable {sb : Super}

theorem iblock_lt (h : sb.Layout) (hi : i < sb.ninodes) : sb.iblock i < sb.bmapstart := by
  have := h.inodes
  simp only [Super.iblock, ipb, bsize, dinodeSize] at this ⊢
  omega

theorem bblock_ge (sb : Super) (b : Nat) : sb.bmapstart ≤ sb.bblock b := by
  exact Nat.le_add_left _ _

theorem bblock_lt {c : Nat} (h : sb.Layout) (hc : c < sb.size) : sb.bblock c < sb.dataStart := by
  have := h.bitmap
  simp only [Super.bblock, bpb, bsize] at this ⊢
  omega

theorem dataStart_le (sb : Super) : sb.dataStart ≤ sb.size := Nat.sub_le _ _

theorem dataStart_pos (h : sb.Layout) : 0 < sb.dataStart := by
  have h₁ := h.bitmap
  omega

end Super.Layout

theorem iblock_eq {sb : Super} (h : sb.iblock i = sb.iblock j) (hne : i ≠ j) :
    ipos j + dinodeSize ≤ ipos i ∨ ipos i + dinodeSize ≤ ipos j := by
  simp only [Super.iblock, ipos, ipb, bsize, dinodeSize] at h ⊢
  omega

section

variable {s : Fs} {c c' : Nat} {data : Block}

theorem disk_setBlk_iblock (hother : ∀ x, x < ipos i ∨ ipos i + dinodeSize ≤ x → data x = s.blk (s.sb.iblock i) x)
    (hi : getDinode data (ipos i) = d) :
    (s.setBlk (s.sb.iblock i) data).disk = Function.update s.disk i d := by
  funext j
  obtain rfl | hj := eq_or_ne j i
  · rw [update_self, ← hi]
    simp [Fs.disk, Fs.setBlk]
  · rw [update_of_ne hj]
    simp only [Fs.disk, Fs.setBlk]
    by_cases hblock : s.sb.iblock j = s.sb.iblock i
    · rw [hblock, update_self]
      refine getDinode_congr fun x h₁ h₂ => hother x ?_
      have := iblock_eq hblock hj
      omega
    · rw [update_of_ne hblock]

theorem disk_setBlk_of_ne (h : ∀ i, i < s.sb.ninodes → s.sb.iblock i ≠ c) (hi : i < s.sb.ninodes) :
    (s.setBlk c data).disk i = s.disk i := by
  simp only [Fs.disk, Fs.setBlk]
  rw [update_of_ne (h i hi)]

theorem used_setBlk_of_ne (h : s.sb.bblock c' ≠ c) : (s.setBlk c data).used c' = s.used c' := by
  simp only [Fs.used, Fs.setBlk]
  rw [update_of_ne h]

theorem used_setBlk_bblock {v : Bool}
    (hbit : ∀ bj, bitSet data bj = if bj = c % bpb then v else bitSet (s.blk (s.sb.bblock c)) bj) :
    (s.setBlk (s.sb.bblock c) data).used = Function.update s.used c v := by
  funext c'
  show bitSet (Function.update s.blk (s.sb.bblock c) data (s.sb.bblock c')) (c' % bpb) = _
  by_cases hblock : s.sb.bblock c' = s.sb.bblock c
  · rw [hblock, update_self, hbit]
    have hdiv : c' / bpb = c / bpb := by
      simp only [Super.bblock] at hblock
      omega
    by_cases hcc : c' = c
    · subst hcc
      simp
    · rw [update_of_ne hcc, if_neg ?_, Fs.used, hblock]
      intro hmod
      exact hcc (by rw [← Nat.div_add_mod c' bpb, ← Nat.div_add_mod c bpb, hdiv, hmod])
  · have hcc : c' ≠ c := by
      rintro rfl
      exact hblock rfl
    rw [update_of_ne hblock, update_of_ne hcc, Fs.used]

end

end Xv6.Fs
