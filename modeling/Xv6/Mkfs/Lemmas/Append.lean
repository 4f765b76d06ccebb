import Xv6.Fs.Lemmas.Dir
import Xv6.Mkfs.Mkfs

/-!
# `iappend`

The blocks that `mkfs` has handed out are those whose bits its free map will have: with that map in
place the image meets the invariant of the kernel at every step, `freeblock++` is an allocation as
`balloc` of the kernel makes it, and `iappend` is a write at the end of the file.
-/

namespace Xv6.Mkfs

open Lib Fs Function

variable {m m' : Image} {inum fbn b c k n off tot : Nat} {din : Dinode} {data : Block} {p : Bytes}

theorem consts : fsSize = 2000 ∧ nInodes = 200 ∧ nmeta = 47 ∧ superBlock.inodestart = 33 ∧ superBlock.bmapstart = 46 ∧
    superBlock.dataStart = 47 ∧ superBlock.size = 2000 ∧ superBlock.ninodes = 200 := by decide

theorem layout : superBlock.Layout :=
  ⟨by decide, by decide, by decide, by decide, by decide, by decide, by decide⟩

/-! ## The free map -/

theorem bitSet_bitmap (used bi : Nat) : bitSet (bitmap used) bi = decide (bi < used) := by
  induction used with
  | zero => simp [bitmap, bitSet_eq]
  | succ used ih =>
      have hsucc : bitmap (used + 1) = setBit (bitmap used) used := by
        rw [bitmap, List.range_succ, List.foldl_append]
        rfl
      rw [hsucc, bitSet_setBit, ih]
      split <;> simp <;> omega

/-- The image with the free map of the blocks handed out. -/
def Image.fs (m : Image) : Fs := mount superBlock (update m.blk superBlock.bmapstart (bitmap m.freeblock))

theorem used_fs (m : Image) (hc : c < fsSize) : m.fs.used c = decide (c < m.freeblock) := by
  have h := consts
  have hbpb : bpb = 8192 := rfl
  have hblock : superBlock.bblock c = superBlock.bmapstart := by
    show c / bpb + _ = _
    rw [hbpb]
    omega
  show bitSet (update m.blk _ _ (superBlock.bblock c)) (c % bpb) = _
  rw [hblock, update_self, bitSet_bitmap, Nat.mod_eq_of_lt (by rw [hbpb]; omega)]

theorem fs_blk (m : Image) (hc : c ≠ superBlock.bmapstart) : m.fs.blk c = m.blk c := update_of_ne hc ..

/-- The image as `iappend` sees it, with its copy `din` of the inode `inum`. -/
def Image.withInode (m : Image) (inum : Nat) (din : Dinode) : Fs := m.fs.setInode 0 ⟨rootDev, inum, 1, false, true, din⟩

theorem withInode_self : (m.withInode inum din).inode 0 = ⟨rootDev, inum, 1, false, true, din⟩ := setInode_self

theorem withInode_at : (m.withInode inum din).At 0 inum :=
  ⟨by decide, by rw [withInode_self]; exact Nat.one_pos, by rw [withInode_self]⟩

theorem withInode_setD (d : Dinode) : (m.withInode inum din).setD 0 d = m.withInode inum d := by
  simp only [Image.withInode, Fs.setD, Fs.setInode, update_self, update_idem]

/-! ## The steps of `iappend` on the image -/

def Image.fresh (m : Image) : Image := { m with freeblock := m.freeblock + 1 }

def Image.write (m : Image) (b : Nat) (data : Block) : Image := { m with blk := update m.blk b data }

theorem write_blk (m : Image) (data : Block) (hc : c ≠ b) : (m.write b data).blk c = m.blk c := update_of_ne hc ..

theorem withInode_write (hb : b ≠ superBlock.bmapstart) :
    ((m.write b data).withInode inum din).blk = ((m.withInode inum din).setBlk b data).blk := by
  exact update_comm hb ..

theorem withInode_blk (hc : c ≠ superBlock.bmapstart) : (m.withInode inum din).blk c = m.blk c := update_of_ne hc ..

theorem fresh_alloc (hmeta : nmeta ≤ m.freeblock) (hlt : m.freeblock < fsSize) (hz : m.blk m.freeblock = fun _ => 0) :
    Alloc (m.withInode inum din) m.freeblock (m.fresh.withInode inum din) := by
  have h := consts
  refine ⟨⟨rfl, rfl, rfl, fun c hc => ?_, fun i hi => ?_, fun c hc _ => ?_⟩, ⟨?_, ?_⟩, ?_, fun x _ => ?_, Logs.of_eq rfl⟩
  · show m.fresh.fs.used c = if _ then _ else m.fs.used c
    have hc' : c < superBlock.size := hc
    rw [used_fs _ (by omega), used_fs _ (by omega)]
    show decide (c < m.freeblock + 1) = _
    split <;> simp <;> omega
  · have hib := layout.iblock_lt hi
    show getDinode (update m.blk _ _ (superBlock.iblock i)) _ = getDinode (update m.blk _ _ (superBlock.iblock i)) _
    rw [update_of_ne (by omega), update_of_ne (by omega)]
  · have hge : superBlock.dataStart ≤ c := hc.1
    rw [withInode_blk (by omega), withInode_blk (by omega)]
    rfl
  · show superBlock.dataStart ≤ _
    omega
  · exact hlt
  · show m.fs.used _ = _
    rw [used_fs _ hlt]
    simp
  · rw [withInode_blk (by omega)]
    exact congrFun hz x

/-! ## The block at the end of the file -/

/-- The inode has no block from `size` on, and zeros after `size` in the last block. -/
structure Tidy (blk : Nat → Block) (d : Dinode) (size : Nat) : Prop where
  tight : ∀ bn, size ≤ bn * bsize → addrOf blk d bn = 0
  table : size ≤ ndirect * bsize → d.addrs ndirect = 0
  tail : ∀ x, size ≤ x → addrOf blk d (x / bsize) ≠ 0 → rawByte blk d x = 0

/-- What holds at every step of `iappend`. -/
structure Base (inum : Nat) (m : Image) (din : Dinode) : Prop where
  inv : Inv All [] (m.withInode inum din)
  type : din.type ≠ 0
  zero : ∀ c, m.freeblock ≤ c → m.blk c = fun _ => 0
  metadata : nmeta ≤ m.freeblock

namespace Base

theorem entry (h : Base inum m din) : ((m.withInode inum din).inode 0).valid = true ∧
    ((m.withInode inum din).inode 0).d.type ≠ 0 := by
  rw [withInode_self]
  exact ⟨rfl, h.type⟩

theorem node (h : Base inum m din) : (m.withInode inum din).node inum = din := by
  rw [h.inv.table.node_of_valid withInode_at h.entry.1, withInode_self]

theorem alloc (h : Base inum m din) (hlt : m.freeblock < fsSize) :
    Alloc (m.withInode inum din) m.freeblock (m.fresh.withInode inum din) :=
  fresh_alloc h.metadata hlt (h.zero _ (Nat.le_refl _))

theorem mem {j : Nat} (h : Base inum m din) (hj : j < superBlock.ninodes) (ht : ((m.withInode inum din).node j).type ≠ 0)
    (hb : b ≠ 0) (hmem : b ∈ slots (m.withInode inum din).blk ((m.withInode inum din).node j)) :
    nmeta ≤ b ∧ b < m.freeblock := by
  obtain ⟨hdata, hused, _⟩ := h.inv.blocks.of_mem hj ht hb hmem
  have hused' : m.fs.used b = true := hused
  have hc := consts
  have hlow : superBlock.dataStart ≤ b := hdata.1
  have hhigh : b < superBlock.size := hdata.2
  rw [used_fs _ (by omega)] at hused'
  exact ⟨by omega, of_decide_eq_true hused'⟩

theorem table (h : Base inum m din) (hne : din.addrs ndirect ≠ 0) :
    nmeta ≤ din.addrs ndirect ∧ din.addrs ndirect < m.freeblock := by
  refine h.mem (h.inv.table.range 0 inum withInode_at).1 (by rw [h.node]; exact h.type) hne ?_
  rw [h.node]
  exact mem_slots_addrs (Nat.lt_succ_self _)

theorem indirect_eq {j : Nat} (h : Base inum m din) :
    indirect (m.withInode inum din).blk din j = indirect m.blk din j := by
  have hk := consts
  rw [indirect, indirect]
  split
  · rfl
  · rename_i hne
    have := h.table hne
    rw [withInode_blk (by omega)]

theorem fill (h : Base inum m din) (hk : k < ndirect + 1) (hz : din.addrs k = 0) (hlt : m.freeblock < fsSize) :
    Base inum m.fresh (din.fill k m.freeblock) ∧
      Grow 0 (m.withInode inum din) (m.fresh.withInode inum (din.fill k m.freeblock)) := by
  obtain ⟨hinv, hgrow⟩ := (h.alloc hlt).fill h.inv withInode_at h.entry.1 trivial h.entry.2 hk
    (by rw [withInode_self]; exact hz)
  rw [withInode_self, withInode_setD] at hinv hgrow
  exact ⟨⟨hinv, h.type, fun c hc => h.zero c (Nat.le_of_succ_le hc), Nat.le_succ_of_le h.metadata⟩, hgrow⟩

theorem fillEntry {j : Nat} (h : Base inum m din) (hne : din.addrs ndirect ≠ 0) (hj : j < nindirect)
    (hz : indirect m.blk din j = 0) (hlt : m.freeblock < fsSize) (hm : m' = m.fresh.write (din.addrs ndirect)
      (store 4 (m.blk (din.addrs ndirect)) (4 * j) m.freeblock)) :
    Base inum m' din ∧ Grow 0 (m.withInode inum din) (m'.withInode inum din) ∧
      ∀ k, indirect m'.blk din k = update (indirect m.blk din) j m.freeblock k := by
  have hc := consts
  obtain ⟨h₁, h₂⟩ := h.table hne
  have hblk : (m.withInode inum din).blk (din.addrs ndirect) = m.blk (din.addrs ndirect) := withInode_blk (by omega)
  have hblk' : (m.fresh.withInode inum din).blk (din.addrs ndirect) = m.blk (din.addrs ndirect) := withInode_blk (by omega)
  obtain ⟨hinv, hgrow, _⟩ := (h.alloc hlt).fillEntry (u := m'.withInode inum din) (j := j) h.inv withInode_at h.entry.1
    h.entry.2 (by rw [withInode_self]; exact hne) hj (by rw [withInode_self, h.indirect_eq]; exact hz)
    (by rw [hm]; rfl) rfl rfl (by rw [hm, withInode_write (by omega), withInode_self, hblk'])
  refine ⟨⟨hinv, h.type, fun c hc' => ?_, ?_⟩, hgrow, fun k => ?_⟩
  · subst hm
    have hc₁ : m.freeblock + 1 ≤ c := hc'
    show update m.blk _ _ c = _
    rw [update_of_ne (by omega)]
    exact h.zero c (by omega)
  · subst hm
    exact Nat.le_succ_of_le h.metadata
  · subst hm
    exact indirect_store rfl hne (by omega)

end Base

/-- What holds before a block is asked for at the end of the file. -/
structure Ready (inum off : Nat) (m : Image) (din : Dinode) : Prop extends Base inum m din where
  tidy : Tidy (m.withInode inum din).blk din off
  mapped : ∀ bn, bn * bsize < off → addrOf (m.withInode inum din).blk din bn ≠ 0

/-- `blockAddr` at the end `off` of the file returned `x`. -/
structure Extended (inum off : Nat) (m : Image) (din : Dinode) (x : Nat) (m' : Image) (din' : Dinode) : Prop where
  base : Base inum m' din'
  grow : Grow 0 (m.withInode inum din) (m'.withInode inum din')
  addr : addrOf (m'.withInode inum din').blk din' (off / bsize) = x
  pos : x ≠ 0
  other : ∀ bn, bn ≠ off / bsize →
    addrOf (m'.withInode inum din').blk din' bn = addrOf (m.withInode inum din).blk din bn
  table : off / bsize < ndirect → din'.addrs ndirect = din.addrs ndirect
  content : addrOf (m.withInode inum din).blk din (off / bsize) = x ∨ m'.blk x = fun _ => 0
  blocks : m'.freeblock + blocksFor off = m.freeblock + blocksFor (off + 1)
  frame : ∀ c, c < m.freeblock → din.addrs ndirect = 0 ∨ c ≠ din.addrs ndirect → m'.blk c = m.blk c
  freeinode : m'.freeinode = m.freeinode

/-! ## How many blocks -/

theorem blocksFor_within (h : off % bsize ≠ 0) : blocksFor (off + 1) = blocksFor off := by
  have hb : bsize = 1024 := rfl
  have hd : ndirect = 12 := rfl
  simp only [blocksFor, hb, hd] at h ⊢
  split <;> split <;> omega

theorem blocksFor_direct (h : off % bsize = 0) (hlt : off / bsize < ndirect) : blocksFor (off + 1) = blocksFor off + 1 := by
  have hb : bsize = 1024 := rfl
  have hd : ndirect = 12 := rfl
  simp only [blocksFor, hb, hd] at h hlt ⊢
  split <;> split <;> omega

theorem blocksFor_indirect (h : off % bsize = 0) (hge : ¬ off / bsize < ndirect) :
    blocksFor (off + 1) = blocksFor off + if off / bsize = ndirect then 2 else 1 := by
  have hb : bsize = 1024 := rfl
  have hd : ndirect = 12 := rfl
  simp only [blocksFor, hb, hd] at h hge ⊢
  split <;> split <;> split <;> omega

/-! ## `blockAddr` -/

theorem addrOf_of_parts {blk blk' : Nat → Block} {d d' : Dinode} {bn : Nat} (hdirect : bn < ndirect → d'.addrs bn = d.addrs bn)
    (hind : ¬ bn < ndirect → indirect blk' d' (bn - ndirect) = indirect blk d (bn - ndirect)) :
    addrOf blk' d' bn = addrOf blk d bn := by
  simp only [addrOf]
  split
  · exact hdirect ‹_›
  · rw [hind ‹_›]

namespace Ready

theorem same (h : Ready inum off m din) (hmod : off % bsize ≠ 0) :
    Extended inum off m din (addrOf (m.withInode inum din).blk din (off / bsize)) m din where
  base := h.toBase
  grow := Grow.refl _ _
  addr := rfl
  pos := h.mapped _ (by have := Nat.div_add_mod' off bsize; omega)
  other := fun _ _ => rfl
  table := fun _ => rfl
  content := Or.inl rfl
  blocks := by rw [blocksFor_within hmod]
  frame := fun _ _ _ => rfl
  freeinode := rfl

theorem missing (h : Ready inum off m din) (hmod : off % bsize = 0) : addrOf (m.withInode inum din).blk din (off / bsize) = 0 :=
  h.tidy.tight _ (by have := Nat.div_add_mod' off bsize; omega)

theorem direct (h : Ready inum off m din) (hmod : off % bsize = 0) (hlt : off / bsize < ndirect)
    (hfit : m.freeblock + blocksFor (off + 1) ≤ fsSize + blocksFor off) :
    Extended inum off m din m.freeblock m.fresh (din.fill (off / bsize) m.freeblock) := by
  have hk := consts
  have hmeta := h.metadata
  have hcost := blocksFor_direct hmod hlt
  have hz := h.missing hmod
  rw [addrOf, if_pos hlt] at hz
  obtain ⟨hbase, hgrow⟩ := h.fill (k := off / bsize) (by omega) hz (by omega)
  have htbl : (din.fill (off / bsize) m.freeblock).addrs ndirect = din.addrs ndirect := fill_ne (by omega)
  refine ⟨hbase, hgrow, ?_, by omega, fun bn hbn => addrOf_of_parts (fun _ => fill_ne hbn) fun _ => ?_, fun _ => htbl,
    Or.inr (h.zero _ (Nat.le_refl _)), ?_, fun _ _ _ => rfl, rfl⟩
  · rw [addrOf, if_pos hlt]
    exact fill_self
  · rw [hbase.indirect_eq, h.indirect_eq, indirect, indirect, htbl]
    rfl
  · rw [hcost]
    show m.freeblock + 1 + _ = _
    omega

theorem later (h : Ready inum off m din) (hmod : off % bsize = 0) (hge : ¬ off / bsize < ndirect)
    (hne : off / bsize ≠ ndirect) (hbn : off / bsize < maxFile) (hfit : m.freeblock + blocksFor (off + 1) ≤ fsSize + blocksFor off)
    (hm : m' = m.fresh.write (din.addrs ndirect)
      (store 4 (m.blk (din.addrs ndirect)) (4 * (off / bsize - ndirect)) m.freeblock)) :
    din.addrs ndirect ≠ 0 ∧ indirect m.blk din (off / bsize - ndirect) = 0 ∧ Extended inum off m din m.freeblock m' din := by
  have hk := consts
  have hs := sizes
  have hmeta := h.metadata
  have hcost := blocksFor_indirect hmod hge
  rw [if_neg hne] at hcost
  have hj : off / bsize - ndirect < nindirect := by omega
  have hz := h.missing hmod
  rw [addrOf, if_neg hge, if_pos hj, h.indirect_eq] at hz
  have htbl : din.addrs ndirect ≠ 0 := by
    have hlt : ndirect * bsize < off := by
      have hge' : ¬ off / 1024 < 12 := hge
      have hne' : off / 1024 ≠ 12 := hne
      show 12 * 1024 < off
      omega
    have := h.mapped ndirect hlt
    rw [addrOf, if_neg (Nat.lt_irrefl _), Nat.sub_self, if_pos (by omega), indirect] at this
    intro heq
    rw [if_pos heq] at this
    exact this rfl
  obtain ⟨_, hlt⟩ := h.table htbl
  obtain ⟨hbase, hgrow, hind⟩ := h.fillEntry htbl hj hz (by omega) hm
  refine ⟨htbl, hz, hbase, hgrow, ?_, by omega, fun bn hbn' => addrOf_of_parts (fun _ => rfl) fun hbn₂ => ?_, fun _ => rfl,
    Or.inr ?_, ?_, fun c _ hc => ?_, by rw [hm]; rfl⟩
  · rw [addrOf, if_neg hge, if_pos hj, hbase.indirect_eq, hind, update_self]
  · rw [hbase.indirect_eq, h.indirect_eq, hind, update_of_ne (by omega)]
  · rw [hm]
    show update m.blk _ _ _ = _
    rw [update_of_ne (by omega)]
    exact h.zero _ (Nat.le_refl _)
  · rw [hcost, hm]
    show m.freeblock + 1 + _ = _
    omega
  · rw [hm]
    exact update_of_ne (hc.resolve_left htbl) ..

theorem first (h : Ready inum off m din) (hmod : off % bsize = 0) (heq : off / bsize = ndirect)
    (hfit : m.freeblock + blocksFor (off + 1) ≤ fsSize + blocksFor off)
    (hm : m' = m.fresh.fresh.write m.freeblock (store 4 (m.blk m.freeblock) (4 * (off / bsize - ndirect)) (m.freeblock + 1))) :
    din.addrs ndirect = 0 ∧ Extended inum off m din (m.freeblock + 1) m' (din.fill ndirect m.freeblock) := by
  have hk := consts
  have hs := sizes
  have hmeta := h.metadata
  have hcost := blocksFor_indirect hmod (by omega)
  rw [if_pos heq] at hcost
  have hoff : off = ndirect * bsize := by
    have := Nat.div_add_mod' off bsize
    rw [heq] at this
    omega
  have hz : din.addrs ndirect = 0 := h.tidy.table (Nat.le_of_eq hoff)
  obtain ⟨hbase, hgrow⟩ := h.fill (Nat.lt_succ_self _) hz (by omega)
  have hnone : ∀ j, j < nindirect → indirect m.fresh.blk (din.fill ndirect m.freeblock) j = 0 := fun j hj => by
    have hfill : indirect m.fresh.blk (din.fill ndirect m.freeblock) j = indirect m.fresh.blk din j :=
      indirect_fill hz (fun x _ => congrFun (h.zero _ (Nat.le_refl _)) x) hj
    rw [hfill, indirect, if_pos hz]
  have hj : off / bsize - ndirect < nindirect := by omega
  have hm' : m' = m.fresh.fresh.write ((din.fill ndirect m.freeblock).addrs ndirect)
      (store 4 (m.fresh.blk ((din.fill ndirect m.freeblock).addrs ndirect)) (4 * (off / bsize - ndirect)) m.fresh.freeblock) := by
    rw [fill_self, hm]
    rfl
  obtain ⟨hbase', hgrow', hind⟩ := hbase.fillEntry (by rw [fill_self]; omega) hj (hnone _ hj)
    (by show m.freeblock + 1 < _; omega) hm'
  refine ⟨hz, hbase', hgrow.trans hgrow', ?_, by omega, fun bn hbn => addrOf_of_parts (fun hlt => fill_ne (by omega)) fun hge => ?_,
    fun hlt => absurd hlt (by omega), Or.inr ?_, ?_, fun c hc _ => ?_, by rw [hm]; rfl⟩
  · rw [addrOf, if_neg (by omega), if_pos hj, hbase'.indirect_eq, hind, update_self]
    rfl
  · rw [hbase'.indirect_eq, h.indirect_eq, hind, update_of_ne (by omega), indirect, indirect, if_pos hz, fill_self,
      if_neg (by omega)]
    have hzero : m.fresh.blk m.freeblock = fun _ => 0 := h.zero _ (Nat.le_refl _)
    rw [hzero]
    exact load_zero _ _
  · rw [hm]
    show update m.blk _ _ _ = _
    rw [update_of_ne (by omega)]
    exact h.zero _ (by omega)
  · rw [hcost, hm]
    show m.freeblock + 1 + 1 + _ = _
    omega
  · rw [hm]
    show update m.blk _ _ _ = _
    rw [update_of_ne (by omega)]

end Ready

theorem blockAddr_spec (h : Ready inum off m din) (hbn : off / bsize < maxFile)
    (hfit : m.freeblock + blocksFor (off + 1) ≤ fsSize + blocksFor off) :
    wp (blockAddr din (off / bsize)) (fun r m' => Extended inum off m din r.1 m' r.2) (fun _ _ => False) m := by
  have hs := sizes
  by_cases hmod : off % bsize = 0
  · have hz := h.missing hmod
    rw [blockAddr]
    refine wp_ite (fun hlt => ?_) fun hge => ?_
    · rw [addrOf, if_pos hlt] at hz
      simp only [fillAddr, hz, if_true, wp_bind, freshBlock, wp_get, wp_set, wp_pure, update_self]
      exact h.direct hmod hlt hfit
    · simp only [wp_bind, rsect, wp_get, wp_pure]
      by_cases heq : off / bsize = ndirect
      · obtain ⟨htbl, hext⟩ := h.first hmod heq hfit rfl
        simp only [fillAddr, htbl, if_true, wp_bind, freshBlock, wp_get, wp_set, wp_pure, update_self]
        have hzero : m.blk m.freeblock = fun _ => 0 := h.zero _ (Nat.le_refl _)
        rw [if_pos (by rw [hzero]; exact load_zero _ _)]
        exact hext
      · obtain ⟨htbl, hind, hext⟩ := h.later hmod hge heq hbn hfit rfl
        simp only [fillAddr, htbl, if_false, wp_pure]
        rw [indirect, if_neg htbl] at hind
        rw [if_pos hind]
        exact hext
  · have hext := h.same hmod
    have hne := hext.pos
    rw [blockAddr]
    refine wp_ite (fun hlt => ?_) fun hge => ?_
    · rw [addrOf, if_pos hlt] at hext hne
      simp only [wp_bind, fillAddr, if_neg hne, wp_pure]
      exact hext
    · rw [addrOf, if_neg hge, if_pos (show off / bsize - ndirect < nindirect by omega), h.indirect_eq] at hext hne
      have htbl : din.addrs ndirect ≠ 0 := fun hz => hne (by rw [indirect, if_pos hz])
      rw [indirect, if_neg htbl] at hext hne
      simp only [wp_bind, fillAddr, if_neg htbl, rsect, wp_get, wp_pure, if_neg hne]
      exact hext

/-! ## The loop -/

/-- The image in the loop of `iappend`, `tot` bytes written. -/
structure Frame (inum : Nat) (p : Bytes) (m₀ : Image) (din₀ : Dinode) (tot : Nat) (m : Image) (din : Dinode) : Prop where
  start : Base inum m₀ din₀
  base : Base inum m din
  writing : Writing All 0 inum (fun x => some (p x)) din₀.size tot 0 (m₀.withInode inum din₀) (m.withInode inum din)
  low : ∀ c, c < nmeta → m.blk c = m₀.blk c
  others : ∀ j, j ≠ inum → j < superBlock.ninodes → ((m₀.withInode inum din₀).node j).type ≠ 0 →
    ∀ c ∈ slots (m₀.withInode inum din₀).blk ((m₀.withInode inum din₀).node j), c ≠ 0 → m.blk c = m₀.blk c
  freeinode : m.freeinode = m₀.freeinode

namespace Frame

variable {m₀ : Image} {din₀ din' : Dinode} {x j : Nat}

theorem refl (h : Base inum m din) : Frame inum p m din 0 m din where
  start := h
  base := h
  writing := by
    have hN := h.inv.blocks.noHole inum (h.inv.table.range 0 inum withInode_at).1 (by rw [h.node]; exact h.type)
    rw [h.node] at hN
    exact Writing.start 0 inum _ h.inv (by rw [withInode_self]; exact hN) (by rw [withInode_self])
  low := fun _ _ => rfl
  others := fun _ _ _ _ _ _ _ => rfl
  freeinode := rfl

theorem mem_other (h : Frame inum p m₀ din₀ tot m din) (hj : j ≠ inum) (hlt : j < superBlock.ninodes)
    (ht : ((m₀.withInode inum din₀).node j).type ≠ 0)
    (hc : c ∈ slots (m₀.withInode inum din₀).blk ((m₀.withInode inum din₀).node j)) :
    ((m.withInode inum din).node j).type ≠ 0 ∧ c ∈ slots (m.withInode inum din).blk ((m.withInode inum din).node j) := by
  have hk := consts
  have hnode : (m.withInode inum din).node j = (m₀.withInode inum din₀).node j :=
    node_of_other withInode_at h.writing.other ⟨din, by rw [withInode_self, withInode_self]⟩ hj (h.writing.disk j hlt)
  rw [hnode]
  refine ⟨ht, ?_⟩
  rw [slots_congr fun x _ => ?_]
  · exact hc
  · by_cases hz : ((m₀.withInode inum din₀).node j).addrs ndirect = 0
    · exact Or.inr hz
    · have hmem : _ ∈ slots (m₀.withInode inum din₀).blk ((m₀.withInode inum din₀).node j) :=
        mem_slots_addrs (Nat.lt_succ_self ndirect)
      have hge := h.start.mem hlt ht hz hmem
      rw [withInode_blk (by omega), withInode_blk (by omega), h.others j hj hlt ht _ hmem hz]
      exact Or.inl rfl

theorem mem_self (h : Base inum m din) (hx : x ≠ 0) (hmem : x ∈ slots (m.withInode inum din).blk din) (hj : j ≠ inum)
    (hlt : j < superBlock.ninodes) (ht : ((m.withInode inum din).node j).type ≠ 0)
    (hc : c ∈ slots (m.withInode inum din).blk ((m.withInode inum din).node j)) : c ≠ x :=
  h.inv.blocks.other (h.inv.table.range 0 inum withInode_at).1 (by rw [h.node]; exact h.type) hx (by rw [h.node]; exact hmem)
    hlt hj ht hc

theorem extend (h : Frame inum p m₀ din₀ tot m din) (hx : Extended inum off m din x m' din') :
    Frame inum p m₀ din₀ tot m' din' where
  start := h.start
  base := hx.base
  writing := h.writing.grow hx.base.inv hx.grow
  low := fun c hc => by
    have hmeta := h.base.metadata
    refine (hx.frame c (by omega) ?_).trans (h.low c hc)
    by_cases hz : din.addrs ndirect = 0
    · exact Or.inl hz
    · have := h.base.table hz
      exact Or.inr (by omega)
  others := fun j hj hlt ht c hc hc0 => by
    obtain ⟨ht', hmem⟩ := h.mem_other hj hlt ht hc
    refine (hx.frame c (h.base.mem hlt ht' hc0 hmem).2 ?_).trans (h.others j hj hlt ht c hc hc0)
    by_cases hz : din.addrs ndirect = 0
    · exact Or.inl hz
    · exact Or.inr (mem_self h.base hz (mem_slots_addrs (Nat.lt_succ_self _)) hj hlt ht' hmem)
  freeinode := hx.freeinode.trans h.freeinode

/-- `n` bytes go to the block `x` at the end of what is written. -/
theorem write (h : Frame inum p m₀ din₀ tot m din) (hx : addrOf (m.withInode inum din).blk din ((din₀.size + tot) / bsize) = x)
    (hne : x ≠ 0) (hn : (din₀.size + tot) % bsize + n ≤ bsize)
    (hm : m' = m.write x (blit (m.blk x) ((din₀.size + tot) % bsize) p tot n)) :
    Frame inum p m₀ din₀ (tot + n) m' din := by
  have hk := consts
  subst hx
  have hmem := mem_slots_addrOf hne
  have hown := h.base.mem (h.base.inv.table.range 0 inum withInode_at).1 (by rw [h.base.node]; exact h.base.type) hne
    (by rw [h.base.node]; exact hmem)
  obtain ⟨hv₀, ht₀⟩ := h.start.entry
  have hblk : (m.withInode inum din).blk (addrOf (m.withInode inum din).blk din ((din₀.size + tot) / bsize)) =
      m.blk (addrOf (m.withInode inum din).blk din ((din₀.size + tot) / bsize)) := withInode_blk (by omega)
  have hw := h.writing.write (u := m'.withInode inum din) (m := n) (r := 0) withInode_at hv₀ ht₀
    (by rw [withInode_self]; exact hne) (by rw [hm]; rfl) rfl rfl (by
      rw [withInode_self, hm, withInode_write (by omega), hblk]
      rfl) hn
  refine ⟨h.start, ⟨hw.inv, h.base.type, fun c hc => ?_, by rw [hm]; exact h.base.metadata⟩, hw, fun c hc => ?_,
    fun j hj hlt ht c hc hc0 => ?_, by rw [hm]; exact h.freeinode⟩
  · rw [hm] at hc ⊢
    have hc' : m.freeblock ≤ c := hc
    exact (update_of_ne (by omega) ..).trans (h.base.zero c hc')
  · rw [hm]
    exact (update_of_ne (by omega) ..).trans (h.low c hc)
  · obtain ⟨ht', hmem'⟩ := h.mem_other hj hlt ht hc
    rw [hm]
    exact (update_of_ne (mem_self h.base hne hmem hj hlt ht' hmem') ..).trans (h.others j hj hlt ht c hc hc0)

end Frame

theorem Extended.tidy {x : Nat} {m₁ : Image} {din' : Dinode} (hx : Extended inum off m din x m' din')
    (h : Tidy (m.withInode inum din).blk din off) (hpos : 0 < n) (hn : off % bsize + n ≤ bsize)
    (hm : m₁ = m'.write x (blit (m'.blk x) (off % bsize) p tot n)) :
    Tidy (m₁.withInode inum din').blk din' (off + n) := by
  have hk := consts
  have hn' : off % 1024 + n ≤ 1024 := hn
  have hnode := hx.base.node
  have hne : addrOf (m'.withInode inum din').blk din' (off / bsize) ≠ 0 := by rw [hx.addr]; exact hx.pos
  have hown := hx.base.mem (hx.base.inv.table.range 0 inum withInode_at).1 (by rw [hnode]; exact hx.base.type) hx.pos
    (by rw [hnode, ← hx.addr]; exact mem_slots_addrOf hne)
  have hblk : (m₁.withInode inum din').blk = ((m'.withInode inum din').setBlk (addrOf (m'.withInode inum din').blk
      ((m'.withInode inum din').inode 0).d (off / bsize)) (blit (m'.blk x) (off % bsize) p tot n)).blk := by
    rw [withInode_self, hx.addr, hm, withInode_write (by omega)]
  obtain ⟨_, _, _, haddr, hraw⟩ := hx.base.inv.writeData (u := m₁.withInode inum din') withInode_at hx.base.entry.1
    hx.base.entry.2 (by rw [withInode_self]; exact hne) (by rw [hm]; rfl) rfl hblk
  rw [withInode_self] at haddr hraw
  simp only at haddr hraw
  have htight : ∀ bn, off + n ≤ bn * bsize → addrOf (m'.withInode inum din').blk din' bn = 0 := by
    intro bn hbn
    have hbn' : off + n ≤ bn * 1024 := hbn
    have hne' : bn ≠ off / 1024 := by omega
    rw [hx.other bn hne']
    exact h.tight bn (by omega)
  refine ⟨fun bn hbn => (haddr bn).trans (htight bn hbn), fun hle => ?_, fun y hy hmap => ?_⟩
  · have hlt : off / 1024 < 12 := by
      have hle' : off + n ≤ 12 * 1024 := hle
      omega
    rw [hx.table hlt]
    exact h.table (by omega)
  · rw [haddr] at hmap
    -- the byte is in the block that was asked for
    have hblock : y / bsize = off / bsize := by
      by_contra hno
      have hno' : ¬ y / 1024 = off / 1024 := hno
      refine hmap (htight _ ?_)
      show off + n ≤ y / 1024 * 1024
      omega
    have hpos' : ¬ (off % bsize ≤ y % bsize ∧ y % bsize < off % bsize + n) := by
      have hblock' : y / 1024 = off / 1024 := hblock
      show ¬ (off % 1024 ≤ y % 1024 ∧ y % 1024 < off % 1024 + n)
      omega
    rw [hraw y hmap, if_pos hblock, blit_apply_of_lt (by omega)]
    rcases hx.content with hold | hzero
    · have hold' : addrOf (m.withInode inum din).blk din (off / bsize) ≠ 0 := by rw [hold]; exact hx.pos
      have hsame := (hx.grow.mapped (off / bsize) (by rw [withInode_self]; exact hold')).2
      rw [withInode_self] at hsame
      simp only [hold] at hsame
      have htail := h.tail y (by omega) (by rw [hblock]; exact hold')
      rw [rawByte, hblock, hold, ← hsame, withInode_blk (by omega)] at htail
      exact htail
    · rw [hzero]

theorem blocksFor_succ (hpos : 0 < n) (hn : off % bsize + n ≤ bsize) : blocksFor (off + n) = blocksFor (off + 1) := by
  have hb : bsize = 1024 := rfl
  have hd : ndirect = 12 := rfl
  simp only [blocksFor, hb, hd] at hn ⊢
  split <;> split <;> omega

theorem blocksFor_mono {a : Nat} (h : a ≤ b) : blocksFor a ≤ blocksFor b := by
  have hb : bsize = 1024 := rfl
  have hd : ndirect = 12 := rfl
  simp only [blocksFor, hb, hd]
  split <;> split <;> omega

/-- The loop of `iappend` after `tot` bytes. -/
structure Appending (inum : Nat) (p : Bytes) (m₀ : Image) (din₀ : Dinode) (tot : Nat) (m : Image) (din : Dinode) : Prop
    extends Frame inum p m₀ din₀ tot m din where
  tidy : Tidy (m.withInode inum din).blk din (din₀.size + tot)
  blocks : m.freeblock + blocksFor din₀.size = m₀.freeblock + blocksFor (din₀.size + tot)

theorem Appending.ready {m₀ : Image} {din₀ : Dinode} (h : Appending inum p m₀ din₀ tot m din) :
    Ready inum (din₀.size + tot) m din := by
  refine ⟨h.base, h.tidy, fun bn hbn => ?_⟩
  have := h.writing.mapped bn
  rw [withInode_self, withInode_self] at this
  exact this (by simp only; omega)

theorem iappendLoop_spec {m₀ : Image} {din₀ : Dinode} (h : Appending inum p m₀ din₀ tot m din)
    (hmax : din₀.size + n ≤ maxFile * bsize) (htot : tot ≤ n) (hk : n - tot ≤ k)
    (hfit : m₀.freeblock + blocksFor (din₀.size + n) ≤ fsSize + blocksFor din₀.size) :
    wp (iappendLoop p n k tot (din₀.size + tot) din) (fun r m' => r.1 = din₀.size + n ∧ Appending inum p m₀ din₀ n m' r.2)
      (fun _ _ => False) m := by
  have hb : bsize = 1024 := rfl
  induction k generalizing tot m din with
  | zero =>
      obtain rfl : tot = n := by omega
      exact ⟨rfl, h⟩
  | succ k ih =>
      rw [iappendLoop]
      refine wp_ite (fun hlt => ?_) fun hge => ?_
      · have hbn : (din₀.size + tot) / bsize < maxFile := by
          have hmax' : din₀.size + n ≤ 268 * 1024 := hmax
          show (din₀.size + tot) / 1024 < 268
          omega
        rw [if_pos hbn, wp_bind]
        have hblocks := h.blocks
        have hmono := blocksFor_mono (show din₀.size + tot + 1 ≤ din₀.size + n by omega)
        refine wp_post (blockAddr_spec h.ready hbn (by omega)) ?_
        rintro ⟨x, din'⟩ m' hx
        simp only [wp_bind, rsect, wsect, wp_get, wp_pure, wp_modify]
        have hmod : din₀.size + tot - (din₀.size + tot) / bsize * bsize = (din₀.size + tot) % bsize := by
          rw [hb]
          omega
        have hn1 : ((din₀.size + tot) / bsize + 1) * bsize - (din₀.size + tot) = bsize - (din₀.size + tot) % bsize := by
          rw [hb]
          omega
        rw [hmod, hn1]
        have hle : (din₀.size + tot) % bsize + min (n - tot) (bsize - (din₀.size + tot) % bsize) ≤ bsize := by
          rw [hb]
          omega
        have hpos : 0 < min (n - tot) (bsize - (din₀.size + tot) % bsize) := by
          rw [hb]
          omega
        rw [Nat.add_assoc]
        refine ih ⟨(h.toFrame.extend hx).write hx.addr hx.pos hle rfl, ?_, ?_⟩ (by omega) (by omega)
        · rw [← Nat.add_assoc]
          exact hx.tidy h.tidy hpos hle rfl
        · have hcost := hx.blocks
          rw [← Nat.add_assoc, blocksFor_succ hpos hle]
          show m'.freeblock + _ = _
          omega
      · obtain rfl : tot = n := by omega
        exact ⟨rfl, h⟩

theorem iappendLoop_start (h : Base inum m din) (htidy : Tidy (m.withInode inum din).blk din din.size)
    (hmax : din.size + n ≤ maxFile * bsize) (hfit : m.freeblock + blocksFor (din.size + n) ≤ fsSize + blocksFor din.size) :
    wp (iappendLoop p n n 0 din.size din) (fun r m' => r.1 = din.size + n ∧ Appending inum p m din n m' r.2)
      (fun _ _ => False) m := by
  have hstart : Appending inum p m din 0 m din := ⟨.refl h, htidy, rfl⟩
  exact iappendLoop_spec hstart hmax (Nat.zero_le _) (Nat.le_refl _) hfit

end Xv6.Mkfs
