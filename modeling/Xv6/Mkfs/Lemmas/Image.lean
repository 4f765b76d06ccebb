import Xv6.Mkfs.Lemmas.Append

/-!
# The image as it grows

Between two calls the image has the files `F`, and its inodes agree with the disk.
-/

namespace Xv6.Mkfs

open Lib Fs Function

variable {m m' : Image} {inum i j b c k n off : Nat} {din : Dinode} {p : Bytes} {F : Files} {f : FileView}

/-- An inode that nobody has taken. -/
def blank : Dinode := ⟨0, 0, 0, 0, 0, fun _ => 0⟩

/-- The image between two calls. -/
structure Built (m : Image) (F : Files) : Prop where
  ok : Ok m.fs
  file : m.fs.file = F
  zero : ∀ c, m.freeblock ≤ c → m.blk c = fun _ => 0
  metadata : nmeta ≤ m.freeblock
  free : ∀ i, i = 0 ∨ m.freeinode ≤ i → i < nInodes → m.fs.disk i = blank
  pos : m.freeinode ≠ 0
  super : m.blk 1 = putSuper (fun _ => 0) superBlock
  boot : m.blk 0 = fun _ => 0

/-- Inode `i` has only the blocks that its size asks for. -/
def Image.TidyAt (m : Image) (i : Nat) : Prop := Tidy m.fs.blk (m.fs.disk i) (m.fs.disk i).size

/-! ## The inode table -/

theorem not_at_fs (e i : Nat) : ¬ m.fs.At e i := fun h => absurd h.ref (Nat.lt_irrefl 0)

theorem table_fs (m : Image) : TableOk (fun _ => False) m.fs where
  uniq := fun e _ i h _ => absurd h (not_at_fs e i)
  range := fun e i h => absurd h (not_at_fs e i)
  pos := fun e i h => absurd h (not_at_fs e i)
  wf := fun e i h => absurd h (not_at_fs e i)
  clean := fun e i h => absurd h (not_at_fs e i)
  typed := fun e i h => absurd h (not_at_fs e i)

theorem node_fs (m : Image) (i : Nat) : m.fs.node i = m.fs.disk i := (table_fs m).node_of_none fun e => not_at_fs e i

theorem at_withInode {e : Nat} (h : (m.withInode inum din).At e i) : e = 0 ∧ i = inum := by
  by_cases he : e = 0
  · subst he
    have hinum := h.inum
    rw [withInode_self] at hinum
    exact ⟨rfl, hinum.symm⟩
  · have href := h.ref
    rw [Image.withInode, setInode_ne he] at href
    exact absurd href (Nat.lt_irrefl 0)

theorem table_withInode (hlt : inum < superBlock.ninodes) (hpos : inum ≠ 0) (hwf : din.Wf) :
    TableOk All (m.withInode inum din) where
  uniq := fun e e' i h h' => (at_withInode h).1.trans (at_withInode h').1.symm
  range := fun e i h => by
    obtain ⟨rfl, rfl⟩ := at_withInode h
    rw [withInode_self]
    exact ⟨hlt, rfl⟩
  pos := fun e i h => (at_withInode h).2 ▸ hpos
  wf := fun e i h _ => by
    obtain ⟨rfl, rfl⟩ := at_withInode h
    rw [withInode_self]
    exact hwf
  clean := fun _ _ _ _ h => absurd trivial h
  typed := fun _ _ _ _ h => absurd trivial h

theorem table_withInode_disk (hlt : inum < superBlock.ninodes) (hpos : inum ≠ 0) (htype : (m.fs.disk inum).type ≠ 0) :
    TableOk (fun _ => False) (m.withInode inum (m.fs.disk inum)) := by
  obtain ⟨huniq, hrange, hpos', hwf, _, _⟩ := table_withInode (m := m) hlt hpos (getDinode_wf (m.fs.blk _) _ : (m.fs.disk inum).Wf)
  refine ⟨huniq, hrange, hpos', hwf, fun e i h _ _ => ?_, fun e i h _ _ => ?_⟩
  · obtain ⟨rfl, rfl⟩ := at_withInode h
    rw [withInode_self]
    rfl
  · obtain ⟨rfl, rfl⟩ := at_withInode h
    rw [withInode_self]
    exact htype

/-- A copy of the inode that is as on the disk makes no difference. -/
theorem same_withInode (hlt : inum < superBlock.ninodes) (hpos : inum ≠ 0) (hdin : m.fs.disk inum = din) :
    Same m.fs (m.withInode inum din) := by
  have htab := table_withInode (m := m) hlt hpos (show din.Wf by rw [← hdin]; exact getDinode_wf _ _)
  refine ⟨rfl, rfl, rfl, rfl, fun i _ => ?_⟩
  rw [node_fs]
  obtain rfl | hne := eq_or_ne i inum
  · rw [htab.node_of_valid withInode_at (by rw [withInode_self]), withInode_self, hdin]
  · rw [htab.node_of_none fun e h => hne (at_withInode h).2]
    rfl

theorem same_fs (hlt : inum < superBlock.ninodes) (hpos : inum ≠ 0) (hdin : m.fs.disk inum = din) :
    Same (m.withInode inum din) m.fs := by
  have h := same_withInode hlt hpos hdin
  exact ⟨rfl, rfl, rfl, rfl, fun i hi => (h.node i hi).symm⟩

/-! ## `iappend` -/

namespace Built

theorem lt (h : Built m F) (hf : F i = some f) : i < superBlock.ninodes ∧ (m.fs.disk i).type ≠ 0 ∧
    fileOf m.fs.blk (m.fs.disk i) = f := by
  rw [← h.file, Fs.file, node_fs] at hf
  split at hf
  · rename_i hc
    exact ⟨hc.1, hc.2, Option.some.inj hf⟩
  · cases hf

theorem ne_zero (h : Built m F) (hf : F i = some f) : i ≠ 0 := by
  rintro rfl
  have hk := consts
  refine (h.lt hf).2.1 ?_
  rw [h.free 0 (Or.inl rfl) (by omega)]
  rfl

theorem lt_freeinode (h : Built m F) (hf : F i = some f) : i < m.freeinode := by
  have hk := consts
  obtain ⟨h₁, h₂, _⟩ := h.lt hf
  by_contra hge
  refine h₂ ?_
  rw [h.free i (Or.inr (by omega)) (by omega)]
  rfl

theorem base (h : Built m F) (hf : F inum = some f) : Base inum m (m.fs.disk inum) where
  inv := by
    obtain ⟨hlt, _⟩ := h.lt hf
    exact (same_withInode hlt (h.ne_zero hf) rfl).inv h.ok (table_withInode hlt (h.ne_zero hf) (getDinode_wf _ _))
  type := (h.lt hf).2.1
  zero := h.zero
  metadata := h.metadata

/-- In a transaction on the image, inode `i` has been read into the inode table. -/
theorem held (h : Built m F) (hf : F i = some f) (logged : List Nat) : ∃ s : Fs, Ok s ∧ s.trans = true ∧ s.logged = logged ∧
    Entry s 0 i f ∧ s.sb = superBlock ∧ s.file = F ∧ (s.inode 0).locked = false ∧
      ∀ e, e ≠ 0 → (s.inode e).ref = 0 ∧ (s.inode e).locked = false := by
  obtain ⟨hlt, htype, _⟩ := h.lt hf
  have hpos := h.ne_zero hf
  have hsame := same_withInode (m := m) hlt hpos rfl
  have hok : Ok (m.withInode i (m.fs.disk i)) := hsame.inv h.ok (table_withInode_disk hlt hpos htype)
  have hfile : (m.withInode i (m.fs.disk i)).file = F := by rw [hsame.file, h.file]
  have hvalid : ((m.withInode i (m.fs.disk i)).inode 0).valid = true := by rw [withInode_self]
  let t : Fs := { m.withInode i (m.fs.disk i) with trans := true, logged := logged }
  have hinode : t.inode = (m.withInode i (m.fs.disk i)).inode := rfl
  obtain ⟨h₁, h₂⟩ := hok.of_eq (t := t) rfl rfl rfl
  refine ⟨t, h₁, rfl, rfl, ⟨(at_iff hinode).2 withInode_at, hvalid, by rw [h₂, hfile]; exact hf⟩, rfl, by rw [h₂, hfile],
    by rw [hinode, withInode_self], fun e he => ?_⟩
  rw [hinode, Image.withInode, setInode_ne he]
  exact ⟨rfl, rfl⟩

end Built

theorem Tidy.congr {blk blk' : Nat → Block} {d d' : Dinode} {size : Nat} (h : Tidy blk d size) (haddrs : d'.addrs = d.addrs)
    (hblk : ∀ c ∈ slots blk d, c ≠ 0 → blk' c = blk c) : Tidy blk' d' size := by
  have haddr : ∀ bn, addrOf blk' d' bn = addrOf blk d bn := fun bn => by
    rw [addrOf_of_addrs haddrs]
    refine addrOf_congr fun x _ => ?_
    by_cases hz : d.addrs ndirect = 0
    · exact Or.inr hz
    · exact Or.inl (congrFun (hblk _ (mem_slots_addrs (Nat.lt_succ_self _)) hz) x)
  refine ⟨fun bn hbn => (haddr bn).trans (h.tight bn hbn), fun hle => (congrFun haddrs _).trans (h.table hle), fun x hx hne => ?_⟩
  rw [haddr] at hne
  rw [rawByte, haddr, hblk _ (mem_slots_addrOf hne) hne]
  exact h.tail x hx hne

/-- What `iappend` leaves. -/
structure Appended (inum n : Nat) (p : Bytes) (m : Image) (F : Files) (f : FileView) (m' : Image) (f' : FileView) : Prop where
  built : Built m' (update F inum (some f'))
  written : Written f (fun x => some (p x)) f.size n 0 f'
  tidy : m'.TidyAt inum
  disk : ∀ j, j ≠ inum → j < superBlock.ninodes → m'.fs.disk j = m.fs.disk j
  others : ∀ j, j ≠ inum → j < superBlock.ninodes → (m.fs.disk j).type ≠ 0 → m.TidyAt j → m'.TidyAt j
  blocks : m'.freeblock + blocksFor f.size = m.freeblock + blocksFor (f.size + n)
  freeinode : m'.freeinode = m.freeinode

theorem iblock_bound (hlt : inum < superBlock.ninodes) : 33 ≤ superBlock.iblock inum ∧ superBlock.iblock inum < 46 := by
  have hk := consts
  have hipb : ipb = 16 := rfl
  simp only [Super.iblock, hipb]
  omega

theorem Appending.close {m₁ : Image} {din' : Dinode} (h : Appending inum p m (m.fs.disk inum) n m₁ din') (hb : Built m F)
    (hf : F inum = some f) (hmax : f.size + n ≤ maxFile * bsize)
    (hm : m' = m₁.write (superBlock.iblock inum) (putDinode (m₁.blk (superBlock.iblock inum)) (ipos inum)
      { din' with size := (m.fs.disk inum).size + n })) : ∃ f', Appended inum n p m F f m' f' := by
  have hk := consts
  obtain ⟨hlt, htype, hfile⟩ := hb.lt hf
  have hpos := hb.ne_zero hf
  have hib := iblock_bound hlt
  have hmeta := h.base.metadata
  have hsize : f.size = (m.fs.disk inum).size := by rw [← hfile]; rfl
  have hsame := same_withInode hlt hpos (rfl : m.fs.disk inum = _)
  obtain ⟨h₁, _, _, _, h₅, f', h₆, h₇⟩ := h.writing.finish withInode_at h.start.entry.1 trivial h.start.entry.2
    (f := f) (by rw [withInode_self]) (by rw [← hsize]; exact hmax) (by rw [withInode_self]; exact hfile)
  have hd : din'.size = (m.fs.disk inum).size := by
    have := h.writing.size
    rwa [withInode_self, withInode_self] at this
  -- the size is written also if no byte was added
  have hu : (if (m.fs.disk inum).size + n > ((m₁.withInode inum din').inode 0).d.size then (m₁.withInode inum din').setD 0
      { ((m₁.withInode inum din').inode 0).d with size := (m.fs.disk inum).size + n } else m₁.withInode inum din') =
      m₁.withInode inum { din' with size := (m.fs.disk inum).size + n } := by
    rw [withInode_self]
    split
    · exact withInode_setD _
    · rename_i hle
      simp only [hd] at hle
      rw [show (m.fs.disk inum).size + n = din'.size by omega]
  rw [hu] at h₁ h₅ h₆
  have hupd : Updated 0 inum (m₁.withInode inum { din' with size := (m.fs.disk inum).size + n })
      (m'.withInode inum { din' with size := (m.fs.disk inum).size + n }) := by
    refine .of_blk h₁.layout h₁.table withInode_at (by rw [withInode_self]) (by rw [hm]; rfl) rfl rfl ?_ (Logs.of_eq rfl)
    rw [hm, withInode_write (by omega), withInode_self]
    show _ = ((m₁.withInode inum _).setBlk (superBlock.iblock inum) (putDinode ((m₁.withInode inum _).blk (superBlock.iblock inum)) _ _)).blk
    rw [withInode_blk (by omega)]
  have hinv : Inv All [] _ := hupd.inv (Y := All) h₁ withInode_at (Or.inl trivial) fun _ _ _ => trivial
  have hdisk : m'.fs.disk = update m₁.fs.disk inum { din' with size := (m.fs.disk inum).size + n } := by
    refine hupd.disk.trans ?_
    rw [withInode_self]
    rfl
  have hself : m'.fs.disk inum = { din' with size := (m.fs.disk inum).size + n } := by rw [hdisk, update_self]
  have hother : ∀ j, j ≠ inum → j < superBlock.ninodes → m'.fs.disk j = m.fs.disk j := fun j hj hlt' => by
    rw [hdisk, update_of_ne hj]
    exact h.writing.disk j hlt'
  have hback := same_fs (m := m') hlt hpos hself
  have hblk : ∀ c, nmeta ≤ c → m'.fs.blk c = m₁.blk c := fun c hc => by
    show update m'.blk _ _ c = _
    rw [update_of_ne (by omega), hm]
    exact update_of_ne (by omega) ..
  have hlow : ∀ c, c < 33 → m'.blk c = m.blk c := fun c hc => by
    rw [hm]
    exact (update_of_ne (by omega) ..).trans (h.low c (by omega))
  have hfreeinode : m'.freeinode = m.freeinode := by rw [hm]; exact h.freeinode
  have hfreeblock : m'.freeblock = m₁.freeblock := by rw [hm]; rfl
  refine ⟨f', ⟨hback.inv hinv (table_fs m'), ?_, fun c hc => ?_, by omega, fun i hi hlt' => ?_, by rw [hfreeinode]; exact hb.pos,
    (hlow 1 (by omega)).trans hb.super, (hlow 0 (by omega)).trans hb.boot⟩, by rw [hsize]; exact h₇, ?_,
    hother, fun j hj hlt' htj htidy => ?_, ?_, hfreeinode⟩
  · rw [hback.file, hupd.file h₁.blocks, h₆, hsame.file, hb.file]
  · rw [hfreeblock] at hc
    rw [hm]
    exact (update_of_ne (by omega) ..).trans (h.base.zero c hc)
  · have hne : i ≠ inum := by
      rintro rfl
      have := hb.lt_freeinode hf
      omega
    rw [hother i hne (by omega)]
    exact hb.free i (hfreeinode ▸ hi) hlt'
  · rw [Image.TidyAt, hself]
    refine h.tidy.congr rfl fun c hc hc0 => ?_
    have hown := h.base.mem (h.base.inv.table.range 0 inum withInode_at).1 (by rw [h.base.node]; exact h.base.type) hc0
      (by rw [h.base.node]; exact hc)
    rw [hblk c hown.1, withInode_blk (by omega)]
  · rw [Image.TidyAt, hother j hj hlt']
    have hnode : (m.withInode inum (m.fs.disk inum)).node j = m.fs.disk j := (hsame.node j hlt').trans (node_fs m j)
    refine htidy.congr rfl fun c hc hc0 => ?_
    have hown := h.start.mem hlt' (by rw [hnode]; exact htj) hc0 (by rw [hnode]; exact hc)
    rw [hblk c hown.1, h.others j hj hlt' (by rw [hnode]; exact htj) c (by rw [hnode]; exact hc) hc0]
    exact (update_of_ne (by omega) ..).symm
  · rw [hfreeblock, hsize]
    exact h.blocks

/-- `iappend` writes at the end of the file. -/
theorem iappend_spec (h : Built m F) (hf : F inum = some f) (htidy : m.TidyAt inum) (hmax : f.size + n ≤ maxFile * bsize)
    (hfit : m.freeblock + blocksFor (f.size + n) ≤ fsSize + blocksFor f.size) :
    wp (iappend inum p n) (fun _ m' => ∃ f', Appended inum n p m F f m' f') (fun _ _ => False) m := by
  have hk := consts
  obtain ⟨hlt, _, hfile⟩ := h.lt hf
  have hib := iblock_bound hlt
  have hsize : f.size = (m.fs.disk inum).size := by rw [← hfile]; rfl
  have hdin : getDinode (m.blk (superBlock.iblock inum)) (ipos inum) = m.fs.disk inum := by
    show _ = getDinode (update m.blk _ _ (superBlock.iblock inum)) _
    rw [update_of_ne (by omega)]
  simp only [iappend, rinode, rsect, wp_bind, wp_get, wp_pure, hdin]
  refine wp_post (iappendLoop_start (h.base hf) htidy (by rw [← hsize]; exact hmax) (by rw [← hsize]; exact hfit)) ?_
  rintro ⟨off, din'⟩ m₁ ⟨hoff, happ⟩
  simp only at hoff
  subst hoff
  simp only [winode, rsect, wsect, wp_bind, wp_get, wp_pure, wp_modify]
  exact happ.close h hf hmax rfl

end Xv6.Mkfs
