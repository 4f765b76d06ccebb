import Xv6.Fs.Lemmas.Bmap

/-!
# `iupdate` and `itrunc`
-/

namespace Xv6.Fs

open Lib Function

variable {s s' t u : Fs} {e i j b c k : Nat} {X : Nat → Prop} {extra : List Nat} {d : Dinode} {F : Stop → Fs → Prop}

/-! ## Steps that leave the data blocks as they are -/

/-- The free map, the data blocks and the inodes are as they were. -/
structure SameData (s t : Fs) : Prop where
  sb : t.sb = s.sb
  used : ∀ c, c < s.sb.size → t.used c = s.used c
  data : ∀ c, s.sb.IsData c → t.blk c = s.blk c
  node : ∀ i, i < s.sb.ninodes → t.node i = s.node i

/-- The data blocks and the inodes other than `i` are as they were. -/
structure Others (i : Nat) (s t : Fs) : Prop where
  node : ∀ j, j < s.sb.ninodes → j ≠ i → t.node j = s.node j
  data : ∀ c, s.sb.IsData c → t.blk c = s.blk c

theorem SameData.others (h : SameData s t) (i : Nat) : Others i s t := ⟨fun j hj _ => h.node j hj, h.data⟩

theorem Same.others (h : Same s t) (i : Nat) : Others i s t := ⟨fun j hj _ => h.node j hj, fun c _ => by rw [h.blk]⟩

theorem setD_others (h : TableOk X s) (he : s.At e i) (hv : (s.inode e).valid = true) (hX : X e) (hwf : d.Wf) :
    Others i s (s.setD e d) :=
  ⟨fun j _ hji => by rw [(setD_node h he hv hX hwf).1, update_of_ne hji], fun _ _ => rfl⟩

theorem Others.trans (h : Others i s t) (hsb : t.sb = s.sb) (h' : Others i t u) : Others i s u :=
  ⟨fun j hj hji => (h'.node j (hsb.symm ▸ hj) hji).trans (h.node j hj hji),
    fun c hc => (h'.data c (hsb.symm ▸ hc)).trans (h.data c hc)⟩

theorem OwnOk.isData (h : OwnOk extra s) (hi : i < s.sb.ninodes) (ht : (s.node i).type ≠ 0) (hb : b ≠ 0)
    (hmem : b ∈ slots s.blk (s.node i)) : s.sb.IsData b := (h.of_mem hi ht hb hmem).1

theorem OwnOk.tbl (h : OwnOk extra s) (hdata : ∀ c, s.sb.IsData c → t.blk c = s.blk c) (hi : i < s.sb.ninodes)
    (ht : (s.node i).type ≠ 0) (x : Nat) :
    t.blk ((s.node i).addrs ndirect) x = s.blk ((s.node i).addrs ndirect) x ∨ (s.node i).addrs ndirect = 0 := by
  by_cases hz : (s.node i).addrs ndirect = 0
  · exact Or.inr hz
  · exact Or.inl (congrFun (hdata _ (h.isData hi ht hz (mem_slots_addrs (Nat.lt_succ_self _)))) x)

namespace SameData

theorem own (h : SameData s t) (ho : OwnOk extra s) : OwnOk extra t where
  own := fun c hc => by
    rw [slotCount_congr h.sb fun j hj => slotsAt_congr (h.node j hj) fun ht x _ => ho.tbl h.data hj ht x, h.sb,
      if_congr (isData_and_used h.used) rfl rfl]
    exact ho.own c hc
  metadata := fun c hc => by
    rw [h.sb] at hc
    exact (h.used c (Nat.lt_of_lt_of_le hc (Super.Layout.dataStart_le _))).trans (ho.metadata c hc)

theorem addrOf {bn : Nat} (h : SameData s t) (ho : OwnOk extra s) (hi : i < s.sb.ninodes) (ht : (s.node i).type ≠ 0) :
    Fs.addrOf t.blk (s.node i) bn = Fs.addrOf s.blk (s.node i) bn := addrOf_congr fun x _ => ho.tbl h.data hi ht x

theorem fileAt (h : SameData s t) (ho : OwnOk extra s) (hN : (s.node j).type ≠ 0 → NoHole s.blk (s.node j)) :
    t.file j = s.file j := by
  simp only [Fs.file, h.sb]
  by_cases hj : j < s.sb.ninodes
  · rw [h.node j hj]
    by_cases ht : (s.node j).type = 0
    · simp [ht]
    · rw [if_pos ⟨hj, ht⟩, if_pos ⟨hj, ht⟩]
      exact congrArg some (fileOf_congr (hN ht) fun c hc hc0 x _ => congrFun (h.data c (ho.isData hj ht hc0 hc)) x)
  · simp [hj]

theorem blocks (h : SameData s t) (hb : BlocksOk extra s) : BlocksOk extra t where
  toOwnOk := h.own hb.toOwnOk
  noHole := fun j hj ht => by
    rw [h.sb] at hj
    rw [h.node j hj] at ht ⊢
    exact noHole_congr (hb.noHole j hj ht) fun x _ => hb.tbl h.data hj ht x

theorem file (h : SameData s t) (hb : BlocksOk extra s) : t.file = s.file := by
  funext j
  by_cases hj : j < s.sb.ninodes
  · exact h.fileAt hb.toOwnOk (hb.noHole j hj)
  · simp [Fs.file, h.sb, hj]

end SameData

theorem Inv.of_eq (h : Inv X extra s) (hinode : t.inode = s.inode) (hsb : t.sb = s.sb) (hblk : t.blk = s.blk) :
    Inv X extra t ∧ t.file = s.file := by
  have hdisk : ∀ i, t.disk i = s.disk i := fun i => by simp only [Fs.disk, hblk, hsb]
  have hsame : SameData s t := ⟨hsb, fun c _ => by simp only [Fs.used, hblk, hsb], fun c _ => by rw [hblk],
    fun i _ => node_congr hinode (hdisk i)⟩
  exact ⟨⟨hsb ▸ h.layout, h.table.congr hinode hsb fun i _ => hdisk i, hsame.blocks h.blocks⟩, hsame.file h.blocks⟩

/-! ## `iupdate` -/

/-- What `iupdate` of the inode `i` does. -/
structure Updated (e i : Nat) (s t : Fs) : Prop where
  inode : t.inode = s.inode
  sb : t.sb = s.sb
  trans : t.trans = s.trans
  disk : t.disk = Function.update s.disk i (s.inode e).d
  same : SameData s t
  logs : Logs (· = s.sb.iblock i) 0 s t

theorem Updated.of_blk (hl : s.sb.Layout) (h : TableOk X s) (he : s.At e i) (hv : (s.inode e).valid = true)
    (hinode : t.inode = s.inode) (hsb : t.sb = s.sb) (htrans : t.trans = s.trans)
    (hblk : t.blk = (s.setBlk (s.sb.iblock i) (putDinode (s.blk (s.sb.iblock i)) (ipos i) (s.inode e).d)).blk)
    (hlogs : Logs (· = s.sb.iblock i) 0 s t) : Updated e i s t := by
  have hi := (h.range e i he).1
  have hwf := h.wf e i he hv
  have hdisk : t.disk = Function.update s.disk i (s.inode e).d := by
    refine Eq.trans ?_ (disk_setBlk_iblock (s := s) (fun x hx => putDinode_apply_of_ne hx) (getDinode_putDinode hwf))
    funext j
    simp only [Fs.disk, hblk, hsb]
    rfl
  refine ⟨hinode, hsb, htrans, hdisk, ⟨hsb, fun c hc => ?_, fun c hc => ?_, fun j hj => ?_⟩, hlogs⟩
  · have hne : s.sb.bblock c ≠ s.sb.iblock i := by
      have h₁ := hl.iblock_lt hi
      have h₂ := Super.Layout.bblock_ge s.sb c
      omega
    simp only [Fs.used, hsb, hblk]
    exact congrArg (bitSet · _) (update_of_ne hne ..)
  · rw [hblk]
    refine update_of_ne ?_ ..
    have h₁ := hl.iblock_lt hi
    have h₂ := hl.bblock_lt (c := 0) (by have := hc.2; omega)
    have h₃ := Super.Layout.bblock_ge s.sb 0
    have h₄ := hc.1
    omega
  · obtain rfl | hji := eq_or_ne j i
    · simp only [Fs.node, find_congr hinode, h.find_of_at he, hinode]
      rw [if_pos hv, if_pos hv]
    · exact node_congr hinode (by rw [hdisk, update_of_ne hji])

theorem iupdate_spec (hl : s.sb.Layout) (h : TableOk X s) (he : s.At e i) (hv : (s.inode e).valid = true)
    (htrans : s.trans = true) (hbig : TooBig F (fun _ => False) 0 s) :
    wp (iupdate e) (fun _ t => Updated e i s t) F s := by
  simp only [iupdate, wp_bind, wp_get, he.inum]
  exact wp_logWrite htrans hbig (.of_blk hl h he hv rfl rfl rfl rfl logs_wrote)

namespace Updated

theorem refs (h : Updated e i s t) : t.refs = s.refs := refs_congr h.inode

theorem keep (h : Updated e i s t) (P : Nat → Prop) : Keep P s t := .of_inode h.inode h.sb h.trans

theorem table {Y : Nat → Prop} (h : Updated e i s t) (ht : TableOk X s) (he : s.At e i)
    (htype : Y e ∨ (s.inode e).d.type ≠ 0) (hXY : ∀ e', e' ≠ e → X e' → Y e') : TableOk Y t where
  uniq := fun e₁ e₂ j h₁ h₂ => ht.uniq e₁ e₂ j ((at_iff h.inode).1 h₁) ((at_iff h.inode).1 h₂)
  range := fun e₁ j h₁ => by
    rw [h.inode, h.sb]
    exact ht.range e₁ j ((at_iff h.inode).1 h₁)
  pos := fun e₁ j h₁ => ht.pos e₁ j ((at_iff h.inode).1 h₁)
  wf := fun e₁ j h₁ => by
    rw [h.inode]
    exact ht.wf e₁ j ((at_iff h.inode).1 h₁)
  clean := fun e₁ j h₁ hv hY => by
    have hat := (at_iff h.inode).1 h₁
    rw [h.inode] at hv ⊢
    rw [h.disk]
    obtain rfl | hne := eq_or_ne e₁ e
    · have hij : j = i := hat.inum.symm.trans he.inum
      rw [hij, update_self]
    · have hji : j ≠ i := by
        rintro rfl
        exact hne (ht.uniq e₁ e j hat he)
      rw [update_of_ne hji]
      exact ht.clean e₁ j hat hv fun hX => hY (hXY e₁ hne hX)
  typed := fun e₁ j h₁ hv hY => by
    have hat := (at_iff h.inode).1 h₁
    rw [h.inode] at hv ⊢
    obtain rfl | hne := eq_or_ne e₁ e
    · exact htype.resolve_left hY
    · exact ht.typed e₁ j hat hv fun hX => hY (hXY e₁ hne hX)

theorem inv {Y : Nat → Prop} (h : Updated e i s t) (hi : Inv X extra s) (he : s.At e i)
    (htype : Y e ∨ (s.inode e).d.type ≠ 0) (hXY : ∀ e', e' ≠ e → X e' → Y e') : Inv Y extra t :=
  ⟨h.sb ▸ hi.layout, h.table hi.table he htype hXY, h.same.blocks hi.blocks⟩

theorem file (h : Updated e i s t) (hb : BlocksOk extra s) : t.file = s.file := h.same.file hb

end Updated

/-! ## `itrunc` -/

/-- The file without its contents. -/
def FileView.trunc (f : FileView) : FileView := { f with size := 0, byte := fun _ => 0 }

/-- The state while inode `i`, of entry `e`, loses its blocks; `d` is what is left of it. -/
structure Trunc (X : Nat → Prop) (e i : Nat) (d : Dinode) (s t : Fs) : Prop where
  layout : t.sb.Layout
  table : TableOk X t
  own : OwnOk [] t
  sb : t.sb = s.sb
  trans : t.trans = s.trans
  other : ∀ e', e' ≠ e → t.inode e' = s.inode e'
  entry : t.inode e = { s.inode e with d := d }
  others : Others i s t
  noHole : ∀ j, j < s.sb.ninodes → j ≠ i → (s.node j).type ≠ 0 → NoHole t.blk (s.node j)
  file : ∀ j, j ≠ i → t.file j = s.file j
  refs : t.refs = s.refs
  logs : Logs s.sb.IsBitmap 0 s t

namespace Trunc

theorem start (h : Inv X [] s) : Trunc X e i (s.inode e).d s s :=
  ⟨h.layout, h.table, h.blocks.toOwnOk, rfl, rfl, fun _ _ => rfl, rfl, ⟨fun _ _ _ => rfl, fun _ _ => rfl⟩,
    fun j hj _ ht => h.blocks.noHole j hj ht, fun _ _ => rfl, rfl, Logs.of_eq rfl⟩

theorem at_ (h : Trunc X e i d s t) (he : s.At e i) : t.At e i := by
  refine ⟨he.lt, ?_, ?_⟩
  · rw [h.entry]
    exact he.ref
  · rw [h.entry]
    exact he.inum

theorem valid (h : Trunc X e i d s t) (hv : (s.inode e).valid = true) : (t.inode e).valid = true := by
  rw [h.entry]
  exact hv

theorem nodeAt (h : Trunc X e i d s t) (he : s.At e i) (hv : (s.inode e).valid = true) : t.node i = d := by
  rw [h.table.node_of_valid (h.at_ he) (h.valid hv), h.entry]

/-- Blocks of the inode are freed, and then the slots that held them are cleared. -/
theorem step {d' : Dinode} (h : Trunc X e i d s t) (he : s.At e i) (hv : (s.inode e).valid = true) (hX : X e)
    (htype : d.type ≠ 0) (htype' : d'.type = d.type) (hwf : d'.Wf) (hinode : u.inode = t.inode) (hsb : u.sb = t.sb)
    (htrans : u.trans = t.trans) (hdisk : ∀ j, j < t.sb.ninodes → u.disk j = t.disk j)
    (hdata : ∀ c, t.sb.IsData c → u.blk c = t.blk c) (hlogs : Logs t.sb.IsBitmap 0 t u)
    (hmeta : ∀ c, c < t.sb.dataStart → u.used c = t.used c)
    (hused : ∀ c, c ≠ 0 → t.sb.IsData c → u.used c = (t.used c && !decide (c ∈ slots t.blk d ∧ c ∉ slots t.blk d')))
    (hslots : ∀ c, c ≠ 0 → (slots t.blk d').count c = if c ∈ slots t.blk d' then (slots t.blk d).count c else 0)
    (hsub : ∀ c, c ≠ 0 → c ∈ slots t.blk d' → c ∈ slots t.blk d) :
    Trunc X e i d' s (u.setD e d') := by
  have hat := h.at_ he
  have hvt := h.valid hv
  have hi := (h.table.range e i hat).1
  have hdt : (t.inode e).d = d := by rw [h.entry]
  have hn := h.nodeAt he hv
  have htn : (t.node i).type ≠ 0 := by rw [hn]; exact htype
  have hut : TableOk X u := h.table.congr hinode hsb hdisk
  have hau : u.At e i := (at_iff hinode).2 hat
  have hvu : (u.inode e).valid = true := by rw [hinode]; exact hvt
  obtain ⟨hnode, hrefs⟩ := setD_node hut hau hvu hX hwf
  have hnj : ∀ j, j < t.sb.ninodes → j ≠ i → (u.setD e d').node j = t.node j := fun j hj hji => by
    rw [hnode, update_of_ne hji]
    exact node_congr hinode (hdisk j hj)
  have hni : (u.setD e d').node i = d' := by rw [hnode, update_self]
  have htbl : ∀ j, j < t.sb.ninodes → (t.node j).type ≠ 0 → ∀ x,
      (u.setD e d').blk ((t.node j).addrs ndirect) x = t.blk ((t.node j).addrs ndirect) x ∨ (t.node j).addrs ndirect = 0 :=
    fun j hj htj x => h.own.tbl (t := u.setD e d') hdata hj htj x
  -- the indirect block of `d'`, if it has one, is that of an allocated block
  have hslot' : slots (u.setD e d').blk d' = slots t.blk d' := by
    refine slots_congr fun x _ => ?_
    by_cases hz : d'.addrs ndirect = 0
    · exact Or.inr hz
    · have hmem := hsub _ hz (mem_slots_addrs (Nat.lt_succ_self _))
      rw [← hn] at hmem
      exact Or.inl (congrFun (hdata _ (h.own.isData hi htn hz hmem)) x)
  refine ⟨hsb ▸ h.layout, setD_table hut hau hX hwf, ⟨fun c hc => ?_, fun c hc => ?_⟩, hsb.trans h.sb, htrans.trans h.trans,
    fun e' hne => ?_, ?_, ⟨fun j hj hji => ?_, fun c hc => (hdata c (h.sb.symm ▸ hc)).trans (h.others.data c hc)⟩,
    fun j hj hji htj => ?_, fun j hji => ?_, ?_, ?_⟩
  · have hown := h.own.own c hc
    have hchange := slotCount_change (s := t) (t := u.setD e d') (b := c) hsb hi fun j hj hji =>
      slotsAt_congr (hnj j hj hji) fun htj x _ => htbl j hj htj x
    have hold : t.slotsAt c i = (slots t.blk d).count c := by rw [Fs.slotsAt, if_neg htn, hn]
    have hnew : (u.setD e d').slotsAt c i = (slots t.blk d').count c := by
      rw [Fs.slotsAt, hni, if_neg (by rw [htype']; exact htype), hslot']
    rw [hold, hnew] at hchange
    have hle : (slots t.blk d).count c ≤ t.slotCount c := hold ▸ le_sum (Finset.mem_range.2 hi)
    have hsl := hslots c hc
    simp only [List.count_nil, Nat.add_zero] at hown ⊢
    have hsb' : (u.setD e d').sb = t.sb := hsb
    have hused' : (u.setD e d').used c = u.used c := rfl
    rw [hsb', hused']
    by_cases hd : t.sb.IsData c
    · have hu := hused c hc hd
      by_cases hmem' : c ∈ slots t.blk d'
      · rw [if_pos hmem'] at hsl
        rw [hu]
        simp only [hmem', not_true_eq_false, and_false, decide_false, Bool.not_false, Bool.and_true]
        omega
      · rw [if_neg hmem'] at hsl
        by_cases hmem : c ∈ slots t.blk d
        · have hcount : (slots t.blk d).count c = 1 := by
            have hm : c ∈ slots t.blk (t.node i) := hn.symm ▸ hmem
            have := (h.own.of_mem hi htn hc hm).2.2.1
            rwa [hn] at this
          have hone : t.slotCount c ≤ 1 := by
            rw [hown]
            split <;> omega
          rw [hu]
          simp only [hmem, hmem', not_false_eq_true, and_self, decide_true, Bool.not_true, Bool.and_false,
            Bool.false_eq_true, and_false, if_false]
          omega
        · have hzero : (slots t.blk d).count c = 0 := List.count_eq_zero.2 hmem
          rw [hu]
          simp only [hmem, false_and, decide_false, Bool.not_false, Bool.and_true]
          omega
    · rw [if_neg fun hh => hd hh.1] at hown ⊢
      have hzero : (slots t.blk d').count c = 0 := by
        rw [hsl]
        split <;> omega
      omega
  · have hsb' : (u.setD e d').sb.dataStart = t.sb.dataStart := by
      show u.sb.dataStart = _
      rw [hsb]
    rw [hsb'] at hc
    exact (hmeta c hc).trans (h.own.metadata c hc)
  · rw [Fs.setD, setInode_ne hne, hinode]
    exact h.other e' hne
  · rw [setD_inode, hinode, h.entry]
  · rw [hnj j (h.sb ▸ hj) hji]
    exact h.others.node j hj hji
  · refine noHole_congr (h.noHole j hj hji htj) fun x _ => ?_
    have := htbl j (h.sb ▸ hj) (by rw [h.others.node j hj hji]; exact htj) x
    rwa [h.others.node j hj hji] at this
  · refine Eq.trans ?_ (h.file j hji)
    simp only [Fs.file]
    rw [show (u.setD e d').sb = t.sb from hsb]
    by_cases hj : j < t.sb.ninodes
    · rw [hnj j hj hji]
      by_cases htj : (t.node j).type = 0
      · simp [htj]
      · rw [if_pos ⟨hj, htj⟩, if_pos ⟨hj, htj⟩]
        have hjs : j < s.sb.ninodes := h.sb ▸ hj
        have hN : NoHole t.blk (t.node j) := by
          rw [h.others.node j hjs hji] at htj ⊢
          exact h.noHole j hjs hji htj
        exact congrArg some (fileOf_congr hN fun c hc hc0 x _ => congrFun (hdata c (h.own.isData hj htj hc0 hc)) x)
    · simp [hj]
  · rw [hrefs, refs_congr hinode, h.refs]
  · exact h.logs.comp hlogs (fun _ hb => hb) (fun c hc => h.sb ▸ hc) (Nat.le_refl _)

end Trunc

theorem count_clear (blk : Nat → Block) (hk : k < ndirect) (hc : c ≠ 0) :
    (slots blk (d.fill k 0)).count c + (if d.addrs k = c then 1 else 0) = (slots blk d).count c := by
  have hind : (List.range nindirect).map (indirect blk (d.fill k 0)) = (List.range nindirect).map (indirect blk d) :=
    List.map_congr_left fun j _ => by rw [indirect, indirect, fill_ne (by omega)]
  have hcount := count_map_update (g := d.addrs) (v := 0) (b := c) (show k < ndirect + 1 by omega)
  rw [if_neg hc.symm] at hcount
  rw [slots, slots, List.count_append, List.count_append, hind]
  show ((List.range (ndirect + 1)).map (Function.update d.addrs k 0)).count c + _ + _ = _
  omega

theorem Trunc.direct (h : Trunc X e i d s t) (he : s.At e i) (hv : (s.inode e).valid = true) (hX : X e)
    (htype : d.type ≠ 0) (hk : k < ndirect) (hne : d.addrs k ≠ 0) (hf : Freed t (d.addrs k) u) :
    Trunc X e i (d.fill k 0) s (u.setD e (d.fill k 0)) := by
  have hi := (h.table.range e i (h.at_ he)).1
  have hn := h.nodeAt he hv
  have htn : (t.node i).type ≠ 0 := by rw [hn]; exact htype
  have hmem : d.addrs k ∈ slots t.blk (t.node i) := by
    rw [hn]
    exact mem_slots_addrs (by omega)
  obtain ⟨hdata, _, hone, _, _⟩ := h.own.of_mem hi htn hne hmem
  rw [hn] at hone
  have hwf : d.Wf := by
    have := h.table.wf e i (h.at_ he) (h.valid hv)
    rwa [h.entry] at this
  -- only the address of slot `k` leaves the slots
  have hcase : ∀ c, c ≠ 0 → (c = d.addrs k ∧ c ∈ slots t.blk d ∧ c ∉ slots t.blk (d.fill k 0)) ∨
      (c ≠ d.addrs k ∧ (slots t.blk (d.fill k 0)).count c = (slots t.blk d).count c) := by
    intro c hc
    have hcount := count_clear t.blk (d := d) hk hc
    by_cases heq : c = d.addrs k
    · subst heq
      rw [if_pos rfl, hone] at hcount
      exact Or.inl ⟨rfl, List.count_pos_iff.1 (by omega), List.count_eq_zero.1 (by omega)⟩
    · rw [if_neg (fun h => heq h.symm)] at hcount
      exact Or.inr ⟨heq, hcount⟩
  have hblk : ∀ c, t.sb.IsData c → u.blk c = t.blk c := by
    intro c hc
    by_cases heq : c = d.addrs k
    · rw [heq]
      exact hf.same (heq ▸ hc)
    · exact hf.blk c hc heq
  refine h.step he hv hX htype rfl (hwf.fill (by omega) (by omega)) hf.inode hf.sb hf.trans hf.disk hblk hf.logs
    (fun c hc => ?_) (fun c hc hd => ?_) (fun c hc => ?_) fun c hc hm => ?_
  · rw [hf.used c (Nat.lt_of_lt_of_le hc (Super.Layout.dataStart_le _)), if_neg]
    rintro rfl
    exact absurd hdata.1 (by omega)
  · rw [hf.used c hd.2]
    rcases hcase c hc with ⟨rfl, h₁, h₂⟩ | ⟨h₁, h₂⟩
    · simp [h₁, h₂]
    · have hiff : c ∈ slots t.blk (d.fill k 0) ↔ c ∈ slots t.blk d := by
        rw [← List.count_pos_iff, ← List.count_pos_iff, h₂]
      rw [if_neg h₁]
      simp [hiff]
  · rcases hcase c hc with ⟨rfl, h₁, h₂⟩ | ⟨h₁, h₂⟩
    · rw [if_neg h₂, List.count_eq_zero.2 h₂]
    · rw [h₂]
      split
      · rfl
      · rename_i hno
        rw [← List.count_eq_zero, h₂] at hno
        exact hno
  · rcases hcase c hc with ⟨rfl, h₁, _⟩ | ⟨_, h₂⟩
    · exact h₁
    · rw [← List.count_pos_iff, ← h₂]
      exact List.count_pos_iff.2 hm

/-- The free map while the blocks of the indirect block `a` are freed, the first `n` so far. -/
structure FreeEntries (a : Block) (n : Nat) (t u : Fs) : Prop where
  inode : u.inode = t.inode
  sb : u.sb = t.sb
  trans : u.trans = t.trans
  disk : ∀ j, j < t.sb.ninodes → u.disk j = t.disk j
  data : ∀ c, t.sb.IsData c → u.blk c = t.blk c
  freed : ∀ c, c < t.sb.size → c ≠ 0 → (∃ j, j < n ∧ load 4 a (4 * j) = c) → u.used c = false
  kept : ∀ c, c < t.sb.size → (c ≠ 0 → ∀ j, j < n → load 4 a (4 * j) ≠ c) → u.used c = t.used c
  logs : Logs t.sb.IsBitmap 0 t u

theorem FreeEntries.step {a : Block} {n : Nat} (h : FreeEntries a n t s) (hb : load 4 a (4 * n) = b) (hb0 : b ≠ 0)
    (hd : t.sb.IsData b) (hf : Freed s b u) : FreeEntries a (n + 1) t u where
  inode := hf.inode.trans h.inode
  sb := hf.sb.trans h.sb
  trans := hf.trans.trans h.trans
  disk := fun j hj => (hf.disk j (by rw [h.sb]; exact hj)).trans (h.disk j hj)
  data := fun c hc => by
    refine Eq.trans ?_ (h.data c hc)
    by_cases heq : c = b
    · rw [heq]
      exact hf.same (by rw [h.sb]; exact hd)
    · exact hf.blk c (by rw [h.sb]; exact hc) heq
  freed := fun c hc hc0 hex => by
    rw [hf.used c (by rw [h.sb]; exact hc)]
    split
    · rfl
    · rename_i hne
      obtain ⟨j, hj, hjc⟩ := hex
      refine h.freed c hc hc0 ⟨j, ?_, hjc⟩
      have hjn : j ≠ n := by
        rintro rfl
        exact hne (hjc.symm.trans hb)
      omega
  kept := fun c hc hno => by
    rw [hf.used c (by rw [h.sb]; exact hc), if_neg]
    · exact h.kept c hc fun hc0 j hj => hno hc0 j (by omega)
    · rintro rfl
      exact hno hb0 n (by omega) hb
  logs := h.logs.comp hf.logs (fun _ hb => hb) (fun c hc => h.sb ▸ hc) (Nat.le_refl _)

theorem FreeEntries.skip {a : Block} {n : Nat} (h : FreeEntries a n t s) (hb : load 4 a (4 * n) = 0) :
    FreeEntries a (n + 1) t s where
  inode := h.inode
  sb := h.sb
  trans := h.trans
  disk := h.disk
  data := h.data
  freed := fun c hc hc0 hex => by
    obtain ⟨j, hj, hjc⟩ := hex
    refine h.freed c hc hc0 ⟨j, ?_, hjc⟩
    have hjn : j ≠ n := by
      rintro rfl
      exact hc0 (hjc.symm.trans hb)
    omega
  kept := fun c hc hno => h.kept c hc fun hc0 j hj => hno hc0 j (by omega)
  logs := h.logs

theorem mem_slots {blk : Nat → Block} :
    c ∈ slots blk d ↔ (∃ k, k < ndirect + 1 ∧ d.addrs k = c) ∨ ∃ j, j < nindirect ∧ indirect blk d j = c := by
  simp only [slots, List.mem_append, List.mem_map, List.mem_range]

/-- The indirect block and all blocks it names are freed. -/
theorem Trunc.freeTable (h : Trunc X e i d s t) (he : s.At e i) (hv : (s.inode e).valid = true) (hX : X e)
    (htype : d.type ≠ 0) (hz : ∀ k, k < ndirect → d.addrs k = 0) (hne : d.addrs ndirect ≠ 0)
    (hfree : FreeEntries (t.blk (d.addrs ndirect)) nindirect t s') (hf : Freed s' (d.addrs ndirect) u) :
    Trunc X e i (d.fill ndirect 0) s (u.setD e (d.fill ndirect 0)) := by
  have hi := (h.table.range e i (h.at_ he)).1
  have hn := h.nodeAt he hv
  have htn : (t.node i).type ≠ 0 := by rw [hn]; exact htype
  have hdata : ∀ c, c ≠ 0 → c ∈ slots t.blk d → t.sb.IsData c := fun c hc hm =>
    h.own.isData hi htn hc (hn.symm ▸ hm)
  have hwf : d.Wf := by
    have := h.table.wf e i (h.at_ he) (h.valid hv)
    rwa [h.entry] at this
  have hload : ∀ j, indirect t.blk d j = load 4 (t.blk (d.addrs ndirect)) (4 * j) := fun j => if_neg hne
  have hmem : ∀ c, c ≠ 0 → (c ∈ slots t.blk d ↔
      c = d.addrs ndirect ∨ ∃ j, j < nindirect ∧ load 4 (t.blk (d.addrs ndirect)) (4 * j) = c) := by
    intro c hc
    simp only [mem_slots, hload]
    constructor
    · rintro (⟨k, hk, rfl⟩ | hj)
      · obtain rfl | hkn := eq_or_ne k ndirect
        · exact Or.inl rfl
        · exact absurd (hz k (by omega)) hc
      · exact Or.inr hj
    · rintro (rfl | hj)
      · exact Or.inl ⟨ndirect, by omega, rfl⟩
      · exact Or.inr hj
  have hnot : ∀ c, c ≠ 0 → c ∉ slots t.blk (d.fill ndirect 0) := by
    intro c hc hm
    rcases mem_slots.1 hm with ⟨k, hk, rfl⟩ | ⟨j, _, rfl⟩
    · obtain rfl | hkn := eq_or_ne k ndirect
      · exact hc fill_self
      · rw [fill_ne hkn] at hc
        exact hc (hz k (by omega))
    · exact hc (by rw [indirect, if_pos fill_self])
  have hsb : u.sb = t.sb := hf.sb.trans hfree.sb
  have hused : ∀ c, c < t.sb.size → u.used c = if c = d.addrs ndirect then false else s'.used c := fun c hc =>
    hf.used c (by rw [hfree.sb]; exact hc)
  refine h.step he hv hX htype rfl (hwf.fill (by omega) (by omega)) (hf.inode.trans hfree.inode) hsb
    (hf.trans.trans hfree.trans) (fun j hj => ?_) (fun c hc => ?_) ?_ (fun c hc => ?_) (fun c hc hd => ?_) (fun c hc => ?_)
    fun c hc hm => absurd hm (hnot c hc)
  · exact (hf.disk j (by rw [hfree.sb]; exact hj)).trans (hfree.disk j hj)
  · refine Eq.trans ?_ (hfree.data c hc)
    by_cases heq : c = d.addrs ndirect
    · rw [heq]
      exact hf.same (by rw [hfree.sb]; exact heq ▸ hc)
    · exact hf.blk c (by rw [hfree.sb]; exact hc) heq
  · exact hfree.logs.comp hf.logs (fun _ hc => hc) (fun c hc => hfree.sb ▸ hc) (Nat.le_refl _)
  · have hlt := Nat.lt_of_lt_of_le hc (Super.Layout.dataStart_le _)
    have hno : c ≠ 0 → c ∉ slots t.blk d := fun hc0 hm => absurd (hdata c hc0 hm).1 (by omega)
    rw [hused c hlt, if_neg]
    · exact hfree.kept c hlt fun hc0 j hj hjc => hno hc0 ((hmem c hc0).2 (Or.inr ⟨j, hj, hjc⟩))
    · rintro rfl
      exact hno hne ((hmem _ hne).2 (Or.inl rfl))
  · rw [hused c hd.2]
    by_cases hm : c ∈ slots t.blk d
    · simp only [hm, hnot c hc, not_false_eq_true, and_self, decide_true, Bool.not_true, Bool.and_false]
      split
      · rfl
      · rename_i hct
        exact hfree.freed c hd.2 hc (((hmem c hc).1 hm).resolve_left hct)
    · simp only [hm, false_and, decide_false, Bool.not_false, Bool.and_true]
      rw [if_neg fun heq => hm ((hmem c hc).2 (Or.inl heq))]
      exact hfree.kept c hd.2 fun _ j hj hjc => hm ((hmem c hc).2 (Or.inr ⟨j, hj, hjc⟩))
  · rw [if_neg (hnot c hc), List.count_eq_zero.2 (hnot c hc)]

/-- The inode without its first `k` direct blocks. -/
def Dinode.cleared (d : Dinode) (k : Nat) : Dinode := { d with addrs := fun j => if j < k then 0 else d.addrs j }

theorem cleared_succ : (d.cleared k).fill k 0 = d.cleared (k + 1) := by
  simp only [Dinode.cleared, Dinode.fill, Dinode.mk.injEq, true_and]
  funext j
  obtain rfl | hj := eq_or_ne j k
  · rw [update_self, if_pos (Nat.lt_succ_self _)]
  · rw [update_of_ne hj, if_congr (show j < k ↔ j < k + 1 by omega) rfl rfl]

theorem cleared_addrs : (d.cleared k).addrs k = d.addrs k := if_neg (Nat.lt_irrefl _)

theorem cleared_eq (hz : d.addrs k = 0) : d.cleared (k + 1) = d.cleared k := by
  have hsame : Function.update (d.cleared k).addrs k 0 = (d.cleared k).addrs := by
    rw [← hz, ← cleared_addrs (d := d), update_eq_self]
  rw [← cleared_succ, Dinode.fill, hsame]

theorem Trunc.finish {f : FileView} (h : Trunc X e i d s t) (hs : TableOk X s) (he : s.At e i)
    (hv : (s.inode e).valid = true) (hX : X e) (htype : (s.inode e).d.type ≠ 0)
    (hd : d = { (s.inode e).d with addrs := d.addrs }) (hf : s.file i = some f) :
    Inv X [] (t.setD e { d with size := 0 }) ∧ (t.setD e { d with size := 0 }).refs = s.refs ∧
      (t.setD e { d with size := 0 }).file = Function.update s.file i (some f.trunc) := by
  have hat := h.at_ he
  have hi := (h.table.range e i hat).1
  have hn := h.nodeAt he hv
  have hwf : Dinode.Wf { d with size := 0 } := by
    have hw := h.table.wf e i hat (h.valid hv)
    rw [h.entry] at hw
    exact ⟨hw.type, hw.major, hw.minor, hw.nlink, Nat.two_pow_pos 32, hw.addrs, hw.high⟩
  obtain ⟨hnode, hrefs⟩ := setD_node h.table hat (h.valid hv) hX hwf
  have hni : (t.setD e { d with size := 0 }).node i = { d with size := 0 } := by rw [hnode, update_self]
  have hnj : ∀ j, j ≠ i → (t.setD e { d with size := 0 }).node j = t.node j := fun j hji => by
    rw [hnode, update_of_ne hji]
  have hslots : ∀ c j, (t.setD e { d with size := 0 }).slotsAt c j = t.slotsAt c j := by
    intro c j
    obtain rfl | hji := eq_or_ne j i
    · rw [Fs.slotsAt, Fs.slotsAt, hni, hn]
      rfl
    · rw [Fs.slotsAt, Fs.slotsAt, hnj j hji]
      rfl
  refine ⟨⟨h.layout, setD_table h.table hat hX hwf, ⟨fun c hc => ?_, h.own.metadata⟩, fun j hj htj => ?_⟩,
    hrefs.trans h.refs, funext fun j => ?_⟩
  · have hcount : (t.setD e { d with size := 0 }).slotCount c = t.slotCount c :=
      slotCount_congr rfl fun j _ => hslots c j
    rw [hcount]
    exact h.own.own c hc
  · obtain rfl | hji := eq_or_ne j i
    · rw [hni]
      exact fun bn hbn => absurd hbn (Nat.not_lt_zero _)
    · rw [hnj j hji] at htj ⊢
      have hjs : j < s.sb.ninodes := h.sb ▸ hj
      rw [h.others.node j hjs hji] at htj ⊢
      exact h.noHole j hjs hji htj
  · obtain rfl | hji := eq_or_ne j i
    · have htd : d.type ≠ 0 := by rw [hd]; exact htype
      rw [file_of_valid hs he hv htype] at hf
      cases hf
      rw [update_self, Fs.file, hni, if_pos ⟨hi, htd⟩, hd]
      rfl
    · rw [update_of_ne hji, ← h.file j hji, Fs.file, Fs.file, hnj j hji]
      rfl

theorem Trunc.isUsed (h : Trunc X e i d s t) (he : s.At e i) (hv : (s.inode e).valid = true) (htype : d.type ≠ 0)
    (hb : b ≠ 0) (hmem : b ∈ slots t.blk d) :
    t.sb.IsData b ∧ t.used b = true ∧ (slots t.blk d).count b = 1 := by
  have hn := h.nodeAt he hv
  obtain ⟨h₁, h₂, h₃, _⟩ := h.own.of_mem (h.table.range e i (h.at_ he)).1 (by rw [hn]; exact htype) hb (hn.symm ▸ hmem)
  exact ⟨h₁, h₂, hn ▸ h₃⟩

/-- The loop of `itrunc` over the indirect block. -/
theorem freeEntries_spec (h : Trunc X e i d s t) (he : s.At e i) (hv : (s.inode e).valid = true) (htype : d.type ≠ 0)
    (hne : d.addrs ndirect ≠ 0) (htrans : t.trans = true) (hbig : TooBig F t.sb.IsBitmap 0 t) :
    wp (forN (fun j => if load 4 (t.blk (d.addrs ndirect)) (4 * j) = 0 then pure ()
      else bfree (load 4 (t.blk (d.addrs ndirect)) (4 * j))) nindirect 0)
      (fun _ u => FreeEntries (t.blk (d.addrs ndirect)) nindirect t u) F t := by
  refine wp_post (wp_forN (fun j u => FreeEntries (t.blk (d.addrs ndirect)) j t u) nindirect 0 ?_ ?_) fun _ u hu => ?_
  · intro j u _ hj hu
    apply wp_ite
    · exact fun hz => hu.skip hz
    · intro hnz
      have hind : ∀ k, indirect t.blk d k = load 4 (t.blk (d.addrs ndirect)) (4 * k) := fun k => if_neg hne
      have hj' : j < nindirect := by omega
      obtain ⟨hdata, hused, hone⟩ := h.isUsed he hv htype hnz (mem_slots.2 (Or.inr ⟨j, hj', hind j⟩))
      have hused' : u.used (load 4 (t.blk (d.addrs ndirect)) (4 * j)) = true := by
        rw [hu.kept _ hdata.2 fun _ k hk heq => ?_]
        · exact hused
        · have := (slots_inj hone).2.2 k j (by omega) hj' ((hind k).trans heq) (hind j)
          omega
      have hbig' : TooBig F u.sb.IsBitmap 0 u :=
        hbig.after hu.logs (fun _ hc => hc) (fun c hc => hu.sb ▸ hc) (Nat.le_refl _)
      refine wp_post (bfree_spec (hu.sb ▸ h.layout) (by rw [hu.sb]; exact hdata.2) hused' (hu.trans.trans htrans) hbig') ?_
      exact fun _ w hw => hu.step rfl hnz hdata hw
  · exact ⟨rfl, rfl, rfl, fun _ _ => rfl, fun _ _ => rfl, fun c _ _ hex => by
      obtain ⟨j, hj, _⟩ := hex
      exact absurd hj (Nat.not_lt_zero _), fun _ _ _ => rfl, Logs.of_eq rfl⟩
  · rwa [Nat.zero_add] at hu

/-- The entry after `itrunc`. -/
def Inode.trunc (ip : Inode) : Inode := { ip with d := { ip.d with size := 0, addrs := fun _ => 0 } }

/-- The blocks of the inode are freed; the inode, without contents, is on the disk. -/
theorem itrunc_spec {f : FileView} (h : Inv X [] s) (he : s.At e i) (hv : (s.inode e).valid = true) (hX : X e)
    (ht : (s.inode e).d.type ≠ 0) (htrans : s.trans = true) (hbig : TooBig F s.sb.IsBitmap 0 s) (hf : s.file i = some f) :
    wp (itrunc e) (fun _ t => Inv (fun e' => X e' ∧ e' ≠ e) [] t ∧ t.sb = s.sb ∧ t.trans = s.trans ∧ t.refs = s.refs ∧
      t.inode = Function.update s.inode e (s.inode e).trunc ∧ t.file = Function.update s.file i (some f.trunc) ∧
      Others i s t ∧ Logs (fun c => s.sb.IsBitmap c ∨ c = s.sb.iblock i) 0 s t) F s := by
  have hi := (h.table.range e i he).1
  have hwf := h.table.wf e i he hv
  have hafter : ∀ t d, Trunc X e i d s t → TooBig F t.sb.IsBitmap 0 t := fun t d htr =>
    hbig.after htr.logs (fun _ hc => hc) (fun c hc => htr.sb ▸ hc) (Nat.le_refl _)
  -- the end of the function, from a state in which the inode has no block
  have hend : ∀ t d, Trunc X e i d s t → d = { (s.inode e).d with addrs := fun _ => 0 } →
      wp (iupdate e) (fun _ t => Inv (fun e' => X e' ∧ e' ≠ e) [] t ∧ t.sb = s.sb ∧ t.trans = s.trans ∧ t.refs = s.refs ∧
        t.inode = Function.update s.inode e (s.inode e).trunc ∧ t.file = Function.update s.file i (some f.trunc) ∧
        Others i s t ∧ Logs (fun c => s.sb.IsBitmap c ∨ c = s.sb.iblock i) 0 s t) F
        (t.setD e { d with size := 0 }) := by
    intro t d htr hd
    obtain ⟨hinv, hrefs, hfile⟩ := htr.finish h.table he hv hX ht (by rw [hd]) hf
    have hat : (t.setD e { d with size := 0 }).At e i := ((setD_keep All).entry e i trivial (htr.at_ he)).1
    have hval : ((t.setD e { d with size := 0 }).inode e).valid = true := by
      rw [setD_inode]
      exact htr.valid hv
    have hwf' : Dinode.Wf { d with size := 0 } := by
      have := hinv.table.wf e i hat hval
      rwa [setD_inode] at this
    have hset : Others i t (t.setD e { d with size := 0 }) := setD_others htr.table (htr.at_ he) (htr.valid hv) hX hwf'
    refine wp_post (iupdate_spec hinv.layout hinv.table hat hval (htr.trans.trans htrans) (hbig.stop htr.logs)) fun _ u hu => ?_
    refine ⟨hu.inv hinv hat (Or.inr ?_) fun e' hne hX' => ⟨hX', hne⟩, hu.sb.trans htr.sb, hu.trans.trans htr.trans,
      hu.refs.trans hrefs, ?_, (hu.file hinv.blocks).trans hfile,
      (htr.others.trans htr.sb hset).trans htr.sb (hu.same.others i), ?_⟩
    · rw [setD_inode, hd]
      exact ht
    · rw [hu.inode]
      funext e'
      obtain rfl | hne := eq_or_ne e' e
      · rw [setD_inode, update_self, htr.entry, hd]
        rfl
      · rw [update_of_ne hne, Fs.setD, setInode_ne hne]
        exact htr.other e' hne
    · refine Logs.comp htr.logs hu.logs (fun _ hb => Or.inl hb) (fun c hc => Or.inr ?_) (Nat.le_refl _)
      rw [hc]
      show t.sb.iblock i = _
      rw [htr.sb]
  simp only [itrunc, wp_bind]
  refine wp_post (wp_forN (fun k t => Trunc X e i ((s.inode e).d.cleared k) s t) ndirect 0 ?_ ?_) fun _ t htr => ?_
  · intro k t _ hk htr
    have hdk : (t.inode e).d.addrs k = (s.inode e).d.addrs k := by
      rw [htr.entry]
      exact cleared_addrs
    simp only [wp_bind, wp_get, hdk]
    apply wp_ite
    · intro hz
      rw [cleared_eq hz]
      exact htr
    · intro hnz
      have hmem : (s.inode e).d.addrs k ∈ slots t.blk ((s.inode e).d.cleared k) := by
        rw [← cleared_addrs (d := (s.inode e).d) (k := k)]
        exact mem_slots_addrs (by omega)
      obtain ⟨hdata, hused, _⟩ := htr.isUsed he hv ht hnz hmem
      rw [wp_bind]
      refine wp_post (bfree_spec htr.layout hdata.2 hused (htr.trans.trans htrans) (hafter t _ htr)) fun _ u hu => ?_
      have hd := htr.direct he hv hX ht (k := k) (by omega) (by rw [cleared_addrs]; exact hnz)
        (by rw [cleared_addrs]; exact hu)
      rw [cleared_succ] at hd
      simp only [wp_modify]
      have hfill : { (u.inode e).d with addrs := Function.update (u.inode e).d.addrs k 0 } =
          (s.inode e).d.cleared (k + 1) := by
        rw [hu.inode, htr.entry, ← cleared_succ]
        rfl
      rw [hfill]
      exact hd
  · have hz : (s.inode e).d.cleared 0 = (s.inode e).d := rfl
    rw [hz]
    exact Trunc.start h
  · rw [Nat.zero_add] at htr
    have hentry : (t.inode e).d = (s.inode e).d.cleared ndirect := by rw [htr.entry]
    have hlow : ∀ k, k < ndirect → ((s.inode e).d.cleared ndirect).addrs k = 0 := fun k hk => if_pos hk
    simp only [wp_get, hentry]
    apply wp_ite
    · intro hz
      simp only [wp_bind, wp_modify]
      rw [hentry]
      refine hend t _ htr (congrArg (fun a => { (s.inode e).d with addrs := a }) (funext fun j => ?_))
      obtain hj | rfl | hj := Nat.lt_trichotomy j ndirect
      · exact hlow j hj
      · exact hz
      · exact (if_neg (by omega)).trans (hwf.high j hj)
    · intro hnz
      simp only [wp_bind, wp_modify]
      refine wp_post (freeEntries_spec htr he hv ht hnz (htr.trans.trans htrans) (hafter t _ htr)) fun _ u hu => ?_
      obtain ⟨hdata, hused, hone⟩ := htr.isUsed he hv ht hnz (mem_slots_addrs (Nat.lt_succ_self _))
      have hused' : u.used (((s.inode e).d.cleared ndirect).addrs ndirect) = true := by
        rw [hu.kept _ hdata.2 fun _ j hj heq => ?_]
        · exact hused
        · exact (slots_inj hone).2.1 ndirect j (Nat.lt_succ_self _) hj rfl ((if_neg hnz).trans heq)
      have hbig' : TooBig F u.sb.IsBitmap 0 u :=
        (hafter t _ htr).after hu.logs (fun _ hc => hc) (fun c hc => hu.sb ▸ hc) (Nat.le_refl _)
      refine wp_post (bfree_spec (hu.sb ▸ htr.layout) (by rw [hu.sb]; exact hdata.2) hused'
        (hu.trans.trans (htr.trans.trans htrans)) hbig') fun _ w hw => ?_
      have hfin := htr.freeTable he hv hX ht hlow hnz hu hw
      have hdw : (w.inode e).d = (s.inode e).d.cleared ndirect := by rw [hw.inode, hu.inode, hentry]
      rw [hdw, setD_inode]
      refine hend _ _ hfin (congrArg (fun a => { (s.inode e).d with addrs := a }) (funext fun j => ?_))
      obtain hj | rfl | hj := Nat.lt_trichotomy j ndirect
      · exact (update_of_ne (by omega) ..).trans (hlow j hj)
      · exact update_self ..
      · exact (update_of_ne (by omega) ..).trans ((if_neg (by omega)).trans (hwf.high j hj))

end Xv6.Fs
