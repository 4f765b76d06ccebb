import Xv6.Fs.Lemmas.Count
import Xv6.Fs.Lemmas.Dir

/-!
# Files after a write

What a write leaves when the buffers are evicted, and what the log does with a write that is too long.
-/

namespace Xv6.Fs

open Lib

variable {s t : Fs} {e i b k : Nat} {X : Nat → Prop} {f : FileView} {src : Nat → Option Byte} {off n tot : Nat}

theorem Entry.byte {x : Nat} (he : Entry s e i f) (h : TableOk X s) (hx : x < f.size) : f.byte x = rawByte s.blk (s.inode e).d x := by
  have hf := he.fileOf h
  have hx' : x < (s.inode e).d.size := by rw [← hf] at hx; exact hx
  rw [← hf]
  exact if_pos hx'

/-! ## Eviction -/

/-- After `s` has become `t`, the buffers are evicted and the blocks read again: a change that is not in
the log is lost. -/
def Fs.evict (s t : Fs) : Fs := { t with blk := fun b => if b ∈ t.logged then t.blk b else s.blk b }

/-- The block of the failed copy apart, eviction changes nothing. -/
theorem WriteOk.evict_blk (h : WriteOk X e i src off n f s tot t)
    (hb : b ≠ addrOf t.blk (t.inode e).d ((off + tot) / bsize)) : (s.evict t).blk b = t.blk b := by
  simp only [Fs.evict]
  split
  · rfl
  · rename_i hlog
    exact (h.held.blk b hlog fun ha => hb ha.2).symm

/-- A byte below the old size reads as before the eviction, or as before the write. -/
theorem WriteOk.evict_file {f' : FileView} (h : WriteOk X e i src off n f s tot t) (hs : Inv X [] s) (he : Entry s e i f)
    (he' : Entry t e i f') (hsize : f.size ≤ f'.size) : ∃ g, (s.evict t).file i = some g ∧ g.size = f'.size ∧
      ∀ x, x < f.size → g.byte x = f'.byte x ∨ g.byte x = f.byte x := by
  have ht := h.inv.table
  have hnode := ht.node_of_valid he'.at_ he'.valid
  have htype := he'.type ht
  have hnode' : (s.evict t).node i = (t.inode e).d := by
    have hfind : (s.evict t).find rootDev i = some e := ht.find_of_at he'.at_
    have hv : ((s.evict t).inode e).valid = true := he'.valid
    rw [Fs.node, hfind]
    simp only [hv, if_true]
    rfl
  -- the addresses are the same: the indirect block is not the block of the failed copy
  have htbl : (t.inode e).d.addrs ndirect ≠ 0 →
      (t.inode e).d.addrs ndirect ≠ addrOf t.blk (t.inode e).d ((off + tot) / bsize) := by
    intro hne heq
    obtain ⟨_, _, hone, _, _⟩ := h.inv.blocks.of_mem he'.lt (by rw [hnode]; exact htype) hne
      (by rw [hnode]; exact mem_slots_addrs (Nat.lt_succ_self _))
    rw [hnode] at hone
    exact addrOf_ne_table _ hone hne heq.symm
  have haddr : ∀ m, addrOf (s.evict t).blk (t.inode e).d m = addrOf t.blk (t.inode e).d m := fun m =>
    addrOf_congr fun x _ => by
      by_cases hz : (t.inode e).d.addrs ndirect = 0
      · exact Or.inr hz
      · exact Or.inl (congrFun (h.evict_blk (htbl hz)) x)
  have hf := he.fileOf hs.table
  have hf' := he'.fileOf ht
  have hN := he.noHole hs
  refine ⟨fileOf (s.evict t).blk (t.inode e).d, ?_, by rw [← hf']; rfl, fun x hx => ?_⟩
  · rw [Fs.file, hnode', if_pos ⟨he'.lt, htype⟩]
  · have hx₁ : x < (s.inode e).d.size := by rw [← hf] at hx; exact hx
    have hx₂ : x < (t.inode e).d.size := by rw [← hf'] at hsize; exact Nat.lt_of_lt_of_le hx hsize
    rw [← hf, ← hf']
    simp only [fileOf, if_pos hx₁, if_pos hx₂, rawByte, haddr]
    by_cases hb : addrOf t.blk (t.inode e).d (x / bsize) = addrOf t.blk (t.inode e).d ((off + tot) / bsize)
    · by_cases hlog : addrOf t.blk (t.inode e).d (x / bsize) ∈ t.logged
      · exact Or.inl (congrFun (if_pos hlog) _)
      · -- the block was there before the write, and is not logged
        have hne := hN (x / bsize) (by have := Nat.div_mul_le_self x bsize; omega)
        refine Or.inr ((congrFun (if_neg hlog) _).trans ?_)
        rw [h.addr _ hne]
    · exact Or.inl (congrFun (h.evict_blk hb) _)

/-! ## A write longer than the log -/

/-- The header of the log never gets longer than the log. -/
def LogFits (s t : Fs) : Prop := s.logged.length ≤ logBlocks → t.logged.length ≤ logBlocks

instance : IsPreorder Fs LogFits where
  refl _ := id
  trans _ _ _ h h' hs := h' (h hs)

theorem logFits_wrote {data : Block} (h : s.logged.length < logBlocks) : LogFits s (s.wrote b data) := fun _ => by
  simp only [Fs.wrote]
  split
  · exact Nat.le_of_lt h
  · rw [List.length_append]
    exact h

theorem writeiLoop_logFits : Moves LogFits (writeiLoop e n src k tot off) := by
  induction k generalizing tot off with
  | zero => exact Moves.of_pure
  | succ k ih =>
      have hbmap : Moves LogFits (bmap e (off / bsize)) := bmap_moves (fun _ _ _ h => logFits_wrote h) fun _ _ _ => id
      refine Moves.of_ite (hbmap.bind fun addr => Moves.of_ite Moves.of_pure (Moves.of_get fun s => Moves.of_ite ?_ ?_)) Moves.of_pure
      · exact (Moves.of_modify fun _ => id).bind fun _ => Moves.of_pure
      · exact (logWrite_moves fun _ _ _ h => logFits_wrote h).bind fun _ => ih

theorem writei_logFits : Moves LogFits (writei e src off n) := by
  refine Moves.of_get fun s => Moves.of_ite Moves.of_pure (Moves.of_ite Moves.of_pure (writeiLoop_logFits.bind fun r => ?_))
  refine (Moves.of_modify fun s => ?_).bind fun _ => (iupdate_moves fun _ _ _ h => logFits_wrote h).bind fun _ => Moves.of_pure
  split
  · exact id
  · exact id

/-- A write that changes every byte of more blocks than the log has does not return. -/
theorem writei_long (h : Inv X [] s) (he : Entry s e i f) (htrans : s.trans = true) (hlog : s.logged.length ≤ logBlocks)
    (hn : (logBlocks + 1) * bsize ≤ f.size) (hsrc : ∀ x, ∃ v, src x = some v ∧ v ≠ f.byte x) :
    ∃ t, writei e src 0 ((logBlocks + 1) * bsize) s = .error (.panic .tooBig) t := by
  have hb : bsize = 1024 := sizes.1
  have hlb : logBlocks = 30 := rfl
  have hf := he.fileOf h.table
  have hN := he.noHole h
  have hsize : f.size ≤ maxFile * bsize := by
    rw [← hf]
    exact hN.size_le
  have hspec : wp (writei e src 0 ((logBlocks + 1) * bsize)) _ (fun st _ => st = .panic .tooBig) s :=
    writei_spec h he.at_ he.valid (he.type h.table) htrans he.file fun _ _ _ => rfl
  cases hm : writei e src 0 ((logBlocks + 1) * bsize) s with
  | error st t =>
      have hst := wp_error hspec hm
      exact ⟨t, by rw [show st = .panic .tooBig from hst]⟩
  | ok r t =>
      exfalso
      have hfits := wp_ok (writei_logFits s) hm hlog
      rcases wp_ok hspec hm with ⟨_, _, hbad⟩ | ⟨tot, _, hw, _⟩
      · omega
      · obtain ⟨r, f', he', hend, _, hwr⟩ := hw.entry he
        have hmapped : ∀ m, m ≤ logBlocks → addrOf s.blk (s.inode e).d m ≠ 0 := fun m hm => hN m (by
          have hx : (s.inode e).d.size = f.size := by rw [← hf]; rfl
          rw [hb] at hn ⊢
          omega)
        have htot : tot = (logBlocks + 1) * bsize := by
          cases hend with
          | done h => exact h
          | noBlock hlt hz _ =>
              have hm : (0 + tot) / bsize ≤ logBlocks := by
                rw [hb] at hlt ⊢
                omega
              rw [hw.addr _ (hmapped _ hm)] at hz
              exact absurd hz (hmapped _ hm)
          | copy _ _ hbad _ _ =>
              obtain ⟨v, hv, _⟩ := hsrc (tot + r)
              rw [hv] at hbad
              cases hbad
        -- the block of each changed byte is in the log
        have hmem : ∀ m, m ≤ logBlocks → addrOf s.blk (s.inode e).d m ∈ t.logged := by
          intro m hm
          by_contra hlog
          have hsame := hw.held.blk _ hlog (by omega)
          have hx : m * bsize / bsize = m := Nat.mul_div_cancel m (by omega)
          have hlt : m * bsize < tot := by
            rw [htot, hb]
            omega
          obtain ⟨v, hv, hne⟩ := hsrc (m * bsize)
          have hnew := hwr.inside hlt
          rw [Nat.zero_add, hv, he'.byte hw.inv.table (by rw [hwr.size]; omega), rawByte, hx, hw.addr m (hmapped m hm), hsame] at hnew
          rw [he.byte h.table (by omega), rawByte, hx] at hne
          exact hne hnew.symm
        have hnodup : ((List.range (logBlocks + 1)).map (addrOf s.blk (s.inode e).d)).Nodup := by
          refine List.Nodup.map_on (fun m _ m' hm' heq => ?_) List.nodup_range
          have hne := hmapped m' (Nat.le_of_lt_succ (List.mem_range.1 hm'))
          have hnode := h.table.node_of_valid he.at_ he.valid
          obtain ⟨_, _, hone, _, _⟩ := h.blocks.of_mem he.lt (by rw [hnode]; exact he.type h.table) hne
            (by rw [hnode]; exact mem_slots_addrOf hne)
          rw [hnode] at hone
          exact addrOf_inj hone hne heq
        have hsub : (List.range (logBlocks + 1)).map (addrOf s.blk (s.inode e).d) ⊆ t.logged := fun b hb => by
          obtain ⟨m, hm, rfl⟩ := List.mem_map.1 hb
          exact hmem m (Nat.le_of_lt_succ (List.mem_range.1 hm))
        have hle := (hnodup.subperm hsub).length_le
        rw [List.length_map, List.length_range] at hle
        omega

/-! ## A copy that fails -/

/-- The second byte of the source cannot be read: the first is in the buffer and not counted. -/
theorem writei_partial (src : Nat → Option Byte) {v : Byte} (h : Inv X [] s) (he : Entry s e i f) (htrans : s.trans = true) (hlog : s.logged = [])
    (hsize : 0 < f.size) (hsrc : src 0 = some v) (hbad : src 1 = none) :
    ∃ t f', writei e src 0 2 s = .ok (some 0) t ∧ addrOf t.blk (t.inode e).d 0 ≠ 0 ∧ t.file i = some f' ∧ 0 < f'.size ∧
      f'.byte 0 = v := by
  have hb : bsize = 1024 := sizes.1
  have hlb : logBlocks = 30 := rfl
  have hcap : maxFile * bsize = 274432 := rfl
  have hbig : TooBig (fun _ _ => False) (fun _ => False) (logUse 0 2 + 2) s := fun u hu hlen => by
    have hle := hu.length_le (by rw [hlog]; exact List.nodup_nil)
    rw [hlog] at hle
    exact absurd (Nat.le_trans hlen hle) (by decide)
  have hwp : wp (writei e src 0 2) _ _ s := writei_logs (he.noHole h) htrans hbig
  obtain ⟨r, t, hok, _⟩ := wp_returns hwp
  have hspec : wp (writei e src 0 2) _ (fun _ _ => True) s :=
    writei_spec h he.at_ he.valid (he.type h.table) htrans he.file fun _ _ _ => trivial
  rcases wp_ok hspec hok with ⟨_, _, hbad⟩ | ⟨tot, rfl, hw, _⟩
  · omega
  · obtain ⟨r, f', he', hend, _, hwr⟩ := hw.entry he
    -- both bytes would have to be read
    have hne : tot ≠ 2 := by
      rintro rfl
      have := hw.read 1 (by decide)
      rw [hbad] at this
      cases this
    have hzero : tot = 0 := by
      have halign := hw.aligned
      have hle := hw.le
      rw [hb] at halign
      omega
    subst hzero
    have hfirst : addrOf t.blk (t.inode e).d 0 ≠ 0 := by
      have hN := he.noHole h 0 (by
        have hx : (s.inode e).d.size = f.size := by rw [← he.fileOf h.table]; rfl
        omega)
      rw [hw.addr 0 hN]
      exact hN
    have hsize' := hwr.size
    refine ⟨t, f', hok, hfirst, he'.file, by omega, ?_⟩
    cases hend with
    | done h => exact absurd h hne
    | noBlock _ hz _ => exact absurd hz hfirst
    | copy _ _ hnone _ _ =>
        have hr : 0 < r := by
          rcases Nat.eq_zero_or_pos r with rfl | hr
          · rw [hsrc] at hnone
            cases hnone
          · exact hr
        rw [hwr.byte, if_pos (by omega), hsrc]
        rfl

end Xv6.Fs
