import Xv6.Lib.Track
import Xv6.Fs.Lemmas.Trunc

/-!
# What goes to the log

Every change of a block goes through `log_write`, so that it is not lost when the buffer is evicted;
a call of `bmap` logs few blocks, whatever the free map holds.
-/

namespace Xv6.Fs

open Lib

variable {s t u : Fs} {e b c k bn : Nat} {A B : Nat → Prop} {F : Stop → Fs → Prop} {data : Block}

/-! ## Changed blocks are logged -/

/-- Between `s` and `t` no block outside `A` changed without being logged. -/
structure Held (A : Nat → Prop) (s t : Fs) : Prop where
  logged : ∀ b ∈ s.logged, b ∈ t.logged
  blk : ∀ b, b ∉ t.logged → ¬ A b → t.blk b = s.blk b

namespace Held

theorem of_eq (hl : t.logged = s.logged) (hb : t.blk = s.blk) : Held A s t :=
  ⟨fun b h => by rw [hl]; exact h, fun b _ _ => by rw [hb]⟩

theorem trans (h : Held A s t) (h' : Held B t u) (hA : ∀ b, A b → B b) : Held B s u :=
  ⟨fun b hb => h'.logged b (h.logged b hb), fun b hb hB => (h'.blk b hb hB).trans
    (h.blk b (fun hbt => hb (h'.logged b hbt)) fun ha => hB (hA b ha))⟩

theorem mono (h : Held A s t) (hA : ∀ b, A b → B b) : Held B s t := ⟨h.logged, fun b hb hB => h.blk b hb fun ha => hB (hA b ha)⟩

theorem of_setBlk : Held (· = b) s (s.setBlk b data) :=
  ⟨fun _ h => h, fun _ _ hne => Function.update_of_ne hne ..⟩

end Held

instance : IsPreorder Fs (Held A) where
  refl _ := Held.of_eq rfl rfl
  trans _ _ _ h h' := h.trans h' fun _ ha => ha

theorem held_wrote : Held A s (s.wrote b data) := by
  refine ⟨fun c hc => ?_, fun c hc _ => Function.update_of_ne ?_ ..⟩
  · simp only [Fs.wrote]
    split
    · exact hc
    · exact List.mem_append_left _ hc
  · rintro rfl
    apply hc
    simp only [Fs.wrote]
    split
    · assumption
    · exact List.mem_append_right _ (List.mem_singleton_self c)

/-! ## Calls that change blocks by `log_write` only -/

section Moves

variable {R : Fs → Fs → Prop} [IsPreorder Fs R]
  (hwrote : ∀ s b data, s.logged.length < logBlocks → R s (s.wrote b data)) (hsetD : ∀ s e d, R s (s.setD e d))

include hwrote

theorem logWrite_moves : Moves R (logWrite b data) := fun s => by
  simp only [logWrite, wp_bind, wp_modify, wp_get]
  exact wp_ite (fun _ => trivial) fun hlt => wp_ite (fun _ => trivial) fun _ => hwrote s b data (Nat.lt_of_not_le hlt)

theorem iupdate_moves : Moves R (iupdate e) := Moves.of_get fun _ => logWrite_moves hwrote

theorem ballocFrom_moves : Moves R (ballocFrom k b) := by
  induction k generalizing b with
  | zero => exact Moves.of_pure
  | succ k ih =>
      rw [ballocFrom]
      refine Moves.of_get fun s => Moves.of_ite ?_ Moves.of_pure
      cases freeBit (s.blk (s.sb.bblock b)) (min bpb (s.sb.size - b)) with
      | none => exact ih
      | some bi =>
          refine (logWrite_moves hwrote).bind fun _ => ?_
          exact (Moves.of_get fun _ => logWrite_moves hwrote).bind fun _ => Moves.of_pure

theorem balloc_moves : Moves R balloc := Moves.of_get fun _ => ballocFrom_moves hwrote

include hsetD

theorem bmapAddr_moves : Moves R (bmapAddr e k) := by
  refine Moves.of_get fun s => Moves.of_ite ((balloc_moves hwrote).bind fun addr => ?_) Moves.of_pure
  exact Moves.of_ite Moves.of_pure ((Moves.of_modify fun s => hsetD s e _).bind fun _ => Moves.of_pure)

theorem bmap_moves : Moves R (bmap e bn) := by
  have haddr : ∀ k, Moves R (bmapAddr e k) := fun _ => bmapAddr_moves hwrote hsetD
  refine Moves.of_ite (haddr _) (Moves.of_ite ((haddr _).bind fun tbl => ?_) Moves.of_throw)
  refine Moves.of_ite Moves.of_pure (Moves.of_get fun s => Moves.of_ite ((balloc_moves hwrote).bind fun addr => ?_) Moves.of_pure)
  exact Moves.of_ite Moves.of_pure (Moves.of_get fun _ => (logWrite_moves hwrote).bind fun _ => Moves.of_pure)

end Moves

theorem bmap_held : Moves (Held A) (bmap e bn) := bmap_moves (fun _ _ _ _ => held_wrote) fun _ _ _ => Held.of_eq rfl rfl

theorem iupdate_held : Moves (Held A) (iupdate e) := iupdate_moves fun _ _ _ _ => held_wrote

/-! ## How many blocks `bmap` logs -/

theorem Logs.length_le (h : Logs (fun _ => False) k s t) (hnodup : s.logged.Nodup) :
    t.logged.length ≤ s.logged.length + k := by
  obtain ⟨hn, N, hN, hmem⟩ := h
  have hsub : t.logged ⊆ s.logged ++ N := fun b hb => by
    rcases hmem b hb with h | h | h
    · exact List.mem_append_left _ h
    · exact h.elim
    · exact List.mem_append_right _ h
  have := ((hn hnodup).subperm hsub).length_le
  rw [List.length_append] at this
  omega

theorem logs_wrote_one : Logs (fun _ => False) 1 s (s.wrote b data) := (logs_wrote.mono (fun _ hc => Or.inr hc) (Nat.le_refl _)).add

theorem iupdate_logs (h : Logs (fun _ => False) k s t) (htrans : t.trans = true) (hbig : TooBig F (fun _ => False) k s) :
    wp (iupdate e) (fun _ u => Logs (fun _ => False) (k + 1) s u) F t := by
  simp only [iupdate, wp_bind, wp_get]
  exact wp_logWrite htrans (hbig.stop h) (h.comp logs_wrote_one (fun _ hc => hc) (fun _ hc => hc) (Nat.le_refl _))

theorem ballocFrom_logs (htrans : s.trans = true) (hbig : TooBig F (fun _ => False) 1 s) :
    wp (ballocFrom k b) (fun r t => t.inode = s.inode ∧ t.trans = true ∧ Logs (· = r) 1 s t) F s := by
  induction k generalizing b with
  | zero => exact ⟨rfl, htrans, Logs.of_eq rfl⟩
  | succ k ih =>
      simp only [ballocFrom, wp_bind, wp_get]
      apply wp_ite
      · intro _
        cases freeBit (s.blk (s.sb.bblock b)) (min bpb (s.sb.size - b)) with
        | none => exact ih
        | some bi =>
            simp only [wp_bind, bzero, wp_get, wp_pure]
            refine wp_logWrite htrans hbig.none (wp_logWrite htrans (hbig.stop logs_wrote_one) ⟨rfl, htrans, ?_⟩)
            exact logs_wrote_one.comp logs_wrote (fun _ hc => hc.elim) (fun _ hc => hc) (Nat.le_refl _)
      · intro _
        exact ⟨rfl, htrans, Logs.of_eq rfl⟩

theorem balloc_logs (htrans : s.trans = true) (hbig : TooBig F (fun _ => False) 1 s) :
    wp balloc (fun r t => t.inode = s.inode ∧ t.trans = true ∧ Logs (· = r) 1 s t) F s := by
  simp only [balloc, wp_bind, wp_get]
  exact ballocFrom_logs htrans hbig

/-- The address of the indirect block. -/
def Fs.tbl (s : Fs) (e : Nat) : Nat := (s.inode e).d.addrs ndirect

theorem bmapAddr_logs (htrans : s.trans = true) (hbig : TooBig F (fun _ => False) 1 s) :
    wp (bmapAddr e k) (fun r t => t.trans = true ∧ Logs (· = r) 1 s t ∧ (k ≠ ndirect → t.tbl e = s.tbl e) ∧
      (k = ndirect → t.tbl e = r ∧ (s.tbl e ≠ 0 → r = s.tbl e ∧ t = s))) F s := by
  simp only [bmapAddr, wp_bind, wp_get]
  apply wp_ite
  · intro hz
    simp only [wp_bind]
    refine wp_post (balloc_logs htrans hbig) ?_
    rintro r t ⟨hinode, htrans', hlogs⟩
    apply wp_ite
    · rintro rfl
      refine ⟨htrans', hlogs, fun _ => by rw [Fs.tbl, Fs.tbl, hinode], ?_⟩
      rintro rfl
      exact ⟨by rw [Fs.tbl, hinode]; exact hz, fun hne => absurd hz hne⟩
    · intro _
      simp only [wp_bind, wp_modify, wp_pure]
      refine ⟨htrans', hlogs, fun hk => ?_, ?_⟩
      · rw [Fs.tbl, setD_inode, Fs.tbl, ← hinode]
        exact fill_ne (Ne.symm hk)
      · rintro rfl
        refine ⟨?_, fun hne => absurd hz hne⟩
        rw [Fs.tbl, setD_inode]
        exact fill_self
  · intro hne
    refine ⟨htrans, Logs.of_eq rfl, fun _ => rfl, ?_⟩
    rintro rfl
    exact ⟨rfl, fun _ => ⟨rfl, rfl⟩⟩

/-- The log has the blocks of `A`, the indirect block of the inode with the block of the free map for it,
and `k` more. -/
def Uses (A : Nat → Prop) (e k : Nat) (s t : Fs) : Prop :=
  Logs (fun b => (b = t.tbl e ∧ t.tbl e ≠ 0) ∨ A b) (k + if t.tbl e = 0 then 0 else 1) s t

namespace Uses

theorem logs (h : Uses (fun _ => False) e k s t) : Logs (fun _ => False) (k + 2) s t := by
  by_cases hz : t.tbl e = 0
  · rw [Uses, if_pos hz] at h
    exact h.mono (fun _ hc => hc.elim (fun hb => hb.2 hz) id) (by omega)
  · rw [Uses, if_neg hz] at h
    exact (h.mono (fun _ hc => hc.elim (fun hb => Or.inr hb.1) Or.inl) (Nat.le_refl _)).add

theorem comp (h : Uses (fun _ => False) e k s t) (h' : Logs A c t u) (htbl : u.tbl e = t.tbl e) : Uses A e (k + c) s u := by
  rw [Uses, htbl]
  exact Logs.comp h h' (fun _ hc => Or.inl (hc.elim id False.elim)) (fun _ hc => Or.inr hc) (by omega)

theorem absorb (h : Uses A e k s t) (h' : Logs (fun b => (b = t.tbl e ∧ t.tbl e ≠ 0) ∨ A b) 0 t u)
    (htbl : u.tbl e = t.tbl e) : Uses A e k s u := by
  rw [Uses, htbl]
  exact Logs.comp h h' (fun _ hc => hc) (fun _ hc => hc) (by omega)

theorem add (h : Uses (· = b) e k s t) : Uses (fun _ => False) e (k + 1) s t := by
  rw [Uses, Nat.add_right_comm]
  exact Logs.add (Logs.mono h (fun _ hc => hc.imp_left Or.inl) (Nat.le_refl _))

theorem mono (h : Uses A e k s t) (hk : k ≤ c) : Uses A e c s t := Logs.mono h (fun _ hb => hb) (by omega)

end Uses

/-- The block that `bmap` returns, and one block of the free map, besides the indirect block. -/
theorem bmap_logs (h : Uses (fun _ => False) e k s t) (htrans : t.trans = true)
    (hbig : TooBig F (fun _ => False) (k + 4) s) (hbn : bn < maxFile) :
    wp (bmap e bn) (fun r u => u.trans = true ∧ Uses (· = r) e (k + 1) s u) F t := by
  have hs := sizes
  have hbig₁ : TooBig F (fun _ => False) 1 t := hbig.after h.logs (fun _ hc => hc) (fun _ hc => hc) (by omega)
  rw [bmap]
  apply wp_ite
  · intro hlt
    refine wp_post (bmapAddr_logs htrans hbig₁) ?_
    rintro r u ⟨htrans', hlogs, htbl, _⟩
    exact ⟨htrans', h.comp hlogs (htbl (by omega))⟩
  · intro hge
    rw [if_pos (by omega)]
    simp only [wp_bind]
    refine wp_post (bmapAddr_logs htrans hbig₁) ?_
    rintro tbl u ⟨htrans', hlogs, _, htbl⟩
    obtain ⟨rfl, hsame⟩ := htbl rfl
    -- the indirect block is there, or it is allocated now
    have hu : u.tbl e ≠ 0 → Uses (fun _ => False) e k s u := by
      intro hne
      by_cases hz : t.tbl e = 0
      · rw [Uses, if_neg hne]
        rw [Uses, if_pos hz] at h
        exact h.comp hlogs (fun _ hc => hc.elim (fun hb => absurd hz hb.2) False.elim) (fun _ hc => Or.inl ⟨hc, hne⟩) (by omega)
      · rw [(hsame hz).2]
        exact h
    apply wp_ite
    · intro hz
      have hzt : t.tbl e = 0 := by
        by_contra hne
        exact hne ((hsame hne).1.symm.trans hz)
      rw [hz] at hlogs
      exact ⟨htrans', h.comp hlogs (hz.trans hzt.symm)⟩
    · intro hne
      simp only [wp_bind, wp_get]
      apply wp_ite
      · intro _
        simp only [wp_bind]
        have hbig₂ : TooBig F (fun _ => False) 1 u := hbig.after (hu hne).logs (fun _ hc => hc) (fun _ hc => hc) (by omega)
        refine wp_post (balloc_logs htrans' hbig₂) ?_
        rintro r v ⟨hinode, htrans₂, hlogs₂⟩
        have htbl : v.tbl e = u.tbl e := by rw [Fs.tbl, Fs.tbl, hinode]
        have hv := (hu hne).comp hlogs₂ htbl
        apply wp_ite
        · rintro rfl
          exact ⟨htrans₂, hv⟩
        · intro _
          simp only [wp_bind, wp_get, wp_pure]
          refine wp_logWrite htrans₂ (hbig.stop (hv.add.logs.mono (fun _ hc => hc) (by omega))) ⟨htrans₂, ?_⟩
          exact hv.absorb (logs_wrote.mono (fun _ hc => Or.inl ⟨hc.trans htbl.symm, htbl ▸ hne⟩) (Nat.le_refl _)) rfl
      · intro _
        exact ⟨htrans', (hu hne).comp (Logs.of_eq rfl) rfl⟩

end Xv6.Fs
