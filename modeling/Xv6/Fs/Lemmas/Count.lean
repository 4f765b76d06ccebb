import Xv6.Fs.Lemmas.Data

/-!
# How many blocks a write logs

The bound holds for every free map: it uses only that a write that starts inside a block finds that
block in the inode.
-/

namespace Xv6.Fs

open Lib

variable {s t : Fs} {e k : Nat} {F : Stop → Fs → Prop} {src : Nat → Option Byte} {off n tot : Nat}

/-- The blocks that the loop of `writei` logs, without the indirect block and the block of the free map
for it: two for each block touched, but one for a first block that is there. -/
def logUse (off n : Nat) : Nat := 2 * touched off n - if off % bsize = 0 then 0 else 1

theorem touched_step {m : Nat} (hm : m = min n (bsize - off % bsize)) (hn : 0 < n) :
    1 + touched (off + m) (n - m) ≤ touched off n := by
  have hb : bsize = 1024 := sizes.1
  rw [touched, touched, hb, if_neg (show n ≠ 0 by omega)]
  rw [hb] at hm
  split <;> omega

theorem writeiLoop_logs {c : Nat} (h : Uses (fun _ => False) e c s t) (htrans : t.trans = true)
    (hmax : off + (n - tot) ≤ maxFile * bsize)
    (hfirst : tot < n → off % bsize ≠ 0 → addrOf t.blk (t.inode e).d (off / bsize) ≠ 0)
    (hbig : TooBig F (fun _ => False) (c + logUse off (n - tot) + 2) s) :
    wp (writeiLoop e n src k tot off) (fun _ u => u.trans = true ∧ Uses (fun _ => False) e (c + logUse off (n - tot)) s u)
      F t := by
  have hb : bsize = 1024 := sizes.1
  induction k generalizing c tot off t with
  | zero => exact ⟨htrans, h.mono (by omega)⟩
  | succ k ih =>
      rw [writeiLoop]
      apply wp_ite
      · intro hlt
        have hbn : off / bsize < maxFile := by
          rw [hb] at hmax ⊢
          omega
        have hstep : 1 + touched (off + min (n - tot) (bsize - off % bsize)) (n - tot - min (n - tot) (bsize - off % bsize)) ≤
            touched off (n - tot) := touched_step rfl (by omega)
        -- the first block costs `a` blocks
        obtain ⟨a, ha, hbmap⟩ : ∃ a, a + logUse (off + min (n - tot) (bsize - off % bsize))
            (n - (tot + min (n - tot) (bsize - off % bsize))) ≤ logUse off (n - tot) ∧
            wp (bmap e (off / bsize)) (fun r u => u.trans = true ∧ Uses (fun b => b = r) e (c + (a - 1)) s u ∧ 0 < a) F t := by
          have hrest : logUse (off + min (n - tot) (bsize - off % bsize)) (n - (tot + min (n - tot) (bsize - off % bsize))) ≤
              2 * touched (off + min (n - tot) (bsize - off % bsize)) (n - tot - min (n - tot) (bsize - off % bsize)) := by
            rw [← Nat.sub_sub]
            exact Nat.sub_le _ _
          by_cases hz : off % bsize = 0
          · have huse : logUse off (n - tot) = 2 * touched off (n - tot) := by rw [logUse, if_pos hz, Nat.sub_zero]
            refine ⟨2, by omega, wp_post (bmap_logs h htrans (hbig.mono (fun _ hc => hc) (by omega)) hbn) ?_⟩
            rintro r u ⟨h₁, h₂⟩
            exact ⟨h₁, h₂, by omega⟩
          · have huse : logUse off (n - tot) = 2 * touched off (n - tot) - 1 := by rw [logUse, if_neg hz]
            refine ⟨1, by omega, bmap_read (hfirst hlt hz) ⟨htrans, ?_, by omega⟩⟩
            exact h.comp (Logs.of_eq rfl) rfl
        rw [wp_bind]
        refine wp_post hbmap ?_
        rintro addr u ⟨htrans', hu, hpos⟩
        have hu' : Uses (fun _ => False) e (c + a) s u := hu.add.mono (by omega)
        apply wp_ite
        · intro _
          exact ⟨htrans', hu'.mono (by omega)⟩
        · intro _
          simp only [wp_bind, wp_get]
          apply wp_ite
          · intro _
            simp only [wp_bind, wp_modify, wp_pure]
            exact ⟨htrans', hu'.mono (by omega)⟩
          · intro _
            simp only [wp_bind]
            refine wp_logWrite htrans' (hbig.stop (hu'.logs.mono (fun _ hc => hc) (by omega))) ?_
            have hw : ∀ x, Uses (fun _ => False) e (c + a) s (u.wrote addr x) := fun x =>
              (hu.absorb (logs_wrote.mono (fun _ hc => Or.inr hc) (Nat.le_refl _)) rfl).add.mono (by omega)
            refine wp_post (ih (hw _) htrans' (by rw [hb] at hmax ⊢; omega) (fun hlt' hne => absurd ?_ hne)
              (hbig.mono (fun _ hc => hc) (by omega))) ?_
            · rw [hb] at hlt' ⊢
              omega
            · rintro r v ⟨h₁, h₂⟩
              exact ⟨h₁, h₂.mono (by omega)⟩
      · intro _
        exact ⟨htrans, h.mono (by omega)⟩

theorem writei_logs (hN : NoHole s.blk (s.inode e).d) (htrans : s.trans = true)
    (hbig : TooBig F (fun _ => False) (logUse off n + 2) s) :
    wp (writei e src off n) (fun _ t => Logs (fun _ => False) (logUse off n + 3) s t) F s := by
  have hb : bsize = 1024 := sizes.1
  have hcap : maxFile * bsize = 274432 := rfl
  have hle := hN.size_le
  simp only [writei, wp_bind, wp_get]
  apply wp_ite
  · intro _
    exact Logs.of_eq rfl
  · intro hoff
    apply wp_ite
    · intro _
      exact Logs.of_eq rfl
    · intro hmax
      rw [wp_bind]
      have hstart : Uses (fun _ => False) e 0 s s := Logs.of_eq rfl
      refine wp_post (writeiLoop_logs hstart htrans (by omega) (fun _ hne => hN _ ?_)
        (by rw [Nat.zero_add, Nat.sub_zero]; exact hbig)) ?_
      · rw [hb] at hne ⊢
        omega
      · rintro ⟨tot, off'⟩ t ⟨htrans', hu⟩
        simp only [wp_bind, wp_modify, wp_pure]
        rw [Nat.zero_add, Nat.sub_zero] at hu
        have hlogs := hu.logs
        refine iupdate_logs ?_ ?_ hbig
        · split
          · exact hlogs
          · exact hlogs
        · split
          · exact htrans'
          · exact htrans'

end Xv6.Fs
