import Xv6.Exec.Lemmas.Plan
import Xv6.Fs.Lemmas.Data
import Xv6.Vm.Lemmas.Image

/-!
# Loading the segments

While the segments are loaded the file system does not change, and the new page table shows the image
that the headers so far call for.
-/

namespace Xv6.Exec

open Lib Fs Vm

variable {α : Type} {Q : α → Mach → Prop} {E : Stop → Mach → Prop} {M N : Mach} {g h : View} {s : Ram} {r e n off va sz offset : Nat}
  {f : FileView} {img : Image}

/-! ## The two parts of the machine -/

@[simp] theorem wp_onRam (m : Vm.K α) :
    wp (onRam m) Q E M ↔ wp m (fun a t => Q a { M with ram := t }) (fun x t => E x { M with ram := t }) M.ram := by
  unfold wp onRam
  cases m M.ram <;> rfl

@[simp] theorem wp_onFs (m : Fs.K α) :
    wp (onFs m) Q E M ↔ wp m (fun a t => Q a { M with fs := t }) (fun x t => E x { M with fs := t }) M.fs := by
  unfold wp onFs
  cases m M.fs <;> rfl

/-- Everything but the memory is as it was. -/
structure Rest (M N : Mach) : Prop where
  fs : N.fs = M.fs
  proc : N.proc = M.proc
  outstanding : N.outstanding = M.outstanding

theorem Rest.refl (M : Mach) : Rest M M := ⟨rfl, rfl, rfl⟩

theorem Rest.ram (M : Mach) (t : Ram) : Rest M { M with ram := t } := ⟨rfl, rfl, rfl⟩

theorem Rest.trans {P : Mach} (h : Rest M N) (h' : Rest N P) : Rest M P :=
  ⟨h'.fs.trans h.fs, h'.proc.trans h.proc, h'.outstanding.trans h.outstanding⟩

/-! ## Reading the file -/

/-- The inode at entry `e` holds the file `f`. -/
structure Holds (s : Fs) (e : Nat) (f : FileView) : Prop where
  noHole : NoHole s.blk (s.inode e).d
  file : fileOf s.blk (s.inode e).d = f

theorem Holds.size_le {fs : Fs} (hf : Holds fs e f) : f.size ≤ 274432 := by
  have h₁ := hf.noHole.size_le
  rw [← hf.file]
  exact h₁

theorem readable_eq (hoff : off < 2 ^ 32) (hn : 0 < n) (hsize : f.size ≤ 274432) :
    f.readable off n = n ↔ off + n ≤ f.size := by
  unfold FileView.readable
  by_cases hle : off + n ≤ f.size
  · rw [if_neg (by omega)]
    omega
  · split <;> omega

theorem wp_readiKernel {Q : Nat × Bytes → Mach → Prop} (hf : Holds M.fs e f) (hoff : off < 2 ^ 32) (hn : 0 < n)
    (hQ : ∀ tot b, tot ≤ n → (tot = n ↔ off + n ≤ f.size) → (∀ i, i < tot → b i = f.byte (off + i)) → Q (tot, b) M) :
    wp (onFs (readiKernel e off n)) Q E M := by
  rw [wp_onFs]
  refine readiKernel_spec hf.noHole hf.file fun b hb => hQ _ b ?_ (readable_eq hoff hn hf.size_le) hb
  unfold FileView.readable
  split <;> omega

theorem ProgHdr.read_congr {b b' : Bytes} (h : ∀ i, i < progHdrSize → b i = b' i) : ProgHdr.read b = ProgHdr.read b' := by
  have hload : ∀ k a, a + k ≤ progHdrSize → Lib.load k b a = Lib.load k b' a := fun k a hk =>
    load_congr fun i hi => h (a + i) (by omega)
  unfold ProgHdr.read
  rw [hload 4 0 (by decide), hload 4 4 (by decide), hload 8 8 (by decide), hload 8 16 (by decide),
    hload 8 32 (by decide), hload 8 40 (by decide)]

theorem ElfHdr.read_congr {b b' : Bytes} (h : ∀ i, i < elfHdrSize → b i = b' i) : ElfHdr.read b = ElfHdr.read b' := by
  have hload : ∀ k a, a + k ≤ elfHdrSize → Lib.load k b a = Lib.load k b' a := fun k a hk =>
    load_congr fun i hi => h (a + i) (by omega)
  unfold ElfHdr.read
  rw [hload 4 0 (by decide), hload 8 24 (by decide), hload 8 32 (by decide), hload 2 56 (by decide)]

/-! ## `loadseg` -/

/-- Every page of the image is a user's. -/
def AllUser (m : Image) : Prop := ∀ v, v < m.npages → (m.flags v).has pteU = true

/-- What `loadseg` leaves: the bytes of the file in place, or an image of the same shape. -/
def Segment (g : View) (s : Ram) (r : Nat) (img : Image) (f : FileView) (va offset sz : Nat) (M : Mach) (res : Int)
    (N : Mach) : Prop :=
  Rest M N ∧
  ((res = 0 ∧ (sz = 0 ∨ offset + sz ≤ f.size) ∧
      ∃ h, Building g s r (img.write va (fun i => f.byte (offset + i)) sz) h N.ram) ∨
    (res = -1 ∧ ¬ (sz = 0 ∨ offset + sz ≤ f.size) ∧
      ∃ h img', Building g s r img' h N.ram ∧ img'.npages = img.npages))

theorem loadsegLoop_spec {i fuel : Nat} (hI : Inv userPages g s) (hf : Holds M.fs e f)
    (hb : Building g s r (img.write va (fun i => f.byte (offset + i)) i) h M.ram) (hU : AllUser img)
    (hfit : va + sz ≤ img.npages * pgSize) (hoff : offset < 2 ^ 32) (hi : i ≤ sz) (hread : i = 0 ∨ offset + i ≤ f.size)
    (hfuel : sz ≤ i + fuel) :
    wp (loadsegLoop e r va offset sz fuel i) (Segment g s r img f va offset sz M) E M := by
  have hsize := hf.size_le
  induction fuel generalizing i M h with
  | zero =>
      obtain rfl : i = sz := by omega
      exact ⟨.refl M, .inl ⟨rfl, hread, h, hb⟩⟩
  | succ fuel ih =>
      unfold loadsegLoop
      by_cases hlt : i < sz
      · have hbound : img.npages * pgSize < 2 ^ 64 := by
          have h₁ := hb.npages_lt hI
          rw [Image.write_npages, userPages_eq] at h₁
          unfold pgSize
          omega
        have hva : (va + i) % 2 ^ 64 = va + i := Nat.mod_eq_of_lt (by omega)
        have hofi : (offset + i) % 2 ^ 32 = offset + i := Nat.mod_eq_of_lt (by omega)
        have hv : (va + i) / pgSize < img.npages := (Nat.div_lt_iff_lt_mul (by decide)).2 (by omega)
        have hmod := Nat.mod_lt (va + i) (show 0 < pgSize by decide)
        have hdm := Nat.div_add_mod (va + i) pgSize
        rw [Nat.mul_comm] at hdm
        rw [if_pos hlt]
        simp only [hva, hofi, wp_bind, wp_onRam]
        refine hb.walkaddr hI hv (hU _ hv) ?_
        simp only [wp_bind, wp_onRam, wp_modify]
        -- the bytes up to the end of the page, or of the segment
        generalize hk : (if sz - i < pgSize - (va + i) % pgSize then sz - i else pgSize - (va + i) % pgSize) = k
        have hk₁ : 0 < k ∧ k ≤ sz - i ∧ k ≤ pgSize - (va + i) % pgSize := by split at hk <;> omega
        refine wp_readiKernel hf (by omega) hk₁.1 fun tot b htot hiff hbytes => ?_
        have hlen : ((List.range tot).map b).length = tot := by rw [List.length_map, List.length_range]
        have hb' := hb.write hI hv ((va + i) % pgSize) ((List.range tot).map b) (by omega)
        rw [hlen, hdm] at hb'
        by_cases hne : tot ≠ k
        · rw [if_pos hne, wp_pure]
          exact ⟨.ram M _, .inr ⟨rfl, by omega, h, _, hb', rfl⟩⟩
        · obtain rfl : tot = k := not_not.1 hne
          have hcongr : ∀ j, j < tot → ((List.range tot).map b).getD j 0 = f.byte (offset + (i + j)) := fun j hj => by
            rw [List.getD_eq_getElem?_getD, List.getElem?_map, List.getElem?_range hj, ← Nat.add_assoc]
            exact hbytes j hj
          rw [Image.write_congr hcongr, Image.write_write img va i tot fun j => f.byte (offset + j)] at hb'
          rw [if_neg hne]
          refine wp_post (ih (M := ⟨M.fs, _, M.proc, M.outstanding⟩) hf hb' (by omega) (.inr (by omega)) (by omega)) ?_
          exact fun _ _ h₁ => ⟨(Rest.ram M _).trans h₁.1, h₁.2⟩
      · rw [if_neg hlt, wp_pure]
        obtain rfl : i = sz := by omega
        exact ⟨.refl M, .inl ⟨rfl, hread, h, hb⟩⟩

theorem loadseg_spec (hI : Inv userPages g s) (hf : Holds M.fs e f) (hb : Building g s r img h M.ram) (hU : AllUser img)
    (hfit : va + sz ≤ img.npages * pgSize) (hoff : offset < 2 ^ 32) :
    wp (loadseg r va e offset sz) (Segment g s r img f va offset sz M) E M :=
  loadsegLoop_spec hI hf (by rw [Image.write_zero]; exact hb) hU hfit hoff (Nat.zero_le _) (.inl rfl) (by omega)

/-! ## The loop over the headers -/

theorem isPerm_flags2perm (flags : Nat) : IsPerm (flags2perm flags) := by
  refine IsPerm.or ?_ ?_ <;> split <;> decide

theorem allocPerm_has_pteU (x : Pte) : (allocPerm x).has pteU = true := by
  unfold allocPerm
  rw [has_pteU]
  simp only [BitVec.getLsbD_or, getLsbD_pteU]
  simp

/-- The new page table shows what the headers so far have led to. -/
structure Stage (g : View) (s : Ram) (r : Nat) (m : Prog) (h : View) (t : Ram) : Prop where
  building : Building g s r m.image h t
  npages : m.image.npages = npages m.sz
  user : AllUser m.image

theorem Stage.npages_le {m : Prog} {t : Ram} (hs : Stage g s r m h t) (hI : Inv userPages g s) : Vm.npages m.sz ≤ userPages := by
  have h₁ := hs.building.npages_lt hI
  rw [hs.npages] at h₁
  omega

theorem Stage.within {m : Prog} {t : Ram} (hs : Stage g s r m h t) : h.Within r (Vm.npages m.sz) := by
  rw [← hs.npages]
  exact hs.building.within

theorem AllUser.grow (hU : AllUser img) (n : Nat) (x : Pte) : AllUser (img.grow n (allocPerm x)) := by
  intro v _
  rw [Image.grow_flags]
  split
  · exact hU v ‹_›
  · exact allocPerm_has_pteU x

/-- What the loop over `n` headers from `off` on leaves. -/
def Segments (g : View) (s : Ram) (r : Nat) (f : FileView) (n off : Nat) (m : Prog) (M : Mach) (res : Bool × Nat) (N : Mach) :
    Prop :=
  Rest M N ∧
  ((∃ m' h, res = (true, m'.sz) ∧ Prog.loadAll f n off m = some m' ∧ Stage g s r m' h N.ram) ∨
    (res.1 = false ∧ (∀ m', Prog.loadAll f n off m = some m' → s.freelist.length ≤ 5 + 3 * Vm.npages m'.sz) ∧
      Vm.npages res.2 ≤ userPages ∧ ∃ h, Planted userPages g s r h N.ram ∧ h.Within r (Vm.npages res.2)))

theorem Segments.stop {m m₀ : Prog} (hI : Inv userPages g s) (hrest : Rest M N)
    (hs : Stage g s r m h N.ram) (hnone : Prog.loadAll f n off m₀ = none) : Segments g s r f n off m₀ M (false, m.sz) N := by
  refine ⟨hrest, .inr ⟨rfl, fun m' h₁ => ?_, hs.npages_le hI, h, hs.building.toPlanted, hs.within⟩⟩
  rw [hnone] at h₁
  cases h₁

theorem Segments.step {m m₁ : Prog} {ph : ProgHdr} {res : Bool × Nat} {M' : Mach} (hrest : Rest M M')
    (hph : headerAt f off = some ph) (hm : m.load f ph = some m₁) (h : Segments g s r f n (off + progHdrSize) m₁ M' res N) :
    Segments g s r f (n + 1) off m M res N := by
  unfold Segments at *
  rw [loadAll_step hph hm]
  exact ⟨hrest.trans h.1, h.2⟩

theorem Stage.extend {m : Prog} (hs : Stage g s r m h M.ram) (hI : Inv userPages g s) (ph : ProgHdr) :
    wp (onRam (uvmalloc r m.sz ph.last (flags2perm ph.flags))) (fun sz1 N => Rest M N ∧
      ((sz1 = (m.extend ph).sz ∧ ∃ h', Stage g s r (m.extend ph) h' N.ram) ∨
        (sz1 = 0 ∧ s.freelist.length ≤ 5 + 3 * Vm.npages ph.last ∧
          ∃ h', Planted userPages g s r h' N.ram ∧ h'.Within r (Vm.npages m.sz)))) E M := by
  rw [wp_onRam]
  refine wp_post (uvmalloc_building hs.building hI hs.npages (isPerm_flags2perm ph.flags)) ?_
  rintro sz1 t (⟨hlt, rfl, rfl⟩ | ⟨hle, rfl, h', hb⟩ | ⟨hle, rfl, hshort, h', hp, hw⟩)
  · have he : m.extend ph = m := if_pos hlt
    refine ⟨.ram M _, .inl ?_⟩
    rw [he]
    exact ⟨rfl, h, hs⟩
  · have he : m.extend ph = ⟨ph.last, m.image.grow (Vm.npages ph.last) (allocPerm (flags2perm ph.flags))⟩ :=
      if_neg (Nat.not_lt.2 hle)
    refine ⟨.ram M _, .inl ?_⟩
    rw [he]
    refine ⟨rfl, h', hb, ?_, hs.user.grow _ _⟩
    rw [Image.grow_npages, hs.npages]
    exact Nat.max_eq_right (Vm.npages_le hle)
  · exact ⟨.ram M _, .inr ⟨rfl, hshort, h', hp, hw⟩⟩

theorem loadSegments_spec {m : Prog} (hI : Inv userPages g s) (hf : Holds M.fs e f) (hs : Stage g s r m h M.ram)
    (hoff : off < 2 ^ 32) : wp (loadSegments e r n off m.sz) (Segments g s r f n off m M) E M := by
  have hsize := hf.size_le
  induction n generalizing off m h M with
  | zero => exact ⟨.refl M, .inl ⟨m, h, rfl, rfl, hs⟩⟩
  | succ n ih =>
      unfold loadSegments
      rw [wp_bind]
      refine wp_readiKernel hf hoff (by decide) fun tot b _ hiff hbytes => ?_
      simp only []
      by_cases hne : tot ≠ progHdrSize
      · rw [if_pos hne, wp_pure]
        have hnone : Prog.loadAll f (n + 1) off m = none := by
          rw [Prog.loadAll, headerAt, if_neg fun h₁ => hne (hiff.2 h₁)]
          rfl
        exact Segments.stop hI (.refl M) hs hnone
      · obtain rfl : tot = progHdrSize := not_not.1 hne
        have hle := hiff.1 rfl
        have hsz : progHdrSize = 56 := rfl
        have hph : headerAt f off = some (ProgHdr.read b) := by
          rw [headerAt, if_pos hle]
          exact congrArg some (ProgHdr.read_congr fun i hi => (hbytes i hi).symm)
        have hnext : (off + progHdrSize) % 2 ^ 32 = off + progHdrSize := Nat.mod_eq_of_lt (by omega)
        rw [if_neg hne, hnext]
        generalize hread : ProgHdr.read b = ph at hph
        by_cases ht : ph.type ≠ elfProgLoad
        · have hm : m.load f ph = some m := if_pos ht
          rw [if_pos ht]
          exact wp_post (ih hf hs (by omega)) fun _ _ hrest => .step (.refl M) hph hm hrest
        · rw [if_neg ht]
          have hbad : ¬ (ph.Sound f ∧ (m.extend ph).sz ≠ 0) → Prog.loadAll f (n + 1) off m = none := fun h₁ => by
            refine loadAll_none hph ?_
            rw [Prog.load, if_neg ht, if_neg h₁]
          by_cases h₁ : ph.memsz < ph.filesz
          · rw [if_pos h₁, wp_pure]
            exact Segments.stop hI (.refl M) hs (hbad fun h₂ => absurd h₂.1.1 (Nat.not_le.2 h₁))
          · rw [if_neg h₁]
            by_cases h₂ : ph.last < ph.vaddr
            · rw [if_pos h₂, wp_pure]
              exact Segments.stop hI (.refl M) hs (hbad fun h₃ => absurd h₃.1.2.1 (Nat.not_le.2 h₂))
            · rw [if_neg h₂, wp_bind]
              refine wp_post (hs.extend hI ph) ?_
              rintro sz1 N ⟨hr, ⟨rfl, h', hs'⟩ | ⟨rfl, hshort, h', hp, hw⟩⟩
              · by_cases h₃ : (m.extend ph).sz = 0
                · have h₄ : m.sz = (m.extend ph).sz := by
                    have := (extend_le m ph).1
                    omega
                  rw [if_pos h₃, wp_pure, h₄]
                  exact Segments.stop hI hr hs' (hbad fun h₅ => h₅.2 h₃)
                · have hlast : ph.last = ph.vaddr + ph.memsz := by
                    rw [← hread] at h₂ ⊢
                    exact last_eq (Nat.not_lt.1 h₂)
                  have hfit : ph.vaddr + ph.filesz % 2 ^ 32 ≤ (m.extend ph).image.npages * pgSize := by
                    have h₄ := (extend_le m ph).2
                    have h₅ := le_npages_mul (m.extend ph).sz
                    have h₆ := Nat.mod_le ph.filesz (2 ^ 32)
                    rw [hs'.npages]
                    omega
                  rw [if_neg h₃, wp_bind]
                  refine wp_post (loadseg_spec hI (hr.fs ▸ hf) hs'.building hs'.user hfit (Nat.mod_lt _ (by decide))) ?_
                  rintro res P ⟨hr', ⟨rfl, hin, h'', hb⟩ | ⟨rfl, hout, h'', img, hb, himg⟩⟩
                  · have hm : m.load f ph = some ((m.extend ph).fill f ph) := by
                      rw [Prog.load, if_neg ht, if_pos ⟨⟨Nat.not_lt.1 h₁, Nat.not_lt.1 h₂, hin⟩, h₃⟩]
                    have hs'' : Stage g s r ((m.extend ph).fill f ph) h'' P.ram := ⟨hb, hs'.npages, hs'.user⟩
                    rw [if_neg (by decide)]
                    refine wp_post (ih (m := (m.extend ph).fill f ph) ((hr.trans hr').fs ▸ hf) hs'' (by omega)) fun _ _ hrest => ?_
                    exact .step (hr.trans hr') hph hm hrest
                  · rw [if_pos (by decide), wp_pure]
                    refine ⟨hr.trans hr', .inr ⟨rfl, fun m' hm' => ?_, hs'.npages_le hI, h'',
                      hb.toPlanted, ?_⟩⟩
                    · rw [hbad fun h₄ => hout h₄.1.2.2] at hm'
                      cases hm'
                    · rw [← hs'.npages, ← himg]
                      exact hb.within
              · rw [if_pos rfl, wp_pure]
                refine ⟨hr, .inr ⟨rfl, fun m' hm' => ?_, hs.npages_le hI, h', hp, hw⟩⟩
                obtain ⟨ph', m₁, hph', hm₁, hrest⟩ := loadAll_succ hm'
                rw [hph] at hph'
                cases hph'
                have hlast := (load_le hm₁).2 (not_not.1 ht)
                have hnp := npages_le (Nat.le_trans hlast (loadAll_le hrest))
                omega

end Xv6.Exec
