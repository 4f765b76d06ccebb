import Xv6.Exec.Plan
import Xv6.Vm.Lemmas.Map

/-!
# The segments of an image

The headers are placed one after the other. A segment that lies above the earlier ones adds pages
with its own flags above the last page they have, and its bytes above theirs.
-/

namespace Xv6.Exec

open Lib Fs Vm

variable {f : FileView} {L : List ProgHdr} {m m' : Prog} {ph : ProgHdr} {n off a v : Nat}

/-! ## Headers -/

theorem le_npages_mul (sz : Nat) : sz ≤ npages sz * pgSize := npages_le_iff.1 (Nat.le_refl _)

/-- The end of a segment in 64-bit arithmetic is its end. -/
theorem last_eq {b : Bytes} (h : (ProgHdr.read b).vaddr ≤ (ProgHdr.read b).last) :
    (ProgHdr.read b).last = (ProgHdr.read b).vaddr + (ProgHdr.read b).memsz := by
  have h₁ : (ProgHdr.read b).vaddr < 2 ^ 64 := load_lt 8 b 16
  have h₂ : (ProgHdr.read b).memsz < 2 ^ 64 := load_lt 8 b 40
  unfold ProgHdr.last at *
  omega

theorem extend_le (m : Prog) (ph : ProgHdr) : m.sz ≤ (m.extend ph).sz ∧ ph.last ≤ (m.extend ph).sz := by
  unfold Prog.extend
  split
  · exact ⟨Nat.le_refl _, Nat.le_of_lt ‹_›⟩
  · exact ⟨Nat.not_lt.1 ‹_›, Nat.le_refl _⟩

theorem load_le {m m' : Prog} {ph : ProgHdr} (h : m.load f ph = some m') :
    m.sz ≤ m'.sz ∧ (ph.type = elfProgLoad → ph.last ≤ m'.sz) := by
  unfold Prog.load at h
  by_cases ht : ph.type ≠ elfProgLoad
  · rw [if_pos ht] at h
    cases h
    exact ⟨Nat.le_refl _, fun h₁ => absurd h₁ ht⟩
  · rw [if_neg ht] at h
    split at h
    · cases h
      exact ⟨(extend_le m ph).1, fun _ => (extend_le m ph).2⟩
    · cases h

theorem loadAll_succ {m m' : Prog} (h : Prog.loadAll f (n + 1) off m = some m') :
    ∃ ph m₁, headerAt f off = some ph ∧ m.load f ph = some m₁ ∧ Prog.loadAll f n (off + progHdrSize) m₁ = some m' := by
  unfold Prog.loadAll at h
  cases hph : headerAt f off with
  | none =>
      rw [hph] at h
      cases h
  | some ph =>
      rw [hph] at h
      cases hm : m.load f ph with
      | none =>
          simp only [Option.bind_eq_bind, Option.bind_some, hm, Option.bind_none] at h
          cases h
      | some m₁ =>
          simp only [Option.bind_eq_bind, Option.bind_some, hm] at h
          exact ⟨ph, m₁, rfl, hm, h⟩

theorem loadAll_le {m m' : Prog} (h : Prog.loadAll f n off m = some m') : m.sz ≤ m'.sz := by
  induction n generalizing off m with
  | zero =>
      cases h
      exact Nat.le_refl _
  | succ n ih =>
      obtain ⟨ph, m₁, -, hm, hrest⟩ := loadAll_succ h
      exact Nat.le_trans (load_le hm).1 (ih hrest)

theorem loadAll_step {m m₁ : Prog} {ph : ProgHdr} (hph : headerAt f off = some ph) (hm : m.load f ph = some m₁) :
    Prog.loadAll f (n + 1) off m = Prog.loadAll f n (off + progHdrSize) m₁ := by
  rw [Prog.loadAll, hph]
  simp only [Option.bind_eq_bind, Option.bind_some, hm]

theorem loadAll_none {m : Prog} {ph : ProgHdr} (hph : headerAt f off = some ph) (hm : m.load f ph = none) :
    Prog.loadAll f (n + 1) off m = none := by
  rw [Prog.loadAll, hph]
  simp only [Option.bind_eq_bind, Option.bind_some, hm, Option.bind_none]

/-! ## The segments that are loaded -/

def Prog.place (f : FileView) (m : Prog) (ph : ProgHdr) : Prog := (m.extend ph).fill f ph

/-- A header that `kexec` accepts. -/
structure ProgHdr.Accepted (ph : ProgHdr) (f : FileView) : Prop where
  sound : ph.Sound f
  stop : ph.last = ph.stop

theorem loadAll_eq (h : Prog.loadAll f n off m = some m') :
    m' = ((headers f n off).filter fun ph => ph.type = elfProgLoad).foldl (Prog.place f) m ∧
      ∀ ph ∈ (headers f n off).filter fun ph => ph.type = elfProgLoad, ph.Accepted f := by
  induction n generalizing off m with
  | zero =>
      cases h
      exact ⟨rfl, fun ph hph => absurd hph List.not_mem_nil⟩
  | succ n ih =>
      obtain ⟨ph, m₁, hph, hm, hrest⟩ := loadAll_succ h
      obtain ⟨h₁, h₂⟩ := ih hrest
      rw [headers, hph, Option.toList_some, List.singleton_append]
      unfold Prog.load at hm
      by_cases ht : ph.type ≠ elfProgLoad
      · rw [if_pos ht] at hm
        cases hm
        rw [List.filter_cons_of_neg (by simpa using ht)]
        exact ⟨h₁, h₂⟩
      · rw [if_neg ht] at hm
        split at hm
        · rename_i hs
          cases hm
          rw [List.filter_cons_of_pos (by simpa using ht)]
          refine ⟨h₁, fun ph' hmem => ?_⟩
          rcases List.mem_cons.1 hmem with rfl | hmem
          · have hread : ph' = ProgHdr.read fun i => f.byte (off + i) := by
              unfold headerAt at hph
              split at hph
              · exact (Option.some.inj hph).symm
              · cases hph
            refine ⟨hs.1, ?_⟩
            have hle := hs.1.2.1
            rw [hread] at hle ⊢
            exact last_eq hle
          · exact h₂ ph' hmem
        · cases hm

/-! ## Where the segments lie -/

/-- The segments `L`, in ascending order, have been placed: the pages reach to the end of the last, and
each page has the flags of the first segment that ends behind its start. -/
structure Shape (L : List ProgHdr) (m : Prog) : Prop where
  sz : m.sz = (L.getLast?.map ProgHdr.stop).getD 0
  npages : m.image.npages = npages m.sz
  below : ∀ ph ∈ L, ph.stop ≤ m.sz
  flags : ∀ v, v < m.image.npages → ∃ ph, L.find? (fun ph => v < Vm.npages ph.stop) = some ph ∧
    m.image.flags v = allocPerm (flags2perm ph.flags)

theorem Shape.nil : Shape [] ⟨0, .empty⟩ :=
  ⟨rfl, rfl, fun _ h => absurd h List.not_mem_nil, fun v hv => absurd hv (Nat.not_lt_zero v)⟩

theorem vaddr_le_stop (ph : ProgHdr) : ph.vaddr ≤ ph.stop := Nat.le_add_right _ _

theorem extend_above (hlast : ph.last = ph.stop) (hle : m.sz ≤ ph.vaddr) :
    m.extend ph = ⟨ph.stop, m.image.grow (npages ph.stop) (allocPerm (flags2perm ph.flags))⟩ := by
  have h₁ := vaddr_le_stop ph
  unfold Prog.extend
  rw [hlast, if_neg (by omega)]

theorem Shape.step (hs : Shape L m) (hlast : ph.last = ph.stop) (hle : m.sz ≤ ph.vaddr) : Shape (L ++ [ph]) (m.place f ph) := by
  have hext := extend_above hlast hle
  have h₁ := vaddr_le_stop ph
  have hpg : Vm.npages m.sz ≤ Vm.npages ph.stop := Vm.npages_le (by omega)
  have hsz : (m.place f ph).sz = ph.stop := by
    unfold Prog.place
    rw [hext]
    rfl
  have hnp : (m.place f ph).image.npages = Vm.npages ph.stop := by
    unfold Prog.place
    rw [hext]
    show max _ _ = _
    rw [hs.npages]
    exact Nat.max_eq_right hpg
  have hfl : ∀ v, (m.place f ph).image.flags v = if v < m.image.npages then m.image.flags v else allocPerm (flags2perm ph.flags) := by
    unfold Prog.place
    rw [hext]
    exact fun v => rfl
  refine ⟨?_, by rw [hnp, hsz], fun ph' hmem => ?_, fun v hv => ?_⟩
  · rw [hsz, List.getLast?_concat]
    rfl
  · rw [hsz]
    rcases List.mem_append.1 hmem with hmem | hmem
    · have h₂ := hs.below ph' hmem
      omega
    · rw [List.mem_singleton.1 hmem]
  · rw [List.find?_append, hfl]
    by_cases hold : v < m.image.npages
    · obtain ⟨ph', hfind, hflags⟩ := hs.flags v hold
      exact ⟨ph', by rw [hfind]; rfl, by rw [if_pos hold, hflags]⟩
    · have hnone : L.find? (fun ph => decide (v < Vm.npages ph.stop)) = none := by
        refine List.find?_eq_none.2 fun ph' hmem => ?_
        have h₂ := Vm.npages_le (hs.below ph' hmem)
        rw [hs.npages] at hold
        simp only [decide_eq_true_eq]
        omega
      rw [hnp] at hv
      refine ⟨ph, ?_, if_neg hold⟩
      rw [hnone, List.find?_cons_of_pos (by simpa using hv)]
      rfl

theorem Ascending.apart {ph' : ProgHdr} (h : Ascending L) (hph : ph ∈ L) (hph' : ph' ∈ L) (hne : ph ≠ ph') :
    ph.stop ≤ ph'.vaddr ∨ ph'.stop ≤ ph.vaddr := by
  induction L with
  | nil => exact absurd hph List.not_mem_nil
  | cons q L ih =>
      obtain ⟨hq, hL⟩ := List.pairwise_cons.1 h
      rcases List.mem_cons.1 hph with h₁ | h₁
      · rcases List.mem_cons.1 hph' with h₂ | h₂
        · exact absurd (h₁.trans h₂.symm) hne
        · rw [h₁]
          exact .inl (hq ph' h₂)
      · rcases List.mem_cons.1 hph' with h₂ | h₂
        · rw [h₂]
          exact .inr (hq ph h₁)
        · exact ih hL h₁ h₂

theorem Shape.sz_le (hs : Shape L m) (hle : ∀ ph' ∈ L, ph'.stop ≤ ph.vaddr) : m.sz ≤ ph.vaddr := by
  rw [hs.sz]
  cases hlast : L.getLast? with
  | none => exact Nat.zero_le _
  | some ph' => exact hle ph' (List.mem_of_getLast? hlast)

theorem place_induction {I : List ProgHdr → Prog → Prop} {A : ProgHdr → Prop} {K L : List ProgHdr} (hI : I K m)
    (hasc : Ascending (K ++ L)) (hA : ∀ ph ∈ L, A ph)
    (hstep : ∀ L m ph, I L m → A ph → (∀ ph' ∈ L, ph'.stop ≤ ph.vaddr) → I (L ++ [ph]) (m.place f ph)) :
    I (K ++ L) (L.foldl (Prog.place f) m) := by
  induction L generalizing K m with
  | nil =>
      rw [List.append_nil]
      exact hI
  | cons ph L ih =>
      have hbelow : ∀ ph' ∈ K, ph'.stop ≤ ph.vaddr := fun ph' hmem =>
        (List.pairwise_append.1 hasc).2.2 ph' hmem ph List.mem_cons_self
      have hnext := hstep K m ph hI (hA ph List.mem_cons_self) hbelow
      have happ : K ++ ph :: L = K ++ [ph] ++ L := by rw [List.append_assoc, List.singleton_append]
      rw [happ] at hasc ⊢
      exact ih hnext hasc fun ph' hmem => hA ph' (List.mem_cons_of_mem _ hmem)

theorem Shape.run (hasc : Ascending L) (hlast : ∀ ph ∈ L, ph.Accepted f) : Shape L (L.foldl (Prog.place f) ⟨0, .empty⟩) := by
  refine place_induction (I := Shape) (K := []) Shape.nil hasc hlast ?_
  exact fun L m ph hs ha hle => hs.step ha.stop (hs.sz_le hle)

/-! ## What the segments hold -/

/-- The bytes of the segments `L` are those of the file, and all others are zero. -/
structure Contents (f : FileView) (L : List ProgHdr) (m : Image) : Prop where
  file : ∀ ph ∈ L, ∀ k, k < ph.filesz → m.byte (ph.vaddr + k) = f.byte (ph.off + k)
  zero : ∀ a, a < m.npages * pgSize → (∀ ph ∈ L, ¬ (ph.vaddr ≤ a ∧ a < ph.vaddr + ph.filesz)) → m.byte a = 0

theorem Contents.step (hs : Shape L m) (hc : Contents f L m.image) (hL : ∀ ph ∈ L, ph.filesz ≤ ph.memsz) (ha : ph.Accepted f)
    (hin : ph.off + ph.filesz ≤ f.size) (hsize : f.size < 2 ^ 32) (hle : ∀ ph' ∈ L, ph'.stop ≤ ph.vaddr) :
    Contents f (L ++ [ph]) (m.place f ph).image := by
  have hle' := hs.sz_le hle
  have hoff : ph.off % 2 ^ 32 = ph.off := Nat.mod_eq_of_lt (by omega)
  have hfsz : ph.filesz % 2 ^ 32 = ph.filesz := Nat.mod_eq_of_lt (by omega)
  have hbyte : ∀ a, (m.place f ph).image.byte a = blit (fun a => if a < m.image.npages * pgSize then m.image.byte a else 0)
      ph.vaddr (fun i => f.byte (ph.off + i)) 0 ph.filesz a := by
    unfold Prog.place Prog.fill
    rw [extend_above ha.stop hle', hoff, hfsz]
    exact fun a => rfl
  have hroom := le_npages_mul m.sz
  rw [← hs.npages] at hroom
  refine ⟨fun ph' hmem k hk => ?_, fun a hlt hout => ?_⟩
  · rcases List.mem_append.1 hmem with hmem | hmem
    · have h₁ := hs.below ph' hmem
      have h₂ := hL ph' hmem
      have h₃ := hle ph' hmem
      unfold ProgHdr.stop at h₁ h₃
      rw [hbyte, blit_apply_of_lt (by omega), if_pos (by omega)]
      exact hc.file ph' hmem k hk
    · obtain rfl := List.mem_singleton.1 hmem
      rw [hbyte, blit_apply (by omega)]
      congr 1
      omega
  · have hself := hout ph (List.mem_append_right _ (List.mem_singleton.2 rfl))
    rw [hbyte, blit_apply_of_lt (by omega)]
    split
    · exact hc.zero a ‹_› fun ph' hmem => hout ph' (List.mem_append_left _ hmem)
    · rfl

theorem Contents.run (hasc : Ascending L) (hacc : ∀ ph ∈ L, ph.Accepted f) (hin : ∀ ph ∈ L, ph.off + ph.filesz ≤ f.size)
    (hsize : f.size < 2 ^ 32) : Contents f L (L.foldl (Prog.place f) ⟨0, .empty⟩).image := by
  have hrun := place_induction (f := f) (K := []) (L := L) (m := ⟨0, .empty⟩)
    (I := fun L m => Shape L m ∧ Contents f L m.image ∧ ∀ ph ∈ L, ph.filesz ≤ ph.memsz)
    (A := fun ph => ph.Accepted f ∧ ph.off + ph.filesz ≤ f.size)
    ⟨.nil, ⟨fun _ h => absurd h List.not_mem_nil, fun a ha => absurd ha (by rw [show Image.npages _ = 0 from rfl]; omega)⟩,
      fun _ h => absurd h List.not_mem_nil⟩ hasc (fun ph hmem => ⟨hacc ph hmem, hin ph hmem⟩) ?_
  · exact hrun.2.1
  · rintro L m ph ⟨hs, hc, hL⟩ ⟨ha, hin⟩ hle
    refine ⟨hs.step ha.stop (hs.sz_le hle), hc.step hs hL ha hin hsize hle, fun ph' hmem => ?_⟩
    rcases List.mem_append.1 hmem with hmem | hmem
    · exact hL ph' hmem
    · rw [List.mem_singleton.1 hmem]
      exact ha.sound.1

end Xv6.Exec
