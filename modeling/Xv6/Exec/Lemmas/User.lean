import Xv6.Exec.Lemmas.Kexec
import Xv6.Vm.Lemmas.Tables

/-!
# What the new program sees

The page table of the process shows the planned image: below the guard page the segments, and on the
stack the arguments.
-/

namespace Xv6.Exec

open Lib Fs Vm

variable {M N : Mach} {g h : View} {m : Image} {f : FileView} {strs : List (List Byte)} {P : Plan} {x : Prog} {L : List ProgHdr}
  {ptrs : List Nat} {path : List Byte} {base top sp a v j : Nat} {argv : List Nat} {T : Nat → Prop} {r : Int}

/-! ## The page table -/

theorem Swapped.table (hs : Swapped g M m h N) (hv : v < m.npages) :
    N.ram.table N.proc.pagetable v = some (h.page N.proc.pagetable v, m.flags v ||| pteV) := by
  obtain ⟨p, hp, hl⟩ := hs.shows.leaf v hv
  have hperm := hs.shows.perm v hv
  have hlt : v < maxVa / pgSize := by
    have h₁ := hs.size
    rw [maxVa_eq, Nat.mul_div_cancel _ (by decide)]
    omega
  have hpage : h.page N.proc.pagetable v = p := by
    unfold View.page
    rw [hl, pte2pa_make_perm hp hperm]
  rw [hs.inv.tree.table_eq hs.root, hpage]
  show ite _ _ _ = _
  rw [if_pos hlt, hl]
  unfold Pte.decode
  rw [make_perm_has_pteV, if_pos rfl, pte2pa_make_perm hp hperm, BitVec.or_assoc, pteFlags_make hp (hperm.or (by decide))]

theorem Swapped.flagsAt (hs : Swapped g M m h N) (hv : v < m.npages) : N.flagsAt v = some (m.flags v ||| pteV) := by
  unfold Mach.flagsAt
  rw [hs.table hv]
  rfl

theorem Swapped.byteAt (hs : Swapped g M m h N) (ha : a < m.npages * pgSize) : N.byteAt a = some (m.byte a) := by
  have hv : a / pgSize < m.npages := (Nat.div_lt_iff_lt_mul (by decide)).2 ha
  unfold Mach.byteAt
  rw [hs.table hv, Option.map_some, hs.shows.byte a ha]

/-! ## The planned image -/

theorem place_npages {ph : ProgHdr} (hx : x.image.npages = npages x.sz) :
    (x.place f ph).image.npages = npages (x.place f ph).sz := by
  unfold Prog.place Prog.fill Prog.extend
  split
  · exact hx
  · have hle := npages_le (Nat.not_lt.1 ‹¬ ph.last < x.sz›)
    show max _ _ = npages ph.last
    rw [hx]
    exact Nat.max_eq_right hle

theorem foldl_place_npages (hx : x.image.npages = npages x.sz) :
    (L.foldl (Prog.place f) x).image.npages = npages (L.foldl (Prog.place f) x).sz := by
  induction L generalizing x with
  | nil => exact hx
  | cons ph L ih => exact ih (place_npages hx)

theorem placeStrings_npages {m' : Image} (h : placeStrings base strs top m = some (ptrs, sp, m')) : m'.npages = m.npages := by
  induction strs generalizing top m ptrs with
  | nil =>
      cases h
      rfl
  | cons str rest ih =>
      rw [placeStrings] at h
      split at h
      · cases h
      · obtain ⟨⟨ptrs', sp', m₁⟩, hy, he⟩ := Option.map_eq_some_iff.1 h
        cases he
        have h₁ := ih hy
        exact h₁

theorem placeArgs_npages {m' : Image} (h : placeArgs base top strs m = some (ptrs, sp, m')) : m'.npages = m.npages := by
  obtain ⟨⟨ptrs', sp', m₁⟩, hy, h⟩ := Option.bind_eq_some_iff.1 h
  simp only [] at h
  split at h
  · cases h
  · cases h
    have h₁ := placeStrings_npages hy
    exact h₁

/-- The plan `P` is for the segments of `f`, which lead to `x`, and for the strings. -/
structure Final (f : FileView) (strs : List (List Byte)) (x : Prog) (P : Plan) : Prop where
  prog : x = (segments f).foldl (Prog.place f) ⟨0, .empty⟩
  accepted : ∀ ph ∈ segments f, ph.Accepted f
  npages : x.image.npages = npages x.sz
  sz : P.sz = (Vm.npages x.sz + 2) * pgSize
  image : P.image.npages = Vm.npages x.sz + 2
  placed : Placed ((Vm.npages x.sz + 1) * pgSize) P.sz strs x.withStack.image P.ptrs P.sp P.image

theorem final_of_plan (hplan : plan f strs = some P) (hsize : P.image.npages ≤ userPages) (hshort : ∀ str ∈ strs, str.length < pgSize)
    (hn : strs.length < maxArg) : ∃ x, Final f strs x P := by
  unfold plan at hplan
  split at hplan
  · cases hplan
  · simp only [] at hplan
    split at hplan
    · cases hplan
    · obtain ⟨x, hload, hstart⟩ := Option.bind_eq_some_iff.1 hplan
      obtain ⟨hx, hacc⟩ := loadAll_eq hload
      have hnp : x.image.npages = npages x.sz := by
        rw [hx]
        exact foldl_place_npages rfl
      rw [start_eq] at hstart
      obtain ⟨⟨ptrs, sp, img⟩, hplace, rfl⟩ := Option.map_eq_some_iff.1 hstart
      have himg : img.npages = npages x.sz + 2 := by
        rw [placeArgs_npages hplace]
        show max _ _ = _
        rw [hnp]
        omega
      have hbound : npages x.sz + 2 ≤ userPages := by
        rw [← himg]
        exact hsize
      have hlt : (npages x.sz + 1 + 1) * pgSize < 2 ^ 64 := by
        have h₁ : (npages x.sz + 1 + 1) * pgSize ≤ userPages * pgSize := Nat.mul_le_mul_right _ hbound
        have h₂ : userPages * pgSize < 2 ^ 64 := by decide
        omega
      have hargs : (strs.length + 1) * 8 ≤ pgSize := by
        have h₁ : maxArg * 8 ≤ pgSize := by decide
        omega
      have hpl := placeArgs_spec (m := x.withStack.image) hshort hargs (Nat.le_mul_of_pos_left pgSize (Nat.succ_pos (npages x.sz)))
        (Nat.mul_le_mul_right _ (Nat.le_succ _)) hlt
      rw [hplace] at hpl
      exact ⟨x, hx, hacc, hnp, rfl, himg, hpl⟩

/-- Below the guard page the image is that of the segments. -/
theorem Final.byte (hf : Final f strs x P) (ha : a < Vm.npages x.sz * pgSize) : P.image.byte a = x.image.byte a := by
  have hlt : a < (Vm.npages x.sz + 1) * pgSize := Nat.lt_of_lt_of_le ha (Nat.mul_le_mul_right _ (Nat.le_succ _))
  rw [hf.placed.below a hlt]
  show (if a < x.image.npages * pgSize then x.image.byte a else 0) = _
  rw [if_pos (by rw [hf.npages]; exact ha)]

theorem Final.flags (hf : Final f strs x P) (hv : v < Vm.npages x.sz) : P.image.flags v = x.image.flags v := by
  rw [hf.placed.flags]
  show Function.update _ _ _ v = _
  rw [Function.update_of_ne (Nat.ne_of_lt hv), Image.grow_flags, if_pos (by rw [hf.npages]; exact hv)]

theorem kexec_replaced {N : Mach} (hok : MemOk g M) (hfs : FsOk T j M) (ha : ArgsOk g M.ram argv) (hargc : argv.length < maxArg)
    (hk : kexec path argv M = .ok r N) (hr : r ≠ -1) :
    ∃ f P x h, program M j path = some f ∧ Final f (strings M.ram argv) x P ∧ r = argv.length ∧ Replaced g path P M N ∧
      Swapped g M P.image h N ∧ N.proc.sz = P.sz := by
  obtain ⟨-, ⟨hbad, -⟩ | ⟨P, hP, hres, hrep⟩⟩ := wp_ok (kexec_spec hok hfs ha hargc path) hk
  · exact absurd hbad hr
  · obtain ⟨f, hf, hplan⟩ := Option.bind_eq_some_iff.1 hP
    obtain ⟨h, hs⟩ := hrep.memory
    have hshort : ∀ str ∈ strings M.ram argv, str.length < pgSize := by
      intro str hstr
      obtain ⟨p, hmem, rfl⟩ := List.mem_map.1 hstr
      exact ha.short p hmem
    obtain ⟨x, hx⟩ := final_of_plan hplan hs.size hshort (by rw [strings, List.length_map]; exact hargc)
    obtain ⟨r', hproc⟩ := hrep.proc
    exact ⟨f, P, x, h, hf, hx, hres, hrep, hs, by rw [hproc]⟩

end Xv6.Exec
