import Xv6.Vm.Lemmas.Fault
import Xv6.Vm.Lemmas.Strings

/-!
# Copies between the kernel and a user

`copyin` and `copyinstr` go through the pages of a range one by one. `copyin` has a page that it cannot
look up faulted in; `copyinstr` gives up there.
-/

namespace Xv6.Vm

open Xv6.Lib

variable {top : Nat} {f g h : View} {s t u : Ram} {a p r v n sz : Nat} {x perm : Pte} {E : Stop → Ram → Prop} {P : Proc}

/-! ## Pages -/

/-- The pages that the copy functions let through: one that the user may access, one below `n` that is
not there yet, or one below `n` that is shared, whether or not the user may access it. -/
def View.Copyable (g : View) (r n v : Nat) : Prop :=
  (g.Mapped r v ∧ (g.leaf r v).has pteU = true) ∨ (¬ g.Mapped r v ∧ v < n) ∨
    (g.Mapped r v ∧ (g.leaf r v).has pteCow = true ∧ v < n)

theorem Touched.copyable (ht : Touched top r n g s h t) (hc : h.Copyable r n v) : g.Copyable r n v := by
  by_cases hlt : v < n
  · by_cases hm : g.Mapped r v
    · have he := ht.entry v
      revert he
      generalize hl : h.leaf r v = y
      intro he
      cases he with
      | same =>
          unfold View.Copyable View.Mapped at *
          rw [hl] at hc
          exact hc
      | added _ hx => exact absurd hm (Bool.eq_false_iff.1 hx)
      | copied _ hx hcow => exact .inr (.inr ⟨hx, hcow, hlt⟩)
    · exact .inr (.inl ⟨hm, hlt⟩)
  · have hl : h.leaf r v = g.leaf r v := ht.frame.leaf r v fun hx => hlt hx.2.2
    unfold View.Copyable View.Mapped at *
    rw [hl] at hc
    exact hc

theorem wp_walkaddr {Q : Option Nat → Ram → Prop} (hI : Inv top g s) (hr : g.role r = .table r 2 0)
    (hnone : Q none s)
    (hsome : a < maxVa → g.Mapped r (a / pgSize) → (g.leaf r (a / pgSize)).has pteU = true →
      Q (some (g.page r (a / pgSize))) s) : wp (walkaddr r a) Q E s := by
  unfold walkaddr
  by_cases hva : maxVa ≤ a
  · rw [if_pos hva, wp_pure]
    exact hnone
  · rw [if_neg hva, wp_bind]
    refine wp_walk hI.tree hr (Nat.not_le.1 hva) (fun b _ hpte => ?_) fun _ => ?_
    · simp only [readPte, wp_bind, wp_get, wp_pure, hpte]
      by_cases hok : (g.leaf r (a / pgSize)).has pteV = true ∧ (g.leaf r (a / pgSize)).has pteU = true
      · rw [if_pos hok, wp_pure]
        exact hsome (Nat.not_le.1 hva) hok.1 hok.2
      · rw [if_neg hok, wp_pure]
        exact hnone
    · rw [wp_pure]
      exact hnone

theorem copyinPage_spec (hI : Inv top g s) (hr : g.role P.pagetable = .table P.pagetable 2 0)
    (hsz : npages P.sz ≤ top) (htop : top * pgSize ≤ maxVa) :
    wp (copyinPage P P.pagetable (v * pgSize)) (fun res t => ∃ h, Touched top P.pagetable (npages P.sz) g s h t ∧
      ∀ p, res = some p → h.Mapped P.pagetable v ∧ h.page P.pagetable v = p ∧
        g.Copyable P.pagetable (npages P.sz) v) E s := by
  unfold copyinPage
  rw [wp_bind]
  refine wp_walkaddr hI hr ?_ fun _ hm hu => ?_
  · refine wp_post (vmfault_spec hI hr hsz htop) ?_
    intro res t hf
    obtain ⟨h, ht, hp⟩ := hf.touched
    rw [mul_pgSize_div] at hp
    refine ⟨h, ht, fun p he => ?_⟩
    obtain ⟨hlt, hm, hpage, hcow⟩ := hp p he
    have hv := lt_npages.2 hlt
    refine ⟨hm, hpage, ?_⟩
    by_cases hg : g.Mapped P.pagetable v
    · exact .inr (.inr ⟨hg, hcow hg, hv⟩)
    · exact .inr (.inl ⟨hg, hv⟩)
  · rw [mul_pgSize_div] at hm hu ⊢
    rw [wp_pure]
    exact ⟨g, .refl hI _ _, fun p hp => by cases hp; exact ⟨hm, rfl, .inl ⟨hm, hu⟩⟩⟩

/-! ## `copyin` -/

/-- The bytes of a range, as the user sees them. -/
def View.bytes (g : View) (s : Ram) (r a n : Nat) : List (BitVec 8) := (List.range n).map fun i => g.byte s r (a + i)

theorem bytes_append (g : View) (s : Ram) (r a m n : Nat) :
    g.bytes s r a m ++ g.bytes s r (a + m) n = g.bytes s r a (m + n) := by
  unfold View.bytes
  rw [List.range_add, List.map_append, List.map_map]
  simp only [Function.comp_def, Nat.add_assoc]

theorem Touched.bytes (ht : Touched top r n g s h t) {m : Nat} (hm : ∀ i, i < m → (a + i) / pgSize < top) :
    h.bytes t r a m = g.bytes s r a m :=
  List.map_congr_left fun i hi => ht.byte _ (hm i (List.mem_range.1 hi))

theorem read_eq_bytes (hm : g.Mapped r (a / pgSize)) {m : Nat} (hle : a % pgSize + m ≤ pgSize) :
    s.read (g.page r (a / pgSize)) (a % pgSize) m = g.bytes s r a m := by
  refine List.map_congr_left fun i hi => ?_
  rw [List.mem_range] at hi
  have h₁ : (a + i) / pgSize = a / pgSize ∧ (a + i) % pgSize = a % pgSize + i := by
    unfold pgSize at *
    omega
  unfold View.byte
  rw [h₁.1, h₁.2, if_pos hm]

/-- What `copyin` of `len` bytes from `a` on returns and leaves. -/
structure CopiedIn (top : Nat) (P : Proc) (g : View) (s : Ram) (a len : Nat) (res : Int × List (BitVec 8)) (h : View)
    (t : Ram) : Prop where
  touched : Touched top P.pagetable (npages P.sz) g s h t
  pages : res.1 = 0 → ∀ i, i < len → g.Copyable P.pagetable (npages P.sz) ((a + i) / pgSize)
  bytes : res.1 = 0 → (∀ i, i < len → (a + i) / pgSize < top) → res.2 = g.bytes s P.pagetable a len

theorem CopiedIn.nil (hI : Inv top g s) (a : Nat) : CopiedIn top P g s a 0 (0, []) g s :=
  ⟨.refl hI _ _, fun _ i hi => absurd hi (Nat.not_lt_zero i), fun _ _ => rfl⟩

theorem CopiedIn.cons {len m : Nat} {res : Int × List (BitVec 8)} (ht : Touched top P.pagetable (npages P.sz) g s h t)
    (hm : h.Mapped P.pagetable (a / pgSize)) (hc : g.Copyable P.pagetable (npages P.sz) (a / pgSize))
    (hle : m ≤ len) (hoff : a % pgSize + m ≤ pgSize) (hnext : m < len → n = a + m)
    (hrest : CopiedIn top P h t n (len - m) res f u) :
    CopiedIn top P g s a len (res.1, t.read (h.page P.pagetable (a / pgSize)) (a % pgSize) m ++ res.2) f u where
  touched := ht.trans hrest.touched
  pages h₀ i hi := by
    by_cases him : i < m
    · have hdiv : (a + i) / pgSize = a / pgSize := by
        unfold pgSize at *
        omega
      rw [hdiv]
      exact hc
    · have h₁ := hrest.pages h₀ (i - m) (by omega)
      rw [hnext (by omega), show a + m + (i - m) = a + i by omega] at h₁
      exact ht.copyable h₁
  bytes h₀ hlen := by
    have hfirst : ∀ i, i < m → (a + i) / pgSize < top := fun i hi => hlen i (by omega)
    have hlast : ∀ i, i < len - m → (n + i) / pgSize < top := fun i hi => by
      rw [hnext (by omega), Nat.add_assoc]
      exact hlen _ (by omega)
    rw [read_eq_bytes hm hoff, ht.bytes hfirst, hrest.bytes h₀ hlast, ht.bytes hlast]
    rcases Nat.lt_or_ge m len with hlt | hge
    · rw [hnext hlt, bytes_append, Nat.add_sub_cancel' hle]
    · have he : m = len := Nat.le_antisymm hle hge
      rw [he, Nat.sub_self]
      exact List.append_nil _

theorem copyinLoop_spec {fuel len : Nat} (hI : Inv top g s) (hr : g.role P.pagetable = .table P.pagetable 2 0)
    (hsz : npages P.sz ≤ top) (htop : top * pgSize ≤ maxVa) (hfuel : len ≤ fuel) :
    wp (copyinLoop P P.pagetable fuel a len) (fun res t => ∃ h, CopiedIn top P g s a len res h t) E s := by
  induction fuel generalizing g s a len with
  | zero =>
      have h₀ : len = 0 := Nat.le_zero.1 hfuel
      subst h₀
      rw [copyinLoop, wp_pure]
      exact ⟨g, .nil hI a⟩
  | succ fuel ih =>
      unfold copyinLoop
      by_cases h₀ : len = 0
      · subst h₀
        rw [if_pos rfl, wp_pure]
        exact ⟨g, .nil hI a⟩
      have hoff : a - pgRoundDown a = a % pgSize := by
        unfold pgRoundDown pgSize
        omega
      have hmod := Nat.mod_lt a (show 0 < pgSize by decide)
      rw [if_neg h₀]
      simp only [wp_bind, hoff]
      refine wp_post (copyinPage_spec hI hr hsz htop) ?_
      rintro res t ⟨h, ht, hp⟩
      cases res with
      | none =>
          rw [wp_pure]
          exact ⟨h, ht, fun h₁ => absurd h₁ (by decide), fun h₁ => absurd h₁ (by decide)⟩
      | some pa =>
          obtain ⟨hm, rfl, hc⟩ := hp pa rfl
          simp only [wp_bind, wp_get, wp_pure]
          refine wp_post (ih ht.inv (ht.root hr) ?_) ?_
          · omega
          · rintro res u ⟨f, hrest⟩
            refine ⟨f, .cons ht hm hc (Nat.min_le_right _ _) (by omega) (fun hlt => ?_) hrest⟩
            unfold pgRoundDown
            unfold pgSize at *
            omega

theorem copyin_spec {len : Nat} (hI : Inv top g s) (hr : g.role P.pagetable = .table P.pagetable 2 0)
    (hsz : npages P.sz ≤ top) (htop : top * pgSize ≤ maxVa) :
    wp (copyin P P.pagetable a len) (fun res t => ∃ h, CopiedIn top P g s a len res h t) E s :=
  copyinLoop_spec hI hr hsz htop (Nat.le_refl _)

/-! ## `copyinstr` -/

/-- What `copyinstr` returns: bytes that have room in `n`, and with `true` a string that ends there. It
changes nothing. -/
structure FetchedStr (s : Ram) (n : Nat) (res : Bool × List (BitVec 8)) (t : Ram) : Prop where
  state : t = s
  length : res.2.length ≤ n
  string : res.1 = true → ∃ str, res.2 = str ++ [0] ∧ 0 ∉ str

theorem copyinstr_spec {max : Nat} (s : Ram) (r a : Nat) : wp (copyinstr r a max) (FetchedStr s max) E s := by
  refine wp_of_ok (copyinstr_eq s r a max) ⟨rfl, fetchString_length s r a max, fun hfound => ?_⟩
  obtain ⟨k, hk, hstr⟩ := fetchString_iff.1 hfound
  refine ⟨s.userBytes r a k, ?_, hstr.zero_notMem⟩
  rw [fetchString_of_stringAt hstr hk, userBytes_snoc, hstr.last]
  rfl

end Xv6.Vm
