import Xv6.Vm.Lemmas.Image
import Xv6.Vm.Lemmas.Transfer

/-!
# Copies to a user

`copyout` has a page that is not there yet or is shared faulted in, and then writes to a page that belongs
to this entry alone. So what it writes is seen at the addresses of the range, and nowhere else.
-/

namespace Xv6.Vm

open Xv6.Lib

variable {top : Nat} {f g h : View} {s t u : Ram} {a b k p r v n sz : Nat} {E : Stop → Ram → Prop} {P : Proc}
  {src : List (BitVec 8)}

/-! ## A page -/

/-- The pages that `copyout` lets through: those that all copy functions do, but for read-only ones. -/
def View.Storable (g : View) (r n v : Nat) : Prop :=
  g.Copyable r n v ∧ (g.Mapped r v → (g.leaf r v).has pteW = true ∨ (g.leaf r v).has pteCow = true)

theorem Touched.storable (ht : Touched top r n g s h t) (hs : h.Storable r n v) : g.Storable r n v := by
  refine ⟨ht.copyable hs.1, fun hm => ?_⟩
  have h₂ := hs.2
  have he := ht.entry v
  unfold View.Mapped at h₂ hm
  revert he h₂
  generalize h.leaf r v = y
  intro h₂ he
  cases he with
  | same => exact h₂ hm
  | added _ hx => exact absurd hm (Bool.eq_false_iff.1 hx)
  | copied _ _ hc => exact .inr hc

theorem wp_walk_mapped {Q : Option (Nat × Nat) → Ram → Prop} (hI : Inv top g s) (hr : g.role r = .table r 2 0) (ha : a < maxVa)
    (hm : g.Mapped r (a / pgSize))
    (hQ : ∀ b, s.pte b (a / pgSize % 512) = g.leaf r (a / pgSize) → Q (some (b, a / pgSize % 512)) s) :
    wp (walk r a false) Q E s := by
  refine wp_walk hI.tree hr ha (fun b _ hpte => hQ b hpte) fun h₀ => ?_
  unfold View.Mapped at hm
  rw [h₀, not_has_zero] at hm
  cases hm

/-- From `n` on, no page is the user's. -/
def View.UserWithin (g : View) (r n : Nat) : Prop := ∀ v, n ≤ v → g.Mapped r v → (g.leaf r v).has pteU = false

theorem Touched.userWithin (ht : Touched top r n g s h t) (hw : g.UserWithin r n) : h.UserWithin r n := fun v hv hm => by
  have hl : h.leaf r v = g.leaf r v := ht.frame.leaf r v fun hx => absurd hx.2.2 (Nat.not_lt.2 hv)
  unfold View.Mapped at hm
  rw [hl] at hm ⊢
  exact hw v hv hm

/-- A page to write to. -/
structure Opened (top : Nat) (P : Proc) (g : View) (s : Ram) (v p : Nat) (h : View) (t : Ram) : Prop where
  touched : Touched top P.pagetable (npages P.sz) g s h t
  lt : v < npages P.sz
  mapped : h.Mapped P.pagetable v
  page : h.page P.pagetable v = p
  storable : (h.leaf P.pagetable v).has pteW = true → g.Storable P.pagetable (npages P.sz) v

/-- The page at `v`, before the check that it may be written. -/
inductive Looked (top : Nat) (P : Proc) (g : View) (s : Ram) (v : Nat) : Option Nat → Ram → Prop
  | refused {h : View} {t : Ram} (ht : Touched top P.pagetable (npages P.sz) g s h t) : Looked top P g s v none t
  | found {p : Nat} {h : View} {t : Ram} (ho : Opened top P g s v p h t) : Looked top P g s v (some p) t

theorem vmfault_looked (hI : Inv top g s) (hr : g.role P.pagetable = .table P.pagetable 2 0) (hsz : npages P.sz ≤ top)
    (htop : top * pgSize ≤ maxVa) : wp (vmfault P P.pagetable (v * pgSize)) (Looked top P g s v) E s := by
  refine wp_post (vmfault_spec hI hr hsz htop) fun res t hf => ?_
  obtain ⟨h, ht, hp⟩ := hf.touched
  rw [mul_pgSize_div] at hp
  cases res with
  | none => exact .refused ht
  | some p =>
      obtain ⟨hlt, hm, hpage, hcow⟩ := hp p rfl
      have hv := lt_npages.2 hlt
      refine .found ⟨ht, hv, hm, hpage, fun _ => ⟨?_, fun hg => .inr (hcow hg)⟩⟩
      by_cases hg : g.Mapped P.pagetable v
      · exact .inr (.inr ⟨hg, hcow hg, hv⟩)
      · exact .inr (.inl ⟨hg, hv⟩)

/-- What `copyout` gets for a page. -/
inductive Writable (top : Nat) (P : Proc) (g : View) (s : Ram) (v : Nat) : Option Nat → Ram → Prop
  | refused {h : View} {t : Ram} (ht : Touched top P.pagetable (npages P.sz) g s h t) : Writable top P g s v none t
  | found {p : Nat} {h : View} {t : Ram} (ho : Opened top P g s v p h t)
      (hW : (h.leaf P.pagetable v).has pteW = true) : Writable top P g s v (some p) t

/-- The check at the end of `copyoutPage`. -/
def copyoutCheck (pagetable va0 : Nat) : Option Nat → K (Option Nat)
  | none => pure none
  | some pa => do
      match ← walk pagetable va0 false with
      | none => panic .exception
      | some slot => do if (← readPte slot).has pteW then pure (some pa) else pure none

theorem copyoutPage_spec (hI : Inv top g s) (hr : g.role P.pagetable = .table P.pagetable 2 0) (hsz : npages P.sz ≤ top)
    (htop : top * pgSize ≤ maxVa) (hw : g.UserWithin P.pagetable (npages P.sz)) (hva : v * pgSize < maxVa) :
    wp (copyoutPage P P.pagetable (v * pgSize)) (Writable top P g s v) E s := by
  have hfault : wp (vmfault P P.pagetable (v * pgSize)) (Looked top P g s v) E s := vmfault_looked hI hr hsz htop
  have hcheck : ∀ res t, Looked top P g s v res t →
      wp (copyoutCheck P.pagetable (v * pgSize) res) (Writable top P g s v) E t := by
    intro res t hl
    cases hl with
    | refused ht => exact .refused ht
    | @found p h _ ho =>
        have hm := ho.mapped
        rw [← mul_pgSize_div v] at hm
        simp only [copyoutCheck, wp_bind]
        refine wp_walk_mapped ho.touched.inv (ho.touched.root hr) hva hm fun b hpte => ?_
        rw [mul_pgSize_div] at hpte ⊢
        simp only [readPte, wp_bind, wp_get, wp_pure, hpte]
        cases hW : (h.leaf P.pagetable v).has pteW with
        | false => exact .refused ho.touched
        | true => exact .found ho hW
  unfold copyoutPage
  rw [wp_bind]
  refine wp_walkaddr hI hr ?_ fun _ hm hu => ?_
  · simp only [wp_bind]
    exact wp_post hfault hcheck
  · simp only [wp_bind]
    refine wp_walk_mapped hI hr hva hm fun b hpte => ?_
    rw [mul_pgSize_div] at hm hu hpte ⊢
    simp only [readPte, wp_bind, wp_get, wp_pure, hpte]
    refine wp_ite (fun _ => ?_) fun _ => ?_
    · rw [wp_bind]
      exact wp_post hfault hcheck
    · have hv : v < npages P.sz := Nat.lt_of_not_le fun hle => by
        rw [hw v hle hm] at hu
        cases hu
      exact hcheck _ _ (.found ⟨.refl hI _ _, hv, hm, rfl, fun hW => ⟨.inl ⟨hm, hu⟩, fun _ => .inl hW⟩⟩)

/-! ## Bytes of a page -/

/-- A page that may be written belongs to one entry. -/
theorem Opened.write (ho : Opened top P g s v p h t) (hW : (h.leaf P.pagetable v).has pteW = true) (hsz : npages P.sz ≤ top)
    (off : Nat) (c : List (BitVec 8)) :
    Change top {P.pagetable} (pages P.pagetable 0 (npages P.sz)) h t h (t.write p off c) := by
  have hlt := Nat.lt_of_lt_of_le ho.lt hsz
  have hI := ho.touched.inv
  have hu := hI.count.user _ v hlt ho.mapped
  have hone := hI.count.write _ v hlt ho.mapped hW
  have hframe := Frame.write hI hone hlt ho.mapped off c
  rw [ho.page] at hu hframe
  exact ⟨hI.write (.inr hu) off c, hframe.mono fun r' v' hx => ⟨hx.1, Nat.zero_le _, hx.2 ▸ ho.lt⟩, rfl, rfl, rfl,
    .write _ hu off c⟩

theorem Opened.write_byte (ho : Opened top P g s (a / pgSize) p h t) (hW : (h.leaf P.pagetable (a / pgSize)).has pteW = true)
    (hsz : npages P.sz ≤ top) {c : List (BitVec 8)} (hoff : a % pgSize + c.length ≤ pgSize) (hb : b / pgSize < top) :
    h.byte (t.write p (a % pgSize) c) P.pagetable b =
      if a ≤ b ∧ b < a + c.length then c.getD (b - a) 0 else g.byte s P.pagetable b := by
  have hlt := Nat.lt_of_lt_of_le ho.lt hsz
  have hone := ho.touched.inv.count.write _ _ hlt ho.mapped hW
  have hda := Nat.div_add_mod a pgSize
  have hdb := Nat.div_add_mod b pgSize
  have hmb := Nat.mod_lt b (show 0 < pgSize by decide)
  rw [← ho.touched.byte b hb]
  unfold View.byte
  by_cases hv : b / pgSize = a / pgSize
  · rw [hv, if_pos ho.mapped, if_pos ho.mapped, ho.page, write_mem_self]
    rw [hv] at hdb
    by_cases hin : a % pgSize ≤ b % pgSize ∧ b % pgSize < a % pgSize + c.length
    · rw [blit_apply hin, if_pos (by omega)]
      congr 1
      omega
    · rw [blit_apply_of_lt (by omega), if_neg (by omega)]
  · have hout : ¬ (a ≤ b ∧ b < a + c.length) := by
      unfold pgSize at *
      omega
    rw [if_neg hout]
    split
    · rename_i hm
      rw [write_mem_of_ne]
      intro he
      rw [← ho.page] at he
      exact hv (ho.touched.inv.unique hone hlt ho.mapped hb hm he).2
    · rfl

/-! ## `copyout` -/

/-- The first `k` bytes of `src` have been copied to `a`. -/
structure CopiedOut (top : Nat) (P : Proc) (g : View) (s : Ram) (a : Nat) (src : List (BitVec 8)) (k : Nat) (h : View)
    (t : Ram) : Prop extends Change top {P.pagetable} (pages P.pagetable 0 (npages P.sz)) g s h t where
  entry : ∀ v, Refreshed (g.leaf P.pagetable v) (h.leaf P.pagetable v)
  byte : ∀ b, b / pgSize < top → h.byte t P.pagetable b =
    if a ≤ b ∧ b < a + k then src.getD (b - a) 0 else g.byte s P.pagetable b
  storable : ∀ i, i < k → g.Storable P.pagetable (npages P.sz) ((a + i) / pgSize)

theorem CopiedOut.of_touched (ht : Touched top P.pagetable (npages P.sz) g s h t) (a : Nat) (src : List (BitVec 8)) :
    CopiedOut top P g s a src 0 h t where
  toChange := ht.toChange
  entry := ht.entry
  byte b hb := by rw [if_neg (by omega), ht.byte b hb]
  storable i hi := absurd hi (Nat.not_lt_zero i)

theorem CopiedOut.cons {m : Nat} (ho : Opened top P g s (a / pgSize) p h t)
    (hW : (h.leaf P.pagetable (a / pgSize)).has pteW = true) (hsz : npages P.sz ≤ top) (hm : m ≤ src.length)
    (hoff : a % pgSize + m ≤ pgSize) (hnext : 0 < k → n = a + m)
    (hrest : CopiedOut top P h (t.write p (a % pgSize) (src.take m)) n (src.drop m) k f u) :
    CopiedOut top P g s a src (m + k) f u where
  toChange := (ho.touched.toChange.trans (ho.write hW hsz _ _)).trans hrest.toChange
  entry v := (ho.touched.entry v).trans (hrest.entry v)
  byte b hb := by
    have hlen : (src.take m).length = m := by rw [List.length_take, Nat.min_eq_left hm]
    have hfirst := ho.write_byte hW hsz (c := src.take m) (by rw [hlen]; exact hoff) hb
    rw [hrest.byte b hb, hfirst, hlen]
    by_cases h₁ : n ≤ b ∧ b < n + k
    · rw [if_pos h₁]
      rw [hnext (by omega)] at h₁ ⊢
      rw [if_pos (by omega), List.getD_eq_getElem?_getD, List.getD_eq_getElem?_getD, List.getElem?_drop,
        show m + (b - (a + m)) = b - a by omega]
    · rw [if_neg h₁]
      by_cases h₂ : a ≤ b ∧ b < a + m
      · rw [if_pos h₂, if_pos (by omega), List.getD_eq_getElem?_getD, List.getD_eq_getElem?_getD,
          List.getElem?_take_of_lt (by omega)]
      · have h₃ : ¬ (a ≤ b ∧ b < a + (m + k)) := fun h₃ => by
          have h₄ := hnext (by omega)
          omega
        rw [if_neg h₂, if_neg h₃]
  storable i hi := by
    by_cases him : i < m
    · have hdiv : (a + i) / pgSize = a / pgSize := by
        unfold pgSize at *
        omega
      rw [hdiv]
      exact ho.storable hW
    · have h₁ := hrest.storable (i - m) (by omega)
      rw [hnext (by omega), show a + m + (i - m) = a + i by omega] at h₁
      exact ho.touched.storable h₁

/-- What `copyout` returns and leaves: if it fails, it fails at the beginning of a page. -/
inductive CopyoutResult (top : Nat) (P : Proc) (g : View) (s : Ram) (a : Nat) (src : List (BitVec 8)) : Int → Ram → Prop
  | done {h : View} {t : Ram} (hc : CopiedOut top P g s a src src.length h t) : CopyoutResult top P g s a src 0 t
  | failed {k : Nat} {h : View} {t : Ram} (lt : k < src.length) (aligned : k = 0 ∨ (a + k) % pgSize = 0)
      (hc : CopiedOut top P g s a src k h t) : CopyoutResult top P g s a src (-1) t

theorem copyoutLoop_spec {fuel : Nat} (hI : Inv top g s) (hr : g.role P.pagetable = .table P.pagetable 2 0)
    (hsz : npages P.sz ≤ top) (htop : top * pgSize ≤ maxVa) (hw : g.UserWithin P.pagetable (npages P.sz))
    (hfuel : src.length ≤ fuel) :
    wp (copyoutLoop P P.pagetable fuel a src) (CopyoutResult top P g s a src) E s := by
  induction fuel generalizing g s a src with
  | zero =>
      obtain rfl := List.length_eq_zero_iff.1 (Nat.le_zero.1 hfuel)
      rw [copyoutLoop, wp_pure]
      exact .done (.of_touched (.refl hI _ _) a [])
  | succ fuel ih =>
      unfold copyoutLoop
      by_cases h₀ : src = []
      · rw [if_pos h₀, wp_pure]
        subst h₀
        exact .done (.of_touched (.refl hI _ _) a [])
      have hpos : 0 < src.length := List.length_pos_iff.2 h₀
      rw [if_neg h₀]
      simp only [sub_pgRoundDown]
      by_cases hva : maxVa ≤ pgRoundDown a
      · rw [if_pos hva, wp_pure]
        exact .failed hpos (.inl rfl) (.of_touched (.refl hI _ _) a src)
      rw [if_neg hva, wp_bind]
      refine wp_post (copyoutPage_spec hI hr hsz htop hw (Nat.lt_of_not_le hva)) fun res t hres => ?_
      cases hres with
      | refused ht =>
          rw [wp_pure]
          exact .failed hpos (.inl rfl) (.of_touched ht a src)
      | @found p h _ ho hW =>
          have hmod := Nat.mod_lt a (show 0 < pgSize by decide)
          simp only [wp_bind, wp_modify]
          generalize hm : min (pgSize - a % pgSize) src.length = m
          have hnext : m < src.length → pgRoundDown a + pgSize = a + m := fun hlt => by
            unfold pgRoundDown
            unfold pgSize at *
            omega
          have hchange := ho.write hW hsz (a % pgSize) (src.take m)
          refine wp_post (ih hchange.inv (hchange.root (ho.touched.root hr)) (ho.touched.userWithin hw) ?_) fun res u hrest => ?_
          · rw [List.length_drop]
            omega
          · have hlen : (src.drop m).length = src.length - m := List.length_drop
            cases hrest with
            | done hc =>
                have h₁ := CopiedOut.cons ho hW hsz (by omega) (by omega) (fun hk => hnext (by omega)) hc
                rw [hlen, show m + (src.length - m) = src.length by omega] at h₁
                exact .done h₁
            | @failed k _ _ hlt hal hc =>
                rw [hlen] at hlt
                have hn := hnext (by omega)
                refine .failed (by omega) (.inr ?_) (CopiedOut.cons ho hW hsz (by omega) (by omega) (fun _ => hn) hc)
                have hpage : (a + m) % pgSize = 0 := by
                  rw [← hn]
                  unfold pgRoundDown pgSize
                  omega
                rw [← Nat.add_assoc]
                rcases hal with rfl | hal
                · exact hpage
                · rwa [hn] at hal

theorem copyout_spec (hI : Inv top g s) (hr : g.role P.pagetable = .table P.pagetable 2 0) (hsz : npages P.sz ≤ top)
    (htop : top * pgSize ≤ maxVa) (hw : g.UserWithin P.pagetable (npages P.sz)) :
    wp (copyout P P.pagetable a src) (CopyoutResult top P g s a src) E s :=
  copyoutLoop_spec hI hr hsz htop hw (Nat.le_refl _)

end Xv6.Vm
