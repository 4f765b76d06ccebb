import Xv6.Space.Lemmas.Ok

/-!
# `sys_sbrk`

The size is a `uint64` and the argument an `int`. A sum below 0 wraps around to a number above every size,
which `uvmdealloc` takes for no shrinkage at all.
-/

namespace Xv6.Space

open Lib Vm

variable {g h : View} {S : Spaces} {s u : Ram} {i sz : Nat} {n t : Int} {p : Vm.Proc} {E : Stop → Ram → Prop}

/-! ## Arithmetic -/

theorem addSize_of_nonneg (h₀ : 0 ≤ (sz : Int) + n) (h₁ : (sz : Int) + n < 2 ^ 64) : (addSize sz n : Int) = sz + n := by
  unfold addSize
  rw [Int.emod_eq_of_lt h₀ h₁, Int.toNat_of_nonneg h₀]

theorem addSize_of_neg (h₀ : (sz : Int) + n < 0) (hn : -2 ^ 31 ≤ n) : sz ≤ addSize sz n := by
  unfold addSize
  have h₁ : ((sz : Int) + n) % 2 ^ 64 = sz + n + 2 ^ 64 := by omega
  rw [h₁]
  omega

theorem npages_le_userPages (h : sz ≤ trapframe) : npages sz ≤ userPages := npages_le_iff.2 h

theorem size_le (h : npages sz ≤ userPages) : sz ≤ trapframe := npages_le_iff.1 h

theorem trapframe_lt : trapframe < 2 ^ 38 := by decide

/-! ## The calls -/

/-- What `sys_sbrk` returns and leaves. -/
inductive Sbrked (g : View) (s : Ram) (p : Vm.Proc) (n t : Int) : Int × Vm.Proc → Ram → Prop
  /-- The size grows, but no page is added yet. -/
  | lazy {sz : Nat} (heager : t ≠ sbrkEager ∨ n = 0) (hn : 0 ≤ n) (hsz : (sz : Int) = p.sz + n) (hle : sz ≤ trapframe) :
      Sbrked g s p n t (p.sz, { p with sz := sz }) s
  | grown {sz : Nat} {h : View} {u : Ram} (heager : t = sbrkEager) (hn : 0 < n) (hsz : (sz : Int) = p.sz + n)
      (hle : sz ≤ trapframe) (henough : s.pagesNeeded p.pagetable (npages p.sz) (npages sz) ≤ s.freelist.length)
      (hg : Grown userPages g s p.pagetable (npages p.sz) (npages sz) (allocPerm pteW) h u) :
      Sbrked g s p n t (p.sz, { p with sz := sz }) u
  | shrunk {sz : Nat} {h : View} {u : Ram} (hn : n < 0) (hsz : (sz : Int) = p.sz + n)
      (hu : Unmapped userPages (pages p.pagetable (npages sz) (npages p.sz)) g s h u) :
      Sbrked g s p n t (p.sz, { p with sz := sz }) u
  /-- The sum is below 0. -/
  | under (hn : (p.sz : Int) + n < 0) : Sbrked g s p n t (p.sz, p) s
  /-- The sum is above `TRAPFRAME`. -/
  | above (hn : (trapframe : Int) < p.sz + n) : Sbrked g s p n t (-1, p) s
  /-- There are too few free pages. -/
  | short {sz : Nat} {h : View} {u : Ram} (heager : t = sbrkEager) (hn : 0 < n) (hsz : (sz : Int) = p.sz + n)
      (hle : sz ≤ trapframe) (hlack : s.freelist.length < s.pagesNeeded p.pagetable (npages p.sz) (npages sz))
      (hs : Same userPages {p.pagetable} g s h u) : Sbrked g s p n t (-1, p) u

theorem growproc_spec (hS : Ok g S) (hp : S.proc i = some p) (hn : -2 ^ 31 ≤ n ∧ n < 2 ^ 31) (ht : t = sbrkEager ∨ n < 0) :
    wp (growproc p n) (fun res u => Sbrked g S.ram p n t (if res.1 < 0 then -1 else p.sz, res.2) u) E S.ram := by
  have hok := hS.proc i p hp
  have hmax := size_le hok.size
  have htf := trapframe_lt
  refine wp_ite (fun hpos => ?_) fun hpos => wp_ite (fun hneg => ?_) fun hneg => ?_
  · have hadd : (addSize p.sz n : Int) = p.sz + n := addSize_of_nonneg (by omega) (by omega)
    refine wp_ite (fun hover => ?_) fun hover => ?_
    · rw [wp_pure]
      exact .above (by omega)
    · rw [wp_bind]
      have hle : npages (addSize p.sz n) ≤ userPages := npages_le_userPages (by omega)
      have hmono : npages p.sz ≤ npages (addSize p.sz n) := npages_le (by omega)
      refine wp_post (uvmalloc_spec hS.inv (hS.root hp) (by omega) (by unfold maxVa; omega) (by omega) userPages_le
        (fun v h₁ h₂ => hok.within v h₁ (by omega) (by omega)) (by decide)) ?_
      have heager : t = sbrkEager := ht.resolve_right (by omega)
      have hmaxp : maxVa / pgSize = userPages + 2 := rfl
      have hneed := hS.inv.tree.pagesNeeded_eq (hS.root hp) (npages p.sz)
        (show npages (addSize p.sz n) ≤ maxVa / pgSize by omega)
      rintro sz u (⟨rfl, h, hg⟩ | ⟨rfl, -, -, hlack, h, hs⟩)
      · rw [if_neg (by omega), wp_pure]
        have hspent := hg.spent
        rw [hg.tables] at hspent
        exact .grown heager hpos hadd (by omega) (by omega) hg
      · rw [if_pos rfl, wp_pure]
        exact .short heager hpos hadd (by omega) (by omega) hs
  · rw [wp_bind]
    by_cases hunder : (p.sz : Int) + n < 0
    · rw [uvmdealloc, if_pos (addSize_of_neg hunder hn.1), wp_pure, wp_pure]
      exact .under hunder
    · have hadd : (addSize p.sz n : Int) = p.sz + n := addSize_of_nonneg (by omega) (by omega)
      refine wp_post (uvmdealloc_spec hS.inv (hS.root hp) (by omega) (by unfold maxVa; omega) hok.size) ?_
      rintro _ u ⟨rfl, h, hu⟩
      rw [wp_pure]
      exact .shrunk hneg hadd hu
  · rw [wp_pure]
    exact .lazy (.inr (by omega)) (by omega) (by omega) hmax

theorem sysSbrk_spec (hS : Ok g S) (hp : S.proc i = some p) (hn : -2 ^ 31 ≤ n ∧ n < 2 ^ 31) :
    wp (sysSbrk p n t) (Sbrked g S.ram p n t) E S.ram := by
  have hmax := size_le (hS.proc i p hp).size
  have htf := trapframe_lt
  refine wp_ite (fun heager => ?_) fun heager => ?_
  · rw [wp_bind]
    refine wp_post (growproc_spec hS hp hn heager) fun res u hres => ?_
    obtain ⟨r, q⟩ := res
    refine wp_ite (fun h₀ => ?_) fun h₀ => ?_
    · rw [if_pos h₀] at hres
      exact hres
    · rw [if_neg h₀] at hres
      exact hres
  · obtain ⟨hlazy, hpos⟩ := not_or.1 heager
    have hadd : (addSize p.sz n : Int) = p.sz + n := addSize_of_nonneg (by omega) (by omega)
    refine wp_ite (fun h₀ => absurd h₀ (by omega)) fun _ => wp_ite (fun hover => ?_) fun hover => ?_
    · exact .above (by omega)
    · exact .lazy (.inl hlazy) (by omega) hadd (by omega)

theorem Sbrked.ok {res : Int × Vm.Proc} (hr : Sbrked g S.ram p n t res u) (hS : Ok g S) (hp : S.proc i = some p) :
    ∃ h, Next (some i) g S h { S with ram := u, proc := S.setProc i (some res.2) } := by
  have hold := hS.proc i p hp
  have hsame : ∀ {h u}, Same userPages {p.pagetable} g S.ram h u → ∀ {sz}, npages p.sz ≤ npages sz → npages sz ≤ userPages →
      Next (some i) g S h { S with ram := u, proc := S.setProc i (some { p with sz := sz }) } := fun hs sz h₁ h₂ => by
    refine hS.change hp hs (fun _ _ hx => hx.elim) ⟨fun v hv h₃ h₄ => ?_, fun v hv => ?_, h₂⟩ <;> rw [hs.frame.leaf _ v id]
    · exact hold.within v (Nat.le_trans h₁ hv) h₃ h₄
    · exact hold.top v hv
  cases hr with
  | lazy _ hn hsz hle => exact ⟨g, hsame (.refl hS.inv _ _) (npages_le (by omega)) (npages_le_userPages hle)⟩
  | @grown sz h _ _ hn hsz hle _ hg =>
      have hmono : npages p.sz ≤ npages sz := npages_le (by omega)
      refine ⟨h, hS.change hp hg.toChange (fun _ _ hx => hx.1) ⟨fun v hv h₃ h₄ => ?_, fun v hv => ?_, npages_le_userPages hle⟩⟩
      · rw [hg.frame.leaf _ v fun hx => absurd hx.2.2 (Nat.not_lt.2 hv)]
        exact hold.within v (Nat.le_trans hmono hv) h₃ h₄
      · rw [hg.frame.leaf _ v fun hx => absurd hx.2.2 (Nat.not_lt.2 (Nat.le_trans (npages_le_userPages hle) hv))]
        exact hold.top v hv
  | @shrunk sz h _ hn hsz hu =>
      have hle : npages sz ≤ npages p.sz := npages_le (by omega)
      refine ⟨h, hS.change hp (hu.toChange.mono (Set.empty_subset _) fun _ _ hx => hx) (fun _ _ hx => hx.1)
        ⟨fun v hv h₃ h₄ => ?_, fun v hv => ?_, Nat.le_trans hle hold.size⟩⟩
      · by_cases hlt : v < npages p.sz
        · exact hu.leaf _ v ⟨rfl, hv, hlt⟩
        · rw [hu.frame.leaf _ v fun hx => hlt hx.2.2]
          exact hold.within v (Nat.not_lt.1 hlt) h₃ h₄
      · rw [hu.frame.leaf _ v fun hx => absurd hx.2.2 (Nat.not_lt.2 (Nat.le_trans hold.size hv))]
        exact hold.top v hv
  | under _ => exact ⟨g, hsame (.refl hS.inv _ _) (Nat.le_refl _) hold.size⟩
  | above _ => exact ⟨g, hsame (.refl hS.inv _ _) (Nat.le_refl _) hold.size⟩
  | short _ _ _ _ _ hs => exact ⟨_, hsame hs (Nat.le_refl _) hold.size⟩

/-! ## Page tables in memory -/

theorem table_of_leaf {r v : Nat} (hI : Inv userPages g s) (hr : g.role r = .table r 2 0) (hJ : Inv userPages h u)
    (hr' : h.role r = .table r 2 0) (hl : h.leaf r v = g.leaf r v) : u.table r v = s.table r v := by
  rw [hI.tree.table_eq hr, hJ.tree.table_eq hr']
  simp only [hl]

theorem table_make {r v a : Nat} {perm : Pte} (hJ : Inv userPages h u) (hr' : h.role r = .table r 2 0) (hv : v < userPages)
    (ha : IsPage a) (hperm : IsPerm perm) (hl : h.leaf r v = pa2pte a ||| perm ||| pteV) :
    u.table r v = some (a, perm ||| pteV) := by
  have hv' : v < maxVa / pgSize := by
    have h₁ : maxVa / pgSize = userPages + 2 := rfl
    omega
  rw [hJ.tree.table_eq hr']
  simp only [if_pos hv', hl, Pte.decode, make_perm_has_pteV, if_true]
  rw [pte2pa_make_perm ha hperm, BitVec.or_assoc, pteFlags_make ha (hperm.or (by decide))]

theorem grownTable {r lo hi : Nat} (hI : Inv userPages g s) (hr : g.role r = .table r 2 0) (hhi : hi ≤ userPages)
    (hg : Grown userPages g s r lo hi (allocPerm pteW) h u) : GrownTable s r lo hi u where
  new v h₁ h₂ := by
    obtain ⟨a, ha, hl, hz, -⟩ := hg.fresh v h₁ h₂
    exact ⟨a, table_make hg.inv (hg.root hr) (by omega) ha (by decide) hl, hz⟩
  old v hv := table_of_leaf hI hr hg.inv (hg.root hr) (hg.frame.leaf r v fun hx => by
    have h₁ := hx.2
    omega)

theorem shrunkTable {r lo hi : Nat} (hI : Inv userPages g s) (hr : g.role r = .table r 2 0)
    (hu : Unmapped userPages (pages r lo hi) g s h u) : ShrunkTable s r lo hi u where
  gone v h₁ h₂ := by
    rw [hu.inv.tree.table_eq (hu.root hr)]
    simp only [hu.leaf r v ⟨rfl, h₁, h₂⟩, decode_zero, ite_self]
  old v hv := table_of_leaf hI hr hu.inv (hu.root hr) (hu.frame.leaf r v fun hx => by
    have h₁ := hx.2
    omega)

end Xv6.Space
