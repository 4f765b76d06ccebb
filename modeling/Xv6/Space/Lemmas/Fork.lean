import Xv6.Space.Lemmas.Ok

/-!
# Making and freeing processes

`allocproc` takes a page for the trapframe and sets up a page table; `freeproc` gives both back. `kfork`
shares the pages of the parent with the child. If there is too little memory for the page table of the
child, the child goes, but a reference to a page of the parent stays behind.
-/

namespace Xv6.Space

open Lib Vm

variable {f g h : View} {S : Spaces} {s t u : Ram} {i j a r n v sz tf : Nat} {p q : Vm.Proc} {E : Stop → Ram → Prop}

/-! ## `freeproc` -/

/-- A page table and its trapframe are gone. -/
structure Gone (g : View) (s : Ram) (tf r : Nat) (h : View) (t : Ram) : Prop where
  inv : Inv userPages h t
  live : Live g s → Live h t
  frame : Frame userPages (tree r) g s h t
  kern : h.kern = g.kern \ {tf}
  roots : h.roots = g.roots \ {r}
  leak : h.leak = g.leak
  bytes : ∀ a, g.role a = .kern → a ≠ tf → t.mem a = s.mem a

theorem setRole_free_kern (g : View) (a : Nat) : (g.setRole a .free).kern = g.kern \ {a} := by
  ext b
  show (g.setRole a .free).role b = .kern ↔ g.role b = .kern ∧ b ≠ a
  by_cases hb : b = a
  · subst hb
    rw [setRole_role_self]
    exact iff_of_false (by simp) fun h₁ => h₁.2 rfl
  · rw [setRole_role_of_ne hb]
    exact (and_iff_left hb).symm

theorem freeproc_spec (hI : Inv userPages g s) (htf : g.role tf = .kern) (hr : g.role r = .table r 2 0)
    (hw : g.Within r (npages sz)) (hsz : npages sz ≤ userPages) :
    wp (freeproc (some tf) (some r) sz) (fun _ t => ∃ h, Gone g s tf r h t) E s := by
  unfold freeproc
  simp only [wp_bind]
  refine wp_kfree_kern hI htf fun t hI' hf hmem href _ => ?_
  have hne : r ≠ tf := ne_of_role hr htf (by simp)
  have hr' : (g.setRole tf .free).role r = .table r 2 0 := by rw [setRole_role_of_ne hne, hr]
  refine wp_post (procFreepagetable_spec hI' hr' hw hsz (Nat.le_refl _)) ?_
  rintro _ u ⟨h, he⟩
  refine ⟨h, he.inv, fun hl => he.apart.live fun a ha => ?_, hf.none_trans he.frame, ?_, ?_, he.leak, fun a ha hne' => ?_⟩
  · have hne' : a ≠ tf := fun h₁ => by
      rw [h₁, setRole_role_self] at ha
      cases ha
    rw [setRole_role_of_ne hne'] at ha
    rw [href a (managed_of_role hI.tree ha (by simp)) hne']
    exact hl a ha
  · rw [he.kern, setRole_free_kern]
  · rw [he.roots, setRole_roots (by rw [htf]; simp) (by simp)]
  · have ha' : (g.setRole tf .free).role a = .kern := by rw [setRole_role_of_ne hne', ha]
    rw [(he.apart.kern a ha').2, hmem a hne']

/-! ## `allocproc` -/

/-- A process without user memory has been made. -/
structure Started (g : View) (s : Ram) (p : Vm.Proc) (h : View) (t : Ram) : Prop where
  inv : Inv userPages h t
  live : Live g s → Live h t
  frame : Frame userPages (tree p.pagetable) g s h t
  root : g.role p.pagetable = .free
  trapframe : g.role p.trapframe = .free
  kern : h.kern = insert p.trapframe g.kern
  roots : h.roots = insert p.pagetable g.roots
  leak : h.leak = g.leak
  bytes : ∀ a, g.role a = .kern → t.mem a = s.mem a
  within : h.Within p.pagetable 0
  top : h.HidesTop p.pagetable
  size : p.sz = 0

theorem holding_same {R : Set Nat} (hh : Holding userPages R g s a h t) (hs : Same userPages R h t f u) :
    Holding userPages R g s a f u where
  inv := hs.inv
  frame := hh.frame.trans hs.frame
  free := hh.free
  role := (hs.apart.kern a hh.role).1
  kern := by rw [hs.kern, hh.kern]
  roots := hs.roots.trans hh.roots
  leak := hs.leak.trans hh.leak
  apart := hh.apart.trans hs.apart

theorem holding_kern {R : Set Nat} (hh : Holding userPages R g s a h t) : h.kern = insert a g.kern := by
  rw [← hh.kern, Set.insert_sdiff_singleton]
  exact (Set.insert_eq_of_mem (show a ∈ h.kern from hh.role)).symm

theorem allocproc_spec (hI : Inv userPages g s) :
    wp allocproc (fun res t =>
      (res = none ∧ ∃ h, Same userPages ∅ g s h t) ∨ ∃ p h, res = some p ∧ Started g s p h t) E s := by
  unfold allocproc
  simp only [wp_bind]
  refine wp_kalloc hI (fun _ => ?_) fun tf t ha => ?_
  · simp only [freeproc, wp_bind, wp_pure]
    exact .inl ⟨trivial, g, .outOfMemory hI ∅⟩
  · have hh := ha.holding hI ∅
    simp only [wp_bind]
    refine wp_post (procPagetable_spec ha.inv (Nat.le_refl _)) ?_
    rintro _ u (⟨rfl, -, h, hs⟩ | ⟨r, h, rfl, hnew⟩)
    · simp only [freeproc, wp_bind, wp_pure]
      exact wp_kfree_holding (holding_same hh hs) fun f w hs' _ => .inl ⟨trivial, f, hs'⟩
    · have hp := hnew.planted
      rw [wp_pure]
      have hne : r ≠ tf := fun he => by
        have h₁ := hp.free
        rw [he, setRole_role_self] at h₁
        cases h₁
      refine .inr ⟨_, h, rfl, hp.inv, fun hl => hp.apart.live (hh.apart.live hl), hh.frame.none_trans hp.frame, ?_, ha.role, ?_,
        ?_, hp.leak, fun a hk => ?_, hnew.within, hnew.hidesTop, rfl⟩
      · have h₁ := hp.free
        rwa [setRole_role_of_ne hne] at h₁
      · rw [hp.kern, holding_kern hh]
      · rw [hp.roots, hh.roots]
      · rw [(hp.apart.kern a (hh.apart.kern a hk).1).2, (hh.apart.kern a hk).2]

/-! ## `kfork` -/

/-- The child `np` has the pages of the parent `p`. -/
structure Forked (g : View) (s : Ram) (p np : Vm.Proc) (h : View) (t : Ram) : Prop where
  inv : Inv userPages h t
  live : Live g s → Live h t
  root : g.role np.pagetable = .free
  trapframe : g.role np.trapframe = .free
  child : ∀ v, v < npages p.sz → h.leaf np.pagetable v = share (g.leaf p.pagetable v)
  leaf : ∀ r v, r ≠ np.pagetable →
    h.leaf r v = if r = p.pagetable ∧ v < npages p.sz then share (g.leaf r v) else g.leaf r v
  within : h.Within np.pagetable (npages p.sz)
  top : h.HidesTop np.pagetable
  kern : h.kern = insert np.trapframe g.kern
  roots : h.roots = insert np.pagetable g.roots
  leak : h.leak = g.leak
  mem : ∀ r v, v < userPages → g.Mapped r v → t.mem (g.page r v) = s.mem (g.page r v)
  size : np.sz = p.sz

/-- The copy failed at page `k`. The reference that the child was to have stays. -/
structure ForkUndone (g : View) (s : Ram) (p : Vm.Proc) (k : Nat) (h : View) (t : Ram) : Prop where
  inv : Inv userPages h t
  live : Live g s → Live h t
  lt : k < npages p.sz
  mapped : g.Mapped p.pagetable k
  leaf : ∀ r v, h.leaf r v = if r = p.pagetable ∧ v < k + 1 then share (g.leaf r v) else g.leaf r v
  kern : h.kern = g.kern
  roots : h.roots = g.roots
  leak : h.leak = Function.update g.leak (g.page p.pagetable k) (g.leak (g.page p.pagetable k) + 1)
  mem : ∀ r v, v < userPages → g.Mapped r v → t.mem (g.page r v) = s.mem (g.page r v)

/-- What `kfork` returns and leaves. -/
inductive ForkResult (g : View) (s : Ram) (p : Vm.Proc) : Option Vm.Proc → Ram → Prop
  | refused {h : View} {t : Ram} (hs : Same userPages ∅ g s h t) : ForkResult g s p none t
  | undone {k : Nat} {h : View} {t : Ram} (hu : ForkUndone g s p k h t) : ForkResult g s p none t
  | forked {np : Vm.Proc} {h : View} {t : Ram} (hf : Forked g s p np h t) : ForkResult g s p (some np) t

theorem inv_copyTrapframe (hI : Inv userPages h t) (htf : h.role tf = .kern) (a : Nat) :
    Inv userPages h (copyTrapframe t a tf) := hI.setMem (.inl htf) _

theorem copyTrapframe_mem {b : Nat} (hne : b ≠ tf) (a : Nat) : (copyTrapframe t a tf).mem b = t.mem b :=
  Function.update_of_ne hne ..

theorem Started.root_ne (hs : Started g s q h t) (hr : g.role r = .table r 2 0) : r ≠ q.pagetable :=
  ne_of_role hr hs.root (by simp)

theorem Started.isRoot (hs : Started g s q h t) : h.role q.pagetable = .table q.pagetable 2 0 := by
  have h₁ : q.pagetable ∈ h.roots := by
    rw [hs.roots]
    exact Set.mem_insert _ _
  exact h₁

theorem Started.isKern (hs : Started g s q h t) : h.role q.trapframe = .kern := by
  have h₁ : q.trapframe ∈ h.kern := by
    rw [hs.kern]
    exact Set.mem_insert _ _
  exact h₁

theorem Started.oldRoot (hs : Started g s q h t) (hr : g.role r = .table r 2 0) : h.role r = .table r 2 0 := by
  have h₁ : r ∈ h.roots := by
    rw [hs.roots]
    exact Set.mem_insert_of_mem _ hr
  exact h₁

theorem Started.mem (hs : Started g s q h t) (hI : Inv userPages g s) (hv : v < userPages) (hm : g.Mapped r v) :
    h.Mapped r v ∧ h.page r v = g.page r v ∧ t.mem (g.page r v) = s.mem (g.page r v) := by
  have hne : r ≠ q.pagetable := fun he => by
    unfold View.Mapped at hm
    rw [he, leaf_of_not_root hI (by rw [hs.root]; simp), not_has_zero] at hm
    cases hm
  exact ⟨(hs.frame.mapped hne).2 hm, hs.frame.page hne, hs.frame.mem r v hne hv hm⟩

theorem Started.copied (hs : Started g s q h t) (hI : Inv userPages g s) (hr : g.role p.pagetable = .table p.pagetable 2 0)
    (hsz : npages p.sz ≤ userPages) (hc : Copied userPages h t p.pagetable q.pagetable (npages p.sz) f u) :
    Forked g s p { q with sz := p.sz } f (copyTrapframe u p.trapframe q.trapframe) := by
  have hne := hs.root_ne hr
  have htf : f.role q.trapframe = .kern := by
    rw [hc.kept.role _ (by rw [hs.isKern]; simp), hs.isKern]
  have hz : ∀ v, v < npages p.sz → h.leaf q.pagetable v = 0 := fun v hv =>
    hs.within v (Nat.zero_le _) (by omega) (by omega)
  have hold : ∀ v, h.leaf p.pagetable v = g.leaf p.pagetable v := fun v => hs.frame.leaf _ v hne
  refine ⟨inv_copyTrapframe hc.inv htf _, fun hl => ?_, hs.root, hs.trapframe, fun v hv => ?_, fun r v hr' => ?_,
    fun v h₁ h₂ h₃ => ?_, fun v hv => ?_, ?_, ?_, hc.leak.trans hs.leak, fun r v hv hm => ?_, rfl⟩
  · exact hc.live hs.inv hz (hs.live hl)
  · rw [hc.leaf, if_pos ⟨hv, .inr rfl⟩, hold]
  · rw [hc.leaf]
    by_cases hrp : r = p.pagetable
    · subst hrp
      rw [hold]
      by_cases hv : v < npages p.sz
      · rw [if_pos ⟨hv, .inl rfl⟩, if_pos ⟨rfl, hv⟩]
      · rw [if_neg fun h₁ => hv h₁.1, if_neg fun h₁ => hv h₁.2]
    · rw [if_neg fun h₁ => h₁.2.elim hrp hr', if_neg fun h₁ => hrp h₁.1, hs.frame.leaf r v hr']
  · rw [hc.leaf, if_neg fun h₄ => absurd h₄.1 (Nat.not_lt.2 h₁)]
    exact hs.within v (Nat.zero_le _) h₂ h₃
  · rw [hc.leaf, if_neg fun h₄ => absurd h₄.1 (Nat.not_lt.2 (Nat.le_trans hsz hv))]
    exact hs.top v hv
  · exact hc.kept.kern.trans hs.kern
  · exact hc.kept.roots.trans hs.roots
  · obtain ⟨h₁, h₂, h₃⟩ := hs.mem hI hv hm
    have hu := hs.inv.count.user r v hv h₁
    rw [h₂] at hu
    rw [copyTrapframe_mem (ne_of_role hu hs.isKern (by simp)), hc.kept.mem _ (.inl hu), h₃]

theorem Started.undone {k : Nat} (hs : Started g s q h t) (hI : Inv userPages g s) (hr : g.role p.pagetable = .table p.pagetable 2 0)
    (hlt : k < npages p.sz) (hc : CopyUndone userPages h t p.pagetable q.pagetable k f u) {f' : View} {w : Ram}
    (hg : Gone f u q.trapframe q.pagetable f' w) : ForkUndone g s p k f' w := by
  have hne := hs.root_ne hr
  have hold : ∀ v, h.leaf p.pagetable v = g.leaf p.pagetable v := fun v => hs.frame.leaf _ v hne
  have hpage : h.page p.pagetable k = g.page p.pagetable k := hs.frame.page hne
  refine ⟨hg.inv, fun hl => hg.live (hc.live (hs.live hl)), hlt, (hs.frame.mapped hne).1 hc.mapped, fun r v => ?_, ?_, ?_, ?_,
    fun r v hv hm => ?_⟩
  · by_cases hrq : r = q.pagetable
    · subst hrq
      have h₁ : f'.role q.pagetable ≠ .table q.pagetable 2 0 := fun h₁ => by
        have h₂ : q.pagetable ∈ f'.roots := h₁
        rw [hg.roots] at h₂
        exact h₂.2 rfl
      rw [leaf_of_not_root hg.inv h₁, if_neg fun h₂ => hne h₂.1.symm, leaf_of_not_root hI (by rw [hs.root]; simp)]
    · rw [hg.frame.leaf r v hrq, hc.leaf]
      by_cases hrp : r = p.pagetable
      · subst hrp
        simp only [hold]
      · rw [if_neg fun h₁ => hrp h₁.1, if_neg fun h₁ => hrp h₁.1, hs.frame.leaf r v hrq]
  · rw [hg.kern, hc.kern, hs.kern, Set.insert_sdiff_self_of_notMem]
    intro (h₁ : g.role q.trapframe = .kern)
    rw [hs.trapframe] at h₁
    cases h₁
  · rw [hg.roots, hc.roots, hs.roots, Set.insert_sdiff_self_of_notMem]
    intro (h₁ : g.role q.pagetable = .table q.pagetable 2 0)
    rw [hs.root] at h₁
    cases h₁
  · rw [hg.leak, hc.leak, hs.leak, hpage]
  · obtain ⟨h₁, h₂, h₃⟩ := hs.mem hI hv hm
    have hrq : r ≠ q.pagetable := fun he => by
      unfold View.Mapped at hm
      rw [he, leaf_of_not_root hI (by rw [hs.root]; simp), not_has_zero] at hm
      cases hm
    have hkeep : f.Mapped r v ∧ f.page r v = h.page r v := by
      refine share_keeps ?_ h₁
      rw [hc.leaf]
      split
      · rename_i hx
        rw [hx.1]
        exact .inl rfl
      · exact .inr rfl
    have h₄ := hg.frame.mem r v hrq hv hkeep.1
    have h₅ := hc.mem r v hv h₁
    rw [h₂] at h₅
    rw [hkeep.2, h₂] at h₄
    rw [h₄, h₅, h₃]

theorem kfork_spec (hS : Ok g S) (hp : S.proc i = some p) : wp (kfork p) (ForkResult g S.ram p) E S.ram := by
  have hok := hS.proc i p hp
  have hr := hS.root hp
  have hmax : p.sz ≤ maxVa := Nat.le_trans (npages_le_iff.1 hok.size) userPages_le
  unfold kfork
  rw [wp_bind]
  refine wp_post (allocproc_spec hS.inv) ?_
  rintro _ t (⟨rfl, h, hs⟩ | ⟨q, h, rfl, hs⟩)
  · rw [wp_pure]
    exact .refused hs
  · rw [wp_bind]
    refine wp_post (uvmcopy_spec hs.inv (hs.oldRoot hr) hs.isRoot (hs.root_ne hr) hok.size hmax
      fun v hv => hs.within v (Nat.zero_le _) ?_ ?_) ?_
    · have h₁ := hok.size
      omega
    · have h₁ := hok.size
      omega
    rintro _ u (⟨rfl, f, hc⟩ | ⟨rfl, k, f, hlt, hc⟩)
    · rw [if_neg (by decide), wp_bind, wp_modify, wp_pure]
      exact .forked (hs.copied hS.inv hr hok.size hc)
    · rw [if_pos (by decide), wp_bind]
      have htf : f.role q.trapframe = .kern := by
        have h₁ : q.trapframe ∈ f.kern := by
          rw [hc.kern]
          exact hs.isKern
        exact h₁
      have hwithin : f.Within q.pagetable (npages q.sz) := fun v _ h₂ h₃ => by
        rw [hc.leaf, if_neg fun h₄ => hs.root_ne hr h₄.1.symm]
        exact hs.within v (Nat.zero_le _) h₂ h₃
      have hsz : npages q.sz ≤ userPages := by
        rw [hs.size]
        exact Nat.zero_le _
      refine wp_post (freeproc_spec hc.inv htf (root_of_roots hc.roots hs.isRoot) hwithin hsz) ?_
      rintro _ w ⟨f', hg⟩
      rw [wp_pure]
      exact .undone (hs.undone hS.inv hr hlt hc hg)

/-! ## The invariant -/

theorem add_proc {p' : Vm.Proc} (hi : S.proc i = none) (hq : S.proc j = some q) (t : Ram) :
    (S.add i (some p') t).proc j = some q := by
  have hne : j ≠ i := fun he => by
    rw [he, hi] at hq
    cases hq
  exact (setProc_of_ne hne _).trans hq

theorem Ok.add (hS : Ok g S) (hi : S.proc i = none) (hI : Inv userPages h t) (hl : Live h t)
    (hproc : ∀ j q, S.proc j = some q → ProcOk h q) (hnew : ProcOk h p) (hr : g.role p.pagetable = .free)
    (htf : g.role p.trapframe = .free) (hk : h.kern = insert p.trapframe g.kern) (hroots : h.roots = insert p.pagetable g.roots) :
    Ok h (S.add i (some p) t) where
  inv := hI
  live := hl
  proc j q hq := by
    rcases setProc_eq_some hq with ⟨-, rfl⟩ | ⟨-, hq⟩
    · exact hnew
    · exact hproc j q hq
  kern b := by
    have h₁ : h.role b = .kern ↔ b = p.trapframe ∨ g.role b = .kern := by
      have h₂ := Set.ext_iff.1 hk b
      exact h₂
    rw [h₁, hS.kern b]
    constructor
    · rintro (rfl | hb | ⟨j, q, hq, rfl⟩)
      · exact .inr ⟨i, p, setProc_self .., rfl⟩
      · exact .inl hb
      · exact .inr ⟨j, q, add_proc hi hq t, rfl⟩
    · rintro (hb | ⟨j, q, hq, rfl⟩)
      · exact .inr (.inl hb)
      · rcases setProc_eq_some hq with ⟨-, rfl⟩ | ⟨-, hq⟩
        · exact .inl rfl
        · exact .inr (.inr ⟨j, q, hq, rfl⟩)
  roots b := by
    have h₁ : h.role b = .table b 2 0 ↔ b = p.pagetable ∨ g.role b = .table b 2 0 := by
      have h₂ := Set.ext_iff.1 hroots b
      exact h₂
    rw [h₁, hS.roots b]
    constructor
    · rintro (rfl | ⟨j, q, hq, rfl⟩)
      · exact ⟨i, p, setProc_self .., rfl⟩
      · exact ⟨j, q, add_proc hi hq t, rfl⟩
    · rintro ⟨j, q, hq, rfl⟩
      rcases setProc_eq_some hq with ⟨-, rfl⟩ | ⟨-, hq⟩
      · exact .inl rfl
      · exact .inr ⟨j, q, hq, rfl⟩
  apart j k q q' hq hq' hne := by
    rcases setProc_eq_some hq with ⟨h₁, rfl⟩ | ⟨-, h₁⟩ <;> rcases setProc_eq_some hq' with ⟨h₂, rfl⟩ | ⟨-, h₂⟩
    · exact absurd (h₁.trans h₂.symm) hne
    · exact ⟨(ne_of_role (hS.root h₂) hr (by simp)).symm, (ne_of_role (hS.trapframe_kern h₂) htf (by simp)).symm⟩
    · exact ⟨ne_of_role (hS.root h₁) hr (by simp), ne_of_role (hS.trapframe_kern h₁) htf (by simp)⟩
    · exact hS.apart j k q q' h₁ h₂ hne
  own j q hq := by
    rcases setProc_eq_some hq with ⟨-, rfl⟩ | ⟨-, hq⟩
    · intro hmem
      have h₁ := (hS.kern q.trapframe).2 (.inl hmem)
      rw [htf] at h₁
      cases h₁
    · exact hS.own j q hq
  nodup := hS.nodup

theorem Started.ok (hs : Started g S.ram p h t) (hS : Ok g S) (hi : S.proc i = none) : Next none g S h (S.add i (some p) t) := by
  refine ⟨hS.add hi hs.inv (hs.live hS.live) (fun j q hq => ?_) ⟨?_, hs.top, ?_⟩ hs.root hs.trapframe hs.kern hs.roots,
    fun _ _ hq _ => ⟨add_proc hi hq t, fun _ => hs.frame.byte (hs.root_ne (hS.root hq))⟩⟩
  · exact (hS.proc j q hq).of_leaf fun v => hs.frame.leaf _ v (hs.root_ne (hS.root hq))
  · rw [hs.size]
    exact hs.within
  · rw [hs.size]
    exact Nat.zero_le _

theorem ProcOk.of_share (hp : ProcOk g p) (hl : ∀ v, h.leaf p.pagetable v = share (g.leaf p.pagetable v) ∨
    h.leaf p.pagetable v = g.leaf p.pagetable v) : ProcOk h p where
  within v h₁ h₂ h₃ := by
    have h₀ := hp.within v h₁ h₂ h₃
    rcases hl v with h₄ | h₄ <;> rw [h₄, h₀]
    exact share_zero
  top v hv := by
    have h₀ := hp.top v hv
    rcases hl v with h₄ | h₄ <;> rw [h₄]
    · rw [share_has_pteU, h₀]
    · exact h₀
  size := hp.size

/-- Sharing a page changes no byte. -/
theorem byte_of_share (hl : ∀ v, h.leaf r v = share (g.leaf r v) ∨ h.leaf r v = g.leaf r v)
    (hm : g.Mapped r (a / pgSize) → t.mem (g.page r (a / pgSize)) = s.mem (g.page r (a / pgSize))) : h.byte t r a = g.byte s r a := by
  unfold View.byte
  by_cases hv : g.Mapped r (a / pgSize)
  · obtain ⟨hv', hpage⟩ := share_keeps (hl _) hv
    rw [if_pos hv, if_pos hv', hpage, hm hv]
  · rw [if_neg hv, if_neg fun hv' => hv ?_]
    unfold View.Mapped at hv' ⊢
    rcases hl (a / pgSize) with h₁ | h₁ <;> rw [h₁] at hv'
    · rwa [share_has_pteV] at hv'
    · exact hv'

theorem Forked.ok (hf : Forked g S.ram p q h t) (hS : Ok g S) (hp : S.proc i = some p) (hj : S.proc j = none) :
    Next none g S h (S.add j (some q) t) := by
  have hl : ∀ {k q'}, S.proc k = some q' → ∀ v, h.leaf q'.pagetable v = share (g.leaf q'.pagetable v) ∨
      h.leaf q'.pagetable v = g.leaf q'.pagetable v := fun hq' v => by
    rw [hf.leaf _ v (ne_of_role (hS.root hq') hf.root (by simp))]
    split
    · exact .inl rfl
    · exact .inr rfl
  refine ⟨hS.add hj hf.inv (hf.live hS.live) (fun k q' hq' => (hS.proc k q' hq').of_share (hl hq')) ⟨?_, hf.top, ?_⟩ hf.root
    hf.trapframe hf.kern hf.roots, fun _ _ hq' _ => ⟨add_proc hj hq' t, fun _ hb => byte_of_share (hl hq') (hf.mem _ _ hb)⟩⟩
  · rw [hf.size]
    exact hf.within
  · rw [hf.size]
    exact (hS.proc i p hp).size

theorem Ok.keep (hS : Ok g S) (hI : Inv userPages h t) (hl : Live h t) (hproc : ∀ j q, S.proc j = some q → ProcOk h q)
    (hk : h.kern = g.kern) (hroots : h.roots = g.roots) : Ok h { S with ram := t } where
  inv := hI
  live := hl
  proc := hproc
  kern b := by
    have h₁ : h.role b = .kern ↔ g.role b = .kern := by
      have h₂ := Set.ext_iff.1 hk b
      exact h₂
    rw [h₁, hS.kern b]
    exact Iff.rfl
  roots b := by
    have h₁ : h.role b = .table b 2 0 ↔ g.role b = .table b 2 0 := by
      have h₂ := Set.ext_iff.1 hroots b
      exact h₂
    rw [h₁, hS.roots b]
  apart := hS.apart
  own := hS.own
  nodup := hS.nodup

theorem Ok.same {o : Option Nat} (hS : Ok g S) (hs : Same userPages ∅ g S.ram h t) : Next o g S h { S with ram := t } :=
  ⟨hS.keep hs.inv (hs.apart.live hS.live) (fun j q hq => (hS.proc j q hq).of_leaf fun v => hs.frame.leaf _ v id) hs.kern hs.roots,
    fun _ _ hq _ => ⟨hq, fun _ => hs.frame.byte id⟩⟩

theorem ForkUndone.ok {k : Nat} (hu : ForkUndone g S.ram p k h t) (hS : Ok g S) : Next none g S h { S with ram := t } := by
  have hl : ∀ r v, h.leaf r v = share (g.leaf r v) ∨ h.leaf r v = g.leaf r v := fun r v => by
    rw [hu.leaf]
    split
    · exact .inl rfl
    · exact .inr rfl
  exact ⟨hS.keep hu.inv (hu.live hS.live) (fun j q hq => (hS.proc j q hq).of_share (hl _)) hu.kern hu.roots,
    fun _ _ hq _ => ⟨hq, fun _ hb => byte_of_share (hl _) (hu.mem _ _ hb)⟩⟩

theorem ForkResult.ok {res : Option Vm.Proc} (hr : ForkResult g S.ram p res t) (hS : Ok g S) (hp : S.proc i = some p)
    (hj : S.proc j = none) : ∃ h, Next none g S h (S.add j res t) := by
  cases hr with
  | refused hs => exact ⟨_, hS.same hs⟩
  | undone hu => exact ⟨_, hu.ok hS⟩
  | forked hf => exact ⟨_, hf.ok hS hp hj⟩

theorem setProc_none_eq_some (h : S.setProc i none j = some q) : j ≠ i ∧ S.proc j = some q := by
  by_cases hj : j = i
  · rw [hj, setProc_self] at h
    cases h
  · exact ⟨hj, by rwa [setProc_of_ne hj] at h⟩

theorem Gone.ok (hg : Gone g S.ram p.trapframe p.pagetable h t) (hS : Ok g S) (hp : S.proc i = some p) :
    Next (some i) g S h { S with ram := t, proc := S.setProc i none } where
  inv := hg.inv
  live := hg.live hS.live
  proc j q hq := by
    obtain ⟨hj, hq⟩ := setProc_none_eq_some hq
    exact (hS.proc j q hq).of_leaf fun v => hg.frame.leaf _ v (hS.apart j i q p hq hp hj).1
  kern b := by
    have h₁ : h.role b = .kern ↔ g.role b = .kern ∧ b ≠ p.trapframe := by
      have h₂ := Set.ext_iff.1 hg.kern b
      exact h₂
    rw [h₁, hS.kern b]
    constructor
    · rintro ⟨hb | ⟨j, q, hq, rfl⟩, hne⟩
      · exact .inl hb
      · refine .inr ⟨j, q, ?_, rfl⟩
        have hj : j ≠ i := fun he => by
          rw [he, hp] at hq
          cases hq
          exact hne rfl
        exact (setProc_of_ne hj _).trans hq
    · rintro (hb | ⟨j, q, hq, rfl⟩)
      · exact ⟨.inl hb, fun he => hS.own i p hp (he ▸ hb)⟩
      · obtain ⟨hj, hq⟩ := setProc_none_eq_some hq
        exact ⟨.inr ⟨j, q, hq, rfl⟩, (hS.apart j i q p hq hp hj).2⟩
  roots b := by
    have h₁ : h.role b = .table b 2 0 ↔ g.role b = .table b 2 0 ∧ b ≠ p.pagetable := by
      have h₂ := Set.ext_iff.1 hg.roots b
      exact h₂
    rw [h₁, hS.roots b]
    constructor
    · rintro ⟨⟨j, q, hq, rfl⟩, hne⟩
      have hj : j ≠ i := fun he => by
        rw [he, hp] at hq
        cases hq
        exact hne rfl
      exact ⟨j, q, (setProc_of_ne hj _).trans hq, rfl⟩
    · rintro ⟨j, q, hq, rfl⟩
      obtain ⟨hj, hq⟩ := setProc_none_eq_some hq
      exact ⟨⟨j, q, hq, rfl⟩, (hS.apart j i q p hq hp hj).1⟩
  apart j k q q' hq hq' hne :=
    hS.apart j k q q' (setProc_none_eq_some hq).2 (setProc_none_eq_some hq').2 hne
  own j q hq := hS.own j q (setProc_none_eq_some hq).2
  nodup := hS.nodup
  keeps := hS.keeps hp hg.frame fun _ _ => .inl

end Xv6.Space
