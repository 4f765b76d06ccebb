import Xv6.Exec.Lemmas.User
import Xv6.Space.Lemmas.Fork
import Xv6.Space.Lemmas.Sbrk

/-!
# Every run keeps the memory in order

One lemma for each action, and the invariant of all reachable states. The only stop is that of `kexec`
with a full inode table.
-/

namespace Xv6.Space

open Lib Vm

variable {f g h : View} {S T : Spaces} {s t u : Ram} {i j a b n v : Nat} {p q : Vm.Proc} {E : Stop → Ram → Prop}

/-! ## The kernel's pages -/

theorem Ok.kalloc (hS : Ok g S) (ha : Allocated userPages g S.ram b t) :
    Next none g S (g.setRole b .kern) { S with ram := t, pages := b :: S.pages } := by
  have hh := ha.holding hS.inv ∅
  have hfree : ∀ {c}, S.Owns c → c ≠ b := fun hc => ne_of_role ((hS.kern _).2 hc) ha.role (by simp)
  refine ⟨⟨hh.inv, hh.apart.live hS.live, fun j q hq => ?_, fun c => ?_, fun c => ?_, hS.apart, fun j q hq => ?_, ?_⟩,
    fun _ _ hq _ => ⟨hq, fun _ => hh.frame.byte id⟩⟩
  · exact (hS.proc j q hq).of_leaf fun v => hh.frame.leaf _ v id
  · have h₁ : (g.setRole b .kern).role c = .kern ↔ c = b ∨ g.role c = .kern := by
      have h₂ := Set.ext_iff.1 (holding_kern hh) c
      exact h₂
    rw [h₁, hS.kern c]
    unfold Spaces.Owns
    rw [← or_assoc]
    exact or_congr List.mem_cons.symm Iff.rfl
  · have h₁ : (g.setRole b .kern).role c = .table c 2 0 ↔ g.role c = .table c 2 0 := by
      have h₂ := Set.ext_iff.1 hh.roots c
      exact h₂
    rw [h₁, hS.roots c]
  · intro hmem
    rcases List.mem_cons.1 hmem with h₁ | h₁
    · exact hfree (.inr ⟨j, q, hq, rfl⟩) h₁
    · exact hS.own j q hq h₁
  · exact List.nodup_cons.2 ⟨fun hmem => hfree (.inl hmem) rfl, hS.nodup⟩

theorem kfree_ok (hS : Ok g S) (hb : b ∈ S.pages) :
    wp (Vm.kfree b) (fun _ t => ∃ h, Next none g S h { S with ram := t, pages := S.pages.erase b }) E S.ram := by
  have hrole := (hS.kern b).2 (.inl hb)
  refine wp_kfree_kern hS.inv hrole fun t hI hf hmem href _ => ⟨g.setRole b .free, ⟨hI, fun c hc => ?_, fun j q hq => ?_, fun c => ?_,
    fun c => ?_, hS.apart, fun j q hq hmem' => ?_, hS.nodup.erase b⟩, fun _ _ hq _ => ⟨hq, fun _ => hf.byte id⟩⟩
  · have hne : c ≠ b := fun he => by
      rw [he, setRole_role_self] at hc
      cases hc
    rw [setRole_role_of_ne hne] at hc
    rw [href c (managed_of_role hS.inv.tree hc (by simp)) hne]
    exact hS.live c hc
  · exact (hS.proc j q hq).of_leaf fun v => hf.leaf _ v id
  · have h₁ : (g.setRole b .free).role c = .kern ↔ g.role c = .kern ∧ c ≠ b := by
      have h₂ := Set.ext_iff.1 (setRole_free_kern g b) c
      exact h₂
    rw [h₁, hS.kern c]
    constructor
    · rintro ⟨hc | hc, hne⟩
      · exact .inl ((hS.nodup.mem_erase_iff).2 ⟨hne, hc⟩)
      · exact .inr hc
    · rintro (hc | ⟨j, q, hq, rfl⟩)
      · obtain ⟨hne, hc⟩ := hS.nodup.mem_erase_iff.1 hc
        exact ⟨.inl hc, hne⟩
      · exact ⟨.inr ⟨j, q, hq, rfl⟩, fun he => hS.own j q hq (he ▸ hb)⟩
  · have h₁ : (g.setRole b .free).role c = .table c 2 0 ↔ g.role c = .table c 2 0 := by
      have h₂ := Set.ext_iff.1 (setRole_roots (g := g) (p := b) (by rw [hrole]; simp) (y := .free) (by simp)) c
      exact h₂
    rw [h₁, hS.roots c]
  · exact hS.own j q hq (List.mem_of_mem_erase hmem')

theorem Ok.write (hS : Ok g S) (hb : S.Owns b) (m : Bytes) :
    Next none g S g { S with ram := { S.ram with mem := Function.update S.ram.mem b m } } :=
  ⟨hS.keep (hS.inv.setMem (.inl ((hS.kern b).2 hb)) m) hS.live hS.proc rfl rfl,
    fun _ _ hq _ => ⟨hq, fun _ => (Frame.setMem hS.inv ((hS.kern _).2 hb) m).byte id⟩⟩

/-! ## Stores -/

theorem decode_has {x : Pte} {y : Nat × Pte} (h : x.decode = some y) :
    x.has pteV = true ∧ y.1 = pte2pa x ∧ ∀ k, k < 10 → y.2.getLsbD k = x.getLsbD k := by
  unfold Pte.decode at h
  split at h
  · rename_i hv
    cases h
    exact ⟨hv, rfl, fun k hk => getLsbD_pteFlags hk⟩
  · cases h

theorem storePage_some (hS : Ok g S) (hp : S.proc i = some p) (h : S.storePage p a = some b) :
    a / pgSize < npages p.sz ∧ g.Mapped p.pagetable (a / pgSize) ∧ g.page p.pagetable (a / pgSize) = b ∧
      (g.leaf p.pagetable (a / pgSize)).has pteW = true := by
  unfold Spaces.storePage at h
  rw [hS.inv.tree.table_eq (hS.root hp)] at h
  obtain ⟨y, hy, hb⟩ := Option.bind_eq_some_iff.1 h
  dsimp only at hy
  split at hy
  · obtain ⟨hv, hpa, hbit⟩ := decode_has hy
    split at hb
    · rename_i hUW
      cases hb
      rw [has_pteU, has_pteW, hbit 4 (by omega), hbit 2 (by omega), ← has_pteU, ← has_pteW] at hUW
      refine ⟨Nat.lt_of_not_le fun hle => ?_, hv, hpa.symm, hUW.2⟩
      rw [(hS.proc i p hp).userWithin _ hle hv] at hUW
      cases hUW.1
    · cases hb
  · cases hy

theorem Ok.store {c : BitVec 8} (hS : Ok g S) (hp : S.proc i = some p) (hb : S.storePage p a = some b) :
    Change userPages {p.pagetable} (pages p.pagetable 0 (npages p.sz)) g S.ram g (S.ram.write b (a % pgSize) [c]) := by
  obtain ⟨hlt, hm, rfl, hW⟩ := storePage_some hS hp hb
  have hv := Nat.lt_of_lt_of_le hlt (hS.proc i p hp).size
  have hu := hS.inv.count.user _ _ hv hm
  have hone := hS.inv.count.write _ _ hv hm hW
  exact ⟨hS.inv.write (.inr hu) _ _, (Frame.write hS.inv hone hv hm _ _).mono fun r' v' hx => ⟨hx.1, Nat.zero_le _, hx.2 ▸ hlt⟩,
    rfl, rfl, rfl, .write _ hu _ _⟩

/-! ## `kexec` -/

theorem Ok.memOk (hS : Ok g S) (hp : S.proc i = some p) (fs : Fs.Fs) (cwd : Nat) (name : List Exec.Byte) (outstanding : Int) :
    Exec.MemOk g (S.mach p fs cwd name outstanding) :=
  ⟨hS.inv, hS.live, hS.root hp, (hS.proc i p hp).within, (hS.proc i p hp).size, hS.trapframe_kern hp⟩

theorem Ok.swapped {M N : Exec.Mach} {m : Image} (hS : Ok g S) (hp : S.proc i = some p)
    (hproc : M.proc.toProc = p) (hram : M.ram = S.ram) (hs : Exec.Swapped g M m h N) (htf : N.proc.trapframe = p.trapframe)
    (hsz : m.npages = npages N.proc.sz) :
    Next (some i) g S h { S with ram := N.ram, proc := S.setProc i (some N.proc.toProc) } := by
  have hpt : M.proc.pagetable = p.pagetable := by rw [← hproc]
  have hf := hs.frame
  rw [hram, hpt] at hf
  have hold : ∀ {j q}, S.proc j = some q → q.pagetable ≠ N.proc.pagetable := fun hq =>
    ne_of_role (hS.root hq) hs.fresh (by simp)
  refine ⟨⟨hs.inv, hs.live, fun j q hq => ?_, fun c => ?_, fun c => ?_, fun j k q q' hq hq' hne => ?_, fun j q hq => ?_, hS.nodup⟩,
    hS.keeps hp hf ?_⟩
  · rcases setProc_eq_some hq with ⟨-, rfl⟩ | ⟨hj, hq⟩
    · exact ⟨hsz ▸ hs.shows.within, hs.shows.top, hsz ▸ hs.size⟩
    · refine (hS.proc j q hq).of_leaf fun v => hs.frame.leaf _ v fun hx => ?_
      rw [hpt] at hx
      exact hx.elim (hS.apart j i q p hq hp hj).1 (hold hq)
  · have h₁ : h.role c = .kern ↔ g.role c = .kern := by
      have h₂ := Set.ext_iff.1 hs.kern c
      exact h₂
    rw [h₁, hS.kern c]
    exact or_congr Iff.rfl (exists_setProc N.proc.toProc (P := fun q => q.trapframe = c) hp (by rw [htf])).symm
  · have h₁ : h.role c = .table c 2 0 ↔ (c = N.proc.pagetable ∨ g.role c = .table c 2 0) ∧ c ≠ M.proc.pagetable := by
      have h₂ := Set.ext_iff.1 hs.roots c
      exact h₂
    rw [h₁, hS.roots c, hpt]
    constructor
    · rintro ⟨rfl | ⟨j, q, hq, rfl⟩, hne⟩
      · exact ⟨i, _, setProc_self .., rfl⟩
      · refine ⟨j, q, (setProc_of_ne (fun he => hne ?_) _).trans hq, rfl⟩
        rw [he, hp] at hq
        cases hq
        rfl
    · rintro ⟨j, q, hq, rfl⟩
      rcases setProc_eq_some hq with ⟨-, rfl⟩ | ⟨hj, hq⟩
      · exact ⟨.inl rfl, fun he => hold hp he.symm⟩
      · exact ⟨.inr ⟨j, q, hq, rfl⟩, (hS.apart j i q p hq hp hj).1⟩
  · rcases setProc_eq_some hq with ⟨h₁, rfl⟩ | ⟨-, h₁⟩ <;> rcases setProc_eq_some hq' with ⟨h₂, rfl⟩ | ⟨-, h₂⟩
    · exact absurd (h₁.trans h₂.symm) hne
    · exact ⟨(hold h₂).symm, by rw [htf]; exact (hS.apart i k p q' hp h₂ (h₁ ▸ hne)).2⟩
    · exact ⟨hold h₁, by rw [htf]; exact (hS.apart j i q p h₁ hp (h₂ ▸ hne)).2⟩
    · exact hS.apart j k q q' h₁ h₂ hne
  · rcases setProc_eq_some hq with ⟨-, rfl⟩ | ⟨-, hq⟩
    · rw [htf]
      exact hS.own i p hp
    · exact hS.own j q hq
  · rintro r v (h₁ | rfl)
    · exact .inl h₁
    · exact .inr hs.fresh

theorem exec_ok {fs : Fs.Fs} {cwd : Nat} {name path : List Exec.Byte} {outstanding : Int} {argv : List Nat} (hS : Ok g S)
    (hp : S.proc i = some p) (hok : S.ok (.exec i fs cwd name outstanding path argv)) :
    wp (Exec.kexec path argv) (fun _ N => ∃ h, Next (some i) g S h { S with ram := N.ram, proc := S.setProc i (some N.proc.toProc) })
      (fun e _ => e = .panic .igetFull) (S.mach p fs cwd name outstanding) := by
  obtain ⟨hlen, hargs, hfs⟩ := hok
  obtain ⟨T, j, hfs⟩ := hfs p hp
  have hmem := hS.memOk hp fs cwd name outstanding
  have ha : Exec.ArgsOk g (S.mach p fs cwd name outstanding).ram argv :=
    ⟨fun a ha => (hS.kern a).2 (.inl (hargs a ha).1), fun a ha => (hargs a ha).2⟩
  refine wp_mono (wp_self (Exec.kexec_spec hmem hfs ha hlen path)) ?_ fun e N hx => hx.stop
  rintro res N ⟨⟨-, ⟨-, hun, -⟩ | ⟨P, hP, hres, hrep⟩⟩, hrun⟩
  · obtain ⟨h, hs⟩ := hun.ram
    refine ⟨h, ?_⟩
    have h₁ := hS.same (o := some i) hs
    have h₂ : S.setProc i (some N.proc.toProc) = S.proc := by
      rw [hun.proc]
      unfold Spaces.setProc
      rw [Function.update_eq_iff]
      exact ⟨hp.symm, fun _ _ => rfl⟩
    rwa [h₂]
  · obtain ⟨f, P', x, h, -, hfin, -, hrep', hs, hsz⟩ := Exec.kexec_replaced hmem hfs ha hlen hrun (by rw [hres]; omega)
    obtain ⟨r', hproc⟩ := hrep'.proc
    refine ⟨h, hS.swapped hp rfl rfl hs (by rw [hproc]; rfl) ?_⟩
    rw [hsz, hfin.sz, npages_mul, hfin.image]

/-! ## Steps and runs -/

theorem exec_step {α : Type} {m : K α} {k : α → Ram → Spaces} {o : Option Nat}
    (hm : wp m (fun a t => ∃ h, Next o g S h (k a t)) (fun _ _ => False) S.ram) : ∃ T h, S.exec m k = some (.ok T) ∧ Next o g S h T := by
  obtain ⟨a, t, hrun, h, hok⟩ := wp_returns hm
  unfold Spaces.exec
  rw [hrun]
  exact ⟨_, h, rfl, hok⟩

/-- What a step of the system leaves: the memory in order, unless `kexec` finds no free inode. -/
def Stepped (o : Option Nat) (g : View) (S : Spaces) (r : Option (Except Stop Spaces)) : Prop :=
  r = none ∨ (∃ T h, r = some (.ok T) ∧ Next o g S h T) ∨ r = some (.error (.panic .igetFull))

theorem Stepped.call {α : Type} {m : Vm.Proc → K α} {k : Vm.Proc → α → Ram → Spaces} {o : Option Nat}
    (hm : ∀ p, S.proc i = some p → wp (m p) (fun a t => ∃ h, Next o g S h (k p a t)) (fun _ _ => False) S.ram) :
    Stepped o g S (S.call i m k) := by
  unfold Spaces.call
  cases hp : S.proc i with
  | none => exact .inl rfl
  | some p => exact .inr (.inl (exec_step (hm p hp)))

theorem Ok.step (hS : Ok g S) {l : Act} (hl : S.ok l) : Stepped l.slot g S (S.step l) := by
  cases l with
  | kalloc =>
      refine .inr (.inl (exec_step (wp_kalloc hS.inv (fun _ => ?_) fun b t ha => ?_)))
      · exact ⟨g, hS.same (.outOfMemory hS.inv ∅)⟩
      · exact ⟨_, hS.kalloc ha⟩
  | kfree b => exact .inr (.inl (exec_step (kfree_ok hS hl)))
  | write b m => exact .inr (.inl ⟨_, g, rfl, hS.write hl m⟩)
  | start i =>
      simp only [Spaces.step]
      split
      · rename_i hi
        refine .inr (.inl (exec_step (wp_post (allocproc_spec hS.inv) ?_)))
        rintro _ t (⟨rfl, h, hs⟩ | ⟨p, h, rfl, hs⟩)
        · exact ⟨h, hS.same hs⟩
        · exact ⟨h, hs.ok hS hi⟩
      · exact .inl rfl
  | fork i j =>
      simp only [Spaces.step]
      split
      · rename_i hj
        exact .call fun p hp => wp_post (kfork_spec hS hp) fun res t hr => hr.ok hS hp hj
      · exact .inl rfl
  | exec i fs cwd name outstanding path argv =>
      simp only [Spaces.step]
      cases hp : S.proc i with
      | none => exact .inl rfl
      | some p =>
          have hwp := exec_ok hS hp hl
          rw [Option.bind_some]
          cases hrun : Exec.kexec path argv (S.mach p fs cwd name outstanding) with
          | ok r N =>
              obtain ⟨h, hok⟩ := wp_ok hwp hrun
              exact .inr (.inl ⟨_, h, rfl, hok⟩)
          | error e N =>
              rw [wp_error hwp hrun]
              exact .inr (.inr rfl)
  | sbrk i n t => exact .call fun p hp => wp_post (sysSbrk_spec hS hp hl) fun res u hr => hr.ok hS hp
  | fault i a => exact .call fun p hp => wp_post (fault_ok hS hp) fun res t ⟨h, ht⟩ => ⟨h, hS.call hp ht.toChange⟩
  | store i a c =>
      simp only [Spaces.step]
      cases hp : S.proc i with
      | none => exact .inl rfl
      | some p =>
          cases hb : S.storePage p a with
          | none =>
              refine .inl ?_
              simp only [Option.bind_eq_bind, Option.bind_some, hb, Option.bind_none]
          | some b =>
              refine .inr (.inl ⟨_, g, ?_, hS.call hp (hS.store (c := c) hp hb)⟩)
              simp only [Option.bind_eq_bind, Option.bind_some, hb]
  | copyout i a src =>
      refine .call fun p hp => wp_post (copyout_ok _ _ hS hp) fun res t hr => ?_
      cases hr with
      | done hc => exact ⟨_, hS.call hp hc.toChange⟩
      | failed _ _ hc => exact ⟨_, hS.call hp hc.toChange⟩
  | copyin i a len =>
      exact .call fun p hp => wp_post (copyin_ok _ _ hS hp) fun res t ⟨h, hc⟩ => ⟨h, hS.call hp hc.touched.toChange⟩
  | free i =>
      refine .call fun p hp => ?_
      have hok := hS.proc i p hp
      exact wp_post (freeproc_spec hS.inv (hS.trapframe_kern hp) (hS.root hp) hok.within hok.size) fun _ t ⟨h, hg⟩ => ⟨h, hg.ok hS hp⟩

theorem Ok.boot (hI : Inv userPages (View.fresh s) s) : Ok (View.fresh s) (Spaces.boot s) where
  inv := hI
  live b hb := by
    rw [fresh_role] at hb
    split at hb <;> cases hb
  proc _ _ hp := by cases hp
  kern b := by
    rw [fresh_role]
    refine iff_of_false ?_ ?_
    · split <;> simp
    · rintro (h₁ | ⟨_, _, h₁, -⟩) <;> cases h₁
  roots b := iff_of_false (fresh_ne_table s b _ _ _) fun ⟨_, _, h₁, _⟩ => by cases h₁
  apart _ _ _ _ hp := by cases hp
  own _ _ hp := by cases hp
  nodup := List.nodup_nil

theorem Ok.reach (hI : Inv userPages (View.fresh s) s) (hS : Reach Spaces.step Spaces.ok (Spaces.boot s) S) : ∃ g, Ok g S := by
  refine hS.inv (I := fun S => ∃ g, Ok g S) ⟨_, .boot hI⟩ ?_
  rintro S l T ⟨g, hok⟩ hl hstep
  rcases hok.step hl with h₁ | ⟨T', h, h₁, hT⟩ | h₁ <;> rw [hstep] at h₁
  · cases h₁
  · cases h₁
    exact ⟨h, hT.toOk⟩
  · cases h₁

theorem Spaces.Reachable.ok (hS : S.Reachable) : ∃ g, Ok g S := by
  obtain ⟨s₀, s, ⟨hb, hk, hf⟩, hinit, hreach⟩ := hS
  have hinv : wp kinit (fun _ t => Inv userPages (View.fresh t) t ∧ t.kend = s₀.kend) (fun _ _ => True) s₀ := kinit_spec hb hk hf
  exact Ok.reach (wp_ok hinv hinit).1 hreach

end Xv6.Space
