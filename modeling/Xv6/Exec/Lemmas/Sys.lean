import Xv6.Exec.Lemmas.Kexec
import Xv6.Vm.Lemmas.Transfer

/-!
# `sys_exec`

The arguments are copied to pages of the kernel, one page each. Whatever comes of the call, these pages
go back, each of them once.
-/

namespace Xv6.Exec

open Lib Fs Vm

variable {E : Stop → Mach → Prop} {M N P : Mach} {f g h : View} {s t u : Ram} {n j p uargv : Nat} {argv : List Nat}
  {T : Nat → Prop}

/-! ## Memory of the process -/

theorem MemOk.touched (hok : MemOk g M) (ht : Touched userPages M.proc.pagetable (npages M.proc.sz) g M.ram h t) :
    MemOk h { M with ram := t } where
  inv := ht.inv
  live := ht.apart.live hok.live
  root := ht.root hok.root
  within v hv h₁ h₂ := by
    rw [ht.frame.leaf _ v fun hx => absurd hx.2.2 (Nat.not_lt.2 hv)]
    exact hok.within v hv h₁ h₂
  size := hok.size
  trapframe := (ht.apart.kern _ hok.trapframe).1

theorem MemOk.allocated (hok : MemOk g M) (ha : Allocated userPages g M.ram p t) :
    MemOk (g.setRole p .kern) { M with ram := t } where
  inv := ha.inv
  live := (ha.apart hok.inv ∅).live hok.live
  root := by
    rw [setRole_role_of_ne (ne_of_role hok.root ha.role (by simp))]
    exact hok.root
  within := hok.within
  size := hok.size
  trapframe := ((ha.apart hok.inv ∅).kern _ hok.trapframe).1

theorem MemOk.write (hok : MemOk g M) (hp : g.role p = .kern) (off : Nat) (b : List Byte) :
    MemOk g { M with ram := M.ram.write p off b } :=
  ⟨hok.inv.write (.inl hp) off b, hok.live, hok.root, hok.within, hok.size, hok.trapframe⟩

/-! ## Taking the pages -/

/-- The pages in `argv` have been taken for arguments since `M`. -/
structure Taken (g : View) (M : Mach) (argv : List Nat) (h : View) (N : Mach) : Prop where
  rest : Rest M N
  mem : MemOk h N
  kern : h.kern = g.kern ∪ { a | a ∈ argv }
  fresh : ∀ a ∈ argv, g.role a ≠ .kern
  nodup : argv.Nodup
  leak : h.leak = g.leak

theorem Taken.refl (hok : MemOk g M) : Taken g M [] g M where
  rest := .refl M
  mem := hok
  kern := by simp
  fresh a ha := absurd ha List.not_mem_nil
  nodup := List.nodup_nil
  leak := rfl

theorem Taken.role (ht : Taken g M argv h N) {a : Nat} (ha : a ∈ argv) : h.role a = .kern := by
  have h₁ : a ∈ h.kern := by
    rw [ht.kern]
    exact .inr ha
  exact h₁

theorem Taken.touched (ht : Taken g M argv h N) (hc : Touched userPages N.proc.pagetable (npages N.proc.sz) h N.ram f t) :
    Taken g M argv f { N with ram := t } where
  rest := ht.rest.trans (.ram N t)
  mem := ht.mem.touched hc
  kern := hc.kern.trans ht.kern
  fresh := ht.fresh
  nodup := ht.nodup
  leak := hc.leak.trans ht.leak

theorem argsOk_touched (ha : ArgsOk h N.ram argv) (hc : Touched userPages N.proc.pagetable n h N.ram f t) : ArgsOk f t argv where
  kern a h₁ := (hc.apart.kern a (ha.kern a h₁)).1
  short a h₁ := by
    have h₂ : stringAt t a = stringAt N.ram a := by
      unfold stringAt Ram.read
      rw [(hc.apart.kern a (ha.kern a h₁)).2]
    rw [h₂]
    exact ha.short a h₁

theorem Taken.snoc (ht : Taken g M argv h N) (ha : Allocated userPages h N.ram p t) (b : List Byte) :
    Taken g M (argv ++ [p]) (h.setRole p .kern) { N with ram := t.write p 0 b } where
  rest := ht.rest.trans (.ram N _)
  mem := (ht.mem.allocated ha).write (setRole_role_self _ _ _) 0 b
  kern := by
    ext q
    show (h.setRole p .kern).role q = .kern ↔ q ∈ g.kern ∨ q ∈ argv ++ [p]
    by_cases hq : q = p
    · subst hq
      rw [setRole_role_self]
      simp
    · have h₁ : h.role q = .kern ↔ q ∈ g.kern ∨ q ∈ argv := by
        show q ∈ h.kern ↔ _
        rw [ht.kern]
        rfl
      rw [setRole_role_of_ne hq, h₁, List.mem_append, List.mem_singleton, or_iff_left hq]
  fresh a hmem hg := by
    have h₁ : a ∈ h.kern := by
      rw [ht.kern]
      exact .inl hg
    rcases List.mem_append.1 hmem with h₂ | h₂
    · exact ht.fresh a h₂ hg
    · rw [List.mem_singleton.1 h₂] at h₁
      have h₃ : h.role p = .kern := h₁
      rw [ha.role] at h₃
      cases h₃
  nodup := by
    refine List.nodup_append.2 ⟨ht.nodup, List.nodup_singleton p, fun a h₁ b h₂ he => ?_⟩
    have h₃ := ht.role h₁
    rw [he, List.mem_singleton.1 h₂, ha.role] at h₃
    cases h₃
  leak := ht.leak

theorem read_write {b : List Byte} {k : Nat} (hlen : b.length ≤ k) :
    (t.write p 0 b).read p 0 k = b ++ (t.write p 0 b).read p b.length (k - b.length) := by
  obtain ⟨m, rfl⟩ := Nat.exists_eq_add_of_le hlen
  unfold Ram.read
  rw [List.range_add, List.map_append, List.map_map, Nat.add_sub_cancel_left]
  congr 1
  · refine List.ext_getElem (by rw [List.length_map, List.length_range]) fun i h₁ h₂ => ?_
    rw [List.getElem_map, List.getElem_range, Nat.zero_add, write_mem_self, blit_apply (by omega), Nat.zero_add, Nat.sub_zero]
    rw [List.getD_eq_getElem?_getD, List.getElem?_eq_getElem h₂, Option.getD_some]
  · refine List.map_congr_left fun i _ => ?_
    simp only [Function.comp_apply, Nat.zero_add]

theorem stringAt_write {str b : List Byte} (hb : b = str ++ [0]) (h₀ : 0 ∉ str) (hlen : b.length ≤ pgSize) :
    stringAt (t.write p 0 b) p = str := by
  unfold stringAt
  rw [read_write hlen]
  generalize (t.write p 0 b).read p b.length _ = rest
  rw [hb, List.append_assoc, List.takeWhile_append_of_pos fun x hx => ?_]
  · simp
  · simpa using fun he : x = 0 => h₀ (he ▸ hx)

theorem argsOk_snoc (ha : ArgsOk h s argv) (hal : Allocated userPages h s p t) {str b : List Byte}
    (hb : b = str ++ [0]) (h₀ : 0 ∉ str) (hlen : b.length ≤ pgSize) :
    ArgsOk (h.setRole p .kern) (t.write p 0 b) (argv ++ [p]) := by
  have hne : ∀ a ∈ argv, a ≠ p := fun a h₁ => ne_of_role (ha.kern a h₁) hal.role (by simp)
  refine ⟨fun a h₁ => ?_, fun a h₁ => ?_⟩
  · rcases List.mem_append.1 h₁ with h₂ | h₂
    · rw [setRole_role_of_ne (hne a h₂)]
      exact ha.kern a h₂
    · rw [List.mem_singleton.1 h₂, setRole_role_self]
  · rcases List.mem_append.1 h₁ with h₂ | h₂
    · have h₃ : stringAt (t.write p 0 b) a = stringAt s a := by
        unfold stringAt Ram.read
        rw [write_mem_of_ne (hne a h₂), hal.mem a (hne a h₂)]
      rw [h₃]
      exact ha.short a h₂
    · rw [List.mem_singleton.1 h₂, stringAt_write hb h₀ hlen]
      rw [hb, List.length_append, List.length_singleton] at hlen
      omega

/-! ## Fetching the arguments -/

theorem maxVa_le : userPages * pgSize ≤ maxVa := by
  rw [maxVa_eq]
  exact Nat.mul_le_mul_right _ (Nat.le_add_right _ _)

theorem fetchaddr_spec {addr : Nat} (ht : Taken g M argv h N) (ha : ArgsOk h N.ram argv) :
    wp (fetchaddr addr) (fun _ P => ∃ f, Taken g M argv f P ∧ ArgsOk f P.ram argv) E N := by
  unfold fetchaddr
  rw [wp_bind, wp_get]
  refine wp_ite (fun _ => ⟨h, ht, ha⟩) fun _ => ?_
  rw [wp_bind, wp_onRam]
  refine wp_mono (copyin_spec ht.mem.inv ht.mem.root ht.mem.size maxVa_le (E := fun x t => E x { N with ram := t })) ?_ fun _ _ => id
  rintro ⟨r, bytes⟩ t ⟨f, hc⟩
  have hdone : ∃ f, Taken g M argv f { N with ram := t } ∧ ArgsOk f t argv :=
    ⟨f, ht.touched hc.touched, argsOk_touched ha hc.touched⟩
  exact wp_ite (fun _ => hdone) fun _ => hdone

/-- What the loop over the arguments gives. -/
def Fetched (g : View) (M : Mach) (res : Bool × List Nat) (N : Mach) : Prop :=
  ∃ h, Taken g M res.2 h N ∧ (res.1 = true → ArgsOk h N.ram res.2 ∧ res.2.length < maxArg)

theorem fetchArgs_spec (ht : Taken g M argv h N) (ha : ArgsOk h N.ram argv) (hn : argv.length + n = maxArg) :
    wp (fetchArgs uargv n argv) (Fetched g M) E N := by
  induction n generalizing argv h N with
  | zero => exact ⟨h, ht, fun h₁ => by cases h₁⟩
  | succ n ih =>
      rw [fetchArgs, wp_bind]
      refine wp_post (fetchaddr_spec ht ha) ?_
      rintro res P ⟨f, hf, haf⟩
      cases res with
      | none => exact ⟨f, hf, fun h₁ => by cases h₁⟩
      | some uarg =>
          refine wp_ite (fun _ => ⟨f, hf, fun _ => ⟨haf, ?_⟩⟩) fun _ => ?_
          · show argv.length < maxArg
            omega
          rw [wp_bind, wp_onRam]
          refine wp_kalloc hf.mem.inv (fun _ => ?_) fun p t hal => ?_
          · -- no page: those taken before are given back by the caller
            have hc : Touched userPages P.proc.pagetable (npages P.proc.sz) f P.ram f P.ram.outOfMemory :=
              .of_same (.outOfMemory hf.mem.inv _) _
            exact ⟨f, hf.touched hc, fun h₁ => by cases h₁⟩
          · simp only [wp_bind, wp_get, wp_onRam]
            refine wp_mono (copyinstr_spec (E := fun _ _ => False) _ _ _) ?_ fun _ _ => False.elim
            rintro ⟨found, bytes⟩ u hfetch
            obtain rfl : u = t := hfetch.state
            simp only [wp_modify]
            cases found with
            | false => exact ⟨_, hf.snoc hal bytes, fun h₁ => by cases h₁⟩
            | true =>
                obtain ⟨str, hb, h₀⟩ := hfetch.string rfl
                refine ih (hf.snoc hal bytes) (argsOk_snoc haf hal hb h₀ hfetch.length) ?_
                rw [List.length_append, List.length_singleton]
                omega

/-! ## Giving them back -/

/-- The pages in `argv` have gone back to the allocator. -/
structure GivenBack (h : View) (M : Mach) (argv : List Nat) (f : View) (N : Mach) : Prop where
  inv : Vm.Inv userPages f N.ram
  kern : f.kern = h.kern \ { a | a ∈ argv }
  leak : f.leak = h.leak
  free : N.ram.freelist = argv.reverse ++ M.ram.freelist

theorem freeArgs_spec (hI : Vm.Inv userPages h N.ram) (hk : ∀ a ∈ argv, h.role a = .kern) (hnd : argv.Nodup) :
    wp (freeArgs argv) (fun _ P => ∃ f, GivenBack h N argv f P) E N := by
  induction argv generalizing h N with
  | nil => exact ⟨h, hI, by simp, rfl, rfl⟩
  | cons p rest ih =>
      have hnd' := List.nodup_cons.1 hnd
      rw [freeArgs, wp_bind, wp_onRam]
      refine wp_kfree_kern hI (hk p List.mem_cons_self) fun t hI' hf hmem href hfree => ?_
      have hne : ∀ a ∈ rest, a ≠ p := fun a ha he => hnd'.1 (he ▸ ha)
      refine wp_post (ih (N := { N with ram := t }) hI' (fun a ha => ?_) hnd'.2) ?_
      · rw [setRole_role_of_ne (hne a ha)]
        exact hk a (List.mem_cons_of_mem _ ha)
      · rintro _ P ⟨f, hg⟩
        refine ⟨f, hg.inv, ?_, hg.leak, ?_⟩
        · rw [hg.kern]
          ext q
          show (h.setRole p .free).role q = .kern ∧ q ∉ rest ↔ h.role q = .kern ∧ q ∉ p :: rest
          by_cases hq : q = p
          · subst hq
            rw [setRole_role_self]
            simp
          · rw [setRole_role_of_ne hq, List.mem_cons, or_iff_right hq]
        · rw [hg.free, List.reverse_cons, List.append_assoc, List.singleton_append]
          exact congrArg _ hfree

theorem Taken.freed (ht : Taken g M argv h N) (hI : Vm.Inv userPages f P.ram) (hk : f.kern = h.kern) (hl : f.leak = h.leak) :
    wp (freeArgs argv) (fun _ R => ArgsFreed g argv R) E P := by
  refine wp_post (freeArgs_spec hI (fun a ha => ?_) ht.nodup) ?_
  · have h₁ : a ∈ f.kern := by
      rw [hk]
      exact ht.role ha
    exact h₁
  · rintro _ R ⟨f', hg⟩
    refine ⟨ht.nodup, ht.fresh, ⟨_, hg.free⟩, hg.inv.tree.nodup, f', hg.inv, ?_, ?_⟩
    · rw [hg.kern, hk, ht.kern]
      ext q
      constructor
      · rintro ⟨h₁ | h₁, h₂⟩
        · exact h₁
        · exact absurd h₁ h₂
      · intro h₁
        exact ⟨.inl h₁, fun h₂ => ht.fresh q h₂ h₁⟩
    · rw [hg.leak, hl, ht.leak]

theorem Outcome.inv {path : List Byte} {want : Option Plan} {argc : Nat} {res : Int} (ho : Outcome g path argc want M res N) :
    ∃ h, Vm.Inv userPages h N.ram ∧ h.kern = g.kern ∧ h.leak = g.leak := by
  obtain ⟨-, ⟨-, hun, -⟩ | ⟨P, -, -, hrep⟩⟩ := ho
  · obtain ⟨h, hs⟩ := hun.ram
    exact ⟨h, hs.inv, hs.kern, hs.leak⟩
  · obtain ⟨h, hs⟩ := hrep.memory
    exact ⟨h, hs.inv, hs.kern, hs.leak⟩

theorem fsOk_of_rest (hfs : FsOk T j M) (hr : Rest M N) : FsOk T j N := by
  obtain ⟨h₁, h₂, h₃, h₄, h₅, h₆⟩ := hfs
  rw [← hr.fs] at h₁ h₂ h₃
  refine ⟨h₁, h₂, h₃, ?_, h₅, h₆⟩
  rw [hr.fs, hr.proc]
  exact h₄

theorem argPages_none {bytes : List Byte} {N : Mach}
    (h : onRam (copyinstr M.proc.pagetable (load 8 (M.ram.mem M.proc.trapframe) tfA0) maxPath) M = .ok (false, bytes) N) :
    argPages M = [] := by
  simp only [argPages, h]

theorem argPages_some {bytes : List Byte} {b : Bool}
    (h : onRam (copyinstr M.proc.pagetable (load 8 (M.ram.mem M.proc.trapframe) tfA0) maxPath) M = .ok (true, bytes) N)
    (h' : fetchArgs (load 8 (M.ram.mem M.proc.trapframe) tfA1) maxArg [] N = .ok (b, argv) P) : argPages M = argv := by
  simp only [argPages, h, h']

/-- The one way in which `sys_exec` stops is that of `kexec`. -/
theorem sysExec_spec (hok : MemOk g M) (hfs : FsOk T j M) :
    wp sysExec (fun _ N => ArgsFreed g (argPages M) N) (fun x N => ∃ path M', M'.fs = M.fs ∧ NoInode M' path x N) M := by
  unfold sysExec
  rw [wp_bind, wp_get, wp_bind]
  have hstr : wp (onRam (copyinstr M.proc.pagetable (load 8 (M.ram.mem M.proc.trapframe) tfA0) maxPath)) (fun _ N => N = M)
      (fun x N => ∃ path M', M'.fs = M.fs ∧ NoInode M' path x N) M := by
    rw [wp_onRam]
    refine wp_mono (copyinstr_spec (E := fun _ _ => False) _ _ _) ?_ fun _ _ => False.elim
    intro res t hf
    rw [hf.state]
  refine wp_post (wp_self hstr) ?_
  rintro ⟨found, path⟩ N ⟨rfl, hfound⟩
  cases found with
  | false =>
      rw [argPages_none hfound]
      exact ⟨List.nodup_nil, fun a ha => absurd ha List.not_mem_nil, ⟨_, rfl⟩, hok.inv.tree.nodup, g, hok.inv, rfl, rfl⟩
  | true =>
      simp only [Bool.not_true, Bool.false_eq_true, if_false]
      rw [wp_bind]
      refine wp_post (wp_self (fetchArgs_spec (.refl hok) ⟨fun a ha => absurd ha List.not_mem_nil,
        fun a ha => absurd ha List.not_mem_nil⟩ (Nat.zero_add _))) ?_
      rintro ⟨done, argv⟩ P ⟨⟨h, ht, hargs⟩, hfetch⟩
      rw [argPages_some hfound hfetch]
      cases done with
      | false =>
          simp only [Bool.not_false, if_true]
          rw [wp_bind]
          exact wp_post (ht.freed ht.mem.inv rfl rfl) fun _ R hR => hR
      | true =>
          simp only [Bool.not_true, Bool.false_eq_true, if_false]
          obtain ⟨ha, hlt⟩ := hargs rfl
          rw [wp_bind]
          refine wp_mono (kexec_spec ht.mem (fsOk_of_rest hfs ht.rest) ha hlt path.dropLast) ?_ ?_
          · intro res R ho
            obtain ⟨f, hI, hk, hl⟩ := ho.inv
            rw [wp_bind]
            exact wp_post (ht.freed hI hk hl) fun _ R hR => hR
          · exact fun x R hx => ⟨_, _, ht.rest.fs, hx⟩

end Xv6.Exec
