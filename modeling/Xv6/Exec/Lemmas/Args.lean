import Xv6.Exec.Lemmas.Load
import Xv6.Exec.Lemmas.Stack
import Xv6.Exec.System

/-!
# The arguments on the stack

The strings and the array of pointers go to one page, the stack. The copies cannot fail there, so the
arguments are in place unless they do not fit.
-/

namespace Xv6.Exec

open Lib Fs Vm Function

variable {E : Stop → Mach → Prop} {M N : Mach} {g h : View} {s : Ram} {r n sp k argc : Nat} {m : Image} {ustack : Nat → Nat}

/-! ## Copies to the stack -/

/-- The page `n` is the stack. -/
structure OnStack (m : Image) (n : Nat) : Prop where
  pos : 0 < n
  writable : m.Writable n

theorem OnStack.write (ho : OnStack m n) (a : Nat) (src : Bytes) (len : Nat) : OnStack (m.write a src len) n :=
  ⟨ho.pos, ho.writable.lt, ho.writable.user, ho.writable.write, ho.writable.cow⟩

theorem copyout_stack {Q : Int → Mach → Prop} {p : Vm.Proc} {src : List Byte} (hI : Inv userPages g s)
    (hb : Building g s r m h M.ram) (ho : OnStack m n) (hlo : n * pgSize ≤ sp) (hhi : sp + src.length ≤ (n + 1) * pgSize)
    (hQ : ∀ h' t, Building g s r (m.write sp (fun i => src.getD i 0) src.length) h' t → Q 0 { M with ram := t }) :
    wp (onRam (copyout p r sp src)) Q E M := by
  rw [wp_onRam]
  refine wp_post (copyout_building hb hI fun v h₁ h₂ => ?_) ?_
  · have h₃ : n ≤ sp / pgSize := (Nat.le_div_iff_mul_le (by decide)).2 hlo
    have h₄ : v < n + 1 := by
      have h₅ : v * pgSize < (n + 1) * pgSize := by omega
      exact Nat.lt_of_mul_lt_mul_right h₅
    obtain rfl : v = n := by omega
    exact ho.writable
  · rintro _ t ⟨rfl, h', hb'⟩
    exact hQ h' t hb'

/-! ## The strings -/

theorem stringAt_congr {t : Ram} {a : Nat} (h : t.mem a = s.mem a) : stringAt t a = stringAt s a := by
  unfold stringAt Ram.read
  rw [h]

theorem ArgsOk.tail {a : Nat} {argv : List Nat} (ha : ArgsOk g s (a :: argv)) : ArgsOk g s argv :=
  ⟨fun b hb => ha.kern b (List.mem_cons_of_mem _ hb), fun b hb => ha.short b (List.mem_cons_of_mem _ hb)⟩

/-- What the loop over the arguments leaves, where `want` is what it aims at. -/
def Strings (g : View) (s : Ram) (r npages argc : Nat) (ustack : Nat → Nat) (M : Mach) (want : Option (List Nat × Nat × Image))
    (res : Option (Nat × (Nat → Nat))) (N : Mach) : Prop :=
  Rest M N ∧
  match want with
  | none => res = none ∧ ∃ h m', Building g s r m' h N.ram ∧ m'.npages = npages
  | some (ptrs, sp', m') => ∃ u h, res = some (sp', u) ∧ Building g s r m' h N.ram ∧
      (∀ i, i < argc → u i = ustack i) ∧ ∀ i, i < ptrs.length → u (argc + i) = ptrs.getD i 0

theorem Strings.cons {npages : Nat} {want : Option (List Nat × Nat × Image)} {res : Option (Nat × (Nat → Nat))} {M' : Mach}
    (hrest : Rest M M')
    (h : Strings g s r npages (argc + 1) (update ustack argc sp) M' want res N) :
    Strings g s r npages argc ustack M (want.map fun x => (sp :: x.1, x.2)) res N := by
  obtain ⟨h₁, h₃⟩ := h
  refine ⟨hrest.trans h₁, ?_⟩
  cases want with
  | none => exact h₃
  | some x =>
      obtain ⟨ptrs, sp', m'⟩ := x
      obtain ⟨u, h', rfl, hb, hold, hnew⟩ := h₃
      refine ⟨u, h', rfl, hb, fun i hi => ?_, fun i hi => ?_⟩
      · rw [hold i (by omega), update_of_ne (by omega)]
      · cases i with
        | zero =>
            rw [Nat.add_zero, hold argc (Nat.lt_succ_self _), update_self]
            rfl
        | succ i =>
            have h₄ := hnew i (Nat.lt_of_succ_lt_succ hi)
            rw [Nat.add_assoc, Nat.add_comm 1 i] at h₄
            rw [h₄]
            rfl

theorem stack_lt (hI : Inv userPages g s) (hb : Building g s r m h M.ram) (ho : OnStack m n) (hhi : sp ≤ (n + 1) * pgSize) :
    sp < 2 ^ 64 := by
  have h₁ := hb.npages_lt hI
  have h₂ := ho.writable.lt
  have h₃ : (n + 1) * pgSize ≤ userPages * pgSize := Nat.mul_le_mul_right _ (by omega)
  have h₄ : userPages * pgSize < 2 ^ 64 := by decide
  omega

theorem pushStrings_spec {argv : List Nat} (hI : Inv userPages g s) (hb : Building g s r m h M.ram) (ho : OnStack m n)
    (ha : ArgsOk g s argv) (hlo : n * pgSize ≤ sp) (hhi : sp ≤ (n + 1) * pgSize) (hargc : argc + argv.length ≤ maxArg) :
    wp (pushStrings r (n * pgSize) argv argc sp ustack)
      (Strings g s r m.npages argc ustack M (placeStrings (n * pgSize) (strings s argv) sp m)) E M := by
  induction argv generalizing argc sp m M h ustack with
  | nil =>
      refine ⟨.refl M, ?_⟩
      exact ⟨ustack, h, rfl, hb, fun _ _ => rfl, fun i hi => absurd hi (Nat.not_lt_zero i)⟩
  | cons arg rest ih =>
      have hstr : stringAt M.ram arg = stringAt s arg :=
        stringAt_congr (hb.apart.kern arg (ha.kern arg List.mem_cons_self)).2
      have hlen := ha.short arg List.mem_cons_self
      have hpos : pgSize ≤ n * pgSize := Nat.le_mul_of_pos_left _ ho.pos
      have hlt := stack_lt hI hb ho hhi
      rw [List.length_cons] at hargc
      have hargs : argc < maxArg := by omega
      unfold pushStrings
      rw [if_neg (Nat.not_le.2 hargs), strings, List.map_cons, placeStrings]
      simp only [wp_bind, wp_get, hstr]
      generalize stringAt s arg = str at hlen
      obtain ⟨hdown, -⟩ := pushDown_le sp (str.length + 1) (by omega) hlt
      generalize pushDown sp (str.length + 1) = sp' at hdown
      have hl : (str ++ [0]).length = str.length + 1 := by rw [List.length_append, List.length_singleton]
      by_cases hfull : sp' < n * pgSize
      · rw [if_pos hfull, if_pos hfull]
        exact ⟨.refl M, rfl, h, m, hb, rfl⟩
      · rw [if_neg hfull, if_neg hfull, wp_bind]
        refine copyout_stack hI hb ho (Nat.not_lt.1 hfull) (by rw [hl]; omega) fun h' t hb' => ?_
        rw [if_neg (by decide), wp_bind, setUstack, if_pos hargs, wp_pure]
        rw [hl] at hb'
        refine wp_post (ih (M := ⟨M.fs, t, M.proc, M.outstanding⟩) hb' (ho.write _ _ _) ha.tail (Nat.not_lt.1 hfull) (by omega) (by omega)) ?_
        exact fun res N hres => Strings.cons (.ram M t) hres

/-! ## The array of pointers -/

theorem wordBytes_length (u : Nat → Nat) (n : Nat) : (wordBytes u n).length = n * 8 := by
  unfold wordBytes
  rw [List.length_map, List.length_range]

theorem wordBytes_getD {u : Nat → Nat} {ptrs : List Nat} {i : Nat} (hu : ∀ i, i < n → u i = ptrs.getD i 0) (hi : i < n * 8) :
    (wordBytes u n).getD i 0 = words ptrs i := by
  have hdiv : i / 8 < n := by omega
  unfold wordBytes words
  rw [List.getD_eq_getElem?_getD, List.getElem?_map, List.getElem?_range hi, ← hu _ hdiv]
  rfl

/-- The entries of `ustack`, with the zero that `kexec` puts behind them. -/
theorem update_ustack {u : Nat → Nat} {ptrs : List Nat} (hu : ∀ i, i < ptrs.length → u (0 + i) = ptrs.getD i 0) {i : Nat}
    (hi : i < ptrs.length + 1) : update u ptrs.length 0 i = ptrs.getD i 0 := by
  by_cases he : i = ptrs.length
  · rw [he, update_self, List.getD_eq_getElem?_getD, List.getElem?_eq_none (Nat.le_refl _)]
    rfl
  · rw [update_of_ne he, ← hu i (by omega), Nat.zero_add]

/-- What `pushArgs` leaves, where `want` is what it aims at. -/
def Args (g : View) (s : Ram) (r npages : Nat) (M : Mach) (want : Option (List Nat × Nat × Image)) (res : Option Nat) (N : Mach) :
    Prop :=
  Rest M N ∧
  match want with
  | none => res = none ∧ ∃ h m', Building g s r m' h N.ram ∧ m'.npages = npages
  | some (_, sp, m') => res = some sp ∧ ∃ h, Building g s r m' h N.ram

theorem pushArgs_spec {argv : List Nat} (hI : Inv userPages g s) (hb : Building g s r m h M.ram) (ho : OnStack m n)
    (ha : ArgsOk g s argv) (hargc : argv.length < maxArg) :
    wp (pushArgs r (n * pgSize) ((n + 1) * pgSize) argv)
      (Args g s r m.npages M (placeArgs (n * pgSize) ((n + 1) * pgSize) (strings s argv) m)) E M := by
  have hn : n * pgSize ≤ (n + 1) * pgSize := Nat.mul_le_mul_right _ (by omega)
  have hpos : pgSize ≤ n * pgSize := Nat.le_mul_of_pos_left _ ho.pos
  have hshort : ∀ str ∈ strings s argv, str.length < pgSize := by
    intro str hstr
    obtain ⟨a, hmem, rfl⟩ := List.mem_map.1 hstr
    exact ha.short a hmem
  have hlen : (strings s argv).length = argv.length := List.length_map _
  unfold pushArgs placeArgs
  rw [wp_bind]
  refine wp_post (pushStrings_spec hI hb ho ha hn (Nat.le_refl _) (by omega)) ?_
  intro res N hres
  obtain ⟨hr, hres⟩ := hres
  cases hplace : placeStrings (n * pgSize) (strings s argv) ((n + 1) * pgSize) m with
  | none =>
      rw [hplace] at hres
      obtain ⟨rfl, hbad⟩ := hres
      exact ⟨hr, rfl, hbad⟩
  | some x =>
      obtain ⟨ptrs, sp, m'⟩ := x
      rw [hplace] at hres
      obtain ⟨u, h', rfl, hb', -, hu⟩ := hres
      have hplaced := placeStrings_spec (m := m) hshort hpos hn (stack_lt hI hb ho (Nat.le_refl _))
      rw [hplace] at hplaced
      obtain ⟨hlo, hplaced⟩ := hplaced
      have hhi := hplaced.high
      have hptrs := hplaced.length
      have hnp := hplaced.npages
      rw [hlen] at hptrs
      have ho' : OnStack m' n := by
        obtain ⟨h₁, h₂, h₃, h₄⟩ := ho.writable
        refine ⟨ho.pos, ?_, ?_, ?_, ?_⟩
        · rwa [hnp]
        all_goals rwa [hplaced.flags]
      have hmax : maxArg = 32 := rfl
      have hpg : pgSize = 4096 := rfl
      obtain ⟨hdown, -⟩ := pushDown_le sp ((argv.length + 1) * 8) (by omega) (stack_lt hI hb' ho' hhi)
      simp only [wp_bind, setUstack, if_pos hargc, wp_pure, hlen, Option.bind_eq_bind, Option.bind_some]
      generalize pushDown sp ((argv.length + 1) * 8) = sp' at hdown
      by_cases hfull : sp' < n * pgSize
      · rw [if_pos hfull, if_pos hfull]
        exact ⟨hr, rfl, h', m', hb', hnp⟩
      · rw [if_neg hfull, if_neg hfull, wp_bind, wp_get, wp_bind]
        refine copyout_stack hI hb' ho' (Nat.not_lt.1 hfull) ?_ fun h'' t hb'' => ?_
        · rw [wordBytes_length]
          omega
        · rw [wordBytes_length, Image.write_congr fun i hi => wordBytes_getD (fun i hi => ?_) hi] at hb''
          · rw [if_neg (by decide), wp_pure]
            exact ⟨hr.trans (.ram N t), rfl, h'', hb''⟩
          · rw [← hptrs] at hi ⊢
            exact update_ustack hu hi

end Xv6.Exec
