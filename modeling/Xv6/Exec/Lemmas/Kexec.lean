import Xv6.Exec.Lemmas.Args
import Xv6.Fs.Lemmas.Path

/-!
# `kexec`

The call has three parts: the file is found and its segments are loaded with the inode held, the
stack is set up, and the process is switched to the new page table. A failure in the first two gives
the new page table back.
-/

namespace Xv6.Exec

open Lib Fs Vm Function

variable {E : Stop → Mach → Prop} {M N : Mach} {f g h : View} {s t u : Ram} {r r₀ n e i j p sp : Nat} {m : Image}
  {argv : List Nat} {path : List Byte} {T : Nat → Prop} {b : Bytes}

/-! ## Switching to the new page table -/

/-- A page that the kernel holds is written. -/
def setPage (s : Ram) (p : Nat) (b : Bytes) : Ram := { s with mem := update s.mem p b }

theorem setPage_mem_self (s : Ram) (p : Nat) (b : Bytes) : (setPage s p b).mem p = b := update_self ..

theorem setPage_mem_of_ne {q : Nat} (hne : q ≠ p) (b : Bytes) : (setPage s p b).mem q = s.mem q :=
  update_of_ne hne _ _

theorem setPage_setPage (s : Ram) (p : Nat) (b b' : Bytes) : setPage (setPage s p b) p b' = setPage s p b' := by
  unfold setPage
  rw [update_idem]

theorem shows_setPage (hs : Shows h t r m) (hI : Vm.Inv userPages h t) (hn : m.npages ≤ userPages) (hp : h.role p = .kern)
    (b : Bytes) : Shows h (setPage t p b) r m := by
  refine ⟨hs.leaf, hs.perm, hs.within, hs.top, fun a ha => ?_⟩
  have hv : a / pgSize < m.npages := (Nat.div_lt_iff_lt_mul (by decide)).2 ha
  have hu := hI.count.user r _ (by omega) (hs.mapped hv)
  rw [setPage_mem_of_ne (ne_of_role hu hp (by simp))]
  exact hs.byte a ha

theorem shows_erased (hs : Shows h t r m) (hr : Erased userPages r₀ h t f u) (hn : m.npages ≤ userPages) (hne : r ≠ r₀) :
    Shows f u r m := by
  have hleaf : ∀ v, f.leaf r v = h.leaf r v := fun v => hr.frame.leaf r v hne
  refine ⟨fun v hv => ?_, hs.perm, fun v h₁ h₂ h₃ => ?_, fun v hv => ?_, fun a ha => ?_⟩
  · rw [hleaf]
    exact hs.leaf v hv
  · rw [hleaf]
    exact hs.within v h₁ h₂ h₃
  · rw [hleaf]
    exact hs.top v hv
  · have hv : a / pgSize < m.npages := (Nat.div_lt_iff_lt_mul (by decide)).2 ha
    rw [hr.frame.page hne, hr.frame.mem r _ hne (by omega) (hs.mapped hv)]
    exact hs.byte a ha

theorem wp_setTrapframe {Q : Unit → Mach → Prop} (off x : Nat) :
    wp (setTrapframe off x) Q E M ↔
      Q () { M with ram := setPage M.ram M.proc.trapframe (store 8 (M.ram.mem M.proc.trapframe) off x) } := Iff.rfl

theorem commit_spec {argc entry sz sp : Nat} (ptrs : List Nat) (hok : MemOk g M) (hproc : N.proc = M.proc)
    (hp : Planted userPages g M.ram r h N.ram) (hs : Shows h N.ram r m) (hn : m.npages ≤ userPages) :
    wp (commit path argc entry r sz sp) (fun res P => res = argc ∧ P.fs = N.fs ∧ P.outstanding = N.outstanding ∧
      Replaced g path ⟨entry, sz, sp, ptrs, m⟩ M P) E N := by
  obtain ⟨fs, t, pr, o⟩ := N
  obtain rfl : pr = M.proc := hproc
  -- the old page table is not the new one, and has the entries it had
  have hne : M.proc.pagetable ≠ r := fun he => by
    have h₁ := hok.root
    rw [he, hp.free] at h₁
    cases h₁
  have hroot : h.role M.proc.pagetable = .table M.proc.pagetable 2 0 :=
    (hp.apart.table _ _ _ _ hne).2 hok.root
  have hwithin : h.Within M.proc.pagetable (npages M.proc.sz) := fun v h₁ h₂ h₃ => by
    rw [hp.frame.leaf _ v hne]
    exact hok.within v h₁ h₂ h₃
  obtain ⟨htf, hbytes⟩ := hp.apart.kern _ hok.trapframe
  have hI := hp.inv.setMem (.inl htf) (startFrame (M.ram.mem M.proc.trapframe) entry sp)
  have hshows := shows_setPage hs hp.inv hn htf (startFrame (M.ram.mem M.proc.trapframe) entry sp)
  unfold commit
  simp only [wp_bind, wp_setTrapframe, wp_get, wp_modify, setPage_mem_self, setPage_setPage, wp_onRam]
  rw [show t.mem M.proc.trapframe = M.ram.mem M.proc.trapframe from hbytes]
  refine wp_post (procFreepagetable_spec hI hroot hwithin hok.size (Nat.le_refl _)) ?_
  rintro _ u ⟨f, hr⟩
  have hkern : ∀ p, g.role p = .kern →
      u.mem p = (setPage t M.proc.trapframe (startFrame (M.ram.mem M.proc.trapframe) entry sp)).mem p := fun p hpk =>
    (hr.apart.kern p (hp.apart.kern p hpk).1).2
  refine ⟨rfl, rfl, rfl, ⟨r, rfl⟩, ?_, f, ?_⟩
  · exact (hkern _ hok.trapframe).trans (setPage_mem_self _ _ _)
  · refine ⟨hn, hr.inv, hr.apart.live (hp.apart.live hok.live), ?_, hp.free, shows_erased hshows hr hn (Ne.symm hne), hr.table,
      ?_, hr.kern.trans hp.kern, fun p hpk hpne => ?_, hr.leak.trans hp.leak, ?_⟩
    · exact (hr.apart.table _ _ _ _ (Ne.symm hne)).2 hp.root
    · rw [hr.roots, hp.roots]
    · rw [hkern p hpk, setPage_mem_of_ne hpne]
      exact (hp.apart.kern p hpk).2
    · have hset : Frame userPages none₂ h t h (setPage t M.proc.trapframe (startFrame (M.ram.mem M.proc.trapframe) entry sp)) :=
        .of_user hp.inv.count rfl (fun p hpu => setPage_mem_of_ne (ne_of_role hpu htf (by simp)) _) id rfl rfl
      exact ((hp.frame.mono fun _ _ hx => .inr hx).trans_none hset).trans (hr.frame.mono fun _ _ hx => .inl hx)

/-! ## The stack -/

theorem procFreepagetable_unchanged {Q : Unit → Mach → Prop} {sz : Nat} (hok : MemOk g M) (hproc : N.proc = M.proc)
    (hp : Planted userPages g M.ram r h N.ram) (hw : h.Within r (npages sz)) (hsz : npages sz ≤ userPages)
    (hQ : ∀ P, Rest N P → Unchanged g M P → Q () P) : wp (onRam (procFreepagetable r sz)) Q E N := by
  rw [wp_onRam]
  refine wp_post (procFreepagetable_undo hp hok.inv hw hsz) ?_
  exact fun _ t hs => hQ _ (.ram N t) ⟨hproc, hs⟩

theorem onStack_withStack {x : Prog} (hx : x.image.npages = npages x.sz) : OnStack x.withStack.image (npages x.sz + 1) := by
  have hflags : x.withStack.image.flags (npages x.sz + 1) = allocPerm pteW := by
    show update _ _ _ _ = _
    rw [update_of_ne (Nat.succ_ne_self _), Image.grow_flags, if_neg (by omega)]
  refine ⟨Nat.succ_pos _, ?_, ?_, ?_, ?_⟩
  · show _ < max _ _
    omega
  all_goals
    rw [hflags]
    decide

theorem start_eq (x : Prog) (entry : Nat) (strs : List (List Byte)) :
    x.start entry strs = (placeArgs ((npages x.sz + 1) * pgSize) ((npages x.sz + 1 + 1) * pgSize) strs x.withStack.image).map
      fun y => ⟨entry, (npages x.sz + 2) * pgSize, y.2.1, y.1, y.2.2⟩ := by
  have hsz : x.withStack.sz = (npages x.sz + 2) * pgSize := rfl
  have hbase : (npages x.sz + 2) * pgSize - pgSize = (npages x.sz + 1) * pgSize := by
    rw [Nat.add_mul, Nat.add_mul]
    omega
  unfold Prog.start
  simp only [hsz, hbase]

/-- What the second half of `kexec` leaves, where `M` is the machine before the call and `N` the one
after the first half. -/
def Finished (g : View) (path : List Byte) (argc sz : Nat) (want : Option Plan) (M N : Mach) (res : Int) (P : Mach) : Prop :=
  P.fs = N.fs ∧ P.outstanding = N.outstanding ∧
  ((res = -1 ∧ Unchanged g M P ∧ (want ≠ none → M.ram.freelist.length ≤ 5 + 3 * sz)) ∨
    ∃ p, want = some p ∧ res = argc ∧ Replaced g path p M P)

theorem finish_spec {x : Prog} {entry : Nat} (hok : MemOk g M) (hproc : N.proc = M.proc) (hs : Stage g M.ram r x h N.ram)
    (ha : ArgsOk g M.ram argv) (hargc : argv.length < maxArg) :
    wp (finish path argv entry r x.sz)
      (Finished g path argv.length (npages x.sz + 2) (x.start entry (strings M.ram argv)) M N) E N := by
  have hI := hok.inv
  have hlt := hs.npages_le hI
  have hmax : x.sz ≤ maxVa := by
    have h₁ := npages_le_iff.1 hlt
    rw [maxVa_eq, Nat.add_mul]
    omega
  have hnew : (npages x.sz * pgSize + (userStack + 1) * pgSize) % 2 ^ 64 = (npages x.sz + 2) * pgSize := by
    have hstack : userStack + 1 = 2 := rfl
    rw [hstack, ← Nat.add_mul, Nat.mod_eq_of_lt]
    rw [userPages_eq] at hlt
    unfold pgSize
    omega
  have hnp : npages (npages x.sz * pgSize) = npages x.sz := npages_mul _
  have hnp' : npages ((npages x.sz + 2) * pgSize) = npages x.sz + 2 := npages_mul _
  unfold finish
  simp only [pgRoundUp_eq hmax]
  rw [hnew, wp_bind, wp_onRam]
  refine wp_post (uvmalloc_building hs.building hI (by rw [hnp, hs.npages]) (by decide)) ?_
  rintro sz1 t (⟨hsz, -, -⟩ | ⟨-, hsz, f, hb⟩ | ⟨-, rfl, hshort, f, hp, hw⟩)
  · exact absurd hsz (Nat.not_lt.2 (Nat.mul_le_mul_right _ (by omega)))
  · rw [hsz]
    rw [hnp'] at hb
    have hpos : ¬ (npages x.sz + 2) * pgSize = 0 := by
      unfold pgSize
      omega
    have hguard : (npages x.sz + 2) * pgSize - (userStack + 1) * pgSize = npages x.sz * pgSize := by
      rw [← Nat.sub_mul]
      rfl
    have hbase : (npages x.sz + 2) * pgSize - userStack * pgSize = (npages x.sz + 1) * pgSize := by
      rw [← Nat.sub_mul]
      rfl
    rw [if_neg hpos, hguard, hbase, wp_bind, wp_onRam]
    refine uvmclear_building hb hI (by rw [Image.grow_npages]; omega) fun f' t' hb' => ?_
    have ho := onStack_withStack hs.npages
    have hsize : x.withStack.image.npages = npages x.sz + 2 := by
      show max _ _ = _
      rw [hs.npages]
      omega
    rw [wp_bind]
    refine wp_post (pushArgs_spec hI (m := x.withStack.image) (M := { N with ram := t' }) hb' ho ha hargc) ?_
    intro res P hres
    obtain ⟨hr, hres⟩ := hres
    rw [start_eq]
    have hrest := (Rest.ram N t').trans hr
    cases hplace : placeArgs ((npages x.sz + 1) * pgSize) ((npages x.sz + 1 + 1) * pgSize) (strings M.ram argv) x.withStack.image with
    | none =>
        rw [hplace] at hres
        obtain ⟨rfl, h', m', hb'', hm'⟩ := hres
        have hw : h'.Within r (npages ((npages x.sz + 2) * pgSize)) := by
          rw [hnp', ← hsize, ← hm']
          exact hb''.within
        have hroom : npages ((npages x.sz + 2) * pgSize) ≤ userPages := by
          have h₁ := hb''.npages_lt hI
          rw [hnp', ← hsize, ← hm']
          omega
        simp only [wp_bind]
        refine procFreepagetable_unchanged hok (hrest.proc.trans hproc) hb''.toPlanted hw hroom fun P' hr' hun => ?_
        have hlast := hrest.trans hr'
        exact ⟨hlast.fs, hlast.outstanding, .inl ⟨rfl, hun, fun h₁ => absurd rfl h₁⟩⟩
    | some y =>
        obtain ⟨ptrs, sp, m'⟩ := y
        rw [hplace] at hres
        obtain ⟨rfl, h', hb''⟩ := hres
        refine wp_post (commit_spec ptrs hok (hrest.proc.trans hproc) hb''.toPlanted hb''.toShows ?_) ?_
        · have h₁ := hb''.npages_lt hI
          omega
        · rintro res P' ⟨rfl, hfs, hout, hrep⟩
          exact ⟨hfs.trans hrest.fs, hout.trans hrest.outstanding, .inr ⟨_, rfl, rfl, hrep⟩⟩
  · rw [if_pos rfl, wp_bind]
    refine procFreepagetable_unchanged (N := { N with ram := t }) hok hproc hp hw (by rw [hnp]; exact hlt) fun P hr hun => ?_
    rw [hnp'] at hshort
    exact ⟨hr.fs, hr.outstanding, .inl ⟨rfl, hun, fun _ => hshort⟩⟩

/-! ## The file -/

theorem FsOk.began (h : FsOk T j M) :
    Fs.Ok (began M.fs) ∧ (Exec.began M.fs).file = M.fs.file ∧ Fs.Tree (Exec.began M.fs) T := by
  obtain ⟨hok, hfile⟩ := h.ok.of_eq (t := Exec.began M.fs) rfl rfl rfl
  refine ⟨hok, hfile, fun i hi => ?_, fun i f hi hf => ?_, ?_⟩
  · rw [hfile]
    exact h.tree.file i hi
  · rw [hfile] at hf
    exact h.tree.dir i f hi hf
  · rw [hfile]
    exact h.tree.closed

/-- The transaction ends with no lock held and no reference taken. -/
theorem rested_of_path (hfs : FsOk T j M) (h : OnPath (began M.fs) [] none N.fs) (ho : N.outstanding = M.outstanding + 1) :
    Rested M { N with fs := { N.fs with trans := false }, outstanding := N.outstanding - 1 } := by
  obtain ⟨hok, hfile⟩ := h.ok.of_eq (t := { N.fs with trans := false }) rfl rfl rfl
  refine ⟨hok, h.locked, ?_, ?_, fun e i he => ?_, rfl, ?_⟩
  · exact (hfile.trans h.file).trans hfs.began.2.1
  · exact funext fun i => h.frame.refs i
  · have he' : (began M.fs).At e i := (at_iff (s := M.fs) (t := began M.fs) rfl).2 he
    exact (at_iff (s := N.fs) (t := { N.fs with trans := false }) rfl).2 (h.frame.entry e i he').1
  · show N.outstanding - 1 = M.outstanding
    omega

theorem Rested.of_eq {P : Mach} (h : Rested M N) (hfs : P.fs = N.fs) (ho : P.outstanding = N.outstanding) : Rested M P := by
  obtain ⟨h₁, h₂, h₃, h₄, h₅, h₆, h₇⟩ := h
  rw [← hfs] at h₁ h₂ h₃ h₄ h₅ h₆
  exact ⟨h₁, h₂, h₃, h₄, h₅, h₆, ho.trans h₇⟩

theorem wp_endOp {Q : Unit → Mach → Prop} :
    wp endOp Q E M ↔ Q () { M with fs := { M.fs with trans := false }, outstanding := M.outstanding - 1 } := Iff.rfl

theorem wp_beginOp {Q : Unit → Mach → Prop} :
    wp beginOp Q E M ↔ Q () { M with fs := began M.fs, outstanding := M.outstanding + 1 } := Iff.rfl

theorem wp_release {Q : Unit → Mach → Prop} (hfs : FsOk T j M) (h : OnPath (began M.fs) [i] (some e) N.fs)
    (hent : N.fs.At e i) (hi : T i) (ho : N.outstanding = M.outstanding + 1)
    (hQ : ∀ P, Rested M P → P.ram = N.ram → P.proc = N.proc → Q () P) :
    wp (onFs (iunlockput e)) (fun _ P => wp endOp Q E P) E N := by
  obtain ⟨hok, -, htree⟩ := hfs.began
  rw [wp_onFs]
  refine wp_post (h.unlockDrop hok htree hent hi (List.mem_singleton.2 rfl)) ?_
  rintro _ t ⟨ht, -⟩
  rw [List.erase_cons_head] at ht
  rw [wp_endOp]
  exact hQ _ (rested_of_path (N := { N with fs := t }) hfs ht ho) rfl rfl

theorem badLocked_spec {Q : Int → Mach → Prop} (hfs : FsOk T j M) (h : OnPath (began M.fs) [i] (some e) N.fs)
    (hent : N.fs.At e i) (hi : T i) (ho : N.outstanding = M.outstanding + 1) (hun : Unchanged g M N)
    (hQ : ∀ P, Rested M P → Unchanged g M P → Q (-1) P) : wp (badLocked e) Q E N := by
  simp only [badLocked, wp_bind]
  refine wp_release hfs h hent hi ho fun P hr hram hproc => hQ P hr ⟨hproc.trans hun.proc, ?_⟩
  rw [hram]
  exact hun.ram

theorem holds_of_entry {fs : Fs} {v : FileView} (h : Fs.Ok fs) (he : Entry fs e i v) : Holds fs e v :=
  ⟨he.noHole h, he.fileOf h.table⟩

theorem plan_short {v : FileView} {strs : List (List Byte)} (h : ¬ elfHdrSize ≤ v.size) : plan v strs = none :=
  if_pos (Nat.not_le.1 h)

theorem plan_magic {v : FileView} {strs : List (List Byte)} (h : (ElfHdr.read v.byte).magic ≠ elfMagic) : plan v strs = none := by
  unfold plan
  split
  · rfl
  · exact if_pos h

theorem plan_eq {v : FileView} {strs : List (List Byte)} (h : elfHdrSize ≤ v.size) (h' : ¬ (ElfHdr.read v.byte).magic ≠ elfMagic) :
    plan v strs = (Prog.loadAll v (ElfHdr.read v.byte).phnum ((ElfHdr.read v.byte).phoff % 2 ^ 32) ⟨0, .empty⟩).bind
      fun m => m.start (ElfHdr.read v.byte).entry strs := by
  unfold plan
  rw [if_neg (Nat.not_lt.2 h)]
  exact if_neg h'

theorem start_sz {x : Prog} {entry : Nat} {strs : List (List Byte)} {P : Plan} (h : x.start entry strs = some P) :
    npages P.sz = npages x.sz + 2 := by
  rw [start_eq] at h
  obtain ⟨y, -, rfl⟩ := Option.map_eq_some_iff.1 h
  exact npages_mul _

/-- The inode of the program is held. -/
structure Held (T : Nat → Prop) (M : Mach) (e i : Nat) (v : FileView) (N : Mach) : Prop where
  path : OnPath (began M.fs) [i] (some e) N.fs
  entry : Entry N.fs e i v
  mem : T i
  outstanding : N.outstanding = M.outstanding + 1
  proc : N.proc = M.proc

theorem Held.rest {v : FileView} {P : Mach} (h : Held T M e i v N) (hr : Rest N P) : Held T M e i v P :=
  ⟨hr.fs ▸ h.path, hr.fs ▸ h.entry, h.mem, hr.outstanding.trans h.outstanding, hr.proc.trans h.proc⟩

theorem Held.bad {v : FileView} {Q : Int → Mach → Prop} (h : Held T M e i v N) (hfs : FsOk T j M)
    (hram : ∃ f, Vm.Same userPages ∅ g M.ram f N.ram) (hQ : ∀ P, Rested M P → Unchanged g M P → Q (-1) P) :
    wp (badLocked e) Q E N :=
  badLocked_spec hfs h.path h.entry.at_ h.mem h.outstanding ⟨h.proc, hram⟩ hQ

theorem execHeld_spec {v : FileView} (hok : MemOk g M) (hfs : FsOk T j M) (ha : ArgsOk g M.ram argv) (hargc : argv.length < maxArg)
    (hheld : Held T M e i v N) (hram : N.ram = M.ram) :
    wp (execHeld path argv e) (Outcome g path argv.length (plan v (strings M.ram argv)) M) E N := by
  have hholds := holds_of_entry hheld.path.ok hheld.entry
  have hI := hok.inv
  have hbad : plan v (strings M.ram argv) = none →
      wp (badLocked e) (Outcome g path argv.length (plan v (strings M.ram argv)) M) E N := by
    intro hnone
    refine hheld.bad hfs ⟨g, by rw [hram]; exact .refl hI _ _⟩ fun P hr hun => ⟨hr, .inl ⟨rfl, hun, fun Q hQ => ?_⟩⟩
    rw [hnone] at hQ
    cases hQ
  unfold execHeld
  rw [wp_bind, wp_get, wp_bind]
  refine wp_readiKernel hholds (by decide) (by decide) fun tot b _ hiff hbytes => ?_
  rw [Nat.zero_add] at hiff
  simp only []
  by_cases hne : tot ≠ elfHdrSize
  · rw [if_pos hne]
    exact hbad (plan_short fun h₁ => hne (hiff.2 h₁))
  · obtain rfl : tot = elfHdrSize := not_not.1 hne
    have hread : ElfHdr.read b = ElfHdr.read v.byte := ElfHdr.read_congr fun i hi => by
      rw [hbytes i hi, Nat.zero_add]
    rw [if_neg hne, hread]
    by_cases hmagic : (ElfHdr.read v.byte).magic ≠ elfMagic
    · rw [if_pos hmagic]
      exact hbad (plan_magic hmagic)
    · rw [if_neg hmagic, plan_eq (hiff.1 rfl) hmagic, wp_bind, wp_onRam, hram]
      refine wp_post (procPagetable_spec hI (Nat.le_refl _)) ?_
      rintro _ t (⟨rfl, hshort, hsame⟩ | ⟨r, h, rfl, hnew⟩)
      · refine (hheld.rest (.ram N t)).bad hfs hsame fun P hr hun => ⟨hr, .inl ⟨rfl, hun, fun Q hQ => ?_⟩⟩
        exact Nat.le_trans hshort (Nat.le_add_right _ _)
      · have hstage : Stage g M.ram r ⟨0, .empty⟩ h t := ⟨hnew.building, rfl, fun v hv => absurd hv (Nat.not_lt_zero v)⟩
        simp only [wp_bind]
        refine wp_post (loadSegments_spec (M := { N with ram := t }) hI hholds hstage (Nat.mod_lt _ (by decide))) ?_
        rintro ⟨done, sz⟩ P ⟨hr, ⟨x, h', hres, hload, hs⟩ | ⟨hdone, hshort, hsz, h', hp, hw⟩⟩
        · obtain ⟨rfl, rfl⟩ := Prod.mk.inj hres
          have hheld' := hheld.rest ((Rest.ram N t).trans hr)
          rw [hload, Option.bind_some]
          simp only [Bool.not_true, Bool.false_eq_true, if_false, wp_bind]
          refine wp_release hfs hheld'.path hheld'.entry.at_ hheld'.mem hheld'.outstanding fun P' hr' hram' hproc' => ?_
          rw [← hram'] at hs
          refine wp_post (finish_spec hok (hproc'.trans hheld'.proc) hs ha hargc) ?_
          rintro res Q ⟨hfs', hout', hfin⟩
          refine ⟨hr'.of_eq hfs' hout', hfin.imp ?_ id⟩
          rintro ⟨hres, hun, hfew⟩
          refine ⟨hres, hun, fun p hp => ?_⟩
          rw [start_sz hp]
          exact hfew (by rw [hp]; simp)
        · have hheld' := hheld.rest ((Rest.ram N t).trans hr)
          obtain rfl : done = false := hdone
          simp only [Bool.not_false, if_true, wp_bind]
          refine procFreepagetable_unchanged hok hheld'.proc hp hw hsz fun P' hr' hun => ?_
          refine (hheld'.rest hr').bad hfs hun.ram fun Q hrq hunq => ⟨hrq, .inl ⟨rfl, hunq, fun p hp => ?_⟩⟩
          obtain ⟨x, hx, hstart⟩ := Option.bind_eq_some_iff.1 hp
          have h₁ := hshort x hx
          rw [start_sz hstart]
          omega

theorem kexec_spec (hok : MemOk g M) (hfs : FsOk T j M) (ha : ArgsOk g M.ram argv) (hargc : argv.length < maxArg)
    (path : List Byte) :
    wp (kexec path argv)
      (Outcome g path argv.length ((program M j path).bind fun v => plan v (strings M.ram argv)) M) (NoInode M path) M := by
  obtain ⟨hok₀, hfile, htree⟩ := hfs.began
  have hcwd : (began M.fs).At M.proc.cwd j := (at_iff (s := M.fs) (t := began M.fs) rfl).2 hfs.cwd
  unfold kexec program
  rw [wp_bind, wp_get, wp_bind, wp_beginOp, wp_bind, wp_onFs, ← hfile]
  refine namei_ends hok₀ htree hfs.unlocked hcwd hfs.mem hfs.root (fun x t h₁ h₂ => ⟨h₁.stop, h₂, fun _ _ => h₁.few hok₀⟩) ?_ ?_
  · intro t hres ht
    rw [hres]
    simp only [wp_bind, wp_endOp, wp_pure]
    refine ⟨rested_of_path (N := ⟨t, M.ram, M.proc, M.outstanding + 1⟩) hfs ht rfl, .inl ⟨rfl, ⟨rfl, g, .refl hok.inv _ _⟩, ?_⟩⟩
    intro P hP
    cases hP
  · intro e i t hres hi he ht
    obtain ⟨v, hv, -⟩ := htree.file i hi
    rw [hres, Option.bind_some, hv, Option.bind_some]
    simp only [wp_bind, wp_onFs]
    refine wp_post (ht.lock he hv) ?_
    rintro _ t' ⟨hp, hent⟩
    exact execHeld_spec hok hfs ha hargc ⟨hp, hent, hi, rfl, rfl⟩ rfl

end Xv6.Exec
