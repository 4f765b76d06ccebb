import Xv6.Exec.Lemmas.Boot
import Xv6.Exec.Lemmas.Sys
import Xv6.Exec.Lemmas.User

/-!
# Theorems about `exec`
-/

namespace Xv6.Exec

open Lib Fs Vm

variable {M N : Mach} {g : View} {T : Nat → Prop} {j : Nat} {argv : List Nat} {path : List Byte} {r : Int} {f : FileView}

/-! ## Files for the witnesses -/

/-- The bytes of a word of `n` bytes. -/
def wordLe (n x : Nat) : List Byte := (List.range n).map fun i => BitVec.ofNat 8 (x / 256 ^ i)

def ProgHdr.bytes (ph : ProgHdr) : List Byte :=
  wordLe 4 ph.type ++ wordLe 4 ph.flags ++ wordLe 8 ph.off ++ wordLe 8 ph.vaddr ++ wordLe 8 0 ++ wordLe 8 ph.filesz ++
    wordLe 8 ph.memsz ++ wordLe 8 0

/-- An executable with the given program headers, and `tail` behind them. -/
def elfFile (phs : List ProgHdr) (tail : List Byte) : List Byte :=
  wordLe 4 elfMagic ++ List.replicate 20 0 ++ wordLe 8 0 ++ wordLe 8 elfHdrSize ++ List.replicate 16 0 ++ wordLe 2 phs.length ++
    List.replicate 6 0 ++ phs.flatMap ProgHdr.bytes ++ tail

/-- A machine on which the program `data` is run. -/
theorem exists_run (data : List Byte) {n : Nat} (hlen : data.length ≤ maxFile * bsize)
    (hplan : (plan (Mkfs.dataFile data) [argName]).map (fun P => npages P.sz) = some n) (hn : n ≤ 14) :
    ∃ g M arg N, MemOk g M ∧ FsOk progInodes rootIno M ∧ ArgsOk g M.ram [arg] ∧ strings M.ram [arg] = [argName] ∧
      program M rootIno progName = some (Mkfs.dataFile data) ∧ kexec progName [arg] M = .ok 1 N := by
  obtain ⟨g, M, arg, hok, hfs, ha, hstr, hprog, hfree, he₁, he₂⟩ := exists_machine data hlen
  obtain ⟨P, hP, hnp⟩ := Option.map_eq_some_iff.1 hplan
  have hspec := kexec_spec hok hfs ha (show 1 < maxArg by decide) progName
  rw [hprog, Option.bind_some, hstr, hP] at hspec
  cases hk : kexec progName [arg] M with
  | error x N => exact absurd ((wp_error hspec hk).few 1 2 (by decide) (by decide) he₁ he₂) (by decide)
  | ok res N =>
      obtain ⟨-, ⟨-, -, hfew⟩ | ⟨Q, -, rfl, -⟩⟩ := wp_ok hspec hk
      · have h₁ := hfew P rfl
        omega
      · exact ⟨g, M, arg, N, hok, hfs, ha, hstr, hprog, hk⟩

/-! ## No program stops the kernel -/

/-- Whatever the file holds, `kexec` returns, unless the lookup of the path finds no free entry in the
inode table. In particular it does not panic over the segments or the page tables, and does not write
past `ustack`. -/
theorem kexec_returns (hok : MemOk g M) (hfs : FsOk T j M) (ha : ArgsOk g M.ram argv) (hargc : argv.length < maxArg)
    (path : List Byte) :
    (∃ r N, kexec path argv M = .ok r N) ∨ ∃ x N, kexec path argv M = .error x N ∧ NoInode M path x N := by
  have hspec := kexec_spec hok hfs ha hargc path
  cases hk : kexec path argv M with
  | ok r N => exact .inl ⟨r, N, rfl⟩
  | error x N => exact .inr ⟨x, N, rfl, wp_error hspec hk⟩

/-- A segment at the end of the address space, whose bytes lie far outside the file. -/
def wildFile : List Byte := elfFile [⟨1, 7, 2 ^ 40, 2 ^ 64 - 8, 2 ^ 33 + 3, 2 ^ 63⟩, ⟨1, 2, 7, 3, 1, 9⟩] []

theorem wildFile_facts : wildFile.length ≤ maxFile * bsize ∧ plan (Mkfs.dataFile wildFile) [argName] = none := by decide +kernel

theorem kexec_returns_wild : ∃ g M arg, MemOk g M ∧ program M rootIno progName = some (Mkfs.dataFile wildFile) ∧
    ∃ r N, kexec progName [arg] M = .ok r N := by
  obtain ⟨g, M, arg, hok, hfs, ha, -, hprog, -, he₁, he₂⟩ := exists_machine wildFile wildFile_facts.1
  rcases kexec_returns hok hfs ha (show 1 < maxArg by decide) progName with hret | ⟨x, N, -, hno⟩
  · exact ⟨g, M, arg, hok, hprog, hret⟩
  · exact absurd (hno.few 1 2 (by decide) (by decide) he₁ he₂) (by decide)

/-! ## A call that fails -/

/-- When `kexec` returns -1, the process has the page table, size, trapframe and name it had, the free
pages are those that were free, and the references to inodes and the count of `begin_op` are as before.
Whatever `sys_exec` returns, the pages it took for arguments have gone back, each of them once. -/
theorem failed_exec (hok : MemOk g M) (hfs : FsOk T j M) :
    (∀ path argv N, ArgsOk g M.ram argv → argv.length < maxArg → kexec path argv M = .ok (-1) N →
      N.proc = M.proc ∧ N.ram.mem M.proc.trapframe = M.ram.mem M.proc.trapframe ∧
      (∀ p, p ∈ N.ram.freelist ↔ p ∈ M.ram.freelist) ∧ N.fs.refs = M.fs.refs ∧
      N.outstanding = M.outstanding ∧ N.fs.trans = false) ∧
    ∀ r N, sysExec M = .ok r N → ArgsFreed g (argPages M) N := by
  refine ⟨fun path argv N ha hargc hk => ?_, fun r N hs => ?_⟩
  on_goal 2 =>
    have hsys := wp_ok (sysExec_spec hok hfs) hs
    exact hsys
  obtain ⟨hrest, ⟨-, hun, -⟩ | ⟨P, -, hres, -⟩⟩ := wp_ok (kexec_spec hok hfs ha hargc path) hk
  · obtain ⟨h, hs⟩ := hun.ram
    exact ⟨hun.proc, (hs.apart.kern _ hok.trapframe).2, hs.free hok.inv hok.live, hrest.refs, hrest.outstanding, hrest.trans⟩
  · omega

theorem failed_exec_wild : ∃ g M arg, MemOk g M ∧ FsOk progInodes rootIno M ∧
    (∃ N, kexec progName [arg] M = .ok (-1) N ∧ ∀ p, p ∈ N.ram.freelist ↔ p ∈ M.ram.freelist) ∧
    ∃ r N, sysExec M = .ok r N ∧ ArgsFreed g (argPages M) N := by
  obtain ⟨g, M, arg, hok, hfs, ha, hstr, hprog, -, he₁, he₂⟩ := exists_machine wildFile wildFile_facts.1
  have hspec := kexec_spec hok hfs ha (show 1 < maxArg by decide) progName
  rw [hprog, Option.bind_some, hstr, wildFile_facts.2] at hspec
  refine ⟨g, M, arg, hok, hfs, ?_, ?_⟩
  · cases hk : kexec progName [arg] M with
    | error x N => exact absurd ((wp_error hspec hk).few 1 2 (by decide) (by decide) he₁ he₂) (by decide)
    | ok res N =>
        obtain ⟨-, ⟨rfl, -⟩ | ⟨Q, hQ, -⟩⟩ := wp_ok hspec hk
        · exact ⟨N, rfl, ((failed_exec hok hfs).1 progName [arg] N ha (show 1 < maxArg by decide) hk).2.2.1⟩
        · cases hQ
  · cases hs : sysExec M with
    | error x N =>
        obtain ⟨path, M', hM', hno⟩ := wp_error (sysExec_spec hok hfs) hs
        rw [← hM'] at he₁ he₂
        exact absurd (hno.few 1 2 (by decide) (by decide) he₁ he₂) (by decide)
    | ok r N => exact ⟨r, N, rfl, (failed_exec hok hfs).2 r N hs⟩

/-! ## The image -/

theorem size_lt (hfs : FsOk T j M) (hf : program M j path = some f) : f.size < 2 ^ 32 := by
  obtain ⟨i, -, hi⟩ := Option.bind_eq_some_iff.1 hf
  unfold Fs.file at hi
  split at hi
  · rename_i hc
    have h₁ := (hfs.ok.blocks.noHole i hc.1 hc.2).size_le
    cases hi
    have h₂ : maxFile * bsize = 274432 := rfl
    show (M.fs.node i).size < _
    omega
  · cases hi

theorem Final.shape {strs : List (List Byte)} {x : Prog} {P : Plan} (hx : Final f strs x P) (hasc : Ascending (segments f)) :
    Shape (segments f) x := by
  rw [hx.prog]
  exact .run hasc hx.accepted

/-- A program whose segments lie in ascending order, within the file, is loaded as its headers say. -/
theorem loaded_image (hok : MemOk g M) (hfs : FsOk T j M) (ha : ArgsOk g M.ram argv) (hargc : argv.length < maxArg)
    (hk : kexec path argv M = .ok r N) (hr : r ≠ -1) (hf : program M j path = some f) (hasc : Ascending (segments f))
    (hin : ∀ ph ∈ segments f, ph.off + ph.filesz ≤ f.size) :
    N.proc.sz = npages (progEnd f) * pgSize + (userStack + 1) * pgSize ∧
    (∀ ph ∈ segments f, (∀ k, k < ph.filesz → N.byteAt (ph.vaddr + k) = some (f.byte (ph.off + k))) ∧
      ∀ k, ph.filesz ≤ k → k < ph.memsz → N.byteAt (ph.vaddr + k) = some 0) ∧
    ∀ a, a < npages (progEnd f) * pgSize → (∀ ph ∈ segments f, ¬ (ph.vaddr ≤ a ∧ a < ph.vaddr + ph.memsz)) →
      N.byteAt a = some 0 := by
  obtain ⟨f', P, x, h, hf', hx, -, -, hs, hsz⟩ := kexec_replaced hok hfs ha hargc hk hr
  rw [hf] at hf'
  cases hf'
  have hshape := hx.shape hasc
  have hcont : Contents f (segments f) x.image := by
    rw [hx.prog]
    exact .run hasc hx.accepted hin (size_lt hfs hf)
  have hend : x.sz = progEnd f := hshape.sz
  have hbyte : ∀ a, a < npages (progEnd f) * pgSize → N.byteAt a = some (x.image.byte a) := fun a ha => by
    rw [← hend] at ha
    have hlt : a < P.image.npages * pgSize := by
      rw [hx.image]
      exact Nat.lt_of_lt_of_le ha (Nat.mul_le_mul_right _ (Nat.le_add_right _ _))
    rw [hs.byteAt hlt, hx.byte ha]
  have hbelow : ∀ ph ∈ segments f, ∀ k, k < ph.memsz → ph.vaddr + k < npages (progEnd f) * pgSize := fun ph hph k hk => by
    have h₁ := hshape.below ph hph
    have h₂ := le_npages_mul (progEnd f)
    rw [hend] at h₁
    unfold ProgHdr.stop at h₁
    omega
  have hzero : ∀ a, a < npages (progEnd f) * pgSize →
      (∀ ph ∈ segments f, ¬ (ph.vaddr ≤ a ∧ a < ph.vaddr + ph.filesz)) → N.byteAt a = some 0 := fun a ha hout => by
    rw [hbyte a ha, hcont.zero a (by rw [hx.npages, hend]; exact ha) hout]
  have hsound : ∀ ph ∈ segments f, ph.filesz ≤ ph.memsz := fun ph hph => (hx.accepted ph hph).sound.1
  refine ⟨?_, fun ph hph => ⟨fun k hk => ?_, fun k hk hk' => ?_⟩, fun a ha hout => ?_⟩
  · rw [hsz, hx.sz, hend, Nat.add_mul]
    rfl
  · have h₁ := hsound ph hph
    rw [hbyte _ (hbelow ph hph k (by omega)), hcont.file ph hph k hk]
  · refine hzero _ (hbelow ph hph k hk') fun ph' hph' hin' => ?_
    -- a byte of another segment would be a byte of both
    have h₁ := hsound ph' hph'
    by_cases he : ph' = ph
    · subst he
      omega
    · have h₂ := hasc.apart hph' hph he
      unfold ProgHdr.stop at h₂
      omega
  · refine hzero a ha fun ph hph hin' => hout ph hph ?_
    have h₁ := hsound ph hph
    omega

/-- A segment that starts in the first page. -/
def smallSeg : ProgHdr := ⟨1, 6, 120, 16, 2, 5⟩

def smallFile : List Byte := elfFile [smallSeg] [5#8, 7#8]

theorem smallFile_facts : smallFile.length ≤ maxFile * bsize ∧ segments (Mkfs.dataFile smallFile) = [smallSeg] ∧
    (plan (Mkfs.dataFile smallFile) [argName]).map (fun P => npages P.sz) = some 3 ∧
    smallSeg.off + smallSeg.filesz ≤ (Mkfs.dataFile smallFile).size ∧ progEnd (Mkfs.dataFile smallFile) = 21 ∧
    (Mkfs.dataFile smallFile).byte (smallSeg.off + 1) = 7#8 := by decide +kernel

theorem smallFile_segments : segments (Mkfs.dataFile smallFile) = [smallSeg] := smallFile_facts.2.1

theorem smallFile_ascending : Ascending (segments (Mkfs.dataFile smallFile)) := by
  rw [smallFile_segments]
  exact List.pairwise_singleton _ _

theorem loaded_image_small : ∃ M arg N, kexec progName [arg] M = .ok 1 N ∧ N.proc.sz = 3 * pgSize ∧ N.byteAt 17 = some 7#8 ∧
    N.byteAt 18 = some 0 ∧ N.byteAt 0 = some 0 := by
  obtain ⟨g, M, arg, N, hok, hfs, ha, -, hprog, hk⟩ := exists_run smallFile smallFile_facts.1 smallFile_facts.2.2.1 (by decide)
  have hin : ∀ ph ∈ segments (Mkfs.dataFile smallFile), ph.off + ph.filesz ≤ (Mkfs.dataFile smallFile).size := by
    intro ph hph
    rw [smallFile_segments] at hph
    rw [List.mem_singleton.1 hph]
    exact smallFile_facts.2.2.2.1
  have hmem : smallSeg ∈ segments (Mkfs.dataFile smallFile) := by
    rw [smallFile_segments]
    exact List.mem_singleton.2 rfl
  obtain ⟨h₁, h₂, h₃⟩ := loaded_image hok hfs ha (show 1 < maxArg by decide) hk (by decide) hprog smallFile_ascending hin
  rw [smallFile_facts.2.2.2.2.1] at h₁ h₃
  refine ⟨M, arg, N, hk, h₁, ?_, (h₂ smallSeg hmem).2 2 (by decide) (by decide), h₃ 0 (by decide) fun ph hph => ?_⟩
  · rw [show 17 = smallSeg.vaddr + 1 from rfl, (h₂ smallSeg hmem).1 1 (by decide)]
    exact congrArg some smallFile_facts.2.2.2.2.2
  · rw [smallFile_segments] at hph
    rw [List.mem_singleton.1 hph]
    decide

/-! ## Permissions -/

theorem has_allocPerm (flags : Nat) :
    (allocPerm (flags2perm flags) ||| pteV).has pteW = flags.testBit 1 ∧
      (allocPerm (flags2perm flags) ||| pteV).has pteX = flags.testBit 0 := by
  unfold flags2perm
  cases flags.testBit 0 <;> cases flags.testBit 1 <;> decide

/-- A page with a byte of a segment has the flags of the first segment that ends behind its start. -/
theorem flagsAt_first {ph : ProgHdr} {v : Nat} (hok : MemOk g M) (hfs : FsOk T j M) (ha : ArgsOk g M.ram argv)
    (hargc : argv.length < maxArg) (hk : kexec path argv M = .ok r N) (hr : r ≠ -1) (hf : program M j path = some f)
    (hasc : Ascending (segments f)) (hph : ph ∈ segments f) (hin : ph.InPage v) :
    ∃ first, (segments f).find? (fun ph => v < npages ph.stop) = some first ∧
      N.flagsAt v = some (allocPerm (flags2perm first.flags) ||| pteV) := by
  obtain ⟨f', P, x, h, hf', hx, -, -, hs, -⟩ := kexec_replaced hok hfs ha hargc hk hr
  rw [hf] at hf'
  cases hf'
  have hshape := hx.shape hasc
  obtain ⟨a, h₁, h₂, rfl⟩ := hin
  have hlt : a / pgSize < npages x.sz := by
    have h₃ := hshape.below ph hph
    have h₄ := le_npages_mul x.sz
    exact (Nat.div_lt_iff_lt_mul (by decide)).2 (by omega)
  obtain ⟨first, hfirst, hflags⟩ := hshape.flags _ (by rw [hx.npages]; exact hlt)
  refine ⟨first, hfirst, ?_⟩
  rw [hs.flagsAt (by rw [hx.image]; omega), hx.flags hlt, hflags]

/-- The permissions of the pages are those of the segments in them exactly for the programs in which,
for every page with a byte of a segment, the first segment that ends behind the start of the page has
them. -/
theorem permissions_iff (hok : MemOk g M) (hfs : FsOk T j M) (ha : ArgsOk g M.ram argv) (hargc : argv.length < maxArg)
    (hk : kexec path argv M = .ok r N) (hr : r ≠ -1) (hf : program M j path = some f) (hasc : Ascending (segments f)) :
    (∀ v, Honours (segments f) N.flagsAt v) ↔ ∀ v, Agree (segments f) v := by
  have hpage : ∀ v ph, ph ∈ segments f → ph.InPage v → ∃ first, (segments f).find? (fun ph => v < npages ph.stop) = some first ∧
      N.flagsAt v = some (allocPerm (flags2perm first.flags) ||| pteV) := fun v ph hph hin =>
    flagsAt_first hok hfs ha hargc hk hr hf hasc hph hin
  constructor
  · rintro hh v ⟨ph, hph, hin⟩ first hfirst
    obtain ⟨first', hfirst', hflags⟩ := hpage v ph hph hin
    rw [hfirst] at hfirst'
    cases hfirst'
    obtain ⟨hW, hX⟩ := has_allocPerm first.flags
    refine ⟨⟨fun hw => ?_, ?_⟩, ?_⟩
    · by_contra hno
      obtain ⟨y, hy, hyw⟩ := (hh v).readOnly ⟨ph, hph, hin⟩ fun ph' hph' hin' hw' => hno ⟨ph', hph', hin', hw'⟩
      rw [hflags] at hy
      cases hy
      rw [hW] at hyw
      exact absurd hw (by rw [ProgHdr.Writes, hyw]; decide)
    · rintro ⟨ph', hph', hin', hw'⟩
      obtain ⟨y, hy, hyw⟩ := (hh v).write ph' hph' hin' hw'
      rw [hflags] at hy
      cases hy
      exact hW.symm.trans hyw
    · rintro ⟨ph', hph', hin', hx'⟩
      obtain ⟨y, hy, hyx⟩ := (hh v).execute ph' hph' hin' hx'
      rw [hflags] at hy
      cases hy
      exact hX.symm.trans hyx
  · intro hagree v
    refine ⟨fun ph hph hin hw => ?_, fun ph hph hin hx' => ?_, ?_⟩
    · obtain ⟨first, hfirst, hflags⟩ := hpage v ph hph hin
      exact ⟨_, hflags, (has_allocPerm _).1.trans ((hagree v ⟨ph, hph, hin⟩ first hfirst).1.2 ⟨ph, hph, hin, hw⟩)⟩
    · obtain ⟨first, hfirst, hflags⟩ := hpage v ph hph hin
      exact ⟨_, hflags, (has_allocPerm _).2.trans ((hagree v ⟨ph, hph, hin⟩ first hfirst).2 ⟨ph, hph, hin, hx'⟩)⟩
    · rintro ⟨ph, hph, hin⟩ hro
      obtain ⟨first, hfirst, hflags⟩ := hpage v ph hph hin
      refine ⟨_, hflags, (has_allocPerm _).1.trans ?_⟩
      rw [Bool.eq_false_iff]
      intro hw
      obtain ⟨ph', hph', hin', hw'⟩ := (hagree v ⟨ph, hph, hin⟩ first hfirst).1.1 hw
      exact hro ph' hph' hin' hw'

theorem permissions_small : ∃ M arg N, kexec progName [arg] M = .ok 1 N ∧ ∀ v, Honours [smallSeg] N.flagsAt v := by
  obtain ⟨g, M, arg, N, hok, hfs, ha, -, hprog, hk⟩ := exists_run smallFile smallFile_facts.1 smallFile_facts.2.2.1 (by decide)
  have hiff := permissions_iff hok hfs ha (show 1 < maxArg by decide) hk (by decide) hprog smallFile_ascending
  rw [smallFile_segments] at hiff
  refine ⟨M, arg, N, hk, hiff.2 ?_⟩
  rintro v ⟨ph, hph, hin⟩ first hfirst
  obtain rfl := List.mem_singleton.1 hph
  obtain rfl := List.mem_singleton.1 (List.mem_of_find?_eq_some hfirst)
  refine ⟨iff_of_true (by decide) ⟨_, hph, hin, by decide⟩, ?_⟩
  rintro ⟨ph', hph', -, hx⟩
  obtain rfl := List.mem_singleton.1 hph'
  exact hx

/-- A segment that may be executed, and one that may be written and starts in the last page of the
first. -/
def sharedFile : List Byte := elfFile [⟨1, 5, 0, 0, 0, 0x1010⟩, ⟨1, 6, 0, 0x1010, 0, 0xF0⟩] []

theorem sharedFile_facts : sharedFile.length ≤ maxFile * bsize ∧
    (plan (Mkfs.dataFile sharedFile) [argName]).map (fun P => npages P.sz) = some 4 ∧
    segments (Mkfs.dataFile sharedFile) = [⟨1, 5, 0, 0, 0, 0x1010⟩, ⟨1, 6, 0, 0x1010, 0, 0xF0⟩] := by decide +kernel

theorem shared_page_read_only : ∃ g M arg N f, MemOk g M ∧ FsOk progInodes rootIno M ∧ ArgsOk g M.ram [arg] ∧
    program M rootIno progName = some f ∧ Ascending (segments f) ∧ kexec progName [arg] M = .ok 1 N ∧
    ¬ Honours (segments f) N.flagsAt 1 := by
  obtain ⟨g, M, arg, N, hok, hfs, ha, -, hprog, hk⟩ := exists_run sharedFile sharedFile_facts.1 sharedFile_facts.2.1
    (by decide)
  have hsegs := sharedFile_facts.2.2
  have hasc : Ascending (segments (Mkfs.dataFile sharedFile)) := by
    rw [hsegs]
    exact List.pairwise_pair.2 (by decide)
  have hmem : (⟨1, 6, 0, 0x1010, 0, 0xF0⟩ : ProgHdr) ∈ segments (Mkfs.dataFile sharedFile) := by
    rw [hsegs]
    decide
  have hin : (⟨1, 6, 0, 0x1010, 0, 0xF0⟩ : ProgHdr).InPage 1 := ⟨0x1010, by decide, by decide, by decide⟩
  obtain ⟨first, hfirst, hflags⟩ := flagsAt_first hok hfs ha (show 1 < maxArg by decide) hk (by decide) hprog hasc hmem hin
  refine ⟨g, M, arg, N, _, hok, hfs, ha, hprog, hasc, hk, fun hh => ?_⟩
  obtain ⟨x, hx, hw⟩ := hh.write _ hmem hin (by decide)
  rw [hsegs] at hfirst
  obtain rfl : (⟨1, 5, 0, 0, 0, 0x1010⟩ : ProgHdr) = first := Option.some.inj (hfirst ▸ (by decide))
  rw [hflags] at hx
  cases hx
  rw [(has_allocPerm _).1] at hw
  exact absurd hw (by decide)

/-! ## Arguments -/

theorem load_startFrame (tf : Bytes) (entry sp : Nat) (hsp : sp < 2 ^ 64) :
    load 8 (startFrame tf entry sp) tfA1 = sp ∧ load 8 (startFrame tf entry sp) tfSp = sp := by
  unfold startFrame
  constructor
  · rw [load_store_disjoint (by decide), load_store_disjoint (by decide), load_store]
    exact Nat.mod_eq_of_lt hsp
  · rw [load_store]
    exact Nat.mod_eq_of_lt hsp

/-- `kexec` returns the number of its arguments and leaves them on the stack, at the address in `a1`
and `sp`; it fails if they do not fit. -/
theorem arguments_passed (hok : MemOk g M) (hfs : FsOk T j M) (ha : ArgsOk g M.ram argv) (hargc : argv.length < maxArg)
    (hk : kexec path argv M = .ok r N) :
    (r ≠ -1 → r = argv.length ∧ ∃ sp ptrs user, (∀ a, a < N.proc.sz → N.byteAt a = some (user a)) ∧
      load 8 (N.ram.mem N.proc.trapframe) tfA1 = sp ∧ load 8 (N.ram.mem N.proc.trapframe) tfSp = sp ∧
      Passed (strings M.ram argv) N.proc.sz sp ptrs user) ∧
    (¬ ArgsFit (strings M.ram argv) → r = -1) := by
  have hpassed : r ≠ -1 → r = argv.length ∧ (∃ sp ptrs user, (∀ a, a < N.proc.sz → N.byteAt a = some (user a)) ∧
      load 8 (N.ram.mem N.proc.trapframe) tfA1 = sp ∧ load 8 (N.ram.mem N.proc.trapframe) tfSp = sp ∧
      Passed (strings M.ram argv) N.proc.sz sp ptrs user) ∧ ArgsFit (strings M.ram argv) := by
    intro hr
    obtain ⟨f, P, x, h, -, hx, hres, hrep, hs, hsz⟩ := kexec_replaced hok hfs ha hargc hk hr
    have hp := hx.placed
    obtain ⟨r', hproc⟩ := hrep.proc
    have htf : N.proc.trapframe = M.proc.trapframe := by rw [hproc]
    have hbase : P.sz - userStack * pgSize = (npages x.sz + 1) * pgSize := by
      rw [hx.sz, ← Nat.sub_mul]
      rfl
    have hroom := hp.room
    have hlow := hp.low
    have hlt : P.sz < 2 ^ 64 := by
      have h₁ := hs.size
      have h₂ : P.sz ≤ userPages * pgSize := by
        rw [hx.sz, ← hx.image]
        exact Nat.mul_le_mul_right _ h₁
      have h₃ : userPages * pgSize < 2 ^ 64 := by decide
      omega
    obtain ⟨ha1, hsp⟩ := load_startFrame (M.ram.mem M.proc.trapframe) P.entry P.sp (by omega)
    refine ⟨hres, ⟨P.sp, P.ptrs, P.image.byte, fun a ha => hs.byteAt ?_, ?_, ?_, ?_⟩, ?_⟩
    · rw [hx.image, ← hx.sz, ← hsz]
      exact ha
    · rw [htf, hrep.trapframe, ha1]
    · rw [htf, hrep.trapframe, hsp]
    · rw [hsz]
      refine ⟨hp.length, hp.aligned, ⟨by rw [hbase]; exact hlow, by omega⟩, fun i hi => hp.words i (Nat.le_of_lt hi), ?_,
        fun x hx => ?_, fun x hx => (hp.string x hx).2.1, hp.apart, hp.pos⟩
      · rw [hp.words _ (Nat.le_refl _), List.getD_eq_getElem?_getD, List.getElem?_eq_none (by rw [hp.length])]
        rfl
      · obtain ⟨h₁, h₂, h₃, h₄⟩ := hp.string x hx
        exact ⟨h₁, by rw [hbase]; omega, h₃, h₄⟩
    · have hend : P.sz = (npages x.sz + 1 + 1) * pgSize := hx.sz
      have hpos := hp.pos
      rw [hend, argsEnd_top] at hpos
      have hlow' := Int.ofNat_le.2 hlow
      rw [hpos] at hlow'
      push_cast at hlow'
      show 0 ≤ argsEnd (1 * pgSize) _
      rw [Nat.one_mul]
      omega
  refine ⟨fun hr => ⟨(hpassed hr).1, (hpassed hr).2.1⟩, fun hfit => ?_⟩
  by_contra hr
  exact hfit (hpassed hr).2.2

theorem arguments_passed_one : ∃ M arg N sp ptrs user, kexec progName [arg] M = .ok 1 N ∧
    Passed [argName] N.proc.sz sp ptrs user := by
  obtain ⟨g, M, arg, N, hok, hfs, ha, hstr, hprog, hk⟩ := exists_run smallFile smallFile_facts.1 smallFile_facts.2.2.1 (by decide)
  obtain ⟨-, sp, ptrs, user, -, -, -, hp⟩ := (arguments_passed hok hfs ha (show 1 < maxArg by decide) hk).1 (by decide)
  rw [hstr] at hp
  exact ⟨M, arg, N, sp, ptrs, user, hk, hp⟩

end Xv6.Exec
