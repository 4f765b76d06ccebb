import Mathlib.Data.BitVec
import Xv6.Fs.Lemmas.Bitmap
import Xv6.Fs.Lemmas.Descr
import Xv6.Fs.Lemmas.Path
import Xv6.Fs.Lemmas.Reclaim
import Xv6.Fs.Lemmas.Write
import Xv6.Mkfs.Lemmas.Main

/-!
# Results about the file system
-/

namespace Xv6.Fs

open Lib

/-! ## Open files -/

/-- In every state between system calls the counts of references to open files, pipes and inodes are
exact; the inode of a file is put when the last reference to the file is dropped. -/
theorem references_exact {sb : Super} {blk : Nat → Block} {s : Sys} (h : Reach step (fun _ _ => True) (boot sb blk) s) :
    FileRefs s ∧ ∀ f t, fileclose f s = .ok () t → ∀ e, (t.fs.inode e).ref =
      (s.fs.inode e).ref - if (s.file f).ref = 1 ∧ (s.file f).Holds e then 1 else 0 := by
  have hT : Table s.proc [] [] s := h.inv (I := fun s => Table s.proc [] [] s) Table.boot fun _ _ _ hI _ hs => hI.step hs
  exact ⟨hT.fileRefs, fun f t hc => wp_ok fileclose_refs hc⟩

/-- A pipe, one end of it closed. -/
theorem references_exact_pipe : ∃ t, run step [.call 0 (.pipe true true), .call 0 (.close 0)]
    (boot ⟨0, 0, 0, 0, 0, 0, 0⟩ fun _ _ => 0) = some (.ok t) ∧ FileRefs t := by
  have h : run step [.call 0 (.pipe true true), .call 0 (.close 0)] (boot ⟨0, 0, 0, 0, 0, 0, 0⟩ fun _ _ => 0) = some (.ok _) := rfl
  exact ⟨_, h, (references_exact (reach_of_run RunOk.of_true h)).1⟩

/-! ## Recovery -/

/-- At boot `ireclaim` frees every allocated inode without links and exactly the blocks of these, and
changes no other inode or file. -/
theorem ireclaim_frees_orphans {s : Fs} (h : Ok s) (hidle : s.Idle) (hroom : s.sb.nbitmap + 1 < logBlocks) :
    ∃ t, ireclaim s = .ok () t ∧ Ok t ∧ (∀ i, i ≠ 0 → i < s.sb.ninodes → s.Orphan i → (t.disk i).type = 0) ∧
      (∀ b, b < s.sb.size → (t.used b = true ↔ s.used b = true ∧
        ¬ ∃ i, i ≠ 0 ∧ i < s.sb.ninodes ∧ s.Orphan i ∧ b ≠ 0 ∧ b ∈ slots s.blk (s.disk i))) ∧
      (∀ i, i < s.sb.ninodes → ¬ (i ≠ 0 ∧ s.Orphan i) → t.disk i = s.disk i ∧ t.file i = s.file i) ∧
      ∀ c, s.sb.IsData c → t.blk c = s.blk c := by
  obtain ⟨_, t, ht, hr⟩ := wp_returns (ireclaim_spec h hidle hroom)
  exact ⟨t, ht, hr.ok, hr.freed, fun b hb => hr.used h hidle hb,
    fun i hi hno => hr.disk i hi fun hc => hno ⟨hc.1, hc.2.2⟩, hr.data⟩

/-- The file of an image loses its link, and the machine is booted. -/
theorem ireclaim_frees_orphans_file : ∃ s t : Fs, s.Orphan 2 ∧ ireclaim s = .ok () t ∧ (t.disk 2).type = 0 := by
  obtain ⟨s₀, h₀, htrans, hlog, he, hsb, hother⟩ := Mkfs.exists_entry (show [1, 2].length ≤ maxFile * bsize by decide) []
  obtain ⟨s, h, hidle, hsb', ho⟩ := exists_orphan h₀ he htrans hlog hother
  rw [hsb] at hsb'
  obtain ⟨t, ht, _, hfree, _⟩ := ireclaim_frees_orphans h hidle (by rw [hsb']; decide)
  exact ⟨s, t, ho, ht, hfree 2 (by decide) (by rw [hsb']; decide) ho⟩

/-! ## Reading and writing -/

section Write

variable {X : Nat → Prop} {s t : Fs} {e i : Nat} {f : FileView} {src : Nat → Option Byte} {off n tot : Nat}

/-- A write that stops at a source byte `u` that cannot be read keeps the bytes of the file that it does
not count, in the buffers and after their eviction, if and only if the source has the bytes of the file
from the start of the block of byte `u` on. -/
theorem failed_copy_iff {u : Nat} (h : Inv X [] s) (he : Entry s e i f) (htrans : s.trans = true)
    (hw : writei e src off n s = .ok (some tot) t) (hlt : tot < n)
    (hblock : addrOf t.blk (t.inode e).d ((off + tot) / bsize) ≠ 0)
    (hread : ∀ x, x < u → (src x).isSome = true) (hbad : src u = none) :
    (∃ f' g, t.file i = some f' ∧ (s.evict t).file i = some g ∧ g.size = f'.size ∧
      ∀ x, x < f'.size → x < off ∨ off + tot ≤ x → f'.byte x = f.byte x ∧ g.byte x = f.byte x) ↔
    ∀ x, (off + u) / bsize * bsize ≤ off + x → x < u → off + x < f.size → src x = some (f.byte (off + x)) := by
  have hb : bsize = 1024 := sizes.1
  have hspec : wp (writei e src off n) _ (fun _ _ => True) s :=
    writei_spec h he.at_ he.valid (he.type h.table) htrans he.file fun _ _ _ => trivial
  rcases wp_ok hspec hw with ⟨hno, _, _⟩ | ⟨tot', hsome, hok, _⟩
  · cases hno
  · obtain rfl := Option.some.inj hsome
    obtain ⟨r, f', he', hend, hfile, hwr⟩ := hok.entry he
    have hsize := hwr.size
    have hstart := hok.start
    cases hend with
    | done h => exact absurd h (Nat.ne_of_lt hlt)
    | noBlock _ hz _ => exact absurd hz hblock
    | copy _ hr hnone hn hin =>
        have hu : tot + r = u := by
          rcases Nat.lt_trichotomy (tot + r) u with h | h | h
          · have := hread _ h
            rw [hnone] at this
            cases this
          · exact h
          · have hsome : (src u).isSome = true := by
              by_cases hut : u < tot
              · exact hok.read u hut
              · have := hr (u - tot) (by omega)
                rwa [Nat.add_sub_cancel' (by omega)] at this
            rw [hbad] at hsome
            cases hsome
        -- the bytes copied and not counted
        have hrange : ∀ x, x < u → ((off + u) / bsize * bsize ≤ off + x ↔ tot ≤ x) := by
          intro x hx
          have halign := hok.aligned
          rw [hb] at hin halign ⊢
          omega
        constructor
        · rintro ⟨f₁, g, hf₁, _, _, hsame⟩ x hx hxu hxs
          obtain rfl := Option.some.inj (hf₁.symm.trans he'.file)
          have htot := (hrange x hxu).1 hx
          have hnew := (hsame (off + x) (by omega) (by omega)).1
          rw [hwr.byte, if_pos (by omega), Nat.add_sub_cancel_left] at hnew
          obtain ⟨v, hv⟩ := Option.isSome_iff_exists.1 (hread x hxu)
          rw [hv, Option.getD_some] at hnew
          rw [hv, hnew]
        · intro hsrc
          have hcache : ∀ x, x < f'.size → x < off ∨ off + tot ≤ x → f'.byte x = f.byte x := by
            intro x hx hout
            by_cases hin : off + tot ≤ x ∧ x < off + u
            · have := hsrc (x - off) ((hrange _ (by omega)).2 (by omega)) (by omega) (by omega)
              rw [hwr.byte, if_pos (by omega), this, Option.getD_some, Nat.add_sub_cancel' (by omega)]
            · exact hwr.outside (by omega)
          obtain ⟨g, hg, hgs, hbyte⟩ := hok.evict_file h he he' (by omega)
          refine ⟨f', g, he'.file, hg, hgs, fun x hx hout => ⟨hcache x hx hout, ?_⟩⟩
          rcases hbyte x (by omega) with hx' | hx'
          · rw [hx', hcache x hx hout]
          · exact hx'

/-- The source has the byte of the file, then one that cannot be read. -/
theorem failed_copy_iff_same : ∃ (s : Fs) (t : Fs), writei 0 (fun x => if x = 0 then some 1 else none) 0 2 s = .ok (some 0) t ∧
    ∃ f' g, t.file 2 = some f' ∧ (s.evict t).file 2 = some g ∧ g.size = f'.size ∧
      ∀ x, x < f'.size → x < 0 ∨ 0 + 0 ≤ x → f'.byte x = [1, 2].getD x 0 ∧ g.byte x = [1, 2].getD x 0 := by
  obtain ⟨s, h, htrans, hlog, he, _⟩ := Mkfs.exists_entry (show [1, 2].length ≤ maxFile * bsize by decide) []
  obtain ⟨t, f', hw, hblock, _, _⟩ := writei_partial (fun x => if x = 0 then some 1 else none) h he htrans hlog (by decide) rfl rfl
  refine ⟨s, t, hw, (failed_copy_iff (u := 1) h he htrans hw (by decide) hblock (fun x hx => ?_) rfl).2 fun x _ hx _ => ?_⟩
  · obtain rfl := Nat.lt_one_iff.1 hx
    rfl
  · obtain rfl := Nat.lt_one_iff.1 hx
    rfl

/-- The source has a byte other than that of the file, then one that cannot be read. -/
theorem failed_copy_changes : ∃ (s t : Fs) (f f' : FileView) (src : Nat → Option Byte), Ok s ∧ Entry s 0 2 f ∧ s.trans = true ∧
    s.logged = [] ∧ src 1 = none ∧ writei 0 src 0 2 s = .ok (some 0) t ∧ addrOf t.blk (t.inode 0).d 0 ≠ 0 ∧
    t.file 2 = some f' ∧ 0 < f'.size ∧ f'.byte 0 ≠ f.byte 0 := by
  obtain ⟨s, h, htrans, hlog, he, _⟩ := Mkfs.exists_entry (show [1, 2].length ≤ maxFile * bsize by decide) []
  obtain ⟨t, f', hw, hblock, hf', hpos, hbyte⟩ := writei_partial (fun x => if x = 0 then some 9 else none) h he htrans hlog
    (by decide) rfl rfl
  refine ⟨s, t, _, f', _, h, he, htrans, hlog, rfl, hw, hblock, hf', hpos, ?_⟩
  rw [hbyte]
  decide

/-- The chunk that `filewrite` writes in one transaction logs at most `MAXOPBLOCKS` blocks, whatever the
free map holds and whether or not the write is complete. -/
theorem writei_chunk (hN : NoHole s.blk (s.inode e).d) (hn : n ≤ (maxOpBlocks - 1 - 1 - 2) / 2 * bsize) :
    ∃ r t, writei e src off n { s with trans := true, logged := [] } = .ok r t ∧ t.logged.Nodup ∧
      t.logged.length ≤ maxOpBlocks := by
  have hb : bsize = 1024 := sizes.1
  have hlb : logBlocks = 30 := rfl
  have hmo : maxOpBlocks = 10 := rfl
  have huse : logUse off n ≤ 7 := by
    have hn' : n ≤ 3072 := hn
    rw [logUse, touched, hb]
    split <;> split <;> omega
  have hnodup : ({ s with trans := true, logged := [] } : Fs).logged.Nodup := List.nodup_nil
  have hbig : TooBig (fun _ _ => False) (fun _ => False) (logUse off n + 2) { s with trans := true, logged := [] } := by
    intro u hu hlen
    have := hu.length_le hnodup
    simp only [List.length_nil] at this
    omega
  have hwp : wp (writei e src off n) _ _ { s with trans := true, logged := [] } := writei_logs hN rfl hbig
  obtain ⟨r, t, hok, hlogs⟩ := wp_returns hwp
  refine ⟨r, t, hok, hlogs.1 hnodup, ?_⟩
  have := hlogs.length_le hnodup
  simp only [List.length_nil] at this
  omega

/-- A chunk of a file of two bytes. -/
theorem writei_chunk_byte : ∃ (s : Fs) (r : Option Nat) (t : Fs), NoHole s.blk (s.inode 0).d ∧
    writei 0 (fun _ => some 7) 1 3072 { s with trans := true, logged := [] } = .ok r t ∧ t.logged.length ≤ maxOpBlocks := by
  obtain ⟨s, h, _, _, he, _⟩ := Mkfs.exists_entry (show [1, 2].length ≤ maxFile * bsize by decide) []
  obtain ⟨r, t, hw, _, hlen⟩ := @writei_chunk s 0 (fun _ => some 7) 1 3072 (he.noHole h) (by decide)
  exact ⟨s, r, t, he.noHole h, hw, hlen⟩

end Write

/-! ## Directories -/

/-- A directory whose entries have distinct names is a map from names: `dirlookup` reads it, and
`dirlink` that returns 0 adds one name to it, that of the buffer, and changes no other. -/
theorem directory_is_map {s : Fs} {e i : Nat} {f : FileView} (h : Ok s) (he : Entry s e i f) (htrans : s.trans = true)
    (ht : f.type = tDir) (hw : direntSize ∣ f.size) (hf : f.Distinct) :
    (∀ b, Yields (Raw.dirlookup e b) s (f.lookup b)) ∧ (∀ b, f.lookup b = none ↔ ∀ k, ¬ f.Agrees k b) ∧
    (∀ b k, f.Agrees k b → f.lookup b = some ((f.slot k).inum, direntSize * k)) ∧
    ∀ de b inum r t, 1 ≤ inum → inum ≤ 65535 → Raw.dirlink de e b inum s = .ok r t →
      ∃ f', Ok t ∧ Entry t e i f' ∧ f'.type = tDir ∧ direntSize ∣ f'.size ∧ f'.Distinct ∧
        (∀ b', Yields (Raw.dirlookup e b') t (f'.lookup b')) ∧
        (r = true → (∃ off, f'.lookup b = some (inum, off)) ∧ ∀ b', ¬ SameName b b' → f'.lookup b' = f.lookup b') ∧
        (r = false → ∀ b', f'.lookup b' = f.lookup b') := by
  refine ⟨dirlookup_yields h he ht hw, fun b => ?_, fun b k hk => ?_, fun de b inum r t hpos hle hm => ?_⟩
  · rw [FileView.lookup, Option.map_eq_none_iff]
    constructor
    · exact fun hnone k hk => find_none hnone (agrees_iff.1 hk)
    · intro hno
      cases hfind : f.find (cname b) with
      | none => rfl
      | some k => exact absurd (agrees_iff.2 (find_some hfind)) (hno k)
  · rw [FileView.lookup, (find_iff hf).2 (agrees_iff.1 hk)]
    rfl
  · rw [dirlink_raw] at hm
    obtain ⟨hok, hkeep, ⟨rfl, hfile⟩ | ⟨rfl, k, hfree, hnone, hfile⟩⟩ := wp_ok (dirlink_wp h he ht hw htrans) hm
    · have he' : Entry t e i f := he.keep hkeep trivial (by rw [hfile])
      exact ⟨f, hok, he', ht, hw, hf, dirlookup_yields hok he' ht hw, (fun hr => by cases hr), fun _ _ => rfl⟩
    · have hname := nameOk_cname b
      have hnz : inum ≠ 0 := by omega
      have hlt : inum < 2 ^ 16 := by omega
      have hnew : ∀ j, ¬ f.Has j (cname b) := fun j => find_none hnone
      have hhas : ∀ j n, (f.setSlot k ⟨inum, cname b⟩).Has j n ↔ (j = k ∧ n = cname b) ∨ f.Has j n := fun j n =>
        has_setSlot hfree hw hname hnz hlt
      have hdist := distinct_setSlot hf hfree hw hname hnz hlt hnew
      have hw' : direntSize ∣ (f.setSlot k ⟨inum, cname b⟩).size := dvd_setSlot hw
      obtain ⟨hat, hv⟩ := hkeep.entry e i trivial he.at_
      have he' : Entry t e i (f.setSlot k ⟨inum, cname b⟩) := ⟨hat, hv he.valid, by rw [hfile, Function.update_self]⟩
      refine ⟨_, hok, he', ht, hw', hdist, dirlookup_yields hok he' ht hw', fun _ => ⟨⟨direntSize * k, ?_⟩, fun b' hb' => ?_⟩,
        fun hr => by cases hr⟩
      · have hfind := (find_iff hdist).2 ((hhas k (cname b)).2 (.inl ⟨rfl, rfl⟩))
        rw [FileView.lookup, hfind, Option.map_some, slot_setSlot_self hname hlt]
      · have hne : cname b' ≠ cname b := fun heq => hb' (sameName_iff.2 heq.symm)
        have hfind : (f.setSlot k ⟨inum, cname b⟩).find (cname b') = f.find (cname b') := Option.ext fun j => by
          rw [find_iff hdist, find_iff hf, hhas]
          exact or_iff_right fun hc => hne hc.2
        rw [FileView.lookup, FileView.lookup, hfind]
        cases hj : f.find (cname b') with
        | none => rfl
        | some j =>
            have hjk : j ≠ k := by
              rintro rfl
              have hhj := find_some hj
              rcases hfree with ⟨_, hz⟩ | hend
              · exact hhj.live hz
              · have hl : j < f.size / direntSize := hhj.lt
                rw [← hend] at hl
                have hs : direntSize = 16 := rfl
                rw [hs] at hl
                omega
            rw [Option.map_some, Option.map_some, slot_setSlot_ne hjk]

theorem dirOf_root_distinct : (Mkfs.dirOf (Mkfs.rootEntries [])).Distinct := by
  refine distinct_iff.2 fun j k name hj hk => ?_
  have hn : (Mkfs.dirOf (Mkfs.rootEntries [])).nslots = 2 := Mkfs.nslots_dirOf _
  have hslot : ∀ x, (hx : x < 2) → (Mkfs.dirOf (Mkfs.rootEntries [])).slot x = (Mkfs.rootEntries []).get ⟨x, hx⟩ := fun x hx =>
    Mkfs.slot_dirOf (Mkfs.rootEntries_ok (by decide) fun a ha => absurd ha List.not_mem_nil) hx
  have hj' := hj.lt
  have hk' := hk.lt
  rw [hn] at hj' hk'
  have heq := hj.name.trans hk.name.symm
  rw [hslot j hj', hslot k hk'] at heq
  have hcases : ∀ x, x < 2 → x = 0 ∨ x = 1 := by omega
  rcases hcases j hj' with rfl | rfl <;> rcases hcases k hk' with rfl | rfl
  · rfl
  · exact absurd heq (show dot ≠ dotdot by decide)
  · exact absurd heq (show dotdot ≠ dot by decide)
  · rfl

/-- The root directory of an image without files. -/
theorem directory_is_map_root : ∃ s f, Entry s 0 rootIno f ∧ (∀ b, Yields (Raw.dirlookup 0 b) s (f.lookup b)) := by
  obtain ⟨s, h, htrans, _, he, _⟩ := Mkfs.exists_root
  have hsize : (Mkfs.dirOf (Mkfs.rootEntries [])).size = direntSize * 2 := Mkfs.size_dirOf _
  exact ⟨s, _, he, (directory_is_map h he htrans (Mkfs.type_dirOf _) ⟨2, hsize⟩ dirOf_root_distinct).1⟩

/-! ## Paths -/

/-- `namei` and `nameiparent` return what the components of the path lead to, with one reference taken,
and nothing with none taken if they lead nowhere; slashes that are repeated or at the end make no
difference. -/
theorem path_resolution {s : Fs} {T : Nat → Prop} {cwd j : Nat} (h : Ok s) (hT : Tree s T)
    (hun : ∀ e, (s.inode e).locked = false) (hcwd : s.At cwd j) (hj : T j) (hroot : T rootIno) :
    (∀ path, Finds s (resolve s.file (startOf path j) (components path)) (namei cwd path s)) ∧
    (∀ path, FindsNamed s (resolveParent s.file (startOf path j) (components path)) (nameiparent cwd path s)) ∧
    ∀ path path', runs path = runs path' → (path.head? = some slash ↔ path'.head? = some slash) →
      namei cwd path = namei cwd path' ∧ nameiparent cwd path = nameiparent cwd path' := by
  refine ⟨namei_finds h hT hun hcwd hj hroot, fun path => ?_, fun path path' hruns hhead => ?_⟩
  · rw [← target_true]
    exact namex_finds h hT hun hcwd hj hroot path true
  · have hcomp : components path = components path' := by rw [components, components, hruns]
    have hx : ∀ parent, namex cwd path parent = namex cwd path' parent := fun parent => by
      rw [namex_eq, namex_eq, hcomp]
      simp only [hhead]
    exact ⟨by rw [namei, namei, hx], hx true⟩

example : components [slash, slash, slash, 97#8, slash, slash, 98#8, 98#8, slash] = [[97#8], [98#8, 98#8]] := by decide

theorem slot_root {k : Nat} (hk : k < (Mkfs.dirOf (Mkfs.rootEntries [])).nslots) :
    ((Mkfs.dirOf (Mkfs.rootEntries [])).slot k).inum = rootIno := by
  rw [Mkfs.nslots_dirOf] at hk
  rw [Mkfs.slot_dirOf (Mkfs.rootEntries_ok (by decide) fun a ha => absurd ha List.not_mem_nil) hk]
  have hk' : k < 2 := hk
  have hcases : k = 0 ∨ k = 1 := by omega
  rcases hcases with rfl | rfl <;> rfl

theorem nlink_dirOf (es : List Dirent) : (Mkfs.dirOf es).nlink = 1 := by
  induction es using List.reverseRecOn with
  | nil => rfl
  | append_singleton es de ih =>
      rw [Mkfs.dirOf_append]
      exact ih

/-- The paths of an image without files. -/
theorem path_resolution_root : ∃ s : Fs, s.At 0 rootIno ∧
    ∀ path, Finds s (resolve s.file (startOf path rootIno) (components path)) (namei 0 path s) := by
  obtain ⟨s, h, _, _, he, _, hfile, hun, hother⟩ := Mkfs.exists_root
  have hroot : s.file rootIno = some (Mkfs.dirOf (Mkfs.rootEntries [])) := he.file
  have hT : Tree s fun i => i = rootIno := by
    refine ⟨?_, ?_, ?_⟩
    · rintro i rfl
      exact ⟨_, hroot, .inl (by rw [nlink_dirOf]; decide)⟩
    · rintro i f rfl hf _
      rw [hroot] at hf
      obtain rfl := Option.some.inj hf
      exact ⟨2, Mkfs.size_dirOf _⟩
    · rintro i f k rfl hf _ hk _
      rw [hroot] at hf
      obtain rfl := Option.some.inj hf
      exact slot_root hk
  have hunlocked : ∀ e, (s.inode e).locked = false := fun e => by
    obtain rfl | hne := eq_or_ne e 0
    · exact hun
    · exact (hother e hne).2
  exact ⟨s, he.at_, (path_resolution h hT hunlocked he.at_ rfl rfl).1⟩

/-! ## The free map -/

namespace Bitmap

/-- A free map of at most 2^31 bits that offers neither block 0 nor its own blocks is a set: `balloc` takes its least
free block, and `bfree` gives a block back. -/
theorem free_map_is_set {s : Map} (hs : s.Ok) (hsize : s.size.toNat ≤ 2 ^ 31) : s.IsSet where
  balloc := by
    refine ⟨s.size.toNat + 1, fun fuel hfuel => ?_⟩
    obtain ⟨n, rfl⟩ : ∃ n, fuel = n + 1 := ⟨fuel - 1, by omega⟩
    obtain ⟨r, t, hrun, hres⟩ := ballocFrom_ok (j := 0) (n := n) hs hsize (Nat.zero_le _) (by omega) fun c hc => absurd hc (by omega)
    refine ⟨r, t, hrun, ?_⟩
    rcases hres with hfull | ⟨hr, ht, hsz⟩
    · exact .inl hfull
    · exact .inr ⟨hr, ht, taken_bfree ht hsz⟩
  bfree := fun _ _ hused => bfree_ok hused

/-- A map of 16 bits in block `b`, of which the first `n` are set. -/
def small (b : Word) (n : Nat) : Map := ⟨16, b, fun c i => if c = b ∧ i = 0 then BitVec.ofNat 8 (2 ^ n - 1) else 0⟩

theorem small_bblock {b c : Word} {n : Nat} (hc : c < 16) : (small b n).bblock c = b := by
  have h₁ := div_toNat c
  show c / 8192 + b = b
  generalize c / 8192 = d at h₁
  bv_omega

theorem free_map_is_set_small : (small 3 4).IsSet := by
  refine free_map_is_set ⟨by decide, fun c hc _ => ?_⟩ (by decide)
  rw [small_bblock hc]
  decide

/-- A map that offers its own block, and one of more than 2^31 bits. -/
theorem free_map_not_set : ((small 2 2).bit 0 = true ∧ ¬ (small 2 2).IsSet) ∧
    (tooLarge (2 ^ 31 + 1) 46).Ok ∧ ¬ (tooLarge (2 ^ 31 + 1) 46).IsSet := by
  refine ⟨⟨by decide, fun h => ?_⟩, tooLarge_ok .., tooLarge_not_isSet 46 (by decide)⟩
  obtain ⟨n, hn⟩ := h.balloc
  obtain ⟨r, t, hrun, hres⟩ := hn (n + 1) (by omega)
  have hfree : freeBitFrom ((small 2 2).blk ((small 2 2).bblockInt 0)) 0 16 bpb 0 = some 2 := by decide +kernel
  rw [balloc, ballocFrom, if_pos (by decide)] at hrun
  simp only [show (small 2 2).size = 16 from rfl, hfree, Option.some.injEq, Prod.mk.injEq] at hrun
  obtain ⟨rfl, rfl⟩ := hrun
  rcases hres with ⟨h₀, -⟩ | ⟨-, htaken, -⟩
  · exact absurd h₀ (by decide)
  · exact absurd (htaken.bits 0 ⟨0, by decide, rfl⟩) (by decide +kernel)

end Bitmap

end Xv6.Fs
