import Xv6.Exec.System
import Xv6.Mkfs.Lemmas.Main
import Xv6.Vm.Lemmas.Boot

/-!
# A machine with one program

For every file there is a machine with that file in its root directory, and a process with an empty
memory of its own that has the root as its current directory.
-/

namespace Xv6.Exec

open Lib Fs Vm

/-! ## The file system -/

/-- The name of the program. -/
def progName : List Byte := [97#8]

theorem progName_ok : Mkfs.ArgOk progName := ⟨by decide, by decide, by decide⟩

theorem progRoot_slot (data : List Byte) {k : Nat} (hk : k < 3) :
    (Mkfs.dirOf (Mkfs.rootEntries [(progName, data)])).slot k =
      ([⟨rootIno, dot⟩, ⟨rootIno, dotdot⟩, ⟨2, progName⟩] : List Dirent).get ⟨k, hk⟩ := by
  have hok : ∀ de ∈ Mkfs.rootEntries [(progName, data)], Mkfs.EntryOk de := by
    refine Mkfs.rootEntries_ok (show 3 ≤ Mkfs.nInodes by decide) fun a ha => ?_
    obtain rfl := List.mem_singleton.1 ha
    exact progName_ok
  exact Mkfs.slot_dirOf hok hk

theorem progRoot_find (data : List Byte) : (Mkfs.dirOf (Mkfs.rootEntries [(progName, data)])).find progName = some 2 := by
  have hn : (Mkfs.dirOf (Mkfs.rootEntries [(progName, data)])).nslots = 3 := Mkfs.nslots_dirOf _
  have h₀ := progRoot_slot data (k := 0) (by decide)
  have h₁ := progRoot_slot data (k := 1) (by decide)
  have h₂ := progRoot_slot data (k := 2) (by decide)
  unfold FileView.find
  rw [hn, show List.range 3 = [0, 1, 2] from rfl, List.find?_cons_of_neg (by rw [h₀]; decide),
    List.find?_cons_of_neg (by rw [h₁]; decide), List.find?_cons_of_pos (by rw [h₂]; decide)]

/-- The inodes of the image. -/
def progInodes (i : Nat) : Prop := i = rootIno ∨ i = 2

theorem exists_fs {data : List Byte} (hlen : data.length ≤ maxFile * bsize) :
    ∃ s : Fs, Fs.Ok s ∧ Fs.Tree s progInodes ∧ (∀ e, (s.inode e).locked = false) ∧ s.At 0 rootIno ∧
      (resolve s.file rootIno [progName]).bind s.file = some (Mkfs.dataFile data) ∧ ∀ e, e ≠ 0 → (s.inode e).ref = 0 := by
  obtain ⟨m, hm⟩ := Mkfs.exists_one progName_ok hlen
  obtain ⟨s, hok, -, -, hent, -, hfile, hlock, hother⟩ := hm.built.held (i := rootIno) rfl []
  have hroot : s.file rootIno = some (Mkfs.dirOf (Mkfs.rootEntries [(progName, data)])) := hent.file
  have hdata : s.file 2 = some (Mkfs.dataFile data) := by
    rw [hfile]
    rfl
  refine ⟨s, hok, ⟨?_, ?_, ?_⟩, fun e => ?_, hent.at_, ?_, fun e he => (hother e he).1⟩
  · rintro i (rfl | rfl)
    · exact ⟨_, hroot, .inr (hok.table.refs_pos.2 ⟨0, hent.at_⟩)⟩
    · exact ⟨_, hdata, .inl (show 1 ≠ 0 by decide)⟩
  · rintro i f (rfl | rfl) hf ht
    · rw [hroot] at hf
      obtain rfl := Option.some.inj hf
      exact ⟨3, Mkfs.size_dirOf _⟩
    · rw [hdata] at hf
      obtain rfl := Option.some.inj hf
      exact absurd ht (show tFile ≠ tDir by decide)
  · rintro i f k (rfl | rfl) hf ht hk -
    · rw [hroot] at hf
      obtain rfl := Option.some.inj hf
      rw [Mkfs.nslots_dirOf] at hk
      rw [progRoot_slot data hk]
      have hcases : k = 0 ∨ k = 1 ∨ k = 2 := by
        have hk' : k < 3 := hk
        omega
      rcases hcases with rfl | rfl | rfl
      · exact .inl rfl
      · exact .inl rfl
      · exact .inr rfl
    · rw [hdata] at hf
      obtain rfl := Option.some.inj hf
      exact absurd ht (show tFile ≠ tDir by decide)
  · by_cases he : e = 0
    · rw [he]
      exact hlock
    · exact (hother e he).2
  · have hinum : ((Mkfs.dirOf (Mkfs.rootEntries [(progName, data)])).slot 2).inum = 2 := by
      rw [progRoot_slot data (by decide)]
      rfl
    rw [resolve, hroot]
    simp only [Mkfs.type_dirOf, ne_eq, not_true_eq_false, if_false, progRoot_find, hinum]
    exact hdata

/-! ## Memory -/

theorem kinit_live {s₀ s : Ram} (hb : kernBase ≤ s₀.kend) (hk : s₀.kend ≤ physTop) (hf : s₀.freelist = [])
    (hs : kinit s₀ = .ok () s) : Vm.Inv userPages (View.fresh s) s ∧ Live (View.fresh s) s := by
  have hinit : wp kinit (fun _ t => Vm.Inv userPages (View.fresh t) t ∧ t.kend = s₀.kend) (fun _ _ => True) s₀ := kinit_spec hb hk hf
  refine ⟨(wp_ok hinit hs).1, fun p hp => ?_⟩
  rw [fresh_role] at hp
  split at hp <;> cases hp

/-- A memory in which the kernel ends 64 pages below `PHYSTOP`. -/
def bootRam : Ram where
  mem _ _ := 0
  freelist := []
  krefcount _ := 0
  kend := 0x3FFC0000
  trampolinePage := kernBase
  kfail := false

theorem bootRam_pages : returns kinit (fun _ s => s.freelist.length == 64) bootRam = true := by decide +kernel

theorem exists_boot : ∃ g s, Vm.Inv userPages g s ∧ Live g s ∧ s.freelist.length = 64 := by
  obtain ⟨_, s, hs, hlen⟩ := of_returns bootRam_pages
  have hk : bootRam.kend ≤ physTop := by
    rw [physTop_eq]
    decide
  obtain ⟨hI, hl⟩ := kinit_live (by decide) hk rfl hs
  exact ⟨_, s, hI, hl, by simpa using hlen⟩

theorem exists_kern {g : View} {s : Ram} (hI : Vm.Inv userPages g s) (hl : Live g s) (hpos : 0 < s.freelist.length) :
    ∃ p t, Vm.Inv userPages (g.setRole p .kern) t ∧ Live (g.setRole p .kern) t ∧ s.freelist.length = t.freelist.length + 1 ∧
      g.role p = .free ∧ t.mem p = fun _ => 0 := by
  have hk : wp kalloc (fun res t => ∃ p, res = some p ∧ Vm.Allocated userPages g s p t) (fun _ _ => False) s := by
    refine wp_kalloc hI (fun hnil => ?_) fun p t ha => ⟨p, rfl, ha⟩
    rw [hnil] at hpos
    cases hpos
  obtain ⟨_, t, -, p, -, ha⟩ := wp_returns hk
  exact ⟨p, t, ha.inv, (ha.apart hI ∅).live hl, ha.length, ha.role, ha.zero⟩

theorem stringAt_one {s : Ram} {p : Nat} {c : Byte} (h₀ : s.mem p 0 = c) (hc : c ≠ 0) (h₁ : s.mem p 1 = 0) : stringAt s p = [c] := by
  have hrange : List.range pgSize = 0 :: 1 :: (List.range 4094).map (· + 2) := by
    rw [show pgSize = 4094 + 1 + 1 from rfl, List.range_succ_eq_map, List.range_succ_eq_map, List.map_cons, List.map_map]
    rfl
  unfold stringAt Ram.read
  rw [hrange, List.map_cons, List.map_cons, List.takeWhile_cons_of_pos (by simpa [h₀] using hc),
    List.takeWhile_cons_of_neg (by simpa using h₁)]
  exact congrArg (fun x => [x]) h₀

/-- The string of the argument. -/
def argName : List Byte := [98#8]

theorem exists_ram : ∃ g s tf arg r, Vm.Inv userPages g s ∧ Live g s ∧ g.role r = .table r 2 0 ∧ g.Within r 0 ∧
    g.role tf = .kern ∧ g.role arg = .kern ∧ stringAt s arg = argName ∧ 50 ≤ s.freelist.length := by
  obtain ⟨g₀, s₀, hI₀, hl₀, hn₀⟩ := exists_boot
  obtain ⟨tf, s₁, hI₁, hl₁, hn₁, -, -⟩ := exists_kern hI₀ hl₀ (by omega)
  obtain ⟨arg, s₂, hI₂, hl₂, hn₂, hfree, hz⟩ := exists_kern hI₁ hl₁ (by omega)
  have hne : tf ≠ arg := fun he => by
    rw [← he, setRole_role_self] at hfree
    cases hfree
  have harg : ((g₀.setRole tf .kern).setRole arg .kern).role arg = .kern := setRole_role_self _ _ _
  have htf : ((g₀.setRole tf .kern).setRole arg .kern).role tf = .kern := by
    rw [setRole_role_of_ne hne, setRole_role_self]
  have hI₃ := hI₂.write (.inl harg) 0 argName
  have hl₃ : Live ((g₀.setRole tf .kern).setRole arg .kern) (s₂.write arg 0 argName) := hl₂
  have hmem : (s₂.write arg 0 argName).mem arg = blit (fun _ => 0) 0 (fun i => argName.getD i 0) 0 1 := by
    rw [write_mem_self, hz]
    rfl
  have hnew := procPagetable_spec (p := ⟨0, tf, 0⟩) (E := fun _ _ => False) hI₃ (Nat.le_refl _)
  obtain ⟨res, t, -, ⟨-, hshort, -⟩ | ⟨r, h, -, hn⟩⟩ := wp_returns hnew
  · have h₁ : (s₂.write arg 0 argName).freelist.length = s₂.freelist.length := rfl
    omega
  · obtain ⟨harg', hbytes⟩ := hn.planted.apart.kern arg harg
    refine ⟨h, t, tf, arg, r, hn.planted.inv, hn.planted.apart.live hl₃, hn.planted.root, hn.within,
      (hn.planted.apart.kern tf htf).1, harg', ?_, ?_⟩
    · refine stringAt_one ?_ (by decide) ?_
      · rw [hbytes, hmem]
        rfl
      · rw [hbytes, hmem]
        rfl
    · have h₁ := hn.length.2
      have h₂ : (s₂.write arg 0 argName).freelist.length = s₂.freelist.length := rfl
      omega

theorem exists_machine (data : List Byte) (hlen : data.length ≤ maxFile * bsize) :
    ∃ g M arg, MemOk g M ∧ FsOk progInodes rootIno M ∧ ArgsOk g M.ram [arg] ∧ strings M.ram [arg] = [argName] ∧
      program M rootIno progName = some (Mkfs.dataFile data) ∧ 50 ≤ M.ram.freelist.length ∧
      (M.fs.inode 1).ref = 0 ∧ (M.fs.inode 2).ref = 0 := by
  obtain ⟨s, hok, htree, hlock, hat, hres, hfree⟩ := exists_fs hlen
  obtain ⟨g, ram, tf, arg, r, hI, hl, hroot, hw, htf, harg, hstr, hn⟩ := exists_ram
  have hw' : g.Within r (npages 0) := hw
  have hsz : npages 0 ≤ userPages := Nat.zero_le _
  refine ⟨g, ⟨s, ram, ⟨⟨r, tf, 0⟩, 0, []⟩, 0⟩, arg, ⟨hI, hl, hroot, hw', hsz, htf⟩,
    ⟨hok, htree, hlock, hat, .inl rfl, .inl rfl⟩, ⟨fun a ha => ?_, fun a ha => ?_⟩, ?_, ?_, hn, hfree 1 (by decide), hfree 2 (by decide)⟩
  · rw [List.mem_singleton.1 ha]
    exact harg
  · rw [List.mem_singleton.1 ha, hstr]
    decide
  · rw [strings, List.map_singleton, hstr]
  · exact hres

end Xv6.Exec
