import Xv6.Exec.Exec
import Xv6.Fs.View
import Xv6.Vm.Image

/-!
# The image of a program

What `kexec` makes of a file and of the argument strings, if there is memory for it: the pages of the
new image with their flags and bytes, and where its stack starts.
-/

namespace Xv6.Exec

open Lib Fs Vm

/-! ## Segments -/

/-- The program header at an offset of the file. -/
def headerAt (f : FileView) (off : Nat) : Option ProgHdr :=
  if off + progHdrSize ≤ f.size then some (ProgHdr.read fun i => f.byte (off + i)) else none

/-- What the headers so far have led to. -/
structure Prog where
  sz : Nat
  image : Image

/-- Room for a segment. -/
def Prog.extend (m : Prog) (ph : ProgHdr) : Prog :=
  if ph.last < m.sz then m
  else ⟨ph.last, m.image.grow (npages ph.last) (allocPerm (flags2perm ph.flags))⟩

/-- The bytes of a segment that are in the file. -/
def Prog.fill (m : Prog) (f : FileView) (ph : ProgHdr) : Prog :=
  { m with image := m.image.write ph.vaddr (fun i => f.byte (ph.off % 2 ^ 32 + i)) (ph.filesz % 2 ^ 32) }

/-- The fields of a header that is to be loaded are in order. -/
def ProgHdr.Sound (ph : ProgHdr) (f : FileView) : Prop :=
  ph.filesz ≤ ph.memsz ∧ ph.vaddr ≤ ph.last ∧
    (ph.filesz % 2 ^ 32 = 0 ∨ ph.off % 2 ^ 32 + ph.filesz % 2 ^ 32 ≤ f.size)

instance (ph : ProgHdr) (f : FileView) : Decidable (ph.Sound f) := inferInstanceAs (Decidable (_ ∧ _ ∧ _))

/-- One header. -/
def Prog.load (m : Prog) (f : FileView) (ph : ProgHdr) : Option Prog :=
  if ph.type ≠ elfProgLoad then some m
  else if ph.Sound f ∧ (m.extend ph).sz ≠ 0 then some ((m.extend ph).fill f ph)
  else none

/-- `n` headers from `off` on. -/
def Prog.loadAll (f : FileView) : Nat → Nat → Prog → Option Prog
  | 0, _, m => some m
  | n + 1, off, m => do Prog.loadAll f n (off + progHdrSize) (← m.load f (← headerAt f off))

/-- The address behind a segment. -/
def ProgHdr.stop (ph : ProgHdr) : Nat := ph.vaddr + ph.memsz

/-- The headers from `off` on, `n` of them, as far as the file goes. -/
def headers (f : FileView) : Nat → Nat → List ProgHdr
  | 0, _ => []
  | n + 1, off => (headerAt f off).toList ++ headers f n (off + progHdrSize)

/-- The segments to be loaded, in the order of their headers. The offset of the headers goes through
an `int`, which matters only if it lies outside of the file. -/
def segments (f : FileView) : List ProgHdr :=
  let elf := ElfHdr.read f.byte
  (headers f elf.phnum (elf.phoff % 2 ^ 32)).filter fun ph => ph.type = elfProgLoad

/-- The end of the last segment. -/
def progEnd (f : FileView) : Nat := ((segments f).getLast?.map ProgHdr.stop).getD 0

/-- The address ranges ascend and do not overlap. -/
def Ascending (segs : List ProgHdr) : Prop := segs.Pairwise fun ph ph' => ph.stop ≤ ph'.vaddr

/-! ## Permissions -/

def ProgHdr.Writes (ph : ProgHdr) : Prop := ph.flags.testBit 1 = true

def ProgHdr.Executes (ph : ProgHdr) : Prop := ph.flags.testBit 0 = true

instance (ph : ProgHdr) : Decidable ph.Writes := inferInstanceAs (Decidable (_ = _))

instance (ph : ProgHdr) : Decidable ph.Executes := inferInstanceAs (Decidable (_ = _))

/-- A byte of the segment is in page `v`. -/
def ProgHdr.InPage (ph : ProgHdr) (v : Nat) : Prop := ∃ a, ph.vaddr ≤ a ∧ a < ph.stop ∧ a / pgSize = v

/-- The page has the permissions of the segments with bytes in it. -/
structure Honours (segs : List ProgHdr) (flags : Nat → Option Pte) (v : Nat) : Prop where
  write : ∀ ph ∈ segs, ph.InPage v → ph.Writes → ∃ x, flags v = some x ∧ x.has pteW = true
  execute : ∀ ph ∈ segs, ph.InPage v → ph.Executes → ∃ x, flags v = some x ∧ x.has pteX = true
  readOnly : (∃ ph ∈ segs, ph.InPage v) → (∀ ph ∈ segs, ph.InPage v → ¬ ph.Writes) →
    ∃ x, flags v = some x ∧ x.has pteW = false

/-- The first segment that ends behind the start of page `v`, if there is a byte of a segment in the
page, may be written just if one of those with a byte in it may, and executed if one of those may. -/
def Agree (segs : List ProgHdr) (v : Nat) : Prop :=
  (∃ ph ∈ segs, ph.InPage v) → ∀ first, segs.find? (fun ph => v < npages ph.stop) = some first →
    (first.Writes ↔ ∃ ph ∈ segs, ph.InPage v ∧ ph.Writes) ∧ ((∃ ph ∈ segs, ph.InPage v ∧ ph.Executes) → first.Executes)

/-! ## Arguments -/

/-- A string with the zero byte at its end. -/
def putString (m : Image) (sp : Nat) (str : List Byte) : Image :=
  m.write sp (fun i => (str ++ [0]).getD i 0) (str.length + 1)

/-- The strings are put below each other, from `sp` down to `base` at most: where each one is, the
start of the last, and the image with them. -/
def placeStrings (base : Nat) : List (List Byte) → Nat → Image → Option (List Nat × Nat × Image)
  | [], sp, m => some ([], sp, m)
  | str :: rest, sp, m =>
      let sp := pushDown sp (str.length + 1)
      if sp < base then none
      else (placeStrings base rest sp (putString m sp str)).map fun x => (sp :: x.1, x.2)

/-- The words in memory order. -/
def words (ptrs : List Nat) : Bytes := fun i => BitVec.ofNat 8 (ptrs.getD (i / 8) 0 / 256 ^ (i % 8))

/-- The strings, and below them the array of pointers to them, with a zero at its end. -/
def placeArgs (base sz : Nat) (strs : List (List Byte)) (m : Image) : Option (List Nat × Nat × Image) := do
  let (ptrs, sp, m) ← placeStrings base strs sz m
  let sp := pushDown sp ((strs.length + 1) * 8)
  if sp < base then none
  else some (ptrs, sp, m.write sp (words ptrs) ((strs.length + 1) * 8))

/-- `sp -= n; sp -= sp % 16`, in integers that have no end. -/
def down (sp : Int) (n : Nat) : Int := (sp - n) / 16 * 16

/-- Where the array of pointers starts, if the strings are put below each other from `sz` on. -/
def argsEnd (sz : Nat) (strs : List (List Byte)) : Int :=
  down (strs.foldl (fun sp str => down sp (str.length + 1)) sz) ((strs.length + 1) * 8)

/-- The arguments fit on the stack. -/
def ArgsFit (strs : List (List Byte)) : Prop := 0 ≤ argsEnd (userStack * pgSize) strs

/-- The arguments as a user finds them in a memory of `sz` bytes: at `sp` the pointers with a zero behind
them, and above that the strings, each with a zero behind it and none on another. No subtraction on the
way to `sp` wrapped. -/
structure Passed (strs : List (List Byte)) (sz sp : Nat) (ptrs : List Nat) (user : Bytes) : Prop where
  length : ptrs.length = strs.length
  aligned : sp % 16 = 0
  inside : sz - userStack * pgSize ≤ sp ∧ sp < sz
  pointers : ∀ i, i < strs.length → load 8 user (sp + i * 8) = ptrs.getD i 0
  last : load 8 user (sp + strs.length * 8) = 0
  string : ∀ x ∈ strs.zip ptrs, x.2 % 16 = 0 ∧ sz - userStack * pgSize ≤ x.2 ∧ x.2 + (x.1.length + 1) ≤ sz ∧
    ∀ k, k < x.1.length + 1 → user (x.2 + k) = (x.1 ++ [0]).getD k 0
  below : ∀ x ∈ strs.zip ptrs, sp + (strs.length + 1) * 8 ≤ x.2
  apart : (strs.zip ptrs).Pairwise fun x y => y.2 + (y.1.length + 1) ≤ x.2
  exact_ : (sp : Int) = argsEnd sz strs

/-! ## The program -/

structure Plan where
  entry : Nat
  sz : Nat
  sp : Nat
  ptrs : List Nat
  image : Image

/-- Two pages above the program: a guard, which a user cannot reach, and the stack. -/
def Prog.withStack (m : Prog) : Prog :=
  let n := npages m.sz
  ⟨(n + 2) * pgSize, (m.image.grow (n + 2) (allocPerm pteW)).clear n pteU⟩

/-- The arguments go on the stack. -/
def Prog.start (m : Prog) (entry : Nat) (strs : List (List Byte)) : Option Plan :=
  let m := m.withStack
  (placeArgs (m.sz - pgSize) m.sz strs m.image).map fun x => ⟨entry, m.sz, x.2.1, x.1, x.2.2⟩

def plan (f : FileView) (strs : List (List Byte)) : Option Plan :=
  if f.size < elfHdrSize then none
  else
    let elf := ElfHdr.read f.byte
    if elf.magic ≠ elfMagic then none
    else (Prog.loadAll f elf.phnum (elf.phoff % 2 ^ 32) ⟨0, .empty⟩).bind fun m => m.start elf.entry strs

end Xv6.Exec
