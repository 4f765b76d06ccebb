import Xv6.Vm.Kalloc

/-!
# Page tables and user memory (`vm.c`)

A pointer to an entry is the address of the page-table page it lies in and its index. A function
that returns a pointer or 0 in the source returns an `Option`.
-/

namespace Xv6.Vm

open Xv6.Lib

/-! ## Page tables -/

/-- The entry at index `i` of the page-table page `t`. -/
def Ram.pte (s : Ram) (t i : Nat) : Pte := BitVec.ofNat 64 (load 8 (s.mem t) (8 * i))

def Ram.setPte (s : Ram) (t i : Nat) (x : Pte) : Ram :=
  { s with mem := Function.update s.mem t (store 8 (s.mem t) (8 * i) x.toNat) }

def writePte (slot : Nat × Nat) (x : Pte) : K Unit := modify fun s => s.setPte slot.1 slot.2 x

def readPte (slot : Nat × Nat) : K Pte := do return (← get).pte slot.1 slot.2

/-- The loop of `walk`, from `level` down. -/
def walkFrom (va : Nat) (alloc : Bool) : Nat → Nat → K (Option (Nat × Nat))
  | 0, pagetable => pure (some (pagetable, px 0 va))
  | level + 1, pagetable => do
      let pte ← readPte (pagetable, px (level + 1) va)
      if pte.has pteV then walkFrom va alloc level (pte2pa pte)
      else if !alloc then pure none
      else
        match ← kalloc with
        | none => pure none
        | some page => do
            modify fun s => s.memset page 0
            writePte (pagetable, px (level + 1) va) (pa2pte page ||| pteV)
            walkFrom va alloc level page

def walk (pagetable va : Nat) (alloc : Bool) : K (Option (Nat × Nat)) :=
  if maxVa ≤ va then panic .walk else walkFrom va alloc 2 pagetable

/-- The loop of `mappages`: the page at `a` and the `n` pages after it. -/
def mappagesLoop (pagetable : Nat) (perm : Pte) : Nat → Nat → Nat → K Int
  | n, a, pa => do
      match ← walk pagetable a true with
      | none => pure (-1)
      | some slot => do
          if (← readPte slot).has pteV then panic .remap
          else
            writePte slot (pa2pte pa ||| perm ||| pteV)
            match n with
            | 0 => pure 0
            | n + 1 => mappagesLoop pagetable perm n ((a + pgSize) % 2 ^ 64) ((pa + pgSize) % 2 ^ 64)

/-- `last` is reached from `a` in steps of a page, around the end of the address space if need be. -/
def mappages (pagetable va size pa : Nat) (perm : Pte) : K Int :=
  let a := pgRoundDown va
  let last := pgRoundDown ((va + size + (2 ^ 64 - 1)) % 2 ^ 64)
  mappagesLoop pagetable perm ((last + (2 ^ 64 - a)) % 2 ^ 64 / pgSize) a pa

/-- An iteration of the loop of `uvmunmap`. -/
def unmapPage (pagetable a : Nat) (doFree : Bool) : K Unit := do
  match ← walk pagetable a false with
  | none => pure ()
  | some slot => do
      let pte ← readPte slot
      if !pte.has pteV then pure ()
      else
        if doFree ∧ kernBase ≤ pte2pa pte ∧ pte2pa pte < physTop then kfree (pte2pa pte)
        writePte slot 0

def uvmunmap (pagetable va npages : Nat) (doFree : Bool) : K Unit :=
  if va % pgSize ≠ 0 then panic .notAligned
  else
    -- the source compares `a` with `va + npages*PGSIZE`, computed in 64 bits
    let last := (va + npages * pgSize) % 2 ^ 64
    forN (fun i => unmapPage pagetable (va + i * pgSize) doFree) ((last - va) / pgSize) 0

/-- `freewalk`, to the given depth of recursion. A page table has three levels of page-table pages,
so a call that needs more than three does not come back. -/
def freewalk : Nat → Nat → K Unit
  | 0, _ => throw .sleep
  | depth + 1, pagetable => do
      forN (fun i => do
        let pte ← readPte (pagetable, i)
        if pte.has pteV ∧ !pte.has (pteR ||| pteW ||| pteX) then
          freewalk depth (pte2pa pte)
          writePte (pagetable, i) 0
        else if pte.has pteV then panic .freewalkLeaf
        else pure ()) 512 0
      kfree pagetable

/-! ## User memory -/

def uvmcreate : K (Option Nat) := do
  match ← kalloc with
  | none => pure none
  | some pagetable => do
      modify fun s => s.memset pagetable 0
      pure (some pagetable)

def uvmdealloc (pagetable oldsz newsz : Nat) : K Nat := do
  if oldsz ≤ newsz then pure oldsz
  else
    if pgRoundUp newsz < pgRoundUp oldsz then
      -- `npages` is an `int` in the source
      let npages := throughInt ((pgRoundUp oldsz - pgRoundUp newsz) / pgSize)
      uvmunmap pagetable (pgRoundUp newsz) npages true
    pure newsz

/-- The loop of `uvmalloc`: `n` pages from `a` on. `oldsz` is the rounded old size. -/
def uvmallocLoop (pagetable oldsz newsz : Nat) (xperm : Pte) : Nat → Nat → K Nat
  | 0, _ => pure newsz
  | n + 1, a => do
      match ← kalloc with
      | none => do
          let _ ← uvmdealloc pagetable a oldsz
          pure 0
      | some mem => do
          modify fun s => s.memset mem 0
          if (← mappages pagetable a pgSize mem
              (pteR ||| pteU ||| xperm ||| pteA ||| pteD ||| pteMaee)) ≠ 0 then
            kfree mem
            let _ ← uvmdealloc pagetable a oldsz
            pure 0
          else uvmallocLoop pagetable oldsz newsz xperm n (a + pgSize)

def uvmalloc (pagetable oldsz newsz : Nat) (xperm : Pte) : K Nat :=
  if newsz < oldsz then pure oldsz
  else
    let a := pgRoundUp oldsz
    uvmallocLoop pagetable a newsz xperm ((newsz - a + (pgSize - 1)) / pgSize) a

def uvmfree (pagetable sz : Nat) : K Unit := do
  if 0 < sz then uvmunmap pagetable 0 (pgRoundUp sz / pgSize) true
  freewalk 3 pagetable

/-- The flags for the child, and in the parent's entry: a writable page becomes copy-on-write. -/
def shareEntry (slot : Nat × Nat) (pte : Pte) : K Pte := do
  let flags := pteFlags pte
  if flags.has pteW then
    writePte slot ((pte &&& ~~~(pteW ||| pteCow)) ||| pteCow)
    pure ((flags ||| pteCow) &&& ~~~pteW)
  else pure flags

/-- An iteration of the loop of `uvmcopy`: 0, or -1 for `goto err`. -/
def copyEntry (old new i : Nat) : K Int := do
  match ← walk old i false with
  | none => pure 0
  | some slot => do
      let pte ← readPte slot
      if !pte.has pteV then pure 0
      else
        krefpage (pte2pa pte)
        let flags ← shareEntry slot pte
        mappages new i pgSize (pte2pa pte) flags

/-- The loop of `uvmcopy`: `n` pages from `i` on. -/
def uvmcopyLoop (old new : Nat) : Nat → Nat → K Int
  | 0, _ => pure 0
  | n + 1, i => do
      if (← copyEntry old new i) ≠ 0 then
        uvmunmap new 0 (i / pgSize) true
        pure (-1)
      else uvmcopyLoop old new n (i + pgSize)

def uvmcopy (old new sz : Nat) : K Int := uvmcopyLoop old new ((sz + (pgSize - 1)) / pgSize) 0

def ismapped (pagetable va : Nat) : K Bool := do
  match ← walk pagetable va false with
  | none => pure false
  | some slot => return (← readPte slot).has pteV

def walkaddr (pagetable va : Nat) : K (Option Nat) := do
  if maxVa ≤ va then pure none
  else
    match ← walk pagetable va false with
    | none => pure none
    | some slot => do
        let pte ← readPte slot
        if pte.has pteV ∧ pte.has pteU then pure (some (pte2pa pte)) else pure none

def uvmclear (pagetable va : Nat) : K Unit := do
  match ← walk pagetable va false with
  | none => panic .uvmclear
  | some slot => do writePte slot ((← readPte slot) &&& ~~~pteU)

/-! ## Faults, and copies between the kernel and a user -/

/-- The fields of `struct proc` that this code reads. -/
structure Proc where
  pagetable : Nat
  trapframe : Nat
  sz : Nat
  deriving DecidableEq, Repr

/-- The page table of a new process; nothing where the source returns 0. -/
def procPagetable (p : Proc) : K (Option Nat) := do
  match ← uvmcreate with
  | none => pure none
  | some pagetable => do
      let code := (← get).trampolinePage
      if (← mappages pagetable trampoline pgSize code (pteR ||| pteX ||| pteA)) < 0 then
        uvmfree pagetable 0
        pure none
      else if (← mappages pagetable trapframe pgSize p.trapframe
          (pteR ||| pteW ||| pteA ||| pteD ||| pteMaee)) < 0 then
        uvmunmap pagetable trampoline 1 false
        uvmfree pagetable 0
        pure none
      else pure (some pagetable)

def procFreepagetable (pagetable sz : Nat) : K Unit := do
  uvmunmap pagetable trampoline 1 false
  uvmunmap pagetable trapframe 1 false
  uvmfree pagetable sz

/-- The copy-on-write branch of `vmfault`. -/
def cowFault (slot : Nat × Nat) (pte : Pte) : K (Option Nat) := do
  match ← kalloc with
  | none => pure none
  | some mem => do
      modify fun s => s.copyPage mem (pte2pa pte)
      writePte slot (pa2pte mem ||| ((pteFlags pte ||| pteW) &&& ~~~pteCow) ||| pteV)
      kfree (pte2pa pte)
      pure (some mem)

/-- The lazy branch of `vmfault`. -/
def lazyFault (p : Proc) (va : Nat) : K (Option Nat) := do
  match ← kalloc with
  | none => pure none
  | some mem => do
      modify fun s => s.memset mem 0
      if (← mappages p.pagetable va pgSize mem
          (pteW ||| pteU ||| pteR ||| pteA ||| pteD ||| pteMaee)) ≠ 0 then
        kfree mem
        pure none
      else pure (some mem)

/-- The process `p` is `myproc()`. The argument `read` of the source is not used there. -/
def vmfault (p : Proc) (pagetable va : Nat) : K (Option Nat) := do
  if p.sz ≤ va then pure none
  else
    let va := pgRoundDown va
    if ← ismapped pagetable va then
      match ← walk pagetable va false with
      | none => pure none
      | some slot => do
          let pte ← readPte slot
          if pte.has pteCow then cowFault slot pte else pure none
    else lazyFault p va

/-- What `copyout` does for the page at `va0` before it copies: the physical page, or nothing for
`return -1`. -/
def copyoutPage (p : Proc) (pagetable va0 : Nat) : K (Option Nat) := do
  let pa0 ←
    match ← walkaddr pagetable va0 with
    | none => vmfault p pagetable va0
    | some pa => do
        match ← walk pagetable va0 false with
        | none => pure (some pa)
        | some slot => do
            if (← readPte slot).has pteCow then vmfault p pagetable va0 else pure (some pa)
  match pa0 with
  | none => pure none
  | some pa => do
      match ← walk pagetable va0 false with
      | none => panic .exception
      | some slot => do if (← readPte slot).has pteW then pure (some pa) else pure none

/-- The loop of `copyout`; an iteration copies a byte at least, so `src.length` bounds their
number. -/
def copyoutLoop (p : Proc) (pagetable : Nat) : Nat → Nat → List (BitVec 8) → K Int
  | 0, _, _ => pure 0
  | fuel + 1, dstva, src => do
      if src = [] then pure 0
      else
        let va0 := pgRoundDown dstva
        if maxVa ≤ va0 then pure (-1)
        else
          match ← copyoutPage p pagetable va0 with
          | none => pure (-1)
          | some pa0 => do
              let n := min (pgSize - (dstva - va0)) src.length
              modify fun s => s.write pa0 (dstva - va0) (src.take n)
              copyoutLoop p pagetable fuel (va0 + pgSize) (src.drop n)

def copyout (p : Proc) (pagetable dstva : Nat) (src : List (BitVec 8)) : K Int :=
  copyoutLoop p pagetable src.length dstva src

def copyinPage (p : Proc) (pagetable va0 : Nat) : K (Option Nat) := do
  match ← walkaddr pagetable va0 with
  | none => vmfault p pagetable va0
  | some pa => pure (some pa)

/-- The loop of `copyin`: the result and the bytes stored at `dst`. -/
def copyinLoop (p : Proc) (pagetable : Nat) : Nat → Nat → Nat → K (Int × List (BitVec 8))
  | 0, _, _ => pure (0, [])
  | fuel + 1, srcva, len => do
      if len = 0 then pure (0, [])
      else
        let va0 := pgRoundDown srcva
        match ← copyinPage p pagetable va0 with
        | none => pure (-1, [])
        | some pa0 => do
            let n := min (pgSize - (srcva - va0)) len
            let bytes := (← get).read pa0 (srcva - va0) n
            let (r, rest) ← copyinLoop p pagetable fuel (va0 + pgSize) (len - n)
            pure (r, bytes ++ rest)

def copyin (p : Proc) (pagetable srcva len : Nat) : K (Int × List (BitVec 8)) :=
  copyinLoop p pagetable len srcva len

/-- The loop of `copyinstr`: whether the end of the string was found, and the bytes stored at `dst`. -/
def copyinstrLoop (pagetable : Nat) : Nat → Nat → Nat → K (Bool × List (BitVec 8))
  | 0, _, _ => pure (false, [])
  | fuel + 1, srcva, max => do
      if max = 0 then pure (false, [])
      else
        let va0 := pgRoundDown srcva
        if maxVa ≤ va0 then pure (false, [])
        else
          match ← walk pagetable va0 false with
          | none => pure (false, [])
          | some slot => do
              let pte ← readPte slot
              if !pte.has pteV ∨ !pte.has pteU then pure (false, [])
              else
                let n := min (pgSize - (srcva - va0)) max
                let bytes := (← get).read (pte2pa pte) (srcva - va0) n
                let str := bytes.takeWhile (· != 0)
                if str.length < n then pure (true, str ++ [0])
                else
                  let (found, rest) ← copyinstrLoop pagetable fuel (va0 + pgSize) (max - n)
                  pure (found, bytes ++ rest)

def copyinstr (pagetable srcva max : Nat) : K (Bool × List (BitVec 8)) :=
  copyinstrLoop pagetable max srcva max

end Xv6.Vm
