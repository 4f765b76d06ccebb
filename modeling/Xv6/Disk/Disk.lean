import Mathlib.Logic.Function.Basic
import Xv6.Lib.Bytes
import Xv6.Param

/-!
# The disk drivers (`ramdisk.c`, `k230_sd.c`)

A request is for the block whose number the buffer holds. Block and sector numbers are 32-bit, and so
is the arithmetic on them.
-/

namespace Xv6.Disk

open Lib

/-- The fields of `struct buf` that the drivers use. `locked` says whether the caller holds the lock. -/
structure Buf where
  valid : Bool
  blockno : BitVec 32
  locked : Bool
  data : Bytes

/-! ## `ramdisk.c` -/

/-- The memory of the kernel, with the image from `fs_img_start` to `fs_img_end`. -/
structure RamDisk where
  mem : Bytes
  imgStart : Nat
  imgEnd : Nat
  le : imgStart ≤ imgEnd
  inMemory : imgEnd ≤ physTop

/-- `b->blockno * BSIZE`. Both factors have 32 bits; the product is widened only afterwards. -/
def diskaddr (blockno : BitVec 32) : Nat := (blockno * BitVec.ofNat 32 bsize).toNat

def ramdiskRw (b : Buf) (write : Bool) : EStateM Stop RamDisk Buf := do
  if !b.locked then throw (.panic .diskNotLocked)
  else
    let d ← get
    let addr := d.imgStart + diskaddr b.blockno
    if d.imgEnd < addr + bsize then throw (.panic .ramdiskBounds)
    else if write then
      set { d with mem := blit d.mem addr b.data 0 bsize }
      pure b
    else pure { b with data := blit b.data 0 d.mem addr bsize, valid := true }

/-! ## `k230_sd.c` -/

def sectorSize : Nat := 512

/-- The card, with the bytes of all its sectors, and the partition's first sector. `readOk` and
`writeOk` say for which sectors the card carries the command out. -/
structure Card where
  mem : Bytes
  fat32OffsetSector : BitVec 32
  readOk : BitVec 32 → Bool
  writeOk : BitVec 32 → Bool

/-- Reads a sector to offset `off` of `dst`; -1 where the source returns an error. -/
def sdReadSector (sector : BitVec 32) (dst : Bytes) (off : Nat) : EStateM Stop Card (Int × Bytes) := do
  let c ← get
  if c.readOk sector then pure (0, blit dst off c.mem (sector.toNat * sectorSize) sectorSize) else pure (-1, dst)

def sdWriteSector (sector : BitVec 32) (src : Bytes) (off : Nat) : EStateM Stop Card Int := do
  let c ← get
  if c.writeOk sector then
    set { c with mem := blit c.mem (sector.toNat * sectorSize) src off sectorSize }
    pure 0
  else pure (-1)

/-- The loop of `sd_disk_rw`: `n` sectors from the `i`-th on. -/
def sdLoop (start : BitVec 32) (write : Bool) : Nat → Nat → Bytes → EStateM Stop Card Bytes
  | 0, _, data => pure data
  | n + 1, i, data => do
      let current := start + BitVec.ofNat 32 i
      if write then
        if (← sdWriteSector current data (i * sectorSize)) ≠ 0 then throw (.panic .sdDiskRw)
        else sdLoop start write n (i + 1) data
      else
        let (ret, data) ← sdReadSector current data (i * sectorSize)
        if ret ≠ 0 then throw (.panic .sdDiskRw) else sdLoop start write n (i + 1) data

def sectorPerBlock : Nat := bsize / sectorSize

/-- `b->blockno * sector_per_block + fat32_offset_sector`. -/
def startSector (c : Card) (blockno : BitVec 32) : BitVec 32 :=
  blockno * BitVec.ofNat 32 sectorPerBlock + c.fat32OffsetSector

def sdDiskRw (b : Buf) (write : Bool) : EStateM Stop Card Buf := do
  let c ← get
  let data ← sdLoop (startSector c b.blockno) write sectorPerBlock 0 b.data
  pure { b with data := data }

/-! ## What a request reads or writes -/

/-- A disk driver, with the bytes of its device. -/
structure Driver (σ : Type) where
  rw : Buf → Bool → EStateM Stop σ Buf
  mem : σ → Bytes
  poke : σ → Nat → BitVec 8 → σ

def ramdisk : Driver RamDisk where
  rw := ramdiskRw
  mem := RamDisk.mem
  poke d x c := { d with mem := Function.update d.mem x c }

def sd : Driver Card where
  rw := sdDiskRw
  mem := Card.mem
  poke d x c := { d with mem := Function.update d.mem x c }

/-- Some request for block `n` that does not panic writes the byte at `x`, or gives data that depends
on it. -/
def Driver.Uses {σ : Type} (D : Driver σ) (s : σ) (n : BitVec 32) (x : Nat) : Prop :=
  (∃ b b' t, b.blockno = n ∧ D.rw b true s = .ok b' t ∧ D.mem t x ≠ D.mem s x) ∨
  ∃ b c b₁ b₂ t₁ t₂, b.blockno = n ∧ D.rw b false s = .ok b₁ t₁ ∧ D.rw b false (D.poke s x c) = .ok b₂ t₂ ∧ b₁.data ≠ b₂.data

/-- The two blocks have no byte of the device in common. -/
def Driver.Apart {σ : Type} (D : Driver σ) (s : σ) (m n : BitVec 32) : Prop := ∀ x, ¬ (D.Uses s m x ∧ D.Uses s n x)

/-- Every request for block `n` panics. -/
def Driver.Panics {σ : Type} (D : Driver σ) (s : σ) (n : BitVec 32) : Prop :=
  ∀ b write, b.blockno = n → ∃ e, D.rw b write s = .error (.panic e) s

end Xv6.Disk
