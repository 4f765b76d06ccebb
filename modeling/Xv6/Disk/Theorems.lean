import Xv6.Disk.Disk

/-!
# Theorems about the disk drivers
-/

namespace Xv6.Disk

open Lib Function

variable {d : RamDisk} {c : Card} {m n : BitVec 32} {b b' : Buf} {x : Nat}

/-! ## The bytes behind a block of the ramdisk -/

/-- The number of bytes of the image. -/
def RamDisk.size (d : RamDisk) : Nat := d.imgEnd - d.imgStart

/-- The bytes that `ramdisk_rw` computes for a block lie inside the image. -/
def RamDisk.InBounds (d : RamDisk) (n : BitVec 32) : Prop := diskaddr n + bsize ≤ d.size

theorem diskaddr_eq (n : BitVec 32) : diskaddr n = n.toNat % 2 ^ 22 * bsize := by
  unfold diskaddr bsize
  rw [BitVec.toNat_mul, BitVec.toNat_ofNat]
  omega

theorem inBounds_iff : d.InBounds n ↔ d.imgStart + diskaddr n + bsize ≤ d.imgEnd := by
  have h₁ := d.le
  unfold RamDisk.InBounds RamDisk.size bsize
  omega

theorem blit_update {m m' : Bytes} {a k l x : Nat} {v : BitVec 8} (h : ¬ (k ≤ x ∧ x < k + l)) :
    blit m a (update m' x v) k l = blit m a m' k l := by
  funext y
  refine ite_congr rfl (fun hy => ?_) fun _ => rfl
  rw [update_of_ne (by omega)]

theorem wp_ramdiskRw {Q : Buf → RamDisk → Prop} {E : Stop → RamDisk → Prop} {write : Bool}
    (hunlocked : b.locked = false → E (.panic .diskNotLocked) d)
    (hout : ¬ d.InBounds b.blockno → E (.panic .ramdiskBounds) d)
    (hwrite : write = true → b.locked = true → d.InBounds b.blockno →
      Q b { d with mem := blit d.mem (d.imgStart + diskaddr b.blockno) b.data 0 bsize })
    (hread : write = false → b.locked = true → d.InBounds b.blockno →
      Q { b with data := blit b.data 0 d.mem (d.imgStart + diskaddr b.blockno) bsize, valid := true } d) :
    wp (ramdiskRw b write) Q E d := by
  refine wp_ite (fun hl => hunlocked (by simpa using hl)) fun hl => ?_
  have hl' : b.locked = true := by simpa using hl
  rw [wp_bind, wp_get]
  refine wp_ite (fun h => hout fun hin => ?_) fun h => ?_
  · rw [inBounds_iff] at hin
    omega
  · have hin : d.InBounds b.blockno := inBounds_iff.2 (by omega)
    cases write with
    | true => exact hwrite rfl hl' hin
    | false => exact hread rfl hl' hin

theorem ramdisk_uses_iff :
    ramdisk.Uses d n x ↔ d.InBounds n ∧ d.imgStart + diskaddr n ≤ x ∧ x < d.imgStart + diskaddr n + bsize := by
  constructor
  · rintro (⟨b, b', t, rfl, hrw, hne⟩ | ⟨b, v, b₁, b₂, t₁, t₂, rfl, h₁, h₂, hne⟩)
    · have hw : wp (ramdiskRw b true) (fun _ t => d.InBounds b.blockno ∧
          t.mem = blit d.mem (d.imgStart + diskaddr b.blockno) b.data 0 bsize) (fun _ _ => True) d :=
        wp_ramdiskRw (fun _ => trivial) (fun _ => trivial) (fun _ _ hin => ⟨hin, rfl⟩) fun h => by cases h
      obtain ⟨hin, hm⟩ := wp_ok hw hrw
      refine ⟨hin, Classical.byContradiction fun hx => hne ?_⟩
      show t.mem x = d.mem x
      rw [hm, blit_apply_of_lt (by omega)]
    · have hr : ∀ d' : RamDisk, d'.imgStart = d.imgStart → wp (ramdiskRw b false) (fun b' _ => d'.InBounds b.blockno ∧
          b'.data = blit b.data 0 d'.mem (d.imgStart + diskaddr b.blockno) bsize) (fun _ _ => True) d' := fun d' hd =>
        wp_ramdiskRw (fun _ => trivial) (fun _ => trivial) (fun h => by cases h) fun _ _ hin => ⟨hin, by rw [hd]⟩
      obtain ⟨hin, hd₁⟩ := wp_ok (hr d rfl) h₁
      obtain ⟨-, hd₂⟩ := wp_ok (hr { d with mem := update d.mem x v } rfl) h₂
      refine ⟨hin, Classical.byContradiction fun hx => hne ?_⟩
      rw [hd₁, hd₂]
      exact (blit_update (by omega)).symm
  · rintro ⟨hin, hx⟩
    have hw : wp (ramdiskRw ⟨false, n, true, fun _ => d.mem x + 1⟩ true) (fun _ t => t.mem x ≠ d.mem x) (fun _ _ => False) d := by
      refine wp_ramdiskRw (fun h => by cases h) (fun h => absurd hin h) (fun _ _ _ => ?_) fun h => by cases h
      show blit _ _ _ _ _ x ≠ d.mem x
      rw [blit_apply hx]
      simp
    obtain ⟨b', t, hrw, hne⟩ := wp_returns hw
    exact .inl ⟨⟨false, n, true, fun _ => d.mem x + 1⟩, b', t, rfl, hrw, hne⟩

theorem ramdisk_panics_iff : ramdisk.Panics d n ↔ ¬ d.InBounds n := by
  constructor
  · intro h hin
    obtain ⟨e, he⟩ := h ⟨false, n, true, fun _ => 0⟩ false rfl
    have hw : wp (ramdiskRw ⟨false, n, true, fun _ => 0⟩ false) (fun _ _ => True) (fun _ _ => False) d :=
      wp_ramdiskRw (fun h => by cases h) (fun h => absurd hin h) (fun _ _ _ => trivial) fun _ _ _ => trivial
    exact wp_error hw he
  · rintro hout b write rfl
    have hw : wp (ramdiskRw b write) (fun _ _ => False) (fun e t => t = d ∧ ∃ p, e = .panic p) d :=
      wp_ramdiskRw (fun _ => ⟨rfl, _, rfl⟩) (fun _ => ⟨rfl, _, rfl⟩) (fun _ _ h => hout h) fun _ _ h => hout h
    obtain ⟨e, t, he, rfl, p, rfl⟩ := wp_stops hw
    exact ⟨p, he⟩

/-! ## The bytes behind a block of the card -/

/-- The card carries out one of the two commands on both sectors of a block. -/
def Card.Serves (c : Card) (n : BitVec 32) : Prop :=
  (c.writeOk (startSector c n) = true ∧ c.writeOk (startSector c n + 1) = true) ∨
    (c.readOk (startSector c n) = true ∧ c.readOk (startSector c n + 1) = true)

/-- The bytes of a sector. -/
def InSector (k : BitVec 32) (x : Nat) : Prop := k.toNat * sectorSize ≤ x ∧ x < k.toNat * sectorSize + sectorSize

/-- The bytes of the card after a block has been written. -/
def Card.written (c : Card) (k : BitVec 32) (data : Bytes) : Bytes :=
  blit (blit c.mem (k.toNat * sectorSize) data 0 sectorSize) ((k + 1).toNat * sectorSize) data sectorSize sectorSize

/-- The bytes of a buffer after a block has been read. -/
def Card.fetched (c : Card) (k : BitVec 32) (data : Bytes) : Bytes :=
  blit (blit data 0 c.mem (k.toNat * sectorSize) sectorSize) sectorSize c.mem ((k + 1).toNat * sectorSize) sectorSize

theorem wp_sdWrite {Q : Buf → Card → Prop} {E : Stop → Card → Prop}
    (hrefused : ∀ t, ¬ (c.writeOk (startSector c b.blockno) = true ∧ c.writeOk (startSector c b.blockno + 1) = true) →
      E (.panic .sdDiskRw) t)
    (hok : c.writeOk (startSector c b.blockno) = true → c.writeOk (startSector c b.blockno + 1) = true →
      Q b { c with mem := c.written (startSector c b.blockno) b.data }) :
    wp (sdDiskRw b true) Q E c := by
  have h₀ : startSector c b.blockno + BitVec.ofNat 32 0 = startSector c b.blockno := BitVec.add_zero _
  simp only [sdDiskRw, show sectorPerBlock = 2 from rfl, sdLoop, sdWriteSector, wp_bind, wp_get, if_true, h₀, Nat.zero_mul,
    Nat.zero_add, Nat.one_mul]
  cases hw₀ : c.writeOk (startSector c b.blockno) with
  | false => exact hrefused c fun h => by rw [hw₀] at h; cases h.1
  | true =>
      simp only [if_true, wp_bind, wp_set, wp_pure, ne_eq, not_true_eq_false, if_false, wp_get]
      cases hw₁ : c.writeOk (startSector c b.blockno + 1) with
      | false =>
          simp only [Bool.false_eq_true, if_false]
          exact hrefused _ fun h => by rw [hw₁] at h; cases h.2
      | true =>
          simp only [if_true, wp_bind, wp_set, wp_pure, not_true_eq_false, if_false]
          exact hok hw₀ hw₁

theorem wp_sdRead {Q : Buf → Card → Prop} {E : Stop → Card → Prop}
    (hrefused : ¬ (c.readOk (startSector c b.blockno) = true ∧ c.readOk (startSector c b.blockno + 1) = true) →
      E (.panic .sdDiskRw) c)
    (hok : c.readOk (startSector c b.blockno) = true → c.readOk (startSector c b.blockno + 1) = true →
      Q { b with data := c.fetched (startSector c b.blockno) b.data } c) :
    wp (sdDiskRw b false) Q E c := by
  have h₀ : startSector c b.blockno + BitVec.ofNat 32 0 = startSector c b.blockno := BitVec.add_zero _
  simp only [sdDiskRw, show sectorPerBlock = 2 from rfl, sdLoop, sdReadSector, wp_bind, wp_get, Bool.false_eq_true, if_false, h₀,
    Nat.zero_mul, Nat.zero_add, Nat.one_mul]
  cases hr₀ : c.readOk (startSector c b.blockno) with
  | false => exact hrefused fun h => by rw [hr₀] at h; cases h.1
  | true =>
      simp only [if_true, wp_bind, wp_pure, ne_eq, not_true_eq_false, if_false, wp_get]
      cases hr₁ : c.readOk (startSector c b.blockno + 1) with
      | false =>
          simp only [Bool.false_eq_true, if_false]
          exact hrefused fun h => by rw [hr₁] at h; cases h.2
      | true =>
          simp only [if_true, wp_pure, not_true_eq_false, if_false]
          exact hok hr₀ hr₁

theorem written_of_notMem {k : BitVec 32} {data : Bytes} (h₀ : ¬ InSector k x) (h₁ : ¬ InSector (k + 1) x) :
    c.written k data x = c.mem x := by
  unfold InSector at h₀ h₁
  unfold Card.written
  rw [blit_apply_of_lt (by omega), blit_apply_of_lt (by omega)]

theorem written_const {k : BitVec 32} {v : BitVec 8} (h : InSector k x ∨ InSector (k + 1) x) :
    c.written k (fun _ => v) x = v := by
  unfold Card.written
  by_cases h₁ : (k + 1).toNat * sectorSize ≤ x ∧ x < (k + 1).toNat * sectorSize + sectorSize
  · rw [blit_apply h₁]
  · rw [blit_apply_of_lt (by omega), blit_apply (h.resolve_right h₁)]

/-- The place in the buffer that a byte of the card is read to. -/
theorem fetched_apply {k : BitVec 32} (h : InSector k x ∨ InSector (k + 1) x) :
    ∃ y, ∀ (c : Card) (data : Bytes), c.fetched k data y = c.mem x := by
  unfold InSector at h
  rcases h with h | h
  · refine ⟨x - k.toNat * sectorSize, fun c data => ?_⟩
    unfold Card.fetched
    rw [blit_apply_of_lt (by omega), blit_apply (by omega), Nat.sub_zero, Nat.add_sub_cancel' h.1]
  · refine ⟨sectorSize + (x - (k + 1).toNat * sectorSize), fun c data => ?_⟩
    unfold Card.fetched
    rw [blit_apply (by omega), Nat.add_sub_cancel_left, Nat.add_sub_cancel' h.1]

theorem sd_uses_iff :
    sd.Uses c n x ↔ c.Serves n ∧ (InSector (startSector c n) x ∨ InSector (startSector c n + 1) x) := by
  constructor
  · rintro (⟨b, b', t, rfl, hrw, hne⟩ | ⟨b, v, b₁, b₂, t₁, t₂, rfl, h₁, h₂, hne⟩)
    · have hw : wp (sdDiskRw b true) (fun _ t => c.Serves b.blockno ∧ t.mem = c.written (startSector c b.blockno) b.data)
          (fun _ _ => True) c := wp_sdWrite (fun _ _ => trivial) fun h₀ h₁ => ⟨.inl ⟨h₀, h₁⟩, rfl⟩
      obtain ⟨hs, hm⟩ := wp_ok hw hrw
      refine ⟨hs, Classical.byContradiction fun hx => hne ?_⟩
      rw [not_or] at hx
      show t.mem x = c.mem x
      rw [hm, written_of_notMem hx.1 hx.2]
    · have hr : ∀ c' : Card, wp (sdDiskRw b false) (fun b' _ => c'.Serves b.blockno ∧
          b'.data = c'.fetched (startSector c' b.blockno) b.data) (fun _ _ => True) c' := fun c' =>
        wp_sdRead (fun _ => trivial) fun h₀ h₁ => ⟨.inr ⟨h₀, h₁⟩, rfl⟩
      obtain ⟨hs, hd₁⟩ := wp_ok (hr c) h₁
      obtain ⟨-, hd₂⟩ := wp_ok (hr { c with mem := update c.mem x v }) h₂
      refine ⟨hs, Classical.byContradiction fun hx => hne ?_⟩
      unfold InSector at hx
      rw [hd₁, hd₂]
      unfold Card.fetched
      show _ = blit (blit _ _ (update c.mem x v) ((startSector c b.blockno).toNat * sectorSize) _) _
        (update c.mem x v) ((startSector c b.blockno + 1).toNat * sectorSize) _
      rw [blit_update (by omega), blit_update (by omega)]
  · rintro ⟨⟨h₀, h₁⟩ | ⟨h₀, h₁⟩, hx⟩
    · have hw : wp (sdDiskRw ⟨false, n, true, fun _ => c.mem x + 1⟩ true) (fun _ t => t.mem x ≠ c.mem x) (fun _ _ => False) c := by
        refine wp_sdWrite (fun _ h => h ⟨h₀, h₁⟩) fun _ _ => ?_
        show c.written _ _ x ≠ c.mem x
        rw [written_const hx]
        simp
      obtain ⟨b', t, hrw, hne⟩ := wp_returns hw
      exact .inl ⟨⟨false, n, true, fun _ => c.mem x + 1⟩, b', t, rfl, hrw, hne⟩
    · have hr : ∀ m, wp (sdDiskRw ⟨false, n, true, fun _ => 0⟩ false)
          (fun b' _ => b'.data = { c with mem := m }.fetched (startSector c n) fun _ => 0) (fun _ _ => False) { c with mem := m } :=
        fun m => wp_sdRead (fun h => h ⟨h₀, h₁⟩) fun _ _ => rfl
      obtain ⟨b₁, t₁, hrw₁, hd₁⟩ := wp_returns (hr c.mem)
      obtain ⟨b₂, t₂, hrw₂, hd₂⟩ := wp_returns (hr (update c.mem x (c.mem x + 1)))
      refine .inr ⟨⟨false, n, true, fun _ => 0⟩, c.mem x + 1, b₁, b₂, t₁, t₂, rfl, hrw₁, hrw₂, fun he => ?_⟩
      rw [hd₁, hd₂] at he
      obtain ⟨y, hy⟩ := fetched_apply hx
      have h₂ := congrFun he y
      rw [hy, hy] at h₂
      simp at h₂

/-! ## Blocks that share their bytes -/

theorem ramdisk_apart_iff :
    ramdisk.Apart d m n ↔ m.toNat % 2 ^ 22 ≠ n.toNat % 2 ^ 22 ∨ d.size < (m.toNat % 2 ^ 22 + 1) * bsize := by
  have hm := diskaddr_eq m
  have hn := diskaddr_eq n
  unfold Driver.Apart
  simp only [ramdisk_uses_iff, RamDisk.InBounds, hm, hn]
  unfold bsize
  constructor
  · intro h
    have h₁ := h (d.imgStart + m.toNat % 2 ^ 22 * 1024)
    omega
  · rintro h x ⟨⟨h₁, h₂⟩, h₃, h₄⟩
    omega

theorem toNat_startSector (c : Card) (n : BitVec 32) : (startSector c n).toNat = (2 * n.toNat + c.fat32OffsetSector.toNat) % 2 ^ 32 := by
  unfold startSector
  rw [BitVec.toNat_add, BitVec.toNat_mul, show sectorPerBlock = 2 from rfl, BitVec.toNat_ofNat]
  omega

theorem inSector_iff {k : BitVec 32} : InSector k x ↔ x / sectorSize = k.toNat := by
  unfold InSector sectorSize
  omega

/-- Sectors of two blocks that do not start at the same sector. The first sectors have the same parity. -/
theorem sectors_ne {A B a b o : Nat} (hA : A = (2 * a + o) % 2 ^ 32) (hB : B = (2 * b + o) % 2 ^ 32) (h : a % 2 ^ 31 ≠ b % 2 ^ 31) :
    A ≠ B ∧ A ≠ (B + 1) % 2 ^ 32 ∧ (A + 1) % 2 ^ 32 ≠ B ∧ (A + 1) % 2 ^ 32 ≠ (B + 1) % 2 ^ 32 := by
  have h₁ : A ≠ B := by omega
  have h₂ : A % 2 = B % 2 := by omega
  have h₃ : A < 2 ^ 32 := hA ▸ Nat.mod_lt _ (by decide)
  have h₄ : B < 2 ^ 32 := hB ▸ Nat.mod_lt _ (by decide)
  clear hA hB h
  omega

theorem startSector_eq (h : m.toNat % 2 ^ 31 = n.toNat % 2 ^ 31) : startSector c m = startSector c n := by
  refine BitVec.eq_of_toNat_eq ?_
  rw [toNat_startSector, toNat_startSector]
  omega

theorem sd_apart_iff : sd.Apart c m n ↔ m.toNat % 2 ^ 31 ≠ n.toNat % 2 ^ 31 ∨ ¬ c.Serves m := by
  unfold Driver.Apart
  simp only [sd_uses_iff, inSector_iff]
  constructor
  · intro h
    by_cases hs : c.Serves m
    · refine .inl fun he => ?_
      have hk := startSector_eq (c := c) he
      have hs' : c.Serves n := by
        unfold Card.Serves at *
        rw [← hk]
        exact hs
      have hx : (startSector c n).toNat * sectorSize / sectorSize = (startSector c n).toNat :=
        Nat.mul_div_cancel _ (show 0 < sectorSize by decide)
      refine h _ ⟨⟨hs, .inl ?_⟩, hs', .inl hx⟩
      rw [hk]
      exact hx
    · exact .inr hs
  · rintro h x ⟨⟨hs, h₁⟩, -, h₂⟩
    have hne := sectors_ne (toNat_startSector c m) (toNat_startSector c n) (h.resolve_right fun hn => hn hs)
    rw [BitVec.toNat_add] at h₁ h₂
    have h₀ : BitVec.toNat (1 : BitVec 32) = 1 := rfl
    rw [h₀] at h₁ h₂
    rcases h₁ with h₁ | h₁ <;> rcases h₂ with h₂ | h₂ <;> rw [h₁] at h₂
    · exact hne.1 h₂
    · exact hne.2.1 h₂
    · exact hne.2.2.1 h₂
    · exact hne.2.2.2 h₂

/-- Two blocks are apart on the ramdisk just if their numbers differ modulo `2 ^ 22` or the image is too
small for both, and on the card just if they differ modulo `2 ^ 31` or the card refuses the sectors.
A block outside the image panics just if its number is below `2 ^ 22` or its remainder is outside as
well. -/
theorem addressing_iff (d : RamDisk) (c : Card) (m n : BitVec 32) :
    (ramdisk.Apart d m n ↔ m.toNat % 2 ^ 22 ≠ n.toNat % 2 ^ 22 ∨ d.size < (m.toNat % 2 ^ 22 + 1) * bsize) ∧
    (sd.Apart c m n ↔ m.toNat % 2 ^ 31 ≠ n.toNat % 2 ^ 31 ∨ ¬ c.Serves m) ∧
    ((d.size < (m.toNat + 1) * bsize → ramdisk.Panics d m) ↔
      m.toNat < 2 ^ 22 ∨ d.size < (m.toNat % 2 ^ 22 + 1) * bsize) := by
  refine ⟨ramdisk_apart_iff, sd_apart_iff, ?_⟩
  have hle : d.size ≤ 2 ^ 30 := by
    have h₁ := d.inMemory
    have h₂ : physTop = 2 ^ 30 := by
      unfold physTop
      rfl
    unfold RamDisk.size
    omega
  rw [ramdisk_panics_iff, RamDisk.InBounds, diskaddr_eq]
  unfold bsize at *
  omega

/-- An image of two blocks. -/
def smallDisk : RamDisk := ⟨fun _ => 0, kernBase, kernBase + 2048, Nat.le_add_right _ _, by rw [physTop]; decide⟩

theorem smallDisk_size : smallDisk.size = 2048 := Nat.add_sub_cancel_left _ _

/-- A card that carries out every command. -/
def goodCard : Card := ⟨fun _ => 0, 0xf000, fun _ => true, fun _ => true⟩

/-- Block `2 ^ 22` of the ramdisk is block 0, and block `2 ^ 31` of the card is its block 0. -/
theorem blocks_alias : ¬ ramdisk.Apart smallDisk 0 0x400000 ∧ ¬ sd.Apart goodCard 0 0x80000000 ∧
    smallDisk.size < ((0x400000 : BitVec 32).toNat + 1) * bsize ∧ ¬ ramdisk.Panics smallDisk 0x400000 := by
  have hs : goodCard.Serves 0 := .inl ⟨rfl, rfl⟩
  rw [ramdisk_apart_iff, sd_apart_iff, ramdisk_panics_iff, RamDisk.InBounds, smallDisk_size]
  exact ⟨by decide, fun h => h.elim (by decide) fun hn => hn hs, by decide, by decide⟩

end Xv6.Disk
