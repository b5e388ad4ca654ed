import Xv6.Fs.Dinodes
import Xv6.Lib.Word32

/-!
# The image `mkfs` writes

`mkfs` zeroes the disk, writes the super block, allocates the root directory as
inode `ROOTINO` with the entries `.` and `..` in the first free block, rounds its size
up to a block, and marks the first `usedblocks` bits of the bitmap, as its own `balloc`
does. This module builds that image for the root directory alone and proves that it
keeps `FsInv`: the invariant is not empty, and it holds of what `mkfs` hands the kernel.
-/

namespace Xv6

/-- The sizes `mkfs` is built with, and what its `assert`s check of them. `used` below
is its `usedblocks` before the root directory's block; the root directory's block must
be on the disk and its bit in the one bitmap block `mkfs` writes. -/
structure MkfsParams where
  size : Nat
  ninodes : Nat
  root_lt : ROOTINO < ninodes
  used_lt : ninodes / IPB + 3 + (size / (BSIZE * 8) + 1) + 1 < BSIZE * 8
  fits : ninodes / IPB + 3 + (size / (BSIZE * 8) + 1) < size
  size_lt : size + BPB ≤ 2 ^ 32
  ninodes_lt : ninodes < 2 ^ 32

namespace MkfsParams

variable (p : MkfsParams)

/-- `usedblocks` once the boot block, super block, inode blocks and bitmap are counted. -/
def used : Nat := p.ninodes / IPB + 3 + (p.size / (BSIZE * 8) + 1)

def sbBlock : Block :=
  Bytes.setU32 (Bytes.setU32 (Bytes.setU32 (fun _ => 0) 0 p.size.toUInt32) 4
    (p.size - p.used).toUInt32) 8 p.ninodes.toUInt32

/-- The root inode once `mkfs` has appended `.` and `..` and rounded its size up. -/
def root : Dinode where
  type := T_DIR
  major := 0
  minor := 0
  nlink := 1
  size := BSIZE.toUInt32
  addrs := Function.update (fun _ => 0) 0 p.used.toUInt32

/-- The root directory's block: `.` and `..`, both naming the root. -/
def rootDir : Block :=
  Bytes.writeBytes (Bytes.setU16 (Bytes.writeBytes (Bytes.setU16 (fun _ => 0) 0 1) 2 [46]) 16 1)
    18 [46, 46]

/-- The bitmap block: `mkfs`'s `balloc(usedblocks)` after the root directory's block. -/
def bitmap : Block := (List.range (p.used + 1)).foldl Bitmap.setBit fun _ => 0

def image : Disk := fun b =>
  if b = 1 then p.sbBlock
  else if b = IBLOCK ROOTINO then Dinode.encode (fun _ => 0) (dinodeOff ROOTINO) p.root
  else if b = p.ninodes / IPB + 3 then p.bitmap
  else if b = p.used then rootDir
  else fun _ => 0

/-! ## The image, block by block -/

theorem used_lt_size : p.used < p.size := p.fits

theorem used_succ_lt : p.used + 1 < BPB := p.used_lt

theorem bmap_lt_used : p.ninodes / IPB + 3 < p.used := by
  simp only [used, IPB, BSIZE]
  omega

theorem used_pos : 0 < p.used := Nat.lt_of_le_of_lt (Nat.zero_le _) p.bmap_lt_used

theorem iblock_root : IBLOCK ROOTINO = 2 := rfl

theorem image_one : p.image 1 = p.sbBlock := by simp [image]

theorem image_iblock_root :
    p.image (IBLOCK ROOTINO) = Dinode.encode (fun _ => 0) (dinodeOff ROOTINO) p.root := by
  simp [image, iblock_root]

theorem image_bmap : p.image (p.ninodes / IPB + 3) = p.bitmap := by
  have : p.ninodes / IPB + 3 ≠ 1 ∧ p.ninodes / IPB + 3 ≠ 2 := by
    simp only [IPB, BSIZE]
    constructor <;> omega
  simp [image, iblock_root, this.1, this.2]

/-- Every block past the four `mkfs` writes is zero. -/
theorem image_zero {b : Nat} (h1 : b ≠ 1) (h2 : b ≠ IBLOCK ROOTINO) (h3 : b ≠ p.ninodes / IPB + 3)
    (h4 : b ≠ p.used) : p.image b = fun _ => 0 := by
  simp [image, h1, h2, h3, h4]

theorem readsb_size : (readsb p.image).size.toNat = p.size := by
  simp only [readsb, image_one, sbBlock]
  rw [Bytes.getU32_setU32_of_disjoint _ _ (by omega), Bytes.getU32_setU32_of_disjoint _ _ (by omega),
    Bytes.getU32_setU32_self]
  exact Word32.toNat_toUInt32_of_lt (by have := p.size_lt; simp only [BPB, BSIZE] at this; omega)

theorem readsb_ninodes : (readsb p.image).ninodes.toNat = p.ninodes := by
  simp only [readsb, image_one, sbBlock]
  rw [Bytes.getU32_setU32_self]
  exact Word32.toNat_toUInt32_of_lt p.ninodes_lt

theorem dataStart_image : dataStart (readsb p.image) = p.used := by
  simp only [dataStart, bmapStart, nbitmap, readsb_size, readsb_ninodes, used, BPB]

theorem bmapStart_image : bmapStart (readsb p.image) = p.ninodes / IPB + 3 := by
  simp only [bmapStart, readsb_ninodes]

/-! ## The inode table and the bitmap -/

theorem type_decode_zero (o : Nat) : (Dinode.decode (fun _ => 0) o).type = 0 := by
  simp [Dinode.decode, Bytes.getU16]

theorem dinodeAt_root : dinodeAt p.image ROOTINO = p.root := by
  simp only [dinodeAt, image_iblock_root, Dinode.decode_encode]

/-- Every inode but the root is free. -/
theorem type_image {j : Nat} (hj : j < p.ninodes) (h1 : j ≠ ROOTINO) :
    (dinodeAt p.image j).type = 0 := by
  have hzero : dinodeAt p.image j = Dinode.decode (fun _ => 0) (dinodeOff j) := by
    by_cases hb : IBLOCK j = IBLOCK ROOTINO
    · -- a neighbour of the root in its block: its 64 bytes are still zero
      have hoff : dinodeOff j + 64 ≤ dinodeOff ROOTINO ∨ dinodeOff ROOTINO + 64 ≤ dinodeOff j := by
        simp only [IBLOCK, dinodeOff, IPB, BSIZE, ROOTINO] at hb h1 ⊢
        omega
      simp only [dinodeAt, hb, image_iblock_root]
      exact Dinode.decode_congr fun x _ _ => Dinode.encode_apply_of_ne _ (by omega)
    · have hlt : IBLOCK j < p.ninodes / IPB + 3 := by
        simp only [IBLOCK, IPB, BSIZE]
        omega
      have := p.bmap_lt_used
      rw [dinodeAt, p.image_zero (iblock_ne_one j) hb (by omega) (by omega)]
  rw [hzero, type_decode_zero]

theorem live_image {j : Nat} : Live (readsb p.image) (dinodeAt p.image) j ↔ j = ROOTINO := by
  simp only [Live, readsb_ninodes]
  constructor
  · rintro ⟨-, hj, ht⟩
    by_contra h1
    exact ht (p.type_image hj h1)
  · rintro rfl
    rw [dinodeAt_root]
    exact ⟨by decide, p.root_lt, show T_DIR ≠ 0 by decide⟩

/-- The slot the root directory's block sits in. -/
def rootSlot : Slot := .direct ⟨0, by decide⟩

theorem slotAddr_root (d : Disk) (s : Slot) :
    slotAddr d p.root s = if s = rootSlot then p.used else 0 := by
  have hused : p.used.toUInt32.toNat = p.used :=
    Word32.toNat_toUInt32_of_lt (by have := p.used_succ_lt; simp only [BPB, BSIZE] at this; omega)
  have hind : p.root.addrs INDIRECT = 0 := by
    simp only [root, INDIRECT]
    rw [Function.update_of_ne (by decide)]
  cases s with
  | direct k =>
    by_cases hk : k = ⟨0, by decide⟩
    · subst hk
      simp [slotAddr, root, rootSlot, hused]
    · have hk' : k.castSucc ≠ 0 := by
        intro h
        exact hk (Fin.ext (by simpa [Fin.ext_iff] using h))
      simp [slotAddr, root, rootSlot, hk, Function.update_of_ne hk']
  | indirect => simp [slotAddr, rootSlot, hind]
  | entry j => simp [slotAddr, rootSlot, hind]

theorem held_image (q : Nat × Slot) :
    held p.image (readsb p.image) (dinodeAt p.image) q =
      if q = (ROOTINO, rootSlot) then p.used else 0 := by
  obtain ⟨j, s⟩ := q
  by_cases hj : j = ROOTINO
  · subst hj
    simp [held, p.live_image, dinodeAt_root, slotAddr_root]
  · simp [held, p.live_image, hj]

/-- The bitmap marks exactly the blocks up to the root directory's. -/
theorem bitSet_image {b : Nat} (hb : b < bitLimit (readsb p.image)) :
    bitSet p.image (readsb p.image).ninodes.toNat b = decide (b ≤ p.used) := by
  have hused := p.used_succ_lt
  simp only [bitLimit, readsb_size] at hb
  simp only [bitSet, BBLOCK, readsb_ninodes]
  by_cases hb0 : b < BPB
  · -- the one bitmap block mkfs writes
    have h0 : b / BPB = 0 := Nat.div_eq_of_lt hb0
    rw [h0, Nat.zero_add, image_bmap, bitmap, Bitmap.testBit_setBits, Nat.mod_eq_of_lt hb0]
    simp only [Nat.lt_succ_iff]
  · -- a later bitmap block, still zero: it lies between the first one and the data
    have hgt : p.used < b := by
      simp only [BPB, BSIZE] at hb0 hused
      omega
    have hz : p.image (b / BPB + p.ninodes / IPB + 3) = fun _ => 0 := by
      simp only [used, BPB, BSIZE] at hb hb0 hused
      apply p.image_zero <;> simp only [used, iblock_root, BPB, IPB, BSIZE] <;> omega
    rw [hz, Bitmap.testBit_zero, eq_comm, decide_eq_false_iff_not]
    omega

theorem size_le_bitLimit : p.size ≤ bitLimit (readsb p.image) := by
  simp only [bitLimit, readsb_size, BPB, BSIZE]
  omega

theorem allocInv_image : AllocInv p.image (dinodeAt p.image) := by
  have hlim := p.size_le_bitLimit
  have hsize := p.used_lt_size
  have hpos := p.used_pos
  -- the one holder is the root directory's first slot, holding block `used`
  have hheld : ∀ q, held p.image (readsb p.image) (dinodeAt p.image) q ≠ 0 →
      q = (ROOTINO, rootSlot) := by
    intro q hq
    by_contra hne
    rw [held_image, if_neg hne] at hq
    exact hq rfl
  unfold AllocInv
  rw [dataStart_image]
  refine ⟨?_, ?_, ?_, ?_⟩
  · intro q hq
    rw [hheld q hq, held_image, if_pos rfl]
    omega
  · intro q q' hq hqq
    obtain rfl := hheld q hq
    refine (hheld q' ?_).symm
    rw [← hqq]
    exact hq
  · intro b hb
    rw [p.bitSet_image hb, decide_eq_true_iff]
    constructor
    · intro hle
      rcases Nat.lt_or_eq_of_le hle with h | h
      · exact .inl h
      · exact .inr ⟨(ROOTINO, rootSlot), by rw [held_image, if_pos rfl, h]⟩
    · rintro (h | ⟨q, hq⟩)
      · omega
      · rw [held_image] at hq
        split at hq <;> omega
  · intro b hb hfree o _
    rw [p.bitSet_image hb, decide_eq_false_iff_not] at hfree
    have := p.bmap_lt_used
    simp only [IPB, BSIZE] at this
    rw [p.image_zero (by omega) (by simp only [iblock_root]; omega) (by simp only [IPB, BSIZE]; omega)
      (by omega)]

theorem root_shape (d : Disk) : Shape d p.root 1 where
  le_maxfile := by decide
  inUse s := by
    rw [slotAddr_root]
    have hpos : p.used ≠ 0 := p.used_pos.ne'
    cases s with
    | direct k =>
      by_cases hk : k = ⟨0, by decide⟩
      · subst hk
        simp [rootSlot, Slot.InUse, hpos]
      · have : ¬ k.val < 1 := fun h => hk (Fin.ext (Nat.lt_one_iff.mp h))
        simp [rootSlot, Slot.InUse, hk, this]
    | indirect => simp [rootSlot, Slot.InUse, NDIRECT]
    | entry j => simp [rootSlot, Slot.InUse, NDIRECT]

theorem nblocks_root : nblocks p.root.size = 1 := by
  simp [nblocks, root, BSIZE]

/-- The image `mkfs` writes satisfies the file-system invariant. -/
theorem mkfs_inv : FsInv p.image where
  geom := ⟨by rw [dataStart_image, readsb_size]; exact p.used_lt_size.le,
    by rw [readsb_size]; exact p.size_lt⟩
  alloc := p.allocInv_image
  shape i hi := by
    rw [p.live_image] at hi
    subst hi
    rw [dinodeAt_root, nblocks_root]
    exact p.root_shape _
  size_le i hi := by
    rw [p.live_image] at hi
    subst hi
    rw [dinodeAt_root]
    simp [root, MAXFILE, NDIRECT, NINDIRECT, BSIZE]

/-- The image the build makes: `mkfs`'s own `size = 1024` and `ninodes = 200`. -/
def xv6 : MkfsParams where
  size := 1024
  ninodes := 200
  root_lt := by decide
  used_lt := by decide
  fits := by decide
  size_lt := by decide
  ninodes_lt := by decide

end MkfsParams

end Xv6
