import Xv6.Fs.Inode
import Xv6.Lib.Alloc

/-!
# The file-system invariant

What every reachable disk satisfies. The block allocator's invariant (`Alloc.Inv`)
holds with the metadata prefix reserved, the blocks `balloc` scans as the range,
and the slots of the allocated inodes as holders: a slot is a direct pointer, the
indirect pointer or an entry of the indirect block. Each allocated inode has the
shape a file written front to back has: its first `n` blocks are present and no
other, and it is no longer than `MAXFILE` blocks.

The invariant is stated over an inode table `tbl` and block counts `nb` rather than
over the dinodes on the disk, because inside `writei` and `itrunc` the locked inode
is the in-memory copy and its block count runs ahead of its size. `FsInv` is the
invariant of a disk at rest: the table is the disk's, and each inode holds exactly
the blocks its size needs.

The contents of an inode are `contents`, read through `blockAddr`, which finds
block `bn` the way `bmap` does when the block is there.
-/

namespace Xv6

/-- Inode `i` is allocated. -/
def Live (sb : Superblock) (tbl : Nat → Dinode) (i : Nat) : Prop :=
  0 < i ∧ i < sb.ninodes.toNat ∧ (tbl i).type ≠ 0

instance (sb : Superblock) (tbl : Nat → Dinode) (i : Nat) : Decidable (Live sb tbl i) :=
  inferInstanceAs (Decidable (_ ∧ _ ∧ _))

inductive Slot
  | direct (k : Fin NDIRECT)
  | indirect
  | entry (j : Fin NINDIRECT)
  deriving DecidableEq

/-- The block a slot of an inode points at, `0` for none. -/
def slotAddr (d : Disk) (di : Dinode) : Slot → Nat
  | .direct k => (di.addrs k.castSucc).toNat
  | .indirect => (di.addrs INDIRECT).toNat
  | .entry j =>
    if di.addrs INDIRECT = 0 then 0
    else (Bytes.getU32 (d (di.addrs INDIRECT).toNat) (4 * j.val)).toNat

/-- Whether an inode of `n` blocks uses the slot. -/
def Slot.InUse (n : Nat) : Slot → Prop
  | .direct k => k.val < n
  | .indirect => NDIRECT < n
  | .entry j => NDIRECT + j.val < n

/-- The slot holding block `bn` of a file. -/
def blockSlot (bn : Nat) : Slot :=
  if h : bn < NDIRECT then .direct ⟨bn, h⟩
  else .entry ⟨(bn - NDIRECT) % NINDIRECT, Nat.mod_lt _ (by decide)⟩

/-- The holders of the block allocator: slots of allocated inodes. -/
def held (d : Disk) (sb : Superblock) (tbl : Nat → Dinode) (q : Nat × Slot) : Nat :=
  if Live sb tbl q.1 then slotAddr d (tbl q.1) q.2 else 0

def Blank (d : Disk) (b : Nat) : Prop := ∀ o, o < BSIZE → d b o = 0

/-- Block `bn` of an inode, as `bmap` finds it. -/
def blockAddr (d : Disk) (di : Dinode) (bn : Nat) : Nat :=
  if h : bn < NDIRECT then (di.addrs ⟨bn, Nat.lt_succ_of_lt h⟩).toNat
  else (Bytes.getU32 (d (di.addrs INDIRECT).toNat) (4 * (bn - NDIRECT))).toNat

/-- Byte `k` of an inode's data. -/
def dataAt (d : Disk) (di : Dinode) (k : Nat) : UInt8 :=
  d (blockAddr d di (k / BSIZE)) (k % BSIZE)

/-- The contents of an inode: its first `size` bytes. -/
def contents (d : Disk) (di : Dinode) : List UInt8 :=
  (List.range di.size.toNat).map (dataAt d di)

/-- The number of blocks a file of `size` bytes has. -/
def nblocks (size : UInt32) : Nat := (size.toNat + BSIZE - 1) / BSIZE

/-- An inode that holds its first `n` blocks and no other. -/
structure Shape (d : Disk) (di : Dinode) (n : Nat) : Prop where
  le_maxfile : n ≤ MAXFILE
  inUse : ∀ s, slotAddr d di s ≠ 0 ↔ s.InUse n

/-- The block allocator's invariant on a disk with inode table `tbl`. -/
def AllocInv (d : Disk) (tbl : Nat → Dinode) : Prop :=
  Alloc.Inv (dataStart (readsb d)) (bitLimit (readsb d)) (bitSet d (readsb d).ninodes.toNat)
    (Blank d) (held d (readsb d) tbl)

structure Wf (d : Disk) (tbl : Nat → Dinode) (nb : Nat → Nat) : Prop where
  geom : Geometry (readsb d)
  alloc : AllocInv d tbl
  shape : ∀ i, Live (readsb d) tbl i → Shape d (tbl i) (nb i)
  size_le : ∀ i, Live (readsb d) tbl i → (tbl i).size.toNat ≤ MAXFILE * BSIZE

/-- The invariant of a disk between file-system calls. -/
def FsInv (d : Disk) : Prop :=
  Wf d (dinodeAt d) fun i => nblocks (dinodeAt d i).size

/-- The blocks `balloc` can still hand out: the clear bits of the range it scans. -/
def freeBlocks (d : Disk) : Nat :=
  Alloc.nfree (bitLimit (readsb d)) (bitSet d (readsb d).ninodes.toNat)

theorem freeBlocks_eq_zero_iff (d : Disk) : freeBlocks d = 0 ↔ Full d :=
  Alloc.nfree_eq_zero_iff

/-! ## Geometry -/

section Geometry

variable {sb : Superblock}

theorem one_lt_dataStart : 1 < dataStart sb := by
  simp only [dataStart, bmapStart, IPB, BSIZE]
  omega

theorem iblock_lt_bmapStart {i : Nat} (hi : i < sb.ninodes.toNat) : IBLOCK i < bmapStart sb := by
  simp only [IBLOCK, bmapStart, IPB, BSIZE] at *
  omega

theorem bmapStart_le_bblock (b : Nat) : bmapStart sb ≤ BBLOCK b sb.ninodes.toNat := by
  simp only [BBLOCK, bmapStart, BPB, BSIZE, IPB]
  omega

theorem bblock_lt_dataStart {b : Nat} (hb : b < bitLimit sb) :
    BBLOCK b sb.ninodes.toNat < dataStart sb := by
  simp only [BBLOCK, dataStart, bmapStart, nbitmap, bitLimit, BPB, BSIZE, IPB] at *
  omega

theorem bitLimit_lt (hg : Geometry sb) : bitLimit sb < 2 ^ 32 := by
  have := hg.size_lt
  simp only [bitLimit, BPB, BSIZE] at *
  omega

end Geometry

/-! ## Slots -/

theorem blockSlot_inUse {bn n : Nat} (hbn : bn < MAXFILE) : (blockSlot bn).InUse n ↔ bn < n := by
  unfold blockSlot
  split
  · simp [Slot.InUse]
  · simp only [Slot.InUse, MAXFILE, NINDIRECT, BSIZE, NDIRECT] at *
    omega

theorem blockSlot_injective {bn bn' : Nat} (h : bn < MAXFILE) (h' : bn' < MAXFILE)
    (he : blockSlot bn = blockSlot bn') : bn = bn' := by
  unfold blockSlot at he
  split at he <;> split at he
  · simpa using he
  · cases he
  · cases he
  · simp only [Slot.entry.injEq, Fin.mk.injEq] at he
    simp only [MAXFILE, NINDIRECT, BSIZE, NDIRECT] at *
    omega

theorem blockSlot_ne_indirect (bn : Nat) : blockSlot bn ≠ .indirect := by
  unfold blockSlot
  split <;> simp

/-- Past the twelfth block, a file's next block takes the next slot. -/
theorem Slot.inUse_succ {n : Nat} (s : Slot) (hn : n < MAXFILE) (h12 : n ≠ NDIRECT) :
    s.InUse (n + 1) ↔ s = blockSlot n ∨ s.InUse n := by
  unfold blockSlot
  split
  · cases s <;> simp [Slot.InUse, Fin.ext_iff] <;> omega
  · rename_i h
    cases s with
    | direct k => simp only [Slot.InUse, reduceCtorEq, false_or]; omega
    | indirect => simp only [Slot.InUse, reduceCtorEq, false_or]; omega
    | entry j =>
      have hj := j.isLt
      simp only [Slot.InUse, Slot.entry.injEq, Fin.ext_iff]
      simp only [MAXFILE, NINDIRECT, NDIRECT, BSIZE] at hn h h12 hj ⊢
      omega

/-- The thirteenth block of a file brings the indirect block with it. -/
theorem Slot.inUse_thirteen (s : Slot) :
    s.InUse (NDIRECT + 1) ↔ s = .indirect ∨ s = blockSlot NDIRECT ∨ s.InUse NDIRECT := by
  cases s <;> simp [Slot.InUse, blockSlot, Fin.ext_iff, NDIRECT] <;> omega

/-- `blockAddr` reads the slot of the block when the indirect block is there or not
needed. -/
theorem blockAddr_eq_slotAddr {d : Disk} {di : Dinode} {bn : Nat} (hbn : bn < MAXFILE)
    (hind : NDIRECT ≤ bn → di.addrs INDIRECT ≠ 0) :
    blockAddr d di bn = slotAddr d di (blockSlot bn) := by
  unfold blockAddr blockSlot
  split
  · rfl
  · rename_i h
    simp only [slotAddr, if_neg (hind (by omega))]
    simp only [MAXFILE, NINDIRECT, BSIZE, NDIRECT] at hbn ⊢
    rw [Nat.mod_eq_of_lt (by omega)]

theorem Shape.indirect_ne_zero {d : Disk} {di : Dinode} {n bn : Nat} (hs : Shape d di n)
    (hbn : bn < n) (hge : NDIRECT ≤ bn) : di.addrs INDIRECT ≠ 0 := by
  have h0 : (di.addrs INDIRECT).toNat ≠ 0 :=
    (hs.inUse .indirect).mpr (by simp only [Slot.InUse]; omega)
  rintro h
  rw [h] at h0
  exact h0 rfl

/-- In an inode of `n` blocks, block `bn < n` is the one its slot points at, and is
there. -/
theorem Shape.blockAddr_eq {d : Disk} {di : Dinode} {n bn : Nat} (hs : Shape d di n)
    (hbn : bn < n) :
    blockAddr d di bn = slotAddr d di (blockSlot bn) ∧ blockAddr d di bn ≠ 0 := by
  have hmax : bn < MAXFILE := by have := hs.le_maxfile; omega
  have he : blockAddr d di bn = slotAddr d di (blockSlot bn) :=
    blockAddr_eq_slotAddr hmax fun hge => hs.indirect_ne_zero hbn hge
  refine ⟨he, ?_⟩
  rw [he]
  exact (hs.inUse _).mpr ((blockSlot_inUse hmax).mpr hbn)

/-! ## Frames -/

theorem getU32_blank {d : Disk} {b o : Nat} (hb : Blank d b) (ho : o + 4 ≤ BSIZE) :
    Bytes.getU32 (d b) o = 0 := by
  simp only [Bytes.getU32, hb o (by omega), hb (o + 1) (by omega), hb (o + 2) (by omega),
    hb (o + 3) (by omega)]
  rfl

theorem readsb_update {d : Disk} {x : Nat} (blk : Block) (hx : x ≠ 1) :
    readsb (Function.update d x blk) = readsb d := by
  simp only [readsb, Function.update_of_ne hx.symm]

theorem dinodeAt_update {d : Disk} {x i : Nat} (blk : Block) (hx : x ≠ IBLOCK i) :
    dinodeAt (Function.update d x blk) i = dinodeAt d i := by
  simp only [dinodeAt, Function.update_of_ne (Ne.symm hx)]

theorem bitSet_update {d : Disk} {x n b : Nat} (blk : Block) (hx : x ≠ BBLOCK b n) :
    bitSet (Function.update d x blk) n b = bitSet d n b := by
  simp only [bitSet, Function.update_of_ne (Ne.symm hx)]

/-- A write to a block of the data area leaves the bitmap, so the free count, as it was. -/
theorem freeBlocks_update {d : Disk} {x : Nat} (blk : Block) (hx : dataStart (readsb d) ≤ x) :
    freeBlocks (Function.update d x blk) = freeBlocks d := by
  have h1 := @one_lt_dataStart (readsb d)
  unfold freeBlocks
  rw [readsb_update blk (by omega)]
  exact Alloc.nfree_congr fun b hb => bitSet_update blk (by have := bblock_lt_dataStart hb; omega)

theorem readsb_setBitmap (d : Disk) (n a : Nat) : readsb (setBitmap d n a) = readsb d :=
  readsb_update _ (show BBLOCK a n ≠ 1 by simp only [BBLOCK, BPB, IPB, BSIZE]; omega)

/-- Setting the bit of a clear block: one block fewer is free. -/
theorem freeBlocks_setBitmap {d : Disk} {a : Nat} (ha : a < bitLimit (readsb d))
    (hfree : bitSet d (readsb d).ninodes.toNat a = false) :
    freeBlocks (setBitmap d (readsb d).ninodes.toNat a) + 1 = freeBlocks d := by
  unfold freeBlocks
  rw [readsb_setBitmap]
  exact Alloc.nfree_set ha hfree fun x _ => bitSet_setBitmap d _ a x

/-- An inode's slots read only its indirect block. -/
theorem slotAddr_congr {d d' : Disk} {di : Dinode}
    (h : di.addrs INDIRECT ≠ 0 → d' (di.addrs INDIRECT).toNat = d (di.addrs INDIRECT).toNat)
    (s : Slot) : slotAddr d' di s = slotAddr d di s := by
  cases s with
  | direct k => rfl
  | indirect => rfl
  | entry j =>
    simp only [slotAddr]
    split
    · rfl
    · rw [h ‹_›]

/-- Writing a block other than an inode's indirect block leaves its slots alone. -/
theorem slotAddr_update {d : Disk} {di : Dinode} {x : Nat} (blk : Block)
    (hx : di.addrs INDIRECT ≠ 0 → x ≠ (di.addrs INDIRECT).toNat) (s : Slot) :
    slotAddr (Function.update d x blk) di s = slotAddr d di s :=
  slotAddr_congr (fun h => Function.update_of_ne (Ne.symm (hx h)) _ _) s

theorem Shape.congr {d d' : Disk} {di : Dinode} {n : Nat} (hs : Shape d di n)
    (h : ∀ s, slotAddr d' di s = slotAddr d di s) : Shape d' di n where
  le_maxfile := hs.le_maxfile
  inUse s := by rw [h s]; exact hs.inUse s

theorem blockAddr_update {d : Disk} {di : Dinode} {x bn : Nat} (blk : Block)
    (hx : x ≠ (di.addrs INDIRECT).toNat) :
    blockAddr (Function.update d x blk) di bn = blockAddr d di bn := by
  unfold blockAddr
  split
  · rfl
  · rw [Function.update_of_ne (Ne.symm hx)]

/-! ## Consequences of the invariant -/

section Wf

variable {d : Disk} {tbl : Nat → Dinode} {nb : Nat → Nat}

theorem held_of_live {sb : Superblock} {i : Nat} (s : Slot) (hi : Live sb tbl i) :
    held d sb tbl (i, s) = slotAddr d (tbl i) s := if_pos hi

/-- Block `bn` of a live inode with more than `bn` blocks is held by its slot. -/
theorem Wf.blockAddr_held (hw : Wf d tbl nb) {i bn : Nat} (hi : Live (readsb d) tbl i)
    (hbn : bn < nb i) :
    blockAddr d (tbl i) bn = held d (readsb d) tbl (i, blockSlot bn) ∧
      blockAddr d (tbl i) bn ≠ 0 := by
  obtain ⟨he, hne⟩ := (hw.shape i hi).blockAddr_eq hbn
  exact ⟨by rw [he, held_of_live _ hi], hne⟩

theorem Wf.indirect_mem (hw : Wf d tbl nb) {j : Nat} (hj : Live (readsb d) tbl j)
    (hind : (tbl j).addrs INDIRECT ≠ 0) :
    dataStart (readsb d) ≤ ((tbl j).addrs INDIRECT).toNat ∧
      ((tbl j).addrs INDIRECT).toNat < bitLimit (readsb d) := by
  have h0 : held d (readsb d) tbl (j, .indirect) ≠ 0 := by
    rw [held_of_live _ hj]
    intro h0
    exact hind (UInt32.toNat_inj.mp h0)
  have := hw.alloc.held_mem _ h0
  rwa [held_of_live _ hj] at this

/-- Writing a metadata block leaves every live inode's slots alone. -/
theorem Wf.slotAddr_update_meta (hw : Wf d tbl nb) {j x : Nat} (hj : Live (readsb d) tbl j)
    (hx : x < dataStart (readsb d)) (blk : Block) (s : Slot) :
    slotAddr (Function.update d x blk) (tbl j) s = slotAddr d (tbl j) s :=
  slotAddr_update blk (fun hind => by have := (hw.indirect_mem hj hind).1; omega) s

theorem Wf.blockAddr_mem (hw : Wf d tbl nb) {i bn : Nat} (hi : Live (readsb d) tbl i)
    (hbn : bn < nb i) :
    dataStart (readsb d) ≤ blockAddr d (tbl i) bn ∧ blockAddr d (tbl i) bn < bitLimit (readsb d) := by
  obtain ⟨he, hne⟩ := hw.blockAddr_held hi hbn
  rw [he] at hne ⊢
  exact hw.alloc.held_mem _ hne

/-- Distinct blocks of live inodes are distinct disk blocks. -/
theorem Wf.blockAddr_inj (hw : Wf d tbl nb) {i j bn bn' : Nat} (hi : Live (readsb d) tbl i)
    (hbn : bn < nb i) (hj : Live (readsb d) tbl j) (hbn' : bn' < nb j)
    (he : blockAddr d (tbl i) bn = blockAddr d (tbl j) bn') : i = j ∧ bn = bn' := by
  obtain ⟨hai, hne⟩ := hw.blockAddr_held hi hbn
  obtain ⟨haj, -⟩ := hw.blockAddr_held hj hbn'
  rw [hai, haj] at he
  rw [hai] at hne
  have hq := hw.alloc.held_inj _ _ hne he
  simp only [Prod.mk.injEq] at hq
  have hmax : ∀ {k b}, Live (readsb d) tbl k → b < nb k → b < MAXFILE := fun hk hb =>
    lt_of_lt_of_le hb (hw.shape _ hk).le_maxfile
  exact ⟨hq.1, blockSlot_injective (hmax hi hbn) (hmax hj hbn') hq.2⟩

/-- A data block is nobody's indirect block. -/
theorem Wf.blockAddr_ne_indirect (hw : Wf d tbl nb) {i j bn : Nat} (hi : Live (readsb d) tbl i)
    (hbn : bn < nb i) (hj : Live (readsb d) tbl j) :
    blockAddr d (tbl i) bn ≠ ((tbl j).addrs INDIRECT).toNat := by
  intro he
  obtain ⟨hai, hne⟩ := hw.blockAddr_held hi hbn
  have hind' : held d (readsb d) tbl (j, .indirect) = ((tbl j).addrs INDIRECT).toNat :=
    held_of_live _ hj
  rw [hai] at he hne
  have hq := hw.alloc.held_inj _ _ hne (he.trans hind'.symm)
  simp only [Prod.mk.injEq] at hq
  exact blockSlot_ne_indirect bn hq.2

/-- A block at or past `dataStart` is neither the super block, an inode block nor a
bitmap block. -/
theorem metadata_ne {sb : Superblock} {x : Nat} (hx : dataStart sb ≤ x) :
    x ≠ 1 ∧ (∀ i, i < sb.ninodes.toNat → x ≠ IBLOCK i) ∧
      ∀ b, b < bitLimit sb → x ≠ BBLOCK b sb.ninodes.toNat := by
  have h1 := @one_lt_dataStart sb
  have hib := @iblock_lt_bmapStart sb
  have hbs : bmapStart sb ≤ dataStart sb := by simp [dataStart]
  refine ⟨by omega, fun i hi => by have := hib hi; omega, fun b hb => ?_⟩
  have := bblock_lt_dataStart hb
  omega

/-- Overwriting a data block of a live inode keeps the invariant. -/
theorem Wf.write_block (hw : Wf d tbl nb) {i bn : Nat} (hi : Live (readsb d) tbl i)
    (hbn : bn < nb i) (blk : Block) :
    Wf (Function.update d (blockAddr d (tbl i) bn) blk) tbl nb := by
  obtain ⟨hlo, -⟩ := hw.blockAddr_mem hi hbn
  obtain ⟨h1, -, hbb⟩ := metadata_ne hlo
  obtain ⟨hheld, hne⟩ := hw.blockAddr_held hi hbn
  have hsb : readsb (Function.update d (blockAddr d (tbl i) bn) blk) = readsb d :=
    readsb_update blk h1
  -- the block is nobody's indirect block, so every slot reads as before
  have hslot : ∀ j, Live (readsb d) tbl j → ∀ s,
      slotAddr (Function.update d (blockAddr d (tbl i) bn) blk) (tbl j) s = slotAddr d (tbl j) s :=
    fun j hj => slotAddr_update blk fun _ => hw.blockAddr_ne_indirect hi hbn hj
  have hused : bitSet d (readsb d).ninodes.toNat (blockAddr d (tbl i) bn) = true := by
    rw [hheld] at hne ⊢
    exact hw.alloc.used_held hne
  refine ⟨hsb ▸ hw.geom, ?_, fun j hj => ?_, fun j hj => hw.size_le j (hsb ▸ hj)⟩
  · rw [AllocInv, hsb]
    refine hw.alloc.congr (fun b hb => bitSet_update blk (hbb b hb)) (fun q => ?_)
      (fun b _ hf hz o ho => ?_)
    · simp only [held]
      split
      · exact hslot q.1 ‹_› q.2
      · rfl
    · -- a block whose bit is clear is not `a`, whose bit is set
      have hba : b ≠ blockAddr d (tbl i) bn := by
        rintro rfl
        rw [hused] at hf
        cases hf
      rw [Function.update_of_ne hba]
      exact hz o ho
  · rw [hsb] at hj
    exact (hw.shape j hj).congr (hslot j hj)

theorem Wf.dataAt_write_block (hw : Wf d tbl nb) {i bn j k : Nat} (hi : Live (readsb d) tbl i)
    (hbn : bn < nb i) (blk : Block) (hj : Live (readsb d) tbl j) (hk : k / BSIZE < nb j) :
    dataAt (Function.update d (blockAddr d (tbl i) bn) blk) (tbl j) k =
      if j = i ∧ k / BSIZE = bn then blk (k % BSIZE) else dataAt d (tbl j) k := by
  have haddr : blockAddr (Function.update d (blockAddr d (tbl i) bn) blk) (tbl j) (k / BSIZE) =
      blockAddr d (tbl j) (k / BSIZE) :=
    blockAddr_update blk (hw.blockAddr_ne_indirect hi hbn hj)
  simp only [dataAt, haddr]
  by_cases h : j = i ∧ k / BSIZE = bn
  · obtain ⟨rfl, hkb⟩ := h
    rw [hkb, Function.update_self, if_pos ⟨rfl, rfl⟩]
  · rw [if_neg h, Function.update_of_ne]
    intro he
    obtain ⟨h1, h2⟩ := hw.blockAddr_inj hj hk hi hbn he
    exact h ⟨h1, h2⟩

end Wf

/-! ## Allocating and freeing slots -/

theorem live_update_iff {sb : Superblock} {tbl : Nat → Dinode} {i j : Nat} {di : Dinode}
    (ht : di.type = (tbl i).type) : Live sb (Function.update tbl i di) j ↔ Live sb tbl j := by
  by_cases hj : j = i
  · subst hj
    simp [Live, ht]
  · simp [Live, Function.update_of_ne hj]

/-- The holders after slot `s` of inode `i` is given block `a`, when nothing else
that they read has changed. -/
theorem held_update_slot {d d' : Disk} {sb : Superblock} {tbl : Nat → Dinode} {i a : Nat}
    {s : Slot} {di' : Dinode} (hi : Live sb tbl i) (htype : di'.type = (tbl i).type)
    (hnew : ∀ s', slotAddr d' di' s' = if s' = s then a else slotAddr d (tbl i) s')
    (hother : ∀ j, j ≠ i → Live sb tbl j → ∀ s', slotAddr d' (tbl j) s' = slotAddr d (tbl j) s')
    (q : Nat × Slot) :
    held d' sb (Function.update tbl i di') q = Function.update (held d sb tbl) (i, s) a q := by
  obtain ⟨j, s'⟩ := q
  by_cases hj : j = i
  · subst hj
    have hl : Live sb (Function.update tbl j di') j := (live_update_iff htype).mpr hi
    rw [held_of_live _ hl, Function.update_self, hnew]
    by_cases hs' : s' = s
    · simp [hs']
    · rw [if_neg hs', Function.update_of_ne (by simp [hs']), held_of_live _ hi]
  · rw [Function.update_of_ne (by simp [hj])]
    simp only [held, live_update_iff htype, Function.update_of_ne hj]
    split
    · exact hother j hj ‹_› s'
    · rfl

/-- Giving slot `s` of live inode `i` a block `a` whose bit was clear, setting that bit,
keeps the allocator's invariant, provided nothing else that it reads changes. -/
theorem AllocInv.alloc_slot {d d' : Disk} {tbl : Nat → Dinode} {i a : Nat} {s : Slot}
    {di' : Dinode} (h : AllocInv d tbl) (hi : Live (readsb d) tbl i)
    (hs : slotAddr d (tbl i) s = 0) (ha : a < bitLimit (readsb d))
    (hfree : bitSet d (readsb d).ninodes.toNat a = false) (hsb : readsb d' = readsb d)
    (hbit : ∀ b, b < bitLimit (readsb d) →
      bitSet d' (readsb d).ninodes.toNat b = (decide (a = b) || bitSet d (readsb d).ninodes.toNat b))
    (htype : di'.type = (tbl i).type)
    (hnew : ∀ s', slotAddr d' di' s' = if s' = s then a else slotAddr d (tbl i) s')
    (hother : ∀ j, j ≠ i → Live (readsb d) tbl j → ∀ s', slotAddr d' (tbl j) s' = slotAddr d (tbl j) s')
    (hblank : ∀ x, x < bitLimit (readsb d) → x ≠ a →
      bitSet d (readsb d).ninodes.toNat x = false → Blank d x → Blank d' x) :
    AllocInv d' (Function.update tbl i di') := by
  have hlo : 0 < dataStart (readsb d) := by have := @one_lt_dataStart (readsb d); omega
  have hheld0 : held d (readsb d) tbl (i, s) = 0 := by rw [held_of_live _ hi, hs]
  have hmid : Alloc.Inv (dataStart (readsb d)) (bitLimit (readsb d))
      (fun x => if x = a then true else bitSet d (readsb d).ninodes.toNat x) (Blank d')
      (Function.update (held d (readsb d) tbl) (i, s) a) :=
    h.alloc hlo ha hfree hheld0 (fun _ => rfl) hblank
  rw [AllocInv, hsb]
  refine hmid.congr (fun b hb => ?_) (held_update_slot hi htype hnew hother)
    (fun _ _ _ hz => hz)
  rw [hbit b hb]
  by_cases hab : a = b
  · simp [hab]
  · simp [hab, Ne.symm hab]

/-- A byte of an inode reads the same after a step that keeps its block's holder and
the block's bytes. -/
theorem dataAt_frame {d d' : Disk} {tbl tbl' : Nat → Dinode} {nb nb' : Nat → Nat}
    (hw : Wf d tbl nb) (hw' : Wf d' tbl' nb') (hsb : readsb d' = readsb d) {j k : Nat}
    (hj : Live (readsb d) tbl j) (hj' : Live (readsb d) tbl' j) (hnb : nb j ≤ nb' j)
    (hk : k / BSIZE < nb j)
    (hheld : held d' (readsb d) tbl' (j, blockSlot (k / BSIZE)) =
      held d (readsb d) tbl (j, blockSlot (k / BSIZE)))
    (hdata : d' (blockAddr d (tbl j) (k / BSIZE)) = d (blockAddr d (tbl j) (k / BSIZE))) :
    dataAt d' (tbl' j) k = dataAt d (tbl j) k := by
  have h' := (hw'.blockAddr_held (hsb ▸ hj') (show k / BSIZE < nb' j by omega)).1
  rw [hsb] at h'
  have haddr : blockAddr d' (tbl' j) (k / BSIZE) = blockAddr d (tbl j) (k / BSIZE) := by
    rw [h', hheld, (hw.blockAddr_held hj hk).1]
  simp only [dataAt, haddr, hdata]

theorem dataAt_of_addrs {d : Disk} {di di' : Dinode} (h : di'.addrs = di.addrs) (k : Nat) :
    dataAt d di' k = dataAt d di k := by
  simp [dataAt, blockAddr, h]

theorem contents_congr {d d' : Disk} {di di' : Dinode} (hs : di'.size = di.size)
    (h : ∀ k, k < di.size.toNat → dataAt d' di' k = dataAt d di k) :
    contents d' di' = contents d di := by
  simp only [contents, hs]
  exact List.map_congr_left fun k hk => h k (List.mem_range.mp hk)

theorem lt_nblocks {size : UInt32} {k : Nat} (hk : k < size.toNat) : k / BSIZE < nblocks size := by
  simp only [nblocks, BSIZE] at *
  omega

end Xv6
