import Mathlib
import Xv6.Fs.System

/-!
# A disk that fills up

`mkfs` built with `size = 4095` and `ninodes = 32712` meets all of its `assert`s: the
metadata takes blocks 0 to 4092, the root directory's block is 4093, and the one bitmap
block covers blocks 0 to 4095. `balloc` scans that whole bitmap block, so blocks 4094
and 4095 are free, and the second lies past the end of the disk.

Two one-block appends to the root directory take both. A third `writei` at the end of
the file then panics in `balloc`, and after the second append the root directory holds
block 4095, which is `sb.size`.

The counting is done once for a disk whose only live inode is the root (`RootOnly`):
its blocks are distinct data blocks below `bitLimit`, and they are the only data
blocks whose bit is set.
-/

namespace Xv6

section Holders

variable {d : Disk} {tbl : Nat → Dinode} {nb : Nat → Nat}

theorem live_of_held {sb : Superblock} {q : Nat × Slot} (hq : held d sb tbl q ≠ 0) :
    Live sb tbl q.1 := by
  by_contra h
  exact hq (if_neg h)

/-- A slot of an inode of at most `NDIRECT` blocks that holds a block holds one of its
blocks. -/
theorem Wf.held_blockAddr (hw : Wf d tbl nb) {j : Nat} (hj : Live (readsb d) tbl j) (s : Slot)
    (hq : held d (readsb d) tbl (j, s) ≠ 0) (hnb : nb j ≤ NDIRECT) :
    ∃ bn, bn < nb j ∧ held d (readsb d) tbl (j, s) = blockAddr d (tbl j) bn := by
  rw [held_of_live _ hj] at hq ⊢
  have hin := ((hw.shape j hj).inUse s).mp hq
  cases s with
  | direct k => exact ⟨k.val, hin, by rw [blockAddr, dif_pos k.isLt]; rfl⟩
  | indirect =>
    simp only [Slot.InUse] at hin
    omega
  | entry e =>
    simp only [Slot.InUse] at hin
    omega

/-- With `i` the only live inode, and no longer than `NDIRECT` blocks, the bit of a data
block is set exactly when the block is one of `i`'s. -/
theorem Wf.bitSet_iff_blocks (hw : Wf d tbl nb) {i : Nat}
    (hone : ∀ j, Live (readsb d) tbl j ↔ j = i) (hnb : nb i ≤ NDIRECT) {x : Nat}
    (hx : dataStart (readsb d) ≤ x) (hxl : x < bitLimit (readsb d)) :
    bitSet d (readsb d).ninodes.toNat x = true ↔
      x ∈ (Finset.range (nb i)).image (blockAddr d (tbl i)) := by
  have hx0 : x ≠ 0 := by
    have : 1 < dataStart (readsb d) := one_lt_dataStart
    omega
  have hi : Live (readsb d) tbl i := (hone i).mpr rfl
  rw [hw.alloc.used_iff x hxl, Finset.mem_image]
  constructor
  · rintro (h | ⟨⟨j, s⟩, hq⟩)
    · omega
    · have hq0 : held d (readsb d) tbl (j, s) ≠ 0 := by rw [hq]; exact hx0
      obtain rfl := (hone j).mp (live_of_held hq0)
      obtain ⟨bn, hbn, he⟩ := hw.held_blockAddr hi s hq0 hnb
      exact ⟨bn, Finset.mem_range.mpr hbn, he.symm.trans hq⟩
  · rintro ⟨bn, hbn, he⟩
    exact .inr ⟨(i, blockSlot bn), (hw.blockAddr_held hi (Finset.mem_range.mp hbn)).1.symm.trans he⟩

end Holders

/-- `mkfs` with 4095 blocks and 32712 inodes: two free blocks, 4094 and 4095. -/
def MkfsParams.tight : MkfsParams where
  size := 4095
  ninodes := 32712
  root_lt := by decide
  used_lt := by decide
  fits := by decide
  size_lt := by decide
  ninodes_lt := by decide

theorem tight_dataStart : dataStart (readsb MkfsParams.tight.image) = 4093 := by
  rw [MkfsParams.dataStart_image]
  rfl

theorem tight_bitLimit : bitLimit (readsb MkfsParams.tight.image) = 4096 := by
  simp only [bitLimit, MkfsParams.readsb_size]
  rfl

/-- A disk with `tight`'s super block whose only live inode is the root directory, a
file of `k` whole blocks. -/
structure RootOnly (d : Disk) (k : Nat) : Prop where
  inv : FsInv d
  sb : readsb d = readsb MkfsParams.tight.image
  live : ∀ j, Live (readsb d) (dinodeAt d) j ↔ j = ROOTINO
  type : (dinodeAt d ROOTINO).type = T_DIR
  size : (dinodeAt d ROOTINO).size.toNat = k * BSIZE

namespace RootOnly

variable {d : Disk} {k : Nat}

theorem start : RootOnly MkfsParams.tight.image 1 where
  inv := MkfsParams.tight.mkfs_inv
  sb := rfl
  live _ := MkfsParams.tight.live_image
  type := by rw [MkfsParams.dinodeAt_root]; rfl
  size := by rw [MkfsParams.dinodeAt_root]; rfl

theorem nblocks_eq (h : RootOnly d k) : nblocks (dinodeAt d ROOTINO).size = k := by
  rw [nblocks, h.size]
  simp only [BSIZE]
  omega

theorem root_live (h : RootOnly d k) : Live (readsb d) (dinodeAt d) ROOTINO :=
  (h.live ROOTINO).mpr rfl

theorem bitSet_iff (h : RootOnly d k) (hk : k ≤ NDIRECT) {x : Nat} (hx : 4093 ≤ x)
    (hxl : x < 4096) :
    bitSet d (readsb d).ninodes.toNat x = true ↔
      x ∈ (Finset.range k).image (blockAddr d (dinodeAt d ROOTINO)) := by
  have hiff := Wf.bitSet_iff_blocks h.inv h.live (x := x) (by rw [h.nblocks_eq]; exact hk)
    (by rw [h.sb, tight_dataStart]; exact hx) (by rw [h.sb, tight_bitLimit]; exact hxl)
  rwa [h.nblocks_eq] at hiff

/-- With fewer than three blocks the root leaves a data block below 4096 free. -/
theorem not_full (h : RootOnly d k) (hk : k < 3) : ¬ Full d := by
  intro hfull
  have hcard : ((Finset.range k).image (blockAddr d (dinodeAt d ROOTINO))).card <
      (Finset.Ico 4093 4096).card := by
    calc ((Finset.range k).image (blockAddr d (dinodeAt d ROOTINO))).card
        ≤ (Finset.range k).card := Finset.card_image_le
      _ < (Finset.Ico 4093 4096).card := by simp only [Finset.card_range, Nat.card_Ico]; omega
  obtain ⟨x, hx, hfree⟩ := Finset.exists_mem_notMem_of_card_lt_card hcard
  rw [Finset.mem_Ico] at hx
  have hset := hfull x (by rw [h.sb, tight_bitLimit]; exact hx.2)
  exact hfree ((h.bitSet_iff (by simp only [NDIRECT]; omega) hx.1 hx.2).mp hset)

/-- Three distinct blocks in `[4093, 4096)`: the root holds all of them. -/
theorem blocks_eq (h : RootOnly d 3) :
    (Finset.range 3).image (blockAddr d (dinodeAt d ROOTINO)) = Finset.Ico 4093 4096 := by
  have hi := h.root_live
  have hnb : ∀ bn, bn ∈ Finset.range 3 → bn < nblocks (dinodeAt d ROOTINO).size := by
    intro bn hbn
    rw [h.nblocks_eq]
    exact Finset.mem_range.mp hbn
  apply Finset.eq_of_subset_of_card_le
  · intro x hx
    obtain ⟨bn, hbn, rfl⟩ := Finset.mem_image.mp hx
    have hmem := Wf.blockAddr_mem h.inv hi (hnb bn hbn)
    rw [h.sb, tight_dataStart, tight_bitLimit] at hmem
    exact Finset.mem_Ico.mpr hmem
  · rw [Finset.card_image_of_injOn, Finset.card_range, Nat.card_Ico]
    intro a ha b hb he
    exact (Wf.blockAddr_inj h.inv hi (hnb a ha) hi (hnb b hb) he).2

theorem full (h : RootOnly d 3) : Full d := by
  intro x hx
  rw [h.sb, tight_bitLimit] at hx
  by_cases hlo : x < 4093
  · -- metadata
    refine (h.inv.alloc.used_iff x (by rw [h.sb, tight_bitLimit]; exact hx)).mpr (.inl ?_)
    rw [h.sb, tight_dataStart]
    exact hlo
  · rw [h.bitSet_iff (by decide) (by omega) hx, h.blocks_eq]
    exact Finset.mem_Ico.mpr ⟨by omega, hx⟩

/-- Appending one block to the root directory while the bitmap has room. -/
theorem append (devsw : Nat → Devsw) (h : RootOnly d k) (hk : k < 3) (src : Nat → UInt8) :
    ∃ d', fsNext devsw d (.writei ROOTINO src (k * BSIZE).toUInt32 BSIZE.toUInt32) = some d' ∧
      RootOnly d' (k + 1) := by
  have hi := h.root_live
  have hdev : (dinodeAt d ROOTINO).type ≠ T_DEV := by rw [h.type]; decide
  have hoff : (k * BSIZE).toUInt32.toNat = k * BSIZE :=
    Word32.toNat_toUInt32_of_lt (by simp only [BSIZE]; omega)
  have hn : BSIZE.toUInt32.toNat = BSIZE := rfl
  have hgood : ¬ ((dinodeAt d ROOTINO).size.toNat < (k * BSIZE).toUInt32.toNat ∨
      2 ^ 32 ≤ (k * BSIZE).toUInt32.toNat + BSIZE.toUInt32.toNat) := by
    rw [hoff, hn, h.size]
    simp only [BSIZE]
    omega
  rcases (writei_spec devsw h.inv hi hdev src _ _).2 hgood with ⟨herr, -⟩ | ⟨d', ip', r, hok, -, hpost⟩
  · -- `balloc` cannot panic while a bit is clear
    have hfull := (writei_append_error_iff devsw h.inv hi hdev src
      (by rw [hoff, h.nblocks_eq]) (by rw [hoff, h.size]) (by rw [hn]; decide) (by rw [hn])
      (by rw [h.nblocks_eq]; simp only [NDIRECT]; omega)).mp herr
    exact absurd hfull (h.not_full hk)
  · refine ⟨d', by simp only [fsNext, if_pos hi, hok], ?_⟩
    refine ⟨hpost.inv, hpost.sb.trans h.sb, fun j => (hpost.live_iff j).trans (h.live j), ?_, ?_⟩
    · rw [hpost.dinode, hpost.fields]
      exact h.type
    · rw [hpost.dinode, hpost.size, h.size, hoff, hn]
      simp only [MAXFILE, NDIRECT, NINDIRECT, BSIZE]
      omega

end RootOnly

/-- Two one-block appends to the root directory of `tight`'s image. -/
theorem tight_run (devsw : Nat → Devsw) (src : Nat → UInt8) :
    ∃ d, Reach.Reachable (fun d => d = MkfsParams.tight.image) (Reach.stepOf (fsNext devsw)) d ∧
      RootOnly d 3 := by
  obtain ⟨d1, h1, r1⟩ := RootOnly.start.append devsw (by decide) src
  obtain ⟨d2, h2, r2⟩ := r1.append devsw (by decide) src
  exact ⟨d2, .step _ (.step _ (.init rfl) h1) h2, r2⟩

/-- A third append panics: the root directory is 1536 bytes long, the write starts at its
end and stays far below `MAXFILE` blocks, and `balloc` finds every bit set. -/
theorem writei_full_panics (devsw : Nat → Devsw) (src : Nat → UInt8) :
    ∃ d, Reach.Reachable (fun d => d = MkfsParams.tight.image) (Reach.stepOf (fsNext devsw)) d ∧
      Live (readsb d) (dinodeAt d) ROOTINO ∧ (dinodeAt d ROOTINO).type ≠ T_DEV ∧
      (dinodeAt d ROOTINO).size.toNat = 1536 ∧
      writei devsw d (Inode.load d ROOTINO) src 1536 512 = .error "balloc: out of blocks" := by
  obtain ⟨d, hreach, h⟩ := tight_run devsw src
  have hi := h.root_live
  have hdev : (dinodeAt d ROOTINO).type ≠ T_DEV := by rw [h.type]; decide
  refine ⟨d, hreach, hi, hdev, h.size, ?_⟩
  exact (writei_append_error_iff devsw h.inv hi hdev src (by rw [h.nblocks_eq]; rfl)
    (by rw [h.size]; rfl) (by decide) (by decide) (by rw [h.nblocks_eq]; decide)).mpr h.full

/-- After the two appends the root directory holds block 4095, which is `sb.size`. -/
theorem balloc_past_size (devsw : Nat → Devsw) (src : Nat → UInt8) :
    ∃ d, Reach.Reachable (fun d => d = MkfsParams.tight.image) (Reach.stepOf (fsNext devsw)) d ∧
      Live (readsb d) (dinodeAt d) ROOTINO ∧
      ∃ s, slotAddr d (dinodeAt d ROOTINO) s = (readsb d).size.toNat := by
  obtain ⟨d, hreach, h⟩ := tight_run devsw src
  have hi := h.root_live
  have hmem : 4095 ∈ (Finset.range 3).image (blockAddr d (dinodeAt d ROOTINO)) := by
    rw [h.blocks_eq]
    decide
  obtain ⟨bn, hbn, he⟩ := Finset.mem_image.mp hmem
  have hbn' : bn < nblocks (dinodeAt d ROOTINO).size := by
    rw [h.nblocks_eq]
    exact Finset.mem_range.mp hbn
  refine ⟨d, hreach, hi, blockSlot bn, ?_⟩
  rw [h.sb, MkfsParams.readsb_size, ← ((h.inv.shape ROOTINO hi).blockAddr_eq hbn').1, he]
  rfl

end Xv6
