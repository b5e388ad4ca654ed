import Xv6.Fs.Inv
import Xv6.Fs.Inode

/-!
# Writing dinodes

`iupdate` and `ialloc` write one `dinode` into its inode block. The inode table read
back from the disk changes at that inode only, and since an inode block is metadata,
the invariant survives as long as the new dinode holds what the old one held.
-/

namespace Xv6

theorem iblock_ne_one (i : Nat) : IBLOCK i ≠ 1 := by
  simp only [IBLOCK, IPB, BSIZE]
  omega

theorem live_update_of_ne {sb : Superblock} {tbl : Nat → Dinode} {i j : Nat} {di : Dinode}
    (hji : j ≠ i) : Live sb (Function.update tbl i di) j ↔ Live sb tbl j := by
  simp only [Live, Function.update_of_ne hji]

/-- Writing dinode `di` into the slot of inode `i` changes the table at `i` only. -/
theorem dinodeAt_encode (d : Disk) (i : Nat) (di : Dinode) :
    dinodeAt (Function.update d (IBLOCK i) (Dinode.encode (d (IBLOCK i)) (dinodeOff i) di)) =
      Function.update (dinodeAt d) i di := by
  funext j
  by_cases hji : j = i
  · subst hji
    simp [dinodeAt, Dinode.decode_encode]
  rw [Function.update_of_ne hji]
  by_cases hb : IBLOCK j = IBLOCK i
  · -- another dinode of the same block: its 64 bytes lie apart from those written
    have hoff : dinodeOff j + 64 ≤ dinodeOff i ∨ dinodeOff i + 64 ≤ dinodeOff j := by
      simp only [IBLOCK, dinodeOff, IPB, BSIZE] at hb ⊢
      omega
    simp only [dinodeAt, hb, Function.update_self]
    exact Dinode.decode_congr fun x h1 h2 => Dinode.encode_apply_of_ne di (by omega)
  · exact dinodeAt_update _ (Ne.symm hb)

theorem dinodeAt_iupdate (d : Disk) (ip : Inode) :
    dinodeAt (iupdate d ip) = Function.update (dinodeAt d) ip.inum ip.toDinode :=
  dinodeAt_encode d ip.inum ip.toDinode

section Wf

variable {d : Disk} {tbl : Nat → Dinode} {nb : Nat → Nat}

/-- Writing inode block `IBLOCK i` with table entry `i` replaced by `di` keeps the
invariant, if `di` holds what entry `i` held and has the shape of `n` blocks. -/
theorem Wf.update_iblock (hw : Wf d tbl nb) {i : Nat} (hi : i < (readsb d).ninodes.toNat)
    (blk : Block) {di : Dinode} {n : Nat}
    (hheld : ∀ s, held d (readsb d) (Function.update tbl i di) (i, s) = held d (readsb d) tbl (i, s))
    (hshape : Live (readsb d) (Function.update tbl i di) i → Shape d di n)
    (hsize : Live (readsb d) (Function.update tbl i di) i → di.size.toNat ≤ MAXFILE * BSIZE) :
    Wf (Function.update d (IBLOCK i) blk) (Function.update tbl i di) (Function.update nb i n) := by
  have hsb : readsb (Function.update d (IBLOCK i) blk) = readsb d :=
    readsb_update blk (iblock_ne_one i)
  have hmeta : IBLOCK i < dataStart (readsb d) :=
    lt_of_lt_of_le (iblock_lt_bmapStart hi) (Nat.le_add_right _ _)
  -- the new entry's indirect block, if any, is one entry `i` held: a data block
  have hind : Live (readsb d) (Function.update tbl i di) i → di.addrs INDIRECT ≠ 0 →
      IBLOCK i ≠ (di.addrs INDIRECT).toNat := by
    intro hl hne
    have h0 : held d (readsb d) tbl (i, .indirect) ≠ 0 := by
      rw [← hheld, held_of_live _ hl, Function.update_self]
      exact fun h => hne (UInt32.toNat_inj.mp h)
    have hmem := (hw.alloc.held_mem _ h0).1
    rw [← hheld, held_of_live _ hl, Function.update_self] at hmem
    exact Nat.ne_of_lt (lt_of_lt_of_le hmeta hmem)
  have hslot : ∀ j, Live (readsb d) (Function.update tbl i di) j → ∀ s,
      slotAddr (Function.update d (IBLOCK i) blk) (Function.update tbl i di j) s =
        slotAddr d (Function.update tbl i di j) s := by
    intro j hj s
    by_cases hji : j = i
    · subst hji
      rw [Function.update_self]
      exact slotAddr_update blk (hind hj) s
    · rw [Function.update_of_ne hji]
      exact hw.slotAddr_update_meta ((live_update_of_ne hji).1 hj) hmeta blk s
  have hheld' : ∀ q, held (Function.update d (IBLOCK i) blk) (readsb d) (Function.update tbl i di) q =
      held d (readsb d) tbl q := by
    rintro ⟨j, s⟩
    have hd : held (Function.update d (IBLOCK i) blk) (readsb d) (Function.update tbl i di) (j, s) =
        held d (readsb d) (Function.update tbl i di) (j, s) := by
      simp only [held]
      split
      · exact hslot j ‹_› s
      · rfl
    rw [hd]
    by_cases hji : j = i
    · subst hji
      exact hheld s
    · simp only [held, Function.update_of_ne hji, live_update_of_ne hji]
  refine ⟨hsb ▸ hw.geom, ?_, fun j hj => ?_, fun j hj => ?_⟩
  · rw [AllocInv, hsb]
    refine hw.alloc.congr (fun b hb => bitSet_update blk ?_) hheld' (fun b hb hf hz o ho => ?_)
    · have := @bmapStart_le_bblock (readsb d) b
      have := iblock_lt_bmapStart hi
      omega
    · -- a free block is a data block, not the inode block
      have hlo := (hw.alloc.free_block hb hf).1
      rw [Function.update_of_ne (by omega)]
      exact hz o ho
  · rw [hsb] at hj
    have h := hslot j hj
    by_cases hji : j = i
    · subst hji
      simp only [Function.update_self] at h ⊢
      exact (hshape hj).congr h
    · simp only [Function.update_of_ne hji] at h ⊢
      exact (hw.shape j ((live_update_of_ne hji).1 hj)).congr h
  · rw [hsb] at hj
    by_cases hji : j = i
    · subst hji
      rw [Function.update_self]
      exact hsize hj
    · rw [Function.update_of_ne hji]
      exact hw.size_le j ((live_update_of_ne hji).1 hj)

/-- The invariant reads the table at inodes below `ninodes` only, and the block counts
at live inodes only. -/
theorem Wf.congr_tbl (hw : Wf d tbl nb) {tbl' : Nat → Dinode} {nb' : Nat → Nat}
    (htbl : ∀ j, j < (readsb d).ninodes.toNat → tbl' j = tbl j)
    (hnb : ∀ j, Live (readsb d) tbl j → nb' j = nb j) : Wf d tbl' nb' := by
  have hlive : ∀ j, Live (readsb d) tbl' j ↔ Live (readsb d) tbl j := by
    intro j
    constructor
    · rintro ⟨h0, hj, ht⟩
      exact ⟨h0, hj, htbl j hj ▸ ht⟩
    · rintro ⟨h0, hj, ht⟩
      exact ⟨h0, hj, (htbl j hj).symm ▸ ht⟩
  have htbl' : ∀ j, Live (readsb d) tbl j → tbl' j = tbl j := fun j hj => htbl j hj.2.1
  refine ⟨hw.geom, ?_, fun j hj => ?_, fun j hj => ?_⟩
  · refine hw.alloc.congr (fun _ _ => rfl) (fun q => ?_) (fun _ _ _ hz => hz)
    simp only [held, hlive]
    split
    · rw [htbl' q.1 ‹_›]
    · rfl
  · rw [hlive] at hj
    rw [htbl' j hj, hnb j hj]
    exact hw.shape j hj
  · rw [hlive] at hj
    rw [htbl' j hj]
    exact hw.size_le j hj

theorem slotAddr_of_addrs {di di' : Dinode} (h : di'.addrs = di.addrs) (s : Slot) :
    slotAddr d di' s = slotAddr d di s := by
  cases s <;> simp [slotAddr, h]

theorem Shape.of_addrs {di di' : Dinode} {n : Nat} (hs : Shape d di n) (h : di'.addrs = di.addrs) :
    Shape d di' n where
  le_maxfile := hs.le_maxfile
  inUse s := by rw [slotAddr_of_addrs h]; exact hs.inUse s

/-- `iupdate` of an inode whose type and addresses are those in the table, such as one
whose size grew: the invariant holds with the new table entry. -/
theorem Wf.iupdate_of_addrs (hw : Wf d tbl nb) (ip : Inode) (hi : ip.inum < (readsb d).ninodes.toNat)
    (htype : ip.type = (tbl ip.inum).type) (haddrs : ip.addrs = (tbl ip.inum).addrs)
    (hsize : Live (readsb d) tbl ip.inum → ip.size.toNat ≤ MAXFILE * BSIZE) :
    Wf (iupdate d ip) (Function.update tbl ip.inum ip.toDinode) nb := by
  have hlive := @live_update_iff (readsb d) tbl ip.inum ip.inum ip.toDinode htype
  have hw' : Wf (iupdate d ip) (Function.update tbl ip.inum ip.toDinode)
      (Function.update nb ip.inum (nb ip.inum)) :=
    hw.update_iblock hi _
      (fun s => by simp only [held, hlive, Function.update_self, slotAddr_of_addrs haddrs])
      (fun h => (hw.shape _ (hlive.1 h)).of_addrs haddrs)
      (fun h => hsize (hlive.1 h))
  rwa [Function.update_eq_self] at hw'

/-- Writing a block below the data area leaves every byte of every live inode alone. -/
theorem Wf.dataAt_update_meta (hw : Wf d tbl nb) {j k x : Nat} (hj : Live (readsb d) tbl j)
    (hk : k / BSIZE < nb j) (hx0 : 0 < x) (hx : x < dataStart (readsb d)) (blk : Block) :
    dataAt (Function.update d x blk) (tbl j) k = dataAt d (tbl j) k := by
  have hind : x ≠ ((tbl j).addrs INDIRECT).toNat := by
    intro he
    by_cases h0 : (tbl j).addrs INDIRECT = 0
    · rw [h0] at he
      simp at he
      omega
    · have := (hw.indirect_mem hj h0).1
      omega
  have hmem := (hw.blockAddr_mem hj hk).1
  simp only [dataAt, blockAddr_update blk hind]
  rw [Function.update_of_ne (by omega)]

theorem Wf.dataAt_iupdate (hw : Wf d tbl nb) {j k : Nat} (hj : Live (readsb d) tbl j)
    (hk : k / BSIZE < nb j) (ip : Inode) (hi : ip.inum < (readsb d).ninodes.toNat) :
    dataAt (iupdate d ip) (tbl j) k = dataAt d (tbl j) k :=
  hw.dataAt_update_meta hj hk (by simp only [IBLOCK, IPB, BSIZE]; omega)
    (lt_of_lt_of_le (iblock_lt_bmapStart hi) (Nat.le_add_right _ _)) _

end Wf

/-! ## `ialloc` and `iupdate` against `FsInv` -/

/-- A dinode with no addresses holds nothing. -/
theorem slotAddr_eq_zero (d : Disk) {di : Dinode} (h : ∀ k, di.addrs k = 0) (s : Slot) :
    slotAddr d di s = 0 := by
  cases s <;> simp [slotAddr, h]

theorem shape_of_addrs_zero (d : Disk) {di : Dinode} (h : ∀ k, di.addrs k = 0) : Shape d di 0 where
  le_maxfile := Nat.zero_le _
  inUse s := by
    rw [slotAddr_eq_zero d h]
    cases s <;> simp [Slot.InUse]

theorem slotAddr_blank (d : Disk) (type : Int16) (s : Slot) : slotAddr d (Dinode.blank type) s = 0 :=
  slotAddr_eq_zero d (fun _ => rfl) s

@[simp] theorem nblocks_blank (type : Int16) : nblocks (Dinode.blank type).size = 0 := by
  simp [nblocks, Dinode.blank, BSIZE]

theorem shape_blank (d : Disk) (type : Int16) : Shape d (Dinode.blank type) 0 :=
  shape_of_addrs_zero d fun _ => rfl

/-- `ialloc` hands out the first free inode from 1 on, or panics. -/
theorem ialloc_cases (d : Disk) (type : Int16) :
    ialloc d type = .error "ialloc: no inodes" ∨
      ∃ i, 0 < i ∧ i < (readsb d).ninodes.toNat ∧ (dinodeAt d i).type = 0 ∧
        ialloc d type = .ok (Function.update d (IBLOCK i)
          (Dinode.encode (d (IBLOCK i)) (dinodeOff i) (Dinode.blank type)), i) := by
  suffices h : ∀ inum, 0 < inum →
      iallocFrom d (readsb d).ninodes.toNat type inum = .error "ialloc: no inodes" ∨
        ∃ i, 0 < i ∧ i < (readsb d).ninodes.toNat ∧ (dinodeAt d i).type = 0 ∧
          iallocFrom d (readsb d).ninodes.toNat type inum = .ok (Function.update d (IBLOCK i)
            (Dinode.encode (d (IBLOCK i)) (dinodeOff i) (Dinode.blank type)), i) from
    h 1 Nat.one_pos
  intro inum hpos
  fun_induction iallocFrom d (readsb d).ninodes.toNat type inum with
  | case1 inum hin h0 => exact Or.inr ⟨inum, hpos, hin, h0, rfl⟩
  | case2 inum hin h0 ih => exact ih (by omega)
  | case3 inum hin => exact Or.inl rfl

variable {d : Disk}

/-- The invariant read back from the disk after one dinode is written, from the
invariant for the table with that entry replaced. -/
theorem FsInv.of_update {i : Nat} {blk : Block} {di : Dinode}
    (hw : Wf (Function.update d (IBLOCK i) blk) (Function.update (dinodeAt d) i di)
      (Function.update (fun j => nblocks (dinodeAt d j).size) i (nblocks di.size)))
    (hdin : dinodeAt (Function.update d (IBLOCK i) blk) = Function.update (dinodeAt d) i di) :
    FsInv (Function.update d (IBLOCK i) blk) := by
  rw [FsInv, hdin]
  refine hw.congr_tbl (fun _ _ => rfl) fun j _ => ?_
  by_cases hji : j = i
  · subst hji
    simp
  · simp [Function.update_of_ne hji]

theorem FsInv.ialloc (hinv : FsInv d) {i : Nat} (hi : i < (readsb d).ninodes.toNat)
    (h0 : (dinodeAt d i).type = 0) (type : Int16) :
    FsInv (Function.update d (IBLOCK i)
      (Dinode.encode (d (IBLOCK i)) (dinodeOff i) (Dinode.blank type))) := by
  have hnot : ¬ Live (readsb d) (dinodeAt d) i := fun h => h.2.2 h0
  refine FsInv.of_update ?_ (dinodeAt_encode d i _)
  refine Wf.update_iblock hinv hi _ (fun s => ?_) (fun _ => by simpa using shape_blank d type)
    (fun _ => by simp [Dinode.blank])
  simp only [held, Function.update_self, slotAddr_blank, if_neg hnot]
  split <;> rfl

/-- `iupdate` of an inode whose type, size and addresses are those on disk, such as one
whose link count or device numbers changed. -/
theorem FsInv.iupdate_meta (hinv : FsInv d) (ip : Inode) (hi : ip.inum < (readsb d).ninodes.toNat)
    (htype : ip.type = (dinodeAt d ip.inum).type) (hsize : ip.size = (dinodeAt d ip.inum).size)
    (haddrs : ip.addrs = (dinodeAt d ip.inum).addrs) : FsInv (iupdate d ip) := by
  have hw := Wf.iupdate_of_addrs hinv ip hi htype haddrs fun hl => hsize ▸ hinv.size_le _ hl
  unfold iupdate at hw ⊢
  refine FsInv.of_update ?_ (dinodeAt_encode d ip.inum _)
  have hnb : Function.update (fun j => nblocks (dinodeAt d j).size) ip.inum (nblocks ip.size) =
      fun j => nblocks (dinodeAt d j).size := by
    rw [hsize]
    exact Function.update_eq_self _ _
  rwa [hnb]

end Xv6
