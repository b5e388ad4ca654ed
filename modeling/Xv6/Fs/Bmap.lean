import Xv6.Fs.Inv
import Xv6.Lib.Word32

/-!
# `bmap` against the invariant

`bmap` on a block an inode already has returns it and changes nothing
(`bmap_of_lt`); that is all `readi` asks of it. `writei` also calls it on the block
just past the inode's last one; there it allocates (`Wf.bmap_append`): it either
panics because the bitmap is full, or it returns a fresh block, the inode has one
block more, the invariant holds again, and no byte of any inode's existing blocks
has changed. The twelfth-to-thirteenth step allocates the indirect block first, and
relies on its being blank (`Alloc.Inv.zero_of_free`): the entry it then reads is 0.
-/

namespace Xv6

theorem bmap_of_lt {d : Disk} {ip : Inode} {n bn : Nat} (hs : Shape d ip.toDinode n)
    (hbn : bn < n) :
    ∃ a, bmap d ip bn = .ok (d, ip, a) ∧ a.toNat = blockAddr d ip.toDinode bn := by
  have hslot := (hs.inUse (blockSlot bn)).mpr
    ((blockSlot_inUse (lt_of_lt_of_le hbn hs.le_maxfile)).mpr hbn)
  unfold bmap
  split
  · rename_i h
    have hne : ip.addrs ⟨bn, by omega⟩ ≠ 0 := by
      intro h0
      simp [blockSlot, h, slotAddr, h0] at hslot
    simp only [if_neg hne]
    exact ⟨_, rfl, by simp [blockAddr, h]⟩
  · rename_i h
    have hlt : bn - NDIRECT < NINDIRECT := by
      have := hs.le_maxfile
      simp only [MAXFILE, NINDIRECT, NDIRECT, BSIZE] at *
      omega
    have hind := hs.indirect_ne_zero hbn (by omega)
    have hent : Bytes.getU32 (d (ip.addrs INDIRECT).toNat) (4 * (bn - NDIRECT)) ≠ 0 := by
      intro h0
      have hb : blockAddr d ip.toDinode bn = 0 := by simp [blockAddr, h, h0]
      exact (hs.blockAddr_eq hbn).2 hb
    simp only [if_pos hlt, if_neg hind, if_neg hent, pure_bind]
    exact ⟨_, rfl, by simp [blockAddr, h]⟩

/-- The blocks an inode of `n` data blocks holds: the data blocks, and past `NDIRECT`
the indirect block as well. -/
def blockCount (n : Nat) : Nat := if NDIRECT < n then n + 1 else n

/-- Appending block `n` costs one block, and two at the thirteenth, which also needs
the indirect block. -/
theorem blockCount_succ (n : Nat) :
    blockCount (n + 1) = blockCount n + if n = NDIRECT then 2 else 1 := by
  unfold blockCount
  split_ifs <;> omega

theorem blockCount_mono {m n : Nat} (h : m ≤ n) : blockCount m ≤ blockCount n := by
  unfold blockCount
  split_ifs <;> omega

/-- What `bmap` leaves behind when it appends block `nb i` to inode `i`, whose
in-memory copy is `ip`: the new copy `ip'` differs from `ip` in its addresses only,
the invariant holds with one block more for `i`, the block returned is block
`nb i` of `i`, the blocks it took are gone from the free count, and the bytes of
every existing block of every inode are unchanged. -/
structure Appended (d : Disk) (tbl : Nat → Dinode) (nb : Nat → Nat) (i : Nat) (ip : Inode)
    (d' : Disk) (ip' : Inode) (a : UInt32) : Prop where
  inode : ip' = { ip with addrs := ip'.addrs }
  sb : readsb d' = readsb d
  low : ∀ x, x < bmapStart (readsb d) → d' x = d x
  wf : Wf d' (Function.update tbl i ip'.toDinode) (Function.update nb i (nb i + 1))
  addr : blockAddr d' ip'.toDinode (nb i) = a.toNat
  free : freeBlocks d' + blockCount (nb i + 1) = freeBlocks d + blockCount (nb i)
  data : ∀ j, Live (readsb d) tbl j → ∀ k, k / BSIZE < nb j →
    dataAt d' (Function.update tbl i ip'.toDinode j) k = dataAt d (tbl j) k

section Append

variable {d : Disk} {tbl : Nat → Dinode} {nb : Nat → Nat} {i : Nat} {ip : Inode}

/-- Facts about a block `balloc` hands out: it is a data block inside the scanned
range, and setting its bit touches a bitmap block only. -/
theorem balloc_block (hg : Geometry (readsb d)) (halloc : AllocInv d tbl) {a : Nat}
    (ha : a < bitLimit (readsb d)) (hfree : bitSet d (readsb d).ninodes.toNat a = false) :
    dataStart (readsb d) ≤ a ∧ a.toUInt32.toNat = a ∧
      readsb (setBitmap d (readsb d).ninodes.toNat a) = readsb d ∧
      BBLOCK a (readsb d).ninodes.toNat < dataStart (readsb d) := by
  have hbb := bblock_lt_dataStart ha
  have h3 : bmapStart (readsb d) ≤ BBLOCK a (readsb d).ninodes.toNat := bmapStart_le_bblock a
  refine ⟨(halloc.free_block ha hfree).1, Word32.toNat_toUInt32_of_lt ?_, ?_, hbb⟩
  · exact lt_trans ha (bitLimit_lt hg)
  · apply readsb_update
    simp only [bmapStart, IPB, BSIZE] at h3
    omega

/-- A block past the end of a live inode whose pointer slots all are free. -/
theorem Wf.direct_free (hw : Wf d tbl nb) (hi : Live (readsb d) tbl i) (hip : tbl i = ip.toDinode)
    (hA : nb i < NDIRECT) :
    ip.addrs ⟨nb i, by omega⟩ = 0 ∧ ip.addrs INDIRECT = 0 := by
  have hs := hw.shape i hi
  rw [hip] at hs
  constructor
  · have h := hs.inUse (.direct ⟨nb i, hA⟩)
    simp only [slotAddr, Slot.InUse, lt_irrefl, iff_false, not_not] at h
    exact UInt32.toNat_inj.mp h
  · have h := (hs.inUse .indirect).not
    simp only [slotAddr, Slot.InUse, not_not] at h
    exact UInt32.toNat_inj.mp (h.mpr (by omega))

/-- An existing block's slot is not the slot of the block being appended. -/
theorem Wf.slot_ne_append (hw : Wf d tbl nb) {j bn : Nat} (hj : Live (readsb d) tbl j)
    (hbn : bn < nb j) (hmax : nb i < MAXFILE) : (j, blockSlot bn) ≠ (i, blockSlot (nb i)) := by
  intro he
  simp only [Prod.mk.injEq] at he
  obtain ⟨rfl, hslot⟩ := he
  have := blockSlot_injective (lt_of_lt_of_le hbn (hw.shape j hj).le_maxfile) hmax hslot
  omega

theorem Wf.bmap_append_direct (hw : Wf d tbl nb) (hi : Live (readsb d) tbl i)
    (hip : tbl i = ip.toDinode) (hA : nb i < NDIRECT) :
    (bmap d ip (nb i) = .error "balloc: out of blocks" ∧
        freeBlocks d + blockCount (nb i) < blockCount (nb i + 1)) ∨
      ∃ d' ip' a, bmap d ip (nb i) = .ok (d', ip', a) ∧ Appended d tbl nb i ip d' ip' a := by
  obtain ⟨hk0, hind0⟩ := hw.direct_free hi hip hA
  have hmaxA : nb i + 1 < MAXFILE := by
    have : nb i < 12 := hA
    simp only [MAXFILE, NINDIRECT, NDIRECT, BSIZE]
    omega
  rcases balloc_cases d hw.geom with ⟨herr, hfull⟩ | ⟨a, ha, hfree, hok⟩
  · refine .inl ⟨?_, ?_⟩
    · simp only [bmap, dif_pos hA, if_pos hk0, herr]
      rfl
    · -- the bitmap is full: no block is free
      rw [(freeBlocks_eq_zero_iff d).mpr hfull, blockCount_succ, if_neg (by omega)]
      omega
  right
  obtain ⟨hlo, haU, hsb, hbb⟩ := balloc_block hw.geom hw.alloc ha hfree
  set N := (readsb d).ninodes.toNat
  let kA : Fin (NDIRECT + 1) := ⟨nb i, by omega⟩
  let ip' : Inode := { ip with addrs := Function.update ip.addrs kA a.toUInt32 }
  refine ⟨setBitmap d N a, ip', a.toUInt32, ?_, ?_⟩
  · simp only [bmap, dif_pos hA, if_pos hk0, hok]
    rfl
  -- setting the bit writes a bitmap block only
  have hother : ∀ j, Live (readsb d) tbl j → ∀ s,
      slotAddr (setBitmap d N a) (tbl j) s = slotAddr d (tbl j) s :=
    fun j hj s => hw.slotAddr_update_meta hj hbb _ s
  have htype : ip'.toDinode.type = (tbl i).type := by rw [hip]
  have hnew : ∀ s, slotAddr (setBitmap d N a) ip'.toDinode s =
      if s = .direct ⟨nb i, hA⟩ then a else slotAddr d (tbl i) s := by
    intro s
    rw [hip]
    cases s with
    | direct k =>
      by_cases hk : k.val = nb i
      · have hkk : k = ⟨nb i, hA⟩ := Fin.ext hk
        subst hkk
        simp [slotAddr, ip', kA, haU]
      · have hne : k.castSucc ≠ kA := fun h => hk (by simpa [kA, Fin.ext_iff] using h)
        simp [slotAddr, ip', Function.update_of_ne hne, Fin.ext_iff, hk]
    | indirect =>
      have hne : INDIRECT ≠ kA := by simp [INDIRECT, kA, Fin.ext_iff]; omega
      simp [slotAddr, ip', Function.update_of_ne hne]
    | entry j =>
      have hne : INDIRECT ≠ kA := by simp [INDIRECT, kA, Fin.ext_iff]; omega
      simp [slotAddr, ip', Function.update_of_ne hne, hind0]
  have ha0 : a ≠ 0 := by have := @one_lt_dataStart (readsb d); omega
  have hshape : Shape (setBitmap d N a) ip'.toDinode (nb i + 1) := by
    refine ⟨by omega, fun s => ?_⟩
    have hslot : blockSlot (nb i) = .direct ⟨nb i, hA⟩ := by simp [blockSlot, hA]
    rw [hnew s, Slot.inUse_succ s (by omega) (by omega), hslot]
    by_cases hs : s = .direct ⟨nb i, hA⟩
    · simp [hs, ha0]
    · rw [if_neg hs]
      simp [hs, (hw.shape i hi).inUse s]
  have hlive : ∀ j, Live (readsb d) (Function.update tbl i ip'.toDinode) j ↔ Live (readsb d) tbl j :=
    fun j => live_update_iff htype
  have hwf : Wf (setBitmap d N a) (Function.update tbl i ip'.toDinode)
      (Function.update nb i (nb i + 1)) := by
    refine ⟨hsb ▸ hw.geom, ?_, fun j hj => ?_, fun j hj => ?_⟩
    · refine hw.alloc.alloc_slot hi (by rw [hip]; simp [slotAddr, hk0]) ha hfree hsb
        (fun b _ => bitSet_setBitmap d N a b) htype hnew (fun j _ hj s => hother j hj s) ?_
      intro x hx _ hf hz o ho
      have hxlo := (hw.alloc.free_block hx hf).1
      rw [setBitmap_apply_of_ne (by omega)]
      exact hz o ho
    · rw [hsb, hlive] at hj
      by_cases hji : j = i
      · subst hji
        simpa using hshape
      · rw [Function.update_of_ne hji, Function.update_of_ne hji]
        exact (hw.shape j hj).congr (hother j hj)
    · rw [hsb, hlive] at hj
      by_cases hji : j = i
      · subst hji
        simpa [ip', ← hip] using hw.size_le j hj
      · rw [Function.update_of_ne hji]
        exact hw.size_le j hj
  have hlow : ∀ x, x < bmapStart (readsb d) → setBitmap d N a x = d x := by
    intro x hx
    have : bmapStart (readsb d) ≤ BBLOCK a N := bmapStart_le_bblock a
    exact setBitmap_apply_of_ne (by omega)
  have hcount : freeBlocks (setBitmap d N a) + blockCount (nb i + 1) =
      freeBlocks d + blockCount (nb i) := by
    have h1 : freeBlocks (setBitmap d N a) + 1 = freeBlocks d := freeBlocks_setBitmap ha hfree
    rw [blockCount_succ, if_neg (by omega)]
    omega
  refine ⟨rfl, hsb, hlow, hwf, by simp [blockAddr, hA, ip', kA], hcount, fun j hj k hk => ?_⟩
  refine dataAt_frame hw hwf hsb hj ((hlive j).mpr hj)
    (by by_cases hji : j = i <;> simp [hji]) hk ?_ ?_
  · -- the only holder that changed is the new slot, past every existing block
    rw [held_update_slot hi htype hnew (fun j _ hj s => hother j hj s)]
    apply Function.update_of_ne
    have hslot : blockSlot (nb i) = .direct ⟨nb i, hA⟩ := by simp [blockSlot, hA]
    rw [← hslot]
    exact hw.slot_ne_append hj hk (by omega)
  · have := (hw.blockAddr_mem hj hk).1
    exact setBitmap_apply_of_ne (by omega)

/-- Two live inodes with the same indirect block are the same inode. -/
theorem Wf.indirect_inj (hw : Wf d tbl nb) {j j' : Nat} (hj : Live (readsb d) tbl j)
    (hj' : Live (readsb d) tbl j') (hind : (tbl j).addrs INDIRECT ≠ 0)
    (he : ((tbl j).addrs INDIRECT).toNat = ((tbl j').addrs INDIRECT).toNat) : j = j' := by
  have h0 : held d (readsb d) tbl (j, .indirect) ≠ 0 := by
    rw [held_of_live _ hj]
    intro h0
    exact hind (UInt32.toNat_inj.mp h0)
  have hq := hw.alloc.held_inj (j, .indirect) (j', .indirect) h0
    (by rw [held_of_live _ hj, held_of_live _ hj']; exact he)
  simp only [Prod.mk.injEq] at hq
  exact hq.1

theorem Wf.bmap_append_entry (hw : Wf d tbl nb) (hi : Live (readsb d) tbl i)
    (hip : tbl i = ip.toDinode) (hB : NDIRECT < nb i) (hmax : nb i < MAXFILE) :
    (bmap d ip (nb i) = .error "balloc: out of blocks" ∧
        freeBlocks d + blockCount (nb i) < blockCount (nb i + 1)) ∨
      ∃ d' ip' a, bmap d ip (nb i) = .ok (d', ip', a) ∧ Appended d tbl nb i ip d' ip' a := by
  have hs := hw.shape i hi
  rw [hip] at hs
  have hind : ip.addrs INDIRECT ≠ 0 := hs.indirect_ne_zero hB le_rfl
  have hnd : ¬ nb i < NDIRECT := by omega
  have he : nb i - NDIRECT < NINDIRECT := by
    simp only [MAXFILE, NINDIRECT, NDIRECT, BSIZE] at *
    omega
  -- the entry of the new block is still 0
  have hent0 : Bytes.getU32 (d (ip.addrs INDIRECT).toNat) (4 * (nb i - NDIRECT)) = 0 := by
    have h := (hs.inUse (.entry ⟨nb i - NDIRECT, he⟩)).not
    simp only [slotAddr, if_neg hind, Slot.InUse, not_not] at h
    exact UInt32.toNat_inj.mp (h.mpr (by omega))
  rcases balloc_cases d hw.geom with ⟨herr, hfull⟩ | ⟨a, ha, hfree, hok⟩
  · refine .inl ⟨?_, ?_⟩
    · simp only [bmap, dif_neg hnd, if_pos he, if_neg hind, pure_bind, if_pos hent0, herr]
      rfl
    · rw [(freeBlocks_eq_zero_iff d).mpr hfull, blockCount_succ, if_neg (by omega)]
      omega
  right
  obtain ⟨hlo, haU, hsb1, hbb⟩ := balloc_block hw.geom hw.alloc ha hfree
  set N := (readsb d).ninodes.toNat
  refine ⟨Function.update (setBitmap d N a) (ip.addrs INDIRECT).toNat
    (Bytes.setU32 (d (ip.addrs INDIRECT).toNat) (4 * (nb i - NDIRECT)) a.toUInt32),
    ip, a.toUInt32, ?_, ?_⟩
  · simp only [bmap, dif_neg hnd, if_pos he, if_neg hind, pure_bind, if_pos hent0, hok]
    rfl
  obtain ⟨ind, hindN⟩ : ∃ ind, ind = (ip.addrs INDIRECT).toNat := ⟨_, rfl⟩
  rw [← hindN]
  rw [← hindN] at hent0
  obtain ⟨hind_lo, hind_hi⟩ := hw.indirect_mem hi (hip ▸ hind)
  rw [hip, ← hindN] at hind_lo hind_hi
  set d2 := Function.update (setBitmap d N a) ind
    (Bytes.setU32 (d ind) (4 * (nb i - NDIRECT)) a.toUInt32) with hd2def
  have hsb : readsb d2 = readsb d := by
    rw [readsb_update _ (by have := @one_lt_dataStart (readsb d); omega), hsb1]
  -- the indirect block is in use, so it is not the block handed out
  have hind_used : bitSet d N ind = true := by
    have h0 : held d (readsb d) tbl (i, .indirect) ≠ 0 := by
      rw [held_of_live _ hi, hip]
      exact fun h0 => hind (UInt32.toNat_inj.mp h0)
    have := hw.alloc.used_held h0
    rw [held_of_live _ hi, hip] at this
    simpa [slotAddr, hindN] using this
  have hd2 : ∀ x, x ≠ ind → dataStart (readsb d) ≤ x → d2 x = d x := by
    intro x hx hxlo
    rw [hd2def, Function.update_of_ne hx, setBitmap_apply_of_ne (by omega)]
  have hother : ∀ j, j ≠ i → Live (readsb d) tbl j → ∀ s,
      slotAddr d2 (tbl j) s = slotAddr d (tbl j) s := by
    intro j hji hj s
    rw [slotAddr_update _ (fun hj0 he => hji (hw.indirect_inj hj hi hj0 (by rw [← he, hip, hindN])))]
    exact hw.slotAddr_update_meta hj hbb _ s
  have hnew : ∀ s, slotAddr d2 ip.toDinode s =
      if s = .entry ⟨nb i - NDIRECT, he⟩ then a else slotAddr d (tbl i) s := by
    intro s
    rw [hip]
    cases s with
    | direct k => simp [slotAddr]
    | indirect => simp [slotAddr]
    | entry j =>
      simp only [slotAddr, if_neg hind, ← hindN, hd2def, Function.update_self, Slot.entry.injEq]
      by_cases hj : j = ⟨nb i - NDIRECT, he⟩
      · subst hj
        rw [Bytes.getU32_setU32_self, if_pos rfl, haU]
      · have hjv : j.val ≠ nb i - NDIRECT := fun h => hj (Fin.ext h)
        rw [Bytes.getU32_setU32_of_disjoint _ _ (by omega), if_neg hj]
  have ha0 : a ≠ 0 := by have := @one_lt_dataStart (readsb d); omega
  have hslot : blockSlot (nb i) = .entry ⟨nb i - NDIRECT, he⟩ := by
    simp only [blockSlot, dif_neg hnd, Slot.entry.injEq, Fin.mk.injEq]
    exact Nat.mod_eq_of_lt he
  have hshape : Shape d2 ip.toDinode (nb i + 1) := by
    refine ⟨by omega, fun s => ?_⟩
    rw [hnew s, Slot.inUse_succ s hmax (by omega), hslot]
    by_cases hs' : s = .entry ⟨nb i - NDIRECT, he⟩
    · simp [hs', ha0]
    · rw [if_neg hs']
      simp [hs', (hw.shape i hi).inUse s]
  have htype : ip.toDinode.type = (tbl i).type := by rw [hip]
  have hlive : ∀ j, Live (readsb d) (Function.update tbl i ip.toDinode) j ↔ Live (readsb d) tbl j :=
    fun j => live_update_iff htype
  have hwf : Wf d2 (Function.update tbl i ip.toDinode) (Function.update nb i (nb i + 1)) := by
    refine ⟨hsb ▸ hw.geom, ?_, fun j hj => ?_, fun j hj => ?_⟩
    · refine hw.alloc.alloc_slot hi (by rw [hip]; simp [slotAddr, ← hindN, hent0]) ha hfree hsb
        (fun b hb => ?_) htype hnew hother ?_
      · rw [bitSet_update _ (by have := bblock_lt_dataStart hb; omega)]
        exact bitSet_setBitmap d N a b
      · intro x hx _ hf hz o ho
        have hxlo := (hw.alloc.free_block hx hf).1
        have hxi : x ≠ ind := by rintro rfl; rw [hind_used] at hf; cases hf
        rw [hd2 x hxi hxlo]
        exact hz o ho
    · rw [hsb, hlive] at hj
      by_cases hji : j = i
      · subst hji
        simpa using hshape
      · rw [Function.update_of_ne hji, Function.update_of_ne hji]
        exact (hw.shape j hj).congr (hother j hji hj)
    · rw [hsb, hlive] at hj
      by_cases hji : j = i
      · subst hji
        simpa [← hip] using hw.size_le j hj
      · rw [Function.update_of_ne hji]
        exact hw.size_le j hj
  have haddr : blockAddr d2 ip.toDinode (nb i) = a.toUInt32.toNat := by
    simp [blockAddr, hnd, hd2def, Function.update_self, Bytes.getU32_setU32_self, ← hindN]
  have hlow : ∀ x, x < bmapStart (readsb d) → d2 x = d x := by
    intro x hx
    have h1 : bmapStart (readsb d) ≤ BBLOCK a N := bmapStart_le_bblock a
    have h2 : bmapStart (readsb d) ≤ dataStart (readsb d) := by simp [dataStart]
    rw [hd2def, Function.update_of_ne (by omega), setBitmap_apply_of_ne (by omega)]
  -- the entry is written into the indirect block, a data block
  have hcount : freeBlocks d2 + blockCount (nb i + 1) = freeBlocks d + blockCount (nb i) := by
    have h1 : freeBlocks (setBitmap d N a) + 1 = freeBlocks d := freeBlocks_setBitmap ha hfree
    rw [hd2def, freeBlocks_update _ (by rw [readsb_setBitmap]; exact hind_lo), blockCount_succ,
      if_neg (by omega)]
    omega
  refine ⟨rfl, hsb, hlow, hwf, haddr, hcount, fun j hj k hk => ?_⟩
  refine dataAt_frame hw hwf hsb hj ((hlive j).mpr hj)
    (by by_cases hji : j = i <;> simp [hji]) hk ?_ ?_
  · rw [held_update_slot hi htype hnew hother, ← hslot]
    exact Function.update_of_ne (hw.slot_ne_append hj hk hmax) _ _
  · have hx := (hw.blockAddr_mem hj hk).1
    apply hd2 _ _ hx
    rw [hindN, ← hip]
    exact hw.blockAddr_ne_indirect hj hk hi

theorem Wf.bmap_append_indirect (hw : Wf d tbl nb) (hi : Live (readsb d) tbl i)
    (hip : tbl i = ip.toDinode) (hC : nb i = NDIRECT) :
    (bmap d ip (nb i) = .error "balloc: out of blocks" ∧
        freeBlocks d + blockCount (nb i) < blockCount (nb i + 1)) ∨
      ∃ d' ip' a, bmap d ip (nb i) = .ok (d', ip', a) ∧ Appended d tbl nb i ip d' ip' a := by
  have hs := hw.shape i hi
  rw [hip] at hs
  have hind0 : ip.addrs INDIRECT = 0 := by
    have h := (hs.inUse .indirect).not
    simp only [slotAddr, Slot.InUse, not_not] at h
    exact UInt32.toNat_inj.mp (h.mpr (by omega))
  have hnd : ¬ nb i < NDIRECT := by omega
  have he : nb i - NDIRECT < NINDIRECT := by rw [hC]; decide
  rcases balloc_cases d hw.geom with ⟨herr, hfull⟩ | ⟨b1, hb1, hfree1, hok1⟩
  · refine .inl ⟨?_, ?_⟩
    · simp only [bmap, dif_neg hnd, if_pos he, if_pos hind0, herr]
      rfl
    · rw [(freeBlocks_eq_zero_iff d).mpr hfull, blockCount_succ, if_pos hC]
      omega
  have hcount1 : freeBlocks (setBitmap d (readsb d).ninodes.toNat b1) + 1 = freeBlocks d :=
    freeBlocks_setBitmap hb1 hfree1
  obtain ⟨hlo1, hb1U, hsb1, hbb1⟩ := balloc_block hw.geom hw.alloc hb1 hfree1
  -- the new indirect block is blank, so every entry read from it is 0
  have hblank1 : Blank d b1 := hw.alloc.zero_of_free b1 hb1 hfree1
  have hd1b1 : setBitmap d (readsb d).ninodes.toNat b1 b1 = d b1 := setBitmap_apply_of_ne (by omega)
  have hent0 : ∀ j, j < NINDIRECT → Bytes.getU32 (setBitmap d (readsb d).ninodes.toNat b1 b1) (4 * j) = 0 := by
    intro j hj
    rw [hd1b1]
    exact getU32_blank hblank1 (by simp only [NINDIRECT, BSIZE] at hj ⊢; omega)
  have hg1 : Geometry (readsb (setBitmap d (readsb d).ninodes.toNat b1)) := hsb1 ▸ hw.geom
  rcases balloc_cases (setBitmap d (readsb d).ninodes.toNat b1) hg1 with ⟨herr, hfull⟩ | ⟨a, ha, hfree, hok⟩
  · refine .inl ⟨?_, ?_⟩
    · simp only [bmap, dif_neg hnd, if_pos he, if_pos hind0, hok1, bind, Except.bind, pure,
        Except.pure, Function.update_self, hb1U, hent0 _ he, if_true, herr]
    · -- the indirect block took the last free block
      rw [blockCount_succ, if_pos hC]
      have := (freeBlocks_eq_zero_iff _).mpr hfull
      omega
  right
  -- the first allocation, of the indirect block, keeps the allocator's invariant
  let ip1 : Inode := { ip with addrs := Function.update ip.addrs INDIRECT b1.toUInt32 }
  have hb10 : b1 ≠ 0 := by have := @one_lt_dataStart (readsb d); omega
  have hip1 : ip1.addrs INDIRECT = b1.toUInt32 := by simp [ip1]
  have hip1ne : ip1.addrs INDIRECT ≠ 0 := by
    rw [hip1]
    intro h0
    exact hb10 (by rw [← hb1U, h0]; rfl)
  have htype1 : ip1.toDinode.type = (tbl i).type := by rw [hip]
  have hnew1 : ∀ s, slotAddr (setBitmap d (readsb d).ninodes.toNat b1) ip1.toDinode s =
      if s = .indirect then b1 else slotAddr d (tbl i) s := by
    intro s
    rw [hip]
    cases s with
    | direct k =>
      have hk : k.castSucc ≠ INDIRECT := Fin.ne_of_lt k.castSucc_lt_last
      simp [slotAddr, ip1, Function.update_of_ne hk]
    | indirect => simp [slotAddr, ip1, hb1U]
    | entry j =>
      simp only [slotAddr, if_neg hip1ne, hind0, if_true, reduceCtorEq, if_false]
      rw [hip1, hb1U, hent0 j j.isLt]
      rfl
  have hother1 : ∀ j, j ≠ i → Live (readsb d) tbl j → ∀ s,
      slotAddr (setBitmap d (readsb d).ninodes.toNat b1) (tbl j) s = slotAddr d (tbl j) s :=
    fun j _ hj s => hw.slotAddr_update_meta hj hbb1 _ s
  have halloc1 : AllocInv (setBitmap d (readsb d).ninodes.toNat b1)
      (Function.update tbl i ip1.toDinode) := by
    refine hw.alloc.alloc_slot hi (by rw [hip]; simp [slotAddr, hind0]) hb1 hfree1 hsb1
      (fun b _ => bitSet_setBitmap d _ b1 b) htype1 hnew1 hother1 ?_
    intro x hx _ hf hz o ho
    have hxlo := (hw.alloc.free_block hx hf).1
    rw [setBitmap_apply_of_ne (by omega)]
    exact hz o ho
  obtain ⟨hlo, haU, hsb2, hbb⟩ := balloc_block hg1 halloc1 ha hfree
  rw [hsb1] at hlo hbb hsb2 ha hfree hok
  -- the second allocation, of the entry; `b1` is now in use, so `a ≠ b1`
  have hab1 : a ≠ b1 := by
    rintro rfl
    simp at hfree
  refine ⟨Function.update (setBitmap (setBitmap d (readsb d).ninodes.toNat b1)
    (readsb d).ninodes.toNat a) b1 (Bytes.setU32 (setBitmap d (readsb d).ninodes.toNat b1 b1)
      (4 * (nb i - NDIRECT)) a.toUInt32), ip1, a.toUInt32, ?_, ?_⟩
  · simp only [bmap, dif_neg hnd, if_pos he, if_pos hind0, hok1, bind, Except.bind, pure,
      Except.pure, Function.update_self, hb1U, hent0 _ he, if_true, hok]
    rfl
  set d3 := Function.update (setBitmap (setBitmap d (readsb d).ninodes.toNat b1)
    (readsb d).ninodes.toNat a) b1 (Bytes.setU32 (setBitmap d (readsb d).ninodes.toNat b1 b1)
      (4 * (nb i - NDIRECT)) a.toUInt32) with hd3def
  have hsb : readsb d3 = readsb d := by
    have := @one_lt_dataStart (readsb d)
    rw [hd3def, readsb_update _ (by omega), hsb2]
  -- a block of the data area other than `b1` and `a` is as it was
  have hd3 : ∀ x, dataStart (readsb d) ≤ x → x ≠ b1 → d3 x = d x := by
    intro x hx hxb
    rw [hd3def, Function.update_of_ne hxb, setBitmap_apply_of_ne (by omega),
      setBitmap_apply_of_ne (by omega)]
  have hbitd : bitSet d (readsb d).ninodes.toNat b1 = false := hfree1
  have hother : ∀ j, j ≠ i → Live (readsb d) tbl j → ∀ s,
      slotAddr d3 (tbl j) s = slotAddr d (tbl j) s := by
    intro j _ hj s
    refine slotAddr_congr (fun hind => hd3 _ (hw.indirect_mem hj hind).1 ?_) s
    -- an existing indirect block is in use; `b1` was not
    intro he
    have h0 : held d (readsb d) tbl (j, .indirect) ≠ 0 := by
      rw [held_of_live _ hj]
      exact fun h0 => hind (UInt32.toNat_inj.mp h0)
    have := hw.alloc.used_held h0
    rw [held_of_live _ hj] at this
    simp only [slotAddr, he, hbitd] at this
    cases this
  have he0 : nb i - NDIRECT = 0 := by omega
  have hnew : ∀ s, slotAddr d3 ip1.toDinode s =
      if s = .entry ⟨nb i - NDIRECT, he⟩ then a else
        slotAddr (setBitmap d (readsb d).ninodes.toNat b1) ip1.toDinode s := by
    intro s
    cases s with
    | direct k => simp [slotAddr]
    | indirect => simp [slotAddr]
    | entry j =>
      have hb1ne : b1.toUInt32 ≠ 0 := hip1 ▸ hip1ne
      simp only [slotAddr, hip1, if_neg hb1ne, hb1U, Slot.entry.injEq]
      rw [hd3def, Function.update_self]
      by_cases hj : j = ⟨nb i - NDIRECT, he⟩
      · subst hj
        rw [Bytes.getU32_setU32_self, if_pos rfl, haU]
      · have hjv : j.val ≠ nb i - NDIRECT := fun h => hj (Fin.ext h)
        rw [Bytes.getU32_setU32_of_disjoint _ _ (by omega), if_neg hj]
  have ha0 : a ≠ 0 := by have := @one_lt_dataStart (readsb d); omega
  have hslot : blockSlot (nb i) = .entry ⟨nb i - NDIRECT, he⟩ := by
    simp only [blockSlot, dif_neg hnd, Slot.entry.injEq, Fin.mk.injEq]
    exact Nat.mod_eq_of_lt he
  have hshape : Shape d3 ip1.toDinode (nb i + 1) := by
    refine ⟨by simp only [hC, MAXFILE, NINDIRECT, BSIZE]; omega, fun s => ?_⟩
    have h13 : s.InUse (nb i + 1) ↔ s = .indirect ∨ s = blockSlot (nb i) ∨ s.InUse (nb i) := by
      rw [hC]
      exact Slot.inUse_thirteen s
    rw [hnew s, hnew1 s, h13, hslot]
    by_cases hs1 : s = .entry ⟨nb i - NDIRECT, he⟩
    · simp [hs1, ha0]
    · by_cases hs2 : s = .indirect
      · simp [hs2, hb10]
      · rw [if_neg hs1, if_neg hs2]
        simp [hs1, hs2, (hw.shape i hi).inUse s]
  have htbl : Function.update (Function.update tbl i ip1.toDinode) i ip1.toDinode =
      Function.update tbl i ip1.toDinode := Function.update_idem _ _ _
  have hlive : ∀ j, Live (readsb d) (Function.update tbl i ip1.toDinode) j ↔ Live (readsb d) tbl j :=
    fun j => live_update_iff htype1
  have hnew2 : ∀ s, slotAddr d3 ip1.toDinode s = if s = .entry ⟨nb i - NDIRECT, he⟩ then a else
      slotAddr (setBitmap d (readsb d).ninodes.toNat b1) (Function.update tbl i ip1.toDinode i) s := by
    intro s
    rw [Function.update_self]
    exact hnew s
  have hother2 : ∀ j, j ≠ i → Live (readsb d) (Function.update tbl i ip1.toDinode) j → ∀ s,
      slotAddr d3 (Function.update tbl i ip1.toDinode j) s =
        slotAddr (setBitmap d (readsb d).ninodes.toNat b1) (Function.update tbl i ip1.toDinode j) s := by
    intro j hji hj s
    rw [hlive] at hj
    rw [Function.update_of_ne hji, hother j hji hj, hother1 j hji hj]
  have htype2 : ip1.toDinode.type = (Function.update tbl i ip1.toDinode i).type := by simp
  have hwf : Wf d3 (Function.update tbl i ip1.toDinode) (Function.update nb i (nb i + 1)) := by
    refine ⟨hsb ▸ hw.geom, ?_, fun j hj => ?_, fun j hj => ?_⟩
    · have hs0 : slotAddr (setBitmap d (readsb d).ninodes.toNat b1)
          (Function.update tbl i ip1.toDinode i) (.entry ⟨nb i - NDIRECT, he⟩) = 0 := by
        rw [Function.update_self, hnew1, if_neg (by simp), hip]
        simp [slotAddr, hind0]
      have hbit : ∀ b, b < bitLimit (readsb (setBitmap d (readsb d).ninodes.toNat b1)) →
          bitSet d3 (readsb (setBitmap d (readsb d).ninodes.toNat b1)).ninodes.toNat b =
            (decide (a = b) ||
              bitSet (setBitmap d (readsb d).ninodes.toNat b1)
                (readsb (setBitmap d (readsb d).ninodes.toNat b1)).ninodes.toNat b) := by
        intro b hb
        rw [hsb1] at hb ⊢
        rw [hd3def, bitSet_update _ (by have := bblock_lt_dataStart hb; omega), bitSet_setBitmap]
      have hblank : ∀ x, x < bitLimit (readsb (setBitmap d (readsb d).ninodes.toNat b1)) → x ≠ a →
          bitSet (setBitmap d (readsb d).ninodes.toNat b1)
            (readsb (setBitmap d (readsb d).ninodes.toNat b1)).ninodes.toNat x = false →
          Blank (setBitmap d (readsb d).ninodes.toNat b1) x → Blank d3 x := by
        intro x hx _ hf hz o ho
        have hxlo := (halloc1.free_block hx hf).1
        rw [hsb1] at hx hf hxlo
        have hxb : x ≠ b1 := by rintro rfl; simp at hf
        rw [hd3def, Function.update_of_ne hxb, setBitmap_apply_of_ne (by omega)]
        exact hz o ho
      rw [← htbl]
      exact halloc1.alloc_slot (by rw [hsb1]; exact (hlive i).mpr hi) hs0 (by rw [hsb1]; exact ha)
        (by rw [hsb1]; exact hfree) (by rw [hsb, hsb1]) hbit htype2 hnew2
        (fun j hji hj s => hother2 j hji (by rw [hsb1] at hj; exact hj) s) hblank
    · rw [hsb, hlive] at hj
      by_cases hji : j = i
      · subst hji
        simpa using hshape
      · rw [Function.update_of_ne hji, Function.update_of_ne hji]
        exact (hw.shape j hj).congr (hother j hji hj)
    · rw [hsb, hlive] at hj
      by_cases hji : j = i
      · subst hji
        simpa [ip1, ← hip] using hw.size_le j hj
      · rw [Function.update_of_ne hji]
        exact hw.size_le j hj
  have haddr : blockAddr d3 ip1.toDinode (nb i) = a.toUInt32.toNat := by
    simp only [blockAddr, dif_neg hnd, hip1, hb1U]
    rw [hd3def, Function.update_self, Bytes.getU32_setU32_self]
  have hlow : ∀ x, x < bmapStart (readsb d) → d3 x = d x := by
    intro x hx
    have h1 : bmapStart (readsb d) ≤ BBLOCK a (readsb d).ninodes.toNat := bmapStart_le_bblock a
    have h2 : bmapStart (readsb d) ≤ BBLOCK b1 (readsb d).ninodes.toNat := bmapStart_le_bblock b1
    have h3 : bmapStart (readsb d) ≤ dataStart (readsb d) := by simp [dataStart]
    rw [hd3def, Function.update_of_ne (by omega), setBitmap_apply_of_ne (by omega),
      setBitmap_apply_of_ne (by omega)]
  have hcount : freeBlocks d3 + blockCount (nb i + 1) = freeBlocks d + blockCount (nb i) := by
    have h2 := @freeBlocks_setBitmap (setBitmap d (readsb d).ninodes.toNat b1) a
    rw [readsb_setBitmap] at h2
    have := h2 ha hfree
    rw [hd3def, freeBlocks_update _ (by rw [readsb_setBitmap, readsb_setBitmap]; exact hlo1),
      blockCount_succ, if_pos hC]
    omega
  refine ⟨rfl, hsb, hlow, hwf, haddr, hcount, fun j hj k hk => ?_⟩
  refine dataAt_frame hw hwf hsb hj ((hlive j).mpr hj)
    (by by_cases hji : j = i <;> simp [hji]) hk ?_ ?_
  · -- two holders changed: the indirect slot and the new entry, neither an existing block's
    have hq := hw.slot_ne_append hj hk (show nb i < MAXFILE by simp only [hC, MAXFILE]; omega)
    rw [hslot] at hq
    rw [← htbl, held_update_slot ((hlive i).mpr hi) htype2 hnew2 hother2,
      Function.update_of_ne hq, held_update_slot hi htype1 hnew1 hother1,
      Function.update_of_ne (by simp [blockSlot_ne_indirect])]
  · have hx := (hw.blockAddr_mem hj hk).1
    refine hd3 _ hx fun he => ?_
    -- an existing block is in use; `b1` was not
    obtain ⟨hheld, hne⟩ := hw.blockAddr_held hj hk
    have := hw.alloc.used_held (hheld ▸ hne)
    rw [← hheld, he, hbitd] at this
    cases this

theorem Wf.bmap_append (hw : Wf d tbl nb) (hi : Live (readsb d) tbl i) (hip : tbl i = ip.toDinode)
    (hmax : nb i < MAXFILE) :
    (bmap d ip (nb i) = .error "balloc: out of blocks" ∧
        freeBlocks d + blockCount (nb i) < blockCount (nb i + 1)) ∨
      ∃ d' ip' a, bmap d ip (nb i) = .ok (d', ip', a) ∧ Appended d tbl nb i ip d' ip' a := by
  rcases lt_trichotomy (nb i) NDIRECT with hA | hC | hB
  · exact hw.bmap_append_direct hi hip hA
  · exact hw.bmap_append_indirect hi hip hC
  · exact hw.bmap_append_entry hi hip hB hmax

end Append

end Xv6
