import Xv6.Fs.Dinodes

/-!
# Truncating and freeing an inode

`itrunc` frees the blocks of an inode one `bfree` at a time: the direct blocks, then
the blocks its indirect block lists, then the indirect block. Only at the end does
`iupdate` write the emptied dinode, so in between the dinode on disk still lists
blocks whose bits are clear. `Truncating` is what holds in between: the allocator's
invariant for a holder function `H` in which the released slots hold nothing, and
a disk changed only at released blocks and at bitmap blocks.
-/

namespace Xv6

/-- The invariant while inode `i` of the disk `d0`, whose table is `tbl0`, is being
truncated, with holders `H`. -/
structure Truncating (d0 : Disk) (tbl0 : Nat → Dinode) (i : Nat) (d : Disk)
    (H : Nat × Slot → Nat) : Prop where
  alloc : Alloc.Inv (dataStart (readsb d0)) (bitLimit (readsb d0))
    (bitSet d (readsb d0).ninodes.toNat) (Blank d) H
  sub : ∀ q, H q = 0 ∨ H q = held d0 (readsb d0) tbl0 q
  other : ∀ q, q.1 ≠ i → H q = held d0 (readsb d0) tbl0 q
  frame : ∀ x, d x ≠ d0 x → (bmapStart (readsb d0) ≤ x ∧ x < dataStart (readsb d0)) ∨
    ∃ q, held d0 (readsb d0) tbl0 q = x ∧ x ≠ 0 ∧ H q = 0

section Trunc

variable {d0 : Disk} {tbl0 : Nat → Dinode} {nb0 : Nat → Nat} {i : Nat} {d : Disk}
  {H : Nat × Slot → Nat}

theorem Truncating.start (hw : Wf d0 tbl0 nb0) :
    Truncating d0 tbl0 i d0 (held d0 (readsb d0) tbl0) :=
  ⟨hw.alloc, fun _ => .inr rfl, fun _ _ => rfl, fun _ h => absurd rfl h⟩

/-- A block the truncation has not released reads as at the start. -/
theorem Truncating.keep (hT : Truncating d0 tbl0 i d H) {x : Nat}
    (hx : x < bmapStart (readsb d0) ∨ dataStart (readsb d0) ≤ x)
    (hq : ∀ q, held d0 (readsb d0) tbl0 q = x → x ≠ 0 → H q ≠ 0) : d x = d0 x := by
  by_contra hne
  rcases hT.frame x hne with ⟨h1, h2⟩ | ⟨q, hqx, hx0, hH⟩
  · omega
  · exact hq q hqx hx0 hH

theorem Truncating.sb (hT : Truncating d0 tbl0 i d H) (hw : Wf d0 tbl0 nb0) :
    readsb d = readsb d0 := by
  have h1 : d 1 = d0 1 := by
    refine hT.keep (.inl (by simp only [bmapStart, IPB, BSIZE]; omega)) fun q hq h0 => ?_
    have := (hw.alloc.held_mem q (hq ▸ h0)).1
    have := @one_lt_dataStart (readsb d0)
    omega
  simp only [readsb, h1]

theorem Truncating.dinodeAt_eq (hT : Truncating d0 tbl0 i d H) (hw : Wf d0 tbl0 nb0) {j : Nat}
    (hj : j < (readsb d0).ninodes.toNat) : dinodeAt d j = dinodeAt d0 j := by
  have hlt := iblock_lt_bmapStart hj
  have hkeep : d (IBLOCK j) = d0 (IBLOCK j) := hT.keep (.inl hlt) fun q hq h0 => by
    have := (hw.alloc.held_mem q (hq ▸ h0)).1
    have : bmapStart (readsb d0) ≤ dataStart (readsb d0) := Nat.le_add_right _ _
    omega
  simp only [dinodeAt, hkeep]

/-- One `bfree` of a block that slot `q` of inode `i` still holds: it does not panic,
and the invariant holds with the slot released. -/
theorem Truncating.free_slot (hT : Truncating d0 tbl0 i d H) (hw : Wf d0 tbl0 nb0)
    {q : Nat × Slot} (hqi : q.1 = i) (hq : H q ≠ 0) :
    ∃ d', bfree d (H q) = .ok d' ∧ Truncating d0 tbl0 i d' (Function.update H q 0) := by
  have hsb := hT.sb hw
  obtain ⟨hlo, hhi⟩ := hT.alloc.held_mem q hq
  obtain ⟨h1, -, hbb⟩ := metadata_ne hlo
  have hset := hT.alloc.used_held hq
  rw [bfree_eq d h1 (by rw [hsb]; exact hbb _ hhi), hsb, if_neg (by rw [hset]; decide)]
  have hheld : H q = held d0 (readsb d0) tbl0 q := (hT.sub q).resolve_left hq
  -- the disk after `bfree`: only block `H q` and its bitmap block change
  have hkeep : ∀ x, x ≠ H q → x ≠ BBLOCK (H q) (readsb d0).ninodes.toNat →
      clearBitmap (bzero d (H q)) (readsb d0).ninodes.toNat (H q) x = d x := fun x h1 h2 => by
    rw [clearBitmap_apply_of_ne h2, bzero, Function.update_of_ne h1]
  refine ⟨_, rfl, ?_, fun q' => ?_, fun q' hq' => ?_, fun x hx => ?_⟩
  · have hlo0 : 0 < dataStart (readsb d0) := by have := @one_lt_dataStart (readsb d0); omega
    have hzp : Blank (clearBitmap (bzero d (H q)) (readsb d0).ninodes.toNat (H q)) (H q) := by
      intro o ho
      rw [clearBitmap_apply_of_ne (hbb _ hhi), bzero, Function.update_self,
        Bytes.writeBytes_apply_mem (Nat.zero_le o) (by simpa using ho)]
      simp
    have hmid : Alloc.Inv (dataStart (readsb d0)) (bitLimit (readsb d0))
        (fun x => if x = H q then false else bitSet d (readsb d0).ninodes.toNat x)
        (Blank (clearBitmap (bzero d (H q)) (readsb d0).ninodes.toNat (H q)))
        (Function.update H q 0) :=
      hT.alloc.free hlo0 hq (fun _ => rfl) hzp fun x hx hxb hf hz o ho => by
        have hxlo := (hT.alloc.free_block hx hf).1
        have hxbb : x ≠ BBLOCK (H q) (readsb d0).ninodes.toNat := by
          have := bblock_lt_dataStart hhi
          omega
        rw [hkeep x hxb hxbb]
        exact hz o ho
    refine hmid.congr (fun x hx => ?_) (fun _ => rfl) (fun _ _ _ hz => hz)
    rw [bitSet_clearBitmap, bzero, bitSet_update _ (hbb x hx)]
    by_cases hxb : x = H q
    · simp [hxb]
    · simp [hxb, Ne.symm hxb]
  · by_cases hqq : q' = q
    · subst hqq
      exact .inl (Function.update_self _ _ _)
    · rw [Function.update_of_ne hqq]
      exact hT.sub q'
  · have hqq : q' ≠ q := fun h => hq' (h ▸ hqi)
    rw [Function.update_of_ne hqq]
    exact hT.other q' hq'
  · by_cases hx1 : x = BBLOCK (H q) (readsb d0).ninodes.toNat
    · exact .inl ⟨hx1 ▸ bmapStart_le_bblock _, hx1 ▸ bblock_lt_dataStart hhi⟩
    by_cases hx2 : x = H q
    · exact .inr ⟨q, hheld ▸ hx2.symm, hx2 ▸ hq, Function.update_self _ _ _⟩
    rw [hkeep x hx2 hx1] at hx
    rcases hT.frame x hx with hbm | ⟨q', hq'x, hx0, hH⟩
    · exact .inl hbm
    · refine .inr ⟨q', hq'x, hx0, ?_⟩
      by_cases hqq : q' = q
      · rw [hqq, Function.update_self]
      · rw [Function.update_of_ne hqq, hH]

/-- Blocks held by other inodes are never released, so they read as at the start. -/
theorem Truncating.keep_other (hT : Truncating d0 tbl0 i d H) (hw : Wf d0 tbl0 nb0)
    (q : Nat × Slot) (hqi : q.1 ≠ i) (hq : held d0 (readsb d0) tbl0 q ≠ 0) :
    d (held d0 (readsb d0) tbl0 q) = d0 (held d0 (readsb d0) tbl0 q) := by
  refine hT.keep (.inr (hw.alloc.held_mem q hq).1) fun q' hq' _ => ?_
  rw [hw.alloc.held_inj q' q (hq' ▸ hq) hq', hT.other q hqi]
  exact hq

theorem Truncating.slotAddr_other (hT : Truncating d0 tbl0 i d H) (hw : Wf d0 tbl0 nb0)
    {j : Nat} (hji : j ≠ i) (hj : Live (readsb d0) tbl0 j) (s : Slot) :
    slotAddr d (tbl0 j) s = slotAddr d0 (tbl0 j) s := by
  refine slotAddr_congr (fun hind => ?_) s
  have h0 : held d0 (readsb d0) tbl0 (j, .indirect) ≠ 0 := by
    rw [held_of_live _ hj]
    exact fun h => hind (UInt32.toNat_inj.mp h)
  have := hT.keep_other hw (j, .indirect) hji h0
  rwa [held_of_live _ hj] at this

/-- Every byte of every other live inode reads as at the start. -/
theorem Truncating.dataAt_other (hT : Truncating d0 tbl0 i d H) (hw : Wf d0 tbl0 nb0)
    {j k : Nat} (hji : j ≠ i) (hj : Live (readsb d0) tbl0 j) (hk : k / BSIZE < nb0 j) :
    dataAt d (tbl0 j) k = dataAt d0 (tbl0 j) k := by
  have hs := hw.shape j hj
  have hmax : k / BSIZE < MAXFILE := lt_of_lt_of_le hk hs.le_maxfile
  have hind : NDIRECT ≤ k / BSIZE → (tbl0 j).addrs INDIRECT ≠ 0 := hs.indirect_ne_zero hk
  have haddr : blockAddr d (tbl0 j) (k / BSIZE) = blockAddr d0 (tbl0 j) (k / BSIZE) := by
    rw [blockAddr_eq_slotAddr hmax hind, blockAddr_eq_slotAddr hmax hind,
      hT.slotAddr_other hw hji hj]
  obtain ⟨hheld, hne⟩ := hw.blockAddr_held hj hk
  have := hT.keep_other hw (j, blockSlot (k / BSIZE)) hji (hheld ▸ hne)
  rw [← hheld] at this
  simp only [dataAt, haddr, this]

/-- Once every slot of inode `i` is released, the invariant holds for the table with
entry `i` replaced by any dinode without blocks. -/
theorem Truncating.wf_empty (hT : Truncating d0 tbl0 i d H) (hw : Wf d0 tbl0 nb0)
    (hH : ∀ s, H (i, s) = 0) {di : Dinode} (hdi : ∀ k, di.addrs k = 0)
    (hsize : Live (readsb d0) (Function.update tbl0 i di) i → di.size.toNat ≤ MAXFILE * BSIZE) :
    Wf d (Function.update tbl0 i di) (Function.update nb0 i 0) := by
  have hsb := hT.sb hw
  have hheld : ∀ q, held d (readsb d0) (Function.update tbl0 i di) q = H q := by
    rintro ⟨j, s⟩
    by_cases hji : j = i
    · subst hji
      rw [hH]
      simp only [held, Function.update_self, slotAddr_eq_zero d hdi]
      split <;> rfl
    · rw [hT.other (j, s) hji]
      simp only [held, Function.update_of_ne hji, live_update_of_ne hji]
      split
      · exact hT.slotAddr_other hw hji ‹_› s
      · rfl
  refine ⟨hsb ▸ hw.geom, ?_, fun j hj => ?_, fun j hj => ?_⟩
  · rw [AllocInv, hsb]
    exact hT.alloc.congr (fun _ _ => rfl) hheld (fun _ _ _ hz => hz)
  · rw [hsb] at hj
    by_cases hji : j = i
    · subst hji
      simp only [Function.update_self]
      exact shape_of_addrs_zero d hdi
    · have hj' := (live_update_of_ne hji).1 hj
      simp only [Function.update_of_ne hji]
      exact (hw.shape j hj').congr (hT.slotAddr_other hw hji hj')
  · rw [hsb] at hj
    by_cases hji : j = i
    · subst hji
      rw [Function.update_self]
      exact hsize hj
    · rw [Function.update_of_ne hji]
      exact hw.size_le j ((live_update_of_ne hji).1 hj)

end Trunc

/-- The holders while `itrunc` runs on inode `i` with in-memory copy `ip`, the entries
of the indirect block below `c` freed: the slots of `i` hold what `ip` lists, every
other slot what it held at the start. -/
def truncHeld (d0 : Disk) (tbl0 : Nat → Dinode) (i : Nat) (ip : Inode) (c : Nat)
    (q : Nat × Slot) : Nat :=
  if q.1 = i then
    match q.2 with
    | .direct k => (ip.addrs k.castSucc).toNat
    | .indirect => (ip.addrs INDIRECT).toNat
    | .entry j => if c ≤ j.val then held d0 (readsb d0) tbl0 q else 0
  else held d0 (readsb d0) tbl0 q

section Loops

variable {d0 : Disk} {tbl0 : Nat → Dinode} {nb0 : Nat → Nat} {i : Nat}

theorem truncHeld_start (hi : Live (readsb d0) tbl0 i) (ip : Inode) (hip : tbl0 i = ip.toDinode) :
    truncHeld d0 tbl0 i ip 0 = held d0 (readsb d0) tbl0 := by
  funext ⟨j, s⟩
  by_cases hji : j = i
  · subst hji
    cases s <;> simp [truncHeld, held_of_live _ hi, slotAddr, hip]
  · simp [truncHeld, hji]

theorem truncHeld_direct (ip : Inode) (c : Nat) (k : Fin NDIRECT) :
    Function.update (truncHeld d0 tbl0 i ip c) (i, .direct k) 0 =
      truncHeld d0 tbl0 i { ip with addrs := Function.update ip.addrs k.castSucc 0 } c := by
  funext ⟨j, s⟩
  by_cases hji : j = i
  · subst hji
    cases s with
    | direct k' =>
      by_cases hk : k' = k
      · subst hk
        simp [truncHeld]
      · simp [truncHeld, hk]
    | indirect =>
      simp [truncHeld, Function.update_of_ne (Fin.ne_of_lt k.castSucc_lt_last).symm, INDIRECT]
    | entry j' => simp [truncHeld]
  · simp [truncHeld, hji]

theorem truncHeld_entry (ip : Inode) {c : Nat} (hc : c < NINDIRECT) :
    Function.update (truncHeld d0 tbl0 i ip c) (i, .entry ⟨c, hc⟩) 0 =
      truncHeld d0 tbl0 i ip (c + 1) := by
  funext ⟨j, s⟩
  by_cases hji : j = i
  · subst hji
    cases s with
    | direct k => simp [truncHeld]
    | indirect => simp [truncHeld]
    | entry j' =>
      by_cases hj' : j' = ⟨c, hc⟩
      · subst hj'
        simp [truncHeld]
      · have hne : j'.val ≠ c := fun h => hj' (Fin.ext h)
        simp only [truncHeld, Function.update_apply, Prod.mk.injEq, Slot.entry.injEq, hj',
          and_false, if_false, if_true]
        by_cases hle : c ≤ j'.val
        · rw [if_pos hle, if_pos (by omega)]
        · rw [if_neg hle, if_neg (by omega)]
  · simp [truncHeld, hji]

theorem truncHeld_indirect (ip : Inode) :
    Function.update (truncHeld d0 tbl0 i ip NINDIRECT) (i, .indirect) 0 =
      truncHeld d0 tbl0 i { ip with addrs := Function.update ip.addrs INDIRECT 0 } NINDIRECT := by
  funext ⟨j, s⟩
  by_cases hji : j = i
  · subst hji
    cases s with
    | direct k =>
      simp [truncHeld, INDIRECT]
    | indirect => simp [truncHeld]
    | entry j' => simp [truncHeld]
  · simp [truncHeld, hji]

variable {d : Disk}

theorem castSucc_mem_map {n : Nat} {ks : List (Fin n)} {k : Fin n} :
    k.castSucc ∈ ks.map Fin.castSucc ↔ k ∈ ks := by
  constructor
  · intro h
    obtain ⟨a, ha, he⟩ := List.mem_map.mp h
    rwa [← Fin.castSucc_inj.mp he]
  · exact List.mem_map_of_mem

/-- The loop of `itrunc` over the direct slots `ks`: it frees every block they list,
zeroing them in the in-memory inode. -/
theorem Truncating.direct_loop (hw : Wf d0 tbl0 nb0) :
    ∀ (ks : List (Fin NDIRECT)) (d : Disk) (ip : Inode),
      Truncating d0 tbl0 i d (truncHeld d0 tbl0 i ip 0) →
      ∃ d' ip', itruncDirect (ks.map Fin.castSucc) d ip = .ok (d', ip') ∧
        ip' = { ip with addrs := ip'.addrs } ∧ (∀ k ∈ ks, ip'.addrs k.castSucc = 0) ∧
        (∀ k, k ∉ ks.map Fin.castSucc → ip'.addrs k = ip.addrs k) ∧
        Truncating d0 tbl0 i d' (truncHeld d0 tbl0 i ip' 0)
  | [], d, ip, hT => ⟨d, ip, rfl, rfl, by simp, fun _ _ => rfl, hT⟩
  | k :: ks, d, ip, hT => by
    simp only [List.map_cons, itruncDirect]
    by_cases h0 : ip.addrs k.castSucc = 0
    · -- nothing to free: the slot is already empty
      rw [if_neg (not_not.mpr h0)]
      obtain ⟨d', ip', he, hip', hz, hsame, hT'⟩ := Truncating.direct_loop hw ks d ip hT
      refine ⟨d', ip', he, hip', fun k' hk' => ?_, fun k' hk' => hsame k' (fun h =>
        hk' (List.mem_cons_of_mem _ h)), hT'⟩
      rcases List.mem_cons.mp hk' with rfl | hk'
      · by_cases hks : k' ∈ ks
        · exact hz k' hks
        · rw [hsame _ (fun h => hks (castSucc_mem_map.mp h)), h0]
      · exact hz k' hk'
    · rw [if_pos h0]
      have hq : truncHeld d0 tbl0 i ip 0 (i, .direct k) ≠ 0 := by
        simp only [truncHeld, if_true]
        exact fun h => h0 (UInt32.toNat_inj.mp (by rw [h]; rfl))
      obtain ⟨d1, hfree, hT1⟩ := hT.free_slot hw rfl hq
      rw [truncHeld_direct] at hT1
      obtain ⟨d', ip', he, hip', hz, hsame, hT'⟩ := Truncating.direct_loop hw ks d1 _ hT1
      have hfree' : bfree d (ip.addrs k.castSucc).toNat = .ok d1 := by simpa [truncHeld] using hfree
      refine ⟨d', ip', by rw [hfree']; exact he, by rw [hip'], fun k' hk' => ?_,
        fun k' hk' => ?_, hT'⟩
      · rcases List.mem_cons.mp hk' with rfl | hk'
        · by_cases hks : k' ∈ ks
          · exact hz k' hks
          · rw [hsame _ (fun h => hks (castSucc_mem_map.mp h))]
            simp
        · exact hz k' hk'
      · rw [hsame k' (fun h => hk' (List.mem_cons_of_mem _ h))]
        have : k' ≠ k.castSucc := fun h => hk' (h ▸ List.mem_cons_self)
        simp [Function.update_of_ne this]

/-- The loop of `itrunc` over the entries `NINDIRECT - n, ..., NINDIRECT - 1` of the
indirect block, read once into `a` before the loop. -/
theorem Truncating.entry_loop (hw : Wf d0 tbl0 nb0) (hi : Live (readsb d0) tbl0 i) {ip : Inode}
    (hind : (tbl0 i).addrs INDIRECT ≠ 0) :
    ∀ n d, n ≤ NINDIRECT → Truncating d0 tbl0 i d (truncHeld d0 tbl0 i ip (NINDIRECT - n)) →
      ∃ d', itruncIndirect (d0 ((tbl0 i).addrs INDIRECT).toNat)
          (List.range' (NINDIRECT - n) n) d = .ok d' ∧
        Truncating d0 tbl0 i d' (truncHeld d0 tbl0 i ip NINDIRECT)
  | 0, d, _, hT => ⟨d, rfl, by simpa using hT⟩
  | n + 1, d, hn, hT => by
    have hc : NINDIRECT - (n + 1) < NINDIRECT := by omega
    have hsucc : NINDIRECT - (n + 1) + 1 = NINDIRECT - n := by omega
    -- the entry the C loop reads is the slot's holder at the start
    have hentry : truncHeld d0 tbl0 i ip (NINDIRECT - (n + 1)) (i, .entry ⟨_, hc⟩) =
        (Bytes.getU32 (d0 ((tbl0 i).addrs INDIRECT).toNat) (4 * (NINDIRECT - (n + 1)))).toNat := by
      simp [truncHeld, held_of_live _ hi, slotAddr, hind]
    have hstep : Function.update (truncHeld d0 tbl0 i ip (NINDIRECT - (n + 1)))
        (i, .entry ⟨_, hc⟩) 0 = truncHeld d0 tbl0 i ip (NINDIRECT - (n + 1) + 1) :=
      truncHeld_entry ip hc
    rw [List.range'_succ, itruncIndirect]
    by_cases h0 : Bytes.getU32 (d0 ((tbl0 i).addrs INDIRECT).toNat) (4 * (NINDIRECT - (n + 1))) = 0
    · rw [if_neg (not_not.mpr h0)]
      have hz : truncHeld d0 tbl0 i ip (NINDIRECT - (n + 1)) (i, .entry ⟨_, hc⟩) = 0 := by
        rw [hentry, h0]
        rfl
      rw [← hz, Function.update_eq_self, hsucc] at hstep
      rw [hsucc]
      exact Truncating.entry_loop hw hi hind n d (by omega) (hstep ▸ hT)
    · rw [if_pos h0]
      have hq : truncHeld d0 tbl0 i ip (NINDIRECT - (n + 1)) (i, .entry ⟨_, hc⟩) ≠ 0 := by
        rw [hentry]
        exact fun h => h0 (UInt32.toNat_inj.mp (by rw [h]; rfl))
      obtain ⟨d1, hfree, hT1⟩ := hT.free_slot hw rfl hq
      rw [hstep, hsucc] at hT1
      rw [hentry] at hfree
      rw [hfree, hsucc]
      exact Truncating.entry_loop hw hi hind n d1 (by omega) hT1

theorem truncHeld_of_addrs {ip ip' : Inode} (h : ip'.addrs = ip.addrs) (c : Nat) :
    truncHeld d0 tbl0 i ip' c = truncHeld d0 tbl0 i ip c := by
  funext ⟨j, s⟩
  cases s <;> simp [truncHeld, h]

theorem indirect_not_mem_direct (ks : List (Fin NDIRECT)) : INDIRECT ∉ ks.map Fin.castSucc := by
  intro h
  obtain ⟨k, -, hk⟩ := List.mem_map.mp h
  exact Fin.ne_of_lt k.castSucc_lt_last hk

theorem addrs_eq_zero {addrs : Fin (NDIRECT + 1) → UInt32}
    (hdir : ∀ k : Fin NDIRECT, addrs k.castSucc = 0) (hind : addrs INDIRECT = 0) :
    addrs = fun _ => 0 := by
  funext k
  by_cases hk : k.val < NDIRECT
  · exact hdir ⟨k.val, hk⟩
  · have : k = INDIRECT := Fin.ext (by have := k.isLt; simp only [INDIRECT, Fin.val_last]; omega)
    rw [this, hind]

/-- `itrunc` of a live inode as read from the disk: it frees every block of the inode
without panicking and leaves it empty in memory and on disk. -/
theorem itrunc_spec (hw : Wf d0 tbl0 nb0) (hi : Live (readsb d0) tbl0 i) {ip : Inode}
    (hip : tbl0 i = ip.toDinode) :
    ∃ d', itrunc d0 ip = .ok (iupdate d' { ip with size := 0, addrs := fun _ => 0 },
        { ip with size := 0, addrs := fun _ => 0 }) ∧
      Truncating d0 tbl0 i d' (truncHeld d0 tbl0 i { ip with size := 0, addrs := fun _ => 0 }
        NINDIRECT) := by
  have hT0 : Truncating d0 tbl0 i d0 (truncHeld d0 tbl0 i ip 0) := by
    rw [truncHeld_start hi ip hip]
    exact Truncating.start hw
  obtain ⟨d1, ip1, he1, hip1, hz, hsame, hT1⟩ :=
    Truncating.direct_loop hw (List.finRange NDIRECT) d0 ip hT0
  have hind1 : ip1.addrs INDIRECT = ip.addrs INDIRECT := hsame _ (indirect_not_mem_direct _)
  have hdir : ∀ k : Fin NDIRECT, ip1.addrs k.castSucc = 0 := fun k => hz k (List.mem_finRange k)
  have hE : ∀ {addrs : Fin (NDIRECT + 1) → UInt32}, addrs = (fun _ => 0) →
      ({ ip1 with addrs := addrs, size := 0 } : Inode) = { ip with size := 0, addrs := fun _ => 0 } := by
    rintro _ rfl
    rw [hip1]
  unfold itrunc
  rw [he1]
  simp only [bind, Except.bind]
  by_cases h0 : ip.addrs INDIRECT = 0
  · -- no indirect block: nothing more to free
    have hz1 : ip1.addrs = fun _ => 0 := addrs_eq_zero hdir (hind1.trans h0)
    rw [if_neg (by rw [hind1, h0]; simp)]
    refine ⟨d1, by rw [← hE hz1]; rfl, ?_⟩
    have hentry : ∀ j, held d0 (readsb d0) tbl0 (i, .entry j) = 0 := fun j => by
      simp [held_of_live _ hi, slotAddr, hip, h0]
    have : truncHeld d0 tbl0 i ip1 0 =
        truncHeld d0 tbl0 i { ip with size := 0, addrs := fun _ => 0 } NINDIRECT := by
      funext js
      obtain ⟨j, s⟩ := js
      by_cases hji : j = i
      · subst hji
        cases s <;> simp [truncHeld, hz1, hentry]
      · simp [truncHeld, hji]
    rwa [← this]
  · have hind : (tbl0 i).addrs INDIRECT ≠ 0 := by rw [hip]; exact h0
    rw [if_pos (by rw [hind1]; exact h0)]
    -- the indirect block is read after the direct loop, which left it alone
    have ha : d1 (ip1.addrs INDIRECT).toNat = d0 ((tbl0 i).addrs INDIRECT).toNat := by
      rw [hind1, ← hip]
      have h0' : held d0 (readsb d0) tbl0 (i, .indirect) ≠ 0 := by
        rw [held_of_live _ hi]
        exact fun h => hind (UInt32.toNat_inj.mp h)
      have hmem := (hw.alloc.held_mem _ h0').1
      rw [held_of_live _ hi] at hmem
      refine hT1.keep (.inr hmem) fun q hq hne => ?_
      have hq' : q = (i, .indirect) :=
        hw.alloc.held_inj q _ (by rw [hq]; exact hne) (by rw [hq, held_of_live _ hi]; rfl)
      subst hq'
      simp only [truncHeld, if_true, hind1, ← hip]
      exact fun h => hind (UInt32.toNat_inj.mp h)
    obtain ⟨d2, he2, hT2⟩ := Truncating.entry_loop hw hi hind NINDIRECT d1 le_rfl
      (show Truncating d0 tbl0 i d1 (truncHeld d0 tbl0 i ip1 (NINDIRECT - NINDIRECT)) by
        rw [Nat.sub_self]
        exact hT1)
    rw [Nat.sub_self] at he2
    have hq : truncHeld d0 tbl0 i ip1 NINDIRECT (i, .indirect) ≠ 0 := by
      simp only [truncHeld, if_true, hind1]
      exact fun h => h0 (UInt32.toNat_inj.mp h)
    obtain ⟨d3, hfree, hT3⟩ := hT2.free_slot hw rfl hq
    rw [truncHeld_indirect] at hT3
    simp only [truncHeld, if_true] at hfree
    have hz3 : Function.update ip1.addrs INDIRECT 0 = fun _ => 0 :=
      addrs_eq_zero (fun k => by
        rw [Function.update_of_ne (show k.castSucc ≠ INDIRECT from Fin.ne_of_lt k.castSucc_lt_last)]
        exact hdir k) (Function.update_self _ _ _)
    rw [ha, List.range_eq_range', he2]
    simp only [hfree]
    refine ⟨d3, by rw [← hE hz3]; rfl, ?_⟩
    rwa [truncHeld_of_addrs (show ({ ip with size := 0, addrs := fun _ => 0 } : Inode).addrs =
      ({ ip1 with addrs := Function.update ip1.addrs INDIRECT 0 } : Inode).addrs from hz3.symm)]

end Loops

/-- The freeing half of `iput` on a live inode as read from the disk: it does not
panic, it leaves the dinode free with no blocks, the invariant holds, and every other
inode reads as before. -/
theorem iputFree_spec {d : Disk} (hinv : FsInv d) {i : Nat} (hi : Live (readsb d) (dinodeAt d) i) :
    ∃ d', iputFree d (Inode.load d i) =
        .ok (d', { Inode.load d i with type := 0, size := 0, addrs := fun _ => 0 }) ∧
      FsInv d' ∧ dinodeAt d' i = { dinodeAt d i with type := 0, size := 0, addrs := fun _ => 0 } ∧
      ∀ j, j ≠ i → Live (readsb d) (dinodeAt d) j →
        dinodeAt d' j = dinodeAt d j ∧ contents d' (dinodeAt d' j) = contents d (dinodeAt d j) := by
  obtain ⟨d1, hit, hT⟩ := itrunc_spec hinv hi
    (show dinodeAt d i = (Inode.load d i).toDinode from rfl)
  set ipE : Inode := { Inode.load d i with size := 0, addrs := fun _ => 0 } with hipE
  set ipF : Inode := { ipE with type := 0 } with hipF
  have hsb := hT.sb hinv
  have hin : i < (readsb d1).ninodes.toNat := hsb ▸ hi.2.1
  -- the table as `itrunc` leaves it, then after each of the two `iupdate`s
  have hw1 : Wf d1 (Function.update (dinodeAt d) i ipE.toDinode)
      (Function.update (fun j => nblocks (dinodeAt d j).size) i 0) :=
    hT.wf_empty hinv (fun s => by cases s <;> simp [truncHeld, hipE]) (fun _ => rfl)
      (fun _ => by simp [ipE])
  have hw2 : Wf (iupdate d1 ipE) (Function.update (Function.update (dinodeAt d) i ipE.toDinode) i
      ipE.toDinode) (Function.update (fun j => nblocks (dinodeAt d j).size) i 0) :=
    hw1.iupdate_of_addrs ipE hin
      (by
        show ipE.type = (Function.update (dinodeAt d) i ipE.toDinode i).type
        rw [Function.update_self])
      (by
        show ipE.addrs = (Function.update (dinodeAt d) i ipE.toDinode i).addrs
        rw [Function.update_self])
      (fun _ => by simp [ipE])
  rw [Function.update_idem] at hw2
  have hsb2 : readsb (iupdate d1 ipE) = readsb d := by
    rw [iupdate, readsb_update _ (iblock_ne_one _), hsb]
  have hw3 : Wf (iupdate (iupdate d1 ipE) ipF)
      (Function.update (Function.update (dinodeAt d) i ipE.toDinode) i ipF.toDinode)
      (Function.update (Function.update (fun j => nblocks (dinodeAt d j).size) i 0) i 0) :=
    hw2.update_iblock (by rw [hsb2]; exact hi.2.1) _
      (fun s => by
        have hE : ∀ k, ipE.toDinode.addrs k = 0 := fun _ => rfl
        have hF : ∀ k, ipF.toDinode.addrs k = 0 := fun _ => rfl
        have hFi : ipF.inum = i := rfl
        simp only [held, hFi, Function.update_self, slotAddr_eq_zero _ hE, slotAddr_eq_zero _ hF,
          ite_self])
      (fun _ => shape_of_addrs_zero _ fun _ => rfl) (fun _ => by simp [ipF, ipE])
  rw [Function.update_idem, Function.update_idem] at hw3
  have hdin : dinodeAt (iupdate (iupdate d1 ipE) ipF) =
      Function.update (Function.update (dinodeAt d1) i ipE.toDinode) i ipF.toDinode := by
    rw [dinodeAt_iupdate, dinodeAt_iupdate]
    rfl
  rw [Function.update_idem] at hdin
  have hsb3 : readsb (iupdate (iupdate d1 ipE) ipF) = readsb d := by
    rw [iupdate, readsb_update _ (iblock_ne_one _), hsb2]
  have hother : ∀ j, j ≠ i → j < (readsb d).ninodes.toNat →
      dinodeAt (iupdate (iupdate d1 ipE) ipF) j = dinodeAt d j := fun j hji hj => by
    rw [hdin, Function.update_of_ne hji, hT.dinodeAt_eq hinv hj]
  have hput : iputFree d (Inode.load d i) = .ok (iupdate (iupdate d1 ipE) ipF, ipF) := by
    rw [iputFree, hit]
    rfl
  refine ⟨_, hput, ?_, by rw [hdin, Function.update_self]; rfl,
    fun j hji hj => ⟨hother j hji hj.2.1, ?_⟩⟩
  · refine hw3.congr_tbl (fun j hj => ?_) (fun j _ => ?_)
    · rw [hsb3] at hj
      by_cases hji : j = i
      · rw [hji, hdin, Function.update_self, Function.update_self]
      · rw [Function.update_of_ne hji, hother j hji hj]
    · by_cases hji : j = i
      · rw [hji, hdin, Function.update_self, Function.update_self]
        show nblocks (0 : UInt32) = 0
        simp [nblocks, BSIZE]
      · rw [Function.update_of_ne hji, hother j hji (by rw [← hsb3]; exact ‹Live _ _ j›.2.1)]
  · rw [hother j hji hj.2.1]
    refine contents_congr rfl fun k hk => ?_
    have hk' : k / BSIZE < Function.update (fun j => nblocks (dinodeAt d j).size) i 0 j := by
      rw [Function.update_of_ne hji]
      exact lt_nblocks hk
    have hj1 : Live (readsb d1) (Function.update (dinodeAt d) i ipE.toDinode) j := by
      rw [hsb, live_update_of_ne hji]
      exact hj
    have hj2 : Live (readsb (iupdate d1 ipE)) (Function.update (dinodeAt d) i ipE.toDinode) j := by
      rw [hsb2, live_update_of_ne hji]
      exact hj
    have h2 := hw2.dataAt_iupdate hj2 hk' ipF (by rw [hsb2]; exact hi.2.1)
    have h1 := hw1.dataAt_iupdate hj1 hk' ipE hin
    rw [Function.update_of_ne hji] at h1 h2
    rw [h2, h1]
    exact hT.dataAt_other hinv hji hj (lt_nblocks hk)

end Xv6
