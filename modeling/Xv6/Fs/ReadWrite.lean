import Xv6.Fs.Bmap
import Xv6.Fs.Dinodes

/-!
# `readi` and `writei` against the invariant

The contents of an inode refine a byte string. `readi` copies out a slice of
`contents` and changes nothing; `writei` replaces a slice, grows the size to cover
it, writes the dinode back when the size grows, and leaves every other inode's
contents alone, or panics because the disk is full.

The loops are proved by induction over their iterations. `readiLoop` reads blocks
the inode has (`bmap_of_lt`). Each iteration of `writeiLoop` either overwrites a
block the inode has or appends the next one (`Wf.bmap_append`), then overwrites
part of it (`Wf.write_block`); `Written` is what holds between iterations, with
the inode counted as holding the blocks up to the current offset.
-/

namespace Xv6

/-- The bytes of one block that a loop iteration copies. -/
theorem readBytes_block (d : Disk) (di : Dinode) {off m : Nat} (hm : off % BSIZE + m ≤ BSIZE) :
    Bytes.readBytes (d (blockAddr d di (off / BSIZE))) (off % BSIZE) m =
      (List.range m).map fun k => dataAt d di (off + k) := by
  apply List.ext_getElem (by simp)
  intro k hk _
  simp only [Bytes.length_readBytes] at hk
  have h1 : (off + k) / BSIZE = off / BSIZE := by simp only [BSIZE] at *; omega
  have h2 : (off + k) % BSIZE = off % BSIZE + k := by simp only [BSIZE] at *; omega
  simp [dataAt, h1, h2]

theorem readiLoop_eq {d : Disk} {ip : Inode} {nb : Nat} (hs : Shape d ip.toDinode nb) (n : Nat) :
    ∀ tot off acc, off + (n - tot) ≤ nb * BSIZE →
      readiLoop n d ip tot off acc =
        .ok (d, ip, acc ++ (List.range (n - tot)).map fun k => dataAt d ip.toDinode (off + k)) := by
  intro tot off acc hoff
  fun_induction readiLoop n d ip tot off acc with
  | case1 d ip tot off acc htot ih =>
    -- the block is there, so `bmap` returns it and changes nothing
    have hbn : off / BSIZE < nb := by
      have : 0 < nb * BSIZE - off := by omega
      have hb : (0 : Nat) < BSIZE := by decide
      exact (Nat.div_lt_iff_lt_mul hb).mpr (by omega)
    obtain ⟨a, hbmap, ha⟩ := bmap_of_lt hs hbn
    have hm : off % BSIZE + min (n - tot) (BSIZE - off % BSIZE) ≤ BSIZE := by
      have := Nat.mod_lt off (show 0 < BSIZE by decide)
      omega
    rw [hbmap]
    simp only [bind, Except.bind]
    rw [ih d ip a hs (by omega), ha, readBytes_block d _ hm, List.append_assoc]
    -- the first `m` bytes come from this block, the rest from the later iterations
    set m := min (n - tot) (BSIZE - off % BSIZE)
    have hsplit : n - tot = m + (n - (tot + m)) := by omega
    rw [hsplit, List.range_add, List.map_append, List.map_map]
    simp only [Function.comp_def, Nat.add_assoc]
  | case2 d ip tot off acc htot =>
    have h0 : n - tot = 0 := by omega
    simp [h0, pure, Except.pure]

theorem take_drop_contents (d : Disk) (di : Dinode) {off m : Nat} (h : off + m ≤ di.size.toNat) :
    ((contents d di).drop off).take m = (List.range m).map fun k => dataAt d di (off + k) := by
  apply List.ext_getElem (by simp [contents]; omega)
  intro k hk _
  simp [contents]

/-- The count `readi` and `writei` settle on, `min n (limit - off)` for a `uint` `n`,
as the C code computes it when `off + n` does not overflow. -/
theorem clamp_toNat {off lim : UInt32} (n : UInt32) (hle : off ≤ lim) (hov : ¬ 2 ^ 32 ≤ off.toNat + n.toNat) :
    (if off + n > lim then lim - off else n).toNat = min n.toNat (lim.toNat - off.toNat) := by
  have hle' : off.toNat ≤ lim.toNat := UInt32.le_iff_toNat_le.mp hle
  have hadd : (off + n).toNat = off.toNat + n.toNat := by
    rw [UInt32.toNat_add]
    exact Nat.mod_eq_of_lt (by omega)
  split
  · rename_i hgt
    rw [UInt32.toNat_sub_of_le _ _ hle]
    have := UInt32.lt_iff_toNat_lt.mp hgt
    omega
  · rename_i hgt
    have : ¬ lim.toNat < (off + n).toNat := fun h => hgt (UInt32.lt_iff_toNat_lt.mpr h)
    omega

/-- `readi` on a non-device inode of `nb` blocks that cover its size: the bad-offset
cases return `-1`, and otherwise it returns `m = min n (size - off)` with the slice
`[off, off + m)` of the contents, and the disk and the inode are as they were. -/
theorem readi_eq (devsw : Nat → Devsw) {d : Disk} {ip : Inode} {nb : Nat}
    (hs : Shape d ip.toDinode nb) (hsize : ip.size.toNat ≤ nb * BSIZE) (hdev : ip.type ≠ T_DEV)
    (off n : UInt32) :
    (ip.size.toNat < off.toNat ∨ 2 ^ 32 ≤ off.toNat + n.toNat →
      readi devsw d ip off n = .ok (d, ip, -1, [])) ∧
    (¬ (ip.size.toNat < off.toNat ∨ 2 ^ 32 ≤ off.toNat + n.toNat) →
      ∃ r : Int32, readi devsw d ip off n = .ok (d, ip, r,
          ((contents d ip.toDinode).drop off.toNat).take (min n.toNat (ip.size.toNat - off.toNat))) ∧
        r.toInt = (min n.toNat (ip.size.toNat - off.toNat) : Nat)) := by
  have hbad : (off > ip.size ∨ off + n < off) ↔
      (ip.size.toNat < off.toNat ∨ 2 ^ 32 ≤ off.toNat + n.toNat) := by
    rw [Word32.add_lt_self_iff, gt_iff_lt, UInt32.lt_iff_toNat_lt]
  constructor
  · intro h
    simp only [readi, if_neg hdev, if_pos (hbad.mpr h)]
    rfl
  · intro h
    have hle : off ≤ ip.size := UInt32.le_iff_toNat_le.mpr (by omega)
    have hm := clamp_toNat n hle (by omega)
    set m := min n.toNat (ip.size.toNat - off.toNat)
    have hloop := readiLoop_eq hs (if off + n > ip.size then ip.size - off else n).toNat 0 off.toNat []
      (by rw [hm]; omega)
    refine ⟨(if off + n > ip.size then ip.size - off else n).toInt32, ?_, ?_⟩
    · simp only [readi, if_neg hdev, if_neg (fun h' => h (hbad.mp h'))]
      rw [hloop]
      simp only [bind, Except.bind, pure, Except.pure, hm, Nat.sub_zero, List.nil_append]
      rw [take_drop_contents d _ (by omega)]
    · rw [Word32.toInt_toInt32 _ (by rw [hm]; have := hs.le_maxfile; simp only [MAXFILE, NINDIRECT, NDIRECT, BSIZE] at *; omega), hm]

/-! ## Writing one block -/

section Span

variable {d : Disk} {tbl : Nat → Dinode} {nb : Nat → Nat}

/-- Overwriting `bytes` at offset `off` of an inode, within block `off / BSIZE`, which it
has: the bytes `[off, off + bytes.length)` of that inode change and nothing else. -/
theorem Wf.dataAt_write_span (hw : Wf d tbl nb) {i j off k : Nat} (hi : Live (readsb d) tbl i)
    (hbn : off / BSIZE < nb i) (bytes : List UInt8) (hm : off % BSIZE + bytes.length ≤ BSIZE)
    (hj : Live (readsb d) tbl j) (hk : k / BSIZE < nb j) :
    dataAt (Function.update d (blockAddr d (tbl i) (off / BSIZE))
        (Bytes.writeBytes (d (blockAddr d (tbl i) (off / BSIZE))) (off % BSIZE) bytes)) (tbl j) k =
      if j = i ∧ off ≤ k ∧ k < off + bytes.length then bytes.getD (k - off) 0
      else dataAt d (tbl j) k := by
  rw [hw.dataAt_write_block hi hbn _ hj hk]
  by_cases hji : j = i
  · subst hji
    by_cases hkb : k / BSIZE = off / BSIZE
    · -- same block: the byte is new exactly when its offset in the block is in the span
      have hmod : off ≤ k ∧ k < off + bytes.length ↔
          off % BSIZE ≤ k % BSIZE ∧ k % BSIZE - off % BSIZE < bytes.length := by
        simp only [BSIZE] at *
        omega
      rw [if_pos ⟨rfl, hkb⟩]
      by_cases hin : off ≤ k ∧ k < off + bytes.length
      · have hin' := hmod.mp hin
        rw [if_pos ⟨rfl, hin⟩, Bytes.writeBytes_apply_mem hin'.1 hin'.2]
        have hidx : k % BSIZE - off % BSIZE = k - off := by simp only [BSIZE] at *; omega
        simp [hidx, List.getElem?_eq_getElem (show k - off < bytes.length by omega)]
      · rw [if_neg (fun h => hin h.2)]
        have hout : k % BSIZE < off % BSIZE ∨ off % BSIZE + bytes.length ≤ k % BSIZE := by
          have := mt hmod.mpr hin
          omega
        rcases hout with hlt | hge
        · rw [Bytes.writeBytes_apply_of_lt hlt]
          simp [dataAt, hkb]
        · rw [Bytes.writeBytes_apply_of_ge hge]
          simp [dataAt, hkb]
    · have hout : ¬ (off ≤ k ∧ k < off + bytes.length) := by
        simp only [BSIZE] at *
        omega
      rw [if_neg (fun h => hkb h.2), if_neg (fun h => hout h.2)]
  · rw [if_neg (fun h => hji h.1), if_neg (fun h => hji h.1)]

end Span

/-! ## The write loop

`writeiLoop` grows an inode one block at a time. While it runs, the inode with
`nb0 i` blocks has `growBlocks (nb0 i) off` of them, where `off` is the offset it has
reached; the bytes written so far read back, and every other byte of every inode is
unchanged. -/

/-- The blocks of an inode that had `nb` blocks, once bytes up to `off` are written. -/
def growBlocks (nb off : Nat) : Nat := max nb ((off + BSIZE - 1) / BSIZE)

theorem growBlocks_of_le {nb off : Nat} (h : off ≤ nb * BSIZE) : growBlocks nb off = nb := by
  simp only [growBlocks, BSIZE] at *
  omega

theorem growBlocks_add_of_lt {nb off m : Nat} (hlt : off / BSIZE < growBlocks nb off)
    (hm : off % BSIZE + m ≤ BSIZE) : growBlocks nb (off + m) = growBlocks nb off := by
  simp only [growBlocks, BSIZE] at *
  omega

/-- Writing from the end of the last block: it starts a new block. -/
theorem growBlocks_add_of_eq {nb off m : Nat} (heq : off / BSIZE = growBlocks nb off)
    (hm0 : 0 < m) (hm : off % BSIZE + m ≤ BSIZE) :
    off % BSIZE = 0 ∧ nb * BSIZE ≤ off ∧ growBlocks nb (off + m) = growBlocks nb off + 1 := by
  simp only [growBlocks, BSIZE] at *
  omega

theorem readsb_of_low {d d0 : Disk} (h : ∀ x, x < bmapStart (readsb d0) → d x = d0 x) :
    readsb d = readsb d0 := by
  have h1 : 1 < bmapStart (readsb d0) := by simp only [bmapStart, IPB, BSIZE]; omega
  simp only [readsb, h 1 h1]

/-- The loop invariant of writing bytes `src 0, src 1, ...` from offset `off0` of inode
`i`, whose in-memory copy was `ip0`, when `tot` of them are written. -/
structure Written (d0 : Disk) (tbl0 : Nat → Dinode) (nb0 : Nat → Nat) (i : Nat) (ip0 : Inode)
    (off0 : Nat) (src : Nat → UInt8) (d : Disk) (ip : Inode) (tot : Nat) : Prop where
  inode : ip = { ip0 with addrs := ip.addrs }
  low : ∀ x, x < bmapStart (readsb d0) → d x = d0 x
  wf : Wf d (Function.update tbl0 i ip.toDinode)
    (Function.update nb0 i (growBlocks (nb0 i) (off0 + tot)))
  same : growBlocks (nb0 i) (off0 + tot) = nb0 i → ip = ip0
  free : freeBlocks d + blockCount (growBlocks (nb0 i) (off0 + tot)) = freeBlocks d0 + blockCount (nb0 i)
  data : ∀ k, k < max (nb0 i * BSIZE) (off0 + tot) →
    dataAt d ip.toDinode k =
      if off0 ≤ k ∧ k < off0 + tot then src (k - off0) else dataAt d0 ip0.toDinode k
  other : ∀ j, j ≠ i → Live (readsb d0) tbl0 j → ∀ k, k / BSIZE < nb0 j →
    dataAt d (tbl0 j) k = dataAt d0 (tbl0 j) k

theorem getD_chunk (src : Nat → UInt8) (tot m j : Nat) (h : j < m) :
    ((List.range m).map fun t => src (tot + t)).getD j 0 = src (tot + j) := by
  simp [List.getElem?_range h]

section Loop

variable {d0 : Disk} {tbl0 : Nat → Dinode} {nb0 : Nat → Nat} {i : Nat} {ip0 : Inode}
  {off0 : Nat} {src : Nat → UInt8}

theorem Written.start (hw : Wf d0 tbl0 nb0) (hip0 : tbl0 i = ip0.toDinode)
    (hoff : off0 ≤ nb0 i * BSIZE) : Written d0 tbl0 nb0 i ip0 off0 src d0 ip0 0 := by
  have hg : growBlocks (nb0 i) (off0 + 0) = nb0 i := growBlocks_of_le hoff
  refine ⟨rfl, fun _ _ => rfl, ?_, fun _ => rfl, by rw [hg], fun k _ => ?_, fun _ _ _ _ _ => rfl⟩
  · rw [hg, ← hip0, Function.update_eq_self, Function.update_eq_self]
    exact hw
  · rw [if_neg (by omega)]

variable {d : Disk} {ip : Inode} {tot : Nat}

theorem Written.type (hW : Written d0 tbl0 nb0 i ip0 off0 src d ip tot) : ip.type = ip0.type := by
  rw [hW.inode]

theorem Written.size_eq (hW : Written d0 tbl0 nb0 i ip0 off0 src d ip tot) : ip.size = ip0.size := by
  rw [hW.inode]

theorem Written.live_iff (hW : Written d0 tbl0 nb0 i ip0 off0 src d ip tot)
    (hip0 : tbl0 i = ip0.toDinode) {j : Nat} :
    Live (readsb d) (Function.update tbl0 i ip.toDinode) j ↔ Live (readsb d0) tbl0 j := by
  rw [readsb_of_low hW.low]
  exact live_update_iff (by rw [hip0]; exact hW.type)

/-- The bytes below the next offset, once `m` more are written there: byte `k` is the
new byte `x` inside the span and the byte `y` it was before outside it. -/
theorem Written.data_span (hW : Written d0 tbl0 nb0 i ip0 off0 src d ip tot) {m k : Nat}
    (hk : k < max (nb0 i * BSIZE) (off0 + (tot + m))) {x y : UInt8}
    (hx : off0 + tot ≤ k ∧ k < off0 + tot + m → x = src (k - off0))
    (hy : ¬ (off0 + tot ≤ k ∧ k < off0 + tot + m) → y = dataAt d ip.toDinode k) :
    (if off0 + tot ≤ k ∧ k < off0 + tot + m then x else y) =
      if off0 ≤ k ∧ k < off0 + (tot + m) then src (k - off0) else dataAt d0 ip0.toDinode k := by
  by_cases hin : off0 + tot ≤ k ∧ k < off0 + tot + m
  · rw [if_pos hin, if_pos (by omega), hx hin]
  · rw [if_neg hin, hy hin, hW.data k (by omega)]
    by_cases hold : off0 ≤ k ∧ k < off0 + tot
    · rw [if_pos hold, if_pos (by omega)]
    · rw [if_neg hold, if_neg (by omega)]

/-- The byte of the chunk an iteration writes at `k`. -/
theorem getD_chunk_sub (src : Nat → UInt8) {off0 tot m k : Nat}
    (h : off0 + tot ≤ k ∧ k < off0 + tot + m) :
    ((List.range m).map fun t => src (tot + t)).getD (k - (off0 + tot)) 0 = src (k - off0) := by
  rw [getD_chunk src tot m _ (by omega)]
  congr 1
  omega

/-- An iteration of the loop that writes into a block the inode has. -/
theorem Written.write_within (hW : Written d0 tbl0 nb0 i ip0 off0 src d ip tot)
    (hi : Live (readsb d0) tbl0 i) (hip0 : tbl0 i = ip0.toDinode)
    (hlt : (off0 + tot) / BSIZE < growBlocks (nb0 i) (off0 + tot)) {m : Nat}
    (hm : (off0 + tot) % BSIZE + m ≤ BSIZE) :
    Written d0 tbl0 nb0 i ip0 off0 src
      (Function.update d (blockAddr d ip.toDinode ((off0 + tot) / BSIZE))
        (Bytes.writeBytes (d (blockAddr d ip.toDinode ((off0 + tot) / BSIZE))) ((off0 + tot) % BSIZE)
          ((List.range m).map fun t => src (tot + t))))
      ip (tot + m) := by
  have hw := hW.wf
  have hiL := (hW.live_iff hip0).2 hi
  have hbn : (off0 + tot) / BSIZE <
      Function.update nb0 i (growBlocks (nb0 i) (off0 + tot)) i := by
    rwa [Function.update_self]
  have hm' : (off0 + tot) % BSIZE + ((List.range m).map fun t => src (tot + t)).length ≤ BSIZE := by
    simpa using hm
  have hg : growBlocks (nb0 i) (off0 + (tot + m)) = growBlocks (nb0 i) (off0 + tot) := by
    rw [← Nat.add_assoc]
    exact growBlocks_add_of_lt hlt hm
  -- the block written is a data block
  have hmem := (hw.blockAddr_mem hiL hbn).1
  rw [Function.update_self] at hmem
  refine ⟨hW.inode, fun x hx => ?_, ?_, fun h => hW.same (hg ▸ h), ?_, fun k hk => ?_,
    fun j hji hj k hk => ?_⟩
  · rw [readsb_of_low hW.low] at hmem
    have : bmapStart (readsb d0) ≤ dataStart (readsb d0) := Nat.le_add_right _ _
    rw [Function.update_of_ne (by omega), hW.low x hx]
  · have := hw.write_block hiL hbn
      (Bytes.writeBytes (d (blockAddr d ip.toDinode ((off0 + tot) / BSIZE))) ((off0 + tot) % BSIZE)
        ((List.range m).map fun t => src (tot + t)))
    rw [Function.update_self] at this
    rwa [hg]
  · rw [freeBlocks_update _ hmem, hg]
    exact hW.free
  · have hkV : k / BSIZE < Function.update nb0 i (growBlocks (nb0 i) (off0 + tot)) i := by
      rw [Function.update_self]
      simp only [growBlocks, BSIZE] at hk hlt hm ⊢
      omega
    have h := hw.dataAt_write_span hiL hbn _ hm' hiL hkV
    simp only [Function.update_self, true_and, List.length_map, List.length_range] at h
    rw [h]
    exact hW.data_span hk (getD_chunk_sub src) fun _ => rfl
  · have hjL := (hW.live_iff hip0).2 hj
    have h := hw.dataAt_write_span hiL hbn _ hm' hjL (by rwa [Function.update_of_ne hji])
    simp only [Function.update_self, Function.update_of_ne hji] at h
    rw [h, if_neg (fun h => hji h.1)]
    exact hW.other j hji hj k hk
/-- An iteration of the loop that appends a block: `bmap` gave the inode block
`growBlocks`, at `a`, and the iteration writes into it. -/
theorem Written.write_append (hW : Written d0 tbl0 nb0 i ip0 off0 src d ip tot)
    (hi : Live (readsb d0) tbl0 i) (hip0 : tbl0 i = ip0.toDinode)
    (heq : (off0 + tot) / BSIZE = growBlocks (nb0 i) (off0 + tot)) {m : Nat} (hm0 : 0 < m)
    (hm : (off0 + tot) % BSIZE + m ≤ BSIZE) {d1 : Disk} {ip1 : Inode} {a : UInt32}
    (hA : Appended d (Function.update tbl0 i ip.toDinode)
      (Function.update nb0 i (growBlocks (nb0 i) (off0 + tot))) i ip d1 ip1 a) :
    Written d0 tbl0 nb0 i ip0 off0 src
      (Function.update d1 a.toNat (Bytes.writeBytes (d1 a.toNat) ((off0 + tot) % BSIZE)
        ((List.range m).map fun t => src (tot + t))))
      ip1 (tot + m) := by
  obtain ⟨hmod, hnb, hg⟩ := growBlocks_add_of_eq heq hm0 hm
  set V := growBlocks (nb0 i) (off0 + tot) with hV
  have hw1 := hA.wf
  simp only [Function.update_idem, Function.update_self] at hw1
  have hsb : readsb d = readsb d0 := readsb_of_low hW.low
  have hiL1 : Live (readsb d1) (Function.update tbl0 i ip1.toDinode) i := by
    rw [hA.sb, hsb]
    refine (live_update_iff ?_).2 hi
    rw [hip0, hA.inode]
    exact hW.type
  have hbn : (off0 + tot) / BSIZE < Function.update nb0 i (V + 1) i := by
    rw [Function.update_self]
    omega
  have haddr : blockAddr d1 (Function.update tbl0 i ip1.toDinode i) ((off0 + tot) / BSIZE) =
      a.toNat := by
    rw [Function.update_self, heq]
    simpa using hA.addr
  have hm' : (off0 + tot) % BSIZE + ((List.range m).map fun t => src (tot + t)).length ≤ BSIZE := by
    simpa using hm
  have hg' : growBlocks (nb0 i) (off0 + (tot + m)) = V + 1 := by rw [← Nat.add_assoc, hg]
  -- the bytes of existing blocks, through the table before the append
  have hold := hA.data
  simp only [Function.update_idem] at hold
  -- the block written is a data block
  have hmem := (hw1.blockAddr_mem hiL1 hbn).1
  rw [haddr] at hmem
  refine ⟨?_, fun x hx => ?_, ?_, fun h => ?_, ?_, fun k hk => ?_, fun j hji hj k hk => ?_⟩
  · rw [hA.inode, hW.inode]
  · rw [hA.sb, hsb] at hmem
    have : bmapStart (readsb d0) ≤ dataStart (readsb d0) := Nat.le_add_right _ _
    rw [Function.update_of_ne (by omega), hA.low x (by rwa [hsb]), hW.low x hx]
  · have := hw1.write_block hiL1 hbn
      (Bytes.writeBytes (d1 a.toNat) ((off0 + tot) % BSIZE) ((List.range m).map fun t => src (tot + t)))
    rw [haddr] at this
    rwa [hg']
  · -- the inode has one block more than it started with
    have hle : nb0 i ≤ V := le_max_left _ _
    rw [hg'] at h
    omega
  · -- `bmap` took the blocks of the append from the free count
    have hf := hA.free
    rw [Function.update_self] at hf
    rw [freeBlocks_update _ hmem, hg']
    have hfr : freeBlocks d + blockCount V = freeBlocks d0 + blockCount (nb0 i) := hW.free
    omega
  · have hkV : k / BSIZE < Function.update nb0 i (V + 1) i := by
      rw [Function.update_self]
      simp only [growBlocks, BSIZE] at hk hnb heq hm hV ⊢
      omega
    have h := hw1.dataAt_write_span hiL1 hbn _ hm' hiL1 hkV
    rw [haddr] at h
    simp only [Function.update_self, true_and, List.length_map, List.length_range] at h
    rw [h]
    refine hW.data_span hk (getD_chunk_sub src) fun hout => ?_
    -- below the new block nothing moved
    have hkV' : k / BSIZE < Function.update nb0 i V i := by
      rw [Function.update_self]
      simp only [BSIZE] at hk hnb heq hm hmod hout ⊢
      omega
    have := hold i ((live_update_iff (by rw [hip0]; exact hW.type)).2 (hsb ▸ hi)) k hkV'
    simpa using this
  · have hjL1 : Live (readsb d1) (Function.update tbl0 i ip1.toDinode) j := by
      rw [hA.sb, hsb]
      exact (live_update_iff (by rw [hip0, hA.inode]; exact hW.type)).2 hj
    have h := hw1.dataAt_write_span hiL1 hbn _ hm' hjL1 (by rwa [Function.update_of_ne hji])
    rw [haddr] at h
    simp only [Function.update_of_ne hji] at h
    rw [h, if_neg (fun h => hji h.1)]
    have := hold j ((hW.live_iff hip0).2 hj) k (by rwa [Function.update_of_ne hji])
    simp only [Function.update_of_ne hji] at this
    rw [this]
    exact hW.other j hji hj k hk
/-- An iteration at a block the inode has: `bmap` returns it and changes nothing. -/
theorem Written.step_lt (hW : Written d0 tbl0 nb0 i ip0 off0 src d ip tot)
    (hi : Live (readsb d0) tbl0 i) (hip0 : tbl0 i = ip0.toDinode) {n : Nat}
    (hlt : (off0 + tot) / BSIZE < growBlocks (nb0 i) (off0 + tot)) :
    ∃ d1 ip1 a, bmap d ip ((off0 + tot) / BSIZE) = .ok (d1, ip1, a) ∧
      Written d0 tbl0 nb0 i ip0 off0 src
        (Function.update d1 a.toNat (Bytes.writeBytes (d1 a.toNat) ((off0 + tot) % BSIZE)
          ((List.range (min (n - tot) (BSIZE - (off0 + tot) % BSIZE))).map fun t => src (tot + t))))
        ip1 (tot + min (n - tot) (BSIZE - (off0 + tot) % BSIZE)) := by
  have hmod := Nat.mod_lt (off0 + tot) (show 0 < BSIZE by decide)
  have hm : (off0 + tot) % BSIZE + min (n - tot) (BSIZE - (off0 + tot) % BSIZE) ≤ BSIZE := by
    omega
  have hs := hW.wf.shape i ((hW.live_iff hip0).2 hi)
  simp only [Function.update_self] at hs
  obtain ⟨a, hbmap, ha⟩ := bmap_of_lt hs hlt
  refine ⟨d, ip, a, hbmap, ?_⟩
  rw [ha]
  exact hW.write_within hi hip0 hlt hm

/-- One iteration of the loop: `bmap` panics because the disk had fewer free blocks
than the whole write needs, or the invariant holds after the iteration. -/
theorem Written.step (hW : Written d0 tbl0 nb0 i ip0 off0 src d ip tot)
    (hi : Live (readsb d0) tbl0 i) (hip0 : tbl0 i = ip0.toDinode) {n : Nat} (htot : tot < n)
    (hmax : off0 + n ≤ MAXFILE * BSIZE) :
    (bmap d ip ((off0 + tot) / BSIZE) = .error "balloc: out of blocks" ∧
        freeBlocks d0 + blockCount (nb0 i) < blockCount (growBlocks (nb0 i) (off0 + n))) ∨
      ∃ d1 ip1 a, bmap d ip ((off0 + tot) / BSIZE) = .ok (d1, ip1, a) ∧
        Written d0 tbl0 nb0 i ip0 off0 src
          (Function.update d1 a.toNat (Bytes.writeBytes (d1 a.toNat) ((off0 + tot) % BSIZE)
            ((List.range (min (n - tot) (BSIZE - (off0 + tot) % BSIZE))).map fun t => src (tot + t))))
          ip1 (tot + min (n - tot) (BSIZE - (off0 + tot) % BSIZE)) := by
  have hmod := Nat.mod_lt (off0 + tot) (show 0 < BSIZE by decide)
  have hm0 : 0 < min (n - tot) (BSIZE - (off0 + tot) % BSIZE) := by omega
  have hm : (off0 + tot) % BSIZE + min (n - tot) (BSIZE - (off0 + tot) % BSIZE) ≤ BSIZE := by
    omega
  have hle : (off0 + tot) / BSIZE ≤ growBlocks (nb0 i) (off0 + tot) := by
    simp only [growBlocks, BSIZE]
    omega
  have hiL := (hW.live_iff hip0).2 hi
  rcases hle.lt_or_eq with hlt | heq
  · exact Or.inr (hW.step_lt hi hip0 hlt)
  · -- `bmap` appends the next block
    have hmaxV : Function.update nb0 i (growBlocks (nb0 i) (off0 + tot)) i < MAXFILE := by
      rw [Function.update_self, ← heq]
      simp only [MAXFILE, NDIRECT, NINDIRECT, BSIZE] at hmax htot ⊢
      omega
    rcases hW.wf.bmap_append hiL (Function.update_self i ip.toDinode tbl0) hmaxV with
      ⟨herr, hlack⟩ | ⟨d1, ip1, a, hbmap, hA⟩
    · rw [Function.update_self, ← heq] at herr
      rw [Function.update_self] at hlack
      -- the block this iteration needs is not the write's last
      have hnext : growBlocks (nb0 i) (off0 + tot) + 1 ≤ growBlocks (nb0 i) (off0 + n) := by
        rw [← heq]
        simp only [growBlocks, BSIZE]
        omega
      have := blockCount_mono hnext
      have := hW.free
      exact .inl ⟨herr, by omega⟩
    · rw [Function.update_self, ← heq] at hbmap
      exact Or.inr ⟨d1, ip1, a, hbmap, hW.write_append hi hip0 heq hm0 hm hA⟩

/-- The loop from iteration `tot` on: the disk fills up, because it had fewer free
blocks than the write needs, or the loop stops at offset `off0 + n` with the invariant. -/
theorem Written.run (hi : Live (readsb d0) tbl0 i) (hip0 : tbl0 i = ip0.toDinode) {n : Nat}
    (hmax : off0 + n ≤ MAXFILE * BSIZE) :
    ∀ d ip tot off, off = off0 + tot → tot ≤ n → Written d0 tbl0 nb0 i ip0 off0 src d ip tot →
      (writeiLoop src n d ip tot off = .error "balloc: out of blocks" ∧
          freeBlocks d0 + blockCount (nb0 i) < blockCount (growBlocks (nb0 i) (off0 + n))) ∨
        ∃ d' ip', writeiLoop src n d ip tot off = .ok (d', ip', off0 + n) ∧
          Written d0 tbl0 nb0 i ip0 off0 src d' ip' n := by
  intro d ip tot off hoff htn hW
  fun_induction writeiLoop src n d ip tot off with
  | case1 d ip tot off htot ih =>
    subst hoff
    rcases hW.step hi hip0 htot hmax with ⟨herr, hlack⟩ | ⟨d1, ip1, a, hbmap, hW1⟩
    · refine .inl ⟨?_, hlack⟩
      rw [herr]
      rfl
    · rw [hbmap]
      simp only [bind, Except.bind]
      exact ih d1 ip1 a (by omega) (by omega) hW1
  | case2 d ip tot off htot =>
    have htn' : tot = n := by omega
    subst htn' hoff
    exact Or.inr ⟨d, ip, rfl, hW⟩

/-- The loop from iteration `tot` on, when the inode's blocks already hold every byte it
writes: no block is allocated, so it cannot run out of them. -/
theorem Written.run_within (hi : Live (readsb d0) tbl0 i) (hip0 : tbl0 i = ip0.toDinode) {n : Nat}
    (hin : off0 + n ≤ nb0 i * BSIZE) :
    ∀ d ip tot off, off = off0 + tot → tot ≤ n → Written d0 tbl0 nb0 i ip0 off0 src d ip tot →
      ∃ d' ip', writeiLoop src n d ip tot off = .ok (d', ip', off0 + n) ∧
        Written d0 tbl0 nb0 i ip0 off0 src d' ip' n := by
  intro d ip tot off hoff htn hW
  fun_induction writeiLoop src n d ip tot off with
  | case1 d ip tot off htot ih =>
    subst hoff
    have hlt : (off0 + tot) / BSIZE < growBlocks (nb0 i) (off0 + tot) := by
      rw [growBlocks_of_le (by omega)]
      simp only [BSIZE] at hin ⊢
      omega
    obtain ⟨d1, ip1, a, hbmap, hW1⟩ := hW.step_lt hi hip0 hlt
    rw [hbmap]
    simp only [bind, Except.bind]
    exact ih d1 ip1 a (by omega) (by omega) hW1
  | case2 d ip tot off htot =>
    have htn' : tot = n := by omega
    subst htn' hoff
    exact ⟨d, ip, rfl, hW⟩

theorem Written.dinodeAt_eq (hW : Written d0 tbl0 nb0 i ip0 off0 src d ip tot) {j : Nat}
    (hj : j < (readsb d0).ninodes.toNat) : dinodeAt d j = dinodeAt d0 j := by
  simp only [dinodeAt, hW.low _ (iblock_lt_bmapStart hj)]

end Loop

/-! ## `writei` -/

/-- The blocks a write of `m` bytes at `off` adds to inode `di`: data blocks up to the
write's end, and the indirect block once they pass `NDIRECT`. -/
def writeBlocks (di : Dinode) (off m : Nat) : Nat :=
  blockCount (growBlocks (nblocks di.size) (off + m)) - blockCount (nblocks di.size)

/-- A write inside the blocks the inode has adds none. -/
theorem writeBlocks_of_le {di : Dinode} {off m : Nat} (h : off + m ≤ nblocks di.size * BSIZE) :
    writeBlocks di off m = 0 := by
  rw [writeBlocks, growBlocks_of_le h, Nat.sub_self]

theorem writeBlocks_mono (di : Dinode) (off : Nat) {m m' : Nat} (h : m ≤ m') :
    writeBlocks di off m ≤ writeBlocks di off m' := by
  have hg : growBlocks (nblocks di.size) (off + m) ≤ growBlocks (nblocks di.size) (off + m') :=
    max_le_max le_rfl (Nat.div_le_div_right (by omega))
  have := blockCount_mono hg
  rw [writeBlocks, writeBlocks]
  omega

/-- What `writei` of `m` bytes `src 0, ..., src (m - 1)` at `off` into live inode `i`
of `d` leaves: the invariant, the dinode written back, the slice replaced and the size
grown to cover it, every other inode as it was, and the blocks it added gone from the
free count. -/
structure WriteiPost (d : Disk) (i : Nat) (src : Nat → UInt8) (off m : Nat) (d' : Disk)
    (ip' : Inode) : Prop where
  inv : FsInv d'
  inum : ip'.inum = i
  dinode : dinodeAt d' i = ip'.toDinode
  fields : ip'.toDinode = { dinodeAt d i with size := ip'.size, addrs := ip'.addrs }
  size : ip'.size.toNat = max (dinodeAt d i).size.toNat (off + m)
  data : contents d' ip'.toDinode =
    (contents d (dinodeAt d i)).take off ++ (List.range m).map src ++
      (contents d (dinodeAt d i)).drop (off + m)
  sb : readsb d' = readsb d
  others : ∀ j, j ≠ i → j < (readsb d).ninodes.toNat → dinodeAt d' j = dinodeAt d j
  other : ∀ j, j ≠ i → Live (readsb d) (dinodeAt d) j →
    contents d' (dinodeAt d j) = contents d (dinodeAt d j)
  free : freeBlocks d' + writeBlocks (dinodeAt d i) off m = freeBlocks d

@[simp] theorem Inode.toDinode_load (d : Disk) (i : Nat) :
    (Inode.load d i).toDinode = dinodeAt d i := rfl

/-- A write allocates and frees no inode. -/
theorem WriteiPost.live_iff {d : Disk} {i : Nat} {src : Nat → UInt8} {off m : Nat} {d' : Disk}
    {ip' : Inode} (hp : WriteiPost d i src off m d' ip') (j : Nat) :
    Live (readsb d') (dinodeAt d') j ↔ Live (readsb d) (dinodeAt d) j := by
  rw [hp.sb]
  by_cases hj : j = i
  · subst hj
    have ht : (dinodeAt d' j).type = (dinodeAt d j).type := by rw [hp.dinode, hp.fields]
    simp only [Live, ht]
  · by_cases hn : j < (readsb d).ninodes.toNat
    · simp only [Live, hp.others j hj hn]
    · simp [Live, hn]

/-- The contents after a write, from its bytes one by one. -/
theorem contents_splice {d d' : Disk} {di di' : Dinode} {src : Nat → UInt8} {off m : Nat}
    (hoff : off ≤ di.size.toNat) (hs : di'.size.toNat = max di.size.toNat (off + m))
    (h : ∀ k, k < max di.size.toNat (off + m) →
      dataAt d' di' k = if off ≤ k ∧ k < off + m then src (k - off) else dataAt d di k) :
    contents d' di' =
      (contents d di).take off ++ (List.range m).map src ++ (contents d di).drop (off + m) := by
  rw [contents, contents, hs, ← Bytes.map_range_splice _ _ hoff]
  exact List.map_congr_left fun k hk => h k (List.mem_range.mp hk)

/-- Writing an inode back leaves the bitmap. -/
theorem freeBlocks_iupdate {d : Disk} {ip : Inode} (hi : ip.inum < (readsb d).ninodes.toNat) :
    freeBlocks (iupdate d ip) = freeBlocks d := by
  unfold freeBlocks iupdate
  rw [readsb_update _ (iblock_ne_one _)]
  refine Alloc.nfree_congr fun b _ => bitSet_update _ ?_
  have h1 := iblock_lt_bmapStart hi
  have h2 := @bmapStart_le_bblock (readsb d) b
  omega

section Post

variable {d0 : Disk} {i : Nat} {src : Nat → UInt8} {off m : Nat} {d1 : Disk} {ip1 : Inode}

/-- Every other live inode reads as before the loop. -/
theorem Written.contents_other
    (hW : Written d0 (dinodeAt d0) (fun j => nblocks (dinodeAt d0 j).size) i (Inode.load d0 i)
      off src d1 ip1 m) {j : Nat} (hji : j ≠ i) (hj : Live (readsb d0) (dinodeAt d0) j) :
    contents d1 (dinodeAt d0 j) = contents d0 (dinodeAt d0 j) :=
  contents_congr rfl fun k hk => hW.other j hji hj k (lt_nblocks hk)

/-- The free count after the loop: the blocks the write added are gone from it. -/
theorem Written.freeBlocks_eq
    (hW : Written d0 (dinodeAt d0) (fun j => nblocks (dinodeAt d0 j).size) i (Inode.load d0 i)
      off src d1 ip1 m) :
    freeBlocks d1 + writeBlocks (dinodeAt d0 i) off m = freeBlocks d0 := by
  have hfr : freeBlocks d1 + blockCount (growBlocks (nblocks (dinodeAt d0 i).size) (off + m)) =
      freeBlocks d0 + blockCount (nblocks (dinodeAt d0 i).size) := hW.free
  have hmono := blockCount_mono
    (show nblocks (dinodeAt d0 i).size ≤ growBlocks (nblocks (dinodeAt d0 i).size) (off + m) from
      le_max_left _ _)
  rw [writeBlocks]
  omega

/-- The end of `writei` when the size does not grow: no block was added and the
in-memory inode is the one read from the disk. -/
theorem Written.post_same (hi : Live (readsb d0) (dinodeAt d0) i)
    (hW : Written d0 (dinodeAt d0) (fun j => nblocks (dinodeAt d0 j).size) i (Inode.load d0 i)
      off src d1 ip1 m)
    (hle : off + m ≤ (dinodeAt d0 i).size.toNat) : WriteiPost d0 i src off m d1 ip1 := by
  have hnb : growBlocks (nblocks (dinodeAt d0 i).size) (off + m) = nblocks (dinodeAt d0 i).size :=
    growBlocks_of_le (by simp only [nblocks, BSIZE] at *; omega)
  have hip1 : ip1 = Inode.load d0 i := hW.same hnb
  subst hip1
  have hsb := readsb_of_low hW.low
  have hwf : Wf d1 (dinodeAt d0) fun j => nblocks (dinodeAt d0 j).size := by
    have := hW.wf
    simp only [Inode.toDinode_load, hnb, Function.update_eq_self] at this
    exact this
  refine ⟨?_, rfl, hW.dinodeAt_eq hi.2.1, rfl, by simp; omega, ?_, hsb,
    fun j _ hj => hW.dinodeAt_eq hj, fun j hji hj => hW.contents_other hji hj, hW.freeBlocks_eq⟩
  · refine hwf.congr_tbl (fun j hj => hW.dinodeAt_eq (hsb ▸ hj)) (fun j hj => ?_)
    rw [hW.dinodeAt_eq (hsb ▸ hj.2.1)]
  · refine contents_splice (by omega) (by simp; omega) fun k hk => ?_
    have := hW.data k (by simp only [nblocks, BSIZE] at *; omega)
    simpa using this

/-- The end of `writei` when the size grows: the new size goes to the disk through
`iupdate`. -/
theorem Written.post_grow (hi : Live (readsb d0) (dinodeAt d0) i)
    (hW : Written d0 (dinodeAt d0) (fun j => nblocks (dinodeAt d0 j).size) i (Inode.load d0 i)
      off src d1 ip1 m)
    (hoff : off ≤ (dinodeAt d0 i).size.toNat) (hgt : (dinodeAt d0 i).size.toNat < off + m)
    (hmax : off + m ≤ MAXFILE * BSIZE) :
    WriteiPost d0 i src off m (iupdate d1 { ip1 with size := (off + m).toUInt32 })
      { ip1 with size := (off + m).toUInt32 } := by
  set ip' : Inode := { ip1 with size := (off + m).toUInt32 } with hip'
  have hsize' : ip'.size.toNat = off + m :=
    Word32.toNat_toUInt32_of_lt (by simp only [MAXFILE, NDIRECT, NINDIRECT, BSIZE] at hmax; omega)
  have hinum : ip'.inum = i := by
    show ip1.inum = i
    rw [hW.inode]
    rfl
  have hsb := readsb_of_low hW.low
  have hV : growBlocks (nblocks (dinodeAt d0 i).size) (off + m) = nblocks ip'.size := by
    simp only [growBlocks, nblocks, hsize', BSIZE] at hgt ⊢
    omega
  have hwf := hW.wf
  simp only [hV] at hwf
  have hiL : Live (readsb d1) (Function.update (dinodeAt d0) i ip1.toDinode) i :=
    (hW.live_iff rfl).2 hi
  have hin : ip'.inum < (readsb d1).ninodes.toNat := by rw [hinum, hsb]; exact hi.2.1
  have hw' := hwf.iupdate_of_addrs ip' hin (by rw [hinum, Function.update_self])
    (by rw [hinum, Function.update_self]) (fun _ => by omega)
  rw [hinum, Function.update_idem] at hw'
  have hdin : dinodeAt (iupdate d1 ip') = Function.update (dinodeAt d1) i ip'.toDinode := by
    rw [dinodeAt_iupdate, hinum]
  have hsb' : readsb (iupdate d1 ip') = readsb d0 := by
    rw [iupdate, readsb_update _ (iblock_ne_one _), hsb]
  -- every other dinode is as before
  have hother : ∀ j, j ≠ i → j < (readsb d0).ninodes.toNat →
      dinodeAt (iupdate d1 ip') j = dinodeAt d0 j := fun j hji hj => by
    rw [hdin, Function.update_of_ne hji, hW.dinodeAt_eq hj]
  have hmax' : ip'.size.toNat = max (dinodeAt d0 i).size.toNat (off + m) := hsize'.trans (by omega)
  refine ⟨?_, hinum, by rw [hdin, Function.update_self], ?_, hmax', ?_, hsb', hother,
    fun j hji hj => ?_, by rw [freeBlocks_iupdate hin]; exact hW.freeBlocks_eq⟩
  · refine hw'.congr_tbl (fun j hj => ?_) (fun j hj => ?_)
    · by_cases hji : j = i
      · rw [hji, hdin, Function.update_self, Function.update_self]
      · rw [Function.update_of_ne hji, hother j hji (by rwa [← hsb'])]
    · by_cases hji : j = i
      · rw [hji, hdin, Function.update_self, Function.update_self]
      · rw [Function.update_of_ne hji, hother j hji (by rw [← hsb']; exact hj.2.1)]
  · show ({ ip1 with size := (off + m).toUInt32 } : Inode).toDinode = _
    rw [hW.inode]
    rfl
  · refine contents_splice hoff hmax' fun k hk => ?_
    have hk' : k / BSIZE < Function.update (fun j => nblocks (dinodeAt d0 j).size) i
        (nblocks ip'.size) i := by
      rw [Function.update_self, nblocks, hsize']
      simp only [BSIZE] at hk hgt ⊢
      omega
    have h := hwf.dataAt_iupdate hiL hk' ip' hin
    rw [Function.update_self] at h
    rw [dataAt_of_addrs (show ip'.toDinode.addrs = ip1.toDinode.addrs from rfl), h]
    have := hW.data k (by simp only [nblocks, BSIZE] at hk hgt ⊢; omega)
    simpa using this
  · refine contents_congr rfl fun k hk => ?_
    have hjL := (hW.live_iff rfl).2 hj
    have h := hwf.dataAt_iupdate hjL
      (show k / BSIZE < Function.update (fun j => nblocks (dinodeAt d0 j).size) i
        (nblocks ip'.size) j by rw [Function.update_of_ne hji]; exact lt_nblocks hk)
      ip' hin
    rw [Function.update_of_ne hji] at h
    rw [h]
    exact hW.other j hji hj k (lt_nblocks hk)

end Post

/-- What `writei` of `src 0, src 1, ...` at `off` into inode `i` of `d`, as `ilock` reads
it, does: the bad-offset cases return `-1` and change nothing; otherwise it panics
because the disk has fewer free blocks than the write adds, or returns
`m = min n (MAXFILE * BSIZE - off)` and leaves `WriteiPost`. -/
def WriteiSpec (devsw : Nat → Devsw) (d : Disk) (i : Nat) (src : Nat → UInt8) (off n : UInt32) :
    Prop :=
  ((dinodeAt d i).size.toNat < off.toNat ∨ 2 ^ 32 ≤ off.toNat + n.toNat →
    writei devsw d (Inode.load d i) src off n = .ok (d, Inode.load d i, -1)) ∧
  (¬ ((dinodeAt d i).size.toNat < off.toNat ∨ 2 ^ 32 ≤ off.toNat + n.toNat) →
    (writei devsw d (Inode.load d i) src off n = .error "balloc: out of blocks" ∧
        freeBlocks d < writeBlocks (dinodeAt d i) off.toNat (min n.toNat (MAXFILE * BSIZE - off.toNat))) ∨
      ∃ d' ip' r, writei devsw d (Inode.load d i) src off n = .ok (d', ip', r) ∧
        r.toInt = (min n.toNat (MAXFILE * BSIZE - off.toNat) : Nat) ∧
        WriteiPost d i src off.toNat (min n.toNat (MAXFILE * BSIZE - off.toNat)) d' ip')

/-- What `readi` of `n` bytes at `off` from inode `i` of `d` does: the bad-offset cases
return `-1`; otherwise it returns `m = min n (size - off)` and the slice `[off, off + m)`
of the contents, and changes nothing. -/
def ReadiSpec (devsw : Nat → Devsw) (d : Disk) (i : Nat) (off n : UInt32) : Prop :=
  ((dinodeAt d i).size.toNat < off.toNat ∨ 2 ^ 32 ≤ off.toNat + n.toNat →
    readi devsw d (Inode.load d i) off n = .ok (d, Inode.load d i, -1, [])) ∧
  (¬ ((dinodeAt d i).size.toNat < off.toNat ∨ 2 ^ 32 ≤ off.toNat + n.toNat) →
    ∃ r : Int32, readi devsw d (Inode.load d i) off n = .ok (d, Inode.load d i, r,
        ((contents d (dinodeAt d i)).drop off.toNat).take
          (min n.toNat ((dinodeAt d i).size.toNat - off.toNat))) ∧
      r.toInt = (min n.toNat ((dinodeAt d i).size.toNat - off.toNat) : Nat))

section Writei

variable (devsw : Nat → Devsw) {d : Disk} (hinv : FsInv d) {i : Nat}
  (hi : Live (readsb d) (dinodeAt d) i) (hdev : (dinodeAt d i).type ≠ T_DEV)
  (src : Nat → UInt8) {off n : UInt32}

theorem writei_bad_iff : (off > (Inode.load d i).size ∨ off + n < off) ↔
    ((dinodeAt d i).size.toNat < off.toNat ∨ 2 ^ 32 ≤ off.toNat + n.toNat) := by
  rw [Word32.add_lt_self_iff, gt_iff_lt, UInt32.lt_iff_toNat_lt]
  rfl

include hinv hi in
/-- The count `writei` clamps `n` to, at a good offset. -/
theorem writei_clamp (h : ¬ ((dinodeAt d i).size.toNat < off.toNat ∨ 2 ^ 32 ≤ off.toNat + n.toNat)) :
    (if off + n > (MAXFILE * BSIZE).toUInt32 then (MAXFILE * BSIZE).toUInt32 - off else n).toNat =
      min n.toNat (MAXFILE * BSIZE - off.toNat) := by
  have hsz := hinv.size_le i hi
  have hlim : (MAXFILE * BSIZE).toUInt32.toNat = MAXFILE * BSIZE :=
    Word32.toNat_toUInt32_of_lt (by decide)
  have hle : off ≤ (MAXFILE * BSIZE).toUInt32 := UInt32.le_iff_toNat_le.mpr (by rw [hlim]; omega)
  have hm := clamp_toNat n hle (by omega)
  rwa [hlim] at hm

include hinv hi hdev in
/-- `writei` once its loop has written the clamped count: the size goes back to the disk
when the write ends past it. -/
theorem writei_of_loop
    (h : ¬ ((dinodeAt d i).size.toNat < off.toNat ∨ 2 ^ 32 ≤ off.toNat + n.toNat)) {d1 : Disk}
    {ip1 : Inode}
    (hloop : writeiLoop src (if off + n > (MAXFILE * BSIZE).toUInt32 then
        (MAXFILE * BSIZE).toUInt32 - off else n).toNat d (Inode.load d i) 0 off.toNat =
      .ok (d1, ip1, off.toNat + (if off + n > (MAXFILE * BSIZE).toUInt32 then
        (MAXFILE * BSIZE).toUInt32 - off else n).toNat))
    (hW : Written d (dinodeAt d) (fun j => nblocks (dinodeAt d j).size) i (Inode.load d i)
      off.toNat src d1 ip1 (if off + n > (MAXFILE * BSIZE).toUInt32 then
        (MAXFILE * BSIZE).toUInt32 - off else n).toNat) :
    ∃ d' ip' r, writei devsw d (Inode.load d i) src off n = .ok (d', ip', r) ∧
      r.toInt = (min n.toNat (MAXFILE * BSIZE - off.toNat) : Nat) ∧
      WriteiPost d i src off.toNat (min n.toNat (MAXFILE * BSIZE - off.toNat)) d' ip' := by
  have hsz := hinv.size_le i hi
  have hm := writei_clamp hinv hi h
  have hdev' : (Inode.load d i).type ≠ T_DEV := hdev
  simp only [writei, if_neg hdev', if_neg (fun h' => h ((writei_bad_iff).mp h'))]
  rw [hloop]
  simp only [bind, Except.bind]
  generalize (if off + n > (MAXFILE * BSIZE).toUInt32 then (MAXFILE * BSIZE).toUInt32 - off
    else n) = N at hm hW ⊢
  rw [hm] at hW
  have hr : N.toInt32.toInt = (min n.toNat (MAXFILE * BSIZE - off.toNat) : Nat) := by
    rw [Word32.toInt_toInt32 _ (by rw [hm]; simp only [MAXFILE, NDIRECT, NINDIRECT, BSIZE]; omega),
      hm]
  have hsize1 : ip1.size.toNat = (dinodeAt d i).size.toNat := by rw [hW.size_eq]; rfl
  have hpos : N > 0 ↔ 0 < min n.toNat (MAXFILE * BSIZE - off.toNat) := by
    rw [gt_iff_lt, UInt32.lt_iff_toNat_lt, hm]
    rfl
  by_cases hg : N > 0 ∧ off.toNat + N.toNat > ip1.size.toNat
  · -- the size grows and goes back to the disk
    rw [if_pos hg]
    rw [hm, hsize1] at hg
    refine ⟨_, _, _, rfl, hr, ?_⟩
    rw [hm]
    exact hW.post_grow hi (by omega) hg.2 (by omega)
  · rw [if_neg hg]
    rw [hpos, hm, hsize1] at hg
    exact ⟨_, _, _, rfl, hr, hW.post_same hi (by omega)⟩

include hinv hi hdev in
/-- `writei` on a live non-device inode, from a disk that keeps the invariant. -/
theorem writei_spec (off n : UInt32) : WriteiSpec devsw d i src off n := by
  have hdev' : (Inode.load d i).type ≠ T_DEV := hdev
  constructor
  · intro h
    simp only [writei, if_neg hdev', if_pos ((writei_bad_iff).mpr h)]
    rfl
  · intro h
    have hsz := hinv.size_le i hi
    have hm := writei_clamp hinv hi h
    have hstart : Written d (dinodeAt d) (fun j => nblocks (dinodeAt d j).size) i (Inode.load d i)
        off.toNat src d (Inode.load d i) 0 :=
      Written.start hinv rfl (by simp only [nblocks, BSIZE] at h ⊢; omega)
    have hrun := Written.run hi rfl
      (show off.toNat + (if off + n > (MAXFILE * BSIZE).toUInt32 then
        (MAXFILE * BSIZE).toUInt32 - off else n).toNat ≤ MAXFILE * BSIZE by rw [hm]; omega)
      d (Inode.load d i) 0 off.toNat (by simp) (Nat.zero_le _) hstart
    rcases hrun with ⟨herr, hlack⟩ | ⟨d1, ip1, hloop, hW⟩
    · refine .inl ⟨?_, ?_⟩
      · simp only [writei, if_neg hdev', if_neg (fun h' => h ((writei_bad_iff).mp h')), herr]
        rfl
      · -- the loop ran out before the write's last block
        have hlack' : freeBlocks d + blockCount (nblocks (dinodeAt d i).size) <
            blockCount (growBlocks (nblocks (dinodeAt d i).size)
              (off.toNat + min n.toNat (MAXFILE * BSIZE - off.toNat))) := by
          rw [← hm]
          exact hlack
        rw [writeBlocks]
        omega
    · exact .inr (writei_of_loop devsw hinv hi hdev src h hloop hW)

include hinv hi hdev in
/-- A `writei` whose bytes all fall in blocks the inode has allocates none, so it does
not panic. -/
theorem writei_within (h : off.toNat ≤ (dinodeAt d i).size.toNat)
    (hin : off.toNat + n.toNat ≤ nblocks (dinodeAt d i).size * BSIZE) :
    ∃ d' ip' r, writei devsw d (Inode.load d i) src off n = .ok (d', ip', r) ∧
      r.toInt = (min n.toNat (MAXFILE * BSIZE - off.toNat) : Nat) ∧
      WriteiPost d i src off.toNat (min n.toNat (MAXFILE * BSIZE - off.toNat)) d' ip' := by
  have hsz := hinv.size_le i hi
  have hgood : ¬ ((dinodeAt d i).size.toNat < off.toNat ∨ 2 ^ 32 ≤ off.toNat + n.toNat) := by
    have hb := hin
    simp only [nblocks, BSIZE, MAXFILE, NDIRECT, NINDIRECT] at hb hsz ⊢
    omega
  have hm := writei_clamp hinv hi hgood
  have hstart : Written d (dinodeAt d) (fun j => nblocks (dinodeAt d j).size) i (Inode.load d i)
      off.toNat src d (Inode.load d i) 0 :=
    Written.start hinv rfl (by simp only [nblocks, BSIZE] at h ⊢; omega)
  have hin' : off.toNat + (if off + n > (MAXFILE * BSIZE).toUInt32 then
      (MAXFILE * BSIZE).toUInt32 - off else n).toNat ≤ nblocks (dinodeAt d i).size * BSIZE := by
    rw [hm]
    omega
  obtain ⟨d1, ip1, hloop, hW⟩ := @Written.run_within d (dinodeAt d)
    (fun j => nblocks (dinodeAt d j).size) i (Inode.load d i) off.toNat src hi rfl _ hin'
    d (Inode.load d i) 0 off.toNat (by simp) (Nat.zero_le _) hstart
  exact writei_of_loop devsw hinv hi hdev src hgood hloop hW

end Writei

/-- `readi` on a live non-device inode, from a disk that keeps the invariant. -/
theorem readi_spec (devsw : Nat → Devsw) {d : Disk} (hinv : FsInv d) {i : Nat}
    (hi : Live (readsb d) (dinodeAt d) i) (hdev : (dinodeAt d i).type ≠ T_DEV) (off n : UInt32) :
    ReadiSpec devsw d i off n :=
  readi_eq devsw (show Shape d (Inode.load d i).toDinode _ from hinv.shape i hi)
    (show (dinodeAt d i).size.toNat ≤ nblocks (dinodeAt d i).size * BSIZE by
      simp only [nblocks, BSIZE]
      omega) hdev off n

/-- A `writei` that starts a new direct block at the end of a file panics exactly when
the bitmap is full. -/
theorem writei_append_error_iff (devsw : Nat → Devsw) {d : Disk} (hinv : FsInv d) {i : Nat}
    (hi : Live (readsb d) (dinodeAt d) i) (hdev : (dinodeAt d i).type ≠ T_DEV)
    (src : Nat → UInt8) {off n : UInt32}
    (hoff : off.toNat = nblocks (dinodeAt d i).size * BSIZE)
    (hsz : (dinodeAt d i).size.toNat = off.toNat) (hn0 : 0 < n.toNat) (hn : n.toNat ≤ BSIZE)
    (hdir : nblocks (dinodeAt d i).size < NDIRECT) :
    writei devsw d (Inode.load d i) src off n = .error "balloc: out of blocks" ↔ Full d := by
  have hs := hinv.shape i hi
  have hk0 : (dinodeAt d i).addrs ⟨nblocks (dinodeAt d i).size, by omega⟩ = 0 := by
    have h := mt (hs.inUse (.direct ⟨_, hdir⟩)).mp (by simp [Slot.InUse])
    simp only [slotAddr, not_not] at h
    exact UInt32.toNat_inj.mp h
  have hdev' : (Inode.load d i).type ≠ T_DEV := hdev
  have hsmall : off.toNat + n.toNat ≤ MAXFILE * BSIZE := by
    simp only [MAXFILE, NINDIRECT, NDIRECT, BSIZE] at hoff hn hdir ⊢
    omega
  have hbad : ¬ (off > (Inode.load d i).size ∨ off + n < off) := by
    rw [Word32.add_lt_self_iff, gt_iff_lt, UInt32.lt_iff_toNat_lt]
    show ¬ ((dinodeAt d i).size.toNat < off.toNat ∨ _)
    simp only [MAXFILE, NINDIRECT, NDIRECT, BSIZE] at hsmall
    omega
  have hclamp : ¬ off + n > (MAXFILE * BSIZE).toUInt32 := by
    rw [gt_iff_lt, UInt32.lt_iff_toNat_lt, Word32.toNat_toUInt32_of_lt (by decide),
      UInt32.toNat_add, Nat.mod_eq_of_lt (by simp only [MAXFILE, NINDIRECT, NDIRECT, BSIZE] at hsmall; omega)]
    omega
  simp only [writei, if_neg hdev', if_neg hbad, if_neg hclamp]
  rw [writeiLoop, dif_pos hn0]
  have hbn : off.toNat / BSIZE = nblocks (dinodeAt d i).size := by
    rw [hoff]
    exact Nat.mul_div_cancel _ (by decide)
  have hk0' : (Inode.load d i).addrs ⟨nblocks (dinodeAt d i).size, by omega⟩ = 0 := hk0
  rw [hbn]
  simp only [bmap, dif_pos hdir, if_pos hk0']
  rcases balloc_cases d hinv.geom with ⟨herr, hfull⟩ | ⟨a, ha, hfree, hok⟩
  · rw [herr]
    exact iff_of_true rfl hfull
  · -- `balloc` finds the clear bit; the loop writes the block and stops
    rw [hok]
    have hm : min (n.toNat - 0) (BSIZE - off.toNat % BSIZE) = n.toNat := by
      rw [hoff]
      simp only [BSIZE] at hn ⊢
      omega
    simp only [bind, Except.bind, pure, Except.pure, hm]
    rw [writeiLoop, dif_neg (by omega)]
    refine iff_of_false ?_ fun hf => by rw [hf a ha] at hfree; cases hfree
    simp only [pure, Except.pure]
    split <;> simp

end Xv6
