import Xv6.Fs.Layout

/-!
# Blocks: `bzero`, `balloc`, `bfree`

The block allocator of `fs.c`. `balloc` scans the bitmap one bitmap block at a time
(`b` steps by `BPB` while `b < sb.size`) and takes the first clear bit, all of it
under the bitmap block's buffer lock; `bfree` blanks the block and clears its bit.
The scan runs over every bit of each bitmap block it reads, with no test that
`b + bi < sb.size`.

`balloc_cases` and `bfree_eq` are the specifications the inode layer uses: the
effect of each on the disk, named by `setBitmap` and `clearBitmap`.
-/

namespace Xv6

def bzero (d : Disk) (bno : Nat) : Disk :=
  Function.update d bno (Bytes.writeBytes (d bno) 0 (List.replicate BSIZE 0))

/-- The inner loop of `balloc`: the first clear bit among `bi .. bi + fuel - 1` of one
bitmap block, `fuel` counting the iterations left. -/
def ballocBit (blk : Block) : (fuel bi : Nat) → Option Nat
  | 0, _ => none
  | fuel + 1, bi => if Bitmap.testBit blk bi then ballocBit blk fuel (bi + 1) else some bi

/-- The outer loop of `balloc`, from bitmap block `b / BPB` on. The C loop counts `b`
in a `uint`; `Geometry` keeps it from wrapping, so it is counted in `Nat` here. -/
def ballocFrom (d : Disk) (sb : Superblock) (b : Nat) : Except String (Disk × UInt32) :=
  if b < sb.size.toNat then
    let bb := BBLOCK b sb.ninodes.toNat
    match ballocBit (d bb) BPB 0 with
    | some bi => .ok (Function.update d bb (Bitmap.setBit (d bb) bi), (b + bi).toUInt32)
    | none => ballocFrom d sb (b + BPB)
  else .error "balloc: out of blocks"
termination_by sb.size.toNat - b
decreasing_by simp only [BPB, BSIZE]; omega

def balloc (d : Disk) : Except String (Disk × UInt32) :=
  ballocFrom d (readsb d) 0

def bfree (d : Disk) (b : Nat) : Except String Disk :=
  let d := bzero d b
  let sb := readsb d
  let bb := BBLOCK b sb.ninodes.toNat
  if Bitmap.testBit (d bb) (b % BPB) = false then .error "freeing free block"
  else .ok (Function.update d bb (Bitmap.clearBit (d bb) (b % BPB)))

/-! ## Bitmap updates -/

/-- The disk with block `b` marked in use. -/
def setBitmap (d : Disk) (ninodes b : Nat) : Disk :=
  Function.update d (BBLOCK b ninodes) (Bitmap.setBit (d (BBLOCK b ninodes)) (b % BPB))

/-- The disk with block `b` marked free. -/
def clearBitmap (d : Disk) (ninodes b : Nat) : Disk :=
  Function.update d (BBLOCK b ninodes) (Bitmap.clearBit (d (BBLOCK b ninodes)) (b % BPB))

/-- Two blocks with the same bitmap block and bit are the same block. -/
theorem eq_of_bblock_eq {n b x : Nat} (h : BBLOCK b n = BBLOCK x n) (hm : b % BPB = x % BPB) :
    b = x := by
  simp only [BBLOCK] at h
  have hd : b / BPB = x / BPB := by omega
  rw [← Nat.div_add_mod b BPB, ← Nat.div_add_mod x BPB, hd, hm]

theorem setBitmap_apply_of_ne {d : Disk} {n b x : Nat} (h : x ≠ BBLOCK b n) :
    setBitmap d n b x = d x := Function.update_of_ne h _ _

theorem clearBitmap_apply_of_ne {d : Disk} {n b x : Nat} (h : x ≠ BBLOCK b n) :
    clearBitmap d n b x = d x := Function.update_of_ne h _ _

@[simp] theorem bitSet_setBitmap (d : Disk) (n b x : Nat) :
    bitSet (setBitmap d n b) n x = (decide (b = x) || bitSet d n x) := by
  by_cases hx : BBLOCK x n = BBLOCK b n
  · simp only [bitSet, setBitmap, hx, Function.update_self, Bitmap.testBit_setBit]
    congr 1
    by_cases hbx : b = x
    · simp [hbx]
    · have hm : b % BPB ≠ x % BPB := fun hm => hbx (eq_of_bblock_eq hx.symm hm)
      simp [hbx, hm]
  · have hbx : b ≠ x := by rintro rfl; exact hx rfl
    simp [bitSet, setBitmap, Function.update_of_ne hx, hbx]

@[simp] theorem bitSet_clearBitmap (d : Disk) (n b x : Nat) :
    bitSet (clearBitmap d n b) n x = (decide (b ≠ x) && bitSet d n x) := by
  by_cases hx : BBLOCK x n = BBLOCK b n
  · simp only [bitSet, clearBitmap, hx, Function.update_self, Bitmap.testBit_clearBit]
    congr 1
    by_cases hbx : b = x
    · simp [hbx]
    · have hm : b % BPB ≠ x % BPB := fun hm => hbx (eq_of_bblock_eq hx.symm hm)
      simp [hbx, hm]
  · have hbx : b ≠ x := by rintro rfl; exact hx rfl
    simp [bitSet, clearBitmap, Function.update_of_ne hx, hbx]

/-! ## `balloc` -/

theorem ballocBit_some {blk : Block} :
    ∀ {fuel bi r : Nat}, ballocBit blk fuel bi = some r →
      bi ≤ r ∧ r < bi + fuel ∧ Bitmap.testBit blk r = false
  | 0, _, _, h => by simp [ballocBit] at h
  | fuel + 1, bi, r, h => by
    by_cases hc : Bitmap.testBit blk bi
    · rw [ballocBit, if_pos hc] at h
      obtain ⟨h1, h2, h3⟩ := ballocBit_some h
      exact ⟨by omega, by omega, h3⟩
    · rw [ballocBit, if_neg hc] at h
      cases h
      exact ⟨le_rfl, by omega, by simpa using hc⟩

theorem ballocBit_none {blk : Block} :
    ∀ {fuel bi : Nat}, ballocBit blk fuel bi = none →
      ∀ x, bi ≤ x → x < bi + fuel → Bitmap.testBit blk x = true
  | 0, _, _, x, h1, h2 => by omega
  | fuel + 1, bi, h, x, h1, h2 => by
    rw [ballocBit] at h
    split at h
    · rcases Nat.eq_or_lt_of_le h1 with rfl | hlt
      · assumption
      · exact ballocBit_none h x hlt (by omega)
    · cases h

/-- Block numbers in bitmap block `b / BPB`, for `b` a multiple of `BPB`. -/
theorem bblock_add (n : Nat) {b bi : Nat} (hb : b % BPB = 0) (hbi : bi < BPB) :
    BBLOCK (b + bi) n = BBLOCK b n ∧ (b + bi) % BPB = bi := by
  simp only [BBLOCK, BPB, BSIZE] at *
  omega

/-- The outer loop, entered at bitmap block `b / BPB` with every earlier bit set:
either every bit `balloc` scans is set and it panics, or it takes a block `a` in the
scanned range whose bit was clear and sets that bit. -/
theorem ballocFrom_cases (d : Disk) (sb : Superblock) (hsz : sb.size.toNat + BPB ≤ 2 ^ 32)
    (b : Nat) (hb : b % BPB = 0) (hset : ∀ x, x < b → bitSet d sb.ninodes.toNat x = true) :
    (ballocFrom d sb b = .error "balloc: out of blocks" ∧
      ∀ x, x < bitLimit sb → bitSet d sb.ninodes.toNat x = true) ∨
    ∃ a, a < bitLimit sb ∧ bitSet d sb.ninodes.toNat a = false ∧
      ballocFrom d sb b = .ok (setBitmap d sb.ninodes.toNat a, a.toUInt32) := by
  fun_induction ballocFrom d sb b with
  | case1 b hlt bb bi hbi =>
    -- the first clear bit of the bitmap block of `b` names block `b + bi`
    obtain ⟨-, hbiB, hclear⟩ := ballocBit_some hbi
    obtain ⟨hbb, hmod⟩ := bblock_add sb.ninodes.toNat hb (show bi < BPB by omega)
    refine .inr ⟨b + bi, ?_, ?_, ?_⟩
    · simp only [bitLimit, BPB, BSIZE] at *
      omega
    · simpa only [bitSet, hbb, hmod] using hclear
    · simp only [setBitmap, hbb, hmod]
      rfl
  | case2 b hlt bb hnone ih =>
    apply ih (by simp only [BPB, BSIZE] at *; omega)
    intro x hx
    by_cases hxb : x < b
    · exact hset x hxb
    · -- the bits of this bitmap block are all set
      have hbit := ballocBit_none hnone (x - b) (Nat.zero_le _) (by omega)
      obtain ⟨hbb, hmod⟩ := bblock_add sb.ninodes.toNat hb (show x - b < BPB by omega)
      rw [Nat.add_sub_cancel' (by omega)] at hbb hmod
      simpa only [bitSet, hbb, hmod] using hbit
  | case3 b hge =>
    -- the scan has passed every bitmap block that covers the image
    refine .inl ⟨rfl, fun x hx => hset x ?_⟩
    simp only [bitLimit, BPB, BSIZE] at *
    omega

/-- Every block the bitmap covers is in use. -/
def Full (d : Disk) : Prop :=
  ∀ x, x < bitLimit (readsb d) → bitSet d (readsb d).ninodes.toNat x = true

theorem balloc_cases (d : Disk) (hg : Geometry (readsb d)) :
    (balloc d = .error "balloc: out of blocks" ∧ Full d) ∨
    ∃ a, a < bitLimit (readsb d) ∧ bitSet d (readsb d).ninodes.toNat a = false ∧
      balloc d = .ok (setBitmap d (readsb d).ninodes.toNat a, a.toUInt32) :=
  ballocFrom_cases d _ hg.size_lt 0 rfl fun _ h => absurd h (Nat.not_lt_zero _)

/-! ## `bfree` -/

/-- `bfree` of a block that is neither the super block nor a bitmap block: it panics
if the bit is clear, and otherwise blanks the block and clears its bit. -/
theorem bfree_eq (d : Disk) {b : Nat} (h1 : b ≠ 1) (hbb : b ≠ BBLOCK b (readsb d).ninodes.toNat) :
    bfree d b = if bitSet d (readsb d).ninodes.toNat b = false then .error "freeing free block"
      else .ok (clearBitmap (bzero d b) (readsb d).ninodes.toNat b) := by
  have hsb : readsb (bzero d b) = readsb d := by
    simp only [readsb, bzero, Function.update_of_ne h1.symm]
  have hbit : bzero d b (BBLOCK b (readsb d).ninodes.toNat) =
      d (BBLOCK b (readsb d).ninodes.toNat) := Function.update_of_ne (Ne.symm hbb) _ _
  simp only [bfree, hsb, hbit, bitSet, clearBitmap]

end Xv6
