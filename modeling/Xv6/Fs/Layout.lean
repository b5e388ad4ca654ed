import Xv6.Lib.Bytes
import Xv6.Lib.Bitmap

/-!
# The on-disk layout of the file system

`fs.h` and `param.h`: a disk of 512-byte blocks holding the boot block, the super
block (block 1), the inode blocks (from block 2, eight 64-byte `dinode`s each), the
free-block bitmap (from block `ninodes / IPB + 3`, one bit per block) and the data
blocks. An inode's contents are found through its twelve direct block addresses and
one indirect block of 128 more.

The disk is a function from block numbers to blocks, and a block a byte memory of
which the kernel uses the first `BSIZE` bytes. The buffer cache is not modelled:
`bread` gives the block's bytes and `bwrite` stores them, which is what a coherent
cache gives a caller holding the buffer. The kernel has one disk, so device numbers
are left out. Structures are read and written byte by byte in the layout the C
compiler gives them.
-/

namespace Xv6

def BSIZE : Nat := 512
def NDIRECT : Nat := 12
def NINDIRECT : Nat := BSIZE / 4
def MAXFILE : Nat := NDIRECT + NINDIRECT
def IPB : Nat := BSIZE / 64
def BPB : Nat := BSIZE * 8
def ROOTINO : Nat := 1
def NDEV : Int16 := 10
def T_DIR : Int16 := 1
def T_FILE : Int16 := 2
def T_DEV : Int16 := 3

/-- A block: its bytes at offsets `0 .. BSIZE - 1`. -/
abbrev Block := Nat → UInt8

/-- The disk, block by block. -/
abbrev Disk := Nat → Block

def IBLOCK (i : Nat) : Nat := i / IPB + 2

def BBLOCK (b ninodes : Nat) : Nat := b / BPB + ninodes / IPB + 3

/-- `struct superblock`. -/
structure Superblock where
  size : UInt32
  nblocks : UInt32
  ninodes : UInt32

def readsb (d : Disk) : Superblock where
  size := Bytes.getU32 (d 1) 0
  nblocks := Bytes.getU32 (d 1) 4
  ninodes := Bytes.getU32 (d 1) 8

/-- `struct dinode`; `addrs (Fin.last NDIRECT)` is the indirect block. -/
structure Dinode where
  type : Int16
  major : Int16
  minor : Int16
  nlink : Int16
  size : UInt32
  addrs : Fin (NDIRECT + 1) → UInt32

/-- The `dinode` at byte offset `o` of a block. -/
def Dinode.decode (b : Block) (o : Nat) : Dinode where
  type := (Bytes.getU16 b o).toInt16
  major := (Bytes.getU16 b (o + 2)).toInt16
  minor := (Bytes.getU16 b (o + 4)).toInt16
  nlink := (Bytes.getU16 b (o + 6)).toInt16
  size := Bytes.getU32 b (o + 8)
  addrs := fun k => Bytes.getU32 b (o + 12 + 4 * k.val)

/-- Store a `dinode` at byte offset `o`: the field assignments of `iupdate`, the
address array by `memmove`. -/
def Dinode.encode (b : Block) (o : Nat) (di : Dinode) : Block :=
  let b := Bytes.setU16 b o di.type.toUInt16
  let b := Bytes.setU16 b (o + 2) di.major.toUInt16
  let b := Bytes.setU16 b (o + 4) di.minor.toUInt16
  let b := Bytes.setU16 b (o + 6) di.nlink.toUInt16
  let b := Bytes.setU32 b (o + 8) di.size
  Bytes.setU32s b (o + 12) (List.ofFn di.addrs)

/-- Byte offset of inode `i` in its block: `(struct dinode*)bp->data + i%IPB`. -/
def dinodeOff (i : Nat) : Nat := i % IPB * 64

def dinodeAt (d : Disk) (i : Nat) : Dinode :=
  Dinode.decode (d (IBLOCK i)) (dinodeOff i)

/-- Whether the bitmap marks block `b` in use. -/
def bitSet (d : Disk) (ninodes b : Nat) : Bool :=
  Bitmap.testBit (d (BBLOCK b ninodes)) (b % BPB)

/-! ## Geometry

The regions of a disk with super block `sb`, as `mkfs` lays them out: `nbitmap` is
`mkfs`'s `bitblocks`, and the metadata prefix ends at `dataStart`. `balloc` scans the
bits of the blocks below `bitLimit`, whole bitmap blocks while `b < sb.size`. -/

def bmapStart (sb : Superblock) : Nat := sb.ninodes.toNat / IPB + 3

def nbitmap (sb : Superblock) : Nat := sb.size.toNat / BPB + 1

def dataStart (sb : Superblock) : Nat := bmapStart sb + nbitmap sb

def bitLimit (sb : Superblock) : Nat := (sb.size.toNat + BPB - 1) / BPB * BPB

/-- What `mkfs` guarantees of the geometry: the metadata fits in the image, and the
image is small enough that `balloc`'s block numbers do not wrap. -/
structure Geometry (sb : Superblock) : Prop where
  data_le : dataStart sb ≤ sb.size.toNat
  size_lt : sb.size.toNat + BPB ≤ 2 ^ 32

/-! ## Round trips and frames -/

theorem Dinode.decode_encode (b : Block) (o : Nat) (di : Dinode) :
    Dinode.decode (Dinode.encode b o di) o = di := by
  have haddrs : (fun k : Fin (NDIRECT + 1) =>
      Bytes.getU32 (Dinode.encode b o di) (o + 12 + 4 * k.val)) = di.addrs := by
    funext k
    have hk : k.val < (List.ofFn di.addrs).length := by
      rw [List.length_ofFn]
      exact k.isLt
    rw [Dinode.encode, Bytes.getU32_setU32s _ _ _ _ hk, List.getElem_ofFn]
  rw [Dinode.decode, haddrs]
  -- each scalar field lies before the address array and apart from the others
  simp (disch := omega) only [Dinode.encode, Bytes.getU16_setU32s_of_le,
    Bytes.getU32_setU32s_of_le, Bytes.getU16_setU32_of_disjoint,
    Bytes.getU16_setU16_of_disjoint, Bytes.getU16_setU16_self, Bytes.getU32_setU32_self]
  cases di
  simp

theorem Dinode.encode_apply_of_ne {b : Block} {o x : Nat} (di : Dinode) (h : x < o ∨ o + 64 ≤ x) :
    Dinode.encode b o di x = b x := by
  have hlen : (List.ofFn di.addrs).length = NDIRECT + 1 := by simp
  simp only [Dinode.encode]
  rw [Bytes.setU32s_apply_of_ne (by rw [hlen, NDIRECT]; omega),
    Bytes.setU32_apply_of_ne (by omega), Bytes.setU16_apply_of_ne (by omega),
    Bytes.setU16_apply_of_ne (by omega), Bytes.setU16_apply_of_ne (by omega),
    Bytes.setU16_apply_of_ne (by omega)]

/-- A `dinode` depends only on its 64 bytes. -/
theorem Dinode.decode_congr {b b' : Block} {o : Nat} (h : ∀ x, o ≤ x → x < o + 64 → b x = b' x) :
    Dinode.decode b o = Dinode.decode b' o := by
  have hk : ∀ k : Fin (NDIRECT + 1), o + 12 + 4 * k.val + 4 ≤ o + 64 := by
    intro k
    have := k.isLt
    simp only [NDIRECT] at this
    omega
  have h16 : ∀ a, o ≤ a → a + 2 ≤ o + 64 → Bytes.getU16 b a = Bytes.getU16 b' a :=
    fun _ _ _ => Bytes.getU16_congr fun x _ _ => h x (by omega) (by omega)
  have h32 : ∀ a, o ≤ a → a + 4 ≤ o + 64 → Bytes.getU32 b a = Bytes.getU32 b' a :=
    fun _ _ _ => Bytes.getU32_congr fun x _ _ => h x (by omega) (by omega)
  simp only [Dinode.decode]
  rw [h16 o (by omega) (by omega), h16 (o + 2) (by omega) (by omega),
    h16 (o + 4) (by omega) (by omega), h16 (o + 6) (by omega) (by omega),
    h32 (o + 8) (by omega) (by omega)]
  congr 1
  funext k
  exact h32 _ (by omega) (hk k)

end Xv6
