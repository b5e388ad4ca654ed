import Xv6.Lib.Bits
import Xv6.Lib.Bytes
import Xv6.Lib.Word32

/-!
# Two-level x86 paging

`mmu.h` and `param.h`: a linear address splits into a page-directory index (bits
22-31), a page-table index (bits 12-21) and an offset. An entry holds a page-aligned
physical address and flags in its low bits. The macros are modelled as the code writes
them, on `uint`, and each gets the `Nat` reading the proofs use.
-/

namespace Xv6

def PGSIZE : Nat := 4096
def NPDENTRIES : Nat := 1024
def NPTENTRIES : Nat := 1024
/-- `#define PHYSTOP 0x1000000`: the top of the memory `kalloc` hands out. -/
def PHYSTOP : Nat := 0x1000000

def PTE_P : UInt32 := 0x001
def PTE_W : UInt32 := 0x002
def PTE_U : UInt32 := 0x004

def PDX (la : UInt32) : Nat := ((la >>> 22) &&& 0x3FF).toNat
def PTX (la : UInt32) : Nat := ((la >>> 12) &&& 0x3FF).toNat
def PTE_ADDR (pte : UInt32) : UInt32 := pte &&& ~~~0xFFF
def PGROUNDUP (sz : UInt32) : UInt32 := (sz + 4095) &&& ~~~4095
def PGROUNDDOWN (a : UInt32) : UInt32 := a &&& ~~~4095

/-! ## The macros on `Nat` -/

theorem PDX_eq (la : UInt32) : PDX la = la.toNat / 2 ^ 22 := by
  rw [PDX, Bits.toNat_shiftRight_and la 22 0x3FF (by decide)
    (show (0x3FF : UInt32).toNat = 2 ^ 10 - 1 by decide)]
  show la.toNat / 4194304 % 1024 = la.toNat / 4194304
  have := la.toNat_lt
  exact Nat.mod_eq_of_lt (by omega)

theorem PTX_eq (la : UInt32) : PTX la = la.toNat / 4096 % 1024 :=
  Bits.toNat_shiftRight_and la 12 0x3FF (by decide) (show (0x3FF : UInt32).toNat = 2 ^ 10 - 1 by decide)

theorem PDX_lt (la : UInt32) : PDX la < NPDENTRIES := by
  rw [PDX_eq, NPDENTRIES]
  have := la.toNat_lt
  omega

theorem PTX_lt (la : UInt32) : PTX la < NPTENTRIES := by
  rw [PTX_eq, NPTENTRIES]
  omega

theorem PTE_ADDR_toNat (pte : UInt32) : (PTE_ADDR pte).toNat = pte.toNat / 4096 * 4096 :=
  Bits.toNat_and_not_low pte 0xFFF (show (0xFFF : UInt32).toNat = 2 ^ 12 - 1 by decide) (by decide)

theorem PGROUNDDOWN_toNat (a : UInt32) : (PGROUNDDOWN a).toNat = a.toNat / 4096 * 4096 :=
  Bits.toNat_and_not_low a 4095 (show (4095 : UInt32).toNat = 2 ^ 12 - 1 by decide) (by decide)

theorem PGROUNDUP_toNat {sz : UInt32} (h : sz.toNat + 4095 < 2 ^ 32) :
    (PGROUNDUP sz).toNat = (sz.toNat + 4095) / 4096 * 4096 := by
  rw [PGROUNDUP, Bits.toNat_and_not_low _ 4095 (show (4095 : UInt32).toNat = 2 ^ 12 - 1 by decide)
    (by decide), UInt32.toNat_add, Nat.mod_eq_of_lt (by simpa using h)]
  rfl

/-- The present bit of an entry. -/
theorem and_P_ne_zero_iff (e : UInt32) : e &&& PTE_P ≠ 0 ↔ e.toNat % 2 = 1 := by
  have h : (e &&& PTE_P).toNat = e.toNat % 2 := by
    rw [UInt32.toNat_and, show PTE_P.toNat = 2 ^ 1 - 1 from rfl, Nat.and_two_pow_sub_one_eq_mod]
  rw [Ne, ← UInt32.toNat_inj, h, UInt32.toNat_zero]
  omega

/-- Flags or-ed into a page-aligned address add to it. -/
theorem toNat_or_flags {a : UInt32} (ha : a.toNat % 4096 = 0) (f : UInt32) (hf : f.toNat < 4096) :
    (a ||| f).toNat = a.toNat + f.toNat :=
  Bits.toNat_or_of_lt a f (show a.toNat % 2 ^ 12 = 0 from ha) hf

/-- An entry built as `pa | perm | PTE_P` from a page-aligned `pa`. -/
theorem toNat_entry {pa perm : UInt32} (ha : pa.toNat % 4096 = 0) (hp : perm.toNat < 4096)
    (hp2 : perm.toNat % 2 = 0) : (pa ||| perm ||| PTE_P).toNat = pa.toNat + perm.toNat + 1 := by
  have h1 := toNat_or_flags ha perm hp
  rw [Bits.toNat_or_of_lt (pa ||| perm) PTE_P (show (pa ||| perm).toNat % 2 ^ 1 = 0 by rw [h1]; omega)
    (show PTE_P.toNat < 2 ^ 1 by decide), h1]
  rfl

end Xv6
