import Xv6.Lib.Bytes
import Xv6.Lib.Word32

/-!
# System-call arguments

`syscall.c`: a system call finds its arguments on the user stack, word `n` at
`esp + 4 + 4n`, and checks every user address it is given against the process size
`sz`: `fetchint` a word, `fetchstr` a NUL-terminated string, `argptr` a buffer of
`size` bytes. The tests are done in 32-bit unsigned arithmetic, and `argptr`'s `size`
is a signed `int` that C converts to unsigned before the addition, so a negative size
turns `(uint)i + size > sz` into a test that almost every `i` passes.

A user address is a virtual address of the process, below `USERTOP`; the process's
memory is a function from addresses to bytes.
-/

namespace Xv6

/-- `#define USERTOP 0xA0000`: the end of the user address space. -/
def USERTOP : Nat := 0xA0000

/-- What the argument fetchers read of the current process: its size, its memory and
the user stack pointer saved in its trap frame. -/
structure UserView where
  sz : UInt32
  mem : Nat → UInt8
  esp : UInt32

namespace UserView

variable (u : UserView)

def fetchint (addr : UInt32) : Option Int32 :=
  if addr ≥ u.sz ∨ addr + 4 > u.sz then none
  else some (Bytes.getU32 u.mem addr.toNat).toInt32

/-- The length of the string at `addr`, found by scanning up to `sz`. -/
def fetchstr (addr : UInt32) : Option Nat :=
  if addr ≥ u.sz then none
  else (List.range (u.sz.toNat - addr.toNat)).find? fun k => u.mem (addr.toNat + k) == 0

def argint (n : Nat) : Option Int32 :=
  u.fetchint (u.esp + 4 + 4 * n.toUInt32)

def argptr (n : Nat) (size : Int32) : Option UInt32 := do
  let i ← u.argint n
  if i.toUInt32 ≥ u.sz ∨ i.toUInt32 + size.toUInt32 > u.sz then none else some i.toUInt32

/-- The address of the string argument `n` and its length. -/
def argstr (n : Nat) : Option (UInt32 × Nat) := do
  let addr ← u.argint n
  let len ← u.fetchstr addr.toUInt32
  pure (addr.toUInt32, len)

/-! ## What the checks guarantee -/

variable {u}

/-- Below `USERTOP` the sums the checks form do not wrap. -/
theorem toNat_add_of_lt_sz {a k : UInt32} (hsz : u.sz.toNat ≤ USERTOP) (ha : a < u.sz)
    (hk : k.toNat < 2 ^ 31) : (a + k).toNat = a.toNat + k.toNat := by
  have hlt : a.toNat < USERTOP := lt_of_lt_of_le (UInt32.lt_iff_toNat_lt.mp ha) hsz
  rw [UInt32.toNat_add, Nat.mod_eq_of_lt]
  simp only [USERTOP] at hlt
  omega

/-- A word `fetchint` accepts lies below `sz`. -/
theorem fetchint_within {addr : UInt32} {v : Int32} (hsz : u.sz.toNat ≤ USERTOP)
    (h : u.fetchint addr = some v) :
    addr.toNat + 4 ≤ u.sz.toNat ∧ v = (Bytes.getU32 u.mem addr.toNat).toInt32 := by
  unfold fetchint at h
  split at h
  · cases h
  · rename_i hok
    rw [not_or, ge_iff_le, gt_iff_lt, UInt32.le_iff_toNat_le, UInt32.lt_iff_toNat_lt] at hok
    have hlt : addr < u.sz := UInt32.lt_iff_toNat_lt.mpr (by omega)
    have h4 : (addr + 4).toNat = addr.toNat + 4 := toNat_add_of_lt_sz hsz hlt (by decide)
    exact ⟨by rw [← h4]; omega, (Option.some.inj h).symm⟩

/-- A string `fetchstr` accepts, NUL included, lies below `sz`. -/
theorem fetchstr_within {addr : UInt32} {len : Nat} (h : u.fetchstr addr = some len) :
    addr.toNat + len < u.sz.toNat ∧ u.mem (addr.toNat + len) = 0 ∧
      ∀ k, k < len → u.mem (addr.toNat + k) ≠ 0 := by
  unfold fetchstr at h
  split at h
  · cases h
  · rw [List.find?_range_eq_some] at h
    obtain ⟨hz, hmem, hbefore⟩ := h
    refine ⟨by rw [List.mem_range] at hmem; omega, by simpa using hz, fun k hk => ?_⟩
    simpa using hbefore k hk

/-- A buffer `argptr` accepts with a size that is not negative lies below `sz`. -/
theorem argptr_within {n : Nat} {size : Int32} {a : UInt32} (hsz : u.sz.toNat ≤ USERTOP)
    (hsize : 0 ≤ size) (h : u.argptr n size = some a) :
    a.toNat + size.toNatClampNeg ≤ u.sz.toNat := by
  simp only [argptr, Option.bind_eq_bind, Option.bind_eq_some_iff] at h
  obtain ⟨i, -, hi⟩ := h
  split at hi
  · cases hi
  · rename_i hok
    cases hi
    have hk := Int32.toNat_toUInt32_of_le hsize
    rw [not_or, ge_iff_le, gt_iff_lt, UInt32.le_iff_toNat_le, UInt32.lt_iff_toNat_lt] at hok
    have hlt : i.toUInt32 < u.sz := UInt32.lt_iff_toNat_lt.mpr (by omega)
    have hadd := toNat_add_of_lt_sz hsz hlt (by rw [hk]; exact Int32.toNatClampNeg_lt size)
    rw [hadd, hk] at hok
    omega

/-- With `size = -1` every word `i` with `0 < i < sz` passes `argptr`. -/
theorem argptr_neg_one {n : Nat} {i : Int32} (hi : u.argint n = some i)
    (h0 : 0 < i.toUInt32.toNat) (hlt : i.toUInt32 < u.sz) :
    u.argptr n (-1) = some i.toUInt32 := by
  -- `(uint)i + size` is `i + 0xFFFFFFFF`, which wraps to `i - 1`
  have hwrap : (i.toUInt32 + (-1 : Int32).toUInt32).toNat = i.toUInt32.toNat - 1 := by
    have hm : (-1 : Int32).toUInt32.toNat = 2 ^ 32 - 1 := rfl
    have := i.toUInt32.toNat_lt
    rw [UInt32.toNat_add, hm]
    omega
  have hlt' := UInt32.lt_iff_toNat_lt.mp hlt
  have hok : ¬ (i.toUInt32 ≥ u.sz ∨ i.toUInt32 + (-1 : Int32).toUInt32 > u.sz) := by
    rw [not_or, ge_iff_le, gt_iff_lt, UInt32.le_iff_toNat_le, UInt32.lt_iff_toNat_lt, hwrap]
    omega
  simp only [argptr, hi, Option.bind_eq_bind, Option.bind_some, if_neg hok]

end UserView

end Xv6
