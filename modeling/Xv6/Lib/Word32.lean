import Mathlib

/-!
# Wrapping 32-bit counters

Kernel counters such as a ring buffer's read and write positions are `uint`s that
run forever and wrap at `2^32`. What matters about two of them is their distance
`a - b` computed modulo `2^32`; these lemmas move that distance through the
increments the code performs, and relate the code's wrapped equality tests to it.
When the ring size divides `2^32`, an index taken modulo the ring size does not
see the wrap (`toNat_add_mod_of_dvd`).

The last lemmas are the bounds checks C code makes on `uint` offsets: `a + b < a`
holds exactly when the sum overflows, and a small count returned as an `int` keeps
its value.
-/

namespace Word32

/-- The distance from `b` up to `a`, modulo `2^32`. -/
def dist (a b : UInt32) : Nat := (a - b).toNat

theorem dist_lt (a b : UInt32) : dist a b < 2 ^ 32 := UInt32.toNat_lt _

theorem dist_eq (a b : UInt32) :
    dist a b = (2 ^ 32 - b.toNat + a.toNat) % 2 ^ 32 := by
  simp [dist, UInt32.toNat_sub]

@[simp] theorem dist_self (a : UInt32) : dist a a = 0 := by simp [dist]

theorem eq_of_dist_eq_zero {a b : UInt32} (h : dist a b = 0) : a = b := by
  have ha := UInt32.toNat_lt a
  have hb := UInt32.toNat_lt b
  rw [dist_eq] at h
  exact UInt32.toNat_inj.mp (by omega)

theorem dist_eq_zero_iff {a b : UInt32} : dist a b = 0 ↔ a = b :=
  ⟨eq_of_dist_eq_zero, fun h => h ▸ dist_self a⟩

theorem toNat_toUInt32_of_lt {a : Nat} (h : a < 2 ^ 32) : a.toUInt32.toNat = a := by
  have : a.toUInt32.toNat = a % 2 ^ 32 := by simp [Nat.toUInt32]
  rw [this, Nat.mod_eq_of_lt h]

/-- The code's full test `a == b + k` is a test on the distance. -/
theorem eq_add_iff_dist {a b : UInt32} {k : Nat} (hk : k < 2 ^ 32) :
    a = b + k.toUInt32 ↔ dist a b = k := by
  have ha := UInt32.toNat_lt a
  have hb := UInt32.toNat_lt b
  have hk' : k.toUInt32.toNat = k := toNat_toUInt32_of_lt hk
  rw [dist_eq, ← UInt32.toNat_inj, UInt32.toNat_add, hk']
  omega

theorem dist_succ_left {a b : UInt32} (h : dist a b + 1 < 2 ^ 32) :
    dist (a + 1) b = dist a b + 1 := by
  have ha := UInt32.toNat_lt a
  have hb := UInt32.toNat_lt b
  rw [dist_eq] at h ⊢
  rw [dist_eq, UInt32.toNat_add, UInt32.toNat_one]
  omega

theorem dist_succ_right {a b : UInt32} (h : 0 < dist a b) :
    dist a (b + 1) = dist a b - 1 := by
  have ha := UInt32.toNat_lt a
  have hb := UInt32.toNat_lt b
  rw [dist_eq] at h ⊢
  rw [dist_eq, UInt32.toNat_add, UInt32.toNat_one]
  omega

theorem dist_add_right {a b : UInt32} {k : Nat} (hk : k ≤ dist a b) :
    dist a (b + k.toUInt32) = dist a b - k := by
  have ha := UInt32.toNat_lt a
  have hb := UInt32.toNat_lt b
  have hk' : k.toUInt32.toNat = k := toNat_toUInt32_of_lt (by have := dist_lt a b; omega)
  rw [dist_eq] at hk ⊢
  rw [dist_eq, UInt32.toNat_add, hk']
  omega

theorem dist_pred_left {a b : UInt32} (h : 0 < dist a b) : dist (a - 1) b = dist a b - 1 := by
  have ha := UInt32.toNat_lt a
  have hb := UInt32.toNat_lt b
  rw [dist_eq] at h ⊢
  rw [dist_eq, UInt32.toNat_sub, UInt32.toNat_one]
  omega

/-- An index modulo a divisor of `2^32` is blind to the wrap of the counter. -/
theorem toNat_add_mod_of_dvd {m : Nat} (hm : m ∣ 2 ^ 32) (b : UInt32) (k : Nat) :
    (b + k.toUInt32).toNat % m = (b.toNat + k) % m := by
  have hk : k.toUInt32.toNat = k % 2 ^ 32 := by simp [Nat.toUInt32]
  rw [UInt32.toNat_add, Nat.mod_mod_of_dvd _ hm, Nat.add_mod, hk,
    Nat.mod_mod_of_dvd _ hm, ← Nat.add_mod]

/-- Counting `dist a b` on from `b` reaches the slot of `a`, in a ring whose size divides
`2^32`. -/
theorem add_dist_mod {m : Nat} (hm : m ∣ 2 ^ 32) (a b : UInt32) :
    (b.toNat + dist a b) % m = a.toNat % m := by
  have ha := UInt32.toNat_lt a
  have hb := UInt32.toNat_lt b
  obtain ⟨k, hk⟩ := hm
  rw [dist_eq, Nat.add_mod, Nat.mod_mod_of_dvd _ ⟨k, hk⟩, ← Nat.add_mod,
    show b.toNat + (2 ^ 32 - b.toNat + a.toNat) = a.toNat + m * k by omega,
    Nat.add_mul_mod_self_left]

theorem add_lt_self_iff (a b : UInt32) : a + b < a ↔ 2 ^ 32 ≤ a.toNat + b.toNat := by
  rw [UInt32.lt_iff_toNat_lt, UInt32.toNat_add]
  have := a.toNat_lt
  have := b.toNat_lt
  omega

theorem toInt_toInt32 (x : UInt32) (h : x.toNat < 2 ^ 31) : x.toInt32.toInt = x.toNat := by
  have hb : x.toInt32.toBitVec = x.toBitVec := rfl
  rw [Int32.toInt, hb, BitVec.toInt_eq_toNat_of_lt (by simp; omega)]
  simp

/-- An `int` counter set from a natural number steps as the number does, modulo `2^32`. -/
theorem int32_ofNat_succ (m : Nat) : Int32.ofNat m + 1 = Int32.ofNat (m + 1) := by
  rw [Int32.ofNat_add m 1]
  rfl

/-! ## The bytes of a register value

C code splits a count or an address into the bytes it writes to 8-bit registers as
`x & 0xFF` and `(x >> 8) & 0xFF`; for a signed `x` the shift is arithmetic, and its
second byte is still the second byte of `x`. -/

theorem toNat_byte_and (n : Nat) : n % 256 &&& 255 = n % 256 := by
  rw [show (255 : Nat) = 2 ^ 8 - 1 from rfl, Nat.and_two_pow_sub_one_eq_mod]
  omega

theorem toNat_lowByte16 (a : UInt16) : ((a &&& 0xFF).toUInt8).toNat = a.toNat % 256 := by
  simp [toNat_byte_and]

theorem toNat_highByte16 (a : UInt16) :
    (((a >>> 8) &&& 0xFF).toUInt8).toNat = a.toNat / 256 % 256 := by
  simp [UInt16.toNat_shiftRight, Nat.shiftRight_eq_div_pow, toNat_byte_and]

theorem toNat_lowByte32 (x : UInt32) : ((x &&& 0xFF).toUInt8).toNat = x.toNat % 256 := by
  simp [toNat_byte_and]

theorem toNat_sshiftRight8 (x : Int32) :
    (x >>> 8).toUInt32.toNat % 256 = x.toUInt32.toNat / 256 % 256 := by
  have hlt := x.toBitVec.isLt
  rw [← UInt32.toNat_toBitVec, ← UInt32.toNat_toBitVec, Int32.toBitVec_toUInt32,
    Int32.toBitVec_toUInt32, Int32.toBitVec_shiftRight, BitVec.toNat_sshiftRight']
  split <;> simp <;> omega

theorem toNat_highByte32 (x : Int32) :
    (((x >>> 8).toUInt32 &&& 0xFF).toUInt8).toNat = x.toUInt32.toNat / 256 % 256 := by
  rw [toNat_lowByte32, toNat_sshiftRight8]

/-- A 16-bit value read back from its two bytes, `lo | ((hi << 8) & 0xFF00)`. -/
theorem or_shiftLeft8_bytes (x : Nat) (hx : x < 0x10000) :
    (x % 256) ||| (((x / 256) <<< 8) &&& 0xFF00) = x := by
  have hhi : ((x / 256) <<< 8) &&& 0xFF00 = (x / 256) <<< 8 := by
    rw [show (0xFF00 : Nat) = 0xFF <<< 8 from rfl, ← Nat.shiftLeft_and_distrib,
      show (0xFF : Nat) = 2 ^ 8 - 1 from rfl, Nat.and_two_pow_sub_one_eq_mod,
      Nat.mod_eq_of_lt (by omega)]
  rw [hhi, Nat.or_comm, ← Nat.shiftLeft_add_eq_or_of_lt (Nat.mod_lt _ (by decide)),
    Nat.shiftLeft_eq]
  omega

end Word32
