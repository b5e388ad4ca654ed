import Mathlib

/-!
# Bit fields of 32-bit words

Masks, shifts and ors on `UInt32` read as `Nat` arithmetic: clearing the low `k` bits
rounds down to a multiple of `2^k`, a shift followed by a mask of `k` ones extracts a
field, and or-ing small flags into an aligned word adds them.
-/

namespace Bits

theorem toNat_and_not_low (x m : UInt32) {k : Nat} (hm : m.toNat = 2 ^ k - 1) (hk : k ≤ 32) :
    (x &&& ~~~m).toNat = x.toNat / 2 ^ k * 2 ^ k := by
  rw [UInt32.toNat_and, UInt32.toNat_not, hm, show UInt32.size = 2 ^ 32 from rfl]
  apply Nat.eq_of_testBit_eq
  intro i
  have hx := x.toNat_lt
  -- the complement of the low mask is a run of ones shifted up by `k`
  have hmask : 2 ^ 32 - 1 - (2 ^ k - 1) = (2 ^ (32 - k) - 1) * 2 ^ k := by
    have h1 : 2 ^ 32 = 2 ^ (32 - k) * 2 ^ k := by rw [← Nat.pow_add]; congr 1; omega
    have h2 : 1 ≤ 2 ^ k := Nat.one_le_two_pow
    rw [h1, Nat.sub_mul, Nat.one_mul]
    omega
  rw [Nat.testBit_and, hmask, Nat.testBit_mul_two_pow, Nat.testBit_mul_two_pow,
    Nat.testBit_two_pow_sub_one, Nat.testBit_div_two_pow]
  by_cases hik : k ≤ i
  · rw [Nat.sub_add_cancel hik]
    by_cases h32 : i < 32
    · simp [hik, show i - k < 32 - k by omega]
    · have : x.toNat.testBit i = false :=
        Nat.testBit_lt_two_pow (lt_of_lt_of_le hx (Nat.pow_le_pow_right (by decide) (by omega)))
      simp [this]
  · simp [hik]

theorem toNat_shiftRight_and (x s m : UInt32) {k : Nat} (hs : s.toNat < 32)
    (hm : m.toNat = 2 ^ k - 1) : ((x >>> s) &&& m).toNat = x.toNat / 2 ^ s.toNat % 2 ^ k := by
  rw [UInt32.toNat_and, UInt32.toNat_shiftRight, hm, Nat.and_two_pow_sub_one_eq_mod,
    Nat.shiftRight_eq_div_pow, Nat.mod_eq_of_lt hs]

theorem toNat_or_of_lt (a b : UInt32) {k : Nat} (ha : a.toNat % 2 ^ k = 0) (hb : b.toNat < 2 ^ k) :
    (a ||| b).toNat = a.toNat + b.toNat := by
  rw [UInt32.toNat_or]
  obtain ⟨q, hq⟩ : ∃ q, a.toNat = 2 ^ k * q := ⟨a.toNat / 2 ^ k, by
    have := Nat.div_add_mod a.toNat (2 ^ k); omega⟩
  rw [hq, ← Nat.two_pow_add_eq_or_of_lt hb]

end Bits
