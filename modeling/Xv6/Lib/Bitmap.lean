import Mathlib

/-!
# Bitmaps stored in bytes

A bitmap over a byte memory keeps bit `i` in bit `i % 8` of byte `i / 8`, tested
with `m[i/8] & (1 << (i%8))`, set with `|=` and cleared with `&= ~`. The lemmas say
that setting or clearing bit `i` changes bit `i` and no other, which is all an
allocator over such a bitmap needs.
-/

namespace Bitmap

/-- `1 << j` as a byte. -/
def mask (j : Nat) : UInt8 := 1 <<< j.toUInt8

/-- Whether bit `i` of the bitmap is set. -/
def testBit (m : Nat → UInt8) (i : Nat) : Bool := m (i / 8) &&& mask (i % 8) != 0

/-- Set bit `i`. -/
def setBit (m : Nat → UInt8) (i : Nat) : Nat → UInt8 :=
  Function.update m (i / 8) (m (i / 8) ||| mask (i % 8))

/-- Clear bit `i`. -/
def clearBit (m : Nat → UInt8) (i : Nat) : Nat → UInt8 :=
  Function.update m (i / 8) (m (i / 8) &&& ~~~mask (i % 8))

theorem toNat_mask {j : Nat} (hj : j < 8) : (mask j).toNat = 2 ^ j := by
  have : ∀ j : Fin 8, (mask j.val).toNat = 2 ^ j.val := by decide
  exact this ⟨j, hj⟩

theorem testBit_not_mask {j k : Nat} (hj : j < 8) (hk : k < 8) :
    (~~~mask j).toNat.testBit k = decide (j ≠ k) := by
  have : ∀ j k : Fin 8, (~~~mask j.val).toNat.testBit k.val = decide (j.val ≠ k.val) := by decide
  exact this ⟨j, hj⟩ ⟨k, hk⟩

/-- The byte test `x & (1 << j)` reads bit `j` of `x`. -/
theorem and_mask_ne_zero (x : UInt8) {j : Nat} (hj : j < 8) :
    (x &&& mask j != 0) = x.toNat.testBit j := by
  have hx : (x &&& mask j).toNat = x.toNat &&& 2 ^ j := by
    rw [UInt8.toNat_and, toNat_mask hj]
  cases hb : x.toNat.testBit j with
  | true =>
    -- bit `j` survives the mask, so the byte is not zero
    have h1 : (x &&& mask j).toNat.testBit j = true := by
      simp [hx, hb, Nat.testBit_two_pow_self]
    have hne : x &&& mask j ≠ 0 := by
      rintro h0
      simp [h0] at h1
    simpa using hne
  | false =>
    have h0 : x &&& mask j = 0 := by
      apply UInt8.toNat_inj.mp
      rw [hx]
      apply Nat.eq_of_testBit_eq
      intro i
      by_cases hij : j = i
      · subst hij
        simp [hb]
      · simp [hij]
    simp [h0]

theorem testBit_eq (m : Nat → UInt8) (i : Nat) :
    testBit m i = (m (i / 8)).toNat.testBit (i % 8) :=
  and_mask_ne_zero _ (Nat.mod_lt _ (by decide))

/-- Two bits in one byte are equal as soon as their indices agree mod 8. -/
theorem eq_of_div_eq_of_mod_eq {i k : Nat} (h1 : i / 8 = k / 8) (h2 : i % 8 = k % 8) : i = k := by
  omega

@[simp] theorem testBit_setBit (m : Nat → UInt8) (i k : Nat) :
    testBit (setBit m i) k = (decide (i = k) || testBit m k) := by
  rw [testBit_eq, testBit_eq]
  by_cases hd : k / 8 = i / 8
  · have hi := Nat.mod_lt i (by decide : 0 < 8)
    have hk := Nat.mod_lt k (by decide : 0 < 8)
    rw [setBit, hd, Function.update_self, UInt8.toNat_or, Nat.testBit_or, toNat_mask hi,
      Nat.testBit_two_pow]
    by_cases hik : i = k
    · subst hik
      simp
    · have hm : i % 8 ≠ k % 8 := fun h => hik (eq_of_div_eq_of_mod_eq hd.symm h)
      simp [hik, hm]
  · have hik : i ≠ k := by rintro rfl; exact hd rfl
    simp [setBit, Function.update_of_ne hd, hik]

@[simp] theorem testBit_clearBit (m : Nat → UInt8) (i k : Nat) :
    testBit (clearBit m i) k = (decide (i ≠ k) && testBit m k) := by
  rw [testBit_eq, testBit_eq]
  by_cases hd : k / 8 = i / 8
  · have hi := Nat.mod_lt i (by decide : 0 < 8)
    have hk := Nat.mod_lt k (by decide : 0 < 8)
    rw [clearBit, hd, Function.update_self, UInt8.toNat_and, Nat.testBit_and,
      testBit_not_mask hi hk]
    by_cases hik : i = k
    · subst hik
      simp
    · have hm : i % 8 ≠ k % 8 := fun h => hik (eq_of_div_eq_of_mod_eq hd.symm h)
      simp [hik, hm]
  · have hik : i ≠ k := by rintro rfl; exact hd rfl
    simp [clearBit, Function.update_of_ne hd, hik]

@[simp] theorem testBit_zero (i : Nat) : testBit (fun _ => 0) i = false := by
  simp [testBit]

/-- A bitmap that starts all clear and has bits `0, ..., n - 1` set one after another. -/
theorem testBit_setBits (n k : Nat) :
    testBit ((List.range n).foldl setBit fun _ => 0) k = decide (k < n) := by
  induction n with
  | zero => simp [testBit]
  | succ n ih =>
    rw [List.range_succ, List.foldl_append, List.foldl_cons, List.foldl_nil, testBit_setBit, ih]
    by_cases hk : k = n
    · simp [hk]
    · have : k < n + 1 ↔ k < n := by omega
      simp [Ne.symm hk, this]

end Bitmap
