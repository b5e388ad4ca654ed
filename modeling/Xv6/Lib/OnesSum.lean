import Mathlib

/-!
# One's-complement sums of 16-bit words

The Internet checksum adds 16-bit words with end-around carry: a carry out of bit 15 comes
back in at bit 0 (`add`, `sum`). Such a sum is the ordinary sum modulo `0xFFFF`, read in
`[0, 0xFFFF]`, where `0xFFFF` stands for a nonzero multiple of `0xFFFF` and `0` only for
words that are all zero. Code adds the words into a wide accumulator and folds its high
half into its low half afterwards (`fold`), which keeps the value modulo `0xFFFF`.

Which byte of a word is the high one does not matter modulo `0xFFFF`: a word read in
network order (`beWords`) is `256` times the same bytes read little-endian (`leWords`),
and `256` is invertible modulo `0xFFFF`.
-/

namespace OnesSum

/-- End-around-carry addition of two 16-bit words. -/
def add (a b : Nat) : Nat := if a + b < 65536 then a + b else a + b - 65535

/-- The one's-complement sum of 16-bit words. -/
def sum (ws : List Nat) : Nat := ws.foldl add 0

/-- `(s & 0xFFFF) + (s >> 16)`: one fold of a wide accumulator. -/
def fold (s : Nat) : Nat := s % 65536 + s / 65536

/-- The words of a byte string, two bytes each with the first byte low; an odd last byte
is a word of its own. -/
def leWords : List UInt8 → List Nat
  | b0 :: b1 :: bs => (b0.toNat + 256 * b1.toNat) :: leWords bs
  | [b] => [b.toNat]
  | [] => []

/-- The words of a byte string in network order, the first byte high; an odd last byte is
padded with a zero byte. -/
def beWords : List UInt8 → List Nat
  | b0 :: b1 :: bs => (256 * b0.toNat + b1.toNat) :: beWords bs
  | [b] => [256 * b.toNat]
  | [] => []

/-! ## End-around carry -/

theorem add_modEq (a b : Nat) : add a b ≡ a + b [MOD 65535] := by
  unfold add Nat.ModEq
  split <;> omega

theorem add_lt {a b : Nat} (ha : a < 65536) (hb : b < 65536) : add a b < 65536 := by
  unfold add
  split <;> omega

theorem add_eq_zero (a b : Nat) : add a b = 0 ↔ a + b = 0 := by
  unfold add
  split <;> omega

theorem foldl_add_lt : ∀ (ws : List Nat) {acc : Nat}, acc < 65536 → (∀ w ∈ ws, w < 65536) →
    ws.foldl add acc < 65536
  | [], _, h, _ => h
  | w :: ws, _, h, hw =>
    foldl_add_lt ws (add_lt h (hw w List.mem_cons_self)) fun v hv => hw v (List.mem_cons_of_mem w hv)

theorem foldl_add_modEq : ∀ (ws : List Nat) (acc : Nat), ws.foldl add acc ≡ acc + ws.sum [MOD 65535]
  | [], acc => by simp [Nat.ModEq]
  | w :: ws, acc => by
    have ih := foldl_add_modEq ws (add acc w)
    have hw : add acc w + ws.sum ≡ acc + w + ws.sum [MOD 65535] := (add_modEq acc w).add_right _
    rw [List.foldl_cons, List.sum_cons, ← Nat.add_assoc]
    exact ih.trans hw

theorem foldl_add_eq_zero : ∀ (ws : List Nat) {acc : Nat}, acc < 65536 → (∀ w ∈ ws, w < 65536) →
    (ws.foldl add acc = 0 ↔ acc + ws.sum = 0)
  | [], _, _, _ => by simp
  | w :: ws, acc, h, hw => by
    have hw0 := hw w List.mem_cons_self
    have ih := foldl_add_eq_zero ws (add_lt h hw0) fun v hv => hw v (List.mem_cons_of_mem w hv)
    rw [List.foldl_cons, ih, List.sum_cons]
    have hz := add_eq_zero acc w
    omega

/-- A sum of words that is a nonzero multiple of `0xFFFF` comes out as `0xFFFF`. -/
theorem sum_eq_max {ws : List Nat} (hw : ∀ w ∈ ws, w < 65536) (h0 : ws.sum ≠ 0)
    (hm : ws.sum ≡ 0 [MOD 65535]) : sum ws = 65535 := by
  have hlt : sum ws < 65536 := foldl_add_lt ws (by decide) hw
  have hmod : sum ws ≡ 0 [MOD 65535] := by
    have h := foldl_add_modEq ws 0
    rw [Nat.zero_add] at h
    exact h.trans hm
  have hne : sum ws ≠ 0 := by
    intro hs
    have h := (foldl_add_eq_zero ws (show 0 < 65536 by decide) hw).mp hs
    rw [Nat.zero_add] at h
    exact h0 h
  unfold Nat.ModEq at hmod
  omega

/-! ## Folding a wide accumulator -/

theorem fold_modEq (s : Nat) : fold s ≡ s [MOD 65535] := by
  unfold fold Nat.ModEq
  omega

/-- Two folds bring a 32-bit accumulator into 16 bits. -/
theorem fold_fold_lt {s : Nat} (h : s < 2 ^ 32) : fold (fold s) < 65536 := by
  unfold fold
  omega

/-- Two folds of a nonzero accumulator give a nonzero word. -/
theorem fold_fold_ne_zero {s : Nat} (h : s ≠ 0) : fold (fold s) ≠ 0 := by
  unfold fold
  omega

/-! ## Byte order -/

theorem leWords_lt : ∀ (bs : List UInt8), ∀ w ∈ leWords bs, w < 65536
  | b0 :: b1 :: bs, w, hw => by
    rcases List.mem_cons.mp hw with rfl | hw
    · have := b0.toNat_lt
      have := b1.toNat_lt
      omega
    · exact leWords_lt bs w hw
  | [b], w, hw => by
    rw [leWords, List.mem_singleton] at hw
    rw [hw]
    have := b.toNat_lt
    omega
  | [], _, hw => absurd hw List.not_mem_nil

theorem beWords_lt : ∀ (bs : List UInt8), ∀ w ∈ beWords bs, w < 65536
  | b0 :: b1 :: bs, w, hw => by
    rcases List.mem_cons.mp hw with rfl | hw
    · have := b0.toNat_lt
      have := b1.toNat_lt
      omega
    · exact beWords_lt bs w hw
  | [b], w, hw => by
    rw [beWords, List.mem_singleton] at hw
    rw [hw]
    have := b.toNat_lt
    omega
  | [], _, hw => absurd hw List.not_mem_nil

/-- Swapping the bytes of every word multiplies the sum by `256` modulo `0xFFFF`. -/
theorem beWords_sum_modEq : ∀ (bs : List UInt8),
    (beWords bs).sum ≡ 256 * (leWords bs).sum [MOD 65535]
  | b0 :: b1 :: bs => by
    have ih := beWords_sum_modEq bs
    have hw : 256 * b0.toNat + b1.toNat ≡ 256 * (b0.toNat + 256 * b1.toNat) [MOD 65535] := by
      unfold Nat.ModEq
      omega
    rw [beWords, leWords, List.sum_cons, List.sum_cons, Nat.mul_add]
    exact hw.add ih
  | [b] => by simp [beWords, leWords, Nat.ModEq]
  | [] => by simp [beWords, leWords, Nat.ModEq]

/-- `256` is invertible modulo `0xFFFF`: `256 * 256 = 0xFFFF + 1`. -/
theorem modEq_zero_of_mul {x : Nat} (h : 256 * x ≡ 0 [MOD 65535]) : x ≡ 0 [MOD 65535] := by
  unfold Nat.ModEq at *
  omega

theorem leWords_append : ∀ {bs : List UInt8} (cs : List UInt8), bs.length % 2 = 0 →
    leWords (bs ++ cs) = leWords bs ++ leWords cs
  | b0 :: b1 :: bs, cs, h => by
    rw [List.cons_append, List.cons_append, leWords, leWords, List.cons_append,
      leWords_append cs (by simp only [List.length_cons] at h; omega)]
  | [_], _, h => by simp at h
  | [], _, _ => rfl

theorem beWords_append : ∀ {bs : List UInt8} (cs : List UInt8), bs.length % 2 = 0 →
    beWords (bs ++ cs) = beWords bs ++ beWords cs
  | b0 :: b1 :: bs, cs, h => by
    rw [List.cons_append, List.cons_append, beWords, beWords, List.cons_append,
      beWords_append cs (by simp only [List.length_cons] at h; omega)]
  | [_], _, h => by simp at h
  | [], _, _ => rfl

/-- The words of `n` bytes add up to less than `0xFFFF` times their number. -/
theorem leWords_sum_le : ∀ (bs : List UInt8), (leWords bs).sum ≤ 65535 * ((bs.length + 1) / 2)
  | b0 :: b1 :: bs => by
    have ih := leWords_sum_le bs
    have := b0.toNat_lt
    have := b1.toNat_lt
    simp only [leWords, List.sum_cons, List.length_cons]
    omega
  | [b] => by
    have := b.toNat_lt
    simp only [leWords, List.sum_cons, List.sum_nil, List.length_cons, List.length_nil]
    omega
  | [] => by simp [leWords]

end OnesSum
