import Mathlib

/-!
# Byte-addressed memory with little-endian words

A memory is a function from addresses to bytes; a disk block and a physical page
are both such memories. C code reads and writes multi-byte fields through casts
(`*(uint*)p`, a `struct dinode` inside a block); on x86 these are little-endian.
`getU32`/`setU32` and `getU16`/`setU16` are those accesses, `readBytes` and
`writeBytes` are `memmove` out of and into a memory.

The lemmas are the ones such models need: a field read back after it is written,
a read unaffected by a write elsewhere (`getU32_congr` is the frame rule every
other frame lemma reduces to), and the byte-level shape of `writeBytes`.
-/

namespace Bytes

/-- The 32-bit little-endian word at `a`. -/
def getU32 (m : Nat → UInt8) (a : Nat) : UInt32 :=
  UInt32.ofNat ((m a).toNat + 256 * (m (a + 1)).toNat + 65536 * (m (a + 2)).toNat +
    16777216 * (m (a + 3)).toNat)

/-- Store the 32-bit word `v` little-endian at `a`. -/
def setU32 (m : Nat → UInt8) (a : Nat) (v : UInt32) : Nat → UInt8 := fun i =>
  if i = a then (v.toNat % 256).toUInt8
  else if i = a + 1 then (v.toNat / 256 % 256).toUInt8
  else if i = a + 2 then (v.toNat / 65536 % 256).toUInt8
  else if i = a + 3 then (v.toNat / 16777216 % 256).toUInt8
  else m i

/-- The four bytes `setU32` stores for `v`, low byte first: a `uint` as it lies in memory. -/
def ofU32 (v : UInt32) : List UInt8 :=
  [(v.toNat % 256).toUInt8, (v.toNat / 256 % 256).toUInt8, (v.toNat / 65536 % 256).toUInt8,
    (v.toNat / 16777216 % 256).toUInt8]

@[simp] theorem length_flatMap_ofU32 (l : List UInt32) : (l.flatMap ofU32).length = 4 * l.length := by
  induction l with
  | nil => rfl
  | cons v l ih =>
    rw [List.flatMap_cons, List.length_append, ih, List.length_cons]
    simp only [ofU32, List.length_cons, List.length_nil]
    omega

/-- The 16-bit little-endian halfword at `a`. -/
def getU16 (m : Nat → UInt8) (a : Nat) : UInt16 :=
  UInt16.ofNat ((m a).toNat + 256 * (m (a + 1)).toNat)

/-- Store the 16-bit halfword `v` little-endian at `a`. -/
def setU16 (m : Nat → UInt8) (a : Nat) (v : UInt16) : Nat → UInt8 := fun i =>
  if i = a then (v.toNat % 256).toUInt8
  else if i = a + 1 then (v.toNat / 256 % 256).toUInt8
  else m i

/-- The `n` bytes at `a`, in order. -/
def readBytes (m : Nat → UInt8) (a n : Nat) : List UInt8 :=
  (List.range n).map fun i => m (a + i)

/-- The memory with the bytes `bs` stored from `a` on. -/
def writeBytes (m : Nat → UInt8) (a : Nat) (bs : List UInt8) : Nat → UInt8 := fun i =>
  if h : a ≤ i ∧ i - a < bs.length then bs[i - a] else m i

/-! ## Words -/

theorem toUInt8_toNat_of_lt {n : Nat} (h : n < 256) : n.toUInt8.toNat = n := by
  simp [Nat.toUInt8, Nat.mod_eq_of_lt h]

theorem getU32_setU32_self (m : Nat → UInt8) (a : Nat) (v : UInt32) :
    getU32 (setU32 m a v) a = v := by
  have hv := UInt32.toNat_lt v
  -- the four bytes written, read back one at a time
  have h0 : setU32 m a v a = (v.toNat % 256).toUInt8 := by simp [setU32]
  have h1 : setU32 m a v (a + 1) = (v.toNat / 256 % 256).toUInt8 := by simp [setU32]
  have h2 : setU32 m a v (a + 2) = (v.toNat / 65536 % 256).toUInt8 := by simp [setU32]
  have h3 : setU32 m a v (a + 3) = (v.toNat / 16777216 % 256).toUInt8 := by simp [setU32]
  apply UInt32.toNat_inj.mp
  simp only [getU32, h0, h1, h2, h3, UInt32.toNat_ofNat',
    toUInt8_toNat_of_lt (Nat.mod_lt _ (by decide : 0 < 256))]
  omega

/-- A word read depends only on its four bytes. -/
theorem getU32_congr {m m' : Nat → UInt8} {a : Nat}
    (h : ∀ i, a ≤ i → i < a + 4 → m i = m' i) : getU32 m a = getU32 m' a := by
  unfold getU32
  rw [h a (by omega) (by omega), h (a + 1) (by omega) (by omega),
    h (a + 2) (by omega) (by omega), h (a + 3) (by omega) (by omega)]

theorem setU32_apply_of_ne {m : Nat → UInt8} {a : Nat} {v : UInt32} {i : Nat}
    (h : i < a ∨ a + 4 ≤ i) : setU32 m a v i = m i := by
  unfold setU32
  rw [if_neg (by omega), if_neg (by omega), if_neg (by omega), if_neg (by omega)]

theorem getU32_setU32_of_disjoint (m : Nat → UInt8) {a b : Nat} (v : UInt32)
    (h : a + 4 ≤ b ∨ b + 4 ≤ a) : getU32 (setU32 m a v) b = getU32 m b :=
  getU32_congr fun _ _ _ => setU32_apply_of_ne (by omega)

theorem getU16_setU16_self (m : Nat → UInt8) (a : Nat) (v : UInt16) :
    getU16 (setU16 m a v) a = v := by
  have hv := UInt16.toNat_lt v
  have h0 : setU16 m a v a = (v.toNat % 256).toUInt8 := by simp [setU16]
  have h1 : setU16 m a v (a + 1) = (v.toNat / 256 % 256).toUInt8 := by simp [setU16]
  apply UInt16.toNat_inj.mp
  simp only [getU16, h0, h1, UInt16.toNat_ofNat',
    toUInt8_toNat_of_lt (Nat.mod_lt _ (by decide : 0 < 256))]
  omega

theorem getU16_congr {m m' : Nat → UInt8} {a : Nat}
    (h : ∀ i, a ≤ i → i < a + 2 → m i = m' i) : getU16 m a = getU16 m' a := by
  unfold getU16
  rw [h a (by omega) (by omega), h (a + 1) (by omega) (by omega)]

theorem setU16_apply_of_ne {m : Nat → UInt8} {a : Nat} {v : UInt16} {i : Nat}
    (h : i < a ∨ a + 2 ≤ i) : setU16 m a v i = m i := by
  unfold setU16
  rw [if_neg (by omega), if_neg (by omega)]

theorem getU16_setU16_of_disjoint (m : Nat → UInt8) {a b : Nat} (v : UInt16)
    (h : a + 2 ≤ b ∨ b + 2 ≤ a) : getU16 (setU16 m a v) b = getU16 m b :=
  getU16_congr fun _ _ _ => setU16_apply_of_ne (by omega)

theorem getU16_setU32_of_disjoint (m : Nat → UInt8) {a b : Nat} (v : UInt32)
    (h : a + 4 ≤ b ∨ b + 2 ≤ a) : getU16 (setU32 m a v) b = getU16 m b :=
  getU16_congr fun _ _ _ => setU32_apply_of_ne (by omega)

theorem getU32_setU16_of_disjoint (m : Nat → UInt8) {a b : Nat} (v : UInt16)
    (h : a + 2 ≤ b ∨ b + 4 ≤ a) : getU32 (setU16 m a v) b = getU32 m b :=
  getU32_congr fun _ _ _ => setU16_apply_of_ne (by omega)

/-- Store the words `vs` little-endian one after another from `a`: `memmove` of a
`uint` array. -/
def setU32s (m : Nat → UInt8) (a : Nat) : List UInt32 → Nat → UInt8
  | [] => m
  | v :: vs => setU32s (setU32 m a v) (a + 4) vs

theorem setU32s_apply_of_ne {m : Nat → UInt8} {a : Nat} {vs : List UInt32} {i : Nat}
    (h : i < a ∨ a + 4 * vs.length ≤ i) : setU32s m a vs i = m i := by
  induction vs generalizing m a with
  | nil => rfl
  | cons v vs ih =>
    simp only [List.length_cons] at h
    rw [setU32s, ih (by omega), setU32_apply_of_ne (by omega)]

theorem getU32_setU32s (m : Nat → UInt8) (a : Nat) (vs : List UInt32) (k : Nat)
    (hk : k < vs.length) : getU32 (setU32s m a vs) (a + 4 * k) = vs[k] := by
  induction vs generalizing m a k with
  | nil => simp at hk
  | cons v vs ih =>
    rw [setU32s]
    cases k with
    | zero =>
      -- the later words lie past the first one
      have hfirst : getU32 (setU32s (setU32 m a v) (a + 4) vs) a = getU32 (setU32 m a v) a :=
        getU32_congr fun i _ _ => setU32s_apply_of_ne (by omega)
      simpa [hfirst] using getU32_setU32_self m a v
    | succ k =>
      have hk' : k < vs.length := by simpa using hk
      rw [show a + 4 * (k + 1) = a + 4 + 4 * k by omega, ih _ _ _ hk']
      simp

theorem getU16_setU32s_of_le (m : Nat → UInt8) {a b : Nat} (vs : List UInt32)
    (h : b + 2 ≤ a) : getU16 (setU32s m a vs) b = getU16 m b :=
  getU16_congr fun _ _ _ => setU32s_apply_of_ne (by omega)

theorem getU32_setU32s_of_le (m : Nat → UInt8) {a b : Nat} (vs : List UInt32)
    (h : b + 4 ≤ a) : getU32 (setU32s m a vs) b = getU32 m b :=
  getU32_congr fun _ _ _ => setU32s_apply_of_ne (by omega)

/-! ## Byte strings -/

@[simp] theorem length_readBytes (m : Nat → UInt8) (a n : Nat) : (readBytes m a n).length = n := by
  simp [readBytes]

@[simp] theorem getElem_readBytes (m : Nat → UInt8) (a n i : Nat) (h : i < (readBytes m a n).length) :
    (readBytes m a n)[i] = m (a + i) := by
  simp [readBytes]

theorem readBytes_congr {m m' : Nat → UInt8} {a n : Nat}
    (h : ∀ i, a ≤ i → i < a + n → m i = m' i) : readBytes m a n = readBytes m' a n := by
  apply List.ext_getElem (by simp)
  intro i hi _
  simp only [getElem_readBytes]
  simp only [length_readBytes] at hi
  exact h _ (by omega) (by omega)

theorem readBytes_succ (m : Nat → UInt8) (a n : Nat) :
    readBytes m a (n + 1) = m a :: readBytes m (a + 1) n := by
  simp only [readBytes, List.range_succ_eq_map, List.map_cons, List.map_map, Nat.add_zero]
  congr 1
  refine List.map_congr_left fun i _ => ?_
  simp only [Function.comp]
  congr 1
  omega

theorem readBytes_add (m : Nat → UInt8) (a n k : Nat) :
    readBytes m a (n + k) = readBytes m a n ++ readBytes m (a + n) k := by
  apply List.ext_getElem (by simp)
  intro i hi _
  simp only [length_readBytes] at hi
  by_cases hin : i < n
  · rw [List.getElem_append_left (by simpa using hin)]
    simp
  · rw [List.getElem_append_right (by simp; omega)]
    simp only [getElem_readBytes, length_readBytes]
    congr 1
    omega

theorem writeBytes_apply_of_lt {m : Nat → UInt8} {a : Nat} {bs : List UInt8} {i : Nat}
    (h : i < a) : writeBytes m a bs i = m i := by
  unfold writeBytes
  rw [dif_neg (by omega)]

theorem writeBytes_apply_of_ge {m : Nat → UInt8} {a : Nat} {bs : List UInt8} {i : Nat}
    (h : a + bs.length ≤ i) : writeBytes m a bs i = m i := by
  unfold writeBytes
  rw [dif_neg (by omega)]

theorem writeBytes_apply_mem {m : Nat → UInt8} {a : Nat} {bs : List UInt8} {i : Nat}
    (h1 : a ≤ i) (h2 : i - a < bs.length) : writeBytes m a bs i = bs[i - a] := by
  unfold writeBytes
  rw [dif_pos ⟨h1, h2⟩]

theorem readBytes_writeBytes_self (m : Nat → UInt8) (a : Nat) (bs : List UInt8) :
    readBytes (writeBytes m a bs) a bs.length = bs := by
  apply List.ext_getElem (by simp)
  intro i hi _
  simp only [getElem_readBytes]
  simp only [length_readBytes] at hi
  rw [writeBytes_apply_mem (by omega) (by omega)]
  congr 1
  omega

@[simp] theorem writeBytes_nil (m : Nat → UInt8) (a : Nat) : writeBytes m a [] = m := by
  funext i
  simp [writeBytes]

/-- Storing a string is storing its first byte, then the rest after it. -/
theorem writeBytes_cons (m : Nat → UInt8) (a : Nat) (b : UInt8) (bs : List UInt8) :
    writeBytes m a (b :: bs) = writeBytes (Function.update m a b) (a + 1) bs := by
  funext i
  rcases Nat.lt_trichotomy i a with hlt | rfl | hgt
  · rw [writeBytes_apply_of_lt hlt, writeBytes_apply_of_lt (by omega),
      Function.update_of_ne (by omega)]
  · rw [writeBytes_apply_mem (Nat.le_refl _) (by simp), writeBytes_apply_of_lt (by omega),
      Function.update_self]
    simp
  · by_cases hin : i - a < bs.length + 1
    · rw [writeBytes_apply_mem (by omega) (by simpa using hin),
        writeBytes_apply_mem (by omega) (by omega)]
      simp only [show i - a = i - (a + 1) + 1 by omega, List.getElem_cons_succ]
    · rw [writeBytes_apply_of_ge (by simp; omega), writeBytes_apply_of_ge (by omega),
        Function.update_of_ne (by omega)]

/-- A byte string with the slice `[off, off + m)` replaced by `g 0, ..., g (m - 1)`,
growing it if the slice runs past its end, read pointwise. -/
theorem map_range_splice {α : Type} (f g : Nat → α) {size off m : Nat} (hoff : off ≤ size) :
    (List.range (max size (off + m))).map
        (fun k => if off ≤ k ∧ k < off + m then g (k - off) else f k) =
      ((List.range size).map f).take off ++ (List.range m).map g ++
        ((List.range size).map f).drop (off + m) := by
  apply List.ext_getElem
  · simp only [List.length_map, List.length_range, List.length_append, List.length_take,
      List.length_drop]
    omega
  · intro k h1 h2
    simp only [List.getElem_map, List.getElem_range, List.getElem_append, List.length_append,
      List.length_take, List.length_map, List.length_range, List.getElem_take, List.getElem_drop]
    rw [Nat.min_eq_left hoff]
    -- before the slice, inside it, and after it
    by_cases h1 : k < off
    · rw [if_neg (by omega), dif_pos (by omega), dif_pos h1]
    by_cases h2 : k < off + m
    · rw [if_pos ⟨by omega, h2⟩, dif_pos h2, dif_neg h1]
    · rw [if_neg (by omega), dif_neg h2]
      congr 1
      omega

end Bytes
