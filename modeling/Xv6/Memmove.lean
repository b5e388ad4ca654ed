import Xv6.Lib.Bytes

/-!
# `memmove`

`memmove` and `memcpy` of `string.c` on a flat byte memory. A pointer is an address in
it, and `s + n` is the end of the source object, which does not wrap, so the test
`s < d && s + n > d` is the C one. When the destination starts strictly inside the
source, the bytes are copied from the top down, else from the bottom up.

Each loop writes the original source bytes when it never reads a byte it has already
written (`UpSafe`, `DownSafe`, with `copyUp_apply` and `copyDown_apply`). The test takes
the bottom-up loop exactly when that loop is safe (`upSafe_iff`), and the top-down loop
is safe whenever the source starts below the destination, so `memmove` stores the
source's bytes at the destination and nothing else, for every relative position of the
two ranges (`memmove_eq`). `cgaputc` scrolls the screen with such an overlapping move.

The user library's `memmove` of `ulib.c`, which only copies upward, is `Xv6.memmove`;
the kernel's is `Kernel.memmove`.
-/

namespace Xv6

namespace Kernel

/-- `while(n-- > 0) *d++ = *s++;` -/
def copyUp (m : Nat → UInt8) (d s : Nat) : Nat → Nat → UInt8
  | 0 => m
  | n + 1 => copyUp (Function.update m d (m s)) (d + 1) (s + 1) n

/-- `while(n-- > 0) *--d = *--s;`, with `d` and `s` the ends of the two ranges. -/
def copyDown (m : Nat → UInt8) (d s : Nat) : Nat → Nat → UInt8
  | 0 => m
  | n + 1 => copyDown (Function.update m (d - 1) (m (s - 1))) (d - 1) (s - 1) n

/-- `memmove(dst, src, n)`: the memory it leaves. -/
def memmove (m : Nat → UInt8) (dst src n : Nat) : Nat → UInt8 :=
  if src < dst ∧ src + n > dst then copyDown m (dst + n) (src + n) n
  else copyUp m dst src n

/-- `memcpy(dst, src, n)` is `memmove`. -/
def memcpy (m : Nat → UInt8) (dst src n : Nat) : Nat → UInt8 := memmove m dst src n

/-- The bottom-up loop's write of step `i` never lands on the byte a later step `j` reads. -/
def UpSafe (d s n : Nat) : Prop := ∀ i j, i < j → j < n → d + i ≠ s + j

/-- The top-down loop's write of step `i` never lands on the byte a later step, lower
down, reads. -/
def DownSafe (d s n : Nat) : Prop := ∀ i j, j < i → i < n → d + i ≠ s + j

/-- The memory after `n` bytes from `src` are written at `dst`, read pointwise. -/
theorem writeBytes_readBytes_apply (m : Nat → UInt8) (dst src n a : Nat) :
    Bytes.writeBytes m dst (Bytes.readBytes m src n) a =
      if dst ≤ a ∧ a < dst + n then m (src + (a - dst)) else m a := by
  unfold Bytes.writeBytes
  simp only [Bytes.length_readBytes, Bytes.getElem_readBytes]
  by_cases ha : dst ≤ a ∧ a < dst + n
  · rw [dif_pos ⟨ha.1, by omega⟩, if_pos ha]
  · rw [dif_neg (by omega), if_neg ha]

/-! ## The two loops -/

/-- The bottom-up loop, when safe, writes the original source bytes. The induction is on
the bytes left, with the memory and both pointers moving. -/
theorem copyUp_apply : ∀ {n : Nat} {m : Nat → UInt8} {d s : Nat}, UpSafe d s n →
    ∀ a, copyUp m d s n a = if d ≤ a ∧ a < d + n then m (s + (a - d)) else m a
  | 0, m, d, s, _, a => by
    rw [copyUp, if_neg (by omega)]
  | n + 1, m, d, s, h, a => by
    have h' : UpSafe (d + 1) (s + 1) n := fun i j hij hj => by
      have := h (i + 1) (j + 1) (by omega) (by omega)
      omega
    rw [copyUp, copyUp_apply h' a]
    by_cases ha : d + 1 ≤ a ∧ a < d + 1 + n
    · -- the source byte was read before any write reached it
      have hne : s + 1 + (a - (d + 1)) ≠ d := by
        have := h 0 (a - d) (by omega) (by omega)
        omega
      rw [if_pos ha, if_pos (by omega), Function.update_of_ne hne]
      congr 1
      omega
    · rw [if_neg ha]
      by_cases had : a = d
      · rw [had, Function.update_self, if_pos (by omega), Nat.sub_self, Nat.add_zero]
      · rw [Function.update_of_ne had, if_neg (by omega)]

/-- The top-down loop, when safe, writes the original source bytes. -/
theorem copyDown_apply : ∀ {n : Nat} {m : Nat → UInt8} {d s : Nat}, DownSafe d s n →
    ∀ a, copyDown m (d + n) (s + n) n a = if d ≤ a ∧ a < d + n then m (s + (a - d)) else m a
  | 0, m, d, s, _, a => by
    rw [copyDown, if_neg (by omega)]
  | n + 1, m, d, s, h, a => by
    have h' : DownSafe d s n := fun i j hij hi => h i j hij (by omega)
    have hd : d + (n + 1) - 1 = d + n := by omega
    have hs : s + (n + 1) - 1 = s + n := by omega
    rw [copyDown, hd, hs, copyDown_apply h' a]
    by_cases ha : d ≤ a ∧ a < d + n
    · -- the byte read is below every byte written so far
      have hne : s + (a - d) ≠ d + n := by
        have := h n (a - d) (by omega) (by omega)
        omega
      rw [if_pos ha, if_pos (by omega), Function.update_of_ne hne]
    · rw [if_neg ha]
      by_cases had : a = d + n
      · rw [had, Function.update_self, if_pos (by omega), Nat.add_sub_cancel_left]
      · rw [Function.update_of_ne had, if_neg (by omega)]

/-! ## Which loop -/

/-- The bottom-up loop is safe exactly when the destination does not start strictly
inside the source, which is when `memmove`'s test takes it. -/
theorem upSafe_iff {d s n : Nat} : UpSafe d s n ↔ ¬(s < d ∧ s + n > d) := by
  constructor
  · rintro h ⟨hsd, hn⟩
    exact h 0 (d - s) (by omega) (by omega) (by omega)
  · intro h i j hij hj heq
    exact h ⟨by omega, by omega⟩

/-- The top-down loop is safe when the source starts below the destination. -/
theorem downSafe_of_lt {d s n : Nat} (h : s < d) : DownSafe d s n :=
  fun i j hji _ => by omega

theorem memmove_apply (m : Nat → UInt8) (dst src n a : Nat) :
    memmove m dst src n a = if dst ≤ a ∧ a < dst + n then m (src + (a - dst)) else m a := by
  unfold memmove
  split
  · next h => exact copyDown_apply (downSafe_of_lt h.1) a
  · next h => exact copyUp_apply (upSafe_iff.mpr h) a

/-- `memmove` stores the original `n` bytes at `src` from `dst` on, whatever the overlap. -/
theorem memmove_eq (m : Nat → UInt8) (dst src n : Nat) :
    memmove m dst src n = Bytes.writeBytes m dst (Bytes.readBytes m src n) := by
  funext a
  rw [memmove_apply, writeBytes_readBytes_apply]

/-- `memmove` is correct for every overlap: the destination holds the original source
bytes, every other byte is unchanged, and the bottom-up loop is taken exactly when it
cannot overwrite a source byte it has not yet copied. -/
theorem memmove_correct (m : Nat → UInt8) (dst src n : Nat) :
    Bytes.readBytes (memmove m dst src n) dst n = Bytes.readBytes m src n ∧
      (∀ a, a < dst ∨ dst + n ≤ a → memmove m dst src n a = m a) ∧
      (¬(src < dst ∧ src + n > dst) ↔ UpSafe dst src n) := by
  refine ⟨?_, fun a ha => ?_, upSafe_iff.symm⟩
  · have h := Bytes.readBytes_writeBytes_self m dst (Bytes.readBytes m src n)
    rw [Bytes.length_readBytes] at h
    rw [memmove_eq, h]
  · rw [memmove_apply, if_neg (by omega)]

/-- Moving `1 2 3 4` up by two bytes, onto its own upper half, keeps all four bytes. -/
theorem memmove_correct_overlap :
    Bytes.readBytes (memmove (Bytes.writeBytes (fun _ => 0) 0 [1, 2, 3, 4]) 2 0 4) 2 4 = [1, 2, 3, 4] := by
  rw [(memmove_correct (Bytes.writeBytes (fun _ => 0) 0 [1, 2, 3, 4]) 2 0 4).1]
  decide

/-! ## The console's scroll -/

/-- `memmove(crt, crt+80, sizeof(crt[0])*23*80)` in `cgaputc`: each of the first 23 rows of
two-byte cells takes the row below it, and the last row is left as it was. -/
theorem memmove_scroll (m : Nat → UInt8) (crt r k : Nat) (hk : k < 160) :
    memmove m crt (crt + 160) (2 * 23 * 80) (crt + 160 * r + k) =
      if r < 23 then m (crt + 160 * (r + 1) + k) else m (crt + 160 * r + k) := by
  rw [memmove_apply]
  by_cases hr : r < 23
  · rw [if_pos ⟨by omega, by omega⟩, if_pos hr]
    congr 1
    omega
  · rw [if_neg (by omega), if_neg hr]

end Kernel

end Xv6
