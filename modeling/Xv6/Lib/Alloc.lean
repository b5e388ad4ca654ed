import Mathlib

/-!
# Bitmap allocators

A bitmap allocator hands out the blocks of a range `[lo, hi)` to holders; the blocks
below `lo` are reserved. `used b` is the bitmap bit of block `b`, `held p` is the
block holder `p` holds (`0` for none), and `zero b` says that block `b` is blank.
`Inv` is what such an allocator keeps: held blocks lie in the range and belong to
one holder each, a block's bit is set exactly when it is reserved or held, and a
block whose bit is clear is blank, so a newly allocated block needs no clearing.

`Inv.alloc` and `Inv.free` are the two transitions: give a clear block to a holder
that had none, or take a holder's block back, blank it and clear its bit.
-/

namespace Alloc

variable {α : Type*}

structure Inv (lo hi : Nat) (used : Nat → Bool) (zero : Nat → Prop) (held : α → Nat) : Prop where
  held_mem : ∀ p, held p ≠ 0 → lo ≤ held p ∧ held p < hi
  held_inj : ∀ p q, held p ≠ 0 → held p = held q → p = q
  used_iff : ∀ b, b < hi → (used b = true ↔ b < lo ∨ ∃ p, held p = b)
  zero_of_free : ∀ b, b < hi → used b = false → zero b

variable {lo hi : Nat} {used used' : Nat → Bool} {zero zero' : Nat → Prop} {held : α → Nat}

theorem Inv.used_held (h : Inv lo hi used zero held) {p : α} (hp : held p ≠ 0) :
    used (held p) = true :=
  (h.used_iff _ (h.held_mem p hp).2).mpr (.inr ⟨p, rfl⟩)

/-- A block whose bit is clear is a data block that nobody holds. -/
theorem Inv.free_block (h : Inv lo hi used zero held) {b : Nat} (hb : b < hi)
    (hf : used b = false) : lo ≤ b ∧ ∀ p, held p ≠ b := by
  have hn : ¬ (b < lo ∨ ∃ p, held p = b) := by
    rw [← h.used_iff b hb, hf]
    simp
  rw [not_or, not_exists] at hn
  exact ⟨Nat.le_of_not_lt hn.1, hn.2⟩

theorem Inv.alloc [DecidableEq α] (h : Inv lo hi used zero held) (hlo : 0 < lo) {b : Nat}
    {p : α} (hb : b < hi) (hf : used b = false) (hp : held p = 0)
    (hused : ∀ x, used' x = if x = b then true else used x)
    (hzero : ∀ x, x < hi → x ≠ b → used x = false → zero x → zero' x) :
    Inv lo hi used' zero' (Function.update held p b) := by
  obtain ⟨hlob, hnone⟩ := h.free_block hb hf
  constructor
  · intro q hq
    by_cases hqp : q = p
    · subst hqp
      simpa using ⟨hlob, hb⟩
    · rw [Function.update_of_ne hqp] at hq ⊢
      exact h.held_mem q hq
  · intro q r hq hqr
    by_cases hqp : q = p <;> by_cases hrp : r = p
    · rw [hqp, hrp]
    · subst hqp
      rw [Function.update_self, Function.update_of_ne hrp] at hqr
      exact absurd hqr.symm (hnone r)
    · subst hrp
      rw [Function.update_self, Function.update_of_ne hqp] at hqr
      exact absurd hqr (hnone q)
    · rw [Function.update_of_ne hqp, Function.update_of_ne hrp] at hqr
      rw [Function.update_of_ne hqp] at hq
      exact h.held_inj q r hq hqr
  · intro x hx
    rw [hused x]
    by_cases hxb : x = b
    · subst hxb
      simp only [if_true, true_iff]
      exact .inr ⟨p, by simp⟩
    · rw [if_neg hxb, h.used_iff x hx]
      -- holder `p` now holds `b ≠ x`, and held nothing before
      constructor
      · rintro (hlt | ⟨q, hq⟩)
        · exact .inl hlt
        · by_cases hqp : q = p
          · subst hqp
            exact .inl (by omega)
          · exact .inr ⟨q, by rwa [Function.update_of_ne hqp]⟩
      · rintro (hlt | ⟨q, hq⟩)
        · exact .inl hlt
        · by_cases hqp : q = p
          · subst hqp
            simp at hq
            exact absurd hq.symm hxb
          · exact .inr ⟨q, by rwa [Function.update_of_ne hqp] at hq⟩
  · intro x hx hfx
    have hxb : x ≠ b := by
      rintro rfl
      rw [hused] at hfx
      simp at hfx
    rw [hused, if_neg hxb] at hfx
    exact hzero x hx hxb hfx (h.zero_of_free x hx hfx)

theorem Inv.free [DecidableEq α] (h : Inv lo hi used zero held) (hlo : 0 < lo) {p : α}
    (hp : held p ≠ 0)
    (hused : ∀ x, used' x = if x = held p then false else used x)
    (hzp : zero' (held p))
    (hzero : ∀ x, x < hi → x ≠ held p → used x = false → zero x → zero' x) :
    Inv lo hi used' zero' (Function.update held p 0) := by
  obtain ⟨hlob, hbhi⟩ := h.held_mem p hp
  constructor
  · intro q hq
    by_cases hqp : q = p
    · subst hqp
      simp at hq
    · rw [Function.update_of_ne hqp] at hq ⊢
      exact h.held_mem q hq
  · intro q r hq hqr
    by_cases hqp : q = p
    · subst hqp
      simp at hq
    · rw [Function.update_of_ne hqp] at hq hqr
      by_cases hrp : r = p
      · subst hrp
        simp at hqr
        exact absurd hqr hq
      · rw [Function.update_of_ne hrp] at hqr
        exact h.held_inj q r hq hqr
  · intro x hx
    rw [hused x]
    by_cases hxb : x = held p
    · subst hxb
      simp only [if_true, Bool.false_eq_true, false_iff]
      rintro (hlt | ⟨q, hq⟩)
      · omega
      · by_cases hqp : q = p
        · subst hqp
          simp at hq
          exact hp hq.symm
        · rw [Function.update_of_ne hqp] at hq
          exact hqp (h.held_inj q p (by rw [hq]; exact hp) hq)
    · rw [if_neg hxb, h.used_iff x hx]
      constructor
      · rintro (hlt | ⟨q, hq⟩)
        · exact .inl hlt
        · have hqp : q ≠ p := by rintro rfl; exact hxb hq.symm
          exact .inr ⟨q, by rwa [Function.update_of_ne hqp]⟩
      · rintro (hlt | ⟨q, hq⟩)
        · exact .inl hlt
        · by_cases hqp : q = p
          · subst hqp
            simp at hq
            exact .inl (by omega)
          · exact .inr ⟨q, by rwa [Function.update_of_ne hqp] at hq⟩
  · intro x hx hfx
    by_cases hxb : x = held p
    · rw [hxb]
      exact hzp
    · rw [hused, if_neg hxb] at hfx
      exact hzero x hx hxb hfx (h.zero_of_free x hx hfx)

/-- The invariant only looks at the bits of the range and at the blanking of blocks
whose bit is clear. -/
theorem Inv.congr {held' : α → Nat} (h : Inv lo hi used zero held)
    (hused : ∀ b, b < hi → used' b = used b) (hheld : ∀ p, held' p = held p)
    (hzero : ∀ b, b < hi → used b = false → zero b → zero' b) : Inv lo hi used' zero' held' where
  held_mem p hp := by
    rw [hheld] at hp ⊢
    exact h.held_mem p hp
  held_inj p q hp hpq := by
    rw [hheld, hheld] at hpq
    rw [hheld] at hp
    exact h.held_inj p q hp hpq
  used_iff b hb := by
    simp only [hused b hb, hheld]
    exact h.used_iff b hb
  zero_of_free b hb hf := by
    rw [hused b hb] at hf
    exact hzero b hb hf (h.zero_of_free b hb hf)

/-! ## The count of clear bits

`nfree hi used` is the number of blocks of `[0, hi)` whose bit is clear, what the
allocator can still hand out. Setting one clear bit lowers it by one, and it is zero
exactly when every bit is set. -/

/-- The number of clear bits below `hi`. -/
def nfree (hi : Nat) (used : Nat → Bool) : Nat :=
  ((Finset.range hi).filter fun b => used b = false).card

theorem nfree_congr (hused : ∀ b, b < hi → used' b = used b) : nfree hi used' = nfree hi used := by
  unfold nfree
  congr 1
  refine Finset.filter_congr fun b hb => ?_
  rw [hused b (Finset.mem_range.mp hb)]

/-- Setting a clear bit of the range: one block fewer is free. -/
theorem nfree_set {b : Nat} (hb : b < hi) (hf : used b = false)
    (hused : ∀ x, x < hi → used' x = (decide (b = x) || used x)) :
    nfree hi used' + 1 = nfree hi used := by
  have hmem : b ∈ (Finset.range hi).filter fun x => used x = false := by simp [hb, hf]
  have hset : (Finset.range hi).filter (fun x => used' x = false) =
      ((Finset.range hi).filter fun x => used x = false).erase b := by
    ext x
    simp only [Finset.mem_filter, Finset.mem_range, Finset.mem_erase]
    constructor
    · rintro ⟨hx, hx'⟩
      rw [hused x hx, Bool.or_eq_false_iff, decide_eq_false_iff_not] at hx'
      exact ⟨Ne.symm hx'.1, hx, hx'.2⟩
    · rintro ⟨hxb, hx, hx'⟩
      rw [hused x hx, decide_eq_false (Ne.symm hxb), hx']
      exact ⟨hx, rfl⟩
  rw [nfree, hset, Finset.card_erase_add_one hmem]
  rfl

theorem nfree_eq_zero_iff : nfree hi used = 0 ↔ ∀ b, b < hi → used b = true := by
  simp [nfree, Finset.filter_eq_empty_iff]

end Alloc
