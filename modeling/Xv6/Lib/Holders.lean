import Mathlib

/-!
# Ghost lists of holders

Code that counts references keeps a count per object; a proof about it keeps, next to
the counts, a ghost list of pairs `(holder, object)`, one pair per reference. A count is
exact when it is the number of pairs naming its object (`count`). Taking a reference
conses a pair, dropping one erases it.

The lemmas say how the pairs of an object (`of`) move under these two changes, so that a
step on one object leaves the others' pairs alone (`of_cons_of_ne`, `of_erase_of_ne`),
and what an exact count tells: a holder's object has a nonzero count (`count_pos`), and
an object counted once has one holder (`eq_of_count_eq_one`).
-/

namespace Holders

variable {α β : Type} [DecidableEq β]

/-- The pairs naming object `i`. -/
def of (l : List (α × β)) (i : β) : List (α × β) := l.filter (·.2 = i)

/-- The number of references to object `i`. -/
def count (l : List (α × β)) (i : β) : Nat := l.countP (·.2 = i)

theorem count_eq_length_of (l : List (α × β)) (i : β) : count l i = (of l i).length :=
  List.countP_eq_length_filter

theorem mem_of {l : List (α × β)} {i : β} {q : α × β} : q ∈ of l i ↔ q ∈ l ∧ q.2 = i := by
  simp [of]

theorem count_congr {l l' : List (α × β)} {i : β} (h : of l' i = of l i) :
    count l' i = count l i := by
  rw [count_eq_length_of, count_eq_length_of, h]

theorem mem_congr {l l' : List (α × β)} {i : β} (h : of l' i = of l i) (a : α) :
    (a, i) ∈ l' ↔ (a, i) ∈ l := by
  constructor
  · intro hm
    have hm' := mem_of.mpr ⟨hm, rfl⟩
    rw [h] at hm'
    exact (mem_of.mp hm').1
  · intro hm
    have hm' := mem_of.mpr ⟨hm, rfl⟩
    rw [← h] at hm'
    exact (mem_of.mp hm').1

@[simp] theorem count_nil (i : β) : count ([] : List (α × β)) i = 0 := rfl

theorem count_cons (a : α) (i : β) (l : List (α × β)) (j : β) :
    count ((a, i) :: l) j = count l j + if i = j then 1 else 0 := by
  simp [count, List.countP_cons]

@[simp] theorem count_cons_self (a : α) (i : β) (l : List (α × β)) :
    count ((a, i) :: l) i = count l i + 1 := by
  simp [count_cons]

theorem of_cons_of_ne (a : α) {i j : β} (h : i ≠ j) (l : List (α × β)) :
    of ((a, i) :: l) j = of l j := by
  simp [of, h]

theorem count_pos {l : List (α × β)} {a : α} {i : β} (hm : (a, i) ∈ l) : 0 < count l i :=
  List.countP_pos_iff.mpr ⟨(a, i), hm, by simp⟩

theorem count_eq_zero {l : List (α × β)} {i : β} : count l i = 0 ↔ ∀ a, (a, i) ∉ l := by
  simp only [count, List.countP_eq_zero, decide_eq_true_eq]
  exact ⟨fun h a hm => h _ hm rfl, fun h q hq hqi => h q.1 (hqi ▸ hq)⟩

section erase

-- the equality `erase` tests is the pair type's own, whichever instance the caller has
variable [BEq (α × β)] [LawfulBEq (α × β)]

theorem of_erase_of_ne (a : α) {i j : β} (h : i ≠ j) (l : List (α × β)) :
    of (l.erase (a, i)) j = of l j := by
  simp only [of]
  rw [← List.erase_filter, List.erase_of_not_mem]
  simp [h]

/-- Dropping a reference that is held lowers its object's count by one. -/
theorem count_erase {l : List (α × β)} {a : α} {i : β} (hm : (a, i) ∈ l) :
    count (l.erase (a, i)) i + 1 = count l i := by
  have h := (List.perm_cons_erase hm).countP_eq (fun q => decide (q.2 = i))
  simp only [List.countP_cons, decide_true, if_true] at h
  exact h.symm

/-- Dropping a held reference to `i` lowers the count of `i` by one and leaves the
others. -/
theorem count_erase_add {l : List (α × β)} {a : α} {i : β} (hm : (a, i) ∈ l) (j : β) :
    count (l.erase (a, i)) j + (if j = i then 1 else 0) = count l j := by
  by_cases hj : j = i
  · subst hj
    rw [if_pos rfl]
    exact count_erase hm
  · rw [if_neg hj, Nat.add_zero]
    exact count_congr (of_erase_of_ne a (Ne.symm hj) l)

/-- An object counted once has a single holder. -/
theorem eq_of_count_eq_one {l : List (α × β)} {i : β} (h : count l i = 1) {a b : α}
    (ha : (a, i) ∈ l) (hb : (b, i) ∈ l) : a = b := by
  by_contra hab
  have hb' : (b, i) ∈ l.erase (a, i) := (List.mem_erase_of_ne (by simp [Ne.symm hab])).mpr hb
  have := count_erase ha
  have := count_pos hb'
  omega

end erase

end Holders
