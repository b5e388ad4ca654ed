import Mathlib

/-!
# Counting the points of a finite type where a predicate holds

Tables indexed by a finite type (slots of processes, entries of a table) are counted by
the number of indices where a predicate holds, `(Finset.univ.filter P).card`. A step
that changes the predicate at one index changes the count by that index alone
(`card_filter_update`); one that changes it on the row `b` of a table indexed by pairs,
where it held nowhere before, adds the count of the new row (`card_filter_row`). Over
`Fin n` the count is that of a loop over `List.finRange n` (`card_filter_fin`).
-/

namespace Tally

open Finset

theorem card_filter_update {α : Type} [Fintype α] [DecidableEq α] {P Q : α → Prop} [DecidablePred P]
    [DecidablePred Q] (a : α) (h : ∀ x, x ≠ a → (Q x ↔ P x)) :
    (univ.filter Q).card + (if P a then 1 else 0) =
      (univ.filter P).card + (if Q a then 1 else 0) := by
  rw [card_filter, card_filter]
  have hQ := add_sum_erase univ (fun x => if Q x then 1 else 0) (mem_univ a)
  have hP := add_sum_erase univ (fun x => if P x then 1 else 0) (mem_univ a)
  have hrest : ∑ x ∈ univ.erase a, (if Q x then 1 else 0) =
      ∑ x ∈ univ.erase a, (if P x then 1 else 0) :=
    sum_congr rfl fun x hx => by rw [if_congr (h x (ne_of_mem_erase hx)) rfl rfl]
  omega

theorem card_filter_row {β γ : Type} [Fintype β] [Fintype γ] [DecidableEq β] {P Q : β × γ → Prop}
    [DecidablePred P] [DecidablePred Q] (b : β) (h : ∀ x, x.1 ≠ b → (Q x ↔ P x))
    (hP : ∀ y, ¬ P (b, y)) :
    (univ.filter Q).card = (univ.filter P).card + (univ.filter fun y => Q (b, y)).card := by
  rw [card_filter, card_filter, card_filter, Fintype.sum_prod_type, Fintype.sum_prod_type]
  have hQ := add_sum_erase univ (fun x => ∑ y, if Q (x, y) then 1 else 0) (mem_univ b)
  have hP' := add_sum_erase univ (fun x => ∑ y, if P (x, y) then 1 else 0) (mem_univ b)
  have hrest : ∑ x ∈ univ.erase b, ∑ y, (if Q (x, y) then 1 else 0) =
      ∑ x ∈ univ.erase b, ∑ y, (if P (x, y) then 1 else 0) :=
    sum_congr rfl fun x hx => sum_congr rfl fun y _ => by
      rw [if_congr (h (x, y) (ne_of_mem_erase hx)) rfl rfl]
  have hrow : ∑ y, (if P (b, y) then 1 else 0) = 0 :=
    sum_eq_zero fun y _ => if_neg (hP y)
  omega

theorem card_filter_fin {n : Nat} (P : Fin n → Prop) [DecidablePred P] :
    (univ.filter P).card = (List.finRange n).countP fun x => decide (P x) := by
  rw [Fin.univ_def, List.countP_eq_length_filter]
  rfl

end Tally
