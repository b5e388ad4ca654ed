import Mathlib

/-!
# Patterns of atoms and starred atoms

The regular expressions of the matcher in Kernighan and Pike's *The Practice of
Programming*, chapter 9: a sequence of atoms, each a symbol class taken once or starred,
searched for in a text, anchored or not at the start and at the end. `Matches as w` says
the atoms match exactly `w`, `PrefixMatch` that they match at the start of a text (up to
its end when anchored there), and `Pattern.Finds` that a pattern matches a substring.

The lemmas unfold each of these one atom or one symbol at a time, which is how a
backtracking matcher walks them.
-/

namespace Regex

variable {α : Type}

/-! ## Splitting a word -/

/-- A split of `a :: l` whose first part has only symbols satisfying `f`: the split at
the front, or `a` satisfies `f` and the split is one of `l`. -/
theorem exists_prefix_cons {f : α → Prop} {P : List α → Prop} (a : α) (l : List α) :
    (∃ u v, a :: l = u ++ v ∧ (∀ x ∈ u, f x) ∧ P v) ↔
      P (a :: l) ∨ (f a ∧ ∃ u v, l = u ++ v ∧ (∀ x ∈ u, f x) ∧ P v) := by
  constructor
  · rintro ⟨u, v, huv, hu, hv⟩
    cases u with
    | nil => exact Or.inl (by rw [huv]; exact hv)
    | cons b u =>
      obtain ⟨rfl, rfl⟩ := List.cons_eq_cons.mp huv
      exact Or.inr ⟨hu a List.mem_cons_self, u, v, rfl, fun x hx => hu x (List.mem_cons_of_mem a hx), hv⟩
  · rintro (h | ⟨ha, u, v, rfl, hu, hv⟩)
    · exact ⟨[], a :: l, rfl, fun x hx => absurd hx List.not_mem_nil, h⟩
    · refine ⟨a :: u, v, rfl, fun x hx => ?_, hv⟩
      rcases List.mem_cons.mp hx with rfl | hx
      · exact ha
      · exact hu x hx

/-- The only split of the empty word. -/
theorem exists_prefix_nil {f : α → Prop} {P : List α → Prop} :
    (∃ u v, ([] : List α) = u ++ v ∧ (∀ x ∈ u, f x) ∧ P v) ↔ P [] := by
  constructor
  · rintro ⟨u, v, huv, -, hv⟩
    obtain ⟨rfl, rfl⟩ := List.append_eq_nil_iff.mp huv.symm
    exact hv
  · intro h
    exact ⟨[], [], rfl, fun x hx => absurd hx List.not_mem_nil, h⟩

/-- A symbol class: one symbol, or any symbol. -/
inductive Sym (α : Type) where
  | lit (a : α)
  | any
  deriving DecidableEq, Repr

/-- The symbols a class accepts. -/
def Sym.accepts [DecidableEq α] : Sym α → α → Bool
  | .lit a, b => decide (b = a)
  | .any, _ => true

/-- An atom: a symbol class once, or starred. -/
inductive Atom (α : Type) where
  | one (s : Sym α)
  | star (s : Sym α)
  deriving DecidableEq, Repr

variable [DecidableEq α]

/-- `Matches as w`: the atoms `as` match exactly the word `w`. -/
inductive Matches : List (Atom α) → List α → Prop
  | nil : Matches [] []
  | one {s : Sym α} {a : α} {as : List (Atom α)} {w : List α} :
      s.accepts a = true → Matches as w → Matches (.one s :: as) (a :: w)
  | starNil {s : Sym α} {as : List (Atom α)} {w : List α} :
      Matches as w → Matches (.star s :: as) w
  | starCons {s : Sym α} {a : α} {as : List (Atom α)} {w : List α} :
      s.accepts a = true → Matches (.star s :: as) w → Matches (.star s :: as) (a :: w)

/-- A pattern: its atoms, and whether it is anchored at the start and at the end. -/
structure Pattern (α : Type) where
  start : Bool
  atoms : List (Atom α)
  stop : Bool

/-- The atoms match a prefix of `w`, all of `w` when `stop` anchors them at the end. -/
def PrefixMatch (as : List (Atom α)) (stop : Bool) (w : List α) : Prop :=
  ∃ v rest, w = v ++ rest ∧ Matches as v ∧ (stop = true → rest = [])

/-- The pattern matches a substring of `text`, at its start when anchored there and at
its end when anchored there. -/
def Pattern.Finds (p : Pattern α) (text : List α) : Prop :=
  ∃ u v w, text = u ++ v ++ w ∧ Matches p.atoms v ∧ (p.start = true → u = []) ∧
    (p.stop = true → w = [])

/-! ## One atom at a time -/

theorem matches_nil_iff {w : List α} : Matches [] w ↔ w = [] := by
  constructor
  · intro h
    cases h
    rfl
  · rintro rfl
    exact .nil

theorem matches_one_iff {s : Sym α} {as : List (Atom α)} {w : List α} :
    Matches (.one s :: as) w ↔ ∃ a w', w = a :: w' ∧ s.accepts a = true ∧ Matches as w' := by
  constructor
  · intro h
    cases h with
    | one ha h => exact ⟨_, _, rfl, ha, h⟩
  · rintro ⟨a, w', rfl, ha, h⟩
    exact .one ha h

/-- A starred atom takes a run of accepted symbols, then the rest of the atoms match. -/
theorem matches_star_iff {s : Sym α} {as : List (Atom α)} {w : List α} :
    Matches (.star s :: as) w ↔ ∃ u v, w = u ++ v ∧ (∀ a ∈ u, s.accepts a = true) ∧ Matches as v := by
  constructor
  · intro h
    -- induction on the derivation, whose atoms stay `.star s :: as`
    generalize hl : Atom.star s :: as = l at h
    induction h with
    | nil => cases hl
    | one _ _ => cases hl
    | starNil h _ =>
      cases hl
      exact ⟨[], _, rfl, fun a ha => absurd ha List.not_mem_nil, h⟩
    | starCons ha _ ih =>
      cases hl
      obtain ⟨u, v, rfl, hu, hv⟩ := ih rfl
      refine ⟨_ :: u, v, rfl, fun b hb => ?_, hv⟩
      rcases List.mem_cons.mp hb with rfl | hb
      · exact ha
      · exact hu b hb
  · rintro ⟨u, v, rfl, hu, hv⟩
    induction u with
    | nil => exact .starNil hv
    | cons a u ih =>
      exact .starCons (hu a List.mem_cons_self) (ih fun b hb => hu b (List.mem_cons_of_mem a hb))

/-! ## Prefixes -/

theorem prefixMatch_nil {stop : Bool} {w : List α} :
    PrefixMatch [] stop w ↔ (stop = true → w = []) := by
  constructor
  · rintro ⟨v, rest, rfl, hv, hrest⟩
    rw [matches_nil_iff.mp hv, List.nil_append]
    exact hrest
  · intro h
    exact ⟨[], w, rfl, .nil, h⟩

theorem prefixMatch_one {s : Sym α} {as : List (Atom α)} {stop : Bool} {w : List α} :
    PrefixMatch (.one s :: as) stop w ↔
      ∃ a w', w = a :: w' ∧ s.accepts a = true ∧ PrefixMatch as stop w' := by
  constructor
  · rintro ⟨v, rest, rfl, hv, hrest⟩
    obtain ⟨a, v', rfl, ha, hv'⟩ := matches_one_iff.mp hv
    exact ⟨a, v' ++ rest, rfl, ha, v', rest, rfl, hv', hrest⟩
  · rintro ⟨a, w', rfl, ha, v, rest, rfl, hv, hrest⟩
    exact ⟨a :: v, rest, rfl, .one ha hv, hrest⟩

theorem prefixMatch_star {s : Sym α} {as : List (Atom α)} {stop : Bool} {w : List α} :
    PrefixMatch (.star s :: as) stop w ↔
      ∃ u v, w = u ++ v ∧ (∀ a ∈ u, s.accepts a = true) ∧ PrefixMatch as stop v := by
  constructor
  · rintro ⟨v, rest, rfl, hv, hrest⟩
    obtain ⟨u, v', rfl, hu, hv'⟩ := matches_star_iff.mp hv
    exact ⟨u, v' ++ rest, List.append_assoc u v' rest, hu, v', rest, rfl, hv', hrest⟩
  · rintro ⟨u, v, rfl, hu, v', rest, rfl, hv', hrest⟩
    exact ⟨u ++ v', rest, (List.append_assoc u v' rest).symm, matches_star_iff.mpr ⟨u, v', rfl, hu, hv'⟩,
      hrest⟩

/-! ## Searching -/

/-- A pattern anchored at the start matches at the start. -/
theorem finds_of_start {p : Pattern α} (hp : p.start = true) {text : List α} :
    p.Finds text ↔ PrefixMatch p.atoms p.stop text := by
  constructor
  · rintro ⟨u, v, w, rfl, hv, hu, hw⟩
    rw [hu hp, List.nil_append]
    exact ⟨v, w, rfl, hv, hw⟩
  · rintro ⟨v, w, rfl, hv, hw⟩
    exact ⟨[], v, w, rfl, hv, fun _ => rfl, hw⟩

/-- A pattern free at the start matches at the start of some suffix. -/
theorem finds_of_not_start {p : Pattern α} (hp : p.start = false) {text : List α} :
    p.Finds text ↔ ∃ u w, text = u ++ w ∧ (∀ x ∈ u, True) ∧ PrefixMatch p.atoms p.stop w := by
  constructor
  · rintro ⟨u, v, w, rfl, hv, -, hw⟩
    exact ⟨u, v ++ w, List.append_assoc u v w, fun _ _ => trivial, v, w, rfl, hv, hw⟩
  · rintro ⟨u, w', rfl, -, v, w, rfl, hv, hw⟩
    exact ⟨u, v, w, (List.append_assoc u v w).symm, hv, fun h => absurd (hp ▸ h) Bool.false_ne_true, hw⟩

end Regex
