import Xv6.User.Grep
import Xv6.Lib.Regex

/-!
# What grep's matcher matches

`match`, `matchhere` and `matchstar` of `grep.c` against the patterns of `Regex`. A
pattern byte followed by `*` is a starred atom, `.` is any byte, a `$` that ends the
pattern anchors it at the end of the text, a leading `^` anchors it at the start, and any
other byte, a `$` elsewhere, a leading `*` or a later `^`, is itself (`reAtoms`,
`rePattern`). `match'` accepts a text exactly when the pattern matches one of its
substrings (`match_finds`); the three functions are structural recursions, on the pattern
and on the text, so they end on every input.
-/

namespace Xv6

open Regex

/-- The class of a pattern byte: `.` is any byte. -/
def reSym (c : UInt8) : Sym UInt8 := if c = '.'.toUInt8 then .any else .lit c

/-- The atoms a pattern without its leading `^` stands for, and whether a final `$`
anchors it at the end: `c*` where a byte is followed by `*`, else the byte itself, and the
last `$` the anchor. -/
def reAtoms : List UInt8 → List (Atom UInt8) × Bool
  | [] => ([], false)
  | c :: rest =>
    let one := (.one (reSym c) :: (reAtoms rest).1, (reAtoms rest).2)
    match rest with
    | d :: re => if d = '*'.toUInt8 then (.star (reSym c) :: (reAtoms re).1, (reAtoms re).2) else one
    | [] => if c = '$'.toUInt8 then ([], true) else one

example : reAtoms [0x61, 0x2A, 0x2E, 0x24] = ([.star (.lit 0x61), .one .any], true) := by decide

/-- The pattern a regular expression of grep stands for. -/
def rePattern (re : List UInt8) : Pattern UInt8 :=
  if re.head? = some '^'.toUInt8 then ⟨true, (reAtoms re.tail).1, (reAtoms re.tail).2⟩
  else ⟨false, (reAtoms re).1, (reAtoms re).2⟩

/-- The test `re[0]=='.' || re[0]==*text` is the class of `re[0]`. -/
theorem reSym_accepts (c t : UInt8) : (reSym c).accepts t = decide (c = '.'.toUInt8 ∨ c = t) := by
  unfold reSym
  by_cases hc : c = '.'.toUInt8
  · rw [if_pos hc, decide_eq_true (Or.inl hc)]
    rfl
  · rw [if_neg hc]
    simp only [Sym.accepts, hc, false_or, eq_comm]

/-- `matchstar(c, re, text)` tries `re` after every run of `c` at the front of `text`. -/
theorem matchstar_iff (here : List UInt8 → Bool) (c : UInt8) :
    ∀ text, matchstar here c text = true ↔
      ∃ u v, text = u ++ v ∧ (∀ a ∈ u, (reSym c).accepts a = true) ∧ here v = true
  | [] => by
    rw [exists_prefix_nil]
    rfl
  | t :: text => by
    rw [exists_prefix_cons, ← matchstar_iff here c text, matchstar, reSym_accepts]
    simp only [Bool.or_eq_true, Bool.and_eq_true, decide_eq_true_eq, @eq_comm _ t]
    rw [@or_comm (c = t)]

/-- The one-byte step of `matchhere`: the byte matches its class and the rest of the
pattern matches after it. -/
theorem matchhere_step_iff (c : UInt8) {f : List UInt8 → Bool} {as : List (Atom UInt8)} {stop : Bool}
    (hf : ∀ w, f w = true ↔ PrefixMatch as stop w) (text : List UInt8) :
    (match text with
      | t :: text => decide (c = '.'.toUInt8 ∨ c = t) && f text
      | [] => false) = true ↔ PrefixMatch (.one (reSym c) :: as) stop text := by
  rw [prefixMatch_one]
  cases text with
  | nil =>
    constructor
    · intro h
      cases h
    · rintro ⟨a, w', h, -⟩
      cases h
  | cons t text =>
    simp only [Bool.and_eq_true, hf, reSym_accepts, List.cons.injEq]
    constructor
    · rintro ⟨ht, hw⟩
      exact ⟨t, text, ⟨rfl, rfl⟩, ht, hw⟩
    · rintro ⟨a, w', ⟨rfl, rfl⟩, ha, hw⟩
      exact ⟨ha, hw⟩

/-- `matchhere(re, text)` holds exactly when the atoms of `re` match a prefix of
`text`, all of it when `re` ends in `$`. The induction follows `reAtoms`, which reads the
pattern as `matchhere` does. -/
theorem matchhere_iff : ∀ re text : List UInt8,
    matchhere re text = true ↔ PrefixMatch (reAtoms re).1 (reAtoms re).2 text := by
  intro re
  induction re using reAtoms.induct with
  | case1 =>
    intro text
    simp only [matchhere, reAtoms, prefixMatch_nil, Bool.false_eq_true, false_implies]
  | case2 c re _ ih =>
    intro text
    simp only [matchhere, reAtoms, if_pos, prefixMatch_star, matchstar_iff, ih]
  | case3 c d re hd ih =>
    intro text
    simp only [matchhere, if_neg hd]
    have hre : reAtoms (c :: d :: re) = (.one (reSym c) :: (reAtoms (d :: re)).1, (reAtoms (d :: re)).2) := by
      rw [reAtoms]
      simp only [if_neg hd]
    rw [hre]
    exact matchhere_step_iff c ih text
  | case4 _ =>
    intro text
    simp only [matchhere, reAtoms, if_pos, prefixMatch_nil, List.isEmpty_iff, forall_const]
  | case5 c hc ih =>
    intro text
    simp only [matchhere, if_neg hc]
    have hre : reAtoms [c] = ([.one (reSym c)], false) := by
      simp only [reAtoms, if_neg hc]
    rw [hre]
    exact matchhere_step_iff c ih text

/-- The loop of `match` tries `matchhere` at every suffix of `text`, the empty one
included. -/
theorem matchFrom_iff (re : List UInt8) : ∀ text, matchFrom re text = true ↔
    ∃ u w, text = u ++ w ∧ (∀ x ∈ u, True) ∧ matchhere re w = true
  | [] => by
    rw [exists_prefix_nil]
    rfl
  | t :: text => by
    rw [exists_prefix_cons, ← matchFrom_iff re text, matchFrom, Bool.or_eq_true, true_and]

/-- `match(re, text)` returns 1 exactly when the pattern `re` stands for matches a
substring of `text`, at its start when `re` begins with `^` and at its end when `re`
ends in `$`. -/
theorem match_finds (re text : List UInt8) : match' re text = true ↔ (rePattern re).Finds text := by
  unfold match' rePattern
  by_cases hre : re.head? = some '^'.toUInt8
  · rw [if_pos hre, if_pos hre, finds_of_start rfl, matchhere_iff]
  · rw [if_neg hre, if_neg hre, finds_of_not_start rfl, matchFrom_iff]
    simp only [matchhere_iff]

/-- `a*b$` is found in `xaab`, as the matcher reports. -/
theorem match_finds_star_end : (rePattern [0x61, 0x2A, 0x62, 0x24]).Finds [0x78, 0x61, 0x61, 0x62] :=
  (match_finds _ _).mp (by decide)

end Xv6
