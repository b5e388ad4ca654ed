import Mathlib

/-!
# The shell's tokens

`gettoken` and `peek` of `sh.c` on the command line `s`, the bytes before its NUL: a
pointer into the line is a position in `s`, `es` is `s.length`, and `*p` reads the NUL
at and past the end (`ch`). `lex` is what `gettoken` reads, call after call, from a
position: each token with what `gettoken` returns for it and where it starts and ends.

A word is a maximal run of bytes that are neither NUL, whitespace nor one of `<|>&;()`
(`IsWord`). The words `lex` reads from the start of a line without NUL are exactly the
line's words (`mem_wordSpans_iff`), in order (`wordSpans_pairwise`).
-/

namespace Xv6.Sh

/-- `char whitespace[] = " \t\r\n\v";` -/
def whitespace : List UInt8 := [' ', '\t', '\r', '\n', '\x0b'].map Char.toUInt8

/-- `char symbols[] = "<|>&;()";` -/
def symbols : List UInt8 := ['<', '|', '>', '&', ';', '(', ')'].map Char.toUInt8

/-- `strchr(s, c) != 0` of `ulib.c` for a string `s` with no NUL: the scan stops at the
NUL, so `c = 0` is never found. -/
def strchr (s : List UInt8) (c : UInt8) : Bool := s.contains c

/-- `*p`: the byte at `p`, the NUL at and past the end of the line. -/
def ch (s : List UInt8) (p : Nat) : UInt8 := s.getD p 0

/-- `while(s < es && strchr(whitespace, *s)) s++;` -/
def skipWs (s : List UInt8) (p : Nat) : Nat :=
  if p < s.length ∧ strchr whitespace (ch s p) then skipWs s (p + 1) else p
termination_by s.length - p

/-- `while(s < es && !strchr(whitespace, *s) && !strchr(symbols, *s)) s++;` -/
def skipWord (s : List UInt8) (p : Nat) : Nat :=
  if p < s.length ∧ !strchr whitespace (ch s p) ∧ !strchr symbols (ch s p) then
    skipWord s (p + 1)
  else p
termination_by s.length - p

/-- The `switch(*s)` of `gettoken` at the token's first byte `q`: what `gettoken`
returns, and where the token ends. -/
def scan (s : List UInt8) (q : Nat) : UInt8 × Nat :=
  if ch s q = 0 then (0, q)
  else if ch s q ∈ ['|', '(', ')', ';', '&', '<'].map Char.toUInt8 then (ch s q, q + 1)
  else if ch s q = '>'.toUInt8 then
    if ch s (q + 1) = '>'.toUInt8 then ('+'.toUInt8, q + 2) else (ch s q, q + 1)
  else ('a'.toUInt8, skipWord s q)

/-- `gettoken(ps, es, &q, &eq)`: what it returns, `q`, `eq` and the new `*ps`. -/
def gettoken (s : List UInt8) (p : Nat) : UInt8 × Nat × Nat × Nat :=
  ((scan s (skipWs s p)).1, skipWs s p, (scan s (skipWs s p)).2,
    skipWs s (scan s (skipWs s p)).2)

/-- `peek(ps, es, toks)`: what it returns, and the new `*ps`. -/
def peek (s : List UInt8) (p : Nat) (toks : List UInt8) : Bool × Nat :=
  (ch s (skipWs s p) != 0 && strchr toks (ch s (skipWs s p)), skipWs s p)

/-! ## Bytes -/

/-- A byte that can be part of a word. -/
def WordChar (c : UInt8) : Prop := c ≠ 0 ∧ c ∉ whitespace ∧ c ∉ symbols

instance : DecidablePred WordChar := fun _ => inferInstanceAs (Decidable (_ ∧ _ ∧ _))

@[simp] theorem strchr_eq_true {t : List UInt8} {c : UInt8} : strchr t c = true ↔ c ∈ t :=
  List.contains_iff_mem

@[simp] theorem strchr_eq_false {t : List UInt8} {c : UInt8} : strchr t c = false ↔ c ∉ t := by
  rw [← strchr_eq_true, Bool.not_eq_true]

theorem lt_length_of_ch_ne_zero {s : List UInt8} {p : Nat} (h : ch s p ≠ 0) : p < s.length := by
  by_contra hp
  exact h (List.getD_eq_default _ _ (by omega))

theorem ch_ne_zero {s : List UInt8} (hs : 0 ∉ s) {p : Nat} (h : p < s.length) : ch s p ≠ 0 := by
  rw [ch, List.getD_eq_getElem _ _ h]
  exact fun h0 => hs (h0 ▸ List.getElem_mem h)

theorem zero_not_mem_whitespace : (0 : UInt8) ∉ whitespace := by decide

theorem zero_not_mem_symbols : (0 : UInt8) ∉ symbols := by decide

/-! ## The two scanning loops -/

section Scan

variable {s : List UInt8}

theorem le_skipWs (s : List UInt8) (p : Nat) : p ≤ skipWs s p := by
  fun_induction skipWs s p <;> omega

/-- Every byte `skipWs` passes is whitespace. -/
theorem skipWs_space {p i : Nat} (h1 : p ≤ i) (h2 : i < skipWs s p) : ch s i ∈ whitespace := by
  fun_induction skipWs s p with
  | case1 p hc ih =>
    rcases Nat.eq_or_lt_of_le h1 with rfl | h
    · exact strchr_eq_true.mp hc.2
    · exact ih (by omega) h2
  | case2 p _ => omega

/-- `skipWs` stops at the end or at a byte that is no whitespace. -/
theorem skipWs_stop (s : List UInt8) (p : Nat) (h : skipWs s p < s.length) :
    ch s (skipWs s p) ∉ whitespace := by
  fun_induction skipWs s p with
  | case1 p _ ih => exact ih h
  | case2 p hc =>
    intro hw
    exact hc ⟨h, strchr_eq_true.mpr hw⟩

theorem skipWs_of_stop {p : Nat} (h : ¬ (p < s.length ∧ ch s p ∈ whitespace)) : skipWs s p = p := by
  rw [skipWs, if_neg (by rwa [strchr_eq_true])]

theorem skipWs_skipWs (s : List UInt8) (p : Nat) : skipWs s (skipWs s p) = skipWs s p :=
  skipWs_of_stop fun h => skipWs_stop s p h.1 h.2

theorem skipWs_le_length {p : Nat} (h : p ≤ s.length) : skipWs s p ≤ s.length := by
  fun_induction skipWs s p with
  | case1 p hc ih => exact ih hc.1
  | case2 p _ => exact h

theorem le_skipWord (s : List UInt8) (p : Nat) : p ≤ skipWord s p := by
  fun_induction skipWord s p <;> omega

/-- Every byte `skipWord` passes is in the line and neither whitespace nor a symbol. -/
theorem skipWord_word {p i : Nat} (h1 : p ≤ i) (h2 : i < skipWord s p) :
    i < s.length ∧ ch s i ∉ whitespace ∧ ch s i ∉ symbols := by
  fun_induction skipWord s p with
  | case1 p hc ih =>
    rcases Nat.eq_or_lt_of_le h1 with rfl | h
    · simp only [Bool.not_eq_eq_eq_not, Bool.not_true, strchr_eq_false] at hc
      exact hc
    · exact ih (by omega) h2
  | case2 p _ => omega

/-- `skipWord` stops at the end, at whitespace or at a symbol. -/
theorem skipWord_stop (s : List UInt8) (p : Nat) (h : skipWord s p < s.length) :
    ch s (skipWord s p) ∈ whitespace ∨ ch s (skipWord s p) ∈ symbols := by
  fun_induction skipWord s p with
  | case1 p _ ih => exact ih h
  | case2 p hc =>
    by_contra hn
    simp only [not_or] at hn
    apply hc
    simp only [h, Bool.not_eq_eq_eq_not, Bool.not_true, strchr_eq_false, true_and]
    exact hn

theorem lt_skipWord {p : Nat} (hp : p < s.length) (hw : ch s p ∉ whitespace) (hs : ch s p ∉ symbols) :
    p < skipWord s p := by
  have hc : p < s.length ∧ !strchr whitespace (ch s p) ∧ !strchr symbols (ch s p) := by
    simp only [Bool.not_eq_eq_eq_not, Bool.not_true, strchr_eq_false]
    exact ⟨hp, hw, hs⟩
  rw [skipWord, if_pos hc]
  exact Nat.lt_of_lt_of_le (Nat.lt_succ_self p) (le_skipWord s (p + 1))

theorem skipWord_le_length {p : Nat} (h : p ≤ s.length) : skipWord s p ≤ s.length := by
  fun_induction skipWord s p with
  | case1 p hc ih => exact ih hc.1
  | case2 p _ => exact h

end Scan

/-! ## One token -/

theorem mem_symbols_iff {c : UInt8} :
    c ∈ symbols ↔ c ∈ ['|', '(', ')', ';', '&', '<'].map Char.toUInt8 ∨ c = '>'.toUInt8 := by
  simp only [symbols, List.map_cons, List.map_nil, List.mem_cons, List.not_mem_nil, or_false]
  tauto

/-- `gettoken`'s `switch`, case by case: the NUL, a one-byte symbol, `>>`, `>`, or a
word. -/
theorem scan_cases (s : List UInt8) (q : Nat) :
    (ch s q = 0 ∧ scan s q = (0, q)) ∨
    (ch s q ∈ symbols ∧ ch s q ≠ '>'.toUInt8 ∧ scan s q = (ch s q, q + 1)) ∨
    (ch s q = '>'.toUInt8 ∧ ch s (q + 1) = '>'.toUInt8 ∧ scan s q = ('+'.toUInt8, q + 2)) ∨
    (ch s q = '>'.toUInt8 ∧ ch s (q + 1) ≠ '>'.toUInt8 ∧ scan s q = ('>'.toUInt8, q + 1)) ∨
    (ch s q ≠ 0 ∧ ch s q ∉ symbols ∧ scan s q = ('a'.toUInt8, skipWord s q)) := by
  unfold scan
  by_cases h0 : ch s q = 0
  · exact .inl ⟨h0, if_pos h0⟩
  rw [if_neg h0]
  by_cases h1 : ch s q ∈ ['|', '(', ')', ';', '&', '<'].map Char.toUInt8
  · rw [if_pos h1]
    refine .inr (.inl ⟨mem_symbols_iff.mpr (.inl h1), ?_, rfl⟩)
    simp only [List.map_cons, List.map_nil, List.mem_cons, List.not_mem_nil, or_false] at h1
    rcases h1 with h | h | h | h | h | h <;> rw [h] <;> decide
  rw [if_neg h1]
  by_cases h2 : ch s q = '>'.toUInt8
  · rw [if_pos h2]
    by_cases h3 : ch s (q + 1) = '>'.toUInt8
    · exact .inr (.inr (.inl ⟨h2, h3, if_pos h3⟩))
    · exact .inr (.inr (.inr (.inl ⟨h2, h3, by rw [if_neg h3, h2]⟩)))
  · rw [if_neg h2]
    refine .inr (.inr (.inr (.inr ⟨h0, fun hs => ?_, rfl⟩)))
    rcases mem_symbols_iff.mp hs with h | h
    · exact h1 h
    · exact h2 h

/-- A token `gettoken` returns other than the NUL ends past where it starts, at or before
the end of the line. -/
theorem scan_lt {s : List UInt8} {q : Nat} (hq : q < s.length → ch s q ∉ whitespace)
    (h : (scan s q).1 ≠ 0) : q < (scan s q).2 ∧ (scan s q).2 ≤ s.length := by
  have hlt : ch s q ≠ 0 → q < s.length := lt_length_of_ch_ne_zero
  rcases scan_cases s q with ⟨h0, he⟩ | ⟨h0, -, he⟩ | ⟨h0, h1, he⟩ | ⟨h0, -, he⟩ | ⟨h0, hs, he⟩ <;>
    rw [he] at h ⊢
  · exact absurd rfl h
  · have := hlt fun hz => zero_not_mem_symbols (hz ▸ h0)
    exact ⟨by omega, by omega⟩
  · have : q + 1 < s.length := lt_length_of_ch_ne_zero (by rw [h1]; decide)
    exact ⟨by omega, by omega⟩
  · have := hlt (by rw [h0]; decide)
    exact ⟨by omega, by omega⟩
  · have hq' := hlt h0
    exact ⟨lt_skipWord hq' (hq hq') hs, skipWord_le_length hq'.le⟩

theorem le_scan (s : List UInt8) (q : Nat) : q ≤ (scan s q).2 := by
  rcases scan_cases s q with ⟨-, he⟩ | ⟨-, -, he⟩ | ⟨-, -, he⟩ | ⟨-, -, he⟩ | ⟨-, -, he⟩ <;>
    simp only [he, le_refl, Nat.le_succ, Nat.le_add_right, le_skipWord]

theorem le_gettoken (s : List UInt8) (p : Nat) : p ≤ (gettoken s p).2.2.2 :=
  ((le_skipWs s p).trans (le_scan s _)).trans (le_skipWs s _)

/-- A token other than the NUL moves `gettoken` forward. -/
theorem gettoken_progress {s : List UInt8} {p : Nat} (h : (gettoken s p).1 ≠ 0) :
    p < (gettoken s p).2.2.2 ∧ (gettoken s p).2.2.2 ≤ s.length := by
  have hs := scan_lt (skipWs_stop s p) h
  exact ⟨Nat.lt_of_lt_of_le (Nat.lt_of_le_of_lt (le_skipWs s p) hs.1) (le_skipWs s _),
    skipWs_le_length hs.2⟩

/-- The measure `lex` and the parser go down by: a token other than the NUL shortens what is
left of the line. -/
theorem gettoken_shortens {s : List UInt8} {p : Nat} (h : (gettoken s p).1 ≠ 0) :
    s.length - (gettoken s p).2.2.2 < s.length - p := by
  have hp := gettoken_progress h
  omega

/-- A word starts at a byte that can be part of one. -/
theorem scan_word_iff {s : List UInt8} {q : Nat} (hq : q < s.length → ch s q ∉ whitespace) :
    (scan s q).1 = 'a'.toUInt8 ↔ WordChar (ch s q) := by
  rcases scan_cases s q with ⟨h0, he⟩ | ⟨h0, -, he⟩ | ⟨h0, -, he⟩ | ⟨h0, -, he⟩ | ⟨h0, hsym, he⟩ <;>
    rw [he]
  · simp only [WordChar, h0]
    decide
  · simp only [WordChar]
    exact ⟨fun h => absurd (h ▸ h0) (by decide), fun h => absurd h0 h.2.2⟩
  · simp only [WordChar, h0]
    decide
  · simp only [WordChar, h0]
    decide
  · have hlt := lt_length_of_ch_ne_zero h0
    exact ⟨fun _ => ⟨h0, hq hlt, hsym⟩, fun _ => rfl⟩

theorem scan_word {s : List UInt8} {q : Nat} (h : (scan s q).1 = 'a'.toUInt8) :
    (scan s q).2 = skipWord s q := by
  rcases scan_cases s q with ⟨-, he⟩ | ⟨h0, -, he⟩ | ⟨-, -, he⟩ | ⟨-, -, he⟩ | ⟨-, -, he⟩ <;>
    rw [he] at h ⊢ <;> dsimp only at h
  · exact absurd h (by decide)
  · rw [h] at h0
    exact absurd h0 (by decide)
  · exact absurd h (by decide)
  · exact absurd h (by decide)

/-- A symbol's last byte is a symbol: `<` for `<`, `>` for `>` and `>>`. -/
theorem scan_symbol_end {s : List UInt8} {q : Nat} (h0 : (scan s q).1 ≠ 0)
    (ha : (scan s q).1 ≠ 'a'.toUInt8) :
    (scan s q).1 ∈ symbols ∧ (scan s q).2 = q + 1 ∧ ch s q = (scan s q).1 ∨
      (scan s q).1 = '+'.toUInt8 ∧ (scan s q).2 = q + 2 ∧ ch s (q + 1) = '>'.toUInt8 := by
  rcases scan_cases s q with ⟨-, he⟩ | ⟨hsym, -, he⟩ | ⟨-, hq1, he⟩ | ⟨hq, -, he⟩ | ⟨-, -, he⟩ <;>
    rw [he] at h0 ha ⊢
  · exact absurd rfl h0
  · exact .inl ⟨hsym, rfl, rfl⟩
  · exact .inr ⟨rfl, rfl, hq1⟩
  · exact .inl ⟨(by decide : '>'.toUInt8 ∈ symbols), rfl, hq⟩
  · exact absurd rfl ha

/-- A redirection operator: `<` ends in `<`, and `>` and `>>` (returned as `+`) end in `>`. -/
theorem scan_redir {s : List UInt8} {q : Nat} (hc : ch s q = '<'.toUInt8 ∨ ch s q = '>'.toUInt8) :
    (scan s q).1 = '<'.toUInt8 ∧ ch s ((scan s q).2 - 1) = '<'.toUInt8 ∨
      ((scan s q).1 = '>'.toUInt8 ∨ (scan s q).1 = '+'.toUInt8) ∧
        ch s ((scan s q).2 - 1) = '>'.toUInt8 := by
  rcases scan_cases s q with ⟨h0, -⟩ | ⟨-, hne, he⟩ | ⟨hq, hq1, he⟩ | ⟨hq, -, he⟩ | ⟨-, hsym, -⟩
  · rcases hc with hc | hc <;> rw [hc] at h0 <;> exact absurd h0 (by decide)
  · rw [he]
    have h1 : ch s q = '<'.toUInt8 := hc.resolve_right hne
    refine .inl ⟨h1, ?_⟩
    show ch s (q + 1 - 1) = _
    rwa [Nat.add_sub_cancel]
  · rw [he]
    exact .inr ⟨.inr rfl, hq1⟩
  · rw [he]
    exact .inr ⟨.inl rfl, hq⟩
  · exact absurd (by rcases hc with hc | hc <;> rw [hc] <;> decide) hsym

theorem scan_eq_zero_iff {s : List UInt8} {q : Nat} : (scan s q).1 = 0 ↔ ch s q = 0 := by
  rcases scan_cases s q with ⟨h0, he⟩ | ⟨-, -, he⟩ | ⟨hq, -, he⟩ | ⟨hq, -, he⟩ | ⟨h0, -, he⟩ <;>
    rw [he] <;> dsimp only
  · exact ⟨fun _ => h0, fun _ => rfl⟩
  · exact ⟨fun h => absurd h (by decide), fun h => absurd (hq.symm.trans h) (by decide)⟩
  · exact ⟨fun h => absurd h (by decide), fun h => absurd (hq.symm.trans h) (by decide)⟩
  · exact ⟨fun h => absurd h (by decide), fun h => absurd h h0⟩

/-! ## The tokens of a line -/

/-- A token: what `gettoken` returns for it, and where it starts (`q`) and ends (`eq`). -/
structure Token where
  kind : UInt8
  q : Nat
  eq : Nat
deriving DecidableEq, Repr

/-- The tokens `gettoken` reads from `p`, call after call, up to the NUL. -/
def lex (s : List UInt8) (p : Nat) : List Token :=
  if h : (gettoken s p).1 = 0 then []
  else
    have := gettoken_shortens h
    ⟨(gettoken s p).1, (gettoken s p).2.1, (gettoken s p).2.2.1⟩ :: lex s (gettoken s p).2.2.2
termination_by s.length - p
decreasing_by exact this

section Lex

variable {s : List UInt8} {p : Nat}

theorem lex_of_kind_zero (h : (gettoken s p).1 = 0) : lex s p = [] := by
  rw [lex, dif_pos h]

theorem lex_of_kind_ne_zero (h : (gettoken s p).1 ≠ 0) :
    lex s p = ⟨(gettoken s p).1, (gettoken s p).2.1, (gettoken s p).2.2.1⟩ ::
      lex s (gettoken s p).2.2.2 := by
  rw [lex, dif_neg h]

theorem gettoken_skipWs : gettoken s (skipWs s p) = gettoken s p := by
  simp only [gettoken, skipWs_skipWs]

theorem lex_skipWs : lex s (skipWs s p) = lex s p := by
  by_cases h : (gettoken s p).1 = 0
  · rw [lex_of_kind_zero h, lex_of_kind_zero (by rwa [gettoken_skipWs])]
  · rw [lex_of_kind_ne_zero h, lex_of_kind_ne_zero (by rwa [gettoken_skipWs]), gettoken_skipWs]

/-- At the NUL `gettoken` stays where it stopped, past the whitespace. -/
theorem gettoken_of_kind_zero (h : (gettoken s p).1 = 0) : (gettoken s p).2.2.2 = skipWs s p := by
  have hc : ch s (skipWs s p) = 0 := scan_eq_zero_iff.mp h
  simp only [gettoken, scan, if_pos hc, skipWs_skipWs]

/-- At the end of the line there are no more tokens. -/
theorem lex_length (s : List UInt8) : lex s s.length = [] := by
  have hws : skipWs s s.length = s.length := skipWs_of_stop fun h => Nat.lt_irrefl _ h.1
  refine lex_of_kind_zero (scan_eq_zero_iff.mpr ?_)
  rw [hws]
  exact List.getD_eq_default _ _ le_rfl

/-- `peek` only passes whitespace. -/
theorem lex_peek (toks : List UInt8) : lex s (peek s p toks).2 = lex s p := lex_skipWs

/-- The tokens of `lex s p` start at or after `p`, each ends past its start, and they come
one after another. -/
theorem lex_ordered (s : List UInt8) (p : Nat) :
    (∀ t ∈ lex s p, p ≤ t.q ∧ t.q < t.eq) ∧ (lex s p).Pairwise (fun t t' => t.eq ≤ t'.q) := by
  fun_induction lex s p with
  | case1 => simp
  | case2 p h _ ih =>
    have hq := le_skipWs s p
    have hlt := scan_lt (skipWs_stop s p) h
    have he := le_skipWs s (scan s (skipWs s p)).2
    refine ⟨fun t ht => ?_, List.pairwise_cons.mpr ⟨fun t ht => ?_, ih.2⟩⟩
    · rcases List.mem_cons.mp ht with rfl | ht
      · exact ⟨hq, hlt.1⟩
      · have := ih.1 t ht
        exact ⟨by simp only [gettoken] at this; omega, this.2⟩
    · have := (ih.1 t ht).1
      simp only [gettoken] at this ⊢
      omega

end Lex

/-! ## Words -/

/-- The spans of the words among the tokens `ts`. -/
def wordSpans (ts : List Token) : List (Nat × Nat) :=
  (ts.filter fun t => t.kind = 'a'.toUInt8).map fun t => (t.q, t.eq)

/-- The bytes from `q` up to `e` are a word of the line: a longest run of word bytes. -/
def IsWord (s : List UInt8) (q e : Nat) : Prop :=
  q < e ∧ (∀ i, q ≤ i → i < e → WordChar (ch s i)) ∧ (q = 0 ∨ ¬WordChar (ch s (q - 1))) ∧
    ¬WordChar (ch s e)

instance (s : List UInt8) (q e : Nat) : Decidable (IsWord s q e) :=
  inferInstanceAs (Decidable (_ ∧ _ ∧ _ ∧ _))

/-- No word runs across `p`, so that `lex` from `p` reads whole words. -/
def Boundary (s : List UInt8) (p : Nat) : Prop :=
  p = 0 ∨ ¬WordChar (ch s (p - 1)) ∨ ¬WordChar (ch s p)

@[simp] theorem wordSpans_nil : wordSpans [] = [] := rfl

@[simp] theorem wordSpans_append (ts ts' : List Token) :
    wordSpans (ts ++ ts') = wordSpans ts ++ wordSpans ts' := by
  simp only [wordSpans, List.filter_append, List.map_append]

theorem wordSpans_cons (t : Token) (ts : List Token) :
    wordSpans (t :: ts) =
      if t.kind = 'a'.toUInt8 then (t.q, t.eq) :: wordSpans ts else wordSpans ts := by
  simp only [wordSpans, List.filter_cons, decide_eq_true_eq]
  split <;> rfl

theorem wordSpans_symbol {t : Token} (h : t.kind ≠ 'a'.toUInt8) : wordSpans [t] = [] := by
  rw [wordSpans_cons, if_neg h, wordSpans_nil]

section Words

variable {s : List UInt8}

/-- Past the end the line reads the NUL, which is in no word. -/
theorem not_wordChar_of_le {p : Nat} (h : s.length ≤ p) : ¬WordChar (ch s p) :=
  fun hw => hw.1 (List.getD_eq_default _ _ h)

theorem wordChar_of_skipWord (hs : 0 ∉ s) {p i : Nat} (h1 : p ≤ i) (h2 : i < skipWord s p) :
    WordChar (ch s i) :=
  have h := skipWord_word h1 h2
  ⟨ch_ne_zero hs h.1, h.2⟩

theorem not_wordChar_skipWord (s : List UInt8) (p : Nat) : ¬WordChar (ch s (skipWord s p)) := by
  by_cases h : skipWord s p < s.length
  · rcases skipWord_stop s p h with hw | hw
    · exact fun hc => hc.2.1 hw
    · exact fun hc => hc.2.2 hw
  · exact not_wordChar_of_le (by omega)

theorem lt_skipWord_of_wordChar {p : Nat} (hw : WordChar (ch s p)) : p < skipWord s p :=
  lt_skipWord (lt_length_of_ch_ne_zero hw.1) hw.2.1 hw.2.2

/-- `skipWord` stops at the first byte that is in no word. -/
theorem skipWord_le (hs : 0 ∉ s) {p r : Nat} (h : p ≤ r) (hr : ¬WordChar (ch s r)) :
    skipWord s p ≤ r := by
  by_contra hlt
  exact hr (wordChar_of_skipWord hs h (by omega))

theorem skipWord_eq (hs : 0 ∉ s) {q e : Nat} (hw : IsWord s q e) : skipWord s q = e := by
  obtain ⟨hlt, hrun, -, he⟩ := hw
  refine le_antisymm (skipWord_le hs hlt.le he) ?_
  by_contra hgt
  exact not_wordChar_skipWord s q (hrun _ (le_skipWord s q) (by omega))

/-- `skipWs` stops at the first byte that is no whitespace. -/
theorem skipWs_le {p r : Nat} (h : p ≤ r) (hw : ch s r ∉ whitespace) :
    skipWs s p ≤ r := by
  by_contra hlt
  exact hw (skipWs_space h (by omega))

/-- After a token `lex` is at a boundary again: the token's last byte or the byte after it
is in no word, and so is the whitespace after it. -/
theorem boundary_gettoken {p : Nat} (h : (gettoken s p).1 ≠ 0) :
    Boundary s (gettoken s p).2.2.2 := by
  have he : ¬WordChar (ch s ((scan s (skipWs s p)).2 - 1)) ∨
      ¬WordChar (ch s (scan s (skipWs s p)).2) := by
    by_cases ha : (scan s (skipWs s p)).1 = 'a'.toUInt8
    · exact .inr (scan_word ha ▸ not_wordChar_skipWord s _)
    · rcases scan_symbol_end h ha with ⟨hsym, he, hc⟩ | ⟨-, he, hc⟩
      · refine .inl fun hw => hw.2.2 ?_
        rwa [he, Nat.add_sub_cancel, hc]
      · refine .inl fun hw => hw.2.2 ?_
        rw [he, Nat.add_sub_assoc (by decide), hc]
        decide
  simp only [gettoken, Boundary]
  rcases Nat.eq_or_lt_of_le (le_skipWs s (scan s (skipWs s p)).2) with heq | hlt
  · rw [← heq]
    exact .inr he
  · exact .inr (.inl fun hw => hw.2.1 (skipWs_space (Nat.le_sub_one_of_lt hlt) (by omega)))

/-- A word token read from a boundary is a word of the line. -/
theorem isWord_gettoken (hs : 0 ∉ s) {p : Nat} (hp : Boundary s p)
    (ha : (gettoken s p).1 = 'a'.toUInt8) :
    IsWord s (gettoken s p).2.1 (gettoken s p).2.2.1 := by
  simp only [gettoken] at ha ⊢
  have hw := (scan_word_iff (skipWs_stop s p)).mp ha
  rw [scan_word ha]
  refine ⟨lt_skipWord_of_wordChar hw, fun i h1 h2 => wordChar_of_skipWord hs h1 h2, ?_,
    not_wordChar_skipWord s _⟩
  -- the word starts at `p` itself, or past whitespace
  rcases Nat.eq_or_lt_of_le (le_skipWs s p) with heq | hlt
  · rw [← heq]
    rcases hp with h | h | h
    · exact .inl h
    · exact .inr h
    · exact absurd (heq ▸ hw) h
  · exact .inr fun hc => hc.2.1 (skipWs_space (Nat.le_sub_one_of_lt hlt) (by omega))

theorem isWord_of_mem_wordSpans (hs : 0 ∉ s) {p : Nat} (hp : Boundary s p) {q e : Nat}
    (h : (q, e) ∈ wordSpans (lex s p)) : IsWord s q e := by
  fun_induction lex s p with
  | case1 => simp at h
  | case2 p h0 _ ih =>
    rw [wordSpans_cons] at h
    split_ifs at h with ha
    · rcases List.mem_cons.mp h with heq | h
      · obtain ⟨rfl, rfl⟩ := Prod.mk.inj heq
        exact isWord_gettoken hs hp ha
      · exact ih (boundary_gettoken h0) h
    · exact ih (boundary_gettoken h0) h

/-- A token that starts before a word ends at or before the word's start. -/
theorem scan_le_of_isWord (hs : 0 ∉ s) {q e q₁ : Nat} (hw : IsWord s q e) (hq₁ : q₁ < q)
    (h0 : (scan s q₁).1 ≠ 0) : (scan s q₁).2 ≤ q := by
  by_cases ha : (scan s q₁).1 = 'a'.toUInt8
  · -- a word before a word ends at the byte before it, which is in no word
    have hb : ¬WordChar (ch s (q - 1)) := hw.2.2.1.resolve_left (by omega)
    rw [scan_word ha]
    exact (skipWord_le hs (Nat.le_sub_one_of_lt hq₁) hb).trans (Nat.sub_le q 1)
  · rcases scan_symbol_end h0 ha with ⟨-, he, -⟩ | ⟨-, he, hc⟩
    · omega
    · -- the second byte of a '>>' is no word's first byte
      have hne : q ≠ q₁ + 1 := fun hq => (hw.2.1 q le_rfl hw.1).2.2 (by rw [hq, hc]; decide)
      omega

theorem mem_wordSpans_of_isWord (hs : 0 ∉ s) {q e : Nat} (hw : IsWord s q e) {p : Nat}
    (hp : p ≤ q) : (q, e) ∈ wordSpans (lex s p) := by
  have hwq := hw.2.1 q le_rfl hw.1
  have hq : q < s.length := lt_length_of_ch_ne_zero hwq.1
  fun_induction lex s p with
  | case1 p h0 =>
    -- the NUL cannot come at or before the word, inside the line
    have hle := skipWs_le hp hwq.2.1
    exact absurd (scan_eq_zero_iff.mp h0) (ch_ne_zero hs (by omega))
  | case2 p h0 _ ih =>
    rw [wordSpans_cons]
    rcases Nat.eq_or_lt_of_le (skipWs_le hp hwq.2.1) with heq | hlt
    · -- the token is the word
      have ha : (gettoken s p).1 = 'a'.toUInt8 :=
        (scan_word_iff (skipWs_stop s p)).mpr (heq ▸ hwq)
      have he : (gettoken s p).2.2.1 = e := by
        simp only [gettoken] at ha ⊢
        rw [scan_word ha, heq, skipWord_eq hs hw]
      rw [if_pos ha, he]
      exact List.mem_cons.mpr (.inl (by rw [← heq]; rfl))
    · -- a token before the word ends at or before it
      have hle := scan_le_of_isWord hs hw hlt h0
      have := ih (skipWs_le hle hwq.2.1)
      split_ifs
      · exact List.mem_cons_of_mem _ this
      · exact this

/-- The words `lex` reads from the start of a line without NUL are the line's words. -/
theorem mem_wordSpans_iff (hs : 0 ∉ s) {q e : Nat} :
    (q, e) ∈ wordSpans (lex s 0) ↔ IsWord s q e :=
  ⟨isWord_of_mem_wordSpans hs (.inl rfl), fun hw => mem_wordSpans_of_isWord hs hw (Nat.zero_le q)⟩

/-- The words come in order, each ending at or before the next one starts. -/
theorem wordSpans_pairwise (s : List UInt8) (p : Nat) :
    (wordSpans (lex s p)).Pairwise (fun w w' => w.2 ≤ w'.1) :=
  List.pairwise_map.mpr ((lex_ordered s p).2.filter _)

/-- No word is read twice. -/
theorem wordSpans_nodup (s : List UInt8) (p : Nat) : (wordSpans (lex s p)).Nodup := by
  have hlt : ∀ w ∈ wordSpans (lex s p), w.1 < w.2 := by
    intro w hw
    obtain ⟨t, ht, rfl⟩ := List.mem_map.mp hw
    exact ((lex_ordered s p).1 t (List.mem_filter.mp ht).1).2
  refine (wordSpans_pairwise s p).imp_of_mem fun {w w'} hw _ hle heq => ?_
  have := hlt w hw
  rw [heq] at this hle
  omega

end Words

/-! ## Peeking -/

section Peek

variable {s : List UInt8} {p : Nat} {toks : List UInt8}

theorem le_peek (s : List UInt8) (p : Nat) (toks : List UInt8) : p ≤ (peek s p toks).2 :=
  le_skipWs s p

theorem peek_eq_true :
    (peek s p toks).1 = true ↔ ch s (peek s p toks).2 ≠ 0 ∧ ch s (peek s p toks).2 ∈ toks := by
  simp [peek]

/-- `gettoken` from where `peek` stopped reads the byte `peek` looked at. -/
theorem gettoken_peek :
    gettoken s (peek s p toks).2 =
      ((scan s (peek s p toks).2).1, (peek s p toks).2, (scan s (peek s p toks).2).2,
        skipWs s (scan s (peek s p toks).2).2) := by
  simp only [gettoken, peek, skipWs_skipWs]

theorem gettoken_peek_ne_zero (h : (peek s p toks).1) : (gettoken s (peek s p toks).2).1 ≠ 0 := by
  rw [gettoken_peek, Ne, scan_eq_zero_iff]
  exact (peek_eq_true.mp h).1

/-- With symbols only to look for, what `peek` says yes to is no word. -/
theorem gettoken_peek_ne_word (h : (peek s p toks).1) (ht : ∀ c ∈ toks, c ∈ symbols) :
    (gettoken s (peek s p toks).2).1 ≠ 'a'.toUInt8 := by
  have hq : (peek s p toks).2 < s.length → ch s (peek s p toks).2 ∉ whitespace := skipWs_stop s p
  rw [gettoken_peek]
  dsimp only
  rw [Ne, scan_word_iff hq]
  exact fun hw => hw.2.2 (ht _ (peek_eq_true.mp h).2)

/-- The measure the parser goes down by when it takes the token `peek` said yes to. -/
theorem peek_shortens (h : (peek s p toks).1) :
    s.length - (gettoken s (peek s p toks).2).2.2.2 < s.length - p := by
  have hg := gettoken_shortens (gettoken_peek_ne_zero h)
  have hp := le_peek s p toks
  omega

theorem le_gettoken_peek (s : List UInt8) (p : Nat) (toks : List UInt8) :
    p ≤ (gettoken s (peek s p toks).2).2.2.2 :=
  (le_peek s p toks).trans (le_gettoken s _)

/-- The token `peek` said yes to is the next one `lex` reads. -/
theorem lex_peek_gettoken (h : (peek s p toks).1) :
    lex s p = ⟨(gettoken s (peek s p toks).2).1, (peek s p toks).2,
      (gettoken s (peek s p toks).2).2.2.1⟩ :: lex s (gettoken s (peek s p toks).2).2.2.2 :=
  calc lex s p = lex s (peek s p toks).2 := (lex_peek toks).symm
    _ = _ := by
      rw [lex_of_kind_ne_zero (gettoken_peek_ne_zero h)]
      simp only [gettoken, peek, skipWs_skipWs]

/-- A symbol `peek` said yes to is the next token, and no word. -/
theorem lex_peek_symbol (h : (peek s p toks).1) (ht : ∀ c ∈ toks, c ∈ symbols) :
    ∃ t : Token, t.kind ≠ 'a'.toUInt8 ∧ lex s p = t :: lex s (gettoken s (peek s p toks).2).2.2.2 :=
  ⟨_, gettoken_peek_ne_word h ht, lex_peek_gettoken h⟩

end Peek

/-! ## The next token -/

/-- The byte a token of kind `k` other than a word starts with: `>>` is returned as `+`. -/
def lead (k : UInt8) : UInt8 := if k = '+'.toUInt8 then '>'.toUInt8 else k

section Next

variable {s : List UInt8} {p : Nat} {toks : List UInt8} {t : Token} {rest : List Token}

theorem scan_lead {q : Nat} (h0 : (scan s q).1 ≠ 0) (ha : (scan s q).1 ≠ 'a'.toUInt8) :
    lead (scan s q).1 = ch s q := by
  rcases scan_symbol_end h0 ha with ⟨hsym, -, hc⟩ | ⟨hk, -, -⟩
  · have hplus : (scan s q).1 ≠ '+'.toUInt8 := fun h => absurd (h ▸ hsym) (by decide)
    rw [lead, if_neg hplus, hc]
  · -- only `>>` is returned as `+`
    rcases scan_cases s q with ⟨-, he⟩ | ⟨hsym, -, he⟩ | ⟨hq, -, -⟩ | ⟨-, -, he⟩ | ⟨-, -, he⟩ <;>
      try (rw [he] at hk; dsimp only at hk)
    · exact absurd hk (by decide)
    · rw [hk] at hsym
      exact absurd hsym (by decide)
    · rw [lead, if_pos hk, hq]
    · exact absurd hk (by decide)
    · exact absurd hk (by decide)

theorem gettoken_of_lex_nil (h : lex s p = []) : (gettoken s p).1 = 0 := by
  by_contra h0
  rw [lex_of_kind_ne_zero h0] at h
  exact List.cons_ne_nil _ _ h

/-- The head of `lex s p` is what `gettoken` reads from `p`; the rest is `lex` after it. -/
theorem gettoken_of_lex_cons (h : lex s p = t :: rest) :
    (gettoken s p).1 = t.kind ∧ (gettoken s p).1 ≠ 0 ∧ (gettoken s p).2.1 = t.q ∧
      (gettoken s p).2.2.1 = t.eq ∧ lex s (gettoken s p).2.2.2 = rest := by
  have h0 : (gettoken s p).1 ≠ 0 := fun h0 => by
    rw [lex_of_kind_zero h0] at h
    exact List.cons_ne_nil _ _ h.symm
  rw [lex_of_kind_ne_zero h0, List.cons.injEq] at h
  obtain ⟨rfl, rfl⟩ := h
  exact ⟨rfl, h0, rfl, rfl, rfl⟩

theorem peek_of_lex_nil (h : lex s p = []) : (peek s p toks).1 = false := by
  have hc : ch s (skipWs s p) = 0 := scan_eq_zero_iff.mp (gettoken_of_lex_nil h)
  simp [peek, hc]

/-- `peek` looks at the first byte of the next token: with symbols to look for, it says yes
to a token other than a word that starts with one of them. -/
theorem peek_of_lex_cons (h : lex s p = t :: rest) (ht : ∀ c ∈ toks, c ∈ symbols) :
    (peek s p toks).1 = true ↔ t.kind ≠ 'a'.toUInt8 ∧ lead t.kind ∈ toks := by
  obtain ⟨hk, h0, -, -, -⟩ := gettoken_of_lex_cons h
  rw [← hk, peek_eq_true]
  show ch s (skipWs s p) ≠ 0 ∧ ch s (skipWs s p) ∈ toks ↔
    (scan s (skipWs s p)).1 ≠ 'a'.toUInt8 ∧ lead (scan s (skipWs s p)).1 ∈ toks
  by_cases ha : (scan s (skipWs s p)).1 = 'a'.toUInt8
  · -- a word starts with a byte that is no symbol
    have hw := (scan_word_iff (skipWs_stop s p)).mp ha
    exact ⟨fun hp => absurd (ht _ hp.2) hw.2.2, fun hp => absurd ha hp.1⟩
  · rw [scan_lead h0 ha]
    exact ⟨fun hp => ⟨ha, hp.2⟩, fun hp => ⟨fun hz => h0 (scan_eq_zero_iff.mpr hz), hp.2⟩⟩

/-- From where `peek` stopped, `gettoken` reads the head of `lex` and leaves the rest. -/
theorem lex_after_peek (toks : List UInt8) (h : lex s p = t :: rest) :
    (gettoken s (peek s p toks).2).1 = t.kind ∧
      lex s (gettoken s (peek s p toks).2).2.2.2 = rest := by
  have h' : lex s (peek s p toks).2 = t :: rest := (lex_peek toks).trans h
  obtain ⟨hk, -, -, -, hr⟩ := gettoken_of_lex_cons h'
  exact ⟨hk, hr⟩

/-- `gettoken` stays in the line. -/
theorem gettoken_le_length (hp : p ≤ s.length) : (gettoken s p).2.2.2 ≤ s.length := by
  by_cases h0 : (gettoken s p).1 = 0
  · rw [gettoken_of_kind_zero h0]
    exact skipWs_le_length hp
  · exact (gettoken_progress h0).2

theorem peek_le_length (toks : List UInt8) (hp : p ≤ s.length) : (peek s p toks).2 ≤ s.length :=
  skipWs_le_length hp

/-- With no token left, only whitespace is: it runs to the end of the line. -/
theorem skipWs_of_lex_nil (hs : 0 ∉ s) (h : lex s p = []) (hp : p ≤ s.length) :
    skipWs s p = s.length := by
  have hc : ch s (skipWs s p) = 0 := scan_eq_zero_iff.mp (gettoken_of_lex_nil h)
  have hle := skipWs_le_length hp
  have hge : ¬skipWs s p < s.length := fun hlt => ch_ne_zero hs hlt hc
  omega

end Next

end Xv6.Sh
