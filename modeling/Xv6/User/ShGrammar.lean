import Mathlib
import Xv6.User.Sh

/-!
# The lines `parsecmd` accepts

`sh.c`'s descent is LL(1): each loop and each branch is decided by one `peek` at the next
token. Over the kinds of the tokens `gettoken` returns, its grammar is
`line := pipe {'&'} [';' line]`, `pipe := exec ['|' pipe]` and
`exec := '(' line ')' redirs | redirs {word redirs}` with fewer than `MAXARGS` words. This
module proves that `parsecmd` returns a command exactly for the lines whose token kinds are a
sentence of `line`: every other line panics.
-/

namespace Xv6.Sh

/-- The kinds `gettoken` returns for `<`, `>` and `>>`. -/
def redirKinds : List UInt8 := ['<'.toUInt8, '>'.toUInt8, '+'.toUInt8]

/-- `redirs := {('<' | '>' | '>>') word}`. -/
inductive Redirs : List UInt8 → Prop where
  | nil : Redirs []
  | cons {op : UInt8} {r : List UInt8} : op ∈ redirKinds → Redirs r →
      Redirs (op :: 'a'.toUInt8 :: r)

/-- `n` words, each followed by its redirections. -/
inductive Words : Nat → List UInt8 → Prop where
  | nil : Words 0 []
  | cons {n : Nat} {r t : List UInt8} : Redirs r → Words n t →
      Words (n + 1) ('a'.toUInt8 :: (r ++ t))

/-- The sentences of each symbol of the grammar, over token kinds. -/
inductive Gram : Sym → List UInt8 → Prop where
  | block {l r : List UInt8} : Gram .line l → Redirs r →
      Gram .exec ('('.toUInt8 :: (l ++ ')'.toUInt8 :: r))
  | simple {r t : List UInt8} (n : Nat) : Redirs r → Words n t → n < MAXARGS →
      Gram .exec (r ++ t)
  | single {e : List UInt8} : Gram .exec e → Gram .pipe e
  | pipe {e q : List UInt8} : Gram .exec e → Gram .pipe q → Gram .pipe (e ++ '|'.toUInt8 :: q)
  | back {q : List UInt8} (n : Nat) : Gram .pipe q →
      Gram .line (q ++ List.replicate n '&'.toUInt8)
  | list {q l : List UInt8} (n : Nat) : Gram .pipe q → Gram .line l →
      Gram .line (q ++ List.replicate n '&'.toUInt8 ++ ';'.toUInt8 :: l)

/-- The kinds that may follow a sentence of each symbol inside a line. -/
def follows : Sym → List UInt8
  | .line => [')'.toUInt8]
  | .pipe => ['&'.toUInt8, ';'.toUInt8, ')'.toUInt8]
  | .exec => ['|'.toUInt8, '&'.toUInt8, ';'.toUInt8, ')'.toUInt8]

/-- What comes after a sentence of `x`: the end of the line, or a kind that may follow it. -/
def FollowOk (x : Sym) : List UInt8 → Prop
  | [] => True
  | k :: _ => k ∈ follows x

/-- What `peek` for `toks` says yes to, over the kinds of the tokens left: a token other than
a word that starts with one of `toks`. -/
def Starts (toks : List UInt8) : List UInt8 → Prop
  | [] => False
  | k :: _ => k ≠ 'a'.toUInt8 ∧ lead k ∈ toks

/-- The function of the descent for each symbol. -/
def Sym.parse : Sym → List UInt8 → (p : Nat) → Except String (Cmd × {j // p ≤ j})
  | .line => parseline
  | .pipe => parsepipe
  | .exec => parseexec

/-! ## The tree a run of tokens derives

The grammar again, over the tokens themselves and with the tree each sentence makes: every
node comes from its token, a pipe from a `|`, a list from a `;`, a back node from a `&`, a
redirection from its operator and the word after it, and an exec node's words are its
word tokens in order. -/

/-- `redirs` with the redirections `parseredirs`' `switch` makes of it. -/
inductive RedirsOf : List Redir → List Token → Prop where
  | nil : RedirsOf [] []
  | cons {op f : Token} {rs : List Redir} {ts : List Token} : op.kind ∈ redirKinds →
      f.kind = 'a'.toUInt8 → RedirsOf rs ts →
      RedirsOf (redirOf op.kind f.q f.eq ++ rs) (op :: f :: ts)

/-- Words, each followed by its redirections: the words in order, then the redirections. -/
inductive WordsOf : List (Nat × Nat) → List Redir → List Token → Prop where
  | nil : WordsOf [] [] []
  | cons {w : Token} {argv : List (Nat × Nat)} {rs rs' : List Redir} {r t : List Token} :
      w.kind = 'a'.toUInt8 → RedirsOf rs r → WordsOf argv rs' t →
      WordsOf ((w.q, w.eq) :: argv) (rs ++ rs') (w :: (r ++ t))

/-- The tree of symbol `x` that the tokens derive. -/
inductive Derives : Sym → Cmd → List Token → Prop where
  | block {c : Cmd} {rs : List Redir} {o x : Token} {l r : List Token} :
      o.kind = '('.toUInt8 → Derives .line c l → x.kind = ')'.toUInt8 → RedirsOf rs r →
      Derives .exec (c.wrap rs) (o :: (l ++ x :: r))
  | simple {argv : List (Nat × Nat)} {rs rs' : List Redir} {r t : List Token} :
      RedirsOf rs r → WordsOf argv rs' t → argv.length < MAXARGS →
      Derives .exec ((Cmd.exec argv).wrap (rs ++ rs')) (r ++ t)
  | single {c : Cmd} {e : List Token} : Derives .exec c e → Derives .pipe c e
  | pipe {l r : Cmd} {e q : List Token} {b : Token} : Derives .exec l e →
      b.kind = '|'.toUInt8 → Derives .pipe r q → Derives .pipe (.pipe l r) (e ++ b :: q)
  | back {c : Cmd} {q a : List Token} (n : Nat) : Derives .pipe c q →
      a.map Token.kind = List.replicate n '&'.toUInt8 → Derives .line (Cmd.back^[n] c) (q ++ a)
  | list {c r : Cmd} {q a l : List Token} {t : Token} (n : Nat) : Derives .pipe c q →
      a.map Token.kind = List.replicate n '&'.toUInt8 → t.kind = ';'.toUInt8 →
      Derives .line r l → Derives .line (.list (Cmd.back^[n] c) r) (q ++ a ++ t :: l)

theorem RedirsOf.redirs {rs : List Redir} {ts : List Token} (h : RedirsOf rs ts) :
    Redirs (ts.map Token.kind) := by
  induction h with
  | nil => exact .nil
  | cons hop hf _ ih =>
    rw [List.map_cons, List.map_cons, hf]
    exact .cons hop ih

theorem WordsOf.words {argv : List (Nat × Nat)} {rs : List Redir} {ts : List Token}
    (h : WordsOf argv rs ts) : Words argv.length (ts.map Token.kind) := by
  induction h with
  | nil => exact .nil
  | cons hw hr _ ih =>
    rw [List.map_cons, List.map_append, hw, List.length_cons]
    exact .cons hr.redirs ih

/-- Forgetting the tree and the tokens but their kinds leaves a sentence of the grammar. -/
theorem Derives.gram {x : Sym} {c : Cmd} {ts : List Token} (h : Derives x c ts) :
    Gram x (ts.map Token.kind) := by
  induction h with
  | block ho _ hx hr ih =>
    rw [List.map_cons, List.map_append, List.map_cons, ho, hx]
    exact .block ih hr.redirs
  | simple hr hw hn =>
    rw [List.map_append]
    exact .simple _ hr.redirs hw.words hn
  | single _ ih => exact .single ih
  | pipe _ hb _ ihl ihr =>
    rw [List.map_append, List.map_cons, hb]
    exact .pipe ihl ihr
  | back n _ ha ih =>
    rw [List.map_append, ha]
    exact .back n ih
  | list n _ ha ht _ ihq ihl =>
    rw [List.map_append, List.map_append, List.map_cons, ha, ht]
    exact .list n ihq ihl

section Kinds

variable {k : UInt8} {ks : List UInt8}

theorem peek_iff {s : List UInt8} {p : Nat} {toks : List UInt8} (ht : ∀ c ∈ toks, c ∈ symbols) :
    (peek s p toks).1 = true ↔ Starts toks ((lex s p).map Token.kind) := by
  rcases hl : lex s p with _ | ⟨t, rest⟩
  · simp [Starts, peek_of_lex_nil hl]
  · exact peek_of_lex_cons hl ht

/-- A one-byte symbol other than `>` is found by `peek` just when its own kind comes next. -/
theorem starts_single {c : UInt8} (ha : c ≠ 'a'.toUInt8) (hg : c ≠ '>'.toUInt8)
    (hp : c ≠ '+'.toUInt8) : Starts [c] (k :: ks) ↔ k = c := by
  simp only [Starts, lead, List.mem_singleton]
  by_cases h : k = '+'.toUInt8
  · rw [if_pos h]
    subst h
    exact ⟨fun h' => absurd h'.2.symm hg, fun h' => absurd h'.symm hp⟩
  · rw [if_neg h]
    exact ⟨fun h' => h'.2, fun h' => ⟨h' ▸ ha, h'⟩⟩

theorem starts_redir_iff : Starts ['<'.toUInt8, '>'.toUInt8] (k :: ks) ↔ k ∈ redirKinds := by
  simp only [Starts, lead, redirKinds, List.mem_cons, List.not_mem_nil, or_false]
  by_cases h : k = '+'.toUInt8
  · rw [if_pos h]
    subst h
    decide
  · rw [if_neg h]
    constructor
    · rintro ⟨-, h' | h'⟩
      · exact .inl h'
      · exact .inr (.inl h')
    · rintro (rfl | rfl | rfl)
      · decide
      · decide
      · exact absurd rfl h

theorem starts_execEnd_iff : Starts execEnd (k :: ks) ↔ k ∈ follows .exec := by
  simp only [Starts, lead, execEnd, follows, List.map_cons, List.map_nil, List.mem_cons,
    List.not_mem_nil, or_false]
  by_cases h : k = '+'.toUInt8
  · rw [if_pos h]
    subst h
    decide
  · rw [if_neg h]
    constructor
    · rintro ⟨-, h' | h' | h' | h'⟩ <;> simp [h']
    · rintro (rfl | rfl | rfl | rfl) <;> decide

/-- A kind that may follow a symbol is no word, no redirection and no `(`. -/
theorem follows_kind {x : Sym} (h : k ∈ follows x) :
    k ≠ 'a'.toUInt8 ∧ k ∉ redirKinds ∧ k ≠ '('.toUInt8 ∧ k ∈ follows .exec := by
  have hexec : k ∈ follows .exec := by
    cases x <;> simp only [follows, List.mem_cons, List.not_mem_nil, or_false] at h ⊢ <;> tauto
  simp only [follows, List.mem_cons, List.not_mem_nil, or_false] at hexec
  rcases hexec with rfl | rfl | rfl | rfl <;> decide

/-- After a sentence of `x`, `peek` finds none of the symbols that may not follow it. -/
theorem FollowOk.not_starts {x : Sym} {c : UInt8} (h : FollowOk x ks) (hc : c ∉ follows x)
    (ha : c ≠ 'a'.toUInt8) (hg : c ≠ '>'.toUInt8) (hp : c ≠ '+'.toUInt8) : ¬Starts [c] ks := by
  cases ks with
  | nil => exact id
  | cons k ks =>
    rw [starts_single ha hg hp]
    rintro rfl
    exact hc h

theorem FollowOk.not_starts_redir {x : Sym} (h : FollowOk x ks) :
    ¬Starts ['<'.toUInt8, '>'.toUInt8] ks := by
  cases ks with
  | nil => exact id
  | cons k ks =>
    rw [starts_redir_iff]
    exact (follows_kind h).2.1

theorem FollowOk.exec {x : Sym} (h : FollowOk x ks) : FollowOk .exec ks := by
  cases ks with
  | nil => trivial
  | cons k ks => exact (follows_kind h).2.2.2

theorem FollowOk.pipe_of_line (h : FollowOk .line ks) : FollowOk .pipe ks := by
  cases ks with
  | nil => trivial
  | cons k ks =>
    rw [FollowOk, follows, List.mem_singleton.mp h]
    decide

/-- The `&`s after a pipe may follow it. -/
theorem followOk_amps (n : Nat) (h : FollowOk .pipe ks) :
    FollowOk .pipe (List.replicate n '&'.toUInt8 ++ ks) := by
  cases n with
  | zero => exact h
  | succ n => exact (by decide : '&'.toUInt8 ∈ follows .pipe)

/-- Words start with a word, so no redirection starts them. -/
theorem Words.not_starts_redir {n : Nat} {t : List UInt8} (hw : Words n t)
    (h : FollowOk .exec ks) : ¬Starts ['<'.toUInt8, '>'.toUInt8] (t ++ ks) := by
  cases hw with
  | nil => exact h.not_starts_redir
  | cons => exact fun hs => hs.1 rfl

/-- A simple command starts with a redirection, a word or what follows it, never with `(`. -/
theorem Redirs.not_starts_open {n : Nat} {r t : List UInt8} (hr : Redirs r) (hw : Words n t)
    (h : FollowOk .exec ks) : ¬Starts ['('.toUInt8] (r ++ (t ++ ks)) := by
  cases hr with
  | cons hop =>
    rw [List.cons_append, starts_single (by decide) (by decide) (by decide)]
    rintro rfl
    exact absurd hop (by decide)
  | nil =>
    cases hw with
    | nil => exact h.not_starts (by decide) (by decide) (by decide) (by decide)
    | cons => exact fun hs => hs.1 rfl

end Kinds

/-! ## Every sentence is parsed -/

section Complete

variable {s : List UInt8}

/-- `parseredirs` reads a whole `redirs`, and stops before what follows it. -/
theorem parseredirs_complete {ks : List UInt8} (hr : Redirs ks) {p : Nat}
    {pre post : List Token} (hlex : lex s p = pre ++ post) (hks : pre.map Token.kind = ks)
    (hpost : ¬Starts ['<'.toUInt8, '>'.toUInt8] (post.map Token.kind)) (hp : p ≤ s.length) :
    ∃ rs j, parseredirs s p = .ok (rs, j) ∧ lex s j.1 = post ∧ j.1 ≤ s.length := by
  induction hr generalizing p pre with
  | nil =>
    obtain rfl := List.map_eq_nil_iff.mp hks
    rw [List.nil_append] at hlex
    have hpeek : ¬(peek s p ['<'.toUInt8, '>'.toUInt8]).1 := by
      rw [peek_iff (by simp [symbols]), hlex]
      exact hpost
    rw [parseredirs, if_neg hpeek]
    exact ⟨_, _, rfl, by rw [lex_peek, hlex], peek_le_length ['<'.toUInt8, '>'.toUInt8] hp⟩
  | cons hop _ ih =>
    obtain ⟨top, pre₁, rfl, hop', hks₁⟩ := List.map_eq_cons_iff.mp hks
    obtain ⟨tw, pre₂, rfl, hw, hks₂⟩ := List.map_eq_cons_iff.mp hks₁
    rw [List.cons_append, List.cons_append] at hlex
    have hpeek : (peek s p ['<'.toUInt8, '>'.toUInt8]).1 := by
      rw [peek_iff (by simp [symbols]), hlex, List.map_cons, hop', starts_redir_iff]
      exact hop
    -- the operator, then its file
    obtain ⟨-, hlex₁⟩ := lex_after_peek ['<'.toUInt8, '>'.toUInt8] hlex
    obtain ⟨hf, -, -, -, hlex₂⟩ := gettoken_of_lex_cons hlex₁
    obtain ⟨rs, j, hres, hj, hjl⟩ :=
      ih hlex₂ hks₂ (gettoken_le_length (gettoken_le_length (peek_le_length _ hp)))
    rw [parseredirs, if_pos hpeek]
    dsimp only
    rw [dif_neg (not_not.mpr (hf.trans hw)), hres]
    exact ⟨_, _, rfl, hj, hjl⟩

/-- The word loop of `parseexec` reads `n` words with their redirections, if they fit in
`argv`, and stops before what may follow an exec. -/
theorem execLoop_complete {n : Nat} {ks : List UInt8} (hw : Words n ks)
    {argv : List (Nat × Nat)} {rs : List Redir} {p : Nat} {pre post : List Token}
    (hlex : lex s p = pre ++ post) (hks : pre.map Token.kind = ks)
    (hpost : FollowOk .exec (post.map Token.kind)) (hn : argv.length + n < MAXARGS)
    (hp : p ≤ s.length) :
    ∃ argv' rs' j, execLoop s argv rs p = .ok (argv', rs', j) ∧ lex s j.1 = post ∧
      j.1 ≤ s.length := by
  induction hw generalizing argv rs p pre with
  | nil =>
    obtain rfl := List.map_eq_nil_iff.mp hks
    rw [List.nil_append] at hlex
    rcases post with _ | ⟨t, rest⟩
    · -- the end of the line: `gettoken` returns 0
      have hpeek : ¬(peek s p execEnd).1 := by rw [peek_of_lex_nil hlex]; decide
      have h0 : (gettoken s (peek s p execEnd).2).1 = 0 :=
        gettoken_of_lex_nil (by rw [lex_peek, hlex])
      rw [execLoop, if_neg hpeek]
      dsimp only
      rw [dif_pos h0]
      refine ⟨_, _, _, rfl, ?_, gettoken_le_length (peek_le_length execEnd hp)⟩
      show lex s (gettoken s (peek s p execEnd).2).2.2.2 = []
      rw [gettoken_of_kind_zero h0, lex_skipWs, lex_peek, hlex]
    · have hpeek : (peek s p execEnd).1 := by
        rw [peek_iff (by simp [symbols, execEnd]), hlex, List.map_cons, starts_execEnd_iff]
        exact hpost
      rw [execLoop, if_pos hpeek]
      exact ⟨_, _, _, rfl, by rw [lex_peek, hlex], peek_le_length execEnd hp⟩
  | @cons n _ _ hr hw ih =>
    obtain ⟨tw, pre₁, rfl, hkw, hks₁⟩ := List.map_eq_cons_iff.mp hks
    obtain ⟨preR, preT, rfl, hksR, hksT⟩ := List.map_eq_append_iff.mp hks₁
    rw [List.cons_append, List.append_assoc] at hlex
    have hpeek : ¬(peek s p execEnd).1 := by
      rw [peek_iff (by simp [symbols, execEnd]), hlex, List.map_cons, hkw]
      exact fun h => h.1 rfl
    -- the word, its redirections, then the rest of the loop
    obtain ⟨hg, hlex₁⟩ := lex_after_peek execEnd hlex
    have hglen := gettoken_le_length (peek_le_length execEnd hp)
    obtain ⟨rs₁, j, hres, hj, hjl⟩ := parseredirs_complete hr hlex₁ hksR
      (by rw [List.map_append, hksT]; exact hw.not_starts_redir hpost) hglen
    have hn' : (argv ++ [((gettoken s (peek s p execEnd).2).2.1,
        (gettoken s (peek s p execEnd).2).2.2.1)]).length + n < MAXARGS := by
      rw [List.length_append, List.length_singleton]
      omega
    obtain ⟨argv', rs', j', hres', hj', hjl'⟩ := ih hj hksT hn' hjl
    rw [execLoop, if_neg hpeek]
    dsimp only
    rw [dif_neg (by rw [hg, hkw]; decide), if_neg (not_not.mpr (hg.trans hkw)),
      if_neg (by omega), hres]
    dsimp only
    rw [hres']
    exact ⟨_, _, _, rfl, hj', hjl'⟩

/-- `backLoop` takes `n` `&`s and stops before a token that is none. -/
theorem backLoop_complete (n : Nat) {c : Cmd} {p : Nat} {pre post : List Token}
    (hlex : lex s p = pre ++ post) (hks : pre.map Token.kind = List.replicate n '&'.toUInt8)
    (hpost : ¬Starts ['&'.toUInt8] (post.map Token.kind)) (hp : p ≤ s.length) :
    (backLoop s c p).1 = Cmd.back^[n] c ∧ lex s (backLoop s c p).2.1 = post ∧
      (backLoop s c p).2.1 ≤ s.length := by
  induction n generalizing c p pre with
  | zero =>
    obtain rfl := List.map_eq_nil_iff.mp hks
    rw [List.nil_append] at hlex
    have hpeek : ¬(peek s p ['&'.toUInt8]).1 := by
      rw [peek_iff (by simp [symbols]), hlex]
      exact hpost
    rw [backLoop, dif_neg hpeek]
    exact ⟨rfl, by rw [lex_peek, hlex], peek_le_length ['&'.toUInt8] hp⟩
  | succ n ih =>
    rw [List.replicate_succ] at hks
    obtain ⟨ta, pre₁, rfl, hka, hks₁⟩ := List.map_eq_cons_iff.mp hks
    rw [List.cons_append] at hlex
    have hpeek : (peek s p ['&'.toUInt8]).1 := by
      rw [peek_iff (by simp [symbols]), hlex, List.map_cons, hka,
        starts_single (by decide) (by decide) (by decide)]
    obtain ⟨-, hlex₁⟩ := lex_after_peek ['&'.toUInt8] hlex
    obtain ⟨h1, h2, h3⟩ :=
      ih hlex₁ hks₁ (gettoken_le_length (peek_le_length _ hp))
    rw [backLoop, dif_pos hpeek]
    exact ⟨by rw [Function.iterate_succ_apply, ← h1], h2, h3⟩

/-- Each function of the descent parses a whole sentence of its symbol, when what follows
may follow it: the grammar's FOLLOW condition, which makes every `peek` decide right. -/
theorem parse_complete {x : Sym} {ks : List UInt8} (hg : Gram x ks) {p : Nat}
    {pre post : List Token} (hlex : lex s p = pre ++ post) (hks : pre.map Token.kind = ks)
    (hpost : FollowOk x (post.map Token.kind)) (hp : p ≤ s.length) :
    ∃ c j, x.parse s p = .ok (c, j) ∧ lex s j.1 = post ∧ j.1 ≤ s.length := by
  induction hg generalizing p pre post with
  | @block l r _ hr ihl =>
    obtain ⟨topen, pre₁, rfl, hko, hks₁⟩ := List.map_eq_cons_iff.mp hks
    obtain ⟨preL, pre₂, rfl, hksL, hks₂⟩ := List.map_eq_append_iff.mp hks₁
    obtain ⟨tc, preR, rfl, hkc, hksR⟩ := List.map_eq_cons_iff.mp hks₂
    simp only [List.cons_append, List.append_assoc] at hlex
    have hpeek : (peek s p ['('.toUInt8]).1 := by
      rw [peek_iff (by simp [symbols]), hlex, List.map_cons, hko,
        starts_single (by decide) (by decide) (by decide)]
    -- the line inside, up to the `)`
    obtain ⟨-, hlex₁⟩ := lex_after_peek ['('.toUInt8] hlex
    obtain ⟨c, j, hres, hj, hjl⟩ := ihl hlex₁ hksL
      (by rw [List.map_cons, hkc]; exact (by decide : ')'.toUInt8 ∈ follows .line))
      (gettoken_le_length (peek_le_length _ hp))
    have hclose : (peek s j.1 [')'.toUInt8]).1 := by
      rw [peek_iff (by simp [symbols]), hj, List.map_cons, hkc,
        starts_single (by decide) (by decide) (by decide)]
    obtain ⟨-, hlex₂⟩ := lex_after_peek [')'.toUInt8] hj
    obtain ⟨rs, j', hres', hj', hjl'⟩ := parseredirs_complete hr hlex₂ hksR
      hpost.not_starts_redir (gettoken_le_length (peek_le_length _ hjl))
    simp only [Sym.parse] at hres ⊢
    rw [parseexec, if_pos hpeek, parseblock, dif_pos hpeek, hres]
    dsimp only
    rw [if_pos hclose, hres']
    exact ⟨_, _, rfl, hj', hjl'⟩
  | simple n hr hw hn =>
    obtain ⟨preR, preW, rfl, hksR, hksW⟩ := List.map_eq_append_iff.mp hks
    rw [List.append_assoc] at hlex
    have hpeek : ¬(peek s p ['('.toUInt8]).1 := by
      rw [peek_iff (by simp [symbols]), hlex, List.map_append, List.map_append, hksR, hksW]
      exact hr.not_starts_open hw hpost
    -- the redirections before the first word, then the word loop
    obtain ⟨rs, j, hres, hj, hjl⟩ := parseredirs_complete hr hlex hksR
      (by rw [List.map_append, hksW]; exact hw.not_starts_redir hpost) hp
    obtain ⟨argv, rs', j', hres', hj', hjl'⟩ :=
      execLoop_complete hw hj hksW hpost (by rw [List.length_nil, Nat.zero_add]; exact hn) hjl
    simp only [Sym.parse]
    rw [parseexec, if_neg hpeek, hres]
    dsimp only
    rw [hres']
    exact ⟨_, _, rfl, hj', hjl'⟩
  | single _ ihe =>
    obtain ⟨c, j, hres, hj, hjl⟩ := ihe hlex hks hpost.exec hp
    have hbar : ¬(peek s j.1 ['|'.toUInt8]).1 := by
      rw [peek_iff (by simp [symbols]), hj]
      exact hpost.not_starts (by decide) (by decide) (by decide) (by decide)
    simp only [Sym.parse] at hres ⊢
    rw [parsepipe, hres]
    dsimp only
    rw [dif_neg hbar]
    exact ⟨_, _, rfl, by rw [lex_peek, hj], peek_le_length ['|'.toUInt8] hjl⟩
  | @pipe e q _ _ ihe ihq =>
    obtain ⟨preE, pre₁, rfl, hksE, hks₁⟩ := List.map_eq_append_iff.mp hks
    obtain ⟨tb, preQ, rfl, hkb, hksQ⟩ := List.map_eq_cons_iff.mp hks₁
    simp only [List.cons_append, List.append_assoc] at hlex
    -- the exec, up to the `|`, then the pipe after it
    obtain ⟨c, j, hres, hj, hjl⟩ :=
      ihe hlex hksE (by rw [List.map_cons, hkb]; exact (by decide : '|'.toUInt8 ∈ follows .exec)) hp
    have hbar : (peek s j.1 ['|'.toUInt8]).1 := by
      rw [peek_iff (by simp [symbols]), hj, List.map_cons, hkb,
        starts_single (by decide) (by decide) (by decide)]
    obtain ⟨-, hlex₁⟩ := lex_after_peek ['|'.toUInt8] hj
    obtain ⟨r, j', hres', hj', hjl'⟩ :=
      ihq hlex₁ hksQ hpost (gettoken_le_length (peek_le_length _ hjl))
    simp only [Sym.parse] at hres hres' ⊢
    rw [parsepipe, hres]
    dsimp only
    rw [dif_pos hbar, hres']
    exact ⟨_, _, rfl, hj', hjl'⟩
  | back n _ ihq =>
    obtain ⟨preQ, preA, rfl, hksQ, hksA⟩ := List.map_eq_append_iff.mp hks
    rw [List.append_assoc] at hlex
    obtain ⟨c, j, hres, hj, hjl⟩ := ihq hlex hksQ
      (by rw [List.map_append, hksA]; exact followOk_amps n hpost.pipe_of_line) hp
    -- the `&`s, and no `;` after them
    obtain ⟨hb₁, hb₂, hb₃⟩ := backLoop_complete n (c := c) hj hksA
      (hpost.not_starts (by decide) (by decide) (by decide) (by decide)) hjl
    have hsemi : ¬(peek s (backLoop s c j.1).2.1 [';'.toUInt8]).1 := by
      rw [peek_iff (by simp [symbols]), hb₂]
      exact hpost.not_starts (by decide) (by decide) (by decide) (by decide)
    simp only [Sym.parse] at hres ⊢
    rw [parseline, hres]
    dsimp only
    rw [dif_neg hsemi, hb₁]
    exact ⟨_, _, rfl, by rw [lex_peek, hb₂], peek_le_length [';'.toUInt8] hb₃⟩
  | list n _ _ ihq ihl =>
    obtain ⟨pre₁, pre₂, rfl, hks₁, hks₂⟩ := List.map_eq_append_iff.mp hks
    obtain ⟨preQ, preA, rfl, hksQ, hksA⟩ := List.map_eq_append_iff.mp hks₁
    obtain ⟨tsc, preL, rfl, hksc, hksL⟩ := List.map_eq_cons_iff.mp hks₂
    simp only [List.cons_append, List.append_assoc] at hlex
    obtain ⟨c, j, hres, hj, hjl⟩ := ihq hlex hksQ
      (by rw [List.map_append, hksA, List.map_cons, hksc]; exact followOk_amps n (by decide : ';'.toUInt8 ∈ follows .pipe)) hp
    -- the `&`s, up to the `;`, then the line after it
    obtain ⟨hb₁, hb₂, hb₃⟩ := backLoop_complete n (c := c) hj hksA
      (by rw [List.map_cons, hksc, starts_single (by decide) (by decide) (by decide)]; decide) hjl
    have hsemi : (peek s (backLoop s c j.1).2.1 [';'.toUInt8]).1 := by
      rw [peek_iff (by simp [symbols]), hb₂, List.map_cons, hksc,
        starts_single (by decide) (by decide) (by decide)]
    obtain ⟨-, hlex₁⟩ := lex_after_peek [';'.toUInt8] hb₂
    obtain ⟨r, j', hres', hj', hjl'⟩ :=
      ihl hlex₁ hksL hpost (gettoken_le_length (peek_le_length _ hb₃))
    simp only [Sym.parse] at hres hres' ⊢
    rw [parseline, hres]
    dsimp only
    rw [dif_pos hsemi, hres', hb₁]
    exact ⟨_, _, rfl, hj', hjl'⟩

end Complete

/-! ## Every parse reads a sentence -/

/-- What a call from `p` read, when it returns `a`: tokens from which `P` derives `a`. -/
def ReadOk {α : Type} (s : List UInt8) (p : Nat) (P : α → List Token → Prop) :
    Except String (α × {j // p ≤ j}) → Prop
  | .error _ => True
  | .ok (a, j) => ∃ pre, lex s p = pre ++ lex s j.1 ∧ P a pre

/-- What the word loop of `parseexec` from `p` read, past the words `argv` and the
redirections `rs`, when it returns: words `A` with their redirections `R`. -/
def WordsRead (s : List UInt8) (argv : List (Nat × Nat)) (rs : List Redir) (p : Nat) :
    Except String (List (Nat × Nat) × List Redir × {j // p ≤ j}) → Prop
  | .error _ => True
  | .ok (argv', rs', j) => ∃ pre A R, argv' = argv ++ A ∧ rs' = rs ++ R ∧
      lex s p = pre ++ lex s j.1 ∧ WordsOf A R pre

section Sound

variable {s : List UInt8} {p : Nat}

/-- The token `peek` said yes to, for a one-byte symbol other than `>`, is that symbol. -/
theorem lex_peek_single {c : UInt8} (h : (peek s p [c]).1) (hs : c ∈ symbols)
    (hg : c ≠ '>'.toUInt8) (hp : c ≠ '+'.toUInt8) :
    ∃ t : Token, t.kind = c ∧ lex s p = t :: lex s (gettoken s (peek s p [c]).2).2.2.2 := by
  have ha : c ≠ 'a'.toUInt8 := by
    rintro rfl
    exact absurd hs (by decide)
  have hst := (peek_iff (by simpa using hs)).mp h
  rw [lex_peek_gettoken h, List.map_cons, starts_single ha hg hp] at hst
  exact ⟨_, hst, lex_peek_gettoken h⟩

theorem parseredirs_sound (s : List UInt8) (p : Nat) : ReadOk s p RedirsOf (parseredirs s p) := by
  fun_induction parseredirs s p with
  | case1 => trivial
  | case2 => trivial
  | case3 p hpeek t f hf _ rs j hrec ih =>
    rw [hrec] at ih
    obtain ⟨pre, hlex, hr⟩ := ih
    have hw : f.1 = 'a'.toUInt8 := of_not_not hf
    -- the operator, then its file
    have hlex₂ : lex s p = ⟨t.1, (peek s p ['<'.toUInt8, '>'.toUInt8]).2, t.2.2.1⟩ ::
        ⟨f.1, f.2.1, f.2.2.1⟩ :: lex s f.2.2.2 := by
      rw [lex_peek_gettoken hpeek, lex_of_kind_ne_zero (word_ne_zero hw)]
    have hop : t.1 ∈ redirKinds := by
      have hst := (peek_iff (by simp [symbols])).mp hpeek
      rwa [hlex₂, List.map_cons, starts_redir_iff] at hst
    exact ⟨_ :: _ :: pre, by rw [hlex₂, hlex]; rfl,
      @RedirsOf.cons ⟨t.1, _, t.2.2.1⟩ ⟨f.1, f.2.1, f.2.2.1⟩ _ _ hop hw hr⟩
  | case4 p _ => exact ⟨[], by rw [List.nil_append, lex_peek], .nil⟩

theorem execLoop_sound (s : List UInt8) (argv : List (Nat × Nat)) (rs : List Redir) (p : Nat) :
    WordsRead s argv rs p (execLoop s argv rs p) := by
  fun_induction execLoop s argv rs p with
  | case1 argv rs p _ =>
    exact ⟨[], [], [], by simp, by simp, by rw [List.nil_append, lex_peek], .nil⟩
  | case2 argv rs p _ g h0 =>
    refine ⟨[], [], [], by simp, by simp, ?_, .nil⟩
    show lex s p = [] ++ lex s g.2.2.2
    rw [List.nil_append, gettoken_of_kind_zero h0, lex_skipWs, lex_peek]
  | case3 => trivial
  | case4 => trivial
  | case5 => trivial
  | case6 => trivial
  | case7 argv rs p _ g h0 hw argv₁ _ rs₁ j hrec _ argv' rs' j' hloop ih =>
    rw [hloop] at ih
    obtain ⟨pre, A, R, hA, hR, hlex, hws⟩ := ih
    have hr := parseredirs_sound s g.2.2.2
    rw [hrec] at hr
    obtain ⟨preR, hlexR, hRs⟩ := hr
    have hw : g.1 = 'a'.toUInt8 := of_not_not hw
    -- the word, its redirections, then the rest of the loop
    refine ⟨⟨g.1, g.2.1, g.2.2.1⟩ :: (preR ++ pre), (g.2.1, g.2.2.1) :: A, rs₁ ++ R,
      by simp [hA, argv₁], by simp [hR], ?_, @WordsOf.cons ⟨g.1, g.2.1, g.2.2.1⟩ _ _ _ _ _ hw hRs hws⟩
    rw [← lex_peek execEnd, lex_of_kind_ne_zero h0, hlexR, hlex]
    simp only [List.cons_append, List.append_assoc]
    rfl

/-- `backLoop` reads `&`s, one for each `back` it wraps. -/
theorem backLoop_sound (s : List UInt8) (c : Cmd) (p : Nat) :
    ∃ n pre, (backLoop s c p).1 = Cmd.back^[n] c ∧ lex s p = pre ++ lex s (backLoop s c p).2.1 ∧
      pre.map Token.kind = List.replicate n '&'.toUInt8 := by
  fun_induction backLoop s c p with
  | case1 c p h _ b ih =>
    obtain ⟨n, pre, h1, h2, h3⟩ := ih
    obtain ⟨t, ht, hamp⟩ := lex_peek_single h (by decide) (by decide) (by decide)
    refine ⟨n + 1, t :: pre, by rw [Function.iterate_succ_apply, ← h1], ?_, ?_⟩
    · rw [hamp, h2]
      rfl
    · rw [List.map_cons, h3, ht, List.replicate_succ]
  | case2 c p _ => exact ⟨0, [], rfl, by rw [List.nil_append, lex_peek], rfl⟩

theorem parseblock_sound (h : (peek s p ['('.toUInt8]).1)
    (hline : ∀ q, s.length - q < s.length - p → ReadOk s q (Derives .line) (parseline s q)) :
    ReadOk s p (Derives .exec) (parseblock s p) := by
  rw [parseblock, dif_pos h]
  obtain ⟨topen, hto, hopen⟩ := lex_peek_single h (by decide) (by decide) (by decide)
  have hl := hline _ (peek_shortens h)
  rcases hres : parseline s (gettoken s (peek s p ['('.toUInt8]).2).2.2.2 with e | ⟨c, j⟩ <;>
    rw [hres] at hl
  · trivial
  · obtain ⟨preL, hlex, hL⟩ := hl
    dsimp only
    by_cases hc : (peek s j.1 [')'.toUInt8]).1
    · rw [if_pos hc]
      obtain ⟨tclose, htc, hclose⟩ := lex_peek_single hc (by decide) (by decide) (by decide)
      have hr := parseredirs_sound s (gettoken s (peek s j.1 [')'.toUInt8]).2).2.2.2
      rcases hres' : parseredirs s (gettoken s (peek s j.1 [')'.toUInt8]).2).2.2.2 with
        e | ⟨rs, j'⟩ <;> rw [hres'] at hr
      · trivial
      · obtain ⟨preR, hlexR, hR⟩ := hr
        refine ⟨topen :: (preL ++ tclose :: preR), ?_, .block hto hL htc hR⟩
        rw [hopen, hlex, hclose, hlexR]
        simp
    · rw [if_neg hc]
      trivial

theorem parseexec_sound
    (hblock : (peek s p ['('.toUInt8]).1 → ReadOk s p (Derives .exec) (parseblock s p)) :
    ReadOk s p (Derives .exec) (parseexec s p) := by
  rw [parseexec]
  by_cases h : (peek s p ['('.toUInt8]).1
  · rw [if_pos h]
    exact hblock h
  · rw [if_neg h]
    have hr := parseredirs_sound s p
    rcases hres : parseredirs s p with e | ⟨rs, j⟩ <;> rw [hres] at hr
    · trivial
    · obtain ⟨preR, hlexR, hR⟩ := hr
      dsimp only
      have hw := execLoop_sound s [] rs j.1
      have hok := execLoop_ok s [] rs j.1
      rcases hres' : execLoop s [] rs j.1 with e | ⟨argv, rs', j'⟩ <;> rw [hres'] at hw hok
      · trivial
      · obtain ⟨preW, A, R, hA, hR', hlexW, hW⟩ := hw
        -- the loop's own check keeps the words under `MAXARGS`
        obtain ⟨-, -, -, -, -, -, -, hmax⟩ := hok
        have hn : A.length < MAXARGS := by
          have := hmax (by decide)
          rwa [hA, List.nil_append] at this
        rw [hA, hR', List.nil_append]
        exact ⟨preR ++ preW, by rw [hlexR, hlexW, List.append_assoc], .simple hR hW hn⟩

theorem parsepipe_sound (hexec : ReadOk s p (Derives .exec) (parseexec s p))
    (hpipe : ∀ q, s.length - q < s.length - p → ReadOk s q (Derives .pipe) (parsepipe s q)) :
    ReadOk s p (Derives .pipe) (parsepipe s p) := by
  rw [parsepipe]
  rcases hres : parseexec s p with e | ⟨c, j⟩ <;> rw [hres] at hexec
  · trivial
  · obtain ⟨preE, hlex, hE⟩ := hexec
    dsimp only
    by_cases h : (peek s j.1 ['|'.toUInt8]).1
    · rw [dif_pos h]
      obtain ⟨t, ht, hbar⟩ := lex_peek_single h (by decide) (by decide) (by decide)
      have hp := hpipe _ (shortens_from (peek_shortens h) j.2)
      rcases hres' : parsepipe s (gettoken s (peek s j.1 ['|'.toUInt8]).2).2.2.2 with
        e | ⟨r, j'⟩ <;> rw [hres'] at hp
      · trivial
      · obtain ⟨preQ, hlex', hQ⟩ := hp
        exact ⟨preE ++ t :: preQ, by rw [hlex, hbar, hlex']; simp, .pipe hE ht hQ⟩
    · rw [dif_neg h]
      exact ⟨preE, by rw [hlex, lex_peek], .single hE⟩

theorem parseline_sound (hpipe : ReadOk s p (Derives .pipe) (parsepipe s p))
    (hline : ∀ q, s.length - q < s.length - p → ReadOk s q (Derives .line) (parseline s q)) :
    ReadOk s p (Derives .line) (parseline s p) := by
  rw [parseline]
  rcases hres : parsepipe s p with e | ⟨c, j⟩ <;> rw [hres] at hpipe
  · trivial
  · obtain ⟨preQ, hlex, hQ⟩ := hpipe
    obtain ⟨n, preA, hb, hlexb, hA⟩ := backLoop_sound s c j.1
    dsimp only
    rw [hb]
    generalize (backLoop s c j.1).2 = k at hlexb ⊢
    by_cases h : (peek s k.1 [';'.toUInt8]).1
    · rw [dif_pos h]
      obtain ⟨t, ht, hsemi⟩ := lex_peek_single h (by decide) (by decide) (by decide)
      have hl := hline _ (shortens_from (peek_shortens h) (j.2.trans k.2))
      rcases hres' : parseline s (gettoken s (peek s k.1 [';'.toUInt8]).2).2.2.2 with
        e | ⟨r, j'⟩ <;> rw [hres'] at hl
      · trivial
      · obtain ⟨preL, hlex', hL⟩ := hl
        exact ⟨preQ ++ preA ++ t :: preL, by rw [hlex, hlexb, hsemi, hlex']; simp,
          .list n hQ hA ht hL⟩
    · rw [dif_neg h]
      exact ⟨preQ ++ preA, by rw [hlex, hlexb, lex_peek, List.append_assoc], .back n hQ hA⟩

/-- What each function of the descent returns from any position is the tree of its symbol
that the tokens it read derive. -/
theorem parse_sound (s : List UInt8) (p : Nat) :
    ReadOk s p (Derives .exec) (parseexec s p) ∧ ReadOk s p (Derives .pipe) (parsepipe s p) ∧
      ReadOk s p (Derives .line) (parseline s p) := by
  -- strong induction on what is left of the line, as for `parse_ok`
  induction hn : s.length - p using Nat.strong_induction_on generalizing p with
  | _ n ih =>
    have hpipe : ∀ q, s.length - q < s.length - p → ReadOk s q (Derives .pipe) (parsepipe s q) :=
      fun q hq => (ih _ (hn ▸ hq) q rfl).2.1
    have hline : ∀ q, s.length - q < s.length - p → ReadOk s q (Derives .line) (parseline s q) :=
      fun q hq => (ih _ (hn ▸ hq) q rfl).2.2
    have hexec := parseexec_sound fun h => parseblock_sound h hline
    have hp := parsepipe_sound hexec hpipe
    exact ⟨hexec, hp, parseline_sound hp hline⟩

end Sound

/-- A command `parsecmd` returns is the tree the tokens of the whole line derive. -/
theorem parsecmd_derives {buf : List UInt8} {c : Cmd} {buf' : List UInt8}
    (h : parsecmd buf = .ok (c, buf')) : Derives .line c (lex (cmdline buf) 0) := by
  obtain ⟨j, hres, hend, -⟩ := parsecmd_eq_ok h
  have hr := (parse_sound (cmdline buf) 0).2.2
  rw [hres] at hr
  obtain ⟨pre, hlex, hd⟩ := hr
  -- only whitespace is left after the line
  have hnil : lex (cmdline buf) j.1 = [] := by rw [← lex_skipWs, hend, lex_length]
  rw [hnil, List.append_nil] at hlex
  rwa [hlex]

/-- On a line whose tokens are a sentence of the grammar, `parsecmd` returns a command. -/
theorem parsecmd_of_gram {buf : List UInt8} (hg : Gram .line ((lex (cmdline buf) 0).map Token.kind)) :
    ∃ c buf', parsecmd buf = .ok (c, buf') := by
  obtain ⟨c, j, hres, hj, hjl⟩ :=
    parse_complete hg (List.append_nil _).symm rfl trivial (Nat.zero_le _)
  simp only [Sym.parse] at hres
  have hend := skipWs_of_lex_nil (zero_not_mem_cmdline buf) hj hjl
  refine ⟨c, nulterminate buf c, ?_⟩
  rw [parsecmd, hres]
  dsimp only
  rw [if_neg (show ¬(peek (cmdline buf) j.1 []).2 ≠ (cmdline buf).length from not_not.mpr hend)]

/-- `parsecmd` returns a command for just the lines whose tokens are a sentence of the
grammar: on every other line it panics. -/
theorem parsecmd_ok_iff (buf : List UInt8) :
    (∃ c buf', parsecmd buf = .ok (c, buf')) ↔
      Gram .line ((lex (cmdline buf) 0).map Token.kind) :=
  ⟨fun ⟨_, _, h⟩ => (parsecmd_derives h).gram, parsecmd_of_gram⟩

/-- `parsecmd` accepts just the sentences of the grammar, and panics on every other line with
one of `parseErrors`. The tree it returns is the one the line's tokens derive, so each pipe,
list and back node stands for a `|`, `;` and `&` of the line and each redirection for an
operator and the word after it; its words are the words of the line, each once, each exec
node's in order, each redirection's file right after its operator. `nulterminate` then ends
each word with a NUL and changes no other byte. -/
theorem parsecmd_correct (buf : List UInt8) :
    ((∃ c buf', parsecmd buf = .ok (c, buf')) ↔
      Gram .line ((lex (cmdline buf) 0).map Token.kind)) ∧
    (∀ e, parsecmd buf = .error e → e ∈ parseErrors) ∧
    ∀ c buf', parsecmd buf = .ok (c, buf') →
      Shape .line c ∧ Derives .line c (lex (cmdline buf) 0) ∧
      (∀ q e, (q, e) ∈ c.words ↔ IsWord (cmdline buf) q e) ∧ c.words.Nodup ∧
      (∀ a ∈ c.argvs, (∀ w ∈ a, IsWord (cmdline buf) w.1 w.2) ∧
        a.Pairwise fun w w' => w.2 ≤ w'.1) ∧
      (∀ r ∈ c.redirs, IsWord (cmdline buf) r.file r.efile ∧ OpBefore (cmdline buf) r) ∧
      buf'.length = buf.length ∧
      (∀ w ∈ c.words, buf'.getD w.2 0 = 0 ∧ ∀ i, w.1 ≤ i → i < w.2 → buf'[i]? = buf[i]?) ∧
      ∀ i, (∀ w ∈ c.words, w.2 ≠ i) → buf'[i]? = buf[i]? := by
  obtain ⟨herr, hok⟩ := parsecmd_holds buf
  refine ⟨⟨fun ⟨_, _, h⟩ => (parsecmd_derives h).gram, parsecmd_of_gram⟩, herr,
    fun c buf' h => ?_⟩
  obtain ⟨hshape, hrest⟩ := hok c buf' h
  exact ⟨hshape, parsecmd_derives h, hrest⟩

end Xv6.Sh
