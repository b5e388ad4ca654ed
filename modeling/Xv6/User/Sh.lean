import Mathlib
import Xv6.User.ShToken

/-!
# The shell's parser

`parsecmd` of `sh.c` and the recursive descent under it, on the command line `s` of
`ShToken`: a pointer into the line is a position, and a command holds positions, each word
from `argv[i]` (or `file`) up to `eargv[i]` (or `efile`). A `panic` is an `Except` error
with its message. The four functions of the grammar are one well-founded recursion on the
bytes left and a rank, since `parseline`, `parsepipe` and `parseexec` call down at the same
position.
-/

namespace Xv6.Sh

/-- `fcntl.h`. -/
def O_RDONLY : Nat := 0x000

def O_WRONLY : Nat := 0x001

def O_CREATE : Nat := 0x200

def MAXARGS : Nat := 10

/-- A `redircmd` but its subcommand: the file's word from `file` up to `efile`. -/
structure Redir where
  file : Nat
  efile : Nat
  mode : Nat
  fd : Nat
deriving DecidableEq, Repr

/-- `struct cmd` of each type; an `execcmd` holds its words, `argv[i]` up to `eargv[i]`. -/
inductive Cmd where
  | exec (argv : List (Nat × Nat))
  | redir (cmd : Cmd) (r : Redir)
  | pipe (left right : Cmd)
  | list (left right : Cmd)
  | back (cmd : Cmd)
deriving DecidableEq, Repr

/-- `cmd` after `parseredirs` wrapped it in the redirections `rs`, the first innermost. -/
def Cmd.wrap (c : Cmd) (rs : List Redir) : Cmd := rs.foldl Cmd.redir c

/-! The loops and the descent go down in what is left of the line. -/

theorem shortens_from {n a b p : Nat} (h : n - b < n - a) (hp : p ≤ a) : n - b < n - p := by
  omega

theorem shortens_to {n b j p : Nat} (h : n - b < n - p) (hb : b ≤ j) : n - j < n - p := by
  omega

theorem word_ne_zero {k : UInt8} (h : k = 'a'.toUInt8) : k ≠ 0 := by
  rw [h]
  decide

/-- The `switch(tok)` of `parseredirs`: the redirection the operator `tok` makes of the file
from `q` up to `eq`. -/
def redirOf (tok : UInt8) (q eq : Nat) : List Redir :=
  if tok = '<'.toUInt8 then [⟨q, eq, O_RDONLY, 0⟩]
  else if tok = '>'.toUInt8 then [⟨q, eq, O_WRONLY ||| O_CREATE, 1⟩]
  else if tok = '+'.toUInt8 then [⟨q, eq, O_WRONLY ||| O_CREATE, 1⟩]
  else []

/-- `parseredirs`: the redirections read from `p`, in order, and the new `*ps`. -/
def parseredirs (s : List UInt8) (p : Nat) : Except String (List Redir × {j // p ≤ j}) :=
  if (peek s p ['<'.toUInt8, '>'.toUInt8]).1 then
    let t := gettoken s (peek s p ['<'.toUInt8, '>'.toUInt8]).2
    let f := gettoken s t.2.2.2
    if hf : f.1 ≠ 'a'.toUInt8 then .error "missing file for redirection"
    else
      have := shortens_from (gettoken_shortens (word_ne_zero (of_not_not hf)))
        (le_gettoken_peek s p _)
      match parseredirs s f.2.2.2 with
      | .error e => .error e
      | .ok (rs, j) =>
        .ok (redirOf t.1 f.2.1 f.2.2.1 ++ rs,
          ⟨j.1, ((le_gettoken_peek s p _).trans (le_gettoken s _)).trans j.2⟩)
  else .ok ([], ⟨(peek s p ['<'.toUInt8, '>'.toUInt8]).2, le_peek s p _⟩)
termination_by s.length - p
decreasing_by exact this

/-- `"|)&;"`, where the words of an `execcmd` stop. -/
def execEnd : List UInt8 := ['|', ')', '&', ';'].map Char.toUInt8

/-- The `while` loop of `parseexec`: the words `argv` and redirections `rs` read so far, then
those read from `p`. -/
def execLoop (s : List UInt8) (argv : List (Nat × Nat)) (rs : List Redir) (p : Nat) :
    Except String (List (Nat × Nat) × List Redir × {j // p ≤ j}) :=
  if (peek s p execEnd).1 then .ok (argv, rs, ⟨(peek s p execEnd).2, le_peek s p _⟩)
  else
    let g := gettoken s (peek s p execEnd).2
    if h0 : g.1 = 0 then .ok (argv, rs, ⟨g.2.2.2, le_gettoken_peek s p _⟩)
    else if g.1 ≠ 'a'.toUInt8 then .error "syntax"
    else
      -- `argv[argc] = q; eargv[argc] = eq; argc++;` and then the check
      let argv := argv ++ [(g.2.1, g.2.2.1)]
      if MAXARGS ≤ argv.length then .error "too many args"
      else
        match parseredirs s g.2.2.2 with
        | .error e => .error e
        | .ok (rs', j) =>
          have := shortens_from (gettoken_shortens h0) (le_peek s p _)
          match execLoop s argv (rs ++ rs') j.1 with
          | .error e => .error e
          | .ok (argv', rs'', j') =>
            .ok (argv', rs'', ⟨j'.1, ((le_gettoken_peek s p _).trans j.2).trans j'.2⟩)
termination_by s.length - p
decreasing_by exact shortens_to this j.2

/-- `while(peek(ps, es, "&")){ gettoken(ps, es, 0, 0); cmd = backcmd(cmd); }` -/
def backLoop (s : List UInt8) (c : Cmd) (p : Nat) : Cmd × {j // p ≤ j} :=
  if h : (peek s p ['&'.toUInt8]).1 then
    have := peek_shortens h
    let b := backLoop s (.back c) (gettoken s (peek s p ['&'.toUInt8]).2).2.2.2
    (b.1, ⟨b.2.1, (le_gettoken_peek s p _).trans b.2.2⟩)
  else (c, ⟨(peek s p ['&'.toUInt8]).2, le_peek s p _⟩)
termination_by s.length - p
decreasing_by exact this

mutual

/-- `parseline`: `pipe {'&'} [';' line]`. -/
def parseline (s : List UInt8) (p : Nat) : Except String (Cmd × {j // p ≤ j}) :=
  match parsepipe s p with
  | .error e => .error e
  | .ok (c, j) =>
    match backLoop s c j.1 with
    | (c, k) =>
      if h : (peek s k.1 [';'.toUInt8]).1 then
        have := shortens_from (peek_shortens h) (j.2.trans k.2)
        match parseline s (gettoken s (peek s k.1 [';'.toUInt8]).2).2.2.2 with
        | .error e => .error e
        | .ok (r, j') =>
          .ok (.list c r, ⟨j'.1, ((j.2.trans k.2).trans (le_gettoken_peek s _ _)).trans j'.2⟩)
      else .ok (c, ⟨(peek s k.1 [';'.toUInt8]).2, (j.2.trans k.2).trans (le_peek s _ _)⟩)
termination_by (s.length - p, 3)
decreasing_by
  · exact Prod.Lex.right _ (by decide)
  · exact Prod.Lex.left _ _ this

/-- `parsepipe`: `exec ['|' pipe]`. -/
def parsepipe (s : List UInt8) (p : Nat) : Except String (Cmd × {j // p ≤ j}) :=
  match parseexec s p with
  | .error e => .error e
  | .ok (c, j) =>
    if h : (peek s j.1 ['|'.toUInt8]).1 then
      have := shortens_from (peek_shortens h) j.2
      match parsepipe s (gettoken s (peek s j.1 ['|'.toUInt8]).2).2.2.2 with
      | .error e => .error e
      | .ok (r, j') => .ok (.pipe c r, ⟨j'.1, (j.2.trans (le_gettoken_peek s _ _)).trans j'.2⟩)
    else .ok (c, ⟨(peek s j.1 ['|'.toUInt8]).2, j.2.trans (le_peek s _ _)⟩)
termination_by (s.length - p, 2)
decreasing_by
  · exact Prod.Lex.right _ (by decide)
  · exact Prod.Lex.left _ _ this

/-- `parseexec`: `'(' line ')' redirs` or `redirs {word redirs}`. -/
def parseexec (s : List UInt8) (p : Nat) : Except String (Cmd × {j // p ≤ j}) :=
  if (peek s p ['('.toUInt8]).1 then parseblock s p
  else
    match parseredirs s p with
    | .error e => .error e
    | .ok (rs, j) =>
      match execLoop s [] rs j.1 with
      | .error e => .error e
      | .ok (argv, rs, j') => .ok ((Cmd.exec argv).wrap rs, ⟨j'.1, j.2.trans j'.2⟩)
termination_by (s.length - p, 1)
decreasing_by exact Prod.Lex.right _ (by decide)

/-- `parseblock`: `'(' line ')' redirs`. -/
def parseblock (s : List UInt8) (p : Nat) : Except String (Cmd × {j // p ≤ j}) :=
  if h : (peek s p ['('.toUInt8]).1 then
    have := peek_shortens h
    match parseline s (gettoken s (peek s p ['('.toUInt8]).2).2.2.2 with
    | .error e => .error e
    | .ok (c, j) =>
      if (peek s j.1 [')'.toUInt8]).1 then
        match parseredirs s (gettoken s (peek s j.1 [')'.toUInt8]).2).2.2.2 with
        | .error e => .error e
        | .ok (rs, j') =>
          .ok (c.wrap rs, ⟨j'.1,
            (((le_gettoken_peek s p _).trans j.2).trans (le_gettoken_peek s _ _)).trans j'.2⟩)
      else .error "syntax - missing )"
  else .error "parseblock"
termination_by (s.length - p, 0)
decreasing_by exact Prod.Lex.left _ _ this

end

/-- `nulterminate`: a NUL written at the end of every word the command holds. -/
def nulterminate (buf : List UInt8) : Cmd → List UInt8
  | .exec argv => argv.foldl (fun b w => b.set w.2 0) buf
  | .redir c r => (nulterminate buf c).set r.efile 0
  | .pipe l r => nulterminate (nulterminate buf l) r
  | .list l r => nulterminate (nulterminate buf l) r
  | .back c => nulterminate buf c

/-- The command line in `buf`: the bytes before its NUL, `es = s + strlen(s)`. -/
def cmdline (buf : List UInt8) : List UInt8 := buf.takeWhile (· != 0)

/-- `parsecmd`: the command, and the buffer after `nulterminate`. -/
def parsecmd (buf : List UInt8) : Except String (Cmd × List UInt8) :=
  match parseline (cmdline buf) 0 with
  | .error e => .error e
  | .ok (c, j) =>
    -- `peek(&s, es, "")` passes the whitespace after the line; anything else is left over
    if (peek (cmdline buf) j.1 []).2 ≠ (cmdline buf).length then .error "syntax"
    else .ok (c, nulterminate buf c)

/-! ## What a command holds -/

/-- The word a redirection opens. -/
def Redir.span (r : Redir) : Nat × Nat := (r.file, r.efile)

/-- The words a command holds, in the order `nulterminate` visits them. -/
def Cmd.words : Cmd → List (Nat × Nat)
  | .exec argv => argv
  | .redir c r => c.words ++ [r.span]
  | .pipe l r => l.words ++ r.words
  | .list l r => l.words ++ r.words
  | .back c => c.words

/-- The `argv` of each exec node. -/
def Cmd.argvs : Cmd → List (List (Nat × Nat))
  | .exec argv => [argv]
  | .redir c _ => c.argvs
  | .pipe l r => l.argvs ++ r.argvs
  | .list l r => l.argvs ++ r.argvs
  | .back c => c.argvs

/-- The redirection nodes. -/
def Cmd.redirs : Cmd → List Redir
  | .exec _ => []
  | .redir c r => c.redirs ++ [r]
  | .pipe l r => l.redirs ++ r.redirs
  | .list l r => l.redirs ++ r.redirs
  | .back c => c.redirs

section Accessors

variable (c : Cmd) (rs : List Redir) (n : Nat)

@[simp] theorem Cmd.words_wrap : (c.wrap rs).words = c.words ++ rs.map Redir.span := by
  induction rs generalizing c with
  | nil => simp [Cmd.wrap]
  | cons r rs ih =>
    show ((Cmd.redir c r).wrap rs).words = _
    rw [ih, Cmd.words, List.map_cons, List.append_assoc, List.singleton_append]

@[simp] theorem Cmd.argvs_wrap : (c.wrap rs).argvs = c.argvs := by
  induction rs generalizing c with
  | nil => rfl
  | cons r rs ih => exact ih (.redir c r)

@[simp] theorem Cmd.redirs_wrap : (c.wrap rs).redirs = c.redirs ++ rs := by
  induction rs generalizing c with
  | nil => simp [Cmd.wrap]
  | cons r rs ih =>
    show ((Cmd.redir c r).wrap rs).redirs = _
    rw [ih, Cmd.redirs, List.append_assoc, List.singleton_append]

@[simp] theorem Cmd.words_back_iterate : (Cmd.back^[n] c).words = c.words := by
  induction n generalizing c with
  | zero => rfl
  | succ n ih => rw [Function.iterate_succ_apply, ih, Cmd.words]

@[simp] theorem Cmd.argvs_back_iterate : (Cmd.back^[n] c).argvs = c.argvs := by
  induction n generalizing c with
  | zero => rfl
  | succ n ih => rw [Function.iterate_succ_apply, ih, Cmd.argvs]

@[simp] theorem Cmd.redirs_back_iterate : (Cmd.back^[n] c).redirs = c.redirs := by
  induction n generalizing c with
  | zero => rfl
  | succ n ih => rw [Function.iterate_succ_apply, ih, Cmd.redirs]

end Accessors

/-! ## The grammar -/

/-- The symbols of the grammar `parsecmd` reads. -/
inductive Sym where
  | line
  | pipe
  | exec
deriving DecidableEq, Repr

/-- The trees the grammar makes: `line := pipe {'&'} [';' line]`, `pipe := exec ['|' pipe]`,
`exec := '(' line ')' redirs | redirs {word redirs}`, with fewer than `MAXARGS` words to an
exec node. -/
inductive Shape : Sym → Cmd → Prop where
  | exec {argv : List (Nat × Nat)} (rs : List Redir) :
      argv.length < MAXARGS → Shape .exec ((Cmd.exec argv).wrap rs)
  | block {c : Cmd} (rs : List Redir) : Shape .line c → Shape .exec (c.wrap rs)
  | single {c : Cmd} : Shape .exec c → Shape .pipe c
  | pipe {l r : Cmd} : Shape .exec l → Shape .pipe r → Shape .pipe (.pipe l r)
  | back {c : Cmd} (n : Nat) : Shape .pipe c → Shape .line (Cmd.back^[n] c)
  | list {c r : Cmd} (n : Nat) : Shape .pipe c → Shape .line r → Shape .line (.list (Cmd.back^[n] c) r)

/-- The redirection's file follows its operator with only whitespace between: `<` opens it
for reading as fd 0, `>` or `>>` for writing as fd 1. -/
def OpBefore (s : List UInt8) (r : Redir) : Prop :=
  ∃ k < r.file, (∀ i, k < i → i < r.file → ch s i ∈ whitespace) ∧
    (ch s k = '<'.toUInt8 ∧ r.mode = O_RDONLY ∧ r.fd = 0 ∨
      ch s k = '>'.toUInt8 ∧ r.mode = O_WRONLY ||| O_CREATE ∧ r.fd = 1)

/-- The words `ws`, argv lists `as` and redirections `rs` are what the tokens `ts` hold: `ws`
are their words, each argv lists some of them in order, each file follows its operator. -/
structure Holds (s : List UInt8) (ts : List Token) (ws : List (Nat × Nat))
    (as : List (List (Nat × Nat))) (rs : List Redir) : Prop where
  words : ws.Perm (wordSpans ts)
  argv : ∀ a ∈ as, a.Sublist (wordSpans ts)
  redir : ∀ r ∈ rs, OpBefore s r

namespace Holds

variable {s : List UInt8} {t : Token} {ts ts' : List Token} {ws ws' : List (Nat × Nat)}
  {as as' : List (List (Nat × Nat))} {rs rs' : List Redir}

theorem of_wordSpans_nil (h : wordSpans ts = []) : Holds s ts [] [] [] :=
  ⟨h ▸ List.Perm.refl _, fun _ ha => absurd ha List.not_mem_nil,
    fun _ hr => absurd hr List.not_mem_nil⟩

theorem append (h : Holds s ts ws as rs) (h' : Holds s ts' ws' as' rs') :
    Holds s (ts ++ ts') (ws ++ ws') (as ++ as') (rs ++ rs') := by
  refine ⟨?_, fun a ha => ?_, fun r hr => ?_⟩
  · rw [wordSpans_append]
    exact h.words.append h'.words
  · rw [wordSpans_append]
    rcases List.mem_append.mp ha with ha | ha
    · exact (h.argv a ha).trans (List.sublist_append_left _ _)
    · exact (h'.argv a ha).trans (List.sublist_append_right _ _)
  · rcases List.mem_append.mp hr with hr | hr
    · exact h.redir r hr
    · exact h'.redir r hr

theorem cons_symbol (ht : t.kind ≠ 'a'.toUInt8) (h : Holds s ts ws as rs) :
    Holds s (t :: ts) ws as rs := by
  have := (of_wordSpans_nil (wordSpans_symbol ht) : Holds s [t] [] [] []).append h
  simpa using this

theorem perm (h : Holds s ts ws as rs) (hw : ws.Perm ws') : Holds s ts ws' as rs :=
  ⟨hw.symm.trans h.words, h.argv, h.redir⟩

/-- A redirection's file word, and the redirection. -/
theorem cons_redir {r : Redir} (ht : t.kind = 'a'.toUInt8) (hr : OpBefore s r)
    (hspan : r.span = (t.q, t.eq)) (h : Holds s ts ws as rs) :
    Holds s (t :: ts) (r.span :: ws) as (r :: rs) := by
  refine ⟨?_, fun a ha => ?_, fun r' hr' => ?_⟩
  · rw [wordSpans_cons, if_pos ht, hspan]
    exact h.words.cons _
  · rw [wordSpans_cons, if_pos ht]
    exact (h.argv a ha).cons _
  · rcases List.mem_cons.mp hr' with rfl | hr'
    · exact hr
    · exact h.redir r' hr'

/-- A word of an exec node: the first of its argv. -/
theorem cons_arg {a : List (Nat × Nat)} (ht : t.kind = 'a'.toUInt8) (h : Holds s ts ws [a] rs) :
    Holds s (t :: ts) ((t.q, t.eq) :: ws) [(t.q, t.eq) :: a] rs := by
  refine ⟨?_, fun a' ha' => ?_, h.redir⟩
  · rw [wordSpans_cons, if_pos ht]
    exact h.words.cons _
  · rw [List.mem_singleton.mp ha', wordSpans_cons, if_pos ht]
    exact (h.argv a (List.mem_singleton_self a)).cons_cons _

end Holds

/-! ## The loops -/

/-- What `parsecmd` panics with. -/
def parseErrors : List String :=
  ["syntax", "missing file for redirection", "too many args", "syntax - missing )"]

/-- What `parseredirs` from `p` gives: a panic for a missing file, or redirections that the
tokens it read hold. -/
def RedirsOk (s : List UInt8) (p : Nat) : Except String (List Redir × {j // p ≤ j}) → Prop
  | .error e => e = "missing file for redirection"
  | .ok (rs, j) => ∃ ts, lex s p = ts ++ lex s j.1 ∧ Holds s ts (rs.map Redir.span) [] rs

/-- What the word loop of `parseexec` from `p` gives, past the words `argv` and the
redirections `rs`: a panic, or more words `A` and redirections `R` that the tokens it read
hold, with fewer than `MAXARGS` words in all. -/
def ExecOk (s : List UInt8) (argv : List (Nat × Nat)) (rs : List Redir) (p : Nat) :
    Except String (List (Nat × Nat) × List Redir × {j // p ≤ j}) → Prop
  | .error e => e ∈ parseErrors
  | .ok (argv', rs', j) => ∃ ts A R, argv' = argv ++ A ∧ rs' = rs ++ R ∧
      lex s p = ts ++ lex s j.1 ∧ Holds s ts (A ++ R.map Redir.span) [A] R ∧
      (argv.length < MAXARGS → argv'.length < MAXARGS)

section Loops

variable {s : List UInt8} {p : Nat}

theorem mem_parseErrors_of_redirs {q : Nat} {e : String} (h : RedirsOk s q (.error e)) :
    e ∈ parseErrors := by
  rw [show e = _ from h]
  simp [parseErrors]

/-- The redirection an operator `peek` found makes of the word after it: one, whose file
follows the operator. -/
theorem redirOf_peek (h : (peek s p ['<'.toUInt8, '>'.toUInt8]).1) (e : Nat) :
    ∃ r, redirOf (gettoken s (peek s p ['<'.toUInt8, '>'.toUInt8]).2).1
        (gettoken s (gettoken s (peek s p ['<'.toUInt8, '>'.toUInt8]).2).2.2.2).2.1 e = [r] ∧
      r.span = ((gettoken s (gettoken s (peek s p ['<'.toUInt8, '>'.toUInt8]).2).2.2.2).2.1, e) ∧
      OpBefore s r := by
  have hc : ch s (peek s p ['<'.toUInt8, '>'.toUInt8]).2 = '<'.toUInt8 ∨
      ch s (peek s p ['<'.toUInt8, '>'.toUInt8]).2 = '>'.toUInt8 := by
    simpa using (peek_eq_true.mp h).2
  rw [gettoken_peek]
  dsimp only [gettoken]
  rw [skipWs_skipWs]
  generalize (peek s p ['<'.toUInt8, '>'.toUInt8]).2 = q at hc
  -- the operator ends past its first byte; whitespace runs from there to the file
  have hlt : q < (scan s q).2 := by
    refine (scan_lt (fun _ => ?_) fun h0 => ?_).1
    · rcases hc with hc | hc <;> rw [hc] <;> decide
    · rcases hc with hc | hc <;> rw [scan_eq_zero_iff, hc] at h0 <;> exact absurd h0 (by decide)
  have hk : (scan s q).2 - 1 < skipWs s (scan s q).2 := by
    have := le_skipWs s (scan s q).2
    omega
  have hws : ∀ i, (scan s q).2 - 1 < i → i < skipWs s (scan s q).2 → ch s i ∈ whitespace :=
    fun i h1 h2 => skipWs_space (by omega) h2
  rcases scan_redir hc with ⟨hin, hch⟩ | ⟨hout, hch⟩
  · exact ⟨_, by rw [redirOf, if_pos hin], rfl, _, hk, hws, .inl ⟨hch, rfl, rfl⟩⟩
  · refine ⟨⟨skipWs s (scan s q).2, e, O_WRONLY ||| O_CREATE, 1⟩, ?_, rfl, _, hk, hws,
      .inr ⟨hch, rfl, rfl⟩⟩
    rcases hout with hout | hout
    · rw [redirOf, if_neg (by rw [hout]; decide), if_pos hout]
    · rw [redirOf, if_neg (by rw [hout]; decide), if_neg (by rw [hout]; decide), if_pos hout]

theorem parseredirs_ok (s : List UInt8) (p : Nat) : RedirsOk s p (parseredirs s p) := by
  fun_induction parseredirs s p with
  | case1 => rfl
  | case2 p _ t f _ _ e hrec ih =>
    rw [hrec] at ih
    exact ih
  | case3 p hpeek t f hf _ rs j hrec ih =>
    rw [hrec] at ih
    obtain ⟨ts, hlex, hholds⟩ := ih
    have hw : f.1 = 'a'.toUInt8 := of_not_not hf
    obtain ⟨r, hr, hspan, hop⟩ : ∃ r, redirOf t.1 f.2.1 f.2.2.1 = [r] ∧
        r.span = (f.2.1, f.2.2.1) ∧ OpBefore s r := redirOf_peek hpeek _
    -- the operator, then the file's word
    have hlex₂ : lex s p = ⟨t.1, (peek s p ['<'.toUInt8, '>'.toUInt8]).2, t.2.2.1⟩ ::
        ⟨f.1, f.2.1, f.2.2.1⟩ :: lex s f.2.2.2 := by
      rw [lex_peek_gettoken hpeek, lex_of_kind_ne_zero (word_ne_zero hw)]
    refine ⟨_ :: _ :: ts, by rw [hlex₂, hlex]; rfl, ?_⟩
    rw [hr]
    exact (hholds.cons_redir hw hop hspan).cons_symbol (gettoken_peek_ne_word hpeek (by simp [symbols]))
  | case4 p _ =>
    exact ⟨[], by rw [List.nil_append, lex_peek], Holds.of_wordSpans_nil rfl⟩

theorem execLoop_ok (s : List UInt8) (argv : List (Nat × Nat)) (rs : List Redir) (p : Nat) :
    ExecOk s argv rs p (execLoop s argv rs p) := by
  have hnone : Holds s [] ([] ++ List.map Redir.span []) [[]] [] :=
    ⟨List.Perm.refl _, fun a ha => by rw [List.mem_singleton.mp ha]; exact List.nil_sublist _,
      fun _ hr => absurd hr List.not_mem_nil⟩
  fun_induction execLoop s argv rs p with
  | case1 argv rs p _ =>
    exact ⟨[], [], [], by simp, by simp, by rw [List.nil_append, lex_peek], hnone, by simp⟩
  | case2 argv rs p _ g h0 =>
    refine ⟨[], [], [], by simp, by simp, ?_, hnone, by simp⟩
    show lex s p = [] ++ lex s g.2.2.2
    rw [List.nil_append, gettoken_of_kind_zero h0, lex_skipWs, lex_peek]
  | case3 => show "syntax" ∈ parseErrors; simp [parseErrors]
  | case4 => show "too many args" ∈ parseErrors; simp [parseErrors]
  | case5 argv rs p _ g _ _ argv₁ _ e hrec =>
    have h := parseredirs_ok s g.2.2.2
    rw [hrec] at h
    exact mem_parseErrors_of_redirs h
  | case6 argv rs p _ g _ _ argv₁ _ rs₁ j _ _ e hloop ih =>
    rw [hloop] at ih
    exact ih
  | case7 argv rs p _ g h0 hw argv₁ hmax rs₁ j hrec _ argv' rs' j' hloop ih =>
    rw [hloop] at ih
    obtain ⟨ts, A, R, hA, hR, hlex, hholds, hlen⟩ := ih
    have hredirs := parseredirs_ok s g.2.2.2
    rw [hrec] at hredirs
    obtain ⟨tsR, hlexR, hholdsR⟩ := hredirs
    have hw : g.1 = 'a'.toUInt8 := of_not_not hw
    -- the word, the redirections after it, then the rest of the loop
    have hall : Holds s (⟨g.1, g.2.1, g.2.2.1⟩ :: (tsR ++ ts))
        ((g.2.1, g.2.2.1) :: (rs₁.map Redir.span ++ (A ++ R.map Redir.span)))
        [(g.2.1, g.2.2.1) :: A] (rs₁ ++ R) :=
      Holds.cons_arg hw (hholdsR.append hholds)
    refine ⟨_ :: (tsR ++ ts), (g.2.1, g.2.2.1) :: A, rs₁ ++ R, by simp [hA, argv₁], by simp [hR],
      ?_, hall.perm ?_, fun _ => hlen (Nat.lt_of_not_le hmax)⟩
    · rw [← lex_peek execEnd, lex_of_kind_ne_zero h0, hlexR, hlex]
      simp only [List.cons_append, List.append_assoc]
      rfl
    · rw [List.map_append, List.cons_append]
      exact (List.perm_append_comm_assoc _ _ _).cons _

/-- The `&`s after a pipe: `backLoop` wraps it once for each. -/
theorem backLoop_spec (s : List UInt8) (c : Cmd) (p : Nat) :
    ∃ n ts, (backLoop s c p).1 = Cmd.back^[n] c ∧ lex s p = ts ++ lex s (backLoop s c p).2.1 ∧
      wordSpans ts = [] := by
  fun_induction backLoop s c p with
  | case1 c p h _ b ih =>
    obtain ⟨n, ts, h1, h2, h3⟩ := ih
    refine ⟨n + 1, ⟨(gettoken s (peek s p ['&'.toUInt8]).2).1, (peek s p ['&'.toUInt8]).2,
      (gettoken s (peek s p ['&'.toUInt8]).2).2.2.1⟩ :: ts,
      by rw [Function.iterate_succ_apply, ← h1], ?_, ?_⟩
    · rw [lex_peek_gettoken h, h2]
      rfl
    · rw [wordSpans_cons, if_neg (gettoken_peek_ne_word h (by simp [symbols])), h3]
  | case2 c p _ => exact ⟨0, [], rfl, by rw [List.nil_append, lex_peek], rfl⟩

end Loops

/-! ## The descent -/

/-- A parse from `p` to `j` made `c`, a tree of the grammar's symbol `x` holding what the
tokens between hold. -/
def Parsed (s : List UInt8) (x : Sym) (p : Nat) (c : Cmd) (j : Nat) : Prop :=
  Shape x c ∧ ∃ ts, lex s p = ts ++ lex s j ∧ Holds s ts c.words c.argvs c.redirs

/-- What a function of the descent gives from `p`: a panic of `parseErrors`, or a parse. -/
def ParseOk (s : List UInt8) (x : Sym) (p : Nat) : Except String (Cmd × {j // p ≤ j}) → Prop
  | .error e => e ∈ parseErrors
  | .ok (c, j) => Parsed s x p c j.1

section Descent

variable {s : List UInt8} {p : Nat}

theorem parseblock_ok (h : (peek s p ['('.toUInt8]).1)
    (hline : ∀ q, s.length - q < s.length - p → ParseOk s .line q (parseline s q)) :
    ParseOk s .exec p (parseblock s p) := by
  rw [parseblock, dif_pos h]
  obtain ⟨topen, hto, hopen⟩ := lex_peek_symbol h (by simp [symbols])
  have hl := hline _ (peek_shortens h)
  rcases hres : parseline s (gettoken s (peek s p ['('.toUInt8]).2).2.2.2 with e | ⟨c, j⟩ <;>
    rw [hres] at hl
  · exact hl
  · obtain ⟨hshape, ts, hlex, hholds⟩ := hl
    dsimp only
    by_cases hc : (peek s j.1 [')'.toUInt8]).1
    · rw [if_pos hc]
      obtain ⟨tclose, htc, hclose⟩ := lex_peek_symbol hc (by simp [symbols])
      have hr := parseredirs_ok s (gettoken s (peek s j.1 [')'.toUInt8]).2).2.2.2
      rcases hres' : parseredirs s (gettoken s (peek s j.1 [')'.toUInt8]).2).2.2.2 with
        e | ⟨rs, j'⟩ <;> rw [hres'] at hr
      · exact mem_parseErrors_of_redirs hr
      · obtain ⟨tsR, hlexR, hholdsR⟩ := hr
        refine ⟨.block rs hshape, topen :: (ts ++ tclose :: tsR), ?_, ?_⟩
        · rw [hopen, hlex, hclose, hlexR]
          simp
        · simpa using ((hholds.append (hholdsR.cons_symbol htc)).cons_symbol hto)
    · rw [if_neg hc]
      show "syntax - missing )" ∈ parseErrors
      simp [parseErrors]

theorem parseexec_ok (hblock : (peek s p ['('.toUInt8]).1 → ParseOk s .exec p (parseblock s p)) :
    ParseOk s .exec p (parseexec s p) := by
  rw [parseexec]
  by_cases h : (peek s p ['('.toUInt8]).1
  · rw [if_pos h]
    exact hblock h
  · rw [if_neg h]
    have hr := parseredirs_ok s p
    rcases hres : parseredirs s p with e | ⟨rs, j⟩ <;> rw [hres] at hr
    · exact mem_parseErrors_of_redirs hr
    · obtain ⟨ts₁, hlex₁, hholds₁⟩ := hr
      dsimp only
      have hl := execLoop_ok s [] rs j.1
      rcases hres' : execLoop s [] rs j.1 with e | ⟨argv, rs', j'⟩ <;> rw [hres'] at hl
      · exact hl
      · obtain ⟨ts₂, A, R, rfl, rfl, hlex₂, hholds₂, hlen⟩ := hl
        -- the redirections before the first word, then the loop
        have hall := (hholds₁.append hholds₂).perm (List.perm_append_comm_assoc _ _ _)
        refine ⟨.exec _ (hlen (by decide)), ts₁ ++ ts₂, ?_, ?_⟩
        · rw [hlex₁, hlex₂, List.append_assoc]
        · simpa [Cmd.words, Cmd.argvs, Cmd.redirs] using hall

theorem parsepipe_ok (hexec : ParseOk s .exec p (parseexec s p))
    (hpipe : ∀ q, s.length - q < s.length - p → ParseOk s .pipe q (parsepipe s q)) :
    ParseOk s .pipe p (parsepipe s p) := by
  rw [parsepipe]
  rcases hres : parseexec s p with e | ⟨c, j⟩ <;> rw [hres] at hexec
  · exact hexec
  · obtain ⟨hshape, ts, hlex, hholds⟩ := hexec
    dsimp only
    by_cases h : (peek s j.1 ['|'.toUInt8]).1
    · rw [dif_pos h]
      obtain ⟨t, ht, hbar⟩ := lex_peek_symbol h (by simp [symbols])
      have hp := hpipe _ (shortens_from (peek_shortens h) j.2)
      rcases hres' : parsepipe s (gettoken s (peek s j.1 ['|'.toUInt8]).2).2.2.2 with
        e | ⟨r, j'⟩ <;> rw [hres'] at hp
      · exact hp
      · obtain ⟨hshape', ts', hlex', hholds'⟩ := hp
        refine ⟨.pipe hshape hshape', ts ++ t :: ts', ?_, ?_⟩
        · rw [hlex, hbar, hlex']
          simp
        · simpa [Cmd.words, Cmd.argvs, Cmd.redirs] using hholds.append (hholds'.cons_symbol ht)
    · rw [dif_neg h]
      exact ⟨.single hshape, ts, by rw [hlex, lex_peek], hholds⟩

theorem parseline_ok (hpipe : ParseOk s .pipe p (parsepipe s p))
    (hline : ∀ q, s.length - q < s.length - p → ParseOk s .line q (parseline s q)) :
    ParseOk s .line p (parseline s p) := by
  rw [parseline]
  rcases hres : parsepipe s p with e | ⟨c, j⟩ <;> rw [hres] at hpipe
  · exact hpipe
  · obtain ⟨hshape, ts, hlex, hholds⟩ := hpipe
    obtain ⟨n, tsb, hb, hlexb, hwb⟩ := backLoop_spec s c j.1
    dsimp only
    rw [hb]
    generalize (backLoop s c j.1).2 = k at hlexb ⊢
    -- the pipe and its `&`s
    have hback := hholds.append (Holds.of_wordSpans_nil hwb : Holds s tsb [] [] [])
    by_cases h : (peek s k.1 [';'.toUInt8]).1
    · rw [dif_pos h]
      obtain ⟨t, ht, hsemi⟩ := lex_peek_symbol h (by simp [symbols])
      have hl := hline _ (shortens_from (peek_shortens h) (j.2.trans k.2))
      rcases hres' : parseline s (gettoken s (peek s k.1 [';'.toUInt8]).2).2.2.2 with
        e | ⟨r, j'⟩ <;> rw [hres'] at hl
      · exact hl
      · obtain ⟨hshape', ts', hlex', hholds'⟩ := hl
        refine ⟨.list n hshape hshape', ts ++ tsb ++ t :: ts', ?_, ?_⟩
        · rw [hlex, hlexb, hsemi, hlex']
          simp
        · simpa [Cmd.words, Cmd.argvs, Cmd.redirs] using hback.append (hholds'.cons_symbol ht)
    · rw [dif_neg h]
      refine ⟨.back n hshape, ts ++ tsb, by rw [hlex, hlexb, lex_peek, List.append_assoc], ?_⟩
      simpa using hback

/-- The descent from any position: each function panics with one of `parseErrors`, or makes
a tree of its symbol that holds what it read. -/
theorem parse_ok (s : List UInt8) (p : Nat) :
    ParseOk s .exec p (parseexec s p) ∧ ParseOk s .pipe p (parsepipe s p) ∧
      ParseOk s .line p (parseline s p) := by
  -- strong induction on what is left of the line: at one position each function calls the
  -- one below it, and calls above it only further on
  induction hn : s.length - p using Nat.strong_induction_on generalizing p with
  | _ n ih =>
    have hpipe : ∀ q, s.length - q < s.length - p → ParseOk s .pipe q (parsepipe s q) :=
      fun q hq => (ih _ (hn ▸ hq) q rfl).2.1
    have hline : ∀ q, s.length - q < s.length - p → ParseOk s .line q (parseline s q) :=
      fun q hq => (ih _ (hn ▸ hq) q rfl).2.2
    have hexec := parseexec_ok fun h => parseblock_ok h hline
    have hp := parsepipe_ok hexec hpipe
    exact ⟨hexec, hp, parseline_ok hp hline⟩

end Descent

/-! ## `nulterminate` -/

section Nul

variable (buf : List UInt8) (ws : List (Nat × Nat))

/-- `nulterminate` writes a NUL at the end of each word the command holds, in order. -/
theorem nulterminate_eq (c : Cmd) :
    nulterminate buf c = c.words.foldl (fun b w => b.set w.2 0) buf := by
  induction c generalizing buf with
  | exec argv => rfl
  | redir c r ih =>
    rw [nulterminate, ih, Cmd.words, List.foldl_append]
    rfl
  | pipe l r ihl ihr => rw [nulterminate, ihl, ihr, Cmd.words, List.foldl_append]
  | list l r ihl ihr => rw [nulterminate, ihl, ihr, Cmd.words, List.foldl_append]
  | back c ih => rw [nulterminate, ih, Cmd.words]

@[simp] theorem length_foldl_set :
    (ws.foldl (fun b w => b.set w.2 0) buf).length = buf.length := by
  induction ws generalizing buf with
  | nil => rfl
  | cons w ws ih => rw [List.foldl_cons, ih, List.length_set]

theorem getElem?_foldl_set_of_ne {i : Nat} (h : ∀ w ∈ ws, w.2 ≠ i) :
    (ws.foldl (fun b w => b.set w.2 0) buf)[i]? = buf[i]? := by
  induction ws generalizing buf with
  | nil => rfl
  | cons w ws ih =>
    rw [List.foldl_cons, ih _ fun w' hw' => h w' (List.mem_cons_of_mem w hw'),
      List.getElem?_set_ne (h w List.mem_cons_self)]

theorem getD_foldl_set_of_mem {i : Nat} (h : ∃ w ∈ ws, w.2 = i) :
    (ws.foldl (fun b w => b.set w.2 0) buf).getD i 0 = 0 := by
  induction ws generalizing buf with
  | nil => simp at h
  | cons w ws ih =>
    rw [List.foldl_cons]
    by_cases hin : ∃ w' ∈ ws, w'.2 = i
    · exact ih _ hin
    · -- the last write at `i` is this one
      have hw : w.2 = i := by
        obtain ⟨w', hw', rfl⟩ := h
        rcases List.mem_cons.mp hw' with rfl | hw'
        · rfl
        · exact absurd ⟨w', hw', rfl⟩ hin
      rw [List.getD_eq_getElem?_getD, getElem?_foldl_set_of_ne _ _ fun w' hw' he => hin ⟨w', hw', he⟩,
        hw, List.getElem?_set_self']
      cases buf[i]? <;> rfl

end Nul

/-! ## `parsecmd` -/

theorem Cmd.span_mem_words {c : Cmd} {r : Redir} (h : r ∈ c.redirs) : r.span ∈ c.words := by
  induction c with
  | exec => simp [Cmd.redirs] at h
  | redir c r' ih =>
    simp only [Cmd.redirs, Cmd.words, List.mem_append, List.mem_singleton] at h ⊢
    rcases h with h | rfl
    · exact .inl (ih h)
    · exact .inr rfl
  | pipe l r ihl ihr | list l r ihl ihr =>
    simp only [Cmd.redirs, Cmd.words, List.mem_append] at h ⊢
    rcases h with h | h
    · exact .inl (ihl h)
    · exact .inr (ihr h)
  | back c ih => exact ih h

theorem zero_not_mem_cmdline (buf : List UInt8) : 0 ∉ cmdline buf := fun h => by
  simpa using List.mem_takeWhile_imp h

/-- What `parsecmd` returns: the line's parse, with nothing but whitespace left after it. -/
theorem parsecmd_eq_ok {buf : List UInt8} {c : Cmd} {buf' : List UInt8}
    (h : parsecmd buf = .ok (c, buf')) :
    ∃ j, parseline (cmdline buf) 0 = .ok (c, j) ∧
      skipWs (cmdline buf) j.1 = (cmdline buf).length ∧ buf' = nulterminate buf c := by
  rw [parsecmd] at h
  rcases hres : parseline (cmdline buf) 0 with e | ⟨c', j⟩ <;> rw [hres] at h
  · cases h
  · dsimp only at h
    by_cases hleft : (peek (cmdline buf) j.1 []).2 ≠ (cmdline buf).length
    · rw [if_pos hleft] at h
      cases h
    · rw [if_neg hleft] at h
      cases h
      exact ⟨j, rfl, not_not.mp hleft, rfl⟩

theorem parsecmd_eq_error {buf : List UInt8} {e : String} (h : parsecmd buf = .error e) :
    e = "syntax" ∨ parseline (cmdline buf) 0 = .error e := by
  rw [parsecmd] at h
  rcases hres : parseline (cmdline buf) 0 with e' | ⟨c, j⟩ <;> rw [hres] at h
  · cases h
    exact .inr rfl
  · dsimp only at h
    split_ifs at h
    cases h
    exact .inl rfl

/-- `parsecmd` on any buffer panics with one of `parseErrors`, or returns a tree of the grammar
whose words are the words of the line, each once: each exec node's in order, each redirection's
file right after its operator. `nulterminate` then ends each word with a NUL and changes no
other byte. -/
theorem parsecmd_holds (buf : List UInt8) :
    (∀ e, parsecmd buf = .error e → e ∈ parseErrors) ∧
    ∀ c buf', parsecmd buf = .ok (c, buf') →
      Shape .line c ∧
      (∀ q e, (q, e) ∈ c.words ↔ IsWord (cmdline buf) q e) ∧ c.words.Nodup ∧
      (∀ a ∈ c.argvs, (∀ w ∈ a, IsWord (cmdline buf) w.1 w.2) ∧
        a.Pairwise fun w w' => w.2 ≤ w'.1) ∧
      (∀ r ∈ c.redirs, IsWord (cmdline buf) r.file r.efile ∧ OpBefore (cmdline buf) r) ∧
      buf'.length = buf.length ∧
      (∀ w ∈ c.words, buf'.getD w.2 0 = 0 ∧ ∀ i, w.1 ≤ i → i < w.2 → buf'[i]? = buf[i]?) ∧
      ∀ i, (∀ w ∈ c.words, w.2 ≠ i) → buf'[i]? = buf[i]? := by
  have hs := zero_not_mem_cmdline buf
  have hline := (parse_ok (cmdline buf) 0).2.2
  refine ⟨fun e he => ?_, fun c buf' hok => ?_⟩
  · rcases parsecmd_eq_error he with rfl | hres
    · simp [parseErrors]
    · rw [hres] at hline
      exact hline
  obtain ⟨j, hres, hend, rfl⟩ := parsecmd_eq_ok hok
  rw [hres] at hline
  obtain ⟨hshape, ts, hlex, hholds⟩ := hline
  -- nothing is left after the line, so the parse read every token of it
  have hall : ts = lex (cmdline buf) 0 := by
    rw [hlex, ← lex_skipWs, hend, lex_length, List.append_nil]
  subst hall
  have hwords : ∀ q e, (q, e) ∈ c.words ↔ IsWord (cmdline buf) q e := fun q e =>
    hholds.words.mem_iff.trans (mem_wordSpans_iff hs)
  -- a word's end is in no word, so the NULs land outside every word
  have hout : ∀ w ∈ c.words, ∀ w' ∈ c.words, ∀ i, w.1 ≤ i → i < w.2 → w'.2 ≠ i := by
    rintro ⟨q, e⟩ hw ⟨q', e'⟩ hw' i h1 h2 rfl
    exact ((hwords q' e').mp hw').2.2.2 (((hwords q e).mp hw).2.1 e' h1 h2)
  refine ⟨hshape, hwords, hholds.words.nodup_iff.mpr (wordSpans_nodup _ 0),
    fun a ha => ⟨fun w hw => (mem_wordSpans_iff hs).mp ((hholds.argv a ha).subset hw),
      (wordSpans_pairwise _ 0).sublist (hholds.argv a ha)⟩,
    fun r hr => ⟨(hwords r.file r.efile).mp (Cmd.span_mem_words hr), hholds.redir r hr⟩,
    ?_, fun w hw => ⟨?_, fun i h1 h2 => ?_⟩, fun i hi => ?_⟩ <;> rw [nulterminate_eq]
  · exact length_foldl_set _ _
  · exact getD_foldl_set_of_mem _ _ ⟨w, hw, rfl⟩
  · exact getElem?_foldl_set_of_ne _ _ fun w' hw' => hout w hw w' hw' i h1 h2
  · exact getElem?_foldl_set_of_ne _ _ hi

end Xv6.Sh
