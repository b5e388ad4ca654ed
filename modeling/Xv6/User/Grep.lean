import Mathlib
import Xv6.Lib.Bytes

/-!
# grep

`grep.c` reads its input into the global `char buf[1024]`, `m` bytes at a time held
over from one read to the next, and writes every newline-terminated line that the
Kernighan and Pike matcher (`match`, `matchhere`, `matchstar`) accepts. Lines are found
with `strchr(p, '\n')` from `ulib.c`, which scans until a NUL: `buf` is never
NUL-terminated after a read, so the scan sees whatever an earlier read left behind,
and a line's newline is overwritten by the NUL that ends the text `match` reads (and
put back only when the line matched).

The process's memory is a function from addresses to bytes, with `buf` at `buf` and
the process size `sz`; a read of memory at or above `sz` faults and kills grep. The
input is a pipe: the list of what the writer sent, one list per write, and each `read`
returns up to the requested number of bytes of the next of them, so that every way of
cutting the stream into reads is one such list.
-/

namespace Xv6

/-- `'\n'` -/
def NL : UInt8 := '\n'.toUInt8

/-! ## The matcher -/

/-- `matchstar(c, re, text)`: `c*` then `re` match at the beginning of `text`, with
`here` for `matchhere(re, ·)`. -/
def matchstar (here : List UInt8 → Bool) (c : UInt8) : List UInt8 → Bool
  | [] => here []
  | t :: text => here (t :: text) || (t = c ∨ c = '.'.toUInt8) && matchstar here c text

/-- `matchhere(re, text)`: `re` matches at the beginning of `text` (both without their
NUL). -/
def matchhere : List UInt8 → List UInt8 → Bool
  | [], _ => true
  | c :: rest, text =>
    -- `re[1] == '*'` is tested before `re[0] == '$' && re[1] == '\0'`
    let step := match text with
      | t :: text => (c = '.'.toUInt8 ∨ c = t) && matchhere rest text
      | [] => false
    match rest with
    | d :: re => if d = '*'.toUInt8 then matchstar (matchhere re) c text else step
    | [] => if c = '$'.toUInt8 then text.isEmpty else step

/-- The `do ... while(*text++ != '\0')` loop of `match`: `re` matches somewhere in
`text`, the empty end included. -/
def matchFrom (re : List UInt8) : List UInt8 → Bool
  | [] => matchhere re []
  | t :: text => matchhere re (t :: text) || matchFrom re text

/-- `match(re, text)`. -/
def match' (re text : List UInt8) : Bool :=
  if re.head? = some '^'.toUInt8 then matchhere re.tail text else matchFrom re text

/-! ## The library routines -/

/-- `strchr(s, c)` with `k` bytes of the process's memory left from `s`: `some (some q)`
for the first `c` at `q`, `some none` (the C `0`) when a NUL comes first, and `none`
when the scan runs out of the process's memory and faults. -/
def strchr (mem : Nat → UInt8) (c : UInt8) : Nat → Nat → Option (Option Nat)
  | _, 0 => none
  | s, k + 1 => if mem s = 0 then some none else if mem s = c then some (some s)
      else strchr mem c (s + 1) k

/-- `memmove(dst, src, n)`: `while(n-- > 0) *dst++ = *src++;`, so a count that is not
positive copies nothing. -/
def memmove (mem : Nat → UInt8) (dst src : Nat) (n : Int) : Nat → UInt8 :=
  (List.range n.toNat).foldl (fun mem i => Function.update mem (dst + i) (mem (src + i))) mem

/-! ## The program -/

/-- What grep's loops change: the process's memory (`buf` in it), the count `m` of
bytes held in `buf`, the input still to come (one list per write to the pipe), and the
lines written to fd 1, one per `write`. -/
structure Grep where
  mem : Nat → UInt8
  m : Int
  input : List (List UInt8)
  out : List (List UInt8)

/-- Where grep runs: the pattern (`argv[1]` without its NUL), the address of `buf` and
the process size. -/
structure GrepEnv where
  pattern : List UInt8
  buf : Nat
  sz : Nat

/-- `sizeof(buf)` -/
def BUFSIZE : Int := 1024

namespace Grep

variable (env : GrepEnv)

/-- `read(fd, dst, n)` on the pipe: `argptr`'s test of `[dst, dst + n)` against `sz`
(`-1`), then up to `n` bytes of the next write (`0` at the end of the input). -/
def read (g : Grep) (dst n : Int) : Int × Grep :=
  if dst < 0 ∨ env.sz ≤ dst ∨ env.sz < dst + n then (-1, g)
  else match g.input with
    | [] => (0, g)
    | c :: rest =>
      let k := min n.toNat c.length
      (k, { g with
        mem := Bytes.writeBytes g.mem dst.toNat (c.take k)
        input := if k < c.length then c.drop k :: rest else rest })

/-- `strchr` stops at a newline below `sz`, at or after where it started. -/
theorem strchr_found {mem : Nat → UInt8} {c : UInt8} :
    ∀ {s k q : Nat}, strchr mem c s k = some (some q) → s ≤ q ∧ q < s + k
  | _, 0, _, h => by simp [strchr] at h
  | s, k + 1, q, h => by
    unfold strchr at h
    split at h
    · cases h
    · split at h
      · cases h
        omega
      · have := strchr_found h
        omega

/-- One line `[p, q)` that `strchr` found: `*q = 0`, and if `match(pattern, p)` accepts
the line, `*q = '\n'` and `write(1, p, q+1 - p)`. -/
def line (g : Grep) (p q : Nat) : Grep :=
  let mem := Function.update g.mem q 0
  if match' env.pattern (Bytes.readBytes mem p (q - p)) then
    let mem := Function.update mem q NL
    { g with mem, out := g.out ++ [Bytes.readBytes mem p (q + 1 - p)] }
  else { g with mem }

/-- The inner loop `while((q = strchr(p, '\n')) != 0)` from `p`. Ends with the state and
the final `p`, or with `none` when `strchr` faults. -/
def lines (g : Grep) (p : Nat) : Option (Grep × Nat) :=
  match h : strchr g.mem NL p (env.sz - p) with
  | none => none
  | some none => some (g, p)
  | some (some q) =>
    have := strchr_found h
    lines (line env g p q) (q + 1)
termination_by env.sz - p

/-- The inner loop leaves the input alone. -/
theorem input_lines {g g' : Grep} {p p' : Nat} (h : lines env g p = some (g', p')) :
    g'.input = g.input := by
  fun_induction lines env g p with
  | case1 => cases h
  | case2 => cases h; rfl
  | case3 g p q hq _ ih =>
    rw [ih h, line]
    split <;> rfl

/-- What follows the inner loop: `if(p == buf) m = 0;` and
`if(m > 0){ m -= p - buf; memmove(buf, p, m); }`. -/
def carry (g : Grep) (p : Nat) : Grep :=
  let m : Int := if p = env.buf then 0 else g.m
  if 0 < m then
    let m := m - (p - env.buf : Int)
    { g with m, mem := memmove g.mem env.buf p m }
  else { g with m }

/-- The bytes the input has still to deliver. -/
def pending (g : Grep) : Nat := (g.input.map List.length).sum

theorem pending_read {g : Grep} {dst n : Int} (h : 0 < (read env g dst n).1) :
    (read env g dst n).2.pending < g.pending := by
  unfold read at h ⊢
  by_cases hbad : dst < 0 ∨ env.sz ≤ dst ∨ env.sz < dst + n
  · rw [if_pos hbad] at h
    cases h
  · rw [if_neg hbad] at h ⊢
    match hin : g.input with
    | [] => simp [hin] at h
    | c :: rest =>
      simp only [hin] at h ⊢
      simp only [pending, hin]
      split
      · simp only [List.map_cons, List.sum_cons, List.length_drop]
        omega
      · simp only [List.map_cons, List.sum_cons]
        omega

theorem pending_carry (g : Grep) (p : Nat) : (carry env g p).pending = g.pending := by
  unfold carry
  dsimp only
  by_cases hm : 0 < (if p = env.buf then (0 : Int) else g.m)
  · rw [if_pos hm]
    rfl
  · rw [if_neg hm]
    rfl

/-- The outer loop `while((n = read(fd, buf+m, sizeof(buf)-m)) > 0)`: the final state
and whether grep was killed by a fault. -/
def loop (g : Grep) : Grep × Bool :=
  let r := read env g (env.buf + g.m) (BUFSIZE - g.m)
  if hn : 0 < r.1 then
    match hl : lines env { r.2 with m := g.m + r.1 } env.buf with
    | none => ({ r.2 with m := g.m + r.1 }, true)
    | some (g', p) =>
      have : (carry env g' p).pending < g.pending := by
        rw [pending_carry, pending, input_lines env hl]
        exact pending_read env hn
      loop (carry env g' p)
  else (r.2, false)
termination_by g.pending

/-! ## One pass of each loop -/

section Unfold

variable {env} {g g' : Grep} {p q : Nat}

theorem lines_of_nul (h : strchr g.mem NL p (env.sz - p) = some none) :
    lines env g p = some (g, p) := by
  rw [lines]
  split <;> simp_all

theorem lines_of_found (h : strchr g.mem NL p (env.sz - p) = some (some q)) :
    lines env g p = lines env (line env g p q) (q + 1) := by
  rw [lines]
  split <;> simp_all

/-- The read that ends the outer loop: end of input, or `-1`. -/
theorem loop_of_end (h : (read env g (env.buf + g.m) (BUFSIZE - g.m)).1 ≤ 0) :
    loop env g = ((read env g (env.buf + g.m) (BUFSIZE - g.m)).2, false) := by
  rw [loop, dif_neg (by omega)]

theorem loop_of_lines (hn : 0 < (read env g (env.buf + g.m) (BUFSIZE - g.m)).1)
    (hl : lines env { (read env g (env.buf + g.m) (BUFSIZE - g.m)).2 with
      m := g.m + (read env g (env.buf + g.m) (BUFSIZE - g.m)).1 } env.buf = some (g', p)) :
    loop env g = loop env (carry env g' p) := by
  rw [loop, dif_pos hn]
  split <;> simp_all

end Unfold

end Grep

/-- `grep(pattern, fd)`, which starts with `m = 0`, on the input `input`. -/
def grep (env : GrepEnv) (mem : Nat → UInt8) (input : List (List UInt8)) : Grep × Bool :=
  Grep.loop env { mem, m := 0, input, out := [] }

/-! ## What grep should write -/

/-- The newline-terminated lines of a byte stream, each without its newline, the first
one continuing the partial line `cur`; the bytes after the last newline are no line. -/
def completeLines (cur : List UInt8) : List UInt8 → List (List UInt8)
  | [] => []
  | b :: s => if b = NL then cur :: completeLines [] s else completeLines (cur ++ [b]) s

/-- The lines of the stream `s` that `match` accepts, in order, each with its newline. -/
def grepSpec (pattern s : List UInt8) : List (List UInt8) :=
  ((completeLines [] s).filter (match' pattern)).map (· ++ [NL])

theorem completeLines_of_not_mem : ∀ {s : List UInt8} (cur : List UInt8), NL ∉ s →
    completeLines cur s = []
  | [], _, _ => rfl
  | b :: s, cur, h => by
    rw [List.mem_cons, not_or] at h
    rw [completeLines, if_neg (Ne.symm h.1), completeLines_of_not_mem _ h.2]

theorem completeLines_line : ∀ {l : List UInt8} (cur rest : List UInt8), NL ∉ l →
    completeLines cur (l ++ NL :: rest) = (cur ++ l) :: completeLines [] rest
  | [], cur, rest, _ => by simp [completeLines]
  | b :: l, cur, rest, h => by
    rw [List.mem_cons, not_or] at h
    rw [List.cons_append, completeLines, if_neg (Ne.symm h.1), completeLines_line _ _ h.2,
      List.append_assoc, List.singleton_append]

/-- A stream that ends with a newline ends its last line: what follows starts afresh. -/
theorem completeLines_append : ∀ (t : List UInt8) (cur rest : List UInt8),
    completeLines cur (t ++ NL :: rest) = completeLines cur (t ++ [NL]) ++ completeLines [] rest
  | [], cur, rest => by simp [completeLines]
  | b :: t, cur, rest => by
    simp only [List.cons_append, completeLines]
    split
    · rw [completeLines_append t [] rest, List.cons_append]
    · exact completeLines_append t _ rest

theorem grepSpec_line (pattern : List UInt8) {l : List UInt8} (rest : List UInt8) (h : NL ∉ l) :
    grepSpec pattern (l ++ NL :: rest) =
      (if match' pattern l then [l ++ [NL]] else []) ++ grepSpec pattern rest := by
  rw [grepSpec, completeLines_line _ _ h, List.nil_append, List.filter_cons]
  split <;> simp [grepSpec]

theorem grepSpec_append (pattern : List UInt8) {s : List UInt8} (rest : List UInt8)
    (h : s.getLast? = some NL) :
    grepSpec pattern (s ++ rest) = grepSpec pattern s ++ grepSpec pattern rest := by
  obtain ⟨t, rfl⟩ := List.getLast?_eq_some_iff.mp h
  rw [List.append_assoc, List.singleton_append, grepSpec, completeLines_append, List.filter_append,
    List.map_append]
  rfl

/-- The first newline of a stream that has one. -/
theorem exists_first_nl : ∀ {s : List UInt8}, NL ∈ s → ∃ l rest, s = l ++ NL :: rest ∧ NL ∉ l
  | b :: s, h => by
    by_cases hb : b = NL
    · exact ⟨[], s, by rw [hb]; rfl, List.not_mem_nil⟩
    · obtain ⟨l, rest, rfl, hl⟩ := exists_first_nl ((List.mem_cons.mp h).resolve_left (Ne.symm hb))
      refine ⟨b :: l, rest, rfl, ?_⟩
      rw [List.mem_cons, not_or]
      exact ⟨Ne.symm hb, hl⟩

namespace Grep

variable {env : GrepEnv}

theorem readBytes_mem {mem : Nat → UInt8} {a n : Nat} {l : List UInt8}
    (h : Bytes.readBytes mem a n = l) {i : Nat} (hi : i < n) : mem (a + i) ∈ l := by
  rw [← h]
  have hlen : i < (Bytes.readBytes mem a n).length := by simpa using hi
  rw [← Bytes.getElem_readBytes mem a n i hlen]
  exact List.getElem_mem hlen

/-- `strchr` passes bytes that are neither NUL nor the one it looks for. -/
theorem strchr_skip {mem : Nat → UInt8} {c : UInt8} : ∀ {s : Nat} (n k : Nat),
    (∀ i < n, mem (s + i) ≠ 0 ∧ mem (s + i) ≠ c) →
    strchr mem c s (n + k) = strchr mem c (s + n) k
  | s, 0, k, _ => by simp
  | s, n + 1, k, h => by
    obtain ⟨h0, hc⟩ := h 0 (by omega)
    rw [Nat.add_zero] at h0 hc
    have ih := strchr_skip (s := s + 1) n k fun i hi => by
      rw [Nat.add_right_comm]
      exact h (i + 1) (by omega)
    rw [show n + 1 + k = (n + k) + 1 by omega, strchr, if_neg h0, if_neg hc, ih,
      Nat.add_right_comm, Nat.add_assoc]

theorem readBytes_one (mem : Nat → UInt8) (a : Nat) : Bytes.readBytes mem a 1 = [mem a] := rfl

/-- A line `[p, q)` followed by its newline at `q`: written whole if it matches, and
otherwise left with a NUL in place of its newline. -/
theorem line_eq {g : Grep} {p : Nat} {l : List UInt8}
    (hl : Bytes.readBytes g.mem p l.length = l) (hq : g.mem (p + l.length) = NL) :
    line env g p (p + l.length) = if match' env.pattern l then { g with out := g.out ++ [l ++ [NL]] }
      else { g with mem := Function.update g.mem (p + l.length) 0 } := by
  have htext : Bytes.readBytes (Function.update g.mem (p + l.length) 0) p (p + l.length - p) = l := by
    rw [Nat.add_sub_cancel_left]
    exact (Bytes.readBytes_congr fun i _ hi => Function.update_of_ne (Nat.ne_of_lt hi) _ _).trans hl
  have hback : Function.update (Function.update g.mem (p + l.length) 0) (p + l.length) NL =
      g.mem := by
    rw [Function.update_idem, ← hq, Function.update_eq_self]
  have hout : Bytes.readBytes g.mem p (p + l.length + 1 - p) = l ++ [NL] := by
    rw [show p + l.length + 1 - p = l.length + 1 by omega, Bytes.readBytes_add, hl, readBytes_one, hq]
  unfold line
  simp only [htext, hback, hout]

/-- The inner loop over bytes `s` that hold no NUL and are followed by one: it writes the
lines of `s` that match, in order, and leaves the memory alone outside `s`; it ends at the
end of the last line, at `p` itself when `s` has no newline. -/
theorem lines_spec (s : List UInt8) {g : Grep} {p : Nat}
    (hmem : Bytes.readBytes g.mem p s.length = s) (h0 : (0 : UInt8) ∉ s)
    (hend : g.mem (p + s.length) = 0) (hsz : p + s.length < env.sz) :
    ∃ g' p', lines env g p = some (g', p') ∧ g'.out = g.out ++ grepSpec env.pattern s ∧
      g'.m = g.m ∧ g'.input = g.input ∧
      (∀ i, (i < p ∨ p + s.length ≤ i) → g'.mem i = g.mem i) ∧
      (NL ∉ s → p' = p) ∧ (s.getLast? = some NL → p' = p + s.length) := by
    by_cases hnl : NL ∈ s
    · obtain ⟨l, rest, hs, hl⟩ := exists_first_nl hnl
      have hlen : s.length = l.length + 1 + rest.length := by rw [hs]; simp; omega
      rw [hlen] at hend hsz ⊢
      rw [hlen, hs] at hmem
      rw [hs] at h0 hnl ⊢
      rw [Bytes.readBytes_add, Bytes.readBytes_add] at hmem
      obtain ⟨⟨hl', hq⟩, hrest⟩ : (Bytes.readBytes g.mem p l.length = l ∧
          Bytes.readBytes g.mem (p + l.length) 1 = [NL]) ∧
          Bytes.readBytes g.mem (p + l.length + 1) rest.length = rest := by
        rw [← List.singleton_append, ← List.append_assoc] at hmem
        obtain ⟨h1, h2⟩ := List.append_inj hmem (by simp)
        exact ⟨List.append_inj h1 (by simp), h2⟩
      rw [readBytes_one, List.cons.injEq] at hq
      -- `strchr` runs over the line to its newline
      have hfound : strchr g.mem NL p (env.sz - p) = some (some (p + l.length)) := by
        have hskip := @strchr_skip g.mem NL p l.length
          (env.sz - p - l.length - 1 + 1) fun i hi => by
            have hi' := readBytes_mem hl' hi
            exact ⟨fun h => h0 (List.mem_append_left _ (h ▸ hi')), fun h => hl (h ▸ hi')⟩
        rw [show l.length + (env.sz - p - l.length - 1 + 1) = env.sz - p by omega] at hskip
        rw [hskip, strchr, if_neg (by rw [hq.1]; decide), if_pos hq.1]
      -- the rest of the bytes, after the line
      have hline := @line_eq env g p l hl' hq.1
      have hmem₁ : ∀ i, i ≠ p + l.length → (line env g p (p + l.length)).mem i = g.mem i := by
        intro i hi
        rw [hline]
        split
        · rfl
        · exact Function.update_of_ne hi _ _
      have hrest₁ : Bytes.readBytes (line env g p (p + l.length)).mem (p + l.length + 1)
          rest.length = rest :=
        (Bytes.readBytes_congr fun i hi _ => hmem₁ i (by omega)).trans hrest
      have h0' : (0 : UInt8) ∉ rest := fun h => h0 (List.mem_append_right _ (List.mem_cons_of_mem _ h))
      have hend₁ : (line env g p (p + l.length)).mem (p + l.length + 1 + rest.length) = 0 := by
        rw [hmem₁ _ (by omega), ← hend]
        congr 1
        omega
      obtain ⟨g', p', hrun, hout, hm, hin, hframe, hnone, hlast⟩ :=
        lines_spec rest hrest₁ h0' hend₁ (by omega)
      refine ⟨g', p', by rw [lines_of_found hfound, hrun], ?_, ?_, ?_, ?_, fun h => absurd hnl h, ?_⟩
      · rw [hout, grepSpec_line _ _ hl, hline]
        split <;> simp
      · rw [hm, hline]
        split <;> rfl
      · rw [hin, hline]
        split <;> rfl
      · intro i hi
        rw [hframe i (by omega), hmem₁ i (by omega)]
      · intro hl
        cases rest with
        | nil =>
          rw [hnone List.not_mem_nil]
          rfl
        | cons b r =>
          rw [hlast (by simpa using hl)]
          omega
    · -- no newline: `strchr` runs to the NUL after `s`
      have hnul : strchr g.mem NL p (env.sz - p) = some none := by
        have hskip := @strchr_skip g.mem NL p s.length
          (env.sz - p - s.length - 1 + 1) fun i hi => by
            have hi' := readBytes_mem hmem hi
            exact ⟨fun h => h0 (h ▸ hi'), fun h => hnl (h ▸ hi')⟩
        rw [show s.length + (env.sz - p - s.length - 1 + 1) = env.sz - p by omega] at hskip
        rw [hskip, strchr, if_pos hend]
      refine ⟨g, p, lines_of_nul hnul, ?_, rfl, rfl, fun _ _ => rfl, fun _ => rfl, fun h => ?_⟩
      · simp [grepSpec, completeLines_of_not_mem _ hnl]
      · exact absurd (List.mem_of_getLast? h) hnl
termination_by s.length

/-- A read that fits: the whole next write lands at `dst`. -/
theorem read_chunk {g : Grep} {dst n : Int} {c : List UInt8} {rest : List (List UInt8)}
    (hin : g.input = c :: rest) (hdst : 0 ≤ dst) (hlt : dst < env.sz) (hn : dst + n ≤ env.sz)
    (hc : c.length ≤ n) :
    read env g dst n =
      ((c.length : Int), { g with mem := Bytes.writeBytes g.mem dst.toNat c, input := rest }) := by
  have hk : min n.toNat c.length = c.length := by omega
  unfold read
  rw [if_neg (by omega), hin]
  simp only [hk, Nat.lt_irrefl, if_false, List.take_length]

theorem read_end {g : Grep} {dst n : Int} (hin : g.input = []) :
    read env g dst n = (if dst < 0 ∨ env.sz ≤ dst ∨ env.sz < dst + n then -1 else 0, g) := by
  unfold read
  split
  · rfl
  · rw [hin]

/-- After a read of whole lines the line loop stops at the end of the data: nothing is
carried over. -/
theorem carry_whole {g : Grep} {n : Nat} (hn : 0 < n) (hm : g.m = n) :
    carry env g (env.buf + n) = { g with m := 0 } := by
  unfold carry
  dsimp only
  rw [if_neg (show env.buf + n ≠ env.buf by omega), hm, if_pos (show (0 : Int) < n by omega)]
  have h0 : (n : Int) - ((env.buf + n : Nat) - env.buf : Int) = 0 := by omega
  simp only [h0]
  rfl

/-- Reads that each return whole lines, none of them shorter than the one before and
none filling the buffer, over a buffer that is zero past the first of them: grep ends
normally and writes exactly the lines of the input that match. The loop's invariant is
that `m` is `0` and that `buf` is zero from the length `L` of the last read on. -/
theorem loop_whole_lines : ∀ (chunks : List (List UInt8)) {g : Grep} {L : Nat},
    g.input = chunks → g.m = 0 →
    (∀ c ∈ chunks, c.getLast? = some NL ∧ (0 : UInt8) ∉ c ∧ c.length < 1024) →
    (L :: chunks.map List.length).Pairwise (· ≤ ·) →
    (∀ i, L ≤ i → i < 1024 → g.mem (env.buf + i) = 0) → env.buf + 1024 ≤ env.sz →
    (loop env g).2 = false ∧ (loop env g).1.out = g.out ++ grepSpec env.pattern chunks.flatten
  | [], g, _, hin, _, _, _, _, _ => by
    rw [loop_of_end (by rw [read_end hin]; split <;> omega), read_end hin]
    simp [grepSpec, completeLines]
  | c :: rest, g, L, hin, hm, hchunks, hsorted, hbuf, hsz => by
    obtain ⟨hlast, h0, hlen⟩ := hchunks c List.mem_cons_self
    have hpos : 0 < c.length := by
      cases c with
      | nil => cases hlast
      | cons _ _ => simp
    rw [List.map_cons, List.pairwise_cons, List.pairwise_cons] at hsorted
    obtain ⟨hL, hc, hrest⟩ := hsorted
    have hLc : L ≤ c.length := hL _ List.mem_cons_self
    have hread := @read_chunk env g (env.buf + g.m) (BUFSIZE - g.m) c rest hin
      (by omega) (by omega) (by rw [hm, BUFSIZE]; omega) (by rw [hm, BUFSIZE]; omega)
    have hdst : ((env.buf : Int) + g.m).toNat = env.buf := by rw [hm]; simp
    rw [hdst] at hread
    have hn : 0 < (read env g (env.buf + g.m) (BUFSIZE - g.m)).1 := by
      rw [hread]
      show (0 : Int) < c.length
      exact_mod_cast hpos
    -- the line loop runs over the chunk, which the zero byte after it ends
    let g₁ : Grep :=
      { g with mem := Bytes.writeBytes g.mem env.buf c, input := rest, m := g.m + c.length }
    obtain ⟨g', p', hrun, hout, hm', hin', hframe, -, hp'⟩ :=
      @lines_spec env c g₁ env.buf (Bytes.readBytes_writeBytes_self _ _ _) h0
        (by
          show Bytes.writeBytes g.mem env.buf c (env.buf + c.length) = 0
          rw [Bytes.writeBytes_apply_of_ge (Nat.le_refl _)]
          exact hbuf _ hLc hlen)
        (by omega)
    have hl : lines env { (read env g (env.buf + g.m) (BUFSIZE - g.m)).2 with
        m := g.m + (read env g (env.buf + g.m) (BUFSIZE - g.m)).1 } env.buf = some (g', p') := by
      rw [hread]
      exact hrun
    rw [loop_of_lines hn hl, hp' hlast, carry_whole hpos (by rw [hm']; show g.m + (c.length : Int) = c.length; rw [hm]; simp)]
    have hbuf' : ∀ i, c.length ≤ i → i < 1024 → g'.mem (env.buf + i) = 0 := by
      intro i hi hi'
      rw [hframe _ (Or.inr (by omega))]
      show Bytes.writeBytes g.mem env.buf c (env.buf + i) = 0
      rw [Bytes.writeBytes_apply_of_ge (by omega)]
      exact hbuf i (Nat.le_trans hLc hi) hi'
    obtain ⟨hend, hres⟩ := @loop_whole_lines rest { g' with m := 0 } c.length hin' rfl
      (fun c' hc' => hchunks c' (List.mem_cons_of_mem _ hc')) (List.pairwise_cons.mpr ⟨hc, hrest⟩)
      hbuf' hsz
    refine ⟨hend, ?_⟩
    rw [hres, List.flatten_cons, grepSpec_append _ _ hlast, ← List.append_assoc]
    exact congrArg (· ++ grepSpec env.pattern rest.flatten) hout

end Grep

/-- grep on reads that each return whole lines, none shorter than the one before and none
filling the buffer, with `buf` zero as `exec` leaves it: it ends normally and writes
exactly the lines of the input that match, each once and in order. -/
theorem grep_whole_lines (env : GrepEnv) (mem : Nat → UInt8) (chunks : List (List UInt8))
    (hchunks : ∀ c ∈ chunks, c.getLast? = some NL ∧ (0 : UInt8) ∉ c ∧ c.length < 1024)
    (hsorted : (chunks.map List.length).Pairwise (· ≤ ·))
    (hbuf : ∀ i < 1024, mem (env.buf + i) = 0) (hsz : env.buf + 1024 ≤ env.sz) :
    (grep env mem chunks).2 = false ∧
      (grep env mem chunks).1.out = grepSpec env.pattern chunks.flatten := by
  have h := @Grep.loop_whole_lines env chunks { mem, m := 0, input := chunks, out := [] } 0 rfl rfl
    hchunks (List.pairwise_cons.mpr ⟨fun _ _ => Nat.zero_le _, hsorted⟩) (fun i _ hi => hbuf i hi)
    hsz
  rw [List.nil_append] at h
  exact h

/-- The line `ab` delivered by two reads, `a` and then `b\n`, to `grep b`: the first read
holds no newline, so `p == buf` and grep throws `a` away, then writes `b\n`, a line the
input does not have. The same bytes in one read give `ab\n`, the line the input has. -/
theorem grep_cuts_split_line :
    (grep ⟨[98], 0, 4096⟩ (fun _ => 0) [[97], [98, 10]]).1.out = [[98, 10]] ∧
      (grep ⟨[98], 0, 4096⟩ (fun _ => 0) [[97, 98, 10]]).1.out = [[97, 98, 10]] ∧
      grepSpec [98] [97, 98, 10] = [[97, 98, 10]] := by
  refine ⟨?_, (grep_whole_lines _ _ _ (by decide) (by decide) (fun _ _ => rfl) (by decide)).2,
    by decide⟩
  unfold grep
  -- the first read: `a`, no newline, nothing kept
  rw [Grep.loop_of_lines (by decide) (Grep.lines_of_nul (by decide))]
  -- the second read: `b\n`, one line that matches
  rw [Grep.loop_of_lines (by decide)
    ((@Grep.lines_of_found _ _ _ 1 (by decide)).trans (Grep.lines_of_nul (by decide)))]
  rw [Grep.loop_of_end (by decide)]
  decide

end Xv6
