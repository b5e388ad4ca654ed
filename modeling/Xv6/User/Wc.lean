import Mathlib
import Xv6.User.Printf

/-!
# `wc`

`wc.c` counts the lines, words and bytes of its input, reading it into `buf` 512 bytes at a
time. A word is a run of bytes none of which `strchr(" \r\t\n\v", ·)` finds; `strchr`
stops at its string's own NUL, so it never finds a NUL byte of the input. `inword` is kept
from one read to the next, so a word that two reads cut in two is counted once. The counts
are printed with `printf(1, "%d %d %d %s\n", l, w, c, name)`.

The input is what the reads return, in turn, and then the count `last` of the read that
ends the loop: `0` at the end, negative for an error. A read that returns no bytes ends
the loop as well.
-/

namespace Xv6

/-- `" \r\t\n\v"` -/
def wcSpaces : List UInt8 := [' ', '\r', '\t', '\n', '\x0b'].map Char.toUInt8

/-- `l`, `w`, `c` and `inword`. -/
structure WcCounts where
  l : Int32
  w : Int32
  c : Int32
  inword : Bool

/-- The body of `for(i=0; i<n; i++)` on the byte `b`. -/
def wcByte (s : WcCounts) (b : UInt8) : WcCounts :=
  let s := { s with c := s.c + 1 }
  let s := if b = '\n'.toUInt8 then { s with l := s.l + 1 } else s
  -- `strchr(" \r\t\n\v", buf[i])`
  if wcSpaces.contains b then { s with inword := false }
  else if !s.inword then { s with w := s.w + 1, inword := true }
  else s

/-- `while((n = read(fd, buf, sizeof(buf))) > 0)` over the reads, then `last`: the counts,
and the `n` that ended the loop. -/
def wcLoop (last : Int) : WcCounts → List (List UInt8) → WcCounts × Int
  | s, [] => (s, last)
  | s, chunk :: rest => if chunk = [] then (s, 0) else wcLoop last (chunk.foldl wcByte s) rest

/-- `"%d %d %d %s\n"` -/
def wcFormat : List UInt8 :=
  ['%', 'd', ' ', '%', 'd', ' ', '%', 'd', ' ', '%', 's', '\n'].map Char.toUInt8

/-- `"wc: read error\n"` -/
def wcReadError : List UInt8 := "wc: read error\n".toList.map Char.toUInt8

/-- `wc(fd, name)`: what it writes to fd 1, and `false` when reading the name faulted. -/
def wc (mem : Nat → UInt8) (sz : Nat) (name : UInt32) (reads : List (List UInt8)) (last : Int) :
    List UInt8 × Bool :=
  let r := wcLoop last ⟨0, 0, 0, false⟩ reads
  if r.2 < 0 then printf mem sz wcReadError fun _ => 0
  else printf mem sz wcFormat fun i => [r.1.l.toUInt32, r.1.w.toUInt32, r.1.c.toUInt32, name].getD i 0

/-! ## What `wc` counts -/

/-- The words of `s`: its maximal runs of bytes that are not spaces. -/
def words (s : List UInt8) : Nat := (s.splitOnP wcSpaces.contains).countP (· ≠ [])

/-- `s` starts with a byte of a word. -/
def startsWord (s : List UInt8) : Bool :=
  match s with
  | [] => false
  | b :: _ => !wcSpaces.contains b

theorem splitOnP_head_eq_nil {p : UInt8 → Bool} {s : List UInt8} {q : List UInt8}
    {qs : List (List UInt8)} (h : s.splitOnP p = q :: qs) : q = [] ↔ ∀ b ∈ s.head?, p b := by
  rcases s with _ | ⟨b, s⟩
  · simp only [List.splitOnP_nil, List.cons.injEq] at h
    simp [← h.1]
  · rw [List.splitOnP_cons_eq_if_modifyHead] at h
    split_ifs at h with hb
    · simp only [List.cons.injEq] at h
      simp [← h.1, hb]
    · obtain ⟨q', qs', hq'⟩ := List.exists_cons_of_ne_nil (List.splitOnP_ne_nil p s)
      rw [hq', List.modifyHead_cons, List.cons.injEq] at h
      simp [← h.1, hb]

theorem startsWord_eq_false {s : List UInt8} :
    startsWord s = false ↔ ∀ c ∈ s.head?, wcSpaces.contains c = true := by
  rcases s with _ | ⟨c, s⟩ <;> simp [startsWord]

/-- A byte that is no space ends a word when no byte of a word follows it. -/
theorem words_cons (b : UInt8) (s : List UInt8) :
    words (b :: s) = words s + if !wcSpaces.contains b && !startsWord s then 1 else 0 := by
  unfold words
  rw [List.splitOnP_cons_eq_if_modifyHead]
  obtain ⟨q, qs, hq⟩ := List.exists_cons_of_ne_nil (List.splitOnP_ne_nil wcSpaces.contains s)
  rw [hq]
  cases hb : wcSpaces.contains b
  · -- `b` joins the first piece of `s`, which was empty just when no word starts `s`
    have hiff : q = [] ↔ startsWord s = false :=
      (splitOnP_head_eq_nil hq).trans startsWord_eq_false.symm
    rw [if_neg Bool.false_ne_true, List.modifyHead_cons]
    by_cases hq0 : q = []
    · simp [hq0, hiff.mp hq0]
    · have hs : startsWord s = true := by simpa [hiff] using hq0
      simp [hq0, hs]
  · simp

theorem words_le_length : ∀ s : List UInt8, words s ≤ s.length
  | [] => by decide
  | b :: s => by
    rw [words_cons, List.length_cons]
    have := words_le_length s
    split_ifs <;> omega

/-! ## The loop -/

section Fold

/-- What one byte does to the counts. -/
theorem wcByte_eq (st : WcCounts) (b : UInt8) :
    wcByte st b = ⟨st.l + (if b = '\n'.toUInt8 then 1 else 0),
      st.w + (if !wcSpaces.contains b && !st.inword then 1 else 0), st.c + 1,
      !wcSpaces.contains b⟩ := by
  unfold wcByte
  by_cases hn : b = '\n'.toUInt8 <;> cases hs : wcSpaces.contains b <;> cases hi : st.inword <;>
    simp [hn]

theorem wcByte_l (st : WcCounts) (b : UInt8) :
    (wcByte st b).l = st.l + if b = '\n'.toUInt8 then 1 else 0 := by
  rw [wcByte_eq]

theorem wcByte_w (st : WcCounts) (b : UInt8) :
    (wcByte st b).w = st.w + if !wcSpaces.contains b && !st.inword then 1 else 0 := by
  rw [wcByte_eq]

theorem wcByte_c (st : WcCounts) (b : UInt8) : (wcByte st b).c = st.c + 1 := by
  rw [wcByte_eq]

theorem wcByte_inword (st : WcCounts) (b : UInt8) :
    (wcByte st b).inword = !wcSpaces.contains b := by
  rw [wcByte_eq]

theorem startsWord_cons (b : UInt8) (s : List UInt8) : startsWord (b :: s) = !wcSpaces.contains b :=
  rfl

theorem ite_ofNat (p : Prop) [Decidable p] :
    (if p then 1 else 0 : Int32) = Int32.ofNat (if p then 1 else 0) := by
  split_ifs <;> rfl

/-- Each byte counts once in `c`. -/
theorem foldl_wcByte_c : ∀ (s : List UInt8) (st : WcCounts),
    (s.foldl wcByte st).c = st.c + Int32.ofNat s.length
  | [], st => by rw [List.foldl_nil, List.length_nil]; exact (Int32.add_zero st.c).symm
  | b :: s, st => by
    rw [List.foldl_cons, foldl_wcByte_c s, wcByte_c, Int32.add_assoc,
      show (1 : Int32) = Int32.ofNat 1 from rfl, ← Int32.ofNat_add,
      List.length_cons, Nat.add_comm]

/-- Each newline counts once in `l`. -/
theorem foldl_wcByte_l : ∀ (s : List UInt8) (st : WcCounts),
    (s.foldl wcByte st).l = st.l + Int32.ofNat (s.count '\n'.toUInt8)
  | [], st => by rw [List.foldl_nil, List.count_nil]; exact (Int32.add_zero st.l).symm
  | b :: s, st => by
    rw [List.foldl_cons, foldl_wcByte_l s, wcByte_l, ite_ofNat, Int32.add_assoc, ← Int32.ofNat_add,
      List.count_cons]
    congr 2
    by_cases hb : b = '\n'.toUInt8 <;> simp [hb, Nat.add_comm]

/-- `w` counts the words that start in `s`: all of them, but the first when `inword` was set
and `s` goes on with it. -/
theorem foldl_wcByte_w : ∀ (s : List UInt8) (st : WcCounts), ∃ n,
    (s.foldl wcByte st).w = st.w + Int32.ofNat n ∧
      n + (if st.inword && startsWord s then 1 else 0) = words s
  | [], st => ⟨0, by rw [List.foldl_nil]; exact (Int32.add_zero st.w).symm, by
      cases st.inword <;> rfl⟩
  | b :: s, st => by
    obtain ⟨n, hw, hn⟩ := foldl_wcByte_w s (wcByte st b)
    refine ⟨(if !wcSpaces.contains b && !st.inword then 1 else 0) + n, ?_, ?_⟩
    · rw [List.foldl_cons, hw, wcByte_w, ite_ofNat, Int32.add_assoc, ← Int32.ofNat_add]
    · rw [wcByte_inword] at hn
      rw [words_cons, ← hn, startsWord_cons]
      cases wcSpaces.contains b <;> cases st.inword <;> cases startsWord s <;> simp <;> omega

end Fold

theorem wcLoop_reads {last : Int} : ∀ {reads : List (List UInt8)} (st : WcCounts),
    (∀ r ∈ reads, r ≠ []) → wcLoop last st reads = (reads.flatten.foldl wcByte st, last)
  | [], _, _ => rfl
  | r :: reads, st, h => by
    rw [wcLoop, if_neg (h r (List.mem_cons_self ..)),
      wcLoop_reads _ fun r' hr' => h r' (List.mem_cons_of_mem _ hr'), List.flatten_cons,
      List.foldl_append]

/-- The line `printf(1, "%d %d %d %s\n", l, w, c, name)` writes, for counts that fit an `int`. -/
theorem printf_wcFormat {mem : Nat → UInt8} {sz l w c : Nat} {name : UInt32} {str : List UInt8}
    (hl : l < 2 ^ 31) (hw : w < 2 ^ 31) (hc : c < 2 ^ 31) (h0 : name.toNat ≠ 0)
    (hs : cstr mem name.toNat (sz - name.toNat) = (str, true)) :
    printf mem sz wcFormat (fun i => [(Int32.ofNat l).toUInt32, (Int32.ofNat w).toUInt32,
        (Int32.ofNat c).toUInt32, name].getD i 0) =
      (decimal l ++ ' '.toUInt8 :: decimal w ++ ' '.toUInt8 :: decimal c ++ ' '.toUInt8 ::
        str ++ ['\n'.toUInt8], true) := by
  simp only [printf, wcFormat, List.map_cons, List.map_nil]
  rw [printfLoop_d, printfLoop_char (by decide), printfLoop_d, printfLoop_char (by decide),
    printfLoop_d, printfLoop_char (by decide), printfLoop_s h0 hs, printfLoop_char (by decide),
    printfLoop]
  simp [printint_ofNat hl, printint_ofNat hw, printint_ofNat hc]

/-- `wc` prints in decimal the number of newlines, of words and of bytes of its whole input,
then its name, however the reads cut the input: when the input ends without a read error
and holds fewer than `2^31` bytes. -/
theorem wc_counts {mem : Nat → UInt8} {sz : Nat} {name : UInt32} {str : List UInt8}
    {reads : List (List UInt8)} {last : Int} (hreads : ∀ r ∈ reads, r ≠ []) (hlast : 0 ≤ last)
    (hlen : reads.flatten.length < 2 ^ 31) (h0 : name.toNat ≠ 0)
    (hs : cstr mem name.toNat (sz - name.toNat) = (str, true)) :
    wc mem sz name reads last =
      (decimal (reads.flatten.count '\n'.toUInt8) ++ ' '.toUInt8 ::
        decimal (words reads.flatten) ++ ' '.toUInt8 ::
        decimal reads.flatten.length ++ ' '.toUInt8 :: str ++ ['\n'.toUInt8], true) := by
  obtain ⟨n, hw, hn⟩ := foldl_wcByte_w reads.flatten ⟨0, 0, 0, false⟩
  -- from `inword = 0` every word is counted
  rw [Bool.false_and, if_neg Bool.false_ne_true, Nat.add_zero] at hn
  unfold wc
  rw [wcLoop_reads _ hreads]
  dsimp only
  rw [if_neg (not_lt.mpr hlast), foldl_wcByte_l, foldl_wcByte_c, hw]
  dsimp only
  rw [Int32.zero_add, Int32.zero_add, Int32.zero_add, hn]
  exact printf_wcFormat ((List.count_le_length ..).trans_lt hlen)
    ((words_le_length _).trans_lt hlen) hlen h0 hs

/-- `wc x` on `a b` cut by the reads after the space. -/
theorem wc_counts_two_reads :
    wc (fun a => if a = 0x100 then 'x'.toUInt8 else 0) 0x1000 0x100
        [['a'.toUInt8, ' '.toUInt8], ['b'.toUInt8, '\n'.toUInt8]] 0 =
      (decimal ([['a'.toUInt8, ' '.toUInt8], ['b'.toUInt8, '\n'.toUInt8]].flatten.count '\n'.toUInt8) ++
        ' '.toUInt8 :: decimal (words [['a'.toUInt8, ' '.toUInt8], ['b'.toUInt8, '\n'.toUInt8]].flatten) ++
        ' '.toUInt8 :: decimal [['a'.toUInt8, ' '.toUInt8], ['b'.toUInt8, '\n'.toUInt8]].flatten.length ++
        ' '.toUInt8 :: ['x'.toUInt8] ++ ['\n'.toUInt8], true) :=
  wc_counts (by simp) le_rfl (by decide) (by decide) (by decide)

end Xv6
