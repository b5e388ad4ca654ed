import Mathlib

/-!
# `printf` and `atoi`

`printf.c`: `printf(fd, fmt, ...)` writes `fmt` a byte at a time through `putc`, with each
`%d`, `%x`, `%p`, `%s` and `%c` replaced by its argument and `%%` by `%`; an unknown
sequence is written as it stands. `printint` puts the digits in `buf` least significant
first, in its `do ... while` loop, and writes them backwards after the sign. `ulib.c`'s
`atoi` reads the decimal digits at the start of a string.

The model gives the bytes written to `fd`. The arguments are the words from `ap` on, `ap`
an index into them. A string argument is read from the process's memory up to its NUL;
a read at or above `sz` faults and kills the process, so `printf` returns what it wrote
before and `false`.
-/

namespace Xv6

/-- `static char digits[] = "0123456789ABCDEF";` -/
def digitsTable : List UInt8 :=
  ['0', '1', '2', '3', '4', '5', '6', '7', '8', '9', 'A', 'B', 'C', 'D', 'E', 'F'].map
    Char.toUInt8

/-- `digits[d]` -/
def digitByte (d : Nat) : UInt8 := digitsTable.getD d 0

/-- `do{ buf[i++] = digits[x % base]; }while((x /= base) != 0);` and the loop that writes
`buf` backwards: the digits of `x` in front of `acc`, at most `fuel` of them. -/
def printDigits (base : Nat) : Nat → Nat → List UInt8 → List UInt8
  | 0, _, acc => acc
  | fuel + 1, x, acc =>
    if x / base = 0 then digitByte (x % base) :: acc
    else printDigits base fuel (x / base) (digitByte (x % base) :: acc)

/-- `printint(fd, xx, base, sgn)`: `x = -xx` in `int` for a negative `xx` with `sgn`
set. The loop divides `x` at most `x + 1` times. -/
def printint (xx : Int32) (base : Nat) (sgn : Bool) : List UInt8 :=
  let neg := sgn && decide (xx < 0)
  let x : UInt32 := if neg then (-xx).toUInt32 else xx.toUInt32
  let s := printDigits base (x.toNat + 1) x.toNat []
  if neg then '-'.toUInt8 :: s else s

/-- The string at `a` up to its NUL, with `k` bytes of the process's memory left from `a`,
and whether the scan reached the NUL rather than a fault. -/
def cstr (mem : Nat → UInt8) : Nat → Nat → List UInt8 × Bool
  | _, 0 => ([], false)
  | a, k + 1 =>
    if mem a = 0 then ([], true)
    else
      let r := cstr mem (a + 1) k
      (mem a :: r.1, r.2)

/-- `"(null)"` -/
def nullStr : List UInt8 := ['(', 'n', 'u', 'l', 'l', ')'].map Char.toUInt8

/-- The loop of `printf` over the rest of `fmt` in `state` (`true` after a `%`), the next
argument at `ap`: the bytes written, and `false` when a string argument faulted. -/
def printfLoop (mem : Nat → UInt8) (sz : Nat) (args : Nat → UInt32) :
    List UInt8 → Bool → Nat → List UInt8 × Bool
  | [], _, _ => ([], true)
  | c :: fmt, false, ap =>
    if c = '%'.toUInt8 then printfLoop mem sz args fmt true ap
    else
      let r := printfLoop mem sz args fmt false ap
      (c :: r.1, r.2)
  | c :: fmt, true, ap =>
    if c = 'd'.toUInt8 then
      let r := printfLoop mem sz args fmt false (ap + 1)
      (printint (args ap).toInt32 10 true ++ r.1, r.2)
    else if c = 'x'.toUInt8 ∨ c = 'p'.toUInt8 then
      let r := printfLoop mem sz args fmt false (ap + 1)
      (printint (args ap).toInt32 16 false ++ r.1, r.2)
    else if c = 's'.toUInt8 then
      let s := (args ap).toNat
      let str := if s = 0 then (nullStr, true) else cstr mem s (sz - s)
      if str.2 then
        let r := printfLoop mem sz args fmt false (ap + 1)
        (str.1 ++ r.1, r.2)
      else (str.1, false)
    else if c = 'c'.toUInt8 then
      let r := printfLoop mem sz args fmt false (ap + 1)
      ((args ap).toUInt8 :: r.1, r.2)
    else if c = '%'.toUInt8 then
      let r := printfLoop mem sz args fmt false ap
      (c :: r.1, r.2)
    else
      -- an unknown sequence is written whole, to draw attention
      let r := printfLoop mem sz args fmt false ap
      ('%'.toUInt8 :: c :: r.1, r.2)

/-- `printf(fd, fmt, ...)`, `fmt` the bytes before its NUL. -/
def printf (mem : Nat → UInt8) (sz : Nat) (fmt : List UInt8) (args : Nat → UInt32) :
    List UInt8 × Bool :=
  printfLoop mem sz args fmt false 0

/-- `'0' <= *s && *s <= '9'` -/
def isDigit (c : UInt8) : Bool := '0'.toUInt8 ≤ c && c ≤ '9'.toUInt8

/-- `while('0' <= *s && *s <= '9') n = n*10 + *s++ - '0';` over the bytes of the string
before its NUL. -/
def atoiLoop : List UInt8 → Int32 → Int32
  | [], n => n
  | c :: s, n =>
    if isDigit c then atoiLoop s (n * 10 + Int32.ofNat c.toNat - Int32.ofNat '0'.toNat) else n

/-- `atoi(s)` -/
def atoi (s : List UInt8) : Int32 := atoiLoop s 0

/-! ## Decimal numbers -/

/-- The decimal digits of `n`, most significant first; `0` for zero. -/
def decimal (n : Nat) : List UInt8 :=
  if n = 0 then [digitByte 0] else (Nat.digits 10 n).reverse.map digitByte

section Digits

theorem printDigits_pos {base : Nat} (hb : 1 < base) : ∀ {fuel x : Nat} (acc : List UInt8),
    0 < x → x ≤ fuel →
      printDigits base fuel x acc = (Nat.digits base x).reverse.map digitByte ++ acc
  | 0, _, _, hx, hf => absurd hf (by omega)
  | fuel + 1, x, acc, hx, hf => by
    rw [printDigits, Nat.digits_def' hb hx, List.reverse_cons, List.map_append,
      List.append_assoc]
    split_ifs with hq
    · rw [hq, Nat.digits_zero]
      rfl
    · -- the loop goes on with the quotient, which is smaller
      have hlt : x / base < x := Nat.div_lt_self hx hb
      rw [printDigits_pos hb _ (Nat.pos_of_ne_zero hq) (by omega)]
      rfl

theorem printDigits_decimal (n : Nat) : printDigits 10 (n + 1) n [] = decimal n := by
  rcases Nat.eq_zero_or_pos n with rfl | hn
  · rfl
  · rw [printDigits_pos (by decide) _ hn (Nat.le_succ n), decimal, if_neg hn.ne', List.append_nil]

theorem digitByte_toNat {d : Nat} (h : d < 10) : (digitByte d).toNat = '0'.toNat + d := by
  interval_cases d <;> rfl

theorem isDigit_digitByte {d : Nat} (h : d < 10) : isDigit (digitByte d) = true := by
  interval_cases d <;> rfl

theorem isDigit_minus : isDigit '-'.toUInt8 = false := rfl

end Digits

section Int32

variable {xx : Int32}

theorem toInt32_lt_zero : xx < 0 ↔ xx.toInt < 0 := by
  rw [Int32.lt_iff_toInt_lt]
  rfl

/-- An `int` read as a `uint`: itself when not negative, `2^32` more when it is. -/
theorem toNat_toUInt32 (xx : Int32) :
    xx.toUInt32.toNat = if xx.toInt < 0 then (xx.toInt + 2 ^ 32).toNat else xx.toInt.toNat := by
  have h1 : xx.toUInt32.toNat = xx.toBitVec.toNat := rfl
  have h2 : xx.toInt = xx.toBitVec.toInt := rfl
  have hlt := xx.toBitVec.isLt
  rw [h1, h2, BitVec.toInt_eq_toNat_cond]
  split_ifs <;> omega

/-- `x = -xx` for a negative `xx` is its magnitude as a `uint`, `INT_MIN` included. -/
theorem toNat_neg_toUInt32 (h : xx < 0) : (-xx).toUInt32.toNat = xx.toInt.natAbs := by
  have hneg := toInt32_lt_zero.mp h
  have hlo := Int32.le_toInt xx
  rw [Int32.toUInt32_neg, UInt32.toNat_neg, toNat_toUInt32, if_pos hneg]
  simp only [UInt32.size]
  omega

theorem toNat_toUInt32_of_nonneg (h : ¬xx < 0) : xx.toUInt32.toNat = xx.toInt.natAbs := by
  have h' : ¬xx.toInt < 0 := fun h' => h (toInt32_lt_zero.mpr h')
  rw [toNat_toUInt32, if_neg h']
  omega

/-- `printint(fd, xx, 10, 1)` writes `xx` in decimal, after a `-` when it is negative. -/
theorem printint_decimal (xx : Int32) :
    printint xx 10 true =
      if xx < 0 then '-'.toUInt8 :: decimal xx.toInt.natAbs else decimal xx.toInt.natAbs := by
  by_cases h : xx < 0
  · rw [if_pos h]
    simp only [printint, Bool.true_and, decide_eq_true h, if_true]
    rw [toNat_neg_toUInt32 h, printDigits_decimal]
  · rw [if_neg h]
    simp only [printint, Bool.true_and, decide_eq_false h, if_false, Bool.false_eq_true]
    rw [toNat_toUInt32_of_nonneg h, printDigits_decimal]

end Int32

/-- A count that fits an `int` is written in decimal. -/
theorem printint_ofNat {n : Nat} (h : n < 2 ^ 31) : printint (Int32.ofNat n) 10 true = decimal n := by
  have hn : (Int32.ofNat n).toInt = n := Int32.toInt_ofNat_of_lt h
  rw [printint_decimal, if_neg fun h' => absurd (toInt32_lt_zero.mp h') (by omega), hn,
    Int.natAbs_natCast]

/-! ## The loop of `printf` -/

section Loop

variable {mem : Nat → UInt8} {sz : Nat} {args : Nat → UInt32} {fmt : List UInt8} {ap : Nat}

theorem printfLoop_char {c : UInt8} (hc : c ≠ '%'.toUInt8) :
    printfLoop mem sz args (c :: fmt) false ap =
      (c :: (printfLoop mem sz args fmt false ap).1, (printfLoop mem sz args fmt false ap).2) := by
  rw [printfLoop, if_neg hc]

theorem printfLoop_d :
    printfLoop mem sz args ('%'.toUInt8 :: 'd'.toUInt8 :: fmt) false ap =
      (printint (args ap).toInt32 10 true ++ (printfLoop mem sz args fmt false (ap + 1)).1,
        (printfLoop mem sz args fmt false (ap + 1)).2) := by
  rw [printfLoop, if_pos rfl, printfLoop, if_pos rfl]

/-- `%s` of a string that ends before the end of the process's memory. -/
theorem printfLoop_s {str : List UInt8} (h0 : (args ap).toNat ≠ 0)
    (hs : cstr mem (args ap).toNat (sz - (args ap).toNat) = (str, true)) :
    printfLoop mem sz args ('%'.toUInt8 :: 's'.toUInt8 :: fmt) false ap =
      (str ++ (printfLoop mem sz args fmt false (ap + 1)).1,
        (printfLoop mem sz args fmt false (ap + 1)).2) := by
  rw [printfLoop, if_pos rfl, printfLoop, if_neg (by decide), if_neg (by decide), if_pos rfl]
  simp only [if_neg h0, hs, if_true]

end Loop

/-- `atoi`'s loop over decimal digits `L`, most significant first, from `a`. -/
theorem atoiLoop_digits (rest : List UInt8) : ∀ (L : List Nat) (a : Int), (∀ d ∈ L, d < 10) →
    atoiLoop (L.map digitByte ++ rest) (Int32.ofInt a) =
      atoiLoop rest (Int32.ofInt (a * 10 ^ L.length + (Nat.ofDigits 10 L.reverse : Nat)))
  | [], a, _ => by
    rw [List.map_nil, List.nil_append, List.length_nil, pow_zero, mul_one, List.reverse_nil,
      Nat.ofDigits_nil, Nat.cast_zero, add_zero]
  | d :: L, a, hL => by
    have hd := hL d (List.mem_cons_self ..)
    have hstep : Int32.ofInt a * 10 + Int32.ofNat (digitByte d).toNat - Int32.ofNat '0'.toNat =
        Int32.ofInt (a * 10 + d) := by
      rw [digitByte_toNat hd, ← Int32.ofInt_eq_ofNat, ← Int32.ofInt_eq_ofNat,
        show (10 : Int32) = Int32.ofInt 10 from rfl, ← Int32.ofInt_mul, ← Int32.ofInt_add,
        ← Int32.ofInt_sub]
      congr 1
      push_cast
      ring
    rw [List.map_cons, List.cons_append, atoiLoop, if_pos (isDigit_digitByte hd), hstep,
      atoiLoop_digits rest L _ fun d' h' => hL d' (List.mem_cons_of_mem _ h')]
    congr 2
    rw [List.reverse_cons, Nat.ofDigits_append, List.length_reverse, List.length_cons,
      Nat.ofDigits_singleton]
    push_cast
    ring

/-- `atoi` reads back the decimal digits of `n`, up to a byte that is no digit. -/
theorem atoi_decimal (n : Nat) {rest : List UInt8} (hrest : ∀ c ∈ rest.head?, isDigit c = false) :
    atoi (decimal n ++ rest) = Int32.ofNat n := by
  have hstop : ∀ m, atoiLoop rest m = m := by
    intro m
    rcases rest with _ | ⟨c, rest⟩
    · rfl
    · rw [atoiLoop, if_neg (by simpa using hrest)]
  -- zero is the one digit `0`
  have hds : decimal n = (if n = 0 then [0] else (Nat.digits 10 n).reverse).map digitByte := by
    unfold decimal
    split_ifs <;> rfl
  have hlt : ∀ d ∈ (if n = 0 then [0] else (Nat.digits 10 n).reverse), d < 10 := by
    split_ifs
    · simp
    · exact fun d hd => Nat.digits_lt_base (by decide) (List.mem_reverse.mp hd)
  rw [atoi, hds, show (0 : Int32) = Int32.ofInt 0 from rfl, atoiLoop_digits rest _ 0 hlt, hstop,
    ← Int32.ofInt_eq_ofNat]
  congr 1
  split_ifs with hn
  · simp [hn]
  · rw [List.reverse_reverse, Nat.ofDigits_digits]
    simp

/-- What `printf`'s `%d` writes, `atoi` reads back: an `int` that is not negative as itself,
and a negative one as `0`, since `atoi` reads no sign. -/
theorem atoi_printint (xx : Int32) {rest : List UInt8}
    (hrest : ∀ c ∈ rest.head?, isDigit c = false) :
    atoi (printint xx 10 true ++ rest) = if xx < 0 then 0 else xx := by
  rw [printint_decimal]
  by_cases h : xx < 0
  · rw [if_pos h, if_pos h, List.cons_append, atoi, atoiLoop, if_neg (by rw [isDigit_minus]; decide)]
  · rw [if_neg h, if_neg h, atoi_decimal _ hrest, ← Int32.ofInt_eq_ofNat]
    have h' : ¬xx.toInt < 0 := fun h' => h (toInt32_lt_zero.mpr h')
    rw [Int.natCast_natAbs, abs_of_nonneg (by omega), Int32.ofInt_toInt]

theorem atoi_printint_nul : atoi (printint 42 10 true ++ [0]) = if (42 : Int32) < 0 then 0 else 42 :=
  atoi_printint 42 fun c hc => by
    cases Option.some.inj (Option.mem_def.mp hc)
    rfl

end Xv6
