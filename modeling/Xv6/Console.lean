import Xv6.Lib.Reach
import Xv6.Lib.Ring

/-!
# Console input

`console.c`: `consoleintr` feeds the characters the keyboard and the serial line
deliver into `input.buf`, a ring of `INPUT_BUF` bytes with three running indices:
`input.r` (the next byte a reader takes), `input.w` (the end of the committed
characters) and `input.e` (the end of the line being edited). `consoleread` takes
committed bytes from `r` until it has `n` of them, copies a newline, or meets a `^D`.

The model has three layers. At the bottom the code: the ring `Input`, the switch of
`consoleintr` one character at a time (`consoleintrChar`) and the loop of
`consoleread` (`readLoop`). Above it what the console is for: a `LineEditor` holds the
committed characters as a queue that reads take from and the pending line, and a read
takes from the queue (`takeRead`). Between them `Represents`: the bytes between `r` and
`w` are the queue's unread part and those between `w` and `e` the pending line. Each
edit of the ring is the editor's edit (`Represents.intrChar`), and `readLoop` is
`takeRead` on the unread bytes (`readLoop_eq`).

The two machines, `consNext` over the ring and `absNext` over the editor, take the same
events: characters from the interrupt, a new read, and a sleeping read woken. They
run in lockstep (`ConsRel`); the line discipline is proved of the editor and carried
to the ring.

One reader at a time is modelled: a `read` event while a read sleeps is refused.
`procdump` and the echo to the screen (`consputc`) write nothing the input reads.
-/

namespace Xv6

/-- `#define INPUT_BUF 128` -/
def INPUT_BUF : Nat := 128

instance : NeZero INPUT_BUF := ⟨by decide⟩

/-- `#define C(x) ((x)-'@')`, the code of Control-x. -/
def C (x : Char) : UInt8 := x.toUInt8 - '@'.toUInt8

/-- `input`: the ring and its read, write and edit indices. -/
structure Input where
  buf : Fin INPUT_BUF → UInt8
  r : UInt32
  w : UInt32
  e : UInt32

namespace Input

/-- `x % INPUT_BUF`, the slot of an index. -/
def idx (x : UInt32) : Fin INPUT_BUF := Ring.slot INPUT_BUF x.toNat

/-- `input.buf[input.e++ % INPUT_BUF] = c`. -/
def store (inp : Input) (c : UInt8) : Input :=
  { inp with buf := Function.update inp.buf (idx inp.e) c, e := inp.e + 1 }

/-- The committed bytes no read has taken: from `r` up to `w`. -/
def unread (inp : Input) : List UInt8 := Ring.view inp.buf inp.r.toNat (Word32.dist inp.w inp.r)

/-- The line being edited: from `w` up to `e`. -/
def pending (inp : Input) : List UInt8 := Ring.view inp.buf inp.w.toNat (Word32.dist inp.e inp.w)

/-- The ring's shape: `r ≤ w ≤ e ≤ r + INPUT_BUF`, modulo `2^32`. -/
structure Shaped (inp : Input) : Prop where
  split : Word32.dist inp.w inp.r + Word32.dist inp.e inp.w = Word32.dist inp.e inp.r
  le : Word32.dist inp.e inp.r ≤ INPUT_BUF

end Input

/-! ## The code -/

/-- The `C('U')` loop: erase back to a newline or to `w`. It runs at most `e - w`
times, which is the fuel `consoleintrChar` gives it. -/
def killLine : Nat → Input → Input
  | 0, inp => inp
  | k + 1, inp =>
    if inp.e ≠ inp.w ∧ inp.buf (Input.idx (inp.e - 1)) ≠ '\n'.toUInt8 then
      killLine k { inp with e := inp.e - 1 }
    else inp

/-- The body of `consoleintr`'s loop for one character `c`. -/
def consoleintrChar (inp : Input) (c : UInt8) : Input :=
  if c = C 'P' then inp
  else if c = C 'U' then killLine (Word32.dist inp.e inp.w) inp
  else if c = C 'H' ∨ c = 0x7f then
    if inp.e ≠ inp.w then { inp with e := inp.e - 1 } else inp
  else if c ≠ 0 ∧ Word32.dist inp.e inp.r < INPUT_BUF then
    let c := if c = '\r'.toUInt8 then '\n'.toUInt8 else c
    let inp := inp.store c
    if c = '\n'.toUInt8 ∨ c = C 'D' ∨ inp.e = inp.r + 128 then { inp with w := inp.e }
    else inp
  else inp

/-- `consoleintr`: the characters `getc` returns before `-1`. -/
def consoleintr (inp : Input) (cs : List UInt8) : Input := cs.foldl consoleintrChar inp

/-- A `consoleread` under way: the count asked for (`target`), the count still wanted
(`n`) and the bytes copied to `dst` so far. -/
structure Reading where
  target : Int32
  n : Int32
  out : List UInt8
  deriving DecidableEq

/-- `*dst++ = c; --n;` -/
def Reading.copy (rd : Reading) (c : UInt8) : Reading := { rd with out := rd.out ++ [c], n := rd.n - 1 }

@[simp] theorem Reading.copy_target (rd : Reading) (c : UInt8) : (rd.copy c).target = rd.target := rfl
@[simp] theorem Reading.copy_out (rd : Reading) (c : UInt8) : (rd.copy c).out = rd.out ++ [c] := rfl

/-- How `consoleread`'s loop stops: it leaves the loop, it sleeps on `&input.r`, or it
finds `proc->killed` set and returns `-1`. -/
inductive ConsStop where
  | done | sleep | killed
  deriving DecidableEq

/-- The ring, the read and how the loop stopped. -/
structure ReadOutcome where
  input : Input
  rd : Reading
  stop : ConsStop

/-- `consoleread`'s loop from `acquire(&input.lock)` to the next release, for a process
whose `killed` flag is as given. -/
def readLoop (killed : Bool) (inp : Input) (rd : Reading) : ReadOutcome :=
  if 0 < rd.n then
    if inp.r = inp.w then ⟨inp, rd, if killed then .killed else .sleep⟩
    else
      let c := inp.buf (Input.idx inp.r)
      let inp' := { inp with r := inp.r + 1 }
      if c = C 'D' then
        -- the `^D` goes back when bytes were copied, so that the next read returns 0
        ⟨if rd.n < rd.target then { inp' with r := inp'.r - 1 } else inp', rd, .done⟩
      else
        if c = '\n'.toUInt8 then ⟨inp', rd.copy c, .done⟩ else readLoop killed inp' (rd.copy c)
  else ⟨inp, rd, .done⟩
termination_by Word32.dist inp.w inp.r
decreasing_by
  have hpos : 0 < Word32.dist inp.w inp.r :=
    Nat.pos_of_ne_zero fun h0 => ‹¬inp.r = inp.w› (Word32.eq_of_dist_eq_zero h0).symm
  show Word32.dist inp.w (inp.r + 1) < _
  rw [Word32.dist_succ_right hpos]
  omega

/-! ## The line editor -/

/-- What console input is for: the committed characters, of which the first `taken`
have been read, and the line being typed. -/
structure LineEditor where
  committed : List UInt8
  taken : Nat
  pending : List UInt8
  deriving DecidableEq

namespace LineEditor

/-- The committed characters no read has taken. -/
def unread (ed : LineEditor) : List UInt8 := ed.committed.drop ed.taken

/-- The characters held for readers, committed or not. -/
def buffered (ed : LineEditor) : Nat := ed.unread.length + ed.pending.length

/-- One typed character: `^P` changes nothing, `^U` clears the pending line, backspace
and DEL drop its last character; any other non-zero character is appended, a carriage
return as a newline, while fewer than `INPUT_BUF` characters are held, and commits the
line when it is a newline or `^D` or fills the buffer. -/
def edit (ed : LineEditor) (c : UInt8) : LineEditor :=
  if c = C 'P' then ed
  else if c = C 'U' then { ed with pending := [] }
  else if c = C 'H' ∨ c = 0x7f then { ed with pending := ed.pending.dropLast }
  else if c ≠ 0 ∧ ed.buffered < INPUT_BUF then
    let c := if c = '\r'.toUInt8 then '\n'.toUInt8 else c
    if c = '\n'.toUInt8 ∨ c = C 'D' ∨ ed.buffered + 1 = INPUT_BUF then
      { ed with committed := ed.committed ++ (ed.pending ++ [c]), pending := [] }
    else { ed with pending := ed.pending ++ [c] }
  else ed

end LineEditor

/-- A read taking from the queue `u` of unread characters: how many it takes, the read
after it and how it stops. -/
def takeRead (killed : Bool) : List UInt8 → Reading → Nat × Reading × ConsStop
  | [], rd => (0, rd, if 0 < rd.n then (if killed then .killed else .sleep) else .done)
  | c :: u, rd =>
    if 0 < rd.n then
      if c = C 'D' then (if rd.n < rd.target then 0 else 1, rd, .done)
      else if c = '\n'.toUInt8 then (1, rd.copy c, .done)
      else
        let x := takeRead killed u (rd.copy c)
        (x.1 + 1, x.2)
    else (0, rd, .done)

/-! ## The ring represents the editor -/

/-- The ring holds the editor's unread characters and then its pending line, and no
newline is pending (one would have committed the line). -/
structure Represents (inp : Input) (ed : LineEditor) : Prop where
  shaped : inp.Shaped
  unread : inp.unread = ed.unread
  pending : inp.pending = ed.pending
  taken_le : ed.taken ≤ ed.committed.length
  newline : '\n'.toUInt8 ∉ ed.pending

theorem idx_add_dist (a b : UInt32) :
    Ring.slot INPUT_BUF (b.toNat + Word32.dist a b) = Input.idx a :=
  Fin.ext (Word32.add_dist_mod (by decide) a b)

namespace Input

variable (inp : Input)

theorem unread_eq_nil_iff : inp.unread = [] ↔ inp.r = inp.w := by
  rw [← List.length_eq_zero_iff, unread, Ring.length_view, Word32.dist_eq_zero_iff, eq_comm]

/-- The unread bytes after `r` moves on by `k` of them. -/
theorem unread_advance {k : Nat} (hk : k ≤ Word32.dist inp.w inp.r) :
    { inp with r := inp.r + k.toUInt32 }.unread = inp.unread.drop k := by
  simp only [unread]
  rw [Ring.view_drop _ _ _ _ hk, Word32.dist_add_right hk]
  exact Ring.view_congr_start (Word32.toNat_add_mod_of_dvd (by decide) _ _) _ _

theorem unread_cons (h : inp.r ≠ inp.w) :
    inp.unread = inp.buf (idx inp.r) :: { inp with r := inp.r + 1 }.unread := by
  have hpos : 0 < Word32.dist inp.w inp.r :=
    Nat.pos_of_ne_zero fun h0 => h (Word32.eq_of_dist_eq_zero h0).symm
  have hview : inp.unread =
      inp.buf (idx inp.r) :: Ring.view inp.buf (inp.r.toNat + 1) (Word32.dist inp.w inp.r - 1) := by
    rw [unread, ← Nat.sub_add_cancel hpos, Ring.view_cons, Nat.sub_add_cancel hpos]
    rfl
  rw [show inp.r + 1 = inp.r + (1 : Nat).toUInt32 from rfl, unread_advance inp hpos, hview]
  rfl

/-- The pending line ends with the byte before `e`. -/
theorem pending_eq_concat (h : inp.e ≠ inp.w) :
    inp.pending = { inp with e := inp.e - 1 }.pending ++ [inp.buf (idx (inp.e - 1))] := by
  have hpos : 0 < Word32.dist inp.e inp.w :=
    Nat.pos_of_ne_zero fun h0 => h (Word32.eq_of_dist_eq_zero h0)
  simp only [pending]
  rw [Word32.dist_pred_left hpos, ← idx_add_dist (inp.e - 1) inp.w, Word32.dist_pred_left hpos,
    ← Ring.view_succ, Nat.sub_add_cancel hpos]

section store

variable {inp} (hroom : Word32.dist inp.e inp.r < INPUT_BUF) (c : UInt8)
include hroom

theorem dist_store : Word32.dist (inp.store c).e inp.r = Word32.dist inp.e inp.r + 1 :=
  Word32.dist_succ_left (by unfold INPUT_BUF at hroom; omega)

variable (hs : inp.Shaped)
include hs

theorem unread_store : (inp.store c).unread = inp.unread := by
  simp only [unread, store]
  apply Ring.view_update_of_ne
  intro i hi
  rw [← idx_add_dist inp.e inp.r]
  exact Ring.slot_ne (by have := hs.split; omega) (by omega)

theorem pending_store : (inp.store c).pending = inp.pending ++ [c] := by
  have hsucc : Word32.dist (inp.e + 1) inp.w = Word32.dist inp.e inp.w + 1 :=
    Word32.dist_succ_left (by have := hs.split; unfold INPUT_BUF at hroom; omega)
  simp only [pending, store]
  rw [hsucc, ← idx_add_dist inp.e inp.w]
  exact Ring.view_update_last _ _ _ _ (by have := hs.split; omega)

theorem shaped_store : (inp.store c).Shaped where
  split := by
    have h1 := dist_store hroom c
    have h2 : Word32.dist (inp.e + 1) inp.w = Word32.dist inp.e inp.w + 1 :=
      Word32.dist_succ_left (by have := hs.split; unfold INPUT_BUF at hroom; omega)
    simp only [store] at h1 ⊢
    have := hs.split
    omega
  le := by
    have := dist_store hroom c
    simp only [store] at this ⊢
    omega

end store

/-- Setting `w` to `e` commits the pending line. -/
theorem unread_commit (hs : inp.Shaped) :
    { inp with w := inp.e }.unread = inp.unread ++ inp.pending := by
  simp only [unread, pending]
  rw [← hs.split, Ring.view_add]
  congr 1
  exact Ring.view_congr_start (Word32.add_dist_mod (by decide) _ _) _ _

end Input

/-- With no newline pending and fuel for every pending byte, the `C('U')` loop erases
the whole line. -/
theorem killLine_eq : ∀ (k : Nat) (inp : Input), '\n'.toUInt8 ∉ inp.pending →
    Word32.dist inp.e inp.w ≤ k → killLine k inp = { inp with e := inp.w }
  | 0, ⟨buf, r, w, e⟩, _, hk => by
    have he : e = w := Word32.eq_of_dist_eq_zero (Nat.eq_zero_of_le_zero hk)
    subst he
    rfl
  | k + 1, inp, hnl, hk => by
    by_cases he : inp.e = inp.w
    · obtain ⟨buf, r, w, e⟩ := inp
      dsimp only at he
      subst he
      simp [killLine]
    · have hcat := inp.pending_eq_concat he
      have hpos : 0 < Word32.dist inp.e inp.w :=
        Nat.pos_of_ne_zero fun h0 => he (Word32.eq_of_dist_eq_zero h0)
      have hlast : inp.buf (Input.idx (inp.e - 1)) ≠ '\n'.toUInt8 := by
        intro h
        rw [hcat, h] at hnl
        exact hnl (List.mem_append_right _ (List.mem_singleton_self _))
      have hnl' : '\n'.toUInt8 ∉ { inp with e := inp.e - 1 }.pending := by
        intro h
        rw [hcat] at hnl
        exact hnl (List.mem_append_left _ h)
      rw [killLine, if_pos ⟨he, hlast⟩, killLine_eq k _ hnl']
      show Word32.dist (inp.e - 1) inp.w ≤ k
      rw [Word32.dist_pred_left hpos]
      omega

namespace Represents

variable {inp : Input} {ed : LineEditor} (hr : Represents inp ed)
include hr

theorem buffered_eq : ed.buffered = Word32.dist inp.e inp.r := by
  rw [LineEditor.buffered, ← hr.unread, ← hr.pending, Input.unread, Input.pending,
    Ring.length_view, Ring.length_view, hr.shaped.split]

/-- `C('U')`. -/
theorem killLine :
    Represents (Xv6.killLine (Word32.dist inp.e inp.w) inp) { ed with pending := [] } := by
  have hnl : '\n'.toUInt8 ∉ inp.pending := hr.pending ▸ hr.newline
  rw [killLine_eq _ _ hnl le_rfl]
  have := hr.shaped.split
  exact {
    shaped := ⟨by simp, by simp only; have := hr.shaped.le; omega⟩
    unread := hr.unread
    pending := by simp [Input.pending]
    taken_le := hr.taken_le
    newline := List.not_mem_nil }

/-- `C('H')` and DEL. -/
theorem backspace :
    Represents (if inp.e ≠ inp.w then { inp with e := inp.e - 1 } else inp)
      { ed with pending := ed.pending.dropLast } := by
  split_ifs with he
  · have hpos : 0 < Word32.dist inp.e inp.w :=
      Nat.pos_of_ne_zero fun h0 => he (Word32.eq_of_dist_eq_zero h0)
    have hcat := inp.pending_eq_concat he
    have hr' : Word32.dist (inp.e - 1) inp.r = Word32.dist inp.e inp.r - 1 :=
      Word32.dist_pred_left (by have := hr.shaped.split; omega)
    have := hr.shaped.split
    have := hr.shaped.le
    exact {
      shaped := ⟨by simp only; rw [hr', Word32.dist_pred_left hpos]; omega, by simp only; omega⟩
      unread := hr.unread
      pending := by rw [← hr.pending, hcat, List.dropLast_concat]
      taken_le := hr.taken_le
      newline := fun h => hr.newline (List.dropLast_subset _ h) }
  · have he : inp.e = inp.w := by simpa using he
    have hnil : ed.pending = [] := by
      rw [← hr.pending, Input.pending, he, Word32.dist_self, Ring.view_zero]
    rw [hnil, List.dropLast_nil, ← hnil]
    exact hr

section default

variable (hroom : Word32.dist inp.e inp.r < INPUT_BUF) (c : UInt8)
include hroom

/-- A character appended to the pending line. -/
theorem append (hc : c ≠ '\n'.toUInt8) :
    Represents (inp.store c) { ed with pending := ed.pending ++ [c] } where
  shaped := Input.shaped_store hroom c hr.shaped
  unread := (Input.unread_store hroom c hr.shaped).trans hr.unread
  pending := by rw [Input.pending_store hroom c hr.shaped, hr.pending]
  taken_le := hr.taken_le
  newline := by
    rw [List.mem_append, List.mem_singleton, not_or]
    exact ⟨hr.newline, Ne.symm hc⟩

/-- A character appended and the line committed. -/
theorem commit :
    Represents { inp.store c with w := (inp.store c).e }
      { ed with committed := ed.committed ++ (ed.pending ++ [c]), pending := [] } where
  shaped := ⟨by simp, (Input.shaped_store hroom c hr.shaped).le⟩
  unread := by
    rw [Input.unread_commit _ (Input.shaped_store hroom c hr.shaped),
      Input.unread_store hroom c hr.shaped, Input.pending_store hroom c hr.shaped, hr.unread,
      hr.pending, LineEditor.unread, LineEditor.unread,
      List.drop_append_of_le_length hr.taken_le]
  pending := by simp [Input.pending]
  taken_le := by
    simp only [List.length_append]
    have := hr.taken_le
    omega
  newline := List.not_mem_nil

end default

/-- One character of `consoleintr` is the editor's edit. -/
theorem intrChar (c : UInt8) : Represents (consoleintrChar inp c) (ed.edit c) := by
  unfold consoleintrChar LineEditor.edit
  rw [hr.buffered_eq]
  by_cases hP : c = C 'P'
  · rw [if_pos hP, if_pos hP]
    exact hr
  rw [if_neg hP, if_neg hP]
  by_cases hU : c = C 'U'
  · rw [if_pos hU, if_pos hU]
    exact hr.killLine
  rw [if_neg hU, if_neg hU]
  by_cases hH : c = C 'H' ∨ c = 0x7f
  · rw [if_pos hH, if_pos hH]
    exact hr.backspace
  rw [if_neg hH, if_neg hH]
  by_cases hdef : c ≠ 0 ∧ Word32.dist inp.e inp.r < INPUT_BUF
  · rw [if_pos hdef, if_pos hdef]
    -- the code's test `e == r + INPUT_BUF` after the store is the editor's full buffer
    have hfull : ∀ c', (inp.store c').e = (inp.store c').r + 128 ↔
        Word32.dist inp.e inp.r + 1 = INPUT_BUF := fun c' => by
      rw [← Input.dist_store hdef.2 c']
      exact Word32.eq_add_iff_dist (show 128 < 2 ^ 32 by decide)
    generalize (if c = '\r'.toUInt8 then '\n'.toUInt8 else c) = c'
    dsimp only
    simp only [hfull c']
    split_ifs with hcommit
    · exact hr.commit hdef.2 c'
    · exact hr.append hdef.2 c' fun h => hcommit (Or.inl h)
  · rw [if_neg hdef, if_neg hdef]
    exact hr

/-- `consoleintr` is the editor's edits, one character after the other. -/
theorem intr (cs : List UInt8) : Represents (consoleintr inp cs) (cs.foldl LineEditor.edit ed) := by
  induction cs generalizing inp ed with
  | nil => exact hr
  | cons c cs ih => exact ih (hr.intrChar c)

/-- Moving `r` on by `k` unread bytes is the editor's reads taking `k` characters. -/
theorem advance {k : Nat} (hk : k ≤ ed.unread.length) :
    Represents { inp with r := inp.r + k.toUInt32 } { ed with taken := ed.taken + k } := by
  have hlen : Word32.dist inp.w inp.r = ed.unread.length := by
    rw [← hr.unread, Input.unread, Ring.length_view]
  have hsplit := hr.shaped.split
  have hle := hr.shaped.le
  have hw : Word32.dist inp.w (inp.r + k.toUInt32) = Word32.dist inp.w inp.r - k :=
    Word32.dist_add_right (by omega)
  have he : Word32.dist inp.e (inp.r + k.toUInt32) = Word32.dist inp.e inp.r - k :=
    Word32.dist_add_right (by omega)
  exact {
    shaped := ⟨by simp only; omega, by simp only; omega⟩
    unread := by
      rw [inp.unread_advance (by omega), hr.unread, LineEditor.unread, LineEditor.unread,
        List.drop_drop]
    pending := hr.pending
    taken_le := by
      have := hr.taken_le
      simp only [LineEditor.unread, List.length_drop] at hk
      simp only
      omega
    newline := hr.newline }

end Represents

/-! ## Reads -/

theorem Reading.copy_n_toInt {rd : Reading} (h : 0 < rd.n) (c : UInt8) :
    (rd.copy c).n.toInt = rd.n.toInt - 1 := by
  rw [Int32.lt_iff_toInt_lt, Int32.toInt_zero] at h
  have := Int32.toInt_lt rd.n
  have := Int32.le_toInt rd.n
  rw [copy, Int32.toInt_sub, Int32.toInt_one, Int.bmod_eq_of_le] <;> omega

section takeRead

variable {killed : Bool} {rd : Reading}

theorem takeRead_of_not_pos (h : ¬ 0 < rd.n) (u : List UInt8) :
    takeRead killed u rd = (0, rd, .done) := by
  cases u <;> simp [takeRead, h]

theorem takeRead_nil (h : 0 < rd.n) :
    takeRead killed [] rd = (0, rd, if killed then .killed else .sleep) := by
  simp [takeRead, h]

theorem takeRead_eof (h : 0 < rd.n) (u : List UInt8) :
    takeRead killed (C 'D' :: u) rd = (if rd.n < rd.target then 0 else 1, rd, .done) := by
  simp [takeRead, h]

theorem takeRead_newline (h : 0 < rd.n) (u : List UInt8) :
    takeRead killed ('\n'.toUInt8 :: u) rd = (1, rd.copy '\n'.toUInt8, .done) := by
  simp [takeRead, h, show '\n'.toUInt8 ≠ C 'D' by decide]

theorem takeRead_cons (h : 0 < rd.n) {c : UInt8} (hD : c ≠ C 'D') (hnl : c ≠ '\n'.toUInt8)
    (u : List UInt8) :
    takeRead killed (c :: u) rd =
      ((takeRead killed u (rd.copy c)).1 + 1, (takeRead killed u (rd.copy c)).2) := by
  simp [takeRead, h, hD, hnl]

end takeRead

/-- Why a read that took `x.1` characters of the queue `u` left the loop. -/
def ReadEnd (u : List UInt8) (x : Nat × Reading × ConsStop) : Prop :=
  -- `n` bytes copied: the loop's test `n > 0` fails
  ¬ 0 < x.2.1.n ∨
  -- a newline copied last
  x.2.1.out.getLast? = some '\n'.toUInt8 ∨
  -- a `^D` after bytes of this read: left as the next character
  (x.2.1.n < x.2.1.target ∧ (u.drop x.1).head? = some (C 'D')) ∨
  -- a `^D` before any byte: taken
  (¬ x.2.1.n < x.2.1.target ∧ (u.take x.1).getLast? = some (C 'D'))

theorem ReadEnd.cons {u : List UInt8} {x : Nat × Reading × ConsStop} (c : UInt8) (h : ReadEnd u x) :
    ReadEnd (c :: u) (x.1 + 1, x.2) := by
  rcases h with h | h | ⟨hlt, hd⟩ | ⟨hge, hl⟩
  · exact .inl h
  · exact .inr (.inl h)
  · exact .inr (.inr (.inl ⟨hlt, hd⟩))
  · have hne : u.take x.1 ≠ [] := fun h0 => by simp [h0] at hl
    refine .inr (.inr (.inr ⟨hge, ?_⟩))
    rw [List.take_succ_cons, List.getLast?_cons, hl]
    rfl

/-- What a read that starts as `rd` on the queue `u` and ends as `x` has done: it took
`x.1` characters, copied those that are not `^D` and counted them off `n`, and it
stopped for one of the reasons of `consoleread`. -/
structure TakeSpec (killed : Bool) (u : List UInt8) (rd : Reading)
    (x : Nat × Reading × ConsStop) : Prop where
  le : x.1 ≤ u.length
  target : x.2.1.target = rd.target
  out : x.2.1.out = rd.out ++ (u.take x.1).filter (· ≠ C 'D')
  count : x.2.1.n.toInt + x.2.1.out.length = rd.n.toInt + rd.out.length
  nonneg : 0 ≤ rd.n.toInt → 0 ≤ x.2.1.n.toInt
  newline : '\n'.toUInt8 ∉ rd.out → '\n'.toUInt8 ∉ x.2.1.out.dropLast
  wait : x.2.2 ≠ .done →
    x.1 = u.length ∧ 0 < x.2.1.n ∧ '\n'.toUInt8 ∉ u ∧ x.2.2 = if killed then .killed else .sleep
  ends : x.2.2 = .done → 0 < rd.n → ReadEnd u x

/-- A read that leaves the loop at once, having taken `k` characters and copied none. -/
theorem takeSpec_stop {killed : Bool} {u : List UInt8} {rd : Reading} {k : Nat}
    (hk : k ≤ u.length) (hf : (u.take k).filter (· ≠ C 'D') = [])
    (hend : 0 < rd.n → ReadEnd u (k, rd, .done)) : TakeSpec killed u rd (k, rd, .done) where
  le := hk
  target := rfl
  out := by rw [hf, List.append_nil]
  count := rfl
  nonneg := id
  newline := fun h h' => h (List.dropLast_subset _ h')
  wait := fun h => absurd rfl h
  ends := fun _ => hend

theorem takeRead_spec (killed : Bool) (u : List UInt8) (rd : Reading) :
    TakeSpec killed u rd (takeRead killed u rd) := by
  induction u generalizing rd with
  | nil =>
    by_cases hn : 0 < rd.n
    · rw [takeRead_nil hn]
      exact {
        le := le_rfl, target := rfl, out := by simp, count := rfl, nonneg := id
        newline := fun h h' => h (List.dropLast_subset _ h')
        wait := fun _ => ⟨rfl, hn, List.not_mem_nil, rfl⟩
        ends := fun h => by cases killed <;> simp at h }
    · rw [takeRead_of_not_pos hn]
      exact takeSpec_stop le_rfl rfl fun h => absurd h hn
  | cons c u ih =>
    by_cases hn : 0 < rd.n
    swap
    · rw [takeRead_of_not_pos hn]
      exact takeSpec_stop (Nat.zero_le _) rfl fun h => absurd h hn
    by_cases hD : c = C 'D'
    · -- the `^D` is taken only by a read that has copied nothing
      subst hD
      rw [takeRead_eof hn]
      split_ifs with hlt
      · exact takeSpec_stop (Nat.zero_le _) rfl fun _ => .inr (.inr (.inl ⟨hlt, rfl⟩))
      · exact takeSpec_stop (by simp) (by rw [List.take_succ_cons, List.take_zero]; decide)
          fun _ => .inr (.inr (.inr ⟨hlt, rfl⟩))
    by_cases hnl : c = '\n'.toUInt8
    · subst hnl
      rw [takeRead_newline hn]
      have hn' := Reading.copy_n_toInt hn '\n'.toUInt8
      exact {
        le := by simp
        target := rfl
        out := by simp [show '\n'.toUInt8 ≠ C 'D' by decide]
        count := by
          dsimp only
          simp only [Reading.copy_out, List.length_append, List.length_singleton]
          omega
        nonneg := fun _ => by
          rw [Int32.lt_iff_toInt_lt, Int32.toInt_zero] at hn
          dsimp only
          omega
        newline := fun h => by simpa using h
        wait := fun h => absurd rfl h
        ends := fun _ _ => .inr (.inl (by simp)) }
    · -- an ordinary byte is copied and the loop goes on
      rw [takeRead_cons hn hD hnl]
      have hs := ih (rd.copy c)
      have hn' := Reading.copy_n_toInt hn c
      exact {
        le := by simpa using hs.le
        target := hs.target
        out := by simp [hs.out, List.take_succ_cons, hD]
        count := by
          have := hs.count
          simp only [Reading.copy_out, List.length_append, List.length_singleton] at this
          dsimp only
          omega
        nonneg := fun _ => hs.nonneg (by
          rw [Int32.lt_iff_toInt_lt, Int32.toInt_zero] at hn
          omega)
        newline := fun h => hs.newline (by simp [h, Ne.symm hnl])
        wait := fun h => by
          obtain ⟨hk, hpos, hu, hstop⟩ := hs.wait h
          exact ⟨by simp [hk], hpos, by simp [hu, Ne.symm hnl], hstop⟩
        ends := fun h _ => by
          by_cases hn'' : 0 < (rd.copy c).n
          · exact (hs.ends h hn'').cons c
          · rw [takeRead_of_not_pos hn''] at h ⊢
            exact .inl hn'' }

theorem toUInt32_succ (r : UInt32) (k : Nat) : r + 1 + k.toUInt32 = r + (k + 1).toUInt32 := by
  simp only [Nat.toUInt32, UInt32.ofNat_add]
  ac_rfl

/-- `consoleread`'s loop on the ring is the read on the queue of unread bytes: `r` moves
on by the characters taken. -/
theorem readLoop_eq (killed : Bool) (inp : Input) (rd : Reading) :
    readLoop killed inp rd =
      ⟨{ inp with r := inp.r + (takeRead killed inp.unread rd).1.toUInt32 },
        (takeRead killed inp.unread rd).2.1, (takeRead killed inp.unread rd).2.2⟩ := by
  fun_induction readLoop killed inp rd with
  | case1 inp rd hn hrw =>
    rw [(Input.unread_eq_nil_iff inp).2 hrw, takeRead_nil hn]
    simp
  | case2 inp rd hn hrw c inp' hD =>
    dsimp only [c] at hD
    rw [inp.unread_cons hrw, hD, takeRead_eof hn]
    split_ifs <;> simp [inp']
  | case3 inp rd hn hrw c inp' hD hnl =>
    dsimp only [c] at hD hnl
    rw [inp.unread_cons hrw, hnl, takeRead_newline hn]
    simp only [c, hnl]
    rfl
  | case4 inp rd hn hrw c inp' hD hnl ih =>
    dsimp only [c] at hD hnl
    rw [ih, inp.unread_cons hrw, takeRead_cons hn hD hnl]
    simp only [inp', c, toUInt32_succ]
  | case5 inp rd hn =>
    rw [takeRead_of_not_pos hn]
    simp

/-! ## The two machines -/

/-- What a read gave its caller when it left `consoleread`: the count it was asked for,
the value it returned and the bytes it copied to `dst`. -/
structure Returned where
  target : Int32
  ret : Int32
  bytes : List UInt8
  deriving DecidableEq

/-- The readers' side, the same in both machines: the read asleep in `consoleread`, if
any, and the reads that have returned. -/
structure Readers where
  reading : Option Reading
  log : List Returned
  deriving DecidableEq

namespace Readers

/-- The read leaves the loop: it sleeps, or returns `target - n`, or `-1` when killed. -/
def finish (rs : Readers) (rd : Reading) : ConsStop → Readers
  | .sleep => ⟨some rd, rs.log⟩
  | .done => ⟨none, rs.log ++ [⟨rd.target, rd.target - rd.n, rd.out⟩]⟩
  | .killed => ⟨none, rs.log ++ [⟨rd.target, -1, rd.out⟩]⟩

/-- The bytes the reads have copied out, those of the sleeping read last. -/
def copied (rs : Readers) : List UInt8 :=
  rs.log.flatMap Returned.bytes ++ (rs.reading.map Reading.out).getD []

theorem copied_finish (rs : Readers) (rd : Reading) (stop : ConsStop) :
    (rs.finish rd stop).copied = rs.log.flatMap Returned.bytes ++ rd.out := by
  cases stop <;> simp [finish, copied]

end Readers

/-- Characters from the keyboard or the serial line; a new `consoleread(n)`; the
sleeping read woken. The flag is the reader's `proc->killed`. -/
inductive ConsCall where
  | intr (cs : List UInt8)
  | read (n : Int32) (killed : Bool)
  | resume (killed : Bool)

/-- The console as the code keeps it. -/
structure Console where
  input : Input
  readers : Readers

/-- The zeroed `input` of a booting kernel. -/
def Console.boot : Console := ⟨⟨fun _ => 0, 0, 0, 0⟩, ⟨none, []⟩⟩

/-- The read `rd` runs the loop once. -/
def Console.run (s : Console) (killed : Bool) (rd : Reading) : Console :=
  let o := readLoop killed s.input rd
  ⟨o.input, s.readers.finish o.rd o.stop⟩

def consNext (s : Console) : ConsCall → Option Console
  | .intr cs => some { s with input := consoleintr s.input cs }
  | .read n killed => if s.readers.reading = none then some (s.run killed ⟨n, n, []⟩) else none
  | .resume killed => s.readers.reading.map (s.run killed)

/-- The console as the line editor sees it. -/
structure AbsConsole where
  ed : LineEditor
  readers : Readers
  deriving DecidableEq

def AbsConsole.boot : AbsConsole := ⟨⟨[], 0, []⟩, ⟨none, []⟩⟩

def AbsConsole.run (a : AbsConsole) (killed : Bool) (rd : Reading) : AbsConsole :=
  let x := takeRead killed a.ed.unread rd
  ⟨{ a.ed with taken := a.ed.taken + x.1 }, a.readers.finish x.2.1 x.2.2⟩

def absNext (a : AbsConsole) : ConsCall → Option AbsConsole
  | .intr cs => some { a with ed := cs.foldl LineEditor.edit a.ed }
  | .read n killed => if a.readers.reading = none then some (a.run killed ⟨n, n, []⟩) else none
  | .resume killed => a.readers.reading.map (a.run killed)

/-- The ring machine and the editor machine in step. -/
structure ConsRel (s : Console) (a : AbsConsole) : Prop where
  represents : Represents s.input a.ed
  readers : s.readers = a.readers

theorem ConsRel.boot : ConsRel Console.boot AbsConsole.boot where
  represents := {
    shaped := ⟨rfl, by decide⟩
    unread := rfl
    pending := rfl
    taken_le := le_rfl
    newline := List.not_mem_nil }
  readers := rfl

theorem ConsRel.run {s : Console} {a : AbsConsole} (h : ConsRel s a) (killed : Bool)
    (rd : Reading) : ConsRel (s.run killed rd) (a.run killed rd) := by
  have hk := (takeRead_spec killed a.ed.unread rd).le
  simp only [Console.run, AbsConsole.run, readLoop_eq, h.represents.unread, h.readers]
  exact ⟨h.represents.advance hk, rfl⟩

/-- Each event does the same on both machines. -/
theorem ConsRel.next {s : Console} {a : AbsConsole} (h : ConsRel s a) :
    ∀ e, Option.Rel ConsRel (consNext s e) (absNext a e)
  | .intr cs => .some ⟨h.represents.intr cs, h.readers⟩
  | .read n killed => by
    simp only [consNext, absNext, h.readers]
    split_ifs
    · exact .some (h.run killed _)
    · exact .none
  | .resume killed => by
    simp only [consNext, absNext, h.readers]
    cases a.readers.reading with
    | none => exact .none
    | some rd => exact .some (h.run killed rd)

/-- The ring machine runs every event sequence the editor machine runs, in step. -/
theorem console_refines (es : List ConsCall) :
    Option.Rel ConsRel (Reach.runEvents consNext Console.boot es)
      (Reach.runEvents absNext AbsConsole.boot es) :=
  Reach.runEvents_rel (fun _ _ e h => h.next e) es ConsRel.boot

/-! ## The line discipline -/

namespace LineEditor

/-- Editing never touches what is committed or taken. -/
theorem foldl_edit (cs : List UInt8) (ed : LineEditor) :
    (cs.foldl edit ed).taken = ed.taken ∧ ∃ l, (cs.foldl edit ed).committed = ed.committed ++ l := by
  induction cs generalizing ed with
  | nil => exact ⟨rfl, [], by simp⟩
  | cons c cs ih =>
    obtain ⟨htaken, l, hl⟩ := ih (ed.edit c)
    have hstep : (ed.edit c).taken = ed.taken ∧ ∃ l, (ed.edit c).committed = ed.committed ++ l := by
      unfold edit
      dsimp only
      split_ifs <;> first | exact ⟨rfl, [], (List.append_nil _).symm⟩ | exact ⟨rfl, _, rfl⟩
    obtain ⟨htaken', l', hl'⟩ := hstep
    exact ⟨htaken.trans htaken', l' ++ l, by rw [List.foldl_cons, hl, hl', List.append_assoc]⟩

end LineEditor

/-- `n` counts down from `target` by the bytes copied, and is not below zero once a
byte is copied. -/
structure Reading.Counted (rd : Reading) : Prop where
  count : rd.n.toInt + rd.out.length = rd.target.toInt
  nonneg : 0 ≤ rd.n.toInt ∨ rd.out = []

namespace Reading.Counted

variable {rd : Reading} (h : rd.Counted)
include h

theorem takeRead (killed : Bool) (u : List UInt8) : (Xv6.takeRead killed u rd).2.1.Counted := by
  have hs := takeRead_spec killed u rd
  by_cases hn : 0 ≤ rd.n.toInt
  · exact ⟨by rw [hs.target, ← h.count]; exact hs.count, .inl (hs.nonneg hn)⟩
  · -- a read asked for a negative count copies nothing
    have hlt : ¬ 0 < rd.n := by
      rw [Int32.lt_iff_toInt_lt, Int32.toInt_zero]
      omega
    rw [takeRead_of_not_pos hlt]
    exact h

theorem length_le : rd.out.length ≤ rd.target.toInt.toNat := by
  have := h.count
  rcases h.nonneg with h0 | h0
  · omega
  · simp [h0]

/-- `return target - n` is the number of bytes copied. -/
theorem ret_toInt : (rd.target - rd.n).toInt = rd.out.length := by
  have := h.count
  have := h.length_le
  have := Int32.toInt_lt rd.target
  rw [Int32.toInt_sub, Int.bmod_eq_of_le] <;> omega

end Reading.Counted

/-- What a read that has returned gave its caller: no `^D`, a newline at most as the
last byte, at most the count asked for, and as return value that number of bytes or
`-1`. -/
structure Returned.Ok (x : Returned) : Prop where
  newline : '\n'.toUInt8 ∉ x.bytes.dropLast
  eof : C 'D' ∉ x.bytes
  le : x.bytes.length ≤ x.target.toInt.toNat
  ret : x.ret = -1 ∨ x.ret.toInt = x.bytes.length

/-- A read asleep in `consoleread`: it still wants bytes and has copied no newline. -/
structure Reading.Asleep (rd : Reading) : Prop where
  counted : rd.Counted
  pos : 0 < rd.n
  newline : '\n'.toUInt8 ∉ rd.out
  eof : C 'D' ∉ rd.out

/-- The invariant of the editor machine: the bytes copied out are the characters taken
from the queue, `^D` removed. -/
structure AbsInv (a : AbsConsole) : Prop where
  taken_le : a.ed.taken ≤ a.ed.committed.length
  copied : a.readers.copied = (a.ed.committed.take a.ed.taken).filter (· ≠ C 'D')
  asleep : ∀ rd, a.readers.reading = some rd → rd.Asleep
  log : ∀ x ∈ a.readers.log, x.Ok

theorem TakeSpec.eof_out {killed : Bool} {u : List UInt8} {rd : Reading}
    {x : Nat × Reading × ConsStop} (hs : TakeSpec killed u rd x) (heof : C 'D' ∉ rd.out) :
    C 'D' ∉ x.2.1.out := by
  rw [hs.out, List.mem_append, not_or]
  exact ⟨heof, by simp⟩

namespace AbsInv

variable {a : AbsConsole} (hi : AbsInv a)
include hi

theorem intr (cs : List UInt8) : AbsInv { a with ed := cs.foldl LineEditor.edit a.ed } := by
  obtain ⟨htaken, l, hl⟩ := LineEditor.foldl_edit cs a.ed
  have hle := hi.taken_le
  exact {
    taken_le := by simp only [htaken, hl, List.length_append]; omega
    copied := by
      simp only [htaken, hl]
      rw [List.take_append_of_le_length hle]
      exact hi.copied
    asleep := hi.asleep
    log := hi.log }

/-- A read that starts as `rd`, with the bytes it has copied the last of those copied
out, keeps the invariant whatever it does. -/
theorem run {rd : Reading} (hc : rd.Counted) (hnl : '\n'.toUInt8 ∉ rd.out)
    (heof : C 'D' ∉ rd.out)
    (hcop : a.readers.log.flatMap Returned.bytes ++ rd.out =
      (a.ed.committed.take a.ed.taken).filter (· ≠ C 'D'))
    (killed : Bool) : AbsInv (a.run killed rd) := by
  have hs := takeRead_spec killed a.ed.unread rd
  have hle := hs.le
  have hlen : a.ed.unread.length = a.ed.committed.length - a.ed.taken := List.length_drop
  have hc' := hc.takeRead killed a.ed.unread
  refine {
    taken_le := by simp only [AbsConsole.run]; have := hi.taken_le; omega
    copied := ?_
    asleep := ?_
    log := ?_ }
  · -- the new bytes are the characters taken after the old ones
    simp only [AbsConsole.run, Readers.copied_finish]
    rw [hs.out, ← List.append_assoc, hcop, ← List.filter_append, List.take_add]
    rfl
  · intro rd' hrd'
    simp only [AbsConsole.run] at hrd'
    generalize hx : takeRead killed a.ed.unread rd = x at hs hc' hrd'
    obtain ⟨k, rdx, stop⟩ := x
    cases stop with
    | sleep =>
      obtain ⟨-, hpos, hu, -⟩ := hs.wait (by simp)
      simp only [Readers.finish, Option.some.injEq] at hrd'
      subst hrd'
      refine ⟨hc', hpos, ?_, hs.eof_out heof⟩
      rw [hs.out, List.mem_append, not_or]
      exact ⟨hnl, fun h => hu (List.mem_of_mem_take (List.mem_filter.mp h).1)⟩
    | done => simp [Readers.finish] at hrd'
    | killed => simp [Readers.finish] at hrd'
  · intro y hy
    simp only [AbsConsole.run] at hy
    generalize hx : takeRead killed a.ed.unread rd = x at hs hc' hy
    obtain ⟨k, rdx, stop⟩ := x
    cases stop with
    | sleep => exact hi.log y hy
    | done =>
      simp only [Readers.finish, List.mem_append, List.mem_singleton] at hy
      rcases hy with hy | rfl
      · exact hi.log y hy
      · exact ⟨hs.newline hnl, hs.eof_out heof, hc'.length_le, .inr hc'.ret_toInt⟩
    | killed =>
      simp only [Readers.finish, List.mem_append, List.mem_singleton] at hy
      rcases hy with hy | rfl
      · exact hi.log y hy
      · exact ⟨hs.newline hnl, hs.eof_out heof, hc'.length_le, .inl rfl⟩

theorem next {e : ConsCall} {a' : AbsConsole} (h : absNext a e = some a') : AbsInv a' := by
  cases e with
  | intr cs =>
    cases h
    exact hi.intr cs
  | read n killed =>
    simp only [absNext] at h
    split_ifs at h with hfree
    cases h
    have hcop := hi.copied
    simp only [Readers.copied, hfree, Option.map_none, Option.getD_none] at hcop
    exact hi.run ⟨by simp, .inr rfl⟩ List.not_mem_nil List.not_mem_nil hcop killed
  | resume killed =>
    simp only [absNext] at h
    cases hrd : a.readers.reading with
    | none => simp [hrd] at h
    | some rd =>
      rw [hrd, Option.map_some, Option.some.injEq] at h
      subst h
      have hcop := hi.copied
      simp only [Readers.copied, hrd, Option.map_some, Option.getD_some] at hcop
      have ha := hi.asleep rd hrd
      exact hi.run ha.counted ha.newline ha.eof hcop killed

end AbsInv

theorem AbsInv.boot : AbsInv AbsConsole.boot where
  taken_le := le_rfl
  copied := rfl
  asleep := by simp [AbsConsole.boot]
  log := by simp [AbsConsole.boot]

theorem absInv_of_runEvents {es : List ConsCall} {a : AbsConsole}
    (h : Reach.runEvents absNext AbsConsole.boot es = some a) : AbsInv a := by
  have hreach : Reach.Reachable (· = AbsConsole.boot) (Reach.stepOf absNext) a :=
    Reach.reachable_of_runEvents (.init rfl) h
  exact hreach.invariant (fun _ h0 => h0 ▸ AbsInv.boot) fun _ _ _ hi hs => hi.next hs

/-- Why `consoleread`'s loop on the ring `inp` stopped with `o`: `n` bytes copied, a
newline copied last, a `^D` after bytes of this read left as the next character, or a
`^D` before any byte taken. -/
def LoopEnd (inp : Input) (o : ReadOutcome) : Prop :=
  ¬ 0 < o.rd.n ∨ o.rd.out.getLast? = some '\n'.toUInt8 ∨
  (o.rd.n < o.rd.target ∧ o.input.unread.head? = some (C 'D')) ∨
  (¬ o.rd.n < o.rd.target ∧ ∃ pre, inp.unread = pre ++ C 'D' :: o.input.unread)

theorem readLoop_end {killed : Bool} {inp : Input} {rd : Reading} (hn : 0 < rd.n)
    (hd : (readLoop killed inp rd).stop = .done) : LoopEnd inp (readLoop killed inp rd) := by
  have hs := takeRead_spec killed inp.unread rd
  have hk : (takeRead killed inp.unread rd).1 ≤ Word32.dist inp.w inp.r := by
    have := hs.le
    rwa [Input.unread, Ring.length_view] at this
  have hrest := inp.unread_advance hk
  rw [readLoop_eq] at hd ⊢
  rcases hs.ends hd hn with h | h | ⟨hlt, hh⟩ | ⟨hge, hl⟩
  · exact .inl h
  · exact .inr (.inl h)
  · exact .inr (.inr (.inl ⟨hlt, by dsimp only; rw [hrest]; exact hh⟩))
  · -- the characters taken end with the `^D`
    refine .inr (.inr (.inr ⟨hge, (inp.unread.take (takeRead killed inp.unread rd).1).dropLast, ?_⟩))
    dsimp only
    rw [hrest, ← List.singleton_append, ← List.append_assoc, List.dropLast_append_getLast? _ hl,
      List.take_append_drop]

/-- A read that finds a `^D` first returns 0 and takes it. -/
theorem consNext_read_eof {s : Console} (hfree : s.readers.reading = none) {rest : List UInt8}
    (hu : s.input.unread = C 'D' :: rest) {n : Int32} (hn : 0 < n) (killed : Bool) :
    ∃ s', consNext s (.read n killed) = some s' ∧
      s'.readers.log = s.readers.log ++ [⟨n, 0, []⟩] ∧ s'.input.unread = rest := by
  have hr : (1 : Nat) ≤ Word32.dist s.input.w s.input.r := by
    have := congrArg List.length hu
    rw [Input.unread, Ring.length_view] at this
    simp [this]
  have hn' : 0 < (⟨n, n, []⟩ : Reading).n := hn
  refine ⟨_, by simp only [consNext, hfree, if_true]; rfl, ?_, ?_⟩
  · simp [Console.run, readLoop_eq, hu, takeRead_eof hn', Readers.finish]
  · simp only [Console.run, readLoop_eq, hu, takeRead_eof hn', Int32.lt_irrefl, if_false]
    rw [s.input.unread_advance hr, hu]
    rfl

/-- A run of the editor machine is run by the ring machine too. -/
theorem consRun_of_absRun {es : List ConsCall} {a : AbsConsole}
    (ha : Reach.runEvents absNext AbsConsole.boot es = some a) :
    ∃ s, Reach.runEvents consNext Console.boot es = some s ∧ ConsRel s a := by
  have hrel := console_refines es
  rw [ha] at hrel
  generalize Reach.runEvents consNext Console.boot es = os at hrel
  cases hrel with
  | some hsa => exact ⟨_, rfl, hsa⟩

theorem console_line_discipline (es : List ConsCall) {s : Console}
    (h : Reach.runEvents consNext Console.boot es = some s) :
    -- the editor fed the same events, and the ring in step with it
    (∃ a, Reach.runEvents absNext AbsConsole.boot es = some a ∧
      s.input.Shaped ∧ s.input.unread = a.ed.unread ∧ s.input.pending = a.ed.pending ∧
      s.readers = a.readers ∧
      s.readers.copied = (a.ed.committed.take a.ed.taken).filter (· ≠ C 'D')) ∧
    (∀ x ∈ s.readers.log, x.Ok) ∧
    (∀ killed rd, 0 < rd.n → (readLoop killed s.input rd).stop = .done →
      LoopEnd s.input (readLoop killed s.input rd)) ∧
    (s.readers.reading = none → ∀ rest, s.input.unread = C 'D' :: rest →
      ∀ n killed, 0 < n → ∃ s', consNext s (.read n killed) = some s' ∧
        s'.readers.log = s.readers.log ++ [⟨n, 0, []⟩] ∧ s'.input.unread = rest) := by
  have hrel := console_refines es
  rw [h] at hrel
  generalize ha : Reach.runEvents absNext AbsConsole.boot es = oa at hrel
  cases hrel with
  | some hsa =>
    rename_i a
    have hi := absInv_of_runEvents ha
    refine ⟨⟨a, rfl, hsa.represents.shaped, hsa.represents.unread, hsa.represents.pending,
      hsa.readers, hsa.readers ▸ hi.copied⟩, hsa.readers ▸ hi.log,
      fun _ _ hn hd => readLoop_end hn hd, fun hfree _ hu _ killed hn => ?_⟩
    exact consNext_read_eof hfree hu hn killed

/-- Typing `hi` and a carriage return, then a read of 10 bytes: it returns the line, the
carriage return as a newline. -/
theorem console_reads_line :
    ∃ s, Reach.runEvents consNext Console.boot [.intr [104, 105, 13], .read 10 false] = some s ∧
      s.readers.log = [⟨10, 3, [104, 105, 10]⟩] ∧ ∀ x ∈ s.readers.log, x.Ok := by
  have ha : Reach.runEvents absNext AbsConsole.boot [.intr [104, 105, 13], .read 10 false] =
      some ⟨⟨[104, 105, 10], 3, []⟩, ⟨none, [⟨10, 3, [104, 105, 10]⟩]⟩⟩ := by decide
  obtain ⟨s, hs, hsa⟩ := consRun_of_absRun ha
  exact ⟨s, hs, by rw [hsa.readers], (console_line_discipline _ hs).2.1⟩

set_option maxRecDepth 8000 in
/-- A full buffer of 128 characters is committed without a newline; a read of 200 takes
all of them, sleeps for more, and is killed: it returns `-1`, and the line is gone from
the ring. -/
theorem killed_read_drops_line :
    ∃ s, Reach.runEvents consNext Console.boot
        [.intr (List.replicate 128 'a'.toUInt8), .read 200 false, .resume true] = some s ∧
      s.readers = ⟨none, [⟨200, -1, List.replicate 128 'a'.toUInt8⟩]⟩ ∧
      s.input.unread = [] ∧ s.input.pending = [] := by
  -- the editor commits the full buffer, and the read takes all of it before it sleeps
  have ha : Reach.runEvents absNext AbsConsole.boot
      [.intr (List.replicate 128 'a'.toUInt8), .read 200 false, .resume true] =
      some ⟨⟨List.replicate 128 'a'.toUInt8, 128, []⟩,
        ⟨none, [⟨200, -1, List.replicate 128 'a'.toUInt8⟩]⟩⟩ := by decide
  obtain ⟨s, hs, hsa⟩ := consRun_of_absRun ha
  exact ⟨s, hs, hsa.readers, by rw [hsa.represents.unread]; rfl, hsa.represents.pending⟩

end Xv6
