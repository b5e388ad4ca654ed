import Mathlib
import Xv6.Fs.Inv

/-!
# Path names

`namecmp`, `dirlookup`, `skipelem` and `namei` of `fs.c` on a disk at rest: the inode
cache holds what the disk holds, so `ilock` reads `dinodeAt`, and every block of a
directory is there, so `bmap` is `blockAddr`. A path is a list of bytes; its end and a
`0` in it are the C string's NUL.

`skipelem` copies at most `DIRSIZ` bytes of an element into `name`, with no NUL when the
element has `DIRSIZ` bytes or more, and `namecmp` compares `DIRSIZ` bytes. A directory
entry's name, as `mkfs` and `dirlink` store it, is the element's first `DIRSIZ` bytes;
`namei` finds it under its own name exactly when `namecmp` finds the two equal.
-/

namespace Xv6

/-- `#define DIRSIZ 14` -/
def DIRSIZ : Nat := 14

/-- `strncmp(p, q, n)` of `string.c` on the bytes from `p` and from `q`, a `0` past the
end of a list. -/
def strncmp : Nat → List UInt8 → List UInt8 → Int
  | 0, _, _ => 0
  | n + 1, p, q =>
    if p.headD 0 ≠ 0 ∧ p.headD 0 = q.headD 0 then strncmp n p.tail q.tail
    else ((p.headD 0).toNat : Int) - (q.headD 0).toNat

/-- `namecmp(s, t)`, which `dirlookup` uses. -/
def namecmp (s t : List UInt8) : Int := strncmp DIRSIZ s t

theorem strncmp_self : ∀ (n : Nat) (p : List UInt8), strncmp n p p = 0
  | 0, _ => rfl
  | n + 1, p => by
    unfold strncmp
    split
    · exact strncmp_self n p.tail
    · simp

/-- Past a common prefix with no NUL, `strncmp` compares what follows. -/
theorem strncmp_append {l : List UInt8} (hl : ∀ c ∈ l, c ≠ 0) (p q : List UInt8) :
    ∀ n, l.length ≤ n → strncmp n (l ++ p) (l ++ q) = strncmp (n - l.length) p q := by
  induction l with
  | nil =>
    intro n _
    rfl
  | cons c l ih =>
    intro n hn
    obtain ⟨m, rfl⟩ : ∃ m, n = m + 1 := ⟨n - 1, by simp only [List.length_cons] at hn; omega⟩
    have hc : c ≠ 0 := hl c List.mem_cons_self
    rw [List.cons_append, List.cons_append, strncmp, if_pos ⟨hc, rfl⟩]
    simp only [List.tail_cons, List.length_cons, Nat.add_sub_add_right]
    exact ih (fun b hb => hl b (List.mem_cons_of_mem c hb)) m (by simp only [List.length_cons] at hn; omega)

/-! ## Directories -/

/-- The `struct dirent` at byte `o` of a block: `inum`, and the `DIRSIZ` bytes of `name`. -/
def direntAt (b : Block) (o : Nat) : Nat × List UInt8 :=
  ((Bytes.getU16 b o).toNat, Bytes.readBytes b (o + 2) DIRSIZ)

/-- The inner loop of `dirlookup` over the entries of one block: the `inum` of the first
one in use whose name `namecmp` finds equal to `name`. -/
def lookupBlock (b : Block) (name : List UInt8) : Option Nat :=
  (List.range (BSIZE / 16)).findSome? fun j =>
    let de := direntAt b (16 * j)
    if de.1 = 0 then none
    else if namecmp name de.2 = 0 then some de.1
    else none

/-- `dirlookup(dp, name, 0)`: the outer loop reads the blocks at `off = 0, BSIZE, ...`
below `dp->size`. -/
def dirlookup (d : Disk) (dp : Dinode) (name : List UInt8) : Except String (Option Nat) :=
  if dp.type ≠ T_DIR then throw "dirlookup not DIR"
  else pure ((List.range (nblocks dp.size)).findSome? fun bn => lookupBlock (d (blockAddr d dp bn)) name)

/-! ## Paths -/

/-- `skipelem(path, name)`: the path after the next element and its slashes, and the bytes
copied to `name`; `none` where there is no element. Past the NUL it writes for a short
element, `namecmp` reads nothing of `name`, so the rest of the buffer is left out. -/
def skipelem (path : List UInt8) : Option (List UInt8 × List UInt8) :=
  match path.dropWhile (· == '/'.toUInt8) with
  | [] => none
  | c :: rest =>
    if c = 0 then none
    else
      let s := (c :: rest).takeWhile fun b => b != '/'.toUInt8 && b != 0
      let name := if s.length ≥ DIRSIZ then s.take DIRSIZ else s ++ [0]
      some (((c :: rest).drop s.length).dropWhile (· == '/'.toUInt8), name)

/-- An element has at least one byte, so each pass of `namex`'s loop shortens the path. -/
theorem skipelem_length_lt {path rest name : List UInt8} (h : skipelem path = some (rest, name)) :
    rest.length < path.length := by
  unfold skipelem at h
  split at h
  · cases h
  · rename_i c tl hdrop
    by_cases hc : c = 0
    · rw [if_pos hc] at h
      cases h
    rw [if_neg hc] at h
    obtain ⟨rfl, -⟩ := Prod.mk.inj (Option.some.inj h)
    -- the head of what `dropWhile` leaves is not a slash, so the element takes it
    have hslash : (c == '/'.toUInt8) = false := by
      have hne : path.dropWhile (· == '/'.toUInt8) ≠ [] := by
        rw [hdrop]
        exact List.cons_ne_nil c tl
      have := List.head_dropWhile_not _ hne
      simp only [hdrop, List.head_cons] at this
      exact this
    have hs : ((c :: tl).takeWhile fun b => b != '/'.toUInt8 && b != 0) =
        c :: tl.takeWhile fun b => b != '/'.toUInt8 && b != 0 := by
      rw [List.takeWhile_cons_of_pos]
      simp only [bne, hslash, Bool.not_false, Bool.true_and, Bool.not_eq_true', beq_eq_false_iff_ne]
      exact hc
    have hle : (c :: tl).length ≤ path.length := by
      rw [← hdrop]
      exact (List.dropWhile_sublist _).length_le
    calc _ ≤ ((c :: tl).drop (c :: tl.takeWhile fun b => b != '/'.toUInt8 && b != 0).length).length := by
          rw [hs]
          exact (List.dropWhile_sublist _).length_le
      _ < (c :: tl).length := by simp only [List.length_drop, List.length_cons]; omega
      _ ≤ path.length := hle

/-- A path of one element, with no slash and no NUL: `skipelem` copies it, cut to
`DIRSIZ` bytes when it is that long, and leaves nothing after it. -/
theorem skipelem_elem {elem : List UInt8} (hne : elem ≠ []) (hb : ∀ c ∈ elem, c ≠ '/'.toUInt8 ∧ c ≠ 0) :
    skipelem elem = some ([], if elem.length ≥ DIRSIZ then elem.take DIRSIZ else elem ++ [0]) := by
  obtain ⟨c, tl, rfl⟩ := List.exists_cons_of_ne_nil hne
  have hc := hb c List.mem_cons_self
  have hdrop : (c :: tl).dropWhile (· == '/'.toUInt8) = c :: tl := by
    rw [List.dropWhile_cons_of_neg]
    simp only [beq_iff_eq, hc.1, not_false_eq_true]
  -- every byte belongs to the element
  have htake : ((c :: tl).takeWhile fun b => b != '/'.toUInt8 && b != 0) = c :: tl := by
    rw [List.takeWhile_eq_self_iff]
    intro b hmem
    simp only [bne_iff_ne, ne_eq, Bool.and_eq_true, (hb b hmem).1, (hb b hmem).2, not_false_eq_true, and_self]
  unfold skipelem
  rw [hdrop]
  simp only [if_neg hc.2, htake, List.drop_length, List.dropWhile_nil]

/-- The loop of `namex(path, 0, name)` from the inode `ip`: `.ok none` where `namex`
returns `0`, and `.error` where `ilock` or `dirlookup` panics. -/
def namexLoop (d : Disk) (ip : Nat) (path : List UInt8) : Except String (Option Nat) :=
  -- the equation is read only by the termination proof
  match _h : skipelem path with
  | none => pure (some ip)
  | some (rest, name) =>
    -- `ilock` reads the dinode, and panics on a free one
    if (dinodeAt d ip).type = 0 then throw "ilock: no type"
    else if (dinodeAt d ip).type ≠ T_DIR then pure none
    else do
      match ← dirlookup d (dinodeAt d ip) name with
      | none => pure none
      | some next => namexLoop d next rest
termination_by path.length
decreasing_by exact skipelem_length_lt _h

/-- `namei(path)`: from the root for a path that starts with `/`, else from the current
directory `cwd`. -/
def namei (d : Disk) (cwd : Nat) (path : List UInt8) : Except String (Option Nat) :=
  namexLoop d (if path.head? = some '/'.toUInt8 then ROOTINO else cwd) path

end Xv6
