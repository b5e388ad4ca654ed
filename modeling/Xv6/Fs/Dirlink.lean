import Mathlib
import Xv6.Fs.Mkfs
import Xv6.Fs.Namei
import Xv6.Fs.ReadWrite

/-!
# `dirlink`

`dirlink(dp, name, inum)` of `fs.c` on a locked directory at rest, as `namei` sees it: it
returns `-1` when `dirlookup` finds `name`; otherwise it reads the entries from offset `0`
in steps of `sizeof(de)` while below `dp->size`, stops at the first free one, and
`writei`s there, or at the end, a `struct dirent` holding `inum` and the name that
`strncpy(de.name, name, DIRSIZ)` copies. A `readi` or `writei` that moves fewer bytes
than a `dirent` panics.

`dirlookup` reads whole blocks, up to the block that holds `dp->size`, and returns the
first entry in use that `namecmp` finds equal. A directory is read here as the list of its
16-byte entries, entry `e` at byte `16 * e` of its data; `dirlookup` is the search of that
list up to the end of the last block.
-/

namespace Xv6

/-- `sizeof(struct dirent)` -/
def DIRENT_SIZE : Nat := 16

/-- `strncpy(s, t, n)` of `string.c`: the `n` bytes it writes, `t` up to its NUL (a `0`
past its end) and then `0`s. -/
def strncpy : Nat → List UInt8 → List UInt8
  | 0, _ => []
  | n + 1, t => if t.headD 0 = 0 then List.replicate (n + 1) 0 else t.headD 0 :: strncpy n t.tail

/-- The `struct dirent` `dirlink` writes: `de.inum = inum`, a `ushort`, then the name. -/
def direntBytes (inum : Nat) (name : List UInt8) : List UInt8 :=
  [(inum % 256).toUInt8, (inum / 256 % 256).toUInt8] ++ strncpy DIRSIZ name

/-- The loop of `dirlink` that looks for a free entry from `off`: where it stops. -/
def direntScan (devsw : Nat → Devsw) (d : Disk) (ip : Inode) (off : Nat) : Except String Nat :=
  if h : off < ip.size.toNat then
    have := Nat.sub_lt_sub_left h (Nat.lt_add_of_pos_right (Nat.succ_pos 15 : 0 < DIRENT_SIZE))
    match readi devsw d ip off.toUInt32 DIRENT_SIZE.toUInt32 with
    | .error e => .error e
    | .ok (_, _, r, de) =>
      if r ≠ DIRENT_SIZE.toInt32 then .error "dirlink read"
      else if (Bytes.getU16 (fun k => de.getD k 0) 0).toNat = 0 then .ok off
      else direntScan devsw d ip (off + DIRENT_SIZE)
  else .ok off
termination_by ip.size.toNat - off
decreasing_by exact this

/-- `dirlink(dp, name, inum)` on the directory `dp`: the disk after it and the value
returned. The inode `dirlookup` finds is released with `iput` at once. -/
def dirlink (devsw : Nat → Devsw) (d : Disk) (dp : Nat) (name : List UInt8) (inum : Nat) :
    Except String (Disk × Int) := do
  match ← dirlookup d (dinodeAt d dp) name with
  | some _ => pure (d, -1)
  | none =>
    let off ← direntScan devsw d (Inode.load d dp) 0
    let de := direntBytes inum name
    let (d', _, r) ← writei devsw d (Inode.load d dp) (fun k => de.getD k 0) off.toUInt32
      DIRENT_SIZE.toUInt32
    if r ≠ DIRENT_SIZE.toInt32 then throw "dirlink" else pure (d', 0)

/-! ## Entries -/

theorem length_strncpy : ∀ (n : Nat) (t : List UInt8), (strncpy n t).length = n
  | 0, _ => rfl
  | n + 1, t => by
    unfold strncpy
    split_ifs
    · exact List.length_replicate
    · rw [List.length_cons, length_strncpy n t.tail]

theorem length_direntBytes (inum : Nat) (name : List UInt8) :
    (direntBytes inum name).length = DIRENT_SIZE := by
  rw [direntBytes, List.length_append, length_strncpy]
  rfl

/-- `strncmp` finds a name equal to what `strncpy` copies of it. -/
theorem strncmp_strncpy : ∀ (n : Nat) (t : List UInt8), strncmp n t (strncpy n t) = 0
  | 0, _ => rfl
  | n + 1, t => by
    unfold strncpy
    by_cases h : t.headD 0 = 0
    · -- at the NUL both read `0`
      rw [if_pos h, strncmp, if_neg fun h' => h'.1 h, h, List.replicate_succ, List.headD_cons]
      rfl
    · rw [if_neg h, strncmp, if_pos ⟨h, rfl⟩, List.tail_cons]
      exact strncmp_strncpy n t.tail

/-- `dirlookup`'s test of one entry. -/
def direntMatch (name : List UInt8) (de : Nat × List UInt8) : Option Nat :=
  if de.1 = 0 then none else if namecmp name de.2 = 0 then some de.1 else none

/-- Entry `e` of an inode's data. -/
def entryAt (d : Disk) (di : Dinode) (e : Nat) : Nat × List UInt8 :=
  direntAt (dataAt d di) (DIRENT_SIZE * e)

/-- An entry is read from its sixteen bytes. -/
theorem direntAt_congr {m m' : Nat → UInt8} {a a' : Nat}
    (h : ∀ k < DIRENT_SIZE, m (a + k) = m' (a' + k)) : direntAt m a = direntAt m' a' := by
  have h0 := h 0 (by decide)
  have h1 := h 1 (by decide)
  rw [Nat.add_zero, Nat.add_zero] at h0
  unfold direntAt Bytes.getU16
  rw [h0, h1]
  congr 1
  apply List.ext_getElem (by simp)
  intro i hi _
  rw [Bytes.length_readBytes] at hi
  rw [Bytes.getElem_readBytes, Bytes.getElem_readBytes, Nat.add_assoc, Nat.add_assoc]
  exact h (2 + i) (by simp only [DIRSIZ] at hi; simp only [DIRENT_SIZE]; omega)

/-- Entry `j` of block `bn` of a directory is its entry `32 * bn + j`. -/
theorem direntAt_block (d : Disk) (di : Dinode) (bn : Nat) {j : Nat} (hj : j < BSIZE / 16) :
    direntAt (d (blockAddr d di bn)) (16 * j) = entryAt d di (BSIZE / 16 * bn + j) := by
  refine direntAt_congr fun k hk => ?_
  simp only [BSIZE, DIRENT_SIZE] at hj hk ⊢
  rw [dataAt, show (16 * (32 * bn + j) + k) / BSIZE = bn by simp only [BSIZE]; omega,
    show (16 * (32 * bn + j) + k) % BSIZE = 16 * j + k by simp only [BSIZE]; omega]

theorem findSome_congr {α β : Type} {l : List α} {f g : α → Option β}
    (h : ∀ x ∈ l, f x = g x) : l.findSome? f = l.findSome? g := by
  induction l with
  | nil => rfl
  | cons a l ih =>
    rw [List.findSome?_cons, List.findSome?_cons, h a List.mem_cons_self,
      ih fun x hx => h x (List.mem_cons_of_mem a hx)]

theorem lookupBlock_eq (b : Block) (name : List UInt8) :
    lookupBlock b name =
      (List.range (BSIZE / 16)).findSome? fun j => direntMatch name (direntAt b (16 * j)) :=
  rfl

/-- `dirlookup`'s two loops, over the blocks and the entries of each, search the entries. -/
theorem findSome_blocks (d : Disk) (di : Dinode) (name : List UInt8) : ∀ n : Nat,
    (List.range n).findSome? (fun bn => lookupBlock (d (blockAddr d di bn)) name) =
      (List.range (BSIZE / 16 * n)).findSome? fun e => direntMatch name (entryAt d di e)
  | 0 => rfl
  | n + 1 => by
    rw [List.range_succ, List.findSome?_append, findSome_blocks d di name n, Nat.mul_succ,
      List.range_add, List.findSome?_append, List.findSome?_map, List.findSome?_singleton,
      lookupBlock_eq]
    congr 1
    refine findSome_congr fun j hj => ?_
    rw [Function.comp_apply, direntAt_block d di n (List.mem_range.mp hj)]

/-- On a directory, `dirlookup` searches its entries up to the end of its last block. -/
theorem dirlookup_entries (d : Disk) {di : Dinode} (hdir : di.type = T_DIR) (name : List UInt8) :
    dirlookup d di name = .ok ((List.range (BSIZE / 16 * nblocks di.size)).findSome? fun e =>
      direntMatch name (entryAt d di e)) := by
  rw [dirlookup, if_neg (not_not.mpr hdir), ← findSome_blocks]
  rfl

/-- A search of `0, ..., n - 1` returns the first hit. -/
theorem findSome_range_of_first {β : Type} {f : Nat → Option β} {e n : Nat} {v : β} (hlt : e < n)
    (hpre : ∀ x < e, f x = none) (he : f e = some v) : (List.range n).findSome? f = some v := by
  obtain ⟨m, rfl⟩ : ∃ m, n = e + (m + 1) := ⟨n - e - 1, by omega⟩
  have hnone : (List.range e).findSome? f = none :=
    List.findSome?_eq_none_iff.mpr fun x hx => hpre x (List.mem_range.mp hx)
  rw [List.range_add, List.findSome?_append, hnone, Option.none_or, List.findSome?_map,
    List.range_succ_eq_map, List.findSome?_cons, Function.comp_apply, Nat.add_zero, he]

/-- The entry `dirlink` writes. -/
theorem direntAt_direntBytes {inum : Nat} (h : inum < 2 ^ 16) (name : List UInt8) :
    direntAt (fun k => (direntBytes inum name).getD k 0) 0 = (inum, strncpy DIRSIZ name) := by
  unfold direntAt
  congr 1
  · simp only [Bytes.getU16, direntBytes, List.getD_eq_getElem?_getD, List.cons_append,
      List.getElem?_cons_zero, List.getElem?_cons_succ, Option.getD_some, Nat.zero_add,
      Nat.toUInt8, UInt16.toNat_ofNat', UInt8.toNat_ofNat']
    omega
  · apply List.ext_getElem (by rw [Bytes.length_readBytes, length_strncpy])
    intro k hk _
    rw [Bytes.getElem_readBytes, direntBytes, List.getD_append_right _ _ _ _ (by simp),
      List.getD_eq_getElem _ _ (by rw [length_strncpy]; simpa using hk)]
    simp

/-- The byte at `k` below the size, read through `contents`. -/
theorem getElem?_contents (d : Disk) (di : Dinode) {k : Nat} (hk : k < di.size.toNat) :
    (contents d di)[k]? = some (dataAt d di k) := by
  rw [contents, List.getElem?_map, List.getElem?_range hk]
  rfl

section Post

variable {d d' : Disk} {i : Nat} {src : Nat → UInt8} {off m : Nat} {ip' : Inode}

/-- A write keeps the data below its offset. -/
theorem WriteiPost.dataAt_below (hp : WriteiPost d i src off m d' ip')
    (hoff : off ≤ (dinodeAt d i).size.toNat) {k : Nat} (hk : k < off) :
    dataAt d' (dinodeAt d' i) k = dataAt d (dinodeAt d i) k := by
  have hk' : k < ip'.size.toNat := by rw [hp.size]; omega
  have h := congrArg (·[k]?) hp.data
  rw [getElem?_contents d' _ hk', List.append_assoc, List.getElem?_append_left (by simp [contents]; omega),
    List.getElem?_take_of_lt hk, getElem?_contents d _ (by omega)] at h
  rw [hp.dinode]
  exact Option.some.inj h

/-- A write puts its bytes at its offset. -/
theorem WriteiPost.dataAt_span (hp : WriteiPost d i src off m d' ip')
    (hoff : off ≤ (dinodeAt d i).size.toNat) {k : Nat} (hk : k < m) :
    dataAt d' (dinodeAt d' i) (off + k) = src k := by
  have hk' : off + k < ip'.size.toNat := by rw [hp.size]; omega
  have hlen : ((contents d (dinodeAt d i)).take off).length = off := by simp [contents]; omega
  have h := congrArg (·[off + k]?) hp.data
  rw [getElem?_contents d' _ hk', List.append_assoc, List.getElem?_append_right (by omega), hlen,
    Nat.add_sub_cancel_left, List.getElem?_append_left (by simpa using hk), List.getElem?_map,
    List.getElem?_range hk] at h
  rw [hp.dinode]
  exact Option.some.inj h

/-- A write keeps the data past its end, below the old size. -/
theorem WriteiPost.dataAt_above (hp : WriteiPost d i src off m d' ip')
    (hoff : off ≤ (dinodeAt d i).size.toNat) {k : Nat} (hk : off + m ≤ k)
    (hks : k < (dinodeAt d i).size.toNat) :
    dataAt d' (dinodeAt d' i) k = dataAt d (dinodeAt d i) k := by
  have hk' : k < ip'.size.toNat := by rw [hp.size]; omega
  have hlen : ((contents d (dinodeAt d i)).take off ++ (List.range m).map src).length = off + m := by
    simp [contents]; omega
  have h := congrArg (·[k]?) hp.data
  rw [getElem?_contents d' _ hk', List.getElem?_append_right (by omega), hlen, List.getElem?_drop,
    Nat.add_sub_cancel' hk, getElem?_contents d _ hks] at h
  rw [hp.dinode]
  exact Option.some.inj h

end Post

/-! ## The scan for a free entry -/

/-- Byte `k` of the sixteen bytes `readi` returns at `off`. -/
theorem getD_entry_bytes (d : Disk) (di : Dinode) {off k : Nat}
    (hoff : off + DIRENT_SIZE ≤ di.size.toNat) (hk : k < DIRENT_SIZE) :
    (((contents d di).drop off).take DIRENT_SIZE).getD k 0 = dataAt d di (off + k) := by
  rw [List.getD_eq_getElem?_getD, List.getElem?_take_of_lt hk, List.getElem?_drop,
    getElem?_contents d di (by omega), Option.getD_some]

theorem Inode.size_load (d : Disk) (i : Nat) : (Inode.load d i).size = (dinodeAt d i).size := rfl

section Scan

variable (devsw : Nat → Devsw) {d : Disk} (hinv : FsInv d) {i : Nat}
  (hi : Live (readsb d) (dinodeAt d) i) (hdev : (dinodeAt d i).type ≠ T_DEV)

include hinv hi hdev in
/-- `readi` of an entry inside the directory returns its sixteen bytes. -/
theorem readi_entry {off : Nat} (hoff : off + DIRENT_SIZE ≤ (dinodeAt d i).size.toNat) :
    readi devsw d (Inode.load d i) off.toUInt32 DIRENT_SIZE.toUInt32 =
      .ok (d, Inode.load d i, DIRENT_SIZE.toInt32,
        ((contents d (dinodeAt d i)).drop off).take DIRENT_SIZE) := by
  have hlt := UInt32.toNat_lt (dinodeAt d i).size
  have hoffn : off.toUInt32.toNat = off := Word32.toNat_toUInt32_of_lt (by omega)
  have hn : DIRENT_SIZE.toUInt32.toNat = DIRENT_SIZE := rfl
  have hmin : min DIRENT_SIZE.toUInt32.toNat ((dinodeAt d i).size.toNat - off.toUInt32.toNat) =
      DIRENT_SIZE := by
    rw [hoffn, hn]
    omega
  obtain ⟨r, hr, hrn⟩ := (readi_spec devsw hinv hi hdev off.toUInt32 DIRENT_SIZE.toUInt32).2
    (by rw [hoffn, hn]; simp only [DIRENT_SIZE] at hoff ⊢; omega)
  rw [hmin] at hr hrn
  have hr16 : r = DIRENT_SIZE.toInt32 := Int32.toInt_inj.mp hrn
  rw [hr, hoffn, hr16]

include hinv hi hdev in
/-- One turn of the scan, at an entry inside the directory: it stops there if the entry
is free. -/
theorem direntScan_entry {e : Nat}
    (he : DIRENT_SIZE * e + DIRENT_SIZE ≤ (dinodeAt d i).size.toNat) :
    direntScan devsw d (Inode.load d i) (DIRENT_SIZE * e) =
      if (entryAt d (dinodeAt d i) e).1 = 0 then .ok (DIRENT_SIZE * e)
      else direntScan devsw d (Inode.load d i) (DIRENT_SIZE * (e + 1)) := by
  have hbytes : direntAt (fun k => (((contents d (dinodeAt d i)).drop (DIRENT_SIZE * e)).take
      DIRENT_SIZE).getD k 0) 0 = entryAt d (dinodeAt d i) e :=
    direntAt_congr fun k hk => by rw [Nat.zero_add, getD_entry_bytes d _ he hk]
  rw [direntScan, dif_pos (show DIRENT_SIZE * e < (Inode.load d i).size.toNat by
    rw [Inode.size_load]; simp only [DIRENT_SIZE] at he ⊢; omega), readi_entry devsw hinv hi hdev he]
  simp only [ne_eq, not_true_eq_false, if_false]
  rw [← hbytes, Nat.mul_succ]
  rfl

include hinv hi hdev in
/-- From entry `e` of a directory of `e + n` entries, the scan stops at the first free
entry, or at the end. -/
theorem direntScan_ok : ∀ (n e : Nat), DIRENT_SIZE * (e + n) = (dinodeAt d i).size.toNat →
    ∃ e', direntScan devsw d (Inode.load d i) (DIRENT_SIZE * e) = .ok (DIRENT_SIZE * e') ∧
      e' ≤ e + n ∧ (e' < e + n → (entryAt d (dinodeAt d i) e').1 = 0) ∧
      ∀ x, e ≤ x → x < e' → (entryAt d (dinodeAt d i) x).1 ≠ 0
  | 0, e, h => by
    refine ⟨e, ?_, Nat.le_add_right e 0, fun hlt => absurd hlt (Nat.lt_irrefl e),
      fun x h1 h2 => absurd h2 (by omega)⟩
    rw [direntScan, dif_neg (show ¬ DIRENT_SIZE * e < (Inode.load d i).size.toNat by
      rw [Inode.size_load, ← h, Nat.add_zero]; exact Nat.lt_irrefl _)]
  | n + 1, e, h => by
    rw [direntScan_entry devsw hinv hi hdev (by rw [← h]; simp only [DIRENT_SIZE]; omega)]
    by_cases hfree : (entryAt d (dinodeAt d i) e).1 = 0
    · exact ⟨e, by rw [if_pos hfree], by omega, fun _ => hfree, fun x h1 h2 => absurd h2 (by omega)⟩
    · obtain ⟨e', hs, hle, he', hused⟩ := direntScan_ok n (e + 1) (by rw [← h]; ring)
      refine ⟨e', by rw [if_neg hfree, hs], by omega, fun hlt => he' (by omega), fun x h1 h2 => ?_⟩
      -- the entry at `e` is in use, and the rest of the scan passed the others
      rcases h1.lt_or_eq with hlt | rfl
      · exact hused x hlt h2
      · exact hfree

end Scan

/-! ## `dirlink` -/

theorem dirlink_found (devsw : Nat → Devsw) {d : Disk} {dp : Nat} {name : List UInt8}
    {inum x : Nat} (h : dirlookup d (dinodeAt d dp) name = .ok (some x)) :
    dirlink devsw d dp name inum = .ok (d, -1) := by
  rw [dirlink, h]
  rfl

theorem dirlink_free (devsw : Nat → Devsw) {d : Disk} {dp : Nat} {name : List UInt8}
    {inum off : Nat} (hl : dirlookup d (dinodeAt d dp) name = .ok none)
    (hs : direntScan devsw d (Inode.load d dp) 0 = .ok off) :
    dirlink devsw d dp name inum =
      (writei devsw d (Inode.load d dp) (fun k => (direntBytes inum name).getD k 0) off.toUInt32
        DIRENT_SIZE.toUInt32).bind
        fun x => if x.2.2 ≠ DIRENT_SIZE.toInt32 then .error "dirlink" else .ok (x.1, 0) := by
  rw [dirlink, hl]
  simp only [bind, Except.bind, hs]
  rfl

/-- What a `dirlink` that adds `name` leaves: `dirlookup` had not found it, and now finds
it naming `inum`; every entry in use inside the directory is where it was; every other
live inode is untouched. -/
structure Linked (d : Disk) (dp : Nat) (name : List UInt8) (inum : Nat) (d' : Disk) : Prop where
  fresh : dirlookup d (dinodeAt d dp) name = .ok none
  inv : FsInv d'
  found : dirlookup d' (dinodeAt d' dp) name = .ok (some inum)
  kept : ∀ e, DIRENT_SIZE * e + DIRENT_SIZE ≤ (dinodeAt d dp).size.toNat →
    (entryAt d (dinodeAt d dp) e).1 ≠ 0 → entryAt d' (dinodeAt d' dp) e = entryAt d (dinodeAt d dp) e
  others : ∀ j, j ≠ dp → Live (readsb d) (dinodeAt d) j →
    dinodeAt d' j = dinodeAt d j ∧ contents d' (dinodeAt d' j) = contents d (dinodeAt d j)

/-- The write at the entry the scan found links the name. -/
theorem linked_of_writei {d d' : Disk} {dp inum e N : Nat} {name : List UInt8} {ip' : Inode}
    (hdir : (dinodeAt d dp).type = T_DIR) (hN : DIRENT_SIZE * N = (dinodeAt d dp).size.toNat)
    (he : e ≤ N) (hfree : e < N → (entryAt d (dinodeAt d dp) e).1 = 0)
    (hnone : dirlookup d (dinodeAt d dp) name = .ok none) (h0 : 0 < inum) (h16 : inum < 2 ^ 16)
    (hp : WriteiPost d dp (fun k => (direntBytes inum name).getD k 0) (DIRENT_SIZE * e)
      DIRENT_SIZE d' ip') :
    Linked d dp name inum d' := by
  have hoff : DIRENT_SIZE * e ≤ (dinodeAt d dp).size.toNat := by
    rw [← hN]
    exact Nat.mul_le_mul_left _ he
  have hdir' : (dinodeAt d' dp).type = T_DIR := by rw [hp.dinode, hp.fields]; exact hdir
  have hsize' : (dinodeAt d' dp).size.toNat =
      max (dinodeAt d dp).size.toNat (DIRENT_SIZE * e + DIRENT_SIZE) := by
    rw [hp.dinode]
    exact hp.size
  have hnew : entryAt d' (dinodeAt d' dp) e = (inum, strncpy DIRSIZ name) := by
    rw [← direntAt_direntBytes h16 name]
    exact direntAt_congr fun k hk => by rw [Nat.zero_add]; exact hp.dataAt_span hoff hk
  have hbelow : ∀ x < e, entryAt d' (dinodeAt d' dp) x = entryAt d (dinodeAt d dp) x :=
    fun x hx => direntAt_congr fun k hk =>
      hp.dataAt_below hoff (by simp only [DIRENT_SIZE] at hk ⊢; omega)
  -- before the write no entry of the search matched
  have hmiss : ∀ x < e, direntMatch name (entryAt d (dinodeAt d dp) x) = none := by
    intro x hx
    rw [dirlookup_entries d hdir name, Except.ok.injEq] at hnone
    refine List.findSome?_eq_none_iff.mp hnone x (List.mem_range.mpr ?_)
    simp only [nblocks, BSIZE, DIRENT_SIZE] at hN ⊢
    omega
  refine ⟨hnone, hp.inv, ?_, ?_, ?_⟩
  · rw [dirlookup_entries d' hdir' name]
    congr 1
    refine findSome_range_of_first (show e < BSIZE / 16 * nblocks (dinodeAt d' dp).size by
      simp only [nblocks, BSIZE, DIRENT_SIZE] at hsize' ⊢; omega) (fun x hx => ?_) ?_
    · rw [hbelow x hx]
      exact hmiss x hx
    · rw [hnew, direntMatch, if_neg (Nat.pos_iff_ne_zero.mp h0), namecmp, strncmp_strncpy,
        if_pos rfl]
  · intro x hx hused
    rcases lt_trichotomy x e with hlt | rfl | hgt
    · exact hbelow x hlt
    · exact absurd (hfree (by simp only [DIRENT_SIZE] at hN hx; omega)) hused
    · exact direntAt_congr fun k hk =>
        hp.dataAt_above hoff (by simp only [DIRENT_SIZE] at hk ⊢; omega) (by omega)
  · intro j hj hl
    have hj' := hp.others j hj hl.2.1
    exact ⟨hj', by rw [hj']; exact hp.other j hj hl⟩

end Xv6
