import Xv6.Fs.Mkfs
import Xv6.Fs.Namei

/-!
# `mkfs` with files

`mkfs.c`'s `main` on a list of input files: it zeroes the image, writes the super block,
allocates the root directory with `.` and `..`, and for each file allocates an inode,
appends a `dirent` for it to the root directory and appends the file's bytes, one
`read` of at most 512 bytes at a time. It then rounds the root directory's size up with
`off = ((off/BSIZE) + 1) * BSIZE` and marks the first `usedblocks` blocks in the bitmap.

The image file is a `Disk`; `xint` and `xshort` are the identity on the little-endian
machines `mkfs` runs on, and `Dinode.encode` stores the fields in that order. An
`assert` that fails, or `exit(1)`, is an `.error`.

The rounding adds a whole block whenever the entries already end on a block boundary.
With thirty files the root directory's 32 entries fill its first block exactly; the size
becomes 1024 while only the first block is allocated, and the kernel's invariant fails
on the image. A name is cut to 13 bytes and a NUL, so two names that differ only in
their fourteenth byte become entries that `namecmp` finds equal (`mkfs_breaks_image`).
-/

namespace Xv6

namespace Mkfs

/-- The globals `nblocks`, `ninodes` and `size` of `mkfs.c`. -/
def nblocks : Nat := 995
def ninodes : Nat := 200
def size : Nat := 1024

/-- The image and the globals `freeblock`, `usedblocks` and `freeinode`. -/
structure St where
  disk : Disk
  freeblock : Nat
  usedblocks : Nat
  freeinode : Nat

def wsect (s : St) (sec : Nat) (buf : Block) : St := { s with disk := Function.update s.disk sec buf }

def rsect (s : St) (sec : Nat) : Block := s.disk sec

def i2b (inum : Nat) : Nat := inum / IPB + 2

/-- `winode(inum, ip)`: the dinode stored at `(struct dinode*)buf + inum % IPB`. -/
def winode (s : St) (inum : Nat) (din : Dinode) : St :=
  wsect s (i2b inum) (Dinode.encode (rsect s (i2b inum)) (dinodeOff inum) din)

def rinode (s : St) (inum : Nat) : Dinode := Dinode.decode (rsect s (i2b inum)) (dinodeOff inum)

/-- `ialloc(type)`: a zeroed dinode with the type and one link. -/
def ialloc (s : St) (type : Int16) : St × Nat :=
  let inum := s.freeinode
  let s := { s with freeinode := s.freeinode + 1 }
  (winode s inum ⟨type, 0, 0, 1, 0, fun _ => 0⟩, inum)

/-- `balloc(used)`: the bitmap block with the first `used` bits set. -/
def balloc (s : St) (used : Nat) : Except String St :=
  if used < 512 * 8 then pure (wsect s (ninodes / IPB + 3) ((List.range used).foldl Bitmap.setBit fun _ => 0))
  else throw "assert used < 512*8"

/-- The block `bcopy` writes for file block `fbn` of `din`, allocating it, and for
`fbn ≥ NDIRECT` the indirect block, from `freeblock` when it is `0`. -/
def iappendBlock (s : St) (din : Dinode) (fbn : Nat) : St × Dinode × Nat :=
  if h : fbn < NDIRECT then
    let k : Fin (NDIRECT + 1) := ⟨fbn, Nat.lt_succ_of_lt h⟩
    let (s, din) :=
      if din.addrs k = 0 then
        ({ s with freeblock := s.freeblock + 1, usedblocks := s.usedblocks + 1 },
          { din with addrs := Function.update din.addrs k s.freeblock.toUInt32 })
      else (s, din)
    (s, din, (din.addrs k).toNat)
  else
    let (s, din) :=
      if din.addrs INDIRECT = 0 then
        ({ s with freeblock := s.freeblock + 1, usedblocks := s.usedblocks + 1 },
          { din with addrs := Function.update din.addrs INDIRECT s.freeblock.toUInt32 })
      else (s, din)
    let ind := rsect s (din.addrs INDIRECT).toNat
    let (s, ind) :=
      if Bytes.getU32 ind (4 * (fbn - NDIRECT)) = 0 then
        let ind := Bytes.setU32 ind (4 * (fbn - NDIRECT)) s.freeblock.toUInt32
        let s := { s with freeblock := s.freeblock + 1, usedblocks := s.usedblocks + 1 }
        (wsect s (din.addrs INDIRECT).toNat ind, ind)
      else (s, ind)
    (s, din, (Bytes.getU32 ind (4 * (fbn - NDIRECT))).toNat)

/-- The `while(n > 0)` loop of `iappend`, with at most `fuel` passes, from byte `off` of
the file and with `p` the bytes still to write. -/
def iappendLoop : Nat → St → Dinode → Nat → List UInt8 → Except String (St × Dinode × Nat)
  | 0, s, din, off, _ => pure (s, din, off)
  | fuel + 1, s, din, off, p =>
    if p = [] then pure (s, din, off)
    else
      let fbn := off / 512
      if fbn ≥ MAXFILE then throw "assert fbn < MAXFILE"
      else
        let (s, din, x) := iappendBlock s din fbn
        let n1 := min p.length ((fbn + 1) * 512 - off)
        let s := wsect s x (Bytes.writeBytes (rsect s x) (off - fbn * 512) (p.take n1))
        iappendLoop fuel s din (off + n1) (p.drop n1)

/-- `iappend(inum, p, n)`; each pass writes at least one byte, so `n` passes are enough. -/
def iappend (s : St) (inum : Nat) (p : List UInt8) : Except String St := do
  let din := rinode s inum
  let (s, din, off) ← iappendLoop p.length s din din.size.toNat p
  pure (winode s inum { din with size := off.toUInt32 })

/-- The `struct dirent` `main` appends: `de.inum`, then `strncpy(de.name, name, DIRSIZ)`
and `de.name[DIRSIZ-1] = '\0'`. -/
def dirent (inum : Nat) (name : List UInt8) : List UInt8 :=
  [(inum % 256).toUInt8, (inum / 256 % 256).toUInt8] ++
    (name.take DIRSIZ ++ List.replicate (DIRSIZ - min name.length DIRSIZ) 0).set (DIRSIZ - 1) 0

/-- `while((cc = read(fd, buf, sizeof(buf))) > 0) iappend(inum, buf, cc);` on a file whose
unread bytes are `rest`, each `read` returning up to 512 of them. -/
def appendFile (inum : Nat) : Nat → St → List UInt8 → Except String St
  | 0, s, _ => pure s
  | fuel + 1, s, rest =>
    if rest = [] then pure s
    else do
      let s ← iappend s inum (rest.take 512)
      appendFile inum fuel s (rest.drop 512)

/-- One pass of `main`'s loop over `argv`, for a file named `name` holding `contents`. -/
def addFile (rootino : Nat) (s : St) (name contents : List UInt8) : Except String St := do
  if '/'.toUInt8 ∈ name then throw "assert index(argv[i], '/') == 0"
  -- skip a leading `_`
  let name := if name.head? = some '_'.toUInt8 then name.tail else name
  let (s, inum) := ialloc s T_FILE
  let s ← iappend s rootino (dirent inum name)
  appendFile inum contents.length s contents

/-- The super block `main` writes to sector 1. -/
def sbBlock : Block :=
  Bytes.setU32 (Bytes.setU32 (Bytes.setU32 (fun _ => 0) 0 size.toUInt32) 4 nblocks.toUInt32) 8
    ninodes.toUInt32

/-- `main(argc, argv)` with the files `argv[2..]`: their names and contents. -/
def main (files : List (List UInt8 × List UInt8)) : Except String Disk := do
  let bitblocks := size / (512 * 8) + 1
  let usedblocks := ninodes / IPB + 3 + bitblocks
  if nblocks + usedblocks ≠ size then throw "assert nblocks + usedblocks == size"
  -- every sector zeroed, then the super block
  let s : St := ⟨Function.update (fun _ _ => 0) 1 sbBlock, usedblocks, usedblocks, 1⟩
  let (s, rootino) := ialloc s T_DIR
  if rootino ≠ ROOTINO then throw "assert rootino == ROOTINO"
  let s ← iappend s rootino (dirent rootino ['.'.toUInt8])
  let s ← iappend s rootino (dirent rootino ['.'.toUInt8, '.'.toUInt8])
  let s ← files.foldlM (fun s f => addFile rootino s f.1 f.2) s
  -- fix size of root inode dir
  let din := rinode s rootino
  let off := (din.size.toNat / BSIZE + 1) * BSIZE
  let s := winode s rootino { din with size := off.toUInt32 }
  let s ← balloc s s.usedblocks
  pure s.disk

/-! ## Names -/

/-- The name `main` stores is cut to `DIRSIZ - 1` bytes: only they reach the entry. -/
theorem dirent_take (inum : Nat) (name : List UInt8) :
    dirent inum name = dirent inum (name.take (DIRSIZ - 1)) := by
  unfold dirent
  congr 1
  apply List.ext_getElem
  · simp only [List.length_set, List.length_append, List.length_take, List.length_replicate]
    simp only [DIRSIZ]
    omega
  · intro i h1 h2
    simp only [List.getElem_set, List.getElem_append, List.getElem_take, List.getElem_replicate,
      List.length_take, List.take_take]
    -- byte `DIRSIZ - 1` is the NUL on both sides; below it both read the name or its padding
    split_ifs with hlast hleft hright hright
    · rfl
    · rfl
    · simp only [DIRSIZ] at hlast hleft hright
      omega
    · simp only [DIRSIZ] at hlast hleft hright
      omega
    · rfl

/-- Two names that agree on their first `DIRSIZ - 1` bytes make entries whose names
`namecmp` finds equal. -/
theorem namecmp_dirent {a b : List UInt8} (inum inum' : Nat) (h : a.take (DIRSIZ - 1) = b.take (DIRSIZ - 1)) :
    namecmp ((dirent inum a).drop 2) ((dirent inum' b).drop 2) = 0 := by
  rw [dirent_take inum a, dirent_take inum' b, h]
  unfold dirent
  simp only [List.cons_append, List.nil_append, List.drop_succ_cons, List.drop_zero]
  exact strncmp_self DIRSIZ _

/-- A name of `DIRSIZ` bytes or more is not found through the entry `main` stores for it:
`namei` compares all `DIRSIZ` bytes of the name, and its last one with the entry's NUL. -/
theorem namecmp_long_name (inum : Nat) {elem : List UInt8} (hlen : DIRSIZ ≤ elem.length)
    (hb : ∀ c ∈ elem, c ≠ '/'.toUInt8 ∧ c ≠ 0) :
    ∃ name, skipelem elem = some ([], name) ∧ namecmp name ((dirent inum elem).drop 2) ≠ 0 := by
  obtain ⟨a, x, rest, rfl, ha⟩ : ∃ a x rest, elem = a ++ x :: rest ∧ a.length = DIRSIZ - 1 := by
    cases hd : elem.drop (DIRSIZ - 1) with
    | nil =>
      rw [List.drop_eq_nil_iff] at hd
      simp only [DIRSIZ] at hd hlen
      omega
    | cons x rest =>
      refine ⟨elem.take (DIRSIZ - 1), x, rest, by rw [← hd, List.take_append_drop], ?_⟩
      simp only [List.length_take]
      simp only [DIRSIZ] at hlen ⊢
      omega
  have hne : a ++ x :: rest ≠ [] := by simp
  have hx : x ≠ 0 := (hb x (by simp)).2
  have ha0 : ∀ c ∈ a, c ≠ 0 := fun c hc => (hb c (List.mem_append_left _ hc)).2
  -- the name `skipelem` copies is `a ++ [x]`, the entry's is `a ++ [0]`
  have hname : (a ++ x :: rest).take DIRSIZ = a ++ [x] := by
    rw [List.take_append, List.take_of_length_le (by omega), ha]
    simp [DIRSIZ]
  have hent : (dirent inum (a ++ x :: rest)).drop 2 = a ++ [0] := by
    rw [dirent_take, List.take_left' ha]
    unfold dirent
    simp only [List.cons_append, List.nil_append, List.drop_succ_cons, List.drop_zero,
      List.take_of_length_le (show a.length ≤ DIRSIZ by omega), ha]
    rw [List.set_append_right _ _ (by omega)]
    simp [DIRSIZ, ha]
  refine ⟨a ++ [x], ?_, ?_⟩
  · rw [skipelem_elem hne hb, if_pos hlen, hname]
  · rw [hent, namecmp, strncmp_append ha0 _ _ _ (by simp only [DIRSIZ] at ha ⊢; omega), ha]
    simp only [DIRSIZ, strncmp, List.headD_cons, ne_eq, hx, not_false_eq_true, true_and]
    have hx' : x.toNat ≠ 0 := fun h => hx (UInt8.toNat_inj.mp h)
    simp [hx']

/-! ## A root directory that ends on a block boundary -/

/-- A disk the kernel's invariant holds on has every direct block of a live inode below
its size. -/
theorem direct_ne_zero_of_fsInv {d : Disk} (h : FsInv d) {i : Nat} (hi : Live (readsb d) (dinodeAt d) i)
    (k : Fin NDIRECT) (hk : k.val < Xv6.nblocks (dinodeAt d i).size) : (dinodeAt d i).addrs k.castSucc ≠ 0 := by
  have hs := (h.shape i hi).inUse (.direct k)
  intro h0
  apply hs.mpr hk
  simp only [slotAddr, h0, UInt32.toNat_zero]

/-- A property of the image a run of the model returns, checked by evaluating the run once. -/
theorem exists_ok_of_probe {ε α : Type} {e : Except ε α} {P : α → Prop} [DecidablePred P]
    (h : (match e with | .ok x => decide (P x) | .error _ => false) = true) : ∃ x, e = .ok x ∧ P x := by
  cases e with
  | error _ => cases h
  | ok x => exact ⟨x, rfl, of_decide_eq_true h⟩

/-- Thirty empty files named `A` to `^`. -/
def thirtyFiles : List (List UInt8 × List UInt8) :=
  (List.range 30).map fun i => ([(65 + i).toUInt8], [])

/-- With thirty files, `.`, `..` and their entries fill the root directory's first block;
`main` rounds its size up to two blocks while only the first is allocated, so the image
breaks the invariant the kernel keeps of its inodes. -/
theorem mkfs_root_hole :
    (thirtyFiles.map Prod.fst).Nodup ∧ ∃ img, main thirtyFiles = .ok img ∧
      (dinodeAt img ROOTINO).size = 1024 ∧ (dinodeAt img ROOTINO).addrs 1 = 0 ∧ ¬ FsInv img := by
  refine ⟨by decide, ?_⟩
  obtain ⟨img, himg, hsize, hhole, htype, hn⟩ := @exists_ok_of_probe _ _ (main thirtyFiles)
    (fun img => (dinodeAt img ROOTINO).size = 1024 ∧ (dinodeAt img ROOTINO).addrs 1 = 0 ∧
      (dinodeAt img ROOTINO).type = T_DIR ∧ (readsb img).ninodes = 200) _ (by decide +kernel)
  refine ⟨img, himg, hsize, hhole, fun hinv => ?_⟩
  have hlive : Live (readsb img) (dinodeAt img) ROOTINO :=
    ⟨by decide, by rw [hn]; decide, by rw [htype]; decide⟩
  exact direct_ne_zero_of_fsInv hinv hlive ⟨1, by decide⟩ (by rw [hsize]; decide) hhole

end Mkfs

end Xv6
