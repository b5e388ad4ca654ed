import Xv6.Sys.Args
import Xv6.Fs.System

/-!
# `read` and `write` on inode files

`sysfile.c` and `file.c`: `sys_read` and `sys_write` take the descriptor, the count
`n` and the buffer `p` from the user stack, check the buffer with `argptr(1, &p, n)`,
and call `fileread` or `filewrite`, which lock the inode and call `readi` or `writei`
with `n` as an unsigned count. The bytes `readi` returns are copied to the user
addresses from `p` on; the bytes `writei` stores are read from there.

Only files of type `FD_INODE` are modelled here. A pipe end goes to `piperead` and
`pipewrite` (`Xv6.Pipe`), whose loops copy no byte for a negative count.
-/

namespace Xv6

/-- `#define NOFILE 16`: open files per process. -/
def NOFILE : Nat := 16

/-- `struct file` of type `FD_INODE`: the open flags, the inode and the offset. -/
structure File where
  readable : Bool
  writable : Bool
  inum : Nat
  off : UInt32
  deriving DecidableEq

/-- `argfd`: descriptor argument `n` and the open file it names. -/
def argfd (u : UserView) (ofile : Nat → Option File) (n : Nat) : Option (Nat × File) := do
  let fd ← u.argint n
  if fd.toInt < 0 ∨ fd.toInt ≥ NOFILE then none
  else (ofile fd.toInt.toNat).map fun f => (fd.toInt.toNat, f)

/-- `fileread`: `readi` at the file's offset with `n` as an unsigned count; the offset
moves by what it returns. The bytes are those copied to the user buffer. -/
def fileread (devsw : Nat → Devsw) (d : Disk) (f : File) (n : Int32) :
    Except String (Int32 × List UInt8 × File) :=
  if f.readable = false then pure (-1, [], f)
  else do
    let (_, _, r, bytes) ← readi devsw d (Inode.load d f.inum) f.off n.toUInt32
    pure (r, bytes, if r > 0 then { f with off := f.off + r.toUInt32 } else f)

/-- `filewrite`: `writei` of the bytes `src 0, src 1, ...` at the file's offset. -/
def filewrite (devsw : Nat → Devsw) (d : Disk) (src : Nat → UInt8) (f : File) (n : Int32) :
    Except String (Disk × Int32 × File) :=
  if f.writable = false then pure (d, -1, f)
  else do
    let (d, _, r) ← writei devsw d (Inode.load d f.inum) src f.off n.toUInt32
    pure (d, r, if r > 0 then { f with off := f.off + r.toUInt32 } else f)

/-- `sys_read`: `none` is the `-1` of a refused argument; otherwise the buffer address
and what `fileread` returns and copies there. -/
def sys_read (devsw : Nat → Devsw) (d : Disk) (u : UserView) (ofile : Nat → Option File) :
    Option (Except String (UInt32 × Int32 × List UInt8 × File)) := do
  let (_, f) ← argfd u ofile 0
  let n ← u.argint 2
  let p ← u.argptr 1 n
  pure ((fileread devsw d f n).map fun (r, bytes, f') => (p, r, bytes, f'))

/-- `sys_write`: the buffer address and what `filewrite` does with the user bytes from
there on. -/
def sys_write (devsw : Nat → Devsw) (d : Disk) (u : UserView) (ofile : Nat → Option File) :
    Option (Except String (UInt32 × Disk × Int32 × File)) := do
  let (_, f) ← argfd u ofile 0
  let n ← u.argint 2
  let p ← u.argptr 1 n
  pure ((filewrite devsw d (fun k => u.mem (p.toNat + k)) f n).map fun (d', r, f') => (p, d', r, f'))

/-! ## Where the bytes go -/

/-- `readi` on a live non-device inode returns at most `n` bytes. -/
theorem readi_length_le (devsw : Nat → Devsw) {d : Disk} (hinv : FsInv d) {i : Nat}
    (hi : Live (readsb d) (dinodeAt d) i) (hdev : (dinodeAt d i).type ≠ T_DEV) {off n : UInt32}
    {d' : Disk} {ip' : Inode} {r : Int32} {bytes : List UInt8}
    (h : readi devsw d (Inode.load d i) off n = .ok (d', ip', r, bytes)) :
    bytes.length ≤ n.toNat := by
  obtain ⟨hbad, hgood⟩ := readi_spec devsw hinv hi hdev off n
  by_cases hb : (dinodeAt d i).size.toNat < off.toNat ∨ 2 ^ 32 ≤ off.toNat + n.toNat
  · rw [hbad hb] at h
    cases h
    exact Nat.zero_le _
  · obtain ⟨r', hr, -⟩ := hgood hb
    rw [hr] at h
    cases h
    simp only [List.length_take, List.length_drop]
    omega

/-- A `read` whose count is not negative, on a live non-device inode, copies into
`[p, p + n)`, which lies below `sz`. -/
theorem sys_read_within (devsw : Nat → Devsw) {d : Disk} (hinv : FsInv d) {u : UserView}
    {ofile : Nat → Option File} (hsz : u.sz.toNat ≤ USERTOP)
    (hopen : ∀ fd f, ofile fd = some f →
      Live (readsb d) (dinodeAt d) f.inum ∧ (dinodeAt d f.inum).type ≠ T_DEV)
    {n : Int32} (hn : u.argint 2 = some n) (hpos : 0 ≤ n)
    {p : UInt32} {r : Int32} {bytes : List UInt8} {f' : File}
    (h : sys_read devsw d u ofile = some (.ok (p, r, bytes, f'))) :
    p.toNat + bytes.length ≤ u.sz.toNat := by
  simp only [sys_read, hn, Option.bind_eq_bind, Option.bind_eq_some_iff, Option.bind_some,
    Option.pure_def, Option.some.injEq] at h
  obtain ⟨⟨fd, f⟩, hfd, p', hp, hread⟩ := h
  have hwithin := UserView.argptr_within hsz hpos hp
  have hf : ofile fd = some f := by
    simp only [argfd, Option.bind_eq_bind, Option.bind_eq_some_iff] at hfd
    obtain ⟨fd', -, hfd'⟩ := hfd
    split at hfd'
    · cases hfd'
    · obtain ⟨f'', hf'', he⟩ := Option.map_eq_some_iff.mp hfd'
      simp only [Prod.mk.injEq] at he
      rw [← he.1, ← he.2]
      exact hf''
  obtain ⟨hlive, hdev⟩ := hopen fd f hf
  unfold fileread at hread
  split at hread
  · simp only [pure, Except.pure, Except.map, Except.ok.injEq, Prod.mk.injEq] at hread
    rw [← hread.1, ← hread.2.2.1]
    simp only [List.length_nil, Nat.add_zero]
    have := hinv.geom
    omega
  · simp only [bind, Except.bind] at hread
    split at hread
    · simp [Except.map] at hread
    · rename_i res hres
      obtain ⟨d1, ip1, r1, bytes1⟩ := res
      simp only [pure, Except.pure, Except.map, Except.ok.injEq, Prod.mk.injEq] at hread
      have hlen := readi_length_le devsw hinv hlive hdev hres
      rw [Int32.toNat_toUInt32_of_le hpos] at hlen
      rw [← hread.1, ← hread.2.2.1]
      omega

/-- The call that breaks it: `sz = 4096`, and on the stack at `esp = 0` the descriptor
`0`, the buffer `4095` and the count `-1`. -/
def readArgs : UserView where
  sz := 4096
  mem := Bytes.setU32 (Bytes.setU32 (Bytes.setU32 (fun _ => 0) 4 0) 8 4095) 12 0xFFFFFFFF
  esp := 0

/-- Descriptor `0` is `/`, opened for reading and not yet read. -/
def rootOpen : Nat → Option File := fun fd =>
  if fd = 0 then some ⟨true, false, ROOTINO, 0⟩ else none

/-- With `n = -1`, `argptr` accepts the buffer at `sz - 1`, `readi` takes the count as
`0xFFFFFFFF` and returns the root directory's 512 bytes, and `sys_read` copies them to
`[4095, 4607)`, past `sz = 4096`. -/
theorem sys_read_past_sz (devsw : Nat → Devsw) :
    readArgs.argint 2 = some (-1) ∧
      ∃ r bytes f', sys_read devsw MkfsParams.xv6.image readArgs rootOpen =
          some (.ok (4095, r, bytes, f')) ∧
        bytes.length = 512 ∧ readArgs.sz.toNat < 4095 + bytes.length := by
  have h0 : argfd readArgs rootOpen 0 = some (0, ⟨true, false, ROOTINO, 0⟩) := by decide
  have h2 : readArgs.argint 2 = some (-1) := by decide
  have h1 : readArgs.argptr 1 (-1) = some 4095 :=
    UserView.argptr_neg_one (show readArgs.argint 1 = some 4095 by decide) (by decide) (by decide)
  refine ⟨h2, ?_⟩
  -- `readi` of the whole root directory
  have hinv := MkfsParams.xv6.mkfs_inv
  have hi : Live (readsb MkfsParams.xv6.image) (dinodeAt MkfsParams.xv6.image) ROOTINO :=
    MkfsParams.xv6.live_image.mpr rfl
  have hdev : (dinodeAt MkfsParams.xv6.image ROOTINO).type ≠ T_DEV := by
    rw [MkfsParams.dinodeAt_root]
    decide
  have hsize : (dinodeAt MkfsParams.xv6.image ROOTINO).size.toNat = 512 := by
    rw [MkfsParams.dinodeAt_root]
    rfl
  have hgood : ¬ ((dinodeAt MkfsParams.xv6.image ROOTINO).size.toNat < (0 : UInt32).toNat ∨
      2 ^ 32 ≤ (0 : UInt32).toNat + (-1 : Int32).toUInt32.toNat) := by
    rw [hsize]
    decide
  obtain ⟨r, hr, -⟩ := (readi_spec devsw hinv hi hdev 0 (-1 : Int32).toUInt32).2 hgood
  have hlen : (List.take (min (-1 : Int32).toUInt32.toNat
      ((dinodeAt MkfsParams.xv6.image ROOTINO).size.toNat - (0 : UInt32).toNat))
        (List.drop (0 : UInt32).toNat
          (contents MkfsParams.xv6.image (dinodeAt MkfsParams.xv6.image ROOTINO)))).length = 512 := by
    have hm : (-1 : Int32).toUInt32.toNat = 2 ^ 32 - 1 := rfl
    simp only [contents, List.length_take, List.length_drop, List.length_map, List.length_range,
      hsize, hm]
    rfl
  refine ⟨r, _, if r > 0 then ⟨true, false, ROOTINO, 0 + r.toUInt32⟩ else ⟨true, false, ROOTINO, 0⟩,
    ?_, hlen, ?_⟩
  · simp only [sys_read, h0, h2, h1, fileread, hr, Option.bind_some, Bool.true_eq_false, if_false, bind, Except.bind, pure, Except.pure, Except.map]
  · rw [hlen]
    decide

end Xv6
