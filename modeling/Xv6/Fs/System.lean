import Xv6.Fs.ReadWrite
import Xv6.Fs.Itrunc
import Xv6.Fs.Mkfs
import Xv6.Lib.Reach

/-!
# The file system as a state machine

The disk changes only through calls on locked inodes: `ialloc`, `writei`, the `iupdate`
that follows a change of the link count or of the device numbers, and the freeing half
of `iput`. Each call runs on the inode as `ilock` reads it from the disk, and a panic
stops the machine. `readi` changes nothing on disk and is not a step.

`FsInv` holds in every state reachable from a disk that keeps it, and in every such
state `readi` and `writei` refine the byte-string contents of every inode.
-/

namespace Xv6

/-- A file-system call that may change the disk, on inode `inum`. `update` is the
`iupdate` after a change of the link count (`sys_link`, `sys_unlink`, `create`) or of
the device numbers (`mknod`). -/
inductive FsCall where
  | ialloc (type : Int16)
  | writei (inum : Nat) (src : Nat → UInt8) (off n : UInt32)
  | update (inum : Nat) (major minor nlink : Int16)
  | iput (inum : Nat)

/-- The disk after a call, or `none` when the call panics or names an inode that is not
allocated. -/
def fsNext (devsw : Nat → Devsw) (d : Disk) : FsCall → Option Disk
  | .ialloc type =>
    match ialloc d type with
    | .ok (d', _) => some d'
    | .error _ => none
  | .writei inum src off n =>
    if Live (readsb d) (dinodeAt d) inum then
      match writei devsw d (Inode.load d inum) src off n with
      | .ok (d', _, _) => some d'
      | .error _ => none
    else none
  | .update inum major minor nlink =>
    if Live (readsb d) (dinodeAt d) inum then
      some (iupdate d { Inode.load d inum with major, minor, nlink })
    else none
  | .iput inum =>
    if Live (readsb d) (dinodeAt d) inum then
      match iputFree d (Inode.load d inum) with
      | .ok (d', _) => some d'
      | .error _ => none
    else none

/-- A write to a device goes to its driver and leaves the disk alone. -/
theorem writei_dev (devsw : Nat → Devsw) (d : Disk) {ip : Inode} (hdev : ip.type = T_DEV)
    (src : Nat → UInt8) (off n : UInt32) :
    ∃ r, writei devsw d ip src off n = .ok (d, ip, r) := by
  simp only [writei, if_pos hdev]
  split
  · exact ⟨_, rfl⟩
  · split
    · exact ⟨_, rfl⟩
    · exact ⟨_, rfl⟩

theorem FsInv.fsNext {devsw : Nat → Devsw} {d d' : Disk} (hinv : FsInv d) {c : FsCall}
    (h : fsNext devsw d c = some d') : FsInv d' := by
  cases c with
  | ialloc type =>
    simp only [Xv6.fsNext] at h
    rcases ialloc_cases d type with herr | ⟨i, -, hi, h0, hok⟩
    · rw [herr] at h
      cases h
    · rw [hok] at h
      cases h
      exact hinv.ialloc hi h0 type
  | writei i src off n =>
    simp only [Xv6.fsNext] at h
    split at h
    · rename_i hi
      by_cases hdev : (dinodeAt d i).type = T_DEV
      · -- a device write: the disk is as it was
        obtain ⟨r, hw⟩ := writei_dev devsw d (show (Inode.load d i).type = T_DEV from hdev) src off n
        rw [hw] at h
        cases h
        exact hinv
      obtain ⟨hbad, hgood⟩ := writei_spec devsw hinv hi hdev src off n
      by_cases hb : (dinodeAt d i).size.toNat < off.toNat ∨ 2 ^ 32 ≤ off.toNat + n.toNat
      · rw [hbad hb] at h
        cases h
        exact hinv
      rcases hgood hb with ⟨herr, -⟩ | ⟨d2, ip2, r, hok, -, hpost⟩
      · rw [herr] at h
        cases h
      · rw [hok] at h
        cases h
        exact hpost.inv
    · cases h
  | update i major minor nlink =>
    simp only [Xv6.fsNext] at h
    split at h
    · rename_i hi
      cases h
      exact hinv.iupdate_meta _ hi.2.1 rfl rfl rfl
    · cases h
  | iput i =>
    simp only [Xv6.fsNext] at h
    split at h
    · rename_i hi
      obtain ⟨d2, hput, hinv2, -⟩ := iputFree_spec hinv hi
      rw [hput] at h
      cases h
      exact hinv2
    · cases h

/-- The invariant holds in every state reachable from a disk that keeps it. -/
theorem fsInv_reachable {devsw : Nat → Devsw} {d : Disk}
    (h : Reach.Reachable FsInv (Reach.stepOf (fsNext devsw)) d) : FsInv d :=
  Reach.Reachable.invariant (fun _ h => h) (fun _ _ _ hs hstep => hs.fsNext hstep) h

end Xv6
