import Mathlib
import Xv6.Lib.Reach
import Xv6.Lib.Holders
import Xv6.Fs.Dinodes

/-!
# The inode cache

`icache` in `fs.c` holds `NINODE` slots of `struct inode`; a slot names an inode
`(dev, inum)` and counts the references to it in `ref`. `iget` finds the slot of the
inode among those with `ref > 0`, or takes over the first slot with `ref = 0` and
clears its flags; `idup` adds a reference; `ilock` waits for `I_BUSY` to clear, sets it,
and reads the dinode from disk when `I_VALID` is clear; `iunlock` clears `I_BUSY`;
`iput` drops a reference, and when it drops the last one to a valid inode with no
links it first frees the inode on disk.

Each `icache.lock` critical section is one step. `iput` frees the inode outside the
lock, holding `I_BUSY`, between two critical sections: its first section, the freeing
(`itrunc` and the `iupdate` of the free dinode) and its last section are three steps,
and where each such call stands is the ghost `iputs`. Which caller holds which
reference, and which holds which lock, are ghost lists (`Holders`).

The disk is its table of dinodes per device: `dinodeAt` of the disk image, which
`ialloc` and `iupdate` change at one inode (`iallocFrom_eq`, `dinodeAt_iupdate`) and
which the freeing half of `iput` leaves `Dinode.freed` (`iputFree_spec`).

The callers keep a discipline, which the steps take as preconditions: a reference is
used only by its holder; `ilock` and `iput` get a held reference that the caller has not
locked, `iupdate` and `iunlock` a locked one; `iupdate` writes back a change of fields
other than the type. `iget` outside `ialloc` is `dirlookup` (or `namex` at the root)
following a directory entry, which may name any inode: the `..` of a directory that was
unlinked while it was a process's current directory names its parent even after the
parent is unlinked and freed. So `iget` may add a reference to an inode while `iput`
frees it (`iput_frees_referenced`).
-/

namespace Xv6

/-- `#define NINODE 50` -/
def NINODE : Nat := 50

instance : NeZero NINODE := ⟨by decide⟩

/-- A slot of `icache.inode`: `struct inode` with the bits `I_BUSY` and `I_VALID` of
`flags`, and the dinode fields it caches. -/
structure ISlot where
  dev : Nat
  inum : Nat
  ref : Nat
  busy : Bool
  valid : Bool
  di : Dinode

/-- The inode a slot names. -/
def ISlot.key (ip : ISlot) : Nat × Nat := (ip.dev, ip.inum)

abbrev Icache := Fin NINODE → ISlot

/-- The dinodes of each device, by inode number. -/
abbrev Dinodes := Nat → Nat → Dinode

namespace Dinodes

/-- The table with the dinode of `inum` on `dev` replaced. -/
def set (t : Dinodes) (dev inum : Nat) (di : Dinode) : Dinodes :=
  Function.update t dev (Function.update (t dev) inum di)

@[simp] theorem set_self (t : Dinodes) (dev inum : Nat) (di : Dinode) :
    t.set dev inum di dev inum = di := by
  simp [set]

theorem set_of_ne (t : Dinodes) {dev inum dev' inum' : Nat} (di : Dinode)
    (h : (dev', inum') ≠ (dev, inum)) : t.set dev inum di dev' inum' = t dev' inum' := by
  by_cases hd : dev' = dev
  · subst hd
    have hi : inum' ≠ inum := fun hi => h (by rw [hi])
    simp [set, hi]
  · simp [set, hd]

end Dinodes

/-! ## The code -/

/-- `iget`: the slot of inode `inum` of `dev`, with one more reference. The loop returns
the first slot caching the inode with `ref > 0`; failing that, it takes over the first
slot with `ref = 0` it passed. -/
def iget (ic : Icache) (dev inum : Nat) : Except String (Icache × Fin NINODE) :=
  match (List.finRange NINODE).find? fun i => 0 < (ic i).ref ∧ (ic i).dev = dev ∧ (ic i).inum = inum with
  | some i => pure (Function.update ic i { ic i with ref := (ic i).ref + 1 }, i)
  | none =>
    match (List.finRange NINODE).find? fun i => (ic i).ref = 0 with
    | some i => pure (Function.update ic i
        { ic i with dev := dev, inum := inum, ref := 1, busy := false, valid := false }, i)
    | none => throw "iget: no inodes"

def idup (ic : Icache) (i : Fin NINODE) : Icache :=
  Function.update ic i { ic i with ref := (ic i).ref + 1 }

/-- `ilock`: `none` while the slot is `I_BUSY`, when the caller sleeps and calls again. -/
def ilock (ic : Icache) (disk : Dinodes) (i : Fin NINODE) : Except String (Option Icache) :=
  if (ic i).ref < 1 then throw "ilock"
  else if (ic i).busy then pure none
  else
    let ip := { ic i with busy := true }
    if !ip.valid then
      let ip := { ip with di := disk ip.dev ip.inum, valid := true }
      if ip.di.type = 0 then throw "ilock: no type"
      else pure (some (Function.update ic i ip))
    else pure (some (Function.update ic i ip))

def iunlock (ic : Icache) (i : Fin NINODE) : Except String Icache :=
  if !(ic i).busy ∨ (ic i).ref < 1 then throw "iunlock"
  else pure (Function.update ic i { ic i with busy := false })

/-- The first critical section of `iput`: `true` when the caller goes on to free the
inode, holding the slot `I_BUSY`, and `false` when it has dropped its reference. -/
def iputBegin (ic : Icache) (i : Fin NINODE) : Except String (Bool × Icache) :=
  let ip := ic i
  if ip.ref = 1 ∧ ip.valid ∧ ip.di.nlink = 0 then
    if ip.busy then throw "iput busy"
    else pure (true, Function.update ic i { ip with busy := true })
  else pure (false, Function.update ic i { ip with ref := ip.ref - 1 })

/-- What `itrunc` and `ip->type = 0` leave of a dinode. -/
def Dinode.freed (di : Dinode) : Dinode := { di with type := 0, size := 0, addrs := fun _ => 0 }

/-- The last critical section of `iput` after freeing: `ip->flags = 0; ip->ref--`. -/
def iputEnd (ic : Icache) (i : Fin NINODE) : Icache :=
  Function.update ic i { ic i with busy := false, valid := false, ref := (ic i).ref - 1 }

/-- The loop of `ialloc` on a table of dinodes: the first free inode from `inum` on. -/
def iallocScan (tbl : Nat → Dinode) (ninodes inum : Nat) : Option Nat :=
  if inum < ninodes then
    if (tbl inum).type = 0 then some inum else iallocScan tbl ninodes (inum + 1)
  else none
termination_by ninodes - inum

theorem iallocScan_of_used {tbl : Nat → Dinode} {ninodes inum : Nat} (hlt : inum < ninodes)
    (h0 : (tbl inum).type ≠ 0) : iallocScan tbl ninodes inum = iallocScan tbl ninodes (inum + 1) := by
  rw [iallocScan, if_pos hlt, if_neg h0]

/-- `ialloc` on a disk image is the scan of its table, and the write of a blank dinode
at the inode found. -/
theorem iallocFrom_eq (d : Disk) (ninodes : Nat) (type : Int16) (inum : Nat) :
    iallocFrom d ninodes type inum =
      match iallocScan (dinodeAt d) ninodes inum with
      | some k => .ok (Function.update d (IBLOCK k)
          (Dinode.encode (d (IBLOCK k)) (dinodeOff k) (Dinode.blank type)), k)
      | none => .error "ialloc: no inodes" := by
  fun_induction iallocFrom d ninodes type inum with
  | case1 inum hlt h0 => simp [iallocScan, hlt, h0]
  | case2 inum hlt h0 ih => rw [ih, iallocScan_of_used hlt h0]
  | case3 inum hlt => simp [iallocScan, hlt]

/-- The inode `ialloc` allocates is the one its table's scan finds, and the table then
holds a blank dinode of the type there. -/
theorem ialloc_table {d d' : Disk} {type : Int16} {inum : Nat} (h : ialloc d type = .ok (d', inum)) :
    iallocScan (dinodeAt d) (readsb d).ninodes.toNat 1 = some inum ∧
      dinodeAt d' = Function.update (dinodeAt d) inum (Dinode.blank type) := by
  rw [ialloc, iallocFrom_eq] at h
  split at h
  · cases h
    exact ⟨‹_›, dinodeAt_encode _ _ _⟩
  · cases h

/-! ## The cache as a system -/

/-- Where a call of `iput` that frees its inode stands: before the freeing, or after it
and before its last critical section. -/
inductive IputPhase where
  | trunc
  | finish
  deriving DecidableEq

/-- The cache and the dinodes on disk; who holds a reference to which slot, who holds
which slot locked, and the calls of `iput` freeing a slot. -/
structure IcSys where
  icache : Icache
  disk : Dinodes
  holders : List (Nat × Fin NINODE)
  lockers : List (Nat × Fin NINODE)
  iputs : Fin NINODE → Option (Nat × IputPhase)

/-- A call by holder `p`. `ialloc` ends with its `iget`; `iupdate` writes back the new
dinode `di` of a locked inode; `iput` is the first critical section of `iput`, `itrunc`
the freeing and `iputEnd` the last section. -/
inductive IcCall where
  | iget (p dev inum : Nat)
  | ialloc (p dev : Nat) (type : Int16)
  | idup (p q : Nat) (i : Fin NINODE)
  | ilock (p : Nat) (i : Fin NINODE)
  | iupdate (p : Nat) (i : Fin NINODE) (di : Dinode)
  | iunlock (p : Nat) (i : Fin NINODE)
  | iput (p : Nat) (i : Fin NINODE)
  | itrunc (p : Nat) (i : Fin NINODE)
  | iputEnd (p : Nat) (i : Fin NINODE)

/-- `p` holds a reference to slot `i`, and not the one its own `iput` is dropping. -/
def IcSys.Holds (s : IcSys) (p : Nat) (i : Fin NINODE) : Prop :=
  (p, i) ∈ s.holders ∧ (s.iputs i).map Prod.fst ≠ some p

instance (s : IcSys) (p : Nat) (i : Fin NINODE) : Decidable (s.Holds p i) :=
  inferInstanceAs (Decidable (_ ∧ _))

/-- One step, with `ninodes dev` inodes on device `dev`. A panic, and a call outside the
callers' discipline, are refused. -/
def icNext (ninodes : Nat → Nat) (s : IcSys) : IcCall → Option IcSys
  | .iget p dev inum =>
    match iget s.icache dev inum with
    | .ok (ic, i) => some { s with icache := ic, holders := (p, i) :: s.holders }
    | .error _ => none
  | .ialloc p dev type =>
    match iallocScan (s.disk dev) (ninodes dev) 1 with
    | some inum =>
      match iget s.icache dev inum with
      | .ok (ic, i) => some { s with
          icache := ic, disk := s.disk.set dev inum (Dinode.blank type),
          holders := (p, i) :: s.holders }
      | .error _ => none
    | none => none
  | .idup p q i =>
    if s.Holds p i then some { s with icache := idup s.icache i, holders := (q, i) :: s.holders }
    else none
  | .ilock p i =>
    if s.Holds p i ∧ (p, i) ∉ s.lockers then
      match ilock s.icache s.disk i with
      | .ok (some ic) => some { s with icache := ic, lockers := (p, i) :: s.lockers }
      | .ok none => some s
      | .error _ => none
    else none
  | .iupdate p i di =>
    if (p, i) ∈ s.lockers ∧ di.type = (s.icache i).di.type then
      some { s with
          icache := Function.update s.icache i { s.icache i with di := di },
          disk := s.disk.set (s.icache i).dev (s.icache i).inum di }
    else none
  | .iunlock p i =>
    if (p, i) ∈ s.lockers then
      match iunlock s.icache i with
      | .ok ic => some { s with icache := ic, lockers := s.lockers.erase (p, i) }
      | .error _ => none
    else none
  | .iput p i =>
    if s.Holds p i ∧ (p, i) ∉ s.lockers then
      match iputBegin s.icache i with
      | .ok (true, ic) =>
        some { s with icache := ic, iputs := Function.update s.iputs i (some (p, .trunc)) }
      | .ok (false, ic) => some { s with icache := ic, holders := s.holders.erase (p, i) }
      | .error _ => none
    else none
  | .itrunc p i =>
    if s.iputs i = some (p, .trunc) then
      let ip := s.icache i
      some { s with
          icache := Function.update s.icache i { ip with di := ip.di.freed },
          disk := s.disk.set ip.dev ip.inum ip.di.freed,
          iputs := Function.update s.iputs i (some (p, .finish)) }
    else none
  | .iputEnd p i =>
    if s.iputs i = some (p, .finish) then
      some { s with
          icache := iputEnd s.icache i, holders := s.holders.erase (p, i),
          iputs := Function.update s.iputs i none }
    else none

/-- A booting kernel: no slot is referenced or busy; the disk is any. -/
def IcInit (s : IcSys) : Prop :=
  (∀ i, (s.icache i).ref = 0 ∧ (s.icache i).busy = false) ∧ s.holders = [] ∧ s.lockers = [] ∧
    ∀ i, s.iputs i = none

def IcReachable (ninodes : Nat → Nat) : IcSys → Prop :=
  Reach.Reachable IcInit (Reach.stepOf (icNext ninodes))

/-- The ways through `icNext`, one constructor each. -/
inductive IcStep (ninodes : Nat → Nat) (s : IcSys) : IcSys → Prop where
  | get {p dev inum : Nat} {ic : Icache} {i : Fin NINODE} :
      iget s.icache dev inum = .ok (ic, i) →
      IcStep ninodes s { s with icache := ic, holders := (p, i) :: s.holders }
  | alloc {p dev inum : Nat} {type : Int16} {ic : Icache} {i : Fin NINODE} :
      iallocScan (s.disk dev) (ninodes dev) 1 = some inum → iget s.icache dev inum = .ok (ic, i) →
      IcStep ninodes s { s with
          icache := ic, disk := s.disk.set dev inum (Dinode.blank type),
          holders := (p, i) :: s.holders }
  | dup {p q : Nat} {i : Fin NINODE} : s.Holds p i →
      IcStep ninodes s { s with icache := idup s.icache i, holders := (q, i) :: s.holders }
  | sleep : IcStep ninodes s s
  | lock {p : Nat} {i : Fin NINODE} {ic : Icache} : s.Holds p i → (p, i) ∉ s.lockers →
      ilock s.icache s.disk i = .ok (some ic) →
      IcStep ninodes s { s with icache := ic, lockers := (p, i) :: s.lockers }
  | update {p : Nat} {i : Fin NINODE} {di : Dinode} : (p, i) ∈ s.lockers →
      di.type = (s.icache i).di.type →
      IcStep ninodes s { s with
          icache := Function.update s.icache i { s.icache i with di := di },
          disk := s.disk.set (s.icache i).dev (s.icache i).inum di }
  | unlock {p : Nat} {i : Fin NINODE} {ic : Icache} : (p, i) ∈ s.lockers →
      iunlock s.icache i = .ok ic →
      IcStep ninodes s { s with icache := ic, lockers := s.lockers.erase (p, i) }
  | putFree {p : Nat} {i : Fin NINODE} {ic : Icache} : s.Holds p i → (p, i) ∉ s.lockers →
      iputBegin s.icache i = .ok (true, ic) →
      IcStep ninodes s { s with icache := ic, iputs := Function.update s.iputs i (some (p, .trunc)) }
  | putDrop {p : Nat} {i : Fin NINODE} {ic : Icache} : s.Holds p i → (p, i) ∉ s.lockers →
      iputBegin s.icache i = .ok (false, ic) →
      IcStep ninodes s { s with icache := ic, holders := s.holders.erase (p, i) }
  | trunc {p : Nat} {i : Fin NINODE} : s.iputs i = some (p, .trunc) →
      IcStep ninodes s { s with
        icache := Function.update s.icache i { s.icache i with di := (s.icache i).di.freed },
        disk := s.disk.set (s.icache i).dev (s.icache i).inum (s.icache i).di.freed,
        iputs := Function.update s.iputs i (some (p, .finish)) }
  | putEnd {p : Nat} {i : Fin NINODE} : s.iputs i = some (p, .finish) →
      IcStep ninodes s { s with
          icache := iputEnd s.icache i, holders := s.holders.erase (p, i),
          iputs := Function.update s.iputs i none }

theorem icStep_of_icNext {ninodes : Nat → Nat} {s s' : IcSys} {e : IcCall}
    (h : icNext ninodes s e = some s') : IcStep ninodes s s' := by
  cases e with
  | iget p dev inum =>
    simp only [icNext] at h
    split at h
    · cases h
      exact .get ‹_›
    · cases h
  | ialloc p dev type =>
    simp only [icNext] at h
    split at h
    · split at h
      · cases h
        exact .alloc ‹_› ‹_›
      · cases h
    · cases h
  | idup p q i =>
    simp only [icNext] at h
    split_ifs at h with hh
    cases h
    exact .dup hh
  | ilock p i =>
    simp only [icNext] at h
    split_ifs at h with hh
    split at h
    · cases h
      exact .lock hh.1 hh.2 ‹_›
    · cases h
      exact .sleep
    · cases h
  | iupdate p i di =>
    simp only [icNext] at h
    split_ifs at h with hh
    cases h
    exact .update hh.1 hh.2
  | iunlock p i =>
    simp only [icNext] at h
    split_ifs at h with hh
    split at h
    · cases h
      exact .unlock hh ‹_›
    · cases h
  | iput p i =>
    simp only [icNext] at h
    split_ifs at h with hh
    split at h
    · cases h
      exact .putFree hh.1 hh.2 ‹_›
    · cases h
      exact .putDrop hh.1 hh.2 ‹_›
    · cases h
  | itrunc p i =>
    simp only [icNext] at h
    split_ifs at h with hh
    cases h
    exact .trunc hh
  | iputEnd p i =>
    simp only [icNext] at h
    split_ifs at h with hh
    cases h
    exact .putEnd hh

/-! ## What the code does to a slot -/

section slots

variable {ic ic' : Icache} {i : Fin NINODE}

/-- `iget` adds a reference to the slot of a cached inode, or takes over a slot with no
references for an inode no slot with references names, with its flags cleared. -/
theorem iget_cases {dev inum : Nat} (h : iget ic dev inum = .ok (ic', i)) :
    (0 < (ic i).ref ∧ (ic i).key = (dev, inum) ∧
      ic' = Function.update ic i { ic i with ref := (ic i).ref + 1 }) ∨
    ((ic i).ref = 0 ∧ (∀ j, 0 < (ic j).ref → (ic j).key ≠ (dev, inum)) ∧
      ic' = Function.update ic i
        { ic i with dev := dev, inum := inum, ref := 1, busy := false, valid := false }) := by
  unfold iget at h
  split at h
  · rename_i j hj
    simp only [pure, Except.pure, Except.ok.injEq, Prod.mk.injEq] at h
    obtain ⟨rfl, rfl⟩ := h
    have hfound := List.find?_some hj
    simp only [decide_eq_true_eq] at hfound
    exact .inl ⟨hfound.1, by rw [ISlot.key, hfound.2.1, hfound.2.2], rfl⟩
  · rename_i hnone
    split at h
    · rename_i j hj
      simp only [pure, Except.pure, Except.ok.injEq, Prod.mk.injEq] at h
      obtain ⟨rfl, rfl⟩ := h
      have hfound := List.find?_some hj
      simp only [decide_eq_true_eq] at hfound
      refine .inr ⟨hfound, fun k hk hkey => ?_, rfl⟩
      -- the first scan passed every slot, `k` among them
      have hk' := List.find?_eq_none.mp hnone k (List.mem_finRange k)
      simp only [ISlot.key, Prod.mk.injEq] at hkey
      simp [hk, hkey] at hk'
    · cases h

/-- `ilock` that returns sets `I_BUSY` on a slot that was not busy and makes it valid: the
dinode it holds is the one it had, or the one on disk, which has a type. -/
theorem ilock_some {disk : Dinodes} (h : ilock ic disk i = .ok (some ic')) :
    (ic i).busy = false ∧ ∃ di : Dinode,
      ic' = Function.update ic i { ic i with busy := true, valid := true, di := di } ∧
      ((ic i).valid = true ∧ di = (ic i).di ∨ di = disk (ic i).dev (ic i).inum ∧ di.type ≠ 0) := by
  unfold ilock at h
  by_cases hr : (ic i).ref < 1
  · rw [if_pos hr] at h
    cases h
  rw [if_neg hr] at h
  cases hb : (ic i).busy
  · simp only [hb, Bool.false_eq_true, if_false] at h
    refine ⟨rfl, ?_⟩
    cases hv : (ic i).valid
    · -- the dinode is read from disk
      simp only [hv, Bool.not_false, if_true] at h
      by_cases ht : (disk (ic i).dev (ic i).inum).type = 0
      · rw [if_pos ht] at h
        cases h
      · rw [if_neg ht] at h
        cases h
        exact ⟨_, rfl, .inr ⟨rfl, ht⟩⟩
    · -- already valid: the slot keeps its dinode
      simp only [hv, Bool.not_true, Bool.false_eq_true, if_false] at h
      cases h
      refine ⟨(ic i).di, ?_, .inl ⟨rfl, rfl⟩⟩
      rw [← hv]
  · simp only [hb, if_true] at h
    cases h

theorem iunlock_ok (h : iunlock ic i = .ok ic') :
    (ic i).busy = true ∧ ic' = Function.update ic i { ic i with busy := false } := by
  dsimp only [iunlock] at h
  split_ifs at h with hb
  cases h
  simp only [not_or, Bool.not_eq_true', Bool.not_eq_false] at hb
  exact ⟨hb.1, rfl⟩

theorem iputBegin_true (h : iputBegin ic i = .ok (true, ic')) :
    (ic i).ref = 1 ∧ (ic i).valid = true ∧ (ic i).di.nlink = 0 ∧ (ic i).busy = false ∧
      ic' = Function.update ic i { ic i with busy := true } := by
  unfold iputBegin at h
  by_cases hfree : (ic i).ref = 1 ∧ (ic i).valid = true ∧ (ic i).di.nlink = 0
  · rw [if_pos hfree] at h
    cases hb : (ic i).busy
    · simp only [hb, Bool.false_eq_true, if_false] at h
      cases h
      exact ⟨hfree.1, hfree.2.1, hfree.2.2, rfl, rfl⟩
    · simp only [hb, if_true] at h
      cases h
  · rw [if_neg hfree] at h
    cases h

theorem iputBegin_false (h : iputBegin ic i = .ok (false, ic')) :
    ¬ ((ic i).ref = 1 ∧ (ic i).valid = true ∧ (ic i).di.nlink = 0) ∧
      ic' = Function.update ic i { ic i with ref := (ic i).ref - 1 } := by
  unfold iputBegin at h
  by_cases hfree : (ic i).ref = 1 ∧ (ic i).valid = true ∧ (ic i).di.nlink = 0
  · rw [if_pos hfree] at h
    split_ifs at h
    cases h
  · rw [if_neg hfree] at h
    cases h
    exact ⟨hfree, rfl⟩

end slots

theorem iallocScan_some {tbl : Nat → Dinode} {ninodes inum k : Nat}
    (h : iallocScan tbl ninodes inum = some k) : (tbl k).type = 0 := by
  fun_induction iallocScan tbl ninodes inum with
  | case1 inum hlt h0 =>
    cases h
    exact h0
  | case2 inum hlt h0 ih => exact ih h
  | case3 inum hlt => cases h

/-! ## The invariant -/

/-- No inode is named by two slots with references. -/
def KeysUnique (ic : Icache) : Prop :=
  ∀ i j, i ≠ j → 0 < (ic i).ref → 0 < (ic j).ref → (ic i).key ≠ (ic j).key

/-- A new slot `x` at `i` keeps the names unique if, with references, it names an inode
that no other slot with references names. -/
theorem KeysUnique.update {ic : Icache} (hu : KeysUnique ic) (i : Fin NINODE) (x : ISlot)
    (hx : ∀ j, j ≠ i → 0 < x.ref → 0 < (ic j).ref → (ic j).key ≠ x.key) :
    KeysUnique (Function.update ic i x) := by
  intro j k hjk hj hk
  by_cases hji : j = i
  · subst hji
    have hkj : k ≠ j := Ne.symm hjk
    rw [Function.update_self] at hj ⊢
    rw [Function.update_of_ne hkj] at hk ⊢
    exact (hx k hkj hj hk).symm
  · rw [Function.update_of_ne hji] at hj ⊢
    by_cases hki : k = i
    · subst hki
      rw [Function.update_self] at hk ⊢
      exact hx j hji hk hj
    · rw [Function.update_of_ne hki] at hk ⊢
      exact hu j k hjk hj hk

/-- A slot that keeps its inode, and has references only if it had, keeps the names unique. -/
theorem KeysUnique.update_same {ic : Icache} (hu : KeysUnique ic) (i : Fin NINODE) (x : ISlot)
    (hk : x.key = (ic i).key) (hr : 0 < x.ref → 0 < (ic i).ref) :
    KeysUnique (Function.update ic i x) :=
  hu.update i x fun j hj hx hpos => hk ▸ hu j i hj hpos (hr hx)

/-- What the invariant says of slot `i`: its references are its holders'; `I_BUSY` is
held by one locker or one call of `iput`, and by none when clear; a locker holds a
reference to the slot, which is valid; a call of `iput` holds the reference it drops;
until it writes the free dinode, the inode `iput` frees keeps `I_VALID` and no links;
and a valid slot with references holds its inode's dinode as on disk, with a type, until
`iput` has written it free. -/
structure SlotInv (s : IcSys) (i : Fin NINODE) : Prop where
  held : (s.icache i).ref = Holders.count s.holders i
  busy : Holders.count s.lockers i + (s.iputs i).isSome.toNat = (s.icache i).busy.toNat
  locker : ∀ p, (p, i) ∈ s.lockers → (p, i) ∈ s.holders ∧ (s.icache i).valid = true
  iput : ∀ p ph, s.iputs i = some (p, ph) → (p, i) ∈ s.holders
  trunc : ∀ p, s.iputs i = some (p, .trunc) →
    (s.icache i).valid = true ∧ (s.icache i).di.nlink = 0
  coherent : 0 < (s.icache i).ref → (s.icache i).valid = true →
    (s.iputs i).map Prod.snd ≠ some .finish →
    s.disk (s.icache i).dev (s.icache i).inum = (s.icache i).di ∧ (s.icache i).di.type ≠ 0

structure IcInv (s : IcSys) : Prop where
  unique : KeysUnique s.icache
  slot : ∀ i, SlotInv s i

/-- A slot keeps its part of the invariant through a step that leaves it alone: its
fields, its holders and lockers, its call of `iput`, and its dinode while the invariant
reads it. -/
theorem SlotInv.frame {s s' : IcSys} {i : Fin NINODE} (hs : SlotInv s i)
    (hslot : s'.icache i = s.icache i)
    (hh : Holders.of s'.holders i = Holders.of s.holders i)
    (hl : Holders.of s'.lockers i = Holders.of s.lockers i)
    (hp : s'.iputs i = s.iputs i)
    (hd : 0 < (s.icache i).ref → (s.icache i).valid = true →
      (s.iputs i).map Prod.snd ≠ some .finish →
      s'.disk (s.icache i).dev (s.icache i).inum = s.disk (s.icache i).dev (s.icache i).inum) :
    SlotInv s' i where
  held := by
    rw [hslot, Holders.count_congr hh]
    exact hs.held
  busy := by
    rw [Holders.count_congr hl, hp, hslot]
    exact hs.busy
  locker p hm := by
    rw [Holders.mem_congr hl] at hm
    rw [Holders.mem_congr hh, hslot]
    exact hs.locker p hm
  iput p ph h := by
    rw [hp] at h
    rw [Holders.mem_congr hh]
    exact hs.iput p ph h
  trunc p h := by
    rw [hp] at h
    rw [hslot]
    exact hs.trunc p h
  coherent hr hv hf := by
    rw [hslot] at hr hv ⊢
    rw [hp] at hf
    rw [hd hr hv hf]
    exact hs.coherent hr hv hf

/-- A step from `s` to `s'` that leaves every slot but `i` alone, with its holders,
lockers and call of `iput`, and the dinode of its inode while it has references. -/
structure Touches (s s' : IcSys) (i : Fin NINODE) : Prop where
  icache : ∀ j, j ≠ i → s'.icache j = s.icache j
  holders : ∀ j, j ≠ i → Holders.of s'.holders j = Holders.of s.holders j
  lockers : ∀ j, j ≠ i → Holders.of s'.lockers j = Holders.of s.lockers j
  iputs : ∀ j, j ≠ i → s'.iputs j = s.iputs j
  disk : ∀ j, j ≠ i → 0 < (s.icache j).ref →
    s'.disk (s.icache j).dev (s.icache j).inum = s.disk (s.icache j).dev (s.icache j).inum

theorem IcInv.touch {s s' : IcSys} {i : Fin NINODE} (hi : IcInv s) (ht : Touches s s' i)
    (hu : KeysUnique s'.icache) (hsi : SlotInv s' i) : IcInv s' := by
  refine ⟨hu, fun j => ?_⟩
  by_cases hj : j = i
  · exact hj ▸ hsi
  · exact (hi.slot j).frame (ht.icache j hj) (ht.holders j hj) (ht.lockers j hj) (ht.iputs j hj)
      fun hr _ _ => ht.disk j hj hr

namespace IcInv

variable {s : IcSys} (hi : IcInv s)
include hi

/-! ### What the invariant tells of a slot -/

theorem ref_pos {p : Nat} {i : Fin NINODE} (hm : (p, i) ∈ s.holders) : 0 < (s.icache i).ref := by
  rw [(hi.slot i).held]
  exact Holders.count_pos hm

/-- A slot without references has no holder, locker or call of `iput`, and is not busy. -/
theorem idle {i : Fin NINODE} (h0 : (s.icache i).ref = 0) :
    Holders.count s.holders i = 0 ∧ Holders.count s.lockers i = 0 ∧ s.iputs i = none ∧
      (s.icache i).busy = false := by
  have hh : Holders.count s.holders i = 0 := (hi.slot i).held ▸ h0
  have hl : Holders.count s.lockers i = 0 := Holders.count_eq_zero.mpr fun p hm =>
    Holders.count_eq_zero.mp hh p ((hi.slot i).locker p hm).1
  have hp : s.iputs i = none := by
    cases hq : s.iputs i with
    | none => rfl
    | some q => exact absurd ((hi.slot i).iput q.1 q.2 hq) (Holders.count_eq_zero.mp hh q.1)
  have hb := (hi.slot i).busy
  rw [hl, hp] at hb
  refine ⟨hh, hl, hp, ?_⟩
  cases hbusy : (s.icache i).busy
  · rfl
  · simp [hbusy] at hb

/-- A locked slot is busy, by its one locker, and no call of `iput` is freeing it. -/
theorem locked {p : Nat} {i : Fin NINODE} (hm : (p, i) ∈ s.lockers) :
    (s.icache i).busy = true ∧ Holders.count s.lockers i = 1 ∧ s.iputs i = none := by
  have hc := Holders.count_pos hm
  have hb := (hi.slot i).busy
  cases hbusy : (s.icache i).busy
  · rw [hbusy] at hb
    simp only [Bool.toNat_false] at hb
    omega
  · cases hq : s.iputs i
    · rw [hbusy, hq] at hb
      simp only [Option.isSome_none, Bool.toNat_false, Nat.add_zero, Bool.toNat_true] at hb
      exact ⟨rfl, hb, rfl⟩
    · rw [hbusy, hq] at hb
      simp only [Option.isSome_some, Bool.toNat_true] at hb
      omega

/-- A slot a call of `iput` is freeing is busy, and has no locker. -/
theorem putting {p : Nat} {ph : IputPhase} {i : Fin NINODE} (hq : s.iputs i = some (p, ph)) :
    (s.icache i).busy = true ∧ Holders.count s.lockers i = 0 := by
  have hb := (hi.slot i).busy
  rw [hq] at hb
  simp only [Option.isSome_some, Bool.toNat_true] at hb
  cases hbusy : (s.icache i).busy
  · rw [hbusy] at hb
    simp at hb
  · rw [hbusy] at hb
    simp only [Bool.toNat_true] at hb
    exact ⟨rfl, by omega⟩

/-- A slot not busy has no locker and no call of `iput`. -/
theorem unbusy {i : Fin NINODE} (hb : (s.icache i).busy = false) :
    Holders.count s.lockers i = 0 ∧ s.iputs i = none := by
  have h := (hi.slot i).busy
  rw [hb, Bool.toNat_false] at h
  refine ⟨by omega, ?_⟩
  cases hq : s.iputs i
  · rfl
  · rw [hq] at h
    simp at h

/-- The inode of a slot `iput` is freeing is on disk as the slot holds it, with a type
and no links. -/
theorem trunc_disk {p : Nat} {i : Fin NINODE} (hq : s.iputs i = some (p, .trunc)) :
    s.disk (s.icache i).dev (s.icache i).inum = (s.icache i).di ∧ (s.icache i).di.type ≠ 0 ∧
      (s.icache i).di.nlink = 0 := by
  obtain ⟨hv, hn⟩ := (hi.slot i).trunc p hq
  have hc := (hi.slot i).coherent (hi.ref_pos ((hi.slot i).iput p _ hq)) hv (by simp [hq])
  exact ⟨hc.1, hc.2, hn⟩

/-! ### Each step keeps the invariant -/

/-- One more reference to a slot with references. -/
theorem addRef (p : Nat) {i : Fin NINODE} (hpos : 0 < (s.icache i).ref) :
    IcInv { s with
      icache := Function.update s.icache i { s.icache i with ref := (s.icache i).ref + 1 },
      holders := (p, i) :: s.holders } := by
  have hsi := hi.slot i
  refine hi.touch ⟨fun j hj => Function.update_of_ne hj _ _,
    fun j hj => Holders.of_cons_of_ne p (Ne.symm hj) _, fun _ _ => rfl, fun _ _ => rfl,
    fun _ _ _ => rfl⟩ (hi.unique.update_same i _ rfl fun _ => hpos) ?_
  refine ⟨?_, ?_, fun q hq => ?_, fun q ph hq => ?_, fun q hq => ?_, ?_⟩ <;>
    simp only [Function.update_self]
  · rw [Holders.count_cons_self, hsi.held]
  · exact hsi.busy
  · exact ⟨List.mem_cons_of_mem _ (hsi.locker q hq).1, (hsi.locker q hq).2⟩
  · exact List.mem_cons_of_mem _ (hsi.iput q ph hq)
  · exact hsi.trunc q hq
  · exact fun _ hv hf => hsi.coherent hpos hv hf

/-- `iget` takes over a slot without references for an inode no slot with references
names. -/
theorem takeOver (p : Nat) {i : Fin NINODE} {dev inum : Nat} (h0 : (s.icache i).ref = 0)
    (hfresh : ∀ j, 0 < (s.icache j).ref → (s.icache j).key ≠ (dev, inum)) :
    IcInv { s with
      icache := Function.update s.icache i
        { s.icache i with dev := dev, inum := inum, ref := 1, busy := false, valid := false },
      holders := (p, i) :: s.holders } := by
  obtain ⟨hh, hl, hp, -⟩ := hi.idle h0
  refine hi.touch ⟨fun j hj => Function.update_of_ne hj _ _,
    fun j hj => Holders.of_cons_of_ne p (Ne.symm hj) _, fun _ _ => rfl, fun _ _ => rfl,
    fun _ _ _ => rfl⟩ (hi.unique.update i _ fun j _ _ hpos => hfresh j hpos) ?_
  refine ⟨?_, ?_, fun q hq => absurd hq (Holders.count_eq_zero.mp hl q), fun q ph hq => ?_,
    fun q hq => ?_, ?_⟩ <;> simp only [Function.update_self]
  · rw [Holders.count_cons_self, hh]
  · rw [hl, hp]
    rfl
  · simp [hp] at hq
  · simp [hp] at hq
  · simp

theorem get (p : Nat) {dev inum : Nat} {ic : Icache} {i : Fin NINODE}
    (h : iget s.icache dev inum = .ok (ic, i)) :
    IcInv { s with icache := ic, holders := (p, i) :: s.holders } := by
  rcases iget_cases h with ⟨hpos, -, rfl⟩ | ⟨h0, hfresh, rfl⟩
  · exact hi.addRef p hpos
  · exact hi.takeOver p h0 hfresh

/-- Any dinode may be written where the disk holds a free one: no valid slot with
references holds it. -/
theorem setFree {dev inum : Nat} (h0 : (s.disk dev inum).type = 0) (di : Dinode) :
    IcInv { s with disk := s.disk.set dev inum di } := by
  refine ⟨hi.unique, fun j => (hi.slot j).frame rfl rfl rfl rfl fun hr hv hf => ?_⟩
  apply Dinodes.set_of_ne
  intro hk
  have hc := (hi.slot j).coherent hr hv hf
  simp only [Prod.mk.injEq] at hk
  rw [hk.1, hk.2] at hc
  exact hc.2 (hc.1 ▸ h0)

theorem lock {p : Nat} {i : Fin NINODE} {ic : Icache} (hh : s.Holds p i)
    (h : ilock s.icache s.disk i = .ok (some ic)) :
    IcInv { s with icache := ic, lockers := (p, i) :: s.lockers } := by
  have hsi := hi.slot i
  obtain ⟨hb, di, rfl, hdi⟩ := ilock_some h
  obtain ⟨hl, hp⟩ := hi.unbusy hb
  refine hi.touch ⟨fun j hj => Function.update_of_ne hj _ _, fun _ _ => rfl,
    fun j hj => Holders.of_cons_of_ne p (Ne.symm hj) _, fun _ _ => rfl, fun _ _ _ => rfl⟩
    (hi.unique.update_same i _ rfl id) ?_
  refine ⟨?_, ?_, fun q hq => ?_, fun q ph hq => ?_, fun q hq => ?_, ?_⟩ <;>
    simp only [Function.update_self]
  · exact hsi.held
  · rw [Holders.count_cons_self, hl, hp]
    rfl
  · rcases List.mem_cons.mp hq with hq | hq
    · simp only [Prod.mk.injEq, and_true] at hq
      exact ⟨hq ▸ hh.1, trivial⟩
    · exact ⟨(hsi.locker q hq).1, trivial⟩
  · simp [hp] at hq
  · simp [hp] at hq
  · -- the dinode is the one the slot held while valid, or the one read from disk
    intro hr _ _
    rcases hdi with ⟨hv, rfl⟩ | ⟨rfl, ht⟩
    · exact hsi.coherent hr hv (by simp [hp])
    · exact ⟨rfl, ht⟩

theorem update {p : Nat} {i : Fin NINODE} {di : Dinode} (hm : (p, i) ∈ s.lockers)
    (ht : di.type = (s.icache i).di.type) :
    IcInv { s with
      icache := Function.update s.icache i { s.icache i with di := di },
      disk := s.disk.set (s.icache i).dev (s.icache i).inum di } := by
  have hsi := hi.slot i
  obtain ⟨hheld, hv⟩ := hsi.locker p hm
  obtain ⟨-, -, hp⟩ := hi.locked hm
  have hpos := hi.ref_pos hheld
  refine hi.touch ⟨fun j hj => Function.update_of_ne hj _ _, fun _ _ => rfl, fun _ _ => rfl,
    fun _ _ => rfl, fun j hj hj' => Dinodes.set_of_ne _ _ (hi.unique j i hj hj' hpos)⟩
    (hi.unique.update_same i _ rfl id) ?_
  refine ⟨?_, ?_, fun q hq => ?_, fun q ph hq => ?_, fun q hq => ?_, ?_⟩ <;>
    simp only [Function.update_self]
  · exact hsi.held
  · exact hsi.busy
  · exact hsi.locker q hq
  · exact hsi.iput q ph hq
  · simp [hp] at hq
  · intro _ _ _
    refine ⟨Dinodes.set_self _ _ _ _, ?_⟩
    rw [ht]
    exact (hsi.coherent hpos hv (by simp [hp])).2

theorem unlock {p : Nat} {i : Fin NINODE} {ic : Icache} (hm : (p, i) ∈ s.lockers)
    (h : iunlock s.icache i = .ok ic) :
    IcInv { s with icache := ic, lockers := s.lockers.erase (p, i) } := by
  have hsi := hi.slot i
  obtain ⟨-, hone, hp⟩ := hi.locked hm
  obtain ⟨-, rfl⟩ := iunlock_ok h
  refine hi.touch ⟨fun j hj => Function.update_of_ne hj _ _, fun _ _ => rfl,
    fun j hj => Holders.of_erase_of_ne p (Ne.symm hj) _, fun _ _ => rfl, fun _ _ _ => rfl⟩
    (hi.unique.update_same i _ rfl id) ?_
  refine ⟨?_, ?_, fun q hq => ?_, fun q ph hq => ?_, fun q hq => ?_, ?_⟩ <;>
    simp only [Function.update_self]
  · exact hsi.held
  · have := Holders.count_erase hm
    rw [hp]
    simp only [Option.isSome_none, Bool.toNat_false]
    omega
  · exact hsi.locker q (List.mem_of_mem_erase hq)
  · exact hsi.iput q ph hq
  · simp [hp] at hq
  · exact hsi.coherent

theorem putFree {p : Nat} {i : Fin NINODE} {ic : Icache} (hh : s.Holds p i)
    (h : iputBegin s.icache i = .ok (true, ic)) :
    IcInv { s with icache := ic, iputs := Function.update s.iputs i (some (p, .trunc)) } := by
  have hsi := hi.slot i
  obtain ⟨-, hv, hn, hb, rfl⟩ := iputBegin_true h
  obtain ⟨hl, hp⟩ := hi.unbusy hb
  refine hi.touch ⟨fun j hj => Function.update_of_ne hj _ _, fun _ _ => rfl, fun _ _ => rfl,
    fun j hj => Function.update_of_ne hj _ _, fun _ _ _ => rfl⟩
    (hi.unique.update_same i _ rfl id) ?_
  refine ⟨?_, ?_, fun q hq => absurd hq (Holders.count_eq_zero.mp hl q), fun q ph hq => ?_,
    fun q _ => ?_, ?_⟩ <;> simp only [Function.update_self]
  · exact hsi.held
  · rw [hl]
    rfl
  · simp only [Function.update_self, Option.some.injEq, Prod.mk.injEq] at hq
    exact hq.1 ▸ hh.1
  · exact ⟨hv, hn⟩
  · exact fun hr hv' _ => hsi.coherent hr hv' (by simp [hp])

theorem putDrop {p : Nat} {i : Fin NINODE} {ic : Icache} (hh : s.Holds p i)
    (hnl : (p, i) ∉ s.lockers) (h : iputBegin s.icache i = .ok (false, ic)) :
    IcInv { s with icache := ic, holders := s.holders.erase (p, i) } := by
  have hsi := hi.slot i
  obtain ⟨-, rfl⟩ := iputBegin_false h
  have herase := Holders.count_erase hh.1
  refine hi.touch ⟨fun j hj => Function.update_of_ne hj _ _,
    fun j hj => Holders.of_erase_of_ne p (Ne.symm hj) _, fun _ _ => rfl, fun _ _ => rfl,
    fun _ _ _ => rfl⟩ (hi.unique.update_same i _ rfl fun hx => Nat.lt_of_lt_of_le hx (Nat.sub_le _ _)) ?_
  refine ⟨?_, ?_, fun q hq => ?_, fun q ph hq => ?_, fun q hq => ?_, ?_⟩ <;>
    simp only [Function.update_self]
  · rw [hsi.held]
    omega
  · exact hsi.busy
  · -- a locker is not the caller, who holds its reference unlocked
    have hne : (q, i) ≠ (p, i) := fun he => hnl (he ▸ hq)
    exact ⟨(List.mem_erase_of_ne hne).mpr (hsi.locker q hq).1, (hsi.locker q hq).2⟩
  · have hq' : s.iputs i = some (q, ph) := hq
    have hne : (q, i) ≠ (p, i) := fun he => hh.2 (by rw [hq', (Prod.mk.inj he).1]; rfl)
    exact (List.mem_erase_of_ne hne).mpr (hsi.iput q ph hq')
  · exact hsi.trunc q hq
  · exact fun hr => hsi.coherent (by omega)

theorem trunc {p : Nat} {i : Fin NINODE} (hq : s.iputs i = some (p, .trunc)) :
    IcInv { s with
      icache := Function.update s.icache i { s.icache i with di := (s.icache i).di.freed },
      disk := s.disk.set (s.icache i).dev (s.icache i).inum (s.icache i).di.freed,
      iputs := Function.update s.iputs i (some (p, .finish)) } := by
  have hsi := hi.slot i
  have hpos : 0 < (s.icache i).ref := hi.ref_pos (hsi.iput p _ hq)
  refine hi.touch ⟨fun j hj => Function.update_of_ne hj _ _, fun _ _ => rfl, fun _ _ => rfl,
    fun j hj => Function.update_of_ne hj _ _,
    fun j hj hj' => Dinodes.set_of_ne _ _ (hi.unique j i hj hj' hpos)⟩
    (hi.unique.update_same i _ rfl id) ?_
  refine ⟨?_, ?_, fun q hq' => ?_, fun q ph hq' => ?_, fun q hq' => ?_, ?_⟩ <;>
    simp only [Function.update_self]
  · exact hsi.held
  · rw [← hsi.busy, hq]
    rfl
  · exact hsi.locker q hq'
  · simp only [Function.update_self, Option.some.injEq, Prod.mk.injEq] at hq'
    exact hq'.1 ▸ hsi.iput p _ hq
  · simp at hq'
  · simp

theorem putEnd {p : Nat} {i : Fin NINODE} (hq : s.iputs i = some (p, .finish)) :
    IcInv { s with
      icache := iputEnd s.icache i, holders := s.holders.erase (p, i),
      iputs := Function.update s.iputs i none } := by
  have hsi := hi.slot i
  obtain ⟨-, hl⟩ := hi.putting hq
  have herase := Holders.count_erase (hsi.iput p _ hq)
  refine hi.touch ⟨fun j hj => Function.update_of_ne hj _ _,
    fun j hj => Holders.of_erase_of_ne p (Ne.symm hj) _, fun _ _ => rfl,
    fun j hj => Function.update_of_ne hj _ _, fun _ _ _ => rfl⟩
    (hi.unique.update_same i _ rfl fun hx => Nat.lt_of_lt_of_le hx (Nat.sub_le _ _)) ?_
  refine ⟨?_, ?_, fun q hq' => absurd hq' (Holders.count_eq_zero.mp hl q), fun q ph hq' => ?_,
    fun q hq' => ?_, ?_⟩ <;> simp only [iputEnd, Function.update_self]
  · rw [hsi.held]
    omega
  · rw [hl]
    rfl
  · simp at hq'
  · simp at hq'
  · simp

theorem step {ninodes : Nat → Nat} {s' : IcSys} (h : IcStep ninodes s s') : IcInv s' := by
  cases h with
  | get hg => exact hi.get _ hg
  | alloc hscan hg => exact (hi.setFree (iallocScan_some hscan) _).get _ hg
  | dup hh => exact hi.addRef _ (hi.ref_pos hh.1)
  | sleep => exact hi
  | lock hh _ hl => exact hi.lock hh hl
  | update hm ht => exact hi.update hm ht
  | unlock hm hu => exact hi.unlock hm hu
  | putFree hh _ hb => exact hi.putFree hh hb
  | putDrop hh hnl hb => exact hi.putDrop hh hnl hb
  | trunc hq => exact hi.trunc hq
  | putEnd hq => exact hi.putEnd hq

/-! ### What a step does to the slots and the disk -/

/-- A step keeps the inode of every slot, and gives references to none that had none,
but where `iget` takes over a slot without references: for an inode that no slot with
references names, with `I_VALID` cleared. -/
theorem recycle {ninodes : Nat → Nat} {s' : IcSys} (h : IcStep ninodes s s') (i : Fin NINODE) :
    ((s'.icache i).key = (s.icache i).key ∧ ((s.icache i).ref = 0 → (s'.icache i).ref = 0)) ∨
    ((s.icache i).ref = 0 ∧ (∀ j, 0 < (s.icache j).ref → (s.icache j).key ≠ (s'.icache i).key) ∧
      (s'.icache i).valid = false) := by
  -- a new slot `x` at `k` that keeps the inode, and has references only if it had
  have keep : ∀ (k : Fin NINODE) (x : ISlot), x.key = (s.icache k).key →
      ((s.icache k).ref = 0 → x.ref = 0) →
      (Function.update s.icache k x i).key = (s.icache i).key ∧
        ((s.icache i).ref = 0 → (Function.update s.icache k x i).ref = 0) := fun k x hk hr => by
    by_cases hik : i = k
    · subst hik
      rw [Function.update_self]
      exact ⟨hk, hr⟩
    · rw [Function.update_of_ne hik]
      exact ⟨rfl, id⟩
  -- `iget`, in `get` and in `alloc`
  have got : ∀ {dev inum : Nat} {ic : Icache} {k : Fin NINODE},
      iget s.icache dev inum = .ok (ic, k) →
      ((ic i).key = (s.icache i).key ∧ ((s.icache i).ref = 0 → (ic i).ref = 0)) ∨
      ((s.icache i).ref = 0 ∧ (∀ j, 0 < (s.icache j).ref → (s.icache j).key ≠ (ic i).key) ∧
        (ic i).valid = false) := fun hg => by
    rcases iget_cases hg with ⟨hpos, -, rfl⟩ | ⟨h0, hfresh, rfl⟩
    · exact .inl (keep _ _ rfl fun h0 => absurd h0 (Nat.pos_iff_ne_zero.mp hpos))
    · rename_i k
      by_cases hik : i = k
      · subst hik
        rw [Function.update_self]
        exact .inr ⟨h0, hfresh, rfl⟩
      · rw [Function.update_of_ne hik]
        exact .inl ⟨rfl, id⟩
  cases h with
  | get hg => exact got hg
  | alloc _ hg => exact got hg
  | dup hh => exact .inl (keep _ _ rfl fun h0 => absurd h0 (Nat.pos_iff_ne_zero.mp (hi.ref_pos hh.1)))
  | sleep => exact .inl ⟨rfl, id⟩
  | lock _ _ hl =>
    obtain ⟨-, di, rfl, -⟩ := ilock_some hl
    exact .inl (keep _ _ rfl id)
  | update _ _ => exact .inl (keep _ _ rfl id)
  | unlock _ hu =>
    obtain ⟨-, rfl⟩ := iunlock_ok hu
    exact .inl (keep _ _ rfl id)
  | putFree _ _ hb =>
    obtain ⟨-, -, -, -, rfl⟩ := iputBegin_true hb
    exact .inl (keep _ _ rfl id)
  | putDrop _ _ hb =>
    obtain ⟨-, rfl⟩ := iputBegin_false hb
    exact .inl (keep _ _ rfl fun h0 => by simp [h0])
  | trunc _ => exact .inl (keep _ _ rfl id)
  | putEnd _ => exact .inl (keep _ _ rfl fun h0 => by simp [h0])

omit hi in
/-- A call of `iput` starts freeing a slot only when it has one reference, `I_VALID` and
no links. -/
theorem enters_trunc {ninodes : Nat → Nat} {s' : IcSys} (h : IcStep ninodes s s') {i : Fin NINODE}
    {p : Nat} (h' : s'.iputs i = some (p, .trunc)) (hne : s.iputs i ≠ some (p, .trunc)) :
    (s.icache i).ref = 1 ∧ (s.icache i).valid = true ∧ (s.icache i).di.nlink = 0 := by
  cases h with
  | @putFree q k _ _ _ hb =>
    by_cases hik : i = k
    · subst hik
      obtain ⟨h1, hv, hn, -⟩ := iputBegin_true hb
      exact ⟨h1, hv, hn⟩
    · simp only [Function.update_of_ne hik] at h'
      exact absurd h' hne
  | @trunc q k _ =>
    by_cases hik : i = k
    · subst hik
      simp at h'
    · simp only [Function.update_of_ne hik] at h'
      exact absurd h' hne
  | @putEnd q k _ =>
    by_cases hik : i = k
    · subst hik
      simp at h'
    · simp only [Function.update_of_ne hik] at h'
      exact absurd h' hne
  | get => exact absurd h' hne
  | alloc => exact absurd h' hne
  | dup => exact absurd h' hne
  | sleep => exact absurd h' hne
  | lock => exact absurd h' hne
  | update => exact absurd h' hne
  | unlock => exact absurd h' hne
  | putDrop => exact absurd h' hne

/-- A step frees an inode on disk only where a call of `iput` frees a slot of it, valid
and with no links. -/
theorem frees {ninodes : Nat → Nat} {s' : IcSys} (h : IcStep ninodes s s') {dev inum : Nat}
    (h1 : (s.disk dev inum).type ≠ 0) (h2 : (s'.disk dev inum).type = 0) :
    ∃ i p, (s.icache i).key = (dev, inum) ∧ s.iputs i = some (p, .trunc) ∧
      (s.icache i).valid = true ∧ (s.icache i).di.nlink = 0 := by
  cases h with
  | alloc hscan _ =>
    -- `ialloc` writes where the disk holds a free dinode
    rename_i dev' inum' _ _ _ _
    dsimp only at h2
    by_cases hk : (dev, inum) = (dev', inum')
    · simp only [Prod.mk.injEq] at hk
      rw [hk.1, hk.2] at h1
      exact absurd (iallocScan_some hscan) h1
    · rw [Dinodes.set_of_ne _ _ hk] at h2
      exact absurd h2 h1
  | update hm ht =>
    -- `iupdate` writes a dinode of the type the disk holds
    rename_i p i di
    dsimp only at h2
    obtain ⟨hheld, hv⟩ := (hi.slot i).locker p hm
    obtain ⟨-, -, hp⟩ := hi.locked hm
    by_cases hk : (dev, inum) = (s.icache i).key
    · have hc := (hi.slot i).coherent (hi.ref_pos hheld) hv (by simp [hp])
      simp only [ISlot.key, Prod.mk.injEq] at hk
      simp only [hk.1, hk.2, Dinodes.set_self] at h2
      rw [hk.1, hk.2, hc.1] at h1
      exact absurd (ht ▸ h2) h1
    · rw [Dinodes.set_of_ne _ _ hk] at h2
      exact absurd h2 h1
  | trunc hq =>
    rename_i p i
    dsimp only at h2
    by_cases hk : (dev, inum) = (s.icache i).key
    · exact ⟨i, p, hk.symm, hq, (hi.slot i).trunc p hq⟩
    · rw [Dinodes.set_of_ne _ _ hk] at h2
      exact absurd h2 h1
  | get => exact absurd h2 h1
  | dup => exact absurd h2 h1
  | sleep => exact absurd h2 h1
  | lock => exact absurd h2 h1
  | unlock => exact absurd h2 h1
  | putFree => exact absurd h2 h1
  | putDrop => exact absurd h2 h1
  | putEnd => exact absurd h2 h1

end IcInv

theorem IcInv.init {s : IcSys} (h : IcInit s) : IcInv s := by
  obtain ⟨hslots, hh, hl, hp⟩ := h
  refine ⟨fun i _ _ hi _ => absurd (hslots i).1 (Nat.pos_iff_ne_zero.mp hi), fun i => ?_⟩
  refine ⟨?_, ?_, fun q hq => ?_, fun q ph hq => ?_, fun q hq => ?_, fun hr => ?_⟩
  · rw [(hslots i).1, hh]
    rfl
  · rw [hl, hp, (hslots i).2]
    rfl
  · simp [hl] at hq
  · simp [hp] at hq
  · simp [hp] at hq
  · exact absurd (hslots i).1 (Nat.pos_iff_ne_zero.mp hr)

theorem IcInv.reachable {ninodes : Nat → Nat} {s : IcSys} (h : IcReachable ninodes s) :
    IcInv s := by
  exact Reach.Reachable.invariant (fun t (h0 : IcInit t) => IcInv.init h0)
    (fun _ _ _ (hi : IcInv _) hs => hi.step (icStep_of_icNext hs)) h

/-- A booting kernel whose disk holds directory `p` with one link. -/
def IcSys.boot : IcSys :=
  ⟨fun _ => ⟨0, 0, 0, false, false, Dinode.blank 0⟩,
    fun dev inum => if dev = 1 ∧ inum = 5 then { Dinode.blank T_DIR with nlink := 1 }
      else Dinode.blank 0,
    [], [], fun _ => none⟩

theorem IcSys.boot_init : IcInit IcSys.boot :=
  ⟨fun _ => ⟨rfl, rfl⟩, rfl, rfl, fun _ => rfl⟩

/-- Process 1's `unlink` of `p` up to the freeing, then process 2's `iget` of `p`. -/
def unlinkRace : List IcCall :=
  [.iget 1 1 5, .ilock 1 0, .iupdate 1 0 { Dinode.blank T_DIR with nlink := 0 }, .iunlock 1 0,
    .iput 1 0, .iget 2 1 5]

end Xv6
