import Xv6.Sys.File

/-!
# Processes that share a file's offset

A `struct file` that `fork` or `dup` shares is read and written by several processes
through one offset `f->off`. On an `FD_INODE` file, `fileread` and `filewrite` in
`file.c` are

    ilock(f->ip);
    if((r = readi(f->ip, addr, f->off, n)) > 0)      (or writei)
      f->off += r;
    iunlock(f->ip);

and each line is a step of the calling process here: the call, which returns `-1` at
once when the file was not opened for it; `ilock`, which waits while the inode is
`I_BUSY` and then marks it; the transfer at the offset the line reads; the advance; and
`iunlock`. `readi` and `writei` may sleep on the disk between blocks, but nothing else
touches the inode or the offset meanwhile, since every other call on them waits in
`ilock`: the transfer is one step.

The processes take their steps in any interleaving. Ghost state keeps the transfers in
the order they ran (`log`) and the file's contents when `sys_open` made the struct file,
at offset 0 (`start`).
-/

namespace Xv6

/-- A call on the shared file: `fileread` of `n` bytes, or `filewrite` of `n` bytes from
the caller's buffer `src`. -/
inductive OffCall where
  | read (n : Int32)
  | write (src : Nat → UInt8) (n : Int32)

/-- Where a process stands in its call: waiting in `ilock`, holding the inode before
the transfer, after the transfer that returned `r`, after the advance. -/
inductive OffPhase where
  | idle
  | waiting (c : OffCall)
  | locked (c : OffCall)
  | moved (r : Int32)
  | advanced (r : Int32)

/-- Whether the process holds the inode, between `ilock` and `iunlock`. -/
def OffPhase.holds : OffPhase → Bool
  | .locked _ | .moved _ | .advanced _ => true
  | _ => false

/-- A transfer as it ran: whether it wrote, the offset it ran at, what `readi` or
`writei` returned, and the bytes it moved. -/
structure Xfer where
  write : Bool
  off : Nat
  r : Int32
  bytes : List UInt8

/-- The disk, the shared struct file, the holder of the inode's `I_BUSY`, each process's
call, and the ghost state. -/
structure OffSys where
  disk : Disk
  file : File
  busy : Option Nat
  phase : Nat → OffPhase
  log : List Xfer
  start : List UInt8

inductive OffEvent where
  | call (p : Nat) (c : OffCall)
  | lock (p : Nat)
  | transfer (p : Nat)
  | advance (p : Nat)
  | unlock (p : Nat)

/-- `f->readable` for a read, `f->writable` for a write. -/
def OffCall.allowed (f : File) : OffCall → Bool
  | .read _ => f.readable
  | .write _ _ => f.writable

/-- The bytes `filewrite` stored when `writei` returned `r`. -/
def stored (src : Nat → UInt8) (r : Int32) : List UInt8 := (List.range r.toNatClampNeg).map src

/-- `readi` or `writei` at the file's offset, with `n` as an unsigned count: the disk
after it, and the transfer. -/
def OffCall.transfer (devsw : Nat → Devsw) (d : Disk) (f : File) :
    OffCall → Except String (Disk × Xfer)
  | .read n => do
    let (_, _, r, bytes) ← readi devsw d (Inode.load d f.inum) f.off n.toUInt32
    pure (d, ⟨false, f.off.toNat, r, bytes⟩)
  | .write src n => do
    let (d', _, r) ← writei devsw d (Inode.load d f.inum) src f.off n.toUInt32
    pure (d', ⟨true, f.off.toNat, r, stored src r⟩)

/-- `f->off += r` when `r > 0`. -/
def advanceOff (f : File) (r : Int32) : File :=
  if r > 0 then { f with off := f.off + r.toUInt32 } else f

/-- One step of process `p`. A step the process cannot take now (`ilock` on a busy
inode, a step out of order) and a panic are refused. -/
def offNext (devsw : Nat → Devsw) (s : OffSys) : OffEvent → Option OffSys
  | .call p c =>
    match s.phase p with
    | .idle =>
      if c.allowed s.file then some { s with phase := Function.update s.phase p (.waiting c) }
      else some s
    | _ => none
  | .lock p =>
    match s.phase p, s.busy with
    | .waiting c, none =>
      some { s with busy := some p, phase := Function.update s.phase p (.locked c) }
    | _, _ => none
  | .transfer p =>
    match s.phase p with
    | .locked c =>
      match c.transfer devsw s.disk s.file with
      | .ok (d, x) => some { s with
          disk := d, phase := Function.update s.phase p (.moved x.r), log := s.log ++ [x] }
      | .error _ => none
    | _ => none
  | .advance p =>
    match s.phase p with
    | .moved r =>
      some { s with file := advanceOff s.file r, phase := Function.update s.phase p (.advanced r) }
    | _ => none
  | .unlock p =>
    match s.phase p with
    | .advanced _ => some { s with busy := none, phase := Function.update s.phase p .idle }
    | _ => none

/-- The struct file as `sys_open` leaves it: on an allocated inode that is not a device,
at offset 0, unlocked, with no call under way. -/
def OffInit (s : OffSys) : Prop :=
  FsInv s.disk ∧ Live (readsb s.disk) (dinodeAt s.disk) s.file.inum ∧
    (dinodeAt s.disk s.file.inum).type ≠ T_DEV ∧ s.file.off = 0 ∧ s.busy = none ∧
    (∀ p, s.phase p = .idle) ∧ s.log = [] ∧
    s.start = contents s.disk (dinodeAt s.disk s.file.inum)

def OffReachable (devsw : Nat → Devsw) : OffSys → Prop :=
  Reach.Reachable OffInit (Reach.stepOf (offNext devsw))

/-- The ways through `offNext`, one constructor each; `refused` is a call on a file not
opened for it, which returns `-1` and changes nothing. -/
inductive OffStep (devsw : Nat → Devsw) (s : OffSys) : OffSys → Prop where
  | refused : OffStep devsw s s
  | call {p : Nat} {c : OffCall} : s.phase p = .idle → c.allowed s.file = true →
      OffStep devsw s { s with phase := Function.update s.phase p (.waiting c) }
  | lock {p : Nat} {c : OffCall} : s.phase p = .waiting c → s.busy = none →
      OffStep devsw s { s with busy := some p, phase := Function.update s.phase p (.locked c) }
  | transfer {p : Nat} {c : OffCall} {d : Disk} {x : Xfer} : s.phase p = .locked c →
      c.transfer devsw s.disk s.file = .ok (d, x) →
      OffStep devsw s { s with
        disk := d, phase := Function.update s.phase p (.moved x.r), log := s.log ++ [x] }
  | advance {p : Nat} {r : Int32} : s.phase p = .moved r →
      OffStep devsw s
        { s with file := advanceOff s.file r, phase := Function.update s.phase p (.advanced r) }
  | unlock {p : Nat} {r : Int32} : s.phase p = .advanced r →
      OffStep devsw s { s with busy := none, phase := Function.update s.phase p .idle }

theorem offStep_of_offNext {devsw : Nat → Devsw} {s s' : OffSys} {e : OffEvent}
    (h : offNext devsw s e = some s') : OffStep devsw s s' := by
  cases e with
  | call p c =>
    simp only [offNext] at h
    split at h
    · rename_i hp
      split at h
      · rename_i ha
        cases h
        exact .call hp ha
      · cases h
        exact .refused
    · cases h
  | lock p =>
    simp only [offNext] at h
    split at h
    · rename_i c hp hb
      cases h
      exact .lock hp hb
    · cases h
  | transfer p =>
    simp only [offNext] at h
    split at h
    · rename_i c hp
      split at h
      · rename_i d x hx
        cases h
        exact .transfer hp hx
      · cases h
    · cases h
  | advance p =>
    simp only [offNext] at h
    split at h
    · rename_i r hp
      cases h
      exact .advance hp
    · cases h
  | unlock p =>
    simp only [offNext] at h
    split at h
    · rename_i r hp
      cases h
      exact .unlock hp
    · cases h

/-! ## Transfers laid end to end -/

namespace Xfer

/-- The bytes the transfers moved, in all. -/
def total (l : List Xfer) : Nat := (l.map fun x => x.bytes.length).sum

@[simp] theorem total_nil : total [] = 0 := rfl

@[simp] theorem total_append (l l' : List Xfer) : total (l ++ l') = total l + total l' := by
  simp [total]

@[simp] theorem total_singleton (x : Xfer) : total [x] = x.bytes.length := by
  simp [total]

theorem length_flatten (l : List Xfer) : (l.map Xfer.bytes).flatten.length = total l := by
  simp [total, List.length_flatten, Function.comp_def]

/-- The transfers lie end to end from offset `o`: each starts where the one before it
ended. -/
def Chained : Nat → List Xfer → Prop
  | _, [] => True
  | o, x :: xs => x.off = o ∧ Chained (o + x.bytes.length) xs

theorem chained_append : ∀ (o : Nat) (l : List Xfer) (x : Xfer),
    Chained o (l ++ [x]) ↔ Chained o l ∧ x.off = o + total l
  | o, [], x => by simp [Chained]
  | o, y :: l, x => by
    simp only [List.cons_append, Chained, chained_append (o + y.bytes.length) l x, total,
      List.map_cons, List.sum_cons]
    constructor
    · rintro ⟨hy, hl, hx⟩
      exact ⟨⟨hy, hl⟩, by rw [hx]; omega⟩
    · rintro ⟨⟨hy, hl⟩, hx⟩
      exact ⟨hy, hl, by rw [hx]; omega⟩

theorem Chained.le_off : ∀ {o : Nat} {l : List Xfer}, Chained o l → ∀ y ∈ l, o ≤ y.off
  | _, [], _, _, hy => absurd hy List.not_mem_nil
  | o, x :: xs, ⟨hx, hxs⟩, y, hy => by
    rcases List.mem_cons.mp hy with rfl | hy
    · exact hx.ge
    · have := hxs.le_off y hy
      omega

/-- Transfers laid end to end are in order: each ends before every later one starts, so
no two of them share a byte. -/
theorem Chained.ordered : ∀ {o : Nat} {l : List Xfer}, Chained o l →
    l.Pairwise fun x y => x.off + x.bytes.length ≤ y.off
  | _, [], _ => List.Pairwise.nil
  | o, x :: xs, ⟨hx, hxs⟩ => by
    refine List.Pairwise.cons (fun y hy => ?_) hxs.ordered
    rw [hx]
    exact hxs.le_off y hy

end Xfer

/-! ## One transfer -/

section transfer

variable (devsw : Nat → Devsw) {d : Disk} (hinv : FsInv d) {f : File}
  (hi : Live (readsb d) (dinodeAt d) f.inum) (hdev : (dinodeAt d f.inum).type ≠ T_DEV)

@[simp] theorem stored_length (src : Nat → UInt8) (r : Int32) :
    (stored src r).length = r.toNatClampNeg := by
  simp [stored]

include hinv hi hdev in
/-- A transfer at the file's offset on a live non-device inode: the invariant stays,
and the transfer's bytes replace those of its range; a read moves the bytes that were
there. -/
theorem OffCall.transfer_spec {c : OffCall} {d' : Disk} {x : Xfer}
    (h : c.transfer devsw d f = .ok (d', x)) :
    x.off = f.off.toNat ∧ x.bytes.length = x.r.toNatClampNeg ∧ FsInv d' ∧
      Live (readsb d') (dinodeAt d') f.inum ∧
      (dinodeAt d' f.inum).type = (dinodeAt d f.inum).type ∧
      contents d' (dinodeAt d' f.inum) = (contents d (dinodeAt d f.inum)).take f.off.toNat ++
        x.bytes ++ (contents d (dinodeAt d f.inum)).drop (f.off.toNat + x.bytes.length) ∧
      (x.write = false →
        x.bytes = ((contents d (dinodeAt d f.inum)).drop f.off.toNat).take x.bytes.length) := by
  cases c with
  | read n =>
    obtain ⟨hbad, hgood⟩ := readi_spec devsw hinv hi hdev f.off n.toUInt32
    by_cases hb : (dinodeAt d f.inum).size.toNat < f.off.toNat ∨
        2 ^ 32 ≤ f.off.toNat + n.toUInt32.toNat
    · -- a bad offset: `-1` and no byte
      simp only [OffCall.transfer, hbad hb, bind, Except.bind, pure, Except.pure,
        Except.ok.injEq, Prod.mk.injEq] at h
      obtain ⟨rfl, rfl⟩ := h
      refine ⟨rfl, rfl, hinv, hi, rfl, ?_, fun _ => rfl⟩
      simp
    · obtain ⟨r, hr, hrm⟩ := hgood hb
      simp only [OffCall.transfer, hr, bind, Except.bind, pure, Except.pure,
        Except.ok.injEq, Prod.mk.injEq] at h
      obtain ⟨rfl, rfl⟩ := h
      have hlen : (contents d (dinodeAt d f.inum)).length = (dinodeAt d f.inum).size.toNat := by
        simp [contents]
      have hm : (((contents d (dinodeAt d f.inum)).drop f.off.toNat).take
          (min n.toUInt32.toNat ((dinodeAt d f.inum).size.toNat - f.off.toNat))).length =
            min n.toUInt32.toNat ((dinodeAt d f.inum).size.toNat - f.off.toNat) := by
        simp only [List.length_take, List.length_drop, hlen]
        omega
      refine ⟨rfl, ?_, hinv, hi, rfl, ?_, fun _ => by rw [hm]⟩
      · rw [hm, ← Int32.toNat_toInt, hrm]
        rfl
      · -- a read puts back what it took
        rw [hm, List.append_assoc, ← List.drop_drop, List.take_append_drop, List.take_append_drop]
  | write src n =>
    obtain ⟨hbad, hgood⟩ := writei_spec devsw hinv hi hdev src f.off n.toUInt32
    by_cases hb : (dinodeAt d f.inum).size.toNat < f.off.toNat ∨
        2 ^ 32 ≤ f.off.toNat + n.toUInt32.toNat
    · simp only [OffCall.transfer, hbad hb, bind, Except.bind, pure, Except.pure,
        Except.ok.injEq, Prod.mk.injEq] at h
      obtain ⟨rfl, rfl⟩ := h
      have hs : stored src (-1) = [] := rfl
      refine ⟨rfl, by simp, hinv, hi, rfl, ?_, fun h => Bool.noConfusion h⟩
      simp [hs]
    · rcases hgood hb with ⟨herr, -⟩ | ⟨d1, ip1, r, hw, hrm, hpost⟩
      · simp [OffCall.transfer, herr, bind, Except.bind] at h
      · simp only [OffCall.transfer, hw, bind, Except.bind, pure, Except.pure,
          Except.ok.injEq, Prod.mk.injEq] at h
        obtain ⟨rfl, rfl⟩ := h
        have hr : r.toNatClampNeg = min n.toUInt32.toNat (MAXFILE * BSIZE - f.off.toNat) := by
          rw [← Int32.toNat_toInt, hrm]
          rfl
        have hst : stored src r =
            (List.range (min n.toUInt32.toNat (MAXFILE * BSIZE - f.off.toNat))).map src := by
          rw [stored, hr]
        refine ⟨rfl, by simp, hpost.inv, (hpost.live_iff f.inum).mpr hi, ?_, ?_, fun h => Bool.noConfusion h⟩
        · rw [hpost.dinode, hpost.fields]
        · rw [hpost.dinode, hpost.data]
          simp only [hst, List.length_map, List.length_range]

end transfer

/-! ## The invariant -/

/-- No transfer is waiting for its advance. -/
def OffSys.Settled (s : OffSys) : Prop := ∀ p r, s.phase p ≠ .moved r

/-- The inode holds the invariant of the file system and stays a live non-device inode;
`I_BUSY` is held by exactly the process between `ilock` and `iunlock`; the transfers lie
end to end from offset 0, and `f->off` is where the last one ends, or where it starts
while its call has not advanced yet; the file holds the bytes of the transfers in order
and then its old bytes beyond them; a read moved the old bytes of its range. -/
structure OffInv (s : OffSys) : Prop where
  fs : FsInv s.disk
  live : Live (readsb s.disk) (dinodeAt s.disk) s.file.inum
  dev : (dinodeAt s.disk s.file.inum).type ≠ T_DEV
  holder : ∀ p, (s.phase p).holds = true ↔ s.busy = some p
  chained : Xfer.Chained 0 s.log
  lens : ∀ x ∈ s.log, x.bytes.length = x.r.toNatClampNeg
  moved : ∀ p r, s.phase p = .moved r → s.file.off.toNat + r.toNatClampNeg = Xfer.total s.log
  settled : s.Settled → s.file.off.toNat = Xfer.total s.log
  contents : contents s.disk (dinodeAt s.disk s.file.inum) =
    (s.log.map Xfer.bytes).flatten ++ s.start.drop (Xfer.total s.log)
  reads : ∀ x ∈ s.log, x.write = false → x.bytes = (s.start.drop x.off).take x.bytes.length

/-- A state settled after process `p`, not `moved`, changed its phase was settled
before. -/
theorem settled_of_update {s : OffSys} {p : Nat} {a : OffPhase} (hp : ∀ r, s.phase p ≠ .moved r)
    (h : ∀ q r, Function.update s.phase p a q ≠ .moved r) : s.Settled := by
  intro q r
  by_cases hq : q = p
  · subst hq
    exact hp r
  · have := h q r
    rwa [Function.update_of_ne hq] at this

theorem advanceOff_inum (f : File) (r : Int32) : (advanceOff f r).inum = f.inum := by
  unfold advanceOff
  split <;> rfl

/-- `f->off += r` adds the bytes the call moved, when they stay below `2^32`. -/
theorem advanceOff_off (f : File) (r : Int32) (h : f.off.toNat + r.toNatClampNeg < 2 ^ 32) :
    (advanceOff f r).off.toNat = f.off.toNat + r.toNatClampNeg := by
  unfold advanceOff
  split
  · rename_i hr
    have hr' : r.toUInt32.toNat = r.toNatClampNeg := Int32.toNat_toUInt32_of_le (Int32.le_of_lt hr)
    show (f.off + r.toUInt32).toNat = _
    rw [UInt32.toNat_add, hr', Nat.mod_eq_of_lt h]
  · rename_i hr
    have h0 : r.toNatClampNeg = 0 := by
      rw [← Int32.toNat_toInt]
      have : r.toInt ≤ 0 := by
        have := Int32.not_lt.mp hr
        rw [Int32.le_iff_toInt_le] at this
        simpa using this
      omega
    rw [h0, Nat.add_zero]

namespace OffInv

variable {s : OffSys} (hi : OffInv s)
include hi

/-- Mutual exclusion: one process at a time is between `ilock` and `iunlock`. -/
theorem only_holder {p q : Nat} (hp : (s.phase p).holds = true) (hq : (s.phase q).holds = true) :
    p = q := by
  have h1 := (hi.holder p).mp hp
  have h2 := (hi.holder q).mp hq
  rw [h1] at h2
  exact Option.some.inj h2

/-- While a process holds the inode before its transfer, no transfer waits for its
advance: the one before it has advanced. -/
theorem settled_of_locked {p : Nat} {c : OffCall} (hp : s.phase p = .locked c) : s.Settled := by
  intro q r hq
  have hpq : p = q := hi.only_holder (by rw [hp]; rfl) (by rw [hq]; rfl)
  subst hpq
  rw [hp] at hq
  cases hq

theorem total_le : Xfer.total s.log ≤ MAXFILE * BSIZE := by
  have hsz := hi.fs.size_le _ hi.live
  have hlen := congrArg List.length hi.contents
  simp only [Xv6.contents, List.length_map, List.length_range, List.length_append,
    Xfer.length_flatten] at hlen
  omega

theorem call {p : Nat} {c : OffCall} (hp : s.phase p = .idle) :
    OffInv { s with phase := Function.update s.phase p (.waiting c) } := by
  have hnm : ∀ r, s.phase p ≠ .moved r := by
    intro r h
    rw [hp] at h
    cases h
  refine ⟨hi.fs, hi.live, hi.dev, fun q => ?_, hi.chained, hi.lens, fun q r hq => ?_,
    fun h => hi.settled fun q r => ?_, hi.contents, hi.reads⟩
  · dsimp only
    by_cases hqp : q = p
    · subst hqp
      rw [Function.update_self]
      have := hi.holder q
      rw [hp] at this
      exact this
    · rw [Function.update_of_ne hqp]
      exact hi.holder q
  · dsimp only at hq
    by_cases hqp : q = p
    · subst hqp
      rw [Function.update_self] at hq
      cases hq
    · rw [Function.update_of_ne hqp] at hq
      exact hi.moved q r hq
  · exact settled_of_update hnm h q r

theorem lock {p : Nat} {c : OffCall} (hp : s.phase p = .waiting c) (hb : s.busy = none) :
    OffInv { s with busy := some p, phase := Function.update s.phase p (.locked c) } := by
  have hnm : ∀ r, s.phase p ≠ .moved r := by
    intro r h
    rw [hp] at h
    cases h
  refine ⟨hi.fs, hi.live, hi.dev, fun q => ?_, hi.chained, hi.lens, fun q r hq => ?_,
    fun h => hi.settled (settled_of_update hnm h), hi.contents, hi.reads⟩
  · dsimp only
    by_cases hqp : q = p
    · subst hqp
      rw [Function.update_self]
      exact iff_of_true rfl rfl
    · -- the inode was free, so no other process held it
      rw [Function.update_of_ne hqp, hi.holder q, hb]
      exact iff_of_false nofun fun h => hqp (Option.some.inj h).symm
  · dsimp only at hq
    by_cases hqp : q = p
    · subst hqp
      rw [Function.update_self] at hq
      cases hq
    · rw [Function.update_of_ne hqp] at hq
      exact hi.moved q r hq

/-- The transfer: it runs at the offset the last transfer ended at, since that one has
advanced. -/
theorem transfer {devsw : Nat → Devsw} {p : Nat} {c : OffCall} {d : Disk} {x : Xfer}
    (hp : s.phase p = .locked c) (hx : c.transfer devsw s.disk s.file = .ok (d, x)) :
    OffInv { s with
      disk := d, phase := Function.update s.phase p (.moved x.r), log := s.log ++ [x] } := by
  have hset := hi.settled_of_locked hp
  have hoff := hi.settled hset
  obtain ⟨hxo, hxl, hfs, hlive, htype, hcont, hread⟩ :=
    OffCall.transfer_spec devsw hi.fs hi.live hi.dev hx
  have hB := Xfer.length_flatten s.log
  -- the file as the invariant has it: the transfers' bytes, then the old bytes beyond them
  have hC := hi.contents
  rw [← hoff] at hB
  have htake : (Xv6.contents s.disk (dinodeAt s.disk s.file.inum)).take s.file.off.toNat =
      (s.log.map Xfer.bytes).flatten := by
    rw [hC, List.take_left' hB]
  have hdrop : ∀ k, (Xv6.contents s.disk (dinodeAt s.disk s.file.inum)).drop (s.file.off.toNat + k) =
      s.start.drop (Xfer.total s.log + k) := by
    intro k
    rw [hC, ← List.drop_drop, List.drop_left' hB, List.drop_drop]
  refine ⟨hfs, hlive, htype ▸ hi.dev, fun q => ?_, ?_, fun y hy => ?_, fun q r hq => ?_,
    fun h => ?_, ?_, fun y hy hw => ?_⟩
  · dsimp only
    by_cases hqp : q = p
    · subst hqp
      rw [Function.update_self, ← hi.holder q, hp]
      rfl
    · rw [Function.update_of_ne hqp]
      exact hi.holder q
  · exact (Xfer.chained_append 0 s.log x).mpr ⟨hi.chained, by rw [hxo, hoff, Nat.zero_add]⟩
  · rcases List.mem_append.mp hy with hy | hy
    · exact hi.lens y hy
    · rw [List.mem_singleton.mp hy]
      exact hxl
  · dsimp only at hq ⊢
    by_cases hqp : q = p
    · subst hqp
      rw [Function.update_self] at hq
      cases hq
      rw [Xfer.total_append, Xfer.total_singleton, ← hoff, hxl]
    · rw [Function.update_of_ne hqp] at hq
      exact absurd hq (hset q r)
  · have := h p x.r
    dsimp only at this
    rw [Function.update_self] at this
    exact absurd rfl this
  · dsimp only
    rw [hcont, htake, hdrop, List.map_append, List.flatten_append, List.map_singleton,
      List.flatten_singleton, Xfer.total_append, Xfer.total_singleton, List.append_assoc]
  · rcases List.mem_append.mp hy with hy | hy
    · exact hi.reads y hy hw
    · -- a read took the old bytes at the end of the transfers before it
      rw [List.mem_singleton.mp hy] at hw ⊢
      have h0 := hdrop 0
      rw [Nat.add_zero, Nat.add_zero] at h0
      have hb := hread hw
      rw [h0] at hb
      rw [hxo, hoff]
      exact hb

theorem advance {p : Nat} {r : Int32} (hp : s.phase p = .moved r) :
    OffInv { s with file := advanceOff s.file r, phase := Function.update s.phase p (.advanced r) } := by
  have hm := hi.moved p r hp
  have hle := hi.total_le
  have hoff : (advanceOff s.file r).off.toNat = Xfer.total s.log := by
    rw [advanceOff_off s.file r (by simp only [MAXFILE, NDIRECT, NINDIRECT, BSIZE] at hle; omega), hm]
  -- no other process is between `ilock` and `iunlock`
  have honly : ∀ q r', q ≠ p → s.phase q ≠ .moved r' := by
    intro q r' hqp hq
    exact hqp (hi.only_holder (by rw [hq]; rfl) (by rw [hp]; rfl))
  have hin := advanceOff_inum s.file r
  refine ⟨?_, ?_, ?_, fun q => ?_, hi.chained, hi.lens, fun q r' hq => ?_, fun _ => hoff, ?_,
    hi.reads⟩
  · exact hi.fs
  · dsimp only
    rw [hin]
    exact hi.live
  · dsimp only
    rw [hin]
    exact hi.dev
  · dsimp only
    by_cases hqp : q = p
    · subst hqp
      rw [Function.update_self, ← hi.holder q, hp]
      rfl
    · rw [Function.update_of_ne hqp]
      exact hi.holder q
  · dsimp only at hq
    by_cases hqp : q = p
    · subst hqp
      rw [Function.update_self] at hq
      cases hq
    · rw [Function.update_of_ne hqp] at hq
      exact absurd hq (honly q r' hqp)
  · dsimp only
    rw [hin]
    exact hi.contents

theorem unlock {p : Nat} {r : Int32} (hp : s.phase p = .advanced r) :
    OffInv { s with busy := none, phase := Function.update s.phase p .idle } := by
  have hnm : ∀ r', s.phase p ≠ .moved r' := by
    intro r' h
    rw [hp] at h
    cases h
  have hb : s.busy = some p := (hi.holder p).mp (by rw [hp]; rfl)
  refine ⟨hi.fs, hi.live, hi.dev, fun q => ?_, hi.chained, hi.lens, fun q r' hq => ?_,
    fun h => hi.settled (settled_of_update hnm h), hi.contents, hi.reads⟩
  · dsimp only
    by_cases hqp : q = p
    · subst hqp
      rw [Function.update_self]
      exact iff_of_false nofun nofun
    · -- the inode was the caller's, so no other process held it
      rw [Function.update_of_ne hqp, hi.holder q, hb]
      exact iff_of_false (fun h => hqp (Option.some.inj h).symm) nofun
  · dsimp only at hq
    by_cases hqp : q = p
    · subst hqp
      rw [Function.update_self] at hq
      cases hq
    · rw [Function.update_of_ne hqp] at hq
      exact hi.moved q r' hq

theorem step {devsw : Nat → Devsw} {s' : OffSys} (h : OffStep devsw s s') : OffInv s' := by
  cases h with
  | refused => exact hi
  | call hp _ => exact hi.call hp
  | lock hp hb => exact hi.lock hp hb
  | transfer hp hx => exact hi.transfer hp hx
  | advance hp => exact hi.advance hp
  | unlock hp => exact hi.unlock hp

end OffInv

theorem OffInv.init {s : OffSys} (h : OffInit s) : OffInv s := by
  obtain ⟨hfs, hlive, hdev, hoff, hb, hph, hlog, hstart⟩ := h
  refine ⟨hfs, hlive, hdev, fun q => ?_, ?_, ?_, fun q r hq => ?_, fun _ => ?_, ?_, ?_⟩
  · rw [hph q, hb]
    exact iff_of_false nofun nofun
  · rw [hlog]
    trivial
  · intro x hx
    rw [hlog] at hx
    cases hx
  · rw [hph q] at hq
    cases hq
  · rw [hoff, hlog]
    rfl
  · rw [hlog, hstart]
    rfl
  · intro x hx
    rw [hlog] at hx
    cases hx

theorem OffInv.reachable {devsw : Nat → Devsw} {s : OffSys} (h : OffReachable devsw s) :
    OffInv s :=
  Reach.Reachable.invariant (fun t (h0 : OffInit t) => OffInv.init h0)
    (fun _ _ _ (hi : OffInv _) hs => hi.step (offStep_of_offNext hs)) h

/-- When every read moved no byte, the transfers' bytes are the writes'. -/
theorem Xfer.flatten_writes : ∀ (l : List Xfer), (∀ x ∈ l, x.write = false → x.bytes = []) →
    (l.map Xfer.bytes).flatten = ((l.filter (·.write)).map Xfer.bytes).flatten
  | [], _ => rfl
  | x :: l, h => by
    have ih := Xfer.flatten_writes l fun y hy => h y (List.mem_cons_of_mem x hy)
    cases hw : x.write
    · simp [hw, h x List.mem_cons_self hw, ih]
    · simp [hw, ih]

/-! ## The shared offset in every reachable state -/

/-- `ls` opening `/` on the image the build makes: the root directory, read-only. -/
def OffSys.rootOpen : OffSys :=
  ⟨MkfsParams.xv6.image, ⟨true, false, ROOTINO, 0⟩, none, fun _ => .idle, [],
    contents MkfsParams.xv6.image (dinodeAt MkfsParams.xv6.image ROOTINO)⟩

theorem OffSys.rootOpen_init : OffInit OffSys.rootOpen := by
  refine ⟨MkfsParams.xv6.mkfs_inv, MkfsParams.xv6.live_image.mpr rfl, ?_, rfl, rfl, fun _ => rfl,
    rfl, ?_⟩
  · show (dinodeAt MkfsParams.xv6.image ROOTINO).type ≠ T_DEV
    rw [MkfsParams.dinodeAt_root]
    decide
  · simp only [OffSys.rootOpen]

/-- Two processes `read` 16 bytes of `/` through the shared entry: process 0 takes the
lock, reads and advances the offset, and unlocks; then process 1 takes the lock. -/
def rootReads : List OffEvent :=
  [.call 0 (.read 16), .call 1 (.read 16), .lock 0, .transfer 0, .advance 0, .unlock 0, .lock 1]

/-- `create` of a regular file on the image the build makes: `ialloc` finds inode 2, writes
a blank dinode, and leaves the data blocks free. -/
theorem xv6_ialloc_file (devsw : Nat → Devsw) :
    ∃ d₁, fsNext devsw MkfsParams.xv6.image (.ialloc T_FILE) = some d₁ ∧ FsInv d₁ ∧
      Live (readsb d₁) (dinodeAt d₁) 2 ∧ dinodeAt d₁ 2 = Dinode.blank T_FILE ∧ ¬ Full d₁ := by
  have hn : (readsb MkfsParams.xv6.image).ninodes.toNat = 200 := MkfsParams.xv6.readsb_ninodes
  have hroot : (dinodeAt MkfsParams.xv6.image 1).type ≠ 0 := by
    rw [show 1 = ROOTINO from rfl, MkfsParams.dinodeAt_root]
    decide
  have h2 : (dinodeAt MkfsParams.xv6.image 2).type = 0 :=
    MkfsParams.xv6.type_image (by decide) (by decide)
  have hok : ialloc MkfsParams.xv6.image T_FILE = .ok (Function.update MkfsParams.xv6.image
      (IBLOCK 2) (Dinode.encode (MkfsParams.xv6.image (IBLOCK 2)) (dinodeOff 2)
        (Dinode.blank T_FILE)), 2) := by
    rw [ialloc, iallocFrom, if_pos (by rw [hn]; decide), if_neg hroot, iallocFrom,
      if_pos (by rw [hn]; decide), if_pos h2]
  have hsb := @readsb_update MkfsParams.xv6.image (IBLOCK 2)
    (Dinode.encode (MkfsParams.xv6.image (IBLOCK 2)) (dinodeOff 2) (Dinode.blank T_FILE))
    (iblock_ne_one 2)
  refine ⟨_, by simp only [fsNext, hok], MkfsParams.xv6.mkfs_inv.ialloc (by rw [hn]; decide) h2
    T_FILE, ?_, by rw [dinodeAt_encode, Function.update_self], fun hfull => ?_⟩
  · rw [hsb, dinodeAt_encode, Live, Function.update_self, hn]
    decide
  · -- block 30, past the root directory's, is still free
    have h30 := hfull 30 (by
      rw [hsb]
      exact lt_of_lt_of_le (by decide) MkfsParams.xv6.size_le_bitLimit)
    rw [hsb, hn, bitSet_update _ (by decide), ← hn,
      MkfsParams.xv6.bitSet_image (lt_of_lt_of_le (by decide) MkfsParams.xv6.size_le_bitLimit)]
      at h30
    exact absurd h30 (by decide)

/-- Then a write of two bytes into it: `balloc` finds the free block, and the file holds
two bytes. -/
theorem xv6_file_of_two (devsw : Nat → Devsw) (src : Nat → UInt8) :
    ∃ d₂, Reach.Reachable (fun d => d = MkfsParams.xv6.image) (Reach.stepOf (fsNext devsw)) d₂ ∧
      FsInv d₂ ∧ Live (readsb d₂) (dinodeAt d₂) 2 ∧ (dinodeAt d₂ 2).type = T_FILE ∧
      (dinodeAt d₂ 2).size.toNat = 2 := by
  obtain ⟨d₁, h1, hinv, hi, hblank, hfree⟩ := xv6_ialloc_file devsw
  have hdev : (dinodeAt d₁ 2).type ≠ T_DEV := by
    rw [hblank]
    decide
  have hgood : ¬ ((dinodeAt d₁ 2).size.toNat < (0 : UInt32).toNat ∨
      2 ^ 32 ≤ (0 : UInt32).toNat + (2 : UInt32).toNat) := by
    rw [hblank]
    decide
  rcases (writei_spec devsw hinv hi hdev src 0 2).2 hgood with ⟨herr, -⟩ | ⟨d₂, ip, r, hw, -, hpost⟩
  · have hfull := (writei_append_error_iff devsw hinv hi hdev src (by rw [hblank]; rfl)
      (by rw [hblank]; rfl) (by decide) (by decide) (by rw [hblank]; decide)).mp herr
    exact absurd hfull hfree
  · have h2 : fsNext devsw d₁ (.writei 2 src 0 2) = some d₂ := by
      simp only [fsNext, if_pos hi, hw]
    refine ⟨d₂, .step _ (.step _ (.init rfl) h1) h2, hpost.inv, (hpost.live_iff 2).mpr hi, ?_, ?_⟩
    · rw [hpost.dinode, hpost.fields, hblank]
      rfl
    · rw [hpost.dinode]
      show ip.size.toNat = 2
      rw [hpost.size, hblank]
      decide

/-- Two processes' shared file is the two-byte file above: one write of one byte through
the shared offset leaves the size at two. -/
theorem shared_offset_keeps_old_bytes (devsw : Nat → Devsw) (src : Nat → UInt8) :
    ∃ s₀ s, Reach.Reachable (fun d => d = MkfsParams.xv6.image) (Reach.stepOf (fsNext devsw))
        s₀.disk ∧ OffInit s₀ ∧
      Reach.runEvents (offNext devsw) s₀
        [.call 0 (.write src 1), .lock 0, .transfer 0, .advance 0, .unlock 0] = some s ∧
      (dinodeAt s.disk s.file.inum).type = T_FILE ∧ (∀ p, s.phase p = .idle) ∧
      s.log.all (·.write) ∧ Xfer.total s.log = 1 ∧
      (dinodeAt s.disk s.file.inum).size.toNat = 2 := by
  obtain ⟨d₂, hreach, hinv, hi, htype, hsize⟩ := xv6_file_of_two devsw src
  have hdev : (dinodeAt d₂ 2).type ≠ T_DEV := by
    rw [htype]
    decide
  obtain ⟨d₃, ip, r, hw, hr, hpost⟩ := @writei_within devsw d₂ hinv 2 hi hdev src 0
    (1 : Int32).toUInt32 (by simp) (by simp only [nblocks, hsize]; decide)
  let s₀ : OffSys := ⟨d₂, ⟨true, true, 2, 0⟩, none, fun _ => .idle, [], contents d₂ (dinodeAt d₂ 2)⟩
  have hinit : OffInit s₀ := ⟨hinv, hi, hdev, rfl, rfl, fun _ => rfl, rfl, rfl⟩
  have hrun : Reach.runEvents (offNext devsw) s₀
        [.call 0 (.write src 1), .lock 0, .transfer 0, .advance 0, .unlock 0] =
      some { s₀ with disk := d₃, file := advanceOff s₀.file r, log := [⟨true, 0, r, stored src r⟩] } := by
    simp only [s₀, Reach.runEvents_cons, Reach.runEvents_nil, offNext, OffCall.allowed, if_true,
      OffCall.transfer, hw, bind, Except.bind, pure, Except.pure, Option.bind_some,
      Option.bind_fun_some, Function.update_self, Function.update_idem, UInt32.toNat_zero,
      List.nil_append, Function.update_eq_self]
  refine ⟨s₀, _, hreach, hinit, hrun, ?_, fun _ => rfl, rfl, ?_, ?_⟩
  · show (dinodeAt d₃ (advanceOff ⟨true, true, 2, 0⟩ r).inum).type = T_FILE
    rw [advanceOff_inum, hpost.dinode, hpost.fields]
    exact htype
  · show Xfer.total [⟨true, 0, r, stored src r⟩] = 1
    rw [Xfer.total_singleton, stored_length, ← Int32.toNat_toInt, hr]
    decide
  · show (dinodeAt d₃ (advanceOff ⟨true, true, 2, 0⟩ r).inum).size.toNat = 2
    rw [advanceOff_inum, hpost.dinode]
    show ip.size.toNat = 2
    rw [hpost.size, hsize]
    decide

end Xv6
