import Xv6.Bio

/-!
# The IDE driver

`ide.c`: `iderw(b)` appends `b` to `idequeue` and, when the queue was empty, starts the
disk on it with `idestart`; it then sleeps until `b`'s flags read `B_VALID` without
`B_DIRTY`. On the disk's interrupt, `ideintr` takes the head of the queue, copies the
sector into `b->data` for a read when `idewait(1)` reports no error, sets `B_VALID`,
clears `B_DIRTY`, wakes the sleeper and starts the disk on the next buffer.

The disk is a map from (drive, sector) to a sector's bytes, `none` where the drive
answers with `IDE_ERR` or `IDE_DF`, as for a sector past its end. Each `iderw` call, each
interrupt (the drive finishing the command in flight, then `ideintr` under `idelock`)
and each return from `iderw` is one step, and so is anything the process holding a buffer
`B_BUSY` does to it between calls (`bget`, the caller's writes to `b->data`, `bwrite`'s
`B_DIRTY`). Three ghost logs record the buffers in the order their requests arrived,
started and completed.

The queue works: requests start and complete in the order they arrive, no buffer is
queued twice, and `iderw` returns only once its request has completed (`ide_fifo`,
`iderw_returns_completed`). But the error branch of `ideintr` only skips the copy: a
read that fails leaves `b` `B_VALID` with the bytes it held before, and a write that
fails is cleared of `B_DIRTY` as if done (`ideintr_error_marks_valid`).
-/

namespace Xv6

/-- The buffers are numbered from `0`. -/
instance : NeZero NBUF := ⟨by decide⟩

/-- The fields of `struct buf` the driver reads and writes. -/
structure IdeBuf where
  busy : Bool
  valid : Bool
  dirty : Bool
  dev : UInt32
  sector : UInt32
  data : List UInt8
  deriving DecidableEq

/-- What the drives hold: the bytes of each sector of each drive, `none` where a command
ends in `IDE_ERR` or `IDE_DF`. -/
abbrev IdeDisk := UInt32 → UInt32 → Option (List UInt8)

/-- The command `idestart` gives the drive: the drive `b->dev & 1`, the 28 bits of
`b->sector` that go to ports `0x1f3` to `0x1f6`, and for a `B_DIRTY` buffer
`IDE_CMD_WRITE` with the 512 bytes `outsl` sends, else `IDE_CMD_READ`. -/
structure IdeCmd where
  drive : UInt32
  sector : UInt32
  write : Option (List UInt8)
  deriving DecidableEq

def idestartCmd (b : IdeBuf) : IdeCmd :=
  ⟨b.dev &&& 1, b.sector &&& 0x0fffffff, if b.dirty then some b.data else none⟩

/-- The drive ending `cmd`: `none` for a status with `IDE_ERR` or `IDE_DF`, else the
disk afterwards and the sector's bytes. -/
def ideComplete (disk : IdeDisk) (cmd : IdeCmd) : Option (IdeDisk × List UInt8) :=
  match disk cmd.drive cmd.sector with
  | none => none
  | some blk =>
    match cmd.write with
    | none => some (disk, blk)
    | some data =>
      some (fun d s => if d = cmd.drive ∧ s = cmd.sector then some data else disk d s, data)

/-- The driver's state: the buffers, `idequeue`, the drives, the command in flight,
`havedisk1`, which buffers a process is waiting on in `iderw`, and the ghost logs of
arrivals, starts and completions. -/
structure Ide where
  buf : Fin NBUF → IdeBuf
  queue : List (Fin NBUF)
  disk : IdeDisk
  cmd : Option IdeCmd
  havedisk1 : Bool
  waiting : Fin NBUF → Bool
  arrived : List (Fin NBUF)
  started : List (Fin NBUF)
  completed : List (Fin NBUF)

namespace Ide

/-- `idestart(b)`, with `idelock` held. -/
def idestart (s : Ide) (b : Fin NBUF) : Ide :=
  { s with cmd := some (idestartCmd (s.buf b)), started := s.started ++ [b] }

/-- `iderw(b)` up to its sleep: the panics, the append to `idequeue`, and the start of the
disk when `b` is alone in the queue. -/
def iderw (s : Ide) (b : Fin NBUF) : Except String Ide :=
  let bf := s.buf b
  if !bf.busy then throw "iderw: buf not busy"
  else if bf.valid ∧ !bf.dirty then throw "iderw: nothing to do"
  else if bf.dev ≠ 0 ∧ !s.havedisk1 then throw "iderw: ide disk 1 not present"
  else
    let s := { s with
      queue := s.queue ++ [b], waiting := Function.update s.waiting b true, arrived := s.arrived ++ [b] }
    if s.queue = [b] then pure (idestart s b) else pure s

/-- The drive finishing the command in flight, then `ideintr()`. -/
def ideintr (s : Ide) : Ide :=
  match s.queue with
  -- a spurious interrupt
  | [] => s
  | b :: rest =>
    let done := s.cmd.bind (ideComplete s.disk)
    let bf := s.buf b
    -- `if(!(b->flags & B_DIRTY) && idewait(1) >= 0) insl(...)`
    let data := match done with
      | some (_, blk) => if !bf.dirty then blk else bf.data
      | none => bf.data
    let s' := { s with
      queue := rest, cmd := none, disk := (done.map Prod.fst).getD s.disk,
      buf := Function.update s.buf b { bf with data := data, valid := true, dirty := false },
      completed := s.completed ++ [b] }
    match rest with
    | [] => s'
    | c :: _ => idestart s' c

end Ide

/-- The steps of the system. -/
inductive IdeEvent where
  /-- The process holding `b` calls `iderw(b)`. -/
  | iderw (b : Fin NBUF)
  /-- The drive interrupts. -/
  | intr
  /-- The process waiting in `iderw(b)` wakes to flags `B_VALID` without `B_DIRTY`
  and returns. -/
  | ret (b : Fin NBUF)
  /-- The process holding `b`, out of `iderw`, makes it `bf`. -/
  | hold (b : Fin NBUF) (bf : IdeBuf)

/-- One step; a panic, or a call the process cannot make, is refused. -/
def ideNext (s : Ide) : IdeEvent → Option Ide
  | .iderw b => if s.waiting b then none else (s.iderw b).toOption
  | .intr => some s.ideintr
  | .ret b =>
    if s.waiting b ∧ (s.buf b).valid ∧ !(s.buf b).dirty then
      some { s with waiting := Function.update s.waiting b false }
    else none
  | .hold b bf => if s.waiting b then none else some { s with buf := Function.update s.buf b bf }

/-- After `ideinit`: nothing queued or in flight, nobody waiting; any buffers and disks. -/
def IdeInit (s : Ide) : Prop :=
  s.queue = [] ∧ s.cmd = none ∧ (∀ b, s.waiting b = false) ∧ s.arrived = [] ∧ s.started = [] ∧
    s.completed = []

def IdeReachable : Ide → Prop := Reach.Reachable IdeInit (Reach.stepOf ideNext)

/-! ## One step at a time -/

/-- `iderw` either panics or queues `b`, which was not `B_VALID` without `B_DIRTY`,
and starts it when the queue was empty. -/
theorem Ide.iderw_ok {s s' : Ide} {b : Fin NBUF} (h : s.iderw b = .ok s') :
    ¬((s.buf b).valid = true ∧ (s.buf b).dirty = false) ∧ s'.buf = s.buf ∧ s'.disk = s.disk ∧
      s'.queue = s.queue ++ [b] ∧ s'.waiting = Function.update s.waiting b true ∧
      s'.arrived = s.arrived ++ [b] ∧ s'.completed = s.completed ∧
      ((s.queue = [] ∧ s'.cmd = some (idestartCmd (s.buf b)) ∧ s'.started = s.started ++ [b]) ∨
        (s.queue ≠ [] ∧ s'.cmd = s.cmd ∧ s'.started = s.started)) := by
  unfold Ide.iderw at h
  simp only [Bool.not_eq_true'] at h
  split at h
  · cases h
  split at h
  · cases h
  split at h
  · cases h
  rename_i _ hvd _
  refine ⟨hvd, ?_⟩
  split at h
  · rename_i hq
    cases h
    have hnil : s.queue = [] := by
      have hl := congrArg List.length hq
      simp only [List.length_append, List.length_singleton] at hl
      exact List.eq_nil_of_length_eq_zero (by omega)
    exact ⟨rfl, rfl, rfl, rfl, rfl, rfl, Or.inl ⟨hnil, rfl, rfl⟩⟩
  · rename_i hq
    cases h
    refine ⟨rfl, rfl, rfl, rfl, rfl, rfl, Or.inr ⟨fun hnil => hq ?_, rfl, rfl⟩⟩
    rw [hnil, List.nil_append]

theorem Ide.ideintr_nil {s : Ide} (hq : s.queue = []) : s.ideintr = s := by
  unfold Ide.ideintr
  rw [hq]

/-- `ideintr` on a non-empty queue completes its head `b`, marks it `B_VALID` and clean,
leaves every other buffer, and starts the next request. -/
theorem Ide.ideintr_cons {s : Ide} {b : Fin NBUF} {rest : List (Fin NBUF)} (hq : s.queue = b :: rest) :
    s.ideintr.queue = rest ∧ s.ideintr.waiting = s.waiting ∧ s.ideintr.arrived = s.arrived ∧
      s.ideintr.completed = s.completed ++ [b] ∧ s.ideintr.started = s.started ++ rest.take 1 ∧
      s.ideintr.cmd = rest.head?.map (fun c => idestartCmd (s.ideintr.buf c)) ∧
      (∀ c, c ≠ b → s.ideintr.buf c = s.buf c) ∧ (s.ideintr.buf b).valid = true ∧
      (s.ideintr.buf b).dirty = false := by
  unfold Ide.ideintr
  rw [hq]
  cases rest with
  | nil =>
    exact ⟨rfl, rfl, rfl, rfl, by simp, rfl, fun c hc => Function.update_of_ne hc _ _,
      by simp, by simp⟩
  | cons c rest =>
    exact ⟨rfl, rfl, rfl, rfl, rfl, rfl, fun c hc => Function.update_of_ne hc _ _, by simp [Ide.idestart],
      by simp [Ide.idestart]⟩

/-- What `ideintr` leaves in the head's `data`: the sector it read when the drive
completed a read, else what the buffer held. -/
theorem Ide.ideintr_data {s : Ide} {b : Fin NBUF} {rest : List (Fin NBUF)} (hq : s.queue = b :: rest) :
    (s.ideintr.buf b).data =
      match s.cmd.bind (ideComplete s.disk) with
      | some (_, blk) => if !(s.buf b).dirty then blk else (s.buf b).data
      | none => (s.buf b).data := by
  unfold Ide.ideintr
  rw [hq]
  cases rest <;> simp [Ide.idestart]

/-! ## The queue's invariant -/

/-- What holds between steps: the queue has no repeats and only buffers whose process
waits in `iderw`, a waiting buffer is queued exactly while its flags are not `B_VALID`
without `B_DIRTY`, the command in flight is the head's, and requests complete, and
start, in the order they arrived. -/
structure IdeInv (s : Ide) : Prop where
  nodup : s.queue.Nodup
  queued_waiting : ∀ b ∈ s.queue, s.waiting b = true
  waiting_done : ∀ b, s.waiting b = true →
    (b ∈ s.queue ↔ ¬((s.buf b).valid = true ∧ (s.buf b).dirty = false))
  cmd_head : s.cmd = s.queue.head?.map fun b => idestartCmd (s.buf b)
  arrived_eq : s.arrived = s.completed ++ s.queue
  started_eq : s.started = s.completed ++ s.queue.take 1

theorem IdeInv.init {s : Ide} (h : IdeInit s) : IdeInv s := by
  obtain ⟨hq, hc, hw, ha, hs, hd⟩ := h
  refine ⟨by simp [hq], by simp [hq], fun b hb => absurd hb (by simp [hw b]), by simp [hq, hc],
    by simp [ha, hd, hq], by simp [hs, hd, hq]⟩

/-- A buffer out of `iderw` is not queued. -/
theorem IdeInv.not_mem_of_not_waiting {s : Ide} (hi : IdeInv s) {b : Fin NBUF} (hb : s.waiting b = false) :
    b ∉ s.queue := fun hm => by
  rw [hi.queued_waiting b hm] at hb
  cases hb

theorem IdeInv.iderw {s s' : Ide} {b : Fin NBUF} (hi : IdeInv s) (hw : s.waiting b = false)
    (h : s.iderw b = .ok s') : IdeInv s' := by
  obtain ⟨hvd, hbuf, -, hq, hwait, harr, hcomp, hstart⟩ := Ide.iderw_ok h
  have hb : b ∉ s.queue := hi.not_mem_of_not_waiting hw
  -- every buffer but `b` keeps its flags, its place and its process
  have hother : ∀ c, c ≠ b → s'.waiting c = s.waiting c ∧ (c ∈ s'.queue ↔ c ∈ s.queue) := by
    intro c hc
    rw [hwait, Function.update_of_ne hc, hq, List.mem_append, List.mem_singleton]
    exact ⟨rfl, or_iff_left hc⟩
  constructor
  · rw [hq]
    exact List.nodup_append.mpr ⟨hi.nodup, List.nodup_singleton b,
      fun x hx y hy => by rw [List.mem_singleton.mp hy]; exact fun hxb => hb (hxb ▸ hx)⟩
  · intro c hc
    by_cases hcb : c = b
    · rw [hcb, hwait, Function.update_self]
    · rw [(hother c hcb).1]
      exact hi.queued_waiting c ((hother c hcb).2.mp hc)
  · intro c hc
    by_cases hcb : c = b
    · subst hcb
      rw [hbuf, hq]
      simp only [List.mem_append, List.mem_singleton, or_true, true_iff]
      exact hvd
    · rw [hbuf, (hother c hcb).2]
      exact hi.waiting_done c ((hother c hcb).1 ▸ hc)
  · rcases hstart with ⟨hnil, hcmd, -⟩ | ⟨hne, hcmd, -⟩
    · rw [hcmd, hq, hnil, hbuf]
      rfl
    · obtain ⟨d, ds, hds⟩ := List.exists_cons_of_ne_nil hne
      rw [hcmd, hi.cmd_head, hq, hbuf, hds]
      rfl
  · rw [harr, hcomp, hq, hi.arrived_eq, List.append_assoc]
  · rcases hstart with ⟨hnil, -, hst⟩ | ⟨hne, -, hst⟩
    · rw [hst, hcomp, hq, hi.started_eq, hnil]
      simp
    · obtain ⟨d, ds, hds⟩ := List.exists_cons_of_ne_nil hne
      rw [hst, hcomp, hq, hi.started_eq, hds]
      rfl

theorem IdeInv.ideintr {s : Ide} (hi : IdeInv s) : IdeInv s.ideintr := by
  cases hq : s.queue with
  | nil =>
    rw [Ide.ideintr_nil hq]
    exact hi
  | cons b rest =>
    obtain ⟨hq', hw, ha, hc, hs, hcmd, hother, hv, hd⟩ := Ide.ideintr_cons hq
    have hnd := hi.nodup
    rw [hq, List.nodup_cons] at hnd
    constructor
    · rw [hq']
      exact hnd.2
    · intro c hc'
      rw [hw]
      exact hi.queued_waiting c (by rw [hq]; exact List.mem_cons_of_mem b (hq' ▸ hc'))
    · intro c hc'
      rw [hw] at hc'
      by_cases hcb : c = b
      · subst hcb
        rw [hq']
        simp only [hv, hd, and_self, not_true_eq_false, iff_false]
        exact hnd.1
      · have hold := hi.waiting_done c hc'
        rw [hq, List.mem_cons, or_iff_right hcb] at hold
        rw [hq', hother c hcb]
        exact hold
    · rw [hcmd, hq']
    · rw [ha, hc, hq', hi.arrived_eq, hq, List.append_assoc]
      rfl
    · rw [hs, hc, hq', hi.started_eq, hq]
      rfl

theorem IdeInv.ret {s : Ide} {b : Fin NBUF} (hi : IdeInv s) (hw : s.waiting b = true)
    (hdone : (s.buf b).valid = true ∧ (s.buf b).dirty = false) :
    IdeInv { s with waiting := Function.update s.waiting b false } := by
  -- a request whose flags read done is off the queue
  have hb : b ∉ s.queue := fun hm => (hi.waiting_done b hw).mp hm hdone
  refine ⟨hi.nodup, fun c hc => ?_, fun c hc => ?_, hi.cmd_head, hi.arrived_eq, hi.started_eq⟩
  · have hcb : c ≠ b := fun h => hb (h ▸ hc)
    show Function.update s.waiting b false c = true
    rw [Function.update_of_ne hcb]
    exact hi.queued_waiting c hc
  · have hcb : c ≠ b := by
      rintro rfl
      simp at hc
    have hc' : Function.update s.waiting b false c = true := hc
    rw [Function.update_of_ne hcb] at hc'
    exact hi.waiting_done c hc'

theorem IdeInv.hold {s : Ide} {b : Fin NBUF} (bf : IdeBuf) (hi : IdeInv s) (hw : s.waiting b = false) :
    IdeInv { s with buf := Function.update s.buf b bf } := by
  have hb : b ∉ s.queue := hi.not_mem_of_not_waiting hw
  refine ⟨hi.nodup, hi.queued_waiting, fun c hc => ?_, ?_, hi.arrived_eq, hi.started_eq⟩
  · have hcb : c ≠ b := by
      rintro rfl
      rw [hw] at hc
      cases hc
    show c ∈ s.queue ↔ ¬((Function.update s.buf b bf c).valid = true ∧ (Function.update s.buf b bf c).dirty = false)
    rw [Function.update_of_ne hcb]
    exact hi.waiting_done c hc
  · show s.cmd = s.queue.head?.map fun c => idestartCmd (Function.update s.buf b bf c)
    rw [hi.cmd_head]
    cases hq : s.queue with
    | nil => rfl
    | cons c rest =>
      have hcb : c ≠ b := fun h => hb (by rw [hq, h]; exact List.mem_cons_self)
      simp only [List.head?_cons, Option.map_some, Function.update_of_ne hcb]

theorem IdeInv.next {s s' : Ide} {e : IdeEvent} (hi : IdeInv s) (h : ideNext s e = some s') :
    IdeInv s' := by
  cases e with
  | iderw b =>
    simp only [ideNext] at h
    split at h
    · cases h
    · rename_i hw
      cases hr : s.iderw b with
      | error _ => rw [hr] at h; cases h
      | ok s1 =>
        rw [hr] at h
        cases h
        exact hi.iderw (by simpa using hw) hr
  | intr =>
    cases h
    exact hi.ideintr
  | ret b =>
    simp only [ideNext] at h
    split at h
    · rename_i hc
      cases h
      simp only [Bool.not_eq_true'] at hc
      exact hi.ret hc.1 hc.2
    · cases h
  | hold b bf =>
    simp only [ideNext] at h
    split at h
    · cases h
    · rename_i hw
      cases h
      exact hi.hold bf (by simpa using hw)

theorem IdeInv.reachable {s : Ide} (h : IdeReachable s) : IdeInv s := by
  refine Reach.Reachable.invariant ?_ ?_ h
  · exact fun _ h0 => IdeInv.init h0
  · exact fun _ _ _ hi hs => hi.next hs

/-! ## What the queue guarantees -/

/-- In every reachable state no buffer is queued twice, and requests complete, and
start, in the order they arrived: the completed ones are a prefix of the arrivals, and
the started ones that prefix and the head of the queue. -/
theorem ide_fifo {s : Ide} (h : IdeReachable s) :
    s.queue.Nodup ∧ s.completed <+: s.started ∧ s.started <+: s.arrived := by
  have hi := IdeInv.reachable h
  refine ⟨hi.nodup, ⟨s.queue.take 1, hi.started_eq.symm⟩, ⟨s.queue.drop 1, ?_⟩⟩
  rw [hi.started_eq, hi.arrived_eq, List.append_assoc, List.take_append_drop]

/-- `iderw(b)` returns only once `b` is off the queue, every request of `b` that
arrived having completed. -/
theorem iderw_returns_completed {s s' : Ide} {b : Fin NBUF} (h : IdeReachable s)
    (hr : ideNext s (.ret b) = some s') : b ∉ s.queue ∧ s.arrived.count b = s.completed.count b := by
  have hi := IdeInv.reachable h
  simp only [ideNext] at hr
  split at hr
  · rename_i hc
    simp only [Bool.not_eq_true'] at hc
    have hb : b ∉ s.queue := fun hm => (hi.waiting_done b hc.1).mp hm hc.2
    refine ⟨hb, ?_⟩
    rw [hi.arrived_eq, List.count_append, List.count_eq_zero_of_not_mem hb, Nat.add_zero]
  · cases hr

section Complete

variable {s : Ide} {b : Fin NBUF} {rest : List (Fin NBUF)}

/-- The drive is working on the head's request. -/
theorem IdeInv.cmd_of_cons (hi : IdeInv s) (hq : s.queue = b :: rest) :
    s.cmd = some (idestartCmd (s.buf b)) := by
  rw [hi.cmd_head, hq]
  rfl

/-- A read the drive completes copies the sector into the buffer. -/
theorem ideintr_read_copies {blk : List UInt8} (hi : IdeInv s) (hq : s.queue = b :: rest)
    (hd : (s.buf b).dirty = false)
    (hblk : s.disk ((s.buf b).dev &&& 1) ((s.buf b).sector &&& 0x0fffffff) = some blk) :
    (s.ideintr.buf b).data = blk := by
  have hc : s.cmd.bind (ideComplete s.disk) = some (s.disk, blk) := by
    rw [hi.cmd_of_cons hq]
    simp [ideComplete, idestartCmd, hd, hblk]
  rw [Ide.ideintr_data hq, hc, hd]
  rfl

/-- A command the drive fails leaves the disk and the buffer's bytes as they were, and
still marks the buffer `B_VALID` and clean. -/
theorem ideintr_error (hi : IdeInv s) (hq : s.queue = b :: rest)
    (hnone : s.disk ((s.buf b).dev &&& 1) ((s.buf b).sector &&& 0x0fffffff) = none) :
    (s.ideintr.buf b).data = (s.buf b).data ∧ (s.ideintr.buf b).valid = true ∧
      (s.ideintr.buf b).dirty = false ∧ s.ideintr.disk = s.disk := by
  have hc : s.cmd.bind (ideComplete s.disk) = none := by
    rw [hi.cmd_of_cons hq]
    simp [ideComplete, idestartCmd, hnone]
  obtain ⟨-, -, -, -, -, -, -, hv, hd⟩ := Ide.ideintr_cons hq
  refine ⟨by rw [Ide.ideintr_data hq, hc], hv, hd, ?_⟩
  unfold Ide.ideintr
  rw [hq]
  cases rest <;> simp [Ide.idestart, hc]

end Complete

/-! ## A sector past the end of the disk -/

/-- Drive 0 with 4096 sectors of zeros; any other sector ends in `IDE_ERR`. -/
def smallDisk : IdeDisk := fun d sec => if d = 0 ∧ sec.toNat < 4096 then some (List.replicate 512 0) else none

/-- Bytes buffer 0 still holds from the block it cached before. -/
def staleBytes : List UInt8 := List.replicate 512 0xAB

/-- After `ideinit` on `smallDisk`: buffer 0 is held for a read of sector 5000, past the
end of the disk, as `bread` passes it to `iderw`, and buffer 1 is held `B_DIRTY` for a
write of the same sector, as `bwrite` passes it. -/
def ideBoot : Ide where
  buf i := if i = 0 then ⟨true, false, false, 0, 5000, staleBytes⟩ else ⟨true, false, true, 0, 5000, []⟩
  queue := []
  disk := smallDisk
  cmd := none
  havedisk1 := false
  waiting _ := false
  arrived := []
  started := []
  completed := []

/-- `bread` of buffer 0 and `bwrite` of buffer 1, each `iderw` call followed by the
disk's interrupt and the return. -/
def ideErrorRun : List IdeEvent := [.iderw 0, .intr, .ret 0, .iderw 1, .intr, .ret 1]

/-- The read of sector 5000 fails, and `iderw` returns the buffer `B_VALID` holding the
bytes of the block it cached before; the write fails too, and `iderw` returns it clean,
the sector still unwritten. -/
theorem ideintr_error_marks_valid :
    IdeReachable ideBoot ∧ smallDisk 0 5000 = none ∧
      ∃ s, Reach.runEvents ideNext ideBoot ideErrorRun = some s ∧
        IdeReachable s ∧ (s.buf 0).valid = true ∧ (s.buf 0).data = staleBytes ∧
        (s.buf 1).valid = true ∧ (s.buf 1).dirty = false ∧ s.disk 0 5000 = none := by
  have hboot : IdeReachable ideBoot := .init ⟨rfl, rfl, fun _ => rfl, rfl, rfl, rfl⟩
  refine ⟨hboot, rfl, _, rfl, ?_, rfl, rfl, rfl, rfl, rfl⟩
  exact @Reach.reachable_of_runEvents _ _ _ _ _ _ ideErrorRun hboot rfl

end Xv6
