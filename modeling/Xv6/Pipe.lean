import Mathlib
import Xv6.Lib.Reach
import Xv6.Lib.Word32

/-!
# Pipes

`pipe.c`: a pipe is a 512-byte ring with two free-running `uint` counters, `nread`
and `nwrite`, and two open flags. `pipewrite` stores bytes one at a time at
`nwrite % PIPESIZE` and sleeps while the ring is full; `piperead` sleeps while it is
empty and the write end is open, then copies what is there.

The pipe's spinlock is modelled by running each critical section as one step: a call
runs from `acquire` (or from waking up) to its next `sleep` or its `release`. A
sleeping call may be resumed at any time; a wakeup only makes that possible, so
allowing it always covers every schedule the real `wakeup`s allow.

The abstract view of a pipe is the list of unread bytes, `Pipe.contents`. The
system `PipeSys` runs any number of processes, each idle or inside one call, and
records as ghost state every byte stored and every byte returned. Its invariant
`PipeSys.Inv` says the distance `nwrite - nread` (mod `2^32`) stays within
`PIPESIZE` and that the bytes returned, followed by the ring's contents, are exactly
the bytes stored: FIFO delivery with nothing lost, duplicated or overwritten.
-/

namespace Xv6

/-- `#define PIPESIZE 512` -/
def PIPESIZE : Nat := 512

/-- `struct pipe`, without its lock. -/
structure Pipe where
  data : Fin PIPESIZE → UInt8
  nread : UInt32
  nwrite : UInt32
  readopen : Bool
  writeopen : Bool

namespace Pipe

/-- The array slot of counter value `c`: `c % PIPESIZE`. -/
def slot (c : UInt32) : Fin PIPESIZE := ⟨c.toNat % PIPESIZE, Nat.mod_lt _ (by decide)⟩

/-- `p->data[p->nwrite++ % PIPESIZE] = b` -/
def put (p : Pipe) (b : UInt8) : Pipe :=
  { p with data := Function.update p.data (slot p.nwrite) b, nwrite := p.nwrite + 1 }

/-- `p->data[p->nread++ % PIPESIZE]`: the byte read and the pipe after it. -/
def take (p : Pipe) : UInt8 × Pipe :=
  (p.data (slot p.nread), { p with nread := p.nread + 1 })

/-- The number of unread bytes, `nwrite - nread` modulo `2^32`. -/
def count (p : Pipe) : Nat := Word32.dist p.nwrite p.nread

/-- The unread bytes, oldest first. -/
def contents (p : Pipe) : List UInt8 :=
  (List.range p.count).map fun k => p.data ⟨(p.nread.toNat + k) % PIPESIZE, Nat.mod_lt _ (by decide)⟩

@[simp] theorem put_nread (p : Pipe) (b : UInt8) : (p.put b).nread = p.nread := rfl
@[simp] theorem put_readopen (p : Pipe) (b : UInt8) : (p.put b).readopen = p.readopen := rfl
@[simp] theorem put_writeopen (p : Pipe) (b : UInt8) : (p.put b).writeopen = p.writeopen := rfl
@[simp] theorem take_nwrite (p : Pipe) : p.take.2.nwrite = p.nwrite := rfl
@[simp] theorem take_readopen (p : Pipe) : p.take.2.readopen = p.readopen := rfl
@[simp] theorem take_writeopen (p : Pipe) : p.take.2.writeopen = p.writeopen := rfl

/-- The code's full test `nwrite == nread + PIPESIZE`. -/
theorem full_iff (p : Pipe) : p.nwrite = p.nread + PIPESIZE.toUInt32 ↔ p.count = PIPESIZE :=
  Word32.eq_add_iff_dist (by decide)

/-- The code's empty test `nread == nwrite`. -/
theorem empty_iff (p : Pipe) : p.nread = p.nwrite ↔ p.count = 0 := by
  rw [count, Word32.dist_eq_zero_iff, eq_comm]

@[simp] theorem length_contents (p : Pipe) : p.contents.length = p.count := by
  simp [contents]

theorem count_put (p : Pipe) (b : UInt8) (h : p.count < PIPESIZE) :
    (p.put b).count = p.count + 1 := by
  unfold PIPESIZE count at *
  show Word32.dist (p.nwrite + 1) p.nread = _
  exact Word32.dist_succ_left (by omega)

theorem count_take (p : Pipe) (h : 0 < p.count) : p.take.2.count = p.count - 1 :=
  Word32.dist_succ_right h

/-- Storing a byte into a ring that is not full appends it to the contents: the slot
written, `nwrite % PIPESIZE`, is none of the slots that hold unread bytes. -/
theorem contents_put (p : Pipe) (b : UInt8) (h : p.count < PIPESIZE) :
    (p.put b).contents = p.contents ++ [b] := by
  have hw : p.nwrite.toNat % PIPESIZE = (p.nread.toNat + p.count) % PIPESIZE := by
    have hc := Word32.dist_eq p.nwrite p.nread
    have := UInt32.toNat_lt p.nread
    have := UInt32.toNat_lt p.nwrite
    simp only [count, PIPESIZE] at hc h ⊢
    omega
  apply List.ext_getElem
  · simp [count_put p b h]
  · intro k hk _
    rw [length_contents, count_put p b h] at hk
    simp only [contents, put, List.getElem_map, List.getElem_range]
    rcases Nat.lt_succ_iff_lt_or_eq.mp hk with hlt | rfl
    · have hne : (⟨(p.nread.toNat + k) % PIPESIZE, Nat.mod_lt _ (by decide)⟩ : Fin PIPESIZE)
          ≠ slot p.nwrite := by
        simp only [slot, ne_eq, Fin.mk.injEq, hw]
        simp only [PIPESIZE, count] at hlt h ⊢
        omega
      rw [Function.update_of_ne hne, List.getElem_append_left (by simpa using hlt)]
      simp
    · have heq : (⟨(p.nread.toNat + p.count) % PIPESIZE, Nat.mod_lt _ (by decide)⟩ : Fin PIPESIZE)
          = slot p.nwrite := by
        simp only [slot, hw]
      rw [heq, Function.update_self, List.getElem_append_right (by simp)]
      simp

/-- Taking a byte from a ring that is not empty removes its oldest byte. -/
theorem contents_take (p : Pipe) (h : 0 < p.count) :
    p.contents = p.take.1 :: p.take.2.contents := by
  apply List.ext_getElem
  · simp [count_take p h]; omega
  · intro k hk _
    simp only [contents, take, List.getElem_map, List.getElem_range] at hk ⊢
    cases k with
    | zero => simp [slot]
    | succ k =>
        simp only [List.getElem_cons_succ, List.getElem_map, List.getElem_range]
        congr 2
        rw [UInt32.toNat_add, UInt32.toNat_one]
        simp only [PIPESIZE]
        omega

end Pipe

/-! ## The calls, one critical section at a time -/

/-- How one critical section of `pipewrite` ends. -/
inductive WriteStop where
  /-- every byte is stored: `return n` -/
  | done
  /-- full, and the read end is closed or the caller killed: `return -1` -/
  | failed (rest : List UInt8)
  /-- full: `sleep(&p->nwrite, &p->lock)` with `rest` still to store -/
  | sleeping (rest : List UInt8)
  deriving DecidableEq

/-- The bytes a critical section of `pipewrite` left unstored. -/
def WriteStop.rest : WriteStop → List UInt8
  | .done => []
  | .failed rest => rest
  | .sleeping rest => rest

/-- `pipewrite`'s `for` loop from the current byte on, inside one critical section.
Before each byte the `while` test for a full ring is made; a call that wakes up
re-enters the loop at the same byte. -/
def pipewriteLoop (killed : Bool) : Pipe → List UInt8 → Pipe × WriteStop
  | p, [] => (p, .done)
  | p, b :: rest =>
      if p.nwrite = p.nread + PIPESIZE.toUInt32 then
        if !p.readopen || killed then (p, .failed (b :: rest)) else (p, .sleeping (b :: rest))
      else pipewriteLoop killed (p.put b) rest

/-- How one critical section of `piperead` ends. -/
inductive ReadStop where
  /-- `return i` with the `i` bytes copied -/
  | done (bytes : List UInt8)
  /-- killed while waiting for data: `return -1` -/
  | failed
  /-- empty with the write end open: `sleep(&p->nread, &p->lock)` -/
  | sleeping
  deriving DecidableEq

/-- `piperead`'s copy loop: at most `n` bytes, stopping at an empty ring. -/
def pipereadCopy : Pipe → Nat → Pipe × List UInt8
  | p, 0 => (p, [])
  | p, n + 1 =>
      if p.nread = p.nwrite then (p, [])
      else
        let r := pipereadCopy p.take.2 n
        (r.1, p.take.1 :: r.2)

/-- One critical section of `piperead(p, addr, n)`: the `while` test, then either
sleep (or fail when killed) or copy. -/
def piperead (killed : Bool) (p : Pipe) (n : Int) : Pipe × ReadStop :=
  if p.nread = p.nwrite ∧ p.writeopen = true then
    (p, if killed then .failed else .sleeping)
  else
    let r := pipereadCopy p n.toNat
    (r.1, .done r.2)

/-- `pipeclose(p, writable)`: the end is marked closed. (Freeing the page once both
ends are closed is the allocator's business.) -/
def pipeclose (p : Pipe) (writable : Bool) : Pipe :=
  if writable then { p with writeopen := false } else { p with readopen := false }

/-! ## What one critical section does to the contents -/

/-- A critical section of `pipewrite` stores a prefix of the pending bytes at the
end of the contents, never fills the ring past `PIPESIZE`, and touches neither
`nread` nor the open flags. -/
theorem pipewriteLoop_spec (killed : Bool) :
    ∀ (p : Pipe) (src : List UInt8), p.count ≤ PIPESIZE →
      ∃ stored, src = stored ++ (pipewriteLoop killed p src).2.rest ∧
        (pipewriteLoop killed p src).1.contents = p.contents ++ stored ∧
        (pipewriteLoop killed p src).1.count ≤ PIPESIZE ∧
        (pipewriteLoop killed p src).1.nread = p.nread ∧
        (pipewriteLoop killed p src).1.writeopen = p.writeopen
  | p, [], hc => ⟨[], rfl, by simp [pipewriteLoop], hc, rfl, rfl⟩
  | p, b :: rest, hc => by
      by_cases hfull : p.nwrite = p.nread + PIPESIZE.toUInt32
      · -- full: the section ends at once, sleeping or failing, with nothing stored
        have hp : (pipewriteLoop killed p (b :: rest)).1 = p := by
          simp only [pipewriteLoop, hfull, if_true]
          split <;> rfl
        have hrest : (pipewriteLoop killed p (b :: rest)).2.rest = b :: rest := by
          simp only [pipewriteLoop, hfull, if_true]
          split <;> rfl
        refine ⟨[], by rw [hrest]; rfl, ?_, ?_, ?_, ?_⟩ <;> simp [hp, hc]
      · -- not full: one byte goes in, and the rest of the loop runs on the new ring
        have hlt : p.count < PIPESIZE := by
          rw [Pipe.full_iff] at hfull
          omega
        obtain ⟨stored, hsrc, hcont, hcount, hnread, hwopen⟩ :=
          pipewriteLoop_spec killed (p.put b) rest (by rw [Pipe.count_put p b hlt]; omega)
        simp only [pipewriteLoop, hfull, if_false]
        refine ⟨b :: stored, by rw [List.cons_append, ← hsrc], ?_, hcount, hnread, hwopen⟩
        rw [hcont, Pipe.contents_put p b hlt, List.append_assoc, List.singleton_append]

/-- The copy loop takes the oldest `min n count` bytes off the front of the contents. -/
theorem pipereadCopy_spec :
    ∀ (p : Pipe) (n : Nat),
      p.contents = (pipereadCopy p n).2 ++ (pipereadCopy p n).1.contents ∧
        (pipereadCopy p n).2.length = min n p.count ∧
        (pipereadCopy p n).1.count ≤ p.count ∧
        (pipereadCopy p n).1.nwrite = p.nwrite ∧
        (pipereadCopy p n).1.writeopen = p.writeopen
  | p, 0 => by simp [pipereadCopy]
  | p, n + 1 => by
      by_cases hempty : p.nread = p.nwrite
      · have h0 : p.count = 0 := (Pipe.empty_iff p).mp hempty
        simp [pipereadCopy, hempty, h0]
      · have hpos : 0 < p.count := by
          rw [Pipe.empty_iff] at hempty
          omega
        obtain ⟨hcont, hlen, hcount, hnwrite, hwopen⟩ := pipereadCopy_spec p.take.2 n
        simp only [pipereadCopy, hempty, if_false]
        rw [Pipe.count_take p hpos] at hlen hcount
        refine ⟨?_, ?_, by omega, hnwrite, hwopen⟩
        · rw [Pipe.contents_take p hpos, hcont, List.cons_append]
        · rw [List.length_cons, hlen]
          omega

theorem piperead_of_wait (killed : Bool) {p : Pipe} (n : Int)
    (h : p.nread = p.nwrite ∧ p.writeopen = true) :
    piperead killed p n = (p, if killed then .failed else .sleeping) := by
  simp [piperead, h]

theorem piperead_of_ready (killed : Bool) {p : Pipe} (n : Int)
    (h : ¬(p.nread = p.nwrite ∧ p.writeopen = true)) :
    piperead killed p n = ((pipereadCopy p n.toNat).1, .done (pipereadCopy p n.toNat).2) := by
  simp only [piperead, if_neg h]

theorem pipeclose_count (p : Pipe) (w : Bool) : (pipeclose p w).count = p.count := by
  unfold pipeclose; split <;> rfl

theorem pipeclose_contents (p : Pipe) (w : Bool) : (pipeclose p w).contents = p.contents := by
  unfold pipeclose; split <;> rfl

/-! ## Any number of processes on one pipe -/

/-- What a process is doing with the pipe. -/
inductive Call where
  | idle
  /-- inside `pipewrite(p, addr, n)` with the bytes `rest` of `addr` still to store -/
  | writing (n : Int) (rest : List UInt8)
  /-- inside `piperead(p, addr, n)` -/
  | reading (n : Int)
  deriving DecidableEq

/-- One pipe shared by processes numbered by `Nat`, with two ghost logs: every byte
stored by `pipewrite`, in order of storage, and every byte returned by `piperead`,
in order of return. -/
structure PipeSys where
  pipe : Pipe
  call : Nat → Call
  killed : Nat → Bool
  stored : List UInt8
  returned : List UInt8

/-- The events of the system. -/
inductive PipeEvent where
  /-- process `pid` calls `pipewrite` with the `n` bytes `src` -/
  | write (pid : Nat) (n : Int) (src : List UInt8)
  /-- process `pid` calls `piperead` for `n` bytes -/
  | read (pid : Nat) (n : Int)
  /-- process `pid` runs its call's next critical section -/
  | run (pid : Nat)
  /-- one end is closed -/
  | close (writable : Bool)
  /-- process `pid` is killed -/
  | kill (pid : Nat)

namespace PipeSys

/-- Just after `pipealloc`: both ends open and both counters 0; the data page holds
whatever `kalloc` left in it. -/
def Init (s : PipeSys) : Prop :=
  s.pipe.nread = 0 ∧ s.pipe.nwrite = 0 ∧ s.pipe.readopen = true ∧ s.pipe.writeopen = true ∧
    (∀ pid, s.call pid = .idle) ∧ s.stored = [] ∧ s.returned = []

/-- The critical section a process in `pipewrite` runs next. -/
def runWrite (s : PipeSys) (pid : Nat) (n : Int) (rest : List UInt8) : PipeSys :=
  let r := pipewriteLoop (s.killed pid) s.pipe rest
  { s with
    pipe := r.1
    stored := s.stored ++ rest.take (rest.length - r.2.rest.length)
    call := Function.update s.call pid
      (match r.2 with
       | .sleeping rest' => .writing n rest'
       | _ => .idle) }

/-- The critical section a process in `piperead` runs next. -/
def runRead (s : PipeSys) (pid : Nat) (n : Int) : PipeSys :=
  let r := piperead (s.killed pid) s.pipe n
  match r.2 with
  | .done bytes =>
      { s with pipe := r.1, returned := s.returned ++ bytes,
               call := Function.update s.call pid .idle }
  | .failed => { s with call := Function.update s.call pid .idle }
  | .sleeping => s

/-- The step function of the system; `none` for an event that cannot happen. -/
def next (s : PipeSys) : PipeEvent → Option PipeSys
  | .write pid n src =>
      if s.call pid = .idle ∧ src.length = n.toNat then
        some { s with call := Function.update s.call pid (.writing n src) }
      else none
  | .read pid n =>
      if s.call pid = .idle then
        some { s with call := Function.update s.call pid (.reading n) }
      else none
  | .run pid =>
      match s.call pid with
      | .idle => none
      | .writing n rest => some (s.runWrite pid n rest)
      | .reading n => some (s.runRead pid n)
  | .close w => some { s with pipe := pipeclose s.pipe w }
  | .kill pid => some { s with killed := Function.update s.killed pid true }

/-- The pipe invariant: at most `PIPESIZE` unread bytes, and the bytes returned
followed by the unread ones are exactly the bytes stored. -/
structure Inv (s : PipeSys) : Prop where
  count_le : s.pipe.count ≤ PIPESIZE
  fifo : s.stored = s.returned ++ s.pipe.contents

theorem inv_init (s : PipeSys) (h : s.Init) : s.Inv := by
  obtain ⟨hr, hw, -, -, -, hs, hret⟩ := h
  have h0 : s.pipe.count = 0 := by simp [Pipe.count, hr, hw]
  exact ⟨by omega, by simp [Pipe.contents, h0, hs, hret]⟩

theorem inv_runWrite {s : PipeSys} (hs : s.Inv) (pid : Nat) (n : Int) (rest : List UInt8) :
    (s.runWrite pid n rest).Inv := by
  obtain ⟨stored, hsrc, hcont, hcount, -, -⟩ :=
    pipewriteLoop_spec (s.killed pid) s.pipe rest hs.count_le
  -- the ghost log takes exactly the prefix of `rest` that went into the ring
  have htake : rest.take (rest.length - (pipewriteLoop (s.killed pid) s.pipe rest).2.rest.length)
      = stored := by
    generalize (pipewriteLoop (s.killed pid) s.pipe rest).2.rest = left at hsrc ⊢
    subst hsrc
    simp
  refine ⟨hcount, ?_⟩
  simp only [runWrite, htake, hcont, hs.fifo, List.append_assoc]

theorem inv_runRead {s : PipeSys} (hs : s.Inv) (pid : Nat) (n : Int) :
    (s.runRead pid n).Inv := by
  by_cases hwait : s.pipe.nread = s.pipe.nwrite ∧ s.pipe.writeopen = true
  · -- waiting: nothing moves but the caller's state
    unfold runRead
    rw [piperead_of_wait _ n hwait]
    cases s.killed pid
    · exact hs
    · exact ⟨hs.count_le, hs.fifo⟩
  · obtain ⟨hcont, -, hcount, -, -⟩ := pipereadCopy_spec s.pipe n.toNat
    unfold runRead
    rw [piperead_of_ready _ n hwait]
    refine ⟨le_trans hcount hs.count_le, ?_⟩
    simp only [hs.fifo, hcont, List.append_assoc]

/-- Every event keeps the invariant. -/
theorem inv_next {s s' : PipeSys} {e : PipeEvent} (hs : s.Inv) (h : s.next e = some s') :
    s'.Inv := by
  cases e with
  | write pid n src =>
      simp only [next] at h
      split_ifs at h
      cases h
      exact ⟨hs.count_le, hs.fifo⟩
  | read pid n =>
      simp only [next] at h
      split_ifs at h
      cases h
      exact ⟨hs.count_le, hs.fifo⟩
  | run pid =>
      simp only [next] at h
      split at h
      · cases h
      · cases h
        exact inv_runWrite hs pid _ _
      · cases h
        exact inv_runRead hs pid _
  | close w =>
      cases h
      exact ⟨by simpa [pipeclose_count] using hs.count_le,
        by simpa [pipeclose_contents] using hs.fifo⟩
  | kill pid =>
      cases h
      exact ⟨hs.count_le, hs.fifo⟩

theorem inv_reachable {s : PipeSys} (h : Reach.Reachable Init (Reach.stepOf next) s) : s.Inv :=
  Reach.Reachable.invariant inv_init (fun _ _ _ hs hstep => inv_next hs hstep) h

/-- A pipe just allocated, with no process using it yet. -/
def start : PipeSys where
  pipe := { data := fun _ => 0, nread := 0, nwrite := 0, readopen := true, writeopen := true }
  call := fun _ => .idle
  killed := fun _ => false
  stored := []
  returned := []

theorem start_init : start.Init := by
  refine ⟨rfl, rfl, rfl, rfl, fun _ => rfl, rfl, rfl⟩

end PipeSys

/-- Pipes are FIFO under any interleaving: the counter distance stays within
`PIPESIZE`, the bytes returned are a prefix of the bytes stored and, with the unread
bytes, all of them; and a `piperead` asking for at least one byte returns none only
when the ring is empty and the write end closed. -/
theorem pipe_fifo_order {s : PipeSys}
    (h : Reach.Reachable PipeSys.Init (Reach.stepOf PipeSys.next) s) :
    s.pipe.count ≤ PIPESIZE ∧ s.returned <+: s.stored ∧
      s.stored = s.returned ++ s.pipe.contents ∧
      ∀ pid n, s.call pid = .reading n → 0 < n →
        (piperead (s.killed pid) s.pipe n).2 = .done [] →
          s.pipe.count = 0 ∧ s.pipe.writeopen = false := by
  have hinv := PipeSys.inv_reachable h
  refine ⟨hinv.count_le, ⟨s.pipe.contents, hinv.fifo.symm⟩, hinv.fifo, ?_⟩
  intro pid n _ hn hret
  by_cases hwait : s.pipe.nread = s.pipe.nwrite ∧ s.pipe.writeopen = true
  · rw [piperead_of_wait _ n hwait] at hret
    split at hret <;> cases hret
  · rw [piperead_of_ready _ n hwait] at hret
    have hlen := (pipereadCopy_spec s.pipe n.toNat).2.1
    simp only [ReadStop.done.injEq] at hret
    rw [hret, List.length_nil] at hlen
    have hcount : s.pipe.count = 0 := by omega
    refine ⟨hcount, ?_⟩
    have hempty : s.pipe.nread = s.pipe.nwrite := (Pipe.empty_iff _).mpr hcount
    simpa [hempty] using hwait

/-- Process 0 writes two bytes while process 1 waits to read one; the write end is then
closed and process 2 calls `piperead` for one byte. -/
theorem pipe_fifo_order_run : ∃ s, Reach.Reachable PipeSys.Init (Reach.stepOf PipeSys.next) s ∧
    s.stored = [7, 8] ∧ s.returned = [7] ∧ s.pipe.writeopen = false ∧ s.call 2 = .reading 1 ∧
    s.pipe.count ≤ PIPESIZE ∧ s.returned <+: s.stored ∧
      s.stored = s.returned ++ s.pipe.contents ∧
      ∀ pid n, s.call pid = .reading n → 0 < n →
        (piperead (s.killed pid) s.pipe n).2 = .done [] →
          s.pipe.count = 0 ∧ s.pipe.writeopen = false := by
  have hrun : Reach.runEvents PipeSys.next PipeSys.start
      [.write 0 2 [7, 8], .read 1 1, .run 0, .run 1, .close true, .read 2 1] = some _ := rfl
  have hreach := Reach.reachable_of_runEvents (Reach.Reachable.init PipeSys.start_init) hrun
  exact ⟨_, hreach, by decide, by decide, rfl, rfl, pipe_fifo_order hreach⟩

/-- A `piperead` for zero bytes returns 0 at once, whatever the pipe holds: after
one process stores a byte, another's `piperead(p, addr, 0)` returns 0 from a pipe
that is neither empty nor closed. -/
theorem piperead_zero_nonempty :
    ¬ ∀ s : PipeSys, Reach.Reachable PipeSys.Init (Reach.stepOf PipeSys.next) s →
      ∀ pid n, s.call pid = .reading n →
        (piperead (s.killed pid) s.pipe n).2 = .done [] →
          s.pipe.count = 0 ∧ s.pipe.writeopen = false := by
  intro hclaim
  have hrun : Reach.runEvents PipeSys.next PipeSys.start
      [.write 0 1 [7], .run 0, .read 1 0] = some _ := rfl
  have hreach := Reach.reachable_of_runEvents (Reach.Reachable.init PipeSys.start_init) hrun
  have := hclaim _ hreach 1 0 (by decide) (by decide)
  exact absurd this.1 (by decide)

end Xv6
