import Mathlib
import Xv6.Lib.Reach

/-!
# The process table

`proc.c`: `ptable.proc` holds `NPROC` slots, each in one of the states of `enum
procstate`, with a pid, a parent pointer, the channel it sleeps on and the `killed`
flag. `allocproc` takes the first `UNUSED` slot and gives it `nextpid++`; `fork` fills
the new slot from its caller, `exit` passes the caller's children to `initproc` and
becomes a `ZOMBIE`, `wait` frees the first zombie child or sleeps on the caller's own
slot, `kill` marks the first slot with the pid, and `wakeup1` makes the sleepers on a
channel runnable.

Every function here is one `ptable.lock` critical section. The writes `fork` makes
after `allocproc` (and the two failure paths that hand the slot back) happen outside
the lock, but touch only the new slot, which no other step reads before it is
`RUNNABLE`; `fork` is one step here. What a process does outside the table (its
memory, its files, its trap frame) is not part of this model; the kernel stack and
page directory are kept as the addresses `wait` frees. A channel is either a slot's own
address, which only `wait` sleeps on, or some other kernel address.
-/

namespace Xv6

/-- `#define NPROC 64` -/
def NPROC : Nat := 64

instance : NeZero NPROC := ⟨by decide⟩

inductive ProcState where
  | UNUSED | EMBRYO | SLEEPING | RUNNABLE | RUNNING | ZOMBIE
  deriving DecidableEq, Repr

/-- What `p->chan` points at: the slot of a process, or an address elsewhere. -/
inductive Chan where
  | proc (p : Fin NPROC)
  | other (a : Nat)
  deriving DecidableEq, Repr

/-- The fields of `struct proc` that the table's functions read and write. -/
structure Proc where
  state : ProcState
  pid : Int32
  parent : Option (Fin NPROC)
  chan : Option Chan
  killed : Bool
  kstack : Nat
  pgdir : Nat
  deriving DecidableEq

/-- `ptable.proc`, `nextpid` and `initproc`. -/
structure Ptable where
  procs : Fin NPROC → Proc
  nextpid : Int32
  initproc : Fin NPROC

/-- A slot as the zeroed `ptable` of a booting kernel has it. -/
def Proc.zero : Proc := ⟨.UNUSED, 0, none, none, false, 0, 0⟩

/-- The table before `userinit`: every slot zero and `nextpid = 1`. -/
def Ptable.boot : Ptable := ⟨fun _ => Proc.zero, 1, 0⟩

/-! ## The functions of `proc.c` -/

/-- `wakeup1`: every process sleeping on `chan` becomes runnable. Each iteration of the
loop touches only its own slot. -/
def wakeup1 (procs : Fin NPROC → Proc) (chan : Chan) : Fin NPROC → Proc := fun p =>
  if (procs p).state = .SLEEPING ∧ (procs p).chan = some chan then
    { procs p with state := .RUNNABLE }
  else procs p

/-- The part of `allocproc` under the lock: the first `UNUSED` slot becomes an
`EMBRYO` with pid `nextpid++`. -/
def allocproc (t : Ptable) : Option (Fin NPROC × Ptable) :=
  match (List.finRange NPROC).find? (fun p => (t.procs p).state = .UNUSED) with
  | none => none
  | some p =>
    let q := { t.procs p with state := .EMBRYO, pid := t.nextpid }
    some (p, { t with procs := Function.update t.procs p q, nextpid := t.nextpid + 1 })

/-- `userinit`: the first process, with the kernel stack and page directory it is
given, is `initproc`. -/
def userinit (t : Ptable) (kstack pgdir : Nat) : Option Ptable :=
  (allocproc t).map fun (p, t) =>
    let q := { t.procs p with kstack := kstack, pgdir := pgdir, state := .RUNNABLE }
    { t with procs := Function.update t.procs p q, initproc := p }

/-- `fork` called by `cur`, where `kstack` is what `allocproc`'s `kalloc` returned and
`pgdir` what `copyuvm` returned (`none` for `0`). The result is the value `fork`
returns to its caller. -/
def fork (t : Ptable) (cur : Fin NPROC) (kstack pgdir : Option Nat) : Ptable × Int32 :=
  match allocproc t with
  | none => (t, -1)
  | some (np, t) =>
    let q := t.procs np
    let set (q' : Proc) : Ptable := { t with procs := Function.update t.procs np q' }
    match kstack, pgdir with
    -- `allocproc` gives the slot back when there is no kernel stack
    | none, _ => (set { q with kstack := 0, state := .UNUSED }, -1)
    -- `kfree(np->kstack); np->kstack = 0; np->state = UNUSED;`
    | some _, none => (set { q with pgdir := 0, kstack := 0, state := .UNUSED }, -1)
    | some ks, some pd =>
      (set { q with kstack := ks, pgdir := pd, parent := some cur, state := .RUNNABLE }, q.pid)

/-- One iteration of `exit`'s loop over the table: a child of `cur` passes to `init`,
which is woken when the child is already a zombie. -/
def reparentOne (cur init : Fin NPROC) (procs : Fin NPROC → Proc) (p : Fin NPROC) :
    Fin NPROC → Proc :=
  if (procs p).parent = some cur then
    let procs := Function.update procs p { procs p with parent := some init }
    if (procs p).state = .ZOMBIE then wakeup1 procs (.proc init) else procs
  else procs

/-- `exit` called by `cur`, from `acquire(&ptable.lock)` on; the files and the working
directory are closed before, outside the table. -/
def exit (t : Ptable) (cur : Fin NPROC) : Except String Ptable :=
  if cur = t.initproc then throw "init exiting"
  else
    let procs := match (t.procs cur).parent with
      | some q => wakeup1 t.procs (.proc q)
      | none => t.procs
    let procs := (List.finRange NPROC).foldl (reparentOne cur t.initproc) procs
    pure { t with procs := Function.update procs cur { procs cur with state := .ZOMBIE } }

/-- How one pass of `wait`'s loop ends. -/
inductive WaitResult where
  /-- a zombie child with this pid was freed, with its kernel stack and page directory -/
  | reaped (pid : Int32) (kstack pgdir : Nat)
  /-- `return -1` -/
  | fail
  /-- `sleep(proc, &ptable.lock)` -/
  | sleep
  deriving DecidableEq

/-- `sleep(chan, lk)` in the slot `q`: `proc->chan = chan; proc->state = SLEEPING`. -/
def Proc.sleep (q : Proc) (chan : Chan) : Proc := { q with chan := some chan, state := .SLEEPING }

@[simp] theorem Proc.sleep_state (q : Proc) (chan : Chan) : (q.sleep chan).state = .SLEEPING := rfl
@[simp] theorem Proc.sleep_chan (q : Proc) (chan : Chan) : (q.sleep chan).chan = some chan := rfl
@[simp] theorem Proc.sleep_parent (q : Proc) (chan : Chan) : (q.sleep chan).parent = q.parent := rfl

/-- A zombie's slot after `wait` has freed it. -/
def Proc.freed (q : Proc) : Proc :=
  { q with kstack := 0, state := .UNUSED, pid := 0, parent := none, killed := false }

@[simp] theorem Proc.freed_state (q : Proc) : q.freed.state = .UNUSED := rfl
@[simp] theorem Proc.freed_parent (q : Proc) : q.freed.parent = none := rfl

/-- One pass of `wait`'s loop called by `cur`: the scan returns at the first zombie
child; otherwise it knows whether `cur` has children at all. -/
def wait (t : Ptable) (cur : Fin NPROC) : Ptable × WaitResult :=
  match (List.finRange NPROC).find?
      (fun p => (t.procs p).parent = some cur ∧ (t.procs p).state = .ZOMBIE) with
  | some p =>
    let q := t.procs p
    ({ t with procs := Function.update t.procs p q.freed }, .reaped q.pid q.kstack q.pgdir)
  | none =>
    let havekids := (List.finRange NPROC).any fun p => (t.procs p).parent = some cur
    if !havekids || (t.procs cur).killed then (t, .fail)
    else ({ t with procs := Function.update t.procs cur ((t.procs cur).sleep (.proc cur)) }, .sleep)

/-- `kill`: the first slot with the pid is marked, and woken if it sleeps. -/
def kill (t : Ptable) (pid : Int32) : Ptable × Int32 :=
  match (List.finRange NPROC).find? (fun p => (t.procs p).pid = pid) with
  | none => (t, -1)
  | some p =>
    let q := { t.procs p with killed := true }
    let q := if q.state = .SLEEPING then { q with state := .RUNNABLE } else q
    ({ t with procs := Function.update t.procs p q }, 0)

/-! ## The table as a system -/

/-- The critical sections of `ptable.lock`: the calls of a running process, the
scheduler's switch to a runnable one, and `wakeup` from anywhere. A process sleeps
elsewhere than in `wait` on an address that is no slot. -/
inductive ProcCall where
  | fork (cur : Fin NPROC) (kstack pgdir : Option Nat)
  | exit (cur : Fin NPROC)
  | wait (cur : Fin NPROC)
  | kill (pid : Int32)
  | sleep (cur : Fin NPROC) (chan : Nat)
  | yield (cur : Fin NPROC)
  | wakeup (chan : Chan)
  | schedule (p : Fin NPROC)
  deriving DecidableEq

/-- Whether slot `p` holds a running process. -/
def Ptable.running (t : Ptable) (p : Fin NPROC) : Bool := (t.procs p).state = .RUNNING

/-- One step of the table; a call of a process that is not running is refused, and
so is a panic. -/
def procNext (t : Ptable) : ProcCall → Option Ptable
  | .fork cur ks pd => if t.running cur then some (fork t cur ks pd).1 else none
  | .exit cur => if t.running cur then (exit t cur).toOption else none
  | .wait cur => if t.running cur then some (wait t cur).1 else none
  | .kill pid => some (kill t pid).1
  | .sleep cur a =>
    let q := (t.procs cur).sleep (.other a)
    if t.running cur then some { t with procs := Function.update t.procs cur q } else none
  | .yield cur =>
    let q := { t.procs cur with state := .RUNNABLE }
    if t.running cur then some { t with procs := Function.update t.procs cur q } else none
  | .wakeup chan => some { t with procs := wakeup1 t.procs chan }
  | .schedule p =>
    let q := { t.procs p with chan := none, state := .RUNNING }
    if (t.procs p).state = .RUNNABLE then some { t with procs := Function.update t.procs p q }
    else none

/-- The table right after `userinit`. -/
def ProcInit (t : Ptable) : Prop := ∃ kstack pgdir, userinit Ptable.boot kstack pgdir = some t

/-- The tables the kernel reaches. -/
def ProcReachable : Ptable → Prop := Reach.Reachable ProcInit (Reach.stepOf procNext)

end Xv6
