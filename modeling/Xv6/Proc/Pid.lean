import Xv6.Lib.Word32
import Xv6.Proc.Tree

/-!
# Process identifiers

`allocproc` gives each new slot `nextpid++`, an `int` that nothing resets or checks.
Here `initproc` forks a child that exits at once and is reaped, round after round
(`forkRound`): each round leaves the table as it found it, with `nextpid` one higher.
After `2^31 - 2` rounds the next `fork` hands out `INT_MIN`; after `2^32 - 1` rounds
it hands out `1` again, the pid of `initproc`, which is still running.
-/

namespace Xv6

/-- `initproc` in slot 0, running, with pid 1. -/
def initSlot : Proc := ⟨.RUNNING, 1, none, none, false, 1, 1⟩

/-- A free slot, its page directory pointer left from the process it held. -/
def freeSlot (pgdir : Nat) : Proc := ⟨.UNUSED, 0, none, none, false, 0, pgdir⟩

/-- `initproc` in slot 0, `c` in slot 1, every other slot zero. -/
def roundTable (nextpid : Int32) (c : Proc) : Ptable where
  procs := Function.update (Function.update (fun _ => Proc.zero) 0 initSlot) 1 c
  nextpid := nextpid
  initproc := 0

/-- One round: `initproc` forks, the child runs and exits, `initproc` reaps it. -/
def forkRound : List ProcCall := [.fork 0 (some 2) (some 3), .schedule 1, .exit 1, .wait 0]

theorem roundTable_zero (n : Int32) (c : Proc) : (roundTable n c).procs 0 = initSlot := by
  dsimp only [roundTable]
  rw [Function.update_of_ne (by decide), Function.update_self]

theorem roundTable_one (n : Int32) (c : Proc) : (roundTable n c).procs 1 = c := by
  dsimp only [roundTable]
  rw [Function.update_self]

theorem roundTable_other {n : Int32} {c : Proc} {i : Fin NPROC} (h0 : i ≠ 0) (h1 : i ≠ 1) :
    (roundTable n c).procs i = Proc.zero := by
  dsimp only [roundTable]
  rw [Function.update_of_ne h1, Function.update_of_ne h0]

theorem roundTable_update (n m : Int32) (c c' : Proc) :
    { roundTable n c with procs := Function.update (roundTable n c).procs 1 c', nextpid := m } =
      roundTable m c' := by
  dsimp only [roundTable]
  rw [Function.update_idem]

/-! ## One round -/

/-- `fork` by `initproc` takes slot 1 and returns `nextpid`. -/
theorem fork_round (n : Int32) (pg : Nat) :
    fork (roundTable n (freeSlot pg)) 0 (some 2) (some 3) =
      (roundTable (n + 1) ⟨.RUNNABLE, n, some 0, none, false, 2, 3⟩, n) := by
  have hfind : (List.finRange NPROC).find?
      (fun p => ((roundTable n (freeSlot pg)).procs p).state = .UNUSED) = some 1 := rfl
  simp only [fork, allocproc, hfind, roundTable_one, Function.update_idem]
  rw [← roundTable_update n (n + 1) (freeSlot pg)]
  rfl

theorem round_fork (n : Int32) (pg : Nat) :
    procNext (roundTable n (freeSlot pg)) (.fork 0 (some 2) (some 3)) =
      some (roundTable (n + 1) ⟨.RUNNABLE, n, some 0, none, false, 2, 3⟩) := by
  have hrun : (roundTable n (freeSlot pg)).running 0 = true := by
    rw [Ptable.running, roundTable_zero]
    rfl
  simp only [procNext, hrun, if_true, fork_round]

theorem round_schedule (n pid : Int32) (ks pd : Nat) :
    procNext (roundTable n ⟨.RUNNABLE, pid, some 0, none, false, ks, pd⟩) (.schedule 1) =
      some (roundTable n ⟨.RUNNING, pid, some 0, none, false, ks, pd⟩) := by
  simp only [procNext, roundTable_one, if_true]
  rw [roundTable_update]
  rfl

/-- With nobody asleep, `wakeup1` changes nothing. -/
theorem wakeup1_of_awake {ps : Fin NPROC → Proc} (h : ∀ p, (ps p).state ≠ .SLEEPING) (c : Chan) :
    wakeup1 ps c = ps :=
  funext fun p => if_neg fun h' => h p h'.1

/-- `exit`'s loop changes nothing for a process without children. -/
theorem foldl_reparentOne_of_childless {cur init : Fin NPROC} {ps : Fin NPROC → Proc}
    (h : ∀ p, (ps p).parent ≠ some cur) :
    ∀ l : List (Fin NPROC), l.foldl (reparentOne cur init) ps = ps
  | [] => rfl
  | a :: l => by
    rw [List.foldl_cons, reparentOne, if_neg (h a)]
    exact foldl_reparentOne_of_childless h l

theorem round_exit (n pid : Int32) (ks pd : Nat) :
    procNext (roundTable n ⟨.RUNNING, pid, some 0, none, false, ks, pd⟩) (.exit 1) =
      some (roundTable n ⟨.ZOMBIE, pid, some 0, none, false, ks, pd⟩) := by
  -- nobody sleeps and nobody is a child of slot 1
  have hawake : ∀ p, ((roundTable n ⟨.RUNNING, pid, some 0, none, false, ks, pd⟩).procs p).state ≠
      .SLEEPING := fun p => by
    by_cases h0 : p = 0
    · rw [h0, roundTable_zero]
      decide
    by_cases h1 : p = 1
    · rw [h1, roundTable_one]
      exact fun h => ProcState.noConfusion h
    rw [roundTable_other h0 h1]
    decide
  have hchild : ∀ p, ((roundTable n ⟨.RUNNING, pid, some 0, none, false, ks, pd⟩).procs p).parent ≠
      some 1 := fun p => by
    by_cases h0 : p = 0
    · rw [h0, roundTable_zero]
      decide
    by_cases h1 : p = 1
    · rw [h1, roundTable_one]
      show some (0 : Fin NPROC) ≠ some 1
      decide
    rw [roundTable_other h0 h1]
    decide
  have hrun : (roundTable n ⟨.RUNNING, pid, some 0, none, false, ks, pd⟩).running 1 = true := by
    rw [Ptable.running, roundTable_one]
    rfl
  have hne : (1 : Fin NPROC) ≠ (roundTable n ⟨.RUNNING, pid, some 0, none, false, ks, pd⟩).initproc :=
    show (1 : Fin NPROC) ≠ 0 by decide
  simp only [procNext, hrun, if_true, exit, if_neg hne, roundTable_one, wakeup1_of_awake hawake,
    foldl_reparentOne_of_childless hchild]
  rw [roundTable_update]
  rfl

theorem round_wait (n pid : Int32) (ks pd : Nat) :
    procNext (roundTable n ⟨.ZOMBIE, pid, some 0, none, false, ks, pd⟩) (.wait 0) =
      some (roundTable n (freeSlot pd)) := by
  have hfind : (List.finRange NPROC).find? (fun p =>
      ((roundTable n ⟨.ZOMBIE, pid, some 0, none, false, ks, pd⟩).procs p).parent = some 0 ∧
      ((roundTable n ⟨.ZOMBIE, pid, some 0, none, false, ks, pd⟩).procs p).state = .ZOMBIE) =
      some 1 := rfl
  have hrun : (roundTable n ⟨.ZOMBIE, pid, some 0, none, false, ks, pd⟩).running 0 = true := by
    rw [Ptable.running, roundTable_zero]
    rfl
  simp only [procNext, hrun, if_true, wait, hfind, roundTable_one]
  rw [roundTable_update]
  rfl

/-- A round leaves the table as it found it, with `nextpid` one higher. -/
theorem runEvents_forkRound (n : Int32) (pg : Nat) :
    Reach.runEvents procNext (roundTable n (freeSlot pg)) forkRound =
      some (roundTable (n + 1) (freeSlot 3)) := by
  simp only [forkRound, Reach.runEvents_cons, round_fork, Option.bind_some, round_schedule, round_exit,
    round_wait, Reach.runEvents_nil]

/-! ## The run -/

/-- `userinit`, then the scheduler's switch to `initproc`. -/
theorem runEvents_start :
    Reach.runEvents procNext ((userinit Ptable.boot 1 1).getD Ptable.boot) [.schedule 0] =
      some (roundTable 2 (freeSlot 0)) := by
  have hfind : (List.finRange NPROC).find?
      (fun p => (Ptable.boot.procs p).state = .UNUSED) = some 0 := rfl
  -- slot 1 of the first round's table is still zero
  have hstart : roundTable 2 (freeSlot 0) = ⟨Function.update (fun _ => Proc.zero) 0 initSlot, 2, 0⟩ := by
    dsimp only [roundTable]
    congr 1
    funext i
    by_cases h1 : i = 1
    · rw [h1, Function.update_self, Function.update_of_ne (by decide)]
      rfl
    · rw [Function.update_of_ne h1]
  simp only [userinit, allocproc, hfind, Option.map_some, Option.getD_some, Reach.runEvents_cons,
    Reach.runEvents_nil, procNext, Function.update_self, Function.update_idem, if_true,
    Option.bind_some, hstart]
  rfl

/-- The table after `userinit` and `k` rounds. -/
def afterRounds (k : Nat) : Ptable :=
  roundTable (Int32.ofNat (2 + k)) (freeSlot (if k = 0 then 0 else 3))

theorem afterRounds_reachable (k : Nat) : ProcReachable (afterRounds k) := by
  have h0 : ProcReachable ((userinit Ptable.boot 1 1).getD Ptable.boot) := .init ⟨1, 1, rfl⟩
  have hrounds := Reach.runEvents_replicate procNext forkRound afterRounds k fun j _ => by
    rw [afterRounds, runEvents_forkRound, Word32.int32_ofNat_succ, afterRounds, if_neg (by omega)]
    rfl
  have hrun := Reach.runEvents_append procNext ((userinit Ptable.boot 1 1).getD Ptable.boot)
    [.schedule 0] (List.replicate k forkRound).flatten
  rw [runEvents_start, Option.bind_some] at hrun
  exact Reach.reachable_of_runEvents h0 (hrun.trans hrounds)

theorem pid_wraps :
    (∃ t, ProcReachable t ∧ t.running t.initproc = true ∧
      (fork t t.initproc (some 2) (some 3)).2 < 0 ∧
      ∃ c, ((fork t t.initproc (some 2) (some 3)).1.procs c).state = .RUNNABLE ∧
        ((fork t t.initproc (some 2) (some 3)).1.procs c).pid =
          (fork t t.initproc (some 2) (some 3)).2) ∧
    (∃ t, ProcReachable t ∧ ∃ c, c ≠ t.initproc ∧ (t.procs c).state ≠ .UNUSED ∧
      (t.procs t.initproc).state ≠ .UNUSED ∧ (t.procs c).pid = (t.procs t.initproc).pid) := by
  constructor
  · -- after `2^31 - 2` rounds `nextpid` is `2^31`, which an `int` reads as `INT_MIN`
    have hf := fork_round (Int32.ofNat (2 + (2 ^ 31 - 2))) (if 2 ^ 31 - 2 = 0 then 0 else 3)
    refine ⟨afterRounds (2 ^ 31 - 2), afterRounds_reachable _, ?_, ?_, 1, ?_, ?_⟩
    · show decide (((afterRounds (2 ^ 31 - 2)).procs 0).state = .RUNNING) = true
      rw [afterRounds, roundTable_zero]
      rfl
    · show (fork (afterRounds (2 ^ 31 - 2)) 0 (some 2) (some 3)).2 < 0
      rw [afterRounds, hf]
      decide
    · show ((fork (afterRounds (2 ^ 31 - 2)) 0 (some 2) (some 3)).1.procs 1).state = .RUNNABLE
      rw [afterRounds, hf, roundTable_one]
    · show ((fork (afterRounds (2 ^ 31 - 2)) 0 (some 2) (some 3)).1.procs 1).pid =
        (fork (afterRounds (2 ^ 31 - 2)) 0 (some 2) (some 3)).2
      rw [afterRounds, hf, roundTable_one]
  · -- after `2^32 - 1` rounds `nextpid` has come round to `1`, the pid of `initproc`
    have hs := round_fork (Int32.ofNat (2 + (2 ^ 32 - 1))) (if 2 ^ 32 - 1 = 0 then 0 else 3)
    refine ⟨_, Reach.Reachable.step _ (afterRounds_reachable (2 ^ 32 - 1)) hs, 1, by decide, ?_, ?_,
      ?_⟩
    · rw [roundTable_one]
      exact fun h => ProcState.noConfusion h
    · show ((roundTable _ _).procs 0).state ≠ .UNUSED
      rw [roundTable_zero]
      exact fun h => ProcState.noConfusion h
    · show ((roundTable _ _).procs 1).pid = ((roundTable _ _).procs 0).pid
      rw [roundTable_zero, roundTable_one]
      decide

end Xv6
