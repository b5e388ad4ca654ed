import Xv6.Proc.Pid

/-!
# `kill`

`kill(pid)` scans every slot of `ptable.proc`, `UNUSED` ones included, and marks the
first whose `pid` field is `pid`; `allocproc` gives a free slot its state and pid and
leaves its `killed` flag as it finds it. A free slot holds pid `0` (it was never used,
or `wait` cleared it) or the pid of a `fork` that failed after `allocproc`. A `kill` of
such a pid returns `0` and marks the free slot, and the next process that `fork` puts
there starts killed (`kill_marks_free_slot`).
-/

namespace Xv6

/-! ## One call -/

/-- Everything `kill` can do: fail with no slot holding the pid, or mark the first slot
that holds it, waking it if it sleeps, and touch nothing else. -/
theorem kill_cases (t : Ptable) (pid : Int32) :
    ((∀ p, (t.procs p).pid ≠ pid) ∧ kill t pid = (t, -1)) ∨
      ∃ p, (t.procs p).pid = pid ∧ (kill t pid).2 = 0 ∧ (kill t pid).1.nextpid = t.nextpid ∧
        ((kill t pid).1.procs p).killed = true ∧
        ((kill t pid).1.procs p).pid = pid ∧
        ((kill t pid).1.procs p).state =
          (if (t.procs p).state = .SLEEPING then .RUNNABLE else (t.procs p).state) ∧
        ∀ q, q ≠ p → (kill t pid).1.procs q = t.procs q := by
  unfold kill
  split
  · rename_i hnone
    refine Or.inl ⟨fun p hp => ?_, rfl⟩
    exact List.find?_eq_none.mp hnone p (List.mem_finRange p) (decide_eq_true hp)
  · rename_i p hp
    have hu := List.find?_some hp
    have hpid : (t.procs p).pid = pid := of_decide_eq_true hu
    refine Or.inr ⟨p, hpid, rfl, rfl, ?_, ?_, ?_, fun q hq => Function.update_of_ne hq _ _⟩
    · dsimp only
      rw [Function.update_self]
      split <;> rfl
    · dsimp only
      rw [Function.update_self]
      split <;> exact hpid
    · dsimp only
      rw [Function.update_self]
      split <;> rfl

/-- `kill` returns `0` exactly when some slot, live or free, holds the pid. -/
theorem kill_ret_eq_zero (t : Ptable) (pid : Int32) :
    (kill t pid).2 = 0 ↔ ∃ p, (t.procs p).pid = pid := by
  rcases kill_cases t pid with ⟨hnone, hk⟩ | ⟨p, hp, hret, -⟩
  · rw [hk]
    exact ⟨fun h => absurd (show (-1 : Int32) = 0 from h) (by decide), fun ⟨p, hp⟩ => absurd hp (hnone p)⟩
  · exact ⟨fun _ => ⟨p, hp⟩, fun _ => hret⟩

/-- `allocproc` keeps the `killed` flag of the slot it takes. -/
theorem allocproc_killed {t t' : Ptable} {np : Fin NPROC} (h : allocproc t = some (np, t')) :
    (t'.procs np).killed = (t.procs np).killed := by
  obtain ⟨-, rfl⟩ := allocproc_eq_some h
  dsimp only
  rw [Function.update_self]

/-- A child `fork` creates carries the `killed` flag its slot had while free. -/
theorem fork_child_killed {t : Ptable} {np : Fin NPROC} {t1 : Ptable}
    (ha : allocproc t = some (np, t1)) (cur : Fin NPROC) (ks pd : Nat) :
    ((fork t cur (some ks) (some pd)).1.procs np).killed = (t.procs np).killed ∧
      ((fork t cur (some ks) (some pd)).1.procs np).state = .RUNNABLE := by
  have hk := allocproc_killed ha
  unfold fork
  rw [ha]
  dsimp only
  rw [Function.update_self]
  exact ⟨hk, rfl⟩

/-! ## From boot -/

/-- After `userinit` and the switch to `initproc`, only slot 0 is in use, and every
other slot, free, holds pid `0`. -/
theorem boot_table_pid_zero (p : Fin NPROC) (h : ((afterRounds 0).procs p).pid = 0) :
    ((afterRounds 0).procs p).state = .UNUSED := by
  by_cases h0 : p = 0
  · rw [h0, afterRounds, roundTable_zero] at h
    exact absurd h (by decide)
  by_cases h1 : p = 1
  · rw [h1, afterRounds, roundTable_one]
    rfl
  · rw [afterRounds, roundTable_other h0 h1]
    rfl

/-- `kill(0)` right after boot: no live process has pid `0`, yet `kill` returns `0` and
marks free slot 1, and the child `initproc` then forks into slot 1 is runnable and
killed. A `fork` whose `copyuvm` fails leaves its pid in the freed slot, and `kill` of
that pid again returns `0`. -/
theorem kill_marks_free_slot :
    ProcReachable (afterRounds 0) ∧
      (∀ p, ((afterRounds 0).procs p).pid = 0 → ((afterRounds 0).procs p).state = .UNUSED) ∧
      (kill (afterRounds 0) 0).2 = 0 ∧
      ((fork (kill (afterRounds 0) 0).1 0 (some 2) (some 3)).1.procs 1).state = .RUNNABLE ∧
      ((fork (kill (afterRounds 0) 0).1 0 (some 2) (some 3)).1.procs 1).killed = true ∧
      (fork (afterRounds 0) 0 (some 2) none).2 = -1 ∧
      ((fork (afterRounds 0) 0 (some 2) none).1.procs 1).state = .UNUSED ∧
      (kill (fork (afterRounds 0) 0 (some 2) none).1 2).2 = 0 := by
  -- `kill` finds slot 1, the first with pid 0, and `allocproc` then takes the same slot
  have h0 : afterRounds 0 = roundTable 2 (freeSlot 0) := rfl
  have hfind : (List.finRange NPROC).find?
      (fun p => ((roundTable 2 (freeSlot 0)).procs p).pid = 0) = some 1 := rfl
  have hkill : (kill (afterRounds 0) 0).1 = roundTable 2 { freeSlot 0 with killed := true } := by
    simp only [h0, kill, hfind, roundTable_one]
    rw [roundTable_update]
    rfl
  have ha : allocproc (kill (afterRounds 0) 0).1 = some (1, roundTable 3
      { freeSlot 0 with killed := true, state := .EMBRYO, pid := 2 }) := by
    have hf : (List.finRange NPROC).find?
        (fun p => ((roundTable 2 { freeSlot 0 with killed := true }).procs p).state = .UNUSED) =
          some 1 := rfl
    simp only [hkill, allocproc, hf, roundTable_one]
    rw [roundTable_update]
    rfl
  have hchild := fork_child_killed ha 0 2 3
  have hfail : fork (afterRounds 0) 0 (some 2) none =
      (roundTable 3 { freeSlot 0 with pid := 2 }, -1) := by
    have hf : (List.finRange NPROC).find?
        (fun p => ((roundTable 2 (freeSlot 0)).procs p).state = .UNUSED) = some 1 := rfl
    simp only [h0, fork, allocproc, hf, roundTable_one, Function.update_self]
    rw [Function.update_idem, roundTable_update]
    rfl
  refine ⟨afterRounds_reachable 0, boot_table_pid_zero, ?_, hchild.2, ?_, by rw [hfail], ?_, ?_⟩
  · rw [kill_ret_eq_zero]
    exact ⟨1, by rw [h0, roundTable_one]; rfl⟩
  · rw [hchild.1, hkill, roundTable_one]
  · rw [hfail, roundTable_one]
    rfl
  · rw [hfail, kill_ret_eq_zero]
    exact ⟨1, by rw [roundTable_one]⟩

end Xv6
