import Xv6.Proc.Table

/-!
# The process tree

What the table keeps between critical sections (`TreeInv`): every process but
`initproc` has a live parent, a zombie has no children, and a process asleep in
`wait` has no zombie child, so the wakeups of `exit` are never missed. Each function
of `proc.c` keeps it: the calls that move no process into or out of the tree by
`TreeInv.of_view`, and `fork`, `exit` and `wait`'s reaping by a lemma of their own.
`exit`'s loop is summarised by `Reparented`, built one iteration at a time.
-/

namespace Xv6

/-! ## The functions, slot by slot -/

theorem allocproc_eq_some {t t' : Ptable} {np : Fin NPROC} (h : allocproc t = some (np, t')) :
    (t.procs np).state = .UNUSED ∧
      t' = { t with
        procs := Function.update t.procs np { t.procs np with state := .EMBRYO, pid := t.nextpid }
        nextpid := t.nextpid + 1 } := by
  unfold allocproc at h
  split at h
  · cases h
  · rename_i p hp
    cases h
    have hu := List.find?_some hp
    exact ⟨of_decide_eq_true hu, rfl⟩

theorem allocproc_eq_none {t : Ptable} (h : allocproc t = none) :
    ∀ p, (t.procs p).state ≠ .UNUSED := by
  unfold allocproc at h
  split at h
  · rename_i hp
    intro p hu
    exact absurd (decide_eq_true hu) (List.find?_eq_none.mp hp p (List.mem_finRange p))
  · cases h

/-- A slot `wakeup1` may have woken: the same channel, and the same state unless it was
asleep and is now runnable. -/
def Proc.Woken (q q' : Proc) : Prop :=
  q'.chan = q.chan ∧ (q'.state = q.state ∨ (q.state = .SLEEPING ∧ q'.state = .RUNNABLE))

theorem Proc.Woken.refl (q : Proc) : q.Woken q := ⟨rfl, Or.inl rfl⟩

theorem Proc.Woken.trans {q q' q'' : Proc} (h1 : q.Woken q') (h2 : q'.Woken q'') : q.Woken q'' := by
  obtain ⟨hc1, hs1⟩ := h1
  obtain ⟨hc2, hs2⟩ := h2
  refine ⟨hc2.trans hc1, ?_⟩
  rcases hs1 with hs1 | ⟨hq, hq'⟩ <;> rcases hs2 with hs2 | ⟨hq2, hq2'⟩
  · exact Or.inl (hs2.trans hs1)
  · exact Or.inr ⟨hs1 ▸ hq2, hq2'⟩
  · exact Or.inr ⟨hq, hs2.trans hq'⟩
  · rw [hq'] at hq2
    cases hq2

/-- Waking changes no state but `SLEEPING`. -/
theorem Proc.Woken.state_eq {q q' : Proc} (h : q.Woken q') (hs : q.state ≠ .SLEEPING) :
    q'.state = q.state := by
  rcases h.2 with h2 | ⟨h2, -⟩
  · exact h2
  · exact absurd h2 hs

theorem Proc.Woken.sleeping {q q' : Proc} (h : q.Woken q') (hs : q'.state = .SLEEPING) :
    q.state = .SLEEPING := by
  rcases h.2 with h2 | ⟨-, h2⟩
  · exact h2 ▸ hs
  · rw [h2] at hs
    cases hs

/-- A state other than the two that waking swaps is kept both ways. -/
theorem Proc.Woken.state_iff {q q' : Proc} (h : q.Woken q') {s : ProcState}
    (hs : s ≠ .SLEEPING) (hr : s ≠ .RUNNABLE) : q'.state = s ↔ q.state = s := by
  constructor
  · intro h'
    rcases h.2 with h2 | ⟨-, h2⟩
    · exact h2 ▸ h'
    · exact absurd (h2.symm.trans h') (Ne.symm hr)
  · intro h'
    rw [h.state_eq (h' ▸ hs), h']

theorem Proc.Woken.alive_iff {q q' : Proc} (h : q.Woken q') :
    (q'.state ≠ .UNUSED ∧ q'.state ≠ .ZOMBIE) ↔ (q.state ≠ .UNUSED ∧ q.state ≠ .ZOMBIE) := by
  rw [Ne, Ne, h.state_iff (by decide) (by decide), h.state_iff (by decide) (by decide)]

theorem wakeup1_woken (ps : Fin NPROC → Proc) (chan : Chan) (p : Fin NPROC) :
    (ps p).Woken (wakeup1 ps chan p) ∧ (wakeup1 ps chan p).parent = (ps p).parent := by
  unfold wakeup1
  split
  · rename_i h
    exact ⟨⟨rfl, Or.inr ⟨h.1, rfl⟩⟩, rfl⟩
  · exact ⟨Proc.Woken.refl _, rfl⟩

/-- After `wakeup1` nothing sleeps on its channel. -/
theorem wakeup1_awake (ps : Fin NPROC → Proc) (chan : Chan) (p : Fin NPROC)
    (hs : (wakeup1 ps chan p).state = .SLEEPING) : (wakeup1 ps chan p).chan ≠ some chan := by
  unfold wakeup1 at *
  split at hs
  · cases hs
  · rename_i h
    rw [if_neg h]
    exact fun hc => h ⟨hs, hc⟩

/-! ## The invariant -/

/-- Slot `c` holds a child of `p`. -/
def Ptable.IsChild (t : Ptable) (c p : Fin NPROC) : Prop :=
  (t.procs c).state ≠ .UNUSED ∧ (t.procs c).parent = some p

/-- Slot `p` holds a process that has not exited. -/
def Ptable.Alive (t : Ptable) (p : Fin NPROC) : Prop :=
  (t.procs p).state ≠ .UNUSED ∧ (t.procs p).state ≠ .ZOMBIE

/-- What every critical section of `ptable.lock` leaves true. -/
structure TreeInv (t : Ptable) : Prop where
  init_alive : t.Alive t.initproc
  init_root : (t.procs t.initproc).parent = none
  unused_parent : ∀ p, (t.procs p).state = .UNUSED → (t.procs p).parent = none
  no_embryo : ∀ p, (t.procs p).state ≠ .EMBRYO
  no_self : ∀ p, (t.procs p).parent ≠ some p
  parent_alive : ∀ p, p ≠ t.initproc → (t.procs p).state ≠ .UNUSED →
    ∃ q, (t.procs p).parent = some q ∧ t.Alive q
  zombie_childless : ∀ z c, (t.procs z).state = .ZOMBIE → ¬ t.IsChild c z
  wait_awake : ∀ p c, (t.procs p).state = .SLEEPING → (t.procs p).chan = some (.proc p) →
    (t.procs c).parent = some p → (t.procs c).state ≠ .ZOMBIE

/-- A step that moves no slot into or out of `UNUSED` or `ZOMBIE`, changes no parent
and puts a process to sleep in `wait` only when it has no zombie child keeps the
tree. -/
theorem TreeInv.of_view {t t' : Ptable} (h : TreeInv t) (hinit : t'.initproc = t.initproc)
    (hparent : ∀ p, (t'.procs p).parent = (t.procs p).parent)
    (hunused : ∀ p, (t'.procs p).state = .UNUSED ↔ (t.procs p).state = .UNUSED)
    (hzombie : ∀ p, (t'.procs p).state = .ZOMBIE ↔ (t.procs p).state = .ZOMBIE)
    (hembryo : ∀ p, (t'.procs p).state ≠ .EMBRYO)
    (hsleep : ∀ p, (t'.procs p).state = .SLEEPING → (t'.procs p).chan = some (.proc p) →
      ((t.procs p).state = .SLEEPING ∧ (t.procs p).chan = some (.proc p)) ∨
        ∀ c, (t.procs c).parent = some p → (t.procs c).state ≠ .ZOMBIE) :
    TreeInv t' := by
  have halive : ∀ p, t'.Alive p ↔ t.Alive p := fun p => by
    simp only [Ptable.Alive, Ne, hunused, hzombie]
  refine ⟨?_, ?_, ?_, hembryo, ?_, ?_, ?_, ?_⟩
  · rw [hinit, halive]
    exact h.init_alive
  · rw [hinit, hparent]
    exact h.init_root
  · intro p hp
    rw [hparent]
    exact h.unused_parent p ((hunused p).mp hp)
  · intro p
    rw [hparent]
    exact h.no_self p
  · intro p hp hu
    obtain ⟨q, hq, hqa⟩ := h.parent_alive p (hinit ▸ hp) (fun h' => hu ((hunused p).mpr h'))
    exact ⟨q, (hparent p).trans hq, (halive q).mpr hqa⟩
  · intro z c hz ⟨hcu, hcp⟩
    exact h.zombie_childless z c ((hzombie z).mp hz)
      ⟨fun h' => hcu ((hunused c).mpr h'), (hparent c).symm.trans hcp⟩
  · intro p c hs hc hcp hcz
    have hcp' := (hparent c).symm.trans hcp
    rcases hsleep p hs hc with ⟨hs0, hc0⟩ | hnone
    · exact h.wait_awake p c hs0 hc0 hcp' ((hzombie c).mp hcz)
    · exact hnone c hcp' ((hzombie c).mp hcz)

/-- Waking keeps the tree. -/
theorem TreeInv.of_woken {t t' : Ptable} (h : TreeInv t) (hinit : t'.initproc = t.initproc)
    (hparent : ∀ p, (t'.procs p).parent = (t.procs p).parent)
    (hwoken : ∀ p, (t.procs p).Woken (t'.procs p)) : TreeInv t' := by
  refine h.of_view hinit hparent (fun p => (hwoken p).state_iff (by decide) (by decide))
    (fun p => (hwoken p).state_iff (by decide) (by decide))
    (fun p he => h.no_embryo p (((hwoken p).state_iff (by decide) (by decide)).mp he)) ?_
  intro p hs hc
  exact Or.inl ⟨(hwoken p).sleeping hs, (hwoken p).1 ▸ hc⟩

/-- A step that rewrites one slot without moving it into or out of the tree. -/
theorem TreeInv.update_slot {t t' : Ptable} (h : TreeInv t) (hinit : t'.initproc = t.initproc)
    {p : Fin NPROC} {q : Proc} (ht' : t'.procs = Function.update t.procs p q)
    (hpar : q.parent = (t.procs p).parent)
    (hun : q.state = .UNUSED ↔ (t.procs p).state = .UNUSED)
    (hz : q.state = .ZOMBIE ↔ (t.procs p).state = .ZOMBIE) (he : q.state ≠ .EMBRYO)
    (hsl : q.state = .SLEEPING → q.chan = some (.proc p) →
      ((t.procs p).state = .SLEEPING ∧ (t.procs p).chan = some (.proc p)) ∨
        ∀ c, (t.procs c).parent = some p → (t.procs c).state ≠ .ZOMBIE) :
    TreeInv t' := by
  have hslot : ∀ i, t'.procs i = if i = p then q else t.procs i := fun i => by
    rw [ht', Function.update_apply]
  refine h.of_view hinit (fun i => ?_) (fun i => ?_) (fun i => ?_) (fun i => ?_) (fun i => ?_)
  all_goals rw [hslot i]; by_cases hi : i = p
  · rw [if_pos hi, hi, hpar]
  · rw [if_neg hi]
  · rw [if_pos hi, hi, hun]
  · rw [if_neg hi]
  · rw [if_pos hi, hi, hz]
  · rw [if_neg hi]
  · rw [if_pos hi]
    exact he
  · rw [if_neg hi]
    exact h.no_embryo i
  · rw [if_pos hi, hi]
    exact hsl
  · rw [if_neg hi]
    exact fun hs hc => Or.inl ⟨hs, hc⟩

/-- A running process is in the tree. -/
theorem Ptable.alive_of_running {t : Ptable} {p : Fin NPROC} (hr : t.running p = true) :
    t.Alive p := by
  have hs : (t.procs p).state = .RUNNING := of_decide_eq_true hr
  exact ⟨by rw [hs]; decide, by rw [hs]; decide⟩

/-! ## `fork` -/

/-- `fork` leaves a full table alone; otherwise it rewrites the first free slot, which
gets pid `nextpid`: a runnable child of the caller, or, when memory runs out, a free
slot again. -/
theorem fork_spec (t : Ptable) (cur : Fin NPROC) (ks pd : Option Nat) :
    fork t cur ks pd = (t, -1) ∨
      ∃ np q, (t.procs np).state = .UNUSED ∧
        (fork t cur ks pd).1 =
          { t with procs := Function.update t.procs np q, nextpid := t.nextpid + 1 } ∧
        q.pid = t.nextpid ∧ ((q.state = .UNUSED ∧ q.parent = (t.procs np).parent ∧ (fork t cur ks pd).2 = -1) ∨
          (q.state = .RUNNABLE ∧ q.parent = some cur ∧ (fork t cur ks pd).2 = t.nextpid)) := by
  unfold fork
  split
  · exact Or.inl rfl
  · rename_i np t1 ha
    obtain ⟨hun, rfl⟩ := allocproc_eq_some ha
    right
    dsimp only
    simp only [Function.update_self]
    -- the slot written last is the one `fork` returns; the `EMBRYO` write is overwritten
    split <;> rw [Function.update_idem]
    · exact ⟨np, _, hun, rfl, rfl, Or.inl ⟨rfl, rfl, rfl⟩⟩
    · exact ⟨np, _, hun, rfl, rfl, Or.inl ⟨rfl, rfl, rfl⟩⟩
    · exact ⟨np, _, hun, rfl, rfl, Or.inr ⟨rfl, rfl, rfl⟩⟩

/-- A free slot becomes a runnable child of a live process. -/
theorem TreeInv.add_child {t t' : Ptable} (h : TreeInv t) (hinit : t'.initproc = t.initproc)
    {np cur : Fin NPROC} {q : Proc} (ht' : t'.procs = Function.update t.procs np q)
    (hun : (t.procs np).state = .UNUSED) (hq : q.state = .RUNNABLE) (hqp : q.parent = some cur)
    (hcur : t.Alive cur) : TreeInv t' := by
  have hnp : np ≠ cur := fun he => hcur.1 (he ▸ hun)
  have hnew : t'.procs np = q := by rw [ht', Function.update_self]
  have hold : ∀ i, i ≠ np → t'.procs i = t.procs i := fun i hi => by
    rw [ht', Function.update_of_ne hi]
  -- a live slot is not the one that was free
  have hne : ∀ i, t.Alive i → i ≠ np := fun i hi he => hi.1 (he ▸ hun)
  have halive : ∀ i, t.Alive i → t'.Alive i := fun i hi => by
    rw [Ptable.Alive, hold i (hne i hi)]
    exact hi
  have hinit_ne := hne _ h.init_alive
  refine ⟨?_, ?_, ?_, ?_, ?_, ?_, ?_, ?_⟩
  · rw [hinit]
    exact halive _ h.init_alive
  · rw [hinit, hold _ hinit_ne]
    exact h.init_root
  · intro i hi
    by_cases he : i = np
    · rw [he, hnew, hq] at hi
      cases hi
    · rw [hold i he] at hi ⊢
      exact h.unused_parent i hi
  · intro i
    by_cases he : i = np
    · rw [he, hnew, hq]
      decide
    · rw [hold i he]
      exact h.no_embryo i
  · intro i
    by_cases he : i = np
    · rw [he, hnew, hqp]
      exact fun hc => hnp (Option.some.inj hc).symm
    · rw [hold i he]
      exact h.no_self i
  · intro i hi hu
    by_cases he : i = np
    · rw [he, hnew, hqp]
      exact ⟨cur, rfl, halive cur hcur⟩
    · rw [hold i he] at hu ⊢
      obtain ⟨r, hr, hra⟩ := h.parent_alive i (hinit ▸ hi) hu
      exact ⟨r, hr, halive r hra⟩
  · intro z c hz ⟨hcu, hcp⟩
    have hzn : z ≠ np := fun he => by rw [he, hnew, hq] at hz; cases hz
    rw [hold z hzn] at hz
    by_cases he : c = np
    · rw [he, hnew, hqp] at hcp
      exact hcur.2 (Option.some.inj hcp ▸ hz)
    · rw [hold c he] at hcu hcp
      exact h.zombie_childless z c hz ⟨hcu, hcp⟩
  · intro p c hs hc hcp hcz
    have hpn : p ≠ np := fun he => by rw [he, hnew, hq] at hs; cases hs
    have hcn : c ≠ np := fun he => by rw [he, hnew, hq] at hcz; cases hcz
    rw [hold p hpn] at hs hc
    rw [hold c hcn] at hcp hcz
    exact h.wait_awake p c hs hc hcp hcz

theorem TreeInv.of_fork {t : Ptable} (h : TreeInv t) {cur : Fin NPROC} (hr : t.running cur = true)
    (ks pd : Option Nat) : TreeInv (fork t cur ks pd).1 := by
  rcases fork_spec t cur ks pd with hf | ⟨np, q, hun, hf, -, hq⟩
  · rw [hf]
    exact h
  rw [hf]
  have hcur : t.Alive cur := Ptable.alive_of_running hr
  have hnp : cur ≠ np := fun he => hcur.1 (he ▸ hun)
  rcases hq with ⟨hqu, hqp, -⟩ | ⟨hqr, hqp, -⟩
  · -- the slot is handed back: nothing moved
    refine h.update_slot rfl rfl hqp (by rw [hqu, hun]) (by rw [hqu, hun]) (by rw [hqu]; decide)
      (by rw [hqu]; intro h'; cases h')
  · exact h.add_child rfl rfl hun hqr hqp hcur

/-! ## `wait` -/

/-- `wait` frees the first zombie child of the caller; with none, it returns `-1` when
the caller has no child or was killed, and otherwise sleeps on its own slot. -/
theorem wait_spec (t : Ptable) (cur : Fin NPROC) :
    (∃ c, (t.procs c).parent = some cur ∧ (t.procs c).state = .ZOMBIE ∧
      wait t cur = ({ t with procs := Function.update t.procs c (t.procs c).freed },
        .reaped (t.procs c).pid (t.procs c).kstack (t.procs c).pgdir)) ∨
    ((∀ c, (t.procs c).parent = some cur → (t.procs c).state ≠ .ZOMBIE) ∧
      ((wait t cur = (t, .fail) ∧ ((∀ c, (t.procs c).parent ≠ some cur) ∨ (t.procs cur).killed)) ∨
        wait t cur =
          ({ t with procs := Function.update t.procs cur ((t.procs cur).sleep (.proc cur)) },
            .sleep))) := by
  unfold wait
  split
  · rename_i c hc
    have hz0 := List.find?_some hc
    have hz := of_decide_eq_true hz0
    exact Or.inl ⟨c, hz.1, hz.2, rfl⟩
  · rename_i hnone
    have hnz : ∀ c, (t.procs c).parent = some cur → (t.procs c).state ≠ .ZOMBIE :=
      fun c hp hz => List.find?_eq_none.mp hnone c (List.mem_finRange c) (decide_eq_true ⟨hp, hz⟩)
    refine Or.inr ⟨hnz, ?_⟩
    dsimp only
    split
    · rename_i hfail
      refine Or.inl ⟨rfl, ?_⟩
      rcases Bool.or_eq_true_iff.mp hfail with hk | hk
      · left
        intro c hc
        have hany := Bool.not_eq_true' _ |>.mp hk
        rw [List.any_eq_false] at hany
        exact hany c (List.mem_finRange c) (decide_eq_true hc)
      · exact Or.inr hk
    · exact Or.inr rfl

/-- A zombie child freed by `wait` leaves the tree. -/
theorem TreeInv.free_zombie {t t' : Ptable} (h : TreeInv t) (hinit : t'.initproc = t.initproc)
    {c : Fin NPROC} {q : Proc} (ht' : t'.procs = Function.update t.procs c q)
    (hz : (t.procs c).state = .ZOMBIE) (hq : q.state = .UNUSED) (hqp : q.parent = none) :
    TreeInv t' := by
  have hnew : t'.procs c = q := by rw [ht', Function.update_self]
  have hold : ∀ i, i ≠ c → t'.procs i = t.procs i := fun i hi => by
    rw [ht', Function.update_of_ne hi]
  have hne : ∀ i, t.Alive i → i ≠ c := fun i hi he => hi.2 (he ▸ hz)
  have halive : ∀ i, t.Alive i → t'.Alive i := fun i hi => by
    rw [Ptable.Alive, hold i (hne i hi)]
    exact hi
  refine ⟨?_, ?_, ?_, ?_, ?_, ?_, ?_, ?_⟩
  · rw [hinit]
    exact halive _ h.init_alive
  · rw [hinit, hold _ (hne _ h.init_alive)]
    exact h.init_root
  · intro i hi
    by_cases he : i = c
    · rw [he, hnew, hqp]
    · rw [hold i he] at hi ⊢
      exact h.unused_parent i hi
  · intro i
    by_cases he : i = c
    · rw [he, hnew, hq]
      decide
    · rw [hold i he]
      exact h.no_embryo i
  · intro i
    by_cases he : i = c
    · rw [he, hnew, hqp]
      exact (Option.some_ne_none c).symm
    · rw [hold i he]
      exact h.no_self i
  · intro i hi hu
    have hic : i ≠ c := fun he => by rw [he, hnew, hq] at hu; exact hu rfl
    rw [hold i hic] at hu ⊢
    obtain ⟨r, hr, hra⟩ := h.parent_alive i (hinit ▸ hi) hu
    exact ⟨r, hr, halive r hra⟩
  · intro z c' hz' ⟨hcu, hcp⟩
    have hzc : z ≠ c := fun he => by rw [he, hnew, hq] at hz'; cases hz'
    have hcc : c' ≠ c := fun he => by rw [he, hnew] at hcu; exact hcu hq
    rw [hold z hzc] at hz'
    rw [hold c' hcc] at hcu hcp
    exact h.zombie_childless z c' hz' ⟨hcu, hcp⟩
  · intro p c' hs hch hcp hcz
    have hpc : p ≠ c := fun he => by rw [he, hnew, hq] at hs; cases hs
    have hcc : c' ≠ c := fun he => by rw [he, hnew, hq] at hcz; cases hcz
    rw [hold p hpc] at hs hch
    rw [hold c' hcc] at hcp hcz
    exact h.wait_awake p c' hs hch hcp hcz

theorem TreeInv.of_wait {t : Ptable} (h : TreeInv t) {cur : Fin NPROC} (hr : t.running cur = true) :
    TreeInv (wait t cur).1 := by
  rcases wait_spec t cur with ⟨c, -, hz, hw⟩ | ⟨hnz, ⟨hw, -⟩ | hw⟩ <;> rw [hw]
  · exact h.free_zombie rfl rfl hz rfl rfl
  · exact h
  · have hs : (t.procs cur).state = .RUNNING := of_decide_eq_true hr
    refine h.update_slot rfl rfl rfl ?_ ?_ ?_ (fun _ _ => Or.inr hnz) <;>
      simp only [Proc.sleep_state, hs] <;> decide

/-! ## `exit` -/

/-- What the first iterations of `exit`'s loop, over the slots `l`, have done to `ps`:
woken some sleepers, passed to `init` every child of `cur` among `l` and no other slot,
and woken every sleeper on `init` once a zombie child has been passed. -/
structure Reparented (cur init : Fin NPROC) (ps : Fin NPROC → Proc) (l : List (Fin NPROC))
    (ps' : Fin NPROC → Proc) : Prop where
  woken : ∀ i, (ps i).Woken (ps' i)
  parent : ∀ i, (ps' i).parent = (ps i).parent ∨
    ((ps i).parent = some cur ∧ (ps' i).parent = some init)
  frame : ∀ i, i ∉ l → (ps' i).parent = (ps i).parent
  done : ∀ i ∈ l, (ps' i).parent ≠ some cur
  wake_init : (∃ c ∈ l, (ps c).parent = some cur ∧ (ps c).state = .ZOMBIE) →
    ∀ i, (ps' i).state = .SLEEPING → (ps' i).chan ≠ some (.proc init)

theorem Reparented.nil (cur init : Fin NPROC) (ps : Fin NPROC → Proc) :
    Reparented cur init ps [] ps where
  woken _ := Proc.Woken.refl _
  parent _ := Or.inl rfl
  frame _ _ := rfl
  done _ hi := absurd hi List.not_mem_nil
  wake_init := fun ⟨_, hc, _⟩ => absurd hc List.not_mem_nil

/-- Giving slot `a` a new parent wakes nothing and changes no other parent. -/
theorem update_parent_slot (ps : Fin NPROC → Proc) (a : Fin NPROC) (x : Option (Fin NPROC))
    (i : Fin NPROC) :
    (ps i).Woken (Function.update ps a { ps a with parent := x } i) ∧
      (Function.update ps a { ps a with parent := x } i).parent =
        if i = a then x else (ps i).parent := by
  by_cases he : i = a
  · subst he
    rw [Function.update_self, if_pos rfl]
    exact ⟨⟨rfl, Or.inl rfl⟩, rfl⟩
  · rw [Function.update_of_ne he, if_neg he]
    exact ⟨Proc.Woken.refl _, rfl⟩

/-- A zombie child passed to `init` wakes the sleepers on `init`. -/
theorem reparentOne_zombie {cur init : Fin NPROC} {ps : Fin NPROC → Proc} {a : Fin NPROC}
    (hpa : (ps a).parent = some cur) (hz : (ps a).state = .ZOMBIE) :
    reparentOne cur init ps a =
      wakeup1 (Function.update ps a { ps a with parent := some init }) (.proc init) := by
  unfold reparentOne
  rw [if_pos hpa]
  dsimp only
  rw [Function.update_self, if_pos hz]

/-- One iteration of the loop. -/
theorem reparentOne_spec {cur init : Fin NPROC} (hne : cur ≠ init) (ps : Fin NPROC → Proc)
    (a : Fin NPROC) : Reparented cur init ps [a] (reparentOne cur init ps a) := by
  -- every slot is at most woken, and only `a`, when a child, changes parent
  have hslot : ∀ i, (ps i).Woken (reparentOne cur init ps a i) ∧
      (reparentOne cur init ps a i).parent =
        if i = a ∧ (ps a).parent = some cur then some init else (ps i).parent := by
    intro i
    by_cases hpa : (ps a).parent = some cur
    · have h1 := update_parent_slot ps a (some init) i
      have hif : (if i = a ∧ (ps a).parent = some cur then some init else (ps i).parent) =
          if i = a then some init else (ps i).parent := by
        simp only [hpa, and_true]
      rw [hif]
      by_cases hz : (ps a).state = .ZOMBIE
      · rw [reparentOne_zombie hpa hz]
        obtain ⟨hw, hp⟩ := wakeup1_woken (Function.update ps a { ps a with parent := some init })
          (.proc init) i
        exact ⟨h1.1.trans hw, hp.trans h1.2⟩
      · unfold reparentOne
        rw [if_pos hpa]
        dsimp only
        rw [Function.update_self, if_neg hz]
        exact h1
    · unfold reparentOne
      rw [if_neg hpa, if_neg (fun h => hpa h.2)]
      exact ⟨Proc.Woken.refl _, rfl⟩
  refine ⟨fun i => (hslot i).1, fun i => ?_, fun i hi => ?_, fun i hi => ?_, ?_⟩
  · rw [(hslot i).2]
    split
    · rename_i he
      rw [he.1]
      exact Or.inr ⟨he.2, rfl⟩
    · exact Or.inl rfl
  · rw [(hslot i).2, if_neg (fun he => hi (List.mem_singleton.mpr he.1))]
  · rw [List.mem_singleton.mp hi, (hslot a).2]
    split
    · exact fun he => hne (Option.some.inj he).symm
    · rename_i hpa
      exact fun he => hpa ⟨rfl, he⟩
  · rintro ⟨c, hc, hcp, hcz⟩ i hs
    rw [List.mem_singleton.mp hc] at hcp hcz
    rw [reparentOne_zombie hcp hcz] at hs ⊢
    exact wakeup1_awake _ _ i hs

theorem Reparented.cons {cur init : Fin NPROC} (hne : cur ≠ init) {ps ps1 ps2 : Fin NPROC → Proc}
    {a : Fin NPROC} {l : List (Fin NPROC)} (h1 : Reparented cur init ps [a] ps1)
    (h2 : Reparented cur init ps1 l ps2) : Reparented cur init ps (a :: l) ps2 := by
  -- a slot asleep after both parts was asleep, on the same channel, after the first
  have hsleep : ∀ i, (ps2 i).state = .SLEEPING →
      (ps1 i).state = .SLEEPING ∧ (ps2 i).chan = (ps1 i).chan :=
    fun i hs => ⟨(h2.woken i).sleeping hs, (h2.woken i).1⟩
  refine ⟨fun i => (h1.woken i).trans (h2.woken i), fun i => ?_, fun i hi => ?_,
    fun i hi => ?_, ?_⟩
  · rcases h1.parent i with e1 | ⟨c1, e1⟩ <;> rcases h2.parent i with e2 | ⟨c2, e2⟩
    · exact Or.inl (e2.trans e1)
    · exact Or.inr ⟨e1 ▸ c2, e2⟩
    · exact Or.inr ⟨c1, e2.trans e1⟩
    · exact absurd (Option.some.inj (e1.symm.trans c2)) (Ne.symm hne)
  · have hia : i ∉ [a] := fun h => hi (List.mem_cons.mpr (Or.inl (List.mem_singleton.mp h)))
    have hil : i ∉ l := fun h => hi (List.mem_cons_of_mem a h)
    rw [h2.frame i hil, h1.frame i hia]
  · rcases List.mem_cons.mp hi with he | hl
    · rw [he]
      have hd := h1.done a (List.mem_singleton_self a)
      rcases h2.parent a with e2 | ⟨c2, -⟩
      · rw [e2]
        exact hd
      · exact absurd c2 hd
    · exact h2.done i hl
  · rintro ⟨c, hc, hcp, hcz⟩ i hs
    by_cases hca : c = a
    · have hw := h1.wake_init ⟨c, List.mem_singleton.mpr hca, hcp, hcz⟩ i (hsleep i hs).1
      rw [(hsleep i hs).2]
      exact hw
    · have hcl : c ∈ l := (List.mem_cons.mp hc).resolve_left hca
      have hcp1 : (ps1 c).parent = some cur := by
        rw [h1.frame c (fun h => hca (List.mem_singleton.mp h))]
        exact hcp
      have hcz1 : (ps1 c).state = .ZOMBIE := by
        rw [(h1.woken c).state_eq (by rw [hcz]; decide)]
        exact hcz
      exact h2.wake_init ⟨c, hcl, hcp1, hcz1⟩ i hs

/-- The whole loop. -/
theorem reparent_foldl {cur init : Fin NPROC} (hne : cur ≠ init) :
    ∀ (l : List (Fin NPROC)) (ps : Fin NPROC → Proc),
      Reparented cur init ps l (l.foldl (reparentOne cur init) ps)
  | [], ps => Reparented.nil cur init ps
  | a :: l, ps => by
    rw [List.foldl_cons]
    exact Reparented.cons hne (reparentOne_spec hne ps a) (reparent_foldl hne l _)

theorem TreeInv.of_exit {t t' : Ptable} (h : TreeInv t) {cur : Fin NPROC}
    (hr : t.running cur = true) (hex : exit t cur = .ok t') : TreeInv t' := by
  unfold exit at hex
  split at hex
  · cases hex
  rename_i hne
  obtain ⟨q, hq, hqa⟩ := h.parent_alive cur hne (Ptable.alive_of_running hr).1
  rw [hq] at hex
  simp only [pure, Except.pure, Except.ok.injEq] at hex
  have hinit' : t'.initproc = t.initproc := by rw [← hex]
  have ht' := congrArg Ptable.procs hex.symm
  dsimp only at ht'
  -- the table after `wakeup1(proc->parent)` and after the loop
  generalize hps1 : wakeup1 t.procs (.proc q) = ps1 at ht'
  generalize hps2 : (List.finRange NPROC).foldl (reparentOne cur t.initproc) ps1 = ps2 at ht'
  have R := reparent_foldl hne (List.finRange NPROC) ps1
  rw [hps2] at R
  have hp1 : ∀ i, (ps1 i).parent = (t.procs i).parent := fun i => hps1 ▸ (wakeup1_woken _ _ i).2
  have W : ∀ i, (t.procs i).Woken (ps2 i) := fun i =>
    (hps1 ▸ (wakeup1_woken t.procs (.proc q) i).1).trans (R.woken i)
  have P : ∀ i, (ps2 i).parent = (t.procs i).parent ∨
      ((t.procs i).parent = some cur ∧ (ps2 i).parent = some t.initproc) := fun i => by
    rw [← hp1 i]
    exact R.parent i
  have D : ∀ i, (ps2 i).parent ≠ some cur := fun i => R.done i (List.mem_finRange i)
  have WI : (∃ c, (t.procs c).parent = some cur ∧ (t.procs c).state = .ZOMBIE) →
      ∀ i, (ps2 i).state = .SLEEPING → (ps2 i).chan ≠ some (.proc t.initproc) := by
    rintro ⟨c, hcp, hcz⟩
    have hcz1 : (ps1 c).state = .ZOMBIE := by
      rw [← hps1, (wakeup1_woken t.procs (.proc q) c).1.state_eq (by rw [hcz]; decide)]
      exact hcz
    exact R.wake_init ⟨c, List.mem_finRange c, (hp1 c).trans hcp, hcz1⟩
  -- the parent was woken: nothing sleeps on it any more
  have Q : ∀ i, (ps2 i).state = .SLEEPING → (ps2 i).chan ≠ some (.proc q) := by
    intro i hs
    have hs1 := (R.woken i).sleeping hs
    rw [(R.woken i).1]
    rw [← hps1] at hs1 ⊢
    exact wakeup1_awake t.procs (.proc q) i hs1
  have hqc : q ≠ cur := fun he => h.no_self cur (he ▸ hq)
  have hinit : t.initproc ≠ cur := Ne.symm hne
  -- the new table, slot by slot
  have hnew : (t'.procs cur).state = .ZOMBIE := by
    rw [ht', Function.update_self]
  have hnewp : (t'.procs cur).parent = some q := by
    rw [ht', Function.update_self]
    rcases P cur with e | ⟨e, -⟩
    · exact e.trans hq
    · exact absurd e (h.no_self cur)
  have hold : ∀ i, i ≠ cur → t'.procs i = ps2 i := fun i hi => by
    rw [ht', Function.update_of_ne hi]
  have halive : ∀ i, i ≠ cur → t.Alive i → t'.Alive i := fun i hi ha => by
    rw [Ptable.Alive, hold i hi]
    exact (W i).alive_iff.mpr ha
  have hunused : ∀ i, (ps2 i).state = .UNUSED → (t.procs i).state = .UNUSED :=
    fun i hu => ((W i).state_iff (by decide) (by decide)).mp hu
  have hzombie : ∀ i, (ps2 i).state = .ZOMBIE → (t.procs i).state = .ZOMBIE :=
    fun i hz => ((W i).state_iff (by decide) (by decide)).mp hz
  refine ⟨hinit' ▸ halive _ hinit h.init_alive, ?_, fun i hi => ?_, fun i => ?_, fun i => ?_,
    fun i hi hu => ?_, fun z c hz hc => ?_, fun p c hs hc hcp hcz => ?_⟩
  · rw [hinit', hold _ hinit]
    rcases P t.initproc with e | ⟨e, -⟩
    · exact e.trans h.init_root
    · exact absurd (h.init_root.symm.trans e) (Option.some_ne_none cur).symm
  · by_cases he : i = cur
    · rw [he, hnew] at hi
      cases hi
    · rw [hold i he] at hi ⊢
      rcases P i with e | ⟨e, -⟩
      · exact e.trans (h.unused_parent i (hunused i hi))
      · exact absurd ((h.unused_parent i (hunused i hi)).symm.trans e) (Option.some_ne_none cur).symm
  · by_cases he : i = cur
    · rw [he, hnew]
      decide
    · rw [hold i he]
      exact fun hem => h.no_embryo i (((W i).state_iff (by decide) (by decide)).mp hem)
  · by_cases he : i = cur
    · rw [he, hnewp]
      exact fun e => hqc (Option.some.inj e)
    · rw [hold i he]
      rcases P i with e | ⟨e, e'⟩
      · rw [e]
        exact h.no_self i
      · rw [e']
        intro ei
        have hii : i = t.initproc := (Option.some.inj ei).symm
        rw [hii, h.init_root] at e
        cases e
  · by_cases he : i = cur
    · rw [he, hnewp]
      exact ⟨q, rfl, halive q hqc hqa⟩
    · rw [hold i he] at hu ⊢
      have hu0 : (t.procs i).state ≠ .UNUSED := fun e => hu
        (((W i).state_iff (by decide) (by decide)).mpr e)
      obtain ⟨r, hr0, hra⟩ := h.parent_alive i (hinit' ▸ hi) hu0
      rcases P i with e | ⟨-, e'⟩
      · have hrc : r ≠ cur := fun hrc => D i (by rw [e, hr0, hrc])
        exact ⟨r, e.trans hr0, halive r hrc hra⟩
      · exact ⟨t.initproc, e', halive _ hinit h.init_alive⟩
  · obtain ⟨hcu, hcp⟩ := hc
    by_cases hcc : c = cur
    · rw [hcc, hnewp] at hcp
      have hzq : z = q := (Option.some.inj hcp).symm
      rw [hzq, hold q hqc] at hz
      exact hqa.2 (hzombie q hz)
    · rw [hold c hcc] at hcu hcp
      by_cases hzc : z = cur
      · exact D c (hzc ▸ hcp)
      · rw [hold z hzc] at hz
        rcases P c with e | ⟨-, e'⟩
        · exact h.zombie_childless z c (hzombie z hz)
            ⟨fun e0 => hcu (((W c).state_iff (by decide) (by decide)).mpr e0), e.symm.trans hcp⟩
        · have hzi : z = t.initproc := Option.some.inj (hcp.symm.trans e')
          rw [hzi] at hz
          exact h.init_alive.2 (hzombie _ hz)
  · have hpc : p ≠ cur := fun he => by rw [he, hnew] at hs; cases hs
    rw [hold p hpc] at hs hc
    by_cases hcc : c = cur
    · rw [hcc, hnewp] at hcp
      obtain rfl : q = p := Option.some.inj hcp
      exact Q q hs hc
    · rw [hold c hcc] at hcp hcz
      rcases P c with e | ⟨e, e'⟩
      · exact h.wait_awake p c ((W p).sleeping hs) ((W p).1 ▸ hc) (e.symm.trans hcp) (hzombie c hcz)
      · have hpi : p = t.initproc := (Option.some.inj (hcp.symm.trans e'))
        rw [hpi] at hs hc
        exact WI ⟨c, e, hzombie c hcz⟩ _ hs hc

/-! ## The other critical sections -/

theorem TreeInv.of_kill {t : Ptable} (h : TreeInv t) (pid : Int32) : TreeInv (kill t pid).1 := by
  unfold kill
  split
  · exact h
  · rename_i p _
    refine h.of_woken rfl (fun i => ?_) (fun i => ?_) <;> dsimp only
    · by_cases he : i = p
      · rw [he, Function.update_self]
        split <;> rfl
      · rw [Function.update_of_ne he]
    · by_cases he : i = p
      · rw [he, Function.update_self]
        split
        · rename_i hs
          exact ⟨rfl, Or.inr ⟨hs, rfl⟩⟩
        · exact ⟨rfl, Or.inl rfl⟩
      · rw [Function.update_of_ne he]
        exact Proc.Woken.refl _

/-- Every step of the table keeps the tree. -/
theorem TreeInv.step {t t' : Ptable} (h : TreeInv t) {e : ProcCall}
    (hs : procNext t e = some t') : TreeInv t' := by
  cases e with
  | fork cur ks pd =>
    simp only [procNext] at hs
    split at hs
    · cases hs
      exact h.of_fork ‹_› ks pd
    · cases hs
  | exit cur =>
    simp only [procNext] at hs
    split at hs
    · rename_i hr
      cases hx : exit t cur with
      | error _ => rw [hx] at hs; cases hs
      | ok t1 =>
        rw [hx] at hs
        cases hs
        exact h.of_exit hr hx
    · cases hs
  | wait cur =>
    simp only [procNext] at hs
    split at hs
    · cases hs
      exact h.of_wait ‹_›
    · cases hs
  | kill pid =>
    cases hs
    exact h.of_kill pid
  | sleep cur a =>
    simp only [procNext] at hs
    split at hs
    · rename_i hr
      cases hs
      have hc := of_decide_eq_true hr
      -- the channel is no slot, so this is no sleep in `wait`
      refine h.update_slot rfl rfl rfl ?_ ?_ ?_ (fun _ hch => absurd hch (by simp)) <;>
        simp only [Proc.sleep_state, hc] <;> decide
    · cases hs
  | yield cur =>
    simp only [procNext] at hs
    split at hs
    · rename_i hr
      cases hs
      have hc := of_decide_eq_true hr
      refine h.update_slot rfl rfl rfl ?_ ?_ ?_ (fun hsl _ => ProcState.noConfusion hsl) <;>
        simp only [hc] <;> decide
    · cases hs
  | wakeup chan =>
    cases hs
    exact h.of_woken rfl (fun i => (wakeup1_woken t.procs chan i).2)
      (fun i => (wakeup1_woken t.procs chan i).1)
  | schedule p =>
    simp only [procNext] at hs
    split at hs
    · rename_i hr
      cases hs
      refine h.update_slot rfl rfl rfl ?_ ?_ ?_ (fun hsl _ => ProcState.noConfusion hsl) <;>
        simp only [hr] <;> decide
    · cases hs

/-- After `userinit`, `initproc` is runnable with no parent and every other slot is
still zero. -/
theorem userinit_slots {t : Ptable} (h : ProcInit t) :
    (t.procs t.initproc).state = .RUNNABLE ∧ (t.procs t.initproc).parent = none ∧
      ∀ i, i ≠ t.initproc → t.procs i = Proc.zero := by
  obtain ⟨ks, pd, hu⟩ := h
  unfold userinit at hu
  obtain ⟨⟨np, t1⟩, ha, rfl⟩ := Option.map_eq_some_iff.mp hu
  obtain ⟨-, rfl⟩ := allocproc_eq_some ha
  dsimp only
  refine ⟨by rw [Function.update_self], by simp only [Function.update_self]; rfl, fun i hi => ?_⟩
  rw [Function.update_of_ne hi, Function.update_of_ne hi]
  rfl

/-- `userinit` builds a tree of one process. -/
theorem TreeInv.init {t : Ptable} (h : ProcInit t) : TreeInv t := by
  obtain ⟨hrun, hroot, hzero⟩ := userinit_slots h
  -- a slot is either `initproc` or zero
  have hcases : ∀ i, i = t.initproc ∨ t.procs i = Proc.zero := fun i => by
    by_cases he : i = t.initproc
    · exact Or.inl he
    · exact Or.inr (hzero i he)
  refine ⟨⟨by rw [hrun]; decide, by rw [hrun]; decide⟩, hroot, fun i _ => ?_, fun i => ?_,
    fun i => ?_, fun i hi hu => ?_, fun z c hz _ => ?_, fun p c hs _ _ _ => ?_⟩
  · rcases hcases i with he | he
    · rw [he, hroot]
    · rw [he]
      rfl
  · rcases hcases i with he | he
    · rw [he, hrun]
      decide
    · rw [he]
      decide
  · rcases hcases i with he | he
    · rw [he, hroot]
      exact (Option.some_ne_none _).symm
    · rw [he]
      exact (Option.some_ne_none _).symm
  · rw [hzero i hi] at hu
    exact absurd rfl hu
  · rcases hcases z with he | he
    · rw [he, hrun] at hz
      cases hz
    · rw [he] at hz
      cases hz
  · rcases hcases p with he | he
    · rw [he, hrun] at hs
      cases hs
    · rw [he] at hs
      cases hs

/-- The tree holds in every table the kernel reaches. -/
theorem TreeInv.reachable {t : Ptable} (h : ProcReachable t) : TreeInv t :=
  Reach.Reachable.invariant (fun _ hi => TreeInv.init hi)
    (fun s e s' (hs : TreeInv s) (he : procNext s e = some s') => hs.step he) h

/-! ## The tree in every reachable table -/

/-- A table the kernel reaches: `initproc` has forked a child and sleeps in `wait`. -/
theorem waiting_table : ∃ t, ProcReachable t ∧ t.initproc = 0 ∧
    (t.procs 0).state = .SLEEPING ∧ (t.procs 0).chan = some (.proc 0) ∧
    (t.procs 1).parent = some 0 ∧ (t.procs 1).state = .RUNNABLE := by
  have h0 : ProcReachable ((userinit Ptable.boot 1 1).getD Ptable.boot) := .init ⟨1, 1, rfl⟩
  have hrun : Reach.runEvents procNext ((userinit Ptable.boot 1 1).getD Ptable.boot)
      [.schedule 0, .fork 0 (some 2) (some 3), .wait 0] =
      some ((Reach.runEvents procNext ((userinit Ptable.boot 1 1).getD Ptable.boot)
        [.schedule 0, .fork 0 (some 2) (some 3), .wait 0]).getD Ptable.boot) := rfl
  exact ⟨_, Reach.reachable_of_runEvents h0 hrun, by decide⟩

theorem process_tree {t : Ptable} (h : ProcReachable t) :
    (∀ p, p ≠ t.initproc → (t.procs p).state ≠ .UNUSED → (t.procs p).state ≠ .EMBRYO →
      ∃ q, (t.procs p).parent = some q ∧ (t.procs q).state ≠ .UNUSED ∧
        (t.procs q).state ≠ .ZOMBIE) ∧
    (∀ z c, (t.procs z).state = .ZOMBIE → ¬ t.IsChild c z) ∧
    (∀ cur pid ks pd, (wait t cur).2 = .reaped pid ks pd →
      ∃ c, t.IsChild c cur ∧ (t.procs c).state = .ZOMBIE ∧ pid = (t.procs c).pid ∧
        ks = (t.procs c).kstack ∧ pd = (t.procs c).pgdir ∧
        (wait t cur).1 = { t with procs := Function.update t.procs c (t.procs c).freed }) ∧
    (∀ cur, (wait t cur).2 = .fail →
      (∀ c, ¬ t.IsChild c cur) ∨ (t.procs cur).killed = true) := by
  have hinv := TreeInv.reachable h
  refine ⟨fun p hp hu _ => hinv.parent_alive p hp hu, hinv.zombie_childless,
    fun cur pid ks pd hw => ?_, fun cur hw => ?_⟩
  · rcases wait_spec t cur with ⟨c, hcp, hcz, he⟩ | ⟨-, ⟨he, -⟩ | he⟩ <;> rw [he] at hw
    · cases hw
      exact ⟨c, ⟨by rw [hcz]; decide, hcp⟩, hcz, rfl, rfl, rfl, by rw [he]⟩
    · cases hw
    · cases hw
  · rcases wait_spec t cur with ⟨c, -, -, he⟩ | ⟨-, ⟨-, hk⟩ | he⟩
    · rw [he] at hw
      cases hw
    · rcases hk with hk | hk
      · exact Or.inl fun c hc => hk c hc.2
      · exact Or.inr hk
    · rw [he] at hw
      cases hw

theorem process_tree_waiting : ∃ t, ProcReachable t ∧ t.initproc = 0 ∧
    ∃ q, (t.procs 1).parent = some q ∧ (t.procs q).state ≠ .UNUSED ∧
      (t.procs q).state ≠ .ZOMBIE := by
  obtain ⟨t, ht, hi, -, -, -, hs⟩ := waiting_table
  refine ⟨t, ht, hi, (process_tree ht).1 1 (by rw [hi]; decide) ?_ ?_⟩ <;> rw [hs] <;> decide

theorem exit_wakeup_kept {t : Ptable} (h : ProcReachable t) :
    ∀ p c, (t.procs p).state = .SLEEPING → (t.procs p).chan = some (.proc p) →
      (t.procs c).parent = some p → (t.procs c).state ≠ .ZOMBIE :=
  (TreeInv.reachable h).wait_awake

theorem exit_wakeup_kept_waiting : ∃ t, ProcReachable t ∧ (t.procs 0).state = .SLEEPING ∧
    (t.procs 0).chan = some (.proc 0) ∧ (t.procs 1).parent = some 0 ∧
    (t.procs 1).state ≠ .ZOMBIE := by
  obtain ⟨t, ht, -, hs, hc, hp, -⟩ := waiting_table
  exact ⟨t, ht, hs, hc, hp, exit_wakeup_kept ht 0 1 hs hc hp⟩

end Xv6
