import Mathlib

/-!
# Spin locks, `pushcli`/`popcli` and the context switch

`spinlock.c` on a machine of CPUs numbered by `Nat` and locks named by `L`, with the part
of `sched` and `scheduler` in `proc.c` that touches them. A CPU keeps `ncli`, `intena` and
the `FL_IF` flag of its `eflags`; a lock keeps `locked` and `cpu`, the CPU holding it
(`none` for the null pointer). Each CPU runs a process or its scheduler (`cur`), and a
process switched out by `sched` keeps that function's local `intena` (`saved`). `acquire`
spins while another CPU holds the lock: the call then does not return, `.ok none`. A panic
is an `.error`.

`Held` is what a disciplined sequence of calls means: how deep each CPU is in `pushcli`s,
which CPU holds each lock, and the interrupt flag of the thread each CPU runs, before its
outermost `pushcli`. A process takes its flag into `sched` and gets it back when the
scheduler switches to it again; the scheduler and a new process go on with the flag they
find on the CPU. `Held.Allows` says which call may come next. `Nesting` relates the machine
to it: `ncli` is the depth, interrupts are off while it is positive, and `intena` then holds
the running thread's flag, which the outermost `popcli` puts back. Each allowed call keeps
`Nesting` and neither panics nor spins (`Nesting.call`), so along every disciplined sequence
`holding` is true exactly between an `acquire` and its `release` (`spinlock_nesting`).

The flag is the thread's, not the CPU's: in `yieldRun` the scheduler's `acquire` finds
interrupts on, the process it switches to restores the `intena` it kept in `sched`, and
the matching `release` leaves interrupts off (`yield_popcli_keeps_cli`).
-/

namespace Xv6

namespace Lock

/-- The fields of `struct cpu` the routines use. -/
structure Cpu where
  ncli : Int
  intena : Bool
  /-- `FL_IF` of `eflags` -/
  IF : Bool

/-- `struct spinlock` without its debugging fields. -/
structure Spinlock where
  locked : Bool
  cpu : Option Nat
  deriving DecidableEq

structure Sys (L : Type) where
  cpus : Nat → Cpu
  locks : L → Spinlock
  /-- the per-CPU `proc`: the process the CPU runs, `none` in its scheduler -/
  cur : Nat → Option Nat
  /-- the local `intena` of `sched` in each process switched out there -/
  saved : Nat → Option Bool

inductive Call (L : Type) where
  | pushcli (c : Nat)
  | popcli (c : Nat)
  | acquire (c : Nat) (lk : L)
  | release (c : Nat) (lk : L)
  | sti (c : Nat)
  | cli (c : Nat)
  /-- `sched()`, with `lk` for `ptable.lock` -/
  | sched (c : Nat) (lk : L)
  /-- the scheduler's `swtch` to process `p` -/
  | swtch (c p : Nat)

variable {L : Type} [DecidableEq L]

/-! ## The routines -/

/-- `pushcli()`: `cli()`, and the flag from before it saved at depth `0`. -/
def pushcli (x : Cpu) : Cpu :=
  let eflags := x.IF
  let x := { x with IF := false }
  if x.ncli = 0 then { x with ncli := x.ncli + 1, intena := eflags } else { x with ncli := x.ncli + 1 }

/-- `popcli()`: `sti()` when the outermost level is left with `intena` set. -/
def popcli (x : Cpu) : Except String Cpu :=
  if x.IF then throw "popcli - interruptible"
  else
    let x := { x with ncli := x.ncli - 1 }
    if x.ncli < 0 then throw "popcli"
    else if x.ncli = 0 ∧ x.intena then pure { x with IF := true }
    else pure x

/-- `sti()` on its own, as the scheduler's loop does it. -/
def sti (x : Cpu) : Cpu := { x with IF := true }

/-- `cli()` on its own, as entering an interrupt gate does it. -/
def cli (x : Cpu) : Cpu := { x with IF := false }

def Sys.setCpu (s : Sys L) (c : Nat) (x : Cpu) : Sys L := { s with cpus := Function.update s.cpus c x }

def Sys.setLock (s : Sys L) (lk : L) (l : Spinlock) : Sys L := { s with locks := Function.update s.locks lk l }

/-- `holding(lk)` on CPU `c`. -/
def holding (s : Sys L) (c : Nat) (lk : L) : Bool := (s.locks lk).locked && (s.locks lk).cpu == some c

/-- `acquire(lk)` on CPU `c`; `none` while another CPU holds the lock. -/
def acquire (s : Sys L) (c : Nat) (lk : L) : Except String (Option (Sys L)) :=
  let s := s.setCpu c (pushcli (s.cpus c))
  if holding s c lk then throw "acquire"
  -- `xchg(&lk->locked, 1)` spins until the lock is free
  else if (s.locks lk).locked then pure none
  else pure (some (s.setLock lk ⟨true, some c⟩))

/-- `release(lk)` on CPU `c`. -/
def release (s : Sys L) (c : Nat) (lk : L) : Except String (Sys L) :=
  if !holding s c lk then throw "release"
  else do
    let s := s.setLock lk ⟨false, none⟩
    let x ← popcli (s.cpus c)
    pure (s.setCpu c x)

/-- `sched()` on CPU `c`, with `lk` for `ptable.lock`: its checks, then `intena` kept in the
process's own frame across the `swtch` to the scheduler, which goes on after its own `swtch`
with the CPU as the process left it. -/
def sched (s : Sys L) (c : Nat) (lk : L) : Except String (Option (Sys L)) :=
  if !holding s c lk then throw "sched ptable.lock"
  else if (s.cpus c).ncli ≠ 1 then throw "sched locks"
  else match s.cur c with
    -- `proc` is null in the scheduler, and `proc->state` faults; the model stops there
    | none => pure none
    | some p =>
      -- the `proc->state == RUNNING` check is not modelled
      if (s.cpus c).IF then throw "sched interruptible"
      else pure (some { s with
        cur := Function.update s.cur c none
        saved := Function.update s.saved p (some (s.cpus c).intena) })

/-- The scheduler's `proc = p; swtch(&cpu->scheduler, proc->context)` on CPU `c`. A process
switched out by `sched` returns there and puts back the `intena` it kept; a new one starts
in `forkret`, which leaves `intena` as it is. -/
def swtch (s : Sys L) (c p : Nat) : Sys L :=
  let x := s.cpus c
  { s.setCpu c { x with intena := (s.saved p).getD x.intena } with
    cur := Function.update s.cur c (some p)
    saved := Function.update s.saved p none }

/-- One call on the machine. -/
def Sys.call (s : Sys L) : Call L → Except String (Option (Sys L))
  | .pushcli c => pure (some (s.setCpu c (pushcli (s.cpus c))))
  | .popcli c => do
    let x ← popcli (s.cpus c)
    pure (some (s.setCpu c x))
  | .acquire c lk => acquire s c lk
  | .release c lk => do
    let s ← release s c lk
    pure (some s)
  | .sti c => pure (some (s.setCpu c (sti (s.cpus c))))
  | .cli c => pure (some (s.setCpu c (cli (s.cpus c))))
  | .sched c lk => sched s c lk
  | .swtch c p => pure (some (swtch s c p))

/-- A sequence of calls, stopping at a panic or at a call that does not return. -/
def Sys.run (s : Sys L) : List (Call L) → Except String (Option (Sys L))
  | [] => pure (some s)
  | e :: es => do
    match ← s.call e with
    | none => pure none
    | some s' => s'.run es

/-! ## What a disciplined sequence means -/

/-- How deep each CPU is in `pushcli`s, which CPU holds each lock, which process each CPU
runs, the interrupt flag of the thread each CPU runs (before its outermost `pushcli`), and
the flag each process switched out by `sched` took with it. -/
structure Held (L : Type) where
  depth : Nat → Nat
  holder : L → Option Nat
  cur : Nat → Option Nat
  flag : Nat → Bool
  entry : Nat → Option Bool

/-- Nothing nested and no lock held, on the machine `s`. -/
def Held.start (s : Sys L) : Held L := ⟨fun _ => 0, fun _ => none, s.cur, fun c => (s.cpus c).IF, s.saved⟩

/-- The calls that may come next: a `popcli` or `release` matches an earlier `pushcli` or
`acquire` of its CPU, a `release` is by the holder, an `acquire` finds the lock free, `sti`
and `cli` come outside every `pushcli`, `sched` comes from a process holding `ptable.lock`
and nothing else, and `swtch` from the scheduler holding it. -/
def Held.Allows (g : Held L) : Call L → Prop
  | .pushcli _ => True
  | .popcli c => 0 < g.depth c
  | .acquire _ lk => g.holder lk = none
  | .release c lk => g.holder lk = some c ∧ 0 < g.depth c
  | .sti c => g.depth c = 0
  | .cli c => g.depth c = 0
  | .sched c lk => g.cur c ≠ none ∧ g.holder lk = some c ∧ g.depth c = 1
  | .swtch c _ => g.cur c = none ∧ 0 < g.depth c

instance Held.decAllows (g : Held L) : (e : Call L) → Decidable (g.Allows e)
  | .pushcli _ => inferInstanceAs (Decidable True)
  | .popcli c => inferInstanceAs (Decidable (0 < g.depth c))
  | .acquire _ lk => inferInstanceAs (Decidable (g.holder lk = none))
  | .release c lk => inferInstanceAs (Decidable (g.holder lk = some c ∧ 0 < g.depth c))
  | .sti c => inferInstanceAs (Decidable (g.depth c = 0))
  | .cli c => inferInstanceAs (Decidable (g.depth c = 0))
  | .sched c lk => inferInstanceAs (Decidable (g.cur c ≠ none ∧ g.holder lk = some c ∧ g.depth c = 1))
  | .swtch c _ => inferInstanceAs (Decidable (g.cur c = none ∧ 0 < g.depth c))

/-- The meaning of each call: the flag changes with `sti` and `cli` outside every `pushcli`,
travels with a process through `sched`, and comes back with it at `swtch`. -/
def Held.next (g : Held L) : Call L → Held L
  | .pushcli c => { g with depth := Function.update g.depth c (g.depth c + 1) }
  | .popcli c => { g with depth := Function.update g.depth c (g.depth c - 1) }
  | .acquire c lk => { g with
      depth := Function.update g.depth c (g.depth c + 1)
      holder := Function.update g.holder lk (some c) }
  | .release c lk => { g with
      depth := Function.update g.depth c (g.depth c - 1)
      holder := Function.update g.holder lk none }
  | .sti c => { g with flag := Function.update g.flag c true }
  | .cli c => { g with flag := Function.update g.flag c false }
  | .sched c _ => match g.cur c with
    | none => g
    | some p => { g with
        cur := Function.update g.cur c none
        entry := Function.update g.entry p (some (g.flag c)) }
  | .swtch c p => { g with
      cur := Function.update g.cur c (some p)
      flag := Function.update g.flag c ((g.entry p).getD (g.flag c))
      entry := Function.update g.entry p none }

def Held.run (g : Held L) : List (Call L) → Held L
  | [] => g
  | e :: es => (g.next e).run es

/-- Every call of the sequence is allowed where it comes. -/
def Held.Matched (g : Held L) : List (Call L) → Prop
  | [] => True
  | e :: es => g.Allows e ∧ (g.next e).Matched es

instance Held.decMatched (g : Held L) : (es : List (Call L)) → Decidable (g.Matched es)
  | [] => inferInstanceAs (Decidable True)
  | e :: es =>
    have := Held.decMatched (g.next e) es
    inferInstanceAs (Decidable (g.Allows e ∧ (g.next e).Matched es))

/-! ## One CPU -/

/-- A CPU `d` deep in `pushcli`s whose running thread had the flag `b` before the outermost
one. -/
structure CpuNest (b : Bool) (d : Nat) (x : Cpu) : Prop where
  ncli_eq : x.ncli = d
  cli : 0 < d → x.IF = false ∧ x.intena = b
  idle : d = 0 → x.IF = b

theorem CpuNest.pushcli {b : Bool} {d : Nat} {x : Cpu} (h : CpuNest b d x) : CpuNest b (d + 1) (pushcli x) := by
  unfold Lock.pushcli
  by_cases hd : d = 0
  · have hx : x.ncli = 0 := by rw [h.ncli_eq, hd]; rfl
    rw [if_pos hx]
    exact ⟨by rw [hx, hd]; rfl, fun _ => ⟨rfl, h.idle hd⟩, fun h1 => absurd h1 (by omega)⟩
  · have hx : x.ncli ≠ 0 := by rw [h.ncli_eq]; omega
    rw [if_neg hx]
    exact ⟨by rw [h.ncli_eq]; push_cast; rfl, fun _ => ⟨rfl, (h.cli (by omega)).2⟩,
      fun h1 => absurd h1 (by omega)⟩

/-- A `popcli` one level in neither panics nor leaves interrupts on, and the outermost one
puts the flag back. -/
theorem CpuNest.popcli {b : Bool} {d : Nat} {x : Cpu} (h : CpuNest b d x) (hd : 0 < d) :
    ∃ x', Lock.popcli x = .ok x' ∧ CpuNest b (d - 1) x' := by
  obtain ⟨hIF, hint⟩ := h.cli hd
  have hn : ¬(x.ncli - 1 < 0) := by rw [h.ncli_eq]; omega
  unfold Lock.popcli
  simp only [hIF, Bool.false_eq_true, if_false, hn]
  by_cases hlast : d = 1
  · -- the outermost level: `sti()` exactly when the saved flag is set
    subst hlast
    have h0 : x.ncli - 1 = 0 := by rw [h.ncli_eq]; rfl
    cases b with
    | true =>
      rw [if_pos ⟨h0, hint⟩]
      refine ⟨_, rfl, ⟨?_, fun h1 => absurd h1 (by omega), fun _ => rfl⟩⟩
      dsimp only
      rw [h0]
      rfl
    | false =>
      rw [if_neg (fun hc => by rw [hint] at hc; exact Bool.false_ne_true hc.2)]
      refine ⟨_, rfl, ⟨?_, fun h1 => absurd h1 (by omega), fun _ => rfl⟩⟩
      dsimp only
      rw [h0]
      rfl
  · have hne : x.ncli - 1 ≠ 0 := by rw [h.ncli_eq]; omega
    rw [if_neg (fun hc => hne hc.1)]
    refine ⟨_, rfl, ⟨?_, fun _ => ⟨rfl, hint⟩, fun h1 => absurd h1 (by omega)⟩⟩
    dsimp only
    rw [h.ncli_eq]
    omega

/-- Outside every `pushcli`, `sti` and `cli` set the thread's flag. -/
theorem CpuNest.setIF {b : Bool} {x : Cpu} (h : CpuNest b 0 x) (b' : Bool) :
    CpuNest b' 0 { x with IF := b' } :=
  ⟨h.ncli_eq, fun h1 => absurd h1 (Nat.lt_irrefl 0), fun _ => rfl⟩

/-- Inside a `pushcli`, a new `intena` is the flag the outermost `popcli` will put back. -/
theorem CpuNest.resume {b : Bool} {d : Nat} {x : Cpu} (h : CpuNest b d x) (hd : 0 < d) (b' : Bool) :
    CpuNest b' d { x with intena := b' } :=
  ⟨h.ncli_eq, fun _ => ⟨(h.cli hd).1, rfl⟩, fun h1 => absurd h1 (by omega)⟩

/-- Changing one CPU, with its depth and its flag, keeps every CPU nested. -/
theorem cpuNest_update {fl : Nat → Bool} {dp : Nat → Nat} {xs : Nat → Cpu}
    (h : ∀ c, CpuNest (fl c) (dp c) (xs c)) (c : Nat) {b : Bool} {d : Nat} {x : Cpu}
    (hx : CpuNest b d x) (c' : Nat) :
    CpuNest (Function.update fl c b c') (Function.update dp c d c') (Function.update xs c x c') := by
  by_cases hc : c' = c
  · rw [hc, Function.update_self, Function.update_self, Function.update_self]
    exact hx
  · rw [Function.update_of_ne hc, Function.update_of_ne hc, Function.update_of_ne hc]
    exact h c'

/-! ## The machine against `Held` -/

/-- The machine as a disciplined sequence has left it. -/
structure Nesting (g : Held L) (s : Sys L) : Prop where
  cpu : ∀ c, CpuNest (g.flag c) (g.depth c) (s.cpus c)
  lock : ∀ lk, s.locks lk = ⟨(g.holder lk).isSome, g.holder lk⟩
  cur : s.cur = g.cur
  saved : s.saved = g.entry

section Nesting

variable {g : Held L} {s : Sys L}

omit [DecidableEq L] in
theorem Nesting.holding_iff (h : Nesting g s) (c : Nat) (lk : L) :
    holding s c lk = true ↔ g.holder lk = some c := by
  unfold holding
  rw [h.lock lk]
  cases g.holder lk with
  | none => simp
  | some c' =>
    simp only [Option.isSome_some, Bool.true_and, beq_iff_eq, Option.some.injEq]

omit [DecidableEq L] in
theorem Nesting.setCpu (h : Nesting g s) {c : Nat} {x : Cpu} {d : Nat} (hx : CpuNest (g.flag c) d x) :
    Nesting { g with depth := Function.update g.depth c d } (s.setCpu c x) where
  cpu c' := by
    have hc := cpuNest_update h.cpu c hx c'
    rw [Function.update_eq_self] at hc
    exact hc
  lock := h.lock
  cur := h.cur
  saved := h.saved

omit [DecidableEq L] in
theorem Nesting.setFlag (h : Nesting g s) {c : Nat} {x : Cpu} {b : Bool} (hx : CpuNest b (g.depth c) x) :
    Nesting { g with flag := Function.update g.flag c b } (s.setCpu c x) where
  cpu c' := by
    have hc := cpuNest_update h.cpu c hx c'
    rw [Function.update_eq_self] at hc
    exact hc
  lock := h.lock
  cur := h.cur
  saved := h.saved

theorem Nesting.setLock (h : Nesting g s) (lk : L) (o : Option Nat) :
    Nesting { g with holder := Function.update g.holder lk o } (s.setLock lk ⟨o.isSome, o⟩) := by
  refine ⟨h.cpu, fun lk' => ?_, h.cur, h.saved⟩
  show Function.update s.locks lk ⟨o.isSome, o⟩ lk' =
    ⟨(Function.update g.holder lk o lk').isSome, Function.update g.holder lk o lk'⟩
  by_cases hl : lk' = lk
  · rw [hl, Function.update_self, Function.update_self]
  · rw [Function.update_of_ne hl, Function.update_of_ne hl]
    exact h.lock lk'

/-- `sched` from a process holding only `ptable.lock` passes its checks, and the process
takes the flag with it. -/
theorem Nesting.sched (h : Nesting g s) {c : Nat} {lk : L} (he : g.Allows (.sched c lk)) :
    ∃ s', Lock.sched s c lk = .ok (some s') ∧ Nesting (g.next (.sched c lk)) s' := by
  obtain ⟨hcur, hhold, hd⟩ := he
  obtain ⟨p, hp⟩ := Option.ne_none_iff_exists'.mp hcur
  obtain ⟨hIF, hint⟩ := (h.cpu c).cli (by omega)
  have hheld : holding s c lk = true := (h.holding_iff c lk).mpr hhold
  have hncli : (s.cpus c).ncli = 1 := by rw [(h.cpu c).ncli_eq, hd]; rfl
  have hsp : s.cur c = some p := by rw [h.cur, hp]
  have hg : g.next (.sched c lk) = { g with
      cur := Function.update g.cur c none
      entry := Function.update g.entry p (some (g.flag c)) } := by
    simp only [Held.next, hp]
  rw [hg]
  refine ⟨{ s with
    cur := Function.update s.cur c none
    saved := Function.update s.saved p (some (s.cpus c).intena) }, ?_, ⟨h.cpu, h.lock, ?_, ?_⟩⟩
  · simp only [Lock.sched, hheld, hncli, hsp, hIF, Bool.not_true, Bool.false_eq_true, if_false,
      ne_eq, not_true_eq_false]
    rfl
  · show Function.update s.cur c none = Function.update g.cur c none
    rw [h.cur]
  · show Function.update s.saved p (some (s.cpus c).intena) = Function.update g.entry p (some (g.flag c))
    rw [h.saved, hint]

/-- The scheduler's `swtch` gives the CPU the flag of the process it switches to. -/
theorem Nesting.swtch (h : Nesting g s) {c p : Nat} (he : g.Allows (.swtch c p)) :
    Nesting (g.next (.swtch c p)) (Lock.swtch s c p) := by
  obtain ⟨-, hd⟩ := he
  have hb : (s.saved p).getD (s.cpus c).intena = (g.entry p).getD (g.flag c) := by
    rw [h.saved, ((h.cpu c).cli hd).2]
  have h1 := h.setFlag ((h.cpu c).resume hd ((g.entry p).getD (g.flag c)))
  unfold Lock.swtch
  dsimp only
  rw [hb]
  refine ⟨h1.cpu, h1.lock, ?_, ?_⟩
  · show Function.update s.cur c (some p) = Function.update g.cur c (some p)
    rw [h.cur]
  · show Function.update s.saved p none = Function.update g.entry p none
    rw [h.saved]

/-- Every allowed call returns, without a panic, to a machine that still matches. -/
theorem Nesting.call (h : Nesting g s) {e : Call L} (he : g.Allows e) :
    ∃ s', s.call e = .ok (some s') ∧ Nesting (g.next e) s' := by
  cases e with
  | pushcli c =>
    exact ⟨_, rfl, h.setCpu ((h.cpu c).pushcli)⟩
  | popcli c =>
    obtain ⟨x', hx, hn⟩ := (h.cpu c).popcli he
    refine ⟨_, ?_, h.setCpu hn⟩
    simp only [Sys.call, hx]
    rfl
  | acquire c lk =>
    have h1 := h.setCpu ((h.cpu c).pushcli)
    have hnone : g.holder lk = none := he
    have hfree : (s.setCpu c (pushcli (s.cpus c))).locks lk = ⟨false, none⟩ := by
      rw [h1.lock lk]
      show (⟨(g.holder lk).isSome, g.holder lk⟩ : Spinlock) = ⟨false, none⟩
      rw [hnone]
      rfl
    refine ⟨_, ?_, h1.setLock lk (some c)⟩
    simp only [Sys.call, Lock.acquire, holding, hfree]
    rfl
  | release c lk =>
    obtain ⟨hhold, hd⟩ := he
    have h1 := h.setLock lk none
    obtain ⟨x', hx, hn⟩ := (h1.cpu c).popcli hd
    have hheld : holding s c lk = true := (h.holding_iff c lk).mpr hhold
    refine ⟨_, ?_, h1.setCpu hn⟩
    simp only [Sys.call, Lock.release, hheld, Bool.not_true, Bool.false_eq_true, if_false]
    rw [show (s.setLock lk ⟨Option.isSome none, none⟩) = s.setLock lk ⟨false, none⟩ from rfl] at hx
    simp only [bind, Except.bind, hx]
    rfl
  | sti c =>
    have h0 : g.depth c = 0 := he
    exact ⟨_, rfl, h.setFlag (h0 ▸ ((h0 ▸ h.cpu c).setIF true))⟩
  | cli c =>
    have h0 : g.depth c = 0 := he
    exact ⟨_, rfl, h.setFlag (h0 ▸ ((h0 ▸ h.cpu c).setIF false))⟩
  | sched c lk =>
    exact h.sched he
  | swtch c p =>
    exact ⟨_, rfl, h.swtch he⟩

/-- A disciplined sequence runs to its end on a machine that matches it; the induction is on
the sequence, with `Nesting.call` for each call. -/
theorem Nesting.run : ∀ {g : Held L} {s : Sys L} (es : List (Call L)), Nesting g s → g.Matched es →
    ∃ s', s.run es = .ok (some s') ∧ Nesting (g.run es) s'
  | _, s, [], h, _ => ⟨s, rfl, h⟩
  | g, s, e :: es, h, ⟨he, hes⟩ => by
    obtain ⟨s1, hs1, h1⟩ := h.call he
    obtain ⟨s', hs', h'⟩ := Nesting.run es h1 hes
    refine ⟨s', ?_, h'⟩
    simp only [Sys.run, hs1, bind, Except.bind]
    exact hs'

end Nesting

/-- A machine no call has touched: every `ncli` is `0` and every lock free. -/
def Idle (s : Sys L) : Prop := (∀ c, (s.cpus c).ncli = 0) ∧ ∀ lk, s.locks lk = ⟨false, none⟩

omit [DecidableEq L] in
theorem Nesting.start {s : Sys L} (h : Idle s) : Nesting (Held.start s) s where
  cpu c := ⟨by rw [h.1 c]; rfl, fun hd => absurd hd (Nat.lt_irrefl 0), fun _ => rfl⟩
  lock lk := h.2 lk
  cur := rfl
  saved := rfl

/-- Along every disciplined sequence of calls, no call panics or spins; `ncli` is the CPU's
depth, at least `0`; interrupts are off while it is positive, and `intena` then holds the
flag the running thread had before its outermost `pushcli` (a process resumed by the
scheduler: the flag it took into `sched`), which the outermost `popcli` puts back; and
`holding` is true exactly while an `acquire` of the CPU is not yet released. -/
theorem spinlock_nesting {s : Sys L} (hs : Idle s) (es : List (Call L)) (hm : (Held.start s).Matched es) :
    ∃ s', s.run es = .ok (some s') ∧ ∀ c,
      (s'.cpus c).ncli = ((Held.start s).run es).depth c ∧ 0 ≤ (s'.cpus c).ncli ∧
      (0 < (s'.cpus c).ncli → (s'.cpus c).IF = false ∧ (s'.cpus c).intena = ((Held.start s).run es).flag c) ∧
      ((s'.cpus c).ncli = 0 → (s'.cpus c).IF = ((Held.start s).run es).flag c) ∧
      ((s'.cpus c).ncli = 1 → ∃ x, popcli (s'.cpus c) = .ok x ∧ x.ncli = 0 ∧
        x.IF = ((Held.start s).run es).flag c) ∧
      ∀ lk, holding s' c lk = true ↔ ((Held.start s).run es).holder lk = some c := by
  obtain ⟨s', hrun, hn⟩ := (Nesting.start hs).run es hm
  refine ⟨s', hrun, fun c => ?_⟩
  have hc := hn.cpu c
  have hd : (s'.cpus c).ncli = 1 → ((Held.start s).run es).depth c = 1 := by
    rw [hc.ncli_eq]; omega
  refine ⟨hc.ncli_eq, by rw [hc.ncli_eq]; omega, fun hpos => hc.cli (by rw [hc.ncli_eq] at hpos; omega),
    fun hz => hc.idle (by rw [hc.ncli_eq] at hz; omega), fun h1 => ?_, hn.holding_iff c⟩
  obtain ⟨x, hx, hnest⟩ := hc.popcli (by rw [hd h1]; omega)
  rw [hd h1] at hnest
  exact ⟨x, hx, hnest.ncli_eq, hnest.idle rfl⟩

/-- One CPU in its scheduler with interrupts off, no lock held, and process `1` new. -/
def boot : Sys Unit := ⟨fun _ => ⟨0, false, false⟩, fun _ => ⟨false, none⟩, fun _ => none, fun _ => none⟩

/-- The scheduler starts process `1`, which releases `ptable.lock` in `forkret`; a timer
interrupt makes it `yield`; the scheduler releases the lock, enables interrupts, takes the
lock and switches back to the process, which releases the lock in `yield`. -/
def yieldRun : List (Call Unit) :=
  [.sti 0, .acquire 0 (), .swtch 0 1, .release 0 (),
    .cli 0, .acquire 0 (), .sched 0 (),
    .release 0 (), .sti 0, .acquire 0 (), .swtch 0 1,
    .release 0 ()]

/-- The run keeps every rule of the discipline; the scheduler's `acquire` (the tenth call)
finds `ncli` at `0` and interrupts on, `ncli` stays `1` until the last `release`, and that
outermost `popcli` leaves interrupts off. -/
theorem yield_popcli_keeps_cli :
    (Held.start boot).Matched yieldRun ∧
    (∃ s, boot.run (yieldRun.take 9) = .ok (some s) ∧ (s.cpus 0).ncli = 0 ∧ (s.cpus 0).IF = true) ∧
    (∀ k, 9 < k → k < 12 → ∃ s, boot.run (yieldRun.take k) = .ok (some s) ∧ (s.cpus 0).ncli = 1) ∧
    ∃ s, boot.run yieldRun = .ok (some s) ∧ (s.cpus 0).ncli = 0 ∧ (s.cpus 0).IF = false := by
  refine ⟨by decide, ⟨_, rfl, rfl, rfl⟩, fun k hk1 hk2 => ?_, ⟨_, rfl, rfl, rfl⟩⟩
  interval_cases k <;> exact ⟨_, rfl, rfl⟩

theorem spinlock_nesting_yield :
    Idle boot ∧ (Held.start boot).Matched yieldRun ∧ ∃ s', boot.run yieldRun = .ok (some s') ∧ ∀ c,
      (s'.cpus c).ncli = ((Held.start boot).run yieldRun).depth c ∧ 0 ≤ (s'.cpus c).ncli ∧
      (0 < (s'.cpus c).ncli → (s'.cpus c).IF = false ∧
        (s'.cpus c).intena = ((Held.start boot).run yieldRun).flag c) ∧
      ((s'.cpus c).ncli = 0 → (s'.cpus c).IF = ((Held.start boot).run yieldRun).flag c) ∧
      ((s'.cpus c).ncli = 1 → ∃ x, popcli (s'.cpus c) = .ok x ∧ x.ncli = 0 ∧
        x.IF = ((Held.start boot).run yieldRun).flag c) ∧
      ∀ lk, holding s' c lk = true ↔ ((Held.start boot).run yieldRun).holder lk = some c := by
  have hidle : Idle boot := ⟨fun _ => rfl, fun _ => rfl⟩
  have hm : (Held.start boot).Matched yieldRun := by decide
  exact ⟨hidle, hm, spinlock_nesting hidle yieldRun hm⟩

end Lock

end Xv6
