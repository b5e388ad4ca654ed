import Mathlib

/-!
# Transition systems, reachability and replayed runs

A system is a set of initial states and a step relation labelled by events. Its
reachable states are those a finite run of steps reaches from an initial state.
Safety properties of the modelled kernel code are invariants of such systems: they
hold initially and every step keeps them (`Reachable.invariant`).

Refutations go the other way. A deterministic step function `next` is replayed on an
explicit event list (`runEvents`), which the kernel can evaluate; the state at the
end of the replay is reachable (`reachable_of_runEvents`). Runs too long to replay
(billions of steps) are built by repeating a block of events (`runEvents_replicate`).

Two levels of one design are related by replaying the same events on both: a relation
that each step keeps holds at the ends of the two replays (`runEvents_rel`).

Nothing here names the kernel: the layer below instantiates it at its own states.
-/

namespace Reach

variable {σ ε : Type}

/-- The states reachable from `init` by any number of `step`s. -/
inductive Reachable (init : σ → Prop) (step : σ → ε → σ → Prop) : σ → Prop where
  | init {s : σ} : init s → Reachable init step s
  | step {s s' : σ} (e : ε) : Reachable init step s → step s e s' → Reachable init step s'

/-- The induction rule for safety: an invariant that holds initially and that every
step keeps holds in every reachable state. -/
theorem Reachable.invariant {init : σ → Prop} {step : σ → ε → σ → Prop} {I : σ → Prop}
    (h0 : ∀ s, init s → I s) (hstep : ∀ s e s', I s → step s e s' → I s')
    {s : σ} (h : Reachable init step s) : I s := by
  induction h with
  | init hi => exact h0 _ hi
  | step e _ hs ih => exact hstep _ e _ ih hs

/-- A step system given by a partial step function: the event is refused when the
function returns `none`. -/
def stepOf (next : σ → ε → Option σ) : σ → ε → σ → Prop :=
  fun s e s' => next s e = some s'

/-- Replay a list of events with a partial step function. -/
def runEvents (next : σ → ε → Option σ) : σ → List ε → Option σ
  | s, [] => some s
  | s, e :: es => (next s e).bind fun s' => runEvents next s' es

@[simp] theorem runEvents_nil (next : σ → ε → Option σ) (s : σ) :
    runEvents next s [] = some s := rfl

theorem runEvents_cons (next : σ → ε → Option σ) (s : σ) (e : ε) (es : List ε) :
    runEvents next s (e :: es) = (next s e).bind fun s' => runEvents next s' es := rfl

theorem runEvents_append (next : σ → ε → Option σ) (s : σ) (es fs : List ε) :
    runEvents next s (es ++ fs) = (runEvents next s es).bind fun s' => runEvents next s' fs := by
  induction es generalizing s with
  | nil => rfl
  | cons e es ih =>
      simp only [List.cons_append, runEvents_cons]
      cases next s e with
      | none => rfl
      | some s' => exact ih s'

/-- A block of events that leads from each state of a family `g` to the next one
leads, repeated `k` times, from `g 0` to `g k`. -/
theorem runEvents_replicate (next : σ → ε → Option σ) (block : List ε) (g : Nat → σ) :
    ∀ k : Nat, (∀ j < k, runEvents next (g j) block = some (g (j + 1))) →
      runEvents next (g 0) (List.replicate k block).flatten = some (g k)
  | 0, _ => rfl
  | k + 1, hblock => by
      rw [List.replicate_succ', List.flatten_append, runEvents_append,
        runEvents_replicate next block g k (fun j hj => hblock j (by omega)), Option.bind_some,
        List.flatten_singleton]
      exact hblock k (by omega)

/-- Every state a replay reaches from a reachable state is reachable. -/
theorem reachable_of_runEvents {init : σ → Prop} {next : σ → ε → Option σ} :
    ∀ {s s' : σ} {es : List ε}, Reachable init (stepOf next) s →
      runEvents next s es = some s' → Reachable init (stepOf next) s'
  | s, s', [], hs, h => by
      simp only [runEvents_nil, Option.some.injEq] at h
      exact h ▸ hs
  | s, s', e :: es, hs, h => by
      rw [runEvents_cons] at h
      cases hn : next s e with
      | none => simp [hn] at h
      | some s1 =>
          rw [hn, Option.bind_some] at h
          exact reachable_of_runEvents (Reachable.step e hs hn) h

/-- Two step functions that keep a relation between their states, and refuse an event
together, keep it along the replays of the same events: the second system, run on the
first one's events, simulates it in lockstep. -/
theorem runEvents_rel {τ : Type} {next₁ : σ → ε → Option σ} {next₂ : τ → ε → Option τ}
    {R : σ → τ → Prop} (hstep : ∀ s a e, R s a → Option.Rel R (next₁ s e) (next₂ a e)) :
    ∀ (es : List ε) {s : σ} {a : τ}, R s a →
      Option.Rel R (runEvents next₁ s es) (runEvents next₂ a es)
  | [], _, _, h => .some h
  | e :: es, s, a, h => by
    rw [runEvents_cons, runEvents_cons]
    have hr := hstep s a e h
    revert hr
    generalize next₁ s e = x₁
    generalize next₂ a e = x₂
    intro hr
    cases hr with
    | some h' => exact runEvents_rel hstep es h'
    | none => exact .none

end Reach
