import Mathlib

/-!
# Programs that talk to devices

A driver's code reads and writes device locations (I/O ports, memory) and branches on
what it reads. `Prog L V α` is such a program as a tree: a read of a location `L`
continues with the value `V` it gives, a write goes on after it, and `loop` repeats a
body until the body returns a result, which is how a polling loop that may spin for ever
is written without fuel. The programs form a monad, so code is written in `do` notation.

What the program talks to is a `Bus`: the value each read gives and the state each
access leaves. `Runs bus s p a s' t` says that `p` started in `s` ends in `s'` with
result `a`, having made the accesses `t`. Runs on a deterministic bus are unique
(`Runs.det`), so a run built step by step with the forward rules is the run.
`exec` runs a program with a bound on its steps, and a result it computes is a run
(`Runs.of_exec`): concrete runs are evaluated, and general ones are built from rules.
-/

namespace Port

/-- One access of a program: a read of a location and the value it gave, or a write. -/
inductive Access (L V : Type) where
  | read (l : L) (v : V)
  | write (l : L) (v : V)
  deriving DecidableEq

/-- The location an access is made to. -/
def Access.loc {L V : Type} : Access L V → L
  | .read l _ => l
  | .write l _ => l

/-- A program over locations `L` holding values `V`, with result `α`. -/
inductive Prog (L V : Type) : Type → Type 1 where
  | pure {α : Type} (a : α) : Prog L V α
  | read {α : Type} (l : L) (k : V → Prog L V α) : Prog L V α
  | write {α : Type} (l : L) (v : V) (k : Prog L V α) : Prog L V α
  /-- Run `body` from `init`: `.inl` goes round again from the new value, `.inr` leaves
  the loop and goes on with `k`. -/
  | loop {α σ β : Type} (init : σ) (body : σ → Prog L V (σ ⊕ β)) (k : β → Prog L V α) :
      Prog L V α

namespace Prog

variable {L V : Type}

/-- Run `p`, then `f` on its result. -/
def bind {α β : Type} : Prog L V α → (α → Prog L V β) → Prog L V β
  | pure a, f => f a
  | read l k, f => read l fun v => bind (k v) f
  | write l v k, f => write l v (bind k f)
  | loop init body k, f => loop init body fun b => bind (k b) f

instance : Monad (Prog L V) where
  pure := pure
  bind := bind

@[simp] theorem bind_eq {α β : Type} (p : Prog L V α) (f : α → Prog L V β) :
    p >>= f = p.bind f := rfl

@[simp] theorem pure_eq {α : Type} (a : α) : (Pure.pure a : Prog L V α) = Prog.pure a := rfl

/-- Read `l`. -/
def get (l : L) : Prog L V V := read l pure

/-- Write `v` to `l`. -/
def set (l : L) (v : V) : Prog L V Unit := write l v (pure ())

/-- `while (cond) ;` with a body of reads: run `cond` until it returns `false`. -/
def whileM (cond : Prog L V Bool) : Prog L V Unit :=
  loop () (fun _ => cond.bind fun c => pure (if c then .inl () else .inr ())) pure

/-- Every result `p` can return satisfies `P`, whatever its reads give: the weakest
precondition of `P` for a program whose accesses are not interpreted. -/
def Returns {α : Type} (P : α → Prop) : Prog L V α → Prop
  | pure a => P a
  | read _ k => ∀ v, (k v).Returns P
  | write _ _ k => k.Returns P
  | loop _ _ k => ∀ b, (k b).Returns P

theorem returns_bind {α β : Type} {P : β → Prop} {p : Prog L V α} {f : α → Prog L V β}
    (h : p.Returns fun a => (f a).Returns P) : (p >>= f).Returns P := by
  induction p with
  | pure => exact h
  | read _ _ ih => exact fun v => ih v (h v)
  | write _ _ _ ih => exact ih h
  | loop _ _ _ _ ih => exact fun b => ih b (h b)

/-- A fact that does not depend on the result holds of every result. -/
theorem returns_const {α : Type} {Q : Prop} (hQ : Q) : ∀ p : Prog L V α, p.Returns fun _ => Q
  | pure _ => hQ
  | read _ k => fun v => returns_const hQ (k v)
  | write _ _ k => returns_const hQ k
  | loop _ _ k => fun b => returns_const hQ (k b)

end Prog

/-- What answers the accesses: the value a read gives, and the state each access leaves. -/
structure Bus (L V S : Type) where
  read : S → L → V × S
  write : S → L → V → S

variable {L V S : Type} (bus : Bus L V S)

/-- `p` started in `s` ends in `s'` with result `a`, having made the accesses `t`. -/
inductive Runs : {α : Type} → S → Prog L V α → α → S → List (Access L V) → Prop
  | pure {α : Type} {s : S} {a : α} : Runs s (.pure a) a s []
  | read {α : Type} {s s' : S} {l : L} {k : V → Prog L V α} {a : α} {t : List (Access L V)} :
      Runs (bus.read s l).2 (k (bus.read s l).1) a s' t →
      Runs s (.read l k) a s' (.read l (bus.read s l).1 :: t)
  | write {α : Type} {s s' : S} {l : L} {v : V} {k : Prog L V α} {a : α}
      {t : List (Access L V)} :
      Runs (bus.write s l v) k a s' t → Runs s (.write l v k) a s' (.write l v :: t)
  | loopNext {α σ β : Type} {s s₁ s₂ : S} {init next : σ} {body : σ → Prog L V (σ ⊕ β)}
      {k : β → Prog L V α} {a : α} {t₁ t₂ : List (Access L V)} :
      Runs s (body init) (.inl next) s₁ t₁ → Runs s₁ (.loop next body k) a s₂ t₂ →
      Runs s (.loop init body k) a s₂ (t₁ ++ t₂)
  | loopDone {α σ β : Type} {s s₁ s₂ : S} {init : σ} {b : β} {body : σ → Prog L V (σ ⊕ β)}
      {k : β → Prog L V α} {a : α} {t₁ t₂ : List (Access L V)} :
      Runs s (body init) (.inr b) s₁ t₁ → Runs s₁ (k b) a s₂ t₂ →
      Runs s (.loop init body k) a s₂ (t₁ ++ t₂)

namespace Runs

variable {bus}

/-- A run of `p` followed by a run of `f` on its result is a run of `p >>= f`. -/
theorem bind {α β : Type} {s s' s'' : S} {p : Prog L V α} {f : α → Prog L V β} {a : α} {b : β}
    {t₁ t₂ : List (Access L V)} (hp : Runs bus s p a s' t₁) (hf : Runs bus s' (f a) b s'' t₂) :
    Runs bus s (p >>= f) b s'' (t₁ ++ t₂) := by
  induction hp with
  | pure => exact hf
  | read _ ih =>
    rw [List.cons_append]
    exact .read (ih hf)
  | write _ ih =>
    rw [List.cons_append]
    exact .write (ih hf)
  | loopNext h₁ _ _ ih₂ =>
    rw [List.append_assoc]
    exact .loopNext h₁ (ih₂ hf)
  | loopDone h₁ _ _ ih₂ =>
    rw [List.append_assoc]
    exact .loopDone h₁ (ih₂ hf)

/-- A read the bus answers with `v`, leaving `s₁`, followed by a run of what comes next. -/
theorem read_of {α : Type} {s s₁ s' : S} {l : L} {k : V → Prog L V α} {v : V} {a : α}
    {t : List (Access L V)} (hr : bus.read s l = (v, s₁)) (h : Runs bus s₁ (k v) a s' t) :
    Runs bus s (.read l k) a s' (.read l v :: t) := by
  have h' : Runs bus (bus.read s l).2 (k (bus.read s l).1) a s' t := by
    rw [hr]
    exact h
  have hrun := Runs.read h'
  rwa [hr] at hrun

/-- A write that leaves `s₁`, followed by a run of what comes next. -/
theorem write_of {α : Type} {s s₁ s' : S} {l : L} {v : V} {k : Prog L V α} {a : α}
    {t : List (Access L V)} (hw : bus.write s l v = s₁) (h : Runs bus s₁ k a s' t) :
    Runs bus s (.write l v k) a s' (.write l v :: t) :=
  .write (hw ▸ h)

theorem get {s : S} {l : L} :
    Runs bus s (Prog.get l) (bus.read s l).1 (bus.read s l).2 [.read l (bus.read s l).1] :=
  .read .pure

theorem set {s : S} {l : L} {v : V} :
    Runs bus s (Prog.set l v) () (bus.write s l v) [.write l v] :=
  .write .pure

/-- A program that starts with a write makes that write first, in every run. -/
theorem head_of_write {α : Type} {s s' : S} {l : L} {v : V} {k : Prog L V α} {a : α}
    {t : List (Access L V)} (h : Runs bus s (.write l v k) a s' t) :
    t.head? = some (.write l v) := by
  cases h
  rfl

/-- A run's trace is what it is up to the order in which it was built. -/
theorem congr_trace {α : Type} {s s' : S} {p : Prog L V α} {a : α} {t t' : List (Access L V)}
    (h : Runs bus s p a s' t) (ht : t = t') : Runs bus s p a s' t' := ht ▸ h

/-- Runs on a bus are unique: the bus answers every access in one way. -/
theorem det {α : Type} {s s₁ s₂ : S} {p : Prog L V α} {a₁ a₂ : α} {t₁ t₂ : List (Access L V)}
    (h₁ : Runs bus s p a₁ s₁ t₁) (h₂ : Runs bus s p a₂ s₂ t₂) : a₁ = a₂ ∧ s₁ = s₂ ∧ t₁ = t₂ := by
  induction h₁ generalizing s₂ t₂ with
  | pure =>
    cases h₂
    exact ⟨rfl, rfl, rfl⟩
  | read _ ih =>
    cases h₂ with
    | read h =>
      obtain ⟨rfl, rfl, rfl⟩ := ih h
      exact ⟨rfl, rfl, rfl⟩
  | write _ ih =>
    cases h₂ with
    | write h =>
      obtain ⟨rfl, rfl, rfl⟩ := ih h
      exact ⟨rfl, rfl, rfl⟩
  | loopNext _ _ ih₁ ih₂ =>
    cases h₂ with
    | loopNext h₁' h₂' =>
      obtain ⟨hn, rfl, rfl⟩ := ih₁ h₁'
      cases hn
      obtain ⟨rfl, rfl, rfl⟩ := ih₂ h₂'
      exact ⟨rfl, rfl, rfl⟩
    | loopDone h₁' _ =>
      obtain ⟨hn, -, -⟩ := ih₁ h₁'
      cases hn
  | loopDone _ _ ih₁ ih₂ =>
    cases h₂ with
    | loopNext h₁' _ =>
      obtain ⟨hn, -, -⟩ := ih₁ h₁'
      cases hn
    | loopDone h₁' h₂' =>
      obtain ⟨hn, rfl, rfl⟩ := ih₁ h₁'
      cases hn
      obtain ⟨rfl, rfl, rfl⟩ := ih₂ h₂'
      exact ⟨rfl, rfl, rfl⟩

/-- `while (cond) ;` ends when `cond` gives `false`. -/
theorem whileM_done {cond : Prog L V Bool} {s s' : S} {t : List (Access L V)}
    (h : Runs bus s cond false s' t) : Runs bus s (Prog.whileM cond) () s' t := by
  have hbody : Runs bus s (cond >>= fun c => Prog.pure (if c then .inl () else .inr ()))
      (Sum.inr () : Unit ⊕ Unit) s' (t ++ []) := h.bind .pure
  exact (Runs.loopDone hbody .pure).congr_trace (by simp)

/-- `while (cond) ;` goes round again when `cond` gives `true`. -/
theorem whileM_again {cond : Prog L V Bool} {s s₁ s₂ : S} {t₁ t₂ : List (Access L V)}
    (h : Runs bus s cond true s₁ t₁) (hrest : Runs bus s₁ (Prog.whileM cond) () s₂ t₂) :
    Runs bus s (Prog.whileM cond) () s₂ (t₁ ++ t₂) := by
  have hbody : Runs bus s (cond >>= fun c => Prog.pure (if c then .inl () else .inr ()))
      (Sum.inl () : Unit ⊕ Unit) s₁ (t₁ ++ []) := h.bind .pure
  exact (Runs.loopNext hbody hrest).congr_trace (by simp)

/-- A loop whose body, from every state of an invariant, goes round again into the
invariant has no run: it spins for ever. -/
theorem loop_diverges {α σ β : Type} {body : σ → Prog L V (σ ⊕ β)} {k : β → Prog L V α}
    (I : S → σ → Prop)
    (hstep : ∀ s x, I s x → ∃ x' s' t, Runs bus s (body x) (.inl x') s' t ∧ I s' x')
    {s s' : S} {init : σ} {a : α} {t : List (Access L V)} (hI : I s init) :
    ¬ Runs bus s (.loop init body k) a s' t := by
  intro h
  generalize hp : Prog.loop init body k = p at h
  induction h generalizing init with
  | pure => cases hp
  | read => cases hp
  | write => cases hp
  | loopNext h₁ _ _ ih₂ =>
    cases hp
    obtain ⟨x', s'', t'', hrun, hI'⟩ := hstep _ _ hI
    obtain ⟨hx, rfl, -⟩ := det h₁ hrun
    cases hx
    exact ih₂ hI' rfl
  | loopDone h₁ _ _ _ =>
    cases hp
    obtain ⟨x', s'', t'', hrun, -⟩ := hstep _ _ hI
    obtain ⟨hx, -, -⟩ := det h₁ hrun
    cases hx

/-- A run returns what its program can return. -/
theorem returns {α : Type} {P : α → Prop} {s s' : S} {p : Prog L V α} {a : α}
    {t : List (Access L V)} (h : Runs bus s p a s' t) (hp : p.Returns P) : P a := by
  induction h with
  | pure => exact hp
  | read _ ih => exact ih (hp _)
  | write _ ih => exact ih hp
  | loopNext _ _ _ ih₂ => exact ih₂ hp
  | loopDone _ _ _ ih₂ => exact ih₂ (hp _)

end Runs

/-- `p` started in `s` ends in `s'` with result `a`, whatever accesses it makes. -/
def Ends {α : Type} (s : S) (p : Prog L V α) (a : α) (s' : S) : Prop :=
  ∃ t, Runs bus s p a s' t

namespace Ends

variable {bus} {α : Type} {s s₁ s' s'' : S} {a a' : α}

theorem pure : Ends bus s (.pure a) a s := ⟨[], .pure⟩

theorem bind {β : Type} {p : Prog L V α} {f : α → Prog L V β} {b : β}
    (hp : Ends bus s p a s') (hf : Ends bus s' (f a) b s'') : Ends bus s (p >>= f) b s'' :=
  let ⟨_, h₁⟩ := hp
  let ⟨_, h₂⟩ := hf
  ⟨_, h₁.bind h₂⟩

theorem read_of {l : L} {k : V → Prog L V α} {v : V} (hr : bus.read s l = (v, s₁))
    (h : Ends bus s₁ (k v) a s') : Ends bus s (.read l k) a s' :=
  let ⟨_, h⟩ := h
  ⟨_, Runs.read_of hr h⟩

theorem write_of {l : L} {v : V} {k : Prog L V α} (hw : bus.write s l v = s₁)
    (h : Ends bus s₁ k a s') : Ends bus s (.write l v k) a s' :=
  let ⟨_, h⟩ := h
  ⟨_, Runs.write_of hw h⟩

theorem ite_pos {c : Prop} [Decidable c] {p q : Prog L V α} (hc : c) (h : Ends bus s p a s') :
    Ends bus s (if c then p else q) a s' := by
  rw [if_pos hc]
  exact h

theorem ite_neg {c : Prop} [Decidable c] {p q : Prog L V α} (hc : ¬ c) (h : Ends bus s q a s') :
    Ends bus s (if c then p else q) a s' := by
  rw [if_neg hc]
  exact h

theorem whileM_done {cond : Prog L V Bool} (h : Ends bus s cond false s') :
    Ends bus s (Prog.whileM cond) () s' :=
  let ⟨_, h⟩ := h
  ⟨_, Runs.whileM_done h⟩

theorem whileM_again {cond : Prog L V Bool} {s₂ : S} (h : Ends bus s cond true s₁)
    (hrest : Ends bus s₁ (Prog.whileM cond) () s₂) : Ends bus s (Prog.whileM cond) () s₂ :=
  let ⟨_, h⟩ := h
  let ⟨_, hrest⟩ := hrest
  ⟨_, Runs.whileM_again h hrest⟩

theorem congr {p : Prog L V α} (h : Ends bus s p a s') (ha : a = a') (hs : s' = s'') :
    Ends bus s p a' s'' :=
  ha ▸ hs ▸ h

theorem det {p : Prog L V α} {a₁ a₂ : α} (h₁ : Ends bus s p a₁ s₁) (h₂ : Ends bus s p a₂ s') :
    a₁ = a₂ ∧ s₁ = s' :=
  let ⟨_, h₁⟩ := h₁
  let ⟨_, h₂⟩ := h₂
  let ⟨ha, hs, _⟩ := Runs.det h₁ h₂
  ⟨ha, hs⟩

end Ends

/-- Run a program for at most `n` steps; `none` when it needs more. -/
def exec : {α : Type} → Nat → S → Prog L V α → Option (α × S × List (Access L V))
  | _, 0, _, _ => none
  | _, _ + 1, s, .pure a => some (a, s, [])
  | _, n + 1, s, .read l k =>
    (exec n (bus.read s l).2 (k (bus.read s l).1)).map fun r =>
      (r.1, r.2.1, .read l (bus.read s l).1 :: r.2.2)
  | _, n + 1, s, .write l v k =>
    (exec n (bus.write s l v) k).map fun r => (r.1, r.2.1, .write l v :: r.2.2)
  | _, n + 1, s, .loop init body k =>
    match exec n s (body init) with
    | none => none
    | some (.inl next, s₁, t₁) =>
      (exec n s₁ (.loop next body k)).map fun r => (r.1, r.2.1, t₁ ++ r.2.2)
    | some (.inr b, s₁, t₁) => (exec n s₁ (k b)).map fun r => (r.1, r.2.1, t₁ ++ r.2.2)

/-- What `exec` computes is a run. -/
theorem Runs.of_exec : ∀ {α : Type} (n : Nat) {s s' : S} {p : Prog L V α} {a : α}
    {t : List (Access L V)}, exec bus n s p = some (a, s', t) → Runs bus s p a s' t
  | _, 0, _, _, _, _, _, h => by simp [exec] at h
  | _, n + 1, s, s', .pure a', a, t, h => by
    simp only [exec, Option.some.injEq, Prod.mk.injEq] at h
    obtain ⟨rfl, rfl, rfl⟩ := h
    exact .pure
  | _, n + 1, s, s', .read l k, a, t, h => by
    simp only [exec, Option.map_eq_some_iff, Prod.mk.injEq] at h
    obtain ⟨⟨a', s'', t'⟩, hr, rfl, rfl, rfl⟩ := h
    exact .read (Runs.of_exec n hr)
  | _, n + 1, s, s', .write l v k, a, t, h => by
    simp only [exec, Option.map_eq_some_iff, Prod.mk.injEq] at h
    obtain ⟨⟨a', s'', t'⟩, hr, rfl, rfl, rfl⟩ := h
    exact .write (Runs.of_exec n hr)
  | _, n + 1, s, s', .loop init body k, a, t, h => by
    simp only [exec] at h
    split at h
    · cases h
    · rename_i next s₁ t₁ hb
      simp only [Option.map_eq_some_iff, Prod.mk.injEq] at h
      obtain ⟨⟨a', s'', t'⟩, hr, rfl, rfl, rfl⟩ := h
      exact .loopNext (Runs.of_exec n hb) (Runs.of_exec n hr)
    · rename_i b s₁ t₁ hb
      simp only [Option.map_eq_some_iff, Prod.mk.injEq] at h
      obtain ⟨⟨a', s'', t'⟩, hr, rfl, rfl, rfl⟩ := h
      exact .loopDone (Runs.of_exec n hb) (Runs.of_exec n hr)

end Port
