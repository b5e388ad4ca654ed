import Xv6.Vm.Mmu
import Xv6.Lib.Reach

/-!
# The page allocator

`kalloc.c`: free pages sit on a list; `kalloc` takes the head, and `kfree` checks the
page, fills it with junk and pushes it. The kernel threads the list through the free
pages themselves, each page's first word pointing at the next; here the list is kept
as a `List` of page addresses, head first, and the links in the pages are not
modelled.

Physical memory is what the kernel addresses directly: it maps all of it one to one.
-/

namespace Xv6

/-- Physical memory and `kmem.freelist`. -/
structure Kmem where
  mem : Nat → UInt8
  free : List Nat

def memset (m : Nat → UInt8) (a : Nat) (c : UInt8) (n : Nat) : Nat → UInt8 :=
  fun x => if a ≤ x ∧ x < a + n then c else m x

def kalloc (k : Kmem) : Option (Nat × Kmem) :=
  match k.free with
  | [] => none
  | r :: rest => some (r, { k with free := rest })

/-- `kfree(v)`; `kend` is the linker's `end`, the first address after the kernel. -/
def kfree (kend : Nat) (k : Kmem) (v : Nat) : Except String Kmem :=
  if v % PGSIZE ≠ 0 ∨ v < kend ∨ v ≥ PHYSTOP then .error "kfree"
  else .ok { mem := memset k.mem v 1 PGSIZE, free := v :: k.free }

/-! ## Pages -/

/-- Byte `x` lies in the page at `p`. -/
def InPage (p x : Nat) : Prop := p ≤ x ∧ x < p + PGSIZE

/-- A page `kalloc` may hand out: aligned and below `PHYSTOP`. -/
def PhysPage (p : Nat) : Prop := p % PGSIZE = 0 ∧ p + PGSIZE ≤ PHYSTOP

theorem eq_of_inPage {p q x : Nat} (hp : p % PGSIZE = 0) (hq : q % PGSIZE = 0) (hpx : InPage p x)
    (hqx : InPage q x) : p = q := by
  simp only [InPage, PGSIZE] at *
  omega

theorem memset_apply_of_inPage {m : Nat → UInt8} {p x : Nat} (c : UInt8) (h : InPage p x) :
    memset m p c PGSIZE x = c := if_pos h

theorem memset_apply_of_not_inPage {m : Nat → UInt8} {p x : Nat} (c : UInt8) (h : ¬ InPage p x) :
    memset m p c PGSIZE x = m x := if_neg h

theorem kalloc_eq_some {k : Kmem} {r : Nat} {rest : List Nat} (h : k.free = r :: rest) :
    kalloc k = some (r, { k with free := rest }) := by
  simp only [kalloc, h]

theorem kalloc_eq_none {k : Kmem} (h : k.free = []) : kalloc k = none := by
  simp only [kalloc, h]

/-- What the free list keeps: no page twice, and only pages `kalloc` may hand out. -/
structure FreeWf (free : List Nat) : Prop where
  nodup : free.Nodup
  page : ∀ p ∈ free, PhysPage p

theorem FreeWf.tail {r : Nat} {rest : List Nat} (h : FreeWf (r :: rest)) : FreeWf rest :=
  ⟨(List.nodup_cons.mp h.nodup).2, fun p hp => h.page p (List.mem_cons_of_mem r hp)⟩

/-! ## `kinit` -/

/-- How often `for(; p + PGSIZE <= (char*)PHYSTOP; p += PGSIZE)` runs. -/
def pagesFrom (p : Nat) : Nat := (PHYSTOP - p) / PGSIZE

/-- The loop of `kinit`: `kfree` on `n` pages from `p`. -/
def kinitLoop (kend : Nat) : Nat → Nat → Kmem → Except String Kmem
  | 0, _, k => pure k
  | n + 1, p, k => do
    let k ← kfree kend k p
    kinitLoop kend n (p + PGSIZE) k

/-- `kinit`, from the free list `kmem.freelist` it finds. -/
def kinit (kend : UInt32) (k : Kmem) : Except String Kmem :=
  let p := (PGROUNDUP kend).toNat
  kinitLoop kend.toNat (pagesFrom p) p k

/-- The pages from `PGROUNDUP(end)` below `PHYSTOP`, lowest first. -/
def kinitPages (kend : UInt32) : List Nat :=
  (List.range (pagesFrom (PGROUNDUP kend).toNat)).map fun i => (PGROUNDUP kend).toNat + i * PGSIZE

section Kinit

variable {kend : Nat} {k k' : Kmem} {v : Nat}

theorem kfree_eq_ok (h : kfree kend k v = .ok k') :
    v % PGSIZE = 0 ∧ kend ≤ v ∧ v < PHYSTOP ∧ k' = ⟨memset k.mem v 1 PGSIZE, v :: k.free⟩ := by
  unfold kfree at h
  split_ifs at h with hv
  cases h
  simp only [not_or, not_le, not_lt, ne_eq, Decidable.not_not] at hv
  exact ⟨hv.1, hv.2.1, hv.2.2, rfl⟩

theorem kfree_ok (hv : v % PGSIZE = 0) (he : kend ≤ v) (hp : v < PHYSTOP) :
    kfree kend k v = .ok ⟨memset k.mem v 1 PGSIZE, v :: k.free⟩ := by
  rw [kfree, if_neg (by omega)]

/-- `kinit`'s loop pushes its pages in turn, so the last is at the head. -/
theorem kinitLoop_free : ∀ {n p : Nat} {k k' : Kmem}, kinitLoop kend n p k = .ok k' →
    k'.free = ((List.range n).map fun i => p + i * PGSIZE).reverse ++ k.free
  | 0, _, _, _, h => by
    cases h
    rfl
  | n + 1, p, k, k', h => by
    simp only [kinitLoop, bind, Except.bind] at h
    rcases hk : kfree kend k p with e | k₁ <;> rw [hk] at h
    · cases h
    · obtain ⟨-, -, -, rfl⟩ := kfree_eq_ok hk
      rw [kinitLoop_free h, List.range_succ_eq_map, List.map_cons, List.map_map,
        List.reverse_cons, List.append_assoc]
      simp only [Function.comp_def, Nat.zero_mul, Nat.add_zero, Nat.succ_mul, Nat.add_assoc,
        Nat.add_comm PGSIZE, List.singleton_append]

/-- `kinit`'s loop does not panic on pages that pass `kfree`'s check. -/
theorem kinitLoop_ok : ∀ (n p : Nat) (k : Kmem), (∀ i < n, (p + i * PGSIZE) % PGSIZE = 0 ∧
    kend ≤ p + i * PGSIZE ∧ p + i * PGSIZE < PHYSTOP) → ∃ k', kinitLoop kend n p k = .ok k'
  | 0, _, k, _ => ⟨k, rfl⟩
  | n + 1, p, k, h => by
    obtain ⟨hv, he, hp⟩ := h 0 (Nat.zero_lt_succ n)
    rw [Nat.zero_mul, Nat.add_zero] at hv he hp
    obtain ⟨k', hk'⟩ := kinitLoop_ok n (p + PGSIZE) ⟨memset k.mem p 1 PGSIZE, p :: k.free⟩
      fun i hi => by simpa [Nat.succ_mul, Nat.add_assoc, Nat.add_comm PGSIZE] using h (i + 1) (by omega)
    exact ⟨k', by simp only [kinitLoop, kfree_ok hv he hp, bind, Except.bind, hk']⟩

theorem kinitPages_nodup (kend : UInt32) : (kinitPages kend).Nodup := by
  refine (List.nodup_range).map ?_
  intro i j hij
  simp only [PGSIZE] at hij
  omega

/-- `kinit` does not panic when `end` rounds up without wrapping: it frees every page from
`PGROUNDUP(end)` below `PHYSTOP`, the highest at the head of the list. -/
theorem kinit_ok {kend : UInt32} (h : kend.toNat + 4095 < 2 ^ 32) (k : Kmem) :
    ∃ k', kinit kend k = .ok k' ∧ k'.free = (kinitPages kend).reverse ++ k.free := by
  have hp := PGROUNDUP_toNat h
  obtain ⟨k', hk⟩ : ∃ k', kinit kend k = .ok k' := kinitLoop_ok _ _ k fun i hi => by
    simp only [pagesFrom] at hi
    rw [hp] at hi ⊢
    simp only [PGSIZE, PHYSTOP] at hi ⊢
    omega
  exact ⟨k', hk, kinitLoop_free hk⟩

theorem kinit_ok_end : ∃ k', kinit 0x10F000 ⟨fun _ => 0, []⟩ = .ok k' ∧
    k'.free = (kinitPages 0x10F000).reverse ++ [] :=
  kinit_ok (by decide) _

end Kinit

/-! ## The allocator and its callers -/

/-- A call on the allocator. -/
inductive KCall where
  | alloc
  | free (v : Nat)
deriving DecidableEq, Repr

/-- The allocator and, as ghost state, the pages its callers hold: those `kalloc` returned
and that were not given back. -/
structure KSys where
  k : Kmem
  held : List Nat

/-- One call; `none` where `kfree` panics. -/
def kNext (kend : Nat) (s : KSys) : KCall → Option KSys
  | .alloc =>
    match kalloc s.k with
    | none => some s
    | some (r, k) => some ⟨k, r :: s.held⟩
  | .free v =>
    match kfree kend s.k v with
    | .error _ => none
    | .ok k => some ⟨k, s.held.erase v⟩

/-- The callers' side of `kfree`'s contract: a page given back is one `kalloc` returned. -/
def KCall.Allowed (s : KSys) : KCall → Prop
  | .alloc => True
  | .free v => v ∈ s.held

/-- The allocator after `kinit` from an empty list, before any call. -/
def KInit (kend : UInt32) (s : KSys) : Prop :=
  ∃ mem, kinit kend ⟨mem, []⟩ = .ok s.k ∧ s.held = []

/-- A call the callers may make, and its effect. -/
def KStep (kend : UInt32) (s : KSys) (e : KCall) (s' : KSys) : Prop :=
  e.Allowed s ∧ kNext kend.toNat s e = some s'

/-- Each page of `pages` is on the free list or held, and just once. -/
def KInv (pages : List Nat) (s : KSys) : Prop := (s.k.free ++ s.held).Perm pages

section Run

variable {pages : List Nat} {s s' : KSys}

theorem KInv.alloc {r : Nat} {k : Kmem} (hi : KInv pages s) (h : kalloc s.k = some (r, k)) :
    KInv pages ⟨k, r :: s.held⟩ := by
  rcases hf : s.k.free with _ | ⟨r', rest⟩
  · rw [kalloc_eq_none hf] at h
    cases h
  · rw [kalloc_eq_some hf, Option.some.injEq, Prod.mk.injEq] at h
    obtain ⟨rfl, rfl⟩ := h
    unfold KInv at hi ⊢
    rw [hf] at hi
    exact List.perm_middle.trans hi

theorem KInv.free {v : Nat} {k : Kmem} (hi : KInv pages s) (hv : v ∈ s.held)
    (h : kfree kend s.k v = .ok k) : KInv pages ⟨k, s.held.erase v⟩ := by
  obtain ⟨-, -, -, rfl⟩ := kfree_eq_ok h
  unfold KInv at hi ⊢
  -- the page moves from the callers to the head of the list
  have hmove : (s.k.free ++ v :: s.held.erase v).Perm (s.k.free ++ s.held) :=
    (List.perm_cons_erase hv).symm.append_left _
  exact List.perm_middle.symm.trans (hmove.trans hi)

theorem KInv.step {kend : UInt32} {e : KCall} (hi : KInv pages s) (h : KStep kend s e s') :
    KInv pages s' := by
  obtain ⟨hallow, hnext⟩ := h
  cases e with
  | alloc =>
    simp only [kNext] at hnext
    rcases hk : kalloc s.k with _ | ⟨r, k⟩ <;> rw [hk] at hnext <;> cases hnext
    · exact hi
    · exact hi.alloc hk
  | free v =>
    simp only [kNext] at hnext
    rcases hk : kfree kend.toNat s.k v with e | k <;> rw [hk] at hnext <;> cases hnext
    exact hi.free hallow hk

theorem KInv.init {kend : UInt32} (h : KInit kend s) : KInv (kinitPages kend).reverse s := by
  obtain ⟨mem, hk, hheld⟩ := h
  unfold KInv
  rw [kinitLoop_free hk, hheld, List.append_nil, List.append_nil]
  rfl

/-- A page `kalloc` returns is held by no caller. -/
theorem KInv.kalloc_fresh {r : Nat} {k : Kmem} (hi : KInv pages s) (hn : pages.Nodup)
    (h : kalloc s.k = some (r, k)) : r ∉ s.held := by
  rcases hf : s.k.free with _ | ⟨r', rest⟩
  · rw [kalloc_eq_none hf] at h
    cases h
  · rw [kalloc_eq_some hf, Option.some.injEq, Prod.mk.injEq] at h
    obtain ⟨rfl, -⟩ := h
    have hnd := hi.nodup_iff.mpr hn
    rw [hf, List.cons_append, List.nodup_cons] at hnd
    exact fun hr => hnd.1 (List.mem_append_right _ hr)

end Run

/-- From `kinit`, while callers give back only pages they hold, every page `kinit` freed is
on the free list or held by a caller, just once, and `kalloc` hands out no page that a caller
holds. -/
theorem kalloc_owned {kend : UInt32} {s : KSys} (h : Reach.Reachable (KInit kend) (KStep kend) s) :
    (s.k.free ++ s.held).Perm (kinitPages kend) ∧ ∀ r k, kalloc s.k = some (r, k) → r ∉ s.held := by
  have hi : KInv (kinitPages kend).reverse s :=
    h.invariant (fun _ h0 => KInv.init h0) fun _ _ _ hi hs => hi.step hs
  exact ⟨hi.trans (List.reverse_perm _), fun r k hk =>
    hi.kalloc_fresh (List.nodup_reverse.mpr (kinitPages_nodup kend)) hk⟩

/-- The allocator `kinit` leaves when it frees the two pages below `PHYSTOP`. -/
def kinitTwo : Kmem :=
  ⟨memset (memset (fun _ => 0) 0xFFE000 1 PGSIZE) 0xFFF000 1 PGSIZE, [0xFFF000, 0xFFE000]⟩

theorem kinitTwo_init : KInit 0xFFE000 ⟨kinitTwo, []⟩ := by
  refine ⟨fun _ => 0, ?_, rfl⟩
  rw [kinit, PGROUNDUP_toNat (by decide)]
  show kinitLoop 0xFFE000 (0 + 1 + 1) 0xFFE000 _ = _
  rw [kinitLoop, kfree_ok (by decide) (by decide) (by decide)]
  show kinitLoop 0xFFE000 (0 + 1) (0xFFE000 + PGSIZE) _ = _
  rw [kinitLoop, kfree_ok (by decide) (by decide) (by decide)]
  rfl

/-- Two `kalloc`s take both pages; the first is given back, and is the page the next
`kalloc` would return, while the other stays held. -/
theorem kalloc_owned_after_free : ∃ s, Reach.Reachable (KInit 0xFFE000) (KStep 0xFFE000) s ∧
    s.k.free = [0xFFF000] ∧ s.held = [0xFFE000] ∧
    (s.k.free ++ s.held).Perm (kinitPages 0xFFE000) ∧
      ∀ r k, kalloc s.k = some (r, k) → r ∉ s.held := by
  have h1 : Reach.Reachable (KInit 0xFFE000) (KStep 0xFFE000)
      ⟨⟨kinitTwo.mem, [0xFFE000]⟩, [0xFFF000]⟩ :=
    .step .alloc (.init kinitTwo_init) ⟨trivial, rfl⟩
  have h2 : Reach.Reachable (KInit 0xFFE000) (KStep 0xFFE000)
      ⟨⟨kinitTwo.mem, []⟩, [0xFFE000, 0xFFF000]⟩ :=
    .step .alloc h1 ⟨trivial, rfl⟩
  have h3 : Reach.Reachable (KInit 0xFFE000) (KStep 0xFFE000)
      ⟨⟨memset kinitTwo.mem 0xFFF000 1 PGSIZE, [0xFFF000]⟩, [0xFFE000]⟩ :=
    .step (.free 0xFFF000) h2 ⟨List.mem_cons_of_mem _ (List.mem_singleton_self _), rfl⟩
  exact ⟨_, h3, rfl, rfl, kalloc_owned h3⟩

end Xv6
