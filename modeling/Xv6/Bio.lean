import Mathlib
import Xv6.Lib.Reach
import Xv6.Lib.DList

/-!
# The buffer cache

`bio.c`: `bcache` holds `NBUF` buffers on a circular list through `bcache.head`, most
recently released first. `bget` scans the list forward for a buffer caching the
block, and otherwise backward for one that is not `B_BUSY`, which it takes over with
`B_VALID` cleared; `brelse` moves a buffer to the front. `bread` is `bget` followed by
a disk read (`iderw`) when the buffer is not `B_VALID`; `bwrite` writes it out.

Each `bget` and `brelse` is one `bcache.lock` critical section, and one step here. A
`bget` that finds its block `B_BUSY` sleeps and starts over when woken; the step leaves
the cache unchanged and the process calls again. The disk transfers of `bread` and
`bwrite` happen outside the lock on a buffer the caller holds `B_BUSY`; they are steps of
their own, and `iderw` is modelled by what it leaves in the flags. Which caller holds
which buffer is kept as a ghost list of pairs. Buffer data and the disk are not
modelled: nothing the cache decides depends on them.

The list is `DList.Cycle` over the pointers; `binit` and `brelse` splice with
`DList.pushFront` and `DList.unlink`, and the scans are `DList.find`, given fuel for
every buffer.
-/

namespace Xv6

/-- `#define NBUF 10` -/
def NBUF : Nat := 10

/-- A pointer into `bcache`: `&bcache.head` or `&bcache.buf[i]`. -/
inductive BufRef where
  | head
  | buf (i : Fin NBUF)
  deriving DecidableEq

/-- The fields of `struct buf` the cache reads and writes: the bits `B_BUSY`, `B_VALID`
and `B_DIRTY` of `flags`, `dev` and `sector`. -/
structure Buf where
  busy : Bool
  valid : Bool
  dirty : Bool
  dev : UInt32
  sector : UInt32
  deriving DecidableEq

/-- `bcache`: the buffers, and the `next` and `prev` fields of the buffers and the head. -/
structure Bcache where
  buf : Fin NBUF → Buf
  next : BufRef → BufRef
  prev : BufRef → BufRef

namespace Bcache

def setBuf (bc : Bcache) (i : Fin NBUF) (b : Buf) : Bcache :=
  { bc with buf := Function.update bc.buf i b }

@[simp] theorem setBuf_next (bc : Bcache) (i : Fin NBUF) (b : Buf) : (bc.setBuf i b).next = bc.next := rfl
@[simp] theorem setBuf_prev (bc : Bcache) (i : Fin NBUF) (b : Buf) : (bc.setBuf i b).prev = bc.prev := rfl

/-- `b->dev == dev && b->sector == sector` -/
def caches (bc : Bcache) (dev sector : UInt32) : BufRef → Bool
  | .head => false
  | .buf i => (bc.buf i).dev = dev ∧ (bc.buf i).sector = sector

/-- `(b->flags & B_BUSY) == 0` -/
def idle (bc : Bcache) : BufRef → Bool
  | .head => false
  | .buf i => !(bc.buf i).busy

/-- The zeroed `bcache` of a booting kernel. Its null pointers are taken as pointers to
the head: `binit` writes every pointer before it is read. -/
def zero : Bcache := ⟨fun _ => ⟨false, false, false, 0, 0⟩, fun _ => .head, fun _ => .head⟩

end Bcache

/-! ## The code -/

/-- One iteration of `binit`'s loop: the buffer goes in at the front with `dev = -1`. -/
def binitStep (bc : Bcache) (i : Fin NBUF) : Bcache :=
  let (nx, pv) := DList.pushFront .head bc.next bc.prev (.buf i)
  { buf := Function.update bc.buf i { bc.buf i with dev := -1 }, next := nx, prev := pv }

/-- `binit`: the head points to itself, then each buffer in turn is put at the front. -/
def binit : Bcache :=
  let bc := { Bcache.zero with
    next := Function.update Bcache.zero.next .head .head
    prev := Function.update Bcache.zero.prev .head .head }
  (List.finRange NBUF).foldl binitStep bc

/-- How `bget` ends: buffer `i` is returned `B_BUSY`, or the process sleeps on it. -/
inductive Bget where
  | got (i : Fin NBUF)
  | sleep (i : Fin NBUF)

/-- `bget`: the forward scan for the cached block, then the backward scan for a buffer
to recycle. Each scan follows the list from the head for at most `NBUF + 1` nodes. -/
def bget (bc : Bcache) (dev sector : UInt32) : Except String (Bget × Bcache) :=
  match DList.find bc.next .head (bc.caches dev sector) (NBUF + 1) (bc.next .head) with
  | some (.buf i) =>
    if !(bc.buf i).busy then pure (.got i, bc.setBuf i { bc.buf i with busy := true })
    else pure (.sleep i, bc)
  | _ =>
    match DList.find bc.prev .head bc.idle (NBUF + 1) (bc.prev .head) with
    | some (.buf i) => pure (.got i, bc.setBuf i ⟨true, false, false, dev, sector⟩)
    | _ => throw "bget: no buffers"

/-- The flags `iderw` leaves on a buffer: the transfer done, it is valid and clean. -/
def iderw (b : Buf) : Except String Buf :=
  if !b.busy then throw "iderw: buf not busy"
  else if b.valid ∧ !b.dirty then throw "iderw: nothing to do"
  else pure { b with valid := true, dirty := false }

/-- The rest of `bread` after `bget`: the disk is read unless the buffer is `B_VALID`. -/
def breadFill (bc : Bcache) (i : Fin NBUF) : Except String Bcache :=
  if !(bc.buf i).valid then (iderw (bc.buf i)).map (bc.setBuf i) else pure bc

def bwrite (bc : Bcache) (i : Fin NBUF) : Except String Bcache :=
  if !(bc.buf i).busy then throw "bwrite"
  else (iderw { bc.buf i with dirty := true }).map (bc.setBuf i)

/-- `brelse`: the buffer is taken out of the list and put back at the front. -/
def brelse (bc : Bcache) (i : Fin NBUF) : Except String Bcache :=
  if !(bc.buf i).busy then throw "brelse"
  else
    let (nx, pv) := DList.unlink bc.next bc.prev (.buf i)
    let (nx, pv) := DList.pushFront .head nx pv (.buf i)
    pure { buf := Function.update bc.buf i { bc.buf i with busy := false }, next := nx, prev := pv }

/-! ## The cache as a system -/

/-- A call of process `p`: `bread` is `bget` and then `fill`. -/
inductive BioCall where
  | bget (p : Nat) (dev sector : UInt32)
  | fill (p : Nat) (i : Fin NBUF)
  | bwrite (p : Nat) (i : Fin NBUF)
  | brelse (p : Nat) (i : Fin NBUF)

/-- The cache, and the buffers each process got from `bget` and has not released. -/
structure BioSys where
  bc : Bcache
  holders : List (Nat × Fin NBUF)

/-- One step; a process passes only buffers it holds, and a panic is refused. -/
def bioNext (s : BioSys) : BioCall → Option BioSys
  | .bget p dev sector =>
    match bget s.bc dev sector with
    | .ok (.got i, bc) => some ⟨bc, (p, i) :: s.holders⟩
    | .ok (.sleep _, bc) => some { s with bc := bc }
    | .error _ => none
  | .fill p i =>
    if (p, i) ∈ s.holders then (breadFill s.bc i).toOption.map ({ s with bc := · }) else none
  | .bwrite p i =>
    if (p, i) ∈ s.holders then (bwrite s.bc i).toOption.map ({ s with bc := · }) else none
  | .brelse p i =>
    if (p, i) ∈ s.holders then (brelse s.bc i).toOption.map (⟨·, s.holders.erase (p, i)⟩)
    else none

def BioInit (s : BioSys) : Prop := s = ⟨binit, []⟩

def BioReachable : BioSys → Prop := Reach.Reachable BioInit (Reach.stepOf bioNext)

/-! ## The scans follow the list -/

section scans

variable {bc : Bcache} {o : List (Fin NBUF)}

theorem nodup_order (ho : o.Perm (List.finRange NBUF)) : (BufRef.head :: o.map .buf).Nodup := by
  refine List.nodup_cons.mpr ⟨by simp, List.Nodup.map (fun _ _ h => BufRef.buf.inj h) ?_⟩
  exact ho.nodup_iff.mpr (List.nodup_finRange _)

theorem mem_order (ho : o.Perm (List.finRange NBUF)) (i : Fin NBUF) : BufRef.buf i ∈ o.map .buf :=
  List.mem_map_of_mem (ho.mem_iff.mpr (List.mem_finRange i))

variable (hc : DList.Cycle bc.next bc.prev .head (o.map .buf)) (ho : o.Perm (List.finRange NBUF))
include hc ho

theorem find_next (p : BufRef → Bool) :
    DList.find bc.next .head p (NBUF + 1) (bc.next .head) = (o.map .buf).find? p :=
  hc.find (by simp) p (by simp [ho.length_eq])

theorem find_prev (p : BufRef → Bool) :
    DList.find bc.prev .head p (NBUF + 1) (bc.prev .head) = (o.map .buf).reverse.find? p :=
  hc.reverse.find (by simp) p (by simp [ho.length_eq])

/-- What `bget` can do: take or sleep on the buffer caching the block, or, when no
buffer caches it, take over an idle one. -/
theorem bget_cases {dev sector : UInt32} {r : Bget} {bc' : Bcache}
    (h : bget bc dev sector = .ok (r, bc')) :
    (∃ i, (bc.buf i).dev = dev ∧ (bc.buf i).sector = sector ∧
      ((bc.buf i).busy = false ∧ r = .got i ∧ bc' = bc.setBuf i { bc.buf i with busy := true } ∨
        (bc.buf i).busy = true ∧ r = .sleep i ∧ bc' = bc)) ∨
    (∃ i, (∀ j, ¬ ((bc.buf j).dev = dev ∧ (bc.buf j).sector = sector)) ∧
      (bc.buf i).busy = false ∧ r = .got i ∧ bc' = bc.setBuf i ⟨true, false, false, dev, sector⟩) := by
  unfold bget at h
  rw [find_next hc ho] at h
  cases hf : (o.map BufRef.buf).find? (bc.caches dev sector) with
  | some x =>
    have hx := List.find?_some hf
    cases x with
    | head => simp [Bcache.caches] at hx
    | buf i =>
      simp only [Bcache.caches, decide_eq_true_eq] at hx
      rw [hf] at h
      refine .inl ⟨i, hx.1, hx.2, ?_⟩
      cases hb : (bc.buf i).busy
      · simp only [hb, Bool.not_false, if_true, pure, Except.pure, Except.ok.injEq,
          Prod.mk.injEq] at h
        exact .inl ⟨rfl, h.1.symm, h.2.symm⟩
      · simp only [hb, Bool.not_true, Bool.false_eq_true, if_false, pure, Except.pure,
          Except.ok.injEq, Prod.mk.injEq] at h
        exact .inr ⟨rfl, h.1.symm, h.2.symm⟩
  | none =>
    have hnone : ∀ j, ¬ ((bc.buf j).dev = dev ∧ (bc.buf j).sector = sector) := fun j hj =>
      List.find?_eq_none.mp hf _ (mem_order ho j) (by simp [Bcache.caches, hj])
    rw [hf, find_prev hc ho] at h
    cases hg : (o.map BufRef.buf).reverse.find? bc.idle with
    | none => simp [hg] at h
    | some x =>
      have hx := List.find?_some hg
      cases x with
      | head => simp [Bcache.idle] at hx
      | buf i =>
        simp only [Bcache.idle, Bool.not_eq_eq_eq_not, Bool.not_true] at hx
        simp only [hg, pure, Except.pure, Except.ok.injEq, Prod.mk.injEq] at h
        exact .inr ⟨i, hnone, hx, h.1.symm, h.2.symm⟩

end scans

/-! ## What a step can do -/

theorem iderw_ok {b b' : Buf} (h : iderw b = .ok b') : b' = { b with valid := true, dirty := false } := by
  unfold iderw at h
  split_ifs at h
  cases h
  rfl

/-- The disk transfers change only the flags `B_VALID` and `B_DIRTY`. -/
def Bcache.Reflagged (bc bc' : Bcache) (i : Fin NBUF) : Prop :=
  ∃ b : Buf, bc' = bc.setBuf i b ∧ b.busy = (bc.buf i).busy ∧ b.dev = (bc.buf i).dev ∧
    b.sector = (bc.buf i).sector

theorem breadFill_reflagged {bc bc' : Bcache} {i : Fin NBUF} (h : breadFill bc i = .ok bc') :
    bc.Reflagged bc' i := by
  unfold breadFill at h
  split_ifs at h
  · cases hw : iderw (bc.buf i) with
    | error e => simp [hw, Except.map] at h
    | ok b =>
      simp only [hw, Except.map, Except.ok.injEq] at h
      exact ⟨b, h.symm, by simp [iderw_ok hw]⟩
  · refine ⟨bc.buf i, ?_, rfl, rfl, rfl⟩
    cases h
    simp [Bcache.setBuf]

theorem bwrite_reflagged {bc bc' : Bcache} {i : Fin NBUF} (h : bwrite bc i = .ok bc') :
    bc.Reflagged bc' i := by
  unfold bwrite at h
  split_ifs at h
  cases hw : iderw { bc.buf i with dirty := true } with
  | error e => simp [hw, Except.map] at h
  | ok b =>
    simp only [hw, Except.map, Except.ok.injEq] at h
    exact ⟨b, h.symm, by simp [iderw_ok hw]⟩

theorem toOption_map_eq_some {α β : Type} {e : Except String α} {f : α → β} {b : β}
    (h : e.toOption.map f = some b) : ∃ a, e = .ok a ∧ f a = b := by
  cases e with
  | error => simp [Except.toOption] at h
  | ok a => exact ⟨a, rfl, by simpa [Except.toOption] using h⟩

/-- What one step of the cache can do, given the list invariant: take a buffer that
caches the block, take over an idle buffer for a block no buffer caches, change the
disk flags of a buffer, or release a held buffer. -/
theorem bioNext_cases {s s' : BioSys} {e : BioCall}
    (ho : ∃ o : List (Fin NBUF), o.Perm (List.finRange NBUF) ∧
      DList.Cycle s.bc.next s.bc.prev .head (o.map .buf))
    (h : bioNext s e = some s') :
    (∃ p i, (s.bc.buf i).busy = false ∧
      s' = ⟨s.bc.setBuf i { s.bc.buf i with busy := true }, (p, i) :: s.holders⟩) ∨
    (∃ p i dev sector, (s.bc.buf i).busy = false ∧
      (∀ j, ¬ ((s.bc.buf j).dev = dev ∧ (s.bc.buf j).sector = sector)) ∧
      s' = ⟨s.bc.setBuf i ⟨true, false, false, dev, sector⟩, (p, i) :: s.holders⟩) ∨
    (∃ i bc', s.bc.Reflagged bc' i ∧ s' = ⟨bc', s.holders⟩) ∨
    (∃ p i bc', (p, i) ∈ s.holders ∧ brelse s.bc i = .ok bc' ∧
      s' = ⟨bc', s.holders.erase (p, i)⟩) := by
  obtain ⟨o, hperm, hc⟩ := ho
  cases e with
  | bget p dev sector =>
    simp only [bioNext] at h
    cases hb : bget s.bc dev sector with
    | error => simp [hb] at h
    | ok x =>
      obtain ⟨r, bc'⟩ := x
      rcases bget_cases hc hperm hb with ⟨i, -, -, ⟨hidle, rfl, rfl⟩ | ⟨-, rfl, rfl⟩⟩ | ⟨i, hnone, hidle, rfl, rfl⟩
      · simp only [hb, Option.some.injEq] at h
        exact .inl ⟨p, i, hidle, h.symm⟩
      · -- asleep on a busy buffer: nothing changes
        simp only [hb, Option.some.injEq] at h
        refine .inr (.inr (.inl ⟨i, s.bc, ⟨s.bc.buf i, ?_, rfl, rfl, rfl⟩, h.symm⟩))
        simp [Bcache.setBuf]
      · simp only [hb, Option.some.injEq] at h
        exact .inr (.inl ⟨p, i, dev, sector, hidle, hnone, h.symm⟩)
  | fill p i =>
    simp only [bioNext] at h
    split_ifs at h
    obtain ⟨bc', hf, rfl⟩ := toOption_map_eq_some h
    exact .inr (.inr (.inl ⟨i, bc', breadFill_reflagged hf, rfl⟩))
  | bwrite p i =>
    simp only [bioNext] at h
    split_ifs at h
    obtain ⟨bc', hf, rfl⟩ := toOption_map_eq_some h
    exact .inr (.inr (.inl ⟨i, bc', bwrite_reflagged hf, rfl⟩))
  | brelse p i =>
    simp only [bioNext] at h
    split_ifs at h with hm
    obtain ⟨bc', hf, rfl⟩ := toOption_map_eq_some h
    exact .inr (.inr (.inr ⟨p, i, bc', hm, hf, rfl⟩))

/-! ## The invariant -/

/-- The list holds the head and every buffer once; no block is cached twice (the
markers `dev = -1` of `binit` apart); a buffer is `B_BUSY` exactly when one process
holds it. -/
structure BioInv (s : BioSys) : Prop where
  order : ∃ o : List (Fin NBUF), o.Perm (List.finRange NBUF) ∧
    DList.Cycle s.bc.next s.bc.prev .head (o.map .buf)
  unique : ∀ i j, i ≠ j → (s.bc.buf i).dev = (s.bc.buf j).dev →
    (s.bc.buf i).sector = (s.bc.buf j).sector → (s.bc.buf i).dev = -1
  held : ∀ i, s.holders.countP (fun h => h.2 = i) = if (s.bc.buf i).busy then 1 else 0

/-- Uniqueness of the cached blocks depends on nothing but the blocks. -/
theorem unique_congr {b b' : Fin NBUF → Buf}
    (hkey : ∀ j, (b' j).dev = (b j).dev ∧ (b' j).sector = (b j).sector)
    (hu : ∀ i j, i ≠ j → (b i).dev = (b j).dev → (b i).sector = (b j).sector → (b i).dev = -1) :
    ∀ i j, i ≠ j → (b' i).dev = (b' j).dev → (b' i).sector = (b' j).sector → (b' i).dev = -1 := by
  intro i j hij hd hs
  rw [(hkey i).1, (hkey j).1] at hd
  rw [(hkey i).2, (hkey j).2] at hs
  rw [(hkey i).1]
  exact hu i j hij hd hs

namespace BioInv

variable {s : BioSys} (hi : BioInv s)
include hi

/-- A buffer a process holds is `B_BUSY`. -/
theorem busy_of_mem {p : Nat} {i : Fin NBUF} (hm : (p, i) ∈ s.holders) : (s.bc.buf i).busy = true := by
  have hpos : 0 < s.holders.countP (fun h => h.2 = i) :=
    List.countP_pos_iff.mpr ⟨(p, i), hm, by simp⟩
  rw [hi.held i] at hpos
  by_contra hb
  simp [hb] at hpos

/-- New flags on a buffer, its block and `B_BUSY` kept. -/
theorem setFlags (i : Fin NBUF) (b : Buf) (hbusy : b.busy = (s.bc.buf i).busy)
    (hdev : b.dev = (s.bc.buf i).dev) (hsec : b.sector = (s.bc.buf i).sector) :
    BioInv ⟨s.bc.setBuf i b, s.holders⟩ := by
  have hkeep : ∀ j, ((s.bc.setBuf i b).buf j).busy = (s.bc.buf j).busy ∧
      ((s.bc.setBuf i b).buf j).dev = (s.bc.buf j).dev ∧
      ((s.bc.setBuf i b).buf j).sector = (s.bc.buf j).sector := fun j => by
    simp only [Bcache.setBuf, Function.update_apply]
    split_ifs with hj
    · subst hj
      exact ⟨hbusy, hdev, hsec⟩
    · exact ⟨rfl, rfl, rfl⟩
  refine ⟨hi.order, unique_congr (fun j => (hkeep j).2) hi.unique, fun j => ?_⟩
  rw [(hkeep j).1]
  exact hi.held j

/-- Process `p` takes the idle buffer `i`, which keeps its block or gets one no buffer
caches. -/
theorem take (p : Nat) (i : Fin NBUF) (hidle : (s.bc.buf i).busy = false) (b : Buf)
    (hb : b.busy = true)
    (hkey : (b.dev = (s.bc.buf i).dev ∧ b.sector = (s.bc.buf i).sector) ∨
      ∀ j, ¬ ((s.bc.buf j).dev = b.dev ∧ (s.bc.buf j).sector = b.sector)) :
    BioInv ⟨s.bc.setBuf i b, (p, i) :: s.holders⟩ := by
  have hbuf : ∀ j, (s.bc.setBuf i b).buf j = if j = i then b else s.bc.buf j := fun j => by
    simp only [Bcache.setBuf, Function.update_apply]
  refine ⟨hi.order, fun j k hjk hd hs => ?_, fun j => ?_⟩
  · rw [hbuf j, hbuf k] at hd hs
    rw [hbuf j]
    by_cases hj : j = i
    · subst hj
      have hk : k ≠ j := Ne.symm hjk
      simp only [if_true, if_neg hk] at hd hs ⊢
      rcases hkey with ⟨hd', hs'⟩ | hfresh
      · rw [hd'] at hd ⊢
        rw [hs'] at hs
        exact hi.unique j k hjk hd hs
      · exact absurd ⟨hd.symm, hs.symm⟩ (hfresh k)
    · by_cases hk : k = i
      · subst hk
        simp only [if_true, if_neg hj] at hd hs ⊢
        rcases hkey with ⟨hd', hs'⟩ | hfresh
        · rw [hd'] at hd
          rw [hs'] at hs
          exact hi.unique j k hjk hd hs
        · exact absurd ⟨hd, hs⟩ (hfresh j)
      · simp only [if_neg hj, if_neg hk] at hd hs ⊢
        exact hi.unique j k hjk hd hs
  · rw [List.countP_cons, hi.held j, hbuf j]
    by_cases hj : j = i
    · subst hj
      simp [hidle, hb]
    · simp [hj, Ne.symm hj]

/-- `brelse` by the holder moves the buffer to the front and frees it. -/
theorem release {p : Nat} {i : Fin NBUF} (hm : (p, i) ∈ s.holders) {bc' : Bcache}
    (h : brelse s.bc i = .ok bc') : BioInv ⟨bc', s.holders.erase (p, i)⟩ := by
  have hbusy := hi.busy_of_mem hm
  simp only [brelse, hbusy, Bool.not_true, Bool.false_eq_true, if_false, pure, Except.pure,
    Except.ok.injEq] at h
  subst h
  obtain ⟨o, ho, hc⟩ := hi.order
  obtain ⟨o₁, o₂, rfl⟩ := List.append_of_mem (ho.mem_iff.mpr (List.mem_finRange i))
  have hnd := nodup_order ho
  rw [List.map_append, List.map_cons] at hc hnd
  -- out of the list, then back in at the front
  have hc₁ := hc.unlink hnd
  have hnd' : (BufRef.buf i :: BufRef.head :: (o₁.map .buf ++ o₂.map .buf)).Nodup :=
    ((List.perm_middle.cons _).trans (List.Perm.swap _ _ _)).nodup_iff.mp hnd
  obtain ⟨hb, hnd₁⟩ := List.nodup_cons.mp hnd'
  refine ⟨⟨i :: (o₁ ++ o₂), List.perm_middle.symm.trans ho, ?_⟩, ?_, ?_⟩
  · rw [List.map_cons, List.map_append]
    exact hc₁.pushFront hnd₁ hb
  · refine unique_congr (fun j => ?_) hi.unique
    dsimp only
    rw [Function.update_apply]
    split_ifs with hj
    · exact hj ▸ ⟨rfl, rfl⟩
    · exact ⟨rfl, rfl⟩
  · -- the holder's pair leaves the list
    intro j
    have hcount := (List.perm_cons_erase hm).countP_eq (fun h => decide (h.2 = j))
    rw [List.countP_cons, hi.held j] at hcount
    simp only [Function.update_apply]
    by_cases hj : j = i
    · subst hj
      simp only [hbusy, if_true, decide_true] at hcount
      simp only [if_true, Bool.false_eq_true, if_false]
      omega
    · simp only [Ne.symm hj, decide_false, Bool.false_eq_true, if_false, Nat.add_zero] at hcount
      simp only [hj, if_false]
      exact hcount.symm

theorem next {s' : BioSys} {e : BioCall} (h : bioNext s e = some s') : BioInv s' := by
  rcases bioNext_cases hi.order h with ⟨p, i, hidle, rfl⟩ | ⟨p, i, dev, sector, hidle, hnone, rfl⟩ |
      ⟨i, bc', ⟨b, rfl, hbusy, hdev, hsec⟩, rfl⟩ | ⟨p, i, bc', hm, hrel, rfl⟩
  · exact hi.take p i hidle _ rfl (.inl ⟨rfl, rfl⟩)
  · exact hi.take p i hidle _ rfl (.inr hnone)
  · exact hi.setFlags i b hbusy hdev hsec
  · exact hi.release hm hrel

/-- Only `bget` gives a buffer another block, and only an idle one, with `B_VALID`
cleared. -/
theorem recycle {s' : BioSys} {e : BioCall} (h : bioNext s e = some s') (i : Fin NBUF)
    (hkey : (s'.bc.buf i).dev ≠ (s.bc.buf i).dev ∨ (s'.bc.buf i).sector ≠ (s.bc.buf i).sector) :
    (s.bc.buf i).busy = false ∧ (s'.bc.buf i).valid = false := by
  -- every step but the takeover keeps the block of every buffer
  have hkeep : ∀ (b : Buf) (j : Fin NBUF), b.dev = (s.bc.buf j).dev →
      b.sector = (s.bc.buf j).sector → (s.bc.setBuf j b).buf i = s.bc.buf i ∨
        ((s.bc.setBuf j b).buf i).dev = (s.bc.buf i).dev ∧
          ((s.bc.setBuf j b).buf i).sector = (s.bc.buf i).sector := fun b j hd hs => by
    simp only [Bcache.setBuf, Function.update_apply]
    split_ifs with hij
    · exact .inr (hij ▸ ⟨hd, hs⟩)
    · exact .inl rfl
  have hsame : ∀ b', (b'.dev = (s.bc.buf i).dev ∧ b'.sector = (s.bc.buf i).sector) ∨ b' = s.bc.buf i →
      b'.dev ≠ (s.bc.buf i).dev ∨ b'.sector ≠ (s.bc.buf i).sector → False := by
    rintro b' (⟨hd, hs⟩ | rfl) (hne | hne) <;> simp_all
  rcases bioNext_cases hi.order h with ⟨p, j, -, rfl⟩ | ⟨p, j, dev, sector, hidle, -, rfl⟩ |
      ⟨j, bc', ⟨b, rfl, -, hdev, hsec⟩, rfl⟩ | ⟨p, j, bc', hm, hrel, rfl⟩
  · exact (hsame _ ((hkeep { s.bc.buf j with busy := true } j rfl rfl).symm.imp id id) hkey).elim
  · by_cases hij : i = j
    · subst hij
      exact ⟨hidle, by simp [Bcache.setBuf]⟩
    · refine (hsame _ (.inr ?_) hkey).elim
      simp [Bcache.setBuf, hij]
  · exact (hsame _ ((hkeep b j hdev hsec).symm.imp id id) hkey).elim
  · simp only [brelse, hi.busy_of_mem hm, Bool.not_true, Bool.false_eq_true, if_false, pure,
      Except.pure, Except.ok.injEq] at hrel
    subst hrel
    refine (hsame _ (.inl ?_) hkey).elim
    simp only [Function.update_apply]
    split_ifs with hij
    · exact hij ▸ ⟨rfl, rfl⟩
    · exact ⟨rfl, rfl⟩

end BioInv

/-! ## `binit` -/

theorem foldl_binitStep_buf :
    ∀ (is : List (Fin NBUF)) (bc : Bcache) (j : Fin NBUF),
      (is.foldl binitStep bc).buf j = if j ∈ is then { bc.buf j with dev := -1 } else bc.buf j
  | [], _, _ => by simp
  | i :: is, bc, j => by
    rw [List.foldl_cons, foldl_binitStep_buf is (binitStep bc i) j]
    by_cases hj : j = i
    · subst hj
      simp [binitStep]
    · by_cases hjs : j ∈ is <;> simp [binitStep, hj, hjs]

/-- `binit`'s loop puts each buffer in turn at the front of the list. -/
theorem foldl_binitStep_cycle :
    ∀ (is : List (Fin NBUF)) (bc : Bcache) (l : List (Fin NBUF)),
      DList.Cycle bc.next bc.prev .head (l.map .buf) → (is.reverse ++ l).Nodup →
      DList.Cycle (is.foldl binitStep bc).next (is.foldl binitStep bc).prev .head
        ((is.reverse ++ l).map .buf)
  | [], _, _, hc, _ => by simpa using hc
  | i :: is, bc, l, hc, hnd => by
    rw [List.reverse_cons, List.append_assoc, List.singleton_append] at hnd ⊢
    have hnd' : (i :: l).Nodup := (List.nodup_append.mp hnd).2.1
    have hstep : DList.Cycle (binitStep bc i).next (binitStep bc i).prev .head ((i :: l).map .buf) := by
      refine hc.pushFront ?_ ?_
      · refine List.nodup_cons.mpr ⟨by simp, List.Nodup.map (fun _ _ h => BufRef.buf.inj h) ?_⟩
        exact (List.nodup_cons.mp hnd').2
      · simpa using (List.nodup_cons.mp hnd').1
    exact foldl_binitStep_cycle is (binitStep bc i) (i :: l) hstep hnd

theorem BioInv.init : BioInv ⟨binit, []⟩ where
  order := by
    refine ⟨(List.finRange NBUF).reverse, List.reverse_perm _, ?_⟩
    unfold binit
    -- the head alone is a circular list
    have h0 : DList.Cycle (Function.update Bcache.zero.next .head .head)
        (Function.update Bcache.zero.prev .head .head) .head (([] : List (Fin NBUF)).map .buf) :=
      List.isChain_cons_cons.mpr ⟨⟨rfl, rfl⟩, .singleton _⟩
    have h := foldl_binitStep_cycle (List.finRange NBUF) { Bcache.zero with
      next := Function.update Bcache.zero.next .head .head
      prev := Function.update Bcache.zero.prev .head .head } [] h0
      (by simpa using List.nodup_finRange NBUF)
    simpa using h
  unique := fun i _ _ _ _ => by
    rw [binit, foldl_binitStep_buf, if_pos (List.mem_finRange i)]
  held := fun i => by
    rw [binit, foldl_binitStep_buf, if_pos (List.mem_finRange i)]
    rfl

theorem BioInv.reachable {s : BioSys} (h : BioReachable s) : BioInv s :=
  Reach.Reachable.invariant (fun _ h0 => h0 ▸ BioInv.init) (fun _ _ _ hi hs => hi.next hs) h

theorem bcache_invariant {s : BioSys} (h : BioReachable s) :
    -- one circular list through the head and every buffer once
    (∃ o : List (Fin NBUF), o.Perm (List.finRange NBUF) ∧
      DList.Cycle s.bc.next s.bc.prev .head (o.map .buf)) ∧
    -- no block cached twice, the markers of `binit` apart
    (∀ i j, i ≠ j → (s.bc.buf i).dev = (s.bc.buf j).dev →
      (s.bc.buf i).sector = (s.bc.buf j).sector → (s.bc.buf i).dev = -1) ∧
    -- a buffer is `B_BUSY` exactly when one caller holds it
    (∀ i, s.holders.countP (fun h => h.2 = i) = if (s.bc.buf i).busy then 1 else 0) ∧
    -- a buffer gets another block only when idle, and is then not `B_VALID`
    (∀ e s', bioNext s e = some s' → ∀ i,
      ((s'.bc.buf i).dev ≠ (s.bc.buf i).dev ∨ (s'.bc.buf i).sector ≠ (s.bc.buf i).sector) →
      (s.bc.buf i).busy = false ∧ (s'.bc.buf i).valid = false) := by
  have hi := BioInv.reachable h
  exact ⟨hi.order, hi.unique, hi.held, fun _ _ hs i hk => hi.recycle hs i hk⟩

/-- Process 1 reads sector 5 into a buffer, process 2 gets another for sector 6, process 1
releases its buffer, and process 3 asks for sector 5 again. -/
def rereadRun : List BioCall :=
  [.bget 1 1 5, .fill 1 ⟨0, by decide⟩, .bget 2 1 6, .brelse 1 ⟨0, by decide⟩, .bget 3 1 5]

set_option maxRecDepth 4000 in
/-- After `rereadRun`, process 3 holds the buffer process 1 released, still `B_VALID`; the
list still holds every buffer once and each busy buffer has its one holder. -/
theorem bcache_invariant_reread : ∃ s, BioReachable s ∧
    s.holders = [(3, ⟨0, by decide⟩), (2, ⟨1, by decide⟩)] ∧
    (s.bc.buf ⟨0, by decide⟩).valid = true ∧
    (∃ o : List (Fin NBUF), o.Perm (List.finRange NBUF) ∧
      DList.Cycle s.bc.next s.bc.prev .head (o.map .buf)) ∧
    ∀ i, s.holders.countP (fun h => h.2 = i) = if (s.bc.buf i).busy then 1 else 0 := by
  have hrun : Reach.runEvents bioNext ⟨binit, []⟩ rereadRun =
      some ((Reach.runEvents bioNext ⟨binit, []⟩ rereadRun).getD ⟨binit, []⟩) := rfl
  have hreach : BioReachable _ := Reach.reachable_of_runEvents (.init rfl) hrun
  exact ⟨_, hreach, by decide, by decide, (bcache_invariant hreach).1,
    (bcache_invariant hreach).2.2.1⟩

end Xv6
