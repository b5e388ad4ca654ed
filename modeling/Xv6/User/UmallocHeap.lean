import Mathlib
import Xv6.Lib.FreeList
import Xv6.User.Umalloc

/-!
# The allocator's heap

What `umalloc.c` keeps of the memory `sbrk` gave it, read as the blocks of `FreeList`:
from slot `lo`, the break before the first `malloc`, to the break `sz / 8`, the memory is
cut into blocks, each starting with a header that holds its size. The free blocks are
linked in address order through the static `base`, a header of size `0` below the heap.
`freep` is one of the nodes of that list (`Heap`).

`free`'s search from `freep` stops only at the node below the block it returns
(`freeSearch_below`). From there `free` links the block in, and merges it with the free
block just above it and with the free block just below it when they touch it. `malloc`'s
loop walks the list from `freep`: it takes a free block whole, or the top of one, or
grows the heap with `morecore` and walks on. Each of these keeps `Heap`, and each
changes the blocks in use only by the block it hands out or takes back.
-/

namespace Xv6

namespace Umalloc

open FreeList

@[simp] theorem setSize_ptr (hdr : Nat → Header) (p q : Nat) (v : UInt32) :
    (setSize hdr p v q).ptr = (hdr q).ptr := by
  unfold setSize
  by_cases h : q = p
  · subst h
    simp
  · rw [Function.update_of_ne h]

theorem setSize_size_of_ne (hdr : Nat → Header) {p q : Nat} (v : UInt32) (h : q ≠ p) :
    (setSize hdr p v q).size = (hdr q).size := by
  rw [setSize, Function.update_of_ne h]

@[simp] theorem setPtr_ptr (hdr : Nat → Header) (p v : Nat) : (setPtr hdr p v p).ptr = v := by
  simp [setPtr]

theorem setPtr_ptr_of_ne (hdr : Nat → Header) {p q : Nat} (v : Nat) (h : q ≠ p) :
    (setPtr hdr p v q).ptr = (hdr q).ptr := by
  rw [setPtr, Function.update_of_ne h]

theorem setPtr_ptr_apply (hdr : Nat → Header) (p v q : Nat) :
    (setPtr hdr p v q).ptr = if q = p then v else (hdr q).ptr := by
  by_cases h : q = p
  · subst h
    rw [setPtr_ptr, if_pos rfl]
  · rw [if_neg h, setPtr_ptr_of_ne _ _ h]

theorem setSize_size_apply (hdr : Nat → Header) (p q : Nat) (v : UInt32) :
    (setSize hdr p v q).size = if q = p then v else (hdr q).size := by
  by_cases h : q = p
  · subst h
    rw [setSize_size, if_pos rfl]
  · rw [if_neg h, setSize_size_of_ne _ _ h]

/-- The allocator's memory from slot `lo` to the break, cut into blocks, each with its size
in its header; the free ones linked in address order through `base`, of size `0`; and
`freep` a node of that list. -/
structure Heap (base lo : Nat) (u : Umalloc) (B : List Blk) : Prop where
  cut : Cut lo (u.sz / 8) B
  aligned : u.sz % 8 = 0
  top : u.sz ≤ USERTOP
  apart : Apart B
  sizes : ∀ c ∈ B, (u.hdr c.addr).size.toNat = c.size
  links : ∀ x, Node base (frees B) x → Succ base (frees B) x (u.hdr x).ptr
  base_size : (u.hdr base).size = 0
  freep : Node base (frees B) u.freep

section Heap

variable {base lo : Nat} (hlo : base < lo) {u : Umalloc} {B : List Blk}
include hlo

theorem Heap.base_lt (hH : Heap base lo u B) : ∀ z ∈ frees B, base < z :=
  hH.cut.base_lt hlo

/-- The search `free` makes from a node stops only at the node below the block. -/
theorem freeSearch_below (hH : Heap base lo u B) {bp : Nat} (hbp : base < bp)
    (hbpS : bp ∉ frees B) : ∀ {fuel q p : Nat}, Node base (frees B) q →
      freeSearch u.hdr bp fuel q = some p → Below base (frees B) bp p
  | 0, _, _, _, h => by simp [freeSearch] at h
  | fuel + 1, q, p, hq, h => by
    have harc := arc_iff_below (hH.base_lt hlo) hbp hbpS hq (hH.links q hq)
    rw [freeSearch] at h
    by_cases h1 : bp > q ∧ bp < (u.hdr q).ptr
    · rw [if_pos h1] at h
      cases h
      exact harc.mp (.inl h1)
    · rw [if_neg h1] at h
      by_cases h2 : q ≥ (u.hdr q).ptr ∧ (bp > q ∨ bp < (u.hdr q).ptr)
      · rw [if_pos h2] at h
        cases h
        exact harc.mp (.inr h2)
      · rw [if_neg h2] at h
        exact freeSearch_below hH hbp hbpS ((hH.links q hq).node (hH.base_lt hlo)) h

omit hlo in
/-- Blocks lie below `USERTOP`, so sizes add up without wrapping. -/
theorem Heap.block_top (hH : Heap base lo u B) {c : Blk} (hc : c ∈ B) :
    c.addr + c.size ≤ USERTOP / 8 := by
  have := (hH.cut.bounds c hc).2.2
  have := hH.top
  omega

omit hlo in
theorem toNat_size_add {a b : UInt32} {m n : Nat} (ha : a.toNat = m) (hb : b.toNat = n)
    (h : m + n ≤ USERTOP / 8) : (a + b).toNat = m + n := by
  rw [UInt32.toNat_add, ha, hb]
  simp only [USERTOP] at h
  omega

/-! ### `free`, by the neighbours of the block -/

section Free

variable {l r : List Blk} {x s p : Nat} (hH : Heap base lo u (l ++ ⟨x, s, false⟩ :: r))
include hH

omit hlo in
theorem Heap.lo_le_block : lo ≤ x :=
  (hH.cut.bounds ⟨x, s, false⟩ (List.mem_append_right l List.mem_cons_self)).1

omit hlo in
theorem Heap.block_not_free : x ∉ frees (l ++ ⟨x, s, false⟩ :: r) := by
  rintro ⟨e, he, hf, hea⟩
  rw [hH.cut.eq_of_addr he (List.mem_append_right l List.mem_cons_self) hea] at hf
  exact Bool.false_ne_true hf

/-- The link out of the node below the block points at the block above when that one is
free. -/
theorem Heap.next_of_free (hp : Below base (frees (l ++ ⟨x, s, false⟩ :: r)) x p) {t : Nat}
    {r' : List Blk} (hr : r = ⟨x + s, t, true⟩ :: r') : (u.hdr p).ptr = x + s := by
  subst hr
  exact (Succ.unique (hH.base_lt hlo) (hH.links p hp.1) (hH.cut.succ_of_head rfl rfl hp))

/-- ... and elsewhere when it is not. -/
theorem Heap.next_of_used (hp : Below base (frees (l ++ ⟨x, s, false⟩ :: r)) x p)
    (hr : ∀ d ∈ r.head?, d.free = false) : x + s ≠ (u.hdr p).ptr := by
  intro hn
  rcases (hH.links p hp.1).node (hH.base_lt hlo) with hb | ⟨e, he, hef, hea⟩
  · have := hH.lo_le_block
    omega
  · have hd := hH.cut.head_of_addr he (by rw [hea, ← hn])
    exact absurd (hr e hd) (by rw [hef]; decide)

/-- The node below the block is the free block just before it, when there is one. -/
theorem Heap.below_of_free (hp : Below base (frees (l ++ ⟨x, s, false⟩ :: r)) x p)
    {l' : List Blk} {e : Blk} (hl : l = l' ++ [e]) (he : e.free = true) :
    p = e.addr ∧ (u.hdr p).size.toNat = e.size ∧ e.addr + e.size = x := by
  have hpe : p = e.addr :=
    Below.unique (hH.base_lt hlo) hp (hH.cut.below_of_last (by rw [hl, List.getLast?_concat]) he)
  have hmem : e ∈ l ++ ⟨x, s, false⟩ :: r := List.mem_append_left _ (by rw [hl]; simp)
  refine ⟨hpe, by rw [hpe]; exact hH.sizes e hmem, ?_⟩
  have hcut := hH.cut
  rw [hl, List.append_assoc, List.singleton_append] at hcut
  exact hcut.addr_next.symm

/-- ... and does not reach the block when there is none. -/
theorem Heap.below_of_used (hp : Below base (frees (l ++ ⟨x, s, false⟩ :: r)) x p)
    (hl : ∀ e ∈ l.getLast?, e.free = false) : p + (u.hdr p).size.toNat ≠ x := by
  intro hpx
  rcases hp.1 with rfl | ⟨e, he, hef, rfl⟩
  · rw [hH.base_size] at hpx
    have := hH.lo_le_block
    simp only [UInt32.toNat_zero] at hpx
    omega
  · rw [hH.sizes e he] at hpx
    exact absurd (hl e (hH.cut.last_of_top he hpx)) (by rw [hef]; decide)

/-- Neither neighbour is free: the block is linked in after `p`. -/
theorem Heap.free_none (hp : Below base (frees (l ++ ⟨x, s, false⟩ :: r)) x p) {u' : Umalloc}
    (hsz : u'.sz = u.sz) (hfp : u'.freep = p)
    (hptr : ∀ y, (u'.hdr y).ptr =
      if y = p then x else if y = x then (u.hdr p).ptr else (u.hdr y).ptr)
    (hsize : ∀ y, (u'.hdr y).size = (u.hdr y).size)
    (hl : ∀ e ∈ l.getLast?, e.free = false) (hr : ∀ d ∈ r.head?, d.free = false) :
    Heap base lo u' (l ++ ⟨x, s, true⟩ :: r) := by
  have hS := hH.base_lt hlo
  have hxlo := hH.lo_le_block
  have hpx : p ≠ x := Nat.ne_of_lt hp.2.1
  have hset : frees (l ++ ⟨x, s, true⟩ :: r) = insert x (frees (l ++ ⟨x, s, false⟩ :: r)) :=
    frees_mark_free
  obtain ⟨hpx', hxn, hother⟩ :=
    Succ.insert hS (by omega) hH.block_not_free hp (hH.links p hp.1)
  rw [← hset] at hpx' hxn hother
  refine ⟨hsz ▸ hH.cut.mark true, hsz ▸ hH.aligned, hsz ▸ hH.top, hH.apart.mark_free hl hr,
    fun c hc => ?_, fun y hy => ?_, by rw [hsize]; exact hH.base_size, ?_⟩
  · rw [hsize]
    rcases List.mem_append.mp hc with hc | hc
    · exact hH.sizes c (List.mem_append_left _ hc)
    · rcases List.mem_cons.mp hc with rfl | hc
      · exact hH.sizes ⟨x, s, false⟩ (List.mem_append_right l List.mem_cons_self)
      · exact hH.sizes c (List.mem_append_right _ (List.mem_cons_of_mem _ hc))
  · rw [hptr]
    rw [hset] at hy
    by_cases hyp : y = p
    · rw [if_pos hyp, hyp]
      exact hpx'
    · rw [if_neg hyp]
      by_cases hyx : y = x
      · rw [if_pos hyx, hyx]
        exact hxn
      · rw [if_neg hyx]
        have hy' := hy.of_insert hyx
        exact hother y _ hy' hyp (hH.links y hy')
  · rw [hfp, hset]
    rcases hp.1 with hpb | hpS
    · exact .inl hpb
    · exact .inr (Set.mem_insert_of_mem x hpS)

/-- The free block above touches it: the two merge, and the merged block takes the place
of the one above on the list. -/
theorem Heap.free_up {t : Nat} {r' : List Blk} (hr : r = ⟨x + s, t, true⟩ :: r')
    (hp : Below base (frees (l ++ ⟨x, s, false⟩ :: r)) x p) {u' : Umalloc}
    (hsz : u'.sz = u.sz) (hfp : u'.freep = p)
    (hptr : ∀ y, (u'.hdr y).ptr =
      if y = p then x else if y = x then (u.hdr (x + s)).ptr else (u.hdr y).ptr)
    (hsize : ∀ y, (u'.hdr y).size =
      if y = x then (u.hdr x).size + (u.hdr (x + s)).size else (u.hdr y).size)
    (hl : ∀ e ∈ l.getLast?, e.free = false) :
    Heap base lo u' (l ++ ⟨x, s + t, true⟩ :: r') := by
  subst hr
  have hS := hH.base_lt hlo
  have hxlo := hH.lo_le_block
  have hpx : p < x := hp.2.1
  have hmemx : (⟨x, s, false⟩ : Blk) ∈ l ++ ⟨x, s, false⟩ :: ⟨x + s, t, true⟩ :: r' :=
    List.mem_append_right l List.mem_cons_self
  have hmemn : (⟨x + s, t, true⟩ : Blk) ∈ l ++ ⟨x, s, false⟩ :: ⟨x + s, t, true⟩ :: r' :=
    List.mem_append_right l (List.mem_cons_of_mem _ List.mem_cons_self)
  have hn : x + s ∈ frees (l ++ ⟨x, s, false⟩ :: ⟨x + s, t, true⟩ :: r') := ⟨_, hmemn, rfl, rfl⟩
  have hs0 : 0 < s := hH.cut.mid.2.1
  -- link `x` in after `p`, then unlink the block above, now after `x`
  obtain ⟨hpx1, hxn1, hother1⟩ := Succ.insert hS (by omega) hH.block_not_free hp
    (hH.cut.succ_of_head rfl rfl hp)
  have hS1 : ∀ z ∈ insert x (frees (l ++ ⟨x, s, false⟩ :: ⟨x + s, t, true⟩ :: r')), base < z := by
    rintro z (rfl | hz)
    · omega
    · exact hS z hz
  have hnm1 := hother1 _ _ (.inr hn) (by omega) (hH.links _ (.inr hn))
  obtain ⟨hxm2, hother2⟩ := Succ.erase hS1 (.inr (Set.mem_insert x _))
    (Set.mem_insert_of_mem x hn) hxn1 hnm1
  have hmark : frees (l ++ ⟨x, s, true⟩ :: ⟨x + s, t, true⟩ :: r') =
      insert x (frees (l ++ ⟨x, s, false⟩ :: ⟨x + s, t, true⟩ :: r')) := frees_mark_free
  have hset : frees (l ++ ⟨x, s + t, true⟩ :: r') =
      insert x (frees (l ++ ⟨x, s, false⟩ :: ⟨x + s, t, true⟩ :: r')) \ {x + s} := by
    rw [(hH.cut.mark true).frees_merge, hmark]
  have hst : (u.hdr x).size.toNat + (u.hdr (x + s)).size.toNat = s + t := by
    rw [hH.sizes _ hmemx, hH.sizes _ hmemn]
  refine ⟨hsz ▸ (hH.cut.mark true).merge true, hsz ▸ hH.aligned, hsz ▸ hH.top,
    hH.apart.merge_up rfl hl, fun c hc => ?_, fun y hy => ?_, ?_, ?_⟩
  · rw [hsize]
    rcases List.mem_append.mp hc with hc | hc
    · have h1 : c.addr + c.size ≤ x := (hH.cut.mid.1.bounds c hc).2.2
      have h2 := (hH.cut.bounds c (List.mem_append_left _ hc)).2.1
      rw [if_neg (by omega)]
      exact hH.sizes c (List.mem_append_left _ hc)
    · rcases List.mem_cons.mp hc with rfl | hc
      · rw [if_pos rfl]
        exact toNat_size_add (hH.sizes _ hmemx) (hH.sizes _ hmemn)
          (by have : x + s + t ≤ USERTOP / 8 := hH.block_top hmemn; omega)
      · have hcr : c ∈ l ++ ⟨x, s, false⟩ :: ⟨x + s, t, true⟩ :: r' :=
          List.mem_append_right _ (List.mem_cons_of_mem _ (List.mem_cons_of_mem _ hc))
        have h1 : x + (s + t) ≤ c.addr := (((hH.cut.mark true).merge true).mid.2.2.bounds c hc).1
        rw [if_neg (by omega)]
        exact hH.sizes c hcr
  · rw [hptr, hset]
    rw [hset] at hy
    by_cases hyp : y = p
    · rw [if_pos hyp, hyp]
      have hpN : Node base (insert x (frees (l ++ ⟨x, s, false⟩ :: ⟨x + s, t, true⟩ :: r'))) p :=
        hp.1.elim .inl fun h => .inr (Set.mem_insert_of_mem x h)
      exact hother2 p x hpN (by omega) hpx1
    · rw [if_neg hyp]
      by_cases hyx : y = x
      · rw [if_pos hyx, hyx]
        exact hxm2
      · rw [if_neg hyx]
        have hy1 := hy.of_sdiff
        have hy0 := hy1.of_insert hyx
        exact hother2 y _ hy1 hyx (hother1 y _ hy0 hyp (hH.links y hy0))
  · rw [hsize, if_neg (by omega)]
    exact hH.base_size
  · rw [hfp, hset]
    rcases hp.1 with hpb | hpS
    · exact .inl hpb
    · exact .inr ⟨Set.mem_insert_of_mem x hpS, by
        show p ≠ x + s
        omega⟩

/-- The free block below touches it: it grows over the block, and the list keeps its
nodes. -/
theorem Heap.free_down {l' : List Blk} {t : Nat} (hl : l = l' ++ [⟨p, t, true⟩]) {u' : Umalloc}
    (hsz : u'.sz = u.sz) (hfp : u'.freep = p)
    (hptr : ∀ y, y ≠ x → (u'.hdr y).ptr = (u.hdr y).ptr)
    (hsize : ∀ y, y ≠ x → (u'.hdr y).size =
      if y = p then (u.hdr p).size + (u.hdr x).size else (u.hdr y).size)
    (hr : ∀ d ∈ r.head?, d.free = false) :
    Heap base lo u' (l' ++ ⟨p, t + s, true⟩ :: r) := by
  subst hl
  rw [List.append_assoc, List.singleton_append] at hH
  have hS := hH.base_lt hlo
  have hmemp : (⟨p, t, true⟩ : Blk) ∈ l' ++ ⟨p, t, true⟩ :: ⟨x, s, false⟩ :: r :=
    List.mem_append_right l' List.mem_cons_self
  have hmemx : (⟨x, s, false⟩ : Blk) ∈ l' ++ ⟨p, t, true⟩ :: ⟨x, s, false⟩ :: r :=
    List.mem_append_right l' (List.mem_cons_of_mem _ List.mem_cons_self)
  have hxp : x = p + t := hH.cut.addr_next
  have ht0 : 0 < t := hH.cut.mid.2.1
  have hs0 : 0 < s := (hH.cut.bounds _ hmemx).2.1
  have hxlo : lo ≤ x := (hH.cut.bounds _ hmemx).1
  have hpS : p ∈ frees (l' ++ ⟨p, t, true⟩ :: ⟨x, s, false⟩ :: r) := ⟨_, hmemp, rfl, rfl⟩
  have hxS : x ∉ frees (l' ++ ⟨p, t, true⟩ :: ⟨x, s, false⟩ :: r) := by
    rintro ⟨e, he, hf, hea⟩
    rw [hH.cut.eq_of_addr he hmemx hea] at hf
    exact Bool.false_ne_true hf
  have hset : frees (l' ++ ⟨p, t + s, true⟩ :: r) =
      frees (l' ++ ⟨p, t, true⟩ :: ⟨x, s, false⟩ :: r) := by
    rw [hH.cut.frees_merge, Set.sdiff_singleton_eq_self hxS]
  have hxnode : ∀ y, Node base (frees (l' ++ ⟨p, t, true⟩ :: ⟨x, s, false⟩ :: r)) y → y ≠ x := by
    rintro y (rfl | hy) rfl
    · omega
    · exact hxS hy
  refine ⟨hsz ▸ hH.cut.merge true, hsz ▸ hH.aligned, hsz ▸ hH.top,
    hH.apart.merge_down rfl hr, fun c hc => ?_, fun y hy => ?_, ?_, ?_⟩
  · rcases List.mem_append.mp hc with hc | hc
    · have h1 : c.addr + c.size ≤ p := (hH.cut.mid.1.bounds c hc).2.2
      have h2 := (hH.cut.bounds c (List.mem_append_left _ hc)).2.1
      rw [hsize _ (by omega), if_neg (by omega)]
      exact hH.sizes c (List.mem_append_left _ hc)
    · rcases List.mem_cons.mp hc with rfl | hc
      · rw [hsize _ (show p ≠ x by omega), if_pos rfl]
        exact toNat_size_add (hH.sizes _ hmemp) (hH.sizes _ hmemx)
          (by have : x + s ≤ USERTOP / 8 := hH.block_top hmemx; omega)
      · have h1 : p + (t + s) ≤ c.addr := ((hH.cut.merge true).mid.2.2.bounds c hc).1
        rw [hsize _ (by omega), if_neg (by omega)]
        exact hH.sizes c (List.mem_append_right _
          (List.mem_cons_of_mem _ (List.mem_cons_of_mem _ hc)))
  · rw [hset] at hy ⊢
    rw [hptr y (hxnode y hy)]
    exact hH.links y hy
  · rw [hsize _ (by omega), if_neg (Nat.ne_of_lt (hS p hpS))]
    exact hH.base_size
  · rw [hfp, hset]
    exact .inr hpS

/-- Both neighbours are free and touch it: the one below grows over the block and the one
above, which leaves the list. -/
theorem Heap.free_both {l' r' : List Blk} {t t' : Nat} (hl : l = l' ++ [⟨p, t, true⟩])
    (hr : r = ⟨x + s, t', true⟩ :: r') {u' : Umalloc} (hsz : u'.sz = u.sz) (hfp : u'.freep = p)
    (hptr : ∀ y, y ≠ x → (u'.hdr y).ptr =
      if y = p then (u.hdr (x + s)).ptr else (u.hdr y).ptr)
    (hsize : ∀ y, y ≠ x → (u'.hdr y).size =
      if y = p then (u.hdr p).size + ((u.hdr x).size + (u.hdr (x + s)).size)
      else (u.hdr y).size) :
    Heap base lo u' (l' ++ ⟨p, t + s + t', true⟩ :: r') := by
  subst hl hr
  have hcut0 := hH.cut
  rw [List.append_assoc, List.singleton_append] at hH
  have hS := hH.base_lt hlo
  have hmemp : (⟨p, t, true⟩ : Blk) ∈ l' ++ ⟨p, t, true⟩ :: ⟨x, s, false⟩ :: ⟨x + s, t', true⟩ :: r' :=
    List.mem_append_right l' List.mem_cons_self
  have hmemx : (⟨x, s, false⟩ : Blk) ∈
      l' ++ ⟨p, t, true⟩ :: ⟨x, s, false⟩ :: ⟨x + s, t', true⟩ :: r' :=
    List.mem_append_right l' (List.mem_cons_of_mem _ List.mem_cons_self)
  have hmemn : (⟨x + s, t', true⟩ : Blk) ∈
      l' ++ ⟨p, t, true⟩ :: ⟨x, s, false⟩ :: ⟨x + s, t', true⟩ :: r' :=
    List.mem_append_right l' (List.mem_cons_of_mem _ (List.mem_cons_of_mem _ List.mem_cons_self))
  have hxp : x = p + t := hH.cut.addr_next
  have ht0 : 0 < t := hH.cut.mid.2.1
  have hs0 : 0 < s := (hH.cut.bounds _ hmemx).2.1
  have hxlo : lo ≤ x := (hH.cut.bounds _ hmemx).1
  have hpS : p ∈ frees (l' ++ ⟨p, t, true⟩ :: ⟨x, s, false⟩ :: ⟨x + s, t', true⟩ :: r') :=
    ⟨_, hmemp, rfl, rfl⟩
  have hnS : x + s ∈ frees (l' ++ ⟨p, t, true⟩ :: ⟨x, s, false⟩ :: ⟨x + s, t', true⟩ :: r') :=
    ⟨_, hmemn, rfl, rfl⟩
  have hxS : x ∉ frees (l' ++ ⟨p, t, true⟩ :: ⟨x, s, false⟩ :: ⟨x + s, t', true⟩ :: r') := by
    rintro ⟨e, he, hf, hea⟩
    rw [hH.cut.eq_of_addr he hmemx hea] at hf
    exact Bool.false_ne_true hf
  -- `p` is the node below the block, and the block above follows it
  have hp : Below base (frees (l' ++ [⟨p, t, true⟩] ++ ⟨x, s, false⟩ :: ⟨x + s, t', true⟩ :: r'))
      x p := hcut0.below_of_last (List.getLast?_concat ..) rfl
  have hpn := hcut0.succ_of_head rfl rfl hp
  rw [List.append_assoc, List.singleton_append] at hp hpn
  obtain ⟨hpm, hother⟩ := Succ.erase hS (.inr hpS) hnS hpn (hH.links _ (.inr hnS))
  have hcut1 := hH.cut.merge true
  have hset : frees (l' ++ ⟨p, t + s + t', true⟩ :: r') =
      frees (l' ++ ⟨p, t, true⟩ :: ⟨x, s, false⟩ :: ⟨x + s, t', true⟩ :: r') \ {x + s} := by
    rw [hcut1.frees_merge, hH.cut.frees_merge, Set.sdiff_singleton_eq_self hxS]
  have hxnode : ∀ y, Node base (frees (l' ++ ⟨p, t, true⟩ :: ⟨x, s, false⟩ ::
      ⟨x + s, t', true⟩ :: r')) y → y ≠ x := by
    rintro y (rfl | hy) rfl
    · omega
    · exact hxS hy
  refine ⟨hsz ▸ hcut1.merge true, hsz ▸ hH.aligned, hsz ▸ hH.top,
    hH.apart.merge_both rfl rfl, fun c hc => ?_, fun y hy => ?_, ?_, ?_⟩
  · rcases List.mem_append.mp hc with hc | hc
    · have h1 : c.addr + c.size ≤ p := (hH.cut.mid.1.bounds c hc).2.2
      have h2 := (hH.cut.bounds c (List.mem_append_left _ hc)).2.1
      rw [hsize _ (by omega), if_neg (by omega)]
      exact hH.sizes c (List.mem_append_left _ hc)
    · rcases List.mem_cons.mp hc with rfl | hc
      · rw [hsize _ (show p ≠ x by omega), if_pos rfl]
        have htop : x + s + t' ≤ USERTOP / 8 := hH.block_top hmemn
        have hsp : (u.hdr p).size.toNat = t := hH.sizes _ hmemp
        have hsx : (u.hdr x).size.toNat = s := hH.sizes _ hmemx
        have hsn : (u.hdr (x + s)).size.toNat = t' := hH.sizes _ hmemn
        rw [toNat_size_add hsp (toNat_size_add hsx hsn (by omega)) (by omega)]
        dsimp only
        omega
      · have h1 : p + (t + s + t') ≤ c.addr := ((hcut1.merge true).mid.2.2.bounds c hc).1
        rw [hsize _ (by omega), if_neg (by omega)]
        exact hH.sizes c (List.mem_append_right _ (List.mem_cons_of_mem _
          (List.mem_cons_of_mem _ (List.mem_cons_of_mem _ hc))))
  · rw [hset] at hy ⊢
    have hy0 := hy.of_sdiff
    rw [hptr y (hxnode y hy0)]
    by_cases hyp : y = p
    · rw [if_pos hyp, hyp]
      exact hpm
    · rw [if_neg hyp]
      exact hother y _ hy0 hyp (hH.links y hy0)
  · rw [hsize _ (by omega), if_neg (Nat.ne_of_lt (hS p hpS))]
    exact hH.base_size
  · rw [hfp, hset]
    exact .inr ⟨hpS, by
      show p ≠ x + s
      omega⟩

/-- `free` of a block in use keeps the heap, whatever its neighbours: the blocks in use
after it are the others. -/
theorem Heap.of_free {fuel : Nat} {u' : Umalloc} (h : free u fuel (8 * (x + 1)) = some u') :
    ∃ B', Heap base lo u' B' ∧ used B' = used l ++ used r ∧ u'.sz = u.sz ∧
      u'.grows = u.grows := by
  have hsx : (u.hdr x).size.toNat = s := hH.sizes _ (List.mem_append_right l List.mem_cons_self)
  rw [free, show 8 * (x + 1) / 8 - 1 = x by omega] at h
  obtain ⟨p, hsearch, rfl⟩ := Option.map_eq_some_iff.mp h
  have hp := freeSearch_below hlo hH (by have := hH.lo_le_block; omega) hH.block_not_free
    hH.freep hsearch
  have hpx : p ≠ x := Nat.ne_of_lt hp.2.1
  -- `free`'s two tests: is the block above free and touching, is the block below
  rcases head_cases r with ⟨⟨dx, t', df⟩, r', hr, hd⟩ | hr <;>
    rcases last_cases l with ⟨l', ⟨ex, t, ef⟩, hl, he⟩ | hl
  · obtain ⟨rfl, hsp, hex⟩ := hH.below_of_free hlo hp hl he
    have hdx : dx = x + s := by
      have hcut := hH.cut
      rw [hr] at hcut
      exact hcut.addr_next
    subst hdx hd he
    dsimp only at hsp hex
    have hn := hH.next_of_free hlo hp hr
    refine ⟨_, hH.free_both hlo hl hr rfl rfl (fun y hy => ?_) (fun y hy => ?_), ?_, rfl, rfl⟩
    · simp only [hsx, hn, hsp, hex, setSize_ptr, setPtr_size, setSize_size_of_ne _ _ hpx,
        setPtr_ptr_apply, setSize_size_apply, if_true, if_neg hy]
    · simp only [hsx, hn, hsp, hex, setSize_ptr, setPtr_size, setSize_size_of_ne _ _ hpx,
        setPtr_ptr_apply, setSize_size_apply, if_true, if_neg hy]
    · simp [used, hl, hr]
  · have hdx : dx = x + s := by
      have hcut := hH.cut
      rw [hr] at hcut
      exact hcut.addr_next
    subst hdx hd
    have hn := hH.next_of_free hlo hp hr
    have hc2 := hH.below_of_used hlo hp hl
    refine ⟨_, hH.free_up hlo hr hp rfl rfl (fun y => ?_) (fun y => ?_) hl, ?_, rfl, rfl⟩
    · simp only [hsx, hn, setSize_ptr, setPtr_size, setSize_size_of_ne _ _ hpx, if_neg hc2,
        setPtr_ptr_apply, if_true]
    · simp only [hsx, hn, setPtr_size, setSize_size_of_ne _ _ hpx, if_neg hc2,
        setSize_size_apply, if_true]
    · simp [used, hr]
  · obtain ⟨rfl, hsp, hex⟩ := hH.below_of_free hlo hp hl he
    subst he
    dsimp only at hsp hex
    have hc1 := hH.next_of_used hlo hp hr
    refine ⟨_, hH.free_down hlo hl rfl rfl (fun y hy => ?_) (fun y hy => ?_) hr, ?_, rfl, rfl⟩
    · simp only [hsx, if_neg hc1, hsp, hex, setPtr_size, setSize_ptr, setPtr_ptr_apply,
        if_true, if_neg hy]
      split_ifs with hyp
      · rw [hyp]
      · rfl
    · simp only [hsx, if_neg hc1, hsp, hex, setPtr_size, setSize_size_apply, if_true]
    · simp [used, hl]
  · have hc1 := hH.next_of_used hlo hp hr
    have hc2 := hH.below_of_used hlo hp hl
    refine ⟨_, hH.free_none hlo hp rfl rfl (fun y => ?_) (fun y => ?_) hl hr, ?_, rfl, rfl⟩
    · simp only [hsx, if_neg hc1, setPtr_size, if_neg hc2, setPtr_ptr_apply]
    · simp only [hsx, if_neg hc1, setPtr_size, if_neg hc2]
    · simp [used]

end Free

/-! ### `morecore` -/

omit hlo in
theorem sbrk_up_eq {m : UInt32} (hm0 : 0 < m.toNat) (hm : m.toNat < 2 ^ 31)
    (hsz : u.sz ≤ USERTOP) :
    sbrk u m.toInt32 =
      if USERTOP < u.sz + m.toNat then ((-1 : Int), u)
      else if u.sz + m.toNat < u.sz then ((u.sz : Int), u)
      else match u.grows with
        | true :: rest => ((u.sz : Int), { u with sz := u.sz + m.toNat, grows := rest })
        | _ => ((-1 : Int), { u with grows := u.grows.drop 1 }) := by
  have hpos : 0 < m.toInt32 := by
    rw [Int32.lt_iff_toInt_lt, Word32.toInt_toInt32 m hm]
    show (0 : Int) < m.toNat
    exact_mod_cast hm0
  have hnew : (u.sz.toUInt32 + m.toInt32.toUInt32).toNat = u.sz + m.toNat := by
    simp only [USERTOP] at hsz
    rw [UInt32.toUInt32_toInt32, UInt32.toNat_add, Word32.toNat_toUInt32_of_lt (by omega)]
    omega
  -- `sbrk`'s matcher on `u.grows` and this statement's are reduced case by case
  rcases hg : u.grows with _ | ⟨_ | _, rest⟩ <;> simp only [sbrk, hnew, if_pos hpos, hg]

omit hlo in
/-- Past `USERTOP`, `sbrk` fails and changes nothing. -/
theorem sbrk_up_fail {m : UInt32} (hm0 : 0 < m.toNat) (hm : m.toNat < 2 ^ 31)
    (hsz : u.sz ≤ USERTOP) (htop : USERTOP < u.sz + m.toNat) : sbrk u m.toInt32 = ((-1 : Int), u) := by
  rw [sbrk_up_eq hm0 hm hsz, if_pos htop]

omit hlo in
/-- Below it, `sbrk` moves the break when the kernel finds the pages. -/
theorem sbrk_up {m : UInt32} (hm0 : 0 < m.toNat) (hm : m.toNat < 2 ^ 31)
    (hsz : u.sz ≤ USERTOP) (htop : u.sz + m.toNat ≤ USERTOP) :
    sbrk u m.toInt32 = match u.grows with
      | true :: rest => ((u.sz : Int), { u with sz := u.sz + m.toNat, grows := rest })
      | _ => ((-1 : Int), { u with grows := u.grows.drop 1 }) := by
  rw [sbrk_up_eq hm0 hm hsz, if_neg (Nat.not_lt.mpr htop), if_neg (by omega)]

omit hlo in
/-- `sbrk`'s outcomes for the calls to come are not part of the heap. -/
theorem Heap.with_grows (hH : Heap base lo u B) (g : List Bool) :
    Heap base lo { u with grows := g } B :=
  ⟨hH.cut, hH.aligned, hH.top, hH.apart, hH.sizes, hH.links, hH.base_size, hH.freep⟩

/-- Memory added at the break, as one block in use. -/
theorem Heap.grow (hH : Heap base lo u B) {v : UInt32} (hv : 0 < v.toNat) {u' : Umalloc}
    (hsz : u'.sz = u.sz + 8 * v.toNat) (htop : u'.sz ≤ USERTOP) (hfp : u'.freep = u.freep)
    (hptr : ∀ y, (u'.hdr y).ptr = (u.hdr y).ptr)
    (hsize : ∀ y, (u'.hdr y).size = if y = u.sz / 8 then v else (u.hdr y).size) :
    Heap base lo u' (B ++ [⟨u.sz / 8, v.toNat, false⟩]) := by
  have hal := hH.aligned
  have hlo' : lo ≤ u.sz / 8 := hH.cut.le
  refine ⟨?_, by omega, htop, hH.apart.snoc_used, fun c hc => ?_, fun y hy => ?_, ?_, ?_⟩
  · rw [hsz, show (u.sz + 8 * v.toNat) / 8 = u.sz / 8 + v.toNat by omega]
    exact hH.cut.snoc false hv
  · rw [hsize]
    rcases List.mem_append.mp hc with hc | hc
    · have := (hH.cut.bounds c hc).2
      rw [if_neg (by omega)]
      exact hH.sizes c hc
    · rw [List.mem_singleton.mp hc, if_pos rfl]
  · rw [frees_snoc_used] at hy ⊢
    rw [hptr]
    exact hH.links y hy
  · rw [hsize, if_neg (by omega)]
    exact hH.base_size
  · rw [frees_snoc_used, hfp]
    exact hH.freep

/-- `morecore(nu)` for fewer than `2^28` headers: it gives back `0`, or `freep` with the new
memory freed onto the list; either way the heap is kept, and the blocks in use are the
same. -/
theorem Heap.of_morecore (hH : Heap base lo u B) {fuel : Nat} {nu : UInt32}
    (hnu : nu.toNat < 2 ^ 28) {q : Nat} {u' : Umalloc} (h : morecore u fuel nu = some (q, u')) :
    ∃ B', Heap base lo u' B' ∧ used B' = used B ∧ (q = 0 ∨ q = u'.freep) := by
  unfold morecore at h
  dsimp only at h
  -- at least 4096 headers, and their bytes fit a positive `int`
  generalize hv : (if nu < 4096 then 4096 else nu) = v at h
  have hv0 : 4096 ≤ v.toNat ∧ v.toNat < 2 ^ 28 := by
    rw [← hv]
    split_ifs with hlt
    · exact ⟨le_rfl, by decide⟩
    · exact ⟨Nat.not_lt.mp (fun h' => hlt (UInt32.lt_iff_toNat_lt.mpr h')), hnu⟩
  have hm : (v * HEADER_SIZE).toNat = 8 * v.toNat := by
    rw [UInt32.toNat_mul]
    show v.toNat * 8 % 2 ^ 32 = _
    omega
  have hm0 : 0 < (v * HEADER_SIZE).toNat := by omega
  have hm31 : (v * HEADER_SIZE).toNat < 2 ^ 31 := by omega
  by_cases htop : USERTOP < u.sz + (v * HEADER_SIZE).toNat
  · simp only [sbrk_up_fail hm0 hm31 hH.top htop, if_true, Option.some.injEq, Prod.mk.injEq] at h
    obtain ⟨rfl, rfl⟩ := h
    exact ⟨B, hH, rfl, .inl rfl⟩
  rw [sbrk_up hm0 hm31 hH.top (Nat.le_of_not_lt htop)] at h
  rcases hg : u.grows with _ | ⟨_ | _, rest⟩
  all_goals simp only [hg] at h
  · simp only [if_true, Option.some.injEq, Prod.mk.injEq] at h
    obtain ⟨rfl, rfl⟩ := h
    exact ⟨B, hH.with_grows _, rfl, .inl rfl⟩
  · simp only [if_true, Option.some.injEq, Prod.mk.injEq] at h
    obtain ⟨rfl, rfl⟩ := h
    exact ⟨B, hH.with_grows _, rfl, .inl rfl⟩
  · -- the new memory, as a block in use at the old break, then freed
    have hne : ((u.sz : Int) = -1) = False := by simp only [eq_iff_iff, iff_false]; omega
    simp only [hne, if_false, Int.toNat_natCast] at h
    obtain ⟨u2, hfree, heq⟩ := Option.map_eq_some_iff.mp h
    obtain ⟨rfl, rfl⟩ := Prod.mk.inj heq
    have hG : Heap base lo
        { u with sz := u.sz + (v * HEADER_SIZE).toNat, grows := rest,
                 hdr := setSize u.hdr (u.sz / 8) v } (B ++ [⟨u.sz / 8, v.toNat, false⟩]) :=
      hH.grow hlo (show 0 < v.toNat by omega) (by rw [hm])
        (show u.sz + (v * HEADER_SIZE).toNat ≤ USERTOP by omega) rfl
        (fun y => setSize_ptr _ _ _ _) (fun y => setSize_size_apply _ _ _ _)
    obtain ⟨B', hH', hused, -, -⟩ := hG.of_free hlo hfree
    refine ⟨B', hH', ?_, .inr rfl⟩
    rw [hused]
    simp [used]

/-! ### `malloc`'s loop -/

section Take

variable {l r : List Blk} {p sp prevp : Nat} (hH : Heap base lo u (l ++ ⟨p, sp, true⟩ :: r))
  (hprev : Node base (frees (l ++ ⟨p, sp, true⟩ :: r)) prevp) (hpp : (u.hdr prevp).ptr = p)
include hH hprev hpp

/-- An exact fit: the block leaves the list, the node before it now leads past it. -/
theorem Heap.take {u' : Umalloc} (hsz : u'.sz = u.sz) (hfp : u'.freep = prevp)
    (hptr : ∀ y, (u'.hdr y).ptr = if y = prevp then (u.hdr p).ptr else (u.hdr y).ptr)
    (hsize : ∀ y, (u'.hdr y).size = (u.hdr y).size) :
    Heap base lo u' (l ++ ⟨p, sp, false⟩ :: r) := by
  have hS := hH.base_lt hlo
  have hpS : p ∈ frees (l ++ ⟨p, sp, true⟩ :: r) :=
    ⟨_, List.mem_append_right l List.mem_cons_self, rfl, rfl⟩
  have hpn : Succ base (frees (l ++ ⟨p, sp, true⟩ :: r)) prevp p := hpp ▸ hH.links prevp hprev
  obtain ⟨hprevm, hother⟩ := Succ.erase hS hprev hpS hpn (hH.links p (.inr hpS))
  have hset := hH.cut.frees_mark_used
  have hprevp : prevp ≠ p := by
    rcases hpn with ⟨-, hlt, -⟩ | ⟨hb, -⟩
    · exact Nat.ne_of_lt hlt
    · rintro rfl
      exact absurd (hS _ hpS) (by rw [← hb]; exact Nat.lt_irrefl _)
  refine ⟨hsz ▸ hH.cut.mark false, hsz ▸ hH.aligned, hsz ▸ hH.top, hH.apart.mark_used,
    fun c hc => ?_, fun y hy => ?_, by rw [hsize]; exact hH.base_size, ?_⟩
  · rw [hsize]
    rcases List.mem_append.mp hc with hc | hc
    · exact hH.sizes c (List.mem_append_left _ hc)
    · rcases List.mem_cons.mp hc with rfl | hc
      · exact hH.sizes ⟨p, sp, true⟩ (List.mem_append_right l List.mem_cons_self)
      · exact hH.sizes c (List.mem_append_right _ (List.mem_cons_of_mem _ hc))
  · rw [hset] at hy ⊢
    rw [hptr]
    by_cases hyp : y = prevp
    · rw [if_pos hyp, hyp]
      exact hprevm
    · rw [if_neg hyp]
      exact hother y _ hy.of_sdiff hyp (hH.links y hy.of_sdiff)
  · rw [hfp, hset]
    exact hprev.sdiff hprevp

omit hpp in
/-- A larger block: its top `n` headers are cut off as a block in use, and the rest stays
on the list as it was. -/
theorem Heap.split {n : Nat} (hn0 : 0 < n) (hn : n < sp) {u' : Umalloc} (hsz : u'.sz = u.sz)
    (hfp : u'.freep = prevp) (hptr : ∀ y, (u'.hdr y).ptr = (u.hdr y).ptr)
    (hsize : ∀ y, (u'.hdr y).size.toNat =
      if y = p + (sp - n) then n else if y = p then sp - n else (u.hdr y).size.toNat) :
    Heap base lo u' (l ++ ⟨p, sp - n, true⟩ :: ⟨p + (sp - n), n, false⟩ :: r) := by
  have hset : frees (l ++ ⟨p, sp - n, true⟩ :: ⟨p + (sp - n), n, false⟩ :: r) =
      frees (l ++ ⟨p, sp, true⟩ :: r) := frees_split
  refine ⟨hsz ▸ hH.cut.split false hn0 hn, hsz ▸ hH.aligned, hsz ▸ hH.top, hH.apart.split,
    fun c hc => ?_, fun y hy => ?_, ?_, ?_⟩
  · rw [hsize]
    rcases List.mem_append.mp hc with hc | hc
    · have h1 : c.addr + c.size ≤ p := (hH.cut.mid.1.bounds c hc).2.2
      have h2 := (hH.cut.bounds c (List.mem_append_left _ hc)).2.1
      rw [if_neg (by omega), if_neg (by omega)]
      exact hH.sizes c (List.mem_append_left _ hc)
    · rcases List.mem_cons.mp hc with rfl | hc
      · rw [if_neg (by dsimp only; omega), if_pos rfl]
      · rcases List.mem_cons.mp hc with rfl | hc
        · rw [if_pos rfl]
        · have h1 : p + sp ≤ c.addr := (hH.cut.mid.2.2.bounds c hc).1
          rw [if_neg (by omega), if_neg (by omega)]
          exact hH.sizes c (List.mem_append_right _ (List.mem_cons_of_mem _ hc))
  · rw [hset] at hy ⊢
    rw [hptr]
    exact hH.links y hy
  · have hlo' : lo ≤ p := (hH.cut.bounds _ (List.mem_append_right l List.mem_cons_self)).1
    have h0 := hsize base
    rw [if_neg (by omega), if_neg (by omega), hH.base_size] at h0
    exact UInt32.toNat_inj.mp h0
  · rw [hfp, hset]
    exact hprev

end Take

/-- `malloc`'s loop from a node and the node after it, for a request of fewer than `2^28`
headers: it hands out nothing, or the address after the header of a new block in use of
`nunits` headers; the heap is kept. -/
theorem Heap.of_mallocLoop {nunits : UInt32} (hn0 : 0 < nunits.toNat)
    (hn : nunits.toNat < 2 ^ 28) : ∀ {fuel : Nat} {u u' : Umalloc} {B : List Blk} {prevp r : Nat},
    Heap base lo u B → Node base (frees B) prevp →
    mallocLoop nunits fuel u prevp (u.hdr prevp).ptr = some (r, u') →
    ∃ B', Heap base lo u' B' ∧ ((r = 0 ∧ used B' = used B) ∨
      ∃ a, r = 8 * (a + 1) ∧ (used B').Perm (⟨a, nunits.toNat, false⟩ :: used B))
  | 0, _, _, _, _, _, _, _, h => by simp [mallocLoop] at h
  | fuel + 1, u, u', B, prevp, r, hH, hprev, h => by
    have hS := hH.base_lt hlo
    have hpN := (hH.links prevp hprev).node hS
    rw [mallocLoop] at h
    by_cases hge : (u.hdr (u.hdr prevp).ptr).size ≥ nunits
    · rw [if_pos hge] at h
      -- the sentinel has size `0`: the block found is a free one
      have hpS : (u.hdr prevp).ptr ∈ frees B := by
        rcases hpN with hb | hpS
        · rw [hb, hH.base_size] at hge
          exact absurd (UInt32.le_iff_toNat_le.mp hge) (by simp only [UInt32.toNat_zero]; omega)
        · exact hpS
      obtain ⟨l, sp, r', rfl⟩ := block_of_mem_frees hpS
      have hsp : (u.hdr (u.hdr prevp).ptr).size.toNat = sp :=
        hH.sizes _ (List.mem_append_right l List.mem_cons_self)
      have hge' : nunits.toNat ≤ sp := by rw [← hsp]; exact UInt32.le_iff_toNat_le.mp hge
      by_cases heq : (u.hdr (u.hdr prevp).ptr).size = nunits
      · rw [if_pos heq, Option.some.injEq, Prod.mk.injEq] at h
        obtain ⟨rfl, rfl⟩ := h
        have hspn : sp = nunits.toNat := by rw [← hsp, heq]
        refine ⟨_, hH.take hlo hprev rfl rfl rfl (fun y => setPtr_ptr_apply _ _ _ _)
          (fun y => setPtr_size _ _ _ _), .inr ⟨_, rfl, ?_⟩⟩
        rw [used_mid, used_mid, hspn]
        simp only [Bool.false_eq_true, if_false, if_true, List.append_nil, List.append_assoc,
          List.singleton_append]
        exact List.perm_middle
      · rw [if_neg heq, Option.some.injEq, Prod.mk.injEq] at h
        obtain ⟨rfl, rfl⟩ := h
        have hlt : nunits.toNat < sp := by
          rcases Nat.lt_or_eq_of_le hge' with hlt | heq'
          · exact hlt
          · exact absurd (UInt32.toNat_inj.mp (hsp.trans heq'.symm)) heq
        have hsub : ((u.hdr (u.hdr prevp).ptr).size - nunits).toNat = sp - nunits.toNat := by
          rw [UInt32.toNat_sub_of_le _ _ hge, hsp]
        refine ⟨_, hH.split hlo hprev hn0 hlt rfl rfl (fun y => ?_) (fun y => ?_),
          .inr ⟨(u.hdr prevp).ptr + (sp - nunits.toNat), ?_, ?_⟩⟩
        · simp only [setSize_ptr]
        · rw [setSize_size, hsub, setSize_size_apply, setSize_size_apply]
          by_cases h1 : y = (u.hdr prevp).ptr + (sp - nunits.toNat)
          · rw [if_pos h1, if_pos h1]
          · rw [if_neg h1, if_neg h1]
            by_cases h2 : y = (u.hdr prevp).ptr
            · rw [if_pos h2, if_pos h2, hsub]
            · rw [if_neg h2, if_neg h2]
        · rw [setSize_size, hsub]
        · rw [used_mid, used_mid]
          simp only [if_true, List.append_nil, used, List.filter_cons, Bool.not_false]
          exact List.perm_middle
    · rw [if_neg hge] at h
      by_cases hfp : (u.hdr prevp).ptr = u.freep
      · -- back at `freep`: more memory, then on from `freep`
        rw [if_pos hfp] at h
        rcases hm : morecore u fuel nunits with _ | ⟨q, u1⟩
        · rw [hm] at h
          cases h
        · rw [hm] at h
          obtain ⟨B1, hH1, hused1, hq⟩ := hH.of_morecore hlo hn hm
          by_cases hq0 : q = 0
          · subst hq0
            simp only [Option.some.injEq, Prod.mk.injEq] at h
            obtain ⟨rfl, rfl⟩ := h
            exact ⟨B1, hH1, .inl ⟨rfl, hused1⟩⟩
          · have hq1 : q = u1.freep := hq.resolve_left hq0
            simp only at h
            obtain ⟨B', hH', hres⟩ :=
              Heap.of_mallocLoop hn0 hn hH1 (hq1 ▸ hH1.freep) h
            exact ⟨B', hH', by rwa [hused1] at hres⟩
      · rw [if_neg hfp] at h
        exact Heap.of_mallocLoop hn0 hn hH hpN h

/-! ### `malloc` -/

omit hlo in
/-- Below `2^32 - 7`, `nunits` is the header and the headers the bytes round up to. -/
theorem toNat_nunitsOf {nbytes : UInt32} (h : nbytes.toNat < 2 ^ 32 - 7) :
    (nunitsOf nbytes).toNat = (nbytes.toNat + 7) / 8 + 1 := by
  have h8 : HEADER_SIZE.toNat = 8 := rfl
  have h1 : (1 : UInt32).toNat = 1 := rfl
  rw [nunitsOf, UInt32.toNat_add, UInt32.toNat_div, UInt32.toNat_sub, UInt32.toNat_add, h8, h1]
  omega

omit hlo in
/-- `malloc`'s first call links `base` to itself, of size `0`: no block yet from `lo` to
the break. -/
theorem Heap.init (hsz : u.sz = 8 * lo) (htop : 8 * lo ≤ USERTOP) (hfp : u.freep = base)
    (hptr : (u.hdr base).ptr = base) (hsize : (u.hdr base).size = 0) : Heap base lo u [] := by
  refine ⟨?_, by omega, by omega, List.IsChain.nil, fun c hc => absurd hc List.not_mem_nil,
    fun x hx => ?_, hsize, .inl hfp⟩
  · rw [hsz, Nat.mul_div_cancel_left _ (by decide)]
    exact .nil lo
  · rcases hx with rfl | hx
    · rw [hptr]
      exact .inr ⟨rfl, fun z hz => absurd hz mem_frees_nil⟩
    · exact absurd hx mem_frees_nil

/-- `malloc(nbytes)` on a heap, for fewer than `2^31 - 15` bytes, so that the headers it
may ask `morecore` for fit a positive `int`: the heap is kept, and one block of `nunits`
headers more is in use, or `0` is returned and none. -/
theorem Heap.of_malloc (hbase : 0 < base) (hH : Heap base lo u B) {fuel : Nat}
    {nbytes : UInt32} (hnb : nbytes.toNat < 2 ^ 31 - 15) {r : Nat} {u' : Umalloc}
    (h : malloc base fuel u nbytes = some (r, u')) :
    ∃ B', Heap base lo u' B' ∧ ((r = 0 ∧ used B' = used B) ∨
      ∃ a, r = 8 * (a + 1) ∧ (used B').Perm (⟨a, (nunitsOf nbytes).toNat, false⟩ :: used B)) := by
  -- `freep` is a node, at `base` or above: the list is not set up again
  have hfp : u.freep ≠ 0 := by
    have := hH.freep.base_le (hH.base_lt hlo)
    omega
  have hn := toNat_nunitsOf (show nbytes.toNat < 2 ^ 32 - 7 by omega)
  rw [malloc, if_neg hfp] at h
  exact Heap.of_mallocLoop hlo (by omega) (by omega) hH hH.freep h

/-- The first `malloc(nbytes)`, with `freep` still `0` and the break at `lo`: the list is
set up through `base`, and one block of `nunits` headers is in use, or `0` is returned
and none. -/
theorem Heap.of_malloc_first (hsz : u.sz = 8 * lo) (htop : 8 * lo ≤ USERTOP) (hfp : u.freep = 0)
    {fuel : Nat} {nbytes : UInt32} (hnb : nbytes.toNat < 2 ^ 31 - 15) {r : Nat} {u' : Umalloc}
    (h : malloc base fuel u nbytes = some (r, u')) :
    ∃ B', Heap base lo u' B' ∧ ((r = 0 ∧ used B' = []) ∨
      ∃ a, r = 8 * (a + 1) ∧ (used B').Perm [⟨a, (nunitsOf nbytes).toNat, false⟩]) := by
  have hn := toNat_nunitsOf (show nbytes.toNat < 2 ^ 32 - 7 by omega)
  rw [malloc, if_pos hfp] at h
  have h0 : Heap base lo
      { u with hdr := setSize (setPtr u.hdr base base) base 0, freep := base } [] :=
    Heap.init hsz htop rfl (by simp) (setSize_size _ _ _)
  exact Heap.of_mallocLoop hlo (by omega) (by omega) h0 (.inl rfl) h

omit hlo in
/-- The heap reads the headers only at `base` and at the blocks. -/
theorem Heap.frame (hH : Heap base lo u B) {u' : Umalloc} (hsz : u'.sz = u.sz)
    (hfp : u'.freep = u.freep) (hhdr : ∀ y, (y = base ∨ ∃ c ∈ B, c.addr = y) → u'.hdr y = u.hdr y) :
    Heap base lo u' B := by
  refine ⟨hsz ▸ hH.cut, hsz ▸ hH.aligned, hsz ▸ hH.top, hH.apart, fun c hc => ?_,
    fun x hx => ?_, ?_, hfp ▸ hH.freep⟩
  · rw [hhdr _ (.inr ⟨c, hc, rfl⟩)]
    exact hH.sizes c hc
  · have hxb : x = base ∨ ∃ c ∈ B, c.addr = x := by
      rcases hx with hx | ⟨c, hc, -, hcx⟩
      · exact .inl hx
      · exact .inr ⟨c, hc, hcx⟩
    rw [hhdr x hxb]
    exact hH.links x hx
  · rw [hhdr base (.inl rfl)]
    exact hH.base_size

end Heap

end Umalloc

end Xv6
