import Mathlib

/-!
# Circular free lists over a cut heap

A first-fit allocator in the manner of Kernighan and Ritchie keeps its free blocks on a
circular list in address order, with a sentinel `base` below every block. Over the set
`S` of the free blocks' addresses:

- `Succ base S x y`: the link out of node `x` points at `y`, the next member of `S`
  above `x`, or `base` from the top one;
- `Below base S v x`: `x` is the last node below `v`, the one a block at `v` is linked
  after;
- `Arc x y v`: the test the insertion search makes at node `x` with successor `y`. It
  holds exactly at the node below `v` (`arc_iff_below`).

Linking a node in (`Succ.insert`) and unlinking one (`Succ.erase`) change the links of
their neighbours only.

The heap is a list of blocks cut from `[a, b)` in address order (`Cut`), each free or in
use. `frees` are the addresses of the free ones. Splitting a block, marking it, merging
it with the next, and adding one at the top all keep the cut. In a cut, the node below
a block is the free block just before it, if there is one (`below_of_last`). The next
node is the free block just after it, if there is one (`succ_of_head`).
-/

namespace FreeList

/-! ## The circular order -/

section Cycle

variable {base : Nat} {S : Set Nat}

/-- A node of the list: the sentinel or a member of `S`. -/
def Node (base : Nat) (S : Set Nat) (x : Nat) : Prop := x = base ∨ x ∈ S

/-- On the circular list through `base` and `S` in address order, `y` follows `x`. -/
def Succ (base : Nat) (S : Set Nat) (x y : Nat) : Prop :=
  (y ∈ S ∧ x < y ∧ ∀ z ∈ S, x < z → y ≤ z) ∨ (y = base ∧ ∀ z ∈ S, z ≤ x)

/-- `x` is the last node below `v`. -/
def Below (base : Nat) (S : Set Nat) (v x : Nat) : Prop :=
  Node base S x ∧ x < v ∧ ∀ z ∈ S, z < v → z ≤ x

/-- The search's test at `x`, whose successor is `y`: `v` lies between them, or `x` is
the top of the list and `v` lies above it or below the bottom. -/
def Arc (x y v : Nat) : Prop := (x < v ∧ v < y) ∨ (y ≤ x ∧ (x < v ∨ v < y))

instance (x y v : Nat) : Decidable (Arc x y v) := inferInstanceAs (Decidable (_ ∨ _))

theorem Node.of_insert {v x : Nat} (hx : Node base (insert v S) x) (hxv : x ≠ v) :
    Node base S x := by
  rcases hx with rfl | rfl | hx
  · exact .inl rfl
  · exact absurd rfl hxv
  · exact .inr hx

theorem Node.of_sdiff {n x : Nat} (hx : Node base (S \ {n}) x) : Node base S x := by
  rcases hx with rfl | hx
  · exact .inl rfl
  · exact .inr hx.1

theorem Node.sdiff {n x : Nat} (hx : Node base S x) (hxn : x ≠ n) : Node base (S \ {n}) x := by
  rcases hx with rfl | hx
  · exact .inl rfl
  · exact .inr ⟨hx, hxn⟩

variable (hS : ∀ z ∈ S, base < z)
include hS

theorem Node.base_le {x : Nat} (hx : Node base S x) : base ≤ x := by
  rcases hx with rfl | hx
  · exact le_rfl
  · exact (hS x hx).le

theorem Succ.node {x y : Nat} (h : Succ base S x y) : Node base S y := by
  rcases h with ⟨hy, -⟩ | ⟨rfl, -⟩
  · exact .inr hy
  · exact .inl rfl

theorem Succ.unique {x y y' : Nat} (h : Succ base S x y) (h' : Succ base S x y') : y = y' := by
  rcases h with ⟨hy, hxy, hmin⟩ | ⟨rfl, hmax⟩ <;> rcases h' with ⟨hy', hxy', hmin'⟩ | ⟨rfl, hmax'⟩
  · exact le_antisymm (hmin y' hy' hxy') (hmin' y hy hxy)
  · exact absurd (hmax' y hy) (Nat.not_le.mpr hxy)
  · exact absurd (hmax y' hy') (Nat.not_le.mpr hxy')
  · rfl

/-- Two nodes with the same successor in `S` are one. -/
theorem Succ.inj {x x' n : Nat} (hx : Node base S x) (hx' : Node base S x') (hn : n ∈ S)
    (h : Succ base S x n) (h' : Succ base S x' n) : x = x' := by
  rcases h with ⟨-, hxn, hmin⟩ | ⟨rfl, -⟩
  · rcases h' with ⟨-, hxn', hmin'⟩ | ⟨rfl, -⟩
    · -- a node strictly between the two would lie below `n` and above one of them
      rcases lt_trichotomy x x' with hlt | heq | hgt
      · rcases hx' with rfl | hx'
        · exact absurd (hx.base_le hS) (Nat.not_le.mpr hlt)
        · exact absurd (hmin x' hx' hlt) (Nat.not_le.mpr hxn')
      · exact heq
      · rcases hx with rfl | hx
        · exact absurd (hx'.base_le hS) (Nat.not_le.mpr hgt)
        · exact absurd (hmin' x hx hgt) (Nat.not_le.mpr hxn)
    · exact absurd (hS n hn) (Nat.lt_irrefl _)
  · exact absurd (hS _ hn) (Nat.lt_irrefl _)

theorem Below.unique {v x x' : Nat} (h : Below base S v x) (h' : Below base S v x') : x = x' := by
  obtain ⟨hx, hxv, hmax⟩ := h
  obtain ⟨hx', hxv', hmax'⟩ := h'
  rcases hx with rfl | hx <;> rcases hx' with rfl | hx'
  · rfl
  · exact absurd (hmax x' hx' hxv') (Nat.not_le.mpr (hS x' hx'))
  · exact absurd (hmax' x hx hxv) (Nat.not_le.mpr (hS x hx))
  · exact le_antisymm (hmax' x hx hxv) (hmax x' hx' hxv')

/-- Unlinking `n`, which follows `p` and leads to `m`: `p` now leads to `m`, and every
other link stays. -/
theorem Succ.erase {p n m : Nat} (hp : Node base S p) (hn : n ∈ S) (hpn : Succ base S p n)
    (hnm : Succ base S n m) :
    Succ base (S \ {n}) p m ∧
      ∀ x y, Node base S x → x ≠ p → Succ base S x y → Succ base (S \ {n}) x y := by
  rcases hpn with ⟨-, hpn, hmin⟩ | ⟨rfl, -⟩
  · refine ⟨?_, fun x y hx hxp hxy => ?_⟩
    · rcases hnm with ⟨hmS, hnm, hmin'⟩ | ⟨rfl, hmax⟩
      · refine .inl ⟨⟨hmS, Nat.ne_of_gt hnm⟩, Nat.lt_trans hpn hnm, fun z hz hpz => ?_⟩
        rcases Nat.lt_or_gt_of_ne hz.2 with h | h
        · exact absurd (hmin z hz.1 hpz) (Nat.not_le.mpr h)
        · exact hmin' z hz.1 h
      · refine .inr ⟨rfl, fun z hz => Nat.le_of_not_lt fun hpz => ?_⟩
        have hzn : z < n := Nat.lt_of_le_of_ne (hmax z hz.1) hz.2
        exact absurd (hmin z hz.1 hpz) (Nat.not_le.mpr hzn)
    · -- the link out of `x` did not point at `n`, which only `p` links to
      have hyn : y ≠ n := fun h =>
        hxp (Succ.inj hS hx hp hn (h ▸ hxy) (.inl ⟨hn, hpn, hmin⟩))
      rcases hxy with ⟨hyS, hxy, hmin''⟩ | ⟨rfl, hmax⟩
      · exact .inl ⟨⟨hyS, hyn⟩, hxy, fun z hz hxz => hmin'' z hz.1 hxz⟩
      · exact .inr ⟨rfl, fun z hz => hmax z hz.1⟩
  · exact absurd (hS _ hn) (Nat.lt_irrefl _)

variable {v : Nat} (hv : base < v) (hvS : v ∉ S)
include hv hvS

/-- The search stops exactly at the node below `v`. -/
theorem arc_iff_below {x y : Nat} (hx : Node base S x) (hxy : Succ base S x y) :
    Arc x y v ↔ Below base S v x := by
  rcases hxy with ⟨hyS, hxy, hmin⟩ | ⟨rfl, hmax⟩
  · constructor
    · rintro (⟨hxv, hvy⟩ | ⟨hyx, -⟩)
      · refine ⟨hx, hxv, fun z hz hzv => Nat.le_of_not_lt fun hxz => ?_⟩
        exact absurd (hmin z hz hxz) (Nat.not_le.mpr (Nat.lt_trans hzv hvy))
      · exact absurd hyx (Nat.not_le.mpr hxy)
    · rintro ⟨-, hxv, hbel⟩
      refine .inl ⟨hxv, ?_⟩
      rcases Nat.lt_or_gt_of_ne (show v ≠ y from fun h => hvS (h ▸ hyS)) with h | h
      · exact h
      · exact absurd (hbel y hyS h) (Nat.not_le.mpr hxy)
  · constructor
    · rintro (⟨hxv, hvb⟩ | ⟨-, hxv | hvb⟩)
      · exact absurd (Nat.lt_trans hxv hvb) (Nat.not_lt.mpr (hx.base_le hS))
      · exact ⟨hx, hxv, fun z hz _ => hmax z hz⟩
      · exact absurd hv (Nat.lt_asymm hvb)
    · rintro ⟨-, hxv, -⟩
      exact .inr ⟨hx.base_le hS, .inl hxv⟩

/-- Linking `v` in after the node `p` below it: `p` now leads to `v`, `v` to the node
that followed `p`, and every other link stays. -/
theorem Succ.insert {p n : Nat} (hp : Below base S v p) (hpn : Succ base S p n) :
    Succ base (insert v S) p v ∧ Succ base (insert v S) v n ∧
      ∀ x y, Node base S x → x ≠ p → Succ base S x y → Succ base (insert v S) x y := by
  obtain ⟨hpN, hpv, hmax⟩ := hp
  refine ⟨.inl ⟨Set.mem_insert v S, hpv, fun z hz hpz => ?_⟩, ?_, ?_⟩
  · -- nothing of `S` lies strictly between `p` and `v`
    rcases hz with rfl | hz
    · exact le_rfl
    · exact Nat.le_of_not_lt fun hzv => absurd (hmax z hz hzv) (Nat.not_le.mpr hpz)
  · rcases hpn with ⟨hnS, hpn, hmin⟩ | ⟨rfl, hmax'⟩
    · have hvn : v < n := by
        rcases Nat.lt_or_gt_of_ne (show v ≠ n from fun h => hvS (h ▸ hnS)) with h | h
        · exact h
        · exact absurd (hmax n hnS h) (Nat.not_le.mpr hpn)
      refine .inl ⟨Set.mem_insert_of_mem v hnS, hvn, fun z hz hvz => ?_⟩
      rcases hz with rfl | hz
      · exact absurd hvz (Nat.lt_irrefl _)
      · exact hmin z hz (Nat.lt_trans hpv hvz)
    · refine .inr ⟨rfl, fun z hz => ?_⟩
      rcases hz with rfl | hz
      · exact le_rfl
      · exact Nat.le_trans (hmax' z hz) hpv.le
  · intro x y hx hxp hxy
    -- `x` is not the node below `v`, so `v` does not fall on its link
    have hnb : ¬ Below base S v x := fun hb => hxp (hb.unique hS ⟨hpN, hpv, hmax⟩)
    have harc : ¬ Arc x y v := fun ha => hnb ((arc_iff_below hS hv hvS hx hxy).mp ha)
    rcases hxy with ⟨hyS, hxy, hmin⟩ | ⟨rfl, hmax'⟩
    · refine .inl ⟨Set.mem_insert_of_mem v hyS, hxy, fun z hz hxz => ?_⟩
      rcases hz with rfl | hz
      · exact Nat.le_of_not_lt fun hzy => harc (.inl ⟨hxz, hzy⟩)
      · exact hmin z hz hxz
    · refine .inr ⟨rfl, fun z hz => ?_⟩
      rcases hz with rfl | hz
      · exact Nat.le_of_not_lt fun hxz => harc (.inr ⟨hx.base_le hS, .inl hxz⟩)
      · exact hmax' z hz

end Cycle

/-! ## Blocks cut from a range -/

/-- A block of the heap: where it starts, its size, and whether it is free. -/
structure Blk where
  addr : Nat
  size : Nat
  free : Bool
  deriving DecidableEq

/-- `B` cuts `[a, b)` into blocks of at least one unit, in address order. -/
inductive Cut : Nat → Nat → List Blk → Prop
  | nil (a : Nat) : Cut a a []
  | cons {a b s : Nat} (f : Bool) {B : List Blk} (hs : 0 < s) (h : Cut (a + s) b B) :
      Cut a b (⟨a, s, f⟩ :: B)

/-- The addresses of the free blocks. -/
def frees (B : List Blk) : Set Nat := {z | ∃ c ∈ B, c.free = true ∧ c.addr = z}

/-- The blocks in use. -/
def used (B : List Blk) : List Blk := B.filter fun c => !c.free

/-- No two free blocks are next to each other. -/
def Apart (B : List Blk) : Prop := B.IsChain fun c c' => ¬ (c.free = true ∧ c'.free = true)

section Cut

variable {a b m : Nat} {B l r : List Blk}

theorem Cut.le (h : Cut a b B) : a ≤ b := by
  induction h with
  | nil => exact le_rfl
  | cons _ hs _ ih => exact Nat.le_trans (Nat.le_add_right _ _) ih

theorem Cut.eq_of_nil (h : Cut a b []) : a = b := by
  cases h
  rfl

theorem Cut.bounds (h : Cut a b B) : ∀ c ∈ B, a ≤ c.addr ∧ 0 < c.size ∧ c.addr + c.size ≤ b := by
  induction h with
  | nil => exact fun c hc => absurd hc List.not_mem_nil
  | cons f hs h ih =>
    intro c hc
    rcases List.mem_cons.mp hc with rfl | hc
    · exact ⟨le_rfl, hs, h.le⟩
    · obtain ⟨h1, h2, h3⟩ := ih c hc
      exact ⟨by omega, h2, h3⟩

theorem Cut.append (hl : Cut a m l) (hr : Cut m b r) : Cut a b (l ++ r) := by
  induction hl with
  | nil => exact hr
  | cons f hs _ ih => exact .cons f hs (ih hr)

theorem Cut.of_append : ∀ {a : Nat} {l : List Blk}, Cut a b (l ++ r) → ∃ m, Cut a m l ∧ Cut m b r
  | a, [], h => ⟨a, .nil a, h⟩
  | _, _ :: _, .cons f hs h =>
    let ⟨m, hl, hr⟩ := Cut.of_append h
    ⟨m, .cons f hs hl, hr⟩

/-- The cut around a block. -/
theorem Cut.mid {c : Blk} (h : Cut a b (l ++ c :: r)) :
    Cut a c.addr l ∧ 0 < c.size ∧ Cut (c.addr + c.size) b r := by
  obtain ⟨m, hl, hr⟩ := h.of_append
  cases hr with
  | cons f hs hr => exact ⟨hl, hs, hr⟩

theorem Cut.of_mid {c : Blk} (hl : Cut a c.addr l) (hc : 0 < c.size)
    (hr : Cut (c.addr + c.size) b r) : Cut a b (l ++ c :: r) :=
  hl.append (.cons c.free hc hr)

/-- Blocks lie in address order. -/
theorem Cut.pairwise (h : Cut a b B) : B.Pairwise fun c c' => c.addr + c.size ≤ c'.addr := by
  induction h with
  | nil => exact List.Pairwise.nil
  | cons f hs h ih => exact List.Pairwise.cons (fun c hc => (h.bounds c hc).1) ih

/-- A block is known by its address. -/
theorem Cut.eq_of_addr (h : Cut a b B) {c c' : Blk} (hc : c ∈ B) (hc' : c' ∈ B)
    (he : c.addr = c'.addr) : c = c' := by
  induction h with
  | nil => exact absurd hc List.not_mem_nil
  | cons f hs h ih =>
    rcases List.mem_cons.mp hc with rfl | hc <;> rcases List.mem_cons.mp hc' with rfl | hc'
    · rfl
    · have := (h.bounds c' hc').1
      simp only at he
      omega
    · have := (h.bounds c hc).1
      simp only at he
      omega
    · exact ih hc hc'

/-- Two blocks of a cut do not overlap. -/
theorem Cut.disjoint (h : Cut a b B) {c c' : Blk} (hc : c ∈ B) (hc' : c' ∈ B) (hne : c ≠ c') :
    c.addr + c.size ≤ c'.addr ∨ c'.addr + c'.size ≤ c.addr := by
  induction h with
  | nil => exact absurd hc List.not_mem_nil
  | cons f hs h ih =>
    rcases List.mem_cons.mp hc with rfl | hc <;> rcases List.mem_cons.mp hc' with rfl | hc'
    · exact absurd rfl hne
    · exact .inl (h.bounds c' hc').1
    · exact .inr (h.bounds c hc).1
    · exact ih hc hc'

/-- No two blocks of a cut start at one address. -/
theorem Cut.nodup_addr (h : Cut a b B) : (B.map Blk.addr).Nodup := by
  refine List.pairwise_map.mpr (h.pairwise.imp_of_mem fun hc _ hle => ?_)
  have := (h.bounds _ hc).2.1
  omega

/-- Blocks below a block are before it, and blocks above it after it. -/
theorem Cut.mem_split {c c' : Blk} (h : Cut a b (l ++ c :: r)) (hc' : c' ∈ l ++ c :: r) :
    (c' ∈ l ∧ c'.addr + c'.size ≤ c.addr) ∨ c' = c ∨ (c' ∈ r ∧ c.addr + c.size ≤ c'.addr) := by
  obtain ⟨hl, -, hr⟩ := h.mid
  rcases List.mem_append.mp hc' with hc' | hc'
  · exact .inl ⟨hc', (hl.bounds c' hc').2.2⟩
  · rcases List.mem_cons.mp hc' with rfl | hc'
    · exact .inr (.inl rfl)
    · exact .inr (.inr ⟨hc', (hr.bounds c' hc').1⟩)

/-- The block that ends where a block starts is the one just before it. -/
theorem Cut.last_of_top {c c' : Blk} (h : Cut a b (l ++ c :: r)) (hc' : c' ∈ l ++ c :: r)
    (he : c'.addr + c'.size = c.addr) : l.getLast? = some c' := by
  obtain ⟨hl, hcs, hr⟩ := h.mid
  have hc's := (h.bounds c' hc').2.1
  rcases List.eq_nil_or_concat l with rfl | ⟨l', d, rfl⟩
  · rcases h.mem_split hc' with ⟨hm, -⟩ | rfl | ⟨-, hle⟩
    · exact absurd hm List.not_mem_nil
    · omega
    · omega
  · rw [List.concat_eq_append] at hl h hc' ⊢
    obtain ⟨hl', hds, hd⟩ := hl.mid
    rw [List.getLast?_concat]
    rcases h.mem_split hc' with ⟨hm, -⟩ | rfl | ⟨-, hle⟩
    · rcases List.mem_append.mp hm with hm | hm
      · have := (hl'.bounds c' hm).2.2
        have := hd.eq_of_nil
        omega
      · rw [List.mem_singleton.mp hm]
    · omega
    · omega

/-- The block that starts where a block ends is the one just after it. -/
theorem Cut.head_of_addr {c c' : Blk} (h : Cut a b (l ++ c :: r)) (hc' : c' ∈ l ++ c :: r)
    (he : c'.addr = c.addr + c.size) : r.head? = some c' := by
  obtain ⟨hl, hcs, hr⟩ := h.mid
  rcases h.mem_split hc' with ⟨-, hle⟩ | rfl | ⟨hm, -⟩
  · have := (h.bounds c' hc').2.1
    omega
  · omega
  · cases hr with
    | nil => exact absurd hm List.not_mem_nil
    | cons f hs hr' =>
      rcases List.mem_cons.mp hm with rfl | hm
      · rfl
      · have := (hr'.bounds c' hm).1
        omega

end Cut

/-! ## Changing blocks -/

section Ops

variable {a b : Nat} {B l r : List Blk}

theorem Cut.split {x s k : Nat} {f : Bool} (g : Bool) (h : Cut a b (l ++ ⟨x, s, f⟩ :: r))
    (hk : 0 < k) (hks : k < s) : Cut a b (l ++ ⟨x, s - k, f⟩ :: ⟨x + (s - k), k, g⟩ :: r) := by
  obtain ⟨hl, -, hr⟩ := h.mid
  refine Cut.of_mid hl (Nat.sub_pos_of_lt hks) (.cons g hk ?_)
  rwa [Nat.add_assoc, Nat.sub_add_cancel hks.le]

theorem Cut.mark {x s : Nat} {f : Bool} (g : Bool) (h : Cut a b (l ++ ⟨x, s, f⟩ :: r)) :
    Cut a b (l ++ ⟨x, s, g⟩ :: r) := by
  obtain ⟨hl, hs, hr⟩ := h.mid
  exact Cut.of_mid hl hs hr

/-- A block's neighbour above starts where it ends. -/
theorem Cut.addr_next {c d : Blk} (h : Cut a b (l ++ c :: d :: r)) : d.addr = c.addr + c.size := by
  obtain ⟨-, -, hr⟩ := h.mid
  cases hr
  rfl

theorem Cut.merge {x s y t : Nat} {f f' : Bool} (g : Bool)
    (h : Cut a b (l ++ ⟨x, s, f⟩ :: ⟨y, t, f'⟩ :: r)) : Cut a b (l ++ ⟨x, s + t, g⟩ :: r) := by
  obtain ⟨hl, hs, hr⟩ := h.mid
  cases hr with
  | cons _ ht hr => exact Cut.of_mid hl (Nat.add_pos_left hs t) (by rwa [← Nat.add_assoc])

theorem Cut.snoc {n : Nat} (f : Bool) (h : Cut a b l) (hn : 0 < n) :
    Cut a (b + n) (l ++ [⟨b, n, f⟩]) :=
  h.append (.cons f hn (.nil _))

theorem mem_frees {z : Nat} : z ∈ frees B ↔ ∃ c ∈ B, c.free = true ∧ c.addr = z := Iff.rfl

/-- Marking a block free adds its address to the free ones. -/
theorem frees_mark_free {x s : Nat} {f : Bool} :
    frees (l ++ ⟨x, s, true⟩ :: r) = insert x (frees (l ++ ⟨x, s, f⟩ :: r)) := by
  ext z
  simp only [mem_frees, Set.mem_insert_iff, List.mem_append, List.mem_cons]
  constructor
  · rintro ⟨c, hc | rfl | hc, hf, rfl⟩
    · exact .inr ⟨c, .inl hc, hf, rfl⟩
    · exact .inl rfl
    · exact .inr ⟨c, .inr (.inr hc), hf, rfl⟩
  · rintro (rfl | ⟨c, hc | rfl | hc, hf, rfl⟩)
    · exact ⟨_, .inr (.inl rfl), rfl, rfl⟩
    · exact ⟨c, .inl hc, hf, rfl⟩
    · exact ⟨_, .inr (.inl rfl), rfl, rfl⟩
    · exact ⟨c, .inr (.inr hc), hf, rfl⟩

theorem mem_frees_append {z : Nat} : z ∈ frees (l ++ r) ↔ z ∈ frees l ∨ z ∈ frees r := by
  simp only [mem_frees, List.mem_append]
  constructor
  · rintro ⟨e, he | he, hf, rfl⟩
    · exact .inl ⟨e, he, hf, rfl⟩
    · exact .inr ⟨e, he, hf, rfl⟩
  · rintro (⟨e, he, hf, rfl⟩ | ⟨e, he, hf, rfl⟩)
    · exact ⟨e, .inl he, hf, rfl⟩
    · exact ⟨e, .inr he, hf, rfl⟩

theorem mem_frees_cons {c : Blk} {z : Nat} :
    z ∈ frees (c :: r) ↔ (c.free = true ∧ c.addr = z) ∨ z ∈ frees r := by
  simp only [mem_frees, List.mem_cons]
  constructor
  · rintro ⟨e, rfl | he, hf, rfl⟩
    · exact .inl ⟨hf, rfl⟩
    · exact .inr ⟨e, he, hf, rfl⟩
  · rintro (⟨hf, rfl⟩ | ⟨e, he, hf, rfl⟩)
    · exact ⟨c, .inl rfl, hf, rfl⟩
    · exact ⟨e, .inr he, hf, rfl⟩

theorem mem_frees_nil {z : Nat} : z ∉ frees [] := fun ⟨_, he, _⟩ => List.not_mem_nil he

theorem mem_frees_mid {c : Blk} {z : Nat} :
    z ∈ frees (l ++ c :: r) ↔ z ∈ frees l ∨ (c.free = true ∧ c.addr = z) ∨ z ∈ frees r := by
  rw [mem_frees_append, mem_frees_cons]

/-- No block around a block starts where it does. -/
theorem Cut.not_mem_frees_sides {c : Blk} (h : Cut a b (l ++ c :: r)) :
    c.addr ∉ frees l ∧ c.addr ∉ frees r := by
  obtain ⟨hl, hcs, hr⟩ := h.mid
  refine ⟨fun ⟨e, he, _, hea⟩ => ?_, fun ⟨e, he, _, hea⟩ => ?_⟩
  · have := hl.bounds e he
    omega
  · have := hr.bounds e he
    omega

/-- Marking a block in use takes its address out of the free ones. -/
theorem Cut.frees_mark_used {x s : Nat} {f : Bool} (h : Cut a b (l ++ ⟨x, s, f⟩ :: r)) :
    frees (l ++ ⟨x, s, false⟩ :: r) = frees (l ++ ⟨x, s, f⟩ :: r) \ {x} := by
  obtain ⟨hl, hr⟩ := h.not_mem_frees_sides
  ext z
  rw [Set.mem_sdiff, Set.mem_singleton_iff, mem_frees_mid, mem_frees_mid]
  constructor
  · rintro (hz | ⟨hf, -⟩ | hz)
    · exact ⟨.inl hz, fun he => hl (he ▸ hz)⟩
    · exact absurd hf Bool.false_ne_true
    · exact ⟨.inr (.inr hz), fun he => hr (he ▸ hz)⟩
  · rintro ⟨hz | ⟨-, rfl⟩ | hz, hne⟩
    · exact .inl hz
    · exact absurd rfl hne
    · exact .inr (.inr hz)

theorem Cut.frees_merge {x s y t : Nat} {f f' : Bool}
    (h : Cut a b (l ++ ⟨x, s, f⟩ :: ⟨y, t, f'⟩ :: r)) :
    frees (l ++ ⟨x, s + t, f⟩ :: r) = frees (l ++ ⟨x, s, f⟩ :: ⟨y, t, f'⟩ :: r) \ {y} := by
  have h' : Cut a b ((l ++ [⟨x, s, f⟩]) ++ ⟨y, t, f'⟩ :: r) := by
    rwa [List.append_assoc, List.singleton_append]
  obtain ⟨hyl, hyr⟩ := h'.not_mem_frees_sides
  have hyl' : y ∉ frees l := fun hy => hyl (mem_frees_append.mpr (.inl hy))
  have hxy : x ≠ y := by
    have := h.addr_next
    have := h.mid.2.1
    simp only at *
    omega
  ext z
  simp only [Set.mem_sdiff, Set.mem_singleton_iff, mem_frees_mid, mem_frees_cons]
  constructor
  · rintro (hz | ⟨hf, rfl⟩ | hz)
    · exact ⟨.inl hz, fun he => hyl' (he ▸ hz)⟩
    · exact ⟨.inr (.inl ⟨hf, rfl⟩), hxy⟩
    · exact ⟨.inr (.inr (.inr hz)), fun he => hyr (he ▸ hz)⟩
  · rintro ⟨hz | ⟨hf, rfl⟩ | ⟨-, rfl⟩ | hz, hne⟩
    · exact .inl hz
    · exact .inr (.inl ⟨hf, rfl⟩)
    · exact absurd rfl hne
    · exact .inr (.inr hz)

theorem frees_split {x s s' y k : Nat} {f : Bool} :
    frees (l ++ ⟨x, s', f⟩ :: ⟨y, k, false⟩ :: r) = frees (l ++ ⟨x, s, f⟩ :: r) := by
  ext z
  simp only [mem_frees_mid, mem_frees_cons, Bool.false_eq_true, false_and, false_or]

theorem frees_snoc_used {x n : Nat} : frees (l ++ [⟨x, n, false⟩]) = frees l := by
  ext z
  simp only [mem_frees_mid, Bool.false_eq_true, false_and, false_or]
  exact ⟨fun h => h.elim id fun h => absurd h mem_frees_nil, .inl⟩

theorem used_mid {c : Blk} :
    used (l ++ c :: r) = used l ++ (if c.free then [] else [c]) ++ used r := by
  cases hc : c.free <;> simp [used, List.filter_append, hc]

/-- Without the address of a block in use, the addresses of the blocks in use are those of
the blocks before it and after it. -/
theorem Cut.used_addr_erase {c : Blk} (h : Cut a b (l ++ c :: r)) (hc : c.free = false) :
    ((used (l ++ c :: r)).map Blk.addr).filter (· != c.addr) = (used l ++ used r).map Blk.addr := by
  obtain ⟨hl, hc0, hr⟩ := h.mid
  have hne : ∀ d ∈ used l ++ used r, d.addr ≠ c.addr := by
    intro d hd
    rcases List.mem_append.mp hd with hd | hd
    · have := hl.bounds d (List.mem_filter.mp hd).1
      omega
    · have := hr.bounds d (List.mem_filter.mp hd).1
      omega
  rw [used_mid, hc, if_neg Bool.false_ne_true, List.append_assoc, List.singleton_append,
    List.map_append, List.map_cons, List.filter_append, List.filter_cons_of_neg (by simp),
    ← List.filter_append, ← List.map_append, List.filter_eq_self]
  intro x hx
  obtain ⟨d, hd, rfl⟩ := List.mem_map.mp hx
  simpa using hne d hd

theorem apart_mid {c : Blk} :
    Apart (l ++ c :: r) ↔ Apart l ∧ (∀ d ∈ l.getLast?, ¬ (d.free = true ∧ c.free = true)) ∧
      (∀ d ∈ r.head?, ¬ (c.free = true ∧ d.free = true)) ∧ Apart r := by
  simp only [Apart, List.isChain_append, List.isChain_cons, List.head?_cons, Option.mem_def,
    Option.some.injEq, forall_eq']
  constructor
  · rintro ⟨hl, ⟨hc, hr⟩, hlc⟩
    exact ⟨hl, hlc, hc, hr⟩
  · rintro ⟨hl, hlc, hc, hr⟩
    exact ⟨hl, ⟨hc, hr⟩, hlc⟩

theorem Apart.mark_free {x s : Nat} {f : Bool} (h : Apart (l ++ ⟨x, s, f⟩ :: r))
    (hl : ∀ d ∈ l.getLast?, d.free = false) (hr : ∀ d ∈ r.head?, d.free = false) :
    Apart (l ++ ⟨x, s, true⟩ :: r) := by
  obtain ⟨hl', -, -, hr'⟩ := apart_mid.mp h
  exact apart_mid.mpr ⟨hl', fun d hd h => by simp [hl d hd] at h, fun d hd h => by
    simp [hr d hd] at h, hr'⟩

theorem Apart.mark_used {x s : Nat} {f : Bool} (h : Apart (l ++ ⟨x, s, f⟩ :: r)) :
    Apart (l ++ ⟨x, s, false⟩ :: r) := by
  obtain ⟨hl', -, -, hr'⟩ := apart_mid.mp h
  exact apart_mid.mpr ⟨hl', fun d _ h => Bool.false_ne_true h.2, fun d _ h =>
    Bool.false_ne_true h.1, hr'⟩

theorem Apart.split {x s s' y k : Nat} {f : Bool} (h : Apart (l ++ ⟨x, s, f⟩ :: r)) :
    Apart (l ++ ⟨x, s', f⟩ :: ⟨y, k, false⟩ :: r) := by
  obtain ⟨hl', hlc, -, hr'⟩ := apart_mid.mp h
  refine apart_mid.mpr ⟨hl', hlc, fun d hd h => ?_, ?_⟩
  · simp only [List.head?_cons, Option.mem_def, Option.some.injEq] at hd
    subst hd
    exact Bool.false_ne_true h.2
  exact List.IsChain.cons hr' fun d _ h => Bool.false_ne_true h.1

theorem Apart.snoc_used {x n : Nat} (h : Apart l) : Apart (l ++ [⟨x, n, false⟩]) :=
  apart_mid.mpr ⟨h, fun d _ h => Bool.false_ne_true h.2, fun d hd => absurd hd (by simp),
    List.isChain_nil⟩

/-- A free block merged into the block in use below it, whose other neighbour is in use. -/
theorem Apart.merge_up {c d : Blk} {x u : Nat} (h : Apart (l ++ c :: d :: r)) (hd : d.free = true)
    (hl : ∀ e ∈ l.getLast?, e.free = false) : Apart (l ++ ⟨x, u, true⟩ :: r) := by
  obtain ⟨hl', -, -, hr'⟩ := apart_mid.mp h
  obtain ⟨hdr, hr''⟩ := List.isChain_cons.mp hr'
  exact apart_mid.mpr ⟨hl', fun e he h => by simp [hl e he] at h,
    fun e he h => hdr e he ⟨hd, h.2⟩, hr''⟩

/-- A block in use merged into the free block below it. -/
theorem Apart.merge_down {e c : Blk} {x u : Nat} (h : Apart (l ++ e :: c :: r))
    (he : e.free = true) (hr : ∀ d ∈ r.head?, d.free = false) :
    Apart (l ++ ⟨x, u, true⟩ :: r) := by
  obtain ⟨hl', hle, -, hr'⟩ := apart_mid.mp h
  exact apart_mid.mpr ⟨hl', fun d hd h => hle d hd ⟨h.1, he⟩,
    fun d hd h => by simp [hr d hd] at h, (List.isChain_cons.mp hr').2⟩

/-- A block in use merged with the free blocks on both sides of it. -/
theorem Apart.merge_both {e c d : Blk} {x u : Nat} (h : Apart (l ++ e :: c :: d :: r))
    (he : e.free = true) (hd : d.free = true) : Apart (l ++ ⟨x, u, true⟩ :: r) := by
  obtain ⟨hl', hle, -, hr'⟩ := apart_mid.mp h
  obtain ⟨hdr, hr''⟩ := List.isChain_cons.mp (List.isChain_cons.mp hr').2
  exact apart_mid.mpr ⟨hl', fun d' hd' h => hle d' hd' ⟨h.1, he⟩,
    fun d' hd' h => hdr d' hd' ⟨hd, h.2⟩, hr''⟩

end Ops

/-! ## The free list of a cut heap -/

section Heap

variable {a b base : Nat} {B l r : List Blk}

theorem Cut.base_lt (hbase : base < a) (h : Cut a b B) : ∀ z ∈ frees B, base < z := by
  rintro z ⟨e, he, -, rfl⟩
  exact Nat.lt_of_lt_of_le hbase (h.bounds e he).1

/-- The block before a point is free, or there is none in use there. -/
theorem last_cases (l : List Blk) :
    (∃ l' e, l = l' ++ [e] ∧ e.free = true) ∨ ∀ e ∈ l.getLast?, e.free = false := by
  rcases List.eq_nil_or_concat l with rfl | ⟨l', e, rfl⟩
  · exact .inr fun e he => absurd he (by simp)
  · cases he : e.free
    · refine .inr fun e' he' => ?_
      rw [List.concat_eq_append, List.getLast?_concat, Option.mem_def, Option.some.injEq] at he'
      rwa [← he']
    · exact .inl ⟨l', e, List.concat_eq_append .., he⟩

theorem head_cases (r : List Blk) :
    (∃ d r', r = d :: r' ∧ d.free = true) ∨ ∀ d ∈ r.head?, d.free = false := by
  rcases r with _ | ⟨d, r'⟩
  · exact .inr fun d hd => absurd hd (by simp)
  · cases hd : d.free
    · refine .inr fun d' hd' => ?_
      rw [List.head?_cons, Option.mem_def, Option.some.injEq] at hd'
      rwa [← hd']
    · exact .inl ⟨d, r', rfl, hd⟩

/-- A free node is a free block of the heap. -/
theorem block_of_mem_frees {z : Nat} (hz : z ∈ frees B) :
    ∃ l s r, B = l ++ ⟨z, s, true⟩ :: r := by
  obtain ⟨⟨x, s, f⟩, he, hf, rfl⟩ := hz
  obtain ⟨l, r, rfl⟩ := List.append_of_mem he
  simp only at hf
  subst hf
  exact ⟨l, s, r, rfl⟩

/-- The free block just before a block is the node below it. -/
theorem Cut.below_of_last {c d : Blk} (h : Cut a b (l ++ c :: r))
    (hlast : l.getLast? = some d) (hd : d.free = true) :
    Below base (frees (l ++ c :: r)) c.addr d.addr := by
  obtain ⟨l', rfl⟩ := List.getLast?_eq_some_iff.mp hlast
  rw [List.append_assoc, List.singleton_append] at h ⊢
  have hdc := h.addr_next
  have hmem : d ∈ l' ++ d :: c :: r := List.mem_append_right l' List.mem_cons_self
  have hds := (h.bounds d hmem).2.1
  refine ⟨.inr ⟨d, hmem, hd, rfl⟩, by omega, fun z hz hzc => ?_⟩
  obtain ⟨e, he, -, rfl⟩ := hz
  rcases h.mem_split he with ⟨-, hle⟩ | rfl | ⟨-, hle⟩
  · omega
  · exact le_rfl
  · omega

/-- The free block just after a block in use follows the node below it. -/
theorem Cut.succ_of_head {c d : Blk} (h : Cut a b (l ++ c :: d :: r)) (hc : c.free = false)
    (hd : d.free = true) {p : Nat} (hp : Below base (frees (l ++ c :: d :: r)) c.addr p) :
    Succ base (frees (l ++ c :: d :: r)) p d.addr := by
  have hdc := h.addr_next
  have hcs := h.mid.2.1
  obtain ⟨-, hpc, hmax⟩ := hp
  have hmem : d ∈ l ++ c :: d :: r :=
    List.mem_append_right l (List.mem_cons_of_mem c List.mem_cons_self)
  refine .inl ⟨⟨d, hmem, hd, rfl⟩, by omega, fun z hz hpz => ?_⟩
  obtain ⟨e, he, hef, rfl⟩ := hz
  rcases h.mem_split he with ⟨-, hle⟩ | rfl | ⟨-, hle⟩
  · -- a free block below `c` lies at or below `p`
    have hes := (h.bounds e he).2.1
    have := hmax e.addr ⟨e, he, hef, rfl⟩ (by omega)
    omega
  · exact absurd hef (by rw [hc]; decide)
  · omega

end Heap

end FreeList
