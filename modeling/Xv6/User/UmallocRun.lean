import Mathlib
import Xv6.Lib.Reach
import Xv6.User.UmallocHeap

/-!
# The allocator under a program that uses it

A user program calls `malloc` and `free`, and stores into its memory. As ghost state the
system keeps the blocks the program holds: the header slot of each block `malloc`
returned and that was not given back, with the bytes asked for (`USys.live`). The
program keeps to `malloc`'s contract (`UCall.Allowed`): it frees only what it holds, and
stores only into its own variables below the heap, away from `base`, or into the bytes it
asked for. Requests stay below `2^31 - 15` bytes, whose headers `morecore` passes to
`sbrk` as a positive `int`.

Over any run of such calls the heap of `UmallocHeap` is kept, and the blocks the program
holds are the blocks in use of it, each with room for its bytes (`UInv`). So the free
list stays the circular list of the free blocks in address order through `base`, no two
held blocks overlap, and each lies inside the process, above where the heap began
(`umalloc_disjoint`).
-/

namespace Xv6

namespace Umalloc

open FreeList

/-- A call of the program on its allocator, or a store of the program into one header slot
of its memory. -/
inductive UCall where
  | malloc (nbytes : UInt32)
  | free (ap : Nat)
  | store (slot : Nat) (h : Header)

/-- The allocator and, as ghost state, the blocks the program holds. -/
structure USys where
  u : Umalloc
  live : List (Nat × Nat)

/-- One call, with `fuel` for the loops of `malloc` and `free`; `none` where they run out. -/
def uNext (base fuel : Nat) (s : USys) : UCall → Option USys
  | .malloc nbytes =>
    (malloc base fuel s.u nbytes).map fun res =>
      if res.1 = 0 then ⟨res.2, s.live⟩ else ⟨res.2, (res.1 / 8 - 1, nbytes.toNat) :: s.live⟩
  | .free ap => (free s.u fuel ap).map fun u => ⟨u, s.live.filter (·.1 != ap / 8 - 1)⟩
  | .store slot h => some ⟨{ s.u with hdr := Function.update s.u.hdr slot h }, s.live⟩

/-- The program's side of the contract. -/
def UCall.Allowed (base lo : Nat) (s : USys) : UCall → Prop
  | .malloc nbytes => nbytes.toNat < 2 ^ 31 - 15
  | .free ap => ∃ e ∈ s.live, ap = 8 * (e.1 + 1)
  | .store slot _ =>
    (slot < lo ∧ slot ≠ base) ∨ ∃ e ∈ s.live, e.1 < slot ∧ 8 * slot < 8 * (e.1 + 1) + e.2

/-- Before the first `malloc`: `freep` is `0`, the break is at `lo`, and nothing is held. -/
def UInit (lo : Nat) (s : USys) : Prop := s.u.freep = 0 ∧ s.u.sz = 8 * lo ∧ s.live = []

/-- A call the program may make, and its effect. -/
def UStep (base lo : Nat) (s : USys) (e : UCall) (s' : USys) : Prop :=
  e.Allowed base lo s ∧ ∃ fuel, uNext base fuel s e = some s'

/-- The blocks the program holds are the blocks in use, each with room for its bytes. -/
def Holds (B : List Blk) (live : List (Nat × Nat)) : Prop :=
  (live.map Prod.fst).Perm ((used B).map Blk.addr) ∧
    ∀ e ∈ live, ∃ c ∈ used B, c.addr = e.1 ∧ e.2 + 8 ≤ 8 * c.size

/-- Before the first `malloc`, or a heap whose blocks in use the program holds. -/
def UInv (base lo : Nat) (s : USys) : Prop :=
  UInit lo s ∨ ∃ B, Heap base lo s.u B ∧ Holds B s.live

/-! ## The calls -/

section Holds

variable {B B' : List Blk} {live : List (Nat × Nat)}

/-- What `malloc` returns, as `Heap.of_malloc` gives it, is what the program now holds. -/
theorem Holds.malloc (hB : Holds B live) {nbytes : UInt32} (hnb : nbytes.toNat < 2 ^ 32 - 7)
    {r : Nat} (hres : (r = 0 ∧ used B' = used B) ∨
      ∃ a, r = 8 * (a + 1) ∧ (used B').Perm (⟨a, (nunitsOf nbytes).toNat, false⟩ :: used B)) :
    Holds B' (if r = 0 then live else (r / 8 - 1, nbytes.toNat) :: live) := by
  rcases hres with ⟨rfl, hused⟩ | ⟨a, rfl, hperm⟩
  · rw [if_pos rfl, Holds, hused]
    exact hB
  · rw [if_neg (by omega), show 8 * (a + 1) / 8 - 1 = a by omega]
    have hmem : ∀ c ∈ ⟨a, (nunitsOf nbytes).toNat, false⟩ :: used B, c ∈ used B' :=
      fun c hc => hperm.symm.subset hc
    refine ⟨?_, fun e he => ?_⟩
    · exact (hB.1.cons a).trans (hperm.map Blk.addr).symm
    · rcases List.mem_cons.mp he with rfl | he
      · exact ⟨_, hmem _ List.mem_cons_self, rfl, nunits_room hnb⟩
      · obtain ⟨c, hc, hca, hroom⟩ := hB.2 e he
        exact ⟨c, hmem c (List.mem_cons_of_mem _ hc), hca, hroom⟩

/-- A block given back leaves what the program holds, and the others stay. -/
theorem Holds.free {lo top : Nat} {l r : List Blk} {x s : Nat}
    (hcut : Cut lo top (l ++ ⟨x, s, false⟩ :: r)) (hB : Holds (l ++ ⟨x, s, false⟩ :: r) live)
    (hused : used B' = used l ++ used r) : Holds B' (live.filter (·.1 != x)) := by
  refine ⟨?_, fun e he => ?_⟩
  · have hmap : (live.filter (·.1 != x)).map Prod.fst = (live.map Prod.fst).filter (· != x) := by
      rw [List.filter_map]
      rfl
    rw [hmap, hused, ← hcut.used_addr_erase rfl]
    exact hB.1.filter _
  · obtain ⟨he, hex⟩ := List.mem_filter.mp he
    obtain ⟨c, hc, hca, hroom⟩ := hB.2 e he
    refine ⟨c, ?_, hca, hroom⟩
    rw [used_mid, List.mem_append, List.mem_append] at hc
    rw [hused, List.mem_append]
    rcases hc with (hc | hc) | hc
    · exact .inl hc
    · simp only [Bool.false_eq_true, if_false, List.mem_singleton] at hc
      subst hc
      simp [← hca] at hex
    · exact .inr hc

end Holds

section Step

variable {base lo : Nat} (hbase : 0 < base) (hlo : base < lo) (htop : 8 * lo ≤ USERTOP)
  {s s' : USys}

include hlo in
/-- A store the contract allows writes no header the heap reads. -/
theorem Heap.store {B : List Blk} (hH : Heap base lo s.u B) (hB : Holds B s.live) {slot : Nat}
    {h : Header} (hslot : (UCall.store slot h).Allowed base lo s) :
    Heap base lo { s.u with hdr := Function.update s.u.hdr slot h } B := by
  refine hH.frame rfl rfl fun y hy => Function.update_of_ne ?_ _ _
  rintro rfl
  rcases hslot with ⟨hlt, hne⟩ | ⟨e, he, hlt, hin⟩
  · -- below the heap: not `base`, and below every block
    rcases hy with rfl | ⟨c, hc, rfl⟩
    · exact hne rfl
    · exact absurd (hH.cut.bounds c hc).1 (by omega)
  · -- inside a held block, past its header
    obtain ⟨c, hc, hca, hroom⟩ := hB.2 e he
    have hcB : c ∈ B := (List.mem_filter.mp hc).1
    have hc0 := (hH.cut.bounds c hcB).1
    rcases hy with rfl | ⟨d, hd, rfl⟩
    · omega
    · by_cases hdc : d = c
      · subst hdc
        omega
      · rcases hH.cut.disjoint hd hcB hdc with hle | hle
        · have := (hH.cut.bounds d hd).2.1
          omega
        · omega

include hbase hlo htop

/-- Every call the contract allows keeps the invariant. -/
theorem UInv.step {e : UCall} (hi : UInv base lo s) (hs : UStep base lo s e s') :
    UInv base lo s' := by
  obtain ⟨hallow, fuel, hnext⟩ := hs
  cases e with
  | malloc nbytes =>
    obtain ⟨⟨r, u'⟩, hm, rfl⟩ := Option.map_eq_some_iff.mp hnext
    have hnb : nbytes.toNat < 2 ^ 31 - 15 := hallow
    -- the heap before the call (none before the first), and what `malloc` made of it
    obtain ⟨B, hB, B', hH', hres⟩ : ∃ B, Holds B s.live ∧ ∃ B', Heap base lo u' B' ∧
        ((r = 0 ∧ used B' = used B) ∨
          ∃ a, r = 8 * (a + 1) ∧ (used B').Perm (⟨a, (nunitsOf nbytes).toNat, false⟩ :: used B)) := by
      rcases hi with ⟨hfp, hsz, hlive⟩ | ⟨B, hH, hB⟩
      · refine ⟨[], ?_, Heap.of_malloc_first hlo hsz htop hfp hnb hm⟩
        rw [hlive]
        exact ⟨List.Perm.nil, fun e he => absurd he List.not_mem_nil⟩
      · exact ⟨B, hB, Heap.of_malloc hlo hbase hH hnb hm⟩
    have hB' := hB.malloc (by omega) hres
    refine .inr ⟨B', ?_⟩
    dsimp only
    split_ifs at hB' ⊢ <;> exact ⟨hH', hB'⟩
  | free ap =>
    obtain ⟨u', hf, rfl⟩ := Option.map_eq_some_iff.mp hnext
    obtain ⟨⟨a, n⟩, he, rfl⟩ := hallow
    rcases hi with ⟨-, -, hlive⟩ | ⟨B, hH, hB⟩
    · rw [hlive] at he
      exact absurd he List.not_mem_nil
    -- the block given back is one in use, at the address the program holds
    obtain ⟨c, hc, hca, -⟩ := hB.2 _ he
    obtain ⟨hcB, hcf⟩ := List.mem_filter.mp hc
    obtain ⟨l, r, rfl⟩ := List.append_of_mem hcB
    obtain ⟨x, sz, f⟩ := c
    obtain rfl : f = false := by simpa using hcf
    obtain rfl : x = a := hca
    obtain ⟨B', hH', hused, -, -⟩ := Heap.of_free hlo hH hf
    refine .inr ⟨B', hH', ?_⟩
    rw [show 8 * (x + 1) / 8 - 1 = x by omega]
    exact Holds.free hH.cut hB hused
  | store slot h =>
    cases hnext
    rcases hi with ⟨hfp, hsz, hlive⟩ | ⟨B, hH, hB⟩
    · exact .inl ⟨hfp, hsz, hlive⟩
    · exact .inr ⟨B, Heap.store hlo hH hB hallow, hB⟩

/-- Over every run from before the first `malloc`, the invariant holds. -/
theorem UInv.reachable (h : Reach.Reachable (UInit lo) (UStep base lo) s) : UInv base lo s :=
  h.invariant (fun _ h0 => .inl h0) fun _ _ _ hi hs => hi.step hbase hlo htop hs

/-- From before the first `malloc`, while the program keeps to the contract: once `malloc`
has run, the memory from `lo` to the break is cut into blocks whose headers hold their
sizes, the links from `base` and from each free block run through the free blocks in
address order and back to `base`, `freep` is on that list, and the blocks in use are the
ones the program holds. Each block it holds lies inside the process above `lo`, with its
header and the bytes asked for, and no two of them overlap. -/
theorem umalloc_disjoint (h : Reach.Reachable (UInit lo) (UStep base lo) s) :
    (s.u.freep = 0 ∨ ∃ B, Cut lo (s.u.sz / 8) B ∧ (∀ c ∈ B, (s.u.hdr c.addr).size.toNat = c.size) ∧
      (∀ x, Node base (frees B) x → Succ base (frees B) x (s.u.hdr x).ptr) ∧
      Node base (frees B) s.u.freep ∧ (s.live.map Prod.fst).Perm ((used B).map Blk.addr)) ∧
    (∀ e ∈ s.live, lo ≤ e.1 ∧ 8 * (e.1 + 1) + e.2 ≤ s.u.sz) ∧
      s.live.Pairwise fun e f => 8 * (e.1 + 1) + e.2 ≤ 8 * f.1 ∨ 8 * (f.1 + 1) + f.2 ≤ 8 * e.1 := by
  rcases UInv.reachable hbase hlo htop h with ⟨hfreep, -, hlive⟩ | ⟨B, hH, hB⟩
  · rw [hlive]
    exact ⟨.inl hfreep, fun e he => absurd he List.not_mem_nil, List.Pairwise.nil⟩
  -- each held block is a block of the cut, and no two start at one address
  have hblk : ∀ e ∈ s.live, ∃ c ∈ B, c.addr = e.1 ∧ e.2 + 8 ≤ 8 * c.size := fun e he => by
    obtain ⟨c, hc, hca, hroom⟩ := hB.2 e he
    exact ⟨c, (List.mem_filter.mp hc).1, hca, hroom⟩
  have hnd : (s.live.map Prod.fst).Nodup :=
    hB.1.nodup_iff.mpr (hH.cut.nodup_addr.sublist (List.filter_sublist.map Blk.addr))
  refine ⟨.inr ⟨B, hH.cut, hH.sizes, hH.links, hH.freep, hB.1⟩, fun e he => ?_,
    (List.pairwise_map.mp hnd).imp_of_mem fun he hf hef => ?_⟩
  · obtain ⟨c, hc, hca, hroom⟩ := hblk e he
    have := hH.cut.bounds c hc
    omega
  · obtain ⟨c, hc, hca, hroom⟩ := hblk _ he
    obtain ⟨d, hd, hda, hroom'⟩ := hblk _ hf
    have hcd : c ≠ d := fun hcd => hef (by rw [← hca, ← hda, hcd])
    rcases hH.cut.disjoint hc hd hcd with hle | hle
    · exact .inl (by omega)
    · exact .inr (by omega)

end Step

/-- `malloc(10)` as the first call of a process of `0x3000` bytes whose `sbrk` succeeds:
the free list is set up, and the block it hands out is held, inside the process, and
apart from any other. -/
theorem umalloc_disjoint_first : ∃ s, Reach.Reachable (UInit 0x600) (UStep 256 0x600) s ∧
    s.live ≠ [] ∧
    (s.u.freep = 0 ∨ ∃ B, Cut 0x600 (s.u.sz / 8) B ∧
      (∀ c ∈ B, (s.u.hdr c.addr).size.toNat = c.size) ∧
      (∀ x, Node 256 (frees B) x → Succ 256 (frees B) x (s.u.hdr x).ptr) ∧
      Node 256 (frees B) s.u.freep ∧ (s.live.map Prod.fst).Perm ((used B).map Blk.addr)) ∧
    (∀ e ∈ s.live, 0x600 ≤ e.1 ∧ 8 * (e.1 + 1) + e.2 ≤ s.u.sz) ∧
      s.live.Pairwise fun e f => 8 * (e.1 + 1) + e.2 ≤ 8 * f.1 ∨ 8 * (f.1 + 1) + f.2 ≤ 8 * e.1 :=
  have h0 : Reach.Reachable (UInit 0x600) (UStep 256 0x600)
      ⟨⟨fun _ => ⟨0, 0⟩, 0, 0x3000, [true]⟩, []⟩ := .init ⟨rfl, rfl, rfl⟩
  have h : Reach.Reachable (UInit 0x600) (UStep 256 0x600)
      ((uNext 256 2 ⟨⟨fun _ => ⟨0, 0⟩, 0, 0x3000, [true]⟩, []⟩ (.malloc 10)).getD
        ⟨⟨fun _ => ⟨0, 0⟩, 0, 0x3000, [true]⟩, []⟩) :=
    .step (.malloc 10) h0 ⟨show (10 : UInt32).toNat < 2 ^ 31 - 15 by decide, 2, rfl⟩
  ⟨_, h, by decide, umalloc_disjoint (by decide) (by decide) (by decide) h⟩

end Umalloc

end Xv6
