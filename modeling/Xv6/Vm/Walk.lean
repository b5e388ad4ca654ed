import Xv6.Vm.Kalloc

/-!
# Page directories

`vm.c`: `walkpgdir` finds the entry that maps a linear address, allocating and zeroing
the page table when asked to, and `mappages` fills the entries of a range of pages,
panicking on one that is already present.

A page directory is read through `tableAt` (the page table a directory entry points
at) and `pte` (the entry mapping a virtual page number). `PdWf` is what the code keeps
of a directory between calls: its pages are distinct pages off the free list. Writing
through the directory then changes `pte` at one page and nothing else, which is all the
specifications of `walkpgdir` and `mappages` need.
-/

namespace Xv6

/-- Entry `i` of the page directory at `pgdir`. -/
def pdeAt (mem : Nat → UInt8) (pgdir i : Nat) : UInt32 := Bytes.getU32 mem (pgdir + 4 * i)

/-- The page table entry `i` of the directory points at, when it is present. -/
def tableAt (mem : Nat → UInt8) (pgdir i : Nat) : Option Nat :=
  if pdeAt mem pgdir i &&& PTE_P ≠ 0 then some (PTE_ADDR (pdeAt mem pgdir i)).toNat else none

/-- The entry mapping virtual page `vpn`, `0` when its page table is absent. -/
def pte (mem : Nat → UInt8) (pgdir vpn : Nat) : UInt32 :=
  match tableAt mem pgdir (vpn / NPTENTRIES) with
  | some t => Bytes.getU32 mem (t + 4 * (vpn % NPTENTRIES))
  | none => 0

/-- `walkpgdir`: the address of the entry for `va`, or `none` for a null pointer. -/
def walkpgdir (k : Kmem) (pgdir : Nat) (va : UInt32) (create : Bool) : Option (Kmem × Nat) :=
  let pde := Bytes.getU32 k.mem (pgdir + 4 * PDX va)
  if pde &&& PTE_P ≠ 0 then some (k, (PTE_ADDR pde).toNat + 4 * PTX va)
  else if create = false then none
  else match kalloc k with
    | none => none
    | some (pgtab, k) =>
      let mem := memset k.mem pgtab 0 PGSIZE
      let pde := pgtab.toUInt32 ||| PTE_P ||| PTE_W ||| PTE_U
      some ({ k with mem := Bytes.setU32 mem (pgdir + 4 * PDX va) pde }, pgtab + 4 * PTX va)

/-- The loop of `mappages` at page `a`, to be mapped to `pa`, with `n` pages after it: the
value it returns and the memory it leaves, or a panic. -/
def mappagesLoop (pgdir : Nat) (perm : UInt32) : Nat → Kmem → UInt32 → UInt32 →
    Except String (Int × Kmem)
  | n, k, a, pa =>
    match walkpgdir k pgdir a true with
    | none => pure (-1, k)
    | some (k, p) =>
      if Bytes.getU32 k.mem p &&& PTE_P ≠ 0 then throw "remap"
      else
        let k := { k with mem := Bytes.setU32 k.mem p (pa ||| perm ||| PTE_P) }
        match n with
        | 0 => pure (0, k)
        | n + 1 => mappagesLoop pgdir perm n k (a + 4096) (pa + 4096)

/-- `mappages`: `0` or `-1` with the memory as the loop left it (a `-1` keeps the entries
written before the failing `walkpgdir`), a panic as an error. The loop runs from
`PGROUNDDOWN(la)` until it has mapped `PGROUNDDOWN(la + size - 1)`. -/
def mappages (k : Kmem) (pgdir : Nat) (la size pa perm : UInt32) : Except String (Int × Kmem) :=
  let a := PGROUNDDOWN la
  let last := PGROUNDDOWN (la + size - 1)
  mappagesLoop pgdir perm ((last - a).toNat / PGSIZE) k a pa

/-! ## The invariant of a page directory -/

/-- A page directory whose pages are distinct pages that are off the free list. -/
structure PdWf (k : Kmem) (pgdir : Nat) : Prop where
  root : PhysPage pgdir
  root_not_free : pgdir ∉ k.free
  table : ∀ i t, i < NPDENTRIES → tableAt k.mem pgdir i = some t →
    t + PGSIZE ≤ PHYSTOP ∧ t ≠ pgdir ∧ t ∉ k.free
  table_inj : ∀ i j t, i < NPDENTRIES → j < NPDENTRIES → tableAt k.mem pgdir i = some t →
    tableAt k.mem pgdir j = some t → i = j
  free : FreeWf k.free

theorem tableAt_aligned {mem : Nat → UInt8} {pgdir i t : Nat} (h : tableAt mem pgdir i = some t) :
    t % PGSIZE = 0 := by
  unfold tableAt at h
  split at h
  · cases h
    rw [PTE_ADDR_toNat, PGSIZE]
    exact Nat.mul_mod_left _ _
  · cases h

/-- A directory entry lies in the directory's page. -/
theorem inPage_pde {pgdir i x : Nat} (hi : i < NPDENTRIES) (hx : pgdir + 4 * i ≤ x)
    (hx4 : x < pgdir + 4 * i + 4) : InPage pgdir x := by
  simp only [InPage, PGSIZE, NPDENTRIES] at *
  omega

theorem tableAt_congr {mem mem' : Nat → UInt8} {pgdir i : Nat} (hi : i < NPDENTRIES)
    (h : ∀ x, InPage pgdir x → mem' x = mem x) : tableAt mem' pgdir i = tableAt mem pgdir i := by
  have hpde : pdeAt mem' pgdir i = pdeAt mem pgdir i :=
    Bytes.getU32_congr fun x h1 h2 => h x (inPage_pde hi h1 h2)
  simp only [tableAt, hpde]

/-- The entry for page `vpn` lies in its page table's page. -/
theorem inPage_pte {t vpn x : Nat} (hx : t + 4 * (vpn % NPTENTRIES) ≤ x)
    (hx4 : x < t + 4 * (vpn % NPTENTRIES) + 4) : InPage t x := by
  have := Nat.mod_lt vpn (show 0 < NPTENTRIES by decide)
  simp only [InPage, PGSIZE, NPTENTRIES] at *
  omega

/-- `pte` reads only the directory's page and its page tables. -/
theorem pte_congr {mem mem' : Nat → UInt8} {pgdir vpn : Nat} (hvpn : vpn < 2 ^ 20)
    (hroot : ∀ x, InPage pgdir x → mem' x = mem x)
    (htab : ∀ t, tableAt mem pgdir (vpn / NPTENTRIES) = some t → ∀ x, InPage t x → mem' x = mem x) :
    pte mem' pgdir vpn = pte mem pgdir vpn := by
  have hi : vpn / NPTENTRIES < NPDENTRIES := by
    simp only [NPTENTRIES, NPDENTRIES]
    omega
  unfold pte
  rw [tableAt_congr hi hroot]
  split
  · rename_i t ht
    exact Bytes.getU32_congr fun x h1 h2 => htab t ht x (inPage_pte h1 h2)
  · rfl

/-- `walkpgdir` splits `va` into the directory index and the table index of its page. -/
theorem PDX_vpn (va : UInt32) : PDX va = va.toNat / PGSIZE / NPTENTRIES := by
  rw [PDX_eq, PGSIZE, NPTENTRIES, Nat.div_div_eq_div_mul]
  rfl

theorem PTX_vpn (va : UInt32) : PTX va = va.toNat / PGSIZE % NPTENTRIES := PTX_eq va

/-! ## One step of a walk -/

/-- The memory after `walkpgdir` makes the zeroed page `p` the table of entry `i`. -/
def Kmem.addTable (k : Kmem) (pgdir i p : Nat) (rest : List Nat) : Kmem where
  mem := Bytes.setU32 (memset k.mem p 0 PGSIZE) (pgdir + 4 * i)
    (p.toUInt32 ||| PTE_P ||| PTE_W ||| PTE_U)
  free := rest

/-- The memory after an entry is written at `a`. -/
def Kmem.setWord (k : Kmem) (a : Nat) (e : UInt32) : Kmem := { k with mem := Bytes.setU32 k.mem a e }

theorem walkpgdir_present {k : Kmem} {pgdir t : Nat} {va : UInt32}
    (ht : tableAt k.mem pgdir (PDX va) = some t) (create : Bool) :
    walkpgdir k pgdir va create = some (k, t + 4 * PTX va) := by
  unfold tableAt pdeAt at ht
  split at ht
  · rename_i hp
    cases ht
    simp only [walkpgdir, if_pos hp]
  · cases ht

theorem walkpgdir_alloc {k : Kmem} {pgdir p : Nat} {rest : List Nat} {va : UInt32}
    (ht : tableAt k.mem pgdir (PDX va) = none) (hf : k.free = p :: rest) :
    walkpgdir k pgdir va true = some (k.addTable pgdir (PDX va) p rest, p + 4 * PTX va) := by
  unfold tableAt pdeAt at ht
  split at ht
  · cases ht
  · rename_i hp
    simp only [walkpgdir, if_neg hp, kalloc_eq_some hf]
    rfl

theorem walkpgdir_nomem {k : Kmem} {pgdir : Nat} {va : UInt32}
    (ht : tableAt k.mem pgdir (PDX va) = none) (hf : k.free = []) :
    walkpgdir k pgdir va true = none := by
  unfold tableAt pdeAt at ht
  split at ht
  · cases ht
  · rename_i hp
    simp only [walkpgdir, if_neg hp, kalloc_eq_none hf]
    rfl

theorem walkpgdir_absent {k : Kmem} {pgdir : Nat} {va : UInt32}
    (ht : tableAt k.mem pgdir (PDX va) = none) : walkpgdir k pgdir va false = none := by
  unfold tableAt pdeAt at ht
  split at ht
  · cases ht
  · rename_i hp
    simp only [walkpgdir, if_neg hp]
    rfl

theorem getU32_eq_zero {m : Nat → UInt8} {a : Nat} (h : ∀ x, a ≤ x → x < a + 4 → m x = 0) :
    Bytes.getU32 m a = 0 := by
  unfold Bytes.getU32
  rw [h a (by omega) (by omega), h (a + 1) (by omega) (by omega), h (a + 2) (by omega) (by omega),
    h (a + 3) (by omega) (by omega)]
  rfl

/-- The directory entry of a new table is present and points at it. -/
theorem tableAt_new_entry {mem : Nat → UInt8} {pgdir i p : Nat} (hp : PhysPage p)
    (h : pdeAt mem pgdir i = p.toUInt32 ||| PTE_P ||| PTE_W ||| PTE_U) :
    tableAt mem pgdir i = some p := by
  have hlt : p < 2 ^ 32 := by
    have := hp.2
    simp only [PGSIZE, PHYSTOP] at this
    omega
  have hpn : p.toUInt32.toNat = p := Word32.toNat_toUInt32_of_lt hlt
  have hv : (p.toUInt32 ||| PTE_P ||| PTE_W ||| PTE_U).toNat = p + 7 := by
    rw [UInt32.or_assoc, UInt32.or_assoc, toNat_or_flags (by rw [hpn]; exact hp.1) _ (by decide),
      hpn]
    rfl
  have hpres : pdeAt mem pgdir i &&& PTE_P ≠ 0 := by
    rw [and_P_ne_zero_iff, h, hv]
    have := hp.1
    simp only [PGSIZE] at this
    omega
  unfold tableAt
  rw [if_pos hpres, h, PTE_ADDR_toNat, hv]
  have := hp.1
  simp only [PGSIZE] at this
  congr 1
  omega

end Xv6
