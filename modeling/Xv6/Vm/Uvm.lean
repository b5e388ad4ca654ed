import Xv6.Vm.Mappages
import Xv6.Sys.Args

/-!
# Growing, shrinking and copying an address space

`vm.c`: `allocuvm` maps fresh zeroed pages from `PGROUNDUP(oldsz)` up to `newsz` and
returns `newsz`, or `0` after undoing its work with `deallocuvm` when `kalloc` fails;
`deallocuvm` frees the present pages from `PGROUNDUP(newsz)` below `oldsz` and returns
`newsz`; `setupkvm` builds a directory holding the kernel's mappings of `kmap`; and
`copyuvm` gives a child a copy of every page of its parent, undoing with `freevm` when
memory runs out. `proc.c`'s `growproc` serves `sbrk` with the first two and reads their
result `0` as failure.

Two things follow. `deallocuvm` returns `0` for a shrink to size `0`, which `growproc`
reports as failure after the pages are gone, while `sz + n` wraps for `n < -sz` into a
size `deallocuvm` ignores (`sbrk_negative_breaks`). And `setupkvm` returns `0` without
giving back the pages it took, so a `copyuvm` that fails there loses them
(`copyuvm_setupkvm_leaks`).

The loops' address is a `Nat`, and a loop `for(; a < b; a += PGSIZE)` runs
`pagesBelow a b` times: every caller passes sizes up to `USERTOP`, where the address
does not wrap.
-/

namespace Xv6

/-- How often `for(; a < b; a += PGSIZE)` runs. -/
def pagesBelow (a b : Nat) : Nat := (b - a + PGSIZE - 1) / PGSIZE

/-- The loop of `deallocuvm` over `n` pages from `a`: the page of a present entry is
freed, and the entry cleared. -/
def deallocuvmLoop (kend pgdir : Nat) : Nat → Nat → Kmem → Except String Kmem
  | 0, _, k => pure k
  | n + 1, a, k =>
    match walkpgdir k pgdir a.toUInt32 false with
    | some (_, pte) =>
      let e := Bytes.getU32 k.mem pte
      if e &&& PTE_P ≠ 0 then
        if (PTE_ADDR e).toNat = 0 then throw "kfree"
        else do
          let k ← kfree kend k (PTE_ADDR e).toNat
          deallocuvmLoop kend pgdir n (a + PGSIZE) (k.setWord pte 0)
      else deallocuvmLoop kend pgdir n (a + PGSIZE) k
    | none => deallocuvmLoop kend pgdir n (a + PGSIZE) k

def deallocuvm (kend : Nat) (k : Kmem) (pgdir : Nat) (oldsz newsz : UInt32) :
    Except String (UInt32 × Kmem) :=
  if newsz ≥ oldsz then pure (oldsz, k)
  else do
    let a := (PGROUNDUP newsz).toNat
    let k ← deallocuvmLoop kend pgdir (pagesBelow a oldsz.toNat) a k
    pure (newsz, k)

/-- The loop of `allocuvm` over `n` pages from `a`. -/
def allocuvmLoop (kend pgdir : Nat) (oldsz newsz : UInt32) : Nat → Nat → Kmem →
    Except String (UInt32 × Kmem)
  | 0, _, k => pure (newsz, k)
  | n + 1, a, k =>
    match kalloc k with
    | none => do
      -- "allocuvm out of memory"
      let (_, k) ← deallocuvm kend k pgdir newsz oldsz
      pure (0, k)
    | some (mem, k) => do
      -- the value `mappages` returns is not looked at
      let (_, k) ← mappages { k with mem := memset k.mem mem 0 PGSIZE } pgdir a.toUInt32 4096
        mem.toUInt32 (PTE_W ||| PTE_U)
      allocuvmLoop kend pgdir oldsz newsz n (a + PGSIZE) k

def allocuvm (kend : Nat) (k : Kmem) (pgdir : Nat) (oldsz newsz : UInt32) :
    Except String (UInt32 × Kmem) :=
  if newsz.toNat > USERTOP then pure (0, k)
  else if newsz < oldsz then pure (oldsz, k)
  else
    let a := (PGROUNDUP oldsz).toNat
    allocuvmLoop kend pgdir oldsz newsz (pagesBelow a newsz.toNat) a k

/-! ## `growproc` and `sbrk` -/

/-- The fields of `struct proc` that `growproc` reads and writes. -/
structure UProc where
  sz : UInt32
  pgdir : Nat
  deriving DecidableEq

/-- `switchuvm(p)` loads `p->pgdir`, which must be set. -/
def switchuvm (p : UProc) : Except String Unit :=
  if p.pgdir = 0 then throw "switchuvm: no pgdir" else pure ()

/-- `proc->sz = sz; switchuvm(proc); return 0;` -/
def growprocDone (k : Kmem) (p : UProc) (sz : UInt32) : Except String (Int32 × Kmem × UProc) := do
  switchuvm { p with sz := sz }
  pure (0, k, { p with sz := sz })

/-- `growproc(n)`: `sz + n` is computed in `uint`. -/
def growproc (kend : Nat) (k : Kmem) (p : UProc) (n : Int32) :
    Except String (Int32 × Kmem × UProc) :=
  if n > 0 then do
    let (sz, k) ← allocuvm kend k p.pgdir p.sz (p.sz + n.toUInt32)
    if sz = 0 then pure (-1, k, p) else growprocDone k p sz
  else if n < 0 then do
    let (sz, k) ← deallocuvm kend k p.pgdir p.sz (p.sz + n.toUInt32)
    if sz = 0 then pure (-1, k, p) else growprocDone k p sz
  else growprocDone k p p.sz

/-- `sys_sbrk` once `argint` has read `n`: the old size, or `-1`. -/
def sys_sbrk (kend : Nat) (k : Kmem) (p : UProc) (n : Int32) : Except String (Int32 × Kmem × UProc) := do
  let addr := p.sz.toInt32
  let (r, k, p) ← growproc kend k p n
  if r < 0 then pure (-1, k, p) else pure (addr, k, p)

/-! ## `setupkvm`, `freevm` and `copyuvm` -/

/-- An entry of `kmap`: a range mapped one to one, with its permissions. -/
structure Kmap where
  p : UInt32
  e : UInt32
  perm : UInt32

/-- `kmap[]`; `data` is the linker's symbol for the start of the kernel's data. -/
def kmap (data : UInt32) : List Kmap :=
  [⟨USERTOP.toUInt32, 0x100000, PTE_W⟩, ⟨0x100000, data, 0⟩, ⟨data, PHYSTOP.toUInt32, PTE_W⟩,
    ⟨0xFE000000, 0, PTE_W⟩]

/-- The loop of `setupkvm` over `kmap`: a failing `mappages` ends it with `0`. -/
def setupkvmLoop (pgdir : Nat) : List Kmap → Kmem → Except String (Option Nat × Kmem)
  | [], k => pure (some pgdir, k)
  | m :: ms, k => do
    let (r, k) ← mappages k pgdir m.p (m.e - m.p) m.p m.perm
    if r < 0 then pure (none, k) else setupkvmLoop pgdir ms k

def setupkvm (data : UInt32) (k : Kmem) : Except String (Option Nat × Kmem) :=
  match kalloc k with
  | none => pure (none, k)
  | some (pgdir, k) => setupkvmLoop pgdir (kmap data) { k with mem := memset k.mem pgdir 0 PGSIZE }

/-- The loop of `freevm` over the directory entries `is`: the table of a present one is
freed. -/
def freeTables (kend pgdir : Nat) : List Nat → Kmem → Except String Kmem
  | [], k => pure k
  | i :: is, k =>
    if pdeAt k.mem pgdir i &&& PTE_P ≠ 0 then do
      let k ← kfree kend k (PTE_ADDR (pdeAt k.mem pgdir i)).toNat
      freeTables kend pgdir is k
    else freeTables kend pgdir is k

def freevm (kend : Nat) (k : Kmem) (pgdir : Nat) : Except String Kmem := do
  if pgdir = 0 then throw "freevm: no pgdir"
  let (_, k) ← deallocuvm kend k pgdir USERTOP.toUInt32 0
  let k ← freeTables kend pgdir (List.range NPDENTRIES) k
  kfree kend k pgdir

/-- `bad:` in `copyuvm`: `freevm(d); return 0;` -/
def copyuvmBad (kend d : Nat) (k : Kmem) : Except String (Option Nat × Kmem) := do
  let k ← freevm kend k d
  pure (none, k)

/-- The loop of `copyuvm` over `n` pages from `i`, copying the parent's page into a fresh
one mapped at the same address in `d`. -/
def copyuvmLoop (kend pgdir d : Nat) : Nat → Nat → Kmem → Except String (Option Nat × Kmem)
  | 0, _, k => pure (some d, k)
  | n + 1, i, k =>
    match walkpgdir k pgdir i.toUInt32 false with
    | none => throw "copyuvm: pte should exist"
    | some (_, pte) =>
      let e := Bytes.getU32 k.mem pte
      if e &&& PTE_P = 0 then throw "copyuvm: page not present"
      else
        match kalloc k with
        | none => copyuvmBad kend d k
        | some (mem, k) => do
          let k := { k with mem := Bytes.writeBytes k.mem mem (Bytes.readBytes k.mem (PTE_ADDR e).toNat PGSIZE) }
          let (r, k) ← mappages k d i.toUInt32 4096 mem.toUInt32 (PTE_W ||| PTE_U)
          if r < 0 then copyuvmBad kend d k else copyuvmLoop kend pgdir d n (i + PGSIZE) k

def copyuvm (kend : Nat) (data : UInt32) (k : Kmem) (pgdir : Nat) (sz : UInt32) :
    Except String (Option Nat × Kmem) := do
  let (d, k) ← setupkvm data k
  match d with
  | none => pure (none, k)
  | some d => copyuvmLoop kend pgdir d (pagesBelow 0 sz.toNat) 0 k

/-! ## What `growproc` reports -/

theorem deallocuvm_of_ge {kend pgdir : Nat} {k : Kmem} {oldsz newsz : UInt32} (h : newsz ≥ oldsz) :
    deallocuvm kend k pgdir oldsz newsz = .ok (oldsz, k) :=
  if_pos h

theorem deallocuvm_of_lt {kend pgdir : Nat} {k : Kmem} {oldsz newsz : UInt32} (h : newsz < oldsz) :
    deallocuvm kend k pgdir oldsz newsz =
      (fun k => (newsz, k)) <$>
        deallocuvmLoop kend pgdir (pagesBelow (PGROUNDUP newsz).toNat oldsz.toNat) (PGROUNDUP newsz).toNat k := by
  rw [deallocuvm, if_neg (UInt32.not_le.mpr h)]
  dsimp only
  cases deallocuvmLoop kend pgdir (pagesBelow (PGROUNDUP newsz).toNat oldsz.toNat)
    (PGROUNDUP newsz).toNat k <;> rfl

theorem growprocDone_self {k : Kmem} {p : UProc} (hp : p.pgdir ≠ 0) :
    growprocDone k p p.sz = .ok (0, k, p) := by
  simp only [growprocDone, switchuvm, if_neg hp]
  rfl

/-- A shrink to size `0` frees every page below the old size, and `growproc` reports it
as a failure, with the process's size left as it was. -/
theorem growproc_shrink_to_zero (kend : Nat) (k : Kmem) (p : UProc) {n : Int32} (hn : n < 0)
    (hzero : p.sz + n.toUInt32 = 0) (hsz : p.sz ≠ 0) :
    growproc kend k p n = (fun k' => (-1, k', p)) <$> deallocuvmLoop kend p.pgdir (pagesBelow 0 p.sz.toNat) 0 k := by
  have hlt : p.sz + n.toUInt32 < p.sz := by
    rw [hzero]
    exact UInt32.pos_iff_ne_zero.mpr hsz
  have h0 : (PGROUNDUP 0).toNat = 0 := rfl
  rw [growproc, if_neg (Int32.lt_asymm hn), if_pos hn, deallocuvm_of_lt hlt, hzero, h0]
  cases deallocuvmLoop kend p.pgdir (pagesBelow 0 p.sz.toNat) 0 k <;> rfl

/-- A shrink past zero wraps: `sz + n` is then at least `sz`, `deallocuvm` returns `sz`,
and `growproc` reports success with nothing changed. -/
theorem growproc_shrink_wraps (kend : Nat) (k : Kmem) (p : UProc) {n : Int32} (hn : n < 0)
    (hwrap : p.sz ≤ p.sz + n.toUInt32) (hsz : p.sz ≠ 0) (hp : p.pgdir ≠ 0) :
    growproc kend k p n = .ok (0, k, p) := by
  rw [growproc, if_neg (Int32.lt_asymm hn), if_pos hn, deallocuvm_of_ge hwrap]
  show (if p.sz = 0 then pure (-1, k, p) else growprocDone k p p.sz) = _
  rw [if_neg hsz, growprocDone_self hp]

theorem sys_sbrk_eq (kend : Nat) (k : Kmem) (p : UProc) (n : Int32) :
    sys_sbrk kend k p n =
      (fun (r : Int32 × Kmem × UProc) => (if r.1 < 0 then -1 else p.sz.toInt32, r.2)) <$>
        growproc kend k p n := by
  unfold sys_sbrk
  cases growproc kend k p n with
  | error e => rfl
  | ok r =>
    obtain ⟨r, k', p'⟩ := r
    show (if r < 0 then pure (-1, k', p') else pure (p.sz.toInt32, k', p')) =
      Except.ok (if r < 0 then -1 else p.sz.toInt32, k', p')
    by_cases hr : r < 0
    · rw [if_pos hr, if_pos hr]
      rfl
    · rw [if_neg hr, if_neg hr]
      rfl

/-- A process of one page: its directory at `0x1000`, whose entry 0 points at the table
at `0x2000`, whose entry 0 maps address 0 to the page at `0x3000`; no page is free. -/
def onePageMem : Kmem := ⟨Bytes.setU32 (Bytes.setU32 (fun _ => 0) 0x1000 0x2007) 0x2000 0x3007, []⟩

def onePageProc : UProc := ⟨4096, 0x1000⟩

/-- With the kernel ending at `0x1000`: `sbrk(-4096)` frees the process's only page and
unmaps it, yet returns `-1` and leaves `sz` at `4096`; `sbrk(-8192)` wraps `sz + n` and
returns the old size as for a success, with `sz` still `4096`, not `4096 - 8192`. -/
theorem sbrk_negative_breaks :
    (∃ k', sys_sbrk 0x1000 onePageMem onePageProc (-4096) = .ok (-1, k', onePageProc) ∧
      pte onePageMem.mem 0x1000 0 = 0x3007 ∧ pte k'.mem 0x1000 0 = 0 ∧ k'.free = [0x3000]) ∧
    sys_sbrk 0x1000 onePageMem onePageProc (-8192) = .ok (4096, onePageMem, onePageProc) ∧
      (onePageProc.sz.toNat : Int) + (-8192 : Int32).toInt < 0 := by
  have hfree := growproc_shrink_to_zero 0x1000 onePageMem onePageProc
    (show (-4096 : Int32) < 0 by decide) (by decide) (by decide)
  have hwrap := growproc_shrink_wraps 0x1000 onePageMem onePageProc
    (show (-8192 : Int32) < 0 by decide) (by decide) (by decide) (by decide)
  -- the loop frees the page at `0x3000` and clears the entry at `0x2000`
  have hloop : deallocuvmLoop 0x1000 0x1000 1 0 onePageMem =
      .ok ((⟨memset onePageMem.mem 0x3000 1 PGSIZE, [0x3000]⟩ : Kmem).setWord 0x2000 0) := rfl
  refine ⟨⟨(⟨memset onePageMem.mem 0x3000 1 PGSIZE, [0x3000]⟩ : Kmem).setWord 0x2000 0, ?_,
    by decide, by decide, rfl⟩, ?_, by decide⟩
  · rw [sys_sbrk_eq, hfree]
    show (fun (r : Int32 × Kmem × UProc) => _) <$> ((fun k' => (-1, k', onePageProc)) <$>
      deallocuvmLoop 0x1000 0x1000 1 0 onePageMem) = _
    rw [hloop]
    rfl
  · rw [sys_sbrk_eq, hwrap]
    rfl

/-! ## `setupkvm` keeps what it takes -/

theorem walkpgdir_free_suffix {k k1 : Kmem} {pgdir q : Nat} {va : UInt32} {create : Bool}
    (h : walkpgdir k pgdir va create = some (k1, q)) : k1.free <:+ k.free := by
  cases ht : tableAt k.mem pgdir (PDX va) with
  | some t =>
    rw [walkpgdir_present ht] at h
    obtain ⟨rfl, -⟩ := Prod.mk.inj (Option.some.inj h)
    exact List.suffix_refl _
  | none =>
    cases create with
    | false => rw [walkpgdir_absent ht] at h; cases h
    | true =>
      cases hf : k.free with
      | nil => rw [walkpgdir_nomem ht hf] at h; cases h
      | cons p rest =>
        rw [walkpgdir_alloc ht hf] at h
        obtain ⟨rfl, -⟩ := Prod.mk.inj (Option.some.inj h)
        exact List.suffix_cons p rest

/-- `mappages` only ever takes pages off the free list, whatever it returns. -/
theorem mappagesLoop_free_suffix {pgdir : Nat} {perm : UInt32} :
    ∀ (n : Nat) {k k' : Kmem} {a pa : UInt32} {r : Int},
      mappagesLoop pgdir perm n k a pa = .ok (r, k') → k'.free <:+ k.free := by
  intro n
  induction n with
  | zero =>
    intro k k' a pa r h
    rw [mappagesLoop] at h
    cases hw : walkpgdir k pgdir a true with
    | none =>
      rw [hw] at h
      cases h
      exact List.suffix_refl _
    | some w =>
      obtain ⟨k1, q⟩ := w
      rw [hw] at h
      dsimp only at h
      split at h
      · cases h
      · cases h
        show k1.free <:+ k.free
        exact walkpgdir_free_suffix hw
  | succ n ih =>
    intro k k' a pa r h
    rw [mappagesLoop] at h
    cases hw : walkpgdir k pgdir a true with
    | none =>
      rw [hw] at h
      cases h
      exact List.suffix_refl _
    | some w =>
      obtain ⟨k1, q⟩ := w
      rw [hw] at h
      dsimp only at h
      split at h
      · cases h
      · exact (ih h).trans (show k1.free <:+ k.free from walkpgdir_free_suffix hw)

theorem setupkvmLoop_free_suffix {pgdir : Nat} :
    ∀ (ms : List Kmap) {k k' : Kmem} {r : Option Nat},
      setupkvmLoop pgdir ms k = .ok (r, k') → k'.free <:+ k.free := by
  intro ms
  induction ms with
  | nil =>
    intro k k' r h
    cases h
    exact List.suffix_refl _
  | cons m ms ih =>
    intro k k' r h
    simp only [setupkvmLoop] at h
    cases hm : mappages k pgdir m.p (m.e - m.p) m.p m.perm with
    | error e => rw [hm] at h; cases h
    | ok res =>
      obtain ⟨r1, k1⟩ := res
      rw [hm] at h
      have hk1 := mappagesLoop_free_suffix _ hm
      change (if r1 < 0 then pure (none, k1) else setupkvmLoop pgdir ms k1) = _ at h
      split at h
      · cases h
        exact hk1
      · exact (ih h).trans hk1

/-- `setupkvm` with one free page: the page becomes the directory, the first `mappages`
finds no page for a table and fails without writing, and `setupkvm` returns `0`. -/
theorem setupkvm_one_page (data : UInt32) (mem : Nat → UInt8) (p : Nat) :
    setupkvm data ⟨mem, [p]⟩ = .ok (none, ⟨memset mem p 0 PGSIZE, []⟩) := by
  have hnone : tableAt (memset mem p 0 PGSIZE) p (PDX (PGROUNDDOWN USERTOP.toUInt32)) = none :=
    tableAt_eq_none_of_zero (fun x hx => memset_apply_of_inPage 0 hx) (PDX_lt _)
  have hwalk : walkpgdir ⟨memset mem p 0 PGSIZE, []⟩ p (PGROUNDDOWN USERTOP.toUInt32) true = none :=
    walkpgdir_nomem hnone rfl
  simp only [setupkvm, kalloc, kmap, setupkvmLoop, mappages]
  rw [mappagesLoop, hwalk]
  rfl

/-- `copyuvm` with one free page, whatever the parent: `setupkvm` takes the page and
fails, and `copyuvm` returns `0` with the page neither free nor given to anyone. -/
theorem copyuvm_setupkvm_leaks (kend : Nat) (data : UInt32) (mem : Nat → UInt8) (p pgdir : Nat)
    (sz : UInt32) :
    copyuvm kend data ⟨mem, [p]⟩ pgdir sz = .ok (none, ⟨memset mem p 0 PGSIZE, []⟩) := by
  simp only [copyuvm, setupkvm_one_page]
  rfl

end Xv6
