import Xv6.Vm.Uvm

/-!
# The user stack `exec` builds

`exec.c`, once the program is loaded: it allocates one page at the next page boundary
for the stack, copies each argument string with its NUL below the top of the stack, at
an address rounded down to 4, and then copies `ustack`, the fake return PC, `argc`, the
`argv` pointer and the strings' addresses ended by `0`. `copyout` (`vm.c`) writes page
by page through the new directory into any present user page, and `sys_exec`
(`sysfile.c`) hands `exec` at most `MAXARG - 1` strings (`fetchArgv_length`).

Nothing compares `sp` with the bottom of the stack page. Thirty-one strings of 131 bytes
fill 4092 bytes of it, and 136 of the 140 bytes of `ustack` then land below it, in the
program's own last page (`exec_stack_overflows`).
-/

namespace Xv6

/-- `#define MAXARG 32` -/
def MAXARG : Nat := 32

/-! ## `sys_exec`'s argument vector -/

/-- The loop of `sys_exec` from entry `i` of the user's `argv` array: the strings before
the null pointer, or `none` for `return -1`. -/
def fetchArgv (u : UserView) (uargv : UInt32) (i : Nat) : Option (List (List UInt8)) :=
  if i ≥ MAXARG then none
  else do
    let uarg ← u.fetchint (uargv + 4 * i.toUInt32)
    if uarg = 0 then some []
    else
      let len ← u.fetchstr uarg.toUInt32
      let rest ← fetchArgv u uargv (i + 1)
      some (Bytes.readBytes u.mem uarg.toUInt32.toNat len :: rest)
termination_by MAXARG - i

/-- `sys_exec` passes `exec` fewer than `MAXARG` strings: the null pointer that ends
the vector must fit in `argv[MAXARG]`. -/
theorem fetchArgv_length (u : UserView) (uargv : UInt32) :
    ∀ (i : Nat) {argv : List (List UInt8)}, fetchArgv u uargv i = some argv →
      i + argv.length < MAXARG := by
  intro i
  induction i using fetchArgv.induct with
  | case1 i hi =>
    intro argv h
    rw [fetchArgv, if_pos hi] at h
    cases h
  | case2 i hi ih =>
    intro argv h
    rw [fetchArgv, if_neg hi] at h
    simp only [Option.bind_eq_bind, Option.bind_eq_some_iff] at h
    obtain ⟨uarg, -, h⟩ := h
    split at h
    · cases h
      simp only [List.length_nil, Nat.add_zero]
      exact Nat.lt_of_not_le hi
    · simp only [Option.bind_eq_some_iff] at h
      obtain ⟨len, -, rest, hrest, h⟩ := h
      cases h
      have := ih hrest
      simp only [List.length_cons]
      omega

/-! ## `copyout` -/

/-- `uva2ka(pgdir, uva)`: the kernel address of the present user page at `uva`, `0` when
there is none. Without a page table `walkpgdir` returns a null pointer that `uva2ka`
reads through; the model stops there. -/
def uva2ka (k : Kmem) (pgdir : Nat) (uva : UInt32) : Except String Nat :=
  match walkpgdir k pgdir uva false with
  | none => throw "uva2ka: null pte"
  | some (_, pte) =>
    let e := Bytes.getU32 k.mem pte
    if e &&& PTE_P = 0 then pure 0
    else if e &&& PTE_U = 0 then pure 0
    else pure (PTE_ADDR e).toNat

theorem toNat_sub_PGROUNDDOWN (va : UInt32) : (va - PGROUNDDOWN va).toNat = va.toNat % PGSIZE := by
  have h := PGROUNDDOWN_toNat va
  have hle : PGROUNDDOWN va ≤ va := by
    rw [UInt32.le_iff_toNat_le, h]
    exact Nat.div_mul_le_self _ _
  rw [UInt32.toNat_sub_of_le _ _ hle, h]
  have := Nat.div_add_mod va.toNat 4096
  simp only [PGSIZE]
  omega

/-- `copyout(pgdir, va, p, len)`, with `buf` the `len` bytes at `p`. -/
def copyout (k : Kmem) (pgdir : Nat) (va : UInt32) (buf : List UInt8) : Except String (Int × Kmem) :=
  if h : buf = [] then pure (0, k)
  else do
    let va0 := PGROUNDDOWN va
    let pa0 ← uva2ka k pgdir va0
    if pa0 = 0 then pure (-1, k)
    else
      let n := min (PGSIZE - (va - va0).toNat) buf.length
      copyout { k with mem := Bytes.writeBytes k.mem (pa0 + (va - va0).toNat) (buf.take n) } pgdir
        (va0 + 4096) (buf.drop n)
termination_by buf.length
decreasing_by
  have h1 := toNat_sub_PGROUNDDOWN va
  have h2 := Nat.mod_lt va.toNat (show 0 < PGSIZE by decide)
  have h3 : 0 < buf.length := List.length_pos_iff.mpr h
  simp only [List.length_drop]
  omega

theorem copyout_nil (k : Kmem) (pgdir : Nat) (va : UInt32) : copyout k pgdir va [] = .ok (0, k) := by
  rw [copyout, dif_pos rfl]
  rfl

/-- One page of `copyout`: the bytes that fit in the page of `va` go to its kernel
address, and the rest to the next page. -/
theorem copyout_step {k : Kmem} {pgdir pa : Nat} {va : UInt32} {buf : List UInt8} (hbuf : buf ≠ [])
    (hpa : uva2ka k pgdir (PGROUNDDOWN va) = .ok pa) (hpa0 : pa ≠ 0) :
    copyout k pgdir va buf =
      copyout { k with mem := (Bytes.writeBytes k.mem (pa + va.toNat % PGSIZE)
          (buf.take (min (PGSIZE - va.toNat % PGSIZE) buf.length))) } pgdir
        (PGROUNDDOWN va + 4096) (buf.drop (min (PGSIZE - va.toNat % PGSIZE) buf.length)) := by
  rw [copyout, dif_neg hbuf]
  simp only [hpa, toNat_sub_PGROUNDDOWN]
  exact if_neg hpa0

/-- A copy that fits in the page of `va` is one write at the page's kernel address. -/
theorem copyout_in_page {k : Kmem} {pgdir pa : Nat} {va : UInt32} {buf : List UInt8}
    (hpa : uva2ka k pgdir (PGROUNDDOWN va) = .ok pa) (hpa0 : pa ≠ 0)
    (hfit : va.toNat % PGSIZE + buf.length ≤ PGSIZE) :
    copyout k pgdir va buf = .ok (0, { k with mem := Bytes.writeBytes k.mem (pa + va.toNat % PGSIZE) buf }) := by
  by_cases hbuf : buf = []
  · subst hbuf
    rw [copyout_nil, Bytes.writeBytes_nil]
  · rw [copyout_step hbuf hpa hpa0, Nat.min_eq_right (by omega), List.take_length, List.drop_length,
      copyout_nil]

/-- `uva2ka` reads the directory entry and the table entry of its page, nothing else. -/
theorem uva2ka_congr {k k' : Kmem} {pgdir : Nat} {va : UInt32}
    (hroot : ∀ x, InPage pgdir x → k'.mem x = k.mem x)
    (htab : ∀ t, tableAt k.mem pgdir (PDX va) = some t → ∀ x, InPage t x → k'.mem x = k.mem x) :
    uva2ka k' pgdir va = uva2ka k pgdir va := by
  have ht : tableAt k'.mem pgdir (PDX va) = tableAt k.mem pgdir (PDX va) :=
    tableAt_congr (PDX_lt va) hroot
  unfold uva2ka
  cases h : tableAt k.mem pgdir (PDX va) with
  | none => rw [walkpgdir_absent (ht.trans h), walkpgdir_absent h]
  | some t =>
    rw [walkpgdir_present (ht.trans h), walkpgdir_present h]
    have hx := PTX_lt va
    have he : Bytes.getU32 k'.mem (t + 4 * PTX va) = Bytes.getU32 k.mem (t + 4 * PTX va) :=
      Bytes.getU32_congr fun x h1 h2 => htab t h x (by simp only [InPage, PGSIZE, NPTENTRIES] at *; omega)
    simp only [he]

/-! ## The stack -/

/-- The argument loop of `exec` from `argv[argc]` on: each string goes below `sp` with
its NUL, at an address rounded down to 4, which `ptrs` keeps for `ustack`. -/
def pushArgs (pgdir : Nat) : List (List UInt8) → Nat → UInt32 → Kmem → List UInt32 →
    Except String (Option (UInt32 × List UInt32) × Kmem)
  | [], _, sp, k, ptrs => pure (some (sp, ptrs), k)
  | s :: rest, argc, sp, k, ptrs =>
    if argc ≥ MAXARG then pure (none, k)
    else do
      let sp := (sp - (s.length + 1).toUInt32) &&& ~~~3
      let (r, k) ← copyout k pgdir sp (s ++ [0])
      if r < 0 then pure (none, k) else pushArgs pgdir rest (argc + 1) sp k (ptrs ++ [sp])

/-- `exec` from the allocation of the stack page to the copy of `ustack`, from the size
`sz` the loaded program has: the new size and `sp`, or `none` for `goto bad`. -/
def execStack (kend : Nat) (k : Kmem) (pgdir : Nat) (sz : UInt32) (argv : List (List UInt8)) :
    Except String (Option (UInt32 × UInt32) × Kmem) := do
  let sz := PGROUNDUP sz
  let (sz, k) ← allocuvm kend k pgdir sz (sz + 4096)
  if sz = 0 then return (none, k)
  let (r, k) ← pushArgs pgdir argv 0 sz k []
  match r with
  | none => pure (none, k)
  | some (sp, ptrs) =>
    let argc := ptrs.length
    let ustack : List UInt32 := [0xffffffff, argc.toUInt32, sp - ((argc + 1) * 4).toUInt32] ++ ptrs ++ [0]
    let sp := sp - ((3 + argc + 1) * 4).toUInt32
    let (r, k) ← copyout k pgdir sp (ustack.flatMap Bytes.ofU32)
    if r < 0 then pure (none, k) else pure (some (sz, sp), k)

/-- A run of the stack code in which every step succeeds: `sp` ends below `ustack`. -/
theorem execStack_ok {kend pgdir : Nat} {k k1 k2 k3 : Kmem} {sz sz' sp : UInt32}
    {argv : List (List UInt8)} {ptrs : List UInt32}
    (halloc : allocuvm kend k pgdir (PGROUNDUP sz) (PGROUNDUP sz + 4096) = .ok (sz', k1)) (hsz : sz' ≠ 0)
    (hpush : pushArgs pgdir argv 0 sz' k1 [] = .ok (some (sp, ptrs), k2))
    (hcopy : copyout k2 pgdir (sp - ((3 + ptrs.length + 1) * 4).toUInt32)
      (([0xffffffff, ptrs.length.toUInt32, sp - ((ptrs.length + 1) * 4).toUInt32] ++ ptrs ++ [0]).flatMap
        Bytes.ofU32) = .ok (0, k3)) :
    execStack kend k pgdir sz argv = .ok (some (sz', sp - ((3 + ptrs.length + 1) * 4).toUInt32), k3) := by
  unfold execStack
  dsimp only
  rw [halloc]
  simp only [bind, Except.bind, if_neg hsz, hpush, hcopy]
  rfl

/-- Rounding a multiple of 4 down to 4 changes nothing. -/
theorem and_not_three_of_dvd {x : UInt32} (h : x.toNat % 4 = 0) : (x &&& ~~~3).toNat = x.toNat := by
  rw [Bits.toNat_and_not_low x 3 (show (3 : UInt32).toNat = 2 ^ 2 - 1 from rfl) (by decide)]
  omega

/-- The next string's address, when the string and its NUL take a multiple of 4 bytes
and fit above `vb`. -/
theorem pushArgs_sp {sp vb : UInt32} {len : Nat} (hsp : sp.toNat % 4 = 0) (hlen : len % 4 = 0)
    (hfit : vb.toNat + len ≤ sp.toNat) :
    ((sp - len.toUInt32) &&& ~~~3).toNat = sp.toNat - len := by
  have hlt : len < 2 ^ 32 := by have := sp.toNat_lt; omega
  have hsub : (sp - len.toUInt32).toNat = sp.toNat - len := by
    rw [UInt32.toNat_sub_of_le _ _ (by rw [UInt32.le_iff_toNat_le, Word32.toNat_toUInt32_of_lt hlt]; omega),
      Word32.toNat_toUInt32_of_lt hlt]
  rw [and_not_three_of_dvd (by rw [hsub]; omega), hsub]

theorem PGROUNDDOWN_of_inPage {va vb : UInt32} (hvb : vb.toNat % PGSIZE = 0)
    (h1 : vb.toNat ≤ va.toNat) (h2 : va.toNat < vb.toNat + PGSIZE) : PGROUNDDOWN va = vb := by
  apply UInt32.toNat_inj.mp
  rw [PGROUNDDOWN_toNat]
  simp only [PGSIZE] at *
  omega

/-- One string that `copyout` writes whole: the loop goes on below it. -/
theorem pushArgs_cons {pgdir argc : Nat} {s : List UInt8} {rest : List (List UInt8)} {sp : UInt32}
    {k k' : Kmem} {ptrs : List UInt32} (hargc : argc < MAXARG)
    (hcopy : copyout k pgdir ((sp - (s.length + 1).toUInt32) &&& ~~~3) (s ++ [0]) = .ok (0, k')) :
    pushArgs pgdir (s :: rest) argc sp k ptrs =
      pushArgs pgdir rest (argc + 1) ((sp - (s.length + 1).toUInt32) &&& ~~~3) k'
        (ptrs ++ [(sp - (s.length + 1).toUInt32) &&& ~~~3]) := by
  rw [pushArgs, if_neg (Nat.not_le_of_lt hargc)]
  dsimp only
  rw [hcopy]
  rfl

section Stack

variable {pgdir ps : Nat} {vb : UInt32} {k : Kmem}

/-- `exec`'s strings of one length `L`, with `L + 1` a multiple of 4, pushed while they
fit in the page at `vb` mapped to `ps`: each lands `L + 1` bytes below the last, and only
the page `ps` is written. The induction is on the number of strings. -/
theorem pushArgs_in_page (s : List UInt8) (hlen : (s.length + 1) % 4 = 0)
    (hs : ∀ k' : Kmem, (∀ x, ¬ InPage ps x → k'.mem x = k.mem x) → uva2ka k' pgdir vb = .ok ps)
    (hps : ps ≠ 0) (hvb : vb.toNat % PGSIZE = 0) :
    ∀ (m argc : Nat) (sp : UInt32) (k1 : Kmem) (ptrs : List UInt32),
      (∀ x, ¬ InPage ps x → k1.mem x = k.mem x) → sp.toNat % 4 = 0 →
      vb.toNat + m * (s.length + 1) ≤ sp.toNat → sp.toNat ≤ vb.toNat + PGSIZE → argc + m ≤ MAXARG →
      ∃ k2 ptrs', pushArgs pgdir (List.replicate m s) argc sp k1 ptrs =
          .ok (some ((sp.toNat - m * (s.length + 1)).toUInt32, ptrs'), k2) ∧
        (∀ x, ¬ InPage ps x → k2.mem x = k.mem x) ∧ ptrs'.length = ptrs.length + m := by
  intro m
  induction m with
  | zero =>
    intro argc sp k1 ptrs hk1 _ _ _ _
    refine ⟨k1, ptrs, ?_, hk1, rfl⟩
    rw [Nat.zero_mul, Nat.sub_zero, show sp.toNat.toUInt32 = sp from UInt32.ofNat_toNat]
    rfl
  | succ m ih =>
    intro argc sp k1 ptrs hk1 hsp hfit htop hargc
    rw [Nat.succ_mul] at hfit
    -- the string and its NUL go just below `sp`, inside the page
    have hsp' := pushArgs_sp hsp hlen (show vb.toNat + (s.length + 1) ≤ sp.toNat by omega)
    set sp' := (sp - (s.length + 1).toUInt32) &&& ~~~3 with hsp'def
    have hround : PGROUNDDOWN sp' = vb :=
      PGROUNDDOWN_of_inPage hvb (by rw [hsp']; omega) (by rw [hsp']; omega)
    have hoff : sp'.toNat % PGSIZE = sp'.toNat - vb.toNat := by
      simp only [PGSIZE] at *
      rw [hsp']
      omega
    have hbuf : (s ++ [0]).length = s.length + 1 := by simp
    have hend : sp'.toNat % PGSIZE + (s ++ [0]).length ≤ PGSIZE := by
      rw [hoff, hbuf, hsp']
      simp only [PGSIZE] at *
      omega
    have hcopy := copyout_in_page (hround ▸ hs k1 hk1) hps hend
    -- the bytes written stay in the page `ps`
    have hk1' : ∀ x, ¬ InPage ps x →
        ({ k1 with mem := Bytes.writeBytes k1.mem (ps + sp'.toNat % PGSIZE) (s ++ [0]) } : Kmem).mem x =
          k.mem x := by
      intro x hx
      have hin : x < ps + sp'.toNat % PGSIZE ∨ ps + sp'.toNat % PGSIZE + (s ++ [0]).length ≤ x := by
        simp only [InPage] at hx
        omega
      show Bytes.writeBytes k1.mem _ _ x = k.mem x
      rcases hin with h | h
      · rw [Bytes.writeBytes_apply_of_lt h]
        exact hk1 x hx
      · rw [Bytes.writeBytes_apply_of_ge h]
        exact hk1 x hx
    obtain ⟨k2, ptrs', hrun, hk2, hlen'⟩ := ih (argc + 1) sp' _ (ptrs ++ [sp']) hk1'
      (by rw [hsp']; omega) (by rw [hsp']; omega) (by rw [hsp']; omega) (by omega)
    refine ⟨k2, ptrs', ?_, hk2, by rw [hlen', List.length_append, List.length_singleton]; omega⟩
    rw [List.replicate_succ, pushArgs_cons (by omega) hcopy, hrun, hsp', Nat.sub_sub, Nat.succ_mul,
      Nat.add_comm (m * _)]

end Stack

/-! ## Thirty-one long arguments -/

/-- A loaded program of one page: the directory at `0x1000` maps user page 0 to `0x3000`
through the table at `0x2000`, user-writable, and `0x4000` is the one free page. -/
def progMem : Kmem := ⟨Bytes.setU32 (Bytes.setU32 (fun _ => 0) 0x1000 0x2007) 0x2000 0x3007, [0x4000]⟩

/-- `bigargtest`'s vector with one string fewer, so that `sys_exec` passes it on: 31
strings of 131 bytes, 132 with their NUL. -/
def longArgs : List (List UInt8) := List.replicate 31 (List.replicate 131 0x61)

/-- `progMem` once `allocuvm` has mapped the stack page, user page 1, to `0x4000`. -/
def progStack : Kmem := ⟨Bytes.setU32 (memset progMem.mem 0x4000 0 PGSIZE) 0x2004 0x4007, []⟩

/-- Below `0x3000` lie the directory and the table of `progStack`: memory that agrees
with it there translates the first directory entry's pages as it does. -/
theorem uva2ka_progStack {k' : Kmem} {va : UInt32} (hva : PDX va = 0)
    (hk : ∀ x, x < 0x3000 → k'.mem x = progStack.mem x) :
    uva2ka k' 0x1000 va = uva2ka progStack 0x1000 va := by
  have ht : tableAt progStack.mem 0x1000 (PDX va) = some 0x2000 := by
    rw [hva]
    rfl
  refine uva2ka_congr (fun x hx => hk x ?_) (fun t htab x hx => hk x ?_)
  · simp only [InPage, PGSIZE] at hx
    omega
  · rw [ht] at htab
    cases htab
    simp only [InPage, PGSIZE] at hx
    omega

/-- `exec` of 31 strings of 132 bytes with their NUL, which `sys_exec` accepts: they
fill the stack page at user `4096` all but 4 bytes, and the 140 bytes of `ustack` then go
below it, 136 of them into the program's page at user `0`, still mapped. `exec` succeeds
with `sp` under the stack page and the program's last bytes overwritten. No longer vector
gets through `sys_exec`. -/
theorem exec_stack_overflows :
    longArgs.length = MAXARG - 1 ∧
      (∀ u uargv argv, fetchArgv u uargv 0 = some argv → argv.length ≤ longArgs.length) ∧
      ∃ sp k', execStack 0x1000 progMem 0x1000 4096 longArgs = .ok (some (8192, sp), k') ∧
        sp = 3960 ∧ sp.toNat < 8192 - PGSIZE ∧ pte k'.mem 0x1000 0 = 0x3007 ∧
        progMem.mem (0x3000 + 3960) = 0 ∧ k'.mem (0x3000 + 3960) = 0xFF := by
  have halloc : allocuvm 0x1000 progMem 0x1000 (PGROUNDUP 4096) (PGROUNDUP 4096 + 4096) =
      .ok (8192, progStack) := rfl
  have hstack : ∀ k' : Kmem, (∀ x, ¬ InPage 0x4000 x → k'.mem x = progStack.mem x) →
      uva2ka k' 0x1000 4096 = .ok 0x4000 := by
    intro k' hk
    rw [uva2ka_progStack (by decide) fun x hx => hk x (by simp only [InPage, PGSIZE]; omega)]
    rfl
  -- the strings fill the stack page down to user address 4100
  have hL : (List.replicate 131 (0x61 : UInt8)).length + 1 = 132 := by
    rw [List.length_replicate]
  obtain ⟨k2, ptrs, hpush, hk2, hlen⟩ := pushArgs_in_page (List.replicate 131 0x61)
    (by rw [hL]) hstack (by decide) (by decide) 31 0 8192 progStack [] (fun _ _ => rfl)
    (by decide) (by rw [hL]; decide) (by decide) (by decide)
  rw [List.length_nil, Nat.zero_add] at hlen
  set buf := ([0xffffffff, ptrs.length.toUInt32, (4100 : UInt32) - ((ptrs.length + 1) * 4).toUInt32] ++
    ptrs ++ [0]).flatMap Bytes.ofU32 with hbuf
  have hbuflen : buf.length = 140 := by
    rw [hbuf, Bytes.length_flatMap_ofU32]
    simp only [List.length_append, List.length_cons, List.length_nil, hlen]
  -- `ustack` starts at user 3960, in the program's page at `0x3000`
  have hlow : uva2ka k2 0x1000 (PGROUNDDOWN 3960) = .ok 0x3000 := by
    rw [uva2ka_progStack (by decide) fun x hx => hk2 x (by simp only [InPage, PGSIZE]; omega)]
    rfl
  set k3 : Kmem := { k2 with mem := Bytes.writeBytes k2.mem (0x3000 + 3960) (buf.take 136) } with hk3
  have hk3low : ∀ x, x < 0x3000 → k3.mem x = progStack.mem x := by
    intro x hx
    rw [hk3]
    show Bytes.writeBytes k2.mem _ _ x = _
    rw [Bytes.writeBytes_apply_of_lt (by omega)]
    exact hk2 x (by simp only [InPage, PGSIZE]; omega)
  have hhigh : uva2ka k3 0x1000 (PGROUNDDOWN 4096) = .ok 0x4000 := by
    rw [uva2ka_progStack (by decide) hk3low]
    rfl
  have hcopy : copyout k2 0x1000 3960 buf =
      .ok (0, { k3 with mem := Bytes.writeBytes k3.mem 0x4000 (buf.drop 136) }) := by
    have hne : buf ≠ [] := List.ne_nil_of_length_pos (by omega)
    rw [copyout_step hne hlow (by decide)]
    have h136 : min (PGSIZE - (3960 : UInt32).toNat % PGSIZE) buf.length = 136 := by
      rw [hbuflen]
      rfl
    rw [h136]
    refine copyout_in_page hhigh (by decide) ?_
    rw [List.length_drop, hbuflen]
    decide
  have hsp : ((8192 : UInt32).toNat - 31 * 132).toUInt32 = 4100 := rfl
  rw [hL, hsp] at hpush
  have hsp3 : (4100 : UInt32) - ((3 + ptrs.length + 1) * 4).toUInt32 = 3960 := by
    rw [hlen]
    rfl
  have hexec := execStack_ok halloc (by decide) hpush (by rw [hsp3, ← hbuf]; exact hcopy)
  rw [hsp3] at hexec
  -- the last write, of `ustack`'s last word at `0x4000`, leaves the directory and the table
  have hfin : ∀ x, x < 0x3000 → Bytes.writeBytes k3.mem 0x4000 (buf.drop 136) x = progStack.mem x := by
    intro x hx
    rw [Bytes.writeBytes_apply_of_lt (by omega)]
    exact hk3low x hx
  -- no argument vector `sys_exec` accepts is longer
  have hmax : ∀ u uargv argv, fetchArgv u uargv 0 = some argv → argv.length ≤ longArgs.length := by
    intro u uargv argv h
    have hlt := fetchArgv_length u uargv 0 h
    rw [show longArgs.length = 31 from rfl]
    simp only [MAXARG] at hlt
    omega
  refine ⟨rfl, hmax, 3960, _, hexec, rfl, by decide, ?_, rfl, ?_⟩
  · show pte (Bytes.writeBytes k3.mem 0x4000 (buf.drop 136)) 0x1000 0 = 0x3007
    rw [pte_congr (by decide) (fun x hx => hfin x ?_) (fun t ht x hx => hfin x ?_)]
    · rfl
    · simp only [InPage, PGSIZE] at hx
      omega
    · rw [show tableAt progStack.mem 0x1000 (0 / NPTENTRIES) = some 0x2000 from rfl] at ht
      cases ht
      simp only [InPage, PGSIZE] at hx
      omega
  · show Bytes.writeBytes k3.mem 0x4000 (buf.drop 136) (0x3000 + 3960) = 0xFF
    rw [Bytes.writeBytes_apply_of_lt (by decide), hk3]
    show Bytes.writeBytes k2.mem (0x3000 + 3960) (buf.take 136) (0x3000 + 3960) = 0xFF
    rw [Bytes.writeBytes_apply_mem le_rfl (by rw [List.length_take, hbuflen]; decide)]
    simp [hbuf, Bytes.ofU32]

end Xv6
