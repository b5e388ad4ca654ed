import Mathlib
import Xv6.Vm.Exec
import Xv6.Vm.Space

/-!
# What `copyout` writes

`copyout(pgdir, va, p, len)` of `vm.c` translates each page of `[va, va + len)` with
`uva2ka` and copies the bytes of that page to the frame it finds. `uaddr` is the kernel
address a user byte translates to: the frame of a page mapped present for the user, plus
the offset, when the frame is not `0` (`uva2ka` returns the frame itself, and `copyout`
takes `0` for a failure).

The copy reads the translation while it writes, so it is exact only for a range whose
bytes land neither in the directory nor in a page table the range is translated through,
nor two on one kernel address (`Separated`). On a separated range `copyout` returns `0`
exactly when every byte translates, with the bytes of `p` at their kernel addresses and
every other byte as it was; otherwise the first byte that does not translate decides:
`uva2ka` reads through the null pointer `walkpgdir` returns when the page table is absent,
and `copyout` returns `-1` when it is there (`copyout_separated`).

Every range of a directory the kernel builds is separated, as long as it does not wrap
onto itself: a user entry maps a page of its own, never the directory or a table, and no
two user entries one page (`UvmWf.separated`). There a byte translates exactly when its
page's entry is present with `PTE_U`, and the copy keeps the directory as the kernel
keeps it (`copyout_exact`).
-/

namespace Xv6

/-- The kernel address of user address `a` through `pgdir`, where `uva2ka` finds its page
at a frame other than `0`. -/
def uaddr (k : Kmem) (pgdir : Nat) (a : UInt32) : Option Nat :=
  match uva2ka k pgdir (PGROUNDDOWN a) with
  | .ok pa => if pa = 0 then none else some (pa + a.toNat % PGSIZE)
  | .error _ => none

/-- The bytes `uva2ka` reads to translate `[va, va + len)`: the directory's page and the
page tables of the range. -/
def Translates (k : Kmem) (pgdir : Nat) (va : UInt32) (len x : Nat) : Prop :=
  InPage pgdir x ∨ ∃ i < len, ∃ t, tableAt k.mem pgdir (PDX (va + i.toUInt32)) = some t ∧ InPage t x

/-- A range `copyout` can copy exactly: no byte lands where its translation is read, and
no two bytes land on one kernel address. -/
structure Separated (k : Kmem) (pgdir : Nat) (va : UInt32) (len : Nat) : Prop where
  off_tables : ∀ i < len, ∀ x, uaddr k pgdir (va + i.toUInt32) = some x → ¬ Translates k pgdir va len x
  inj : ∀ i j x, i < len → j < len → uaddr k pgdir (va + i.toUInt32) = some x →
    uaddr k pgdir (va + j.toUInt32) = some x → i = j

/-- `k'` holds the bytes of `buf` at the kernel addresses that `[va, va + buf.length)` has
in `k`, and `k`'s bytes everywhere else. -/
structure Copied (k k' : Kmem) (pgdir : Nat) (va : UInt32) (buf : List UInt8) : Prop where
  bytes : ∀ i (h : i < buf.length) x, uaddr k pgdir (va + i.toUInt32) = some x → k'.mem x = buf[i]
  frame : ∀ x, (∀ i < buf.length, uaddr k pgdir (va + i.toUInt32) ≠ some x) → k'.mem x = k.mem x

/-! ## Addresses -/

theorem toNat_add_toUInt32 {va : UInt32} {i : Nat} (h : va.toNat + i < 2 ^ 32) :
    (va + i.toUInt32).toNat = va.toNat + i := by
  rw [UInt32.toNat_add, Word32.toNat_toUInt32_of_lt (by omega), Nat.mod_eq_of_lt h]

theorem add_toUInt32_add (va : UInt32) (n j : Nat) :
    va + n.toUInt32 + j.toUInt32 = va + (n + j).toUInt32 := by
  rw [UInt32.add_assoc, ← UInt32.ofNat_add]

@[simp] theorem add_zero_toUInt32 (va : UInt32) : va + (0 : Nat).toUInt32 = va := by
  rw [show (0 : Nat).toUInt32 = 0 from rfl, UInt32.add_zero]

theorem PDX_PGROUNDDOWN (a : UInt32) : PDX (PGROUNDDOWN a) = PDX a := by
  rw [PDX_eq, PDX_eq, PGROUNDDOWN_toNat]
  omega

/-- The next page after `va`'s is the byte that follows the part of the range in it,
also where the address wraps. -/
theorem next_page_eq (va : UInt32) :
    PGROUNDDOWN va + 4096 = va + (PGSIZE - va.toNat % PGSIZE).toUInt32 := by
  have hm : va.toNat % PGSIZE < PGSIZE := Nat.mod_lt _ (by decide)
  apply UInt32.toNat_inj.mp
  rw [UInt32.toNat_add, UInt32.toNat_add, PGROUNDDOWN_toNat,
    Word32.toNat_toUInt32_of_lt (by simp only [PGSIZE] at hm ⊢; omega)]
  have := Nat.div_add_mod va.toNat 4096
  rw [show (4096 : UInt32).toNat = 4096 from rfl]
  simp only [PGSIZE] at hm ⊢
  omega

/-! ## `uva2ka` and `uaddr` -/

/-- `uva2ka` reads through a null pointer exactly when the page table is absent. -/
theorem uva2ka_fault_iff {k : Kmem} {pgdir : Nat} {a : UInt32} :
    (∃ e, uva2ka k pgdir a = .error e) ↔ tableAt k.mem pgdir (PDX a) = none := by
  cases ht : tableAt k.mem pgdir (PDX a) with
  | none =>
    simp only [iff_true]
    exact ⟨"uva2ka: null pte", by rw [uva2ka, walkpgdir_absent ht]; rfl⟩
  | some t =>
    simp only [reduceCtorEq, iff_false, not_exists]
    intro e he
    rw [uva2ka, walkpgdir_present ht] at he
    simp only [pure, Except.pure] at he
    split_ifs at he

theorem uaddr_eq_some {k : Kmem} {pgdir : Nat} {a : UInt32} {x : Nat} :
    uaddr k pgdir a = some x ↔
      ∃ pa, uva2ka k pgdir (PGROUNDDOWN a) = .ok pa ∧ pa ≠ 0 ∧ x = pa + a.toNat % PGSIZE := by
  unfold uaddr
  split
  · next pa hpa =>
    by_cases h0 : pa = 0
    · simp only [h0, if_true, reduceCtorEq, false_iff, not_exists, not_and]
      intro pa' h' hne _
      rw [hpa] at h'
      obtain rfl := Except.ok.inj h'
      exact hne h0
    · simp only [if_neg h0, Option.some.injEq]
      constructor
      · rintro rfl
        exact ⟨pa, hpa, h0, rfl⟩
      · rintro ⟨pa', h', -, rfl⟩
        rw [hpa] at h'
        obtain rfl := Except.ok.inj h'
        rfl
  · next e he =>
    simp only [reduceCtorEq, false_iff, not_exists, not_and]
    intro pa' h'
    rw [he] at h'
    cases h'

/-- The translation of a byte depends only on the directory's page and its page table. -/
theorem uaddr_congr {k k' : Kmem} {pgdir : Nat} {va : UInt32} {len : Nat}
    (h : ∀ x, Translates k pgdir va len x → k'.mem x = k.mem x) {i : Nat} (hi : i < len) :
    uaddr k' pgdir (va + i.toUInt32) = uaddr k pgdir (va + i.toUInt32) := by
  have hu : uva2ka k' pgdir (PGROUNDDOWN (va + i.toUInt32)) = uva2ka k pgdir (PGROUNDDOWN (va + i.toUInt32)) := by
    refine uva2ka_congr (fun x hx => h x (.inl hx)) (fun t ht x hx => h x (.inr ⟨i, hi, t, ?_, hx⟩))
    rwa [PDX_PGROUNDDOWN] at ht
  unfold uaddr
  rw [hu]

/-- A memory that keeps the directory's page has the same page tables. -/
theorem translates_congr {k k' : Kmem} {pgdir : Nat} {va : UInt32} {len x : Nat}
    (h : ∀ x, InPage pgdir x → k'.mem x = k.mem x) :
    Translates k' pgdir va len x ↔ Translates k pgdir va len x := by
  unfold Translates
  simp only [tableAt_congr (PDX_lt _) h]

/-- The bytes of `va`'s page translate to consecutive addresses of its frame. -/
theorem uaddr_of_inPage {k : Kmem} {pgdir pa : Nat} {va : UInt32}
    (h0 : uva2ka k pgdir (PGROUNDDOWN va) = .ok pa) (hpa : pa ≠ 0) {i : Nat}
    (hi : va.toNat % PGSIZE + i < PGSIZE) :
    uaddr k pgdir (va + i.toUInt32) = some (pa + va.toNat % PGSIZE + i) := by
  -- a page never straddles the top of the address space
  have hw : va.toNat + i < 2 ^ 32 := by
    have := Nat.div_add_mod va.toNat 4096
    have := va.toNat_lt
    simp only [PGSIZE] at hi
    omega
  have ha := toNat_add_toUInt32 hw
  have hpg : PGROUNDDOWN (va + i.toUInt32) = PGROUNDDOWN va := by
    have hd := PGROUNDDOWN_toNat va
    simp only [PGSIZE] at hi
    apply PGROUNDDOWN_of_inPage <;> simp only [hd, ha, PGSIZE] <;> omega
  rw [uaddr_eq_some, hpg]
  refine ⟨pa, h0, hpa, ?_⟩
  rw [ha]
  simp only [PGSIZE] at *
  omega

/-- The first byte of an unmapped page does not translate. -/
theorem uaddr_none_of_uva2ka {k : Kmem} {pgdir : Nat} {va : UInt32}
    (h : ∀ pa, uva2ka k pgdir (PGROUNDDOWN va) = .ok pa → pa = 0) :
    uaddr k pgdir (va + (0 : Nat).toUInt32) = none := by
  rw [add_zero_toUInt32]
  cases hu : uaddr k pgdir va with
  | none => rfl
  | some x =>
    obtain ⟨pa, hpa, hne, -⟩ := uaddr_eq_some.mp hu
    exact absurd (h pa hpa) hne


/-! ## What a copy leaves -/

section Copy

variable {k k1 k2 : Kmem} {pgdir : Nat} {va : UInt32}

theorem uaddr_ne_none {a : UInt32} :
    uaddr k pgdir a ≠ none ↔ ∃ pa, uva2ka k pgdir (PGROUNDDOWN a) = .ok pa ∧ pa ≠ 0 := by
  rw [Option.ne_none_iff_exists']
  constructor
  · rintro ⟨x, hx⟩
    obtain ⟨pa, h, hne, -⟩ := uaddr_eq_some.mp hx
    exact ⟨pa, h, hne⟩
  · rintro ⟨pa, h, hne⟩
    exact ⟨_, uaddr_eq_some.mpr ⟨pa, h, hne, rfl⟩⟩

theorem copied_nil : Copied k k pgdir va [] where
  bytes _ h := absurd h (Nat.not_lt_zero _)
  frame _ _ := rfl

/-- The write of one page puts its bytes at consecutive addresses of the frame. -/
theorem copied_in_page {pa : Nat} (h0 : uva2ka k pgdir (PGROUNDDOWN va) = .ok pa) (hpa : pa ≠ 0)
    {buf : List UInt8} (hfit : va.toNat % PGSIZE + buf.length ≤ PGSIZE) :
    Copied k { k with mem := Bytes.writeBytes k.mem (pa + va.toNat % PGSIZE) buf } pgdir va buf where
  bytes i hi x hx := by
    rw [uaddr_of_inPage h0 hpa (by omega)] at hx
    obtain rfl := Option.some.inj hx
    dsimp only
    rw [Bytes.writeBytes_apply_mem (by omega) (by omega)]
    simp only [Nat.add_sub_cancel_left]
  frame x hx := by
    dsimp only
    by_cases hlo : x < pa + va.toNat % PGSIZE
    · exact Bytes.writeBytes_apply_of_lt hlo
    by_cases hhi : pa + va.toNat % PGSIZE + buf.length ≤ x
    · exact Bytes.writeBytes_apply_of_ge hhi
    -- inside the run, `x` is where the byte at its own offset lands
    have hi : x - (pa + va.toNat % PGSIZE) < buf.length := by omega
    have hx' := uaddr_of_inPage h0 hpa (i := x - (pa + va.toNat % PGSIZE)) (by omega)
    rw [show pa + va.toNat % PGSIZE + (x - (pa + va.toNat % PGSIZE)) = x by omega] at hx'
    exact absurd hx' (hx _ hi)

/-- A copy of the first bytes of a separated range leaves every byte the range is
translated through. -/
theorem Separated.agree {len : Nat} (hs : Separated k pgdir va len) {pre : List UInt8}
    (hc : Copied k k1 pgdir va pre) (hle : pre.length ≤ len) :
    ∀ x, Translates k pgdir va len x → k1.mem x = k.mem x :=
  fun x hx => hc.frame x fun i hi hix => hs.off_tables i (by omega) x hix hx

/-- ... and so every byte of the range translates as before. -/
theorem Separated.uaddr_eq {len : Nat} (hs : Separated k pgdir va len) {pre : List UInt8}
    (hc : Copied k k1 pgdir va pre) (hle : pre.length ≤ len) {i : Nat} (hi : i < len) :
    uaddr k1 pgdir (va + i.toUInt32) = uaddr k pgdir (va + i.toUInt32) :=
  uaddr_congr (hs.agree hc hle) hi

/-- A byte of the rest of the range translates in `k1` as it did in `k`. -/
theorem Separated.uaddr_drop {len : Nat} (hs : Separated k pgdir va len) {pre : List UInt8}
    (hc : Copied k k1 pgdir va pre) (hle : pre.length ≤ len) {j : Nat} (hj : j < len - pre.length) :
    uaddr k1 pgdir (va + pre.length.toUInt32 + j.toUInt32) = uaddr k pgdir (va + (pre.length + j).toUInt32) := by
  rw [add_toUInt32_add]
  exact hs.uaddr_eq hc hle (by omega)

/-- The tables that translate the rest of a range translate the whole range. -/
theorem translates_of_drop {len m x : Nat} (hm : m ≤ len)
    (h : Translates k pgdir (va + m.toUInt32) (len - m) x) : Translates k pgdir va len x := by
  rcases h with hx | ⟨j, hj, t, ht, hx⟩
  · exact .inl hx
  · rw [add_toUInt32_add] at ht
    exact .inr ⟨m + j, by omega, t, ht, hx⟩

/-- After a copy of the first `m` bytes, the rest of a separated range is separated. -/
theorem Separated.drop {len : Nat} (hs : Separated k pgdir va len) {pre : List UInt8}
    (hc : Copied k k1 pgdir va pre) (hle : pre.length ≤ len) :
    Separated k1 pgdir (va + pre.length.toUInt32) (len - pre.length) := by
  have hdir : ∀ x, InPage pgdir x → k1.mem x = k.mem x := fun x hx => hs.agree hc hle x (.inl hx)
  constructor
  · intro j hj x hx htr
    rw [hs.uaddr_drop hc hle hj] at hx
    rw [translates_congr hdir] at htr
    exact hs.off_tables _ (by omega) x hx (translates_of_drop hle htr)
  · intro i j x hi hj hix hjx
    rw [hs.uaddr_drop hc hle hi] at hix
    rw [hs.uaddr_drop hc hle hj] at hjx
    have := hs.inj _ _ x (by omega) (by omega) hix hjx
    omega

/-- Two copies one after the other, of a separated range split in two, copy the range. -/
theorem Copied.append {pre rest : List UInt8} (hs : Separated k pgdir va (pre ++ rest).length)
    (hc1 : Copied k k1 pgdir va pre) (hc2 : Copied k1 k2 pgdir (va + pre.length.toUInt32) rest) :
    Copied k k2 pgdir va (pre ++ rest) := by
  have hlen : (pre ++ rest).length = pre.length + rest.length := List.length_append
  have hle : pre.length ≤ (pre ++ rest).length := by omega
  have hrest : ∀ j < rest.length, uaddr k1 pgdir (va + pre.length.toUInt32 + j.toUInt32) =
      uaddr k pgdir (va + (pre.length + j).toUInt32) := fun j hj => hs.uaddr_drop hc1 hle (by omega)
  -- no byte of the rest lands where a byte of the first part does
  have hfirst : ∀ i < pre.length, ∀ x, uaddr k pgdir (va + i.toUInt32) = some x → k2.mem x = k1.mem x := by
    intro i hi x hx
    refine hc2.frame x fun j hj hjx => ?_
    rw [hrest j hj] at hjx
    have := hs.inj _ _ x (by omega) (by omega) hx hjx
    omega
  constructor
  · intro i hi x hx
    by_cases hip : i < pre.length
    · rw [hfirst i hip x hx, hc1.bytes i hip x hx, List.getElem_append_left hip]
    · have hj : i - pre.length < rest.length := by omega
      have hx' : uaddr k1 pgdir (va + pre.length.toUInt32 + (i - pre.length).toUInt32) = some x := by
        rw [hrest _ hj, Nat.add_sub_cancel' (by omega)]
        exact hx
      rw [hc2.bytes _ hj x hx', List.getElem_append_right (by omega)]
  · intro x hx
    have h2 : k2.mem x = k1.mem x := hc2.frame x fun j hj => by
      rw [hrest j hj]
      exact hx _ (by omega)
    rw [h2, hc1.frame x fun i hi => hx i (by omega)]

end Copy

/-! ## `copyout` at its first page -/

theorem copyout_fault {k : Kmem} {pgdir : Nat} {va : UInt32} {buf : List UInt8} {e : String}
    (hbuf : buf ≠ []) (h : uva2ka k pgdir (PGROUNDDOWN va) = .error e) :
    copyout k pgdir va buf = .error e := by
  rw [copyout, dif_neg hbuf]
  simp only [h]
  rfl

theorem copyout_unmapped {k : Kmem} {pgdir : Nat} {va : UInt32} {buf : List UInt8}
    (hbuf : buf ≠ []) (h : uva2ka k pgdir (PGROUNDDOWN va) = .ok 0) :
    copyout k pgdir va buf = .ok (-1, k) := by
  rw [copyout, dif_neg hbuf]
  simp only [h]
  rfl

/-- A first page that translates gives a page table. -/
theorem tableAt_ne_none_of_uva2ka {k : Kmem} {pgdir pa : Nat} {va : UInt32}
    (h0 : uva2ka k pgdir (PGROUNDDOWN va) = .ok pa) : tableAt k.mem pgdir (PDX va) ≠ none := by
  intro ht
  obtain ⟨e, he⟩ := uva2ka_fault_iff.mpr (by rwa [PDX_PGROUNDDOWN])
  rw [h0] at he
  cases he

/-- Past its first page `copyout` goes on at the next one, from a memory that holds the
first page's bytes. -/
theorem copyout_next_page {k : Kmem} {pgdir pa : Nat} {va : UInt32} {buf : List UInt8}
    (h0 : uva2ka k pgdir (PGROUNDDOWN va) = .ok pa) (hpa : pa ≠ 0)
    (hm : PGSIZE - va.toNat % PGSIZE < buf.length) :
    ∃ k1, copyout k pgdir va buf = copyout k1 pgdir (va + (PGSIZE - va.toNat % PGSIZE).toUInt32)
        (buf.drop (PGSIZE - va.toNat % PGSIZE)) ∧
      Copied k k1 pgdir va (buf.take (PGSIZE - va.toNat % PGSIZE)) := by
  have hbuf : buf ≠ [] := List.ne_nil_of_length_pos (by omega)
  refine ⟨_, ?_, copied_in_page h0 hpa ?_⟩
  · rw [copyout_step hbuf h0 hpa, Nat.min_eq_left hm.le, next_page_eq]
  · have := Nat.mod_lt va.toNat (show 0 < PGSIZE by decide)
    rw [List.length_take]
    omega

/-! ## The loop

Both results go by strong induction on the bytes left, one page a step, with the memory
and the address moving; `Separated` carries over to the rest of the range
(`Separated.drop`), and the rest translates as it did before the first page was written
(`Separated.uaddr_drop`). -/

section Loop

variable (pgdir : Nat)

/-- A separated range whose bytes all translate is copied whole, and `copyout` returns `0`. -/
theorem copyout_ok_of_translates : ∀ (n : Nat) {k : Kmem} {va : UInt32} {buf : List UInt8},
    buf.length = n → Separated k pgdir va buf.length →
    (∀ i < buf.length, uaddr k pgdir (va + i.toUInt32) ≠ none) →
    ∃ k', copyout k pgdir va buf = .ok (0, k') ∧ Copied k k' pgdir va buf := by
  intro n
  induction n using Nat.strong_induction_on with
  | _ n ih =>
  intro k va buf hn hs hall
  by_cases hbuf : buf = []
  · subst hbuf
    exact ⟨k, copyout_nil k pgdir va, copied_nil⟩
  obtain ⟨pa, h0, hpa⟩ := uaddr_ne_none.mp (by simpa using hall 0 (List.length_pos_iff.mpr hbuf))
  by_cases hfit : va.toNat % PGSIZE + buf.length ≤ PGSIZE
  · exact ⟨_, copyout_in_page h0 hpa hfit, copied_in_page h0 hpa hfit⟩
  -- the range goes on past its first page
  have hmod := Nat.mod_lt va.toNat (show 0 < PGSIZE by decide)
  set m := PGSIZE - va.toNat % PGSIZE with hm
  have hlen : (buf.take m).length = m := by
    rw [List.length_take]
    omega
  obtain ⟨k1, hstep, hc1⟩ := copyout_next_page h0 hpa (show m < buf.length by omega)
  rw [← hm] at hstep hc1
  have hs1 := hs.drop hc1 (by omega)
  rw [hlen, ← List.length_drop] at hs1
  have hall1 : ∀ j < (buf.drop m).length, uaddr k1 pgdir (va + m.toUInt32 + j.toUInt32) ≠ none := by
    intro j hj
    rw [List.length_drop] at hj
    rw [← hlen, hs.uaddr_drop hc1 (by omega) (by omega)]
    exact hall _ (by omega)
  obtain ⟨k2, hk2, hc2⟩ := ih _ (by rw [← hn, List.length_drop]; omega) rfl hs1 hall1
  refine ⟨k2, hstep.trans hk2, ?_⟩
  have hc := Copied.append (by rwa [List.take_append_drop]) hc1 (by rwa [hlen])
  rwa [List.take_append_drop] at hc

/-- At the first byte of a separated range that does not translate, `copyout` stops: it
reads through the null pointer when the byte's page table is absent, and returns `-1`
when it is there. -/
theorem copyout_of_fault : ∀ (n : Nat) {k : Kmem} {va : UInt32} {buf : List UInt8},
    buf.length = n → Separated k pgdir va buf.length →
    ∀ i < buf.length, uaddr k pgdir (va + i.toUInt32) = none →
      (∀ j < i, uaddr k pgdir (va + j.toUInt32) ≠ none) →
      (tableAt k.mem pgdir (PDX (va + i.toUInt32)) = none → ∃ e, copyout k pgdir va buf = .error e) ∧
      (tableAt k.mem pgdir (PDX (va + i.toUInt32)) ≠ none → ∃ k', copyout k pgdir va buf = .ok (-1, k')) := by
  intro n
  induction n using Nat.strong_induction_on with
  | _ n ih =>
  intro k va buf hn hs i hi hnone hbefore
  have hbuf : buf ≠ [] := List.ne_nil_of_length_pos (by omega)
  -- unless the fault is at the first byte, the first page translates
  have hfirst : i = 0 ∨ ∃ pa, uva2ka k pgdir (PGROUNDDOWN va) = .ok pa ∧ pa ≠ 0 := by
    rcases Nat.eq_zero_or_pos i with h | h
    · exact .inl h
    · exact .inr (uaddr_ne_none.mp (by simpa using hbefore 0 h))
  cases h0 : uva2ka k pgdir (PGROUNDDOWN va) with
  | error e =>
    obtain rfl : i = 0 := hfirst.resolve_right fun ⟨pa, h, _⟩ => by rw [h0] at h; cases h
    refine ⟨fun _ => ⟨e, copyout_fault hbuf h0⟩, fun ht => absurd ?_ ht⟩
    rw [add_zero_toUInt32, ← PDX_PGROUNDDOWN]
    exact uva2ka_fault_iff.mp ⟨e, h0⟩
  | ok pa =>
    by_cases hpa : pa = 0
    · subst hpa
      obtain rfl : i = 0 := hfirst.resolve_right fun ⟨pa, h, hne⟩ => by
        rw [h0] at h
        obtain rfl := Except.ok.inj h
        exact hne rfl
      rw [add_zero_toUInt32]
      exact ⟨fun ht => absurd ht (tableAt_ne_none_of_uva2ka h0), fun _ => ⟨k, copyout_unmapped hbuf h0⟩⟩
    -- the first page translates, so the faulting byte lies past it
    have hmod := Nat.mod_lt va.toNat (show 0 < PGSIZE by decide)
    set m := PGSIZE - va.toNat % PGSIZE with hm
    have him : m ≤ i := by
      by_contra h
      rw [uaddr_of_inPage h0 hpa (by omega)] at hnone
      cases hnone
    have hlen : (buf.take m).length = m := by
      rw [List.length_take]
      omega
    obtain ⟨k1, hstep, hc1⟩ := copyout_next_page h0 hpa (show m < buf.length by omega)
    rw [← hm] at hstep hc1
    have hs1 := hs.drop hc1 (by omega)
    rw [hlen, ← List.length_drop] at hs1
    have hrest : ∀ j < buf.length - m, uaddr k1 pgdir (va + m.toUInt32 + j.toUInt32) =
        uaddr k pgdir (va + (m + j).toUInt32) := fun j hj => by
      rw [← hlen]
      exact hs.uaddr_drop hc1 (by omega) (by omega)
    have ht : tableAt k1.mem pgdir (PDX (va + m.toUInt32 + (i - m).toUInt32)) =
        tableAt k.mem pgdir (PDX (va + i.toUInt32)) := by
      rw [add_toUInt32_add, Nat.add_sub_cancel' him]
      exact tableAt_congr (PDX_lt _) fun x hx => hs.agree hc1 (by omega) x (.inl hx)
    have hnone1 : uaddr k1 pgdir (va + m.toUInt32 + (i - m).toUInt32) = none := by
      rw [hrest _ (by omega), Nat.add_sub_cancel' him]
      exact hnone
    have hbefore1 : ∀ j < i - m, uaddr k1 pgdir (va + m.toUInt32 + j.toUInt32) ≠ none := fun j hj => by
      rw [hrest j (by omega)]
      exact hbefore _ (by omega)
    have hk := ih _ (by rw [← hn, List.length_drop]; omega) rfl hs1 (i - m)
      (by rw [List.length_drop]; omega) hnone1 hbefore1
    rw [ht] at hk
    rwa [hstep]

end Loop

/-- `copyout` on a separated range: it returns `0` exactly when every byte translates,
and then each byte translates as before to a kernel address that holds its byte of `buf`,
and every other byte is as it was. Otherwise the first byte that does not translate
decides: a read through the null pointer when its page table is absent, `-1` when it is
there. -/
theorem copyout_separated {k : Kmem} {pgdir : Nat} {va : UInt32} {buf : List UInt8}
    (hs : Separated k pgdir va buf.length) :
    ((∀ i < buf.length, uaddr k pgdir (va + i.toUInt32) ≠ none) ↔
      ∃ k', copyout k pgdir va buf = .ok (0, k') ∧
        (∀ i (h : i < buf.length), uaddr k' pgdir (va + i.toUInt32) = uaddr k pgdir (va + i.toUInt32) ∧
          ∀ x, uaddr k pgdir (va + i.toUInt32) = some x → k'.mem x = buf[i]) ∧
        ∀ x, (∀ i < buf.length, uaddr k pgdir (va + i.toUInt32) ≠ some x) → k'.mem x = k.mem x) ∧
    ∀ i < buf.length, uaddr k pgdir (va + i.toUInt32) = none →
      (∀ j < i, uaddr k pgdir (va + j.toUInt32) ≠ none) →
      (tableAt k.mem pgdir (PDX (va + i.toUInt32)) = none → ∃ e, copyout k pgdir va buf = .error e) ∧
      (tableAt k.mem pgdir (PDX (va + i.toUInt32)) ≠ none → ∃ k', copyout k pgdir va buf = .ok (-1, k')) := by
  have hfault := copyout_of_fault pgdir buf.length rfl hs
  refine ⟨⟨fun hall => ?_, ?_⟩, hfault⟩
  · obtain ⟨k', hk', hc⟩ := copyout_ok_of_translates pgdir _ rfl hs hall
    exact ⟨k', hk', fun i hi => ⟨hs.uaddr_eq hc le_rfl hi, hc.bytes i hi⟩, hc.frame⟩
  · -- the first byte that does not translate stops the copy short of `0`
    rintro ⟨k', hk', -⟩ i hi hnone
    have hP : ∃ i, i < buf.length ∧ uaddr k pgdir (va + i.toUInt32) = none := ⟨i, hi, hnone⟩
    obtain ⟨hlt, hnone'⟩ := Nat.find_spec hP
    have hbefore : ∀ j < Nat.find hP, uaddr k pgdir (va + j.toUInt32) ≠ none :=
      fun j hj hj' => Nat.find_min hP hj ⟨by omega, hj'⟩
    obtain ⟨hnull, hret⟩ := hfault _ hlt hnone' hbefore
    by_cases ht : tableAt k.mem pgdir (PDX (va + (Nat.find hP).toUInt32)) = none
    · obtain ⟨e, he⟩ := hnull ht
      rw [hk'] at he
      cases he
    · obtain ⟨k'', he⟩ := hret ht
      rw [hk'] at he
      exact absurd (Prod.mk.inj (Except.ok.inj he)).1 (by decide)

/-! ## Kernel-built directories -/

section Wf

variable {k : Kmem} {pgdir : Nat}

/-- What `uva2ka` finds where the page table is there: the page a user entry maps, `0` for
any other entry. -/
theorem uva2ka_of_table {t : Nat} {va : UInt32} (ht : tableAt k.mem pgdir (PDX va) = some t) :
    uva2ka k pgdir va = .ok (if UserPte (pte k.mem pgdir (va.toNat / PGSIZE)) then
      (PTE_ADDR (pte k.mem pgdir (va.toNat / PGSIZE))).toNat else 0) := by
  rw [uva2ka, walkpgdir_present ht]
  dsimp only
  rw [getU32_entry ht]
  by_cases hP : pte k.mem pgdir (va.toNat / PGSIZE) &&& PTE_P = 0
  · rw [if_pos hP, if_neg fun h => h.1 hP]
    rfl
  by_cases hU : pte k.mem pgdir (va.toNat / PGSIZE) &&& PTE_U = 0
  · rw [if_neg hP, if_pos hU, if_neg fun h => h.2 hU]
    rfl
  · rw [if_neg hP, if_neg hU, if_pos ⟨hP, hU⟩]
    rfl

theorem PGROUNDDOWN_div (a : UInt32) : (PGROUNDDOWN a).toNat / PGSIZE = a.toNat / PGSIZE := by
  rw [PGROUNDDOWN_toNat, PGSIZE]
  omega

/-- A byte that translates lands in the page a user entry maps, at its offset. -/
theorem UvmWf.uaddr_some (hwf : UvmWf k pgdir) {a : UInt32} {x : Nat} (h : uaddr k pgdir a = some x) :
    ∃ f, a.toNat / PGSIZE < userPages ∧ frameAt k.mem pgdir (a.toNat / PGSIZE) = some f ∧
      x = f + a.toNat % PGSIZE := by
  obtain ⟨pa, hpa, hne, rfl⟩ := uaddr_eq_some.mp h
  obtain ⟨t, ht⟩ := Option.ne_none_iff_exists'.mp (tableAt_ne_none_of_uva2ka hpa)
  rw [← PDX_PGROUNDDOWN] at ht
  rw [uva2ka_of_table ht, PGROUNDDOWN_div] at hpa
  have hpa' := Except.ok.inj hpa
  split_ifs at hpa' with hu
  · refine ⟨pa, ?_, ?_, rfl⟩
    · have hv : a.toNat / PGSIZE < 2 ^ 20 := by
        have := a.toNat_lt
        simp only [PGSIZE]
        omega
      exact (hwf.user _ hv hu.1).mpr hu.2
    · simp only [frameAt, if_pos hu.1, hpa']
  · exact absurd hpa'.symm hne

/-- ... so it is neither in the directory's page nor in one of its tables. -/
theorem UvmWf.uaddr_not_dir (hwf : UvmWf k pgdir) {a : UInt32} {x : Nat} (h : uaddr k pgdir a = some x) :
    ¬ InPage pgdir x ∧ ∀ i < NPDENTRIES, ∀ t, tableAt k.mem pgdir i = some t → ¬ InPage t x := by
  obtain ⟨f, hvu, hf, rfl⟩ := hwf.uaddr_some h
  have hown := hwf.owned _ f hvu hf
  have hin : InPage f (f + a.toNat % PGSIZE) := by
    have := Nat.mod_lt a.toNat (show 0 < PGSIZE by decide)
    exact ⟨by omega, by omega⟩
  exact ⟨fun hr => hown.ne_root (eq_of_inPage hown.page.1 hwf.dir.root.1 hin hr),
    fun i hi t ht htx => hown.not_table i hi (eq_of_inPage hown.page.1 (tableAt_aligned ht) hin htx ▸ ht)⟩

/-- A byte translates exactly when its page's entry is present with `PTE_U`: the page it
maps is never `0`. -/
theorem UvmWf.uaddr_ne_none_iff (hwf : UvmWf k pgdir) (a : UInt32) :
    uaddr k pgdir a ≠ none ↔ UserPte (pte k.mem pgdir (a.toNat / PGSIZE)) := by
  have hv : a.toNat / PGSIZE < 2 ^ 20 := by
    have := a.toNat_lt
    simp only [PGSIZE]
    omega
  constructor
  · intro h
    obtain ⟨x, hx⟩ := Option.ne_none_iff_exists'.mp h
    obtain ⟨f, -, hf, -⟩ := hwf.uaddr_some hx
    obtain ⟨pa, hpa, hne⟩ := uaddr_ne_none.mp h
    obtain ⟨t, ht⟩ := Option.ne_none_iff_exists'.mp (tableAt_ne_none_of_uva2ka hpa)
    rw [← PDX_PGROUNDDOWN] at ht
    rw [uva2ka_of_table ht, PGROUNDDOWN_div] at hpa
    by_contra hu
    rw [if_neg hu] at hpa
    exact hne (Except.ok.inj hpa).symm
  · intro hu
    -- a present entry has its page table
    have ht : tableAt k.mem pgdir (PDX a) ≠ none := by
      intro hnone
      rw [PDX_vpn] at hnone
      have hp := hu.1
      simp only [pte, hnone] at hp
      exact hp rfl
    obtain ⟨t, ht⟩ := Option.ne_none_iff_exists'.mp ht
    have hframe : frameAt k.mem pgdir (a.toNat / PGSIZE) = some (PTE_ADDR (pte k.mem pgdir (a.toNat / PGSIZE))).toNat := by
      simp only [frameAt, if_pos hu.1]
    have hown := hwf.owned _ _ ((hwf.user _ hv hu.1).mpr hu.2) hframe
    rw [← PDX_PGROUNDDOWN] at ht
    refine uaddr_ne_none.mpr ⟨_, uva2ka_of_table ht, ?_⟩
    rw [PGROUNDDOWN_div, if_pos hu]
    exact hown.ne_zero

/-- Every range of a kernel-built directory that does not wrap onto itself is separated. -/
theorem UvmWf.separated (hwf : UvmWf k pgdir) {va : UInt32} {len : Nat} (hlen : len ≤ 2 ^ 32) :
    Separated k pgdir va len where
  off_tables i _ x hx htr := by
    obtain ⟨hroot, htab⟩ := hwf.uaddr_not_dir hx
    rcases htr with hr | ⟨j, _, t, ht, htx⟩
    · exact hroot hr
    · exact htab _ (PDX_lt _) t ht htx
  inj i j x hi hj hix hjx := by
    obtain ⟨f, hvu, hf, rfl⟩ := hwf.uaddr_some hix
    obtain ⟨g, hwu, hg, hx⟩ := hwf.uaddr_some hjx
    have hfa := (hwf.owned _ f hvu hf).page.1
    have hga := (hwf.owned _ g hwu hg).page.1
    have hmi := Nat.mod_lt (va + i.toUInt32).toNat (show 0 < PGSIZE by decide)
    have hmj := Nat.mod_lt (va + j.toUInt32).toNat (show 0 < PGSIZE by decide)
    -- one kernel address is one page at one offset
    have hfg : f = g := by
      simp only [PGSIZE] at hfa hga hmi hmj hx
      omega
    subst hfg
    have hoff : (va + i.toUInt32).toNat % PGSIZE = (va + j.toUInt32).toNat % PGSIZE := by omega
    have hvpn := hwf.inj _ _ f hvu hwu hf hg
    have hij : (va + i.toUInt32).toNat = (va + j.toUInt32).toNat := by
      rw [← Nat.div_add_mod (va + i.toUInt32).toNat PGSIZE, hvpn, hoff, Nat.div_add_mod]
    simp only [UInt32.toNat_add, Nat.toUInt32, UInt32.toNat_ofNat'] at hij
    omega

end Wf

/-- `copyout` writes memory only; the induction is on the bytes left, one page a step. -/
theorem copyout_free : ∀ (n : Nat) {k k' : Kmem} {pgdir : Nat} {va : UInt32} {buf : List UInt8} {r : Int},
    buf.length = n → copyout k pgdir va buf = .ok (r, k') → k'.free = k.free := by
  intro n
  induction n using Nat.strong_induction_on with
  | _ n ih =>
  intro k k' pgdir va buf r hn h
  by_cases hbuf : buf = []
  · subst hbuf
    rw [copyout_nil] at h
    cases h
    rfl
  cases h0 : uva2ka k pgdir (PGROUNDDOWN va) with
  | error e =>
    rw [copyout_fault hbuf h0] at h
    cases h
  | ok pa =>
    by_cases hpa : pa = 0
    · subst hpa
      rw [copyout_unmapped hbuf h0] at h
      cases h
      rfl
    rw [copyout_step hbuf h0 hpa] at h
    have hlen : 0 < buf.length := List.length_pos_iff.mpr hbuf
    have hmod := Nat.mod_lt va.toNat (show 0 < PGSIZE by decide)
    have hk := ih _ (by rw [← hn, List.length_drop]; omega) rfl h
    exact hk

/-- `copyout` on a directory the kernel builds, for a length that fits in a `uint`: it
returns `0` exactly when the page of every byte of the range is mapped present with
`PTE_U`, and then each byte translates as before, into a page of the user's own, which now
holds its byte of `buf`, every other byte is as it was, and the directory keeps its
invariant. Otherwise the first byte whose page is not mapped so decides: a read through
the null pointer when its page table is absent, `-1` when it is there. -/
theorem copyout_exact {k : Kmem} {pgdir : Nat} {va : UInt32} {buf : List UInt8}
    (hwf : UvmWf k pgdir) (hlen : buf.length < 2 ^ 32) :
    ((∀ i < buf.length, UserPte (pte k.mem pgdir ((va + i.toUInt32).toNat / PGSIZE))) ↔
      ∃ k', copyout k pgdir va buf = .ok (0, k') ∧ UvmWf k' pgdir ∧
        (∀ i (h : i < buf.length), uaddr k' pgdir (va + i.toUInt32) = uaddr k pgdir (va + i.toUInt32) ∧
          ∀ x, uaddr k pgdir (va + i.toUInt32) = some x → k'.mem x = buf[i]) ∧
        ∀ x, (∀ i < buf.length, uaddr k pgdir (va + i.toUInt32) ≠ some x) → k'.mem x = k.mem x) ∧
    ∀ i < buf.length, ¬ UserPte (pte k.mem pgdir ((va + i.toUInt32).toNat / PGSIZE)) →
      (∀ j < i, UserPte (pte k.mem pgdir ((va + j.toUInt32).toNat / PGSIZE))) →
      (tableAt k.mem pgdir (PDX (va + i.toUInt32)) = none → ∃ e, copyout k pgdir va buf = .error e) ∧
      (tableAt k.mem pgdir (PDX (va + i.toUInt32)) ≠ none → ∃ k', copyout k pgdir va buf = .ok (-1, k')) := by
  have hsep : Separated k pgdir va buf.length := hwf.separated hlen.le
  obtain ⟨⟨hok, hret⟩, hfault⟩ := copyout_separated hsep
  have hiff := fun i : Nat => hwf.uaddr_ne_none_iff (va + i.toUInt32)
  refine ⟨⟨fun hall => ?_, fun ⟨k', hk', _, hrest⟩ i hi => (hiff i).mp (hret ⟨k', hk', hrest⟩ i hi)⟩,
    fun i hi hnot hbefore => hfault i hi (not_not.mp fun h => hnot ((hiff i).mp h))
      fun j hj => (hiff j).mpr (hbefore j hj)⟩
  obtain ⟨k', hk', hbytes, hframe⟩ := hok fun i hi => (hiff i).mpr (hall i hi)
  -- the bytes written lie in user pages, so the directory and its tables are as they were
  have hag : DirAgree k.mem k'.mem pgdir :=
    ⟨fun x hx => hframe x fun i _ hix => (hwf.uaddr_not_dir hix).1 hx,
      fun j hj t ht x hx => hframe x fun i _ hix => (hwf.uaddr_not_dir hix).2 j hj t ht hx⟩
  exact ⟨k', hk', hwf.congr (copyout_free _ rfl hk') hag, hbytes, hframe⟩

/-- A directory at `0x1000` with user page `0` mapped to the page at `0x3000`, as
`allocuvm` maps it, through the table `mappages` took off `emptyDir`'s free list. -/
def userPageDir : Kmem :=
  (emptyDir.addTable 0x1000 0 0x2000 []).setWord 0x2000 (0x3000 ||| (PTE_W ||| PTE_U) ||| PTE_P)

/-- Three bytes to user `0` of `userPageDir` land at `0x3000`. -/
theorem copyout_exact_user_page :
    UvmWf userPageDir 0x1000 ∧ ∃ k', copyout userPageDir 0x1000 0 [1, 2, 3] = .ok (0, k') ∧
      uaddr k' 0x1000 2 = some 0x3002 ∧ k'.mem 0x3002 = 3 := by
  have hfree : FreeWf emptyDir.free := ⟨by decide, by simp [emptyDir, PhysPage, PGSIZE, PHYSTOP]⟩
  have hk0 : KvmWf emptyDir 0x1000 := KvmWf.zeroed ⟨rfl, by decide⟩ (fun _ _ => rfl) (by decide) hfree (by decide)
  have hfresh : Fresh emptyDir 0x1000 0x3000 :=
    ⟨⟨⟨rfl, by decide⟩, by decide, by decide, by decide,
      fun i hi => by rw [@tableAt_eq_none_of_zero emptyDir.mem 0x1000 i (fun _ _ => rfl) hi]; exact Option.some_ne_none _ ∘ Eq.symm⟩,
      fun vpn hv h => absurd (hk0.kernel vpn (userPages_lt hv) (present_of_frameAt h)).1 (Nat.not_le.mpr hv)⟩
  have hmap : mappages emptyDir 0x1000 0 4096 (0x3000 : Nat).toUInt32 (PTE_W ||| PTE_U) = .ok (0, userPageDir) :=
    rfl
  have hwf : UvmWf userPageDir 0x1000 := hk0.uvmWf.mappages_page (by decide) (by decide) hfresh hmap
  have hc := @copyout_exact userPageDir 0x1000 0 [1, 2, 3] hwf (by decide)
  obtain ⟨k', hk', -, hbytes, -⟩ := hc.1.mp (by decide)
  have h0 : uva2ka userPageDir 0x1000 (PGROUNDDOWN 0) = .ok 0x3000 := rfl
  have hu2 : uaddr userPageDir 0x1000 2 = some 0x3002 := by
    rw [show (2 : UInt32) = 0 + (2 : Nat).toUInt32 from rfl, uaddr_of_inPage h0 (by decide) (by decide)]
    rfl
  obtain ⟨htr, hv⟩ := hbytes 2 (by decide)
  have h2 : (0 : UInt32) + (2 : Nat).toUInt32 = 2 := rfl
  rw [h2] at htr hv
  exact ⟨hwf, k', hk', htr.trans hu2, hv _ hu2⟩

end Xv6
