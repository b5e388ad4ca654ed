import Xv6.Vm.Walk

/-!
# What `mappages` maps

`mappages` fills the entries of the pages from `PGROUNDDOWN(la)` to
`PGROUNDDOWN(la + size - 1)`. On a directory that keeps `PdWf`, one iteration
(`walkpgdir`, then the entry write) changes the translation of its own page and of no
other and keeps `PdWf` (`mappages_entry`), so the loop maps exactly its range, to
consecutive physical addresses, and panics rather than overwrite a present entry
(`mappages_maps`). The frame argument rests on one law, `pte_congr_table`: a
translation reads its directory entry and its own entry of the table, nothing else.
`PdWf` holds of every directory the kernel builds (`Xv6.Vm.Space`).
-/

namespace Xv6

/-! ## Pages and entries -/

theorem not_inPage_of_ne {p q x : Nat} (hp : p % PGSIZE = 0) (hq : q % PGSIZE = 0) (hne : p ≠ q)
    (hx : InPage p x) : ¬ InPage q x :=
  fun h => hne (eq_of_inPage hp hq hx h)

/-- A word stored inside page `q` leaves every byte of another page alone. -/
theorem setU32_apply_of_inPage_ne {m : Nat → UInt8} {a q p x : Nat} (v : UInt32)
    (ha : InPage q a) (ha3 : InPage q (a + 3)) (hp : p % PGSIZE = 0) (hq : q % PGSIZE = 0)
    (hne : p ≠ q) (hx : InPage p x) : Bytes.setU32 m a v x = m x := by
  apply Bytes.setU32_apply_of_ne
  have hx' := not_inPage_of_ne hp hq hne hx
  simp only [InPage, PGSIZE] at *
  omega

/-- A directory entry is read from its four bytes. -/
theorem tableAt_congr_pde {mem mem' : Nat → UInt8} {pgdir i : Nat}
    (h : ∀ x, pgdir + 4 * i ≤ x → x < pgdir + 4 * i + 4 → mem' x = mem x) :
    tableAt mem' pgdir i = tableAt mem pgdir i := by
  have hpde : pdeAt mem' pgdir i = pdeAt mem pgdir i := Bytes.getU32_congr h
  simp only [tableAt, hpde]

/-- The frame law: the translation of `vpn` reads its directory entry and its own
entry of the table, nothing else. -/
theorem pte_congr_table {mem mem' : Nat → UInt8} {pgdir vpn : Nat}
    (ht : tableAt mem' pgdir (vpn / NPTENTRIES) = tableAt mem pgdir (vpn / NPTENTRIES))
    (he : ∀ t, tableAt mem pgdir (vpn / NPTENTRIES) = some t →
      ∀ x, t + 4 * (vpn % NPTENTRIES) ≤ x → x < t + 4 * (vpn % NPTENTRIES) + 4 → mem' x = mem x) :
    pte mem' pgdir vpn = pte mem pgdir vpn := by
  unfold pte
  rw [ht]
  split
  · rename_i t htab
    exact Bytes.getU32_congr (he t htab)
  · rfl

/-- The four bytes of the entry of `vpn` lie in its table's page. -/
theorem inPage_entry (t vpn : Nat) :
    InPage t (t + 4 * (vpn % NPTENTRIES)) ∧ InPage t (t + 4 * (vpn % NPTENTRIES) + 3) := by
  have := Nat.mod_lt vpn (show 0 < NPTENTRIES by decide)
  simp only [InPage, PGSIZE, NPTENTRIES] at *
  omega

theorem vpn_div_lt {vpn : Nat} (h : vpn < 2 ^ 20) : vpn / NPTENTRIES < NPDENTRIES := by
  simp only [NPTENTRIES, NPDENTRIES]
  omega

/-- `walkpgdir` hands back the address of the entry `pte` reads. -/
theorem getU32_entry {mem : Nat → UInt8} {pgdir t : Nat} {va : UInt32}
    (ht : tableAt mem pgdir (PDX va) = some t) :
    Bytes.getU32 mem (t + 4 * PTX va) = pte mem pgdir (va.toNat / PGSIZE) := by
  rw [PDX_vpn] at ht
  rw [PTX_vpn]
  unfold pte
  rw [ht]

/-- Without `create`, `walkpgdir` finds the entry that `pte` reads, and writes nothing. -/
theorem walkpgdir_finds_pte {k k' : Kmem} {pgdir p : Nat} {va : UInt32}
    (h : walkpgdir k pgdir va false = some (k', p)) :
    k' = k ∧ Bytes.getU32 k.mem p = pte k.mem pgdir (va.toNat / PGSIZE) := by
  cases ht : tableAt k.mem pgdir (PDX va) with
  | none => rw [walkpgdir_absent ht] at h; cases h
  | some t =>
    rw [walkpgdir_present ht] at h
    obtain ⟨rfl, rfl⟩ := Prod.mk.inj (Option.some.inj h)
    exact ⟨rfl, getU32_entry ht⟩

/-! ## A well-formed directory under writes -/

section Directory

variable {k : Kmem} {pgdir : Nat}

/-- A directory page of zeroes has no tables. -/
theorem tableAt_eq_none_of_zero {mem : Nat → UInt8} {pgdir i : Nat}
    (hz : ∀ x, InPage pgdir x → mem x = 0) (hi : i < NPDENTRIES) : tableAt mem pgdir i = none := by
  have hpde : pdeAt mem pgdir i = 0 := getU32_eq_zero fun x h1 h2 => hz x (inPage_pde hi h1 h2)
  simp only [tableAt, hpde]
  rfl

/-- A zeroed directory page has no tables, so it is well formed as soon as it is a page
off a well-formed free list: what `setupkvm`'s `memset` starts from. -/
theorem PdWf.zeroed (hroot : PhysPage pgdir) (hz : ∀ x, InPage pgdir x → k.mem x = 0)
    (hnf : pgdir ∉ k.free) (hfree : FreeWf k.free) : PdWf k pgdir := by
  refine ⟨hroot, hnf, fun i t hi ht => ?_, fun i _ t hi _ ht => ?_, hfree⟩
  · rw [tableAt_eq_none_of_zero hz hi] at ht
    cases ht
  · rw [tableAt_eq_none_of_zero hz hi] at ht
    cases ht

theorem PdWf.table_ne_root (hwf : PdWf k pgdir) {i t : Nat} (hi : i < NPDENTRIES)
    (ht : tableAt k.mem pgdir i = some t) : t ≠ pgdir :=
  (hwf.table i t hi ht).2.1

/-- Writing an entry of a table changes no directory entry. -/
theorem tableAt_setWord (hwf : PdWf k pgdir) {vpn t : Nat} (hvpn : vpn < 2 ^ 20)
    (ht : tableAt k.mem pgdir (vpn / NPTENTRIES) = some t) (e : UInt32) {j : Nat}
    (hj : j < NPDENTRIES) :
    tableAt (k.setWord (t + 4 * (vpn % NPTENTRIES)) e).mem pgdir j = tableAt k.mem pgdir j := by
  have hne := hwf.table_ne_root (vpn_div_lt hvpn) ht
  apply tableAt_congr_pde
  intro x h1 h2
  exact setU32_apply_of_inPage_ne e (inPage_entry t vpn).1 (inPage_entry t vpn).2
    hwf.root.1 (tableAt_aligned ht) hne.symm (inPage_pde hj h1 h2)

theorem PdWf.setWord (hwf : PdWf k pgdir) {vpn t : Nat} (hvpn : vpn < 2 ^ 20)
    (ht : tableAt k.mem pgdir (vpn / NPTENTRIES) = some t) (e : UInt32) :
    PdWf (k.setWord (t + 4 * (vpn % NPTENTRIES)) e) pgdir where
  root := hwf.root
  root_not_free := hwf.root_not_free
  table j t' hj h := hwf.table j t' hj (by rwa [tableAt_setWord hwf hvpn ht e hj] at h)
  table_inj j j' t' hj hj' h h' := hwf.table_inj j j' t' hj hj'
    (by rwa [tableAt_setWord hwf hvpn ht e hj] at h) (by rwa [tableAt_setWord hwf hvpn ht e hj'] at h')
  free := hwf.free

theorem pte_setWord_self (hwf : PdWf k pgdir) {vpn t : Nat} (hvpn : vpn < 2 ^ 20)
    (ht : tableAt k.mem pgdir (vpn / NPTENTRIES) = some t) (e : UInt32) :
    pte (k.setWord (t + 4 * (vpn % NPTENTRIES)) e).mem pgdir vpn = e := by
  unfold pte
  rw [tableAt_setWord hwf hvpn ht e (vpn_div_lt hvpn), ht]
  exact Bytes.getU32_setU32_self _ _ _

/-- Writing the entry of `vpn` leaves every other translation as it was: another entry
of the same table is four bytes away, and another table is another page. -/
theorem pte_setWord_of_ne (hwf : PdWf k pgdir) {vpn t : Nat} (hvpn : vpn < 2 ^ 20)
    (ht : tableAt k.mem pgdir (vpn / NPTENTRIES) = some t) (e : UInt32) {vpn' : Nat}
    (hvpn' : vpn' < 2 ^ 20) (hne : vpn' ≠ vpn) :
    pte (k.setWord (t + 4 * (vpn % NPTENTRIES)) e).mem pgdir vpn' = pte k.mem pgdir vpn' := by
  apply pte_congr_table (tableAt_setWord hwf hvpn ht e (vpn_div_lt hvpn'))
  intro t' ht' x h1 h2
  show Bytes.setU32 k.mem (t + 4 * (vpn % NPTENTRIES)) e x = k.mem x
  by_cases hsame : vpn' / NPTENTRIES = vpn / NPTENTRIES
  · rw [hsame, ht] at ht'
    obtain rfl := Option.some.inj ht'
    have hslot : vpn' % NPTENTRIES ≠ vpn % NPTENTRIES := fun h =>
      hne (by rw [← Nat.div_add_mod vpn' NPTENTRIES, ← Nat.div_add_mod vpn NPTENTRIES, hsame, h])
    apply Bytes.setU32_apply_of_ne
    omega
  · have htt : t' ≠ t := fun h =>
      hsame (hwf.table_inj _ _ t (vpn_div_lt hvpn') (vpn_div_lt hvpn) (h ▸ ht') ht)
    exact setU32_apply_of_inPage_ne e (inPage_entry t vpn).1 (inPage_entry t vpn).2
      (tableAt_aligned ht') (tableAt_aligned ht) htt (inPage_pte h1 h2)

variable {p : Nat} {rest : List Nat}

theorem tableAt_addTable_self (hwf : PdWf k pgdir) (hf : k.free = p :: rest) (i : Nat) :
    tableAt (k.addTable pgdir i p rest).mem pgdir i = some p :=
  tableAt_new_entry (hwf.free.page p (hf ▸ List.mem_cons_self ..)) (Bytes.getU32_setU32_self _ _ _)

theorem tableAt_addTable_of_ne (hwf : PdWf k pgdir) (hf : k.free = p :: rest) {i j : Nat}
    (hj : j < NPDENTRIES) (hji : j ≠ i) :
    tableAt (k.addTable pgdir i p rest).mem pgdir j = tableAt k.mem pgdir j := by
  have hp : p ∈ k.free := hf ▸ List.mem_cons_self ..
  have hpne : pgdir ≠ p := fun h => hwf.root_not_free (h ▸ hp)
  apply tableAt_congr_pde
  intro x h1 h2
  show Bytes.setU32 (memset k.mem p 0 PGSIZE) (pgdir + 4 * i) _ x = k.mem x
  rw [Bytes.setU32_apply_of_ne (by omega)]
  exact memset_apply_of_not_inPage 0
    (not_inPage_of_ne hwf.root.1 (hwf.free.page p hp).1 hpne (inPage_pde hj h1 h2))

/-- A new table reads as zero, which is what the absent one read, and no other
translation moves: the new page was free, so it is no page of the directory. -/
theorem pte_addTable (hwf : PdWf k pgdir) (hf : k.free = p :: rest) {i : Nat}
    (hi : i < NPDENTRIES) (hnone : tableAt k.mem pgdir i = none) {vpn : Nat} (hvpn : vpn < 2 ^ 20) :
    pte (k.addTable pgdir i p rest).mem pgdir vpn = pte k.mem pgdir vpn := by
  have hp : p ∈ k.free := hf ▸ List.mem_cons_self ..
  have hpal : p % PGSIZE = 0 := (hwf.free.page p hp).1
  have hpne : p ≠ pgdir := fun h => hwf.root_not_free (h ▸ hp)
  have hpde : InPage pgdir (pgdir + 4 * i) ∧ InPage pgdir (pgdir + 4 * i + 3) :=
    ⟨inPage_pde hi le_rfl (by omega), inPage_pde hi (by omega) (by omega)⟩
  by_cases hvi : vpn / NPTENTRIES = i
  · unfold pte
    rw [hvi, tableAt_addTable_self hwf hf i, hnone]
    apply getU32_eq_zero
    intro x h1 h2
    have hx : InPage p x := inPage_pte h1 h2
    show Bytes.setU32 (memset k.mem p 0 PGSIZE) (pgdir + 4 * i) _ x = 0
    rw [setU32_apply_of_inPage_ne _ hpde.1 hpde.2 hpal hwf.root.1 hpne hx]
    exact memset_apply_of_inPage 0 hx
  · apply pte_congr_table (tableAt_addTable_of_ne hwf hf (vpn_div_lt hvpn) hvi)
    intro t ht x h1 h2
    have hx : InPage t x := inPage_pte h1 h2
    obtain ⟨-, htne, htf⟩ := hwf.table _ t (vpn_div_lt hvpn) ht
    show Bytes.setU32 (memset k.mem p 0 PGSIZE) (pgdir + 4 * i) _ x = k.mem x
    rw [setU32_apply_of_inPage_ne _ hpde.1 hpde.2 (tableAt_aligned ht) hwf.root.1 htne hx]
    exact memset_apply_of_not_inPage 0
      (not_inPage_of_ne (tableAt_aligned ht) hpal (fun h => htf (h ▸ hp)) hx)

/-- A table of the directory after `addTable` is the new page at `i`, or an old table
elsewhere. -/
theorem tableAt_addTable (hwf : PdWf k pgdir) (hf : k.free = p :: rest) {i j t : Nat}
    (hj : j < NPDENTRIES) (ht : tableAt (k.addTable pgdir i p rest).mem pgdir j = some t) :
    (j = i ∧ t = p) ∨ tableAt k.mem pgdir j = some t := by
  by_cases hji : j = i
  · rw [hji, tableAt_addTable_self hwf hf i] at ht
    exact Or.inl ⟨hji, (Option.some.inj ht).symm⟩
  · rw [tableAt_addTable_of_ne hwf hf hj hji] at ht
    exact Or.inr ht

theorem PdWf.addTable (hwf : PdWf k pgdir) (hf : k.free = p :: rest) (i : Nat) :
    PdWf (k.addTable pgdir i p rest) pgdir := by
  have hp : p ∈ k.free := hf ▸ List.mem_cons_self ..
  have hfree : FreeWf (p :: rest) := hf ▸ hwf.free
  have hrest : p ∉ rest := (List.nodup_cons.mp hfree.nodup).1
  have htab : ∀ j t, j < NPDENTRIES → tableAt (k.addTable pgdir i p rest).mem pgdir j = some t →
      (j = i ∧ t = p) ∨ tableAt k.mem pgdir j = some t := fun _ _ hj ht => tableAt_addTable hwf hf hj ht
  refine ⟨hwf.root, fun h => hwf.root_not_free (hf ▸ List.mem_cons_of_mem p h), ?_, ?_, hfree.tail⟩
  · intro j t hj ht
    rcases htab j t hj ht with ⟨-, rfl⟩ | ht
    · exact ⟨(hfree.page t List.mem_cons_self).2, fun h => hwf.root_not_free (h ▸ hp), hrest⟩
    · obtain ⟨h1, h2, h3⟩ := hwf.table j t hj ht
      exact ⟨h1, h2, fun h => h3 (hf ▸ List.mem_cons_of_mem p h)⟩
  · intro j j' t hj hj' ht ht'
    rcases htab j t hj ht with ⟨hji, htp⟩ | hold <;> rcases htab j' t hj' ht' with ⟨hji', htp'⟩ | hold'
    · rw [hji, hji']
    · exact absurd (htp ▸ hp) (hwf.table j' t hj' hold').2.2
    · exact absurd (htp' ▸ hp) (hwf.table j t hj hold).2.2
    · exact hwf.table_inj j j' t hj hj' hold hold'

/-- `walkpgdir` with `create` on a well-formed directory: it may take a page off the
free list for the table, and keeps the directory well formed and every translation
as it was. -/
theorem walkpgdir_create_spec (hwf : PdWf k pgdir) {va : UInt32} {k1 : Kmem} {q : Nat}
    (h : walkpgdir k pgdir va true = some (k1, q)) :
    PdWf k1 pgdir ∧ k1.free <:+ k.free ∧ (∀ vpn < 2 ^ 20, pte k1.mem pgdir vpn = pte k.mem pgdir vpn) ∧
      ∃ t, tableAt k1.mem pgdir (PDX va) = some t ∧ q = t + 4 * PTX va := by
  cases ht : tableAt k.mem pgdir (PDX va) with
  | some t =>
    rw [walkpgdir_present ht] at h
    obtain ⟨rfl, rfl⟩ := Prod.mk.inj (Option.some.inj h)
    exact ⟨hwf, List.suffix_refl _, fun _ _ => rfl, t, ht, rfl⟩
  | none =>
    cases hf : k.free with
    | nil => rw [walkpgdir_nomem ht hf] at h; cases h
    | cons p rest =>
      rw [walkpgdir_alloc ht hf] at h
      obtain ⟨rfl, rfl⟩ := Prod.mk.inj (Option.some.inj h)
      exact ⟨hwf.addTable hf _, List.suffix_cons p rest,
        fun vpn hv => pte_addTable hwf hf (PDX_lt va) ht hv, p, tableAt_addTable_self hwf hf _, rfl⟩

/-- A table after `walkpgdir` was one before, or came off the free list. -/
theorem walkpgdir_tables (hwf : PdWf k pgdir) {va : UInt32} {k1 : Kmem} {q : Nat}
    (h : walkpgdir k pgdir va true = some (k1, q)) {j t : Nat} (hj : j < NPDENTRIES)
    (ht : tableAt k1.mem pgdir j = some t) : tableAt k.mem pgdir j = some t ∨ t ∈ k.free := by
  cases hta : tableAt k.mem pgdir (PDX va) with
  | some t' =>
    rw [walkpgdir_present hta] at h
    obtain ⟨rfl, -⟩ := Prod.mk.inj (Option.some.inj h)
    exact .inl ht
  | none =>
    cases hf : k.free with
    | nil => rw [walkpgdir_nomem hta hf] at h; cases h
    | cons p rest =>
      rw [walkpgdir_alloc hta hf] at h
      obtain ⟨rfl, -⟩ := Prod.mk.inj (Option.some.inj h)
      rcases tableAt_addTable hwf hf hj ht with ⟨-, rfl⟩ | hold
      · exact .inr List.mem_cons_self
      · exact .inl hold

/-- One iteration of `mappages`' loop, up to its test of `a == last`: the entry
`walkpgdir` finds is the old translation of the page, and writing `e` there maps that
page to `e` and no other. -/
theorem mappages_entry (hwf : PdWf k pgdir) {a : UInt32} {k1 : Kmem} {q : Nat}
    (hw : walkpgdir k pgdir a true = some (k1, q)) (e : UInt32) :
    Bytes.getU32 k1.mem q = pte k.mem pgdir (a.toNat / PGSIZE) ∧ PdWf (k1.setWord q e) pgdir ∧
      (k1.setWord q e).free <:+ k.free ∧ pte (k1.setWord q e).mem pgdir (a.toNat / PGSIZE) = e ∧
      ∀ vpn < 2 ^ 20, vpn ≠ a.toNat / PGSIZE →
        pte (k1.setWord q e).mem pgdir vpn = pte k.mem pgdir vpn := by
  obtain ⟨hwf1, hsuf, hpte, t, ht, rfl⟩ := walkpgdir_create_spec hwf hw
  have hvpn : a.toNat / PGSIZE < 2 ^ 20 := by
    have := a.toNat_lt
    simp only [PGSIZE]
    omega
  have hget := getU32_entry ht
  rw [PDX_vpn] at ht
  rw [PTX_vpn] at hget ⊢
  refine ⟨hget.trans (hpte _ hvpn), hwf1.setWord hvpn ht e, hsuf, pte_setWord_self hwf1 hvpn ht e, ?_⟩
  intro vpn hv hne
  exact (pte_setWord_of_ne hwf1 hvpn ht e hv hne).trans (hpte vpn hv)

end Directory

/-! ## The loop -/

theorem toUInt32_add_page (pa : UInt32) (j : Nat) :
    pa + 4096 + (j * PGSIZE).toUInt32 = pa + ((j + 1) * PGSIZE).toUInt32 := by
  apply UInt32.toNat_inj.mp
  have h4096 : (4096 : UInt32).toNat = 4096 := rfl
  simp only [UInt32.toNat_add, Nat.toUInt32, UInt32.toNat_ofNat', PGSIZE, h4096]
  omega

theorem add_toUInt32_zero_page (pa : UInt32) : pa + (0 * PGSIZE).toUInt32 = pa :=
  UInt32.add_zero pa

theorem toNat_add_page {a : UInt32} (h : a.toNat + PGSIZE < 2 ^ 32) :
    (a + 4096).toNat = a.toNat + PGSIZE := by
  rw [UInt32.toNat_add]
  exact Nat.mod_eq_of_lt h

/-- The first iteration of the loop, when the loop returns: the entry of page `a` was
not present and now maps `pa`, and the loop ends there or goes on from the next page. -/
theorem mappagesLoop_head {pgdir : Nat} {perm : UInt32} {n : Nat} {k k' : Kmem} {a pa : UInt32}
    (hwf : PdWf k pgdir) (h : mappagesLoop pgdir perm n k a pa = .ok (0, k')) :
    ∃ k2 : Kmem, PdWf k2 pgdir ∧ k2.free <:+ k.free ∧
      pte k2.mem pgdir (a.toNat / PGSIZE) = pa ||| perm ||| PTE_P ∧
      pte k.mem pgdir (a.toNat / PGSIZE) &&& PTE_P = 0 ∧
      (∀ vpn < 2 ^ 20, vpn ≠ a.toNat / PGSIZE → pte k2.mem pgdir vpn = pte k.mem pgdir vpn) ∧
      (n = 0 → k' = k2) ∧
      ∀ m, n = m + 1 → mappagesLoop pgdir perm m k2 (a + 4096) (pa + 4096) = .ok (0, k') := by
  rw [mappagesLoop] at h
  cases hw : walkpgdir k pgdir a true with
  | none => rw [hw] at h; cases h
  | some r =>
    obtain ⟨k1, q⟩ := r
    obtain ⟨hget, hwf2, hsuf2, hself, hother⟩ := mappages_entry hwf hw (pa ||| perm ||| PTE_P)
    rw [hw] at h
    dsimp only at h
    by_cases hpres : Bytes.getU32 k1.mem q &&& PTE_P ≠ 0
    · rw [if_pos hpres] at h
      cases h
    · rw [if_neg hpres] at h
      have hfree0 : pte k.mem pgdir (a.toNat / PGSIZE) &&& PTE_P = 0 := by
        rw [← hget]
        exact not_not.mp hpres
      refine ⟨_, hwf2, hsuf2, hself, hfree0, hother, fun hn => ?_, fun m hm => ?_⟩
      · subst hn
        cases h
        rfl
      · subst hm
        exact h

/-- What the loop does when it returns: from page `a` on, `n + 1` pages are mapped to
consecutive addresses from `pa`, none of them was present before, and every other
translation is unchanged. The induction is on `n`, the pages left after `a`. -/
theorem mappagesLoop_ok {pgdir : Nat} (perm : UInt32) :
    ∀ (n : Nat) {k k' : Kmem} {a pa : UInt32}, PdWf k pgdir → a.toNat + n * PGSIZE < 2 ^ 32 →
      mappagesLoop pgdir perm n k a pa = .ok (0, k') →
      PdWf k' pgdir ∧ k'.free <:+ k.free ∧
        (∀ i ≤ n, pte k'.mem pgdir (a.toNat / PGSIZE + i) =
            (pa + (i * PGSIZE).toUInt32) ||| perm ||| PTE_P ∧
          pte k.mem pgdir (a.toNat / PGSIZE + i) &&& PTE_P = 0) ∧
        ∀ vpn < 2 ^ 20, (vpn < a.toNat / PGSIZE ∨ a.toNat / PGSIZE + n < vpn) →
          pte k'.mem pgdir vpn = pte k.mem pgdir vpn := by
  intro n
  induction n with
  | zero =>
    intro k k' a pa hwf hn h
    obtain ⟨k2, hwf2, hsuf2, hself, hfree0, hother, hdone, -⟩ := mappagesLoop_head hwf h
    obtain rfl := hdone rfl
    refine ⟨hwf2, hsuf2, fun i hi => ?_, fun vpn hv hout => hother vpn hv (by omega)⟩
    obtain rfl : i = 0 := by omega
    rw [Nat.add_zero, add_toUInt32_zero_page]
    exact ⟨hself, hfree0⟩
  | succ n ih =>
    intro k k' a pa hwf hn h
    obtain ⟨k2, hwf2, hsuf2, hself, hfree0, hother, -, hrec⟩ := mappagesLoop_head hwf h
    have hnext : (a + 4096).toNat = a.toNat + PGSIZE :=
      toNat_add_page (by simp only [PGSIZE] at hn ⊢; omega)
    have hdiv : (a + 4096).toNat / PGSIZE = a.toNat / PGSIZE + 1 := by
      rw [hnext, Nat.add_div_right _ (by decide)]
    have hv0 : a.toNat / PGSIZE < 2 ^ 20 := by
      have := a.toNat_lt
      simp only [PGSIZE]
      omega
    obtain ⟨hwf', hsuf', hin, hout⟩ :=
      ih hwf2 (by rw [hnext]; simp only [PGSIZE] at hn ⊢; omega) (hrec n rfl)
    rw [hdiv] at hin hout
    refine ⟨hwf', hsuf'.trans hsuf2, fun i hi => ?_, fun vpn hv hout' => ?_⟩
    · rcases i with _ | j
      · rw [Nat.add_zero, add_toUInt32_zero_page, hout _ hv0 (by omega)]
        exact ⟨hself, hfree0⟩
      · obtain ⟨h1, h2⟩ := hin j (by omega)
        rw [Nat.add_assoc, Nat.add_comm 1 j, toUInt32_add_page] at h1
        rw [Nat.add_assoc, Nat.add_comm 1 j] at h2
        refine ⟨h1, ?_⟩
        rw [← hother _ (by simp only [PGSIZE] at hv0 hn ⊢; omega) (by omega)]
        exact h2
    · rw [hout vpn hv (by omega)]
      exact hother vpn hv (by omega)

/-! ## `mappages` -/

/-- `la + size - 1` does not wrap. -/
theorem toNat_last {la size : UInt32} (hsize : 0 < size.toNat) (hwrap : la.toNat + size.toNat ≤ 2 ^ 32) :
    (la + size - 1).toNat = la.toNat + size.toNat - 1 := by
  have h1 : (1 : UInt32).toNat = 1 := rfl
  rw [UInt32.toNat_sub, UInt32.toNat_add, h1]
  omega

/-- The loop count `mappages` gives its loop takes `a` from `PGROUNDDOWN(la)` to exactly
`PGROUNDDOWN(la + size - 1)`, the page where the C loop's `a == last` stops it. -/
theorem mappages_count {la size : UInt32} (hsize : 0 < size.toNat)
    (hwrap : la.toNat + size.toNat ≤ 2 ^ 32) :
    (PGROUNDDOWN la).toNat + (PGROUNDDOWN (la + size - 1) - PGROUNDDOWN la).toNat / PGSIZE * PGSIZE =
      (PGROUNDDOWN (la + size - 1)).toNat := by
  have hl := toNat_last hsize hwrap
  have hle : PGROUNDDOWN la ≤ PGROUNDDOWN (la + size - 1) := by
    rw [UInt32.le_iff_toNat_le, PGROUNDDOWN_toNat, PGROUNDDOWN_toNat, hl]
    exact Nat.mul_le_mul_right _ (Nat.div_le_div_right (by omega))
  rw [UInt32.toNat_sub_of_le _ _ hle, PGROUNDDOWN_toNat, PGROUNDDOWN_toNat, hl, PGSIZE]
  rw [← Nat.sub_mul, Nat.mul_div_cancel _ (by decide)]
  have : la.toNat / 4096 ≤ (la.toNat + size.toNat - 1) / 4096 := Nat.div_le_div_right (by omega)
  rw [← Nat.add_mul]
  congr 1
  omega

/-- `mappages` on a well-formed directory, for a range that does not wrap: when it
returns `0`, the directory is still well formed, the tables it made came off the free
list, every page from `PGROUNDDOWN(la)` to `PGROUNDDOWN(la + size - 1)` translates to
`pa` plus its offset in the range, with `perm` and `PTE_P`, none of them was present
before (a present one would have panicked), every other translation is unchanged, so
that the entries of a new table outside the range are zero, and the loop stopped where
`a` reached `last`. -/
theorem mappages_maps {k k' : Kmem} {pgdir : Nat} (hwf : PdWf k pgdir) {la size pa perm : UInt32}
    (hsize : 0 < size.toNat) (hwrap : la.toNat + size.toNat ≤ 2 ^ 32)
    (h : mappages k pgdir la size pa perm = .ok (0, k')) :
    PdWf k' pgdir ∧ k'.free <:+ k.free ∧
      (∀ vpn, la.toNat / PGSIZE ≤ vpn → vpn ≤ (la.toNat + size.toNat - 1) / PGSIZE →
        pte k'.mem pgdir vpn = (pa + ((vpn - la.toNat / PGSIZE) * PGSIZE).toUInt32) ||| perm ||| PTE_P ∧
          pte k.mem pgdir vpn &&& PTE_P = 0) ∧
      (∀ vpn < 2 ^ 20, (vpn < la.toNat / PGSIZE ∨ (la.toNat + size.toNat - 1) / PGSIZE < vpn) →
        pte k'.mem pgdir vpn = pte k.mem pgdir vpn) ∧
      (∀ vpn < 2 ^ 20, tableAt k.mem pgdir (vpn / NPTENTRIES) = none →
        (vpn < la.toNat / PGSIZE ∨ (la.toNat + size.toNat - 1) / PGSIZE < vpn) →
        pte k'.mem pgdir vpn = 0) ∧
      (PGROUNDDOWN la).toNat + (PGROUNDDOWN (la + size - 1) - PGROUNDDOWN la).toNat / PGSIZE * PGSIZE =
        (PGROUNDDOWN (la + size - 1)).toNat := by
  have hcount := mappages_count hsize hwrap
  have hl := toNat_last hsize hwrap
  have ha : (PGROUNDDOWN la).toNat / PGSIZE = la.toNat / PGSIZE := by
    rw [PGROUNDDOWN_toNat, PGSIZE, Nat.mul_div_cancel _ (by decide)]
  have hlast : (PGROUNDDOWN (la + size - 1)).toNat / PGSIZE = (la.toNat + size.toNat - 1) / PGSIZE := by
    rw [PGROUNDDOWN_toNat, PGSIZE, Nat.mul_div_cancel _ (by decide), hl]
  -- the range of the loop, in page numbers
  have hn : (PGROUNDDOWN la).toNat / PGSIZE + (PGROUNDDOWN (la + size - 1) - PGROUNDDOWN la).toNat / PGSIZE =
      (la.toNat + size.toNat - 1) / PGSIZE := by
    rw [← hlast, ← hcount, PGSIZE, Nat.add_mul_div_right _ _ (by decide)]
  have hlt := (PGROUNDDOWN (la + size - 1)).toNat_lt
  obtain ⟨hwf', hsuf, hin, hout⟩ := mappagesLoop_ok perm _ hwf (by rw [hcount]; exact hlt) h
  refine ⟨hwf', hsuf, fun vpn h1 h2 => ?_, fun vpn hv hr => hout vpn hv (by omega), ?_, hcount⟩
  · have := hin (vpn - la.toNat / PGSIZE) (by omega)
    rwa [ha, Nat.add_sub_cancel' h1] at this
  · intro vpn hv hnone hr
    rw [hout vpn hv (by omega)]
    unfold pte
    rw [hnone]

/-- A zeroed directory at `0x1000` with one free page, `0x2000`, for its table. -/
def emptyDir : Kmem := ⟨fun _ => 0, [0x2000]⟩

theorem emptyDir_wf : PdWf emptyDir 0x1000 :=
  PdWf.zeroed (by simp [PhysPage, PGSIZE, PHYSTOP]) (fun _ _ => rfl) (by decide)
    ⟨by decide, by simp [emptyDir, PhysPage, PGSIZE, PHYSTOP]⟩

/-- Mapping the first user page of `emptyDir` to `0x5000`. -/
theorem mappages_maps_first_page :
    pte ((emptyDir.addTable 0x1000 0 0x2000 []).setWord 0x2000
        (0x5000 ||| (PTE_W ||| PTE_U) ||| PTE_P)).mem 0x1000 0 =
      0x5000 ||| (PTE_W ||| PTE_U) ||| PTE_P := by
  have hmap : mappages emptyDir 0x1000 0 4096 0x5000 (PTE_W ||| PTE_U) = .ok (0,
      (emptyDir.addTable 0x1000 0 0x2000 []).setWord 0x2000 (0x5000 ||| (PTE_W ||| PTE_U) ||| PTE_P)) :=
    rfl
  exact ((mappages_maps emptyDir_wf (by decide) (by decide) hmap).2.2.1 0 (by decide) (by decide)).1

end Xv6
