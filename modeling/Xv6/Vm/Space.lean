import Xv6.Vm.Uvm

/-!
# The address spaces the kernel builds

`setupkvm` gives a new directory the kernel's mappings, `allocuvm` and `copyuvm` map user
pages to pages fresh off the free list, and `deallocuvm` gives them back. What they keep of
a directory is more than `PdWf` (`UvmWf`): a present entry below `USERTOP` is a user entry
and one above it a kernel entry, `PTE_U` telling them apart, and each user entry maps a
page of its own (`Owned`): not `0`, off the free list, neither the directory nor one of its
tables, and mapped by no other user entry.

Each function is taken one step of its loop at a time: `kalloc` and the writes into the
page it gave (`UvmWf.take`), one page mapped for the user (`UvmWf.mappages_page`), one
page given back (`UvmWf.release`), one range of `kmap` mapped for the kernel
(`KvmWf.mappages`). The loops follow by induction, and so every directory that
`setupkvm`, `allocuvm`, `deallocuvm` and `copyuvm` return keeps `UvmWf` (`setupkvm_wf`,
`allocuvm_wf`, `deallocuvm_wf`, `copyuvm_wf`). `mappages_maps` then holds of all of them,
and `copyout` never writes the translation it reads (`Xv6.Vm.Copyout`).
-/

namespace Xv6

/-- The pages of the user part of an address space, below `USERTOP`. -/
def userPages : Nat := USERTOP / PGSIZE

/-- An entry that maps a page for the user: present, with `PTE_U`. -/
def UserPte (e : UInt32) : Prop := e &&& PTE_P ≠ 0 ∧ e &&& PTE_U ≠ 0

instance (e : UInt32) : Decidable (UserPte e) := inferInstanceAs (Decidable (_ ∧ _))

/-- The page the entry of `vpn` maps, when it is present. -/
def frameAt (mem : Nat → UInt8) (pgdir vpn : Nat) : Option Nat :=
  if pte mem pgdir vpn &&& PTE_P ≠ 0 then some (PTE_ADDR (pte mem pgdir vpn)).toNat else none

/-- A page that belongs to the user part of the directory alone. -/
structure Owned (k : Kmem) (pgdir f : Nat) : Prop where
  page : PhysPage f
  ne_zero : f ≠ 0
  ne_root : f ≠ pgdir
  not_free : f ∉ k.free
  not_table : ∀ i < NPDENTRIES, tableAt k.mem pgdir i ≠ some f

/-- A directory as the kernel keeps it. -/
structure UvmWf (k : Kmem) (pgdir : Nat) : Prop where
  dir : PdWf k pgdir
  zero_not_free : 0 ∉ k.free
  user : ∀ vpn < 2 ^ 20, pte k.mem pgdir vpn &&& PTE_P ≠ 0 →
    (vpn < userPages ↔ pte k.mem pgdir vpn &&& PTE_U ≠ 0)
  owned : ∀ vpn f, vpn < userPages → frameAt k.mem pgdir vpn = some f → Owned k pgdir f
  inj : ∀ v w f, v < userPages → w < userPages → frameAt k.mem pgdir v = some f →
    frameAt k.mem pgdir w = some f → v = w

/-- A page the directory may map for the user: its own, and not mapped yet. -/
structure Fresh (k : Kmem) (pgdir m : Nat) : Prop where
  owned : Owned k pgdir m
  unmapped : ∀ vpn < userPages, frameAt k.mem pgdir vpn ≠ some m

theorem userPages_lt {vpn : Nat} (h : vpn < userPages) : vpn < 2 ^ 20 := by
  simp only [userPages, USERTOP, PGSIZE] at h
  omega

theorem userPages_of_lt {a : Nat} (h : a < USERTOP) : a / PGSIZE < userPages := by
  simp only [userPages, USERTOP, PGSIZE] at *
  omega

/-! ## Entries -/

/-- The user bit of an entry. -/
theorem and_U_ne_zero_iff (e : UInt32) : e &&& PTE_U ≠ 0 ↔ e.toNat / 4 % 2 = 1 := by
  have h : (e &&& PTE_U).toNat = e.toNat / 4 % 2 * 4 := by
    rw [UInt32.toNat_and, show PTE_U.toNat = 2 ^ 2 from rfl, Nat.and_comm, Nat.two_pow_and,
      Nat.toNat_testBit, Nat.mul_comm]
    rfl
  rw [Ne, ← UInt32.toNat_inj, h, UInt32.toNat_zero]
  omega

/-- The entry `allocuvm` and `copyuvm` write for the page `m`: a user entry that maps `m`. -/
theorem userEntry {m : Nat} (hm : PhysPage m) :
    UserPte (m.toUInt32 ||| (PTE_W ||| PTE_U) ||| PTE_P) ∧
      (PTE_ADDR (m.toUInt32 ||| (PTE_W ||| PTE_U) ||| PTE_P)).toNat = m := by
  have hlt : m < 2 ^ 32 := by
    have := hm.2
    simp only [PGSIZE, PHYSTOP] at this
    omega
  have hmn : m.toUInt32.toNat = m := Word32.toNat_toUInt32_of_lt hlt
  have hv : (m.toUInt32 ||| (PTE_W ||| PTE_U) ||| PTE_P).toNat = m + 7 := by
    rw [toNat_entry (by rw [hmn]; exact hm.1) (by decide) (by decide), hmn]
    rfl
  have h1 := hm.1
  simp only [PGSIZE] at h1
  refine ⟨⟨?_, ?_⟩, ?_⟩
  · rw [and_P_ne_zero_iff, hv]
    omega
  · rw [and_U_ne_zero_iff, hv]
    omega
  · rw [PTE_ADDR_toNat, hv]
    omega

/-- An entry `setupkvm` writes, for a page-aligned address and a permission without
`PTE_U`, is no user entry. -/
theorem kernelEntry_not_user {x perm : UInt32} (hx : x.toNat % PGSIZE = 0) (hp : perm.toNat < 4)
    (hp2 : perm.toNat % 2 = 0) : ¬ (x ||| perm ||| PTE_P) &&& PTE_U ≠ 0 := by
  have hv := toNat_entry (by simpa only [PGSIZE] using hx) (by omega) hp2
  rw [and_U_ne_zero_iff, hv]
  simp only [PGSIZE] at hx
  omega

/-! ## Memory that keeps every translation -/

/-- `mem'` agrees with `mem` where a translation through `pgdir` reads: the directory's page
and its tables. -/
structure DirAgree (mem mem' : Nat → UInt8) (pgdir : Nat) : Prop where
  root : ∀ x, InPage pgdir x → mem' x = mem x
  table : ∀ i < NPDENTRIES, ∀ t, tableAt mem pgdir i = some t → ∀ x, InPage t x → mem' x = mem x

section Agree

variable {mem mem' : Nat → UInt8} {pgdir : Nat}

theorem DirAgree.tableAt_eq (h : DirAgree mem mem' pgdir) {i : Nat} (hi : i < NPDENTRIES) :
    tableAt mem' pgdir i = tableAt mem pgdir i :=
  tableAt_congr hi h.root

theorem DirAgree.pte_eq (h : DirAgree mem mem' pgdir) {vpn : Nat} (hv : vpn < 2 ^ 20) :
    pte mem' pgdir vpn = pte mem pgdir vpn :=
  pte_congr hv h.root fun t ht => h.table _ (vpn_div_lt hv) t ht

theorem DirAgree.frameAt_eq (h : DirAgree mem mem' pgdir) {vpn : Nat} (hv : vpn < 2 ^ 20) :
    frameAt mem' pgdir vpn = frameAt mem pgdir vpn := by
  simp only [frameAt, h.pte_eq hv]

end Agree

section Wf

variable {k k' : Kmem} {pgdir : Nat}

/-- Writes inside a page that is neither the directory nor one of its tables keep every
translation. -/
theorem dirAgree_of_page (hwf : PdWf k pgdir) {m : Nat} (hm : m % PGSIZE = 0) (hroot : m ≠ pgdir)
    (htab : ∀ i < NPDENTRIES, tableAt k.mem pgdir i ≠ some m) {mem' : Nat → UInt8}
    (h : ∀ x, ¬ InPage m x → mem' x = k.mem x) : DirAgree k.mem mem' pgdir where
  root x hx := h x (not_inPage_of_ne hwf.root.1 hm (Ne.symm hroot) hx)
  table i hi _t ht x hx := h x (not_inPage_of_ne (tableAt_aligned ht) hm (fun e => htab i hi (e ▸ ht)) hx)

theorem PdWf.congr (hwf : PdWf k pgdir) (hfree : k'.free = k.free)
    (hroot : ∀ x, InPage pgdir x → k'.mem x = k.mem x) : PdWf k' pgdir where
  root := hwf.root
  root_not_free := by
    rw [hfree]
    exact hwf.root_not_free
  table i t hi h := by
    rw [hfree]
    exact hwf.table i t hi (by rwa [tableAt_congr hi hroot] at h)
  table_inj i j t hi hj h h' :=
    hwf.table_inj i j t hi hj (by rwa [tableAt_congr hi hroot] at h) (by rwa [tableAt_congr hj hroot] at h')
  free := by
    rw [hfree]
    exact hwf.free

/-- An owned page stays owned while pages only leave the free list and every new table
comes off it. -/
theorem Owned.mono {f : Nat} (h : Owned k pgdir f) (hfree : ∀ x ∈ k'.free, x ∈ k.free)
    (htab : ∀ i < NPDENTRIES, ∀ t, tableAt k'.mem pgdir i = some t → tableAt k.mem pgdir i = some t ∨ t ∈ k.free) :
    Owned k' pgdir f where
  page := h.page
  ne_zero := h.ne_zero
  ne_root := h.ne_root
  not_free hf := h.not_free (hfree f hf)
  not_table i hi ht := (htab i hi f ht).elim (h.not_table i hi) h.not_free

/-- Writes that keep every translation, with the free list as it was, keep `UvmWf`. -/
theorem UvmWf.congr (hwf : UvmWf k pgdir) (hfree : k'.free = k.free) (hag : DirAgree k.mem k'.mem pgdir) :
    UvmWf k' pgdir where
  dir := hwf.dir.congr hfree hag.root
  zero_not_free := by
    rw [hfree]
    exact hwf.zero_not_free
  user vpn hv hp := by
    rw [hag.pte_eq hv] at hp ⊢
    exact hwf.user vpn hv hp
  owned vpn f hv h := by
    rw [hag.frameAt_eq (userPages_lt hv)] at h
    exact (hwf.owned vpn f hv h).mono (fun x hx => by rwa [hfree] at hx)
      fun i hi t ht => .inl (by rwa [hag.tableAt_eq hi] at ht)
  inj v w f hv hw h h' := by
    rw [hag.frameAt_eq (userPages_lt hv)] at h
    rw [hag.frameAt_eq (userPages_lt hw)] at h'
    exact hwf.inj v w f hv hw h h'

/-- `kalloc` takes the head of the free list, and the directory keeps its invariant. -/
theorem UvmWf.pop (hwf : UvmWf k pgdir) {m : Nat} {rest : List Nat} (hf : k.free = m :: rest) :
    UvmWf { k with free := rest } pgdir := by
  have hsub : ∀ x ∈ rest, x ∈ k.free := fun x hx => hf ▸ List.mem_cons_of_mem m hx
  refine ⟨⟨hwf.dir.root, fun h => hwf.dir.root_not_free (hsub _ h), fun i t hi ht => ?_,
    hwf.dir.table_inj, (hf ▸ hwf.dir.free).tail⟩, fun h => hwf.zero_not_free (hsub 0 h), hwf.user,
    fun vpn f hv h => (hwf.owned vpn f hv h).mono hsub fun i _ t ht => .inl ht, hwf.inj⟩
  obtain ⟨h1, h2, h3⟩ := hwf.dir.table i t hi ht
  exact ⟨h1, h2, fun h => h3 (hsub t h)⟩

/-- `kalloc`, then writes inside the page it gave: the directory keeps its invariant, and
the page is one it may map. -/
theorem UvmWf.take (hwf : UvmWf k pgdir) {m : Nat} {rest : List Nat} (hf : k.free = m :: rest)
    {mem' : Nat → UInt8} (hmem : ∀ x, ¬ InPage m x → mem' x = k.mem x) :
    UvmWf ⟨mem', rest⟩ pgdir ∧ Fresh ⟨mem', rest⟩ pgdir m := by
  have hmf : m ∈ k.free := hf ▸ List.mem_cons_self
  have hpage : PhysPage m := hwf.dir.free.page m hmf
  have hroot : m ≠ pgdir := fun h => hwf.dir.root_not_free (h ▸ hmf)
  have hnt : ∀ i < NPDENTRIES, tableAt k.mem pgdir i ≠ some m :=
    fun i hi ht => (hwf.dir.table i m hi ht).2.2 hmf
  have hag : DirAgree k.mem mem' pgdir := dirAgree_of_page hwf.dir hpage.1 hroot hnt hmem
  have hwf' : UvmWf ⟨mem', rest⟩ pgdir := (hwf.pop hf).congr rfl hag
  refine ⟨hwf', ⟨⟨hpage, fun h => hwf.zero_not_free (h ▸ hmf), hroot,
    (List.nodup_cons.mp (hf ▸ hwf.dir.free.nodup)).1, fun i hi ht => hnt i hi ?_⟩, fun vpn hv h => ?_⟩⟩
  · rwa [hag.tableAt_eq hi] at ht
  · -- a page some user entry maps is off the free list, and `m` was on it
    rw [hag.frameAt_eq (userPages_lt hv)] at h
    exact (hwf.owned vpn m hv h).not_free hmf

/-! ## One user page mapped -/

/-- `mappages` of one page at a page boundary is one iteration of its loop. -/
theorem mappages_page_eq {k : Kmem} {pgdir : Nat} {a pa perm : UInt32} (ha : a.toNat % PGSIZE = 0)
    (hlt : a.toNat + PGSIZE ≤ 2 ^ 32) :
    mappages k pgdir a 4096 pa perm = mappagesLoop pgdir perm 0 k a pa := by
  have h4 : (4096 : UInt32).toNat = 4096 := rfl
  have hl := @toNat_last a 4096 (by decide) (by rw [h4]; simpa only [PGSIZE] using hlt)
  rw [h4] at hl
  simp only [PGSIZE] at ha
  have hdown : PGROUNDDOWN a = a := UInt32.toNat_inj.mp (by rw [PGROUNDDOWN_toNat]; omega)
  have hlast : PGROUNDDOWN (a + 4096 - 1) = a := UInt32.toNat_inj.mp (by rw [PGROUNDDOWN_toNat, hl]; omega)
  simp only [mappages, hdown, hlast, UInt32.sub_self]
  rfl

/-- The one iteration: `walkpgdir` finds no table and nothing is written, or it finds the
entry, which is not present, and writes it. -/
theorem mappagesLoop_zero {pgdir : Nat} {perm : UInt32} {k k' : Kmem} {a pa : UInt32} {r : Int}
    (h : mappagesLoop pgdir perm 0 k a pa = .ok (r, k')) :
    (r = -1 ∧ k' = k) ∨ ∃ k1 q, walkpgdir k pgdir a true = some (k1, q) ∧ r = 0 ∧
      k' = k1.setWord q (pa ||| perm ||| PTE_P) := by
  rw [mappagesLoop] at h
  cases hw : walkpgdir k pgdir a true with
  | none =>
    rw [hw] at h
    cases h
    exact .inl ⟨rfl, rfl⟩
  | some w =>
    obtain ⟨k1, q⟩ := w
    rw [hw] at h
    dsimp only at h
    split at h
    · cases h
    · cases h
      exact .inr ⟨k1, q, rfl, rfl, rfl⟩

/-- A table after the entry write was one before, or came off the free list. -/
theorem setWord_tables (hwf : PdWf k pgdir) {va : UInt32} {k1 : Kmem} {q : Nat}
    (hw : walkpgdir k pgdir va true = some (k1, q)) (e : UInt32) {i t : Nat} (hi : i < NPDENTRIES)
    (ht : tableAt (k1.setWord q e).mem pgdir i = some t) : tableAt k.mem pgdir i = some t ∨ t ∈ k.free := by
  obtain ⟨hwf1, -, -, t0, ht0, rfl⟩ := walkpgdir_create_spec hwf hw
  have hvpn : va.toNat / PGSIZE < 2 ^ 20 := by
    have := va.toNat_lt
    simp only [PGSIZE]
    omega
  rw [PDX_vpn] at ht0
  rw [PTX_vpn, tableAt_setWord hwf1 hvpn ht0 e hi] at ht
  exact walkpgdir_tables hwf hw hi ht

/-- One page mapped for the user by `mappages`, as `allocuvm` and `copyuvm` do it, to a
page the directory may map: the directory keeps its invariant, whether `mappages` finds a
table or fails for want of one. -/
theorem UvmWf.mappages_page (hwf : UvmWf k pgdir) {a : UInt32} (ha : a.toNat % PGSIZE = 0)
    (hu : a.toNat < USERTOP) {m : Nat} (hm : Fresh k pgdir m) {r : Int}
    (h : mappages k pgdir a 4096 m.toUInt32 (PTE_W ||| PTE_U) = .ok (r, k')) : UvmWf k' pgdir := by
  have hlt : a.toNat + PGSIZE ≤ 2 ^ 32 := by
    simp only [USERTOP, PGSIZE] at hu ⊢
    omega
  rw [mappages_page_eq ha hlt] at h
  rcases mappagesLoop_zero h with ⟨-, rfl⟩ | ⟨k1, q, hw, -, rfl⟩
  · exact hwf
  have hvu := userPages_of_lt hu
  obtain ⟨-, hwf', hsuf, hself, hother⟩ :=
    mappages_entry hwf.dir hw (m.toUInt32 ||| (PTE_W ||| PTE_U) ||| PTE_P)
  obtain ⟨huser, haddr⟩ := userEntry hm.owned.page
  have hsub : ∀ x ∈ (k1.setWord q (m.toUInt32 ||| (PTE_W ||| PTE_U) ||| PTE_P)).free, x ∈ k.free :=
    fun x hx => hsuf.subset hx
  have htab := fun i hi t ht => setWord_tables hwf.dir hw (m.toUInt32 ||| (PTE_W ||| PTE_U) ||| PTE_P) (i := i) (t := t) hi ht
  -- the entry of `a`'s page maps `m`; every other entry is as it was
  have hnew : frameAt (k1.setWord q (m.toUInt32 ||| (PTE_W ||| PTE_U) ||| PTE_P)).mem pgdir
      (a.toNat / PGSIZE) = some m := by
    simp only [frameAt, hself, if_pos huser.1, haddr]
  have hold : ∀ w < 2 ^ 20, w ≠ a.toNat / PGSIZE →
      frameAt (k1.setWord q (m.toUInt32 ||| (PTE_W ||| PTE_U) ||| PTE_P)).mem pgdir w = frameAt k.mem pgdir w :=
    fun w hw hne => by simp only [frameAt, hother w hw hne]
  refine ⟨hwf', fun h0 => hwf.zero_not_free (hsub 0 h0), fun w hw hp => ?_, fun w f hw hf => ?_,
    fun v w f hv hw hf hf' => ?_⟩
  · by_cases hwa : w = a.toNat / PGSIZE
    · rw [hwa, hself]
      exact iff_of_true hvu huser.2
    · rw [hother w hw hwa] at hp ⊢
      exact hwf.user w hw hp
  · by_cases hwa : w = a.toNat / PGSIZE
    · rw [hwa, hnew] at hf
      cases hf
      exact hm.owned.mono hsub htab
    · rw [hold w (userPages_lt hw) hwa] at hf
      exact (hwf.owned w f hw hf).mono hsub htab
  · -- `m` is mapped by no other user entry
    by_cases hva : v = a.toNat / PGSIZE <;> by_cases hwa : w = a.toNat / PGSIZE
    · rw [hva, hwa]
    · rw [hva, hnew] at hf
      cases hf
      rw [hold w (userPages_lt hw) hwa] at hf'
      exact absurd hf' (hm.unmapped w hw)
    · rw [hwa, hnew] at hf'
      cases hf'
      rw [hold v (userPages_lt hv) hva] at hf
      exact absurd hf (hm.unmapped v hv)
    · rw [hold v (userPages_lt hv) hva] at hf
      rw [hold w (userPages_lt hw) hwa] at hf'
      exact hwf.inj v w f hv hw hf hf'

theorem present_of_frameAt {mem : Nat → UInt8} {vpn f : Nat} (h : frameAt mem pgdir vpn = some f) :
    pte mem pgdir vpn &&& PTE_P ≠ 0 := by
  unfold frameAt at h
  split_ifs at h with hp
  exact hp

/-! ## One user page given back -/

/-- `deallocuvm`'s `kfree` puts an owned page back on the free list: the directory's pages
are still off it. -/
theorem PdWf.push (hwf : PdWf k pgdir) {f : Nat} (hf : Owned k pgdir f) {mem' : Nat → UInt8}
    (hag : DirAgree k.mem mem' pgdir) : PdWf ⟨mem', f :: k.free⟩ pgdir where
  root := hwf.root
  root_not_free h := (List.mem_cons.mp h).elim (fun e => hf.ne_root e.symm) hwf.root_not_free
  table i t hi ht := by
    rw [hag.tableAt_eq hi] at ht
    obtain ⟨h1, h2, h3⟩ := hwf.table i t hi ht
    exact ⟨h1, h2, fun h => (List.mem_cons.mp h).elim (fun e => hf.not_table i hi (e ▸ ht)) h3⟩
  table_inj i j t hi hj h h' := by
    rw [hag.tableAt_eq hi] at h
    rw [hag.tableAt_eq hj] at h'
    exact hwf.table_inj i j t hi hj h h'
  free := ⟨List.nodup_cons.mpr ⟨hf.not_free, hwf.free.nodup⟩,
    fun p hp => (List.mem_cons.mp hp).elim (fun e => e ▸ hf.page) (hwf.free.page p)⟩

/-- One page of `deallocuvm`: the page a present user entry maps goes back to the free
list, and the entry is cleared. -/
theorem UvmWf.release (hwf : UvmWf k pgdir) {a : UInt32} (hu : a.toNat < USERTOP) {k0 : Kmem}
    {q : Nat} (hw : walkpgdir k pgdir a false = some (k0, q)) (hp : Bytes.getU32 k.mem q &&& PTE_P ≠ 0)
    {kend : Nat} {k1 : Kmem} (hk : kfree kend k (PTE_ADDR (Bytes.getU32 k.mem q)).toNat = .ok k1) :
    UvmWf (k1.setWord q 0) pgdir := by
  have hvu := userPages_of_lt hu
  set v := a.toNat / PGSIZE with hv_def
  have hv := userPages_lt hvu
  -- the entry `walkpgdir` found is the one `pte` reads, in the table of `a`'s page
  obtain ⟨t, ht, rfl⟩ : ∃ t, tableAt k.mem pgdir (v / NPTENTRIES) = some t ∧ q = t + 4 * (v % NPTENTRIES) := by
    cases hta : tableAt k.mem pgdir (PDX a) with
    | none =>
      rw [walkpgdir_absent hta] at hw
      cases hw
    | some t =>
      rw [walkpgdir_present hta] at hw
      obtain ⟨-, rfl⟩ := Prod.mk.inj (Option.some.inj hw)
      rw [PDX_vpn] at hta
      exact ⟨t, hta, by rw [PTX_vpn]⟩
  have hpte : Bytes.getU32 k.mem (t + 4 * (v % NPTENTRIES)) = pte k.mem pgdir v := by
    unfold pte
    rw [ht]
  rw [hpte] at hp hk
  have hframe : frameAt k.mem pgdir v = some (PTE_ADDR (pte k.mem pgdir v)).toNat := by
    simp only [frameAt, if_pos hp]
  generalize (PTE_ADDR (pte k.mem pgdir v)).toNat = f at hframe hk
  have hown := hwf.owned v f hvu hframe
  obtain ⟨-, -, -, rfl⟩ := kfree_eq_ok hk
  have hag : DirAgree k.mem (memset k.mem f 1 PGSIZE) pgdir :=
    dirAgree_of_page hwf.dir hown.page.1 hown.ne_root hown.not_table fun x hx => memset_apply_of_not_inPage 1 hx
  have hwf1 := hwf.dir.push hown hag
  set k1 : Kmem := ⟨memset k.mem f 1 PGSIZE, f :: k.free⟩ with hk1
  have ht1 : tableAt k1.mem pgdir (v / NPTENTRIES) = some t := by
    rw [hag.tableAt_eq (vpn_div_lt hv)]
    exact ht
  have hself := pte_setWord_self hwf1 hv ht1 0
  -- every other entry, and every table, is as it was
  have hother : ∀ w < 2 ^ 20, w ≠ v → pte (k1.setWord (t + 4 * (v % NPTENTRIES)) 0).mem pgdir w = pte k.mem pgdir w :=
    fun w hw hne => (pte_setWord_of_ne hwf1 hv ht1 0 hw hne).trans (hag.pte_eq hw)
  have htab : ∀ j < NPDENTRIES, tableAt (k1.setWord (t + 4 * (v % NPTENTRIES)) 0).mem pgdir j = tableAt k.mem pgdir j :=
    fun j hj => (tableAt_setWord hwf1 hv ht1 0 hj).trans (hag.tableAt_eq hj)
  have hnone : frameAt (k1.setWord (t + 4 * (v % NPTENTRIES)) 0).mem pgdir v = none := by
    simp only [frameAt, hself]
    rfl
  have hold : ∀ w < 2 ^ 20, w ≠ v →
      frameAt (k1.setWord (t + 4 * (v % NPTENTRIES)) 0).mem pgdir w = frameAt k.mem pgdir w :=
    fun w hw hne => by simp only [frameAt, hother w hw hne]
  refine ⟨hwf1.setWord hv ht1 0, fun h0 => (List.mem_cons.mp h0).elim (fun e => hown.ne_zero e.symm)
    hwf.zero_not_free, fun w hw hp' => ?_, fun w g hw hg => ?_, fun w w' g hw hw' hg hg' => ?_⟩
  · by_cases hwa : w = v
    · rw [hwa, hself] at hp'
      exact absurd hp' (by decide)
    · rw [hother w hw hwa] at hp' ⊢
      exact hwf.user w hw hp'
  · by_cases hwa : w = v
    · rw [hwa, hnone] at hg
      cases hg
    rw [hold w (userPages_lt hw) hwa] at hg
    have hg' := hwf.owned w g hw hg
    -- the page given back is mapped by no other user entry
    have hne : g ≠ f := fun e => hwa (hwf.inj w v g hw hvu hg (e ▸ hframe))
    refine ⟨hg'.page, hg'.ne_zero, hg'.ne_root, fun h => (List.mem_cons.mp h).elim hne hg'.not_free,
      fun j hj h => hg'.not_table j hj ?_⟩
    rwa [htab j hj] at h
  · by_cases hwa : w = v
    · rw [hwa, hnone] at hg
      cases hg
    by_cases hwa' : w' = v
    · rw [hwa', hnone] at hg'
      cases hg'
    rw [hold w (userPages_lt hw) hwa] at hg
    rw [hold w' (userPages_lt hw') hwa'] at hg'
    exact hwf.inj w w' g hw hw' hg hg'

end Wf

/-! ## The loops -/

/-- `deallocuvm`'s loop over user pages keeps the invariant; the induction is on the pages
left. -/
theorem deallocuvmLoop_wf {kend pgdir : Nat} : ∀ (n a : Nat) {k k' : Kmem}, UvmWf k pgdir →
    (∀ i < n, a + i * PGSIZE < USERTOP) → deallocuvmLoop kend pgdir n a k = .ok k' → UvmWf k' pgdir
  | 0, _, _, _, hwf, _, h => by
    cases h
    exact hwf
  | n + 1, a, k, k', hwf, hrange, h => by
    have ha : a < USERTOP := by simpa using hrange 0 (Nat.zero_lt_succ n)
    have hnext : ∀ i < n, a + PGSIZE + i * PGSIZE < USERTOP := fun i hi => by
      have := hrange (i + 1) (by omega)
      rw [Nat.succ_mul] at this
      omega
    have hau : a.toUInt32.toNat < USERTOP := by
      rw [Word32.toNat_toUInt32_of_lt (by simp only [USERTOP] at ha; omega)]
      exact ha
    rw [deallocuvmLoop] at h
    split at h
    · rename_i k0 q hw
      dsimp only at h
      split at h
      · rename_i hp
        split at h
        · cases h
        · simp only [bind, Except.bind] at h
          rcases hk : kfree kend k (PTE_ADDR (Bytes.getU32 k.mem q)).toNat with e | k1 <;> rw [hk] at h
          · cases h
          · exact deallocuvmLoop_wf n _ (hwf.release hau hw hp hk) hnext h
      · exact deallocuvmLoop_wf n _ hwf hnext h
    · exact deallocuvmLoop_wf n _ hwf hnext h

/-- `deallocuvm` below `USERTOP` keeps the invariant. -/
theorem deallocuvm_wf {kend pgdir : Nat} {k k' : Kmem} {oldsz newsz r : UInt32} (hwf : UvmWf k pgdir)
    (hold : oldsz.toNat ≤ USERTOP) (h : deallocuvm kend k pgdir oldsz newsz = .ok (r, k')) :
    UvmWf k' pgdir := by
  by_cases hge : newsz ≥ oldsz
  · rw [deallocuvm_of_ge hge] at h
    cases h
    exact hwf
  have hlt : newsz < oldsz := UInt32.not_le.mp hge
  rw [deallocuvm_of_lt hlt] at h
  rcases hl : deallocuvmLoop kend pgdir (pagesBelow (PGROUNDUP newsz).toNat oldsz.toNat)
    (PGROUNDUP newsz).toNat k with e | k1 <;> rw [hl] at h
  · cases h
  · cases h
    have hn : newsz.toNat < oldsz.toNat := UInt32.lt_iff_toNat_lt.mp hlt
    have hup := @PGROUNDUP_toNat newsz (by simp only [USERTOP] at hold; omega)
    refine deallocuvmLoop_wf _ _ hwf (fun i hi => ?_) hl
    rw [hup] at hi ⊢
    simp only [pagesBelow, PGSIZE] at hi ⊢
    omega

/-- `allocuvm`'s loop keeps the invariant, also where `kalloc` fails and `deallocuvm` gives
back what it mapped; the induction is on the pages left. -/
theorem allocuvmLoop_wf {kend pgdir : Nat} {oldsz newsz : UInt32} (hnew : newsz.toNat ≤ USERTOP) :
    ∀ (n a : Nat) {k k' : Kmem} {r : UInt32}, UvmWf k pgdir → a % PGSIZE = 0 →
      (∀ i < n, a + i * PGSIZE < USERTOP) → allocuvmLoop kend pgdir oldsz newsz n a k = .ok (r, k') →
      UvmWf k' pgdir
  | 0, _, _, _, _, hwf, _, _, h => by
    cases h
    exact hwf
  | n + 1, a, k, k', r, hwf, ha, hrange, h => by
    have hau : a < USERTOP := by simpa using hrange 0 (Nat.zero_lt_succ n)
    have hnext : ∀ i < n, a + PGSIZE + i * PGSIZE < USERTOP := fun i hi => by
      have := hrange (i + 1) (by omega)
      rw [Nat.succ_mul] at this
      omega
    have hat : a.toUInt32.toNat = a := Word32.toNat_toUInt32_of_lt (by simp only [USERTOP] at hau; omega)
    rw [allocuvmLoop] at h
    cases hf : k.free with
    | nil =>
      -- "allocuvm out of memory": `deallocuvm` gives back what the loop mapped
      rw [kalloc_eq_none hf] at h
      simp only [bind, Except.bind] at h
      rcases hd : deallocuvm kend k pgdir newsz oldsz with e | ⟨r1, k1⟩ <;> rw [hd] at h
      · cases h
      · cases h
        exact deallocuvm_wf hwf hnew hd
    | cons m rest =>
      rw [kalloc_eq_some hf] at h
      simp only [bind, Except.bind] at h
      split at h
      · cases h
      · rename_i res hmp
        obtain ⟨hwf0, hfresh⟩ := hwf.take hf
          (fun x (hx : ¬ InPage m x) => (memset_apply_of_not_inPage 0 hx : memset k.mem m 0 PGSIZE x = k.mem x))
        have hwf1 := hwf0.mappages_page (by rw [hat]; exact ha) (by rw [hat]; exact hau) hfresh hmp
        exact allocuvmLoop_wf hnew n (a + PGSIZE) hwf1 (by simp only [PGSIZE] at ha ⊢; omega) hnext h

/-- `allocuvm` keeps the invariant. -/
theorem allocuvm_wf {kend pgdir : Nat} {k k' : Kmem} {oldsz newsz r : UInt32} (hwf : UvmWf k pgdir)
    (h : allocuvm kend k pgdir oldsz newsz = .ok (r, k')) : UvmWf k' pgdir := by
  unfold allocuvm at h
  split_ifs at h with hbig hlt
  · cases h
    exact hwf
  · cases h
    exact hwf
  have hnew : newsz.toNat ≤ USERTOP := Nat.not_lt.mp hbig
  have hold : oldsz.toNat ≤ newsz.toNat := UInt32.le_iff_toNat_le.mp (UInt32.not_lt.mp hlt)
  have hup := @PGROUNDUP_toNat oldsz (by simp only [USERTOP] at hnew; omega)
  refine allocuvmLoop_wf hnew _ _ hwf ?_ (fun i hi => ?_) h
  · rw [hup]
    simp only [PGSIZE]
    omega
  · rw [hup] at hi ⊢
    simp only [pagesBelow, PGSIZE] at hi ⊢
    omega

/-! ## `setupkvm` -/

/-- A directory `setupkvm` is filling: kernel entries only, none below `USERTOP`. -/
structure KvmWf (k : Kmem) (pgdir : Nat) : Prop where
  dir : PdWf k pgdir
  zero_not_free : 0 ∉ k.free
  kernel : ∀ vpn < 2 ^ 20, pte k.mem pgdir vpn &&& PTE_P ≠ 0 →
    userPages ≤ vpn ∧ ¬ pte k.mem pgdir vpn &&& PTE_U ≠ 0

/-- A range of `kmap` as `setupkvm` needs it: above `USERTOP`, page-aligned, not empty, not
wrapping, and with a permission other than `PTE_U`. -/
structure KmapOk (m : Kmap) : Prop where
  above : USERTOP ≤ m.p.toNat
  aligned : m.p.toNat % PGSIZE = 0
  size_pos : 0 < (m.e - m.p).toNat
  no_wrap : m.p.toNat + (m.e - m.p).toNat ≤ 2 ^ 32
  perm_lt : m.perm.toNat < 4
  perm_even : m.perm.toNat % 2 = 0

section Kvm

variable {k k' : Kmem} {pgdir : Nat}

/-- `setupkvm`'s zeroed page holds no entry. -/
theorem KvmWf.zeroed (hroot : PhysPage pgdir) (hz : ∀ x, InPage pgdir x → k.mem x = 0)
    (hnf : pgdir ∉ k.free) (hfree : FreeWf k.free) (h0 : 0 ∉ k.free) : KvmWf k pgdir where
  dir := PdWf.zeroed hroot hz hnf hfree
  zero_not_free := h0
  kernel vpn hv hp := by
    have hpte : pte k.mem pgdir vpn = 0 := by
      unfold pte
      rw [tableAt_eq_none_of_zero hz (vpn_div_lt hv)]
    rw [hpte] at hp
    exact absurd hp (by decide)

/-- Kernel entries only: the user part is empty, and the invariant holds. -/
theorem KvmWf.uvmWf (h : KvmWf k pgdir) : UvmWf k pgdir where
  dir := h.dir
  zero_not_free := h.zero_not_free
  user vpn hv hp := iff_of_false (Nat.not_lt.mpr (h.kernel vpn hv hp).1) (h.kernel vpn hv hp).2
  owned vpn _ hv hf := absurd (h.kernel vpn (userPages_lt hv) (present_of_frameAt hf)).1 (Nat.not_le.mpr hv)
  inj v _ _ hv _ hf _ := absurd (h.kernel v (userPages_lt hv) (present_of_frameAt hf)).1 (Nat.not_le.mpr hv)

/-- A page-aligned address plus whole pages, in 32-bit arithmetic, is page-aligned. -/
theorem toNat_add_pages_aligned {pa : UInt32} (hpa : pa.toNat % PGSIZE = 0) (j : Nat) :
    (pa + (j * PGSIZE).toUInt32).toNat % PGSIZE = 0 := by
  simp only [UInt32.toNat_add, Nat.toUInt32, UInt32.toNat_ofNat', PGSIZE] at hpa ⊢
  omega

/-- `mappages` of one range of `kmap` keeps the directory a kernel one. -/
theorem KvmWf.mappages (hwf : KvmWf k pgdir) {m : Kmap} (hm : KmapOk m)
    (h : mappages k pgdir m.p (m.e - m.p) m.p m.perm = .ok (0, k')) : KvmWf k' pgdir := by
  obtain ⟨hwf', hsuf, hin, hout, -, -⟩ := mappages_maps hwf.dir hm.size_pos hm.no_wrap h
  refine ⟨hwf', fun h0 => hwf.zero_not_free (hsuf.subset h0), fun vpn hv hp => ?_⟩
  by_cases hr : m.p.toNat / PGSIZE ≤ vpn ∧ vpn ≤ (m.p.toNat + (m.e - m.p).toNat - 1) / PGSIZE
  · -- inside the range: the entry `mappages` wrote, above `USERTOP` and without `PTE_U`
    rw [(hin vpn hr.1 hr.2).1]
    have habove := hm.above
    refine ⟨?_, kernelEntry_not_user (toNat_add_pages_aligned hm.aligned _) hm.perm_lt hm.perm_even⟩
    simp only [userPages, USERTOP, PGSIZE] at habove hr ⊢
    omega
  · rw [hout vpn hv (by omega)] at hp ⊢
    exact hwf.kernel vpn hv hp

/-- `mappages` returns `0` or `-1`. -/
theorem mappagesLoop_ret {perm : UInt32} :
    ∀ (n : Nat) {k k' : Kmem} {a pa : UInt32} {r : Int}, mappagesLoop pgdir perm n k a pa = .ok (r, k') →
      r = 0 ∨ r = -1
  | 0, _, _, _, _, _, h => by
    rcases mappagesLoop_zero h with ⟨rfl, -⟩ | ⟨-, -, -, rfl, -⟩
    · exact .inr rfl
    · exact .inl rfl
  | n + 1, k, k', a, pa, r, h => by
    rw [mappagesLoop] at h
    split at h
    · cases h
      exact .inr rfl
    · dsimp only at h
      split at h
      · cases h
      · exact mappagesLoop_ret n h

/-- `setupkvm`'s loop keeps the directory a kernel one while every `mappages` succeeds; the
induction is on the ranges of `kmap` left. -/
theorem setupkvmLoop_wf : ∀ (ms : List Kmap) {k k' : Kmem} {d : Nat}, KvmWf k pgdir →
    (∀ m ∈ ms, KmapOk m) → setupkvmLoop pgdir ms k = .ok (some d, k') → d = pgdir ∧ KvmWf k' pgdir
  | [], _, _, _, hwf, _, h => by
    cases h
    exact ⟨rfl, hwf⟩
  | m :: ms, k, k', d, hwf, hms, h => by
    simp only [setupkvmLoop, bind, Except.bind] at h
    rcases hm : mappages k pgdir m.p (m.e - m.p) m.p m.perm with e | ⟨r, k1⟩ <;> rw [hm] at h
    · cases h
    change (if r < 0 then pure (none, k1) else setupkvmLoop pgdir ms k1) = _ at h
    split at h
    · cases h
    rename_i hr
    obtain rfl : r = 0 := (mappagesLoop_ret _ hm).resolve_right fun h => hr (by rw [h]; decide)
    exact setupkvmLoop_wf ms (hwf.mappages (hms m List.mem_cons_self) hm)
      (fun m' hm' => hms m' (List.mem_cons_of_mem m hm')) h

end Kvm

/-- The ranges of `kmap`, for a `data` page-aligned (`data.S` aligns it to a page) between
the kernel's text at `0x100000` and `PHYSTOP`. -/
theorem kmap_ok {data : UInt32} (hlo : 0x100000 < data.toNat) (hhi : data.toNat < PHYSTOP)
    (hal : data.toNat % PGSIZE = 0) : ∀ m ∈ kmap data, KmapOk m := by
  intro m hm
  simp only [kmap, List.mem_cons, List.not_mem_nil, or_false] at hm
  have hP : (PHYSTOP.toUInt32).toNat = PHYSTOP := rfl
  have h1 : (0x100000 : UInt32).toNat = 0x100000 := rfl
  rcases hm with rfl | rfl | rfl | rfl
  · exact ⟨by decide, by decide, by decide, by decide, by decide, by decide⟩
  · -- the kernel's text, up to `data`
    have hsub : (data - 0x100000).toNat = data.toNat - 0x100000 :=
      UInt32.toNat_sub_of_le _ _ (UInt32.le_iff_toNat_le.mpr (by rw [h1]; omega))
    refine ⟨?_, ?_, ?_, ?_, ?_, ?_⟩ <;> dsimp only
    · decide
    · decide
    · rw [hsub]
      omega
    · have := data.toNat_lt
      rw [hsub, h1]
      omega
    · decide
    · decide
  · -- the kernel's data and the free memory, up to `PHYSTOP`
    have hsub : (PHYSTOP.toUInt32 - data).toNat = PHYSTOP - data.toNat :=
      (UInt32.toNat_sub_of_le _ _ (UInt32.le_iff_toNat_le.mpr (by rw [hP]; omega))).trans (by rw [hP])
    refine ⟨?_, hal, ?_, ?_, by dsimp only; decide, by dsimp only; decide⟩ <;> dsimp only
    · simp only [USERTOP]
      omega
    all_goals
      rw [hsub]
      simp only [PHYSTOP] at hhi ⊢
      omega
  · exact ⟨by decide, by decide, by decide, by decide, by decide, by decide⟩

/-- `setupkvm` from a well-formed free list without page `0`: the directory it returns keeps
the invariant, and it only took pages off the free list. -/
theorem setupkvm_wf {data : UInt32} (hlo : 0x100000 < data.toNat) (hhi : data.toNat < PHYSTOP)
    (hal : data.toNat % PGSIZE = 0) {k k' : Kmem} {d : Nat} (hfree : FreeWf k.free) (h0 : 0 ∉ k.free)
    (h : setupkvm data k = .ok (some d, k')) : UvmWf k' d ∧ k'.free <:+ k.free := by
  unfold setupkvm at h
  cases hf : k.free with
  | nil =>
    rw [kalloc_eq_none hf] at h
    cases h
  | cons p rest =>
    rw [kalloc_eq_some hf] at h
    dsimp only at h
    have hfw : FreeWf (p :: rest) := hf ▸ hfree
    have hz : 0 ∉ rest := fun h => h0 (hf ▸ List.mem_cons_of_mem p h)
    -- the page `kalloc` gave, zeroed, is a directory without entries
    have hk0 : KvmWf ⟨memset k.mem p 0 PGSIZE, rest⟩ p :=
      KvmWf.zeroed (hfw.page p List.mem_cons_self) (fun x hx => memset_apply_of_inPage 0 hx)
        (List.nodup_cons.mp hfw.nodup).1 hfw.tail hz
    obtain ⟨rfl, hk⟩ := setupkvmLoop_wf _ hk0 (kmap_ok hlo hhi hal) h
    exact ⟨hk.uvmWf, (setupkvmLoop_free_suffix _ h).trans (List.suffix_cons _ rest)⟩

/-! ## `copyuvm` -/

/-- `copyuvm`'s `bad:` returns no directory. -/
theorem copyuvmBad_none {kend d : Nat} {k k' : Kmem} {r : Option Nat} (h : copyuvmBad kend d k = .ok (r, k')) :
    r = none := by
  simp only [copyuvmBad, bind, Except.bind] at h
  split at h
  · cases h
  · cases h
    rfl

/-- `copyuvm`'s loop keeps the child's directory well formed: each page it copies goes to a
page fresh off the free list; the induction is on the pages left. -/
theorem copyuvmLoop_wf {kend pgdir d : Nat} : ∀ (n i : Nat) {k k' : Kmem} {d' : Nat},
    UvmWf k d → i % PGSIZE = 0 → (∀ j < n, i + j * PGSIZE < USERTOP) →
    copyuvmLoop kend pgdir d n i k = .ok (some d', k') → d' = d ∧ UvmWf k' d
  | 0, _, _, _, _, hwf, _, _, h => by
    cases h
    exact ⟨rfl, hwf⟩
  | n + 1, i, k, k', d', hwf, hi, hrange, h => by
    have hiu : i < USERTOP := by simpa using hrange 0 (Nat.zero_lt_succ n)
    have hnext : ∀ j < n, i + PGSIZE + j * PGSIZE < USERTOP := fun j hj => by
      have := hrange (j + 1) (by omega)
      rw [Nat.succ_mul] at this
      omega
    have hit : i.toUInt32.toNat = i := Word32.toNat_toUInt32_of_lt (by simp only [USERTOP] at hiu; omega)
    rw [copyuvmLoop] at h
    split at h
    · cases h
    rename_i e q _
    dsimp only at h
    split at h
    · cases h
    cases hf : k.free with
    | nil =>
      rw [kalloc_eq_none hf] at h
      exact absurd (copyuvmBad_none h) (Option.some_ne_none d')
    | cons m rest =>
      rw [kalloc_eq_some hf] at h
      simp only [bind, Except.bind] at h
      split at h
      · cases h
      rename_i res hmp
      -- the copy writes the page `kalloc` gave and nothing else
      have hmem : ∀ x, ¬ InPage m x → Bytes.writeBytes k.mem m
          (Bytes.readBytes k.mem (PTE_ADDR (Bytes.getU32 k.mem q)).toNat PGSIZE) x = k.mem x := by
        intro x hx
        simp only [InPage, not_and_or, not_le, not_lt] at hx
        rcases hx with hx | hx
        · exact Bytes.writeBytes_apply_of_lt hx
        · exact Bytes.writeBytes_apply_of_ge (by rw [Bytes.length_readBytes]; exact hx)
      obtain ⟨hwf0, hfresh⟩ := hwf.take hf hmem
      have hwf1 := hwf0.mappages_page (by rw [hit]; exact hi) (by rw [hit]; exact hiu) hfresh hmp
      split at h
      · exact absurd (copyuvmBad_none h) (Option.some_ne_none d')
      · exact copyuvmLoop_wf n (i + PGSIZE) hwf1 (by simp only [PGSIZE] at hi ⊢; omega) hnext h

/-- `copyuvm` of a process of at most `USERTOP` bytes, from a well-formed free list without
page `0`: the child's directory keeps the invariant. -/
theorem copyuvm_wf {kend : Nat} {data : UInt32} (hlo : 0x100000 < data.toNat) (hhi : data.toNat < PHYSTOP)
    (hal : data.toNat % PGSIZE = 0) {k k' : Kmem} {pgdir d : Nat} {sz : UInt32} (hfree : FreeWf k.free)
    (h0 : 0 ∉ k.free) (hsz : sz.toNat ≤ USERTOP) (h : copyuvm kend data k pgdir sz = .ok (some d, k')) :
    UvmWf k' d := by
  simp only [copyuvm, bind, Except.bind] at h
  rcases hs : setupkvm data k with e | ⟨od, k1⟩ <;> rw [hs] at h
  · cases h
  dsimp only at h
  cases od with
  | none => cases h
  | some d0 =>
    dsimp only at h
    have hwf := (setupkvm_wf hlo hhi hal hfree h0 hs).1
    have hrange : ∀ j < pagesBelow 0 sz.toNat, 0 + j * PGSIZE < USERTOP := fun j hj => by
      simp only [pagesBelow, PGSIZE] at hj ⊢
      omega
    obtain ⟨rfl, hwf'⟩ := copyuvmLoop_wf _ 0 hwf (by decide) hrange h
    exact hwf'

end Xv6
