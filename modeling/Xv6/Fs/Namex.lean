import Mathlib
import Xv6.Fs.Icache
import Xv6.Fs.Path

/-!
# `namex` with the inode cache

`Xv6.Fs.Path` resolves a path on a disk at rest. Here `namex` runs as `fs.c` has it, on
the inode cache: it takes a reference to the starting inode (`iget` of the root, or
`idup` of the current directory), and for each component locks the directory, looks the
component up, takes a reference to the inode found (`dirlookup` ends in `iget`), and
drops the directory with `iunlockput`. `iput` frees an inode on disk when it drops the
last reference to a valid inode with no links.

The caller runs alone: each call runs its critical sections in a row, and an `ilock` on a
busy slot, where the caller would sleep until another process unlocks it, ends the run
with `none`.

On a cache that no one holds locked and whose valid slots hold what the disk holds, and
on a disk whose directories name only inodes with links (`EntriesLinked`), `namex` ends
the way the walk of `Xv6.Fs.Path` does: the same inode, or the same panic, or the panic
`iget: no inodes` of a cache that had references on every slot but one (`namex_resolves`).
When it returns, the disk is as it was, the returned slot has one reference more, every
other slot the references it had, no slot is locked, and a slot with references names the
inode it named. The invariant `Owes` carries this from call to call: the references the caller
holds on top of those of the cache it started from, and the slot it holds locked.
-/

namespace Xv6

/-- `#define ROOTDEV 1` -/
def ROOTDEV : Nat := 1

/-- `iput(ip)` by a caller that runs alone: the first critical section and, when it drops
the last reference to a valid inode with no links, the freeing outside the lock (`itrunc`,
`ip->type = 0`, `iupdate`) and the last section. -/
def iput (d : Disk) (ic : Icache) (i : Fin NINODE) : Except String (Disk × Icache) := do
  let (free, ic) ← iputBegin ic i
  if free then
    let (d, ip) ← iputFree d { (ic i).di with inum := (ic i).inum }
    pure (d, iputEnd (Function.update ic i { ic i with di := ip.toDinode }) i)
  else pure (d, ic)

/-- `iunlockput(ip)` -/
def iunlockput (d : Disk) (ic : Icache) (i : Fin NINODE) : Except String (Disk × Icache) := do
  let ic ← iunlock ic i
  iput d ic i

/-- How one pass of `namex`'s loop ends: `namex` returns the slot, if any, with the bytes
`skipelem` last copied, or the loop goes on from the slot `next`. -/
inductive NamexPass where
  | ret (r : Option (Fin NINODE × List UInt8))
  | next (j : Fin NINODE)

/-- One pass of `namex`'s loop on the slot `i` the caller holds, once `skipelem` has copied
`name` and left `rest`; `none` where `ilock` sleeps. -/
def namexPass (parent : Bool) (d : Disk) (ic : Icache) (i : Fin NINODE) (rest name : List UInt8) :
    Except String (Option (Disk × Icache × NamexPass)) := do
  match ← ilock ic (fun _ => dinodeAt d) i with
  | none => pure none
  | some ic =>
    if (ic i).di.type ≠ T_DIR then
      let (d, ic) ← iunlockput d ic i
      pure (some (d, ic, .ret none))
    -- `if(nameiparent && *path == '\0')`: one level early
    else if parent ∧ rest.headD 0 = 0 then
      let ic ← iunlock ic i
      pure (some (d, ic, .ret (some (i, name))))
    else
      match ← dirlookup d (ic i).di name with
      | none =>
        let (d, ic) ← iunlockput d ic i
        pure (some (d, ic, .ret none))
      | some inum =>
        -- `dirlookup` ends with `iget(dp->dev, inum)`
        let (ic, next) ← iget ic (ic i).dev inum
        let (d, ic) ← iunlockput d ic i
        pure (some (d, ic, .next next))

/-- The loop of `namex` from the slot `i`, with `name` the bytes `skipelem` last copied. -/
def namexLoopIc (parent : Bool) (d : Disk) (ic : Icache) (i : Fin NINODE) (name path : List UInt8) :
    Except String (Option (Disk × Icache × Option (Fin NINODE × List UInt8))) :=
  -- the equation is read only by the termination proof
  match _h : skipelem path with
  | none =>
    -- `if(nameiparent){ iput(ip); return 0; }`
    if parent then do
      let (d, ic) ← iput d ic i
      pure (some (d, ic, none))
    else pure (some (d, ic, some (i, name)))
  | some (rest, name) => do
    match ← namexPass parent d ic i rest name with
    | none => pure none
    | some (d, ic, .ret r) => pure (some (d, ic, r))
    | some (d, ic, .next next) => namexLoopIc parent d ic next name rest
termination_by path.length
decreasing_by exact skipelem_length_lt _h

/-- `namex(path, nameiparent, name)` with the current directory in slot `cwd`: the disk
and the cache after it, and the slot it returns with the bytes left in `name`. -/
def namex (parent : Bool) (d : Disk) (ic : Icache) (cwd : Fin NINODE) (path : List UInt8) :
    Except String (Option (Disk × Icache × Option (Fin NINODE × List UInt8))) :=
  if path.head? = some '/'.toUInt8 then do
    let (ic, i) ← iget ic ROOTDEV ROOTINO
    namexLoopIc parent d ic i [] path
  else namexLoopIc parent d (idup ic cwd) cwd [] path

/-! ## What the caller's calls leave -/

/-- Every valid slot holds the dinode on disk, which has a type. -/
def Coherent (d : Disk) (ic : Icache) : Prop :=
  ∀ k, (ic k).valid = true → (ic k).di = dinodeAt d (ic k).inum ∧ (dinodeAt d (ic k).inum).type ≠ 0

/-- One reference on the slot `o` names, if any. -/
def oneRef (o : Option (Fin NINODE)) (k : Fin NINODE) : Nat := if o = some k then 1 else 0

/-- What the caller's calls have made of the cache `ic0` it started from: `m k` references
of its own on slot `k`, the slot `l` locked by it and no other slot locked, the slots that
had references naming the inodes they named, and every valid slot holding the dinode on
disk. -/
structure Owes (d : Disk) (ic0 ic : Icache) (m : Fin NINODE → Nat) (l : Option (Fin NINODE)) :
    Prop where
  ref : ∀ k, (ic k).ref = (ic0 k).ref + m k
  key : ∀ k, 0 < (ic0 k).ref → (ic k).key = (ic0 k).key
  busy : ∀ k, (ic k).busy = decide (l = some k)
  coherent : Coherent d ic

section calls

variable {d : Disk} {ic0 ic ic' : Icache} {m : Fin NINODE → Nat} {i j : Fin NINODE}

/-- A cache no one has touched yet: nothing of the caller's, and no slot locked. -/
theorem Owes.start (hidle : ∀ k, (ic k).busy = false) (hco : Coherent d ic) :
    Owes d ic ic (oneRef none) none where
  ref _ := rfl
  key _ _ := rfl
  busy k := by simp [hidle k]
  coherent := hco

theorem Owes.ref_pos (h : Owes d ic0 ic m l) (hm : 0 < m i) : 0 < (ic i).ref := by
  rw [h.ref i]
  omega

/-- Every call below writes one slot: `Owes` holds after it when the slot written holds
the count and the lock the caller now has on it, names the inode it named if it had
references, and is coherent with the disk. -/
theorem Owes.update (h : Owes d ic0 ic m l) {s : ISlot} {m' : Fin NINODE → Nat}
    {l' : Option (Fin NINODE)} (hm : ∀ k, k ≠ i → m' k = m k)
    (hl : ∀ k, k ≠ i → (l' = some k ↔ l = some k)) (href : s.ref = (ic0 i).ref + m' i)
    (hkey : 0 < (ic0 i).ref → s.key = (ic0 i).key) (hbusy : s.busy = decide (l' = some i))
    (hco : s.valid = true → s.di = dinodeAt d s.inum ∧ (dinodeAt d s.inum).type ≠ 0) :
    Owes d ic0 (Function.update ic i s) m' l' where
  ref k := by
    by_cases hk : k = i
    · subst hk
      simpa using href
    · simp [Function.update_of_ne hk, h.ref k, hm k hk]
  key k hk := by
    by_cases hki : k = i
    · subst hki
      simpa using hkey hk
    · simpa [Function.update_of_ne hki] using h.key k hk
  busy k := by
    by_cases hk : k = i
    · subst hk
      simpa using hbusy
    · simp [Function.update_of_ne hk, h.busy k, hl k hk]
  coherent k hv := by
    by_cases hk : k = i
    · subst hk
      simpa using hco (by simpa using hv)
    · rw [Function.update_of_ne hk] at hv ⊢
      exact h.coherent k hv

/-- `ilock` on a slot the caller holds and has not locked: the slot ends up busy and valid,
holding the dinode on disk. -/
theorem Owes.ilock_eq (h : Owes d ic0 ic m none) (hm : 0 < m i)
    (ht : (dinodeAt d (ic i).inum).type ≠ 0) :
    ilock ic (fun _ => dinodeAt d) i = .ok (some (Function.update ic i
      { ic i with busy := true, valid := true, di := dinodeAt d (ic i).inum })) := by
  have hr : ¬ (ic i).ref < 1 := by
    have := h.ref_pos hm
    omega
  have hb : (ic i).busy = false := by simp [h.busy i]
  unfold ilock
  rw [if_neg hr, hb]
  cases hv : (ic i).valid
  · -- the dinode is read from disk
    simp [hv, ht, pure, Except.pure]
  · -- already valid: the slot holds the dinode on disk
    obtain ⟨hdi, -⟩ := h.coherent i hv
    simp [hv, hdi, pure, Except.pure]

/-- `ilock` of a free inode panics: a valid slot would hold a dinode with a type. -/
theorem Owes.ilock_no_type (h : Owes d ic0 ic m none) (hm : 0 < m i)
    (ht : (dinodeAt d (ic i).inum).type = 0) :
    ilock ic (fun _ => dinodeAt d) i = .error "ilock: no type" := by
  have hr : ¬ (ic i).ref < 1 := by
    have := h.ref_pos hm
    omega
  have hb : (ic i).busy = false := by simp [h.busy i]
  have hv : (ic i).valid = false := by
    cases hv : (ic i).valid
    · rfl
    · exact absurd ht (h.coherent i hv).2
  unfold ilock
  simp [hr, hb, hv, ht, throw, throwThe, MonadExceptOf.throw]

theorem Owes.lock (h : Owes d ic0 ic m none) (ht : (dinodeAt d (ic i).inum).type ≠ 0) :
    Owes d ic0 (Function.update ic i
      { ic i with busy := true, valid := true, di := dinodeAt d (ic i).inum }) m (some i) :=
  h.update (fun _ _ => rfl) (fun k hk => by simp [Ne.symm hk]) (h.ref i) (h.key i) (by simp)
    (fun _ => ⟨rfl, ht⟩)

theorem Owes.iunlock_eq (h : Owes d ic0 ic m (some i)) (hm : 0 < m i) :
    iunlock ic i = .ok (Function.update ic i { ic i with busy := false }) := by
  have hb : (ic i).busy = true := by simp [h.busy i]
  have hr : ¬ (ic i).ref < 1 := by
    have := h.ref_pos hm
    omega
  unfold iunlock
  simp [hb, hr, pure, Except.pure]

theorem Owes.unlock (h : Owes d ic0 ic m (some i)) :
    Owes d ic0 (Function.update ic i { ic i with busy := false }) m none :=
  h.update (fun _ _ => rfl) (fun k hk => by simp [Ne.symm hk]) (h.ref i) (h.key i) (by simp)
    (h.coherent i)

/-- `iput` of a slot it does not free drops one reference. -/
theorem iput_keep (hnf : ¬ ((ic i).ref = 1 ∧ (ic i).valid = true ∧ (ic i).di.nlink = 0)) :
    iput d ic i = .ok (d, Function.update ic i { ic i with ref := (ic i).ref - 1 }) := by
  unfold iput iputBegin
  simp [hnf, pure, Except.pure, bind, Except.bind]

/-- The caller's `iput` frees nothing when the slot keeps a reference of another, or
names an inode that has a link once in use. -/
theorem Owes.keeps (h : Owes d ic0 ic m l) (hm : 0 < m i)
    (hsafe : 0 < (ic0 i).ref ∨
      ((dinodeAt d (ic i).inum).type ≠ 0 → (dinodeAt d (ic i).inum).nlink ≠ 0)) :
    ¬ ((ic i).ref = 1 ∧ (ic i).valid = true ∧ (ic i).di.nlink = 0) := by
  rintro ⟨h1, hv, hn⟩
  obtain ⟨hdi, ht⟩ := h.coherent i hv
  rw [h.ref i] at h1
  rcases hsafe with hpos | hlink
  · omega
  · rw [hdi] at hn
    exact hlink ht hn

theorem Owes.put (h : Owes d ic0 ic m none) (hm : 0 < m i) :
    Owes d ic0 (Function.update ic i { ic i with ref := (ic i).ref - 1 })
      (Function.update m i (m i - 1)) none := by
  refine h.update (fun k hk => Function.update_of_ne hk _ _) (fun _ _ => Iff.rfl) ?_ (h.key i)
    (by simpa using h.busy i) (h.coherent i)
  simp only [Function.update_self, h.ref i]
  omega

/-- `iunlockput` of the slot the caller locked, which it does not free. -/
theorem Owes.iunlockput_eq (h : Owes d ic0 ic m (some i)) (hm : 0 < m i)
    (hnf : ¬ ((ic i).ref = 1 ∧ (ic i).valid = true ∧ (ic i).di.nlink = 0)) :
    iunlockput d ic i = .ok (d, Function.update ic i
      { ic i with busy := false, ref := (ic i).ref - 1 }) := by
  have hnf' : ¬ ((Function.update ic i { ic i with busy := false } i).ref = 1 ∧
      (Function.update ic i { ic i with busy := false } i).valid = true ∧
      (Function.update ic i { ic i with busy := false } i).di.nlink = 0) := by
    simpa using hnf
  simp only [iunlockput, h.iunlock_eq hm, bind, Except.bind, iput_keep hnf',
    Function.update_self, Function.update_idem]

theorem Owes.unlockPut (h : Owes d ic0 ic m (some i)) (hm : 0 < m i) :
    Owes d ic0 (Function.update ic i { ic i with busy := false, ref := (ic i).ref - 1 })
      (Function.update m i (m i - 1)) none := by
  have h' := h.unlock.put hm
  simpa [Function.update_idem] using h'

/-- `iget` takes one more reference, on the slot it returns, which names the inode asked
for; a slot with references is left as it was but for its count. -/
theorem Owes.iget (h : Owes d ic0 ic m l) (hl : ∀ k, l = some k → 0 < (ic k).ref)
    {dev inum : Nat} (hg : Xv6.iget ic dev inum = .ok (ic', j)) :
    Owes d ic0 ic' (Function.update m j (m j + 1)) l ∧ (ic' j).inum = inum ∧
      ∀ k, 0 < (ic k).ref → ic' k = { ic k with ref := (ic' k).ref } := by
  have hm : ∀ k, k ≠ j → Function.update m j (m j + 1) k = m k :=
    fun k hk => Function.update_of_ne hk _ _
  rcases iget_cases hg with ⟨hpos, hkey, rfl⟩ | ⟨h0, -, rfl⟩
  · -- a cached inode: one more reference
    refine ⟨h.update hm (fun _ _ => Iff.rfl) ?_ (h.key j) (h.busy j) (h.coherent j), ?_,
      fun k _ => ?_⟩
    · simp only [Function.update_self, h.ref j]
      omega
    · simp only [ISlot.key, Prod.mk.injEq] at hkey
      simp [hkey.2]
    · by_cases hk : k = j
      · subst hk
        simp
      · simp [Function.update_of_ne hk]
  · -- a slot with no references taken over: none of the caller's, and not locked
    have hr0 : (ic0 j).ref = 0 ∧ m j = 0 := by
      have := h.ref j
      omega
    have hnl : ¬ l = some j := fun he => by
      have := hl j he
      omega
    refine ⟨h.update hm (fun _ _ => Iff.rfl) (by simp [hr0.1, hr0.2])
      (fun hp => absurd hp (by omega)) (by simp [hnl]) (by simp), by simp, fun k hk => ?_⟩
    have hkj : k ≠ j := fun he => by
      rw [he, h0] at hk
      exact absurd hk (Nat.lt_irrefl 0)
    simp [Function.update_of_ne hkj]

/-- `iget` fails only for want of a slot: every slot has references. -/
theorem iget_error {dev inum : Nat} {e : String} (hg : Xv6.iget ic dev inum = .error e) :
    e = "iget: no inodes" ∧ ∀ k, (ic k).ref ≠ 0 := by
  unfold iget at hg
  split at hg
  · cases hg
  · split at hg
    · cases hg
    · rename_i hnone
      cases hg
      refine ⟨rfl, fun k => ?_⟩
      simpa using List.find?_eq_none.mp hnone k (List.mem_finRange k)

theorem Owes.idup (h : Owes d ic0 ic m l) :
    Owes d ic0 (Xv6.idup ic j) (Function.update m j (m j + 1)) l := by
  refine h.update (fun k hk => Function.update_of_ne hk _ _) (fun _ _ => Iff.rfl) ?_ (h.key j)
    (h.busy j) (h.coherent j)
  simp only [Function.update_self, h.ref j]
  omega

/-! ### The caller's one reference -/

/-- `iget` of `j`, then `iput` of `i`: the reference moves from `i` to `j`. -/
theorem oneRef_move (i j : Fin NINODE) :
    Function.update (Function.update (oneRef (some i)) j (oneRef (some i) j + 1)) i
      (Function.update (oneRef (some i)) j (oneRef (some i) j + 1) i - 1) = oneRef (some j) := by
  funext k
  by_cases hki : k = i <;> by_cases hkj : k = j <;> simp_all [oneRef, eq_comm]

/-- `iput` of `i`: the reference is dropped. -/
theorem oneRef_drop (i : Fin NINODE) :
    Function.update (oneRef (some i)) i (oneRef (some i) i - 1) = oneRef none := by
  funext k
  by_cases hki : k = i <;> simp_all [oneRef, eq_comm]

theorem oneRef_pos (i : Fin NINODE) : 0 < oneRef (some i) i := by simp [oneRef]

/-- `iget` from nothing: one reference on the slot returned. -/
theorem oneRef_take (j : Fin NINODE) :
    Function.update (oneRef none) j (oneRef none j + 1) = oneRef (some j) := by
  funext k
  by_cases hkj : k = j <;> simp_all [oneRef, eq_comm]

/-! ### Each call, with what it returns -/

theorem Owes.ilock_spec (h : Owes d ic0 ic m none) (hm : 0 < m i)
    (ht : (dinodeAt d (ic i).inum).type ≠ 0) :
    ∃ ic', ilock ic (fun _ => dinodeAt d) i = .ok (some ic') ∧ Owes d ic0 ic' m (some i) ∧
      ic' i = { ic i with busy := true, valid := true, di := dinodeAt d (ic i).inum } :=
  ⟨_, h.ilock_eq hm ht, h.lock ht, by simp⟩

/-- `iunlockput` by a caller that does not drop the last reference to an unlinked inode:
one reference fewer, and every slot names the inode it named. -/
theorem Owes.iunlockput_spec (h : Owes d ic0 ic m (some i)) (hm : 0 < m i)
    (hsafe : 0 < (ic0 i).ref ∨
      ((dinodeAt d (ic i).inum).type ≠ 0 → (dinodeAt d (ic i).inum).nlink ≠ 0)) :
    ∃ ic', iunlockput d ic i = .ok (d, ic') ∧
      Owes d ic0 ic' (Function.update m i (m i - 1)) none ∧ ∀ k, (ic' k).inum = (ic k).inum := by
  refine ⟨_, h.iunlockput_eq hm (h.keeps hm hsafe), h.unlockPut hm, fun k => ?_⟩
  by_cases hk : k = i
  · subst hk
    simp
  · simp [Function.update_of_ne hk]

end calls

/-! ## One pass of the loop -/

/-- A disk whose directories name, in each live entry, one of its inodes, with a link when
in use; and whose root is one of its inodes, with a link when in use. -/
structure EntriesLinked (d : Disk) : Prop where
  root_lt : ROOTINO < (readsb d).ninodes.toNat
  root : (dinodeAt d ROOTINO).type ≠ 0 → (dinodeAt d ROOTINO).nlink ≠ 0
  entry : ∀ ip < (readsb d).ninodes.toNat, (dinodeAt d ip).type = T_DIR →
    ∀ name inum, entryNamed d (dinodeAt d ip) name = some inum →
      inum < (readsb d).ninodes.toNat ∧ ((dinodeAt d inum).type ≠ 0 → (dinodeAt d inum).nlink ≠ 0)

theorem MkfsParams.image_used (p : MkfsParams) : p.image p.used = MkfsParams.rootDir := by
  have := p.bmap_lt_used
  simp only [IPB, BSIZE] at this
  have h1 : p.used ≠ 1 := by omega
  have h2 : p.used ≠ IBLOCK ROOTINO := by simp only [MkfsParams.iblock_root]; omega
  simp [MkfsParams.image, h1, h2, this.ne', IPB, BSIZE]

theorem MkfsParams.entryAt_root (p : MkfsParams) {e : Nat} (he : e < BSIZE / 16) :
    (entryAt p.image p.root e).1 = 0 ∨ (entryAt p.image p.root e).1 = ROOTINO := by
  have hused : p.used.toUInt32.toNat = p.used :=
    Word32.toNat_toUInt32_of_lt (by have := p.used_succ_lt; simp only [BPB, BSIZE] at this; omega)
  have hblk : blockAddr p.image p.root 0 = p.used := by
    rw [← hused]
    rfl
  have hdata : entryAt p.image p.root e = direntAt MkfsParams.rootDir (DIRENT_SIZE * e) := by
    unfold entryAt
    apply direntAt_congr
    intro k hk
    have hlt : DIRENT_SIZE * e + k < BSIZE := by
      simp only [DIRENT_SIZE, BSIZE] at hk he ⊢
      omega
    rw [dataAt, Nat.div_eq_of_lt hlt, Nat.mod_eq_of_lt hlt, hblk, p.image_used]
  have key : ∀ e < BSIZE / 16, (direntAt MkfsParams.rootDir (DIRENT_SIZE * e)).1 = 0 ∨
      (direntAt MkfsParams.rootDir (DIRENT_SIZE * e)).1 = ROOTINO := by decide
  rw [hdata]
  exact key e he

/-- The image `mkfs` writes: its one directory, the root, names only itself. -/
theorem MkfsParams.entriesLinked (p : MkfsParams) : EntriesLinked p.image where
  root_lt := by
    rw [p.readsb_ninodes]
    exact p.root_lt
  root _ := by
    rw [MkfsParams.dinodeAt_root]
    simp [MkfsParams.root]
  entry ip hip hdir name inum hsome := by
    rw [p.readsb_ninodes] at hip ⊢
    have hroot : ip = ROOTINO := by
      by_contra hne
      rw [p.type_image hip hne] at hdir
      exact absurd hdir (by decide)
    subst hroot
    rw [MkfsParams.dinodeAt_root] at hsome
    obtain ⟨e, he, hmatch⟩ := List.exists_of_findSome?_eq_some hsome
    rw [List.mem_range, p.nblocks_root, Nat.mul_one] at he
    -- the entry found is live, so it is `.` or `..`
    have hlive : (entryAt p.image p.root e).1 ≠ 0 ∧ (entryAt p.image p.root e).1 = inum := by
      unfold direntMatch at hmatch
      split_ifs at hmatch with h0
      cases hmatch
      exact ⟨h0, rfl⟩
    have hin : inum = ROOTINO := by
      rcases p.entryAt_root he with h | h
      · exact absurd h hlive.1
      · rw [← hlive.2, h]
    subst hin
    refine ⟨p.root_lt, fun _ => ?_⟩
    rw [MkfsParams.dinodeAt_root]
    simp [MkfsParams.root]

/-- A slot `namex` may hold: it names one of the disk's inodes, and dropping the caller's
reference would not free it, for it kept references of others or its inode has a link once
in use. -/
structure Visitable (d : Disk) (ic0 ic : Icache) (i : Fin NINODE) : Prop where
  lt : (ic i).inum < (readsb d).ninodes.toNat
  safe : 0 < (ic0 i).ref ∨
    ((dinodeAt d (ic i).inum).type ≠ 0 → (dinodeAt d (ic i).inum).nlink ≠ 0)

/-- Every slot but one holds references: the cache `iget` may find full. -/
def AllButOneHeld (ic : Icache) : Prop := ∃ k, ∀ k', k' ≠ k → 0 < (ic k').ref

theorem type_ne_zero_of_dir {di : Dinode} (hdir : di.type = T_DIR) : di.type ≠ 0 := by
  rw [hdir]
  decide

theorem dirlookup_entryNamed (d : Disk) {di : Dinode} (hdir : di.type = T_DIR) (name : List UInt8) :
    dirlookup d di name = .ok (entryNamed d di name) :=
  dirlookup_entries d hdir name

section passes

variable {d : Disk} {ic0 ic : Icache} {i : Fin NINODE} {parent : Bool} {rest name : List UInt8}

theorem namexPass_no_type (h : Owes d ic0 ic (oneRef (some i)) none)
    (ht : (dinodeAt d (ic i).inum).type = 0) :
    namexPass parent d ic i rest name = .error "ilock: no type" := by
  simp [namexPass, h.ilock_no_type (oneRef_pos i) ht, bind, Except.bind]

/-- Not a directory: `namex` drops it and returns `0`. -/
theorem namexPass_not_dir (h : Owes d ic0 ic (oneRef (some i)) none) (hv : Visitable d ic0 ic i)
    (ht : (dinodeAt d (ic i).inum).type ≠ 0) (hdir : (dinodeAt d (ic i).inum).type ≠ T_DIR) :
    ∃ ic', namexPass parent d ic i rest name = .ok (some (d, ic', .ret none)) ∧
      Owes d ic0 ic' (oneRef none) none := by
  obtain ⟨ic1, hk, h1, hs1⟩ := h.ilock_spec (oneRef_pos i) ht
  obtain ⟨ic2, hp, h2, -⟩ := h1.iunlockput_spec (oneRef_pos i) (by simpa [hs1] using hv.safe)
  refine ⟨ic2, ?_, by rwa [oneRef_drop] at h2⟩
  simp [namexPass, hk, hs1, hdir, hp, bind, Except.bind, pure, Except.pure]

/-- `nameiparent` at the last component: the directory is returned unlocked, with the
caller's reference. -/
theorem namexPass_stop (name : List UInt8) (h : Owes d ic0 ic (oneRef (some i)) none)
    (hdir : (dinodeAt d (ic i).inum).type = T_DIR) (hend : rest.headD 0 = 0) :
    ∃ ic', namexPass true d ic i rest name = .ok (some (d, ic', .ret (some (i, name)))) ∧
      Owes d ic0 ic' (oneRef (some i)) none ∧ (ic' i).inum = (ic i).inum := by
  obtain ⟨ic1, hk, h1, hs1⟩ := h.ilock_spec (oneRef_pos i) (type_ne_zero_of_dir hdir)
  refine ⟨_, ?_, h1.unlock, by simp [hs1]⟩
  simp only [namexPass, hk, bind, Except.bind]
  rw [if_neg (by simp [hs1, hdir]), if_pos ⟨trivial, hend⟩]
  simp [h1.iunlock_eq (oneRef_pos i), pure, Except.pure]

/-- A component the directory does not hold: `namex` drops the directory and returns `0`. -/
theorem namexPass_missing (h : Owes d ic0 ic (oneRef (some i)) none) (hv : Visitable d ic0 ic i)
    (hdir : (dinodeAt d (ic i).inum).type = T_DIR) (hgo : ¬ (parent = true ∧ rest.headD 0 = 0))
    (hnone : entryNamed d (dinodeAt d (ic i).inum) name = none) :
    ∃ ic', namexPass parent d ic i rest name = .ok (some (d, ic', .ret none)) ∧
      Owes d ic0 ic' (oneRef none) none := by
  obtain ⟨ic1, hk, h1, hs1⟩ := h.ilock_spec (oneRef_pos i) (type_ne_zero_of_dir hdir)
  obtain ⟨ic2, hp, h2, -⟩ := h1.iunlockput_spec (oneRef_pos i) (by simpa [hs1] using hv.safe)
  have hlook : dirlookup d (ic1 i).di name = .ok none := by
    rw [hs1, dirlookup_entryNamed d hdir, hnone]
  refine ⟨ic2, ?_, by rwa [oneRef_drop] at h2⟩
  simp only [namexPass, hk, bind, Except.bind]
  rw [if_neg (by simp [hs1, hdir]), if_neg hgo]
  simp [hlook, hp, pure, Except.pure]

/-- A component the directory holds: `namex` takes a reference to the inode it names and
drops the directory, unless the cache is full. -/
theorem namexPass_found (hl : EntriesLinked d) (h : Owes d ic0 ic (oneRef (some i)) none)
    (hv : Visitable d ic0 ic i) (hdir : (dinodeAt d (ic i).inum).type = T_DIR)
    (hgo : ¬ (parent = true ∧ rest.headD 0 = 0)) {inum : Nat}
    (hsome : entryNamed d (dinodeAt d (ic i).inum) name = some inum) :
    (namexPass parent d ic i rest name = .error "iget: no inodes" ∧ AllButOneHeld ic0) ∨
      ∃ ic' j, namexPass parent d ic i rest name = .ok (some (d, ic', .next j)) ∧
        Owes d ic0 ic' (oneRef (some j)) none ∧ (ic' j).inum = inum ∧ Visitable d ic0 ic' j := by
  obtain ⟨ic1, hk, h1, hs1⟩ := h.ilock_spec (oneRef_pos i) (type_ne_zero_of_dir hdir)
  have hlook : dirlookup d (ic1 i).di name = .ok (some inum) := by
    rw [hs1, dirlookup_entryNamed d hdir, hsome]
  -- the pass up to `iget`, and what follows it
  have hpass : namexPass parent d ic i rest name = (do
      let (ic, next) ← Xv6.iget ic1 (ic1 i).dev inum
      let (d, ic) ← iunlockput d ic i
      pure (some (d, ic, NamexPass.next next))) := by
    simp only [namexPass, hk, bind, Except.bind]
    rw [if_neg (by simp [hs1, hdir]), if_neg hgo]
    simp [hlook]
  rcases hg : Xv6.iget ic1 (ic1 i).dev inum with e | ⟨ic2, j⟩
  · -- no slot free: every slot but the directory's had references of others
    obtain ⟨rfl, hfull⟩ := iget_error hg
    refine .inl ⟨by simp [hpass, hg, bind, Except.bind], i, fun k hk => ?_⟩
    have := hfull k
    rw [h1.ref k] at this
    simpa [oneRef, Ne.symm hk, Nat.pos_iff_ne_zero] using this
  · obtain ⟨h2, hj, hfr⟩ := h1.iget (fun k hk => by
      rw [← Option.some_injective _ hk]
      exact h1.ref_pos (oneRef_pos i)) hg
    have hi2 : ic2 i = { ic1 i with ref := (ic2 i).ref } := hfr i (h1.ref_pos (oneRef_pos i))
    have hm2 : 0 < Function.update (oneRef (some i)) j (oneRef (some i) j + 1) i := by
      by_cases hij : i = j
      · subst hij
        simp
      · rw [Function.update_of_ne hij]
        exact oneRef_pos i
    have hin2 : (ic2 i).inum = (ic i).inum := by rw [hi2, hs1]
    obtain ⟨ic3, hp, h3, hinum⟩ := h2.iunlockput_spec hm2 (by rw [hin2]; exact hv.safe)
    obtain ⟨hlt, hlink⟩ := hl.entry _ hv.lt hdir name inum hsome
    have hj3 : (ic3 j).inum = inum := by rw [hinum, hj]
    refine .inr ⟨ic3, j, ?_, by rwa [oneRef_move] at h3, hj3, ⟨by rw [hj3]; exact hlt, .inr ?_⟩⟩
    · simp [hpass, hg, hp, bind, Except.bind, pure, Except.pure]
    · rw [hj3]
      exact hlink

end passes

/-! ## The loop against the walk -/

/-- How a run `c` of `namex` on the cache ends against the run `w` of the loop on the disk at
rest: the panic of a cache with every slot but one held, or the same panic, or the same
answer, read through `proj` off the slot returned, with the disk as it was, the caller
holding one reference on that slot and no lock. -/
def Agrees {α : Type} (d : Disk) (ic0 : Icache) (proj : Icache → Fin NINODE × List UInt8 → α)
    (c : Except String (Option (Disk × Icache × Option (Fin NINODE × List UInt8))))
    (w : Except String (Option α)) : Prop :=
  (c = .error "iget: no inodes" ∧ AllButOneHeld ic0) ∨ (∃ e, c = .error e ∧ w = .error e) ∨
    ∃ ic r, c = .ok (some (d, ic, r)) ∧ w = .ok (r.map (proj ic)) ∧
      Owes d ic0 ic (oneRef (r.map Prod.fst)) none

theorem namexLoopIc_none {parent : Bool} {d : Disk} {ic : Icache} {i : Fin NINODE}
    {name path : List UInt8} (hs : skipelem path = none) :
    namexLoopIc parent d ic i name path =
      if parent then (do
        let (d, ic) ← iput d ic i
        pure (some (d, ic, none)))
      else pure (some (d, ic, some (i, name))) := by
  rw [namexLoopIc]
  split
  · rfl
  · rename_i hs'
    rw [hs] at hs'
    cases hs'

theorem namexLoopIc_some {parent : Bool} {d : Disk} {ic : Icache} {i : Fin NINODE}
    {name' path rest name : List UInt8} (hs : skipelem path = some (rest, name)) :
    namexLoopIc parent d ic i name' path = (do
      match ← namexPass parent d ic i rest name with
      | none => pure none
      | some (d, ic, .ret r) => pure (some (d, ic, r))
      | some (d, ic, .next next) => namexLoopIc parent d ic next name rest) := by
  rw [namexLoopIc]
  split
  · rename_i hs'
    rw [hs] at hs'
    cases hs'
  · rename_i hs'
    rw [hs] at hs'
    cases hs'
    rfl

section loops

variable {d : Disk} {ic0 : Icache} {α : Type} {proj : Icache → Fin NINODE × List UInt8 → α}
  {parent : Bool} {ic : Icache} {i : Fin NINODE} {path rest name name' : List UInt8}
  {w : Except String (Option α)}

/-- A pass that panics ends the loop with its panic. -/
theorem Agrees.pass_error {e : String} (hp : namexPass parent d ic i rest name = .error e)
    (hs : skipelem path = some (rest, name)) (hw : w = .error e) :
    Agrees d ic0 proj (namexLoopIc parent d ic i name' path) w :=
  .inr (.inl ⟨e, by simp [namexLoopIc_some hs, hp, bind, Except.bind], hw⟩)

/-- A pass that returns ends the loop with what it returns. -/
theorem Agrees.pass_ret {ic' : Icache} {r : Option (Fin NINODE × List UInt8)}
    (hp : namexPass parent d ic i rest name = .ok (some (d, ic', .ret r)))
    (hs : skipelem path = some (rest, name)) (hw : w = .ok (r.map (proj ic')))
    (h : Owes d ic0 ic' (oneRef (r.map Prod.fst)) none) :
    Agrees d ic0 proj (namexLoopIc parent d ic i name' path) w :=
  .inr (.inr ⟨ic', r, by simp [namexLoopIc_some hs, hp, bind, Except.bind, pure, Except.pure],
    hw, h⟩)

/-- A pass that looks the component up in a directory: it ends as the disk's loop does after
`dirlookup`, given that from every slot the next pass may hold the cache's loop runs as
`loop` does. -/
theorem Agrees.lookup {loop : Nat → List UInt8 → Except String (Option α)}
    (hl : EntriesLinked d) (h : Owes d ic0 ic (oneRef (some i)) none) (hv : Visitable d ic0 ic i)
    (hdir : (dinodeAt d (ic i).inum).type = T_DIR) (hgo : ¬ (parent = true ∧ rest.headD 0 = 0))
    (hs : skipelem path = some (rest, name))
    (hnext : ∀ ic' j, Owes d ic0 ic' (oneRef (some j)) none → Visitable d ic0 ic' j →
      Agrees d ic0 proj (namexLoopIc parent d ic' j name rest) (loop (ic' j).inum rest)) :
    Agrees d ic0 proj (namexLoopIc parent d ic i name' path) (do
      match ← dirlookup d (dinodeAt d (ic i).inum) name with
      | none => pure none
      | some next => loop next rest) := by
  rw [dirlookup_entryNamed d hdir]
  rcases hc : entryNamed d (dinodeAt d (ic i).inum) name with _ | inum
  · obtain ⟨ic', hp, h'⟩ := namexPass_missing h hv hdir hgo hc
    exact Agrees.pass_ret hp hs rfl h'
  · rcases namexPass_found hl h hv hdir hgo hc with ⟨hp, hfull⟩ | ⟨ic', j, hp, h', hj, hv'⟩
    · exact .inl ⟨by simp [namexLoopIc_some hs, hp, bind, Except.bind], hfull⟩
    · -- the next pass, from the slot of the inode found
      have hrun := hnext ic' j h' hv'
      rw [hj] at hrun
      rw [namexLoopIc_some hs, hp]
      exact hrun

end loops

variable {d : Disk} {ic0 : Icache}

/-- `namei`'s loop on the cache, from a slot the caller holds, runs as the loop on the disk
from the inode the slot names. The induction follows `namexLoop`'s recursion, one pass of
the cache's loop for each of its steps. -/
theorem namexLoopIc_namexLoop (hl : EntriesLinked d) (path name : List UInt8) (ic : Icache)
    (i : Fin NINODE) (h : Owes d ic0 ic (oneRef (some i)) none) (hv : Visitable d ic0 ic i) :
    Agrees d ic0 (fun ic r => (ic r.1).inum) (namexLoopIc false d ic i name path)
      (namexLoop d (ic i).inum path) := by
  rw [namexLoop]
  split
  · -- no component left: the slot is returned
    rename_i hs
    exact .inr (.inr ⟨ic, some (i, name), by rw [namexLoopIc_none hs]; rfl, rfl, h⟩)
  rename_i rest c hs
  by_cases h0 : (dinodeAt d (ic i).inum).type = 0
  · rw [if_pos h0]
    exact Agrees.pass_error (namexPass_no_type h h0) hs rfl
  rw [if_neg h0]
  by_cases hdir : (dinodeAt d (ic i).inum).type ≠ T_DIR
  · rw [if_pos hdir]
    obtain ⟨ic', hp, h'⟩ := namexPass_not_dir h hv h0 hdir
    exact Agrees.pass_ret hp hs rfl h'
  rw [if_neg hdir]
  exact Agrees.lookup hl h hv (not_not.mp hdir) (by simp) hs
    (fun ic' j h' hv' => namexLoopIc_namexLoop hl rest c ic' j h' hv')
termination_by path.length
decreasing_by exact skipelem_length_lt (by assumption)

/-- `nameiparent`'s loop on the cache runs as the loop on the disk: it stops one component
early, and drops the slot it holds when the path has no component. -/
theorem namexLoopIc_nameiparentLoop (hl : EntriesLinked d) (path name : List UInt8) (ic : Icache)
    (i : Fin NINODE) (h : Owes d ic0 ic (oneRef (some i)) none) (hv : Visitable d ic0 ic i) :
    Agrees d ic0 (fun ic r => ((ic r.1).inum, r.2)) (namexLoopIc true d ic i name path)
      (nameiparentLoop d (ic i).inum path) := by
  rw [nameiparentLoop]
  split
  · -- `iput(ip); return 0;`
    rename_i hs
    have hput : iput d ic i = _ := iput_keep (h.keeps (oneRef_pos i) hv.safe)
    have h' := h.put (oneRef_pos i)
    rw [oneRef_drop] at h'
    exact .inr (.inr ⟨_, none, by simp [namexLoopIc_none hs, hput, bind, Except.bind, pure,
      Except.pure], rfl, h'⟩)
  rename_i rest c hs
  by_cases h0 : (dinodeAt d (ic i).inum).type = 0
  · rw [if_pos h0]
    exact Agrees.pass_error (namexPass_no_type h h0) hs rfl
  rw [if_neg h0]
  by_cases hdir : (dinodeAt d (ic i).inum).type ≠ T_DIR
  · rw [if_pos hdir]
    obtain ⟨ic', hp, h'⟩ := namexPass_not_dir h hv h0 hdir
    exact Agrees.pass_ret hp hs rfl h'
  have hdir' := not_not.mp hdir
  rw [if_neg hdir]
  by_cases hend : rest.headD 0 = 0
  · -- the last component: the directory that holds it
    rw [if_pos hend]
    obtain ⟨ic', hp, h', hi⟩ := namexPass_stop c h hdir' hend
    exact Agrees.pass_ret hp hs (by simp [hi, pure, Except.pure]) h'
  rw [if_neg hend]
  exact Agrees.lookup hl h hv hdir' (by simpa using hend) hs
    (fun ic' j h' hv' => namexLoopIc_nameiparentLoop hl rest c ic' j h' hv')
termination_by path.length
decreasing_by exact skipelem_length_lt (by assumption)

/-! ## `namei` and `nameiparent` -/

section namex

variable {d : Disk} {ic : Icache} {cwd : Fin NINODE} {path : List UInt8}

/-- `namex` from the slot it starts with, a reference to the root or one more to the
current directory, runs as the loop on the disk from the inode that slot names. -/
theorem namex_agrees {parent : Bool} {α : Type} {proj : Icache → Fin NINODE × List UInt8 → α}
    {loop : Nat → List UInt8 → Except String (Option α)}
    (hloop : ∀ name (ic' : Icache) i, Owes d ic ic' (oneRef (some i)) none →
      Visitable d ic ic' i → Agrees d ic proj (namexLoopIc parent d ic' i name path)
        (loop (ic' i).inum path))
    (hl : EntriesLinked d) (hidle : ∀ k, (ic k).busy = false) (hco : Coherent d ic)
    (hcwd : 0 < (ic cwd).ref) (hlt : (ic cwd).inum < (readsb d).ninodes.toNat) :
    Agrees d ic proj (namex parent d ic cwd path)
      (loop (if path.head? = some '/'.toUInt8 then ROOTINO else (ic cwd).inum) path) := by
  have h0 := Owes.start hidle hco
  unfold namex
  by_cases hroot : path.head? = some '/'.toUInt8
  · -- `ip = iget(ROOTDEV, ROOTINO)`
    rw [if_pos hroot, if_pos hroot]
    rcases hg : Xv6.iget ic ROOTDEV ROOTINO with e | ⟨ic1, j⟩
    · obtain ⟨rfl, hfull⟩ := iget_error hg
      exact .inl ⟨by simp [bind, Except.bind], ⟨0, fun k _ => Nat.pos_of_ne_zero (hfull k)⟩⟩
    · obtain ⟨h1, hj, -⟩ := h0.iget (by simp) hg
      rw [oneRef_take] at h1
      have hv : Visitable d ic ic1 j := ⟨by rw [hj]; exact hl.root_lt, .inr (by rw [hj]; exact hl.root)⟩
      have hrun := hloop [] ic1 j h1 hv
      rw [hj] at hrun
      exact hrun
  · -- `ip = idup(myproc()->cwd)`
    rw [if_neg hroot, if_neg hroot]
    have h1 : Owes d ic (idup ic cwd) (oneRef (some cwd)) none := by
      rw [← oneRef_take]
      exact h0.idup
    have hin : (idup ic cwd cwd).inum = (ic cwd).inum := by simp [idup]
    have hrun := hloop [] _ cwd h1 ⟨by rw [hin]; exact hlt, .inl hcwd⟩
    rw [hin] at hrun
    exact hrun

/-- `namei` and `nameiparent` on the inode cache, called alone on a cache with no slot
locked and every valid slot holding the dinode on disk, resolve the path as the walk over
its components from the root or the current directory does; when they return, the disk is
unchanged, the slot returned has one reference more, every other slot the references it
had, and no slot is locked. Only a full cache makes them panic where the walk does not. -/
theorem namex_resolves (d : Disk) (ic : Icache) (cwd : Fin NINODE) (path : List UInt8)
    (hl : EntriesLinked d) (hidle : ∀ k, (ic k).busy = false) (hco : Coherent d ic)
    (hcwd : 0 < (ic cwd).ref) (hlt : (ic cwd).inum < (readsb d).ninodes.toNat) :
    Agrees d ic (fun ic r => (ic r.1).inum) (namex false d ic cwd path)
        (walk d (if path.head? = some '/'.toUInt8 then ROOTINO else (ic cwd).inum)
          (pathElems path)) ∧
      Agrees d ic (fun ic r => ((ic r.1).inum, r.2)) (namex true d ic cwd path)
        (walkParent d (if path.head? = some '/'.toUInt8 then ROOTINO else (ic cwd).inum)
          (pathElems path)) := by
  constructor
  · rw [← namexLoop_walk]
    exact namex_agrees (fun name ic' i h hv => namexLoopIc_namexLoop hl path name ic' i h hv)
      hl hidle hco hcwd hlt
  · rw [← nameiparentLoop_walk]
    exact namex_agrees (fun name ic' i h hv => namexLoopIc_nameiparentLoop hl path name ic' i h hv)
      hl hidle hco hcwd hlt

end namex

/-- The cache of a process whose current directory is the root, not read yet. -/
def rootCwd : Icache := fun k =>
  if k = 0 then
    { dev := ROOTDEV, inum := ROOTINO, ref := 1, busy := false, valid := false,
      di := MkfsParams.xv6.root }
  else { dev := 0, inum := 0, ref := 0, busy := false, valid := false, di := MkfsParams.xv6.root }

theorem namex_resolves_root_cwd :
    EntriesLinked MkfsParams.xv6.image ∧ (∀ k, (rootCwd k).busy = false) ∧
      Coherent MkfsParams.xv6.image rootCwd ∧ 0 < (rootCwd 0).ref ∧
      (rootCwd 0).inum < (readsb MkfsParams.xv6.image).ninodes.toNat ∧
      Agrees MkfsParams.xv6.image rootCwd (fun ic r => (ic r.1).inum)
          (namex false MkfsParams.xv6.image rootCwd 0 [120, 47, 46])
          (walk MkfsParams.xv6.image
            (if [120, 47, 46].head? = some '/'.toUInt8 then ROOTINO else (rootCwd 0).inum)
            (pathElems [120, 47, 46])) ∧
        Agrees MkfsParams.xv6.image rootCwd (fun ic r => ((ic r.1).inum, r.2))
          (namex true MkfsParams.xv6.image rootCwd 0 [120, 47, 46])
          (walkParent MkfsParams.xv6.image
            (if [120, 47, 46].head? = some '/'.toUInt8 then ROOTINO else (rootCwd 0).inum)
            (pathElems [120, 47, 46])) := by
  have hl := MkfsParams.xv6.entriesLinked
  have hidle : ∀ k, (rootCwd k).busy = false := by
    intro k
    unfold rootCwd
    split <;> rfl
  have hco : Coherent MkfsParams.xv6.image rootCwd := by
    intro k hv
    unfold rootCwd at hv
    split at hv <;> cases hv
  have hlt : (rootCwd 0).inum < (readsb MkfsParams.xv6.image).ninodes.toNat := by
    rw [MkfsParams.readsb_ninodes]
    decide
  exact ⟨hl, hidle, hco, by decide, hlt,
    namex_resolves MkfsParams.xv6.image rootCwd 0 [120, 47, 46] hl hidle hco (by decide) hlt⟩

end Xv6
