import Mathlib
import Xv6.Fs.Dirlink

/-!
# Path resolution

What `namei` and `nameiparent` mean: a path is the list of its components, the non-empty
pieces between slashes before the first NUL (`pathElems`); each component is compared as
the bytes `skipelem` copies of it (`elemName`); and from the root or the current
directory, resolution follows for each component the first live entry of the directory
whose name `namecmp` finds equal (`walk`). An inode that is not a directory stops it with
`0`, and a free one panics in `ilock`. `nameiparent` walks all components but the last,
checks that it stopped at a directory, and hands back the last component's name
(`walkParent`).

`skipelem` takes the components off the front of the path one by one
(`skipelem_pathElems`), so `namex`'s loop is this walk (`namei_walk`).
-/

namespace Xv6

/-! ## `nameiparent` -/

/-- The loop of `namex(path, 1, name)` from the inode `ip`: the directory that holds the
last element, with the bytes `skipelem` copied of that element; `.ok none` where `namex`
returns `0`, and `.error` where `ilock` or `dirlookup` panics. -/
def nameiparentLoop (d : Disk) (ip : Nat) (path : List UInt8) :
    Except String (Option (Nat × List UInt8)) :=
  -- the equation is read only by the termination proof
  match _h : skipelem path with
  -- `if(nameiparent){ iput(ip); return 0; }`
  | none => pure none
  | some (rest, name) =>
    if (dinodeAt d ip).type = 0 then throw "ilock: no type"
    else if (dinodeAt d ip).type ≠ T_DIR then pure none
    -- `if(nameiparent && *path == '\0')`: one level early
    else if rest.headD 0 = 0 then pure (some (ip, name))
    else do
      match ← dirlookup d (dinodeAt d ip) name with
      | none => pure none
      | some next => nameiparentLoop d next rest
termination_by path.length
decreasing_by exact skipelem_length_lt _h

/-- `nameiparent(path, name)`: from the root for a path that starts with `/`, else from the
current directory `cwd`. -/
def nameiparent (d : Disk) (cwd : Nat) (path : List UInt8) :
    Except String (Option (Nat × List UInt8)) :=
  nameiparentLoop d (if path.head? = some '/'.toUInt8 then ROOTINO else cwd) path

/-! ## Components -/

/-- The components of a path: the non-empty pieces between slashes before the first NUL. -/
def pathElems (path : List UInt8) : List (List UInt8) :=
  ((path.takeWhile (· != 0)).splitOnP (· == '/'.toUInt8)).filter (· ≠ [])

/-- What `skipelem` copies of a component for `namecmp`: its first `DIRSIZ` bytes, or all
of a shorter one and its NUL. -/
def elemName (c : List UInt8) : List UInt8 :=
  if c.length ≥ DIRSIZ then c.take DIRSIZ else c ++ [0]

/-- A byte of a component: not a slash, not the NUL. -/
def ElemByte (b : UInt8) : Prop := b ≠ '/'.toUInt8 ∧ b ≠ 0

@[simp] theorem pathElems_nil : pathElems [] = [] := rfl

/-- A slash at the front starts no component. -/
theorem pathElems_slash (p : List UInt8) : pathElems ('/'.toUInt8 :: p) = pathElems p := by
  unfold pathElems
  rw [List.takeWhile_cons_of_pos (by decide), List.splitOnP_cons_eq_if_modifyHead,
    if_pos (by decide), List.filter_cons_of_neg (by simp)]

/-- The path ends at a NUL. -/
theorem pathElems_nul (p : List UInt8) : pathElems (0 :: p) = [] := by
  unfold pathElems
  rw [List.takeWhile_cons_of_neg (by decide)]
  rfl

theorem pathElems_dropWhile (p : List UInt8) :
    pathElems (p.dropWhile (· == '/'.toUInt8)) = pathElems p := by
  induction p with
  | nil => rfl
  | cons b p ih =>
    by_cases hb : b = '/'.toUInt8
    · rw [List.dropWhile_cons_of_pos (by simp [hb]), ih, hb, pathElems_slash]
    · rw [List.dropWhile_cons_of_neg (by simp [hb])]

/-- A component, followed by the end, a NUL or a slash. -/
theorem pathElems_elem {w r : List UInt8} (hne : w ≠ []) (hw : ∀ b ∈ w, ElemByte b)
    (hr : ∀ b ∈ r.head?, b = '/'.toUInt8 ∨ b = 0) : pathElems (w ++ r) = w :: pathElems r := by
  have hcstr : (w ++ r).takeWhile (· != 0) = w ++ r.takeWhile (· != 0) :=
    List.takeWhile_append_of_pos fun b hb => by simpa using (hw b hb).2
  have hsplit : w.splitOnP (· == '/'.toUInt8) = [w] :=
    List.splitOnP_eq_singleton fun b hb => by simpa using (hw b hb).1
  rcases r with _ | ⟨b, r⟩
  · rw [List.append_nil, pathElems_nil]
    unfold pathElems
    rw [List.takeWhile_eq_self_iff.mpr fun b hb => by simpa using (hw b hb).2, hsplit]
    simp [hne]
  · rcases hr b rfl with rfl | rfl
    · -- the slash ends the component
      rw [pathElems_slash]
      unfold pathElems
      rw [hcstr, List.takeWhile_cons_of_pos (by decide),
        List.splitOnP_append_cons_of_forall_mem (fun b hb => by simpa using (hw b hb).1) _
          (by decide), List.filter_cons_of_pos (by simpa using hne)]
    · -- the NUL ends the path
      rw [pathElems_nul]
      unfold pathElems
      rw [hcstr, List.takeWhile_cons_of_neg (by decide), List.append_nil, hsplit]
      simp [hne]

theorem head_dropWhile (p : UInt8 → Bool) (l : List UInt8) :
    ∀ b ∈ (l.dropWhile p).head?, p b = false := by
  intro b hb
  have := List.head?_dropWhile_not p l
  rw [Option.mem_def.mp hb] at this
  exact this

/-! ## `skipelem` -/

/-- `skipelem` finds no element in a path of no components. -/
theorem skipelem_none {path : List UInt8} (h : skipelem path = none) : pathElems path = [] := by
  rw [← pathElems_dropWhile]
  unfold skipelem at h
  split at h
  · rename_i hd
    rw [hd, pathElems_nil]
  · rename_i c tl hd
    by_cases hc : c = 0
    · rw [hd, hc, pathElems_nul]
    · rw [if_neg hc] at h
      cases h

/-- `skipelem` takes the first component off the path, and copies it as `elemName`; what
it leaves starts with no slash. -/
theorem skipelem_some {path rest name : List UInt8} (h : skipelem path = some (rest, name)) :
    ∃ c, pathElems path = c :: pathElems rest ∧ name = elemName c ∧
      rest.head? ≠ some '/'.toUInt8 := by
  unfold skipelem at h
  split at h
  · cases h
  rename_i c tl hd
  by_cases hc : c = 0
  · rw [if_pos hc] at h
    cases h
  rw [if_neg hc] at h
  obtain ⟨rfl, rfl⟩ := Prod.mk.inj (Option.some.inj h)
  -- the component: the bytes up to the next slash or NUL
  set s := (c :: tl).takeWhile fun b => b != '/'.toUInt8 && b != 0 with hs
  set t := (c :: tl).dropWhile fun b => b != '/'.toUInt8 && b != 0 with ht
  have hsplit : s ++ t = c :: tl := List.takeWhile_append_dropWhile
  have hc' : ElemByte c := by
    refine ⟨fun hslash => ?_, hc⟩
    have := head_dropWhile (· == '/'.toUInt8) path c (by rw [hd]; rfl)
    simp [hslash] at this
  have hne : s ≠ [] := by
    rw [hs, List.takeWhile_cons_of_pos (by simpa [ElemByte] using hc')]
    exact List.cons_ne_nil _ _
  have hw : ∀ b ∈ s, ElemByte b := fun b hb => by
    simpa [ElemByte] using List.mem_takeWhile_imp hb
  have hr : ∀ b ∈ t.head?, b = '/'.toUInt8 ∨ b = 0 := fun b hb => by
    have := head_dropWhile _ _ b hb
    exact or_iff_not_imp_left.mpr (by simpa using this)
  refine ⟨s, ?_, rfl, fun hhd => ?_⟩
  · rw [← pathElems_dropWhile path, hd, pathElems_dropWhile]
    conv_lhs => rw [← hsplit]
    rw [← hsplit, List.drop_left, pathElems_elem hne hw hr]
  · have := head_dropWhile (· == '/'.toUInt8) _ _ hhd
    simp at this

example : pathElems [47, 97, 47, 47, 98, 99, 47, 0, 100] = [[97], [98, 99]] := by decide

/-- Past a component, the path has no more exactly when `*path` is the NUL. -/
theorem pathElems_eq_nil_iff {r : List UInt8} (hr : r.head? ≠ some '/'.toUInt8) :
    pathElems r = [] ↔ r.headD 0 = 0 := by
  rcases r with _ | ⟨b, r⟩
  · simp
  by_cases hb : b = 0
  · subst hb
    simp [pathElems_nul]
  -- a byte of a component starts one
  have hskip : ∃ q, skipelem (b :: r) = some q := by
    have hdrop : (b :: r).dropWhile (· == '/'.toUInt8) = b :: r :=
      List.dropWhile_cons_of_neg (by simpa using fun h => hr (by rw [h]; rfl))
    unfold skipelem
    simp only [hdrop, if_neg hb]
    exact ⟨_, rfl⟩
  obtain ⟨⟨rest, name⟩, hq⟩ := hskip
  obtain ⟨c, hc, -, -⟩ := skipelem_some hq
  simp [hc, hb]

/-! ## Resolution -/

/-- The first live entry of the directory `di` whose name `namecmp` finds equal to `name`. -/
def entryNamed (d : Disk) (di : Dinode) (name : List UInt8) : Option Nat :=
  (List.range (BSIZE / 16 * nblocks di.size)).findSome? fun e => direntMatch name (entryAt d di e)

/-- From the inode `ip`, the inode each component in turn names in the directory reached. -/
def walk (d : Disk) (ip : Nat) : List (List UInt8) → Except String (Option Nat)
  | [] => pure (some ip)
  | c :: cs =>
    if (dinodeAt d ip).type = 0 then throw "ilock: no type"
    else if (dinodeAt d ip).type ≠ T_DIR then pure none
    else match entryNamed d (dinodeAt d ip) (elemName c) with
      | none => pure none
      | some next => walk d next cs

/-- The directory that holds the last component, reached along the others, and the last
component's name. -/
def walkParent (d : Disk) (ip : Nat) (cs : List (List UInt8)) :
    Except String (Option (Nat × List UInt8)) :=
  match cs.getLast? with
  | none => pure none
  | some c => do
    match ← walk d ip cs.dropLast with
    | none => pure none
    | some dp =>
      if (dinodeAt d dp).type = 0 then throw "ilock: no type"
      else if (dinodeAt d dp).type ≠ T_DIR then pure none
      else pure (some (dp, elemName c))

theorem walkParent_single (d : Disk) (ip : Nat) (c : List UInt8) :
    walkParent d ip [c] =
      if (dinodeAt d ip).type = 0 then throw "ilock: no type"
      else if (dinodeAt d ip).type ≠ T_DIR then pure none
      else pure (some (ip, elemName c)) := rfl

/-- Before the last component, the walk takes the first as `walk` does. -/
theorem walkParent_cons (d : Disk) (ip : Nat) (c : List UInt8) {cs : List (List UInt8)}
    (hcs : cs ≠ []) :
    walkParent d ip (c :: cs) =
      if (dinodeAt d ip).type = 0 then throw "ilock: no type"
      else if (dinodeAt d ip).type ≠ T_DIR then pure none
      else match entryNamed d (dinodeAt d ip) (elemName c) with
        | none => pure none
        | some next => walkParent d next cs := by
  obtain ⟨b, cs, rfl⟩ := List.exists_cons_of_ne_nil hcs
  obtain ⟨last, hlast⟩ : ∃ last, (b :: cs).getLast? = some last := ⟨_, List.getLast?_cons⟩
  unfold walkParent
  rw [List.getLast?_cons_cons, hlast, List.dropLast_cons_of_ne_nil (List.cons_ne_nil b cs), walk]
  by_cases h0 : (dinodeAt d ip).type = 0
  · rw [if_pos h0, if_pos h0]
    rfl
  rw [if_neg h0, if_neg h0]
  by_cases hdir : (dinodeAt d ip).type ≠ T_DIR
  · rw [if_pos hdir, if_pos hdir]
    rfl
  rw [if_neg hdir, if_neg hdir]
  cases entryNamed d (dinodeAt d ip) (elemName c) <;> rfl

/-- `namex`'s loop from `ip` walks the components of the path. -/
theorem namexLoop_walk (d : Disk) (ip : Nat) (path : List UInt8) :
    namexLoop d ip path = walk d ip (pathElems path) := by
  rw [namexLoop]
  split
  · rename_i hs
    rw [skipelem_none hs]
    rfl
  rename_i rest name hs
  obtain ⟨c, hc, rfl, -⟩ := skipelem_some hs
  rw [hc, walk]
  by_cases h0 : (dinodeAt d ip).type = 0
  · rw [if_pos h0, if_pos h0]
  rw [if_neg h0, if_neg h0]
  by_cases hdir : (dinodeAt d ip).type ≠ T_DIR
  · rw [if_pos hdir, if_pos hdir]
  rw [if_neg hdir, if_neg hdir, dirlookup_entries d (not_not.mp hdir)]
  change (match entryNamed d (dinodeAt d ip) (elemName c) with
    | none => pure none
    | some next => namexLoop d next rest) = _
  cases entryNamed d (dinodeAt d ip) (elemName c) with
  | none => rfl
  | some next => exact namexLoop_walk d next rest
termination_by path.length
decreasing_by exact skipelem_length_lt hs

/-- In `nameiparent` mode, `namex`'s loop from `ip` walks to the directory that holds the
last component. -/
theorem nameiparentLoop_walk (d : Disk) (ip : Nat) (path : List UInt8) :
    nameiparentLoop d ip path = walkParent d ip (pathElems path) := by
  rw [nameiparentLoop]
  split
  · rename_i hs
    rw [skipelem_none hs]
    rfl
  rename_i rest name hs
  obtain ⟨c, hc, rfl, hslash⟩ := skipelem_some hs
  rw [hc]
  -- the last component, or one before it
  by_cases hend : rest.headD 0 = 0
  · rw [(pathElems_eq_nil_iff hslash).mpr hend, walkParent_single]
    by_cases h0 : (dinodeAt d ip).type = 0
    · rw [if_pos h0, if_pos h0]
    rw [if_neg h0, if_neg h0]
    by_cases hdir : (dinodeAt d ip).type ≠ T_DIR
    · rw [if_pos hdir, if_pos hdir]
    rw [if_neg hdir, if_neg hdir, if_pos hend]
  have hne : pathElems rest ≠ [] := fun h => hend ((pathElems_eq_nil_iff hslash).mp h)
  rw [walkParent_cons d ip c hne]
  by_cases h0 : (dinodeAt d ip).type = 0
  · rw [if_pos h0, if_pos h0]
  rw [if_neg h0, if_neg h0]
  by_cases hdir : (dinodeAt d ip).type ≠ T_DIR
  · rw [if_pos hdir, if_pos hdir]
  rw [if_neg hdir, if_neg hdir, if_neg hend, dirlookup_entries d (not_not.mp hdir)]
  change (match entryNamed d (dinodeAt d ip) (elemName c) with
    | none => pure none
    | some next => nameiparentLoop d next rest) = _
  cases entryNamed d (dinodeAt d ip) (elemName c) with
  | none => rfl
  | some next => exact nameiparentLoop_walk d next rest
termination_by path.length
decreasing_by exact skipelem_length_lt hs

/-- `namei` and `nameiparent` resolve a path component by component, from the root for a
path that starts with a slash and from the current directory otherwise: each component,
cut to `DIRSIZ` bytes, names the first live entry `namecmp` finds equal in the directory
reached. -/
theorem namei_walk (d : Disk) (cwd : Nat) (path : List UInt8) :
    namei d cwd path =
        walk d (if path.head? = some '/'.toUInt8 then ROOTINO else cwd) (pathElems path) ∧
      nameiparent d cwd path =
        walkParent d (if path.head? = some '/'.toUInt8 then ROOTINO else cwd) (pathElems path) :=
  ⟨namexLoop_walk d _ path, nameiparentLoop_walk d _ path⟩

end Xv6
