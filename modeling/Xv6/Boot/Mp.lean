import Xv6.Lib.Bytes

/-!
# The MP configuration table

`mp.c`: `mpsearch` looks for the floating pointer structure `_MP_` in the first KB of the
EBDA, in the last KB of base memory and in the BIOS ROM; `mpconfig` follows its
`physaddr` to the configuration table and checks the table's signature `PCMP`, its
version and its byte sum; `mpinit` walks the entries after the header, stores
`cpus[ncpu].id` for each processor entry, keeps the I/O APIC id, and falls back to one
CPU when it dislikes what it found.

The walk ends exactly when it meets only known entry types on its way to the table's
end (`mpLoop_returns_iff`): the `default` case of the switch does not advance `p`, so an
entry of an unknown type holds the loop at it for ever. The stores go to `cpus[0]`,
`cpus[1]`, ... one per processor entry (`mpinit_writes`), with nothing to stop them at
`NCPU`. Both happen on tables that pass every check of `mpconfig` (`mpinit_overruns`).

Memory is physical memory, a function from addresses to bytes, and the stores to
`cpus` are recorded by index; `cprintf` output is left out.
-/

namespace Xv6

/-- `#define NCPU 8` -/
def NCPU : Nat := 8

/-- The entry types of `mp.h`. -/
def MPPROC : UInt8 := 0x00
def MPBUS : UInt8 := 0x01
def MPIOAPIC : UInt8 := 0x02
def MPIOINTR : UInt8 := 0x03
def MPLINTR : UInt8 := 0x04

/-- `#define MPBOOT 0x02`, the flag of the bootstrap processor. -/
def MPBOOT : UInt8 := 0x02

/-- `"_MP_"` -/
def MP_SIG : List UInt8 := ['_'.toUInt8, 'M'.toUInt8, 'P'.toUInt8, '_'.toUInt8]

/-- `"PCMP"` -/
def PCMP_SIG : List UInt8 := ['P'.toUInt8, 'C'.toUInt8, 'M'.toUInt8, 'P'.toUInt8]

/-! ## Finding the table -/

/-- `sum(addr, len)`: the bytes added in an `int` and returned as a `uchar`. -/
def sum (mem : Nat → UInt8) (addr len : Nat) : UInt8 :=
  (Bytes.readBytes mem addr len).foldl (· + ·) 0

/-- The loop of `mpsearch1` from `p`, `n` structures of 16 bytes before `e`. -/
def mpsearch1Loop (mem : Nat → UInt8) : Nat → Nat → Option Nat
  | 0, _ => none
  | n + 1, p =>
    if Bytes.readBytes mem p 4 = MP_SIG ∧ sum mem p 16 = 0 then some p
    else mpsearch1Loop mem n (p + 16)

/-- `mpsearch1(addr, len)`: `for(p = addr; p < addr+len; p += sizeof(struct mp))`. -/
def mpsearch1 (mem : Nat → UInt8) (addr len : Nat) : Option Nat :=
  mpsearch1Loop mem ((len + 15) / 16) addr

/-- `mpsearch()`, with the BIOS data area at `0x400`. When the EBDA segment is `0`, the
base memory size in KB gives the last KB of base memory; `(uchar*)p-1024` is a 32-bit
address. -/
def mpsearch (mem : Nat → UInt8) : Option Nat :=
  let bda := 0x400
  let p := ((mem (bda + 0x0F)).toNat <<< 8 ||| (mem (bda + 0x0E)).toNat) <<< 4
  let first :=
    if p ≠ 0 then mpsearch1 mem p 1024
    else
      let p := ((mem (bda + 0x14)).toNat <<< 8 ||| (mem (bda + 0x13)).toNat) * 1024
      mpsearch1 mem ((p + 2 ^ 32 - 1024) % 2 ^ 32) 1024
  match first with
  | some mp => some mp
  | none => mpsearch1 mem 0xF0000 0x10000

/-- `mpconfig(&mp)`: the floating pointer and the configuration table, when the table's
signature, version and byte sum pass. -/
def mpconfig (mem : Nat → UInt8) : Option (Nat × Nat) :=
  match mpsearch mem with
  | none => none
  | some mp =>
    -- `mp->physaddr`
    let conf := (Bytes.getU32 mem (mp + 4)).toNat
    if conf = 0 then none
    else if Bytes.readBytes mem conf 4 ≠ PCMP_SIG then none
    -- `conf->version`
    else if mem (conf + 6) ≠ 1 ∧ mem (conf + 6) ≠ 4 then none
    -- `conf->length`
    else if sum mem conf (Bytes.getU16 mem (conf + 4)).toNat ≠ 0 then none
    else some (mp, conf)

/-! ## The walk over the entries -/

/-- The globals `mpinit` sets: `ismp`, `ncpu`, `bcpu` as an index into `cpus`,
`ioapicid`, `lapic`, whether the IMCR was set to mask external interrupts, and the indices
`i` of the stores `cpus[i].id = i`, in order. -/
structure Mp where
  ismp : Bool
  ncpu : Nat
  bcpu : Nat
  ioapicid : UInt8
  lapic : UInt32
  imcr : Bool
  writes : List Nat
  deriving DecidableEq, Repr

/-- One pass of the body of `mpinit`'s loop, at the entry `p`: the next `p` and the
globals. -/
def mpEntry (mem : Nat → UInt8) (p : Nat) (s : Mp) : Nat × Mp :=
  let t := mem p
  if t = MPPROC then
    -- `proc->apicid`, `proc->flags`
    let s := if s.ncpu ≠ (mem (p + 1)).toNat then { s with ismp := false } else s
    let s := if mem (p + 3) &&& MPBOOT ≠ 0 then { s with bcpu := s.ncpu } else s
    (p + 20, { s with writes := s.writes ++ [s.ncpu], ncpu := s.ncpu + 1 })
  else if t = MPIOAPIC then (p + 8, { s with ioapicid := mem (p + 1) })
  else if t = MPBUS ∨ t = MPIOINTR ∨ t = MPLINTR then (p + 8, s)
  -- `default`: `p` stays where it is
  else (p, { s with ismp := false })

/-- `for(...; p<e; )` with at most `fuel` tests of `p<e`; `none` when the fuel runs out. -/
def mpLoop (mem : Nat → UInt8) (e : Nat) : Nat → Nat → Mp → Option Mp
  | 0, _, _ => none
  | fuel + 1, p, s =>
    if p < e then
      let r := mpEntry mem p s
      mpLoop mem e fuel r.1 r.2
    else some s

/-- The globals at boot. -/
def Mp.zero : Mp := ⟨false, 0, 0, 0, 0, false, []⟩

/-- `mpinit()`, with at most `fuel` tests of the loop condition. -/
def mpinit (fuel : Nat) (mem : Nat → UInt8) : Option Mp :=
  match mpconfig mem with
  | none => some Mp.zero
  | some (mp, conf) =>
    let s := { Mp.zero with ismp := true, lapic := Bytes.getU32 mem (conf + 36) }
    -- `conf+1` is `sizeof(struct mpconf)` = 44 bytes in
    (mpLoop mem (conf + (Bytes.getU16 mem (conf + 4)).toNat) fuel (conf + 44) s).map fun s =>
      if !s.ismp then { s with ncpu := 1, lapic := 0, ioapicid := 0 }
      -- `mp->imcrp`
      else { s with imcr := mem (mp + 12) ≠ 0 }

theorem mpLoop_of_lt {mem : Nat → UInt8} {e fuel p : Nat} {s : Mp} (hp : p < e) :
    mpLoop mem e (fuel + 1) p s = mpLoop mem e fuel (mpEntry mem p s).1 (mpEntry mem p s).2 := by
  rw [mpLoop, if_pos hp]

theorem mpLoop_of_ge {mem : Nat → UInt8} {e fuel p : Nat} {s : Mp} (hp : e ≤ p) :
    mpLoop mem e (fuel + 1) p s = some s := by
  rw [mpLoop, if_neg (Nat.not_lt_of_le hp)]

/-! ## Which walks end -/

/-- How far the walk moves past an entry of type `t`, `none` for a type the switch does
not know. -/
def entrySize (t : UInt8) : Option Nat :=
  if t = MPPROC then some 20
  else if t = MPIOAPIC ∨ t = MPBUS ∨ t = MPIOINTR ∨ t = MPLINTR then some 8
  else none

/-- The walk from `p` reaches the end `e` through entries of known types only. -/
inductive Walks (mem : Nat → UInt8) (e : Nat) : Nat → Prop
  | done {p : Nat} : e ≤ p → Walks mem e p
  | next {p n : Nat} : p < e → entrySize (mem p) = some n → Walks mem e (p + n) → Walks mem e p

/-- Everything one pass of the loop body does: an entry of a known type moves `p` on
by its size, a processor entry stores `cpus[ncpu]` and counts it, and an unknown type
leaves `p` and all but `ismp` as they were. -/
theorem mpEntry_cases (mem : Nat → UInt8) (p : Nat) (s : Mp) :
    (∃ n, entrySize (mem p) = some n ∧ (mpEntry mem p s).1 = p + n ∧
      (((mpEntry mem p s).2.writes = s.writes ++ [s.ncpu] ∧ (mpEntry mem p s).2.ncpu = s.ncpu + 1) ∨
        ((mpEntry mem p s).2.writes = s.writes ∧ (mpEntry mem p s).2.ncpu = s.ncpu))) ∨
      (entrySize (mem p) = none ∧ mpEntry mem p s = (p, { s with ismp := false })) := by
  simp only [mpEntry, entrySize]
  by_cases h0 : mem p = MPPROC
  · refine Or.inl ⟨20, by rw [if_pos h0], by rw [if_pos h0], Or.inl ?_⟩
    rw [if_pos h0]
    -- the two `if`s before the store touch only `ismp` and `bcpu`
    constructor <;> (split <;> split <;> rfl)
  by_cases h2 : mem p = MPIOAPIC
  · exact Or.inl ⟨8, by rw [if_neg h0, if_pos (Or.inl h2)], by rw [if_neg h0, if_pos h2],
      Or.inr (by rw [if_neg h0, if_pos h2]; exact ⟨rfl, rfl⟩)⟩
  by_cases h8 : mem p = MPBUS ∨ mem p = MPIOINTR ∨ mem p = MPLINTR
  · exact Or.inl ⟨8, by rw [if_neg h0, if_pos (Or.inr h8)], by rw [if_neg h0, if_neg h2, if_pos h8],
      Or.inr (by rw [if_neg h0, if_neg h2, if_pos h8]; exact ⟨rfl, rfl⟩)⟩
  · refine Or.inr ⟨?_, by rw [if_neg h0, if_neg h2, if_neg h8]⟩
    rw [if_neg h0, if_neg (not_or.mpr ⟨h2, h8⟩)]

/-- At an entry of an unknown type the loop never ends: the body leaves `p` there. -/
theorem mpLoop_stuck {mem : Nat → UInt8} {e p : Nat} (hp : p < e) (ht : entrySize (mem p) = none) :
    ∀ fuel s, mpLoop mem e fuel p s = none := by
  intro fuel
  induction fuel with
  | zero => intro s; rfl
  | succ fuel ih =>
    intro s
    rcases mpEntry_cases mem p s with ⟨n, hn, -⟩ | ⟨-, hstay⟩
    · rw [ht] at hn
      cases hn
    · rw [mpLoop_of_lt hp, hstay]
      exact ih _

/-- A walk through known entries ends, from any globals, with enough fuel. -/
theorem mpLoop_of_walks {mem : Nat → UInt8} {e p : Nat} (hw : Walks mem e p) :
    ∀ s, ∃ fuel s', mpLoop mem e fuel p s = some s' := by
  induction hw with
  | done hle =>
    intro s
    exact ⟨1, s, mpLoop_of_ge hle⟩
  | @next p n hp hn _ ih =>
    intro s
    rcases mpEntry_cases mem p s with ⟨n', hn', hp', -⟩ | ⟨hnone, -⟩
    · rw [hn] at hn'
      cases hn'
      obtain ⟨fuel, s', h⟩ := ih (mpEntry mem p s).2
      refine ⟨fuel + 1, s', ?_⟩
      rw [mpLoop_of_lt hp, hp']
      exact h
    · rw [hn] at hnone
      cases hnone

/-- A loop that ends walked through known entries. The induction is on the fuel. -/
theorem walks_of_mpLoop {mem : Nat → UInt8} {e : Nat} :
    ∀ {fuel p : Nat} {s s' : Mp}, mpLoop mem e fuel p s = some s' → Walks mem e p := by
  intro fuel
  induction fuel with
  | zero =>
    intro p s s' h
    cases h
  | succ fuel ih =>
    intro p s s' h
    by_cases hp : p < e
    · rw [mpLoop_of_lt hp] at h
      rcases mpEntry_cases mem p s with ⟨n, hn, hp', -⟩ | ⟨hnone, hstay⟩
      · rw [hp'] at h
        exact .next hp hn (ih h)
      · rw [hstay, mpLoop_stuck hp hnone fuel] at h
        cases h
    · exact .done (Nat.le_of_not_lt hp)

/-- `mpinit`'s loop ends exactly when it meets only known entry types. -/
theorem mpLoop_returns_iff (mem : Nat → UInt8) (e p : Nat) (s : Mp) :
    (∃ fuel s', mpLoop mem e fuel p s = some s') ↔ Walks mem e p :=
  ⟨fun ⟨_, _, h⟩ => walks_of_mpLoop h, fun hw => mpLoop_of_walks hw s⟩

/-! ## The stores to `cpus` -/

/-- The stores so far went to `cpus[0]`, ..., `cpus[ncpu-1]`. -/
def Mp.StoresBelow (s : Mp) : Prop := s.writes = List.range s.ncpu

theorem Mp.StoresBelow.entry {mem : Nat → UInt8} {p : Nat} {s : Mp} (hs : s.StoresBelow) :
    (mpEntry mem p s).2.StoresBelow := by
  unfold Mp.StoresBelow at *
  rcases mpEntry_cases mem p s with ⟨n, -, -, ⟨hw, hn⟩ | ⟨hw, hn⟩⟩ | ⟨-, hstay⟩
  · rw [hw, hn, hs, List.range_succ]
  · rw [hw, hn, hs]
  · rw [hstay]
    exact hs

/-- The loop keeps `StoresBelow`. The induction is on the fuel. -/
theorem Mp.StoresBelow.loop {mem : Nat → UInt8} {e : Nat} :
    ∀ {fuel p : Nat} {s s' : Mp}, mpLoop mem e fuel p s = some s' → s.StoresBelow → s'.StoresBelow := by
  intro fuel
  induction fuel with
  | zero =>
    intro p s s' h
    cases h
  | succ fuel ih =>
    intro p s s' h hs
    by_cases hp : p < e
    · rw [mpLoop_of_lt hp] at h
      exact ih h hs.entry
    · rw [mpLoop_of_ge (Nat.le_of_not_lt hp)] at h
      cases h
      exact hs

/-- `mpinit` stores `cpus[i].id` for `i` = 0, 1, ... up to the number `n` of processor
entries it walked, whatever `NCPU` is; when it keeps the MP configuration, `ncpu` is
that `n`. -/
theorem mpinit_writes {fuel : Nat} {mem : Nat → UInt8} {r : Mp} (h : mpinit fuel mem = some r) :
    ∃ n, r.writes = List.range n ∧ (r.ismp = true → r.ncpu = n) := by
  unfold mpinit at h
  split at h
  · cases h
    exact ⟨0, rfl, fun _ => rfl⟩
  · obtain ⟨s, hs, rfl⟩ := Option.map_eq_some_iff.mp h
    have hb : s.StoresBelow := Mp.StoresBelow.loop hs rfl
    -- the fallback to one CPU keeps the stores and resets `ncpu`
    refine ⟨s.ncpu, by split <;> exact hb, fun hm => ?_⟩
    by_cases hi : s.ismp = true
    · rw [if_neg (by simp [hi])]
    · rw [if_pos (by simpa using hi)] at hm
      exact absurd hm hi

/-- `mpinit` returns, with enough fuel, exactly when the table `mpconfig` accepts, if
any, is walked through known entry types. -/
theorem mpinit_returns_iff (mem : Nat → UInt8) :
    (∃ fuel r, mpinit fuel mem = some r) ↔
      ∀ mp conf, mpconfig mem = some (mp, conf) →
        Walks mem (conf + (Bytes.getU16 mem (conf + 4)).toNat) (conf + 44) := by
  unfold mpinit
  split
  · rename_i hnone
    refine ⟨fun _ mp conf h => ?_, fun _ => ⟨0, Mp.zero, rfl⟩⟩
    rw [hnone] at h
    cases h
  · rename_i mp conf hconf
    constructor
    · rintro ⟨fuel, r, h⟩ mp' conf' h'
      rw [hconf] at h'
      obtain ⟨rfl, rfl⟩ := Prod.mk.injEq _ _ _ _ ▸ Option.some.inj h'
      obtain ⟨s, hs, -⟩ := Option.map_eq_some_iff.mp h
      exact walks_of_mpLoop hs
    · intro hw
      obtain ⟨fuel, s', h⟩ := mpLoop_of_walks (hw mp conf hconf) { Mp.zero with ismp := true, lapic := Bytes.getU32 mem (conf + 36) }
      refine ⟨fuel, ?_⟩
      dsimp only
      rw [h]
      exact ⟨_, rfl⟩

/-! ## Two tables that pass `mpconfig` -/

/-- A floating pointer at `0x9FC00`, where the EBDA segment `0x9FC0` of the BIOS data
area points, for a configuration table at `0x9FD00`. -/
def mpFloat : List UInt8 := [0x5F, 0x4D, 0x50, 0x5F, 0x00, 0xFD, 0x09, 0x00, 1, 4, 0x9A, 0, 0, 0, 0, 0]

/-- The header of a configuration table of version 4: its length, entry count and
checksum byte, and the local APIC at `0xFEE00000`. -/
def mpconfHeader (length count : Nat) (checksum : UInt8) : List UInt8 :=
  PCMP_SIG ++ [length.toUInt8, (length / 256).toUInt8, 4, checksum] ++ List.replicate 26 0 ++
    [count.toUInt8, (count / 256).toUInt8, 0x00, 0x00, 0xE0, 0xFE] ++ List.replicate 4 0

/-- A processor entry, the bootstrap processor when `flags` has `MPBOOT`. -/
def mpprocEntry (apicid flags : UInt8) : List UInt8 := [MPPROC, apicid, 0x14, flags] ++ List.replicate 16 0

/-- Physical memory with the BIOS data area, the floating pointer and a table. -/
def mpMem (table : List UInt8) : Nat → UInt8 :=
  Bytes.writeBytes (Bytes.writeBytes (Bytes.writeBytes (fun _ => 0) 0x40E [0xC0, 0x9F]) 0x9FC00 mpFloat)
    0x9FD00 table

/-- Nine processor entries, with APIC ids 0 to 8. -/
def nineCpus : Nat → UInt8 :=
  mpMem (mpconfHeader 224 9 0x22 ++ mpprocEntry 0 3 ++
    (List.range 8).flatMap fun i => mpprocEntry (i + 1).toUInt8 1)

/-- One entry of type 5, which `mp.h` does not define. -/
def unknownEntry : Nat → UInt8 :=
  mpMem (mpconfHeader 52 1 0xB4 ++ [5, 0, 0, 0, 0, 0, 0, 0])

/-- Both tables pass `mpconfig`. On nine processor entries `mpinit` keeps the MP
configuration with `ncpu = 9` and stores `cpus[NCPU]`; on the entry of unknown type it
never returns, whatever the fuel. -/
theorem mpinit_overruns :
    mpconfig nineCpus = some (0x9FC00, 0x9FD00) ∧
      mpinit 10 nineCpus = some ⟨true, 9, 0, 0, 0xFEE00000, false, List.range 9⟩ ∧ NCPU ∈ List.range 9 ∧
    mpconfig unknownEntry = some (0x9FC00, 0x9FD00) ∧ ∀ fuel, mpinit fuel unknownEntry = none := by
  have hbad : mpconfig unknownEntry = some (0x9FC00, 0x9FD00) := rfl
  refine ⟨by decide +kernel, by decide +kernel, by decide, hbad, fun fuel => ?_⟩
  unfold mpinit
  rw [hbad]
  dsimp only
  rw [mpLoop_stuck (by decide) rfl fuel]
  rfl

end Xv6
