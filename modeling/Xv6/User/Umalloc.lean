import Mathlib
import Xv6.Sys.Args

/-!
# The user-space allocator

`umalloc.c` is the allocator of Kernighan and Ritchie: a circular list of free blocks,
sorted by address from `freep`, each block starting with a `Header` that holds the link
to the next free block and the block's size in headers. `malloc(nbytes)` rounds the
request up to `nunits` headers, one more for the header itself, all in `uint`
arithmetic; it takes the first block that is large enough, from its top end when it is
larger, and asks `sbrk` for at least 4096 headers more (`morecore`) when it has gone
round the list. `free` puts a block back in address order and joins it with the blocks
just above and just below it.

A pointer to a header is its byte address divided by `sizeof(Header)`, which is 8; the
allocator's memory is the header at every such slot. `sbrk` is the system call of
`sysproc.c` over `growproc`: `allocuvm` fails past `USERTOP` and when the kernel runs out
of pages, which the list `grows` decides, one entry for each call that needs pages;
a negative argument shrinks the process. The two loops walk the free list, which is
circular when the allocator is used as intended: `fuel` bounds the steps they take, and
a run that needs more gives `none`.
-/

namespace Xv6

/-- `union header`: the next free block and the size, both counted in headers. -/
structure Header where
  ptr : Nat
  size : UInt32

/-- A process running the allocator: the header at each slot, `freep` (`0` for NULL),
`proc->sz` in bytes, and the outcome of each coming page allocation. -/
structure Umalloc where
  hdr : Nat → Header
  freep : Nat
  sz : Nat
  grows : List Bool

/-- `sizeof(Header)` -/
def HEADER_SIZE : UInt32 := 8

namespace Umalloc

/-- `p->s.size = v` -/
def setSize (hdr : Nat → Header) (p : Nat) (v : UInt32) : Nat → Header :=
  Function.update hdr p { hdr p with size := v }

/-- `p->s.ptr = v` -/
def setPtr (hdr : Nat → Header) (p : Nat) (v : Nat) : Nat → Header :=
  Function.update hdr p { hdr p with ptr := v }

@[simp] theorem setSize_size (hdr : Nat → Header) (p : Nat) (v : UInt32) :
    (setSize hdr p v p).size = v := by
  simp [setSize]

@[simp] theorem setPtr_size (hdr : Nat → Header) (p q : Nat) (v : Nat) :
    (setPtr hdr p v q).size = (hdr q).size := by
  unfold setPtr
  by_cases h : q = p
  · subst h
    simp
  · rw [Function.update_of_ne h]

/-- `sbrk(n)`: `growproc(n)` from `proc->sz`, which `sbrk` returns, or `-1`. -/
def sbrk (u : Umalloc) (n : Int32) : Int × Umalloc :=
  let newsz := (u.sz.toUInt32 + n.toUInt32).toNat
  if 0 < n then
    -- `allocuvm(pgdir, sz, sz + n)`
    if USERTOP < newsz then (-1, u)
    else if newsz < u.sz then (u.sz, u)
    else match u.grows with
      | true :: rest => (u.sz, { u with sz := newsz, grows := rest })
      | _ => (-1, { u with grows := u.grows.drop 1 })
  else if n < 0 then
    -- `deallocuvm(pgdir, sz, sz + n)`, whose result `0` fails `growproc`
    if u.sz ≤ newsz then (u.sz, u)
    else if newsz = 0 then (-1, u)
    else (u.sz, { u with sz := newsz })
  else (u.sz, u)

/-- The search loop of `free`: from `p`, the free block after which `bp` belongs, either
between `p` and the next block or at the top of the list's address order. -/
def freeSearch (hdr : Nat → Header) (bp : Nat) : Nat → Nat → Option Nat
  | 0, _ => none
  | fuel + 1, p =>
    if bp > p ∧ bp < (hdr p).ptr then some p
    else if p ≥ (hdr p).ptr ∧ (bp > p ∨ bp < (hdr p).ptr) then some p
    else freeSearch hdr bp fuel (hdr p).ptr

/-- `free(ap)`: the block `bp` before `ap` goes after the block `freeSearch` finds,
joined with the next block when it ends where that one starts, and with the found
block when that one ends where `bp` starts. -/
def free (u : Umalloc) (fuel ap : Nat) : Option Umalloc :=
  let bp := ap / 8 - 1
  (freeSearch u.hdr bp fuel u.freep).map fun p =>
    let hdr := u.hdr
    let hdr :=
      if bp + (hdr bp).size.toNat = (hdr p).ptr then
        let hdr := setSize hdr bp ((hdr bp).size + (hdr (hdr p).ptr).size)
        setPtr hdr bp (hdr (hdr p).ptr).ptr
      else setPtr hdr bp (hdr p).ptr
    let hdr :=
      if p + (hdr p).size.toNat = bp then
        let hdr := setSize hdr p ((hdr p).size + (hdr bp).size)
        setPtr hdr p (hdr bp).ptr
      else setPtr hdr p bp
    { u with hdr, freep := p }

/-- `morecore(nu)`: at least 4096 headers from `sbrk`, handed to `free`; returns `freep`,
or `0` when `sbrk` fails. -/
def morecore (u : Umalloc) (fuel : Nat) (nu : UInt32) : Option (Nat × Umalloc) :=
  let nu := if nu < 4096 then 4096 else nu
  -- `nu * sizeof(Header)` is a `uint`, passed to `sbrk`'s `int`
  let r := sbrk u (nu * HEADER_SIZE).toInt32
  if r.1 = -1 then some (0, r.2)
  else
    let hp := r.1.toNat / 8
    let u := { r.2 with hdr := setSize r.2.hdr hp nu }
    (free u fuel (8 * (hp + 1))).map fun u => (u.freep, u)

/-- `nunits = (nbytes + sizeof(Header) - 1)/sizeof(Header) + 1`, in `uint`. -/
def nunitsOf (nbytes : UInt32) : UInt32 := (nbytes + HEADER_SIZE - 1) / HEADER_SIZE + 1

/-- The loop of `malloc` at `prevp` and `p = prevp->s.ptr`: a block of exactly `nunits`
is unlinked, a larger one gives up its top `nunits`; back at `freep` it calls
`morecore`. Returns the address `p + 1` handed out, or `0`. -/
def mallocLoop (nunits : UInt32) : Nat → Umalloc → Nat → Nat → Option (Nat × Umalloc)
  | 0, _, _, _ => none
  | fuel + 1, u, prevp, p =>
    if (u.hdr p).size ≥ nunits then
      if (u.hdr p).size = nunits then
        some (8 * (p + 1), { u with hdr := setPtr u.hdr prevp (u.hdr p).ptr, freep := prevp })
      else
        let hdr := setSize u.hdr p ((u.hdr p).size - nunits)
        let p := p + (hdr p).size.toNat
        some (8 * (p + 1), { u with hdr := setSize hdr p nunits, freep := prevp })
    else if p = u.freep then
      match morecore u fuel nunits with
      | none => none
      | some (0, u) => some (0, u)
      | some (p, u) => mallocLoop nunits fuel u p (u.hdr p).ptr
    else mallocLoop nunits fuel u p (u.hdr p).ptr

/-- `malloc(nbytes)` with `base` the slot of the static `base` header; the first call
makes `base` a free list of one empty block. -/
def malloc (base fuel : Nat) (u : Umalloc) (nbytes : UInt32) : Option (Nat × Umalloc) :=
  let u := if u.freep = 0 then
      { u with hdr := setSize (setPtr u.hdr base base) base 0, freep := base }
    else u
  mallocLoop (nunitsOf nbytes) fuel u u.freep (u.hdr u.freep).ptr

/-! ## What `malloc` hands out -/

/-- Below `2^32 - 7` the rounding does not wrap: `nunits` headers hold the header and
`nbytes` more. -/
theorem nunits_room {nbytes : UInt32} (h : nbytes.toNat < 2 ^ 32 - 7) :
    nbytes.toNat + 8 ≤ 8 * (nunitsOf nbytes).toNat := by
  have h8 : HEADER_SIZE.toNat = 8 := rfl
  have h1 : (1 : UInt32).toNat = 1 := rfl
  rw [nunitsOf, UInt32.toNat_add, UInt32.toNat_div, UInt32.toNat_sub, UInt32.toNat_add, h8, h1]
  omega

/-- From `2^32 - 7` on, `nbytes + sizeof(Header) - 1` wraps and `nunits` is `1`: the header
alone. -/
theorem nunitsOf_wraps {nbytes : UInt32} (h : 2 ^ 32 - 7 ≤ nbytes.toNat) :
    nunitsOf nbytes = 1 := by
  have h8 : HEADER_SIZE.toNat = 8 := rfl
  have h1 : (1 : UInt32).toNat = 1 := rfl
  have hlt := nbytes.toNat_lt
  apply UInt32.toNat_inj.mp
  rw [nunitsOf, UInt32.toNat_add, UInt32.toNat_div, UInt32.toNat_sub, UInt32.toNat_add, h8, h1]
  omega

/-- Every block `malloc`'s loop hands out starts one header before the address it
returns, and that header holds `nunits`: the size of an exact fit, or the size the split
writes. -/
theorem mallocLoop_size {nunits : UInt32} : ∀ {fuel : Nat} {u u' : Umalloc} {prevp p r : Nat},
    mallocLoop nunits fuel u prevp p = some (r, u') → r ≠ 0 →
    r = 8 * (r / 8 - 1 + 1) ∧ (u'.hdr (r / 8 - 1)).size = nunits
  | 0, _, _, _, _, _, h, _ => by simp [mallocLoop] at h
  | fuel + 1, u, u', prevp, p, r, h, hr => by
    unfold mallocLoop at h
    split at h
    · rename_i hge
      split at h
      · -- an exact fit: unlinked, its header unchanged
        rename_i heq
        obtain ⟨rfl, rfl⟩ := Prod.mk.inj (Option.some.inj h)
        have hp : 8 * (p + 1) / 8 - 1 = p := by omega
        rw [hp]
        exact ⟨rfl, by rw [setPtr_size, heq]⟩
      · -- a split: the top `nunits` of the block
        obtain ⟨rfl, rfl⟩ := Prod.mk.inj (Option.some.inj h)
        refine ⟨by omega, ?_⟩
        rw [show ∀ q : Nat, 8 * (q + 1) / 8 - 1 = q from fun q => by omega, setSize_size]
    · split at h
      · split at h
        · cases h
        · obtain ⟨rfl, rfl⟩ := Prod.mk.inj (Option.some.inj h)
          exact absurd rfl hr
        · exact mallocLoop_size h hr
      · exact mallocLoop_size h hr

/-- Every block `malloc(nbytes)` hands out for a request below `2^32 - 7` has room for
`nbytes` bytes after its header. -/
theorem malloc_room (base fuel : Nat) (u : Umalloc) {nbytes : UInt32} {r : Nat} {u' : Umalloc}
    (hn : nbytes.toNat < 2 ^ 32 - 7) (h : malloc base fuel u nbytes = some (r, u')) (hr : r ≠ 0) :
    nbytes.toNat ≤ 8 * ((u'.hdr (r / 8 - 1)).size.toNat - 1) := by
  obtain ⟨-, hsize⟩ := mallocLoop_size h hr
  have hroom := nunits_room hn
  rw [hsize]
  omega

end Umalloc

/-- `malloc(2^32 - 7)` as the first call of a process of `0x3000` bytes, whose `sbrk`
succeeds: `nunits` wraps to `1`, `morecore` adds 4096 headers at `0x3000`, and `malloc`
returns `45056`, the new end of the process, from a block of one header, with no byte
of its own. -/
theorem malloc_wraps_to_header :
    (Umalloc.malloc 256 2 ⟨fun _ => ⟨0, 0⟩, 0, 0x3000, [true]⟩ 4294967289).map
        (fun r => (r.1, (r.2.hdr (r.1 / 8 - 1)).size, r.2.sz)) = some (45056, 1, 45056) := by
  decide

end Xv6
