import Xv6.Fs.Balloc

/-!
# Inodes: allocation, block map, truncation, reading and writing

`ialloc`, `iupdate`, `bmap`, `itrunc`, the freeing half of `iput`, `readi` and
`writei` of `fs.c`. They run on a locked in-memory inode: `Inode.load` is what
`ilock` reads from the disk, and an updated in-memory inode is returned next to the
updated disk, which it reaches only through `iupdate`. A panic is an `.error`
carrying the panic's message.

The loops of `readi`, `writei` and `itrunc` are recursive functions with the loop
variables as arguments. `readi` and `writei` keep `tot` and `off` as `uint`s; the
`off + n < off` test they start with rules out wrapping, so the loops count in
`Nat`.
-/

namespace Xv6

/-- `struct inode`, the in-memory copy of a `dinode`. The reference count and the
lock flags are the caller's business and are left out. -/
structure Inode extends Dinode where
  inum : Nat

/-- What `ilock` reads into a cached inode. -/
def Inode.load (d : Disk) (inum : Nat) : Inode :=
  { dinodeAt d inum with inum }

/-- An entry of `devsw`: a device's read and write functions, if it has them. -/
structure Devsw where
  read : Option (Inode → UInt32 → Int32 × List UInt8)
  write : Option (Inode → (Nat → UInt8) → UInt32 → Int32)

/-- The `dinode` that `ialloc` writes: all zero but the type. -/
def Dinode.blank (type : Int16) : Dinode where
  type := type
  major := 0
  minor := 0
  nlink := 0
  size := 0
  addrs := fun _ => 0

def iallocFrom (d : Disk) (ninodes : Nat) (type : Int16) (inum : Nat) :
    Except String (Disk × Nat) :=
  if inum < ninodes then
    if (dinodeAt d inum).type = 0 then
      .ok (Function.update d (IBLOCK inum)
        (Dinode.encode (d (IBLOCK inum)) (dinodeOff inum) (Dinode.blank type)), inum)
    else iallocFrom d ninodes type (inum + 1)
  else .error "ialloc: no inodes"
termination_by ninodes - inum

/-- `ialloc`: the number of the inode it allocates (`iget` of it is the caller's). -/
def ialloc (d : Disk) (type : Int16) : Except String (Disk × Nat) :=
  iallocFrom d (readsb d).ninodes.toNat type 1

def iupdate (d : Disk) (ip : Inode) : Disk :=
  Function.update d (IBLOCK ip.inum)
    (Dinode.encode (d (IBLOCK ip.inum)) (dinodeOff ip.inum) ip.toDinode)

/-- The indirect block's slot in `addrs`. -/
def INDIRECT : Fin (NDIRECT + 1) := Fin.last NDIRECT

/-- `bmap`: the disk block of block `bn` of the inode, allocating it (and the
indirect block) if there is none yet. -/
def bmap (d : Disk) (ip : Inode) (bn : Nat) : Except String (Disk × Inode × UInt32) :=
  if h : bn < NDIRECT then
    let k : Fin (NDIRECT + 1) := ⟨bn, by omega⟩
    if ip.addrs k = 0 then do
      let (d, addr) ← balloc d
      pure (d, { ip with addrs := Function.update ip.addrs k addr }, addr)
    else pure (d, ip, ip.addrs k)
  else if bn - NDIRECT < NINDIRECT then do
    let (d, ip) ← if ip.addrs INDIRECT = 0 then do
        let (d, addr) ← balloc d
        pure (d, { ip with addrs := Function.update ip.addrs INDIRECT addr })
      else pure (d, ip)
    let ind := (ip.addrs INDIRECT).toNat
    let a := d ind
    let addr := Bytes.getU32 a (4 * (bn - NDIRECT))
    if addr = 0 then do
      let (d, addr) ← balloc d
      -- the entry goes into the buffer read before the allocation
      pure (Function.update d ind (Bytes.setU32 a (4 * (bn - NDIRECT)) addr), ip, addr)
    else pure (d, ip, addr)
  else .error "bmap: out of range"

/-- The first loop of `itrunc`, over the direct slots `is`. -/
def itruncDirect : List (Fin (NDIRECT + 1)) → Disk → Inode → Except String (Disk × Inode)
  | [], d, ip => pure (d, ip)
  | i :: is, d, ip =>
    if ip.addrs i ≠ 0 then do
      let d ← bfree d (ip.addrs i).toNat
      itruncDirect is d { ip with addrs := Function.update ip.addrs i 0 }
    else itruncDirect is d ip

/-- The loop of `itrunc` over the entries `js` of the indirect block `a`, read once
before the loop. -/
def itruncIndirect (a : Block) : List Nat → Disk → Except String Disk
  | [], d => pure d
  | j :: js, d =>
    if Bytes.getU32 a (4 * j) ≠ 0 then do
      let d ← bfree d (Bytes.getU32 a (4 * j)).toNat
      itruncIndirect a js d
    else itruncIndirect a js d

def itrunc (d : Disk) (ip : Inode) : Except String (Disk × Inode) := do
  let (d, ip) ← itruncDirect ((List.finRange NDIRECT).map Fin.castSucc) d ip
  let (d, ip) ← if ip.addrs INDIRECT ≠ 0 then do
      let a := d (ip.addrs INDIRECT).toNat
      let d ← itruncIndirect a (List.range NINDIRECT) d
      let d ← bfree d (ip.addrs INDIRECT).toNat
      pure (d, { ip with addrs := Function.update ip.addrs INDIRECT 0 })
    else pure (d, ip)
  let ip := { ip with size := 0 }
  pure (iupdate d ip, ip)

/-- The branch of `iput` taken when the last reference to an inode with no links
is dropped: truncate it and free it on disk. -/
def iputFree (d : Disk) (ip : Inode) : Except String (Disk × Inode) := do
  let (d, ip) ← itrunc d ip
  let ip := { ip with type := 0 }
  pure (iupdate d ip, ip)

/-- The loop of `readi`: the bytes copied out so far are `acc`. -/
def readiLoop (n : Nat) (d : Disk) (ip : Inode) (tot off : Nat) (acc : List UInt8) :
    Except String (Disk × Inode × List UInt8) :=
  -- the test's proof is read only by the termination proof
  if _h : tot < n then do
    let (d, ip, addr) ← bmap d ip (off / BSIZE)
    let m := min (n - tot) (BSIZE - off % BSIZE)
    readiLoop n d ip (tot + m) (off + m) (acc ++ Bytes.readBytes (d addr.toNat) (off % BSIZE) m)
  else pure (d, ip, acc)
termination_by n - tot
decreasing_by
  have : off % BSIZE < BSIZE := Nat.mod_lt _ (by decide)
  omega

/-- `readi`: the value returned and the bytes copied to `dst`. -/
def readi (devsw : Nat → Devsw) (d : Disk) (ip : Inode) (off n : UInt32) :
    Except String (Disk × Inode × Int32 × List UInt8) :=
  if ip.type = T_DEV then
    if ip.major < 0 ∨ ip.major ≥ NDEV then pure (d, ip, -1, [])
    else match (devsw ip.major.toInt.toNat).read with
      | none => pure (d, ip, -1, [])
      | some rd => pure (d, ip, (rd ip n).1, (rd ip n).2)
  else if off > ip.size ∨ off + n < off then pure (d, ip, -1, [])
  else
    let n := if off + n > ip.size then ip.size - off else n
    do
      let (d, ip, bs) ← readiLoop n.toNat d ip 0 off.toNat []
      pure (d, ip, n.toInt32, bs)

/-- The loop of `writei`; it returns the final offset. -/
def writeiLoop (src : Nat → UInt8) (n : Nat) (d : Disk) (ip : Inode) (tot off : Nat) :
    Except String (Disk × Inode × Nat) :=
  -- the test's proof is read only by the termination proof
  if _h : tot < n then do
    let (d, ip, addr) ← bmap d ip (off / BSIZE)
    let m := min (n - tot) (BSIZE - off % BSIZE)
    let blk := Bytes.writeBytes (d addr.toNat) (off % BSIZE) ((List.range m).map fun i => src (tot + i))
    writeiLoop src n (Function.update d addr.toNat blk) ip (tot + m) (off + m)
  else pure (d, ip, off)
termination_by n - tot
decreasing_by
  have : off % BSIZE < BSIZE := Nat.mod_lt _ (by decide)
  omega

/-- `writei` of the bytes `src 0, src 1, ...`: the value returned. -/
def writei (devsw : Nat → Devsw) (d : Disk) (ip : Inode) (src : Nat → UInt8) (off n : UInt32) :
    Except String (Disk × Inode × Int32) :=
  if ip.type = T_DEV then
    if ip.major < 0 ∨ ip.major ≥ NDEV then pure (d, ip, -1)
    else match (devsw ip.major.toInt.toNat).write with
      | none => pure (d, ip, -1)
      | some wr => pure (d, ip, wr ip src n)
  else if off > ip.size ∨ off + n < off then pure (d, ip, -1)
  else
    let n := if off + n > (MAXFILE * BSIZE).toUInt32 then (MAXFILE * BSIZE).toUInt32 - off else n
    do
      let (d, ip, off) ← writeiLoop src n.toNat d ip 0 off.toNat
      if n > 0 ∧ off > ip.size.toNat then
        let ip := { ip with size := off.toUInt32 }
        pure (iupdate d ip, ip, n.toInt32)
      else pure (d, ip, n.toInt32)

end Xv6
