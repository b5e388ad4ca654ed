import Xv6.Lib.Port
import Xv6.Eth.SendQueue

/-!
# The NE2000 driver as port I/O

`eth/ne.c` drives a DP8390 network controller through 32 I/O ports from `ne->base`:
sixteen registers in pages that the command register selects, the data port of the
remote DMA at `NE_DATA` and the reset port at `NE_RESET`. Each function of the driver
is a `Port.Prog` over `Loc`, the ports and the bytes of kernel memory: `inb` and `outb`
are single accesses, and the `rep` string instructions of `x86.h` are loops of them
with `ecx = cnt`. A 16-bit `insw` or `outsw` moves two bytes of the data port per
count, low byte first.

The driver state is `Ne`, the transmit queue's `NeT` with the base port and the
station address; `name` and `irq` serve only `cprintf` and `picenable` and are left
out with the messages. The stack buffers that the code reads into, `header` in
`ne_pio_read` and `dummy` in `ne_rdma_setup`, are kernel memory at an address the
caller passes. The C types stay: `uint` is `UInt32`, a `ushort` address is `UInt16`,
`int` is `Int32`, and every implicit conversion is written out.

The lemmas at the end hold on every bus: the kernel memory that the string
instructions and `ne_getblock` write, counted in bytes.
-/

namespace Xv6.Eth

open Port

/-- What driver code reads and writes: an I/O port, or a byte of kernel memory. -/
inductive Loc where
  | port (p : UInt16)
  | mem (a : Nat)
  deriving DecidableEq

/-- Driver code: a program over ports and kernel memory. -/
abbrev Drv := Prog Loc UInt8

/-- `inb(port)` -/
def inb (port : UInt16) : Drv UInt8 := Prog.get (.port port)

/-- `outb(port, data)` -/
def outb (port : UInt16) (data : UInt8) : Drv Unit := Prog.set (.port port) data

/-- A byte load from kernel memory. -/
def load (a : Nat) : Drv UInt8 := Prog.get (.mem a)

/-- A byte store to kernel memory. -/
def store (a : Nat) (v : UInt8) : Drv Unit := Prog.set (.mem a) v

/-! ## The string instructions -/

/-- `rep insb` with `ecx = n`: a byte of the port into each of `addr, addr + 1, …`. -/
def insbN (port : UInt16) : Nat → Nat → Drv Unit
  | _, 0 => pure ()
  | addr, n + 1 => do
    store addr (← inb port)
    insbN port (addr + 1) n

/-- `rep insw` with `ecx = n`: `n` words of the port, each stored at `addr, addr + 1`. -/
def inswN (port : UInt16) : Nat → Nat → Drv Unit
  | _, 0 => pure ()
  | addr, n + 1 => do
    let lo ← inb port
    let hi ← inb port
    store addr lo
    store (addr + 1) hi
    inswN port (addr + 2) n

/-- `rep outsb` with `ecx = n`. -/
def outsbN (port : UInt16) : Nat → Nat → Drv Unit
  | _, 0 => pure ()
  | addr, n + 1 => do
    outb port (← load addr)
    outsbN port (addr + 1) n

/-- `rep outsw` with `ecx = n`. -/
def outswN (port : UInt16) : Nat → Nat → Drv Unit
  | _, 0 => pure ()
  | addr, n + 1 => do
    let lo ← load addr
    let hi ← load (addr + 1)
    outb port lo
    outb port hi
    outswN port (addr + 2) n

/-- `insb(port, addr, cnt)` -/
def insb (port : UInt16) (addr : Nat) (cnt : Int32) : Drv Unit :=
  insbN port addr cnt.toUInt32.toNat

/-- `insw(port, addr, cnt)`: `cnt` counts words. -/
def insw (port : UInt16) (addr : Nat) (cnt : Int32) : Drv Unit :=
  inswN port addr cnt.toUInt32.toNat

/-- `outsb(port, addr, cnt)` -/
def outsb (port : UInt16) (addr : Nat) (cnt : Int32) : Drv Unit :=
  outsbN port addr cnt.toUInt32.toNat

/-- `outsw(port, addr, cnt)`: `cnt` counts words. -/
def outsw (port : UInt16) (addr : Nat) (cnt : Int32) : Drv Unit :=
  outswN port addr cnt.toUInt32.toNat

/-! ## `ne.h` -/

def DP_CR : UInt8 := 0x00
def DP_PSTART : UInt8 := 0x01
def DP_PSTOP : UInt8 := 0x02
def DP_BNRY : UInt8 := 0x03
def DP_TPSR : UInt8 := 0x04
def DP_TBCR0 : UInt8 := 0x05
def DP_TBCR1 : UInt8 := 0x06
def DP_ISR : UInt8 := 0x07
def DP_CRDA0 : UInt8 := 0x08
def DP_RSAR0 : UInt8 := 0x08
def DP_CRDA1 : UInt8 := 0x09
def DP_RSAR1 : UInt8 := 0x09
def DP_RBCR0 : UInt8 := 0x0A
def DP_RBCR1 : UInt8 := 0x0B
def DP_RCR : UInt8 := 0x0C
def DP_CNTR0 : UInt8 := 0x0D
def DP_TCR : UInt8 := 0x0D
def DP_DCR : UInt8 := 0x0E
def DP_IMR : UInt8 := 0x0F
def DP_PAR0 : UInt8 := 0x01
def DP_PAR1 : UInt8 := 0x02
def DP_PAR2 : UInt8 := 0x03
def DP_PAR3 : UInt8 := 0x04
def DP_PAR4 : UInt8 := 0x05
def DP_PAR5 : UInt8 := 0x06
def DP_CURR : UInt8 := 0x07
def DP_MAR0 : UInt8 := 0x08
def DP_MAR1 : UInt8 := 0x09
def DP_MAR2 : UInt8 := 0x0A
def DP_MAR3 : UInt8 := 0x0B
def DP_MAR4 : UInt8 := 0x0C
def DP_MAR5 : UInt8 := 0x0D
def DP_MAR6 : UInt8 := 0x0E
def DP_MAR7 : UInt8 := 0x0F
def NE_DATA : UInt8 := 0x10
def NE_RESET : UInt8 := 0x1F

def CR_STP : UInt8 := 0x01
def CR_STA : UInt8 := 0x02
def CR_TXP : UInt8 := 0x04
def CR_DM_RR : UInt8 := 0x08
def CR_DM_RW : UInt8 := 0x10
def CR_NO_DMA : UInt8 := 0x20
def CR_PS_P0 : UInt8 := 0x00
def CR_PS_P1 : UInt8 := 0x40
def ISR_RDC : UInt8 := 0x40
def IMR_PRXE : UInt8 := 0x01
def IMR_PTXE : UInt8 := 0x02
def IMR_RXEE : UInt8 := 0x04
def IMR_TXEE : UInt8 := 0x08
def IMR_OVWE : UInt8 := 0x10
def IMR_CNTE : UInt8 := 0x20
def DCR_BYTEWIDE : UInt8 := 0x00
def DCR_WORDWIDE : UInt8 := 0x01
def DCR_LTLENDIAN : UInt8 := 0x00
def DCR_BMS : UInt8 := 0x08
def DCR_8BYTES : UInt8 := 0x40
def TCR_NORMAL : UInt8 := 0x00
def TCR_INTERNAL : UInt8 := 0x02
def RCR_PRO : UInt8 := 0x10
def RCR_MON : UInt8 := 0x20
def RSR_PRX : UInt8 := 0x01

/-- `#define PROM_SIGNATURE 0x57` -/
def PROM_SIGNATURE : UInt8 := 0x57
/-- `#define RESET_TIMEOUT_POLL_LIMIT 10000` -/
def RESET_TIMEOUT_POLL_LIMIT : Nat := 10000
/-- `#define ETH_MIN_SIZE 60`, compared with the `uint` packet size. -/
def ETH_MIN_SIZE : UInt32 := 60
/-- `#define ETH_MAX_SIZE 1514` -/
def ETH_MAX_SIZE : UInt32 := 1514
/-- `#define ETH_IPC_SETUP 1` -/
def ETH_IPC_SETUP : Int32 := 1

/-! ## The driver state -/

/-- `ne_t`: the transmit queue's `NeT`, the base port and the station address. -/
structure Ne extends NeT where
  base : Int32
  address : Fin 6 → UInt8

namespace Ne

/-- The port `ne->base + r`, as the `ushort` that `inb` and `outb` take. -/
def reg (ne : Ne) (r : UInt8) : UInt16 := (ne.base.toUInt32 + r.toUInt32).toUInt16

/-- `memset(&ne, 0, sizeof(ne))` -/
def zero : Ne where
  toNeT := { neBlank with is16bit := false }
  base := 0
  address := fun _ => 0

end Ne

/-! ## `ne.c` -/

/-- `write_sequence(ne, seq, len)`, the `len` entries `{ offset, value }` of `seq` as a
list. -/
def write_sequence (ne : Ne) : List (UInt8 × UInt8) → Drv Unit
  | [] => pure ()
  | (offset, value) :: seq => do
    outb (ne.reg offset) value
    write_sequence ne seq

/-- The register writes that end `ne_rdma_setup` in every mode: start address, byte
count, and the command that starts the remote DMA. -/
def rdmaStart (ne : Ne) (mode : UInt8) (addr : UInt16) (size : Int32) : Drv Unit := do
  outb (ne.reg DP_RSAR0) (addr &&& 0xFF).toUInt8
  outb (ne.reg DP_RSAR1) ((addr >>> 8) &&& 0xFF).toUInt8
  outb (ne.reg DP_RBCR0) (size.toUInt32 &&& 0xFF).toUInt8
  outb (ne.reg DP_RBCR1) ((size >>> 8).toUInt32 &&& 0xFF).toUInt8
  outb (ne.reg DP_CR) (mode ||| CR_PS_P0 ||| CR_STA)

/-- `ne_getblock(ne, addr, size, dst)`: a remote read of `size` bytes from `addr`, taken
from the data port into `dst` with `insw` on an NE2000 and `insb` on an NE1000. -/
def ne_getblock (ne : Ne) (addr : UInt16) (size : Int32) (dst : Nat) : Drv Unit := do
  rdmaStart ne CR_DM_RR addr size
  if ne.is16bit then insw (ne.reg NE_DATA) dst size else insb (ne.reg NE_DATA) dst size

/-- The current remote DMA address as `ne_rdma_setup` reads it:
`crda = inb(CRDA0); crda |= ((inb(CRDA1) << 8) & 0xFF00)`. -/
def readCrda (ne : Ne) : Drv Nat := do
  let lo ← inb (ne.reg DP_CRDA0)
  let hi ← inb (ne.reg DP_CRDA1)
  return lo.toNat ||| ((hi.toNat <<< 8) &&& 0xFF00)

/-- `ne_rdma_setup(ne, mode, addr, size)`, with `dummy` the address of its local
`uchar dummy[4]`: before a remote write it reads four bytes below the buffers and
waits until the remote address has moved. -/
def ne_rdma_setup (ne : Ne) (dummy : Nat) (mode : UInt8) (addr : UInt16) (size : Int32) :
    Drv Unit := do
  if mode = CR_DM_RW then
    let safeloc : UInt16 := (ne.startaddr - 4).toUInt32.toUInt16
    let oldcrda ← readCrda ne
    ne_getblock ne safeloc 4 dummy
    Prog.whileM do return decide (oldcrda = (← readCrda ne))
  rdmaStart ne mode addr size

/-- `ne_getblock` begins with `ne_rdma_setup(ne, CR_DM_RR, addr, size)`. -/
theorem ne_getblock_eq (ne : Ne) (dummy : Nat) (addr : UInt16) (size : Int32) (dst : Nat) :
    ne_getblock ne addr size dst = (do
      ne_rdma_setup ne dummy CR_DM_RR addr size
      if ne.is16bit then insw (ne.reg NE_DATA) dst size else insb (ne.reg NE_DATA) dst size) :=
  rfl

/-- `ne_start_xmit(ne, page, size)` -/
def ne_start_xmit (ne : Ne) (page size : Int32) : Drv Unit := do
  outb (ne.reg DP_TPSR) page.toUInt32.toUInt8
  outb (ne.reg DP_TBCR0) (size.toUInt32 &&& 0xFF).toUInt8
  outb (ne.reg DP_TBCR1) ((size >>> 8).toUInt32 &&& 0xFF).toUInt8
  outb (ne.reg DP_CR) (CR_PS_P0 ||| CR_NO_DMA ||| CR_STA ||| CR_TXP)

/-- `while ((inb(ne->base + DP_ISR) & ISR_RDC) == 0) ;` -/
def rdcWait (ne : Ne) : Drv Unit :=
  Prog.whileM do return decide ((← inb (ne.reg DP_ISR)) &&& ISR_RDC = 0)

/-- `ne_pio_write(ne, packet, size)`, with `dummy` the stack slot of the `ne_rdma_setup`
it calls: the queue test, the remote write of the packet into the head buffer, the
wait for `ISR_RDC`, and the transmit command. `none` is an out-of-bounds `sendq`
index. -/
def ne_pio_write (ne : Ne) (dummy packet : Nat) (size : Int32) : Drv (Option (Ne × Int32)) :=
  match sendqIndex (ne.sendq_head % SENDQ_LEN.toInt32) with
  | none => pure none
  | some q =>
    if (ne.sendq q).filled ≠ 0 ∨ ne.sendq_head > ne.sendq_tail then pure (some (ne, 0))
    else do
      ne_rdma_setup ne dummy CR_DM_RW ((ne.sendq q).sendpage * DP_PAGESIZE).toUInt32.toUInt16 size
      if ne.is16bit then outsw (ne.reg NE_DATA) packet size else outsb (ne.reg NE_DATA) packet size
      rdcWait ne
      let ne : Ne := { ne with sendq := Function.update ne.sendq q { ne.sendq q with filled := TRUE } }
      ne_start_xmit ne (ne.sendq q).sendpage size
      return some ({ ne with sendq_head := ne.sendq_head + 1 }, size)

/-- The copy of `ne_pio_read` for a packet of `pktsize` bytes at `page`: `remain` bytes
up to the end of the ring, then the rest from `recv_startpage`. -/
def ne_recv_copy (ne : Ne) (page : UInt32) (buf : Nat) (pktsize : UInt32) : Drv Unit :=
  let remain : Int32 := ((ne.recv_stoppage.toUInt32 - page) * DP_PAGESIZE.toUInt32).toInt32
  if remain.toUInt32 < pktsize then do
    ne_getblock ne (page * DP_PAGESIZE.toUInt32 + 4).toUInt16 remain buf
    ne_getblock ne (ne.recv_startpage.toUInt32 * DP_PAGESIZE.toUInt32).toUInt16
      (pktsize - remain.toUInt32).toInt32 (buf + remain.toUInt32.toNat)
  else ne_getblock ne (page * DP_PAGESIZE.toUInt32 + 4).toUInt16 pktsize.toInt32 buf

/-- The size `ne_pio_read` computes from the header bytes `rbc0`, `rbc1`:
`(header.rbc0 | (header.rbc1 << 8)) - sizeof(header)`, in `uint`. -/
def pktsizeOf (rbc0 rbc1 : UInt8) : UInt32 := (rbc0.toUInt32 ||| (rbc1.toUInt32 <<< 8)) - 4

/-- The page after the boundary, where the next packet starts: `page = bnry + 1`, with
`recv_startpage` in place of `recv_stoppage`. -/
def nextPage (ne : Ne) (bnry : UInt32) : UInt32 :=
  if bnry + 1 = ne.recv_stoppage.toUInt32 then ne.recv_startpage.toUInt32 else bnry + 1

/-- The boundary `ne_pio_read` writes after a packet whose header gives `next`: the page
before `next`, or the last page of the ring when `next` is its first. -/
def newBnry (ne : Ne) (next : UInt8) : UInt8 :=
  let bnry := next.toUInt32 - 1
  (if bnry < ne.recv_startpage.toUInt32 then ne.recv_stoppage.toUInt32 - 1 else bnry).toUInt8

/-- `ne_pio_read(ne, buf, bufsize)`, with `header` the address of its local
`ne_recv_hdr header`. -/
def ne_pio_read (ne : Ne) (header buf : Nat) (bufsize : Int32) : Drv Int32 := do
  outb (ne.reg DP_CR) CR_PS_P1
  let curr := (← inb (ne.reg DP_CURR)).toUInt32
  outb (ne.reg DP_CR) (CR_PS_P0 ||| CR_NO_DMA ||| CR_STA)
  let page := nextPage ne (← inb (ne.reg DP_BNRY)).toUInt32
  if page = curr then pure 0 else do
  ne_getblock ne (page * DP_PAGESIZE.toUInt32).toUInt16 4 header
  let status ← load header
  let next ← load (header + 1)
  let rbc0 ← load (header + 2)
  let rbc1 ← load (header + 3)
  let pktsize := pktsizeOf rbc0 rbc1
  if pktsize < ETH_MIN_SIZE ∨ pktsize > ETH_MAX_SIZE ∨ status &&& RSR_PRX = 0 then pure (-1) else do
  if buf = 0 ∨ pktsize > bufsize.toUInt32 then pure pktsize.toInt32 else do
  ne_recv_copy ne page buf pktsize
  outb (ne.reg DP_BNRY) (newBnry ne next)
  pure pktsize.toInt32

/-- The registers `ne_init` writes, the `seq` of its body. -/
def initSequence (ne : Ne) : List (UInt8 × UInt8) :=
  [(DP_CR, CR_PS_P0 ||| CR_STP ||| CR_NO_DMA),
   (DP_DCR, (if ne.is16bit then DCR_WORDWIDE else DCR_BYTEWIDE) ||| DCR_LTLENDIAN |||
      DCR_8BYTES ||| DCR_BMS),
   (DP_RCR, RCR_MON), (DP_RBCR0, 0), (DP_RBCR1, 0), (DP_TCR, TCR_INTERNAL),
   (DP_PSTART, ne.recv_startpage.toUInt32.toUInt8),
   (DP_PSTOP, ne.recv_stoppage.toUInt32.toUInt8),
   (DP_BNRY, ne.recv_startpage.toUInt32.toUInt8),
   (DP_ISR, 0xFF),
   (DP_IMR, IMR_PRXE ||| IMR_PTXE ||| IMR_RXEE ||| IMR_TXEE ||| IMR_OVWE ||| IMR_CNTE),
   (DP_CR, CR_PS_P1 ||| CR_NO_DMA),
   (DP_PAR0, ne.address 0), (DP_PAR1, ne.address 1), (DP_PAR2, ne.address 2),
   (DP_PAR3, ne.address 3), (DP_PAR4, ne.address 4), (DP_PAR5, ne.address 5),
   (DP_MAR0, 0xFF), (DP_MAR1, 0xFF), (DP_MAR2, 0xFF), (DP_MAR3, 0xFF),
   (DP_MAR4, 0xFF), (DP_MAR5, 0xFF), (DP_MAR6, 0xFF), (DP_MAR7, 0xFF),
   (DP_CURR, (ne.recv_startpage + 1).toUInt32.toUInt8),
   (DP_CR, CR_STA ||| CR_NO_DMA), (DP_TCR, TCR_NORMAL), (DP_RCR, RCR_PRO)]

/-- `ne_init(ne)`: the buffer layout and queue of `NeT`'s `ne_init`, then the register
writes that set the card up. -/
def ne_init (ne : Ne) : Drv Ne := do
  let ne : Ne := { ne with toNeT := Xv6.ne_init ne.toNeT }
  write_sequence ne (initSequence ne)
  pure ne

/-- The state `ne_init` gives an NE1000 found at port `0x300`: send buffers at pages 32
and 38, the receive ring on pages 44 to 63. -/
def ne1000 : Ne := { Ne.zero with toNeT := Xv6.ne_init Ne.zero.toNeT, base := 0x300 }

/-- The registers `ne_probe` writes before it reads the PROM. -/
def probeSequence : List (UInt8 × UInt8) :=
  [(DP_CR, CR_NO_DMA ||| CR_PS_P0 ||| CR_STP), (DP_DCR, DCR_BMS ||| DCR_8BYTES),
   (DP_RBCR0, 0x00), (DP_RBCR1, 0x00), (DP_RCR, RCR_MON), (DP_TCR, TCR_INTERNAL),
   (DP_ISR, 0xFF), (DP_IMR, 0x00), (DP_RBCR0, 32), (DP_RBCR1, 0),
   (DP_RSAR0, 0x00), (DP_RSAR1, 0x00), (DP_CR, CR_PS_P0 ||| CR_DM_RR ||| CR_STA)]

/-- The PROM loop of `ne_probe`: `n` more pairs of data-port reads after `eprom`, with
`is16bit` cleared at a pair whose bytes differ. -/
def promLoop (ne : Ne) : Nat → List UInt8 → Bool → Drv (List UInt8 × Bool)
  | 0, eprom, is16bit => pure (eprom, is16bit)
  | n + 1, eprom, is16bit => do
    let a ← inb (ne.reg NE_DATA)
    let b ← inb (ne.reg NE_DATA)
    promLoop ne n (eprom ++ [a, b]) (is16bit && a == b)

/-- `eprom[i] = eprom[i*2]` for `i < 16`: an NE2000 gives each PROM byte twice. -/
def promUndouble (eprom : List UInt8) : List UInt8 :=
  (List.range 32).map fun i => if i < 16 then eprom.getD (2 * i) 0 else eprom.getD i 0

/-- The reset wait of `ne_probe`,
`while (inb(ISR) == 0) if (j++ > RESET_TIMEOUT_POLL_LIMIT) fail`: `true` once the ISR
reads non-zero, `false` on the timeout. -/
def resetWait (ne : Ne) : Drv Bool :=
  Prog.loop (0 : Nat) (fun j => do
    let isr ← inb (ne.reg DP_ISR)
    if isr = 0 then pure (if j > RESET_TIMEOUT_POLL_LIMIT then .inr false else .inl (j + 1))
    else pure (.inr true)) pure

/-- `ne_probe(ne)`: `TRUE` or `FALSE`, with `ne` as the probe leaves it (`is16bit` is set
before the signature test). -/
def ne_probe (ne : Ne) : Drv (Int32 × Ne) := do
  let reg0 ← inb (ne.reg 0)
  if reg0 = 0xFF then pure (FALSE, ne) else do
  outb (ne.reg DP_CR) (CR_STP ||| CR_NO_DMA ||| CR_PS_P1)
  let regd ← inb (ne.reg DP_MAR5)
  outb (ne.reg DP_MAR5) 0xFF
  outb (ne.reg DP_CR) (CR_NO_DMA ||| CR_PS_P0)
  let _ ← inb (ne.reg DP_CNTR0)
  if (← inb (ne.reg DP_CNTR0)) ≠ 0 then do
    outb (ne.reg 0) reg0
    outb (ne.reg DP_TCR) regd
    pure (FALSE, ne)
  else do
  outb (ne.reg NE_RESET) (← inb (ne.reg NE_RESET))
  if !(← resetWait ne) then pure (FALSE, ne) else do
  outb (ne.reg DP_ISR) 0xFF
  write_sequence ne probeSequence
  let (eprom, is16bit) ← promLoop ne 16 [] true
  let ne : Ne := { ne with is16bit }
  let eprom := if is16bit then promUndouble eprom else eprom
  if eprom.getD 14 0 ≠ PROM_SIGNATURE ∨ eprom.getD 15 0 ≠ PROM_SIGNATURE then pure (FALSE, ne)
  else pure (TRUE, { ne with address := fun i => eprom.getD i 0 })

/-! ## `eth.c` -/

/-- `int ports[]` of `ethinit`. -/
def ethPorts : List Int32 := [0x300, 0xC100, 0x240, 0x280, 0x320, 0x340, 0x360]

/-- The probe loop of `ethinit` over the ports left: every try starts from a zeroed `ne`
at the port, and the first card found is initialised and ends the loop. -/
def ethinitLoop : List Int32 → Ne → Drv Ne
  | [], ne => pure ne
  | port :: ports, _ => do
    let (found, ne) ← ne_probe { Ne.zero with base := port }
    if found ≠ FALSE then ne_init ne else ethinitLoop ports ne

/-- `ethinit()` on the static `ne`. -/
def ethinit (ne : Ne) : Drv Ne := ethinitLoop ethPorts ne

/-- `ethread(ip, p, n)`, with `header` the stack slot of the `ne_pio_read` it calls. -/
def ethread (ne : Ne) (header p : Nat) (n : Int32) : Drv Int32 := ne_pio_read ne header p n

/-- `ethwrite(ip, p, n)`, with `dummy` the stack slot of the `ne_rdma_setup` below it. -/
def ethwrite (ne : Ne) (dummy p : Nat) (n : Int32) : Drv (Option (Ne × Int32)) :=
  ne_pio_write ne dummy p n

/-- `ethioctl(ip, request, p)` -/
def ethioctl (ne : Ne) (request : Int32) : Int32 :=
  if request = ETH_IPC_SETUP then
    if ne.base = 0 then -1
    else if ne.pages = 0 ∨ ne.recv_startpage = 0 then -1
    else 0
  else -1

/-! ## Kernel memory a run writes -/

/-- The kernel-memory addresses a run stored to, in order. -/
def memWrites (t : List (Access Loc UInt8)) : List Nat :=
  t.filterMap fun | .write (.mem a) _ => some a | _ => none

/-- The kernel-memory addresses a run loaded from, in order. -/
def memReads (t : List (Access Loc UInt8)) : List Nat :=
  t.filterMap fun | .read (.mem a) _ => some a | _ => none

section Traces

variable {S : Type} (bus : Bus Loc UInt8 S)

theorem insbN_run (port : UInt16) (n : Nat) : ∀ (dst : Nat) (s : S),
    ∃ s' t, Runs bus s (insbN port dst n) () s' t ∧ memWrites t = List.range' dst n := by
  induction n with
  | zero => exact fun dst s => ⟨s, [], .pure, rfl⟩
  | succ n ih =>
    intro dst s
    let v := (bus.read s (.port port)).1
    obtain ⟨s', t, h, hw⟩ := ih (dst + 1) (bus.write (bus.read s (.port port)).2 (.mem dst) v)
    refine ⟨s', _, .read (.write h), ?_⟩
    simp only [memWrites, List.filterMap_cons] at hw ⊢
    rw [hw, List.range'_succ]

theorem inswN_run (port : UInt16) (n : Nat) : ∀ (dst : Nat) (s : S),
    ∃ s' t, Runs bus s (inswN port dst n) () s' t ∧ memWrites t = List.range' dst (2 * n) := by
  induction n with
  | zero => exact fun dst s => ⟨s, [], .pure, rfl⟩
  | succ n ih =>
    intro dst s
    let r₁ := bus.read s (.port port)
    let r₂ := bus.read r₁.2 (.port port)
    obtain ⟨s', t, h, hw⟩ :=
      ih (dst + 2) (bus.write (bus.write r₂.2 (.mem dst) r₁.1) (.mem (dst + 1)) r₂.1)
    refine ⟨s', _, .read (.read (.write (.write h))), ?_⟩
    simp only [memWrites, List.filterMap_cons] at hw ⊢
    rw [hw, show 2 * (n + 1) = 2 * n + 1 + 1 by omega, List.range'_succ, List.range'_succ]

theorem outsbN_run (port : UInt16) (n : Nat) : ∀ (src : Nat) (s : S),
    ∃ s' t, Runs bus s (outsbN port src n) () s' t ∧ memReads t = List.range' src n := by
  induction n with
  | zero => exact fun src s => ⟨s, [], .pure, rfl⟩
  | succ n ih =>
    intro src s
    let r := bus.read s (.mem src)
    obtain ⟨s', t, h, hr⟩ := ih (src + 1) (bus.write r.2 (.port port) r.1)
    refine ⟨s', _, .read (.write h), ?_⟩
    simp only [memReads, List.filterMap_cons] at hr ⊢
    rw [hr, List.range'_succ]

theorem outswN_run (port : UInt16) (n : Nat) : ∀ (src : Nat) (s : S),
    ∃ s' t, Runs bus s (outswN port src n) () s' t ∧ memReads t = List.range' src (2 * n) := by
  induction n with
  | zero => exact fun src s => ⟨s, [], .pure, rfl⟩
  | succ n ih =>
    intro src s
    let r₁ := bus.read s (.mem src)
    let r₂ := bus.read r₁.2 (.mem (src + 1))
    obtain ⟨s', t, h, hr⟩ :=
      ih (src + 2) (bus.write (bus.write r₂.2 (.port port) r₁.1) (.port port) r₂.1)
    refine ⟨s', _, .read (.read (.write (.write h))), ?_⟩
    simp only [memReads, List.filterMap_cons] at hr ⊢
    rw [hr, show 2 * (n + 1) = 2 * n + 1 + 1 by omega, List.range'_succ, List.range'_succ]

theorem rdmaStart_run (ne : Ne) (mode : UInt8) (addr : UInt16) (size : Int32) (s : S) :
    ∃ s' t, Runs bus s (rdmaStart ne mode addr size) () s' t ∧ memWrites t = [] :=
  ⟨_, _, .write (.write (.write (.write (.write .pure)))), rfl⟩

/-- The bytes `ne_getblock` moves from the data port: `size` on an NE1000, and on an
NE2000, whose `insw` counts words, twice as many. -/
def getblockLen (ne : Ne) (size : Int32) : Nat :=
  if ne.is16bit then 2 * size.toUInt32.toNat else size.toUInt32.toNat

/-- `ne_getblock` writes kernel memory from `dst` on, `getblockLen` bytes of it. -/
theorem ne_getblock_run (ne : Ne) (addr : UInt16) (size : Int32) (dst : Nat) (s : S) :
    ∃ s' t, Runs bus s (ne_getblock ne addr size dst) () s' t ∧
      memWrites t = List.range' dst (getblockLen ne size) := by
  obtain ⟨s₁, t₁, h₁, hw₁⟩ := rdmaStart_run bus ne CR_DM_RR addr size s
  by_cases h16 : ne.is16bit
  · obtain ⟨s₂, t₂, h₂, hw₂⟩ := inswN_run bus (ne.reg NE_DATA) size.toUInt32.toNat dst s₁
    refine ⟨s₂, t₁ ++ t₂, h₁.bind (by rw [if_pos h16]; exact h₂), ?_⟩
    rw [memWrites, List.filterMap_append, ← memWrites, ← memWrites, hw₁, hw₂, getblockLen,
      if_pos h16]
    rfl
  · obtain ⟨s₂, t₂, h₂, hw₂⟩ := insbN_run bus (ne.reg NE_DATA) size.toUInt32.toNat dst s₁
    refine ⟨s₂, t₁ ++ t₂, h₁.bind (by rw [if_neg h16]; exact h₂), ?_⟩
    rw [memWrites, List.filterMap_append, ← memWrites, ← memWrites, hw₁, hw₂, getblockLen,
      if_neg h16]
    rfl

/-- On an NE2000, `ne_pio_read`'s read of its 4-byte `header` writes eight bytes of
kernel memory from `&header`: `insw` moves four words, one for each byte asked for. -/
theorem ne_getblock_header_overrun (ne : Ne) (s : S) (addr : UInt16) (header : Nat) :
    (∃ s' t, Runs bus s (ne_getblock { ne with is16bit := true } addr 4 header) () s' t) ∧
      ∀ s' t, Runs bus s (ne_getblock { ne with is16bit := true } addr 4 header) () s' t →
        memWrites t = List.range' header 8 := by
  obtain ⟨s', t, h, hw⟩ := ne_getblock_run bus { ne with is16bit := true } addr 4 header s
  refine ⟨⟨s', t, h⟩, fun s'' t' h' => ?_⟩
  obtain ⟨-, -, rfl⟩ := Runs.det h' h
  exact hw

end Traces

end Xv6.Eth
