import Xv6.Eth.Driver
import Xv6.Lib.Bytes
import Xv6.Lib.Word32

/-!
# The DP8390 board on the ISA bus

What the driver's ports reach. `Card` holds the part of a DP8390 and its NE2000 board
that the driver's code sees: the command register with its page select, the boundary
and current-page registers of the receive ring, the interrupt status register, whose
bits stay set until the driver writes them with a one, the remote DMA, the transmit
page and count, the other registers as last written, and the board's memory, which the
remote DMA addresses with sixteen bits.

The remote DMA reads memory in order from its address: each read of the data port
gives the next byte. It writes through a FIFO: a byte written to the data port waits
there until the card stores it. Each byte read or stored counts the byte count down,
and the count reaching zero sets `ISR_RDC`; reads past the count go on reading memory,
and bytes written past it are dropped. The address is kept as a running count and
taken modulo `2^16` where it is used. The driver reads the data port only after a
remote-read command and writes it only after a remote-write command, so the model does
not look at the command's DMA bits.

Storing is asynchronous. `Machine` is the bus: the card at its base port, or an empty
slot, where a read gives `0xFF` and a write is lost; kernel memory; and `sched`, how
many of the waiting bytes the card stores before each access of the driver. Once the
schedule has run out the card stores all of them. A machine whose FIFO is empty is
quiet: the schedule plays no part in what it does.
-/

namespace Xv6.Eth

open Port

/-- `#define ISR_RST 0x80` -/
def ISR_RST : UInt8 := 0x80

/-- The registers and memory of a DP8390 board that the driver reaches. `crda` and
`rbcr` are the remote DMA's address and count, `fifo` the bytes written to the data
port that it has not stored, and `regs` every other register as last written, at
`16 * page + offset`. -/
structure Card where
  ram : Nat → UInt8
  cr : UInt8
  isr : UInt8
  bnry : UInt8
  curr : UInt8
  crda : Nat
  rbcr : Nat
  fifo : List UInt8
  tpsr : UInt8
  tbcr : Nat
  regs : Nat → UInt8

namespace Card

/-- The register page the command register selects. -/
def page (c : Card) : Nat := (c.cr >>> 6).toNat

/-- One byte of remote DMA: the address moves on and the count goes down; the count
reaching zero sets `ISR_RDC`. -/
def countDown (c : Card) : Card :=
  { c with
    crda := c.crda + 1
    rbcr := c.rbcr - 1
    isr := if c.rbcr = 1 then c.isr ||| ISR_RDC else c.isr }

/-- The remote DMA stores the oldest byte of the FIFO, or drops it once the count is
zero. -/
def storeOne (c : Card) : Card :=
  match c.fifo with
  | [] => c
  | b :: rest =>
    if c.rbcr = 0 then { c with fifo := rest }
    else countDown { c with ram := Function.update c.ram (c.crda % 0x10000) b, fifo := rest }

/-- The remote DMA stores `n` bytes of the FIFO. -/
def storeN : Nat → Card → Card
  | 0, c => c
  | n + 1, c => storeN n c.storeOne

/-- A read of the port `off` from the base. Page 0 gives the boundary, the ISR and the
current remote address, and its other registers read as 0 (the tally counters count
nothing here); page 1 gives the current page. -/
def read (c : Card) (off : Nat) : UInt8 × Card :=
  if off = 0 then (c.cr, c)
  else if off < 0x10 then
    if c.page = 0 then
      if off = 0x03 then (c.bnry, c)
      else if off = 0x07 then (c.isr, c)
      else if off = 0x08 then ((c.crda % 0x10000 % 256).toUInt8, c)
      else if off = 0x09 then ((c.crda % 0x10000 / 256).toUInt8, c)
      else (0, c)
    else if c.page = 1 ∧ off = 0x07 then (c.curr, c)
    else (c.regs (16 * c.page + off), c)
  else if off < 0x18 then (c.ram (c.crda % 0x10000), c.countDown)
  else (0, c)

/-- A write of `v` to the port `off` from the base. Ones written to the ISR clear those
bits, a byte written to the data port joins the FIFO, and a write to the reset port
resets the board, which it reports in the ISR. -/
def write (c : Card) (off : Nat) (v : UInt8) : Card :=
  if off = 0 then { c with cr := v }
  else if off < 0x10 then
    if c.page = 0 then
      if off = 0x03 then { c with bnry := v }
      else if off = 0x04 then { c with tpsr := v }
      else if off = 0x05 then { c with tbcr := c.tbcr / 256 * 256 + v.toNat }
      else if off = 0x06 then { c with tbcr := v.toNat * 256 + c.tbcr % 256 }
      else if off = 0x07 then { c with isr := c.isr &&& ~~~v }
      else if off = 0x08 then { c with crda := c.crda % 0x10000 / 256 * 256 + v.toNat }
      else if off = 0x09 then { c with crda := v.toNat * 256 + c.crda % 256 }
      else if off = 0x0A then { c with rbcr := c.rbcr / 256 * 256 + v.toNat }
      else if off = 0x0B then { c with rbcr := v.toNat * 256 + c.rbcr % 256 }
      else { c with regs := Function.update c.regs off v }
    else if c.page = 1 ∧ off = 0x07 then { c with curr := v }
    else { c with regs := Function.update c.regs (16 * c.page + off) v }
  else if off < 0x18 then { c with fifo := c.fifo ++ [v] }
  else { c with isr := c.isr ||| ISR_RST }

/-- The `n` bytes of memory from the remote address on. -/
def ramBytes (c : Card) (n : Nat) : List UInt8 :=
  (List.range n).map fun i => c.ram ((c.crda + i) % 0x10000)

/-- `n` reads of the data port. -/
def readN : Nat → Card → Card
  | 0, c => c
  | n + 1, c => readN n c.countDown

/-- The card after `rdmaStart`: address, count, and the command. -/
def rdmaSet (c : Card) (mode : UInt8) (addr : UInt16) (size : Int32) : Card :=
  { c with
    crda := addr.toNat
    rbcr := size.toUInt32.toNat % 0x10000
    cr := mode ||| CR_PS_P0 ||| CR_STA }

/-- The `n` bytes of the board's memory from `addr` on, as a remote read gives them. -/
def block (c : Card) (addr : UInt16) (n : Nat) : List UInt8 :=
  (List.range n).map fun i => c.ram ((addr.toNat + i) % 0x10000)

theorem ramBytes_rdmaSet (c : Card) (mode : UInt8) (addr : UInt16) (size : Int32) (n : Nat) :
    (c.rdmaSet mode addr size).ramBytes n = c.block addr n := rfl

@[simp] theorem length_block (c : Card) (addr : UInt16) (n : Nat) :
    (c.block addr n).length = n := by
  simp [block]

@[simp] theorem getElem_block (c : Card) (addr : UInt16) (n i : Nat)
    (h : i < (c.block addr n).length) :
    (c.block addr n)[i] = c.ram ((addr.toNat + i) % 0x10000) := by
  simp [block]

@[simp] theorem countDown_ram (c : Card) : c.countDown.ram = c.ram := rfl
@[simp] theorem countDown_fifo (c : Card) : c.countDown.fifo = c.fifo := rfl
@[simp] theorem countDown_cr (c : Card) : c.countDown.cr = c.cr := rfl
@[simp] theorem countDown_bnry (c : Card) : c.countDown.bnry = c.bnry := rfl
@[simp] theorem countDown_curr (c : Card) : c.countDown.curr = c.curr := rfl
@[simp] theorem countDown_crda (c : Card) : c.countDown.crda = c.crda + 1 := rfl
@[simp] theorem countDown_rbcr (c : Card) : c.countDown.rbcr = c.rbcr - 1 := rfl

@[simp] theorem readN_ram (n : Nat) (c : Card) : (c.readN n).ram = c.ram := by
  induction n generalizing c with
  | zero => rfl
  | succ n ih => exact ih c.countDown

@[simp] theorem readN_fifo (n : Nat) (c : Card) : (c.readN n).fifo = c.fifo := by
  induction n generalizing c with
  | zero => rfl
  | succ n ih => exact ih c.countDown

@[simp] theorem readN_cr (n : Nat) (c : Card) : (c.readN n).cr = c.cr := by
  induction n generalizing c with
  | zero => rfl
  | succ n ih => exact ih c.countDown

@[simp] theorem readN_bnry (n : Nat) (c : Card) : (c.readN n).bnry = c.bnry := by
  induction n generalizing c with
  | zero => rfl
  | succ n ih => exact ih c.countDown

@[simp] theorem readN_curr (n : Nat) (c : Card) : (c.readN n).curr = c.curr := by
  induction n generalizing c with
  | zero => rfl
  | succ n ih => exact ih c.countDown

theorem readN_crda (n : Nat) (c : Card) : (c.readN n).crda = c.crda + n := by
  induction n generalizing c with
  | zero => rfl
  | succ n ih =>
    rw [readN, ih, countDown_crda]
    omega

theorem readN_add (n k : Nat) (c : Card) : c.readN (n + k) = (c.readN n).readN k := by
  induction n generalizing c with
  | zero => rw [Nat.zero_add]; rfl
  | succ n ih => rw [Nat.succ_add]; exact ih c.countDown

@[simp] theorem ramBytes_zero (c : Card) : c.ramBytes 0 = [] := rfl

theorem ramBytes_succ (c : Card) (n : Nat) :
    c.ramBytes (n + 1) = c.ram (c.crda % 0x10000) :: c.countDown.ramBytes n := by
  simp only [ramBytes, List.range_succ_eq_map, List.map_cons, List.map_map, Nat.add_zero]
  congr 1
  refine List.map_congr_left fun i _ => ?_
  simp only [Function.comp, countDown_ram, countDown_crda]
  congr 2
  omega

/-! ### The registers the driver uses -/

section Registers

variable (c : Card) (v : UInt8)

theorem read_data : c.read NE_DATA.toNat = (c.ram (c.crda % 0x10000), c.countDown) := rfl
theorem write_cr : c.write DP_CR.toNat v = { c with cr := v } := rfl
theorem write_data : c.write NE_DATA.toNat v = { c with fifo := c.fifo ++ [v] } := rfl

variable {c} (hp : c.page = 0)
include hp

theorem read_bnry : c.read DP_BNRY.toNat = (c.bnry, c) := by simp [read, hp, DP_BNRY]
theorem read_isr : c.read DP_ISR.toNat = (c.isr, c) := by simp [read, hp, DP_ISR]
theorem read_crda0 : c.read DP_CRDA0.toNat = ((c.crda % 0x10000 % 256).toUInt8, c) := by
  simp [read, hp, DP_CRDA0]
theorem read_crda1 : c.read DP_CRDA1.toNat = ((c.crda % 0x10000 / 256).toUInt8, c) := by
  simp [read, hp, DP_CRDA1]
theorem write_bnry : c.write DP_BNRY.toNat v = { c with bnry := v } := by
  simp [write, hp, DP_BNRY]
theorem write_tpsr : c.write DP_TPSR.toNat v = { c with tpsr := v } := by
  simp [write, hp, DP_TPSR]
theorem write_tbcr0 :
    c.write DP_TBCR0.toNat v = { c with tbcr := c.tbcr / 256 * 256 + v.toNat } := by
  simp [write, hp, DP_TBCR0]
theorem write_tbcr1 :
    c.write DP_TBCR1.toNat v = { c with tbcr := v.toNat * 256 + c.tbcr % 256 } := by
  simp [write, hp, DP_TBCR1]
theorem write_isr : c.write DP_ISR.toNat v = { c with isr := c.isr &&& ~~~v } := by
  simp [write, hp, DP_ISR]

end Registers

theorem read_curr {c : Card} (hp : c.page = 1) : c.read DP_CURR.toNat = (c.curr, c) := by
  simp [read, hp, DP_CURR]

/-- The registers below the data port leave the FIFO alone. -/
theorem fifo_write_reg {c : Card} {off : Nat} {v : UInt8} (h : off < 0x10) :
    (c.write off v).fifo = c.fifo := by
  unfold write
  simp only [apply_ite Card.fifo]
  repeat' split
  all_goals rfl

/-- The card after the register writes `ws`, in order. -/
def writeRegs (c : Card) (ws : List (UInt8 × UInt8)) : Card :=
  ws.foldl (fun c w => c.write w.1.toNat w.2) c

/-- The five writes of `rdmaStart`, on page 0, leave the card `rdmaSet`. -/
theorem write_rdmaStart {c : Card} (hp : c.page = 0) (mode : UInt8) (addr : UInt16)
    (size : Int32) :
    ((((c.write DP_RSAR0.toNat (addr &&& 0xFF).toUInt8).write DP_RSAR1.toNat
      ((addr >>> 8) &&& 0xFF).toUInt8).write DP_RBCR0.toNat (size.toUInt32 &&& 0xFF).toUInt8).write
      DP_RBCR1.toNat ((size >>> 8).toUInt32 &&& 0xFF).toUInt8).write DP_CR.toNat
      (mode ||| CR_PS_P0 ||| CR_STA) = c.rdmaSet mode addr size := by
  -- the first four writes leave the command register, and so page 0, as it was
  have hp' : (c.cr >>> 6).toNat = 0 := hp
  have haddr := addr.toNat_lt
  simp only [write, page, hp', DP_RSAR0, DP_RSAR1, DP_RBCR0, DP_RBCR1, DP_CR, UInt8.reduceToNat,
    ↓reduceIte, Nat.reduceEqDiff, Nat.reduceLT, rdmaSet, Word32.toNat_lowByte16,
    Word32.toNat_lowByte32, Word32.toNat_sshiftRight8, UInt16.toNat_shiftRight,
    Nat.shiftRight_eq_div_pow, UInt16.reduceToNat, Nat.reduceMod, Nat.reducePow]
  congr 1 <;> omega

theorem page_rdmaSet (c : Card) (mode : UInt8) (addr : UInt16) (size : Int32) :
    (c.rdmaSet mode addr size).page = ((mode ||| CR_PS_P0 ||| CR_STA) >>> 6).toNat := rfl

end Card

/-- The bus the driver runs on: the card at its base port, or `none` for an empty slot;
kernel memory; and the schedule of the card's remote-DMA stores. -/
structure Machine where
  base : Option Nat
  card : Card
  mem : Nat → UInt8
  sched : List Nat

namespace Machine

/-- Before an access: with bytes waiting, the card stores as many as the schedule says,
and all of them once it has run out. -/
def tick (m : Machine) : Machine :=
  if m.card.fifo = [] then m
  else match m.sched with
    | [] => { m with card := m.card.storeN m.card.fifo.length }
    | k :: rest => { m with card := m.card.storeN k, sched := rest }

/-- The card's offset of port `p`, when the card answers it. -/
def offset (m : Machine) (p : UInt16) : Option Nat :=
  match m.base with
  | some b => if b ≤ p.toNat ∧ p.toNat < b + 0x20 then some (p.toNat - b) else none
  | none => none

/-- A read of the driver. -/
def read (m : Machine) (l : Loc) : UInt8 × Machine :=
  let m := m.tick
  match l with
  | .mem a => (m.mem a, m)
  | .port p =>
    match m.offset p with
    | some off => ((m.card.read off).1, { m with card := (m.card.read off).2 })
    | none => (0xFF, m)

/-- A write of the driver. -/
def write (m : Machine) (l : Loc) (v : UInt8) : Machine :=
  let m := m.tick
  match l with
  | .mem a => { m with mem := Function.update m.mem a v }
  | .port p =>
    match m.offset p with
    | some off => { m with card := m.card.write off v }
    | none => m

theorem tick_of_quiet {m : Machine} (hq : m.card.fifo = []) : m.tick = m := by
  simp [tick, hq]

end Machine

/-- The NE2000 on the ISA bus. -/
def machine : Bus Loc UInt8 Machine := ⟨Machine.read, Machine.write⟩

/-- The card answers at `ne->base`, and its 32 ports lie below `0x10000`. -/
def Attached (m : Machine) (ne : Ne) : Prop :=
  m.base = some ne.base.toUInt32.toNat ∧ ne.base.toUInt32.toNat + 0x20 ≤ 0x10000

theorem offset_reg {m : Machine} {ne : Ne} (ha : Attached m ne) {r : UInt8}
    (hr : r.toNat < 0x20) : m.offset (ne.reg r) = some r.toNat := by
  obtain ⟨hb, hfit⟩ := ha
  have hreg : (ne.reg r).toNat = ne.base.toUInt32.toNat + r.toNat := by
    simp only [Ne.reg, UInt32.toNat_toUInt16, UInt32.toNat_add, UInt8.toNat_toUInt32]
    omega
  simp only [Machine.offset, hb, hreg]
  rw [if_pos (by omega)]
  congr 1
  omega

section Quiet

/-! ## A quiet card

With its FIFO empty the card takes no notice of the schedule and answers every access
at once. The lemmas take the machine as `{ m with card := c, mem := μ }`: the slot and
the schedule of `m` stay, while the card and the memory move on. -/

variable {m : Machine} {ne : Ne} {c : Card} {μ : Nat → UInt8}

theorem read_reg (ha : Attached m ne) (hq : c.fifo = []) {r : UInt8} (hr : r.toNat < 0x20)
    {v : UInt8} {c' : Card} (hc : c.read r.toNat = (v, c')) :
    machine.read { m with card := c, mem := μ } (.port (ne.reg r)) =
      (v, { m with card := c', mem := μ }) := by
  have ha' : Attached { m with card := c, mem := μ } ne := ha
  have hq' : ({ m with card := c, mem := μ } : Machine).card.fifo = [] := hq
  simp only [machine, Machine.read, Machine.tick_of_quiet hq', offset_reg ha' hr, hc]

theorem write_reg (ha : Attached m ne) (hq : c.fifo = []) {r : UInt8} (hr : r.toNat < 0x20)
    (v : UInt8) :
    machine.write { m with card := c, mem := μ } (.port (ne.reg r)) v =
      { m with card := c.write r.toNat v, mem := μ } := by
  have ha' : Attached { m with card := c, mem := μ } ne := ha
  have hq' : ({ m with card := c, mem := μ } : Machine).card.fifo = [] := hq
  simp only [machine, Machine.write, Machine.tick_of_quiet hq', offset_reg ha' hr]

theorem read_mem (hq : c.fifo = []) (a : Nat) :
    machine.read { m with card := c, mem := μ } (.mem a) =
      (μ a, { m with card := c, mem := μ }) := by
  have hq' : ({ m with card := c, mem := μ } : Machine).card.fifo = [] := hq
  simp only [machine, Machine.read, Machine.tick_of_quiet hq']

theorem write_mem (hq : c.fifo = []) (a : Nat) (v : UInt8) :
    machine.write { m with card := c, mem := μ } (.mem a) v =
      { m with card := c, mem := Function.update μ a v } := by
  have hq' : ({ m with card := c, mem := μ } : Machine).card.fifo = [] := hq
  simp only [machine, Machine.write, Machine.tick_of_quiet hq']

/-! ## The remote read -/

/-- A read of the data port gives the byte at the remote address. -/
theorem read_data_port (ha : Attached m ne) (hq : c.fifo = []) :
    machine.read { m with card := c, mem := μ } (.port (ne.reg NE_DATA)) =
      (c.ram (c.crda % 0x10000), { m with card := c.countDown, mem := μ }) :=
  read_reg ha hq (by decide) (Card.read_data c)

/-- `rep insb` from the data port of a quiet card: the bytes from the remote address
land in order from `dst` on. -/
theorem insbN_card (ha : Attached m ne) (n : Nat) :
    ∀ (dst : Nat) (c : Card) (μ : Nat → UInt8), c.fifo = [] →
      Ends machine { m with card := c, mem := μ } (insbN (ne.reg NE_DATA) dst n) ()
        { m with card := c.readN n, mem := Bytes.writeBytes μ dst (c.ramBytes n) } := by
  induction n with
  | zero =>
    intro dst c μ _
    rw [Card.ramBytes_zero, Bytes.writeBytes_nil]
    exact .pure
  | succ n ih =>
    intro dst c μ hq
    have h := ih (dst + 1) c.countDown (Function.update μ dst (c.ram (c.crda % 0x10000))) hq
    rw [Card.ramBytes_succ, Bytes.writeBytes_cons]
    have hq₁ : c.countDown.fifo = [] := hq
    exact Ends.read_of (read_data_port ha hq) (Ends.write_of (write_mem hq₁ dst _) h)

/-- `rep insw` from the data port of a quiet card: `2 * n` bytes from the remote
address. -/
theorem inswN_card (ha : Attached m ne) (n : Nat) :
    ∀ (dst : Nat) (c : Card) (μ : Nat → UInt8), c.fifo = [] →
      Ends machine { m with card := c, mem := μ } (inswN (ne.reg NE_DATA) dst n) ()
        { m with
          card := c.readN (2 * n)
          mem := Bytes.writeBytes μ dst (c.ramBytes (2 * n)) } := by
  induction n with
  | zero =>
    intro dst c μ _
    rw [Nat.mul_zero, Card.ramBytes_zero, Bytes.writeBytes_nil]
    exact .pure
  | succ n ih =>
    intro dst c μ hq
    let lo := c.ram (c.crda % 0x10000)
    let hi := c.countDown.ram (c.countDown.crda % 0x10000)
    have h := ih (dst + 2) c.countDown.countDown
      (Function.update (Function.update μ dst lo) (dst + 1) hi) hq
    rw [show 2 * (n + 1) = 2 * n + 1 + 1 by omega, Card.ramBytes_succ, Card.ramBytes_succ,
      Bytes.writeBytes_cons, Bytes.writeBytes_cons]
    have hq₁ : c.countDown.fifo = [] := hq
    have hq₂ : c.countDown.countDown.fifo = [] := hq
    exact Ends.read_of (read_data_port ha hq) (Ends.read_of (read_data_port ha hq₁)
      (Ends.write_of (write_mem hq₂ dst lo) (Ends.write_of (write_mem hq₂ (dst + 1) hi) h)))

/-- A run of `outb`s to the registers `ws`, as `rdmaStart` and `ne_start_xmit` make them. -/
def outbRegs (ne : Ne) : List (UInt8 × UInt8) → Drv Unit
  | [] => pure ()
  | (r, v) :: ws => .write (.port (ne.reg r)) v (outbRegs ne ws)

/-- Writes below the data port keep the FIFO empty, so each is answered by the card at
once. -/
theorem outbRegs_card (ha : Attached m ne) :
    ∀ (ws : List (UInt8 × UInt8)) (c : Card), c.fifo = [] → (∀ r ∈ ws.map Prod.fst, r.toNat < 0x10) →
      Ends machine { m with card := c, mem := μ } (outbRegs ne ws) ()
        { m with card := c.writeRegs ws, mem := μ }
  | [], _, _, _ => .pure
  | (r, v) :: ws, c, hq, hr => by
    have hr₁ : r.toNat < 0x10 := hr r List.mem_cons_self
    have hq₁ : (c.write r.toNat v).fifo = [] := (Card.fifo_write_reg hr₁).trans hq
    exact Ends.write_of (write_reg ha hq (by omega) v)
      (outbRegs_card ha ws _ hq₁ fun w hw => hr w (List.mem_cons_of_mem _ hw))

/-- The register writes of `rdmaStart` on page 0. -/
theorem rdmaStart_card (ha : Attached m ne) (hq : c.fifo = []) (hp : c.page = 0)
    (mode : UInt8) (addr : UInt16) (size : Int32) :
    Ends machine { m with card := c, mem := μ } (rdmaStart ne mode addr size) ()
      { m with card := c.rdmaSet mode addr size, mem := μ } := by
  rw [← Card.write_rdmaStart hp]
  exact outbRegs_card ha [(DP_RSAR0, (addr &&& 0xFF).toUInt8),
    (DP_RSAR1, ((addr >>> 8) &&& 0xFF).toUInt8), (DP_RBCR0, (size.toUInt32 &&& 0xFF).toUInt8),
    (DP_RBCR1, ((size >>> 8).toUInt32 &&& 0xFF).toUInt8), (DP_CR, mode ||| CR_PS_P0 ||| CR_STA)]
    c hq (by simp [DP_RSAR0, DP_RSAR1, DP_RBCR0, DP_RBCR1, DP_CR])

/-- `ne_getblock` on a quiet card at page 0: `getblockLen` bytes of the board's memory
from `addr` land in order from `dst` on. -/
theorem ne_getblock_card (ha : Attached m ne) (hq : c.fifo = []) (hp : c.page = 0)
    (addr : UInt16) (size : Int32) (dst : Nat) :
    Ends machine { m with card := c, mem := μ } (ne_getblock ne addr size dst) ()
      { m with
        card := (c.rdmaSet CR_DM_RR addr size).readN (getblockLen ne size)
        mem := Bytes.writeBytes μ dst
          ((c.rdmaSet CR_DM_RR addr size).ramBytes (getblockLen ne size)) } := by
  refine (rdmaStart_card ha hq hp CR_DM_RR addr size).bind ?_
  by_cases h16 : ne.is16bit
  · simp only [getblockLen, h16, if_true]
    exact inswN_card ha _ dst _ μ hq
  · simp only [getblockLen, h16]
    exact insbN_card ha _ dst _ μ hq

end Quiet

end Xv6.Eth
