import Mathlib
import Xv6.Eth.Card

/-!
# Writing a packet to the card

`ne_pio_write` on the bus of `Xv6.Eth.Card`. For a remote write `ne_rdma_setup` first
reads four bytes below the buffers and polls until the remote address has moved; the
packet then goes to the data port, `while ((inb(ISR) & ISR_RDC) == 0)` waits for the
end of the remote DMA, and `ne_start_xmit` gives the transmit page and count.

What the card does with the bytes depends on when it stores them. Two schedules are
worked out. An eager card stores each waiting byte before the driver's next access:
every byte of the packet lands in board memory from the send page on, whatever the size,
and the transmit count is the size modulo `2^16` (`ne_pio_write_eager`). A stalled card
stores nothing while the driver runs: the wait ends at its first read, on the `ISR_RDC`
that the dummy read set, and the transmit command is given with the whole packet still
in the FIFO (`ne_pio_write_stalled`).
-/

namespace Xv6.Eth

open Port

/-! ## The remote-DMA-complete bit -/

theorem rdc_iff (x : UInt8) : x &&& ISR_RDC ≠ 0 ↔ x.toNat.testBit 6 = true := by
  have h : (x &&& ISR_RDC).toNat = (x.toNat.testBit 6).toNat * 2 ^ 6 := by
    rw [UInt8.toNat_and, show ISR_RDC.toNat = 2 ^ 6 from rfl, Nat.and_two_pow]
  constructor
  · intro hne
    cases hb : x.toNat.testBit 6
    · exact absurd (UInt8.toNat_inj.mp (by rw [h, hb]; simp)) hne
    · rfl
  · intro hb heq
    rw [heq, hb] at h
    simp at h

namespace Card

/-- `ISR_RDC` is set in the interrupt status. -/
def Rdc (c : Card) : Prop := c.isr.toNat.testBit 6 = true

theorem rdc_or (x : UInt8) : (x ||| ISR_RDC).toNat.testBit 6 = true := by
  rw [UInt8.toNat_or, Nat.testBit_or]
  exact Bool.or_eq_true_iff.mpr (Or.inr (by decide))

theorem Rdc.countDown {c : Card} (h : c.Rdc) : c.countDown.Rdc := by
  show (if c.rbcr = 1 then c.isr ||| ISR_RDC else c.isr).toNat.testBit 6 = true
  split
  · exact rdc_or _
  · exact h

theorem Rdc.readN {c : Card} (h : c.Rdc) (n : Nat) : (c.readN n).Rdc := by
  induction n generalizing c with
  | zero => exact h
  | succ n ih => exact ih h.countDown

/-- Reading the whole count sets `ISR_RDC`: the read that takes the count from 1 to 0. -/
theorem rdc_readN {c : Card} {n : Nat} (h1 : 1 ≤ c.rbcr) (hn : c.rbcr ≤ n) : (c.readN n).Rdc := by
  induction n generalizing c with
  | zero => omega
  | succ n ih =>
    by_cases hr : c.rbcr = 1
    · have hc : c.countDown.Rdc := by
        show (if c.rbcr = 1 then c.isr ||| ISR_RDC else c.isr).toNat.testBit 6 = true
        rw [if_pos hr]
        exact rdc_or _
      exact hc.readN n
    · have h1' : 1 ≤ c.countDown.rbcr := by simp; omega
      exact ih h1' (by simp; omega)

/-! ## Storing the FIFO -/

theorem storeOne_fifo (c : Card) : c.storeOne.fifo = c.fifo.tail := by
  unfold storeOne
  split
  · next h => rw [h]; rfl
  · next b rest h =>
    rw [h]
    split <;> rfl

theorem storeN_fifo (n : Nat) (c : Card) : (c.storeN n).fifo = c.fifo.drop n := by
  induction n generalizing c with
  | zero => rfl
  | succ n ih => rw [storeN, ih, storeOne_fifo, List.drop_tail, Nat.add_comm]

/-- The card once it has stored every byte waiting in its FIFO. -/
def flush (c : Card) : Card := c.storeN c.fifo.length

theorem flush_fifo (c : Card) : c.flush.fifo = [] := by
  rw [flush, storeN_fifo, List.drop_length]

theorem flush_of_nil {c : Card} (h : c.fifo = []) : c.flush = c := by
  rw [flush, h]
  rfl

/-- The remote DMA's store of one byte written to the data port. -/
def put (c : Card) (b : UInt8) : Card := storeOne { c with fifo := [b] }

/-- The stores of `bs`, in order. -/
def putN (c : Card) (bs : List UInt8) : Card := bs.foldl put c

@[simp] theorem putN_nil (c : Card) : c.putN [] = c := rfl
theorem putN_cons (c : Card) (b : UInt8) (bs : List UInt8) :
    c.putN (b :: bs) = (c.put b).putN bs := rfl

theorem flush_push {c : Card} (h : c.fifo = []) (b : UInt8) :
    ({ c with fifo := c.fifo ++ [b] } : Card).flush = c.put b := by
  simp only [flush, h, List.nil_append, List.length_singleton]
  rfl

theorem put_eq (c : Card) (b : UInt8) :
    c.put b = if c.rbcr = 0 then { c with fifo := [] }
      else countDown { c with ram := Function.update c.ram (c.crda % 0x10000) b, fifo := [] } :=
  rfl

theorem put_of_pos {c : Card} (h : c.rbcr ≠ 0) (b : UInt8) :
    c.put b = countDown { c with ram := Function.update c.ram (c.crda % 0x10000) b, fifo := [] } := by
  rw [put_eq, if_neg h]

theorem put_fifo (c : Card) (b : UInt8) : (c.put b).fifo = [] := by
  rw [put_eq]
  split <;> rfl

theorem put_cr (c : Card) (b : UInt8) : (c.put b).cr = c.cr := by
  rw [put_eq]
  split <;> rfl

theorem Rdc.put {c : Card} (h : c.Rdc) (b : UInt8) : (c.put b).Rdc := by
  rw [put_eq]
  split
  · exact h
  · exact Rdc.countDown h

theorem putN_cr (c : Card) (bs : List UInt8) : (c.putN bs).cr = c.cr := by
  induction bs generalizing c with
  | nil => rfl
  | cons b bs ih => rw [putN_cons, ih, put_cr]

theorem putN_fifo (c : Card) (bs : List UInt8) (h : c.fifo = []) : (c.putN bs).fifo = [] := by
  induction bs generalizing c with
  | nil => exact h
  | cons b bs ih => exact ih _ (put_fifo c b)

theorem Rdc.putN {c : Card} (h : c.Rdc) (bs : List UInt8) : (c.putN bs).Rdc := by
  induction bs generalizing c with
  | nil => exact h
  | cons b bs ih => exact ih (h.put b)

theorem putN_isr_of_lt {c : Card} {bs : List UInt8} (h : bs.length < c.rbcr) :
    (c.putN bs).isr = c.isr := by
  induction bs generalizing c with
  | nil => rfl
  | cons b bs ih =>
    rw [putN_cons, ih (by rw [put_of_pos (by simp at h; omega)]; simp at h ⊢; omega),
      put_of_pos (by simp at h; omega)]
    simp only [countDown]
    rw [if_neg (by simp at h; omega)]

/-- Storing leaves board memory outside the addresses it stores to. -/
theorem putN_ram_frame {c : Card} {bs : List UInt8} (hlen : bs.length ≤ c.rbcr) {x : Nat}
    (hx : ∀ k < bs.length, (c.crda + k) % 0x10000 ≠ x) : (c.putN bs).ram x = c.ram x := by
  induction bs generalizing c with
  | nil => rfl
  | cons b bs ih =>
    have hpos : c.rbcr ≠ 0 := by simp at hlen; omega
    rw [putN_cons, ih (by rw [put_of_pos hpos]; simp at hlen ⊢; omega), put_of_pos hpos]
    · simp only [countDown_ram]
      exact Function.update_of_ne (hx 0 (by simp)).symm _ _
    · intro k hk
      rw [put_of_pos hpos, countDown_crda, Nat.add_assoc]
      exact hx (1 + k) (by simp; omega)

/-- The stores of a string no longer than the count and than the address space put its
bytes in order from the remote address on. -/
theorem putN_ram {c : Card} {bs : List UInt8} (hlen : bs.length ≤ c.rbcr)
    (hw : bs.length ≤ 0x10000) {j : Nat} (hj : j < bs.length) :
    (c.putN bs).ram ((c.crda + j) % 0x10000) = bs[j] := by
  induction bs generalizing c j with
  | nil => simp at hj
  | cons b bs ih =>
    have hpos : c.rbcr ≠ 0 := by simp at hlen; omega
    have hlen' : bs.length ≤ (c.put b).rbcr := by rw [put_of_pos hpos]; simp at hlen ⊢; omega
    rw [putN_cons]
    cases j with
    | zero =>
      -- the later stores go to the next `bs.length` addresses, which do not wrap back
      rw [putN_ram_frame hlen', put_of_pos hpos]
      · simp
      · intro k hk
        rw [put_of_pos hpos, countDown_crda]
        dsimp only
        simp at hw
        omega
    | succ j =>
      have hj' : j < bs.length := by simpa using hj
      have h := ih hlen' (by simp at hw; omega) hj'
      rw [put_of_pos hpos, countDown_crda] at h
      rw [show c.crda + (j + 1) = c.crda + 1 + j by omega, ← put_of_pos hpos] at *
      simpa using h

end Card

/-! ## Two schedules of the card's stores -/

section Schedules

variable {m : Machine} {ne : Ne} {c : Card} {μ : Nat → UInt8}

/-- An eager card: with the schedule run out, each access first stores all that waits. -/
theorem tick_eager (hs : m.sched = []) :
    ({ m with card := c, mem := μ } : Machine).tick = { m with card := c.flush, mem := μ } := by
  by_cases hq : c.fifo = []
  · rw [Card.flush_of_nil hq]
    exact Machine.tick_of_quiet hq
  · simp only [Machine.tick, hq, hs, if_false]
    rfl

theorem read_eager (hs : m.sched = []) (l : Loc) :
    machine.read { m with card := c, mem := μ } l =
      machine.read { m with card := c.flush, mem := μ } l := by
  simp only [machine, Machine.read, tick_eager hs, Card.flush_of_nil (Card.flush_fifo c)]

theorem write_eager (hs : m.sched = []) (l : Loc) (v : UInt8) :
    machine.write { m with card := c, mem := μ } l v =
      machine.write { m with card := c.flush, mem := μ } l v := by
  simp only [machine, Machine.write, tick_eager hs, Card.flush_of_nil (Card.flush_fifo c)]

/-- A stalled card: with bytes waiting and a 0 next in the schedule, an access stores
nothing and takes the 0. -/
theorem tick_stall (hq : c.fifo ≠ []) (rest : List Nat) :
    ({ m with card := c, mem := μ, sched := 0 :: rest } : Machine).tick =
      { m with card := c, mem := μ, sched := rest } := by
  simp only [Machine.tick, hq, if_false]
  rfl

theorem read_reg_stall (ha : Attached m ne) (hq : c.fifo ≠ []) {r : UInt8} (hr : r.toNat < 0x20)
    {v : UInt8} {c' : Card} (hc : c.read r.toNat = (v, c')) (rest : List Nat) :
    machine.read { m with card := c, mem := μ, sched := 0 :: rest } (.port (ne.reg r)) =
      (v, { m with card := c', mem := μ, sched := rest }) := by
  have ha' : Attached { m with card := c, mem := μ, sched := rest } ne := ha
  simp only [machine, Machine.read, tick_stall hq, offset_reg ha' hr, hc]

theorem write_reg_stall (ha : Attached m ne) (hq : c.fifo ≠ []) {r : UInt8} (hr : r.toNat < 0x20)
    (v : UInt8) (rest : List Nat) :
    machine.write { m with card := c, mem := μ, sched := 0 :: rest } (.port (ne.reg r)) v =
      { m with card := c.write r.toNat v, mem := μ, sched := rest } := by
  have ha' : Attached { m with card := c, mem := μ, sched := rest } ne := ha
  simp only [machine, Machine.write, tick_stall hq, offset_reg ha' hr]

theorem read_mem_stall (hq : c.fifo ≠ []) (a : Nat) (rest : List Nat) :
    machine.read { m with card := c, mem := μ, sched := 0 :: rest } (.mem a) =
      (μ a, { m with card := c, mem := μ, sched := rest }) := by
  simp only [machine, Machine.read, tick_stall hq]

/-! ## The packet through the data port -/

/-- `rep outsb` to an eager card: each byte is stored before the next access, so the
card is the one that stored the whole string, with at most the last byte waiting. -/
theorem outsbN_eager (ha : Attached m ne) (hs : m.sched = []) (μ : Nat → UInt8) (n : Nat) :
    ∀ (src : Nat) (c : Card), c.fifo.length ≤ 1 →
      ∃ c', c'.fifo.length ≤ 1 ∧ c'.flush = c.flush.putN (Bytes.readBytes μ src n) ∧
        Ends machine { m with card := c, mem := μ } (outsbN (ne.reg NE_DATA) src n) ()
          { m with card := c', mem := μ } := by
  induction n with
  | zero => exact fun src c hc => ⟨c, hc, rfl, .pure⟩
  | succ n ih =>
    intro src c _
    have hq := Card.flush_fifo c
    obtain ⟨c', hc', hflush, e⟩ := ih (src + 1) { c.flush with fifo := c.flush.fifo ++ [μ src] }
      (by simp [hq])
    refine ⟨c', hc', ?_, ?_⟩
    · rw [hflush, Card.flush_push hq, Bytes.readBytes_succ, Card.putN_cons]
    · refine Ends.read_of ((read_eager hs _).trans (read_mem hq src)) ?_
      refine Ends.write_of ((write_eager hs _ _).trans ?_) e
      rw [Card.flush_of_nil hq, write_reg ha hq (by decide), Card.write_data]

/-- `rep outsb` to a stalled card: the bytes pile up in the FIFO, one 0 of the schedule
for each access. -/
theorem outsbN_stall (ha : Attached m ne) (μ : Nat → UInt8) (n : Nat) :
    ∀ (src : Nat) (c : Card) (K : Nat), c.fifo ≠ [] →
      Ends machine { m with card := c, mem := μ, sched := List.replicate (2 * n + K) 0 }
        (outsbN (ne.reg NE_DATA) src n) ()
        { m with
          card := { c with fifo := c.fifo ++ Bytes.readBytes μ src n }
          mem := μ
          sched := List.replicate K 0 } := by
  induction n with
  | zero =>
    intro src c K _
    simp only [Nat.mul_zero, Nat.zero_add, Bytes.readBytes, List.range_zero, List.map_nil,
      List.append_nil]
    exact .pure
  | succ n ih =>
    intro src c K hq
    have e := ih (src + 1) { c with fifo := c.fifo ++ [μ src] } K (by simp)
    rw [show 2 * (n + 1) + K = (2 * n + K) + 1 + 1 by omega, List.replicate_succ,
      List.replicate_succ]
    have hw : machine.write { m with card := c, mem := μ, sched := 0 :: List.replicate (2 * n + K) 0 }
        (.port (ne.reg NE_DATA)) (μ src) =
        { m with
          card := { c with fifo := c.fifo ++ [μ src] }
          mem := μ
          sched := List.replicate (2 * n + K) 0 } := by
      rw [write_reg_stall ha hq (by decide), Card.write_data]
    refine Ends.read_of (read_mem_stall hq src _) (Ends.write_of hw (Ends.bind .pure ?_))
    rw [Bytes.readBytes_succ]
    simpa using e

end Schedules

/-! ## The steps of `ne_pio_write` -/

/-- The card once `ne_rdma_setup(ne, CR_DM_RW, addr, size)` is done: the dummy remote read
of four bytes at `ne->startaddr - 4`, then the registers of the write. -/
def Card.writeSetup (ne : Ne) (c : Card) (addr : UInt16) (size : Int32) : Card :=
  ((c.rdmaSet CR_DM_RR (ne.startaddr - 4).toUInt32.toUInt16 4).readN
    (getblockLen ne 4)).rdmaSet CR_DM_RW addr size

namespace Card

variable (ne : Ne) (c : Card) (addr : UInt16) (size : Int32)

theorem writeSetup_fifo : (c.writeSetup ne addr size).fifo = c.fifo := readN_fifo ..
theorem writeSetup_ram : (c.writeSetup ne addr size).ram = c.ram := readN_ram ..
theorem writeSetup_crda : (c.writeSetup ne addr size).crda = addr.toNat := rfl
theorem writeSetup_rbcr :
    (c.writeSetup ne addr size).rbcr = size.toUInt32.toNat % 0x10000 := rfl

theorem writeSetup_page : (c.writeSetup ne addr size).page = 0 := by
  show ((CR_DM_RW ||| CR_PS_P0 ||| CR_STA) >>> 6).toNat = 0
  decide

/-- The dummy read counts its four bytes down to zero, which sets `ISR_RDC`. -/
theorem writeSetup_rdc : (c.writeSetup ne addr size).Rdc := by
  have hlen : 4 ≤ getblockLen ne 4 := by
    unfold getblockLen
    split <;> decide
  have h4 : (4 : Int32).toUInt32.toNat % 0x10000 = 4 := by decide
  exact rdc_readN (show 1 ≤ (4 : Int32).toUInt32.toNat % 0x10000 by omega)
    (show (4 : Int32).toUInt32.toNat % 0x10000 ≤ getblockLen ne 4 by omega)

end Card

/-- The card after `ne_start_xmit(ne, page, size)` on page 0: transmit page, count, and
the command that starts the transmission. -/
def Card.xmitSet (c : Card) (page size : Int32) : Card :=
  { c with
    tpsr := page.toUInt32.toUInt8
    tbcr := size.toUInt32.toNat % 0x10000
    cr := CR_PS_P0 ||| CR_NO_DMA ||| CR_STA ||| CR_TXP }

theorem Card.write_start_xmit {c : Card} (hp : c.page = 0) (page size : Int32) :
    (((c.write DP_TPSR.toNat page.toUInt32.toUInt8).write DP_TBCR0.toNat
      (size.toUInt32 &&& 0xFF).toUInt8).write DP_TBCR1.toNat
      ((size >>> 8).toUInt32 &&& 0xFF).toUInt8).write DP_CR.toNat
      (CR_PS_P0 ||| CR_NO_DMA ||| CR_STA ||| CR_TXP) = c.xmitSet page size := by
  -- the first three writes leave the command register, and so page 0, as it was
  have hp' : (c.cr >>> 6).toNat = 0 := hp
  simp only [Card.write, Card.page, hp', DP_TPSR, DP_TBCR0, DP_TBCR1, DP_CR, UInt8.reduceToNat,
    ↓reduceIte, Nat.reduceEqDiff, Nat.reduceLT, Card.xmitSet, Word32.toNat_lowByte32,
    Word32.toNat_sshiftRight8]
  congr 1
  omega

section Steps

variable {m : Machine} {ne : Ne} {c : Card} {μ : Nat → UInt8}

/-- The remote address as `ne_rdma_setup` reads it, from page 0 of a quiet card. -/
theorem readCrda_card (ha : Attached m ne) (hq : c.fifo = []) (hp : c.page = 0) :
    Ends machine { m with card := c, mem := μ } (readCrda ne) (c.crda % 0x10000)
      { m with card := c, mem := μ } := by
  refine Ends.read_of (read_reg ha hq (by decide) (Card.read_crda0 hp)) ?_
  refine Ends.read_of (read_reg ha hq (by decide) (Card.read_crda1 hp)) ?_
  refine Ends.congr .pure ?_ rfl
  have hx := Nat.mod_lt c.crda (show 0 < 0x10000 by decide)
  rw [Bytes.toUInt8_toNat_of_lt (by omega), Bytes.toUInt8_toNat_of_lt (by omega)]
  exact Word32.or_shiftLeft8_bytes _ hx

/-- The remote-write setup on page 0 of a quiet card whose remote address is not where
the dummy read ends: the poll sees the address move at its first read. -/
theorem ne_rdma_setup_write (ha : Attached m ne) (hq : c.fifo = []) (hp : c.page = 0)
    (hmove : c.crda % 0x10000 ≠
      ((ne.startaddr - 4).toUInt32.toUInt16.toNat + getblockLen ne 4) % 0x10000)
    (dummy : Nat) (addr : UInt16) (size : Int32) :
    Ends machine { m with card := c, mem := μ } (ne_rdma_setup ne dummy CR_DM_RW addr size) ()
      { m with
        card := c.writeSetup ne addr size
        mem := Bytes.writeBytes μ dummy
          (c.block (ne.startaddr - 4).toUInt32.toUInt16 (getblockLen ne 4)) } := by
  have hq₁ : ((c.rdmaSet CR_DM_RR (ne.startaddr - 4).toUInt32.toUInt16 4).readN
      (getblockLen ne 4)).fifo = [] := (Card.readN_fifo ..).trans hq
  have hp₁ : ((c.rdmaSet CR_DM_RR (ne.startaddr - 4).toUInt32.toUInt16 4).readN
      (getblockLen ne 4)).page = 0 := by
    rw [Card.page, Card.readN_cr]
    show ((CR_DM_RR ||| CR_PS_P0 ||| CR_STA) >>> 6).toNat = 0
    decide
  unfold ne_rdma_setup
  rw [if_pos rfl]
  refine (readCrda_card ha hq hp).bind ((ne_getblock_card ha hq hp _ 4 dummy).bind ?_)
  refine (Ends.whileM_done ?_).bind (rdmaStart_card ha hq₁ hp₁ CR_DM_RW addr size)
  refine (readCrda_card ha hq₁ hp₁).bind (Ends.congr .pure ?_ rfl)
  rw [Card.readN_crda]
  exact decide_eq_false hmove

theorem rdc_cond_false {c : Card} (hr : c.Rdc) : decide (c.isr &&& ISR_RDC = 0) = false :=
  decide_eq_false ((rdc_iff c.isr).mpr hr)

/-- The `ISR_RDC` poll on an eager card: the read of the ISR comes after the last store,
and finds the bit. -/
theorem rdcWait_eager (ha : Attached m ne) (hs : m.sched = []) (hp : c.flush.page = 0)
    (hr : c.flush.Rdc) :
    Ends machine { m with card := c, mem := μ } (rdcWait ne) ()
      { m with card := c.flush, mem := μ } :=
  Ends.whileM_done (Ends.read_of
    ((read_eager hs _).trans (read_reg ha (Card.flush_fifo c) (by decide) (Card.read_isr hp)))
    (Ends.congr .pure (rdc_cond_false hr) rfl))

/-- The `ISR_RDC` poll on a stalled card ends at its first read when the bit is already
set, with every byte still waiting. -/
theorem rdcWait_stall (ha : Attached m ne) (hq : c.fifo ≠ []) (hp : c.page = 0) (hr : c.Rdc)
    (rest : List Nat) :
    Ends machine { m with card := c, mem := μ, sched := 0 :: rest } (rdcWait ne) ()
      { m with card := c, mem := μ, sched := rest } :=
  Ends.whileM_done (Ends.read_of (read_reg_stall ha hq (by decide) (Card.read_isr hp) rest)
    (Ends.congr .pure (rdc_cond_false hr) rfl))

/-- The registers `ne_start_xmit` writes, with their values. -/
def xmitRegs (page size : Int32) : List (UInt8 × UInt8) :=
  [(DP_TPSR, page.toUInt32.toUInt8), (DP_TBCR0, (size.toUInt32 &&& 0xFF).toUInt8),
    (DP_TBCR1, ((size >>> 8).toUInt32 &&& 0xFF).toUInt8),
    (DP_CR, CR_PS_P0 ||| CR_NO_DMA ||| CR_STA ||| CR_TXP)]

theorem xmitRegs_below (page size : Int32) : ∀ r ∈ (xmitRegs page size).map Prod.fst, r.toNat < 0x10 := by
  simp [xmitRegs, DP_TPSR, DP_TBCR0, DP_TBCR1, DP_CR]

/-- `ne_start_xmit` on page 0 of a quiet card. -/
theorem ne_start_xmit_card (ha : Attached m ne) (hq : c.fifo = []) (hp : c.page = 0)
    (page size : Int32) :
    Ends machine { m with card := c, mem := μ } (ne_start_xmit ne page size) ()
      { m with card := c.xmitSet page size, mem := μ } := by
  rw [← Card.write_start_xmit hp]
  exact outbRegs_card ha (xmitRegs page size) c hq (xmitRegs_below page size)

/-- On a stalled card writes below the data port keep the FIFO waiting: each access takes
one 0 of the schedule. -/
theorem outbRegs_stall (ha : Attached m ne) :
    ∀ (ws : List (UInt8 × UInt8)) (c : Card) (rest : List Nat), c.fifo ≠ [] →
      (∀ r ∈ ws.map Prod.fst, r.toNat < 0x10) →
      Ends machine { m with card := c, mem := μ, sched := List.replicate ws.length 0 ++ rest }
        (outbRegs ne ws) () { m with card := c.writeRegs ws, mem := μ, sched := rest }
  | [], _, _, _, _ => .pure
  | (r, v) :: ws, c, rest, hq, hr => by
    have hr₁ : r.toNat < 0x10 := hr r List.mem_cons_self
    have hq₁ : (c.write r.toNat v).fifo ≠ [] := (Card.fifo_write_reg hr₁).symm ▸ hq
    exact Ends.write_of (write_reg_stall ha hq (by omega) v _)
      (outbRegs_stall ha ws _ rest hq₁ fun w hw => hr w (List.mem_cons_of_mem _ hw))

/-- `ne_start_xmit` on page 0 of a stalled card: four accesses, four 0s of the schedule. -/
theorem ne_start_xmit_stall (ha : Attached m ne) (hq : c.fifo ≠ []) (hp : c.page = 0)
    (page size : Int32) (rest : List Nat) :
    Ends machine { m with card := c, mem := μ, sched := 0 :: 0 :: 0 :: 0 :: rest }
      (ne_start_xmit ne page size) () { m with card := c.xmitSet page size, mem := μ, sched := rest } := by
  rw [← Card.write_start_xmit hp]
  exact outbRegs_stall ha (xmitRegs page size) c rest hq (xmitRegs_below page size)

end Steps

/-! ## `ne_pio_write` -/

/-- The address of the remote write into send buffer `q`. -/
def Ne.sendAddr (ne : Ne) (q : Fin SENDQ_LEN) : UInt16 :=
  ((ne.sendq q).sendpage * DP_PAGESIZE).toUInt32.toUInt16

/-- The bytes the dummy read of `ne_rdma_setup` brings into its local buffer. -/
def Card.dummyBlock (ne : Ne) (c : Card) : List UInt8 :=
  c.block (ne.startaddr - 4).toUInt32.toUInt16 (getblockLen ne 4)

section Write

variable {m : Machine} {ne : Ne} {c : Card} {μ : Nat → UInt8} {q : Fin SENDQ_LEN}

/-- `ne_pio_write` on an NE1000 with a free send buffer, from page 0 of a quiet card whose
stores are eager: it accepts the packet whatever its size, stores it byte by byte from
the send address on, and starts the transmission with the size as count. -/
theorem ne_pio_write_eager (ha : Attached m ne) (hs : m.sched = []) (hq : c.fifo = [])
    (hp : c.page = 0) (h8 : ne.is16bit = false)
    (hqi : sendqIndex (ne.sendq_head % SENDQ_LEN.toInt32) = some q)
    (hfree : ¬ ((ne.sendq q).filled ≠ 0 ∨ ne.sendq_head > ne.sendq_tail))
    (hmove : c.crda % 0x10000 ≠
      ((ne.startaddr - 4).toUInt32.toUInt16.toNat + getblockLen ne 4) % 0x10000)
    (μ : Nat → UInt8) (dummy packet : Nat) {size : Int32} (hsize : size.toUInt32.toNat < 0x10000) :
    ∃ ne' c', Ends machine { m with card := c, mem := μ } (ne_pio_write ne dummy packet size)
        (some (ne', size))
        { m with card := c', mem := Bytes.writeBytes μ dummy (c.dummyBlock ne) } ∧
      (∀ j < size.toUInt32.toNat, c'.ram (((ne.sendAddr q).toNat + j) % 0x10000) =
        Bytes.writeBytes μ dummy (c.dummyBlock ne) (packet + j)) ∧
      c'.tbcr = size.toUInt32.toNat ∧ c'.cr = CR_PS_P0 ||| CR_NO_DMA ||| CR_STA ||| CR_TXP := by
  have hq₀ : (c.writeSetup ne (ne.sendAddr q) size).fifo = [] := (Card.writeSetup_fifo ..).trans hq
  obtain ⟨c₁, -, hflush, e₁⟩ := outsbN_eager ha hs (Bytes.writeBytes μ dummy (c.dummyBlock ne))
    size.toUInt32.toNat packet _ (by rw [hq₀]; simp)
  rw [Card.flush_of_nil hq₀] at hflush
  -- after the last store the card is on page 0 with `ISR_RDC` still set from the dummy read
  have hp₁ : c₁.flush.page = 0 := by
    rw [hflush]
    show ((Card.putN _ _).cr >>> 6).toNat = 0
    rw [Card.putN_cr]
    exact Card.writeSetup_page ..
  have hr₁ : c₁.flush.Rdc := by
    rw [hflush]
    exact (Card.writeSetup_rdc ..).putN _
  refine ⟨{ ne with
      sendq := Function.update ne.sendq q { ne.sendq q with filled := TRUE }
      sendq_head := ne.sendq_head + 1 },
    c₁.flush.xmitSet (Function.update ne.sendq q { ne.sendq q with filled := TRUE } q).sendpage size,
    ?_, ?_, ?_, ?_⟩
  · unfold ne_pio_write
    rw [hqi]
    refine Ends.ite_neg hfree ?_
    refine (ne_rdma_setup_write ha hq hp hmove dummy _ size).bind ?_
    refine Ends.ite_neg (show ¬ (ne.is16bit = true) by simp [h8]) (e₁.bind ?_)
    refine (rdcWait_eager ha hs hp₁ hr₁).bind ?_
    exact (ne_start_xmit_card ha (Card.flush_fifo c₁) hp₁ _ size).bind .pure
  · intro j hj
    show c₁.flush.ram _ = _
    rw [hflush, ← Card.writeSetup_crda ne c (ne.sendAddr q) size, Card.putN_ram]
    · exact Bytes.getElem_readBytes ..
    · simp [Card.writeSetup_rbcr, Nat.mod_eq_of_lt hsize]
    · simp; omega
    · simpa using hj
  · exact Nat.mod_eq_of_lt hsize
  · rfl

/-- `ne_pio_write` of a packet of `k + 1` bytes on an NE1000 with a free send buffer,
from page 0 of a quiet card that stores nothing while the driver runs: the poll ends at
its first read, on the `ISR_RDC` the dummy read set, and the transmit command goes out
with every byte of the packet still in the FIFO and board memory as it was. -/
theorem ne_pio_write_stalled (ha : Attached m ne) (hq : c.fifo = []) (hp : c.page = 0)
    (h8 : ne.is16bit = false)
    (hqi : sendqIndex (ne.sendq_head % SENDQ_LEN.toInt32) = some q)
    (hfree : ¬ ((ne.sendq q).filled ≠ 0 ∨ ne.sendq_head > ne.sendq_tail))
    (hmove : c.crda % 0x10000 ≠
      ((ne.startaddr - 4).toUInt32.toUInt16.toNat + getblockLen ne 4) % 0x10000)
    (μ : Nat → UInt8) (dummy packet : Nat) {size : Int32} {k : Nat}
    (hk : size.toUInt32.toNat = k + 1) (K : Nat)
    (hsched : m.sched = List.replicate (2 * k + (K + 5)) 0) :
    ∃ ne' c', Ends machine { m with card := c, mem := μ } (ne_pio_write ne dummy packet size)
        (some (ne', size))
        { m with
          card := c'
          mem := Bytes.writeBytes μ dummy (c.dummyBlock ne)
          sched := List.replicate K 0 } ∧
      c'.fifo = Bytes.readBytes (Bytes.writeBytes μ dummy (c.dummyBlock ne)) packet (k + 1) ∧
      c'.rbcr = size.toUInt32.toNat % 0x10000 ∧ c'.ram = c.ram ∧
      c'.cr = CR_PS_P0 ||| CR_NO_DMA ||| CR_STA ||| CR_TXP := by
  have hq₀ : (c.writeSetup ne (ne.sendAddr q) size).fifo = [] := (Card.writeSetup_fifo ..).trans hq
  -- the first byte goes to a quiet card; from then on the FIFO is never empty again
  have hfirst : machine.write
      { m with
        card := c.writeSetup ne (ne.sendAddr q) size
        mem := Bytes.writeBytes μ dummy (c.dummyBlock ne) } (.port (ne.reg NE_DATA))
      (Bytes.writeBytes μ dummy (c.dummyBlock ne) packet) =
      { m with
        card := { c.writeSetup ne (ne.sendAddr q) size with
          fifo := [Bytes.writeBytes μ dummy (c.dummyBlock ne) packet] }
        mem := Bytes.writeBytes μ dummy (c.dummyBlock ne)
        sched := List.replicate (2 * k + (K + 5)) 0 } := by
    rw [write_reg ha hq₀ (by decide), Card.write_data, hq₀, ← hsched]
    rfl
  have e₁ := outsbN_stall ha (Bytes.writeBytes μ dummy (c.dummyBlock ne)) k (packet + 1)
    { c.writeSetup ne (ne.sendAddr q) size with
      fifo := [Bytes.writeBytes μ dummy (c.dummyBlock ne) packet] } (K + 5) (by simp)
  refine ⟨{ ne with
      sendq := Function.update ne.sendq q { ne.sendq q with filled := TRUE }
      sendq_head := ne.sendq_head + 1 },
    ({ c.writeSetup ne (ne.sendAddr q) size with
      fifo := [Bytes.writeBytes μ dummy (c.dummyBlock ne) packet] ++
        Bytes.readBytes (Bytes.writeBytes μ dummy (c.dummyBlock ne)) (packet + 1) k } : Card).xmitSet
      (Function.update ne.sendq q { ne.sendq q with filled := TRUE } q).sendpage size,
    ?_, ?_, rfl, Card.writeSetup_ram ne c (ne.sendAddr q) size, rfl⟩
  · unfold ne_pio_write
    rw [hqi]
    refine Ends.ite_neg hfree ?_
    refine (ne_rdma_setup_write ha hq hp hmove dummy _ size).bind ?_
    have e₂ : Ends machine
        { m with
          card := c.writeSetup ne (ne.sendAddr q) size
          mem := Bytes.writeBytes μ dummy (c.dummyBlock ne) }
        (outsb (ne.reg NE_DATA) packet size) ()
        { m with
          card := { c.writeSetup ne (ne.sendAddr q) size with
            fifo := [Bytes.writeBytes μ dummy (c.dummyBlock ne) packet] ++
              Bytes.readBytes (Bytes.writeBytes μ dummy (c.dummyBlock ne)) (packet + 1) k }
          mem := Bytes.writeBytes μ dummy (c.dummyBlock ne)
          sched := List.replicate (K + 5) 0 } := by
      show Ends machine _ (outsbN (ne.reg NE_DATA) packet size.toUInt32.toNat) () _
      rw [hk]
      exact Ends.read_of (read_mem hq₀ packet) (Ends.write_of hfirst e₁)
    -- the card of the poll and of the transmit command: the setup, with the packet waiting
    have hq₂ : ({ c.writeSetup ne (ne.sendAddr q) size with
        fifo := [Bytes.writeBytes μ dummy (c.dummyBlock ne) packet] ++
          Bytes.readBytes (Bytes.writeBytes μ dummy (c.dummyBlock ne)) (packet + 1) k } :
        Card).fifo ≠ [] := by simp
    have hp₂ := Card.writeSetup_page ne c (ne.sendAddr q) size
    refine Ends.ite_neg (show ¬ (ne.is16bit = true) by simp [h8]) (e₂.bind ?_)
    refine (rdcWait_stall ha hq₂ hp₂ (Card.writeSetup_rdc ne c (ne.sendAddr q) size) _).bind ?_
    exact (ne_start_xmit_stall ha hq₂ hp₂ _ size _).bind .pure
  · show [Bytes.writeBytes μ dummy (c.dummyBlock ne) packet] ++
      Bytes.readBytes (Bytes.writeBytes μ dummy (c.dummyBlock ne)) (packet + 1) k = _
    rw [Bytes.readBytes_succ]
    rfl

end Write

/-! ## An NE1000 with a free send buffer

The card as `ne_init` leaves it on page 0, its remote address at 0, and kernel memory
holding `0xAA` in every byte; the packet is at `0x2000` and `ne_rdma_setup`'s buffer at
`0x1000`. -/

/-- A quiet card on page 0 with board memory zero. -/
def idleCard : Card where
  ram := fun _ => 0
  cr := CR_PS_P0 ||| CR_NO_DMA ||| CR_STA
  isr := 0
  bnry := 0
  curr := 0
  crda := 0
  rbcr := 0
  fifo := []
  tpsr := 0
  tbcr := 0
  regs := fun _ => 0

/-- The NE1000 at port `0x300` with the store schedule `sched`. -/
def xmitMachine (sched : List Nat) : Machine :=
  { base := some 0x300, card := idleCard, mem := fun _ => 0xAA, sched := sched }

theorem attached_xmitMachine (sched : List Nat) : Attached (xmitMachine sched) ne1000 :=
  ⟨show some 0x300 = some ne1000.base.toUInt32.toNat by decide, by decide⟩

/-- After `ne_init` the head of the send queue is buffer 0. -/
theorem sendqIndex_ne1000_head : sendqIndex (ne1000.sendq_head % SENDQ_LEN.toInt32) = some ⟨0, by decide⟩ := by
  decide

/-- A 2000-byte packet is accepted, written on past the 1536 bytes of send buffer 0 into
send buffer 1, and given to the transmitter with a count of 2000, above
`ETH_MAX_SIZE`. -/
theorem ne_pio_write_overruns_sendq :
    ∀ r s', Ends machine (xmitMachine []) (ne_pio_write ne1000 0x1000 0x2000 2000) r s' →
      (∃ ne', r = some (ne', 2000)) ∧ s'.card.ram 0x27CF = 0xAA ∧
        (ne1000.sendAddr ⟨1, by decide⟩).toNat ≤ 0x27CF ∧
        s'.card.tbcr = 2000 ∧ ETH_MAX_SIZE.toNat < 2000 := by
  intro r s' h
  obtain ⟨ne', c', e, hram, htbcr, -⟩ := ne_pio_write_eager (attached_xmitMachine []) rfl
    (show idleCard.fifo = [] from rfl) (by decide) (by decide) sendqIndex_ne1000_head (by decide) (by decide)
    (fun _ => 0xAA) 0x1000 0x2000 (show (2000 : Int32).toUInt32.toNat < 0x10000 by decide)
  obtain ⟨rfl, rfl⟩ := Ends.det e h
  refine ⟨⟨ne', rfl⟩, ?_, by decide, htbcr, by decide⟩
  have h1999 := hram 1999 (by decide)
  rw [Bytes.writeBytes_apply_of_ge (by simp [Card.dummyBlock, getblockLen]; decide)] at h1999
  exact h1999

/-- The 2000-byte write does end. -/
theorem ne_pio_write_overruns_ends :
    ∃ r s', Ends machine (xmitMachine []) (ne_pio_write ne1000 0x1000 0x2000 2000) r s' ∧
      (∃ ne', r = some (ne', 2000)) ∧ s'.card.ram 0x27CF = 0xAA ∧
        (ne1000.sendAddr ⟨1, by decide⟩).toNat ≤ 0x27CF ∧
        s'.card.tbcr = 2000 ∧ ETH_MAX_SIZE.toNat < 2000 := by
  obtain ⟨ne', c', e, -⟩ := ne_pio_write_eager (attached_xmitMachine []) rfl
    (show idleCard.fifo = [] from rfl) (by decide) (by decide) sendqIndex_ne1000_head (by decide) (by decide)
    (fun _ => 0xAA) 0x1000 0x2000 (show (2000 : Int32).toUInt32.toNat < 0x10000 by decide)
  exact ⟨_, _, e, ne_pio_write_overruns_sendq _ _ e⟩

/-- With a card that stores nothing while the driver runs, a 60-byte packet goes to the
transmitter with all 60 bytes still waiting in the FIFO and none in board memory: the
`ISR_RDC` poll ended on the bit the dummy read had set. -/
theorem ne_pio_write_rdc_stale :
    ∀ r s', Ends machine (xmitMachine (List.replicate 200 0))
        (ne_pio_write ne1000 0x1000 0x2000 60) r s' →
      s'.card.cr = CR_PS_P0 ||| CR_NO_DMA ||| CR_STA ||| CR_TXP ∧ s'.card.fifo.length = 60 ∧
        s'.card.ram = idleCard.ram := by
  intro r s' h
  obtain ⟨ne', c', e, hfifo, -, hram, hcr⟩ := ne_pio_write_stalled (attached_xmitMachine _)
    (show idleCard.fifo = [] from rfl) (by decide) (by decide) sendqIndex_ne1000_head (by decide) (by decide)
    (fun _ => 0xAA) 0x1000 0x2000 (show (60 : Int32).toUInt32.toNat = 59 + 1 by decide) 77 rfl
  obtain ⟨rfl, rfl⟩ := Ends.det e h
  exact ⟨hcr, by rw [hfifo]; simp, hram⟩

/-- The 60-byte write on the stalled card does end. -/
theorem ne_pio_write_rdc_stale_ends :
    ∃ r s', Ends machine (xmitMachine (List.replicate 200 0))
        (ne_pio_write ne1000 0x1000 0x2000 60) r s' ∧
      s'.card.cr = CR_PS_P0 ||| CR_NO_DMA ||| CR_STA ||| CR_TXP ∧ s'.card.fifo.length = 60 ∧
        s'.card.ram = idleCard.ram := by
  obtain ⟨ne', c', e, -⟩ := ne_pio_write_stalled (attached_xmitMachine _)
    (show idleCard.fifo = [] from rfl) (by decide) (by decide) sendqIndex_ne1000_head (by decide) (by decide)
    (fun _ => 0xAA) 0x1000 0x2000 (show (60 : Int32).toUInt32.toNat = 59 + 1 by decide) 77 rfl
  exact ⟨_, _, e, ne_pio_write_rdc_stale _ _ e⟩

end Xv6.Eth
