import Xv6.Eth.Card

/-!
# Reading a packet from the receive ring

`ne_pio_read` on a quiet card, path by path. The receive ring holds the packets
between BNRY and CURR. `ne_pio_read` reads CURR on register page 1 and BNRY on page 0,
then the 4-byte header of the packet after BNRY by remote read, and either returns at
once or copies the packet and moves BNRY past it. Each outcome is one lemma:
`ne_pio_read_empty`, `ne_pio_read_bad`, `ne_pio_read_short` and `ne_pio_read_copy`.
What the copy leaves in kernel memory is `recvMem`, the bytes of its one or two remote
reads, to be compared with `ringAddr`, the place of each data byte in ring order.
-/

namespace Xv6.Eth

open Port

/-! ## The card after the driver's reads -/

/-- `c'` is `c` after remote reads and register accesses of the driver: the same
memory and ring registers, nothing waiting in the FIFO, and register page 0 selected. -/
structure Card.ReadOf (c' c : Card) : Prop where
  ram : c'.ram = c.ram
  bnry : c'.bnry = c.bnry
  curr : c'.curr = c.curr
  fifo : c'.fifo = []
  page : c'.page = 0

theorem Card.ReadOf.trans {c₁ c₂ c₃ : Card} (h₂ : c₃.ReadOf c₂) (h₁ : c₂.ReadOf c₁) :
    c₃.ReadOf c₁ :=
  ⟨h₂.ram.trans h₁.ram, h₂.bnry.trans h₁.bnry, h₂.curr.trans h₁.curr, h₂.fifo, h₂.page⟩

/-- Byte `i` of the header of the packet at ring page `page`. -/
def Card.hdr (c : Card) (page : UInt32) (i : Nat) : UInt8 :=
  c.ram (((page * DP_PAGESIZE.toUInt32).toUInt16.toNat + i) % 0x10000)

/-- The size `ne_pio_read` takes from the header at `page`. -/
def Card.pktsize (c : Card) (page : UInt32) : UInt32 := pktsizeOf (c.hdr page 2) (c.hdr page 3)

/-- Where each data byte of the packet at `page` lies in ring order: after the 4-byte
header, continuing at `recv_startpage` once it reaches `recv_stoppage`. -/
def ringAddr (ne : Ne) (page i : Nat) : Nat :=
  let stop := ne.recv_stoppage.toUInt32.toNat
  if page * 256 + 4 + i < stop * 256 then page * 256 + 4 + i
  else page * 256 + 4 + i - (stop - ne.recv_startpage.toUInt32.toNat) * 256

/-- Kernel memory after `ne_recv_copy` of a packet of `pktsize` bytes at `page`: its one
read, or the read up to the end of the ring and the read from `recv_startpage`. -/
def recvMem (ne : Ne) (c : Card) (page : UInt32) (buf : Nat) (pktsize : UInt32)
    (μ : Nat → UInt8) : Nat → UInt8 :=
  let remain : Int32 := ((ne.recv_stoppage.toUInt32 - page) * DP_PAGESIZE.toUInt32).toInt32
  if remain.toUInt32 < pktsize then
    Bytes.writeBytes
      (Bytes.writeBytes μ buf
        (c.block (page * DP_PAGESIZE.toUInt32 + 4).toUInt16 (getblockLen ne remain)))
      (buf + remain.toUInt32.toNat)
      (c.block (ne.recv_startpage.toUInt32 * DP_PAGESIZE.toUInt32).toUInt16
        (getblockLen ne (pktsize - remain.toUInt32).toInt32))
  else
    Bytes.writeBytes μ buf
      (c.block (page * DP_PAGESIZE.toUInt32 + 4).toUInt16 (getblockLen ne pktsize.toInt32))

/-- A remote read sees only the board's memory. -/
theorem Card.block_of_ram {c' c : Card} (h : c'.ram = c.ram) : c'.block = c.block := by
  unfold Card.block
  rw [h]

/-- The page a command selects. -/
theorem Card.page_with_cr (c : Card) (v : UInt8) :
    ({ c with cr := v } : Card).page = (v >>> 6).toNat := rfl

/-- A wrapping copy: the bytes before `remain` in `buf` come from the first read, which
starts just after the header. -/
theorem recvMem_wrap {ne : Ne} {c : Card} {page : UInt32} {buf : Nat} {pktsize : UInt32}
    {μ : Nat → UInt8} {i : Nat}
    (hr : (((ne.recv_stoppage.toUInt32 - page) * DP_PAGESIZE.toUInt32).toInt32).toUInt32 <
      pktsize)
    (hi : i < (((ne.recv_stoppage.toUInt32 - page) * DP_PAGESIZE.toUInt32).toInt32).toUInt32.toNat)
    (hlen : i < getblockLen ne ((ne.recv_stoppage.toUInt32 - page) * DP_PAGESIZE.toUInt32).toInt32) :
    recvMem ne c page buf pktsize μ (buf + i) =
      c.ram (((page * DP_PAGESIZE.toUInt32 + 4).toUInt16.toNat + i) % 0x10000) := by
  unfold recvMem
  simp only [if_pos hr]
  rw [Bytes.writeBytes_apply_of_lt (by omega),
    Bytes.writeBytes_apply_mem (by omega) (by rw [Nat.add_sub_cancel_left, Card.length_block]; exact hlen)]
  simp

section Read

variable {m : Machine} {ne : Ne} {c : Card} {μ : Nat → UInt8}

/-- `ne_getblock` from a quiet card on page 0 reads it: the bytes from `addr` land at
`dst`. -/
theorem ne_getblock_read (ha : Attached m ne) (hq : c.fifo = []) (hp : c.page = 0)
    (μ : Nat → UInt8) (addr : UInt16) (size : Int32) (dst : Nat) :
    ∃ c', c'.ReadOf c ∧
      Ends machine { m with card := c, mem := μ } (ne_getblock ne addr size dst) ()
        { m with card := c', mem := Bytes.writeBytes μ dst (c.block addr (getblockLen ne size)) } := by
  refine ⟨(c.rdmaSet CR_DM_RR addr size).readN (getblockLen ne size),
    ⟨Card.readN_ram .., Card.readN_bnry .., Card.readN_curr .., (Card.readN_fifo ..).trans hq,
      ?_⟩, ne_getblock_card ha hq hp addr size dst⟩
  rw [Card.page, Card.readN_cr]
  show ((CR_DM_RR ||| CR_PS_P0 ||| CR_STA) >>> 6).toNat = 0
  decide

/-- A load from kernel memory where a remote read has put a block. -/
theorem read_block (hq : c.fifo = []) {dst i n a : Nat} (ha : a = dst + i) (hi : i < n)
    (c₀ : Card) (addr : UInt16) :
    machine.read { m with card := c, mem := Bytes.writeBytes μ dst (c₀.block addr n) } (.mem a) =
      (c₀.ram ((addr.toNat + i) % 0x10000),
        { m with card := c, mem := Bytes.writeBytes μ dst (c₀.block addr n) }) := by
  rw [read_mem hq, ha, Bytes.writeBytes_apply_mem (by omega) (by simp; omega)]
  simp

/-- The register reads that open `ne_pio_read`: CURR on page 1, then BNRY on page 0. -/
theorem pio_read_regs (ha : Attached m ne) (hq : c.fifo = []) {α : Type}
    {k : UInt8 → UInt8 → Drv α} {a : α} {s' : Machine}
    (h : Ends machine
      { m with card := { c with cr := CR_PS_P0 ||| CR_NO_DMA ||| CR_STA }, mem := μ }
      (k c.curr c.bnry) a s') :
    Ends machine { m with card := c, mem := μ }
      (do
        outb (ne.reg DP_CR) CR_PS_P1
        let x ← inb (ne.reg DP_CURR)
        outb (ne.reg DP_CR) (CR_PS_P0 ||| CR_NO_DMA ||| CR_STA)
        let y ← inb (ne.reg DP_BNRY)
        k x y) a s' := by
  have hq₁ : ({ c with cr := CR_PS_P1 } : Card).fifo = [] := hq
  have hq₂ : ({ c with cr := CR_PS_P0 ||| CR_NO_DMA ||| CR_STA } : Card).fifo = [] := hq
  refine Ends.write_of (write_reg ha hq (by decide) _) ?_
  rw [Card.write_cr]
  refine Ends.read_of (read_reg ha hq₁ (by decide) (Card.read_curr ((Card.page_with_cr c _).trans (by decide)))) ?_
  refine Ends.write_of (write_reg ha hq₁ (by decide) _) ?_
  rw [Card.write_cr]
  exact Ends.read_of (read_reg ha hq₂ (by decide) (Card.read_bnry ((Card.page_with_cr c _).trans (by decide)))) h

/-- An empty ring: the page after BNRY is CURR, and `ne_pio_read` returns 0 having
changed nothing but the command register. -/
theorem ne_pio_read_empty (ha : Attached m ne) (hq : c.fifo = [])
    (he : nextPage ne c.bnry.toUInt32 = c.curr.toUInt32) (header buf : Nat) (bufsize : Int32) :
    Ends machine { m with card := c, mem := μ } (ne_pio_read ne header buf bufsize) 0
      { m with card := { c with cr := CR_PS_P0 ||| CR_NO_DMA ||| CR_STA }, mem := μ } := by
  refine pio_read_regs ha hq ?_
  exact Ends.ite_pos he .pure

/-- `ne_recv_copy` from a quiet card on page 0 reads it and leaves `recvMem`. -/
theorem ne_recv_copy_read (ha : Attached m ne) (hq : c.fifo = []) (hp : c.page = 0)
    (page : UInt32) (buf : Nat) (pktsize : UInt32) :
    ∃ c', c'.ReadOf c ∧
      Ends machine { m with card := c, mem := μ } (ne_recv_copy ne page buf pktsize) ()
        { m with card := c', mem := recvMem ne c page buf pktsize μ } := by
  unfold ne_recv_copy recvMem
  by_cases hr : (((ne.recv_stoppage.toUInt32 - page) * DP_PAGESIZE.toUInt32).toInt32).toUInt32 <
      pktsize
  · -- the packet wraps: up to the end of the ring, then from `recv_startpage`
    simp only [if_pos hr]
    obtain ⟨c₁, h₁, e₁⟩ := ne_getblock_read ha hq hp μ _ _ buf
    obtain ⟨c₂, h₂, e₂⟩ := ne_getblock_read ha h₁.fifo h₁.page _ _ _ (buf + _)
    rw [Card.block_of_ram h₁.ram] at e₂
    exact ⟨c₂, h₂.trans h₁, e₁.bind e₂⟩
  · simp only [if_neg hr]
    obtain ⟨c₁, h₁, e₁⟩ := ne_getblock_read ha hq hp μ _ _ buf
    exact ⟨c₁, h₁, e₁⟩

/-- The header read of `ne_pio_read`: a remote read of the header at `page` into
`header`, then its four bytes loaded back. -/
theorem pio_read_hdr (ha : Attached m ne) (hq : c.fifo = []) (hp : c.page = 0)
    (μ : Nat → UInt8) (page : UInt32) (header : Nat) :
    ∃ c', c'.ReadOf c ∧ ∀ {α : Type} {k : UInt8 → UInt8 → UInt8 → UInt8 → Drv α} {a : α}
      {s' : Machine},
      Ends machine
        { m with
          card := c'
          mem := Bytes.writeBytes μ header
            (c.block (page * DP_PAGESIZE.toUInt32).toUInt16 (getblockLen ne 4)) }
        (k (c.hdr page 0) (c.hdr page 1) (c.hdr page 2) (c.hdr page 3)) a s' →
      Ends machine { m with card := c, mem := μ }
        (do
          ne_getblock ne (page * DP_PAGESIZE.toUInt32).toUInt16 4 header
          let b₀ ← load header
          let b₁ ← load (header + 1)
          let b₂ ← load (header + 2)
          let b₃ ← load (header + 3)
          k b₀ b₁ b₂ b₃) a s' := by
  obtain ⟨c', hc', e⟩ := ne_getblock_read ha hq hp μ
    (page * DP_PAGESIZE.toUInt32).toUInt16 4 header
  -- the header is the first four of the `getblockLen` bytes read
  have hlen : 4 ≤ getblockLen ne 4 := by
    unfold getblockLen
    split <;> decide
  refine ⟨c', hc', fun h => e.bind ?_⟩
  refine Ends.read_of (read_block hc'.fifo (Nat.add_zero header).symm (by omega) c _) ?_
  refine Ends.read_of (read_block hc'.fifo rfl (by omega) c _) ?_
  refine Ends.read_of (read_block hc'.fifo rfl (by omega) c _) ?_
  exact Ends.read_of (read_block hc'.fifo rfl (by omega) c _) h

/-- The card as `ne_pio_read` leaves it for the header read. -/
theorem pio_read_hdr_start (ha : Attached m ne) (hq : c.fifo = []) (μ : Nat → UInt8)
    (page : UInt32) (header : Nat) :
    ∃ c', c'.ReadOf c ∧ ∀ {α : Type} {k : UInt8 → UInt8 → UInt8 → UInt8 → Drv α} {a : α}
      {s' : Machine},
      Ends machine
        { m with
          card := c'
          mem := Bytes.writeBytes μ header
            (c.block (page * DP_PAGESIZE.toUInt32).toUInt16 (getblockLen ne 4)) }
        (k (c.hdr page 0) (c.hdr page 1) (c.hdr page 2) (c.hdr page 3)) a s' →
      Ends machine
        { m with card := { c with cr := CR_PS_P0 ||| CR_NO_DMA ||| CR_STA }, mem := μ }
        (do
          ne_getblock ne (page * DP_PAGESIZE.toUInt32).toUInt16 4 header
          let b₀ ← load header
          let b₁ ← load (header + 1)
          let b₂ ← load (header + 2)
          let b₃ ← load (header + 3)
          k b₀ b₁ b₂ b₃) a s' := by
  have hq₂ : ({ c with cr := CR_PS_P0 ||| CR_NO_DMA ||| CR_STA } : Card).fifo = [] := hq
  obtain ⟨c', hc', hk⟩ := pio_read_hdr ha hq₂ ((Card.page_with_cr c _).trans (by decide))
    μ page header
  exact ⟨c', ⟨hc'.ram, hc'.bnry, hc'.curr, hc'.fifo, hc'.page⟩, hk⟩

variable {page : UInt32}

/-- A bad header: `ne_pio_read` returns -1 and leaves BNRY where it was. -/
theorem ne_pio_read_bad (ha : Attached m ne) (hq : c.fifo = [])
    (hpg : nextPage ne c.bnry.toUInt32 = page) (hne : page ≠ c.curr.toUInt32)
    (hbad : c.pktsize page < ETH_MIN_SIZE ∨ c.pktsize page > ETH_MAX_SIZE ∨
      c.hdr page 0 &&& RSR_PRX = 0) (μ : Nat → UInt8) (header buf : Nat) (bufsize : Int32) :
    ∃ c', c'.ReadOf c ∧
      Ends machine { m with card := c, mem := μ } (ne_pio_read ne header buf bufsize) (-1)
        { m with
          card := c'
          mem := Bytes.writeBytes μ header
            (c.block (page * DP_PAGESIZE.toUInt32).toUInt16 (getblockLen ne 4)) } := by
  subst hpg
  obtain ⟨c', hc', hk⟩ := pio_read_hdr_start ha hq μ (nextPage ne c.bnry.toUInt32) header
  exact ⟨c', hc', pio_read_regs ha hq (Ends.ite_neg hne (hk (Ends.ite_pos hbad .pure)))⟩

/-- A good header but no room: `ne_pio_read` returns the packet's size without copying
it and leaves BNRY where it was. -/
theorem ne_pio_read_short (ha : Attached m ne) (hq : c.fifo = [])
    (hpg : nextPage ne c.bnry.toUInt32 = page) (hne : page ≠ c.curr.toUInt32)
    (hok : ¬ (c.pktsize page < ETH_MIN_SIZE ∨ c.pktsize page > ETH_MAX_SIZE ∨
      c.hdr page 0 &&& RSR_PRX = 0))
    (μ : Nat → UInt8) (header buf : Nat) (bufsize : Int32)
    (hshort : buf = 0 ∨ c.pktsize page > bufsize.toUInt32) :
    ∃ c', c'.ReadOf c ∧
      Ends machine { m with card := c, mem := μ } (ne_pio_read ne header buf bufsize)
        (c.pktsize page).toInt32
        { m with
          card := c'
          mem := Bytes.writeBytes μ header
            (c.block (page * DP_PAGESIZE.toUInt32).toUInt16 (getblockLen ne 4)) } := by
  subst hpg
  obtain ⟨c', hc', hk⟩ := pio_read_hdr_start ha hq μ (nextPage ne c.bnry.toUInt32) header
  exact ⟨c', hc', pio_read_regs ha hq (Ends.ite_neg hne (hk
    (Ends.ite_neg hok (Ends.ite_pos hshort .pure))))⟩

/-- A write of BNRY on page 0. -/
theorem write_bnry_port (ha : Attached m ne) (hq : c.fifo = []) (hp : c.page = 0) (v : UInt8) :
    machine.write { m with card := c, mem := μ } (.port (ne.reg DP_BNRY)) v =
      { m with card := { c with bnry := v }, mem := μ } := by
  rw [write_reg ha hq (by decide) v, Card.write_bnry v hp]

theorem recvMem_of_ram {c' : Card} (h : c'.ram = c.ram) : recvMem ne c' = recvMem ne c := by
  unfold recvMem
  rw [Card.block_of_ram h]

/-- A packet delivered: `ne_pio_read` copies it into `buf` as `recvMem` says, moves BNRY
to the page before the header's `next`, and returns its size. -/
theorem ne_pio_read_copy (ha : Attached m ne) (hq : c.fifo = [])
    (hpg : nextPage ne c.bnry.toUInt32 = page) (hne : page ≠ c.curr.toUInt32)
    (hok : ¬ (c.pktsize page < ETH_MIN_SIZE ∨ c.pktsize page > ETH_MAX_SIZE ∨
      c.hdr page 0 &&& RSR_PRX = 0))
    (μ : Nat → UInt8) (header buf : Nat) (bufsize : Int32)
    (hfit : ¬ (buf = 0 ∨ c.pktsize page > bufsize.toUInt32)) :
    ∃ c', c'.ram = c.ram ∧ c'.bnry = newBnry ne (c.hdr page 1) ∧ c'.fifo = [] ∧
      Ends machine { m with card := c, mem := μ } (ne_pio_read ne header buf bufsize)
        (c.pktsize page).toInt32
        { m with
          card := c'
          mem := recvMem ne c page buf (c.pktsize page)
            (Bytes.writeBytes μ header
              (c.block (page * DP_PAGESIZE.toUInt32).toUInt16 (getblockLen ne 4))) } := by
  subst hpg
  obtain ⟨c₁, h₁, hk⟩ := pio_read_hdr_start ha hq μ (nextPage ne c.bnry.toUInt32) header
  obtain ⟨c₂, h₂, e₂⟩ := ne_recv_copy_read ha h₁.fifo h₁.page (nextPage ne c.bnry.toUInt32) buf
    (c.pktsize (nextPage ne c.bnry.toUInt32))
  rw [recvMem_of_ram h₁.ram] at e₂
  exact ⟨{ c₂ with bnry := newBnry ne (c.hdr (nextPage ne c.bnry.toUInt32) 1) },
    h₂.ram.trans h₁.ram, rfl, h₂.fifo, pio_read_regs ha hq (Ends.ite_neg hne (hk
    (Ends.ite_neg hok (Ends.ite_neg hfit
      (e₂.bind (Ends.write_of (write_bnry_port ha h₂.fifo h₂.page _) (Ends.bind .pure .pure)))))))⟩

/-! ### Every run

`Ends.det` turns each path lemma into a statement about every run of `ne_pio_read`. -/

theorem ne_pio_read_bad_run (ha : Attached m ne) (hq : c.fifo = [])
    (hpg : nextPage ne c.bnry.toUInt32 = page) (hne : page ≠ c.curr.toUInt32)
    (hbad : c.pktsize page < ETH_MIN_SIZE ∨ c.pktsize page > ETH_MAX_SIZE ∨
      c.hdr page 0 &&& RSR_PRX = 0) {header buf : Nat} {bufsize : Int32} {r : Int32}
    {s' : Machine}
    (h : Ends machine { m with card := c, mem := μ } (ne_pio_read ne header buf bufsize) r s') :
    r = -1 ∧ s'.card.ReadOf c ∧
      s'.mem = Bytes.writeBytes μ header
        (c.block (page * DP_PAGESIZE.toUInt32).toUInt16 (getblockLen ne 4)) := by
  obtain ⟨c', hc', e⟩ := ne_pio_read_bad ha hq hpg hne hbad μ header buf bufsize
  obtain ⟨rfl, rfl⟩ := Ends.det e h
  exact ⟨rfl, hc', rfl⟩

theorem ne_pio_read_short_run (ha : Attached m ne) (hq : c.fifo = [])
    (hpg : nextPage ne c.bnry.toUInt32 = page) (hne : page ≠ c.curr.toUInt32)
    (hok : ¬ (c.pktsize page < ETH_MIN_SIZE ∨ c.pktsize page > ETH_MAX_SIZE ∨
      c.hdr page 0 &&& RSR_PRX = 0))
    {header buf : Nat} {bufsize : Int32} (hshort : buf = 0 ∨ c.pktsize page > bufsize.toUInt32)
    {r : Int32} {s' : Machine}
    (h : Ends machine { m with card := c, mem := μ } (ne_pio_read ne header buf bufsize) r s') :
    r = (c.pktsize page).toInt32 ∧ s'.card.ReadOf c ∧
      s'.mem = Bytes.writeBytes μ header
        (c.block (page * DP_PAGESIZE.toUInt32).toUInt16 (getblockLen ne 4)) := by
  obtain ⟨c', hc', e⟩ := ne_pio_read_short ha hq hpg hne hok μ header buf bufsize hshort
  obtain ⟨rfl, rfl⟩ := Ends.det e h
  exact ⟨rfl, hc', rfl⟩

theorem ne_pio_read_copy_run (ha : Attached m ne) (hq : c.fifo = [])
    (hpg : nextPage ne c.bnry.toUInt32 = page) (hne : page ≠ c.curr.toUInt32)
    (hok : ¬ (c.pktsize page < ETH_MIN_SIZE ∨ c.pktsize page > ETH_MAX_SIZE ∨
      c.hdr page 0 &&& RSR_PRX = 0))
    {header buf : Nat} {bufsize : Int32}
    (hfit : ¬ (buf = 0 ∨ c.pktsize page > bufsize.toUInt32)) {r : Int32} {s' : Machine}
    (h : Ends machine { m with card := c, mem := μ } (ne_pio_read ne header buf bufsize) r s') :
    r = (c.pktsize page).toInt32 ∧ s'.card.ram = c.ram ∧
      s'.card.bnry = newBnry ne (c.hdr page 1) ∧
      s'.mem = recvMem ne c page buf (c.pktsize page)
        (Bytes.writeBytes μ header
          (c.block (page * DP_PAGESIZE.toUInt32).toUInt16 (getblockLen ne 4))) := by
  obtain ⟨c', hram, hbnry, -, e⟩ := ne_pio_read_copy ha hq hpg hne hok μ header buf bufsize hfit
  obtain ⟨rfl, rfl⟩ := Ends.det e h
  exact ⟨rfl, hram, hbnry, rfl⟩

/-- `ne_pio_read` always returns on a quiet card: by the ring and the header, one of the
four paths above. -/
theorem ne_pio_read_returns (ha : Attached m ne) (hq : c.fifo = []) (header buf : Nat)
    (bufsize : Int32) :
    ∃ r s', Ends machine { m with card := c, mem := μ } (ne_pio_read ne header buf bufsize) r s' := by
  by_cases he : nextPage ne c.bnry.toUInt32 = c.curr.toUInt32
  · exact ⟨_, _, ne_pio_read_empty ha hq he header buf bufsize⟩
  by_cases hbad : c.pktsize (nextPage ne c.bnry.toUInt32) < ETH_MIN_SIZE ∨
      c.pktsize (nextPage ne c.bnry.toUInt32) > ETH_MAX_SIZE ∨
      c.hdr (nextPage ne c.bnry.toUInt32) 0 &&& RSR_PRX = 0
  · obtain ⟨_, _, e⟩ := ne_pio_read_bad ha hq rfl he hbad μ header buf bufsize
    exact ⟨_, _, e⟩
  by_cases hshort : buf = 0 ∨ c.pktsize (nextPage ne c.bnry.toUInt32) > bufsize.toUInt32
  · exact (ne_pio_read_short ha hq rfl he hbad μ header buf bufsize hshort).elim fun _ h => ⟨_, _, h.2⟩
  · exact (ne_pio_read_copy ha hq rfl he hbad μ header buf bufsize hshort).elim fun _ h => ⟨_, _, h.2.2.2⟩

/-- A bad header stays: the card after the failed read has the same ring and the same
header, so every later read fails on it again. -/
theorem ne_pio_read_bad_stuck (ha : Attached m ne)
    (hpg : nextPage ne c.bnry.toUInt32 = page) (hne : page ≠ c.curr.toUInt32)
    (hbad : c.pktsize page < ETH_MIN_SIZE ∨ c.pktsize page > ETH_MAX_SIZE ∨
      c.hdr page 0 &&& RSR_PRX = 0) {c' : Card} (hc' : c'.ReadOf c) (μ' : Nat → UInt8)
    (header buf : Nat) (bufsize : Int32) :
    ∃ c'', c''.ReadOf c ∧
      Ends machine { m with card := c', mem := μ' } (ne_pio_read ne header buf bufsize) (-1)
        { m with
          card := c''
          mem := Bytes.writeBytes μ' header
            (c.block (page * DP_PAGESIZE.toUInt32).toUInt16 (getblockLen ne 4)) } := by
  have hdr' : c'.hdr = c.hdr := by
    funext page i
    simp only [Card.hdr, hc'.ram]
  have hpk : c'.pktsize = c.pktsize := by
    funext page
    simp only [Card.pktsize, hdr']
  obtain ⟨c'', h'', e⟩ := ne_pio_read_bad ha hc'.fifo (by rw [hc'.bnry, hpg])
    (by rw [hc'.curr]; exact hne) (by rw [hpk, hdr']; exact hbad) μ' header buf bufsize
  rw [Card.block_of_ram hc'.ram] at e
  exact ⟨c'', h''.trans hc', e⟩

end Read

end Xv6.Eth

namespace Xv6.Eth

open Port

/-! ## Two rings of an NE1000

Board memory that holds in each byte the number of its page, with one packet header
written at the page after BNRY. -/

/-- Board memory that holds in each byte the number of its page. -/
def pageRam (a : Nat) : UInt8 := (a / 256).toUInt8

/-- A receive ring with BNRY `bnry` and CURR `curr` whose header at page `page` reads
`{ status, next, rbc0, rbc1 }`. -/
def ringCard (bnry curr : UInt8) (page : Nat) (status next rbc0 rbc1 : UInt8) : Card where
  ram := Function.update (Function.update (Function.update (Function.update pageRam
    (page * 256) status) (page * 256 + 1) next) (page * 256 + 2) rbc0) (page * 256 + 3) rbc1
  cr := CR_PS_P0 ||| CR_NO_DMA ||| CR_STA
  isr := 0
  bnry := bnry
  curr := curr
  crda := 0
  rbcr := 0
  fifo := []
  tpsr := 0
  tbcr := 0
  regs := fun _ => 0

/-- The NE1000 at port `0x300` with the card `c` and kernel memory zero. -/
def ringMachine (c : Card) : Machine :=
  { base := some 0x300, card := c, mem := fun _ => 0, sched := [] }

theorem attached_ringMachine (c : Card) : Attached (ringMachine c) ne1000 :=
  ⟨show some 0x300 = some ne1000.base.toUInt32.toNat by decide, by decide⟩

/-- The ring of `ne_pio_read_wrap_reads_past_ring`: BNRY 62, so the next packet is at
page 63, the last of the ring, with a header for 300 data bytes and `next` 45. -/
def wrapCard : Card := ringCard 62 45 63 RSR_PRX 45 0x30 0x01

/-- A 300-byte packet in the last page of the ring, `recv_stoppage - 1 = 63`: the copy
reads `(64 - 63) * 256` bytes from just after the header, which ends four bytes past the
ring, so `buf[252]` holds the byte at `0x4000`, outside the ring, where ring order has
the first byte of page 44. -/
theorem ne_pio_read_wrap_reads_past_ring :
    ∀ r s', Ends machine (ringMachine wrapCard)
        (ne_pio_read ne1000 0x1000 0x2000 1514) r s' →
      r = 300 ∧ s'.mem (0x2000 + 252) = pageRam 0x4000 ∧
        0x4000 = ne1000.recv_stoppage.toUInt32.toNat * 256 ∧
        ringAddr ne1000 63 252 = 0x2C00 ∧ pageRam 0x4000 ≠ pageRam 0x2C00 := by
  intro r s' h
  obtain ⟨rfl, -, -, hmem⟩ := ne_pio_read_copy_run (attached_ringMachine wrapCard)
    (show wrapCard.fifo = [] from rfl) (show nextPage ne1000 (62 : UInt8).toUInt32 = 63 by decide)
    (by decide) (by decide) (by decide) h
  refine ⟨by decide, ?_, by decide, by decide, by decide⟩
  rw [hmem, recvMem_wrap]
  all_goals decide

/-- The read of that packet does end. -/
theorem ne_pio_read_wrap_ends :
    ∃ r s', Ends machine (ringMachine wrapCard) (ne_pio_read ne1000 0x1000 0x2000 1514) r s' ∧
      r = 300 ∧ s'.mem (0x2000 + 252) = pageRam 0x4000 ∧
        0x4000 = ne1000.recv_stoppage.toUInt32.toNat * 256 ∧
        ringAddr ne1000 63 252 = 0x2C00 ∧ pageRam 0x4000 ≠ pageRam 0x2C00 := by
  obtain ⟨r, s', h⟩ : ∃ r s', Ends machine (ringMachine wrapCard)
      (ne_pio_read ne1000 0x1000 0x2000 1514) r s' :=
    ne_pio_read_returns (attached_ringMachine wrapCard) (show wrapCard.fifo = [] from rfl) 0x1000 0x2000 1514
  exact ⟨r, s', h, ne_pio_read_wrap_reads_past_ring r s' h⟩

/-- A ring whose next packet, after BNRY 63 and so at page 44, is a good 60-byte frame. -/
def shortCard : Card := ringCard 63 45 44 RSR_PRX 45 0x40 0x00

/-- The same ring with the receive status lacking `RSR_PRX`. -/
def badCard : Card := ringCard 63 45 44 0 45 0x40 0x00

/-- A read into a 10-byte buffer returns 60, more than was asked for, having copied
nothing and left BNRY, so the packet is neither delivered nor skipped; and a bad header
gives -1 without moving BNRY, so the next read fails on the same header again. -/
theorem ne_pio_read_unread_packet :
    (∀ r s', Ends machine (ringMachine shortCard) (ne_pio_read ne1000 0x1000 0x2000 10) r s' →
      r = 60 ∧ s'.card.bnry = shortCard.bnry ∧ ∀ i, s'.mem (0x2000 + i) = 0) ∧
    (∀ r s', Ends machine (ringMachine badCard) (ne_pio_read ne1000 0x1000 0x2000 1514) r s' →
      r = -1 ∧ s'.card.bnry = badCard.bnry ∧
        ∀ r' s'', Ends machine s' (ne_pio_read ne1000 0x1000 0x2000 1514) r' s'' → r' = -1) := by
  -- the header read writes `getblockLen ne1000 4 = 4` bytes at 0x1000, below the buffer
  have hlen : getblockLen ne1000 4 = 4 := by decide
  have hpg : nextPage ne1000 (63 : UInt8).toUInt32 = 44 := by decide
  constructor
  · intro r s' h
    obtain ⟨rfl, hc, hmem⟩ := ne_pio_read_short_run (attached_ringMachine shortCard)
      (show shortCard.fifo = [] from rfl) hpg (by decide) (by decide) (by decide) h
    refine ⟨by decide, hc.bnry, fun i => ?_⟩
    rw [hmem, Bytes.writeBytes_apply_of_ge (by rw [Card.length_block, hlen]; omega)]
  · intro r s' h
    obtain ⟨c', hc', e⟩ := ne_pio_read_bad (attached_ringMachine badCard)
      (show badCard.fifo = [] from rfl) hpg (by decide) (by decide) (fun _ => 0) 0x1000 0x2000 1514
    obtain ⟨rfl, rfl⟩ := Ends.det e h
    refine ⟨rfl, hc'.bnry, fun r' s'' h' => ?_⟩
    obtain ⟨c'', -, e'⟩ := ne_pio_read_bad_stuck (attached_ringMachine badCard) hpg (by decide)
      (by decide) hc' _ 0x1000 0x2000 1514
    exact (Ends.det e' h').1.symm

/-- The reads of `ne_pio_read_unread_packet` do end: the short read, the read of the bad
header, and a second read from the state the bad one leaves. -/
theorem ne_pio_read_unread_runs :
    (∃ r s', Ends machine (ringMachine shortCard) (ne_pio_read ne1000 0x1000 0x2000 10) r s' ∧
      r = 60 ∧ s'.card.bnry = shortCard.bnry) ∧
    (∃ r s', Ends machine (ringMachine badCard) (ne_pio_read ne1000 0x1000 0x2000 1514) r s' ∧
      r = -1 ∧ ∃ r' s'', Ends machine s' (ne_pio_read ne1000 0x1000 0x2000 1514) r' s'' ∧
        r' = -1) := by
  obtain ⟨hshort, hbad⟩ := ne_pio_read_unread_packet
  constructor
  · obtain ⟨r, s', h⟩ := ne_pio_read_returns (attached_ringMachine shortCard)
      (show shortCard.fifo = [] from rfl) 0x1000 0x2000 10
    exact ⟨r, s', h, (hshort r s' h).1, (hshort r s' h).2.1⟩
  · obtain ⟨r, s', h⟩ := ne_pio_read_returns (attached_ringMachine badCard)
      (show badCard.fifo = [] from rfl) 0x1000 0x2000 1514
    -- the state the failed read leaves is a quiet card, so a second read ends as well
    obtain ⟨c', hc', e⟩ := ne_pio_read_bad (attached_ringMachine badCard)
      (show badCard.fifo = [] from rfl) (show nextPage ne1000 (63 : UInt8).toUInt32 = 44 by decide)
      (by decide) (by decide) (fun _ => 0) 0x1000 0x2000 1514
    obtain ⟨rfl, rfl⟩ := Ends.det e h
    obtain ⟨r', s'', h'⟩ := ne_pio_read_returns (attached_ringMachine badCard) hc'.fifo
      0x1000 0x2000 1514
    exact ⟨-1, _, h, rfl, r', s'', h', (hbad _ _ h).2.2 r' s'' h'⟩

end Xv6.Eth
