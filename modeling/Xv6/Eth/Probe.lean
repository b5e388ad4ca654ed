import Xv6.Eth.Xmit

/-!
# The probe and the device entry points

`ethinit` probes the seven ports of `ethPorts`, each from a zeroed `ne` with the port as
its base, and stops at the first card it finds. The device entry points use the static
`ne` whatever the probe found: `ethread` and `ethwrite` go straight to the driver, and
`ethioctl` tests `ne.base` and the ring layout.

This file runs them on a bus with no card, where a read of any port gives `0xFF` and a
write goes nowhere. Every probe then fails at its first read, `ethinit` leaves the `ne`
of the last probe, with base `0x360` and no ring, and `ethread` on it still drives the
card's registers (`eth_unprobed_port_io`).
-/

namespace Xv6.Eth

open Port

section Empty

variable {m : Machine} {μ : Nat → UInt8}

/-- No card answers: a read of any port gives `0xFF`. -/
theorem read_port_empty (hb : m.base = none) (hq : m.card.fifo = []) (p : UInt16) :
    machine.read { m with mem := μ } (.port p) = (0xFF, { m with mem := μ }) := by
  have hq' : ({ m with mem := μ } : Machine).card.fifo = [] := hq
  simp only [machine, Machine.read, Machine.tick_of_quiet hq']
  simp [Machine.offset, hb]

/-- No card answers: a write to any port is lost. -/
theorem write_port_empty (hb : m.base = none) (hq : m.card.fifo = []) (p : UInt16) (v : UInt8) :
    machine.write { m with mem := μ } (.port p) v = { m with mem := μ } := by
  have hq' : ({ m with mem := μ } : Machine).card.fifo = [] := hq
  simp only [machine, Machine.write, Machine.tick_of_quiet hq']
  simp [Machine.offset, hb]

/-- `ne_probe` with no card: `inb(ne->base)` reads `0xFF`, and the probe fails at once. -/
theorem ne_probe_empty (hb : m.base = none) (hq : m.card.fifo = []) (ne : Ne) :
    Ends machine { m with mem := μ } (ne_probe ne) (FALSE, ne) { m with mem := μ } :=
  Ends.read_of (read_port_empty hb hq _) (Ends.bind .pure (Ends.ite_pos rfl .pure))

/-- The probe loop with no card: every probe fails, and the loop keeps the `ne` of the
last one, zeroed apart from its base. -/
theorem ethinitLoop_empty (hb : m.base = none) (hq : m.card.fifo = []) (ports : List Int32) :
    ∀ ne : Ne, Ends machine { m with mem := μ } (ethinitLoop ports ne)
      (ports.foldl (fun _ port => { Ne.zero with base := port }) ne) { m with mem := μ } := by
  induction ports with
  | nil => exact fun ne => .pure
  | cons port ports ih =>
    intro ne
    exact (ne_probe_empty hb hq _).bind (Ends.ite_neg (by decide) (ih _))

/-- `ethinit` with no card: the static `ne` is the zeroed one of the last port probed. -/
theorem ethinit_empty (hb : m.base = none) (hq : m.card.fifo = []) (ne : Ne) :
    Ends machine { m with mem := μ } (ethinit ne) { Ne.zero with base := 0x360 }
      { m with mem := μ } :=
  ethinitLoop_empty hb hq ethPorts ne

/-- `rep insb` with no card: `0xFF` for every byte. -/
theorem insbN_empty (hb : m.base = none) (hq : m.card.fifo = []) (port : UInt16) (n : Nat) :
    ∀ (dst : Nat) (μ : Nat → UInt8), Ends machine { m with mem := μ } (insbN port dst n) ()
      { m with mem := Bytes.writeBytes μ dst (List.replicate n 0xFF) } := by
  induction n with
  | zero =>
    intro dst μ
    rw [List.replicate_zero, Bytes.writeBytes_nil]
    exact .pure
  | succ n ih =>
    intro dst μ
    rw [List.replicate_succ, Bytes.writeBytes_cons]
    exact Ends.read_of (read_port_empty hb hq port) (Ends.write_of (write_mem hq dst 0xFF) (ih _ _))

/-- The register writes of `rdmaStart` are lost with no card. -/
theorem rdmaStart_empty (hb : m.base = none) (hq : m.card.fifo = []) (ne : Ne) (mode : UInt8)
    (addr : UInt16) (size : Int32) :
    Ends machine { m with mem := μ } (rdmaStart ne mode addr size) () { m with mem := μ } :=
  Ends.write_of (write_port_empty hb hq _ _) (Ends.write_of (write_port_empty hb hq _ _)
    (Ends.write_of (write_port_empty hb hq _ _) (Ends.write_of (write_port_empty hb hq _ _)
    (Ends.write_of (write_port_empty hb hq _ _) .pure))))

/-- `ne_getblock` on an NE1000 with no card: the bytes read are all `0xFF`. -/
theorem ne_getblock_empty (hb : m.base = none) (hq : m.card.fifo = []) {ne : Ne}
    (h8 : ne.is16bit = false) (addr : UInt16) (size : Int32) (dst : Nat) :
    Ends machine { m with mem := μ } (ne_getblock ne addr size dst) ()
      { m with mem := Bytes.writeBytes μ dst (List.replicate size.toUInt32.toNat 0xFF) } :=
  (rdmaStart_empty hb hq ne _ addr size).bind
    (Ends.ite_neg (show ¬ (ne.is16bit = true) by simp [h8]) (insbN_empty hb hq _ _ dst μ))

/-- `ne_pio_read` on an NE1000 with no card, where the page after the boundary `0xFF`
is not `0xFF`: CURR and BNRY read `0xFF`, so the ring looks non-empty, and the header
read gives `0xFFFF` for the byte count, which fails the size test. -/
theorem ne_pio_read_no_card (hb : m.base = none) (hq : m.card.fifo = []) {ne : Ne}
    (h8 : ne.is16bit = false) (hpage : nextPage ne (0xFF : UInt8).toUInt32 ≠ (0xFF : UInt8).toUInt32)
    (header buf : Nat) (bufsize : Int32) :
    Ends machine { m with mem := μ } (ne_pio_read ne header buf bufsize) (-1)
      { m with mem := Bytes.writeBytes μ header (List.replicate 4 0xFF) } := by
  refine Ends.write_of (write_port_empty hb hq _ _) (Ends.read_of (read_port_empty hb hq _) ?_)
  refine Ends.write_of (write_port_empty hb hq _ _) (Ends.read_of (read_port_empty hb hq _) ?_)
  refine Ends.ite_neg hpage ((ne_getblock_empty hb hq h8 _ 4 header).bind ?_)
  -- the four header bytes come back from kernel memory
  have hld : ∀ i < 4, machine.read
      { m with mem := Bytes.writeBytes μ header (List.replicate 4 0xFF) } (.mem (header + i)) =
      (0xFF, { m with mem := Bytes.writeBytes μ header (List.replicate 4 0xFF) }) := by
    intro i hi
    rw [read_mem hq, Bytes.writeBytes_apply_mem (by omega) (by simp; omega)]
    simp only [List.getElem_replicate]
  refine Ends.read_of (hld 0 (by decide)) (Ends.read_of (hld 1 (by decide))
    (Ends.read_of (hld 2 (by decide)) (Ends.read_of (hld 3 (by decide)) ?_)))
  exact Ends.bind .pure (Ends.ite_pos (show pktsizeOf 0xFF 0xFF < ETH_MIN_SIZE ∨
    pktsizeOf 0xFF 0xFF > ETH_MAX_SIZE ∨ (0xFF : UInt8) &&& RSR_PRX = 0 by decide) .pure)

/-- With no card answering, the probe loop fails everywhere and leaves the static `ne` at
base `0x360` with no ring; `ethread` on it drives the command register and fails. -/
theorem ethinit_no_card_read (hb : m.base = none) (hq : m.card.fifo = []) (μ : Nat → UInt8)
    (ne : Ne) (header p : Nat) (n : Int32) :
    ∀ ne' s', Ends machine { m with mem := μ } (ethinit ne) ne' s' →
      ne' = { Ne.zero with base := 0x360 } ∧
        ∀ r s'' t, Runs machine s' (ethread ne' header p n) r s'' t →
          r = -1 ∧ t.head? = some (.write (.port (ne'.reg DP_CR)) CR_PS_P1) := by
  intro ne' s' h
  obtain ⟨rfl, rfl⟩ := Ends.det (ethinit_empty hb hq ne) h
  refine ⟨rfl, fun r s'' t hr => ⟨?_, Runs.head_of_write hr⟩⟩
  exact (Ends.det (ne_pio_read_no_card hb hq rfl (by decide) header p n) ⟨t, hr⟩).1.symm

end Empty

/-- An ISA bus with nothing on it. -/
def emptyBus : Machine := { base := none, card := idleCard, mem := fun _ => 0, sched := [] }

/-- With no card on the bus, `ethinit` leaves the static `ne` at base `0x360`, so
`ethioctl`'s `ne.base == 0` test does not fire (only its `ne.pages == 0` test does), and
`ethread`, called without any check, still drives the card's command register in every
run before it fails. -/
theorem eth_unprobed_port_io (ne : Ne) (header p : Nat) (n : Int32) :
    ∀ ne' s', Ends machine emptyBus (ethinit ne) ne' s' →
      ne'.base = 0x360 ∧ ne'.base ≠ 0 ∧ ethioctl ne' ETH_IPC_SETUP = -1 ∧
        ∀ r s'' t, Runs machine s' (ethread ne' header p n) r s'' t →
          r = -1 ∧ t.head? = some (.write (.port (ne'.reg DP_CR)) CR_PS_P1) := by
  intro ne' s' h
  obtain ⟨rfl, hread⟩ := ethinit_no_card_read (show emptyBus.base = none from rfl)
    (show emptyBus.card.fifo = [] from rfl) (fun _ => 0) ne header p n ne' s' h
  exact ⟨rfl, by decide, by decide, hread⟩

/-- `ethinit` on the empty bus does end. -/
theorem eth_unprobed_ends :
    ∃ ne' s', Ends machine emptyBus (ethinit Ne.zero) ne' s' ∧
      ne'.base = 0x360 ∧ ne'.base ≠ 0 ∧ ethioctl ne' ETH_IPC_SETUP = -1 ∧
        ∀ r s'' t, Runs machine s' (ethread ne' 0x1000 0x2000 1514) r s'' t →
          r = -1 ∧ t.head? = some (.write (.port (ne'.reg DP_CR)) CR_PS_P1) := by
  have e : Ends machine emptyBus (ethinit Ne.zero) { Ne.zero with base := 0x360 } emptyBus :=
    ethinit_empty (show emptyBus.base = none from rfl) (show emptyBus.card.fifo = [] from rfl) Ne.zero
  exact ⟨_, _, e, eth_unprobed_port_io Ne.zero 0x1000 0x2000 1514 _ _ e⟩

end Xv6.Eth
