import Mathlib
import Xv6.Lib.Reach
import Xv6.Lib.Word32

/-!
# The NE2000 transmit queue

`eth/ne.c` keeps two transmit buffers in the card's RAM, `sendq[0]` and `sendq[1]`,
each with a `filled` flag, and two `int` counters: `sendq_head`, bumped by every
packet `ne_pio_write` hands to the card, and `sendq_tail`, bumped by every
`ISR_PTX` (packet transmitted) that `ne_interrupt` sees. The header calls them
monotonic counters whose value modulo `SENDQ_LEN` is the buffer index.

The model keeps the fields of `ne_t` that `ne_init`, `ne_pio_write` and
`ne_interrupt` compute with, as 32-bit `Int32`s: signed overflow wraps, as the
compiled code does. An index outside `sendq` is an out-of-bounds access, which C
leaves undefined: the model's functions return `none` there. The register I/O of
these functions (the remote DMA of the packet, the transmit command, the ISR
acknowledgement) does not touch these fields and is left out here.

The system `NeSys` runs `ne_pio_write` calls and `ne_interrupt` runs, with a ghost
count of transmissions the card has not yet acknowledged; the environment sends a
PTX only for such a transmission. Replaying `2^31` packets (`sendqRound`) shows the
head counter wrapping negative, after which `sendq_head % SENDQ_LEN` is `-1`.
-/

namespace Xv6

/-- `#define DP_PAGESIZE 256` -/
def DP_PAGESIZE : Int32 := 256
/-- `#define SENDQ_PAGES 6` -/
def SENDQ_PAGES : Int32 := 6
/-- `#define SENDQ_LEN 2` -/
def SENDQ_LEN : Nat := 2
/-- `#define NE1000_START 0x2000` -/
def NE1000_START : Int32 := 0x2000
/-- `#define NE1000_SIZE 0x2000` -/
def NE1000_SIZE : Int32 := 0x2000
/-- `#define NE2000_START 0x4000` -/
def NE2000_START : Int32 := 0x4000
/-- `#define NE2000_SIZE 0x4000` -/
def NE2000_SIZE : Int32 := 0x4000
/-- `#define ISR_PTX 0x02` -/
def ISR_PTX : Int32 := 0x02
/-- `#define TRUE 1` -/
def TRUE : Int32 := 1
/-- `#define FALSE 0` -/
def FALSE : Int32 := 0

/-- One entry of `ne_t.sendq`. -/
structure SendBuf where
  filled : Int32
  sendpage : Int32

/-- The fields of `ne_t` that the buffer layout and the transmit queue use. -/
structure NeT where
  is16bit : Bool
  ramsize : Int32
  pages : Int32
  startaddr : Int32
  send_startpage : Int32
  send_stoppage : Int32
  recv_startpage : Int32
  recv_stoppage : Int32
  sendq : Fin SENDQ_LEN → SendBuf
  sendq_head : Int32
  sendq_tail : Int32

/-- `ne_init`'s assignments to the buffer layout and the transmit queue. -/
def ne_init (ne : NeT) : NeT :=
  let ramsize := if ne.is16bit then NE2000_SIZE else NE1000_SIZE
  let startaddr := if ne.is16bit then NE2000_START else NE1000_START
  let send_startpage := if ne.is16bit then NE2000_START / DP_PAGESIZE
    else NE1000_START / DP_PAGESIZE
  let pages := ramsize / DP_PAGESIZE
  let send_stoppage := send_startpage + SENDQ_PAGES * SENDQ_LEN.toInt32 - 1
  { ne with
    ramsize, startaddr, send_startpage, pages, send_stoppage
    recv_startpage := send_stoppage + 1
    recv_stoppage := send_startpage + pages
    sendq := fun i =>
      { sendpage := send_startpage + (i.val : Nat).toInt32 * SENDQ_PAGES, filled := 0 }
    sendq_head := 0
    sendq_tail := SENDQ_LEN.toInt32 - 1 }

/-- `sendq[q]` exists only for `0 ≤ q < SENDQ_LEN`; any other index is an
out-of-bounds access. -/
def sendqIndex (q : Int32) : Option (Fin SENDQ_LEN) :=
  if h : 0 ≤ q.toInt ∧ q.toInt < SENDQ_LEN then some ⟨q.toInt.toNat, by omega⟩ else none

/-- `ne_pio_write(ne, packet, size)`: the queue test, then (after the packet's
remote DMA) the buffer is marked filled and the head advances. Returns the new state
and the C return value: `0` when every buffer is busy, `size` otherwise. -/
def ne_pio_write (ne : NeT) (size : Int32) : Option (NeT × Int32) :=
  (sendqIndex (ne.sendq_head % SENDQ_LEN.toInt32)).map fun i =>
    if (ne.sendq i).filled ≠ 0 ∨ ne.sendq_head > ne.sendq_tail then (ne, 0)
    else
      ({ ne with
        sendq := Function.update ne.sendq i { ne.sendq i with filled := TRUE }
        sendq_head := ne.sendq_head + 1 }, size)

/-- The body of `ne_interrupt`'s loop for one value `isr` read from the ISR. -/
def ne_interrupt_isr (ne : NeT) (isr : Int32) : Option NeT :=
  if isr &&& ISR_PTX ≠ 0 then
    (sendqIndex ((ne.sendq_tail + 1) % SENDQ_LEN.toInt32)).map fun i =>
      { ne with
        sendq_tail := ne.sendq_tail + 1
        sendq := Function.update ne.sendq i { ne.sendq i with filled := FALSE } }
  else some ne

/-- `ne_interrupt`: its loop over the non-zero values the card returns from the ISR
(the loop ends at the first read of `0`). -/
def ne_interrupt (ne : NeT) : List Int32 → Option NeT
  | [] => some ne
  | isr :: rest => (ne_interrupt_isr ne isr).bind fun ne' => ne_interrupt ne' rest

/-! ## The driver and the card -/

/-- The driver state and the number of transmissions the card has started and not
yet acknowledged with a PTX (ghost). -/
structure NeSys where
  ne : NeT
  pending : Nat

/-- Events: a packet write, or an interrupt whose ISR reads give `isrs`. -/
inductive NeEvent where
  | write (size : Int32)
  | interrupt (isrs : List Int32)

/-- The PTX bits among a run of ISR values. -/
def ptxCount (isrs : List Int32) : Nat := (isrs.filter fun isr => isr &&& ISR_PTX ≠ 0).length

namespace NeSys

/-- After `ne_init`, with nothing sent. -/
def Init (s : NeSys) : Prop := (∃ ne, s.ne = ne_init ne) ∧ s.pending = 0

/-- The step function. A write that moved the head started a transmission; an
interrupt may report PTX only for transmissions still pending, each PTX
acknowledging the oldest one. -/
def next (s : NeSys) : NeEvent → Option NeSys
  | .write size => (ne_pio_write s.ne size).map fun r =>
      { ne := r.1, pending := if r.1.sendq_head = s.ne.sendq_head then s.pending else s.pending + 1 }
  | .interrupt isrs =>
      if (∀ isr ∈ isrs, isr ≠ 0) ∧ ptxCount isrs ≤ s.pending then
        (ne_interrupt s.ne isrs).map fun ne' => { ne := ne', pending := s.pending - ptxCount isrs }
      else none

end NeSys

/-! ## Two billion packets -/

/-- The index `ne_pio_write` computes from a head counter that has counted `m`
packets, as long as `m ≤ 2^31`: at `2^31` the counter reads `INT_MIN`, still even. -/
theorem sendqIndex_ofNat {m : Nat} (hm : m ≤ 2 ^ 31) :
    sendqIndex (Int32.ofNat m % SENDQ_LEN.toInt32) = some ⟨m % 2, Nat.mod_lt _ (by decide)⟩ := by
  have hmod : (Int32.ofNat m % SENDQ_LEN.toInt32).toInt = ((m % 2 : Nat) : Int) := by
    rcases Nat.lt_or_ge m (2 ^ 31) with hlt | hge
    · rw [Int32.toInt_mod, Int32.toInt_ofNat_of_lt hlt]
      have h2 : SENDQ_LEN.toInt32.toInt = 2 := by decide
      rw [h2, Int.tmod_eq_emod_of_nonneg (by omega)]
      omega
    · obtain rfl : m = 2 ^ 31 := by omega
      decide
  unfold sendqIndex
  rw [dif_pos (by rw [hmod]; unfold SENDQ_LEN; omega)]
  simp only [hmod, Int.toNat_natCast]

/-- The state after the first packet and `r` further rounds of one packet and its
PTX: one packet outstanding, in buffer `r % 2`, both counters at `r + 1`. -/
def sendqRound (ne0 : NeT) (r : Nat) : NeSys where
  ne := { ne0 with
    sendq := fun i => { ne0.sendq i with filled := if i.val = r % 2 then TRUE else FALSE }
    sendq_head := Int32.ofNat (r + 1)
    sendq_tail := Int32.ofNat (r + 1) }
  pending := 1

theorem sendq_fin_cases (i : Fin SENDQ_LEN) : i = ⟨0, by decide⟩ ∨ i = ⟨1, by decide⟩ := by
  obtain ⟨k, hk⟩ := i
  unfold SENDQ_LEN at hk
  rcases k with _ | _ | k
  · exact .inl rfl
  · exact .inr rfl
  · omega

/-- `ne_pio_write` with a free buffer `i` at the head takes the packet. -/
theorem ne_pio_write_free {ne : NeT} {i : Fin SENDQ_LEN}
    (hi : sendqIndex (ne.sendq_head % SENDQ_LEN.toInt32) = some i)
    (hfree : (ne.sendq i).filled = 0) (hle : ¬ ne.sendq_head > ne.sendq_tail) (size : Int32) :
    ne_pio_write ne size = some ({ ne with
      sendq := Function.update ne.sendq i { ne.sendq i with filled := TRUE }
      sendq_head := ne.sendq_head + 1 }, size) := by
  simp only [ne_pio_write, hi, Option.map_some, hfree, ne_eq, not_true_eq_false, hle, or_self,
    if_false]

/-- An interrupt whose one ISR read reports PTX frees the buffer after the tail. -/
theorem ne_interrupt_ptx {ne : NeT} {i : Fin SENDQ_LEN}
    (hi : sendqIndex ((ne.sendq_tail + 1) % SENDQ_LEN.toInt32) = some i) :
    ne_interrupt ne [ISR_PTX] = some { ne with
      sendq_tail := ne.sendq_tail + 1
      sendq := Function.update ne.sendq i { ne.sendq i with filled := FALSE } } := by
  have hptx : ISR_PTX &&& ISR_PTX ≠ 0 := by decide
  rw [ne_interrupt, ne_interrupt_isr, if_pos hptx, hi]
  rfl

theorem int32_ofNat_succ_ne (m : Nat) : Int32.ofNat (m + 1) ≠ Int32.ofNat m := by
  intro h
  have hbv : BitVec.ofNat 32 (m + 1) = BitVec.ofNat 32 m := congrArg Int32.toBitVec h
  have := congrArg BitVec.toNat hbv
  simp only [BitVec.toNat_ofNat] at this
  omega

/-- The first packet after `ne_init` goes into buffer 0. -/
theorem runEvents_first_packet (ne : NeT) :
    Reach.runEvents NeSys.next ⟨ne_init ne, 0⟩ [.write 1] =
      some (sendqRound (ne_init ne) 0) := by
  have hi : sendqIndex ((ne_init ne).sendq_head % SENDQ_LEN.toInt32) = some ⟨0, by decide⟩ :=
    @sendqIndex_ofNat 0 (by decide)
  have hle : ¬ (ne_init ne).sendq_head > (ne_init ne).sendq_tail := by
    show ¬ (0 : Int32) > SENDQ_LEN.toInt32 - 1
    decide
  simp only [Reach.runEvents_cons, Reach.runEvents_nil, NeSys.next,
    ne_pio_write_free hi rfl hle, Option.map_some, Option.bind_some, sendqRound]
  congr 2
  congr 1
  · funext i
    rcases sendq_fin_cases i with rfl | rfl <;> rfl


/-- Round `r` with one more packet handed to the card: both buffers filled, the
head one ahead of the tail. -/
def sendqHalf (ne0 : NeT) (r : Nat) : NeSys where
  ne := { ne0 with
    sendq := fun i => { ne0.sendq i with filled := TRUE }
    sendq_head := Int32.ofNat (r + 2)
    sendq_tail := Int32.ofNat (r + 1) }
  pending := 2

/-- In round `r`, buffer `(r + 1) % 2` is free and the counters are equal, so the
next packet is taken. -/
theorem next_write_round (ne0 : NeT) {r : Nat} (hr : r + 2 ≤ 2 ^ 31) :
    NeSys.next (sendqRound ne0 r) (.write 1) = some (sendqHalf ne0 r) := by
  have hi : sendqIndex ((sendqRound ne0 r).ne.sendq_head % SENDQ_LEN.toInt32) =
      some ⟨(r + 1) % 2, Nat.mod_lt _ (by decide)⟩ := sendqIndex_ofNat (by omega)
  have hfree : ((sendqRound ne0 r).ne.sendq ⟨(r + 1) % 2, Nat.mod_lt _ (by decide)⟩).filled = 0 := by
    simp only [sendqRound, FALSE, ite_eq_right_iff]
    omega
  have hle : ¬ (sendqRound ne0 r).ne.sendq_head > (sendqRound ne0 r).ne.sendq_tail :=
    Int32.lt_irrefl
  have hhead : (sendqRound ne0 r).ne.sendq_head + 1 = Int32.ofNat (r + 2) :=
    Word32.int32_ofNat_succ (r + 1)
  simp only [NeSys.next, ne_pio_write_free hi hfree hle 1, Option.map_some, hhead]
  have hpend : Int32.ofNat (r + 2) ≠ (sendqRound ne0 r).ne.sendq_head := int32_ofNat_succ_ne (r + 1)
  rw [if_neg hpend]
  congr 2
  congr 1
  funext i
  -- the buffer written is the one that was free; the other was filled in round `r`
  by_cases hj : i = ⟨(r + 1) % 2, Nat.mod_lt _ (by decide)⟩
  · subst hj
    rw [Function.update_self]
    rfl
  · have hv : i.val = r % 2 := by
      have hlt := i.isLt
      have hne : i.val ≠ (r + 1) % 2 := fun hc => hj (Fin.ext hc)
      unfold SENDQ_LEN at hlt
      omega
    rw [Function.update_of_ne hj]
    show { ne0.sendq i with filled := if i.val = r % 2 then TRUE else FALSE } = { ne0.sendq i with filled := TRUE }
    rw [if_pos hv]

/-- The PTX for the older packet frees its buffer, `(r + 2) % 2 = r % 2`: round
`r + 1` begins. -/
theorem next_ptx_half (ne0 : NeT) {r : Nat} (hr : r + 2 ≤ 2 ^ 31) :
    NeSys.next (sendqHalf ne0 r) (.interrupt [ISR_PTX]) = some (sendqRound ne0 (r + 1)) := by
  have hguard : (∀ isr ∈ [ISR_PTX], isr ≠ 0) ∧ ptxCount [ISR_PTX] ≤ (sendqHalf ne0 r).pending := by
    show (∀ isr ∈ [ISR_PTX], isr ≠ 0) ∧ ptxCount [ISR_PTX] ≤ 2
    refine ⟨fun isr hisr => ?_, by decide⟩
    rw [List.mem_singleton.mp hisr]
    decide
  have hj : sendqIndex (((sendqHalf ne0 r).ne.sendq_tail + 1) % SENDQ_LEN.toInt32) =
      some ⟨r % 2, Nat.mod_lt _ (by decide)⟩ := by
    show sendqIndex ((Int32.ofNat (r + 1) + 1) % SENDQ_LEN.toInt32) = _
    rw [Word32.int32_ofNat_succ, sendqIndex_ofNat (by omega)]
    congr 2
    omega
  simp only [NeSys.next, if_pos hguard, ne_interrupt_ptx hj, Option.map_some]
  congr 2
  congr 1
  · funext i
    -- the freed buffer is the older one; the other, filled, is round `r + 1`'s
    by_cases hi : i = ⟨r % 2, Nat.mod_lt _ (by decide)⟩
    · subst hi
      rw [Function.update_self]
      show _ = { ne0.sendq _ with filled := if r % 2 = (r + 1) % 2 then TRUE else FALSE }
      rw [if_neg (by omega)]
      rfl
    · have hv : i.val = (r + 1) % 2 := by
        have hlt := i.isLt
        have hne : i.val ≠ r % 2 := fun hc => hi (Fin.ext hc)
        unfold SENDQ_LEN at hlt
        omega
      rw [Function.update_of_ne hi]
      show { ne0.sendq i with filled := TRUE } = { ne0.sendq i with filled := if i.val = (r + 1) % 2 then TRUE else FALSE }
      rw [if_pos hv]
  · exact Word32.int32_ofNat_succ (r + 1)

/-- One round, a packet and then its PTX, leads from round `r` to round `r + 1`
while the tail counter stays within `2^31`. -/
theorem runEvents_round (ne0 : NeT) {r : Nat} (hr : r + 2 ≤ 2 ^ 31) :
    Reach.runEvents NeSys.next (sendqRound ne0 r) [.write 1, .interrupt [ISR_PTX]] =
      some (sendqRound ne0 (r + 1)) := by
  rw [Reach.runEvents_cons, next_write_round ne0 hr, Option.bind_some, Reach.runEvents_cons,
    next_ptx_half ne0 hr, Option.bind_some, Reach.runEvents_nil]

/-- A neutral `ne_t` to run `ne_init` on: an NE2000. -/
def neBlank : NeT where
  is16bit := true
  ramsize := 0
  pages := 0
  startaddr := 0
  send_startpage := 0
  send_stoppage := 0
  recv_startpage := 0
  recv_stoppage := 0
  sendq := fun _ => ⟨0, 0⟩
  sendq_head := 0
  sendq_tail := 0

/-- After `2^31` packets, each but the last followed by its PTX, the head counter
has wrapped past `INT_MAX`, and the buffer index `sendq_head % SENDQ_LEN` that the
next `ne_pio_write` uses is `-1`. -/
theorem sendq_head_index_negative :
    ∃ s, Reach.Reachable NeSys.Init (Reach.stepOf NeSys.next) s ∧
      (s.ne.sendq_head % SENDQ_LEN.toInt32).toInt = -1 := by
  let ne0 := ne_init neBlank
  have hinit : Reach.Reachable NeSys.Init (Reach.stepOf NeSys.next) ⟨ne0, 0⟩ :=
    Reach.Reachable.init ⟨⟨neBlank, rfl⟩, rfl⟩
  have hrounds := Reach.runEvents_replicate NeSys.next [.write 1, .interrupt [ISR_PTX]]
    (sendqRound ne0) (2 ^ 31 - 1) (fun j hj => runEvents_round ne0 (by omega))
  have hrun := Reach.runEvents_append NeSys.next ⟨ne0, 0⟩ [.write 1]
    (List.replicate (2 ^ 31 - 1) [.write 1, .interrupt [ISR_PTX]]).flatten
  rw [runEvents_first_packet, Option.bind_some, hrounds] at hrun
  have hreach := Reach.reachable_of_runEvents hinit hrun
  -- the last packet, into buffer 0 of a queue whose counters both read INT_MIN
  have hi : sendqIndex ((sendqRound ne0 (2 ^ 31 - 1)).ne.sendq_head % SENDQ_LEN.toInt32) =
      some ⟨(2 ^ 31 - 1 + 1) % 2, Nat.mod_lt _ (by decide)⟩ := sendqIndex_ofNat (by decide)
  have hfree : ((sendqRound ne0 (2 ^ 31 - 1)).ne.sendq
      ⟨(2 ^ 31 - 1 + 1) % 2, Nat.mod_lt _ (by decide)⟩).filled = 0 := by
    show (if (2 ^ 31 - 1 + 1) % 2 = (2 ^ 31 - 1) % 2 then TRUE else FALSE) = 0
    decide
  have hle : ¬ (sendqRound ne0 (2 ^ 31 - 1)).ne.sendq_head >
      (sendqRound ne0 (2 ^ 31 - 1)).ne.sendq_tail := Int32.lt_irrefl
  obtain ⟨s, hs⟩ : ∃ s, NeSys.next (sendqRound ne0 (2 ^ 31 - 1)) (.write 1) = some s :=
    ⟨_, by rw [NeSys.next, ne_pio_write_free hi hfree hle 1, Option.map_some]⟩
  have hhead : s.ne.sendq_head = Int32.ofNat (2 ^ 31 - 1 + 1) + 1 := by
    rw [NeSys.next, ne_pio_write_free hi hfree hle 1, Option.map_some, Option.some.injEq] at hs
    rw [← hs]
    rfl
  refine ⟨s, Reach.Reachable.step (.write 1) hreach hs, ?_⟩
  rw [hhead]
  decide

end Xv6
