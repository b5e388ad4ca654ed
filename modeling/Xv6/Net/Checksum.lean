import Xv6.Lib.OnesSum
import Xv6.Lib.Bytes

/-!
# The IPv4 and UDP checksums

`net/net.c` adds a header's 16-bit words into a 32-bit accumulator, folds it twice and
stores its complement. The words are loaded as `u16_t`, little-endian on x86, while RFC 1071
and RFC 768 take the words in network order; byte order does not matter to a
one's-complement sum (`OnesSum.beWords_sum_modEq`), so the stored value verifies all the
same.

`udp_checksum` adds the pseudo header field by field: each address as the two halves of a
32-bit load, the protocol through `htons`, the length as loaded. Each is the little-endian
word of the pseudo header's bytes (`pseudoBytes`), so the accumulator holds the sum of the
words of one byte string: pseudo header, UDP header, payload.
-/

namespace Xv6

open OnesSum

/-- `HTONS(x)`. -/
def htons (x : UInt16) : UInt16 := (x >>> 8) ||| (x <<< 8)

/-- `NTOHS(x)`, which is `HTONS(x)`. -/
def ntohs (x : UInt16) : UInt16 := htons x

/-- The loop of `checksum` over memory `m` from `buf`:
`while (size > 1) { sum += *buf++; size -= 2; }  if (size > 0) sum += *(u8_t*)buf;` -/
def checksumLoop (m : Nat → UInt8) (buf : Nat) (size : Int) (sum : UInt32) : UInt32 :=
  if size > 1 then checksumLoop m (buf + 2) (size - 2) (sum + (Bytes.getU16 m buf).toUInt32)
  else if size > 0 then sum + (m buf).toUInt32
  else sum
termination_by size.toNat

/-- `sum = (sum & 0xFFFF) + (sum >> 16)`. -/
def foldSum (sum : UInt32) : UInt32 := (sum &&& (0xFFFF : UInt32)) + (sum >>> (16 : UInt32))

/-- `checksum(buf, size)`: the loop, two folds, the complement as a `u16_t`. -/
def checksum (m : Nat → UInt8) (buf : Nat) (size : Int) : UInt16 :=
  (~~~foldSum (foldSum (checksumLoop m buf size 0))).toUInt16

/-- `(hdr->ver_ihl & 0xF) * 4`: the length in bytes of the IPv4 header at `hdr`. -/
def ihlBytes (m : Nat → UInt8) (hdr : Nat) : Nat := (m hdr &&& 0xF).toNat * 4

/-- `ip4_checksum(hdr)`: the checksum field (offset 10) cleared, then set to the checksum of
the header's bytes. -/
def ip4_checksum (m : Nat → UInt8) (hdr : Nat) : Nat → UInt8 :=
  let m := Bytes.setU16 m (hdr + 10) 0
  Bytes.setU16 m (hdr + 10) (checksum m hdr (ihlBytes m hdr))

/-- The payload loop of `udp_checksum`: the loop of `checksum`, except that the last byte is
added under `if (size)` rather than `if (size > 0)`. -/
def udpPayloadLoop (m : Nat → UInt8) (data : Nat) (size : Int) (sum : UInt32) : UInt32 :=
  if size > 1 then udpPayloadLoop m (data + 2) (size - 2) (sum + (Bytes.getU16 m data).toUInt32)
  else if size ≠ 0 then sum + (m data).toUInt32
  else sum
termination_by size.toNat

/-- The pseudo header's part of `udp_checksum`'s sum, for the IP header at `ip` and the UDP
header at `udp`: each address as two halves of a 32-bit load, `htons(ip->protocol)`, and
`udp->length` as loaded. -/
def udpPseudoSum (m : Nat → UInt8) (ip udp : Nat) : UInt32 :=
  let src := Bytes.getU32 m (ip + 12)
  let dst := Bytes.getU32 m (ip + 16)
  let lo : UInt32 := 0xFFFF
  0 + ((src >>> (16 : UInt32)) &&& lo) + (src &&& lo) +
    ((dst >>> (16 : UInt32)) &&& lo) + (dst &&& lo) +
    (htons (m (ip + 9)).toUInt16).toUInt32 + (Bytes.getU16 m (udp + 4)).toUInt32

/-- The UDP length `ntohs(udp->length)` of the UDP header at `udp`. -/
def udpLength (m : Nat → UInt8) (udp : Nat) : Nat := (ntohs (Bytes.getU16 m (udp + 4))).toNat

/-- `udp_checksum`'s accumulator once the UDP header's four words and the payload at `data`
are added. `size = ntohs(udp->length) - sizeof(*udp)` is computed in `size_t` and stored
in an `int`: the difference as an integer. -/
def udpSum (m : Nat → UInt8) (ip udp data : Nat) : UInt32 :=
  let sum := (List.range 4).foldl (fun sum i => sum + (Bytes.getU16 m (udp + 2 * i)).toUInt32)
    (udpPseudoSum m ip udp)
  let size : Int := (udpLength m udp : Int) - 8
  udpPayloadLoop m data size sum

/-- `udp_checksum(ip, udp, data)`: the checksum field (offset 6) cleared, the sum taken, and
its complement stored. -/
def udp_checksum (m : Nat → UInt8) (ip udp data : Nat) : Nat → UInt8 :=
  let m := Bytes.setU16 m (udp + 6) 0
  Bytes.setU16 m (udp + 6) (~~~foldSum (foldSum (udpSum m ip udp data))).toUInt16

/-- The pseudo header of RFC 768: source and destination address, a zero byte, the protocol,
the UDP length (as the UDP header holds it, in network order). -/
def pseudoBytes (m : Nat → UInt8) (ip udp : Nat) : List UInt8 :=
  Bytes.readBytes m (ip + 12) 8 ++ [0, m (ip + 9)] ++ Bytes.readBytes m (udp + 4) 2

/-! ## Words, folds and the loop -/

theorem toNat_htons (x : UInt16) : (htons x).toNat = x.toNat % 256 * 256 + x.toNat / 256 := by
  have hx := x.toNat_lt
  simp only [htons, UInt16.toNat_or, UInt16.toNat_shiftRight, UInt16.toNat_shiftLeft]
  show x.toNat >>> 8 ||| x.toNat <<< 8 % 2 ^ 16 = _
  rw [Nat.shiftRight_eq_div_pow, Nat.shiftLeft_eq]
  have h1 : x.toNat * 2 ^ 8 % 2 ^ 16 = (x.toNat % 256) <<< 8 := by
    rw [Nat.shiftLeft_eq]
    omega
  rw [h1, Nat.or_comm, ← Nat.shiftLeft_add_eq_or_of_lt (by omega), Nat.shiftLeft_eq]

theorem toNat_foldSum (s : UInt32) : (foldSum s).toNat = fold s.toNat := by
  have hs := s.toNat_lt
  simp only [foldSum, UInt32.toNat_add, UInt32.toNat_and, UInt32.toNat_shiftRight]
  show ((s.toNat &&& 65535) + (s.toNat >>> 16)) % 2 ^ 32 = _
  rw [show (65535 : Nat) = 2 ^ 16 - 1 from rfl, Nat.and_two_pow_sub_one_eq_mod,
    Nat.shiftRight_eq_div_pow, fold]
  omega

theorem toNat_not_toUInt16 {x : UInt32} (h : x.toNat < 65536) :
    (~~~x).toUInt16.toNat = 65535 - x.toNat := by
  have hsz : UInt32.size = 2 ^ 32 := rfl
  simp only [UInt32.toNat_toUInt16, UInt32.toNat_not, hsz]
  omega

theorem readBytes_two (m : Nat → UInt8) (a : Nat) : Bytes.readBytes m a 2 = [m a, m (a + 1)] := by
  simp [Bytes.readBytes, List.range_succ]

theorem toNat_getU16 (m : Nat → UInt8) (a : Nat) :
    (Bytes.getU16 m a).toNat = (m a).toNat + 256 * (m (a + 1)).toNat := by
  have := (m a).toNat_lt
  have := (m (a + 1)).toNat_lt
  simp only [Bytes.getU16, UInt16.toNat_ofNat']
  omega

/-- The accumulator of `checksum`'s loop is the exact sum of the words it adds, as long as
that stays below `2^32`. -/
theorem checksumLoop_toNat (m : Nat → UInt8) (buf : Nat) (size : Int) (sum : UInt32)
    (h0 : 0 ≤ size) (hlt : sum.toNat + 65535 * ((size.toNat + 1) / 2) < 2 ^ 32) :
    (checksumLoop m buf size sum).toNat =
      sum.toNat + (leWords (Bytes.readBytes m buf size.toNat)).sum := by
  fun_induction checksumLoop m buf size sum with
  | case1 buf size sum h1 ih =>
    have hsplit : Bytes.readBytes m buf size.toNat =
        m buf :: m (buf + 1) :: Bytes.readBytes m (buf + 2) (size - 2).toNat := by
      rw [show size.toNat = 2 + (size - 2).toNat by omega, Bytes.readBytes_add, readBytes_two]
      rfl
    have hw := toNat_getU16 m buf
    have hb0 := (m buf).toNat_lt
    have hb1 := (m (buf + 1)).toNat_lt
    have hstep : (sum + (Bytes.getU16 m buf).toUInt32).toNat =
        sum.toNat + ((m buf).toNat + 256 * (m (buf + 1)).toNat) := by
      rw [UInt32.toNat_add, UInt16.toNat_toUInt32, hw]
      omega
    rw [ih (by omega) (by rw [hstep]; omega), hsplit, leWords, List.sum_cons, hstep]
    omega
  | case2 buf size sum h1 h2 =>
    -- the odd byte
    have hs : size.toNat = 1 := by omega
    have hb := (m buf).toNat_lt
    rw [hs, show Bytes.readBytes m buf 1 = [m buf] by simp [Bytes.readBytes], leWords,
      UInt32.toNat_add, UInt8.toNat_toUInt32]
    simp only [List.sum_cons, List.sum_nil]
    omega
  | case3 buf size sum h1 h2 =>
    rw [show size.toNat = 0 by omega]
    simp [Bytes.readBytes, leWords]

/-- `checksum` stores the complement of the twice-folded sum of the words. -/
theorem toNat_checksum (m : Nat → UInt8) (buf : Nat) {n : Nat} (hn : 65535 * ((n + 1) / 2) < 2 ^ 32) :
    (checksum m buf n).toNat = 65535 - fold (fold (leWords (Bytes.readBytes m buf n)).sum) := by
  have hloop := checksumLoop_toNat m buf n 0 (by omega) (by simpa using hn)
  have hS := leWords_sum_le (Bytes.readBytes m buf n)
  simp only [Bytes.length_readBytes] at hS
  have hfold : (foldSum (foldSum (checksumLoop m buf n 0))).toNat =
      fold (fold (leWords (Bytes.readBytes m buf n)).sum) := by
    rw [toNat_foldSum, toNat_foldSum, hloop]
    simp
  rw [checksum, toNat_not_toUInt16 (by rw [hfold]; exact fold_fold_lt (by omega)), hfold]

theorem leWords_readBytes_two (m : Nat → UInt8) (a : Nat) :
    leWords (Bytes.readBytes m a 2) = [(Bytes.getU16 m a).toNat] := by
  rw [readBytes_two, leWords, leWords, toNat_getU16]

/-- The words of `n` bytes from `a` once the halfword at the even offset `k` is set to `v`:
`v` in place of the word that was there. -/
theorem leWords_sum_setU16 (m : Nat → UInt8) (a : Nat) {n k : Nat} (hk : k % 2 = 0)
    (hkn : k + 2 ≤ n) (v : UInt16) :
    (leWords (Bytes.readBytes (Bytes.setU16 m (a + k) v) a n)).sum + (Bytes.getU16 m (a + k)).toNat =
      (leWords (Bytes.readBytes m a n)).sum + v.toNat := by
  have hsplit : ∀ m' : Nat → UInt8, Bytes.readBytes m' a n = Bytes.readBytes m' a k ++
      (Bytes.readBytes m' (a + k) 2 ++ Bytes.readBytes m' (a + k + 2) (n - k - 2)) := by
    intro m'
    rw [← Bytes.readBytes_add, ← Bytes.readBytes_add]
    congr 1
    omega
  have hpre : Bytes.readBytes (Bytes.setU16 m (a + k) v) a k = Bytes.readBytes m a k :=
    Bytes.readBytes_congr fun _ _ _ => Bytes.setU16_apply_of_ne (by omega)
  have hpost : Bytes.readBytes (Bytes.setU16 m (a + k) v) (a + k + 2) (n - k - 2) =
      Bytes.readBytes m (a + k + 2) (n - k - 2) :=
    Bytes.readBytes_congr fun _ _ _ => Bytes.setU16_apply_of_ne (by omega)
  have hk' : ∀ m' : Nat → UInt8, (Bytes.readBytes m' a k).length % 2 = 0 := by
    intro m'
    rw [Bytes.length_readBytes]
    exact hk
  rw [hsplit, hsplit m, hpre, hpost, leWords_append _ (hk' m), leWords_append _ (hk' m),
    leWords_append _ (by simp), leWords_append _ (by simp), leWords_readBytes_two,
    leWords_readBytes_two,
    Bytes.getU16_setU16_self]
  simp only [List.sum_append, List.sum_cons, List.sum_nil]
  omega

/-- A nonzero first byte makes the network-order words of a string add up to nonzero. -/
theorem beWords_sum_pos : ∀ {bs : List UInt8} {b : UInt8}, b ≠ 0 → (beWords (b :: bs)).sum ≠ 0
  | _ :: _, b, hb => by
    have : b.toNat ≠ 0 := fun h => hb (UInt8.toNat_inj.mp h)
    simp only [beWords, List.sum_cons]
    omega
  | [], b, hb => by
    have : b.toNat ≠ 0 := fun h => hb (UInt8.toNat_inj.mp h)
    simp only [beWords, List.sum_cons, List.sum_nil]
    omega

/-- The stored complement makes the words of the string a multiple of `0xFFFF`: whatever
the byte order, the string then verifies. -/
theorem sum_eq_max_of_complement {bs : List UInt8} {S : Nat} (hb : (beWords bs).sum ≠ 0)
    (hS : S < 2 ^ 32) (hle : (leWords bs).sum = S + (65535 - fold (fold S))) :
    OnesSum.sum (beWords bs) = 65535 := by
  have hF : fold (fold S) ≡ S [MOD 65535] := (fold_modEq _).trans (fold_modEq S)
  have hFlt := fold_fold_lt hS
  have hle0 : (leWords bs).sum ≡ 0 [MOD 65535] := by
    rw [hle]
    unfold Nat.ModEq at hF ⊢
    omega
  have hbe : (beWords bs).sum ≡ 0 [MOD 65535] :=
    (beWords_sum_modEq _).trans (by simpa using hle0.mul_left 256)
  exact sum_eq_max (beWords_lt _) hb hbe

/-! ## The IPv4 header checksum -/

theorem toNat_and_low (b : UInt8) : (b &&& 0xF).toNat = b.toNat % 16 := by
  rw [UInt8.toNat_and]
  exact Nat.and_two_pow_sub_one_eq_mod _ 4

/-- `ip4_checksum` on a header of at least five words: the accumulator holds the exact sum of
the header's little-endian words, below `2^32`; two folds leave 16 bits; and the header then
verifies, its words taken in network order: their one's-complement sum is `0xFFFF`. -/
theorem ip4_checksum_verifies (m : Nat → UInt8) (hdr : Nat) (hihl : 5 ≤ (m hdr &&& 0xF).toNat) :
    (checksumLoop (Bytes.setU16 m (hdr + 10) 0) hdr (ihlBytes m hdr) 0).toNat =
        (leWords (Bytes.readBytes (Bytes.setU16 m (hdr + 10) 0) hdr (ihlBytes m hdr))).sum ∧
      (leWords (Bytes.readBytes (Bytes.setU16 m (hdr + 10) 0) hdr (ihlBytes m hdr))).sum < 2 ^ 32 ∧
      (foldSum (foldSum (checksumLoop (Bytes.setU16 m (hdr + 10) 0) hdr (ihlBytes m hdr) 0))).toNat ≤
        0xFFFF ∧
      OnesSum.sum (beWords (Bytes.readBytes (ip4_checksum m hdr) hdr (ihlBytes m hdr))) = 0xFFFF := by
  set m0 := Bytes.setU16 m (hdr + 10) 0
  set n := ihlBytes m hdr
  have hlow := toNat_and_low (m hdr)
  have hn : 20 ≤ n ∧ n ≤ 60 ∧ n % 2 = 0 := by
    simp only [n, ihlBytes]
    omega
  have hsum := leWords_sum_le (Bytes.readBytes m0 hdr n)
  rw [Bytes.length_readBytes] at hsum
  have hS : (leWords (Bytes.readBytes m0 hdr n)).sum < 2 ^ 32 := by omega
  have hloop := checksumLoop_toNat m0 hdr n 0 (by omega) (by simp only [UInt32.toNat_zero]; omega)
  rw [UInt32.toNat_zero, Nat.zero_add, Int.toNat_natCast] at hloop
  refine ⟨hloop, hS, ?_, ?_⟩
  · rw [toNat_foldSum, toNat_foldSum, hloop]
    exact Nat.le_of_lt_succ (fold_fold_lt hS)
  · have hm0 : m0 hdr = m hdr := Bytes.setU16_apply_of_ne (by omega)
    have hn0 : ihlBytes m0 hdr = n := by
      show (m0 hdr &&& 0xF).toNat * 4 = (m hdr &&& 0xF).toNat * 4
      rw [hm0]
    have hfinal : ip4_checksum m hdr = Bytes.setU16 m0 (hdr + 10) (checksum m0 hdr n) := by
      show Bytes.setU16 m0 (hdr + 10) (checksum m0 hdr (ihlBytes m0 hdr)) = _
      rw [hn0]
    -- the stored word stands where the cleared one stood
    have hw := @leWords_sum_setU16 m0 hdr n 10 (by decide) (by omega) (checksum m0 hdr n)
    rw [show Bytes.getU16 m0 (hdr + 10) = 0 from Bytes.getU16_setU16_self m (hdr + 10) 0,
      toNat_checksum m0 hdr (by omega)] at hw
    have hne : m hdr ≠ 0 := by
      rintro h
      rw [h] at hihl
      exact absurd hihl (by decide)
    -- the version and length byte is the first byte, and it is not zero
    obtain ⟨bs, hbs⟩ : ∃ bs, Bytes.readBytes (Bytes.setU16 m0 (hdr + 10) (checksum m0 hdr n)) hdr n =
        m hdr :: bs := by
      obtain ⟨k, hk⟩ : ∃ k, n = k + 1 := ⟨n - 1, by omega⟩
      refine ⟨Bytes.readBytes (Bytes.setU16 m0 (hdr + 10) (checksum m0 hdr n)) (hdr + 1) k, ?_⟩
      rw [hk, Nat.add_comm k 1, Bytes.readBytes_add, show Bytes.readBytes _ hdr 1 = [m hdr] by
        simp [Bytes.readBytes, Bytes.setU16_apply_of_ne, hm0]]
      rfl
    rw [hfinal]
    refine sum_eq_max_of_complement ?_ hS (by simpa using hw)
    rw [hbs]
    exact beWords_sum_pos hne

theorem ip4_checksum_verifies_minimal :
    5 ≤ ((fun a : Nat => if a = 0 then (0x45 : UInt8) else 0) 0 &&& 0xF).toNat ∧
      OnesSum.sum (beWords (Bytes.readBytes
        (ip4_checksum (fun a => if a = 0 then 0x45 else 0) 0) 0
        (ihlBytes (fun a => if a = 0 then 0x45 else 0) 0))) = 0xFFFF :=
  ⟨by decide, (ip4_checksum_verifies _ 0 (by decide)).2.2.2⟩

/-! ## The UDP checksum -/

/-- The payload loop of `udp_checksum` is `checksum`'s on a size that is not negative. -/
theorem udpPayloadLoop_eq (m : Nat → UInt8) (data : Nat) (size : Int) (sum : UInt32)
    (h0 : 0 ≤ size) : udpPayloadLoop m data size sum = checksumLoop m data size sum := by
  fun_induction udpPayloadLoop m data size sum with
  | case1 data size sum h1 ih =>
    rw [checksumLoop, if_pos h1, ih (by omega)]
  | case2 data size sum h1 h2 =>
    rw [checksumLoop, if_neg h1, if_pos (by omega)]
  | case3 data size sum h1 h2 =>
    rw [checksumLoop, if_neg h1, if_neg (by omega)]

/-- On a length field below 8 the size is negative, and `if (size)` still adds the byte at
`data`, where `checksum`'s `if (size > 0)` adds nothing. -/
theorem udpPayloadLoop_of_neg (m : Nat → UInt8) (data : Nat) {size : Int} (sum : UInt32)
    (h : size < 0) : udpPayloadLoop m data size sum = sum + (m data).toUInt32 := by
  rw [udpPayloadLoop, if_neg (by omega), if_pos (by omega)]

theorem toNat_getU32 (m : Nat → UInt8) (a : Nat) :
    (Bytes.getU32 m a).toNat = (m a).toNat + 256 * (m (a + 1)).toNat +
      65536 * (m (a + 2)).toNat + 16777216 * (m (a + 3)).toNat := by
  have := (m a).toNat_lt
  have := (m (a + 1)).toNat_lt
  have := (m (a + 2)).toNat_lt
  have := (m (a + 3)).toNat_lt
  simp only [Bytes.getU32, UInt32.toNat_ofNat']
  omega

theorem toNat_and_lo (x : UInt32) : (x &&& (0xFFFF : UInt32)).toNat = x.toNat % 65536 := by
  rw [UInt32.toNat_and]
  exact Nat.and_two_pow_sub_one_eq_mod _ 16

theorem toNat_shiftRight_and_lo (x : UInt32) :
    ((x >>> (16 : UInt32)) &&& (0xFFFF : UInt32)).toNat = x.toNat / 65536 % 65536 := by
  rw [toNat_and_lo, UInt32.toNat_shiftRight]
  show x.toNat >>> 16 % 65536 = _
  rw [Nat.shiftRight_eq_div_pow]

/-- The pseudo header's part of the sum is the sum of the pseudo header's words, with no
carry out of 32 bits. -/
theorem toNat_udpPseudoSum (m : Nat → UInt8) (ip udp : Nat) :
    (udpPseudoSum m ip udp).toNat = (leWords (pseudoBytes m ip udp)).sum := by
  have hsrc := toNat_getU32 m (ip + 12)
  have hdst := toNat_getU32 m (ip + 16)
  have h12 := (m (ip + 12)).toNat_lt
  have h13 := (m (ip + 12 + 1)).toNat_lt
  have h14 := (m (ip + 12 + 2)).toNat_lt
  have h15 := (m (ip + 12 + 3)).toNat_lt
  have h16 := (m (ip + 16)).toNat_lt
  have h17 := (m (ip + 16 + 1)).toNat_lt
  have h18 := (m (ip + 16 + 2)).toNat_lt
  have h19 := (m (ip + 16 + 3)).toNat_lt
  -- the six words the code adds
  have hs1 : ((Bytes.getU32 m (ip + 12) >>> (16 : UInt32)) &&& (0xFFFF : UInt32)).toNat =
      (m (ip + 12 + 2)).toNat + 256 * (m (ip + 12 + 3)).toNat := by
    rw [toNat_shiftRight_and_lo, hsrc]
    omega
  have hs2 : (Bytes.getU32 m (ip + 12) &&& (0xFFFF : UInt32)).toNat =
      (m (ip + 12)).toNat + 256 * (m (ip + 12 + 1)).toNat := by
    rw [toNat_and_lo, hsrc]
    omega
  have hd1 : ((Bytes.getU32 m (ip + 16) >>> (16 : UInt32)) &&& (0xFFFF : UInt32)).toNat =
      (m (ip + 16 + 2)).toNat + 256 * (m (ip + 16 + 3)).toNat := by
    rw [toNat_shiftRight_and_lo, hdst]
    omega
  have hd2 : (Bytes.getU32 m (ip + 16) &&& (0xFFFF : UInt32)).toNat =
      (m (ip + 16)).toNat + 256 * (m (ip + 16 + 1)).toNat := by
    rw [toNat_and_lo, hdst]
    omega
  have hp : (htons (m (ip + 9)).toUInt16).toNat = 256 * (m (ip + 9)).toNat := by
    rw [toNat_htons, UInt8.toNat_toUInt16]
    have := (m (ip + 9)).toNat_lt
    omega
  have hlen := toNat_getU16 m (udp + 4)
  have := (m (ip + 9)).toNat_lt
  have := (m (udp + 4)).toNat_lt
  have := (m (udp + 4 + 1)).toNat_lt
  have hbytes : pseudoBytes m ip udp = [m (ip + 12), m (ip + 12 + 1), m (ip + 12 + 2),
      m (ip + 12 + 3), m (ip + 16), m (ip + 16 + 1), m (ip + 16 + 2), m (ip + 16 + 3), 0,
      m (ip + 9), m (udp + 4), m (udp + 4 + 1)] := by
    simp only [pseudoBytes, Bytes.readBytes, List.range_succ, List.range_zero, List.map_cons,
      List.map_nil, List.nil_append, List.cons_append]
  simp only [udpPseudoSum, UInt32.toNat_add, hs1, hs2, hd1, hd2, UInt16.toNat_toUInt32, hp, hlen,
    UInt32.toNat_zero]
  -- six words below 2^16 never carry out of 32 bits: each mod goes, innermost first
  simp (disch := omega) only [Nat.mod_eq_of_lt]
  rw [hbytes]
  simp only [leWords, List.sum_cons, List.sum_nil, UInt8.toNat_zero]
  omega

theorem leWords_readBytes_eight (m : Nat → UInt8) (a : Nat) :
    leWords (Bytes.readBytes m a 8) = [(Bytes.getU16 m a).toNat, (Bytes.getU16 m (a + 2)).toNat,
      (Bytes.getU16 m (a + 4)).toNat, (Bytes.getU16 m (a + 6)).toNat] := by
  rw [show (8 : Nat) = 2 + (2 + (2 + 2)) from rfl, Bytes.readBytes_add, Bytes.readBytes_add,
    Bytes.readBytes_add, leWords_append _ (by simp), leWords_append _ (by simp),
    leWords_append _ (by simp), leWords_readBytes_two, leWords_readBytes_two,
    leWords_readBytes_two, leWords_readBytes_two]
  simp only [List.cons_append, List.nil_append, Nat.add_assoc]

/-- The loop over the UDP header's four words adds them to the accumulator. -/
theorem toNat_udpHeaderSum (m : Nat → UInt8) (udp : Nat) (sum : UInt32)
    (h : sum.toNat + 4 * 65535 < 2 ^ 32) :
    ((List.range 4).foldl (fun sum i => sum + (Bytes.getU16 m (udp + 2 * i)).toUInt32) sum).toNat =
      sum.toNat + (leWords (Bytes.readBytes m udp 8)).sum := by
  have h0 := (Bytes.getU16 m udp).toNat_lt
  have h2 := (Bytes.getU16 m (udp + 2)).toNat_lt
  have h4 := (Bytes.getU16 m (udp + 4)).toNat_lt
  have h6 := (Bytes.getU16 m (udp + 6)).toNat_lt
  show (sum + (Bytes.getU16 m udp).toUInt32 + (Bytes.getU16 m (udp + 2)).toUInt32 +
    (Bytes.getU16 m (udp + 4)).toUInt32 + (Bytes.getU16 m (udp + 6)).toUInt32).toNat = _
  rw [leWords_readBytes_eight]
  simp only [UInt32.toNat_add, UInt16.toNat_toUInt32, List.sum_cons, List.sum_nil]
  omega

/-- `udp_checksum`'s accumulator is the exact sum of the words of the pseudo header, the UDP
header and the payload, and that sum stays below `2^32`: it never overflows. -/
theorem toNat_udpSum (m : Nat → UInt8) (ip udp data : Nat) (hlen : 8 ≤ udpLength m udp) :
    (udpSum m ip udp data).toNat = (leWords (pseudoBytes m ip udp ++ Bytes.readBytes m udp 8 ++
      Bytes.readBytes m data (udpLength m udp - 8))).sum ∧
    (leWords (pseudoBytes m ip udp ++ Bytes.readBytes m udp 8 ++
      Bytes.readBytes m data (udpLength m udp - 8))).sum < 2 ^ 32 := by
  have hL : udpLength m udp < 65536 := (ntohs (Bytes.getU16 m (udp + 4))).toNat_lt
  have hP := leWords_sum_le (pseudoBytes m ip udp)
  have hH := leWords_sum_le (Bytes.readBytes m udp 8)
  have hD := leWords_sum_le (Bytes.readBytes m data (udpLength m udp - 8))
  have hlenP : (pseudoBytes m ip udp).length = 12 := by simp [pseudoBytes]
  simp only [hlenP, Bytes.length_readBytes] at hP hH hD
  rw [leWords_append _ (by simp [hlenP]), leWords_append _ (by rw [hlenP])]
  simp only [List.sum_append]
  have hhead := toNat_udpHeaderSum m udp (udpPseudoSum m ip udp)
    (by rw [toNat_udpPseudoSum]; omega)
  rw [toNat_udpPseudoSum] at hhead
  have hsize : (udpLength m udp : Int) - 8 = ((udpLength m udp - 8 : Nat) : Int) := by omega
  refine ⟨?_, by omega⟩
  show (udpPayloadLoop m data ((udpLength m udp : Int) - 8)
    ((List.range 4).foldl (fun sum i => sum + (Bytes.getU16 m (udp + 2 * i)).toUInt32)
      (udpPseudoSum m ip udp))).toNat = _
  rw [hsize, udpPayloadLoop_eq _ _ _ _ (by omega),
    checksumLoop_toNat _ _ _ _ (by omega) (by rw [hhead, Int.toNat_natCast]; omega), hhead,
    Int.toNat_natCast]

/-- `ntohs(udp->length)`: the length bytes read in network order. -/
theorem udpLength_eq (m : Nat → UInt8) (udp : Nat) :
    udpLength m udp = 256 * (m (udp + 4)).toNat + (m (udp + 4 + 1)).toNat := by
  have := (m (udp + 4)).toNat_lt
  have := (m (udp + 4 + 1)).toNat_lt
  rw [udpLength, ntohs, toNat_htons, toNat_getU16]
  omega

theorem pseudoBytes_congr {m m' : Nat → UInt8} {ip udp : Nat}
    (hsrc : ∀ i, ip + 12 ≤ i → i < ip + 12 + 8 → m i = m' i) (hp : m (ip + 9) = m' (ip + 9))
    (hlen : ∀ i, udp + 4 ≤ i → i < udp + 4 + 2 → m i = m' i) :
    pseudoBytes m ip udp = pseudoBytes m' ip udp := by
  rw [pseudoBytes, pseudoBytes, Bytes.readBytes_congr hsrc, Bytes.readBytes_congr hlen, hp]

/-- The pseudo header's last word, the UDP length, is part of every sum of the packet's
words in network order. -/
theorem udpLength_le_beWords (m : Nat → UInt8) (ip udp : Nat) (rest : List UInt8) :
    udpLength m udp ≤ (beWords (pseudoBytes m ip udp ++ rest)).sum := by
  have hlenP : (pseudoBytes m ip udp).length = 12 := by simp [pseudoBytes]
  rw [beWords_append _ (by rw [hlenP]), List.sum_append, udpLength_eq]
  have hlast : pseudoBytes m ip udp = (Bytes.readBytes m (ip + 12) 8 ++ [0, m (ip + 9)]) ++
      [m (udp + 4), m (udp + 4 + 1)] := by
    rw [pseudoBytes, readBytes_two]
  rw [hlast, beWords_append _ (by simp), beWords_append [0, m (ip + 9)] (by simp)]
  simp only [beWords, List.sum_append, List.sum_cons, List.sum_nil]
  omega

/-- The same word read little-endian: a UDP length of at least 8 makes the sum nonzero. -/
theorem leWords_udp_ne_zero (m : Nat → UInt8) (ip udp : Nat) (rest : List UInt8)
    (hlen : 8 ≤ udpLength m udp) : (leWords (pseudoBytes m ip udp ++ rest)).sum ≠ 0 := by
  have hlenP : (pseudoBytes m ip udp).length = 12 := by simp [pseudoBytes]
  have hlast : pseudoBytes m ip udp = (Bytes.readBytes m (ip + 12) 8 ++ [0, m (ip + 9)]) ++
      [m (udp + 4), m (udp + 4 + 1)] := by
    rw [pseudoBytes, readBytes_two]
  rw [udpLength_eq] at hlen
  rw [leWords_append _ (by rw [hlenP]), hlast, leWords_append _ (by simp),
    leWords_append [0, m (ip + 9)] (by simp)]
  simp only [leWords, List.sum_append, List.sum_cons, List.sum_nil]
  omega

/-- `udp_checksum` on a UDP length of at least 8 (a payload of `0` to `65527` bytes), with
the checksum field apart from the pseudo header's bytes of the IP header and from the
payload. The accumulator is the exact sum of the words of pseudo header, UDP header and
payload, below `2^32`; the packet then verifies, the one's-complement sum of those words in
network order (an odd payload padded with a zero byte) being `0xFFFF`; and the checksum
stored is `0` exactly when the sum of the words is a multiple of `0xFFFF`. -/
theorem udp_checksum_verifies (m : Nat → UInt8) (ip udp data : Nat) (hlen : 8 ≤ udpLength m udp)
    (hip : udp + 8 ≤ ip + 9 ∨ ip + 20 ≤ udp + 6)
    (hdata : udp + 8 ≤ data ∨ data + (udpLength m udp - 8) ≤ udp + 6) :
    let m0 := Bytes.setU16 m (udp + 6) 0
    let m' := udp_checksum m ip udp data
    let L := udpLength m udp - 8
    (udpSum m0 ip udp data).toNat =
        (leWords (pseudoBytes m0 ip udp ++ Bytes.readBytes m0 udp 8 ++ Bytes.readBytes m0 data L)).sum ∧
      (leWords (pseudoBytes m0 ip udp ++ Bytes.readBytes m0 udp 8 ++
        Bytes.readBytes m0 data L)).sum < 2 ^ 32 ∧
      OnesSum.sum (beWords (pseudoBytes m' ip udp ++ Bytes.readBytes m' udp 8 ++
        Bytes.readBytes m' data L)) = 0xFFFF ∧
      (Bytes.getU16 m' (udp + 6) = 0 ↔ (leWords (pseudoBytes m0 ip udp ++
        Bytes.readBytes m0 udp 8 ++ Bytes.readBytes m0 data L)).sum % 65535 = 0) := by
  intro m0 m' L
  have hl0 : udpLength m0 udp = udpLength m udp := by
    rw [udpLength, udpLength, Bytes.getU16_setU16_of_disjoint _ _ (by omega)]
  obtain ⟨hsum, hlt⟩ := toNat_udpSum m0 ip udp data (by rw [hl0]; exact hlen)
  rw [hl0] at hsum hlt
  set S := (leWords (pseudoBytes m0 ip udp ++ Bytes.readBytes m0 udp 8 ++
    Bytes.readBytes m0 data L)).sum with hS
  have hS0 : S ≠ 0 := by
    rw [hS, List.append_assoc]
    exact leWords_udp_ne_zero m0 ip udp _ (by rw [hl0]; exact hlen)
  -- the value stored
  set c : UInt16 := (~~~foldSum (foldSum (udpSum m0 ip udp data))).toUInt16 with hc
  have hfold : (foldSum (foldSum (udpSum m0 ip udp data))).toNat = fold (fold S) := by
    rw [toNat_foldSum, toNat_foldSum, hsum]
  have hFlt := fold_fold_lt hlt
  have hc' : c.toNat = 65535 - fold (fold S) := by
    rw [hc, toNat_not_toUInt16 (by rw [hfold]; exact hFlt), hfold]
  have hm' : m' = Bytes.setU16 m0 (udp + 6) c := rfl
  -- only the checksum field changed
  have hpseudo : pseudoBytes m' ip udp = pseudoBytes m0 ip udp := by
    rw [hm']
    exact pseudoBytes_congr (fun _ _ _ => Bytes.setU16_apply_of_ne (by omega))
      (Bytes.setU16_apply_of_ne (by omega)) (fun _ _ _ => Bytes.setU16_apply_of_ne (by omega))
  have hpay : Bytes.readBytes m' data L = Bytes.readBytes m0 data L := by
    rw [hm']
    exact Bytes.readBytes_congr fun _ _ _ => Bytes.setU16_apply_of_ne (by omega)
  have hw := @leWords_sum_setU16 m0 udp 8 6 (by decide) (by decide) c
  rw [show Bytes.getU16 m0 (udp + 6) = 0 from Bytes.getU16_setU16_self m (udp + 6) 0, ← hm'] at hw
  have hlenP : (pseudoBytes m0 ip udp).length = 12 := by simp [pseudoBytes]
  have hsplit : ∀ h : List UInt8, h.length = 8 → ∀ p : List UInt8,
      (leWords (pseudoBytes m0 ip udp ++ h ++ p)).sum =
        (leWords (pseudoBytes m0 ip udp)).sum + (leWords h).sum + (leWords p).sum := by
    intro h hh p
    rw [leWords_append _ (by simp [hlenP, hh]), leWords_append _ (by rw [hlenP]),
      List.sum_append, List.sum_append]
  have hS' := hsplit _ (Bytes.length_readBytes m0 udp 8) (Bytes.readBytes m0 data L)
  refine ⟨hsum, hlt, ?_, ?_⟩
  · rw [hpseudo, hpay]
    refine sum_eq_max_of_complement ?_ hlt ?_
    · have := udpLength_le_beWords m0 ip udp (Bytes.readBytes m' udp 8 ++ Bytes.readBytes m0 data L)
      rw [hl0, ← List.append_assoc] at this
      omega
    · rw [hsplit _ (Bytes.length_readBytes m' udp 8), ← hc']
      simp only [UInt16.toNat_zero, Nat.add_zero] at hw
      omega
  · rw [hm', Bytes.getU16_setU16_self]
    have hF : fold (fold S) ≡ S [MOD 65535] := (fold_modEq _).trans (fold_modEq S)
    have hF0 := fold_fold_ne_zero hS0
    unfold Nat.ModEq at hF
    constructor
    · intro h0
      have : c.toNat = 0 := by rw [h0]; rfl
      omega
    · intro h0
      apply UInt16.toNat_inj.mp
      rw [hc', UInt16.toNat_zero]
      omega

/-- A datagram whose checksum comes out as `0x0000`, the value RFC 768 reserves for "no
checksum": from `0.0.0.0` to `0.0.0.0`, protocol 17, ports 0, UDP length 10, payload
`0xFF 0xDA`. Its words add up to `0xFFFF` exactly, and `(u16)~sum` stores `0`. -/
theorem udp_checksum_stores_zero :
    ∃ (m : Nat → UInt8) (ip udp data : Nat), 8 ≤ udpLength m udp ∧
      (udp + 8 ≤ ip + 9 ∨ ip + 20 ≤ udp + 6) ∧
      (udp + 8 ≤ data ∨ data + (udpLength m udp - 8) ≤ udp + 6) ∧
      Bytes.getU16 (udp_checksum m ip udp data) (udp + 6) = 0 := by
  let m : Nat → UInt8 := fun a =>
    if a = 9 then 17 else if a = 25 then 10 else if a = 28 then 0xFF else if a = 29 then 0xDA else 0
  have hlen : 8 ≤ udpLength m 20 := by decide
  refine ⟨m, 0, 20, 28, hlen, by decide, by decide, ?_⟩
  refine ((udp_checksum_verifies m 0 20 28 hlen (by decide) (by decide)).2.2.2).mpr ?_
  decide

end Xv6
