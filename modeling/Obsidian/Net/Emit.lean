import Obsidian.Net.Checksum

/-!
# What goes on the wire

Packets of `ipv4_send` and segments of the TCP functions, octet by octet. Both store the
checksum as a little-endian word, so that it stands on the wire with its octets
swapped; the TCP functions store the sequence numbers in the same way, and their
checksum leaves the payload out.
-/
namespace Obsidian.Net
open Lib Lib.Bytes Lib.OnesSum

/-! ## IPv4 -/

/-- The big-endian halves of an address. -/
def halves (ip : Nat) : Nat := ip / 65536 + ip % 65536

theorem lenField_eq {n : Nat} (h : n < 65536) :
    u16 ((n &&& 0xFF) <<< 8) ||| n >>> 8 &&& 0xFF = swap16 n := by
  have hlow : n &&& 0xFF = n % 256 := Nat.and_two_pow_sub_one_eq_mod n 8
  have hhigh : n >>> 8 &&& 0xFF = n / 256 := by
    rw [show (0xFF : Nat) = 2 ^ 8 - 1 from rfl, Nat.and_two_pow_sub_one_eq_mod,
      Nat.shiftRight_eq_div_pow]
    omega
  rw [hlow, hhigh, u16_of_lt (by omega), lor_octet (by omega), swap16]

theorem lenField_narrow (n : Nat) : u16 (n >>> 8 &&& 0xFF) = n >>> 8 &&& 0xFF :=
  u16_of_lt (Nat.lt_of_le_of_lt Nat.and_le_right (by decide))

theorem be16_address (b : Bytes) (i : Nat) {ip : Nat} (h : ip < 4294967296) :
    be16 (put32 b i (bswap32 ip)) i = ip / 65536 ∧ be16 (put32 b i (bswap32 ip))
    (i + 2) = ip % 65536 := by
  have hsmall : ip / 65536 < 65536 := by omega
  constructor
  · rw [be16_put32, bswap32_eq h, swap32_mod h, swap16_swap16 hsmall]
  · rw [be16_put32_high, bswap32_eq h, swap32_div h,
      Nat.mod_eq_of_lt (swap16_lt (Nat.mod_lt _ (by decide))),
      swap16_swap16 (Nat.mod_lt _ (by decide))]

theorem words_twenty (b : Bytes) :
    (words (toList b 0 20)).sum =
    be16 b 0 + be16 b 2 + be16 b 4 + be16 b 6 + be16 b 8 + be16 b 10 + be16 b 12 +
    be16 b 14 + be16 b 16 + be16 b 18 := by
  simp only [words_toList, List.sum_cons, Nat.reduceAdd]
  simp only [toList, words, List.sum_nil]
  omega

/-- The sum of what `ipv4_send` is given, as it enters the header. -/
def ipv4Sum (localIp dst proto segLen : Nat) : Nat :=
  0x4500 + (ipv4HdrLen + segLen) + (0x4000 + proto) + halves localIp + halves dst

section ipv4

variable {localIp dst proto segLen : Nat}

theorem ipv4Hdr_words (hip : localIp < 4294967296) (hdst : dst < 4294967296) (hproto : proto < 256)
    (hlen : segLen ≤ 1480) (c : Nat) :
    (words (toList (put16 (ipv4Hdr localIp dst proto segLen) 10 c) 0 20)).sum =
      ipv4Sum localIp dst proto segLen + swap16 (c % 65536) := by
  have htotal : segLen + ipv4HdrLen < 65536 := by
    simp only [ipv4HdrLen]
    omega
  have hsrc := fun b => be16_address b 12 hip
  have hto := fun b => be16_address b 16 hdst
  have hlife : ∀ b, be16 (put8 (put8 b 8 64) 9 proto) 8 = 0x4000 + proto := fun b => by
    rw [be16_put8 b 8 64 proto, Nat.mod_eq_of_lt hproto]
  have hfirst : be16 (put8 zero 0 0x45) 0 = 0x4500 := rfl
  rw [words_twenty, ipv4Hdr]
  rw [lenField_narrow, lenField_eq htotal]
  simp (disch := omega) only [be16_put16, be16_put16_ne, be16_put8_ne, be16_put32_ne, hfirst,
    hlife, (hsrc _).1,
    (hsrc _).2, (hto _).1, (hto _).2, Nat.mod_eq_of_lt (swap16_lt htotal), swap16_swap16 htotal]
  rw [ipv4Sum, halves, halves, show be16 zero 4 = 0 from rfl, show be16 zero 6 = 0 from rfl]
  omega

theorem ipv4Csum_stored (hip : localIp < 4294967296) (hdst : dst < 4294967296)
    (hproto : proto < 256) (hlen : segLen ≤ 1480) :
    ∃ r, inetCsum (ipv4Hdr localIp dst proto segLen) ipv4HdrLen zero 0 = 65535 - r ∧
      Folds (ipv4Sum localIp dst proto segLen) r := by
  obtain ⟨r, hcsum, folds⟩ := inetCsum_folds (ipv4Hdr localIp dst proto segLen) zero
    (show ipv4HdrLen < 65536 by decide) (show 0 < 65536 by decide)
  refine ⟨r, hcsum, ?_⟩
  -- the header is summed with its checksum field zero
  have hfield : (words (toList (ipv4Hdr localIp dst proto segLen) 0 20)).sum =
      (words (toList (put16 (ipv4Hdr localIp dst proto segLen) 10 0) 0 20)).sum := by
    rw [words_twenty, words_twenty, be16_put16]
    simp (disch := omega) only [be16_put16_ne]
    have hzero : be16 (ipv4Hdr localIp dst proto segLen) 10 = 0 := by
      simp (disch := omega) only [ipv4Hdr, be16_put16_ne, be16_put8_ne, be16_put32_ne]
      rfl
    rw [hzero]
    rfl
  rw [show ipv4HdrLen = 20 from rfl, hfield, ipv4Hdr_words hip hdst hproto hlen] at folds
  simpa [toList, words, swap16] using folds

end ipv4

/-- An IPv4 packet with a header of 20 octets that verifies, followed by a segment. -/
structure ValidPacket (pkt seg : Bytes) (segLen : Nat) : Prop where
  sum : onesSum (words (toList pkt 0 20)) = 0xFFFF
  length : be16 pkt 2 = 20 + segLen
  payload : ∀ i, i < segLen → pkt (20 + i) = seg i

theorem ipv4Packet_header (localIp dst proto : Nat) (seg : Bytes) (segLen : Nat) :
    Agree (ipv4Packet localIp dst proto seg segLen) (put16 (ipv4Hdr localIp dst proto segLen) 10
      (inetCsum (ipv4Hdr localIp dst proto segLen) ipv4HdrLen zero 0)) 0 20 := by
  intro i hlow hi
  rw [ipv4Packet, copy_agree _ _ _ _ _ 0 20 (Or.inl (by decide)) i hlow hi]
  have inside := copy_inside zero 0 (put16 (ipv4Hdr localIp dst proto segLen) 10
      (inetCsum (ipv4Hdr localIp dst proto segLen) ipv4HdrLen zero 0)) 0 ipv4HdrLen i hi
  simpa only [Nat.zero_add] using inside

/-- A packet verifies when the sum of its header is the same in both byte orders. -/
theorem ipv4Packet_valid_iff {localIp dst proto segLen : Nat} (seg : Bytes)
    (hip : localIp < 4294967296) (hdst : dst < 4294967296) (hproto : proto < 256)
    (hlen : segLen ≤ 1480) :
    ValidPacket (ipv4Packet localIp dst proto seg segLen) seg segLen ↔
    257 ∣ ipv4Sum localIp dst proto segLen := by
  obtain ⟨r, hcsum, folds⟩ := ipv4Csum_stored hip hdst hproto hlen
  have header := ipv4Packet_header localIp dst proto seg segLen
  have hwords : toList (ipv4Packet localIp dst proto seg segLen) 0 20 =
      toList (put16 (ipv4Hdr localIp dst proto segLen) 10 (65535 - r)) 0 20 := by
    apply toList_congr
    intro k hk
    rw [header (0 + k) (by omega) (by omega), hcsum]
  have hsum := ipv4Hdr_words hip hdst hproto hlen (65535 - r)
  have hpos : 0 < ipv4Sum localIp dst proto segLen := by
    unfold ipv4Sum
    omega
  have hsmall : 65535 - r < 65536 := by omega
  rw [Nat.mod_eq_of_lt hsmall] at hsum
  have alone := swapped_checksum_alone_iff folds
  have verifies : onesSum (words (toList (ipv4Packet localIp dst proto seg segLen) 0 20)) = 0xFFFF ↔
      257 ∣ ipv4Sum localIp dst proto segLen := by
    rw [hwords, onesSum_eq_ones_iff (words_lt _), hsum, Nat.dvd_iff_mod_eq_zero, ← alone]
    constructor
    · exact And.right
    · exact fun h => ⟨by omega, h⟩
  constructor
  · exact fun valid => verifies.mp valid.sum
  · intro swaps
    refine ⟨verifies.mpr swaps, ?_, ?_⟩
    · have htotal : segLen + ipv4HdrLen < 65536 := by
        simp only [ipv4HdrLen]
        omega
      rw [be16_congr fun i hlow hhigh => header i (by omega) (by omega), be16_put16_ne _ (by omega),
        ipv4Hdr]
      rw [lenField_narrow, lenField_eq htotal]
      simp (disch := omega) only [be16_put16, be16_put8_ne, be16_put32_ne,
        Nat.mod_eq_of_lt (swap16_lt htotal),
        swap16_swap16 htotal]
      simp only [ipv4HdrLen]
      omega
    · intro i hi
      have inside := copy_inside (copy zero 0 (put16 (ipv4Hdr localIp dst proto segLen) 10
        (inetCsum (ipv4Hdr localIp dst proto segLen) ipv4HdrLen zero 0)) 0 ipv4HdrLen) 20 seg
          0 segLen i hi
      rwa [Nat.zero_add] at inside

/-- What `ipv4_send` passes to `eth_send`, and when it is a valid packet: the checksum is
stored in host order, so that it is right on the wire only for sums whose swapped form is
the same modulo 65535. -/
theorem ipv4_send_valid_iff (poll : Stack → Stack) (w v : Stack) (dst proto : Nat) (seg : Bytes)
    (segLen : Nat) (mac : Bytes) (resolved : arpResolve poll (nexthop w dst) w = (some mac, v))
    (hip : v.localIp < 4294967296) (hdst : dst < 4294967296) (hproto : proto < 256)
    (hlen : segLen ≤ 1480) :
    ipv4Send poll dst proto seg segLen w =
        ethSend ethertypeIpv4 mac (ipv4Packet v.localIp dst proto seg segLen) (20 + segLen) v ∧
      (ValidPacket (ipv4Packet v.localIp dst proto seg segLen) seg segLen ↔
        257 ∣ ipv4Sum v.localIp dst proto segLen) := by
  refine ⟨?_, ipv4Packet_valid_iff seg hip hdst hproto hlen⟩
  have hwidth : u16 (ipv4HdrLen + segLen) = 20 + segLen :=
    u16_of_lt (by simp only [ipv4HdrLen]; omega)
  rw [ipv4Send, resolved]
  dsimp only
  rw [if_neg (by omega), hwidth]

theorem ipv4_send_valid_datagram :
    ValidPacket (ipv4Packet localIpDefault gatewayIpDefault protoUdp zero 97) zero 97 :=
  (ipv4_send_valid_iff id { idleStack with arpSpa := gatewayIpDefault } { idleStack with
    arpSpa := gatewayIpDefault }
    gatewayIpDefault protoUdp zero 97 zero (if_pos (by decide)) (by decide) (by decide) (by decide)
    (by decide)).2.mpr (by decide)

/-- An empty datagram to the gateway, with the addresses of the start. -/
theorem empty_datagram_invalid :
    ¬ ValidPacket (ipv4Packet localIpDefault gatewayIpDefault protoUdp zero 8) zero 8 := by
  rw [ipv4Packet_valid_iff zero (by decide) (by decide) (by decide) (by decide)]
  decide

/-! ## TCP -/

/-- The words of the pseudo header, for a segment of `total` octets to `dst`. -/
def pseudoWords (localIp dst total : Nat) : List Nat :=
  [localIp / 65536, localIp % 65536, dst / 65536, dst % 65536, protoTcp, total]

/-- A segment that decodes to its numbers and verifies. -/
structure ValidSegment (localIp dst lseq rseq : Nat) (seg : Bytes) (total : Nat) : Prop where
  seq : Tcp.seq seg = lseq
  ack : Tcp.flags seg &&& tcpAck ≠ 0 → Tcp.ackn seg = rseq
  sum : onesSum (pseudoWords localIp dst total ++ words (toList seg 0 total)) = 0xFFFF

/-- The sum of what a header is made of, as it enters header and pseudo header. -/
def tcpSum (localIp peer sport dport seq ack flags win plen : Nat) : Nat :=
  halves localIp + halves (bswap32 peer) + protoTcp + (tcpHdrLen + plen) + bswap16 sport +
    bswap16 dport +
    halves (bswap32 seq) + halves (bswap32 ack) + (0x5000 + flags) + bswap16 win

theorem be16_number (b : Bytes) (i : Nat) {v : Nat} (h : v < 4294967296) :
    be16 (put32 b i v) i = bswap32 v / 65536 ∧ be16 (put32 b i v) (i + 2) = bswap32 v % 65536 := by
  constructor
  · rw [be16_put32, bswap32_eq h, swap32_div h]
  · rw [be16_put32_high, bswap32_eq h, swap32_mod h, Nat.mod_eq_of_lt (by omega)]

section tcp

variable {localIp peer sport dport seq ack flags win plen : Nat}

theorem pseudoHdr_words (hip : localIp < 4294967296) (hpeer : peer < 4294967296)
    (hlen : plen ≤ 1400) :
    words (toList (pseudoHdr localIp peer plen) 0 12) = pseudoWords localIp (bswap32 peer)
    (tcpHdrLen + plen) := by
  have htotal : tcpHdrLen + plen < 65536 := by
    simp only [tcpHdrLen]
    omega
  have hsrc := fun b => be16_address b 0 hip
  have hto := fun b => be16_number b 4 hpeer
  have hproto : ∀ b, be16 (put8 (put8 b 8 0) 9 protoTcp) 8 = protoTcp :=
    fun b => be16_put8 b 8 0 protoTcp
  simp only [words_toList, Nat.reduceAdd]
  rw [pseudoHdr, lenField_eq htotal]
  simp (disch := omega) only [be16_put16, be16_put16_ne, be16_put8_ne, be16_put32_ne,
    hproto, (hsrc _).1,
    (hsrc _).2, (hto _).1, (hto _).2, Nat.mod_eq_of_lt (swap16_lt htotal), swap16_swap16 htotal]
  rfl

theorem tcpHdr_words (hsport : sport < 65536) (hdport : dport < 65536) (hseq : seq < 4294967296)
    (hack : ack < 4294967296) (hflags : flags < 256) (hwin : win < 65536) (c : Nat) :
    (words (toList (put16 (tcpHdr sport dport seq ack flags win) 16 c) 0 20)).sum =
      bswap16 sport + bswap16 dport + halves (bswap32 seq) + halves
      (bswap32 ack) + (0x5000 + flags) + bswap16 win + swap16 (c % 65536) := by
  have hfirst := fun b => be16_number b 4 hseq
  have hsecond := fun b => be16_number b 8 hack
  have hoffset : ∀ b, be16 (put8 (put8 b 12 0x50) 13 flags) 12 = 0x5000 + flags := fun b => by
    rw [be16_put8 b 12 0x50 flags, Nat.mod_eq_of_lt hflags]
  rw [words_twenty, tcpHdr]
  simp (disch := omega) only [be16_put16, be16_put16_ne, be16_put8_ne, be16_put32_ne, hoffset,
    (hfirst _).1,
    (hfirst _).2, (hsecond _).1, (hsecond _).2, Nat.mod_eq_of_lt]
  rw [bswap16_eq hsport, bswap16_eq hdport, bswap16_eq hwin, halves, halves,
    show be16 zero 18 = 0 from rfl]
  omega

/-- `tcp_checksum` sums the pseudo header and the header, and nothing of the payload. -/
theorem tcpChecksum_folds (hip : localIp < 4294967296) (hpeer : peer < 4294967296)
    (hsport : sport < 65536) (hdport : dport < 65536) (hseq : seq < 4294967296)
    (hack : ack < 4294967296) (hflags : flags < 256) (hwin : win < 65536) (hlen : plen ≤ 1400)
    (payload : Bytes) :
    ∃ r, tcpChecksum localIp peer (tcpHdr sport dport seq ack flags win) payload plen = 65535 - r ∧
      Folds (tcpSum localIp peer sport dport seq ack flags win plen) r := by
  obtain ⟨r, hcsum, folds⟩ := inetCsum_folds (tcpHdr sport dport seq ack flags win)
    (pseudoHdr localIp peer plen)
    (show tcpHdrLen < 65536 by decide) (show 12 < 65536 by decide)
  refine ⟨r, hcsum, ?_⟩
  have hfield : (words (toList (tcpHdr sport dport seq ack flags win) 0 20)).sum =
      (words (toList (put16 (tcpHdr sport dport seq ack flags win) 16 0) 0 20)).sum := by
    rw [words_twenty, words_twenty, be16_put16]
    simp (disch := omega) only [be16_put16_ne]
    have hzero : be16 (tcpHdr sport dport seq ack flags win) 16 = 0 := by
      simp (disch := omega) only [tcpHdr, be16_put16_ne, be16_put8_ne, be16_put32_ne]
      rfl
    rw [hzero]
    rfl
  rw [show tcpHdrLen = 20 from rfl, hfield, tcpHdr_words hsport hdport hseq hack hflags hwin,
    show 2 * (12 / 2) = 12 from rfl, pseudoHdr_words hip hpeer hlen] at folds
  have hsum : (pseudoWords localIp (bswap32 peer) (tcpHdrLen + plen)).sum +
      (bswap16 sport + bswap16 dport + halves (bswap32 seq) + halves (bswap32 ack) +
        (0x5000 + flags) +
        bswap16 win + swap16 (0 % 65536)) = tcpSum localIp peer sport dport seq ack flags
            win plen := by
    simp only [pseudoWords, List.sum_cons, List.sum_nil, tcpSum, halves, swap16]
    omega
  rwa [hsum] at folds

theorem tcpSegment_header (localIp peer : Nat) (t payload : Bytes) (plen : Nat) :
    Agree (tcpSegment localIp peer t payload plen)
    (put16 t 16 (tcpChecksum localIp peer t payload plen)) 0 20 :=
  copy_agree _ _ _ _ _ _ _ (Or.inl (by decide))

theorem tcpSegment_words (localIp peer : Nat) (t payload : Bytes) (plen : Nat) :
    words (toList (tcpSegment localIp peer t payload plen) 0 (tcpHdrLen + plen)) =
      words (toList (put16 t 16 (tcpChecksum localIp peer t payload plen)) 0 20) ++ words
      (toList payload 0 plen) := by
  have header : toList (tcpSegment localIp peer t payload plen) 0 20 =
      toList (put16 t 16 (tcpChecksum localIp peer t payload plen)) 0 20 :=
    toList_congr fun k hk => tcpSegment_header localIp peer t payload plen (0 + k)
      (by omega) (by omega)
  rw [show tcpHdrLen = 20 from rfl, toList_append, words_append _ (by simp), header, Nat.zero_add,
    tcpSegment,
    show tcpHdrLen = 20 from rfl, toList_copy]

theorem tcpHdr_fields (sport dport seq ack flags win : Nat) :
    get32 (tcpHdr sport dport seq ack flags win) 4 = seq % 4294967296 ∧
      get32 (tcpHdr sport dport seq ack flags win) 8 = ack % 4294967296 ∧
      get8 (tcpHdr sport dport seq ack flags win) 13 = flags % 256 := by
  have outer : ∀ b : Bytes, Agree (put16 (put8 (put8 b 12 0x50) 13 flags) 14 win) b 0 12 := fun b =>
    ((put16_agree _ _ _ _ _ (by omega)).trans (put8_agree _ _ _ _ _ (by omega))).trans
      (put8_agree _ _ _ _ _ (by omega))
  refine ⟨?_, ?_, ?_⟩
  · rw [tcpHdr, get32_congr ((outer _).mono (by omega) (by omega)),
      get32_put32_ne _ _ _ _ (by omega), get32_put32]
  · rw [tcpHdr, get32_congr ((outer _).mono (by omega) (by omega)), get32_put32]
  · rw [tcpHdr, get8_congr (put16_agree _ _ _ _ _ (by omega)), get8_put8]

theorem tcpSegment_ack (localIp peer sport dport seq ack flags win : Nat) (payload : Bytes)
    (plen : Nat) :
    get32 (tcpSegment localIp peer (tcpHdr sport dport seq ack flags win) payload plen) 8 =
    ack % 4294967296 := by
  have header := tcpSegment_header localIp peer (tcpHdr sport dport seq ack flags win) payload plen
  rw [get32_congr (header.mono (by omega) (by omega)), get32_put16_ne _ _ _ _ (by omega),
    (tcpHdr_fields sport dport seq ack flags win).2.1]

theorem tcpSegment_valid_iff (hip : localIp < 4294967296) (hpeer : peer < 4294967296)
    (hsport : sport < 65536) (hdport : dport < 65536) (hseq : seq < 4294967296)
    (hack : ack < 4294967296) (hflags : flags < 256) (hwin : win < 65536) (hlen : plen ≤ 1400)
    (payload : Bytes) :
    ValidSegment localIp (bswap32 peer) seq ack
        (tcpSegment localIp peer (tcpHdr sport dport seq ack flags win) payload plen)
        (tcpHdrLen + plen) ↔
      bswap32 seq = seq ∧ (flags &&& tcpAck ≠ 0 → bswap32 ack = ack) ∧
      (words (toList payload 0 plen)).sum % 65535 =
          255 * tcpSum localIp peer sport dport seq ack flags win plen % 65535 := by
  obtain ⟨r, hcsum, folds⟩ := tcpChecksum_folds hip hpeer hsport hdport hseq hack hflags hwin
    hlen payload
  obtain ⟨hfirst, _, hthird⟩ := tcpHdr_fields sport dport seq ack flags win
  have header := tcpSegment_header localIp peer (tcpHdr sport dport seq ack flags win) payload plen
  have decodesSeq : Tcp.seq (tcpSegment localIp peer (tcpHdr sport dport seq ack flags win)
    payload plen) =
      bswap32 seq := by
    rw [Tcp.seq, get32_congr (header.mono (by omega) (by omega)), get32_put16_ne _ _ _ _ (by omega),
      hfirst,
      Nat.mod_eq_of_lt hseq]
  have decodesAck : Tcp.ackn (tcpSegment localIp peer (tcpHdr sport dport seq ack flags win)
    payload plen) =
      bswap32 ack := by
    rw [Tcp.ackn, tcpSegment_ack, Nat.mod_eq_of_lt hack]
  have decodesFlags : Tcp.flags (tcpSegment localIp peer (tcpHdr sport dport seq ack flags win)
    payload plen) =
      flags := by
    rw [Tcp.flags, get8_congr (header.mono (by omega) (by omega)),
      get8_congr (put16_agree _ _ _ _ _ (by omega)),
      hthird, Nat.mod_eq_of_lt hflags]
  have hwords := tcpSegment_words localIp peer (tcpHdr sport dport seq ack flags win) payload plen
  rw [hcsum] at hwords
  have hsum := tcpHdr_words hsport hdport hseq hack hflags hwin (65535 - r)
  rw [Nat.mod_eq_of_lt (by omega)] at hsum
  -- the sum over the segment is that of the checksum, with the checksum swapped and the payload
  -- added
  have total : (pseudoWords localIp (bswap32 peer) (tcpHdrLen + plen) ++
      words (toList (tcpSegment localIp peer (tcpHdr sport dport seq ack flags win) payload plen) 0
        (tcpHdrLen + plen))).sum = tcpSum localIp peer sport dport seq ack flags win plen + swap16
          (65535 - r) +
          (words (toList payload 0 plen)).sum := by
    rw [hwords, List.sum_append, List.sum_append, hsum]
    simp only [pseudoWords, List.sum_cons, List.sum_nil, tcpSum, halves]
    omega
  have small : ∀ x ∈ pseudoWords localIp (bswap32 peer) (tcpHdrLen + plen) ++
      words (toList (tcpSegment localIp peer (tcpHdr sport dport seq ack flags win) payload plen) 0
        (tcpHdrLen + plen)), x < 65536 := by
    intro x hx
    rcases List.mem_append.mp hx with hpseudo | hrest
    · rw [← pseudoHdr_words hip hpeer hlen] at hpseudo
      exact words_lt _ x hpseudo
    · exact words_lt _ x hrest
  have hpos : 0 < tcpSum localIp peer sport dport seq ack flags win plen := by
    unfold tcpSum
    omega
  have verifies := onesSum_eq_ones_iff small
  rw [total, swapped_checksum_iff folds] at verifies
  constructor
  · rintro ⟨hs, ha, hv⟩
    exact ⟨decodesSeq.symm.trans hs, fun h => decodesAck.symm.trans (ha (by rwa [decodesFlags])),
      (verifies.mp hv).2⟩
  · rintro ⟨hs, ha, hv⟩
    exact ⟨decodesSeq.trans hs, fun h => decodesAck.trans (ha (by rwa [decodesFlags] at h)),
      verifies.mpr ⟨by omega, hv⟩⟩

end tcp

/-- The variables are within their types. -/
structure Stack.Sized (w : Stack) : Prop where
  localIp : w.localIp < 4294967296
  lseq : w.lseq < 4294967296
  rseq : w.rseq < 4294967296
  lport : w.lport < 65536
  rportWant : w.rportWant < 65536

theorem bswap16_lt (x : Nat) : bswap16 x < 65536 := Nat.mod_lt _ (by decide)

theorem bswap32_lt {x : Nat} (h : x < 4294967296) : bswap32 x < 4294967296 := by
  rw [bswap32_eq h]
  exact swap32_lt h

theorem bswap32_bswap32 {x : Nat} (h : x < 4294967296) : bswap32 (bswap32 x) = x := by
  rw [bswap32_eq (bswap32_lt h), bswap32_eq h, swap32_swap32 h]

theorem synSegment_invalid {w : Stack} {ip port : Nat} (hw : w.Sized) (hip : ip < 4294967296) :
    ¬ ValidSegment w.localIp ip isn 0 (synSegment (w.opened port) ip port) tcpHdrLen := by
  have segment := tcpSegment_valid_iff hw.localIp (bswap32_lt hip) (bswap16_lt w.lport)
    (bswap16_lt port)
    (show isn < 4294967296 by decide) (show 0 < 4294967296 by decide) (show tcpSyn < 256 by decide)
    (show window < 65536 by decide) (show 0 ≤ 1400 by decide) zero
  rw [bswap32_bswap32 hip] at segment
  intro valid
  have reads := (segment.mp valid).1
  exact absurd reads (by decide)

/-- When the segments of the TCP functions decode and verify: the sequence numbers are
stored in host order, the checksum with its octets swapped and without the payload. The
segment of `tcp_connect` is never right. -/
theorem tcp_segments_valid_iff (w : Stack) (ip port ipSrc len : Nat) (data t : Bytes) (hw : w.Sized)
    (hip : ip < 4294967296) (hsrc : ipSrc < 4294967296) (hlen : len ≤ 1400) :
    (¬ ValidSegment w.localIp ip isn 0 (synSegment (w.opened port) ip port) tcpHdrLen) ∧
    (ValidSegment w.localIp ip w.lseq w.rseq (dataSegment w ip data len) (tcpHdrLen + len) ↔
      bswap32 w.lseq = w.lseq ∧ bswap32 w.rseq = w.rseq ∧
        (words (toList data 0 len)).sum % 65535 = 255 * tcpSum w.localIp (bswap32 ip)
        (bswap16 w.lport)
          (bswap16 w.rportWant) w.lseq w.rseq (tcpAck ||| tcpPsh) window len % 65535) ∧
    (ValidSegment w.localIp ip w.lseq w.rseq (finSegment w ip) tcpHdrLen ↔
      bswap32 w.lseq = w.lseq ∧ bswap32 w.rseq = w.rseq ∧
        257 ∣ tcpSum w.localIp (bswap32 ip) (bswap16 w.lport) (bswap16 w.rportWant) w.lseq w.rseq
          (tcpFin ||| tcpAck) 0 0) ∧
    (ValidSegment w.localIp (bswap32 ipSrc) (w.synced t).lseq (w.synced t).rseq
      (ackSegment (w.synced t) t ipSrc)
        tcpHdrLen ↔
      bswap32 (Tcp.ackn t) = Tcp.ackn t ∧ bswap32 (u32 (Tcp.seq t + 1)) = u32 (Tcp.seq t + 1) ∧
        257 ∣ tcpSum w.localIp ipSrc (Tcp.dport t) (Tcp.sport t) (Tcp.ackn t)
        (u32 (Tcp.seq t + 1)) tcpAck window 0) := by
  have alone : ∀ s, (words (toList zero 0 0)).sum % 65535 = 255 * s % 65535 ↔ 257 ∣ s := by
    intro s
    have hnone : (words (toList zero 0 0)).sum = 0 := rfl
    rw [hnone]
    omega
  refine ⟨synSegment_invalid hw hip, ?_, ?_, ?_⟩
  · have segment := tcpSegment_valid_iff hw.localIp (bswap32_lt hip) (bswap16_lt w.lport)
      (bswap16_lt w.rportWant)
      hw.lseq hw.rseq (show tcpAck ||| tcpPsh < 256 by decide) (show window <
        65536 by decide) hlen data
    rw [bswap32_bswap32 hip, forall_prop_of_true (by decide)] at segment
    exact segment
  · have segment := tcpSegment_valid_iff hw.localIp (bswap32_lt hip) (bswap16_lt w.lport)
      (bswap16_lt w.rportWant)
      hw.lseq hw.rseq (show tcpFin ||| tcpAck < 256 by decide) (show 0 < 65536 by decide)
      (show 0 ≤ 1400 by decide) zero
    rw [bswap32_bswap32 hip, alone, forall_prop_of_true (by decide)]
      at segment
    exact segment
  · have segment := tcpSegment_valid_iff hw.localIp hsrc (get16_lt t 2) (get16_lt t 0)
      (bswap32_lt (get32_lt t 8)) (show u32 (Tcp.seq t + 1) < 4294967296 from Nat.mod_lt _
        (by decide))
      (show tcpAck < 256 by decide) (show window < 65536 by decide) (show 0 ≤ 1400 by decide) zero
    rw [alone, forall_prop_of_true (by decide)] at segment
    exact segment

/-- A connection whose numbers are zero. -/
def zeroConnection : Stack := { idleStack with st := .established }

theorem zeroConnection_sized : zeroConnection.Sized :=
  ⟨by decide, by decide, by decide, by decide, by decide⟩

/-- Two octets that make up for what the checksum leaves out. -/
theorem tcp_segments_valid_data : ValidSegment zeroConnection.localIp gatewayIpDefault 0 0
    (dataSegment zeroConnection gatewayIpDefault (put16 zero 0 0x7887) 2) (tcpHdrLen + 2) :=
  (tcp_segments_valid_iff zeroConnection gatewayIpDefault 0 0 2 (put16 zero 0 0x7887) zero
    zeroConnection_sized
    (by decide) (by decide) (by decide)).2.1.mpr (by decide)

/-- The first segment of a connection to the gateway. -/
theorem first_segment_invalid :
    ¬ ValidSegment localIpDefault gatewayIpDefault isn 0
    (synSegment (idleStack.opened 80) gatewayIpDefault 80) tcpHdrLen :=
  synSegment_invalid (w := idleStack) ⟨by decide, by decide, by decide, by decide, by decide⟩
    (by decide)

end Obsidian.Net
