import Obsidian.Net.Emit

/-!
# Echo replies

`icmp_rx` sums the reply with its checksum field zero and stores the complement in network
order, so that the sum of the whole reply is all ones.
-/
namespace Obsidian.Net
open Lib Lib.Bytes Lib.OnesSum

/-- The reply before its checksum. -/
def echoBlank (body : Bytes) (len : Nat) : Bytes :=
  put8 (put8 (put8 (copy zero 0 body 0 len) 0 0) 2 0) 3 0

section reply

variable (body : Bytes) {len : Nat}

theorem echoReply_eq (len : Nat) : echoReply body len =
    put8 (put8 (echoBlank body len) 2 (inetCsum (echoBlank body len) len zero 0 >>> 8)) 3
      (inetCsum (echoBlank body len) len zero 0) := rfl

theorem echoBlank_other {i : Nat} (hi : i < len) (first : i ≠ 0) (second : i ≠ 2) (third : i ≠ 3) :
    echoBlank body len i = body i := by
  have inside := copy_inside zero 0 body 0 len i hi
  simp only [Nat.zero_add] at inside
  simp only [echoBlank, put8, if_neg first, if_neg second, if_neg third, inside]

theorem inetCsum_echoReply (long : 4 ≤ len) (short : len < 65536) :
    inetCsum (echoReply body len) len zero 0 = 0 :=
  inetCsum_stored (echoBlank body len) zero short (by decide) rfl (by omega) rfl rfl

end reply

/-- A packet to the sender of `pkt` has the octets of the one address at the place of the other. -/
theorem ipv4Packet_returns (localIp proto : Nat) (pkt seg : Bytes) (segLen : Nat) {i : Nat}
    (hi : i < 4) :
    ipv4Packet localIp (bswap32 (Ip.src pkt)) proto seg segLen (16 + i) = pkt (12 + i) := by
  have header := ipv4Packet_header localIp (bswap32 (Ip.src pkt)) proto seg segLen (16 + i)
    (by omega) (by omega)
  rw [header, put16_agree _ 10 _ 12 20 (by omega) (16 + i) (by omega) (by omega), ipv4Hdr,
    put32_at _ 16 _ hi]
  rw [Ip.src, bswap32_bswap32 (get32_lt pkt 12)]
  exact get32_at pkt 12 hi

/-- `reply` answers `body`, both of `len` octets. -/
structure EchoAnswer (body reply : Bytes) (len : Nat) : Prop where
  type : reply 0 = 0
  same : ∀ i, i < len → i ≠ 0 → i ≠ 2 → i ≠ 3 → reply i = body i
  sum : inetCsum reply len zero 0 = 0

theorem echoReply_answers (body : Bytes) {len : Nat} (long : icmpHdrLen ≤ len)
    (short : len ≤ 1480) :
    EchoAnswer body (echoReply body len) len where
  type := rfl
  same i hi first second third := by
    rw [echoReply_eq, put8, if_neg third, put8, if_neg second,
      echoBlank_other body hi first second third]
  sum := by
    simp only [icmpHdrLen] at long
    exact inetCsum_echoReply body (by omega) (by omega)

theorem icmpRx_request (poll : Stack → Stack) {body : Bytes} {len : Nat} (long : icmpHdrLen ≤ len)
    (request : body 0 = 8) (src : Nat) (w : Stack) :
    icmpRx poll body len src w =
    (ipv4Send poll src protoIcmp (echoReply body len) len (w.echoCopies len)).2 := by
  have htype : get8 body 0 = 8 := by
    rw [get8, request]
    rfl
  rw [icmpRx, if_neg (Nat.not_lt.mpr long), if_neg (not_not.mpr htype)]

theorem ipv4Rx_icmp (poll : Stack → Stack) {pkt : Bytes} {total : Nat} (got : Nat) (w : Stack)
    (long : ipv4HdrLen ≤ total) (version : Ip.verIhl pkt >>> 4 = 4)
    (icmp : Ip.proto pkt = protoIcmp) :
    ipv4Rx poll pkt total got w = icmpRx poll (octetsFrom pkt (Ip.hlen pkt))
    (u16 (total + 65536 - Ip.hlen pkt)) (bswap32 (Ip.src pkt))
      (w.note (.handed (ethHdrLen + Ip.hlen pkt) (u16 (total + 65536 - Ip.hlen pkt)) got)) := by
  rw [ipv4Rx, if_neg (Nat.not_lt.mpr long), if_neg (not_not.mpr version)]
  rw [if_pos icmp]

/-- What is sent for an echo request: the reply verifies and is the request but for its type
and its checksum, and for a request that came in a packet it goes to the source of the packet. -/
theorem echo_reply_faithful (poll : Stack → Stack) (body : Bytes) (len : Nat) (long : 8 ≤ len)
    (short : len ≤ 1480) (request : body 0 = 8) :
    ∃ reply, EchoAnswer body reply len ∧
      (∀ src w, icmpRx poll body len src w =
        (ipv4Send poll src protoIcmp reply len (w.echoCopies len)).2) ∧
      ∀ pkt total got w, ipv4HdrLen ≤ total → Ip.verIhl pkt >>> 4 = 4 → Ip.proto pkt = protoIcmp →
        octetsFrom pkt (Ip.hlen pkt) = body → u16 (total + 65536 - Ip.hlen pkt) = len →
        ipv4Rx poll pkt total got w = (ipv4Send poll (bswap32 (Ip.src pkt)) protoIcmp reply len
          ((w.note (.handed (ethHdrLen + Ip.hlen pkt) len got)).echoCopies len)).2 ∧
        ∀ localIp i, i < 4 → ipv4Packet localIp (bswap32 (Ip.src pkt)) protoIcmp reply len
        (16 + i) = pkt (12 + i) := by
  refine ⟨echoReply body len, echoReply_answers body long short, icmpRx_request poll long request,
    ?_⟩
  intro pkt total got w hlong hversion hicmp hbody hlen
  refine ⟨?_, fun localIp i hi => ipv4Packet_returns localIp protoIcmp pkt _ len hi⟩
  rw [ipv4Rx_icmp poll got w hlong hversion hicmp, hbody, hlen, icmpRx_request poll long request]

/-- A request of nine octets. -/
theorem echo_reply_odd :
    ∃ reply, EchoAnswer (ofList zero 0 [8, 0, 0xF7, 0xFF, 0, 0, 0, 0, 1]) reply 9 := by
  obtain ⟨reply, answer, -⟩ :=
    echo_reply_faithful id (ofList zero 0 [8, 0, 0xF7, 0xFF, 0, 0, 0, 0, 1]) 9
    (by decide) (by decide) (by decide)
  exact ⟨reply, answer⟩

end Obsidian.Net
