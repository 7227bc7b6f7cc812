import Obsidian.Net.ArpExchange
import Obsidian.Net.Echo

/-!
# Addresses on the wire

`local_ip` and the addresses of the callers are numbers. The ARP functions store them as
the machine does, `ipv4_send` and `ipv4_rx` with their octets reversed. The octets of an
address are therefore the same in both only if they read the same from both ends.
-/
namespace Obsidian.Net
open Lib Lib.Bytes

/-! ## What is sent -/

/-- The address stays, and what is sent is added at the end. -/
def Since (w v : Stack) : Prop := v.localIp = w.localIp ∧ ∃ more, v.sent = w.sent ++ more

theorem ethSend_since (ethertype : Nat) (dst payload : Bytes) (plen : Nat) (w : Stack) :
    Since w (ethSend ethertype dst payload plen w).2 := by
  unfold ethSend e1000Send
  split
  · exact ⟨rfl, [], (List.append_nil _).symm⟩
  · exact ⟨rfl, _, rfl⟩

theorem since_outward : Outward Since where
  refl w := ⟨rfl, [], (List.append_nil w.sent).symm⟩
  trans u v w first second := by
    obtain ⟨hip, more, hsent⟩ := first
    obtain ⟨hip', more', hsent'⟩ := second
    exact ⟨hip'.trans hip, more ++ more', by rw [hsent', hsent, List.append_assoc]⟩
  send := ethSend_since
  forget w := ⟨rfl, [], (List.append_nil w.sent).symm⟩
  sets w _ _ _ _ _ _ _ _ _ := ⟨rfl, [], (List.append_nil w.sent).symm⟩

theorem get32_copy (b : Bytes) (i : Nat) (src : Bytes) (start n : Nat) {k : Nat} (h : k + 4 ≤ n) :
    get32 (copy b i src start n) (i + k) = get32 src (start + k) := by
  have octet := fun j (hj : j < 4) => copy_inside b i src start n (k + j) (by omega)
  have h0 := octet 0 (by decide)
  have h1 := octet 1 (by decide)
  have h2 := octet 2 (by decide)
  have h3 := octet 3 (by decide)
  simp only [Nat.add_zero, ← Nat.add_assoc] at h0 h1 h2 h3
  simp only [get32, get16, Nat.add_assoc, Nat.reduceAdd] at h0 h1 h2 h3 ⊢
  rw [h0, h1, h2, h3]

theorem ethSend_frame (ethertype plen : Nat) (dst payload : Bytes) (w : Stack)
    (typed : ethertype < 65536) (fits : plen ≤ 1586) :
    ∃ frame, (ethSend ethertype dst payload plen w).2.sent = w.sent ++ [frame] ∧
      be16 (frameOctets frame) 12 = ethertype ∧
      ∀ k, k + 4 ≤ plen → get32 (frameOctets frame) (14 + k) = get32 payload k := by
  have hlen : u16 (ethHdrLen + plen) = 14 + plen := u16_of_lt (by simp only [ethHdrLen]; omega)
  have hsent : ethSend ethertype dst payload plen w =
      e1000Send (toList (ethFrame ethertype dst w.localMac payload plen) 0 (14 + plen)) w := by
    rw [ethSend, if_neg (by simp only [ethHdrLen]; omega), hlen]
  rw [hsent]
  refine ⟨_, rfl, ?_⟩
  generalize hx : ethFrame ethertype dst w.localMac payload plen = x
  have same : Agree (frameOctets (toList x 0 (14 + plen))) x 0 (14 + plen) := by
    rw [frameOctets, List.take_of_length_le (by rw [toList_length]; omega)]
    have whole := ofList_toList zero x 0 (14 + plen)
    rwa [Nat.zero_add] at whole
  constructor
  · have htype : u16 (ethertype >>> 8 ||| ethertype <<< 8) = swap16 ethertype := by
      rw [Nat.or_comm, lor_octet (by omega), swap16, u16]
      omega
    rw [be16_congr (same.mono (by omega) (by omega)), ← hx, ethFrame,
      be16_congr (copy_agree _ _ _ _ _ _ _ (Or.inl (by decide))), be16_put16, htype,
      Nat.mod_eq_of_lt (swap16_lt typed), swap16_swap16 typed]
  · intro k hk
    rw [get32_congr (same.mono (by omega) (by omega)), ← hx]
    have payloadOctets := get32_copy (put16 (copy (copy zero 0 dst 0 6) 6 w.localMac 0 6) 12
      (u16 (ethertype >>> 8 ||| ethertype <<< 8))) ethHdrLen payload 0 plen hk
    rwa [Nat.zero_add] at payloadOctets

/-! ## ARP and IPv4 -/

theorem arpPkt_addresses (htype ptype op : Nat) (sha : Bytes) (spa : Nat) (tha : Bytes)
    (tpa : Nat) :
    get32 (arpPkt htype ptype op sha spa tha tpa) 14 = u32 spa ∧
      get32 (arpPkt htype ptype op sha spa tha tpa) 24 = u32 tpa := by
  constructor
  · rw [arpPkt, get32_put32_ne _ _ _ _ (by omega),
      get32_congr (copy_agree _ _ _ _ _ _ _ (by omega)), get32_put32, u32]
  · rw [arpPkt, get32_put32, u32]

theorem ipv4Packet_source {localIp : Nat} (hip : localIp < 4294967296) (dst proto : Nat)
    (seg : Bytes) (segLen : Nat) :
    get32 (ipv4Packet localIp dst proto seg segLen) 12 = bswap32 localIp := by
  have header := ipv4Packet_header localIp dst proto seg segLen
  rw [get32_congr (header.mono (by omega) (by omega)), get32_put16_ne _ _ _ _ (by omega), ipv4Hdr,
    get32_put32_ne _ _ _ _ (by omega), get32_put32, Nat.mod_eq_of_lt (bswap32_lt hip)]

/-- `frame` is sent by `arp_rx`, or is the first frame that `arp_resolve` sends. -/
def SendsArp (w : Stack) (frame : List UInt8) : Prop :=
  (∃ a, (arpRx a w).sent = w.sent ++ [frame]) ∨
    ∃ ip more, w.arpSpa ≠ ip ∧ (arpResolve netPoll ip w).2.sent = w.sent ++ frame :: more

/-- `frame` is sent by `ipv4_send` when it knows the address. -/
def SendsIpv4 (w : Stack) (frame : List UInt8) : Prop :=
  ∃ dst proto seg segLen mac v, arpResolve netPoll (nexthop w dst) w = (some mac, v) ∧
    (ipv4Send netPoll dst proto seg segLen w).2.sent = v.sent ++ [frame]

/-- The sender of an ARP frame, its target, and the source of an IPv4 frame: the four octets,
as the machine reads them. -/
def arpSender (frame : List UInt8) : Nat := get32 (frameOctets frame) 28
def arpTarget (frame : List UInt8) : Nat := get32 (frameOctets frame) 38
def ipv4Source (frame : List UInt8) : Nat := get32 (frameOctets frame) 26

section sends

variable {w : Stack} {frame : List UInt8}

theorem ipv4Send_since (dst proto : Nat) (seg : Bytes) (segLen : Nat) (w : Stack) :
    Since (arpResolve netPoll (nexthop w dst) w).2 (ipv4Send netPoll dst proto seg segLen w).2 := by
  unfold ipv4Send
  generalize arpResolve netPoll (nexthop w dst) w = r
  obtain ⟨found, v⟩ := r
  cases found with
  | none => exact since_outward.refl v
  | some mac =>
    dsimp only
    split
    · exact since_outward.refl v
    · exact ethSend_since _ _ _ _ v

theorem arpResolve_asks (ip : Nat) (unknown : w.arpSpa ≠ ip) :
    ∃ frame more, (arpResolve netPoll ip w).2.sent = w.sent ++ frame :: more ∧
      be16 (frameOctets frame) 12 = ethertypeArp ∧ arpSender frame = u32 w.localIp ∧
      arpTarget frame = u32 ip := by
  obtain ⟨frame, hsent, htype, hfields⟩ := ethSend_frame ethertypeArp arpPktLen bcast
    (arpRequest w ip) { w with arpSpa := 0 } (by decide) (by decide)
  obtain ⟨-, more, hwaited⟩ := since_outward.toCarried.spinArp since_outward.netPoll 200000
    (arpAsk ip w)
  obtain ⟨hspa, htpa⟩ := arpPkt_addresses 0x0100 0x0008 0x0001 w.localMac w.localIp zero ip
  refine ⟨frame, more, ?_, htype, (hfields 14 (by decide)).trans hspa,
    (hfields 24 (by decide)).trans htpa⟩
  have hasked : (arpAsk ip w).sent = w.sent ++ [frame] := hsent
  rw [hasked, List.append_assoc] at hwaited
  unfold arpResolve
  rw [if_neg unknown]
  dsimp only
  split
  · exact hwaited
  · exact hwaited

theorem arpRx_sends {a : Bytes} (sent : (arpRx a w).sent = w.sent ++ [frame]) :
    arpSender frame = u32 w.localIp := by
  obtain ⟨reply, hsent, -, hfields⟩ := ethSend_frame ethertypeArp arpPktLen (Arp.sha a)
    (arpPkt (Arp.htype a) (Arp.ptype a) 0x0002 w.localMac w.localIp (Arp.sha a) (Arp.spa a)) w
      (by decide) (by decide)
  obtain ⟨hspa, -⟩ := arpPkt_addresses (Arp.htype a) (Arp.ptype a) 0x0002 w.localMac w.localIp
    (Arp.sha a) (Arp.spa a)
  have nothing : w.sent ≠ w.sent ++ [frame] := by
    intro same
    simp at same
  unfold arpRx at sent
  split at sent
  · have same : frame = reply := by simpa using sent.symm.trans hsent
    rw [same]
    exact (hfields 14 (by decide)).trans hspa
  split at sent
  · exact absurd sent nothing
  · exact absurd sent nothing

theorem SendsArp.sender (sends : SendsArp w frame) : arpSender frame = u32 w.localIp := by
  rcases sends with ⟨a, sent⟩ | ⟨ip, more, unknown, sent⟩
  · exact arpRx_sends sent
  · obtain ⟨request, more', hsent, -, hsender, -⟩ := arpResolve_asks _ unknown
    rw [hsent] at sent
    have same := List.cons.inj (List.append_cancel_left sent)
    rw [← same.1, hsender]

theorem SendsIpv4.source (hw : w.localIp < 4294967296) (sends : SendsIpv4 w frame) :
    ipv4Source frame = bswap32 w.localIp := by
  obtain ⟨dst, proto, seg, segLen, mac, v, resolved, sent⟩ := sends
  have hsince := since_outward.toCarried.arpResolve since_outward.netPoll (nexthop w dst) w
  rw [resolved] at hsince
  have hip : v.localIp = w.localIp := hsince.1
  rw [ipv4Send, resolved] at sent
  dsimp only at sent
  split at sent
  next => simp at sent
  next short =>
    have hlen : u16 (ipv4HdrLen + segLen) = 20 + segLen :=
      u16_of_lt (by simp only [ipv4HdrLen]; omega)
    obtain ⟨packet, hsent, -, hfields⟩ := ethSend_frame ethertypeIpv4 (20 + segLen) mac
      (ipv4Packet v.localIp dst proto seg segLen) v (by decide) (by omega)
    rw [hlen, hsent] at sent
    have same : packet = frame := by simpa using sent
    rw [← same, ipv4Source, hfields 12 (by omega), hip, ipv4Packet_source hw]

end sends

/-! ## Answers -/

/-- The packets that `ipv4_rx` answers: echo requests, a SYN while a connection is being opened
and a FIN on an open one. -/
def Answered (w : Stack) (pkt : Bytes) (total : Nat) : Prop :=
  let body := octetsFrom pkt (Ip.hlen pkt)
  let len := u16 (total + 65536 - Ip.hlen pkt)
  (ipv4HdrLen ≤ total ∧ Ip.verIhl pkt >>> 4 = 4) ∧
    ((Ip.proto pkt = protoIcmp ∧ icmpHdrLen ≤ len ∧ body 0 = 8) ∨
      (Ip.proto pkt = protoTcp ∧ tcpHdrLen ≤ len ∧
        ((w.st = .synSent ∧ Tcp.flags body &&& tcpSyn ≠ 0) ∨
          (w.st = .established ∧ Tcp.flags body &&& tcpRst = 0 ∧ Tcp.flags body &&& tcpFin ≠ 0))))

/-- `v` can ask for an address as `w` does. -/
structure Asking (w v : Stack) : Prop where
  localIp : v.localIp = w.localIp
  arpSpa : v.arpSpa = w.arpSpa
  sent : v.sent = w.sent

variable {total : Nat} {pkt : Bytes}

theorem ipv4Rx_tcpPacket (poll : Stack → Stack) (got : Nat) (w : Stack) (long : ipv4HdrLen ≤ total)
    (version : Ip.verIhl pkt >>> 4 = 4) (tcp : Ip.proto pkt = protoTcp) :
    ipv4Rx poll pkt total got w = tcpRx poll (octetsFrom pkt (Ip.hlen pkt))
    (u16 (total + 65536 - Ip.hlen pkt))
      (bswap32 (Ip.src pkt)) (Ip.src pkt)
      (w.note (.handed (ethHdrLen + Ip.hlen pkt) (u16 (total + 65536 - Ip.hlen pkt)) got)) := by
  rw [ipv4Rx, if_neg (Nat.not_lt.mpr long), if_neg (not_not.mpr version)]
  rw [if_neg (by rw [tcp]; decide), if_neg (by rw [tcp]; decide), if_pos tcp]

theorem tcpRx_sends {w : Stack} {t : Bytes} {len : Nat} (src ipSrc : Nat) (long : tcpHdrLen ≤ len)
    (moves : (w.st = .synSent ∧ Tcp.flags t &&& tcpSyn ≠ 0) ∨
      (w.st = .established ∧ Tcp.flags t &&& tcpRst = 0 ∧ Tcp.flags t &&& tcpFin ≠ 0)) :
      ∃ seg v, Asking w v ∧
      Since (ipv4Send netPoll src protoTcp seg tcpHdrLen v).2
      (tcpRx netPoll t len src ipSrc w) := by
  have settles : ∀ (v : Stack) st console, Since v { v with st := st, console := console } :=
    fun v st console =>
    since_outward.sets v v.arpTha v.arpSpa st v.rseq v.lseq v.rxbuf v.arrivals console v.trace
  rw [tcpRx, if_neg (Nat.not_lt.mpr long)]
  rcases moves with syn | ⟨opened, rst, fin⟩
  · rw [if_pos syn]
    exact ⟨ackSegment (w.synced t) t ipSrc, w.synced t, ⟨rfl, rfl, rfl⟩, settles _ _ _⟩
  · have settled : ¬ (w.st = .synSent ∧ Tcp.flags t &&& tcpSyn ≠ 0) := by
      rw [opened]
      exact fun h => nomatch h.1
    have hst : (w.received t len).st = .established := by
      rw [received_eq]
      exact opened
    rw [if_neg settled, if_neg (not_not.mpr rst), if_pos fin, tcpClose, if_neg (not_not.mpr hst)]
    refine ⟨finSegment (w.received t len) src, w.received t len, ?_, settles _ _ _⟩
    rw [received_eq]
    exact ⟨rfl, rfl, rfl⟩

theorem Answered.sends {w : Stack} (answered : Answered w pkt total) (got : Nat) :
    ∃ proto seg segLen v, Asking w v ∧
      Since (ipv4Send netPoll (bswap32 (Ip.src pkt)) proto seg segLen v).2
      (ipv4Rx netPoll pkt total got w) := by
  obtain ⟨⟨long, version⟩, ⟨hproto, hlen, request⟩ | ⟨hproto, hlen, moves⟩⟩ := answered
  · rw [ipv4Rx_icmp netPoll got w long version hproto, icmpRx_request netPoll hlen request]
    generalize u16 (total + 65536 - Ip.hlen pkt) = len
    exact ⟨protoIcmp, echoReply (octetsFrom pkt (Ip.hlen pkt)) len, len,
      (w.note (.handed (ethHdrLen + Ip.hlen pkt) len got)).echoCopies len, ⟨rfl, rfl, rfl⟩,
        since_outward.refl _⟩
  · rw [ipv4Rx_tcpPacket netPoll got w long version hproto]
    generalize u16 (total + 65536 - Ip.hlen pkt) = len at hlen
    obtain ⟨seg, v, asking, since⟩ :=
      tcpRx_sends (w := w.note (.handed (ethHdrLen + Ip.hlen pkt) len got))
      (bswap32 (Ip.src pkt)) (Ip.src pkt) hlen moves
    exact ⟨protoTcp, seg, tcpHdrLen, v, ⟨asking.localIp, asking.arpSpa, asking.sent⟩, since⟩

/-- The first frame of the answer to a neighbour whose address is not known asks for it. -/
theorem Answered.asks {w : Stack} (answered : Answered w pkt total) (got : Nat)
    (near : bswap32 (Ip.src pkt) &&& 0xFFFFFFC0 = w.localIp &&& 0xFFFFFFC0)
    (unknown : w.arpSpa ≠ bswap32 (Ip.src pkt)) :
    ∃ frame more, (ipv4Rx netPoll pkt total got w).sent = w.sent ++ frame :: more ∧
      be16 (frameOctets frame) 12 = ethertypeArp ∧ arpTarget frame = bswap32 (Ip.src pkt) := by
  obtain ⟨proto, seg, segLen, v, asking, -, later, hlater⟩ := answered.sends got
  rw [← asking.arpSpa] at unknown
  have hnext : nexthop v (bswap32 (Ip.src pkt)) = bswap32 (Ip.src pkt) := by
    rw [nexthop, if_pos (by rw [asking.localIp]; exact near)]
  obtain ⟨frame, more, hasked, htype, -, htarget⟩ := arpResolve_asks _ unknown
  obtain ⟨-, rest, hsent⟩ := ipv4Send_since (bswap32 (Ip.src pkt)) proto seg segLen v
  rw [hnext, hasked, asking.sent] at hsent
  refine ⟨frame, more ++ rest ++ later, ?_, htype, ?_⟩
  · rw [hlater, hsent]
    simp
  · exact htarget.trans (u32_of_lt (bswap32_lt (get32_lt pkt 12)))

/-! ## One encoding -/

/-- With the address `localIp`, the sender in every ARP packet is the source in every IPv4
packet; and the answer to a packet from a neighbour at `src` whose hardware address is not
known starts with a request for `src`. -/
def OneEncoding (localIp src : Nat) : Prop :=
  ∀ w : Stack, w.localIp = localIp →
    (∀ arp ip, SendsArp w arp → SendsIpv4 w ip → arpSender arp = ipv4Source ip) ∧
    ∀ pkt total got, Ip.src pkt = src → Answered w pkt total →
      bswap32 src &&& 0xFFFFFFC0 = w.localIp &&& 0xFFFFFFC0 → w.arpSpa ≠ bswap32 src →
      ∀ frame more, (ipv4Rx netPoll pkt total got w).sent = w.sent ++ frame :: more →
        arpTarget frame = src

/-- A stack that knows the hardware address of one neighbour. -/
def knowing (localIp ip : Nat) : Stack := { idleStack with localIp := localIp, arpSpa := ip }

theorem knowing_sends (localIp : Nat) : ∃ arp ip, SendsArp (knowing localIp localIp) arp ∧
    SendsIpv4 (knowing localIp localIp) ip := by
  obtain ⟨arp, more, hsent, -⟩ := arpResolve_asks (w := knowing localIp localIp) (localIp + 1)
    (Nat.ne_of_lt (Nat.lt_succ_self _))
  obtain ⟨ip, hip, -⟩ := ethSend_frame ethertypeIpv4 28 zero
    (ipv4Packet localIp localIp protoUdp zero 8) (knowing localIp localIp) (by decide) (by decide)
  refine ⟨arp, ip, Or.inr ⟨localIp + 1, more, Nat.ne_of_lt (Nat.lt_succ_self _), hsent⟩,
    localIp, protoUdp, zero, 8, zero, knowing localIp localIp, ?_, ?_⟩
  · have near : nexthop (knowing localIp localIp) localIp = localIp := if_pos rfl
    rw [near]
    exact if_pos rfl
  · have near : nexthop (knowing localIp localIp) localIp = localIp := if_pos rfl
    have resolved : arpResolve netPoll localIp (knowing localIp localIp) =
        (some zero, knowing localIp localIp) :=
      if_pos rfl
    rw [ipv4Send, near, resolved]
    exact hip

/-- An echo request from `src` in a packet of 28 octets. -/
def echoRequest (src : Nat) : Bytes := put32 (put8 (put8 (put8 zero 0 0x45) 9 1) 20 8) 12 src

theorem echoRequest_src {src : Nat} (hsrc : src < 4294967296) : Ip.src (echoRequest src) = src := by
  rw [Ip.src, echoRequest, get32_put32, Nat.mod_eq_of_lt hsrc]

theorem echoRequest_answered (w : Stack) (src : Nat) : Answered w (echoRequest src) 28 := by
  have hver : Ip.verIhl (echoRequest src) = 0x45 := by
    rw [Ip.verIhl, get8, echoRequest]
    rfl
  have hproto : Ip.proto (echoRequest src) = protoIcmp := by
    rw [Ip.proto, get8, echoRequest]
    rfl
  have hlen : Ip.hlen (echoRequest src) = 20 := by
    rw [Ip.hlen, hver]
    rfl
  have htype : octetsFrom (echoRequest src) 20 0 = 8 := by
    rw [octetsFrom, echoRequest]
    rfl
  rw [Answered, hver, hlen]
  exact ⟨⟨by decide, by decide⟩, Or.inl ⟨rfl, by decide, htype⟩⟩

/-- The two encodings are one exactly for the addresses whose octets read the same from both
ends. -/
theorem one_encoding_iff (localIp src : Nat) (hip : localIp < 4294967296)
    (hsrc : src < 4294967296) :
    OneEncoding localIp src ↔ bswap32 localIp = localIp ∧
      (bswap32 src &&& 0xFFFFFFC0 = localIp &&& 0xFFFFFFC0 → bswap32 src = src) := by
  constructor
  · intro one
    constructor
    · obtain ⟨arp, ip, harp, hipv4⟩ := knowing_sends localIp
      have same := (one (knowing localIp localIp) rfl).1 arp ip harp hipv4
      rw [harp.sender, hipv4.source hip] at same
      exact same.symm.trans (u32_of_lt hip)
    · intro near
      have unknown : (knowing localIp (bswap32 src + 1)).arpSpa ≠ bswap32 src := Nat.succ_ne_self _
      have from_src := echoRequest_src hsrc
      have answered := echoRequest_answered (knowing localIp (bswap32 src + 1)) src
      obtain ⟨frame, more, hsent, -, htarget⟩ := answered.asks 0 (by rw [from_src]; exact near)
        (by rw [from_src]; exact unknown)
      have asked := (one _ rfl).2 (echoRequest src) 28 0 from_src answered near unknown
        frame more hsent
      rw [htarget, from_src] at asked
      exact asked
  · rintro ⟨own, other⟩ w rfl
    refine ⟨fun arp ip harp hipv4 => ?_, ?_⟩
    · rw [harp.sender, hipv4.source hip, own, u32_of_lt hip]
    · rintro pkt total got rfl answered near unknown frame more hsent
      obtain ⟨asked, more', hasked, -, htarget⟩ := answered.asks got near unknown
      have same := List.cons.inj (List.append_cancel_left (hsent.symm.trans hasked))
      rw [same.1, htarget, other near]

/-- 10.0.0.10 reads the same from both ends. -/
theorem one_encoding_palindrome : OneEncoding 0x0A00000A 0x0A00000A :=
  (one_encoding_iff 0x0A00000A 0x0A00000A (by decide) (by decide)).mpr
    ⟨by decide, fun _ => by decide⟩

/-- Four octets of a frame, as the machine reads them. -/
def dotted (a b c d : UInt8) : Nat := get32 (ofList zero 0 [a, b, c, d]) 0

/-- At the address of the start ARP says 10.2.0.15 and IPv4 says 15.0.2.10, and the answer to
15.0.2.2 starts with a request for 2.2.0.15. -/
theorem addresses_reversed :
    (∃ arp ip, SendsArp (knowing localIpDefault localIpDefault) arp ∧
      SendsIpv4 (knowing localIpDefault localIpDefault) ip ∧
      arpSender arp = dotted 10 2 0 15 ∧ ipv4Source ip = dotted 15 0 2 10) ∧
    (∃ frame more,
      (ipv4Rx netPoll (echoRequest (dotted 15 0 2 2)) 28 42 (knowing localIpDefault 0)).sent =
      frame :: more ∧ be16 (frameOctets frame) 12 = ethertypeArp ∧
      arpTarget frame = dotted 2 2 0 15) ∧
    ¬ OneEncoding localIpDefault (dotted 15 0 2 2) := by
  obtain ⟨arp, ip, harp, hip⟩ := knowing_sends localIpDefault
  have hsender : arpSender arp = dotted 10 2 0 15 := harp.sender.trans (by decide)
  have hsource : ipv4Source ip = dotted 15 0 2 10 := (hip.source (by decide)).trans (by decide)
  have from_peer : Ip.src (echoRequest (dotted 15 0 2 2)) = dotted 15 0 2 2 :=
    echoRequest_src (by decide)
  have answered := echoRequest_answered (knowing localIpDefault 0) (dotted 15 0 2 2)
  obtain ⟨frame, more, hsent, htype, htarget⟩ := answered.asks 42 (by decide)
    (by decide)
  refine ⟨⟨arp, ip, harp, hip, hsender, hsource⟩, ⟨frame, more, hsent, htype, ?_⟩, fun one => ?_⟩
  · rw [htarget]
    decide
  · have same := (one (knowing localIpDefault localIpDefault) rfl).1 arp ip harp hip
    rw [hsender, hsource] at same
    exact absurd same (by decide)

end Obsidian.Net
