import Obsidian.Lib.Bytes

/-!
# The network stack

Source: net/stack.c.

Headers are octets with little-endian fields, as the packed structures are on the
machines the kernel runs on. The controller is a queue of arrivals: a poll that finds
nothing is an arrival of nothing, frames are handed out in order, and every frame given
to `e1000_send` is recorded together with whether the call succeeds.

`ipv4_send` may wait for an address and polls while it waits, so that a handler can be
entered again from inside another. The functions below take that inner `net_poll` as an
argument; `netPoll` ties the knot. `trace` records the windows of a frame that are
handed on and the copies into buffers of fixed size.
-/
namespace Obsidian.Net
open Lib Lib.Bytes

def ethertypeArp : Nat := 0x0806
def ethertypeIpv4 : Nat := 0x0800
def protoIcmp : Nat := 1
def protoTcp : Nat := 6
def protoUdp : Nat := 17

def tcpFin : Nat := 0x01
def tcpSyn : Nat := 0x02
def tcpRst : Nat := 0x04
def tcpPsh : Nat := 0x08
def tcpAck : Nat := 0x10

/-- Sizes of the headers. -/
def ethHdrLen : Nat := 14
def arpPktLen : Nat := 28
def ipv4HdrLen : Nat := 20
def icmpHdrLen : Nat := 8
def udpHdrLen : Nat := 8
def tcpHdrLen : Nat := 20

inductive TcpState where
  | closed
  | synSent
  | established
  | finWait
  deriving DecidableEq, Repr

/-- What is printed. -/
inductive Message where
  | udp (bytes src sport : Nat)
  | tcpEstablished
  | tcpReceived (bytes : Nat)
  | tcpClosed
  deriving DecidableEq, Repr

inductive Access where
  /-- The octets from `start` on of a received frame of `got` octets are handed on. -/
  | handed (start len got : Nat)
  /-- `len` octets are copied to offset `start` of an array of `capacity` octets. -/
  | copied (capacity start len : Nat)
  deriving DecidableEq, Repr

/-- The variables of the stack, with the controller and what is observed. -/
structure Stack where
  localMac : Bytes
  localIp : Nat
  gatewayIp : Nat
  arpTha : Bytes
  /-- Resolved address, 0 when empty. -/
  arpSpa : Nat
  st : TcpState
  rseq : Nat
  lseq : Nat
  rportWant : Nat
  lport : Nat
  rxbuf : Bytes
  /-- `e1000_present` -/
  present : Bool
  arrivals : List (Option (List UInt8))
  sent : List (List UInt8)
  /-- Whether the call of `e1000_send` with that number returns 0. -/
  sendOk : Nat → Bool
  console : List Message
  trace : List Access

def Stack.note (w : Stack) (a : Access) : Stack := { w with trace := w.trace ++ [a] }
def Stack.print (w : Stack) (m : Message) : Stack := { w with console := w.console ++ [m] }

/-! ## Byte order and checksum -/

/-- `((x & 0xFF) << 8) | (x >> 8)`, as a `u16` -/
def bswap16 (x : Nat) : Nat := u16 ((x &&& 0xFF) <<< 8 ||| x >>> 8)

/-- `((x & 0xFF) << 24) | ((x & 0xFF00) << 8) | ((x >> 8) & 0xFF00) | ((x >> 24) & 0xFF)` -/
def bswap32 (x : Nat) : Nat :=
  (x &&& 0xFF) <<< 24 ||| (x &&& 0xFF00) <<< 8 ||| x >>> 8 &&& 0xFF00 ||| x >>> 24 &&& 0xFF

/-- The loops of `inet_csum` over pairs of octets, from `i` on. -/
def addPairs (b : Bytes) : Nat → Nat → Nat → Nat
  | 0, _, sum => sum
  | more + 1, i, sum =>
    addPairs b more (i + 2) (u32 (sum + ((b i).toNat <<< 8 ||| (b (i + 1)).toNat)))

/-- `while (sum >> 16) sum = (sum & 0xFFFF) + (sum >> 16)` -/
def foldCarry : Nat → Nat → Nat
  | 0, sum => sum
  | more + 1, sum => if sum >>> 16 ≠ 0 then foldCarry more ((sum &&& 0xFFFF) + sum >>> 16) else sum

def inetCsum (data : Bytes) (len : Nat) (pseudo : Bytes) (plen : Nat) : Nat :=
  let sum := addPairs pseudo (plen / 2) 0 0
  let sum := addPairs data (len / 2) 0 sum
  let sum := if len % 2 = 1 then u32 (sum + (data (len - 1)).toNat <<< 8) else sum
  0xFFFF - foldCarry 32 sum % 65536

/-! ## Ethernet -/

/-- `e1000_send`: whether it returns 0. -/
def e1000Send (frame : List UInt8) (w : Stack) : Bool × Stack :=
  (w.sendOk w.sent.length, { w with sent := w.sent ++ [frame] })

/-- `e1000_poll(rxbuf, sizeof(rxbuf))`: return code, state. -/
def e1000Poll (w : Stack) : Int × Stack :=
  if w.present = false then (-1, w)
  else
    match w.arrivals with
    | [] => (0, w)
    | none :: rest => (0, { w with arrivals := rest })
    | some frame :: rest =>
      let got := min frame.length 2048
      (got, { w with rxbuf := ofList w.rxbuf 0 (frame.take 2048), arrivals := rest })

/-- The frame of `eth_send`; every octet that is sent is written first. -/
def ethFrame (ethertype : Nat) (dst src payload : Bytes) (plen : Nat) : Bytes :=
  let frame := copy zero 0 dst 0 6
  let frame := copy frame 6 src 0 6
  let frame := put16 frame 12 (u16 (ethertype >>> 8 ||| ethertype <<< 8))
  copy frame ethHdrLen payload 0 plen

def ethSend (ethertype : Nat) (dst payload : Bytes) (plen : Nat) (w : Stack) : Bool × Stack :=
  if 1600 - ethHdrLen < plen then (false, w)
  else e1000Send (toList (ethFrame ethertype dst w.localMac payload plen) 0
    (u16 (ethHdrLen + plen))) w

/-! ## ARP -/

namespace Arp
def htype (a : Bytes) : Nat := get16 a 0
def ptype (a : Bytes) : Nat := get16 a 2
def op (a : Bytes) : Nat := get16 a 6
def sha (a : Bytes) : Bytes := slice a 8 6
def spa (a : Bytes) : Nat := get32 a 14
end Arp

/-- `struct arp_pkt` with its fields filled in. -/
def arpPkt (htype ptype op : Nat) (sha : Bytes) (spa : Nat) (tha : Bytes) (tpa : Nat) : Bytes :=
  let a := put16 zero 0 htype
  let a := put16 a 2 ptype
  let a := put8 a 4 6
  let a := put8 a 5 4
  let a := put16 a 6 op
  let a := copy a 8 sha 0 6
  let a := put32 a 14 spa
  let a := copy a 18 tha 0 6
  put32 a 24 tpa

def arpRx (a : Bytes) (w : Stack) : Stack :=
  if Arp.op a = 0x0001 then
    (ethSend ethertypeArp (Arp.sha a)
      (arpPkt (Arp.htype a) (Arp.ptype a) 0x0002 w.localMac w.localIp (Arp.sha a) (Arp.spa a))
        arpPktLen w).2
  else if Arp.op a = 0x0002 then { w with arpTha := Arp.sha a, arpSpa := Arp.spa a }
  else w

/-- `for (spin = 0; spin < n && !arp_spa; spin++) net_poll();` -/
def spinArp (poll : Stack → Stack) : Nat → Stack → Stack
  | 0, w => w
  | n + 1, w => if w.arpSpa ≠ 0 then w else spinArp poll n (poll w)

/-- The request of `arp_resolve`. -/
def arpRequest (w : Stack) (ip : Nat) : Bytes :=
  arpPkt 0x0100 0x0008 0x0001 w.localMac w.localIp zero ip

def bcast : Bytes := fun _ => 0xFF

/-- `arp_resolve` up to its wait. -/
def arpAsk (ip : Nat) (w : Stack) : Stack :=
  (ethSend ethertypeArp bcast (arpRequest w ip) arpPktLen { w with arpSpa := 0 }).2

/-- `arp_resolve`: the address found, or false. -/
def arpResolve (poll : Stack → Stack) (ip : Nat) (w : Stack) : Option Bytes × Stack :=
  if w.arpSpa = ip then (some w.arpTha, w)
  else
    let v := spinArp poll 200000 (arpAsk ip w)
    if v.arpSpa = ip then (some v.arpTha, v) else (none, v)

/-! ## IPv4 transmit -/

/-- The header of `ipv4_send` before its checksum. -/
def ipv4Hdr (localIp dst proto segLen : Nat) : Bytes :=
  let ip := put8 zero 0 0x45
  let ip := put16 ip 2 (u16 ((segLen + ipv4HdrLen &&& 0xFF) <<< 8) |||
    u16 ((segLen + ipv4HdrLen) >>> 8 &&& 0xFF))
  let ip := put8 ip 8 64
  let ip := put8 ip 9 proto
  let ip := put32 ip 12 (bswap32 localIp)
  put32 ip 16 (bswap32 dst)

/-- The packet that `ipv4_send` passes to `eth_send`. -/
def ipv4Packet (localIp dst proto : Nat) (seg : Bytes) (segLen : Nat) : Bytes :=
  let ip := ipv4Hdr localIp dst proto segLen
  let ip := put16 ip 10 (inetCsum ip ipv4HdrLen zero 0)
  copy (copy zero 0 ip 0 ipv4HdrLen) ipv4HdrLen seg 0 segLen

/-- The address that a packet goes to first. -/
def nexthop (w : Stack) (dst : Nat) : Nat :=
  if dst &&& 0xFFFFFFC0 = w.localIp &&& 0xFFFFFFC0 then dst else w.gatewayIp

def ipv4Send (poll : Stack → Stack) (dst proto : Nat) (seg : Bytes) (segLen : Nat) (w : Stack) :
    Bool × Stack :=
  match arpResolve poll (nexthop w dst) w with
  | (none, w) => (false, w)
  | (some mac, w) =>
    if 1480 < segLen then (false, w)
    else ethSend ethertypeIpv4 mac (ipv4Packet w.localIp dst proto seg segLen)
      (u16 (ipv4HdrLen + segLen)) w

/-! ## ICMP and UDP -/

/-- The body of the echo reply. -/
def echoReply (body : Bytes) (len : Nat) : Bytes :=
  let reply := copy zero 0 body 0 len
  let reply := put8 (put8 (put8 reply 0 0) 2 0) 3 0
  let c := inetCsum reply len zero 0
  put8 (put8 reply 2 (c >>> 8)) 3 c

/-- The copies into `reply` and `full`. -/
def Stack.echoCopies (w : Stack) (len : Nat) : Stack :=
  ((w.note (.copied 1500 0 len)).note (.copied 1600 0 ipv4HdrLen)).note
    (.copied 1600 ipv4HdrLen len)

/-- `icmp_rx`. The header `rip` that it also builds is not sent. -/
def icmpRx (poll : Stack → Stack) (body : Bytes) (len src : Nat) (w : Stack) : Stack :=
  if len < icmpHdrLen then w
  else if get8 body 0 ≠ 8 then w
  else (ipv4Send poll src protoIcmp (echoReply body len) len (w.echoCopies len)).2

def udpRx (seg : Bytes) (len src : Nat) (w : Stack) : Stack :=
  if len < udpHdrLen then w
  else w.print (.udp (len - udpHdrLen) src (bswap16 (get16 seg 0)))

def udpSend (poll : Stack → Stack) (dst dport sport : Nat) (data : Bytes) (len : Nat) (w : Stack) :
    Int × Stack :=
  if 1400 < len then (-1, w)
  else
    let uh := put16 zero 0 (bswap16 sport)
    let uh := put16 uh 2 (bswap16 dport)
    let uh := put16 uh 4 (u16 ((len + 8 &&& 0xFF) <<< 8 ||| (len + 8) >>> 8 &&& 0xFF))
    let r := ipv4Send poll dst protoUdp (copy (copy zero 0 uh 0 udpHdrLen) udpHdrLen data 0 len)
      (u16 (len + udpHdrLen)) w
    (if r.1 then 0 else -1, r.2)

/-! ## TCP -/

namespace Tcp
def sport (t : Bytes) : Nat := get16 t 0
def dport (t : Bytes) : Nat := get16 t 2
/-- The sequence number as `tcp_rx` decodes it. -/
def seq (t : Bytes) : Nat := bswap32 (get32 t 4)
/-- The acknowledgement number as `tcp_rx` decodes it. -/
def ackn (t : Bytes) : Nat := bswap32 (get32 t 8)
/-- The header length that the segment gives. -/
def doff (t : Bytes) : Nat := (get8 t 12 >>> 4) * 4
def flags (t : Bytes) : Nat := get8 t 13
end Tcp

/-- `struct tcp_hdr` without checksum; what is not given is zero. -/
def tcpHdr (sport dport seq ack flags win : Nat) : Bytes :=
  let t := put16 zero 0 sport
  let t := put16 t 2 dport
  let t := put32 t 4 seq
  let t := put32 t 8 ack
  let t := put8 t 12 0x50
  let t := put8 t 13 flags
  put16 t 14 win

/-- `((4096 & 0xFF) << 8) | 0x00` -/
def window : Nat := (4096 &&& 0xFF) <<< 8 ||| 0x00

/-- The pseudo header of `tcp_checksum`. -/
def pseudoHdr (localIp peer plen : Nat) : Bytes :=
  let p := put32 zero 0 (bswap32 localIp)
  let p := put32 p 4 peer
  let p := put8 p 8 0
  let p := put8 p 9 protoTcp
  put16 p 10 (u16 ((tcpHdrLen + plen &&& 0xFF) <<< 8) ||| (tcpHdrLen + plen) >>> 8 &&& 0xFF)

/-- `tcp_checksum`. The payload is an argument and is not read. -/
def tcpChecksum (localIp peer : Nat) (t _payload : Bytes) (plen : Nat) : Nat :=
  inetCsum t tcpHdrLen (pseudoHdr localIp peer plen) 12

/-- A header with its checksum, followed by the payload. -/
def tcpSegment (localIp peer : Nat) (t payload : Bytes) (plen : Nat) : Bytes :=
  copy (put16 t 16 (tcpChecksum localIp peer t payload plen)) tcpHdrLen payload 0 plen

/-- The segment of `tcp_connect`. -/
def synSegment (w : Stack) (ip port : Nat) : Bytes :=
  tcpSegment w.localIp (bswap32 ip) (tcpHdr (bswap16 w.lport) (bswap16 port) w.lseq 0 tcpSyn window)
    zero 0

/-- The segment of `tcp_send`. -/
def dataSegment (w : Stack) (ip : Nat) (data : Bytes) (len : Nat) : Bytes :=
  tcpSegment w.localIp (bswap32 ip)
    (tcpHdr (bswap16 w.lport) (bswap16 w.rportWant) w.lseq w.rseq (tcpAck ||| tcpPsh) window) data
      len

/-- The segment of `tcp_close`. -/
def finSegment (w : Stack) (ip : Nat) : Bytes :=
  tcpSegment w.localIp (bswap32 ip)
    (tcpHdr (bswap16 w.lport) (bswap16 w.rportWant) w.lseq w.rseq (tcpFin ||| tcpAck) 0) zero 0

/-- The answer of `tcp_rx` to a SYN segment `t`; `ipSrc` is the source field of its packet. -/
def ackSegment (w : Stack) (t : Bytes) (ipSrc : Nat) : Bytes :=
  tcpSegment w.localIp ipSrc (tcpHdr (Tcp.dport t) (Tcp.sport t) w.lseq w.rseq tcpAck window) zero 0

/-- The initial sequence number of `tcp_connect`. -/
def isn : Nat := 1000

/-- `for (spin = 0; spin < n && st == TCP_SYN_SENT; spin++) net_poll();` -/
def spinSyn (poll : Stack → Stack) : Nat → Stack → Stack
  | 0, w => w
  | n + 1, w => if w.st = .synSent then spinSyn poll n (poll w) else w

/-- `tcp_connect` up to the call of `ipv4_send`. -/
def Stack.opened (w : Stack) (port : Nat) : Stack :=
  { w with rportWant := port, lseq := isn, rseq := 0, st := .synSent }

def tcpConnect (poll : Stack → Stack) (ip port : Nat) (w : Stack) : Int × Stack :=
  if w.st ≠ .closed ∨ w.present = false then (-1, w)
  else
    let w := w.opened port
    match ipv4Send poll ip protoTcp (synSegment w ip port) tcpHdrLen w with
    | (false, w) => (-1, w)
    | (true, w) =>
      let w := spinSyn poll 500000 w
      (if w.st = .established then 0 else -1, w)

def tcpSend (poll : Stack → Stack) (ip : Nat) (data : Bytes) (len : Nat) (w : Stack) :
    Int × Stack :=
  if w.st ≠ .established then (-1, w)
  else if 1400 < len then (-1, w)
  else
    let r := ipv4Send poll ip protoTcp (dataSegment w ip data len) (u16 (tcpHdrLen + len))
      { w with lseq := u32 (w.lseq + len) }
    (if r.1 then 0 else -1, r.2)

def tcpClose (poll : Stack → Stack) (ip : Nat) (w : Stack) : Int × Stack :=
  if w.st ≠ .established then (-1, w)
  else (0, { (ipv4Send poll ip protoTcp (finSegment w ip) tcpHdrLen w).2 with st := .closed })

/-- The numbers that a SYN segment sets. -/
def Stack.synced (w : Stack) (t : Bytes) : Stack :=
  { w with rseq := u32 (Tcp.seq t + 1), lseq := Tcp.ackn t }

/-- The branch of `tcp_rx` that answers a SYN. -/
def tcpEstablish (poll : Stack → Stack) (t : Bytes) (src ipSrc : Nat) (w : Stack) : Stack :=
  let v := (ipv4Send poll src protoTcp (ackSegment (w.synced t) t ipSrc) tcpHdrLen (w.synced t)).2
  ({ v with st := .established } : Stack).print .tcpEstablished

/-- The acknowledgement and the message of a segment that is neither SYN nor RST. -/
def Stack.received (w : Stack) (t : Bytes) (len : Nat) : Stack :=
  let w := if Tcp.flags t &&& tcpAck ≠ 0 then { w with rseq := Tcp.seq t } else w
  if Tcp.doff t < len then w.print (.tcpReceived (len - Tcp.doff t)) else w

theorem received_eq (w : Stack) (t : Bytes) (len : Nat) : w.received t len = { w with
    rseq := if Tcp.flags t &&& tcpAck ≠ 0 then Tcp.seq t else w.rseq
    console := if Tcp.doff t < len then w.console ++ [.tcpReceived (len - Tcp.doff t)]
        else w.console } := by
  unfold Stack.received Stack.print
  split
  · split
    · rfl
    · rfl
  · split
    · rfl
    · rfl

/-- `tcp_rx`; `ipSrc` is the source field of the packet, `src` the same in host order. -/
def tcpRx (poll : Stack → Stack) (t : Bytes) (len src ipSrc : Nat) (w : Stack) : Stack :=
  if len < tcpHdrLen then w
  else if w.st = .synSent ∧ Tcp.flags t &&& tcpSyn ≠ 0 then tcpEstablish poll t src ipSrc w
  else if Tcp.flags t &&& tcpRst ≠ 0 then { w with st := .closed }
  else if Tcp.flags t &&& tcpFin ≠ 0 then (tcpClose poll src (w.received t len)).2.print .tcpClosed
  else w.received t len

/-! ## Ingress -/

/-- The octets of a buffer from `off` on. -/
def octetsFrom (b : Bytes) (off : Nat) : Bytes := fun i => b (off + i)

namespace Ip
def verIhl (ip : Bytes) : Nat := get8 ip 0
def hlen (ip : Bytes) : Nat := (verIhl ip &&& 0xF) * 4
def proto (ip : Bytes) : Nat := get8 ip 9
def src (ip : Bytes) : Nat := get32 ip 12
end Ip

/-- `ipv4_rx`, of a packet in a frame of `got` octets. -/
def ipv4Rx (poll : Stack → Stack) (pkt : Bytes) (len got : Nat) (w : Stack) : Stack :=
  if len < ipv4HdrLen then w
  else if Ip.verIhl pkt >>> 4 ≠ 4 then w
  else
    let hlen := Ip.hlen pkt
    let src := bswap32 (Ip.src pkt)
    let rest := u16 (len + 65536 - hlen)
    let w' := w.note (.handed (ethHdrLen + hlen) rest got)
    if Ip.proto pkt = protoIcmp then icmpRx poll (octetsFrom pkt hlen) rest src w'
    else if Ip.proto pkt = protoUdp then udpRx (octetsFrom pkt hlen) rest src w'
    else if Ip.proto pkt = protoTcp then tcpRx poll (octetsFrom pkt hlen) rest src (Ip.src pkt) w'
    else w

/-- `(u16)((eth.type >> 8) | (eth.type << 8))` -/
def ethType (frame : Bytes) : Nat := u16 (get16 frame 12 >>> 8 ||| get16 frame 12 <<< 8)

/-- The body of the loop of `net_poll`. -/
def frameRx (poll : Stack → Stack) (got : Nat) (w : Stack) : Stack :=
  if ethType w.rxbuf = ethertypeArp then
    if ethHdrLen + arpPktLen ≤ got then arpRx (octetsFrom w.rxbuf ethHdrLen) w else w
  else if ethType w.rxbuf = ethertypeIpv4 then
    ipv4Rx poll (octetsFrom w.rxbuf ethHdrLen) (u16 (got - ethHdrLen)) got w
  else w

/-- `net_poll`, for at most `n` frames, those of the polls inside it included. -/
def pollFrames : Nat → Stack → Stack
  | 0, w => w
  | n + 1, w =>
    let r := e1000Poll w
    if r.1 ≤ ethHdrLen then r.2 else pollFrames n (frameRx (pollFrames n) r.1.toNat r.2)

/-- `net_poll`. Each frame is taken from the arrivals, so that there are never more of them
to handle than there were at the start. -/
def netPoll (w : Stack) : Stack := pollFrames (w.arrivals.length + 1) w

def netStackSetMac (mac : Bytes) (w : Stack) : Stack :=
  { w with localMac := copy w.localMac 0 mac 0 6 }

def netStackSetIp (ip gw : Nat) (w : Stack) : Stack := { w with localIp := ip, gatewayIp := gw }

/-- `local_ip` and `gateway_ip` at the start. -/
def localIpDefault : Nat := 0x0F00020A
def gatewayIpDefault : Nat := 0x0200020A
def lportDefault : Nat := 40000

/-- The stack after its start, with nothing arriving and every send succeeding. -/
def idleStack : Stack :=
  { localMac := zero, localIp := localIpDefault, gatewayIp := gatewayIpDefault,
    arpTha := zero, arpSpa := 0
    st := .closed, rseq := 0, lseq := 0, rportWant := 0, lport := lportDefault,
      rxbuf := zero, present := true
    arrivals := [], sent := [], sendOk := fun _ => true, console := [], trace := [] }

end Obsidian.Net
