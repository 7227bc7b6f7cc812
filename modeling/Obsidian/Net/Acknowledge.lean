import Obsidian.Net.Contained
import Obsidian.Net.Emit

/-!
# What has been acknowledged

`tcp_rx` sets `rseq` to the sequence number of a segment and does not add the length of
its payload. Over any run of calls after a handshake, with any frames in between that
are not TCP and with polls inside polls, `rseq` is the sequence number of the last
segment without RST; it follows the last octet received exactly when nothing came with
or after that segment.
-/
namespace Obsidian.Net
open Lib Lib.Bytes

section frame

variable (frame : List UInt8)

/-- A frame that `ipv4_rx` hands to `tcp_rx`. -/
def IsTcp : Prop :=
  ethType (frameOctets frame) = ethertypeIpv4 ∧ ethHdrLen + ipv4HdrLen ≤ min frame.length 2048 ∧
    Ip.verIhl (octetsFrom (frameOctets frame) ethHdrLen) >>> 4 = 4 ∧
    Ip.proto (octetsFrom (frameOctets frame) ethHdrLen) = protoTcp

instance : Decidable (IsTcp frame) := inferInstanceAs (Decidable (_ ∧ _ ∧ _ ∧ _))

/-- Where the segment starts, and its octets. -/
def tcpStart : Nat := ethHdrLen + ipHlen (frameOctets frame)

def tcpOctets : Bytes := octetsFrom (frameOctets frame) (tcpStart frame)

/-- The total length that the IPv4 header gives. What the frame has behind the packet, padding
and checksum, is not a part of it. -/
def ipTotal : Nat := bswap16 (get16 (octetsFrom (frameOctets frame) ethHdrLen) 2)

def tcpLen : Nat := ipTotal frame - ipHlen (frameOctets frame)

/-- The packet lies in the frame and the header in the segment. -/
def HeaderFits : Prop :=
  ethHdrLen + ipTotal frame ≤ min frame.length 2048 ∧ tcpHdrLen ≤ Tcp.doff (tcpOctets frame) ∧
    Tcp.doff (tcpOctets frame) ≤ tcpLen frame

instance : Decidable (HeaderFits frame) := inferInstanceAs (Decidable (_ ∧ _ ∧ _))

def payloadLen : Nat := tcpLen frame - Tcp.doff (tcpOctets frame)

theorem HeaderFits.room {frame : List UInt8} (fits : HeaderFits frame) :
    tcpStart frame + tcpHdrLen ≤ min frame.length 2048 := by
  obtain ⟨inside, low, high⟩ := fits
  unfold tcpLen at high
  unfold tcpStart
  simp only [tcpHdrLen] at *
  omega

def isRst : Prop := Tcp.flags (tcpOctets frame) &&& tcpRst ≠ 0

instance : Decidable (isRst frame) := inferInstanceAs (Decidable (_ ≠ _))

end frame

/-- In-order segments from number `next` on, with any other frames in between: ACK is set, and
each has the number that follows the payloads before it. -/
def InOrder : Nat → Arrivals → Prop
  | _, [] => True
  | next, none :: rest => InOrder next rest
  | next, some frame :: rest =>
    if IsTcp frame then
      HeaderFits frame ∧ Tcp.flags (tcpOctets frame) &&& tcpAck ≠ 0 ∧
        Tcp.seq (tcpOctets frame) = next ∧
        InOrder (u32 (next + payloadLen frame)) rest
    else InOrder next rest

instance decidableInOrder : (next : Nat) → (taken : Arrivals) → Decidable (InOrder next taken)
  | _, [] => inferInstanceAs (Decidable True)
  | next, none :: rest => decidableInOrder next rest
  | next, some frame :: rest =>
    have := decidableInOrder next rest
    have := decidableInOrder (u32 (next + payloadLen frame)) rest
    inferInstanceAs (Decidable (if IsTcp frame then _ ∧ _ ∧ _ ∧ _ else _))

/-- The number that follows the last octet received. -/
def nextAfter : Nat → Arrivals → Nat
  | next, [] => next
  | next, none :: rest => nextAfter next rest
  | next, some frame :: rest =>
    nextAfter (if IsTcp frame then u32 (next + payloadLen frame) else next) rest

/-- The octets that came with and after the last segment without RST. -/
def unacknowledged : Nat → Arrivals → Nat
  | sum, [] => sum
  | sum, none :: rest => unacknowledged sum rest
  | sum, some frame :: rest =>
    unacknowledged (if IsTcp frame then if isRst frame then sum + payloadLen frame else payloadLen
      frame else sum) rest

/-- The sequence number that the segments leave in `rseq`. -/
def ackAfter : Nat → Arrivals → Nat
  | rseq, [] => rseq
  | rseq, none :: rest => ackAfter rseq rest
  | rseq, some frame :: rest =>
    ackAfter (if IsTcp frame ∧ ¬ isRst frame ∧ Tcp.flags (tcpOctets frame) &&& tcpAck ≠ 0 then
      Tcp.seq (tcpOctets frame) else rseq) rest

theorem ackAfter_append (a b : Arrivals) (rseq : Nat) :
    ackAfter rseq (a ++ b) = ackAfter (ackAfter rseq a) b := by
  induction a generalizing rseq with
  | nil => rfl
  | cons first rest ih =>
    cases first with
    | none => exact ih rseq
    | some frame => exact ih _

theorem ackAfter_lt (taken : Arrivals) {rseq : Nat} (h : rseq < 4294967296) :
    ackAfter rseq taken < 4294967296 := by
  induction taken generalizing rseq with
  | nil => exact h
  | cons first rest ih =>
    cases first with
    | none => exact ih h
    | some frame =>
      rw [ackAfter]
      split
      · exact ih (bswap32_lt (get32_lt _ _))
      · exact ih h

theorem ackAfter_unacknowledged (taken : Arrivals) {next rseq sum : Nat} (hnext : next < 4294967296)
    (even : u32 (rseq + sum) = next) (inOrder : InOrder next taken) :
    u32 (ackAfter rseq taken + unacknowledged sum taken) = nextAfter next taken := by
  induction taken generalizing next rseq sum with
  | nil => exact even
  | cons first rest ih =>
    cases first with
    | none => exact ih hnext even inOrder
    | some frame =>
      rw [ackAfter, unacknowledged, nextAfter]
      rw [InOrder] at inOrder
      by_cases tcp : IsTcp frame
      · rw [if_pos tcp] at inOrder
        obtain ⟨_, hack, hseq, others⟩ := inOrder
        have hlt : u32 (next + payloadLen frame) < 4294967296 := Nat.mod_lt _ (by decide)
        rw [if_pos tcp, if_pos tcp]
        by_cases rst : isRst frame
        · rw [if_neg (fun h => h.2.1 rst), if_pos rst]
          apply ih hlt ?_ others
          unfold u32 at even ⊢
          omega
        · rw [if_pos ⟨tcp, rst, hack⟩, if_neg rst, hseq]
          exact ih hlt rfl others
      · rw [if_neg tcp] at inOrder
        rw [if_neg (fun h => tcp h.1), if_neg tcp, if_neg tcp]
        exact ih hnext even inOrder

theorem InOrder.headerFits {next : Nat} {taken : Arrivals} (inOrder : InOrder next taken) :
    ∀ frame, some frame ∈ taken → IsTcp frame → HeaderFits frame := by
  induction taken generalizing next with
  | nil => exact fun frame h => absurd h List.not_mem_nil
  | cons first rest ih =>
    intro frame h tcp
    cases first with
    | none =>
      rcases List.mem_cons.mp h with here | later
      · cases here
      · exact ih inOrder frame later tcp
    | some other =>
      rw [InOrder] at inOrder
      by_cases otherTcp : IsTcp other
      · rw [if_pos otherTcp] at inOrder
        rcases List.mem_cons.mp h with here | later
        · cases here
          exact inOrder.1
        · exact ih inOrder.2.2.2 frame later tcp
      · rw [if_neg otherTcp] at inOrder
        rcases List.mem_cons.mp h with here | later
        · cases here
          exact absurd tcp otherTcp
        · exact ih inOrder frame later tcp

/-! ## The segment of a frame -/

/-- The segment in `rxbuf`, and its length as `ipv4_rx` computes it. -/
def rxSegment (b : Bytes) : Bytes := octetsFrom (octetsFrom b ethHdrLen) (ipHlen b)

def rxLen (b : Bytes) (got : Nat) : Nat := u16 (got - ethHdrLen + 65536 - ipHlen b)

section segment

variable {frame : List UInt8} (w : Stack) (rest : Arrivals)

theorem loaded_hlen (tcp : IsTcp frame) :
    ipHlen (w.loaded frame rest).rxbuf = ipHlen (frameOctets frame) :=
  (ip_fields_congr (loaded_octets w frame rest) tcp.2.1).2.2.2

theorem loaded_rxLen (tcp : IsTcp frame) (starts : tcpStart frame ≤ min frame.length 2048) :
    rxLen (w.loaded frame rest).rxbuf (min frame.length 2048) =
    min frame.length 2048 - tcpStart frame := by
  have hlong := tcp.2.1
  have hlen := rest_eq (Nat.min_le_right frame.length 2048) (ipHlen_le (frameOctets frame))
    (by simp only [ethHdrLen, ipv4HdrLen] at *; omega)
  rw [rxLen, loaded_hlen w rest tcp]
  exact hlen.2 starts

theorem loaded_segment (room : tcpStart frame + tcpHdrLen ≤ min frame.length 2048)
    (tcp : IsTcp frame) :
    Tcp.seq (rxSegment (w.loaded frame rest).rxbuf) = Tcp.seq (tcpOctets frame) ∧
      Tcp.flags (rxSegment (w.loaded frame rest).rxbuf) = Tcp.flags (tcpOctets frame) := by
  have same := loaded_octets w frame rest
  simp only [tcpHdrLen] at room
  have shifted : Agree (rxSegment (w.loaded frame rest).rxbuf) (tcpOctets frame) 0 20 := by
    intro i _ hi
    have hplace : rxSegment (w.loaded frame rest).rxbuf i =
        (w.loaded frame rest).rxbuf (tcpStart frame + i) := by
      rw [rxSegment, loaded_hlen w rest tcp, octetsFrom, octetsFrom, tcpStart, Nat.add_assoc]
    rw [hplace]
    exact same (tcpStart frame + i) (Nat.zero_le _) (by omega)
  refine ⟨?_, ?_⟩
  · rw [Tcp.seq, Tcp.seq, get32_congr (shifted.mono (by omega) (by omega))]
  · rw [Tcp.flags, Tcp.flags, get8_congr (shifted.mono (by omega) (by omega))]

theorem ipv4Rx_tcp (poll : Stack → Stack) (tcp : IsTcp frame) :
    ∃ a src ipSrc, ipv4Rx poll (octetsFrom (w.loaded frame rest).rxbuf ethHdrLen)
      (u16 (min frame.length 2048 - ethHdrLen)) (min frame.length 2048) (w.loaded frame rest) =
        tcpRx poll (rxSegment (w.loaded frame rest).rxbuf)
        (rxLen (w.loaded frame rest).rxbuf (min frame.length 2048))
          src ipSrc ((w.loaded frame rest).note a) := by
  obtain ⟨_, hver, hproto, _⟩ := ip_fields_congr (loaded_octets w frame rest) tcp.2.1
  have htcp := hproto.trans tcp.2.2.2
  have hlong := tcp.2.1
  have hlen : u16 (min frame.length 2048 - ethHdrLen) = min frame.length 2048 - ethHdrLen :=
    u16_of_lt (by omega)
  refine ⟨.handed (ethHdrLen + ipHlen (w.loaded frame rest).rxbuf)
    (rxLen (w.loaded frame rest).rxbuf (min frame.length 2048)) (min frame.length 2048),
    bswap32 (Ip.src (octetsFrom (w.loaded frame rest).rxbuf ethHdrLen)),
    Ip.src (octetsFrom (w.loaded frame rest).rxbuf ethHdrLen), ?_⟩
  rw [ipv4Rx, hlen, if_neg (by omega), if_neg (by rw [hver, tcp.2.2.1]; decide)]
  rw [if_neg (by rw [htcp]; decide), if_neg (by rw [htcp]; decide), if_pos htcp]
  rfl

end segment

/-! ## Relations on the connection -/

/-- A labelled relation on the state and the received number of the connection: only TCP
segments have a part in it, each up to the point where `tcp_rx` sends something. -/
structure Connection (S : Arrivals → Stack → Stack → Prop) : Prop where
  trans : ∀ {a b u v w}, S a u v → S b v w → S (a ++ b) u w
  same : ∀ {w v : Stack}, v.st = w.st → v.rseq = w.rseq → S [] w v
  other : ∀ {arrival} {w v : Stack}, (∀ frame, arrival = some frame → ¬ IsTcp frame) → v.st = w.st →
    v.rseq = w.rseq → S [arrival] w v
  tcp : ∀ poll, (∀ v, Taking S v (poll v)) → ∀ (w : Stack) frame rest a src ipSrc, IsTcp frame →
    ∃ mid : Stack, mid.arrivals = rest ∧ S [some frame] w mid ∧ Taking S mid
      (tcpRx poll (rxSegment (w.loaded frame rest).rxbuf) (rxLen (w.loaded frame rest).rxbuf
        (min frame.length 2048))
        src ipSrc ((w.loaded frame rest).note a))

theorem ethSend_connection (ethertype : Nat) (dst payload : Bytes) (plen : Nat) (w : Stack) :
    (ethSend ethertype dst payload plen w).2.st = w.st ∧
    (ethSend ethertype dst payload plen w).2.rseq = w.rseq := by
  unfold ethSend e1000Send
  split
  · exact ⟨rfl, rfl⟩
  · exact ⟨rfl, rfl⟩

theorem arpRx_connection (a : Bytes) (w : Stack) :
    (arpRx a w).st = w.st ∧ (arpRx a w).rseq = w.rseq := by
  unfold arpRx
  split
  · exact ethSend_connection _ _ _ _ _
  · split
    · exact ⟨rfl, rfl⟩
    · exact ⟨rfl, rfl⟩

section connection

variable {S : Arrivals → Stack → Stack → Prop}

theorem Connection.traced (connection : Connection S) : Traced S where
  refl _ := connection.same rfl rfl
  trans := connection.trans
  send ethertype dst payload plen w := by
    obtain ⟨hst, hrseq⟩ := ethSend_connection ethertype dst payload plen w
    exact connection.same hst hrseq
  forget _ := connection.same rfl rfl

theorem Connection.ipv4Rx_other (connection : Connection S) {poll : Stack → Stack}
    (inner : ∀ v, Taking S v (poll v)) {frame : List UInt8} (w : Stack) (rest : Arrivals)
    (ipv4 : ethType (frameOctets frame) = ethertypeIpv4) (other : ¬ IsTcp frame)
    (hlong : ethHdrLen < frame.length) :
    Taking S (w.loaded frame rest) (ipv4Rx poll (octetsFrom (w.loaded frame rest).rxbuf ethHdrLen)
      (u16 (min frame.length 2048 - ethHdrLen)) (min frame.length 2048) (w.loaded frame rest)) := by
  have same := connection.traced.carried.refl (w.loaded frame rest)
  have hlen : u16 (min frame.length 2048 - ethHdrLen) = min frame.length 2048 - ethHdrLen :=
    u16_of_lt (by omega)
  by_cases short : ethHdrLen + ipv4HdrLen ≤ min frame.length 2048
  · obtain ⟨_, hver, hproto, _⟩ := ip_fields_congr (loaded_octets w frame rest) short
    by_cases version : Ip.verIhl (octetsFrom (frameOctets frame) ethHdrLen) >>> 4 = 4
    · refine connection.traced.ipv4Rx inner (fun _ _ _ => connection.same rfl rfl) (fun tcp =>
        ?_) _ _ _
      exact absurd ⟨ipv4, short, version, hproto.symm.trans tcp⟩ other
    · rw [ipv4Rx, if_neg (by omega), if_pos (by rw [hver]; exact version)]
      exact same
  · rw [ipv4Rx, if_pos (by simp only [ethHdrLen, ipv4HdrLen] at *; omega)]
    exact same

theorem Connection.handled (connection : Connection S) : Handled S where
  toTraced := connection.traced
  nothing _ _ _ := connection.other (fun _ h => nomatch h) rfl rfl
  short w frame rest _ hshort := by
    refine connection.other ?_ rfl rfl
    rintro _ ⟨⟩ tcp
    have long := tcp.2.1
    simp only [ethHdrLen, ipv4HdrLen] at long hshort
    omega
  own poll inner w frame rest _ hlong := by
    have htype : ethType (w.loaded frame rest).rxbuf = ethType (frameOctets frame) := by
      simp only [ethHdrLen] at hlong
      rw [ethType, ethType, get16_congr ((loaded_octets w frame rest).mono (by omega) (by omega))]
    have done := connection.traced.carried.refl
    unfold frameRx
    rw [htype]
    by_cases tcp : IsTcp frame
    · rw [if_neg (by rw [tcp.1]; decide), if_pos tcp.1]
      obtain ⟨a, src, ipSrc, handed⟩ := ipv4Rx_tcp w rest poll tcp
      rw [handed]
      exact connection.tcp poll inner w frame rest a src ipSrc tcp
    -- a frame that is not TCP leaves the connection alone
    have unrelated : ∀ v : Stack, v.st = w.st → v.rseq = w.rseq → S [some frame] w v := fun v =>
      connection.other fun _ h => Option.some.inj h ▸ tcp
    by_cases arp : ethType (frameOctets frame) = ethertypeArp
    · rw [if_pos arp]
      split
      · obtain ⟨hst, hrseq⟩ := arpRx_connection (octetsFrom (w.loaded frame rest).rxbuf ethHdrLen)
          (w.loaded frame rest)
        exact ⟨_, arpRx_arrivals _ _, unrelated _ hst hrseq, done _⟩
      · exact ⟨w.loaded frame rest, rfl, unrelated _ rfl rfl, done _⟩
    rw [if_neg arp]
    refine ⟨w.loaded frame rest, rfl, unrelated _ rfl rfl, ?_⟩
    by_cases ipv4 : ethType (frameOctets frame) = ethertypeIpv4
    · rw [if_pos ipv4]
      exact connection.ipv4Rx_other inner w rest ipv4 tcp hlong
    · rw [if_neg ipv4]
      exact done _

end connection

/-! ## Polls -/

/-- The connection is not opened again, and `rseq` is what the segments leave. -/
def Tracked (taken : Arrivals) (w v : Stack) : Prop :=
  (∀ frame, some frame ∈ taken → IsTcp frame → HeaderFits frame) → w.st ≠ .synSent →
    v.st ≠ .synSent ∧ v.rseq = ackAfter w.rseq taken

theorem Tracked.of_same {w v : Stack} (hst : v.st = w.st) (hrseq : v.rseq = w.rseq) :
    Tracked [] w v :=
  fun _ settled => ⟨by rwa [hst], hrseq⟩

theorem Tracked.trans {a b : Arrivals} {u v w : Stack} (first : Tracked a u v)
    (second : Tracked b v w) :
    Tracked (a ++ b) u w := by
  intro fits settled
  obtain ⟨hst, hrseq⟩ := first (fun frame h => fits frame (List.mem_append_left _ h)) settled
  obtain ⟨hst', hrseq'⟩ := second (fun frame h => fits frame (List.mem_append_right _ h)) hst
  refine ⟨hst', ?_⟩
  rw [hrseq', hrseq, ackAfter_append]

theorem ackAfter_other {arrival : Option (List UInt8)} (rseq : Nat)
    (other : ∀ frame, arrival = some frame → ¬ IsTcp frame) : ackAfter rseq [arrival] = rseq := by
  cases arrival with
  | none => rfl
  | some frame =>
    rw [ackAfter, if_neg (fun h => other frame rfl h.1)]
    rfl

theorem tracked_traced : Traced Tracked where
  refl _ := Tracked.of_same rfl rfl
  trans := Tracked.trans
  send ethertype dst payload plen w := by
    obtain ⟨hst, hrseq⟩ := ethSend_connection ethertype dst payload plen w
    exact Tracked.of_same hst hrseq
  forget _ := Tracked.of_same rfl rfl

theorem suffix_traced : Traced fun _ _ _ => True where
  refl _ := trivial
  trans _ _ := trivial
  send _ _ _ _ _ := trivial
  forget _ := trivial

section own

variable {poll : Stack → Stack} (inner : ∀ v, Taking Tracked v (poll v))

include inner

theorem tcpRx_own (t : Bytes) (len src ipSrc : Nat) (u : Stack) :
    ∃ mid :
    Stack, mid.arrivals = u.arrivals ∧
    (u.st ≠ .synSent → mid.st ≠ .synSent ∧ mid.rseq =
      if tcpHdrLen ≤ len ∧ Tcp.flags t &&& tcpRst = 0 ∧
      Tcp.flags t &&& tcpAck ≠ 0 then Tcp.seq t else u.rseq) ∧
    Taking Tracked mid (tcpRx poll t len src ipSrc u) := by
  have suffix : ∀ v, Taking (fun _ _ _ => True) v (poll v) := fun v =>
    let ⟨taken, harr, _⟩ := inner v
    ⟨taken, harr, trivial⟩
  by_cases opening : u.st = .synSent
  · obtain ⟨taken, harr, -⟩ :=
      suffix_traced.tcpRx suffix (fun _ _ _ _ _ => trivial) t len src ipSrc u
    exact ⟨u, rfl, fun settled => absurd opening settled, taken, harr, fun _ settled =>
      absurd opening settled⟩
  have same := tracked_traced.carried.refl
  rw [tcpRx]
  by_cases short : len < tcpHdrLen
  · rw [if_pos short]
    exact ⟨u, rfl, fun settled => ⟨settled, by rw [if_neg (by omega)]⟩, same u⟩
  rw [if_neg short, if_neg (fun h : u.st = .synSent ∧ _ => opening h.1)]
  by_cases rst : Tcp.flags t &&& tcpRst ≠ 0
  · rw [if_pos rst]
    exact ⟨{ u with st := .closed }, rfl, fun _ => ⟨nofun, by rw [if_neg (fun h => rst h.2.1)]⟩,
      same _⟩
  rw [if_neg rst]
  have received : (u.received t len).st ≠ .synSent ∧ (u.received t len).rseq =
      if tcpHdrLen ≤ len ∧ Tcp.flags t &&& tcpRst = 0 ∧
          Tcp.flags t &&& tcpAck ≠ 0 then Tcp.seq t else u.rseq := by
    rw [received_eq]
    refine ⟨opening, if_congr ?_ rfl rfl⟩
    exact ⟨fun ack => ⟨Nat.le_of_not_lt short, Decidable.not_not.mp rst, ack⟩, fun h => h.2.2⟩
  by_cases fin : Tcp.flags t &&& tcpFin ≠ 0
  · rw [if_pos fin]
    refine ⟨u.received t len, received_arrivals u t len, fun _ => received, ?_⟩
    rw [tcpClose]
    split
    · exact Taking.of_none rfl (Tracked.of_same rfl rfl)
    · have sent := tracked_traced.carried.ipv4Send inner src protoTcp
        (finSegment (u.received t len) src) tcpHdrLen
        (u.received t len)
      refine tracked_traced.taking_trans sent (Taking.of_none rfl fun _ _ => ⟨nofun, rfl⟩)
  · rw [if_neg fin]
    exact ⟨u.received t len, received_arrivals u t len, fun _ => received, same _⟩

end own

theorem tracked_connection : Connection Tracked where
  trans := Tracked.trans
  same := Tracked.of_same
  other other hst hrseq _ settled := ⟨by rwa [hst], by rw [ackAfter_other _ other, hrseq]⟩
  tcp poll inner w frame rest a src ipSrc tcp := by
    obtain ⟨mid, harr, effect, others⟩ := tcpRx_own inner (rxSegment (w.loaded frame rest).rxbuf)
      (rxLen (w.loaded frame rest).rxbuf (min frame.length 2048)) src ipSrc
        ((w.loaded frame rest).note a)
    refine ⟨mid, harr, fun fits settled => ?_, others⟩
    have room := (fits frame List.mem_cons_self tcp).room
    obtain ⟨hseq, hflags⟩ := loaded_segment w rest room tcp
    have hroom : tcpHdrLen ≤ rxLen (w.loaded frame rest).rxbuf (min frame.length 2048) := by
      rw [loaded_rxLen w rest tcp (by omega)]
      omega
    obtain ⟨hst, hrseq⟩ := effect settled
    rw [hseq, hflags] at hrseq
    refine ⟨hst, hrseq.trans ?_⟩
    rw [ackAfter]
    refine if_congr ?_ rfl rfl
    exact ⟨fun h => ⟨tcp, fun rst => rst h.2.1, h.2.2⟩, fun h =>
      ⟨hroom, Decidable.not_not.mp h.2.1, h.2.2⟩⟩

theorem tracked_handled : Handled Tracked := tracked_connection.handled

/-! ## Runs of calls -/

/-- The calls that can follow a handshake. -/
inductive Call where
  | poll
  | send (ip : Nat) (data : Bytes) (len : Nat)
  | close (ip : Nat)
  | datagram (dst dport sport : Nat) (data : Bytes) (len : Nat)

def Call.run : Call → Stack → Stack
  | .poll, w => netPoll w
  | .send ip data len, w => (tcpSend netPoll ip data len w).2
  | .close ip, w => (tcpClose netPoll ip w).2
  | .datagram dst dport sport data len, w => (udpSend netPoll dst dport sport data len w).2

theorem Call.run_tracked (call : Call) (w : Stack) : Taking Tracked w (call.run w) := by
  have inner := tracked_handled.netPoll
  have sends := fun dst proto seg len (v : Stack) =>
    tracked_traced.carried.ipv4Send inner dst proto seg len v
  have same := tracked_traced.carried.refl w
  cases call with
  | poll => exact inner w
  | send ip data len =>
    rw [Call.run, tcpSend]
    split
    · exact same
    split
    · exact same
    · refine tracked_traced.taking_trans (v := { w with lseq := u32 (w.lseq + len) }) ?_
        (sends _ _ _ _ _)
      exact Taking.of_none rfl (Tracked.of_same rfl rfl)
  | close ip =>
    rw [Call.run, tcpClose]
    split
    · exact same
    · exact tracked_traced.taking_trans (sends _ _ _ _ _) (Taking.of_none rfl fun _ _ =>
        ⟨nofun, rfl⟩)
  | datagram dst dport sport data len =>
    rw [Call.run, udpSend]
    split
    · exact same
    · exact sends _ _ _ _ _

/-- A run of calls, whatever arrives in between. -/
def runCalls : List Call → Stack → Stack
  | [], w => w
  | call :: rest, w => runCalls rest (call.run w)

theorem runCalls_tracked (calls : List Call) (w : Stack) : Taking Tracked w (runCalls calls w) := by
  induction calls generalizing w with
  | nil => exact tracked_traced.carried.refl w
  | cons call rest ih => exact tracked_traced.taking_trans (call.run_tracked w) (ih (call.run w))

/-- A segment with ACK set, from port 80, with at most six octets, in a frame of 60 octets. -/
def ackFrame (seq : UInt8) (payload : List UInt8) : List UInt8 :=
  List.replicate 12 0 ++ [8, 0] ++ [0x45, 0, 0, UInt8.ofNat (40 + payload.length)] ++
    List.replicate 5 0 ++ [6] ++ List.replicate 10 0 ++ [0, 80, 0x9C, 0x40] ++ [0, 0, 0, seq] ++
    [0, 0, 0, 0] ++ [0x50, 0x10] ++ List.replicate 6 0 ++ payload ++ List.replicate
      (6 - payload.length) 0

/-- A connection to port 80 that expects number 1. -/
def opened80 (arrivals : Arrivals) : Stack :=
  { idleStack with
    st := .established, rseq := 1, lseq := isn + 1, rportWant := 80,
    arrivals := arrivals }

end Obsidian.Net
