import Obsidian.Net.Taken
import Obsidian.Lib.ByteOrder

/-!
# ARP on the wire

The opcode is the one field of an ARP packet that the stack neither stores nor compares
in network order. An opcode below 256 as other hosts send it is none that `arp_rx` knows,
and the requests of `arp_resolve` have an opcode that other hosts do not know.
-/
namespace Obsidian.Net
open Lib Lib.Bytes

/-- An ARP packet over Ethernet, with an opcode and a target address as they are on the wire. -/
structure WireArp (frame : List UInt8) (op tpa : Nat) : Prop where
  long : ethHdrLen + arpPktLen ≤ frame.length
  ethertype : be16 (frameOctets frame) 12 = ethertypeArp
  htype : be16 (frameOctets frame) 14 = 1
  ptype : be16 (frameOctets frame) 16 = ethertypeIpv4
  hlen : get8 (frameOctets frame) 18 = 6
  plen : get8 (frameOctets frame) 19 = 4
  op : be16 (frameOctets frame) 20 = op
  /-- The four octets, as `local_ip` is stored. -/
  tpa : get32 (frameOctets frame) 38 = tpa

/-- Not an ARP frame, or one with an opcode that is assigned: they are below 256. -/
def OpcodeAssigned (frame : List UInt8) : Prop :=
  be16 (frameOctets frame) 12 = ethertypeArp → be16 (frameOctets frame) 20 < 256

variable {frame : List UInt8} {op tpa : Nat} {w : Stack} {rest : Arrivals}

theorem WireArp.assigned (arp : WireArp frame op tpa) (small : op < 256) :
    OpcodeAssigned frame := by
  intro _
  rw [arp.op]
  exact small

theorem ethType_eq (b : Bytes) : ethType b = be16 b 12 := by
  have hlt := get16_lt b 12
  have hhigh : get16 b 12 >>> 8 = get16 b 12 / 256 := Nat.shiftRight_eq_div_pow _ 8
  rw [ethType, be16_get16, Nat.or_comm, lor_octet (by omega), swap16, u16]
  omega

theorem arpRx_ignores (assigned : OpcodeAssigned frame)
    (arp : ethType (w.loaded frame rest).rxbuf = ethertypeArp)
    (long : ethHdrLen + arpPktLen ≤ frame.length) :
    arpRx (octetsFrom (w.loaded frame rest).rxbuf ethHdrLen) (w.loaded frame rest) =
    w.loaded frame rest := by
  have same := loaded_octets w frame rest
  simp only [ethHdrLen, arpPktLen] at long
  rw [ethType_eq, be16_congr (same.mono (by omega) (by omega))] at arp
  have hop : be16 (w.loaded frame rest).rxbuf 20 < 256 := by
    rw [be16_congr (same.mono (by omega) (by omega))]
    exact assigned arp
  have hread : Arp.op (octetsFrom (w.loaded frame rest).rxbuf ethHdrLen) =
    get16 (w.loaded frame rest).rxbuf 20 := rfl
  rw [be16_get16] at hop
  unfold swap16 at hop
  unfold arpRx
  rw [if_neg (by omega), if_neg (by omega)]

theorem netPoll_ignores (present : w.present = true) (harr : w.arrivals = some frame :: rest)
    (arp : WireArp frame op tpa) (small : op < 256) :
    netPoll w = netPoll (w.loaded frame rest) := by
  have found : e1000Poll w = (((min frame.length 2048 : Nat) : Int), w.loaded frame rest) := by
    unfold e1000Poll
    rw [if_neg (by rw [present]; decide), harr]
    rfl
  have long := arp.long
  have same := loaded_octets w frame rest
  have hlong : ethHdrLen + arpPktLen ≤ min frame.length 2048 := by
    simp only [ethHdrLen, arpPktLen] at long ⊢
    omega
  have htype : ethType (w.loaded frame rest).rxbuf = ethertypeArp := by
    simp only [ethHdrLen, arpPktLen] at hlong
    rw [ethType_eq, be16_congr (same.mono (by omega) (by omega)), arp.ethertype]
  rw [netPoll_eq w, found]
  rw [if_neg (by simp only [ethHdrLen, arpPktLen] at *; omega), Int.toNat_natCast, frameRx,
    if_pos htype,
    if_pos hlong, arpRx_ignores (arp.assigned small) htype long]

/-- As long as the opcodes are assigned ones, nothing is found while an address is looked for. -/
def StillEmpty (taken : Arrivals) (w v : Stack) : Prop :=
  (∀ frame, some frame ∈ taken → OpcodeAssigned frame) → w.arpSpa = 0 → v.arpSpa = 0

theorem ethSend_arpSpa (ethertype : Nat) (dst payload : Bytes) (plen : Nat) (w : Stack) :
    (ethSend ethertype dst payload plen w).2.arpSpa = w.arpSpa := by
  unfold ethSend e1000Send
  split
  · rfl
  · rfl

theorem stillEmpty_traced : Traced StillEmpty where
  refl _ _ empty := empty
  trans first second assigned empty :=
    second (fun frame h => assigned frame (List.mem_append_right _ h))
      (first (fun frame h => assigned frame (List.mem_append_left _ h)) empty)
  send _ _ _ _ _ _ empty := by rw [ethSend_arpSpa, empty]
  forget _ _ _ := rfl

theorem stillEmpty_handled : Handled StillEmpty where
  toTraced := stillEmpty_traced
  nothing _ _ _ _ empty := empty
  short _ _ _ _ _ _ empty := empty
  own poll inner w frame rest _ hlong := by
    have taken : StillEmpty [some frame] w (w.loaded frame rest) := fun _ empty => empty
    have done := fun v => stillEmpty_traced.carried.refl v
    unfold frameRx
    split
    next arp =>
      split
      next hgot =>
        refine ⟨_, arpRx_arrivals _ _, fun assigned empty => ?_, done _⟩
        have long : ethHdrLen + arpPktLen ≤ frame.length := Nat.le_trans hgot (Nat.min_le_left _ _)
        rw [arpRx_ignores (assigned frame List.mem_cons_self) arp long]
        exact empty
      · exact ⟨_, rfl, taken, done _⟩
    split
    · refine ⟨_, rfl, taken, ?_⟩
      have tcp := stillEmpty_traced.tcpRx inner fun _ _ _ _ _ _ empty => empty
      exact stillEmpty_traced.ipv4Rx inner (fun _ _ _ _ empty => empty) (fun _ => tcp) _ _ _
    · exact ⟨_, rfl, taken, done _⟩

/-- No answer with an assigned opcode, whatever else arrives, is found by `arp_resolve`. -/
theorem arpResolve_finds_none {ip : Nat} (unknown : w.arpSpa ≠ ip) (proper : ip ≠ 0)
    (assigned : ∀ frame, some frame ∈ w.arrivals → OpcodeAssigned frame) :
    (arpResolve netPoll ip w).1 = none := by
  obtain ⟨taken, harr, empty⟩ :=
    stillEmpty_traced.carried.spinArp (fun v => stillEmpty_handled.netPoll v) 200000
    (arpAsk ip w)
  have hasked : (arpAsk ip w).arpSpa = 0 := ethSend_arpSpa _ _ _ _ _
  have harrived : (arpAsk ip w).arrivals = w.arrivals := ethSend_arrivals _ _ _ _ _
  rw [harrived] at harr
  have hnone : (spinArp netPoll 200000 (arpAsk ip w)).arpSpa = 0 :=
    empty (fun frame h => assigned frame (by rw [harr]; exact List.mem_append_left _ h)) hasked
  unfold arpResolve
  rw [if_neg unknown]
  dsimp only
  rw [hnone, if_neg (Ne.symm proper)]

theorem arpAsk_sends (w : Stack) (ip : Nat) : ∃ frame, (arpAsk ip w).sent = w.sent ++ [frame] ∧
    be16 (frameOctets frame) 12 = ethertypeArp ∧ be16 (frameOctets frame) 20 = 0x0100 := by
  refine ⟨toList (ethFrame ethertypeArp bcast w.localMac (arpRequest w ip) arpPktLen) 0 42, rfl, ?_⟩
  generalize hx : ethFrame ethertypeArp bcast w.localMac (arpRequest w ip) arpPktLen = x
  have same : Agree (frameOctets (toList x 0 42)) x 0 42 := by
    rw [frameOctets]
    exact ofList_toList zero x 0 42
  rw [be16_congr (same.mono (by omega) (by omega)), be16_congr (same.mono (by omega) (by omega)),
    ← hx, ethFrame]
  constructor
  · rw [be16_congr (copy_agree _ _ _ _ _ _ _ (Or.inl (by decide))), be16_put16]
    decide
  · have hop : be16 (arpRequest w ip) 6 = 0x0100 := by
      rw [arpRequest, arpPkt, be16_put32_ne _ (by omega),
        be16_congr (copy_agree _ _ _ _ _ _ _ (by omega)),
        be16_put32_ne _ (by omega), be16_congr (copy_agree _ _ _ _ _ _ _ (by omega))]
      rfl
    exact (be16_copy _ ethHdrLen (arpRequest w ip) 0 arpPktLen (k := 6) (by decide)).trans
      (by rw [hop])

/-- The exchange never works: a request from the wire is not answered, whatever address it
asks for; the request that is broadcast has its opcode swapped; and no packet with an
assigned opcode, an answer included, is found while `arp_resolve` polls, whatever else
arrives. -/
theorem arp_exchange_fails (w : Stack) :
    (∀ frame rest tpa, w.present = true → w.arrivals = some frame :: rest → WireArp frame 1 tpa →
      netPoll w = netPoll (w.loaded frame rest) ∧ (rest = [] → (netPoll w).sent = w.sent)) ∧
    (∀ ip, w.arpSpa ≠ ip → ∃ frame, (arpAsk ip w).sent = w.sent ++ [frame] ∧
      be16 (frameOctets frame) 12 = ethertypeArp ∧ be16 (frameOctets frame) 20 ≠ 1) ∧
    (∀ ip, w.arpSpa ≠ ip → ip ≠ 0 → (∀ frame, some frame ∈ w.arrivals → OpcodeAssigned frame) →
      (arpResolve netPoll ip w).1 = none) := by
  refine ⟨?_, ?_, fun ip unknown proper assigned => arpResolve_finds_none unknown proper assigned⟩
  · intro frame rest tpa present harr arp
    have ignored := netPoll_ignores present harr arp (by decide)
    refine ⟨ignored, fun alone => ?_⟩
    rw [ignored, alone, netPoll_eq]
    have nothing : e1000Poll (w.loaded frame []) = (0, w.loaded frame []) := by
      exact if_neg (by rw [Stack.loaded, present]; decide)
    rw [nothing]
    rfl
  · intro ip _
    obtain ⟨frame, hsent, htype, hop⟩ := arpAsk_sends w ip
    exact ⟨frame, hsent, htype, by rw [hop]; decide⟩

/-- A request for the address of the start, from 52:54:00:00:00:01. -/
def whoHas : List UInt8 :=
  List.replicate 6 0xFF ++ [0x52, 0x54, 0, 0, 0, 1, 0x08, 0x06] ++ [0, 1, 8, 0, 6, 4, 0, 1] ++
    [0x52, 0x54, 0, 0, 0, 1, 10, 0, 2, 2] ++ List.replicate 6 0 ++ [10, 2, 0, 15]

theorem whoHas_wire : WireArp whoHas 1 localIpDefault :=
  ⟨by decide, by decide, by decide, by decide, by decide, by decide, by decide, by decide⟩

theorem arp_exchange_fails_request :
    (netPoll { idleStack with arrivals := [some whoHas] }).sent = [] :=
  ((arp_exchange_fails { idleStack with arrivals := [some whoHas] }).1 whoHas [] localIpDefault rfl
    rfl whoHas_wire).2 rfl

/-- The request is for the address of the stack and nothing is sent. -/
theorem request_unanswered : WireArp whoHas 1 localIpDefault ∧
    ¬ ∃ reply, (netPoll { idleStack with arrivals := [some whoHas] }).sent =
    idleStack.sent ++ [reply] := by
  refine ⟨whoHas_wire, ?_⟩
  rintro ⟨reply, answered⟩
  have none_sent : (netPoll { idleStack with arrivals := [some whoHas] }).sent = [] := by decide
  cases answered

end Obsidian.Net
