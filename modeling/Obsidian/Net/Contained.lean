import Obsidian.Net.Taken

/-!
# Frames and the buffers they go to

`ipv4_rx` takes the header length from the packet and subtracts it from the length of the
packet in 16 bits; `icmp_rx` copies what is left to arrays of fixed size. Exactly the
frames that give a header longer than the packet, or an echo request of more than 1500
octets, get out of their buffers.
-/
namespace Obsidian.Net
open Lib Lib.Bytes

/-- The octets lie in the frame, or in the array. -/
def Access.Safe : Access → Prop
  | .handed start len got => start + len ≤ got
  | .copied capacity start len => start + len ≤ capacity

instance : (a : Access) → Decidable a.Safe
  | .handed start len got => inferInstanceAs (Decidable (start + len ≤ got))
  | .copied capacity start len => inferInstanceAs (Decidable (start + len ≤ capacity))

section fits

variable (b : Bytes) (got : Nat)

/-- The header length of the packet in a frame. -/
def ipHlen : Nat := Ip.hlen (octetsFrom b ethHdrLen)

/-- A frame that `ipv4_rx` hands on. -/
def Hands : Prop :=
  ethType b = ethertypeIpv4 ∧ ethHdrLen + ipv4HdrLen ≤ got ∧
    Ip.verIhl (octetsFrom b ethHdrLen) >>> 4 = 4 ∧
    (Ip.proto (octetsFrom b ethHdrLen) = protoIcmp ∨ Ip.proto (octetsFrom b ethHdrLen) = protoUdp ∨
      Ip.proto (octetsFrom b ethHdrLen) = protoTcp)

/-- The packet of a frame has an echo request. -/
def Echoes : Prop :=
  Ip.proto (octetsFrom b ethHdrLen) = protoIcmp ∧ ethHdrLen + ipHlen b + icmpHdrLen ≤ got ∧
    get8 b (ethHdrLen + ipHlen b) = 8

/-- The header of a packet lies in it, and an echo request fits the reply. -/
def Fits : Prop :=
  Hands b got → ethHdrLen + ipHlen b ≤ got ∧ (Echoes b got → got - (ethHdrLen + ipHlen b) ≤ 1500)

instance : Decidable (Fits b got) :=
  inferInstanceAs (Decidable ((_ ∧ _ ∧ _ ∧ _) → _ ∧ ((_ ∧ _ ∧ _) → _)))

end fits

/-- A frame, cut to the size of `rxbuf`. -/
def FrameFits (frame : List UInt8) : Prop := Fits (frameOctets frame) (min frame.length 2048)

instance (frame : List UInt8) : Decidable (FrameFits frame) := inferInstanceAs
    (Decidable (Fits _ _))

section congr

variable {b c : Bytes} {got : Nat} (same : Agree b c 0 got)

include same

theorem ip_fields_congr (long : ethHdrLen + ipv4HdrLen ≤ got) :
    ethType b = ethType c ∧ Ip.verIhl (octetsFrom b ethHdrLen) = Ip.verIhl
    (octetsFrom c ethHdrLen) ∧
      Ip.proto (octetsFrom b ethHdrLen) = Ip.proto (octetsFrom c ethHdrLen) ∧
      ipHlen b = ipHlen c := by
  simp only [ethHdrLen, ipv4HdrLen] at long
  have htype : get16 b 12 = get16 c 12 := get16_congr (same.mono (by omega) (by omega))
  have hfirst : b 14 = c 14 := same 14 (by omega) (by omega)
  have hproto : b 23 = c 23 := same 23 (by omega) (by omega)
  refine ⟨by rw [ethType, ethType, htype], ?_, ?_, ?_⟩
  · simpa [Ip.verIhl, octetsFrom, get8, ethHdrLen] using congrArg UInt8.toNat hfirst
  · simpa [Ip.proto, octetsFrom, get8, ethHdrLen] using congrArg UInt8.toNat hproto
  · simp only [ipHlen, Ip.hlen, Ip.verIhl, octetsFrom, get8, ethHdrLen, Nat.add_zero, hfirst]

theorem fits_congr : Fits b got ↔ Fits c got := by
  by_cases long : ethHdrLen + ipv4HdrLen ≤ got
  · obtain ⟨htype, hver, hproto, hhlen⟩ := ip_fields_congr same long
    have hechoes : Echoes b got ↔ Echoes c got := by
      unfold Echoes
      rw [hproto, hhlen]
      refine and_congr_right fun _ => and_congr_right fun inside => ?_
      simp only [icmpHdrLen] at inside
      rw [get8_congr (same.mono (by omega) (by omega))]
    unfold Fits Hands
    rw [htype, hver, hproto, hhlen, hechoes]
  · constructor
    · exact fun _ hands => absurd hands.2.1 long
    · exact fun _ hands => absurd hands.2.1 long

end congr

/-! ## One frame and a whole poll -/

/-- The accesses in between are safe exactly when the frames taken fit. -/
def Bounded (taken : Arrivals) (w v : Stack) : Prop :=
  ∃ extra, v.trace = w.trace ++ extra ∧
    ((∀ a ∈ extra, a.Safe) ↔ ∀ frame, some frame ∈ taken → FrameFits frame)

theorem Bounded.of_same {w v : Stack} (same : v.trace = w.trace) : Bounded [] w v :=
  ⟨[], by rw [same, List.append_nil], by simp⟩

theorem ethSend_trace (ethertype : Nat) (dst payload : Bytes) (plen : Nat) (w : Stack) :
    (ethSend ethertype dst payload plen w).2.trace = w.trace := by
  unfold ethSend e1000Send
  split
  · rfl
  · rfl

theorem arpRx_trace (a : Bytes) (w : Stack) : (arpRx a w).trace = w.trace := by
  unfold arpRx
  split
  · exact ethSend_trace _ _ _ _ _
  · split
    · rfl
    · rfl

theorem bounded_traced : Traced Bounded where
  refl _ := Bounded.of_same rfl
  trans := by
    rintro a b u v w ⟨x, hx, first⟩ ⟨y, hy, second⟩
    refine ⟨x ++ y, by rw [hy, hx, List.append_assoc], ?_⟩
    simp only [List.mem_append, or_imp, forall_and, first, second]
  send _ _ _ _ _ := Bounded.of_same (ethSend_trace _ _ _ _ _)
  forget _ := Bounded.of_same rfl

theorem ipHlen_le (b : Bytes) : ipHlen b ≤ 60 := Nat.mul_le_mul_right 4 Nat.and_le_right

theorem rest_eq {hlen got : Nat} (hgot : got ≤ 2048) (hh : hlen ≤ 60) (hlong : ethHdrLen < got) :
    (ethHdrLen + hlen + u16 (got - ethHdrLen + 65536 - hlen) ≤ got ↔ ethHdrLen + hlen ≤ got) ∧
      (ethHdrLen + hlen ≤ got → u16 (got - ethHdrLen + 65536 - hlen) =
        got - (ethHdrLen + hlen)) := by
  unfold u16
  omega

section own

variable {poll : Stack → Stack} (inner : ∀ v, Taking Bounded v (poll v))

include inner

theorem tcpRx_bounded (t : Bytes) (len src ipSrc : Nat) (w : Stack) :
    Taking Bounded w (tcpRx poll t len src ipSrc w) :=
  bounded_traced.tcpRx inner (fun _ _ _ _ _ => Bounded.of_same rfl) t len src ipSrc w

theorem icmpRx_own (body : Bytes) (len src : Nat) (w : Stack) :
    ∃ (mid : Stack) (extra : List Access), mid.arrivals = w.arrivals ∧
    mid.trace = w.trace ++ extra ∧
      ((∀ a ∈ extra, a.Safe) ↔ (icmpHdrLen ≤ len → get8 body 0 = 8 → len ≤ 1500)) ∧
      Taking Bounded mid (icmpRx poll body len src w) := by
  unfold icmpRx
  split
  next short =>
    exact ⟨w, [], rfl, (List.append_nil _).symm, by simp; omega, bounded_traced.carried.refl w⟩
  split
  next other =>
    exact ⟨w, [], rfl, (List.append_nil _).symm, by simp [other], bounded_traced.carried.refl w⟩
  next long echo =>
    refine ⟨w.echoCopies len, [.copied 1500 0 len, .copied 1600 0 ipv4HdrLen,
      .copied 1600 ipv4HdrLen len], rfl,
      ?_, ?_, bounded_traced.carried.ipv4Send inner _ _ _ _ _⟩
    · simp [Stack.echoCopies, Stack.note]
    · simp only [List.mem_cons, List.not_mem_nil, or_false, forall_eq_or_imp, forall_eq,
        Access.Safe, ipv4HdrLen]
      omega

theorem ipv4Rx_own {got : Nat} (hlong : ethHdrLen < got) (hgot : got ≤ 2048) (u : Stack) (b : Bytes)
    (ipv4 : ethType b = ethertypeIpv4) :
    ∃ (mid : Stack) (extra : List Access), mid.arrivals = u.arrivals ∧
    mid.trace = u.trace ++ extra ∧
      ((∀ a ∈ extra, a.Safe) ↔ Fits b got) ∧
      Taking Bounded mid (ipv4Rx poll (octetsFrom b ethHdrLen) (u16 (got - ethHdrLen)) got u) := by
  have hlen : u16 (got - ethHdrLen) = got - ethHdrLen := u16_of_lt (by omega)
  obtain ⟨inside, hrest⟩ := rest_eq hgot (ipHlen_le b) hlong
  have refuse : ¬ Hands b got → ∃ (mid : Stack) (extra : List Access), mid.arrivals = u.arrivals ∧
      mid.trace = u.trace ++ extra ∧ ((∀ a ∈ extra, a.Safe) ↔ Fits b got) ∧ Taking Bounded mid u :=
    fun refused => ⟨u, [], rfl, (List.append_nil _).symm,
      ⟨fun _ hands => absurd hands refused, fun _ _ h => absurd h List.not_mem_nil⟩,
        bounded_traced.carried.refl u⟩
  rw [ipv4Rx, hlen]
  by_cases short : got - ethHdrLen < ipv4HdrLen
  · rw [if_pos short]
    exact refuse fun hands => absurd hands.2.1 (by omega)
  rw [if_neg short]
  by_cases version : Ip.verIhl (octetsFrom b ethHdrLen) >>> 4 ≠ 4
  · rw [if_pos version]
    exact refuse fun hands => version hands.2.2.1
  rw [if_neg version]
  have hands : (Ip.proto (octetsFrom b ethHdrLen) = protoIcmp ∨
    Ip.proto (octetsFrom b ethHdrLen) = protoUdp ∨
      Ip.proto (octetsFrom b ethHdrLen) = protoTcp) → Hands b got :=
    fun known => ⟨ipv4, by omega, Decidable.not_not.mp version, known⟩
  have handed : (Access.handed (ethHdrLen + ipHlen b) (u16 (got - ethHdrLen + 65536 - ipHlen b))
    got).Safe ↔
      ethHdrLen + ipHlen b ≤ got := inside
  -- a packet that is not ICMP is handed on and nothing else
  have window : Ip.proto (octetsFrom b ethHdrLen) ≠ protoIcmp → Hands b got →
      ((∀ a ∈ [Access.handed (ethHdrLen + ipHlen b) (u16 (got - ethHdrLen + 65536 - ipHlen b)) got],
        a.Safe) ↔
        Fits b got) := by
    intro other known
    rw [List.forall_mem_singleton, handed, Fits, forall_prop_of_true known]
    exact ⟨fun h => ⟨h, fun echoes => absurd echoes.1 other⟩, And.left⟩
  by_cases icmp : Ip.proto (octetsFrom b ethHdrLen) = protoIcmp
  · rw [if_pos icmp]
    obtain ⟨mid, extra, harr, htrace, safe, taking⟩ := icmpRx_own inner
      (octetsFrom (octetsFrom b ethHdrLen) (ipHlen b)) (u16 (got - ethHdrLen + 65536 - ipHlen b))
      (bswap32 (Ip.src (octetsFrom b ethHdrLen)))
      (u.note (.handed (ethHdrLen + ipHlen b) (u16 (got - ethHdrLen + 65536 - ipHlen b)) got))
    refine ⟨mid, _ :: extra, harr, htrace.trans (List.append_assoc _ _ _), ?_, taking⟩
    have hoctet : get8 (octetsFrom (octetsFrom b ethHdrLen) (ipHlen b)) 0 =
      get8 b (ethHdrLen + ipHlen b) := rfl
    rw [List.forall_mem_cons, handed, safe, Fits, forall_prop_of_true (hands (Or.inl icmp))]
    refine and_congr_right fun fits => ?_
    rw [hrest fits]
    constructor
    · exact fun small echoes => small (by have := echoes.2.1; omega) echoes.2.2
    · exact fun small long echo => small ⟨icmp, by omega, echo⟩
  rw [if_neg icmp]
  by_cases udp : Ip.proto (octetsFrom b ethHdrLen) = protoUdp
  · rw [if_pos udp]
    refine ⟨u.note _, [_], rfl, rfl, window icmp (hands (Or.inr (Or.inl udp))), ?_⟩
    unfold udpRx
    split
    · exact bounded_traced.carried.refl _
    · exact Taking.of_none rfl (Bounded.of_same rfl)
  rw [if_neg udp]
  by_cases tcp : Ip.proto (octetsFrom b ethHdrLen) = protoTcp
  · rw [if_pos tcp]
    exact ⟨u.note _, [_], rfl, rfl, window icmp (hands (Or.inr (Or.inr tcp))),
      tcpRx_bounded inner _ _ _ _ _⟩
  rw [if_neg tcp]
  exact refuse fun hands => by
    rcases hands.2.2.2 with h | h | h
    · exact icmp h
    · exact udp h
    · exact tcp h

theorem frameRx_own {got : Nat} (hlong : ethHdrLen < got) (hgot : got ≤ 2048) (u : Stack) :
    ∃ (mid : Stack) (extra : List Access), mid.arrivals = u.arrivals ∧
    mid.trace = u.trace ++ extra ∧
      ((∀ a ∈ extra, a.Safe) ↔ Fits u.rxbuf got) ∧ Taking Bounded mid (frameRx poll got u) := by
  have refuse : ethType u.rxbuf ≠ ethertypeIpv4 → ∀ v : Stack, v.arrivals = u.arrivals →
    v.trace = u.trace →
      ∃ (mid : Stack) (extra : List Access), mid.arrivals = u.arrivals ∧
        mid.trace = u.trace ++ extra ∧
        ((∀ a ∈ extra, a.Safe) ↔ Fits u.rxbuf got) ∧ Taking Bounded mid v :=
    fun other v harr htrace => ⟨u, [], rfl, (List.append_nil _).symm,
      ⟨fun _ hands => absurd hands.1 other, fun _ _ h => absurd h List.not_mem_nil⟩,
      Taking.of_none harr (Bounded.of_same htrace)⟩
  unfold frameRx
  by_cases arp : ethType u.rxbuf = ethertypeArp
  · rw [if_pos arp]
    have other : ethType u.rxbuf ≠ ethertypeIpv4 := by
      rw [arp]
      decide
    split
    · exact refuse other _ (arpRx_arrivals _ u) (arpRx_trace _ u)
    · exact refuse other u rfl rfl
  rw [if_neg arp]
  by_cases ipv4 : ethType u.rxbuf = ethertypeIpv4
  · rw [if_pos ipv4]
    exact ipv4Rx_own inner hlong hgot u u.rxbuf ipv4
  · rw [if_neg ipv4]
    exact refuse ipv4 u rfl rfl

end own

theorem loaded_fits (w : Stack) (frame : List UInt8) (rest : Arrivals) :
    Fits (w.loaded frame rest).rxbuf (min frame.length 2048) ↔ FrameFits frame :=
  fits_congr (loaded_octets w frame rest)

theorem bounded_handled : Handled Bounded where
  toTraced := bounded_traced
  nothing w rest _ := ⟨[], (List.append_nil _).symm, by simp⟩
  short w frame rest _ hshort := by
    have fits : FrameFits frame := fun hands => by
      have long := hands.2.1
      simp only [ethHdrLen, ipv4HdrLen] at long hshort
      omega
    refine ⟨[], (List.append_nil _).symm, ?_⟩
    simp [fits]
  own poll inner w frame rest _ hlong := by
    obtain ⟨mid, extra, harr, htrace, safe, taking⟩ := frameRx_own inner
      (show ethHdrLen < min frame.length 2048 by simp only [ethHdrLen] at *; omega)
        (Nat.min_le_right _ _)
      (w.loaded frame rest)
    refine ⟨mid, harr, ⟨extra, htrace, ?_⟩, taking⟩
    rw [safe, loaded_fits]
    simp

/-- For every state and all arrivals: the accesses of a poll stay in the frames and arrays
exactly when the frames that it takes, also those taken while it waits, give headers
that lie in their packets and echo requests of at most 1500 octets. -/
theorem net_poll_contained_iff (w : Stack) :
    ∃ taken extra, w.arrivals = taken ++ (netPoll w).arrivals ∧
      (w.present = true → w.arrivals ≠ [] → taken ≠ []) ∧ (netPoll w).trace = w.trace ++ extra ∧
      ((∀ a ∈ extra, a.Safe) ↔ ∀ frame, some frame ∈ taken → FrameFits frame) := by
  obtain ⟨taken, harr, extra, htrace, safe⟩ := bounded_handled.netPoll w
  refine ⟨taken, extra, harr, ?_, htrace, safe⟩
  intro present some_arrival none_taken
  have fewer := netPoll_takes present some_arrival
  rw [none_taken] at harr
  rw [harr] at fewer
  exact absurd fewer (Nat.lt_irrefl _)

/-- A packet of 20 octets that gives a header of 60. -/
def longHeader : List UInt8 :=
  List.replicate 12 0 ++ [0x08, 0x00] ++ [0x4F] ++ List.replicate 8 0 ++ [17] ++ List.replicate 10 0

theorem long_header_escapes :
    (netPoll { idleStack with arrivals := [some longHeader] }).trace = [.handed 74 65496 34] ∧
      ¬ (Access.handed 74 65496 34).Safe := by
  decide

end Obsidian.Net
