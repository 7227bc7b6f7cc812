import Obsidian.Net.Poll

/-!
# What a poll has taken

A relation between the states before and after, labelled with the arrivals that were
taken in between. It composes as the arrivals do, so that what one frame does, up to the
point where its handler sends something, gives what a whole poll does.
-/
namespace Obsidian.Net
open Lib Lib.Bytes

/-- Frames, and polls that found nothing. -/
abbrev Arrivals := List (Option (List UInt8))

/-- The relation holds for what was taken from the arrivals. -/
def Taking (S : Arrivals → Stack → Stack → Prop) (w v : Stack) : Prop :=
  ∃ taken, w.arrivals = taken ++ v.arrivals ∧ S taken w v

/-- The state in which a frame is handled. -/
def Stack.loaded (w : Stack) (frame : List UInt8) (rest : Arrivals) : Stack :=
  { w with rxbuf := ofList w.rxbuf 0 (frame.take 2048), arrivals := rest }

/-- The octets of a frame, as much of it as `rxbuf` takes. -/
def frameOctets (frame : List UInt8) : Bytes := ofList zero 0 (frame.take 2048)

theorem loaded_octets (w : Stack) (frame : List UInt8) (rest : Arrivals) :
    Agree (w.loaded frame rest).rxbuf (frameOctets frame) 0 (min frame.length 2048) := by
  have hcut : (frame.take 2048).length = min frame.length 2048 := by rw [List.length_take,
    Nat.min_comm]
  have same := ofList_agree w.rxbuf zero 0 (frame.take 2048)
  rw [hcut, Nat.zero_add] at same
  exact same

/-- A labelled relation that composes and that sending respects. -/
structure Traced (S : Arrivals → Stack → Stack → Prop) : Prop where
  refl : ∀ w, S [] w w
  trans : ∀ {a b u v w}, S a u v → S b v w → S (a ++ b) u w
  send : ∀ ethertype dst payload plen w, S [] w (ethSend ethertype dst payload plen w).2
  forget : ∀ w, S [] w { w with arpSpa := 0 }

section traced

variable {S : Arrivals → Stack → Stack → Prop} {poll : Stack → Stack}

theorem Taking.of_none {w v : Stack} (same : v.arrivals = w.arrivals) (related : S [] w v) :
    Taking S w v :=
  ⟨[], by rw [same]; rfl, related⟩

theorem Traced.taking_trans (traced : Traced S) {u v w : Stack} (first : Taking S u v)
    (second : Taking S v w) :
    Taking S u w := by
  obtain ⟨a, harr, ha⟩ := first
  obtain ⟨b, hbrr, hb⟩ := second
  refine ⟨a ++ b, ?_, traced.trans ha hb⟩
  rw [harr, hbrr, List.append_assoc]

theorem Traced.carried (traced : Traced S) : Carried (Taking S) where
  refl w := Taking.of_none rfl (traced.refl w)
  trans _ _ _ first second := traced.taking_trans first second
  send _ _ _ _ _ := Taking.of_none (ethSend_arrivals _ _ _ _ _) (traced.send _ _ _ _ _)
  forget w := Taking.of_none rfl (traced.forget w)

/-- `tcp_rx` is nothing but sending, for a relation that the variables of the connection have
no part in. -/
theorem Traced.tcpRx (traced : Traced S) (inner : ∀ v, Taking S v (poll v))
    (moves : ∀ (w : Stack) st rseq lseq console,
      S [] w { w with st := st, rseq := rseq, lseq := lseq, console := console })
    (t : Bytes) (len src ipSrc : Nat) (w : Stack) : Taking S w (tcpRx poll t len src ipSrc w) := by
  have moved : ∀ (w : Stack) st rseq lseq console,
      Taking S w { w with st := st, rseq := rseq, lseq := lseq, console := console } :=
    fun w st rseq lseq console => Taking.of_none rfl (moves w st rseq lseq console)
  have sends := fun dst seg (v : Stack) =>
    traced.carried.ipv4Send inner dst protoTcp seg tcpHdrLen v
  have received : Taking S w (w.received t len) := by
    rw [received_eq]
    exact moved w w.st _ w.lseq _
  unfold Net.tcpRx
  split
  · exact moved w w.st w.rseq w.lseq w.console
  split
  · unfold tcpEstablish
    have synced : Taking S w (w.synced t) := moved w w.st _ _ w.console
    exact traced.taking_trans (traced.taking_trans synced (sends _ _ _)) (moved _ _ _ _ _)
  split
  · exact moved w .closed w.rseq w.lseq w.console
  split
  · refine traced.taking_trans received ?_
    unfold tcpClose
    split
    · exact moved _ _ _ _ _
    · exact traced.taking_trans (sends _ _ _) (moved _ _ _ _ _)
  · exact received

/-- `ipv4_rx`, for a relation that what is recorded and printed has no part in, up to `tcp_rx`. -/
theorem Traced.ipv4Rx (traced : Traced S) (inner : ∀ v, Taking S v (poll v))
    (notes : ∀ (w : Stack) console trace, S [] w { w with console := console, trace := trace })
    {pkt : Bytes}
    (tcp : Ip.proto pkt = protoTcp → ∀ t len src ipSrc v,
      Taking S v (Net.tcpRx poll t len src ipSrc v))
    (len got : Nat) (w : Stack) : Taking S w (ipv4Rx poll pkt len got w) := by
  have noted : ∀ (w : Stack) a, Taking S w (w.note a) := fun w a =>
    Taking.of_none rfl (notes w w.console (w.trace ++ [a]))
  have copied : ∀ (w : Stack) n, Taking S w (w.echoCopies n) := fun w n =>
    traced.taking_trans (traced.taking_trans (noted w _) (noted _ _)) (noted _ _)
  have same : Taking S w w := traced.carried.refl w
  unfold Net.ipv4Rx
  split
  · exact same
  split
  · exact same
  dsimp only
  generalize Access.handed (ethHdrLen + Ip.hlen pkt) (u16 (len + 65536 - Ip.hlen pkt)) got = a
  split
  · refine traced.taking_trans (noted w a) ?_
    unfold icmpRx
    split
    · exact traced.carried.refl _
    split
    · exact traced.carried.refl _
    · exact traced.taking_trans (copied _ _) (traced.carried.ipv4Send inner _ _ _ _ _)
  split
  · refine traced.taking_trans (noted w a) ?_
    unfold udpRx
    split
    · exact traced.carried.refl _
    · exact Taking.of_none rfl (notes _ _ _)
  split
  next isTcp => exact traced.taking_trans (noted w a) (tcp isTcp _ _ _ _ (w.note a))
  · exact same

theorem e1000Poll_cases (w : Stack) : ((e1000Poll w).1 ≤ 0 ∧ (e1000Poll w).2 = w) ∨
    (∃ rest, w.arrivals = none :: rest ∧ e1000Poll w = (0, { w with arrivals := rest })) ∨
    ∃ frame rest, w.arrivals = some frame :: rest ∧
      e1000Poll w = (((min frame.length 2048 : Nat) : Int), w.loaded frame rest) := by
  unfold e1000Poll
  split
  · exact Or.inl ⟨Int.neg_nonpos_of_nonneg Int.one_nonneg, rfl⟩
  · split
    · exact Or.inl ⟨Int.le_refl 0, rfl⟩
    next rest h => exact Or.inr (Or.inl ⟨rest, h, rfl⟩)
    next frame rest h => exact Or.inr (Or.inr ⟨frame, rest, h, rfl⟩)

/-- What the handling of one arrival does, up to the state `mid` from which on only the polls
inside a handler take arrivals. -/
structure Handled (S : Arrivals → Stack → Stack → Prop) : Prop extends Traced S where
  nothing : ∀ w rest, w.arrivals = none :: rest → S [none] w { w with arrivals := rest }
  short : ∀ w frame rest, w.arrivals = some frame :: rest → frame.length ≤ ethHdrLen →
    S [some frame] w (w.loaded frame rest)
  own : ∀ poll, (∀ v, Taking S v (poll v)) → ∀ w frame rest, w.arrivals = some frame :: rest →
    ethHdrLen < frame.length → ∃ mid : Stack, mid.arrivals = rest ∧ S [some frame] w mid ∧
      Taking S mid (frameRx poll (min frame.length 2048) (w.loaded frame rest))

theorem Handled.pollFrames (handled : Handled S) (n : Nat) (w : Stack) :
    Taking S w (pollFrames n w) := by
  apply handled.carried.pollFrames
  · intro w stop
    rcases e1000Poll_cases w with ⟨-, same⟩ | ⟨rest, harr, found⟩ | ⟨frame, rest, harr, found⟩
    · rw [same]
      exact Taking.of_none rfl (handled.refl w)
    · rw [found]
      exact ⟨[none], harr, handled.nothing w rest harr⟩
    · rw [found] at stop ⊢
      have hshort : frame.length ≤ ethHdrLen := by
        simp only [ethHdrLen] at stop ⊢
        omega
      exact ⟨[some frame], harr, handled.short w frame rest harr hshort⟩
  · intro poll inner w more
    rcases e1000Poll_cases w with ⟨least, -⟩ | ⟨rest, harr, found⟩ | ⟨frame, rest, harr, found⟩
    · simp only [ethHdrLen] at more
      omega
    · rw [found] at more
      simp only [ethHdrLen] at more
      omega
    · rw [found] at more ⊢
      have hlong : ethHdrLen < frame.length := by
        simp only [ethHdrLen] at more ⊢
        omega
      obtain ⟨mid, hmid, first, others⟩ := handled.own poll inner w frame rest harr hlong
      exact handled.taking_trans ⟨[some frame], by rw [harr, hmid]; rfl, first⟩ others

theorem netPoll_takes {w : Stack} (present : w.present = true) (some_arrival : w.arrivals ≠ []) :
    (netPoll w).arrivals.length < w.arrivals.length := by
  have taken : (e1000Poll w).2.arrivals.length < w.arrivals.length := by
    obtain ⟨first, rest, harr⟩ := List.exists_cons_of_ne_nil some_arrival
    unfold e1000Poll
    rw [present, harr]
    cases first with
    | none => exact Nat.lt_succ_self _
    | some frame => exact Nat.lt_succ_self _
  rw [netPoll_eq]
  split
  · exact taken
  · have handled := frameRx_fewer netPoll_fewer (e1000Poll w).1.toNat (e1000Poll w).2
    have others := netPoll_fewer (frameRx Net.netPoll (e1000Poll w).1.toNat (e1000Poll w).2)
    exact Nat.lt_of_le_of_lt (Nat.le_trans others handled) taken

theorem Handled.netPoll (handled : Handled S) (w : Stack) : Taking S w (netPoll w) :=
  handled.pollFrames _ w

end traced

/-! ## Relations on what a handler does not set -/

/-- A relation that sending respects, on variables that no handler sets but by sending. -/
structure Outward (R : Stack → Stack → Prop) : Prop extends Carried R where
  sets : ∀ (w : Stack) arpTha arpSpa st rseq lseq rxbuf arrivals console trace, R w { w with
    arpTha := arpTha
    arpSpa := arpSpa
    st := st
    rseq := rseq
    lseq := lseq
    rxbuf := rxbuf
    arrivals := arrivals
    console := console
    trace := trace }

section outward

variable {R : Stack → Stack → Prop}

section
variable (outward : Outward R)
include outward

theorem Outward.traced : Traced fun _ => R where
  refl := outward.refl
  trans := outward.trans _ _ _
  send := outward.send
  forget := outward.forget

theorem Outward.arpRx (a : Bytes) (w : Stack) : R w (arpRx a w) := by
  unfold Net.arpRx
  split
  · exact outward.send _ _ _ _ _
  split
  · exact outward.sets w _ _ w.st w.rseq w.lseq w.rxbuf w.arrivals w.console w.trace
  · exact outward.refl w

theorem Outward.ipv4Rx {poll : Stack → Stack} (inner : ∀ v, Taking (fun _ => R) v (poll v))
    (pkt : Bytes) (len got : Nat) (w : Stack) :
    Taking (fun _ => R) w (ipv4Rx poll pkt len got w) := by
  have moves := fun (w : Stack) st rseq lseq console =>
    outward.sets w w.arpTha w.arpSpa st rseq lseq w.rxbuf w.arrivals console w.trace
  have notes := fun (w : Stack) console trace =>
    outward.sets w w.arpTha w.arpSpa w.st w.rseq w.lseq w.rxbuf w.arrivals console trace
  exact outward.traced.ipv4Rx inner notes (fun _ => outward.traced.tcpRx inner moves) len got w

theorem Outward.handled : Handled fun _ => R where
  toTraced := outward.traced
  nothing w rest _ := outward.sets w w.arpTha w.arpSpa w.st w.rseq w.lseq w.rxbuf rest
    w.console w.trace
  short w _ rest _ _ := outward.sets w w.arpTha w.arpSpa w.st w.rseq w.lseq _ rest w.console w.trace
  own poll inner w frame rest _ _ := by
    refine ⟨w.loaded frame rest, rfl, outward.sets w w.arpTha w.arpSpa w.st w.rseq w.lseq _ rest
      w.console w.trace, ?_⟩
    have same := outward.traced.carried.refl (w.loaded frame rest)
    unfold frameRx
    split
    · split
      · exact Taking.of_none (arpRx_arrivals _ _) (outward.arpRx _ _)
      · exact same
    split
    · exact outward.ipv4Rx inner _ _ _ _
    · exact same

theorem Outward.netPoll (w : Stack) : R w (netPoll w) := by
  obtain ⟨_, -, related⟩ := outward.handled.netPoll w
  exact related

end

end outward

end Obsidian.Net
