import Obsidian.Net.Stack

/-!
# Polls inside polls

`net_poll` is entered again from the wait of `arp_resolve`. A relation between states
that the wait respects, and the handling of one frame whenever the inner poll does,
holds between the states before and after every poll. The first such relation is that
arrivals are only taken away; with it `netPoll` satisfies the equation that the source
has.
-/
namespace Obsidian.Net
open Lib Lib.Bytes

/-! ## Relations that the transmit path respects -/

/-- A relation between states that sending a frame and starting to wait for an address
respect. -/
structure Carried (R : Stack → Stack → Prop) : Prop where
  refl : ∀ w, R w w
  trans : ∀ u v w, R u v → R v w → R u w
  send : ∀ ethertype dst payload plen w, R w (ethSend ethertype dst payload plen w).2
  forget : ∀ w, R w { w with arpSpa := 0 }

section carried

variable {R : Stack → Stack → Prop} {poll : Stack → Stack}

section
variable (carried : Carried R)
include carried

theorem Carried.spinArp (inner : ∀ v, R v (poll v)) (n : Nat) (w : Stack) :
    R w (spinArp poll n w) := by
  induction n generalizing w with
  | zero => exact carried.refl w
  | succ n ih =>
    rw [Net.spinArp]
    split
    · exact carried.refl w
    · exact carried.trans _ _ _ (inner w) (ih (poll w))

theorem Carried.arpResolve (inner : ∀ v, R v (poll v)) (ip : Nat) (w : Stack) :
    R w (arpResolve poll ip w).2 := by
  unfold Net.arpResolve
  split
  · exact carried.refl w
  · have asked : R w (arpAsk ip w) :=
      carried.trans _ _ _ (carried.forget w) (carried.send _ _ _ _ _)
    have waited : R w (Net.spinArp poll 200000 (arpAsk ip w)) :=
      carried.trans _ _ _ asked (carried.spinArp inner _ _)
    dsimp only
    split
    · exact waited
    · exact waited

theorem Carried.ipv4Send (inner : ∀ v, R v (poll v)) (dst proto : Nat) (seg : Bytes) (segLen : Nat)
    (w : Stack) :
    R w (ipv4Send poll dst proto seg segLen w).2 := by
  have resolved := carried.arpResolve inner (nexthop w dst) w
  unfold Net.ipv4Send
  generalize Net.arpResolve poll (nexthop w dst) w = r at resolved ⊢
  obtain ⟨found, v⟩ := r
  cases found with
  | none => exact resolved
  | some mac =>
    dsimp only
    split
    · exact resolved
    · exact carried.trans _ _ _ resolved (carried.send _ _ _ _ _)

/-- What holds across one frame, whatever the inner poll does within the relation, holds
across a poll. -/
theorem Carried.pollFrames (take : ∀ w, (e1000Poll w).1 ≤ ethHdrLen → R w (e1000Poll w).2)
    (frame : ∀ poll, (∀ v, R v (poll v)) → ∀ w, ethHdrLen < (e1000Poll w).1 →
      R w (frameRx poll (e1000Poll w).1.toNat (e1000Poll w).2)) (n : Nat) (w : Stack) :
    R w (pollFrames n w) := by
  induction n generalizing w with
  | zero => exact carried.refl w
  | succ n ih =>
    rw [Net.pollFrames]
    split
    next stop => exact take w stop
    next more => exact carried.trans _ _ _ (frame _ ih w (Int.not_le.mp more)) (ih _)

end

end carried

/-! ## Arrivals -/

/-- No arrival is put back. -/
def Fewer (w v : Stack) : Prop := v.arrivals.length ≤ w.arrivals.length

@[simp] theorem ethSend_arrivals (ethertype : Nat) (dst payload : Bytes) (plen : Nat) (w : Stack) :
    (ethSend ethertype dst payload plen w).2.arrivals = w.arrivals := by
  unfold ethSend e1000Send
  split
  · rfl
  · rfl

theorem fewer_carried : Carried Fewer where
  refl _ := Nat.le_refl _
  trans _ _ _ first second := Nat.le_trans second first
  send _ _ _ _ _ := by rw [Fewer, ethSend_arrivals]
  forget _ := Nat.le_refl _

theorem arpRx_arrivals (a : Bytes) (w : Stack) : (arpRx a w).arrivals = w.arrivals := by
  unfold arpRx
  split
  · exact ethSend_arrivals _ _ _ _ _
  · split
    · rfl
    · rfl

variable (w : Stack)

@[simp] theorem received_arrivals (t : Bytes) (len : Nat) :
    (w.received t len).arrivals = w.arrivals := by rw [received_eq]

section fewer

variable {poll : Stack → Stack} (inner : ∀ v, Fewer v (poll v))

include inner

theorem icmpRx_fewer (body : Bytes) (len src : Nat) (w : Stack) :
    Fewer w (icmpRx poll body len src w) := by
  unfold icmpRx
  split
  · exact Nat.le_refl _
  · split
    · exact Nat.le_refl _
    · exact fewer_carried.ipv4Send inner _ _ _ _ (w.echoCopies len)

theorem tcpClose_fewer (ip : Nat) (w : Stack) : Fewer w (tcpClose poll ip w).2 := by
  unfold tcpClose
  split
  · exact Nat.le_refl _
  · exact fewer_carried.ipv4Send inner ip protoTcp (finSegment w ip) tcpHdrLen w

theorem tcpRx_fewer (t : Bytes) (len src ipSrc : Nat) (w : Stack) :
    Fewer w (tcpRx poll t len src ipSrc w) := by
  unfold tcpRx tcpEstablish
  split
  · exact Nat.le_refl _
  split
  · exact fewer_carried.ipv4Send inner src protoTcp _ tcpHdrLen (w.synced t)
  split
  · exact Nat.le_refl _
  have received : Fewer w (w.received t len) :=
    Nat.le_of_eq (congrArg List.length (received_arrivals w t len))
  split
  · exact fewer_carried.trans _ _ _ received (tcpClose_fewer inner src _)
  · exact received

theorem frameRx_fewer (got : Nat) (w : Stack) : Fewer w (frameRx poll got w) := by
  unfold frameRx
  split
  · split
    · exact Nat.le_of_eq (congrArg List.length (arpRx_arrivals _ w))
    · exact Nat.le_refl _
  split
  · unfold ipv4Rx
    split
    · exact Nat.le_refl _
    split
    · exact Nat.le_refl _
    dsimp only
    split
    · exact icmpRx_fewer inner _ _ _ (w.note _)
    split
    · unfold udpRx
      split
      · exact Nat.le_refl _
      · exact Nat.le_refl _
    split
    · exact tcpRx_fewer inner _ _ _ _ (w.note _)
    · exact Nat.le_refl _
  · exact Nat.le_refl _

end fewer

theorem e1000Poll_fewer : Fewer w (e1000Poll w).2 := by
  unfold e1000Poll Fewer
  split
  · exact Nat.le_refl _
  · split
    · exact Nat.le_refl _
    next h =>
      rw [h]
      exact Nat.le_succ _
    next h =>
      rw [h]
      exact Nat.le_succ _

theorem pollFrames_fewer (n : Nat) (w : Stack) : Fewer w (pollFrames n w) :=
  fewer_carried.pollFrames (fun w _ => e1000Poll_fewer w)
    (fun _ inner w _ => fewer_carried.trans _ _ _ (e1000Poll_fewer w) (frameRx_fewer inner _ _)) n w

theorem netPoll_fewer : Fewer w (netPoll w) := pollFrames_fewer _ w

variable {w : Stack}

theorem e1000Poll_takes (found : 0 < (e1000Poll w).1) :
    (e1000Poll w).2.arrivals.length < w.arrivals.length := by
  unfold e1000Poll at found ⊢
  split at found
  · cases found
  next present =>
    rw [if_neg present]
    split
    next h =>
      rw [h] at found
      cases found
    next h =>
      rw [h] at found
      cases found
    next h =>
      rw [h]
      exact Nat.lt_succ_self _

/-! ## The equation of `net_poll` -/

section congr

variable {p q : Stack → Stack} {k : Nat} (agree : ∀ v, v.arrivals.length ≤ k → p v = q v)
  (fewer : ∀ v, Fewer v (p v))

include agree fewer

variable {w : Stack}

theorem spinArp_congr (n : Nat) (hw : w.arrivals.length ≤ k) : spinArp p n w = spinArp q n w := by
  induction n generalizing w with
  | zero => rfl
  | succ n ih =>
    rw [spinArp, spinArp, ← agree w hw, ih (Nat.le_trans (fewer w) hw)]

theorem arpResolve_congr (ip : Nat) (hw : w.arrivals.length ≤ k) :
    arpResolve p ip w = arpResolve q ip w := by
  have hasked : (arpAsk ip w).arrivals.length ≤ k := by
    rw [arpAsk]
    exact hw
  unfold arpResolve
  rw [spinArp_congr agree fewer 200000 hasked]

theorem ipv4Send_congr (dst proto : Nat) (seg : Bytes) (segLen : Nat) (hw : w.arrivals.length ≤ k) :
    ipv4Send p dst proto seg segLen w = ipv4Send q dst proto seg segLen w := by
  unfold ipv4Send
  rw [arpResolve_congr agree fewer _ hw]

theorem tcpClose_congr (ip : Nat) (hw : w.arrivals.length ≤ k) :
    tcpClose p ip w = tcpClose q ip w := by
  unfold tcpClose
  rw [ipv4Send_congr agree fewer _ _ _ _ hw]

theorem tcpRx_congr (t : Bytes) (len src ipSrc : Nat) (hw : w.arrivals.length ≤ k) :
    tcpRx p t len src ipSrc w = tcpRx q t len src ipSrc w := by
  have hsynced : (w.synced t).arrivals.length ≤ k := hw
  have hreceived : (w.received t len).arrivals.length ≤ k := by
    rw [received_arrivals]
    exact hw
  unfold tcpRx tcpEstablish
  rw [ipv4Send_congr agree fewer _ _ _ _ hsynced, tcpClose_congr agree fewer src hreceived]

theorem frameRx_congr (got : Nat) (hw : w.arrivals.length ≤ k) :
    frameRx p got w = frameRx q got w := by
  have hicmp : ∀ a body len src, icmpRx p body len src (w.note a) =
      icmpRx q body len src (w.note a) := by
    intro a body len src
    have hcopies : ((w.note a).echoCopies len).arrivals.length ≤ k := hw
    unfold icmpRx
    rw [ipv4Send_congr agree fewer _ _ _ _ hcopies]
  have htcp : ∀ a t len src ipSrc, tcpRx p t len src ipSrc (w.note a) =
      tcpRx q t len src ipSrc (w.note a) :=
    fun a t len src ipSrc => tcpRx_congr agree fewer t len src ipSrc (w := w.note a) hw
  unfold frameRx ipv4Rx
  dsimp only
  rw [hicmp, htcp]

end congr

theorem e1000Poll_took (goes : ¬ (e1000Poll w).1 ≤ ethHdrLen) :
    (e1000Poll w).2.arrivals.length < w.arrivals.length := by
  apply e1000Poll_takes
  omega

theorem pollFrames_succ {n : Nat} (enough : w.arrivals.length < n) :
    pollFrames n w = pollFrames (n + 1) w := by
  induction n generalizing w with
  | zero => exact absurd enough (Nat.not_lt_zero _)
  | succ n ih =>
    rw [pollFrames, pollFrames]
    by_cases stop : (e1000Poll w).1 ≤ ethHdrLen
    · simp only [if_pos stop]
    · simp only [if_neg stop]
      have htaken := e1000Poll_took stop
      have hagree : ∀ v : Stack, v.arrivals.length ≤ (e1000Poll w).2.arrivals.length →
          pollFrames n v = pollFrames (n + 1) v := fun v hv => ih (by omega)
      rw [frameRx_congr hagree (pollFrames_fewer n) (e1000Poll w).1.toNat (Nat.le_refl _)]
      have hafter := frameRx_fewer (pollFrames_fewer (n + 1)) (e1000Poll w).1.toNat (e1000Poll w).2
      exact ih (by unfold Fewer at hafter; omega)

theorem pollFrames_eq {n : Nat} (enough : w.arrivals.length < n) : pollFrames n w = netPoll w := by
  induction n with
  | zero => exact absurd enough (Nat.not_lt_zero _)
  | succ n ih =>
    by_cases least : w.arrivals.length < n
    · rw [← pollFrames_succ least]
      exact ih least
    · have hn : n = w.arrivals.length := by omega
      rw [hn, netPoll]

theorem netPoll_eq (w : Stack) : netPoll w =
    if (e1000Poll w).1 ≤ ethHdrLen then (e1000Poll w).2
    else netPoll (frameRx netPoll (e1000Poll w).1.toNat (e1000Poll w).2) := by
  rw [netPoll, pollFrames]
  by_cases stop : (e1000Poll w).1 ≤ ethHdrLen
  · rw [if_pos stop, if_pos stop]
  · rw [if_neg stop, if_neg stop]
    have htaken := e1000Poll_took stop
    have hagree : ∀ v : Stack, v.arrivals.length ≤ (e1000Poll w).2.arrivals.length →
        pollFrames w.arrivals.length v = netPoll v := fun v hv => pollFrames_eq (by omega)
    rw [frameRx_congr hagree (pollFrames_fewer _) (e1000Poll w).1.toNat (Nat.le_refl _)]
    have hafter := frameRx_fewer netPoll_fewer (e1000Poll w).1.toNat (e1000Poll w).2
    exact pollFrames_eq (by unfold Fewer at hafter; omega)

end Obsidian.Net
