import Obsidian.Net.Stack

/-!
# Which segments move the connection

`tcp_rx` looks at the flags of a segment and at nothing that says whose segment it is.
The results below hold for every inner poll, so also for everything that can arrive
while `tcp_rx` itself waits for an address.
-/
namespace Obsidian.Net
open Lib Lib.Bytes

/-- State and numbers of the connection are the same. -/
def Untouched (w v : Stack) : Prop := v.st = w.st ∧ v.lseq = w.lseq ∧ v.rseq = w.rseq

/-- The segment is not from the peer's address and port, or not to the local port. -/
def Foreign (w : Stack) (peer src : Nat) (t : Bytes) : Prop :=
  src ≠ peer ∨ bswap16 (Tcp.sport t) ≠ w.rportWant ∨ bswap16 (Tcp.dport t) ≠ w.lport

instance (w : Stack) (peer src : Nat) (t : Bytes) : Decidable (Foreign w peer src t) :=
  inferInstanceAs (Decidable (_ ∨ _ ∨ _))

/-- A segment that has nothing to say to the connection as it stands. -/
def Moot (w : Stack) (t : Bytes) (len : Nat) : Prop :=
  len < tcpHdrLen ∨ ¬ (w.st = .synSent ∧ Tcp.flags t &&& tcpSyn ≠ 0) ∧
    if Tcp.flags t &&& tcpRst ≠ 0 then w.st = .closed
    else (Tcp.flags t &&& tcpAck ≠ 0 → Tcp.seq t = w.rseq) ∧
      (Tcp.flags t &&& tcpFin ≠ 0 → w.st ≠ .established)

section rx

variable (poll : Stack → Stack) (w : Stack) (t : Bytes) (len src ipSrc : Nat)

theorem received_st : (w.received t len).st = w.st := by rw [received_eq]

theorem tcpRx_syn (long : tcpHdrLen ≤ len) (opening : w.st = .synSent)
    (syn : Tcp.flags t &&& tcpSyn ≠ 0) :
    (tcpRx poll t len src ipSrc w).st = .established := by
  rw [tcpRx, if_neg (Nat.not_lt.mpr long), if_pos ⟨opening, syn⟩]
  rfl

theorem tcpRx_other (long : tcpHdrLen ≤ len)
    (other : ¬ (w.st = .synSent ∧ Tcp.flags t &&& tcpSyn ≠ 0)) :
    tcpRx poll t len src ipSrc w = if Tcp.flags t &&& tcpRst ≠ 0 then { w with st := .closed }
      else if Tcp.flags t &&& tcpFin ≠
        0 then (tcpClose poll src (w.received t len)).2.print .tcpClosed
      else w.received t len := by
  rw [tcpRx, if_neg (Nat.not_lt.mpr long), if_neg other]

theorem received_untouched_iff :
    Untouched w (w.received t len) ↔ (Tcp.flags t &&& tcpAck ≠ 0 → Tcp.seq t = w.rseq) := by
  rw [Untouched, received_eq]
  by_cases ack : Tcp.flags t &&& tcpAck ≠ 0
  · simp [ack]
  · simp [ack]

theorem tcpRx_untouched_iff : Untouched w (tcpRx poll t len src ipSrc w) ↔ Moot w t len := by
  by_cases short : len < tcpHdrLen
  · rw [tcpRx, if_pos short]
    exact iff_of_true ⟨rfl, rfl, rfl⟩ (Or.inl short)
  have long : tcpHdrLen ≤ len := Nat.le_of_not_lt short
  by_cases syn : w.st = .synSent ∧ Tcp.flags t &&& tcpSyn ≠ 0
  · have hst := tcpRx_syn poll w t len src ipSrc long syn.1 syn.2
    refine iff_of_false (fun same => ?_) (fun moot => ?_)
    · rw [same.1, syn.1] at hst
      cases hst
    · rcases moot with h | h
      · exact short h
      · exact h.1 syn
  rw [tcpRx_other poll w t len src ipSrc long syn]
  simp only [Moot, short, false_or, syn, not_false_eq_true, true_and]
  by_cases rst : Tcp.flags t &&& tcpRst ≠ 0
  · rw [if_pos rst, if_pos rst]
    constructor
    · intro same
      exact same.1.symm
    · intro closed
      exact ⟨closed.symm, rfl, rfl⟩
  rw [if_neg rst, if_neg rst]
  by_cases fin : Tcp.flags t &&& tcpFin ≠ 0
  · rw [if_pos fin]
    by_cases open_ : w.st = .established
    · -- `tcp_close` leaves it closed, whatever happens while the last segment is sent
      have hst : ((tcpClose poll src (w.received t len)).2.print .tcpClosed).st = .closed := by
        rw [tcpClose, received_st, if_neg (not_not.mpr open_)]
        rfl
      refine iff_of_false (fun same => ?_) (fun moot => moot.2 fin open_)
      rw [same.1, open_] at hst
      cases hst
    · have hclose : (tcpClose poll src (w.received t len)).2 = w.received t len := by
        rw [tcpClose, received_st, if_pos open_]
      rw [hclose]
      have hsame : Untouched w ((w.received t len).print .tcpClosed) ↔
        Untouched w (w.received t len) := Iff.rfl
      rw [hsame, received_untouched_iff]
      exact ⟨fun ack => ⟨ack, fun _ => open_⟩, fun moot => moot.1⟩
  · rw [if_neg fin, received_untouched_iff]
    exact ⟨fun ack => ⟨ack, fun h => absurd h fin⟩, fun moot => moot.1⟩

/-- For every state and segment: a foreign segment leaves the connection alone, and a SYN with
a wrong acknowledgement does not establish it, exactly when a foreign segment is moot
and there is no such SYN of full length. -/
theorem tcp_admission_iff (peer : Nat) :
    ((Foreign w peer src t → Untouched w (tcpRx poll t len src ipSrc w)) ∧
      (w.st = .synSent → Tcp.flags t &&& tcpSyn ≠ 0 → Tcp.ackn t ≠ isn + 1 →
        (tcpRx poll t len src ipSrc w).st ≠ .established)) ↔
    (Foreign w peer src t → Moot w t len) ∧
      ¬ (w.st = .synSent ∧ tcpHdrLen ≤ len ∧ Tcp.flags t &&& tcpSyn ≠ 0 ∧
        Tcp.ackn t ≠ isn + 1) := by
  refine and_congr (imp_congr_right fun _ => tcpRx_untouched_iff poll w t len src ipSrc) ?_
  constructor
  · rintro refused ⟨opening, long, syn, wrong⟩
    exact refused opening syn wrong (tcpRx_syn poll w t len src ipSrc long opening syn)
  · intro absent opening syn wrong
    have short : len < tcpHdrLen := Nat.lt_of_not_le fun long => absent ⟨opening, long, syn, wrong⟩
    rw [tcpRx, if_pos short, opening]
    decide

end rx

/-- A reset from a port that the connection does not know closes it. -/
theorem foreign_reset_closes :
    let w : Stack := { idleStack with st := .established, rportWant := 80 }
    let t := tcpHdr (bswap16 4444) (bswap16 5555) 0 0 tcpRst 0
    Foreign w 0 0 t ∧ (tcpRx netPoll t tcpHdrLen 0 0 w).st = .closed ∧
      ¬ Untouched w (tcpRx netPoll t tcpHdrLen 0 0 w) := by
  refine ⟨by decide, rfl, fun same => ?_⟩
  exact absurd same.1 (by decide)

end Obsidian.Net
