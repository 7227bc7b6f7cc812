import Obsidian.Drivers.E1000
import Obsidian.Lib.Ring
import Obsidian.Lib.Runs

/-!
# The transmit ring and its one buffer

Every descriptor of the transmit ring points to the same buffer. What the device sends
for a descriptor is what the buffer holds by then, so a frame that is still waiting is
sent right only as long as no later call copies other octets over it. The descriptors
themselves are in order: none is sent twice, and none that waits is rewritten.
-/
namespace Obsidian.Drivers
open Lib Lib.Bytes Lib.Ring

/-- How far the driver is in `e1000_send`. -/
inductive SendPhase where
  | idle
  /-- The frame is in the transmit buffer. -/
  | copied (frame : Bytes) (len : Nat)
  /-- The tail is written; the driver reads the status of the descriptor. -/
  | waiting (slot : Nat)

def SendPhase.isIdle : SendPhase → Bool
  | .idle => true
  | _ => false

def SendPhase.isCopied : SendPhase → Bool
  | .copied _ _ => true
  | _ => false

def SendPhase.isWaiting : SendPhase → Bool
  | .waiting _ => true
  | _ => false

inductive TxEvent where
  | call (frame : Bytes) (len : Nat)
  | queue
  | finish
  | transmit

/-- The driver with the frames it has queued, the number of the frame that each descriptor
was last written for, and what the device has sent, each with that number. -/
structure TxTrace where
  nic : E1000
  phase : SendPhase
  queued : List (List UInt8)
  owner : Nat → Nat
  wire : List (Nat × List UInt8)
  results : List Int

/-- The driver is in one call at a time, and the device sends when it has a descriptor. -/
def txOk (t : TxTrace) : TxEvent → Prop
  | .call _ _ => t.phase.isIdle = true
  | .queue => t.phase.isCopied = true
  | .finish => t.phase.isWaiting = true
  | .transmit => t.nic.transmits

instance (t : TxTrace) : (e : TxEvent) → Decidable (txOk t e)
  | .call _ _ => inferInstanceAs (Decidable (_ = true))
  | .queue => inferInstanceAs (Decidable (_ = true))
  | .finish => inferInstanceAs (Decidable (_ = true))
  | .transmit => inferInstanceAs (Decidable t.nic.transmits)

def txStep (t : TxTrace) : TxEvent → Option TxTrace
  | .call frame len =>
    if t.nic.accepts len then
      some { t with nic := t.nic.sendCopy frame len, phase := .copied frame len }
    else some { t with results := t.results ++ [-1] }
  | .queue =>
    match t.phase with
    | .copied frame len => some { t with
        nic := t.nic.sendQueue len
        phase := .waiting t.nic.txTail
        queued := t.queued ++ [toList frame 0 len]
        owner := fun i => if i = t.nic.txTail then t.queued.length else t.owner i }
    | _ => none
  | .finish =>
    match t.phase with
    | .waiting slot => some { t with phase := .idle, results := t.results ++ [t.nic.sendDone slot] }
    | _ => none
  | .transmit => some { t with
      nic := t.nic.transmit
      wire := t.wire ++ [(t.owner t.nic.regs.tdh, t.nic.onWire)] }

/-- The descriptors that wait for the device. -/
def E1000.waiting (s : E1000) : Nat := (s.regs.tdt + txDescs - s.regs.tdh) % txDescs

/-- A copy of the frame to the transmit buffer changes no octet of a frame that waits. -/
def E1000.Spares (s : E1000) (frame : Bytes) (len : Nat) : Prop :=
  ∀ i, i < s.waiting → ∀ k, k < len → k < (s.txRing ((s.regs.tdh + i) % txDescs)).length →
    frame k = s.mem (s.txBuffer + k)

instance (s : E1000) (frame : Bytes) (len : Nat) : Decidable (s.Spares frame len) :=
  inferInstanceAs (Decidable (∀ i, i < s.waiting → ∀ k, k < len → _ → _))

/-- Every call that copies its frame spares the frames that wait. -/
def txSpares (t : TxTrace) : TxEvent → Prop
  | .call frame len => t.nic.accepts len → t.nic.Spares frame len
  | _ => True

instance (t : TxTrace) : (e : TxEvent) → Decidable (txSpares t e)
  | .call frame len => inferInstanceAs (Decidable (t.nic.accepts len → t.nic.Spares frame len))
  | .queue => inferInstanceAs (Decidable True)
  | .finish => inferInstanceAs (Decidable True)
  | .transmit => inferInstanceAs (Decidable True)

/-- An admitted event that spares the frames that wait. -/
def txSafe (t : TxTrace) (e : TxEvent) : Prop := txOk t e ∧ txSpares t e

instance (t : TxTrace) (e : TxEvent) : Decidable (txSafe t e) := inferInstanceAs (Decidable (_ ∧ _))

/-- Everything sent is the frame it was queued for, and nothing is sent twice. -/
def SentRight (t : TxTrace) : Prop :=
  (∀ serial octets, (serial, octets) ∈ t.wire → t.queued[serial]? = some octets) ∧
    (t.wire.map Prod.fst).Nodup

/-! ## The frames that wait -/

/-- Descriptor `slot` was queued for the frame, and the buffer still holds it. -/
structure Waits (t : TxTrace) (slot : Nat) (entry : Nat × List UInt8) : Prop where
  addr : (t.nic.txRing slot).addr = t.nic.txBuffer
  length : (t.nic.txRing slot).length = entry.2.length
  octets : toList t.nic.mem t.nic.txBuffer entry.2.length = entry.2
  owner : t.owner slot = entry.1

/-- The entries that wait, behind those sent. -/
structure TxQueue (t : TxTrace) (pending : List (Nat × List UInt8)) : Prop where
  tail : t.nic.txTail = t.nic.regs.tdt
  head : t.nic.regs.tdh < txDescs
  next : t.nic.regs.tdt = (t.nic.regs.tdh + pending.length) % txDescs
  room : pending.length < txDescs
  spans : Spans txDescs (Waits t) t.nic.regs.tdh pending
  right : ∀ entry ∈ t.wire ++ pending, t.queued[entry.1]? = some entry.2
  order : ((t.wire ++ pending).map Prod.fst).Pairwise (· < ·)
  copied : ∀ frame len, t.phase = .copied frame len →
    toList t.nic.mem t.nic.txBuffer len = toList frame 0 len

variable {t next : TxTrace} {pending : List (Nat × List UInt8)}

section
variable (inv : TxQueue t pending)
include inv

theorem TxQueue.sentRight : SentRight t := by
  constructor
  · intro serial octets hmem
    exact inv.right (serial, octets) (List.mem_append_left _ hmem)
  · have horder := inv.order
    rw [List.map_append] at horder
    exact (List.pairwise_append.mp horder).1.imp fun h => Nat.ne_of_lt h

theorem TxQueue.waiting_eq : t.nic.waiting = pending.length := by
  have hhead := inv.head
  have hroom := inv.room
  unfold E1000.waiting
  rw [inv.next]
  simp only [txDescs] at hhead hroom ⊢
  omega

theorem TxQueue.call {frame : Bytes} {len : Nat} (spares : t.nic.Spares frame len) :
    TxQueue { t with nic := t.nic.sendCopy frame len, phase := .copied frame len } pending := by
  refine ⟨inv.tail, inv.head, inv.next, inv.room, ?_, inv.right, inv.order, ?_⟩
  · intro i entry hentry
    have hold := inv.spans i entry hentry
    refine ⟨hold.addr, hold.length, (toList_congr ?_).trans hold.octets, hold.owner⟩
    intro k hk
    have hi : i < t.nic.waiting := by
      rw [inv.waiting_eq]
      exact (List.getElem?_eq_some_iff.mp hentry).1
    show copy t.nic.mem t.nic.txBuffer frame 0 len (t.nic.txBuffer + k) =
      t.nic.mem (t.nic.txBuffer + k)
    by_cases inside : k < len
    · rw [copy_inside _ _ _ _ _ _ inside, Nat.zero_add]
      exact spares i hi k inside (hold.length ▸ hk)
    · exact copy_agree _ _ _ _ _ (t.nic.txBuffer + len) (t.nic.txBuffer + k + 1)
        (Or.inr (Nat.le_refl _))
        _ (by omega) (by omega)
  · intro frame' len' hphase
    cases hphase
    exact toList_copy _ _ _ _ _

theorem TxQueue.finish (results : List Int) :
    TxQueue { t with phase := .idle, results := results } pending := by
  refine ⟨inv.tail, inv.head, inv.next, inv.room, ?_, inv.right, inv.order, ?_⟩
  · intro i entry hentry
    have hold := inv.spans i entry hentry
    exact ⟨hold.addr, hold.length, hold.octets, hold.owner⟩
  · intro frame len hphase
    cases hphase

end

theorem TxQueue.transmit {entry : Nat × List UInt8} (inv : TxQueue t (entry :: pending)) :
    TxQueue { t with
      nic := t.nic.transmit
      wire := t.wire ++ [(t.owner t.nic.regs.tdh, t.nic.onWire)] } pending := by
  have hfirst := inv.spans.head
  rw [Nat.mod_eq_of_lt inv.head] at hfirst
  have hsent : (t.owner t.nic.regs.tdh, t.nic.onWire) = entry := by
    rw [hfirst.owner, E1000.onWire, hfirst.addr, hfirst.length, hfirst.octets]
  have hroom : pending.length < txDescs := Nat.lt_of_succ_lt inv.room
  have hhead := inv.head
  have hsplit : t.wire ++ [entry] ++ pending = t.wire ++ entry :: pending := by simp
  rw [hsent]
  refine ⟨inv.tail, Nat.mod_lt _ (by decide), ?_, hroom, ?_, ?_, ?_, inv.copied⟩
  · have hnext := inv.next
    show t.nic.regs.tdt = ((t.nic.regs.tdh + 1) % txDescs + pending.length) % txDescs
    rw [hnext, List.length_cons, Nat.mod_add_mod, Nat.add_assoc, Nat.add_comm 1]
  · have hspans : Spans txDescs (Waits { t with
        nic := t.nic.transmit
        wire := t.wire ++ [entry] }) (t.nic.regs.tdh + 1) pending := by
      refine Spans.pop hroom inv.spans ?_
      intro slot y hne hold
      rw [Nat.mod_eq_of_lt hhead] at hne
      refine ⟨?_, ?_, hold.octets, hold.owner⟩
      · simp only [E1000.transmit, if_neg hne]
        exact hold.addr
      · simp only [E1000.transmit, if_neg hne]
        exact hold.length
    exact (spans_mod (k := 0)).mpr hspans
  · rw [hsplit]
    exact inv.right
  · rw [hsplit]
    exact inv.order

theorem TxQueue.right_append (inv : TxQueue t pending) (frame : List UInt8) :
    ∀ entry ∈ t.wire ++ pending, (t.queued ++ [frame])[entry.1]? = some entry.2 ∧
    entry.1 < t.queued.length := by
  intro entry hmem
  have hentry := inv.right entry hmem
  have hlt : entry.1 < t.queued.length := (List.getElem?_eq_some_iff.mp hentry).1
  exact ⟨by rw [List.getElem?_append_left hlt]; exact hentry, hlt⟩

/-- The frame in the buffer is put in behind those that wait; the eighth empties the ring. -/
theorem TxQueue.queue (inv : TxQueue t pending) {frame : Bytes} {len : Nat}
    (hphase : t.phase = .copied frame len) :
    ∃ pending', TxQueue { t with
      nic := t.nic.sendQueue len
      phase := .waiting t.nic.txTail
      queued := t.queued ++ [toList frame 0 len]
      owner := fun i => if i = t.nic.txTail then t.queued.length else t.owner i } pending' := by
  have hhead := inv.head
  have hroom := inv.room
  have hold := inv.right_append (toList frame 0 len)
  have htail : u16 ((t.nic.txTail + 1) % txDescs) = (t.nic.regs.tdh + (pending.length + 1)) %
      txDescs := by
    rw [u16_of_lt (Nat.lt_trans (Nat.mod_lt _ (by decide)) (by decide)), inv.tail,
      inv.next, Nat.mod_add_mod,
      Nat.add_assoc]
  by_cases full : pending.length + 1 < txDescs
  · refine ⟨pending ++ [(t.queued.length, toList frame 0 len)], rfl, hhead, ?_, ?_, ?_, ?_, ?_, ?_⟩
    · rw [List.length_append]
      exact htail
    · rw [List.length_append]
      exact full
    · refine Spans.push hroom inv.spans ?_ ?_
      · intro slot entry hne hwaits
        have hslot : slot ≠ t.nic.txTail := by
          rw [inv.tail, inv.next]
          exact hne
        refine ⟨?_, ?_, hwaits.octets, ?_⟩
        · simp only [E1000.sendQueue, if_neg hslot]
          exact hwaits.addr
        · simp only [E1000.sendQueue, if_neg hslot]
          exact hwaits.length
        · simp only [if_neg hslot]
          exact hwaits.owner
      · show Waits _ ((t.nic.regs.tdh + pending.length) % txDescs) _
        rw [← inv.next, ← inv.tail]
        refine ⟨?_, ?_, ?_, ?_⟩
        · simp only [E1000.sendQueue, if_true]
        · simp only [E1000.sendQueue, if_true, toList_length]
        · rw [toList_length]
          exact inv.copied frame len hphase
        · simp only [if_true]
    · rw [← List.append_assoc]
      intro entry hmem
      rcases List.mem_append.mp hmem with old | new
      · exact (hold entry old).1
      · rw [List.mem_singleton.mp new]
        exact List.getElem?_concat_length
    · rw [← List.append_assoc, List.map_append]
      refine List.pairwise_append.mpr ⟨inv.order, List.pairwise_singleton _ _, ?_⟩
      intro a ha b hb
      obtain ⟨entry, hmem, rfl⟩ := List.mem_map.mp ha
      rw [List.mem_singleton.mp hb]
      exact (hold entry hmem).2
    · intro frame' len' h
      cases h
  · have hlen : pending.length + 1 = txDescs := by omega
    refine ⟨[], rfl, hhead, ?_, by decide, spans_nil, ?_, ?_, ?_⟩
    · show u16 ((t.nic.txTail + 1) % txDescs) = (t.nic.regs.tdh + 0) % txDescs
      rw [htail, hlen, Nat.add_mod_right, Nat.add_zero]
    · intro entry hmem
      rw [List.append_nil] at hmem
      exact (hold entry (List.mem_append_left _ hmem)).1
    · have horder := inv.order
      rw [List.map_append] at horder
      rw [List.append_nil]
      exact (List.pairwise_append.mp horder).1
    · intro frame' len' h
      cases h

/-! ## Runs -/

theorem TxQueue.step {e : TxEvent} (inv : TxQueue t pending) (admitted : txSafe t e)
    (returned : txStep t e = some next) : ∃ pending', TxQueue next pending' := by
  obtain ⟨ok, spares⟩ := admitted
  cases e with
  | call frame len =>
    simp only [txStep] at returned
    by_cases accepts : t.nic.accepts len
    · rw [if_pos accepts] at returned
      cases returned
      exact ⟨pending, inv.call (spares accepts)⟩
    · rw [if_neg accepts] at returned
      cases returned
      refine ⟨pending, inv.tail, inv.head, inv.next, inv.room, ?_, inv.right, inv.order, inv.copied⟩
      intro i entry hentry
      have hold := inv.spans i entry hentry
      exact ⟨hold.addr, hold.length, hold.octets, hold.owner⟩
  | queue =>
    cases hphase : t.phase with
    | copied frame len =>
      simp only [txStep, hphase] at returned
      cases returned
      exact inv.queue hphase
    | idle =>
      simp only [txStep, hphase] at returned
      cases returned
    | waiting slot =>
      simp only [txStep, hphase] at returned
      cases returned
  | finish =>
    cases hphase : t.phase with
    | waiting slot =>
      simp only [txStep, hphase] at returned
      cases returned
      exact ⟨pending, inv.finish _⟩
    | idle =>
      simp only [txStep, hphase] at returned
      cases returned
    | copied frame len =>
      simp only [txStep, hphase] at returned
      cases returned
  | transmit =>
    cases returned
    cases pending with
    | nil =>
      have hnext := inv.next
      have hbusy : t.nic.regs.tdh ≠ t.nic.regs.tdt := ok
      rw [List.length_nil, Nat.add_zero, Nat.mod_eq_of_lt inv.head] at hnext
      exact absurd hnext.symm hbusy
    | cons entry rest => exact ⟨rest, inv.transmit⟩

/-- The driver after its start, with nothing sent. -/
def txStart (s : E1000) : TxTrace := ⟨s, .idle, [], fun _ => 0, [], []⟩

theorem init_txQueue {p : Probe} {s : E1000} (done : (e1000Init p s).1 = true) :
    TxQueue (txStart (e1000Init p s).2) [] := by
  obtain ⟨started, -, hs⟩ := e1000Init_done done
  rw [hs]
  refine ⟨rfl, (by decide : 0 < txDescs), ?_, (by decide : 0 < txDescs), spans_nil, ?_,
    List.Pairwise.nil, ?_⟩
  · show 0 = (0 + 0) % txDescs
    decide
  · intro entry hmem
    cases hmem
  · intro frame len h
    cases h

/-- As long as no call copies over a frame that waits, everything sent is the frame it was
queued for, and nothing is sent twice. -/
theorem tx_sends_queued {p : Probe} {s : E1000} (done : (e1000Init p s).1 = true)
    {events : List TxEvent} {t : TxTrace}
    (run : Run txStep txSafe (txStart (e1000Init p s).2) events t) :
    SentRight t := by
  have inv : ∃ pending, TxQueue t pending :=
    run.invariant (fun t => ∃ pending, TxQueue t pending)
      (fun _ _ _ ⟨_, inv⟩ ok step => inv.step ok step) ⟨[], init_txQueue done⟩
  obtain ⟨pending, inv⟩ := inv
  exact inv.sentRight

theorem tx_sends_queued_sample :
    ∃ t, Run txStep txSafe (txStart (e1000Init readyProbe bareNic).2)
    [.call (ofList zero 0 [1, 2, 3]) 3, .queue, .transmit, .finish,
      .call (ofList zero 0 [7, 8]) 2, .queue, .finish, .transmit] t ∧ SentRight t := by
  have runs : (exec txStep txSafe (txStart (e1000Init readyProbe bareNic).2)
      [.call (ofList zero 0 [1, 2, 3]) 3, .queue, .transmit, .finish,
        .call (ofList zero 0 [7, 8]) 2, .queue, .finish, .transmit]).isSome := by decide
  obtain ⟨t, run⟩ := Run.exists_of_exec runs
  exact ⟨t, run, tx_sends_queued (by decide) run⟩

/-- The driver gives up on a first frame and copies a second over it: the device sends the
octets of the second with the length of the first. -/
theorem tx_sends_other :
    ∃ t, Run txStep txOk (txStart (e1000Init readyProbe bareNic).2)
    [.call (ofList zero 0 [1, 2, 3]) 3, .queue, .finish, .call (ofList zero 0 [7, 8]) 2, .queue,
      .transmit] t ∧
    t.queued = [[1, 2, 3], [7, 8]] ∧ t.wire = [(0, [7, 8, 3])] ∧ ¬ SentRight t := by
  have runs : (exec txStep txOk (txStart (e1000Init readyProbe bareNic).2)
      [.call (ofList zero 0 [1, 2, 3]) 3, .queue, .finish, .call (ofList zero 0 [7, 8]) 2, .queue,
        .transmit]).map (fun t => (t.queued, t.wire)) =
      some ([[1, 2, 3], [7, 8]], [(0, [7, 8, 3])]) := by
    decide
  obtain ⟨t, hexec, ht⟩ := Option.map_eq_some_iff.mp runs
  obtain ⟨hqueued, hwire⟩ := Prod.mk.inj ht
  refine ⟨t, Run.of_exec hexec, hqueued, hwire, ?_⟩
  intro right
  have sent := right.1 0 [7, 8, 3] (by rw [hwire]; exact List.mem_singleton.mpr rfl)
  rw [hqueued] at sent
  exact absurd sent (by decide)

end Obsidian.Drivers
