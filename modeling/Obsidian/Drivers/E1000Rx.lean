import Obsidian.Drivers.E1000
import Obsidian.Lib.Ring
import Obsidian.Lib.Runs

/-!
# The receive ring is a queue

The frames that the device has stored and the driver has not yet returned lie in the
descriptors behind RDT, in their order; every other descriptor has its status bit
clear. The ring is never completely full: the device stops one descriptor short of it,
which is what tells a full ring from an empty one.
-/
namespace Obsidian.Drivers
open Lib Lib.Bytes Lib.Ring

variable {s : E1000} {frame : List UInt8} {queue : List (List UInt8)}

/-- Descriptor `slot` holds the frame. -/
structure Filled (s : E1000) (slot : Nat) (frame : List UInt8) : Prop where
  status : (s.rxRing slot).status &&& 1 ≠ 0
  length : (s.rxRing slot).length = frame.length
  octets : toList s.mem (s.rxBuffer slot) frame.length = frame
  positive : 0 < frame.length
  fits : frame.length ≤ bufSize

/-- The frames outstanding in the ring. -/
structure RxQueue (s : E1000) (queue : List (List UInt8)) : Prop where
  present : s.present = true
  tail : s.rxTail = s.regs.rdt
  bound : s.regs.rdt < rxDescs
  head : s.regs.rdh = (s.regs.rdt + 1 + queue.length) % rxDescs
  room : queue.length < rxDescs
  addr : ∀ i, i < rxDescs → (s.rxRing i).addr = s.rxBuffer i
  spans : Spans rxDescs (Filled s) (s.regs.rdt + 1) queue
  rest : Rest rxDescs (fun i => (s.rxRing i).status &&& 1 = 0) (s.regs.rdt + 1) queue.length

theorem init_rxQueue {p : Probe} {s : E1000} (done : (e1000Init p s).1 = true) :
    RxQueue (e1000Init p s).2 [] := by
  obtain ⟨t, present, ht⟩ := e1000Init_done done
  rw [ht]
  refine ⟨present, rfl, (by decide : rxDescs - 1 < rxDescs), ?_, (by decide : 0 < rxDescs), ?_,
    spans_nil, ?_⟩
  · show 0 = (rxDescs - 1 + 1 + 0) % rxDescs
    decide
  · intro i hi
    simp only [E1000.started, if_pos hi]
    rfl
  · intro i _ _
    have hslot : ∀ k, k % rxDescs < rxDescs := fun k => Nat.mod_lt k (by decide)
    simp only [E1000.started, if_pos (hslot _), Nat.zero_and]

theorem RxQueue.fill (inv : RxQueue s queue) (free : s.fills) (positive : 0 < frame.length)
    (fits : frame.length ≤ bufSize) : RxQueue (s.fill frame) (queue ++ [frame]) := by
  have hlt : s.regs.rdh < rxDescs := inv.head ▸ Nat.mod_lt _ (by decide)
  have haddr : (s.rxRing s.regs.rdh).addr = s.rxBuffer s.regs.rdh := inv.addr _ hlt
  have hroom : queue.length + 1 < rxDescs := by
    by_contra full
    have hlen : queue.length = 31 := by
      have := inv.room
      simp only [rxDescs] at this full
      omega
    apply free
    have hbound := inv.bound
    rw [inv.head]
    simp only [rxDescs]
    omega
  -- a frame written to another buffer does not reach this one
  have keep : ∀ slot y, slot ≠ (s.regs.rdt + 1 + queue.length) % rxDescs → Filled s slot y →
      Filled (s.fill frame) slot y := by
    intro slot y hne hold
    rw [← inv.head] at hne
    refine ⟨?_, ?_, ?_, hold.positive, hold.fits⟩
    · simp only [E1000.fill, if_neg hne]
      exact hold.status
    · simp only [E1000.fill, if_neg hne]
      exact hold.length
    · refine (toList_congr ?_).trans hold.octets
      intro k hk
      have hy := hold.fits
      simp only [E1000.fill, haddr]
      apply ofList_outside
      simp only [E1000.rxBuffer, bufSize] at fits hy ⊢
      omega
  have new : Filled (s.fill frame) ((s.regs.rdt + 1 + queue.length) % rxDescs) frame := by
    rw [← inv.head]
    refine ⟨?_, ?_, ?_, positive, fits⟩
    · simp only [E1000.fill, if_true]
      intro clear
      have := congrArg (Nat.testBit · 0) clear
      simp at this
    · simp only [E1000.fill, if_true]
    · simp only [E1000.fill, haddr]
      exact toList_ofList _ _ _
  have hlen : (queue ++ [frame]).length = queue.length + 1 := List.length_append
  refine ⟨inv.present, inv.tail, inv.bound, ?_, hlen ▸ hroom, ?_,
    Spans.push inv.room inv.spans keep new, ?_⟩
  · show (s.regs.rdh + 1) % rxDescs = _
    rw [inv.head, hlen, Nat.mod_add_mod]
    rfl
  · intro i hi
    by_cases same : i = s.regs.rdh
    · simp only [E1000.fill, same]
      exact haddr
    · simp only [E1000.fill, if_neg same]
      exact inv.addr i hi
  · rw [hlen]
    refine Rest.push inv.rest ?_
    intro slot hne hclear
    have hslot : slot ≠ s.regs.rdh := inv.head ▸ hne
    simp only [E1000.fill, if_neg hslot]
    exact hclear

theorem RxQueue.next (inv : RxQueue s queue) :
    u16 ((s.rxTail + 1) % rxDescs) = (s.regs.rdt + 1) % rxDescs := by
  rw [inv.tail]
  exact u16_of_lt (Nat.lt_trans (Nat.mod_lt _ (by decide)) (by decide))

theorem RxQueue.poll_empty (inv : RxQueue s []) (buf : Bytes) (maxLen : Nat) :
    e1000Poll s buf maxLen = (0, buf, s) := by
  have hclear : (s.rxRing ((s.regs.rdt + 1) % rxDescs)).status &&& 1 = 0 :=
    inv.rest 0 (Nat.le_refl 0) (by decide)
  unfold e1000Poll
  rw [if_neg (by rw [inv.present]; simp), inv.next]
  simp only [hclear, if_true]

section
variable (inv : RxQueue s (frame :: queue))
include inv

theorem RxQueue.giveBack : RxQueue (s.giveBack ((s.regs.rdt + 1) % rxDescs)) queue := by
  generalize hslot : (s.regs.rdt + 1) % rxDescs = next
  have hnext : next < rxDescs := hslot ▸ Nat.mod_lt _ (by decide)
  have hroom := inv.room
  -- the other descriptors keep their frames and their status
  have keep : ∀ slot y, slot ≠ (s.regs.rdt + 1) % rxDescs → Filled s slot y →
      Filled (s.giveBack next) slot y := by
    intro slot y hne hold
    rw [hslot] at hne
    refine ⟨?_, ?_, hold.octets, hold.positive, hold.fits⟩
    · simp only [E1000.giveBack, if_neg hne]
      exact hold.status
    · simp only [E1000.giveBack, if_neg hne]
      exact hold.length
  refine ⟨inv.present, rfl, hnext, ?_, Nat.lt_of_succ_lt hroom, ?_, ?_, ?_⟩
  · show s.regs.rdh = (next + 1 + queue.length) % rxDescs
    rw [inv.head, ← hslot, List.length_cons, Nat.add_assoc _ 1 queue.length, Nat.mod_add_mod,
      Nat.add_comm queue.length 1]
  · intro i hi
    by_cases same : i = next
    · simp only [E1000.giveBack, same]
      exact inv.addr next hnext
    · simp only [E1000.giveBack, if_neg same]
      exact inv.addr i hi
  · have hspans := Spans.pop (Nat.lt_of_succ_lt hroom) inv.spans keep
    rw [← spans_mod, hslot] at hspans
    exact hspans
  · have hrest : Rest rxDescs (fun i => ((s.giveBack next).rxRing i).status &&& 1 = 0)
        (s.regs.rdt + 1 + 1) queue.length := by
      refine Rest.pop inv.rest ?_ ?_
      · intro slot hne hclear
        rw [hslot] at hne
        simp only [E1000.giveBack, if_neg hne]
        exact hclear
      · simp only [E1000.giveBack, hslot, if_true, Nat.zero_and]
    rw [← rest_mod, hslot] at hrest
    exact hrest

/-- With a frame outstanding, `e1000_poll` returns the first one, cut to the room given. -/
theorem RxQueue.poll (buf : Bytes) (maxLen : Nat) :
    e1000Poll s buf maxLen = (((min maxLen frame.length : Nat) : Int),
      copy buf 0 s.mem (s.rxBuffer ((s.regs.rdt + 1) % rxDescs)) (min maxLen frame.length),
      s.giveBack ((s.regs.rdt + 1) % rxDescs)) := by
  have hfirst := inv.spans.head
  unfold e1000Poll
  rw [if_neg (by rw [inv.present]; simp), inv.next]
  generalize (s.regs.rdt + 1) % rxDescs = next at hfirst ⊢
  have hgot : (if (s.rxRing next).length < maxLen then (s.rxRing next).length else maxLen) =
      min maxLen frame.length := by
    rw [hfirst.length, Nat.min_def]
    split
    · rw [if_neg (by omega)]
    · rw [if_pos (by omega)]
  simp only [if_neg hfirst.status, hgot]

theorem RxQueue.polled (buf : Bytes) (maxLen : Nat) :
    toList (e1000Poll s buf maxLen).2.1 0 (e1000Poll s buf maxLen).1.toNat = frame.take maxLen := by
  have hfirst := inv.spans.head
  rw [inv.poll, Int.toNat_natCast, toList_copy, ← toList_take, hfirst.octets]

end

/-! ## Runs -/

inductive RxEvent where
  | fill (frame : List UInt8)
  | poll (buf : Bytes) (maxLen : Nat)

/-- The driver with what the device has stored and what the driver has returned, with the
room it was given. -/
structure RxTrace where
  nic : E1000
  filled : List (List UInt8)
  returned : List (Nat × List UInt8)

/-- The device stores frames of at most one buffer while it has a descriptor; the caller
gives room for at least one octet. -/
def rxOk (t : RxTrace) : RxEvent → Prop
  | .fill frame => t.nic.fills ∧ 0 < frame.length ∧ frame.length ≤ bufSize
  | .poll _ maxLen => 0 < maxLen

instance (t : RxTrace) : (e : RxEvent) → Decidable (rxOk t e)
  | .fill _ => inferInstanceAs (Decidable (_ ∧ _))
  | .poll _ maxLen => inferInstanceAs (Decidable (0 < maxLen))

def rxStep (t : RxTrace) : RxEvent → Option RxTrace
  | .fill frame => some { t with nic := t.nic.fill frame, filled := t.filled ++ [frame] }
  | .poll buf maxLen =>
    let r := e1000Poll t.nic buf maxLen
    some { t with
      nic := r.2.2
      returned := if 0 < r.1 then t.returned ++ [(maxLen, toList r.2.1 0 r.1.toNat)]
        else t.returned }

/-- Every frame returned is the one stored at its place, cut to the room given; the rest is
in the ring. -/
structure RxFifo (t : RxTrace) : Prop where
  same : ∀ (i maxLen : Nat) frame, t.returned[i]? = some (maxLen, frame) →
    ∃ stored : List UInt8, t.filled[i]? = some stored ∧ frame = stored.take maxLen
  count : t.returned.length ≤ t.filled.length
  queue : RxQueue t.nic (t.filled.drop t.returned.length)

theorem RxFifo.step {t next : RxTrace} {e : RxEvent} (inv : RxFifo t) (admitted : rxOk t e)
    (returned : rxStep t e = some next) : RxFifo next := by
  cases e with
  | fill frame =>
    obtain ⟨free, positive, fits⟩ := admitted
    cases returned
    refine ⟨?_, ?_, ?_⟩
    · intro i maxLen got hgot
      obtain ⟨stored, hstored, hcut⟩ := inv.same i maxLen got hgot
      have hlt : i < t.filled.length := (List.getElem?_eq_some_iff.mp hstored).1
      exact ⟨stored, by rw [List.getElem?_append_left hlt]; exact hstored, hcut⟩
    · simp only [List.length_append]
      exact Nat.le_add_right_of_le inv.count
    · simp only [List.drop_append_of_le_length inv.count]
      exact inv.queue.fill free positive fits
  | poll buf maxLen =>
    have queue := inv.queue
    cases returned
    cases hrest : t.filled.drop t.returned.length with
    | nil =>
      rw [hrest] at queue
      simp only [queue.poll_empty]
      exact ⟨inv.same, inv.count, inv.queue⟩
    | cons frame rest =>
      rw [hrest] at queue
      have hlt : t.returned.length < t.filled.length := by
        by_contra none
        rw [List.drop_of_length_le (Nat.le_of_not_lt none)] at hrest
        cases hrest
      have hframe : t.filled[t.returned.length]? = some frame := by
        rw [← List.head?_drop, hrest, List.head?_cons]
      have hpositive : 0 < (e1000Poll t.nic buf maxLen).1 := by
        have hlen := queue.spans.head.positive
        have hroom : 0 < maxLen := admitted
        rw [queue.poll]
        omega
      have hpolled := queue.polled buf maxLen
      simp only [if_pos hpositive, hpolled]
      refine ⟨?_, ?_, ?_⟩
      · intro i room got hgot
        by_cases old : i < t.returned.length
        · rw [List.getElem?_append_left old] at hgot
          exact inv.same i room got hgot
        · rw [List.getElem?_append_right (Nat.le_of_not_lt old), List.getElem?_singleton] at hgot
          split at hgot
          next hlast =>
            have hi : i = t.returned.length := by omega
            cases hgot
            exact ⟨frame, hi ▸ hframe, rfl⟩
          · cases hgot
      · simp only [List.length_append, List.length_singleton]
        exact hlt
      · have hdrop : t.filled.drop (t.returned.length + 1) = rest := by
          rw [← List.drop_drop, hrest, List.drop_one, List.tail_cons]
        simp only [List.length_append, List.length_singleton, hdrop]
        rw [queue.poll]
        exact queue.giveBack

/-- After a successful start, for every interleaving of stores and polls: what `e1000_poll`
has returned are the first frames stored, in order and each once, cut to the room given,
and it returns zero exactly when nothing is outstanding. -/
theorem rx_ring_fifo {p : Probe} {s : E1000} (done : (e1000Init p s).1 = true)
    {events : List RxEvent} {t : RxTrace}
    (run : Run rxStep rxOk ⟨(e1000Init p s).2, [], []⟩ events t) :
    (∀ (i maxLen : Nat) frame, t.returned[i]? = some (maxLen, frame) →
      ∃ stored : List UInt8, t.filled[i]? = some stored ∧ frame = stored.take maxLen) ∧
    t.returned.length ≤ t.filled.length ∧
    ∀ buf maxLen, 0 < maxLen →
      ((e1000Poll t.nic buf maxLen).1 = 0 ↔ t.returned.length = t.filled.length) := by
  have start : RxFifo ⟨(e1000Init p s).2, [], []⟩ := by
    refine ⟨?_, Nat.le_refl 0, init_rxQueue done⟩
    intro i maxLen frame h
    cases h
  have inv : RxFifo t := run.invariant RxFifo (fun _ _ _ inv ok step => inv.step ok step) start
  refine ⟨inv.same, inv.count, ?_⟩
  intro buf maxLen room
  have queue := inv.queue
  cases hrest : t.filled.drop t.returned.length with
  | nil =>
    rw [hrest] at queue
    rw [queue.poll_empty]
    exact iff_of_true rfl (Nat.le_antisymm inv.count (List.drop_eq_nil_iff.mp hrest))
  | cons frame rest =>
    rw [hrest] at queue
    have hlen := queue.spans.head.positive
    rw [queue.poll]
    refine iff_of_false (by omega) ?_
    intro all
    rw [all, List.drop_length] at hrest
    cases hrest

theorem rx_ring_fifo_sample : ∃ t, Run rxStep rxOk ⟨(e1000Init readyProbe bareNic).2, [], []⟩
    [.fill [1, 2, 3], .fill [4], .poll zero 2] t ∧ t.returned.length ≤ t.filled.length ∧
    ((e1000Poll t.nic zero 1).1 = 0 ↔ t.returned.length = t.filled.length) := by
  have runs : (exec rxStep rxOk ⟨(e1000Init readyProbe bareNic).2, [], []⟩
      [.fill [1, 2, 3], .fill [4], .poll zero 2]).isSome := by decide
  obtain ⟨t, run⟩ := Run.exists_of_exec runs
  have fifo := rx_ring_fifo (by decide) run
  exact ⟨t, run, fifo.2.1, fifo.2.2 zero 1 (by decide)⟩

end Obsidian.Drivers
