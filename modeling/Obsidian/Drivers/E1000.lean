import Obsidian.Lib.Bytes

/-!
# The e1000 driver and its device

Source: drivers/net/e1000.c, with the registry of drivers/net/net.c.

The descriptor rings and the buffers are memory that the driver shares with the device;
`mem` holds the octets of the buffers at their addresses. The device fills the
descriptor RDH and advances RDH as long as it is not RDT, and transmits the descriptor
TDH and advances TDH as long as it is not TDT. `e1000_send` is cut where the device can
be observed to act: after the frame is in the transmit buffer, after the tail is
written, and when the driver stops waiting for the status.
-/
namespace Obsidian.Drivers
open Lib Lib.Bytes

def rxDescs : Nat := 32
def txDescs : Nat := 8
def bufSize : Nat := 2048

/-- `struct rx_desc`, without the fields that nobody reads. -/
structure RxDesc where
  addr : Nat
  length : Nat
  status : Nat

/-- `struct tx_desc` -/
structure TxDesc where
  addr : Nat
  length : Nat
  cso : Nat
  cmd : Nat
  status : Nat
  css : Nat
  special : Nat

/-- `struct net_device`, the fields that the driver fills in. -/
structure NetDevice where
  mac : Bytes
  linkUp : Bool

/-- The device registers that the driver writes. -/
structure E1000Regs where
  imask : Nat
  rctl : Nat
  tctl : Nat
  rdba : Nat
  rdlen : Nat
  rdh : Nat
  rdt : Nat
  tdba : Nat
  tdlen : Nat
  tdh : Nat
  tdt : Nat

/-- The driver's variables, the device's registers and the memory they share. -/
structure E1000 where
  /-- The register window is mapped. -/
  present : Bool
  linkUp : Bool
  regs : E1000Regs
  rxRing : Nat → RxDesc
  txRing : Nat → TxDesc
  mem : Bytes
  rxTail : Nat
  txTail : Nat
  /-- Addresses of `rx_ring`, `tx_ring`, `rx_buffers` and `tx_buffer`. -/
  rxRingAt : Nat
  txRingAt : Nat
  rxBuffers : Nat
  txBuffer : Nat
  /-- `registry` of the network devices. -/
  netdevs : List NetDevice

/-- `rx_buffers[i]` -/
def E1000.rxBuffer (s : E1000) (i : Nat) : Nat := s.rxBuffers + bufSize * i

/-! ## Start -/

/-- What the device answers while it is set up. -/
structure Probe where
  /-- `bar_base[0]` -/
  bar : Nat
  /-- The EEPROM register, by word and by the number of reads before. -/
  eeprom : Nat → Nat → Nat
  status : Nat

/-- The loop of `eeprom_read`, with `i` reads behind it. -/
def eepromLoop (reads : Nat → Nat) : Nat → Nat → Option Nat
  | 0, _ => none
  | more + 1, i =>
    if reads i &&& 1 <<< 4 ≠ 0 then some (u16 (reads i >>> 16)) else eepromLoop reads more (i + 1)

def eepromRead (p : Probe) (word : Nat) : Option Nat := eepromLoop (p.eeprom word) 200000 0

/-- The words of the address; one that cannot be read stays zero. -/
def macWords (p : Probe) : Bytes :=
  put16 (put16 (put16 zero 0 ((eepromRead p 0).getD 0)) 2 ((eepromRead p 1).getD 0)) 4
    ((eepromRead p 2).getD 0)

def netdevRegister (nd : NetDevice) (registry : List NetDevice) : List NetDevice :=
  if 8 ≤ registry.length then registry else registry ++ [nd]

/-- The address was read. -/
def Probe.macOk (p : Probe) : Prop := eepromRead p 0 ≠ none ∧ eepromRead p 1 ≠ none ∧
    eepromRead p 2 ≠ none

instance (p : Probe) : Decidable p.macOk := inferInstanceAs (Decidable (_ ∧ _))

/-- The part of `e1000_init` from the link status on. -/
def E1000.started (s : E1000) (p : Probe) : E1000 :=
  let linkUp : Bool := p.status &&& 1 <<< 1 ≠ 0
  { s with
    linkUp := linkUp
    rxRing := fun i => if i < rxDescs then { s.rxRing i with
      addr := s.rxBuffer i,
      status := 0 } else s.rxRing i
    txRing := fun i => if i < txDescs then { s.txRing i with status := 0 } else s.txRing i
    regs := { s.regs with
      rdba := s.rxRingAt, rdlen := 16 * rxDescs, rdh := 0, rdt := rxDescs - 1
      rctl := 1 <<< 1 ||| 1 <<< 3 ||| 1 <<< 5 ||| 1 <<< 15
      tdba := s.txRingAt, tdlen := 16 * txDescs, tdh := 0, tdt := 0
      tctl := 1 <<< 1 ||| 1 <<< 3 }
    rxTail := rxDescs - 1
    txTail := 0
    netdevs := netdevRegister ⟨macWords p, linkUp⟩ s.netdevs }

/-- `e1000_init`. The wait for the end of the device reset has no effect of its own. -/
def e1000Init (p : Probe) (s : E1000) : Bool × E1000 :=
  if p.bar = 0 then (false, s)
  else
    let s := { s with present := true, regs := { s.regs with imask := 0 } }
    if p.macOk then (true, s.started p) else (false, s)

theorem e1000Init_done {p : Probe} {s : E1000} (done : (e1000Init p s).1 = true) :
    ∃ t : E1000, t.present = true ∧ (e1000Init p s).2 = t.started p := by
  unfold e1000Init at done ⊢
  split at done
  · cases done
  next hbar =>
    by_cases hmac : p.macOk
    · exact ⟨_, rfl, by rw [if_neg hbar, if_pos hmac]⟩
    · rw [if_neg hmac] at done
      cases done

/-- A device that answers every read at once, with the link up. -/
def readyProbe : Probe := ⟨1, fun _ _ => 1 <<< 4, 1 <<< 1⟩

/-- The driver before its start. -/
def bareNic : E1000 :=
  { present := false, linkUp := false, regs := ⟨0, 0, 0, 0, 0, 0, 0, 0, 0, 0, 0⟩
    rxRing := fun _ => ⟨0, 0, 0⟩, txRing := fun _ => ⟨0, 0, 0, 0, 0, 0, 0⟩, mem := zero,
      rxTail := 0, txTail := 0
    rxRingAt := 0, txRingAt := 512, rxBuffers := 4096, txBuffer := 69632, netdevs := [] }

/-! ## Receive -/

/-- The device stores a frame, where a descriptor is left to it. -/
def E1000.fills (s : E1000) : Prop := s.regs.rdh ≠ s.regs.rdt

instance (s : E1000) : Decidable s.fills := inferInstanceAs (Decidable (_ ≠ _))

def E1000.fill (s : E1000) (frame : List UInt8) : E1000 :=
  let d := s.rxRing s.regs.rdh
  { s with
    mem := ofList s.mem d.addr frame
    rxRing := fun i =>
      if i = s.regs.rdh then { d with
        length := frame.length,
        status := d.status ||| 1 } else s.rxRing i
    regs := { s.regs with rdh := (s.regs.rdh + 1) % rxDescs } }

/-- The driver gives descriptor `next` back to the device. -/
def E1000.giveBack (s : E1000) (next : Nat) : E1000 :=
  { s with
    rxRing := fun i => if i = next then { s.rxRing next with status := 0 } else s.rxRing i
    rxTail := next
    regs := { s.regs with rdt := next } }

/-- `e1000_poll`: return code, buffer, state. -/
def e1000Poll (s : E1000) (buf : Bytes) (maxLen : Nat) : Int × Bytes × E1000 :=
  if s.present = false then (-1, buf, s)
  else
    let next := u16 ((s.rxTail + 1) % rxDescs)
    let d := s.rxRing next
    if d.status &&& 1 = 0 then (0, buf, s)
    else
      let got := if d.length < maxLen then d.length else maxLen
      (got, copy buf 0 s.mem (s.rxBuffer next) got, s.giveBack next)

/-! ## Transmit -/

/-- `e1000_send` does more than return -1. -/
def E1000.accepts (s : E1000) (len : Nat) : Prop :=
  s.present = true ∧ s.linkUp = true ∧ len ≠ 0 ∧ len ≤ bufSize

instance (s : E1000) (len : Nat) : Decidable (s.accepts len) := inferInstanceAs (Decidable (_ ∧ _))

/-- `e1000_send` up to the copy of the frame. -/
def E1000.sendCopy (s : E1000) (frame : Bytes) (len : Nat) : E1000 :=
  { s with mem := copy s.mem s.txBuffer frame 0 len }

/-- `e1000_send` from the descriptor to the write of TDT. -/
def E1000.sendQueue (s : E1000) (len : Nat) : E1000 :=
  let t := s.txTail
  { s with
    txRing := fun i => if i = t then ⟨s.txBuffer, len, 0, 0x0B, 0, 0, 0⟩ else s.txRing i
    txTail := u16 ((t + 1) % txDescs)
    regs := { s.regs with tdt := u16 ((t + 1) % txDescs) } }

/-- What `e1000_send` returns when it stops waiting for descriptor `t`. -/
def E1000.sendDone (s : E1000) (t : Nat) : Int := if (s.txRing t).status &&& 1 ≠ 0 then 0 else -1

/-- The device transmits a descriptor, where there is one. -/
def E1000.transmits (s : E1000) : Prop := s.regs.tdh ≠ s.regs.tdt

instance (s : E1000) : Decidable s.transmits := inferInstanceAs (Decidable (_ ≠ _))

/-- The frame that the device reads. -/
def E1000.onWire (s : E1000) : List UInt8 :=
  toList s.mem (s.txRing s.regs.tdh).addr (s.txRing s.regs.tdh).length

def E1000.transmit (s : E1000) : E1000 :=
  let d := s.txRing s.regs.tdh
  { s with
    txRing := fun i => if i = s.regs.tdh then { d with status := d.status ||| 1 } else s.txRing i
    regs := { s.regs with tdh := (s.regs.tdh + 1) % txDescs } }

end Obsidian.Drivers
