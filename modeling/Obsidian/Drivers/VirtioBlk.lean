import Obsidian.Lib.Bytes
import Obsidian.Lib.Runs

/-!
# The virtio-blk queue

Source: drivers/block/virtio_blk.c.

`ring_mem` is one array of octets: the descriptor table, behind it the available ring,
and the used ring on the next page. The driver takes indices modulo the size it was
compiled for, the device modulo the size that was negotiated; a descriptor past the
negotiated table lies in the available ring. The used ring is written by the device
only and enters through the index that ends the wait of `submit`.
-/
namespace Obsidian.Drivers.VirtioBlk
open Lib Lib.Bytes

def queueEnts : Nat := 64
def ringBytes : Nat := 8192
def descFNext : Nat := 1
def descFWrite : Nat := 2
def reqTypeIn : Nat := 0
def reqTypeOut : Nat := 1

/-- The registers that hand the queue to the device. -/
structure QueueRegs where
  qnum : Nat
  qdesc : Nat
  qavail : Nat
  qused : Nat
  qready : Nat
  qalign : Nat
  qpfn : Nat

/-- `struct blk_req_hdr` -/
structure ReqHdr where
  type : Nat
  ioprio : Nat
  sector : Nat

/-- The driver's variables, with the addresses of its arrays. -/
structure Queue where
  modern : Bool
  regs : QueueRegs
  mem : Bytes
  /-- Offset of `avail` in `ring_mem`. -/
  avail : Nat
  freeHead : Nat
  freeCount : Nat
  lastUsed : Nat
  reqHdr : ReqHdr
  devStatus : Nat
  ringMemAt : Nat
  reqHdrAt : Nat
  devStatusAt : Nat

/-! ## Fields -/

def descFlags (b : Bytes) (i : Nat) : Nat := get16 b (16 * i + 12)
def descNext (b : Bytes) (i : Nat) : Nat := get16 b (16 * i + 14)
def availIdx (b : Bytes) (avail : Nat) : Nat := get16 b (avail + 2)
def availRing (b : Bytes) (avail k : Nat) : Nat := get16 b (avail + 4 + 2 * k)

/-- A descriptor but for its link. -/
def putDesc (b : Bytes) (i addr len flags : Nat) : Bytes :=
  put16 (put32 (put64 b (16 * i) addr) (16 * i + 8) len) (16 * i + 12) flags

/-! ## `setup_queue` -/

/-- `qmax < QUEUE_ENTS ? qmax : QUEUE_ENTS` -/
def queueSize (qmax : Nat) : Nat := if qmax < queueEnts then qmax else queueEnts

/-- The loop that links the descriptors, from `i` on. -/
def linkDescs (b : Bytes) : Nat → Nat → Bytes
  | 0, _ => b
  | more + 1, i =>
    linkDescs (put16 (put16 b (16 * i + 14) (u16 (i + 1))) (16 * i + 12) descFNext) more (i + 1)

/-- `setup_queue`, with what the device answers to `REG_QNUMMAX`. -/
def setupQueue (qmax : Nat) (q : Queue) : Option Queue :=
  if qmax &&& 0xFFFF = 0 ∨ qmax = 0xFFFFFFFF then none
  else
    let qn := queueSize qmax
    let desc := q.ringMemAt
    let avail := q.ringMemAt + qn * 16
    let used := (avail + 2 * (3 + qn) + 4095) &&& 0xFFFFF000
    let regs :=
      if q.modern then
        { q.regs with qnum := qn, qdesc := desc, qavail := avail, qused := used, qready := 1 }
      else { q.regs with qnum := qn, qalign := 4096, qpfn := u32 (desc >>> 12) }
    let mem := linkDescs (fill q.mem 0 ringBytes 0) qn 0
    some { q with
      regs := regs
      mem := put16 mem (16 * (qn - 1) + 12) 0
      avail := 16 * qn
      freeHead := 0
      freeCount := u16 qn
      lastUsed := 0 }

/-! ## `submit` -/

/-- The arguments of `submit`, with what the device answers: the index of the used ring that
ends the wait, and the status octet. -/
structure Request where
  isWrite : Bool
  sector : Nat
  nsect : Nat
  dataOut : Nat
  usedIdx : Nat
  status : Nat

def Queue.dData (q : Queue) : Nat := (q.freeHead + 1) % queueEnts
def Queue.dStat (q : Queue) : Nat := (q.freeHead + 2) % queueEnts

/-- The three descriptors of a request. -/
def Queue.describe (q : Queue) (r : Request) : Bytes :=
  let b := putDesc q.mem q.freeHead q.reqHdrAt 16 descFNext
  let b := putDesc b q.dData r.dataOut (u32 (r.nsect * 512))
    (descFNext ||| if r.isWrite then 0 else descFWrite)
  putDesc b q.dStat q.devStatusAt 1 descFWrite

/-- `submit` up to the notification of the device. -/
def Queue.publish (q : Queue) (r : Request) : Queue :=
  let b := q.describe r
  let idx := availIdx b q.avail
  let b := put16 b (q.avail + 4 + 2 * (idx % queueEnts)) q.freeHead
  { q with
    reqHdr := ⟨if r.isWrite then reqTypeOut else reqTypeIn, 0, r.sector⟩
    devStatus := 0xEE
    mem := put16 b (q.avail + 2) (u16 (availIdx b q.avail + 1)) }

/-- `submit`: it does not return as long as the used ring stays where it is. -/
def submit (q : Queue) (r : Request) : Option (Int × Queue) :=
  if u16 r.usedIdx = q.lastUsed then none
  else
    let q' := q.publish r
    some (if r.status = 0 then 0 else -1, { q' with
      devStatus := r.status
      lastUsed := u16 (q.lastUsed + 1)
      freeHead := u16 ((q.dStat + 1) % queueEnts) })

/-! ## The device -/

/-- The descriptors that the device follows from `i` on; an index past the queue, or more
descriptors than it has, is an error. -/
def follow (b : Bytes) (qn : Nat) : Nat → Nat → Option (List Nat)
  | 0, _ => none
  | more + 1, i =>
    if qn ≤ i then none
    else if descFlags b i &&& descFNext = 0 then some [i]
    else (follow b qn more (descNext b i)).map (i :: ·)

/-- The chain in the slot of the available ring that the device reads next, when the index
was `idx` before. -/
def Queue.chainAt (q : Queue) (qn idx : Nat) : Option (List Nat) :=
  follow q.mem qn qn (availRing q.mem q.avail (idx % qn))

/-- The request is published as header, data and status, where the device looks for it. -/
def Queue.Publishes (q : Queue) (qn : Nat) (r : Request) : Prop :=
  (q.publish r).chainAt qn (availIdx q.mem q.avail) = some [q.freeHead, q.dData, q.dStat] ∧
    [q.freeHead, q.dData, q.dStat].Nodup ∧ ∀ i ∈ [q.freeHead, q.dData, q.dStat], i < qn

end Obsidian.Drivers.VirtioBlk
