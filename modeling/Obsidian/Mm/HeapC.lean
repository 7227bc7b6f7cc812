import Obsidian.Mm.BlockHdr

/-!
# C reference allocator

Source: mm/heap_c.c, with the two hooks of security/memguard.c it calls.

`hbase`, `hsize`, `free_head` and `st` are the file-scope statics; `mem` holds
the octets of the region, addressed relative to `hbase`. Pointers are flat
addresses and NULL is 0. A list walk that visits more offsets than there are
32-bit words repeats one of them and never ends; such a call has no result and
its model is `none`.
-/
namespace Obsidian.Mm.HeapC
open Lib Lib.Bytes

/-- `HDR_SIZE` is a `sizeof`, so sums with it are taken in `size_t`: 32 bits on
the i686 build, 64 bits on the others. -/
inductive Abi where
  | ilp32 | lp64
  deriving DecidableEq, Repr

def Abi.sizeT : Abi → Nat → Nat
  | .ilp32, v => u32 v
  | .lp64, v => u64 v

structure HeapStats where
  totalBytes : Nat := 0
  usedBytes : Nat := 0
  freeBytes : Nat := 0
  highWater : Nat := 0
  allocCount : Nat := 0
  freeCount : Nat := 0
  errors : Nat := 0
  deriving DecidableEq, Repr

/-- The counters of security/memguard.c. -/
structure MemGuard where
  poisonCount : Nat := 0
  violationCount : Nat := 0
  deriving DecidableEq, Repr

structure Heap where
  hbase : Nat
  hsize : Nat
  freeHead : Nat
  st : HeapStats
  guard : MemGuard
  mem : Bytes

/-- `(v + ALIGN - 1) & ~(ALIGN - 1)` -/
def alignUp (v : Nat) : Nat := u32 (v + alignment - 1) &&& 0xFFFFFFF0

def heapInit (h : Heap) (base size : Nat) : Bool × Heap :=
  let hbase := u32 (base + alignment - 1) &&& 0xFFFFFFF0
  let hsize := alignUp size
  let m := putMagic h.mem 0 magicFree
  let m := putSize m 0 (sub32 hsize hdrSize)
  let m := putNext m 0 endOfList
  let m := putUsed m 0 0
  let first := hdrAt m 0
  (true, { h with
    hbase := hbase, hsize := hsize, freeHead := 0, mem := m,
    st := { h.st with totalBytes := first.size, freeBytes := first.size } })

def poisonByte : UInt8 := 0xA5

/-- `memguard_poison_free`; `off` is the region offset of the payload. -/
def memguardPoisonFree (h : Heap) (off size : Nat) : Heap :=
  { h with
    mem := fill h.mem off size poisonByte,
    guard := { h.guard with poisonCount := u32 (h.guard.poisonCount + 1) } }

/-- `memguard_check_allocation`: a refused pointer is only counted. -/
def memguardCheckAllocation (g : MemGuard) (ptr align : Nat) : Bool × MemGuard :=
  if ptr = 0 then (false, g)
  else if ptr &&& (align - 1) ≠ 0 then
    (false, { g with violationCount := u32 (g.violationCount + 1) })
  else if u32 ptr < 0x100000 then
    (false, { g with violationCount := u32 (g.violationCount + 1) })
  else (true, g)

/-- More steps than there are 32-bit offsets: the walk has run into a cycle. -/
def walkFuel : Nat := 4294967296

/-- The loop of `kmalloc` up to the first block that fits: `some (some (prev, cur))`
when one does, `some none` when the list ends first. -/
def firstFit (abi : Abi) (m : Bytes) (need : Nat) : Nat → Nat → Nat → Option (Option (Nat × Nat))
  | 0, _, _ => none
  | fuel + 1, prevOff, curOff =>
    if curOff = endOfList then some none
    else if abi.sizeT (need + hdrSize) ≤ (hdrAt m curOff).size then some (some (prevOff, curOff))
    else firstFit abi m need fuel curOff (hdrAt m curOff).nextOff

/-- Cut the tail off the block at `cur` when it can hold header and payload. -/
def splitBlock (abi : Abi) (m : Bytes) (need curOff : Nat) : Bytes :=
  if abi.sizeT (need + hdrSize + alignment) ≤ (hdrAt m curOff).size then
    let newOff := u32 (curOff + hdrSize + need)
    let m := putMagic m newOff magicFree
    let m := putSize m newOff (sub32 (sub32 (hdrAt m curOff).size need) hdrSize)
    let m := putNext m newOff (hdrAt m curOff).nextOff
    let m := putUsed m newOff 0
    let m := putSize m curOff need
    putNext m curOff newOff
  else m

/-- `if (prev_off == END_OF_LIST) free_head = off; else hdr_at(prev_off)->next_off = off;` -/
def relink (h : Heap) (prevOff off : Nat) : Heap :=
  if prevOff = endOfList then { h with freeHead := off }
  else { h with mem := putNext h.mem prevOff off }

/-- The rest of the loop body of `kmalloc`, once `cur` fits. -/
def takeBlock (abi : Abi) (h : Heap) (need prevOff curOff : Nat) : Nat × Heap :=
  let h := { h with mem := splitBlock abi h.mem need curOff }
  let h := relink h prevOff (hdrAt h.mem curOff).nextOff
  let h := { h with mem := putMagic (putUsed h.mem curOff 1) curOff magicUsed }
  let ptr := h.hbase + curOff + hdrSize
  let size := (hdrAt h.mem curOff).size
  let usedBytes := u32 (h.st.usedBytes + size)
  let h := { h with
    st := { h.st with
      usedBytes := usedBytes,
      freeBytes := sub32 h.st.freeBytes size,
      allocCount := u32 (h.st.allocCount + 1),
      highWater := if h.st.highWater < usedBytes then usedBytes else h.st.highWater },
    guard := (memguardCheckAllocation h.guard ptr alignment).2 }
  (ptr, h)

def noteError (h : Heap) : Heap :=
  { h with st := { h.st with errors := u32 (h.st.errors + 1) } }

def kmalloc (abi : Abi) (h : Heap) (size : Nat) : Option (Nat × Heap) :=
  if size = 0 ∨ h.hbase = 0 then some (0, h)
  else
    let need := alignUp size
    match firstFit abi h.mem need walkFuel endOfList h.freeHead with
    | none => none
    | some none => some (0, noteError h)
    | some (some (prevOff, curOff)) => some (takeBlock abi h need prevOff curOff)

def kzalloc (abi : Abi) (h : Heap) (size : Nat) : Option (Nat × Heap) :=
  match kmalloc abi h size with
  | none => none
  | some (p, h) =>
    if p = 0 then some (0, h)
    else some (p, { h with mem := fill h.mem (p - h.hbase) size 0 })

/-- The insertion walk of `kfree`: the last free block before `off` and the one after it. -/
def insertWalk (m : Bytes) (off : Nat) : Nat → Nat → Nat → Option (Nat × Nat)
  | 0, _, _ => none
  | fuel + 1, prevOff, walk =>
    if walk ≠ endOfList ∧ walk < off then insertWalk m off fuel walk (hdrAt m walk).nextOff
    else some (prevOff, walk)

/-- Absorb the block at `off` into its left neighbour when they touch; returns the
memory and the offset of the block that now holds these octets. -/
def mergeLeft (abi : Abi) (m : Bytes) (prevOff off : Nat) : Bytes × Nat :=
  if abi.sizeT (prevOff + hdrSize + (hdrAt m prevOff).size) = off then
    let m := putSize m prevOff (u32 ((hdrAt m prevOff).size + hdrSize + (hdrAt m off).size))
    (putNext m prevOff (hdrAt m off).nextOff, prevOff)
  else (m, off)

/-- Absorb the next free block into the one at `off` when they touch. -/
def mergeRight (abi : Abi) (m : Bytes) (off : Nat) : Bytes :=
  let cur := hdrAt m off
  if abi.sizeT (off + hdrSize + cur.size) = cur.nextOff ∧ cur.nextOff ≠ endOfList then
    let nxt := hdrAt m cur.nextOff
    if nxt.magic = magicFree ∧ nxt.used = 0 then
      let m := putSize m off (u32 (cur.size + hdrSize + nxt.size))
      putNext m off (hdrAt m cur.nextOff).nextOff
    else m
  else m

/-- Link the freed block at `off` between `prevOff` and `walk` and coalesce. -/
def insertFree (abi : Abi) (h : Heap) (off prevOff walk : Nat) : Heap :=
  let h := relink { h with mem := putNext h.mem off walk } prevOff off
  let merged := if prevOff = endOfList then (h.mem, off) else mergeLeft abi h.mem prevOff off
  { h with mem := mergeRight abi merged.1 merged.2 }

/-- `(u32)((u8 *)ptr - hbase - HDR_SIZE)` -/
def offsetOf (h : Heap) (ptr : Nat) : Nat :=
  (((ptr : Int) - (h.hbase : Int) - (hdrSize : Int)) % 4294967296).toNat

def kfree (abi : Abi) (h : Heap) (ptr : Nat) : Option Heap :=
  if ptr = 0 then some h
  else
    let off := offsetOf h ptr
    if 2147483648 ≤ off ∨ h.hsize ≤ off then some (noteError h)
    else
      let cur := hdrAt h.mem off
      if cur.magic ≠ magicUsed ∨ cur.used = 0 then some (noteError h)
      else
        let h := memguardPoisonFree h (ptr - h.hbase) cur.size
        let size := (hdrAt h.mem off).size
        let h := { h with
          st := { h.st with
            usedBytes := sub32 h.st.usedBytes size,
            freeBytes := u32 (h.st.freeBytes + size),
            freeCount := u32 (h.st.freeCount + 1) },
          mem := putUsed (putMagic h.mem off magicFree) off 0 }
        match insertWalk h.mem off walkFuel endOfList h.freeHead with
        | none => none
        | some (prevOff, walk) => some (insertFree abi h off prevOff walk)

def krealloc (abi : Abi) (h : Heap) (ptr size : Nat) : Option (Nat × Heap) :=
  if ptr = 0 then kmalloc abi h size
  else if size = 0 then
    match kfree abi h ptr with
    | none => none
    | some h => some (0, h)
  else
    match kmalloc abi h size with
    | none => none
    | some (fresh, h) =>
      if fresh = 0 then some (0, h)
      else
        let cur := hdrAt h.mem (ptr - h.hbase - hdrSize)
        let n := if cur.size < size then cur.size else size
        let h := { h with mem := copy h.mem (fresh - h.hbase) h.mem (ptr - h.hbase) n }
        match kfree abi h ptr with
        | none => none
        | some h => some (fresh, h)

end Obsidian.Mm.HeapC
