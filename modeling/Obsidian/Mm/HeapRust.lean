import Obsidian.Mm.BlockHdr

/-!
# Rust allocator

Source: mm/alloc/src/lib.rs, the backend of the x86_64 build (64-bit `usize`,
release profile, so integer arithmetic wraps).

`base`, `size` and `free_head` are the fields of `ST`. Unlike the model of the C
backend, `mem` holds octets under absolute addresses, because `kfree` builds
header pointers from absolute addresses and from offsets side by side. A null
pointer is 0, and so is the address of the first header of a region at 0. As in
the C model a list walk that never ends is `none`.
-/
namespace Obsidian.Mm.HeapRust
open Lib Lib.Bytes

structure State where
  base : Nat
  size : Nat
  freeHead : Nat
  mem : Bytes

/-- `(v + ALIGN - 1) & !(ALIGN - 1)` on `usize`. -/
def alignUp (v : Nat) : Nat := u64 (v + alignment - 1) &&& 0xFFFFFFFFFFFFFFF0

/-- `(*st).base.add(off as usize)` -/
def State.addr (st : State) (off : Nat) : Nat := u64 (st.base + off)

/-- The header behind `hdr_at(off)`. -/
def State.hdr (st : State) (off : Nat) : BlockHdr := hdrAt st.mem (st.addr off)

/-- Octets between the aligned base and the end of the region. -/
def spanOf (base size : Nat) : Nat := sub64 (alignUp size) (sub64 (alignUp base) base)

def heapInit (st : State) (base size : Nat) : Bool × State :=
  if size < hdrSize then (false, st)
  else
    let aligned := alignUp base
    let span := spanOf base size
    let st := { st with base := aligned, size := span, freeHead := 0 }
    let first := st.addr 0
    let m := putMagic st.mem first magicFree
    let m := putSize m first (u32 (sub64 span hdrSize))
    let m := putNext m first endOfList
    let m := putUsed m first 0
    (true, { st with mem := m })

def walkFuel : Nat := 4294967296

/-- How the walk of `kmalloc` over the free list ends. -/
inductive Walk where
  | found (prev cur : Nat)
  | corrupted (cur : Nat)
  | exhausted
  deriving DecidableEq, Repr

def firstFit (st : State) (want : Nat) : Nat → Nat → Nat → Option Walk
  | 0, _, _ => none
  | fuel + 1, prev, cur =>
    if cur = endOfList then some .exhausted
    else if (st.hdr cur).magic ≠ magicFree then some (.corrupted cur)
    else if want ≤ (st.hdr cur).size then some (.found prev cur)
    else firstFit st want fuel cur (st.hdr cur).nextOff

/-- The offsets whose headers `firstFit` reads. -/
def visited (st : State) (want : Nat) : Nat → Nat → List Nat
  | 0, _ => []
  | fuel + 1, cur =>
    if cur = endOfList then []
    else if (st.hdr cur).magic ≠ magicFree then [cur]
    else if want ≤ (st.hdr cur).size then [cur]
    else cur :: visited st want fuel (st.hdr cur).nextOff

/-- The split branch: a free header behind the block, linked after it. The size recorded
for the block itself is not touched. -/
def splitBlock (st : State) (want cur : Nat) : State :=
  let rem := (st.hdr cur).size - want
  if hdrSize + alignment ≤ rem then
    let splitOff := u32 (cur + hdrSize + want)
    let split := st.addr splitOff
    let h := st.addr cur
    let m := putMagic st.mem split magicFree
    let m := putSize m split (rem - hdrSize)
    let m := putNext m split (hdrAt m h).nextOff
    let m := putUsed m split 0
    { st with mem := putNext m h splitOff }
  else st

def takeBlock (st : State) (want prev cur : Nat) : Nat × State :=
  let st := splitBlock st want cur
  let h := st.addr cur
  let st := { st with mem := putUsed (putMagic st.mem h magicUsed) h 1 }
  let st :=
    if prev = endOfList then { st with freeHead := (st.hdr cur).nextOff }
    else { st with mem := putNext st.mem (st.addr prev) (st.hdr cur).nextOff }
  (u64 (st.base + (cur + hdrSize)), st)

/-- `align_up(size as usize) as u32` -/
def wantOf (size : Nat) : Nat := u32 (alignUp size)

def kmalloc (st : State) (size : Nat) : Option (Nat × State) :=
  if size = 0 then some (0, st)
  else
    match firstFit st (wantOf size) walkFuel endOfList st.freeHead with
    | none => none
    | some (.found prev cur) => some (takeBlock st (wantOf size) prev cur)
    | some (.corrupted _) => some (0, st)
    | some .exhausted => some (0, st)

def kzalloc (st : State) (size : Nat) : Option (Nat × State) :=
  match kmalloc st size with
  | none => none
  | some (p, st) => if p = 0 then some (p, st) else some (p,
      { st with mem := fill st.mem p size 0 })

/-- The insertion walk of `kfree`: the address of the last header visited (null when there
is none) and the offset the walk stopped at. Offsets are compared with `head as u32`. -/
def insertWalk (st : State) (head : Nat) : Nat → Nat → Nat → Option (Nat × Nat)
  | 0, _, _ => none
  | fuel + 1, prev, cur =>
    if cur ≠ endOfList ∧ cur < u32 head then
      insertWalk st head fuel (st.addr cur) (st.hdr cur).nextOff
    else some (prev, cur)

def linkFree (st : State) (prev head cur : Nat) : State :=
  let st := { st with mem := putNext st.mem head cur }
  if prev = 0 then { st with freeHead := u32 head }
  else { st with mem := putNext st.mem prev (u32 head) }

def mergeRight (st : State) (head cur : Nat) : State :=
  if cur ≠ endOfList ∧ u64 (head + hdrSize + (hdrAt st.mem head).size) = cur then
    let m := putSize st.mem head (u32 ((hdrAt st.mem head).size + hdrSize + (st.hdr cur).size))
    { st with mem := putNext m head (hdrAt m (st.addr cur)).nextOff }
  else st

def mergeLeft (st : State) (prev head : Nat) : State :=
  if prev ≠ 0 ∧ u64 (prev + hdrSize + (hdrAt st.mem prev).size) = head then
    let m := putSize st.mem prev
      (u32 ((hdrAt st.mem prev).size + hdrSize + (hdrAt st.mem head).size))
    { st with mem := putNext m prev (hdrAt m head).nextOff }
  else st

/-- Put the header at `head` back into the list and merge it with its neighbours. -/
def insertFree (st : State) (head : Nat) : Option State :=
  match insertWalk st head walkFuel 0 st.freeHead with
  | none => none
  | some (prev, cur) => some (mergeLeft (mergeRight (linkFree st prev head cur) head cur) prev head)

def kfree (st : State) (ptr : Nat) : Option State :=
  if ptr = 0 then some st
  else
    let off := sub64 (sub64 ptr st.base) hdrSize
    if st.size ≤ off then some st
    else
      let head := sub64 ptr hdrSize
      let hdr := hdrAt st.mem head
      if hdr.magic ≠ magicUsed ∨ hdr.used = 0 then some st
      else insertFree { st with mem := putUsed (putMagic st.mem head magicFree) head 0 } head

def blockSizeOf (st : State) (ptr : Nat) : Option Nat :=
  let h := hdrAt st.mem (sub64 ptr hdrSize)
  if h.magic = magicUsed ∧ h.used = 1 then some h.size else none

def krealloc (st : State) (ptr size : Nat) : Option (Nat × State) :=
  if ptr = 0 then kmalloc st size
  else if size = 0 then
    match kfree st ptr with
    | none => none
    | some st => some (0, st)
  else
    match blockSizeOf st ptr with
    | none => some (0, st)
    | some old =>
      match kmalloc st size with
      | none => none
      | some (fresh, st) =>
        if fresh = 0 then some (0, st)
        else
          let n := if old < size then old else size
          let st := { st with mem := copy st.mem fresh st.mem ptr n }
          match kfree st ptr with
          | none => none
          | some st => some (fresh, st)

end Obsidian.Mm.HeapRust
