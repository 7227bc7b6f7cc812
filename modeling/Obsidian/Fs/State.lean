import Obsidian.Drivers.Blkdev
import Obsidian.Fs.Csum
import Obsidian.Fs.Layout
import Obsidian.Lib.Cmd

/-!
# State of the ext4 driver and block transfers

Source: `struct ext4_fs` of fs/ext4_int.h, the file-scope variables of
fs/ext4_core.c and fs/ext4_journal.c, and the first functions of fs/ext4_core.c.

A function of the driver is a command over `World`: success is return code 0, and
an out parameter is the value returned with it. A buffer is a function on offsets;
what lies past its end is arbitrary but fixed. The two scratch buffers are set
before any device is, so their NULL tests never decide anything and are left out.
Console messages are left out too.
-/
namespace Obsidian.Fs
open Lib Lib.Bytes Drivers

/-- `struct ext4_fs` -/
structure Ext4Fs where
  dev : Option Nat
  blockSize : Nat
  sectorsPerBlock : Nat
  blocksCount : Nat
  inodesCount : Nat
  blocksPerGroup : Nat
  inodesPerGroup : Nat
  groupCount : Nat
  firstDataBlock : Nat
  inodeSize : Nat
  descSize : Nat
  firstIno : Nat
  featCompat : Nat
  featIncompat : Nat
  featRoCompat : Nat
  hasExtents : Bool
  has64bit : Bool
  metaCsum : Bool
  gdtCsum : Bool
  csumSeedFeat : Bool
  writable : Bool
  csumSeed : Nat
  uuid : Bytes
  sb : Bytes
  gdt : Bytes

/-- `memset(&e4, 0, sizeof e4)` -/
def Ext4Fs.zeroed : Ext4Fs :=
  ⟨none, 0, 0, 0, 0, 0, 0, 0, 0, 0, 0, 0, 0, 0, 0, false, false, false, false, false, false, 0,
    zero, zero, zero⟩

/-- Which calls of `kmalloc` find no memory, by their number. -/
structure HeapEnv where
  full : Nat → Bool
  calls : Nat

structure World where
  bus : Bus
  heap : HeapEnv
  e4 : Ext4Fs
  scratch1 : Bytes
  scratch2 : Bytes
  /-- What memory holds that the driver has not written: an uninitialised local variable,
  the octets behind a buffer. -/
  stackJunk : Bytes
  /-- The journal inode, `jin`. -/
  jin : Bytes
  /-- The first `n_committed` entries of `committed`. -/
  committed : List Nat
  lastCommitSeq : Nat

/-- Allocate; the failure is a NULL result. -/
def kmalloc (size : Nat) : Cmd World Unit := do
  let w ← Cmd.get
  if size = 0 then Cmd.fail
  else do
    Cmd.modify fun w => { w with heap := { w.heap with calls := w.heap.calls + 1 } }
    if w.heap.full w.heap.calls then Cmd.fail else pure ()

/-! ## Raw block transfers -/

/-- `e4_read_block(block, buf)`: return code and buffer. -/
def e4ReadBlock (block : Nat) (buf : Bytes) (w : World) : Bool × Bytes × World :=
  if w.e4.dev = none then (false, buf, w)
  else
    let r := blkRead w.bus w.e4.dev (u64 (block * w.e4.sectorsPerBlock)) w.e4.sectorsPerBlock buf
    (r.1, r.2.1, { w with bus := r.2.2 })

def e4WriteBlock (block : Nat) (buf : Bytes) : Cmd World Unit := fun w =>
  if w.e4.dev = none ∨ w.e4.writable = false then (none, w)
  else
    let r := blkWrite w.bus w.e4.dev (u64 (block * w.e4.sectorsPerBlock)) w.e4.sectorsPerBlock buf
    (if r.1 then some () else none, { w with bus := r.2 })

/-- `e4_read_block(block, scratch1)` -/
def readScratch1 (block : Nat) : Cmd World Unit := fun w =>
  let r := e4ReadBlock block w.scratch1 w
  (if r.1 then some () else none, { r.2.2 with scratch1 := r.2.1 })

/-- `e4_read_block(block, scratch2)` -/
def readScratch2 (block : Nat) : Cmd World Unit := fun w =>
  let r := e4ReadBlock block w.scratch2 w
  (if r.1 then some () else none, { r.2.2 with scratch2 := r.2.1 })

/-- `e4_read_block` into a buffer fresh from `kmalloc`, whose contents nobody reads when
the transfer fails. -/
def readFresh (block : Nat) : Cmd World Bytes := fun w =>
  let r := e4ReadBlock block zero w
  (if r.1 then some r.2.1 else none, r.2.2)

def setScratch1 (buf : Bytes) : Cmd World Unit := Cmd.modify fun w => { w with scratch1 := buf }

def setScratch2 (buf : Bytes) : Cmd World Unit := Cmd.modify fun w => { w with scratch2 := buf }

def setGdt (gdt : Bytes) : Cmd World Unit :=
  Cmd.modify fun w => { w with e4 := { w.e4 with gdt := gdt } }

def setSb (sb : Bytes) : Cmd World Unit :=
  Cmd.modify fun w => { w with e4 := { w.e4 with sb := sb } }

end Obsidian.Fs
