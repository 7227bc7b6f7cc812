import Obsidian.Fs.Core

/-!
# Journal recovery

Source: fs/ext4_journal.c.

The buffers `buf`, `content` and `revbits` live from their allocation to the end of
one call and are local values here; `jin`, `committed` and `last_commit_seq` stay
in the state.
-/
namespace Obsidian.Fs
open Lib Lib.Bytes

def jMagic : Nat := 0xC03B3998
def jtDesc : Nat := 1
def jtRevoke : Nat := 2
def jtCommit : Nat := 3
def tagEscape : Nat := 1
def tagLast : Nat := 8
def jsbOffBlocksize : Nat := 12
def jsbOffMaxlen : Nat := 16
def jsbOffFirst : Nat := 20
def jsbOffStart : Nat := 24
def jsbOffSequence : Nat := 28
def jsbOffFeatIncompat : Nat := 36
def jbd2Feat64bit : Nat := 2
def maxTrackedSeqs : Nat := 256

def noteCommit (seq : Nat) : Cmd World Unit := Cmd.modify fun w =>
  if w.committed.contains seq then w
  else
    let committed :=
      if w.committed.length < maxTrackedSeqs then w.committed ++ [seq] else w.committed
    { w with
      committed := committed,
      lastCommitSeq := if w.lastCommitSeq < seq ∨
        committed.length = 0 then seq else w.lastCommitSeq }

/-- `jread(jb, buf)` -/
def jread (jb : Nat) : Cmd World Bytes := do
  let w ← Cmd.get
  let phys ← e4Bmap w.jin jb
  if phys = 0 then Cmd.fail else readFresh phys

def e4JournalPending (e4 : Ext4Fs) : Bool :=
  e4.dev ≠ none ∧ e4.featIncompat &&& featIncompatRecover ≠ 0

/-- The revoke records of one block, from `off` on. -/
def noteRevokes (e4 : Ext4Fs) (buf : Bytes) (used : Nat) : Nat → Nat → Bytes → Bytes
  | 0, _, rev => rev
  | more + 1, off, rev =>
    if used < off + 4 then rev
    else
      let b := getBE32 buf off
      noteRevokes e4 buf used more (off + 4) (if b < e4.blocksCount then setBit rev b else rev)

/-- First pass: note commits and revoked blocks, from journal block `i` on. -/
def journalScan : Nat → Nat → Bytes → Cmd World Bytes
  | 0, _, rev => pure rev
  | more + 1, i, rev => do
    match ← Cmd.attempt (jread i) with
    | none => journalScan more (i + 1) rev
    | some buf =>
      if getBE32 buf 0 ≠ jMagic then journalScan more (i + 1) rev
      else if getBE32 buf 4 = jtCommit then do
        noteCommit (getBE32 buf 8)
        journalScan more (i + 1) rev
      else if getBE32 buf 4 = jtRevoke then do
        let w ← Cmd.get
        let used := get32 buf 12
        if w.e4.blockSize < used then journalScan more (i + 1) rev
        else journalScan more (i + 1) (noteRevokes w.e4 buf used used 16 rev)
      else journalScan more (i + 1) rev

/-- `content` as it is written back: the magic number of an escaped block is restored. -/
def unescape (flags : Nat) (content : Bytes) : Bytes :=
  if flags &&& tagEscape ≠ 0 then
    put8 (put8 (put8 (put8 content 0 (jMagic >>> 24)) 1 (jMagic >>> 16)) 2 (jMagic >>> 8)) 3 jMagic
  else content

/-- The tags of a descriptor block, from `off` on, with their contents from journal block
`c` on; the first block not consumed. -/
def applyTags (buf rev : Bytes) (cap tagsz : Nat) : Nat → Nat → Nat → Cmd World Nat
  | 0, c, _ => pure c
  | more + 1, c, off => do
    let w ← Cmd.get
    if w.e4.blockSize < off + tagsz ∨ cap ≤ c then pure c
    else
      let target := getBE32 buf off
      let flags := getBE32 buf (off + 4)
      if flags &&& tagLast ≠ 0 then pure c
      else if target = 0 then pure c
      else do
        match ← Cmd.attempt (jread c) with
        | none => pure c
        | some content =>
          if bitAt rev target then applyTags buf rev cap tagsz more (c + 1) (off + tagsz)
          else do
            match ← Cmd.attempt (e4WriteBlock target (unescape flags content)) with
            | none => pure c
            | some _ => applyTags buf rev cap tagsz more (c + 1) (off + tagsz)

/-- Second pass: write the blocks of committed transactions, from journal block `i` on. -/
def journalApply (rev : Bytes) (cap tagsz : Nat) : Nat → Nat → Cmd World Unit
  | 0, _ => pure ()
  | more + 1, i =>
    if cap ≤ i then pure ()
    else do
      match ← Cmd.attempt (jread i) with
      | none => journalApply rev cap tagsz more (i + 1)
      | some buf => do
        let w ← Cmd.get
        if getBE32 buf 0 ≠ jMagic then journalApply rev cap tagsz more (i + 1)
        else if getBE32 buf 4 ≠ jtDesc ∨ w.committed.contains (getBE32 buf 8) = false then
          journalApply rev cap tagsz more (i + 1)
        else do
          let c ← applyTags buf rev cap tagsz w.e4.blockSize (i + 1) 12
          journalApply rev cap tagsz more c

/-- The journal superblock is rewritten when it can be read; a failure on the way leaves it
alone. -/
def emptyJournal : Cmd World Unit := do
  let w ← Cmd.get
  let jin ← e4ReadInode (Sb.journalInum w.e4.sb) w.jin
  Cmd.modify fun w => { w with jin := jin }
  let phys ← e4Bmap jin 0
  if phys = 0 then Cmd.fail
  else do
    let buf ← readFresh phys
    let w ← Cmd.get
    e4WriteBlock phys (put32 (put32 buf jsbOffStart 0) jsbOffSequence (u32 (w.lastCommitSeq + 1)))

def clearBits32 (v mask : Nat) : Nat := v &&& (0xFFFFFFFF ^^^ mask)

def e4JournalReset : Cmd World Unit := do
  let w ← Cmd.get
  if w.e4.dev = none ∨ Sb.journalInum w.e4.sb = 0 then pure ()
  else do
    match ← Cmd.attempt (kmalloc w.e4.blockSize) with
    | none => pure ()
    | some _ => do
      Cmd.ignore emptyJournal
      Cmd.modify fun w => { w with e4 := { w.e4 with
        featIncompat := clearBits32 w.e4.featIncompat featIncompatRecover,
        sb := Sb.putFeatureIncompat w.e4.sb
          (clearBits32 (Sb.featureIncompat w.e4.sb) featIncompatRecover) } }
      e4SbRecomputeChecksum
      Cmd.ignore e4SyncSuperblock

/-- Octets of the map of revoked blocks. -/
def Ext4Fs.revSize (e4 : Ext4Fs) : Nat := u32 (u64 (e4.blocksCount + 7) / 8)

/-- `revbits` as `kzalloc` returns it: zeros, and behind them what lies there. -/
def World.revbits (w : World) : Bytes := fill w.stackJunk 0 w.e4.revSize 0

/-- The part of `e4_journal_replay` after the journal superblock has been read into `buf`. -/
def replayFrom (buf : Bytes) (jblocks : Nat) : Cmd World Unit := do
  let w ← Cmd.get
  let maxlen := get32 buf jsbOffMaxlen
  let first := get32 buf jsbOffFirst
  let start := get32 buf jsbOffStart
  if get32 buf jsbOffBlocksize ≠ w.e4.blockSize ∨ first < 2 ∨ jblocks ≤ first ∨ jblocks ≤ start then
    Cmd.fail
  else do
    let tagsz := if get32 buf jsbOffFeatIncompat &&& jbd2Feat64bit ≠ 0 then 16 else 12
    let cap := if maxlen ≠ 0 ∧ maxlen ≤ jblocks then maxlen else jblocks
    kmalloc w.e4.revSize
    let rev ← journalScan (cap - first) first w.revbits
    let w ← Cmd.get
    if w.committed.length = 0 then e4JournalReset
    else do
      journalApply rev cap tagsz (cap - first) first
      e4JournalReset

def e4JournalReplay : Cmd World Unit := do
  Cmd.modify fun w => { w with committed := [], lastCommitSeq := 0 }
  let w ← Cmd.get
  if w.e4.dev = none ∨ Sb.journalInum w.e4.sb = 0 then pure ()
  else if w.e4.featIncompat &&& featIncompatRecover = 0 then pure ()
  else do
    let jin ← e4ReadInode (Sb.journalInum w.e4.sb) w.jin
    Cmd.modify fun w => { w with jin := jin }
    if Ino.flags jin &&& inoFlagExtents = 0 then Cmd.fail
    else do
      let w ← Cmd.get
      let buf ← Cmd.attempt (kmalloc w.e4.blockSize)
      let content ← Cmd.attempt (kmalloc w.e4.blockSize)
      if buf = none ∨ content = none then Cmd.fail
      else do
        let jsb ← jread 0
        replayFrom jsb (e4InodeSize w.e4 jin / w.e4.blockSize)

end Obsidian.Fs
