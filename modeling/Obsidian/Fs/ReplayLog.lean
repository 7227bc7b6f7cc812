import Obsidian.Fs.Journal
import Obsidian.Lib.Logged

/-!
# What a replay looks at, writes and misses

`e4_journal_replay` with a log of its accesses to `revbits`, of the blocks it writes and of
the tagged blocks it could not read or write. Without the log it is the replay of the model.
-/
namespace Obsidian.Fs
open Lib Lib.Bytes Lib.Logged Drivers

inductive ReplayEvent where
  /-- The first pass sets the bit of a block in `revbits`. -/
  | mark (block : Nat)
  /-- The second pass reads the bit of a target. -/
  | look (target : Nat)
  /-- The contents of a tagged block cannot be read; whether its bit is set. -/
  | unread (target : Nat) (revoked : Bool)
  /-- The write of a tagged block fails. -/
  | unwritten (target : Nat)
  | wrote (target : Nat)
  /-- The journal superblock is written. -/
  | emptied (block : Nat)
  /-- The superblock without the RECOVER flag is written. -/
  | cleared
  deriving DecidableEq

/-- The blocks that the loop of `noteRevokes` marks. -/
def revokesIn (e4 : Ext4Fs) (buf : Bytes) (used : Nat) : Nat → Nat → List Nat
  | 0, _ => []
  | more + 1, off =>
    if used < off + 4 then []
    else
      let b := getBE32 buf off
      if b < e4.blocksCount then b :: revokesIn e4 buf used more (off + 4)
      else revokesIn e4 buf used more (off + 4)

abbrev Journaled : Type := World × List ReplayEvent

def journalScanLogged : Nat → Nat → Bytes → Cmd Journaled Bytes
  | 0, _, rev => pure rev
  | more + 1, i, rev => do
    match ← Cmd.attempt (lift (jread i)) with
    | none => journalScanLogged more (i + 1) rev
    | some buf =>
      if getBE32 buf 0 ≠ jMagic then journalScanLogged more (i + 1) rev
      else if getBE32 buf 4 = jtCommit then do
        lift (noteCommit (getBE32 buf 8))
        journalScanLogged more (i + 1) rev
      else if getBE32 buf 4 = jtRevoke then do
        let w ← lift Cmd.get
        let used := get32 buf 12
        if w.e4.blockSize < used then journalScanLogged more (i + 1) rev
        else do
          notes ((revokesIn w.e4 buf used used 16).map .mark)
          journalScanLogged more (i + 1) (noteRevokes w.e4 buf used used 16 rev)
      else journalScanLogged more (i + 1) rev

def applyTagsLogged (buf rev : Bytes) (cap tagsz : Nat) : Nat → Nat → Nat → Cmd Journaled Nat
  | 0, c, _ => pure c
  | more + 1, c, off => do
    let w ← lift Cmd.get
    if w.e4.blockSize < off + tagsz ∨ cap ≤ c then pure c
    else
      let target := getBE32 buf off
      let flags := getBE32 buf (off + 4)
      if flags &&& tagLast ≠ 0 then pure c
      else if target = 0 then pure c
      else do
        match ← Cmd.attempt (lift (jread c)) with
        | none => do
          note (.unread target (bitAt rev target))
          pure c
        | some content => do
          note (.look target)
          if bitAt rev target then applyTagsLogged buf rev cap tagsz more (c + 1) (off + tagsz)
          else do
            match ← Cmd.attempt (lift (e4WriteBlock target (unescape flags content))) with
            | none => do
              note (.unwritten target)
              pure c
            | some _ => do
              note (.wrote target)
              applyTagsLogged buf rev cap tagsz more (c + 1) (off + tagsz)

def journalApplyLogged (rev : Bytes) (cap tagsz : Nat) : Nat → Nat → Cmd Journaled Unit
  | 0, _ => pure ()
  | more + 1, i =>
    if cap ≤ i then pure ()
    else do
      match ← Cmd.attempt (lift (jread i)) with
      | none => journalApplyLogged rev cap tagsz more (i + 1)
      | some buf => do
        let w ← lift Cmd.get
        if getBE32 buf 0 ≠ jMagic then journalApplyLogged rev cap tagsz more (i + 1)
        else if getBE32 buf 4 ≠ jtDesc ∨ w.committed.contains (getBE32 buf 8) = false then
          journalApplyLogged rev cap tagsz more (i + 1)
        else do
          let c ← applyTagsLogged buf rev cap tagsz w.e4.blockSize (i + 1) 12
          journalApplyLogged rev cap tagsz more c

def emptyJournalLogged : Cmd Journaled Unit := do
  let w ← lift Cmd.get
  let jin ← lift (e4ReadInode (Sb.journalInum w.e4.sb) w.jin)
  lift (Cmd.modify fun w => { w with jin := jin })
  let phys ← lift (e4Bmap jin 0)
  if phys = 0 then Cmd.fail
  else do
    let buf ← lift (readFresh phys)
    let w ← lift Cmd.get
    lift (e4WriteBlock phys (put32 (put32 buf jsbOffStart 0) jsbOffSequence
      (u32 (w.lastCommitSeq + 1))))
    note (.emptied phys)

def e4JournalResetLogged : Cmd Journaled Unit := do
  let w ← lift Cmd.get
  if w.e4.dev = none ∨ Sb.journalInum w.e4.sb = 0 then pure ()
  else do
    match ← Cmd.attempt (lift (kmalloc w.e4.blockSize)) with
    | none => pure ()
    | some _ => do
      Cmd.ignore emptyJournalLogged
      lift (Cmd.modify fun w => { w with e4 := { w.e4 with
        featIncompat := clearBits32 w.e4.featIncompat featIncompatRecover,
        sb := Sb.putFeatureIncompat w.e4.sb
          (clearBits32 (Sb.featureIncompat w.e4.sb) featIncompatRecover) } })
      lift e4SbRecomputeChecksum
      Cmd.ignore (do
        lift e4SyncSuperblock
        note .cleared)

def replayFromLogged (buf : Bytes) (jblocks : Nat) : Cmd Journaled Unit := do
  let w ← lift Cmd.get
  let maxlen := get32 buf jsbOffMaxlen
  let first := get32 buf jsbOffFirst
  let start := get32 buf jsbOffStart
  if get32 buf jsbOffBlocksize ≠ w.e4.blockSize ∨ first < 2 ∨ jblocks ≤ first ∨ jblocks ≤ start then
    Cmd.fail
  else do
    let tagsz := if get32 buf jsbOffFeatIncompat &&& jbd2Feat64bit ≠ 0 then 16 else 12
    let cap := if maxlen ≠ 0 ∧ maxlen ≤ jblocks then maxlen else jblocks
    lift (kmalloc w.e4.revSize)
    let rev ← journalScanLogged (cap - first) first w.revbits
    let w ← lift Cmd.get
    if w.committed.length = 0 then e4JournalResetLogged
    else do
      journalApplyLogged rev cap tagsz (cap - first) first
      e4JournalResetLogged

def e4JournalReplayLogged : Cmd Journaled Unit := do
  lift (Cmd.modify fun w => { w with committed := [], lastCommitSeq := 0 })
  let w ← lift Cmd.get
  if w.e4.dev = none ∨ Sb.journalInum w.e4.sb = 0 then pure ()
  else if w.e4.featIncompat &&& featIncompatRecover = 0 then pure ()
  else do
    let jin ← lift (e4ReadInode (Sb.journalInum w.e4.sb) w.jin)
    lift (Cmd.modify fun w => { w with jin := jin })
    if Ino.flags jin &&& inoFlagExtents = 0 then Cmd.fail
    else do
      let w ← lift Cmd.get
      let buf ← Cmd.attempt (lift (kmalloc w.e4.blockSize))
      let content ← Cmd.attempt (lift (kmalloc w.e4.blockSize))
      if buf = none ∨ content = none then Cmd.fail
      else do
        let jsb ← lift (jread 0)
        replayFromLogged jsb (e4InodeSize w.e4 jin / w.e4.blockSize)

/-- The events of a replay. -/
def replayEvents (w : World) : List ReplayEvent := events e4JournalReplayLogged w

/-! ## Without the log -/

theorem journalScanLogged_logs (more i : Nat) (rev : Bytes) :
    Logs (journalScanLogged more i rev) (journalScan more i rev) := by
  induction more generalizing i rev with
  | zero => exact .pure rev
  | succ more ih =>
    refine .bind (.attempt (.lift _)) fun r => ?_
    cases r with
    | none => exact ih _ _
    | some buf =>
      exact .ite (ih _ _) (.ite (.bind (.lift _) fun _ => ih _ _) (.ite (.bind (.lift _) fun w =>
        .ite (ih _ _) (.notes_bind _ (ih _ _))) (ih _ _)))

theorem applyTagsLogged_logs (buf rev : Bytes) (cap tagsz more c off : Nat) :
    Logs (applyTagsLogged buf rev cap tagsz more c off)
    (applyTags buf rev cap tagsz more c off) := by
  induction more generalizing c off with
  | zero => exact .pure c
  | succ more ih =>
    refine .bind (.lift _) fun w => .ite (.pure c) (.ite (.pure c) (.ite (.pure c)
      (.bind (.attempt (.lift _)) fun r => ?_)))
    cases r with
    | none => exact .notes_bind _ (.pure c)
    | some content =>
      refine .notes_bind _ (.ite (ih _ _) (.bind (.attempt (.lift _)) fun o => ?_))
      cases o with
      | none => exact .notes_bind _ (.pure c)
      | some _ => exact .notes_bind _ (ih _ _)

theorem journalApplyLogged_logs (rev : Bytes) (cap tagsz more i : Nat) :
    Logs (journalApplyLogged rev cap tagsz more i) (journalApply rev cap tagsz more i) := by
  induction more generalizing i with
  | zero => exact .pure ()
  | succ more ih =>
    refine .ite (.pure ()) (.bind (.attempt (.lift _)) fun r => ?_)
    cases r with
    | none => exact ih _
    | some buf =>
      exact .bind (.lift _) fun w => .ite (ih _) (.ite (ih _)
        (.bind (applyTagsLogged_logs _ _ _ _ _ _ _) fun c => ih c))

theorem emptyJournalLogged_logs : Logs emptyJournalLogged emptyJournal :=
  .bind (.lift _) fun _ => .bind (.lift _) fun _ => .bind (.lift _) fun _ =>
    .bind (.lift _) fun _ =>
    .ite .fail (.bind (.lift _) fun _ => .bind (.lift _) fun _ => .then_note (.lift _) _)

theorem e4JournalResetLogged_logs : Logs e4JournalResetLogged e4JournalReset := by
  refine .bind (.lift _) fun w => .ite (.pure ()) (.bind (.attempt (.lift _)) fun r => ?_)
  cases r with
  | none => exact .pure ()
  | some _ =>
    exact .bind (.ignore emptyJournalLogged_logs) fun _ => .bind (.lift _) fun _ =>
      .bind (.lift _) fun _ =>
      .ignore (.then_note (.lift _) _)

theorem replayFromLogged_logs (buf : Bytes) (jblocks : Nat) :
    Logs (replayFromLogged buf jblocks) (replayFrom buf jblocks) :=
  .bind (.lift _) fun _ => .ite .fail (.bind (.lift _) fun _ =>
    .bind (journalScanLogged_logs _ _ _) fun _ =>
    .bind (.lift _) fun _ => .ite e4JournalResetLogged_logs
      (.bind (journalApplyLogged_logs _ _ _ _ _) fun _ => e4JournalResetLogged_logs))

theorem e4JournalReplayLogged_logs : Logs e4JournalReplayLogged e4JournalReplay :=
  .bind (.lift _) fun _ => .bind (.lift _) fun _ =>
    .ite (.pure ()) (.ite (.pure ()) (.bind (.lift _) fun _ =>
    .bind (.lift _) fun _ => .ite .fail (.bind (.lift _) fun _ =>
      .bind (.attempt (.lift _)) fun _ =>
      .bind (.attempt (.lift _)) fun _ => .ite .fail (.bind (.lift _) fun _ =>
        replayFromLogged_logs _ _))))

end Obsidian.Fs
