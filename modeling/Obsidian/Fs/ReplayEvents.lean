import Obsidian.Fs.Replay

/-!
# A block that is missed

A tagged block that the replay cannot read from the journal or write to its target.
-/
namespace Obsidian.Fs
open Lib Lib.Bytes Lib.Logged Drivers

/-- A tagged, not revoked block of a committed transaction that could not be read from the
journal or written to its target. -/
def ReplayEvent.misses : ReplayEvent → Prop
  | .unread _ revoked => revoked = false
  | .unwritten _ => True
  | _ => False

def BlockMissed (w : World) : Prop := ∃ e ∈ replayEvents w, e.misses

/-- The replay reports an error and leaves the RECOVER flag and the journal superblock on the
disk alone. -/
def KeepsJournal (w : World) : Prop :=
  (e4JournalReplay w).1 = none ∧ .cleared ∉ replayEvents w ∧ ∀ block,
    .emptied block ∉ replayEvents w

theorem lift_get_total : Cmd.Total (lift Cmd.get : Cmd Journaled World) := fun s => ⟨s.1, rfl⟩

theorem note_total (e : ReplayEvent) : Cmd.Total (note e : Cmd Journaled Unit) := fun _ => ⟨(), rfl⟩

theorem applyTagsLogged_total (buf rev : Bytes) (cap tagsz more c off : Nat) :
    Cmd.Total (applyTagsLogged buf rev cap tagsz more c off) := by
  induction more generalizing c off with
  | zero => exact .pure c
  | succ more ih =>
    refine .bind lift_get_total fun w => .ite (.pure c) (.ite (.pure c) (.ite (.pure c)
      (.bind (.attempt _) fun r => ?_)))
    cases r with
    | none => exact .bind (note_total _) fun _ => .pure c
    | some content =>
      refine .bind (note_total _) fun _ => .ite (ih _ _) (.bind (.attempt _) fun o => ?_)
      cases o with
      | none => exact .bind (note_total _) fun _ => .pure c
      | some _ => exact .bind (note_total _) fun _ => ih _ _

theorem journalApplyLogged_total (rev : Bytes) (cap tagsz more i : Nat) :
    Cmd.Total (journalApplyLogged rev cap tagsz more i) := by
  induction more generalizing i with
  | zero => exact .pure ()
  | succ more ih =>
    refine .ite (.pure ()) (.bind (.attempt _) fun r => ?_)
    cases r with
    | none => exact ih _
    | some buf =>
      exact .bind lift_get_total fun w => .ite (ih _) (.ite (ih _)
        (.bind (applyTagsLogged_total _ _ _ _ _ _ _) fun c => ih c))

theorem e4JournalResetLogged_total : Cmd.Total e4JournalResetLogged := by
  refine .bind lift_get_total fun w => .ite (.pure ()) (.bind (.attempt _) fun r => ?_)
  cases r with
  | none => exact .pure ()
  | some _ =>
    exact .bind (.ignore _) fun _ => .bind (fun _ => ⟨(), rfl⟩) fun _ =>
      .bind (fun _ => ⟨(), rfl⟩) fun _ => .ignore _

theorem journalScanLogged_spares (more i : Nat) (rev : Bytes) :
    Spares ReplayEvent.misses (journalScanLogged more i rev) := by
  have marks : ∀ blocks : List Nat, ∀ e ∈ blocks.map ReplayEvent.mark, ¬ e.misses := by
    intro blocks e member
    obtain ⟨b, -, rfl⟩ := List.mem_map.1 member
    exact id
  induction more generalizing i rev with
  | zero => exact .pure rev
  | succ more ih =>
    refine .bind (.attempt (.lift _)) fun r => ?_
    cases r with
    | none => exact ih _ _
    | some buf =>
      exact .ite (ih _ _) (.ite (.bind (.lift _) fun _ => ih _ _) (.ite (.bind (.lift _) fun w =>
        .ite (ih _ _) (.bind (.notes (marks _)) fun _ => ih _ _)) (ih _ _)))

theorem e4JournalReplayLogged_spares : SparesFailing ReplayEvent.misses e4JournalReplayLogged := by
  have from_jsb : ∀ jsb jblocks, SparesFailing ReplayEvent.misses (replayFromLogged jsb jblocks) :=
    fun jsb jblocks =>
    .bind (.lift _) fun _ => .ite Spares.fail.failing (.bind (.lift _) fun _ =>
      .bind (journalScanLogged_spares _ _ _) fun _ => .bind (.lift _) fun _ =>
        .ite (.total e4JournalResetLogged_total)
          (.total (.bind (journalApplyLogged_total _ _ _ _ _) fun _ => e4JournalResetLogged_total)))
  exact .bind (.lift _) fun _ => .bind (.lift _) fun _ => .ite (Spares.pure ()).failing
    (.ite (Spares.pure ()).failing (.bind (.lift _) fun _ => .bind (.lift _) fun _ =>
      .ite Spares.fail.failing
      (.bind (.lift _) fun _ => .bind (.attempt (.lift _)) fun _ =>
        .bind (.attempt (.lift _)) fun _ =>
        .ite Spares.fail.failing (.bind (.lift _) fun _ => from_jsb _ _))))

theorem missed_returns_zero {w : World} (missed : BlockMissed w) :
    (e4JournalReplay w).1 = some () := by
  obtain ⟨e, member, misses⟩ := missed
  cases returned : (e4JournalReplay w).1 with
  | some u => rfl
  | none =>
    have failed : (e4JournalReplayLogged (w, [])).1 = none := by
      rw [(e4JournalReplayLogged_logs.result w []).1, returned]
    exact absurd (e4JournalReplayLogged_spares w [] failed e member misses) (List.not_mem_nil)

/-- Whatever the journal and the failures of the device: where a block is missed, the replay
reports success all the same. -/
theorem missed_block_never_reported (w : World) (missed : BlockMissed w) : ¬ KeepsJournal w := by
  intro keeps
  have failed := keeps.1
  rw [missed_returns_zero missed] at failed
  cases failed

/-- One committed copy of block 30, whose two sectors the device cannot write. -/
def failedWrite : World :=
  let w := journalWorld (withLog journalDisk
    [(2, journalBlock 1 1 (journalTag 30 0)), (3, [7]), (4, journalBlock 3 1 [])])
  { w with bus := { w.bus with fault := fun _ lba => if lba = 60 then some 0 else none } }

theorem failedWrite_events :
    replayEvents failedWrite = [.look 30, .unwritten 30, .emptied 20, .cleared] := by decide +kernel

theorem failedWrite_missed : BlockMissed failedWrite :=
    ⟨.unwritten 30, by rw [failedWrite_events]; decide, trivial⟩

theorem missed_block_never_reported_write : ¬ KeepsJournal failedWrite :=
  missed_block_never_reported failedWrite failedWrite_missed

/-- The copy is lost: the journal is emptied and the disk is no longer marked for recovery. -/
theorem lost_copy_reported_written : BlockMissed failedWrite ∧
    (e4JournalReplay failedWrite).1 = some () ∧
    .emptied 20 ∈ replayEvents failedWrite ∧ .cleared ∈ replayEvents failedWrite ∧
    ((e4JournalReplay failedWrite).2.disk 0) (30 * 1024) = 0 ∧
    get32 ((e4JournalReplay failedWrite).2.disk 0) (1024 + 0x60) &&& featIncompatRecover = 0 := by
  rw [failedWrite_events]
  exact ⟨failedWrite_missed,
    missed_returns_zero failedWrite_missed, by decide, by decide, by decide +kernel,
    by decide +kernel⟩

end Obsidian.Fs
