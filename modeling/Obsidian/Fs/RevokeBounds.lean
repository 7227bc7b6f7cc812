import Obsidian.Fs.LogTags
import Obsidian.Fs.ReplayEvents

/-!
# Bounds of what a replay looks at and writes

The first pass marks blocks below `blocks_count` only. The second looks at the bit of any
target that a committed descriptor names, and writes there.
-/
namespace Obsidian.Fs
open Lib Lib.Bytes Lib.Logged Lib.Redo Drivers

variable {w v : World} {d n : Nat}

/-- With `n` blocks: `revbits` is accessed within its `(n + 7) / 8` octets and only blocks
below `n` are written. -/
def ReplayEvent.inBounds (n : Nat) : ReplayEvent → Prop
  | .mark block => block / 8 < (n + 7) / 8
  | .look target => target / 8 < (n + 7) / 8
  | .wrote target => target < n
  | .emptied block => block < n
  | _ => True

/-- Every access and every write of a replay is in bounds. -/
def ReplayInBounds (w : World) : Prop := ∀ e ∈ replayEvents w, e.inBounds w.e4.blocksCount

/-! ## Runs without failures -/

theorem View.healthy (view : View w v) (healthy : w.Healthy) : v.Healthy := by
  intro k lba
  rw [view.fault]
  exact healthy k lba

variable {α : Type} {c : Cmd World α} {jsb rev : Bytes} {e4 : Ext4Fs} {s : Scan} {jblocks : Nat}

theorem Reads.ran {r : Option α} (reads : Reads d c w r) (inert : Cmd.Inert (device d) c)
    (healthy : w.Healthy) :
    ∃ t, c w = (r, t) ∧ Like w t := by
  obtain ⟨like, result⟩ := reads.done (healthy.alive inert)
  exact ⟨(c w).2, Prod.ext result rfl, like⟩

theorem Writes.ran {t : α × List Write} (writes : Writes d w t (c w))
    (inert : Cmd.Inert (device d) c) (healthy : w.Healthy) :
    ∃ u, c w = (some t.1, u) ∧ Like (w.onDisk d (writeAll w.e4.blockSize t.2 (w.disk d))) u := by
  obtain ⟨like, result⟩ := writes.done (healthy.alive inert)
  exact ⟨(c w).2, Prod.ext result rfl, like⟩

theorem World.Healthy.ends {c : Cmd Fs.Journaled α} {plain : Cmd World α} (healthy : w.Healthy)
    (logs : Logs c plain) (inert : Cmd.Inert (device d) plain) {l : List ReplayEvent}
    {Q : Bytes → Prop} {P : Option α → Fs.Journaled → Prop}
    (ends : Cmd.Ends (medium (device d)) Q P (c (w, l))) :
    P (c (w, l)).1 (c (w, l)).2 := by
  apply ends.done
  show ¬ (c (w, l)).2.1.dead
  rw [(logs.result w l).2]
  exact healthy.alive inert

theorem Sound.apply_inBounds (sound : Sound w d) (healthy : w.Healthy)
    (extents : Ino.flags w.jin &&& inoFlagExtents ≠ 0) (rev : Bytes) (cap tagsz more i : Nat) :
    NotesOnly (ReplayEvent.inBounds n) (journalApplyLogged rev cap tagsz more i) w
      (∀ b ∈ (w.pass d cap tagsz rev).looks more i (w.disk d),
        (w.pass d cap tagsz rev).admits (ReplayEvent.inBounds n) b) := by
  intro l
  exact (healthy.ends (journalApplyLogged_logs _ _ _ _ _) (journalApply_inert _ _ _ _ _)
    (sound.apply_logged rev ⟨fun _ _ => trivial, fun _ => trivial⟩ extents cap tagsz more i l)).2

/-! ## The first pass -/

theorem revokesIn_lt (e4 : Ext4Fs) (buf : Bytes) (used more off : Nat) :
    ∀ b ∈ revokesIn e4 buf used more off, b < e4.blocksCount := by
  induction more generalizing off with
  | zero => exact List.forall_mem_nil _
  | succ more ih =>
    rw [revokesIn]
    split
    · exact List.forall_mem_nil _
    · dsimp only
      split
      next below => exact List.forall_mem_cons.mpr ⟨below, ih _⟩
      next => exact ih _

theorem Sound.scan_inBounds (sound : Sound w d) (healthy : w.Healthy)
    (extents : Ino.flags w.jin &&& inoFlagExtents ≠ 0) (more i : Nat) (rev : Bytes) :
    NotesOnly (ReplayEvent.inBounds w.e4.blocksCount) (journalScanLogged more i rev) w True := by
  induction more generalizing i rev w with
  | zero => exact .pure rev w
  | succ more ih =>
    rw [journalScanLogged]
    obtain ⟨t, ran, like⟩ := (sound.jread extents i).ran (jread_inert i) healthy
    refine .attempt_bind ran ?_
    rw [← like.e4]
    have tsound := like.sound sound
    have thealthy := like.view.healthy healthy
    have textents : Ino.flags t.jin &&& inoFlagExtents ≠ 0 := like.jin ▸ extents
    have next := ih tsound thealthy textents (i + 1)
    cases w.log d (w.disk d) w.jin i with
    | none => exact next rev
    | some buf =>
      dsimp only
      split
      · exact next rev
      split
      · have view := scanned_view t ((t.scan rev).commit (getBE32 buf 8))
        exact .lift_bind (noteCommit_eq _ rev t) (ih (view.sound tsound) (view.healthy thealthy)
          textents (i + 1) rev)
      split
      · refine .get_bind ?_
        split
        · exact next rev
        · refine (NotesOnly.notes_bind (next _)).congr (iff_of_true ⟨?_, trivial⟩ trivial)
          intro e member
          obtain ⟨b, marked, rfl⟩ := List.mem_map.1 member
          have below := revokesIn_lt _ _ _ _ _ b marked
          show b / 8 < (t.e4.blocksCount + 7) / 8
          omega
      · exact next rev

/-! ## The reset -/

/-- The journal superblock is written where block 0 of the journal is mapped to. -/
theorem Sound.reset_inBounds (sound : Sound w d) (healthy : w.Healthy)
    (inum : Sb.journalInum w.e4.sb ≠ 0) :
    NotesOnly (ReplayEvent.inBounds n) e4JournalResetLogged w
      (∀ wr ∈ if w.heap.full w.heap.calls then [] else w.emptied d (w.disk d), wr.1 < n) := fun l =>
  (healthy.ends e4JournalResetLogged_logs e4JournalReset_inert
    (sound.reset_logged inum trivial l)).2

/-! ## The whole replay -/

theorem Static.passOf (view : Static w v) (data jin jsb : Bytes) (jblocks : Nat) :
    v.passOf d data jin jsb jblocks = w.passOf d data jin jsb jblocks := by
  have hlands : v.lands d = w.lands d := funext (view.lands d)
  have hlog : (fun data => v.log d data jin) = fun data => w.log d data jin :=
    funext fun data => view.log d data jin
  rw [World.passOf, view.scanOf, hlands, hlog, view.e4, World.passOf]

theorem Static.lookedOf (view : Static w v) (data jin jsb : Bytes) (jblocks : Nat) :
    v.lookedOf d data jin jsb jblocks = w.lookedOf d data jin jsb jblocks := by
  rw [World.lookedOf, view.passOf, view.scanOf, World.lookedOf]

theorem Sound.after_inBounds (sound : Sound w d) (healthy : w.Healthy)
    (inum : Sb.journalInum w.e4.sb ≠ 0) {data : Bytes}
    (like : Like (((w.allocated 1).scanned s).onDisk d data) v) :
    NotesOnly (ReplayEvent.inBounds n) e4JournalResetLogged v
      (∀ wr ∈ if w.heap.full (w.heap.calls + 1) then [] else (w.scanned s).emptied d data,
        wr.1 < n) := by
  have view : View w v := ((allocated_view w 1).trans (scanned_view _ s)).trans
    ((onDisk_view _ d data).trans like.view)
  have same : View (w.scanned s) v :=
    ((allocated_view (w.scanned s) 1).trans (onDisk_view _ d data)).trans like.view
  have reset := (view.sound sound).reset_inBounds (n := n) (view.healthy healthy) (view.e4 ▸ inum)
  have hdisk : v.disk d = data := like.disk.trans (onDisk_disk _ _ _)
  have hheap : v.heap = (w.allocated 1).heap := like.heap
  rw [hdisk, same.emptied like.jin like.lastCommitSeq, hheap] at reset
  exact reset

/-- From the journal superblock on: the passes in the state `w`, and the reset in the one they
leave. -/
theorem Sound.from_inBounds (sound : Sound w d) (healthy : w.Healthy)
    (extents : Ino.flags w.jin &&& inoFlagExtents ≠ 0) (inum : Sb.journalInum w.e4.sb ≠ 0)
    (fresh : w.scan w.revbits = ⟨[], 0, w.revbits⟩) (runs : w.runsPasses jsb jblocks) :
    NotesOnly (ReplayEvent.inBounds w.e4.blocksCount) (replayFromLogged jsb jblocks) w
      ((∀ b ∈ w.lookedOf d (w.disk d) w.jin jsb jblocks,
          (w.passOf d (w.disk d) w.jin jsb jblocks).admits
          (ReplayEvent.inBounds w.e4.blocksCount) b) ∧
        ∀ wr ∈ if w.heap.full (w.heap.calls + 1) then [] else
          (w.scanned (w.scanOf d (w.disk d) w.jin jsb jblocks)).emptied d
            (writeAll w.e4.blockSize (w.writesOf d (w.disk d) w.jin jsb jblocks) (w.disk d)),
          wr.1 < w.e4.blocksCount) := by
  have accepted := runs.1
  have hmalloc := kmalloc_revSize runs
  have hview := allocated_view w 1
  have asound := hview.sound sound
  have ahealthy := hview.healthy healthy
  have scan := asound.journalScan extents (Jsb.cap jsb jblocks - Jsb.first jsb)
    (Jsb.first jsb) w.revbits
  have marks : NotesOnly (ReplayEvent.inBounds w.e4.blocksCount) _ (w.allocated 1) True :=
    asound.scan_inBounds ahealthy extents (Jsb.cap jsb jblocks - Jsb.first jsb)
      (Jsb.first jsb) w.revbits
  rw [show (w.allocated 1).scan w.revbits = ⟨[], 0, w.revbits⟩ from fresh, hview.log] at scan
  obtain ⟨like, found⟩ := scan.done (ahealthy.alive (journalScan_inert _ _ _))
  change Like ((w.allocated 1).scanned (w.scanOf d (w.disk d) w.jin jsb jblocks)) _ at like
  change _ = some (w.scanOf d (w.disk d) w.jin jsb jblocks).rev at found
  rw [World.lookedOf, World.writesOf]
  generalize hs : w.scanOf d (w.disk d) w.jin jsb jblocks = s at like found ⊢
  obtain ⟨t, ran, like⟩ : ∃ t, Fs.journalScan (Jsb.cap jsb jblocks - Jsb.first jsb)
    (Jsb.first jsb) w.revbits
      (w.allocated 1) = (some s.rev, t) ∧ Like ((w.allocated 1).scanned s) t :=
    ⟨_, Prod.ext found rfl, like⟩
  unfold replayFromLogged
  refine .get_bind ?_
  show NotesOnly _ (if Jsb.bogus w.e4 jsb jblocks then _ else _ : Cmd Journaled Unit) w _
  rw [if_neg accepted]
  refine .lift_bind hmalloc ?_
  refine (NotesOnly.bind (journalScanLogged_logs _ _ _) marks ran (.get_bind ?_)).congr
    (Iff.of_eq (true_and _))
  rw [like.committed]
  show NotesOnly _ (if s.committed.length = 0 then _ else _ : Cmd Journaled Unit) t _
  by_cases empty : s.committed.length = 0
  · rw [if_pos empty, if_pos empty, if_pos empty, writeAll_nil]
    have unwritten : Like (((w.allocated 1).scanned s).onDisk d (w.disk d)) t := by
      rw [show w.disk d = ((w.allocated 1).scanned s).disk d from rfl, onDisk_self]
      exact like
    exact (sound.after_inBounds healthy inum unwritten).congr
      (and_iff_right (List.forall_mem_nil _)).symm
  rw [if_neg empty, if_neg empty, if_neg empty]
  have view : View w ((w.allocated 1).scanned s) := hview.trans (scanned_view _ s)
  have tview : View w t := view.trans like.view
  have tsound := tview.sound sound
  have thealthy := tview.healthy healthy
  have textents : Ino.flags t.jin &&& inoFlagExtents ≠ 0 := like.jin ▸ extents
  have hdisk : t.disk d = w.disk d := like.disk
  have hpass := like.passOf hs
  have applies := tsound.apply_inBounds (n := w.e4.blocksCount) thealthy textents s.rev
    (Jsb.cap jsb jblocks) (Jsb.tagsz jsb)
    (Jsb.cap jsb jblocks - Jsb.first jsb) (Jsb.first jsb)
  obtain ⟨u, applied, after⟩ :=
    (tsound.journalApply textents s.rev (Jsb.cap jsb jblocks) (Jsb.tagsz jsb)
    (Jsb.cap jsb jblocks - Jsb.first jsb) (Jsb.first jsb)).ran (journalApply_inert _ _ _ _ _)
      thealthy
  rw [hpass, hdisk] at applies
  rw [hpass, hdisk, tview.e4] at after
  have written :=
    (like.onDisk d (writeAll w.e4.blockSize ((w.passOf d (w.disk d) w.jin jsb jblocks).blocks
    (Jsb.cap jsb jblocks - Jsb.first jsb) (Jsb.first jsb) (w.disk d)) (w.disk d))).trans after
  show NotesOnly _ (journalApplyLogged s.rev (Jsb.cap jsb jblocks) (Jsb.tagsz jsb)
    (Jsb.cap jsb jblocks - Jsb.first jsb) (Jsb.first jsb) >>= fun _ => e4JournalResetLogged) t _
  exact NotesOnly.bind (journalApplyLogged_logs _ _ _ _ _) applies applied
    (sound.after_inBounds healthy inum written)

theorem from_refused (refused : ¬ w.runsPasses jsb jblocks) :
    NotesOnly (ReplayEvent.inBounds n) (replayFromLogged jsb jblocks) w True := by
  unfold replayFromLogged
  refine .get_bind ?_
  show NotesOnly _ (if Jsb.bogus w.e4 jsb jblocks then _ else _ : Cmd Journaled Unit) w _
  by_cases bogus : Jsb.bogus w.e4 jsb jblocks
  · rw [if_pos bogus]
    exact .fail w
  · rw [if_neg bogus]
    apply NotesOnly.lift_none
    show (kmalloc w.e4.revSize w).1 = none
    by_cases size : w.e4.revSize = 0
    · rw [size]
      rfl
    · have full : w.heap.full w.heap.calls = true := by
        by_contra room
        exact refused ⟨bogus, size, (Bool.not_eq_true _).mp room⟩
      rw [kmalloc_eq size, if_pos full]

/-- What is in bounds when the journal found is replayed. -/
def World.boundsOf (w : World) (d : Nat) (data : Bytes) : Option Journal → Prop
  | none => True
  | some j => (∀ b ∈ w.lookedOf d data j.jin j.jsb j.jblocks,
      (w.passOf d data j.jin j.jsb j.jblocks).admits (ReplayEvent.inBounds w.e4.blocksCount) b) ∧
      ∀ wr ∈ if w.resets then (w.opened d data j).emptied d (writeAll w.e4.blockSize
        (w.writesOf d data j.jin j.jsb j.jblocks) data) else [], wr.1 < w.e4.blocksCount

theorem Sound.fromJsb_inBounds (sound : Sound w d) (healthy : w.Healthy) {jin : Bytes}
    (extents : Ino.flags jin &&& inoFlagExtents ≠ 0) (inum : Sb.journalInum w.e4.sb ≠ 0)
    (like : Like (w.opening jin) v) :
    NotesOnly (ReplayEvent.inBounds w.e4.blocksCount) (lift (Fs.jread 0) >>= fun jsb =>
      replayFromLogged jsb (e4InodeSize w.e4 jin / w.e4.blockSize)) v
      (w.boundsOf d (w.disk d) (w.journalOf d (w.disk d) jin)) := by
  have view : View w v := (opening_view w jin).trans like.view
  have hjin : v.jin = jin := like.jin
  have hdisk : v.disk d = w.disk d := like.disk
  have read := (view.sound sound).jread (hjin ▸ extents) 0
  rw [hjin, hdisk, view.log] at read
  obtain ⟨t, ran, next⟩ := read.ran (jread_inert 0) (view.healthy healthy)
  unfold World.journalOf
  cases hlog : w.log d (w.disk d) jin 0 with
  | none => exact .lift_none (by rw [ran, hlog])
  | some jsb =>
    rw [hlog] at ran
    refine .lift_bind ran ?_
    dsimp only
    generalize e4InodeSize w.e4 jin / w.e4.blockSize = jblocks
    have both := like.trans next
    have tview : View w t := view.trans next.view
    have hruns : t.runsPasses jsb jblocks ↔ (w.allocated 2).runsPasses jsb jblocks :=
      both.runsPasses
    by_cases runs : (w.allocated 2).runsPasses jsb jblocks
    · rw [if_pos runs]
      have tjin : t.jin = jin := both.jin
      have tdisk : t.disk d = w.disk d := both.disk
      have fresh : t.scan t.revbits = ⟨[], 0, t.revbits⟩ := by
        rw [World.scan, both.committed, both.lastCommitSeq]
        rfl
      have bounds := (tview.sound sound).from_inBounds (tview.healthy healthy) (tjin ▸ extents)
        (tview.e4 ▸ inum) fresh (hruns.mpr runs)
      rw [tdisk, tjin, tview.lookedOf, tview.passOf, tview.scanOf, tview.writesOf,
        tview.e4] at bounds
      have scanned := both.scanned (w.scanOf d (w.disk d) jin jsb jblocks)
      have opened : View ((w.opening jin).scanned (w.scanOf d (w.disk d) jin jsb jblocks))
          (w.opened d (w.disk d) ⟨jin, jsb, jblocks⟩) :=
            ⟨⟨rfl, fun _ => rfl, fun _ _ => rfl, fun _ _ => rfl, rfl⟩, rfl⟩
      rw [scanned.view.emptied scanned.jin scanned.lastCommitSeq, ← opened.emptied rfl rfl,
        both.heap] at bounds
      have hresets : w.resets = !(w.opening jin).heap.full ((w.opening jin).heap.calls + 1) := rfl
      rw [World.boundsOf, hresets]
      refine bounds.congr (and_congr Iff.rfl ?_)
      cases (w.opening jin).heap.full ((w.opening jin).heap.calls + 1) with
      | false => exact Iff.rfl
      | true => exact Iff.rfl
    · rw [if_neg runs]
      exact from_refused fun h => runs (hruns.mp h)

theorem Sound.replay_inBounds (sound : Sound w d) (healthy : w.Healthy) (due : w.e4.recovers) :
    NotesOnly (ReplayEvent.inBounds w.e4.blocksCount) e4JournalReplayLogged w
      (w.boundsOf d (w.disk d) (w.journal d (w.disk d))) := by
  obtain ⟨present, recover⟩ := due
  have inum : Sb.journalInum w.e4.sb ≠ 0 := (not_or.mp present).2
  have hsize : w.e4.blockSize ≠ 0 := Nat.pos_iff_ne_zero.mp sound.blockSize_pos
  unfold e4JournalReplayLogged
  refine .lift_bind Cmd.modify_apply ?_
  generalize hw0 : ({ w with committed := [], lastCommitSeq := 0 } : World) = w0
  have view0 : View w w0 := hw0 ▸ ⟨⟨rfl, fun _ => rfl, fun _ _ => rfl, fun _ _ => rfl, rfl⟩, rfl⟩
  have hjin0 : w0.jin = w.jin := hw0 ▸ rfl
  have hdisk0 : w0.disk d = w.disk d := hw0 ▸ rfl
  have read := (view0.sound sound).readInode (Sb.journalInum w.e4.sb) w.jin
  rw [hdisk0, view0.inodeOn] at read
  obtain ⟨t, ran, like⟩ := read.ran (e4ReadInode_inert _ _) (view0.healthy healthy)
  refine .get_bind ?_
  rw [view0.e4, hjin0, if_neg present, if_neg recover, World.journal]
  cases hjin : w.inodeOn d (w.disk d) (Sb.journalInum w.e4.sb) w.jin with
  | none => exact .lift_none (by rw [ran, hjin])
  | some jin =>
    rw [hjin] at ran
    refine .lift_bind ran (.lift_bind Cmd.modify_apply ?_)
    dsimp only
    by_cases extents : Ino.flags jin &&& inoFlagExtents = 0
    · have hready : ¬ w.ready jin := fun h => h.1 extents
      rw [if_pos extents, if_neg hready]
      exact .fail _
    have hheap : t.heap = w.heap := like.heap.trans (hw0 ▸ rfl)
    generalize ht1 : ({ t with jin := jin } : World) = t1
    have he41 : t1.e4 = w.e4 := ht1 ▸ like.e4.trans view0.e4
    obtain ⟨hfirst, hsecond⟩ := @two_buffers w t1 hsize (ht1 ▸ hheap)
    rw [if_neg extents]
    refine .get_bind ?_
    rw [he41]
    refine .attempt_bind hfirst (.attempt_bind hsecond ?_)
    by_cases ready : w.ready jin
    · rw [if_neg ((ready_iff extents).mp ready), if_pos ready]
      refine sound.fromJsb_inBounds healthy ready.1 inum ?_
      subst ht1 hw0
      refine ⟨?_, like.first, like.second⟩
      rw [like.same]
      rfl
    · rw [if_pos (not_not.mp fun go => ready ((ready_iff extents).mpr go)), if_neg ready]
      exact .fail _

theorem replayEvents_idle (idle : ¬ w.e4.recovers) : replayEvents w = [] := by
  have quiet : NotesOnly (fun _ => False) e4JournalReplayLogged w True := by
    unfold e4JournalReplayLogged
    refine .lift_bind Cmd.modify_apply (.get_bind ?_)
    dsimp only
    split
    · exact .pure () _
    next present =>
      split
      · exact .pure () _
      next recover => exact absurd ⟨present, recover⟩ idle
  exact List.eq_nil_iff_forall_not_mem.mpr (quiet.events.mpr trivial)

/-- A filesystem of 128 blocks whose log has one committed copy, of the block with this number. -/
def oneTarget (target : List UInt8) : World := journalWorld (withLog journalDisk
  [(2, journalBlock 1 1 (target ++ [0, 0, 0, 0, 0, 0, 0, 0])), (3, [7]), (4, journalBlock 3 1 [])])

end Obsidian.Fs
