import Obsidian.Fs.JournalRun

/-!
# A whole replay

`e4_journal_replay` is the two passes followed by `e4_journal_reset`. What the passes
write is a list that the disk determines before the first write; what the reset writes
is determined by the disk after them.
-/
namespace Obsidian.Fs
open Lib Lib.Bytes Lib.Logged Lib.Redo Drivers

variable {w v u : World} {d : Nat}

/-! ## The passes and the reset -/

/-- `replayFrom` up to its call of `e4_journal_reset`. -/
def passes (buf : Bytes) (jblocks : Nat) : Cmd World Unit := do
  let w ← Cmd.get
  let maxlen := get32 buf jsbOffMaxlen
  let first := get32 buf jsbOffFirst
  let start := get32 buf jsbOffStart
  if get32 buf jsbOffBlocksize ≠ w.e4.blockSize ∨ first < 2 ∨ jblocks ≤ first ∨ jblocks ≤ start then
    Cmd.fail
  else do
    let tagsz := if get32 buf jsbOffFeatIncompat &&& jbd2Feat64bit ≠ 0 then 16 else 12
    let cap := if maxlen ≠ 0 ∧ maxlen ≤ jblocks then maxlen else jblocks
    kmalloc w.e4.revSize
    let rev ← journalScan (cap - first) first w.revbits
    let w ← Cmd.get
    if w.committed.length = 0 then pure ()
    else journalApply rev cap tagsz (cap - first) first

/-- `e4_journal_replay` up to its call of `e4_journal_reset`; whether it gets there. -/
def replayLog : Cmd World Bool := do
  Cmd.modify fun w => { w with committed := [], lastCommitSeq := 0 }
  let w ← Cmd.get
  if w.e4.dev = none ∨ Sb.journalInum w.e4.sb = 0 then pure false
  else if w.e4.featIncompat &&& featIncompatRecover = 0 then pure false
  else do
    let jin ← e4ReadInode (Sb.journalInum w.e4.sb) w.jin
    Cmd.modify fun w => { w with jin := jin }
    if Ino.flags jin &&& inoFlagExtents = 0 then Cmd.fail
    else do
      let w ← Cmd.get
      let buf ← Cmd.attempt (kmalloc w.e4.blockSize)
      let content ← Cmd.attempt (kmalloc w.e4.blockSize)
      if buf = none ∨ content = none then Cmd.fail
      else do
        let jsb ← jread 0
        passes jsb (e4InodeSize w.e4 jin / w.e4.blockSize)
        pure true

theorem replayFrom_eq (buf : Bytes) (jblocks : Nat) :
    replayFrom buf jblocks = passes buf jblocks >>= fun _ => e4JournalReset := by
  unfold replayFrom passes
  rw [bind_assoc]
  refine bind_congr fun w => ?_
  rw [Cmd.ite_bind]
  refine ite_congr rfl (fun _ => rfl) fun _ => ?_
  rw [bind_assoc]
  refine bind_congr fun _ => ?_
  rw [bind_assoc]
  refine bind_congr fun rev => ?_
  rw [bind_assoc]
  refine bind_congr fun w' => ?_
  rw [Cmd.ite_bind, pure_bind]

theorem e4JournalReplay_eq :
    e4JournalReplay = replayLog >>= fun due => if due then e4JournalReset else pure () := by
  unfold e4JournalReplay replayLog
  rw [bind_assoc]
  refine bind_congr fun _ => ?_
  rw [bind_assoc]
  refine bind_congr fun w => ?_
  rw [Cmd.ite_bind, Cmd.ite_bind]
  refine ite_congr rfl (fun _ => rfl) fun _ => ite_congr rfl (fun _ => rfl) fun _ => ?_
  rw [bind_assoc]
  refine bind_congr fun jin => ?_
  rw [bind_assoc]
  refine bind_congr fun _ => ?_
  rw [Cmd.ite_bind]
  refine ite_congr rfl (fun _ => rfl) fun _ => ?_
  rw [bind_assoc]
  refine bind_congr fun w' => ?_
  rw [bind_assoc]
  refine bind_congr fun buf => ?_
  rw [bind_assoc]
  refine bind_congr fun content => ?_
  rw [Cmd.ite_bind]
  refine ite_congr rfl (fun _ => rfl) fun _ => ?_
  rw [bind_assoc]
  refine bind_congr fun jsb => ?_
  rw [bind_assoc, replayFrom_eq]
  refine bind_congr fun _ => ?_
  rfl

/-! ## What the passes do -/

namespace Jsb
/-- First block of the log. -/
def first (jsb : Bytes) : Nat := get32 jsb jsbOffFirst

/-- End of the log. -/
def cap (jsb : Bytes) (jblocks : Nat) : Nat :=
  if get32 jsb jsbOffMaxlen ≠ 0 ∧
    get32 jsb jsbOffMaxlen ≤ jblocks then get32 jsb jsbOffMaxlen else jblocks

def tagsz (jsb : Bytes) : Nat := if get32 jsb jsbOffFeatIncompat &&& jbd2Feat64bit ≠
    0 then 16 else 12

/-- The checks of `e4_journal_replay` fail. -/
def bogus (e4 : Ext4Fs) (jsb : Bytes) (jblocks : Nat) : Prop :=
  get32 jsb jsbOffBlocksize ≠ e4.blockSize ∨ first jsb < 2 ∨ jblocks ≤ first jsb ∨
    jblocks ≤ get32 jsb jsbOffStart

instance (e4 : Ext4Fs) (jsb : Bytes) (jblocks : Nat) : Decidable (bogus e4 jsb jblocks) :=
  inferInstanceAs (Decidable (_ ∨ _))
end Jsb

/-- The state after `n` allocations. -/
def World.allocated (w : World) (n : Nat) : World :=
  { w with heap := { w.heap with calls := w.heap.calls + n } }

theorem kmalloc_eq {size : Nat} (pos : size ≠ 0) (w : World) :
    kmalloc size w = (if w.heap.full w.heap.calls then none else some (), w.allocated 1) := by
  rw [kmalloc, Cmd.get_bind, if_neg pos]
  split
  · rfl
  · rfl

/-- What the first pass collects from the log. -/
def World.scanOf (w : World) (d : Nat) (data jin jsb : Bytes) (jblocks : Nat) : Scan :=
  scanLog w.e4 (w.log d data jin) (Jsb.cap jsb jblocks - Jsb.first jsb) (Jsb.first jsb)
    ⟨[], 0, w.revbits⟩

/-- What the second pass works with. -/
def World.passOf (w : World) (d : Nat) (data jin jsb : Bytes) (jblocks : Nat) : Pass :=
  ⟨fun data => w.log d data jin, w.lands d, w.e4.blockSize, Jsb.cap jsb jblocks, Jsb.tagsz jsb,
    (w.scanOf d data jin jsb jblocks).rev, (w.scanOf d data jin jsb jblocks).committed⟩

/-- The writes of the second pass. -/
def World.writesOf (w : World) (d : Nat) (data jin jsb : Bytes) (jblocks : Nat) : List Write :=
  if (w.scanOf d data jin jsb jblocks).committed.length = 0 then []
  else (w.passOf d data jin jsb jblocks).blocks (Jsb.cap jsb jblocks - Jsb.first jsb)
    (Jsb.first jsb) data

/-- The passes are run: the journal superblock is accepted and there is memory for the map. -/
def World.runsPasses (w : World) (jsb : Bytes) (jblocks : Nat) : Prop :=
  ¬ Jsb.bogus w.e4 jsb jblocks ∧ w.e4.revSize ≠ 0 ∧ w.heap.full w.heap.calls = false

instance (w : World) (jsb : Bytes) (jblocks : Nat) : Decidable (w.runsPasses jsb jblocks) :=
  inferInstanceAs (Decidable (_ ∧ _))

variable {jblocks : Nat} {jsb : Bytes}

theorem passes_refused (refused : ¬ w.runsPasses jsb jblocks) :
    ∃ n, passes jsb jblocks w = (none, w.allocated n) := by
  rw [passes]
  show ∃ n, (if Jsb.bogus w.e4 jsb jblocks then _ else _ : Cmd World Unit) w = _
  by_cases bogus : Jsb.bogus w.e4 jsb jblocks
  · rw [if_pos bogus]
    exact ⟨0, rfl⟩
  · rw [if_neg bogus]
    by_cases none : w.e4.revSize = 0
    · refine ⟨0, Cmd.bind_none ?_⟩
      show kmalloc w.e4.revSize w = _
      rw [none]
      rfl
    · have hfull : w.heap.full w.heap.calls = true := by
        by_contra hroom
        exact refused ⟨bogus, none, (Bool.not_eq_true _).mp hroom⟩
      refine ⟨1, Cmd.bind_none ?_⟩
      show kmalloc w.e4.revSize w = _
      rw [kmalloc_eq none, if_pos hfull]

theorem allocated_view (w : World) (n : Nat) : View w (w.allocated n) :=
  ⟨⟨rfl, fun _ => rfl, fun _ _ => rfl, fun _ _ => rfl, rfl⟩, rfl⟩

theorem Like.passOf {t : World} {s : Scan} (like : Like ((w.allocated 1).scanned s) t)
    (scan : w.scanOf d (w.disk d) w.jin jsb jblocks = s) :
    t.pass d (Jsb.cap jsb jblocks) (Jsb.tagsz jsb) s.rev = w.passOf d
    (w.disk d) w.jin jsb jblocks := by
  have view : View w ((w.allocated 1).scanned s) := (allocated_view w 1).trans (scanned_view _ s)
  have hlands : ((w.allocated 1).scanned s).lands d = w.lands d := funext (view.lands d)
  rw [like.view.pass like.jin like.committed, World.passOf, scan, World.pass]
  congr 1
  funext data
  exact view.log d data w.jin

theorem kmalloc_revSize (runs : w.runsPasses jsb jblocks) :
    kmalloc w.e4.revSize w = (some (), w.allocated 1) := by
  rw [kmalloc_eq runs.2.1, if_neg (by rw [runs.2.2]; exact Bool.false_ne_true)]

theorem Sound.passes (sound : Sound w d) (extents : Ino.flags w.jin &&& inoFlagExtents ≠ 0)
    (fresh : w.scan w.revbits = ⟨[], 0, w.revbits⟩) (runs : w.runsPasses jsb jblocks) :
    Writes d ((w.allocated 1).scanned (w.scanOf d (w.disk d) w.jin jsb jblocks))
      ((), w.writesOf d (w.disk d) w.jin jsb jblocks) (passes jsb jblocks w) := by
  have accepted := runs.1
  have hmalloc := kmalloc_revSize runs
  have hview := allocated_view w 1
  have scan := (hview.sound sound).journalScan extents (Jsb.cap jsb jblocks - Jsb.first jsb)
    (Jsb.first jsb) w.revbits
  rw [show (w.allocated 1).scan w.revbits = ⟨[], 0, w.revbits⟩ from fresh, hview.log] at scan
  rw [Fs.passes, Cmd.get_bind]
  show Writes _ _ _ ((if Jsb.bogus w.e4 jsb jblocks then _ else _ : Cmd World Unit) w)
  rw [if_neg accepted]
  show Writes _ _ _ ((kmalloc w.e4.revSize >>= _) w)
  rw [Cmd.bind_some hmalloc]
  generalize hs : w.scanOf d (w.disk d) w.jin jsb jblocks = s
  refine Cmd.Ends.bind (scan.mono (fun _ _ h => h) ?_) ?_ ?_ ?_
  · rintro m rfl
    exact Partly.start _ _ _
  · exact fun rev => .get_bind fun _ => .ite (.pure ()) (journalApply_inert _ _ _ _ _)
  · rintro t ⟨-, hnone⟩
    cases hnone
  · rintro rev t ⟨like, hrev⟩
    have hscan : scanLog (w.allocated 1).e4 (w.log d ((w.allocated 1).disk d) (w.allocated 1).jin)
        (Jsb.cap jsb jblocks - Jsb.first jsb) (Jsb.first jsb) ⟨[], 0, w.revbits⟩ = s := hs
    rw [hscan] at like hrev
    cases hrev
    rw [Cmd.get_bind, like.committed]
    show Writes _ _ _ ((if s.committed.length = 0 then pure () else _ : Cmd World Unit) t)
    rw [World.writesOf, hs]
    by_cases empty : s.committed.length = 0
    · rw [if_pos empty, if_pos empty]
      exact .none like
    · rw [if_neg empty, if_neg empty]
      have view : View w ((w.allocated 1).scanned s) := hview.trans (scanned_view _ s)
      have hpass := like.passOf hs
      have apply := (like.sound (view.sound sound)).journalApply (like.jin ▸ extents) s.rev
        (Jsb.cap jsb jblocks) (Jsb.tagsz jsb) (Jsb.cap jsb jblocks - Jsb.first jsb) (Jsb.first jsb)
      rw [hpass, like.disk] at apply
      exact apply.after_like like

/-- `e4_journal_replay` does not return at once. -/
def Ext4Fs.recovers (e4 : Ext4Fs) : Prop :=
  ¬ (e4.dev = none ∨ Sb.journalInum e4.sb = 0) ∧ e4.featIncompat &&& featIncompatRecover ≠ 0

instance (e4 : Ext4Fs) : Decidable e4.recovers := inferInstanceAs (Decidable (_ ∧ _))

/-- A journal that is replayed: its inode, its superblock and its length. -/
structure Journal where
  jin : Bytes
  jsb : Bytes
  jblocks : Nat

/-- The journal with a given inode, when its superblock can be read and the passes are run. -/
def World.journalOf (w : World) (d : Nat) (data jin : Bytes) : Option Journal :=
  match w.log d data jin 0 with
  | none => none
  | some jsb =>
    if (w.allocated 2).runsPasses jsb (e4InodeSize w.e4 jin / w.e4.blockSize) then
      some ⟨jin, jsb, e4InodeSize w.e4 jin / w.e4.blockSize⟩
    else none

/-- The inode and the buffers of a replay are there. -/
def World.ready (w : World) (jin : Bytes) : Prop :=
  Ino.flags jin &&& inoFlagExtents ≠ 0 ∧ w.heap.full w.heap.calls = false ∧
    w.heap.full (w.heap.calls + 1) = false

instance (w : World) (jin : Bytes) : Decidable (w.ready jin) := inferInstanceAs (Decidable (_ ∧ _))

/-- The journal found on the disk, when everything up to the first pass goes well. -/
def World.journal (w : World) (d : Nat) (data : Bytes) : Option Journal :=
  match w.inodeOn d data (Sb.journalInum w.e4.sb) w.jin with
  | none => none
  | some jin => if w.ready jin then w.journalOf d data jin else none

/-- The writes of a replay of that journal. -/
def World.redoOf (w : World) (d : Nat) (data : Bytes) : Option Journal → List Write
  | none => []
  | some j => w.writesOf d data j.jin j.jsb j.jblocks

/-- The driver's variables after the passes. -/
def World.opened (w : World) (d : Nat) (data : Bytes) (j : Journal) : World :=
  ({ w.allocated 3 with jin := j.jin } : World).scanned (w.scanOf d data j.jin j.jsb j.jblocks)

/-- How the part of a replay before the reset ends: without any effect, or with the writes of
the journal. -/
def World.replayed (w : World) (d : Nat) (found : Option Journal) (r : Option Bool) (v : World) :
    Prop :=
  match found with
  | none => r = none ∧ v.e4 = w.e4 ∧ v.disk d = w.disk d
  | some j => r = some true ∧ Like ((w.opened d (w.disk d) j).onDisk d
      (writeAll w.e4.blockSize (w.redoOf d (w.disk d) found) (w.disk d))) v

def Replays (d : Nat) (w : World) (found : Option Journal) (r : Option Bool × World) : Prop :=
  Cmd.Ends (device d) (Partly w.e4.blockSize (w.redoOf d (w.disk d) found) (w.disk d))
    (w.replayed d found) r

/-- The driver's variables when the journal superblock is read. -/
def World.opening (w : World) (jin : Bytes) : World :=
  { w.allocated 2 with jin := jin, committed := [], lastCommitSeq := 0 }

theorem opening_view (w : World) (jin : Bytes) : View w (w.opening jin) :=
  ⟨⟨rfl, fun _ => rfl, fun _ _ => rfl, fun _ _ => rfl, rfl⟩, rfl⟩

theorem Static.scanOf (view : Static w v) (d : Nat) (data jin jsb : Bytes) (jblocks : Nat) :
    v.scanOf d data jin jsb jblocks = w.scanOf d data jin jsb jblocks := by
  rw [World.scanOf, World.revbits, view.log, view.e4, view.junk, World.scanOf, World.revbits]

theorem Static.writesOf (view : Static w v) (d : Nat) (data jin jsb : Bytes) (jblocks : Nat) :
    v.writesOf d data jin jsb jblocks = w.writesOf d data jin jsb jblocks := by
  have hlands : v.lands d = w.lands d := funext (view.lands d)
  have hlog : (fun data => v.log d data jin) = fun data => w.log d data jin := funext fun data =>
    view.log d data jin
  rw [World.writesOf, World.passOf, view.scanOf, hlands, hlog, view.e4, World.writesOf,
    World.passOf]

theorem Like.allocated (like : Like w v) (n : Nat) : Like (w.allocated n) (v.allocated n) := by
  refine ⟨?_, like.first, like.second⟩
  rw [like.same]
  rfl

theorem passes_inert (jsb : Bytes) (jblocks : Nat) : Cmd.Inert (device d) (passes jsb jblocks) :=
  .get_bind fun _ => .ite .fail (.bind (kmalloc_inert _) fun _ =>
    .bind (journalScan_inert _ _ _) fun _ =>
    .get_bind fun _ => .ite (.pure ()) (journalApply_inert _ _ _ _ _))

theorem Like.runsPasses (like : Like w v) :
    v.runsPasses jsb jblocks ↔ w.runsPasses jsb jblocks := by
  unfold World.runsPasses
  rw [like.e4, like.heap]

theorem Sound.fromJsb (sound : Sound w d) {jin : Bytes}
    (extents : Ino.flags jin &&& inoFlagExtents ≠ 0) (like : Like (w.opening jin) v) :
    Replays d w (w.journalOf d (w.disk d) jin) ((Fs.jread 0 >>= fun jsb =>
      Fs.passes jsb (e4InodeSize w.e4 jin / w.e4.blockSize) >>= fun _ => pure true) v) := by
  have view : View w v := (opening_view w jin).trans like.view
  have hjin : v.jin = jin := like.jin
  have hdisk : v.disk d = w.disk d := like.disk
  have read := (view.sound sound).jread (hjin ▸ extents) 0
  rw [Reads, hjin, hdisk, view.log] at read
  refine Cmd.Ends.bind (read.mono (fun _ _ h => h) fun m hm => ?_) ?_ ?_ ?_
  · rw [hm]
    exact Partly.start _ _ _
  · exact fun _ => .bind (passes_inert _ _) fun _ => .pure true
  · rintro t ⟨next, hnone⟩
    rw [World.journalOf, ← hnone]
    exact ⟨rfl, next.e4.trans view.e4, next.disk.trans hdisk⟩
  · rintro jsb t ⟨next, hsome⟩
    have both := like.trans next
    have hview : View w t := view.trans next.view
    rw [World.journalOf, ← hsome]
    dsimp only
    generalize e4InodeSize w.e4 jin / w.e4.blockSize = jblocks
    have hruns : t.runsPasses jsb jblocks ↔ (w.allocated 2).runsPasses jsb jblocks :=
      both.runsPasses
    by_cases runs : (w.allocated 2).runsPasses jsb jblocks
    · rw [if_pos runs]
      have hdisk' : t.disk d = w.disk d := both.disk
      have hjin' : t.jin = jin := both.jin
      have hfresh : t.scan t.revbits = ⟨[], 0, t.revbits⟩ := by
        rw [World.scan, both.committed, both.lastCommitSeq]
        rfl
      have passes := (hview.sound sound).passes (hjin' ▸ extents) hfresh (hruns.mpr runs)
      rw [hdisk', hjin', hview.scanOf, hview.writesOf] at passes
      have hopened : Like (w.opened d (w.disk d) ⟨jin, jsb, jblocks⟩)
          ((t.allocated 1).scanned (w.scanOf d (w.disk d) jin jsb jblocks)) :=
        (both.allocated 1).scanned _
      unfold Writes at passes
      have hdisk'' : ((t.allocated 1).scanned (w.scanOf d (w.disk d) jin jsb jblocks)).disk d =
        w.disk d := hdisk'
      rw [hdisk'', hopened.e4] at passes
      refine Cmd.Ends.bind passes (fun _ => .pure true) ?_ ?_
      · rintro u ⟨-, hnone⟩
        cases hnone
      · rintro done u ⟨after, -⟩
        exact Or.inl ⟨rfl, (hopened.onDisk d _).trans after⟩
    · rw [if_neg runs]
      obtain ⟨n, hfail⟩ := passes_refused (fun h => runs (hruns.mp h))
      rw [Cmd.bind_none hfail]
      exact Or.inl ⟨rfl, hview.e4, both.disk⟩

theorem fromInode_inert (jin : Bytes) : Cmd.Inert (device d) (do
    Cmd.modify fun w => { w with jin := jin }
    if Ino.flags jin &&& inoFlagExtents = 0 then Cmd.fail
    else do
      let w ← Cmd.get
      let buf ← Cmd.attempt (kmalloc w.e4.blockSize)
      let content ← Cmd.attempt (kmalloc w.e4.blockSize)
      if buf = none ∨ content = none then Cmd.fail
      else do
        let jsb ← jread 0
        passes jsb (e4InodeSize w.e4 jin / w.e4.blockSize)
        pure true) :=
  .bind (modify_inert fun _ => rfl) fun _ => .ite .fail (.get_bind fun _ =>
    .bind (.attempt (kmalloc_inert _)) fun _ => .bind (.attempt (kmalloc_inert _)) fun _ =>
      .ite .fail (.bind (jread_inert 0) fun _ => .bind (passes_inert _ _) fun _ => .pure true))

theorem replayLog_idle (idle : ¬ w.e4.recovers) :
    replayLog w = (some false, { w with committed := [], lastCommitSeq := 0 }) := by
  rw [replayLog, Cmd.modify_bind]
  by_cases absent : w.e4.dev = none ∨ Sb.journalInum w.e4.sb = 0
  · exact congrFun (if_pos absent) _
  · have clean : w.e4.featIncompat &&& featIncompatRecover = 0 := by
      by_contra set
      exact idle ⟨absent, set⟩
    exact congrFun ((if_neg absent).trans (if_pos clean)) _

theorem ready_iff {jin : Bytes} (extents : Ino.flags jin &&& inoFlagExtents ≠ 0) :
    w.ready jin ↔ ¬ ((if w.heap.full w.heap.calls then none else some ()) = none ∨
      (if w.heap.full (w.heap.calls + 1) then none else some ()) = none) := by
  simp [World.ready, extents]

theorem two_buffers {t : World} (hsize : w.e4.blockSize ≠ 0) (hheap : t.heap = w.heap) :
    kmalloc w.e4.blockSize t = (if w.heap.full w.heap.calls then none else some (), t.allocated 1) ∧
      kmalloc w.e4.blockSize (t.allocated 1) =
        (if w.heap.full (w.heap.calls + 1) then none else some (), t.allocated 2) := by
  constructor
  · rw [kmalloc_eq hsize, hheap]
  · rw [kmalloc_eq hsize, ← hheap]
    rfl

theorem Sound.replayLog (sound : Sound w d) (due : w.e4.recovers) :
    Replays d w (w.journal d (w.disk d)) (replayLog w) := by
  obtain ⟨present, recover⟩ := due
  have hsize : w.e4.blockSize ≠ 0 := Nat.pos_iff_ne_zero.mp sound.blockSize_pos
  generalize hw0 : ({ w with committed := [], lastCommitSeq := 0 } : World) = w0
  have view0 : View w w0 := hw0 ▸ ⟨⟨rfl, fun _ => rfl, fun _ _ => rfl, fun _ _ => rfl, rfl⟩, rfl⟩
  have hjin0 : w0.jin = w.jin := hw0 ▸ rfl
  have hdisk0 : w0.disk d = w.disk d := hw0 ▸ rfl
  have read := (view0.sound sound).readInode (Sb.journalInum w.e4.sb) w.jin
  rw [Reads, hdisk0, view0.inodeOn] at read
  rw [Fs.replayLog, Cmd.modify_bind, hw0, Cmd.get_bind, view0.e4, hjin0, if_neg present,
    if_neg recover, World.journal]
  refine Cmd.Ends.bind (read.mono (fun _ _ h => h) fun m hm => ?_) fromInode_inert ?_ ?_
  · rw [hm]
    exact Partly.start _ _ _
  · rintro t ⟨like, hnone⟩
    rw [← hnone]
    exact ⟨rfl, like.e4.trans view0.e4, like.disk.trans hdisk0⟩
  · rintro jin t ⟨like, hsome⟩
    rw [← hsome, Cmd.modify_bind]
    dsimp only
    have stop : ∀ n, World.replayed w d none none (({ t with jin := jin } : World).allocated n) :=
      fun n =>
      ⟨rfl, like.e4.trans view0.e4, like.disk.trans hdisk0⟩
    by_cases extents : Ino.flags jin &&& inoFlagExtents = 0
    · have hready : ¬ w.ready jin := fun h => h.1 extents
      rw [if_pos extents, if_neg hready]
      exact Or.inl (stop 0)
    · have hheap : t.heap = w.heap := like.heap.trans (hw0 ▸ rfl)
      generalize ht1 : ({ t with jin := jin } : World) = t1 at stop ⊢
      have he41 : t1.e4 = w.e4 := ht1 ▸ like.e4.trans view0.e4
      obtain ⟨hfirst, hsecond⟩ := @two_buffers w t1 hsize (ht1 ▸ hheap)
      rw [if_neg extents, Cmd.get_bind, he41, Cmd.attempt_bind, hfirst, Cmd.attempt_bind, hsecond]
      dsimp only
      by_cases ready : w.ready jin
      · rw [if_neg ((ready_iff extents).mp ready), if_pos ready]
        refine sound.fromJsb ready.1 ?_
        subst ht1 hw0
        refine ⟨?_, like.first, like.second⟩
        rw [like.same]
        rfl
      · rw [if_pos (not_not.mp fun go => ready ((ready_iff extents).mpr go)), if_neg ready]
        exact Or.inl (stop 2)

/-! ## The reset -/

/-- The write that empties the journal, if there is one. -/
def World.emptied (w : World) (d : Nat) (data : Bytes) : List Write :=
  match w.inodeOn d data (Sb.journalInum w.e4.sb) w.jin with
  | none => []
  | some jin =>
    match w.mapsTo d data jin 0 with
    | none => []
    | some phys =>
      if phys ≠ 0 ∧ w.lands d phys then
        [(phys, put32 (put32 (w.fetch data zero phys) jsbOffStart 0) jsbOffSequence
          (u32 (w.lastCommitSeq + 1)))]
      else []

/-- The cached superblock without the RECOVER bit. -/
def recoveredSb (sb : Bytes) : Bytes :=
  let sb := Sb.putFeatureIncompat sb (clearBits32 (Sb.featureIncompat sb) featIncompatRecover)
  Sb.putChecksum sb (ext4Crc32c 0xFFFFFFFF sb 0 1020)

/-- The superblock can be written. -/
def World.syncs (w : World) (d : Nat) : Bool :=
  (w.bus.devs d).writeSectors && (w.bus.devs d).writable && !(w.bus.devs d).beyond 2 2

/-- The disk with another superblock. -/
def putSuper (data sb : Bytes) : Bytes := copy data ext4SuperOff sb 0 1024

/-- A run whose effect is at most to write one list of blocks and to change `jin`, and whose new
events are of the kind `P` exactly when the emptying of every such block is. -/
def EmptiesNoting (P : ReplayEvent → Prop) (d : Nat) (w : World) (l : List ReplayEvent)
    (ws : List Write) (r : Option Unit × Journaled) : Prop :=
  Cmd.Ends (medium (device d)) (Partly w.e4.blockSize ws (w.disk d)) (fun _ s =>
    (∃ jin, Like (({ w with jin := jin } : World).onDisk d (writeAll w.e4.blockSize ws (w.disk d)))
      s.1) ∧
      Noted P (∀ wr ∈ ws, P (.emptied wr.1)) l s.2) r

section EmptiesNoting

variable {P : ReplayEvent → Prop} {l : List ReplayEvent}

theorem empties_nothing {jin : Bytes} {s : Journaled} (like : Like { w with jin := jin } s.1)
    (hlog : s.2 = l) :
    (∃ jin, Like (({ w with jin := jin } : World).onDisk d (writeAll w.e4.blockSize [] (w.disk d)))
      s.1) ∧
      Noted P (∀ wr ∈ ([] : List Write), P (.emptied wr.1)) l s.2 := by
  refine ⟨⟨jin, ?_⟩, hlog ▸ .nothing (List.forall_mem_nil _)⟩
  have hself : ({ w with jin := jin } : World).onDisk d (w.disk d) = { w with jin := jin } :=
    onDisk_self _ d
  rw [writeAll_nil, hself]
  exact like

theorem jin_view (w : World) (jin : Bytes) : View w { w with jin := jin } :=
  ⟨⟨rfl, fun _ => rfl, fun _ _ => rfl, fun _ _ => rfl, rfl⟩, rfl⟩

theorem Like.withJin (like : Like w v) (jin : Bytes) :
    Like { w with jin := jin } { v with jin := jin } := by
  refine ⟨?_, like.first, like.second⟩
  rw [like.same]

theorem Sound.empty_logged (sound : Sound w d) (l : List ReplayEvent) :
    EmptiesNoting P d w l (w.emptied d (w.disk d)) (emptyJournalLogged (w, l)) := by
  unfold emptyJournalLogged World.emptied
  rw [lift_get_bind]
  refine Cmd.Ends.bind ((sound.readInode (Sb.journalInum w.e4.sb) w.jin).lifted l _ _) ?_ ?_ ?_
  · exact fun _ => .bind (lift_inert (modify_inert fun _ => rfl)) fun _ =>
      .bind (lift_inert (e4Bmap_inert _ _)) fun _ =>
      .ite .fail (.bind (lift_inert (readFresh_inert _)) fun _ => .bind (lift_inert .get) fun _ =>
        .bind (lift_inert (e4WriteBlock_inert _ _)) fun _ => notes_inert _)
  · rintro t ⟨⟨like, hnone⟩, hlog⟩
    rw [← hnone]
    exact empties_nothing like hlog
  rintro jin ⟨t, k⟩ ⟨⟨found, hsome⟩, hlog⟩
  subst hlog
  rw [← hsome, lift_modify_bind]
  dsimp only
  have like := found.withJin jin
  generalize ({ t with jin := jin } : World) = t1 at like ⊢
  have view : View w t1 := (jin_view w jin).trans like.view
  have hdisk : t1.disk d = w.disk d := like.disk
  have bmap := (view.sound sound).bmap jin (Or.inr (by decide : 0 < 12))
  rw [view.mapsTo] at bmap
  have mapped := bmap.lifted k w.e4.blockSize
  rw [hdisk] at mapped
  refine Cmd.Ends.bind (mapped _) ?_ ?_ ?_
  · exact fun _ => .ite .fail (.bind (lift_inert (readFresh_inert _)) fun _ =>
      .bind (lift_inert .get) fun _ =>
      .bind (lift_inert (e4WriteBlock_inert _ _)) fun _ => notes_inert _)
  · rintro t2 ⟨⟨next, hnone⟩, hlog⟩
    rw [← hnone]
    exact empties_nothing (like.trans next) hlog
  rintro phys ⟨t2, k2⟩ ⟨⟨next, hphys⟩, hlog⟩
  subst hlog
  have small : phys < 562949953421312 := mapsTo_small hphys.symm
  rw [← hphys]
  dsimp only
  by_cases hole : phys = 0
  · rw [if_pos hole, if_neg (fun h => h.1 hole)]
    exact Or.inl (empties_nothing (like.trans next) rfl)
  rw [if_neg hole]
  have view2 : View w t2 := view.trans next.view
  have read : Reads d (Fs.readFresh phys) t2 _ := (view2.sound sound).readFresh phys
  have hdisk2 : t2.disk d = w.disk d := next.disk.trans hdisk
  rw [view2.reaches, view2.fetch] at read
  have fetched := read.lifted k2 w.e4.blockSize
  rw [hdisk2] at fetched
  refine Cmd.Ends.bind (fetched _) ?_ ?_ ?_
  · exact fun _ => .bind (lift_inert .get) fun _ =>
      .bind (lift_inert (e4WriteBlock_inert _ _)) fun _ => notes_inert _
  · rintro t3 ⟨⟨after, hnone⟩, hlog⟩
    have far : ¬ w.reaches d phys := by
      intro near
      rw [if_pos near] at hnone
      cases hnone
    rw [if_neg (by simp [World.lands, far])]
    exact empties_nothing ((like.trans next).trans after) hlog
  rintro buf ⟨t3, k3⟩ ⟨⟨after, hbuf⟩, hlog⟩
  subst hlog
  have near : w.reaches d phys := by
    by_contra far
    rw [if_neg far] at hbuf
    cases hbuf
  rw [if_pos near] at hbuf
  cases hbuf
  have same := (like.trans next).trans after
  have view3 : View w t3 := view2.trans after.view
  rw [lift_get_bind, same.lastCommitSeq]
  have write := (view3.sound sound).write small (put32 (put32 (w.fetch (w.disk d) zero phys)
    jsbOffStart 0) jsbOffSequence (u32 (w.lastCommitSeq + 1)))
  have hdisk3 : t3.disk d = w.disk d := same.disk
  rw [view3.lands, hdisk3] at write
  refine Cmd.Ends.bind ((lift_ends write k3).mono (fun _ _ h => h) fun m hm =>
    hm ▸ Partly.start _ _ _)
    (fun _ => notes_inert _) ?_ ?_
  · rintro u ⟨done, hlog⟩
    by_cases lands : w.lands d phys
    · rw [if_pos lands] at done
      cases done.1
    · rw [if_neg lands] at done
      rw [if_neg (fun h => lands h.2)]
      exact empties_nothing (same.trans done.2) hlog
  · rintro o ⟨u, m⟩ ⟨done, hlog⟩
    subst hlog
    by_cases lands : w.lands d phys
    · rw [if_pos lands, same.e4] at done
      rw [if_pos ⟨hole, lands⟩]
      refine Or.inl ⟨⟨jin, (same.onDisk d _).trans done.2⟩,
        List.forall_mem_append.trans (and_congr_right fun _ => ?_)⟩
      rw [List.forall_mem_singleton, List.forall_mem_singleton]
    · rw [if_neg lands] at done
      cases done.1

end EmptiesNoting

theorem Static.emptied (view : Static w v) (hjin : v.jin = w.jin)
    (hlast : v.lastCommitSeq = w.lastCommitSeq) (d : Nat) (data : Bytes) :
    v.emptied d data = w.emptied d data := by
  simp only [World.emptied, view.inodeOn, view.mapsTo, view.lands, view.fetch, view.e4, hjin, hlast]

/-- The mount after the reset. -/
def Ext4Fs.recovered (e4 : Ext4Fs) : Ext4Fs :=
  { e4 with
    featIncompat := clearBits32 e4.featIncompat featIncompatRecover
    sb := recoveredSb e4.sb }

/-- The disk after the reset. -/
def World.resetDisk (w : World) (d : Nat) (data : Bytes) : Bytes :=
  let emptied := writeAll w.e4.blockSize (w.emptied d data) data
  if w.syncs d then putSuper emptied (recoveredSb w.e4.sb) else emptied

theorem Static.syncs (view : Static w v) (d : Nat) : v.syncs d = w.syncs d := by
  rw [World.syncs, view.devs]
  rfl

theorem Sound.sync (sound : Sound w d) :
    Cmd.Ends (device d) (· = w.disk d) (fun _ v => v.e4 = w.e4 ∧
      v.disk d = if w.syncs d then putSuper (w.disk d) w.e4.sb else w.disk d)
      (e4SyncSuperblock w) := by
  rcases sound.alive_or_dead with alive | dead
  · left
    unfold e4SyncSuperblock World.syncs blkWrite
    simp only [sound.dev]
    cases (w.bus.devs d).writeSectors with
    | false => simp
    | true =>
      cases (w.bus.devs d).writable with
      | false => simp
      | true =>
        by_cases far : (w.bus.devs d).beyond 2 2
        · simp [far, ext4SuperOff]
        · simp only [ext4SuperOff, far, Bus.moved, alive]
          exact ⟨trivial, disk_setData _ _ _⟩
  · exact Or.inr (e4SyncSuperblock_inert.lost dead)

theorem Sound.reset_logged (sound : Sound w d) (inum : Sb.journalInum w.e4.sb ≠ 0)
    {P : ReplayEvent → Prop} (cleared : P .cleared) (l : List ReplayEvent) :
    Cmd.Ends (medium (device d)) (Partly w.e4.blockSize
      (if w.heap.full w.heap.calls then [] else w.emptied d (w.disk d)) (w.disk d)) (fun r s =>
      (r = some () ∧
        if w.heap.full w.heap.calls then s.1 = w.allocated 1
        else s.1.e4 = w.e4.recovered ∧ s.1.disk d = w.resetDisk d (w.disk d)) ∧
      Noted P (∀ wr ∈ if w.heap.full w.heap.calls then [] else w.emptied d (w.disk d),
        P (.emptied wr.1)) l s.2) (e4JournalResetLogged (w, l)) := by
  have hsize : w.e4.blockSize ≠ 0 := Nat.pos_iff_ne_zero.mp sound.blockSize_pos
  have hgo : ¬ (w.e4.dev = none ∨ Sb.journalInum w.e4.sb = 0) := by
    rw [sound.dev]
    simpa using inum
  have hview := allocated_view w 1
  unfold e4JournalResetLogged
  rw [lift_get_bind, if_neg hgo, attempt_lift_bind, kmalloc_eq hsize]
  by_cases full : w.heap.full w.heap.calls
  · simp only [full, if_true]
    exact Or.inl ⟨⟨rfl, rfl⟩, .nothing (List.forall_mem_nil _)⟩
  · simp only [full, Bool.false_eq_true, if_false]
    have empties := (hview.sound sound).empty_logged (P := P) l
    have hdisk : (w.allocated 1).disk d = w.disk d := rfl
    have he4 : (w.allocated 1).e4 = w.e4 := rfl
    rw [EmptiesNoting, hview.emptied rfl rfl] at empties
    refine Cmd.Ends.ignore_bind empties ?_ ?_
    · exact .bind (lift_inert (modify_inert fun _ => rfl)) fun _ =>
        .bind (lift_inert (.get_bind fun _ => modify_inert fun _ => rfl)) fun _ =>
          .ignore (.bind (lift_inert e4SyncSuperblock_inert) fun _ => notes_inert _)
    · rintro a ⟨t, k⟩ ⟨⟨jin, like⟩, noted⟩
      have view : View w t :=
        (hview.trans (jin_view _ jin)).trans ((onDisk_view _ d _).trans like.view)
      have hdisk' : t.disk d = writeAll w.e4.blockSize (w.emptied d (w.disk d)) (w.disk d) :=
        like.disk.trans (onDisk_disk _ _ _)
      obtain ⟨hdev, hcuts, hsectors, hsmall, hblock⟩ := view.sound sound
      have sync := Sound.sync (w := { t with e4 := t.e4.recovered }) ⟨hdev, hcuts, hsectors,
        hsmall, hblock⟩
      have hdisk'' : ({ t with e4 := t.e4.recovered } : World).disk d = t.disk d := rfl
      have hsyncs : ({ t with e4 := t.e4.recovered } : World).syncs d = w.syncs d := view.syncs d
      rw [hdisk'', hdisk', hsyncs] at sync
      have synced : Cmd.Ends (device d) (Partly w.e4.blockSize (w.emptied d (w.disk d)) (w.disk d))
        (fun _ u =>
          u.e4 = w.e4.recovered ∧ u.disk d = w.resetDisk d (w.disk d))
          (e4SyncSuperblock { t with e4 := t.e4.recovered }) := by
        refine sync.mono ?_ fun m hm => hm ▸ Partly.all _ _ _
        rintro b u ⟨he4', hdisku⟩
        constructor
        · rw [he4', view.e4]
        · rw [hdisku, view.e4]
          rfl
      refine (Cmd.Ends.bind (R :=
        fun _ s => (s.1.e4 = w.e4.recovered ∧ s.1.disk d = w.resetDisk d (w.disk d)) ∧
        Noted P (∀ wr ∈ w.emptied d (w.disk d), P (.emptied wr.1)) l s.2) (lift_ends synced k)
        (fun _ => notes_inert _) ?_ ?_).ignore fun _ _ h => ⟨⟨rfl, h.1⟩, h.2⟩
      · rintro u ⟨done, hlog⟩
        exact ⟨done, hlog ▸ noted⟩
      · rintro o ⟨u, m⟩ ⟨done, hlog⟩
        subst hlog
        refine Or.inl ⟨done, (noted.trans (Noted.after_note (.nothing trivial))).congr ?_⟩
        exact and_iff_left ⟨cleared, trivial⟩

theorem Sound.reset (sound : Sound w d) (inum : Sb.journalInum w.e4.sb ≠ 0) :
    Cmd.Ends (device d) (Partly w.e4.blockSize
      (if w.heap.full w.heap.calls then [] else w.emptied d (w.disk d)) (w.disk d)) (fun r v =>
      r = some () ∧
      if w.heap.full w.heap.calls then v = w.allocated 1
      else v.e4 = w.e4.recovered ∧ v.disk d = w.resetDisk d (w.disk d)) (e4JournalReset w) :=
  e4JournalResetLogged_logs.ends [] ((sound.reset_logged inum (P := fun _ => True) trivial []).mono
    (fun _ _ h => h.1) fun _ h => h)

/-! ## Both -/

/-- The blocks that the log puts in place. -/
def World.tagged (w : World) (d : Nat) (data : Bytes) : List Write :=
  w.redoOf d data (w.journal d data)

/-- The disk with these blocks in place. -/
def World.redone (w : World) (d : Nat) (data : Bytes) : Bytes :=
  writeAll w.e4.blockSize (w.tagged d data) data

/-- There is memory for the buffer of the reset. -/
def World.resets (w : World) : Bool := !w.heap.full (w.heap.calls + 3)

/-- The write of the journal superblock, if there is one. -/
def World.jsbWrite (w : World) (d : Nat) (data : Bytes) : List Write :=
  match w.journal d data with
  | none => []
  | some j => if w.resets then (w.opened d data j).emptied d (w.redone d data) else []

/-- The disk after a replay that found a journal. -/
def World.recoveredDisk (w : World) (d : Nat) (data : Bytes) : Bytes :=
  let emptied := writeAll w.e4.blockSize (w.tagged d data ++ w.jsbWrite d data) data
  if w.resets && w.syncs d then putSuper emptied (recoveredSb w.e4.sb) else emptied

theorem opened_view (w : World) (d : Nat) (data : Bytes) (j : Journal) :
    View w (w.opened d data j) :=
  ⟨⟨rfl, fun _ => rfl, fun _ _ => rfl, fun _ _ => rfl, rfl⟩, rfl⟩

theorem opened_jin (w : World) (d : Nat) (data : Bytes) (j : Journal) :
    (w.opened d data j).jin = j.jin := rfl

theorem opened_lastCommitSeq (w : World) (d : Nat) (data : Bytes) (j : Journal) :
    (w.opened d data j).lastCommitSeq = (w.scanOf d data j.jin j.jsb j.jblocks).lastCommitSeq := rfl

theorem Sound.replay (sound : Sound w d) (due : w.e4.recovers) :
    Cmd.Ends (device d)
      (Partly w.e4.blockSize (w.tagged d (w.disk d) ++ w.jsbWrite d (w.disk d)) (w.disk d))
      (fun r v =>
        (w.journal d (w.disk d) = none → r = none ∧ v.e4 = w.e4 ∧ v.disk d = w.disk d) ∧
        ∀ j, w.journal d (w.disk d) = some j → r = some () ∧
          v.e4 = (if w.resets then w.e4.recovered else w.e4) ∧
          v.disk d = w.recoveredDisk d (w.disk d)) (e4JournalReplay w) := by
  have log := sound.replayLog due
  have inum : Sb.journalInum w.e4.sb ≠ 0 := (not_or.mp due.1).2
  rw [e4JournalReplay_eq]
  refine Cmd.Ends.bind (log.mono (fun _ _ h => h) fun m hm => hm.append_left) ?_ ?_ ?_
  · exact fun _ => .ite e4JournalReset_inert (.pure ())
  · intro t ht
    cases hfound : w.journal d (w.disk d) with
    | none =>
      rw [hfound] at ht
      exact ⟨fun _ => ⟨rfl, ht.2⟩, fun j hj => by cases hj⟩
    | some j =>
      rw [hfound] at ht
      cases ht.1
  · intro go t ht
    cases hfound : w.journal d (w.disk d) with
    | none =>
      rw [hfound] at ht
      cases ht.1
    | some j =>
      rw [hfound] at ht
      obtain ⟨hgo, like⟩ := ht
      cases hgo
      have hview : View w t := (opened_view w d _ j).trans ((onDisk_view _ d _).trans like.view)
      have hredone : t.disk d = w.redone d (w.disk d) := by
        rw [like.disk, onDisk_disk, World.redone, World.tagged, hfound]
      have hemptied : t.emptied d (w.redone d (w.disk d)) =
          (w.opened d (w.disk d) j).emptied d (w.redone d (w.disk d)) :=
        ((onDisk_view _ d _).trans like.view).emptied like.jin like.lastCommitSeq d _
      have hfull : t.heap.full t.heap.calls = w.heap.full (w.heap.calls + 3) := by
        rw [like.heap]
        rfl
      have reset := (hview.sound sound).reset (hview.e4 ▸ inum)
      rw [hredone, hemptied, hfull, hview.e4] at reset
      -- the list of the reset is `jsbWrite`, with or without memory for its buffer
      have hjsb : (if w.heap.full (w.heap.calls + 3) then []
          else (w.opened d (w.disk d) j).emptied d (w.redone d (w.disk d))) =
              w.jsbWrite d (w.disk d) := by
        rw [World.jsbWrite, hfound]
        cases hmem : w.heap.full (w.heap.calls + 3) with
        | true => simp [World.resets, hmem]
        | false => simp [World.resets, hmem]
      rw [hjsb] at reset
      refine reset.mono ?_ fun m hm => hm.append_right
      rintro r v ⟨hr, hv⟩
      refine ⟨fun hnone => (by cases hnone), fun _ _ => ⟨hr, ?_⟩⟩
      rw [World.recoveredDisk, writeAll_append, ← hjsb]
      by_cases full : w.heap.full (w.heap.calls + 3)
      · rw [if_pos full] at hv
        subst hv
        simp only [World.resets, full, Bool.not_true, Bool.false_and, if_true]
        exact ⟨hview.e4, hredone⟩
      · rw [if_neg full] at hv
        rw [World.resetDisk, hemptied, hview.syncs, hview.e4] at hv
        simp only [World.resets, full, Bool.not_false, Bool.true_and, if_true]
        exact hv

theorem replayLog_inert : Cmd.Inert (device d) replayLog :=
  .bind (modify_inert fun _ => rfl) fun _ => .get_bind fun _ => .ite (.pure false)
    (.ite (.pure false) (.bind (e4ReadInode_inert _ _) fromInode_inert))

theorem e4JournalReplay_inert : Cmd.Inert (device d) e4JournalReplay := by
  rw [e4JournalReplay_eq]
  exact .bind replayLog_inert fun _ => .ite e4JournalReset_inert (.pure ())

/-! ## A sample journal -/

/-- A disk of 1 KiB blocks: superblock with RECOVER and journal inode 8, one group descriptor
with the inode table at block 5, and a journal of eight blocks from block 20 on whose log
starts at its block 2. -/
def journalDisk : Bytes :=
  let sb := put32 (put32 zero (1024 + 0x60) 0x44) (1024 + 0xE0) 8
  let gd := put32 sb (2048 + 8) 5
  let ino := put32 (put32 (put16 gd 6016 0x8180) (6016 + 0x04) 8192) (6016 + 0x20) inoFlagExtents
  let root := put16 (put16 (put16 ino (6016 + 0x28) extentMagic) (6016 + 0x2A) 1) (6016 + 0x2C) 4
  let extent := put32 (put16 root (6016 + 0x38) 8) (6016 + 0x3C) 20
  put32 (put32 (put32 extent (20480 + jsbOffBlocksize) 1024) (20480 + jsbOffMaxlen) 8)
    (20480 + jsbOffFirst) 2

/-- The first octets of a block of the log. -/
def journalBlock (kind seq : UInt8) (rest : List UInt8) : List UInt8 :=
  [0xC0, 0x3B, 0x39, 0x98, 0, 0, 0, kind, 0, 0, 0, seq] ++ rest

/-- A tag for a block below 256. -/
def journalTag (target flags : UInt8) : List UInt8 := [0, 0, 0, target, 0, 0, 0, flags, 0, 0, 0, 0]

/-- The disk with other first octets in some blocks of the journal. -/
def withLog (disk : Bytes) : List (Nat × List UInt8) → Bytes
  | [] => disk
  | (i, octets) :: rest => ofList (withLog disk rest) (20480 + i * 1024) octets

/-- The filesystem of such a disk, mounted up to the replay. -/
def journalWorld (disk : Bytes) : World where
  bus := ⟨fun _ => ⟨256, true, true, disk⟩, 1, fun _ _ => none, 0⟩
  heap := ⟨fun _ => false, 0⟩
  e4 := { Ext4Fs.zeroed with
    dev := some 0
    blockSize := 1024
    sectorsPerBlock := 2
    blocksCount := 128
    inodesCount := 16
    blocksPerGroup := 8192
    inodesPerGroup := 16
    groupCount := 1
    firstDataBlock := 1
    inodeSize := 128
    descSize := 32
    featIncompat := Sb.featureIncompat (blockAt disk 1024 1)
    writable := true
    sb := blockAt disk 1024 1
    gdt := blockAt disk 1024 2 }
  scratch1 := zero
  scratch2 := zero
  stackJunk := zero
  jin := zero
  committed := []
  lastCommitSeq := 0

theorem journalWorld_sound (disk : Bytes) : Sound (journalWorld disk) 0 := by
  refine ⟨rfl, fun _ => Or.inl fun _ => rfl, ?_, ?_, ?_⟩
  · exact Nat.two_pos
  · exact (by decide : 2 ≤ 16)
  · exact (by decide : 1024 = 2 * 512)

end Obsidian.Fs
