import Obsidian.Fs.InodeTable
import Obsidian.Fs.Journal
import Obsidian.Lib.Cut
import Obsidian.Lib.Redo

/-!
# Losing the device

A device whose every later transfer fails without moving a sector is lost. Every
command of the driver then leaves the medium alone. `Sound` is a device that works
until it is lost, if it ever is; under it one block transfer either does what it
should or finds the device lost.
-/
namespace Obsidian.Fs
open Lib Lib.Bytes Lib.Redo Drivers

/-- No later transfer moves anything. -/
def World.dead (w : World) : Prop := ∀ k, w.bus.ios ≤ k → ∀ lba, w.bus.fault k lba = some 0

/-- The medium of device `d`; which transfers fail is not in the hands of the driver. -/
def device (d : Nat) : Medium World (Nat → Nat → Option Nat) Bytes :=
  ⟨fun w => w.bus.fault, World.dead, fun w => w.disk d⟩

/-! ## Nothing happens on a lost device -/

/-- At most the transfer count differs. -/
structure Idle (bus bus' : Bus) : Prop where
  devs : bus'.devs = bus.devs
  fault : bus'.fault = bus.fault
  ios : bus.ios ≤ bus'.ios

theorem Idle.refl (bus : Bus) : Idle bus bus := ⟨rfl, rfl, Nat.le_refl _⟩

theorem blkRead_idle (bus : Bus) (dev : Option Nat) (lba count : Nat) (buf : Bytes) :
    Idle bus (blkRead bus dev lba count buf).2.2 := by
  unfold blkRead
  split
  · exact .refl bus
  · split
    · exact .refl bus
    · split
      · exact .refl bus
      · exact ⟨rfl, rfl, Nat.le_succ _⟩

theorem blkWrite_fault (bus : Bus) (dev : Option Nat) (lba count : Nat) (buf : Bytes) :
    (blkWrite bus dev lba count buf).2.fault = bus.fault := by
  unfold blkWrite
  split
  · rfl
  · split
    · rfl
    · split
      · rfl
      · rfl

theorem blkWrite_idle {bus : Bus} (lba : Nat) (lost : bus.fault bus.ios lba = some 0)
    (dev : Option Nat) (count : Nat) (buf : Bytes) :
    Idle bus (blkWrite bus dev lba count buf).2 := by
  unfold blkWrite
  split
  · exact .refl bus
  next d =>
    split
    · exact .refl bus
    · split
      · exact .refl bus
      · have hnone : bus.moved lba count * sectorSize = 0 := by
          simp only [Bus.moved, lost, Nat.zero_min, Nat.zero_mul]
        have hcopy : copy (bus.devs d).data (lba * sectorSize) buf 0 0 = (bus.devs d).data := by
          funext j
          exact if_neg (by omega)
        refine ⟨?_, rfl, Nat.le_succ _⟩
        show (bus.setData d _).devs = bus.devs
        rw [hnone, hcopy, setData_self]

variable {d : Nat} {α : Type} {c : Cmd World α} {w : World}

theorem inert_of_idle (fault : ∀ w, (c w).2.bus.fault = w.bus.fault)
    (idle : ∀ w : World, w.dead → Idle w.bus (c w).2.bus) : Cmd.Inert (device d) c := by
  refine fun w => ⟨fault w, fun dead => ?_⟩
  obtain ⟨hdevs, hfault, hios⟩ := idle w dead
  refine ⟨?_, ?_⟩
  · intro k hk lba
    rw [hfault]
    exact dead k (Nat.le_trans hios hk) lba
  · show ((c w).2.bus.devs d).data = (w.bus.devs d).data
    rw [hdevs]

theorem read_inert (idle : ∀ w : World, Idle w.bus (c w).2.bus) : Cmd.Inert (device d) c :=
  inert_of_idle (fun w => (idle w).fault) fun w _ => idle w

theorem modify_inert {g : World → World} (bus : ∀ w, (g w).bus = w.bus) :
    Cmd.Inert (device d) (Cmd.modify g) :=
  read_inert fun w => by
    rw [Cmd.modify_apply, bus]
    exact .refl _

variable (b : Nat)

theorem e4ReadBlock_idle (buf : Bytes) (w : World) : Idle w.bus (e4ReadBlock b buf w).2.2.bus := by
  unfold e4ReadBlock
  split
  · exact .refl _
  · exact blkRead_idle _ _ _ _ _

theorem readScratch1_inert : Cmd.Inert (device d) (readScratch1 b) :=
  read_inert fun w => e4ReadBlock_idle b w.scratch1 w

theorem readScratch2_inert : Cmd.Inert (device d) (readScratch2 b) :=
  read_inert fun w => e4ReadBlock_idle b w.scratch2 w

theorem readFresh_inert : Cmd.Inert (device d) (readFresh b) :=
    read_inert fun w => e4ReadBlock_idle b zero w

theorem e4WriteBlock_inert (buf : Bytes) : Cmd.Inert (device d) (e4WriteBlock b buf) := by
  apply inert_of_idle
  · intro w
    unfold e4WriteBlock
    split
    · rfl
    · exact blkWrite_fault _ _ _ _ _
  · intro w dead
    unfold e4WriteBlock
    split
    · exact .refl _
    · exact blkWrite_idle _ (dead _ (Nat.le_refl _) _) _ _ _

theorem e4SyncSuperblock_inert : Cmd.Inert (device d) e4SyncSuperblock :=
  inert_of_idle (fun _ => blkWrite_fault _ _ _ _ _) fun _ dead =>
    blkWrite_idle _ (dead _ (Nat.le_refl _) _) _ _ _

theorem kmalloc_inert (size : Nat) : Cmd.Inert (device d) (kmalloc size) :=
  .get_bind fun _ => .ite .fail (.bind (modify_inert fun _ => rfl) fun _ => .ite .fail (.pure ()))

theorem e4ReadInode_inert (ino : Nat) (out : Bytes) : Cmd.Inert (device d) (e4ReadInode ino out) :=
  .get_bind fun _ => .ite .fail (.bind (readScratch1_inert _) fun _ =>
    .ite (.get_bind fun _ => .pure _) (.bind (readScratch2_inert _) fun _ => .get_bind fun _ =>
      .pure _))

theorem extentDescend_inert (inode : Bytes) (logical depth node : Nat) :
    Cmd.Inert (device d) (extentDescend inode logical depth node) := by
  induction depth generalizing node with
  | zero => exact .pure _
  | succ depth ih =>
    refine .bind (readScratch1_inert node) fun _ => .get_bind fun w => ?_
    split
    · exact .fail
    · exact ih _

theorem indirectWalk_inert (remaining bpp level ind : Nat) :
    Cmd.Inert (device d) (indirectWalk remaining bpp level ind) := by
  induction level generalizing ind with
  | zero => exact .pure _
  | succ level ih => exact .ite (.pure _) (.bind (readScratch1_inert ind) fun _ =>
    .get_bind fun _ => ih _)

theorem e4Bmap_inert (inode : Bytes) (i : Nat) : Cmd.Inert (device d) (e4Bmap inode i) :=
  .ite (.ite .fail (extentDescend_inert _ _ _ _))
    (.get_bind fun _ => .ite (.pure _) (.ite (indirectWalk_inert _ _ _ _)
      (.ite (indirectWalk_inert _ _ _ _) (indirectWalk_inert _ _ _ _))))

theorem jread_inert (i : Nat) : Cmd.Inert (device d) (jread i) :=
  .get_bind fun _ => .bind (e4Bmap_inert _ _) fun _ => .ite .fail (readFresh_inert _)

theorem noteCommit_inert (seq : Nat) : Cmd.Inert (device d) (noteCommit seq) :=
  modify_inert fun w => by
    show (if w.committed.contains seq then w else _).bus = w.bus
    split
    · rfl
    · rfl

theorem journalScan_inert (more i : Nat) (rev : Bytes) :
    Cmd.Inert (device d) (journalScan more i rev) := by
  induction more generalizing i rev with
  | zero => exact .pure rev
  | succ more ih =>
    refine .bind (.attempt (jread_inert i)) fun r => ?_
    cases r with
    | none => exact ih _ _
    | some buf =>
      exact .ite (ih _ _) (.ite (.bind (noteCommit_inert _) fun _ => ih _ _)
        (.ite (.get_bind fun _ => .ite (ih _ _) (ih _ _)) (ih _ _)))

theorem applyTags_inert (buf rev : Bytes) (cap tagsz more c off : Nat) :
    Cmd.Inert (device d) (applyTags buf rev cap tagsz more c off) := by
  induction more generalizing c off with
  | zero => exact .pure c
  | succ more ih =>
    refine .get_bind fun _ => .ite (.pure c) (.ite (.pure c) (.ite (.pure c)
      (.bind (.attempt (jread_inert c)) fun r => ?_)))
    cases r with
    | none => exact .pure c
    | some content =>
      refine .ite (ih _ _) (.bind (.attempt (e4WriteBlock_inert _ _)) fun wrote => ?_)
      cases wrote with
      | none => exact .pure c
      | some u => exact ih _ _

theorem journalApply_inert (rev : Bytes) (cap tagsz more i : Nat) :
    Cmd.Inert (device d) (journalApply rev cap tagsz more i) := by
  induction more generalizing i with
  | zero => exact .pure ()
  | succ more ih =>
    refine .ite (.pure ()) (.bind (.attempt (jread_inert i)) fun r => ?_)
    cases r with
    | none => exact ih _
    | some buf =>
      exact .get_bind fun _ => .ite (ih _) (.ite (ih _)
        (.bind (applyTags_inert _ _ _ _ _ _ _) fun _ => ih _))

theorem emptyJournal_inert : Cmd.Inert (device d) emptyJournal :=
  .get_bind fun _ => .bind (e4ReadInode_inert _ _) fun _ =>
    .bind (modify_inert fun _ => rfl) fun _ =>
    .bind (e4Bmap_inert _ _) fun _ => .ite .fail (.bind (readFresh_inert _) fun _ =>
      .get_bind fun _ => e4WriteBlock_inert _ _)

theorem e4JournalReset_inert : Cmd.Inert (device d) e4JournalReset := by
  refine .get_bind fun _ => .ite (.pure ()) (.bind (.attempt (kmalloc_inert _)) fun r => ?_)
  cases r with
  | none => exact .pure ()
  | some u =>
    exact .bind (.ignore emptyJournal_inert) fun _ => .bind (modify_inert fun _ => rfl) fun _ =>
      .bind (.get_bind fun _ => modify_inert fun _ => rfl) fun _ => .ignore e4SyncSuperblock_inert

/-- No transfer fails. -/
def World.Healthy (w : World) : Prop := ∀ k lba, w.bus.fault k lba = none

theorem World.Healthy.alive (healthy : w.Healthy) (inert : Cmd.Inert (device d) c) :
    ¬ (device d).dead (c w).2 := by
  intro dead
  have hsome : (c w).2.bus.fault (c w).2.bus.ios 0 = some 0 := dead _ (Nat.le_refl _) 0
  have hfault : (c w).2.bus.fault = w.bus.fault := (inert w).1
  rw [hfault, healthy] at hsome
  cases hsome

/-! ## One transfer -/

/-- The filesystem is on device `d`, which works until, if ever, it is lost. -/
structure Sound (w : World) (d : Nat) : Prop where
  dev : w.e4.dev = some d
  cuts : ∀ k, (∀ lba, w.bus.fault k lba = none) ∨ ∀ j, k ≤ j → ∀ lba, w.bus.fault j lba = some 0
  sectors : 0 < w.e4.sectorsPerBlock
  small : w.e4.sectorsPerBlock ≤ 16
  blockSize : w.e4.blockSize = w.e4.sectorsPerBlock * 512

theorem Sound.blockSize_pos (sound : Sound w d) : 0 < w.e4.blockSize := by
  have := sound.sectors
  rw [sound.blockSize]
  omega

/-- The state with other octets on device `d`. -/
def World.onDisk (w : World) (d : Nat) (data : Bytes) : World :=
  { w with bus := w.bus.setData d data }

/-- Where a block starts, in sectors. -/
def World.lba (w : World) (b : Nat) : Nat := u64 (b * w.e4.sectorsPerBlock)

/-- The device is large enough for a block. -/
def World.reaches (w : World) (d b : Nat) : Bool :=
  (w.bus.devs d).beyond (w.lba b) w.e4.sectorsPerBlock = false

/-- A buffer with a block read into it. -/
def World.fetch (w : World) (data buf : Bytes) (b : Nat) : Bytes :=
  copy buf 0 data (w.lba b * sectorSize) w.e4.blockSize

/-- Blocks can be written, and the device is large enough for this one. -/
def World.lands (w : World) (d b : Nat) : Bool :=
  w.e4.writable && (w.bus.devs d).writeSectors && (w.bus.devs d).writable && w.reaches d b

/-- The same state but for the transfer count and what was read into the scratch buffers. -/
structure Like (w v : World) : Prop where
  same : v = { w with
    bus := { w.bus with ios := v.bus.ios }
    scratch1 := v.scratch1
    scratch2 := v.scratch2 }
  first : ∀ i, w.e4.blockSize ≤ i → v.scratch1 i = w.scratch1 i
  second : ∀ i, w.e4.blockSize ≤ i → v.scratch2 i = w.scratch2 i

section Like

variable {w v u : World}

theorem Like.refl (w : World) : Like w w := ⟨rfl, fun _ _ => rfl, fun _ _ => rfl⟩

section
variable (like : Like w v)
include like

theorem Like.e4 : v.e4 = w.e4 := by rw [like.same]

theorem Like.jin : v.jin = w.jin := by rw [like.same]

theorem Like.heap : v.heap = w.heap := by rw [like.same]

theorem Like.junk : v.stackJunk = w.stackJunk := by rw [like.same]

theorem Like.committed : v.committed = w.committed := by rw [like.same]

theorem Like.lastCommitSeq : v.lastCommitSeq = w.lastCommitSeq := by rw [like.same]

theorem Like.devs : v.bus.devs = w.bus.devs := by rw [like.same]

theorem Like.fault : v.bus.fault = w.bus.fault := by rw [like.same]

theorem Like.disk : v.disk d = w.disk d := by rw [World.disk, like.devs, World.disk]

end

theorem Like.trans (h : Like w v) (k : Like v u) : Like w u := by
  refine ⟨?_, ?_, ?_⟩
  · rw [k.same, h.same]
  · intro i hi
    rw [k.first i (h.e4 ▸ hi), h.first i hi]
  · intro i hi
    rw [k.second i (h.e4 ▸ hi), h.second i hi]

theorem Like.sound (like : Like w v) (sound : Sound w d) : Sound v d := by
  refine ⟨?_, ?_, ?_, ?_, ?_⟩
  · rw [like.e4]
    exact sound.dev
  · rw [like.fault]
    exact sound.cuts
  · rw [like.e4]
    exact sound.sectors
  · rw [like.e4]
    exact sound.small
  · rw [like.e4]
    exact sound.blockSize

end Like

variable {w : World} {b : Nat} {buf : Bytes}

theorem ios_like (n : Nat) : Like w { w with bus := { w.bus with ios := n } } :=
    ⟨rfl, fun _ _ => rfl, fun _ _ => rfl⟩

section
variable (sound : Sound w d)
include sound

theorem Sound.alive_or_dead : (∀ lba, w.bus.fault w.bus.ios lba = none) ∨ w.dead :=
    sound.cuts w.bus.ios

theorem Sound.moved (alive : ∀ lba, w.bus.fault w.bus.ios lba = none) (b : Nat) :
    w.bus.moved (w.lba b) w.e4.sectorsPerBlock * sectorSize = w.e4.blockSize := by
  rw [Bus.moved, alive, sound.blockSize]
  rfl

theorem Sound.read (alive : ∀ lba, w.bus.fault w.bus.ios lba = none) (b : Nat) (buf : Bytes) :
    ∃ n, e4ReadBlock b buf w =
      (w.reaches d b, if w.reaches d b then w.fetch (w.disk d) buf b else buf,
        { w with bus := { w.bus with ios := n } }) := by
  have hcount : w.e4.sectorsPerBlock ≠ 0 := Nat.ne_of_gt sound.sectors
  have hsize := sound.moved alive b
  have hlba : u64 (b * w.e4.sectorsPerBlock) = w.lba b := rfl
  unfold e4ReadBlock
  rw [sound.dev, hlba]
  simp only [blkRead, if_neg hcount]
  by_cases far : (w.bus.devs d).beyond (w.lba b) w.e4.sectorsPerBlock
  · refine ⟨w.bus.ios, ?_⟩
    simp [World.reaches, far]
  · refine ⟨w.bus.ios + 1, ?_⟩
    simp [World.reaches, World.fetch, World.disk, far, hsize, alive, Bus.tick]

theorem Sound.readScratch1 (b : Nat) : Cmd.Ends (device d) (· = w.disk d) (fun r v => Like w v ∧
      r = (if w.reaches d b then some () else none) ∧
      (w.reaches d b → v.scratch1 = w.fetch (w.disk d) w.scratch1 b)) (readScratch1 b w) := by
  rcases sound.alive_or_dead with alive | dead
  · obtain ⟨n, hread⟩ := sound.read alive b w.scratch1
    left
    simp only [Fs.readScratch1, hread]
    refine ⟨⟨rfl, ?_, fun _ _ => rfl⟩, trivial, ?_⟩
    · intro i hi
      split
      · exact copy_agree _ _ _ _ _ w.e4.blockSize (i + 1) (by omega) i hi (Nat.lt_succ_self i)
      · rfl
    · intro near
      rw [if_pos near]
  · exact Or.inr ((readScratch1_inert b).lost dead)

theorem Sound.readScratch2 (b : Nat) :
    Cmd.Ends (device d) (· = w.disk d) (fun r v => Like w v ∧ v.scratch1 = w.scratch1 ∧
      r = (if w.reaches d b then some () else none) ∧
      (w.reaches d b → v.scratch2 = w.fetch (w.disk d) w.scratch2 b)) (readScratch2 b w) := by
  rcases sound.alive_or_dead with alive | dead
  · obtain ⟨n, hread⟩ := sound.read alive b w.scratch2
    left
    simp only [Fs.readScratch2, hread]
    refine ⟨⟨rfl, fun _ _ => rfl, ?_⟩, trivial, trivial, ?_⟩
    · intro i hi
      split
      · exact copy_agree _ _ _ _ _ w.e4.blockSize (i + 1) (by omega) i hi (Nat.lt_succ_self i)
      · rfl
    · intro near
      rw [if_pos near]
  · exact Or.inr ((readScratch2_inert b).lost dead)

theorem Sound.readFresh (b : Nat) : Cmd.Ends (device d) (· = w.disk d) (fun r v => Like w v ∧
      r = if w.reaches d b then some (w.fetch (w.disk d) zero b) else none) (readFresh b w) := by
  rcases sound.alive_or_dead with alive | dead
  · obtain ⟨n, hread⟩ := sound.read alive b zero
    left
    simp only [Fs.readFresh, hread]
    refine ⟨ios_like n, ?_⟩
    split
    · rfl
    · rfl
  · exact Or.inr ((readFresh_inert b).lost dead)

theorem Sound.lba_eq (small : b < 562949953421312) : w.lba b * sectorSize = b * w.e4.blockSize := by
  have hbound := Nat.mul_lt_mul_of_lt_of_le small sound.small (by decide)
  rw [World.lba, u64_of_lt (by omega), sound.blockSize, sectorSize, Nat.mul_assoc]

theorem Sound.write (small : b < 562949953421312) (buf : Bytes) :
    Cmd.Ends (device d) (· = w.disk d) (fun r v =>
      if w.lands d b then
        r = some () ∧ Like (w.onDisk d (writeBlock w.e4.blockSize (w.disk d) (b, buf))) v
      else r = none ∧ Like w v) (e4WriteBlock b buf w) := by
  rcases sound.alive_or_dead with alive | dead
  · left
    have hcount : w.e4.sectorsPerBlock ≠ 0 := Nat.ne_of_gt sound.sectors
    have hsize := sound.moved alive b
    have hlba : u64 (b * w.e4.sectorsPerBlock) = w.lba b := rfl
    unfold e4WriteBlock blkWrite
    by_cases writable : w.e4.writable
    · simp only [sound.dev, hlba, hcount, writable, World.lands, World.reaches, hsize,
        sound.lba_eq small]
      cases (w.bus.devs d).writeSectors with
      | false => simp [Like.refl]
      | true =>
        cases (w.bus.devs d).writable with
        | false => simp [Like.refl]
        | true =>
          by_cases far : (w.bus.devs d).beyond (w.lba b) w.e4.sectorsPerBlock
          · simp [far, Like.refl]
          · simp only [far, alive]
            exact ⟨rfl, rfl, fun _ _ => rfl, fun _ _ => rfl⟩
    · simp [writable, World.lands, Like.refl]
  · exact Or.inr ((e4WriteBlock_inert b buf).lost dead)

end

end Obsidian.Fs
