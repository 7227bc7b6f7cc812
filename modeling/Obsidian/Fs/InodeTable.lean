import Obsidian.Fs.BlockIo

/-!
# The inode table

Where an inode record lies, and what reading one does to the two scratch buffers,
whether or not the transfers succeed.
-/
namespace Obsidian.Fs
open Lib Lib.Bytes Drivers

/-- Offset of a record in the inode table of its group. -/
def Ext4Fs.inodeByte (e4 : Ext4Fs) (ino : Nat) : Nat := (ino - 1) % e4.inodesPerGroup * e4.inodeSize

/-- The block a record starts in. -/
def Ext4Fs.inodeBlk (e4 : Ext4Fs) (ino : Nat) : Nat :=
  u64 (inodeTableBlock e4 ino + e4.inodeByte ino / e4.blockSize)

/-- Offset of a record in that block. -/
def Ext4Fs.inodeOff (e4 : Ext4Fs) (ino : Nat) : Nat := e4.inodeByte ino % e4.blockSize

/-- The record lies in one block, by the driver's test. -/
def Ext4Fs.inOneBlock (e4 : Ext4Fs) (ino : Nat) : Prop :=
  u32 (e4.inodeOff ino + e4.inodeSize) ≤ e4.blockSize

instance (e4 : Ext4Fs) (ino : Nat) : Decidable (e4.inOneBlock ino) := inferInstanceAs
    (Decidable (_ ≤ _))

/-- Inode numbers of the filesystem. -/
def Ext4Fs.hasInode (e4 : Ext4Fs) (ino : Nat) : Prop := 1 ≤ ino ∧ ino ≤ e4.inodesCount

instance (e4 : Ext4Fs) (ino : Nat) : Decidable (e4.hasInode ino) := inferInstanceAs
    (Decidable (_ ∧ _))

variable {w : World} {ino : Nat} {out : Bytes}

theorem e4ReadInode_absent (absent : ¬ w.e4.hasInode ino) : e4ReadInode ino out w = (none, w) := by
  rw [e4ReadInode, Cmd.get_bind, if_pos (by unfold Ext4Fs.hasInode at absent; omega)]
  rfl

/-- The state after the first of the two reads. -/
def World.firstRead (w : World) (ino : Nat) : World := (readScratch1 (w.e4.inodeBlk ino) w).2

/-- The first read succeeds. -/
def World.firstReads (w : World) (ino : Nat) : Prop :=
  (readScratch1 (w.e4.inodeBlk ino) w).1 = some ()

instance (w : World) (ino : Nat) : Decidable (w.firstReads ino) :=
  inferInstanceAs (Decidable (_ = some ()))

variable (b : Nat)

theorem readScratch1_e4 (w : World) : (readScratch1 b w).2.e4 = w.e4 := by
  unfold readScratch1 e4ReadBlock
  split
  · rfl
  · rfl

theorem readScratch1_scratch2 (w : World) : (readScratch1 b w).2.scratch2 = w.scratch2 := by
  unfold readScratch1 e4ReadBlock
  split
  · rfl
  · rfl

theorem readScratch2_e4 (w : World) : (readScratch2 b w).2.e4 = w.e4 := by
  unfold readScratch2 e4ReadBlock
  split
  · rfl
  · rfl

theorem readScratch2_scratch1 (w : World) : (readScratch2 b w).2.scratch1 = w.scratch1 := by
  unfold readScratch2 e4ReadBlock
  split
  · rfl
  · rfl

/-- Reading an inode ends in the state after the first read, or after the second when the
record needs one and the first succeeded. -/
theorem e4ReadInode_state (present : w.e4.hasInode ino) : (e4ReadInode ino out w).2 =
      if ¬ w.firstReads ino ∨ w.e4.inOneBlock ino then w.firstRead ino
      else (readScratch2 (u64 (w.e4.inodeBlk ino + 1)) (w.firstRead ino)).2 := by
  have hgo : ¬ (ino < 1 ∨ w.e4.inodesCount < ino) := by
    unfold Ext4Fs.hasInode at present
    omega
  rw [e4ReadInode, Cmd.get_bind, if_neg hgo]
  show ((readScratch1 (w.e4.inodeBlk ino) >>= fun _ => _) w).2 = _
  by_cases reads : w.firstReads ino
  · have hread : readScratch1 (w.e4.inodeBlk ino) w = (some (), w.firstRead ino) :=
      Prod.ext reads rfl
    rw [Cmd.bind_some hread]
    by_cases fits : w.e4.inOneBlock ino
    · rw [if_pos (Or.inr fits)]
      show ((if w.e4.inOneBlock ino then _ else _ : Cmd World Bytes) _).2 = _
      rw [if_pos fits]
      rfl
    · have hboth : ¬ (¬ w.firstReads ino ∨ w.e4.inOneBlock ino) := by simp [reads, fits]
      rw [if_neg hboth]
      show ((if w.e4.inOneBlock ino then _ else _ : Cmd World Bytes) _).2 = _
      rw [if_neg fits]
      show ((readScratch2 (u64 (w.e4.inodeBlk ino + 1)) >>= fun _ => _) (w.firstRead ino)).2 = _
      rw [Cmd.bind_apply]
      cases hsecond : readScratch2 (u64 (w.e4.inodeBlk ino + 1)) (w.firstRead ino) with
      | mk r w₂ =>
        cases r with
        | none => rfl
        | some u => rfl
  · have hread : readScratch1 (w.e4.inodeBlk ino) w = (none, w.firstRead ino) := by
      refine Prod.ext ?_ rfl
      cases hr : (readScratch1 (w.e4.inodeBlk ino) w).1 with
      | none => rfl
      | some u => exact absurd hr reads
    rw [Cmd.bind_none hread, if_pos (Or.inl reads)]

theorem e4ReadInode_e4 (ino : Nat) (out : Bytes) (w : World) :
    (e4ReadInode ino out w).2.e4 = w.e4 := by
  by_cases present : w.e4.hasInode ino
  · rw [e4ReadInode_state present]
    split
    · exact readScratch1_e4 _ _
    · rw [readScratch2_e4]
      exact readScratch1_e4 _ _
  · rw [e4ReadInode_absent present]

theorem e4ReadInode_scratch1 (present : w.e4.hasInode ino) :
    (e4ReadInode ino out w).2.scratch1 = (w.firstRead ino).scratch1 := by
  rw [e4ReadInode_state present]
  split
  · rfl
  · exact readScratch2_scratch1 _ _

theorem e4ReadInode_scratch2 (present : w.e4.hasInode ino) : (e4ReadInode ino out w).2.scratch2 =
      if ¬ w.firstReads ino ∨ w.e4.inOneBlock ino then w.scratch2
      else (readScratch2 (u64 (w.e4.inodeBlk ino + 1)) (w.firstRead ino)).2.scratch2 := by
  rw [e4ReadInode_state present]
  split
  · exact readScratch1_scratch2 _ _
  · rfl

end Obsidian.Fs
