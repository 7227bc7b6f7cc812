import Obsidian.Fs.Spared

/-!
# Records of the inode table

The record of an inode is a run of octets on the disk, in one block or in two. Reading
an inode copies them to a buffer; writing one replaces them and changes nothing else.
-/
namespace Obsidian.Fs
open Lib Lib.Bytes Drivers

variable {w w' w'' : World} {d b ino : Nat} {data data' buf : Bytes}

/-! ## Writes by octets -/

/-- The same mount with `data` on device `d`; the descriptors and the superblock in memory are
the same too. -/
structure Rewrote (w w' : World) (d : Nat) (data : Bytes) : Prop where
  kept : Kept w w'
  e4 : w'.e4 = w.e4
  heap : w'.heap = w.heap
  disk : w'.disk d = data

theorem Quiet.rewrote (quiet : Quiet w w') (d : Nat) : Rewrote w w' d (w.disk d) :=
  ⟨quiet.kept, quiet.e4, quiet.heap, quiet.disk d⟩

theorem Rewrote.trans (first : Rewrote w w' d data) (second : Rewrote w' w'' d data') :
    Rewrote w w'' d data' :=
  ⟨first.kept.trans second.kept, second.e4.trans first.e4, second.heap.trans first.heap,
    second.disk⟩

theorem Quiet.then_rewrote (quiet : Quiet w w') (wrote : Rewrote w' w'' d data) :
    Rewrote w w'' d data :=
  (quiet.rewrote d).trans wrote

theorem Transfers.rewrote (t : Transfers w d) (inside : b < w.e4.blocksCount) (buf : Bytes) :
    ∃ w', e4WriteBlock b buf w = (some (), w') ∧ w'.scratch1 = w.scratch1 ∧
      Rewrote w w' d (copy (w.disk d) (b * w.e4.blockSize) buf 0 w.e4.blockSize) := by
  refine ⟨_, t.write inside buf, rfl, ⟨rfl, ?_, rfl⟩, rfl, rfl, ?_⟩
  · intro e
    exact setData_kept _ _ _ _
  · unfold World.disk
    simp only [Bus.tick, disk_setData]

theorem Transfers.editBlock (t : Transfers w d) (inside : b < w.e4.blocksCount) (src : Bytes)
    (off : Nat) {s n : Nat} (fits : off + n ≤ w.e4.blockSize) (edit : World → Bytes)
    (edits : ∀ v, v.e4 = w.e4 → edit v = copy v.scratch1 off src s n) :
    ∃ w', Fs.editBlock b edit w = (some (), w') ∧
      Rewrote w w' d (copy (w.disk d) (b * w.e4.blockSize + off) src s n) := by
  have hread := t.readScratch1 inside
  generalize hw1 : { w with
    bus := w.bus.tick
    scratch1 := copy w.scratch1 0 (w.disk d) (b * w.e4.blockSize) w.e4.blockSize } = w1 at hread
  generalize hw2 : { w1 with scratch1 := edit w1 } = w2
  have quiet : Quiet w w2 := by
    subst hw2 hw1
    exact ⟨rfl, rfl, rfl, rfl⟩
  have hedit : w2.scratch1 = copy (copy w.scratch1 0 (w.disk d) (b * w.e4.blockSize) w.e4.blockSize)
      off src s n := by
    rw [← hw2]
    refine (edits w1 ?_).trans ?_
    · rw [← hw1]
    · rw [← hw1]
  obtain ⟨w', hwrite, _, wrote⟩ := (t.kept quiet.kept).rewrote (b :=
    b) (by rw [quiet.e4]; exact inside) w2.scratch1
  refine ⟨w', ?_, ?_⟩
  · unfold Fs.editBlock
    have hset : setScratch1 (edit w1) w1 = (some (), w2) := by
      rw [← hw2]
      rfl
    rw [Cmd.bind_some hread, Cmd.get_bind, Cmd.bind_some hset, Cmd.get_bind, hwrite]
  · rw [quiet.disk, quiet.e4, hedit, copy_edit _ _ _ _ _ fits] at wrote
    exact quiet.then_rewrote wrote

/-! ## Records -/

/-- Where the record of an inode starts on the disk. -/
def Ext4Fs.inodeAt (e4 : Ext4Fs) (ino : Nat) : Nat :=
  e4.inodeBlk ino * e4.blockSize + e4.inodeOff ino

/-- The record lies in one block of the filesystem, or in two. -/
structure RecordInside (e4 : Ext4Fs) (ino : Nat) : Prop where
  present : e4.hasInode ino
  short : e4.inodeSize ≤ e4.blockSize
  small : e4.blockSize ≤ 65536
  blocks : ∀ c ∈ e4.inodeBlocks ino, c < e4.blocksCount

theorem Transfers.count_small (t : Transfers w d) : w.e4.blocksCount < 18446744073709551616 :=
  Nat.lt_of_le_of_lt (Nat.le_mul_of_pos_right _ t.sectors) t.span

variable {e4 : Ext4Fs}

theorem RecordInside.off_le (inside : RecordInside e4 ino) : e4.inodeOff ino ≤ e4.blockSize := by
  have hshort := inside.short
  unfold Ext4Fs.inodeOff
  by_cases zero : e4.blockSize = 0
  · have hzero : e4.inodeSize = 0 := by omega
    simp [Ext4Fs.inodeByte, hzero]
  · exact Nat.le_of_lt (Nat.mod_lt _ (by omega))

theorem RecordInside.inOneBlock (inside : RecordInside e4 ino) :
    e4.inOneBlock ino ↔ e4.inodeOff ino + e4.inodeSize ≤ e4.blockSize := by
  have hshort := inside.short
  have hsmall := inside.small
  have hoff := inside.off_le
  unfold Ext4Fs.inOneBlock
  rw [u32_of_lt (by omega)]

theorem RecordInside.next_place (inside : RecordInside e4 ino) :
    (e4.inodeBlk ino + 1) * e4.blockSize + 0 =
    e4.inodeAt ino + (e4.blockSize - e4.inodeOff ino) := by
  have hoff := inside.off_le
  unfold Ext4Fs.inodeAt
  rw [Nat.succ_mul]
  omega

theorem RecordInside.second (inside : RecordInside e4 ino) (two : ¬ e4.inOneBlock ino)
    (count : e4.blocksCount < 18446744073709551616) :
    e4.inodeBlk ino < e4.blocksCount ∧ u64 (e4.inodeBlk ino + 1) = e4.inodeBlk ino + 1 ∧
      e4.inodeBlk ino + 1 < e4.blocksCount := by
  have hblocks := inside.blocks
  unfold Ext4Fs.inodeBlocks at hblocks
  rw [if_neg two] at hblocks
  have hfirst := hblocks _ List.mem_cons_self
  have hsecond := hblocks _ (List.mem_cons_of_mem _ List.mem_cons_self)
  have hnext : u64 (e4.inodeBlk ino + 1) = e4.inodeBlk ino + 1 := u64_of_lt (by omega)
  rw [hnext] at hsecond
  exact ⟨hfirst, hnext, hsecond⟩

theorem RecordInside.first (inside : RecordInside e4 ino) : e4.inodeBlk ino < e4.blocksCount := by
  have hblocks := inside.blocks
  unfold Ext4Fs.inodeBlocks at hblocks
  split at hblocks
  · exact hblocks _ List.mem_cons_self
  · exact hblocks _ List.mem_cons_self

theorem e4ReadInode_eq (present : w.e4.hasInode ino) (out : Bytes) : e4ReadInode ino out w =
    (readScratch1 (w.e4.inodeBlk ino) >>= fun _ =>
      if w.e4.inOneBlock ino then
        Cmd.get >>= fun v => pure (copy out 0 v.scratch1 (w.e4.inodeOff ino) v.e4.inodeSize)
      else readScratch2 (u64 (w.e4.inodeBlk ino + 1)) >>= fun _ => Cmd.get >>= fun v =>
        pure (copy (copy out 0 v.scratch1 (w.e4.inodeOff ino) (v.e4.blockSize - w.e4.inodeOff ino))
          (v.e4.blockSize - w.e4.inodeOff ino) v.scratch2 0
          (v.e4.inodeSize - (v.e4.blockSize - w.e4.inodeOff ino)))) w := by
  have hgo : ¬ (ino < 1 ∨ w.e4.inodesCount < ino) := by
    unfold Ext4Fs.hasInode at present
    omega
  rw [e4ReadInode, Cmd.get_bind, if_neg hgo]
  rfl

theorem Transfers.readInode (t : Transfers w d) (inside : RecordInside w.e4 ino) (out : Bytes) :
    ∃ w', e4ReadInode ino out w =
    (some (copy out 0 (w.disk d) (w.e4.inodeAt ino) w.e4.inodeSize), w') ∧
      Quiet w w' := by
  have hread := t.readScratch1 inside.first
  generalize hw1 : { w with
    bus := w.bus.tick
    scratch1 := copy w.scratch1 0 (w.disk d) (w.e4.inodeBlk ino * w.e4.blockSize) w.e4.blockSize } =
      w1 at hread
  have quiet : Quiet w w1 := by
    subst hw1
    exact ⟨rfl, rfl, rfl, rfl⟩
  have hbuf : w1.scratch1 = copy w.scratch1 0 (w.disk d) (w.e4.inodeBlk ino * w.e4.blockSize)
      w.e4.blockSize := by
    rw [← hw1]
  rw [e4ReadInode_eq inside.present, Cmd.bind_some hread]
  by_cases one : w.e4.inOneBlock ino
  · have hfits := inside.inOneBlock.mp one
    refine ⟨w1, ?_, quiet⟩
    rw [if_pos one, Cmd.get_bind, hbuf, quiet.e4, copy_of_copy _ _ _ _ _ hfits]
    rfl
  · have hfits := mt inside.inOneBlock.mpr one
    obtain ⟨_, hnext, hsecond⟩ := inside.second one t.count_small
    have hread2 := (t.kept quiet.kept).readScratch2 (b := w.e4.inodeBlk ino + 1)
      (by rw [quiet.e4]; exact hsecond)
    have hshort := inside.short
    refine ⟨_, ?_, quiet.trans (readScratch2_quiet (w.e4.inodeBlk ino + 1) w1)⟩
    rw [if_neg one, hnext, Cmd.bind_some hread2, Cmd.get_bind, hread2]
    simp only [quiet.e4, quiet.disk, hbuf]
    have hoff := inside.off_le
    rw [copy_of_copy _ _ _ _ _
      (by omega : w.e4.inodeOff ino + (w.e4.blockSize - w.e4.inodeOff ino) ≤ w.e4.blockSize),
      copy_of_copy _ _ _ _ _
        (by omega : 0 + (w.e4.inodeSize - (w.e4.blockSize - w.e4.inodeOff ino)) ≤ w.e4.blockSize)]
    have hjoin := copy_split out (w.disk d) 0 (w.e4.inodeAt ino)
      (by omega : w.e4.blockSize - w.e4.inodeOff ino ≤ w.e4.inodeSize)
    rw [Nat.zero_add] at hjoin
    rw [← hjoin]
    rw [inside.next_place]
    rfl

theorem Transfers.writeInode (t : Transfers w d) (inside : RecordInside w.e4 ino) (inode : Bytes) :
    ∃ w', e4WriteInode ino inode w = (some (), w') ∧
      Rewrote w w' d (copy (w.disk d) (w.e4.inodeAt ino) inode 0 w.e4.inodeSize) := by
  have hgo : ¬ (ino < 1 ∨ w.e4.inodesCount < ino ∨ w.e4.writable = false) := by
    have := inside.present
    unfold Ext4Fs.hasInode at this
    rw [t.writable]
    simp only [Bool.true_eq_false, or_false]
    omega
  rw [e4WriteInode_eq, if_neg hgo]
  by_cases one : w.e4.inOneBlock ino
  · rw [if_pos one]
    exact t.editBlock inside.first inode _ (inside.inOneBlock.mp one) _ fun v same => by rw [same]
  · have hfits := mt inside.inOneBlock.mpr one
    have hshort := inside.short
    obtain ⟨_, hnext, hsecond⟩ := inside.second one t.count_small
    have hoff := inside.off_le
    obtain ⟨w1, hfirst, wrote⟩ := t.editBlock inside.first inode (w.e4.inodeOff ino) (s := 0)
      (by omega : w.e4.inodeOff ino + (w.e4.blockSize - w.e4.inodeOff ino) ≤ w.e4.blockSize)
      (fun v => copy v.scratch1 (w.e4.inodeOff ino) inode 0 (w.e4.blockSize - w.e4.inodeOff ino))
        fun v _ => rfl
    obtain ⟨w2, hlast, wrote'⟩ := (t.kept wrote.kept).editBlock (b := w.e4.inodeBlk ino + 1)
      (by rw [wrote.e4]; exact hsecond) inode 0 (s := w.e4.blockSize - w.e4.inodeOff ino)
      (n := w.e4.inodeSize - (w.e4.blockSize - w.e4.inodeOff ino)) (by rw [wrote.e4]; omega)
      (fun v => copy v.scratch1 0 inode (w.e4.blockSize - w.e4.inodeOff ino)
        (v.e4.inodeSize - (w.e4.blockSize - w.e4.inodeOff ino))) fun v same => by rw [same,
          wrote.e4]
    refine ⟨w2, ?_, ?_⟩
    · rw [if_neg one, Cmd.bind_some hfirst, hnext, hlast]
    · have hjoin := copy_split (w.disk d) inode (w.e4.inodeAt ino) 0
        (by omega : w.e4.blockSize - w.e4.inodeOff ino ≤ w.e4.inodeSize)
      rw [Nat.zero_add] at hjoin
      rw [wrote.disk, wrote.e4, inside.next_place] at wrote'
      rw [← hjoin]
      exact wrote.trans wrote'

end Obsidian.Fs
