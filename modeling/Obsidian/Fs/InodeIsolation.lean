import Obsidian.Fs.InodeRecord

/-!
# Inode records are apart

With the inode tables of the groups apart on the disk no two records overlap, so what is
written to one inode is read back from it and from no other.
-/
namespace Obsidian.Fs
open Lib Lib.Bytes Drivers

variable {w : World} {d ino : Nat}

/-- Where the inode table of a group starts on the disk. -/
def Ext4Fs.tableAt (e4 : Ext4Fs) (g : Nat) : Nat :=
  inodeTableBlock e4 (g * e4.inodesPerGroup + 1) * e4.blockSize

/-- Octets of one inode table. -/
def Ext4Fs.tableLen (e4 : Ext4Fs) : Nat := e4.inodesPerGroup * e4.inodeSize

/-- Every inode has a place in the table of its group, the tables lie on the disk and do not
overlap. Records need not divide a block. -/
structure InodeTables (e4 : Ext4Fs) : Prop where
  perGroup : 0 < e4.inodesPerGroup
  groups : e4.inodesCount ≤ e4.groupCount * e4.inodesPerGroup
  positive : 0 < e4.inodeSize
  record : e4.inodeSize ≤ 256
  block : e4.blockSize ≤ 65536
  inside : ∀ g < e4.groupCount, e4.tableAt g + e4.tableLen ≤ e4.blocksCount * e4.blockSize
  apart : ∀ g < e4.groupCount, ∀ h < e4.groupCount, g ≠ h →
    e4.tableAt g + e4.tableLen ≤ e4.tableAt h ∨ e4.tableAt h + e4.tableLen ≤ e4.tableAt g

theorem inodeTableBlock_group (e4 : Ext4Fs) (pos : 0 < e4.inodesPerGroup) (ino : Nat) :
    inodeTableBlock e4 ((ino - 1) / e4.inodesPerGroup * e4.inodesPerGroup + 1) =
    inodeTableBlock e4 ino := by
  unfold inodeTableBlock
  simp only [Nat.add_sub_cancel, Nat.mul_div_cancel _ pos]

variable {e4 : Ext4Fs}

theorem InodeTables.group_lt (tables : InodeTables e4) (present : e4.hasInode ino) :
    (ino - 1) / e4.inodesPerGroup < e4.groupCount := by
  have hgroups := tables.groups
  unfold Ext4Fs.hasInode at present
  exact (Nat.div_lt_iff_lt_mul tables.perGroup).mpr (by omega)

theorem InodeTables.record_le (tables : InodeTables e4) (ino : Nat) :
    e4.inodeByte ino + e4.inodeSize ≤ e4.tableLen := by
  have hslot : (ino - 1) % e4.inodesPerGroup + 1 ≤ e4.inodesPerGroup := Nat.mod_lt _ tables.perGroup
  have := Nat.mul_le_mul_right e4.inodeSize hslot
  rwa [Nat.succ_mul] at this

theorem InodeTables.inodeAt (tables : InodeTables e4)
    (count : e4.blocksCount < 18446744073709551616) (present : e4.hasInode ino) :
    e4.inodeAt ino = e4.tableAt ((ino - 1) / e4.inodesPerGroup) + e4.inodeByte ino ∧
      e4.inodeBlk ino = inodeTableBlock e4 ino + e4.inodeByte ino / e4.blockSize := by
  have hinside := tables.inside _ (tables.group_lt present)
  have hrecord := tables.record_le ino
  have hpos := tables.positive
  rw [Ext4Fs.tableAt, inodeTableBlock_group e4 tables.perGroup] at hinside ⊢
  have hdiv := Nat.div_add_mod (e4.inodeByte ino) e4.blockSize
  have hplace : (inodeTableBlock e4 ino + e4.inodeByte ino / e4.blockSize) * e4.blockSize +
    e4.inodeOff ino =
      inodeTableBlock e4 ino * e4.blockSize + e4.inodeByte ino := by
    rw [Ext4Fs.inodeOff, Nat.add_mul, Nat.add_assoc, Nat.mul_comm (e4.inodeByte ino / e4.blockSize),
      hdiv]
  have hlt : inodeTableBlock e4 ino + e4.inodeByte ino / e4.blockSize < e4.blocksCount := by
    refine Nat.lt_of_mul_lt_mul_right (a := e4.blockSize) ?_
    omega
  have hblk : e4.inodeBlk ino = inodeTableBlock e4 ino + e4.inodeByte ino / e4.blockSize :=
    u64_of_lt (by omega)
  exact ⟨by rw [Ext4Fs.inodeAt, hblk, hplace], hblk⟩

theorem InodeTables.recordInside (tables : InodeTables w.e4) (t : Transfers w d)
    (present : w.e4.hasInode ino) :
    RecordInside w.e4 ino := by
  have hsize := tables.record
  have hpos := tables.positive
  have hsectors := t.sectors
  have hbs := t.blockSize
  have hcount := t.count_small
  obtain ⟨hat, hblk⟩ := tables.inodeAt hcount present
  have hinside := tables.inside _ (tables.group_lt present)
  have hrecord := tables.record_le ino
  have hend : w.e4.inodeAt ino + w.e4.inodeSize ≤ w.e4.blocksCount * w.e4.blockSize := by omega
  have hfirst : w.e4.inodeBlk ino < w.e4.blocksCount := by
    refine Nat.lt_of_mul_lt_mul_right (a := w.e4.blockSize) ?_
    unfold Ext4Fs.inodeAt at hend
    omega
  refine ⟨present, by omega, tables.block, fun c member => ?_⟩
  unfold Ext4Fs.inodeBlocks at member
  split at member
  · rw [List.mem_singleton.mp member]
    exact hfirst
  next two =>
    rcases List.mem_cons.mp member with rfl | member
    · exact hfirst
    · rw [List.mem_singleton.mp member, u64_of_lt (by omega)]
      -- the record goes on in the next block
      have hover : w.e4.blockSize < w.e4.inodeOff ino + w.e4.inodeSize := by
        have hoff : w.e4.inodeOff ino < w.e4.blockSize := Nat.mod_lt _ (by omega)
        have hblock := tables.block
        unfold Ext4Fs.inOneBlock at two
        rw [u32_of_lt (by omega)] at two
        omega
      refine Nat.lt_of_mul_lt_mul_right (a := w.e4.blockSize) ?_
      unfold Ext4Fs.inodeAt at hend
      rw [Nat.succ_mul]
      omega

theorem InodeTables.records_apart (tables : InodeTables e4)
    (count : e4.blocksCount < 18446744073709551616) {other : Nat} (present : e4.hasInode ino)
    (present' : e4.hasInode other) (different : other ≠ ino) :
    e4.inodeAt ino + e4.inodeSize ≤ e4.inodeAt other ∨
    e4.inodeAt other + e4.inodeSize ≤ e4.inodeAt ino := by
  rw [(tables.inodeAt count present).1, (tables.inodeAt count present').1]
  have hrecord := tables.record_le ino
  have hrecord' := tables.record_le other
  by_cases same : (ino - 1) / e4.inodesPerGroup = (other - 1) / e4.inodesPerGroup
  · -- two slots of one table
    rw [same]
    have hslots : (ino - 1) % e4.inodesPerGroup ≠ (other - 1) % e4.inodesPerGroup := by
      intro hmod
      have hdiv := Nat.div_add_mod (ino - 1) e4.inodesPerGroup
      have hdiv' := Nat.div_add_mod (other - 1) e4.inodesPerGroup
      rw [same, hmod] at hdiv
      unfold Ext4Fs.hasInode at present present'
      omega
    unfold Ext4Fs.inodeByte
    rcases Nat.lt_or_gt_of_ne hslots with lt | gt
    · have := Nat.mul_le_mul_right e4.inodeSize lt
      rw [Nat.succ_mul] at this
      omega
    · have := Nat.mul_le_mul_right e4.inodeSize gt
      rw [Nat.succ_mul] at this
      omega
  · rcases tables.apart _ (tables.group_lt present) _ (tables.group_lt present')
      same with before | after
    · omega
    · omega

/-- Writing an inode and reading it back gives the octets written, and every other inode reads
as before. -/
theorem inode_write_isolated (w : World) (d : Nat) (t : Transfers w d) (tables : InodeTables w.e4)
    (ino : Nat) (present : w.e4.hasInode ino) (v out : Bytes) :
    ∃ w', e4WriteInode ino v w = (some (), w') ∧
      (e4ReadInode ino out w').1 = some (copy out 0 v 0 w.e4.inodeSize) ∧
      ∀ other, other ≠ ino → (e4ReadInode other out w').1 = (e4ReadInode other out w).1 := by
  have inside := tables.recordInside t present
  obtain ⟨w', hwrite, wrote⟩ := t.writeInode inside v
  have t' := t.kept wrote.kept
  refine ⟨w', hwrite, ?_, fun other different => ?_⟩
  · obtain ⟨w'', hread, _⟩ := t'.readInode (wrote.e4 ▸ inside) out
    rw [hread, wrote.disk, wrote.e4, copy_read_back]
  · by_cases present' : w.e4.hasInode other
    · have inside' := tables.recordInside t present'
      obtain ⟨_, hread, _⟩ := t'.readInode (wrote.e4 ▸ inside') out
      obtain ⟨_, hread', _⟩ := t.readInode inside' out
      have hapart := tables.records_apart t.count_small present present' different
      rw [hread, hread', wrote.disk, wrote.e4, copy_read_apart _ _ _ hapart]
    · rw [e4ReadInode_absent present', e4ReadInode_absent (wrote.e4 ▸ present')]

/-- Three groups with eight inodes of 160 octets each; the seventh of a table lies in two blocks. -/
def threeTables : World := { threeGroups (fun _ => 0) (fun _ => 0) 0 with
  e4 := { (threeGroups (fun _ => 0) (fun _ => 0) 0).e4 with
    inodesCount := 24, inodesPerGroup := 8, inodeSize := 160,
    gdt := fun i => if i = 8 then 6 else if i = 40 then 14 else if i = 72 then 22 else 0 } }

theorem threeTables_transfers : Transfers threeTables 0 :=
  ⟨rfl, rfl, rfl, rfl, fun _ _ => rfl, by decide, rfl, Or.inr (by decide), by decide⟩

theorem threeTables_tables : InodeTables threeTables.e4 :=
  ⟨by decide, by decide, by decide, by decide, by decide, by decide, by decide⟩

/-- Inode 7, whose record spans two blocks. -/
theorem inode_write_isolated_seventh :
    ∃ w', e4WriteInode 7 (fun _ => 9) threeTables = (some (), w') ∧
      (e4ReadInode 7 zero w').1 = some (copy zero 0 (fun _ => 9) 0 160) ∧
      ∀ other, other ≠ 7 → (e4ReadInode other zero w').1 = (e4ReadInode other zero threeTables).1 :=
  inode_write_isolated threeTables 0 threeTables_transfers threeTables_tables 7 (by decide)
    (fun _ => 9) zero

end Obsidian.Fs
