import Obsidian.Fs.ExtentRead

/-!
# The sectors of a block

Source: fs/ext4_core.c, `e4_read_block` and `e4_write_block`, over drivers/block/blkdev.c,
`blk_read` and `blk_write`. The first sector of a block is a product in 64 bits, and the
test against the size of the device a sum in 64 bits.
-/
namespace Obsidian.Fs
open Lib Lib.Bytes Drivers

variable {w : World} {d block : Nat}

/-- `d->read_sectors(lba, count, buf)` -/
def Bus.readSectors (bus : Bus) (d lba count : Nat) (buf : Bytes) : Bool × Bytes × Bus :=
  ((bus.fault bus.ios lba).isNone,
    copy buf 0 (bus.devs d).data (lba * sectorSize) (bus.moved lba count * sectorSize), bus.tick)

/-- `d->write_sectors(lba, count, buf)` -/
def Bus.writeSectors (bus : Bus) (d lba count : Nat) (buf : Bytes) : Bool × Bus :=
  ((bus.fault bus.ios lba).isNone,
    (bus.setData d (copy (bus.devs d).data (lba * sectorSize) buf 0
      (bus.moved lba count * sectorSize))).tick)

/-- The sector after the last one of a block. -/
def Ext4Fs.endOf (e4 : Ext4Fs) (block : Nat) : Nat :=
  block * e4.sectorsPerBlock + e4.sectorsPerBlock

/-- `e4_read_block` fails before the driver is called, or the driver is asked for the sectors
of the block and the device has them. -/
def ReadExact (w : World) (d block : Nat) : Prop :=
  (∀ buf, e4ReadBlock block buf w = (false, buf, w)) ∨
    w.e4.endOf block ≤ (w.bus.devs d).sectors ∧ ∀ buf, e4ReadBlock block buf w =
      let r := Bus.readSectors w.bus d (block * w.e4.sectorsPerBlock) w.e4.sectorsPerBlock buf
      (r.1, r.2.1, { w with bus := r.2.2 })

/-- The same of `e4_write_block`. -/
def WriteExact (w : World) (d block : Nat) : Prop :=
  (∀ buf, e4WriteBlock block buf w = (none, w)) ∨
    w.e4.endOf block ≤ (w.bus.devs d).sectors ∧ ∀ buf, e4WriteBlock block buf w =
      let r := Bus.writeSectors w.bus d (block * w.e4.sectorsPerBlock) w.e4.sectorsPerBlock buf
      (if r.1 then some () else none, { w with bus := r.2 })

/-- The test of `blk_read` and `blk_write` sees the end of the block in 64 bits. -/
theorem beyond_block (nonempty : 0 < (w.bus.devs d).sectors) :
    (w.bus.devs d).beyond (u64 (block * w.e4.sectorsPerBlock)) w.e4.sectorsPerBlock = true ↔
      (w.bus.devs d).sectors < u64 (w.e4.endOf block) := by
  have wrapped : u64 (u64 (block * w.e4.sectorsPerBlock) + w.e4.sectorsPerBlock) =
      u64 (w.e4.endOf block) := by
    unfold Ext4Fs.endOf u64
    omega
  unfold BlkDevice.beyond
  rw [decide_eq_true_iff, wrapped]
  exact and_iff_left (Nat.ne_of_gt nonempty)

section
variable (dev : w.e4.dev = some d)
include dev

section
variable (nonempty : 0 < (w.bus.devs d).sectors)
include nonempty

theorem e4ReadBlock_reaches (some_sectors : w.e4.sectorsPerBlock ≠ 0)
    (passes : ¬ (w.bus.devs d).sectors < u64 (w.e4.endOf block)) (buf : Bytes) :
    e4ReadBlock block buf w =
      let r := Bus.readSectors w.bus d (u64 (block * w.e4.sectorsPerBlock)) w.e4.sectorsPerBlock buf
      (r.1, r.2.1, { w with bus := r.2.2 }) := by
  have admitted := mt (@beyond_block w d block nonempty).1 passes
  unfold e4ReadBlock blkRead Bus.readSectors
  simp only [dev, some_sectors, admitted, reduceCtorEq, if_false]

theorem e4ReadBlock_refused
    (refused : w.e4.sectorsPerBlock = 0 ∨ (w.bus.devs d).sectors < u64 (w.e4.endOf block))
    (buf : Bytes) :
    e4ReadBlock block buf w = (false, buf, w) := by
  unfold e4ReadBlock blkRead
  rw [dev]
  rcases refused with no_sectors | outside
  · simp [no_sectors]
  · simp [(@beyond_block w d block nonempty).2 outside]

theorem readExact_iff (width : (w.bus.devs d).sectors < 18446744073709551616) :
    ReadExact w d block ↔
      w.e4.endOf block < 18446744073709551616 ∨ (w.bus.devs d).sectors < u64
      (w.e4.endOf block) := by
  by_cases refused : w.e4.sectorsPerBlock = 0 ∨ (w.bus.devs d).sectors < u64 (w.e4.endOf block)
  · have untouched : ReadExact w d block := Or.inl (e4ReadBlock_refused dev nonempty refused)
    refine iff_of_true untouched ?_
    rcases refused with no_sectors | outside
    · left
      rw [Ext4Fs.endOf, no_sectors]
      omega
    · exact Or.inr outside
  · obtain ⟨some_sectors, passes⟩ := not_or.1 refused
    have reaches := e4ReadBlock_reaches dev nonempty some_sectors passes
    constructor
    · rintro (untouched | ⟨inside, _⟩)
      · -- the driver was called, so the transfer is counted
        have counted := congrArg (fun r : Bool × Bytes × World => r.2.2.bus.ios)
          ((untouched zero).symm.trans (reaches zero))
        exact absurd counted (Nat.ne_of_lt (Nat.lt_succ_self w.bus.ios))
      · exact Or.inl (Nat.lt_of_le_of_lt inside width)
    · rintro (small | outside)
      · have start : u64 (block * w.e4.sectorsPerBlock) = block * w.e4.sectorsPerBlock := by
          apply u64_of_lt
          unfold Ext4Fs.endOf at small
          omega
        rw [u64_of_lt small, Nat.not_lt] at passes
        rw [start] at reaches
        exact Or.inr ⟨passes, reaches⟩
      · exact absurd outside passes

theorem writeExact_of
    (addressed : w.e4.endOf block < 18446744073709551616 ∨
      (w.bus.devs d).sectors < u64 (w.e4.endOf block)) :
    WriteExact w d block := by
  by_cases closed : w.e4.writable = false ∨ w.e4.sectorsPerBlock = 0 ∨
    (w.bus.devs d).writeSectors = false ∨
      (w.bus.devs d).writable = false ∨ (w.bus.devs d).sectors < u64 (w.e4.endOf block)
  · left
    intro buf
    unfold e4WriteBlock blkWrite
    rw [dev]
    rcases closed with off | no_sectors | no_entry | off | outside
    · simp [off]
    · simp [no_sectors]
    · simp [no_entry]
    · simp [off]
    · simp [(@beyond_block w d block nonempty).2 outside]
  · obtain ⟨on, some_sectors, entry, dev_on, passes⟩ : w.e4.writable ≠ false ∧
      w.e4.sectorsPerBlock ≠ 0 ∧
        (w.bus.devs d).writeSectors ≠ false ∧ (w.bus.devs d).writable ≠ false ∧
        ¬ (w.bus.devs d).sectors < u64 (w.e4.endOf block) := by
      simpa only [not_or] using closed
    have small := addressed.resolve_right passes
    have start : u64 (block * w.e4.sectorsPerBlock) = block * w.e4.sectorsPerBlock := by
      apply u64_of_lt
      unfold Ext4Fs.endOf at small
      omega
    have admitted := mt (@beyond_block w d block nonempty).1 passes
    rw [u64_of_lt small, Nat.not_lt] at passes
    right
    refine ⟨passes, fun buf => ?_⟩
    rw [start] at admitted
    unfold e4WriteBlock blkWrite Bus.writeSectors
    simp only [dev, on, some_sectors, entry, dev_on, start, admitted, reduceCtorEq,
      if_false, or_self]

end

end

/-- On a device of known size: reads and writes of a block fail untouched or use the sectors
of the block just when the end of the block fits in 64 bits, or what is left of it there lies
beyond the device. -/
theorem block_io_exact_iff (w : World) (d block : Nat) (dev : w.e4.dev = some d)
    (nonempty : 0 < (w.bus.devs d).sectors)
    (width : (w.bus.devs d).sectors < 18446744073709551616) :
    ReadExact w d block ∧ WriteExact w d block ↔
      w.e4.endOf block < 18446744073709551616 ∨ (w.bus.devs d).sectors < u64
      (w.e4.endOf block) := by
  constructor
  · intro exact
    exact (readExact_iff dev nonempty width).1 exact.1
  · intro addressed
    exact ⟨(readExact_iff dev nonempty width).2 addressed, writeExact_of dev nonempty addressed⟩

theorem block_io_exact_iff_tree :
    treeWorld.e4.dev = some 0 ∧ ReadExact treeWorld 0 5 ∧ WriteExact treeWorld 0 5 :=
  ⟨rfl, (block_io_exact_iff treeWorld 0 5 rfl (by decide) (by decide)).2 (Or.inl (by decide))⟩

/-- Blocks of two sectors on a device of 128: a write of block 2^63 succeeds and lands in the
first sectors of the device, and a read of that block ends up there as well. -/
theorem block_address_wraps :
    (e4WriteBlock 9223372036854775808 (fun _ => 7) treeWorld).1 = some () ∧
      ((e4WriteBlock 9223372036854775808 (fun _ => 7) treeWorld).2.disk 0) 0 = 7 ∧
      e4ReadBlock 9223372036854775808 zero treeWorld = e4ReadBlock 0 zero treeWorld ∧
      ¬ ReadExact treeWorld 0 9223372036854775808 := by
  have wrapped := mt (@readExact_iff treeWorld 0 9223372036854775808 rfl (by decide) (by decide)).1
  exact ⟨by decide, by decide, rfl, wrapped (by decide)⟩

end Obsidian.Fs
