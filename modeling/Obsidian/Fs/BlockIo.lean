import Obsidian.Fs.Core

/-!
# Block transfers

`Mounted w d` says that the device holds every block of the filesystem: a block read
copies the octets that the transfer moves from the disk and a block write copies them to
it, and nothing else in the state changes but the transfer count. `Transfers w d` says
that no transfer fails besides. `Kept` relates two states of the same mount.
-/
namespace Obsidian.Fs
open Lib Lib.Bytes Drivers

/-- The filesystem is on device `d`, which holds all its blocks, can be written and has no
faults. -/
structure Transfers (w : World) (d : Nat) : Prop where
  dev : w.e4.dev = some d
  writable : w.e4.writable = true
  devWritable : (w.bus.devs d).writable = true
  devWrites : (w.bus.devs d).writeSectors = true
  healthy : ∀ k lba, w.bus.fault k lba = none
  sectors : 0 < w.e4.sectorsPerBlock
  blockSize : w.e4.blockSize = w.e4.sectorsPerBlock * 512
  room : (w.bus.devs d).sectors = 0 ∨
    w.e4.blocksCount * w.e4.sectorsPerBlock ≤ (w.bus.devs d).sectors
  span : w.e4.blocksCount * w.e4.sectorsPerBlock < 18446744073709551616

/-- The octets on a device. -/
def World.disk (w : World) (d : Nat) : Bytes := (w.bus.devs d).data

/-- The octets of a block of `bs` octets. -/
def blockAt (disk : Bytes) (bs b : Nat) : Bytes := fun i => disk (b * bs + i)

/-- Same mount: block operations change the superblock and descriptors in memory, the
octets on the devices, buffers and counters; the memory of the heap does not matter. -/
structure Kept (w w' : World) : Prop where
  e4 : w'.e4 = { w.e4 with sb := w'.e4.sb, gdt := w'.e4.gdt }
  devs : ∀ d, w'.bus.devs d = { w.bus.devs d with data := (w'.bus.devs d).data }
  fault : w'.bus.fault = w.bus.fault

variable {w w' w'' : World} {d b : Nat} {buf : Bytes}

theorem Kept.trans (h : Kept w w') (k : Kept w' w'') : Kept w w'' := by
  constructor
  · rw [k.e4, h.e4]
  · intro d
    rw [k.devs, h.devs]
  · exact k.fault.trans h.fault

theorem Kept.blockSize (k : Kept w w') : w'.e4.blockSize = w.e4.blockSize := by rw [k.e4]

section
variable (t : Transfers w d)
include t

theorem Transfers.kept (k : Kept w w') : Transfers w' d := by
  constructor
  · rw [k.e4]
    exact t.dev
  · rw [k.e4]
    exact t.writable
  · rw [k.devs]
    exact t.devWritable
  · rw [k.devs]
    exact t.devWrites
  · rw [k.fault]
    exact t.healthy
  · rw [k.e4]
    exact t.sectors
  · rw [k.e4]
    exact t.blockSize
  · rw [k.e4, k.devs]
    exact t.room
  · rw [k.e4]
    exact t.span

theorem Transfers.place (inside : b < w.e4.blocksCount) :
    u64 (b * w.e4.sectorsPerBlock) = b * w.e4.sectorsPerBlock ∧
      (w.bus.devs d).beyond (b * w.e4.sectorsPerBlock) w.e4.sectorsPerBlock = false := by
  have hnext : b * w.e4.sectorsPerBlock + w.e4.sectorsPerBlock ≤
      w.e4.blocksCount * w.e4.sectorsPerBlock := by
    have := Nat.mul_le_mul_right w.e4.sectorsPerBlock inside
    rwa [Nat.succ_mul] at this
  have hspan := t.span
  refine ⟨u64_of_lt (by omega), ?_⟩
  rw [BlkDevice.beyond, u64_of_lt (by omega)]
  rcases t.room with hzero | hroom
  · simp [hzero]
  · simp only [decide_eq_false_iff_not, not_and_or]
    exact Or.inl (by omega)

theorem Transfers.offset (b : Nat) :
    b * w.e4.sectorsPerBlock * sectorSize = b * w.e4.blockSize := by
  rw [t.blockSize, sectorSize, Nat.mul_assoc]

/-! ## Patterns of failing transfers -/

/-- The state with another pattern of failures. -/
def World.withFaults (w : World) (fault : Nat → Nat → Option Nat) : World :=
  { w with bus := { w.bus with fault := fault } }

/-- The filesystem is on device `d`, which holds all its blocks and can be written. Which
transfers fail is left open. -/
def Mounted (w : World) (d : Nat) : Prop := Transfers (w.withFaults fun _ _ => none) d

theorem Transfers.mounted : Mounted w d :=
  ⟨t.dev, t.writable, t.devWritable, t.devWrites, fun _ _ => rfl, t.sectors, t.blockSize,
    t.room, t.span⟩

end

theorem Kept.mounted (k : Kept w w') (m : Mounted w d) : Mounted w' d :=
  Transfers.kept m ⟨k.e4, k.devs, rfl⟩

/-- The transfer of block `b` with number `n` succeeds. -/
def World.succeeds (w : World) (n b : Nat) : Bool :=
  (w.bus.fault n (b * w.e4.sectorsPerBlock)).isNone

/-- Octets that a transfer of block `b` moves if it is the one with number `n`. -/
def World.movedOctets (w : World) (n b : Nat) : Nat :=
  match w.bus.fault n (b * w.e4.sectorsPerBlock) with
  | none => w.e4.blockSize
  | some k => min k w.e4.sectorsPerBlock * 512

theorem Kept.succeeds (k : Kept w w') (n b : Nat) : w'.succeeds n b = w.succeeds n b := by
  unfold World.succeeds
  rw [k.fault, k.e4]

theorem Kept.movedOctets (k : Kept w w') (n b : Nat) : w'.movedOctets n b = w.movedOctets n b := by
  unfold World.movedOctets
  rw [k.fault, k.e4]

theorem movedOctets_succeeds {n : Nat} (done : w.succeeds n b = true) :
    w.movedOctets n b = w.e4.blockSize := by
  rw [World.succeeds, Option.isNone_iff_eq_none] at done
  rw [World.movedOctets, done]

section
variable (m : Mounted w d)
include m

theorem Mounted.movedOctets_le (n b : Nat) : w.movedOctets n b ≤ w.e4.blockSize := by
  have hsize : w.e4.blockSize = w.e4.sectorsPerBlock * 512 := m.blockSize
  unfold World.movedOctets
  split
  · exact Nat.le_refl _
  · rw [hsize]
    exact Nat.mul_le_mul_right 512 (Nat.min_le_right _ _)

theorem Mounted.moved (b : Nat) :
    w.bus.moved (b * w.e4.sectorsPerBlock) w.e4.sectorsPerBlock * sectorSize =
    w.movedOctets w.bus.ios b := by
  have hsize : w.e4.blockSize = w.e4.sectorsPerBlock * 512 := m.blockSize
  rw [Bus.moved, World.movedOctets, hsize]
  cases w.bus.fault w.bus.ios (b * w.e4.sectorsPerBlock) with
  | none => rfl
  | some k => rfl

section
variable (inside : b < w.e4.blocksCount)
include inside

theorem Mounted.place : u64 (b * w.e4.sectorsPerBlock) = b * w.e4.sectorsPerBlock ∧
      (w.bus.devs d).beyond (b * w.e4.sectorsPerBlock) w.e4.sectorsPerBlock = false := by
  have := Transfers.place m inside
  exact this

theorem Mounted.read (buf : Bytes) :
    e4ReadBlock b buf w = (w.succeeds w.bus.ios b,
      copy buf 0 (w.disk d) (b * w.e4.blockSize) (w.movedOctets w.bus.ios b),
      { w with bus := w.bus.tick }) := by
  obtain ⟨hlba, hbeyond⟩ := m.place inside
  have hoffset : b * w.e4.sectorsPerBlock * sectorSize = b * w.e4.blockSize := Transfers.offset m b
  have hdev : w.e4.dev = some d := m.dev
  have hcount : w.e4.sectorsPerBlock ≠ 0 := Nat.ne_of_gt m.sectors
  rw [e4ReadBlock, hdev]
  simp only [blkRead, hlba, if_neg hcount, hbeyond, m.moved, hoffset]
  rfl

theorem Mounted.write (buf : Bytes) : e4WriteBlock b buf w =
      (if w.succeeds w.bus.ios b then some () else none, { w with
        bus := (w.bus.setData d (copy (w.disk d) (b * w.e4.blockSize) buf 0
          (w.movedOctets w.bus.ios b))).tick }) := by
  obtain ⟨hlba, hbeyond⟩ := m.place inside
  have hoffset : b * w.e4.sectorsPerBlock * sectorSize = b * w.e4.blockSize := Transfers.offset m b
  have hdev : w.e4.dev = some d := m.dev
  have hwritable : w.e4.writable = true := m.writable
  have hdevWrites : (w.bus.devs d).writeSectors = true := m.devWrites
  have hdevWritable : (w.bus.devs d).writable = true := m.devWritable
  have hcount : w.e4.sectorsPerBlock ≠ 0 := Nat.ne_of_gt m.sectors
  have hgo : ¬ (w.e4.dev = none ∨ w.e4.writable = false) := by
    rw [hdev, hwritable]
    simp
  have hallowed : ¬ (w.e4.sectorsPerBlock = 0 ∨ (w.bus.devs d).writeSectors = false ∨
      (w.bus.devs d).writable = false) := by
    rw [hdevWrites, hdevWritable]
    simpa using hcount
  rw [e4WriteBlock, if_neg hgo, hdev]
  simp only [blkWrite, hlba, if_neg hallowed, hbeyond, m.moved, hoffset]
  rfl

end

end

section
variable (t : Transfers w d)
include t

theorem Transfers.succeeds (n b : Nat) : w.succeeds n b = true := by
  rw [World.succeeds, t.healthy]
  rfl

theorem Transfers.movedOctets (n b : Nat) : w.movedOctets n b = w.e4.blockSize :=
    movedOctets_succeeds (t.succeeds n b)

/-! ## Transfers without failures -/

section
variable (inside : b < w.e4.blocksCount)
include inside

theorem Transfers.read (buf : Bytes) :
    e4ReadBlock b buf w = (true, copy buf 0 (w.disk d) (b * w.e4.blockSize) w.e4.blockSize,
        { w with bus := w.bus.tick }) := by
  rw [t.mounted.read inside, t.succeeds, t.movedOctets]

theorem Transfers.write (buf : Bytes) : e4WriteBlock b buf w =
      (some (), { w with bus :=
        (w.bus.setData d (copy (w.disk d) (b * w.e4.blockSize) buf 0 w.e4.blockSize)).tick }) := by
  rw [t.mounted.write inside, t.succeeds, t.movedOctets, if_pos rfl]

theorem Transfers.readScratch1 : readScratch1 b w = (some (), { w with
      bus := w.bus.tick
      scratch1 := copy w.scratch1 0 (w.disk d) (b * w.e4.blockSize) w.e4.blockSize }) := by
  simp only [Fs.readScratch1, t.read inside, if_true]

theorem Transfers.readScratch2 : readScratch2 b w = (some (), { w with
      bus := w.bus.tick
      scratch2 := copy w.scratch2 0 (w.disk d) (b * w.e4.blockSize) w.e4.blockSize }) := by
  simp only [Fs.readScratch2, t.read inside, if_true]

end

end

/-! ## Blocks as octets -/

variable (bus : Bus)

theorem disk_setData (d : Nat) (data : Bytes) : ((bus.setData d data).devs d).data = data := by
  simp [Bus.setData]

theorem setData_kept (d : Nat) (data : Bytes) (e : Nat) :
    (bus.setData d data).devs e =
    { bus.devs e with data := ((bus.setData d data).devs e).data } := by
  by_cases same : e = d
  · subst same
    simp [Bus.setData]
  · simp [Bus.setData, same]

theorem setData_self (d : Nat) : bus.setData d (bus.devs d).data = bus := by
  have hdevs : (bus.setData d (bus.devs d).data).devs = bus.devs := by
    funext e
    by_cases same : e = d
    · subst same
      simp [Bus.setData]
    · simp [Bus.setData, same]
  calc bus.setData d (bus.devs d).data
      = { bus with devs := (bus.setData d (bus.devs d).data).devs } := rfl
    _ = bus := by rw [hdevs]

theorem setData_setData (d : Nat) (data data' : Bytes) :
    (bus.setData d data).setData d data' = bus.setData d data' := by
  have hdevs : ((bus.setData d data).setData d data').devs = (bus.setData d data').devs := by
    funext e
    by_cases same : e = d
    · simp [Bus.setData, same]
    · simp [Bus.setData, same]
  simp only [Bus.setData] at hdevs ⊢
  rw [hdevs]

theorem copy_block_same (disk buf : Bytes) (bs b n i : Nat) :
    copy disk (b * bs) buf 0 n (b * bs + i) = if i < n then buf i else disk (b * bs + i) := by
  by_cases moved : i < n
  · rw [if_pos moved, copy_inside _ _ _ _ _ _ moved, Nat.zero_add]
  · rw [if_neg moved]
    exact copy_agree _ _ _ _ _ (b * bs + i) (b * bs + i + 1) (Or.inr (by omega)) _ (Nat.le_refl _)
      (Nat.lt_succ_self _)

theorem agree_read (buf disk : Bytes) (bs b : Nat) :
    Agree (copy buf 0 disk (b * bs) bs) (blockAt disk bs b) 0 bs := by
  intro k _ hk
  have hin := copy_inside buf 0 disk (b * bs) bs k hk
  rw [Nat.zero_add] at hin
  exact hin

theorem copy_block_other (disk buf : Bytes) {bs b c n i : Nat} (hn : n ≤ bs) (hne : c ≠ b)
    (hi : i < bs) :
    copy disk (b * bs) buf 0 n (c * bs + i) = disk (c * bs + i) := by
  have hapart : c * bs + i + 1 ≤ b * bs ∨ b * bs + n ≤ c * bs + i := by
    rcases Nat.lt_or_gt_of_ne hne with hlt | hgt
    · left
      have := Nat.mul_le_mul_right bs hlt
      rw [Nat.succ_mul] at this
      omega
    · right
      have := Nat.mul_le_mul_right bs hgt
      rw [Nat.succ_mul] at this
      omega
  exact copy_agree disk (b * bs) buf 0 n (c * bs + i) (c * bs + i + 1) hapart _ (Nat.le_refl _)
    (Nat.lt_succ_self _)

end Obsidian.Fs
