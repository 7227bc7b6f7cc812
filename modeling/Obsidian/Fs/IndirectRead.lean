import Obsidian.Fs.BlockIo
import Mathlib.Logic.Function.Iterate

/-!
# Reading a legacy block map

A legacy inode names its blocks by twelve direct pointers and by the roots of three trees
of pointers, of one, two and three levels. The standard walk goes down a tree along the
digits of the block's index in it. `indirect_lookup` starts one level too high: it
takes `which - 11` down to 0 where the tree has levels `which - 12` down to 0. The digit
at the level in excess is always 0, so the lookup follows the first pointer of the root
block and then makes the standard walk from there.
-/
namespace Obsidian.Fs
open Lib Lib.Bytes Drivers

/-! ## The standard walk -/

/-- The slots on the way to leaf `index` of a tree of `levels` levels with `p` pointers a node:
the digits of `index`, the highest first. -/
def treeSlots (p : Nat) : Nat → Nat → List Nat
  | 0, _ => []
  | level + 1, index => index / p ^ level % p :: treeSlots p level index

def pointerAt (disk : Bytes) (bs block slot : Nat) : Nat := get32 (blockAt disk bs block) (slot * 4)

/-- The pointer reached from `ptr`; a hole on the way is a hole in the file. -/
def walkSlots (disk : Bytes) (bs : Nat) : List Nat → Nat → Nat
  | [], ptr => ptr
  | slot :: rest, ptr => if ptr = 0 then 0 else walkSlots disk bs rest (pointerAt disk bs ptr slot)

/-- The blocks that have to be read on the way. -/
def visitedBlocks (disk : Bytes) (bs : Nat) : List Nat → Nat → List Nat
  | [], _ => []
  | slot :: rest, ptr =>
    if ptr = 0 then [] else ptr :: visitedBlocks disk bs rest (pointerAt disk bs ptr slot)

/-- Levels of pointers above a block of a file. -/
def indirection (p logical : Nat) : Nat :=
  if logical < 12 then 0 else if logical < 12 + p then 1 else if logical <
    12 + p + p ^ 2 then 2 else 3

/-- The first block of a file with that many levels above it. -/
def firstBelow (p : Nat) : Nat → Nat
  | 0 => 0
  | 1 => 12
  | 2 => 12 + p
  | _ => 12 + p + p ^ 2

/-- The pointer in the inode that the walk starts from. -/
def topPointer (inode : Bytes) (p logical : Nat) : Nat :=
  if logical < 12 then Ino.block inode logical else Ino.block inode (11 + indirection p logical)

def mapSlots (p logical : Nat) : List Nat :=
  treeSlots p (indirection p logical) (logical - firstBelow p (indirection p logical))

/-- Where block `logical` of a legacy file is, 0 for a hole. -/
def standardBmap (disk : Bytes) (bs : Nat) (inode : Bytes) (logical : Nat) : Nat :=
  walkSlots disk bs (mapSlots (bs / 4) logical) (topPointer inode (bs / 4) logical)

/-! ## Reads at block numbers found on the disk -/

/-- The filesystem is on device `d`, in blocks of `bs` octets. -/
structure OnDevice (w : World) (d bs : Nat) : Prop where
  dev : w.e4.dev = some d
  size : w.e4.blockSize = bs
  sectors : bs = w.e4.sectorsPerBlock * 512

/-- The next transfer succeeds if it reads block `b`. -/
def readsBlock (spb d : Nat) (bus : Bus) (b : Nat) : Prop :=
  (bus.devs d).beyond (b * spb) spb = false ∧ bus.fault bus.ios (b * spb) = none

/-- The next transfers succeed if they read these blocks. -/
def readsAll (spb d : Nat) : Bus → List Nat → Prop
  | _, [] => True
  | bus, b :: rest => readsBlock spb d bus b ∧ readsAll spb d bus.tick rest

/-- The blocks of pointers above block `logical` can be read, whatever was read before. -/
def ReadableMap (w : World) (d : Nat) (inode : Bytes) (logical : Nat) : Prop :=
  ∀ b ∈ visitedBlocks (w.disk d) w.e4.blockSize (mapSlots (w.e4.blockSize / 4) logical)
      (topPointer inode (w.e4.blockSize / 4) logical),
    ∀ ios, readsBlock w.e4.sectorsPerBlock d { w.bus with ios := ios } b

variable {w : World} {d bs b p logical index ptr v : Nat} {inode : Bytes}

theorem supported_cases (size : bs ∈ [1024, 2048, 4096, 8192]) :
    bs = 1024 ∨ bs = 2048 ∨ bs = 4096 ∨ bs = 8192 := by
  simpa using size

section reads
variable (on : OnDevice w d bs) (size : bs ∈ [1024, 2048, 4096, 8192]) (small : b < 562949953421312)
include on size

theorem OnDevice.sectorsPerBlock_pos : 0 < w.e4.sectorsPerBlock ∧ w.e4.sectorsPerBlock ≤ 16 := by
  have hsectors := on.sectors
  have hcases := supported_cases size
  omega

include small

/-- The sector number of a block named by a pointer or an extent does not wrap. -/
theorem OnDevice.lba : u64 (b * w.e4.sectorsPerBlock) = b * w.e4.sectorsPerBlock := by
  apply u64_of_lt
  calc b * w.e4.sectorsPerBlock ≤ 562949953421312 * 16 :=
        Nat.mul_le_mul (Nat.le_of_lt small) (on.sectorsPerBlock_pos size).2
    _ < 18446744073709551616 := by decide

theorem OnDevice.readScratch1 (ok : readsBlock w.e4.sectorsPerBlock d w.bus b) :
    readScratch1 b w = (some (), { w with
      bus := w.bus.tick, scratch1 := copy w.scratch1 0 (w.disk d) (b * bs) bs }) := by
  have hlba := on.lba size small
  have hcount : w.e4.sectorsPerBlock ≠ 0 := Nat.ne_of_gt (on.sectorsPerBlock_pos size).1
  have hmoved : w.bus.moved (b * w.e4.sectorsPerBlock) w.e4.sectorsPerBlock =
      w.e4.sectorsPerBlock := by
    rw [Bus.moved, ok.2]
  have hoffset : b * w.e4.sectorsPerBlock * sectorSize = b * bs := by
    rw [on.sectors, sectorSize, Nat.mul_assoc]
  have hlen : w.e4.sectorsPerBlock * sectorSize = bs := on.sectors.symm
  simp only [Fs.readScratch1, e4ReadBlock, on.dev, blkRead, hlba, if_neg hcount, ok.1, ok.2, hmoved,
    hoffset, hlen]
  rfl

theorem OnDevice.readScratch1_fails (bad : ¬ readsBlock w.e4.sectorsPerBlock d w.bus b) :
    (Fs.readScratch1 b w).1 = none := by
  have hlba := on.lba size small
  have hcount : w.e4.sectorsPerBlock ≠ 0 := Nat.ne_of_gt (on.sectorsPerBlock_pos size).1
  cases hbeyond : (w.bus.devs d).beyond (b * w.e4.sectorsPerBlock) w.e4.sectorsPerBlock with
  | true => simp [Fs.readScratch1, e4ReadBlock, on.dev, blkRead, hlba, hcount, hbeyond]
  | false =>
    cases hfault : w.bus.fault w.bus.ios (b * w.e4.sectorsPerBlock) with
    | none => exact absurd ⟨hbeyond, hfault⟩ bad
    | some k => simp [Fs.readScratch1, e4ReadBlock, on.dev, blkRead, hlba, hcount, hbeyond, hfault]

end reads

/-! ## What the lookup walks -/

theorem treeSlots_excess {levels : Nat} (inside : index < p ^ levels) :
    treeSlots p (levels + 1) index = 0 :: treeSlots p levels index := by
  rw [treeSlots, Nat.div_eq_of_lt inside, Nat.zero_mod]

theorem get32_copied (disk buf : Bytes) {slot : Nat} (inside : slot * 4 + 4 ≤ bs) :
    get32 (copy buf 0 disk (b * bs) bs) (slot * 4) = pointerAt disk bs b slot := by
  apply get32_congr
  exact (agree_read buf disk bs b).mono (Nat.zero_le _) inside

/-- With strides that did not wrap the loop makes the walk along its digits. It succeeds
exactly if all the blocks it meets can be read. -/
theorem OnDevice.indirectWalk_iff (size : bs ∈ [1024, 2048, 4096, 8192]) :
    ∀ levels (w : World) ptr, OnDevice w d bs →
    (∀ level < levels, strideOf (bs / 4) level = (bs / 4) ^ level) →
      ptr < 4294967296 → ((indirectWalk index (bs / 4) levels ptr w).1 = some v ↔
        readsAll w.e4.sectorsPerBlock d w.bus
        (visitedBlocks (w.disk d) bs (treeSlots (bs / 4) levels index) ptr) ∧
        walkSlots (w.disk d) bs (treeSlots (bs / 4) levels index) ptr = v) := by
  intro levels
  induction levels with
  | zero =>
    intro w ptr _ _ _
    simp [indirectWalk, treeSlots, visitedBlocks, walkSlots, readsAll]
  | succ level ih =>
    intro w ptr on strides small
    by_cases hzero : ptr = 0
    · simp [indirectWalk, treeSlots, visitedBlocks, walkSlots, readsAll, hzero]
    · rw [indirectWalk, if_neg hzero, treeSlots, visitedBlocks, walkSlots, if_neg hzero,
        if_neg hzero, readsAll]
      by_cases hread : readsBlock w.e4.sectorsPerBlock d w.bus ptr
      · rw [Cmd.bind_some (on.readScratch1 size (by omega) hread), Cmd.get_bind]
        have hp : 0 < bs / 4 ∧ bs / 4 < 4294967296 ∧ bs / 4 * 4 = bs := by
          have hcases := supported_cases size
          omega
        have hslot : index / (bs / 4) ^ level % (bs / 4) < bs / 4 := Nat.mod_lt _ hp.1
        rw [strides level (Nat.lt_succ_self level), u32_of_lt (by omega),
          get32_copied _ _ (by omega)]
        rw [and_iff_right hread]
        exact ih _ _ ⟨on.dev, on.size, on.sectors⟩ (fun l hl => strides l (by omega)) (get32_lt _ _)
      · rw [Cmd.bind_none (Prod.ext (on.readScratch1_fails size (by omega) hread) rfl)]
        simp [hread]

/-! ## When the lookup is right -/

/-- The lookup returns what the standard walk reaches and divides by no stride of zero. Its
loop reads the top block before it divides, so it does not divide below a hole. -/
def MapsRight (w : World) (d : Nat) (inode : Bytes) (logical : Nat) : Prop :=
  (e4Bmap inode logical w).1 = some (standardBmap (w.disk d) w.e4.blockSize inode logical) ∧
  (12 ≤ logical → topPointer inode (w.e4.blockSize / 4) logical ≠ 0 →
    ∀ level ≤ indirection (w.e4.blockSize / 4) logical, strideOf (w.e4.blockSize / 4) level ≠ 0)

/-- The walk from the first pointer of the top block happens to end where the one from the
top block does, and the highest stride does not wrap. -/
def Coincides (w : World) (d : Nat) (inode : Bytes) (logical : Nat) : Prop :=
  let p := w.e4.blockSize / 4
  let first := pointerAt (w.disk d) w.e4.blockSize (topPointer inode p logical) 0
  ¬ (w.e4.blockSize = 8192 ∧ indirection p logical = 3) ∧
  readsAll w.e4.sectorsPerBlock d w.bus.tick
    (visitedBlocks (w.disk d) w.e4.blockSize (mapSlots p logical) first) ∧
  walkSlots (w.disk d) w.e4.blockSize (mapSlots p logical) first =
    standardBmap (w.disk d) w.e4.blockSize inode logical

theorem indirection_pos (high : 12 ≤ logical) :
    0 < indirection p logical ∧ indirection p logical ≤ 3 := by
  unfold indirection
  split_ifs <;> omega

theorem index_inside (below : logical < 12 + p + p ^ 2 + p ^ 3) (high : 12 ≤ logical) :
    logical - firstBelow p (indirection p logical) < p ^ indirection p logical := by
  unfold indirection
  split_ifs with h1 h2 h3
  · omega
  · simp only [firstBelow, Nat.pow_one]
    omega
  · simp only [firstBelow]
    omega
  · simp only [firstBelow]
    omega

theorem strideOf_of_fits (pos : 0 < p) :
    ∀ level, p ^ level < 4294967296 → strideOf p level = p ^ level := by
  intro level
  induction level with
  | zero =>
    intro _
    rfl
  | succ level ih =>
    intro fits
    have hless : p ^ level ≤ p ^ (level + 1) := Nat.pow_le_pow_right pos (Nat.le_succ level)
    rw [strideOf, ih (by omega), ← Nat.pow_succ, u32_of_lt fits]

/-- Only the stride of the triple tree wraps, and only with blocks of 8192 octets. -/
theorem strideOf_eq_pow (size : bs ∈ [1024, 2048, 4096, 8192]) {level : Nat} (low : level ≤ 3)
    (fits : ¬ (bs = 8192 ∧ level = 3)) : strideOf (bs / 4) level = (bs / 4) ^ level := by
  have hcases := supported_cases size
  apply strideOf_of_fits (by omega)
  by_cases hbig : bs = 8192
  · calc (bs / 4) ^ level ≤ (8192 / 4) ^ 2 := by
          rw [hbig]
          exact Nat.pow_le_pow_right (by decide) (by omega)
      _ < 4294967296 := by decide
  · calc (bs / 4) ^ level ≤ (bs / 4) ^ 3 := Nat.pow_le_pow_right (by omega) low
      _ ≤ 1024 ^ 3 := Nat.pow_le_pow_left (by omega) 3
      _ < 4294967296 := by decide

theorem e4Bmap_direct (legacy : Ino.flags inode &&& inoFlagExtents = 0) (low : logical < 12) :
    e4Bmap inode logical w = (some (Ino.block inode logical), w) := by
  rw [e4Bmap, if_neg (by simpa using legacy), indirectLookup, Cmd.get_bind, if_pos low]
  rfl

/-- Above the direct blocks the loop makes one step more than there are levels. -/
theorem e4Bmap_indirect (size : w.e4.blockSize ∈ [1024, 2048, 4096, 8192])
    (legacy : Ino.flags inode &&& inoFlagExtents = 0) (high : 12 ≤ logical) :
    e4Bmap inode logical w = indirectWalk
      (logical - firstBelow (w.e4.blockSize / 4) (indirection (w.e4.blockSize / 4) logical))
        (w.e4.blockSize / 4) (indirection (w.e4.blockSize / 4) logical + 1)
        (topPointer inode (w.e4.blockSize / 4) logical) w := by
  have hsingle : u32 (12 + w.e4.blockSize / 4) = 12 + w.e4.blockSize / 4 := by
    apply u32_of_lt
    have hcases := supported_cases size
    omega
  have hdouble : u32 (12 + w.e4.blockSize / 4 + u32 (w.e4.blockSize / 4 * (w.e4.blockSize / 4))) =
      12 + w.e4.blockSize / 4 + (w.e4.blockSize / 4) ^ 2 := by
    rcases supported_cases size with h | h | h | h <;> rw [h] <;> decide
  have hlow : ¬ logical < 12 := by omega
  rw [e4Bmap, if_neg (by simpa using legacy), indirectLookup, Cmd.get_bind]
  simp only [hsingle, hdouble, topPointer, indirection, if_neg hlow]
  split_ifs <;> rfl

theorem mapSlots_cons (high : 12 ≤ logical) : ∃ slot rest, mapSlots p logical = slot :: rest := by
  obtain ⟨level, hlevel⟩ :=
    Nat.exists_eq_succ_of_ne_zero (Nat.ne_of_gt (@indirection_pos p logical high).1)
  rw [mapSlots, hlevel]
  exact ⟨_, _, rfl⟩

theorem topPointer_small (inode : Bytes) (p logical : Nat) :
    topPointer inode p logical < 4294967296 := by
  unfold topPointer
  split_ifs <;> exact get32_lt _ _

theorem mapsRight_direct (legacy : Ino.flags inode &&& inoFlagExtents = 0) (low : logical < 12) :
    MapsRight w d inode logical := by
  refine ⟨?_, fun high => absurd low (by omega)⟩
  rw [e4Bmap_direct legacy low, standardBmap, mapSlots, indirection, if_pos low,
    topPointer, if_pos low]
  rfl

section map
variable (size : bs ∈ [1024, 2048, 4096, 8192]) (legacy : Ino.flags inode &&& inoFlagExtents = 0)
  (high : 12 ≤ logical)
include size legacy high

theorem OnDevice.mapsRight_hole (on : OnDevice w d bs)
    (hole : topPointer inode (bs / 4) logical = 0) :
    MapsRight w d inode logical := by
  obtain ⟨slot, rest, hslots⟩ := @mapSlots_cons (bs / 4) logical high
  have hsize : w.e4.blockSize = bs := on.size
  unfold MapsRight
  rw [hsize]
  refine ⟨?_, fun _ filled => absurd hole filled⟩
  rw [e4Bmap_indirect (hsize ▸ size) legacy high, hsize, standardBmap, hslots, hole, indirectWalk,
    walkSlots]
  rfl

/-- The blocks above `logical` can be read: the lookup is right if the top pointer is 0 or
the wrong walk ends at the right block. -/
theorem OnDevice.mapsRight_iff (on : OnDevice w d bs)
    (below : logical < 12 + bs / 4 + (bs / 4) ^ 2 + (bs / 4) ^ 3)
    (readable : ReadableMap w d inode logical) :
    MapsRight w d inode logical ↔ topPointer inode (bs / 4) logical = 0 ∨
    Coincides w d inode logical := by
  by_cases hole : topPointer inode (bs / 4) logical = 0
  · exact iff_of_true (on.mapsRight_hole size legacy high hole) (Or.inl hole)
  · have hsize : w.e4.blockSize = bs := on.size
    have hlevels := @indirection_pos (bs / 4) logical high
    rw [or_iff_right hole]
    unfold MapsRight Coincides
    unfold ReadableMap at readable
    simp only [hsize] at readable ⊢
    by_cases hwraps : bs = 8192 ∧ indirection (bs / 4) logical = 3
    · -- the first division is by a stride of zero
      have hstride : strideOf (bs / 4) 3 = 0 := by
        rw [hwraps.1]
        decide
      exact iff_of_false (fun h => h.2 high hole 3 (by omega) hstride) (fun h => h.1 hwraps)
    · have hstrides : ∀ level ≤ indirection (bs / 4) logical, strideOf (bs / 4) level =
          (bs / 4) ^ level :=
        fun level hlevel => strideOf_eq_pow size (by omega) (by omega)
      have hnonzero : ∀ level ≤ indirection (bs / 4) logical, strideOf (bs / 4) level ≠ 0 := by
        intro level hlevel
        rw [hstrides level hlevel]
        have hcases := supported_cases size
        exact Nat.ne_of_gt (Nat.pow_pos (by omega))
      obtain ⟨slot, rest, hslots⟩ := @mapSlots_cons (bs / 4) logical high
      have htop : readsBlock w.e4.sectorsPerBlock d w.bus (topPointer inode (bs / 4) logical) := by
        apply readable _ _ w.bus.ios
        rw [hslots, visitedBlocks, if_neg hole]
        exact List.mem_cons_self
      rw [and_iff_left (fun _ _ => hnonzero), and_iff_right hwraps,
        e4Bmap_indirect (hsize ▸ size) legacy high,
        hsize, on.indirectWalk_iff size _ w _ (fun level hl => hstrides level (by omega))
          (topPointer_small _ _ _),
        treeSlots_excess (index_inside below high), visitedBlocks, walkSlots, if_neg hole,
          if_neg hole, readsAll, and_iff_right htop]
      rfl

end map

/-! ## A disk on which one step more is always one too many -/

/-- Never the block itself. -/
def otherBlock (b : Nat) : Nat := if b = 1 then 2 else 1

theorem otherBlock_ne (b : Nat) : otherBlock b ≠ b := by
  unfold otherBlock
  split_ifs <;> omega

theorem otherBlock_ne_zero (b : Nat) : otherBlock b ≠ 0 := by
  unfold otherBlock
  split_ifs <;> decide

/-- Every pointer in block 1 is 2, every other pointer is 1. -/
def otherDisk (bs : Nat) : Bytes := fun i =>
  if i % 4 = 0 then UInt8.ofNat (otherBlock (i / bs)) else 0

theorem pointerAt_otherDisk (aligned : bs % 4 = 0) (b : Nat) {slot : Nat} (inside : slot * 4 < bs) :
    pointerAt (otherDisk bs) bs b slot = otherBlock b := by
  have hfirst : (b * bs + slot * 4) % 4 = 0 := by
    rw [Nat.add_mod, Nat.mul_mod, aligned]
    omega
  have hblock : (b * bs + slot * 4) / bs = b := by
    rw [Nat.mul_comm, Nat.mul_add_div (by omega), Nat.div_eq_of_lt inside, Nat.add_zero]
  have hsmall : (UInt8.ofNat (otherBlock b)).toNat = otherBlock b := by
    unfold otherBlock
    split_ifs <;> rfl
  have hzero : ∀ j, 0 < j → j < 4 → otherDisk bs (b * bs + (slot * 4 + j)) = 0 := by
    intro j hpos hj
    exact if_neg (by omega)
  have hhead : otherDisk bs (b * bs + slot * 4) = UInt8.ofNat (otherBlock b) := by
    rw [otherDisk, if_pos hfirst, hblock]
  simp only [pointerAt, get32, get16, blockAt, Nat.add_assoc, hhead, hzero 1 (by omega) (by omega),
    hzero 2 (by omega) (by omega), hzero (2 + 1) (by omega) (by omega), hsmall]
  rfl

theorem treeSlots_lt (pos : 0 < p) (levels index : Nat) :
    ∀ slot ∈ treeSlots p levels index, slot < p := by
  induction levels with
  | zero =>
    intro slot hslot
    cases hslot
  | succ level ih =>
    intro slot hslot
    rcases List.mem_cons.mp hslot with rfl | hrest
    · exact Nat.mod_lt _ pos
    · exact ih slot hrest

theorem walkSlots_otherDisk (aligned : bs % 4 = 0) (slots : List Nat) :
    (∀ slot ∈ slots, slot * 4 < bs) → ∀ ptr, ptr ≠ 0 →
      walkSlots (otherDisk bs) bs slots ptr = otherBlock^[slots.length] ptr := by
  induction slots with
  | nil =>
    intro _ ptr _
    rfl
  | cons slot rest ih =>
    intro inside ptr filled
    rw [walkSlots, if_neg filled, pointerAt_otherDisk aligned ptr (inside slot List.mem_cons_self),
      ih (fun s hs => inside s (List.mem_cons_of_mem slot hs)) _ (otherBlock_ne_zero ptr)]
    rfl

/-- A device of unchecked size with that disk. -/
def otherWorld (bs : Nat) : World where
  bus := ⟨fun _ => ⟨0, true, true, otherDisk bs⟩, 1, fun _ _ => none, 0⟩
  heap := ⟨fun _ => false, 0⟩
  e4 := { Ext4Fs.zeroed with
    dev := some 0, blockSize := bs, sectorsPerBlock := bs / 512,
      blocksCount := 4294967296, writable := true }
  scratch1 := zero
  scratch2 := zero
  stackJunk := zero
  jin := zero
  committed := []
  lastCommitSeq := 0

theorem otherWorld_onDevice (size : bs ∈ [1024, 2048, 4096, 8192]) :
    OnDevice (otherWorld bs) 0 bs := by
  refine ⟨rfl, rfl, ?_⟩
  show bs = bs / 512 * 512
  have hcases := supported_cases size
  omega

theorem otherWorld_readable (bs : Nat) (inode : Bytes) (logical : Nat) :
    ReadableMap (otherWorld bs) 0 inode logical := by
  intro b _ ios
  refine ⟨?_, rfl⟩
  simp [BlkDevice.beyond, otherWorld]

/-- The walk from the first pointer of the top block ends elsewhere than the walk from the top. -/
theorem otherWorld_differs (size : bs ∈ [1024, 2048, 4096, 8192])
    (filled : topPointer inode (bs / 4) logical ≠ 0) :
    ¬ Coincides (otherWorld bs) 0 inode logical := by
  intro same
  have haligned : bs % 4 = 0 ∧ 0 < bs / 4 ∧ 0 * 4 < bs := by
    have hcases := supported_cases size
    omega
  have hinside : ∀ slot ∈ mapSlots (bs / 4) logical, slot * 4 < bs := by
    intro slot hslot
    have := treeSlots_lt haligned.2.1 _ _ slot hslot
    omega
  have hends : walkSlots (otherDisk bs) bs (mapSlots (bs / 4) logical)
      (pointerAt (otherDisk bs) bs (topPointer inode (bs / 4) logical) 0) =
      walkSlots (otherDisk bs) bs (mapSlots (bs / 4) logical) (topPointer inode (bs / 4) logical) :=
        same.2.2
  rw [pointerAt_otherDisk haligned.1 _ haligned.2.2, walkSlots_otherDisk haligned.1 _ hinside _
    (otherBlock_ne_zero _),
    walkSlots_otherDisk haligned.1 _ hinside _ filled, ← Function.iterate_succ_apply,
    Function.iterate_succ_apply'] at hends
  exact otherBlock_ne _ hends

/-! ## The result -/

/-- On a given disk a block above the direct ones is found if the top pointer is a hole or the
walk from the wrong block ends at the right one; it is found whatever the blocks of pointers
hold only if it is direct or below a hole in the inode. -/
theorem indirect_map_right_iff (size : bs ∈ [1024, 2048, 4096, 8192])
    (legacy : Ino.flags inode &&& inoFlagExtents = 0)
    (below : logical < 12 + bs / 4 + (bs / 4) ^ 2 + (bs / 4) ^ 3) :
    (∀ w d, OnDevice w d bs → ReadableMap w d inode logical →
      (MapsRight w d inode logical ↔
        logical < 12 ∨ topPointer inode (bs / 4) logical = 0 ∨ Coincides w d inode logical)) ∧
    ((∀ w d, OnDevice w d bs → ReadableMap w d inode logical → MapsRight w d inode logical) ↔
      logical < 12 ∨ topPointer inode (bs / 4) logical = 0) := by
  by_cases low : logical < 12
  · refine ⟨fun w d _ _ => iff_of_true (mapsRight_direct legacy low) (Or.inl low), ?_⟩
    exact iff_of_true (fun w d _ _ => mapsRight_direct legacy low) (Or.inl low)
  · have high : 12 ≤ logical := Nat.le_of_not_lt low
    simp only [or_iff_right low]
    constructor
    · intro w d on readable
      exact on.mapsRight_iff size legacy high below readable
    · constructor
      · intro always
        by_contra filled
        have hright := always _ _ (otherWorld_onDevice size) (otherWorld_readable bs inode logical)
        rcases ((otherWorld_onDevice size).mapsRight_iff size legacy high below
          (otherWorld_readable bs inode logical)).mp hright with hole | same
        · exact filled hole
        · exact otherWorld_differs size filled same
      · intro hole w d on _
        exact on.mapsRight_hole size legacy high hole

/-- A legacy inode with only its single indirect pointer set, to block 5. -/
def singleInode : Bytes := put32 zero (Ino.root + 48) 5

theorem indirect_map_right_iff_single :
    (∀ w d, OnDevice w d 1024 → ReadableMap w d singleInode 268 → MapsRight w d singleInode 268) ∧
    ¬ (∀ w d, OnDevice w d 1024 → ReadableMap w d singleInode 12 →
      MapsRight w d singleInode 12) := by
  have hlegacy : Ino.flags singleInode &&& inoFlagExtents = 0 := by decide
  constructor
  · apply (indirect_map_right_iff (by decide) hlegacy (by decide)).2.mpr
    right
    decide
  · rw [(indirect_map_right_iff (by decide) hlegacy (by decide)).2]
    decide

/-- Block 12 of the file is block 1 of the disk; the lookup takes a pointer out of block 1.
With blocks of 8192 octets the first stride of the triple tree is zero. -/
theorem single_indirect_overshoots :
    OnDevice (otherWorld 1024) 0 1024 ∧ ReadableMap (otherWorld 1024) 0 singleInode 12 ∧
    standardBmap ((otherWorld 1024).disk 0) 1024 singleInode 12 = 1 ∧
    (e4Bmap singleInode 12 (otherWorld 1024)).1 = some 2 ∧
    strideOf (8192 / 4) 3 = 0 :=
  ⟨otherWorld_onDevice (by decide), otherWorld_readable _ _ _, by decide, by decide, by decide⟩

end Obsidian.Fs
