import Obsidian.Fs.BlockIo
import Obsidian.Fs.GroupDesc
import Obsidian.Lib.SlotMap

/-!
# The block bitmaps as a slot map

Groups are the groups of the filesystem and slots the bits of their bitmaps. The
driver's scan over octets and bits is `SlotMap.firstClear`, and a change of one bit,
with the counters and checksums that go with it, is `SlotMap.mark`. `Consistent` is
the state of a mounted filesystem: metadata blocks apart and marked, counters equal
to the clear bits.
-/
namespace Obsidian.Fs
open Lib Lib.Bytes Drivers

/-! ## Scanning -/

/-- What a scan for a clear bit from `lo` up to `hi` reports, with `lastBits` bits in all. -/
def Scanned (bm : Bytes) (lastBits lo hi : Nat) : Option Nat → Prop
  | some i => lo ≤ i ∧ i < lastBits ∧ bitAt bm i = false ∧ ∀ j, lo ≤ j → j < i → bitAt bm j = true
  | none => ∀ j, lo ≤ j → j < hi → j < lastBits → bitAt bm j = true

variable {bm : Bytes} {lastBits : Nat}

theorem bitAt_octet (bm : Bytes) (k bit : Nat) (hbit : bit < 8) :
    bitAt bm (k * 8 + bit) = true ↔ get8 bm k &&& 1 <<< bit ≠ 0 := by
  have hk : (k * 8 + bit) >>> 3 = k := by
    rw [shift_three]
    omega
  have hm : (k * 8 + bit) &&& 7 = bit := by
    rw [mask_seven]
    omega
  rw [bitAt, hk, hm, decide_eq_true_iff]

theorem Scanned.skip {lo mid hi : Nat} {r : Option Nat}
    (taken : ∀ j, lo ≤ j → j < mid → bitAt bm j = true) (rest : Scanned bm lastBits mid hi r)
    (hle : lo ≤ mid) :
    Scanned bm lastBits lo hi r := by
  cases r with
  | none =>
    intro j hlo hhi hlast
    by_cases hj : j < mid
    · exact taken j hlo hj
    · exact rest j (by omega) hhi hlast
  | some i =>
    obtain ⟨hmid, hlast, hclear, hbelow⟩ := rest
    refine ⟨by omega, hlast, hclear, fun j hlo hi => ?_⟩
    by_cases hj : j < mid
    · exact taken j hlo hj
    · exact hbelow j (by omega) hi

theorem scanBits_scanned (bm : Bytes) (lastBits k : Nat) (small : k * 8 + 8 ≤ 4294967296) :
    ∀ more bit, bit + more = 8 →
      Scanned bm lastBits (k * 8 + bit) (k * 8 + 8) (scanBits (get8 bm k) k lastBits more bit) := by
  intro more
  induction more with
  | zero =>
    intro bit hbit j hlo hhi hlast
    omega
  | succ more ih =>
    intro bit hbit
    have hidx : u32 (k * 8 + bit) = k * 8 + bit := u32_of_lt (by omega)
    simp only [scanBits, hidx]
    split
    next past =>
      intro j hlo hhi hlast
      omega
    next inside =>
      split
      next clear =>
        refine ⟨Nat.le_refl _, by omega, ?_, fun j hlo hj => by omega⟩
        rw [← Bool.not_eq_true, bitAt_octet bm k bit (by omega)]
        simpa using clear
      next set =>
        apply Scanned.skip _ (ih (bit + 1) (by omega)) (by omega)
        intro j hlo hj
        have hj' : j = k * 8 + bit := by omega
        rw [hj', bitAt_octet bm k bit (by omega)]
        exact set

theorem bitAt_full {k j : Nat} (full : get8 bm k = 0xFF) (hlo : k * 8 ≤ j) (hhi : j < k * 8 + 8) :
    bitAt bm j = true := by
  have hk : j / 8 = k := by omega
  rw [bitAt_eq, hk, full]
  exact testBit_octet_mask _ (by omega)

theorem scanOctets_scanned (bm : Bytes) (lastBits : Nat) : ∀ more k, (k + more) * 8 ≤ 4294967296 →
    Scanned bm lastBits (k * 8) ((k + more) * 8) (scanOctets bm lastBits more k) := by
  intro more
  induction more with
  | zero =>
    intro k _ j hlo hhi hlast
    omega
  | succ more ih =>
    intro k small
    have hrest := ih (k + 1) (by omega)
    have hend : (k + 1 + more) * 8 = (k + (more + 1)) * 8 := by omega
    rw [hend] at hrest
    have hoctet := scanBits_scanned bm lastBits k (by omega) 8 0 (by omega)
    simp only [scanOctets]
    split
    next full =>
      apply Scanned.skip _ hrest (by omega)
      intro j hlo hj
      exact bitAt_full full hlo (by omega)
    · split
      next i found =>
        rw [found] at hoctet
        exact hoctet
      next none =>
        rw [none] at hoctet
        -- The octet held no clear bit below `lastBits`, so the rest decides.
        cases hscan : scanOctets bm lastBits more (k + 1) with
        | none =>
          rw [hscan] at hrest
          intro j hlo hhi hlast
          by_cases hj : j < (k + 1) * 8
          · exact hoctet j (by omega) (by omega) hlast
          · exact hrest j (by omega) hhi hlast
        | some i =>
          rw [hscan] at hrest
          obtain ⟨hlo, hlast, hclear, hbelow⟩ := hrest
          refine ⟨by omega, hlast, hclear, fun j hj hji => ?_⟩
          by_cases hjk : j < (k + 1) * 8
          · exact hoctet j (by omega) (by omega) (by omega)
          · exact hbelow j (by omega) hji

theorem findClear_eq (small : lastBits + 15 < 4294967296) :
    findClear bm lastBits = SlotMap.firstClear (bitAt bm) lastBits := by
  have hround : u32 (lastBits + 7) = lastBits + 7 := u32_of_lt (by omega)
  have hscan := scanOctets_scanned bm lastBits ((lastBits + 7) / 8) 0 (by omega)
  unfold findClear
  rw [hround]
  cases hfound : scanOctets bm lastBits ((lastBits + 7) / 8) 0 with
  | none =>
    rw [hfound] at hscan
    symm
    apply SlotMap.firstClear_eq_none
    intro i hi
    exact hscan i (by omega) (by omega) hi
  | some i =>
    rw [hfound] at hscan
    obtain ⟨_, hlast, hclear, hbelow⟩ := hscan
    symm
    apply SlotMap.firstClear_eq_some hlast hclear
    intro j hj
    exact hbelow j (by omega) hj

/-! ## Geometry -/

/-- Sizes of a mounted filesystem. -/
structure Geometry (e4 : Ext4Fs) : Prop where
  desc : e4.DescOk
  descFits : e4.descSize ≤ e4.blockSize
  groupSize : 0 < e4.blocksPerGroup
  groupBits : e4.blocksPerGroup ≤ 8 * e4.blockSize
  groupSmall : e4.blocksPerGroup ≤ 65528
  groups : e4.groupCount =
    (e4.blocksCount - e4.firstDataBlock + e4.blocksPerGroup - 1) / e4.blocksPerGroup
  groupsSmall : e4.groupCount < 4294967296
  first : e4.firstDataBlock < e4.blocksCount
  firstSmall : e4.firstDataBlock < 4294967296
  countSmall : e4.blocksCount < 18446744073709551616

def Ext4Fs.groupOf (e4 : Ext4Fs) (b : Nat) : Nat := (b - e4.firstDataBlock) / e4.blocksPerGroup

def Ext4Fs.indexOf (e4 : Ext4Fs) (b : Nat) : Nat := (b - e4.firstDataBlock) % e4.blocksPerGroup

variable {e4 : Ext4Fs} {g h i b : Nat}

section
variable (geo : Geometry e4)
include geo

theorem Geometry.groups_pos : 0 < e4.groupCount := by
  have hfirst := geo.first
  have hsize := geo.groupSize
  rw [geo.groups]
  apply Nat.div_pos
  · omega
  · exact hsize

theorem Geometry.spans :
    (e4.groupCount - 1) * e4.blocksPerGroup < e4.blocksCount - e4.firstDataBlock ∧
      e4.blocksCount - e4.firstDataBlock ≤ (e4.groupCount - 1) * e4.blocksPerGroup +
      e4.blocksPerGroup := by
  have hpos := geo.groups_pos
  have hsize := geo.groupSize
  have hlow := Nat.div_mul_le_self (e4.blocksCount - e4.firstDataBlock + e4.blocksPerGroup - 1)
    e4.blocksPerGroup
  have hhigh := Nat.lt_div_mul_add (a := e4.blocksCount - e4.firstDataBlock + e4.blocksPerGroup - 1)
    hsize
  rw [← geo.groups] at hlow hhigh
  have hlast : e4.groupCount * e4.blocksPerGroup =
      (e4.groupCount - 1) * e4.blocksPerGroup + e4.blocksPerGroup := by
    rw [← Nat.succ_mul]
    congr 1
    omega
  constructor
  · omega
  · omega

theorem Geometry.lastBits_last : e4.lastBits (e4.groupCount - 1) =
      e4.blocksCount - e4.firstDataBlock - (e4.groupCount - 1) * e4.blocksPerGroup := by
  obtain ⟨hlow, hhigh⟩ := geo.spans
  have hcount := geo.countSmall
  have hsmall := geo.groupSmall
  unfold Ext4Fs.lastBits
  rw [if_pos rfl, sub64_of_le (by omega) hcount, sub64_of_le (by omega) (by omega),
    u32_of_lt (by omega)]

theorem Geometry.lastBits_le (g : Nat) : e4.lastBits g ≤ e4.blocksPerGroup := by
  by_cases last : g = e4.groupCount - 1
  · obtain ⟨_, hhigh⟩ := geo.spans
    rw [last, geo.lastBits_last]
    omega
  · unfold Ext4Fs.lastBits
    rw [if_neg last]

theorem Geometry.slot_inside (hg : g < e4.groupCount) (hi : i < e4.blocksPerGroup) :
    i < e4.lastBits g ↔ e4.firstDataBlock + g * e4.blocksPerGroup + i < e4.blocksCount := by
  obtain ⟨hlow, hhigh⟩ := geo.spans
  by_cases last : g = e4.groupCount - 1
  · rw [last, geo.lastBits_last]
    omega
  · have hnext : g * e4.blocksPerGroup + e4.blocksPerGroup ≤
        (e4.groupCount - 1) * e4.blocksPerGroup := by
      rw [← Nat.succ_mul]
      exact Nat.mul_le_mul_right _ (by omega)
    unfold Ext4Fs.lastBits
    rw [if_neg last]
    omega

theorem Geometry.blkOf_eq (hg : g < e4.groupCount) (hi : i < e4.lastBits g) :
    blkOf e4 g i = e4.firstDataBlock + g * e4.blocksPerGroup + i ∧
    blkOf e4 g i < e4.blocksCount := by
  have hle := geo.lastBits_le g
  have hcount := geo.countSmall
  have hinside := (geo.slot_inside hg (by omega)).mp hi
  unfold blkOf
  rw [u64_of_lt (by omega)]
  exact ⟨rfl, hinside⟩

theorem Geometry.slot_of_blkOf (hg : g < e4.groupCount) (hi : i < e4.lastBits g) :
    e4.groupOf (blkOf e4 g i) = g ∧ e4.indexOf (blkOf e4 g i) = i := by
  have hle := geo.lastBits_le g
  have hsize := geo.groupSize
  have hoff : blkOf e4 g i - e4.firstDataBlock = i + e4.blocksPerGroup * g := by
    rw [(geo.blkOf_eq hg hi).1, Nat.mul_comm e4.blocksPerGroup]
    omega
  constructor
  · rw [Ext4Fs.groupOf, hoff, Nat.add_mul_div_left _ _ hsize, Nat.div_eq_of_lt (by omega),
      Nat.zero_add]
  · rw [Ext4Fs.indexOf, hoff, Nat.add_mul_mod_self_left, Nat.mod_eq_of_lt (by omega)]

theorem Geometry.slot_of_block (hlo : e4.firstDataBlock ≤ b) (hhi : b < e4.blocksCount) :
    e4.groupOf b < e4.groupCount ∧ e4.indexOf b < e4.lastBits (e4.groupOf b) ∧
      blkOf e4 (e4.groupOf b) (e4.indexOf b) = b := by
  have hsize := geo.groupSize
  have hmod : e4.indexOf b < e4.blocksPerGroup := Nat.mod_lt _ hsize
  have hdiv : e4.groupOf b * e4.blocksPerGroup + e4.indexOf b = b - e4.firstDataBlock := by
    rw [Nat.mul_comm]
    exact Nat.div_add_mod _ _
  obtain ⟨hlow, hhigh⟩ := geo.spans
  have hpos := geo.groups_pos
  have hgroup : e4.groupOf b < e4.groupCount := by
    apply (Nat.div_lt_iff_lt_mul hsize).mpr
    have hlast : e4.groupCount * e4.blocksPerGroup =
        (e4.groupCount - 1) * e4.blocksPerGroup + e4.blocksPerGroup := by
      rw [← Nat.succ_mul]
      congr 1
      omega
    omega
  have hslot : e4.indexOf b < e4.lastBits (e4.groupOf b) :=
    (geo.slot_inside hgroup hmod).mpr (by omega)
  refine ⟨hgroup, hslot, ?_⟩
  rw [(geo.blkOf_eq hgroup hslot).1]
  omega

end

/-! ## The abstraction -/

/-- The bits of the block bitmaps on disk, by group; there are none outside the bitmaps. -/
def World.used (w : World) (d : Nat) : SlotMap.Taken := fun g i =>
  decide (g < w.e4.groupCount ∧ i < 8 * w.e4.blockSize) &&
    bitAt (blockAt (w.disk d) w.e4.blockSize (w.e4.bitmapBlock false g)) i

/-- The bit of a block. -/
def World.blockUsed (w : World) (d b : Nat) : Bool := w.used d (w.e4.groupOf b) (w.e4.indexOf b)

/-- Blocks that hold a block bitmap or a group descriptor. -/
def Ext4Fs.Reserved (e4 : Ext4Fs) (b : Nat) : Prop :=
  ∃ g, g < e4.groupCount ∧ (b = e4.bitmapBlock false g ∨ b = e4.descBlock g)

/-- Free counts, per group and in all, are the numbers of clear bits. -/
structure Counted (w : World) (d : Nat) : Prop where
  group : ∀ g, g < w.e4.groupCount →
    w.e4.freeBlocks g = SlotMap.clearCount (w.used d g) (w.e4.lastBits g)
  total : w.e4.freeTotal = SlotMap.totalClear (w.used d) w.e4.lastBits w.e4.groupCount

/-- A mounted filesystem whose bitmaps and counters agree. -/
structure Consistent (w : World) (d : Nat) : Prop where
  transfers : Transfers w d
  geometry : Geometry w.e4
  reservedInside : ∀ b, w.e4.Reserved b → w.e4.firstDataBlock ≤ b ∧ b < w.e4.blocksCount
  reservedUsed : ∀ b, w.e4.Reserved b → w.blockUsed d b = true
  bitmapsApart : ∀ g h, g < w.e4.groupCount → h < w.e4.groupCount → g ≠ h →
    w.e4.bitmapBlock false g ≠ w.e4.bitmapBlock false h
  descApart : ∀ g h, g < w.e4.groupCount → h < w.e4.groupCount →
    w.e4.bitmapBlock false g ≠ w.e4.descBlock h
  counted : Counted w d

/-- `Consistent` but for the counters, and with nothing said about failures. -/
structure BlockMaps (w : World) (d : Nat) : Prop where
  mounted : Mounted w d
  geometry : Geometry w.e4
  reservedInside : ∀ b, w.e4.Reserved b → w.e4.firstDataBlock ≤ b ∧ b < w.e4.blocksCount
  reservedUsed : ∀ b, w.e4.Reserved b → w.blockUsed d b = true
  bitmapsApart : ∀ g h, g < w.e4.groupCount → h < w.e4.groupCount → g ≠ h →
    w.e4.bitmapBlock false g ≠ w.e4.bitmapBlock false h
  descApart : ∀ g h, g < w.e4.groupCount → h < w.e4.groupCount →
    w.e4.bitmapBlock false g ≠ w.e4.descBlock h

theorem Consistent.of_groups {w : World} {d : Nat} (transfers : Transfers w d)
    (geometry : Geometry w.e4)
    (inside : ∀ g, g < w.e4.groupCount →
      (w.e4.firstDataBlock ≤ w.e4.bitmapBlock false g ∧
      w.e4.bitmapBlock false g < w.e4.blocksCount) ∧
      w.e4.firstDataBlock ≤ w.e4.descBlock g ∧ w.e4.descBlock g < w.e4.blocksCount)
    (marked : ∀ g, g < w.e4.groupCount →
      w.blockUsed d (w.e4.bitmapBlock false g) = true ∧ w.blockUsed d (w.e4.descBlock g) = true)
    (apart : ∀ g, g < w.e4.groupCount → ∀ h, h < w.e4.groupCount →
      (g ≠ h → w.e4.bitmapBlock false g ≠ w.e4.bitmapBlock false h) ∧
      w.e4.bitmapBlock false g ≠ w.e4.descBlock h) (counted : Counted w d) :
    Consistent w d := by
  constructor
  · exact transfers
  · exact geometry
  · rintro b ⟨g, hg, rfl | rfl⟩
    · exact (inside g hg).1
    · exact (inside g hg).2
  · rintro b ⟨g, hg, rfl | rfl⟩
    · exact (marked g hg).1
    · exact (marked g hg).2
  · intro g h hg hh
    exact (apart g hg h hh).1
  · intro g h hg hh
    exact (apart g hg h hh).2
  · exact counted

/-- Only buffers and the transfer count differ. -/
structure Quiet (w w' : World) : Prop where
  e4 : w'.e4 = w.e4
  devs : w'.bus.devs = w.bus.devs
  fault : w'.bus.fault = w.bus.fault
  heap : w'.heap = w.heap

variable {w w' w'' : World} {d : Nat}

theorem Quiet.refl (w : World) : Quiet w w := ⟨rfl, rfl, rfl, rfl⟩

theorem Quiet.trans (p : Quiet w w') (q : Quiet w' w'') : Quiet w w'' :=
  ⟨q.e4.trans p.e4, q.devs.trans p.devs, q.fault.trans p.fault, q.heap.trans p.heap⟩

theorem Quiet.kept (q : Quiet w w') : Kept w w' := by
  constructor
  · rw [q.e4]
  · intro d
    rw [q.devs]
  · exact q.fault

theorem Quiet.disk (q : Quiet w w') (d : Nat) : w'.disk d = w.disk d := by
  unfold World.disk
  rw [q.devs]

theorem Quiet.used (q : Quiet w w') (d : Nat) : w'.used d = w.used d := by
  unfold World.used
  rw [q.e4, q.disk d]

theorem Quiet.blockUsed (q : Quiet w w') (d b : Nat) : w'.blockUsed d b = w.blockUsed d b := by
  unfold World.blockUsed
  rw [q.e4, q.used]

/-! ## What carries over -/

theorem Consistent.withFaults (c : Consistent w d) (fault : Nat → Nat → Option Nat) :
    BlockMaps (w.withFaults fault) d :=
  ⟨c.transfers.mounted, c.geometry, c.reservedInside, c.reservedUsed, c.bitmapsApart, c.descApart⟩

theorem Consistent.maps (c : Consistent w d) : BlockMaps w d := c.withFaults w.bus.fault

theorem BlockMaps.consistent (m : BlockMaps w d) (transfers : Transfers w d)
    (counted : Counted w d) :
    Consistent w d :=
  ⟨transfers, m.geometry, m.reservedInside, m.reservedUsed, m.bitmapsApart, m.descApart, counted⟩

/-- Where the bitmaps and descriptors are, and how large the groups are, is the same. -/
structure SameLayout (e4 e4' : Ext4Fs) : Prop where
  groupCount : e4'.groupCount = e4.groupCount
  blockSize : e4'.blockSize = e4.blockSize
  bitmapBlock : ∀ g, e4'.bitmapBlock false g = e4.bitmapBlock false g
  descBlock : ∀ g, e4'.descBlock g = e4.descBlock g
  lastBits : ∀ g, e4'.lastBits g = e4.lastBits g

theorem SameLayout.refl (e4 : Ext4Fs) : SameLayout e4 e4 :=
  ⟨rfl, rfl, fun _ => rfl, fun _ => rfl, fun _ => rfl⟩

theorem SameLayout.reserved {e4 e4' : Ext4Fs} (layout : SameLayout e4 e4') (b : Nat) :
    e4'.Reserved b ↔ e4.Reserved b := by
  unfold Ext4Fs.Reserved
  rw [layout.groupCount]
  constructor
  · rintro ⟨g, hg, hb⟩
    rw [layout.bitmapBlock, layout.descBlock] at hb
    exact ⟨g, hg, hb⟩
  · rintro ⟨g, hg, hb⟩
    rw [← layout.bitmapBlock, ← layout.descBlock] at hb
    exact ⟨g, hg, hb⟩

theorem Kept.sameSlots (k : Kept w w') (b : Nat) :
    w'.e4.groupOf b = w.e4.groupOf b ∧ w'.e4.indexOf b = w.e4.indexOf b := by
  rw [k.e4]
  exact ⟨rfl, rfl⟩

theorem Kept.geometry (k : Kept w w') (geo : Geometry w.e4) : Geometry w'.e4 := by
  rw [k.e4]
  exact ⟨geo.desc, geo.descFits, geo.groupSize, geo.groupBits, geo.groupSmall, geo.groups,
    geo.groupsSmall, geo.first, geo.firstSmall, geo.countSmall⟩

theorem BlockMaps.carry (m : BlockMaps w d) (k : Kept w w') (layout : SameLayout w.e4 w'.e4)
    (marked : ∀ b, w.e4.Reserved b → w'.blockUsed d b = true) : BlockMaps w' d := by
  have hfirst : w'.e4.firstDataBlock = w.e4.firstDataBlock := by
    rw [k.e4]
  have hcount : w'.e4.blocksCount = w.e4.blocksCount := by
    rw [k.e4]
  constructor
  · exact k.mounted m.mounted
  · exact k.geometry m.geometry
  · intro b reserved
    rw [hfirst, hcount]
    exact m.reservedInside b ((layout.reserved b).mp reserved)
  · intro b reserved
    exact marked b ((layout.reserved b).mp reserved)
  · intro g h
    rw [layout.groupCount, layout.bitmapBlock, layout.bitmapBlock]
    exact m.bitmapsApart g h
  · intro g h
    rw [layout.groupCount, layout.bitmapBlock, layout.descBlock]
    exact m.descApart g h

theorem BlockMaps.same (m : BlockMaps w d) (k : Kept w w') (he4 : w'.e4 = w.e4)
    (hused : w'.used d = w.used d) :
    BlockMaps w' d := by
  apply m.carry k
  · rw [he4]
    exact SameLayout.refl _
  · intro b reserved
    unfold World.blockUsed
    rw [he4, hused]
    exact m.reservedUsed b reserved

theorem Consistent.same (c : Consistent w d) (k : Kept w w') (he4 : w'.e4 = w.e4)
    (hused : w'.used d = w.used d) :
    Consistent w' d := by
  refine (c.maps.same k he4 hused).consistent (c.transfers.kept k) ⟨?_, ?_⟩
  · rw [he4, hused]
    exact c.counted.group
  · rw [he4, hused]
    exact c.counted.total

theorem Quiet.mapped (q : Quiet w w') (m : BlockMaps w d) : BlockMaps w' d :=
  m.same q.kept q.e4 (q.used d)

theorem Quiet.consistent (q : Quiet w w') (c : Consistent w d) : Consistent w' d :=
  c.same q.kept q.e4 (q.used d)

/-! ## Loading a bitmap -/

theorem BlockMaps.bitmapInside (m : BlockMaps w d) (hg : g < w.e4.groupCount) :
    w.e4.bitmapBlock false g < w.e4.blocksCount :=
  (m.reservedInside _ ⟨g, hg, Or.inl rfl⟩).2

theorem BlockMaps.descInside (m : BlockMaps w d) (hg : g < w.e4.groupCount) :
    w.e4.descBlock g < w.e4.blocksCount :=
  (m.reservedInside _ ⟨g, hg, Or.inr rfl⟩).2

theorem used_eq (hg : g < w.e4.groupCount) (hi : i < 8 * w.e4.blockSize) :
    w.used d g i = bitAt (blockAt (w.disk d) w.e4.blockSize (w.e4.bitmapBlock false g)) i := by
  unfold World.used
  rw [decide_eq_true ⟨hg, hi⟩, Bool.true_and]

theorem BlockMaps.clear_apart (m : BlockMaps w d) (clear : w.blockUsed d b = false) :
    ∀ g, g < w.e4.groupCount → w.e4.bitmapBlock false g ≠ b := by
  rintro g hg rfl
  have hused := m.reservedUsed _ ⟨g, hg, Or.inl rfl⟩
  rw [clear] at hused
  cases hused

/-- A buffer that holds a group's bitmap. -/
def Loaded (w : World) (d g : Nat) (bm : Bytes) : Prop :=
  Agree bm (blockAt (w.disk d) w.e4.blockSize (w.e4.bitmapBlock false g)) 0 w.e4.blockSize

variable {bm : Bytes}

theorem Loaded.bit (loaded : Loaded w d g bm) (hg : g < w.e4.groupCount)
    (hi : i < 8 * w.e4.blockSize) :
    bitAt bm i = w.used d g i := by
  rw [used_eq hg hi]
  exact bitAt_congr (loaded _ (Nat.zero_le _) (by omega))

theorem Loaded.bit_set {j : Nat} (loaded : Loaded w d g bm) (hg : g < w.e4.groupCount) (i : Nat)
    (hj : j < 8 * w.e4.blockSize) :
    bitAt (setBit bm i) j = if j = i then true else w.used d g j := by
  rw [bitAt_setBit, loaded.bit hg hj]
  by_cases hij : j = i
  · rw [if_pos hij, decide_eq_true hij, Bool.true_or]
  · rw [if_neg hij, decide_eq_false hij, Bool.false_or]

theorem Loaded.bit_clear {j : Nat} (loaded : Loaded w d g bm) (hg : g < w.e4.groupCount) (i : Nat)
    (hj : j < 8 * w.e4.blockSize) :
    bitAt (clearBit bm i) j = if j = i then false else w.used d g j := by
  rw [bitAt_clearBit, loaded.bit hg hj]
  by_cases hij : j = i
  · rw [if_pos hij, decide_eq_true hij, Bool.not_true, Bool.false_and]
  · rw [if_neg hij, decide_eq_false hij, Bool.not_false, Bool.true_and]

theorem Quiet.loaded (q : Quiet w w') (loaded : Loaded w d g bm) : Loaded w' d g bm := by
  unfold Loaded
  rw [q.e4, q.disk]
  exact loaded

/-- `load_bitmap` reads of the bitmap what the transfer moves and changes nothing else. -/
theorem Mounted.loadBitmap (m : Mounted w d) (hg : g < w.e4.groupCount) {inodeMap : Bool}
    (inside : w.e4.bitmapBlock inodeMap g < w.e4.blocksCount) :
    ∃ w', loadBitmap inodeMap g w = (if w.succeeds w.bus.ios (w.e4.bitmapBlock inodeMap g) then
        some (w.e4.bitmapBlock inodeMap g) else none, w') ∧ Quiet w w' ∧
        w'.bus.ios = w.bus.ios + 1 ∧
      w'.scratch1 = copy w.scratch1 0 (w.disk d) (w.e4.bitmapBlock inodeMap g * w.e4.blockSize)
        (w.movedOctets w.bus.ios (w.e4.bitmapBlock inodeMap g)) := by
  generalize hw1 : { w with
    bus := w.bus.tick
    scratch1 := copy w.scratch1 0 (w.disk d) (w.e4.bitmapBlock inodeMap g * w.e4.blockSize)
      (w.movedOctets w.bus.ios (w.e4.bitmapBlock inodeMap g)) } = w1
  have hread : readScratch1 (w.e4.bitmapBlock inodeMap g) w =
      (if w.succeeds w.bus.ios (w.e4.bitmapBlock inodeMap g) then some () else none, w1) := by
    simp only [readScratch1, m.read inside, ← hw1]
  refine ⟨w1, ?_, ?_, ?_, ?_⟩
  · unfold Fs.loadBitmap
    rw [Cmd.get_bind, if_neg (Nat.not_le.mpr hg)]
    cases done : w.succeeds w.bus.ios (w.e4.bitmapBlock inodeMap g) with
    | false =>
      rw [done] at hread
      exact Cmd.bind_none hread
    | true =>
      rw [done] at hread
      exact Cmd.bind_some hread
  · rw [← hw1]
    exact ⟨rfl, rfl, rfl, rfl⟩
  · rw [← hw1]
    rfl
  · rw [← hw1]

theorem Transfers.loadBitmap (t : Transfers w d) (hg : g < w.e4.groupCount) {inodeMap : Bool}
    (inside : w.e4.bitmapBlock inodeMap g < w.e4.blocksCount) :
    ∃ w', loadBitmap inodeMap g w = (some (w.e4.bitmapBlock inodeMap g), w') ∧ Quiet w w' ∧
      w'.scratch1 = copy w.scratch1 0 (w.disk d)
      (w.e4.bitmapBlock inodeMap g * w.e4.blockSize) w.e4.blockSize := by
  obtain ⟨w', hload, quiet, -, hbits⟩ := t.mounted.loadBitmap hg inside
  rw [t.succeeds, if_pos rfl] at hload
  rw [t.movedOctets] at hbits
  exact ⟨w', hload, quiet, hbits⟩

theorem BlockMaps.loadBitmap (m : BlockMaps w d) (hg : g < w.e4.groupCount) :
    ∃ w', loadBitmap false g w =
        (if w.succeeds w.bus.ios (w.e4.bitmapBlock false g) then some (w.e4.bitmapBlock false g)
          else none, w') ∧
      Quiet w w' ∧ w'.bus.ios = w.bus.ios + 1 ∧
      (w.succeeds w.bus.ios (w.e4.bitmapBlock false g) = true → Loaded w d g w'.scratch1) := by
  obtain ⟨w', hload, quiet, hios, hbits⟩ := m.mounted.loadBitmap hg (m.bitmapInside hg)
  refine ⟨w', hload, quiet, hios, fun done => ?_⟩
  rw [Loaded, hbits, movedOctets_succeeds done]
  exact agree_read _ _ _ _

end Obsidian.Fs
