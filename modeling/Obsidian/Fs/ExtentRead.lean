import Obsidian.Fs.BlockIo

/-!
# Reading extent trees

What an extent tree means, in the terms of the on-disk format: a leaf maps a block
of the file through the written extent that covers it, and an index node sends it to
the last child that starts at or before it. `extent_lookup` is compared with that.

In the format a count of at most 32768 is a written extent of that many blocks and a
larger one an unwritten extent of 32768 blocks fewer; the last block number of a file
is 0xFFFFFFFE.
-/
namespace Obsidian.Fs
open Lib Lib.Bytes Drivers

/-! ## Leaves -/

/-- Blocks of an extent, by the format. -/
def extentBlocks (count : Nat) : Nat := if count ≤ 32768 then count else count - 32768

/-- Extents in order and without overlap. -/
structure LeafOrdered (b : Bytes) (eh : Nat) : Prop where
  last : ∀ i, i < Eh.entries b eh →
    Ex.firstBlock b (Eh.entry eh i) + extentBlocks (Ex.count b (Eh.entry eh i)) < 4294967296
  sorted : ∀ i j, i < j → j < Eh.entries b eh →
    Ex.firstBlock b (Eh.entry eh i) + extentBlocks (Ex.count b (Eh.entry eh i)) ≤
      Ex.firstBlock b (Eh.entry eh j)

/-- None of them is empty or maps to the boot record. -/
structure LeafOk (b : Bytes) (eh : Nat) : Prop extends LeafOrdered b eh where
  filled : ∀ i, i < Eh.entries b eh → 0 < extentBlocks (Ex.count b (Eh.entry eh i))
  start : ∀ i, i < Eh.entries b eh → 0 < Ex.start b (Eh.entry eh i)

/-- Extent `i` covers the block of the file. -/
def Covering (b : Bytes) (eh logical i : Nat) : Prop :=
  i < Eh.entries b eh ∧ Ex.firstBlock b (Eh.entry eh i) ≤ logical ∧
    logical < Ex.firstBlock b (Eh.entry eh i) + extentBlocks (Ex.count b (Eh.entry eh i))

/-- What a leaf maps a block to: into the written extent that covers it, or nowhere. -/
def LeafMaps (b : Bytes) (eh logical phys : Nat) : Prop :=
  (∃ i, Covering b eh logical i ∧ Ex.count b (Eh.entry eh i) ≤ 32768 ∧
    phys = Ex.start b (Eh.entry eh i) + logical - Ex.firstBlock b (Eh.entry eh i)) ∨
  ((∀ i, Covering b eh logical i → 32768 < Ex.count b (Eh.entry eh i)) ∧ phys = 0)

/-- No extent has the largest length of a written one. -/
def NoFull (b : Bytes) (eh : Nat) : Prop :=
  ∀ i, i < Eh.entries b eh → Ex.count b (Eh.entry eh i) ≠ 32768

/-- None that covers the block has. -/
def NoFullAt (b : Bytes) (eh logical : Nat) : Prop :=
  ∀ i, Covering b eh logical i → Ex.count b (Eh.entry eh i) ≠ 32768

variable {b : Bytes} {eh logical phys i j k : Nat}

theorem NoFull.at (nofull : NoFull b eh) (logical : Nat) : NoFullAt b eh logical :=
  fun i covering => nofull i covering.1

/-- The test of the driver's loop over a leaf. -/
def Hit (b : Bytes) (eh logical i : Nat) : Prop :=
  Ex.firstBlock b (Eh.entry eh i) ≤ logical ∧
    logical < u32 (Ex.firstBlock b (Eh.entry eh i) + extentLen (Ex.count b (Eh.entry eh i)))

theorem leafSearch_hit {more : Nat} (hit : Hit b eh logical i) :
    leafSearch b eh logical (more + 1) i =
      if 32768 ≤ Ex.count b (Eh.entry eh i) then 0
      else Ex.start b (Eh.entry eh i) + logical - Ex.firstBlock b (Eh.entry eh i) := by
  exact if_pos hit

theorem leafSearch_miss {more : Nat} (miss : ¬ Hit b eh logical i) :
    leafSearch b eh logical (more + 1) i = leafSearch b eh logical more (i + 1) := by
  exact if_neg miss

theorem leafSearch_skip (more : Nat) :
    ∀ skip i, (∀ j, i ≤ j → j < i + skip → ¬ Hit b eh logical j) →
    leafSearch b eh logical (skip + more) i = leafSearch b eh logical more (i + skip) := by
  intro skip
  induction skip with
  | zero =>
    intro i _
    rw [Nat.zero_add, Nat.add_zero]
  | succ skip ih =>
    intro i miss
    have hsum : skip + 1 + more = (skip + more) + 1 := by omega
    rw [hsum, leafSearch_miss (miss i (Nat.le_refl _) (by omega)), ih (i + 1)]
    · congr 1
      omega
    · intro j hlo hhi
      exact miss j (by omega) (by omega)

theorem leafSearch_none (more : Nat) (miss : ∀ j, i ≤ j → j < i + more → ¬ Hit b eh logical j) :
    leafSearch b eh logical more i = 0 := by
  have hskip := leafSearch_skip 0 more i miss
  rw [Nat.add_zero] at hskip
  rw [hskip]
  rfl

theorem extentLen_le (count : Nat) : extentLen count ≤ extentBlocks count := by
  unfold extentLen extentBlocks
  split
  · split
    · omega
    · omega
  · split
    · omega
    · omega

section
variable (ok : LeafOrdered b eh)
include ok

theorem LeafOrdered.covering_of_hit (hi : i < Eh.entries b eh) (hit : Hit b eh logical i) :
    Covering b eh logical i := by
  have hle := extentLen_le (Ex.count b (Eh.entry eh i))
  have hlast := ok.last i hi
  obtain ⟨hlo, hhi⟩ := hit
  rw [u32_of_lt (by omega)] at hhi
  exact ⟨hi, hlo, by omega⟩

theorem LeafOrdered.covering_unique (hi : Covering b eh logical i) (hj : Covering b eh logical j) :
    i = j := by
  obtain ⟨hiIn, hiLo, hiHi⟩ := hi
  obtain ⟨hjIn, hjLo, hjHi⟩ := hj
  rcases Nat.lt_trichotomy i j with hlt | rfl | hgt
  · have := ok.sorted i j hlt hjIn
    omega
  · rfl
  · have := ok.sorted j i hgt hiIn
    omega

/-- The search finds the extent that covers the block, unless it is a full one. -/
theorem LeafOrdered.leafSearch_covering (covering : Covering b eh logical k) :
    leafSearch b eh logical (Eh.entries b eh) 0 =
      if 32768 ≤ Ex.count b (Eh.entry eh k) then 0
      else Ex.start b (Eh.entry eh k) + logical - Ex.firstBlock b (Eh.entry eh k) := by
  have hk := covering.1
  have hother : ∀ j, j < Eh.entries b eh → j ≠ k → ¬ Hit b eh logical j := by
    intro j hj hne hit
    exact hne (ok.covering_unique (ok.covering_of_hit hj hit) covering)
  by_cases full : Ex.count b (Eh.entry eh k) = 32768
  · rw [if_pos (by omega)]
    apply leafSearch_none
    intro j _ hj
    by_cases same : j = k
    · -- A count of 32768 leaves the driver an extent of no blocks.
      rintro ⟨hlo, hhi⟩
      rw [same] at hlo hhi
      have hlast := ok.last k hk
      have hzero : extentLen (Ex.count b (Eh.entry eh k)) = 0 := by
        rw [full]
        rfl
      rw [hzero, u32_of_lt (by omega)] at hhi
      omega
    · exact hother j (by omega) same
  · have hsplit : Eh.entries b eh = k + ((Eh.entries b eh - k - 1) + 1) := by omega
    have hhit : Hit b eh logical k := by
      have hlast := ok.last k hk
      obtain ⟨_, hlo, hhi⟩ := covering
      have hlen : extentLen (Ex.count b (Eh.entry eh k)) =
          extentBlocks (Ex.count b (Eh.entry eh k)) := by
        unfold extentLen extentBlocks
        split
        · rw [if_neg (by omega)]
        · rw [if_pos (by omega)]
      constructor
      · exact hlo
      · rw [hlen, u32_of_lt hlast]
        exact hhi
    rw [hsplit, leafSearch_skip]
    · rw [Nat.zero_add, leafSearch_hit hhit]
    · intro j _ hj
      exact hother j (by omega) (by omega)

/-- Unless a full extent covers the block, the search computes the mapping of the leaf. -/
theorem LeafOrdered.leafSearch_eq (nofull : NoFullAt b eh logical)
    (maps : LeafMaps b eh logical phys) :
    leafSearch b eh logical (Eh.entries b eh) 0 = phys := by
  rcases maps with ⟨k, covering, written, rfl⟩ | ⟨unwritten, rfl⟩
  · have hne := nofull k covering
    rw [ok.leafSearch_covering covering, if_neg (by omega)]
  · by_cases some : ∃ k, Covering b eh logical k
    · obtain ⟨k, covering⟩ := some
      have hcount := unwritten k covering
      rw [ok.leafSearch_covering covering, if_pos (by omega)]
    · apply leafSearch_none
      intro j _ hj hit
      exact some ⟨j, ok.covering_of_hit (by omega) hit⟩

end

/-! ## Trees -/

/-- A node with room for `room` entries. -/
structure NodeOk (b : Bytes) (eh room depth : Nat) : Prop where
  magic : Eh.magic b eh = extentMagic
  depth : Eh.depth b eh = depth
  entries : Eh.entries b eh ≤ Eh.max b eh
  max : Eh.max b eh ≤ room

/-- An index node has entries, in order. -/
structure IndexOk (b : Bytes) (eh : Nat) : Prop where
  filled : 0 < Eh.entries b eh
  sorted : ∀ i j, i < j → j < Eh.entries b eh →
    Ix.firstBlock b (Eh.entry eh i) < Ix.firstBlock b (Eh.entry eh j)

/-- A tree of the given depth whose root is the node at `eh` of `b`; the other nodes are in
blocks of the filesystem. Block 0 holds the boot record and is none of them. -/
def WellFormed (disk : Bytes) (bs blocks : Nat) : Nat → Bytes → Nat → Nat → Prop
  | 0, b, eh, room => NodeOk b eh room 0 ∧ LeafOk b eh
  | depth + 1, b, eh, room =>
    NodeOk b eh room (depth + 1) ∧ IndexOk b eh ∧
      ∀ k, k < Eh.entries b eh →
        0 < Ix.leaf b (Eh.entry eh k) ∧ Ix.leaf b (Eh.entry eh k) < blocks ∧
          WellFormed disk bs blocks depth (blockAt disk bs (Ix.leaf b (Eh.entry eh k))) 0
            ((bs - 12) / 12)

/-- Entry `k` is the last one that starts at or before the block. -/
def LastIndex (b : Bytes) (eh logical k : Nat) : Prop :=
  k < Eh.entries b eh ∧ Ix.firstBlock b (Eh.entry eh k) ≤ logical ∧
    ∀ j, k < j → j < Eh.entries b eh → logical < Ix.firstBlock b (Eh.entry eh j)

/-- What a tree maps a block of the file to, when the descent reaches a leaf. -/
def TreeMaps (disk : Bytes) (bs : Nat) : Nat → Bytes → Nat → Nat → Nat → Prop
  | 0, b, eh, logical, phys => LeafMaps b eh logical phys
  | depth + 1, b, eh, logical, phys =>
    ∃ k, LastIndex b eh logical k ∧
      TreeMaps disk bs depth (blockAt disk bs (Ix.leaf b (Eh.entry eh k))) 0 logical phys

/-- The mapping of the tree in an inode. -/
def Mapped (w : World) (d : Nat) (inode : Bytes) (logical phys : Nat) : Prop :=
  TreeMaps (w.disk d) w.e4.blockSize (Eh.depth inode Ino.root) inode Ino.root logical phys

/-- The inode has a well-formed tree, of any depth. -/
structure HasTree (w : World) (d : Nat) (inode : Bytes) : Prop where
  extents : Ino.flags inode &&& inoFlagExtents ≠ 0
  tree : WellFormed (w.disk d) w.e4.blockSize w.e4.blocksCount (Eh.depth inode Ino.root)
    inode Ino.root 4

variable {disk boot : Bytes} {bs blocks room : Nat} {w : World} {d : Nat} {inode : Bytes}

theorem leafMaps_exists (b : Bytes) (eh logical : Nat) : ∃ phys, LeafMaps b eh logical phys := by
  by_cases written : ∃ i, Covering b eh logical i ∧ Ex.count b (Eh.entry eh i) ≤ 32768
  · obtain ⟨i, covering, hcount⟩ := written
    exact ⟨_, Or.inl ⟨i, covering, hcount, rfl⟩⟩
  · refine ⟨0, Or.inr ⟨fun i covering => ?_, rfl⟩⟩
    by_contra hle
    exact written ⟨i, covering, by omega⟩

theorem treeMaps_last (depth : Nat) (wf : WellFormed disk bs blocks depth b eh room) :
    ∃ phys, TreeMaps disk bs depth b eh 4294967295 phys := by
  induction depth generalizing b eh room with
  | zero => exact leafMaps_exists b eh _
  | succ depth ih =>
    obtain ⟨_, index, children⟩ := wf
    have hfilled := index.filled
    have hchild := children (Eh.entries b eh - 1) (by omega)
    obtain ⟨phys, hphys⟩ := ih hchild.2.2
    refine ⟨phys, Eh.entries b eh - 1, ⟨by omega, ?_, by omega⟩, hphys⟩
    have := get32_lt b (Eh.entry eh (Eh.entries b eh - 1))
    unfold Ix.firstBlock
    omega

/-- The disk with other contents of block 0. -/
def World.reboot (w : World) (d : Nat) (boot : Bytes) : World :=
  { w with bus := w.bus.setData d (copy (w.disk d) 0 boot 0 w.e4.blockSize) }

theorem reboot_kept (w : World) (d : Nat) (boot : Bytes) : Kept w (w.reboot d boot) := by
  refine ⟨rfl, fun e => ?_, rfl⟩
  by_cases same : e = d
  · subst same
    simp [World.reboot, Bus.setData]
  · simp [World.reboot, Bus.setData, same]

theorem reboot_disk (w : World) (d : Nat) (boot : Bytes) :
    (w.reboot d boot).disk d = copy (w.disk d) 0 boot 0 w.e4.blockSize := disk_setData _ _ _

theorem blockAt_boot {c : Nat} (hc : 0 < c) :
    blockAt (copy disk 0 boot 0 bs) bs c = blockAt disk bs c := by
  funext i
  have hle : bs ≤ c * bs := Nat.le_mul_of_pos_left bs hc
  exact copy_agree disk 0 boot 0 bs (c * bs + i) (c * bs + i + 1) (Or.inr (by omega)) _
    (Nat.le_refl _) (Nat.lt_succ_self _)

theorem WellFormed.treeMaps (depth : Nat) (wf : WellFormed disk bs blocks depth b eh room)
    (maps : TreeMaps disk bs depth b eh logical phys) :
    TreeMaps (copy disk 0 boot 0 bs) bs depth b eh logical phys := by
  induction depth generalizing b eh room with
  | zero => exact maps
  | succ depth ih =>
    obtain ⟨_, _, children⟩ := wf
    obtain ⟨k, last, below⟩ := maps
    obtain ⟨hpos, _, child⟩ := children k last.1
    refine ⟨k, last, ?_⟩
    rw [blockAt_boot hpos]
    exact ih child below

/-! ## The driver -/

theorem HasTree.magic (tree : HasTree w d inode) : Eh.magic inode Ino.root = extentMagic := by
  have hwf := tree.tree
  cases hdepth : Eh.depth inode Ino.root with
  | zero =>
    rw [hdepth] at hwf
    exact hwf.1.magic
  | succ depth =>
    rw [hdepth] at hwf
    exact hwf.1.magic

theorem e4Bmap_descends (extents : Ino.flags inode &&& inoFlagExtents ≠ 0)
    (magic : Eh.magic inode Ino.root = extentMagic) (logical : Nat) :
    e4Bmap inode logical = extentDescend inode logical (Eh.depth inode Ino.root) 0 := by
  unfold e4Bmap extentLookup
  rw [if_pos extents, if_neg (not_not.mpr magic)]

/-- The block that the driver finds in an inode with all its extents in the root. -/
def flatBlock (inode : Bytes) (logical : Nat) : Nat :=
  leafSearch inode Ino.root logical (Eh.entries inode Ino.root) 0

theorem leafSearch_small (b : Bytes) (eh logical more i : Nat) :
    leafSearch b eh logical more i < 562949953421312 := by
  induction more generalizing i with
  | zero => exact Nat.two_pow_pos 49
  | succ more ih =>
    have hlo := get32_lt b (Eh.entry eh i + 8)
    have hhi : get16 b (Eh.entry eh i + 6) <<< 32 < 2 ^ 48 := by
      have := get16_lt b (Eh.entry eh i + 6)
      omega
    have hstart : Ex.start b (Eh.entry eh i) < 2 ^ 48 :=
      Nat.or_lt_two_pow (Nat.lt_of_lt_of_le hlo (by decide)) hhi
    simp only [leafSearch]
    split
    next hit =>
      have hu32 : u32 (Ex.firstBlock b (Eh.entry eh i) + extentLen (Ex.count b (Eh.entry eh i))) <
          4294967296 := Nat.mod_lt _ (by decide)
      split
      · exact Nat.two_pow_pos 49
      · omega
    · exact ih (i + 1)

theorem flatBlock_small (inode : Bytes) (logical : Nat) :
    flatBlock inode logical < 562949953421312 :=
  leafSearch_small _ _ _ _ _

theorem HasTree.e4Bmap_eq (tree : HasTree w d inode) (logical : Nat) :
    e4Bmap inode logical = extentDescend inode logical (Eh.depth inode Ino.root) 0 :=
  e4Bmap_descends tree.extents tree.magic logical

theorem HasTree.leaf (tree : HasTree w d inode) (flat : Eh.depth inode Ino.root = 0) :
    LeafOk inode Ino.root := by
  have hwf := tree.tree
  rw [flat] at hwf
  exact hwf.2

theorem HasTree.e4Bmap_flat (tree : HasTree w d inode) (flat : Eh.depth inode Ino.root = 0)
    (logical : Nat) (s : World) :
    e4Bmap inode logical s =
    (some (leafSearch inode Ino.root logical (Eh.entries inode Ino.root) 0), s) := by
  rw [tree.e4Bmap_eq, flat]
  rfl

/-- From depth 1 on, the lookup starts in block 0 instead of the root, and finds nothing when
that block is blank. -/
theorem HasTree.e4Bmap_blank (t : Transfers w d) (tree : HasTree w d inode)
    (deep : Eh.depth inode Ino.root ≠ 0) (logical : Nat) :
    (e4Bmap inode logical (w.reboot d zero)).1 = none := by
  obtain ⟨depth, hdepth⟩ := Nat.exists_eq_succ_of_ne_zero deep
  have hblocks : 0 < w.e4.blocksCount := by
    have hwf := tree.tree
    rw [hdepth] at hwf
    obtain ⟨_, index, children⟩ := hwf
    have := children 0 index.filled
    omega
  have kept := reboot_kept w d zero
  have hread := (t.kept kept).readScratch1 (b := 0) (by exact hblocks)
  have hsize : 4 ≤ w.e4.blockSize := by
    have := t.sectors
    rw [t.blockSize]
    omega
  rw [tree.e4Bmap_eq, hdepth]
  unfold extentDescend
  rw [Cmd.bind_some hread, Cmd.get_bind]
  have hentries : Eh.entries (copy (w.reboot d zero).scratch1 0 ((w.reboot d zero).disk d)
      (0 * (w.reboot d zero).e4.blockSize) (w.reboot d zero).e4.blockSize) 0 = 0 := by
    have hoctet : ∀ k, k < 4 → copy (w.reboot d zero).scratch1 0 ((w.reboot d zero).disk d)
        (0 * (w.reboot d zero).e4.blockSize) (w.reboot d zero).e4.blockSize k = 0 := by
      intro k hk
      have hin := copy_inside (w.reboot d zero).scratch1 0 ((w.reboot d zero).disk d)
        (0 * (w.reboot d zero).e4.blockSize) (w.reboot d zero).e4.blockSize k
        (by show k < w.e4.blockSize; omega)
      rw [Nat.zero_add] at hin
      rw [hin, reboot_disk, Nat.zero_mul, Nat.zero_add]
      have hzero := copy_inside (w.disk d) 0 zero 0 w.e4.blockSize k (by omega)
      rw [Nat.zero_add] at hzero
      exact hzero
    unfold Eh.entries get16
    rw [hoctet 2 (by omega), hoctet (2 + 1) (by omega)]
    rfl
  simp only [hentries, indexSearch]
  rfl

/-- `e4_bmap` maps block `logical` as the tree does, whatever block 0 holds. -/
def MapsAt (w : World) (d : Nat) (inode : Bytes) (logical : Nat) : Prop :=
  ∀ boot phys, Mapped (w.reboot d boot) d inode logical phys →
    (e4Bmap inode logical (w.reboot d boot)).1 = some phys

theorem HasTree.mapsAt_iff (t : Transfers w d) (tree : HasTree w d inode)
    (mapped : ∃ phys, Mapped w d inode logical phys) :
    MapsAt w d inode logical ↔ Eh.depth inode Ino.root = 0 ∧ NoFullAt inode Ino.root logical := by
  constructor
  · intro right
    have flat : Eh.depth inode Ino.root = 0 := by
      by_contra deep
      obtain ⟨phys, maps⟩ := mapped
      have moved : TreeMaps (copy (w.disk d) 0 zero 0 w.e4.blockSize) _ _ _ _ _ _ :=
        tree.tree.treeMaps _ maps
      rw [← reboot_disk w d zero] at moved
      have hsome := right zero phys moved
      rw [tree.e4Bmap_blank t deep] at hsome
      cases hsome
    refine ⟨flat, fun k covering full => ?_⟩
    have ok := tree.leaf flat
    -- a block of a full extent is at its start or behind it, which is not 0
    have maps : Mapped (w.reboot d zero) d inode logical (Ex.start inode (Eh.entry Ino.root k) +
        logical - Ex.firstBlock inode (Eh.entry Ino.root k)) := by
      unfold Mapped
      rw [flat]
      exact Or.inl ⟨k, covering, by omega, rfl⟩
    have hsome := right zero _ maps
    rw [tree.e4Bmap_flat flat, ok.leafSearch_covering covering, if_pos (by omega)] at hsome
    have hstart := ok.start k covering.1
    have hfirst := covering.2.1
    have hzero := Option.some.inj hsome
    omega
  · rintro ⟨flat, nofull⟩ boot phys maps
    unfold Mapped at maps
    rw [flat] at maps
    rw [tree.e4Bmap_flat flat, (tree.leaf flat).leafSearch_eq nofull maps]

/-- `e4_bmap` maps a block as the tree does, whatever block 0 holds, exactly if the tree has
depth 0 and no full extent covers the block; it maps every block so exactly for trees of depth
0 without full extents. -/
theorem bmap_right_iff (t : Transfers w d) (tree : HasTree w d inode) :
    (∀ logical, (∃ phys, Mapped w d inode logical phys) →
      (MapsAt w d inode logical ↔
        Eh.depth inode Ino.root = 0 ∧ NoFullAt inode Ino.root logical)) ∧
    ((∀ boot logical phys, Mapped (w.reboot d boot) d inode logical phys →
      (e4Bmap inode logical (w.reboot d boot)).1 = some phys) ↔
    Eh.depth inode Ino.root = 0 ∧ NoFull inode Ino.root) := by
  refine ⟨fun logical mapped => tree.mapsAt_iff t mapped, ?_⟩
  constructor
  · intro right
    have flat := ((tree.mapsAt_iff t (treeMaps_last _ tree.tree)).mp
      fun boot phys => right boot _ phys).1
    refine ⟨flat, fun k hk => ?_⟩
    have hfilled := (tree.leaf flat).filled k hk
    have maps : ∃ phys, Mapped w d inode (Ex.firstBlock inode (Eh.entry Ino.root k)) phys := by
      unfold Mapped
      rw [flat]
      exact leafMaps_exists _ _ _
    exact ((tree.mapsAt_iff t maps).mp fun boot phys => right boot _ phys).2 k
      ⟨hk, Nat.le_refl _, by omega⟩
  · rintro ⟨flat, nofull⟩ boot logical phys maps
    unfold Mapped at maps
    rw [flat] at maps
    rw [tree.e4Bmap_flat flat, (tree.leaf flat).leafSearch_eq (nofull.at logical) maps]

/-! ## Two small trees -/

/-- An inode whose root has one entry: first block 0, then the last eight octets as two
words. -/
def oneEntryInode (depth second third : Nat) : Bytes :=
  let b := put32 zero 0x20 inoFlagExtents
  let b := put16 b 0x28 extentMagic
  let b := put16 b 0x2A 1
  let b := put16 b 0x2C 4
  let b := put16 b 0x2E depth
  let b := put32 b 0x38 second
  put32 b 0x3C third

/-- Root with an extent of one block, at block 11. -/
def flatInode : Bytes := oneEntryInode 0 1 11

/-- Root with an extent of 32768 blocks, at block 11. -/
def fullInode : Bytes := oneEntryInode 0 32768 11

/-- Root of depth 1 with its only leaf in block 10. -/
def deepInode : Bytes := oneEntryInode 1 10 0

/-- Block 10 is a leaf with one block of the file, at block 11. -/
def treeDisk : Bytes :=
  let b := put16 zero (10 * 1024) extentMagic
  let b := put16 b (10 * 1024 + 2) 1
  let b := put16 b (10 * 1024 + 4) 84
  let b := put16 b (10 * 1024 + 16) 1
  put32 b (10 * 1024 + 20) 11

def treeWorld : World where
  bus := ⟨fun _ => ⟨128, true, true, treeDisk⟩, 1, fun _ _ => none, 0⟩
  heap := ⟨fun _ => false, 0⟩
  e4 := { Ext4Fs.zeroed with
    dev := some 0, blockSize := 1024, sectorsPerBlock := 2, blocksCount := 64, inodesCount := 16,
    blocksPerGroup := 8192, inodesPerGroup := 16, groupCount := 1, firstDataBlock := 1,
    inodeSize := 256, descSize := 32, firstIno := 11, writable := true }
  scratch1 := zero
  scratch2 := zero
  stackJunk := zero
  jin := zero
  committed := []
  lastCommitSeq := 0

theorem treeWorld_transfers : Transfers treeWorld 0 :=
  ⟨rfl, rfl, rfl, rfl, fun _ _ => rfl, by decide, rfl, Or.inr (by decide), by decide⟩

theorem leafOk_single (one : Eh.entries b eh = 1)
    (filled : 0 < extentBlocks (Ex.count b (Eh.entry eh 0)))
    (last : Ex.firstBlock b (Eh.entry eh 0) + extentBlocks (Ex.count b (Eh.entry eh 0)) <
      4294967296) (start : 0 < Ex.start b (Eh.entry eh 0)) :
    LeafOk b eh := by
  have hzero : ∀ i, i < Eh.entries b eh → i = 0 := by omega
  constructor
  · constructor
    · intro i hi
      rw [hzero i hi]
      exact last
    · intro i j hij hj
      omega
  · intro i hi
    rw [hzero i hi]
    exact filled
  · intro i hi
    rw [hzero i hi]
    exact start

theorem oneEntry_flat {count : Nat} (node : NodeOk (oneEntryInode 0 count 11) Ino.root 4 0)
    (leaf : LeafOk (oneEntryInode 0 count 11) Ino.root)
    (extents : Ino.flags (oneEntryInode 0 count 11) &&& inoFlagExtents ≠ 0) :
    HasTree treeWorld 0 (oneEntryInode 0 count 11) := by
  refine ⟨extents, ?_⟩
  exact ⟨node, leaf⟩

theorem flatInode_tree : HasTree treeWorld 0 flatInode := by
  apply oneEntry_flat
  · exact ⟨by decide, by decide, by decide, by decide⟩
  · exact leafOk_single (by decide) (by decide) (by decide) (by decide)
  · decide

theorem fullInode_tree : HasTree treeWorld 0 fullInode := by
  apply oneEntry_flat
  · exact ⟨by decide, by decide, by decide, by decide⟩
  · exact leafOk_single (by decide) (by decide) (by decide) (by decide)
  · decide

theorem deepInode_tree : HasTree treeWorld 0 deepInode := by
  have hdepth : Eh.depth deepInode Ino.root = 1 := by decide
  have hone : Eh.entries deepInode Ino.root = 1 := by decide
  have hleaf : Ix.leaf deepInode (Eh.entry Ino.root 0) = 10 := by decide
  refine ⟨by decide, ?_⟩
  refine ⟨⟨by decide, hdepth, by decide, by decide⟩, ⟨by omega, by omega⟩, ?_⟩
  intro k hk
  have hk0 : k = 0 := by omega
  rw [hk0]
  refine ⟨by omega, by decide, ⟨by decide, by decide, by decide, by decide⟩, ?_⟩
  exact leafOk_single (by decide) (by decide) (by decide) (by decide)

/-- Block 0 of the file of `flatInode` is block 11, whatever the boot record is. -/
theorem bmap_right_iff_flat :
    Transfers treeWorld 0 ∧ HasTree treeWorld 0 flatInode ∧
      ∀ boot logical phys, Mapped (treeWorld.reboot 0 boot) 0 flatInode logical phys →
        (e4Bmap flatInode logical (treeWorld.reboot 0 boot)).1 = some phys := by
  have nofull : NoFull flatInode Ino.root := by
    unfold NoFull
    decide
  exact ⟨treeWorld_transfers, flatInode_tree,
    (bmap_right_iff treeWorld_transfers flatInode_tree).2.mpr ⟨by decide, nofull⟩⟩

/-- Block 0 of the file is block 11 in both trees; the lookup fails in the one of depth 1 and
reports a hole for the extent of 32768 blocks. -/
theorem deep_and_full_misread :
    Transfers treeWorld 0 ∧
      (HasTree treeWorld 0 deepInode ∧ Mapped treeWorld 0 deepInode 0 11 ∧
        (e4Bmap deepInode 0 treeWorld).1 = none) ∧
      (HasTree treeWorld 0 fullInode ∧ Mapped treeWorld 0 fullInode 0 11 ∧
        (e4Bmap fullInode 0 treeWorld).1 = some 0) := by
  refine ⟨treeWorld_transfers, ⟨deepInode_tree, ?_, by decide⟩,
    fullInode_tree, ?_, by decide⟩
  · have hdepth : Eh.depth deepInode Ino.root = 1 := by decide
    have hone : Eh.entries deepInode Ino.root = 1 := by decide
    unfold Mapped
    refine ⟨0, ⟨by omega, by decide, by omega⟩, Or.inl ⟨0, ?_, by decide, by decide⟩⟩
    unfold Covering
    decide
  · have hdepth : Eh.depth fullInode Ino.root = 0 := by decide
    unfold Mapped
    refine Or.inl ⟨0, ?_, by decide, by decide⟩
    unfold Covering
    decide

end Obsidian.Fs
