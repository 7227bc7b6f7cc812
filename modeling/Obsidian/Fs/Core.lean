import Obsidian.Fs.State
import Obsidian.Lib.Bitmap

/-!
# ext4 driver core

Source: fs/ext4_core.c: checksum plumbing, group descriptors, inodes, block maps
and block allocation.
-/
namespace Obsidian.Fs
open Lib Lib.Bytes Drivers

/-! ## Checksum plumbing -/

def e4MetaSeed (e4 : Ext4Fs) : Nat :=
  if e4.csumSeedFeat then Sb.checksumSeed e4.sb else e4.csumSeed

def e4SbRecomputeChecksum : Cmd World Unit := do
  let w ← Cmd.get
  setSb (Sb.putChecksum w.e4.sb (ext4Crc32c 0xFFFFFFFF w.e4.sb 0 1020))

def e4SyncSuperblock : Cmd World Unit := fun w =>
  let r := blkWrite w.bus w.e4.dev (ext4SuperOff / 512) 2 w.e4.sb
  (if r.1 then some () else none, { w with bus := r.2 })

/-- `e4_desc_checksum_set` on the descriptor at offset `gd` of `b`. -/
def e4DescChecksumSet (e4 : Ext4Fs) (group : Nat) (b : Bytes) (gd : Nat) : Bytes :=
  if e4.metaCsum then
    let b := Gd.putChecksum b gd 0
    let crc := ext4Crc32c (e4MetaSeed e4) (le32 group) 0 4
    let crc := ext4Crc32c crc b gd e4.descSize
    Gd.putChecksum b gd (crc &&& 0xFFFF)
  else if e4.gdtCsum then
    let crc := ext4Crc16 0xFFFF e4.uuid 0 16
    let crc := ext4Crc16 crc (le32 group) 0 4
    let crc := ext4Crc16 crc b gd 30
    let crc := ext4Crc16 crc b (gd + 32) (e4.descSize - 32)
    Gd.putChecksum b gd crc
  else b

/-- `e4_bitmap_checksum_set` on the descriptor at offset `gd` of `b`. -/
def e4BitmapChecksumSet (e4 : Ext4Fs) (bitmap : Bytes) (inodeBitmap : Bool) (b : Bytes) (gd : Nat) :
    Bytes :=
  if e4.metaCsum = false then b
  else
    let sz := if inodeBitmap then e4.inodesPerGroup / 8 else e4.blocksPerGroup / 8
    let crc := ext4Crc32c (e4MetaSeed e4) bitmap 0 sz
    if inodeBitmap then
      let b := Gd.putInodeBitmapCsumLo b gd (crc &&& 0xFFFF)
      if 60 ≤ e4.descSize then Gd.putInodeBitmapCsumHi b gd (crc >>> 16) else b
    else
      let b := Gd.putBlockBitmapCsumLo b gd (crc &&& 0xFFFF)
      if 58 ≤ e4.descSize then Gd.putBlockBitmapCsumHi b gd (crc >>> 16) else b

/-- `inode_has_csum_hi` -/
def inodeHasCsumHi (e4 : Ext4Fs) (inode : Bytes) : Bool :=
  ext4GoodOldInodeSize < e4.inodeSize ∧ 6 ≤ Ino.extraIsize inode

def e4InodeChecksumSet (e4 : Ext4Fs) (ino : Nat) (inode : Bytes) : Bytes :=
  if e4.metaCsum = false then inode
  else
    let bare := Ino.putChecksumHi (Ino.putChecksumLo inode 0) 0
    let crc := ext4Crc32c (e4MetaSeed e4) (le32 ino) 0 4
    let crc := ext4Crc32c crc (le32 (Ino.generation bare)) 0 4
    let crc := ext4Crc32c crc bare 0 e4.inodeSize
    let lo := Ino.putChecksumLo bare (crc &&& 0xFFFF)
    if inodeHasCsumHi e4 inode then Ino.putChecksumHi lo (crc >>> 16)
    else Ino.putChecksumHi lo (Ino.checksumHi inode)

/-! ## Group descriptors -/

/-- Offset of a cached descriptor. -/
def Ext4Fs.gdOff (e4 : Ext4Fs) (group : Nat) : Nat := group * e4.descSize

/-- The block a descriptor is stored in. -/
def Ext4Fs.descBlock (e4 : Ext4Fs) (group : Nat) : Nat :=
  u32 (u32 (e4.firstDataBlock + 1) + group / (e4.blockSize / e4.descSize))

/-- Offset of a descriptor in its block. -/
def Ext4Fs.descSlot (e4 : Ext4Fs) (group : Nat) : Nat :=
  group % (e4.blockSize / e4.descSize) * e4.descSize

/-- The loop of `e4_load_gdt` over the groups from `g` on. -/
def loadGdtFrom : Nat → Nat → Cmd World Unit
  | 0, _ => pure ()
  | more + 1, g => do
    let w ← Cmd.get
    readScratch1 (w.e4.descBlock g)
    let w ← Cmd.get
    setGdt (copy w.e4.gdt (w.e4.gdOff g) w.scratch1 (w.e4.descSlot g) w.e4.descSize)
    loadGdtFrom more (g + 1)

/-- `e4_load_gdt`; the checksum probe of group 0 only prints. -/
def e4LoadGdt : Cmd World Unit := do
  let w ← Cmd.get
  kmalloc (u32 (w.e4.descSize * w.e4.groupCount))
  setGdt zero
  loadGdtFrom w.e4.groupCount 0

def e4SyncGd (group : Nat) : Cmd World Unit := do
  let w ← Cmd.get
  if w.e4.groupCount ≤ group then Cmd.fail
  else do
    setGdt (e4DescChecksumSet w.e4 group w.e4.gdt (w.e4.gdOff group))
    readScratch2 (w.e4.descBlock group)
    let w ← Cmd.get
    setScratch2 (copy w.scratch2 (w.e4.descSlot group) w.e4.gdt (w.e4.gdOff group) w.e4.descSize)
    let w ← Cmd.get
    e4WriteBlock (w.e4.descBlock group) w.scratch2

/-! ## Inodes -/

def inodeTableBlock (e4 : Ext4Fs) (ino : Nat) : Nat :=
  let g := (ino - 1) / e4.inodesPerGroup
  if e4.groupCount ≤ g then 0
  else if e4.has64bit then
    Gd.inodeTableLo e4.gdt (e4.gdOff g) ||| Gd.inodeTableHi e4.gdt (e4.gdOff g) <<< 32
  else Gd.inodeTableLo e4.gdt (e4.gdOff g)

/-- `e4_read_inode(ino, out)`; an inode that straddles two blocks needs both buffers. -/
def e4ReadInode (ino : Nat) (out : Bytes) : Cmd World Bytes := do
  let w ← Cmd.get
  if ino < 1 ∨ w.e4.inodesCount < ino then Cmd.fail
  else do
    let byteOff := (ino - 1) % w.e4.inodesPerGroup * w.e4.inodeSize
    let blk := u64 (inodeTableBlock w.e4 ino + byteOff / w.e4.blockSize)
    let off := byteOff % w.e4.blockSize
    readScratch1 blk
    if u32 (off + w.e4.inodeSize) ≤ w.e4.blockSize then do
      let w ← Cmd.get
      pure (copy out 0 w.scratch1 off w.e4.inodeSize)
    else do
      readScratch2 (u64 (blk + 1))
      let w ← Cmd.get
      let part := w.e4.blockSize - off
      pure (copy (copy out 0 w.scratch1 off part) part w.scratch2 0 (w.e4.inodeSize - part))

/-- `e4_write_inode(ino, in)`; the blocks go through the first scratch buffer. -/
def e4WriteInode (ino : Nat) (inode : Bytes) : Cmd World Unit := do
  let w ← Cmd.get
  if ino < 1 ∨ w.e4.inodesCount < ino ∨ w.e4.writable = false then Cmd.fail
  else do
    let byteOff := (ino - 1) % w.e4.inodesPerGroup * w.e4.inodeSize
    let blk := u64 (inodeTableBlock w.e4 ino + byteOff / w.e4.blockSize)
    let off := byteOff % w.e4.blockSize
    if u32 (off + w.e4.inodeSize) ≤ w.e4.blockSize then do
      readScratch1 blk
      let w ← Cmd.get
      setScratch1 (copy w.scratch1 off inode 0 w.e4.inodeSize)
      let w ← Cmd.get
      e4WriteBlock blk w.scratch1
    else do
      let part := w.e4.blockSize - off
      readScratch1 blk
      let w ← Cmd.get
      setScratch1 (copy w.scratch1 off inode 0 part)
      let w ← Cmd.get
      e4WriteBlock blk w.scratch1
      readScratch1 (u64 (blk + 1))
      let w ← Cmd.get
      setScratch1 (copy w.scratch1 0 inode part (w.e4.inodeSize - part))
      let w ← Cmd.get
      e4WriteBlock (u64 (blk + 1)) w.scratch1

def e4IsDir (inode : Bytes) : Bool := Ino.mode inode &&& 0xF000 = 0x4000

def e4InodeSize (e4 : Ext4Fs) (inode : Bytes) : Nat :=
  if e4IsDir inode then Ino.sizeLo inode
  else if e4.featRoCompat &&& featRoLargeFile ≠ 0 then
    Ino.sizeLo inode ||| Ino.sizeOrDirAcl inode <<< 32
  else Ino.sizeLo inode

/-- `e4_extent_block_checksum_set(ino, eh)` with `eh` at the start of a scratch buffer: the
second one, or the first. Reading the inode goes through the first buffer. -/
def e4ExtentBlockChecksumSet (second : Bool) (ino : Nat) : Cmd World Unit := do
  let w ← Cmd.get
  if w.e4.metaCsum = false then pure ()
  else do
    match ← Cmd.attempt (e4ReadInode ino w.stackJunk) with
    | none => pure ()
    | some host => do
      let w ← Cmd.get
      let eh := if second then w.scratch2 else w.scratch1
      let len := 12 + Eh.max eh 0 * 12
      let crc := ext4Crc32c (e4MetaSeed w.e4) (le32 ino) 0 4
      let crc := ext4Crc32c crc (le32 (Ino.generation host)) 0 4
      let crc := ext4Crc32c crc eh 0 len
      if second then setScratch2 (put32 eh len crc) else setScratch1 (put32 eh len crc)

/-- The walk of `e4_dir_block_checksum_set` along the entries: where it ends, when it does
not meet a broken one. -/
def tailWalk (blk : Bytes) (top : Nat) : Nat → Nat → Option Nat
  | 0, _ => none
  | fuel + 1, d =>
    if top ≤ d then some d
    else if De.recLen blk d < 8 ∨ De.recLen blk d &&& 3 ≠ 0 then none
    else tailWalk blk top fuel (d + De.recLen blk d)

/-- `e4_dir_block_checksum_set(dir_ino, blk)`; every caller passes the first scratch buffer,
through which the inode is read. -/
def e4DirBlockChecksumSet (dirIno : Nat) : Cmd World Unit := do
  let w ← Cmd.get
  if w.e4.metaCsum = false then pure ()
  else do
    match ← Cmd.attempt (e4ReadInode dirIno w.stackJunk) with
    | none => pure ()
    | some host => do
      let w ← Cmd.get
      let blk := w.scratch1
      let top := w.e4.blockSize
      if tailWalk blk top (top + 1) 0 ≠ some top then pure ()
      else if De.inode blk (top - 12) ≠ 0 ∨ De.nameLen blk (top - 12) ≠ direntTailMarker ∨
          De.recLen blk (top - 12) ≠ 12 then pure ()
      else do
        let crc := ext4Crc32c (e4MetaSeed w.e4) (le32 dirIno) 0 4
        let crc := ext4Crc32c crc (le32 (Ino.generation host)) 0 4
        let crc := ext4Crc32c crc blk 0 (top - 12)
        setScratch1 (put32 blk (top - 4) crc)

/-! ## Extent and indirect mapping -/

/-- Blocks of an extent: a count from 32768 on means unwritten. -/
def extentLen (count : Nat) : Nat := if 32768 ≤ count then count - 32768 else count

/-- The loop over the extents of a leaf, from entry `i` on. -/
def leafSearch (b : Bytes) (eh logical : Nat) : Nat → Nat → Nat
  | 0, _ => 0
  | more + 1, i =>
    let ex := Eh.entry eh i
    if Ex.firstBlock b ex ≤ logical ∧
        logical < u32 (Ex.firstBlock b ex + extentLen (Ex.count b ex)) then
      if 32768 ≤ Ex.count b ex then 0 else Ex.start b ex + logical - Ex.firstBlock b ex
    else leafSearch b eh logical more (i + 1)

/-- The loop over the entries of an index node: the last one that starts at or before the
block looked for. -/
def indexSearch (b : Bytes) (eh logical : Nat) : Nat → Nat → Option Nat → Option Nat
  | 0, _, chosen => chosen
  | more + 1, i, chosen =>
    indexSearch b eh logical more (i + 1)
      (if Ix.firstBlock b (Eh.entry eh i) ≤ logical then some i else chosen)

/-- The loop of `extent_lookup`: with depth left, the node is read from `nodeBlock`; at
depth 0 it is the root in the inode. -/
def extentDescend (inode : Bytes) (logical : Nat) : Nat → Nat → Cmd World Nat
  | 0, _ => pure (leafSearch inode Ino.root logical (Eh.entries inode Ino.root) 0)
  | depth + 1, nodeBlock => do
    readScratch1 nodeBlock
    let w ← Cmd.get
    match indexSearch w.scratch1 0 logical (Eh.entries w.scratch1 0) 0 none with
    | none => Cmd.fail
    | some chosen => extentDescend inode logical depth (Ix.leaf w.scratch1 (Eh.entry 0 chosen))

def extentLookup (inode : Bytes) (logical : Nat) : Cmd World Nat :=
  if Eh.magic inode Ino.root ≠ extentMagic then Cmd.fail
  else extentDescend inode logical (Eh.depth inode Ino.root) 0

/-- `stride` after `level` rounds of `stride *= bpp`. -/
def strideOf (bpp : Nat) : Nat → Nat
  | 0 => 1
  | level + 1 => u32 (strideOf bpp level * bpp)

/-- The loop of `indirect_lookup` from level `levels - 1` down to 0. -/
def indirectWalk (remaining bpp : Nat) : Nat → Nat → Cmd World Nat
  | 0, ind => pure ind
  | level + 1, ind =>
    if ind = 0 then pure 0
    else do
      readScratch1 ind
      let w ← Cmd.get
      indirectWalk remaining bpp level
        (get32 w.scratch1 (u32 (remaining / strideOf bpp level % bpp) * 4))

def indirectLookup (inode : Bytes) (logical : Nat) : Cmd World Nat := do
  let w ← Cmd.get
  let bpp := w.e4.blockSize / 4
  let singleMax := u32 (12 + bpp)
  let doubleMax := u32 (singleMax + u32 (bpp * bpp))
  if logical < 12 then pure (Ino.block inode logical)
  else if logical < singleMax then indirectWalk (logical - 12) bpp 2 (Ino.block inode 12)
  else if logical < doubleMax then indirectWalk (logical - singleMax) bpp 3 (Ino.block inode 13)
  else indirectWalk (logical - doubleMax) bpp 4 (Ino.block inode 14)

def e4Bmap (inode : Bytes) (fileBlock : Nat) : Cmd World Nat :=
  if Ino.flags inode &&& inoFlagExtents ≠ 0 then extentLookup inode fileBlock
  else indirectLookup inode fileBlock

/-! ## Allocation -/

def blkOf (e4 : Ext4Fs) (group index : Nat) : Nat :=
  u64 (e4.firstDataBlock + group * e4.blocksPerGroup + index)

/-- The block that holds a group's block or inode bitmap. -/
def Ext4Fs.bitmapBlock (e4 : Ext4Fs) (inodeMap : Bool) (group : Nat) : Nat :=
  let gd := e4.gdOff group
  let lo := if inodeMap then Gd.inodeBitmapLo e4.gdt gd else Gd.blockBitmapLo e4.gdt gd
  if e4.has64bit then
    lo ||| (if inodeMap then Gd.inodeBitmapHi e4.gdt gd else Gd.blockBitmapHi e4.gdt gd) <<< 32
  else lo

/-- `load_bitmap`: the bitmap is in the first scratch buffer afterwards. -/
def loadBitmap (inodeMap : Bool) (group : Nat) : Cmd World Nat := do
  let w ← Cmd.get
  if w.e4.groupCount ≤ group then Cmd.fail
  else do
    readScratch1 (w.e4.bitmapBlock inodeMap group)
    pure (w.e4.bitmapBlock inodeMap group)

/-- A number in a signed word of 64 bits. -/
def toS64 (v : Int) : Int := v.bmod 18446744073709551616

def adjustFreeBlocks (group : Nat) (delta : Int) : Cmd World Unit := Cmd.modify fun w =>
  let gd := w.e4.gdOff group
  let v := ((Gd.freeBlocksCountLo w.e4.gdt gd : Int) + delta).toNat
  let gdt := Gd.putFreeBlocksCountLo w.e4.gdt gd v
  let gdt :=
    if w.e4.has64bit = true ∧ 44 ≤ w.e4.descSize then
      Gd.putFreeBlocksCountHi gdt gd (v >>> 16 &&& 0xFFFF)
    else gdt
  let total := (toS64 ((Sb.freeBlocksCountLo w.e4.sb : Int) +
    (Sb.freeBlocksCountHi w.e4.sb : Int) * 4294967296 + delta)).toNat
  let sb := Sb.putFreeBlocksCountLo w.e4.sb total
  { w with e4 := { w.e4 with gdt := gdt, sb := Sb.putFreeBlocksCountHi sb (total >>> 32) } }

/-- Bits of a group's block bitmap that stand for blocks: the last group may be short. -/
def Ext4Fs.lastBits (e4 : Ext4Fs) (g : Nat) : Nat :=
  if g = e4.groupCount - 1 then
    u32 (sub64 (sub64 e4.blocksCount e4.firstDataBlock) (g * e4.blocksPerGroup))
  else e4.blocksPerGroup

/-- The loop over the bits of one octet, from `bit` on. -/
def scanBits (v byteI lastBits : Nat) : Nat → Nat → Option Nat
  | 0, _ => none
  | more + 1, bit =>
    if lastBits ≤ u32 (byteI * 8 + bit) then none
    else if v &&& 1 <<< bit = 0 then some (u32 (byteI * 8 + bit))
    else scanBits v byteI lastBits more (bit + 1)

/-- The loop over the octets of a bitmap, from `byteI` on. -/
def scanOctets (bm : Bytes) (lastBits : Nat) : Nat → Nat → Option Nat
  | 0, _ => none
  | more + 1, byteI =>
    if get8 bm byteI = 0xFF then scanOctets bm lastBits more (byteI + 1)
    else
      match scanBits (get8 bm byteI) byteI lastBits 8 0 with
      | some bidx => some bidx
      | none => scanOctets bm lastBits more (byteI + 1)

def findClear (bm : Bytes) (lastBits : Nat) : Option Nat :=
  scanOctets bm lastBits (u32 (lastBits + 7) / 8) 0

/-- What is done to the bit found: mark it, count it, write descriptor and bitmap back and
clear the block. Return codes of the writes are dropped. -/
def takeBlock (g blk bidx : Nat) : Cmd World Unit := do
  let w ← Cmd.get
  setScratch1 (setBit w.scratch1 bidx)
  let w ← Cmd.get
  setGdt (e4BitmapChecksumSet w.e4 w.scratch1 false w.e4.gdt (w.e4.gdOff g))
  adjustFreeBlocks g (-1)
  Cmd.ignore (e4SyncGd g)
  let w ← Cmd.get
  Cmd.ignore (e4WriteBlock blk w.scratch1)
  let w ← Cmd.get
  setScratch2 (fill w.scratch2 0 w.e4.blockSize 0)
  let w ← Cmd.get
  Cmd.ignore (e4WriteBlock (blkOf w.e4 g bidx) w.scratch2)

/-- The loop of `e4_alloc_block_near` over the groups, from `gi` on. -/
def allocFrom (hintGroup : Nat) : Nat → Nat → Cmd World Nat
  | 0, _ => Cmd.fail
  | more + 1, gi => do
    let w ← Cmd.get
    let g := u32 (hintGroup + gi) % w.e4.groupCount
    match ← Cmd.attempt (loadBitmap false g) with
    | none => allocFrom hintGroup more (gi + 1)
    | some blk => do
      let w ← Cmd.get
      match findClear w.scratch1 (w.e4.lastBits g) with
      | none => allocFrom hintGroup more (gi + 1)
      | some bidx => do
        takeBlock g blk bidx
        pure (blkOf w.e4 g bidx)

def e4AllocBlockNear (hintGroup : Nat) : Cmd World Nat := do
  let w ← Cmd.get
  if w.e4.writable = false then Cmd.fail else allocFrom hintGroup w.e4.groupCount 0

def e4FreeBlock (block : Nat) : Cmd World Unit := do
  let w ← Cmd.get
  if w.e4.writable = false ∨ block < w.e4.firstDataBlock ∨ w.e4.blocksCount ≤ block then Cmd.fail
  else do
    let g := u32 ((block - w.e4.firstDataBlock) / w.e4.blocksPerGroup)
    let idx := u32 ((block - w.e4.firstDataBlock) % w.e4.blocksPerGroup)
    let blk ← loadBitmap false g
    let w ← Cmd.get
    if bitAt w.scratch1 idx = false then Cmd.fail
    else do
      setScratch1 (clearBit w.scratch1 idx)
      let w ← Cmd.get
      setGdt (e4BitmapChecksumSet w.e4 w.scratch1 false w.e4.gdt (w.e4.gdOff g))
      adjustFreeBlocks g 1
      Cmd.ignore (e4SyncGd g)
      let w ← Cmd.get
      e4WriteBlock blk w.scratch1

/-! ## Inodes -/

/-- A word read as a signed number. -/
def toS32 (v : Nat) : Int := if v < 2147483648 then v else (v : Int) - 4294967296

def adjustFreeInodes (group : Nat) (delta : Int) : Cmd World Unit := Cmd.modify fun w =>
  let gd := w.e4.gdOff group
  let v := ((Gd.freeInodesCountLo w.e4.gdt gd : Int) + delta).toNat
  let gdt := Gd.putFreeInodesCountLo w.e4.gdt gd v
  let gdt :=
    if w.e4.has64bit = true ∧ 46 ≤ w.e4.descSize then
      Gd.putFreeInodesCountHi gdt gd (v >>> 16 &&& 0xFFFF)
    else gdt
  let total := (toS32 (Sb.freeInodesCount w.e4.sb) + delta).toNat
  { w with e4 := { w.e4 with gdt := gdt, sb := Sb.putFreeInodesCount w.e4.sb total } }

/-- The bitmap of a group flagged INODE_UNINIT, which was never written. -/
def freshInodeBitmap (e4 : Ext4Fs) (g : Nat) (bm : Bytes) : Bytes :=
  let bm := fill bm 0 e4.blockSize 0
  if g = 0 then setBits bm (min (e4.firstIno - 1) e4.inodesPerGroup) else bm

/-- The descriptor of such a group once its bitmap is there. -/
def clearUninit (e4 : Ext4Fs) (g : Nat) : Bytes :=
  let gd := e4.gdOff g
  let gdt := Gd.putFlags e4.gdt gd (Gd.flags e4.gdt gd &&& 0xFFFE)
  let gdt := Gd.putItableUnusedLo gdt gd 0
  if e4.has64bit = true ∧ 50 ≤ e4.descSize then Gd.putItableUnusedHi gdt gd 0 else gdt

/-- The loop over the bits of an inode bitmap, from `i` on. -/
def findInode (e4 : Ext4Fs) (bm : Bytes) (g : Nat) : Nat → Nat → Option Nat
  | 0, _ => none
  | more + 1, i =>
    if bitAt bm i then findInode e4 bm g more (i + 1)
    else if u32 (g * e4.inodesPerGroup + i + 1) < e4.firstIno ∨
        e4.inodesCount < u32 (g * e4.inodesPerGroup + i + 1) then findInode e4 bm g more (i + 1)
    else some i

/-- A directory is counted in its group. -/
def countDir (g mode : Nat) : Cmd World Unit := do
  let w ← Cmd.get
  if mode &&& 0x4000 = 0 then pure ()
  else do
    let gd := w.e4.gdOff g
    let d := u16 (Gd.usedDirsCountLo w.e4.gdt gd + 1)
    let gdt := Gd.putUsedDirsCountLo w.e4.gdt gd d
    setGdt (if w.e4.has64bit = true ∧ 48 ≤ w.e4.descSize then Gd.putUsedDirsCountHi gdt gd
      (d >>> 16)
      else gdt)

/-- What is done to the inode found. -/
def takeInode (g blk i mode : Nat) : Cmd World Unit := do
  let w ← Cmd.get
  setScratch1 (setBit w.scratch1 i)
  let w ← Cmd.get
  setGdt (e4BitmapChecksumSet w.e4 w.scratch1 true w.e4.gdt (w.e4.gdOff g))
  adjustFreeInodes g (-1)
  countDir g mode
  Cmd.ignore (e4SyncGd g)
  let w ← Cmd.get
  Cmd.ignore (e4WriteBlock blk w.scratch1)

/-- The loop of `e4_alloc_inode` over the groups, from `gi` on. `first_ino` is not zero once
mounted. -/
def allocInodeFrom (preferGroup mode : Nat) : Nat → Nat → Cmd World Nat
  | 0, _ => Cmd.fail
  | more + 1, gi => do
    let w ← Cmd.get
    let g := u32 (preferGroup + gi) % w.e4.groupCount
    match ← Cmd.attempt (loadBitmap true g) with
    | none => allocInodeFrom preferGroup mode more (gi + 1)
    | some blk => do
      let w ← Cmd.get
      if Gd.flags w.e4.gdt (w.e4.gdOff g) &&& 1 ≠ 0 then do
        setScratch1 (freshInodeBitmap w.e4 g w.scratch1)
        setGdt (clearUninit w.e4 g)
      else pure ()
      let w ← Cmd.get
      match findInode w.e4 w.scratch1 g (w.e4.inodesPerGroup - (w.e4.firstIno - 1))
        (w.e4.firstIno - 1) with
      | none => allocInodeFrom preferGroup mode more (gi + 1)
      | some i => do
        takeInode g blk i mode
        pure (u32 (g * w.e4.inodesPerGroup + i + 1))

def e4AllocInode (preferGroup mode : Nat) : Cmd World Nat := do
  let w ← Cmd.get
  if w.e4.writable = false then Cmd.fail else allocInodeFrom preferGroup mode w.e4.groupCount 0

def e4FreeInode (ino : Nat) : Cmd World Unit := do
  let w ← Cmd.get
  if w.e4.writable = false ∨ ino < w.e4.firstIno ∨ w.e4.inodesCount < ino then Cmd.fail
  else do
    let g := (ino - 1) / w.e4.inodesPerGroup
    let idx := (ino - 1) % w.e4.inodesPerGroup
    let blk ← loadBitmap true g
    let w ← Cmd.get
    if bitAt w.scratch1 idx = false then Cmd.fail
    else do
      setScratch1 (clearBit w.scratch1 idx)
      let w ← Cmd.get
      setGdt (e4BitmapChecksumSet w.e4 w.scratch1 true w.e4.gdt (w.e4.gdOff g))
      adjustFreeInodes g 1
      Cmd.ignore (e4SyncGd g)
      let w ← Cmd.get
      e4WriteBlock blk w.scratch1

end Obsidian.Fs
