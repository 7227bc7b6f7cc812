import Obsidian.Fs.Core

/-!
# Extent trees, truncation and directories

Source: fs/ext4_fsops.c, with `k_strcmp` of lib/string.c.

The array of runs that `e4_append_blocks` allocates is a list. An inode that a
function changes through a pointer is an argument and a result; when the function
fails its callers drop the inode.
-/
namespace Obsidian.Fs
open Lib Lib.Bytes

/-- `struct run` -/
structure ExtRun where
  start : Nat
  firstBlock : Nat
  count : Nat
  deriving DecidableEq, Repr

/-- `i_blocks`, in sectors. -/
def iblocks (e4 : Ext4Fs) (inode : Bytes) : Nat :=
  if 128 < e4.inodeSize then Ino.blocksLo inode ||| Ino.blocksHi inode <<<
    32 else Ino.blocksLo inode

def addIblocks (e4 : Ext4Fs) (inode : Bytes) (deltaBytes : Int) : Bytes :=
  let cur := ((iblocks e4 inode : Int) + deltaBytes.tdiv 512).toNat
  let inode := Ino.putBlocksLo inode cur
  if 128 < e4.inodeSize then Ino.putBlocksHi inode (cur >>> 32) else inode

/-! ## Building the tree -/

def rootMaxEntries : Nat := 4

/-- `(e4.block_size - 12 - (e4.meta_csum ? 4 : 0)) / 12` -/
def leafRoom (e4 : Ext4Fs) : Nat := (e4.blockSize - 12 - (if e4.metaCsum then 4 else 0)) / 12

def leafCapacity (e4 : Ext4Fs) : Nat := if leafRoom e4 ≠ 0 then leafRoom e4 else 1

/-- One extent; a count of 32768 is stored as 32767, larger ones lose their high bits. -/
def putExtent (b : Bytes) (ex : Nat) (r : ExtRun) : Bytes :=
  let b := Ex.putFirstBlock b ex r.firstBlock
  let b := Ex.putCount b ex (if r.count = 32768 then 32767 else r.count)
  let b := Ex.putStartLo b ex r.start
  Ex.putStartHi b ex (r.start >>> 32)

/-- The extents of a node, from entry `i` on. -/
def putExtents (b : Bytes) (eh : Nat) : List ExtRun → Nat → Bytes
  | [], _ => b
  | r :: rest, i => putExtents (putExtent b (Eh.entry eh i) r) eh rest (i + 1)

/-- `write_leaf`: the block of the new leaf. -/
def writeLeaf (ino : Nat) (runs : List ExtRun) : Cmd World Nat := do
  let blk ← e4AllocBlockNear 0
  let w ← Cmd.get
  let b := fill w.scratch1 0 w.e4.blockSize 0
  let b := Eh.putMagic b 0 extentMagic
  let b := Eh.putDepth b 0 0
  let b := Eh.putMax b 0 (leafRoom w.e4)
  let b := Eh.putEntries b 0 runs.length
  setScratch1 (putExtents b 0 runs 0)
  e4ExtentBlockChecksumSet false ino
  let w ← Cmd.get
  e4WriteBlock blk w.scratch1
  pure blk

/-- Header of the root in the inode. -/
def putRoot (inode : Bytes) (entries depth : Nat) : Bytes :=
  let b := Eh.putMagic inode Ino.root extentMagic
  let b := Eh.putEntries b Ino.root entries
  let b := Eh.putMax b Ino.root rootMaxEntries
  let b := Eh.putDepth b Ino.root depth
  Eh.putGeneration b Ino.root 0

/-- The loop of `build_tree` that writes leaves: their blocks, and the inode with them
counted. -/
def writeLeaves (ino cap : Nat) : Nat → List ExtRun → Bytes → Cmd World (List Nat × Bytes)
  | 0, _, inode => pure ([], inode)
  | more + 1, runs, inode => do
    let blk ← writeLeaf ino (runs.take cap)
    let w ← Cmd.get
    let r ← writeLeaves ino cap more (runs.drop cap) (addIblocks w.e4 inode w.e4.blockSize)
    pure (blk :: r.1, r.2)

def putIndex (b : Bytes) (ix firstBlock leaf : Nat) : Bytes :=
  let b := Ix.putFirstBlock b ix firstBlock
  let b := Ix.putLeafLo b ix leaf
  let b := Ix.putLeafHi b ix (leaf >>> 32)
  Ix.putUnused b ix 0

/-- The index entries of the root, from entry `l` on. -/
def putIndexes (cap : Nat) (inode : Bytes) : List Nat → List ExtRun → Nat → Bytes
  | [], _, _ => inode
  | leaf :: rest, runs, l =>
    putIndexes cap (putIndex inode (Eh.entry Ino.root l) (runs.headD ⟨0, 0, 0⟩).firstBlock leaf)
      rest
      (runs.drop cap) (l + 1)

def buildTree (ino : Nat) (runs : List ExtRun) (inode : Bytes) : Cmd World Bytes :=
  if runs.length = 0 then pure (putRoot inode 0 0)
  else if runs.length ≤ rootMaxEntries then
    pure (putExtents (putRoot inode runs.length 0) Ino.root runs 0)
  else do
    let w ← Cmd.get
    let cap := leafCapacity w.e4
    let leaves := (runs.length + cap - 1) / cap
    if rootMaxEntries < leaves then Cmd.fail
    else do
      let r ← writeLeaves ino cap leaves runs inode
      pure (putIndexes cap (putRoot r.2 leaves 1) r.1 runs 0)

/-- Add a block to the runs: it extends the last one or starts a new one. -/
def pushBlock (runs : List ExtRun) (blk fileBlock : Nat) : List ExtRun :=
  match runs.getLast? with
  | some r =>
    if u64 (r.start + r.count) = blk ∧ u32 (r.firstBlock + r.count) = fileBlock then
      runs.dropLast ++ [{ r with count := u32 (r.count + 1) }]
    else runs ++ [⟨blk, u32 fileBlock, 1⟩]
  | none => [⟨blk, u32 fileBlock, 1⟩]

/-- The loop of `e4_append_blocks`, with `done` blocks behind it; `data` is NULL or the
octets to write. -/
def appendLoop (startFileBlock : Nat) (data : Option Bytes) :
    Nat → Nat → List ExtRun → Cmd World (List ExtRun)
  | 0, _, runs => pure runs
  | more + 1, done, runs => do
    let w ← Cmd.get
    let blk ← e4AllocBlockNear (u32 (u64 (startFileBlock + done) / w.e4.blocksPerGroup))
    let w ← Cmd.get
    match data with
    | some octets => setScratch2 (copy w.scratch2 0 octets (done * w.e4.blockSize) w.e4.blockSize)
    | none => setScratch2 (fill w.scratch2 0 w.e4.blockSize 0)
    let w ← Cmd.get
    e4WriteBlock blk w.scratch2
    appendLoop startFileBlock data more (done + 1)
      (pushBlock runs blk (u64 (startFileBlock + done)))

def e4AppendBlocks (inode : Bytes) (ino startFileBlock count : Nat) (data : Option Bytes) :
    Cmd World Bytes := do
  kmalloc (u32 (16 * u32 (count + 1)))
  let runs ← appendLoop startFileBlock data count 0 []
  let inode ← buildTree ino runs inode
  let w ← Cmd.get
  pure (addIblocks w.e4 inode (count * w.e4.blockSize))

/-! ## Truncation -/

/-- `for (j = 0; j < cnt; j++) e4_free_block(start + j)`, from `j` on. -/
def freeBlocks (start : Nat) : Nat → Nat → Cmd World Unit
  | 0, _ => pure ()
  | more + 1, j => do
    Cmd.ignore (e4FreeBlock (u64 (start + j)))
    freeBlocks start more (j + 1)

/-- The loop over the extents of a depth-0 root, from entry `i` on: the blocks freed.
Unwritten extents are passed over. -/
def freeExtents (inode : Bytes) : Nat → Nat → Cmd World Nat
  | 0, _ => pure 0
  | more + 1, i => do
    let ex := Eh.entry Ino.root i
    if 32768 ≤ Ex.count inode ex then freeExtents inode more (i + 1)
    else do
      freeBlocks (Ex.start inode ex) (Ex.count inode ex) 0
      let freed ← freeExtents inode more (i + 1)
      pure (Ex.count inode ex + freed)

/-- The loop over the index entries of a deeper root, from entry `i` on: it frees the nodes
they name. -/
def freeNodes (inode : Bytes) : Nat → Nat → Cmd World Unit
  | 0, _ => pure ()
  | more + 1, i => do
    let leaf := Ix.leaf inode (Eh.entry Ino.root i)
    if leaf ≠ 0 then Cmd.ignore (e4FreeBlock leaf) else pure ()
    freeNodes inode more (i + 1)

def freeExtentTree (inode : Bytes) : Cmd World Bytes :=
  let entries := Eh.entries inode Ino.root
  if Eh.magic inode Ino.root ≠ extentMagic ∨ entries = 0 then pure inode
  else do
    let freed ←
      if Eh.depth inode Ino.root = 0 then freeExtents inode (min entries 4) 0
      else do
        freeNodes inode (min entries (Eh.max inode Ino.root)) 0
        pure entries
    let w ← Cmd.get
    let inode := addIblocks w.e4 inode (-((freed * w.e4.blockSize : Nat) : Int))
    pure (Eh.putDepth (Eh.putEntries inode Ino.root 0) Ino.root 0)

/-- Apply `f` to the child pointers of a snapshot, from `i` on. -/
def forChildren (f : Nat → Nat → Cmd World Nat) (snapshot : Bytes) : Nat → Nat → Nat → Cmd World Nat
  | 0, _, freed => pure freed
  | more + 1, i, freed => do
    let freed ← f (get32 snapshot (4 * i)) freed
    forChildren f snapshot more (i + 1) freed

def freeIndirectTree : Nat → Nat → Nat → Cmd World Nat
  | 0, blk, freed =>
    if blk = 0 then pure freed
    else do
      Cmd.ignore (e4FreeBlock blk)
      pure (u32 (freed + 1))
  | levels + 1, blk, freed =>
    if blk = 0 then pure freed
    else do
      let w ← Cmd.get
      match ← Cmd.attempt (kmalloc w.e4.blockSize) with
      | none => pure freed
      | some _ =>
        match ← Cmd.attempt (readFresh blk) with
        | none => pure freed
        | some snapshot => do
          let freed ← forChildren (freeIndirectTree levels) snapshot (w.e4.blockSize / 4) 0 freed
          Cmd.ignore (e4FreeBlock blk)
          pure (u32 (freed + 1))

/-- The loop over the direct blocks, from entry `n - 1` down. -/
def freeDirect : Nat → Bytes → Nat → Cmd World (Bytes × Nat)
  | 0, inode, freed => pure (inode, freed)
  | i + 1, inode, freed =>
    if Ino.block inode i ≠ 0 then do
      Cmd.ignore (e4FreeBlock (Ino.block inode i))
      freeDirect i (Ino.putBlock inode i 0) (freed + 1)
    else freeDirect i inode freed

/-- The loop over entries 12 to 14, from `which` on. -/
def freeIndirect : Nat → Nat → Bytes → Nat → Cmd World (Bytes × Nat)
  | 0, _, inode, freed => pure (inode, freed)
  | more + 1, which, inode, freed => do
    let freed ← freeIndirectTree (which - 11) (Ino.block inode which) freed
    freeIndirect more (which + 1) (Ino.putBlock inode which 0) freed

def e4Truncate (inode : Bytes) (newSize : Nat) : Cmd World Bytes :=
  if newSize ≠ 0 then Cmd.fail
  else do
    let inode ←
      if Ino.flags inode &&& inoFlagExtents ≠ 0 then freeExtentTree inode
      else do
        let direct ← freeDirect 12 inode 0
        let all ← freeIndirect 3 12 direct.1 direct.2
        let w ← Cmd.get
        pure (addIblocks w.e4 all.1 (-((all.2 * w.e4.blockSize : Nat) : Int)))
    pure (Ino.putSizeOrDirAcl (Ino.putSizeLo inode 0) 0)

/-! ## Directories -/

/-- `k_strcmp` on strings without their terminator. -/
def kStrcmp : List UInt8 → List UInt8 → Int
  | [], b => -((b.headD 0).toNat : Int)
  | a :: _, [] => (a.toNat : Int)
  | a :: as, b :: bs => if a ≠ 0 ∧ a = b then kStrcmp as bs else (a.toNat : Int) - (b.toNat : Int)

/-- A callback of `e4_iterate_dir`: name, inode, file type and context to return code and
new context. -/
abbrev DirCb (κ : Type) : Type := List UInt8 → Nat → Nat → κ → Int × κ

variable {κ : Type}

/-- `scan_dirent_block` from offset `d` on. An entry is at least four octets long, so a
block has fewer steps than octets. -/
def scanDirentBlock (e4 : Ext4Fs) (blk : Bytes) (cb : DirCb κ) : Nat → Nat → κ → Int × κ
  | 0, _, ctx => (0, ctx)
  | fuel + 1, d, ctx =>
    let rl := De.recLen blk d
    if e4.blockSize < d + 8 then (0, ctx)
    else if rl = 0 ∨ rl &&& 3 ≠ 0 ∨ e4.blockSize < d + rl then (0, ctx)
    else if rl = e4.blockSize ∧ De.nameLen blk d = 0 then (0, ctx)
    else if De.inode blk d = 0 then scanDirentBlock e4 blk cb fuel (d + rl) ctx
    else if De.nameLen blk d = 0 ∨ rl - 8 < De.nameLen blk d ∨ e4.inodesCount < De.inode blk d then
      (0, ctx)
    else
      let r := cb (De.name blk d) (De.inode blk d) (De.fileType blk d) ctx
      if r.1 ≠ 0 then r else scanDirentBlock e4 blk cb fuel (d + rl) r.2

/-- The loop of `e4_iterate_dir` over the blocks of the directory, from `bi` on. -/
def iterateFrom (din : Bytes) (cb : DirCb κ) : Nat → Nat → κ → Cmd World (Int × κ)
  | 0, _, ctx => pure (0, ctx)
  | more + 1, bi, ctx => do
    match ← Cmd.attempt (e4Bmap din bi) with
    | none => pure (-1, ctx)
    | some db =>
      if db = 0 then iterateFrom din cb more (bi + 1) ctx
      else do
        match ← Cmd.attempt (readScratch1 db) with
        | none => pure (-1, ctx)
        | some _ => do
          let w ← Cmd.get
          let r := scanDirentBlock w.e4 w.scratch1 cb w.e4.blockSize 0 ctx
          if r.1 ≠ 0 then pure r else iterateFrom din cb more (bi + 1) r.2

def e4IterateDir (dirIno : Nat) (cb : DirCb κ) (ctx : κ) : Cmd World (Int × κ) := do
  let w ← Cmd.get
  match ← Cmd.attempt (e4ReadInode dirIno w.stackJunk) with
  | none => pure (-1, ctx)
  | some din =>
    if e4IsDir din = false then pure (-1, ctx)
    else do
      let w ← Cmd.get
      iterateFrom din cb (u64 (e4InodeSize w.e4 din + w.e4.blockSize - 1) / w.e4.blockSize) 0 ctx

/-- `lookup_cb`; the context is `found`. -/
def lookupCb (want : List UInt8) : DirCb Nat := fun name ino _ found =>
  if kStrcmp name want = 0 then (1, ino) else (0, found)

def e4DirLookup (dirIno : Nat) (name : List UInt8) : Cmd World Nat := do
  let r ← e4IterateDir dirIno (lookupCb name) 0
  if r.1 ≠ 0 then Cmd.fail
  else if r.2 = 0 then Cmd.fail
  else pure r.2

/-- The walk of `e4_dir_empty` along one block, from offset `d` on: is there nothing but `.`
and `..`? -/
def holdsOnlyDots (e4 : Ext4Fs) (blk : Bytes) : Nat → Nat → Bool
  | 0, _ => true
  | fuel + 1, d =>
    let rl := De.recLen blk d
    if e4.blockSize < d + 8 then true
    else if rl = 0 ∨ rl &&& 3 ≠ 0 ∨ e4.blockSize < d + rl then true
    else if rl = e4.blockSize ∧ De.nameLen blk d = 0 then true
    else if De.inode blk d ≠ 0 ∧ De.name blk d ≠ [46] ∧ De.name blk d ≠ [46, 46] then false
    else holdsOnlyDots e4 blk fuel (d + rl)

/-- The loop of `e4_dir_empty` over the blocks of the directory, from `bi` on. -/
def emptyFrom (din : Bytes) : Nat → Nat → Cmd World Bool
  | 0, _ => pure true
  | more + 1, bi => do
    match ← Cmd.attempt (e4Bmap din bi) with
    | none => emptyFrom din more (bi + 1)
    | some db =>
      if db = 0 then emptyFrom din more (bi + 1)
      else do
        match ← Cmd.attempt (readScratch1 db) with
        | none => emptyFrom din more (bi + 1)
        | some _ => do
          let w ← Cmd.get
          if holdsOnlyDots w.e4 w.scratch1 w.e4.blockSize 0 then emptyFrom din more (bi + 1)
            else pure false

/-- `(size + e4.block_size - 1) / e4.block_size` for the size of an inode. -/
def Ext4Fs.nblocks (e4 : Ext4Fs) (din : Bytes) : Nat :=
  u64 (e4InodeSize e4 din + e4.blockSize - 1) / e4.blockSize

def e4DirEmpty (dirIno : Nat) : Cmd World Bool := do
  let w ← Cmd.get
  match ← Cmd.attempt (e4ReadInode dirIno w.stackJunk) with
  | none => pure false
  | some din => do
    let w ← Cmd.get
    emptyFrom din (w.e4.nblocks din) 0

/-- `(8 + nl + 3) & ~3u`: what an entry with a name of `nl` octets needs. -/
def direntLen (nl : Nat) : Nat := (8 + nl + 3) / 4 * 4

/-- The walk of `e4_dir_add_entry` along one block, from offset `d` on: an entry whose slack
has room, and how much of it the entry keeps. -/
def findRoom (e4 : Ext4Fs) (blk : Bytes) (need : Nat) : Nat → Nat → Option (Nat × Nat)
  | 0, _ => none
  | fuel + 1, d =>
    let rl := De.recLen blk d
    if e4.blockSize < d + 8 then none
    else if rl = 0 ∨ rl &&& 3 ≠ 0 ∨ e4.blockSize < d + rl then none
    else
      let minimal :=
        if De.inode blk d ≠ 0 ∧ ¬ (rl = e4.blockSize ∧ De.nameLen blk d = 0) then
          direntLen (De.nameLen blk d)
        else 0
      if need ≤ sub32 rl minimal then some (d, minimal) else findRoom e4 blk need fuel (d + rl)

/-- Fields of a new entry behind its record length. -/
def putEntry (blk : Bytes) (nd child type : Nat) (name : List UInt8) : Bytes :=
  let blk := De.putInode blk nd child
  let blk := De.putNameLen blk nd name.length
  let blk := De.putFileType blk nd type
  De.putName blk nd name

/-- The new entry lives in the slack of the one at `d`, which keeps `keep` octets. -/
def squeeze (blk : Bytes) (d keep child type : Nat) (name : List UInt8) : Bytes :=
  let rest := u16 (sub32 (De.recLen blk d) keep)
  let blk := De.putRecLen blk d keep
  let blk := De.putRecLen blk (d + keep) rest
  putEntry blk (d + keep) child type name

/-- Pass 1 of `e4_dir_add_entry`, from block `bi` on: was the entry put into a block? -/
def squeezeFrom (dirIno : Nat) (din : Bytes) (name : List UInt8) (child type : Nat) :
    Nat → Nat → Cmd World Bool
  | 0, _ => pure false
  | more + 1, bi => do
    match ← Cmd.attempt (e4Bmap din bi) with
    | none => squeezeFrom dirIno din name child type more (bi + 1)
    | some db =>
      if db = 0 then squeezeFrom dirIno din name child type more (bi + 1)
      else do
        readScratch1 db
        let w ← Cmd.get
        match findRoom w.e4 w.scratch1 (direntLen name.length) w.e4.blockSize 0 with
        | none => squeezeFrom dirIno din name child type more (bi + 1)
        | some (d, keep) => do
          setScratch1 (squeeze w.scratch1 d keep child type name)
          e4DirBlockChecksumSet dirIno
          let w ← Cmd.get
          e4WriteBlock db w.scratch1
          pure true

/-- A fresh directory block in `buf`: one entry, and the tail if there are checksums. -/
def freshDirBlock (e4 : Ext4Fs) (buf : Bytes) (child type : Nat) (name : List UInt8) : Bytes :=
  let span := e4.blockSize - (if e4.metaCsum then 12 else 0)
  let blk := fill buf 0 e4.blockSize 0
  let blk := putEntry (De.putRecLen blk 0 (u16 span)) 0 child type name
  if e4.metaCsum then
    let blk := De.putInode blk span 0
    let blk := De.putRecLen blk span 12
    let blk := De.putNameLen blk span direntTailMarker
    De.putFileType blk span 0
  else blk

/-- Attach a block to the extent tree of a directory as its block number `nblocks`. -/
def attachBlock (dirIno : Nat) (din : Bytes) (nblocks newblk : Nat) : Cmd World Bytes :=
  let entries := Eh.entries din Ino.root
  if Eh.magic din Ino.root ≠ extentMagic then Cmd.fail
  else if Eh.depth din Ino.root = 0 then
    if Eh.max din Ino.root ≤ entries then Cmd.fail
    else pure (Eh.putEntries (putExtent din (Eh.entry Ino.root entries) ⟨newblk, u32 nblocks, 1⟩)
      Ino.root (entries + 1))
  else if Eh.depth din Ino.root = 1 then do
    let lb := Ix.leaf din (Eh.entry Ino.root (u16 (entries + 65535)))
    readScratch2 lb
    let w ← Cmd.get
    let leaf := w.scratch2
    if Eh.max leaf 0 ≤ Eh.entries leaf 0 then Cmd.fail
    else do
      setScratch2 (Eh.putEntries (putExtent leaf (Eh.entry 0 (Eh.entries leaf 0)) ⟨newblk,
        u32 nblocks, 1⟩)
        0 (Eh.entries leaf 0 + 1))
      e4ExtentBlockChecksumSet true dirIno
      let w ← Cmd.get
      e4WriteBlock lb w.scratch2
      pure din
  else Cmd.fail

/-- The directory inode once a block was attached. -/
def growInode (e4 : Ext4Fs) (now : Nat) (din : Bytes) : Bytes :=
  let din := Ino.putSizeLo din (Ino.sizeLo din + e4.blockSize)
  let din := addIblocks e4 din e4.blockSize
  Ino.putCtime (Ino.putMtime din (u32 now)) (u32 now)

/-- Pass 2 of `e4_dir_add_entry`. -/
def growDir (now dirIno : Nat) (din : Bytes) (nblocks : Nat) (name : List UInt8)
    (child type : Nat) :
    Cmd World Unit :=
  if Ino.flags din &&& inoFlagExtents = 0 then Cmd.fail
  else do
    let w ← Cmd.get
    let newblk ← e4AllocBlockNear ((dirIno - 1) / w.e4.inodesPerGroup)
    let w ← Cmd.get
    setScratch1 (freshDirBlock w.e4 w.scratch1 child type name)
    e4DirBlockChecksumSet dirIno
    let w ← Cmd.get
    e4WriteBlock newblk w.scratch1
    let din ← attachBlock dirIno din nblocks newblk
    let w ← Cmd.get
    e4WriteInode dirIno (growInode w.e4 now din)
    e4SyncGd (u32 ((newblk - w.e4.firstDataBlock) / w.e4.blocksPerGroup))

def e4DirAddEntry (now dirIno : Nat) (name : List UInt8) (child type : Nat) : Cmd World Unit := do
  let w ← Cmd.get
  let din ← e4ReadInode dirIno w.stackJunk
  if Ino.flags din &&& inoFlagIndexFl ≠ 0 then Cmd.fail
  else do
    let w ← Cmd.get
    if w.e4.blockSize - (if w.e4.metaCsum then 12 else 0) < direntLen name.length then Cmd.fail
    else do
      if ← squeezeFrom dirIno din name child type (w.e4.nblocks din) 0 then pure ()
      else growDir now dirIno din (w.e4.nblocks din) name child type

/-- The walk of `e4_dir_remove_entry` along one block, from offset `d` on. -/
def findNamed (e4 : Ext4Fs) (blk : Bytes) (name : List UInt8) : Nat → Nat → Option Nat
  | 0, _ => none
  | fuel + 1, d =>
    let rl := De.recLen blk d
    if e4.blockSize < d + 8 then none
    else if rl = 0 ∨ rl &&& 3 ≠ 0 ∨ e4.blockSize < d + rl then none
    else if De.inode blk d ≠ 0 ∧ De.nameLen blk d = name.length ∧ De.name blk d = name then some d
    else findNamed e4 blk name fuel (d + rl)

/-- The loop of `e4_dir_remove_entry` over the blocks of the directory, from `bi` on. -/
def removeFrom (dirIno : Nat) (din : Bytes) (name : List UInt8) : Nat → Nat → Cmd World Unit
  | 0, _ => Cmd.fail
  | more + 1, bi => do
    match ← Cmd.attempt (e4Bmap din bi) with
    | none => removeFrom dirIno din name more (bi + 1)
    | some db =>
      if db = 0 then removeFrom dirIno din name more (bi + 1)
      else do
        readScratch1 db
        let w ← Cmd.get
        match findNamed w.e4 w.scratch1 name w.e4.blockSize 0 with
        | none => removeFrom dirIno din name more (bi + 1)
        | some d => do
          setScratch1 (De.putInode w.scratch1 d 0)
          e4DirBlockChecksumSet dirIno
          let w ← Cmd.get
          e4WriteBlock db w.scratch1

def e4DirRemoveEntry (dirIno : Nat) (name : List UInt8) : Cmd World Unit := do
  let w ← Cmd.get
  let din ← e4ReadInode dirIno w.stackJunk
  let w ← Cmd.get
  removeFrom dirIno din name (w.e4.nblocks din) 0

end Obsidian.Fs
