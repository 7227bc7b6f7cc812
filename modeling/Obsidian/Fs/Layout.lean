import Obsidian.Lib.Bytes

/-!
# On-disk layout

Source: fs/ext4_disk.h. The packed structures are octets with fields at fixed
offsets; a descriptor, directory entry or extent is named by the buffer it lies in
and its offset there. Only the fields that the modelled functions use are listed.
-/
namespace Obsidian.Fs
open Lib Lib.Bytes

def ext4SuperOff : Nat := 1024
def ext4Magic : Nat := 0xEF53
def ext4ValidFs : Nat := 0x0001

def featIncompatFiletype : Nat := 0x00000002
def featIncompatRecover : Nat := 0x00000004
def featIncompatExtents : Nat := 0x00000040
def featIncompat64bit : Nat := 0x00000080
def featIncompatFlexBg : Nat := 0x00000200
def featIncompatCsumSeed : Nat := 0x00002000
def featRoLargeFile : Nat := 0x00000002
def featRoGdtCsum : Nat := 0x00000010
def featRoBigalloc : Nat := 0x00000200
def featRoMetadataCsum : Nat := 0x00000400

def inoFlagExtents : Nat := 0x00080000
def inoFlagIndexFl : Nat := 0x00001000

def ext4RootIno : Nat := 2
def ext4GoodOldInodeSize : Nat := 128
def ext4GoodOldFirstIno : Nat := 11
def detReg : Nat := 1
def direntTailMarker : Nat := 0xDE
def extentMagic : Nat := 0xF30A

/-! ## `struct ext4_superblock` -/

namespace Sb
def inodesCount (sb : Bytes) : Nat := get32 sb 0x00
def blocksCountLo (sb : Bytes) : Nat := get32 sb 0x04
def freeBlocksCountLo (sb : Bytes) : Nat := get32 sb 0x0C
def freeInodesCount (sb : Bytes) : Nat := get32 sb 0x10
def firstDataBlock (sb : Bytes) : Nat := get32 sb 0x14
def logBlockSize (sb : Bytes) : Nat := get32 sb 0x18
def blocksPerGroup (sb : Bytes) : Nat := get32 sb 0x20
def inodesPerGroup (sb : Bytes) : Nat := get32 sb 0x28
def mntCount (sb : Bytes) : Nat := get16 sb 0x34
def magic (sb : Bytes) : Nat := get16 sb 0x38
def state (sb : Bytes) : Nat := get16 sb 0x3A
def firstIno (sb : Bytes) : Nat := get32 sb 0x54
def inodeSize (sb : Bytes) : Nat := get16 sb 0x58
def featureCompat (sb : Bytes) : Nat := get32 sb 0x5C
def featureIncompat (sb : Bytes) : Nat := get32 sb 0x60
def featureRoCompat (sb : Bytes) : Nat := get32 sb 0x64
def uuid (sb : Bytes) : Bytes := slice sb 0x68 16
def journalInum (sb : Bytes) : Nat := get32 sb 0xE0
def descSize (sb : Bytes) : Nat := get16 sb 0xFE
def blocksCountHi (sb : Bytes) : Nat := get32 sb 0x150
def freeBlocksCountHi (sb : Bytes) : Nat := get32 sb 0x158
def checksumSeed (sb : Bytes) : Nat := get32 sb 0x26C

def putFreeBlocksCountLo (sb : Bytes) (v : Nat) : Bytes := put32 sb 0x0C v
def putFreeInodesCount (sb : Bytes) (v : Nat) : Bytes := put32 sb 0x10 v
def putMntCount (sb : Bytes) (v : Nat) : Bytes := put16 sb 0x34 v
def putState (sb : Bytes) (v : Nat) : Bytes := put16 sb 0x3A v
def putFeatureIncompat (sb : Bytes) (v : Nat) : Bytes := put32 sb 0x60 v
def putFreeBlocksCountHi (sb : Bytes) (v : Nat) : Bytes := put32 sb 0x158 v
def putChecksum (sb : Bytes) (v : Nat) : Bytes := put32 sb 0x3FC v
end Sb

/-! ## `struct ext4_group_desc` -/

namespace Gd
def blockBitmapLo (b : Bytes) (gd : Nat) : Nat := get32 b gd
def inodeBitmapLo (b : Bytes) (gd : Nat) : Nat := get32 b (gd + 4)
def inodeTableLo (b : Bytes) (gd : Nat) : Nat := get32 b (gd + 8)
def freeBlocksCountLo (b : Bytes) (gd : Nat) : Nat := get16 b (gd + 12)
def freeInodesCountLo (b : Bytes) (gd : Nat) : Nat := get16 b (gd + 14)
def usedDirsCountLo (b : Bytes) (gd : Nat) : Nat := get16 b (gd + 16)
def flags (b : Bytes) (gd : Nat) : Nat := get16 b (gd + 18)
def blockBitmapHi (b : Bytes) (gd : Nat) : Nat := get32 b (gd + 32)
def inodeBitmapHi (b : Bytes) (gd : Nat) : Nat := get32 b (gd + 36)
def inodeTableHi (b : Bytes) (gd : Nat) : Nat := get32 b (gd + 40)
def freeBlocksCountHi (b : Bytes) (gd : Nat) : Nat := get16 b (gd + 44)
def freeInodesCountHi (b : Bytes) (gd : Nat) : Nat := get16 b (gd + 46)
def usedDirsCountHi (b : Bytes) (gd : Nat) : Nat := get16 b (gd + 48)

def putFreeBlocksCountLo (b : Bytes) (gd v : Nat) : Bytes := put16 b (gd + 12) v
def putFreeInodesCountLo (b : Bytes) (gd v : Nat) : Bytes := put16 b (gd + 14) v
def putUsedDirsCountLo (b : Bytes) (gd v : Nat) : Bytes := put16 b (gd + 16) v
def putFlags (b : Bytes) (gd v : Nat) : Bytes := put16 b (gd + 18) v
def putBlockBitmapCsumLo (b : Bytes) (gd v : Nat) : Bytes := put16 b (gd + 24) v
def putInodeBitmapCsumLo (b : Bytes) (gd v : Nat) : Bytes := put16 b (gd + 26) v
def putItableUnusedLo (b : Bytes) (gd v : Nat) : Bytes := put16 b (gd + 28) v
def putChecksum (b : Bytes) (gd v : Nat) : Bytes := put16 b (gd + 30) v
def putFreeBlocksCountHi (b : Bytes) (gd v : Nat) : Bytes := put16 b (gd + 44) v
def putFreeInodesCountHi (b : Bytes) (gd v : Nat) : Bytes := put16 b (gd + 46) v
def putUsedDirsCountHi (b : Bytes) (gd v : Nat) : Bytes := put16 b (gd + 48) v
def putItableUnusedHi (b : Bytes) (gd v : Nat) : Bytes := put16 b (gd + 50) v
def putBlockBitmapCsumHi (b : Bytes) (gd v : Nat) : Bytes := put16 b (gd + 56) v
def putInodeBitmapCsumHi (b : Bytes) (gd v : Nat) : Bytes := put16 b (gd + 58) v
end Gd

/-! ## `struct ext4_inode` -/

namespace Ino
def mode (i : Bytes) : Nat := get16 i 0x00
def sizeLo (i : Bytes) : Nat := get32 i 0x04
def blocksLo (i : Bytes) : Nat := get32 i 0x1C
def flags (i : Bytes) : Nat := get32 i 0x20
/-- `u.block[k]` -/
def block (i : Bytes) (k : Nat) : Nat := get32 i (0x28 + 4 * k)
def generation (i : Bytes) : Nat := get32 i 0x64
def sizeOrDirAcl (i : Bytes) : Nat := get32 i 0x6C
def blocksHi (i : Bytes) : Nat := get16 i 0x74
def extraIsize (i : Bytes) : Nat := get16 i 0x80
def checksumHi (i : Bytes) : Nat := get16 i 0x82

def putMode (i : Bytes) (v : Nat) : Bytes := put16 i 0x00 v
def putUid (i : Bytes) (v : Nat) : Bytes := put16 i 0x02 v
def putAtime (i : Bytes) (v : Nat) : Bytes := put32 i 0x08 v
def putCtime (i : Bytes) (v : Nat) : Bytes := put32 i 0x0C v
def putMtime (i : Bytes) (v : Nat) : Bytes := put32 i 0x10 v
def putGid (i : Bytes) (v : Nat) : Bytes := put16 i 0x18 v
def putLinksCount (i : Bytes) (v : Nat) : Bytes := put16 i 0x1A v
def putFlags (i : Bytes) (v : Nat) : Bytes := put32 i 0x20 v
def putGeneration (i : Bytes) (v : Nat) : Bytes := put32 i 0x64 v
def putChecksumLo (i : Bytes) (v : Nat) : Bytes := put16 i 0x7C v
def putExtraIsize (i : Bytes) (v : Nat) : Bytes := put16 i 0x80 v
def putChecksumHi (i : Bytes) (v : Nat) : Bytes := put16 i 0x82 v
def putCrtime (i : Bytes) (v : Nat) : Bytes := put32 i 0x90 v
def putSizeLo (i : Bytes) (v : Nat) : Bytes := put32 i 0x04 v
def putBlocksLo (i : Bytes) (v : Nat) : Bytes := put32 i 0x1C v
def putBlock (i : Bytes) (k v : Nat) : Bytes := put32 i (0x28 + 4 * k) v
def putSizeOrDirAcl (i : Bytes) (v : Nat) : Bytes := put32 i 0x6C v
def putBlocksHi (i : Bytes) (v : Nat) : Bytes := put16 i 0x74 v

/-- Offset of `u.extent_hdr`. -/
def root : Nat := 0x28
end Ino

/-! ## Extent nodes

`struct extent_header` followed by entries of twelve octets, `struct extent_entry`
in a leaf and `struct extent_idx` above. -/

namespace Eh
def magic (b : Bytes) (eh : Nat) : Nat := get16 b eh
def entries (b : Bytes) (eh : Nat) : Nat := get16 b (eh + 2)
def max (b : Bytes) (eh : Nat) : Nat := get16 b (eh + 4)
def depth (b : Bytes) (eh : Nat) : Nat := get16 b (eh + 6)

def putMagic (b : Bytes) (eh v : Nat) : Bytes := put16 b eh v
def putEntries (b : Bytes) (eh v : Nat) : Bytes := put16 b (eh + 2) v
def putMax (b : Bytes) (eh v : Nat) : Bytes := put16 b (eh + 4) v
def putDepth (b : Bytes) (eh v : Nat) : Bytes := put16 b (eh + 6) v
def putGeneration (b : Bytes) (eh v : Nat) : Bytes := put32 b (eh + 8) v

/-- Offset of entry `k`. -/
def entry (eh k : Nat) : Nat := eh + 12 + 12 * k
end Eh

namespace Ex
def firstBlock (b : Bytes) (ex : Nat) : Nat := get32 b ex
def count (b : Bytes) (ex : Nat) : Nat := get16 b (ex + 4)
def startHi (b : Bytes) (ex : Nat) : Nat := get16 b (ex + 6)
def startLo (b : Bytes) (ex : Nat) : Nat := get32 b (ex + 8)

/-- `start_lo | ((u64)start_hi << 32)` -/
def start (b : Bytes) (ex : Nat) : Nat := startLo b ex ||| startHi b ex <<< 32

def putFirstBlock (b : Bytes) (ex v : Nat) : Bytes := put32 b ex v
def putCount (b : Bytes) (ex v : Nat) : Bytes := put16 b (ex + 4) v
def putStartHi (b : Bytes) (ex v : Nat) : Bytes := put16 b (ex + 6) v
def putStartLo (b : Bytes) (ex v : Nat) : Bytes := put32 b (ex + 8) v
end Ex

namespace Ix
def firstBlock (b : Bytes) (ix : Nat) : Nat := get32 b ix
def leafLo (b : Bytes) (ix : Nat) : Nat := get32 b (ix + 4)
def leafHi (b : Bytes) (ix : Nat) : Nat := get16 b (ix + 8)

/-- `leaf_lo | ((u64)leaf_hi << 32)` -/
def leaf (b : Bytes) (ix : Nat) : Nat := leafLo b ix ||| leafHi b ix <<< 32

def putFirstBlock (b : Bytes) (ix v : Nat) : Bytes := put32 b ix v
def putLeafLo (b : Bytes) (ix v : Nat) : Bytes := put32 b (ix + 4) v
def putLeafHi (b : Bytes) (ix v : Nat) : Bytes := put16 b (ix + 8) v
def putUnused (b : Bytes) (ix v : Nat) : Bytes := put16 b (ix + 10) v
end Ix

/-! ## `struct ext4_dirent` -/

namespace De
def inode (b : Bytes) (d : Nat) : Nat := get32 b d
def recLen (b : Bytes) (d : Nat) : Nat := get16 b (d + 4)
def nameLen (b : Bytes) (d : Nat) : Nat := get8 b (d + 6)
def fileType (b : Bytes) (d : Nat) : Nat := get8 b (d + 7)
def name (b : Bytes) (d : Nat) : List UInt8 := toList b (d + 8) (nameLen b d)

def putInode (b : Bytes) (d v : Nat) : Bytes := put32 b d v
def putRecLen (b : Bytes) (d v : Nat) : Bytes := put16 b (d + 4) v
def putNameLen (b : Bytes) (d v : Nat) : Bytes := put8 b (d + 6) v
def putFileType (b : Bytes) (d v : Nat) : Bytes := put8 b (d + 7) v
def putName (b : Bytes) (d : Nat) (name : List UInt8) : Bytes := ofList b (d + 8) name
end De

end Obsidian.Fs
