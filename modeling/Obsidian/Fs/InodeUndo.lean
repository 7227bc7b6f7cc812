import Obsidian.Fs.InodeAlloc

/-!
# Freeing the inode just taken

`e4FreeInode` clears the bit that `e4AllocInode` set and moves the free counts back, as
long as neither count was at an end of its range. It does not know whether the inode was a
directory and leaves the directory count alone.
-/
namespace Obsidian.Fs
open Lib Lib.Bytes Drivers

variable {w w' w'' : World} {e4 : Ext4Fs} {d g i : Nat} {bm : Bytes} {delta : Int} {mode : Nat}

/-! ## Counters of a group -/

/-- `free_inodes_count` of a group, both halves where the descriptor holds both. -/
def Ext4Fs.freeInodes (e4 : Ext4Fs) (g : Nat) : Nat :=
  Gd.freeInodesCountLo e4.gdt (e4.gdOff g) +
    if e4.has64bit = true ∧ 48 ≤ e4.descSize then Gd.freeInodesCountHi e4.gdt (e4.gdOff g) *
      65536 else 0

/-- `used_dirs_count` of a group. -/
def Ext4Fs.usedDirs (e4 : Ext4Fs) (g : Nat) : Nat :=
  Gd.usedDirsCountLo e4.gdt (e4.gdOff g) +
    if e4.has64bit = true ∧ 50 ≤ e4.descSize then Gd.usedDirsCountHi e4.gdt (e4.gdOff g) *
      65536 else 0

/-- The low half of the free count, moved by `delta`. -/
def Ext4Fs.movedInodes (e4 : Ext4Fs) (g : Nat) (delta : Int) : Nat :=
  ((Gd.freeInodesCountLo e4.gdt (e4.gdOff g) : Int) + delta).toNat

/-- The counters before the checksum of the descriptor is set. -/
def Ext4Fs.countedInode (e4 : Ext4Fs) (g : Nat) (delta : Int) (mode : Nat) : Ext4Fs :=
  (e4.adjustedInodes g delta).countedDir g mode

theorem countedInode_lo (e4 : Ext4Fs) (g : Nat) (delta : Int) (mode : Nat) :
    get16 (e4.countedInode g delta mode).gdt (e4.gdOff g + 14) =
    e4.movedInodes g delta % 65536 := by
  have hdirs : get16 (e4.countedInode g delta mode).gdt (e4.gdOff g + 14) =
      get16 (e4.adjustedInodes g delta).gdt (e4.gdOff g + 14) := by
    apply get16_congr
    intro j lo hi
    exact countedDir_other (e4.adjustedInodes g delta) g mode j (Or.inl hi)
      (Or.inl (Nat.lt_of_lt_of_le hi (Nat.le_add_right (e4.gdOff g + 16) 32)))
  rw [hdirs]
  simp only [Ext4Fs.adjustedInodes, Ext4Fs.movedInodes]
  split
  · rw [Gd.putFreeInodesCountHi, get16_put16_ne _ _ _ _ (by omega), Gd.putFreeInodesCountLo,
      get16_put16]
  · rw [Gd.putFreeInodesCountLo, get16_put16]

theorem countedInode_hi (wide : e4.has64bit = true ∧ 48 ≤ e4.descSize)
    (small : e4.movedInodes g delta < 65536) (mode : Nat) :
    get16 (e4.countedInode g delta mode).gdt (e4.gdOff g + 46) = 0 := by
  have hdirs : get16 (e4.countedInode g delta mode).gdt (e4.gdOff g + 46) =
      get16 (e4.adjustedInodes g delta).gdt (e4.gdOff g + 46) := by
    apply get16_congr
    intro j lo hi
    exact countedDir_other (e4.adjustedInodes g delta) g mode j
      (Or.inr (Nat.le_trans (Nat.le_add_right (e4.gdOff g + 18) 28) lo)) (Or.inl hi)
  have hwide : e4.has64bit = true ∧ 46 ≤ e4.descSize := ⟨wide.1, by omega⟩
  rw [Ext4Fs.movedInodes] at small
  rw [hdirs]
  simp only [Ext4Fs.adjustedInodes, if_pos hwide]
  rw [Gd.putFreeInodesCountHi, get16_put16, Nat.shiftRight_eq_div_pow, Nat.div_eq_of_lt small,
    Nat.zero_and]

theorem countedInode_dirs (plain : mode &&& 0x4000 = 0) {k : Nat} (place : k = 16 ∨ k = 48)
    (delta : Int) :
    get16 (e4.countedInode g delta mode).gdt (e4.gdOff g + k) = get16 e4.gdt (e4.gdOff g + k) := by
  have hplain : (e4.countedInode g delta mode).gdt = (e4.adjustedInodes g delta).gdt := by
    simp only [Ext4Fs.countedInode, Ext4Fs.countedDir, if_pos plain]
  rw [hplain]
  apply get16_congr
  intro j lo hi
  exact adjustedInodes_other e4 g delta j (by omega) (by omega)

theorem countedInode_dir (dir : mode &&& 0x4000 ≠ 0) (delta : Int) :
    get16 (e4.countedInode g delta mode).gdt (e4.gdOff g + 16) = u16
    (Gd.usedDirsCountLo e4.gdt (e4.gdOff g) + 1) := by
  have hbefore : Gd.usedDirsCountLo (e4.adjustedInodes g delta).gdt (e4.gdOff g) =
      Gd.usedDirsCountLo e4.gdt (e4.gdOff g) := by
    apply get16_congr
    intro j lo hi
    exact adjustedInodes_other e4 g delta j (by omega) (by omega)
  rw [← hbefore]
  simp only [Ext4Fs.countedInode, Ext4Fs.countedDir, if_neg dir]
  have hoff : (e4.adjustedInodes g delta).gdOff g = e4.gdOff g := rfl
  rw [hoff]
  split
  · rw [Gd.putUsedDirsCountHi, get16_put16_ne _ _ _ _ (by omega), Gd.putUsedDirsCountLo,
      get16_put16]
    exact Nat.mod_mod _ _
  · rw [Gd.putUsedDirsCountLo, get16_put16]
    exact Nat.mod_mod _ _

/-- The state with the checksum of the bitmap set. -/
def Ext4Fs.summed (e4 : Ext4Fs) (bm : Bytes) (g : Nat) : Ext4Fs :=
  { e4 with gdt := e4BitmapChecksumSet e4 bm true e4.gdt (e4.gdOff g) }

theorem summed_word (e4 : Ext4Fs) (bm : Bytes) (g : Nat) {k : Nat}
    (apart : k + 2 ≤ 26 ∨ (32 ≤ k ∧ k + 2 ≤ 58)) :
    get16 (e4.summed bm g).gdt (e4.gdOff g + k) = get16 e4.gdt (e4.gdOff g + k) := by
  apply get16_congr
  intro j lo hi
  exact inodeChecksum_other _ _ _ _ _ (by omega) (by omega)

theorem inodeRecount_word (e4 : Ext4Fs) (bm : Bytes) (g : Nat) (delta : Int) (mode : Nat) {k : Nat}
    (apart : k + 2 ≤ 26 ∨ (32 ≤ k ∧ k + 2 ≤ 58)) :
    get16 (e4.inodeRecount bm g delta mode).gdt (e4.gdOff g + k) =
      get16 ((e4.summed bm g).countedInode g delta mode).gdt (e4.gdOff g + k) := by
  apply get16_congr
  intro j lo hi
  exact descChecksum_other ((e4.summed bm g).countedInode g delta mode) g _ (e4.gdOff g) j
    (by omega)

theorem summed_moved (e4 : Ext4Fs) (bm : Bytes) (g : Nat) (delta : Int) :
    (e4.summed bm g).movedInodes g delta = e4.movedInodes g delta := by
  have hcount := summed_word e4 bm g (show 14 + 2 ≤ 26 ∨ _ from Or.inl (by decide))
  exact congrArg (fun n : Nat => ((n : Int) + delta).toNat) hcount

theorem Kept.has64bit (k : Kept w w') : w'.e4.has64bit = w.e4.has64bit := by rw [k.e4]

section
variable (s : InodeSettled w w' d g bm delta mode)
include s

theorem InodeSettled.gdt : w'.e4.gdt = (w.e4.inodeRecount bm g delta mode).gdt := by rw [s.e4]

/-- The free count of a group moves by `delta` if the result fits in sixteen bits. -/
theorem InodeSettled.freeInodes (small : w.e4.movedInodes g delta < 65536) :
    Gd.freeInodesCountLo w'.e4.gdt (w'.e4.gdOff g) = w.e4.movedInodes g delta ∧
      w'.e4.freeInodes g = w.e4.movedInodes g delta := by
  have hmoved := summed_moved w.e4 bm g delta
  have hlo : Gd.freeInodesCountLo w'.e4.gdt (w.e4.gdOff g) = w.e4.movedInodes g delta := by
    have hword := inodeRecount_word w.e4 bm g delta mode (show 14 + 2 ≤ 26 ∨
      _ from Or.inl (by decide))
    rw [s.gdt, Gd.freeInodesCountLo, hword]
    exact (countedInode_lo (w.e4.summed bm g) g delta mode).trans
      (by rw [hmoved, Nat.mod_eq_of_lt small])
  have hhi : w.e4.has64bit = true ∧ 48 ≤ w.e4.descSize →
      Gd.freeInodesCountHi w'.e4.gdt (w.e4.gdOff g) = 0 := by
    intro wide
    have hword := inodeRecount_word w.e4 bm g delta mode (show 46 + 2 ≤ 26 ∨
      _ from Or.inr (by decide))
    rw [s.gdt, Gd.freeInodesCountHi, hword]
    exact @countedInode_hi (w.e4.summed bm g) g delta wide (by rw [hmoved]; exact small) mode
  rw [Ext4Fs.freeInodes, s.kept.gdOff, s.kept.has64bit, s.kept.descSize, hlo]
  refine ⟨rfl, ?_⟩
  split
  next wide => rw [hhi wide, Nat.add_zero]
  · rfl

theorem InodeSettled.usedDirs_plain (plain : mode &&& 0x4000 = 0) :
    w'.e4.usedDirs g = w.e4.usedDirs g := by
  have word : ∀ k, k = 16 ∨
      k = 48 → get16 w'.e4.gdt (w.e4.gdOff g + k) = get16 w.e4.gdt (w.e4.gdOff g + k) := by
    intro k place
    have hword := inodeRecount_word w.e4 bm g delta mode (show k + 2 ≤ 26 ∨
      (32 ≤ k ∧ k + 2 ≤ 58) by omega)
    have hbase := summed_word w.e4 bm g (show k + 2 ≤ 26 ∨ (32 ≤ k ∧ k + 2 ≤ 58) by omega)
    rw [s.gdt, hword, ← hbase]
    exact countedInode_dirs plain place delta
  rw [Ext4Fs.usedDirs, Ext4Fs.usedDirs, s.kept.gdOff, s.kept.has64bit, s.kept.descSize]
  rw [Gd.usedDirsCountLo, Gd.usedDirsCountLo, Gd.usedDirsCountHi, Gd.usedDirsCountHi,
    word 16 (Or.inl rfl),
    word 48 (Or.inr rfl)]

/-- A directory always changes the count: it does not come out the same modulo 65536. -/
theorem InodeSettled.usedDirs_dir (dir : mode &&& 0x4000 ≠ 0) :
    w'.e4.usedDirs g ≠ w.e4.usedDirs g := by
  have hword := inodeRecount_word w.e4 bm g delta mode (show 16 + 2 ≤ 26 ∨
    _ from Or.inl (by decide))
  have hbase := summed_word w.e4 bm g (show 16 + 2 ≤ 26 ∨ _ from Or.inl (by decide))
  have hlo : Gd.usedDirsCountLo w'.e4.gdt (w.e4.gdOff g) =
      u16 (Gd.usedDirsCountLo w.e4.gdt (w.e4.gdOff g) + 1) := by
    rw [s.gdt, Gd.usedDirsCountLo, hword, Gd.usedDirsCountLo, ← hbase]
    exact countedInode_dir dir delta
  have hhi : w.e4.has64bit = true ∧ 50 ≤ w.e4.descSize →
      Gd.usedDirsCountHi w'.e4.gdt (w.e4.gdOff g) = 0 := by
    intro wide
    have hword := inodeRecount_word w.e4 bm g delta mode (show 48 + 2 ≤ 26 ∨
      _ from Or.inr (by decide))
    rw [s.gdt, Gd.usedDirsCountHi, hword]
    exact @countedDir_hi ((w.e4.summed bm g).adjustedInodes g delta) ⟨wide.1,
      Nat.le_trans (by decide) wide.2⟩ mode dir g
  rw [Ext4Fs.usedDirs, Ext4Fs.usedDirs, s.kept.gdOff, s.kept.has64bit, s.kept.descSize, hlo]
  simp only [u16, Gd.usedDirsCountLo]
  split
  next wide =>
    omega
  · omega

theorem InodeSettled.total :
    Sb.freeInodesCount w'.e4.sb = (toS32 (Sb.freeInodesCount w.e4.sb) + delta).toNat %
    4294967296 := by
  have hsb : w'.e4.sb = Sb.putFreeInodesCount w.e4.sb (toS32 (Sb.freeInodesCount w.e4.sb) +
      delta).toNat := by
    rw [s.e4]
    rfl
  rw [hsb, Sb.putFreeInodesCount, Sb.freeInodesCount, get32_put32]

end

/-! ## Freeing -/

theorem Transfers.freeInode (t : Transfers w d) {n : Nat} (lo : w.e4.firstIno ≤ n)
    (hi : n ≤ w.e4.inodesCount) (group : (n - 1) / w.e4.inodesPerGroup = g)
    (index : (n - 1) % w.e4.inodesPerGroup = i) (hg : g < w.e4.groupCount)
    (bitmap : w.e4.bitmapBlock true g < w.e4.blocksCount)
    (desc : w.e4.descBlock g < w.e4.blocksCount) (fits : i < 8 * w.e4.blockSize)
    (set : bitAt (blockAt (w.disk d) w.e4.blockSize (w.e4.bitmapBlock true g)) i = true) :
    ∃ w1 w', e4FreeInode n w = (some (), w') ∧ Quiet w w1 ∧
      Agree w1.scratch1
      (blockAt (w.disk d) w.e4.blockSize (w.e4.bitmapBlock true g)) 0 w.e4.blockSize ∧
      InodeSettled w1 w' d g (clearBit w1.scratch1 i) 1 0 := by
  obtain ⟨w1, hload, quiet, hbuf⟩ := t.loadBitmap hg bitmap
  have hread : Agree w1.scratch1 (blockAt (w.disk d) w.e4.blockSize (w.e4.bitmapBlock true g)) 0
      w.e4.blockSize := by
    rw [hbuf]
    exact agree_read _ _ _ _
  have hset : bitAt w1.scratch1 i = true :=
    (bitAt_congr (hread _ (Nat.zero_le _) (by omega))).trans set
  obtain ⟨w', hsettle, settled⟩ := (t.kept quiet.kept).settleInode (by rw [quiet.e4]; exact hg)
    (by rw [quiet.e4]; exact bitmap) (by rw [quiet.e4]; exact desc) (clearBit w1.scratch1 i) 1 0
  refine ⟨w1, w', ?_, quiet, hread, settled⟩
  have hrange : ¬ (w.e4.writable = false ∨ n < w.e4.firstIno ∨ w.e4.inodesCount < n) := by
    rw [t.writable]
    simp only [Bool.true_eq_false, false_or]
    omega
  rw [quiet.e4] at hsettle
  unfold e4FreeInode
  rw [Cmd.get_bind, if_neg hrange, group, index, Cmd.bind_some hload, Cmd.get_bind,
    if_neg (by rw [hset]; decide)]
  exact hsettle

theorem clear_set_octet {a b c : Bytes} {n : Nat} (clear : bitAt a i = false)
    (first : Agree b (setBit a i) 0 n) (second : Agree c (clearBit b i) 0 n) :
    Agree c a 0 n := by
  intro k _ hk
  rw [second k (Nat.zero_le _) hk]
  apply octet_eq_of_bits
  intro j hj
  have hset : bitAt b (8 * k + j) = bitAt (setBit a i) (8 * k + j) :=
    bitAt_congr (first _ (Nat.zero_le _) (by omega))
  rw [bitAt_clearBit, hset, bitAt_setBit]
  by_cases same : 8 * k + j = i
  · rw [same, clear]
    simp
  · simp [same]

/-! ## Taking and freeing -/

/-- The bitmap of a group, its counters and the total are what they were. -/
structure InodesRestored (w w' : World) (d g : Nat) : Prop where
  located : w'.e4.bitmapBlock true g = w.e4.bitmapBlock true g
  bitmap : Agree (blockAt (w'.disk d) w.e4.blockSize (w.e4.bitmapBlock true g))
    (blockAt (w.disk d) w.e4.blockSize (w.e4.bitmapBlock true g)) 0 w.e4.blockSize
  freeInodes : w'.e4.freeInodes g = w.e4.freeInodes g
  usedDirs : w'.e4.usedDirs g = w.e4.usedDirs g
  total : Sb.freeInodesCount w'.e4.sb = Sb.freeInodesCount w.e4.sb

theorem total_restored_iff {c : Nat} (word : c < 4294967296) :
    (toS32 ((toS32 c + -1).toNat % 4294967296) + 1).toNat % 4294967296 = c ↔
    1 ≤ c ∧ c < 2147483648 := by
  unfold toS32
  split
  · split
    · omega
    · omega
  · split
    · omega
    · omega

section both

variable {w1 w2 : World} {bm' : Bytes}

theorem total_both_iff (sb : w1.e4.sb = w.e4.sb) (took : InodeSettled w1 w' d g bm (-1) mode)
    (quiet : Quiet w' w2) (freed : InodeSettled w2 w'' d g bm' 1 0) :
    Sb.freeInodesCount w''.e4.sb = Sb.freeInodesCount w.e4.sb ↔
      1 ≤ Sb.freeInodesCount w.e4.sb ∧ Sb.freeInodesCount w.e4.sb < 2147483648 := by
  rw [freed.total, quiet.e4, took.total, sb]
  exact total_restored_iff (get32_lt _ _)

variable (accepted : DescAccepted w.e4.descSize) (kept : Kept w w1)
  (same : Agree w1.e4.gdt w.e4.gdt (w.e4.gdOff g) (w.e4.gdOff g + w.e4.descSize))
  (took : InodeSettled w1 w' d g bm (-1) mode) (quiet : Quiet w' w2)
    (freed : InodeSettled w2 w'' d g bm' 1 0)
include accepted kept same took quiet freed

/-- The low half goes down by one, not below zero, and up again; the high half is lost. -/
theorem freeInodes_both_iff :
    w''.e4.freeInodes g = w.e4.freeInodes g ↔ 1 ≤ w.e4.freeInodes g ∧
    w.e4.freeInodes g ≤ 65535 := by
  have hsize := accepted.dvd.1
  have hold := get16_lt w.e4.gdt (w.e4.gdOff g + 14)
  have hstart : Gd.freeInodesCountLo w1.e4.gdt (w1.e4.gdOff g) =
      get16 w.e4.gdt (w.e4.gdOff g + 14) := by
    rw [kept.gdOff]
    exact get16_congr (same.mono (Nat.le_add_right _ _) (by omega))
  have hdown : w1.e4.movedInodes g (-1) =
      ((get16 w.e4.gdt (w.e4.gdOff g + 14) : Int) + -1).toNat := by
    rw [Ext4Fs.movedInodes, hstart]
  have hlow := (took.freeInodes (by omega)).1
  have hup : w2.e4.movedInodes g 1 = ((get16 w.e4.gdt (w.e4.gdOff g + 14) : Int) + -1).toNat +
      1 := by
    rw [Ext4Fs.movedInodes, quiet.e4, hlow]
    omega
  rw [(freed.freeInodes (by omega)).2, Ext4Fs.freeInodes, Gd.freeInodesCountLo]
  split
  · omega
  · omega

theorem usedDirs_both_iff : w''.e4.usedDirs g = w.e4.usedDirs g ↔ mode &&& 0x4000 = 0 := by
  have hsize := accepted.dvd.1
  have hstart : w1.e4.usedDirs g = w.e4.usedDirs g := by
    have hlo : get16 w1.e4.gdt (w.e4.gdOff g + 16) = get16 w.e4.gdt (w.e4.gdOff g + 16) :=
      get16_congr (same.mono (Nat.le_add_right _ _) (by omega))
    rw [Ext4Fs.usedDirs, Ext4Fs.usedDirs, kept.gdOff, kept.has64bit, kept.descSize,
      Gd.usedDirsCountLo,
      Gd.usedDirsCountLo, hlo]
    split
    next wide =>
      have hhi : get16 w1.e4.gdt (w.e4.gdOff g + 48) = get16 w.e4.gdt (w.e4.gdOff g + 48) :=
        get16_congr (same.mono (Nat.le_add_right _ _) (by omega))
      rw [Gd.usedDirsCountHi, Gd.usedDirsCountHi, hhi]
    · rfl
  rw [freed.usedDirs_plain (by decide), quiet.e4, ← hstart]
  constructor
  · intro restored
    by_contra dir
    exact took.usedDirs_dir dir restored
  · exact took.usedDirs_plain

end both

/-- What both calls together come to, when the bitmap of the group had been written. -/
theorem InodeMaps.undone {w1 : World} (maps : InodeMaps w d) (hg : g < w.e4.groupCount)
    (hi : i < w.e4.inodesPerGroup) (free : w.inodeFree d (g * w.e4.inodesPerGroup + i + 1))
    (written : w.e4.uninit g = false) (prepared : Prepared w w1 d g)
    (took : InodeSettled w1 w' d g (setBit w1.scratch1 i) (-1) mode) :
    ∃ w'', e4FreeInode (g * w.e4.inodesPerGroup + i + 1) w' = (some (), w'') ∧
      (InodesRestored w w'' d g ↔ mode &&& 0x4000 = 0 ∧
        (1 ≤ w.e4.freeInodes g ∧ w.e4.freeInodes g ≤ 65535) ∧
        1 ≤ Sb.freeInodesCount w.e4.sb ∧ Sb.freeInodesCount w.e4.sb < 2147483648) := by
  have hfits := maps.perGroup
  have kept := prepared.kept.trans took.kept
  have hblock : w'.e4.bitmapBlock true g = w.e4.bitmapBlock true g := by
    rw [took.bitmapBlock, prepared.bitmapBlock]
  have hsize : w1.e4.blockSize = w.e4.blockSize := prepared.kept.blockSize
  have hdesc : w'.e4.descBlock g = w.e4.descBlock g := by
    rw [kept.e4]
    rfl
  obtain ⟨hlo, hhi, _, hclear⟩ := free
  obtain ⟨hgroup, hindex⟩ := @slot_number w.e4 g i hi
  obtain ⟨hsame, hread⟩ := prepared.loaded written
  have hmarked : Agree (blockAt (w'.disk d) w.e4.blockSize (w.e4.bitmapBlock true g))
    (setBit w1.scratch1 i) 0
      w.e4.blockSize := by
    intro k _ hk
    have := took.bitmap k (by rw [hsize]; exact hk)
    rw [hsize, prepared.bitmapBlock] at this
    exact this
  have hset : bitAt (blockAt (w'.disk d) w.e4.blockSize (w.e4.bitmapBlock true g)) i = true := by
    rw [bitAt_congr (hmarked (i / 8) (Nat.zero_le _) (by omega)), bitAt_setBit]
    simp
  have hcount : w'.e4.blocksCount = w.e4.blocksCount := by rw [kept.e4]
  obtain ⟨w2, w'', hfree, quiet, hread', freed⟩ :=
    @Transfers.freeInode w' d g i (maps.transfers.kept kept)
    (g * w.e4.inodesPerGroup + i + 1) (by rw [kept.e4]; exact hlo) (by rw [kept.e4]; exact hhi)
    (by rw [kept.inodesPerGroup]; exact hgroup) (by rw [kept.inodesPerGroup]; exact hindex)
    (by rw [kept.groupCount]; exact hg) (by rw [hblock, hcount]; exact maps.bitmaps g hg)
    (by rw [hdesc, hcount]; exact maps.descs g hg) (by rw [kept.blockSize]; omega)
    (by rw [kept.blockSize, hblock]; exact hset)
  rw [kept.blockSize, hblock] at hread'
  have hsize' : w2.e4.blockSize = w.e4.blockSize := (kept.trans quiet.kept).blockSize
  have hblock' : w2.e4.bitmapBlock true g = w.e4.bitmapBlock true g := by rw [quiet.e4, hblock]
  have hbits : Agree (blockAt (w''.disk d) w.e4.blockSize (w.e4.bitmapBlock true g))
      (blockAt (w.disk d) w.e4.blockSize (w.e4.bitmapBlock true g)) 0 w.e4.blockSize := by
    have hcleared : Agree (blockAt (w''.disk d) w.e4.blockSize (w.e4.bitmapBlock true g))
        (clearBit w2.scratch1 i) 0 w.e4.blockSize := by
      intro k _ hk
      have := freed.bitmap k (by rw [hsize']; exact hk)
      rw [hsize', hblock'] at this
      exact this
    have hbit : bitAt w1.scratch1 i = false :=
      (prepared.bits i hi).trans (by rw [← hclear, hgroup, hindex])
    exact (clear_set_octet hbit (hread'.trans hmarked) hcleared).trans hread
  have hfreeInodes := freeInodes_both_iff maps.desc prepared.kept hsame took quiet freed
  have husedDirs := usedDirs_both_iff maps.desc prepared.kept hsame took quiet freed
  have htotal := total_both_iff prepared.sb took quiet freed
  refine ⟨w'', hfree, ?_⟩
  constructor
  · intro restored
    exact ⟨husedDirs.mp restored.usedDirs, hfreeInodes.mp restored.freeInodes,
      htotal.mp restored.total⟩
  · rintro ⟨plain, counted, small⟩
    exact ⟨by rw [freed.bitmapBlock,
      hblock'], hbits, hfreeInodes.mpr counted, husedDirs.mpr plain, htotal.mpr small⟩

/-- Taking an inode of a group whose bitmap had been written and freeing it restores the group
and the total just if the mode has no directory bit, the group counted between 1 and 65535
free inodes, and the total was not zero and below 2^31. -/
theorem inode_free_undoes_iff {prefer n : Nat} (maps : InodeMaps w d)
    (returned : e4AllocInode prefer mode w = (some n, w')) :
    ∃ g i, w.inodeChoice d prefer = some (g, i) ∧ n = g * w.e4.inodesPerGroup + i + 1 ∧
      (w.e4.uninit g = false → ∃ w'', e4FreeInode n w' = (some (), w'') ∧
        (InodesRestored w w'' d g ↔ mode &&& 0x4000 = 0 ∧
          (1 ≤ w.e4.freeInodes g ∧ w.e4.freeInodes g ≤ 65535) ∧
          1 ≤ Sb.freeInodesCount w.e4.sb ∧ Sb.freeInodesCount w.e4.sb < 2147483648)) := by
  have ends := maps.alloc prefer mode
  rw [returned] at ends
  cases chosen : w.inodeChoice d prefer with
  | none =>
    rw [chosen] at ends
    cases ends
  | some slot =>
    obtain ⟨g, i⟩ := slot
    rw [chosen] at ends
    obtain ⟨w1, w2, prepared, took, result⟩ := ends
    obtain ⟨⟨gi, _, hvisit⟩, hi, _, hnumber, hfree⟩ := maps.choice_free chosen
    have hg : g < w.e4.groupCount := by
      rw [← hvisit]
      exact Nat.mod_lt _ maps.someGroup
    rw [hnumber] at result
    cases result
    exact ⟨g, i, rfl, rfl, fun written => maps.undone hg hi hfree written prepared took⟩

/-- A file takes inode 27 and gives it back. -/
theorem inode_free_undoes_iff_file : ∃ w'',
    e4FreeInode 27 (e4AllocInode 0 0x8000 (middleInodes 0xFF 0x00)).2 = (some (), w'') ∧
      InodesRestored (middleInodes 0xFF 0x00) w'' 0 1 := by
  have hchosen : (middleInodes 0xFF 0x00).inodeChoice 0 0 = some (1, 10) := by decide
  have hreturned : e4AllocInode 0 0x8000 (middleInodes 0xFF 0x00) =
      (some 27, (e4AllocInode 0 0x8000 (middleInodes 0xFF 0x00)).2) := Prod.ext (by decide) rfl
  obtain ⟨g, i, hslot, _, undone⟩ := inode_free_undoes_iff (middleInodes_maps 0xFF 0x00) hreturned
  cases hslot
  obtain ⟨w'', hfree, hrestored⟩ := undone (by decide)
  exact ⟨w'', hfree, hrestored.mpr (by decide)⟩

/-- A directory takes inode 27, gives it back and stays counted. -/
theorem directory_stays_counted : InodeMaps (middleInodes 0xFF 0x00) 0 ∧
    (e4AllocInode 0 0x4000 (middleInodes 0xFF 0x00)).1 = some 27 ∧
    (e4FreeInode 27 (e4AllocInode 0 0x4000 (middleInodes 0xFF 0x00)).2).1 = some () ∧
    (middleInodes 0xFF 0x00).e4.usedDirs 1 = 0 ∧
    (e4FreeInode 27 (e4AllocInode 0 0x4000 (middleInodes 0xFF 0x00)).2).2.e4.usedDirs 1 = 1 :=
  ⟨middleInodes_maps _ _, by decide⟩

end Obsidian.Fs
