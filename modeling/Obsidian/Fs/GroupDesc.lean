import Obsidian.Fs.Core

/-!
# Free-block counters

Taking or freeing a block changes the same three things in memory: the bitmap
checksum and free count of the group's descriptor, the total in the superblock, and
the descriptor's own checksum. `recount` is the outcome for both; it moves both
counters by one and touches no field that says where anything is.
-/
namespace Obsidian.Fs
open Lib Lib.Bytes

/-- `free_blocks_count` of a group, both halves. -/
def Ext4Fs.freeBlocks (e4 : Ext4Fs) (g : Nat) : Nat :=
  Gd.freeBlocksCountLo e4.gdt (e4.gdOff g) +
    if e4.has64bit then Gd.freeBlocksCountHi e4.gdt (e4.gdOff g) * 65536 else 0

/-- `free_blocks_count` of the superblock, both halves. -/
def Ext4Fs.freeTotal (e4 : Ext4Fs) : Nat :=
  Sb.freeBlocksCountLo e4.sb + Sb.freeBlocksCountHi e4.sb * 4294967296

/-- A descriptor is 32 octets without the 64BIT feature and at least 64 with it. -/
def Ext4Fs.DescOk (e4 : Ext4Fs) : Prop :=
  (e4.has64bit = false ∧ e4.descSize = 32) ∨ (e4.has64bit = true ∧ 64 ≤ e4.descSize)

/-- The driver state after `adjust_free_blocks`. -/
def Ext4Fs.adjusted (e4 : Ext4Fs) (g : Nat) (delta : Int) : Ext4Fs :=
  let gd := e4.gdOff g
  let v := ((Gd.freeBlocksCountLo e4.gdt gd : Int) + delta).toNat
  let gdt := Gd.putFreeBlocksCountLo e4.gdt gd v
  let gdt :=
    if e4.has64bit = true ∧ 44 ≤ e4.descSize then
      Gd.putFreeBlocksCountHi gdt gd (v >>> 16 &&& 0xFFFF)
    else gdt
  let total := (toS64 ((Sb.freeBlocksCountLo e4.sb : Int) +
    (Sb.freeBlocksCountHi e4.sb : Int) * 4294967296 + delta)).toNat
  let sb := Sb.putFreeBlocksCountLo e4.sb total
  { e4 with gdt := gdt, sb := Sb.putFreeBlocksCountHi sb (total >>> 32) }

/-- The driver state after a bit of the group's bitmap changed to `bm`. -/
def Ext4Fs.recount (e4 : Ext4Fs) (bm : Bytes) (g : Nat) (delta : Int) : Ext4Fs :=
  let e4 := { e4 with gdt := e4BitmapChecksumSet e4 bm false e4.gdt (e4.gdOff g) }
  let e4 := e4.adjusted g delta
  { e4 with gdt := e4DescChecksumSet e4 g e4.gdt (e4.gdOff g) }

variable {e4 : Ext4Fs} {g h i : Nat} {delta : Int}

/-- Octets of the descriptor at `gd` that a recount may change. -/
def Ext4Fs.Touched (e4 : Ext4Fs) (gd i : Nat) : Prop :=
  (gd + 12 ≤ i ∧ i < gd + 14) ∨ (gd + 24 ≤ i ∧ i < gd + 26) ∨ (gd + 30 ≤ i ∧ i < gd + 32) ∨
    (e4.has64bit = true ∧ gd + 44 ≤ i ∧ i < gd + 46) ∨
    (58 ≤ e4.descSize ∧ gd + 56 ≤ i ∧ i < gd + 58)

theorem put16_other (b : Bytes) (i v j : Nat) (hne : j < i ∨ i + 2 ≤ j) : put16 b i v j = b j :=
  put16_agree b i v j (j + 1) (by omega) j (Nat.le_refl _) (Nat.lt_succ_self _)

theorem bitmapChecksum_other (e4 : Ext4Fs) (bm b : Bytes) (gd j : Nat)
    (lo : j < gd + 24 ∨ gd + 26 ≤ j) (hi : 58 ≤ e4.descSize → j < gd + 56 ∨ gd + 58 ≤ j) :
    e4BitmapChecksumSet e4 bm false b gd j = b j := by
  simp only [e4BitmapChecksumSet]
  split
  · rfl
  · simp only [Bool.false_eq_true, if_false]
    split
    next wide =>
      rw [Gd.putBlockBitmapCsumHi, put16_other _ _ _ _ (hi wide), Gd.putBlockBitmapCsumLo,
        put16_other _ _ _ _ lo]
    · rw [Gd.putBlockBitmapCsumLo, put16_other _ _ _ _ lo]

theorem descChecksum_other (e4 : Ext4Fs) (group : Nat) (b : Bytes) (gd j : Nat)
    (outside : j < gd + 30 ∨ gd + 32 ≤ j) : e4DescChecksumSet e4 group b gd j = b j := by
  simp only [e4DescChecksumSet]
  split
  · rw [Gd.putChecksum, put16_other _ _ _ _ outside, Gd.putChecksum, put16_other _ _ _ _ outside]
  · split
    · rw [Gd.putChecksum, put16_other _ _ _ _ outside]
    · rfl

theorem adjusted_gdt_other (e4 : Ext4Fs) (g : Nat) (delta : Int) (j : Nat)
    (lo : j < e4.gdOff g + 12 ∨ e4.gdOff g + 14 ≤ j)
    (hi : e4.has64bit = true → j < e4.gdOff g + 44 ∨ e4.gdOff g + 46 ≤ j) :
    (e4.adjusted g delta).gdt j = e4.gdt j := by
  simp only [Ext4Fs.adjusted]
  split
  next wide =>
    rw [Gd.putFreeBlocksCountHi, put16_other _ _ _ _ (hi wide.1), Gd.putFreeBlocksCountLo,
      put16_other _ _ _ _ lo]
  · rw [Gd.putFreeBlocksCountLo, put16_other _ _ _ _ lo]

/-- A recount leaves every octet alone that is not a counter or checksum of the group. -/
theorem recount_untouched (e4 : Ext4Fs) (bm : Bytes) (g : Nat) (delta : Int) (j : Nat)
    (free : ¬ e4.Touched (e4.gdOff g) j) : (e4.recount bm g delta).gdt j = e4.gdt j := by
  simp only [Ext4Fs.Touched, not_or, not_and_or, Nat.not_le, Nat.not_lt] at free
  obtain ⟨hcount, hcsum, hsum, hhi, hchi⟩ := free
  simp only [Ext4Fs.recount]
  rw [descChecksum_other _ _ _ _ _ (by exact hsum), adjusted_gdt_other]
  · apply bitmapChecksum_other
    · exact hcsum
    · intro wide
      rcases hchi with narrow | outside
      · omega
      · exact outside
  · exact hcount
  · intro wide
    rcases hhi with narrow | outside
    · exact absurd wide narrow
    · exact outside

theorem touched_inside (desc : e4.DescOk) (touched : e4.Touched (e4.gdOff g) i) :
    e4.gdOff g ≤ i ∧ i < e4.gdOff g + e4.descSize := by
  rcases desc with ⟨hnarrow, hsize⟩ | ⟨hwide, hsize⟩
  · rcases touched with h | h | h | ⟨hwide, h⟩ | ⟨hwide, h⟩
    · omega
    · omega
    · omega
    · rw [hnarrow] at hwide
      cases hwide
    · omega
  · rcases touched with h | h | h | ⟨_, h⟩ | ⟨_, h⟩
    · omega
    · omega
    · omega
    · omega
    · omega

theorem untouched_group (desc : e4.DescOk) (hne : h ≠ g) (lo : e4.gdOff h ≤ i)
    (hi : i < e4.gdOff h + e4.descSize) : ¬ e4.Touched (e4.gdOff g) i := by
  intro touched
  obtain ⟨glo, ghi⟩ := touched_inside desc touched
  simp only [Ext4Fs.gdOff] at lo hi glo ghi
  rcases Nat.lt_or_gt_of_ne hne with hlt | hgt
  · have := Nat.mul_le_mul_right e4.descSize hlt
    rw [Nat.succ_mul] at this
    omega
  · have := Nat.mul_le_mul_right e4.descSize hgt
    rw [Nat.succ_mul] at this
    omega

theorem descSize_pos (desc : e4.DescOk) : 32 ≤ e4.descSize := by
  rcases desc with ⟨_, hsize⟩ | ⟨_, hsize⟩
  · omega
  · omega

theorem recount_freeBlocks_other (desc : e4.DescOk) (bm : Bytes) (delta : Int) (hne : h ≠ g) :
    (e4.recount bm g delta).freeBlocks h = e4.freeBlocks h := by
  have hsize := descSize_pos desc
  have hlo : get16 (e4.recount bm g delta).gdt (e4.gdOff h + 12) =
      get16 e4.gdt (e4.gdOff h + 12) := by
    apply get16_congr
    intro i lo hi
    exact recount_untouched _ _ _ _ _ (untouched_group desc hne (by omega) (by omega))
  show get16 (e4.recount bm g delta).gdt (e4.gdOff h + 12) +
      (if e4.has64bit then get16 (e4.recount bm g delta).gdt (e4.gdOff h + 44) * 65536 else 0) = _
  rw [hlo]
  rcases desc with ⟨hnarrow, _⟩ | ⟨hwide, hsize⟩
  · simp only [Ext4Fs.freeBlocks, hnarrow, Bool.false_eq_true, if_false, Gd.freeBlocksCountLo]
  · have hhi : get16 (e4.recount bm g delta).gdt (e4.gdOff h + 44) =
        get16 e4.gdt (e4.gdOff h + 44) := by
      apply get16_congr
      intro i lo hi
      exact recount_untouched _ _ _ _ _
        (untouched_group (Or.inr ⟨hwide, hsize⟩) hne (by omega) (by omega))
    rw [hhi]
    rfl

variable {k m n : Nat}

theorem adjusted_lo (e4 : Ext4Fs) (g : Nat) (delta : Int)
    (hm : (Gd.freeBlocksCountLo e4.gdt (e4.gdOff g) : Int) + delta = m) (small : m < 65536) :
    get16 (e4.adjusted g delta).gdt (e4.gdOff g + 12) = m := by
  simp only [Ext4Fs.adjusted, hm, Int.toNat_natCast]
  split
  · rw [Gd.putFreeBlocksCountHi, get16_put16_ne _ _ _ _ (by omega), Gd.putFreeBlocksCountLo,
      get16_put16, Nat.mod_eq_of_lt small]
  · rw [Gd.putFreeBlocksCountLo, get16_put16, Nat.mod_eq_of_lt small]

theorem adjusted_hi (e4 : Ext4Fs) (g : Nat) (delta : Int)
    (hm : (Gd.freeBlocksCountLo e4.gdt (e4.gdOff g) : Int) + delta = m) (small : m < 65536)
    (wide : e4.has64bit = true ∧ 44 ≤ e4.descSize) :
    get16 (e4.adjusted g delta).gdt (e4.gdOff g + 44) = 0 := by
  have hshift : m >>> 16 &&& 0xFFFF = 0 := by
    rw [Nat.shiftRight_eq_div_pow, Nat.div_eq_of_lt small, Nat.zero_and]
  simp only [Ext4Fs.adjusted, hm, Int.toNat_natCast, if_pos wide, hshift]
  rw [Gd.putFreeBlocksCountHi, get16_put16]

/-- The counter of the group moves by `delta`. A count fits in sixteen bits, so the high
half is zero before and after. -/
theorem recount_freeBlocks (desc : e4.DescOk) (bm : Bytes) (delta : Int)
    (count : e4.freeBlocks g = n) (hm : (n : Int) + delta = m) (hn : n < 65536)
    (small : m < 65536) :
    (e4.recount bm g delta).freeBlocks g = m := by
  have hcsum : ∀ j, e4.gdOff g + 12 ≤ j ∧ j < e4.gdOff g + 14 →
      e4BitmapChecksumSet e4 bm false e4.gdt (e4.gdOff g) j = e4.gdt j := by
    intro j hj
    exact bitmapChecksum_other _ _ _ _ _ (by omega) (by omega)
  have hlo : Gd.freeBlocksCountLo e4.gdt (e4.gdOff g) = n := by
    have hle := count
    simp only [Ext4Fs.freeBlocks] at hle
    split at hle
    · omega
    · omega
  generalize he1 : { e4 with gdt := e4BitmapChecksumSet e4 bm false e4.gdt (e4.gdOff g) } = e1
  have hstart : (Gd.freeBlocksCountLo e1.gdt (e1.gdOff g) : Int) + delta = m := by
    have hsame : Gd.freeBlocksCountLo e1.gdt (e1.gdOff g) =
        Gd.freeBlocksCountLo e4.gdt (e4.gdOff g) := by
      subst he1
      exact get16_congr fun j lo hi => hcsum j ⟨lo, hi⟩
    rw [hsame, hlo, hm]
  have hnew : get16 (e4.recount bm g delta).gdt (e4.gdOff g + 12) = m := by
    have hsame : get16 (e4.recount bm g delta).gdt (e4.gdOff g + 12) =
        get16 (e1.adjusted g delta).gdt (e1.gdOff g + 12) := by
      subst he1
      exact get16_congr fun j lo hi =>
        descChecksum_other _ _ _ _ _ (by simp only [Ext4Fs.gdOff, Ext4Fs.adjusted] at *; omega)
    rw [hsame, adjusted_lo e1 g delta hstart small]
  show get16 (e4.recount bm g delta).gdt (e4.gdOff g + 12) +
      (if e4.has64bit then get16 (e4.recount bm g delta).gdt (e4.gdOff g + 44) * 65536 else 0) = _
  rw [hnew]
  rcases desc with ⟨hnarrow, _⟩ | ⟨hwide, hsize⟩
  · simp only [hnarrow, Bool.false_eq_true, if_false, Nat.add_zero]
  · have hhigh : get16 (e4.recount bm g delta).gdt (e4.gdOff g + 44) = 0 := by
      have hsame : get16 (e4.recount bm g delta).gdt (e4.gdOff g + 44) =
          get16 (e1.adjusted g delta).gdt (e1.gdOff g + 44) := by
        subst he1
        exact get16_congr fun j lo hi =>
          descChecksum_other _ _ _ _ _ (by simp only [Ext4Fs.gdOff, Ext4Fs.adjusted] at *; omega)
      rw [hsame]
      apply adjusted_hi e1 g delta hstart small
      subst he1
      exact ⟨hwide, by show 44 ≤ e4.descSize; omega⟩
    simp [hhigh]

theorem recount_freeTotal (bm : Bytes) (g : Nat) (delta : Int) (total : e4.freeTotal = n)
    (hm : (n : Int) + delta = m) (small : m < 9223372036854775808) :
    (e4.recount bm g delta).freeTotal = m := by
  have hsum : (toS64 ((Sb.freeBlocksCountLo e4.sb : Int) +
      (Sb.freeBlocksCountHi e4.sb : Int) * 4294967296 + delta)).toNat = m := by
    unfold Ext4Fs.freeTotal at total
    unfold toS64
    rw [Int.bmod_eq_of_le (by omega) (by omega)]
    omega
  have hsb : (e4.recount bm g delta).sb =
      Sb.putFreeBlocksCountHi (Sb.putFreeBlocksCountLo e4.sb m) (m >>> 32) := by
    rw [← hsum]
    rfl
  have hhigh : m >>> 32 = m / 4294967296 := Nat.shiftRight_eq_div_pow m 32
  unfold Ext4Fs.freeTotal
  rw [hsb, Sb.freeBlocksCountLo, Sb.freeBlocksCountHi, Sb.putFreeBlocksCountHi, get32_put32,
    get32_put32_ne _ _ _ _ (by omega), Sb.putFreeBlocksCountLo, get32_put32]
  omega

/-- The locations of bitmaps and inode tables are not among the touched fields. -/
theorem recount_word (desc : e4.DescOk) (bm : Bytes) (g : Nat) (delta : Int) (h : Nat)
    (place : k ≤ 8 ∨ (32 ≤ k ∧ k ≤ 40 ∧ k + 4 ≤ e4.descSize)) :
    get32 (e4.recount bm g delta).gdt (e4.gdOff h + k) = get32 e4.gdt (e4.gdOff h + k) := by
  have hsize := descSize_pos desc
  apply get32_congr
  intro i lo hi
  apply recount_untouched
  by_cases same : h = g
  · subst same
    simp only [Ext4Fs.Touched]
    omega
  · exact untouched_group desc same (by omega) (by omega)

theorem recount_location (desc : e4.DescOk) (bm : Bytes) (g : Nat) (delta : Int) (h : Nat)
    (low : k ≤ 8) :
    (if e4.has64bit then get32 (e4.recount bm g delta).gdt (e4.gdOff h + k) |||
        get32 (e4.recount bm g delta).gdt (e4.gdOff h + (k + 32)) <<< 32
      else get32 (e4.recount bm g delta).gdt (e4.gdOff h + k)) =
    if e4.has64bit then get32 e4.gdt (e4.gdOff h + k) ||| get32 e4.gdt
    (e4.gdOff h + (k + 32)) <<< 32 else get32 e4.gdt (e4.gdOff h + k) := by
  rw [recount_word desc bm g delta h (Or.inl low)]
  rcases desc with ⟨hnarrow, _⟩ | ⟨hwide, hwidth⟩
  · simp [hnarrow]
  · rw [recount_word (Or.inr ⟨hwide, hwidth⟩) bm g delta h (Or.inr ⟨by omega, by omega, by omega⟩)]

theorem recount_bitmapBlock (desc : e4.DescOk) (bm : Bytes) (g : Nat) (delta : Int) (h : Nat) :
    (e4.recount bm g delta).bitmapBlock false h = e4.bitmapBlock false h :=
  recount_location desc bm g delta h (k := 0) (by omega)

theorem recount_inodeTableBlock (desc : e4.DescOk) (bm : Bytes) (g : Nat) (delta : Int)
    (ino : Nat) :
    inodeTableBlock (e4.recount bm g delta) ino = inodeTableBlock e4 ino := by
  have location := recount_location desc bm g delta ((ino - 1) / e4.inodesPerGroup) (k :=
    8) (by omega)
  exact if_congr Iff.rfl rfl location

end Obsidian.Fs
