import Obsidian.Fs.BlockRuns
import Obsidian.Fs.DescFrame

/-!
# Taking and freeing inodes

`e4AllocInode` takes the slot that `SlotMap.pick` names among those its scan looks at. The
scan of every group starts at the index of the first inode that is not reserved, although
inodes are reserved in group 0 only. Freeing an inode undoes the bit and the free counts,
but not the directory count.
-/
namespace Obsidian.Fs
open Lib Lib.Bytes Drivers

variable {w w' w'' : World} {e4 : Ext4Fs} {d g h i : Nat} {bm : Bytes}

/-! ## Inodes in use -/

/-- The inode bitmap of the group was never written. -/
def Ext4Fs.uninit (e4 : Ext4Fs) (g : Nat) : Bool := Gd.flags e4.gdt (e4.gdOff g) &&& 1 ≠ 0

/-- Where no bitmap was written, the reserved inodes are in use and no others. -/
def World.inodeTaken (w : World) (d g i : Nat) : Bool :=
  if w.e4.uninit g then decide (g = 0 ∧ i < w.e4.firstIno - 1)
  else bitAt (blockAt (w.disk d) w.e4.blockSize (w.e4.bitmapBlock true g)) i

/-- The inode exists, is not reserved and is not in use. -/
def World.inodeFree (w : World) (d n : Nat) : Prop :=
  w.e4.firstIno ≤ n ∧ n ≤ w.e4.inodesCount ∧ (n - 1) / w.e4.inodesPerGroup < w.e4.groupCount ∧
    w.inodeTaken d ((n - 1) / w.e4.inodesPerGroup) ((n - 1) % w.e4.inodesPerGroup) = false

/-- The scan of a group looks at the slot, and its number is in range. -/
def Ext4Fs.offers (e4 : Ext4Fs) (g i : Nat) : Bool :=
  decide (e4.firstIno - 1 ≤ i ∧ e4.firstIno ≤ u32 (g * e4.inodesPerGroup + i + 1) ∧
    u32 (g * e4.inodesPerGroup + i + 1) ≤ e4.inodesCount)

/-- Slots that the allocator does not take. -/
def World.passesOver (w : World) (d : Nat) : SlotMap.Taken :=
  fun g i => !w.e4.offers g i || w.inodeTaken d g i

/-- The slot that the allocator takes. -/
def World.inodeChoice (w : World) (d prefer : Nat) : Option (Nat × Nat) :=
  SlotMap.pick (visitOrder prefer w.e4.groupCount) (fun _ => w.e4.inodesPerGroup) (w.passesOver d)

/-! ## The scan of one bitmap -/

theorem findInode_succ (e4 : Ext4Fs) (bm : Bytes) (g more : Nat) (start : e4.firstIno - 1 ≤ i) :
    findInode e4 bm g (more + 1) i =
      if !e4.offers g i || bitAt bm i then findInode e4 bm g more (i + 1) else some i := by
  rw [findInode]
  by_cases set : bitAt bm i = true
  · simp [set]
  · by_cases range : u32 (g * e4.inodesPerGroup + i + 1) < e4.firstIno ∨
        e4.inodesCount < u32 (g * e4.inodesPerGroup + i + 1)
    · have : e4.offers g i = false := decide_eq_false (by omega)
      simp [set, range, this]
    · have : e4.offers g i = true := decide_eq_true (by omega)
      simp [set, range, this]

theorem findInode_range (e4 : Ext4Fs) (bm : Bytes) (g more i : Nat) (start : e4.firstIno - 1 ≤ i) :
    findInode e4 bm g more i = (List.range' i more).find? fun j =>
    !(!e4.offers g j || bitAt bm j) := by
  induction more generalizing i with
  | zero => rfl
  | succ more ih =>
    rw [findInode_succ e4 bm g more start, List.range'_succ, List.find?_cons, ih (i + 1) (by omega)]
    cases !e4.offers g i || bitAt bm i with
    | false => rfl
    | true => rfl

theorem findInode_eq (e4 : Ext4Fs) (bm : Bytes) (g : Nat) :
    findInode e4 bm g (e4.inodesPerGroup - (e4.firstIno - 1)) (e4.firstIno - 1) =
      SlotMap.firstClear (fun i => !e4.offers g i || bitAt bm i) e4.inodesPerGroup := by
  have hbelow : ∀ j, j < e4.firstIno - 1 → e4.offers g j = false :=
    fun j hj => decide_eq_false (by omega)
  rw [findInode_range e4 bm g _ _ (Nat.le_refl _), SlotMap.firstClear]
  by_cases room : e4.firstIno - 1 ≤ e4.inodesPerGroup
  · have hsplit : List.range e4.inodesPerGroup = List.range' 0 (e4.firstIno - 1) ++
        List.range' (e4.firstIno - 1) (e4.inodesPerGroup - (e4.firstIno - 1)) := by
      have happend :=
        @List.range'_append_1 0 (e4.firstIno - 1) (e4.inodesPerGroup - (e4.firstIno - 1))
      rw [Nat.zero_add, Nat.add_sub_cancel' room] at happend
      rw [List.range_eq_range', happend]
    have hskip : (List.range' 0 (e4.firstIno - 1)).find? (fun j =>
        !(!e4.offers g j || bitAt bm j)) = none := by
      rw [List.find?_eq_none]
      intro j member
      rw [hbelow j (by simpa using List.mem_range'_1.mp member)]
      simp
    rw [hsplit, List.find?_append, hskip, Option.none_or]
  · have hskip : (List.range e4.inodesPerGroup).find? (fun j => !(!e4.offers g j || bitAt bm j)) =
        none := by
      rw [List.find?_eq_none]
      intro j member
      rw [hbelow j (by have := List.mem_range.mp member; omega)]
      simp
    have hempty : e4.inodesPerGroup - (e4.firstIno - 1) = 0 := by omega
    rw [hskip, hempty]
    rfl

/-! ## Mounted filesystems -/

/-- A mounted filesystem in which bitmaps and descriptors can be transferred and the inode
bitmap of a group fits in a block. -/
structure InodeMaps (w : World) (d : Nat) : Prop where
  transfers : Transfers w d
  desc : DescAccepted w.e4.descSize
  blockSize : w.e4.blockSize ≤ 8192
  someGroup : 0 < w.e4.groupCount
  groups : w.e4.groupCount ≤ 65536
  someInode : 0 < w.e4.inodesPerGroup
  perGroup : w.e4.inodesPerGroup ≤ 8 * w.e4.blockSize
  firstIno : 0 < w.e4.firstIno
  inodesCount : w.e4.inodesCount < 4294967296
  bitmaps : ∀ g < w.e4.groupCount, w.e4.bitmapBlock true g < w.e4.blocksCount
  descs : ∀ g < w.e4.groupCount, w.e4.descBlock g < w.e4.blocksCount

theorem InodeMaps.offers_iff (maps : InodeMaps w d) (hg : g < w.e4.groupCount)
    (hi : i < w.e4.inodesPerGroup) :
    w.e4.offers g i = true ↔ w.e4.firstIno - 1 ≤ i ∧
    w.e4.firstIno ≤ g * w.e4.inodesPerGroup + i + 1 ∧
      g * w.e4.inodesPerGroup + i + 1 ≤ w.e4.inodesCount := by
  have hslots : g * w.e4.inodesPerGroup + w.e4.inodesPerGroup ≤ 65536 * 65536 := by
    rw [← Nat.succ_mul]
    have hperGroup := maps.perGroup
    have hblock := maps.blockSize
    have hgroups := maps.groups
    exact Nat.mul_le_mul (by omega) (by omega)
  have hfirst := maps.firstIno
  have hcount := maps.inodesCount
  rw [Ext4Fs.offers, decide_eq_true_eq]
  by_cases wraps : g * w.e4.inodesPerGroup + i + 1 = 4294967296
  · have hzero : u32 (g * w.e4.inodesPerGroup + i + 1) = 0 := by
      rw [wraps]
      rfl
    omega
  · rw [u32_of_lt (by omega)]

theorem slot_number (hi : i < e4.inodesPerGroup) :
    (g * e4.inodesPerGroup + i + 1 - 1) / e4.inodesPerGroup = g ∧
      (g * e4.inodesPerGroup + i + 1 - 1) % e4.inodesPerGroup = i := by
  have hpos : 0 < e4.inodesPerGroup := by omega
  rw [Nat.add_sub_cancel, Nat.mul_comm, Nat.add_comm]
  exact ⟨by rw [Nat.add_mul_div_left _ _ hpos, Nat.div_eq_of_lt hi, Nat.zero_add],
    by rw [Nat.add_mul_mod_self_left, Nat.mod_eq_of_lt hi]⟩

/-! ## Passing over a group -/

theorem clearUninit_other (e4 : Ext4Fs) (g j : Nat)
    (flags : j < e4.gdOff g + 18 ∨ e4.gdOff g + 20 ≤ j)
    (lo : j < e4.gdOff g + 28 ∨ e4.gdOff g + 30 ≤ j)
    (hi : 50 ≤ e4.descSize → j < e4.gdOff g + 50 ∨ e4.gdOff g + 52 ≤ j) :
    clearUninit e4 g j = e4.gdt j := by
  have hlow : Gd.putItableUnusedLo (Gd.putFlags e4.gdt (e4.gdOff g)
    (Gd.flags e4.gdt (e4.gdOff g) &&& 0xFFFE))
      (e4.gdOff g) 0 j = e4.gdt j := by
    rw [Gd.putItableUnusedLo, put16_other _ _ _ _ lo, Gd.putFlags, put16_other _ _ _ _ flags]
  simp only [clearUninit]
  split
  next wide => rw [Gd.putItableUnusedHi, put16_other _ _ _ _ (hi wide.2), hlow]
  · exact hlow

theorem gdOff_apart (e4 : Ext4Fs) (g h : Nat) : g = h ∨ e4.gdOff g + e4.descSize ≤ e4.gdOff h ∨
    e4.gdOff h + e4.descSize ≤ e4.gdOff g := by
  rcases Nat.lt_trichotomy g h with below | same | above
  · right
    left
    have := Nat.mul_le_mul_right e4.descSize below
    rwa [Nat.succ_mul] at this
  · exact Or.inl same
  · right
    right
    have := Nat.mul_le_mul_right e4.descSize above
    rwa [Nat.succ_mul] at this

/-- Inode bitmaps stay where they are, also where the high half of the location is read from
the next descriptor. -/
theorem clearUninit_bitmapBlock (accepted : DescAccepted e4.descSize) (g h : Nat) :
    { e4 with gdt := clearUninit e4 g }.bitmapBlock true h = e4.bitmapBlock true h := by
  obtain ⟨hsize, hfour⟩ := accepted.dvd
  have hapart := gdOff_apart e4 g h
  have word : ∀ k, k = 4 ∨
      k = 36 → get32 (clearUninit e4 g) (e4.gdOff h + k) = get32 e4.gdt (e4.gdOff h + k) := by
    intro k hk
    apply get32_congr
    intro j lo hi
    rcases hapart with rfl | below | above
    · exact clearUninit_other e4 g j (by omega) (by omega) (by omega)
    · exact clearUninit_other e4 g j (by omega) (by omega) (by omega)
    · exact clearUninit_other e4 g j (by omega) (by omega) (by omega)
  simp only [Ext4Fs.bitmapBlock, if_true, Gd.inodeBitmapLo, Gd.inodeBitmapHi]
  rw [show get32 (clearUninit e4 g) (Ext4Fs.gdOff { e4 with gdt := clearUninit e4 g } h + 4) =
    _ from word 4 (Or.inl rfl),
    show get32 (clearUninit e4 g) (Ext4Fs.gdOff { e4 with gdt := clearUninit e4 g } h + 36) =
      _ from word 36 (Or.inr rfl)]

/-- The state after groups were passed over: a descriptor is as it was unless the group has no
slot to offer. -/
structure Passed (w w' : World) (d : Nat) : Prop where
  kept : Kept w w'
  sb : w'.e4.sb = w.e4.sb
  disk : w'.disk d = w.disk d
  bitmapBlock : ∀ h, w'.e4.bitmapBlock true h = w.e4.bitmapBlock true h
  desc : ∀ h, Agree w'.e4.gdt w.e4.gdt (w.e4.gdOff h) (w.e4.gdOff h + w.e4.descSize) ∨
    ∀ i < w.e4.inodesPerGroup, w.e4.offers h i = false

theorem Quiet.passed (q : Quiet w w') (d : Nat) : Passed w w' d := by
  constructor
  · exact q.kept
  · rw [q.e4]
  · exact q.disk d
  · rw [q.e4]
    exact fun _ => rfl
  · rw [q.e4]
    exact fun _ => Or.inl (Agree.refl _ _ _)

section
variable (k : Kept w w')
include k

theorem Kept.offers : w'.e4.offers = w.e4.offers := by
  funext g i
  rw [k.e4]
  rfl

theorem Kept.gdOff : w'.e4.gdOff = w.e4.gdOff := by
  funext g
  rw [k.e4]
  rfl

theorem Kept.descSize : w'.e4.descSize = w.e4.descSize := by rw [k.e4]

theorem Kept.inodesPerGroup : w'.e4.inodesPerGroup = w.e4.inodesPerGroup := by rw [k.e4]

theorem Kept.groupCount : w'.e4.groupCount = w.e4.groupCount := by rw [k.e4]

end

theorem InodeMaps.carry (maps : InodeMaps w d) (k : Kept w w')
    (bitmaps : ∀ h, w'.e4.bitmapBlock true h = w.e4.bitmapBlock true h) : InodeMaps w' d := by
  have hcount : w'.e4.blocksCount = w.e4.blocksCount := by rw [k.e4]
  have hdescs : w'.e4.descBlock = w.e4.descBlock := by
    funext h
    rw [k.e4]
    rfl
  constructor
  · exact maps.transfers.kept k
  · rw [k.descSize]
    exact maps.desc
  · rw [k.blockSize]
    exact maps.blockSize
  · rw [k.groupCount]
    exact maps.someGroup
  · rw [k.groupCount]
    exact maps.groups
  · rw [k.inodesPerGroup]
    exact maps.someInode
  · rw [k.inodesPerGroup, k.blockSize]
    exact maps.perGroup
  · rw [k.e4]
    exact maps.firstIno
  · rw [k.e4]
    exact maps.inodesCount
  · intro h hh
    rw [bitmaps, hcount]
    exact maps.bitmaps h (k.groupCount ▸ hh)
  · intro h hh
    rw [hdescs, hcount]
    exact maps.descs h (k.groupCount ▸ hh)

theorem uninit_congr (accepted : DescAccepted w.e4.descSize) (k : Kept w w')
    (same : Agree w'.e4.gdt w.e4.gdt (w.e4.gdOff h) (w.e4.gdOff h + w.e4.descSize)) :
    w'.e4.uninit h = w.e4.uninit h := by
  have hsize := accepted.dvd.1
  have hflags : Gd.flags w'.e4.gdt (w.e4.gdOff h) = Gd.flags w.e4.gdt (w.e4.gdOff h) :=
    get16_congr (same.mono (Nat.le_add_right _ _) (by omega))
  rw [Ext4Fs.uninit, k.gdOff, hflags]
  rfl

theorem Passed.passesOver (p : Passed w w' d) (maps : InodeMaps w d)
    (hi : i < w.e4.inodesPerGroup) :
    w'.passesOver d h i = w.passesOver d h i := by
  have hfirst : w'.e4.firstIno = w.e4.firstIno := by rw [p.kept.e4]
  have hblock : w'.e4.blockSize = w.e4.blockSize := by rw [p.kept.e4]
  unfold World.passesOver
  rw [p.kept.offers]
  rcases p.desc h with same | empty
  · unfold World.inodeTaken
    rw [uninit_congr maps.desc p.kept same, p.disk, p.bitmapBlock, hfirst, hblock]
  · rw [empty i hi]
    rfl

/-! ## The bitmap that is scanned -/

/-- The state in which the bitmap of `g` is in the first buffer, made up if need be. -/
structure Prepared (w w' : World) (d g : Nat) : Prop where
  kept : Kept w w'
  sb : w'.e4.sb = w.e4.sb
  disk : w'.disk d = w.disk d
  bitmapBlock : ∀ h, w'.e4.bitmapBlock true h = w.e4.bitmapBlock true h
  written : w'.e4.uninit g = false
  bits : ∀ i < w.e4.inodesPerGroup, bitAt w'.scratch1 i = w.inodeTaken d g i
  loaded : w.e4.uninit g = false →
    Agree w'.e4.gdt w.e4.gdt (w.e4.gdOff g) (w.e4.gdOff g + w.e4.descSize) ∧
      Agree w'.scratch1 (blockAt (w.disk d) w.e4.blockSize (w.e4.bitmapBlock true g)) 0
        w.e4.blockSize

theorem bitAt_fresh (hi : i < e4.inodesPerGroup) (fits : e4.inodesPerGroup ≤ 8 * e4.blockSize)
    (g : Nat) (buf : Bytes) :
    bitAt (freshInodeBitmap e4 g buf) i = decide (g = 0 ∧ i < e4.firstIno - 1) := by
  have hclear : bitAt (fill buf 0 e4.blockSize 0) i = false := by
    have hoctet : fill buf 0 e4.blockSize 0 (i / 8) = zero (i / 8) := if_pos (by omega)
    rw [bitAt_congr hoctet]
    simp [bitAt, get8, zero]
  simp only [freshInodeBitmap]
  split
  next first =>
    rw [bitAt_setBits, hclear, Bool.or_false, decide_eq_decide]
    omega
  next other =>
    rw [hclear]
    exact (decide_eq_false (fun both => other both.1)).symm

theorem uninit_clear (e4 : Ext4Fs) (g : Nat) :
    { e4 with gdt := clearUninit e4 g }.uninit g = false := by
  have hflags : get16 (clearUninit e4 g) (e4.gdOff g + 18) = Gd.flags e4.gdt (e4.gdOff g) &&&
      0xFFFE := by
    have hsmall : Gd.flags e4.gdt (e4.gdOff g) &&& 0xFFFE < 65536 :=
      Nat.lt_of_le_of_lt Nat.and_le_right (by decide)
    have hput : get16 (Gd.putItableUnusedLo (Gd.putFlags e4.gdt (e4.gdOff g)
      (Gd.flags e4.gdt (e4.gdOff g) &&& 0xFFFE))
        (e4.gdOff g) 0) (e4.gdOff g + 18) = Gd.flags e4.gdt (e4.gdOff g) &&& 0xFFFE := by
      rw [Gd.putItableUnusedLo, get16_put16_ne _ _ _ _ (by omega), Gd.putFlags, get16_put16,
        Nat.mod_eq_of_lt hsmall]
    simp only [clearUninit]
    split
    · rw [Gd.putItableUnusedHi, get16_put16_ne _ _ _ _ (by omega), hput]
    · exact hput
  have hbit : get16 (clearUninit e4 g) (e4.gdOff g + 18) &&& 1 = 0 := by
    rw [hflags, Nat.and_assoc]
    exact Nat.and_zero _
  exact decide_eq_false (not_not.mpr hbit)

theorem InodeMaps.prepared (maps : InodeMaps w d) (hg : g < w.e4.groupCount) :
    ∃ w1, loadBitmap true g w = (some (w.e4.bitmapBlock true g), w1) ∧ Prepared w
    (w1.materialized g) d g ∧
      ∀ h, h ≠ g → Agree (w1.materialized g).e4.gdt w.e4.gdt (w.e4.gdOff h)
      (w.e4.gdOff h + w.e4.descSize) := by
  obtain ⟨w1, hload, quiet, hbuf⟩ := maps.transfers.loadBitmap hg (maps.bitmaps g hg)
  have hread : Agree w1.scratch1 (blockAt (w.disk d) w.e4.blockSize (w.e4.bitmapBlock true g)) 0
      w.e4.blockSize := by
    rw [hbuf]
    exact agree_read _ _ _ _
  have hfits := maps.perGroup
  refine ⟨w1, hload, ?_⟩
  by_cases fresh : Gd.flags w1.e4.gdt (w1.e4.gdOff g) &&& 1 ≠ 0
  · have huninit : w.e4.uninit g = true := by
      rw [← quiet.e4]
      exact decide_eq_true fresh
    rw [World.materialized, if_pos fresh, quiet.e4]
    constructor
    · constructor
      · exact ⟨rfl, quiet.kept.devs, quiet.fault⟩
      · rfl
      · exact quiet.disk d
      · exact clearUninit_bitmapBlock maps.desc g
      · exact uninit_clear w.e4 g
      · intro i hi
        rw [World.inodeTaken, huninit]
        exact bitAt_fresh hi hfits g _
      · intro written
        rw [huninit] at written
        cases written
    · intro h hne
      have hwithin := clearUninit_within maps.desc g
      rcases gdOff_apart w.e4 h g with same | below | above
      · exact absurd same hne
      · exact fun j hlo hhi => hwithin j (by omega)
      · exact fun j hlo hhi => hwithin j (by omega)
  · have huninit : w.e4.uninit g = false := by
      rw [← quiet.e4]
      exact decide_eq_false fresh
    rw [World.materialized, if_neg fresh]
    have passed := quiet.passed d
    constructor
    · constructor
      · exact passed.kept
      · exact passed.sb
      · exact passed.disk
      · exact passed.bitmapBlock
      · rw [quiet.e4]
        exact huninit
      · intro i hi
        rw [World.inodeTaken, huninit]
        exact bitAt_congr (hread _ (Nat.zero_le _) (by omega))
      · intro _
        rw [quiet.e4]
        exact ⟨Agree.refl _ _ _, hread⟩
    · intro h _
      rw [quiet.e4]
      exact Agree.refl _ _ _

theorem Prepared.scan (p : Prepared w w' d g) :
    w'.firstFreeInode g = SlotMap.firstClear (w.passesOver d g) w.e4.inodesPerGroup := by
  rw [World.firstFreeInode, findInode_eq, p.kept.inodesPerGroup, p.kept.offers]
  apply SlotMap.firstClear_congr
  intro i hi
  rw [World.passesOver, p.bits i hi]

theorem Prepared.passed (p : Prepared w w' d g)
    (others : ∀ h, h ≠ g → Agree w'.e4.gdt w.e4.gdt (w.e4.gdOff h) (w.e4.gdOff h + w.e4.descSize))
    (full : SlotMap.firstClear (w.passesOver d g) w.e4.inodesPerGroup = none) : Passed w w' d := by
  refine ⟨p.kept, p.sb, p.disk, p.bitmapBlock, fun h => ?_⟩
  by_cases same : h = g
  · subst same
    cases fresh : w.e4.uninit h with
    | false => exact Or.inl (p.loaded fresh).1
    | true =>
      right
      intro i hi
      have hskip := SlotMap.firstClear_none full hi
      rw [World.passesOver, World.inodeTaken, fresh, if_pos rfl] at hskip
      -- A bitmap made up has no bit set where the scan looks.
      cases offered : w.e4.offers h i with
      | false => rfl
      | true =>
        have hstart := (of_decide_eq_true offered).1
        simp only [offered, Bool.not_true, Bool.false_or, decide_eq_true_eq] at hskip
        omega
  · exact Or.inl (others h same)

/-- What was prepared after groups were passed over was prepared from the start. -/
theorem Passed.prepared (p : Passed w w' d) (maps : InodeMaps w d) (hi : i < w.e4.inodesPerGroup)
    (offered : w.e4.offers g i = true) (q : Prepared w' w'' d g) : Prepared w w'' d g := by
  have same : Agree w'.e4.gdt w.e4.gdt (w.e4.gdOff g) (w.e4.gdOff g + w.e4.descSize) := by
    rcases p.desc g with same | empty
    · exact same
    · rw [empty i hi] at offered
      cases offered
  have hflag := uninit_congr maps.desc p.kept same
  have hfirst : w'.e4.firstIno = w.e4.firstIno := by rw [p.kept.e4]
  have hblock : w'.e4.blockSize = w.e4.blockSize := by rw [p.kept.e4]
  constructor
  · exact p.kept.trans q.kept
  · exact q.sb.trans p.sb
  · exact q.disk.trans p.disk
  · intro h
    rw [q.bitmapBlock, p.bitmapBlock]
  · exact q.written
  · intro j hj
    rw [q.bits j (by rw [p.kept.inodesPerGroup]; exact hj)]
    unfold World.inodeTaken
    rw [hflag, p.disk, p.bitmapBlock, hfirst, hblock]
  · intro written
    obtain ⟨hdesc, hread⟩ := q.loaded (by rw [hflag]; exact written)
    rw [p.kept.gdOff, p.kept.descSize] at hdesc
    rw [p.disk, p.bitmapBlock, hblock] at hread
    exact ⟨hdesc.trans same, hread⟩

/-! ## Taking the slot found -/

/-- The state after an inode bitmap was settled. -/
structure InodeSettled (w w' : World) (d g : Nat) (bm : Bytes) (delta : Int) (mode : Nat) :
    Prop where
  kept : Kept w w'
  e4 : w'.e4 = w.e4.inodeRecount bm g delta mode
  bitmap : ∀ k < w.e4.blockSize, w'.disk d (w.e4.bitmapBlock true g * w.e4.blockSize + k) = bm k

/-- The bitmap is written last, so it is on the disk wherever the descriptor went. -/
theorem Transfers.settleInode (t : Transfers w d) (hg : g < w.e4.groupCount)
    (bitmap : w.e4.bitmapBlock true g < w.e4.blocksCount)
    (desc : w.e4.descBlock g < w.e4.blocksCount) (bm : Bytes) (delta : Int) (mode : Nat) :
    ∃ w', Fs.settleInode g (w.e4.bitmapBlock true g) bm delta mode w = (some (), w') ∧
      InodeSettled w w' d g bm delta mode := by
  have heq := settleInode_eq g (w.e4.bitmapBlock true g) bm delta mode w
  generalize hw1 : { w with
    scratch1 := bm
    e4 := ({ w.e4 with
      gdt := e4BitmapChecksumSet w.e4 bm true w.e4.gdt (w.e4.gdOff g) }.adjustedInodes
      g delta).countedDir g mode } = w1 at heq
  have k1 : Kept w w1 := by
    subst hw1
    exact ⟨rfl, fun _ => rfl, rfl⟩
  obtain ⟨w2, hsync, k2, he2, hbuf, _⟩ := (t.kept k1).syncGd (g := g) (by subst hw1; exact hg)
    (by subst hw1; exact desc)
  obtain ⟨w', hwrite, wrote⟩ := (t.kept (k1.trans k2)).wrote (b := w.e4.bitmapBlock true g)
    (by rw [he2]; subst hw1; exact bitmap) w2.scratch1
  have hsize : w2.e4.blockSize = w.e4.blockSize := (k1.trans k2).blockSize
  refine ⟨w', ?_, (k1.trans k2).trans wrote.kept, ?_, ?_⟩
  · rw [heq, Cmd.ignore_bind, hsync, Cmd.get_bind, hwrite]
  · rw [wrote.e4, he2]
    subst hw1
    rfl
  · intro k hk
    rw [← hsize, wrote.same k (by rw [hsize]; exact hk), hbuf]
    subst hw1
    rfl

/-- How `e4_alloc_inode` ends when `picked` is the slot to take. -/
def InodeAllocEnds (w : World) (d mode : Nat) (r : Option Nat × World) : Option (Nat × Nat) → Prop
  | some (g, i) =>
    ∃ w1 w', Prepared w w1 d g ∧ InodeSettled w1 w' d g (setBit w1.scratch1 i) (-1) mode ∧
      r = (some (u32 (g * w.e4.inodesPerGroup + i + 1)), w')
  | none => r.1 = none

theorem InodeMaps.allocInodeFrom (maps : InodeMaps w d) (prefer mode more gi : Nat) :
    InodeAllocEnds w d mode (allocInodeFrom prefer mode more gi w)
      (SlotMap.pick ((List.range' gi more).map (visit prefer w.e4.groupCount))
        (fun _ => w.e4.inodesPerGroup) (w.passesOver d)) := by
  induction more generalizing gi w with
  | zero => exact rfl
  | succ more ih =>
    have hg : visit prefer w.e4.groupCount gi < w.e4.groupCount := Nat.mod_lt _ maps.someGroup
    obtain ⟨w1, hload, prepared, others⟩ := maps.prepared hg
    rw [List.range'_succ, List.map_cons, allocInodeFrom_succ, hload]
    generalize visit prefer w.e4.groupCount gi = g at hg prepared others ⊢
    dsimp only
    generalize w1.materialized g = w2 at prepared others ⊢
    rw [prepared.scan]
    cases hscan : SlotMap.firstClear (w.passesOver d g) w.e4.inodesPerGroup with
    | none =>
      have passed := prepared.passed others hscan
      rw [SlotMap.pick_cons_none hscan]
      have hrest := ih (maps.carry passed.kept passed.bitmapBlock) (gi + 1)
      rw [passed.kept.groupCount, passed.kept.inodesPerGroup, SlotMap.pick_congr fun h _ i hi =>
        passed.passesOver maps hi] at hrest
      generalize hpick : SlotMap.pick _ _ _ = picked at hrest ⊢
      cases picked with
      | none => exact hrest
      | some slot =>
        obtain ⟨h, i⟩ := slot
        obtain ⟨_, hi, hclear⟩ := SlotMap.pick_some hpick
        obtain ⟨w3, w', prepared', settled, result⟩ := hrest
        have offered : w.e4.offers h i = true := by
          simp only [World.passesOver, Bool.or_eq_false_iff, Bool.not_eq_false'] at hclear
          exact hclear.1
        rw [passed.kept.inodesPerGroup] at result
        exact ⟨w3, w', passed.prepared maps hi offered prepared', settled, result⟩
    | some i =>
      rw [SlotMap.pick_cons_some hscan]
      have hgroup : g < w2.e4.groupCount := by
        rw [prepared.kept.groupCount]
        exact hg
      have maps' := maps.carry prepared.kept prepared.bitmapBlock
      obtain ⟨w', hsettle, settled⟩ := maps'.transfers.settleInode hgroup (maps'.bitmaps g hgroup)
        (maps'.descs g hgroup) (setBit w2.scratch1 i) (-1) mode
      rw [prepared.bitmapBlock] at hsettle
      refine ⟨w2, w', prepared, settled, ?_⟩
      dsimp only
      rw [Cmd.bind_some (takeInode_eq g (w.e4.bitmapBlock true g) i mode w2), hsettle,
        Cmd.pure_apply,
        prepared.kept.inodesPerGroup]

theorem InodeMaps.alloc (maps : InodeMaps w d) (prefer mode : Nat) :
    InodeAllocEnds w d mode (e4AllocInode prefer mode w) (w.inodeChoice d prefer) := by
  have hfrom := maps.allocInodeFrom prefer mode w.e4.groupCount 0
  unfold e4AllocInode
  rw [Cmd.get_bind, if_neg (by rw [maps.transfers.writable]; simp)]
  unfold World.inodeChoice visitOrder
  rw [List.range_eq_range']
  exact hfrom

/-! ## What is left of the descriptor -/

theorem inodeChecksum_other (e4 : Ext4Fs) (bm b : Bytes) (gd j : Nat)
    (lo : j < gd + 26 ∨ gd + 28 ≤ j) (hi : j < gd + 58 ∨ gd + 60 ≤ j) :
    e4BitmapChecksumSet e4 bm true b gd j = b j := by
  simp only [e4BitmapChecksumSet]
  split
  · rfl
  · simp only [if_true]
    split
    · rw [Gd.putInodeBitmapCsumHi, put16_other _ _ _ _ hi, Gd.putInodeBitmapCsumLo,
        put16_other _ _ _ _ lo]
    · rw [Gd.putInodeBitmapCsumLo, put16_other _ _ _ _ lo]

theorem adjustedInodes_other (e4 : Ext4Fs) (g : Nat) (delta : Int) (j : Nat)
    (lo : j < e4.gdOff g + 14 ∨ e4.gdOff g + 16 ≤ j)
    (hi : j < e4.gdOff g + 46 ∨ e4.gdOff g + 48 ≤ j) :
    (e4.adjustedInodes g delta).gdt j = e4.gdt j := by
  simp only [Ext4Fs.adjustedInodes]
  split
  · rw [Gd.putFreeInodesCountHi, put16_other _ _ _ _ hi, Gd.putFreeInodesCountLo,
      put16_other _ _ _ _ lo]
  · rw [Gd.putFreeInodesCountLo, put16_other _ _ _ _ lo]

theorem countedDir_other (e4 : Ext4Fs) (g mode j : Nat)
    (lo : j < e4.gdOff g + 16 ∨ e4.gdOff g + 18 ≤ j)
    (hi : j < e4.gdOff g + 48 ∨ e4.gdOff g + 50 ≤ j) :
    (e4.countedDir g mode).gdt j = e4.gdt j := by
  simp only [Ext4Fs.countedDir]
  split
  · rfl
  · split
    · rw [Gd.putUsedDirsCountHi, put16_other _ _ _ _ hi, Gd.putUsedDirsCountLo,
        put16_other _ _ _ _ lo]
    · rw [Gd.putUsedDirsCountLo, put16_other _ _ _ _ lo]

theorem inodeRecount_other (e4 : Ext4Fs) (bm : Bytes) (g : Nat) (delta : Int) (mode j : Nat)
    (apart : j < e4.gdOff g + 14 ∨ (e4.gdOff g + 18 ≤ j ∧ j < e4.gdOff g + 26) ∨
      (e4.gdOff g + 32 ≤ j ∧ j < e4.gdOff g + 46)) :
    (e4.inodeRecount bm g delta mode).gdt j = e4.gdt j := by
  simp only [Ext4Fs.inodeRecount]
  rw [descChecksum_other _ _ _ _ _ (by simp only [Ext4Fs.gdOff,
    Ext4Fs.adjustedInodes, Ext4Fs.countedDir] at *; omega),
    countedDir_other _ _ _ _ (by simp only [Ext4Fs.gdOff, Ext4Fs.adjustedInodes] at *; omega)
      (by simp only [Ext4Fs.gdOff, Ext4Fs.adjustedInodes] at *; omega),
    adjustedInodes_other _ _ _ _ (by simp only [Ext4Fs.gdOff] at *; omega)
      (by simp only [Ext4Fs.gdOff] at *; omega)]
  exact inodeChecksum_other _ _ _ _ _ (by omega) (by omega)

variable {delta : Int} {mode prefer : Nat}

theorem InodeSettled.bitmapBlock (s : InodeSettled w w' d g bm delta mode) :
    w'.e4.bitmapBlock true g = w.e4.bitmapBlock true g := by
  have word : ∀ k, k = 4 ∨ k = 36 → get32 (w.e4.inodeRecount bm g delta mode).gdt
    (w.e4.gdOff g + k) =
      get32 w.e4.gdt (w.e4.gdOff g + k) := by
    intro k hk
    apply get32_congr
    intro j lo hi
    exact inodeRecount_other _ _ _ _ _ _ (by omega)
  have hwide : w'.e4.has64bit = w.e4.has64bit := by rw [s.kept.e4]
  have hgdt : w'.e4.gdt = (w.e4.inodeRecount bm g delta mode).gdt := by rw [s.e4]
  simp only [Ext4Fs.bitmapBlock, if_true, Gd.inodeBitmapLo, Gd.inodeBitmapHi, s.kept.gdOff,
    hwide, hgdt,
    word 4 (Or.inl rfl), word 36 (Or.inr rfl)]

theorem InodeSettled.uninit (s : InodeSettled w w' d g bm delta mode) :
    w'.e4.uninit g = w.e4.uninit g := by
  have hflags : get16 (w.e4.inodeRecount bm g delta mode).gdt (w.e4.gdOff g + 18) =
      get16 w.e4.gdt (w.e4.gdOff g + 18) := by
    apply get16_congr
    intro j lo hi
    exact inodeRecount_other _ _ _ _ _ _ (by omega)
  have hgdt : w'.e4.gdt = (w.e4.inodeRecount bm g delta mode).gdt := by rw [s.e4]
  rw [Ext4Fs.uninit, Ext4Fs.uninit, decide_eq_decide]
  simp only [Gd.flags, s.kept.gdOff, hgdt, hflags]

theorem InodeSettled.marked {w1 : World} (maps : InodeMaps w d) (prepared : Prepared w w1 d g)
    (hi : i < w.e4.inodesPerGroup) (s : InodeSettled w1 w' d g (setBit w1.scratch1 i) (-1) mode) :
    w'.inodeTaken d g i = true := by
  have hfits := maps.perGroup
  have hblock : w'.e4.blockSize = w1.e4.blockSize := s.kept.blockSize
  have hsize : w1.e4.blockSize = w.e4.blockSize := prepared.kept.blockSize
  rw [World.inodeTaken, s.uninit, prepared.written, s.bitmapBlock, hblock]
  rw [bitAt_congr (s.bitmap (i / 8) (by omega)), bitAt_setBit]
  simp

/-! ## Completeness -/

/-- As long as an inode is free one is handed out, and failure means that none is. -/
def AllocsAnyFree (w : World) (d prefer mode : Nat) : Prop :=
  ((∃ n, w.inodeFree d n) → ∃ n w', e4AllocInode prefer mode w = (some n, w') ∧ w.inodeFree d n ∧
    w'.inodeTaken d ((n - 1) / w.e4.inodesPerGroup) ((n - 1) % w.e4.inodesPerGroup) = true) ∧
  ((e4AllocInode prefer mode w).1 = none → ∀ n, ¬ w.inodeFree d n)

/-- The slot chosen is a free inode at or behind the index at which the scan starts. -/
theorem InodeMaps.choice_free (maps : InodeMaps w d)
    (chosen : w.inodeChoice d prefer = some (g, i)) :
    (∃ gi < w.e4.groupCount, visit prefer w.e4.groupCount gi = g) ∧ i < w.e4.inodesPerGroup ∧
      w.e4.firstIno - 1 ≤ i ∧
      u32 (g * w.e4.inodesPerGroup + i + 1) = g * w.e4.inodesPerGroup + i + 1 ∧
      w.inodeFree d (g * w.e4.inodesPerGroup + i + 1) := by
  obtain ⟨member, hi, hclear⟩ := SlotMap.pick_some chosen
  dsimp only at member hi hclear
  obtain ⟨gi, hgi, hvisit⟩ := List.mem_map.mp member
  rw [List.mem_range] at hgi
  have hg : g < w.e4.groupCount := by
    rw [← hvisit]
    exact Nat.mod_lt _ maps.someGroup
  simp only [World.passesOver, Bool.or_eq_false_iff, Bool.not_eq_false'] at hclear
  obtain ⟨hstart, hlo, hhi⟩ := (maps.offers_iff hg hi).mp hclear.1
  have hcount := maps.inodesCount
  obtain ⟨hgroup, hindex⟩ := @slot_number w.e4 g i hi
  refine ⟨⟨gi, hgi, hvisit⟩, hi, hstart, u32_of_lt (by omega), hlo, hhi, ?_, ?_⟩
  · rw [hgroup]
    exact hg
  · rw [hgroup, hindex]
    exact hclear.2

theorem InodeMaps.allocs (maps : InodeMaps w d) (mode : Nat)
    (chosen : w.inodeChoice d prefer = some (g, i)) :
    AllocsAnyFree w d prefer mode := by
  have ends := maps.alloc prefer mode
  obtain ⟨_, hi, _, hnumber, hfree⟩ := maps.choice_free chosen
  rw [chosen] at ends
  obtain ⟨w1, w', prepared, settled, result⟩ := ends
  obtain ⟨hgroup, hindex⟩ := @slot_number w.e4 g i hi
  rw [hnumber] at result
  constructor
  · intro _
    refine ⟨_, w', result, hfree, ?_⟩
    rw [hgroup, hindex]
    exact settled.marked maps prepared hi
  · intro failed
    rw [result] at failed
    cases failed

/-- The allocator is complete just if no inode is free, or one is free in a group visited at
an index not below that of the first inode that is not reserved. -/
theorem inode_alloc_complete_iff (maps : InodeMaps w d) (prefer mode : Nat) :
    AllocsAnyFree w d prefer mode ↔ (∀ n, ¬ w.inodeFree d n) ∨
      ∃ n, w.inodeFree d n ∧ w.e4.firstIno - 1 ≤ (n - 1) % w.e4.inodesPerGroup ∧
        ∃ gi < w.e4.groupCount, visit prefer w.e4.groupCount gi =
        (n - 1) / w.e4.inodesPerGroup := by
  constructor
  · rintro ⟨complete, _⟩
    by_cases some : ∃ n, w.inodeFree d n
    · right
      obtain ⟨n, w', result, _⟩ := complete some
      have ends := maps.alloc prefer mode
      cases chosen : w.inodeChoice d prefer with
      | none =>
        rw [chosen, result] at ends
        cases ends
      | some slot =>
        obtain ⟨g, i⟩ := slot
        obtain ⟨hvisit, hi, hstart, _, hfree⟩ := maps.choice_free chosen
        obtain ⟨hgroup, hindex⟩ := @slot_number w.e4 g i hi
        refine ⟨_, hfree, ?_, ?_⟩
        · rw [hindex]
          exact hstart
        · rw [hgroup]
          exact hvisit
    · exact Or.inl (not_exists.mp some)
  · rintro (full | ⟨n, ⟨hlo, hhi, hg, hclear⟩, hstart, gi, hgi, hvisit⟩)
    · exact ⟨fun ⟨n, hfree⟩ => absurd hfree (full n), fun _ => full⟩
    · have hi : (n - 1) % w.e4.inodesPerGroup < w.e4.inodesPerGroup := Nat.mod_lt _ maps.someInode
      have hnumber : (n - 1) / w.e4.inodesPerGroup * w.e4.inodesPerGroup + (n - 1) %
          w.e4.inodesPerGroup + 1 = n := by
        have hsum := Nat.div_add_mod (n - 1) w.e4.inodesPerGroup
        have hfirst := maps.firstIno
        rw [Nat.mul_comm] at hsum
        omega
      have offered : w.e4.offers ((n - 1) / w.e4.inodesPerGroup) ((n - 1) % w.e4.inodesPerGroup) =
          true :=
        (maps.offers_iff hg hi).mpr ⟨hstart, by omega, by omega⟩
      cases chosen : w.inodeChoice d prefer with
      | none =>
        have member : (n - 1) / w.e4.inodesPerGroup ∈ visitOrder prefer w.e4.groupCount :=
          List.mem_map.mpr ⟨gi, List.mem_range.mpr hgi, hvisit⟩
        have hskip := SlotMap.pick_none chosen member hi
        rw [World.passesOver, offered, hclear] at hskip
        cases hskip
      | some slot => exact maps.allocs mode chosen

/-- Three groups of sixteen inodes with their bitmaps in blocks 6, 7 and 8. -/
def sixteens : Ext4Fs := { (threeGroups (fun _ => 0) (fun _ => 0) 0).e4 with
  inodesCount := 48
  sb := fun i => if i = 0x10 then 10 else 0
  gdt := fun i => if i = 4 then 6 else if i = 36 then 7 else if i = 68 then 8 else if i =
    46 then 10 else 0 }

/-- `lo` and `hi` are the bits of group 1; no inode of the other groups is free. -/
def middleInodes (lo hi : UInt8) : World := { threeGroups (fun _ => 0) (fun _ => 0) 0 with
  bus := ⟨fun _ => ⟨50, true, true, fun i => if i = 7 * 1024 then lo else if i =
    7 * 1024 + 1 then hi else 0xFF⟩, 1,
    fun _ _ => none, 0⟩
  e4 := sixteens }

theorem middleInodes_transfers (lo hi : UInt8) : Transfers (middleInodes lo hi) 0 := by
  constructor
  · rfl
  · rfl
  · rfl
  · rfl
  · exact fun _ _ => rfl
  · exact (by decide : 0 < sixteens.sectorsPerBlock)
  · exact (by decide : sixteens.blockSize = sixteens.sectorsPerBlock * 512)
  · exact Or.inr (by decide : sixteens.blocksCount * sixteens.sectorsPerBlock ≤ 50)
  · exact (by decide : sixteens.blocksCount * sixteens.sectorsPerBlock < 18446744073709551616)

theorem middleInodes_maps (lo hi : UInt8) : InodeMaps (middleInodes lo hi) 0 := by
  constructor
  · exact middleInodes_transfers lo hi
  · exact (⟨by decide, by decide, by decide⟩ : DescAccepted sixteens.descSize)
  · exact (by decide : sixteens.blockSize ≤ 8192)
  · exact (by decide : 0 < sixteens.groupCount)
  · exact (by decide : sixteens.groupCount ≤ 65536)
  · exact (by decide : 0 < sixteens.inodesPerGroup)
  · exact (by decide : sixteens.inodesPerGroup ≤ 8 * sixteens.blockSize)
  · exact (by decide : 0 < sixteens.firstIno)
  · exact (by decide : sixteens.inodesCount < 4294967296)
  · exact (by decide :
      ∀ g < sixteens.groupCount, sixteens.bitmapBlock true g < sixteens.blocksCount)
  · exact (by decide : ∀ g < sixteens.groupCount, sixteens.descBlock g < sixteens.blocksCount)

/-- Inode 27 is the first of group 1 that the scan looks at. -/
theorem inode_alloc_complete_iff_sample :
    (middleInodes 0xFF 0x00).inodeFree 0 27 ∧ AllocsAnyFree
    (middleInodes 0xFF 0x00) 0 5 0x8000 := by
  have hfree : (middleInodes 0xFF 0x00).inodeFree 0 27 :=
    ⟨by decide, by decide, by decide, by decide⟩
  exact ⟨hfree, (inode_alloc_complete_iff (middleInodes_maps _ _) 5 0x8000).mpr
    (Or.inr ⟨27, hfree, by decide, 2, by decide, by decide⟩)⟩

/-- Inodes 17 to 26 are free, and none is handed out. -/
theorem low_inodes_never_found :
    InodeMaps (middleInodes 0x00 0xFC) 0 ∧ (middleInodes 0x00 0xFC).inodeFree 0 17 ∧
    (e4AllocInode 1 0x8000 (middleInodes 0x00 0xFC)).1 = none :=
  ⟨middleInodes_maps _ _, ⟨by decide, by decide, by decide, by decide⟩, by decide⟩

end Obsidian.Fs
