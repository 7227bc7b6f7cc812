import Obsidian.Fs.BlockAlloc
import Obsidian.Fs.InodeTable

/-!
# Updates of one group descriptor

Descriptors are packed `descSize` octets apart and are accessed through one layout of 64
octets, so a field is inside its descriptor only if the descriptor is long enough. Here is
what the allocation functions write to the cached table, whatever the transfers return, and
for which sizes it stays inside the descriptor of the group.
-/
namespace Obsidian.Fs
open Lib Lib.Bytes Drivers

variable {w : World} {e4 : Ext4Fs} {g blk i : Nat} {bm : Bytes} {delta : Int}

/-! ## The driver state after an update -/

theorem e4WriteBlock_e4 (b : Nat) (buf : Bytes) (w : World) :
    (e4WriteBlock b buf w).2.e4 = w.e4 := by
  unfold e4WriteBlock
  split
  · rfl
  · rfl

theorem loadBitmap_e4 (inodeMap : Bool) (g : Nat) (w : World) :
    (loadBitmap inodeMap g w).2.e4 = w.e4 := by
  have keeps : Cmd.Keeps World.e4 (loadBitmap inodeMap g) :=
    Cmd.Keeps.get_bind fun _ => Cmd.Keeps.ite Cmd.Keeps.fail
      (Cmd.Keeps.bind (readScratch1_e4 _) fun _ => Cmd.Keeps.pure _)
  exact keeps w

theorem e4SyncGd_e4 (hg : g < w.e4.groupCount) :
    (e4SyncGd g w).2.e4 =
    { w.e4 with gdt := e4DescChecksumSet w.e4 g w.e4.gdt (w.e4.gdOff g) } := by
  have keeps : Cmd.Keeps World.e4 (readScratch2 (w.e4.descBlock g) >>= fun _ => do
      let w ← Cmd.get
      setScratch2 (copy w.scratch2 (w.e4.descSlot g) w.e4.gdt (w.e4.gdOff g) w.e4.descSize)
      let w ← Cmd.get
      e4WriteBlock (w.e4.descBlock g) w.scratch2) :=
    Cmd.Keeps.bind (readScratch2_e4 _) fun _ => Cmd.Keeps.get_bind fun _ =>
      Cmd.Keeps.bind (Cmd.Keeps.modify fun _ => rfl) fun _ => Cmd.Keeps.get_bind fun _ =>
        e4WriteBlock_e4 _ _
  unfold e4SyncGd
  rw [Cmd.get_bind, if_neg (Nat.not_le.mpr hg)]
  exact keeps _

theorem settle_e4 (hg : g < w.e4.groupCount) :
    (settle g blk bm delta w).2.e4 = w.e4.recount bm g delta := by
  show (e4WriteBlock blk _ _).2.e4 = _
  rw [e4WriteBlock_e4]
  exact e4SyncGd_e4 hg

theorem takeBlock_e4 (hg : g < w.e4.groupCount) :
    (takeBlock g blk i w).2.e4 = w.e4.recount (setBit w.scratch1 i) g (-1) := by
  rw [takeBlock_settle]
  show (e4WriteBlock _ _ _).2.e4 = _
  rw [e4WriteBlock_e4]
  exact settle_e4 hg

/-! ## Inodes -/

/-- The driver state after `adjust_free_inodes`. -/
def Ext4Fs.adjustedInodes (e4 : Ext4Fs) (g : Nat) (delta : Int) : Ext4Fs :=
  let gd := e4.gdOff g
  let v := ((Gd.freeInodesCountLo e4.gdt gd : Int) + delta).toNat
  let gdt := Gd.putFreeInodesCountLo e4.gdt gd v
  let gdt :=
    if e4.has64bit = true ∧ 46 ≤ e4.descSize then
      Gd.putFreeInodesCountHi gdt gd (v >>> 16 &&& 0xFFFF)
    else gdt
  let total := (toS32 (Sb.freeInodesCount e4.sb) + delta).toNat
  { e4 with gdt := gdt, sb := Sb.putFreeInodesCount e4.sb total }

/-- The driver state after `countDir`. -/
def Ext4Fs.countedDir (e4 : Ext4Fs) (g mode : Nat) : Ext4Fs :=
  let gd := e4.gdOff g
  let d := u16 (Gd.usedDirsCountLo e4.gdt gd + 1)
  let gdt := Gd.putUsedDirsCountLo e4.gdt gd d
  { e4 with
    gdt :=
      if mode &&& 0x4000 = 0 then e4.gdt
      else if e4.has64bit = true ∧ 48 ≤ e4.descSize then Gd.putUsedDirsCountHi gdt gd (d >>> 16)
      else gdt }

/-- The driver state after a bit of the group's inode bitmap changed to `bm`. -/
def Ext4Fs.inodeRecount (e4 : Ext4Fs) (bm : Bytes) (g : Nat) (delta : Int) (mode : Nat) : Ext4Fs :=
  let e4 := { e4 with gdt := e4BitmapChecksumSet e4 bm true e4.gdt (e4.gdOff g) }
  let e4 := (e4.adjustedInodes g delta).countedDir g mode
  { e4 with gdt := e4DescChecksumSet e4 g e4.gdt (e4.gdOff g) }

/-- What taking and freeing an inode have in common; only taking one counts directories. -/
def settleInode (g blk : Nat) (bm : Bytes) (delta : Int) (mode : Nat) : Cmd World Unit := do
  setScratch1 bm
  let w ← Cmd.get
  setGdt (e4BitmapChecksumSet w.e4 w.scratch1 true w.e4.gdt (w.e4.gdOff g))
  adjustFreeInodes g delta
  countDir g mode
  Cmd.ignore (e4SyncGd g)
  let w ← Cmd.get
  e4WriteBlock blk w.scratch1

theorem countDir_eq (g mode : Nat) (w : World) :
    countDir g mode w = (some (), { w with e4 := w.e4.countedDir g mode }) := by
  unfold countDir Ext4Fs.countedDir
  rw [Cmd.get_bind]
  by_cases plain : mode &&& 0x4000 = 0
  · simp only [if_pos plain]
    rfl
  · simp only [if_neg plain]
    rfl

theorem settleInode_eq (g blk : Nat) (bm : Bytes) (delta : Int) (mode : Nat) (w : World) :
    settleInode g blk bm delta mode w =
      (Cmd.ignore (e4SyncGd g) >>= fun _ => Cmd.get >>= fun w => e4WriteBlock blk w.scratch1)
        { w with
          scratch1 := bm
          e4 := ({ w.e4 with
            gdt := e4BitmapChecksumSet w.e4 bm true w.e4.gdt (w.e4.gdOff g) }.adjustedInodes
            g delta).countedDir g mode } :=
  Cmd.bind_some (countDir_eq g mode _)

theorem takeInode_eq (g blk i mode : Nat) (w : World) :
    takeInode g blk i mode w =
    (some (), (settleInode g blk (setBit w.scratch1 i) (-1) mode w).2) := by
  rw [settleInode_eq]
  exact Cmd.bind_some (countDir_eq g mode _)

theorem settleInode_e4 (hg : g < w.e4.groupCount) (mode : Nat) :
    (settleInode g blk bm delta mode w).2.e4 = w.e4.inodeRecount bm g delta mode := by
  rw [settleInode_eq]
  show (e4WriteBlock blk _ _).2.e4 = _
  rw [e4WriteBlock_e4]
  exact e4SyncGd_e4 hg

/-! ## One turn of the loops -/

/-- The state in which the bitmap just loaded is scanned: one that was never written is made
up first. -/
def World.materialized (w : World) (g : Nat) : World :=
  if Gd.flags w.e4.gdt (w.e4.gdOff g) &&& 1 ≠ 0 then
    { w with
      scratch1 := freshInodeBitmap w.e4 g w.scratch1
      e4 := { w.e4 with gdt := clearUninit w.e4 g } }
  else w

/-- The scan of `e4_alloc_inode` over one bitmap. -/
def World.firstFreeInode (w : World) (g : Nat) : Option Nat :=
  findInode w.e4 w.scratch1 g (w.e4.inodesPerGroup - (w.e4.firstIno - 1)) (w.e4.firstIno - 1)

theorem allocInodeFrom_succ (preferGroup mode more gi : Nat) (w : World) :
    allocInodeFrom preferGroup mode (more + 1) gi w =
      match loadBitmap true (visit preferGroup w.e4.groupCount gi) w with
      | (none, w1) => allocInodeFrom preferGroup mode more (gi + 1) w1
      | (some blk, w1) =>
        let w2 := w1.materialized (visit preferGroup w.e4.groupCount gi)
        match w2.firstFreeInode (visit preferGroup w.e4.groupCount gi) with
        | none => allocInodeFrom preferGroup mode more (gi + 1) w2
        | some i =>
          (takeInode (visit preferGroup w.e4.groupCount gi) blk i mode >>= fun _ =>
            pure (u32 (visit preferGroup w.e4.groupCount gi * w2.e4.inodesPerGroup + i + 1)))
            w2 := by
  rw [allocInodeFrom, Cmd.get_bind, Cmd.attempt_bind]
  unfold visit
  generalize u32 (preferGroup + gi) % w.e4.groupCount = g
  cases loadBitmap true g w with
  | mk r w1 =>
    cases r with
    | none => rfl
    | some blk =>
      simp only [Cmd.get_bind]
      by_cases fresh : Gd.flags w1.e4.gdt (w1.e4.gdOff g) &&& 1 ≠ 0
      · have hbits : setScratch1 (freshInodeBitmap w1.e4 g w1.scratch1) w1 =
            (some (), { w1 with scratch1 := freshInodeBitmap w1.e4 g w1.scratch1 }) := rfl
        have hflag : setGdt (clearUninit w1.e4 g)
            { w1 with scratch1 := freshInodeBitmap w1.e4 g w1.scratch1 } =
            (some (), w1.materialized g) := by
          rw [World.materialized, if_pos fresh]
          rfl
        rw [if_pos fresh, Cmd.bind_some hbits, Cmd.bind_some hflag, Cmd.get_bind]
        unfold World.firstFreeInode
        cases findInode (w1.materialized g).e4 (w1.materialized g).scratch1 g _ _ with
        | none => rfl
        | some i => rfl
      · have hsame : w1.materialized g = w1 := if_neg fresh
        rw [if_neg fresh, hsame, Cmd.get_bind]
        unfold World.firstFreeInode
        cases findInode w1.e4 w1.scratch1 g _ _ with
        | none => rfl
        | some i => rfl

theorem allocFrom_succ (hintGroup more gi : Nat) (w : World) : allocFrom hintGroup (more + 1) gi w =
      match loadBitmap false (visit hintGroup w.e4.groupCount gi) w with
      | (none, w1) => allocFrom hintGroup more (gi + 1) w1
      | (some blk, w1) =>
        match findClear w1.scratch1 (w1.e4.lastBits (visit hintGroup w.e4.groupCount gi)) with
        | none => allocFrom hintGroup more (gi + 1) w1
        | some bidx => (takeBlock (visit hintGroup w.e4.groupCount gi) blk bidx >>= fun _ =>
            pure (blkOf w1.e4 (visit hintGroup w.e4.groupCount gi) bidx)) w1 := by
  rw [allocFrom, Cmd.get_bind, Cmd.attempt_bind]
  unfold visit
  generalize u32 (hintGroup + gi) % w.e4.groupCount = g
  cases loadBitmap false g w with
  | mk r w1 =>
    cases r with
    | none => rfl
    | some blk =>
      simp only [Cmd.get_bind]
      cases findClear w1.scratch1 (w1.e4.lastBits g) with
      | none => rfl
      | some bidx => rfl

theorem loadBitmap_some {inodeMap : Bool} {w1 : World}
    (loaded : loadBitmap inodeMap g w = (some blk, w1)) :
    g < w.e4.groupCount ∧ blk = w.e4.bitmapBlock inodeMap g ∧ w1.e4 = w.e4 := by
  have hsame := loadBitmap_e4 inodeMap g w
  rw [loaded] at hsame
  unfold loadBitmap at loaded
  rw [Cmd.get_bind] at loaded
  split at loaded
  · cases loaded
  next inside =>
    obtain ⟨_, _, _, hpure⟩ := Cmd.bind_eq_some loaded
    cases hpure
    exact ⟨Nat.not_le.mp inside, rfl, hsame⟩

/-- One turn of `e4_alloc_block_near` leaves the driver state alone or recounts the group. -/
theorem allocTurn_e4 (hintGroup gi : Nat) (w : World) :
    (allocFrom hintGroup 1 gi w).2.e4 = w.e4 ∨
      ∃ bm, (allocFrom hintGroup 1 gi w).2.e4 = w.e4.recount bm (visit hintGroup w.e4.groupCount gi)
      (-1) := by
  rw [allocFrom_succ]
  have hsame := loadBitmap_e4 false (visit hintGroup w.e4.groupCount gi) w
  generalize hload : loadBitmap false (visit hintGroup w.e4.groupCount gi) w = r at hsame ⊢
  obtain ⟨r, w1⟩ := r
  cases r with
  | none => exact Or.inl hsame
  | some blk =>
    obtain ⟨hg, _, he4⟩ := loadBitmap_some hload
    simp only
    cases findClear w1.scratch1 (w1.e4.lastBits (visit hintGroup w.e4.groupCount gi)) with
    | none => exact Or.inl hsame
    | some bidx =>
      right
      refine ⟨setBit w1.scratch1 bidx, ?_⟩
      rw [← he4] at hg ⊢
      exact takeBlock_e4 hg

theorem e4FreeBlock_e4 (b : Nat) (w : World) :
    (e4FreeBlock b w).2.e4 = w.e4 ∨ ∃ bm, (e4FreeBlock b w).2.e4 =
      w.e4.recount bm (u32 ((b - w.e4.firstDataBlock) / w.e4.blocksPerGroup)) 1 := by
  unfold e4FreeBlock
  rw [Cmd.get_bind]
  split
  · exact Or.inl rfl
  · have hsame := loadBitmap_e4 false (u32 ((b - w.e4.firstDataBlock) / w.e4.blocksPerGroup)) w
    generalize hload : loadBitmap false (u32 ((b - w.e4.firstDataBlock) / w.e4.blocksPerGroup)) w =
      r at hsame
    obtain ⟨r, w1⟩ := r
    cases r with
    | none =>
      rw [Cmd.bind_none hload]
      exact Or.inl hsame
    | some blk =>
      obtain ⟨hg, _, he4⟩ := loadBitmap_some hload
      rw [Cmd.bind_some hload, Cmd.get_bind]
      split
      · exact Or.inl hsame
      · right
        refine ⟨clearBit w1.scratch1 (u32 ((b - w.e4.firstDataBlock) % w.e4.blocksPerGroup)), ?_⟩
        rw [← he4] at hg ⊢
        exact settle_e4 hg

/-! ## Inside the descriptor -/

/-- Outside the descriptor of `g` the cached table is the same. -/
def Ext4Fs.Within (e4 : Ext4Fs) (gdt : Bytes) (g : Nat) : Prop :=
  SameOutside gdt e4.gdt (e4.gdOff g) (e4.gdOff g + e4.descSize)

/-- Descriptors with room for every field that is accessed: without the 64BIT feature no high
half is. -/
def Ext4Fs.Roomy (e4 : Ext4Fs) : Prop :=
  e4.has64bit = false ∨ (40 ≤ e4.descSize ∧ e4.descSize ≠ 44 ∧ e4.descSize ≠ 48)

/-- Sizes that `ext4_mount` accepts. -/
def DescAccepted (size : Nat) : Prop := 32 ≤ size ∧ size ≤ 128 ∧ size &&& 3 = 0

theorem DescAccepted.dvd {size : Nat} (accepted : DescAccepted size) :
    32 ≤ size ∧ size % 4 = 0 := by
  obtain ⟨hlo, _, hmask⟩ := accepted
  rw [show (3 : Nat) = 2 ^ 2 - 1 from rfl, Nat.and_two_pow_sub_one_eq_mod] at hmask
  exact ⟨hlo, hmask⟩

theorem Ext4Fs.Roomy.wide (roomy : e4.Roomy) (wide : e4.has64bit = true) :
    40 ≤ e4.descSize ∧ e4.descSize ≠ 44 ∧ e4.descSize ≠ 48 :=
  roomy.resolve_left (by rw [wide]; decide)

section within

variable (accepted : DescAccepted e4.descSize)
include accepted

theorem bitmapChecksum_within (bm : Bytes) (inodeMap : Bool) (b : Bytes) (gd : Nat) :
    SameOutside (e4BitmapChecksumSet e4 bm inodeMap b gd) b gd (gd + e4.descSize) := by
  obtain ⟨hsize, hfour⟩ := accepted.dvd
  simp only [e4BitmapChecksumSet]
  split
  · exact SameOutside.refl _ _ _
  · split
    · split
      · exact put16_put16_sameOutside _ _ _ (by omega) (by omega)
      · exact put16_sameOutside _ _ (by omega) (by omega)
    · split
      · exact put16_put16_sameOutside _ _ _ (by omega) (by omega)
      · exact put16_sameOutside _ _ (by omega) (by omega)

theorem descChecksum_within (g : Nat) (b : Bytes) (gd : Nat) :
    SameOutside (e4DescChecksumSet e4 g b gd) b gd (gd + e4.descSize) := by
  have hsize := accepted.dvd.1
  intro j out
  exact descChecksum_other e4 g b gd j (by omega)

theorem adjusted_within (roomy : e4.Roomy) (g : Nat) (delta : Int) :
    e4.Within (e4.adjusted g delta).gdt g := by
  obtain ⟨hsize, hfour⟩ := accepted.dvd
  simp only [Ext4Fs.Within, Ext4Fs.adjusted]
  split
  next wide =>
    have hroom := roomy.wide wide.1
    exact put16_put16_sameOutside _ _ _ (by omega) (by omega)
  · exact put16_sameOutside _ _ (by omega) (by omega)

theorem adjustedInodes_within (g : Nat) (delta : Int) :
    e4.Within (e4.adjustedInodes g delta).gdt g := by
  obtain ⟨hsize, hfour⟩ := accepted.dvd
  simp only [Ext4Fs.Within, Ext4Fs.adjustedInodes]
  split
  · exact put16_put16_sameOutside _ _ _ (by omega) (by omega)
  · exact put16_sameOutside _ _ (by omega) (by omega)

theorem countedDir_within (roomy : e4.Roomy) (g mode : Nat) :
    e4.Within (e4.countedDir g mode).gdt g := by
  obtain ⟨hsize, hfour⟩ := accepted.dvd
  simp only [Ext4Fs.Within, Ext4Fs.countedDir]
  split
  · exact SameOutside.refl _ _ _
  · split
    next wide =>
      have hroom := roomy.wide wide.1
      exact put16_put16_sameOutside _ _ _ (by omega) (by omega)
    · exact put16_sameOutside _ _ (by omega) (by omega)

theorem clearUninit_within (g : Nat) : e4.Within (clearUninit e4 g) g := by
  obtain ⟨hsize, hfour⟩ := accepted.dvd
  have hflags :=
    (put16_sameOutside (Gd.putFlags e4.gdt (e4.gdOff g) (Gd.flags e4.gdt (e4.gdOff g) &&& 0xFFFE)) 0
    (show e4.gdOff g ≤ e4.gdOff g + 28 by omega) (show e4.gdOff g + 28 + 2 ≤
      e4.gdOff g + e4.descSize by omega)).trans
    (put16_sameOutside _ _ (by omega) (by omega))
  simp only [Ext4Fs.Within, clearUninit]
  split
  · exact (put16_sameOutside _ _ (by omega) (by omega)).trans hflags
  · exact hflags

theorem recount_within (roomy : e4.Roomy) (bm : Bytes) (g : Nat) (delta : Int) :
    e4.Within (e4.recount bm g delta).gdt g := by
  have hsum := bitmapChecksum_within accepted bm false e4.gdt (e4.gdOff g)
  generalize he1 : { e4 with gdt := e4BitmapChecksumSet e4 bm false e4.gdt (e4.gdOff g) } = e1
  have hcount : e1.Within (e1.adjusted g delta).gdt g := by
    subst he1
    exact adjusted_within (by exact accepted) (by exact roomy) g delta
  have hcheck := @descChecksum_within (e1.adjusted g delta) (by subst he1; exact accepted) g
    (e1.adjusted g delta).gdt (e4.gdOff g)
  subst he1
  exact (hcheck.trans hcount).trans hsum

theorem inodeRecount_within (roomy : e4.Roomy) (bm : Bytes) (g : Nat) (delta : Int) (mode : Nat) :
    e4.Within (e4.inodeRecount bm g delta mode).gdt g := by
  have hsum := bitmapChecksum_within accepted bm true e4.gdt (e4.gdOff g)
  generalize he1 : { e4 with gdt := e4BitmapChecksumSet e4 bm true e4.gdt (e4.gdOff g) } = e1
  have hcount : e1.Within (e1.adjustedInodes g delta).gdt g := by
    subst he1
    exact adjustedInodes_within (by exact accepted) g delta
  have hdirs : (e1.adjustedInodes g delta).Within
      ((e1.adjustedInodes g delta).countedDir g mode).gdt g := by
    subst he1
    exact countedDir_within (by exact accepted) (by exact roomy) g mode
  have hcheck := @descChecksum_within ((e1.adjustedInodes g delta).countedDir g mode)
    (by subst he1; exact accepted) g ((e1.adjustedInodes g delta).countedDir g mode).gdt
      (e4.gdOff g)
  subst he1
  exact ((hcheck.trans hdirs).trans hcount).trans hsum

end within

theorem materialized_e4 (w : World) (g : Nat) : (w.materialized g).e4 = w.e4 ∨
    (w.materialized g).e4 = { w.e4 with gdt := clearUninit w.e4 g } := by
  unfold World.materialized
  split
  · exact Or.inr rfl
  · exact Or.inl rfl

theorem materialized_within (accepted : DescAccepted w.e4.descSize) (g : Nat) :
    w.e4.Within (w.materialized g).e4.gdt g := by
  rcases materialized_e4 w g with same | fresh
  · rw [same]
    exact SameOutside.refl _ _ _
  · rw [fresh]
    exact clearUninit_within accepted g

theorem e4FreeInode_e4 (ino : Nat) (w : World) :
    (e4FreeInode ino w).2.e4 = w.e4 ∨ ∃ bm, (e4FreeInode ino w).2.e4 =
      w.e4.inodeRecount bm ((ino - 1) / w.e4.inodesPerGroup) 1 0 := by
  unfold e4FreeInode
  rw [Cmd.get_bind]
  split
  · exact Or.inl rfl
  · have hsame := loadBitmap_e4 true ((ino - 1) / w.e4.inodesPerGroup) w
    generalize hload : loadBitmap true ((ino - 1) / w.e4.inodesPerGroup) w = r at hsame
    obtain ⟨r, w1⟩ := r
    cases r with
    | none =>
      rw [Cmd.bind_none hload]
      exact Or.inl hsame
    | some blk =>
      obtain ⟨hg, _, he4⟩ := loadBitmap_some hload
      rw [Cmd.bind_some hload, Cmd.get_bind]
      split
      · exact Or.inl hsame
      · right
        refine ⟨clearBit w1.scratch1 ((ino - 1) % w.e4.inodesPerGroup), ?_⟩
        rw [← he4] at hg ⊢
        exact settleInode_e4 hg 0

section turn

variable (accepted : DescAccepted w.e4.descSize) (roomy : w.e4.Roomy)
include accepted roomy

theorem allocTurn_within (hintGroup gi : Nat) :
    w.e4.Within (allocFrom hintGroup 1 gi w).2.e4.gdt (visit hintGroup w.e4.groupCount gi) := by
  rcases allocTurn_e4 hintGroup gi w with same | ⟨bm, counted⟩
  · rw [same]
    exact SameOutside.refl _ _ _
  · rw [counted]
    exact recount_within accepted roomy bm _ _

theorem freeBlock_within (b : Nat) :
    w.e4.Within (e4FreeBlock b w).2.e4.gdt
    (u32 ((b - w.e4.firstDataBlock) / w.e4.blocksPerGroup)) := by
  rcases e4FreeBlock_e4 b w with same | ⟨bm, counted⟩
  · rw [same]
    exact SameOutside.refl _ _ _
  · rw [counted]
    exact recount_within accepted roomy bm _ _

theorem allocInodeTurn_within (preferGroup mode gi : Nat) :
    w.e4.Within (allocInodeFrom preferGroup mode 1 gi w).2.e4.gdt
    (visit preferGroup w.e4.groupCount gi) := by
  rw [allocInodeFrom_succ]
  have hsame := loadBitmap_e4 true (visit preferGroup w.e4.groupCount gi) w
  generalize hload : loadBitmap true (visit preferGroup w.e4.groupCount gi) w = r at hsame ⊢
  obtain ⟨r, w1⟩ := r
  replace hsame : w1.e4 = w.e4 := hsame
  cases r with
  | none =>
    show w.e4.Within w1.e4.gdt _
    rw [hsame]
    exact SameOutside.refl _ _ _
  | some blk =>
    obtain ⟨hg, _, _⟩ := loadBitmap_some hload
    generalize visit preferGroup w.e4.groupCount gi = g at hg ⊢
    rw [← hsame] at accepted roomy hg ⊢
    have hfresh := materialized_within accepted g
    simp only
    cases (w1.materialized g).firstFreeInode g with
    | none => exact hfresh
    | some i =>
      simp only [Cmd.bind_some (takeInode_eq _ _ _ _ _)]
      show w1.e4.Within (settleInode g blk _ (-1) mode _).2.e4.gdt g
      rcases materialized_e4 w1 g with same | fresh
      · rw [settleInode_e4 (by rw [same]; exact hg), same]
        exact inodeRecount_within accepted roomy _ g _ mode
      · rw [settleInode_e4 (by rw [fresh]; exact hg)]
        rw [fresh] at hfresh ⊢
        have hcount := @inodeRecount_within { w1.e4 with gdt := clearUninit w1.e4 g } accepted roomy
          (setBit (w1.materialized g).scratch1 i) g (-1) mode
        exact SameOutside.trans hcount hfresh

theorem freeInode_within (ino : Nat) :
    w.e4.Within (e4FreeInode ino w).2.e4.gdt ((ino - 1) / w.e4.inodesPerGroup) := by
  rcases e4FreeInode_e4 ino w with same | ⟨bm, counted⟩
  · rw [same]
    exact SameOutside.refl _ _ _
  · rw [counted]
    exact inodeRecount_within accepted roomy bm _ _ 0

end turn

theorem bitmapBlock_congr (accepted : DescAccepted e4.descSize) (roomy : e4.Roomy) {gdt : Bytes}
    (same : Agree gdt e4.gdt (e4.gdOff g) (e4.gdOff g + e4.descSize)) (inodeMap : Bool) :
    { e4 with gdt := gdt }.bitmapBlock inodeMap g = e4.bitmapBlock inodeMap g := by
  have hsize := accepted.dvd.1
  have word : ∀ k, k + 4 ≤ e4.descSize → get32 gdt (e4.gdOff g + k) =
    get32 e4.gdt (e4.gdOff g + k) := fun k hk =>
    get32_congr (same.mono (by omega) (by omega))
  have low : ∀ k, k ≤ 28 → get32 gdt (e4.gdOff g + k) = get32 e4.gdt (e4.gdOff g + k) := fun k hk =>
    word k (by omega)
  rcases roomy with narrow | ⟨hroom, _, _⟩
  · simp only [Ext4Fs.bitmapBlock, narrow, Bool.false_eq_true, if_false]
    cases inodeMap with
    | false => exact low 0 (by omega)
    | true => exact low 4 (by omega)
  · have high : get32 gdt (e4.gdOff g + 32) = get32 e4.gdt (e4.gdOff g + 32) ∧
        get32 gdt (e4.gdOff g + 36) = get32 e4.gdt (e4.gdOff g + 36) :=
      ⟨word 32 (by omega), word 36 (by omega)⟩
    simp only [Ext4Fs.bitmapBlock]
    cases inodeMap with
    | false =>
      simp only [Bool.false_eq_true, if_false, Gd.blockBitmapLo, Gd.blockBitmapHi]
      rw [show get32 gdt (Ext4Fs.gdOff { e4 with gdt := gdt } g) =
        get32 e4.gdt (e4.gdOff g) from low 0 (by omega),
        show get32 gdt (Ext4Fs.gdOff { e4 with gdt := gdt } g + 32) = _ from high.1]
    | true =>
      simp only [if_true, Gd.inodeBitmapLo, Gd.inodeBitmapHi]
      rw [show get32 gdt (Ext4Fs.gdOff { e4 with gdt := gdt } g + 4) = _ from low 4 (by omega),
        show get32 gdt (Ext4Fs.gdOff { e4 with gdt := gdt } g + 36) = _ from high.2]

/-- What the four functions do for group `g` stays inside its descriptor. The two that look
for a group do this turn by turn. -/
structure StaysInside (w : World) (g : Nat) : Prop where
  allocBlock : ∀ hintGroup gi, visit hintGroup w.e4.groupCount gi = g →
    w.e4.Within (allocFrom hintGroup 1 gi w).2.e4.gdt g
  freeBlock : ∀ b, u32 ((b - w.e4.firstDataBlock) / w.e4.blocksPerGroup) = g →
    w.e4.Within (e4FreeBlock b w).2.e4.gdt g
  allocInode : ∀ preferGroup mode gi, visit preferGroup w.e4.groupCount gi = g →
    w.e4.Within (allocInodeFrom preferGroup mode 1 gi w).2.e4.gdt g
  freeInode : ∀ ino, (ino - 1) / w.e4.inodesPerGroup = g →
    w.e4.Within (e4FreeInode ino w).2.e4.gdt g
  located : ∀ gdt, Agree gdt w.e4.gdt (w.e4.gdOff g) (w.e4.gdOff g + w.e4.descSize) → ∀ inodeMap,
    { w.e4 with gdt := gdt }.bitmapBlock inodeMap g = w.e4.bitmapBlock inodeMap g

theorem staysInside (accepted : DescAccepted w.e4.descSize) (roomy : w.e4.Roomy) (g : Nat) :
    StaysInside w g := by
  constructor
  · rintro hintGroup gi rfl
    exact allocTurn_within accepted roomy hintGroup gi
  · rintro b rfl
    exact freeBlock_within accepted roomy b
  · rintro preferGroup mode gi rfl
    exact allocInodeTurn_within accepted roomy preferGroup mode gi
  · rintro ino rfl
    exact freeInode_within accepted roomy ino
  · intro gdt same inodeMap
    exact bitmapBlock_congr accepted roomy same inodeMap

/-! ## Descriptors that are too short -/

theorem adjusted_taken_hi (wide : e4.has64bit = true ∧ 44 ≤ e4.descSize) (g : Nat) :
    (e4.adjusted g (-1)).gdt (e4.gdOff g + 44) = 0 := by
  have hcount := get16_lt e4.gdt (e4.gdOff g + 12)
  have hsmall : ((Gd.freeBlocksCountLo e4.gdt (e4.gdOff g) : Int) + -1).toNat >>> 16 = 0 := by
    rw [Nat.shiftRight_eq_div_pow]
    apply Nat.div_eq_of_lt
    simp only [Gd.freeBlocksCountLo]
    omega
  simp only [Ext4Fs.adjusted, if_pos wide, hsmall]
  simp [Gd.putFreeBlocksCountHi, put16, put8]

theorem recount_taken_hi (wide : e4.has64bit = true ∧ 44 ≤ e4.descSize) (bm : Bytes) (g : Nat) :
    (e4.recount bm g (-1)).gdt (e4.gdOff g + 44) = 0 := by
  simp only [Ext4Fs.recount]
  rw [descChecksum_other _ _ _ _ _ (by simp only [Ext4Fs.gdOff, Ext4Fs.adjusted]; omega)]
  exact adjusted_taken_hi (by exact wide) g

theorem countedDir_hi (wide : e4.has64bit = true ∧ 48 ≤ e4.descSize) {mode : Nat}
    (dir : mode &&& 0x4000 ≠ 0) (g : Nat) :
    get16 (e4.countedDir g mode).gdt (e4.gdOff g + 48) = 0 := by
  have hsmall : u16 (Gd.usedDirsCountLo e4.gdt (e4.gdOff g) + 1) >>> 16 = 0 := by
    rw [Nat.shiftRight_eq_div_pow]
    exact Nat.div_eq_of_lt (Nat.mod_lt _ (by omega))
  simp only [Ext4Fs.countedDir, if_neg dir, if_pos wide, hsmall]
  rw [Gd.putUsedDirsCountHi, get16_put16]

theorem inodeRecount_dirs_hi (wide : e4.has64bit = true ∧ 48 ≤ e4.descSize) {mode : Nat}
    (dir : mode &&& 0x4000 ≠ 0) (bm : Bytes) (g : Nat) (delta : Int) :
    (e4.inodeRecount bm g delta mode).gdt (e4.gdOff g + 48) = 0 := by
  simp only [Ext4Fs.inodeRecount]
  rw [descChecksum_other _ _ _ _ _ (by simp only [Ext4Fs.gdOff,
    Ext4Fs.adjustedInodes, Ext4Fs.countedDir]; omega)]
  exact octet_of_get16_eq_zero (countedDir_hi (by exact wide) dir g)

/-- A filesystem with the 64BIT feature, descriptors of `size` octets and nothing in use; its
table holds zeros but for the octet at `mark`. -/
def packed (size groups mark : Nat) : World where
  bus := ⟨fun _ => ⟨0, true, true, zero⟩, 1, fun _ _ => none, 0⟩
  heap := ⟨fun _ => false, 0⟩
  e4 := { Ext4Fs.zeroed with
    dev := some 0, blockSize := 1024, sectorsPerBlock := 2,
      blocksCount := groups * 8, inodesCount := groups * 8,
    blocksPerGroup := 8, inodesPerGroup := 8, groupCount := groups, inodeSize := 128,
      descSize := size,
    firstIno := 1, has64bit := true, writable := true, gdt := fun i => if i = mark then 1 else 0 }
  scratch1 := zero
  scratch2 := zero
  stackJunk := zero
  jin := zero
  committed := []
  lastCommitSeq := 0

variable {size groups mark : Nat}

theorem packed_transfers (few : groups ≤ 65536) : Transfers (packed size groups mark) 0 := by
  refine ⟨rfl, rfl, rfl, rfl, fun _ _ => rfl, by simp [packed], by simp [packed], Or.inl rfl, ?_⟩
  simp only [packed]
  omega

theorem packed_clear (groups : Nat) (apart : mark < g * size ∨ g * size + 40 ≤ mark) :
    Agree (packed size groups mark).e4.gdt zero (g * size) (g * size + 40) := by
  intro i hlo hhi
  exact if_neg (by omega)

theorem packed_bitmapBlock (groups : Nat) (apart : mark < g * size ∨ g * size + 40 ≤ mark)
    (inodeMap : Bool) :
    (packed size groups mark).e4.bitmapBlock inodeMap g = 0 := by
  have clear := packed_clear groups apart
  have word : ∀ k, k ≤ 36 → get32 (packed size groups mark).e4.gdt (g * size + k) = 0 := by
    intro k hk
    rw [get32_congr (clear.mono (by omega) (by omega))]
    simp [get32, get16, zero]
  have h0 := word 0 (by omega)
  have h4 := word 4 (by omega)
  have h32 := word 32 (by omega)
  have h36 := word 36 (by omega)
  cases inodeMap with
  | false => simpa [Ext4Fs.bitmapBlock, Ext4Fs.gdOff, Gd.blockBitmapLo, Gd.blockBitmapHi,
      packed] using ⟨h0, h32⟩
  | true => simpa [Ext4Fs.bitmapBlock, Ext4Fs.gdOff, Gd.inodeBitmapLo, Gd.inodeBitmapHi,
      packed] using ⟨h4, h36⟩

section
variable (hg : g < groups)
include hg

section
variable (few : groups ≤ 65536)
include few

theorem visit_self : visit g groups 0 = g := by
  rw [visit, Nat.add_zero, u32_of_lt (by omega), Nat.mod_eq_of_lt hg]

theorem packed_loads (apart : mark < g * size ∨ g * size + 40 ≤ mark) (inodeMap : Bool) :
    ∃ w1, loadBitmap inodeMap g (packed size groups mark) = (some 0, w1) ∧
      w1.e4 = (packed size groups mark).e4 ∧ w1.scratch1 = zero := by
  have hblk := packed_bitmapBlock groups apart inodeMap
  have hinside : (packed size groups mark).e4.bitmapBlock inodeMap g <
      (packed size groups mark).e4.blocksCount := by
    rw [hblk]
    show 0 < groups * 8
    omega
  obtain ⟨w1, hload, quiet, hbits⟩ := (packed_transfers few).loadBitmap (hg) hinside
  rw [hblk] at hload
  refine ⟨w1, hload, quiet.e4, ?_⟩
  rw [hbits]
  funext j
  exact ite_self _

theorem packed_lastBits : (packed size groups mark).e4.lastBits g = 8 := by
  have hall : sub64 (groups * 8) 0 = groups * 8 := sub64_of_le (Nat.zero_le _) (by omega)
  show (if g = groups - 1 then u32 (sub64 (sub64 (groups * 8) 0) (g * 8)) else 8) = 8
  split
  · rw [sub64_of_le (by omega) (by omega), u32_of_lt (by omega)]
    omega
  · rfl

/-- The high half of the free-block count is written behind descriptors of 44 octets. -/
theorem allocBlock_outside :
    (allocFrom g 1 0 (packed 44 groups (g * 44 + 44))).2.e4.gdt (g * 44 + 44) = 0 := by
  have hapart : g * 44 + 44 < g * 44 ∨ g * 44 + 40 ≤ g * 44 + 44 := by omega
  obtain ⟨w1, hload, he4, hbits⟩ := packed_loads hg few hapart false
  have hvisit : visit g (packed 44 groups (g * 44 + 44)).e4.groupCount 0 = g := visit_self hg few
  have hscan : findClear w1.scratch1 (w1.e4.lastBits g) = some 0 := by
    rw [hbits, he4, packed_lastBits hg few]
    rfl
  rw [allocFrom_succ, hvisit, hload]
  simp only [hscan]
  show (takeBlock g 0 0 w1).2.e4.gdt _ = 0
  rw [takeBlock_e4 (by rw [he4]; exact hg), he4]
  exact recount_taken_hi ⟨rfl, Nat.le_refl _⟩ _ g

/-- So is the high half of the directory count, behind descriptors of 48 octets. -/
theorem allocInode_outside :
    (allocInodeFrom g 0x4000 1 0 (packed 48 groups (g * 48 + 48))).2.e4.gdt (g * 48 + 48) = 0 := by
  have hapart : g * 48 + 48 < g * 48 ∨ g * 48 + 40 ≤ g * 48 + 48 := by omega
  obtain ⟨w1, hload, he4, hbits⟩ := packed_loads hg few hapart true
  have hvisit : visit g (packed 48 groups (g * 48 + 48)).e4.groupCount 0 = g := visit_self hg few
  have hwritten : w1.materialized g = w1 := by
    have hflags : Gd.flags w1.e4.gdt (w1.e4.gdOff g) = 0 := by
      rw [he4]
      exact get16_congr ((packed_clear groups hapart).mono (Nat.le_add_right _ 18) (by omega))
    rw [World.materialized, hflags]
    rfl
  have hscan : w1.firstFreeInode g = some 0 := by
    have hnumber : u32 (g * 8 + 0 + 1) = g * 8 + 1 := u32_of_lt (by omega)
    have hrange : ¬ (g * 8 + 1 < 1 ∨ groups * 8 < g * 8 + 1) := by omega
    rw [World.firstFreeInode, hbits, he4]
    show (if bitAt zero 0 = true then _
      else if u32 (g * 8 + 0 + 1) < 1 ∨ groups * 8 < u32 (g * 8 + 0 + 1) then _ else some 0) =
        some 0
    rw [if_neg (by decide), hnumber, if_neg hrange]
  rw [allocInodeFrom_succ, hvisit, hload]
  simp only [hwritten, hscan]
  rw [Cmd.bind_some (takeInode_eq _ _ _ _ _)]
  show (settleInode g 0 _ (-1) 0x4000 w1).2.e4.gdt _ = 0
  rw [settleInode_e4 (by rw [he4]; exact hg), he4]
  exact inodeRecount_dirs_hi ⟨rfl, Nat.le_refl _⟩ (by decide) _ g _

end

end

/-- The location of an inode bitmap is read from outside descriptors shorter than 40 octets. -/
theorem located_outside (short : size ≤ 36) (g groups : Nat) :
    ¬ StaysInside (packed size groups (g * size + 40)) g := by
  intro inside
  have hzero : (packed size groups (g * size + 40)).e4.bitmapBlock true g = 0 :=
    packed_bitmapBlock groups (Or.inr (Nat.le_refl _)) true
  have hmoved := inside.located (fun i => if i = g * size + 36 then 1 else 0)
    (by
      intro i _ hhi
      have hi : i < g * size + size := hhi
      show (if i = g * size + 36 then (1 : UInt8) else 0) = if i = g * size + 40 then 1 else 0
      rw [if_neg (by omega), if_neg (by omega)])
    true
  simp [Ext4Fs.bitmapBlock, Ext4Fs.gdOff, packed, Gd.inodeBitmapLo, Gd.inodeBitmapHi, get32, get16,
    Nat.add_assoc] at hmoved

/-- For every accepted size, with or without the 64BIT feature, and every group of every number
of groups: the updates stay inside the descriptor just if the feature is off, or the size is
at least 40 and neither 44 nor 48. -/
theorem descriptor_updates_inside_iff (accepted : DescAccepted size) (wide : Bool) (hg : g < groups)
    (few : groups ≤ 65536) :
    (∀ w : World, w.e4.descSize = size → w.e4.has64bit = wide → w.e4.groupCount = groups →
      StaysInside w g) ↔
      wide = false ∨ (40 ≤ size ∧ size ≠ 44 ∧ size ≠ 48) := by
  constructor
  · intro inside
    cases wide with
    | false => exact Or.inl rfl
    | true =>
      have hfour := accepted.dvd.2
      have hnever : ∀ mark, StaysInside (packed size groups mark) g :=
        fun mark => inside _ rfl rfl rfl
      refine Or.inr ⟨?_, ?_, ?_⟩
      · by_contra short
        exact located_outside (by omega) g groups (hnever _)
      · rintro rfl
        have hkeep := (hnever (g * 44 + 44)).allocBlock g 0 (visit_self hg few) (g * 44 + 44)
          (Or.inr (Nat.le_refl _))
        rw [allocBlock_outside hg few] at hkeep
        simp [packed] at hkeep
      · rintro rfl
        have hkeep := (hnever (g * 48 + 48)).allocInode g 0x4000 0 (visit_self hg few) (g * 48 + 48)
          (Or.inr (Nat.le_refl _))
        rw [allocInode_outside hg few] at hkeep
        simp [packed] at hkeep
  · intro room w hsize hbit _
    apply staysInside
    · rw [hsize]
      exact accepted
    · rw [Ext4Fs.Roomy, hsize, hbit]
      exact room

theorem descriptor_updates_inside_iff_standard :
    DescAccepted 64 ∧
    ∀ w : World, w.e4.descSize = 64 → w.e4.has64bit = true → w.e4.groupCount = 3 →
    StaysInside w 1 :=
  ⟨⟨by decide, by decide, by decide⟩,
    (descriptor_updates_inside_iff ⟨by decide, by decide, by decide⟩ true (by decide)
      (by decide)).mpr (by decide)⟩

/-- Taking a block of group 0 moves the block bitmap of group 1. -/
theorem next_bitmap_moved : DescAccepted 44 ∧ (e4AllocBlockNear 0 (packed 44 2 44)).1 = some 0 ∧
    (packed 44 2 44).e4.bitmapBlock false 1 = 1 ∧
      (e4AllocBlockNear 0 (packed 44 2 44)).2.e4.bitmapBlock false 1 = 0 := by
  refine ⟨⟨by decide, by decide, by decide⟩, ?_⟩
  decide

end Obsidian.Fs
