import Obsidian.Fs.Mount

/-!
# What the mount checks of a superblock

`ext4_mount` in three parts: reading the superblock, the checks before the group
count is computed, and the group count with its own check. The group count is a
division by `blocks_per_group`, which none of the checks before it looks at; sizes
that the inode and bitmap code relies on are never checked at all.
-/
namespace Obsidian.Fs
open Lib Lib.Bytes Drivers

/-- `sizeof(struct ext4_inode)` -/
def inodeStructSize : Nat := 256

/-- `ext4_mount` up to the copy of the superblock. -/
def mountRead : Cmd World Unit := do
  let w ← Cmd.get
  Cmd.modify fun w => { w with e4 := .zeroed }
  match blkFirst w.bus with
  | none => Cmd.fail
  | some dev => do
    kmalloc 1024
    let img ← readImage dev
    setSb (slice img 0 1024)

/-- The checks before the group count. -/
def mountChecks : Cmd World Unit := do
  let w ← Cmd.get
  let sb := w.e4.sb
  if Sb.magic sb ≠ ext4Magic then Cmd.fail
  else if 3 < Sb.logBlockSize sb then refuse
  else if Sb.featureIncompat sb &&& (0xFFFFFFFF ^^^ supportedIncompat) ≠ 0 then refuse
  else if Sb.featureRoCompat sb &&& featRoBigalloc ≠ 0 then refuse
  else do
    Cmd.modify fun w => { w with e4 := w.e4.configure }
    let w ← Cmd.get
    if w.e4.descSize < 32 ∨ 128 < w.e4.descSize ∨ w.e4.descSize &&& 3 ≠ 0 then refuse else pure ()

/-- The division by `blocks_per_group` and the last check. -/
def mountGroups : Cmd World Unit := do
  Cmd.modify fun w => { w with e4 := { w.e4 with groupCount := w.e4.groupsOf } }
  let w ← Cmd.get
  if w.e4.groupCount = 0 ∨ 65536 < w.e4.groupCount then refuse else pure ()

theorem refuse_then (c : Cmd World Unit) : (refuse >>= fun _ => c) = refuse := rfl

theorem mountGroups_then (c : Cmd World Unit) : (mountGroups >>= fun _ => c) = (do
    Cmd.modify fun w => { w with e4 := { w.e4 with groupCount := w.e4.groupsOf } }
    let w ← Cmd.get
    if w.e4.groupCount = 0 ∨ 65536 < w.e4.groupCount then refuse else c) := by
  rw [mountGroups, bind_assoc]
  congr 1
  funext _
  rw [bind_assoc]
  congr 1
  funext w
  rw [Cmd.ite_bind, refuse_then, pure_bind]

theorem mountSuper_eq (w : World) :
    mountSuper w = (mountChecks >>= fun _ => mountGroups >>= fun _ =>
      mountLoad (Sb.featureIncompat w.e4.sb)) w := by
  rw [mountGroups_then, mountSuper, mountChecks, bind_assoc, Cmd.get_bind, Cmd.get_bind]
  rw [Cmd.ite_bind, Cmd.ite_bind, Cmd.ite_bind, Cmd.ite_bind]
  rw [refuse_then, bind_assoc]
  refine congrFun (f := (_ : Cmd World Unit)) ?_ w
  congr 5
  funext _
  rw [bind_assoc]
  congr 1
  funext v
  rw [Cmd.ite_bind, refuse_then, pure_bind]

variable {u v w : World}

theorem ext4Mount_eq (unset : w.e4.dev = none) :
    ext4Mount w = (mountRead >>= fun _ => mountSuper) w := by
  simp only [ext4Mount, mountRead, bind_assoc, Cmd.get_bind,
    if_neg (by simp [unset] : ¬ w.e4.dev ≠ none),
    Cmd.modify_bind]
  cases blkFirst w.bus with
  | none => rfl
  | some dev => simp only [bind_assoc]

/-! ## What has to hold -/

/-- The sizes that the inode and bitmap code relies on. -/
structure Bounded (e4 : Ext4Fs) : Prop where
  blocksPerGroup : 0 < e4.blocksPerGroup ∧ e4.blocksPerGroup ≤ 8 * e4.blockSize
  inodesPerGroup : 0 < e4.inodesPerGroup ∧ e4.inodesPerGroup ≤ 8 * e4.blockSize
  inodeSize : 128 ≤ e4.inodeSize ∧ e4.inodeSize ≤ inodeStructSize
  firstDataBlock : e4.firstDataBlock < e4.blocksCount

/-- Bitmap octets lie in a block, an inode fits its structure and is copied from inside the
two scratch buffers, and the driver's divisors are positive. -/
structure BuffersSafe (e4 : Ext4Fs) : Prop where
  blockBits : ∀ i, i < e4.blocksPerGroup → i / 8 < e4.blockSize
  inodeBits : ∀ i, i < e4.inodesPerGroup → i / 8 < e4.blockSize
  inodeCopy : e4.inodeSize ≤ inodeStructSize
  secondPart : ∀ off, off < e4.blockSize → e4.blockSize < off + e4.inodeSize →
    e4.inodeSize - (e4.blockSize - off) ≤ e4.blockSize
  divisors : 0 < e4.blocksPerGroup ∧ 0 < e4.inodesPerGroup ∧ 0 < e4.blockSize

theorem Bounded.buffersSafe {e4 : Ext4Fs} (bounded : Bounded e4) (block : 1024 ≤ e4.blockSize) :
    BuffersSafe e4 := by
  obtain ⟨⟨hbpos, hbmax⟩, ⟨hipos, himax⟩, ⟨_, hsize⟩, _⟩ := bounded
  have hstruct : inodeStructSize = 256 := rfl
  refine ⟨fun i
    hi => by omega, fun i hi => by omega, hsize, fun off hoff hspan => by omega, hbpos, hipos, by
    omega⟩

/-- What `ext4_mount` does with the superblock it reads: no division by zero, in the group
count or in the descriptor table behind it, and past the last check the sizes are good. -/
structure MountValidates (w : World) : Prop where
  groupDivisor : ∀ v, (mountRead >>= fun _ => mountChecks) w = (some (), v) →
    v.e4.blocksPerGroup ≠ 0
  tableDivisors : ∀ v, (mountRead >>= fun _ => mountChecks >>= fun _ => mountGroups) w =
    (some (), v) →
    v.e4.descSize ≠ 0 ∧ v.e4.blockSize / v.e4.descSize ≠ 0
  sizes : ∀ v, (mountRead >>= fun _ => mountChecks >>= fun _ => mountGroups) w = (some (), v) →
    Bounded v.e4 ∧ BuffersSafe v.e4

/-! ## Which superblocks get that -/

/-- The fields of `e4` that come from a superblock. -/
def Ext4Fs.ofSb (sb : Bytes) : Ext4Fs := Ext4Fs.configure { Ext4Fs.zeroed with sb := sb }

/-- The superblock passes the checks before the group count. -/
structure SbAccepted (sb : Bytes) : Prop where
  magic : Sb.magic sb = ext4Magic
  blockSize : Sb.logBlockSize sb ≤ 3
  incompat : Sb.featureIncompat sb &&& (0xFFFFFFFF ^^^ supportedIncompat) = 0
  clusters : Sb.featureRoCompat sb &&& featRoBigalloc = 0
  descSize : 32 ≤ (Ext4Fs.ofSb sb).descSize ∧ (Ext4Fs.ofSb sb).descSize ≤ 128 ∧
    (Ext4Fs.ofSb sb).descSize &&& 3 = 0

/-- The group count passes its check. -/
def SbGrouped (sb : Bytes) : Prop :=
  0 < (Ext4Fs.ofSb sb).groupsOf ∧ (Ext4Fs.ofSb sb).groupsOf ≤ 65536

/-- A superblock that passes the first checks has a positive group size, and one that also
passes the last has good sizes. -/
def SbSound (sb : Bytes) : Prop :=
  SbAccepted sb → (Ext4Fs.ofSb sb).blocksPerGroup ≠ 0 ∧ (SbGrouped sb → Bounded (Ext4Fs.ofSb sb))

theorem mountChecks_accepted (accepted : SbAccepted w.e4.sb)
    (start : w.e4 = { Ext4Fs.zeroed with sb := w.e4.sb }) :
    ∃ u, mountChecks w = (some (), u) ∧ u.e4 = Ext4Fs.ofSb w.e4.sb := by
  refine ⟨{ w with e4 := Ext4Fs.ofSb w.e4.sb }, ?_, rfl⟩
  have hconf : w.e4.configure = Ext4Fs.ofSb w.e4.sb := by
    rw [start]
    rfl
  obtain ⟨hmagic, hlog, hinc, hro, hlo, hhi, hmod⟩ := accepted
  rw [mountChecks, Cmd.get_bind]
  rw [if_neg (by simpa using hmagic), if_neg (by omega), if_neg (by simpa using hinc),
    if_neg (by simpa using hro), Cmd.modify_bind, Cmd.get_bind]
  have hdesc : ¬ (w.e4.configure.descSize < 32 ∨ 128 < w.e4.configure.descSize ∨
      w.e4.configure.descSize &&& 3 ≠ 0) := by
    rw [hconf]
    omega
  rw [if_neg hdesc, hconf]
  rfl

theorem mountChecks_refused (refused : ¬ SbAccepted w.e4.sb)
    (start : w.e4 = { Ext4Fs.zeroed with sb := w.e4.sb }) :
    (mountChecks w).1 = none := by
  have hconf : w.e4.configure = Ext4Fs.ofSb w.e4.sb := by
    rw [start]
    rfl
  rw [mountChecks, Cmd.get_bind]
  by_cases magic : Sb.magic w.e4.sb = ext4Magic
  swap
  · rw [if_pos magic]
    rfl
  by_cases block : 3 < Sb.logBlockSize w.e4.sb
  · rw [if_neg (by simpa using magic), if_pos block]
    rfl
  by_cases incompat : Sb.featureIncompat w.e4.sb &&& (0xFFFFFFFF ^^^ supportedIncompat) = 0
  swap
  · rw [if_neg (by simpa using magic), if_neg block, if_pos incompat]
    rfl
  by_cases clusters : Sb.featureRoCompat w.e4.sb &&& featRoBigalloc = 0
  swap
  · rw [if_neg (by simpa using magic), if_neg block, if_neg (by simpa using incompat),
      if_pos clusters]
    rfl
  rw [if_neg (by simpa using magic), if_neg block, if_neg (by simpa using incompat),
    if_neg (by simpa using clusters), Cmd.modify_bind, Cmd.get_bind]
  have hdesc : w.e4.configure.descSize < 32 ∨ 128 < w.e4.configure.descSize ∨
      w.e4.configure.descSize &&& 3 ≠ 0 := by
    by_contra good
    rw [hconf] at good
    exact refused ⟨magic, by omega, incompat, clusters, by omega⟩
  rw [if_pos hdesc]
  rfl

theorem mountGroups_some (done : mountGroups u = (some (), v)) :
    (0 < u.e4.groupsOf ∧ u.e4.groupsOf ≤ 65536) ∧
      ∃ groups, v = { u with e4 := { u.e4 with groupCount := groups } } := by
  rw [mountGroups, Cmd.modify_bind, Cmd.get_bind] at done
  generalize u.e4.groupsOf = groups at done ⊢
  split at done
  · cases done
  next sane =>
    refine ⟨by simpa only [not_or, Nat.not_lt, ← Nat.pos_iff_ne_zero] using sane, groups, ?_⟩
    exact (congrArg Prod.snd done).symm

theorem mountGroups_runs (grouped : 0 < u.e4.groupsOf ∧ u.e4.groupsOf ≤ 65536) :
    ∃ groups, mountGroups u = (some (), { u with e4 := { u.e4 with groupCount := groups } }) := by
  refine ⟨u.e4.groupsOf, ?_⟩
  rw [mountGroups, Cmd.modify_bind, Cmd.get_bind]
  rw [if_neg (by simp only; omega)]
  rfl

theorem bounded_groups (e4 : Ext4Fs) (groups : Nat) :
    Bounded { e4 with groupCount := groups } ↔ Bounded e4 :=
  ⟨fun ⟨hb, hi, hs, hf⟩ => ⟨hb, hi, hs, hf⟩, fun ⟨hb, hi, hs, hf⟩ => ⟨hb, hi, hs, hf⟩⟩

theorem mountRead_start (read : mountRead w = (some (), v)) :
    v.e4 = { Ext4Fs.zeroed with sb := v.e4.sb } := by
  rw [mountRead, Cmd.get_bind, Cmd.modify_bind] at read
  cases hdev : blkFirst w.bus with
  | none =>
    rw [hdev] at read
    cases read
  | some dev =>
    rw [hdev] at read
    obtain ⟨_, w₁, hmem, read⟩ := Cmd.bind_eq_some read
    obtain ⟨img, w₂, himg, read⟩ := Cmd.bind_eq_some read
    have h₁ : w₁.e4 = .zeroed := by
      have := kmalloc_e4 1024 { w with e4 := .zeroed }
      rwa [hmem] at this
    have h₂ : w₂.e4 = w₁.e4 := by
      have : (readImage dev w₁).2.e4 = w₁.e4 := rfl
      rwa [himg] at this
    have hv : v = { w₂ with e4 := { w₂.e4 with sb := slice img 0 1024 } } :=
      (congrArg Prod.snd read).symm
    rw [hv, h₂, h₁]

theorem ofSb_blockSize (sb : Bytes) : 1024 ≤ (Ext4Fs.ofSb sb).blockSize := by
  show 1024 ≤ 1024 <<< Sb.logBlockSize sb
  rw [Nat.shiftLeft_eq]
  exact Nat.le_mul_of_pos_right _ (Nat.two_pow_pos _)

/-- For every superblock that can be read, the mount validates it exactly when it is sound:
the driver has no check of its own for these sizes. -/
theorem mount_validates_iff (w v : World) (read : mountRead w = (some (), v)) :
    MountValidates w ↔ SbSound v.e4.sb := by
  have hstart := mountRead_start read
  have hblock := ofSb_blockSize v.e4.sb
  have hgroup : (mountRead >>= fun _ => mountChecks) w = mountChecks v := Cmd.bind_some read
  have hlast : (mountRead >>= fun _ => mountChecks >>= fun _ => mountGroups) w =
      (mountChecks >>= fun _ => mountGroups) v := Cmd.bind_some read
  by_cases accepted : SbAccepted v.e4.sb
  · obtain ⟨u, hchecks, hu⟩ := mountChecks_accepted accepted hstart
    rw [hchecks] at hgroup
    rw [Cmd.bind_some hchecks] at hlast
    have hgrouped : SbGrouped v.e4.sb ↔ 0 < u.e4.groupsOf ∧ u.e4.groupsOf ≤ 65536 := by
      rw [hu]
      exact Iff.rfl
    constructor
    · intro validates _
      refine ⟨?_, fun grouped => ?_⟩
      · rw [← hu]
        exact validates.groupDivisor u hgroup
      · obtain ⟨groups, hgo⟩ := mountGroups_runs (hgrouped.mp grouped)
        rw [← hlast] at hgo
        rw [← hu]
        exact (bounded_groups u.e4 groups).mp (validates.sizes _ hgo).1
    · intro sound
      obtain ⟨hdivisor, hsizes⟩ := sound accepted
      rw [← hu] at hdivisor hsizes hblock
      refine ⟨?_, ?_, ?_⟩
      · rw [hgroup]
        intro u' hu'
        cases hu'
        exact hdivisor
      · rw [hlast]
        intro u' hu'
        obtain ⟨_, groups, rfl⟩ := mountGroups_some hu'
        obtain ⟨hlo, hhi, _⟩ := accepted.descSize
        rw [← hu] at hlo hhi
        show u.e4.descSize ≠ 0 ∧ u.e4.blockSize / u.e4.descSize ≠ 0
        exact ⟨by omega, Nat.ne_of_gt (Nat.div_pos (by omega) (by omega))⟩
      · rw [hlast]
        intro u' hu'
        obtain ⟨grouped, groups, rfl⟩ := mountGroups_some hu'
        have bounded := (bounded_groups u.e4 groups).mpr (hsizes (hgrouped.mpr grouped))
        exact ⟨bounded, bounded.buffersSafe hblock⟩
  · -- A superblock turned down by the first checks reaches no division and no last check.
    have hnone := mountChecks_refused accepted hstart
    refine iff_of_true ⟨?_, ?_, ?_⟩ (fun h => absurd h accepted)
    · rw [hgroup]
      intro u hu
      rw [hu] at hnone
      cases hnone
    all_goals
      rw [hlast]
      intro u hu
      obtain ⟨_, _, hchecks, _⟩ := Cmd.bind_eq_some hu
      rw [hchecks] at hnone
      cases hnone

/-- A superblock in the place of the mounted device's. -/
def unmountedWith (sb : Bytes) : World :=
  { sampleUnmounted with
    bus := ⟨fun _ => ⟨128, true, true, copy zero 1024 sb 0 1024⟩, 1, fun _ _ => none, 0⟩ }

theorem mount_validates_sample : MountValidates (unmountedWith sampleSb) := by
  have hread : mountRead (unmountedWith sampleSb) =
    (some (), (mountRead (unmountedWith sampleSb)).2) := rfl
  refine (mount_validates_iff _ _ hread).mpr fun _ => ⟨by decide, fun _ => ⟨?_, ?_, ?_, ?_⟩⟩
  · decide
  · decide
  · decide
  · decide

/-- With `blocks_per_group` zero every check before the division passes, and the division is
by zero. -/
theorem mount_divides_by_zero : ¬ MountValidates (unmountedWith (put32 sampleSb 0x20 0)) := by
  intro validates
  have hread : mountRead (unmountedWith (put32 sampleSb 0x20 0)) =
      (some (), (mountRead (unmountedWith (put32 sampleSb 0x20 0))).2) := rfl
  have accepted : SbAccepted (mountRead (unmountedWith (put32 sampleSb 0x20 0))).2.e4.sb := by
    refine ⟨?_, ?_, ?_, ?_, ?_⟩
    · decide
    · decide
    · decide
    · decide
    · decide
  obtain ⟨u, hchecks, hu⟩ := mountChecks_accepted accepted (mountRead_start hread)
  have hdivisor := validates.groupDivisor u (by rw [Cmd.bind_some hread, hchecks])
  rw [hu] at hdivisor
  exact hdivisor (by decide)

end Obsidian.Fs
