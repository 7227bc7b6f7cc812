import Obsidian.Fs.Journal

/-!
# Mounting

Source: `ext4_mount` and `ext4_ready` of fs/ext4_mount.c. A zero `blocks_per_group`,
on which the division in the source traps, gives zero groups here, and the mount is
refused for its group count.
-/
namespace Obsidian.Fs
open Lib Lib.Bytes Drivers

def supportedIncompat : Nat :=
  featIncompatFiletype ||| featIncompatRecover ||| featIncompatExtents ||| featIncompat64bit |||
    featIncompatFlexBg ||| featIncompatCsumSeed

def e4InitScratch (blockSize : Nat) : Cmd World Unit := do
  let first ← Cmd.attempt (kmalloc blockSize)
  let second ← Cmd.attempt (kmalloc blockSize)
  if first = none ∨ second = none then Cmd.fail
  else Cmd.modify fun w => { w with
    scratch1 := fill w.scratch1 0 blockSize 0
    scratch2 := fill w.scratch2 0 blockSize 0 }

/-- `blk_read(dev, 2, 2, img)` into the zeroed image buffer. -/
def readImage (dev : Nat) : Cmd World Bytes := fun w =>
  let r := blkRead w.bus (some dev) 2 2 zero
  (if r.1 then some r.2.1 else none, { w with bus := r.2.2 })

/-- `e4.dev = NULL; return false;` -/
def refuse : Cmd World Unit := do
  Cmd.modify fun w => { w with e4 := { w.e4 with dev := none } }
  Cmd.fail

/-- The fields set from the superblock once the feature bits are accepted. -/
def Ext4Fs.configure (e4 : Ext4Fs) : Ext4Fs :=
  let inc := Sb.featureIncompat e4.sb
  let blockSize := 1024 <<< Sb.logBlockSize e4.sb
  let has64bit := inc &&& featIncompat64bit ≠ 0
  { e4 with
    blockSize := blockSize
    sectorsPerBlock := blockSize / 512
    blocksCount :=
      if has64bit then Sb.blocksCountLo e4.sb ||| Sb.blocksCountHi e4.sb <<< 32
      else Sb.blocksCountLo e4.sb
    inodesCount := Sb.inodesCount e4.sb
    blocksPerGroup := Sb.blocksPerGroup e4.sb
    inodesPerGroup := Sb.inodesPerGroup e4.sb
    firstDataBlock := Sb.firstDataBlock e4.sb
    inodeSize := Sb.inodeSize e4.sb
    firstIno := if Sb.firstIno e4.sb ≠ 0 then Sb.firstIno e4.sb else ext4GoodOldFirstIno
    featCompat := Sb.featureCompat e4.sb
    featIncompat := inc
    featRoCompat := Sb.featureRoCompat e4.sb
    hasExtents := inc &&& featIncompatExtents ≠ 0
    has64bit := has64bit
    metaCsum := Sb.featureRoCompat e4.sb &&& featRoMetadataCsum ≠ 0
    gdtCsum := Sb.featureRoCompat e4.sb &&& featRoGdtCsum ≠ 0
    csumSeedFeat := inc &&& featIncompatCsumSeed ≠ 0
    uuid := Sb.uuid e4.sb
    descSize := if has64bit ∧ Sb.descSize e4.sb ≠ 0 then Sb.descSize e4.sb else 32 }

/-- `(u32)((rem + e4.blocks_per_group - 1) / e4.blocks_per_group)` -/
def Ext4Fs.groupsOf (e4 : Ext4Fs) : Nat :=
  u32 (sub64 (u64 (sub64 e4.blocksCount e4.firstDataBlock + e4.blocksPerGroup)) 1 /
    e4.blocksPerGroup)

/-- Run a step of the mount; when it fails, refuse. -/
def orRefuse {α : Type} (c : Cmd World α) : Cmd World α := fun w =>
  match c w with
  | (some a, w') => (some a, w')
  | (none, w') => (none, { w' with e4 := { w'.e4 with dev := none } })

/-- The last part of `ext4_mount`: buffers, descriptors, journal, superblock. -/
def mountLoad (inc : Nat) : Cmd World Unit := do
  let w ← Cmd.get
  orRefuse (e4InitScratch w.e4.blockSize)
  orRefuse (kmalloc (u32 (w.e4.groupCount * w.e4.descSize)))
  setGdt zero
  orRefuse e4LoadGdt
  let w ← Cmd.get
  if inc &&& featIncompatRecover ≠ 0 ∧ e4JournalPending w.e4 then Cmd.ignore e4JournalReplay
  else pure ()
  let w ← Cmd.get
  let sb := Sb.putState w.e4.sb (Sb.state w.e4.sb ||| ext4ValidFs)
  setSb (Sb.putMntCount sb (Sb.mntCount sb + 1))
  e4SbRecomputeChecksum
  orRefuse e4SyncSuperblock

/-- The checks on the superblock, in their order, and what they lead to. -/
def mountSuper : Cmd World Unit := do
  let w ← Cmd.get
  let sb := w.e4.sb
  if Sb.magic sb ≠ ext4Magic then Cmd.fail
  else if 3 < Sb.logBlockSize sb then refuse
  else if Sb.featureIncompat sb &&& (0xFFFFFFFF ^^^ supportedIncompat) ≠ 0 then refuse
  else if Sb.featureRoCompat sb &&& featRoBigalloc ≠ 0 then refuse
  else do
    Cmd.modify fun w => { w with e4 := w.e4.configure }
    let w ← Cmd.get
    if w.e4.descSize < 32 ∨ 128 < w.e4.descSize ∨ w.e4.descSize &&& 3 ≠ 0 then refuse
    else do
      Cmd.modify fun w => { w with e4 := { w.e4 with groupCount := w.e4.groupsOf } }
      let w ← Cmd.get
      if w.e4.groupCount = 0 ∨ 65536 < w.e4.groupCount then refuse
      else mountLoad (Sb.featureIncompat sb)

/-- `ext4_mount`; success is `true`. -/
def ext4Mount : Cmd World Unit := do
  let w ← Cmd.get
  if w.e4.dev ≠ none then pure ()
  else do
    Cmd.modify fun w => { w with e4 := .zeroed }
    match blkFirst w.bus with
    | none => Cmd.fail
    | some dev => do
      kmalloc 1024
      let img ← readImage dev
      setSb (slice img 0 1024)
      mountSuper

def ext4Ready (w : World) : Bool := w.e4.dev ≠ none

/-! ## What a mount comes to

No assignment of the driver makes `e4.dev` point to a device, and the first block
transfer of the mount, reading group descriptors, tests it. -/

/-- The command fails and leaves no device set. -/
def FailsUnset {α : Type} (c : Cmd World α) (w : World) : Prop :=
  (c w).1 = none ∧ (c w).2.e4.dev = none

theorem refuse_fails (w : World) : FailsUnset refuse w := ⟨rfl, rfl⟩

variable {w : World} {α : Type} {c : Cmd World α}

theorem FailsUnset.bind {β : Type} {f : α → Cmd World β} (first : (c w).2.e4.dev = none)
    (rest : ∀ a w', c w = (some a, w') → FailsUnset (f a) w') : FailsUnset (c >>= f) w := by
  cases hc : c w with
  | mk r w' =>
    rw [hc] at first
    cases r with
    | none =>
      rw [FailsUnset, Cmd.bind_none hc]
      exact ⟨rfl, first⟩
    | some a =>
      rw [FailsUnset, Cmd.bind_some hc]
      exact rest a w' hc

theorem orRefuse_fails (fails : FailsUnset c w) : FailsUnset (orRefuse c) w := by
  have hnone := fails.1
  rw [FailsUnset, orRefuse]
  split
  next a w' hc =>
    rw [hc] at hnone
    cases hnone
  · exact ⟨rfl, rfl⟩

theorem orRefuse_unset (keeps : (c w).2.e4 = w.e4) (unset : w.e4.dev = none) :
    (orRefuse c w).2.e4.dev = none := by
  rw [orRefuse]
  split
  next a w' hc =>
    rw [hc] at keeps
    rw [keeps]
    exact unset
  · rfl

theorem orRefuse_some {w w' : World} {a : α} (h : orRefuse c w = (some a, w')) :
    c w = (some a, w') := by
  rw [orRefuse] at h
  split at h
  next hc => rw [hc, h]
  · cases h

theorem kmalloc_e4 (size : Nat) (w : World) : (kmalloc size w).2.e4 = w.e4 := by
  simp only [kmalloc, Cmd.get_bind]
  split
  · rfl
  · rw [Cmd.modify_bind]
    split
    · rfl
    · rfl

theorem e4InitScratch_e4 (blockSize : Nat) (w : World) :
    (e4InitScratch blockSize w).2.e4 = w.e4 := by
  simp only [e4InitScratch, Cmd.attempt_bind]
  split
  · rw [Cmd.fail_apply, kmalloc_e4, kmalloc_e4]
  · rw [Cmd.modify_apply, kmalloc_e4, kmalloc_e4]

theorem loadGdtFrom_fails (unset : w.e4.dev = none) (more g : Nat) :
    FailsUnset (loadGdtFrom (more + 1) g) w := by
  have hread : ∀ block, readScratch1 block w = (none, w) := by
    intro block
    simp [readScratch1, e4ReadBlock, unset]
  have hrun : loadGdtFrom (more + 1) g w = (none, w) := by
    rw [loadGdtFrom, Cmd.get_bind, Cmd.bind_none (hread _)]
  rw [FailsUnset, hrun]
  exact ⟨rfl, unset⟩

theorem e4LoadGdt_fails (unset : w.e4.dev = none) (groups : w.e4.groupCount ≠ 0) :
    FailsUnset e4LoadGdt w := by
  rw [FailsUnset, e4LoadGdt, Cmd.get_bind]
  apply FailsUnset.bind
  · rw [kmalloc_e4]
    exact unset
  · intro _ w' hmem
    have hkeep : w'.e4 = w.e4 := by
      have := kmalloc_e4 (u32 (w.e4.descSize * w.e4.groupCount)) w
      rwa [hmem] at this
    obtain ⟨more, hmore⟩ := Nat.exists_eq_succ_of_ne_zero groups
    rw [FailsUnset, setGdt, hmore]
    exact loadGdtFrom_fails (by simp only [hkeep, unset]) more 0

theorem mountLoad_fails (inc : Nat) (unset : w.e4.dev = none) (groups : w.e4.groupCount ≠ 0) :
    FailsUnset (mountLoad inc) w := by
  rw [FailsUnset, mountLoad, Cmd.get_bind]
  apply FailsUnset.bind
  · exact orRefuse_unset (e4InitScratch_e4 _ _) unset
  intro _ w₁ hscratch
  have h₁ : w₁.e4 = w.e4 := by
    have := e4InitScratch_e4 w.e4.blockSize w
    rwa [orRefuse_some hscratch] at this
  apply FailsUnset.bind
  · exact orRefuse_unset (kmalloc_e4 _ _) (by rw [h₁]; exact unset)
  intro _ w₂ hmem
  have h₂ : w₂.e4 = w.e4 := by
    have := kmalloc_e4 (u32 (w.e4.groupCount * w.e4.descSize)) w₁
    rw [orRefuse_some hmem, h₁] at this
    exact this
  rw [FailsUnset, setGdt, Cmd.modify_bind]
  have hload : FailsUnset (orRefuse e4LoadGdt) { w₂ with e4 := { w₂.e4 with gdt := zero } } :=
    orRefuse_fails (e4LoadGdt_fails (by simp only [h₂, unset]) (by simpa only [h₂] using groups))
  apply FailsUnset.bind
  · exact hload.2
  · intro a w₃ hloaded
    have := hload.1
    rw [hloaded] at this
    cases this

theorem mountSuper_fails (unset : w.e4.dev = none) : FailsUnset mountSuper w := by
  rw [FailsUnset, mountSuper, Cmd.get_bind]
  split
  · exact ⟨rfl, unset⟩
  split
  · exact refuse_fails w
  split
  · exact refuse_fails w
  split
  · exact refuse_fails w
  rw [Cmd.modify_bind, Cmd.get_bind]
  split
  · exact refuse_fails _
  rw [Cmd.modify_bind, Cmd.get_bind]
  split
  · exact refuse_fails _
  next hgroups =>
    rw [not_or] at hgroups
    exact mountLoad_fails _ unset hgroups.1

theorem ext4Mount_fails (unset : w.e4.dev = none) : FailsUnset ext4Mount w := by
  rw [FailsUnset, ext4Mount, Cmd.get_bind, if_neg (by simp [unset]), Cmd.modify_bind]
  cases blkFirst w.bus with
  | none => exact ⟨rfl, rfl⟩
  | some dev =>
    apply FailsUnset.bind
    · rw [kmalloc_e4]
      rfl
    intro _ w₁ hmem
    have h₁ : w₁.e4.dev = none := by
      have := kmalloc_e4 1024 { w with e4 := .zeroed }
      rw [hmem] at this
      rw [this]
      rfl
    apply FailsUnset.bind
    · exact h₁
    intro img w₂ himg
    have h₂ : w₂.e4.dev = none := by
      have : (readImage dev w₁).2.e4 = w₁.e4 := rfl
      rw [himg] at this
      rw [this]
      exact h₁
    rw [FailsUnset, setSb]
    exact mountSuper_fails (by exact h₂)

/-- What a successful mount is to come to: the call returns true, the driver is ready on
the first device, and block writes are enabled when that device can be written. -/
structure MountSucceeds (w : World) : Prop where
  returned : (ext4Mount w).1 = some ()
  ready : ext4Ready (ext4Mount w).2 = true
  first : (ext4Mount w).2.e4.dev = blkFirst w.bus
  writes : ∀ d, blkFirst w.bus = some d → (w.bus.devs d).writable = true →
    (ext4Mount w).2.e4.writable = true

/-- Starting unmounted, no image on no device can be mounted. -/
theorem ext4Mount_never_succeeds (w : World) (unset : w.e4.dev = none) :
    ¬ MountSucceeds w ∧ (ext4Mount w).1 = none ∧ ext4Ready (ext4Mount w).2 = false := by
  obtain ⟨hnone, hdev⟩ := ext4Mount_fails unset
  refine ⟨fun succeeds => ?_, hnone, by simp [ext4Ready, hdev]⟩
  have := succeeds.returned
  rw [hnone] at this
  cases this

/-- The image passes every check of the mount, every transfer succeeds and there is memory. -/
structure Mountable (w : World) : Prop where
  unset : w.e4.dev = none
  device : blkFirst w.bus = some 0
  large : 4 ≤ (w.bus.devs 0).sectors
  transfers : ∀ k lba, w.bus.fault k lba = none
  memory : ∀ k, w.heap.full k = false
  magic : Sb.magic (slice (w.bus.devs 0).data 1024 1024) = ext4Magic
  blockSize : Sb.logBlockSize (slice (w.bus.devs 0).data 1024 1024) ≤ 3
  features : Sb.featureIncompat (slice (w.bus.devs 0).data 1024 1024) &&&
    (0xFFFFFFFF ^^^ supportedIncompat) = 0
  clusters : Sb.featureRoCompat (slice (w.bus.devs 0).data 1024 1024) &&& featRoBigalloc = 0
  groups : ∀ e4,
    e4 = Ext4Fs.configure { Ext4Fs.zeroed with sb := slice (w.bus.devs 0).data 1024 1024 } →
    32 ≤ e4.descSize ∧ e4.descSize ≤ 128 ∧ e4.descSize &&& 3 = 0 ∧ 0 < e4.blocksPerGroup ∧
      0 < e4.groupsOf ∧ e4.groupsOf ≤ 65536

/-- The superblock of a small filesystem: 64 blocks of 1 KiB in one group. -/
def sampleSb : Bytes :=
  let b := put32 zero 0x00 16
  let b := put32 b 0x04 64
  let b := put32 b 0x14 1
  let b := put32 b 0x20 8192
  let b := put32 b 0x28 16
  let b := put16 b 0x38 ext4Magic
  put16 b 0x58 256

/-- A writable 64 KiB device that carries it, before the first mount. -/
def sampleUnmounted : World where
  bus := ⟨fun _ => ⟨128, true, true, copy zero 1024 sampleSb 0 1024⟩, 1, fun _ _ => none, 0⟩
  heap := ⟨fun _ => false, 0⟩
  e4 := .zeroed
  scratch1 := zero
  scratch2 := zero
  stackJunk := zero
  jin := zero
  committed := []
  lastCommitSeq := 0

theorem ext4Mount_never_succeeds_sample :
    ¬ MountSucceeds sampleUnmounted ∧ (ext4Mount sampleUnmounted).1 = none ∧
      ext4Ready (ext4Mount sampleUnmounted).2 = false :=
  ext4Mount_never_succeeds sampleUnmounted rfl

/-- An image that passes every check, on a device without faults, is not mounted. -/
theorem mountable_image_refused : Mountable sampleUnmounted ∧ ¬ MountSucceeds sampleUnmounted := by
  refine ⟨⟨rfl, rfl, by decide, fun _ _ => rfl, fun _ => rfl, by decide, by decide,
    by decide, by decide, ?_⟩, ?_⟩
  · rintro e4 rfl
    decide
  · intro succeeds
    have hfails : (ext4Mount sampleUnmounted).1 = none := (ext4Mount_fails rfl).1
    have hreturned := succeeds.returned
    cases hreturned

end Obsidian.Fs
