import Mathlib.Data.List.Nodup
import Obsidian.Fs.Recovery
import Obsidian.Fs.Superblock

/-!
# Replays that are cut off

A replay that loses its device leaves the first few of its writes on the disk. A second
replay, from the state loaded from that disk, finds the same log and does the same
writes over again; once the superblock is written there is nothing left to do.
-/
namespace Obsidian.Fs
open Lib Lib.Bytes Lib.Redo Drivers

variable {w v : World} {d : Nat} {data : Bytes}

/-! ## What a replay starts from -/

/-- The same variables of the driver at the start of a replay. -/
structure SameStart (w v : World) : Prop extends Static w v where
  jin : v.jin = w.jin
  heap : v.heap = w.heap

section
variable (same : SameStart w v)
include same

theorem SameStart.ready_iff (jin : Bytes) : v.ready jin ↔ w.ready jin := by
  unfold World.ready
  rw [same.heap]

theorem SameStart.runsPasses_iff (n : Nat) (jsb : Bytes) (jblocks : Nat) :
    (v.allocated n).runsPasses jsb jblocks ↔ (w.allocated n).runsPasses jsb jblocks := by
  have he4 : (v.allocated n).e4 = (w.allocated n).e4 := same.e4
  have hheap : (v.allocated n).heap = (w.allocated n).heap := by
    unfold World.allocated
    rw [same.heap]
  unfold World.runsPasses
  rw [he4, hheap]

theorem SameStart.journalOf (d : Nat) (data jin : Bytes) :
    v.journalOf d data jin = w.journalOf d data jin := by
  unfold World.journalOf
  rw [same.log, same.e4]
  cases w.log d data jin 0 with
  | none => rfl
  | some jsb => exact if_congr (same.runsPasses_iff 2 jsb _) rfl rfl

theorem SameStart.resets : v.resets = w.resets := by
  rw [World.resets, same.heap, World.resets]

end

section start

variable (same : SameStart w v) (d data)
include same

theorem SameStart.journal : v.journal d data = w.journal d data := by
  unfold World.journal
  rw [same.inodeOn, same.e4, same.jin]
  cases w.inodeOn d data (Sb.journalInum w.e4.sb) w.jin with
  | none => rfl
  | some jin => exact if_congr (same.ready_iff jin) (same.journalOf d data jin) rfl

theorem SameStart.tagged : v.tagged d data = w.tagged d data := by
  rw [World.tagged, World.tagged, same.journal]
  cases w.journal d data with
  | none => rfl
  | some j => exact same.writesOf d data j.jin j.jsb j.jblocks

theorem SameStart.redone : v.redone d data = w.redone d data := by
  rw [World.redone, same.tagged, same.e4, World.redone]

theorem SameStart.jsbWrite : v.jsbWrite d data = w.jsbWrite d data := by
  rw [World.jsbWrite, World.jsbWrite, same.journal, same.resets, same.redone]
  cases w.journal d data with
  | none => rfl
  | some j =>
    have static : Static (w.opened d data j) (v.opened d data j) :=
      ⟨same.e4, same.devs, same.first, same.second, same.junk⟩
    have hlast : (v.opened d data j).lastCommitSeq = (w.opened d data j).lastCommitSeq := by
      rw [opened_lastCommitSeq, opened_lastCommitSeq, same.scanOf]
    have hjin : (v.opened d data j).jin = (w.opened d data j).jin := by rw [opened_jin, opened_jin]
    have hemptied := static.emptied hjin hlast d (w.redone d data)
    dsimp only
    rw [hemptied]

theorem SameStart.recoveredDisk : v.recoveredDisk d data = w.recoveredDisk d data := by
  rw [World.recoveredDisk, World.recoveredDisk, same.tagged, same.jsbWrite, same.resets,
    same.syncs, same.e4]

end start

/-- All the writes of a replay but the last, of the superblock. -/
def World.rewrites (w : World) (d : Nat) (data : Bytes) : List Write :=
  w.tagged d data ++ w.jsbWrite d data

theorem recoveredDisk_rewrites (w : World) (d : Nat) (data : Bytes) :
    w.recoveredDisk d data =
    if w.resets && w.syncs d then putSuper (writeAll w.e4.blockSize (w.rewrites d data) data)
    (recoveredSb w.e4.sb) else writeAll w.e4.blockSize (w.rewrites d data) data := rfl

/-- The disk after a replay. -/
def World.afterReplay (w : World) (d : Nat) (data : Bytes) : Bytes :=
  if w.e4.recovers ∧ (w.journal d data).isSome then w.recoveredDisk d data else data

theorem SameStart.afterReplay (same : SameStart w v) (d : Nat) (data : Bytes) :
    v.afterReplay d data = w.afterReplay d data := by
  simp only [World.afterReplay, same.e4, same.journal, same.recoveredDisk]

/-- A replay ends with that disk, or is cut off with a part of its writes done. -/
theorem Sound.replay_disk (sound : Sound w d) :
    Cmd.Ends (device d) (Partly w.e4.blockSize (w.rewrites d (w.disk d)) (w.disk d))
      (fun _ v => v.disk d = w.afterReplay d (w.disk d)) (e4JournalReplay w) := by
  by_cases due : w.e4.recovers
  · refine (sound.replay due).mono ?_ fun m hm => hm
    rintro r v ⟨hnone, hsome⟩
    cases hfound : w.journal d (w.disk d) with
    | none =>
      rw [World.afterReplay, hfound, if_neg (by simp)]
      exact (hnone hfound).2.2
    | some j =>
      rw [World.afterReplay, hfound, if_pos ⟨due, rfl⟩]
      exact (hsome j hfound).2.2
  · left
    rw [e4JournalReplay_eq, Cmd.bind_some (replayLog_idle due), World.afterReplay,
      if_neg (fun h => due h.1)]
    rfl

theorem Sound.replay_healthy (sound : Sound w d) (healthy : w.Healthy) :
    (e4JournalReplay w).2.disk d = w.afterReplay d (w.disk d) :=
  sound.replay_disk.done (healthy.alive e4JournalReplay_inert)

/-! ## The state loaded from a disk -/

/-- The descriptors of a disk, one after the other. -/
def Ext4Fs.gdtOn (e4 : Ext4Fs) (data : Bytes) : Bytes := fun j =>
  if j < e4.groupCount * e4.descSize then data (e4.descByte (j / e4.descSize) + j % e4.descSize)
    else 0

/-- The mount of a disk on device `d`, before its descriptors are loaded. -/
def geometryOn (d : Nat) (data : Bytes) : Ext4Fs :=
  let e4 := Ext4Fs.ofSb (slice data ext4SuperOff 1024)
  { e4 with dev := some d, writable := true, groupCount := e4.groupsOf }

/-- The mount of a disk on device `d`, with its descriptors. -/
def mountOn (d : Nat) (data : Bytes) : Ext4Fs :=
  { geometryOn d data with gdt := (geometryOn d data).gdtOn data }

/-- Superblock and descriptors loaded from the disk, ready for the replay. -/
def World.loaded (w : World) (d : Nat) (data : Bytes) : World :=
  { w.onDisk d data with e4 := mountOn d data }

theorem loaded_e4 (w : World) (d : Nat) (data : Bytes) : (w.loaded d data).e4 = mountOn d data :=
  rfl

theorem loaded_disk (w : World) (d : Nat) (data : Bytes) : (w.loaded d data).disk d = data :=
    onDisk_disk w d data

/-- A device that is lost with the transfer of that number. -/
def World.cutAt (w : World) (n : Nat) : World :=
  { w with bus := { w.bus with fault := fun k _ => if n ≤ k then some 0 else none } }

variable {data inode : Bytes} {b i : Nat} {j : Journal}

theorem loaded_sound (w : World) (d : Nat) (healthy : w.Healthy)
    (blockSize : Sb.logBlockSize (slice data ext4SuperOff 1024) ≤ 3) :
    Sound (w.loaded d data) d := by
  have hsize : (w.loaded d data).e4.blockSize =
    1024 <<< Sb.logBlockSize (slice data ext4SuperOff 1024) := rfl
  have hsectors : (w.loaded d data).e4.sectorsPerBlock =
      1024 <<< Sb.logBlockSize (slice data ext4SuperOff 1024) / 512 := rfl
  generalize Sb.logBlockSize (slice data ext4SuperOff 1024) = log at blockSize hsize hsectors
  have hcases : log = 0 ∨ log = 1 ∨ log = 2 ∨ log = 3 := by omega
  refine ⟨rfl, fun _ => Or.inl (healthy _), ?_, ?_, ?_⟩
  · rw [hsectors]
    rcases hcases with rfl | rfl | rfl | rfl
    · decide
    · decide
    · decide
    · decide
  · rw [hsectors]
    rcases hcases with rfl | rfl | rfl | rfl
    · decide
    · decide
    · decide
    · decide
  · rw [hsize, hsectors]
    rcases hcases with rfl | rfl | rfl | rfl
    · decide
    · decide
    · decide
    · decide

/-! ## What the writes leave alone -/

/-- A block that holds no part of the superblock, of a group descriptor or of the journal
inode. -/
structure World.Spares (w : World) (b : Nat) : Prop extends w.SparesCaches b where
  inode : w.SparesInode b

section spared

variable {ws : List Write}

theorem slice_congr {a b : Bytes} {start n : Nat} (same : Agree a b start (start + n)) :
    slice a start n = slice b start n := by
  funext j
  unfold slice copy
  split
  · exact same _ (by omega) (by omega)
  · rfl

theorem gdtOn_congr {e4 : Ext4Fs} {data data' : Bytes}
    (same : ∀ g, g < e4.groupCount →
      Agree data data' (e4.descByte g) (e4.descByte g + e4.descSize)) :
    e4.gdtOn data = e4.gdtOn data' := by
  funext j
  unfold Ext4Fs.gdtOn
  split
  next hj =>
    have hpos : 0 < e4.descSize := by
      by_contra hzero
      have : e4.descSize = 0 := by omega
      rw [this, Nat.mul_zero] at hj
      exact absurd hj (Nat.not_lt_zero _)
    have hgroup : j / e4.descSize < e4.groupCount := (Nat.div_lt_iff_lt_mul hpos).mpr hj
    exact same _ hgroup _ (Nat.le_add_right _ _) (Nat.add_lt_add_left (Nat.mod_lt _ hpos) _)
  · rfl

theorem loaded_spared (w : World) (d : Nat) (data : Bytes)
    (pos : 0 < (w.loaded d data).e4.blockSize)
    (spared : ∀ write ∈ ws, (w.loaded d data).Spares write.1) :
    w.loaded d (writeAll (w.loaded d data).e4.blockSize ws data) =
      (w.loaded d data).onDisk d (writeAll (w.loaded d data).e4.blockSize ws data) := by
  generalize hm : writeAll (w.loaded d data).e4.blockSize ws data = m
  have hsuper : slice m ext4SuperOff 1024 = slice data ext4SuperOff 1024 := by
    rw [← hm]
    exact slice_congr (agree_of_clear pos (fun write hmem => (spared write hmem).super) data)
  have hgeometry : geometryOn d m = geometryOn d data := by rw [geometryOn, hsuper, geometryOn]
  have hdesc : ∀ g, g < (w.loaded d data).e4.groupCount →
    Agree m data ((w.loaded d data).e4.descByte g)
      ((w.loaded d data).e4.descByte g + (w.loaded d data).e4.descSize) := by
    intro g hg
    rw [← hm]
    exact agree_of_clear pos (fun write hmem => (spared write hmem).desc g hg) data
  rw [loaded_e4, mountOn] at hdesc
  rw [World.loaded, World.loaded, mountOn, mountOn, hgeometry]
  generalize geometryOn d data = e4 at hdesc ⊢
  -- the descriptors do not move with the cache that is filled from them
  have hplace : ∀ gdt g, ({ e4 with gdt := gdt } : Ext4Fs).descByte g = e4.descByte g :=
    fun _ _ => rfl
  simp only [hplace] at hdesc
  have hgdt : e4.gdtOn m = e4.gdtOn data := gdtOn_congr hdesc
  rw [hgdt]
  exact congrArg (fun u : World => { u with e4 := { e4 with gdt := e4.gdtOn data } })
    (onDisk_onDisk w d data m).symm

end spared

/-! ## The log of a disk that was partly written -/

/-- Two journal superblocks that the passes treat alike. -/
structure JsbAlike (jsb jsb' : Bytes) : Prop where
  size : get32 jsb' jsbOffBlocksize = get32 jsb jsbOffBlocksize
  first : Jsb.first jsb' = Jsb.first jsb
  cap : ∀ jblocks, Jsb.cap jsb' jblocks = Jsb.cap jsb jblocks
  tagsz : Jsb.tagsz jsb' = Jsb.tagsz jsb
  start : get32 jsb' jsbOffStart ≤ get32 jsb jsbOffStart

theorem JsbAlike.refl (jsb : Bytes) : JsbAlike jsb jsb :=
  ⟨rfl, rfl, fun _ => rfl, rfl, Nat.le_refl _⟩

/-- The journal superblock as the reset writes it. -/
def emptiedJsb (seq : Nat) (jsb : Bytes) : Bytes :=
  put32 (put32 jsb jsbOffStart 0) jsbOffSequence seq

theorem emptiedJsb_get (seq : Nat) (jsb : Bytes) (apart : i + 4 ≤ 24 ∨ 32 ≤ i) :
    get32 (emptiedJsb seq jsb) i = get32 jsb i := by
  unfold emptiedJsb jsbOffStart jsbOffSequence
  rw [get32_put32_ne _ _ _ _ (by omega), get32_put32_ne _ _ _ _ (by omega)]

theorem emptiedJsb_alike (seq : Nat) (jsb : Bytes) : JsbAlike jsb (emptiedJsb seq jsb) := by
  constructor
  · exact emptiedJsb_get seq jsb (by decide)
  · exact emptiedJsb_get seq jsb (by decide)
  · intro jblocks
    unfold Jsb.cap
    rw [emptiedJsb_get seq jsb (by decide)]
  · unfold Jsb.tagsz
    rw [emptiedJsb_get seq jsb (by decide)]
  · unfold emptiedJsb
    rw [get32_put32_ne _ _ _ _ (by decide), get32_put32]
    exact Nat.zero_le _

theorem emptiedJsb_emptiedJsb (seq : Nat) (jsb : Bytes) :
    emptiedJsb seq (emptiedJsb seq jsb) = emptiedJsb seq jsb := by
  unfold emptiedJsb jsbOffStart jsbOffSequence
  apply put32_congr
  intro j outside
  by_cases inside : 24 ≤ j ∧ j < 28
  · obtain ⟨k, rfl⟩ := Nat.exists_eq_add_of_le inside.1
    rw [put32_at _ 24 0 (by omega), put32_at _ 24 0 (by omega)]
  · rw [put32_outside _ 0 (by omega), put32_outside _ seq (by omega)]

section passes

variable {jin jsb jsb' m : Bytes} {jblocks : Nat}

theorem scanOf_congr (alike : JsbAlike jsb jsb')
    (same : ∀ i, Jsb.first jsb ≤ i → i < Jsb.cap jsb jblocks →
      w.log d m jin i = w.log d data jin i) :
    w.scanOf d m jin jsb' jblocks = w.scanOf d data jin jsb jblocks := by
  unfold World.scanOf
  rw [alike.cap, alike.first]
  apply scanLog_congr
  intro i hlo hhi
  exact same i hlo (by omega)

theorem writesOf_congr (sound : Sound w d) (extents : Ino.flags jin &&& inoFlagExtents ≠ 0)
    (depth : Eh.depth jin Ino.root = 0) (alike : JsbAlike jsb jsb')
    (same : ∀ i, Jsb.first jsb ≤ i → i < Jsb.cap jsb jblocks → w.log d m jin i = w.log d data jin i)
    (apart : ∀ write ∈ w.writesOf d data jin jsb jblocks, ∀ i, Jsb.first jsb ≤ i →
      i < Jsb.cap jsb jblocks →
      write.1 ≠ flatBlock jin i) :
    w.writesOf d m jin jsb' jblocks = w.writesOf d data jin jsb jblocks := by
  have hscan := scanOf_congr alike same
  have hpass : w.passOf d m jin jsb' jblocks = w.passOf d data jin jsb jblocks := by
    unfold World.passOf
    rw [hscan, alike.cap, alike.tagsz]
  unfold World.writesOf at apart ⊢
  rw [hscan, hpass, alike.cap, alike.first]
  split
  · rfl
  next some =>
    rw [if_neg some] at apart
    have stable := passOf_stable sound extents depth data jsb jblocks
    exact Pass.blocks_congr stable stable _ (Nat.le_refl _) (fun i hlo hhi =>
      (same i hlo hhi).symm) apart

end passes

/-! ## The journal that is found again -/

/-- What the two runs of a replay need: the extents of the journal are in its inode, the tagged
blocks hold nothing that the replay goes by, and the journal superblock has a block of its
own. -/
structure Repeatable (w : World) (d : Nat) (data : Bytes) (j : Journal) : Prop where
  depth : Eh.depth j.jin Ino.root = 0
  targets : ∀ write ∈ w.tagged d data, w.Spares write.1
  outside : ∀ write ∈ w.tagged d data, ∀ i, i < j.jblocks → write.1 ≠ flatBlock j.jin i
  super : w.Spares (flatBlock j.jin 0)
  own : ∀ i, Jsb.first j.jsb ≤ i → i < Jsb.cap j.jsb j.jblocks → flatBlock j.jin 0 ≠
    flatBlock j.jin i

/-- And the targets are blocks of the filesystem, so that `revbits` has a bit for each. What
lies behind `revbits` need not be the same when the replay is run again. -/
structure CrashSafe (w : World) (d : Nat) (data : Bytes) (j : Journal) : Prop
    extends Repeatable w d data j where
  below : ∀ b ∈ w.lookedOf d data j.jin j.jsb j.jblocks, b < w.e4.blocksCount

section crash

variable {j : Journal}

theorem Found.tagged (found : Found w d data j) :
    w.tagged d data = w.writesOf d data j.jin j.jsb j.jblocks := by
  rw [World.tagged, found_iff.mpr found, World.redoOf]

theorem Found.super (found : Found w d data j) (depth : Eh.depth j.jin Ino.root = 0) (any : Bytes) :
    w.mapsTo d any j.jin 0 = some (flatBlock j.jin 0) ∧ flatBlock j.jin 0 ≠ 0 ∧
      w.reaches d (flatBlock j.jin 0) = true ∧ j.jsb = w.fetch data zero (flatBlock j.jin 0) := by
  have hjsb := found.jsb
  unfold World.log at hjsb
  split at hjsb
  · cases hjsb
  next phys mapped =>
    have hphys := mapsTo_extents found.ready.1 mapped
    split at hjsb
    next near =>
      rw [mapsTo_flat depth any data, mapped, ← hphys]
      exact ⟨rfl, near.1, near.2, (Option.some.inj hjsb).symm⟩
    · cases hjsb

theorem fetch_writeBlock (sound : Sound w d) {b : Nat} (small : b < 562949953421312)
    (before buf : Bytes) (short : ∀ i, w.e4.blockSize ≤ i → buf i = 0) :
    w.fetch (writeBlock w.e4.blockSize before (b, buf)) zero b = buf := by
  funext i
  unfold World.fetch
  rw [sound.lba_eq small]
  unfold copy
  split
  next inside =>
    have hi : i < w.e4.blockSize := by omega
    have hat := copy_inside before (b * w.e4.blockSize) buf 0 w.e4.blockSize i hi
    rw [Nat.zero_add] at hat
    rw [Nat.sub_zero]
    exact hat
  next outside => exact (short i (by omega)).symm

variable (found : Found w d data j) (sound : Sound w d) (safe : Repeatable w d data j)
include found sound safe

theorem Found.jsbWrite :
    w.jsbWrite d data =
      if w.resets = true ∧ w.lands d (flatBlock j.jin 0) = true then
        [(flatBlock j.jin 0,
          emptiedJsb (u32 ((w.scanOf d data j.jin j.jsb j.jblocks).lastCommitSeq + 1)) j.jsb)]
      else [] := by
  obtain ⟨mapped, hole, _, hjsb⟩ := found.super safe.depth (w.redone d data)
  have hview := opened_view w d data j
  have hinode : w.inodeOn d (w.redone d data) (Sb.journalInum w.e4.sb) j.jin = some j.jin := by
    rw [World.redone, inodeOn_spared sound fun write member => (safe.targets write member).inode]
    exact inodeOn_again found.inode
  have hfetch : w.fetch (w.redone d data) zero (flatBlock j.jin 0) = j.jsb := by
    rw [hjsb]
    apply fetch_congr
    apply writeAll_sameAt sound (flatBlock_small _ _)
    intro write hmem
    exact safe.outside write hmem 0 (by have := found.positive; omega)
  rw [World.jsbWrite, found_iff.mpr found]
  dsimp only
  by_cases resets : w.resets = true
  · rw [if_pos resets, World.emptied, hview.inodeOn, hview.e4, opened_jin, hinode]
    dsimp only
    rw [hview.mapsTo, mapped]
    dsimp only
    rw [hview.lands, hview.fetch, hfetch, opened_lastCommitSeq]
    by_cases lands : w.lands d (flatBlock j.jin 0) = true
    · rw [if_pos ⟨hole, lands⟩, if_pos ⟨resets, lands⟩]
      rfl
    · rw [if_neg (fun h => lands h.2), if_neg (fun h => lands h.2)]
  · rw [if_neg resets, if_neg (fun h => resets h.1)]

/-- The sequence number that the reset leaves. -/
def World.nextSeq (w : World) (d : Nat) (data : Bytes) (j : Journal) : Nat :=
  u32 ((w.scanOf d data j.jin j.jsb j.jblocks).lastCommitSeq + 1)

variable {write : Write}

section
variable (member : write ∈ w.rewrites d data)
include member

/-- The writes of a replay go to the tagged blocks and to the journal superblock. -/
theorem Found.rewrites_mem :
    write ∈ w.tagged d data ∨
    write = (flatBlock j.jin 0, emptiedJsb (w.nextSeq d data j) j.jsb) := by
  rcases List.mem_append.mp member with tagged | jsb
  · exact Or.inl tagged
  · rw [found.jsbWrite sound safe] at jsb
    split at jsb
    · exact Or.inr (List.mem_singleton.mp jsb)
    · exact absurd jsb List.not_mem_nil

theorem Found.rewrites_spare : w.Spares write.1 := by
  rcases found.rewrites_mem sound safe member with tagged | rfl
  · exact safe.targets write tagged
  · exact safe.super

theorem Found.rewrites_apart {i : Nat} (hlo : Jsb.first j.jsb ≤ i)
    (hhi : i < Jsb.cap j.jsb j.jblocks) :
    write.1 ≠ flatBlock j.jin i := by
  rcases found.rewrites_mem sound safe member with tagged | rfl
  · exact safe.outside write tagged i (Nat.lt_of_lt_of_le hhi (cap_le _ _))
  · exact safe.own i hlo hhi

end

theorem Found.take_tagged {k : Nat}
    (part : (w.rewrites d data).take k ≠
      w.tagged d data ++ [(flatBlock j.jin 0, emptiedJsb (w.nextSeq d data j) j.jsb)])
    (member : write ∈ (w.rewrites d data).take k) :
    write ∈ w.tagged d data := by
  unfold World.rewrites at part member
  rw [found.jsbWrite sound safe] at part member
  split at part
  next resets =>
    rw [if_pos resets] at member
    by_cases early : k ≤ (w.tagged d data).length
    · rw [List.take_append_of_le_length early] at member
      exact List.mem_of_mem_take member
    · refine absurd (List.take_of_length_le ?_) part
      rw [List.length_append, List.length_singleton]
      omega
  next keeps =>
    rw [if_neg keeps, List.append_nil] at member
    exact List.mem_of_mem_take member

section
variable (block : 1024 ≤ w.e4.blockSize)
include block

/-- On a disk with a part of the writes done the journal superblock is as before, or emptied. -/
theorem Found.jsb_again (k : Nat) :
    ∃ jsb', w.log d (writeAll w.e4.blockSize ((w.rewrites d data).take k) data) j.jin 0 =
    some jsb' ∧
      (jsb' = j.jsb ∨ jsb' = emptiedJsb (w.nextSeq d data j) j.jsb) := by
  obtain ⟨mapped, hole, near, hjsb⟩ :=
    found.super safe.depth (writeAll w.e4.blockSize ((w.rewrites d data).take k) data)
  refine ⟨w.fetch (writeAll w.e4.blockSize ((w.rewrites d data).take k) data) zero
    (flatBlock j.jin 0), ?_, ?_⟩
  · unfold World.log
    rw [mapped]
    exact if_pos ⟨hole, near⟩
  by_cases all : (w.rewrites d data).take k = w.tagged d data ++
      [(flatBlock j.jin 0, emptiedJsb (w.nextSeq d data j) j.jsb)]
  · right
    rw [all, writeAll_append]
    apply fetch_writeBlock sound (flatBlock_small _ _)
    intro i hi
    unfold emptiedJsb jsbOffStart jsbOffSequence
    rw [put32_outside _ _ (by omega), put32_outside _ _ (by omega), hjsb]
    exact if_neg (by omega)
  · left
    rw [hjsb]
    apply fetch_congr
    apply writeAll_sameAt sound (flatBlock_small _ _)
    intro write member
    have tagged := found.take_tagged sound safe all member
    exact safe.outside write tagged 0 (by have := found.positive; omega)

/-- A replay that starts over finds its journal again and does the same writes. -/
theorem Found.again (k : Nat) :
    (∃ j', Found w d (writeAll w.e4.blockSize ((w.rewrites d data).take k) data) j') ∧
      w.rewrites d (writeAll w.e4.blockSize ((w.rewrites d data).take k) data) =
      w.rewrites d data := by
  obtain ⟨jsb', hjsb, cases⟩ := found.jsb_again sound safe block k
  have part : ∀ write ∈ (w.rewrites d data).take k, write ∈ w.rewrites d data :=
    fun _ => List.mem_of_mem_take
  generalize hws : (w.rewrites d data).take k = ws at hjsb part ⊢
  generalize hm : writeAll w.e4.blockSize ws data = m at hjsb ⊢
  have alike : JsbAlike j.jsb jsb' := by
    rcases cases with rfl | rfl
    · exact JsbAlike.refl _
    · exact emptiedJsb_alike _ _
  have hinode : w.inodeOn d m (Sb.journalInum w.e4.sb) w.jin = some j.jin := by
    rw [← hm, inodeOn_spared sound fun write member =>
      (found.rewrites_spare sound safe (part write member)).inode]
    exact found.inode
  have same : ∀ i, Jsb.first j.jsb ≤ i → i < Jsb.cap j.jsb j.jblocks → w.log d m j.jin i =
      w.log d data j.jin i := by
    intro i hlo hhi
    rw [← hm]
    exact log_apart sound found.ready.1 safe.depth
      (fun write member => found.rewrites_apart sound safe (part write member) hlo hhi) data
  have runs : (w.allocated 2).runsPasses jsb' j.jblocks := by
    obtain ⟨accepted, memory⟩ := found.runs
    refine ⟨fun bogus => accepted ?_, memory⟩
    unfold Jsb.bogus at bogus ⊢
    rw [alike.size, alike.first] at bogus
    have hstart := alike.start
    exact bogus.imp_right (Or.imp_right (Or.imp_right fun h => Nat.le_trans h hstart))
  have found' : Found w d m ⟨j.jin, jsb', j.jblocks⟩ :=
    ⟨hinode, found.ready, hjsb, found.jblocks, runs⟩
  have htagged : w.tagged d m = w.tagged d data := by
    rw [found'.tagged, found.tagged]
    apply writesOf_congr sound found.ready.1 safe.depth alike same
    rw [← found.tagged]
    intro write member i hlo hhi
    exact safe.outside write member i (Nat.lt_of_lt_of_le hhi (cap_le _ _))
  have safe' : Repeatable w d m ⟨j.jin, jsb', j.jblocks⟩ := by
    constructor
    · exact safe.depth
    · rw [htagged]
      exact safe.targets
    · rw [htagged]
      exact safe.outside
    · exact safe.super
    · rw [alike.first, alike.cap]
      exact safe.own
  refine ⟨⟨_, found'⟩, ?_⟩
  have hnext : w.scanOf d m j.jin jsb' j.jblocks = w.scanOf d data j.jin j.jsb j.jblocks :=
    scanOf_congr alike same
  have hemptied : emptiedJsb (w.nextSeq d data j) jsb' = emptiedJsb (w.nextSeq d data j) j.jsb := by
    rcases cases with rfl | rfl
    · rfl
    · exact emptiedJsb_emptiedJsb _ _
  unfold World.nextSeq at hemptied
  rw [World.rewrites, World.rewrites, htagged, found'.jsbWrite sound safe',
    found.jsbWrite sound safe]
  dsimp only
  rw [hnext, hemptied]

theorem Found.recovered_again (k : Nat) :
    w.recoveredDisk d (writeAll w.e4.blockSize ((w.rewrites d data).take k) data) =
    w.recoveredDisk d data := by
  have hrewrites := (found.again sound safe block k).2
  rw [recoveredDisk_rewrites, recoveredDisk_rewrites, hrewrites, writeAll_take sound.blockSize_pos]

end

end crash

/-! ## The two runs -/

theorem onDisk_sameStart (w : World) (d : Nat) (data : Bytes) : SameStart w (w.onDisk d data) :=
  ⟨(onDisk_view w d data).toStatic, rfl, rfl⟩

theorem cutAt_sameStart (w : World) (n : Nat) : SameStart w (w.cutAt n) :=
  ⟨⟨rfl, fun _ => rfl, fun _ _ => rfl, fun _ _ => rfl, rfl⟩, rfl, rfl⟩

theorem Sound.cutAt (sound : Sound w d) (n : Nat) : Sound (w.cutAt n) d := by
  refine ⟨sound.dev, ?_, sound.sectors, sound.small, sound.blockSize⟩
  intro k
  by_cases lost : n ≤ k
  · right
    intro i hi lba
    exact if_pos (Nat.le_trans lost hi)
  · left
    intro lba
    exact if_neg lost

theorem replay_idle (idle : ¬ w.e4.recovers) : (e4JournalReplay w).2.disk d = w.disk d := by
  rw [e4JournalReplay_eq, Cmd.bind_some (replayLog_idle idle)]
  rfl

theorem loaded_recovered (w : World) (d : Nat) (data sb : Bytes) :
    ¬ (w.loaded d (putSuper data (recoveredSb sb))).e4.recovers := by
  intro due
  have hincompat : (w.loaded d (putSuper data (recoveredSb sb))).e4.featIncompat =
      get32 (slice (putSuper data (recoveredSb sb)) ext4SuperOff 1024) 0x60 := rfl
  have hsame : Agree (slice (putSuper data (recoveredSb sb)) ext4SuperOff 1024) (recoveredSb sb)
      0x60 0x64 := by
    intro i _ hhi
    have hslice := copy_inside zero 0 (putSuper data (recoveredSb sb)) ext4SuperOff 1024 i
      (by omega)
    rw [Nat.zero_add] at hslice
    exact hslice.trans (putSuper_inside data _ (by omega))
  have hcleared : get32 (recoveredSb sb) 0x60 =
      clearBits32 (Sb.featureIncompat sb) featIncompatRecover % 4294967296 := by
    unfold recoveredSb Sb.putChecksum Sb.putFeatureIncompat
    rw [get32_put32_ne _ _ _ _ (by decide), get32_put32]
  have hbits : clearBits32 (Sb.featureIncompat sb) featIncompatRecover % 4294967296 &&&
      featIncompatRecover = 0 := by
    have hsmall : clearBits32 (Sb.featureIncompat sb) featIncompatRecover < 4294967296 :=
      Nat.lt_of_le_of_lt Nat.and_le_left (get32_lt sb 0x60)
    rw [Nat.mod_eq_of_lt hsmall, clearBits32, Nat.and_assoc]
    exact Nat.and_zero _
  apply due.2
  rw [hincompat, get32_congr hsame, hcleared]
  exact hbits

theorem SameStart.rewrites (same : SameStart w v) (d : Nat) (data : Bytes) :
    v.rewrites d data = w.rewrites d data := by
  rw [World.rewrites, same.tagged, same.jsbWrite, World.rewrites]

/-- What a replay that is cut off leaves: the disk of a whole replay, or a part of its writes. -/
theorem Sound.cut_disk (sound : Sound w d) (n : Nat) :
    (e4JournalReplay (w.cutAt n)).2.disk d = w.afterReplay d (w.disk d) ∨
      ∃ k, (e4JournalReplay (w.cutAt n)).2.disk d =
        writeAll w.e4.blockSize ((w.rewrites d (w.disk d)).take k) (w.disk d) := by
  have same := cutAt_sameStart w n
  have hdisk : (w.cutAt n).disk d = w.disk d := rfl
  rcases (sound.cutAt n).replay_disk with done | ⟨_, part⟩
  · left
    rw [done, hdisk, same.afterReplay]
  · right
    rw [hdisk, same.rewrites, same.e4] at part
    exact part

section two

variable {j : Journal}

theorem Found.second_run (found : Found (w.loaded d data) d data j)
    (sound : Sound (w.loaded d data) d) (healthy : w.Healthy) (due : (w.loaded d data).e4.recovers)
    (safe : Repeatable (w.loaded d data) d data j) (k : Nat) :
    (e4JournalReplay (w.loaded d (writeAll (w.loaded d data).e4.blockSize
      (((w.loaded d data).rewrites d data).take k) data))).2.disk d =
      (w.loaded d data).recoveredDisk d data := by
  have block : 1024 ≤ (w.loaded d data).e4.blockSize :=
    ofSb_blockSize (slice data ext4SuperOff 1024)
  obtain ⟨⟨j', found'⟩, _⟩ := found.again sound safe block k
  have hrecovered := found.recovered_again sound safe block k
  rw [loaded_spared w d data sound.blockSize_pos fun write member =>
    found.rewrites_spare sound safe (List.mem_of_mem_take member)]
  generalize writeAll (w.loaded d data).e4.blockSize (((w.loaded d data).rewrites d data).take k)
    data = m
    at found' hrecovered ⊢
  have same := onDisk_sameStart (w.loaded d data) d m
  have sound' := (onDisk_view (w.loaded d data) d m).sound sound
  rw [sound'.replay_healthy healthy, onDisk_disk, same.afterReplay, World.afterReplay,
    if_pos ⟨due, by rw [found_iff.mpr found']; rfl⟩, hrecovered]

end two

/-- A replay that is cut off anywhere and then run again from the disk it left ends with the
disk of a replay that was not cut off. -/
theorem replay_crash_idempotent (w : World) (d : Nat) (data : Bytes) (n : Nat) (healthy : w.Healthy)
    (blockSize : Sb.logBlockSize (slice data ext4SuperOff 1024) ≤ 3)
    (safe : ∀ j, (w.loaded d data).journal d data = some j → CrashSafe (w.loaded d data) d data j) :
    (e4JournalReplay
      (w.loaded d ((e4JournalReplay ((w.loaded d data).cutAt n)).2.disk d))).2.disk d =
      (e4JournalReplay (w.loaded d data)).2.disk d := by
  have sound := loaded_sound w d healthy blockSize
  have hfirst := sound.replay_healthy (w := w.loaded d data) healthy
  have hcut := sound.cut_disk n
  rw [loaded_disk] at hfirst hcut
  by_cases due : (w.loaded d data).e4.recovers
  · cases found : (w.loaded d data).journal d data with
    | none =>
      -- nothing is written by either run
      have hnone : (w.loaded d data).rewrites d data = [] := by
        rw [World.rewrites, World.tagged, World.jsbWrite, found]
        rfl
      have hsame : (w.loaded d data).afterReplay d data = data := by
        rw [World.afterReplay, found, if_neg (by simp)]
      have hdata : (e4JournalReplay ((w.loaded d data).cutAt n)).2.disk d = data := by
        rcases hcut with done | ⟨k, part⟩
        · exact done.trans hsame
        · rw [part, hnone, List.take_nil, writeAll_nil]
      rw [hdata]
    | some j =>
      have hfound := found_iff.mp found
      have hafter : (w.loaded d data).afterReplay d data =
          (w.loaded d data).recoveredDisk d data := by
        rw [World.afterReplay, found, if_pos ⟨due, rfl⟩]
      have second := hfound.second_run sound healthy due (safe j found).toRepeatable
      rw [hfirst, hafter]
      rcases hcut with done | ⟨k, part⟩
      · rw [done, hafter]
        have hdisk := recoveredDisk_rewrites (w.loaded d data) d data
        by_cases synced : ((w.loaded d data).resets && (w.loaded d data).syncs d) = true
        · rw [if_pos synced] at hdisk
          rw [hdisk, replay_idle (loaded_recovered w d _ _), loaded_disk]
        · have hall := second ((w.loaded d data).rewrites d data).length
          rw [if_neg synced] at hdisk
          rw [List.take_length, ← hdisk] at hall
          exact hall
      · rw [part]
        exact second k
  · have hdata : (e4JournalReplay ((w.loaded d data).cutAt n)).2.disk d = data :=
      (replay_idle (w := (w.loaded d data).cutAt n) due).trans (loaded_disk w d data)
    rw [hdata]

/-! ## Samples -/

/-- `journalDisk` with the fields of the superblock that a mount goes by. -/
def bootDisk (blocks : Nat) : Bytes :=
  let sb := put32 (put32 (put32 journalDisk 1024 16) (1024 + 0x04) blocks) (1024 + 0x14) 1
  let sb := put16 (put32 (put32 sb (1024 + 0x20) 8192) (1024 + 0x28) 16) (1024 + 0x58) 128
  put16 sb (1024 + 0x38) ext4Magic

/-- A device without an end. -/
def bootWorld : World := { journalWorld zero with
  bus := ⟨fun _ => ⟨0, true, true, zero⟩, 1, fun _ _ => none, 0⟩ }

/-- One committed transaction with a copy of block 30. -/
def oneBlockDisk : Bytes := withLog (bootDisk 128)
  [(2, journalBlock 1 1 (journalTag 30 0)), (3, [7]), (4, journalBlock 3 1 [])]

/-- Everything that a replay goes by lies in the first twenty blocks. -/
def World.Ahead (w : World) : Prop :=
  w.e4.blockSize = 1024 ∧ (∀ g < w.e4.groupCount, w.e4.descByte g + w.e4.descSize ≤ 20480) ∧
    w.lba (w.e4.inodeBlk (Sb.journalInum w.e4.sb)) * sectorSize + 1024 ≤ 20480 ∧
    w.e4.inOneBlock (Sb.journalInum w.e4.sb)

instance (w : World) : Decidable w.Ahead := inferInstanceAs (Decidable (_ ∧ _))

theorem World.Ahead.spares (ahead : w.Ahead) (behind : 20 ≤ b) : w.Spares b := by
  obtain ⟨hsize, hdesc, hinode, hone⟩ := ahead
  refine ⟨⟨?_, fun g hg => ?_⟩, ?_, fun spans => absurd hone spans⟩
  · rw [hsize]
    unfold Clear ext4SuperOff
    omega
  · have := hdesc g hg
    rw [hsize]
    unfold Clear
    omega
  · rw [hsize]
    unfold Clear
    omega

theorem oneBlockDisk_safe (j : Journal)
    (found : (bootWorld.loaded 0 oneBlockDisk).journal 0 oneBlockDisk = some j) :
    CrashSafe (bootWorld.loaded 0 oneBlockDisk) 0 oneBlockDisk j := by
  have ahead : (bootWorld.loaded 0 oneBlockDisk).Ahead := by decide +kernel
  have htargets : ((bootWorld.loaded 0 oneBlockDisk).tagged 0 oneBlockDisk).map Prod.fst =
    [30] := by decide +kernel
  have hlayout : ((bootWorld.loaded 0 oneBlockDisk).journal 0 oneBlockDisk).map Journal.layout =
      some (0, 2, 8, [20, 21, 22, 23, 24, 25, 26, 27]) := by decide +kernel
  rw [found, Option.map_some, Option.some.injEq] at hlayout
  have hblocks : (List.range j.jblocks).map (flatBlock j.jin) = [20, 21, 22, 23, 24, 25, 26, 27] :=
    congrArg (fun l => l.2.2.2) hlayout
  have hlength : j.jblocks = 8 := by
    have := congrArg List.length hblocks
    rwa [List.length_map, List.length_range] at this
  have inside : ∀ i, i < j.jblocks → flatBlock j.jin i ∈ [20, 21, 22, 23, 24, 25, 26, 27] := by
    intro i hi
    rw [← hblocks]
    exact List.mem_map_of_mem (List.mem_range.mpr hi)
  have hlooked : ((bootWorld.loaded 0 oneBlockDisk).journal 0 oneBlockDisk).map (fun j =>
      (bootWorld.loaded 0 oneBlockDisk).lookedOf 0 oneBlockDisk j.jin j.jsb j.jblocks) =
          some [30] := by
    decide +kernel
  rw [found, Option.map_some, Option.some.injEq] at hlooked
  have target : ∀ write ∈ (bootWorld.loaded 0 oneBlockDisk).tagged 0 oneBlockDisk,
      write.1 = 30 := by
    intro write member
    have hmem : write.1 ∈ ((bootWorld.loaded 0 oneBlockDisk).tagged 0 oneBlockDisk).map Prod.fst :=
      List.mem_map_of_mem member
    rw [htargets] at hmem
    exact List.mem_singleton.mp hmem
  refine ⟨⟨congrArg Prod.fst hlayout, ?_, ?_, ?_, ?_⟩, by rw [hlooked]; decide +kernel⟩
  · intro write member
    exact ahead.spares (by rw [target write member]; decide)
  · intro write member i hi same
    have hmem := inside i hi
    rw [← same, target write member] at hmem
    exact absurd hmem (by decide)
  · have hzero := inside 0 (by omega)
    apply ahead.spares
    revert hzero
    generalize flatBlock j.jin 0 = b
    simp only [List.mem_cons, List.not_mem_nil, or_false]
    omega
  · intro i hlo hhi same
    have hnodup : ((List.range j.jblocks).map (flatBlock j.jin)).Nodup := by
      rw [hblocks]
      decide
    have hfirst : Jsb.first j.jsb = 2 := congrArg (fun l => l.2.1) hlayout
    have hcap : Jsb.cap j.jsb j.jblocks = 8 := congrArg (fun l => l.2.2.1) hlayout
    have hindex := List.inj_on_of_nodup_map hnodup (List.mem_range.mpr (by omega))
      (List.mem_range.mpr (by omega)) same
    omega

/-- Cut off between its two last writes. -/
theorem replay_crash_idempotent_one_block :
    (e4JournalReplay (bootWorld.loaded 0 ((e4JournalReplay
      ((bootWorld.loaded 0 oneBlockDisk).cutAt 17)).2.disk 0))).2.disk 0 =
        (e4JournalReplay (bootWorld.loaded 0 oneBlockDisk)).2.disk 0 :=
  replay_crash_idempotent bootWorld 0 oneBlockDisk 17 (fun _ _ => rfl) (by decide +kernel)
    oneBlockDisk_safe

/-- Block 2 of this journal is mapped to the block of its superblock, which is a descriptor
too: its tags are the block size, for block 262144, and the sequence number, for block 50. -/
def sharedDisk : Bytes :=
  let root := put16 (bootDisk 262145) (6016 + 0x2A) 3
  let first := put32 (put16 root (6016 + 0x38) 2) (6016 + 0x3C) 20
  let second := put32 (put16 (put32 first (6016 + 0x40) 2) (6016 + 0x44) 1) (6016 + 0x48) 20
  let third := put32 (put16 (put32 second (6016 + 0x4C) 3) (6016 + 0x50) 5) (6016 + 0x54) 23
  let jsb := ofList third 20480 [0xC0, 0x3B, 0x39, 0x98, 0, 0, 0, 1, 0x32, 0xFF, 0xFF, 0xFF]
  let jsb := put32 (put32 jsb (20480 + jsbOffSequence) 0x32000000) (20480 + jsbOffFeatIncompat)
    jbd2Feat64bit
  withLog jsb [(3, [7]), (4, [9]),
    (5, [0xC0, 0x3B, 0x39, 0x98, 0, 0, 0, 3, 0x32, 0xFF, 0xFF, 0xFF])]

/-- The reset changes the sequence number, and with it a tag: a replay that is cut off right
after it writes block 51 when it is run again. -/
theorem shared_superblock_diverges :
    (∀ j, (bootWorld.loaded 0 sharedDisk).journal 0 sharedDisk = some j →
      Eh.depth j.jin Ino.root = 0 ∧
      ∀ write ∈ (bootWorld.loaded 0 sharedDisk).tagged 0 sharedDisk,
        write.1 < (bootWorld.loaded 0 sharedDisk).e4.blocksCount ∧
        (bootWorld.loaded 0 sharedDisk).Spares write.1 ∧
          ∀ i, i < j.jblocks → write.1 ≠ flatBlock j.jin i) ∧
      (e4JournalReplay (bootWorld.loaded 0 ((e4JournalReplay
        ((bootWorld.loaded 0 sharedDisk).cutAt 19)).2.disk 0))).2.disk 0 (51 * 1024) = 9 ∧
      (e4JournalReplay (bootWorld.loaded 0 sharedDisk)).2.disk 0 (51 * 1024) = 0 := by
  have ahead : (bootWorld.loaded 0 sharedDisk).Ahead := by decide +kernel
  have htargets : ((bootWorld.loaded 0 sharedDisk).tagged 0 sharedDisk).map Prod.fst =
      [262144, 50] := by
    decide +kernel
  have hcount : (bootWorld.loaded 0 sharedDisk).e4.blocksCount = 262145 := by decide +kernel
  have hlayout : ((bootWorld.loaded 0 sharedDisk).journal 0 sharedDisk).map Journal.layout =
      some (0, 2, 8, [20, 21, 20, 23, 24, 25, 26, 27]) := by decide +kernel
  refine ⟨?_, by decide +kernel, by decide +kernel⟩
  intro j found
  rw [found, Option.map_some, Option.some.injEq] at hlayout
  refine ⟨congrArg Prod.fst hlayout, ?_⟩
  intro write member
  have hmem : write.1 ∈ ((bootWorld.loaded 0 sharedDisk).tagged 0 sharedDisk).map Prod.fst :=
    List.mem_map_of_mem member
  rw [htargets] at hmem
  have hwrite : write.1 = 262144 ∨ write.1 = 50 := by simpa using hmem
  refine ⟨by omega, ahead.spares (by omega), ?_⟩
  intro i hi same
  have hin := flatBlock_mem hi
  rw [hlayout, ← same] at hin
  simp only [List.mem_cons, List.not_mem_nil, or_false] at hin
  omega

end Obsidian.Fs
