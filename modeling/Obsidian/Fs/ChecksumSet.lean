import Obsidian.Fs.DirLookup
import Obsidian.Fs.InodeTable

/-!
# Checksum setters and the buffers they are given

`e4_dir_block_checksum_set` and `e4_extent_block_checksum_set` read the inode of the
file first, and that read goes through the scratch buffers: the first one always, the
second one for a record that spans two blocks. The block to be summed is in one of
them: the first for a directory block and for a new leaf, the second for the leaf of
a directory that grows. Whatever is in that buffer afterwards is written to disk.
-/
namespace Obsidian.Fs
open Lib Lib.Bytes Drivers

/-- Same octets in a block of `bs` octets, the four of a checksum at `tail` apart. -/
def SameButTail (a b : Bytes) (bs tail : Nat) : Prop :=
  ∀ i, i < bs → (i < tail ∨ tail + 4 ≤ i) → b i = a i

/-- A scratch buffer: the second one, or the first. -/
def World.buffer (w : World) (second : Bool) : Bytes := if second then w.scratch2 else w.scratch1

/-- Where `e4_extent_block_checksum_set` puts the checksum of a node. -/
def extentTail (eh : Bytes) : Nat := 12 + Eh.max eh 0 * 12

/-- `e4_dir_block_checksum_set` changes the checksum of the block in the first buffer only. -/
def DirSetterFrames (w : World) (ino : Nat) : Prop :=
  SameButTail w.scratch1 (e4DirBlockChecksumSet ino w).2.scratch1 w.e4.blockSize
    (w.e4.blockSize - 4)

/-- `e4_extent_block_checksum_set` changes the checksum of the node in its buffer only. -/
def ExtentSetterFrames (second : Bool) (w : World) (ino : Nat) : Prop :=
  SameButTail (w.buffer second) ((e4ExtentBlockChecksumSet second ino w).2.buffer second)
    w.e4.blockSize
    (extentTail (w.buffer second))

/-- The device of the filesystem and the sector that block `b` starts at, if the block is on the
device. -/
def World.transfer (w : World) (b : Nat) : Option (BlkDevice × Nat) :=
  w.e4.dev.bind fun d =>
    if w.e4.sectorsPerBlock = 0 then none
    else if (w.bus.devs d).beyond (u64 (b * w.e4.sectorsPerBlock)) w.e4.sectorsPerBlock then none
    else some (w.bus.devs d, u64 (b * w.e4.sectorsPerBlock))

/-- Octet `i` of block `b` as the device delivers it in transfer number `n`, if it does. -/
def World.delivers (w : World) (n b i : Nat) : Option UInt8 :=
  (w.transfer b).bind fun t =>
    if i < Bus.moved { w.bus with ios := n } t.2 w.e4.sectorsPerBlock * sectorSize then
      some (t.1.data (t.2 * sectorSize + i))
    else none

/-- Transfer number `n` of block `b` succeeds. -/
def World.transfers (w : World) (n b : Nat) : Prop :=
  (w.transfer b).any (fun t => (w.bus.fault n t.2).isNone) = true

/-- The octets that the device delivers of the inode's block of the inode table are those in the
first buffer already, the checksum apart. -/
def FirstReadKeeps (w : World) (ino tail : Nat) : Prop :=
  w.e4.hasInode ino → ∀ i, i < w.e4.blockSize → (i < tail ∨ tail + 4 ≤ i) →
    ∀ c ∈ w.delivers w.bus.ios (w.e4.inodeBlk ino) i, c = w.scratch1 i

/-- So are those of the next block for the second buffer, if the record spans two blocks and the
first one is read. -/
def SecondReadKeeps (w : World) (ino tail : Nat) : Prop :=
  w.e4.hasInode ino → w.transfers w.bus.ios (w.e4.inodeBlk ino) → ¬ w.e4.inOneBlock ino →
    ∀ i, i < w.e4.blockSize → (i < tail ∨ tail + 4 ≤ i) →
      ∀ c ∈ w.delivers (w.bus.ios + 1) (u64 (w.e4.inodeBlk ino + 1)) i, c = w.scratch2 i

variable {w : World} {ino bs : Nat}

theorem put32_other (b : Bytes) (i v j : Nat) (hne : j < i ∨ i + 4 ≤ j) : put32 b i v j = b j :=
  put32_agree b i v j (j + 1) (by omega) j (Nat.le_refl _) (Nat.lt_succ_self _)

/-! ## What a read leaves -/

theorem e4ReadBlock_eq (w : World) (b : Nat) (buf : Bytes) : e4ReadBlock b buf w =
    match w.transfer b with
    | none => (false, buf, w)
    | some t => ((w.bus.fault w.bus.ios t.2).isNone,
        copy buf 0 t.1.data (t.2 * sectorSize) (w.bus.moved t.2 w.e4.sectorsPerBlock * sectorSize),
        { w with bus := w.bus.tick }) := by
  unfold e4ReadBlock World.transfer
  cases w.e4.dev with
  | none => rfl
  | some d =>
    simp only [Option.bind_some, reduceCtorEq, if_false, blkRead]
    split
    · rfl
    · split
      · rfl
      · rfl

/-- The buffer holds what was delivered, and what it held before in the other places. -/
theorem e4ReadBlock_octet (w : World) (b : Nat) (buf : Bytes) (i : Nat) :
    (e4ReadBlock b buf w).2.1 i = (w.delivers w.bus.ios b i).getD (buf i) := by
  rw [e4ReadBlock_eq, World.delivers]
  cases w.transfer b with
  | none => rfl
  | some t =>
    simp only [Option.bind_some, copy, Nat.zero_le, true_and, Nat.zero_add, Nat.sub_zero]
    split
    · rfl
    · rfl

theorem sameButTail_read {buf : Bytes} {tail : Nat} (w : World) (b n : Nat)
    (now : n = w.bus.ios) : SameButTail buf (e4ReadBlock b buf w).2.1 bs tail ↔
      ∀ i, i < bs → (i < tail ∨ tail + 4 ≤ i) → ∀ c ∈ w.delivers n b i, c = buf i := by
  subst now
  refine forall_congr' fun i => forall_congr' fun _ => forall_congr' fun _ => ?_
  rw [e4ReadBlock_octet]
  cases w.delivers w.bus.ios b i with
  | none => simp
  | some c => simp

theorem firstReads_iff (w : World) (ino : Nat) :
    w.firstReads ino ↔ w.transfers w.bus.ios (w.e4.inodeBlk ino) := by
  unfold World.firstReads readScratch1 World.transfers
  rw [e4ReadBlock_eq]
  cases w.transfer (w.e4.inodeBlk ino) with
  | none => simp
  | some t => simp

theorem firstRead_bus (reads : w.firstReads ino) : (w.firstRead ino).bus = w.bus.tick := by
  unfold World.firstReads readScratch1 at reads
  unfold World.firstRead readScratch1
  rw [e4ReadBlock_eq] at reads ⊢
  cases found : w.transfer (w.e4.inodeBlk ino) with
  | none =>
    rw [found] at reads
    cases reads
  | some t => rfl

theorem firstReadKeeps_iff (present : w.e4.hasInode ino) (tail : Nat) : FirstReadKeeps w ino tail ↔
    SameButTail w.scratch1 (w.firstRead ino).scratch1 w.e4.blockSize tail :=
  (forall_prop_of_true present).trans (sameButTail_read w _ _ rfl).symm

theorem secondRead_keeps (reads : w.firstReads ino) (tail : Nat) :
    SameButTail w.scratch2 (readScratch2 (u64 (w.e4.inodeBlk ino + 1)) (w.firstRead ino)).2.scratch2
        w.e4.blockSize tail ↔
      ∀ i, i < w.e4.blockSize → (i < tail ∨ tail + 4 ≤ i) →
        ∀ c ∈ w.delivers (w.bus.ios + 1) (u64 (w.e4.inodeBlk ino + 1)) i, c = w.scratch2 i := by
  have hbus := firstRead_bus reads
  have he4 : (w.firstRead ino).e4 = w.e4 := readScratch1_e4 _ w
  have hbuf : (w.firstRead ino).scratch2 = w.scratch2 := readScratch1_scratch2 _ w
  have same : ∀ n b i, (w.firstRead ino).delivers n b i = w.delivers n b i := by
    intro n b i
    unfold World.delivers World.transfer
    rw [he4, hbus]
    rfl
  have now : w.bus.ios + 1 = (w.firstRead ino).bus.ios := by
    rw [hbus]
    rfl
  unfold readScratch2
  rw [hbuf]
  refine (sameButTail_read (w.firstRead ino) _ _ now).trans ?_
  simp only [same]

/-! ## Directory blocks -/

section
variable (csum : w.e4.metaCsum = true)
include csum

theorem dirSetter_buffer {i : Nat} (hi : i < w.e4.blockSize - 4) :
    (e4DirBlockChecksumSet ino w).2.scratch1 i = (e4ReadInode ino w.stackJunk w).2.scratch1 i := by
  have hsize := e4ReadInode_e4 ino w.stackJunk w
  rw [e4DirBlockChecksumSet, Cmd.get_bind, if_neg (by simp [csum]), Cmd.attempt_bind]
  cases (e4ReadInode ino w.stackJunk w).1 with
  | none => rfl
  | some host =>
    simp only [Cmd.get_bind, hsize]
    split
    · rfl
    · split
      · rfl
      · exact put32_other _ _ _ _ (Or.inl hi)

theorem dirSetter_frames_iff (ino : Nat) :
    DirSetterFrames w ino ↔ FirstReadKeeps w ino (w.e4.blockSize - 4) := by
  by_cases present : w.e4.hasInode ino
  · have hread : ∀ i, i < w.e4.blockSize - 4 →
        (e4DirBlockChecksumSet ino w).2.scratch1 i = (w.firstRead ino).scratch1 i := by
      intro i hi
      rw [dirSetter_buffer csum hi, e4ReadInode_scratch1 present]
    rw [firstReadKeeps_iff present]
    constructor
    · intro frames i hi hout
      rw [← hread i (by omega)]
      exact frames i hi hout
    · intro keeps i hi hout
      rw [hread i (by omega)]
      exact keeps i hi hout
  · refine iff_of_true (fun i hi hout => ?_) (fun h => absurd h present)
    rw [dirSetter_buffer csum (by omega), e4ReadInode_absent present]

/-! ## Extent nodes -/

/-- What the extent setter leaves in its buffer: what reading the inode left there, or that
with a checksum behind the entries it then announces. -/
theorem extentSetter_buffer (second : Bool) (ino : Nat) :
    (e4ExtentBlockChecksumSet second ino w).2.buffer second =
        (e4ReadInode ino w.stackJunk w).2.buffer second ∨
      ∃ crc, (e4ExtentBlockChecksumSet second ino w).2.buffer second =
        put32 ((e4ReadInode ino w.stackJunk w).2.buffer second)
          (extentTail ((e4ReadInode ino w.stackJunk w).2.buffer second)) crc := by
  rw [e4ExtentBlockChecksumSet, Cmd.get_bind, if_neg (by simp [csum]), Cmd.attempt_bind]
  cases (e4ReadInode ino w.stackJunk w).1 with
  | none => exact Or.inl rfl
  | some host =>
    right
    cases second with
    | false => exact ⟨_, rfl⟩
    | true => exact ⟨_, rfl⟩

end

/-- The number of entries a node announces is not part of its checksum, so writing the
checksum where the buffer after the read says changes nothing else that counts. -/
theorem sameButTail_put32 {a b : Bytes} {crc : Nat} (block : 1024 ≤ bs) :
    SameButTail a (put32 b (extentTail b) crc) bs (extentTail a) ↔ SameButTail a b bs
    (extentTail a) := by
  have hmax : ∀ c : Bytes, c 4 = a 4 → c 5 = a 5 → extentTail c = extentTail a := by
    intro c h4 h5
    simp only [extentTail, Eh.max, get16, h4, h5]
  have hlow : ∀ c : Bytes, 12 ≤ extentTail c := fun c => Nat.le_add_right _ _
  have hb := hlow b
  have ha := hlow a
  constructor
  · intro same
    have h4 := same 4 (by omega) (Or.inl (by omega))
    have h5 := same 5 (by omega) (Or.inl (by omega))
    rw [put32_other _ _ _ _ (Or.inl (by omega))] at h4 h5
    have htail := hmax b h4 h5
    intro i hi hout
    have := same i hi hout
    rwa [put32_other _ _ _ _ (by rw [htail]; exact hout)] at this
  · intro same
    have htail :=
      hmax b (same 4 (by omega) (Or.inl (by omega))) (same 5 (by omega) (Or.inl (by omega)))
    intro i hi hout
    rw [put32_other _ _ _ _ (by rw [htail]; exact hout)]
    exact same i hi hout

theorem extentSetter_frames (csum : w.e4.metaCsum = true) (block : 1024 ≤ w.e4.blockSize)
    (second : Bool) (ino : Nat) :
    ExtentSetterFrames second w ino ↔
      SameButTail (w.buffer second) ((e4ReadInode ino w.stackJunk w).2.buffer second) w.e4.blockSize
        (extentTail (w.buffer second)) := by
  unfold ExtentSetterFrames
  rcases extentSetter_buffer csum second ino with hsame | ⟨crc, hput⟩
  · rw [hsame]
  · rw [hput]
    exact sameButTail_put32 block

/-- For every state and inode number, each setter frames the buffer its callers pass exactly
when reading the inode happens to leave that buffer as it is. -/
theorem checksum_setters_frame_iff (w : World) (ino : Nat) (csum : w.e4.metaCsum = true)
    (block : 1024 ≤ w.e4.blockSize) :
    (DirSetterFrames w ino ↔ FirstReadKeeps w ino (w.e4.blockSize - 4)) ∧
      (ExtentSetterFrames false w ino ↔ FirstReadKeeps w ino (extentTail w.scratch1)) ∧
      (ExtentSetterFrames true w ino ↔ SecondReadKeeps w ino (extentTail w.scratch2)) := by
  refine ⟨dirSetter_frames_iff csum ino, ?_, ?_⟩
  · rw [extentSetter_frames csum block]
    show SameButTail w.scratch1 (e4ReadInode ino w.stackJunk w).2.scratch1 _ _ ↔ _
    by_cases present : w.e4.hasInode ino
    · rw [e4ReadInode_scratch1 present, firstReadKeeps_iff present]
      exact Iff.rfl
    · rw [e4ReadInode_absent present]
      exact iff_of_true (fun _ _ _ => rfl) (fun h => absurd h present)
  · rw [extentSetter_frames csum block]
    show SameButTail w.scratch2 (e4ReadInode ino w.stackJunk w).2.scratch2 _ _ ↔ _
    by_cases present : w.e4.hasInode ino
    · rw [e4ReadInode_scratch2 present]
      by_cases quiet : ¬ w.firstReads ino ∨ w.e4.inOneBlock ino
      · rw [if_pos quiet]
        refine iff_of_true (fun _ _ _ => rfl) (fun _ reads spans => ?_)
        rcases quiet with unread | fits
        · exact absurd ((firstReads_iff w ino).mpr reads) unread
        · exact absurd fits spans
      · rw [if_neg quiet]
        simp only [not_or, Classical.not_not] at quiet
        rw [secondRead_keeps quiet.1]
        exact ⟨fun same _ _ _ => same,
          fun keeps => keeps present ((firstReads_iff w ino).mp quiet.1) quiet.2⟩
    · rw [e4ReadInode_absent present]
      exact iff_of_true (fun _ _ _ => rfl) (fun h => absurd h present)

/-- The sample directory on an image with metadata checksums, its block about to be summed
and written. -/
def csumDirWorld : World :=
  { sampleDirWorld with
    e4 := { sampleDirWorld.e4 with metaCsum := true }
    scratch1 := blockAt sampleDirDisk 1024 10 }

/-- Summing the leaf of a growing directory frames it there. -/
theorem checksum_setters_frame_sample : ExtentSetterFrames true csumDirWorld 2 :=
  (checksum_setters_frame_iff csumDirWorld 2 rfl (by decide)).2.2.mpr
    fun _ _ spans => absurd (by decide) spans

/-- The first octet of the directory block, of its only entry's inode number 11, becomes the
first octet of the inode table, and the new leaf of a file meets the same fate. -/
theorem dir_block_overwritten :
    ¬ DirSetterFrames csumDirWorld 2 ∧ ¬ ExtentSetterFrames false csumDirWorld 2 := by
  have hbefore : csumDirWorld.scratch1 0 = 11 := by decide
  have hdir : (e4DirBlockChecksumSet 2 csumDirWorld).2.scratch1 0 = 0 := by decide
  have hleaf : (e4ExtentBlockChecksumSet false 2 csumDirWorld).2.scratch1 0 = 0 := by decide
  constructor
  · intro frames
    have hzero := frames 0 (by decide) (Or.inl (by decide))
    rw [hbefore] at hzero
    exact absurd hzero (by decide)
  · intro frames
    have hzero :=
      frames 0 (by decide) (Or.inl (Nat.lt_of_lt_of_le (by decide) (Nat.le_add_right 12 _)))
    change (e4ExtentBlockChecksumSet false 2 csumDirWorld).2.scratch1 0 =
      csumDirWorld.scratch1 0 at hzero
    rw [hbefore] at hzero
    exact absurd hzero (by decide)

end Obsidian.Fs
