import Obsidian.Fs.DirLookup
import Obsidian.Fs.ExtentRead
import Obsidian.Fs.IndirectRead
import Obsidian.Fs.InodeRecord

/-!
# Directories reported empty

`e4_dir_empty` goes on with the next block when a block cannot be mapped or read, and
reports a directory empty when it has seen no entry. What the directory holds is said
here from the disk: its blocks are those that the extent tree or the indirect map names,
and the records of a block are the ones that the record lengths lead to. Which of its
blocks are read is said from the pattern of failures: the inode takes the first transfer
and every block that is not a hole the next one.
-/
namespace Obsidian.Fs
open Lib Lib.Bytes Drivers

/-! ## What a directory holds -/

/-- A record starts at `d`. -/
structure DirRecord (bs : Nat) (blk : Bytes) (d : Nat) : Prop where
  header : d + 8 ≤ bs
  filled : De.recLen blk d ≠ 0
  aligned : De.recLen blk d &&& 3 = 0
  inside : d + De.recLen blk d ≤ bs

/-- The record at `d` is reached from the start of the block. -/
inductive DirRecordAt (bs : Nat) (blk : Bytes) : Nat → Prop where
  | first : DirRecord bs blk 0 → DirRecordAt bs blk 0
  | next {d : Nat} : DirRecordAt bs blk d → DirRecord bs blk (d + De.recLen blk d) →
      DirRecordAt bs blk (d + De.recLen blk d)

/-- An entry in use other than `.` and `..`, with its name inside the record. -/
structure LiveAt (bs : Nat) (blk : Bytes) (d : Nat) : Prop where
  reached : DirRecordAt bs blk d
  used : De.inode blk d ≠ 0
  named : 0 < De.nameLen blk d
  fits : 8 + De.nameLen blk d ≤ De.recLen blk d
  notDot : De.name blk d ≠ [46]
  notDotDot : De.name blk d ≠ [46, 46]

/-- The names of the entries in use are inside their records. -/
def NamesInside (bs : Nat) (blk : Bytes) : Prop :=
  ∀ d, DirRecordAt bs blk d → De.inode blk d ≠ 0 →
    0 < De.nameLen blk d ∧ 8 + De.nameLen blk d ≤ De.recLen blk d

/-- Where a block of a file is, 0 for a hole. -/
def FileBlock (w : World) (d : Nat) (inode : Bytes) (logical phys : Nat) : Prop :=
  if Ino.flags inode &&& inoFlagExtents ≠ 0 then Mapped w d inode logical phys
  else standardBmap (w.disk d) w.e4.blockSize inode logical = phys

/-- Some block of the directory holds a live entry. -/
def HoldsLive (w : World) (d : Nat) (din : Bytes) : Prop :=
  ∃ logical phys off, logical * w.e4.blockSize < e4InodeSize w.e4 din ∧
    FileBlock w d din logical phys ∧ phys ≠ 0 ∧
      LiveAt w.e4.blockSize (blockAt (w.disk d) w.e4.blockSize phys) off

variable {bs d off : Nat} {blk blk' : Bytes}

theorem DirRecordAt.record (reached : DirRecordAt bs blk d) : DirRecord bs blk d := by
  cases reached with
  | first record => exact record
  | next _ record => exact record

/-! ## The scan of one block -/

theorem DirRecord.passes (record : DirRecord bs blk d) :
    ¬ (De.recLen blk d = 0 ∨ De.recLen blk d &&& 3 ≠ 0 ∨ bs < d + De.recLen blk d) := by
  have hinside := record.inside
  simp only [record.filled, record.aligned, false_or, ne_eq, not_true_eq_false]
  omega

variable {e4 : Ext4Fs} {α : Type}

theorem DirRecordAt.scanned (reached : DirRecordAt e4.blockSize blk d)
    (nothing : holdsOnlyDots e4 blk e4.blockSize 0 = true) :
    ∃ fuel, e4.blockSize ≤ d + fuel ∧ holdsOnlyDots e4 blk fuel d = true := by
  induction reached with
  | first _ => exact ⟨e4.blockSize, by omega, nothing⟩
  | @next d before after ih =>
    obtain ⟨fuel, henough, hscan⟩ := ih
    have here := before.record
    have hfilled := here.filled
    have hnext := after.header
    obtain ⟨more, rfl⟩ : ∃ more, fuel = more + 1 := ⟨fuel - 1, by omega⟩
    -- a record as long as the block leaves no room for the next one
    have hshort : ¬ (De.recLen blk d = e4.blockSize ∧ De.nameLen blk d = 0) := by omega
    rw [holdsOnlyDots, if_neg (by omega), if_neg here.passes, if_neg hshort] at hscan
    split at hscan
    · cases hscan
    · exact ⟨more, by omega, hscan⟩

theorem LiveAt.seen (live : LiveAt e4.blockSize blk d) :
    holdsOnlyDots e4 blk e4.blockSize 0 = false := by
  by_contra hfalse
  obtain ⟨fuel, henough, hscan⟩ := live.reached.scanned (by simpa using hfalse)
  have here := live.reached.record
  have hheader := here.header
  have hnamed := live.named
  obtain ⟨more, rfl⟩ : ∃ more, fuel = more + 1 := ⟨fuel - 1, by omega⟩
  rw [holdsOnlyDots, if_neg (by omega), if_neg here.passes, if_neg (by omega),
    if_pos ⟨live.used, live.notDot, live.notDotDot⟩] at hscan
  cases hscan

/-- A scan that stops has met a live entry, if the names are inside their records. -/
theorem NamesInside.live (names : NamesInside e4.blockSize blk) (fuel : Nat) :
    ∀ d, (DirRecord e4.blockSize blk d → DirRecordAt e4.blockSize blk d) →
      holdsOnlyDots e4 blk fuel d = false → ∃ off, LiveAt e4.blockSize blk off := by
  induction fuel with
  | zero =>
    intro d _ stops
    cases stops
  | succ fuel ih =>
    intro d reach stops
    rw [holdsOnlyDots] at stops
    split at stops
    · cases stops
    next header =>
      split at stops
      · cases stops
      next whole =>
        split at stops
        · cases stops
        · simp only [not_or, ne_eq, not_not] at whole
          have reached := reach ⟨by omega, whole.1, whole.2.1, by omega⟩
          split at stops
          next found =>
            obtain ⟨named, fits⟩ := names d reached found.1
            exact ⟨d, reached, found.1, named, fits, found.2.1, found.2.2⟩
          · exact ih _ (DirRecordAt.next reached) stops

/-! What the octets behind the block are does not matter. -/

section
variable (agree : Agree blk' blk 0 bs)
include agree

theorem DirRecord.recLen_congr (header : d + 8 ≤ bs) : De.recLen blk' d = De.recLen blk d := by
  apply get16_congr
  intro i _ hi
  exact agree i (by omega) (by omega)

theorem DirRecord.inode_congr (header : d + 8 ≤ bs) : De.inode blk' d = De.inode blk d :=
  get32_congr fun i _ hi => agree i (by omega) (by omega)

theorem DirRecord.nameLen_congr (header : d + 8 ≤ bs) : De.nameLen blk' d = De.nameLen blk d :=
  get8_congr fun i _ hi => agree i (by omega) (by omega)

theorem DirRecord.name_congr (record : DirRecord bs blk d)
    (fits : 8 + De.nameLen blk d ≤ De.recLen blk d) : De.name blk' d = De.name blk d := by
  have hinside := record.inside
  rw [De.name, DirRecord.nameLen_congr agree record.header]
  apply toList_congr
  intro k hk
  exact agree _ (by omega) (by omega)

theorem DirRecord.congr (record : DirRecord bs blk d) : DirRecord bs blk' d := by
  have hlen := DirRecord.recLen_congr agree record.header
  constructor
  · exact record.header
  · rw [hlen]
    exact record.filled
  · rw [hlen]
    exact record.aligned
  · rw [hlen]
    exact record.inside

theorem DirRecordAt.congr (reached : DirRecordAt bs blk d) : DirRecordAt bs blk' d := by
  induction reached with
  | first record => exact DirRecordAt.first (record.congr agree)
  | next before record ih =>
    have hlen := DirRecord.recLen_congr agree before.record.header
    rw [← hlen]
    apply DirRecordAt.next ih
    rw [hlen]
    exact record.congr agree

theorem LiveAt.congr (live : LiveAt bs blk d) : LiveAt bs blk' d := by
  have here := live.reached.record
  have hname := here.name_congr agree live.fits
  constructor
  · exact live.reached.congr agree
  · rw [DirRecord.inode_congr agree here.header]
    exact live.used
  · rw [DirRecord.nameLen_congr agree here.header]
    exact live.named
  · rw [DirRecord.nameLen_congr agree here.header, DirRecord.recLen_congr agree here.header]
    exact live.fits
  · rw [hname]
    exact live.notDot
  · rw [hname]
    exact live.notDotDot

end

theorem NamesInside.congr (names : NamesInside bs blk) (agree : Agree blk' blk 0 bs) :
    NamesInside bs blk' := by
  intro d reached used
  have back : Agree blk blk' 0 bs := fun i lo hi => (agree i lo hi).symm
  have header := reached.record.header
  rw [DirRecord.inode_congr agree header] at used
  rw [DirRecord.nameLen_congr agree header, DirRecord.recLen_congr agree header]
  exact names d (reached.congr back) used

/-! ## Blocks that the inode names itself -/

/-- The block is named by an extent of the root, not one of 32768 blocks, or by a pointer of
the inode; the other blocks are those that the driver does not find. -/
def PlainAt (e4 : Ext4Fs) (din : Bytes) (logical : Nat) : Prop :=
  if Ino.flags din &&& inoFlagExtents ≠ 0 then
    Eh.magic din Ino.root = extentMagic ∧ Eh.depth din Ino.root = 0 ∧ LeafOrdered din Ino.root ∧
      NoFullAt din Ino.root logical
  else logical < 12 ∨ topPointer din (e4.blockSize / 4) logical = 0

variable {w s : World} {ino logical phys more bi : Nat} {din : Bytes} {blocks : List Nat}

theorem PlainAt.e4Bmap (size : w.e4.blockSize ∈ [1024, 2048, 4096, 8192])
    (plain : PlainAt w.e4 din logical) (place : FileBlock w d din logical phys)
    (same : s.e4 = w.e4) : e4Bmap din logical s = (some phys, s) := by
  unfold PlainAt at plain
  unfold FileBlock at place
  by_cases extents : Ino.flags din &&& inoFlagExtents ≠ 0
  · rw [if_pos extents] at plain place
    obtain ⟨magic, flat, ordered, nofull⟩ := plain
    rw [Mapped, flat] at place
    rw [e4Bmap_descends extents magic, flat, ← ordered.leafSearch_eq nofull place]
    rfl
  · rw [if_neg extents] at plain place
    have legacy : Ino.flags din &&& inoFlagExtents = 0 := not_not.mp extents
    by_cases low : logical < 12
    · rw [e4Bmap_direct legacy low, ← place, standardBmap, mapSlots, indirection, if_pos low,
        topPointer, if_pos low]
      rfl
    · have high : 12 ≤ logical := by omega
      have hole := plain.resolve_left low
      obtain ⟨slot, rest, hslots⟩ := @mapSlots_cons (w.e4.blockSize / 4) logical high
      rw [standardBmap, hslots, hole, walkSlots, if_pos rfl] at place
      rw [← same] at size hole
      rw [e4Bmap_indirect size legacy high, hole, indirectWalk, if_pos rfl, ← place]
      rfl

/-- The first blocks of a directory, each of them named by the inode itself. -/
structure World.PlainBlocks (w : World) (d : Nat) (din : Bytes) (blocks : List Nat) : Prop where
  few : blocks.length ≤ w.e4.nblocks din
  plain : ∀ i b, blocks[i]? = some b → PlainAt w.e4 din i
  place : ∀ i b, blocks[i]? = some b → FileBlock w d din i b
  inside : ∀ b ∈ blocks, b < w.e4.blocksCount

/-! ## The loop over the blocks -/

/-- Some block of the list holds a live entry, and its transfer succeeds. Transfers are counted
from `n` on; a hole takes none. -/
def World.Shows (w : World) (d : Nat) : Nat → List Nat → Prop
  | _, [] => False
  | n, b :: rest =>
    if b = 0 then w.Shows d n rest
    else (w.succeeds n b = true ∧
        ∃ off, LiveAt w.e4.blockSize (blockAt (w.disk d) w.e4.blockSize b) off) ∨
      w.Shows d (n + 1) rest

section
variable (mounted : Mounted w d) (quiet : Quiet w s)
include mounted quiet

/-- A block that is named by the inode and read is scanned as it is on the disk. -/
theorem Mounted.emptyFrom_read {b : Nat} (more : Nat) (inside : b < w.e4.blocksCount)
    (filled : b ≠ 0) (map : e4Bmap din bi s = (some b, s)) (reads : w.succeeds s.bus.ios b = true) :
    ∃ s' blk, Quiet w s' ∧ s'.bus.ios = s.bus.ios + 1 ∧
      Agree blk (blockAt (w.disk d) w.e4.blockSize b) 0 w.e4.blockSize ∧
      Fs.emptyFrom din (more + 1) bi s =
        if holdsOnlyDots w.e4 blk w.e4.blockSize 0 then Fs.emptyFrom din more (bi + 1) s'
        else (some false, s') := by
  have hs : Mounted s d := quiet.kept.mounted mounted
  have hread : readScratch1 b s = (some (), { s with
      bus := s.bus.tick
      scratch1 := copy s.scratch1 0 (w.disk d) (b * w.e4.blockSize) w.e4.blockSize }) := by
    have hsucceeds : s.succeeds s.bus.ios b = true := by rw [quiet.kept.succeeds, reads]
    have hbelow : b < s.e4.blocksCount := by
      rw [quiet.e4]
      exact inside
    simp only [Fs.readScratch1, hs.read hbelow, hsucceeds, movedOctets_succeeds hsucceeds,
      if_true, quiet.e4, quiet.disk]
  refine ⟨(readScratch1 b s).2, _, quiet.trans (readScratch1_quiet b s), ?_,
    agree_read s.scratch1 _ _ _, ?_⟩
  · rw [hread]
    rfl
  · rw [Fs.emptyFrom, Cmd.attempt_bind, map]
    simp only [if_neg filled]
    rw [Cmd.attempt_bind, hread]
    simp only [Cmd.get_bind, quiet.e4]
    split <;> rfl

theorem Mounted.emptyFrom_unread {b : Nat} (more : Nat) (inside : b < w.e4.blocksCount)
    (filled : b ≠ 0) (map : e4Bmap din bi s = (some b, s)) (lost : w.succeeds s.bus.ios b = false) :
    ∃ s', Quiet w s' ∧ s'.bus.ios = s.bus.ios + 1 ∧
      Fs.emptyFrom din (more + 1) bi s = Fs.emptyFrom din more (bi + 1) s' := by
  have hs : Mounted s d := quiet.kept.mounted mounted
  have hbelow : b < s.e4.blocksCount := by
    rw [quiet.e4]
    exact inside
  have hread : readScratch1 b s = (none, { s with
      bus := s.bus.tick
      scratch1 := copy s.scratch1 0 (s.disk d) (b * s.e4.blockSize)
        (s.movedOctets s.bus.ios b) }) := by
    have hfails : s.succeeds s.bus.ios b = false := by rw [quiet.kept.succeeds, lost]
    simp only [Fs.readScratch1, hs.read hbelow, hfails, Bool.false_eq_true, if_false]
  refine ⟨(readScratch1 b s).2, quiet.trans (readScratch1_quiet b s), ?_, ?_⟩
  · rw [hread]
    rfl
  · rw [Fs.emptyFrom, Cmd.attempt_bind, map]
    simp only [if_neg filled]
    rw [Cmd.attempt_bind, hread]

end

/-- What the loop needs of the blocks from `bi` on. -/
def MappedFrom (w : World) (din : Bytes) (bi : Nat) (blocks : List Nat) : Prop :=
  ∀ i b, blocks[i]? = some b → b < w.e4.blocksCount ∧
    ∀ s : World, s.e4 = w.e4 → e4Bmap din (bi + i) s = (some b, s)

theorem MappedFrom.head {b : Nat} {rest : List Nat} (maps : MappedFrom w din bi (b :: rest)) :
    b < w.e4.blocksCount ∧ ∀ s : World, s.e4 = w.e4 → e4Bmap din bi s = (some b, s) :=
  maps 0 b rfl

theorem MappedFrom.tail {b : Nat} {rest : List Nat} (maps : MappedFrom w din bi (b :: rest)) :
    MappedFrom w din (bi + 1) rest := by
  intro i c found
  rw [Nat.add_right_comm, Nat.add_assoc]
  exact maps (i + 1) c found

theorem World.PlainBlocks.maps (size : w.e4.blockSize ∈ [1024, 2048, 4096, 8192])
    (plain : w.PlainBlocks d din blocks) : MappedFrom w din 0 blocks := by
  intro i b found
  refine ⟨plain.inside b (List.mem_of_getElem? found), fun s same => ?_⟩
  rw [Nat.zero_add]
  exact (plain.plain i b found).e4Bmap size (plain.place i b found) same

theorem MappedFrom.emptyFrom_hole {rest : List Nat} (maps : MappedFrom w din bi (0 :: rest))
    (quiet : Quiet w s) : emptyFrom din (more + 1) bi s = emptyFrom din more (bi + 1) s := by
  rw [emptyFrom, Cmd.attempt_bind, maps.head.2 s quiet.e4]
  rfl

theorem Mounted.emptyFrom_shows (mounted : Mounted w d) (more : Nat) : ∀ blocks bi (s : World),
    Quiet w s → MappedFrom w din bi blocks → w.Shows d s.bus.ios blocks →
      (emptyFrom din (blocks.length + more) bi s).1 = some false := by
  intro blocks
  induction blocks with
  | nil =>
    intro bi s _ _ shows
    exact shows.elim
  | cons b rest ih =>
    intro bi s quiet maps shows
    have hlen : (b :: rest).length + more = rest.length + more + 1 := by
      rw [List.length_cons]
      omega
    obtain ⟨inside, map⟩ := maps.head
    rw [World.Shows] at shows
    rw [hlen]
    by_cases hole : b = 0
    · subst hole
      rw [if_pos rfl] at shows
      rw [maps.emptyFrom_hole quiet]
      exact ih (bi + 1) s quiet maps.tail shows
    · rw [if_neg hole] at shows
      cases reads : w.succeeds s.bus.ios b with
      | true =>
        obtain ⟨s', blk, quiet', ios, agree, turn⟩ := mounted.emptyFrom_read quiet
          (rest.length + more) inside hole (map s quiet.e4) reads
        rw [turn]
        rcases shows with ⟨-, off, live⟩ | later
        · rw [(live.congr agree).seen]
          rfl
        · split
          · rw [← ios] at later
            exact ih (bi + 1) s' quiet' maps.tail later
          · rfl
      | false =>
        obtain ⟨s', quiet', ios, turn⟩ := mounted.emptyFrom_unread quiet
          (rest.length + more) inside hole (map s quiet.e4) reads
        rw [turn]
        rcases shows with ⟨succeeds, -⟩ | later
        · rw [reads] at succeeds
          cases succeeds
        · rw [← ios] at later
          exact ih (bi + 1) s' quiet' maps.tail later

theorem Mounted.emptyFrom_bare (mounted : Mounted w d) : ∀ blocks bi (s : World),
    Quiet w s → MappedFrom w din bi blocks →
      (∀ b ∈ blocks, NamesInside w.e4.blockSize (blockAt (w.disk d) w.e4.blockSize b)) →
      ¬ w.Shows d s.bus.ios blocks → (emptyFrom din blocks.length bi s).1 = some true := by
  intro blocks
  induction blocks with
  | nil =>
    intro bi s _ _ _ _
    rfl
  | cons b rest ih =>
    intro bi s quiet maps names bare
    have later : ∀ c ∈ rest, NamesInside w.e4.blockSize (blockAt (w.disk d) w.e4.blockSize c) :=
      fun c hc => names c (List.mem_cons_of_mem b hc)
    obtain ⟨inside, map⟩ := maps.head
    rw [World.Shows] at bare
    rw [List.length_cons]
    by_cases hole : b = 0
    · subst hole
      rw [if_pos rfl] at bare
      rw [maps.emptyFrom_hole quiet]
      exact ih (bi + 1) s quiet maps.tail later bare
    · rw [if_neg hole, not_or] at bare
      cases reads : w.succeeds s.bus.ios b with
      | true =>
        obtain ⟨s', blk, quiet', ios, agree, turn⟩ := mounted.emptyFrom_read quiet
          rest.length inside hole (map s quiet.e4) reads
        rw [turn]
        split
        · rw [← ios] at bare
          exact ih (bi + 1) s' quiet' maps.tail later bare.2
        next stops =>
          have inside := (names b List.mem_cons_self).congr agree
          obtain ⟨off, live⟩ := inside.live _ 0 DirRecordAt.first (by simpa using stops)
          have back : Agree (blockAt (w.disk d) w.e4.blockSize b) blk 0 w.e4.blockSize :=
            fun i lo hi => (agree i lo hi).symm
          exact absurd ⟨reads, off, live.congr back⟩ bare.1
      | false =>
        obtain ⟨s', quiet', ios, turn⟩ := mounted.emptyFrom_unread quiet
          rest.length inside hole (map s quiet.e4) reads
        rw [turn]
        rw [← ios] at bare
        exact ih (bi + 1) s' quiet' maps.tail later bare.2

/-! ## The answer -/

/-- The record of an inode on the disk, as it comes to a buffer on the stack. -/
def World.inodeRecord (w : World) (d ino : Nat) : Bytes :=
  copy w.stackJunk 0 (w.disk d) (w.e4.inodeAt ino) w.e4.inodeSize

/-- The directory is reported empty only if it is. -/
def EmptyRight (w : World) (d ino : Nat) : Prop :=
  (e4DirEmpty ino w).1 = some true → ¬ HoldsLive w d (w.inodeRecord d ino)

/-- If the directory holds a live entry and its inode can be read, one of the given blocks that
are read holds a live entry. -/
def EntryRead (w : World) (d ino : Nat) (blocks : List Nat) : Prop :=
  HoldsLive w d (w.inodeRecord d ino) → w.succeeds w.bus.ios (w.e4.inodeBlk ino) = true →
    w.Shows d (w.bus.ios + 1) blocks

section
variable (mounted : Mounted w d) (inside : RecordInside w.e4 ino) (one : w.e4.inOneBlock ino)
include mounted inside one

theorem Mounted.readInode (reads : w.succeeds w.bus.ios (w.e4.inodeBlk ino) = true) :
    ∃ s, Quiet w s ∧ s.bus.ios = w.bus.ios + 1 ∧
      e4ReadInode ino w.stackJunk w = (some (w.inodeRecord d ino), s) := by
  have hread : readScratch1 (w.e4.inodeBlk ino) w = (some (), { w with
      bus := w.bus.tick
      scratch1 := copy w.scratch1 0 (w.disk d) (w.e4.inodeBlk ino * w.e4.blockSize)
        w.e4.blockSize }) := by
    simp only [Fs.readScratch1, mounted.read inside.first, reads, movedOctets_succeeds reads,
      if_true]
  refine ⟨(readScratch1 (w.e4.inodeBlk ino) w).2, readScratch1_quiet _ _, ?_, ?_⟩
  · rw [hread]
    rfl
  · rw [e4ReadInode_eq inside.present, Cmd.bind_some hread, if_pos one, Cmd.get_bind, hread]
    simp only [copy_of_copy _ _ _ _ _ (inside.inOneBlock.mp one)]
    rfl

theorem Mounted.e4DirEmpty_eq (reads : w.succeeds w.bus.ios (w.e4.inodeBlk ino) = true) :
    ∃ s, Quiet w s ∧ s.bus.ios = w.bus.ios + 1 ∧ Fs.e4DirEmpty ino w =
      emptyFrom (w.inodeRecord d ino) (w.e4.nblocks (w.inodeRecord d ino)) 0 s := by
  obtain ⟨s, quiet, ios, read⟩ := mounted.readInode inside one reads
  refine ⟨s, quiet, ios, ?_⟩
  rw [Fs.e4DirEmpty, Cmd.get_bind, Cmd.attempt_bind, read]
  simp only [Cmd.get_bind, quiet.e4]

end

theorem Mounted.e4DirEmpty_unread (mounted : Mounted w d) (inside : RecordInside w.e4 ino)
    (lost : w.succeeds w.bus.ios (w.e4.inodeBlk ino) = false) :
    (Fs.e4DirEmpty ino w).1 = some false := by
  have hread : e4ReadInode ino w.stackJunk w = (none, (readScratch1 (w.e4.inodeBlk ino) w).2) := by
    have fails : (readScratch1 (w.e4.inodeBlk ino) w).1 = none := by
      simp only [Fs.readScratch1, mounted.read inside.first, lost, Bool.false_eq_true, if_false]
    rw [e4ReadInode_eq inside.present]
    exact Cmd.bind_none (Prod.ext fails rfl)
  rw [Fs.e4DirEmpty, Cmd.get_bind, Cmd.attempt_bind, hread]
  rfl

theorem lt_nblocks (dir : e4IsDir din = true) (size : e4.blockSize ∈ [1024, 2048, 4096, 8192])
    {logical : Nat} (inside : logical * e4.blockSize < e4InodeSize e4 din) :
    logical < e4.nblocks din := by
  have hsmall : e4InodeSize e4 din < 4294967296 := by
    rw [e4InodeSize, if_pos dir]
    exact get32_lt _ _
  have hcases := supported_cases size
  have hsum : u64 (e4InodeSize e4 din + e4.blockSize - 1) = e4InodeSize e4 din + e4.blockSize - 1 :=
    u64_of_lt (by omega)
  rw [Ext4Fs.nblocks]
  apply (Nat.le_div_iff_mul_le (by omega)).mpr
  rw [Nat.succ_mul]
  omega

theorem shows_of_mem (healthy : ∀ n b, w.succeeds n b = true) {b off : Nat} (filled : b ≠ 0)
    (live : LiveAt w.e4.blockSize (blockAt (w.disk d) w.e4.blockSize b) off) :
    ∀ blocks n, b ∈ blocks → w.Shows d n blocks := by
  intro blocks
  induction blocks with
  | nil =>
    intro n member
    cases member
  | cons c rest ih =>
    intro n member
    rw [World.Shows]
    rcases List.mem_cons.mp member with rfl | later
    · rw [if_neg filled]
      exact Or.inl ⟨healthy n b, off, live⟩
    · split
      · exact ih n later
      · exact Or.inr (ih (n + 1) later)

theorem World.PlainBlocks.shows (size : w.e4.blockSize ∈ [1024, 2048, 4096, 8192])
    (plain : w.PlainBlocks d din blocks) (dir : e4IsDir din = true)
    (whole : blocks.length = w.e4.nblocks din) (healthy : ∀ n b, w.succeeds n b = true)
    (holds : HoldsLive w d din) (n : Nat) : w.Shows d n blocks := by
  obtain ⟨logical, phys, off, inside, place, filled, live⟩ := holds
  have hlt : logical < blocks.length := by
    rw [whole]
    exact lt_nblocks dir size inside
  have found : blocks[logical]? = some blocks[logical] := List.getElem?_eq_getElem hlt
  have same : blocks[logical] = phys := by
    have named := plain.plain _ _ found
    have there := named.e4Bmap size (plain.place _ _ found) (rfl : w.e4 = w.e4)
    rw [named.e4Bmap size place (rfl : w.e4 = w.e4)] at there
    exact (Option.some.inj (congrArg Prod.fst there)).symm
  refine shows_of_mem healthy filled live blocks n ?_
  rw [← same]
  exact List.getElem_mem hlt

/-- Whatever the pattern of failures is and however the directory is mapped: the answer is right
if, among the first blocks that the inode names itself, one that is read holds a live entry.
If these are all the blocks, that is what it takes, and without failures it is so. -/
theorem dir_empty_right_iff (mounted : Mounted w d)
    (size : w.e4.blockSize ∈ [1024, 2048, 4096, 8192]) (inside : RecordInside w.e4 ino)
    (one : w.e4.inOneBlock ino) (plain : w.PlainBlocks d (w.inodeRecord d ino) blocks) :
    (EntryRead w d ino blocks → EmptyRight w d ino) ∧
    (blocks.length = w.e4.nblocks (w.inodeRecord d ino) →
      ((∀ b ∈ blocks, NamesInside w.e4.blockSize (blockAt (w.disk d) w.e4.blockSize b)) →
        (EmptyRight w d ino ↔ EntryRead w d ino blocks)) ∧
      (e4IsDir (w.inodeRecord d ino) = true → (∀ n b, w.succeeds n b = true) →
        EmptyRight w d ino)) := by
  have maps := plain.maps size
  have few := plain.few
  have enough : EntryRead w d ino blocks → EmptyRight w d ino := by
    intro entry empty holds
    cases reads : w.succeeds w.bus.ios (w.e4.inodeBlk ino) with
    | true =>
      obtain ⟨s, quiet, ios, run⟩ := mounted.e4DirEmpty_eq inside one reads
      have shows := entry holds reads
      rw [← ios] at shows
      obtain ⟨more, count⟩ : ∃ more, w.e4.nblocks (w.inodeRecord d ino) = blocks.length + more :=
        ⟨_, (Nat.add_sub_cancel' few).symm⟩
      rw [run, count, mounted.emptyFrom_shows more blocks 0 s quiet maps shows] at empty
      cases empty
    | false =>
      rw [mounted.e4DirEmpty_unread inside reads] at empty
      cases empty
  refine ⟨enough, fun whole => ⟨fun names => ⟨fun right holds reads => ?_, enough⟩, ?_⟩⟩
  · by_contra bare
    obtain ⟨s, quiet, ios, run⟩ := mounted.e4DirEmpty_eq inside one reads
    rw [← ios] at bare
    refine right ?_ holds
    rw [run, ← whole]
    exact mounted.emptyFrom_bare blocks 0 s quiet maps names bare
  · intro dir healthy
    exact enough fun holds _ => plain.shows size dir whole healthy holds _

/-! ## Directories with an entry -/

/-- Transfers up to number `n` succeed, no others. -/
def failsFrom (n : Nat) : Nat → Nat → Option Nat := fun k _ => if k < n then none else some 0

/-- `sampleDirWorld` with another disk. -/
def dirWorldOn (disk : Bytes) : World :=
  { sampleDirWorld with bus := ⟨fun _ => ⟨128, true, true, disk⟩, 1, fun _ _ => none, 0⟩ }

def dirInodeOn (disk : Bytes) : Bytes := copy zero 0 disk 5376 256

variable (disk : Bytes)

theorem dirWorldOn_e4 : (dirWorldOn disk).e4 = sampleDirWorld.e4 := rfl

theorem dirWorldOn_transfers : Transfers (dirWorldOn disk) 0 :=
  ⟨rfl, rfl, rfl, rfl, fun _ _ => rfl, (by decide : 0 < 2), (by decide : 1024 = 2 * 512),
    Or.inr (by decide : 64 * 2 ≤ 128), (by decide : 64 * 2 < 18446744073709551616)⟩

theorem dirWorldOn_mounted : Mounted (dirWorldOn disk) 0 := (dirWorldOn_transfers disk).mounted

theorem dirWorldOn_record : RecordInside (dirWorldOn disk).e4 2 := by
  rw [dirWorldOn_e4]
  constructor <;> decide

theorem dirWorldOn_inode : (dirWorldOn disk).inodeRecord 0 2 = dirInodeOn disk := by
  have hplace : sampleDirWorld.e4.inodeAt 2 = 5376 := by decide
  have hsize : sampleDirWorld.e4.inodeSize = 256 := by decide
  rw [World.inodeRecord, dirWorldOn_e4, hplace, hsize]
  rfl

theorem dirWorldOn_found :
    (e4ReadInode 2 (dirWorldOn disk).stackJunk ((dirWorldOn disk).withFaults fun _ _ => none)).1 =
      some (dirInodeOn disk) := by
  have transfers : Transfers ((dirWorldOn disk).withFaults fun _ _ => none) 0 :=
    dirWorldOn_mounted disk
  have inside : RecordInside ((dirWorldOn disk).withFaults fun _ _ => none).e4 2 :=
    dirWorldOn_record disk
  obtain ⟨w', hread, -⟩ := transfers.readInode inside (dirWorldOn disk).stackJunk
  rw [hread]
  exact congrArg some (dirWorldOn_inode disk)

/-- A tree of depth 1: the leaf in block 12 names block 10. -/
def deepDirDisk : Bytes :=
  let d := put16 sampleDirDisk (5 * 1024 + 256 + 0x2E) 1
  let d := put16 d (5 * 1024 + 256 + 0x38) 12
  let d := put32 d (5 * 1024 + 256 + 0x3C) 0
  let d := put16 d (12 * 1024) extentMagic
  let d := put16 d (12 * 1024 + 2) 1
  let d := put16 d (12 * 1024 + 4) 84
  let d := put16 d (12 * 1024 + 16) 1
  put32 d (12 * 1024 + 20) 10

theorem sampleDir_live (same : Agree disk sampleDirDisk 10240 11264)
    (inside : 0 < Ino.sizeLo (dirInodeOn disk)) (dir : e4IsDir (dirInodeOn disk) = true)
    (place : FileBlock (dirWorldOn disk) 0 (dirInodeOn disk) 0 10) :
    HoldsLive (dirWorldOn disk) 0 (dirInodeOn disk) := by
  have hlive : LiveAt 1024 (blockAt sampleDirDisk 1024 10) 0 := by
    constructor
    · exact DirRecordAt.first (by constructor <;> decide)
    all_goals decide
  refine ⟨0, 10, 0, ?_, place, by decide, ?_⟩
  · rw [e4InodeSize, if_pos dir]
    exact inside
  · have hsize : (dirWorldOn disk).e4.blockSize = 1024 := rfl
    rw [hsize]
    apply LiveAt.congr _ hlive
    intro i _ hi
    exact same _ (by omega) (by omega)

theorem sampleDir_place : FileBlock (dirWorldOn disk) 0 (dirInodeOn sampleDirDisk) 0 10 := by
  have extents : Ino.flags (dirInodeOn sampleDirDisk) &&& inoFlagExtents ≠ 0 := by decide
  have hdepth : Eh.depth (dirInodeOn sampleDirDisk) Ino.root = 0 := by decide
  rw [FileBlock, if_pos extents, Mapped, hdepth]
  refine Or.inl ⟨0, ?_, by decide, by decide⟩
  unfold Covering
  decide

theorem sampleDir_holds : HoldsLive (dirWorldOn sampleDirDisk) 0 (dirInodeOn sampleDirDisk) :=
  sampleDir_live sampleDirDisk (Agree.refl _ _ _) (by decide) (by decide)
    (sampleDir_place sampleDirDisk)

theorem deepDir_holds : HoldsLive (dirWorldOn deepDirDisk) 0 (dirInodeOn deepDirDisk) := by
  have hsame : Agree deepDirDisk sampleDirDisk 10240 11264 := by
    have hput : ∀ (b : Bytes) (i v : Nat), i + 4 ≤ 10240 ∨ 11264 ≤ i →
        Agree (put16 b i v) b 10240 11264 :=
      fun b i v h => put16_agree b i v _ _ (by omega)
    have hput' : ∀ (b : Bytes) (i v : Nat), i + 4 ≤ 10240 ∨ 11264 ≤ i →
        Agree (put32 b i v) b 10240 11264 :=
      fun b i v h => put32_agree b i v _ _ (by omega)
    refine (hput' _ _ _ (by decide)).trans ?_
    refine (hput _ _ _ (by decide)).trans ?_
    refine (hput _ _ _ (by decide)).trans ?_
    refine (hput _ _ _ (by decide)).trans ?_
    refine (hput _ _ _ (by decide)).trans ?_
    refine (hput' _ _ _ (by decide)).trans ?_
    refine (hput _ _ _ (by decide)).trans ?_
    exact hput _ _ _ (by decide)
  apply sampleDir_live deepDirDisk hsame (by decide) (by decide)
  have hdepth : Eh.depth (dirInodeOn deepDirDisk) Ino.root = 1 := by decide
  rw [FileBlock, Mapped]
  refine ⟨0, ?_, Or.inl ⟨0, ?_, by decide, by decide⟩⟩
  · have hone : Eh.entries (dirInodeOn deepDirDisk) Ino.root = 1 := by decide
    exact ⟨by omega, by decide, by omega⟩
  · unfold Covering
    decide

/-- The same directory with a legacy map: the first pointer names block 10. -/
def legacyDirDisk : Bytes :=
  put32 (put32 sampleDirDisk (5 * 1024 + 256 + 0x20) 0) (5 * 1024 + 256 + 0x28) 10

theorem legacyDir_place :
    FileBlock (dirWorldOn legacyDirDisk) 0 (dirInodeOn legacyDirDisk) 0 10 := by
  have legacy : ¬ (Ino.flags (dirInodeOn legacyDirDisk) &&& inoFlagExtents ≠ 0) := by decide
  rw [FileBlock, if_neg legacy]
  decide

theorem legacyDir_holds : HoldsLive (dirWorldOn legacyDirDisk) 0 (dirInodeOn legacyDirDisk) := by
  have hsame : Agree legacyDirDisk sampleDirDisk 10240 11264 :=
    (put32_agree _ _ _ _ _ (by omega)).trans (put32_agree _ _ _ _ _ (by omega))
  exact sampleDir_live legacyDirDisk hsame (by decide) (by decide) legacyDir_place

theorem plainBlocks_ten (few : 1 ≤ (dirWorldOn disk).e4.nblocks (dirInodeOn disk))
    (plain : PlainAt (dirWorldOn disk).e4 (dirInodeOn disk) 0)
    (place : FileBlock (dirWorldOn disk) 0 (dirInodeOn disk) 0 10) :
    (dirWorldOn disk).PlainBlocks 0 ((dirWorldOn disk).inodeRecord 0 2) [10] := by
  have only : ∀ i b, [10][i]? = some b → i = 0 ∧ b = 10 := by
    intro i b found
    cases i with
    | zero => exact ⟨rfl, (Option.some.inj found).symm⟩
    | succ i => cases found
  rw [dirWorldOn_inode]
  constructor
  · exact few
  · intro i b found
    rw [(only i b found).1]
    exact plain
  · intro i b found
    rw [(only i b found).1, (only i b found).2]
    exact place
  · intro b member
    rw [List.mem_singleton.mp member]
    exact (by decide : 10 < 64)

theorem dir_empty_right_iff_legacy :
    HoldsLive (dirWorldOn legacyDirDisk) 0 (dirInodeOn legacyDirDisk) ∧
      (e4DirEmpty 2 (dirWorldOn legacyDirDisk)).1 ≠ some true := by
  have legacy : ¬ (Ino.flags (dirInodeOn legacyDirDisk) &&& inoFlagExtents ≠ 0) := by decide
  have direct : PlainAt (dirWorldOn legacyDirDisk).e4 (dirInodeOn legacyDirDisk) 0 := by
    rw [PlainAt, if_neg legacy]
    decide
  have plain := plainBlocks_ten legacyDirDisk (by decide) direct legacyDir_place
  have right := ((dir_empty_right_iff (dirWorldOn_mounted legacyDirDisk) (by decide)
    (dirWorldOn_record legacyDirDisk) (by decide) plain).2 (by decide)).2 (by decide)
    (fun _ _ => rfl)
  exact ⟨legacyDir_holds, fun empty => right empty legacyDir_holds⟩

/-- The only block of the first directory cannot be read; the second one has a tree of depth 1
and no transfer fails. Both hold the entry `a` and are reported empty. -/
theorem full_directories_reported_empty :
    HoldsLive (dirWorldOn sampleDirDisk) 0 (dirInodeOn sampleDirDisk) ∧
    (e4DirEmpty 2 ((dirWorldOn sampleDirDisk).withFaults (failsFrom 1))).1 = some true ∧
    HoldsLive (dirWorldOn deepDirDisk) 0 (dirInodeOn deepDirDisk) ∧
    (e4DirEmpty 2 ((dirWorldOn deepDirDisk).withFaults fun _ _ => none)).1 = some true :=
  ⟨sampleDir_holds, by decide, deepDir_holds, by decide⟩

end Obsidian.Fs
