import Obsidian.Fs.DirEmpty
import Obsidian.Fs.FileApi

/-!
# Listing a directory

Source: fs/ext4_mount.c, `list_cb` and `ext4_listdir`. The callback stops the iteration at
the first entry that finds `out` full, with the value that `ext4_listdir` takes for an error.
The entries of a directory are read off its blocks on the disk.
-/
namespace Obsidian.Fs
open Lib Lib.Bytes

/-- What `list_cb` stores of an entry: the name goes over as a string. -/
def DirEntry.listed (e : DirEntry) : DirEntry := { e with name := e.name.takeWhile (· ≠ 0) }

/-- `list_cb`; the context is the first `n` entries of `out`. -/
def listCb (max : Int) : DirCb (List DirEntry) := fun name ino type out =>
  if max ≤ out.length then (1, out) else (0, out ++ [DirEntry.listed ⟨name, ino, type⟩])

/-- `ext4_listdir`: the return value and the entries stored in `out`. -/
def ext4Listdir (lookup : Lookup) (path : List UInt8) (max : Int) :
    Cmd World (Int × List DirEntry) := do
  let w ← Cmd.get
  if w.e4.dev = none ∨ max ≤ 0 then pure (-1, [])
  else do
    match ← Cmd.attempt (resolveFull lookup path) with
    | none => pure (-1, [])
    | some d => do
      let r ← e4IterateDir d (listCb max) []
      pure (if r.1 ≠ 0 then -1 else r.2.length, r.2)

/-- Along a list of entries the callback stores what there is room for, and stops if that is
not all of it. -/
theorem runCb_list (max : Nat) (entries out : List DirEntry) (room : out.length ≤ max) :
    runCb (listCb max) entries out =
      (if out.length + entries.length ≤ max then 0 else 1,
        out ++ (entries.take (max - out.length)).map DirEntry.listed) := by
  induction entries generalizing out with
  | nil =>
    rw [runCb, List.take_nil, List.map_nil, List.append_nil, List.length_nil, Nat.add_zero,
      if_pos room]
  | cons e rest ih =>
    rw [runCb, listCb]
    by_cases full : (max : Int) ≤ out.length
    · have none_left : max - out.length = 0 := by omega
      have more : ¬ out.length + (e :: rest).length ≤ max := by
        rw [List.length_cons]
        omega
      rw [if_pos full, if_neg more, none_left]
      simp
    · have stored : (out ++ [e.listed]).length = out.length + 1 := by
        rw [List.length_append, List.length_singleton]
      have left : max - out.length = max - (out.length + 1) + 1 := by omega
      have count : out.length + 1 + rest.length = out.length + (e :: rest).length := by
        rw [List.length_cons]
        omega
      have next := ih (out ++ [e.listed]) (by omega)
      rw [stored, count] at next
      rw [if_neg full, left, List.take_succ_cons, List.map_cons]
      simp only [ne_eq, not_true_eq_false, if_false]
      rw [next, List.append_assoc, List.singleton_append]

/-! ## The entries of a directory -/

/-- The records from `d` on fill the block; the list is where they start. -/
inductive Records (bs : Nat) (blk : Bytes) : Nat → List Nat → Prop where
  | done : Records bs blk bs []
  | record {d : Nat} {rest : List Nat} : DirRecord bs blk d →
      Records bs blk (d + De.recLen blk d) rest → Records bs blk d (d :: rest)

/-- The entry of a record, if it is in use. -/
def entryAt (blk : Bytes) (d : Nat) : Option DirEntry :=
  if De.inode blk d = 0 then none else some ⟨De.name blk d, De.inode blk d, De.fileType blk d⟩

/-- The name of an entry in use is inside its record, and its inode exists. -/
def EntryOk (e4 : Ext4Fs) (blk : Bytes) (d : Nat) : Prop :=
  De.inode blk d ≠ 0 → 0 < De.nameLen blk d ∧ 8 + De.nameLen blk d ≤ De.recLen blk d ∧
    De.inode blk d ≤ e4.inodesCount

/-- A block filled with records, with these entries in use. -/
def BlockHolds (e4 : Ext4Fs) (blk : Bytes) (entries : List DirEntry) : Prop :=
  ∃ offs, Records e4.blockSize blk 0 offs ∧ (∀ d ∈ offs, EntryOk e4 blk d) ∧
    entries = offs.filterMap (entryAt blk)

/-- The entries in use of a list of blocks, in order; 0 is a hole. -/
def World.Holds (w : World) (d : Nat) : List Nat → List DirEntry → Prop
  | [], entries => entries = []
  | b :: rest, entries =>
    if b = 0 then w.Holds d rest entries
    else ∃ here later, BlockHolds w.e4 (blockAt (w.disk d) w.e4.blockSize b) here ∧
      w.Holds d rest later ∧ entries = here ++ later

/-- A directory that can be read, in blocks that its inode names itself, with its entries in
use. -/
structure Listable (w : World) (d ino : Nat) (blocks : List Nat) (entries : List DirEntry) :
    Prop where
  healthy : Transfers w d
  size : w.e4.blockSize ∈ [1024, 2048, 4096, 8192]
  inside : RecordInside w.e4 ino
  dir : e4IsDir (w.inodeRecord d ino) = true
  plain : w.PlainBlocks d (w.inodeRecord d ino) blocks
  whole : blocks.length = w.e4.nblocks (w.inodeRecord d ino)
  holds : w.Holds d blocks entries

section
variable {e4 : Ext4Fs} {blk blk' : Bytes} {κ : Type}

theorem Records.nil_of_end {offs : List Nat} (records : Records e4.blockSize blk d offs)
    (last : e4.blockSize ≤ d) : offs = [] := by
  cases records with
  | done => rfl
  | record here _ =>
    have := here.header
    omega

theorem Records.scan (agree : Agree blk' blk 0 e4.blockSize) (cb : DirCb κ) {offs : List Nat}
    (records : Records e4.blockSize blk d offs) : ∀ fuel ctx, e4.blockSize ≤ d + fuel →
      (∀ off ∈ offs, EntryOk e4 blk off) →
        scanDirentBlock e4 blk' cb fuel d ctx = runCb cb (offs.filterMap (entryAt blk)) ctx := by
  induction records with
  | done =>
    intro fuel ctx _ _
    cases fuel with
    | zero => rfl
    | succ fuel =>
      rw [scanDirentBlock, if_pos (by omega)]
      rfl
  | @record d rest here later ih =>
    intro fuel ctx enough ok
    have hheader := here.header
    have hfilled := here.filled
    obtain ⟨more, rfl⟩ : ∃ more, fuel = more + 1 := ⟨fuel - 1, by omega⟩
    have next := fun ctx => ih more ctx (by omega) fun off hoff =>
      ok off (List.mem_cons_of_mem d hoff)
    have sound := ok d List.mem_cons_self
    rw [scanDirentBlock]
    simp only [DirRecord.recLen_congr agree hheader, DirRecord.nameLen_congr agree hheader,
      DirRecord.inode_congr agree hheader]
    rw [if_neg (by omega), if_neg here.passes]
    by_cases unused : De.inode blk d = 0
    · rw [List.filterMap_cons_none (by rw [entryAt, if_pos unused])]
      split
      next whole =>
        -- a record as long as the block is the only one
        have hinside := here.inside
        rw [later.nil_of_end (by omega)]
        rfl
      · exact next ctx
    · obtain ⟨named, fits, present⟩ := sound unused
      have htype : De.fileType blk' d = De.fileType blk d :=
        get8_congr fun i _ hi => agree i (by omega) (by omega)
      have hentry : entryAt blk d =
          some ⟨De.name blk d, De.inode blk d, De.fileType blk d⟩ := by
        rw [entryAt, if_neg unused]
      rw [if_neg (by omega), if_neg unused, if_neg (by omega), List.filterMap_cons_some hentry,
        runCb, here.name_congr agree fits, htype]
      split
      · rfl
      · exact next _

end

section
variable {w s : World} {d ino bi : Nat} {din : Bytes} {blocks : List Nat}

theorem Transfers.iterateFrom_block (healthy : Transfers w d) (quiet : Quiet w s) {b more : Nat}
    {here seen : List DirEntry} (inside : b < w.e4.blocksCount) (filled : b ≠ 0)
    (map : e4Bmap din bi s = (some b, s))
    (holds : BlockHolds w.e4 (blockAt (w.disk d) w.e4.blockSize b) here) :
    ∃ s', Quiet w s' ∧ iterateFrom din collectCb (more + 1) bi seen s =
      iterateFrom din collectCb more (bi + 1) (seen ++ here) s' := by
  obtain ⟨offs, records, ok, rfl⟩ := holds
  have hread := (healthy.kept quiet.kept).readScratch1 (by rw [quiet.e4]; exact inside)
  have hscan := records.scan (agree_read s.scratch1 _ _ _) collectCb w.e4.blockSize seen
    (Nat.le_add_left _ _) ok
  rw [runCb_collect] at hscan
  refine ⟨(Fs.readScratch1 b s).2, quiet.trans (readScratch1_quiet b s), ?_⟩
  rw [iterateFrom, Cmd.attempt_bind, map]
  simp only [if_neg filled]
  rw [Cmd.attempt_bind, hread]
  simp only [Cmd.get_bind, quiet.e4, quiet.disk, hscan, ne_eq, not_true_eq_false, if_false]

theorem Transfers.iterateFrom_holds (healthy : Transfers w d) :
    ∀ blocks bi (s : World) entries seen, Quiet w s → MappedFrom w din bi blocks →
      w.Holds d blocks entries →
        (iterateFrom din collectCb blocks.length bi seen s).1 = some (0, seen ++ entries) := by
  intro blocks
  induction blocks with
  | nil =>
    intro bi s entries seen _ _ holds
    rw [World.Holds] at holds
    rw [holds, List.append_nil]
    rfl
  | cons b rest ih =>
    intro bi s entries seen quiet maps holds
    obtain ⟨inside, map⟩ := maps.head
    rw [World.Holds] at holds
    rw [List.length_cons]
    by_cases hole : b = 0
    · subst hole
      rw [if_pos rfl] at holds
      rw [iterateFrom, Cmd.attempt_bind, map s quiet.e4]
      exact ih (bi + 1) s entries seen quiet maps.tail holds
    · rw [if_neg hole] at holds
      obtain ⟨here, later, block, behind, rfl⟩ := holds
      obtain ⟨s', quiet', turn⟩ := healthy.iterateFrom_block quiet inside hole
        (map s quiet.e4) block
      rw [turn, ih (bi + 1) s' later (seen ++ here) quiet' maps.tail behind, List.append_assoc]

/-- What the iteration presents of a directory that can be read is what is on the disk. -/
theorem Listable.presented {entries : List DirEntry} (list : Listable w d ino blocks entries) :
    Iterable ino w ∧ Fs.presented ino w = entries := by
  obtain ⟨s, read, quiet⟩ : ∃ s, e4ReadInode ino w.stackJunk w =
      (some (w.inodeRecord d ino), s) ∧ Quiet w s :=
    list.healthy.readInode list.inside w.stackJunk
  have run : (e4IterateDir ino collectCb [] w).1 = some (0, entries) := by
    have shown := list.healthy.iterateFrom_holds blocks 0 s entries [] quiet
      (list.plain.maps list.size) list.holds
    rw [list.whole, Ext4Fs.nblocks, List.nil_append] at shown
    rw [e4IterateDir, Cmd.get_bind, Cmd.attempt_bind, read]
    simp only [list.dir, Bool.true_eq_false, if_false, Cmd.get_bind, quiet.e4]
    exact shown
  constructor
  · rw [Iterable, run]
    rfl
  · rw [Fs.presented, run]

end

/-! ## The listing -/

theorem ext4Listdir_eq {w s : World} {lookup : Lookup} {path : List UInt8} {max d : Nat}
    (mounted : w.e4.dev ≠ none) (found : resolveFull lookup path w = (some d, s))
    (readable : Iterable d s) (positive : 0 < max) :
    (ext4Listdir lookup path max w).1 =
      some (if (presented d s).length ≤ max then ((presented d s).length : Int) else -1,
        ((presented d s).take max).map DirEntry.listed) := by
  have admitted : ¬ (w.e4.dev = none ∨ (max : Int) ≤ 0) := by
    rw [not_or]
    exact ⟨mounted, by omega⟩
  have listed := e4IterateDir_eq readable (listCb max) []
  rw [runCb_list max (presented d s) [] (Nat.zero_le max), List.length_nil] at listed
  unfold ext4Listdir
  rw [Cmd.get_bind, if_neg admitted, Cmd.attempt_bind, found]
  generalize presented d s = entries at *
  cases run : e4IterateDir d (listCb max) [] s with
  | mk r t =>
    rw [run] at listed
    dsimp only at listed
    rw [listed] at run
    dsimp only
    rw [Cmd.bind_some run]
    by_cases fits : entries.length ≤ max
    · simp [fits, List.take_of_length_le fits]
    · simp [fits]

/-- For a directory that can be read in blocks named by its inode: the listing returns the
smaller one of the number of its entries and `max`, with that many entries in `out`, just when
`max` is not exceeded. -/
theorem listdir_fills_iff (lookup : Lookup) (path : List UInt8) (w s : World) (max d ino : Nat)
    (blocks : List Nat) (entries : List DirEntry) (mounted : w.e4.dev ≠ none)
    (found : resolveFull lookup path w = (some ino, s)) (list : Listable s d ino blocks entries)
    (positive : 0 < max) :
    (ext4Listdir lookup path max w).1 = some (((min entries.length max : Nat) : Int),
        (entries.take (min entries.length max)).map DirEntry.listed) ↔ entries.length ≤ max := by
  obtain ⟨readable, shown⟩ := list.presented
  rw [ext4Listdir_eq mounted found readable positive, shown]
  constructor
  · intro returned
    by_contra more
    have value := congrArg (fun r : Option (Int × List DirEntry) => r.map Prod.fst) returned
    simp only [Option.map_some, Option.some.injEq] at value
    rw [if_neg more] at value
    omega
  · intro fits
    rw [Nat.min_eq_left fits, if_pos fits, List.take_of_length_le fits, List.take_length]

theorem listable_ten {disk : Bytes} {entries : List DirEntry}
    (same : Agree disk sampleDirDisk 5376 5632)
    (holds : BlockHolds (dirWorldOn disk).e4 (blockAt disk 1024 10) entries) :
    Listable (dirWorldOn disk) 0 2 [10] entries := by
  have hinode : dirInodeOn disk = dirInodeOn sampleDirDisk := by
    funext j
    unfold dirInodeOn copy
    split
    · exact same _ (by omega) (by omega)
    · rfl
  have hone : Eh.entries (dirInodeOn sampleDirDisk) Ino.root = 1 := by decide
  have plain : PlainAt (dirWorldOn disk).e4 (dirInodeOn sampleDirDisk) 0 := by
    have extents : Ino.flags (dirInodeOn sampleDirDisk) &&& inoFlagExtents ≠ 0 := by decide
    rw [PlainAt, if_pos extents]
    refine ⟨by decide, by decide, ?_, fun i covering => ?_⟩
    · exact (leafOk_single hone (by decide) (by decide) (by decide)).toLeafOrdered
    · have hi := covering.1
      have hzero : i = 0 := by omega
      rw [hzero]
      decide
  have hplain := plainBlocks_ten disk (by rw [hinode, dirWorldOn_e4]; decide)
    (by rw [hinode]; exact plain) (by rw [hinode]; exact sampleDir_place disk)
  refine ⟨dirWorldOn_transfers disk, ?_, dirWorldOn_record disk, ?_, hplain, ?_,
    entries, [], holds, rfl, (List.append_nil _).symm⟩
  · rw [dirWorldOn_e4]
    decide
  · rw [dirWorldOn_inode, hinode]
    decide
  · rw [dirWorldOn_inode, hinode, dirWorldOn_e4]
    decide

theorem listdir_fills_iff_root :
    (ext4Listdir e4DirLookup [slash] 1 sampleDirWorld).1 = some (1, [⟨[97], 11, 1⟩]) := by
  have holds : BlockHolds (dirWorldOn sampleDirDisk).e4 (blockAt sampleDirDisk 1024 10)
      [⟨[97], 11, 1⟩] := by
    refine ⟨[0], Records.record (by constructor <;> decide) Records.done, ?_, by decide⟩
    intro d member
    rw [List.mem_singleton.mp member]
    unfold EntryOk
    decide
  exact (listdir_fills_iff e4DirLookup [slash] sampleDirWorld sampleDirWorld 1 0 2 [10] _
    (by decide) rfl (listable_ten (Agree.refl _ _ _) holds) (by decide)).2 (by decide)

/-- `a` and `b` in the block of the directory. -/
def twoEntryDisk : Bytes :=
  let d := put16 sampleDirDisk (10 * 1024 + 4) 12
  let d := put32 d (10 * 1024 + 12) 12
  let d := put16 d (10 * 1024 + 16) 1012
  let d := put8 d (10 * 1024 + 18) 1
  let d := put8 d (10 * 1024 + 19) 1
  put8 d (10 * 1024 + 20) 98

theorem twoEntryDisk_listable :
    Listable (dirWorldOn twoEntryDisk) 0 2 [10] [⟨[97], 11, 1⟩, ⟨[98], 12, 1⟩] := by
  apply listable_ten
  · refine (put8_agree _ _ _ _ _ (by omega)).trans ?_
    refine (put8_agree _ _ _ _ _ (by omega)).trans ?_
    refine (put8_agree _ _ _ _ _ (by omega)).trans ?_
    refine (put16_agree _ _ _ _ _ (by omega)).trans ?_
    exact (put32_agree _ _ _ _ _ (by omega)).trans (put16_agree _ _ _ _ _ (by omega))
  · refine ⟨[0, 12], Records.record (by constructor <;> decide)
      (Records.record (by constructor <;> decide) Records.done), ?_, by decide⟩
    intro d member
    unfold EntryOk
    rcases List.mem_pair.mp member with rfl | rfl
    · decide
    · decide

/-- A directory with two entries and room for one: `out` gets the first entry, and the
return value is an error. -/
theorem listing_of_two_in_one :
    Listable (dirWorldOn twoEntryDisk) 0 2 [10] [⟨[97], 11, 1⟩, ⟨[98], 12, 1⟩] ∧
      (ext4Listdir e4DirLookup [slash] 1 (dirWorldOn twoEntryDisk)).1 =
        some (-1, [⟨[97], 11, 1⟩]) :=
  ⟨twoEntryDisk_listable, by decide +kernel⟩

end Obsidian.Fs
