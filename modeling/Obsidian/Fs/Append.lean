import Obsidian.Fs.BlockSeq
import Obsidian.Fs.ExtRuns

/-!
# Appending blocks

What `e4_append_blocks` does, in terms of the block map and of the inode: the blocks
taken are the ones that the allocator returns for the blocks of the file in turn, they
are grouped into maximal runs, and the root of the inode holds either the runs or the
leaves written for them.
-/
namespace Obsidian.Fs
open Lib Lib.Bytes Drivers

variable {w w' : World} {d b g i : Nat} {buf : Bytes} {slots : List (Nat × Nat)}

/-! ## A block taken and written -/

/-- What the data loop and the leaf loop have in common: take a block, prepare its contents
in a buffer, write them. -/
def allocThen (hint : Nat) (prep : Cmd World Bytes) : Cmd World Nat := do
  let blk ← e4AllocBlockNear hint
  let octets ← prep
  e4WriteBlock blk octets
  pure blk

/-- Preparing a buffer always succeeds and changes buffers only. -/
def Prepares (prep : Cmd World Bytes) : Prop :=
  ∀ s, ∃ octets t, prep s = (some octets, t) ∧ Quiet s t

theorem Consistent.allocThen {prep : Cmd World Bytes} (c : Consistent w d)
    (prepares : Prepares prep) (hint : Nat) :
    AllocEnds w d (allocThen hint prep w) (w.choice d hint) := by
  have ends := c.alloc hint
  unfold Fs.allocThen
  cases hpick : w.choice d hint with
  | none =>
    rw [hpick] at ends
    rw [Cmd.bind_none (Prod.ext ends.1 rfl)]
    exact ⟨rfl, ends.2⟩
  | some p =>
    rw [hpick] at ends
    obtain ⟨hout, marked⟩ := ends
    have hblock := c.alloc_some hout
    obtain ⟨octets, t, hprep, quiet⟩ := prepares (e4AllocBlockNear hint w).2
    have hinside : blkOf w.e4 p.1 p.2 < t.e4.blocksCount := by
      rw [quiet.e4, marked.kept.e4]
      exact hblock.2.1
    obtain ⟨w', hwrite, wrote⟩ :=
      (quiet.consistent marked.consistent).transfers.wrote hinside octets
    rw [Cmd.bind_some (Prod.ext hout rfl), Cmd.bind_some hprep, Cmd.bind_some hwrite,
      Cmd.pure_apply]
    exact ⟨rfl, marked.fill c quiet wrote hblock.2.2.1⟩

/-! ## The data -/

/-- Blocks added to runs one after the other, the first as block `done` of the file. -/
def pushAll (runs : List ExtRun) : Nat → List Nat → List ExtRun
  | _, [] => runs
  | done, blk :: rest => pushAll (pushBlock runs blk done) (done + 1) rest

variable {blocks : List Nat} {depth entries : Nat} {a tree : Bytes}

theorem pushAll_coded {first : Nat} {runs : List ExtRun} {more : List Nat}
    (coded : Coded first runs blocks) (short : first + blocks.length + more.length < 4294967296)
    (fits : ∀ b ∈ more, b < 18446744073709551616) :
    Coded first (pushAll runs (first + blocks.length) more) (blocks ++ more) := by
  induction more generalizing runs blocks with
  | nil =>
    rw [List.append_nil]
    exact coded
  | cons blk rest ih =>
    rw [List.length_cons] at short
    have next := pushBlock_coded coded (fits blk List.mem_cons_self) (by omega)
    have hlen : (blocks ++ [blk]).length = blocks.length + 1 := by simp
    have hrest := ih next (by omega) fun b member => fits b (List.mem_cons_of_mem _ member)
    rw [hlen, List.append_assoc] at hrest
    exact hrest

/-- The hints for the blocks of a file, from block `done` on. -/
def Ext4Fs.fileHints (e4 : Ext4Fs) (more done : Nat) : List Nat :=
  (List.range' done more).map fun n => u32 (n / e4.blocksPerGroup)

variable (e4 : Ext4Fs)

theorem Ext4Fs.fileHints_succ (more done : Nat) :
    e4.fileHints (more + 1) done = u32 (done / e4.blocksPerGroup) :: e4.fileHints more
    (done + 1) := by
  unfold Ext4Fs.fileHints
  rw [List.range'_succ, List.map_cons]

theorem Ext4Fs.length_fileHints (more done : Nat) : (e4.fileHints more done).length = more := by
  unfold Ext4Fs.fileHints
  rw [List.length_map, List.length_range']

/-- The contents of block `done` of the file, in the second buffer. -/
def dataBuf (data : Option Bytes) (done : Nat) : Cmd World Bytes := do
  let w ← Cmd.get
  setScratch2 (match data with
    | some octets => copy w.scratch2 0 octets (done * w.e4.blockSize) w.e4.blockSize
    | none => fill w.scratch2 0 w.e4.blockSize 0)
  let w ← Cmd.get
  pure w.scratch2

theorem dataBuf_prepares (data : Option Bytes) (done : Nat) : Prepares (dataBuf data done) := by
  intro s
  exact ⟨_, _, rfl, ⟨rfl, rfl, rfl, rfl⟩⟩

theorem appendLoop_succ (start : Nat) (data : Option Bytes) (more done : Nat) (runs : List ExtRun)
    (w : World) :
    appendLoop start data (more + 1) done runs w =
      (allocThen (u32 (u64 (start + done) / w.e4.blocksPerGroup)) (dataBuf data done) >>= fun blk =>
        appendLoop start data more (done + 1) (pushBlock runs blk (u64 (start + done)))) w := by
  unfold allocThen dataBuf
  simp only [bind_assoc, pure_bind]
  cases data with
  | none => rfl
  | some octets => rfl

/-- The blocks that the allocator returns to the loop of `e4_append_blocks`. -/
def returnedBlocks (start : Nat) (data : Option Bytes) : Nat → Nat → Cmd World (List Nat)
  | 0, _ => pure []
  | more + 1, done => do
    let w ← Cmd.get
    let blk ← allocThen (u32 (u64 (start + done) / w.e4.blocksPerGroup)) (dataBuf data done)
    let rest ← returnedBlocks start data more (done + 1)
    pure (blk :: rest)

variable {data : Option Bytes} {w1 : World}

theorem appendLoop_pushes {start : Nat} {more done : Nat} (runs : List ExtRun)
    (short : start + done + more < 4294967296)
    (returned : (returnedBlocks start data more done w).1 = some blocks) :
    blocks.length = more ∧ (appendLoop start data more done runs w).1 = some
    (pushAll runs (start + done) blocks) := by
  induction more generalizing done blocks runs w with
  | zero =>
    cases returned
    exact ⟨rfl, rfl⟩
  | succ more ih =>
    rw [returnedBlocks, Cmd.get_bind, Cmd.bind_apply] at returned
    rw [appendLoop_succ, Cmd.bind_apply]
    cases taken : allocThen (u32 (u64 (start + done) / w.e4.blocksPerGroup))
      (dataBuf data done) w with
    | mk r t =>
      rw [taken] at returned
      cases r with
      | none => cases returned
      | some blk =>
        dsimp only at returned ⊢
        rw [Cmd.bind_apply] at returned
        cases later : returnedBlocks start data more (done + 1) t with
        | mk r u =>
          rw [later] at returned
          cases r with
          | none => cases returned
          | some rest =>
            cases returned
            have next : start + (done + 1) + more < 4294967296 := by omega
            obtain ⟨count, pushed⟩ := ih (pushBlock runs blk (u64 (start + done))) next
              (by rw [later])
            rw [pushed, u64_of_lt (by omega), List.length_cons, count]
            exact ⟨rfl, rfl⟩

/-- For every file system, every place in the file and all blocks that the allocator returns: the
runs are at most as many, they take up the blocks of the file in order, each block of the file has
the block of the disk that was returned for it, and no run could have been joined with the next. -/
theorem run_coding_lossless {start count : Nat} {data : Option Bytes} {blocks : List Nat}
    (short : start + count < 4294967296)
    (returned : (returnedBlocks start data count 0 w).1 = some blocks)
    (fits : ∀ b ∈ blocks, b < 18446744073709551616) :
    ∃ runs, (appendLoop start data count 0 [] w).1 = some runs ∧ runs.length ≤ count ∧
      runs.flatMap (fun r => List.range' r.firstBlock r.count) = List.range' start count ∧
      (∀ i < count, ∃ r ∈ runs, r.firstBlock ≤ start + i ∧ start + i < r.firstBlock + r.count ∧
        blocks[i]? = some (u64 (r.start + (start + i - r.firstBlock)))) ∧
      runs.IsChain fun r next =>
      ¬ (u64 (r.start + r.count) = next.start ∧ r.firstBlock + r.count = next.firstBlock) := by
  obtain ⟨rfl, pushed⟩ := appendLoop_pushes [] short returned
  have coded : Coded start (pushAll [] start blocks) blocks := pushAll_coded coded_nil short fits
  obtain ⟨⟨wide, spells, hwide⟩, _, maximal⟩ := coded
  have hlength : wide.length = blocks.length := by rw [← hwide, List.length_map]
  obtain ⟨covers, few⟩ := spells.covers
  rw [hlength] at covers few
  refine ⟨_, pushed, few, covers, ?_, maximal.imp fun r next apart same => apart same.1.symm⟩
  intro i inside
  obtain ⟨k, _, r, here, low, high, block⟩ := spells.lookup (i := i) (by omega)
  refine ⟨r, List.mem_of_getElem? here, low, high, ?_⟩
  rw [← hwide, List.getElem?_map, block, Option.map_some, Nat.add_sub_assoc low]

theorem run_coding_lossless_three :
    ∃ runs, (appendLoop 0 none 3 0 [] everyOtherFree).1 = some runs ∧ runs.length ≤ 3 := by
  have returned : (returnedBlocks 0 none 3 0 everyOtherFree).1 =
    some [9, 11, 13] := by decide +kernel
  obtain ⟨runs, appended, few, _⟩ := run_coding_lossless (by decide) returned (by decide)
  exact ⟨runs, appended, few⟩

/-- The loop takes the slots that the hints of the file name, and groups their blocks. -/
theorem Consistent.appendLoop (c : Consistent w d) (data : Option Bytes) (more done : Nat)
    (short : done + more < 4294967296) (runs : List ExtRun) :
    SeqEnds w d (fun slots runs' => runs' = pushAll runs done (w.e4.blocksOf slots))
      (appendLoop 0 data more done runs w) (w.takes d (w.e4.fileHints more done)) := by
  induction more generalizing w done runs with
  | zero => exact ⟨runs, rfl, rfl, (Quiet.refl w).markedAll_nil c true⟩
  | succ more ih =>
    have hdone : u64 (0 + done) = done := by
      rw [Nat.zero_add]
      exact u64_of_lt (by omega)
    rw [appendLoop_succ, hdone, Ext4Fs.fileHints_succ]
    apply (c.allocThen (dataBuf_prepares data done) _).bind
    intro g i w' marked
    have rest := ih marked.consistent (done + 1) (by omega) (pushBlock runs (blkOf w.e4 g i) done)
    have hhints : w'.e4.fileHints more (done + 1) = w.e4.fileHints more (done + 1) := by
      rw [marked.kept.e4]
      rfl
    rw [hhints] at rest
    simp only [marked.kept.blocksOf] at rest
    exact rest

/-! ## Leaves -/

theorem e4ReadBlock_quiet (b : Nat) (buf : Bytes) (w : World) :
    Quiet w (e4ReadBlock b buf w).2.2 := by
  unfold e4ReadBlock blkRead
  split
  · exact Quiet.refl w
  · split
    · exact Quiet.refl w
    · split
      · exact Quiet.refl w
      · split
        · exact Quiet.refl w
        · exact ⟨rfl, rfl, rfl, rfl⟩

theorem readScratch1_quiet (b : Nat) (w : World) : Quiet w (readScratch1 b w).2 := by
  have hread := e4ReadBlock_quiet b w.scratch1 w
  exact ⟨hread.e4, hread.devs, hread.fault, hread.heap⟩

theorem readScratch2_quiet (b : Nat) (w : World) : Quiet w (readScratch2 b w).2 := by
  have hread := e4ReadBlock_quiet b w.scratch2 w
  exact ⟨hread.e4, hread.devs, hread.fault, hread.heap⟩

theorem Quiet.bind {α β : Type} {first : Cmd World α} {rest : α → Cmd World β}
    (start : Quiet w (first w).2) (next : ∀ a s, Quiet s (rest a s).2) :
    Quiet w ((first >>= rest) w).2 :=
  Cmd.bind_rel (fun _ _ _ => Quiet.trans) start fun a s _ => next a s

theorem e4ReadInode_quiet (ino : Nat) (out : Bytes) (w : World) :
    Quiet w (e4ReadInode ino out w).2 := by
  unfold e4ReadInode
  rw [Cmd.get_bind]
  split
  · exact Quiet.refl w
  · apply Quiet.bind (readScratch1_quiet _ w)
    intro _ s
    split
    · exact Quiet.refl s
    · apply Quiet.bind (readScratch2_quiet _ s)
      intro _ t
      exact Quiet.refl t

theorem e4ExtentBlockChecksumSet_quiet (second : Bool) (ino : Nat) (w : World) :
    Quiet w (e4ExtentBlockChecksumSet second ino w).2 := by
  unfold e4ExtentBlockChecksumSet
  rw [Cmd.get_bind]
  split
  · exact Quiet.refl w
  · rw [Cmd.attempt_bind]
    have hread := e4ReadInode_quiet ino w.stackJunk w
    cases hout : (e4ReadInode ino w.stackJunk w).1 with
    | none => exact hread
    | some host =>
      apply hread.trans
      show Quiet _ ((Cmd.get >>= fun s => _) _).2
      rw [Cmd.get_bind]
      cases second with
      | true => exact ⟨rfl, rfl, rfl, rfl⟩
      | false => exact ⟨rfl, rfl, rfl, rfl⟩

theorem e4ExtentBlockChecksumSet_some (second : Bool) (ino : Nat) (w : World) :
    (e4ExtentBlockChecksumSet second ino w).1 = some () := by
  unfold e4ExtentBlockChecksumSet
  rw [Cmd.get_bind]
  split
  · rfl
  · rw [Cmd.attempt_bind]
    cases (e4ReadInode ino w.stackJunk w).1 with
    | none => rfl
    | some host =>
      cases second with
      | true => rfl
      | false => rfl

/-- A leaf as it is built in the first buffer. -/
def World.leafImage (w : World) (runs : List ExtRun) : Bytes :=
  let b := fill w.scratch1 0 w.e4.blockSize 0
  let b := Eh.putMagic b 0 extentMagic
  let b := Eh.putDepth b 0 0
  let b := Eh.putMax b 0 (leafRoom w.e4)
  let b := Eh.putEntries b 0 runs.length
  putExtents b 0 runs 0

def leafBuf (ino : Nat) (runs : List ExtRun) : Cmd World Bytes := do
  let w ← Cmd.get
  setScratch1 (w.leafImage runs)
  e4ExtentBlockChecksumSet false ino
  let w ← Cmd.get
  pure w.scratch1

theorem leafBuf_prepares (ino : Nat) (runs : List ExtRun) : Prepares (leafBuf ino runs) := by
  intro s
  have hset : setScratch1 (s.leafImage runs) s =
    (some (), { s with scratch1 := s.leafImage runs }) := rfl
  have quiet1 : Quiet s { s with scratch1 := s.leafImage runs } := ⟨rfl, rfl, rfl, rfl⟩
  generalize { s with scratch1 := s.leafImage runs } = s1 at hset quiet1
  have hsum : e4ExtentBlockChecksumSet false ino s1 =
      (some (), (e4ExtentBlockChecksumSet false ino s1).2) :=
    Prod.ext (e4ExtentBlockChecksumSet_some false ino s1) rfl
  have quiet2 := quiet1.trans (e4ExtentBlockChecksumSet_quiet false ino s1)
  unfold leafBuf
  rw [Cmd.get_bind, Cmd.bind_some hset, Cmd.bind_some hsum, Cmd.get_bind]
  exact ⟨_, _, rfl, quiet2⟩

theorem writeLeaf_eq (ino : Nat) (runs : List ExtRun) :
    writeLeaf ino runs = allocThen 0 (leafBuf ino runs) := by
  unfold allocThen leafBuf
  simp only [bind_assoc, pure_bind]
  rfl

theorem addIblocks_agree (inode : Bytes) (delta : Int) {lo hi : Nat} (hlo : 0x20 ≤ lo)
    (hhi : hi ≤ 0x74) :
    Agree (addIblocks e4 inode delta) inode lo hi := by
  unfold addIblocks Ino.putBlocksHi Ino.putBlocksLo
  split
  · apply (put16_agree _ _ _ lo hi (by omega)).trans
    exact put32_agree _ _ _ lo hi (by omega)
  · exact put32_agree _ _ _ lo hi (by omega)

/-- The leaves take one slot each; of the inode only the count of its blocks changes. -/
theorem Consistent.writeLeaves (c : Consistent w d) (ino cap more : Nat) (runs : List ExtRun)
    (inode : Bytes) :
    SeqEnds w d (fun slots r => r.1 = w.e4.blocksOf slots ∧ Agree r.2 inode 0x20 0x74)
      (writeLeaves ino cap more runs inode w) (w.takes d (List.replicate more 0)) := by
  induction more generalizing w runs inode with
  | zero => exact ⟨_, rfl, ⟨rfl, Agree.refl _ _ _⟩, (Quiet.refl w).markedAll_nil c true⟩
  | succ more ih =>
    rw [List.replicate_succ]
    unfold Fs.writeLeaves
    rw [writeLeaf_eq]
    apply (c.allocThen (leafBuf_prepares ino (runs.take cap)) 0).bind
    intro g i w' marked
    rw [Cmd.get_bind]
    apply SeqEnds.map
    have rest := ih marked.consistent (runs.drop cap) (addIblocks w'.e4 inode w'.e4.blockSize)
    have counted : Agree (addIblocks w'.e4 inode w'.e4.blockSize) inode 0x20 0x74 :=
      addIblocks_agree _ _ _ (Nat.le_refl _) (Nat.le_refl _)
    apply rest.imp
    rintro slots r _ ⟨hleaves, agree⟩
    constructor
    · rw [hleaves, marked.kept.blocksOf]
      rfl
    · exact agree.trans counted

/-! ## The root of the inode -/

/-- Header of the root. -/
structure RootHeader (inode : Bytes) (entries depth : Nat) : Prop where
  magic : Eh.magic inode Ino.root = extentMagic
  entries : Eh.entries inode Ino.root = entries
  max : Eh.max inode Ino.root = rootMaxEntries
  depth : Eh.depth inode Ino.root = depth

theorem putRoot_agree (inode : Bytes) (entries depth lo hi : Nat) (apart : hi ≤ 0x28 ∨ 0x34 ≤ lo) :
    Agree (putRoot inode entries depth) inode lo hi := by
  unfold putRoot Eh.putGeneration Eh.putDepth Eh.putMax Eh.putEntries Eh.putMagic Ino.root
  apply (put32_agree _ _ _ lo hi (by omega)).trans
  apply (put16_agree _ _ _ lo hi (by omega)).trans
  apply (put16_agree _ _ _ lo hi (by omega)).trans
  apply (put16_agree _ _ _ lo hi (by omega)).trans
  exact put16_agree _ _ _ lo hi (by omega)

theorem putRoot_header (inode : Bytes) (hentries : entries < 65536) (hdepth : depth < 65536) :
    RootHeader (putRoot inode entries depth) entries depth := by
  unfold putRoot Eh.putGeneration Eh.putDepth Eh.putMax Eh.putEntries Eh.putMagic Ino.root
  constructor
  · unfold Eh.magic Ino.root
    rw [get16_put32_ne _ _ _ _ (by omega), get16_put16_ne _ _ _ _ (by omega),
      get16_put16_ne _ _ _ _ (by omega), get16_put16_ne _ _ _ _ (by omega), get16_put16]
    rfl
  · unfold Eh.entries Ino.root
    rw [get16_put32_ne _ _ _ _ (by omega), get16_put16_ne _ _ _ _ (by omega),
      get16_put16_ne _ _ _ _ (by omega), get16_put16, Nat.mod_eq_of_lt hentries]
  · unfold Eh.max Ino.root
    rw [get16_put32_ne _ _ _ _ (by omega), get16_put16_ne _ _ _ _ (by omega)]
    rfl
  · unfold Eh.depth Ino.root
    rw [get16_put32_ne _ _ _ _ (by omega), get16_put16, Nat.mod_eq_of_lt hdepth]

theorem RootHeader.congr {inode : Bytes} (header : RootHeader inode entries depth)
    (agree : Agree a inode 0x28 0x34) :
    RootHeader a entries depth := by
  constructor
  · rw [← header.magic]
    exact get16_congr (agree.mono (Nat.le_refl _) (by unfold Ino.root; omega))
  · rw [← header.entries]
    exact get16_congr (agree.mono (by unfold Ino.root; omega) (by unfold Ino.root; omega))
  · rw [← header.max]
    exact get16_congr (agree.mono (by unfold Ino.root; omega) (by unfold Ino.root; omega))
  · rw [← header.depth]
    exact get16_congr (agree.mono (by unfold Ino.root; omega) (by unfold Ino.root; omega))

/-- A root of depth 0 that holds the runs. -/
structure FlatRoot (inode : Bytes) (runs : List ExtRun) : Prop where
  few : runs.length ≤ rootMaxEntries
  header : RootHeader inode runs.length 0
  stored : ∀ k r, runs[k]? = some r → Stored inode (Eh.entry Ino.root k) r

/-- A root of depth 1 that names the leaves, `cap` runs in each. -/
structure DeepRoot (inode : Bytes) (cap : Nat) (runs : List ExtRun) (leaves : List Nat) : Prop where
  few : leaves.length ≤ rootMaxEntries
  header : RootHeader inode leaves.length 1
  indexed : ∀ k leaf, leaves[k]? = some leaf →
    Indexed inode (Eh.entry Ino.root k) ((runs.drop (k * cap)).headD ⟨0, 0, 0⟩).firstBlock leaf

variable {inode inode' : Bytes} {runs : List ExtRun} {leaves : List Nat} {cap ino count : Nat}

theorem FlatRoot.congr (flat : FlatRoot inode runs) (agree : Agree a inode 0x28 0x64) :
    FlatRoot a runs := by
  constructor
  · exact flat.few
  · exact flat.header.congr (agree.mono (Nat.le_refl _) (by omega))
  · intro k r at_k
    have hk := (List.getElem?_eq_some_iff.mp at_k).1
    have hfew := flat.few
    apply (flat.stored k r at_k).congr
    unfold rootMaxEntries at hfew
    exact agree.mono (by unfold Eh.entry Ino.root; omega) (by unfold Eh.entry Ino.root; omega)

theorem DeepRoot.congr (deep : DeepRoot inode cap runs leaves) (agree : Agree a inode 0x28 0x64) :
    DeepRoot a cap runs leaves := by
  constructor
  · exact deep.few
  · exact deep.header.congr (agree.mono (Nat.le_refl _) (by omega))
  · intro k leaf at_k
    have hk := (List.getElem?_eq_some_iff.mp at_k).1
    have hfew := deep.few
    apply (deep.indexed k leaf at_k).congr
    unfold rootMaxEntries at hfew
    exact agree.mono (by unfold Eh.entry Ino.root; omega) (by unfold Eh.entry Ino.root; omega)

theorem putRuns_flat (inode : Bytes) (few : runs.length ≤ rootMaxEntries)
    (small : ∀ r ∈ runs, r.start < 281474976710656) :
    FlatRoot (putExtents (putRoot inode runs.length 0) Ino.root runs 0) runs ∧ ∀ lo hi,
    hi ≤ 0x28 ∨ 0x64 ≤ lo →
        Agree (putExtents (putRoot inode runs.length 0) Ino.root runs 0) inode lo hi := by
  have hfew := few
  unfold rootMaxEntries at hfew
  constructor
  · constructor
    · exact few
    · apply (putRoot_header inode (by omega) (by decide)).congr
      exact putExtents_agree _ _ _ _ _ _ (Or.inl (by unfold Eh.entry Ino.root; omega))
    · intro k r at_k
      have stored := putExtents_stored (putRoot inode runs.length 0) Ino.root runs 0 small at_k
      rwa [Nat.zero_add] at stored
  · intro lo hi apart
    apply (putExtents_agree _ _ _ _ _ _ (by unfold Eh.entry Ino.root; omega)).trans
    exact putRoot_agree _ _ _ _ _ (by omega)

theorem buildTree_few (few : runs.length ≤ rootMaxEntries) : buildTree ino runs inode w =
      (some (putExtents (putRoot inode runs.length 0) Ino.root runs 0), w) := by
  unfold buildTree
  by_cases empty : runs.length = 0
  · rw [List.length_eq_zero_iff.mp empty]
    rfl
  · rw [if_neg empty, if_pos few]
    rfl

/-- The leaves that so many runs need. -/
def Ext4Fs.leavesFor (e4 : Ext4Fs) (n : Nat) : Nat := (n + leafCapacity e4 - 1) / leafCapacity e4

theorem Consistent.buildTree_many (c : Consistent w d) (ino : Nat) (inode : Bytes)
    (many : rootMaxEntries < runs.length) (fits : w.e4.leavesFor runs.length ≤ rootMaxEntries) :
    SeqEnds w d
    (fun slots inode' => DeepRoot inode' (leafCapacity w.e4) runs (w.e4.blocksOf slots) ∧
        Agree inode' inode 0x20 0x28)
      (buildTree ino runs inode w) (w.takes d (List.replicate (w.e4.leavesFor runs.length) 0)) := by
  have hmany := many
  have hfits := fits
  unfold rootMaxEntries at hmany hfits
  have ends := c.writeLeaves ino (leafCapacity w.e4) (w.e4.leavesFor runs.length) runs inode
  unfold buildTree
  rw [if_neg (by omega), if_neg (Nat.not_le.mpr many)]
  show SeqEnds w d _ ((if rootMaxEntries < w.e4.leavesFor runs.length then Cmd.fail else
    Fs.writeLeaves ino (leafCapacity w.e4) (w.e4.leavesFor runs.length) runs inode >>= fun r =>
      pure (putIndexes (leafCapacity w.e4) (putRoot r.2 (w.e4.leavesFor runs.length) 1) r.1 runs 0))
        w) _
  rw [if_neg (Nat.not_lt.mpr fits)]
  apply SeqEnds.map
  apply ends.imp
  rintro slots ⟨leaves, inode1⟩ htake ⟨hleaves, agree⟩
  obtain ⟨clear, hlen⟩ := c.takes_clear htake
  have hlength : w.e4.leavesFor runs.length = leaves.length := by
    rw [show leaves = _ from hleaves, Ext4Fs.blocksOf, List.length_map, hlen, List.length_replicate]
  have hsmall : ∀ b ∈ leaves, b < 281474976710656 := by
    rw [show leaves = _ from hleaves]
    exact clear.block_small c.geometry
  rw [← show leaves = _ from hleaves]
  rw [hlength] at hfits ⊢
  constructor
  · constructor
    · exact hfits
    · apply (putRoot_header inode1 (by omega) (by decide)).congr
      exact putIndexes_agree _ _ _ _ _ _ _ (Or.inl (by unfold Eh.entry Ino.root; omega))
    · intro k leaf at_k
      have indexed := putIndexes_indexed (leafCapacity w.e4) (putRoot inode1 leaves.length 1) leaves
        runs 0 hsmall at_k
      rwa [Nat.zero_add] at indexed
  · apply (putIndexes_agree _ _ _ _ _ _ _ (Or.inl (by unfold Eh.entry Ino.root; omega))).trans
    apply (putRoot_agree _ _ _ _ _ (Or.inl (Nat.le_refl _))).trans
    exact agree.mono (Nat.le_refl _) (by omega)

theorem buildTree_fits (many : rootMaxEntries < runs.length)
    (returned : buildTree ino runs inode w = (some inode', w')) :
    w.e4.leavesFor runs.length ≤ rootMaxEntries := by
  have hmany := many
  unfold buildTree at returned
  rw [if_neg (by omega), if_neg (Nat.not_le.mpr many), Cmd.get_bind] at returned
  split at returned
  next => cases returned
  next fits => exact Nat.not_lt.mp fits

/-! ## The whole append -/

/-- The runs of the blocks taken for the file. -/
structure Grouped (w : World) (d count : Nat) (slots : List (Nat × Nat)) (runs : List ExtRun) :
    Prop where
  taken : w.takes d (w.e4.fileHints count 0) = some slots
  spells : Spells 0 runs (w.e4.blocksOf slots)
  maximal : Maximal runs

theorem heap_markedAll {h : HeapEnv} {v : Bool}
    (m : MarkedAll { w with heap := h } w' d slots v) : MarkedAll w w' d slots v :=
  ⟨⟨m.kept.e4, m.kept.devs, m.kept.fault⟩, m.layout, m.consistent, m.used⟩

theorem heap_consistent (c : Consistent w d) (h : HeapEnv) : Consistent { w with heap := h } d :=
  c.same ⟨rfl, fun _ => rfl, rfl⟩ rfl rfl

theorem kmalloc_heap {size : Nat} {u : Unit} (returned : kmalloc size w = (some u, w')) :
    ∃ h, w' = { w with heap := h } := by
  unfold kmalloc at returned
  rw [Cmd.get_bind] at returned
  split at returned
  · cases returned
  · split at returned
    · cases returned
    · cases returned
      exact ⟨_, rfl⟩

/-- A successful append whose runs fit in the root. -/
structure FlatAppend (w w' : World) (d count : Nat) (inode inode' : Bytes)
    (slots : List (Nat × Nat)) (runs : List ExtRun) : Prop where
  root : FlatRoot inode' runs
  marked : MarkedAll w w' d slots true
  inode : inode' = addIblocks w.e4 (putExtents (putRoot inode runs.length 0) Ino.root runs 0)
    (count * w.e4.blockSize)

/-- A successful append that wrote leaves, at slots that were clear after the data was
placed. -/
structure DeepAppend (w w' : World) (d : Nat) (inode' : Bytes) (slots : List (Nat × Nat))
    (runs : List ExtRun) (leafSlots : List (Nat × Nat)) : Prop where
  many : rootMaxEntries < runs.length
  root : DeepRoot inode' (leafCapacity w.e4) runs (w.e4.blocksOf leafSlots)
  marked : MarkedAll w w' d (slots ++ leafSlots) true
  clear : ClearSlots w d leafSlots
  fresh : ∀ p ∈ leafSlots, p ∉ slots
  leaves : leafSlots.length = w.e4.leavesFor runs.length

theorem Consistent.loop_grouped (c : Consistent w d) (short : count < 4294967296)
    (returned : Fs.appendLoop 0 data count 0 [] w = (some runs, w1)) :
    ∃ slots, Grouped w d count slots runs ∧ MarkedAll w w1 d slots true := by
  have ends := c.appendLoop data count 0 (by omega) []
  rw [returned] at ends
  obtain ⟨slots, taken, hruns, all⟩ := ends.of_some rfl
  obtain ⟨clear, hlen⟩ := c.takes_clear taken
  have hcount : (w.e4.blocksOf slots).length < 4294967296 := by
    unfold Ext4Fs.blocksOf
    rw [List.length_map, hlen, Ext4Fs.length_fileHints]
    exact short
  have small := clear.block_small c.geometry
  have coded : Coded 0 runs (w.e4.blocksOf slots) := by
    rw [hruns]
    refine pushAll_coded coded_nil (by rw [List.length_nil]; omega) fun b member => ?_
    have := small b member
    omega
  obtain ⟨spells, maximal⟩ := coded.small hcount small
  exact ⟨slots, ⟨taken, spells, maximal⟩, all⟩

theorem MarkedAll.flat (marked : MarkedAll w w1 d slots true) (few : runs.length ≤ rootMaxEntries)
    (small : ∀ r ∈ runs, r.start < 281474976710656)
    (built : buildTree ino runs inode w1 = (some tree, w')) :
    FlatAppend w w' d count inode (addIblocks w'.e4 tree (count * w'.e4.blockSize)) slots runs ∧
      Agree tree inode 0x20 0x28 := by
  rw [buildTree_few few] at built
  cases built
  obtain ⟨flat, outside⟩ := putRuns_flat inode few small
  constructor
  · constructor
    · exact flat.congr (addIblocks_agree _ _ _ (by omega) (by omega))
    · exact marked
    · rw [marked.kept.e4]
      rfl
  · exact outside _ _ (Or.inl (Nat.le_refl _))

theorem MarkedAll.deep (marked : MarkedAll w w1 d slots true) (many : rootMaxEntries < runs.length)
    (built : buildTree ino runs inode w1 = (some tree, w')) :
    ∃ leafSlots, DeepAppend w w' d
    (addIblocks w'.e4 tree (count * w'.e4.blockSize)) slots runs leafSlots ∧
      Agree tree inode 0x20 0x28 := by
  have ends := marked.consistent.buildTree_many ino inode many (buildTree_fits many built)
  rw [built] at ends
  obtain ⟨leafSlots, taken, ⟨root, agree⟩, leaves⟩ := ends.of_some rfl
  obtain ⟨clearLeaves, hlen⟩ := marked.consistent.takes_clear taken
  obtain ⟨before, fresh⟩ := marked.clearSlots clearLeaves
  have hcap : leafCapacity w1.e4 = leafCapacity w.e4 := by
    rw [marked.kept.e4]
    rfl
  have hneed : w1.e4.leavesFor runs.length = w.e4.leavesFor runs.length := by
    unfold Ext4Fs.leavesFor
    rw [hcap]
  rw [marked.kept.blocksOf, hcap] at root
  rw [List.length_replicate, hneed] at hlen
  refine ⟨leafSlots, ?_, agree⟩
  constructor
  · exact many
  · exact root.congr (addIblocks_agree _ _ _ (by omega) (by omega))
  · exact marked.append leaves
  · exact before
  · exact fresh
  · exact hlen

theorem Consistent.appended (c : Consistent w d) (short : count < 4294967296)
    (returned : e4AppendBlocks inode ino 0 count data w = (some inode', w')) :
    ∃ slots runs, Grouped w d count slots runs ∧ Agree inode' inode 0x20 0x28 ∧
      (FlatAppend w w' d count inode inode' slots runs ∨
        ∃ leafSlots, DeepAppend w w' d inode' slots runs leafSlots) := by
  obtain ⟨_, w0, hmalloc, returned⟩ := Cmd.bind_eq_some returned
  obtain ⟨runs, w1, hloop, returned⟩ := Cmd.bind_eq_some returned
  obtain ⟨tree, w2, hbuild, returned⟩ := Cmd.bind_eq_some returned
  cases returned
  obtain ⟨h, rfl⟩ := kmalloc_heap hmalloc
  obtain ⟨slots, grouped0, marked0⟩ := (heap_consistent c h).loop_grouped short hloop
  have grouped : Grouped w d count slots runs := ⟨grouped0.taken, grouped0.spells, grouped0.maximal⟩
  have marked := heap_markedAll marked0
  have hsmall := (c.takes_clear grouped.taken).1.block_small c.geometry
  have hflags : Agree (addIblocks w'.e4 tree (count * w'.e4.blockSize)) tree 0x20 0x28 :=
    addIblocks_agree _ _ _ (Nat.le_refl _) (by omega)
  refine ⟨slots, runs, grouped, ?_⟩
  by_cases few : runs.length ≤ rootMaxEntries
  · obtain ⟨flat, agree⟩ :=
      marked.flat few (fun r member => hsmall _ (grouped.spells.start_mem member))
      hbuild
    exact ⟨hflags.trans agree, Or.inl flat⟩
  · obtain ⟨leafSlots, deep, agree⟩ := marked.deep (Nat.not_le.mp few) hbuild
    exact ⟨hflags.trans agree, Or.inr ⟨leafSlots, deep⟩⟩

theorem flags_congr (agree : Agree inode' inode 0x20 0x28) : Ino.flags inode' = Ino.flags inode :=
  get32_congr (agree.mono (Nat.le_refl _) (by omega))

/-- The leaves that an append of so many runs writes. -/
def Ext4Fs.leavesWritten (e4 : Ext4Fs) (n : Nat) : Nat :=
  if n ≤ rootMaxEntries then 0 else e4.leavesFor n

theorem MarkedAll.buildTree_some (marked : MarkedAll w w1 d slots true) (ino : Nat) (inode : Bytes)
    (fits : w.e4.leavesWritten runs.length ≤ rootMaxEntries)
    (room : (w1.takes d (List.replicate (w.e4.leavesWritten runs.length) 0)).isSome) :
    ∃ tree w2, buildTree ino runs inode w1 = (some tree, w2) := by
  unfold Ext4Fs.leavesWritten at fits room
  by_cases few : runs.length ≤ rootMaxEntries
  · exact ⟨_, _, buildTree_few few⟩
  · have hneed : w1.e4.leavesFor runs.length = w.e4.leavesFor runs.length := by
      rw [marked.kept.e4]
      rfl
    rw [if_neg few, ← hneed] at fits room
    have deep := marked.consistent.buildTree_many ino inode (Nat.not_le.mp few) fits
    obtain ⟨leafSlots, htake⟩ := Option.isSome_iff_exists.mp room
    rw [htake] at deep
    obtain ⟨tree, htree, _⟩ := deep
    exact ⟨tree, _, Prod.ext htree rfl⟩

/-- An append succeeds when its memory, its data blocks and its leaves are to be had. -/
theorem Consistent.append_progress (c : Consistent w d) (inode : Bytes) (ino : Nat)
    (data : Option Bytes) (short : count < 4294967296)
    (memory : (kmalloc (u32 (16 * u32 (count + 1))) w).1 = some ())
    (taken : w.takes d (w.e4.fileHints count 0) = some slots)
    (fits : w.e4.leavesWritten (pieces (w.e4.blocksOf slots)).length ≤ rootMaxEntries)
    (room : (w.takes d (w.e4.fileHints count 0 ++
      List.replicate (w.e4.leavesWritten (pieces (w.e4.blocksOf slots)).length) 0)).isSome) :
    ∃ inode' w', e4AppendBlocks inode ino 0 count data w = (some inode', w') := by
  have hmalloc : kmalloc (u32 (16 * u32 (count + 1))) w =
      (some (), (kmalloc (u32 (16 * u32 (count + 1))) w).2) := Prod.ext memory rfl
  obtain ⟨h, hheap⟩ := kmalloc_heap hmalloc
  rw [hheap] at hmalloc
  have c0 := heap_consistent c h
  have ends := c0.appendLoop data count 0 (by omega) []
  rw [show ({ w with heap := h } : World).takes d _ = some slots from taken] at ends
  obtain ⟨runs, hr, _, all⟩ := ends
  have hloop : Fs.appendLoop 0 data count 0 [] { w with heap := h } =
      (some runs, (Fs.appendLoop 0 data count 0 [] { w with heap := h }).2) := Prod.ext hr rfl
  generalize (Fs.appendLoop 0 data count 0 [] { w with heap := h }).2 = w1 at all hloop
  obtain ⟨slots', grouped, _⟩ := c0.loop_grouped short hloop
  have hsame : slots' = slots := Option.some.inj (grouped.taken.symm.trans taken)
  have marked := heap_markedAll all
  have hpieces : (pieces (w.e4.blocksOf slots)).length = runs.length := by
    have hblocks : ({ w with heap := h } : World).e4.blocksOf slots = w.e4.blocksOf slots := rfl
    rw [← hsame, grouped.spells.pieces grouped.maximal, List.length_map]
  rw [hpieces, marked.takes_append taken] at room
  rw [hpieces] at fits
  have built := marked.buildTree_some ino inode fits (by
    cases htake : w1.takes d (List.replicate (w.e4.leavesWritten runs.length) 0) with
    | none =>
      rw [htake] at room
      cases room
    | some leafSlots => rfl)
  obtain ⟨tree, w2, hbuild⟩ := built
  unfold e4AppendBlocks
  rw [Cmd.bind_some hmalloc, Cmd.bind_some hloop, Cmd.bind_some hbuild]
  exact ⟨_, _, rfl⟩

/-- An inode with an empty extent root. -/
def emptyRootInode : Bytes :=
  put16 (put16 (put32 zero 0x20 inoFlagExtents) 0x28 extentMagic) 0x2C rootMaxEntries

theorem everyOtherFree_takes_three :
    everyOtherFree.takes 0 (everyOtherFree.e4.fileHints 3 0) = some [(1, 0), (1, 2), (1, 4)] := by
  decide

theorem everyOtherFree_takes_five : everyOtherFree.takes 0 (everyOtherFree.e4.fileHints 5 0) =
      some [(1, 0), (1, 2), (1, 4), (1, 6), (2, 0)] := by
  decide

theorem everyOtherFree_append_three :
    ∃ inode' w', e4AppendBlocks emptyRootInode 12 0 3 none everyOtherFree = (some inode', w') := by
  apply everyOtherFree_consistent.append_progress _ _ _ (by decide) (by decide)
    everyOtherFree_takes_three
  · decide
  · decide

theorem everyOtherFree_append_five :
    ∃ inode' w', e4AppendBlocks emptyRootInode 12 0 5 none everyOtherFree = (some inode', w') := by
  apply everyOtherFree_consistent.append_progress _ _ _ (by decide) (by decide)
    everyOtherFree_takes_five
  · decide
  · decide

theorem everyOtherFree_append_deep :
    ∃ inode' w' runs leafSlots,
      e4AppendBlocks emptyRootInode 12 0 5 none everyOtherFree = (some inode', w') ∧
      Grouped everyOtherFree 0 5 [(1, 0), (1, 2), (1, 4), (1, 6), (2, 0)] runs ∧
      DeepAppend everyOtherFree w' 0 inode'
      [(1, 0), (1, 2), (1, 4), (1, 6), (2, 0)] runs leafSlots ∧
      Ino.flags inode' &&& inoFlagExtents ≠ 0 := by
  obtain ⟨inode', w', returned⟩ := everyOtherFree_append_five
  obtain ⟨slots, runs, grouped, flags, outcome⟩ :=
    everyOtherFree_consistent.appended (by decide) returned
  have hslots := Option.some.inj (grouped.taken.symm.trans everyOtherFree_takes_five)
  subst hslots
  have hfive : (pieces (everyOtherFree.e4.blocksOf [(1, 0), (1, 2), (1, 4), (1, 6),
      (2, 0)])).length = 5 := by
    decide
  rw [grouped.spells.pieces grouped.maximal, List.length_map] at hfive
  have extents : Ino.flags inode' &&& inoFlagExtents ≠ 0 := by
    rw [flags_congr flags]
    decide
  rcases outcome with flat | ⟨leafSlots, deep⟩
  · have few := flat.root.few
    rw [hfive] at few
    exact absurd few (by decide)
  · exact ⟨inode', w', runs, leafSlots, returned, grouped, deep, extents⟩

end Obsidian.Fs
