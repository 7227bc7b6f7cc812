import Obsidian.Fs.Append
import Obsidian.Fs.ExtentRead

/-!
# Reading back what was appended

`e4_append_blocks` followed by `e4_bmap`. Up to four runs stand in the root and read
back as they were written. More runs go to leaves, which the lookup never reaches: it
takes the index entries of the root for extents, and these cannot describe four runs.
-/
namespace Obsidian.Fs
open Lib Lib.Bytes Drivers

variable {w w' : World} {d count i k ino : Nat} {inode inode' : Bytes} {runs : List ExtRun}
  {slots leafSlots : List (Nat × Nat)} {blocks : List Nat}

/-! ## Runs in the root -/

theorem extentBlocks_storedCount {n : Nat} (small : n < 32768) :
    extentBlocks (storedCount n) = n ∧ storedCount n = n := by
  have hstored : storedCount n = n := by
    unfold storedCount
    rw [if_neg (by omega), u16_of_lt (by omega)]
  constructor
  · rw [hstored]
    unfold extentBlocks
    rw [if_pos (by omega)]
  · exact hstored

/-- The extent of a run, as the lookup reads it. -/
structure ReadsAs (inode : Bytes) (k : Nat) (r : ExtRun) : Prop where
  firstBlock : Ex.firstBlock inode (Eh.entry Ino.root k) = r.firstBlock
  blocks : extentBlocks (Ex.count inode (Eh.entry Ino.root k)) = r.count
  count : Ex.count inode (Eh.entry Ino.root k) = r.count
  start : Ex.start inode (Eh.entry Ino.root k) = r.start

section flat

variable (flat : FlatRoot inode runs) (spells : Spells 0 runs blocks)
    (short : blocks.length < 32768)
include flat spells short

theorem FlatRoot.readsAs {r : ExtRun} (at_k : runs[k]? = some r) : ReadsAs inode k r := by
  have stored := flat.stored k r at_k
  have hbounds := spells.bounds r (List.mem_of_getElem? at_k)
  obtain ⟨hblocks, hcount⟩ := extentBlocks_storedCount (n := r.count) (by omega)
  constructor
  · rw [stored.firstBlock, u32_of_lt (by omega)]
  · rw [stored.count, hblocks]
  · rw [stored.count, hcount]
  · exact stored.start

theorem FlatRoot.run_at (hk : k < Eh.entries inode Ino.root) :
    ∃ r, runs[k]? = some r ∧ ReadsAs inode k r := by
  rw [flat.header.entries] at hk
  have at_k : runs[k]? = some runs[k] := List.getElem?_eq_getElem hk
  exact ⟨runs[k], at_k, flat.readsAs spells short at_k⟩

theorem FlatRoot.ordered : LeafOrdered inode Ino.root := by
  constructor
  · intro k hk
    obtain ⟨r, at_k, reads⟩ := flat.run_at spells short hk
    have hbounds := spells.bounds r (List.mem_of_getElem? at_k)
    rw [reads.firstBlock, reads.blocks]
    omega
  · intro j k hlt hk
    obtain ⟨r, at_j, readsJ⟩ := flat.run_at spells short (Nat.lt_trans hlt hk)
    obtain ⟨s, at_k, readsK⟩ := flat.run_at spells short hk
    rw [readsJ.firstBlock, readsJ.blocks, readsK.firstBlock]
    exact spells.sorted hlt at_j at_k

theorem FlatRoot.noFull : NoFull inode Ino.root := by
  intro k hk
  obtain ⟨r, at_k, reads⟩ := flat.run_at spells short hk
  have hbounds := spells.bounds r (List.mem_of_getElem? at_k)
  rw [reads.count]
  omega

/-- The root maps the blocks of the file to the blocks the runs name, and no others. -/
theorem FlatRoot.maps : (∀ b, blocks[i]? = some b → LeafMaps inode Ino.root i b) ∧
      (blocks.length ≤ i → LeafMaps inode Ino.root i 0) := by
  constructor
  · intro b at_i
    have hi := (List.getElem?_eq_some_iff.mp at_i).1
    obtain ⟨k, hk, r, at_k, hlo, hhi, hblock⟩ := spells.lookup hi
    have reads := flat.readsAs spells short at_k
    have hcount := spells.bounds r (List.mem_of_getElem? at_k)
    rw [Nat.zero_add] at hlo hhi hblock
    rw [hblock] at at_i
    left
    refine ⟨k, ⟨?_, ?_, ?_⟩, ?_, ?_⟩
    · rw [flat.header.entries]
      exact hk
    · rw [reads.firstBlock]
      exact hlo
    · rw [reads.firstBlock, reads.blocks]
      exact hhi
    · rw [reads.count]
      omega
    · rw [reads.start, reads.firstBlock]
      exact (Option.some.inj at_i).symm
  · intro past
    right
    refine ⟨fun k covering => ?_, rfl⟩
    obtain ⟨hk, _, hhi⟩ := covering
    obtain ⟨r, at_k, reads⟩ := flat.run_at spells short hk
    have hbounds := spells.bounds r (List.mem_of_getElem? at_k)
    rw [reads.firstBlock, reads.blocks] at hhi
    omega

theorem FlatRoot.bmap (extents : Ino.flags inode &&& inoFlagExtents ≠ 0) (s : World) :
    (∀ i, i < blocks.length → (e4Bmap inode i s).1 = blocks[i]?) ∧
      ∀ i, blocks.length ≤ i → (e4Bmap inode i s).1 = some 0 := by
  have ordered := flat.ordered spells short
  have nofull := flat.noFull spells short
  have hbmap : ∀ i, (e4Bmap inode i s).1 =
      some (leafSearch inode Ino.root i (Eh.entries inode Ino.root) 0) := by
    intro i
    rw [e4Bmap_descends extents flat.header.magic, flat.header.depth]
    rfl
  constructor
  · intro i hi
    have at_i : blocks[i]? = some blocks[i] := List.getElem?_eq_getElem hi
    rw [hbmap, at_i, ordered.leafSearch_eq (nofull.at _) ((flat.maps spells short).1 _ at_i)]
  · intro i past
    rw [hbmap, ordered.leafSearch_eq (nofull.at _) ((flat.maps spells short).2 past)]

end flat

/-! ## Runs in leaves -/

/-- With a root of depth 1 the lookup fails, or searches the root as if it were a leaf. -/
theorem e4Bmap_depth_one (extents : Ino.flags inode &&& inoFlagExtents ≠ 0)
    (magic : Eh.magic inode Ino.root = extentMagic) (depth : Eh.depth inode Ino.root = 1) (i : Nat)
    (s : World) :
    (e4Bmap inode i s).1 = none ∨
      (e4Bmap inode i s).1 = some (leafSearch inode Ino.root i (Eh.entries inode Ino.root) 0) := by
  rw [e4Bmap_descends extents magic, depth]
  unfold extentDescend
  rw [Cmd.bind_apply]
  cases hread : readScratch1 0 s with
  | mk code t =>
    cases code with
    | none => exact Or.inl rfl
    | some _ =>
      show ((Cmd.get >>= fun s => _) t).1 = none ∨ ((Cmd.get >>= fun s => _) t).1 = _
      rw [Cmd.get_bind]
      cases indexSearch t.scratch1 0 i (Eh.entries t.scratch1 0) 0 none with
      | none => exact Or.inl rfl
      | some _ => exact Or.inr rfl

/-- Below the second entry a search gives 0 or a block at the same distance from the first. -/
theorem leafSearch_low {b : Bytes} {eh n : Nat} (first : Ex.firstBlock b (Eh.entry eh 0) = 0)
    (low : ∀ k, 0 < k → k < n → i < Ex.firstBlock b (Eh.entry eh k)) :
    leafSearch b eh i n 0 = 0 ∨ leafSearch b eh i n 0 = Ex.start b (Eh.entry eh 0) + i := by
  cases n with
  | zero => exact Or.inl rfl
  | succ n =>
    by_cases hit : Hit b eh i 0
    · rw [leafSearch_hit hit, first]
      split
      · exact Or.inl rfl
      · exact Or.inr rfl
    · left
      rw [leafSearch_miss hit]
      apply leafSearch_none
      rintro k hlo hhi ⟨hfirst, _⟩
      have := low k (by omega) (by omega)
      omega

theorem leafCapacity_ge (size : 512 ≤ w.e4.blockSize) : rootMaxEntries ≤ leafCapacity w.e4 := by
  have hroom : 4 ≤ leafRoom w.e4 := by
    unfold leafRoom
    split
    · omega
    · omega
  unfold leafCapacity rootMaxEntries
  rw [if_pos (by omega)]
  exact hroom

theorem DeepAppend.entries_eq (deep : DeepAppend w w' d inode' slots runs leafSlots) :
    Eh.entries inode' Ino.root = w.e4.leavesFor runs.length := by
  rw [deep.root.header.entries, Ext4Fs.blocksOf, List.length_map, deep.leaves]

section deep

variable (deep : DeepAppend w w' d inode' slots runs leafSlots) (spells : Spells 0 runs blocks)
  (short : blocks.length < 4294967296) (size : 512 ≤ w.e4.blockSize)
include deep spells short size

theorem DeepAppend.entry_run (hk : k < Eh.entries inode' Ino.root) :
    ∃ s, runs[k * leafCapacity w.e4]? = some s ∧
      Ex.firstBlock inode' (Eh.entry Ino.root k) = s.firstBlock := by
  have hcap := leafCapacity_ge size
  unfold rootMaxEntries at hcap
  have hleaf := hk
  rw [deep.root.header.entries] at hleaf
  have indexed := deep.root.indexed k _ (List.getElem?_eq_getElem hleaf)
  have hrun : k * leafCapacity w.e4 < runs.length := by
    rw [deep.entries_eq, Ext4Fs.leavesFor, Nat.lt_div_iff_mul_lt (by omega)] at hk
    omega
  have hhead : (runs.drop (k * leafCapacity w.e4)).headD ⟨0, 0, 0⟩ =
      runs[k * leafCapacity w.e4] := by
    rw [List.drop_eq_getElem_cons hrun]
    rfl
  rw [hhead] at indexed
  have hbounds := spells.bounds _ (List.getElem_mem hrun)
  refine ⟨_, List.getElem?_eq_getElem hrun, ?_⟩
  rw [← u32_of_lt (v := runs[k * leafCapacity w.e4].firstBlock) (by omega)]
  exact indexed.firstBlock

/-- Index entries of a root of depth 1: the first starts at block 0 of the file, the others
after the fourth run. -/
theorem DeepAppend.entries {r : ExtRun} (at_three : runs[3]? = some r) :
    Ex.firstBlock inode' (Eh.entry Ino.root 0) = 0 ∧ ∀ k, 0 < k → k < Eh.entries inode' Ino.root →
        r.firstBlock < Ex.firstBlock inode' (Eh.entry Ino.root k) := by
  have hcap := leafCapacity_ge size
  have hmany := deep.many
  unfold rootMaxEntries at hcap hmany
  constructor
  · have hzero : 0 < Eh.entries inode' Ino.root := by
      rw [deep.entries_eq]
      exact Nat.div_pos (by omega) (by omega)
    obtain ⟨s, at_zero, hs⟩ := deep.entry_run spells short size hzero
    rw [hs]
    rw [Nat.zero_mul] at at_zero
    cases runs with
    | nil => cases at_zero
    | cons t rest =>
      cases at_zero
      exact spells.1
  · intro k hpos hk
    obtain ⟨s, at_k, hs⟩ := deep.entry_run spells short size hk
    have hle : leafCapacity w.e4 ≤ k * leafCapacity w.e4 := Nat.le_mul_of_pos_left _ hpos
    have hsorted := spells.sorted (j := 3) (k := k * leafCapacity w.e4) (by omega) at_three at_k
    have hcount := spells.count_pos r (List.mem_of_getElem? at_three)
    rw [hs]
    omega

/-- Up to the fourth run the lookup can return only 0 or blocks at one distance from their
place. -/
theorem DeepAppend.bmap_low {r : ExtRun} {b : Nat}
    (extents : Ino.flags inode' &&& inoFlagExtents ≠ 0) (at_three : runs[3]? = some r)
    (low : i ≤ r.firstBlock) (s : World) (read : (e4Bmap inode' i s).1 = some b) :
    b = 0 ∨ b = Ex.start inode' (Eh.entry Ino.root 0) + i := by
  obtain ⟨hfirst, hlater⟩ := deep.entries spells short size at_three
  have hlow : ∀ k, 0 < k → k < Eh.entries inode' Ino.root →
      i < Ex.firstBlock inode' (Eh.entry Ino.root k) := by
    intro k hpos hk
    have := hlater k hpos hk
    omega
  rcases e4Bmap_depth_one extents deep.root.header.magic deep.root.header.depth i
    s with hnone | hsome
  · rw [hnone] at read
    cases read
  · rw [hsome] at read
    rw [← Option.some.inj read]
    exact leafSearch_low hfirst hlow

end deep

/-- Where two runs meet, blocks that are all 0 or at one distance from their place leave a
block 0. -/
theorem Spells.joint_zero {r s : ExtRun} {base : Nat} (spells : Spells 0 runs blocks)
    (maximal : Maximal runs) (at_k : runs[k]? = some r) (at_next : runs[k + 1]? = some s)
    (guess : ∀ i b, i ≤ s.firstBlock → blocks[i]? = some b → b = 0 ∨ b = base + i) :
    blocks[s.firstBlock - 1]? = some 0 ∨ blocks[s.firstBlock]? = some 0 := by
  have hnext := spells.next at_k at_next
  have hr := spells.count_pos r (List.mem_of_getElem? at_k)
  have hs := spells.count_pos s (List.mem_of_getElem? at_next)
  have hleft : blocks[s.firstBlock - 1]? = some (r.start + (r.count - 1)) := by
    rw [← spells.at_run at_k (j := r.count - 1) (by omega)]
    congr 1
    omega
  have hright : blocks[s.firstBlock]? = some s.start := spells.at_run at_next hs
  have hapart : s.start ≠ r.start + r.count := by
    have hlen := (List.getElem?_eq_some_iff.mp at_next).1
    have hchain := List.isChain_iff_getElem.mp maximal k hlen
    rw [(List.getElem?_eq_some_iff.mp at_k).2, (List.getElem?_eq_some_iff.mp at_next).2] at hchain
    exact hchain
  rcases guess _ _ (by omega) hleft with hzero | hbase
  · left
    rw [hleft, hzero]
  · rcases guess _ _ (Nat.le_refl _) hright with hzero | hbase'
    · right
      rw [hright, hzero]
    · omega

theorem DeepAppend.misread (deep : DeepAppend w w' d inode' slots runs leafSlots)
    (spells : Spells 0 runs blocks) (maximal : Maximal runs) (distinct : blocks.Nodup)
    (short : blocks.length < 4294967296) (size : 512 ≤ w.e4.blockSize)
    (extents : Ino.flags inode' &&& inoFlagExtents ≠ 0) (s : World) :
    ¬ ∀ i, i < blocks.length → (e4Bmap inode' i s).1 = blocks[i]? := by
  intro right
  have hmany := deep.many
  unfold rootMaxEntries at hmany
  have at_run : ∀ k, k < 4 → ∃ r, runs[k]? = some r := by
    intro k hk
    exact ⟨_, List.getElem?_eq_getElem (by omega)⟩
  obtain ⟨r0, at0⟩ := at_run 0 (by omega)
  obtain ⟨r1, at1⟩ := at_run 1 (by omega)
  obtain ⟨r2, at2⟩ := at_run 2 (by omega)
  obtain ⟨r3, at3⟩ := at_run 3 (by omega)
  have guess : ∀ i b, i ≤ r3.firstBlock → blocks[i]? = some b →
      b = 0 ∨ b = Ex.start inode' (Eh.entry Ino.root 0) + i := by
    intro i b hle at_i
    have hread := right i (List.getElem?_eq_some_iff.mp at_i).1
    rw [at_i] at hread
    exact deep.bmap_low spells short size extents at3 hle s hread
  -- The first and the third joint are apart, so block 0 would be named twice.
  have h23 := spells.next at1 at2
  have h34 := spells.next at2 at3
  have hc1 := spells.count_pos r1 (List.mem_of_getElem? at1)
  have hc2 := spells.count_pos r2 (List.mem_of_getElem? at2)
  have hfirstJoint := spells.joint_zero maximal at0 at1
    (fun i b hle at_i => guess i b (by omega) at_i)
  have hthirdJoint := spells.joint_zero maximal at2 at3 guess
  have hinj : ∀ i j : Nat, blocks[i]? = some 0 → blocks[j]? = some 0 → i = j := by
    intro i j hi hj
    exact (List.getElem?_inj (List.getElem?_eq_some_iff.mp hi).1 distinct).mp (hi.trans hj.symm)
  rcases hfirstJoint with hi | hi
  · rcases hthirdJoint with hj | hj
    · have := hinj _ _ hi hj
      omega
    · have := hinj _ _ hi hj
      omega
  · rcases hthirdJoint with hj | hj
    · have := hinj _ _ hi hj
      omega
    · have := hinj _ _ hi hj
      omega

/-! ## Both together -/

/-- After a successful append of up to 16 MiB every block of the file reads back as the block
allocated for it, and blocks past the end as holes, exactly when the blocks allocated form at
most four runs. -/
theorem append_bmap_iff {data : Option Bytes} (c : Consistent w d) (size : 1024 ≤ w.e4.blockSize)
    (extents : Ino.flags inode &&& inoFlagExtents ≠ 0) (fits : count * w.e4.blockSize ≤ 16777216)
    (returned : e4AppendBlocks inode ino 0 count data w = (some inode', w')) :
    ∃ blocks, (allocSeq (w.e4.fileHints count 0) w).1 = some blocks ∧ blocks.length = count ∧
      (((∀ i, i < count → (e4Bmap inode' i w').1 = blocks[i]?) ∧
          ∀ i, count ≤ i → (e4Bmap inode' i w').1 = some 0) ↔
        (pieces blocks).length ≤ 4) := by
  have hcount : count ≤ 16384 := by
    have := Nat.mul_le_mul_left count size
    omega
  obtain ⟨slots, runs, grouped, flags, outcome⟩ := c.appended (by omega) returned
  obtain ⟨clear, hlen⟩ := c.takes_clear grouped.taken
  have hblocks : (w.e4.blocksOf slots).length = count := by
    unfold Ext4Fs.blocksOf
    rw [List.length_map, hlen, Ext4Fs.length_fileHints]
  have hpieces : (pieces (w.e4.blocksOf slots)).length = runs.length := by
    rw [grouped.spells.pieces grouped.maximal, List.length_map]
  rw [← flags_congr flags] at extents
  refine ⟨w.e4.blocksOf slots, ?_, hblocks, ?_⟩
  · rw [c.allocSeq, grouped.taken]
    rfl
  · rw [hpieces]
    rcases outcome with flat | ⟨leafSlots, deep⟩
    · have hbmap := flat.root.bmap grouped.spells (by omega) extents w'
      rw [hblocks] at hbmap
      exact ⟨fun _ => flat.root.few, fun _ => hbmap⟩
    · have hmisread := deep.misread grouped.spells grouped.maximal (clear.nodup_blocks c.geometry)
        (by omega) (by omega) extents w'
      rw [hblocks] at hmisread
      constructor
      · intro right
        exact absurd right.1 hmisread
      · intro few
        exact absurd deep.many (Nat.not_lt.mpr few)

/-- Three single blocks read back. -/
theorem append_bmap_iff_three :
    ∃ inode' w', e4AppendBlocks emptyRootInode 12 0 3 none everyOtherFree = (some inode', w') ∧
      (∀ i, i < 3 → (e4Bmap inode' i w').1 = [9, 11, 13][i]?) ∧
      ∀ i, 3 ≤ i → (e4Bmap inode' i w').1 = some 0 := by
  obtain ⟨inode', w', returned⟩ := everyOtherFree_append_three
  obtain ⟨blocks, hblocks, _, hiff⟩ := append_bmap_iff everyOtherFree_consistent (by decide)
    (by decide) (by decide) returned
  rw [everyOtherFree_consistent.allocSeq] at hblocks
  cases hblocks
  exact ⟨inode', w', returned, hiff.mpr (by decide)⟩

/-- Five single blocks go to a leaf, and they do not all read back. -/
theorem five_runs_misread :
    Consistent everyOtherFree 0 ∧
      (allocSeq (everyOtherFree.e4.fileHints 5 0) everyOtherFree).1 = some [9, 11, 13, 15, 17] ∧
      ∃ inode' w', e4AppendBlocks emptyRootInode 12 0 5 none everyOtherFree = (some inode', w') ∧
        ¬ ∀ i, i < 5 → (e4Bmap inode' i w').1 = [9, 11, 13, 15, 17][i]? := by
  have c := everyOtherFree_consistent
  obtain ⟨inode', w', runs, leafSlots, returned, grouped, deep, extents⟩ :=
    everyOtherFree_append_deep
  have hblocks : everyOtherFree.e4.blocksOf [(1, 0), (1, 2), (1, 4), (1, 6), (2, 0)] =
      [9, 11, 13, 15, 17] := by
    decide
  refine ⟨c, ?_, inode', w', returned, ?_⟩
  · rw [c.allocSeq, everyOtherFree_takes_five, Option.map_some, hblocks]
  · have spells := grouped.spells
    exact deep.misread spells grouped.maximal (by decide) (by decide) (by decide) extents w'

end Obsidian.Fs
