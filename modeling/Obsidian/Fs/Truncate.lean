import Obsidian.Fs.Spared

/-!
# Truncating what was appended

`e4_append_blocks` followed by `e4_truncate`. Up to four runs of at most 32767 blocks
are freed block by block. A longer run is stored with another count, so blocks of it
stay taken, and from a root of depth 1 only the leaves are freed, not the data.
-/
namespace Obsidian.Fs
open Lib Lib.Bytes Drivers

variable {w w' w'' : World} {d b count first ino : Nat} {inode inode' : Bytes} {runs : List ExtRun}
  {slots leafSlots : List (Nat × Nat)} {blocks : List Nat}

/-! ## Freeing in turn -/

/-- Blocks that can be freed without harm: in range, with no bitmap or descriptor in them. -/
def Freeable (e4 : Ext4Fs) (blocks : List Nat) : Prop :=
  ∀ b ∈ blocks, (e4.firstDataBlock ≤ b ∧ b < e4.blocksCount) ∧ ¬ e4.Reserved b

/-- The state after these blocks were freed. -/
abbrev Freed (w w' : World) (d : Nat) (blocks : List Nat) : Prop :=
  MarkedAll w w' d (blocks.map w.e4.slotOf) false

variable {v : Bool} {leaves : List Nat}

theorem MarkedAll.reserved (m : MarkedAll w w' d slots v) : w'.e4.Reserved b ↔ w.e4.Reserved b := by
  unfold Ext4Fs.Reserved
  rw [m.layout.groupCount]
  simp only [m.layout.bitmapBlock, m.layout.descBlock]

theorem MarkedAll.freeable (m : MarkedAll w w' d slots v) (free : Freeable w.e4 blocks) :
    Freeable w'.e4 blocks := by
  intro b member
  obtain ⟨range, unreserved⟩ := free b member
  rw [m.reserved]
  constructor
  · rw [m.kept.e4]
    exact range
  · exact unreserved

theorem Kept.slotOf (k : Kept w w') : w'.e4.slotOf = w.e4.slotOf := by
  rw [k.e4]
  rfl

variable {front back : List Nat}

theorem Freed.append (m : Freed w w' d front) (rest : Freed w' w'' d back) :
    Freed w w'' d (front ++ back) := by
  unfold Freed at rest ⊢
  rw [m.kept.slotOf] at rest
  rw [List.map_append]
  exact MarkedAll.append m rest

theorem Consistent.freed_nil (c : Consistent w d) : Freed w w d [] :=
  (Quiet.refl w).markedAll_nil c false

theorem Consistent.free_one (c : Consistent w d) (free : Freeable w.e4 [b]) :
    Freed w (e4FreeBlock b w).2 d [b] := by
  obtain ⟨⟨hlo, hhi⟩, unreserved⟩ := free b (List.mem_singleton.mpr rfl)
  have m := c.free_marks hlo hhi unreserved
  exact m.markedAll ((Quiet.refl _).markedAll_nil m.consistent false)

/-- Blocks freed one after the other, and every other block spared. -/
structure FreedOnly (w w' : World) (d : Nat) (blocks : List Nat) : Prop where
  freed : Freed w w' d blocks
  spared : ∀ b, ¬ w.e4.Reserved b → Spared w w' d b

theorem FreedOnly.append (first : FreedOnly w w' d front) (second : FreedOnly w' w'' d back) :
    FreedOnly w w'' d (front ++ back) := by
  refine ⟨first.freed.append second.freed, fun b unreserved => (first.spared b unreserved).trans ?_⟩
  exact second.spared b fun reserved => unreserved (first.freed.reserved.mp reserved)

theorem Consistent.freedOnly_nil (c : Consistent w d) : FreedOnly w w d [] :=
  ⟨c.freed_nil, fun b _ => (Quiet.refl w).spared d b⟩

theorem Consistent.freedOnly_one (c : Consistent w d) (free : Freeable w.e4 [b]) :
    FreedOnly w (e4FreeBlock b w).2 d [b] :=
  ⟨c.free_one free, fun _ unreserved => c.free_spared unreserved b⟩

theorem Freeable.append {e4 : Ext4Fs} :
    Freeable e4 (front ++ back) ↔ Freeable e4 front ∧ Freeable e4 back :=
  List.forall_mem_append

theorem Consistent.freeBlocks (c : Consistent w d) (start more j : Nat)
    (free : Freeable w.e4 (List.range' (start + j) more)) :
    ∃ w', freeBlocks start more j w = (some (), w') ∧ FreedOnly w w' d
    (List.range' (start + j) more) := by
  induction more generalizing w j with
  | zero => exact ⟨w, rfl, c.freedOnly_nil⟩
  | succ more ih =>
    rw [List.range'_succ] at free ⊢
    have hsplit : (start + j) :: List.range' (start + j + 1) more =
        [start + j] ++ List.range' (start + (j + 1)) more := rfl
    rw [hsplit, Freeable.append] at free
    have hsmall := c.geometry.block_small (free.1 _ (List.mem_singleton.mpr rfl)).1.2
    have first := c.freedOnly_one free.1
    obtain ⟨w', hrest, rest⟩ := ih first.freed.consistent (j + 1) (first.freed.freeable free.2)
    refine ⟨w', ?_, ?_⟩
    · unfold Fs.freeBlocks
      rw [Cmd.ignore_bind, u64_of_lt (by omega)]
      exact hrest
    · rw [hsplit]
      exact first.append rest

/-! ## Freeing runs -/

/-- The blocks of a run that are freed: none when the stored count reads as unwritten. -/
def freedCount (n : Nat) : Nat := if 32768 ≤ storedCount n then 0 else storedCount n

def freedBlocks (runs : List ExtRun) : List Nat :=
  runs.flatMap fun r => List.range' r.start (freedCount r.count)

theorem storedCount_le (n : Nat) : storedCount n ≤ n := by
  unfold storedCount u16
  have hmod := Nat.mod_le n 65536
  split
  · omega
  · exact hmod

theorem freedCount_le (n : Nat) : freedCount n ≤ n := by
  unfold freedCount
  split
  · exact Nat.zero_le n
  · exact storedCount_le n

theorem freedCount_eq_iff (n : Nat) : freedCount n = n ↔ n < 32768 := by
  unfold freedCount storedCount u16
  by_cases full : n = 32768
  · subst full
    decide
  · rw [if_neg full]
    split
    · omega
    · constructor
      · intro same
        omega
      · intro small
        exact Nat.mod_eq_of_lt (by omega)

theorem freedBlocks_cons (r : ExtRun) (runs : List ExtRun) :
    freedBlocks (r :: runs) = List.range' r.start (freedCount r.count) ++ freedBlocks runs := rfl

section
variable (spells : Spells first runs blocks)
include spells

theorem freedBlocks_subset : ∀ b ∈ freedBlocks runs, b ∈ blocks := by
  intro b member
  obtain ⟨r, hr, hb⟩ := List.mem_flatMap.mp member
  rw [spells.flatten]
  apply List.mem_flatten.mpr
  refine ⟨r.blocks, List.mem_map.mpr ⟨r, hr, rfl⟩, ?_⟩
  have hle := freedCount_le r.count
  unfold ExtRun.blocks
  rw [List.mem_range'_1] at hb ⊢
  omega

theorem freedBlocks_all (short : ∀ r ∈ runs, r.count < 32768) : freedBlocks runs = blocks := by
  have hrun : ∀ r ∈ runs, List.range' r.start (freedCount r.count) = r.blocks := by
    intro r member
    rw [(freedCount_eq_iff r.count).mpr (short r member)]
    rfl
  rw [spells.flatten, freedBlocks, List.flatMap_def, List.map_congr_left hrun]

theorem freedBlocks_fewer {r : ExtRun} (member : r ∈ runs) (long : 32768 ≤ r.count) :
    (freedBlocks runs).length < blocks.length := by
  have hlength : (freedBlocks runs).length = (runs.map fun r => freedCount r.count).sum := by
    unfold freedBlocks
    rw [List.length_flatMap]
    simp only [List.length_range']
  have htaken : blocks.length = (runs.map fun r => r.count).sum := by
    rw [spells.flatten, List.length_flatten, List.map_map]
    simp only [Function.comp_def, ExtRun.length_blocks]
  have hless : freedCount r.count < r.count := by
    have hle := freedCount_le r.count
    have hne := (freedCount_eq_iff r.count).not.mpr (Nat.not_lt.mpr long)
    omega
  rw [hlength, htaken]
  exact List.sum_lt_sum _ _ (fun s _ => freedCount_le s.count) ⟨r, member, hless⟩

end

/-- The blocks that the loop over the extents of a root frees, from entry `i` on. -/
def extentsFreed (inode : Bytes) : Nat → Nat → List Nat
  | 0, _ => []
  | more + 1, i =>
    (if 32768 ≤ Ex.count inode (Eh.entry Ino.root i) then []
      else List.range' (Ex.start inode (Eh.entry Ino.root i))
        (Ex.count inode (Eh.entry Ino.root i))) ++
    extentsFreed inode more (i + 1)

theorem Consistent.freeExtents (c : Consistent w d) (more i : Nat)
    (free : Freeable w.e4 (extentsFreed inode more i)) :
    ∃ w', freeExtents inode more i w = (some (extentsFreed inode more i).length, w') ∧
      FreedOnly w w' d (extentsFreed inode more i) := by
  induction more generalizing w i with
  | zero => exact ⟨w, rfl, c.freedOnly_nil⟩
  | succ more ih =>
    rw [extentsFreed] at free ⊢
    obtain ⟨freeHere, freeRest⟩ := Freeable.append.mp free
    unfold Fs.freeExtents
    simp only
    split
    next unwritten => exact ih c (i + 1) freeRest
    next written =>
      rw [if_neg written] at freeHere
      obtain ⟨w1, hfree, first⟩ := c.freeBlocks (Ex.start inode (Eh.entry Ino.root i))
        (Ex.count inode (Eh.entry Ino.root i)) 0 freeHere
      obtain ⟨w2, hrest, rest⟩ := ih first.freed.consistent (i + 1) (first.freed.freeable freeRest)
      refine ⟨w2, ?_, first.append rest⟩
      rw [Cmd.bind_some hfree, Cmd.bind_some hrest, Cmd.pure_apply, List.length_append,
        List.length_range']

theorem extentsFreed_runs (i : Nat)
    (stored : ∀ k r, runs[k]? = some r → Stored inode (Eh.entry Ino.root (i + k)) r) :
    extentsFreed inode runs.length i = freedBlocks runs := by
  induction runs generalizing i with
  | nil => rfl
  | cons r runs ih =>
    have here := stored 0 r rfl
    have later : ∀ k s, runs[k]? = some s → Stored inode (Eh.entry Ino.root (i + 1 + k)) s := by
      intro k s at_k
      rw [Nat.add_assoc, Nat.add_comm 1 k]
      exact stored (k + 1) s at_k
    rw [Nat.add_zero] at here
    rw [List.length_cons, extentsFreed, ih (i + 1) later, freedBlocks_cons, here.count,
      here.start, freedCount]
    split
    · rfl
    · rfl

/-! ## Freeing leaves -/

/-- The nodes that the loop over the index entries of a root frees, from entry `i` on. -/
def nodesFreed (inode : Bytes) : Nat → Nat → List Nat
  | 0, _ => []
  | more + 1, i =>
    (if Ix.leaf inode (Eh.entry Ino.root i) ≠
      0 then [Ix.leaf inode (Eh.entry Ino.root i)] else []) ++
    nodesFreed inode more (i + 1)

theorem Consistent.freeNodes (c : Consistent w d) (more i : Nat)
    (free : Freeable w.e4 (nodesFreed inode more i)) :
    ∃ w', freeNodes inode more i w = (some (), w') ∧ FreedOnly w w' d
    (nodesFreed inode more i) := by
  induction more generalizing w i with
  | zero => exact ⟨w, rfl, c.freedOnly_nil⟩
  | succ more ih =>
    rw [nodesFreed] at free ⊢
    obtain ⟨freeHere, freeRest⟩ := Freeable.append.mp free
    unfold Fs.freeNodes
    simp only
    by_cases zero : Ix.leaf inode (Eh.entry Ino.root i) = 0
    · rw [if_neg (not_not.mpr zero), if_neg (not_not.mpr zero)]
      exact ih c (i + 1) freeRest
    · rw [if_pos zero] at freeHere
      have first := c.freedOnly_one freeHere
      obtain ⟨w2, hrest, rest⟩ := ih first.freed.consistent (i + 1) (first.freed.freeable freeRest)
      rw [if_pos zero, if_pos zero]
      refine ⟨w2, ?_, first.append rest⟩
      rw [Cmd.ignore_bind]
      exact hrest

theorem nodesFreed_subset (i : Nat)
    (indexed : ∀ k leaf,
      leaves[k]? = some leaf → Ix.leaf inode (Eh.entry Ino.root (i + k)) = leaf) :
    ∀ b ∈ nodesFreed inode leaves.length i, b ∈ leaves := by
  induction leaves generalizing i with
  | nil => exact fun b h => absurd h List.not_mem_nil
  | cons leaf leaves ih =>
    have here := indexed 0 leaf rfl
    have later : ∀ k l, leaves[k]? = some l → Ix.leaf inode (Eh.entry Ino.root (i + 1 + k)) =
        l := by
      intro k l at_k
      rw [Nat.add_assoc, Nat.add_comm 1 k]
      exact indexed (k + 1) l at_k
    rw [Nat.add_zero] at here
    intro b member
    rw [List.length_cons, nodesFreed, here] at member
    rcases List.mem_append.mp member with first | rest
    · split at first
      · rw [List.mem_singleton.mp first]
        exact List.mem_cons_self
      · exact absurd first List.not_mem_nil
    · exact List.mem_cons_of_mem _ (ih (i + 1) later b rest)

/-! ## `i_blocks` -/

/-- `i_blocks` has 48 bits in a large inode and 32 in a small one. -/
def iblocksLimit (e4 : Ext4Fs) : Nat := if 128 < e4.inodeSize then 281474976710656 else 4294967296

variable (e4 : Ext4Fs)

theorem iblocks_congr {a : Bytes} (low : Agree a inode 0x1C 0x20) (high : Agree a inode 0x74 0x76) :
    iblocks e4 a = iblocks e4 inode := by
  unfold iblocks Ino.blocksLo Ino.blocksHi
  rw [get32_congr low, get16_congr high]

theorem iblocks_addIblocks (inode : Bytes) (delta : Int) : iblocks e4 (addIblocks e4 inode delta) =
      ((iblocks e4 inode : Int) + delta.tdiv 512).toNat % iblocksLimit e4 := by
  unfold addIblocks iblocksLimit
  generalize ((iblocks e4 inode : Int) + delta.tdiv 512).toNat = cur
  unfold iblocks
  split
  · unfold Ino.blocksLo Ino.blocksHi Ino.putBlocksLo Ino.putBlocksHi
    rw [get32_put16_ne _ _ _ _ (by omega), get32_put32, get16_put16]
    exact split_word cur
  · unfold Ino.blocksLo Ino.putBlocksLo
    rw [get32_put32]

theorem iblocks_lt (inode : Bytes) : iblocks e4 inode < iblocksLimit e4 := by
  unfold iblocks iblocksLimit
  have hlow : Ino.blocksLo inode < 4294967296 := get32_lt _ _
  have hhigh : Ino.blocksHi inode < 65536 := get16_lt _ _
  split
  · apply Nat.or_lt_two_pow (n := 48)
    · omega
    · rw [Nat.shiftLeft_eq]
      omega
  · exact hlow

theorem iblocks_less (inode : Bytes) (octets : Nat) :
    iblocks e4 (addIblocks e4 inode (-(octets : Int))) = iblocks e4 inode - octets / 512 := by
  have hlt := iblocks_lt e4 inode
  have hdiv : (-(octets : Int)).tdiv 512 = -((octets / 512 : Nat) : Int) := by
    rw [Int.neg_tdiv]
    rfl
  rw [iblocks_addIblocks, hdiv]
  have hsub : ((iblocks e4 inode : Int) + -((octets / 512 : Nat) : Int)).toNat =
      iblocks e4 inode - octets / 512 := by omega
  rw [hsub]
  exact Nat.mod_eq_of_lt (by omega)

theorem iblocks_more (inode : Bytes) (octets : Nat) :
    iblocks e4 (addIblocks e4 inode octets) =
    (iblocks e4 inode + octets / 512) % iblocksLimit e4 := by
  rw [iblocks_addIblocks]
  rfl

theorem wrapped_sub_eq_iff {n s limit : Nat} (small : n < limit) :
    (n + s) % limit - s = n ↔ n = 0 ∨ n + s < limit := by
  by_cases fits : n + s < limit
  · rw [Nat.mod_eq_of_lt fits]
    omega
  · have hmod : (n + s) % limit ≤ n + s - limit := by
      rw [Nat.mod_eq_sub_mod (Nat.not_lt.mp fits)]
      exact Nat.mod_le _ _
    omega

/-! ## Truncation of a root -/

theorem truncated_iblocks (tree : Bytes) :
    iblocks e4 (Ino.putSizeOrDirAcl (Ino.putSizeLo tree 0) 0) = iblocks e4 tree := by
  apply iblocks_congr
  · apply (put32_agree _ _ _ _ _ (by omega)).trans
    exact put32_agree _ _ _ _ _ (by omega)
  · apply (put32_agree _ _ _ _ _ (by omega)).trans
    exact put32_agree _ _ _ _ _ (by omega)

theorem emptied_iblocks (tree : Bytes) :
    iblocks e4 (Eh.putDepth (Eh.putEntries tree Ino.root 0) Ino.root 0) = iblocks e4 tree := by
  unfold Eh.putDepth Eh.putEntries Ino.root
  apply iblocks_congr
  · apply (put16_agree _ _ _ _ _ (by omega)).trans
    exact put16_agree _ _ _ _ _ (by omega)
  · apply (put16_agree _ _ _ _ _ (by omega)).trans
    exact put16_agree _ _ _ _ _ (by omega)

theorem e4Truncate_extents (extents : Ino.flags inode &&& inoFlagExtents ≠ 0) (w : World) :
    e4Truncate inode 0 w = (freeExtentTree inode >>= fun tree =>
      pure (Ino.putSizeOrDirAcl (Ino.putSizeLo tree 0) 0)) w := by
  unfold e4Truncate
  rw [if_neg (by decide), if_pos extents]

/-- The blocks that truncating an inode with extents frees. -/
def rootBlocks (inode : Bytes) : List Nat :=
  if Eh.magic inode Ino.root ≠ extentMagic ∨ Eh.entries inode Ino.root = 0 then []
  else if Eh.depth inode Ino.root = 0 then extentsFreed inode (min (Eh.entries inode Ino.root) 4) 0
  else nodesFreed inode (min (Eh.entries inode Ino.root) (Eh.max inode Ino.root)) 0

/-- Truncation of an inode with extents frees these blocks. From a root of depth 0 `i_blocks`
loses them. -/
theorem Consistent.truncate (c : Consistent w d) (extents : Ino.flags inode &&& inoFlagExtents ≠ 0)
    (free : Freeable w.e4 (rootBlocks inode)) :
    ∃ inode' w', e4Truncate inode 0 w = (some inode', w') ∧ FreedOnly w w' d (rootBlocks inode) ∧
      (Eh.depth inode Ino.root = 0 → iblocks w.e4 inode' =
        iblocks w.e4 inode - (rootBlocks inode).length * w.e4.blockSize / 512) := by
  rw [e4Truncate_extents extents]
  unfold freeExtentTree
  unfold rootBlocks at free ⊢
  by_cases none : Eh.magic inode Ino.root ≠ extentMagic ∨ Eh.entries inode Ino.root = 0
  · rw [if_pos none, if_pos none]
    refine ⟨_, w, rfl, c.freedOnly_nil, fun _ => ?_⟩
    rw [truncated_iblocks, List.length_nil, Nat.zero_mul, Nat.sub_zero]
  rw [if_neg none] at free
  rw [if_neg none, if_neg none]
  by_cases flat : Eh.depth inode Ino.root = 0
  · rw [if_pos flat] at free
    obtain ⟨w', hfree, only⟩ := c.freeExtents _ 0 free
    rw [if_pos flat, if_pos flat, bind_assoc, Cmd.bind_some hfree]
    refine ⟨_, w', rfl, only, fun _ => ?_⟩
    have hkept : ∀ a, iblocks w'.e4 a = iblocks w.e4 a := by
      intro a
      rw [only.freed.kept.e4]
      rfl
    rw [truncated_iblocks, emptied_iblocks, ← hkept, iblocks_less, hkept, only.freed.kept.e4]
  · rw [if_neg flat] at free
    obtain ⟨w', hfree, only⟩ := c.freeNodes _ 0 free
    rw [if_neg flat, if_neg flat, bind_assoc, bind_assoc, Cmd.bind_some hfree]
    exact ⟨_, w', rfl, only, fun h => absurd h flat⟩

theorem FlatRoot.rootBlocks (flat : FlatRoot inode runs) : rootBlocks inode = freedBlocks runs := by
  have stored : ∀ k r, runs[k]? = some r → Stored inode (Eh.entry Ino.root (0 + k)) r := by
    intro k r at_k
    rw [Nat.zero_add]
    exact flat.stored k r at_k
  have hfew : min runs.length 4 = runs.length := Nat.min_eq_left flat.few
  unfold Fs.rootBlocks
  rw [flat.header.entries, flat.header.magic, flat.header.depth]
  by_cases none : runs.length = 0
  · have hnil := List.length_eq_zero_iff.mp none
    subst hnil
    rfl
  · rw [if_neg (by simp [none]), if_pos rfl, hfew, extentsFreed_runs 0 stored]

theorem FlatRoot.truncate (flat : FlatRoot inode runs) (c : Consistent w d)
    (extents : Ino.flags inode &&& inoFlagExtents ≠ 0) (free : Freeable w.e4 (freedBlocks runs)) :
    ∃ inode' w', e4Truncate inode 0 w = (some inode', w') ∧ Freed w w' d (freedBlocks runs) ∧
      iblocks w.e4 inode' = iblocks w.e4 inode - (freedBlocks runs).length *
      w.e4.blockSize / 512 := by
  rw [← flat.rootBlocks] at free ⊢
  obtain ⟨inode', w', returned, only, hiblocks⟩ := c.truncate extents free
  exact ⟨inode', w', returned, only.freed, hiblocks flat.header.depth⟩

theorem DeepRoot.truncate {cap : Nat} (deep : DeepRoot inode cap runs leaves) (c : Consistent w d)
    (extents : Ino.flags inode &&& inoFlagExtents ≠ 0) (free : Freeable w.e4 leaves) :
    ∃ inode' w', e4Truncate inode 0 w = (some inode', w') ∧
      ∃ freed, (∀ b ∈ freed, b ∈ leaves) ∧ Freed w w' d freed := by
  have subset : ∀ b ∈ rootBlocks inode, b ∈ leaves := by
    have hfew : min leaves.length rootMaxEntries = leaves.length := Nat.min_eq_left deep.few
    unfold rootBlocks
    rw [deep.header.entries, deep.header.depth, deep.header.max]
    split
    · exact fun b h => absurd h List.not_mem_nil
    · rw [hfew]
      apply nodesFreed_subset 0
      intro k leaf at_k
      rw [Nat.zero_add]
      exact (deep.indexed k leaf at_k).leaf
  obtain ⟨inode', w', returned, only, _⟩ := c.truncate extents fun b h => free b (subset b h)
  exact ⟨inode', w', returned, rootBlocks inode, subset, only.freed⟩

/-! ## What is restored -/

/-- Bitmaps, counters and `i_blocks` are as they were. -/
structure Restored (w w' : World) (d : Nat) (inode inode' : Bytes) : Prop where
  bitmaps : ∀ g, g < w.e4.groupCount →
    Agree (blockAt (w'.disk d) w'.e4.blockSize (w'.e4.bitmapBlock false g))
      (blockAt (w.disk d) w.e4.blockSize (w.e4.bitmapBlock false g)) 0 w.e4.blockSize
  groups : ∀ g, g < w.e4.groupCount → w'.e4.freeBlocks g = w.e4.freeBlocks g
  total : w'.e4.freeTotal = w.e4.freeTotal
  iblocks : iblocks w'.e4 inode' = iblocks w.e4 inode

theorem restored_iff (c : Consistent w d) (c' : Consistent w' d) (layout : SameLayout w.e4 w'.e4)
    (inode inode' : Bytes) : Restored w w' d inode inode' ↔
      w'.used d = w.used d ∧ Fs.iblocks w'.e4 inode' = Fs.iblocks w.e4 inode := by
  constructor
  · intro restored
    refine ⟨?_, restored.iblocks⟩
    funext g i
    unfold World.used
    rw [layout.groupCount, layout.blockSize]
    by_cases inside : g < w.e4.groupCount ∧ i < 8 * w.e4.blockSize
    · have agree := restored.bitmaps g inside.1
      rw [layout.blockSize] at agree
      congr 1
      exact bitAt_congr (agree (i / 8) (Nat.zero_le _) (by omega))
    · simp [inside]
  · rintro ⟨same, hiblocks⟩
    have hbit : ∀ g i, g < w.e4.groupCount → i < 8 * w.e4.blockSize →
        bitAt (blockAt (w'.disk d) w'.e4.blockSize (w'.e4.bitmapBlock false g)) i =
          bitAt (blockAt (w.disk d) w.e4.blockSize (w.e4.bitmapBlock false g)) i := by
      intro g i hg hi
      have hslot := congrFun (congrFun same g) i
      unfold World.used at hslot
      rw [layout.groupCount, layout.blockSize] at hslot
      simp only [hg, hi, and_self, decide_true, Bool.true_and] at hslot
      rw [layout.blockSize]
      exact hslot
    constructor
    · intro g hg k _ hk
      apply octet_eq_of_bits
      intro j hj
      exact hbit g _ hg (by omega)
    · intro g hg
      rw [c.counted.group g hg, c'.counted.group g (by rw [layout.groupCount]; exact hg), same,
        layout.lastBits]
    · have hbits : w'.e4.lastBits = w.e4.lastBits := funext layout.lastBits
      rw [c.counted.total, c'.counted.total, same, layout.groupCount, hbits]
    · exact hiblocks

theorem MarkedAll.leaks {g i : Nat} {freed : List (Nat × Nat)} (took : MarkedAll w w' d slots true)
    (gave : MarkedAll w' w'' d freed false) (taken : (g, i) ∈ slots) (kept : (g, i) ∉ freed)
    (clear : w.used d g i = false) : w''.used d ≠ w.used d := by
  intro same
  have hslot := congrFun (congrFun same g) i
  rw [gave.used, took.used, SlotMap.markAll_not_mem _ _ kept, SlotMap.markAll_mem _ _ taken,
    clear] at hslot
  cases hslot

theorem ClearSlots.freeable (cs : ClearSlots w d slots) (c : Consistent w d) :
    Freeable w.e4 (w.e4.blocksOf slots) := by
  intro b member
  obtain ⟨hlo, hhi, _, clear⟩ := cs.block c.geometry member
  exact ⟨⟨hlo, hhi⟩, c.unreserved_of_clear clear⟩

section
variable (flat : FlatAppend w w' d count inode inode' slots runs)
include flat

/-- Freeing the blocks of runs in the root gives the block map back when no run is too long. -/
theorem FlatAppend.used_iff (grouped : Grouped w d count slots runs) (c : Consistent w d)
    (freed : Freed w' w'' d (freedBlocks runs)) :
    w''.used d = w.used d ↔ ∀ r ∈ runs, r.count < 32768 := by
  obtain ⟨clear, _⟩ := c.takes_clear grouped.taken
  have hslots := clear.slots_of_blocks c.geometry
  unfold Freed at freed
  rw [flat.marked.kept.slotOf] at freed
  constructor
  · intro same r member
    apply Nat.not_le.mp
    intro long
    have hfewer := freedBlocks_fewer grouped.spells member long
    -- More blocks were taken than freed, so one of them is left over.
    have hleft : ¬ ∀ b ∈ w.e4.blocksOf slots, b ∈ freedBlocks runs := by
      intro all
      have hle := (List.subperm_of_subset (clear.nodup_blocks c.geometry) all).length_le
      omega
    push Not at hleft
    obtain ⟨b, hb, hkept⟩ := hleft
    obtain ⟨_, _, hslot, hclear⟩ := clear.block c.geometry hb
    refine flat.marked.leaks freed hslot ?_ hclear same
    intro hfreed
    obtain ⟨b', hb', heq⟩ := List.mem_map.mp hfreed
    have hinj := List.inj_on_of_nodup_map (f := w.e4.slotOf) (by rw [hslots]; exact clear.nodup)
    have hsame := hinj (freedBlocks_subset grouped.spells b' hb') hb heq
    rw [hsame] at hb'
    exact hkept hb'
  · intro short
    rw [freed.used, flat.marked.used, freedBlocks_all grouped.spells short, hslots]
    exact SlotMap.markAll_undo clear.clear

theorem FlatAppend.iblocks_eq (small : ∀ r ∈ runs, r.start < 281474976710656) :
    iblocks w.e4 inode' = (iblocks w.e4 inode + count * w.e4.blockSize / 512) %
    iblocksLimit w.e4 := by
  obtain ⟨_, outside⟩ := putRuns_flat inode flat.root.few small
  have hroot : iblocks w.e4 (putExtents (putRoot inode runs.length 0) Ino.root runs 0) =
      iblocks w.e4 inode := by
    apply iblocks_congr
    · exact outside _ _ (Or.inl (by omega))
    · exact outside _ _ (Or.inr (by omega))
  have hmore := iblocks_more w.e4 (putExtents (putRoot inode runs.length 0) Ino.root runs 0)
    (count * w.e4.blockSize)
  rw [hroot] at hmore
  rw [flat.inode]
  exact hmore

theorem FlatAppend.restored_iff (grouped : Grouped w d count slots runs) (c : Consistent w d)
    (extents : Ino.flags inode' &&& inoFlagExtents ≠ 0) :
    ∃ inode'' w'', e4Truncate inode' 0 w' = (some inode'', w'') ∧
      (Restored w w'' d inode inode'' ↔ (∀ r ∈ runs, r.count < 32768) ∧ (iblocks w.e4 inode = 0 ∨
          iblocks w.e4 inode + count * w.e4.blockSize / 512 < iblocksLimit w.e4)) := by
  obtain ⟨clear, hlen⟩ := c.takes_clear grouped.taken
  have free : Freeable w'.e4 (freedBlocks runs) := by
    apply flat.marked.freeable
    intro b member
    exact clear.freeable c b (freedBlocks_subset grouped.spells b member)
  have hstarts : ∀ r ∈ runs, r.start < 281474976710656 := by
    intro r member
    exact clear.block_small c.geometry _ (grouped.spells.start_mem member)
  obtain ⟨inode'', w'', returned, freed, hless⟩ :=
    flat.root.truncate flat.marked.consistent extents free
  have hkept' : ∀ a, iblocks w'.e4 a = iblocks w.e4 a := by
    intro a
    rw [flat.marked.kept.e4]
    rfl
  have hkept'' : ∀ a, iblocks w''.e4 a = iblocks w.e4 a := by
    intro a
    rw [freed.kept.e4]
    exact hkept' a
  have hsize : w'.e4.blockSize = w.e4.blockSize := flat.marked.layout.blockSize
  rw [hkept', hkept', hsize, flat.iblocks_eq hstarts] at hless
  refine ⟨inode'', w'', returned, ?_⟩
  rw [Fs.restored_iff c freed.consistent (flat.marked.layout.trans freed.layout),
    flat.used_iff grouped c freed, hkept'', hless]
  apply and_congr_right
  intro short
  have hcount : (freedBlocks runs).length = count := by
    rw [freedBlocks_all grouped.spells short, Ext4Fs.blocksOf, List.length_map, hlen,
      Ext4Fs.length_fileHints]
  rw [hcount]
  exact wrapped_sub_eq_iff (iblocks_lt w.e4 inode)

end

theorem DeepAppend.data_kept (deep : DeepAppend w w' d inode' slots runs leafSlots)
    (grouped : Grouped w d count slots runs) (c : Consistent w d)
    (extents : Ino.flags inode' &&& inoFlagExtents ≠ 0) :
    ∃ inode'' w'', e4Truncate inode' 0 w' = (some inode'', w'') ∧
      (∀ p ∈ slots, w''.used d p.1 p.2 = true) ∧ ¬ Restored w w'' d inode inode'' := by
  obtain ⟨clear, _⟩ := c.takes_clear grouped.taken
  have free : Freeable w'.e4 (w.e4.blocksOf leafSlots) :=
    deep.marked.freeable (deep.clear.freeable c)
  obtain ⟨inode'', w'', returned, freed, hleaves, gave⟩ :=
    deep.root.truncate deep.marked.consistent extents free
  have hkept : ∀ p ∈ slots, w''.used d p.1 p.2 = true := by
    intro p member
    have hnot : (p.1, p.2) ∉ freed.map w'.e4.slotOf := by
      intro hfreed
      obtain ⟨b, hb, hslot⟩ := List.mem_map.mp hfreed
      rw [deep.marked.kept.slotOf] at hslot
      have hleaf := (deep.clear.block c.geometry (hleaves b hb)).2.2.1
      rw [hslot] at hleaf
      exact deep.fresh p hleaf member
    rw [gave.used, deep.marked.used, SlotMap.markAll_not_mem _ _ hnot,
      SlotMap.markAll_mem _ _ (List.mem_append_left leafSlots member)]
  refine ⟨inode'', w'', returned, hkept, ?_⟩
  intro restored
  have layout := deep.marked.layout.trans gave.layout
  have hused := ((restored_iff c gave.consistent layout inode inode'').mp restored).1
  -- There are runs, so a slot was taken.
  have hmany : 4 < runs.length := deep.many
  have hrun : runs[0] ∈ runs := List.getElem_mem (by omega)
  obtain ⟨p, hp, _⟩ := List.mem_map.mp (grouped.spells.start_mem hrun)
  have htaken := hkept p hp
  rw [hused, clear.clear p hp] at htaken
  cases htaken

/-! ## Append, then truncate -/

/-- An append followed by a truncation restores bitmaps, counters and `i_blocks` exactly when
the blocks allocated form at most four runs, none longer than 32767 blocks, and `i_blocks`
was 0 or did not overflow. -/
theorem truncate_restores_iff {data : Option Bytes} (c : Consistent w d)
    (short : count < 4294967296) (extents : Ino.flags inode &&& inoFlagExtents ≠ 0)
    (returned : e4AppendBlocks inode ino 0 count data w = (some inode', w')) :
    ∃ blocks inode'' w'', (allocSeq (w.e4.fileHints count 0) w).1 = some blocks ∧
      e4Truncate inode' 0 w' = (some inode'', w'') ∧
      (Restored w w'' d inode inode'' ↔
        (pieces blocks).length ≤ 4 ∧ (∀ p ∈ pieces blocks, p.length < 32768) ∧
          (iblocks w.e4 inode = 0 ∨
            iblocks w.e4 inode + count * w.e4.blockSize / 512 < iblocksLimit w.e4)) := by
  obtain ⟨slots, runs, grouped, flags, outcome⟩ := c.appended short returned
  have hseq : (allocSeq (w.e4.fileHints count 0) w).1 = some (w.e4.blocksOf slots) := by
    rw [c.allocSeq, grouped.taken]
    rfl
  have hpieces := grouped.spells.pieces grouped.maximal
  rw [← flags_congr flags] at extents
  rcases outcome with flat | ⟨leafSlots, deep⟩
  · obtain ⟨inode'', w'', htruncate, hiff⟩ := flat.restored_iff grouped c extents
    refine ⟨_, inode'', w'', hseq, htruncate, ?_⟩
    have hfew : runs.length ≤ 4 := flat.root.few
    have hlengths : (∀ p ∈ runs.map ExtRun.blocks, p.length < 32768) ↔ ∀ r ∈ runs,
        r.count < 32768 := by
      simp only [List.forall_mem_map, ExtRun.length_blocks]
    rw [hpieces, List.length_map, hlengths, hiff]
    simp only [hfew, true_and]
  · obtain ⟨inode'', w'', htruncate, _, hleaks⟩ := deep.data_kept grouped c extents
    refine ⟨_, inode'', w'', hseq, htruncate, ?_⟩
    have hmany : 4 < runs.length := deep.many
    rw [hpieces, List.length_map]
    constructor
    · intro restored
      exact absurd restored hleaks
    · rintro ⟨few, _⟩
      omega

/-- Three single blocks are given back. -/
theorem truncate_restores_iff_three :
    ∃ inode' w', e4AppendBlocks emptyRootInode 12 0 3 none everyOtherFree = (some inode', w') ∧
      ∃ inode'' w'', e4Truncate inode' 0 w' = (some inode'', w'') ∧
        Restored everyOtherFree w'' 0 emptyRootInode inode'' := by
  obtain ⟨inode', w', returned⟩ := everyOtherFree_append_three
  obtain ⟨blocks, inode'', w'', hblocks, htruncate, hiff⟩ := truncate_restores_iff
    everyOtherFree_consistent (by decide) (by decide) returned
  rw [everyOtherFree_consistent.allocSeq] at hblocks
  cases hblocks
  refine ⟨inode', w', returned, inode'', w'', htruncate, hiff.mpr ?_⟩
  decide

/-- Five single blocks go to a leaf, and the five stay taken. -/
theorem five_runs_leaked :
    Consistent everyOtherFree 0 ∧
      ∃ inode' w', e4AppendBlocks emptyRootInode 12 0 5 none everyOtherFree = (some inode', w') ∧
        ∃ inode'' w'', e4Truncate inode' 0 w' = (some inode'', w'') ∧
          (∀ p ∈ [(1, 0), (1, 2), (1, 4), (1, 6), (2, 0)],
            everyOtherFree.used 0 p.1 p.2 = false ∧ w''.used 0 p.1 p.2 = true) ∧
          ¬ Restored everyOtherFree w'' 0 emptyRootInode inode'' := by
  have c := everyOtherFree_consistent
  obtain ⟨inode', w', runs, leafSlots, returned, grouped, deep, extents⟩ :=
    everyOtherFree_append_deep
  obtain ⟨inode'', w'', htruncate, hkept, hleaks⟩ := deep.data_kept grouped c extents
  refine ⟨c, inode', w', returned, inode'', w'', htruncate, ?_, hleaks⟩
  intro p member
  exact ⟨(c.takes_clear grouped.taken).1.clear p member, hkept p member⟩

end Obsidian.Fs
