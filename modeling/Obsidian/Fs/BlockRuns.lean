import Obsidian.Fs.BlockAlloc
import Obsidian.Lib.Runs

/-!
# Runs of the block allocator

A run is any sequence of `e4_alloc_block_near` and `e4_free_block` calls on a
mounted filesystem. Freeing a block that holds a bitmap or a descriptor is left
to the caller's judgement: the driver does not refuse it, and the next allocation
would hand the bitmap out and clear it.
-/
namespace Obsidian.Fs
open Lib Lib.Bytes Drivers

inductive BlockOp where
  | alloc (hint : Nat)
  | free (block : Nat)
  deriving DecidableEq, Repr

/-- The state after a call; the caller sees the return code apart from it. -/
def blockStep (w : World) : BlockOp → Option World
  | .alloc hint => some (e4AllocBlockNear hint w).2
  | .free block => some (e4FreeBlock block w).2

/-- No block bitmap and no descriptor block is freed. -/
def Admitted (w : World) : BlockOp → Prop
  | .alloc _ => True
  | .free block => ¬ w.e4.Reserved block

/-- A run of allocations and frees. -/
abbrev BlockRun : World → List BlockOp → World → Prop := Run blockStep Admitted

variable {w w' mid : World} {d hint b : Nat} {ops : List BlockOp}

/-! ## What one call does -/

theorem World.choice_valid {slot : Nat × Nat} (geo : Geometry w.e4)
    (chosen : w.choice d hint = some slot) :
    slot.1 < w.e4.groupCount ∧ slot.2 < w.e4.lastBits slot.1 ∧ w.used d slot.1 slot.2 = false := by
  obtain ⟨member, hi, hclear⟩ := SlotMap.pick_some chosen
  obtain ⟨gi, _, hvisit⟩ := List.mem_map.mp member
  have hg : slot.1 < w.e4.groupCount := by
    rw [← hvisit]
    exact Nat.mod_lt _ geo.groups_pos
  exact ⟨hg, hi, hclear⟩

theorem Consistent.alloc_choice (c : Consistent w d)
    (returned : (e4AllocBlockNear hint w).1 = some b) :
    ∃ g i, w.choice d hint = some (g, i) ∧ blkOf w.e4 g i = b ∧ Marked w
    (e4AllocBlockNear hint w).2 d g i true := by
  have ends := c.alloc hint
  cases hpick : w.choice d hint with
  | none =>
    rw [hpick] at ends
    rw [ends.1] at returned
    cases returned
  | some slot =>
    rw [hpick] at ends
    rw [ends.1] at returned
    exact ⟨slot.1, slot.2, rfl, Option.some.inj returned, ends.2⟩

theorem Consistent.alloc_some (c : Consistent w d)
    (returned : (e4AllocBlockNear hint w).1 = some b) :
    w.e4.firstDataBlock ≤ b ∧ b < w.e4.blocksCount ∧ w.blockUsed d b = false ∧
      Marked w (e4AllocBlockNear hint w).2 d (w.e4.groupOf b) (w.e4.indexOf b) true := by
  obtain ⟨g, i, chosen, hblock, marked⟩ := c.alloc_choice returned
  have geo := c.geometry
  obtain ⟨hg, hi, hclear⟩ := World.choice_valid geo chosen
  obtain ⟨heq, hhi⟩ := geo.blkOf_eq hg hi
  obtain ⟨hgroup, hindex⟩ := geo.slot_of_blkOf hg hi
  rw [hblock] at heq hhi hgroup hindex
  unfold World.blockUsed
  rw [hgroup, hindex]
  exact ⟨by omega, hhi, hclear, marked⟩

theorem Consistent.alloc_none (c : Consistent w d) (returned : (e4AllocBlockNear hint w).1 = none) :
    Quiet w (e4AllocBlockNear hint w).2 ∧ w.choice d hint = none := by
  have ends := c.alloc hint
  cases hpick : w.choice d hint with
  | none =>
    rw [hpick] at ends
    exact ⟨ends.2, rfl⟩
  | some slot =>
    rw [hpick] at ends
    rw [ends.1] at returned
    cases returned

variable {v : Bool} {b c g groups : Nat}

theorem Kept.blockUsed_other (kept : Kept w w') (geo : Geometry w.e4)
    (used : w'.used d = SlotMap.mark (w.used d) (w.e4.groupOf b) (w.e4.indexOf b) v) (hne : c ≠ b)
    (hb : w.e4.firstDataBlock ≤ b ∧ b < w.e4.blocksCount)
    (hc : w.e4.firstDataBlock ≤ c ∧ c < w.e4.blocksCount) :
    w'.blockUsed d c = w.blockUsed d c := by
  obtain ⟨hgroup, hindex⟩ := kept.sameSlots c
  unfold World.blockUsed
  rw [hgroup, hindex, used, SlotMap.mark_other]
  rintro ⟨sameGroup, sameIndex⟩
  obtain ⟨_, _, hbSlot⟩ := geo.slot_of_block hb.1 hb.2
  obtain ⟨_, _, hcSlot⟩ := geo.slot_of_block hc.1 hc.2
  rw [sameGroup, sameIndex, hbSlot] at hcSlot
  exact hne hcSlot.symm

theorem Kept.blockUsed_same (kept : Kept w w')
    (used : w'.used d = SlotMap.mark (w.used d) (w.e4.groupOf b) (w.e4.indexOf b) v) :
    w'.blockUsed d b = v := by
  obtain ⟨hgroup, hindex⟩ := kept.sameSlots b
  unfold World.blockUsed
  rw [hgroup, hindex, used, SlotMap.mark_same]

theorem Marked.blockUsed_other (geo : Geometry w.e4)
    (m : Marked w w' d (w.e4.groupOf b) (w.e4.indexOf b) v) (hne : c ≠ b)
    (hb : w.e4.firstDataBlock ≤ b ∧ b < w.e4.blocksCount)
    (hc : w.e4.firstDataBlock ≤ c ∧ c < w.e4.blocksCount) :
    w'.blockUsed d c = w.blockUsed d c :=
  m.kept.blockUsed_other geo m.used hne hb hc

theorem Marked.blockUsed_same (m : Marked w w' d (w.e4.groupOf b) (w.e4.indexOf b) v) :
    w'.blockUsed d b = v :=
  m.kept.blockUsed_same m.used

theorem not_rejects_inside (accepted : ¬ w.rejects d b) :
    w.e4.firstDataBlock ≤ b ∧ b < w.e4.blocksCount := by
  unfold World.rejects at accepted
  constructor
  · omega
  · omega

theorem blockStep_consistent (op : BlockOp) (c : Consistent w d) (admitted : Admitted w op)
    (returned : blockStep w op = some w') : Consistent w' d ∧ Kept w w' := by
  cases op with
  | alloc hint =>
    cases returned
    cases hout : (e4AllocBlockNear hint w).1 with
    | none =>
      have quiet := (c.alloc_none hout).1
      exact ⟨quiet.consistent c, quiet.kept⟩
    | some b =>
      obtain ⟨_, _, _, marked⟩ := c.alloc_some hout
      exact ⟨marked.consistent, marked.kept⟩
  | free b =>
    cases returned
    by_cases rejected : w.rejects d b
    · have quiet := (c.free_rejected rejected).2
      exact ⟨quiet.consistent c, quiet.kept⟩
    · have marked := (c.free_accepted rejected admitted).2
      exact ⟨marked.consistent, marked.kept⟩

theorem blockStep_keeps (op : BlockOp) (c : Consistent w d) (admitted : Admitted w op)
    (returned : blockStep w op = some w') (other : op ≠ .free b)
    (inside : w.e4.firstDataBlock ≤ b ∧ b < w.e4.blocksCount) (taken : w.blockUsed d b = true) :
    w'.blockUsed d b = true := by
  cases op with
  | alloc hint =>
    cases returned
    cases hout : (e4AllocBlockNear hint w).1 with
    | none => rw [(c.alloc_none hout).1.blockUsed, taken]
    | some a =>
      obtain ⟨hlo, hhi, _, marked⟩ := c.alloc_some hout
      by_cases same : b = a
      · subst same
        exact marked.blockUsed_same
      · rw [marked.blockUsed_other c.geometry same ⟨hlo, hhi⟩ inside, taken]
  | free a =>
    cases returned
    have hne : b ≠ a := by
      rintro rfl
      exact other rfl
    by_cases rejected : w.rejects d a
    · rw [(c.free_rejected rejected).2.blockUsed, taken]
    · have marked := (c.free_accepted rejected admitted).2
      rw [marked.blockUsed_other c.geometry hne (not_rejects_inside rejected) inside, taken]

/-! ## Whole runs -/

theorem BlockRun.consistent (run : BlockRun w ops mid) (c : Consistent w d) : Consistent mid d := by
  apply run.invariant (fun s => Consistent s d)
  · intro s op next hs admitted returned
    exact (blockStep_consistent op hs admitted returned).1
  · exact c

theorem BlockRun.keeps (run : BlockRun w ops mid) (c : Consistent w d) (never : .free b ∉ ops)
    (inside : w.e4.firstDataBlock ≤ b ∧ b < w.e4.blocksCount) (taken : w.blockUsed d b = true) :
    mid.blockUsed d b = true := by
  induction run with
  | done => exact taken
  | call admitted returned rest ih =>
    simp only [List.mem_cons, not_or] at never
    obtain ⟨hc, hkept⟩ := blockStep_consistent _ c admitted returned
    have htaken := blockStep_keeps _ c admitted returned (Ne.symm never.1) inside taken
    apply ih hc never.2 _ htaken
    rw [hkept.e4]
    exact inside

/-- Hints for which the rounds of `e4_alloc_block_near` reach every group: the sum of hint
and round is a 32-bit word and wraps. -/
def Covers (hint groups : Nat) : Prop := hint + groups ≤ 4294967296 ∨ groups ∣ 4294967296

instance (hint groups : Nat) : Decidable (Covers hint groups) := by
  unfold Covers
  infer_instance

theorem round_of_group (hint : Nat) (hg : g < groups) :
    ∃ gi, gi < groups ∧ (hint + gi) % groups = g := by
  have hpos : 0 < groups := by omega
  have hmod := Nat.mod_lt hint hpos
  have hdiv := Nat.div_add_mod hint groups
  refine ⟨(g + (groups - hint % groups)) % groups, Nat.mod_lt _ hpos, ?_⟩
  rw [Nat.add_mod_mod]
  have hsum : hint + (g + (groups - hint % groups)) = g + groups * (hint / groups + 1) := by
    rw [Nat.mul_add]
    omega
  rw [hsum, Nat.add_mul_mod_self_left, Nat.mod_eq_of_lt hg]

theorem Covers.visits (covers : Covers hint groups) (hg : g < groups) :
    g ∈ visitOrder hint groups := by
  obtain ⟨gi, hgi, hround⟩ := round_of_group hint hg
  apply List.mem_map.mpr
  refine ⟨gi, List.mem_range.mpr hgi, ?_⟩
  unfold visit
  rcases covers with fits | divides
  · rw [u32_of_lt (by omega), hround]
  · unfold u32
    rw [Nat.mod_mod_of_dvd _ divides, hround]

/-- Group `g` has the bitmap octet `bits g`. -/
def threeGroupsDisk (bits : Nat → UInt8) : Bytes := fun i =>
  if i = 3 * 1024 then bits 0 else if i = 4 * 1024 then bits 1 else if i =
    5 * 1024 then bits 2 else 0

/-- Descriptors that count `free g` free blocks. -/
def threeGroupsGdt (free : Nat → UInt8) : Bytes := fun i =>
  if i = 0 then 3 else if i = 32 then 4 else if i = 64 then 5
  else if i = 12 then free 0 else if i = 44 then free 1 else if i = 76 then free 2 else 0

def threeGroups (bits free : Nat → UInt8) (total : UInt8) : World where
  bus := ⟨fun _ => ⟨50, true, true, threeGroupsDisk bits⟩, 1, fun _ _ => none, 0⟩
  heap := ⟨fun _ => false, 0⟩
  e4 := { Ext4Fs.zeroed with
    dev := some 0, blockSize := 1024, sectorsPerBlock := 2, blocksCount := 25, inodesCount := 16,
    blocksPerGroup := 8, inodesPerGroup := 16, groupCount := 3, firstDataBlock := 1,
    inodeSize := 256, descSize := 32, firstIno := 11, writable := true,
    sb := fun i => if i = 0x0C then total else 0, gdt := threeGroupsGdt free }
  scratch1 := zero
  scratch2 := zero
  stackJunk := zero
  jin := zero
  committed := []
  lastCommitSeq := 0

theorem threeGroups_transfers (bits free : Nat → UInt8) (total : UInt8) :
    Transfers (threeGroups bits free total) 0 := by
  constructor
  · rfl
  · rfl
  · rfl
  · rfl
  · intro _ _
    rfl
  · simp [threeGroups]
  · simp [threeGroups]
  · right
    simp [threeGroups]
  · simp [threeGroups]

theorem threeGroups_geometry (bits free : Nat → UInt8) (total : UInt8) :
    Geometry (threeGroups bits free total).e4 := by
  constructor
  · exact Or.inl ⟨rfl, rfl⟩
  · simp [threeGroups]
  · simp [threeGroups]
  · simp [threeGroups]
  · simp [threeGroups]
  · simp [threeGroups]
  · simp [threeGroups]
  · simp [threeGroups]
  · simp [threeGroups]
  · simp [threeGroups]

/-- All taken but block 17, the first of the last group. -/
def lastBlockFree : World :=
  threeGroups (fun g => if g = 2 then 0xFE else 0xFF) (fun g => if g = 2 then 1 else 0) 1

theorem lastBlockFree_consistent : Consistent lastBlockFree 0 := by
  apply Consistent.of_groups (threeGroups_transfers _ _ _) (threeGroups_geometry _ _ _)
  · decide
  · decide
  · decide
  · exact ⟨by decide, by decide⟩

/-- Every other block of the last two groups is free: blocks 9, 11, 13 and so on to 23. -/
def everyOtherFree : World :=
  threeGroups (fun g => if g = 0 then 0xFF else 0xAA) (fun g => if g = 0 then 0 else 4) 8

theorem everyOtherFree_consistent : Consistent everyOtherFree 0 := by
  apply Consistent.of_groups (threeGroups_transfers _ _ _) (threeGroups_geometry _ _ _)
  · decide
  · decide
  · decide
  · exact ⟨by decide, by decide⟩

/-- Block 2 holds the descriptors. Freed, it is handed out like any other block. -/
def descriptorTaken : World := (e4AllocBlockNear 0 (e4FreeBlock 2 lastBlockFree).2).2

end Obsidian.Fs
