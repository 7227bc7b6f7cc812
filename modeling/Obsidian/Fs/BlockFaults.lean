import Obsidian.Fs.BlockRuns

/-!
# Block allocation when transfers fail

A write that fails has moved some first sectors of its block, or none. The allocator drops
the return codes of its three writes, so that a block is returned whether its bit has
reached the disk or not.
-/
namespace Obsidian.Fs
open Lib Lib.Bytes Drivers

variable {w w' : World} {d g i b n : Nat}

/-! ## Taking a block -/

/-- How an allocation ends. -/
def AllocEndsAt (w : World) (d : Nat) (r : Option Nat × World) : Option (Nat × Nat × Nat) → Prop
  | some (n, g, i) => (g < w.e4.groupCount ∧ i < w.e4.lastBits g ∧ w.used d g i = false) ∧
      r.1 = some (blkOf w.e4 g i) ∧ Altered w r.2 d g i (decide (i / 8 < w.settledOctets n g))
  | none => r.1 = none ∧ Quiet w r.2

theorem Quiet.settledOctets (q : Quiet w w') (n g : Nat) :
    w'.settledOctets n g = w.settledOctets n g := by
  unfold World.settledOctets World.syncIos
  rw [q.kept.movedOctets, q.kept.succeeds, q.e4]

theorem BlockMaps.alloc (m : BlockMaps w d) (hint : Nat) :
    AllocEndsAt w d (e4AllocBlockNear hint w) (w.finds d hint w.e4.groupCount 0 w.bus.ios) := by
  have ends := m.search_all hint
  cases hfound : w.finds d hint w.e4.groupCount 0 w.bus.ios with
  | none =>
    rw [hfound] at ends
    exact ends
  | some slot =>
    rw [hfound] at ends
    obtain ⟨⟨hg, hi, hclear⟩, w1, q1, hios, loaded, hr⟩ := ends
    obtain ⟨w', htake, altered, -⟩ := (q1.mapped m).takeBlock (by rw [q1.e4]; exact hg)
      (by rw [q1.e4]; exact hi)
      (by rw [q1.used]; exact hclear) (q1.loaded loaded)
    rw [q1.e4] at htake
    rw [q1.settledOctets, hios] at altered
    rw [hr, Cmd.bind_some htake]
    exact ⟨⟨hg, hi, hclear⟩, rfl, q1.altered altered⟩

/-- A block that was returned was clear; its bit is set if its octet reaches the disk. -/
theorem BlockMaps.alloc_some {hint : Nat} (m : BlockMaps w d)
    (returned : (e4AllocBlockNear hint w).1 = some b) :
    ∃ n, w.finds d hint w.e4.groupCount 0 w.bus.ios = some (n, w.e4.groupOf b, w.e4.indexOf b) ∧
      (w.e4.firstDataBlock ≤ b ∧ b < w.e4.blocksCount) ∧ w.blockUsed d b = false ∧
      Altered w (e4AllocBlockNear hint w).2 d (w.e4.groupOf b) (w.e4.indexOf b)
        (decide (w.e4.indexOf b / 8 < w.settledOctets n (w.e4.groupOf b))) := by
  have ends := m.alloc hint
  cases hfound : w.finds d hint w.e4.groupCount 0 w.bus.ios with
  | none =>
    rw [hfound] at ends
    rw [ends.1] at returned
    cases returned
  | some slot =>
    obtain ⟨n, g, i⟩ := slot
    rw [hfound] at ends
    obtain ⟨⟨hg, hi, hclear⟩, hout, altered⟩ := ends
    rw [hout] at returned
    obtain ⟨heq, hhi⟩ := m.geometry.blkOf_eq hg hi
    obtain ⟨hgroup, hindex⟩ := m.geometry.slot_of_blkOf hg hi
    rw [Option.some.inj returned] at heq hhi hgroup hindex
    unfold World.blockUsed
    rw [hgroup, hindex]
    exact ⟨n, rfl, ⟨by omega, hhi⟩, hclear, altered⟩

/-! ## Runs -/

/-- Freeing a block that holds no bitmap or descriptor changes at most its own bit. -/
theorem BlockMaps.free (m : BlockMaps w d) (unreserved : ¬ w.e4.Reserved b) :
    Quiet w (e4FreeBlock b w).2 ∨ ((w.e4.firstDataBlock ≤ b ∧ b < w.e4.blocksCount) ∧
      ∃ v, Altered w (e4FreeBlock b w).2 d (w.e4.groupOf b) (w.e4.indexOf b) v) := by
  by_cases outside : b < w.e4.firstDataBlock ∨ w.e4.blocksCount ≤ b
  · left
    unfold e4FreeBlock
    rw [Cmd.get_bind, if_pos (Or.inr outside)]
    exact Quiet.refl w
  obtain ⟨hg, hi, hblk⟩ := m.geometry.slot_of_block (b := b) (by omega) (by omega)
  obtain ⟨w1, q1, hfree⟩ := m.free_inside (b := b) (by omega) (by omega)
  split at hfree
  next done =>
    obtain ⟨loaded, hfree⟩ := hfree
    rw [hfree]
    split
    · exact Or.inl q1
    · have hg1 : w.e4.groupOf b < w1.e4.groupCount := by
        rw [q1.e4]
        exact hg
      obtain ⟨w', hsettle, settled⟩ :=
        (q1.mapped m).settle hg1 (clearBit w1.scratch1 (w.e4.indexOf b)) 1
      have altered := settled.altered (q1.mapped m) hg1 (by rw [q1.e4]; exact hi)
        (fun j hj => (q1.loaded loaded).bit_clear hg1 _ hj)
          (Or.inr (by rw [q1.e4, hblk]; exact unreserved))
      rw [q1.e4] at hsettle
      rw [hsettle]
      exact Or.inr ⟨by omega, _, q1.altered altered⟩
  next =>
    rw [hfree]
    exact Or.inl q1

/-- Every admitted call keeps the maps apart and marked, and every block in use but one that
it frees. -/
theorem blockStep_maps (op : BlockOp) (m : BlockMaps w d) (admitted : Admitted w op)
    (returned : blockStep w op = some w') : BlockMaps w' d ∧ Kept w w' ∧
      ∀ b, w.e4.firstDataBlock ≤ b ∧ b < w.e4.blocksCount → op ≠ .free b → w.blockUsed d b = true →
        w'.blockUsed d b = true := by
  cases op with
  | alloc hint =>
    cases returned
    cases hout : (e4AllocBlockNear hint w).1 with
    | none =>
      have ends := m.alloc hint
      cases hfound : w.finds d hint w.e4.groupCount 0 w.bus.ios with
      | none =>
        rw [hfound] at ends
        exact ⟨ends.2.mapped m, ends.2.kept, fun b _ _ taken => by rw [ends.2.blockUsed, taken]⟩
      | some slot =>
        rw [hfound] at ends
        rw [ends.2.1] at hout
        cases hout
    | some a =>
      obtain ⟨n, -, inside, hclear, altered⟩ := m.alloc_some hout
      refine ⟨altered.mapped, altered.kept, fun b hb _ taken => ?_⟩
      have hne : b ≠ a := by
        rintro rfl
        rw [hclear] at taken
        cases taken
      rw [altered.kept.blockUsed_other m.geometry altered.used hne inside hb, taken]
  | free a =>
    cases returned
    rcases m.free admitted with quiet | ⟨inside, v, altered⟩
    · exact ⟨quiet.mapped m, quiet.kept, fun b _ _ taken => by rw [quiet.blockUsed, taken]⟩
    · refine ⟨altered.mapped, altered.kept, fun b hb other taken => ?_⟩
      have hne : b ≠ a := by
        rintro rfl
        exact other rfl
      rw [altered.kept.blockUsed_other m.geometry altered.used hne inside hb, taken]

theorem BlockRun.maps {ops : List BlockOp} {mid : World} (run : BlockRun w ops mid)
    (m : BlockMaps w d) (never : .free b ∉ ops)
    (inside : w.e4.firstDataBlock ≤ b ∧ b < w.e4.blocksCount) (taken : w.blockUsed d b = true) :
    BlockMaps mid d ∧ mid.blockUsed d b = true := by
  induction run with
  | done => exact ⟨m, taken⟩
  | call admitted returned rest ih =>
    simp only [List.mem_cons, not_or] at never
    obtain ⟨hm, hkept, keeps⟩ := blockStep_maps _ m admitted returned
    apply ih hm never.2 _ (keeps b inside (Ne.symm never.1) taken)
    rw [hkept.e4]
    exact inside

/-! ## What is returned stays taken -/

/-- A block that the allocation returns is marked on the disk, and no later allocation of a run
returns it before it is freed. -/
def AllocLasts (w : World) (d hint : Nat) : Prop :=
  ∀ b, (e4AllocBlockNear hint w).1 = some b →
    (e4AllocBlockNear hint w).2.blockUsed d b = true ∧
      ∀ more later, BlockRun (e4AllocBlockNear hint w).2 more later → .free b ∉ more →
        ∀ hint', (e4AllocBlockNear hint' later).1 ≠ some b

/-- Under any failures: what the allocation returns lasts exactly when the write of the bitmap
gets as far as the octet of the bit. -/
theorem allocation_lasts_iff (w : World) (d hint : Nat) (maps : BlockMaps w d) :
    AllocLasts w d hint ↔ ∀ n g i, w.finds d hint w.e4.groupCount 0 w.bus.ios = some (n, g, i) →
      i / 8 < w.settledOctets n g := by
  constructor
  · intro lasts n g i found
    have ends := maps.alloc hint
    rw [found] at ends
    obtain ⟨⟨hg, hi, -⟩, hout, altered⟩ := ends
    have marked := (lasts _ hout).1
    obtain ⟨hgroup, hindex⟩ := maps.geometry.slot_of_blkOf hg hi
    obtain ⟨hgroup', hindex'⟩ := altered.kept.sameSlots (blkOf w.e4 g i)
    rw [World.blockUsed, hgroup', hindex', hgroup, hindex, altered.used,
      SlotMap.mark_same] at marked
    exact of_decide_eq_true marked
  · intro stored b returned
    obtain ⟨n, found, inside, -, altered⟩ := maps.alloc_some returned
    have marked := altered.kept.blockUsed_same altered.used
    rw [decide_eq_true (stored _ _ _ found)] at marked
    refine ⟨marked, fun more later run never hint' again => ?_⟩
    have hinside : (e4AllocBlockNear hint w).2.e4.firstDataBlock ≤ b ∧
        b < (e4AllocBlockNear hint w).2.e4.blocksCount := by
      rw [altered.kept.e4]
      exact inside
    obtain ⟨m, taken⟩ := run.maps altered.mapped never hinside marked
    obtain ⟨-, -, -, clear, -⟩ := m.alloc_some again
    rw [taken] at clear
    cases clear

/-- The write of the descriptor fails; block 17 is marked all the same. -/
theorem allocation_lasts_iff_descriptor :
    AllocLasts (lastBlockFree.withFaults fun n _ => if n = 2 then some 0 else none) 0 2 := by
  refine (allocation_lasts_iff _ 0 2 (lastBlockFree_consistent.withFaults _)).mpr ?_
  have found : (lastBlockFree.withFaults fun n _ => if n = 2 then some 0 else none).finds 0 2
      lastBlockFree.e4.groupCount 0 lastBlockFree.bus.ios = some (1, 2, 0) := by decide
  intro n g i again
  have same := Option.some.inj (found.symm.trans again)
  obtain ⟨rfl, rfl, rfl⟩ : 1 = n ∧ 2 = g ∧ 0 = i := by simpa using same
  decide

/-- The write of the bitmap fails: block 17 is returned twice. -/
theorem block_returned_twice : ∃ w : World,
    w = lastBlockFree.withFaults (fun n _ => if n = 3 then some 0 else none) ∧ BlockMaps w 0 ∧
      (e4AllocBlockNear 2 w).1 = some 17 ∧ (e4AllocBlockNear 2 w).2.blockUsed 0 17 = false ∧
      (e4AllocBlockNear 2 (e4AllocBlockNear 2 w).2).1 = some 17 :=
  ⟨_, rfl, lastBlockFree_consistent.withFaults _, by decide, by decide, by decide⟩

end Obsidian.Fs
