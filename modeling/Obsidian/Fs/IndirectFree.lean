import Obsidian.Fs.DataTail
import Obsidian.Fs.IndirectRead

/-!
# Truncating a legacy file

`e4_truncate` of an inode without extents frees the direct blocks and then the trees of
one, two and three levels, each from the leaves up. A node's pointers are copied out
before its children are freed, and freeing a block writes bitmaps and descriptors only, so
every tree is freed as it was when the call began.
-/
namespace Obsidian.Fs
open Lib Lib.Bytes Drivers

/-! ## The blocks of a legacy file -/

/-- The blocks of a tree of pointers: the data blocks at level 0 and the nodes above them. -/
def treeBlocks (disk : Bytes) (bs : Nat) : Nat → Nat → List Nat
  | 0, blk => if blk = 0 then [] else [blk]
  | level + 1, blk =>
    if blk = 0 then []
    else (List.range (bs / 4)).flatMap (fun slot =>
      treeBlocks disk bs level (pointerAt disk bs blk slot)) ++ [blk]

/-- The direct blocks below entry `n`, the last one first. -/
def directBlocks (inode : Bytes) : Nat → List Nat
  | 0 => []
  | n + 1 => (if Ino.block inode n ≠ 0 then [Ino.block inode n] else []) ++ directBlocks inode n

/-- Everything that can be reached from an inode without extents. -/
def legacyBlocks (disk : Bytes) (bs : Nat) (inode : Bytes) : List Nat :=
  directBlocks inode 12 ++ (treeBlocks disk bs 1 (Ino.block inode 12) ++
    (treeBlocks disk bs 2 (Ino.block inode 13) ++ treeBlocks disk bs 3 (Ino.block inode 14)))

variable {w w' w'' : World} {d b blk level bs : Nat} {disk disk' inode inode' snapshot : Bytes}
  {blocks front back : List Nat}

@[simp] theorem treeBlocks_hole (disk : Bytes) (bs level : Nat) :
    treeBlocks disk bs level 0 = [] := by
  cases level with
  | zero => rfl
  | succ level => rfl

theorem treeBlocks_root (filled : blk ≠ 0) : blk ∈ treeBlocks disk bs level blk := by
  cases level with
  | zero =>
    rw [treeBlocks, if_neg filled]
    exact List.mem_singleton.mpr rfl
  | succ level =>
    rw [treeBlocks, if_neg filled]
    exact List.mem_append_right _ (List.mem_singleton.mpr rfl)

theorem treeBlocks_congr (level : Nat) : ∀ blk,
    (∀ b ∈ treeBlocks disk bs level blk, Agree (blockAt disk' bs b) (blockAt disk bs b) 0 bs) →
      treeBlocks disk' bs level blk = treeBlocks disk bs level blk := by
  induction level with
  | zero =>
    intro blk _
    rfl
  | succ level ih =>
    intro blk same
    by_cases hole : blk = 0
    · rw [hole, treeBlocks_hole, treeBlocks_hole]
    · have hroot := same blk (treeBlocks_root hole)
      rw [treeBlocks, if_neg hole] at same
      rw [treeBlocks, treeBlocks, if_neg hole, if_neg hole]
      congr 1
      rw [List.flatMap_def]
      congr 1
      apply List.map_congr_left
      intro slot member
      have hslot := List.mem_range.mp member
      have hpointer : pointerAt disk' bs blk slot = pointerAt disk bs blk slot := by
        apply get32_congr
        intro i hlow hhigh
        exact hroot i (Nat.zero_le i) (by omega)
      rw [hpointer]
      apply ih
      intro b inside
      apply same b
      exact List.mem_append_left _ (List.mem_flatMap.mpr ⟨slot, member, inside⟩)

theorem treeBlocks_small (level : Nat) : ∀ blk, blk < 4294967296 →
    ∀ b ∈ treeBlocks disk bs level blk, 0 < b ∧ b < 4294967296 := by
  induction level with
  | zero =>
    intro blk small b member
    unfold treeBlocks at member
    split at member
    · cases member
    next filled =>
      rw [List.mem_singleton.mp member]
      exact ⟨Nat.pos_of_ne_zero filled, small⟩
  | succ level ih =>
    intro blk small b member
    unfold treeBlocks at member
    split at member
    · cases member
    next filled =>
      rcases List.mem_append.mp member with child | root
      · obtain ⟨slot, _, inside⟩ := List.mem_flatMap.mp child
        exact ih _ (get32_lt _ _) b inside
      · rw [List.mem_singleton.mp root]
        exact ⟨Nat.pos_of_ne_zero filled, small⟩

theorem directBlocks_small (inode : Bytes) (n : Nat) :
    ∀ b ∈ directBlocks inode n, 0 < b ∧ b < 4294967296 := by
  induction n with
  | zero =>
    intro b member
    cases member
  | succ n ih =>
    intro b member
    rcases List.mem_append.mp member with here | rest
    · split at here
      next filled =>
        rw [List.mem_singleton.mp here]
        exact ⟨Nat.pos_of_ne_zero filled, get32_lt _ _⟩
      · cases here
    · exact ih b rest

theorem legacyBlocks_few (distinct : (legacyBlocks disk bs inode).Nodup) :
    (legacyBlocks disk bs inode).length < 4294967296 := by
  have hrange : legacyBlocks disk bs inode ⊆ List.range' 1 4294967295 := by
    intro b member
    have hsmall : 0 < b ∧ b < 4294967296 := by
      simp only [legacyBlocks, List.mem_append] at member
      rcases member with direct | single | double | triple
      · exact directBlocks_small inode 12 b direct
      · exact treeBlocks_small 1 _ (get32_lt _ _) b single
      · exact treeBlocks_small 2 _ (get32_lt _ _) b double
      · exact treeBlocks_small 3 _ (get32_lt _ _) b triple
    rw [List.mem_range'_1]
    omega
  have hlength := (List.subperm_of_subset distinct hrange).length_le
  rw [List.length_range'] at hlength
  omega

/-! The blocks that the standard walk ends at are among them. -/

theorem walkSlots_mem (slots : List Nat) :
    ∀ ptr, (∀ slot ∈ slots, slot < bs / 4) →
    walkSlots disk bs slots ptr ≠ 0 → walkSlots disk bs slots ptr ∈
    treeBlocks disk bs slots.length ptr := by
  induction slots with
  | nil =>
    intro ptr _ filled
    exact treeBlocks_root filled
  | cons slot rest ih =>
    intro ptr inside filled
    by_cases hole : ptr = 0
    · rw [walkSlots, if_pos hole] at filled
      exact absurd rfl filled
    · rw [walkSlots, if_neg hole] at filled ⊢
      rw [List.length_cons, treeBlocks, if_neg hole]
      apply List.mem_append_left
      refine List.mem_flatMap.mpr ⟨slot, List.mem_range.mpr (inside slot List.mem_cons_self), ?_⟩
      exact ih _ (fun s hs => inside s (List.mem_cons_of_mem slot hs)) filled

theorem directBlocks_mem {n k : Nat} (low : k < n) (filled : Ino.block inode k ≠ 0) :
    Ino.block inode k ∈ directBlocks inode n := by
  induction n with
  | zero => cases low
  | succ n ih =>
    rw [directBlocks]
    by_cases here : k = n
    · apply List.mem_append_left
      rw [← here, if_pos filled]
      exact List.mem_singleton.mpr rfl
    · exact List.mem_append_right _ (ih (by omega))

/-- Whatever block the map leads to is one of these. -/
theorem standardBmap_mem (pos : 0 < bs / 4) (logical : Nat)
    (filled : standardBmap disk bs inode logical ≠ 0) :
    standardBmap disk bs inode logical ∈ legacyBlocks disk bs inode := by
  by_cases low : logical < 12
  · have hdirect : standardBmap disk bs inode logical = Ino.block inode logical := by
      rw [standardBmap, mapSlots, indirection, if_pos low, topPointer, if_pos low]
      rfl
    rw [hdirect] at filled ⊢
    exact List.mem_append_left _ (directBlocks_mem low filled)
  · have hwalk := walkSlots_mem (mapSlots (bs / 4) logical) _ (treeSlots_lt pos _ _) filled
    rw [mapSlots, topPointer, if_neg low] at hwalk
    rw [standardBmap, mapSlots, topPointer, if_neg low]
    obtain ⟨hpos, hfew⟩ := @indirection_pos (bs / 4) logical (Nat.le_of_not_lt low)
    simp only [legacyBlocks, List.mem_append]
    generalize indirection (bs / 4) logical = levels at *
    obtain rfl | rfl | rfl : levels = 1 ∨ levels = 2 ∨ levels = 3 := by omega
    · exact Or.inr (Or.inl hwalk)
    · exact Or.inr (Or.inr (Or.inl hwalk))
    · exact Or.inr (Or.inr (Or.inr hwalk))

/-! ## Freeing them -/

/-- Blocks freed one after the other, with memory for the copies asked for in between. -/
structure FreedTree (w w' : World) (d : Nat) (blocks : List Nat) : Prop where
  freed : Freed w w' d blocks
  memory : w'.heap.full = w.heap.full
  same : ∀ b, ¬ w.e4.Reserved b →
    Agree (blockAt (w'.disk d) w.e4.blockSize b) (blockAt (w.disk d) w.e4.blockSize b) 0
      w.e4.blockSize

theorem FreedTree.append (first : FreedTree w w' d front) (second : FreedTree w' w'' d back) :
    FreedTree w w'' d (front ++ back) := by
  constructor
  · exact first.freed.append second.freed
  · exact second.memory.trans first.memory
  · intro b unreserved
    have later := second.same b fun reserved => unreserved (first.freed.reserved.mp reserved)
    rw [first.freed.kept.blockSize] at later
    exact later.trans (first.same b unreserved)

theorem FreedTree.room (done : FreedTree w w' d blocks) (room : ∀ k, w.heap.full k = false) :
    ∀ k, w'.heap.full k = false := by
  rw [done.memory]
  exact room

theorem Quiet.freedTree (quiet : Quiet w w') (c : Consistent w d) : FreedTree w w' d [] := by
  constructor
  · exact quiet.markedAll_nil c false
  · rw [quiet.heap]
  · intro b _
    rw [quiet.disk]
    exact Agree.refl _ _ _

theorem Consistent.freedTree_one (c : Consistent w d) (free : Freeable w.e4 [b]) :
    FreedTree w (e4FreeBlock b w).2 d [b] := by
  -- a block behind the last one is not reserved
  have houtside : ¬ w.e4.Reserved w.e4.blocksCount := fun reserved =>
    Nat.lt_irrefl _ (c.reservedInside _ reserved).2
  constructor
  · exact c.free_one free
  · rw [(c.free_spared houtside b).heap]
  · intro b' unreserved i _ hi
    exact (c.free_spared unreserved b).block i hi

theorem Consistent.copied_out (c : Consistent w d) (room : ∀ k, w.heap.full k = false)
    (inside : blk < w.e4.blocksCount) : ∃ w1 w2, kmalloc w.e4.blockSize w = (some (), w1) ∧
      readFresh blk w1 = (some (copy zero 0 (w.disk d) (blk * w.e4.blockSize) w.e4.blockSize), w2) ∧
      FreedTree w w2 d [] := by
  have hsize : w.e4.blockSize ≠ 0 := by
    have hsectors := c.transfers.sectors
    have hblock := c.transfers.blockSize
    omega
  obtain ⟨h, hfull, hmalloc⟩ : ∃ h : HeapEnv, h.full = w.heap.full ∧
      kmalloc w.e4.blockSize w = (some (), { w with heap := h }) := by
    refine ⟨{ w.heap with calls := w.heap.calls + 1 }, rfl, ?_⟩
    rw [kmalloc, Cmd.get_bind, if_neg hsize, room]
    rfl
  have c1 : Consistent { w with heap := h } d := heap_consistent c h
  have quiet : Quiet { w with heap := h } { w with heap := h, bus := w.bus.tick } :=
    ⟨rfl, rfl, rfl, rfl⟩
  refine ⟨{ w with heap := h }, { w with heap := h, bus := w.bus.tick }, hmalloc, ?_, ?_⟩
  · rw [readFresh, c1.transfers.read inside zero]
    rfl
  · have step := quiet.freedTree c1
    exact ⟨heap_markedAll step.freed, step.memory.trans hfull, step.same⟩

/-- A tree whose blocks cannot be reserved stays as it is while others are freed. -/
theorem FreedTree.tree_stays (done : FreedTree w w' d front)
    (free : Freeable w.e4 (treeBlocks (w.disk d) w.e4.blockSize level blk)) :
    treeBlocks (w'.disk d) w.e4.blockSize level blk = treeBlocks
    (w.disk d) w.e4.blockSize level blk :=
  treeBlocks_congr level blk fun b member => done.same b (free b member).2

/-- The blocks under pointers `i` and on of a copied node. -/
def childBlocks (disk : Bytes) (bs level : Nat) (snapshot : Bytes) (more i : Nat) : List Nat :=
  (List.range' i more).flatMap fun slot => treeBlocks disk bs level (get32 snapshot (4 * slot))

theorem childBlocks_succ (disk : Bytes) (bs level : Nat) (snapshot : Bytes) (more i : Nat) :
    childBlocks disk bs level snapshot (more + 1) i =
      treeBlocks disk bs level (get32 snapshot (4 * i)) ++ childBlocks disk bs level snapshot more
      (i + 1) := by
  rw [childBlocks, List.range'_succ]
  rfl

theorem FreedTree.children_stay (done : FreedTree w w' d front) (more i : Nat)
    (free : Freeable w.e4 (childBlocks (w.disk d) w.e4.blockSize level snapshot more i)) :
    childBlocks (w'.disk d) w.e4.blockSize level snapshot more i =
      childBlocks (w.disk d) w.e4.blockSize level snapshot more i := by
  induction more generalizing i with
  | zero => rfl
  | succ more ih =>
    obtain ⟨here, rest⟩ := Freeable.append.mp free
    rw [childBlocks_succ, childBlocks_succ, done.tree_stays here, ih (i + 1) rest]

/-- `free_indirect_tree` frees every tree of that many levels. -/
def FreesTrees (d level : Nat) : Prop :=
  ∀ (w : World) (blk freed : Nat), Consistent w d → (∀ k, w.heap.full k = false) →
    Freeable w.e4 (treeBlocks (w.disk d) w.e4.blockSize level blk) →
    freed + (treeBlocks (w.disk d) w.e4.blockSize level blk).length < 4294967296 →
    ∃ w', freeIndirectTree level blk freed w =
        (some (freed + (treeBlocks (w.disk d) w.e4.blockSize level blk).length), w') ∧
      FreedTree w w' d (treeBlocks (w.disk d) w.e4.blockSize level blk)

theorem FreesTrees.forChildren (frees : FreesTrees d level) (more : Nat) :
    ∀ (w : World) (i freed : Nat), Consistent w d → (∀ k, w.heap.full k = false) →
      Freeable w.e4 (childBlocks (w.disk d) w.e4.blockSize level snapshot more i) →
      freed + (childBlocks (w.disk d) w.e4.blockSize level snapshot more i).length < 4294967296 →
      ∃ w', forChildren (freeIndirectTree level) snapshot more i freed w =
          (some (freed + (childBlocks (w.disk d) w.e4.blockSize level snapshot more i).length),
            w') ∧
        FreedTree w w' d (childBlocks (w.disk d) w.e4.blockSize level snapshot more i) := by
  induction more with
  | zero =>
    intro w i freed c _ _ _
    exact ⟨w, rfl, (Quiet.refl w).freedTree c⟩
  | succ more ih =>
    intro w i freed c room free fits
    rw [childBlocks_succ] at free fits ⊢
    obtain ⟨here, rest⟩ := Freeable.append.mp free
    rw [List.length_append] at fits
    obtain ⟨w1, hfirst, first⟩ := frees w (get32 snapshot (4 * i)) freed c room here (by omega)
    have hsize := first.freed.kept.blockSize
    have hstays := first.children_stay more (i + 1) rest
    have rest1 := first.freed.freeable rest
    rw [← hstays, ← hsize] at rest1
    obtain ⟨w2, hrest, second⟩ := ih w1 (i + 1)
      (freed + (treeBlocks (w.disk d) w.e4.blockSize level (get32 snapshot (4 * i))).length)
      first.freed.consistent (first.room room) rest1 (by rw [hsize, hstays]; omega)
    rw [hsize, hstays] at hrest second
    refine ⟨w2, ?_, first.append second⟩
    rw [Fs.forChildren, Cmd.bind_some hfirst, hrest, List.length_append, Nat.add_assoc]

theorem childBlocks_copied (aligned : bs / 4 * 4 ≤ bs) :
    childBlocks disk bs level (copy zero 0 disk (blk * bs) bs) (bs / 4) 0 =
      (List.range (bs / 4)).flatMap fun slot => treeBlocks disk bs level
      (pointerAt disk bs blk slot) := by
  rw [childBlocks, List.range_eq_range', List.flatMap_def]
  congr 1
  apply List.map_congr_left
  intro slot member
  rw [List.mem_range'_1] at member
  rw [Nat.mul_comm 4 slot, get32_copied disk zero (by omega)]

/-- By induction over the levels: the copy of the node outlives the freeing of its children,
and the node itself goes last. -/
theorem freesTrees (d level : Nat) : FreesTrees d level := by
  induction level with
  | zero =>
    intro w blk freed c _ free fits
    unfold treeBlocks at free fits ⊢
    unfold freeIndirectTree
    by_cases hole : blk = 0
    · simp only [if_pos hole] at free fits ⊢
      exact ⟨w, rfl, (Quiet.refl w).freedTree c⟩
    · simp only [if_neg hole, List.length_singleton] at free fits ⊢
      refine ⟨(e4FreeBlock blk w).2, ?_, c.freedTree_one free⟩
      rw [u32_of_lt fits]
      rfl
  | succ level ih =>
    intro w blk freed c room free fits
    unfold treeBlocks at free fits ⊢
    unfold freeIndirectTree
    by_cases hole : blk = 0
    · simp only [if_pos hole] at free fits ⊢
      exact ⟨w, rfl, (Quiet.refl w).freedTree c⟩
    · simp only [if_neg hole] at free fits ⊢
      rw [← childBlocks_copied (Nat.div_mul_le_self _ 4)] at free fits ⊢
      rw [List.length_append] at fits ⊢
      obtain ⟨freeChildren, freeNode⟩ := Freeable.append.mp free
      have hinside := (freeNode blk (List.mem_singleton.mpr rfl)).1.2
      obtain ⟨w1, w2, hmalloc, hread, copied⟩ := c.copied_out room hinside
      have hsize := copied.freed.kept.blockSize
      have hstay := copied.children_stay _ _ freeChildren
      have free2 := copied.freed.freeable freeChildren
      rw [← hstay, ← hsize] at free2
      obtain ⟨w3, hloop, children⟩ := FreesTrees.forChildren ih _ w2 0 freed copied.freed.consistent
        (copied.room room) free2
        (by rw [hsize, hstay]; omega)
      rw [hsize, hstay] at hloop children
      have done := copied.append children
      have freeLast := done.freed.freeable freeNode
      have last := done.freed.consistent.freedTree_one freeLast
      refine ⟨(e4FreeBlock blk w3).2, ?_, done.append last⟩
      rw [Cmd.get_bind, Cmd.attempt_bind, hmalloc]
      simp only [Cmd.attempt_bind, hread]
      rw [Cmd.bind_some hloop, u32_of_lt (by omega)]
      rfl

/-! ## The pointers of the inode -/

theorem block_putBlock_ne {j k : Nat} (other : j ≠ k) (inode : Bytes) (v : Nat) :
    Ino.block (Ino.putBlock inode k v) j = Ino.block inode j :=
  get32_put32_ne _ _ _ _ (by omega)

/-- Pointers `lo` to `hi` are 0 and nothing else of the inode is changed. -/
structure PointersCleared (inode inode' : Bytes) (lo hi : Nat) : Prop where
  cleared : ∀ k, lo ≤ k → k < hi → Ino.block inode' k = 0
  others : ∀ k, k < lo ∨ hi ≤ k → Ino.block inode' k = Ino.block inode k
  rest : SameOutside inode' inode 0x28 0x64

theorem PointersCleared.none (inode : Bytes) (lo : Nat) : PointersCleared inode inode lo lo :=
  ⟨fun _ hlo hhi => absurd hhi (Nat.not_lt.mpr hlo), fun _ _ => rfl, SameOutside.refl _ _ _⟩

theorem PointersCleared.extend {lo hi k lo' hi' : Nat} (pointer : k < 15)
    (later : PointersCleared (Ino.putBlock inode k 0) inode' lo hi)
    (range : ∀ j, lo' ≤ j ∧ j < hi' ↔ j = k ∨ lo ≤ j ∧ j < hi) :
    PointersCleared inode inode' lo' hi' := by
  have hsame : Ino.block (Ino.putBlock inode k 0) k = 0 := get32_put32 _ _ _
  constructor
  · intro j hlo hhi
    by_cases inside : lo ≤ j ∧ j < hi
    · exact later.cleared j inside.1 inside.2
    · have hj : j = k := ((range j).mp ⟨hlo, hhi⟩).resolve_right inside
      rw [later.others j (by omega), hj, hsame]
  · intro j outside
    have hout : ¬ (j = k ∨ lo ≤ j ∧ j < hi) := fun h => by
      have := (range j).mpr h
      omega
    rw [later.others j (by omega), block_putBlock_ne fun h => hout (Or.inl h)]
  · apply later.rest.trans
    intro j outside
    exact put32_agree _ _ _ j (j + 1) (by omega) j (Nat.le_refl j) (Nat.lt_succ_self j)

theorem directBlocks_congr {n : Nat} (same : ∀ k < n, Ino.block inode' k = Ino.block inode k) :
    directBlocks inode' n = directBlocks inode n := by
  induction n with
  | zero => rfl
  | succ n ih =>
    rw [directBlocks, directBlocks, same n (Nat.lt_succ_self n), ih fun k hk =>
      same k (Nat.lt_succ_of_lt hk)]

theorem freeDirect_frees (n : Nat) :
    ∀ (w : World) (inode : Bytes) (freed : Nat), n ≤ 12 →
    Consistent w d →
    Freeable w.e4 (directBlocks inode n) →
    ∃ inode' w', freeDirect n inode freed w =
    (some (inode', freed + (directBlocks inode n).length), w') ∧
      FreedTree w w' d (directBlocks inode n) ∧ PointersCleared inode inode' 0 n := by
  induction n with
  | zero =>
    intro w inode freed _ c _
    exact ⟨inode, w, rfl, (Quiet.refl w).freedTree c, PointersCleared.none inode 0⟩
  | succ n ih =>
    intro w inode freed bound c free
    rw [directBlocks] at free ⊢
    obtain ⟨here, rest⟩ := Freeable.append.mp free
    by_cases hole : Ino.block inode n = 0
    · rw [if_neg (not_not.mpr hole), List.nil_append]
      obtain ⟨inode', w', hloop, done, cleared⟩ := ih w inode freed (by omega) c rest
      refine ⟨inode', w', ?_, done, ?_, ?_, cleared.rest⟩
      · rw [freeDirect, if_neg (not_not.mpr hole), hloop]
      · intro k hlo hhi
        by_cases hk : k = n
        · rw [hk, cleared.others n (Or.inr (Nat.le_refl n)), hole]
        · exact cleared.cleared k hlo (by omega)
      · intro k outside
        exact cleared.others k (by omega)
    · rw [if_pos hole] at here ⊢
      have first := c.freedTree_one here
      have hbelow : directBlocks (Ino.putBlock inode n 0) n = directBlocks inode n :=
        directBlocks_congr fun k hk => block_putBlock_ne (Nat.ne_of_lt hk) inode 0
      have free1 := first.freed.freeable rest
      rw [← hbelow] at free1
      obtain ⟨inode', w', hloop, done, cleared⟩ :=
        ih (e4FreeBlock (Ino.block inode n) w).2 (Ino.putBlock inode n 0) (freed + 1) (by omega)
          first.freed.consistent free1
      rw [hbelow] at hloop done
      refine ⟨inode', w', ?_, first.append done, cleared.extend (by omega) fun j => by omega⟩
      rw [freeDirect, if_pos hole, Cmd.ignore_bind, hloop, List.length_append,
        List.length_singleton, Nat.add_assoc]

/-- The trees under entries `which` and on. -/
def indirectBlocks (disk : Bytes) (bs : Nat) (inode : Bytes) : Nat → Nat → List Nat
  | 0, _ => []
  | more + 1, which =>
    treeBlocks disk bs (which - 11) (Ino.block inode which) ++ indirectBlocks disk bs inode more
      (which + 1)

theorem legacyBlocks_eq (disk : Bytes) (bs : Nat) (inode : Bytes) :
    legacyBlocks disk bs inode = directBlocks inode 12 ++ indirectBlocks disk bs inode 3 12 := by
  simp only [legacyBlocks, indirectBlocks, List.append_nil]

theorem indirectBlocks_congr {more which : Nat}
    (same : ∀ k, which ≤ k → Ino.block inode' k = Ino.block inode k) :
    indirectBlocks disk bs inode' more which = indirectBlocks disk bs inode more which := by
  induction more generalizing which with
  | zero => rfl
  | succ more ih =>
    rw [indirectBlocks, indirectBlocks, same which (Nat.le_refl which), ih fun k hk =>
      same k (Nat.le_of_succ_le hk)]

theorem FreedTree.indirect_stays (done : FreedTree w w' d front) (more which : Nat)
    (free : Freeable w.e4 (indirectBlocks (w.disk d) w.e4.blockSize inode more which)) :
    indirectBlocks (w'.disk d) w.e4.blockSize inode more which =
      indirectBlocks (w.disk d) w.e4.blockSize inode more which := by
  induction more generalizing which with
  | zero => rfl
  | succ more ih =>
    obtain ⟨here, rest⟩ := Freeable.append.mp free
    rw [indirectBlocks, indirectBlocks, done.tree_stays here, ih (which + 1) rest]

theorem freeIndirect_frees (more : Nat) :
    ∀ (w : World) (which : Nat) (inode : Bytes) (freed : Nat),
    which + more ≤ 15 → Consistent w d → (∀ k, w.heap.full k = false) →
    Freeable w.e4 (indirectBlocks (w.disk d) w.e4.blockSize inode more which) →
    freed + (indirectBlocks (w.disk d) w.e4.blockSize inode more which).length < 4294967296 →
    ∃ inode' w', freeIndirect more which inode freed w =
        (some (inode', freed + (indirectBlocks (w.disk d) w.e4.blockSize inode more which).length),
          w') ∧
      FreedTree w w' d (indirectBlocks (w.disk d) w.e4.blockSize inode more which) ∧
      PointersCleared inode inode' which (which + more) := by
  induction more with
  | zero =>
    intro w which inode freed _ c _ _ _
    exact ⟨inode, w, rfl, (Quiet.refl w).freedTree c, PointersCleared.none inode which⟩
  | succ more ih =>
    intro w which inode freed bound c room free fits
    rw [indirectBlocks] at free fits ⊢
    rw [List.length_append] at fits
    obtain ⟨here, rest⟩ := Freeable.append.mp free
    obtain ⟨w1, htree, first⟩ := freesTrees d (which - 11) w (Ino.block inode which) freed c room
      here (by omega)
    have hsize := first.freed.kept.blockSize
    -- the later trees, on the new disk and from the new inode
    have hlater : indirectBlocks (w1.disk d) w1.e4.blockSize (Ino.putBlock inode which 0) more
      (which + 1) =
        indirectBlocks (w.disk d) w.e4.blockSize inode more (which + 1) := by
      rw [hsize, indirectBlocks_congr fun k hk => block_putBlock_ne (Nat.ne_of_gt hk) inode 0]
      exact first.indirect_stays more (which + 1) rest
    have free1 := first.freed.freeable rest
    rw [← hlater] at free1
    obtain ⟨inode', w', hloop, done, cleared⟩ := ih w1 (which + 1) (Ino.putBlock inode which 0)
      (freed + (treeBlocks (w.disk d) w.e4.blockSize (which - 11) (Ino.block inode which)).length)
        (by omega)
      first.freed.consistent (first.room room) free1 (by rw [hlater]; omega)
    rw [hlater] at hloop done
    refine ⟨inode', w', ?_, first.append done, cleared.extend (by omega) fun j => by omega⟩
    rw [freeIndirect, Cmd.bind_some htree, hloop, List.length_append, Nat.add_assoc]

/-! ## Truncation -/

/-- The inode returned, from the one without pointers and the number of blocks freed. -/
def truncatedInode (e4 : Ext4Fs) (inode : Bytes) (freed : Nat) : Bytes :=
  Ino.putSizeOrDirAcl (Ino.putSizeLo (addIblocks e4 inode (-((freed * e4.blockSize : Nat) : Int)))
    0) 0

theorem truncatedInode_block (e4 : Ext4Fs) (inode : Bytes) (freed : Nat) {k : Nat}
    (pointer : k < 15) :
    Ino.block (truncatedInode e4 inode freed) k = Ino.block inode k := by
  unfold Ino.block truncatedInode Ino.putSizeOrDirAcl Ino.putSizeLo addIblocks Ino.putBlocksLo
    Ino.putBlocksHi
  rw [get32_put32_ne _ _ _ _ (by omega), get32_put32_ne _ _ _ _ (by omega)]
  split
  · rw [get32_put16_ne _ _ _ _ (by omega), get32_put32_ne _ _ _ _ (by omega)]
  · rw [get32_put32_ne _ _ _ _ (by omega)]

theorem truncatedInode_iblocks (e4 : Ext4Fs) (inode : Bytes) (freed : Nat) :
    iblocks e4 (truncatedInode e4 inode freed) = iblocks e4 inode - freed * e4.blockSize / 512 := by
  rw [truncatedInode, truncated_iblocks, iblocks_less]

theorem Consistent.truncate_legacy (c : Consistent w d) (room : ∀ k, w.heap.full k = false)
    (legacy : Ino.flags inode &&& inoFlagExtents = 0)
    (free : Freeable w.e4 (legacyBlocks (w.disk d) w.e4.blockSize inode))
    (few : (legacyBlocks (w.disk d) w.e4.blockSize inode).length < 4294967296) :
    ∃ inode' w', e4Truncate inode 0 w = (some inode', w') ∧
      FreedTree w w' d (legacyBlocks (w.disk d) w.e4.blockSize inode) ∧
      (∀ k < 15, Ino.block inode' k = 0) ∧
      iblocks w'.e4 inode' = iblocks w.e4 inode -
        (legacyBlocks (w.disk d) w.e4.blockSize inode).length * w.e4.blockSize / 512 := by
  rw [legacyBlocks_eq] at free few ⊢
  rw [List.length_append] at few
  obtain ⟨freeDirect, freeTrees⟩ := Freeable.append.mp free
  obtain ⟨direct, w1, hdirect, first, cleared⟩ :=
    freeDirect_frees 12 w inode 0 (Nat.le_refl 12) c freeDirect
  rw [Nat.zero_add] at hdirect
  have hsize := first.freed.kept.blockSize
  have hlater : indirectBlocks (w1.disk d) w1.e4.blockSize direct 3 12 =
      indirectBlocks (w.disk d) w.e4.blockSize inode 3 12 := by
    rw [hsize, indirectBlocks_congr fun k hk => cleared.others k (Or.inr hk)]
    exact first.indirect_stays 3 12 freeTrees
  have free1 := first.freed.freeable freeTrees
  rw [← hlater] at free1
  obtain ⟨all, w2, htrees, second, emptied⟩ :=
    freeIndirect_frees 3 w1 12 direct (directBlocks inode 12).length
    (by omega) first.freed.consistent (first.room room) free1 (by rw [hlater]; omega)
  rw [hlater] at htrees second
  have done := first.append second
  have he4 : ∀ a, iblocks w2.e4 a = iblocks w.e4 a := by
    intro a
    rw [done.freed.kept.e4]
    rfl
  have hrest : SameOutside all inode 0x28 0x64 := emptied.rest.trans cleared.rest
  refine ⟨truncatedInode w2.e4 all ((directBlocks inode 12).length +
    (indirectBlocks (w.disk d) w.e4.blockSize inode 3 12).length), w2, ?_, done, ?_, ?_⟩
  · rw [e4Truncate, if_neg (by decide), if_neg (not_not.mpr legacy), Cmd.bind_some hdirect,
      Cmd.bind_some htrees]
    rfl
  · intro k pointer
    rw [truncatedInode_block _ _ _ pointer]
    by_cases low : k < 12
    · rw [emptied.others k (Or.inl low)]
      exact cleared.cleared k (Nat.zero_le k) low
    · exact emptied.cleared k (by omega) (by omega)
  · rw [truncatedInode_iblocks, he4, done.freed.kept.blockSize, List.length_append]
    congr 1
    apply iblocks_congr
    · exact fun i _ hi => hrest i (Or.inl (by omega))
    · exact fun i hi _ => hrest i (Or.inr (by omega))

/-- What truncating a legacy file does: the bits of its blocks are cleared and no others, the
free counts and `i_blocks` move by their number, and no pointer is left. -/
structure LegacyTruncated (w w' : World) (d : Nat) (inode inode' : Bytes) (blocks : List Nat) :
    Prop where
  consistent : Consistent w' d
  bits : ∀ g i, w'.used d g i = (w.used d g i && decide ((g, i) ∉ blocks.map w.e4.slotOf))
  groupFree : ∀ g < w.e4.groupCount,
    w'.e4.freeBlocks g = w.e4.freeBlocks g + blocks.countP fun b => w.e4.groupOf b = g
  totalFree : w'.e4.freeTotal = w.e4.freeTotal + blocks.length
  sectors : blocks.length * w.e4.sectorsPerBlock ≤ iblocks w.e4 inode →
    iblocks w'.e4 inode' + blocks.length * w.e4.sectorsPerBlock = iblocks w.e4 inode
  pointers : ∀ k < 15, Ino.block inode' k = 0

theorem Consistent.freed_counts (c : Consistent w d) (done : Freed w w' d blocks)
    (free : Freeable w.e4 blocks) (used : ∀ b ∈ blocks, w.blockUsed d b = true)
    (distinct : blocks.Nodup) :
    (∀ g < w.e4.groupCount,
      w'.e4.freeBlocks g = w.e4.freeBlocks g + blocks.countP fun b => w.e4.groupOf b = g) ∧
    w'.e4.freeTotal = w.e4.freeTotal + blocks.length := by
  have hslots : (blocks.map w.e4.slotOf).Nodup :=
    distinct.map_on fun a ha b hb => c.geometry.slotOf_inj (free a ha).1 (free b hb).1
  have htaken : ∀ p ∈ blocks.map w.e4.slotOf,
      p.1 < w.e4.groupCount ∧ p.2 < w.e4.lastBits p.1 ∧ w.used d p.1 p.2 = true := by
    intro p member
    obtain ⟨b, inside, rfl⟩ := List.mem_map.mp member
    obtain ⟨hgroup, hindex, _⟩ := c.geometry.slot_of_block (free b inside).1.1 (free b inside).1.2
    exact ⟨hgroup, hindex, used b inside⟩
  obtain ⟨hgroups, htotal⟩ := SlotMap.counts_markAll hslots htaken
  have hbits : w'.e4.lastBits = w.e4.lastBits := funext done.layout.lastBits
  constructor
  · intro g hg
    have hafter := done.consistent.counted.group g (by rw [done.layout.groupCount]; exact hg)
    rw [hafter, done.used, hbits, hgroups g, c.counted.group g hg, List.countP_map]
    rfl
  · rw [done.consistent.counted.total, done.used, hbits, done.layout.groupCount, htotal,
      c.counted.total,
      List.length_map]

/-- Truncating a legacy file whose blocks are in range, in use, distinct and neither bitmaps nor
descriptors frees exactly the file. -/
theorem legacy_truncate_frees_file (c : Consistent w d) (room : ∀ k, w.heap.full k = false)
    (legacy : Ino.flags inode &&& inoFlagExtents = 0)
    (inRange : ∀ b ∈ legacyBlocks (w.disk d) w.e4.blockSize inode,
      w.e4.firstDataBlock ≤ b ∧ b < w.e4.blocksCount)
    (apart : ∀ b ∈ legacyBlocks (w.disk d) w.e4.blockSize inode, ¬ w.e4.Reserved b)
    (used : ∀ b ∈ legacyBlocks (w.disk d) w.e4.blockSize inode, w.blockUsed d b = true)
    (distinct : (legacyBlocks (w.disk d) w.e4.blockSize inode).Nodup) :
    ∃ inode' w', e4Truncate inode 0 w = (some inode', w') ∧
      LegacyTruncated w w' d inode inode' (legacyBlocks (w.disk d) w.e4.blockSize inode) := by
  have free : Freeable w.e4 (legacyBlocks (w.disk d) w.e4.blockSize inode) :=
    fun b member => ⟨inRange b member, apart b member⟩
  obtain ⟨inode', w', hrun, done, hpointers, hsectors⟩ :=
    c.truncate_legacy room legacy free (legacyBlocks_few distinct)
  obtain ⟨hgroups, htotal⟩ := c.freed_counts done.freed free used distinct
  refine ⟨inode', w', hrun, ?_⟩
  constructor
  · exact done.freed.consistent
  · intro g i
    rw [done.freed.used, SlotMap.markAll]
    split
    next freed => simp [freed]
    next other => simp [other]
  · exact hgroups
  · exact htotal
  · intro enough
    have hper : ∀ n, n * w.e4.blockSize / 512 = n * w.e4.sectorsPerBlock := by
      intro n
      rw [c.transfers.blockSize, ← Nat.mul_assoc, Nat.mul_div_cancel _ (by decide)]
    rw [hsectors, hper]
    omega
  · exact hpointers

/-! A file of two data blocks, 10 and 14, the second one under the single indirect block 12. -/

def legacyWorld : World := { everyOtherFree with
  bus := ⟨fun _ => ⟨50, true, true, put32 (everyOtherFree.disk 0) (12 * 1024) 14⟩, 1,
    fun _ _ => none, 0⟩ }

def legacyInode : Bytes :=
  let b := put32 zero 0x1C 6
  let b := put32 b 0x28 10
  put32 b (0x28 + 4 * 12) 12

theorem standardBmap_mem_twelve : standardBmap (legacyWorld.disk 0) 1024 legacyInode 12 ∈
    legacyBlocks (legacyWorld.disk 0) 1024 legacyInode :=
  standardBmap_mem (by decide) 12 (by decide +kernel)

theorem legacyWorld_consistent : Consistent legacyWorld 0 := by
  have transfers : Transfers legacyWorld 0 :=
    ⟨rfl, rfl, rfl, rfl, fun _ _ => rfl, by decide, by decide, Or.inr (by decide), by decide⟩
  apply Consistent.of_groups transfers everyOtherFree_consistent.geometry
  · decide
  · decide
  · decide
  · exact ⟨by decide, by decide⟩

theorem legacy_truncate_frees_file_sample :
    ∃ inode' w', e4Truncate legacyInode 0 legacyWorld = (some inode', w') ∧
      LegacyTruncated legacyWorld w' 0 legacyInode inode' [10, 14, 12] := by
  have hblocks : legacyBlocks (legacyWorld.disk 0) legacyWorld.e4.blockSize legacyInode =
      [10, 14, 12] := by
    decide +kernel
  have frees := @legacy_truncate_frees_file legacyWorld 0 legacyInode legacyWorld_consistent
    (fun _ => rfl)
    (by decide)
  rw [hblocks] at frees
  apply frees
  · decide
  · unfold Ext4Fs.Reserved
    decide
  · decide
  · decide

end Obsidian.Fs
