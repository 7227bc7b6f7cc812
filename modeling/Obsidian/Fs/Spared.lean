import Obsidian.Fs.Append
import Obsidian.Fs.InodeTable

/-!
# Blocks that allocation spares

Taking and freeing blocks writes bitmaps, descriptors and the blocks taken. Any other
block keeps its octets, the inode tables stay where they are, and no memory is asked
for.
-/
namespace Obsidian.Fs
open Lib Lib.Bytes Drivers

variable {w w' w'' : World} {d b g i : Nat}

/-- Block `b` is as it was, and so is where things are. -/
structure Spared (w w' : World) (d b : Nat) : Prop where
  kept : Kept w w'
  tables : ∀ ino, inodeTableBlock w'.e4 ino = inodeTableBlock w.e4 ino
  heap : w'.heap = w.heap
  block : ∀ k, k < w.e4.blockSize →
    w'.disk d (b * w.e4.blockSize + k) = w.disk d (b * w.e4.blockSize + k)

theorem Spared.trans (first : Spared w w' d b) (second : Spared w' w'' d b) : Spared w w'' d b := by
  constructor
  · exact first.kept.trans second.kept
  · exact fun ino => (second.tables ino).trans (first.tables ino)
  · exact second.heap.trans first.heap
  · intro k hk
    have hsize := first.kept.blockSize
    have later := second.block k (by rw [hsize]; exact hk)
    rw [hsize] at later
    rw [later, first.block k hk]

theorem Quiet.spared (quiet : Quiet w w') (d b : Nat) : Spared w w' d b := by
  constructor
  · exact quiet.kept
  · exact fun ino => by rw [quiet.e4]
  · exact quiet.heap
  · exact fun k _ => by rw [quiet.disk]

/-! ## Memory -/

theorem e4WriteBlock_keeps (b : Nat) (buf : Bytes) : Cmd.Keeps World.heap (e4WriteBlock b buf) := by
  intro w
  unfold e4WriteBlock
  split
  · rfl
  · rfl

theorem e4SyncGd_keeps (g : Nat) : Cmd.Keeps World.heap (e4SyncGd g) :=
  .get_bind fun _ => .ite .fail <| .bind (.modify fun _ => rfl) fun _ =>
    .bind (fun w => (readScratch2_quiet _ w).heap) fun _ => .get_bind fun _ =>
      .bind (.modify fun _ => rfl) fun _ => .get_bind fun _ => e4WriteBlock_keeps _ _

theorem settle_keeps (g blk : Nat) (bm : Bytes) (delta : Int) :
    Cmd.Keeps World.heap (settle g blk bm delta) :=
  .bind (.modify fun _ => rfl) fun _ => .get_bind fun _ => .bind (.modify fun _ => rfl) fun _ =>
    .bind (.modify fun _ => rfl) fun _ => .bind (.ignore (e4SyncGd_keeps g)) fun _ =>
      .get_bind fun _ => e4WriteBlock_keeps _ _

/-! ## One block -/

theorem Transfers.spared {c : Nat} (t : Transfers w d) (inside : c < w.e4.blocksCount) (buf : Bytes)
    (other : b ≠ c) :
    Spared w (e4WriteBlock c buf w).2 d b := by
  obtain ⟨w', hwrite, wrote⟩ := t.wrote inside buf
  have hheap := e4WriteBlock_keeps c buf w
  rw [hwrite] at hheap ⊢
  constructor
  · exact wrote.kept
  · exact fun ino => by rw [wrote.e4]
  · exact hheap
  · exact wrote.other b other

theorem Consistent.settle_spared (c : Consistent w d) (hg : g < w.e4.groupCount)
    (unreserved : ¬ w.e4.Reserved b) (bm : Bytes) (delta : Int) :
    Spared w (Fs.settle g (w.e4.bitmapBlock false g) bm delta w).2 d b := by
  obtain ⟨w', hsettle, settled⟩ := c.settle hg bm delta
  have hheap := settle_keeps g (w.e4.bitmapBlock false g) bm delta w
  rw [hsettle] at hheap ⊢
  constructor
  · exact settled.kept
  · intro ino
    rw [settled.e4]
    exact recount_inodeTableBlock c.geometry.desc bm g delta ino
  · exact hheap
  · apply settled.other b
    · exact fun h => unreserved ⟨g, hg, Or.inl h⟩
    · exact fun h => unreserved ⟨g, hg, Or.inr h⟩

/-- Freeing a block, whatever becomes of it, spares every block that is not reserved. -/
theorem Consistent.free_spared (c : Consistent w d) (unreserved : ¬ w.e4.Reserved b) (b' : Nat) :
    Spared w (e4FreeBlock b' w).2 d b := by
  by_cases rejected : w.rejects d b'
  · exact (c.free_rejected rejected).2.spared d b
  · unfold World.rejects at rejected
    simp only [not_or, Nat.not_lt, Nat.not_le, Bool.not_eq_false] at rejected
    obtain ⟨hlo, hhi, htaken⟩ := rejected
    obtain ⟨hg, _, _⟩ := c.geometry.slot_of_block hlo hhi
    obtain ⟨w1, quiet, _, hfree⟩ := c.free_inside hlo hhi
    have hstays : ¬ w1.e4.Reserved b := by
      rw [quiet.e4]
      exact unreserved
    have settled := (quiet.consistent c).settle_spared (g :=
      w.e4.groupOf b') (by rw [quiet.e4]; exact hg) hstays
      (clearBit w1.scratch1 (w.e4.indexOf b')) 1
    rw [quiet.e4] at settled
    rw [hfree, if_neg (by rw [htaken]; simp)]
    exact (quiet.spared d b).trans settled

theorem takeBlock_some (g blk i : Nat) (w : World) : (takeBlock g blk i w).1 = some () := rfl

theorem Consistent.takeBlock_spared (c : Consistent w d) (hg : g < w.e4.groupCount)
    (hi : i < w.e4.lastBits g) (unreserved : ¬ w.e4.Reserved b) (other : b ≠ blkOf w.e4 g i) :
    Spared w (Fs.takeBlock g (w.e4.bitmapBlock false g) i w).2 d b := by
  have first := c.settle_spared hg unreserved (setBit w.scratch1 i) (-1)
  rw [takeBlock_settle, Cmd.ignore_bind]
  generalize (Fs.settle g (w.e4.bitmapBlock false g) (setBit w.scratch1 i) (-1) w).2 = w1 at first
  rw [Cmd.get_bind]
  have quiet : Quiet w1 { w1 with scratch2 := fill w1.scratch2 0 w1.e4.blockSize 0 } :=
    ⟨rfl, rfl, rfl, rfl⟩
  have second := first.trans (quiet.spared d b)
  have hset : setScratch2 (fill w1.scratch2 0 w1.e4.blockSize 0) w1 =
      (some (), { w1 with scratch2 := fill w1.scratch2 0 w1.e4.blockSize 0 }) := rfl
  rw [Cmd.bind_some hset, Cmd.get_bind]
  generalize { w1 with scratch2 := fill w1.scratch2 0 w1.e4.blockSize 0 } = w2 at second
  have hblk : blkOf w2.e4 g i = blkOf w.e4 g i := by
    rw [second.kept.e4]
    rfl
  have hinside : blkOf w.e4 g i < w2.e4.blocksCount := by
    rw [second.kept.e4]
    exact (c.geometry.blkOf_eq hg hi).2
  rw [hblk]
  exact second.trans ((c.transfers.kept second.kept).spared hinside w2.scratch2 other)

/-- A block is spared unless it is the one returned. -/
def SparedOrTaken (w : World) (d b : Nat) (r : Option Nat × World) : Prop :=
  r.1 = some b ∨ Spared w r.2 d b

/-- The allocator spares every block that is not reserved, except the one it returns. -/
theorem Consistent.alloc_spared (c : Consistent w d) (unreserved : ¬ w.e4.Reserved b) (hint : Nat) :
    SparedOrTaken w d b (e4AllocBlockNear hint w) := by
  have ends := c.maps.search_all hint
  cases hfound : w.finds d hint w.e4.groupCount 0 w.bus.ios with
  | none =>
    rw [hfound] at ends
    exact Or.inr (ends.2.spared d b)
  | some slot =>
    obtain ⟨n, g, i⟩ := slot
    rw [hfound] at ends
    obtain ⟨⟨hg, hi, -⟩, w1, q1, -, -, hr⟩ := ends
    have htake : Fs.takeBlock g (w.e4.bitmapBlock false g) i w1 = (some (), _) :=
      Prod.ext (takeBlock_some _ _ _ w1) rfl
    rw [hr, Cmd.bind_some htake]
    by_cases same : b = blkOf w.e4 g i
    · exact Or.inl (congrArg some same.symm)
    · have taken := (q1.consistent c).takeBlock_spared (b := b) (g := g) (i :=
        i) (by rw [q1.e4]; exact hg)
        (by rw [q1.e4]; exact hi) (by rw [q1.e4]; exact unreserved) (by rw [q1.e4]; exact same)
      rw [q1.e4] at taken
      exact Or.inr ((q1.spared d b).trans taken)

/-! ## A block in use -/

/-- A block that is in use and holds no bitmap or descriptor. -/
def World.inUse (w : World) (d b : Nat) : Prop := w.blockUsed d b = true ∧ ¬ w.e4.Reserved b

theorem Marked.inUse (m : Marked w w' d g i true) (used : w.inUse d b) : w'.inUse d b := by
  obtain ⟨taken, unreserved⟩ := used
  obtain ⟨hgroup, hindex⟩ := m.kept.sameSlots b
  refine ⟨?_, fun reserved => unreserved ((m.layout.reserved b).mp reserved)⟩
  unfold World.blockUsed at taken ⊢
  rw [hgroup, hindex, m.used]
  unfold SlotMap.mark
  split
  · rfl
  · exact taken

theorem Consistent.allocThen_spared {prep : Cmd World Bytes} (c : Consistent w d)
    (prepares : Prepares prep) (hint : Nat) (used : w.inUse d b) :
    Spared w (Fs.allocThen hint prep w).2 d b := by
  have alloc := c.alloc_spared used.2 hint
  have ends := c.alloc hint
  unfold Fs.allocThen
  cases hpick : w.choice d hint with
  | none =>
    rw [hpick] at ends
    rw [Cmd.bind_none (Prod.ext ends.1 rfl)]
    exact ends.2.spared d b
  | some p =>
    rw [hpick] at ends
    obtain ⟨hout, marked⟩ := ends
    have hblock := c.alloc_some hout
    have other : b ≠ blkOf w.e4 p.1 p.2 := by
      rintro rfl
      rw [used.1] at hblock
      exact absurd hblock.2.2.1 (by decide)
    have spared : Spared w (e4AllocBlockNear hint w).2 d b := by
      rcases alloc with returned | spared
      · rw [hout] at returned
        exact absurd (Option.some.inj returned).symm other
      · exact spared
    obtain ⟨octets, t, hprep, quiet⟩ := prepares (e4AllocBlockNear hint w).2
    have prepared := spared.trans (quiet.spared d b)
    have hinside : blkOf w.e4 p.1 p.2 < t.e4.blocksCount := by
      rw [prepared.kept.e4]
      exact hblock.2.1
    have wrote := (c.transfers.kept prepared.kept).spared hinside octets other
    rw [Cmd.bind_some (Prod.ext hout rfl), Cmd.bind_some hprep]
    exact prepared.trans (Cmd.bind_rel (R := fun s s' => Spared s s' d b) (fun _ _ _ =>
      Spared.trans) wrote
      fun _ s _ => (Quiet.refl s).spared d b)

variable {blk ino : Nat}

theorem AllocEnds.marked {r : Option Nat × World} {picked : Option (Nat × Nat)}
    (ends : AllocEnds w d r picked) (returned : r = (some blk, w')) :
    ∃ g i, picked = some (g, i) ∧ blk = blkOf w.e4 g i ∧ Marked w w' d g i true := by
  subst returned
  cases picked with
  | none => cases ends.1
  | some p => exact ⟨p.1, p.2, rfl, Option.some.inj ends.1, ends.2⟩

theorem Consistent.writeLeaves_spared (c : Consistent w d) (used : w.inUse d b) (ino cap more : Nat)
    (runs : List ExtRun) (inode : Bytes) :
    Spared w (Fs.writeLeaves ino cap more runs inode w).2 d b := by
  induction more generalizing w runs inode with
  | zero => exact (Quiet.refl w).spared d b
  | succ more ih =>
    unfold Fs.writeLeaves
    rw [writeLeaf_eq]
    refine Cmd.bind_rel (R := fun s t => Spared s t d b) (fun _ _ _ => Spared.trans)
      (c.allocThen_spared (leafBuf_prepares ino (runs.take cap)) 0 used) fun blk t returned => ?_
    obtain ⟨g, i, _, _, marked⟩ :=
      (c.allocThen (leafBuf_prepares ino (runs.take cap)) 0).marked returned
    rw [Cmd.get_bind]
    exact Cmd.bind_rel (R := fun s t => Spared s t d b) (fun _ _ _ => Spared.trans)
      (ih marked.consistent (marked.inUse used) _ _) fun _ s _ => (Quiet.refl s).spared d b

theorem Consistent.buildTree_spared (c : Consistent w d) (used : w.inUse d b) (ino : Nat)
    (runs : List ExtRun) (inode : Bytes) :
    Spared w (buildTree ino runs inode w).2 d b := by
  have same := (Quiet.refl w).spared d b
  unfold buildTree
  split
  · exact same
  split
  · exact same
  rw [Cmd.get_bind]
  split
  · exact same
  · exact Cmd.bind_rel (R := fun s t => Spared s t d b) (fun _ _ _ => Spared.trans)
      (c.writeLeaves_spared used ino _ _ runs inode) fun _ s _ => (Quiet.refl s).spared d b

theorem Consistent.appendLoop_spared (c : Consistent w d) (used : w.inUse d b) (data : Option Bytes)
    (more done : Nat) (runs : List ExtRun) :
    Spared w (Fs.appendLoop 0 data more done runs w).2 d b := by
  induction more generalizing w done runs with
  | zero => exact (Quiet.refl w).spared d b
  | succ more ih =>
    rw [appendLoop_succ]
    refine Cmd.bind_rel (R := fun s t => Spared s t d b) (fun _ _ _ => Spared.trans)
      (c.allocThen_spared (dataBuf_prepares data done) _ used) fun blk t returned => ?_
    obtain ⟨g, i, _, _, marked⟩ := (c.allocThen (dataBuf_prepares data done) _).marked returned
    exact ih marked.consistent (marked.inUse used) _ _

/-! ## An inode record -/

/-- The blocks that `e4_write_inode` writes. -/
def Ext4Fs.inodeBlocks (e4 : Ext4Fs) (ino : Nat) : List Nat :=
  if e4.inOneBlock ino then [e4.inodeBlk ino] else [e4.inodeBlk ino, u64 (e4.inodeBlk ino + 1)]

theorem Spared.inodeBlocks (spared : Spared w w' d b) (ino : Nat) :
    w'.e4.inodeBlocks ino = w.e4.inodeBlocks ino := by
  have htable := spared.tables ino
  have hbyte : w'.e4.inodeByte ino = w.e4.inodeByte ino := by
    rw [spared.kept.e4]
    rfl
  have hblk : w'.e4.inodeBlk ino = w.e4.inodeBlk ino := by
    rw [Ext4Fs.inodeBlk, Ext4Fs.inodeBlk, htable, hbyte, spared.kept.blockSize]
  have hone : w'.e4.inOneBlock ino ↔ w.e4.inOneBlock ino := by
    rw [spared.kept.e4]
    rfl
  unfold Ext4Fs.inodeBlocks
  rw [hblk]
  exact if_congr hone rfl rfl

/-- Read a block, change the buffer, write the block. -/
def editBlock (blk : Nat) (edit : World → Bytes) : Cmd World Unit := do
  readScratch1 blk
  let w ← Cmd.get
  setScratch1 (edit w)
  let w ← Cmd.get
  e4WriteBlock blk w.scratch1

theorem editBlock_spared (t : Transfers w d) (inside : blk < w.e4.blocksCount) (other : b ≠ blk)
    (edit : World → Bytes) : Spared w (editBlock blk edit w).2 d b := by
  refine Cmd.bind_rel (R := fun s t => Spared s t d b) (fun _ _ _ => Spared.trans)
    ((readScratch1_quiet blk w).spared d b) fun _ u read => ?_
  have quiet := readScratch1_quiet blk w
  rw [read] at quiet
  have edited : Quiet u { u with scratch1 := edit u } := ⟨rfl, rfl, rfl, rfl⟩
  have total := quiet.trans edited
  refine (edited.spared d b).trans ?_
  exact (t.kept total.kept).spared (by rw [total.e4]; exact inside) (edit u) other

theorem e4WriteInode_eq (inode : Bytes) (w : World) :
    e4WriteInode ino inode w =
    if ino < 1 ∨ w.e4.inodesCount < ino ∨ w.e4.writable = false then (none, w)
    else if w.e4.inOneBlock ino then
      editBlock (w.e4.inodeBlk ino)
      (fun v => copy v.scratch1 (w.e4.inodeOff ino) inode 0 v.e4.inodeSize) w
    else (editBlock (w.e4.inodeBlk ino)
        (fun v => copy v.scratch1 (w.e4.inodeOff ino) inode 0
          (w.e4.blockSize - w.e4.inodeOff ino)) >>= fun _ =>
      editBlock (u64 (w.e4.inodeBlk ino + 1)) fun v => copy v.scratch1 0 inode
      (w.e4.blockSize - w.e4.inodeOff ino)
        (v.e4.inodeSize - (w.e4.blockSize - w.e4.inodeOff ino))) w := by
  unfold e4WriteInode editBlock
  rw [Cmd.get_bind]
  by_cases refused : ino < 1 ∨ w.e4.inodesCount < ino ∨ w.e4.writable = false
  · rw [if_pos refused, if_pos refused]
    rfl
  rw [if_neg refused, if_neg refused]
  by_cases one : w.e4.inOneBlock ino
  · rw [if_pos one]
    exact congrFun (if_pos one) w
  · rw [if_neg one]
    refine (congrFun (if_neg one) w).trans ?_
    simp only [bind_assoc]
    rfl

theorem writeInode_spared (t : Transfers w d)
    (inside : ∀ c ∈ w.e4.inodeBlocks ino, c < w.e4.blocksCount ∧ b ≠ c) (inode : Bytes) :
    Spared w (e4WriteInode ino inode w).2 d b := by
  rw [e4WriteInode_eq]
  unfold Ext4Fs.inodeBlocks at inside
  split
  · exact (Quiet.refl w).spared d b
  split
  next one =>
    rw [if_pos one] at inside
    obtain ⟨hin, hne⟩ := inside _ List.mem_cons_self
    exact editBlock_spared t hin hne _
  next two =>
    rw [if_neg two] at inside
    obtain ⟨hin, hne⟩ := inside _ List.mem_cons_self
    obtain ⟨hin', hne'⟩ := inside _ (List.mem_cons_of_mem _ List.mem_cons_self)
    have first := editBlock_spared t hin hne
      fun v => copy v.scratch1 (w.e4.inodeOff ino) inode 0 (w.e4.blockSize - w.e4.inodeOff ino)
    refine Cmd.bind_rel (R := fun s t => Spared s t d b) (fun _ _ _ => Spared.trans) first
      fun _ s returned => ?_
    rw [returned] at first
    exact editBlock_spared (t.kept first.kept) (by rw [first.kept.e4]; exact hin') hne' _

end Obsidian.Fs
