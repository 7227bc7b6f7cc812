import Obsidian.Fs.FileApi
import Obsidian.Fs.Truncate

/-!
# What a written file depends on

`e4_append_blocks` copies whole blocks from the buffer of its caller. When the length is
no multiple of the block size, the last copy goes on behind the data, and what lies
there reaches the disk.
-/
namespace Obsidian.Fs
open Lib Lib.Bytes Drivers

variable {w w' : World} {d b ino len : Nat} {inode data data' : Bytes} {slots : List (Nat × Nat)}

/-! ## Blocks that lie within the data -/

theorem dataBuf_some (data : Bytes) (done : Nat) (s : World) : dataBuf (some data) done s =
    (some (copy s.scratch2 0 data (done * s.e4.blockSize) s.e4.blockSize),
      { s with scratch2 := copy s.scratch2 0 data (done * s.e4.blockSize) s.e4.blockSize }) := rfl

theorem dataBuf_congr {s : World} {done : Nat} (agree : Agree data data' 0 len)
    (inside : (done + 1) * s.e4.blockSize ≤ len) :
    dataBuf (some data) done s = dataBuf (some data') done s := by
  have hsame : copy s.scratch2 0 data (done * s.e4.blockSize) s.e4.blockSize =
      copy s.scratch2 0 data' (done * s.e4.blockSize) s.e4.blockSize := by
    rw [Nat.succ_mul] at inside
    funext j
    unfold copy
    split
    · exact agree _ (Nat.zero_le _) (by omega)
    · rfl
  rw [dataBuf_some, dataBuf_some, hsame]

section
variable (c : Consistent w d)
include c

variable {prep : Cmd World Bytes} {blk : Nat}

theorem Consistent.allocThen_congr {prep' : Cmd World Bytes} (hint : Nat)
    (same : ∀ s, s.e4.blockSize = w.e4.blockSize → prep s = prep' s) :
    Fs.allocThen hint prep w = Fs.allocThen hint prep' w := by
  unfold Fs.allocThen
  have ends := c.alloc hint
  cases hout : e4AllocBlockNear hint w with
  | mk r s =>
    rw [hout] at ends
    cases r with
    | none => rw [Cmd.bind_none hout, Cmd.bind_none hout]
    | some blk =>
      obtain ⟨_, _, _, _, marked⟩ := ends.marked rfl
      rw [Cmd.bind_some hout, Cmd.bind_some hout, Cmd.bind_apply, Cmd.bind_apply,
        same s marked.kept.blockSize]

/-- Two buffers that agree up to `len` are the same to the loop when every block it copies
lies within, and also when it runs out of blocks before the last one. -/
theorem Consistent.appendLoop_congr (agree : Agree data data' 0 len) (more done : Nat)
    (inside : (done + more) * w.e4.blockSize ≤ len ∨ (done + more - 1) * w.e4.blockSize ≤ len ∧
      w.takes d (w.e4.fileHints more done) = none) (short : done + more < 4294967296)
    (runs : List ExtRun) :
    Fs.appendLoop 0 (some data) more done runs w = Fs.appendLoop 0
    (some data') more done runs w := by
  induction more generalizing w done runs with
  | zero => rfl
  | succ more ih =>
    have hdone : u64 (0 + done) = done := by
      rw [Nat.zero_add]
      exact u64_of_lt (by omega)
    rw [appendLoop_succ, appendLoop_succ, hdone]
    have ends := c.allocThen (dataBuf_prepares (some data) done) (u32 (done / w.e4.blocksPerGroup))
    cases hpick : w.choice d (u32 (done / w.e4.blocksPerGroup)) with
    | none =>
      -- no block for this one: neither buffer is looked at
      have alloc := c.alloc (u32 (done / w.e4.blocksPerGroup))
      rw [hpick] at alloc
      unfold Fs.allocThen
      simp only [bind_assoc]
      rw [Cmd.bind_none (Prod.ext alloc.1 rfl), Cmd.bind_none (Prod.ext alloc.1 rfl)]
    | some p =>
      rw [hpick] at ends
      obtain ⟨hout, marked⟩ := ends
      have htakes : w.takes d (u32 (done / w.e4.blocksPerGroup) :: w.e4.fileHints more (done + 1)) =
          _ :=
        marked.takes hpick
      have first : (done + 1) * w.e4.blockSize ≤ len := by
        rcases inside with all | ⟨but, runsOut⟩
        · exact (Nat.mul_le_mul_right _ (by omega)).trans all
        · cases more with
          | zero =>
            rw [Ext4Fs.fileHints_succ, htakes] at runsOut
            cases runsOut
          | succ more => exact (Nat.mul_le_mul_right _ (by omega)).trans but
      have step := c.allocThen_congr (u32 (done / w.e4.blocksPerGroup)) fun s hsize =>
        dataBuf_congr (s := s) agree (by rw [hsize]; exact first)
      rw [Cmd.bind_apply, Cmd.bind_apply, ← step]
      generalize Fs.allocThen (u32 (done / w.e4.blocksPerGroup)) (dataBuf (some data) done) w =
        r at hout marked htakes
      obtain ⟨out, s⟩ := r
      cases hout
      refine ih marked.consistent (done + 1) ?_ (by omega) _
      rw [marked.kept.blockSize, Nat.add_right_comm]
      refine inside.imp_right fun ⟨but, runsOut⟩ => ⟨but, ?_⟩
      rw [Ext4Fs.fileHints_succ, htakes, Option.map_eq_none_iff] at runsOut
      rw [← runsOut, marked.kept.e4]
      rfl

/-! ## The last block -/

theorem Consistent.allocThen_holds (prepares : Prepares prep) (hint : Nat)
    (returned : Fs.allocThen hint prep w = (some blk, w')) :
    ∃ s octets t, s.e4.blockSize = w.e4.blockSize ∧ prep s = (some octets, t) ∧
      ∀ k, k < w.e4.blockSize → w'.disk d (blk * w.e4.blockSize + k) = octets k := by
  obtain ⟨blk', s, hout, returned⟩ := Cmd.bind_eq_some returned
  obtain ⟨octets, t, hprep, returned⟩ := Cmd.bind_eq_some returned
  obtain ⟨_, u, hwrite, returned⟩ := Cmd.bind_eq_some returned
  cases returned
  have hreturned : (e4AllocBlockNear hint w).1 = some blk := by rw [hout]
  have hblock := c.alloc_some hreturned
  rw [hout] at hblock
  obtain ⟨_, hinside, _, marked⟩ := hblock
  obtain ⟨octets', t', hprep', quiet⟩ := prepares s
  rw [hprep] at hprep'
  cases hprep'
  have kept := marked.kept.trans quiet.kept
  obtain ⟨u', hwrite', wrote⟩ := (c.transfers.kept kept).wrote (b :=
    blk) (by rw [kept.e4]; exact hinside) octets
  rw [hwrite] at hwrite'
  cases hwrite'
  refine ⟨s, octets, t, marked.kept.blockSize, hprep, ?_⟩
  rw [← kept.blockSize]
  exact wrote.same

theorem Consistent.allocThen_inUse (prepares : Prepares prep) (hint : Nat)
    (returned : Fs.allocThen hint prep w = (some blk, w')) : w'.inUse d blk := by
  obtain ⟨g, i, chosen, rfl, marked⟩ := (c.allocThen prepares hint).marked returned
  obtain ⟨hg, hi, clear⟩ := World.choice_valid c.geometry chosen
  obtain ⟨hgroup, hindex⟩ := c.geometry.slot_of_blkOf hg hi
  have hclear : w.blockUsed d (blkOf w.e4 g i) = false := by
    unfold World.blockUsed
    rw [hgroup, hindex]
    exact clear
  obtain ⟨hgroup', hindex'⟩ := marked.kept.sameSlots (blkOf w.e4 g i)
  constructor
  · unfold World.blockUsed
    rw [hgroup', hindex', hgroup, hindex, marked.used]
    simp [SlotMap.mark]
  · exact fun reserved => c.unreserved_of_clear hclear ((marked.layout.reserved _).mp reserved)

theorem Consistent.appendLoop_step (data : Option Bytes) (more done : Nat)
    (short : done + (more + 1) < 4294967296) (runs : List ExtRun)
    (taken : w.takes d (w.e4.fileHints (more + 1) done) = some slots) :
    ∃ p rest s, slots = p :: rest ∧ Marked w s d p.1 p.2 true ∧ s.takes d
    (s.e4.fileHints more (done + 1)) = some rest ∧
      Fs.allocThen (u32 (done / w.e4.blocksPerGroup)) (dataBuf data done) w =
      (some (blkOf w.e4 p.1 p.2), s) ∧
      Fs.appendLoop 0 data (more + 1) done runs w =
        Fs.appendLoop 0 data more (done + 1) (pushBlock runs (blkOf w.e4 p.1 p.2) done) s := by
  have hdone : u64 (0 + done) = done := by
    rw [Nat.zero_add]
    exact u64_of_lt (by omega)
  have ends := c.allocThen (dataBuf_prepares data done) (u32 (done / w.e4.blocksPerGroup))
  rw [Ext4Fs.fileHints_succ] at taken
  cases hpick : w.choice d (u32 (done / w.e4.blocksPerGroup)) with
  | none =>
    rw [takes_none hpick] at taken
    cases taken
  | some p =>
    rw [hpick] at ends
    obtain ⟨hout, marked⟩ := ends
    rw [marked.takes hpick, Option.map_eq_some_iff] at taken
    obtain ⟨rest, hrest, hslots⟩ := taken
    have hstep : Fs.allocThen (u32 (done / w.e4.blocksPerGroup)) (dataBuf data done) w =
        (some (blkOf w.e4 p.1 p.2), _) := Prod.ext hout rfl
    refine ⟨p, rest, _, hslots.symm, marked, ?_, hstep, ?_⟩
    · rw [← hrest, marked.kept.e4]
      rfl
    · rw [appendLoop_succ, hdone, Cmd.bind_some hstep]

/-- After the loop the last block holds a whole block of the buffer of the caller. -/
theorem Consistent.appendLoop_last (data : Bytes) (more done : Nat)
    (short : done + (more + 1) < 4294967296) (runs : List ExtRun)
    (taken : w.takes d (w.e4.fileHints (more + 1) done) = some slots) :
    ∃ p, slots.getLast? = some p ∧
      (Fs.appendLoop 0 (some data) (more + 1) done runs w).2.inUse d (blkOf w.e4 p.1 p.2) ∧ ∀ k,
      k < w.e4.blockSize →
        (Fs.appendLoop 0 (some data) (more + 1) done runs w).2.disk d
        (blkOf w.e4 p.1 p.2 * w.e4.blockSize + k) = data ((done + more) * w.e4.blockSize + k) := by
  induction more generalizing w done runs slots with
  | zero =>
    obtain ⟨p, rest, s, rfl, _, hrest, hstep, hloop⟩ :=
      c.appendLoop_step (some data) 0 done short runs taken
    obtain ⟨v, octets, t, hsize, hprep, holds⟩ := c.allocThen_holds (dataBuf_prepares _ _) _ hstep
    cases hrest
    refine ⟨p, rfl, ?_, ?_⟩
    · rw [hloop]
      exact c.allocThen_inUse (dataBuf_prepares _ _) _ hstep
    · intro k hk
      cases hprep
      have hcopy := copy_inside v.scratch2 0 data (done * v.e4.blockSize) v.e4.blockSize k
        (by rw [hsize]; exact hk)
      rw [Nat.zero_add] at hcopy
      rw [hloop, ← hsize]
      rw [← hsize] at holds hk
      exact (holds k hk).trans hcopy
  | succ more ih =>
    obtain ⟨p, rest, s, rfl, marked, hrest, _, hloop⟩ :=
      c.appendLoop_step (some data) (more + 1) done short runs taken
    obtain ⟨q, hlast, used, holds⟩ := ih marked.consistent (done + 1) (by omega)
      (pushBlock runs (blkOf w.e4 p.1 p.2) done) hrest
    have hblk : blkOf s.e4 q.1 q.2 = blkOf w.e4 q.1 q.2 := by
      rw [marked.kept.e4]
      rfl
    rw [hblk] at used holds
    rw [marked.kept.blockSize, Nat.add_assoc, Nat.add_comm 1 more] at holds
    rw [hloop]
    refine ⟨q, ?_, used, holds⟩
    rw [List.getLast?_cons, hlast]
    rfl

end

/-! ## The append -/

theorem kmalloc_state (size : Nat) (w : World) :
    ∃ h, (kmalloc size w).2 = { w with heap := h } := by
  unfold kmalloc
  rw [Cmd.get_bind]
  split
  · exact ⟨w.heap, rfl⟩
  · rw [Cmd.modify_bind]
    split
    · exact ⟨_, rfl⟩
    · exact ⟨_, rfl⟩

theorem kmalloc_full (full : w.heap.full w.heap.calls = true) (size : Nat) :
    (kmalloc size w).1 = none := by
  unfold kmalloc
  rw [Cmd.get_bind]
  split
  · rfl
  · rfl

theorem kmalloc_some {size : Nat} (full : ¬ w.heap.full w.heap.calls = true) (pos : size ≠ 0) :
    (kmalloc size w).1 = some () := by
  unfold kmalloc
  rw [Cmd.get_bind, if_neg pos, if_neg full]
  rfl

/-- When an append of `count` blocks looks at the first `len` octets of its data only. -/
def World.Within (w : World) (d count len : Nat) : Prop :=
  count * w.e4.blockSize ≤ len ∨
    (count - 1) * w.e4.blockSize ≤ len ∧
      (w.heap.full w.heap.calls = true ∨ w.takes d (w.e4.fileHints count 0) = none)

variable {count : Nat}

theorem Consistent.append_congr (c : Consistent w d) (agree : Agree data data' 0 len)
    (within : w.Within d count len) (short : count < 4294967296) (inode : Bytes) (ino : Nat) :
    e4AppendBlocks inode ino 0 count (some data) w = e4AppendBlocks inode ino 0 count
    (some data') w := by
  obtain ⟨h, hheap⟩ := kmalloc_state (u32 (16 * u32 (count + 1))) w
  unfold e4AppendBlocks
  cases hmalloc : (kmalloc (u32 (16 * u32 (count + 1))) w).1 with
  | none => rw [Cmd.bind_none (Prod.ext hmalloc rfl), Cmd.bind_none (Prod.ext hmalloc rfl)]
  | some u =>
    have inside : (0 + count) * w.e4.blockSize ≤ len ∨
        (0 + count - 1) * w.e4.blockSize ≤ len ∧ w.takes d (w.e4.fileHints count 0) = none := by
      rw [Nat.zero_add]
      refine within.imp_right fun ⟨but, reason⟩ => ⟨but, reason.resolve_left fun full => ?_⟩
      rw [kmalloc_full full _] at hmalloc
      cases hmalloc
    rw [Cmd.bind_some (Prod.ext hmalloc hheap), Cmd.bind_some (Prod.ext hmalloc hheap),
      Cmd.bind_apply,
      Cmd.bind_apply, (heap_consistent c h).appendLoop_congr agree count 0 inside (by omega)]

/-- The last block of a successful allocation holds a whole block of the buffer, also when the
tree could not be built. -/
theorem Consistent.append_last (c : Consistent w d) (inode data : Bytes) (ino : Nat)
    (pos : 0 < count) (short : count < 4294967296)
    (memory : (kmalloc (u32 (16 * u32 (count + 1))) w).1 = some ())
    (taken : w.takes d (w.e4.fileHints count 0) = some slots) :
    ∃ p, slots.getLast? = some p ∧ ∀ k, k < w.e4.blockSize →
      (e4AppendBlocks inode ino 0 count (some data) w).2.disk d
      (blkOf w.e4 p.1 p.2 * w.e4.blockSize + k) = data ((count - 1) * w.e4.blockSize + k) := by
  obtain ⟨h, hheap⟩ := kmalloc_state (u32 (16 * u32 (count + 1))) w
  obtain ⟨more, rfl⟩ : ∃ more, count = more + 1 := ⟨count - 1, by omega⟩
  have c0 := heap_consistent c h
  have ends := c0.appendLoop (some data) (more + 1) 0 (by omega) []
  rw [show ({ w with heap := h } : World).takes d _ = some slots from taken] at ends
  obtain ⟨runs, hruns, _, marked⟩ := ends
  obtain ⟨p, hlast, used, holds⟩ := c0.appendLoop_last data more 0 (by omega) [] taken
  refine ⟨p, hlast, ?_⟩
  intro k hk
  have hloop : Fs.appendLoop 0 (some data) (more + 1) 0 [] { w with heap := h } =
      (some runs, (Fs.appendLoop 0 (some data) (more + 1) 0 [] { w with heap := h }).2) :=
        Prod.ext hruns rfl
  have hholds := holds k hk
  generalize (Fs.appendLoop 0 (some data) (more + 1) 0 [] { w with heap := h }).2 =
    w1 at hloop marked used hholds
  have built := marked.consistent.buildTree_spared used ino runs inode
  have hblock := built.block k (by rw [marked.kept.blockSize]; exact hk)
  rw [marked.kept.blockSize] at hblock
  unfold e4AppendBlocks
  rw [Cmd.bind_some (Prod.ext memory hheap), Cmd.bind_some hloop]
  have rest := Cmd.bind_after (R := fun s t => t.disk d = s.disk d) (c :=
    buildTree ino runs inode) (s := w1)
    (f := fun inode => Cmd.get >>= fun w =>
      pure (addIblocks w.e4 inode ((more + 1 : Nat) * w.e4.blockSize)))
    (fun _ => rfl) fun _ _ _ => rfl
  rw [rest]
  refine hblock.trans (hholds.trans ?_)
  rw [Nat.zero_add, Nat.add_sub_cancel]

theorem MarkedAll.inUse {v : Bool} (m : MarkedAll w w' d slots v)
    (stays : v = true ∨ w.e4.slotOf b ∉ slots) (used : w.inUse d b) :
    w'.inUse d b := by
  obtain ⟨taken, unreserved⟩ := used
  obtain ⟨hgroup, hindex⟩ := m.kept.sameSlots b
  refine ⟨?_, fun reserved => unreserved (m.reserved.mp reserved)⟩
  unfold World.blockUsed at taken ⊢
  rw [hgroup, hindex, m.used]
  by_cases member : w.e4.slotOf b ∈ slots
  · rw [SlotMap.markAll_mem _ _ member]
    exact stays.resolve_right (not_not.mpr member)
  · rw [SlotMap.markAll_not_mem _ _ member]
    exact taken

theorem Consistent.append_spared (c : Consistent w d) (used : w.inUse d b) (inode : Bytes)
    (ino count : Nat) (short : count < 4294967296) (data : Option Bytes) :
    ∃ h, Spared { w with heap := h } (e4AppendBlocks inode ino 0 count data w).2 d b := by
  obtain ⟨h, hheap⟩ := kmalloc_state (u32 (16 * u32 (count + 1))) w
  have c0 := heap_consistent c h
  refine ⟨h, ?_⟩
  unfold e4AppendBlocks
  cases hmalloc : (kmalloc (u32 (16 * u32 (count + 1))) w).1 with
  | none =>
    rw [Cmd.bind_none (Prod.ext hmalloc hheap)]
    exact (Quiet.refl _).spared d b
  | some u =>
    rw [Cmd.bind_some (Prod.ext hmalloc hheap)]
    have loop := c0.appendLoop_spared used data count 0 []
    refine Cmd.bind_rel (R := fun s t => Spared s t d b) (fun _ _ _ => Spared.trans) loop
      fun runs w1 returned => ?_
    obtain ⟨slots, _, marked⟩ := c0.loop_grouped short returned
    exact Cmd.bind_rel (R := fun s t => Spared s t d b) (fun _ _ _ => Spared.trans)
      (marked.consistent.buildTree_spared (marked.inUse (Or.inl rfl) used) ino runs inode)
        fun _ s _ => (Quiet.refl s).spared d b

/-! ## The replacement -/

/-- The slots that the blocks of the new contents go to, once the old blocks are free. -/
def World.replaceSlots (w : World) (d : Nat) (inode : Bytes) (len : Nat) :
    Option (List (Nat × Nat)) :=
  SlotMap.takeAll w.e4.lastBits
    ((w.e4.fileHints (w.e4.blocksFor len) 0).map fun hint => visitOrder hint w.e4.groupCount)
    (SlotMap.markAll (w.used d) ((rootBlocks inode).map w.e4.slotOf) false)

/-- The inode record lies in blocks that are in use and are not blocks of the file. -/
structure Housed (w : World) (d ino : Nat) (inode : Bytes) : Prop where
  inside : ∀ c ∈ w.e4.inodeBlocks ino, w.e4.firstDataBlock ≤ c ∧ c < w.e4.blocksCount
  inUse : ∀ c ∈ w.e4.inodeBlocks ino, w.inUse d c
  apart : ∀ c ∈ w.e4.inodeBlocks ino, c ∉ rootBlocks inode

theorem Ext4Fs.inodeBlk_mem (e4 : Ext4Fs) (ino : Nat) : e4.inodeBlk ino ∈ e4.inodeBlocks ino := by
  unfold Ext4Fs.inodeBlocks
  split
  · exact List.mem_cons_self
  · exact List.mem_cons_self

variable {e4 : Ext4Fs}

theorem Geometry.slotOf_inj {c : Nat} (geo : Geometry e4)
    (hb : e4.firstDataBlock ≤ b ∧ b < e4.blocksCount)
    (hc : e4.firstDataBlock ≤ c ∧ c < e4.blocksCount) (same : e4.slotOf b = e4.slotOf c) :
    b = c := by
  obtain ⟨_, _, atB⟩ := geo.slot_of_block hb.1 hb.2
  obtain ⟨_, _, atC⟩ := geo.slot_of_block hc.1 hc.2
  obtain ⟨hgroup, hindex⟩ := Prod.mk.inj same
  rw [← atB, ← atC, hgroup, hindex]

/-- What truncation leaves for the new contents. -/
structure Emptied (w w' : World) (d ino : Nat) (inode : Bytes) (len : Nat) : Prop where
  kept : Kept w w'
  consistent : Consistent w' d
  heap : w'.heap = w.heap
  takes : w'.takes d (w'.e4.fileHints (w'.e4.blocksFor len) 0) = w.replaceSlots d inode len
  home : ∀ c ∈ w'.e4.inodeBlocks ino, c < w'.e4.blocksCount ∧ w'.inUse d c

theorem Emptied.blocksFor (emptied : Emptied w w' d ino inode len) :
    w'.e4.blocksFor len = w.e4.blocksFor len := by
  unfold Ext4Fs.blocksFor
  rw [emptied.kept.blockSize]

theorem FreedOnly.emptied (only : FreedOnly w w' d (rootBlocks inode)) (c : Consistent w d)
    (free : Freeable w.e4 (rootBlocks inode)) (housed : Housed w d ino inode) (len : Nat) :
    Emptied w w' d ino inode len := by
  have spared := only.spared _ (housed.inUse _ (w.e4.inodeBlk_mem ino)).2
  constructor
  · exact spared.kept
  · exact only.freed.consistent
  · exact spared.heap
  · unfold World.takes World.replaceSlots
    rw [only.freed.used, spared.kept.e4]
    rfl
  · rw [spared.inodeBlocks ino]
    intro b member
    have range := housed.inside b member
    constructor
    · rw [spared.kept.e4]
      exact range.2
    · refine only.freed.inUse (Or.inr ?_) (housed.inUse b member)
      intro slot
      obtain ⟨b', member', same⟩ := List.mem_map.mp slot
      have hb := c.geometry.slotOf_inj (free b' member').1 range same
      rw [hb] at member'
      exact housed.apart b member member'

theorem doReplace_eq {inode1 : Bytes} (extents : Ino.flags inode &&& inoFlagExtents ≠ 0)
    (truncated : e4Truncate inode 0 w = (some inode1, w')) (now : Nat) (data : Bytes)
    (pos : 0 < len) :
    doReplace now ino inode data len w =
      ((if w'.e4.blocksFor len ≠
        0 then e4AppendBlocks inode1 ino 0 (w'.e4.blocksFor len) (some data)
        else pure inode1) >>= fun tree => e4WriteInode ino (stampInode now len tree) >>= fun _ =>
          pure (stampInode now len tree)) w' := by
  unfold doReplace
  rw [if_neg extents, Cmd.bind_some truncated, Cmd.get_bind, if_pos (Nat.pos_iff_ne_zero.mp pos),
    Cmd.ite_bind]

theorem Ext4Fs.blocksFor_span (size : 512 ≤ e4.blockSize) (pos : 0 < len)
    (fits : len + e4.blockSize ≤ 4294967296) :
    0 < e4.blocksFor len ∧ e4.blocksFor len < 8388608 ∧
    (e4.blocksFor len - 1) * e4.blockSize < len ∧
      len ≤ e4.blocksFor len * e4.blockSize := by
  have hu32 : u32 (len + e4.blockSize - 1) = len + e4.blockSize - 1 := u32_of_lt (by omega)
  have hmod := Nat.div_add_mod (len + e4.blockSize - 1) e4.blockSize
  have hlt := Nat.mod_lt (len + e4.blockSize - 1) (by omega : 0 < e4.blockSize)
  unfold Ext4Fs.blocksFor
  rw [hu32]
  generalize (len + e4.blockSize - 1) / e4.blockSize = n at hmod ⊢
  have hpos : 0 < n := by
    rcases Nat.eq_zero_or_pos n with rfl | h
    · omega
    · exact h
  have hbound : 512 * n ≤ e4.blockSize * n := Nat.mul_le_mul_right n size
  rw [Nat.sub_mul, Nat.mul_comm n]
  omega

theorem Ext4Fs.blocksFor_wrap (pos : 0 < len) (word : len < 4294967296)
    (wraps : 4294967296 < len + e4.blockSize) :
    e4.blocksFor len = 0 := by
  apply Nat.div_eq_of_lt
  unfold u32
  omega

theorem Transfers.blockSize_le (t : Transfers w d) : 512 ≤ w.e4.blockSize := by
  have hsectors := t.sectors
  rw [t.blockSize]
  omega

/-- The disk after a replacement depends on the data alone, and behind the data the last
block is zero. -/
structure DataOnly (w : World) (d now ino : Nat) (inode data : Bytes) (len : Nat) : Prop where
  same : ∀ data', Agree data data' 0 len →
    (doReplace now ino inode data' len w).2.disk d = (doReplace now ino inode data len w).2.disk d
  tail : ∀ inode' w' slots p, doReplace now ino inode data len w = (some inode', w') →
    w.replaceSlots d inode len = some slots → slots.getLast? = some p →
    ∀ k, k < w.e4.blockSize → len ≤ (w.e4.blocksFor len - 1) * w.e4.blockSize + k →
      w'.disk d (blkOf w.e4 p.1 p.2 * w.e4.blockSize + k) = 0

/-- Writing the inode record after an append spares the blocks that were clear before it. -/
theorem Emptied.stamp_spared {count : Nat} (emptied : Emptied w w' d ino inode len)
    (clear : w'.blockUsed d b = false) (short : count < 4294967296) (inode1 : Bytes)
    (data : Option Bytes) (stamp : Bytes → Bytes) :
    (e4AppendBlocks inode1 ino 0 count data w').2.e4.blockSize = w'.e4.blockSize ∧
      Spared (e4AppendBlocks inode1 ino 0 count data w').2
        ((e4AppendBlocks inode1 ino 0 count data >>= fun tree =>
          e4WriteInode ino (stamp tree) >>= fun _ =>
          pure (stamp tree)) w').2 d b := by
  have used := (emptied.home _ (w'.e4.inodeBlk_mem ino)).2
  obtain ⟨h, spared⟩ := emptied.consistent.append_spared used inode1 ino count short data
  refine ⟨spared.kept.blockSize, ?_⟩
  apply Cmd.bind_after (R := fun s t => Spared s t d b) (fun s => (Quiet.refl s).spared d b)
  intro tree t appended
  rw [appended] at spared
  refine Cmd.bind_rel (R := fun s t => Spared s t d b) (fun _ _ _ => Spared.trans) ?_ fun _ s _ =>
    (Quiet.refl s).spared d b
  apply writeInode_spared ((heap_consistent emptied.consistent h).transfers.kept spared.kept)
  rw [spared.inodeBlocks ino]
  intro c member
  obtain ⟨inside, used⟩ := emptied.home c member
  constructor
  · rw [spared.kept.e4]
    exact inside
  · rintro rfl
    rw [used.1] at clear
    cases clear

theorem dataOnly_legacy (legacy : Ino.flags inode &&& inoFlagExtents = 0) (now : Nat)
    (data : Bytes) :
    DataOnly w d now ino inode data len := by
  have hfails : ∀ data, doReplace now ino inode data len w = (none, w) := by
    intro data
    unfold doReplace
    rw [if_pos legacy]
    rfl
  constructor
  · intro data' _
    rw [hfails, hfails]
  · intro inode' w' slots p returned
    rw [hfails] at returned
    cases returned

section emptied

variable {inode1 : Bytes} (emptied : Emptied w w' d ino inode len)
    (extents : Ino.flags inode &&& inoFlagExtents ≠ 0)
  (truncated : e4Truncate inode 0 w = (some inode1, w')) (pos : 0 < len)

include emptied extents truncated pos

/-- What lies behind the data reaches the disk: the octet that follows it is found in the last
block. -/
theorem Emptied.replace_last (fits : len + w.e4.blockSize ≤ 4294967296)
    (memory : ¬ w.heap.full w.heap.calls = true) (taken : w.replaceSlots d inode len = some slots) :
    ∃ p, slots.getLast? = some p ∧ ∀ now data k, k < w.e4.blockSize →
      (doReplace now ino inode data len w).2.disk d (blkOf w.e4 p.1 p.2 * w.e4.blockSize + k) =
        data ((w.e4.blocksFor len - 1) * w.e4.blockSize + k) := by
  have c := emptied.consistent
  have hsize := emptied.kept.blockSize
  have hcount := emptied.blocksFor
  obtain ⟨hpos, hbound, _, _⟩ := Ext4Fs.blocksFor_span (hsize ▸ c.transfers.blockSize_le) pos fits
  have htakes := emptied.takes.trans taken
  rw [hcount] at htakes
  have hmalloc : (kmalloc (u32 (16 * u32 (w.e4.blocksFor len + 1))) w').1 = some () := by
    apply kmalloc_some
    · rw [emptied.heap]
      exact memory
    · unfold u32
      omega
  have short : w.e4.blocksFor len < 4294967296 := by omega
  obtain ⟨p, hlast, _⟩ := c.append_last inode1 zero ino hpos short hmalloc htakes
  have hblk : blkOf w'.e4 p.1 p.2 = blkOf w.e4 p.1 p.2 := by
    rw [emptied.kept.e4]
    rfl
  have clear : w'.blockUsed d (blkOf w.e4 p.1 p.2) = false := by
    rw [← hblk]
    exact ((c.takes_clear htakes).1.block c.geometry
      (List.mem_map_of_mem (List.mem_of_getLast? hlast))).2.2.2
  refine ⟨p, hlast, fun now data k hk => ?_⟩
  obtain ⟨q, hlast', holds⟩ := c.append_last inode1 data ino hpos short hmalloc htakes
  cases hlast.symm.trans hlast'
  rw [hsize, hblk] at holds
  rw [doReplace_eq extents truncated now data pos, hcount, if_pos (Nat.pos_iff_ne_zero.mp hpos),
    ← holds k hk]
  obtain ⟨hlate, spared⟩ := emptied.stamp_spared clear short inode1 (some data) (stampInode now len)
  rw [hsize] at hlate
  have hblock := spared.block k (by rw [hlate]; exact hk)
  rw [hlate] at hblock
  exact hblock

theorem Emptied.dataOnly_wrap (none : w.e4.blocksFor len = 0) (now : Nat) (data : Bytes) :
    DataOnly w d now ino inode data len := by
  have hcount := emptied.blocksFor.trans none
  constructor
  · intro data' _
    rw [doReplace_eq extents truncated now data pos, doReplace_eq extents truncated now data' pos,
      hcount]
    rfl
  · intro inode' w' slots p _ taken hlast
    unfold World.replaceSlots at taken
    rw [none] at taken
    cases taken
    cases hlast

theorem Emptied.dataOnly_within (fits : len + w.e4.blockSize ≤ 4294967296)
    (within : w.e4.blocksFor len * w.e4.blockSize ≤ len ∨ w.heap.full w.heap.calls = true ∨
      w.replaceSlots d inode len = none) (now : Nat) (data : Bytes) :
    DataOnly w d now ino inode data len := by
  have c := emptied.consistent
  have hsize := emptied.kept.blockSize
  obtain ⟨hpos, hbound, hbut, _⟩ :=
    Ext4Fs.blocksFor_span (hsize ▸ c.transfers.blockSize_le) pos fits
  have hne : w'.e4.blocksFor len ≠ 0 := by
    rw [emptied.blocksFor]
    omega
  constructor
  · intro data' agree
    have hwithin : w'.Within d (w'.e4.blocksFor len) len := by
      unfold World.Within
      rw [emptied.takes, emptied.heap, emptied.blocksFor, hsize]
      exact within.imp_right fun reason => ⟨hbut.le, reason⟩
    have happend := c.append_congr agree hwithin (by rw [emptied.blocksFor]; omega) inode1 ino
    rw [doReplace_eq extents truncated now data pos, doReplace_eq extents truncated now data' pos,
      if_pos hne,
      if_pos hne, Cmd.bind_apply, Cmd.bind_apply, happend]
  · intro inode' w'' slots p returned taken _ k hk behind
    exfalso
    rcases within with all | full | runsOut
    · -- the last block is full
      have hsplit : (w.e4.blocksFor len - 1) * w.e4.blockSize + w.e4.blockSize =
          w.e4.blocksFor len * w.e4.blockSize := by
        rw [← Nat.succ_mul, Nat.succ_eq_add_one, Nat.sub_add_cancel hpos]
      omega
    · rw [doReplace_eq extents truncated now data pos, if_pos hne] at returned
      obtain ⟨tree, t, happend, _⟩ := Cmd.bind_eq_some returned
      obtain ⟨_, _, hmalloc, _⟩ := Cmd.bind_eq_some happend
      rw [← emptied.heap] at full
      have hnone := kmalloc_full full (u32 (16 * u32 (w'.e4.blocksFor len + 1)))
      rw [hmalloc] at hnone
      cases hnone
    · rw [runsOut] at taken
      cases taken

theorem Emptied.leaks (fits : len + w.e4.blockSize ≤ 4294967296)
    (memory : ¬ w.heap.full w.heap.calls = true) (room : w.replaceSlots d inode len ≠ none)
    (behind : len < w.e4.blocksFor len * w.e4.blockSize) (now : Nat) (data : Bytes) :
    ¬ DataOnly w d now ino inode data len := by
  intro dataOnly
  obtain ⟨slots, taken⟩ := Option.ne_none_iff_exists'.mp room
  obtain ⟨p, _, holds⟩ := emptied.replace_last extents truncated pos fits memory taken
  obtain ⟨hpos, _, hbut, _⟩ := Ext4Fs.blocksFor_span
    (emptied.kept.blockSize ▸ emptied.consistent.transfers.blockSize_le) pos fits
  have hsplit : (w.e4.blocksFor len - 1) * w.e4.blockSize + w.e4.blockSize =
      w.e4.blocksFor len * w.e4.blockSize := by
    rw [← Nat.succ_mul, Nat.succ_eq_add_one, Nat.sub_add_cancel hpos]
  obtain ⟨k, hk⟩ : ∃ k, (w.e4.blocksFor len - 1) * w.e4.blockSize + k = len :=
    ⟨_, Nat.add_sub_of_le hbut.le⟩
  let data' : Bytes := fun i => if i = len then (if data len = 0 then 1 else 0) else data i
  have agree : Agree data data' 0 len := fun i _ hi => (if_neg (Nat.ne_of_lt hi)).symm
  have hsame := congrFun (dataOnly.same data' agree) (blkOf w.e4 p.1 p.2 * w.e4.blockSize + k)
  rw [holds now data' k (by omega), holds now data k (by omega), hk] at hsame
  have hother : data' len ≠ data len := by
    show (if len = len then (if data len = 0 then 1 else 0) else data len) ≠ data len
    rw [if_pos rfl]
    split
    next hzero =>
      rw [hzero]
      decide
    next hne => exact Ne.symm hne
  exact hother hsame

end emptied

/-- The buffer behind the data is left alone when the last block is full, when nothing is
appended, and when the append ends before its last block. Otherwise it is not. -/
theorem replace_data_only_iff (c : Consistent w d) (free : Freeable w.e4 (rootBlocks inode))
    (housed : Housed w d ino inode) (now : Nat) (data : Bytes) (pos : 0 < len)
    (word : len < 4294967296) :
    DataOnly w d now ino inode data len ↔
      w.e4.blockSize ∣ len ∨ Ino.flags inode &&& inoFlagExtents = 0 ∨
      4294967296 < len + w.e4.blockSize ∨
        w.heap.full w.heap.calls = true ∨ w.replaceSlots d inode len = none := by
  by_cases legacy : Ino.flags inode &&& inoFlagExtents = 0
  · exact iff_of_true (dataOnly_legacy legacy now data) (Or.inr (Or.inl legacy))
  obtain ⟨inode1, w1, truncated, only, _⟩ := c.truncate legacy free
  have emptied := only.emptied c free housed len
  by_cases wraps : 4294967296 < len + w.e4.blockSize
  · have hnone := Ext4Fs.blocksFor_wrap pos word wraps
    exact iff_of_true (emptied.dataOnly_wrap legacy truncated pos hnone now data)
      (Or.inr (Or.inr (Or.inl wraps)))
  have fits := Nat.not_lt.mp wraps
  obtain ⟨hpos, _, hbut, hall⟩ := Ext4Fs.blocksFor_span c.transfers.blockSize_le pos fits
  constructor
  · intro dataOnly
    by_contra other
    simp only [not_or] at other
    obtain ⟨partBlock, _, _, memory, room⟩ := other
    have behind : len < w.e4.blocksFor len * w.e4.blockSize := by
      refine lt_of_le_of_ne hall fun same => partBlock ?_
      rw [same]
      exact Nat.dvd_mul_left _ _
    exact emptied.leaks legacy truncated pos fits memory room behind now data dataOnly
  · intro holds
    refine emptied.dataOnly_within legacy truncated pos fits ?_ now data
    rcases holds with ⟨n, rfl⟩ | h | h | rest
    · -- with a full last block the count is the quotient
      left
      rw [Nat.mul_comm] at hbut ⊢
      have hlt := Nat.lt_of_mul_lt_mul_left hbut
      exact Nat.mul_le_mul_left _ (by omega)
    · exact absurd h legacy
    · exact absurd h wraps
    · exact Or.inr rest

/-- `everyOtherFree` with a table of twelve inodes in blocks 6 to 8. -/
def tableAtSix : World := { everyOtherFree with
  e4 := { everyOtherFree.e4 with
    inodesCount := 12, inodesPerGroup := 12,
    gdt := fun i => if i = 8 then 6 else everyOtherFree.e4.gdt i } }

theorem tableAtSix_consistent : Consistent tableAtSix 0 := by
  have t := everyOtherFree_consistent.transfers
  have geo := everyOtherFree_consistent.geometry
  apply Consistent.of_groups
  · exact ⟨t.dev, t.writable, t.devWritable, t.devWrites, t.healthy, t.sectors, t.blockSize,
      t.room, t.span⟩
  · exact ⟨geo.desc, geo.descFits, geo.groupSize, geo.groupBits, geo.groupSmall, geo.groups,
      geo.groupsSmall,
      geo.first, geo.firstSmall, geo.countSmall⟩
  · decide +kernel
  · decide +kernel
  · decide +kernel
  · exact ⟨by decide +kernel, by decide +kernel⟩

theorem tableAtSix_housed : Housed tableAtSix 0 12 emptyRootInode := by
  have hblocks : tableAtSix.e4.inodeBlocks 12 = [8] := by decide +kernel
  constructor
  · rw [hblocks]
    decide +kernel
  · intro c member
    rw [hblocks, List.mem_singleton] at member
    subst member
    constructor
    · decide +kernel
    · have apart : ∀ g < 3, tableAtSix.e4.bitmapBlock false g ≠ 8 ∧
        tableAtSix.e4.descBlock g ≠ 8 := by decide +kernel
      rintro ⟨g, hg, held⟩
      exact held.elim (fun h => (apart g hg).1 h.symm) fun h => (apart g hg).2 h.symm
  · rw [hblocks]
    decide +kernel

/-- A file of one full block. -/
theorem replace_data_only_full_block : DataOnly tableAtSix 0 0 12 emptyRootInode zero 1024 := by
  have free : Freeable tableAtSix.e4 (rootBlocks emptyRootInode) := by
    have hnone : rootBlocks emptyRootInode = [] := by decide +kernel
    rw [hnone]
    exact fun b member => absurd member List.not_mem_nil
  exact (replace_data_only_iff tableAtSix_consistent free tableAtSix_housed 0 zero (by decide)
    (by decide)).mpr
    (Or.inl ⟨1, rfl⟩)

/-- A file of one octet: what follows the octet in the buffer is on the disk afterwards. -/
theorem octet_behind_data_stored :
    Agree zero (fun i => if i = 1 then 0x53 else 0) 0 1 ∧
      (doReplace 0 12 emptyRootInode zero 1 tableAtSix).2.disk 0 (9 * 1024 + 1) = 0 ∧
      (doReplace 0 12 emptyRootInode (fun i => if i = 1 then 0x53 else 0) 1 tableAtSix).2.disk 0
      (9 * 1024 + 1) = 0x53 := by
  refine ⟨?_, ?_, ?_⟩
  · intro i _ hi
    exact (if_neg (by omega)).symm
  · decide +kernel
  · decide +kernel

end Obsidian.Fs
