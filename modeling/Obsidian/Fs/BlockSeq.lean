import Obsidian.Fs.BlockRuns

/-!
# Several blocks in turn

Taking or freeing blocks one after the other, seen on the block map: `takes` names the
slots that a list of hints takes from the map alone, and `allocSeq`, the calls of the
allocator themselves, returns their blocks.
-/
namespace Obsidian.Fs
open Lib Lib.Bytes Drivers

variable {w w' w'' : World} {d b g i : Nat} {buf : Bytes} {v : Bool}

/-! ## Several blocks -/

/-- The slot of a block. -/
def Ext4Fs.slotOf (e4 : Ext4Fs) (b : Nat) : Nat × Nat := (e4.groupOf b, e4.indexOf b)

/-- The state after blocks were taken or freed one after the other. -/
structure MarkedAll (w w' : World) (d : Nat) (slots : List (Nat × Nat)) (v : Bool) : Prop where
  kept : Kept w w'
  layout : SameLayout w.e4 w'.e4
  consistent : Consistent w' d
  used : w'.used d = SlotMap.markAll (w.used d) slots v

variable {e4 : Ext4Fs} {back : List (Nat × Nat)} {s : World} {α : Type}
    {out : List (Nat × Nat) → α → Prop}
  {r : Option α × World}

theorem SameLayout.trans {e4' e4'' : Ext4Fs} (p : SameLayout e4 e4') (q : SameLayout e4' e4'') :
    SameLayout e4 e4'' :=
  ⟨q.groupCount.trans p.groupCount, q.blockSize.trans p.blockSize,
    fun g => (q.bitmapBlock g).trans (p.bitmapBlock g), fun g =>
      (q.descBlock g).trans (p.descBlock g),
    fun g => (q.lastBits g).trans (p.lastBits g)⟩

theorem Quiet.markedAll_nil (q : Quiet w w') (c : Consistent w d) (v : Bool) :
    MarkedAll w w' d [] v := by
  constructor
  · exact q.kept
  · rw [q.e4]
    exact SameLayout.refl _
  · exact q.consistent c
  · rw [q.used, SlotMap.markAll_nil]

theorem Marked.markedAll {slots : List (Nat × Nat)} (m : Marked w w' d g i v)
    (rest : MarkedAll w' w'' d slots v) : MarkedAll w w'' d ((g, i) :: slots) v := by
  constructor
  · exact m.kept.trans rest.kept
  · exact m.layout.trans rest.layout
  · exact rest.consistent
  · rw [rest.used, m.used, SlotMap.markAll_cons _ (g, i)]

theorem MarkedAll.append {front : List (Nat × Nat)} (m : MarkedAll w w' d front v)
    (rest : MarkedAll w' w'' d back v) :
    MarkedAll w w'' d (front ++ back) v := by
  constructor
  · exact m.kept.trans rest.kept
  · exact m.layout.trans rest.layout
  · exact rest.consistent
  · rw [rest.used, m.used, SlotMap.markAll_append]

theorem Marked.fill {t : World} (c : Consistent w d) (m : Marked w w' d g i v) (q : Quiet w' s)
    (wrote : Wrote s t d b buf) (clear : w.blockUsed d b = false) : Marked w t d g i v := by
  have cs := q.consistent m.consistent
  have apart : ∀ h, h < s.e4.groupCount → s.e4.bitmapBlock false h ≠ b := by
    intro h hh
    rw [q.e4, m.layout.groupCount] at hh
    rw [q.e4, m.layout.bitmapBlock]
    exact c.maps.clear_apart clear h hh
  constructor
  · exact (m.kept.trans q.kept).trans wrote.kept
  · rw [wrote.e4, q.e4]
    exact m.layout
  · exact wrote.consistent cs apart
  · rw [wrote.used apart, q.used, m.used]

/-- A block in range that holds no bitmap or descriptor is clear after `e4_free_block`, and
nothing else changes. -/
theorem Consistent.free_marks (c : Consistent w d) (hlo : w.e4.firstDataBlock ≤ b)
    (hhi : b < w.e4.blocksCount) (unreserved : ¬ w.e4.Reserved b) :
    Marked w (e4FreeBlock b w).2 d (w.e4.groupOf b) (w.e4.indexOf b) false := by
  by_cases rejected : w.rejects d b
  · have quiet := (c.free_rejected rejected).2
    have clear : w.used d (w.e4.groupOf b) (w.e4.indexOf b) = false := by
      rcases rejected with below | above | clear
      · omega
      · omega
      · exact clear
    constructor
    · exact quiet.kept
    · rw [quiet.e4]
      exact SameLayout.refl _
    · exact quiet.consistent c
    · rw [quiet.used, ← clear, SlotMap.mark_self]
  · exact (c.free_accepted rejected unreserved).2

theorem Consistent.unreserved_of_clear (c : Consistent w d) (clear : w.blockUsed d b = false) :
    ¬ w.e4.Reserved b := by
  intro reserved
  rw [c.reservedUsed b reserved] at clear
  cases clear

theorem Geometry.block_small (geo : Geometry e4) (inside : b < e4.blocksCount) :
    b < 281474976710656 := by
  obtain ⟨_, hhigh⟩ := geo.spans
  have hgroups := geo.groupsSmall
  have hsmall := geo.groupSmall
  have hword := geo.firstSmall
  have hmul : (e4.groupCount - 1) * e4.blocksPerGroup ≤ 4294967294 * 65528 :=
    Nat.mul_le_mul (by omega) hsmall
  omega

/-! ## Taking blocks -/

/-- The blocks that `e4_alloc_block_near` returns for the hints, in turn. -/
def allocSeq : List Nat → Cmd World (List Nat)
  | [] => pure []
  | hint :: rest => do
    let blk ← e4AllocBlockNear hint
    let blocks ← allocSeq rest
    pure (blk :: blocks)

/-- The slots taken for the hints, from the block map alone. -/
def World.takes (w : World) (d : Nat) (hints : List Nat) : Option (List (Nat × Nat)) :=
  SlotMap.takeAll w.e4.lastBits (hints.map fun hint => visitOrder hint w.e4.groupCount) (w.used d)

/-- The blocks of slots. -/
def Ext4Fs.blocksOf (e4 : Ext4Fs) (slots : List (Nat × Nat)) : List Nat :=
  slots.map fun p => blkOf e4 p.1 p.2

theorem Kept.blocksOf (k : Kept w w') (slots : List (Nat × Nat)) :
    w'.e4.blocksOf slots = w.e4.blocksOf slots := by
  rw [k.e4]
  rfl

variable {slots : List (Nat × Nat)} {hint : Nat} {hints : List Nat}

theorem takes_none (full : w.choice d hint = none) : w.takes d (hint :: hints) = none := by
  unfold World.takes
  unfold World.choice at full
  rw [List.map_cons, SlotMap.takeAll_cons, full]
  rfl

theorem Marked.takes (m : Marked w w' d g i true) (chosen : w.choice d hint = some (g, i)) :
    w.takes d (hint :: hints) = (w'.takes d hints).map ((g, i) :: ·) := by
  have hrest : w'.takes d hints = SlotMap.takeAll w.e4.lastBits
      (hints.map fun hint => visitOrder hint w.e4.groupCount)
          (SlotMap.mark (w.used d) g i true) := by
    unfold World.takes
    rw [m.used, m.kept.e4]
    rfl
  unfold World.choice at chosen
  rw [hrest]
  unfold World.takes
  rw [List.map_cons, SlotMap.takeAll_cons, chosen]
  rfl

/-- How taking blocks in turn ends: `r` is what came of it, read by `out` for the slots
taken. -/
def SeqEnds {α : Type} (w : World) (d : Nat) (out : List (Nat × Nat) → α → Prop)
    (r : Option α × World) : Option (List (Nat × Nat)) → Prop
  | none => r.1 = none
  | some slots => ∃ a, r.1 = some a ∧ out slots a ∧ MarkedAll w r.2 d slots true

variable {taken : Option (List (Nat × Nat))}

theorem SeqEnds.of_some {a : α} (ends : SeqEnds w d out r taken) (returned : r.1 = some a) :
    ∃ slots, taken = some slots ∧ out slots a ∧ MarkedAll w r.2 d slots true := by
  cases taken with
  | none =>
    have hnone : r.1 = none := ends
    rw [hnone] at returned
    cases returned
  | some slots =>
    obtain ⟨a', hr, hout, all⟩ := ends
    rw [returned] at hr
    cases hr
    exact ⟨slots, rfl, hout, all⟩

/-- Rules for code that takes blocks one after the other: the first block, then the rest from
the state it leaves. -/
theorem AllocEnds.bind {cmd : Cmd World Nat} {f : Nat → Cmd World α}
    (ends : AllocEnds w d (cmd w) (w.choice d hint))
    (next : ∀ g i w', Marked w w' d g i true →
      SeqEnds w' d (fun slots => out ((g, i) :: slots)) (f (blkOf w.e4 g i) w')
      (w'.takes d hints)) :
    SeqEnds w d out ((cmd >>= f) w) (w.takes d (hint :: hints)) := by
  cases hpick : w.choice d hint with
  | none =>
    rw [hpick] at ends
    rw [Cmd.bind_none (Prod.ext ends.1 rfl), takes_none hpick]
    rfl
  | some p =>
    rw [hpick] at ends
    obtain ⟨hout, marked⟩ := ends
    have rest := next p.1 p.2 (cmd w).2 marked
    rw [Cmd.bind_some (Prod.ext hout rfl), marked.takes hpick]
    cases htake : (cmd w).2.takes d hints with
    | none =>
      rw [htake] at rest
      exact rest
    | some slots =>
      rw [htake] at rest
      obtain ⟨a, hr, ha, all⟩ := rest
      exact ⟨a, hr, ha, marked.markedAll all⟩

theorem SeqEnds.imp {out' : List (Nat × Nat) → α → Prop} (ends : SeqEnds w d out r taken)
    (weaker : ∀ slots a, taken = some slots → out slots a → out' slots a) :
    SeqEnds w d out' r taken := by
  cases taken with
  | none => exact ends
  | some slots =>
    obtain ⟨a, hr, ha, all⟩ := ends
    exact ⟨a, hr, weaker slots a rfl ha, all⟩

theorem SeqEnds.map {β : Type} {out : List (Nat × Nat) → β → Prop} {f : α → β} {cmd : Cmd World α}
    (ends : SeqEnds w d (fun slots a => out slots (f a)) (cmd s) taken) :
    SeqEnds w d out ((cmd >>= fun a => pure (f a)) s) taken := by
  cases taken with
  | none =>
    rw [Cmd.bind_none (Prod.ext ends rfl)]
    rfl
  | some slots =>
    obtain ⟨a, hr, ha, all⟩ := ends
    rw [Cmd.bind_some (Prod.ext hr rfl)]
    exact ⟨f a, rfl, ha, all⟩

theorem MarkedAll.takes_append {back : List Nat} (m : MarkedAll w w' d slots true)
    (front : w.takes d hints = some slots) :
    w.takes d (hints ++ back) = (w'.takes d back).map (slots ++ ·) := by
  have hback : w'.takes d back = SlotMap.takeAll w.e4.lastBits
      (back.map fun hint => visitOrder hint w.e4.groupCount)
          (SlotMap.markAll (w.used d) slots true) := by
    unfold World.takes
    rw [m.used, m.kept.e4]
    rfl
  rw [hback]
  unfold World.takes at front ⊢
  rw [List.map_append, SlotMap.takeAll_append, front]
  rfl

theorem Consistent.allocSeq_ends (c : Consistent w d) (hints : List Nat) :
    SeqEnds w d (fun slots blocks => blocks = w.e4.blocksOf slots) (allocSeq hints w)
    (w.takes d hints) := by
  induction hints generalizing w with
  | nil => exact ⟨[], rfl, rfl, (Quiet.refl w).markedAll_nil c true⟩
  | cons hint hints ih =>
    apply (c.alloc hint).bind
    intro g i w' marked
    apply SeqEnds.map
    have rest := ih marked.consistent
    simp only [marked.kept.blocksOf] at rest
    simp only [Ext4Fs.blocksOf, List.map_cons, List.cons.injEq, true_and]
    exact rest

theorem Consistent.allocSeq (c : Consistent w d) (hints : List Nat) :
    (allocSeq hints w).1 = (w.takes d hints).map w.e4.blocksOf := by
  have ends := c.allocSeq_ends hints
  cases htake : w.takes d hints with
  | none =>
    rw [htake] at ends
    exact ends
  | some slots =>
    rw [htake] at ends
    obtain ⟨blocks, hr, hblocks, _⟩ := ends
    rw [hr, hblocks]
    rfl

/-! ## The slots taken -/

/-- Slots of the filesystem that are clear, each named once. -/
structure ClearSlots (w : World) (d : Nat) (slots : List (Nat × Nat)) : Prop where
  nodup : slots.Nodup
  group : ∀ p ∈ slots, p.1 < w.e4.groupCount
  index : ∀ p ∈ slots, p.2 < w.e4.lastBits p.1
  clear : ∀ p ∈ slots, w.used d p.1 p.2 = false

theorem Consistent.takes_clear (c : Consistent w d) (taken : w.takes d hints = some slots) :
    ClearSlots w d slots ∧ slots.length = hints.length := by
  obtain ⟨hnodup, hlength, hslots⟩ := SlotMap.takeAll_some taken
  constructor
  · constructor
    · exact hnodup
    · intro p member
      obtain ⟨⟨order, horder, hp⟩, _, _⟩ := hslots p member
      obtain ⟨hint, _, rfl⟩ := List.mem_map.mp horder
      obtain ⟨gi, _, hvisit⟩ := List.mem_map.mp hp
      rw [← hvisit]
      exact Nat.mod_lt _ c.geometry.groups_pos
    · intro p member
      exact (hslots p member).2.1
    · intro p member
      exact (hslots p member).2.2
  · rw [hlength, List.length_map]

section
variable (cs : ClearSlots w d slots)
include cs

section
variable (geo : Geometry w.e4)
include geo

theorem ClearSlots.block (member : b ∈ w.e4.blocksOf slots) :
    w.e4.firstDataBlock ≤ b ∧ b < w.e4.blocksCount ∧ w.e4.slotOf b ∈ slots ∧
    w.blockUsed d b = false := by
  obtain ⟨p, hp, hblock⟩ := List.mem_map.mp member
  have hg := cs.group p hp
  have hi := cs.index p hp
  obtain ⟨heq, hhi⟩ := geo.blkOf_eq hg hi
  obtain ⟨hgroup, hindex⟩ := geo.slot_of_blkOf hg hi
  rw [hblock] at heq hhi hgroup hindex
  unfold Ext4Fs.slotOf World.blockUsed
  rw [hgroup, hindex]
  exact ⟨by omega, hhi, hp, cs.clear p hp⟩

theorem ClearSlots.slots_of_blocks : (w.e4.blocksOf slots).map w.e4.slotOf = slots := by
  unfold Ext4Fs.blocksOf
  rw [List.map_map]
  conv_rhs => rw [← List.map_id slots]
  apply List.map_congr_left
  intro p member
  obtain ⟨hgroup, hindex⟩ := geo.slot_of_blkOf (cs.group p member) (cs.index p member)
  exact Prod.ext hgroup hindex

theorem ClearSlots.nodup_blocks : (w.e4.blocksOf slots).Nodup := by
  apply List.Nodup.of_map w.e4.slotOf
  rw [cs.slots_of_blocks geo]
  exact cs.nodup

theorem ClearSlots.block_small : ∀ b ∈ w.e4.blocksOf slots, b < 281474976710656 := by
  intro b member
  exact geo.block_small (cs.block geo member).2.1

end

end

/-- Slots that are clear after others were taken were clear before, and are none of those. -/
theorem MarkedAll.clearSlots (m : MarkedAll w w' d slots true) (cs : ClearSlots w' d back) :
    ClearSlots w d back ∧ ∀ p ∈ back, p ∉ slots := by
  have hfresh : ∀ p ∈ back, p ∉ slots := by
    intro p member taken
    have hclear := cs.clear p member
    rw [m.used, SlotMap.markAll_mem _ _ taken] at hclear
    cases hclear
  constructor
  · constructor
    · exact cs.nodup
    · intro p member
      rw [← m.layout.groupCount]
      exact cs.group p member
    · intro p member
      rw [← m.layout.lastBits]
      exact cs.index p member
    · intro p member
      have hclear := cs.clear p member
      rw [m.used, SlotMap.markAll_not_mem _ _ (hfresh p member)] at hclear
      exact hclear
  · exact hfresh

end Obsidian.Fs
