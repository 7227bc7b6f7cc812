import Obsidian.Fs.Fsops
import Mathlib.Data.List.SplitBy

/-!
# Runs of blocks and their encoding

`e4_append_blocks` groups the blocks of a file into runs of consecutive numbers and
`build_tree` stores the runs as extents. The runs it builds are the maximal ones, and
the extents of a root read back as the runs, with the count cut to what its field holds.
-/
namespace Obsidian.Fs
open Lib Lib.Bytes

/-! ## Runs -/

/-- The maximal runs of consecutive numbers. -/
def pieces (blocks : List Nat) : List (List Nat) := blocks.splitBy fun a b => b == a + 1

def ExtRun.blocks (r : ExtRun) : List Nat := List.range' r.start r.count

/-- From block `first` of the file on, the runs name the blocks in order. -/
def Spells : Nat → List ExtRun → List Nat → Prop
  | _, [], blocks => blocks = []
  | first, r :: rest, blocks =>
    r.firstBlock = first ∧ 0 < r.count ∧
      ∃ more, blocks = r.blocks ++ more ∧ Spells (first + r.count) rest more

/-- No run can be joined with the next. -/
def Maximal (runs : List ExtRun) : Prop := runs.IsChain fun r next => next.start ≠ r.start + r.count

variable {runs rest : List ExtRun} {blocks : List Nat} {r : ExtRun} {first i blk : Nat}

theorem ExtRun.length_blocks (r : ExtRun) : r.blocks.length = r.count := List.length_range'

theorem spells_snoc : Spells first (runs ++ [r]) blocks ↔
    ∃ front, blocks = front ++ r.blocks ∧ Spells first runs front ∧
      r.firstBlock = first + front.length ∧ 0 < r.count := by
  induction runs generalizing first blocks with
  | nil =>
    constructor
    · rintro ⟨hfirst, hcount, more, rfl, rfl⟩
      exact ⟨[], by simp, rfl, hfirst, hcount⟩
    · rintro ⟨front, rfl, rfl, hfirst, hcount⟩
      exact ⟨hfirst, hcount, [], by simp, rfl⟩
  | cons s rest ih =>
    constructor
    · rintro ⟨hs, hpos, more, rfl, hrest⟩
      obtain ⟨front, rfl, hfront, hfirst, hcount⟩ := ih.mp hrest
      refine ⟨s.blocks ++ front, by rw [List.append_assoc], ⟨hs, hpos, front, rfl,
        hfront⟩, ?_, hcount⟩
      rw [hfirst, List.length_append, s.length_blocks, Nat.add_assoc]
    · rintro ⟨front, rfl, ⟨hs, hpos, more, rfl, hmore⟩, hfirst, hcount⟩
      refine ⟨hs, hpos, more ++ r.blocks, by rw [List.append_assoc], ih.mpr ⟨more, rfl, hmore,
        ?_, hcount⟩⟩
      rw [hfirst, List.length_append, s.length_blocks, Nat.add_assoc]

section
variable (spells : Spells first runs blocks)
include spells

theorem Spells.count_pos : ∀ r ∈ runs, 0 < r.count := by
  induction runs generalizing first blocks with
  | nil => simp
  | cons s rest ih =>
    obtain ⟨_, hpos, more, _, hrest⟩ := spells
    intro r member
    rcases List.mem_cons.mp member with rfl | later
    · exact hpos
    · exact ih hrest r later

theorem Spells.flatten : blocks = (runs.map ExtRun.blocks).flatten := by
  induction runs generalizing first blocks with
  | nil => exact spells
  | cons s rest ih =>
    obtain ⟨_, _, more, rfl, hrest⟩ := spells
    rw [List.map_cons, List.flatten_cons, ← ih hrest]

theorem Spells.start_mem (member : r ∈ runs) : r.start ∈ blocks := by
  rw [spells.flatten]
  apply List.mem_flatten.mpr
  refine ⟨r.blocks, List.mem_map.mpr ⟨r, member, rfl⟩, ?_⟩
  have hpos := spells.count_pos r member
  exact List.mem_range'_1.mpr ⟨Nat.le_refl _, by omega⟩

theorem Spells.bounds :
    ∀ r ∈ runs, first ≤ r.firstBlock ∧ r.firstBlock + r.count ≤ first + blocks.length := by
  induction runs generalizing first blocks with
  | nil => simp
  | cons s rest ih =>
    obtain ⟨hfirst, _, more, rfl, hrest⟩ := spells
    have hlen : (s.blocks ++ more).length = s.count + more.length := by
      rw [List.length_append, s.length_blocks]
    intro r member
    rcases List.mem_cons.mp member with rfl | later
    · omega
    · have := ih hrest r later
      omega

theorem Spells.covers :
    runs.flatMap (fun r => List.range' r.firstBlock r.count) = List.range' first blocks.length ∧
      runs.length ≤ blocks.length := by
  induction runs generalizing first blocks with
  | nil =>
    cases spells
    exact ⟨rfl, Nat.le_refl 0⟩
  | cons s rest ih =>
    obtain ⟨hfirst, hpos, more, rfl, hrest⟩ := spells
    obtain ⟨files, few⟩ := ih hrest
    rw [List.flatMap_cons, files, hfirst, List.length_append, s.length_blocks, List.range'_append_1,
      List.length_cons]
    exact ⟨rfl, by omega⟩

theorem Spells.pieces (maximal : Maximal runs) : pieces blocks = runs.map ExtRun.blocks := by
  unfold Fs.pieces
  rw [List.splitBy_eq_iff]
  have hne : ∀ r ∈ runs, r.blocks ≠ [] := by
    intro r member hnil
    have hpos := spells.count_pos r member
    have hlen := r.length_blocks
    rw [hnil, List.length_nil] at hlen
    omega
  refine ⟨spells.flatten, ?_, ?_, ?_⟩
  · intro member
    obtain ⟨r, hr, hnil⟩ := List.mem_map.mp member
    exact hne r hr hnil
  · intro m member
    obtain ⟨r, _, rfl⟩ := List.mem_map.mp member
    unfold ExtRun.blocks
    exact (List.isChain_range' r.start r.count 1).imp fun a b hab => by simpa using hab
  · rw [List.isChain_map]
    unfold Maximal at maximal
    refine maximal.imp_of_mem_imp ?_
    intro r next hr hnext hjoin
    refine ⟨hne r hr, hne next hnext, ?_⟩
    have hpos := spells.count_pos r hr
    have hnpos := spells.count_pos next hnext
    have hlast : r.blocks.getLast (hne r hr) + 1 = r.start + r.count := by
      rw [List.getLast_eq_getElem]
      simp only [ExtRun.blocks, List.getElem_range', List.length_range']
      omega
    have hhead : next.blocks.head (hne next hnext) = next.start := by
      rw [List.head_eq_getElem]
      simp only [ExtRun.blocks, List.getElem_range']
      omega
    rw [hhead, hlast, beq_eq_false_iff_ne]
    exact hjoin

end

/-- The runs name the blocks in 64 bits, where the number behind the last one is 0; no run can be
joined with the next. -/
structure Coded (first : Nat) (runs : List ExtRun) (blocks : List Nat) : Prop where
  spells : ∃ wide, Spells first runs wide ∧ wide.map u64 = blocks
  starts : ∀ r ∈ runs, r.start ∈ blocks
  maximal : runs.IsChain fun r next => next.start ≠ u64 (r.start + r.count)

theorem coded_nil : Coded first [] [] := ⟨⟨[], rfl, rfl⟩, by simp, List.isChain_nil⟩

theorem pushBlock_coded (coded : Coded first runs blocks) (fits : blk < 18446744073709551616)
    (short : first + blocks.length + 1 < 4294967296) :
    Coded first (pushBlock runs blk (first + blocks.length)) (blocks ++ [blk]) := by
  obtain ⟨⟨wide, spells, rfl⟩, starts, maximal⟩ := coded
  rw [List.length_map] at short ⊢
  have here : blk ∈ wide.map u64 ++ [blk] := List.mem_append_right _ List.mem_cons_self
  have before : ∀ r ∈ runs, r.start ∈ wide.map u64 ++ [blk] := fun r member =>
    List.mem_append_left _ (starts r member)
  have new : Spells first (runs ++ [⟨blk, u32 (first + wide.length), 1⟩]) (wide ++ [blk]) :=
    spells_snoc.mpr ⟨wide, rfl, spells, u32_of_lt (by omega), Nat.one_pos⟩
  have same : (wide ++ [blk]).map u64 = wide.map u64 ++ [blk] := by
    rw [List.map_append, List.map_singleton, u64_of_lt fits]
  rcases List.eq_nil_or_concat runs with rfl | ⟨init, r, rfl⟩
  · exact ⟨⟨_, new, same⟩,
      fun s member => by rwa [List.mem_singleton.mp member], List.isChain_singleton _⟩
  · rw [List.concat_eq_append] at *
    obtain ⟨front, hwide, hinit, hfirst, hcount⟩ := spells_snoc.mp spells
    have hlength : wide.length = front.length + r.count := by rw [hwide, List.length_append,
      r.length_blocks]
    have hnext : u32 (r.firstBlock + r.count) = first + wide.length := by
      rw [u32_of_lt (by omega)]
      omega
    simp only [pushBlock, List.getLast?_concat, hnext, and_true]
    by_cases joins : u64 (r.start + r.count) = blk
    · rw [if_pos joins, List.dropLast_concat, u32_of_lt (by omega)]
      refine ⟨⟨wide ++ [r.start + r.count], ?_, by rw [List.map_append, List.map_singleton, joins]⟩,
        ?_, ?_⟩
      · apply spells_snoc.mpr
        refine ⟨front, ?_, hinit, hfirst, Nat.succ_pos _⟩
        rw [hwide, List.append_assoc]
        unfold ExtRun.blocks
        rw [List.range'_1_concat]
      · intro s member
        rcases List.mem_append.mp member with earlier | last
        · exact before s (List.mem_append_left _ earlier)
        · rw [List.mem_singleton.mp last]
          exact before r (by simp)
      · -- The last run keeps its start, so it still cannot be joined with the one before.
        rw [List.isChain_append] at maximal ⊢
        refine ⟨maximal.1, List.isChain_singleton _, ?_⟩
        intro x hx y hy
        cases hy
        exact maximal.2.2 x hx r rfl
    · rw [if_neg joins]
      refine ⟨⟨_, new, same⟩, ?_, ?_⟩
      · intro s member
        rcases List.mem_append.mp member with earlier | last
        · exact before s earlier
        · rwa [List.mem_singleton.mp last]
      · rw [List.isChain_append]
        refine ⟨maximal, List.isChain_singleton _, ?_⟩
        intro x hx y hy
        rw [List.getLast?_concat] at hx
        cases hx
        cases hy
        exact fun same => joins same.symm

theorem Coded.small (coded : Coded first runs blocks) (short : blocks.length < 4294967296)
    (small : ∀ b ∈ blocks, b < 281474976710656) : Spells first runs blocks ∧ Maximal runs := by
  obtain ⟨⟨wide, spells, rfl⟩, starts, maximal⟩ := coded
  rw [List.length_map] at short
  have narrow : ∀ r ∈ runs, r.start + r.count < 18446744073709551616 := by
    intro r member
    have bounds := spells.bounds r member
    have start := small _ (starts r member)
    omega
  have same : wide.map u64 = wide := by
    refine (List.map_congr_left fun b member => ?_).trans wide.map_id
    rw [spells.flatten] at member
    obtain ⟨_, run, inside⟩ := List.mem_flatten.mp member
    obtain ⟨r, hr, rfl⟩ := List.mem_map.mp run
    have := narrow r hr
    exact u64_of_lt (by have := (List.mem_range'_1.mp inside).2; omega)
  rw [same]
  exact ⟨spells, maximal.imp_of_mem_imp fun r next hr _ h => by rwa [u64_of_lt (narrow r hr)] at h⟩

section
variable (spells : Spells first runs blocks)
include spells

theorem Spells.lookup (inside : i < blocks.length) :
    ∃ k, k < runs.length ∧ ∃ r, runs[k]? = some r ∧ r.firstBlock ≤ first + i ∧
      first + i < r.firstBlock + r.count ∧ blocks[i]? = some
      (r.start + (first + i) - r.firstBlock) := by
  induction runs generalizing first blocks i with
  | nil =>
    cases spells
    cases inside
  | cons s rest ih =>
    obtain ⟨hfirst, _, more, rfl, hrest⟩ := spells
    have hlen : (s.blocks ++ more).length = s.count + more.length := by
      rw [List.length_append, s.length_blocks]
    by_cases here : i < s.count
    · refine ⟨0, by simp, s, rfl, by omega, by omega, ?_⟩
      have hget : i < s.blocks.length := by
        rw [s.length_blocks]
        exact here
      rw [List.getElem?_append_left hget]
      unfold ExtRun.blocks
      rw [List.getElem?_range' here]
      congr 1
      omega
    · obtain ⟨k, hk, r, hr, hlo, hhi, hget⟩ := ih (i := i - s.count) hrest (by omega)
      refine ⟨k + 1, by simpa using hk, r, hr, by omega, by omega, ?_⟩
      rw [List.getElem?_append_right (by rw [s.length_blocks]; omega), s.length_blocks, hget]
      congr 1
      omega

variable {j k : Nat} {s : ExtRun}

theorem Spells.at_run (at_k : runs[k]? = some r) (inside : j < r.count) :
    blocks[r.firstBlock - first + j]? = some (r.start + j) := by
  induction runs generalizing first blocks k with
  | nil => cases at_k
  | cons s rest ih =>
    obtain ⟨hfirst, _, more, rfl, hrest⟩ := spells
    cases k with
    | zero =>
      cases at_k
      have hget : j < r.blocks.length := by
        rw [r.length_blocks]
        exact inside
      rw [hfirst, Nat.sub_self, Nat.zero_add, List.getElem?_append_left hget]
      unfold ExtRun.blocks
      rw [List.getElem?_range' inside, Nat.one_mul]
    | succ k =>
      have hin : rest[k]? = some r := at_k
      have hbounds := hrest.bounds r (List.mem_of_getElem? hin)
      rw [List.getElem?_append_right (by rw [s.length_blocks]; omega), s.length_blocks,
        ← ih hrest hin]
      congr 1
      omega

theorem Spells.sorted (hlt : j < k) (at_j : runs[j]? = some r) (at_k : runs[k]? = some s) :
    r.firstBlock + r.count ≤ s.firstBlock := by
  induction runs generalizing first blocks j k with
  | nil => cases at_j
  | cons t rest ih =>
    obtain ⟨hfirst, _, more, rfl, hrest⟩ := spells
    cases k with
    | zero => omega
    | succ k =>
      have hin : rest[k]? = some s := at_k
      cases j with
      | zero =>
        cases at_j
        have hbounds := hrest.bounds s (List.mem_of_getElem? hin)
        omega
      | succ j =>
        have hj : rest[j]? = some r := at_j
        exact ih hrest (Nat.lt_of_succ_lt_succ hlt) hj hin

theorem Spells.next (at_k : runs[k]? = some r) (at_next : runs[k + 1]? = some s) :
    s.firstBlock = r.firstBlock + r.count := by
  induction runs generalizing first blocks k with
  | nil => cases at_k
  | cons t rest ih =>
    obtain ⟨hfirst, _, more, rfl, hrest⟩ := spells
    have hin : rest[k]? = some s := at_next
    cases k with
    | zero =>
      cases at_k
      cases rest with
      | nil => cases hin
      | cons u rest =>
        cases hin
        rw [hrest.1, hfirst]
    | succ k => exact ih hrest (at_k) hin

end

/-! ## Stored extents and index entries -/

/-- What is left of a count in its field. -/
def storedCount (count : Nat) : Nat := u16 (if count = 32768 then 32767 else count)

/-- The extent at `ex` stands for the run. -/
structure Stored (b : Bytes) (ex : Nat) (r : ExtRun) : Prop where
  firstBlock : Ex.firstBlock b ex = u32 r.firstBlock
  count : Ex.count b ex = storedCount r.count
  start : Ex.start b ex = r.start

/-- The index entry at `ix` names a leaf. -/
structure Indexed (b : Bytes) (ix first leaf : Nat) : Prop where
  firstBlock : Ix.firstBlock b ix = u32 first
  leaf : Ix.leaf b ix = leaf

variable {a b : Bytes} {eh ex ix leaf lo hi : Nat}

theorem split_word (v : Nat) :
    v % 4294967296 ||| (v >>> 32 % 65536) <<< 32 = v % 281474976710656 := by
  have hlow : v % 4294967296 < 2 ^ 32 := Nat.mod_lt _ (by decide)
  rw [Nat.or_comm, ← Nat.shiftLeft_add_eq_or_of_lt hlow]
  omega

variable (b : Bytes)

theorem putExtent_agree (ex : Nat) (r : ExtRun) (lo hi : Nat) (apart : hi ≤ ex ∨ ex + 12 ≤ lo) :
    Agree (putExtent b ex r) b lo hi := by
  apply (put16_agree _ _ _ lo hi (by omega)).trans
  apply (put32_agree _ _ _ lo hi (by omega)).trans
  apply (put16_agree _ _ _ lo hi (by omega)).trans
  exact put32_agree _ _ _ lo hi (by omega)

theorem putExtent_stored (ex : Nat) (r : ExtRun) (small : r.start < 281474976710656) :
    Stored (putExtent b ex r) ex r := by
  constructor
  · unfold putExtent Ex.firstBlock Ex.putStartHi Ex.putStartLo Ex.putCount Ex.putFirstBlock
    rw [get32_put16_ne _ _ _ _ (by omega), get32_put32_ne _ _ _ _ (by omega),
      get32_put16_ne _ _ _ _ (by omega), get32_put32]
    rfl
  · unfold putExtent Ex.count Ex.putStartHi Ex.putStartLo Ex.putCount
    rw [get16_put16_ne _ _ _ _ (by omega), get16_put32_ne _ _ _ _ (by omega), get16_put16]
    rfl
  · unfold putExtent Ex.start Ex.startLo Ex.startHi Ex.putStartHi Ex.putStartLo
    rw [get32_put16_ne _ _ _ _ (by omega), get32_put32, get16_put16]
    exact (split_word r.start).trans (Nat.mod_eq_of_lt small)

variable {r : ExtRun} {k leaf : Nat}

theorem Stored.congr (stored : Stored b ex r) (agree : Agree a b ex (ex + 12)) : Stored a ex r := by
  constructor
  · rw [← stored.firstBlock]
    exact get32_congr (agree.mono (by omega) (by omega))
  · rw [← stored.count]
    exact get16_congr (agree.mono (by omega) (by omega))
  · rw [← stored.start]
    unfold Ex.start Ex.startLo Ex.startHi
    rw [get32_congr (agree.mono (by omega) (by omega)),
      get16_congr (agree.mono (by omega) (by omega))]

theorem putExtents_agree (eh : Nat) (runs : List ExtRun) (i lo hi : Nat)
    (apart : hi ≤ Eh.entry eh i ∨ Eh.entry eh (i + runs.length) ≤ lo) :
    Agree (putExtents b eh runs i) b lo hi := by
  induction runs generalizing b i with
  | nil => exact Agree.refl b lo hi
  | cons r rest ih =>
    have hlen : i + (r :: rest).length = i + 1 + rest.length := by
      rw [List.length_cons]
      omega
    unfold Eh.entry at apart
    apply (ih _ (i + 1) (by unfold Eh.entry; omega)).trans
    exact putExtent_agree _ _ _ _ _ (by unfold Eh.entry; omega)

theorem putExtents_stored (eh : Nat) (runs : List ExtRun) (i : Nat)
    (small : ∀ r ∈ runs, r.start < 281474976710656) (at_k : runs[k]? = some r) :
    Stored (putExtents b eh runs i) (Eh.entry eh (i + k)) r := by
  induction runs generalizing b i k with
  | nil => cases at_k
  | cons s rest ih =>
    unfold putExtents
    cases k with
    | zero =>
      cases at_k
      have here := putExtent_stored b (Eh.entry eh i) r (small r List.mem_cons_self)
      apply here.congr
      exact putExtents_agree _ _ _ _ _ _ (Or.inl (by unfold Eh.entry; omega))
    | succ k =>
      have later := ih (putExtent b (Eh.entry eh i) s) (i + 1)
        (fun r member => small r (List.mem_cons_of_mem _ member)) (k := k) (at_k)
      have hpos : i + 1 + k = i + (k + 1) := by omega
      rwa [hpos] at later

theorem putIndex_agree (ix first leaf lo hi : Nat) (apart : hi ≤ ix ∨ ix + 12 ≤ lo) :
    Agree (putIndex b ix first leaf) b lo hi := by
  apply (put16_agree _ _ _ lo hi (by omega)).trans
  apply (put16_agree _ _ _ lo hi (by omega)).trans
  apply (put32_agree _ _ _ lo hi (by omega)).trans
  exact put32_agree _ _ _ lo hi (by omega)

theorem putIndex_indexed (ix first leaf : Nat) (small : leaf < 281474976710656) :
    Indexed (putIndex b ix first leaf) ix first leaf := by
  constructor
  · unfold putIndex Ix.firstBlock Ix.putUnused Ix.putLeafHi Ix.putLeafLo Ix.putFirstBlock
    rw [get32_put16_ne _ _ _ _ (by omega), get32_put16_ne _ _ _ _ (by omega),
      get32_put32_ne _ _ _ _ (by omega), get32_put32]
    rfl
  · unfold putIndex Ix.leaf Ix.leafLo Ix.leafHi Ix.putUnused Ix.putLeafHi Ix.putLeafLo
    rw [get32_put16_ne _ _ _ _ (by omega), get32_put16_ne _ _ _ _ (by omega), get32_put32,
      get16_put16_ne _ _ _ _ (by omega), get16_put16]
    exact (split_word leaf).trans (Nat.mod_eq_of_lt small)

theorem Indexed.congr {first : Nat} (indexed : Indexed b ix first leaf)
    (agree : Agree a b ix (ix + 12)) :
    Indexed a ix first leaf := by
  constructor
  · rw [← indexed.firstBlock]
    exact get32_congr (agree.mono (by omega) (by omega))
  · rw [← indexed.leaf]
    unfold Ix.leaf Ix.leafLo Ix.leafHi
    rw [get32_congr (agree.mono (by omega) (by omega)),
      get16_congr (agree.mono (by omega) (by omega))]

theorem putIndexes_agree (cap : Nat) (b : Bytes) (leaves : List Nat) (runs : List ExtRun)
    (l lo hi : Nat)
    (apart : hi ≤ Eh.entry Ino.root l ∨ Eh.entry Ino.root (l + leaves.length) ≤ lo) :
    Agree (putIndexes cap b leaves runs l) b lo hi := by
  induction leaves generalizing b runs l with
  | nil => exact Agree.refl b lo hi
  | cons leaf rest ih =>
    have hlen : l + (leaf :: rest).length = l + 1 + rest.length := by
      rw [List.length_cons]
      omega
    unfold Eh.entry at apart
    apply (ih _ _ (l + 1) (by unfold Eh.entry; omega)).trans
    exact putIndex_agree _ _ _ _ _ _ (by unfold Eh.entry; omega)

theorem putIndexes_indexed (cap : Nat) (b : Bytes) (leaves : List Nat) (runs : List ExtRun)
    (l : Nat) (small : ∀ leaf ∈ leaves, leaf < 281474976710656) (at_k : leaves[k]? = some leaf) :
    Indexed (putIndexes cap b leaves runs l) (Eh.entry Ino.root (l + k))
      ((runs.drop (k * cap)).headD ⟨0, 0, 0⟩).firstBlock leaf := by
  induction leaves generalizing b runs l k with
  | nil => cases at_k
  | cons first rest ih =>
    unfold putIndexes
    cases k with
    | zero =>
      cases at_k
      rw [Nat.zero_mul]
      have here := putIndex_indexed b (Eh.entry Ino.root l) (runs.headD ⟨0, 0, 0⟩).firstBlock leaf
        (small leaf List.mem_cons_self)
      apply here.congr
      exact putIndexes_agree _ _ _ _ _ _ _ (Or.inl (by unfold Eh.entry; omega))
    | succ k =>
      have later := ih (putIndex b (Eh.entry Ino.root l) (runs.headD ⟨0, 0, 0⟩).firstBlock first)
        (runs.drop cap) (l + 1) (fun leaf member => small leaf (List.mem_cons_of_mem _ member))
          (k := k)
        (at_k)
      have hpos : l + 1 + k = l + (k + 1) := by omega
      have hdrop : cap + k * cap = (k + 1) * cap := by
        rw [Nat.succ_mul]
        omega
      rwa [hpos, List.drop_drop, hdrop] at later

end Obsidian.Fs
