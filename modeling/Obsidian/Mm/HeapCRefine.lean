import Obsidian.Lib.Linked
import Obsidian.Lib.Tiling
import Obsidian.Mm.HeapC

/-!
# The C allocator refines a tiled region

`Represents` ties the octets of the region and the free-list head to an abstract
list of blocks: every block has the header its state calls for, and the list
threaded through `next_off` visits exactly the free blocks in address order.
Each stage of `kmalloc` and `kfree` (split, unlink, poison, link in, merge left,
merge right) is shown to carry the representation to the corresponding edit of
the block list; headers are only compared at aligned offsets, where the writes
of one block cannot touch another.
-/
namespace Obsidian.Mm.HeapC
open Lib Lib.Bytes Lib.Tiling

/-! ## Small arithmetic -/

variable {need o off old prevOff size v : Nat}

theorem alignUp_eq (h : v ≤ 4294967280) : alignUp v = (v + 15) / 16 * 16 := by
  have hv : u32 (v + alignment - 1) = v + 15 := by
    simp only [alignment]
    exact u32_of_lt (by omega)
  simp only [alignUp, hv]
  exact land_mask16 _ (by omega)

variable (abi : Abi)

theorem sizeT_of_lt (h : v < 4294967296) : abi.sizeT v = v := by
  cases abi with
  | ilp32 => exact u32_of_lt h
  | lp64 => exact u64_of_lt (by omega)

/-! ## Block lists that fit the region -/

structure Fits (extent : Nat) (bs : List Block) : Prop where
  tiles : Tiles hdrSize 0 bs extent
  granular : ∀ b ∈ bs, b.size % alignment = 0
  small : extent < 2147483648

variable {extent : Nat} {bs pre post : List Block} {a b : Block} {m : Bytes} {head : Nat}

theorem Fits.of_layout (h : Layout hdrSize alignment extent bs) (small : extent < 2147483648) :
    Fits extent bs := ⟨h.tiles, fun b member => (h.sized b member).1, small⟩

section
variable (h : Fits extent bs)
include h

theorem Fits.aligned (member : b ∈ bs) : b.off % 16 = 0 :=
  h.tiles.off_mod (by rfl : hdrSize % alignment = 0) h.granular (by rfl) member

theorem Fits.bound (member : b ∈ bs) : b.off + 16 + b.size ≤ extent := (h.tiles.bounds member).2

theorem Fits.off_ne_end (member : b ∈ bs) : b.off ≠ endOfList := by
  have := h.bound member
  have := h.small
  simp only [endOfList]
  omega

theorem Fits.free_ne_end {o : Nat} (member : o ∈ freeOffs bs) : o ≠ endOfList := by
  obtain ⟨b, hb, _, rfl⟩ := mem_freeOffs.mp member
  exact h.off_ne_end hb

theorem Fits.free_sorted : (freeOffs bs).Pairwise (· < ·) := freeOffs_sorted (by decide) h.tiles

theorem Fits.free_length : (freeOffs bs).length < walkFuel := by
  have hsorted := h.free_sorted
  have hbound : ∀ o ∈ freeOffs bs, o < extent := by
    intro o member
    obtain ⟨b, hb, _, rfl⟩ := mem_freeOffs.mp member
    have := h.bound hb
    omega
  have hlen : ∀ (l : List Nat) (lo hi : Nat), l.Pairwise (· < ·) → (∀ o ∈ l, lo ≤ o ∧ o < hi) →
      l.length ≤ hi - lo := by
    intro l
    induction l with
    | nil => intro lo hi _ _; simp
    | cons o rest ih =>
      intro lo hi hp hl
      obtain ⟨hfirst, hrest⟩ := List.pairwise_cons.mp hp
      have ho := hl o (by simp)
      have := ih (o + 1) hi hrest fun o' member =>
        ⟨hfirst o' member, (hl o' (by simp [member])).2⟩
      simp only [List.length_cons]
      omega
  have := hlen _ 0 extent hsorted fun o member => ⟨Nat.zero_le _, hbound o member⟩
  have := h.small
  simp only [walkFuel]
  omega

end

/-! ## Representation -/

/-- The header of `b` carries its size and its state. -/
structure HeaderOf (m : Bytes) (b : Block) : Prop where
  magic : (hdrAt m b.off).magic = if b.used then magicUsed else magicFree
  size : (hdrAt m b.off).size = b.size
  used : (hdrAt m b.off).used = if b.used then 1 else 0

def nextOf (m : Bytes) (off : Nat) : Nat := (hdrAt m off).nextOff

structure Represents (m : Bytes) (head : Nat) (bs : List Block) : Prop where
  headers : ∀ b ∈ bs, HeaderOf m b
  chain : Linked (nextOf m) head (freeOffs bs) endOfList

variable {need : Nat} {m m' : Bytes}

theorem HeaderOf.congr (h : HeaderOf m b) (magic : (hdrAt m' b.off).magic = (hdrAt m b.off).magic)
    (size : (hdrAt m' b.off).size = (hdrAt m b.off).size)
    (used : (hdrAt m' b.off).used = (hdrAt m b.off).used) :
    HeaderOf m' b :=
  ⟨magic.trans h.magic, size.trans h.size, used.trans h.used⟩

theorem HeaderOf.same (h : HeaderOf m b) (e : hdrAt m' b.off = hdrAt m b.off) : HeaderOf m' b :=
  h.congr (by rw [e]) (by rw [e]) (by rw [e])

theorem linked_same {tail : Nat} (same : ∀ b ∈ bs, hdrAt m' b.off = hdrAt m b.off)
    (h : Linked (nextOf m) head (freeOffs bs) tail) :
    Linked (nextOf m') head (freeOffs bs) tail := by
  apply Linked.congr _ h
  intro o member
  obtain ⟨b, hb, _, rfl⟩ := mem_freeOffs.mp member
  rw [nextOf, same b hb]
  rfl

theorem Represents.congr (h : Represents m head bs)
    (same : ∀ b ∈ bs, hdrAt m' b.off = hdrAt m b.off) :
    Represents m' head bs := by
  constructor
  · intro b member
    exact (h.headers b member).same (same b member)
  · exact linked_same same h.chain

/-! ## List walks -/

theorem firstFit_spec (m : Bytes) (hneed : abi.sizeT (need + 16) = need + 16) (fl : List Nat)
    (fuel prev cur : Nat) (chain : Linked (nextOf m) cur fl endOfList)
    (proper : ∀ o ∈ fl, o ≠ endOfList) (enough : fl.length < fuel) :
    (firstFit abi m need fuel prev cur = some none ∧ ∀ o ∈ fl, (hdrAt m o).size < need + 16) ∨
    ∃ front o back, fl = front ++ o :: back ∧
      firstFit abi m need fuel prev cur = some (some (front.getLastD prev, o)) ∧
      need + 16 ≤ (hdrAt m o).size ∧ ∀ o' ∈ front, (hdrAt m o').size < need + 16 := by
  induction fl generalizing fuel prev cur with
  | nil =>
    obtain ⟨fuel, rfl⟩ : ∃ k, fuel = k + 1 := ⟨fuel - 1, by simp at enough; omega⟩
    have hcur : cur = endOfList := chain
    exact Or.inl ⟨by simp [firstFit, hcur], by simp⟩
  | cons o rest ih =>
    obtain ⟨fuel, rfl⟩ : ∃ k, fuel = k + 1 := ⟨fuel - 1, by simp at enough; omega⟩
    obtain ⟨rfl, hrest⟩ := chain
    have hne : cur ≠ endOfList := proper cur (by simp)
    by_cases fits : need + 16 ≤ (hdrAt m cur).size
    · refine Or.inr ⟨[], cur, rest, rfl, ?_, fits, by simp⟩
      simp [firstFit, hne, hdrSize, hneed, fits]
    · have hstep : firstFit abi m need (fuel + 1) prev cur = firstFit abi m need fuel cur
          (nextOf m cur) := by
        simp [firstFit, hne, hdrSize, hneed, fits, nextOf]
      rw [hstep]
      rcases ih fuel cur _ hrest (fun o member => proper o (by simp [member]))
          (by simp at enough; omega) with ⟨hnone, hsmall⟩ |
            ⟨front, o, back, rfl, hfound, hfit, hsmall⟩
      · refine Or.inl ⟨hnone, fun o member => ?_⟩
        rcases List.mem_cons.mp member with rfl | member
        · omega
        · exact hsmall o member
      · refine Or.inr ⟨cur :: front, o, back, rfl, ?_, hfit, fun o' member => ?_⟩
        · rw [hfound, List.getLastD_cons]
        · rcases List.mem_cons.mp member with rfl | member
          · omega
          · exact hsmall o' member

theorem insertWalk_spec (m : Bytes) (off : Nat) (front back : List Nat) (fuel prev walk : Nat)
    (chain : Linked (nextOf m) walk (front ++ back) endOfList)
    (proper : ∀ o ∈ front, o ≠ endOfList) (below : ∀ o ∈ front, o < off)
    (above : ∀ o ∈ back, ¬ o < off) (enough : front.length < fuel) :
    insertWalk m off fuel prev walk = some (front.getLastD prev, back.headD endOfList) := by
  induction front generalizing fuel prev walk with
  | nil =>
    obtain ⟨fuel, rfl⟩ : ∃ k, fuel = k + 1 := ⟨fuel - 1, by simp at enough; omega⟩
    have hwalk : walk = back.headD endOfList := by
      cases back with
      | nil => exact chain
      | cons o rest => exact chain.1
    have hstop : ¬ (walk ≠ endOfList ∧ walk < off) := by
      rintro ⟨hne, hlt⟩
      cases back with
      | nil => exact hne hwalk
      | cons o rest => exact above o (by simp) (by simpa [hwalk] using hlt)
    rw [insertWalk, if_neg hstop, ← hwalk]
    rfl
  | cons o rest ih =>
    obtain ⟨fuel, rfl⟩ : ∃ k, fuel = k + 1 := ⟨fuel - 1, by simp at enough; omega⟩
    obtain ⟨rfl, hrest⟩ := chain
    have hgo : walk ≠ endOfList ∧ walk < off := ⟨proper walk (by simp), below walk (by simp)⟩
    have hstep : insertWalk m off (fuel + 1) prev walk =
        insertWalk m off fuel walk (nextOf m walk) := by
      simp [insertWalk, hgo, nextOf]
    rw [hstep, ih fuel walk _ hrest (fun o member => proper o (by simp [member]))
      (fun o member => below o (by simp [member])) (by simp at enough; omega), List.getLastD_cons]

/-! ## Redirecting the link in front of a block -/

theorem relink_hdr (h : Heap) (prevOff off o : Nat) (hprev : prevOff ≠ endOfList → prevOff % 16 = 0)
    (ho : o % 16 = 0) : hdrAt (relink h prevOff off).mem o =
      if prevOff ≠ endOfList ∧ o = prevOff then { hdrAt h.mem o with nextOff := u32 off }
      else hdrAt h.mem o := by
  by_cases hend : prevOff = endOfList
  · simp [relink, hend]
  · simp only [relink, ne_eq, hend, not_false_eq_true, true_and]
    exact hdrAt_putNext _ _ _ _ (hprev hend) ho

theorem relink_header (h : Heap) (off : Nat) (hprev : prevOff ≠ endOfList → prevOff % 16 = 0)
    (hb : b.off % 16 = 0) (header : HeaderOf h.mem b) :
    HeaderOf (relink h prevOff off).mem b := by
  have e := relink_hdr h prevOff off b.off hprev hb
  split at e
  · exact header.congr (by rw [e]) (by rw [e]) (by rw [e])
  · exact header.congr (by rw [e]) (by rw [e]) (by rw [e])

theorem relink_linked (h : Heap) {front : List Nat}
    (chain : Linked (nextOf h.mem) h.freeHead front old) (sorted : front.Pairwise (· < ·))
    (aligned : ∀ o ∈ front, o % 16 = 0) (proper : ∀ o ∈ front, o ≠ endOfList)
    (hoff : off < 4294967296) :
    Linked (nextOf (relink h (front.getLastD endOfList) off).mem)
      (relink h (front.getLastD endOfList) off).freeHead front off := by
  rcases List.eq_nil_or_concat' front with rfl | ⟨init, p, rfl⟩
  · simp [relink]
  · have hp : p ≠ endOfList := proper p (by simp)
    have hpa : p % 16 = 0 := aligned p (by simp)
    have hlast : (init ++ [p]).getLastD endOfList = p := by simp
    rw [hlast]
    obtain ⟨hinit, _⟩ := Linked.concat_iff.mp chain
    have hhead : (relink h p off).freeHead = h.freeHead := by simp [relink, hp]
    have hbefore : ∀ o ∈ init, o < p := by
      intro o member
      exact (List.pairwise_append.mp sorted).2.2 o member p (by simp)
    rw [hhead]
    refine Linked.concat_iff.mpr ⟨hinit.congr fun o member => ?_, ?_⟩
    · have hne : o ≠ p := Nat.ne_of_lt (hbefore o member)
      simp only [nextOf, relink_hdr h p off o (fun _ => hpa) (aligned o (by simp [member])), hne,
        and_false, if_false]
    · simp only [nextOf, relink_hdr h p off p (fun _ => hpa) hpa, ne_eq, hp, not_false_eq_true,
        and_self, if_true, u32_of_lt hoff]

theorem getLastD_mem {l : List Nat} {d : Nat} (h : l.getLastD d ≠ d) : l.getLastD d ∈ l := by
  rcases List.eq_nil_or_concat' l with rfl | ⟨init, p, rfl⟩
  · simp at h
  · simp

/-! ## Facts about one block among the others -/

theorem mem_middle {x : Block} : x ∈ pre ++ b :: post ↔ x = b ∨ x ∈ pre ++ post := by
  simp only [List.mem_append, List.mem_cons]
  tauto

/-- What the surrounding blocks look like from the block `b`. -/
structure Around (pre : List Block) (b : Block) (post : List Block) : Prop where
  self : b.off % 16 = 0
  self_lt : b.off < 2147483648
  before : ∀ x ∈ pre, x.off % 16 = 0 ∧ x.off < b.off
  after : ∀ x ∈ post, x.off % 16 = 0 ∧ b.off + 16 + b.size ≤ x.off ∧ x.off < 2147483648

theorem Fits.around (h : Fits extent (pre ++ b :: post)) : Around pre b post := by
  have hsmall := h.small
  refine ⟨h.aligned (by simp), ?_, fun x member => ⟨h.aligned (by simp [member]), ?_⟩,
    fun x member => ⟨h.aligned (by simp [member]), ?_, ?_⟩⟩
  · have := h.bound (b := b) (by simp)
    omega
  · have := h.tiles.before member
    simp only [Block.stop, hdrSize] at this
    omega
  · exact h.tiles.after member
  · have := h.bound (b := x) (by simp [member])
    omega

section
variable (h : Around pre b post)
include h

theorem Around.other {x : Block} (member : x ∈ pre ++ post) : x.off % 16 = 0 ∧ x.off ≠ b.off := by
  rcases List.mem_append.mp member with inPre | inPost
  · have := h.before x inPre
    omega
  · have := h.after x inPost
    omega

theorem Around.free_before {o : Nat} (member : o ∈ freeOffs pre) : o % 16 = 0 ∧ o < b.off := by
  obtain ⟨x, hx, _, rfl⟩ := mem_freeOffs.mp member
  exact h.before x hx

theorem Around.free_after {o : Nat} (member : o ∈ freeOffs post) :
    o % 16 = 0 ∧ b.off + 16 + b.size ≤ o ∧ o < 2147483648 := by
  obtain ⟨x, hx, _, rfl⟩ := mem_freeOffs.mp member
  exact h.after x hx

theorem Around.prev : (freeOffs pre).getLastD endOfList ≠ endOfList →
      (freeOffs pre).getLastD endOfList % 16 = 0 ∧ (freeOffs pre).getLastD endOfList < b.off :=
  fun hne => h.free_before (getLastD_mem hne)

end

theorem relink_front (h : Heap) (fits : Fits extent (pre ++ b :: post))
    (chain : Linked (nextOf h.mem) h.freeHead (freeOffs pre) old) (hoff : off < 4294967296) :
    Linked (nextOf (relink h ((freeOffs pre).getLastD endOfList) off).mem)
      (relink h ((freeOffs pre).getLastD endOfList) off).freeHead (freeOffs pre) off := by
  have around := fits.around
  have hsorted : (freeOffs pre).Pairwise (· < ·) := by
    have := fits.free_sorted
    rw [freeOffs_append] at this
    exact (List.pairwise_append.mp this).1
  apply relink_linked h chain hsorted (fun o member => (around.free_before member).1) _ hoff
  intro o member
  have := (around.free_before member).2
  have := around.self_lt
  simp only [endOfList]
  omega

theorem relink_outside (h : Heap) (around : Around pre b post) (off : Nat) (ho : o % 16 = 0)
    (far : ∀ p ∈ freeOffs pre, o ≠ p) :
    hdrAt (relink h ((freeOffs pre).getLastD endOfList) off).mem o = hdrAt h.mem o := by
  rw [relink_hdr h _ _ o (fun hne => (around.prev hne).1) ho]
  split
  next hsame => exact absurd hsame.2 (far _ (getLastD_mem hsame.1))
  · rfl

/-! ## Taking a block out of the free list -/

theorem claim_represents (h : Heap) (fits : Fits extent (pre ++ b :: post))
    (rep : Represents h.mem h.freeHead (pre ++ b :: post)) (free : b.used = false) (h1 : Heap)
    (eq : h1 = relink h ((freeOffs pre).getLastD endOfList) (nextOf h.mem b.off)) :
    Represents (putMagic (putUsed h1.mem b.off 1) b.off magicUsed) h1.freeHead
      (pre ++ { b with used := true } :: post) := by
  have around := fits.around
  have hprev : (freeOffs pre).getLastD endOfList ≠ endOfList →
      (freeOffs pre).getLastD endOfList % 16 = 0 := fun hne => (around.prev hne).1
  have hmem : ∀ o, o % 16 = 0 → hdrAt (putMagic (putUsed h1.mem b.off 1) b.off magicUsed) o =
      if o = b.off then { hdrAt h1.mem o with
          magic := magicUsed,
          used := 1 } else hdrAt h1.mem o := by
    intro o ho
    rw [hdrAt_putMagic _ _ _ _ around.self ho, hdrAt_putUsed _ _ _ _ around.self ho]
    split <;> rfl
  have hnext : ∀ o, o % 16 = 0 →
      nextOf (putMagic (putUsed h1.mem b.off 1) b.off magicUsed) o = nextOf h1.mem o := by
    intro o ho
    simp only [nextOf, hmem o ho]
    split <;> rfl
  have chain := rep.chain
  rw [freeOffs_append, freeOffs_cons_free free, Linked.append_iff] at chain
  obtain ⟨mid, hfront, hmid, hback⟩ := chain
  have hfront' : Linked (nextOf h1.mem) h1.freeHead (freeOffs pre) (nextOf h.mem b.off) := by
    rw [eq]
    exact relink_front h fits hfront (get32_lt _ _)
  refine ⟨fun x member => ?_, ?_⟩
  · rcases mem_middle.mp member with rfl | elsewhere
    · have header := relink_header h (nextOf h.mem b.off) hprev around.self
        (rep.headers b (by simp))
      rw [← eq] at header
      have e := hmem b.off around.self
      exact ⟨by simp [e], by simp [e, header.size], by simp [e]⟩
    · have hx := around.other elsewhere
      have header := relink_header h (nextOf h.mem b.off) hprev hx.1
        (rep.headers x (mem_middle.mpr (Or.inr elsewhere)))
      rw [← eq] at header
      have e := hmem x.off hx.1
      rw [if_neg hx.2] at e
      exact header.same e
  · rw [freeOffs_append, Linked.append_iff]
    refine ⟨nextOf h.mem b.off, hfront'.congr fun o member => hnext o (around.free_before member).1,
      hback.congr fun o member => ?_⟩
    have ho := around.free_after member
    rw [hnext o ho.1, eq, nextOf, relink_outside h around _ ho.1]
    · rfl
    · intro p hp
      have := (around.free_before hp).2
      omega

/-! ## Splitting a free block -/

theorem splitBlock_hdr (m : Bytes) (hoff : off % 16 = 0) (hneed : need % 16 = 0)
    (hsize : (hdrAt m off).size = size)
    (room : need + 32 ≤ size) (hstop : off + 16 + size < 2147483648) (o : Nat) (ho : o % 16 = 0) :
    hdrAt (splitBlock abi m need off) o =
      if o = off then { hdrAt m off with size := need, nextOff := off + 16 + need }
      else if o = off + 16 + need then ⟨magicFree, size - need - 16, nextOf m off, 0⟩
      else hdrAt m o := by
  have hbig : abi.sizeT (need + hdrSize + alignment) ≤ (hdrAt m off).size := by
    rw [sizeT_of_lt abi (by simp only [hdrSize, alignment]; omega), hsize]
    exact room
  have hnew : u32 (off + hdrSize + need) = off + 16 + need :=
    u32_of_lt (by simp only [hdrSize]; omega)
  have hnewa : (off + 16 + need) % 16 = 0 := by omega
  have hne : off ≠ off + 16 + need := by omega
  have hrest : sub32 (sub32 size need) hdrSize = size - need - 16 := by
    have hinner : sub32 size need = size - need := sub32_of_le (by omega) (by omega)
    rw [hinner]
    exact sub32_of_le (by omega) (by simp only [hdrSize]; omega)
  have hnext : (hdrAt m off).nextOff < 4294967296 := get32_lt _ _
  simp only [splitBlock, if_pos hbig, hnew]
  simp only [hdrAt_putMagic _ _ _ _ hnewa, hdrAt_putSize _ _ _ _ hnewa, hdrAt_putNext _ _ _ _ hnewa,
    hdrAt_putUsed _ _ _ _ hnewa, hdrAt_putSize _ _ _ _ hoff, hdrAt_putNext _ _ _ _ hoff, hoff, ho,
    hne, hsize, hrest, if_false, nextOf]
  by_cases h1 : o = off
  · subst h1
    simp [hne, u32_of_lt (show need < 4294967296 by omega),
      u32_of_lt (show o + 16 + need < 4294967296 by omega)]
  · by_cases h2 : o = off + 16 + need
    · subst h2
      simp [h1, u32_of_lt (show magicFree < 4294967296 by decide), u32_of_lt hnext,
        u32_of_lt (show size - need - 16 < 4294967296 by omega)]
      rfl
    · simp [h1, h2]

theorem Fits.split (h : Fits extent (pre ++ b :: post)) (hneed : need % 16 = 0)
    (room : need + 32 ≤ b.size) :
    Fits extent
    (pre ++ ⟨b.off, need, false⟩ :: ⟨b.off + 16 + need, b.size - need - 16, false⟩ :: post) := by
  obtain ⟨hpre, hpost⟩ := tiles_cons_middle h.tiles
  have hsize := h.granular b (by simp)
  refine ⟨tiles_append.mpr ⟨b.off, hpre, rfl, rfl, ?_⟩, fun x member => ?_, h.small⟩
  · have hstop : b.off + 16 + need + 16 + (b.size - need - 16) = b.off + 16 + b.size := by omega
    rw [show Block.stop hdrSize ⟨b.off + 16 + need, b.size - need - 16, false⟩ =
      b.stop hdrSize from hstop]
    exact hpost
  · rcases mem_middle.mp member with rfl | member
    · exact hneed
    · rcases mem_middle.mp member with rfl | member
      · simp only [alignment] at hsize ⊢
        omega
      · exact h.granular x (mem_middle.mpr (Or.inr member))

theorem split_represents (fits : Fits extent (pre ++ b :: post))
    (rep : Represents m head (pre ++ b :: post)) (free : b.used = false) (hneed : need % 16 = 0)
    (room : need + 32 ≤ b.size) :
    Represents (splitBlock abi m need b.off) head
      (pre ++ ⟨b.off, need, false⟩ :: ⟨b.off + 16 + need, b.size - need - 16, false⟩ :: post) := by
  have around := fits.around
  have hstop := fits.bound (b := b) (by simp)
  have hsmall := fits.small
  have header := rep.headers b (by simp)
  have hdr := splitBlock_hdr abi m around.self hneed header.size room (by omega)
  have hfar : ∀ x ∈ pre ++ post, x.off % 16 = 0 ∧ x.off ≠ b.off ∧ x.off ≠ b.off + 16 + need := by
    intro x member
    have hother := around.other member
    refine ⟨hother.1, hother.2, ?_⟩
    rcases List.mem_append.mp member with inPre | inPost
    · have := around.before x inPre
      omega
    · have := around.after x inPost
      omega
  have hsame : ∀ x ∈ pre ++ post, hdrAt (splitBlock abi m need b.off) x.off = hdrAt m x.off := by
    intro x member
    have hx := hfar x member
    rw [hdr x.off hx.1, if_neg hx.2.1, if_neg hx.2.2]
  have hself := hdr b.off around.self
  rw [if_pos rfl] at hself
  have hnew := hdr (b.off + 16 + need) (by have := around.self; omega)
  rw [if_neg (by omega), if_pos rfl] at hnew
  refine ⟨fun x member => ?_, ?_⟩
  · rcases mem_middle.mp member with rfl | member
    · have hm := header.magic
      have hu := header.used
      exact ⟨by simpa [hself, free] using hm, by simp [hself], by simpa [hself, free] using hu⟩
    · rcases mem_middle.mp member with rfl | member
      · exact ⟨by simp [hnew], by simp [hnew], by simp [hnew]⟩
      · exact (rep.headers x (mem_middle.mpr (Or.inr member))).same (hsame x member)
  · have chain := rep.chain
    rw [freeOffs_append, freeOffs_cons_free free, Linked.append_iff] at chain
    obtain ⟨mid, hfront, hmid, hback⟩ := chain
    rw [freeOffs_append, Linked.append_iff]
    refine ⟨mid, ?_, hmid, ?_, ?_⟩
    · exact linked_same (fun x hx => hsame x (List.mem_append_left post hx)) hfront
    · simp only [nextOf, hself]
    · have : nextOf (splitBlock abi m need b.off) (b.off + 16 + need) = nextOf m b.off := by
        simp only [nextOf, hnew]
      rw [this]
      exact linked_same (fun x hx => hsame x (List.mem_append_right pre hx)) hback

theorem splitBlock_whole (m : Bytes) (hsize : (hdrAt m off).size = size) (tight : size < need + 32)
    (hneed : need + 32 < 4294967296) : splitBlock abi m need off = m := by
  have hsmall : ¬ abi.sizeT (need + hdrSize + alignment) ≤ (hdrAt m off).size := by
    rw [sizeT_of_lt abi (by simp only [hdrSize, alignment]; omega)]
    simp only [hdrSize, alignment]
    omega
  simp only [splitBlock, if_neg hsmall]

theorem takeBlock_spec (h : Heap) (fits : Fits extent (pre ++ b :: post))
    (rep : Represents h.mem h.freeHead (pre ++ b :: post)) (free : b.used = false)
    (hneed : need % 16 = 0) (hbound : need + 32 < 4294967296) (taken : Nat × Heap)
    (eq : taken = takeBlock abi h need ((freeOffs pre).getLastD endOfList) b.off) :
    taken.1 = h.hbase + b.off + 16 ∧ taken.2.hbase = h.hbase ∧ taken.2.hsize = h.hsize ∧
      Represents taken.2.mem taken.2.freeHead (pre ++ carve hdrSize alignment need b ++ post) := by
  have hrelink : ∀ (h : Heap) (x y : Nat), (relink h x y).hbase = h.hbase ∧
      (relink h x y).hsize = h.hsize := by
    intro h x y
    unfold relink
    split <;> exact ⟨rfl, rfl⟩
  subst eq
  refine ⟨by simp only [takeBlock, (hrelink _ _ _).1]; rfl, (hrelink _ _ _).1, (hrelink
    _ _ _).2, ?_⟩
  have hsize := (rep.headers b (by simp)).size
  by_cases room : need + 32 ≤ b.size
  · have hsplit := split_represents abi fits rep free hneed room
    have claim :=
      claim_represents (b := ⟨b.off, need, false⟩) { h with mem := splitBlock abi h.mem need b.off }
      (fits.split hneed room) hsplit rfl _ rfl
    have hcarve : carve hdrSize alignment need b =
        [⟨b.off, need, true⟩, ⟨b.off + 16 + need, b.size - need - 16, false⟩] :=
      if_pos (room)
    rw [hcarve, List.append_assoc]
    exact claim
  · have hwhole := splitBlock_whole abi h.mem hsize (Nat.lt_of_not_le room) hbound
    have claim := claim_represents h fits rep free _ rfl
    have hcarve : carve hdrSize alignment need b = [⟨b.off, b.size, true⟩] := if_neg (room)
    simp only [takeBlock, hwhole]
    rw [hcarve, List.append_assoc]
    exact claim

/-! ## Octets of the payloads in use -/

/-- An octet of a payload in use. -/
def InPayload (bs : List Block) (i : Nat) : Prop :=
  ∃ x ∈ usedBlocks bs, x.off + 16 ≤ i ∧ i < x.off + 16 + x.size

variable {i : Nat}

theorem Fits.block_apart (h : Fits extent (pre ++ b :: post)) (held : InPayload (pre ++ post) i) :
    i < b.off ∨ b.off + 16 + b.size ≤ i := by
  obtain ⟨x, hx, lo, hi⟩ := held
  rcases List.mem_append.mp (mem_usedBlocks.mp hx).1 with inPre | inPost
  · have := h.tiles.before inPre
    simp only [Block.stop, hdrSize] at this
    omega
  · have := (h.around.after x inPost).2.1
    omega

theorem Fits.header_apart (h : Fits extent bs) (member : b ∈ bs) (held : InPayload bs i) :
    i < b.off ∨ b.off + 16 ≤ i := by
  obtain ⟨pre, post, rfl⟩ := List.append_of_mem member
  obtain ⟨x, hx, lo, hi⟩ := held
  obtain ⟨inside, used⟩ := mem_usedBlocks.mp hx
  rcases mem_middle.mp inside with rfl | elsewhere
  · exact Or.inr lo
  · have := h.block_apart ⟨x, mem_usedBlocks.mpr ⟨elsewhere, used⟩, lo, hi⟩
    omega

theorem put32_field (m : Bytes) {k : Nat} (field : k ≤ 12) (outside : i < o ∨ o + 16 ≤ i) :
    put32 m (o + k) v i = m i := put32_outside m v (by omega)

theorem relink_octet (h : Heap) (off : Nat)
    (outside : prevOff ≠ endOfList → i < prevOff + 8 ∨ prevOff + 12 ≤ i) :
    (relink h prevOff off).mem i = h.mem i := by
  unfold relink
  split
  · rfl
  next going => exact put32_outside h.mem _ (by have := outside going; omega)

theorem splitBlock_octet (m : Bytes) (hsize : (hdrAt m off).size = size)
    (hstop : off + 16 + size < 2147483648) (hbound : need + 32 < 4294967296)
    (outside : i < off ∨ off + 16 + size ≤ i) :
    splitBlock abi m need off i = m i := by
  by_cases room : need + 32 ≤ size
  · have hbig : abi.sizeT (need + hdrSize + alignment) ≤ (hdrAt m off).size := by
      rw [sizeT_of_lt abi (by simp only [hdrSize, alignment]; omega), hsize]
      exact room
    have hnew : u32 (off + hdrSize + need) = off + 16 + need :=
      u32_of_lt (by simp only [hdrSize]; omega)
    simp only [splitBlock, if_pos hbig, hnew]
    unfold putNext putSize putUsed putMagic
    rw [put32_outside _ _ (by omega), put32_outside _ _ (by omega), put32_outside _ _ (by omega),
      put32_outside _ _ (by omega), put32_outside _ _ (by omega), put32_outside _ _ (by omega)]
  · rw [splitBlock_whole abi m hsize (Nat.lt_of_not_le room) hbound]

/-- Taking a block out of the list writes that block and the link of the free block before it. -/
theorem takeBlock_frame (h : Heap) (hsize : (hdrAt h.mem off).size = size)
    (hstop : off + 16 + size < 2147483648) (hbound : need + 32 < 4294967296)
    (apart : i < off ∨ off + 16 + size ≤ i)
    (link : prevOff ≠ endOfList → i < prevOff + 8 ∨ prevOff + 12 ≤ i) :
    (takeBlock abi h need prevOff off).2.mem i = h.mem i := by
  have header : i < off ∨ off + 16 ≤ i := by omega
  simp only [takeBlock, putMagic, putUsed]
  rw [put32_outside _ _ (by omega), put32_field _ (by omega) header, relink_octet _ _ link]
  exact splitBlock_octet abi h.mem hsize hstop hbound apart

theorem takeBlock_octet (h : Heap) (fits : Fits extent (pre ++ b :: post))
    (rep : Represents h.mem h.freeHead (pre ++ b :: post)) (free : b.used = false)
    (hbound : need + 32 < 4294967296) (held : InPayload (pre ++ b :: post) i) :
    (takeBlock abi h need ((freeOffs pre).getLastD endOfList) b.off).2.mem i = h.mem i := by
  have hstop := fits.bound (b := b) (by simp)
  have hsmall := fits.small
  have apart : i < b.off ∨ b.off + 16 + b.size ≤ i := by
    apply fits.block_apart
    obtain ⟨x, hx, range⟩ := held
    refine ⟨x, ?_, range⟩
    simpa [usedBlocks, free] using hx
  apply takeBlock_frame abi h (rep.headers b (by simp)).size (by omega) hbound apart
  intro going
  obtain ⟨y, hy, _, hoff⟩ := mem_freeOffs.mp (getLastD_mem going)
  have := fits.header_apart (b := y) (by simp [hy]) held
  omega

end Obsidian.Mm.HeapC
