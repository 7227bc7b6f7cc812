import Mathlib.Algebra.GroupWithZero.Nat
import Mathlib.Data.List.Chain

/-!
# Regions tiled by headed blocks

The abstract state of a boundary-tag allocator: a list of blocks in address
order, each a header of `hdr` octets followed by `size` payload octets. `Layout`
is the invariant: the blocks tile the region without gap or overlap, sizes are
positive multiples of the granule, and no two neighbours are both free. `carve`
and `release` are the two operations; both keep the invariant.
-/
namespace Obsidian.Lib.Tiling

structure Block where
  off : Nat
  size : Nat
  used : Bool
  deriving DecidableEq, Repr

variable {hdr gran extent lo hi need : Nat} {bs pre post : List Block} {a b c : Block}

/-- First octet after the block. -/
def Block.stop (hdr : Nat) (b : Block) : Nat := b.off + hdr + b.size

def Tiles (hdr : Nat) : Nat → List Block → Nat → Prop
  | lo, [], hi => lo = hi
  | lo, b :: rest, hi => b.off = lo ∧ Tiles hdr (b.stop hdr) rest hi

/-- Of two neighbours at least one is in use. -/
def Coalesced (bs : List Block) : Prop := bs.IsChain fun a b => a.used = true ∨ b.used = true

structure Layout (hdr gran extent : Nat) (bs : List Block) : Prop where
  tiles : Tiles hdr 0 bs extent
  sized : ∀ b ∈ bs, b.size % gran = 0 ∧ gran ≤ b.size
  coalesced : Coalesced bs

/-! ## Tilings -/

theorem tiles_append :
    Tiles hdr lo (pre ++ post) hi ↔ ∃ mid, Tiles hdr lo pre mid ∧ Tiles hdr mid post hi := by
  induction pre generalizing lo with
  | nil => simp [Tiles]
  | cons b rest ih => simp [Tiles, ih, and_assoc]

theorem Tiles.le (h : Tiles hdr lo bs hi) : lo ≤ hi := by
  induction bs generalizing lo with
  | nil => exact Nat.le_of_eq h
  | cons b rest ih =>
    obtain ⟨hoff, hrest⟩ := h
    have := ih hrest
    simp only [Block.stop] at this
    omega

theorem Tiles.bounds (h : Tiles hdr lo bs hi) (member : b ∈ bs) : lo ≤ b.off ∧ b.stop hdr ≤ hi := by
  induction bs generalizing lo with
  | nil => simp at member
  | cons first rest ih =>
    obtain ⟨hoff, hrest⟩ := h
    have hle := hrest.le
    rcases List.mem_cons.mp member with rfl | inRest
    · exact ⟨by omega, hle⟩
    · have hb := ih hrest inRest
      simp only [Block.stop] at hb hle ⊢
      omega

/-- Distinct blocks do not overlap, header included. -/
theorem Tiles.pairwise (h : Tiles hdr lo bs hi) : bs.Pairwise fun a b => a.stop hdr ≤ b.off := by
  induction bs generalizing lo with
  | nil => exact List.Pairwise.nil
  | cons first rest ih =>
    obtain ⟨_, hrest⟩ := h
    exact List.Pairwise.cons (fun other member => (hrest.bounds member).1) (ih hrest)

section
variable (h : Tiles hdr lo (pre ++ b :: post) hi)
include h

theorem tiles_cons_middle : Tiles hdr lo pre b.off ∧ Tiles hdr (b.stop hdr) post hi := by
  obtain ⟨mid, hpre, hoff, hpost⟩ := tiles_append.mp h
  subst hoff
  exact ⟨hpre, hpost⟩

theorem Tiles.before (member : a ∈ pre) : a.stop hdr ≤ b.off :=
  ((tiles_cons_middle h).1.bounds member).2

theorem Tiles.after (member : c ∈ post) : b.stop hdr ≤ c.off :=
  ((tiles_cons_middle h).2.bounds member).1

end

/-- Sizes and headers made of granules put every block at a granule boundary. -/
theorem Tiles.off_mod (h : Tiles hdr lo bs hi) (hhdr : hdr % gran = 0)
    (sized : ∀ b ∈ bs, b.size % gran = 0) (hlo : lo % gran = 0) (member : b ∈ bs) :
    b.off % gran = 0 := by
  induction bs generalizing lo with
  | nil => simp at member
  | cons first rest ih =>
    obtain ⟨hoff, hrest⟩ := h
    rcases List.mem_cons.mp member with rfl | inRest
    · rw [hoff]
      exact hlo
    · have hstop : first.stop hdr % gran = 0 := by
        have hsize := sized first (by simp)
        simp only [Block.stop, Nat.add_mod, hoff, hlo, hhdr, hsize, Nat.zero_mod, Nat.add_zero]
      exact ih hrest (fun other belongs => sized other (by simp [belongs])) hstop inRest

/-! ## Free blocks -/

def freeOffs (bs : List Block) : List Nat := (bs.filter fun b => !b.used).map Block.off

def usedBlocks (bs : List Block) : List Block := bs.filter fun b => b.used

@[simp] theorem freeOffs_append : freeOffs (pre ++ post) = freeOffs pre ++ freeOffs post := by
  simp [freeOffs]

theorem freeOffs_cons_free (h : b.used = false) : freeOffs (b :: bs) = b.off :: freeOffs bs := by
  simp [freeOffs, h]

theorem freeOffs_cons_used (h : b.used = true) : freeOffs (b :: bs) = freeOffs bs := by
  simp [freeOffs, h]

theorem mem_freeOffs {o : Nat} : o ∈ freeOffs bs ↔ ∃ b ∈ bs, b.used = false ∧ b.off = o := by
  simp [freeOffs, and_assoc]

@[simp] theorem usedBlocks_append :
    usedBlocks (pre ++ post) = usedBlocks pre ++ usedBlocks post := by
  simp [usedBlocks]

theorem mem_usedBlocks : b ∈ usedBlocks bs ↔ b ∈ bs ∧ b.used = true := by simp [usedBlocks]

/-- The blocks in use fit into the region with their headers. -/
theorem Tiles.used_le (h : Tiles hdr lo bs hi) :
    lo + ((usedBlocks bs).map Block.size).sum + hdr * (usedBlocks bs).length ≤ hi := by
  induction bs generalizing lo with
  | nil => exact Nat.le_of_eq h
  | cons b rest ih =>
    obtain ⟨hoff, hrest⟩ := h
    have hle := ih hrest
    simp only [Block.stop] at hle
    cases hu : b.used with
    | true =>
      have hcons : usedBlocks (b :: rest) = b :: usedBlocks rest := by simp [usedBlocks, hu]
      simp only [hcons, List.map_cons, List.sum_cons, List.length_cons, Nat.mul_succ]
      omega
    | false =>
      have hskip : usedBlocks (b :: rest) = usedBlocks rest := by simp [usedBlocks, hu]
      rw [hskip]
      omega

theorem freeOffs_sorted (hpos : 0 < hdr) (h : Tiles hdr lo bs hi) :
    (freeOffs bs).Pairwise (· < ·) := by
  refine List.pairwise_map.mpr ((h.pairwise.filter _).imp ?_)
  intro a b hab
  simp only [Block.stop] at hab
  omega

/-- Cut the blocks where a given list of free offsets has a given entry. -/
theorem split_at_free {front back : List Nat} {o : Nat} (h : freeOffs bs = front ++ o :: back) :
    ∃ pre b post, bs = pre ++ b :: post ∧ b.used = false ∧ b.off = o ∧
      freeOffs pre = front ∧ freeOffs post = back := by
  obtain ⟨f₁, f₂, hsplit, hfront, hback⟩ := List.map_eq_append_iff.mp h
  obtain ⟨l₁, l₂, rfl, hl₁, hl₂⟩ := List.filter_eq_append_iff.mp hsplit
  subst hl₁ hl₂
  obtain ⟨b, f₃, hcons, hoff, hrest⟩ := List.map_eq_cons_iff.mp hback
  obtain ⟨m₁, m₂, rfl, hm₁, hfree, rfl⟩ := List.filter_eq_cons_iff.mp hcons
  refine ⟨l₁ ++ m₁, b, m₂, by simp, by simpa using hfree, hoff, ?_, hrest⟩
  have hnone : freeOffs m₁ = [] := by
    simp only [freeOffs, List.map_eq_nil_iff, List.filter_eq_nil_iff]
    exact hm₁
  rw [freeOffs_append, hnone, List.append_nil]
  exact hfront

/-! ## Carving a block -/

/-- Take `need` octets of a free block; the tail becomes a block of its own when
it can hold a header and one granule. -/
def carve (hdr gran need : Nat) (b : Block) : List Block :=
  if need + hdr + gran ≤ b.size then
    [⟨b.off, need, true⟩, ⟨b.off + hdr + need, b.size - need - hdr, false⟩]
  else [⟨b.off, b.size, true⟩]

theorem tiles_carve (h : Tiles hdr lo (pre ++ b :: post) hi) :
    Tiles hdr lo (pre ++ carve hdr gran need b ++ post) hi := by
  obtain ⟨hpre, hpost⟩ := tiles_cons_middle h
  rw [List.append_assoc]
  refine tiles_append.mpr ⟨b.off, hpre, ?_⟩
  unfold carve
  split
  next fits =>
    refine ⟨rfl, rfl, ?_⟩
    have hstop : b.off + hdr + need + hdr + (b.size - need - hdr) = b.off + hdr + b.size := by omega
    rw [show Block.stop hdr ⟨b.off + hdr + need, b.size - need - hdr, false⟩ =
      b.stop hdr from hstop]
    exact hpost
  · exact ⟨rfl, hpost⟩

theorem coalesced_insert (h : Coalesced (pre ++ b :: post)) (x : Block) (hx : x.used = true) :
    Coalesced (pre ++ x :: post) := by
  rw [Coalesced, List.isChain_append, List.isChain_cons] at h ⊢
  refine ⟨h.1, ⟨fun _ _ => Or.inl hx, h.2.1.2⟩, ?_⟩
  intro y _ z hz
  simp only [List.head?_cons, Option.mem_def, Option.some.injEq] at hz
  exact Or.inr (hz ▸ hx)

theorem coalesced_carve (h : Coalesced (pre ++ b :: post)) (hb : b.used = false) :
    Coalesced (pre ++ carve hdr gran need b ++ post) := by
  rw [List.append_assoc]
  unfold carve
  split
  · have hpost : Coalesced (⟨b.off + hdr + need, b.size - need - hdr, false⟩ :: post) := by
      have hold := (List.isChain_append.mp h).2.1
      rw [List.isChain_cons] at hold
      refine List.isChain_cons.mpr ⟨fun y hy => ?_, hold.2⟩
      have := hold.1 y hy
      simpa [hb] using this
    exact coalesced_insert (b := ⟨b.off, need, true⟩)
      (List.isChain_append.mpr ⟨(List.isChain_append.mp h).1, List.isChain_cons.mpr ⟨fun _ _ =>
        Or.inl rfl, hpost⟩,
        fun _ _ y hy => Or.inr (by
          simp only [List.head?_cons, Option.mem_def, Option.some.injEq] at hy
          exact hy ▸ rfl)⟩) _ rfl
  · exact coalesced_insert h _ rfl

/-- Carving keeps the layout: a split never leaves its remainder next to a free block. -/
theorem Layout.carve (h : Layout hdr gran extent (pre ++ b :: post)) (hb : b.used = false)
    (hneed : need % gran = 0) (hpos : gran ≤ need) (hhdr : hdr % gran = 0) :
    Layout hdr gran extent (pre ++ carve hdr gran need b ++ post) := by
  refine ⟨tiles_carve h.tiles, ?_, coalesced_carve h.coalesced hb⟩
  have hsize := h.sized b (by simp)
  intro x hx
  simp only [List.mem_append] at hx
  rcases hx with (hx | hx) | hx
  · exact h.sized x (by simp [hx])
  · unfold Tiling.carve at hx
    split at hx
    next fits =>
      simp only [List.mem_cons, List.not_mem_nil, or_false] at hx
      rcases hx with rfl | rfl
      · exact ⟨hneed, hpos⟩
      · refine ⟨?_, by simp only; omega⟩
        obtain ⟨k, hk⟩ := Nat.dvd_of_mod_eq_zero hsize.1
        obtain ⟨l, hl⟩ := Nat.dvd_of_mod_eq_zero hneed
        obtain ⟨m, hm⟩ := Nat.dvd_of_mod_eq_zero hhdr
        simp only [hk, hl, hm, ← Nat.mul_sub, Nat.mul_mod_right]
    · simp only [List.mem_cons, List.not_mem_nil, or_false] at hx
      subst hx
      exact hsize
  · exact h.sized x (by simp [hx])

theorem usedBlocks_carve (hdr gran need : Nat) (b : Block) :
    ∃ n, usedBlocks (carve hdr gran need b) = [⟨b.off, n, true⟩] ∧ (need ≤ b.size → need ≤ n) := by
  unfold carve
  split
  · exact ⟨need, by simp [usedBlocks], fun _ => Nat.le_refl _⟩
  · exact ⟨b.size, by simp [usedBlocks], id⟩

/-! ## Releasing a block -/

/-- The free block made of two neighbours. -/
def join (hdr : Nat) (a b : Block) : Block := ⟨a.off, a.size + hdr + b.size, false⟩

def joinLeft (hdr : Nat) (pre : List Block) (b : Block) : List Block × Block :=
  match pre.getLast? with
  | some a => if a.used then (pre, b) else (pre.dropLast, join hdr a b)
  | none => (pre, b)

def joinRight (hdr : Nat) (b : Block) : List Block → List Block
  | c :: rest => if c.used then b :: c :: rest else join hdr b c :: rest
  | [] => [b]

/-- Free the block between `pre` and `post`, merging it with free neighbours. -/
def release (hdr : Nat) (pre : List Block) (b : Block) (post : List Block) : List Block :=
  (joinLeft hdr pre { b with used := false }).1 ++
    joinRight hdr (joinLeft hdr pre { b with used := false }).2 post

theorem tiles_join (h : Tiles hdr lo (pre ++ a :: b :: post) hi) :
    Tiles hdr lo (pre ++ join hdr a b :: post) hi := by
  obtain ⟨hpre, hoff, hpost⟩ := tiles_cons_middle h
  refine tiles_append.mpr ⟨a.off, hpre, rfl, ?_⟩
  have hstop : (join hdr a b).stop hdr = b.stop hdr := by
    simp only [join, Block.stop] at hoff ⊢
    omega
  rw [hstop]
  exact hpost

theorem joinLeft_cases (hdr : Nat) (pre : List Block) (b : Block) :
    (joinLeft hdr pre b = (pre, b) ∧ ∀ a ∈ pre.getLast?, a.used = true) ∨
    ∃ init a, pre = init ++ [a] ∧ a.used = false ∧ joinLeft hdr pre b = (init, join hdr a b) := by
  rcases List.eq_nil_or_concat' pre with rfl | ⟨init, a, rfl⟩
  · exact Or.inl ⟨rfl, by simp⟩
  · cases hu : a.used with
    | true => exact Or.inl ⟨by simp [joinLeft, hu], by simpa using hu⟩
    | false => exact Or.inr ⟨init, a, rfl, hu, by simp [joinLeft, hu]⟩

theorem joinRight_cases (hdr : Nat) (b : Block) (post : List Block) :
    (joinRight hdr b post = b :: post ∧ ∀ c ∈ post.head?, c.used = true) ∨
    ∃ c rest, post = c :: rest ∧ c.used = false ∧ joinRight hdr b post = join hdr b c :: rest := by
  cases post with
  | nil => exact Or.inl ⟨rfl, by simp⟩
  | cons c rest =>
    cases hu : c.used with
    | true => exact Or.inl ⟨by simp [joinRight, hu], by simpa using hu⟩
    | false => exact Or.inr ⟨c, rest, rfl, hu, by simp [joinRight, hu]⟩

theorem coalesced_between (hpre : Coalesced pre) (hpost : Coalesced post)
    (left : ∀ a ∈ pre.getLast?, a.used = true) (right : ∀ c ∈ post.head?, c.used = true)
    (x : Block) : Coalesced (pre ++ x :: post) := by
  refine List.isChain_append.mpr ⟨hpre, List.isChain_cons.mpr ⟨?_, hpost⟩, ?_⟩
  · exact fun c hc => Or.inr (right c hc)
  · exact fun a ha _ _ => Or.inl (left a ha)

/-- What a release does to the blocks: the freed block takes in the neighbour on
either side that was free, and its new neighbours are in use. -/
theorem release_shape (hdr : Nat) (h : Coalesced (pre ++ b :: post)) :
    ∃ front x back, release hdr pre b post = front ++ x :: back ∧ x.used = false ∧ Coalesced front ∧
    Coalesced back ∧
      (∀ a ∈ front.getLast?, a.used = true) ∧ (∀ c ∈ back.head?, c.used = true) := by
  obtain ⟨hpre, hmid, _⟩ := List.isChain_append.mp h
  have hpost : Coalesced post := (List.isChain_cons.mp hmid).2
  have right : ∀ x : Block, x.used = false → ∃ y back, joinRight hdr x post = y :: back ∧
      y.used = false ∧ Coalesced back ∧ ∀ c ∈ back.head?, c.used = true := by
    intro x hx
    rcases joinRight_cases hdr x post with ⟨heq, hused⟩ | ⟨c, rest, rfl, hc, heq⟩
    · exact ⟨x, post, heq, hx, hpost, hused⟩
    · obtain ⟨hlink, hrest⟩ := List.isChain_cons.mp hpost
      refine ⟨_, rest, heq, rfl, hrest, fun d hd => ?_⟩
      simpa [hc] using hlink d hd
  rcases joinLeft_cases hdr pre { b with used := false } with ⟨heq, hused⟩ | ⟨init, a, rfl, ha, heq⟩
  · obtain ⟨y, back, hjoin, hy, hback, hright⟩ := right { b with used := false } rfl
    exact ⟨pre, y, back, by simp [release, heq, hjoin], hy, hpre, hback, hused, hright⟩
  · obtain ⟨y, back, hjoin, hy, hback, hright⟩ := right (join hdr a { b with used := false }) rfl
    obtain ⟨hinit, _, hlink⟩ := List.isChain_append.mp hpre
    refine ⟨init, y, back, by simp [release, heq, hjoin], hy, hinit, hback, fun d hd => ?_, hright⟩
    simpa [ha] using hlink d hd a (by simp)

theorem tiles_release (h : Tiles hdr lo (pre ++ b :: post) hi) :
    Tiles hdr lo (release hdr pre b post) hi := by
  have hfree : Tiles hdr lo (pre ++ { b with used := false } :: post) hi := by
    obtain ⟨hpre, hpost⟩ := tiles_cons_middle h
    exact tiles_append.mpr ⟨b.off, hpre, rfl, hpost⟩
  have right : ∀ front x, Tiles hdr lo (front ++ x :: post) hi →
      Tiles hdr lo (front ++ joinRight hdr x post) hi := by
    intro front x hx
    rcases joinRight_cases hdr x post with ⟨heq, _⟩ | ⟨c, rest, rfl, _, heq⟩
    · rw [heq]
      exact hx
    · rw [heq]
      exact tiles_join hx
  unfold release
  rcases joinLeft_cases hdr pre { b with used := false } with ⟨heq, _⟩ | ⟨init, a, rfl, _, heq⟩
  · rw [heq]
    exact right _ _ hfree
  · rw [heq]
    refine right _ _ (tiles_join ?_)
    simpa using hfree

theorem sized_release (hhdr : hdr % gran = 0)
    (h : ∀ x ∈ pre ++ b :: post, x.size % gran = 0 ∧ gran ≤ x.size) :
    ∀ x ∈ release hdr pre b post, x.size % gran = 0 ∧ gran ≤ x.size := by
  have hjoin : ∀ x y : Block, (x.size % gran = 0 ∧ gran ≤ x.size) →
      (y.size % gran = 0 ∧ gran ≤ y.size) →
      (join hdr x y).size % gran = 0 ∧ gran ≤ (join hdr x y).size := by
    intro x y hx hy
    refine ⟨?_, by simp only [join]; omega⟩
    simp only [join, Nat.add_mod, hx.1, hy.1, hhdr, Nat.zero_mod, Nat.add_zero]
  have right : ∀ y : Block, (y.size % gran = 0 ∧ gran ≤ y.size) →
      ∀ x ∈ joinRight hdr y post, x.size % gran = 0 ∧ gran ≤ x.size := by
    intro y hy x hx
    rcases joinRight_cases hdr y post with ⟨heq, _⟩ | ⟨c, rest, rfl, _, heq⟩
    · rw [heq] at hx
      rcases List.mem_cons.mp hx with rfl | hx
      · exact hy
      · exact h x (by simp [hx])
    · rw [heq] at hx
      rcases List.mem_cons.mp hx with rfl | hx
      · exact hjoin _ _ hy (h c (by simp))
      · exact h x (by simp [hx])
  have hb := h b (by simp)
  intro x hx
  unfold release at hx
  rcases joinLeft_cases hdr pre { b with used := false } with ⟨heq, _⟩ | ⟨init, a, rfl, _, heq⟩
  · rw [heq] at hx
    rcases List.mem_append.mp hx with hx | hx
    · exact h x (by simp [hx])
    · exact right { b with used := false } hb x hx
  · rw [heq] at hx
    rcases List.mem_append.mp hx with hx | hx
    · exact h x (by simp [hx])
    · exact right _ (hjoin a { b with used := false } (h a (by simp)) hb) x hx

/-- Releasing keeps the layout, whichever neighbours were free. -/
theorem Layout.release (h : Layout hdr gran extent (pre ++ b :: post)) (hhdr : hdr % gran = 0) :
    Layout hdr gran extent (release hdr pre b post) := by
  refine ⟨tiles_release h.tiles, sized_release hhdr h.sized, ?_⟩
  obtain ⟨front, x, back, heq, _, hfront, hback, left, right⟩ := release_shape hdr h.coalesced
  rw [heq]
  exact coalesced_between hfront hback left right x

theorem usedBlocks_release :
    usedBlocks (release hdr pre b post) = usedBlocks pre ++ usedBlocks post := by
  have right : ∀ x : Block, x.used = false → usedBlocks (joinRight hdr x post) =
      usedBlocks post := by
    intro x hx
    rcases joinRight_cases hdr x post with ⟨heq, _⟩ | ⟨c, rest, rfl, hc, heq⟩
    · rw [heq]
      simp [usedBlocks, hx]
    · rw [heq]
      simp [usedBlocks, join, hc]
  unfold release
  rcases joinLeft_cases hdr pre { b with used := false } with ⟨heq, _⟩ | ⟨init, a, rfl, ha, heq⟩
  · rw [heq, usedBlocks_append, right _ rfl]
  · rw [heq, usedBlocks_append, right _ rfl]
    simp [usedBlocks, ha]

/-- With nothing in use the region is one free block. -/
theorem Layout.all_free (h : Layout hdr gran extent bs) (hpos : 0 < extent)
    (hfree : usedBlocks bs = []) : bs = [⟨0, extent - hdr, false⟩] := by
  have hnone : ∀ b ∈ bs, b.used = false := by
    intro b member
    by_contra hused
    have : b ∈ usedBlocks bs := mem_usedBlocks.mpr ⟨member, by simpa using hused⟩
    simp [hfree] at this
  match bs, h.tiles, h.coalesced, hnone with
  | [], htiles, _, _ => exact absurd htiles (by simp only [Tiles]; omega)
  | [⟨off, size, used⟩], ⟨hoff, hstop⟩, _, hnone =>
    have hu : used = false := hnone ⟨off, size, used⟩ (by simp)
    simp only [Tiles, Block.stop] at hstop hoff
    subst hoff hu
    simp only [List.cons.injEq, Block.mk.injEq, and_true, true_and]
    omega
  | a :: b :: rest, _, hcoal, hnone =>
    have hlink := (List.isChain_cons_cons.mp hcoal).1
    simp [hnone a (by simp), hnone b (by simp)] at hlink

end Obsidian.Lib.Tiling
