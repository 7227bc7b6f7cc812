import Obsidian.Mm.HeapCRefine

/-!
# The free path of the C allocator

`kfree` poisons the payload, marks the header, links the block in at its place
and then tries to absorb it into the block on its left and the block on its
right into it. Linking in and absorbing are each one edit of the represented
block list; composed they are `Tiling.release`.
-/
namespace Obsidian.Mm.HeapC
open Lib Lib.Bytes Lib.Tiling

variable {extent : Nat} {bs pre post : List Block} {a b c : Block} {m : Bytes} {head : Nat}

theorem payload_hdr (fits : Fits extent bs) (member : b ∈ bs) {m m' : Bytes}
    (same : ∀ i, i < b.off + 16 ∨ b.off + 16 + b.size ≤ i → m' i = m i) {x : Block} (hx : x ∈ bs) :
    hdrAt m' x.off = hdrAt m x.off := by
  apply hdrAt_congr
  intro i hlo hhi
  apply same
  obtain ⟨pre, post, rfl⟩ := List.append_of_mem member
  have around := fits.around
  rcases mem_middle.mp hx with rfl | elsewhere
  · exact Or.inl hhi
  · rcases List.mem_append.mp elsewhere with inPre | inPost
    · have := fits.tiles.before inPre
      simp only [Block.stop, hdrSize] at this
      omega
    · have := around.after x inPost
      omega

theorem payload_represents (fits : Fits extent bs) (rep : Represents m head bs) (member : b ∈ bs)
    {m' : Bytes} (same : ∀ i, i < b.off + 16 ∨ b.off + 16 + b.size ≤ i → m' i = m i) :
    Represents m' head bs :=
  rep.congr fun _ hx => payload_hdr fits member same hx

/-! ## Linking the block in -/

theorem headD_lt (fits : Fits extent (pre ++ b :: post)) :
    (freeOffs post).headD endOfList < 4294967296 := by
  cases hfree : freeOffs post with
  | nil => decide
  | cons o rest =>
    have := fits.around.free_after (o := o) (by simp [hfree])
    simp only [List.headD_cons]
    omega

theorem enlist_represents (fits : Fits extent (pre ++ b :: post))
    (rep : Represents m head (pre ++ b :: post)) (used : b.used = true) (h0 h1 : Heap)
    (hmem : h0.mem = putNext (putUsed (putMagic m b.off magicFree) b.off 0) b.off
      ((freeOffs post).headD endOfList)) (hhead : h0.freeHead = head)
    (eq : h1 = relink h0 ((freeOffs pre).getLastD endOfList) b.off) :
    Represents h1.mem h1.freeHead (pre ++ { b with used := false } :: post) := by
  have around := fits.around
  have hprev : (freeOffs pre).getLastD endOfList ≠ endOfList →
      (freeOffs pre).getLastD endOfList % 16 = 0 := fun hne => (around.prev hne).1
  have hdr0 : ∀ o, o % 16 = 0 → hdrAt h0.mem o =
      if o = b.off then ⟨magicFree, (hdrAt m o).size, (freeOffs post).headD endOfList, 0⟩
      else hdrAt m o := by
    intro o ho
    rw [hmem, hdrAt_putNext _ _ _ _ around.self ho, hdrAt_putUsed _ _ _ _ around.self ho,
      hdrAt_putMagic _ _ _ _ around.self ho, u32_of_lt (headD_lt fits)]
    split <;> rfl
  have chain := rep.chain
  rw [freeOffs_append, freeOffs_cons_used used, Linked.append_iff] at chain
  obtain ⟨mid, hfront, hback⟩ := chain
  have hfront0 : Linked (nextOf h0.mem) h0.freeHead (freeOffs pre) mid := by
    rw [hhead]
    refine hfront.congr fun o member => ?_
    have ho := around.free_before member
    simp only [nextOf, hdr0 o ho.1, if_neg (Nat.ne_of_lt ho.2)]
  have hfront1 : Linked (nextOf h1.mem) h1.freeHead (freeOffs pre) b.off := by
    rw [eq]
    exact relink_front h0 fits hfront0 (by have := around.self_lt; omega)
  have hlink : ∀ o, o % 16 = 0 → (∀ p ∈ freeOffs pre, o ≠ p) → hdrAt h1.mem o = hdrAt h0.mem o := by
    intro o ho hfar
    rw [eq]
    exact relink_outside h0 around b.off ho hfar
  have hself : hdrAt h1.mem b.off = ⟨magicFree, b.size, (freeOffs post).headD endOfList, 0⟩ := by
    rw [hlink b.off around.self fun p hp => Nat.ne_of_gt (around.free_before hp).2,
      hdr0 b.off around.self, if_pos rfl, (rep.headers b (by simp)).size]
  refine ⟨fun x member => ?_, ?_⟩
  · rcases mem_middle.mp member with rfl | elsewhere
    · exact ⟨by simp [hself], by simp [hself], by simp [hself]⟩
    · have hx := around.other elsewhere
      have e := hdr0 x.off hx.1
      rw [if_neg hx.2] at e
      have header : HeaderOf h0.mem x := (rep.headers x (mem_middle.mpr (Or.inr elsewhere))).same e
      have := relink_header h0 b.off hprev hx.1 header
      rwa [← eq] at this
  · rw [freeOffs_append, Linked.append_iff]
    refine ⟨b.off, hfront1, rfl, ?_⟩
    have hnext : nextOf h1.mem b.off = mid := by
      simp only [nextOf, hself]
      cases hfree : freeOffs post with
      | nil =>
        rw [hfree] at hback
        exact hback.symm
      | cons o rest =>
        rw [hfree] at hback
        exact hback.1.symm
    rw [hnext]
    refine hback.congr fun o member => ?_
    have ho := around.free_after member
    have hne : o ≠ b.off := by omega
    rw [nextOf, hlink o ho.1 fun p hp => ?_, hdr0 o ho.1, if_neg hne]
    · rfl
    · have := (around.free_before hp).2
      omega

/-! ## Absorbing a neighbour -/

theorem absorb_represents (fits : Fits extent (pre ++ a :: c :: post))
    (rep : Represents m head (pre ++ a :: c :: post)) (fa : a.used = false) (fc : c.used = false) :
    Represents (putNext (putSize m a.off (a.size + 16 + c.size)) a.off (nextOf m c.off)) head
      (pre ++ join hdrSize a c :: post) := by
  have around := fits.around
  have hsum : a.size + 16 + c.size < 4294967296 := by
    have hstop : a.stop hdrSize = c.off := (tiles_cons_middle fits.tiles).2.1.symm
    have := fits.bound (b := c) (by simp)
    have := fits.small
    simp only [Block.stop, hdrSize] at hstop
    omega
  have hdr : ∀ o, o % 16 = 0 →
      hdrAt (putNext (putSize m a.off (a.size + 16 + c.size)) a.off (nextOf m c.off)) o =
      if o = a.off then { hdrAt m o with size := a.size + 16 + c.size, nextOff := nextOf m c.off }
      else hdrAt m o := by
    intro o ho
    rw [hdrAt_putNext _ _ _ _ around.self ho, hdrAt_putSize _ _ _ _ around.self ho,
      u32_of_lt hsum, u32_of_lt (show nextOf m c.off < 4294967296 from get32_lt _ _)]
    split <;> rfl
  have hself := hdr a.off around.self
  rw [if_pos rfl] at hself
  have hfar : ∀ x ∈ pre ++ post, hdrAt (putNext (putSize m a.off (a.size + 16 + c.size)) a.off
      (nextOf m c.off)) x.off = hdrAt m x.off := by
    intro x member
    have hx := around.other (x := x) (by
      rcases List.mem_append.mp member with inPre | inPost
      · simp [inPre]
      · simp [inPost])
    rw [hdr x.off hx.1, if_neg hx.2]
  refine ⟨fun x member => ?_, ?_⟩
  · rcases mem_middle.mp member with rfl | elsewhere
    · have header := rep.headers a (by simp)
      refine ⟨?_, ?_, ?_⟩
      · simpa [join, hself, fa] using header.magic
      · simp [join, hself, hdrSize]
      · simpa [join, hself, fa] using header.used
    · refine (rep.headers x ?_).same (hfar x elsewhere)
      rcases List.mem_append.mp elsewhere with inPre | inPost
      · simp [inPre]
      · simp [inPost]
  · have chain := rep.chain
    rw [freeOffs_append, freeOffs_cons_free fa, freeOffs_cons_free fc, Linked.append_iff] at chain
    obtain ⟨mid, hfront, hmid, _, hback⟩ := chain
    rw [freeOffs_append, Linked.append_iff]
    refine ⟨mid, ?_, hmid, ?_⟩
    · exact linked_same (fun x hx => hfar x (List.mem_append_left post hx)) hfront
    · have hnext : nextOf (putNext (putSize m a.off (a.size + 16 + c.size)) a.off (nextOf m c.off))
          (join hdrSize a c).off = nextOf m c.off := by
        simp only [nextOf, join] at hself ⊢
        rw [hself]
      rw [hnext]
      exact linked_same (fun x hx => hfar x (List.mem_append_right pre hx)) hback

theorem Fits.join (h : Fits extent (pre ++ a :: c :: post)) :
    Fits extent (pre ++ join hdrSize a c :: post) := by
  refine ⟨tiles_join h.tiles, fun x member => ?_, h.small⟩
  rcases mem_middle.mp member with rfl | elsewhere
  · have ha := h.granular a (by simp)
    have hc := h.granular c (by simp)
    simp only [Tiling.join, alignment, hdrSize] at ha hc ⊢
    omega
  · refine h.granular x ?_
    rcases List.mem_append.mp elsewhere with inPre | inPost
    · simp [inPre]
    · simp [inPost]

/-! ## Merging with both neighbours -/

theorem next_putSize (m : Bytes) {o p : Nat} (ho : o % 16 = 0) (hp : p % 16 = 0) (apart : p ≠ o)
    (v : Nat) :
    (hdrAt (putSize m o v) p).nextOff = nextOf m p := by
  rw [hdrAt_putSize _ _ _ _ ho hp, if_neg apart]
  rfl

/-- The successor of a free block in the list is the first free block behind it. -/
theorem next_of_free (rep : Represents m head (pre ++ b :: post)) (free : b.used = false) :
    nextOf m b.off = (freeOffs post).headD endOfList := by
  have chain := rep.chain
  rw [freeOffs_append, freeOffs_cons_free free, Linked.append_iff] at chain
  obtain ⟨mid, _, _, hback⟩ := chain
  cases hfree : freeOffs post with
  | nil =>
    rw [hfree] at hback
    exact hback
  | cons o rest =>
    rw [hfree] at hback
    exact hback.1

/-- A free block with a used block behind it in `pre` does not reach up to `b`. -/
theorem prev_apart (fits : Fits extent (pre ++ b :: post))
    (left : ∀ a ∈ pre.getLast?, a.used = true) {x : Block} (member : x ∈ pre)
    (free : x.used = false) :
    x.off + 16 + x.size ≠ b.off := by
  rcases List.eq_nil_or_concat' pre with rfl | ⟨init, y, rfl⟩
  · simp at member
  · have hy : y.used = true := left y (by simp)
    have hx : x ∈ init := by
      rcases List.mem_append.mp member with hx | hx
      · exact hx
      · rw [List.mem_singleton.mp hx, hy] at free
        cases free
    have hstop := fits.tiles.before (a := y) (by simp)
    have htiles : Tiles hdrSize 0 (init ++ y :: b :: post) extent := by simpa using fits.tiles
    have hbefore := htiles.before hx
    simp only [Block.stop, hdrSize] at hstop hbefore
    omega

variable (abi : Abi)

theorem mergeLeft_spec (fits : Fits extent (pre ++ b :: post))
    (rep : Represents m head (pre ++ b :: post)) (free : b.used = false) (merged : Bytes × Nat)
    (eq : merged = if (freeOffs pre).getLastD endOfList =
      endOfList then (m, b.off) else mergeLeft abi m ((freeOffs pre).getLastD endOfList) b.off) :
    merged.2 = (joinLeft hdrSize pre b).2.off ∧
      Represents merged.1 head ((joinLeft hdrSize pre b).1 ++ (joinLeft hdrSize pre b).2 :: post) ∧
      Fits extent ((joinLeft hdrSize pre b).1 ++ (joinLeft hdrSize pre b).2 :: post) := by
  have around := fits.around
  have hsmall := fits.small
  rcases joinLeft_cases hdrSize pre b with ⟨hjoin, left⟩ | ⟨init, a, rfl, fa, hjoin⟩
  · -- the last block before `b` is in use: nothing to absorb
    rw [hjoin]
    suffices hsame : merged = (m, b.off) by
      rw [hsame]
      exact ⟨rfl, rep, fits⟩
    rw [eq]
    split
    · rfl
    next hne =>
      obtain ⟨x, hx, fx, hoff⟩ := mem_freeOffs.mp (getLastD_mem hne)
      have hstop := fits.bound (b := x) (by simp [hx])
      have hapart := prev_apart fits left hx fx
      have hsize := (rep.headers x (by simp [hx])).size
      simp only [mergeLeft, ← hoff, hsize, hdrSize]
      rw [sizeT_of_lt abi (by omega), if_neg hapart]
  · have fits' : Fits extent (init ++ a :: b :: post) := by simpa using fits
    have rep' : Represents m head (init ++ a :: b :: post) := by simpa using rep
    have hlast : (freeOffs (init ++ [a])).getLastD endOfList = a.off := by
      have hsingle : freeOffs [a] = [a.off] := freeOffs_cons_free fa
      rw [freeOffs_append, hsingle]
      simp
    have hne : a.off ≠ endOfList := fits'.off_ne_end (by simp)
    have htouch : a.off + 16 + a.size = b.off := (tiles_cons_middle fits'.tiles).2.1.symm
    have hbound := fits.bound (b := b) (by simp)
    have hsa := (rep'.headers a (by simp)).size
    have hsb := (rep'.headers b (by simp)).size
    have hab : a.off ≠ b.off := by omega
    have haa : a.off % 16 = 0 := fits'.aligned (by simp)
    rw [hjoin]
    refine ⟨?_, ?_, fits'.join⟩
    · rw [eq, hlast, if_neg hne]
      simp only [mergeLeft, hsa, hdrSize]
      rw [sizeT_of_lt abi (by omega), if_pos htouch]
      rfl
    · rw [eq, hlast, if_neg hne]
      simp only [mergeLeft, hsa, hsb, hdrSize]
      rw [sizeT_of_lt abi (by omega), if_pos htouch]
      rw [next_putSize m haa around.self hab.symm, u32_of_lt (by omega)]
      exact absorb_represents fits' rep' fa free

theorem mergeRight_spec (fits : Fits extent (pre ++ b :: post))
    (rep : Represents m head (pre ++ b :: post)) (free : b.used = false) :
    Represents (mergeRight abi m b.off) head (pre ++ joinRight hdrSize b post) := by
  have around := fits.around
  have hsmall := fits.small
  have hbound := fits.bound (b := b) (by simp)
  have hsb := (rep.headers b (by simp)).size
  have hnext := next_of_free rep free
  have hreach : abi.sizeT (b.off + hdrSize + (hdrAt m b.off).size) = b.off + 16 + b.size := by
    rw [hsb]
    exact sizeT_of_lt abi (by simp only [hdrSize]; omega)
  rcases joinRight_cases hdrSize b post with ⟨hjoin, right⟩ | ⟨c, rest, rfl, fc, hjoin⟩
  · -- the block behind `b` is in use: the next free one lies further on
    rw [hjoin]
    suffices hsame : mergeRight abi m b.off = m by
      rw [hsame]
      exact rep
    have hapart : ¬ (b.off + 16 + b.size = nextOf m b.off ∧ nextOf m b.off ≠ endOfList) := by
      rintro ⟨htouch, hne⟩
      cases post with
      | nil => exact hne hnext
      | cons c rest =>
        have hc : c.used = true := right c (by simp)
        have hfree : freeOffs (c :: rest) = freeOffs rest := freeOffs_cons_used hc
        cases hrest : freeOffs rest with
        | nil =>
          rw [hfree, hrest] at hnext
          exact hne hnext
        | cons o others =>
          obtain ⟨x, hx, _, hoff⟩ := mem_freeOffs.mp (show o ∈ freeOffs rest by simp [hrest])
          have hcoff : c.off = b.off + 16 + b.size := (tiles_cons_middle fits.tiles).2.1
          have hxoff := ((tiles_cons_middle fits.tiles).2.2.bounds hx).1
          rw [hfree, hrest] at hnext
          simp only [List.headD_cons] at hnext
          simp only [Block.stop, hdrSize] at hxoff
          omega
    simp only [mergeRight]
    rw [hreach]
    exact if_neg hapart
  · have hcoff : c.off = b.off + 16 + b.size := (tiles_cons_middle fits.tiles).2.1
    have hne : c.off ≠ endOfList := fits.off_ne_end (by simp)
    have hcb := fits.bound (b := c) (by simp)
    have hca : c.off % 16 = 0 := fits.aligned (by simp)
    rw [freeOffs_cons_free fc] at hnext
    have hnext' : (hdrAt m b.off).nextOff = c.off := hnext
    have header := rep.headers c (by simp)
    have hmagic : (hdrAt m c.off).magic = magicFree := by simpa [fc] using header.magic
    have hused : (hdrAt m c.off).used = 0 := by simpa [fc] using header.used
    have hcond : b.off + 16 + b.size = c.off ∧ c.off ≠ endOfList := ⟨hcoff.symm, hne⟩
    rw [hjoin]
    simp only [mergeRight]
    rw [hreach, hnext', if_pos hcond, if_pos ⟨hmagic, hused⟩, hsb, header.size]
    rw [next_putSize m around.self hca (by omega), u32_of_lt (by simp only [hdrSize]; omega)]
    exact absorb_represents fits rep free fc

theorem relink_frame (h : Heap) (prevOff off : Nat) :
    (relink h prevOff off).hbase = h.hbase ∧ (relink h prevOff off).hsize = h.hsize ∧
      (relink h prevOff off).st = h.st ∧ (relink h prevOff off).guard = h.guard := by
  unfold relink
  split <;> exact ⟨rfl, rfl, rfl, rfl⟩

theorem insertWalk_around (fits : Fits extent (pre ++ b :: post))
    (chain : Linked (nextOf m) head (freeOffs pre ++ freeOffs post) endOfList) :
    insertWalk m b.off walkFuel endOfList head =
      some ((freeOffs pre).getLastD endOfList, (freeOffs post).headD endOfList) := by
  have around := fits.around
  refine insertWalk_spec m b.off _ _ _ _ _ chain (fun o member => ?_)
    (fun o member => (around.free_before member).2) (fun o member => ?_) ?_
  · have := (around.free_before member).2
    have := around.self_lt
    simp only [endOfList]
    omega
  · have := (around.free_after member).2.1
    omega
  · have hlen := fits.free_length
    rw [freeOffs_append, List.length_append] at hlen
    omega

theorem insertFree_spec (h : Heap) (fits : Fits extent (pre ++ b :: post))
    (rep : Represents m head (pre ++ b :: post)) (used : b.used = true)
    (hmem : h.mem = putUsed (putMagic m b.off magicFree) b.off 0) (hhead : h.freeHead = head)
    (h' : Heap)
    (eq : h' = insertFree abi h b.off ((freeOffs pre).getLastD endOfList)
      ((freeOffs post).headD endOfList)) :
    h'.hbase = h.hbase ∧ h'.hsize = h.hsize ∧ h'.st = h.st ∧ h'.guard = h.guard ∧
      Represents h'.mem h'.freeHead (release hdrSize pre b post) := by
  have hframe := relink_frame
    { h with mem := putNext h.mem b.off ((freeOffs post).headD endOfList) }
    ((freeOffs pre).getLastD endOfList) b.off
  have enlisted := enlist_represents fits rep used
    { h with mem := putNext h.mem b.off ((freeOffs post).headD endOfList) } _
    (by simp only [hmem]) hhead rfl
  have fits' : Fits extent (pre ++ { b with used := false } :: post) := by
    refine ⟨?_, fun x member => ?_, fits.small⟩
    · obtain ⟨hpre, hpost⟩ := tiles_cons_middle fits.tiles
      exact tiles_append.mpr ⟨b.off, hpre, rfl, hpost⟩
    · rcases mem_middle.mp member with rfl | elsewhere
      · exact fits.granular b (by simp)
      · exact fits.granular x (mem_middle.mpr (Or.inr elsewhere))
  obtain ⟨hoff, hleft, hfits⟩ := mergeLeft_spec abi fits' enlisted rfl _ rfl
  have hright := mergeRight_spec abi hfits hleft (by
    rcases joinLeft_cases hdrSize pre { b with used := false } with ⟨hjoin, _⟩ | ⟨_, a, _, _, hjoin⟩
    · rw [hjoin]
    · rw [hjoin]
      rfl)
  rw [← hoff] at hright
  subst eq
  exact ⟨hframe.1, hframe.2.1, hframe.2.2.1, hframe.2.2.2, hright⟩

theorem insertFree_octet (h : Heap) {off prevOff walk i : Nat} (here : i < off ∨ off + 16 ≤ i)
    (prev : prevOff ≠ endOfList → i < prevOff ∨ prevOff + 16 ≤ i) :
    (insertFree abi h off prevOff walk).mem i = h.mem i := by
  have merged : ∀ (m : Bytes) (o : Nat), (i < o ∨ o + 16 ≤ i) → mergeRight abi m o i = m i := by
    intro m o outside
    unfold mergeRight
    simp only [putNext, putSize]
    split
    · split
      · rw [put32_field _ (by omega) outside, put32_field _ (by omega) outside]
      · rfl
    · rfl
  have linked : (relink { h with mem := putNext h.mem off walk } prevOff off).mem i = h.mem i := by
    rw [relink_octet _ _ fun going => by have := prev going; omega]
    exact put32_field h.mem (by omega) here
  unfold insertFree
  simp only
  by_cases first : prevOff = endOfList
  · rw [if_pos first, merged _ _ here]
    exact linked
  · rw [if_neg first]
    have before := prev first
    unfold mergeLeft
    split
    · rw [merged _ _ before]
      simp only [putNext, putSize]
      rw [put32_field _ (by omega) before, put32_field _ (by omega) before]
      exact linked
    · rw [merged _ _ here]
      exact linked

end Obsidian.Mm.HeapC
