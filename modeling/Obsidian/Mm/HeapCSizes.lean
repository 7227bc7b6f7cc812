import Obsidian.Mm.HeapCCalls

/-!
# Requests near 2^32

`kmalloc` rounds a size up in 32 bits and adds the header to it in `size_t`. Up to
`Abi.maxRequest` neither sum wraps and a request is served as asked or refused. Above it
the rounded size is 0, or (with a 32-bit `size_t`) the header makes it 0, and the first
free block serves the request whatever its size.
-/
namespace Obsidian.Mm.HeapC
open Lib Lib.Bytes Lib.Tiling

variable {bs pre post : List Block} {b : Block} {base size : Nat} {s : Sys}

/-! ## What the header of the block taken records -/

variable {n need o off p : Nat} {result : Option (Nat × Heap)} {h : Heap} (abi : Abi)

theorem takeBlock_recorded (h : Heap) {prevOff : Nat}
    (hprev : prevOff ≠ endOfList → prevOff % 16 = 0) (hoff : off % 16 = 0) :
    (hdrAt (takeBlock abi h need prevOff off).2.mem off).size =
    (hdrAt (splitBlock abi h.mem need off) off).size := by
  simp only [takeBlock]
  rw [hdrAt_putMagic _ _ _ _ hoff hoff, if_pos rfl, hdrAt_putUsed _ _ _ _ hoff hoff, if_pos rfl]
  rw [relink_hdr _ _ _ _ hprev hoff]
  split
  · rfl
  · rfl

theorem takeBlock_size (h : Heap) (fits : Fits h.hsize (pre ++ b :: post))
    (rep : Represents h.mem h.freeHead (pre ++ b :: post)) (hneed : need % 16 = 0)
    (hbound : need + 32 < 4294967296) :
    (hdrAt (takeBlock abi h need ((freeOffs pre).getLastD endOfList) b.off).2.mem b.off).size =
      if need + 32 ≤ b.size then need else b.size := by
  have around := fits.around
  have hsize := (rep.headers b (by simp)).size
  have hstop := fits.bound (b := b) (by simp)
  have hsmall := fits.small
  rw [takeBlock_recorded abi h (fun going => (around.prev going).1) around.self]
  split
  next room => rw [splitBlock_hdr abi h.mem around.self hneed hsize room (by omega) _ around.self,
    if_pos rfl]
  next tight => rw [splitBlock_whole abi h.mem hsize (by omega) hbound, hsize]

/-! ## Answers -/

def OnFreeList (h : Heap) (o : Nat) : Prop :=
  ∃ fl, Linked (nextOf h.mem) h.freeHead fl endOfList ∧ o ∈ fl

/-- The pointer `p` given for a request of `n` octets: a block inside the region that records
at least `n` octets, cut from the free block at `o`. Outside that free block only the link of
the free block before it is written. -/
structure Granted (h h' : Heap) (n p o : Nat) : Prop where
  place : p = h.hbase + o + 16
  chosen : OnFreeList h o
  inside : o + 16 + (hdrAt h'.mem o).size ≤ h.hsize
  large : n ≤ (hdrAt h'.mem o).size
  carved : (hdrAt h'.mem o).size ≤ (hdrAt h.mem o).size
  written : ∀ i, h'.mem i ≠ h.mem i → (o ≤ i ∧ i < o + 16 + (hdrAt h.mem o).size) ∨
    ∃ q, OnFreeList h q ∧ nextOf h.mem q = o ∧ q + 8 ≤ i ∧ i < q + 12

/-- The call returns NULL or a block as asked for. -/
def Answers (h : Heap) (n : Nat) (result : Option (Nat × Heap)) : Prop :=
  ∃ p h', result = some (p, h') ∧ (p = 0 ∨ ∃ o, Granted h h' n p o)

variable {h h' : Heap} {n : Nat}

theorem answers_null (eq : result = some (0, h')) : Answers h n result := ⟨0, h', eq, Or.inl rfl⟩

theorem prev_links (rep : Represents h.mem h.freeHead (pre ++ b :: post)) (free : b.used = false)
    (going : (freeOffs pre).getLastD endOfList ≠ endOfList) :
    OnFreeList h ((freeOffs pre).getLastD endOfList) ∧ nextOf h.mem
    ((freeOffs pre).getLastD endOfList) = b.off := by
  have member := getLastD_mem going
  refine ⟨⟨_, rep.chain, by rw [freeOffs_append]; exact List.mem_append_left _ member⟩, ?_⟩
  have chain := rep.chain
  rw [freeOffs_append, freeOffs_cons_free free] at chain
  rcases List.eq_nil_or_concat' (freeOffs pre) with hnil | ⟨init, q, hlast⟩
  · rw [hnil] at going
    exact absurd rfl going
  · rw [hlast] at chain ⊢
    obtain ⟨_, hfront, hmid, _⟩ := Linked.append_iff.mp chain
    have hq := (Linked.concat_iff.mp hfront).2
    rw [show (init ++ [q]).getLastD endOfList = q by simp]
    exact hq.trans hmid

theorem kmalloc_answers (fits : Fits h.hsize bs) (rep : Represents h.mem h.freeHead bs)
    (serves : h.Serves abi n) :
    Answers h n (kmalloc abi h n) := by
  rcases kmalloc_cases abi h fits rep serves with (hfail | hfail) |
    ⟨pre, b, post, rfl, free, hpos, hmax, hfit, hok⟩
  · exact answers_null hfail
  · exact answers_null hfail
  obtain ⟨hal, _, hge, _⟩ := alignUp_facts hpos hmax
  have hstop := fits.bound (b := b) (by simp)
  have hsmall := fits.small
  have hsize := (rep.headers b (by simp)).size
  have recorded := takeBlock_size abi h fits rep hal (by omega)
  obtain ⟨hp, _⟩ := takeBlock_spec abi h fits rep free hal (by omega) _ rfl
  have frame : ∀ i, (i < b.off ∨ b.off + 16 + b.size ≤ i) →
      ((freeOffs pre).getLastD endOfList ≠ endOfList →
        i < (freeOffs pre).getLastD endOfList + 8 ∨ (freeOffs pre).getLastD endOfList + 12 ≤ i) →
      (takeBlock abi h (alignUp n) ((freeOffs pre).getLastD endOfList) b.off).2.mem i = h.mem i :=
    fun i => takeBlock_frame abi h hsize (by omega) (by omega)
  generalize takeBlock abi h (alignUp n) ((freeOffs pre).getLastD endOfList) b.off = taken at *
  refine ⟨taken.1, taken.2, hok, Or.inr ⟨b.off, hp, ⟨_, rep.chain, ?_⟩, ?_, ?_, ?_, fun i changed =>
    ?_⟩⟩
  · exact mem_freeOffs.mpr ⟨b, by simp, free, rfl⟩
  · rw [recorded]
    split <;> omega
  · rw [recorded]
    split <;> omega
  · rw [recorded]
    split <;> omega
  · by_contra elsewhere
    refine changed (frame i ?_ fun going => ?_)
    · omega
    · obtain ⟨listed, links⟩ := prev_links rep free going
      by_contra here
      exact elsewhere (Or.inr ⟨_, listed, links, by omega, by omega⟩)

theorem Granted.zeroed (granted : Granted h h' n p o) (hb : h'.hbase = h.hbase) :
    Granted h { h' with mem := fill h'.mem (p - h'.hbase) n 0 } n p o := by
  have hpay : p - h'.hbase = o + 16 := by
    rw [granted.place]
    omega
  have header : hdrAt (fill h'.mem (o + 16) n 0) o = hdrAt h'.mem o :=
    hdrAt_congr fun i _ hi => fill_outside _ _ (by omega)
  have hlarge := granted.large
  have hcarved := granted.carved
  rw [hpay]
  refine ⟨granted.place, granted.chosen, ?_, ?_, ?_, fun i changed => ?_⟩
  · rw [header]
    exact granted.inside
  · rw [header]
    exact hlarge
  · rw [header]
    exact hcarved
  · by_cases filled : o + 16 ≤ i ∧ i < o + 16 + n
    · exact Or.inl (by omega)
    · apply granted.written
      intro same
      exact changed ((fill_outside h'.mem 0 (by omega)).trans same)

theorem kmalloc_hbase (hok : kmalloc abi h n = some (p, h')) : h'.hbase = h.hbase := by
  unfold kmalloc at hok
  split at hok
  · cases hok
    rfl
  · simp only at hok
    split at hok
    · cases hok
    · cases hok
      rfl
    · cases hok
      exact (relink_frame _ _ _).1

theorem kzalloc_answers (answers : Answers h n (kmalloc abi h n)) :
    Answers h n (kzalloc abi h n) := by
  obtain ⟨p, h', hok, granted⟩ := answers
  by_cases null : p = 0
  · subst null
    exact answers_null (by simp only [kzalloc, hok, if_true]; rfl)
  · obtain ⟨o, granted⟩ := granted.resolve_left null
    refine ⟨p, _, ?_, Or.inr ⟨o, granted.zeroed (kmalloc_hbase abi hok)⟩⟩
    simp only [kzalloc, hok, if_neg null]

/-! ## Requests that wrap -/

theorem alignUp_wraps (large : 4294967280 < n) (hlt : n < 4294967296) : alignUp n = 0 := by
  have hsum : u32 (n + alignment - 1) = n - 4294967281 := by
    simp only [u32, alignment]
    omega
  rw [alignUp, land_mask16 _ (by omega)]
  omega

/-- The split of a request for 2^32 - 16 octets on the 32-bit build: the remainder starts at the
block itself, whose header then records 2^32 - 16 octets. -/
theorem splitBlock_wraps (m : Bytes) (hoff : off % 16 = 0) (hlt : off < 2147483648)
    (hmin : 16 ≤ (hdrAt m off).size) :
    (hdrAt (splitBlock .ilp32 m 4294967280 off) off).size = 4294967280 := by
  have hbig : Abi.ilp32.sizeT (4294967280 + hdrSize + alignment) ≤ (hdrAt m off).size := hmin
  have hnew : u32 (off + hdrSize + 4294967280) = off := by
    simp only [u32, hdrSize]
    omega
  simp only [splitBlock, if_pos hbig, hnew]
  rw [hdrAt_putNext _ _ _ _ hoff hoff, if_pos rfl, hdrAt_putSize _ _ _ _ hoff hoff, if_pos rfl]
  rfl

/-- The first free block is taken when the test `cur->size >= need + HDR_SIZE` accepts sixteen
octets. -/
theorem kmalloc_first (layout : Layout hdrSize alignment h.hsize bs)
    (rep : Represents h.mem h.freeHead bs) (hgo : ¬ (n = 0 ∨ h.hbase = 0))
    (going : h.freeHead ≠ endOfList) (accepts : abi.sizeT (alignUp n + 16) ≤ 16) :
    ∃ pre b post, bs = pre ++ b :: post ∧ freeOffs pre = [] ∧ 16 ≤ b.size ∧
      kmalloc abi h n = some (takeBlock abi h (alignUp n) endOfList b.off) := by
  have chain := rep.chain
  cases hfree : freeOffs bs with
  | nil =>
    rw [hfree] at chain
    exact absurd chain going
  | cons o rest =>
    obtain ⟨pre, b, post, rfl, free, rfl, hpre, _⟩ :=
      split_at_free (show freeOffs bs = [] ++ o :: rest from hfree)
    have hsize := (rep.headers b (by simp)).size
    have hmin := (layout.sized b (by simp)).2
    refine ⟨pre, b, post, rfl, hpre, hmin, ?_⟩
    rw [hfree] at chain
    have hfound : firstFit abi h.mem (alignUp n) walkFuel endOfList h.freeHead =
        some (some (endOfList, b.off)) := by
      rw [show walkFuel = 4294967295 + 1 from rfl, firstFit, if_neg going, chain.1, hsize]
      exact if_pos (accepts.trans hmin)
    simp only [kmalloc, if_neg hgo, hfound]

/-- A request above the limit is served from the first free block: the block handed out records
less than was asked for, or more than the region holds. -/
theorem kmalloc_wraps (layout : Layout hdrSize alignment h.hsize bs) (small : h.hsize < 2147483648)
    (rep : Represents h.mem h.freeHead bs) (hgo : ¬ (n = 0 ∨ h.hbase = 0))
    (going : h.freeHead ≠ endOfList) (large : abi.maxRequest < n) (hlt : n < 4294967296) :
    ∃ o h', kmalloc abi h n = some (h.hbase + o + 16, h') ∧
      ((hdrAt h'.mem o).size < n ∨ h.hsize < o + 16 + (hdrAt h'.mem o).size) := by
  have fits : Fits h.hsize bs := .of_layout layout small
  have hptr : ∀ need off, (takeBlock abi h need endOfList off).1 = h.hbase + off + 16 := by
    intro need off
    rfl
  by_cases wraps : 4294967280 < n
  · -- the rounded size is 0
    have hneed := alignUp_wraps wraps hlt
    have accepts : abi.sizeT (alignUp n + 16) ≤ 16 := by
      rw [hneed]
      exact Nat.le_of_eq (sizeT_of_lt abi (by decide))
    obtain ⟨pre, b, post, rfl, hpre, hmin, hok⟩ := kmalloc_first abi layout rep hgo going accepts
    have recorded := takeBlock_size abi h fits rep (show 0 % 16 = 0 from rfl) (by decide)
    have hlast : (freeOffs pre).getLastD endOfList = endOfList := by
      rw [hpre]
      rfl
    rw [hlast] at recorded
    refine ⟨b.off, _, by rw [hok, ← hptr], Or.inl ?_⟩
    rw [hneed, recorded]
    split <;> omega
  · -- the rounded size and the header together are 0
    cases abi with
    | lp64 =>
      simp only [Abi.maxRequest] at large
      omega
    | ilp32 =>
      simp only [Abi.maxRequest] at large
      have hneed : alignUp n = 4294967280 := by
        rw [alignUp_eq (by omega)]
        omega
      have accepts : Abi.ilp32.sizeT (alignUp n + 16) ≤ 16 := by
        rw [hneed]
        decide
      obtain ⟨pre, b, post, rfl, hpre, hmin, hok⟩ :=
        kmalloc_first .ilp32 layout rep hgo going accepts
      have around := fits.around
      have hsize := (rep.headers b (by simp)).size
      refine ⟨b.off, _, by rw [hok, ← hptr], Or.inr ?_⟩
      rw [hneed, takeBlock_recorded .ilp32 h (fun going => absurd rfl going) around.self,
        splitBlock_wraps h.mem around.self around.self_lt (by omega)]
      omega

theorem not_granted (bad : (hdrAt h'.mem o).size < n ∨ h.hsize < o + 16 + (hdrAt h'.mem o).size)
    (p : Nat) :
    ¬ Granted h h' n (h.hbase + o + 16) p := by
  intro granted
  have hplace := granted.place
  obtain rfl : p = o := by omega
  have hinside := granted.inside
  have hlarge := granted.large
  omega

theorem not_answers (eq : result = some (h.hbase + o + 16, h'))
    (bad : (hdrAt h'.mem o).size < n ∨ h.hsize < o + 16 + (hdrAt h'.mem o).size) :
    ¬ Answers h n result := by
  rintro ⟨p, h'', same, answer⟩
  rw [eq] at same
  cases same
  rcases answer with null | ⟨o', granted⟩
  · omega
  · exact not_granted bad o' granted

/-- In every state reached by calls whose requests do not wrap, and for every 32-bit size: both
allocation functions return NULL or a block of the region as large as asked for, with no
header written outside the free block chosen, if and only if the request does not wrap either
or there is no free block at all. -/
theorem allocation_answers_iff (abi : Abi) (h : Heap) (base size : Nat) (hmin : 32 ≤ alignUp size)
    (hmax : alignUp size < 2147483648) (calls : List Call) (s : Sys)
    (run : Run (Sys.call abi) (Sys.Safe abi) (boot h base size) calls s) (n : Nat) (hpos : 0 < n)
    (hlt : n < 4294967296) :
    (Answers s.heap n (kmalloc abi s.heap n) ∧ Answers s.heap n (kzalloc abi s.heap n)) ↔
    s.heap.Serves abi n := by
  obtain ⟨bs, inv⟩ := safe_calls_inv abi run (boot_rounded h base hmin hmax)
  have layout : Layout hdrSize alignment s.heap.hsize bs := inv.hsize ▸ inv.layout
  have small : s.heap.hsize < 2147483648 := inv.hsize ▸ inv.small
  constructor
  · intro answers
    by_contra wraps
    simp only [Heap.Serves, not_or] at wraps
    obtain ⟨large, hbase, going⟩ := wraps
    obtain ⟨o, h', hok, bad⟩ := kmalloc_wraps abi layout small inv.rep (by omega) going
      (by omega) hlt
    exact not_answers hok bad answers.1
  · intro serves
    have answers := kmalloc_answers abi (.of_layout layout small) inv.rep serves
    exact ⟨answers, kzalloc_answers abi answers⟩

/-- After one allocation a request of 2^31 octets is within the limit, so both calls answer it. -/
theorem allocation_answers_iff_sample :
    ∃ s, Run (Sys.call .ilp32) (Sys.Safe .ilp32) (boot sampleHeap 0x100000 4096) [.kmalloc 100] s ∧
      Answers s.heap 2147483648 (kmalloc .ilp32 s.heap 2147483648) ∧
      Answers s.heap 2147483648 (kzalloc .ilp32 s.heap 2147483648) := by
  obtain ⟨s, run⟩ : ∃ s, Run (Sys.call .ilp32) (Sys.Safe .ilp32) (boot sampleHeap 0x100000 4096)
      [.kmalloc 100] s :=
    Run.exists_of_exec (by decide)
  exact ⟨s, run, (allocation_answers_iff .ilp32 sampleHeap 0x100000 4096 (by decide)
    (by decide) _ s run
    2147483648 (by decide) (by decide)).mpr (s.heap.serves_small .ilp32 (Nat.le_refl _))⟩

/-- `kmalloc(0xFFFFFFFF)` on a fresh heap of four KiB returns a block that records no octet at
all, on both builds; `kmalloc(0xFFFFFFF0)` on the 32-bit build returns one that records more
octets than the region has. -/
theorem wrapped_requests_granted :
    ((∀ abi, ((kmalloc abi (boot sampleHeap 0x100000 4096).heap 0xFFFFFFFF).map fun r =>
        (r.1, payloadSize r.2 r.1)) = some (0x100010, 0)) ∧
      ((kmalloc .ilp32 (boot sampleHeap 0x100000 4096).heap 0xFFFFFFF0).map fun r =>
        (r.1, payloadSize r.2 r.1)) = some (0x100010, 0xFFFFFFF0)) ∧
    ∀ abi, ¬ Answers (boot sampleHeap 0x100000 4096).heap 0xFFFFFFFF
      (kmalloc abi (boot sampleHeap 0x100000 4096).heap 0xFFFFFFFF) := by
  refine ⟨⟨fun abi => ?_, by decide⟩, fun abi => ?_⟩
  · cases abi with
    | ilp32 => decide
    | lp64 => decide
  · have inv := boot_rounded sampleHeap 0x100000 (show 32 ≤ alignUp 4096 by decide) (by decide)
    have limit := abi.maxRequest_bounds
    obtain ⟨o, h', hok, bad⟩ := kmalloc_wraps abi inv.layout (by decide) inv.rep
      (by decide) (by decide)
      (show abi.maxRequest < 0xFFFFFFFF by omega) (by decide)
    exact not_answers hok bad

end Obsidian.Mm.HeapC
