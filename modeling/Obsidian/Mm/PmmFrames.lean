import Obsidian.Mm.Pmm
import Mathlib.Order.Bounds.Defs
import Mathlib.Data.Finset.Card
import Mathlib.Data.Finset.Range

/-!
# Which frames are handed out

The bitmap shows a set of frames: those that some available entry of the memory map frees
and no reservation covers, without the allocated ones. A search from frame 0 up to the
highest frame ever freed therefore misses none of them, and what is handed out is apart from
every reservation. What an entry frees starts with the frame of its base, also when the base
lies inside that frame.
-/
namespace Obsidian.Mm.Pmm
open Lib Lib.Bytes

/-! ## Entries -/

/-- The available entries of a memory-map tag from `e` up to `stop`: base and length. -/
def entriesFrom (m : Bytes) (entrySize stop : Nat) : Nat → Nat → List (Nat × Nat)
  | 0, _ => []
  | fuel + 1, e =>
    if e < stop then
      (if get32 m (e + 16) = mmapAvailable then [(get64 m e, get64 m (e + 8))] else []) ++
        entriesFrom m entrySize stop fuel (u64 (e + entrySize))
    else []

def availableFrom (m : Bytes) : Nat → Nat → List (Nat × Nat)
  | 0, _ => []
  | fuel + 1, tag =>
    if tagType m tag = tagEnd then []
    else (if tagType m tag = tagMmap then
        entriesFrom m (entrySize m tag) (tag + tagSize m tag) walkFuel (tag + 16) else []) ++
      availableFrom m fuel (nextTag m tag)

/-- The available entries of the memory maps that `pmm_init` walks. -/
def available (m : Bytes) (mbi : Nat) : List (Nat × Nat) := availableFrom m walkFuel (mbi + 8)

/-- What an available entry frees. -/
def Freed (entry : Nat × Nat) (f : Nat) : Prop :=
  entry.1 / frameSize ≤ f ∧ f < min (u64 (entry.1 + entry.2) / frameSize) maxFrames

/-- Some entry frees the frame and no reservation covers it. -/
def Free (entries ranges : List (Nat × Nat)) (f : Nat) : Prop :=
  (∃ e ∈ entries, Freed e f) ∧ ∀ r ∈ ranges, ¬ Covers r f

/-! ## What the bitmap shows -/

/-- The clear bits are those of a set of frames, which the search covers. -/
structure Shows (F : Nat → Prop) (p : FrameMap) : Prop where
  clear : ∀ f, bitmapTest p.bitmap f = false ↔ F f
  high : ∀ f, F f → f ≤ p.highestFrame
  highest : p.highestFrame < maxFrames

variable {F G : Nat → Prop} {p : FrameMap} {entries ranges : List (Nat × Nat)}

theorem Shows.congr (shows : Shows F p) (same : ∀ f, F f ↔ G f) : Shows G p where
  clear f := (shows.clear f).trans (same f)
  high f hf := shows.high f ((same f).mpr hf)
  highest := shows.highest

variable {f fuel g : Nat} {m : Bytes} {final st : FrameMap × Nat}

theorem Shows.freeFrame (shows : Shows F p) (hg : g < maxFrames) :
    Shows (fun f => F f ∨ f = g) (freeFrame p g) where
  clear f := by
    rw [Pmm.freeFrame, bitmapTest_clear]
    by_cases same : f = g
    · simp [same]
    · simp [same, shows.clear f]
  high f hf := by
    simp only [Pmm.freeFrame]
    rcases hf with old | rfl
    · have := shows.high f old
      omega
    · omega
  highest := by
    have := shows.highest
    simp only [Pmm.freeFrame]
    omega

theorem Shows.freeFrames (fs : List Nat) (shows : Shows F p) (low : ∀ f ∈ fs, f < maxFrames) :
    Shows (fun f => F f ∨ f ∈ fs) (fs.foldl Pmm.freeFrame p) := by
  induction fs generalizing F p with
  | nil => exact shows.congr fun f => by simp
  | cons g rest ih =>
    have next := ih (shows.freeFrame (low g (by simp))) fun f member => low f (by simp [member])
    exact next.congr fun f => by rw [List.mem_cons, or_assoc]

theorem Shows.freeRange (shows : Shows F p) (entry : Nat × Nat) :
    Shows (fun f => F f ∨ Freed entry f) (freeRange p entry.1 (u64 (entry.1 + entry.2))) := by
  have freed := shows.freeFrames
    (frames (entry.1 / frameSize) (min (u64 (entry.1 + entry.2) / frameSize) maxFrames))
    fun f member => Nat.lt_of_lt_of_le (mem_frames.mp member).2 (Nat.min_le_right _ _)
  exact freed.congr fun f => by rw [mem_frames, Freed]

theorem Shows.reserve (shows : Shows F p) {range : Nat × Nat}
    (hend : range.2 < 9223372036854775808) :
    Shows (fun f => F f ∧ ¬ Covers range f) (reserveRange p range.1 range.2) where
  clear f := by
    have hround : u64 (range.2 + frameSize - 1) = range.2 + 4095 :=
      u64_of_lt (by simp only [frameSize]; omega)
    rw [reserveRange, bitmapTest_setAll, Bool.or_eq_false_iff, shows.clear f,
      decide_eq_false_iff_not, mem_frames, hround,
      and_comm]
    refine and_congr_right fun hf => not_congr ?_
    have below := shows.high f hf
    have ceiling := shows.highest
    simp only [Covers, frameSize]
    omega
  high f hf := shows.high f hf.1
  highest := shows.highest

/-! ## Start -/

theorem walkEntries_shows {size stop e : Nat}
    (walked : walkEntries m size stop fuel e st = some final)
    (shows : Shows F st.1) :
    Shows (fun f => F f ∨ ∃ r ∈ entriesFrom m size stop fuel e, Freed r f) final.1 := by
  induction fuel generalizing e st F with
  | zero => cases walked
  | succ fuel ih =>
    simp only [walkEntries] at walked
    rw [entriesFrom]
    split at walked
    next more =>
      rw [if_pos more]
      split at walked
      next usable' =>
        rw [if_pos usable']
        refine (ih walked (shows.freeRange (get64 m e, get64 m (e + 8)))).congr fun f => ?_
        simp [or_assoc]
      next other =>
        rw [if_neg other]
        exact ih walked shows
    next done =>
      cases walked
      rw [if_neg done]
      exact shows.congr fun f => by simp

theorem walkTags_shows {tag : Nat} (walked : walkTags m fuel tag st = some final)
    (shows : Shows F st.1) :
    Shows (fun f => F f ∨ ∃ r ∈ availableFrom m fuel tag, Freed r f) final.1 := by
  induction fuel generalizing tag st F with
  | zero => cases walked
  | succ fuel ih =>
    simp only [walkTags] at walked
    rw [availableFrom]
    split at walked
    next done =>
      cases walked
      rw [if_pos done]
      exact shows.congr fun f => by simp
    next going =>
      rw [if_neg going]
      split at walked
      next map =>
        rw [if_pos map]
        split at walked
        next mid entries =>
          refine (ih walked (walkEntries_shows entries shows)).congr fun f => ?_
          simp only [List.mem_append, or_and_right, exists_or, or_assoc]
        · cases walked
      next other =>
        rw [if_neg other]
        exact ih walked shows

theorem shows_none {highest : Nat} (ceiling : highest < maxFrames) :
    Shows (fun _ => False) ⟨fun _ => 0xFFFFFFFFFFFFFFFF, highest⟩ where
  clear f := by
    have set : bitmapTest (fun _ => 0xFFFFFFFFFFFFFFFF) f = true := by
      rw [bitmapTest_eq, show (0xFFFFFFFFFFFFFFFF : Nat) = 2 ^ 64 - 1 from rfl,
        Nat.testBit_two_pow_sub_one]
      exact decide_eq_true (Nat.mod_lt _ (by decide))
    simp [set]
  high f h := h.elim
  highest := ceiling

theorem Shows.cover (shows : Shows (Free entries ranges) p) (range : Nat × Nat)
    (hend : range.2 < 9223372036854775808) :
    Shows (Free entries (range :: ranges)) (reserveRange p range.1 range.2) := by
  refine (shows.reserve hend).congr fun f => ?_
  simp only [Free, List.forall_mem_cons]
  exact ⟨fun h => ⟨h.1.1, h.2, h.1.2⟩, fun h => ⟨⟨h.1, h.2.2⟩, h.2.1⟩⟩

theorem pmmInit_shows {kernelEnd mbi usable : Nat} {p' : FrameMap}
    (hkernel : kernelEnd < 9223372036854775808)
    (hp : p.highestFrame < maxFrames) (init : pmmInit kernelEnd p m mbi = some (usable, p')) :
    Shows (Free (available m mbi) (bootRanges kernelEnd)) p' := by
  unfold pmmInit at init
  split at init
  · cases init
  next mid usable' walked =>
    cases init
    have start : Shows (Free (available m mbi) []) mid := by
      refine (walkTags_shows walked (shows_none hp)).congr fun f => ?_
      simp [Free, available]
    have low := start.cover (0, 1024 * 1024) (by decide)
    exact low.cover (1024 * 1024, kernelEnd) hkernel

theorem pmmReserve_shows {more : List (Nat × Nat)} (shows : Shows (Free entries ranges) p)
    (hend : ∀ r ∈ more, r.2 < 9223372036854775808) :
    Shows (Free entries (more.reverse ++ ranges)) (more.foldl pmmReserve p) := by
  induction more generalizing p ranges with
  | nil => exact shows
  | cons r rest ih =>
    have next := ih (shows.cover r (hend r (by simp))) fun r' member => hend r' (by simp [member])
    rw [List.reverse_cons, List.append_assoc]
    exact next

/-! ## Runs -/

/-- A frame that can be handed out. -/
def Vacant (F : Nat → Prop) (s : Sys) (f : Nat) : Prop := F f ∧ f * frameSize ∉ s.allocated

/-- The clear bits are the vacant frames; a frame that is allocated can become vacant again,
so that the search has to cover all of `F`. -/
structure Accounts (F : Nat → Prop) (s : Sys) : Prop where
  clear : ∀ f, bitmapTest s.pmm.bitmap f = false ↔ Vacant F s f
  high : ∀ f, F f → f ≤ s.pmm.highestFrame
  highest : s.pmm.highestFrame < maxFrames
  held : ∀ a ∈ s.allocated, ∃ f, F f ∧ a = f * frameSize
  distinct : s.allocated.Nodup
  zero : ¬ F 0

variable {s : Sys}

theorem Shows.accounts (shows : Shows F p) (zero : ¬ F 0) : Accounts F ⟨p, []⟩ where
  clear f := by simp [Vacant, shows.clear f]
  high := shows.high
  highest := shows.highest
  held _ member := nomatch member
  distinct := List.nodup_nil
  zero := zero

theorem frame_addr_inj (same : f * frameSize = g * frameSize) : f = g :=
  Nat.eq_of_mul_eq_mul_right (by decide) same

section
variable (accounts : Accounts F s)
include accounts

variable {f : Nat} {next : Sys}

theorem Accounts.address_ne_zero (hf : F f) : f * frameSize ≠ 0 := by
  intro zero
  have first : f = 0 := by simpa [frameSize] using zero
  exact accounts.zero (first ▸ hf)

theorem Accounts.alloc : (pmmAllocFrame s.pmm = (0, s.pmm) ∧ ∀ f, ¬ Vacant F s f) ∨
    ∃ f, pmmAllocFrame s.pmm = (f * frameSize, { s.pmm with bitmap := bitmapSet s.pmm.bitmap f }) ∧
      IsLeast {f | Vacant F s f} f := by
  cases found : (List.range (s.pmm.highestFrame + 1)).find? fun f => !bitmapTest s.pmm.bitmap f with
  | none =>
    refine Or.inl ⟨by simp only [pmmAllocFrame, found], fun f vacant => ?_⟩
    have set := List.find?_eq_none.mp found f
      (List.mem_range.mpr (Nat.lt_succ_of_le (accounts.high f vacant.1)))
    rw [(accounts.clear f).mpr vacant] at set
    exact set rfl
  | some f =>
    obtain ⟨clear, -, lower⟩ := List.find?_range_eq_some.mp found
    refine Or.inr ⟨f, by simp only [pmmAllocFrame,
      found], (accounts.clear f).mp (by simpa using clear), ?_⟩
    intro g vacant
    by_contra less
    have set := lower g (Nat.lt_of_not_le less)
    rw [(accounts.clear g).mpr vacant] at set
    exact absurd set (by decide)

theorem Accounts.allocated (vacant : Vacant F s f) :
    Accounts F ⟨{ s.pmm with bitmap := bitmapSet s.pmm.bitmap f },
      f * frameSize :: s.allocated⟩ where
  clear g := by
    simp only [bitmapTest_set, Bool.or_eq_false_iff, decide_eq_false_iff_not, accounts.clear g,
      Vacant, List.mem_cons,
      not_or]
    constructor
    · exact fun ⟨other, hg, free⟩ => ⟨hg, fun same => other (frame_addr_inj same), free⟩
    · exact fun ⟨hg, other, free⟩ => ⟨fun same => other (by rw [same]), hg, free⟩
  high := accounts.high
  highest := accounts.highest
  held a member := by
    rcases List.mem_cons.mp member with rfl | old
    · exact ⟨f, vacant.1, rfl⟩
    · exact accounts.held a old
  distinct := List.nodup_cons.mpr ⟨vacant.2, accounts.distinct⟩
  zero := accounts.zero

theorem Accounts.allocStep (stepped : s.step .allocFrame = some next) : Accounts F next := by
  simp only [Sys.step, Option.some.injEq] at stepped
  subst stepped
  rcases accounts.alloc with ⟨none, -⟩ | ⟨f, got, least⟩
  · rw [none]
    exact accounts
  · rw [got]
    simp only [if_neg (accounts.address_ne_zero least.1.1)]
    exact accounts.allocated least.1

theorem Accounts.freeStep {a : Nat} (held : a ∈ s.allocated)
    (stepped : s.step (.freeFrame a) = some next) :
    Accounts F next := by
  simp only [Sys.step, Option.some.injEq] at stepped
  subst stepped
  obtain ⟨f, hf, rfl⟩ := accounts.held a held
  have frame : f * frameSize / frameSize = f := Nat.mul_div_cancel _ (by decide)
  refine ⟨fun g => ?_, accounts.high, accounts.highest, ?_, accounts.distinct.erase _,
    accounts.zero⟩
  · simp only [pmmFreeFrame, frame, bitmapTest_clear, Vacant, accounts.distinct.mem_erase_iff]
    by_cases same : g = f
    · simp [same, hf]
    · have other : g * frameSize ≠ f * frameSize := fun h => same (frame_addr_inj h)
      simp [same, other, accounts.clear g, Vacant]
  · exact fun b member => accounts.held b (List.mem_of_mem_erase member)

end

theorem run_accounts {final : Sys} {ops : List Op} (run : Run Sys.step Sys.Admits s ops final)
    (accounts : Accounts F s) : Accounts F final := by
  refine run.invariant (Accounts F) (fun s op next accounts admitted stepped => ?_) accounts
  cases op with
  | allocFrame => exact accounts.allocStep stepped
  | freeFrame a => exact accounts.freeStep admitted stepped

/-- The frames that can be handed out after `pmm_init` and reservations. -/
def Allocatable (kernelEnd : Nat) (m : Bytes) (mbi : Nat) (reserved : List (Nat × Nat)) (f : Nat) :
    Prop :=
  Free (available m mbi) (reserved.reverse ++ bootRanges kernelEnd) f

section boot

variable {kernelEnd mbi usable : Nat} {m : Bytes} {p' : FrameMap} {reserved : List (Nat × Nat)}

theorem accounts_of_boot (hkernel : kernelEnd < 9223372036854775808) {bitmap : Nat → Nat}
    (init : pmmInit kernelEnd ⟨bitmap, 0⟩ m mbi = some (usable, p'))
    (hend : ∀ r ∈ reserved, r.2 < 9223372036854775808) :
    Accounts (Allocatable kernelEnd m mbi reserved) ⟨reserved.foldl pmmReserve p', []⟩ := by
  have shows := pmmReserve_shows (pmmInit_shows hkernel (show 0 < maxFrames by decide) init) hend
  refine shows.accounts fun free => ?_
  exact free.2 (0, 1024 * 1024) (List.mem_append_right _ (by simp [bootRanges]))
    ⟨by decide, by decide⟩

theorem Accounts.sysInv (accounts : Accounts (Allocatable kernelEnd m mbi reserved) s) :
    SysInv (reserved.reverse ++ bootRanges kernelEnd) s where
  guarded := by
    refine ⟨accounts.highest, fun r member f _ covers => ?_⟩
    by_contra clear
    exact ((accounts.clear f).mp (Bool.eq_false_of_not_eq_true clear)).1.2 r member covers
  taken a member := by
    obtain ⟨f, free, rfl⟩ := accounts.held a member
    refine ⟨f, rfl, Nat.lt_of_le_of_lt (accounts.high f free) accounts.highest, ?_, free.2⟩
    by_contra clear
    exact ((accounts.clear f).mp (Bool.eq_false_of_not_eq_true clear)).2 member
  distinct := accounts.distinct

end boot

/-- For every memory map and every run of `pmm_init`, reservations, allocations and frees of
allocated addresses: what is allocated is distinct, aligned, not zero, and apart from the first
megabyte, the kernel image and every reserved range. -/
theorem allocated_frames_sound (kernelEnd : Nat) (hkernel : kernelEnd < 9223372036854775808)
    (bitmap : Nat → Nat) (m : Bytes) (mbi usable : Nat) (p : FrameMap)
    (init : pmmInit kernelEnd ⟨bitmap, 0⟩ m mbi = some (usable, p)) (reserved : List (Nat × Nat))
    (hend : ∀ r ∈ reserved, r.2 < 9223372036854775808) (ops : List Op) (s : Sys)
    (run : Run Sys.step Sys.Admits ⟨reserved.foldl pmmReserve p, []⟩ ops s) :
    s.allocated.Nodup ∧ ∀ a ∈ s.allocated, a ≠ 0 ∧ a % 4096 = 0 ∧ ¬ Intersects a (0, 1048576) ∧
      ¬ Intersects a (1048576, kernelEnd) ∧ ∀ r ∈ reserved, ¬ Intersects a r := by
  have inv := (run_accounts run (accounts_of_boot hkernel init hend)).sysInv
  refine ⟨inv.distinct, fun a member => ?_⟩
  obtain ⟨f, taken⟩ := inv.taken a member
  have low : ¬ Intersects a (0, 1048576) :=
    taken.apart (List.mem_append_right _ (by simp [bootRanges]))
  have image : ¬ Intersects a (1048576, kernelEnd) :=
    taken.apart (List.mem_append_right _ (by simp [bootRanges]))
  refine ⟨fun zero => low ?_, ?_, low, image, fun r hr => ?_⟩
  · rw [zero]
    exact ⟨by decide, by decide⟩
  · rw [taken.addr]
    exact Nat.mul_mod_left f 4096
  · exact taken.apart (List.mem_append_left _ (List.mem_reverse.mpr hr))

/-- A memory map with one available entry, 64 KiB from 1 MiB on, and the end tag. -/
def sampleMap : Bytes :=
  let m := put32 (put32 (put32 zero 8 tagMmap) 12 40) 16 24
  let m := put32 (put64 (put64 m 24 0x100000) 32 0x10000) 40 mmapAvailable
  put32 (put32 m 48 tagEnd) 52 8

theorem sampleMap_returns : ∃ r, pmmInit 0x105000 ⟨fun _ => 0, 0⟩ sampleMap 0 = some r :=
  pmmInit_returns _ _ (show 1 < walkFuel by decide)
    ⟨by decide, by decide, show tagType sampleMap (nextTag sampleMap 8) = tagEnd by decide⟩

/-- Five frames for the kernel image and one reserved: of the next two the first is freed again. -/
theorem sampleRun : ∃ usable p s, pmmInit 0x105000 ⟨fun _ => 0, 0⟩ sampleMap 0 = some (usable, p) ∧
    Run Sys.step Sys.Admits ⟨[(0x105000, 0x105001)].foldl pmmReserve p, []⟩
      [.allocFrame, .allocFrame, .freeFrame 0x106000] s ∧
    s.allocated = [0x107000] ∧ (pmmAllocFrame s.pmm).1 = 0x106000 := by
  have hexec : ((pmmInit 0x105000 ⟨fun _ => 0, 0⟩ sampleMap 0).bind fun r =>
      (exec Sys.step Sys.Admits ⟨[(0x105000, 0x105001)].foldl pmmReserve r.2, []⟩
        [.allocFrame, .allocFrame, .freeFrame 0x106000]).map fun s =>
          (s.allocated, (pmmAllocFrame s.pmm).1)) =
      some ([0x107000], 0x106000) := by
    decide +kernel
  obtain ⟨⟨usable, p⟩, init, ran⟩ := Option.bind_eq_some_iff.mp hexec
  obtain ⟨s, hs, shown⟩ := Option.map_eq_some_iff.mp ran
  exact ⟨usable, p, s, init, Run.of_exec hs, congrArg Prod.fst shown, congrArg Prod.snd shown⟩

/-- The frame after them is handed out. -/
theorem allocated_frames_sound_sample :
    ∃ usable p s, pmmInit 0x105000 ⟨fun _ => 0, 0⟩ sampleMap 0 = some (usable, p) ∧
      Run Sys.step Sys.Admits ⟨[(0x105000, 0x105001)].foldl pmmReserve p, []⟩
        [.allocFrame, .allocFrame, .freeFrame 0x106000] s ∧
      s.allocated = [0x107000] ∧ s.allocated.Nodup ∧ ∀ a ∈ s.allocated, a ≠ 0 ∧ a % 4096 = 0 ∧
        ¬ Intersects a (0, 1048576) ∧ ¬ Intersects a (1048576, 0x105000) ∧
        ∀ r ∈ [(0x105000, 0x105001)], ¬ Intersects a r := by
  obtain ⟨usable, p, s, init, run, held, -⟩ := sampleRun
  exact ⟨usable, p, s, init, run, held,
    allocated_frames_sound 0x105000 (by decide) _ sampleMap 0 usable p init _ (by decide) _ s run⟩

/-- For every memory map and every run of `pmm_init`, reservations, allocations and frees of
allocated addresses: the next allocation returns the lowest frame that an available entry frees,
that is not reserved and not allocated, and 0 only if there is none. -/
theorem no_frame_is_lost (kernelEnd : Nat) (hkernel : kernelEnd < 9223372036854775808)
    (bitmap : Nat → Nat)
    (m : Bytes) (mbi usable : Nat) (p : FrameMap)
    (init : pmmInit kernelEnd ⟨bitmap, 0⟩ m mbi = some (usable, p))
    (reserved : List (Nat × Nat)) (hend : ∀ r ∈ reserved, r.2 < 9223372036854775808)
    (ops : List Op) (s : Sys)
    (run : Run Sys.step Sys.Admits ⟨reserved.foldl pmmReserve p, []⟩ ops s) :
    ((pmmAllocFrame s.pmm).1 = 0 ∧ ∀ f, ¬ Vacant (Allocatable kernelEnd m mbi reserved) s f) ∨
    ∃ f, (pmmAllocFrame s.pmm).1 = f * frameSize ∧ f ≠ 0 ∧
      IsLeast {f | Vacant (Allocatable kernelEnd m mbi reserved) s f} f := by
  have accounts := run_accounts run (accounts_of_boot hkernel init hend)
  rcases accounts.alloc with ⟨none, empty⟩ | ⟨f, got, least⟩
  · exact Or.inl ⟨by rw [none], empty⟩
  · refine Or.inr ⟨f, by rw [got], ?_, least⟩
    rintro rfl
    exact accounts.zero least.1.1

/-- The frame that was freed again is the lowest one. -/
theorem no_frame_is_lost_sample : ∃ usable p s, pmmInit 0x105000 ⟨fun _ => 0, 0⟩ sampleMap 0 = some
    (usable, p) ∧
    Run Sys.step Sys.Admits ⟨[(0x105000, 0x105001)].foldl pmmReserve p, []⟩
      [.allocFrame, .allocFrame, .freeFrame 0x106000] s ∧
    (pmmAllocFrame s.pmm).1 = 0x106000 ∧
    IsLeast {f | Vacant (Allocatable 0x105000 sampleMap 0 [(0x105000, 0x105001)]) s f} 0x106 := by
  obtain ⟨usable, p, s, init, run, -, got⟩ := sampleRun
  refine ⟨usable, p, s, init, run, got, ?_⟩
  rcases no_frame_is_lost 0x105000 (by decide) _ sampleMap 0 usable p init _
    (by decide) _ s run with
    ⟨none, -⟩ | ⟨f, address, -, least⟩
  · rw [got] at none
    cases none
  · have frame : f = 0x106 := by
      simp only [frameSize] at address
      omega
    rwa [frame] at least

/-! ## Available memory -/

/-- The octet lies in an entry. -/
def InEntries (entries : List (Nat × Nat)) (x : Nat) : Prop :=
  ∃ e ∈ entries, e.1 ≤ x ∧ x < e.1 + e.2

/-- Every octet of every frame that is ever handed out lies in an available entry. -/
def OnlyAvailable (m : Bytes) (mbi : Nat) (booted : FrameMap) : Prop :=
  ∀ ops s, Run Sys.step Sys.Admits ⟨booted, []⟩ ops s → (pmmAllocFrame s.pmm).1 ≠ 0 →
    ∀ i, i < frameSize → InEntries (available m mbi) ((pmmAllocFrame s.pmm).1 + i)

/-- The clear bits below a frame. -/
def clearBelow (b : Nat → Nat) (f : Nat) : Finset Nat :=
  (Finset.range f).filter fun g => bitmapTest b g = false

theorem clearBelow_set {b : Nat → Nat} (low : g < f) (clear : bitmapTest b g = false) :
    (clearBelow (bitmapSet b g) f).card < (clearBelow b f).card := by
  apply Finset.card_lt_card
  rw [Finset.ssubset_iff_of_subset]
  · refine ⟨g, ?_, ?_⟩
    · simp [clearBelow, low, clear]
    · simp [clearBelow, bitmapTest_set]
  · intro h member
    simp only [clearBelow, Finset.mem_filter, bitmapTest_set, Bool.or_eq_false_iff] at member ⊢
    exact ⟨member.1, member.2.2⟩

theorem Accounts.reaches (n : Nat) (accounts : Accounts F s) (vacant : Vacant F s f)
    (count : (clearBelow s.pmm.bitmap f).card = n) :
    ∃ ops s', Run Sys.step Sys.Admits s ops s' ∧ (pmmAllocFrame s'.pmm).1 = f * frameSize := by
  induction n using Nat.strong_induction_on generalizing s with
  | _ n ih =>
    rcases accounts.alloc with ⟨-, empty⟩ | ⟨g, got, least⟩
    · exact absurd vacant (empty f)
    by_cases same : g = f
    · exact ⟨[], s, .done s, by rw [got, same]⟩
    -- a lower frame comes first
    have low : g < f := Nat.lt_of_le_of_ne (least.2 vacant) same
    have clear := (accounts.clear g).mpr least.1
    have stepped : s.step .allocFrame =
        some ⟨{ s.pmm with bitmap := bitmapSet s.pmm.bitmap g }, g * frameSize :: s.allocated⟩ := by
      simp only [Sys.step, got, if_neg (accounts.address_ne_zero least.1.1)]
    have still : Vacant F ⟨{ s.pmm with bitmap := bitmapSet s.pmm.bitmap g },
        g * frameSize :: s.allocated⟩ f := by
      refine ⟨vacant.1, fun member => ?_⟩
      rcases List.mem_cons.mp member with here | old
      · exact same (frame_addr_inj here).symm
      · exact vacant.2 old
    obtain ⟨ops, s', run, address⟩ :=
      ih _ (count ▸ clearBelow_set low clear) (accounts.allocated least.1) still rfl
    exact ⟨.allocFrame :: ops, s', .call trivial stepped run, address⟩

theorem Freed.inside {e : Nat × Nat} {x : Nat} (freed : Freed e f)
    (low : x < f * frameSize + frameSize) :
    x < e.1 + e.2 := by
  have wrapped : u64 (e.1 + e.2) ≤ e.1 + e.2 := Nat.mod_le _ _
  have last : f < u64 (e.1 + e.2) / frameSize := Nat.lt_of_lt_of_le freed.2 (Nat.min_le_left _ _)
  simp only [frameSize] at low last
  omega

/-- Only available memory is handed out exactly when, for every entry whose first frame can be
handed out, the octets of that frame before the base lie in other entries. -/
theorem only_available_iff (kernelEnd : Nat) (hkernel : kernelEnd < 9223372036854775808)
    (bitmap : Nat → Nat)
    (m : Bytes) (mbi usable : Nat) (p : FrameMap)
    (init : pmmInit kernelEnd ⟨bitmap, 0⟩ m mbi = some (usable, p))
    (reserved : List (Nat × Nat)) (hend : ∀ r ∈ reserved, r.2 < 9223372036854775808) :
    OnlyAvailable m mbi (reserved.foldl pmmReserve p) ↔
      ∀ e ∈ available m mbi, Freed e (e.1 / frameSize) → Allocatable kernelEnd m mbi reserved
      (e.1 / frameSize) →
        ∀ i, i < e.1 % frameSize → InEntries (available m mbi)
        (e.1 / frameSize * frameSize + i) := by
  have accounts := accounts_of_boot hkernel init hend
  constructor
  · intro only e _ _ free i hi
    obtain ⟨ops, s, run, address⟩ := accounts.reaches _ ⟨free, List.not_mem_nil⟩ rfl
    have inside := only ops s run (address ▸ accounts.address_ne_zero free) i
      (Nat.lt_trans hi (Nat.mod_lt _ (by decide)))
    rwa [address] at inside
  · intro covered ops s run nonzero i hi
    rcases (run_accounts run accounts).alloc with ⟨none, -⟩ | ⟨f, got, least⟩
    · rw [none] at nonzero
      exact absurd rfl nonzero
    rw [got]
    obtain ⟨e, member, freed⟩ := least.1.1.1
    by_cases behind : e.1 ≤ f * frameSize + i
    · exact ⟨e, member, behind, freed.inside (by omega)⟩
    · -- the base lies inside the frame, behind this octet
      have first : e.1 / frameSize = f := by
        have low := freed.1
        simp only [frameSize] at *
        omega
      have part : i < e.1 % frameSize := by
        simp only [frameSize] at *
        omega
      rw [← first] at freed least ⊢
      exact covered e member freed least.1.1 i part

/-- The entry starts at a frame. -/
theorem only_available_aligned : ∃ usable p, pmmInit 0x105000 ⟨fun _ => 0, 0⟩ sampleMap 0 = some
    (usable, p) ∧
    OnlyAvailable sampleMap 0 ([(0x105000, 0x105001)].foldl pmmReserve p) := by
  obtain ⟨usable, p, -, init, -⟩ := sampleRun
  refine ⟨usable, p, init, (only_available_iff 0x105000 (by decide) _ sampleMap 0 usable p init _
    (by decide)).mpr ?_⟩
  have aligned : ∀ e ∈ available sampleMap 0, e.1 % frameSize = 0 := by decide
  intro e member _ _ i part
  rw [aligned e member] at part
  exact absurd part (Nat.not_lt_zero i)

/-- An available entry of 6 KiB that starts in the middle of frame 0x105, and the end tag. -/
def unalignedMap : Bytes :=
  let m := put32 (put32 (put32 zero 8 tagMmap) 12 40) 16 24
  let m := put32 (put64 (put64 m 24 0x105800) 32 0x1800) 40 mmapAvailable
  put32 (put32 m 48 tagEnd) 52 8

/-- Frame 0x105 is handed out, with the octets before the base. -/
theorem frame_before_base : ∃ usable p, pmmInit 0x105000 ⟨fun _ => 0, 0⟩ unalignedMap 0 = some
    (usable, p) ∧ (pmmAllocFrame p).1 = 0x105000 ∧ ¬ InEntries (available unalignedMap 0) 0x105000 ∧
    ¬ OnlyAvailable unalignedMap 0 p := by
  have booted : (pmmInit 0x105000 ⟨fun _ => 0, 0⟩ unalignedMap 0).map (fun r =>
    (pmmAllocFrame r.2).1) =
      some 0x105000 := by decide +kernel
  have entries : available unalignedMap 0 = [(0x105800, 0x1800)] := by decide
  obtain ⟨⟨usable, p⟩, init, address⟩ := Option.map_eq_some_iff.mp booted
  have address : (pmmAllocFrame p).1 = 0x105000 := address
  have outside : ¬ InEntries (available unalignedMap 0) 0x105000 := by
    rw [entries]
    rintro ⟨e, member, base, -⟩
    rw [List.mem_singleton.mp member] at base
    exact absurd base (by decide)
  refine ⟨usable, p, init, address, outside, fun only => ?_⟩
  have inside := only [] ⟨p, []⟩ (.done _) (by rw [address]; decide) 0 (by decide)
  rw [address] at inside
  exact outside inside

end Obsidian.Mm.Pmm
