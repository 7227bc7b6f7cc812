import Obsidian.Lib.Bytes
import Obsidian.Lib.Runs

/-!
# Physical frame manager of the x86-64 build

Source: arch/x86_64/pmm.c, with the Multiboot2 structures of
arch/x86_64/multiboot2.h.

One bit per frame of 4 KiB, set when the frame may not be handed out. The map
starts with all bits set; available entries of the memory map clear bits,
reservations set them again, and from then on frames are allocated and freed.
Addresses are flat, and a walk over the Multiboot2 tags that visits more
addresses than there are never ends: `pmmInit` is then `none`.
-/
namespace Obsidian.Mm.Pmm
open Lib Lib.Bytes

/-! ## The bitmap -/

def frameSize : Nat := 4096
def maxFrames : Nat := 512 * 1024

/-- `bitmap` holds words of 64 bits. -/
structure FrameMap where
  bitmap : Nat → Nat
  highestFrame : Nat

def bitmapSet (b : Nat → Nat) (f : Nat) : Nat → Nat :=
  Function.update b (f / 64) (b (f / 64) ||| 1 <<< (f % 64))

def bitmapClear (b : Nat → Nat) (f : Nat) : Nat → Nat :=
  Function.update b (f / 64) (b (f / 64) &&& (0xFFFFFFFFFFFFFFFF ^^^ 1 <<< (f % 64)))

def bitmapTest (b : Nat → Nat) (f : Nat) : Bool := b (f / 64) >>> (f % 64) &&& 1 ≠ 0

/-- The frames from `first` up to `last`, in the order of the loop. -/
def frames (first last : Nat) : List Nat := List.range' first (last - first)

def reserveRange (p : FrameMap) (start stop : Nat) : FrameMap :=
  let first := start / frameSize
  let last := min (u64 (stop + frameSize - 1) / frameSize) maxFrames
  { p with bitmap := (frames first last).foldl bitmapSet p.bitmap }

def freeFrame (p : FrameMap) (f : Nat) : FrameMap :=
  { bitmap := bitmapClear p.bitmap f, highestFrame := max p.highestFrame f }

def freeRange (p : FrameMap) (start stop : Nat) : FrameMap :=
  let first := start / frameSize
  let last := min (stop / frameSize) maxFrames
  (frames first last).foldl freeFrame p

def pmmAllocFrame (p : FrameMap) : Nat × FrameMap :=
  match (List.range (p.highestFrame + 1)).find? fun f => !bitmapTest p.bitmap f with
  | some f => (f * frameSize, { p with bitmap := bitmapSet p.bitmap f })
  | none => (0, p)

def pmmFreeFrame (p : FrameMap) (physAddr : Nat) : FrameMap :=
  { p with bitmap := bitmapClear p.bitmap (physAddr / frameSize) }

def pmmReserve (p : FrameMap) (range : Nat × Nat) : FrameMap := reserveRange p range.1 range.2

/-! ## The memory map -/

def tagEnd : Nat := 0
def tagMmap : Nat := 6
def mmapAvailable : Nat := 1

def tagType (m : Bytes) (tag : Nat) : Nat := get32 m tag
def tagSize (m : Bytes) (tag : Nat) : Nat := get32 m (tag + 4)
def entrySize (m : Bytes) (tag : Nat) : Nat := get32 m (tag + 8)

/-- More steps than there are addresses. -/
def walkFuel : Nat := 18446744073709551616

/-- The entries of a memory-map tag, from `e` up to `stop`; the second component counts
usable kilobytes. -/
def walkEntries (m : Bytes) (entrySize stop : Nat) :
    Nat → Nat → FrameMap × Nat → Option (FrameMap × Nat)
  | 0, _, _ => none
  | fuel + 1, e, (p, usable) =>
    if e < stop then
      let base := get64 m e
      let length := get64 m (e + 8)
      let next := if get32 m (e + 16) = mmapAvailable then
          (freeRange p base (u64 (base + length)), u64 (usable + length / 1024))
        else (p, usable)
      walkEntries m entrySize stop fuel (u64 (e + entrySize)) next
    else some (p, usable)

/-- Tags are aligned to eight octets. -/
def nextTag (m : Bytes) (tag : Nat) : Nat := u64 (tag + tagSize m tag + 7) / 8 * 8

def walkTags (m : Bytes) : Nat → Nat → FrameMap × Nat → Option (FrameMap × Nat)
  | 0, _, _ => none
  | fuel + 1, tag, st =>
    if tagType m tag = tagEnd then some st
    else if tagType m tag = tagMmap then
      match walkEntries m (entrySize m tag) (tag + tagSize m tag) walkFuel (tag + 16) st with
      | some st => walkTags m fuel (nextTag m tag) st
      | none => none
    else walkTags m fuel (nextTag m tag) st

/-- `kernelEnd` is the address of the linker symbol `_kernel_end`. -/
def pmmInit (kernelEnd : Nat) (p : FrameMap) (m : Bytes) (mbi : Nat) : Option (Nat × FrameMap) :=
  match walkTags m walkFuel (mbi + 8) ({ p with bitmap := fun _ => 0xFFFFFFFFFFFFFFFF }, 0) with
  | none => none
  | some (p, usable) =>
    let p := reserveRange p 0 (1024 * 1024)
    let p := reserveRange p (1024 * 1024) kernelEnd
    some (usable, p)

/-- `n` tags and then an end tag; a memory map has entries of some length and lies in the
lower half of the address space. -/
def TagChain (m : Bytes) : Nat → Nat → Prop
  | 0, tag => tagType m tag = tagEnd
  | n + 1, tag => tagType m tag ≠ tagEnd ∧
      (tagType m tag = tagMmap → 0 < entrySize m tag ∧ tag + tagSize m tag < 9223372036854775808) ∧
      TagChain m n (nextTag m tag)

theorem walkEntries_returns (m : Bytes) {size stop fuel e : Nat} (hsize : 0 < size)
    (hword : size < 4294967296) (hstop : stop < 9223372036854775808) (enough : stop - e < fuel)
    (st : FrameMap × Nat) :
    ∃ final, walkEntries m size stop fuel e st = some final := by
  induction fuel generalizing e st with
  | zero => omega
  | succ fuel ih =>
    simp only [walkEntries]
    by_cases more : e < stop
    · have hnext : u64 (e + size) = e + size := u64_of_lt (by omega)
      rw [if_pos more]
      exact ih (by omega) _
    · exact ⟨_, if_neg more⟩

theorem walkTags_returns {m : Bytes} {n fuel tag : Nat} (enough : n < fuel)
    (chain : TagChain m n tag) (st : FrameMap × Nat) :
    ∃ final, walkTags m fuel tag st = some final := by
  induction n generalizing fuel tag st with
  | zero =>
    obtain ⟨fuel, rfl⟩ := Nat.exists_eq_succ_of_ne_zero (Nat.ne_of_gt enough)
    exact ⟨st, if_pos chain⟩
  | succ n ih =>
    obtain ⟨fuel, rfl⟩ := Nat.exists_eq_succ_of_ne_zero (show fuel ≠ 0 by omega)
    obtain ⟨going, mmap, rest⟩ := chain
    simp only [walkTags, if_neg going]
    by_cases map : tagType m tag = tagMmap
    · obtain ⟨hsize, hstop⟩ := mmap map
      have steps : tag + tagSize m tag - (tag + 16) < walkFuel := by
        simp only [walkFuel]
        omega
      obtain ⟨mid, entries⟩ := walkEntries_returns m hsize (get32_lt m _) hstop steps st
      simp only [if_pos map, entries]
      exact ih (by omega) rest mid
    · rw [if_neg map]
      exact ih (by omega) rest st

/-- `pmm_init` returns on every well-formed Multiboot2 structure. -/
theorem pmmInit_returns (kernelEnd : Nat) (p : FrameMap) {m : Bytes} {mbi n : Nat}
    (short : n < walkFuel) (chain : TagChain m n (mbi + 8)) :
    ∃ r, pmmInit kernelEnd p m mbi = some r := by
  obtain ⟨final, walked⟩ :=
    walkTags_returns short chain ({ p with bitmap := fun _ => 0xFFFFFFFFFFFFFFFF }, 0)
  simp only [pmmInit, walked]
  exact ⟨_, rfl⟩

/-! ## What the operations do to single bits -/

variable (b : Nat → Nat)

theorem bitmapTest_eq (f : Nat) : bitmapTest b f = (b (f / 64)).testBit (f % 64) := by
  simp [bitmapTest, Nat.testBit, Nat.and_comm]

theorem bitmapTest_set (f g : Nat) :
    bitmapTest (bitmapSet b f) g = (decide (g = f) || bitmapTest b g) := by
  rw [bitmapTest_eq, bitmapTest_eq, bitmapSet]
  by_cases same : g / 64 = f / 64
  · have hiff : f % 64 = g % 64 ↔ g = f := by omega
    rw [same, Function.update_self, Nat.testBit_or, Nat.one_shiftLeft, Nat.testBit_two_pow,
      decide_eq_decide.mpr hiff, Bool.or_comm]
  · have hne : g ≠ f := fun h => same (by rw [h])
    rw [Function.update_of_ne same]
    simp [hne]

theorem bitmapTest_clear (f g : Nat) :
    bitmapTest (bitmapClear b f) g = (!decide (g = f) && bitmapTest b g) := by
  rw [bitmapTest_eq, bitmapTest_eq, bitmapClear]
  by_cases same : g / 64 = f / 64
  · have hiff : f % 64 = g % 64 ↔ g = f := by omega
    have hmask : Nat.testBit 0xFFFFFFFFFFFFFFFF (g % 64) = true := by
      have : (0xFFFFFFFFFFFFFFFF : Nat) = 2 ^ 64 - 1 := rfl
      rw [this, Nat.testBit_two_pow_sub_one]
      exact decide_eq_true (Nat.mod_lt _ (by decide))
    rw [same, Function.update_self, Nat.testBit_and, Nat.testBit_xor, hmask, Nat.one_shiftLeft,
      Nat.testBit_two_pow, decide_eq_decide.mpr hiff, Bool.and_comm, Bool.true_xor]
  · have hne : g ≠ f := fun h => same (by rw [h])
    rw [Function.update_of_ne same]
    simp [hne]

theorem mem_frames {first last f : Nat} : f ∈ frames first last ↔ first ≤ f ∧ f < last := by
  rw [frames, List.mem_range'_1]
  omega

theorem bitmapTest_setAll (fs : List Nat) (b : Nat → Nat) (g : Nat) :
    bitmapTest (fs.foldl bitmapSet b) g = (decide (g ∈ fs) || bitmapTest b g) := by
  induction fs generalizing b with
  | nil => simp
  | cons f rest ih =>
    have hiff : g ∈ rest ∨ g = f ↔ g ∈ f :: rest := by rw [List.mem_cons, or_comm]
    rw [List.foldl_cons, ih, bitmapTest_set, ← Bool.or_assoc, ← Bool.decide_or,
      decide_eq_decide.mpr hiff]

/-! ## Reservations -/

/-- Frame `f` has an octet in the range. -/
def Covers (range : Nat × Nat) (f : Nat) : Prop := range.1 / frameSize ≤ f ∧ f * frameSize < range.2

/-- Every frame below the ceiling that a reserved range covers is marked. -/
structure Guarded (ranges : List (Nat × Nat)) (p : FrameMap) : Prop where
  highest : p.highestFrame < maxFrames
  marked : ∀ r ∈ ranges, ∀ f, f < maxFrames → Covers r f → bitmapTest p.bitmap f = true

/-- Memory no frame of which is handed out: the first megabyte and the kernel image. -/
def bootRanges (kernelEnd : Nat) : List (Nat × Nat) := [(1024 * 1024, kernelEnd), (0, 1024 * 1024)]

/-! ## Allocation and release -/

/-- `allocated` holds the addresses handed out and not yet freed. -/
structure Sys where
  pmm : FrameMap
  allocated : List Nat

inductive Op where
  | allocFrame
  | freeFrame (physAddr : Nat)
  deriving DecidableEq, Repr

def Sys.step (s : Sys) : Op → Option Sys
  | .allocFrame =>
    let r := pmmAllocFrame s.pmm
    some ⟨r.2, if r.1 = 0 then s.allocated else r.1 :: s.allocated⟩
  | .freeFrame a => some ⟨pmmFreeFrame s.pmm a, s.allocated.erase a⟩

def Sys.Admits (s : Sys) : Op → Prop
  | .allocFrame => True
  | .freeFrame a => a ∈ s.allocated

instance (s : Sys) (op : Op) : Decidable (s.Admits op) :=
  match op with
  | .allocFrame => isTrue trivial
  | .freeFrame a => inferInstanceAs (Decidable (a ∈ s.allocated))

/-- A frame that is marked without being reserved. -/
structure Taken (ranges : List (Nat × Nat)) (p : FrameMap) (a f : Nat) : Prop where
  addr : a = f * frameSize
  below : f < maxFrames
  marked : bitmapTest p.bitmap f = true
  free : ∀ r ∈ ranges, ¬ Covers r f

structure SysInv (ranges : List (Nat × Nat)) (s : Sys) : Prop where
  guarded : Guarded ranges s.pmm
  taken : ∀ a ∈ s.allocated, ∃ f, Taken ranges s.pmm a f
  distinct : s.allocated.Nodup

/-- The frame at `a` has an octet in the range. -/
def Intersects (a : Nat) (range : Nat × Nat) : Prop := a < range.2 ∧ range.1 < a + frameSize

theorem Taken.apart {ranges : List (Nat × Nat)} {p : FrameMap} {a f : Nat}
    (taken : Taken ranges p a f) {r : Nat × Nat} (member : r ∈ ranges) :
    ¬ Intersects a r := by
  rintro ⟨hlo, hhi⟩
  apply taken.free r member
  have := taken.addr
  simp only [Covers, frameSize] at hlo hhi this ⊢
  omega

end Obsidian.Mm.Pmm
