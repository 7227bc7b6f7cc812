import Obsidian.Lib.Bytes

/-!
# In-band block headers

Both heap backends (`mm/heap_c.c`, `mm/alloc/src/lib.rs`) put the same four
words in front of every block. Headers sit at multiples of sixteen and are
sixteen octets long, so writing one word of a header leaves the header at every
other aligned address alone; the `hdrAt_put*` equations say so and are all that
later modules use of the byte layout.
-/
namespace Obsidian.Mm
open Lib Lib.Bytes

def hdrSize : Nat := 16
def alignment : Nat := 16
def magicUsed : Nat := 0x0B51D1A0
def magicFree : Nat := 0xF4EEB10C
def endOfList : Nat := 0xFFFFFFFF

/-- `struct block_hdr`. -/
structure BlockHdr where
  magic : Nat
  size : Nat
  nextOff : Nat
  used : Nat
  deriving DecidableEq, Repr

def hdrAt (m : Bytes) (off : Nat) : BlockHdr :=
  ⟨get32 m off, get32 m (off + 4), get32 m (off + 8), get32 m (off + 12)⟩

def putMagic (m : Bytes) (off v : Nat) : Bytes := put32 m off v
def putSize (m : Bytes) (off v : Nat) : Bytes := put32 m (off + 4) v
def putNext (m : Bytes) (off v : Nat) : Bytes := put32 m (off + 8) v
def putUsed (m : Bytes) (off v : Nat) : Bytes := put32 m (off + 12) v

theorem hdrAt_congr {a b : Bytes} {off : Nat} (h : Agree a b off (off + 16)) :
    hdrAt a off = hdrAt b off := by
  simp only [hdrAt, get32_congr (h.mono (Nat.le_refl _) (by omega) : Agree a b off (off + 4)),
    get32_congr (h.mono (by omega) (by omega) : Agree a b (off + 4) (off + 4 + 4)),
    get32_congr (h.mono (by omega) (by omega) : Agree a b (off + 8) (off + 8 + 4)),
    get32_congr (h.mono (by omega) (by omega) : Agree a b (off + 12) (off + 12 + 4))]

variable (m : Bytes)

theorem hdrAt_put32 {i o k : Nat} (v : Nat) (hi : i % 16 = 0) (ho : o % 16 = 0) (hk : k + 4 ≤ 16)
    (h : o ≠ i) :
    hdrAt (put32 m (i + k) v) o = hdrAt m o :=
  hdrAt_congr (put32_agree _ _ _ _ _ (by omega))

theorem hdrAt_putMagic (i o v : Nat) (hi : i % 16 = 0) (ho : o % 16 = 0) :
    hdrAt (putMagic m i v) o = if o = i then { hdrAt m o with magic := u32 v } else hdrAt m o := by
  by_cases h : o = i
  · simp (disch := omega) only [h, hdrAt, putMagic, get32_put32, get32_put32_ne, if_true, u32]
  · rw [if_neg h]
    exact hdrAt_put32 m (k := 0) v hi ho (by decide) h

theorem hdrAt_putSize (i o v : Nat) (hi : i % 16 = 0) (ho : o % 16 = 0) : hdrAt (putSize m i v) o =
      if o = i then { hdrAt m o with size := u32 v } else hdrAt m o := by
  by_cases h : o = i
  · simp (disch := omega) only [h, hdrAt, putSize, get32_put32, get32_put32_ne, if_true, u32]
  · rw [if_neg h]
    exact hdrAt_put32 m (k := 4) v hi ho (by decide) h

theorem hdrAt_putNext (i o v : Nat) (hi : i % 16 = 0) (ho : o % 16 = 0) : hdrAt (putNext m i v) o =
      if o = i then { hdrAt m o with nextOff := u32 v } else hdrAt m o := by
  by_cases h : o = i
  · simp (disch := omega) only [h, hdrAt, putNext, get32_put32, get32_put32_ne, if_true, u32]
  · rw [if_neg h]
    exact hdrAt_put32 m (k := 8) v hi ho (by decide) h

theorem hdrAt_putUsed (i o v : Nat) (hi : i % 16 = 0) (ho : o % 16 = 0) : hdrAt (putUsed m i v) o =
      if o = i then { hdrAt m o with used := u32 v } else hdrAt m o := by
  by_cases h : o = i
  · simp (disch := omega) only [h, hdrAt, putUsed, get32_put32, get32_put32_ne, if_true, u32]
  · rw [if_neg h]
    exact hdrAt_put32 m (k := 12) v hi ho (by decide) h

end Obsidian.Mm
