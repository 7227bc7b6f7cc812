import Obsidian.Lib.Linked
import Obsidian.Lib.Runs
import Obsidian.Mm.HeapRust

/-!
# Runs of the Rust allocator

As long as nothing is freed the Rust backend hands out blocks upwards from the
start of the region, and the free list is the one block behind them or empty.
`Bumped` is that shape; every `kmalloc` keeps it.
-/
namespace Obsidian.Mm.HeapRust
open Lib Lib.Bytes

/-! ## Word arithmetic -/

theorem alignUp_eq {v : Nat} (h : v < 18446744073709551600) : alignUp v = (v + 15) / 16 * 16 := by
  have hsum : u64 (v + alignment - 1) = v + 15 := by
    simp only [alignment, u64]
    omega
  rw [alignUp, hsum]
  exact land_mask16_wide _ (by omega)

theorem wantOf_mod (n : Nat) (h : n < 4294967296) : wantOf n % 16 = 0 ∧ wantOf n < 4294967296 := by
  simp only [wantOf, alignUp_eq (show n < 18446744073709551600 by omega), u32]
  omega

/-- Size that `heap_init` records for the first block. -/
def firstSize (base size : Nat) : Nat := u32 (sub64 (spanOf base size) hdrSize)

variable {base size : Nat}

theorem spanOf_eq (hb : base < 4294967296) (hs : size < 4294967296) (hmin : hdrSize ≤ size) :
    spanOf base size = (size + 15) / 16 * 16 - ((base + 15) / 16 * 16 - base) := by
  have hpad : sub64 (alignUp base) base = (base + 15) / 16 * 16 - base := by
    rw [alignUp_eq (by omega), sub64_of_le (by omega) (by omega)]
  simp only [hdrSize] at hmin
  rw [spanOf, hpad, alignUp_eq (by omega), sub64_of_le (by omega) (by omega)]

theorem firstSize_eq (hb : base < 4294967296) (hs : size < 4294967296) (hmin : hdrSize ≤ size)
    (hspan : hdrSize ≤ spanOf base size) : firstSize base size = spanOf base size - 16 := by
  have hle : spanOf base size ≤ 4294967296 := by
    rw [spanOf_eq hb hs hmin]
    omega
  rw [firstSize, sub64_of_le hspan (by omega)]
  exact u32_of_lt (by simp only [hdrSize] at hspan ⊢; omega)

/-! ## The heap while nothing is freed -/

/-- What the free list is behind the blocks handed out. -/
def FreeEnd (first : Nat) (st : State) : Option Nat → Prop
  | none => st.freeHead = endOfList
  | some t => st.freeHead = t ∧ st.hdr t = ⟨magicFree, first - t, endOfList, 0⟩

/-- Blocks at `offs` (latest first) are in use and the block at `tail`, if any, is free.
Each of them records the octets from itself to the end of the first block. -/
structure Bumped (base span first : Nat) (st : State) (offs : List Nat) (tail : Option Nat) :
    Prop where
  hbase : st.base = base
  hsize : st.size = span
  aligned : base % 16 = 0
  low : base ≤ 4294967296
  small : first < 4294967296
  place : ∀ o ∈ tail.toList ++ offs, o % 16 = 0 ∧ o ≤ first
  sorted : (tail.toList ++ offs).Pairwise fun a b => b + 16 ≤ a
  used : ∀ o ∈ offs, ∃ next, st.hdr o = ⟨magicUsed, first - o, next, 1⟩
  free : FreeEnd first st tail

theorem addr_eq {st : State} {off : Nat} (low : st.base ≤ 4294967296) (h : off < 4294967296) :
    st.addr off = st.base + off := u64_of_lt (by omega)

theorem heapInit_bumped (st : State) (hb : base < 4294967296) (hmin : hdrSize ≤ size) :
    Bumped (alignUp base) (spanOf base size) (firstSize base size) (heapInit st base size).2 []
    (some 0) := by
  have hal : alignUp base = (base + 15) / 16 * 16 := alignUp_eq (by omega)
  have hrun : ¬ size < hdrSize := by omega
  have hfirst : firstSize base size < 4294967296 := Nat.mod_lt _ (by decide)
  simp only [heapInit, if_neg hrun]
  refine ⟨rfl, rfl, by omega, by omega, hfirst, by simp, by simp, by simp, rfl, ?_⟩
  have haddr : u64 (alignUp base + 0) = alignUp base := u64_of_lt (by omega)
  have hmod : alignUp base % 16 = 0 := by omega
  simp only [State.hdr, State.addr, haddr]
  rw [hdrAt_putUsed _ _ _ _ hmod hmod, hdrAt_putNext _ _ _ _ hmod hmod,
    hdrAt_putSize _ _ _ _ hmod hmod, hdrAt_putMagic _ _ _ _ hmod hmod]
  rw [← firstSize, Nat.sub_zero, u32_of_lt hfirst]
  simp only [if_true]
  rfl

variable {base span first : Nat} {st : State} {offs : List Nat} {tail : Option Nat}
    {n o t want : Nat} {s : Sys}

theorem Bumped.hdr_eq (inv : Bumped base span first st offs tail) (ho : o ≤ first) :
    st.hdr o = hdrAt st.mem (base + o) := by
  have hsmall := inv.small
  have hbase := inv.hbase
  have hlow := inv.low
  rw [State.hdr, addr_eq (by omega) (by omega), hbase]

theorem Bumped.tail_facts (inv : Bumped base span first st offs (some t)) :
    st.freeHead = t ∧ hdrAt st.mem (base + t) = ⟨magicFree, first - t, endOfList, 0⟩ ∧
      t % 16 = 0 ∧ t ≤ first ∧ t ≠ endOfList ∧ ∀ o ∈ offs, o % 16 = 0 ∧ o + 16 ≤ t := by
  obtain ⟨hhead, hhdr⟩ := inv.free
  obtain ⟨hmod, hle⟩ := inv.place t (by simp)
  rw [inv.hdr_eq hle] at hhdr
  refine ⟨hhead, hhdr, hmod, hle, by simp only [endOfList]; omega, fun o member => ?_⟩
  exact ⟨(inv.place o (by simp [member])).1, (List.pairwise_cons.mp inv.sorted).1 o member⟩

theorem splitBlock_hdr (inv : Bumped base span first st offs (some t)) (hwant : want % 16 = 0)
    (room : want + 32 ≤ first - t) (ho : o % 16 = 0) :
    (splitBlock st want t).base = st.base ∧ (splitBlock st want t).size = st.size ∧
    (splitBlock st want t).freeHead = st.freeHead ∧ hdrAt (splitBlock st want t).mem (base + o) =
      if o = t then ⟨magicFree, first - t, t + 16 + want, 0⟩
      else if o = t + 16 + want then ⟨magicFree, first - (t + 16 + want), endOfList, 0⟩
      else hdrAt st.mem (base + o) := by
  obtain ⟨_, hhdr, hmod, hle, _, _⟩ := inv.tail_facts
  have hbase := inv.hbase
  have haligned := inv.aligned
  have hlow := inv.low
  have hsmall := inv.small
  have hsize : (st.hdr t).size = first - t := by rw [inv.hdr_eq hle, hhdr]
  have hgo : hdrSize + alignment ≤ first - t - want := by
    simp only [hdrSize, alignment]
    omega
  have hoff : u32 (t + hdrSize + want) = t + 16 + want := u32_of_lt (by omega)
  have hat : st.addr t = base + t := by rw [addr_eq (by omega) (by omega), hbase]
  have hats : st.addr (t + 16 + want) = base + (t + 16 + want) := by
    rw [addr_eq (by omega) (by omega), hbase]
  have m₁ : (base + t) % 16 = 0 := by omega
  have m₂ : (base + (t + 16 + want)) % 16 = 0 := by omega
  have m₃ : (base + o) % 16 = 0 := by omega
  simp only [splitBlock, hsize, if_pos hgo, hoff, hat, hats, true_and]
  rw [hdrAt_putNext _ _ _ _ m₁ m₃, hdrAt_putUsed _ _ _ _ m₂ m₃, hdrAt_putNext _ _ _ _ m₂ m₃,
    hdrAt_putSize _ _ _ _ m₂ m₃, hdrAt_putMagic _ _ _ _ m₂ m₃, hdrAt_putSize _ _ _ _ m₂ m₁,
    hdrAt_putMagic _ _ _ _ m₂ m₁]
  have apart : base + t ≠ base + (t + 16 + want) := by omega
  by_cases h₁ : o = t
  · subst h₁
    simp only [if_true, if_neg apart, hhdr, BlockHdr.mk.injEq, true_and, and_true]
    exact u32_of_lt (by omega)
  · have n₁ : base + o ≠ base + t := by omega
    by_cases h₂ : o = t + 16 + want
    · subst h₂
      simp only [if_neg n₁, if_neg h₁, if_true, if_neg apart, hhdr, BlockHdr.mk.injEq]
      refine ⟨rfl, ?_, rfl, rfl⟩
      rw [u32_of_lt (by omega)]
      simp only [hdrSize]
      omega
    · have n₂ : base + o ≠ base + (t + 16 + want) := by omega
      simp only [if_neg n₁, if_neg n₂, if_neg h₁, if_neg h₂]

theorem Bumped.take_whole (inv : Bumped base span first st offs (some t))
    (tight : first - t < want + 32) :
    (takeBlock st want endOfList t).1 = base + t + 16 ∧
      Bumped base span first (takeBlock st want endOfList t).2 (t :: offs) none := by
  obtain ⟨_, hhdr, hmod, hle, _, hoffs⟩ := inv.tail_facts
  have hbase := inv.hbase
  have hlow := inv.low
  have hsmall := inv.small
  have haligned := inv.aligned
  have hsize : (st.hdr t).size = first - t := by rw [inv.hdr_eq hle, hhdr]
  have hkeep : splitBlock st want t = st := by
    have : ¬ hdrSize + alignment ≤ first - t - want := by
      simp only [hdrSize, alignment]
      omega
    simp only [splitBlock, hsize, if_neg this]
  have hat : st.addr t = base + t := by rw [addr_eq (by omega) (by omega), hbase]
  have hdr : ∀ o, o % 16 = 0 → hdrAt (putUsed (putMagic st.mem (base + t) magicUsed) (base + t) 1)
      (base + o) =
        if o = t then ⟨magicUsed, first - t, endOfList, 1⟩ else hdrAt st.mem (base + o) := by
    intro o ho
    rw [hdrAt_putUsed _ _ _ _ (by omega) (by omega), hdrAt_putMagic _ _ _ _ (by omega) (by omega)]
    by_cases same : o = t
    · subst same
      simp only [if_true, hhdr]
      rfl
    · have : base + o ≠ base + t := by omega
      simp only [if_neg same, if_neg this]
  simp only [takeBlock, hkeep, if_true, hat]
  refine ⟨?_, hbase, inv.hsize, haligned, hlow, hsmall, inv.place, inv.sorted, ?_, ?_⟩
  · rw [hbase]
    exact u64_of_lt (by simp only [hdrSize]; omega)
  · intro o member
    have hplace := inv.place o (member)
    have hato : st.addr o = base + o := by rw [addr_eq (by omega) (by omega), hbase]
    simp only [State.hdr, State.addr] at hato ⊢
    rw [hato, hdr o hplace.1]
    by_cases same : o = t
    · subst same
      exact ⟨endOfList, by simp⟩
    · rcases List.mem_cons.mp member with rfl | old
      · exact absurd rfl same
      · rw [if_neg same, ← inv.hdr_eq hplace.2]
        exact inv.used o old
  · simp only [FreeEnd, State.hdr, State.addr] at hat ⊢
    rw [hat, hdr t hmod]
    simp

theorem Bumped.take_split (inv : Bumped base span first st offs (some t)) (hwant : want % 16 = 0)
    (room : want + 32 ≤ first - t) :
    (takeBlock st want endOfList t).1 = base + t + 16 ∧
      Bumped base span first (takeBlock st want endOfList t).2 (t :: offs)
      (some (t + 16 + want)) := by
  obtain ⟨_, hhdr, hmod, hle, _, hoffs⟩ := inv.tail_facts
  have hbase := inv.hbase
  have hlow := inv.low
  have hsmall := inv.small
  have haligned := inv.aligned
  obtain ⟨hsbase, hssize, _, _⟩ := splitBlock_hdr inv hwant room hmod
  have haddr : ∀ o, o < 4294967296 → u64 ((splitBlock st want t).base + o) = base + o := by
    intro o ho
    rw [hsbase, hbase]
    exact u64_of_lt (by omega)
  have hdr : ∀ o, o % 16 = 0 → hdrAt (putUsed (putMagic (splitBlock st want t).mem (base + t)
      magicUsed) (base + t) 1) (base + o) =
        if o = t then ⟨magicUsed, first - t, t + 16 + want, 1⟩
        else if o = t + 16 + want then ⟨magicFree, first - (t + 16 + want), endOfList, 0⟩
        else hdrAt st.mem (base + o) := by
    intro o ho
    obtain ⟨_, _, _, hsplit⟩ := splitBlock_hdr inv hwant room ho
    rw [hdrAt_putUsed _ _ _ _ (by omega) (by omega), hdrAt_putMagic _ _ _ _ (by omega) (by omega),
      hsplit]
    by_cases same : o = t
    · subst same
      simp only [if_true]
      rfl
    · have : base + o ≠ base + t := by omega
      simp only [if_neg same, if_neg this]
  simp only [takeBlock, if_true, State.addr, haddr t (by omega)]
  refine ⟨?_, hsbase.trans hbase, hssize.trans inv.hsize, haligned, hlow, hsmall, ?_, ?_, ?_, ?_⟩
  · rw [hsbase, hbase]
    exact u64_of_lt (by simp only [hdrSize]; omega)
  · intro o member
    rcases List.mem_cons.mp member with rfl | old
    · omega
    · exact inv.place o old
  · refine List.pairwise_cons.mpr ⟨fun o member => ?_, inv.sorted⟩
    rcases List.mem_cons.mp member with rfl | old
    · omega
    · have := (hoffs o old).2
      omega
  · intro o member
    have hplace := inv.place o (member)
    simp only [State.hdr, State.addr, haddr o (by omega)]
    rw [hdr o hplace.1]
    by_cases same : o = t
    · subst same
      exact ⟨o + 16 + want, by simp⟩
    · rcases List.mem_cons.mp member with rfl | old
      · exact absurd rfl same
      · have := (hoffs o old).2
        rw [if_neg same, if_neg (by omega), ← inv.hdr_eq hplace.2]
        exact inv.used o old
  · simp only [FreeEnd, State.hdr, State.addr, haddr t (by omega), haddr (t + 16 + want) (by omega)]
    rw [hdr t hmod, hdr (t + 16 + want) (by omega)]
    have : t + 16 + want ≠ t := by omega
    simp [this]

/-- What `kmalloc` does while nothing has been freed: it fails and changes nothing, or it
takes the free block and either leaves the octets behind the request free or leaves none. -/
theorem Bumped.kmalloc_cases (inv : Bumped base span first st offs tail) (hn : n < 4294967296) :
    kmalloc st n = some (0, st) ∨ ∃ t st', tail = some t ∧ kmalloc st n = some
    (base + t + 16, st') ∧
      ((wantOf n + 32 ≤ first - t ∧
        Bumped base span first st' (t :: offs) (some (t + 16 + wantOf n))) ∨
        (first - t < wantOf n + 32 ∧ Bumped base span first st' (t :: offs) none)) := by
  by_cases hzero : n = 0
  · exact Or.inl (by simp [kmalloc, hzero])
  cases tail with
  | none =>
    have hhead : st.freeHead = endOfList := inv.free
    exact Or.inl (by simp [kmalloc, hzero, hhead, walkFuel, firstFit])
  | some t =>
    obtain ⟨hhead, hhdr, hmod, hle, hend, _⟩ := inv.tail_facts
    rw [← inv.hdr_eq hle] at hhdr
    by_cases fits : wantOf n ≤ first - t
    · have hfound : firstFit st (wantOf n) walkFuel endOfList st.freeHead =
          some (.found endOfList t) := by
        simp [walkFuel, firstFit, hhead, hend, hhdr, fits]
      have hres : kmalloc st n = some (takeBlock st (wantOf n) endOfList t) := by
        simp only [kmalloc, if_neg hzero, hfound]
      refine Or.inr ⟨t, (takeBlock st (wantOf n) endOfList t).2, rfl, ?_⟩
      by_cases room : wantOf n + 32 ≤ first - t
      · obtain ⟨hptr, hnext⟩ := inv.take_split (wantOf_mod n hn).1 room
        exact ⟨by rw [hres, ← hptr], Or.inl ⟨room, hnext⟩⟩
      · obtain ⟨hptr, hnext⟩ := inv.take_whole (show first - t < wantOf n + 32 by omega)
        exact ⟨by rw [hres, ← hptr], Or.inr ⟨by omega, hnext⟩⟩
    · exact Or.inl (by simp [kmalloc, hzero, walkFuel, firstFit, hhead, hend, hhdr, fits])

/-! ## The allocator and its clients -/

/-- `live` holds the pointers handed out and not yet freed. -/
structure Sys where
  st : State
  live : List Nat

inductive Op where
  | kmalloc (n : Nat)
  | kfree (p : Nat)
  deriving DecidableEq, Repr

def Sys.step (s : Sys) : Op → Option Sys
  | .kmalloc n => (kmalloc s.st n).map fun r => ⟨r.2, if r.1 = 0 then s.live else r.1 :: s.live⟩
  | .kfree p => (kfree s.st p).map fun st => ⟨st, s.live.filter (· ≠ p)⟩

/-- Requests are 32-bit words and only pointers that are held are freed. -/
def Sys.Admits (s : Sys) : Op → Prop
  | .kmalloc n => n < 4294967296
  | .kfree p => p ∈ s.live

instance (s : Sys) (op : Op) : Decidable (s.Admits op) :=
  match op with
  | .kmalloc n => inferInstanceAs (Decidable (n < 4294967296))
  | .kfree p => inferInstanceAs (Decidable (p ∈ s.live))

def Op.IsKmalloc : Op → Prop
  | .kmalloc _ => True
  | .kfree _ => False

def boot (st : State) (base size : Nat) : Sys := ⟨(heapInit st base size).2, []⟩

/-- `next_off` of the header at an offset of the region. -/
def State.nextOf (st : State) (o : Nat) : Nat := (st.hdr o).nextOff

/-- The offsets on the free list. -/
structure FreeList (st : State) (fl : List Nat) : Prop where
  chain : Linked st.nextOf st.freeHead fl endOfList
  proper : endOfList ∉ fl

/-- The state `Bumped` describes, with the pointers in client hands. -/
def SysBumped (base span first : Nat) (s : Sys) : Prop :=
  ∃ offs tail, Bumped base span first s.st offs tail ∧ s.live = offs.map (base + · + 16)

theorem boot_bumped (st : State) (hb : base < 4294967296) (hmin : hdrSize ≤ size) :
    SysBumped (alignUp base) (spanOf base size) (firstSize base size) (boot st base size) :=
  ⟨[], some 0, heapInit_bumped st hb hmin, rfl⟩

theorem kmalloc_bumped {next : Sys} (inv : SysBumped base span first s) (hn : n < 4294967296)
    (returned : s.step (.kmalloc n) = some next) : SysBumped base span first next := by
  obtain ⟨offs, tail, hst, hlive⟩ := inv
  rcases hst.kmalloc_cases hn with hfail | ⟨t, st', rfl, hok, hcases⟩
  · simp only [Sys.step, hfail, Option.map_some, if_true, Option.some.injEq] at returned
    subst returned
    exact ⟨offs, tail, hst, hlive⟩
  · have hptr : base + t + 16 ≠ 0 := by omega
    simp only [Sys.step, hok, Option.map_some, if_neg hptr, Option.some.injEq] at returned
    subst returned
    have hlive' : (base + t + 16) :: s.live = (t :: offs).map (base + · + 16) := by
      rw [hlive, List.map_cons]
    rcases hcases with ⟨_, hnext⟩ | ⟨_, hnext⟩
    · exact ⟨_, _, hnext, hlive'⟩
    · exact ⟨_, _, hnext, hlive'⟩

theorem run_bumped {final : Sys} {ops : List Op} (run : Run Sys.step Sys.Admits s ops final)
    (hops : ∀ op ∈ ops, op.IsKmalloc) (inv : SysBumped base span first s) :
    SysBumped base span first final := by
  induction run with
  | done => exact inv
  | @call s next final op ops admitted returned rest ih =>
    cases op with
    | kmalloc n =>
      exact ih (fun op member => hops op (List.mem_cons_of_mem _ member))
        (kmalloc_bumped inv admitted returned)
    | kfree p => exact (hops (.kfree p) List.mem_cons_self).elim

theorem Bumped.freeList (inv : Bumped base span first st offs tail) : FreeList st tail.toList := by
  cases tail with
  | none => exact ⟨inv.free, by simp⟩
  | some t =>
    obtain ⟨hhead, hhdr⟩ := inv.free
    have hend := inv.tail_facts.2.2.2.2.1
    refine ⟨⟨hhead, ?_⟩, by simpa using hend.symm⟩
    simp only [State.nextOf, hhdr]
    rfl

end Obsidian.Mm.HeapRust
