import Obsidian.Lib.Runs
import Obsidian.Mm.HeapCRelease

/-!
# Runs of the C allocator

A system state is the heap together with the pointers its clients hold and the
sizes they asked for. Clients allocate, free pointers they hold and write into
the octets they asked for, in any order. `SysInv` relates such a state to an
abstract block list; every admitted call returns and keeps it.
-/
namespace Obsidian.Mm.HeapC
open Lib Lib.Bytes Lib.Tiling

variable {bs pre post : List Block} {b : Block}

/-! ## What single calls do -/

/-- The largest request that `kmalloc` rounds up and tests without wrapping. -/
def Abi.maxRequest : Abi → Nat
  | .ilp32 => 4294967264
  | .lp64 => 4294967280

variable (abi : Abi)

theorem Abi.maxRequest_bounds : 2147483648 ≤ abi.maxRequest ∧ abi.maxRequest ≤ 4294967280 := by
  cases abi with
  | ilp32 => decide
  | lp64 => decide

variable {base size : Nat} {s : Sys} {n : Nat}

theorem alignUp_facts (hpos : 1 ≤ n) (hmax : n ≤ 4294967280) :
    alignUp n % 16 = 0 ∧ 16 ≤ alignUp n ∧ n ≤ alignUp n ∧ alignUp n < n + 16 := by
  rw [alignUp_eq hmax]
  omega

theorem sizeT_request (hmax : n ≤ abi.maxRequest) :
    abi.sizeT (alignUp n + 16) = alignUp n + 16 := by
  cases abi with
  | ilp32 =>
    simp only [Abi.maxRequest] at hmax
    rw [alignUp_eq (by omega)]
    exact u32_of_lt (by omega)
  | lp64 =>
    simp only [Abi.maxRequest] at hmax
    rw [alignUp_eq hmax]
    exact u64_of_lt (by omega)

theorem alignUp_of_aligned {v : Nat} (aligned : v % 16 = 0) (hlt : v < 4294967296) :
    alignUp v = v := by
  have : u32 (v + alignment - 1) = v + 15 := u32_of_lt (by simp only [alignment]; omega)
  rw [alignUp, land_mask16 _ (by omega)]
  omega

theorem alignUp_aligned (v : Nat) : alignUp v % 16 = 0 := by
  have hlt : u32 (v + alignment - 1) < 4294967296 := Nat.mod_lt _ (by decide)
  rw [alignUp, land_mask16 _ hlt]
  omega

variable {p size : Nat} {m m' : Bytes}

theorem heapInit_spec (h : Heap) (base : Nat) (hmin : 32 ≤ alignUp size)
    (hmax : alignUp size < 2147483648) :
    (heapInit h base size).2.hbase = alignUp base ∧ (heapInit h base size).2.hsize = alignUp size ∧
      Represents (heapInit h base size).2.mem (heapInit h base size).2.freeHead
      [⟨0, alignUp size - 16, false⟩] := by
  refine ⟨rfl, rfl, ?_⟩
  have hdr : hdrAt (heapInit h base size).2.mem 0 = ⟨magicFree, alignUp size - 16,
      endOfList, 0⟩ := by
    simp only [heapInit]
    rw [hdrAt_putUsed _ _ _ _ rfl rfl, hdrAt_putNext _ _ _ _ rfl rfl, hdrAt_putSize _ _ _ _ rfl rfl,
      hdrAt_putMagic _ _ _ _ rfl rfl]
    have hsub : sub32 (alignUp size) hdrSize = alignUp size - 16 :=
      sub32_of_le (by omega) (by simp only [hdrSize]; omega)
    simp only [if_true, hsub, u32_of_lt (show alignUp size - 16 < 4294967296 by omega)]
    rfl
  refine ⟨fun b member => ?_, ?_⟩
  · rw [List.mem_singleton] at member
    subst member
    exact ⟨by simp [hdr], by simp [hdr], by simp [hdr]⟩
  · refine ⟨rfl, ?_⟩
    simp only [nextOf, hdr]
    rfl

section kmalloc

variable (abi : Abi) (h : Heap) (fits : Fits h.hsize bs) (rep : Represents h.mem h.freeHead bs)
    {n : Nat} (hpos : 1 ≤ n)
  (hmax : n ≤ abi.maxRequest) (hbase : h.hbase ≠ 0)
include fits rep hpos hmax hbase

/-- `kmalloc` takes the first free block with sixteen octets to spare, or reports that
there is none. -/
theorem kmalloc_picks :
    (kmalloc abi h n = some (0, noteError h) ∧
      ∀ b ∈ bs, b.used = false → b.size < alignUp n + 16) ∨
    ∃ pre b post, bs = pre ++ b :: post ∧ b.used = false ∧ alignUp n + 16 ≤ b.size ∧
      (∀ x ∈ pre, x.used = false → x.size < alignUp n + 16) ∧
      kmalloc abi h n = some
      (takeBlock abi h (alignUp n) ((freeOffs pre).getLastD endOfList) b.off) := by
  have hgo : ¬ (n = 0 ∨ h.hbase = 0) := by omega
  have hsmaller : ∀ l : List Block, (∀ b ∈ l, HeaderOf h.mem b) →
      (∀ o ∈ freeOffs l, (hdrAt h.mem o).size < alignUp n + 16) →
      ∀ b ∈ l, b.used = false → b.size < alignUp n + 16 := by
    intro l headers hoffs b member free
    have := hoffs b.off (mem_freeOffs.mpr ⟨b, member, free, rfl⟩)
    rwa [(headers b member).size] at this
  rcases firstFit_spec abi h.mem (sizeT_request abi hmax) (freeOffs bs) walkFuel endOfList
      h.freeHead rep.chain (fun o member => fits.free_ne_end member) fits.free_length with
    ⟨hnone, hfew⟩ | ⟨front, o, back, hsplit, hfound, hfit, hfew⟩
  · exact Or.inl ⟨by simp only [kmalloc, if_neg hgo, hnone], hsmaller bs rep.headers hfew⟩
  · obtain ⟨pre, b, post, rfl, free, rfl, hfront, _⟩ := split_at_free hsplit
    rw [(rep.headers b (by simp)).size] at hfit
    refine Or.inr ⟨pre, b, post, rfl, free, hfit, ?_, ?_⟩
    · exact hsmaller pre (fun x member => rep.headers x (by simp [member])) (hfront ▸ hfew)
    · simp only [kmalloc, if_neg hgo, hfound, ← hfront]

theorem kmalloc_spec :
    (kmalloc abi h n = some (0, noteError h) ∧
      ∀ b ∈ bs, b.used = false → b.size < alignUp n + 16) ∨
    ∃ pre b post h', bs = pre ++ b :: post ∧ b.used = false ∧ alignUp n + 16 ≤ b.size ∧
      (∀ x ∈ pre, x.used = false → x.size < alignUp n + 16) ∧ kmalloc abi h n = some
      (h.hbase + b.off + 16, h') ∧
      h'.hbase = h.hbase ∧ h'.hsize = h.hsize ∧
      Represents h'.mem h'.freeHead (pre ++ carve hdrSize alignment (alignUp n) b ++ post) ∧
      ∀ i, InPayload bs i → h'.mem i = h.mem i := by
  obtain ⟨hal, _⟩ := alignUp_facts hpos (hmax.trans abi.maxRequest_bounds.2)
  refine (kmalloc_picks abi h fits rep hpos hmax hbase).imp_right ?_
  rintro ⟨pre, b, post, rfl, free, hfit, hfew, hok⟩
  have hbound := fits.bound (b := b) (by simp)
  have hsmall := fits.small
  obtain ⟨hp, hb, hs, hrep⟩ := takeBlock_spec abi h fits rep free hal (by omega) _ rfl
  refine ⟨pre, b, post, _, rfl, free, hfit, hfew, ?_, hb, hs, hrep, fun i held => ?_⟩
  · rw [hok, ← hp]
  · exact takeBlock_octet abi h fits rep free (by omega) held

end kmalloc

/-- The counters after a block of `size` octets is given back. -/
def HeapStats.returned (st : HeapStats) (size : Nat) : HeapStats :=
  { st with
    usedBytes := sub32 st.usedBytes size,
    freeBytes := u32 (st.freeBytes + size),
    freeCount := u32 (st.freeCount + 1) }

/-- The heap when `kfree` starts to look for the place of the block. -/
def marked (h : Heap) (b : Block) : Heap :=
  { memguardPoisonFree h (b.off + 16) b.size with
    st := h.st.returned b.size,
    mem := putUsed (putMagic (fill h.mem (b.off + 16) b.size poisonByte) b.off magicFree) b.off 0 }

/-- The payload is overwritten before the block is marked, which no header notices. -/
theorem poisoned_represents {extent : Nat} {head : Nat} (fits : Fits extent (pre ++ b :: post))
    (rep : Represents m head (pre ++ b :: post)) :
    Represents (fill m (b.off + 16) b.size poisonByte) head (pre ++ b :: post) :=
  payload_represents fits rep (by simp) fun i hi => fill_outside _ _ hi

/-- `kfree` of a block in use marks it and links it in between its free neighbours. -/
theorem kfree_eq (h : Heap) (fits : Fits h.hsize (pre ++ b :: post))
    (rep : Represents h.mem h.freeHead (pre ++ b :: post)) (used : b.used = true) :
    kfree abi h (h.hbase + b.off + 16) = some (insertFree abi (marked h b) b.off
      ((freeOffs pre).getLastD endOfList) ((freeOffs post).headD endOfList)) := by
  have hbound := fits.bound (b := b) (by simp)
  have hsmall := fits.small
  have header := rep.headers b (by simp)
  have hoff : offsetOf h (h.hbase + b.off + 16) = b.off := by
    simp only [offsetOf, hdrSize]
    omega
  have hrange : ¬ (2147483648 ≤ b.off ∨ h.hsize ≤ b.off) := by omega
  have hlive : ¬ ((hdrAt h.mem b.off).magic ≠ magicUsed ∨ (hdrAt h.mem b.off).used = 0) := by
    rw [header.magic, header.used, used]
    simp
  have hpay : h.hbase + b.off + 16 - h.hbase = b.off + 16 := by omega
  have poisoned := poisoned_represents fits rep
  have around := fits.around
  have hchain : Linked (nextOf (marked h b).mem) h.freeHead (freeOffs pre ++ freeOffs post)
      endOfList := by
    have chain := poisoned.chain
    rw [freeOffs_append, freeOffs_cons_used used] at chain
    refine chain.congr fun o member => ?_
    have ho : o % 16 = 0 ∧ o ≠ b.off := by
      rcases List.mem_append.mp member with inPre | inPost
      · have := around.free_before inPre
        omega
      · have := around.free_after inPost
        omega
    simp only [nextOf, marked]
    rw [hdrAt_putUsed _ _ _ _ around.self ho.1, hdrAt_putMagic _ _ _ _ around.self ho.1]
    simp only [if_neg ho.2]
  have hwalk := insertWalk_around fits hchain
  have hptr : h.hbase + b.off + 16 ≠ 0 := by omega
  have hsize := header.size
  have hsize' := (poisoned.headers b (by simp)).size
  simp only [marked] at hwalk
  simp only [kfree, if_neg hptr, hoff, if_neg hrange, if_neg hlive, hpay, memguardPoisonFree, hsize,
    hsize', hwalk]
  rfl

theorem kfree_spec (h : Heap) (fits : Fits h.hsize (pre ++ b :: post))
    (rep : Represents h.mem h.freeHead (pre ++ b :: post)) (used : b.used = true) :
    ∃ h', kfree abi h (h.hbase + b.off + 16) = some h' ∧ h'.hbase = h.hbase ∧ h'.hsize = h.hsize ∧
      h'.st = h.st.returned b.size ∧ Represents h'.mem h'.freeHead (release hdrSize pre b post) ∧
      ∀ i, InPayload (pre ++ post) i → h'.mem i = h.mem i := by
  obtain ⟨hb, hs, hst, _, hrep⟩ :=
    insertFree_spec abi (marked h b) fits (poisoned_represents fits rep) used rfl rfl _ rfl
  refine ⟨_, kfree_eq abi h fits rep used, hb, hs, hst, hrep, fun i held => ?_⟩
  have apart := fits.block_apart held
  have prev : (freeOffs pre).getLastD endOfList ≠ endOfList →
      i < (freeOffs pre).getLastD endOfList ∨ (freeOffs pre).getLastD endOfList + 16 ≤ i := by
    intro going
    obtain ⟨y, hy, _, hyoff⟩ := mem_freeOffs.mp (getLastD_mem going)
    obtain ⟨x, hx, range⟩ := held
    rw [← hyoff]
    apply fits.header_apart (by simp [hy])
    refine ⟨x, ?_, range⟩
    simp only [usedBlocks_append, List.mem_append] at hx ⊢
    exact hx.imp_right fun inPost => by simp [usedBlocks, used] at inPost ⊢; tauto
  rw [insertFree_octet abi _ (by omega) prev]
  simp only [marked, putUsed, putMagic]
  rw [put32_field _ (by omega) (by omega), put32_outside _ _ (by omega),
    fill_outside _ _ (by omega)]

/-! ## The allocator and its clients -/

/-- `live` holds the pointers handed out and not yet freed, with the size asked for. -/
structure Sys where
  heap : Heap
  live : List (Nat × Nat)

inductive Op where
  | kmalloc (n : Nat)
  | kfree (p : Nat)
  | store (p i : Nat) (v : UInt8)
  deriving DecidableEq, Repr

def Sys.step (abi : Abi) (s : Sys) : Op → Option Sys
  | .kmalloc n => (kmalloc abi s.heap n).map fun r =>
      ⟨r.2, if r.1 = 0 then s.live else (r.1, n) :: s.live⟩
  | .kfree p => (kfree abi s.heap p).map fun h => ⟨h, s.live.filter fun e => e.1 ≠ p⟩
  | .store p i v =>
      some { s with heap := { s.heap with mem := put8 s.heap.mem (p - s.heap.hbase + i) v.toNat } }

/-- Clients ask for 1 to 2^31 octets, free pointers they hold and write inside what they
asked for. -/
def Sys.Admits (s : Sys) : Op → Prop
  | .kmalloc n => 1 ≤ n ∧ n ≤ 2147483648
  | .kfree p => p ∈ s.live.map Prod.fst
  | .store p i _ => ∃ e ∈ s.live, e.1 = p ∧ i < e.2

instance (s : Sys) (op : Op) : Decidable (s.Admits op) :=
  match op with
  | .kmalloc n => inferInstanceAs (Decidable (1 ≤ n ∧ n ≤ 2147483648))
  | .kfree p => inferInstanceAs (Decidable (p ∈ s.live.map Prod.fst))
  | .store p i _ => inferInstanceAs (Decidable (∃ e ∈ s.live, e.1 = p ∧ i < e.2))

def boot (h : Heap) (base size : Nat) : Sys := ⟨(heapInit h base size).2, []⟩

/-- Pointer to the payload of a block. -/
def payloadPtr (base : Nat) (b : Block) : Nat := base + b.off + 16

structure SysInv (base size : Nat) (s : Sys) (bs : List Block) : Prop where
  hbase : s.heap.hbase = base
  hsize : s.heap.hsize = size
  small : size < 2147483648
  layout : Layout hdrSize alignment size bs
  rep : Represents s.heap.mem s.heap.freeHead bs
  held : (s.live.map Prod.fst).Perm ((usedBlocks bs).map (payloadPtr base))
  room : ∀ e ∈ s.live, ∃ b ∈ usedBlocks bs, e.1 = payloadPtr base b ∧ e.2 ≤ b.size

theorem SysInv.fits (inv : SysInv base size s bs) : Fits size bs := .of_layout inv.layout inv.small

theorem boot_rounded (h : Heap) (base : Nat) (hmin : 32 ≤ alignUp size)
    (hmax : alignUp size < 2147483648) :
    SysInv (alignUp base) (alignUp size) (boot h base size) [⟨0, alignUp size - 16, false⟩] := by
  obtain ⟨hb, hs, hrep⟩ := heapInit_spec h base hmin hmax
  have hal : alignUp size % 16 = 0 := alignUp_aligned size
  refine ⟨hb, hs, hmax, ⟨?_, fun b member => ?_, List.isChain_singleton _⟩, hrep, ?_, ?_⟩
  · refine ⟨rfl, ?_⟩
    simp only [Block.stop, hdrSize, Tiles]
    omega
  · rw [List.mem_singleton] at member
    subst member
    simp only [alignment]
    omega
  · exact List.Perm.refl _
  · intro e member
    simp [boot] at member

theorem boot_inv (h : Heap) (hbase : base % 16 = 0) (hlt : base < 4294967296)
    (hsize : size % 16 = 0) (hmin : 32 ≤ size) (hmax : size < 2147483648) :
    SysInv base size (boot h base size) [⟨0, size - 16, false⟩] := by
  have hb : alignUp base = base := alignUp_of_aligned hbase hlt
  have hs : alignUp size = size := alignUp_of_aligned hsize (by omega)
  have inv := boot_rounded h base (show 32 ≤ alignUp size by omega) (by omega)
  rwa [hb, hs] at inv

theorem SysInv.block_of_held (inv : SysInv base size s bs) (member : p ∈ s.live.map Prod.fst) :
    ∃ pre b post, bs = pre ++ b :: post ∧ b.used = true ∧ p = payloadPtr base b := by
  obtain ⟨b, hb, rfl⟩ := List.mem_map.mp (inv.held.mem_iff.mp member)
  obtain ⟨hmem, used⟩ := mem_usedBlocks.mp hb
  obtain ⟨pre, post, rfl⟩ := List.append_of_mem hmem
  exact ⟨pre, b, post, rfl, used, rfl⟩

/-- Block `x` is in use in `bs`, and its payload has the same octets in both memories. -/
structure Stays (m m' : Bytes) (bs : List Block) (x : Block) : Prop where
  used : x ∈ usedBlocks bs
  octets : ∀ i, x.off + 16 ≤ i → i < x.off + 16 + x.size → m' i = m i

theorem Stays.trans {m'' : Bytes} {bs bs' : List Block} {x : Block} (first : Stays m m' bs x)
    (second : Stays m' m'' bs' x) : Stays m m'' bs' x :=
  ⟨second.used, fun i lo hi => (second.octets i lo hi).trans (first.octets i lo hi)⟩

/-- The request does not wrap, or there is no heap or no free block to serve it from. -/
def Heap.Serves (abi : Abi) (h : Heap) (n : Nat) : Prop :=
  n ≤ abi.maxRequest ∨ h.hbase = 0 ∨ h.freeHead = endOfList

instance (abi : Abi) (h : Heap) (n : Nat) : Decidable (h.Serves abi n) :=
  inferInstanceAs (Decidable (n ≤ abi.maxRequest ∨ h.hbase = 0 ∨ h.freeHead = endOfList))

theorem Heap.serves_small (h : Heap) (hmax : n ≤ 2147483648) : h.Serves abi n :=
  Or.inl (hmax.trans abi.maxRequest_bounds.1)

/-- A request that is served: nothing is handed out, or the first free block that is large
enough is taken. -/
theorem kmalloc_cases (h : Heap) (fits : Fits h.hsize bs) (rep : Represents h.mem h.freeHead bs)
    (serves : h.Serves abi n) :
    (kmalloc abi h n = some (0, h) ∨ kmalloc abi h n = some (0, noteError h)) ∨
    ∃ pre b post, bs = pre ++ b :: post ∧ b.used = false ∧ 1 ≤ n ∧ n ≤ 4294967280 ∧
    alignUp n + 16 ≤ b.size ∧
      kmalloc abi h n = some
      (takeBlock abi h (alignUp n) ((freeOffs pre).getLastD endOfList) b.off) := by
  by_cases hnull : n = 0 ∨ h.hbase = 0
  · exact Or.inl (Or.inl (if_pos hnull))
  by_cases empty : h.freeHead = endOfList
  · have hnone : firstFit abi h.mem (alignUp n) walkFuel endOfList endOfList = some none := by
      rw [show walkFuel = 4294967295 + 1 from rfl, firstFit, if_pos rfl]
    exact Or.inl (Or.inr (by simp only [kmalloc, if_neg hnull, empty, hnone]))
  have hmax : n ≤ abi.maxRequest := serves.resolve_right (by tauto)
  rcases kmalloc_picks abi h fits rep (by omega) hmax (by omega) with
    ⟨hfail, _⟩ | ⟨pre, b, post, hbs, free, hfit, _, hok⟩
  · exact Or.inl (Or.inr hfail)
  · exact Or.inr ⟨pre, b, post, hbs, free, by omega, hmax.trans abi.maxRequest_bounds.2, hfit, hok⟩

/-- `kmalloc` returns; every block in use stays, and a pointer it returns is the payload of
one more block, at least as large as asked for. -/
theorem kmalloc_inv (inv : SysInv base size s bs) (serves : s.heap.Serves abi n) :
    ∃ r h' bs', kmalloc abi s.heap n = some (r, h') ∧
      SysInv base size ⟨h', if r = 0 then s.live else (r, n) :: s.live⟩ bs' ∧
      (∀ x ∈ usedBlocks bs, Stays s.heap.mem h'.mem bs' x) ∧
      (r ≠ 0 → ∃ y ∈ usedBlocks bs', r = payloadPtr base y ∧ n ≤ y.size) := by
  have hb := inv.hbase
  have hs := inv.hsize
  have fits : Fits s.heap.hsize bs := hs ▸ inv.fits
  rcases kmalloc_cases abi s.heap fits inv.rep serves with (hfail | hfail) |
    ⟨pre, b, post, rfl, free, hpos, hmax, hfit, htake⟩
  · exact ⟨0, s.heap, bs, hfail, inv, fun x hx => ⟨hx, fun _ _ _ => rfl⟩, fun taken =>
      absurd rfl taken⟩
  · exact ⟨0, noteError s.heap, bs, hfail, ⟨hb, hs, inv.small, inv.layout, inv.rep,
      inv.held, inv.room⟩,
      fun x hx => ⟨hx, fun _ _ _ => rfl⟩, fun taken => absurd rfl taken⟩
  · have hbound := fits.bound (b := b) (by simp)
    have hsmall := fits.small
    obtain ⟨hal, hmin, hge, _⟩ := alignUp_facts hpos hmax
    obtain ⟨hp, hb', hs', hrep⟩ := takeBlock_spec abi s.heap fits inv.rep free hal (by omega) _ rfl
    have hkept : ∀ i, InPayload (pre ++ b :: post) i →
        (takeBlock abi s.heap (alignUp n) ((freeOffs pre).getLastD endOfList) b.off).2.mem i =
            s.heap.mem i :=
      fun i held => takeBlock_octet abi s.heap fits inv.rep free (by omega) held
    generalize takeBlock abi s.heap (alignUp n) ((freeOffs pre).getLastD endOfList) b.off =
      taken at *
    obtain ⟨r, h'⟩ := taken
    subst hp
    obtain ⟨k, hused, hk⟩ := usedBlocks_carve hdrSize alignment (alignUp n) b
    have hold : usedBlocks (pre ++ b :: post) = usedBlocks pre ++ usedBlocks post := by
      simp [usedBlocks, free]
    have hnew : usedBlocks (pre ++ carve hdrSize alignment (alignUp n) b ++ post) =
        usedBlocks pre ++ ⟨b.off, k, true⟩ :: usedBlocks post := by
      simp [hused]
    have hmore : ∀ x ∈ usedBlocks (pre ++ b :: post),
        x ∈ usedBlocks (pre ++ carve hdrSize alignment (alignUp n) b ++ post) := by
      intro x hx
      rw [hold] at hx
      rw [hnew]
      exact mem_middle.mpr (Or.inr hx)
    have hptr : s.heap.hbase + b.off + 16 ≠ 0 := by omega
    have hp : payloadPtr base ⟨b.off, k, true⟩ = s.heap.hbase + b.off + 16 := by
      rw [hb]
      rfl
    have taken : (⟨b.off, k, true⟩ : Block) ∈
        usedBlocks (pre ++ carve hdrSize alignment (alignUp n) b ++ post) := by
      rw [hnew]
      exact mem_middle.mpr (Or.inl rfl)
    have large : n ≤ k := hge.trans (hk (by omega))
    refine ⟨_, h', _, htake, ?_, fun x hx => ⟨hmore x hx, fun i lo hi => hkept i ⟨x, hx, lo, hi⟩⟩,
      fun _ => ⟨_, taken, hp.symm, large⟩⟩
    rw [if_neg hptr]
    refine ⟨hb'.trans hb, hs'.trans hs, inv.small, inv.layout.carve free hal hmin (by rfl),
      hrep, ?_, ?_⟩
    · rw [hnew, List.map_append, List.map_cons, List.map_cons]
      have hheld := inv.held
      rw [hold, List.map_append] at hheld
      rw [hp]
      exact (hheld.cons _).trans List.perm_middle.symm
    · intro e member
      rcases List.mem_cons.mp member with rfl | member
      · exact ⟨_, taken, hp.symm, large⟩
      · obtain ⟨x, hx, hx', hle⟩ := inv.room e member
        exact ⟨x, hmore x hx, hx', hle⟩

/-- `kfree` of a pointer that is held returns, and every other block in use stays. -/
theorem kfree_inv (inv : SysInv base size s bs) (member : p ∈ s.live.map Prod.fst) :
    ∃ h' bs', kfree abi s.heap p = some h' ∧
    SysInv base size ⟨h', s.live.filter fun e => e.1 ≠ p⟩ bs' ∧
      ∀ x ∈ usedBlocks bs, payloadPtr base x ≠ p → Stays s.heap.mem h'.mem bs' x := by
  obtain ⟨pre, b, post, rfl, used, rfl⟩ := inv.block_of_held member
  have hb := inv.hbase
  have hs := inv.hsize
  have fits : Fits s.heap.hsize (pre ++ b :: post) := hs ▸ inv.fits
  obtain ⟨h', hok, hb', hs', _, hrep, hkept⟩ := kfree_spec abi s.heap fits inv.rep used
  have hptr : payloadPtr base b = s.heap.hbase + b.off + 16 := by rw [hb]; rfl
  have hold : usedBlocks (pre ++ b :: post) = usedBlocks pre ++ b :: usedBlocks post := by
    simp [usedBlocks, used]
  -- no other block in use has this payload pointer
  have hother : ∀ x ∈ usedBlocks pre ++ usedBlocks post, payloadPtr base x ≠ payloadPtr base b := by
    intro x hx hsame
    have hx' : x ∈ pre ++ post := by
      rw [← usedBlocks_append] at hx
      exact (mem_usedBlocks.mp hx).1
    have := (fits.around.other hx').2
    simp only [payloadPtr] at hsame
    omega
  have hrest : ∀ x ∈ usedBlocks (pre ++ b :: post), payloadPtr base x ≠ payloadPtr base b →
      x ∈ usedBlocks pre ++ usedBlocks post := by
    intro x hx hne
    rw [hold] at hx
    rcases mem_middle.mp hx with rfl | hx
    · exact absurd rfl hne
    · exact hx
  refine ⟨h', release hdrSize pre b post, by rw [hptr, hok],
    ⟨hb'.trans hb, hs'.trans hs, inv.small, inv.layout.release (by rfl), hrep, ?_, ?_⟩, ?_⟩
  · have hmap : (s.live.filter fun e => e.1 ≠ payloadPtr base b).map Prod.fst =
        (s.live.map Prod.fst).filter fun q => q ≠ payloadPtr base b := by
      rw [List.filter_map]
      rfl
    have hheld := inv.held.filter fun q => q ≠ payloadPtr base b
    rw [hold, List.map_append, List.map_cons, List.filter_append,
      List.filter_cons_of_neg (by simp), ← List.filter_append, ← List.map_append] at hheld
    rw [hmap, usedBlocks_release]
    refine hheld.trans (List.Perm.of_eq (List.filter_eq_self.mpr fun q hq => ?_))
    obtain ⟨x, hx, rfl⟩ := List.mem_map.mp hq
    simpa using hother x hx
  · intro e he
    obtain ⟨hlive, hne⟩ := List.mem_filter.mp he
    obtain ⟨x, hx, hp, hle⟩ := inv.room e hlive
    rw [usedBlocks_release]
    exact ⟨x, hrest x hx (by simpa [hp] using hne), hp, hle⟩
  · intro x hx hne
    have inside := hrest x hx hne
    refine ⟨by rwa [usedBlocks_release], fun i lo hi => hkept i ⟨x, ?_, lo, hi⟩⟩
    rwa [usedBlocks_append]

/-- Writes inside the payload of a block in use keep the invariant and every other block. -/
theorem SysInv.write (inv : SysInv base size s bs) {b : Block} (hb : b ∈ usedBlocks bs)
    (same : ∀ i, i < b.off + 16 ∨ b.off + 16 + b.size ≤ i → m' i = s.heap.mem i) :
    SysInv base size ⟨{ s.heap with mem := m' }, s.live⟩ bs ∧
      ∀ x ∈ usedBlocks bs, payloadPtr base x ≠ payloadPtr base b → Stays s.heap.mem m' bs x := by
  have member := (mem_usedBlocks.mp hb).1
  refine ⟨⟨inv.hbase, inv.hsize, inv.small, inv.layout,
    payload_represents inv.fits inv.rep member same,
    inv.held, inv.room⟩, fun x hx hne => ⟨hx, fun i lo hi => same i ?_⟩⟩
  obtain ⟨pre, post, rfl⟩ := List.append_of_mem member
  obtain ⟨inside, used⟩ := mem_usedBlocks.mp hx
  rcases mem_middle.mp inside with rfl | elsewhere
  · exact absurd rfl hne
  · have := inv.fits.block_apart ⟨x, mem_usedBlocks.mpr ⟨elsewhere, used⟩, lo, hi⟩
    omega

theorem store_inv (inv : SysInv base size s bs) {i : Nat} {v : UInt8}
    (admitted : ∃ e ∈ s.live, e.1 = p ∧ i < e.2) :
    SysInv base size ⟨{ s.heap with mem := put8 s.heap.mem (p - s.heap.hbase + i) v.toNat }, s.live⟩
    bs ∧
      ∀ x ∈ usedBlocks bs, payloadPtr base x ≠ p →
        Stays s.heap.mem (put8 s.heap.mem (p - s.heap.hbase + i) v.toNat) bs x := by
  obtain ⟨e, hlive, rfl, hi⟩ := admitted
  obtain ⟨b, hb, hp, hle⟩ := inv.room _ hlive
  rw [hp]
  refine inv.write hb fun j hj => ?_
  have hbase := inv.hbase
  have hne : j ≠ payloadPtr base b - s.heap.hbase + i := by
    simp only [payloadPtr] at hp hle ⊢
    omega
  simp only [put8, if_neg hne]

theorem step_inv (inv : SysInv base size s bs) {op : Op} (admitted : s.Admits op) :
    ∃ next bs', s.step abi op = some next ∧ SysInv base size next bs' := by
  cases op with
  | kmalloc n =>
    obtain ⟨r, h', bs', hok, inv', _⟩ := kmalloc_inv abi inv (s.heap.serves_small abi admitted.2)
    exact ⟨_, bs', by simp [Sys.step, hok], inv'⟩
  | kfree p =>
    obtain ⟨h', bs', hok, inv', _⟩ := kfree_inv abi inv admitted
    exact ⟨_, bs', by simp only [Sys.step, hok, Option.map_some], inv'⟩
  | store p i v => exact ⟨_, bs, rfl, (store_inv inv admitted).1⟩

theorem run_inv {s final : Sys} {ops : List Op} (run : Run (Sys.step abi) Sys.Admits s ops final)
    (inv : SysInv base size s bs) : ∃ bs', SysInv base size final bs' := by
  refine run.invariant (fun s => ∃ bs, SysInv base size s bs) ?_ ⟨bs, inv⟩
  rintro s op next ⟨bs, inv⟩ admitted returned
  obtain ⟨next', bs', hstep, inv'⟩ := step_inv abi inv admitted
  rw [returned] at hstep
  cases hstep
  exact ⟨bs', inv'⟩

end Obsidian.Mm.HeapC
