import Obsidian.Mm.HeapCRuns

/-!
# What holds in every reachable heap state

The statements below speak about the octets of the region only: the walk over
the headers, the list threaded through `next_off`, and the pointers in client
hands. They are read off the abstract block list of `SysInv`.
-/
namespace Obsidian.Mm.HeapC
open Lib Lib.Bytes Lib.Tiling

variable {bs : List Block} {base size : Nat} {s : Sys}

/-- Walking headers from `off` in steps of header plus recorded size visits `offs` and
stops exactly at `stop`. -/
def Walks (m : Bytes) : Nat → List Nat → Nat → Prop
  | off, [], stop => off = stop
  | off, o :: rest, stop => o = off ∧ Walks m (o + 16 + (hdrAt m o).size) rest stop

def SaysFree (m : Bytes) (o : Nat) : Prop :=
  (hdrAt m o).magic = magicFree ∧ (hdrAt m o).used = 0

/-- Recorded size of the block behind a pointer. -/
def payloadSize (h : Heap) (p : Nat) : Nat := (hdrAt h.mem (p - h.hbase - 16)).size

/-- The free list visits `fl`, in increasing order, and `fl` is exactly the set of walked
headers that say free. -/
structure FreeListOver (h : Heap) (offs fl : List Nat) : Prop where
  chain : Linked (nextOf h.mem) h.freeHead fl endOfList
  increasing : fl.Pairwise (· < ·)
  exact_free : ∀ o, o ∈ fl ↔ o ∈ offs ∧ SaysFree h.mem o

/-- Payloads in client hands: aligned, inside the region, as large as asked for, each behind
a walked header, and pairwise disjoint. -/
structure PayloadsOk (s : Sys) (offs : List Nat) : Prop where
  each : ∀ e ∈ s.live, e.1 % 16 = 0 ∧ s.heap.hbase + 16 ≤ e.1 ∧
    e.1 + payloadSize s.heap e.1 ≤ s.heap.hbase + s.heap.hsize ∧
    e.2 ≤ payloadSize s.heap e.1 ∧ e.1 - s.heap.hbase - 16 ∈ offs
  disjoint : s.live.Pairwise fun e f =>
    e.1 + payloadSize s.heap e.1 ≤ f.1 ∨ f.1 + payloadSize s.heap f.1 ≤ e.1

theorem walks_of_tiles {m : Bytes} {lo hi : Nat} (htiles : Tiles hdrSize lo bs hi)
    (headers : ∀ b ∈ bs, HeaderOf m b) : Walks m lo (bs.map Block.off) hi := by
  induction bs generalizing lo with
  | nil => exact htiles
  | cons b rest ih =>
    obtain ⟨hoff, hrest⟩ := htiles
    refine ⟨hoff, ?_⟩
    have hsize := (headers b (by simp)).size
    rw [hsize]
    exact ih hrest fun x member => headers x (by simp [member])

theorem saysFree_iff {m : Bytes} {b : Block} (header : HeaderOf m b) :
    SaysFree m b.off ↔ b.used = false := by
  unfold SaysFree
  rw [header.magic, header.used]
  cases b.used with
  | true => simp [magicFree, magicUsed]
  | false => simp

section
variable (inv : SysInv base size s bs)
include inv

theorem SysInv.freeList : FreeListOver s.heap (bs.map Block.off) (freeOffs bs) := by
  refine ⟨inv.rep.chain, inv.fits.free_sorted, fun o => ?_⟩
  constructor
  · intro member
    obtain ⟨b, hb, free, rfl⟩ := mem_freeOffs.mp member
    exact ⟨List.mem_map.mpr ⟨b, hb, rfl⟩, (saysFree_iff (inv.rep.headers b hb)).mpr free⟩
  · rintro ⟨member, free⟩
    obtain ⟨b, hb, rfl⟩ := List.mem_map.mp member
    exact mem_freeOffs.mpr ⟨b, hb, (saysFree_iff (inv.rep.headers b hb)).mp free, rfl⟩

theorem SysInv.payloadSize_eq {b : Block} (member : b ∈ bs) :
    payloadSize s.heap (payloadPtr base b) = b.size := by
  have hoff : payloadPtr base b - s.heap.hbase - 16 = b.off := by
    rw [inv.hbase]
    simp only [payloadPtr]
    omega
  rw [payloadSize, hoff]
  exact (inv.rep.headers b member).size

theorem SysInv.payloads (haligned : base % 16 = 0) : PayloadsOk s (bs.map Block.off) := by
  have hb := inv.hbase
  have hs := inv.hsize
  refine ⟨fun e member => ?_, ?_⟩
  · obtain ⟨b, hused, hp, hle⟩ := inv.room e member
    have hmem := (mem_usedBlocks.mp hused).1
    have hbound := inv.fits.bound hmem
    have hal := inv.fits.aligned hmem
    rw [hp, inv.payloadSize_eq hmem]
    simp only [payloadPtr]
    refine ⟨by omega, by omega, by omega, hle, List.mem_map.mpr ⟨b, hmem, by omega⟩⟩
  · -- disjointness of the blocks, carried along the permutation to the pointers held
    let apart : Nat → Nat → Prop := fun p q =>
      p + payloadSize s.heap p ≤ q ∨ q + payloadSize s.heap q ≤ p
    have hblocks : ((usedBlocks bs).map (payloadPtr base)).Pairwise apart := by
      refine List.pairwise_map.mpr
        (List.Pairwise.imp_of_mem ?_ (inv.layout.tiles.pairwise.filter _))
      intro a b ha hb hstop
      refine Or.inl ?_
      rw [inv.payloadSize_eq (mem_usedBlocks.mp ha).1]
      simp only [payloadPtr, Block.stop, hdrSize] at hstop ⊢
      omega
    have hsymm : ∀ {p q : Nat}, apart p q → apart q p := fun h => h.symm
    have hheld := (inv.held.pairwise_iff hsymm).mpr hblocks
    exact List.pairwise_map.mp hheld

end

/-- In every state that any sequence of allocations, frees of held pointers and writes to
held payloads reaches after `heap_init`: the headers tile the region, the free list is the
increasing list of exactly the free blocks, held payloads are aligned, inside the region,
large enough and pairwise disjoint, and the next admitted call returns. -/
theorem reachable_heap_sound (abi : Abi) (h : Heap) (base size : Nat) (hbase : base % 16 = 0)
    (hlt : base < 4294967296) (hsize : size % 16 = 0) (hmin : 32 ≤ size) (hmax : size < 2147483648)
    (ops : List Op) (s : Sys) (run : Run (Sys.step abi) Sys.Admits (boot h base size) ops s) :
    (∃ offs fl, Walks s.heap.mem 0 offs s.heap.hsize ∧ FreeListOver s.heap offs fl ∧
      PayloadsOk s offs) ∧
    ∀ op, s.Admits op → ∃ next, s.step abi op = some next := by
  obtain ⟨bs, inv⟩ := run_inv abi run (boot_inv h hbase hlt hsize hmin hmax)
  refine ⟨⟨bs.map Block.off, freeOffs bs, ?_, inv.freeList, inv.payloads hbase⟩, ?_⟩
  · rw [inv.hsize]
    exact walks_of_tiles inv.layout.tiles inv.rep.headers
  · intro op admitted
    obtain ⟨next, _, hstep, _⟩ := step_inv abi inv admitted
    exact ⟨next, hstep⟩

/-- A four-KiB heap at 1 MiB with uninitialised (here zero) octets. -/
def sampleHeap : Heap := ⟨0, 0, endOfList, {}, {}, zero⟩

/-- Two allocations and a free of the first: the hypotheses are met and the run exists. -/
theorem reachable_heap_sound_sample :
    ∃ s, Run (Sys.step .ilp32) Sys.Admits (boot sampleHeap 0x100000 4096)
      [.kmalloc 100, .kmalloc 40, .kfree 0x100010] s ∧
      (∃ offs fl, Walks s.heap.mem 0 offs s.heap.hsize ∧ FreeListOver s.heap offs fl ∧
        PayloadsOk s offs) := by
  obtain ⟨s, run⟩ : ∃ s, Run (Sys.step .ilp32) Sys.Admits (boot sampleHeap 0x100000 4096)
      [.kmalloc 100, .kmalloc 40, .kfree 0x100010] s := Run.exists_of_exec (by decide)
  exact ⟨s, run, (reachable_heap_sound .ilp32 sampleHeap 0x100000 4096 (by decide) (by decide)
    (by decide) (by decide) (by decide) _ s run).1⟩

/-! ## Coalescing -/

/-- Of two headers that follow each other in the walk at most one says free. -/
def NoFreeNeighbours (m : Bytes) (offs : List Nat) : Prop :=
  offs.IsChain fun o p => ¬ (SaysFree m o ∧ SaysFree m p)

/-- One free block spans the region and is the whole free list. -/
def WholeRegionFree (h : Heap) : Prop :=
  h.freeHead = 0 ∧ hdrAt h.mem 0 = ⟨magicFree, h.hsize - 16, endOfList, 0⟩

theorem noFreeNeighbours_of_coalesced {m : Bytes} {bs : List Block} (coalesced : Coalesced bs)
    (headers : ∀ b ∈ bs, HeaderOf m b) : NoFreeNeighbours m (bs.map Block.off) := by
  unfold NoFreeNeighbours
  rw [List.isChain_map]
  refine List.IsChain.imp_of_mem_imp ?_ coalesced
  intro a b ha hb hused hfree
  have hfa := (saysFree_iff (headers a ha)).mp hfree.1
  have hfb := (saysFree_iff (headers b hb)).mp hfree.2
  simp [hfa, hfb] at hused

theorem SysInv.live_nodup (inv : SysInv base size s bs) : (s.live.map Prod.fst).Nodup := by
  rw [inv.held.nodup_iff]
  refine List.pairwise_map.mpr ((inv.layout.tiles.pairwise.filter _).imp ?_)
  intro a b hstop
  simp only [Block.stop, hdrSize, payloadPtr] at hstop ⊢
  omega

theorem SysInv.wholeRegionFree (inv : SysInv base size s bs) (hmin : 0 < size)
    (hnone : s.live = []) : WholeRegionFree s.heap := by
  have hunused : usedBlocks bs = [] := by
    have hheld := inv.held
    rw [hnone] at hheld
    exact List.map_eq_nil_iff.mp (List.nil_perm.mp hheld)
  have hone := inv.layout.all_free hmin hunused
  subst hone
  have header := inv.rep.headers ⟨0, size - hdrSize, false⟩ (by simp)
  obtain ⟨hhead, hnext⟩ := inv.rep.chain
  refine ⟨hhead, ?_⟩
  rw [inv.hsize, BlockHdr.mk.injEq]
  exact ⟨header.magic, header.size, hnext, header.used⟩

theorem SysInv.free_all (abi : Abi) {order : List Nat} (inv : SysInv base size s bs)
    (horder : order.Perm (s.live.map Prod.fst)) :
    ∃ final bs', Run (Sys.step abi) Sys.Admits s (order.map Op.kfree) final ∧
      SysInv base size final bs' ∧ final.live = [] := by
  -- one free per element of `order`; the rest of `order` is what stays held
  induction order generalizing s bs with
  | nil => exact ⟨s, bs, .done s, inv, List.map_eq_nil_iff.mp (List.nil_perm.mp horder)⟩
  | cons p rest ih =>
    have member : p ∈ s.live.map Prod.fst := horder.mem_iff.mp (by simp)
    obtain ⟨h', bs', hok, inv', _⟩ := kfree_inv abi inv member
    have hstep : s.step abi (.kfree p) = some ⟨h', s.live.filter fun e => e.1 ≠ p⟩ := by
      simp only [Sys.step, hok, Option.map_some]
    have hrest : rest.Perm ((s.live.filter fun e => e.1 ≠ p).map Prod.fst) := by
      have hnodup : (p :: rest).Nodup := horder.nodup_iff.mpr inv.live_nodup
      have hfiltered := horder.filter fun q => q ≠ p
      rw [List.filter_cons_of_neg (by simp), List.filter_eq_self.mpr, List.filter_map] at hfiltered
      · exact hfiltered
      · intro q hq
        have : q ≠ p := fun same => (List.nodup_cons.mp hnodup).1 (same ▸ hq)
        simpa using this
    obtain ⟨final, bs'', run, inv'', hnone⟩ := ih inv' hrest
    exact ⟨final, bs'', .call member hstep run, inv'', hnone⟩

/-- No reachable state has two neighbouring free blocks, and from every reachable state
freeing all held pointers, in whatever order, ends with one free block over the region. -/
theorem coalescing_complete (abi : Abi) (h : Heap) (base size : Nat) (hbase : base % 16 = 0)
    (hlt : base < 4294967296) (hsize : size % 16 = 0) (hmin : 32 ≤ size) (hmax : size < 2147483648)
    (ops : List Op) (s : Sys) (run : Run (Sys.step abi) Sys.Admits (boot h base size) ops s) :
    (∃ offs, Walks s.heap.mem 0 offs s.heap.hsize ∧ NoFreeNeighbours s.heap.mem offs) ∧
    ∀ order : List Nat, order.Perm (s.live.map Prod.fst) →
      ∃ final, Run (Sys.step abi) Sys.Admits s (order.map Op.kfree) final ∧
        final.live = [] ∧ final.heap.hsize = size ∧ WholeRegionFree final.heap := by
  obtain ⟨bs, inv⟩ := run_inv abi run (boot_inv h hbase hlt hsize hmin hmax)
  constructor
  · refine ⟨bs.map Block.off, ?_, noFreeNeighbours_of_coalesced inv.layout.coalesced
      inv.rep.headers⟩
    rw [inv.hsize]
    exact walks_of_tiles inv.layout.tiles inv.rep.headers
  · intro order horder
    obtain ⟨final, bs', run', inv', hnone⟩ := inv.free_all abi horder
    exact ⟨final, run', hnone, inv'.hsize, inv'.wholeRegionFree (by omega) hnone⟩

/-- Three allocations and a free between them; the two pointers left are freed second one
first. -/
theorem coalescing_complete_sample :
    ∃ s, Run (Sys.step .lp64) Sys.Admits (boot sampleHeap 0x100000 4096)
      [.kmalloc 100, .kmalloc 40, .kmalloc 24, .kfree 0x100090] s ∧
      (∃ offs, Walks s.heap.mem 0 offs s.heap.hsize ∧ NoFreeNeighbours s.heap.mem offs) ∧
      ∃ final, Run (Sys.step .lp64) Sys.Admits s [.kfree 0x1000d0, .kfree 0x100010] final ∧
        WholeRegionFree final.heap := by
  have hexec : ((exec (Sys.step .lp64) Sys.Admits (boot sampleHeap 0x100000 4096)
      [.kmalloc 100, .kmalloc 40, .kmalloc 24, .kfree 0x100090]).map Sys.live) =
        some [(0x1000d0, 24), (0x100010, 100)] := by decide
  obtain ⟨s, hs, hlive⟩ := Option.map_eq_some_iff.mp hexec
  obtain ⟨hwalk, hall⟩ := coalescing_complete .lp64 sampleHeap 0x100000 4096 (by decide) (by decide)
    (by decide) (by decide) (by decide) _ s (Run.of_exec hs)
  obtain ⟨final, run, _, _, hwhole⟩ := hall [0x1000d0, 0x100010] (by rw [hlive]; rfl)
  exact ⟨s, Run.of_exec hs, hwalk, final, run, hwhole⟩

end Obsidian.Mm.HeapC
