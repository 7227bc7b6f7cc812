import Obsidian.Mm.HeapCCalls

/-!
# Client data and first fit

Both results are about every state that the calls of `HeapCCalls` reach after
`heap_init`, and speak about the octets of the region only. A pointer is live
when the walk over the headers meets its block and the header says it is in use.
-/
namespace Obsidian.Mm.HeapC
open Lib Lib.Bytes Lib.Tiling

variable {bs bs' : List Block} {base size : Nat} {s s' : Sys}

/-! ## Live pointers -/

variable {m : Bytes} {need off stop : Nat} {offs : List Nat}

theorem Walks.le (walk : Walks m off offs stop) : off ≤ stop := by
  induction offs generalizing off with
  | nil => exact Nat.le_of_eq walk
  | cons o rest ih =>
    obtain ⟨here, more⟩ := walk
    have := ih more
    omega

theorem Walks.unique {offs' : List Nat} (walk : Walks m off offs stop)
    (walk' : Walks m off offs' stop) :
    offs = offs' := by
  induction offs generalizing off offs' with
  | nil =>
    cases offs' with
    | nil => rfl
    | cons o' rest' =>
      have here : off = stop := walk
      have := walk'.1
      have := walk'.2.le
      omega
  | cons o rest ih =>
    obtain ⟨rfl, more⟩ := walk
    cases offs' with
    | nil =>
      have here : o = stop := walk'
      have := more.le
      omega
    | cons o' rest' =>
      obtain ⟨rfl, more'⟩ := walk'
      rw [ih more more']

section
variable (inv : SysInv base size s bs)
include inv

theorem SysInv.walks : Walks s.heap.mem 0 (bs.map Block.off) s.heap.hsize := by
  rw [inv.hsize]
  exact walks_of_tiles inv.layout.tiles inv.rep.headers

def Live (h : Heap) (p : Nat) : Prop :=
  ∃ offs, Walks h.mem 0 offs h.hsize ∧ ∃ o ∈ offs, ¬ SaysFree h.mem o ∧ p = h.hbase + o + 16

theorem SysInv.live_iff {p : Nat} : Live s.heap p ↔ p ∈ s.live.map Prod.fst := by
  constructor
  · rintro ⟨offs, walk, o, member, busy, rfl⟩
    rw [walk.unique inv.walks] at member
    obtain ⟨b, hb, rfl⟩ := List.mem_map.mp member
    rw [saysFree_iff (inv.rep.headers b hb), Bool.not_eq_false] at busy
    have held := inv.held_of_used (mem_usedBlocks.mpr ⟨hb, busy⟩)
    rwa [← inv.hbase] at held
  · intro held
    obtain ⟨b, hb, rfl⟩ := List.mem_map.mp (inv.held.mem_iff.mp held)
    obtain ⟨member, busy⟩ := mem_usedBlocks.mp hb
    refine ⟨_, inv.walks, b.off, List.mem_map_of_mem member, ?_, by rw [inv.hbase]; rfl⟩
    rw [saysFree_iff (inv.rep.headers b member), busy]
    exact Bool.noConfusion

theorem SysInv.block_of_live {p : Nat} (live : Live s.heap p) :
    ∃ x ∈ usedBlocks bs, p = payloadPtr base x := by
  obtain ⟨x, hx, same⟩ := List.mem_map.mp (inv.held.mem_iff.mp (inv.live_iff.mp live))
  exact ⟨x, hx, same.symm⟩

/-! ## Data -/

def payloadByte (h : Heap) (p i : Nat) : UInt8 := h.mem (p - h.hbase + i)

/-- `p` is live in `h'` with the payload it has in `h`. -/
structure SameData (h h' : Heap) (p : Nat) : Prop where
  live : Live h' p
  size : payloadSize h' p = payloadSize h p
  data : ∀ i < payloadSize h p, payloadByte h' p i = payloadByte h p i

theorem SysInv.payloadByte_eq (x : Block) (i : Nat) :
    payloadByte s.heap (payloadPtr base x) i = s.heap.mem (x.off + 16 + i) := by
  have : payloadPtr base x - s.heap.hbase + i = x.off + 16 + i := by
    rw [inv.hbase, payloadPtr]
    omega
  rw [payloadByte, this]

end

theorem Stays.sameData {x : Block} (stays : Stays s.heap.mem s'.heap.mem bs' x)
    (inv : SysInv base size s bs) (inv' : SysInv base size s' bs') (hx : x ∈ usedBlocks bs) :
    SameData s.heap s'.heap (payloadPtr base x) := by
  have size := inv.payloadSize_eq (mem_usedBlocks.mp hx).1
  refine ⟨inv'.live_iff.mpr (inv'.held_of_used stays.used), ?_, fun i hi => ?_⟩
  · rw [size, inv'.payloadSize_eq (mem_usedBlocks.mp stays.used).1]
  · rw [inv.payloadByte_eq, inv'.payloadByte_eq]
    exact stays.octets _ (by omega) (by omega)

/-- In every state reachable after `heap_init`, the payload of a live pointer survives every
run of calls that are not applied to it. `krealloc` of it either returns NULL and changes no
live payload, or moves its data to a new payload, releases it and changes no other live
payload. Every allowed call returns. -/
theorem client_data_preserved (abi : Abi) (h : Heap) (base size : Nat) (hmin : 32 ≤ alignUp size)
    (hmax : alignUp size < 2147483648) (calls : List Call) (s : Sys)
    (run : Run (Sys.call abi) Sys.Allows (boot h base size) calls s) (p : Nat)
    (live : Live s.heap p) :
    (∀ c, s.Allows c → ∃ next, s.call abi c = some next) ∧
    (∀ more final, Run (Sys.call abi) Sys.Allows s more final → (∀ c ∈ more, c.target ≠ some p) →
      SameData s.heap final.heap p) ∧
    ∀ n, 1 ≤ n → n ≤ 2147483648 → ∃ r h', krealloc abi s.heap p n = some (r, h') ∧
      (r = 0 ∧ (∀ q, Live s.heap q → SameData s.heap h' q) ∨
        r ≠ 0 ∧ ¬ Live s.heap r ∧ Live h' r ∧ n ≤ payloadSize h' r ∧
          (∀ i < min (payloadSize s.heap p) n, payloadByte h' r i = payloadByte s.heap p i) ∧
          ¬ Live h' p ∧ ∀ q, Live s.heap q → q ≠ p → SameData s.heap h' q) := by
  obtain ⟨bs, inv⟩ := calls_inv abi run (boot_rounded h base hmin hmax)
  obtain ⟨x, hx, rfl⟩ := inv.block_of_live live
  refine ⟨fun c allowed => ?_, fun more final run' spared => ?_, fun n hpos hle => ?_⟩
  · obtain ⟨next, _, hcall, _⟩ := call_keeps abi inv (allowed.safe abi)
    exact ⟨next, hcall⟩
  · obtain ⟨bs', inv', stays⟩ := calls_keep abi run' inv hx spared
    exact stays.sameData inv inv' hx
  · obtain ⟨r, h', bs', hok, inv', kept, moved⟩ :=
      krealloc_inv abi inv hx hpos (s.heap.serves_small abi hle)
    refine ⟨r, h', hok, ?_⟩
    by_cases null : r = 0
    · refine Or.inl ⟨null, fun q hq => ?_⟩
      obtain ⟨z, hz, rfl⟩ := inv.block_of_live hq
      exact (kept z hz (Or.inl null)).sameData inv inv' hz
    · obtain ⟨fresh, y, hy, rfl, large, data⟩ := moved null
      have after := inv'.live_iff (p := payloadPtr (alignUp base) x)
      refine Or.inr ⟨null, fun old => fresh (inv.live_iff.mp old),
        inv'.live_iff.mpr (inv'.held_of_used hy),
        ?_, fun i hi => ?_, fun still => ?_, fun q hq other => ?_⟩
      · rwa [inv'.payloadSize_eq (mem_usedBlocks.mp hy).1]
      · rw [inv.payloadSize_eq (mem_usedBlocks.mp hx).1] at hi
        rw [inv'.payloadByte_eq, inv.payloadByte_eq]
        exact data i hi
      · rcases List.mem_cons.mp (after.mp still) with moved | listed
        · have same : payloadPtr (alignUp base) x = payloadPtr (alignUp base) y := moved
          exact fresh (same ▸ inv.held_of_used hx)
        · simp [List.mem_filter] at listed
      · obtain ⟨z, hz, rfl⟩ := inv.block_of_live hq
        exact (kept z hz (Or.inr other)).sameData inv inv' hz

/-- Two payloads, one octet written to the first; the hypotheses are met, so growing the
first moves the octet along. -/
theorem client_data_preserved_sample :
    ∃ s, Run (Sys.call .lp64) Sys.Allows (boot sampleHeap 0x100000 4096)
      [.kmalloc 40, .kzalloc 24, .store 0x100010 3 7] s ∧ Live s.heap 0x100010 ∧
      ∃ r h', krealloc .lp64 s.heap 0x100010 100 = some (r, h') ∧
        (r = 0 ∧ (∀ q, Live s.heap q → SameData s.heap h' q) ∨
          r ≠ 0 ∧ ¬ Live s.heap r ∧ Live h' r ∧ 100 ≤ payloadSize h' r ∧
            (∀ i < min (payloadSize s.heap 0x100010) 100,
              payloadByte h' r i = payloadByte s.heap 0x100010 i) ∧
            ¬ Live h' 0x100010 ∧ ∀ q, Live s.heap q → q ≠ 0x100010 → SameData s.heap h' q) := by
  have hexec : (exec (Sys.call .lp64) Sys.Allows (boot sampleHeap 0x100000 4096)
      [.kmalloc 40, .kzalloc 24, .store 0x100010 3 7]).map Sys.live =
        some [(0x100050, 24), (0x100010, 40)] := by decide
  obtain ⟨s, hs, hlive⟩ := Option.map_eq_some_iff.mp hexec
  have run := Run.of_exec hs
  obtain ⟨bs, inv⟩ := calls_inv .lp64 run (boot_rounded sampleHeap 0x100000 (by decide) (by decide))
  have live : Live s.heap 0x100010 := inv.live_iff.mpr (by rw [hlive]; simp)
  exact ⟨s, run, live,
    (client_data_preserved .lp64 sampleHeap 0x100000 4096 (by decide) (by decide) _ s run
    0x100010 live).2.2 100 (by decide) (by decide)⟩

/-- In every state reachable after `heap_init`, `kzalloc` returns and keeps every live payload; what
it hands out was not live, is as large as asked for and reads as zero. -/
theorem kzalloc_zeroed (abi : Abi) (h : Heap) (base size : Nat) (hmin : 32 ≤ alignUp size)
    (hmax : alignUp size < 2147483648) (calls : List Call) (s : Sys)
    (run : Run (Sys.call abi) Sys.Allows (boot h base size) calls s) (n : Nat)
    (small : n ≤ 2147483648) :
    ∃ r h', kzalloc abi s.heap n = some (r, h') ∧ (∀ q, Live s.heap q → SameData s.heap h' q) ∧
      (r ≠ 0 → ¬ Live s.heap r ∧ Live h' r ∧ n ≤ payloadSize h' r ∧ ∀ i < n,
        payloadByte h' r i = 0) := by
  obtain ⟨bs, inv⟩ := calls_inv abi run (boot_rounded h base hmin hmax)
  obtain ⟨r, h', bs', hok, inv', kept⟩ := kzalloc_inv abi inv (s.heap.serves_small abi small)
  refine ⟨r, h', hok, fun q hq => ?_, fun served => ?_⟩
  · obtain ⟨z, hz, rfl⟩ := inv.block_of_live hq
    exact (kept z hz).sameData inv inv' hz
  · rw [if_neg served] at inv'
    obtain ⟨y, hy, place, large⟩ := inv'.room (r, n) List.mem_cons_self
    refine ⟨fun old => inv'.fresh (inv.live_iff.mp old), inv'.live_iff.mpr List.mem_cons_self, ?_,
      fun i hi => ?_⟩
    · rwa [show r = _ from place, inv'.payloadSize_eq (mem_usedBlocks.mp hy).1]
    · cases taken : kmalloc abi s.heap n with
      | none => simp [kzalloc, taken] at hok
      | some first =>
        simp only [kzalloc, taken] at hok
        split at hok
        · cases hok
          exact absurd rfl served
        · cases hok
          exact if_pos ⟨Nat.le_add_right _ i, Nat.add_lt_add_left hi _⟩

/-- Behind a payload of 64 octets, 24 octets of zeros. -/
theorem kzalloc_zeroed_sample :
    ∃ s r h', Run (Sys.call .lp64) Sys.Allows (boot sampleHeap 0x100000 4096) [.kmalloc 64] s ∧
      kzalloc .lp64 s.heap 24 = some (r, h') ∧ r ≠ 0 ∧ ∀ i < 24, payloadByte h' r i = 0 := by
  have hexec : (exec (Sys.call .lp64) Sys.Allows (boot sampleHeap 0x100000 4096)
      [.kmalloc 64]).map (fun s => (kzalloc .lp64 s.heap 24).map Prod.fst) =
      some (some 0x100060) := by decide
  obtain ⟨s, hs, taken⟩ := Option.map_eq_some_iff.mp hexec
  have run := Run.of_exec hs
  obtain ⟨r, h', hok, -, zeros⟩ := kzalloc_zeroed .lp64 sampleHeap 0x100000 4096 (by decide)
    (by decide) [.kmalloc 64] s run 24 (by decide)
  rw [hok] at taken
  obtain rfl : r = 0x100060 := Option.some.inj taken
  exact ⟨s, _, h', run, hok, by decide, (zeros (by decide)).2.2.2⟩

/-! ## First fit -/

/-- A walked block that says it is free and has room for `need` octets. -/
def Fitting (h : Heap) (offs : List Nat) (need o : Nat) : Prop :=
  o ∈ offs ∧ SaysFree h.mem o ∧ need ≤ (hdrAt h.mem o).size

def LowestFit (h : Heap) (offs : List Nat) (need o : Nat) : Prop :=
  Fitting h offs need o ∧ ∀ o', Fitting h offs need o' → o ≤ o'

/-- `kmalloc n` returns the lowest free block that has room, and NULL only if none has. -/
def FirstFitComplete (abi : Abi) (h : Heap) (offs : List Nat) (n : Nat) : Prop :=
  ∃ r h', kmalloc abi h n = some (r, h') ∧ (r = 0 → ∀ o, ¬ Fitting h offs (alignUp n) o) ∧
    (r ≠ 0 → ∃ o, LowestFit h offs (alignUp n) o ∧ r = h.hbase + o + 16)

/-- Nothing has room, or the lowest block that has room has sixteen octets more than needed
(and the heap is not at address 0, where `kmalloc` refuses every request). -/
def HeaderToSpare (h : Heap) (offs : List Nat) (need : Nat) : Prop :=
  (∀ o, ¬ Fitting h offs need o) ∨
    h.hbase ≠ 0 ∧ ∃ o, LowestFit h offs need o ∧ need + 16 ≤ (hdrAt h.mem o).size

theorem SysInv.fitting_iff (inv : SysInv base size s bs) {o : Nat} :
    Fitting s.heap (bs.map Block.off) need o ↔ ∃ b ∈ bs, b.off = o ∧ b.used = false ∧
    need ≤ b.size := by
  constructor
  · rintro ⟨member, free, room⟩
    obtain ⟨b, hb, rfl⟩ := List.mem_map.mp member
    have header := inv.rep.headers b hb
    exact ⟨b, hb, rfl, (saysFree_iff header).mp free, header.size ▸ room⟩
  · rintro ⟨b, hb, rfl, free, room⟩
    have header := inv.rep.headers b hb
    exact ⟨List.mem_map_of_mem hb, (saysFree_iff header).mpr free, header.size.symm ▸ room⟩

/-- The first block with a header to spare is the lowest one that has room exactly when the
latter has a header to spare. -/
theorem SysInv.lowestFit_iff {pre post : List Block} {b : Block}
    (inv : SysInv base size s (pre ++ b :: post)) (free : b.used = false)
    (room : need + 16 ≤ b.size) (smaller : ∀ x ∈ pre, x.used = false → x.size < need + 16) :
    LowestFit s.heap ((pre ++ b :: post).map Block.off) need b.off ↔
      ∃ o, LowestFit s.heap ((pre ++ b :: post).map Block.off) need o ∧
      need + 16 ≤ (hdrAt s.heap.mem o).size := by
  have header := inv.rep.headers b (by simp)
  constructor
  · intro lowest
    exact ⟨b.off, lowest, by rwa [header.size]⟩
  · rintro ⟨o, lowest, spare⟩
    obtain ⟨x, hx, rfl, xfree, _⟩ := inv.fitting_iff.mp lowest.1
    rw [(inv.rep.headers x hx).size] at spare
    have here : Fitting s.heap ((pre ++ b :: post).map Block.off) need b.off :=
      inv.fitting_iff.mpr ⟨b, by simp, rfl, free, by omega⟩
    have low := lowest.2 b.off here
    rcases mem_middle.mp hx with rfl | elsewhere
    · exact lowest
    · rcases List.mem_append.mp elsewhere with before | after
      · have := smaller x before xfree
        omega
      · have := (inv.fits.around.after x after).2.1
        omega

/-- In every state reachable after `heap_init` and for every size, first fit is complete
exactly when nothing has room or the lowest block that has room has a header to spare. -/
theorem firstFit_complete_iff (abi : Abi) (h : Heap) (base size : Nat) (hmin : 32 ≤ alignUp size)
    (hmax : alignUp size < 2147483648) (calls : List Call) (s : Sys)
    (run : Run (Sys.call abi) Sys.Allows (boot h base size) calls s) (offs : List Nat)
    (walk : Walks s.heap.mem 0 offs s.heap.hsize) (n : Nat) (hpos : 1 ≤ n) (hle : n ≤ 2147483648) :
    FirstFitComplete abi s.heap offs n ↔ HeaderToSpare s.heap offs (alignUp n) := by
  obtain ⟨bs, inv⟩ := calls_inv abi run (boot_rounded h base hmin hmax)
  obtain rfl := walk.unique inv.walks
  -- a null result is right exactly when nothing has room
  have refused : ∀ h', kmalloc abi s.heap n = some (0, h') →
      (FirstFitComplete abi s.heap (bs.map Block.off) n ↔
        ∀ o, ¬ Fitting s.heap (bs.map Block.off) (alignUp n) o) := by
    intro h' hok
    constructor
    · rintro ⟨r, h'', hok', none, _⟩
      rw [hok] at hok'
      cases hok'
      exact none rfl
    · exact fun none => ⟨0, h', hok, fun _ => none, fun taken => absurd rfl taken⟩
  by_cases null : s.heap.hbase = 0
  · rw [refused s.heap (by simp only [kmalloc, null, or_true, if_true])]
    exact ⟨Or.inl, fun cond => cond.resolve_right fun away => away.1 null⟩
  have fits : Fits s.heap.hsize bs := inv.hsize ▸ inv.fits
  rcases kmalloc_spec abi s.heap fits inv.rep hpos (hle.trans abi.maxRequest_bounds.1) null with
    ⟨hfail, few⟩ | ⟨pre, b, post, h', rfl, free, room, smaller, hok, _⟩
  · rw [refused _ hfail]
    refine ⟨Or.inl, fun cond => cond.resolve_right ?_⟩
    rintro ⟨_, o, lowest, spare⟩
    obtain ⟨x, hx, rfl, xfree, _⟩ := inv.fitting_iff.mp lowest.1
    rw [(inv.rep.headers x hx).size] at spare
    exact absurd (few x hx xfree) (by omega)
  · have here : Fitting s.heap ((pre ++ b :: post).map Block.off) (alignUp n) b.off :=
      inv.fitting_iff.mpr ⟨b, by simp, rfl, free, by omega⟩
    have lowest := inv.lowestFit_iff free room smaller
    constructor
    · rintro ⟨r, h'', hok', _, found⟩
      rw [hok] at hok'
      cases hok'
      obtain ⟨o, low, same⟩ := found (by omega)
      obtain rfl : o = b.off := by omega
      exact Or.inr ⟨null, lowest.mp low⟩
    · intro cond
      have low := lowest.mpr (cond.resolve_left fun none => none _ here).2
      exact ⟨_, h', hok, fun zero => absurd zero (by omega), fun _ => ⟨b.off, low, rfl⟩⟩

theorem fragmented_heap : ∃ s, Run (Sys.call .lp64) Sys.Allows (boot sampleHeap 0x100000 4096)
      [.kmalloc 64, .kmalloc 64, .kfree 0x100010] s ∧ s.heap.hbase = 0x100000 ∧
    Walks s.heap.mem 0 [0, 80, 160] s.heap.hsize ∧
    hdrAt s.heap.mem 0 = ⟨magicFree, 64, 160, 0⟩ ∧
    (kmalloc .lp64 s.heap 64).map Prod.fst = some 0x1000b0 := by
  have hexec : (exec (Sys.call .lp64) Sys.Allows (boot sampleHeap 0x100000 4096)
      [.kmalloc 64, .kmalloc 64, .kfree 0x100010]).map (fun s => ([s.heap.hbase, s.heap.hsize],
        [hdrAt s.heap.mem 0, hdrAt s.heap.mem 80, hdrAt s.heap.mem 160],
        (kmalloc .lp64 s.heap 64).map Prod.fst)) =
      some ([0x100000, 4096], [⟨magicFree, 64, 160, 0⟩, ⟨magicUsed, 64, 160, 1⟩,
        ⟨magicFree, 3920, endOfList, 0⟩], some 0x1000b0) := by decide
  obtain ⟨s, hs, view⟩ := Option.map_eq_some_iff.mp hexec
  simp only [Prod.mk.injEq, List.cons.injEq, and_true] at view
  obtain ⟨⟨hbase, hsize⟩, ⟨first, second, third⟩, hok⟩ := view
  refine ⟨s, Run.of_exec hs, hbase, ?_, first, hok⟩
  simp [Walks, first, second, third, hsize]

theorem hole_lowest {h : Heap} {need : Nat} (first : hdrAt h.mem 0 = ⟨magicFree, 64, 160, 0⟩)
    (room : need ≤ 64) : LowestFit h [0, 80, 160] need 0 := by
  refine ⟨⟨by simp, ?_, ?_⟩, fun o' _ => Nat.zero_le o'⟩
  · simp [SaysFree, first]
  · rw [first]
    exact room

/-- In the heap with a hole of 64 octets, 32 octets go there. -/
theorem firstFit_complete_iff_sample :
    ∃ s, Run (Sys.call .lp64) Sys.Allows (boot sampleHeap 0x100000 4096)
      [.kmalloc 64, .kmalloc 64, .kfree 0x100010] s ∧
      Walks s.heap.mem 0 [0, 80, 160] s.heap.hsize ∧
      FirstFitComplete .lp64 s.heap [0, 80, 160] 32 := by
  obtain ⟨s, run, hbase, walks, first, -⟩ := fragmented_heap
  refine ⟨s, run, walks, (firstFit_complete_iff .lp64 sampleHeap 0x100000 4096 (by decide)
    (by decide) _ s run _ walks 32 (by decide) (by decide)).mpr (Or.inr ⟨?_, 0, ?_, ?_⟩)⟩
  · rw [hbase]
    decide
  · exact hole_lowest first (by decide)
  · rw [first]
    decide

/-- The hole at offset 0 has exactly the 64 octets asked for, and `kmalloc` passes over it to the
block at offset 160. -/
theorem freed_hole_passed_over :
    ∃ s, Run (Sys.call .lp64) Sys.Allows (boot sampleHeap 0x100000 4096)
      [.kmalloc 64, .kmalloc 64, .kfree 0x100010] s ∧
      Walks s.heap.mem 0 [0, 80, 160] s.heap.hsize ∧ LowestFit s.heap [0, 80, 160] (alignUp 64) 0 ∧
      (kmalloc .lp64 s.heap 64).map Prod.fst = some 0x1000b0 ∧
      ¬ FirstFitComplete .lp64 s.heap [0, 80, 160] 64 := by
  obtain ⟨s, run, hbase, walks, first, hok⟩ := fragmented_heap
  have lowest := hole_lowest first (show alignUp 64 ≤ 64 by decide)
  refine ⟨s, run, walks, lowest, hok, ?_⟩
  rintro ⟨r, h', taken, _, found⟩
  rw [taken] at hok
  obtain rfl : r = 0x1000b0 := Option.some.inj hok
  obtain ⟨o, low, same⟩ := found (by decide)
  have := low.2 0 lowest.1
  omega

end Obsidian.Mm.HeapC
