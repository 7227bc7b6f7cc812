import Mathlib.Algebra.BigOperators.Group.List.Basic
import Obsidian.Mm.HeapCCalls

/-!
# Statistics of the C allocator

The counters are kept apart from the blocks: `kmalloc` adds the size the header records after
the split, `kfree` takes off the size it records before the merge. `Accounted` ties them to
the pointers held; `high_water` is the largest value `used_bytes` takes on the way.
-/
namespace Obsidian.Mm.HeapC
open Lib Lib.Bytes Lib.Tiling

variable {bs bs' : List Block} {base size : Nat} {s s' : Sys}

/-! ## What single calls do to the counters -/

/-- The counters after a block of `size` octets is handed out. -/
def HeapStats.taken (st : HeapStats) (size : Nat) : HeapStats :=
  { st with
    usedBytes := u32 (st.usedBytes + size),
    freeBytes := sub32 st.freeBytes size,
    allocCount := u32 (st.allocCount + 1),
    highWater := if st.highWater < u32 (st.usedBytes + size) then u32 (st.usedBytes + size)
      else st.highWater }

/-- The counters are the same but for the errors. -/
def SameCounts (st st' : HeapStats) : Prop := ∃ e, st' = { st with errors := e }

variable {h' : Heap} {n p r : Nat} {final next : Sys} {calls : List Call} (abi : Abi)

theorem kmalloc_counts {h : Heap} (hok : kmalloc abi h n = some (r, h')) :
    (r = 0 ∧ SameCounts h.st h'.st) ∨ (r ≠ 0 ∧ h'.st = h.st.taken (payloadSize h' r)) := by
  unfold kmalloc at hok
  split at hok
  · cases hok
    exact Or.inl ⟨rfl, _, rfl⟩
  · simp only at hok
    split at hok
    · cases hok
    · cases hok
      exact Or.inl ⟨rfl, _, rfl⟩
    next prev cur _ =>
      have frame := relink_frame { h with mem := splitBlock abi h.mem (alignUp n) cur } prev
        (hdrAt (splitBlock abi h.mem (alignUp n) cur) cur).nextOff
      have hptr : (takeBlock abi h (alignUp n) prev cur).1 = h.hbase + cur + 16 := by
        simp only [takeBlock, frame.1]
        rfl
      have hplace : h.hbase + cur + 16 - (takeBlock abi h (alignUp n) prev cur).2.hbase - 16 =
          cur := by
        simp only [takeBlock, frame.1]
        omega
      have hst : (takeBlock abi h (alignUp n) prev cur).2.st =
          h.st.taken (hdrAt (takeBlock abi h (alignUp n) prev cur).2.mem cur).size := by
        simp only [takeBlock, frame.2.2.1, HeapStats.taken]
      generalize takeBlock abi h (alignUp n) prev cur = taken at *
      cases hok
      simp only at hptr hplace hst
      refine Or.inr ⟨by omega, ?_⟩
      rw [payloadSize, hptr, hplace]
      exact hst

theorem SysInv.kfree_counts (inv : SysInv base size s bs) (member : p ∈ s.live.map Prod.fst)
    (hok : kfree abi s.heap p = some h') : h'.st = s.heap.st.returned (payloadSize s.heap p) := by
  obtain ⟨pre, b, post, rfl, used, rfl⟩ := inv.block_of_held member
  have hs := inv.hsize
  have fits : Fits s.heap.hsize (pre ++ b :: post) := hs ▸ inv.fits
  obtain ⟨h'', hok', _, _, hst, _⟩ := kfree_spec abi s.heap fits inv.rep used
  have hptr : payloadPtr base b = s.heap.hbase + b.off + 16 := by
    rw [inv.hbase]
    rfl
  rw [hptr, hok'] at hok
  cases hok
  rw [hst, inv.payloadSize_eq (by simp)]

/-! ## The invariant -/

/-- Sum of the sizes that the headers behind the held pointers record. -/
def Sys.liveBytes (s : Sys) : Nat := ((s.live.map Prod.fst).map (payloadSize s.heap)).sum

/-- The counters tell how much of the region is in use. -/
structure Accounted (s : Sys) : Prop where
  used : s.heap.st.usedBytes = s.liveBytes
  total : s.heap.st.usedBytes + s.heap.st.freeBytes = s.heap.st.totalBytes
  whole : s.heap.st.totalBytes = s.heap.hsize - 16
  count : u32 s.heap.st.allocCount = u32 (s.heap.st.freeCount + s.live.length)
  peak : s.heap.st.usedBytes ≤ s.heap.st.highWater

section
variable (inv : SysInv base size s bs)
include inv

theorem SysInv.liveBytes_eq : s.liveBytes = ((usedBlocks bs).map Block.size).sum := by
  rw [Sys.liveBytes, (inv.held.map _).sum_eq, List.map_map]
  congr 1
  refine List.map_congr_left fun b hb => ?_
  exact inv.payloadSize_eq (mem_usedBlocks.mp hb).1

theorem SysInv.liveBytes_le : s.liveBytes ≤ s.heap.hsize - 16 := by
  have hle := inv.layout.tiles.used_le
  rw [inv.liveBytes_eq, inv.hsize]
  cases hused : usedBlocks bs with
  | nil => exact Nat.zero_le _
  | cons b rest =>
    rw [hused, List.length_cons] at hle
    simp only [hdrSize] at hle
    omega

theorem SysInv.payloadSize_kept (inv' : SysInv base size s' bs') {p : Nat}
    (member : p ∈ s.live.map Prod.fst)
    (kept : ∀ x ∈ usedBlocks bs, payloadPtr base x = p → x ∈ usedBlocks bs') :
    payloadSize s'.heap p = payloadSize s.heap p := by
  obtain ⟨b, hb, rfl⟩ := List.mem_map.mp (inv.held.mem_iff.mp member)
  rw [inv.payloadSize_eq (mem_usedBlocks.mp hb).1,
    inv'.payloadSize_eq (mem_usedBlocks.mp (kept b hb rfl)).1]

end

theorem Accounted.kmalloc (inv : SysInv base size s bs) (acc : Accounted s)
    (hok : kmalloc abi s.heap n = some (r, h'))
    (inv' : SysInv base size ⟨h', if r = 0 then s.live else (r, n) :: s.live⟩ bs')
    (kept : ∀ x ∈ usedBlocks bs, Stays s.heap.mem h'.mem bs' x) :
    Accounted ⟨h', if r = 0 then s.live else (r, n) :: s.live⟩ ∧
    s.heap.st.highWater ≤ h'.st.highWater ∧
      (h'.st.highWater = s.heap.st.highWater ∨ h'.st.highWater = h'.st.usedBytes) := by
  have same : (s.live.map Prod.fst).map (payloadSize h') =
      (s.live.map Prod.fst).map (payloadSize s.heap) :=
    List.map_congr_left fun p member => inv.payloadSize_kept inv' member fun x hx _ =>
      (kept x hx).used
  have hsize : h'.hsize = s.heap.hsize := inv'.hsize.trans inv.hsize.symm
  have hsmall : s.heap.hsize < 2147483648 := inv.hsize ▸ inv.small
  rcases kmalloc_counts abi hok with ⟨rfl, _, counts⟩ | ⟨taken, counts⟩
  · refine ⟨⟨?_, ?_, ?_, ?_, ?_⟩, ?_, Or.inl ?_⟩
    · rw [if_pos rfl, Sys.liveBytes, same, counts]
      exact acc.used
    · simp only [counts]
      exact acc.total
    · simp only [counts, hsize]
      exact acc.whole
    · simp only [counts, if_true]
      exact acc.count
    · simp only [counts]
      exact acc.peak
    · rw [counts]
    · rw [counts]
  · have hsum : Sys.liveBytes ⟨h', (r, n) :: s.live⟩ = payloadSize h' r + s.liveBytes := by
      simp only [Sys.liveBytes, List.map_cons, List.sum_cons, same]
    rw [if_neg taken] at inv' ⊢
    have hbound := inv'.liveBytes_le
    simp only [hsize] at hbound
    rw [hsum] at hbound
    have hused := acc.used
    have htotal := acc.total
    have hwhole := acc.whole
    have hcount := acc.count
    have hnew : u32 (s.heap.st.usedBytes + payloadSize h' r) =
        s.heap.st.usedBytes + payloadSize h' r :=
      u32_of_lt (by omega)
    have hrest : sub32 s.heap.st.freeBytes (payloadSize h' r) =
        s.heap.st.freeBytes - payloadSize h' r :=
      sub32_of_le (by omega) (by omega)
    simp only [HeapStats.taken, hnew, hrest] at counts
    refine ⟨⟨?_, ?_, ?_, ?_, ?_⟩, ?_, ?_⟩
    · rw [hsum]
      simp only [counts]
      omega
    · simp only [counts]
      omega
    · simp only [counts, hsize]
      exact hwhole
    · simp only [counts, u32, List.length_cons] at hcount ⊢
      omega
    · simp only [counts]
      split <;> omega
    · simp only [counts]
      split <;> omega
    · simp only [counts]
      split
      · exact Or.inr rfl
      · exact Or.inl rfl

theorem Accounted.kfree (inv : SysInv base size s bs) (acc : Accounted s)
    (member : p ∈ s.live.map Prod.fst) (hok : kfree abi s.heap p = some h')
    (inv' : SysInv base size ⟨h', s.live.filter fun e => e.1 ≠ p⟩ bs')
    (kept : ∀ x ∈ usedBlocks bs, payloadPtr base x ≠ p → Stays s.heap.mem h'.mem bs' x) :
    Accounted ⟨h', s.live.filter fun e => e.1 ≠ p⟩ ∧ h'.st.highWater = s.heap.st.highWater := by
  have herase : (s.live.filter fun e => e.1 ≠ p).map Prod.fst = (s.live.map Prod.fst).erase p := by
    rw [inv.live_nodup.erase_eq_filter, List.filter_map]
    congr 1
    refine List.filter_congr fun e _ => ?_
    simp [bne, beq_eq_decide]
  have same : ((s.live.map Prod.fst).erase p).map (payloadSize h') =
      ((s.live.map Prod.fst).erase p).map (payloadSize s.heap) := by
    refine List.map_congr_left fun q hq => ?_
    obtain ⟨hne, hq⟩ := (inv.live_nodup.mem_erase_iff).mp hq
    exact inv.payloadSize_kept inv' hq fun x hx same => (kept x hx (same ▸ hne)).used
  have hsum : payloadSize s.heap p + Sys.liveBytes ⟨h', s.live.filter fun e => e.1 ≠ p⟩ =
      s.liveBytes := by
    simp only [Sys.liveBytes]
    rw [herase, same]
    exact List.sum_map_erase _ member
  have hlength : (s.live.filter fun e => e.1 ≠ p).length + 1 = s.live.length := by
    have hlen := congrArg List.length herase
    have hpos := List.length_pos_of_mem member
    rw [List.length_map, List.length_erase_of_mem member] at hlen
    rw [List.length_map] at hlen hpos
    omega
  have hsize : h'.hsize = s.heap.hsize := inv'.hsize.trans inv.hsize.symm
  have hsmall : s.heap.hsize < 2147483648 := inv.hsize ▸ inv.small
  have counts := inv.kfree_counts abi member hok
  have hused := acc.used
  have htotal := acc.total
  have hwhole := acc.whole
  have hcount := acc.count
  have hpeak := acc.peak
  have hnew : sub32 s.heap.st.usedBytes (payloadSize s.heap p) =
      s.heap.st.usedBytes - payloadSize s.heap p :=
    sub32_of_le (by omega) (by omega)
  have hrest : u32 (s.heap.st.freeBytes + payloadSize s.heap p) =
      s.heap.st.freeBytes + payloadSize s.heap p :=
    u32_of_lt (by omega)
  simp only [HeapStats.returned, hnew, hrest] at counts
  refine ⟨⟨?_, ?_, ?_, ?_, ?_⟩, ?_⟩
  · simp only [counts]
    omega
  · simp only [counts]
    omega
  · simp only [counts, hsize]
    exact hwhole
  · simp only [counts, u32] at hcount ⊢
    omega
  · simp only [counts]
    omega
  · rw [counts]

theorem Accounted.write (inv : SysInv base size s bs) (acc : Accounted s) {m : Bytes}
    (inv' : SysInv base size ⟨{ s.heap with mem := m }, s.live⟩ bs) :
    Accounted ⟨{ s.heap with mem := m }, s.live⟩ := by
  refine ⟨?_, acc.total, acc.whole, acc.count, acc.peak⟩
  rw [inv'.liveBytes_eq, ← inv.liveBytes_eq]
  exact acc.used

/-! ## Runs -/

/-- The values of `used_bytes` inside a call: `krealloc` allocates before it frees. -/
def Sys.passes (abi : Abi) (s : Sys) : Call → List Nat
  | .krealloc p n =>
      if p = 0 ∨ n = 0 then [] else ((HeapC.kmalloc abi s.heap n).map fun r =>
        r.2.st.usedBytes).toList
  | _ => []

/-- Every value of `used_bytes` in the course of a list of calls. -/
def usedValues (abi : Abi) : Sys → List Call → List Nat
  | s, [] => [s.heap.st.usedBytes]
  | s, c :: rest => s.heap.st.usedBytes :: (s.passes abi c ++
      match s.call abi c with
      | some next => usedValues abi next rest
      | none => [])

theorem first_usedValues (s : Sys) (calls : List Call) :
    s.heap.st.usedBytes ∈ usedValues abi s calls := by
  cases calls with
  | nil => simp [usedValues]
  | cons c rest => simp [usedValues]

theorem last_usedValues {abi : Abi} {ok : Sys → Call → Prop}
    (run : Run (Sys.call abi) ok s calls final) :
    final.heap.st.usedBytes ∈ usedValues abi s calls := by
  induction run with
  | done => simp [usedValues]
  | call _ returned _ ih =>
    simp only [usedValues, returned, List.mem_cons, List.mem_append]
    exact Or.inr (Or.inr ih)

/-- From `s` to `next` the high-water mark has followed `used_bytes` through `values`. -/
structure Followed (s next : Sys) (values : List Nat) : Prop where
  grows : s.heap.st.highWater ≤ next.heap.st.highWater
  above : ∀ v ∈ values, v ≤ next.heap.st.highWater
  reached : next.heap.st.highWater = s.heap.st.highWater ∨
    next.heap.st.highWater = next.heap.st.usedBytes ∨
    next.heap.st.highWater ∈ values

theorem Followed.direct (grows : s.heap.st.highWater ≤ next.heap.st.highWater)
    (reached : next.heap.st.highWater = s.heap.st.highWater ∨
      next.heap.st.highWater = next.heap.st.usedBytes) :
    Followed s next [] := ⟨grows, by simp, reached.imp_right Or.inl⟩

theorem Followed.same (same : next.heap.st.highWater = s.heap.st.highWater) : Followed s next [] :=
  .direct (Nat.le_of_eq same.symm) (Or.inl same)

theorem call_accounts (inv : SysInv base size s bs) (acc : Accounted s) {c : Call}
    (safe : s.Safe abi c) :
    ∃ next bs', s.call abi c = some next ∧ SysInv base size next bs' ∧ Accounted next ∧
      Followed s next (s.passes abi c) := by
  cases c with
  | kmalloc n =>
    obtain ⟨r, h', bs', hok, inv', kept, _⟩ := kmalloc_inv abi inv safe
    obtain ⟨acc', grows, reached⟩ := acc.kmalloc abi inv hok inv' kept
    exact ⟨_, bs', by simp only [Sys.call, hok, Option.map_some], inv', acc', .direct grows reached⟩
  | kzalloc n =>
    obtain ⟨r, h', bs', hok, inv', kept, place⟩ := kmalloc_inv abi inv safe
    obtain ⟨acc', grows, reached⟩ := acc.kmalloc abi inv hok inv' kept
    by_cases null : r = 0
    · refine ⟨_, bs', ?_, inv', acc', .direct grows reached⟩
      simp only [Sys.call, kzalloc, hok, null, if_true, Option.map_some]
    · obtain ⟨y, hy, hp, large⟩ := place null
      obtain ⟨m, inside, clears⟩ := kzalloc_clears abi hok inv'.hbase hp large
      have inv'' := (inv'.write hy inside).1
      exact ⟨_, bs', by simp only [Sys.call, clears, Option.map_some], inv'', acc'.write inv' inv'',
        .direct grows reached⟩
  | kfree p =>
    rcases safe with rfl | held
    · refine ⟨s, bs, ?_, inv, acc, Followed.same rfl⟩
      simp only [Sys.call, HeapC.kfree, if_true, Option.map_some, inv.filter_null]
    · obtain ⟨h', bs', hok, inv', kept⟩ := kfree_inv abi inv held
      obtain ⟨acc', same⟩ := acc.kfree abi inv held hok inv' kept
      exact ⟨_, bs', by simp only [Sys.call, hok, Option.map_some], inv', acc', Followed.same same⟩
  | krealloc p n =>
    obtain ⟨serves, target⟩ := safe
    obtain ⟨r, h₁, bs₁, hok, inv₁, kept₁, place⟩ := kmalloc_inv abi inv serves
    obtain ⟨acc₁, grows, reached⟩ := acc.kmalloc abi inv hok inv₁ kept₁
    rcases target with rfl | held
    · refine ⟨_, bs₁, ?_, inv₁, acc₁, grows, ?_, reached.imp_right Or.inl⟩
      · simp only [Sys.call, krealloc, if_true, hok, Option.map_some, inv.filter_null, ite_self]
      · simp [Sys.passes]
    · have given := inv.held_positive held
      by_cases none : n = 0
      · subst none
        obtain ⟨h', bs', hok, inv', kept⟩ := kfree_inv abi inv held
        obtain ⟨acc', same⟩ := acc.kfree abi inv held hok inv' kept
        refine ⟨_, bs', ?_, inv', acc', ?_⟩
        · simp only [Sys.call, krealloc, if_neg given, if_true, hok, Option.map_some]
        · simp only [Sys.passes, or_true, if_true]
          exact Followed.same same
      · have hpasses : s.passes abi (.krealloc p n) = [h₁.st.usedBytes] := by
          simp [Sys.passes, given, none, hok]
        obtain ⟨x, hx, rfl⟩ := List.mem_map.mp (inv.held.mem_iff.mp held)
        rw [hpasses]
        by_cases null : r = 0
        · subst null
          refine ⟨_, bs₁, ?_, inv₁, acc₁, grows, ?_, reached.imp_right Or.inl⟩
          · simp only [Sys.call, krealloc, if_neg given, if_neg none, hok, if_true, Option.map_some]
          · intro v member
            rw [List.mem_singleton.mp member]
            exact acc₁.peak
        · rw [if_neg null] at inv₁ acc₁
          obtain ⟨y, m, h₃, bs₃, moved⟩ :=
            krealloc_moves abi inv hx (by omega) hok inv₁ (kept₁ x hx).used (place null)
          have acc₂ := acc₁.write inv₁ moved.filled
          obtain ⟨acc₃, same⟩ :=
            acc₂.kfree abi moved.filled moved.held moved.freed moved.settled moved.kept
          have hmark : h₃.st.highWater = h₁.st.highWater := same
          refine ⟨_, bs₃, ?_, moved.settled, acc₃, ?_, ?_, ?_⟩
          · simp only [Sys.call, moved.result, Option.map_some, if_neg null, moved.live]
          · rw [hmark]
            exact grows
          · intro v member
            rw [List.mem_singleton.mp member, hmark]
            exact acc₁.peak
          · rw [hmark]
            exact reached.imp_right fun top => Or.inr (List.mem_singleton.mpr top)
  | store p i v =>
    have inv' := (store_inv (v := v) inv safe).1
    exact ⟨_, bs, rfl, inv', acc.write inv inv', Followed.same rfl⟩

/-- Along a run the account is kept, and the high-water mark is where it was or at the largest
value of `used_bytes` on the way. -/
theorem calls_account (run : Run (Sys.call abi) (Sys.Safe abi) s calls final)
    (inv : SysInv base size s bs) (acc : Accounted s) :
    ∃ bs', SysInv base size final bs' ∧ Accounted final ∧ Followed s final
    (usedValues abi s calls) := by
  induction run generalizing bs with
  | done s =>
    exact ⟨bs, inv, acc, Nat.le_refl _, fun v member => List.mem_singleton.mp member ▸ acc.peak,
      Or.inl rfl⟩
  | @call s next final c calls safe returned _ ih =>
    obtain ⟨next', bs', hcall, inv', acc', first⟩ := call_accounts abi inv acc safe
    rw [returned] at hcall
    cases hcall
    obtain ⟨bs'', inv'', acc'', rest⟩ := ih inv' acc'
    have hvalues : usedValues abi s (c :: calls) =
        s.heap.st.usedBytes :: (s.passes abi c ++ usedValues abi next calls) := by
      simp only [usedValues, returned]
    refine ⟨bs'', inv'', acc'', first.grows.trans rest.grows, fun v member => ?_, ?_⟩
    · rw [hvalues, List.mem_cons, List.mem_append] at member
      rcases member with rfl | inside | later
      · exact acc.peak.trans (first.grows.trans rest.grows)
      · exact (first.above v inside).trans rest.grows
      · exact rest.above v later
    · rw [hvalues, List.mem_cons, List.mem_append]
      rcases rest.reached with same | top | later
      · rw [same]
        rcases first.reached with old | top | inside
        · exact Or.inl old
        · exact Or.inr (Or.inr (Or.inr (Or.inr (top ▸ first_usedValues abi next calls))))
        · exact Or.inr (Or.inr (Or.inr (Or.inl inside)))
      · exact Or.inr (Or.inl top)
      · exact Or.inr (Or.inr (Or.inr (Or.inr later)))

theorem boot_accounted (h : Heap) (base : Nat) {size : Nat} (hmin : 32 ≤ alignUp size)
    (hmax : alignUp size < 2147483648) (start : h.st = {}) :
    Accounted (boot h base size) ∧ (boot h base size).heap.st.totalBytes = alignUp size - 16 ∧
      (boot h base size).heap.st.highWater = 0 ∧ (boot h base size).heap.st.usedBytes = 0 := by
  obtain ⟨_, hsize, rep⟩ := heapInit_spec h base hmin hmax
  have hfirst : (hdrAt (heapInit h base size).2.mem 0).size = alignUp size - 16 :=
    (rep.headers _ List.mem_cons_self).size
  have hst : (boot h base size).heap.st =
      { totalBytes := alignUp size - 16, freeBytes := alignUp size - 16 } := by
    rw [← hfirst]
    simp only [boot, heapInit, start]
  have hregion : (boot h base size).heap.hsize = alignUp size := hsize
  refine ⟨⟨?_, ?_, ?_, ?_, ?_⟩, ?_, ?_, ?_⟩
  · rw [hst]
    rfl
  · rw [hst]
    exact Nat.zero_add _
  · rw [hst, hregion]
  · rw [hst]
    rfl
  · rw [hst]
  · rw [hst]
  · rw [hst]
  · rw [hst]

/-- In every state of every run after one `heap_init`: `used_bytes` is the sum of the sizes in
the headers of the live blocks, it adds up with `free_bytes` to the constant `total_bytes`,
`high_water` is the largest value `used_bytes` has had, and `alloc_count - free_count` is the
number of live blocks in 32 bits. -/
theorem statistics_exact (abi : Abi) (h : Heap) (base size : Nat) (hmin : 32 ≤ alignUp size)
    (hmax : alignUp size < 2147483648) (start : h.st = {}) (calls : List Call) (s : Sys)
    (run : Run (Sys.call abi) Sys.Allows (boot h base size) calls s) :
    s.heap.st.usedBytes = s.liveBytes ∧
    s.heap.st.usedBytes + s.heap.st.freeBytes = s.heap.st.totalBytes ∧
    s.heap.st.totalBytes = alignUp size - 16 ∧
    s.heap.st.highWater ∈ usedValues abi (boot h base size) calls ∧
    (∀ v ∈ usedValues abi (boot h base size) calls, v ≤ s.heap.st.highWater) ∧
    sub32 s.heap.st.allocCount s.heap.st.freeCount = u32 s.live.length := by
  have inv := boot_rounded h base hmin hmax
  obtain ⟨acc, htotal, hmark, hused⟩ := boot_accounted h base hmin hmax start
  obtain ⟨bs, inv', acc', follows⟩ :=
    calls_account abi (run.imp fun _ _ allowed => allowed.safe abi) inv acc
  refine ⟨acc'.used, acc'.total, ?_, ?_, follows.above, ?_⟩
  · rw [acc'.whole, inv'.hsize]
  · rcases follows.reached with same | top | inside
    · rw [same, hmark, ← hused]
      exact first_usedValues abi _ calls
    · rw [top]
      exact last_usedValues run
    · exact inside
  · have hcount := acc'.count
    simp only [sub32, u32] at hcount ⊢
    omega

/-- Two allocations, then a reallocation that holds both copies for a moment: 112 + 48 + 208
octets at the peak, 256 in the end. -/
theorem statistics_exact_realloc :
    ∃ s, Run (Sys.call .lp64) Sys.Allows (boot sampleHeap 0x100000 4096)
      [.kmalloc 100, .kmalloc 40, .krealloc 0x100010 200] s ∧
      s.heap.st.usedBytes = s.liveBytes ∧
      s.heap.st.highWater ∈ usedValues .lp64 (boot sampleHeap 0x100000 4096)
        [.kmalloc 100, .kmalloc 40, .krealloc 0x100010 200] ∧
      s.heap.st.highWater = 368 ∧ s.heap.st.usedBytes = 256 := by
  have hexec : ((exec (Sys.call .lp64) Sys.Allows (boot sampleHeap 0x100000 4096)
      [.kmalloc 100, .kmalloc 40, .krealloc 0x100010 200]).map fun s =>
        (s.heap.st.highWater, s.heap.st.usedBytes)) =
        some (368, 256) := by decide
  obtain ⟨s, hs, hvalues⟩ := Option.map_eq_some_iff.mp hexec
  obtain ⟨hused, _, _, hmark, _⟩ := statistics_exact .lp64 sampleHeap 0x100000 4096 (by decide)
    (by decide) rfl _ s
    (Run.of_exec hs)
  exact ⟨s, Run.of_exec hs, hused, hmark, congrArg Prod.fst hvalues, congrArg Prod.snd hvalues⟩

end Obsidian.Mm.HeapC
