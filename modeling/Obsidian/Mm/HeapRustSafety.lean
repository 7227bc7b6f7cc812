import Obsidian.Mm.HeapRustRuns

/-!
# What the Rust allocator keeps and what it breaks

`kfree` stores the absolute address of a header where the list holds offsets, and
the split in `kmalloc` leaves the recorded size of the block it shortens alone.
The first section says in which runs the free list stays inside the region, the
second in which runs the recorded sizes describe disjoint blocks.
-/
namespace Obsidian.Mm.HeapRust
open Lib Lib.Bytes

variable {base span first : Nat} {st : State} {offs : List Nat} {tail : Option Nat}

/-! ## The free list after a `kfree` -/

/-- Every offset on the free list is the place of a free header inside the region, the list
increases, and whatever size is asked for next, `kmalloc` reads headers inside the region
only. -/
structure ListSound (st : State) : Prop where
  list : ∃ fl, FreeList st fl ∧ fl.Pairwise (· < ·) ∧
    ∀ o ∈ fl, (st.hdr o).magic = magicFree ∧ (st.hdr o).used = 0 ∧ o + hdrSize ≤ st.size
  visits : ∀ n, ∀ o ∈ visited st (wantOf n) walkFuel st.freeHead, o + hdrSize ≤ st.size

theorem Bumped.listSound (inv : Bumped base span first st offs tail) (hspan : first + 16 = span) :
    ListSound st := by
  have hsize := inv.hsize
  refine ⟨⟨tail.toList, inv.freeList, ?_, fun o member => ?_⟩, fun n o member => ?_⟩
  · cases tail with
    | none => exact List.Pairwise.nil
    | some t => exact List.pairwise_singleton _ _
  · cases tail with
    | none => cases member
    | some t =>
      obtain rfl : o = t := by simpa using member
      obtain ⟨_, hhdr, _, hle, _, _⟩ := inv.tail_facts
      rw [inv.hdr_eq hle, hhdr]
      exact ⟨rfl, rfl, by simp only [hdrSize]; omega⟩
  · -- the walk starts at the only free block and ends there
    cases tail with
    | none =>
      have hhead : st.freeHead = endOfList := inv.free
      simp [walkFuel, visited, hhead] at member
    | some t =>
      obtain ⟨hhead, hhdr, _, hle, hend, _⟩ := inv.tail_facts
      rw [← inv.hdr_eq hle] at hhdr
      have hfew : visited st (wantOf n) walkFuel st.freeHead = [t] := by
        simp [walkFuel, visited, hhead, hend, hhdr]
      obtain rfl : o = t := by simpa [hfew] using member
      simp only [hdrSize]
      omega

theorem ListSound.head_inside (sound : ListSound st) (going : st.freeHead ≠ endOfList) :
    st.freeHead + hdrSize ≤ st.size := by
  obtain ⟨fl, hfl, _, hfree⟩ := sound.list
  exact (hfree _ (hfl.chain.head_mem going)).2.2

theorem ListSound.next_inside (sound : ListSound st) (going : st.freeHead ≠ endOfList)
    (further : st.nextOf st.freeHead ≠ endOfList) : st.nextOf st.freeHead + hdrSize ≤ st.size := by
  obtain ⟨fl, hfl, _, hfree⟩ := sound.list
  rcases hfl.chain.next_mem (hfl.chain.head_mem going) with hend | member
  · exact absurd hend further
  · exact (hfree _ member).2.2

variable {o : Nat} {next s : Sys}

theorem Bumped.kfree_eq (inv : Bumped base span first st offs tail) (hspan : first + 16 = span)
    (member : o ∈ offs) :
    kfree st (base + o + 16) = insertFree
      { st with mem := putUsed (putMagic st.mem (base + o) magicFree) (base + o) 0 }
      (base + o) := by
  have hbase := inv.hbase
  have hsize := inv.hsize
  have hlow := inv.low
  have hsmall := inv.small
  obtain ⟨_, hle⟩ := inv.place o (by simp [member])
  obtain ⟨next, hused⟩ := inv.used o member
  rw [inv.hdr_eq hle] at hused
  have hnull : base + o + 16 ≠ 0 := by omega
  have hpay : sub64 (base + o + 16) st.base = o + 16 := by
    rw [sub64_of_le (by omega) (by omega)]
    omega
  have hoff : sub64 (o + 16) hdrSize = o := by
    rw [sub64_of_le (by simp only [hdrSize]; omega) (by omega)]
    simp only [hdrSize]
    omega
  have hhead : sub64 (base + o + 16) hdrSize = base + o := by
    rw [sub64_of_le (by simp only [hdrSize]; omega) (by omega)]
    simp only [hdrSize]
    omega
  have hinside : ¬ st.size ≤ o := by omega
  simp only [kfree, if_neg hnull, hpay, hoff, hhead, if_neg hinside, hused]
  simp

/-- With an empty free list the address of the freed header becomes the head of the list. -/
theorem insertFree_empty (hempty : st.freeHead = endOfList) (head : Nat) : insertFree st head =
      some { st with mem := putNext st.mem head endOfList, freeHead := u32 head } := by
  have hwalk : insertWalk st head walkFuel 0 st.freeHead = some (0, endOfList) := by
    simp [walkFuel, insertWalk, hempty]
  simp [insertFree, hwalk, linkFree, mergeRight, mergeLeft]

/-- With one free block below and not touching the freed one, the address of the freed
header is linked behind it. -/
theorem insertFree_single {head t : Nat} (hhead : st.freeHead = t) (hend : t ≠ endOfList)
    (hnext : (st.hdr t).nextOff = endOfList) (below : t < u32 head) (hnull : st.addr t ≠ 0)
    (hgap : ∀ m : Bytes, m = putNext (putNext st.mem head endOfList) (st.addr t) (u32 head) →
      u64 (st.addr t + hdrSize + (hdrAt m (st.addr t)).size) ≠ head) :
    insertFree st head = some { st with
      mem := putNext (putNext st.mem head endOfList) (st.addr t) (u32 head) } := by
  have hwalk : insertWalk st head walkFuel 0 st.freeHead = some (st.addr t, endOfList) := by
    simp [walkFuel, insertWalk, hhead, hend, below, hnext]
  have hmiss := hgap _ rfl
  simp [insertFree, hwalk, linkFree, hnull, mergeRight, mergeLeft, hmiss]

/-- Freeing a block whose address is at least the size of the region puts that address on
the free list. -/
theorem Bumped.kfree_breaks (inv : Bumped base span first st offs tail) (hspan : first + 16 = span)
    (high : span ≤ base) (hfour : base + span ≤ 4294967296) (member : o ∈ offs) :
    ∃ st', kfree st (base + o + 16) = some st' ∧ ¬ ListSound st' := by
  have hbase := inv.hbase
  have hsize := inv.hsize
  have haligned := inv.aligned
  obtain ⟨hmod, hle⟩ := inv.place o (by simp [member])
  have hword : u32 (base + o) = base + o := u32_of_lt (by omega)
  rw [inv.kfree_eq hspan member]
  cases tail with
  | none =>
    rw [insertFree_empty (by exact inv.free)]
    refine ⟨_, rfl, fun sound => ?_⟩
    have inside := sound.head_inside (by simp only [endOfList]; omega)
    simp only [hdrSize] at inside
    omega
  | some t =>
    obtain ⟨hfirst, hhdr, htmod, htle, htend, hbelow⟩ := inv.tail_facts
    have hot : o + 16 ≤ t := (hbelow o member).2
    have haddr : u64 (st.base + t) = base + t := by
      rw [hbase]
      exact u64_of_lt (by omega)
    have hmarked : hdrAt (putUsed (putMagic st.mem (base + o) magicFree) (base + o) 0) (base + t) =
        ⟨magicFree, first - t, endOfList, 0⟩ := by
      rw [hdrAt_putUsed _ _ _ _ (by omega) (by omega), if_neg (by omega),
        hdrAt_putMagic _ _ _ _ (by omega) (by omega), if_neg (by omega), hhdr]
    have hlinked :
      hdrAt (putNext (putNext (putUsed (putMagic st.mem (base + o) magicFree) (base + o)
        0) (base + o) endOfList) (base + t) (base + o)) (base + t) =
          ⟨magicFree, first - t, base + o, 0⟩ := by
      rw [hdrAt_putNext _ _ _ _ (by omega) (by omega), if_pos rfl,
        hdrAt_putNext _ _ _ _ (by omega) (by omega), if_neg (by omega), hmarked, hword]
    -- the free block reaches up to the end of the region, so it does not touch the freed one
    have hgap : u64 (base + t + hdrSize + (first - t)) ≠ base + o := by
      rw [u64_of_lt (by simp only [hdrSize]; omega)]
      omega
    rw [insertFree_single (by exact hfirst) htend]
    · refine ⟨_, rfl, fun sound => ?_⟩
      have inside := sound.next_inside
      simp only [State.nextOf, State.hdr, State.addr, hfirst, haddr, hword, hlinked] at inside
      have := inside htend (by simp only [endOfList]; omega)
      simp only [hdrSize] at this
      omega
    · simp only [State.hdr, State.addr, haddr, hmarked]
    · rw [hword]
      omega
    · simp only [State.addr, haddr]
      omega
    · rintro m rfl
      simp only [State.addr, haddr, hword, hlinked]
      exact hgap

theorem kfree_step_breaks {p : Nat} (inv : SysBumped base span first s) (hspan : first + 16 = span)
    (high : span ≤ base) (hfour : base + span ≤ 4294967296) (held : p ∈ s.live)
    (returned : s.step (.kfree p) = some next) : ¬ ListSound next.st := by
  obtain ⟨offs, tail, hst, hlive⟩ := inv
  rw [hlive] at held
  obtain ⟨o, member, rfl⟩ := List.mem_map.mp held
  obtain ⟨st', hfree, hbroken⟩ := hst.kfree_breaks hspan high hfour member
  simp only [Sys.step, hfree, Option.map_some, Option.some.injEq] at returned
  subst returned
  exact hbroken

/-- In every run without `kfree`, over any region that has room for the first header, every
state has a sound free list. Over a region that lies at or above its own size and below
4 GiB these are the only runs whose states all have one: the first `kfree` ends it. -/
theorem free_list_sound_without_kfree (st : State) (base size : Nat) (hbase : base < 4294967296)
    (hsize : size < 4294967296) (hmin : hdrSize ≤ size) (hspan : hdrSize ≤ spanOf base size)
    (ops : List Op) (final : Sys) (run : Run Sys.step Sys.Admits (boot st base size) ops final) :
    ((∀ op ∈ ops, op.IsKmalloc) → Always Sys.step Sys.Admits (fun s => ListSound s.st)
      (boot st base size) ops) ∧
    (spanOf base size ≤ alignUp base → alignUp base + spanOf base size ≤ 4294967296 →
      (Always Sys.step Sys.Admits (fun s => ListSound s.st) (boot st base size) ops ↔
        ∀ op ∈ ops, op.IsKmalloc)) := by
  have hfirst : firstSize base size + 16 = spanOf base size := by
    rw [firstSize_eq hbase hsize hmin hspan]
    simp only [hdrSize] at hspan
    omega
  have hboot := boot_bumped st hbase hmin
  have sound : ∀ front s, (∀ op ∈ front, op.IsKmalloc) →
      Run Sys.step Sys.Admits (boot st base size) front s → ListSound s.st := by
    intro front s hops hrun
    obtain ⟨offs, tail, hst, _⟩ := run_bumped hrun hops hboot
    exact hst.listSound hfirst
  have enough : (∀ op ∈ ops, op.IsKmalloc) → Always Sys.step Sys.Admits (fun s => ListSound s.st)
      (boot st base size) ops := by
    intro hops front back s hsplit hrun
    exact sound front s (fun op member => hops op (by simp [hsplit, member])) hrun
  refine ⟨enough, fun high hfour => ⟨fun always => ?_, enough⟩⟩
  by_contra hbad
  -- the first `kfree` of the run, with allocations only before it
  obtain ⟨front, op, back, rfl, hop, hfront⟩ := exists_first_not Op.IsKmalloc hbad
  obtain ⟨mid, hrun, next, admitted, returned, _⟩ := run.split_cons
  cases op with
  | kmalloc n => exact hop trivial
  | kfree p =>
    refine kfree_step_breaks (run_bumped hrun hfront hboot) hfirst high hfour admitted returned ?_
    exact always (front ++ [.kfree p]) back next (by simp)
      (hrun.append (.call admitted returned (.done next)))

/-- A four-KiB region at 1 MiB with zero octets. -/
def sampleState : State := ⟨0, 0, endOfList, zero⟩

theorem free_list_sound_without_kfree_sample :
    ∃ final, Run Sys.step Sys.Admits (boot sampleState 0x100000 4096)
      [.kmalloc 64, .kmalloc 100, .kmalloc 9000] final ∧
      Always Sys.step Sys.Admits (fun s => ListSound s.st) (boot sampleState 0x100000 4096)
        [.kmalloc 64, .kmalloc 100, .kmalloc 9000] := by
  obtain ⟨final, run⟩ : ∃ final, Run Sys.step Sys.Admits (boot sampleState 0x100000 4096)
      [.kmalloc 64, .kmalloc 100, .kmalloc 9000] final := Run.exists_of_exec (by decide)
  refine ⟨final, run, ?_⟩
  refine (free_list_sound_without_kfree sampleState 0x100000 4096 (by decide)
    (by decide) (by decide)
    (by decide) _ final run).1 ?_
  intro op member
  simp only [List.mem_cons, List.not_mem_nil, or_false] at member
  rcases member with rfl | rfl | rfl
  · trivial
  · trivial
  · trivial

/-- The whole region is allocated and freed again: `free_head` is then 0x100000, the address
of the header, in a region of 4096 octets. -/
theorem freed_address_on_list :
    ∃ final, Run Sys.step Sys.Admits (boot sampleState 0x100000 4096)
      [.kmalloc 4080, .kfree 0x100010] final ∧ final.st.freeHead = 0x100000 ∧
      final.st.size = 4096 ∧ ¬ ListSound final.st := by
  have hexec : (exec Sys.step Sys.Admits (boot sampleState 0x100000 4096)
      [.kmalloc 4080, .kfree 0x100010]).map (fun s => (s.st.freeHead, s.st.size)) =
        some (0x100000, 4096) := by decide
  obtain ⟨final, hfinal, hview⟩ := Option.map_eq_some_iff.mp hexec
  obtain ⟨hhead, hsize⟩ := Prod.mk.inj hview
  refine ⟨final, Run.of_exec hfinal, hhead, hsize, fun sound => ?_⟩
  have inside := sound.head_inside (by rw [hhead]; decide)
  rw [hhead, hsize] at inside
  exact absurd inside (by decide)

/-! ## Recorded sizes -/

/-- The next call is a `kmalloc` that returns a block. -/
def Sys.Succeeds (s : Sys) : Op → Prop
  | .kmalloc n => n < 4294967296 ∧ ∃ r ∈ kmalloc s.st n, r.1 ≠ 0
  | .kfree _ => False

instance (s : Sys) (op : Op) : Decidable (s.Succeeds op) :=
  match op with
  | .kmalloc n =>
    decidable_of_iff (n < 4294967296 ∧ (kmalloc s.st n).any (fun r => r.1 ≠ 0) = true)
      (by simp [Sys.Succeeds, Option.any_eq_true])
  | .kfree _ => inferInstanceAs (Decidable False)

/-- Offset of the header in front of a pointer. -/
def Sys.offsetOf (s : Sys) (p : Nat) : Nat := p - s.st.base - hdrSize

/-- The octets that the header of a held block claims contain neither header nor payload of
any other block, held or free. -/
def Separate (s : Sys) : Prop :=
  ∃ fl, FreeList s.st fl ∧
    ∀ o ∈ s.live.map s.offsetOf, ∀ b ∈ s.live.map s.offsetOf ++ fl, b ≠ o →
      o + hdrSize + (s.st.hdr o).size ≤ b ∨
        b + hdrSize + (s.st.hdr b).size ≤ o + hdrSize

theorem Bumped.offsets (inv : Bumped base span first s.st offs tail)
    (hlive : s.live = offs.map (base + · + 16)) :
    s.live.map s.offsetOf = offs := by
  rw [hlive, List.map_map]
  refine (List.map_congr_left fun o _ => ?_).trans (List.map_id offs)
  simp only [Function.comp_apply, Sys.offsetOf, inv.hbase, hdrSize, id_eq]
  omega

theorem Bumped.not_separate (inv : Bumped base span first s.st offs tail)
    (hlive : s.live = offs.map (base + · + 16)) {b : Nat} (ho : o ∈ offs)
    (hb : b ∈ tail.toList ++ offs) (above : o + 16 ≤ b) :
    ¬ Separate s := by
  rintro ⟨fl, hfl, apart⟩
  have hsame : fl = tail.toList :=
    hfl.chain.unique hfl.proper inv.freeList.chain inv.freeList.proper
  rw [inv.offsets hlive, hsame] at apart
  obtain ⟨next, hhdr⟩ := inv.used o ho
  have hle := (inv.place b hb).2
  have hcases := apart o ho b (by simpa [or_comm] using hb) (by omega)
  simp only [hhdr, hdrSize] at hcases
  omega

theorem Bumped.separate_single (inv : Bumped base span first s.st [o] none)
    (hlive : s.live = [o].map (base + · + 16)) :
    Separate s := by
  refine ⟨[], inv.freeList, ?_⟩
  rw [inv.offsets hlive]
  intro a ha b hb hne
  simp only [List.append_nil, List.mem_singleton] at ha hb
  exact absurd (hb.trans ha.symm) hne

theorem Bumped.succeeds {n : Nat} (inv : Bumped base span first s.st offs tail)
    (hlive : s.live = offs.map (base + · + 16)) (ok : s.Succeeds (.kmalloc n))
    (returned : s.step (.kmalloc n) = some next) :
    ∃ t, tail = some t ∧ next.live = (t :: offs).map (base + · + 16) ∧
      ((wantOf n + 32 ≤ first - t ∧
        Bumped base span first next.st (t :: offs) (some (t + 16 + wantOf n))) ∨
        (first - t < wantOf n + 32 ∧ Bumped base span first next.st (t :: offs) none)) := by
  obtain ⟨hn, r, hr, hnull⟩ := ok
  rcases inv.kmalloc_cases hn with hfail | ⟨t, st', rfl, hok, hcases⟩
  · rw [hfail] at hr
    cases hr
    exact absurd rfl hnull
  · have hptr : base + t + 16 ≠ 0 := by omega
    simp only [Sys.step, hok, Option.map_some, if_neg hptr, Option.some.injEq] at returned
    subst returned
    exact ⟨t, rfl, by rw [hlive, List.map_cons], hcases⟩

theorem run_keeps_overlap {final : Sys} {ops : List Op}
    (run : Run Sys.step Sys.Succeeds s ops final)
    (start : ∃ offs tail, Bumped base span first s.st offs tail ∧
      s.live = offs.map (base + · + 16) ∧ ∃ o ∈ offs, ∃ b ∈ tail.toList ++ offs, o + 16 ≤ b) :
    ¬ Separate final := by
  induction run with
  | done =>
    obtain ⟨offs, tail, inv, hlive, o, ho, b, hb, above⟩ := start
    exact inv.not_separate hlive ho hb above
  | @call s next final op ops ok returned rest ih =>
    obtain ⟨offs, tail, inv, hlive, o, ho, b, hb, above⟩ := start
    cases op with
    | kfree p => exact ok.elim
    | kmalloc n =>
      obtain ⟨t, rfl, hlive', hcases⟩ := inv.succeeds hlive ok returned
      have hb' : b ∈ t :: offs := hb
      rcases hcases with ⟨_, inv'⟩ | ⟨_, inv'⟩
      · exact ih ⟨_, _, inv', hlive', o, by simp [ho], b, List.mem_cons_of_mem _ hb', above⟩
      · exact ih ⟨_, _, inv', hlive', o, by simp [ho], b, hb', above⟩

/-- After any sequence of successful allocations the recorded sizes describe disjoint blocks
exactly when no request was small enough to split the first block. -/
theorem recorded_sizes_separate_iff (st : State) (base size : Nat) (hbase : base < 4294967296)
    (hmin : hdrSize ≤ size) (ns : List Nat) (final : Sys)
    (run : Run Sys.step Sys.Succeeds (boot st base size) (ns.map Op.kmalloc) final) :
    Separate final ↔ ∀ n ∈ ns, firstSize base size < wantOf n + 32 := by
  have hboot := heapInit_bumped st hbase hmin
  cases ns with
  | nil =>
    cases run
    refine iff_of_true ⟨[0], hboot.freeList, ?_⟩ (by simp)
    simp [boot]
  | cons n rest =>
    cases run with
    | @call _ next _ _ _ ok returned more =>
      obtain ⟨t, ht, hlive, hcases⟩ := hboot.succeeds rfl ok returned
      cases ht
      rcases hcases with ⟨room, inv⟩ | ⟨tight, inv⟩
      · -- split: the block at 0 and the one behind the request stay for good
        refine iff_of_false ?_ fun hall => ?_
        · exact run_keeps_overlap more ⟨_, _, inv, hlive, 0, by simp, 0 + 16 + wantOf n, by simp,
            by omega⟩
        · have := hall n (by simp)
          omega
      · -- no split: nothing is free any more, so this was the last success
        cases rest with
        | nil =>
          cases more
          refine iff_of_true (inv.separate_single hlive) fun k hk => ?_
          obtain rfl : k = n := by simpa using hk
          rwa [Nat.sub_zero] at tight
        | cons k rest =>
          cases more with
          | call ok' returned' _ =>
            obtain ⟨_, hnone, _⟩ := inv.succeeds hlive ok' returned'
            cases hnone

theorem recorded_sizes_separate_iff_sample :
    ∃ final, Run Sys.step Sys.Succeeds (boot sampleState 0x100000 4096)
    ([4080].map Op.kmalloc) final ∧
      Separate final := by
  obtain ⟨final, run⟩ : ∃ final, Run Sys.step Sys.Succeeds (boot sampleState 0x100000 4096)
      ([4080].map Op.kmalloc) final := Run.exists_of_exec (by decide)
  refine ⟨final, run, ?_⟩
  exact (recorded_sizes_separate_iff sampleState 0x100000 4096 (by decide) (by decide) [4080] final
    run).mpr (by decide)

/-- Two requests of sixteen octets: the header of the first block still records the whole
region, and the second block lies inside it. -/
theorem split_keeps_old_size :
    ∃ final, Run Sys.step Sys.Succeeds (boot sampleState 0x100000 4096) ([16, 16].map Op.kmalloc)
      final ∧ (final.st.hdr 0).size = 4080 ∧ final.live.map final.offsetOf = [32, 0] ∧
      ¬ Separate final := by
  have hexec : (exec Sys.step Sys.Succeeds (boot sampleState 0x100000 4096)
    ([16, 16].map Op.kmalloc)).map
      (fun s => ((s.st.hdr 0).size, s.live.map s.offsetOf)) = some (4080, [32, 0]) := by decide
  obtain ⟨final, hfinal, hview⟩ := Option.map_eq_some_iff.mp hexec
  obtain ⟨hsize, hoffs⟩ := Prod.mk.inj hview
  refine ⟨final, Run.of_exec hfinal, hsize, hoffs, ?_⟩
  rintro ⟨fl, _, apart⟩
  rw [hoffs] at apart
  have hcases := apart 0 (by simp) 32 (by simp) (by decide)
  omega

end Obsidian.Mm.HeapRust
