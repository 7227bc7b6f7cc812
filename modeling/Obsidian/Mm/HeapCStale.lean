import Obsidian.Mm.HeapCStats

/-!
# Freed pointers

`kfree` trusts the magic word in front of the payload. Where a block has been freed that word
never again reads as in use before the place is handed out once more: the header is marked
free, the payload is poisoned, and merging and linking write other words of headers.
-/
namespace Obsidian.Mm.HeapC
open Lib Lib.Bytes Lib.Tiling

variable {bs bs' pre post : List Block} {b : Block} {base size o : Nat} {s : Sys}

/-! ## Magic words -/

variable {n off prevOff r : Nat} {h' : Heap}

theorem relink_magic (h : Heap) (off : Nat) (hprev : prevOff ≠ endOfList → prevOff % 16 = 0)
    (ho : o % 16 = 0) :
    (hdrAt (relink h prevOff off).mem o).magic = (hdrAt h.mem o).magic := by
  rw [relink_hdr h prevOff off o hprev ho]
  split
  · rfl
  · rfl

theorem resized_magic (m : Bytes) (v w : Nat) (hoff : off % 16 = 0) (ho : o % 16 = 0) :
    (hdrAt (putNext (putSize m off v) off w) o).magic = (hdrAt m o).magic := by
  rw [hdrAt_putNext _ _ _ _ hoff ho, hdrAt_putSize _ _ _ _ hoff ho]
  split
  · rfl
  · rfl

theorem mergeLeft_magic (abi : Abi) (m : Bytes) (hprev : prevOff % 16 = 0) (hoff : off % 16 = 0)
    (ho : o % 16 = 0) :
    (hdrAt (mergeLeft abi m prevOff off).1 o).magic = (hdrAt m o).magic ∧
      (mergeLeft abi m prevOff off).2 % 16 = 0 := by
  unfold mergeLeft
  split
  · exact ⟨resized_magic _ _ _ hprev ho, hprev⟩
  · exact ⟨rfl, hoff⟩

theorem mergeRight_magic (abi : Abi) (m : Bytes) (hoff : off % 16 = 0) (ho : o % 16 = 0) :
    (hdrAt (mergeRight abi m off) o).magic = (hdrAt m o).magic := by
  unfold mergeRight
  simp only
  split
  · split
    · exact resized_magic _ _ _ hoff ho
    · rfl
  · rfl

theorem insertFree_magic (abi : Abi) (h : Heap) (walk : Nat) (hoff : off % 16 = 0)
    (hprev : prevOff ≠ endOfList → prevOff % 16 = 0) (ho : o % 16 = 0) :
    (hdrAt (insertFree abi h off prevOff walk).mem o).magic = (hdrAt h.mem o).magic := by
  have linked : (hdrAt (relink { h with mem := putNext h.mem off walk } prevOff off).mem o).magic =
      (hdrAt h.mem o).magic := by
    rw [relink_magic _ _ hprev ho, hdrAt_putNext _ _ _ _ hoff ho]
    split
    · rfl
    · rfl
  unfold insertFree
  simp only
  by_cases first : prevOff = endOfList
  · rw [if_pos first, mergeRight_magic abi _ hoff ho]
    exact linked
  · rw [if_neg first]
    obtain ⟨hleft, hplace⟩ :=
      mergeLeft_magic abi (relink { h with mem := putNext h.mem off walk } prevOff off).mem
      (hprev first) hoff ho
    rw [mergeRight_magic abi _ hplace ho, hleft]
    exact linked

theorem poisoned_magic (m : Bytes) {start : Nat} (inside : start ≤ o ∧ o < start + n) :
    (hdrAt (fill m start n poisonByte) o).magic ≠ magicUsed := by
  have hfirst : fill m start n poisonByte o = poisonByte := if_pos inside
  have hlow : get32 (fill m start n poisonByte) o % 256 = 165 := by
    simp only [get32, get16, hfirst]
    have : poisonByte.toNat = 165 := rfl
    omega
  intro used
  simp only [hdrAt, magicUsed] at used
  omega

/-! ## What single calls do to them -/

/-- `kfree` leaves no word that reads as in use in the block it frees, and writes no magic word
outside. -/
theorem kfree_magic (abi : Abi) (h : Heap) (fits : Fits h.hsize (pre ++ b :: post))
    (rep : Represents h.mem h.freeHead (pre ++ b :: post)) (used : b.used = true)
    (hok : kfree abi h (h.hbase + b.off + 16) = some h') (ho : o % 16 = 0) :
    (b.off ≤ o ∧ o < b.off + 16 + b.size → (hdrAt h'.mem o).magic ≠ magicUsed) ∧
      (¬ (b.off ≤ o ∧ o < b.off + 16 + b.size) → (hdrAt h'.mem o).magic =
        (hdrAt h.mem o).magic) := by
  have around := fits.around
  rw [kfree_eq abi h fits rep used] at hok
  cases hok
  rw [insertFree_magic abi _ _ around.self (fun going => (around.prev going).1) ho]
  simp only [marked]
  rw [hdrAt_putUsed _ _ _ _ around.self ho, hdrAt_putMagic _ _ _ _ around.self ho]
  have hself := around.self
  by_cases same : o = b.off
  · subst same
    simp only [if_true]
    exact ⟨fun _ => by decide, fun outside => absurd ⟨Nat.le_refl _, by omega⟩ outside⟩
  · simp only [if_neg same]
    constructor
    · intro inside
      exact poisoned_magic h.mem (by omega)
    · intro outside
      have hgranular := fits.granular b (by simp)
      rw [hdrAt_congr fun i hlo hhi => fill_outside h.mem poisonByte (by omega)]

/-- `kmalloc` marks the block it hands out; any other magic word it writes reads as free. -/
theorem kmalloc_magic (abi : Abi) {h : Heap} (fits : Fits h.hsize bs)
    (rep : Represents h.mem h.freeHead bs) (serves : h.Serves abi n)
    (hok : kmalloc abi h n = some (r, h')) (ho : o % 16 = 0) (other : r ≠ h.hbase + o + 16) :
    (hdrAt h'.mem o).magic = (hdrAt h.mem o).magic ∨ (hdrAt h'.mem o).magic = magicFree := by
  rcases kmalloc_cases abi h fits rep serves with (hfail | hfail) |
    ⟨pre, b, post, rfl, free, hpos, hmax, hfit, htake⟩
  · rw [hfail] at hok
    cases hok
    exact Or.inl rfl
  · rw [hfail] at hok
    cases hok
    exact Or.inl rfl
  obtain ⟨hal, _⟩ := alignUp_facts hpos hmax
  have around := fits.around
  have hstop := fits.bound (b := b) (by simp)
  have hsmall := fits.small
  have hsize := (rep.headers b (by simp)).size
  obtain ⟨hp, _⟩ := takeBlock_spec abi h fits rep free hal (by omega) _ rfl
  rw [htake] at hok
  have htaken := Option.some.inj hok
  have apart : o ≠ b.off := by
    rintro rfl
    exact other ((congrArg Prod.fst htaken).symm.trans hp)
  have hmagic : (hdrAt (takeBlock abi h (alignUp n) ((freeOffs pre).getLastD endOfList) b.off).2.mem
    o).magic =
      (hdrAt (splitBlock abi h.mem (alignUp n) b.off) o).magic := by
    simp only [takeBlock]
    rw [hdrAt_putMagic _ _ _ _ around.self ho, if_neg apart, hdrAt_putUsed _ _ _ _ around.self ho,
      if_neg apart]
    exact relink_magic _ _ (fun going => (around.prev going).1) ho
  rw [htaken] at hmagic
  rw [hmagic]
  by_cases room : alignUp n + 32 ≤ b.size
  · rw [splitBlock_hdr abi h.mem around.self hal hsize room (by omega) o ho, if_neg apart]
    split
    · exact Or.inr rfl
    · exact Or.inl rfl
  · rw [splitBlock_whole abi h.mem hsize (by omega) (by omega)]
    exact Or.inl rfl

/-! ## Places that were given back -/

/-- Offset `o` lies in a block that a client holds. -/
def Sys.Covers (s : Sys) (o : Nat) : Prop :=
  ∃ p ∈ s.live.map Prod.fst, p ≤ s.heap.hbase + o + 16 ∧
    s.heap.hbase + o + 16 < p + 16 + payloadSize s.heap p

/-- Unless it lies in a block that is held, the word at `o` does not read as in use. -/
def Sys.Spent (s : Sys) (o : Nat) : Prop := ¬ s.Covers o → (hdrAt s.heap.mem o).magic ≠ magicUsed

theorem SysInv.covers_iff (inv : SysInv base size s bs) (o : Nat) :
    s.Covers o ↔ ∃ x ∈ usedBlocks bs, x.off ≤ o ∧ o < x.off + 16 + x.size := by
  unfold Sys.Covers
  simp only [inv.held.mem_iff, List.mem_map, exists_exists_and_eq_and]
  refine exists_congr fun x => and_congr_right fun hx => ?_
  rw [inv.payloadSize_eq (mem_usedBlocks.mp hx).1, inv.hbase]
  simp only [payloadPtr]
  omega

theorem Sys.Spent.kmalloc (abi : Abi) (inv : SysInv base size s bs) (ho : o % 16 = 0)
    (spent : s.Spent o) (serves : s.heap.Serves abi n)
    (hok : HeapC.kmalloc abi s.heap n = some (r, h'))
    (inv' : SysInv base size ⟨h', if r = 0 then s.live else (r, n) :: s.live⟩ bs')
    (kept : ∀ x ∈ usedBlocks bs, Stays s.heap.mem h'.mem bs' x) :
    Sys.Spent ⟨h', if r = 0 then s.live else (r, n) :: s.live⟩ o := by
  intro idle
  have fits : Fits s.heap.hsize bs := inv.hsize ▸ inv.fits
  have before : ¬ s.Covers o := by
    intro covered
    obtain ⟨x, hx, range⟩ := (inv.covers_iff o).mp covered
    exact idle ((inv'.covers_iff o).mpr ⟨x, (kept x hx).used, range⟩)
  have other : r ≠ s.heap.hbase + o + 16 := by
    intro same
    have taken : r ≠ 0 := by omega
    have hbase : h'.hbase = s.heap.hbase := inv'.hbase.trans inv.hbase.symm
    apply idle
    refine ⟨r, by simp [taken], ?_, ?_⟩
    · simp only [hbase]
      omega
    · simp only [hbase]
      omega
  rcases kmalloc_magic abi fits inv.rep serves hok ho other with same | free
  · rw [same]
    exact spent before
  · rw [free]
    decide

theorem Sys.Spent.kfree (abi : Abi) (inv : SysInv base size s bs) (ho : o % 16 = 0)
    (spent : s.Spent o) {p : Nat} (member : p ∈ s.live.map Prod.fst)
    (hok : HeapC.kfree abi s.heap p = some h')
    (inv' : SysInv base size ⟨h', s.live.filter fun e => e.1 ≠ p⟩ bs')
    (kept : ∀ x ∈ usedBlocks bs, payloadPtr base x ≠ p → Stays s.heap.mem h'.mem bs' x) :
    Sys.Spent ⟨h', s.live.filter fun e => e.1 ≠ p⟩ o := by
  intro idle
  obtain ⟨pre, b, post, rfl, used, rfl⟩ := inv.block_of_held member
  have fits : Fits s.heap.hsize (pre ++ b :: post) := inv.hsize ▸ inv.fits
  have hptr : payloadPtr base b = s.heap.hbase + b.off + 16 := by
    rw [inv.hbase]
    rfl
  rw [hptr] at hok
  obtain ⟨freed, others⟩ := kfree_magic abi s.heap fits inv.rep used hok ho
  by_cases inside : b.off ≤ o ∧ o < b.off + 16 + b.size
  · exact freed inside
  · rw [others inside]
    apply spent
    intro covered
    obtain ⟨x, hx, range⟩ := (inv.covers_iff o).mp covered
    refine idle ((inv'.covers_iff o).mpr ⟨x, (kept x hx fun same => inside ?_).used, range⟩)
    -- the only block in use with this payload pointer is `b`
    rcases mem_middle.mp (mem_usedBlocks.mp hx).1 with rfl | elsewhere
    · exact range
    · have := (fits.around.other elsewhere).2
      simp only [payloadPtr] at same
      omega

theorem Sys.Spent.write (inv : SysInv base size s bs) (ho : o % 16 = 0) (spent : s.Spent o)
    (hb : b ∈ usedBlocks bs) {m : Bytes}
    (same : ∀ i, i < b.off + 16 ∨ b.off + 16 + b.size ≤ i → m i = s.heap.mem i)
    (inv' : SysInv base size ⟨{ s.heap with mem := m }, s.live⟩ bs) :
    Sys.Spent ⟨{ s.heap with mem := m }, s.live⟩ o := by
  intro idle
  have apart : ¬ (b.off ≤ o ∧ o < b.off + 16 + b.size) := fun inside =>
    idle ((inv'.covers_iff o).mpr ⟨b, hb, inside⟩)
  have header : hdrAt m o = hdrAt s.heap.mem o := hdrAt_congr fun i lo hi => same i (by omega)
  simp only [header]
  apply spent
  rwa [inv.covers_iff, ← inv'.covers_iff]

section
variable (abi : Abi)
include abi

/-- Every safe call leaves a place that was given back as it is or hands it out. -/
theorem call_spent (inv : SysInv base size s bs) (ho : o % 16 = 0) (spent : s.Spent o) {c : Call}
    (safe : s.Safe abi c) {next : Sys} (returned : s.call abi c = some next) : next.Spent o := by
  cases c with
  | kmalloc n =>
    obtain ⟨r, h', bs', hok, inv', kept, _⟩ := kmalloc_inv abi inv safe
    simp only [Sys.call, hok, Option.map_some, Option.some.injEq] at returned
    subst returned
    exact spent.kmalloc abi inv ho safe hok inv' kept
  | kzalloc n =>
    obtain ⟨r, h', bs', hok, inv', kept, place⟩ := kmalloc_inv abi inv safe
    have spent' := spent.kmalloc abi inv ho safe hok inv' kept
    by_cases null : r = 0
    · subst null
      simp only [Sys.call, kzalloc, hok, if_true, Option.map_some, Option.some.injEq] at returned
      subst returned
      exact spent'
    · obtain ⟨y, hy, hp, large⟩ := place null
      obtain ⟨m, inside, clears⟩ := kzalloc_clears abi hok inv'.hbase hp large
      simp only [Sys.call, clears, Option.map_some, Option.some.injEq] at returned
      subst returned
      exact spent'.write inv' ho hy inside (inv'.write hy inside).1
  | kfree p =>
    rcases safe with rfl | held
    · simp only [Sys.call, HeapC.kfree, if_true, Option.map_some, inv.filter_null,
        Option.some.injEq] at returned
      subst returned
      exact spent
    · obtain ⟨h', bs', hok, inv', kept⟩ := kfree_inv abi inv held
      simp only [Sys.call, hok, Option.map_some, Option.some.injEq] at returned
      subst returned
      exact spent.kfree abi inv ho held hok inv' kept
  | krealloc p n =>
    obtain ⟨serves, target⟩ := safe
    obtain ⟨r, h₁, bs₁, hok, inv₁, kept₁, place⟩ := kmalloc_inv abi inv serves
    have spent₁ := spent.kmalloc abi inv ho serves hok inv₁ kept₁
    rcases target with rfl | held
    · simp only [Sys.call, krealloc, if_true, hok, Option.map_some, inv.filter_null, ite_self,
        Option.some.injEq] at returned
      subst returned
      exact spent₁
    · have given := inv.held_positive held
      by_cases none : n = 0
      · subst none
        obtain ⟨h', bs', hok, inv', kept⟩ := kfree_inv abi inv held
        simp only [Sys.call, krealloc, if_neg given, if_true, hok, Option.map_some,
          Option.some.injEq] at returned
        subst returned
        exact spent.kfree abi inv ho held hok inv' kept
      · obtain ⟨x, hx, rfl⟩ := List.mem_map.mp (inv.held.mem_iff.mp held)
        by_cases null : r = 0
        · subst null
          simp only [Sys.call, krealloc, if_neg given, if_neg none, hok, if_true, Option.map_some,
            Option.some.injEq] at returned
          subst returned
          exact spent₁
        · rw [if_neg null] at inv₁ spent₁
          obtain ⟨y, m, h₃, bs₃, moved⟩ :=
            krealloc_moves abi inv hx (by omega) hok inv₁ (kept₁ x hx).used (place null)
          have spent₂ := spent₁.write inv₁ ho moved.taken moved.inside moved.filled
          have spent₃ :=
            spent₂.kfree abi moved.filled ho moved.held moved.freed moved.settled moved.kept
          simp only [Sys.call, moved.result, Option.map_some, if_neg null,
            Option.some.injEq] at returned
          rw [moved.live] at spent₃
          subst returned
          exact spent₃
  | store p i v =>
    have inv' := (store_inv (v := v) inv safe).1
    obtain ⟨e, hlive, rfl, hi⟩ := safe
    obtain ⟨b, hb, hp, hle⟩ := inv.room _ hlive
    cases returned
    refine spent.write inv ho hb (fun j hj => ?_) inv'
    have hbase := inv.hbase
    have hne : j ≠ e.1 - s.heap.hbase + i := by
      simp only [payloadPtr] at hp hle
      omega
    simp only [put8, if_neg hne]

variable {calls : List Call} {q : Nat}

theorem calls_spent {final : Sys} (run : Run (Sys.call abi) (Sys.Safe abi) s calls final)
    (inv : SysInv base size s bs) (ho : o % 16 = 0) (spent : s.Spent o) : final.Spent o := by
  have kept := run.invariant (fun s => (∃ bs, SysInv base size s bs) ∧ s.Spent o) ?_ ⟨⟨bs, inv⟩,
    spent⟩
  · exact kept.2
  · rintro s c next ⟨⟨bs, inv⟩, spent⟩ safe returned
    obtain ⟨next', bs', hcall, inv', _⟩ := call_keeps abi inv safe
    rw [returned] at hcall
    cases hcall
    exact ⟨⟨bs', inv'⟩, call_spent abi inv ho spent safe returned⟩

/-! ## Freeing again -/

/-- `kfree(q)` finds a header that does not read as in use. -/
def Heap.Rejects (h : Heap) (q : Nat) : Prop :=
  ∃ o, o % 16 = 0 ∧ o < 4294967296 ∧ q = h.hbase + o + 16 ∧ (hdrAt h.mem o).magic ≠ magicUsed

theorem Heap.Rejects.kfree {h : Heap} (rejects : h.Rejects q) :
    HeapC.kfree abi h q = some (noteError h) := by
  obtain ⟨o, _, hlt, rfl, unused⟩ := rejects
  have hoff : offsetOf h (h.hbase + o + 16) = o := by
    simp only [offsetOf, hdrSize]
    omega
  simp only [HeapC.kfree, if_neg (show h.hbase + o + 16 ≠ 0 by omega), hoff]
  split
  · rfl
  · exact if_pos (Or.inl unused)

/-- `kfree` of a pointer that is held or rejected returns; what was rejected stays so, and so
does what was held unless it is rejected now. -/
theorem kfree_again (inv : SysInv base size s bs)
    (given : q ∈ s.live.map Prod.fst ∨ s.heap.Rejects q) :
    ∃ next bs', kfree abi s.heap q = some next.heap ∧ SysInv base size next bs' ∧
      (∀ p, s.heap.Rejects p → next.heap.Rejects p) ∧
      (∀ p ∈ s.live.map Prod.fst, p ∈ next.live.map Prod.fst ∨ next.heap.Rejects p) ∧
      next.heap.Rejects q := by
  rcases given with held | rejects
  · obtain ⟨h', bs', hok, inv', _⟩ := kfree_inv abi inv held
    obtain ⟨pre, b, post, rfl, used, rfl⟩ := inv.block_of_held held
    have fits : Fits s.heap.hsize (pre ++ b :: post) := inv.hsize ▸ inv.fits
    have around := fits.around
    have hbase : h'.hbase = s.heap.hbase := inv'.hbase.trans inv.hbase.symm
    have hptr : payloadPtr base b = s.heap.hbase + b.off + 16 := by
      rw [inv.hbase]
      rfl
    have hok' := hok
    rw [hptr] at hok'
    have gone : h'.Rejects (payloadPtr base b) := by
      refine ⟨b.off, around.self, by have := around.self_lt; omega, by rw [hptr, hbase], ?_⟩
      exact (kfree_magic abi s.heap fits inv.rep used hok' around.self).1 ⟨Nat.le_refl _, by omega⟩
    refine ⟨_, bs', hok, inv', ?_, ?_, gone⟩
    · rintro p ⟨o, ho, hlt, rfl, unused⟩
      refine ⟨o, ho, hlt, by rw [hbase], ?_⟩
      obtain ⟨freed, others⟩ := kfree_magic abi s.heap fits inv.rep used hok' ho
      by_cases inside : b.off ≤ o ∧ o < b.off + 16 + b.size
      · exact freed inside
      · rw [others inside]
        exact unused
    · intro p member
      by_cases same : p = payloadPtr base b
      · exact Or.inr (same ▸ gone)
      · obtain ⟨e, he, rfl⟩ := List.mem_map.mp member
        exact Or.inl (List.mem_map_of_mem (List.mem_filter.mpr ⟨he, by simpa using same⟩))
  · have inv' : SysInv base size ⟨noteError s.heap, s.live⟩ bs :=
      ⟨inv.hbase, inv.hsize, inv.small, inv.layout, inv.rep, inv.held, inv.room⟩
    exact ⟨_, bs, rejects.kfree abi, inv', fun _ old => old, fun _ held => Or.inl held, rejects⟩

/-- A sequence of such calls returns, and what was rejected before it is rejected after it. -/
theorem frees_again {qs : List Nat} (inv : SysInv base size s bs)
    (given : ∀ q ∈ qs, q ∈ s.live.map Prod.fst ∨ s.heap.Rejects q) :
    ∃ h, qs.foldlM (kfree abi) s.heap = some h ∧ ∀ p, s.heap.Rejects p → h.Rejects p := by
  induction qs generalizing s bs with
  | nil => exact ⟨s.heap, rfl, fun _ old => old⟩
  | cons q rest ih =>
    obtain ⟨next, bs', hok, inv', stays, moved, _⟩ := kfree_again abi inv (given q (by simp))
    obtain ⟨h, hrest, kept⟩ := ih inv' fun p member => by
      rcases given p (by simp [member]) with held | old
      · exact moved p held
      · exact Or.inr (stays p old)
    refine ⟨h, ?_, fun p old => kept p (stays p old)⟩
    rw [List.foldlM_cons, hok]
    exact hrest

/-- The pointer was held at some point of a run from `start`. -/
def WasHeld (abi : Abi) (start : Sys) (calls : List Call) (q : Nat) : Prop :=
  ∃ front back mid, calls = front ++ back ∧ Run (Sys.call abi) Sys.Allows start front mid ∧
    q ∈ mid.live.map Prod.fst

/-- A pointer that was held, and whose place lies in no block held now, is rejected. -/
theorem WasHeld.rejects {start : Sys} (inv : SysInv base size start bs)
    (run : Run (Sys.call abi) Sys.Allows start calls s) (past : WasHeld abi start calls q)
    (idle : ¬ s.Covers (offsetOf s.heap q)) : s.heap.Rejects q := by
  obtain ⟨front, back, mid, rfl, hfront, held⟩ := past
  obtain ⟨mid', hfront', hback⟩ := run.split
  obtain rfl : mid' = mid := hfront'.deterministic hfront
  obtain ⟨bs₁, inv₁⟩ := calls_inv abi hfront inv
  obtain ⟨bs₂, inv₂⟩ := calls_inv abi hback inv₁
  obtain ⟨pre, b, post, rfl, used, rfl⟩ := inv₁.block_of_held held
  have around := inv₁.fits.around
  have hbase := inv₂.hbase
  have hoff : offsetOf s.heap (payloadPtr base b) = b.off := by
    have := around.self_lt
    simp only [offsetOf, hdrSize, hbase, payloadPtr]
    omega
  rw [hoff] at idle
  have spent : mid'.Spent b.off := fun idle' =>
    absurd ((inv₁.covers_iff b.off).mpr ⟨b, mem_usedBlocks.mpr ⟨by simp, used⟩,
      Nat.le_refl _, by omega⟩) idle'
  have kept := calls_spent abi (hback.imp fun _ _ allowed => allowed.safe abi) inv₁
    around.self spent
  exact ⟨b.off, around.self, by have := around.self_lt; omega, by rw [hbase]; rfl, kept idle⟩

end

/-- From every reachable state, for every pointer held in it: after freeing it and then any
pointers that were held (each still held, or given back and not in a block handed out since),
in any order and any number of times, freeing it again only counts an error. -/
theorem double_free_harmless (abi : Abi) (h : Heap) (base size : Nat) (hmin : 32 ≤ alignUp size)
    (hmax : alignUp size < 2147483648) (calls : List Call) (s : Sys)
    (run : Run (Sys.call abi) Sys.Allows (boot h base size) calls s) (p : Nat)
    (live : p ∈ s.live.map Prod.fst) (qs : List Nat)
    (given : ∀ q ∈ qs, q ∈ s.live.map Prod.fst ∨
      (WasHeld abi (boot h base size) calls q ∧ ¬ s.Covers (offsetOf s.heap q))) :
    ∃ h₁ h₂, kfree abi s.heap p = some h₁ ∧ qs.foldlM (kfree abi) h₁ = some h₂ ∧
      kfree abi h₂ p = some (noteError h₂) := by
  have start := boot_rounded h base hmin hmax
  obtain ⟨bs, inv⟩ := calls_inv abi run start
  obtain ⟨next, bs', hfirst, inv', stays, moved, gone⟩ := kfree_again abi inv (Or.inl live)
  obtain ⟨h₂, hrest, kept⟩ := frees_again abi inv' fun q member => by
    rcases given q member with held | ⟨past, idle⟩
    · exact moved q held
    · exact Or.inr (stays q (past.rejects abi start run idle))
  exact ⟨next.heap, h₂, hfirst, hrest, (kept p gone).kfree abi⟩

/-- Two neighbours: the first is freed, then the second, which merges with it, then both again. -/
theorem double_free_harmless_merged :
    ∃ s h₁ h₂, Run (Sys.call .ilp32) Sys.Allows (boot sampleHeap 0x100000 4096)
    [.kmalloc 100, .kmalloc 40] s ∧
      kfree .ilp32 s.heap 0x100010 = some h₁ ∧
      [0x100090, 0x100010, 0x100090].foldlM (kfree .ilp32) h₁ = some h₂ ∧
      kfree .ilp32 h₂ 0x100010 = some (noteError h₂) := by
  have hexec : ((exec (Sys.call .ilp32) Sys.Allows (boot sampleHeap 0x100000 4096) [.kmalloc 100,
    .kmalloc 40]).map
      Sys.live) = some [(0x100090, 40), (0x100010, 100)] := by decide
  obtain ⟨s, hs, hlive⟩ := Option.map_eq_some_iff.mp hexec
  have held : ∀ q ∈ [0x100090, 0x100010, 0x100090], q ∈ s.live.map Prod.fst := by
    rw [hlive]
    decide
  obtain ⟨h₁, h₂, hfirst, hrest, again⟩ := double_free_harmless .ilp32 sampleHeap 0x100000 4096
    (by decide) (by decide)
    _ s (Run.of_exec hs) 0x100010 (held _ (by decide)) [0x100090, 0x100010,
      0x100090] fun q member =>
      Or.inl (held q member)
  exact ⟨s, h₁, h₂, Run.of_exec hs, hfirst, hrest, again⟩

end Obsidian.Mm.HeapC
