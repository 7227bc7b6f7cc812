import Obsidian.Mm.HeapCSafety

/-!
# The whole interface of the C allocator, and the data its clients keep

`kzalloc` and `krealloc` join the calls of `HeapCRuns`. A step lemma says what
one call leaves alone: every block in use that the call does not name keeps its
place, its size and its octets.
-/
namespace Obsidian.Mm.HeapC
open Lib Lib.Bytes Lib.Tiling

variable {bs : List Block} {base size : Nat} {s : Sys}

/-! ## Calls -/

inductive Call where
  | kmalloc (n : Nat)
  | kzalloc (n : Nat)
  | kfree (p : Nat)
  | krealloc (p n : Nat)
  | store (p i : Nat) (v : UInt8)
  deriving DecidableEq, Repr

/-- The pointer a call is applied to. -/
def Call.target : Call → Option Nat
  | .kmalloc _ | .kzalloc _ => none
  | .kfree p | .krealloc p _ | .store p _ _ => some p

/-- A null result of `krealloc` leaves the old pointer held unless the size was zero. -/
def Sys.call (abi : Abi) (s : Sys) : Call → Option Sys
  | .kmalloc n => (kmalloc abi s.heap n).map fun r =>
      ⟨r.2, if r.1 = 0 then s.live else (r.1, n) :: s.live⟩
  | .kzalloc n => (kzalloc abi s.heap n).map fun r =>
      ⟨r.2, if r.1 = 0 then s.live else (r.1, n) :: s.live⟩
  | .kfree p => (kfree abi s.heap p).map fun h => ⟨h, s.live.filter fun e => e.1 ≠ p⟩
  | .krealloc p n => (krealloc abi s.heap p n).map fun r =>
      ⟨r.2, if r.1 = 0 then (if n = 0 then s.live.filter fun e => e.1 ≠ p else s.live)
        else (r.1, n) :: s.live.filter fun e => e.1 ≠ p⟩
  | .store p i v =>
      some { s with heap := { s.heap with mem := put8 s.heap.mem (p - s.heap.hbase + i) v.toNat } }

/-- Sizes are at most 2^31; what is freed or reallocated is NULL or held; clients write
inside what they asked for. -/
def Sys.Allows (s : Sys) : Call → Prop
  | .kmalloc n | .kzalloc n => n ≤ 2147483648
  | .kfree p => p = 0 ∨ p ∈ s.live.map Prod.fst
  | .krealloc p n => n ≤ 2147483648 ∧ (p = 0 ∨ p ∈ s.live.map Prod.fst)
  | .store p i _ => ∃ e ∈ s.live, e.1 = p ∧ i < e.2

instance (s : Sys) (c : Call) : Decidable (s.Allows c) :=
  match c with
  | .kmalloc n | .kzalloc n => inferInstanceAs (Decidable (n ≤ 2147483648))
  | .kfree p => inferInstanceAs (Decidable (p = 0 ∨ p ∈ s.live.map Prod.fst))
  | .krealloc p n =>
    inferInstanceAs (Decidable (n ≤ 2147483648 ∧ (p = 0 ∨ p ∈ s.live.map Prod.fst)))
  | .store p i _ => inferInstanceAs (Decidable (∃ e ∈ s.live, e.1 = p ∧ i < e.2))

/-- The same with sizes up to the point where a request wraps. -/
def Sys.Safe (abi : Abi) (s : Sys) : Call → Prop
  | .kmalloc n | .kzalloc n => s.heap.Serves abi n
  | .kfree p => p = 0 ∨ p ∈ s.live.map Prod.fst
  | .krealloc p n => s.heap.Serves abi n ∧ (p = 0 ∨ p ∈ s.live.map Prod.fst)
  | .store p i _ => ∃ e ∈ s.live, e.1 = p ∧ i < e.2

instance (abi : Abi) (s : Sys) (c : Call) : Decidable (s.Safe abi c) :=
  match c with
  | .kmalloc n | .kzalloc n => inferInstanceAs (Decidable (s.heap.Serves abi n))
  | .kfree p => inferInstanceAs (Decidable (p = 0 ∨ p ∈ s.live.map Prod.fst))
  | .krealloc p n =>
    inferInstanceAs (Decidable (s.heap.Serves abi n ∧ (p = 0 ∨ p ∈ s.live.map Prod.fst)))
  | .store p i _ => inferInstanceAs (Decidable (∃ e ∈ s.live, e.1 = p ∧ i < e.2))

theorem Sys.Allows.safe (abi : Abi) {c : Call} (allowed : s.Allows c) : s.Safe abi c := by
  cases c with
  | kmalloc n => exact s.heap.serves_small abi allowed
  | kzalloc n => exact s.heap.serves_small abi allowed
  | kfree p => exact allowed
  | krealloc p n => exact ⟨s.heap.serves_small abi allowed.1, allowed.2⟩
  | store p i v => exact allowed

/-! ## What single calls do -/

theorem SysInv.held_positive (inv : SysInv base size s bs) {p : Nat}
    (member : p ∈ s.live.map Prod.fst) :
    p ≠ 0 := by
  obtain ⟨_, b, _, _, _, rfl⟩ := inv.block_of_held member
  simp only [payloadPtr]
  omega

theorem SysInv.filter_null (inv : SysInv base size s bs) :
    (s.live.filter fun e => e.1 ≠ 0) = s.live := by
  refine List.filter_eq_self.mpr fun e member => ?_
  simpa using inv.held_positive (List.mem_map_of_mem member)

theorem SysInv.fresh {h' : Heap} {r n : Nat} {bs' : List Block}
    (inv' : SysInv base size ⟨h', (r, n) :: s.live⟩ bs') : r ∉ s.live.map Prod.fst := by
  have distinct := inv'.live_nodup
  simp only [List.map_cons, List.nodup_cons] at distinct
  exact distinct.1

variable {calls : List Call} {x : Block} {final : Sys}

theorem SysInv.held_of_used (inv : SysInv base size s bs) (hx : x ∈ usedBlocks bs) :
    payloadPtr base x ∈ s.live.map Prod.fst :=
  inv.held.mem_iff.mpr (List.mem_map_of_mem hx)

section
variable (abi : Abi)
include abi

theorem kzalloc_clears {y : Block} {n r : Nat} {h₁ : Heap}
    (hok : kmalloc abi s.heap n = some (r, h₁)) (hbase : h₁.hbase = base)
    (hp : r = payloadPtr base y) (large : n ≤ y.size) :
    ∃ m, (∀ i, i < y.off + 16 ∨ y.off + 16 + y.size ≤ i → m i = h₁.mem i) ∧
      kzalloc abi s.heap n = some (r, { h₁ with mem := m }) := by
  have null : r ≠ 0 := by
    rw [hp]
    simp only [payloadPtr]
    omega
  have here : r - h₁.hbase = y.off + 16 := by
    rw [hp]
    simp only [payloadPtr]
    omega
  refine ⟨fill h₁.mem (r - h₁.hbase) n 0, fun i outside => fill_outside _ _ (by omega), ?_⟩
  simp only [kzalloc, hok, if_neg null]

section
variable (inv : SysInv base size s bs)
include inv

theorem kzalloc_inv {n : Nat} (serves : s.heap.Serves abi n) :
    ∃ r h' bs', kzalloc abi s.heap n = some (r, h') ∧
      SysInv base size ⟨h', if r = 0 then s.live else (r, n) :: s.live⟩ bs' ∧
      ∀ x ∈ usedBlocks bs, Stays s.heap.mem h'.mem bs' x := by
  obtain ⟨r, h', bs', hok, inv', kept, place⟩ := kmalloc_inv abi inv serves
  by_cases null : r = 0
  · subst null
    exact ⟨0, h', bs', by simp only [kzalloc, hok, if_true], inv', kept⟩
  · obtain ⟨y, hy, hp, large⟩ := place null
    obtain ⟨m, inside, clears⟩ := kzalloc_clears abi hok inv'.hbase hp large
    obtain ⟨inv'', others⟩ := inv'.write hy inside
    refine ⟨r, _, bs', clears, inv'', fun x hx => ?_⟩
    have old := kept x hx
    refine old.trans (others x old.used fun same => ?_)
    rw [if_neg null] at inv'
    exact inv'.fresh (hp ▸ same ▸ inv.held_of_used hx)

/-- `krealloc` of the block `x` once it has the new block `y`: the old data is copied, which
gives the memory `m`, and the old block is freed. -/
structure Moved (abi : Abi) (base size : Nat) (s : Sys) (x : Block) (n r : Nat) (h₁ : Heap)
    (bs₁ : List Block) (y : Block) (m : Bytes) (h₃ : Heap) (bs₃ : List Block) : Prop where
  taken : y ∈ usedBlocks bs₁
  place : r = payloadPtr base y
  large : n ≤ y.size
  fresh : r ∉ s.live.map Prod.fst
  inside : ∀ i, i < y.off + 16 ∨ y.off + 16 + y.size ≤ i → m i = h₁.mem i
  copied : ∀ i < min x.size n, m (y.off + 16 + i) = h₁.mem (x.off + 16 + i)
  filled : SysInv base size ⟨{ h₁ with mem := m }, (r, n) :: s.live⟩ bs₁
  held : payloadPtr base x ∈ ((r, n) :: s.live).map Prod.fst
  freed : kfree abi { h₁ with mem := m } (payloadPtr base x) = some h₃
  settled : SysInv base size ⟨h₃, ((r, n) :: s.live).filter fun e => e.1 ≠ payloadPtr base x⟩ bs₃
  kept : ∀ z ∈ usedBlocks bs₁, payloadPtr base z ≠ payloadPtr base x → Stays m h₃.mem bs₃ z
  live : (((r, n) :: s.live).filter fun e => e.1 ≠ payloadPtr base x) =
    (r, n) :: s.live.filter fun e => e.1 ≠ payloadPtr base x
  result : krealloc abi s.heap (payloadPtr base x) n = some (r, h₃)

theorem krealloc_moves (hx : x ∈ usedBlocks bs) {n r : Nat} {h₁ : Heap} {bs₁ : List Block}
    (hpos : 1 ≤ n) (hok : kmalloc abi s.heap n = some (r, h₁))
    (inv₁ : SysInv base size ⟨h₁, (r, n) :: s.live⟩ bs₁) (stays : x ∈ usedBlocks bs₁)
    (place : ∃ y ∈ usedBlocks bs₁, r = payloadPtr base y ∧ n ≤ y.size) :
    ∃ y m h₃ bs₃, Moved abi base size s x n r h₁ bs₁ y m h₃ bs₃ := by
  obtain ⟨y, hy, hp, large⟩ := place
  have given : payloadPtr base x ≠ 0 := inv.held_positive (inv.held_of_used hx)
  have null : r ≠ 0 := by
    rw [hp]
    simp only [payloadPtr]
    omega
  have hbase : h₁.hbase = base := inv₁.hbase
  have source : payloadPtr base x - h₁.hbase = x.off + 16 := by
    rw [hbase]
    simp only [payloadPtr]
    omega
  have target : r - h₁.hbase = y.off + 16 := by
    rw [hp]
    simp only [payloadPtr]
    omega
  have old : (hdrAt h₁.mem (x.off + 16 - hdrSize)).size = x.size :=
    (inv₁.rep.headers x (mem_usedBlocks.mp stays).1).size
  have count : (if x.size < n then x.size else n) = min x.size n := by
    split <;> omega
  -- the copy stays inside the new block
  have inside : ∀ i, i < y.off + 16 ∨ y.off + 16 + y.size ≤ i →
      copy h₁.mem (y.off + 16) h₁.mem (x.off + 16) (min x.size n) i = h₁.mem i := by
    intro i outside
    have : ¬ (y.off + 16 ≤ i ∧ i < y.off + 16 + min x.size n) := by omega
    simp only [copy, if_neg this]
  have inv₂ := (inv₁.write hy inside).1
  have held : payloadPtr base x ∈ ((r, n) :: s.live).map Prod.fst :=
    List.mem_cons_of_mem _ (inv.held_of_used hx)
  have fresh : r ∉ s.live.map Prod.fst := inv₁.fresh
  have apart : r ≠ payloadPtr base x := fun same => fresh (same ▸ inv.held_of_used hx)
  obtain ⟨h₃, bs₃, hfreed, inv₃, kept₃⟩ := kfree_inv abi inv₂ held
  have freed :
    kfree abi { h₁ with mem := copy h₁.mem (y.off + 16) h₁.mem (x.off + 16) (min x.size n) }
      (payloadPtr base x) = some h₃ := hfreed
  refine ⟨y, _, h₃, bs₃, hy, hp, large, fresh, inside, fun i hi => copy_inside _ _ _ _ _ _ hi, inv₂,
    held, freed, inv₃,
    kept₃, List.filter_cons_of_pos (by simpa using apart), ?_⟩
  simp only [krealloc, if_neg given, if_neg (show n ≠ 0 by omega), hok, if_neg null, source, target,
    old, count, freed]

/-- `krealloc` of a held pointer to one octet or more: a null result changes no block in use;
otherwise the result is a new block that starts with the old data, and the old one is gone. -/
theorem krealloc_inv (hx : x ∈ usedBlocks bs) {n : Nat} (hpos : 1 ≤ n)
    (serves : s.heap.Serves abi n) :
    ∃ r h' bs', krealloc abi s.heap (payloadPtr base x) n = some (r, h') ∧
      SysInv base size ⟨h', if r = 0 then s.live
        else (r, n) :: s.live.filter fun e => e.1 ≠ payloadPtr base x⟩ bs' ∧
      (∀ z ∈ usedBlocks bs, r = 0 ∨ payloadPtr base z ≠ payloadPtr base x →
        Stays s.heap.mem h'.mem bs' z) ∧
      (r ≠ 0 → r ∉ s.live.map Prod.fst ∧ ∃ y ∈ usedBlocks bs', r = payloadPtr base y ∧ n ≤ y.size ∧
        ∀ i < min x.size n, h'.mem (y.off + 16 + i) = s.heap.mem (x.off + 16 + i)) := by
  have given : payloadPtr base x ≠ 0 := inv.held_positive (inv.held_of_used hx)
  obtain ⟨r, h₁, bs₁, hok, inv₁, kept₁, place⟩ := kmalloc_inv abi inv serves
  by_cases null : r = 0
  · subst null
    refine ⟨0, h₁, bs₁, ?_, inv₁, fun z hz _ => kept₁ z hz, fun taken => absurd rfl taken⟩
    simp only [krealloc, if_neg given, if_neg (show n ≠ 0 by omega), hok, if_true]
  · rw [if_neg null] at inv₁
    obtain ⟨y, m, h₃, bs₃, moved⟩ := krealloc_moves abi inv hx hpos hok inv₁ (kept₁ x hx).used
      (place null)
    have apart : ∀ z ∈ usedBlocks bs, payloadPtr base z ≠ payloadPtr base y := fun z hz same =>
      moved.fresh (moved.place ▸ same ▸ inv.held_of_used hz)
    have stays := moved.kept y moved.taken (apart x hx).symm
    refine ⟨r, h₃, bs₃, moved.result, ?_, ?_, fun _ => ⟨moved.fresh, y, stays.used, moved.place,
      moved.large, ?_⟩⟩
    · rw [if_neg null, ← moved.live]
      exact moved.settled
    · intro z hz spared
      have first := kept₁ z hz
      have second := (inv₁.write moved.taken moved.inside).2 z first.used (apart z hz)
      exact (first.trans second).trans (moved.kept z second.used (spared.resolve_left null))
    · intro i hi
      have hlarge := moved.large
      calc h₃.mem (y.off + 16 + i)
          = m (y.off + 16 + i) := stays.octets _ (by omega) (by omega)
        _ = h₁.mem (x.off + 16 + i) := moved.copied i hi
        _ = s.heap.mem (x.off + 16 + i) := (kept₁ x hx).octets _ (by omega) (by omega)

/-! ## Runs -/

/-- Every safe call returns, keeps the invariant and leaves alone each block in use that
it is not applied to. -/
theorem call_keeps {c : Call} (safe : s.Safe abi c) :
    ∃ next bs', s.call abi c = some next ∧ SysInv base size next bs' ∧
      ∀ x ∈ usedBlocks bs, c.target ≠ some (payloadPtr base x) →
      Stays s.heap.mem next.heap.mem bs' x := by
  cases c with
  | kmalloc n =>
    obtain ⟨r, h', bs', hok, inv', kept, _⟩ := kmalloc_inv abi inv safe
    exact ⟨_, bs', by simp only [Sys.call, hok, Option.map_some], inv', fun x hx _ => kept x hx⟩
  | kzalloc n =>
    obtain ⟨r, h', bs', hok, inv', kept⟩ := kzalloc_inv abi inv safe
    exact ⟨_, bs', by simp only [Sys.call, hok, Option.map_some], inv', fun x hx _ => kept x hx⟩
  | kfree p =>
    rcases safe with rfl | held
    · refine ⟨s, bs, ?_, inv, fun x hx _ => ⟨hx, fun _ _ _ => rfl⟩⟩
      simp only [Sys.call, kfree, if_true, Option.map_some, inv.filter_null]
    · obtain ⟨h', bs', hok, inv', kept⟩ := kfree_inv abi inv held
      exact ⟨_, bs', by simp only [Sys.call, hok, Option.map_some], inv',
        fun x hx spared => kept x hx fun same => spared (congrArg some same.symm)⟩
  | krealloc p n =>
    obtain ⟨serves, rfl | held⟩ := safe
    · obtain ⟨r, h', bs', hok, inv', kept, _⟩ := kmalloc_inv abi inv serves
      refine ⟨_, bs', ?_, inv', fun x hx _ => kept x hx⟩
      simp only [Sys.call, krealloc, if_true, hok, Option.map_some, inv.filter_null, ite_self]
    · have given := inv.held_positive held
      obtain ⟨x, hx, rfl⟩ := List.mem_map.mp (inv.held.mem_iff.mp held)
      by_cases none : n = 0
      · subst none
        obtain ⟨h', bs', hok, inv', kept⟩ := kfree_inv abi inv held
        refine ⟨_, bs', ?_, inv', fun z hz spared => kept z hz fun same =>
          spared (congrArg some same.symm)⟩
        simp only [Sys.call, krealloc, if_neg given, if_true, hok, Option.map_some]
      · obtain ⟨r, h', bs', hok, inv', kept, _⟩ := krealloc_inv abi inv hx (by omega) serves
        refine ⟨_, bs', ?_, inv', fun z hz spared =>
          kept z hz (Or.inr fun same => spared (congrArg some same.symm))⟩
        simp only [Sys.call, hok, Option.map_some, if_neg none]
  | store p i v =>
    obtain ⟨inv', kept⟩ := store_inv (v := v) inv safe
    exact ⟨_, bs, rfl, inv', fun x hx spared => kept x hx fun same =>
      spared (congrArg some same.symm)⟩

end

theorem safe_calls_inv (run : Run (Sys.call abi) (Sys.Safe abi) s calls final)
    (inv : SysInv base size s bs) :
    ∃ bs', SysInv base size final bs' := by
  refine run.invariant (fun s => ∃ bs, SysInv base size s bs) ?_ ⟨bs, inv⟩
  intro s c next known safe returned
  obtain ⟨bs, inv⟩ := known
  obtain ⟨next', bs', hcall, inv', _⟩ := call_keeps abi inv safe
  rw [returned] at hcall
  cases hcall
  exact ⟨bs', inv'⟩

theorem calls_inv (run : Run (Sys.call abi) Sys.Allows s calls final)
    (inv : SysInv base size s bs) :
    ∃ bs', SysInv base size final bs' :=
  safe_calls_inv abi (run.imp fun _ _ allowed => allowed.safe abi) inv

/-- A block in use that no call of a run is applied to stays through the whole run. -/
theorem calls_keep (run : Run (Sys.call abi) Sys.Allows s calls final) (inv : SysInv base size s bs)
    (hx : x ∈ usedBlocks bs) (spared : ∀ c ∈ calls, c.target ≠ some (payloadPtr base x)) :
    ∃ bs', SysInv base size final bs' ∧ Stays s.heap.mem final.heap.mem bs' x := by
  induction run generalizing bs with
  | done s => exact ⟨bs, inv, hx, fun _ _ _ => rfl⟩
  | call allowed returned _ ih =>
    obtain ⟨next, bs', hcall, inv', kept⟩ := call_keeps abi inv (allowed.safe abi)
    rw [returned] at hcall
    cases hcall
    have first := kept x hx (spared _ (by simp))
    obtain ⟨bs'', inv'', second⟩ := ih inv' first.used fun c member => spared c (by simp [member])
    exact ⟨bs'', inv'', first.trans second⟩

end

end Obsidian.Mm.HeapC
