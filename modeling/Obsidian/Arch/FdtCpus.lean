import Obsidian.Arch.FdtTree

/-!
# Counting processors

The count is the one result of the walk for which the name of the node above is the right
one to compare: a processor is a child of `cpus`.
-/
namespace Obsidian.Arch.Fdt
open Lib Lib.Bytes Traced

/-- The `device_type` properties that begin with `cpu` in children of nodes called `cpus`; the
body is that of the node `own` below `up`. -/
def Body.cpus (up : Option (List UInt8)) (own : List UInt8) : Body → Nat
  | .nil => 0
  | .nop rest => rest.cpus up own
  | .prop name value rest =>
    (if up = some sCpus ∧ name.1 = sDeviceType ∧ sCpu.isPrefixOf value then 1 else 0) +
      rest.cpus up own
  | .node name body rest => body.cpus (some own) name.1 + rest.cpus up own

/-- A property that counts. -/
def Located.isCpu (l : Located) : Bool :=
  l.up = some sCpus && l.name = sDeviceType && sCpu.isPrefixOf l.value

/-- A property that the walk counts. -/
def Located.counted (mem : Bytes) (l : Located) : Bool :=
  l.up.any (fun u => !isMemory u && !isUart u && isCpus u) && l.name =
    sDeviceType && (kStrncmp mem l.place sCpu).val = 0

variable {mem : Bytes} {a addr lead trail : Nat} {root : Body} {own : List UInt8}
    {up : Option (List UInt8)}

theorem countP_located (b : Body) (up : Option (List UInt8)) (own : List UInt8) (p : Nat) :
    (b.located up own p).countP Located.isCpu = b.cpus up own := by
  induction b generalizing up own p with
  | nil => rfl
  | nop rest ih => exact ih up own (p + 4)
  | prop name value rest ih =>
    rw [Body.located, List.countP_cons, ih, Body.cpus, Nat.add_comm]
    simp [Located.isCpu, and_assoc]
  | node name body rest ihBody ihRest => rw [Body.located, List.countP_append, ihBody,
      ihRest, Body.cpus]

theorem located_clean (b : Body) {up : Option (List UInt8)} {own : List UInt8} (p : Nat)
    (above : ∀ u, up = some u → (0 : UInt8) ∉ u) (clean : (0 : UInt8) ∉ own) :
    ∀ l ∈ b.located up own p, ∀ u, l.up = some u → (0 : UInt8) ∉ u := by
  induction b generalizing up own p with
  | nil => exact fun l member => nomatch member
  | nop rest ih => exact ih (p + 4) above clean
  | prop name value rest ih =>
    intro l member
    rcases List.mem_cons.mp member with rfl | later
    · exact above
    · exact ih _ above clean l later
  | node name body rest ihBody ihRest =>
    intro l member
    rw [Body.located, List.mem_append] at member
    rcases member with member | member
    · refine ihBody _ ?_ name.2 l member
      rintro u ⟨⟩
      exact clean
    · exact ihRest _ above clean l member

theorem kStrncmp_val (mem : Bytes) (a : Nat) (s : List UInt8) :
    (kStrncmp mem a s).val = CStr.strncmp mem a s := by
  induction s generalizing a with
  | nil => rfl
  | cons c rest ih => rw [kStrncmp, val_bind, load_val, val_ite, val_ite, ih, val_pure, val_pure,
      CStr.strncmp]

theorem isCpus_iff {u : List UInt8} (clean : (0 : UInt8) ∉ u) : isCpus u = true ↔ u = sCpus := by
  have spelled : PaddedAt (row u) 0 u (u.length + 1) := by
    intro k _
    rw [row, Nat.zero_add]
  rw [isCpus, decide_eq_true_eq, strcmp_spelled clean (by decide) spelled]

theorem cpus_tests (clean : ∀ u, up = some u → (0 : UInt8) ∉ u) :
    up.any (fun u => !isMemory u && !isUart u && isCpus u) = true ↔ up = some sCpus := by
  cases up with
  | none => simp
  | some u =>
    have other : isMemory sCpus = false ∧ isUart sCpus = false := by decide
    simp only [Option.any_some, Bool.and_eq_true, isCpus_iff (clean u rfl), Option.some.injEq]
    constructor
    · exact fun h => h.2
    · rintro rfl
      simp [other]

theorem prefixed_text {s : List UInt8} (literal : (0 : UInt8) ∉ s) (v : List UInt8) :
    s.isPrefixOf (text v) = s.isPrefixOf v := by
  induction s generalizing v with
  | nil => simp
  | cons c rest ih =>
    rw [List.mem_cons, not_or] at literal
    cases v with
    | nil => rfl
    | cons d v =>
      rw [text, List.takeWhile_cons]
      by_cases zero : d = 0
      · simp [zero, List.isPrefixOf_cons_cons, Ne.symm literal.1]
      · have tail := ih literal.2 v
        rw [text] at tail
        rw [if_pos (by simpa using zero), List.isPrefixOf_cons_cons, List.isPrefixOf_cons_cons,
          tail]

theorem counted_eq {l : Located} {n : Nat} (clean : ∀ u, l.up = some u → (0 : UInt8) ∉ u)
    (read : CStr.read mem l.place n = text l.value) (long : 3 ≤ n) : l.counted mem = l.isCpu := by
  have tested := cpus_tests clean
  have compared : (kStrncmp mem l.place sCpu).val = 0 ↔ sCpu.isPrefixOf l.value = true := by
    rw [kStrncmp_val, CStr.strncmp_eq_zero (by decide) (long), read, prefixed_text (by decide)]
  rw [Bool.eq_iff_iff, Located.counted, Located.isCpu]
  simp only [Bool.and_eq_true, decide_eq_true_eq, tested, compared]

theorem fold_cpus (ls : List Located) (h : Harvest) :
    (ls.foldl (Harvest.take mem) h).cpusFound =
    h.cpusFound + (ls.countP (Located.counted mem) : Nat) := by
  induction ls generalizing h with
  | nil => simp
  | cons l ls ih =>
    rw [List.foldl_cons, ih, List.countP_cons]
    have step : (h.take mem l).cpusFound = h.cpusFound + if l.counted mem then 1 else 0 := by
      simp only [Harvest.take, Located.counted, Bool.and_eq_true, decide_eq_true_eq, and_assoc]
      split
      · rfl
      · rw [Int.add_zero]
    rw [step]
    split
    · omega
    · simp

/-- The count is that of the tree, whatever else is in it and in whatever order. -/
theorem cpu_count_of_tree (mem : Bytes) (addr : Nat) (old : Harvest) (root : Body)
    (lead trail : Nat) (encodes : Encodes mem addr root lead trail) (levels : root.height ≤ 8) :
    ∃ bound, ∀ fuel, bound ≤ fuel → ∃ h, (fdtInit mem fuel addr old).val = some (true, h) ∧
      fdtCpuCount h = max 1 (root.cpus none [] : Int) := by
  obtain ⟨bound, returns⟩ := fdtInit_returns encodes levels old
  refine ⟨bound, fun fuel high => ⟨_, returns fuel high, ?_⟩⟩
  have inside := encodes.inside
  have same : (propertiesOf mem addr root lead).countP (Located.counted mem) =
      root.cpus none [] := by
    rw [← countP_located root none []]
    apply List.countP_congr
    intro l member
    have above : ∀ u : List UInt8, (none : Option (List UInt8)) = some u → (0 : UInt8) ∉ u :=
      fun _ h => nomatch h
    have clean := located_clean root _ above List.not_mem_nil l member
    rw [counted_eq clean (properties_text encodes l member) (by omega)]
  rw [fdtCpuCount, fold_cpus]
  simp only [Int.zero_add]
  split
  · omega
  · omega

theorem sCpus_clean : (0 : UInt8) ∉ sCpus := by decide

theorem sCpu_clean : (0 : UInt8) ∉ sCpu := by decide

theorem sDeviceType_clean : (0 : UInt8) ∉ sDeviceType := by decide

theorem sReg_clean : (0 : UInt8) ∉ sReg := by decide

/-- `/cpus` with two processors, one of them without a type. -/
def cpusTree : Body :=
  .node ⟨sCpus, sCpus_clean⟩
    (.node ⟨sCpu, sCpu_clean⟩ (.prop ⟨sDeviceType, sDeviceType_clean⟩ [99, 112, 117, 0] .nil)
      (.node ⟨sCpu, sCpu_clean⟩ (.prop ⟨sReg, sReg_clean⟩ [0, 0, 0, 1] .nil)
        (.nop (.node ⟨sCpu, sCpu_clean⟩ (.prop ⟨sDeviceType, sDeviceType_clean⟩ [99, 112, 117,
          0] .nil) .nil)))) .nil

def cpusBlob : Bytes :=
  ofList zero 4096 (words [fdtMagic, 200, 16, 160, 1, 0, 1, 0x63707573, 0,
    1, 0x63707500, 3, 4, 0, 0x63707500, 2, 1, 0x63707500, 3, 4, 12, 1, 2, 4, 1, 0x63707500, 3, 4, 0,
      0x63707500, 2,
    2, 2, 9] ++ List.replicate 24 0 ++ sDeviceType ++ [0] ++ sReg ++ [0])

theorem cpu_count_of_three_nodes : ∃ bound, ∀ fuel, bound ≤ fuel → ∃ h,
    (fdtInit cpusBlob fuel 4096 {}).val = some (true, h) ∧ fdtCpuCount h = 2 := by
  have encodes : Encodes cpusBlob 4096 cpusTree 0 0 :=
    ⟨by decide, by decide, fun k hk => absurd hk (Nat.not_lt_zero k), by decide,
      fun k hk => absurd hk (Nat.not_lt_zero k), by decide, by decide⟩
  exact cpu_count_of_tree cpusBlob 4096 {} cpusTree 0 0 encodes (by decide)

end Obsidian.Arch.Fdt
