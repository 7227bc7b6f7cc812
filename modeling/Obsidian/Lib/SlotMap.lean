import Mathlib.Algebra.Order.BigOperators.Group.Finset
import Mathlib.Order.Interval.Finset.Nat

/-!
# Grouped slot allocation

Slots are numbered inside groups and each is taken or clear. `pick` visits groups
in a given order and takes the lowest clear slot of the first group that has one;
`mark` changes one slot. The state is a function, so nothing here depends on how
the slots are stored.
-/
namespace Obsidian.Lib.SlotMap

/-- Which slots are taken, by group and index. -/
abbrev Taken : Type := Nat → Nat → Bool

variable {t : Taken} {s : Nat → Bool} {size : Nat → Nat} {order : List Nat} {g h i j n : Nat}

def mark (t : Taken) (g i : Nat) (v : Bool) : Taken :=
  fun h j => if h = g ∧ j = i then v else t h j

@[simp] theorem mark_same (t : Taken) (g i : Nat) (v : Bool) : mark t g i v g i = v := by
  simp [mark]

theorem mark_other (t : Taken) (v : Bool) (hne : ¬ (h = g ∧ j = i)) : mark t g i v h j = t h j := by
  simp only [mark, if_neg hne]

/-- Marking a slot and undoing it gives the map back. -/
theorem mark_mark (t : Taken) (g i : Nat) (u v : Bool) :
    mark (mark t g i u) g i v = mark t g i v := by
  funext h j
  simp only [mark]
  split
  · rfl
  · rfl

theorem mark_self (t : Taken) (g i : Nat) : mark t g i (t g i) = t := by
  funext h j
  simp only [mark]
  split
  next same => rw [same.1, same.2]
  · rfl

/-! ## Picking a slot -/

def firstClear (s : Nat → Bool) (n : Nat) : Option Nat := (List.range n).find? fun i => !s i

def pick (order : List Nat) (size : Nat → Nat) (t : Taken) : Option (Nat × Nat) :=
  order.findSome? fun g => (firstClear (t g) (size g)).map fun i => (g, i)

theorem firstClear_eq_some (hi : i < n) (clear : s i = false) (below : ∀ j, j < i → s j = true) :
    firstClear s n = some i := by
  unfold firstClear
  rw [List.find?_range_eq_some]
  refine ⟨by simp [clear], by simpa using hi, fun j hj => ?_⟩
  simp [below j hj]

theorem firstClear_eq_none (full : ∀ i, i < n → s i = true) : firstClear s n = none := by
  unfold firstClear
  rw [List.find?_eq_none]
  intro i member
  simp [full i (List.mem_range.mp member)]

theorem firstClear_some (hpick : firstClear s n = some i) :
    i < n ∧ s i = false ∧ ∀ j, j < i → s j = true := by
  unfold firstClear at hpick
  rw [List.find?_range_eq_some] at hpick
  obtain ⟨hclear, hlt, hbelow⟩ := hpick
  exact ⟨by simpa using hlt, by simpa using hclear, fun j hj => by simpa using hbelow j hj⟩

theorem firstClear_none (hpick : firstClear s n = none) (hi : i < n) : s i = true := by
  unfold firstClear at hpick
  rw [List.find?_eq_none] at hpick
  simpa using hpick i (List.mem_range.mpr hi)

variable {groups : Nat} {s' : Nat → Bool}

theorem firstClear_congr (same : ∀ i, i < n → s' i = s i) : firstClear s' n = firstClear s n := by
  cases hfirst : firstClear s n with
  | none =>
    apply firstClear_eq_none
    intro i hi
    rw [same i hi]
    exact firstClear_none hfirst hi
  | some i =>
    obtain ⟨hi, hclear, hbelow⟩ := firstClear_some hfirst
    apply firstClear_eq_some hi
    · rw [same i hi]
      exact hclear
    · intro j hj
      rw [same j (by omega)]
      exact hbelow j hj

theorem pick_cons_some (hfirst : firstClear (t g) (size g) = some i) :
    pick (g :: order) size t = some (g, i) := by
  unfold pick
  rw [List.findSome?_cons, hfirst]
  rfl

theorem pick_cons_none (hfirst : firstClear (t g) (size g) = none) :
    pick (g :: order) size t = pick order size t := by
  unfold pick
  rw [List.findSome?_cons, hfirst]
  rfl

theorem pick_some {p : Nat × Nat} (hpick : pick order size t = some p) :
    p.1 ∈ order ∧ p.2 < size p.1 ∧ t p.1 p.2 = false := by
  obtain ⟨g, hg, hmap⟩ := List.exists_of_findSome?_eq_some hpick
  obtain ⟨i, hi, rfl⟩ := Option.map_eq_some_iff.mp hmap
  obtain ⟨hlt, hclear, _⟩ := firstClear_some hi
  exact ⟨hg, hlt, hclear⟩

theorem pick_none (hpick : pick order size t = none) (hg : g ∈ order) (hi : i < size g) :
    t g i = true := by
  unfold pick at hpick
  rw [List.findSome?_eq_none_iff] at hpick
  have hnone := hpick g hg
  rw [Option.map_eq_none_iff] at hnone
  exact firstClear_none hnone hi

theorem pick_congr {t' : Taken} (same : ∀ g ∈ order, ∀ i, i < size g → t' g i = t g i) :
    pick order size t' = pick order size t := by
  induction order with
  | nil => rfl
  | cons g rest ih =>
    have hfirst : firstClear (t' g) (size g) = firstClear (t g) (size g) :=
      firstClear_congr (same g List.mem_cons_self)
    have hrest := ih fun h member => same h (List.mem_cons_of_mem _ member)
    cases hscan : firstClear (t g) (size g) with
    | none => rw [pick_cons_none hscan, pick_cons_none (hfirst.trans hscan), hrest]
    | some i => rw [pick_cons_some hscan, pick_cons_some (hfirst.trans hscan)]

/-! ## Counting clear slots -/

def clearSlots (s : Nat → Bool) (n : Nat) : Finset Nat :=
  (Finset.range n).filter fun i => s i = false

def clearCount (s : Nat → Bool) (n : Nat) : Nat := (clearSlots s n).card

theorem clearCount_le (s : Nat → Bool) (n : Nat) : clearCount s n ≤ n := by
  have hle := Finset.card_filter_le (Finset.range n) fun i => s i = false
  rwa [Finset.card_range] at hle

theorem clearCount_congr (same : ∀ i, i < n → s' i = s i) : clearCount s' n = clearCount s n := by
  unfold clearCount clearSlots
  congr 1
  apply Finset.filter_congr
  intro i hi
  rw [same i (Finset.mem_range.mp hi)]

/-- Taking a clear slot lowers the count by one. -/
theorem clearCount_take (hi : i < n) (clear : s i = false) (taken : s' i = true)
    (same : ∀ j, j < n → j ≠ i → s' j = s j) : clearCount s' n + 1 = clearCount s n := by
  have hset : clearSlots s' n = (clearSlots s n).erase i := by
    ext j
    simp only [clearSlots, Finset.mem_erase, Finset.mem_filter, Finset.mem_range]
    by_cases hj : j = i
    · subst hj
      simp [taken]
    · constructor
      · rintro ⟨hlt, hclear⟩
        rw [same j hlt hj] at hclear
        exact ⟨hj, hlt, hclear⟩
      · rintro ⟨_, hlt, hclear⟩
        rw [← same j hlt hj] at hclear
        exact ⟨hlt, hclear⟩
  have member : i ∈ clearSlots s n := by
    simp only [clearSlots, Finset.mem_filter, Finset.mem_range]
    exact ⟨hi, clear⟩
  unfold clearCount
  rw [hset]
  exact Finset.card_erase_add_one member

/-- Clear slots of the first `groups` groups. -/
def totalClear (t : Taken) (size : Nat → Nat) (groups : Nat) : Nat :=
  ∑ g ∈ Finset.range groups, clearCount (t g) (size g)

theorem totalClear_le (t : Taken) {size : Nat → Nat} {groups bound : Nat}
    (hsize : ∀ g, g < groups → size g ≤ bound) : totalClear t size groups ≤ groups * bound := by
  have hle : ∀ g ∈ Finset.range groups, clearCount (t g) (size g) ≤ bound := by
    intro g hg
    exact Nat.le_trans (clearCount_le _ _) (hsize g (Finset.mem_range.mp hg))
  have hsum := Finset.sum_le_card_nsmul (Finset.range groups) _ bound hle
  rw [Finset.card_range] at hsum
  exact hsum

/-- The total moves by what one group moves. -/
theorem totalClear_take {t' : Taken} (hg : g < groups)
    (one : clearCount (t' g) (size g) + 1 = clearCount (t g) (size g))
    (same : ∀ h, h < groups → h ≠ g → clearCount (t' h) (size h) = clearCount (t h) (size h)) :
    totalClear t' size groups + 1 = totalClear t size groups := by
  have member : g ∈ Finset.range groups := Finset.mem_range.mpr hg
  unfold totalClear
  rw [← Finset.add_sum_erase _ _ member, ← Finset.add_sum_erase _ _ member]
  have hrest : ∑ h ∈ (Finset.range groups).erase g, clearCount (t' h) (size h) =
      ∑ h ∈ (Finset.range groups).erase g, clearCount (t h) (size h) := by
    apply Finset.sum_congr rfl
    intro h hh
    obtain ⟨hne, hmem⟩ := Finset.mem_erase.mp hh
    exact same h (Finset.mem_range.mp hmem) hne
  rw [hrest]
  omega

/-- Marking a clear slot lowers the count of its group and the total by one. -/
theorem counts_mark (hg : g < groups) (hi : i < size g) (clear : t g i = false) :
    clearCount (mark t g i true g) (size g) + 1 = clearCount (t g) (size g) ∧
      totalClear (mark t g i true) size groups + 1 = totalClear t size groups := by
  have hone : clearCount (mark t g i true g) (size g) + 1 = clearCount (t g) (size g) := by
    apply clearCount_take hi clear
    · exact mark_same t g i true
    · intro j _ hne
      exact mark_other t true (fun both => hne both.2)
  constructor
  · exact hone
  · apply totalClear_take hg hone
    intro h _ hne
    apply clearCount_congr
    intro j _
    exact mark_other t true (fun both => hne both.1)

/-- Clearing a taken slot raises them by one. -/
theorem counts_clear (hg : g < groups) (hi : i < size g) (taken : t g i = true) :
    clearCount (mark t g i false g) (size g) = clearCount (t g) (size g) + 1 ∧
      totalClear (mark t g i false) size groups = totalClear t size groups + 1 := by
  have hback : mark (mark t g i false) g i true = t := by
    rw [mark_mark, ← taken, mark_self]
  obtain ⟨hone, hall⟩ := counts_mark hg hi (mark_same t g i false)
  rw [hback] at hone hall
  exact ⟨hone.symm, hall.symm⟩

/-! ## Several slots -/

/-- Slots picked one after the other, each by its own order. -/
def takeAll (size : Nat → Nat) : List (List Nat) → Taken → Option (List (Nat × Nat))
  | [], _ => some []
  | order :: rest, t =>
    (pick order size t).bind fun p => (takeAll size rest (mark t p.1 p.2 true)).map (p :: ·)

theorem takeAll_cons (size : Nat → Nat) (order : List Nat) (rest : List (List Nat)) (t : Taken) :
    takeAll size (order :: rest) t =
      (pick order size t).bind fun p => (takeAll size rest (mark t p.1 p.2 true)).map (p :: ·) :=
      rfl

def markAll (t : Taken) (slots : List (Nat × Nat)) (v : Bool) : Taken :=
  fun g i => if (g, i) ∈ slots then v else t g i

variable {orders : List (List Nat)} {slots : List (Nat × Nat)} {p : Nat × Nat}

@[simp] theorem markAll_nil (t : Taken) (v : Bool) : markAll t [] v = t := by
  funext g i
  simp [markAll]

theorem markAll_cons (t : Taken) (p : Nat × Nat) (slots : List (Nat × Nat)) (v : Bool) :
    markAll (mark t p.1 p.2 v) slots v = markAll t (p :: slots) v := by
  funext g i
  by_cases member : (g, i) ∈ slots
  · simp [markAll, member]
  · by_cases same : g = p.1 ∧ i = p.2
    · simp [markAll, mark, same]
    · have hne : (g, i) ≠ p := by
        rintro rfl
        exact same ⟨rfl, rfl⟩
      simp [markAll, mark, member, same, hne]

theorem markAll_append (t : Taken) (front back : List (Nat × Nat)) (v : Bool) :
    markAll (markAll t front v) back v = markAll t (front ++ back) v := by
  funext g i
  by_cases later : (g, i) ∈ back
  · simp [markAll, later]
  · simp [markAll, later]

theorem markAll_mem (t : Taken) (v : Bool) (member : (g, i) ∈ slots) :
    markAll t slots v g i = v := by
  simp [markAll, member]

theorem markAll_not_mem (t : Taken) (v : Bool) (member : (g, i) ∉ slots) :
    markAll t slots v g i = t g i := by
  simp [markAll, member]

/-- Clearing taken slots raises the count of each group by its share of them and the total by
their number. -/
theorem counts_markAll (distinct : slots.Nodup)
    (taken : ∀ p ∈ slots, p.1 < groups ∧ p.2 < size p.1 ∧ t p.1 p.2 = true) :
    (∀ g, clearCount (markAll t slots false g) (size g) =
      clearCount (t g) (size g) + slots.countP fun p => p.1 = g) ∧
    totalClear (markAll t slots false) size groups = totalClear t size groups + slots.length := by
  induction slots generalizing t with
  | nil =>
    rw [markAll_nil]
    exact ⟨fun g => rfl, rfl⟩
  | cons p slots ih =>
    obtain ⟨fresh, distinct⟩ := List.nodup_cons.mp distinct
    obtain ⟨hg, hi, here⟩ := taken p List.mem_cons_self
    have later : ∀ q ∈ slots, q.1 < groups ∧ q.2 < size q.1 ∧
        mark t p.1 p.2 false q.1 q.2 = true := by
      intro q member
      obtain ⟨hgroup, hinside, htaken⟩ := taken q (List.mem_cons_of_mem p member)
      have hne : ¬ (q.1 = p.1 ∧ q.2 = p.2) := by
        rintro ⟨hfirst, hsecond⟩
        exact fresh (Prod.ext hfirst hsecond ▸ member)
      rw [mark_other t false hne]
      exact ⟨hgroup, hinside, htaken⟩
    obtain ⟨hgroups, htotal⟩ := ih distinct later
    obtain ⟨hone, hall⟩ := counts_clear hg hi here
    rw [← markAll_cons]
    constructor
    · intro g
      rw [hgroups g, List.countP_cons]
      by_cases same : p.1 = g
      · subst same
        simp only [hone, decide_true, if_true]
        omega
      · have hrest : clearCount (mark t p.1 p.2 false g) (size g) = clearCount (t g) (size g) :=
          clearCount_congr fun j _ => mark_other t false fun both => same both.1.symm
        simp only [hrest, same, decide_false]
        rfl
    · rw [htotal, List.length_cons]
      omega

/-- Clearing exactly the slots that were taken gives the map back. -/
theorem markAll_undo (clear : ∀ p ∈ slots, t p.1 p.2 = false) :
    markAll (markAll t slots true) slots false = t := by
  funext g i
  by_cases member : (g, i) ∈ slots
  · rw [markAll_mem _ _ member, clear _ member]
  · rw [markAll_not_mem _ _ member, markAll_not_mem _ _ member]

/-- The slots taken were clear, and are distinct. -/
theorem takeAll_some (taken : takeAll size orders t = some slots) :
    slots.Nodup ∧ slots.length = orders.length ∧
      ∀ p ∈ slots, (∃ order ∈ orders, p.1 ∈ order) ∧ p.2 < size p.1 ∧ t p.1 p.2 = false := by
  induction orders generalizing t slots with
  | nil =>
    cases taken
    simp
  | cons order rest ih =>
    obtain ⟨p, hpick, hrest⟩ := Option.bind_eq_some_iff.mp taken
    obtain ⟨more, hmore, rfl⟩ := Option.map_eq_some_iff.mp hrest
    obtain ⟨hnodup, hlength, hslots⟩ := ih hmore
    obtain ⟨hmem, hlt, hclear⟩ := pick_some hpick
    have hfresh : p ∉ more := by
      intro member
      have hmarked := (hslots p member).2.2
      rw [mark_same] at hmarked
      cases hmarked
    refine ⟨List.nodup_cons.mpr ⟨hfresh, hnodup⟩, by simp [hlength], ?_⟩
    intro q member
    rcases List.mem_cons.mp member with rfl | later
    · exact ⟨⟨order, List.mem_cons_self, hmem⟩, hlt, hclear⟩
    · obtain ⟨⟨order', hin, hq⟩, hqlt, hqclear⟩ := hslots q later
      have hne : ¬ (q.1 = p.1 ∧ q.2 = p.2) := by
        rintro ⟨hfst, hsnd⟩
        exact hfresh (Prod.ext hfst hsnd ▸ later)
      rw [mark_other _ _ hne] at hqclear
      exact ⟨⟨order', List.mem_cons_of_mem _ hin, hq⟩, hqlt, hqclear⟩

/-- Slots picked in two parts. -/
theorem takeAll_append (size : Nat → Nat) (front back : List (List Nat)) (t : Taken) :
    takeAll size (front ++ back) t = (takeAll size front t).bind fun slots =>
        (takeAll size back (markAll t slots true)).map (slots ++ ·) := by
  induction front generalizing t with
  | nil => simp [takeAll]
  | cons order rest ih =>
    rw [List.cons_append, takeAll_cons, takeAll_cons]
    cases pick order size t with
    | none => rfl
    | some p =>
      rw [Option.bind_some, Option.bind_some, ih]
      cases takeAll size rest (mark t p.1 p.2 true) with
      | none => rfl
      | some slots =>
        simp only [Option.map_some, Option.bind_some, Option.map_map, markAll_cons]
        rfl

end Obsidian.Lib.SlotMap
