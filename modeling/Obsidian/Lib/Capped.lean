import Mathlib.Data.List.Dedup
import Mathlib.Data.List.Perm.Subperm

/-!
# Sets in an array of fixed size

An element is appended unless it is there already or the array is full; an element that
finds the array full is lost. The array is the set of everything put in exactly when
no more distinct elements came than it has places.
-/
namespace Obsidian.Lib.Capped

variable {α : Type} {cap : Nat}

def insert [DecidableEq α] (cap : Nat) (held : List α) (x : α) : List α :=
  if x ∈ held then held else if held.length < cap then held ++ [x] else held

/-- What an array holds after `seen` went in: some of it, without repeats, and all of it
while there is room. -/
structure Holds (cap : Nat) (seen held : List α) : Prop where
  nodup : held.Nodup
  within : held.length ≤ cap
  sound : ∀ x ∈ held, x ∈ seen
  complete : held.length < cap → ∀ x ∈ seen, x ∈ held

theorem Holds.empty (cap : Nat) : Holds cap ([] : List α) [] :=
  ⟨List.nodup_nil, Nat.zero_le _, fun _ member => member, fun _ _ member => member⟩

variable [DecidableEq α] {seen held : List α}

theorem Holds.insert (h : Holds cap seen held) (x : α) :
    Holds cap (seen ++ [x]) (insert cap held x) := by
  have older : ∀ y ∈ held, y ∈ seen ++ [x] := fun y member =>
    List.mem_append_left _ (h.sound y member)
  unfold Capped.insert
  split
  next there =>
    refine ⟨h.nodup, h.within, older, ?_⟩
    intro room y member
    rcases List.mem_append.1 member with before | now
    · exact h.complete room y before
    · rw [List.mem_singleton.1 now]
      exact there
  next fresh =>
    split
    next room =>
      have nodup : (held ++ [x]).Nodup := by
        rw [← List.concat_eq_append]
        exact h.nodup.concat fresh
      have within : (held ++ [x]).length ≤ cap := by
        rw [List.length_append, List.length_singleton]
        omega
      refine ⟨nodup, within, ?_, ?_⟩
      · intro y member
        rcases List.mem_append.1 member with before | now
        · exact older y before
        · exact List.mem_append_right _ now
      · intro _ y member
        rcases List.mem_append.1 member with before | now
        · exact List.mem_append_left _ (h.complete room y before)
        · exact List.mem_append_right _ now
    next full => exact ⟨h.nodup, h.within, older, fun room => absurd room full⟩

/-- Nothing is lost just when the distinct elements fit. -/
theorem Holds.all_iff (h : Holds cap seen held) :
    (∀ x, x ∈ held ↔ x ∈ seen) ↔ seen.dedup.length ≤ cap := by
  have sub : held ⊆ seen.dedup := fun x member => List.mem_dedup.2 (h.sound x member)
  constructor
  · intro all
    have back : seen.dedup ⊆ held := fun x member => (all x).2 (List.mem_dedup.1 member)
    exact Nat.le_trans ((List.nodup_dedup seen).subperm back).length_le h.within
  · intro fits x
    refine ⟨h.sound x, fun member => ?_⟩
    by_cases room : held.length < cap
    · exact h.complete room x member
    · -- a full array has as many elements as were seen, and all of them were seen
      have same := (h.nodup.subperm sub).perm_of_length_le (by omega)
      exact same.mem_iff.2 (List.mem_dedup.2 member)

/-- What comes once the array is full is lost. -/
theorem Holds.lost (h : Holds cap seen held) (full : cap ≤ seen.dedup.length) {x : α}
    (fresh : x ∉ seen) :
    x ∉ Capped.insert cap held x := by
  have absent : x ∉ held := fun member => fresh (h.sound x member)
  have filled : ¬ held.length < cap := by
    intro room
    have all : seen.dedup ⊆ held := fun y member => h.complete room y (List.mem_dedup.1 member)
    have bound := ((List.nodup_dedup seen).subperm all).length_le
    omega
  rw [Capped.insert, if_neg absent, if_neg filled]
  exact absent

end Obsidian.Lib.Capped
