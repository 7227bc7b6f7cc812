import Mathlib.Data.List.Basic

/-!
# Rings

A ring of `n` slots holds a list in the slots from some start on, going around after
the last slot. What a slot must satisfy to hold an element is a relation, so that a slot
may be spread over descriptors, buffers and flags. One slot is written when an element
is put in behind the last, one is given up when the first is taken out; the lemmas
below say that the other elements stay where they are.
-/
namespace Obsidian.Lib.Ring

variable {α : Type} {n start : Nat} {R R' : Nat → α → Prop} {Q Q' : Nat → Prop} {x : α}
    {xs : List α}

/-- The slots from `start` on hold the list. -/
def Spans (n : Nat) (R : Nat → α → Prop) (start : Nat) (xs : List α) : Prop :=
  ∀ i x, xs[i]? = some x → R ((start + i) % n) x

/-- The slots that are left when `k` of them are taken from `start` on. -/
def Rest (n : Nat) (Q : Nat → Prop) (start k : Nat) : Prop :=
  ∀ i, k ≤ i → i < n → Q ((start + i) % n)

/-- Places less than `n` apart are different slots. -/
theorem slot_ne {i j : Nat} (hij : i < j) (hj : j < i + n) : (start + i) % n ≠ (start + j) % n := by
  intro same
  have hdvd : n ∣ (start + j) - (start + i) :=
    Nat.dvd_of_mod_eq_zero (Nat.sub_mod_eq_zero_of_mod_eq same.symm)
  have := Nat.le_of_dvd (by omega) hdvd
  omega

theorem spans_nil : Spans n R start [] := by
  intro i x h
  cases h

theorem spans_mod {k : Nat} : Spans n R (start % n + k) xs ↔ Spans n R (start + k) xs := by
  simp only [Spans, Nat.add_assoc, Nat.mod_add_mod]

theorem rest_mod {k taken : Nat} : Rest n Q (start % n + k) taken ↔ Rest n Q (start + k) taken := by
  simp only [Rest, Nat.add_assoc, Nat.mod_add_mod]

theorem Spans.head (spans : Spans n R start (x :: xs)) : R (start % n) x := spans 0 x rfl

/-- An element is put in behind the last. -/
theorem Spans.push (room : xs.length < n) (spans : Spans n R start xs)
    (keep : ∀ slot y, slot ≠ (start + xs.length) % n → R slot y → R' slot y)
    (new : R' ((start + xs.length) % n) x) : Spans n R' start (xs ++ [x]) := by
  intro i y hy
  by_cases old : i < xs.length
  · rw [List.getElem?_append_left old] at hy
    exact keep _ _ (slot_ne old (by omega)) (spans i y hy)
  · rw [List.getElem?_append_right (Nat.le_of_not_lt old), List.getElem?_singleton] at hy
    split at hy
    next hlast =>
      cases hy
      have hi : i = xs.length := by omega
      rw [hi]
      exact new
    · cases hy

/-- The first element is taken out. -/
theorem Spans.pop (room : xs.length < n) (spans : Spans n R start (x :: xs))
    (keep : ∀ slot y, slot ≠ start % n → R slot y → R' slot y) : Spans n R' (start + 1) xs := by
  intro i y hy
  have hlt : i < xs.length := (List.getElem?_eq_some_iff.mp hy).1
  have hslot : (start + (i + 1)) % n ≠ start % n := (slot_ne (i := 0) (by omega) (by omega)).symm
  have hold : R ((start + (i + 1)) % n) y := spans (i + 1) y hy
  rw [show start + 1 + i = start + (i + 1) by omega]
  exact keep _ _ hslot hold

/-- One of the slots left is taken. -/
theorem Rest.push {k : Nat} (rest : Rest n Q start k)
    (keep : ∀ slot, slot ≠ (start + k) % n → Q slot → Q' slot) : Rest n Q' start (k + 1) := by
  intro i hlo hhi
  exact keep _ (slot_ne (by omega) (by omega)).symm (rest i (by omega) hhi)

/-- The first of the slots taken is given up. -/
theorem Rest.pop {k : Nat} (rest : Rest n Q start (k + 1))
    (keep : ∀ slot, slot ≠ start % n → Q slot → Q' slot) (given : Q' (start % n)) :
    Rest n Q' (start + 1) k := by
  intro i hlo hhi
  by_cases last : i + 1 = n
  · rw [show start + 1 + i = start + n by omega, Nat.add_mod_right]
    exact given
  · rw [show start + 1 + i = start + (i + 1) by omega]
    exact keep _ (slot_ne (i := 0) (by omega) (by omega)).symm (rest (i + 1) (by omega) (by omega))

end Obsidian.Lib.Ring
