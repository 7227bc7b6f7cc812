import Mathlib.Data.List.Induction
import Mathlib.Data.List.TakeWhile

/-!
# The fields of a text between separators

The nonempty pieces, in their order. A scan from the left takes the first one off, a scan
from the right cuts the last one off; both agree with the list.
-/
namespace Obsidian.Lib

variable {α : Type} {sep : α → Bool}

def fields (sep : α → Bool) (xs : List α) : List (List α) :=
  (xs.splitOnP sep).filter fun f => !f.isEmpty

variable {xs : List α} {s : α}

theorem fields_append_cons (xs ys : List α) (hs : sep s = true) :
    fields sep (xs ++ s :: ys) = fields sep xs ++ fields sep ys := by
  unfold fields
  rw [List.splitOnP_append_cons xs ys hs, List.filter_append]

theorem fields_nil : fields sep [] = [] := by
  unfold fields
  rw [List.splitOnP_nil]
  rfl

theorem fields_cons (ys : List α) (hs : sep s = true) : fields sep (s :: ys) = fields sep ys := by
  have cut := fields_append_cons [] ys hs
  rwa [fields_nil] at cut

theorem fields_concat (xs : List α) (hs : sep s = true) :
    fields sep (xs ++ [s]) = fields sep xs := by
  rw [fields_append_cons xs [] hs, fields_nil, List.append_nil]

theorem fields_single (plain : ∀ x ∈ xs, sep x = false) (filled : xs ≠ []) :
    fields sep xs = [xs] := by
  unfold fields
  rw [List.splitOnP_eq_singleton plain]
  simp [filled]

/-- What is dropped ends before an element that is kept. -/
theorem dropWhile_stops {p : α → Bool} {xs ys : List α} {y : α} (rest : xs.dropWhile p = y :: ys) :
    p y = false := by
  have head := List.head?_dropWhile_not p xs
  rw [rest] at head
  exact head

/-! ## From the left -/

theorem fields_dropWhile (xs : List α) : fields sep (xs.dropWhile sep) = fields sep xs := by
  induction xs with
  | nil => rfl
  | cons x xs ih =>
    by_cases hx : sep x = true
    · rw [List.dropWhile_cons_of_pos hx, ih, fields_cons xs hx]
    · rw [List.dropWhile_cons_of_neg hx]

/-- Without separators in front, the first field reaches to the next separator. -/
theorem fields_first {y : α} (ys : List α) (hy : sep y = false) :
    fields sep (y :: ys) = (y :: ys).takeWhile (fun x => !sep x) ::
      fields sep (((y :: ys).dropWhile fun x => !sep x).drop 1) := by
  have plain : ∀ x ∈ (y :: ys).takeWhile fun x => !sep x, sep x = false := by
    intro x member
    simpa using List.mem_takeWhile_imp member
  have name : (y :: ys).takeWhile (fun x => !sep x) ≠ [] := by simp [hy]
  have whole := @List.takeWhile_append_dropWhile α (fun x => !sep x) (y :: ys)
  cases rest : (y :: ys).dropWhile fun x => !sep x with
  | nil =>
    rw [rest, List.append_nil] at whole
    rw [whole] at plain name ⊢
    rw [fields_single plain name, List.drop_nil, fields_nil]
  | cons s zs =>
    have stop : sep s = true := by simpa using dropWhile_stops rest
    rw [rest] at whole
    conv => lhs; rw [← whole]
    rw [fields_append_cons _ zs stop, fields_single plain name]
    rfl

variable (sep) in
/-- A text is blank, or separators, a field and a rest that is empty or begins with a separator. -/
theorem fields_induction {motive : List α → Prop}
    (blank : ∀ xs : List α, (∀ x ∈ xs, sep x = true) → motive xs)
    (field : ∀ lead word rest : List α, (∀ x ∈ lead, sep x = true) → (∀ x ∈ word, sep x = false) →
      word ≠ [] →
      (∀ x ∈ rest.head?, sep x = true) → motive rest → motive (lead ++ (word ++ rest)))
    (xs : List α) :
    motive xs := by
  induction count : xs.length using Nat.strong_induction_on generalizing xs with
  | _ n ih =>
    subst count
    have whole := @List.takeWhile_append_dropWhile α sep xs
    have lead : ∀ x ∈ xs.takeWhile sep, sep x = true := fun x member =>
      List.mem_takeWhile_imp member
    cases body : xs.dropWhile sep with
    | nil =>
      rw [body, List.append_nil] at whole
      rw [← whole]
      exact blank _ lead
    | cons y ys =>
      have first : sep y = false := dropWhile_stops body
      have parts := @List.takeWhile_append_dropWhile α (fun x => !sep x) (y :: ys)
      have named : (y :: ys).takeWhile (fun x => !sep x) ≠ [] := by simp [first]
      have lengths := congrArg List.length whole
      have lengths' := congrArg List.length parts
      have filled := List.length_pos_iff.mpr named
      rw [body, List.length_append] at lengths
      rw [List.length_append] at lengths'
      rw [← whole, body, ← parts]
      refine field _ _ _ lead (fun x member => ?_) named (fun x member => ?_)
        (ih _ (by omega) _ rfl)
      · simpa using List.mem_takeWhile_imp member
      · have stop := List.head?_dropWhile_not (fun x => !sep x) (y :: ys)
        rw [Option.mem_def.mp member] at stop
        simpa using stop

theorem fields_blank (blank : ∀ x ∈ xs, sep x = true) : fields sep xs = [] := by
  rw [← fields_dropWhile, List.dropWhile_eq_nil_iff.mpr blank, fields_nil]

theorem fields_field {lead word rest : List α} (blank : ∀ x ∈ lead, sep x = true)
    (plain : ∀ x ∈ word, sep x = false) (filled : word ≠ [])
    (stop : ∀ x ∈ rest.head?, sep x = true) :
    fields sep (lead ++ (word ++ rest)) = word :: fields sep rest := by
  rw [← fields_dropWhile, List.dropWhile_append_of_pos blank, fields_dropWhile]
  cases rest with
  | nil => rw [List.append_nil, fields_single plain filled, fields_nil]
  | cons s rest =>
    have hs : sep s = true := stop s rfl
    rw [fields_append_cons word rest hs, fields_single plain filled, fields_cons rest hs,
      List.singleton_append]

theorem blank_of_fields_nil (none : fields sep xs = []) : ∀ x ∈ xs, sep x = true := by
  induction xs using fields_induction sep with
  | blank xs blank => exact blank
  | field lead word rest blank plain filled stop ih =>
    rw [fields_field blank plain filled stop] at none
    cases none

/-- A field is a piece of the text. -/
theorem infix_of_mem_fields {xs word : List α} (member : word ∈ fields sep xs) : word <:+: xs := by
  induction xs using fields_induction sep with
  | blank xs blank =>
    rw [fields_blank blank] at member
    cases member
  | field lead first rest blank plain filled stop ih =>
    rw [fields_field blank plain filled stop] at member
    rcases List.mem_cons.mp member with rfl | later
    · exact ⟨lead, rest, by rw [List.append_assoc]⟩
    · exact (ih later).trans ((List.suffix_append first rest).isInfix.trans
        (List.suffix_append lead _).isInfix)

/-! ## From the right -/

/-- The text without the separators it ends in. -/
def stripEnd (sep : α → Bool) (xs : List α) : List α := (xs.reverse.dropWhile sep).reverse

theorem fields_stripEnd (xs : List α) : fields sep (stripEnd sep xs) = fields sep xs := by
  unfold stripEnd
  induction xs using List.reverseRecOn with
  | nil => rfl
  | append_singleton xs x ih =>
    rw [List.reverse_append, List.reverse_singleton, List.singleton_append]
    by_cases hx : sep x = true
    · rw [List.dropWhile_cons_of_pos hx, ih, fields_concat xs hx]
    · rw [List.dropWhile_cons_of_neg hx, List.reverse_cons, List.reverse_reverse]

/-- What follows the last separator. -/
def lastField (sep : α → Bool) (xs : List α) : List α :=
  (xs.reverse.takeWhile fun x => !sep x).reverse

theorem lastField_plain (xs : List α) : ∀ x ∈ lastField sep xs, sep x = false := by
  intro x member
  simpa using List.mem_takeWhile_imp (List.mem_reverse.1 member)

/-- Something follows the last separator of a text whose end was stripped. -/
theorem lastField_stripEnd (y : α) (filled : stripEnd sep xs ≠ []) :
    lastField sep (y :: stripEnd sep xs) ≠ [] := by
  unfold lastField stripEnd at *
  rw [List.reverse_cons]
  cases rest : xs.reverse.dropWhile sep with
  | nil => simp [rest] at filled
  | cons z zs =>
    have plain : sep z = false := dropWhile_stops rest
    simp [plain]

/-- A text with a separator is cut at its last one. -/
theorem cut_last (cut : ∃ x ∈ xs, sep x = true) :
    ∃ s, sep s = true ∧ xs = xs.take
    (xs.length - (lastField sep xs).length - 1) ++ s :: lastField sep xs := by
  have whole := @List.takeWhile_append_dropWhile α (fun x => !sep x) xs.reverse
  cases rest : xs.reverse.dropWhile fun x => !sep x with
  | nil =>
    obtain ⟨x, member, hx⟩ := cut
    have none := List.dropWhile_eq_nil_iff.1 rest x (List.mem_reverse.2 member)
    simp [hx] at none
  | cons s zs =>
    have stop : sep s = true := by simpa using dropWhile_stops rest
    rw [rest] at whole
    have parts : xs = zs.reverse ++ s :: lastField sep xs := by
      conv => lhs; rw [← List.reverse_reverse xs, ← whole]
      rw [List.reverse_append, List.reverse_cons, List.append_assoc]
      rfl
    have front : zs.reverse = xs.take (xs.length - (lastField sep xs).length - 1) := by
      have length := congrArg List.length parts
      rw [List.length_append, List.length_cons] at length
      have count : xs.length - (lastField sep xs).length - 1 = zs.reverse.length := by omega
      rw [count]
      conv => rhs; rw [parts]
      rw [List.take_left]
    refine ⟨s, stop, ?_⟩
    rw [← front]
    exact parts

/-- The cut takes the last field off. -/
theorem fields_cut {front name : List α} (hs : sep s = true) (plain : ∀ x ∈ name, sep x = false)
    (filled : name ≠ []) :
    fields sep (front ++ s :: name) = fields sep front ++ [name] := by
  rw [fields_append_cons front name hs, fields_single plain filled]

end Obsidian.Lib
