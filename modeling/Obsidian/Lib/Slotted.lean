import Mathlib.Algebra.GroupWithZero.Nat
import Mathlib.Data.List.Basic

/-!
# Slotted pages

A page is cut into slots that follow each other without a gap. A slot may hold an item, which
needs a part of its length; the rest is slack. An item is placed in the slack of a slot, which
is cut in two behind the item already there, and an item that is taken out leaves its slot
empty. Neither moves another item.
-/
namespace Obsidian.Lib.Slotted

structure Slot (α : Type) where
  len : Nat
  item : Option α
  deriving DecidableEq, Repr

variable {α : Type} {need : α → Nat} {slots front back : List (Slot α)} {s : Slot α} {a : α}
    {gran least : Nat}

/-- What the item of a slot needs. -/
def Slot.held (need : α → Nat) (s : Slot α) : Nat := s.item.elim 0 need

def total (slots : List (Slot α)) : Nat := (slots.map Slot.len).sum

def items (slots : List (Slot α)) : List α := slots.filterMap Slot.item

@[simp] theorem total_nil : total ([] : List (Slot α)) = 0 := rfl

@[simp] theorem total_cons : total (s :: slots) = s.len + total slots := rfl

@[simp] theorem total_append : total (front ++ back) = total front + total back := by
  simp [total]

@[simp] theorem items_append : items (front ++ back) = items front ++ items back := by
  simp [items]

@[simp] theorem items_nil : items ([] : List (Slot α)) = [] := rfl

theorem items_cons : items (s :: slots) = s.item.toList ++ items slots := by
  cases h : s.item with
  | none => simp [items, h]
  | some a => simp [items, h]

/-- A slot of whole units, not too short, that its item fits into. -/
structure Slot.Fits (need : α → Nat) (gran least : Nat) (s : Slot α) : Prop where
  units : gran ∣ s.len
  long : least ≤ s.len
  holds : ∀ b, s.item = some b → least ≤ need b ∧ need b ≤ s.len

theorem Slot.Fits.held_le (fits : s.Fits need gran least) : s.held need ≤ s.len := by
  cases h : s.item with
  | none => simp [Slot.held, h]
  | some b => simpa [Slot.held, h] using (fits.holds b h).2

/-! ## Placing an item -/

/-- The slot with the item placed behind what it holds. -/
def Slot.split (need : α → Nat) (s : Slot α) (a : α) : List (Slot α) :=
  match s.item with
  | none => [⟨s.len, some a⟩]
  | some b => [⟨need b, some b⟩, ⟨s.len - need b, some a⟩]

theorem Slot.total_split (holds : s.held need ≤ s.len) (a : α) :
    total (s.split need a) = s.len := by
  unfold Slot.split
  cases h : s.item with
  | none => simp
  | some b =>
    have hneed : s.held need = need b := by simp [Slot.held, h]
    simp
    omega

theorem Slot.items_split (s : Slot α) (a : α) : items (s.split need a) = s.item.toList ++ [a] := by
  unfold Slot.split
  cases h : s.item with
  | none => rfl
  | some b => rfl

theorem items_placed :
    (items (front ++ (s.split need a ++ back))).Perm (a :: items (front ++ s :: back)) := by
  simp only [items_append, items_cons, Slot.items_split, ← List.append_assoc]
  rw [List.append_assoc, List.singleton_append]
  exact List.perm_middle

/-- An item that needs whole units, and enough of them, leaves slots like the one before. -/
theorem Slot.Fits.split (whole : s.Fits need gran least) (units : ∀ b, gran ∣ need b)
    (long : least ≤ need a) (room : need a ≤ s.len - s.held need) :
    ∀ t ∈ s.split need a, t.Fits need gran least := by
  intro t member
  unfold Slot.split at member
  cases h : s.item with
  | none =>
    have hheld : s.held need = 0 := by simp [Slot.held, h]
    obtain rfl : t = ⟨s.len, some a⟩ := by simpa [h] using member
    refine ⟨whole.units, whole.long, fun b same => ?_⟩
    cases same
    exact ⟨long, by simp only; omega⟩
  | some b =>
    have hheld : s.held need = need b := by simp [Slot.held, h]
    simp only [h, List.mem_cons, List.not_mem_nil, or_false] at member
    rcases member with rfl | rfl
    · refine ⟨units b, (whole.holds b h).1, fun c same => ?_⟩
      cases same
      exact ⟨(whole.holds b h).1, Nat.le_refl _⟩
    · refine ⟨Nat.dvd_sub whole.units (units b), by simp only; omega, fun c same => ?_⟩
      cases same
      exact ⟨long, by simp only; omega⟩

/-! ## Taking an item out -/

theorem items_vacated (held : s.item = some a) :
    (items (front ++ s :: back)).Perm (a :: items (front ++ ⟨s.len, none⟩ :: back)) := by
  simp only [items_append, items_cons, held, Option.toList_some, Option.toList_none,
    List.nil_append, List.singleton_append]
  exact List.perm_middle

end Obsidian.Lib.Slotted
