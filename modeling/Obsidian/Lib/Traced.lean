import Mathlib.Data.List.Basic

/-!
# Computations that log their accesses

A traced computation has a value and the list of accesses made on the way to it.
The value of a sequence is the value of its last step at the values of the ones
before it, and all its accesses satisfy a property when those of each step do, so
a proof about the accesses follows the text of the computation.
-/
namespace Obsidian.Lib

structure Traced (ω α : Type) where
  val : α
  log : List ω

namespace Traced

variable {ω α β : Type}

instance : Monad (Traced ω) where
  pure a := ⟨a, []⟩
  bind x f := ⟨(f x.val).val, x.log ++ (f x.val).log⟩

/-- One access. -/
def note (a : ω) : Traced ω Unit := ⟨(), [a]⟩

/-- Every access made satisfies `P`. -/
def All (P : ω → Prop) (x : Traced ω α) : Prop := ∀ a ∈ x.log, P a

variable {P : ω → Prop}

@[simp] theorem val_pure (a : α) : (pure a : Traced ω α).val = a := rfl

@[simp] theorem val_bind (x : Traced ω α) (f : α → Traced ω β) : (x >>= f).val = (f x.val).val :=
  rfl

@[simp] theorem val_ite (c : Prop) {_ : Decidable c} (x y : Traced ω α) :
    (if c then x else y).val = if c then x.val else y.val := apply_ite val c x y

@[simp] theorem all_pure (a : α) : (pure a : Traced ω α).All P ↔ True := by
  simp only [All, iff_true]
  exact fun _ member => nomatch member

@[simp] theorem all_note (a : ω) : (note a).All P ↔ P a := by
  simp [All, note]

@[simp] theorem all_bind (x : Traced ω α) (f : α → Traced ω β) :
    (x >>= f).All P ↔ x.All P ∧ (f x.val).All P := by
  simp only [All, Bind.bind, List.mem_append]
  exact ⟨fun all => ⟨fun a here => all a (Or.inl here), fun a here => all a (Or.inr here)⟩,
    fun both a here => here.elim (both.1 a) (both.2 a)⟩

@[simp] theorem all_ite (c : Prop) {_ : Decidable c} (x y : Traced ω α) :
    (if c then x else y).All P ↔ (c → x.All P) ∧ (¬ c → y.All P) := by
  by_cases h : c <;> simp [h]

end Traced
end Obsidian.Lib
