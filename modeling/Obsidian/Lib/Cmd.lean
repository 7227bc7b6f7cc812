import Mathlib.Data.List.Basic

/-!
# Commands over a state

`Cmd σ α` is the meaning of a function that works on a global state `σ` and
reports success with a value or failure without one, in both cases after
whatever it already did to the state: what a kernel function with an integer
return code and out parameters does. Failure is not undone.

The rules below evaluate a sequence step by step and take one apart from its
result; proofs about commands use them and never unfold `bind`.
-/
namespace Obsidian.Lib

def Cmd (σ α : Type) : Type := σ → Option α × σ

namespace Cmd

variable {σ α β : Type}

protected def pure (a : α) : Cmd σ α := fun s => (some a, s)

protected def bind (c : Cmd σ α) (f : α → Cmd σ β) : Cmd σ β := fun s =>
  match c s with
  | (some a, s') => f a s'
  | (none, s') => (none, s')

instance : Monad (Cmd σ) where
  pure := Cmd.pure
  bind := Cmd.bind

/-- Return failure. -/
def fail : Cmd σ α := fun s => (none, s)

/-- The current state. -/
def get : Cmd σ σ := fun s => (some s, s)

def modify (f : σ → σ) : Cmd σ Unit := fun s => (some (), f s)

/-- Run a command and look at its return code. -/
def attempt (c : Cmd σ α) : Cmd σ (Option α) := fun s => (some (c s).1, (c s).2)

/-- Run a command and drop its return code. -/
def ignore (c : Cmd σ α) : Cmd σ Unit := fun s => (some (), (c s).2)

variable {c : Cmd σ α} {f : α → Cmd σ β} {s s' s'' : σ} {a : α} {b : β} {g : σ → σ}

@[simp] theorem pure_apply : (pure a : Cmd σ α) s = (some a, s) := rfl

@[simp] theorem fail_apply : (fail : Cmd σ α) s = (none, s) := rfl

@[simp] theorem modify_apply : modify g s = (some (), g s) := rfl

@[simp] theorem ignore_apply : ignore c s = (some (), (c s).2) := rfl

theorem bind_apply : (c >>= f) s =
    match c s with
    | (some a, s') => f a s'
    | (none, s') => (none, s') := rfl

theorem bind_some (h : c s = (some a, s')) : (c >>= f) s = f a s' := by
  rw [bind_apply, h]

theorem bind_none (h : c s = (none, s')) : (c >>= f) s = (none, s') := by
  rw [bind_apply, h]

@[simp] theorem get_bind {f : σ → Cmd σ β} : (get >>= f) s = f s s := rfl

@[simp] theorem modify_bind {f : Unit → Cmd σ β} : (modify g >>= f) s = f () (g s) := rfl

@[simp] theorem attempt_bind {f : Option α → Cmd σ β} : (attempt c >>= f) s = f (c s).1 (c s).2 :=
  rfl

@[simp] theorem ignore_bind {f : Unit → Cmd σ β} : (ignore c >>= f) s = f () (c s).2 := rfl

instance : LawfulMonad (Cmd σ) := by
  refine LawfulMonad.mk' (Cmd σ) (fun c => ?_) (fun _ _ => rfl) (fun c f g => ?_)
  · funext s
    show (c >>= fun a => pure a) s = c s
    rw [bind_apply]
    cases hc : c s with
    | mk r t =>
      cases r with
      | none => rfl
      | some a => rfl
  · funext s
    rw [bind_apply, bind_apply, bind_apply]
    cases c s with
    | mk r t =>
      cases r with
      | none => rfl
      | some a => rfl

/-- What follows a failure is not run. -/
theorem fail_bind : (fail >>= f : Cmd σ β) = fail := rfl

/-- What follows a test can be moved into its branches. -/
theorem ite_bind (p : Prop) [Decidable p] (x y : Cmd σ α) :
    ((if p then x else y) >>= f) = if p then x >>= f else y >>= f := by
  split
  · rfl
  · rfl

/-- A sequence that succeeded did so in every part. -/
theorem bind_eq_some (h : (c >>= f) s = (some b, s'')) :
    ∃ a s', c s = (some a, s') ∧ f a s' = (some b, s'') := by
  rw [bind_apply] at h
  cases hc : c s with
  | mk r s' =>
    cases r with
    | none =>
      rw [hc] at h
      cases h
    | some a =>
      rw [hc] at h
      exact ⟨a, s', rfl, h⟩

variable {R : σ → σ → Prop}

/-- A relation between states that every part keeps is kept by the sequence. -/
theorem bind_rel (trans : ∀ x y z, R x y → R y z → R x z) (first : R s (c s).2)
    (rest : ∀ a t, c s = (some a, t) → R t (f a t).2) : R s ((c >>= f) s).2 := by
  rw [bind_apply]
  cases hc : c s with
  | mk r t =>
    rw [hc] at first
    cases r with
    | none => exact first
    | some a => exact trans _ _ _ first (rest a t hc)

/-- The same for what follows the first part. -/
theorem bind_after (refl : ∀ x, R x x) (rest : ∀ a t, c s = (some a, t) → R t (f a t).2) :
    R (c s).2 ((c >>= f) s).2 := by
  rw [bind_apply]
  cases hc : c s with
  | mk r t =>
    cases r with
    | none => exact refl t
    | some a => exact rest a t hc

/-! ## Parts of the state that a command leaves alone -/

/-- The command does not change what `f` reads. -/
def Keeps {ι : Type} (f : σ → ι) (c : Cmd σ α) : Prop := ∀ s, f (c s).2 = f s

section keeps

variable {ι : Type} {f : σ → ι} {c e : Cmd σ α}

theorem Keeps.pure (a : α) : Keeps f (Pure.pure a : Cmd σ α) := fun _ => rfl

theorem Keeps.fail : Keeps f (Cmd.fail : Cmd σ α) := fun _ => rfl

theorem Keeps.modify {g : σ → σ} (same : ∀ s, f (g s) = f s) : Keeps f (Cmd.modify g) := same

theorem Keeps.get_bind {k : σ → Cmd σ β} (rest : ∀ s, Keeps f (k s)) : Keeps f (Cmd.get >>= k) :=
    fun s => rest s s

theorem Keeps.bind {k : α → Cmd σ β} (first : Keeps f c) (rest : ∀ a, Keeps f (k a)) :
    Keeps f (c >>= k) :=
  fun s => bind_rel (R := fun s t => f t = f s) (fun _ _ _ h h' => h'.trans h) (first s)
    fun a t _ => rest a t

theorem Keeps.ignore (h : Keeps f c) : Keeps f (Cmd.ignore c) := h

theorem Keeps.ite {p : Prop} [Decidable p] (yes : Keeps f c) (no : Keeps f e) :
    Keeps f (if p then c else e) := by
  split
  · exact yes
  · exact no

end keeps

/-! ## Commands that never fail -/

def Total (c : Cmd σ α) : Prop := ∀ s, ∃ a, (c s).1 = some a

section

variable {c e : Cmd σ α}

theorem Total.pure (a : α) : Total (Pure.pure a : Cmd σ α) := fun _ => ⟨a, rfl⟩

theorem Total.attempt (c : Cmd σ α) : Total (Cmd.attempt c) := fun s => ⟨(c s).1, rfl⟩

theorem Total.ignore (c : Cmd σ α) : Total (Cmd.ignore c) := fun _ => ⟨(), rfl⟩

theorem Total.bind {f : α → Cmd σ β} (first : Total c) (rest : ∀ a, Total (f a)) :
    Total (c >>= f) := by
  intro s
  obtain ⟨a, done⟩ := first s
  obtain ⟨b, done'⟩ := rest a (c s).2
  have run : c s = (some a, (c s).2) := Prod.ext done rfl
  exact ⟨b, by rw [bind_some run]; exact done'⟩

theorem Total.ite {p : Prop} [Decidable p] (yes : Total c) (no : Total e) :
    Total (if p then c else e) := by
  split
  · exact yes
  · exact no

end

end Cmd

end Obsidian.Lib
