import Obsidian.Lib.Cmd

/-!
# Commands that can be cut off

A machine may lose its device in the middle of a command. The command then goes on
to its end without any further effect on the medium, so what the medium holds at the
end is what it held when the device was lost. `Ends` is a postcondition with that
outcome as a second case, so that it is met once for every command and not at every
step of a proof about it.
-/
namespace Obsidian.Lib

/-- What no command changes, how a state tells that its device is gone, and what is on the
medium. -/
structure Medium (σ ε μ : Type) where
  env : σ → ε
  dead : σ → Prop
  held : σ → μ

variable {σ ε μ α β : Type} {M : Medium σ ε μ}

namespace Cmd

/-- Without a device the command has no effect on the medium and does not bring the device
back. -/
def Inert (M : Medium σ ε μ) (c : Cmd σ α) : Prop :=
  ∀ s, M.env (c s).2 = M.env s ∧ (M.dead s → M.dead (c s).2 ∧ M.held (c s).2 = M.held s)

variable {c : Cmd σ α}

theorem Inert.lost {s : σ} (inert : Inert M c) (dead : M.dead s) :
    M.dead (c s).2 ∧ M.held (c s).2 = M.held s := (inert s).2 dead

theorem Inert.pure (a : α) : Inert M (Pure.pure a : Cmd σ α) :=
    fun _ => ⟨rfl, fun dead => ⟨dead, rfl⟩⟩

theorem Inert.fail : Inert M (Cmd.fail : Cmd σ α) := fun _ => ⟨rfl, fun dead => ⟨dead, rfl⟩⟩

theorem Inert.get : Inert M (Cmd.get : Cmd σ σ) := fun _ => ⟨rfl, fun dead => ⟨dead, rfl⟩⟩

theorem Inert.get_bind {f : σ → Cmd σ β} (rest : ∀ s, Inert M (f s)) : Inert M (Cmd.get >>= f) :=
    fun s => rest s s

theorem Inert.bind {f : α → Cmd σ β} (first : Inert M c) (rest : ∀ a, Inert M (f a)) :
    Inert M (c >>= f) := by
  intro s
  have hfirst := first s
  rw [bind_apply]
  cases hc : c s with
  | mk r t =>
    rw [hc] at hfirst
    cases r with
    | none => exact hfirst
    | some a =>
      have hrest := rest a t
      refine ⟨hrest.1.trans hfirst.1, fun dead => ?_⟩
      obtain ⟨hdead, hheld⟩ := hfirst.2 dead
      obtain ⟨hdead', hheld'⟩ := hrest.2 hdead
      exact ⟨hdead', hheld'.trans hheld⟩

theorem Inert.attempt (h : Inert M c) : Inert M (Cmd.attempt c) := h

theorem Inert.ignore (h : Inert M c) : Inert M (Cmd.ignore c) := h

theorem Inert.ite {p : Prop} [Decidable p] {c e : Cmd σ α} (yes : Inert M c) (no : Inert M e) :
    Inert M (if p then c else e) := by
  split
  · exact yes
  · exact no

/-- The command ended as `P` says, or the device was lost on the way and the medium is as
`Q` says. -/
def Ends (M : Medium σ ε μ) (Q : μ → Prop) (P : Option α → σ → Prop) (r : Option α × σ) : Prop :=
  P r.1 r.2 ∨ M.dead r.2 ∧ Q (M.held r.2)

variable {Q Q' : μ → Prop} {P P' : Option α → σ → Prop} {R : Option β → σ → Prop}
variable {c : Cmd σ α} {s : σ} {r : Option α × σ}

theorem Ends.mono (ends : Ends M Q P r) (post : ∀ a t, P a t → P' a t) (lost : ∀ m, Q m → Q' m) :
    Ends M Q' P' r :=
  ends.imp (post _ _) fun h => ⟨h.1, lost _ h.2⟩

/-- On a device that is not lost a command ended as it should. -/
theorem Ends.done (ends : Ends M Q P r) (alive : ¬ M.dead r.2) : P r.1 r.2 :=
  ends.resolve_right fun h => alive h.1

theorem Ends.ignore {R : Option Unit → σ → Prop} (ends : Ends M Q P (c s))
    (post : ∀ a t, P a t → R (some ()) t) : Ends M Q R (Cmd.ignore c s) :=
  ends.imp (post _ _) id

/-- What is run after the device was lost does nothing. -/
theorem Ends.after {e : Cmd σ β} (first : Ends M Q P r) (inert : Inert M e)
    (rest : P r.1 r.2 → Ends M Q R (e r.2)) : Ends M Q R (e r.2) := by
  rcases first with done | ⟨dead, held⟩
  · exact rest done
  · obtain ⟨hdead, hheld⟩ := inert.lost dead
    exact Or.inr ⟨hdead, hheld ▸ held⟩

/-- The rest of a sequence does nothing when the device was lost in its first part. -/
theorem Ends.bind {f : α → Cmd σ β} (first : Ends M Q P (c s))
    (inert : ∀ a, Inert M (f a)) (stop : ∀ t, P none t → R none t)
    (rest : ∀ a t, P (some a) t → Ends M Q R (f a t)) : Ends M Q R ((c >>= f) s) := by
  rw [bind_apply]
  cases hc : c s with
  | mk o t =>
    rw [hc] at first
    cases o with
    | none => exact first.imp (stop t) id
    | some a => exact first.after (inert a) (rest a t)

theorem Ends.ignore_bind {f : Unit → Cmd σ β} (first : Ends M Q P (c s)) (inert : Inert M (f ()))
    (rest : ∀ a t, P a t → Ends M Q R (f () t)) :
    Ends M Q R ((Cmd.ignore c >>= f) s) :=
  first.after inert (rest _ _)

theorem Ends.attempt_bind {f : Option α → Cmd σ β} (first : Ends M Q P (c s))
    (inert : ∀ a, Inert M (f a)) (rest : ∀ a t, P a t → Ends M Q R (f a t)) :
    Ends M Q R ((Cmd.attempt c >>= f) s) :=
  first.after (inert _) (rest _ _)

end Cmd

end Obsidian.Lib
