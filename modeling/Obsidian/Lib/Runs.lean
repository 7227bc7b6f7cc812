import Mathlib.Computability.StateTransition
import Mathlib.Data.List.Basic

/-!
# Runs of a partial deterministic machine

`step s op` is `none` when the call never returns; `ok s op` is what the caller
promises before the call. `Run` is a sequence of admitted calls that all
returned. An invariant is proved once per step and carried to every state of
every run. A machine that runs on its own is a `StateTransition`; `ReachesIn` keeps
track of what holds in the states it leaves.
-/
namespace Obsidian.Lib

variable {σ ω : Type}

inductive Run (step : σ → ω → Option σ) (ok : σ → ω → Prop) : σ → List ω → σ → Prop
  | done (s : σ) : Run step ok s [] s
  | call {s next final : σ} {op : ω} {ops : List ω} (admitted : ok s op)
      (returned : step s op = some next) (rest : Run step ok next ops final) :
      Run step ok s (op :: ops) final

variable {step : σ → ω → Option σ} {ok : σ → ω → Prop} {s final : σ} {ops : List ω}

theorem Run.invariant (Inv : σ → Prop)
    (preserved : ∀ s op next, Inv s → ok s op → step s op = some next → Inv next)
    (run : Run step ok s ops final) (start : Inv s) :
    Inv final := by
  induction run with
  | done => exact start
  | call admitted returned _ ih => exact ih (preserved _ _ _ start admitted returned)

theorem Run.append {mid : σ} {more : List ω} (first : Run step ok s ops mid)
    (second : Run step ok mid more final) : Run step ok s (ops ++ more) final := by
  induction first with
  | done => exact second
  | call admitted returned _ ih => exact .call admitted returned (ih second)

variable {ok' : σ → ω → Prop} {back front : List ω}

/-- A run under a promise is a run under every weaker one. -/
theorem Run.imp (weaker : ∀ s op, ok s op → ok' s op) (run : Run step ok s ops final) :
    Run step ok' s ops final := by
  induction run with
  | done s => exact .done s
  | call admitted returned _ ih => exact .call (weaker _ _ admitted) returned ih

theorem Run.deterministic {other : σ} (run : Run step ok s ops final)
    (run' : Run step ok' s ops other) :
    final = other := by
  induction run with
  | done =>
    cases run'
    rfl
  | call _ returned _ ih =>
    cases run' with
    | call _ returned' rest' =>
      rw [returned] at returned'
      cases returned'
      exact ih rest'

/-- A run cut in two. -/
theorem Run.split (run : Run step ok s (front ++ back) final) :
    ∃ mid, Run step ok s front mid ∧ Run step ok mid back final := by
  induction front generalizing s with
  | nil => exact ⟨s, .done s, run⟩
  | cons first rest ih =>
    cases run with
    | call admitted returned more =>
      obtain ⟨mid, hfront, hback⟩ := ih more
      exact ⟨mid, .call admitted returned hfront, hback⟩

/-- A run cut before one of its calls. -/
theorem Run.split_cons {op : ω} (run : Run step ok s (front ++ op :: back) final) :
    ∃ mid, Run step ok s front mid ∧ ∃ next, ok mid op ∧ step mid op = some next ∧
    Run step ok next back final := by
  obtain ⟨mid, hfront, hback⟩ := run.split
  cases hback with
  | call admitted returned rest => exact ⟨mid, hfront, _, admitted, returned, rest⟩

/-- `P` holds in every state that a list of calls passes through. -/
def Always (step : σ → ω → Option σ) (ok : σ → ω → Prop) (P : σ → Prop) (s : σ) (ops : List ω) :
    Prop :=
  ∀ front back mid, ops = front ++ back → Run step ok s front mid → P mid

/-- The first call of a list that is not of a given kind. -/
theorem exists_first_not (kind : ω → Prop) (h : ¬ ∀ op ∈ ops, kind op) :
    ∃ front op back, ops = front ++ op :: back ∧ ¬ kind op ∧ ∀ x ∈ front, kind x := by
  induction ops with
  | nil => exact absurd (fun _ member => nomatch member) h
  | cons op rest ih =>
    by_cases hop : kind op
    · have hrest : ¬ ∀ x ∈ rest, kind x := by
        intro all
        exact h fun x member => by
          rcases List.mem_cons.mp member with rfl | later
          · exact hop
          · exact all x later
      obtain ⟨front, x, back, rfl, hx, hfront⟩ := ih hrest
      refine ⟨op :: front, x, back, rfl, hx, fun y member => ?_⟩
      rcases List.mem_cons.mp member with rfl | later
      · exact hop
      · exact hfront y later
    · exact ⟨[], op, rest, rfl, hop, fun _ member => nomatch member⟩

/-- The run of a list of calls, as a function; `none` at the first call that is not admitted
or does not return. -/
def exec (step : σ → ω → Option σ) (ok : σ → ω → Prop) [∀ s op, Decidable (ok s op)] :
    σ → List ω → Option σ
  | s, [] => some s
  | s, op :: ops =>
    if ok s op then
      match step s op with
      | some next => exec step ok next ops
      | none => none
    else none

theorem Run.of_exec [∀ s op, Decidable (ok s op)] (h : exec step ok s ops = some final) :
    Run step ok s ops final := by
  induction ops generalizing s with
  | nil =>
    cases h
    exact .done _
  | cons op rest ih =>
    simp only [exec] at h
    split at h
    next admitted =>
      split at h
      next next returned => exact .call admitted returned (ih h)
      · cases h
    · cases h

theorem Run.exists_of_exec [∀ s op, Decidable (ok s op)] (h : (exec step ok s ops).isSome) :
    ∃ final, Run step ok s ops final :=
  ⟨_, Run.of_exec (Option.some_get h).symm⟩

/-! ## Machines that run on their own -/

section machine

variable {f : σ → Option σ} {P : σ → Prop} {a b c : σ}

/-- `b` is reached from `a` by steps from states where `P` holds. -/
def ReachesIn (f : σ → Option σ) (P : σ → Prop) : σ → σ → Prop :=
  Relation.ReflTransGen fun a b => P a ∧ b ∈ f a

theorem ReachesIn.head (here : P a) (next : f a = some b) (rest : ReachesIn f P b c) :
    ReachesIn f P a c :=
  Relation.ReflTransGen.head ⟨here, next⟩ rest

theorem ReachesIn.trans (run : ReachesIn f P a b) (more : ReachesIn f P b c) : ReachesIn f P a c :=
  Relation.ReflTransGen.trans run more

theorem ReachesIn.reaches (run : ReachesIn f P a b) : StateTransition.Reaches f a b :=
  Relation.ReflTransGen.lift id (fun _ _ step => step.2) _ _ run

/-- A run that stops passes through nothing else. -/
theorem ReachesIn.always (run : ReachesIn f P a b) (stop : f b = none) (last : P b)
    (reached : StateTransition.Reaches f a c) : P c := by
  induction run using Relation.ReflTransGen.head_induction_on with
  | refl =>
    rcases Relation.ReflTransGen.cases_head reached with rfl | ⟨next, step, -⟩
    · exact last
    · rw [stop] at step
      cases step
  | head first rest ih =>
    rcases Relation.ReflTransGen.cases_head reached with rfl | ⟨next, step, later⟩
    · exact first.1
    · rw [Option.mem_unique first.2 step] at ih
      exact ih later

end machine

end Obsidian.Lib
