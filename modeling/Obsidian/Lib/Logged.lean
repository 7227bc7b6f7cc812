import Obsidian.Lib.Cut

/-!
# Commands that keep a log

The state is paired with the list of the events so far. A logged command is the text of a
plain one with the events noted on the way; `Logs` says that forgetting the log gives the
plain command back, so that what the log says is about the plain command.
-/
namespace Obsidian.Lib.Logged

variable {σ ω α β : Type}

/-- A command that notes nothing. -/
def lift (c : Cmd σ α) : Cmd (σ × List ω) α := fun s => ((c s.1).1, ((c s.1).2, s.2))

def notes (es : List ω) : Cmd (σ × List ω) Unit := fun s => (some (), (s.1, s.2 ++ es))

def note (e : ω) : Cmd (σ × List ω) Unit := notes [e]

/-- The events of a run. -/
def events (c : Cmd (σ × List ω) α) (s : σ) : List ω := (c (s, [])).2.2

theorem lift_apply (c : Cmd σ α) (s : σ) (l : List ω) : lift c (s, l) = ((c s).1, ((c s).2, l)) :=
  rfl

theorem attempt_lift_bind (c : Cmd σ α) (f : Option α → Cmd (σ × List ω) β) (s : σ) (l : List ω) :
    (Cmd.attempt (lift c) >>= f) (s, l) = f (c s).1 ((c s).2, l) := rfl

theorem lift_get_bind (f : σ → Cmd (σ × List ω) β) (s : σ) (l : List ω) :
    (lift Cmd.get >>= f) (s, l) = f s (s, l) := rfl

theorem lift_modify_bind (g : σ → σ) (f : Unit → Cmd (σ × List ω) β) (s : σ) (l : List ω) :
    (lift (Cmd.modify g) >>= f) (s, l) = f () (g s, l) := rfl

theorem notes_bind (es : List ω) (f : Unit → Cmd (σ × List ω) β) (s : σ) (l : List ω) :
    (notes es >>= f) (s, l) = f () (s, l ++ es) := rfl

/-! ## Forgetting the log -/

/-- The logged command does what the plain one does and adds to the log. -/
def Logs (c : Cmd (σ × List ω) α) (plain : Cmd σ α) : Prop :=
  ∀ s l, ∃ more, c (s, l) = ((plain s).1, ((plain s).2, l ++ more))

section
variable {c c' : Cmd (σ × List ω) α} {plain plain' : Cmd σ α}

theorem Logs.lift (plain : Cmd σ α) : Logs (Logged.lift plain : Cmd (σ × List ω) α) plain :=
  fun s l => ⟨[], by rw [lift_apply, List.append_nil]⟩

theorem Logs.pure (a : α) : Logs (Pure.pure a : Cmd (σ × List ω) α) (Pure.pure a) :=
  fun s l => ⟨[], by rw [List.append_nil]; rfl⟩

theorem Logs.fail : Logs (Cmd.fail : Cmd (σ × List ω) α) Cmd.fail :=
    fun s l => ⟨[], by rw [List.append_nil]; rfl⟩

theorem Logs.notes_bind (es : List ω) (h : Logs c plain) :
    Logs (notes es >>= fun _ => c) plain := by
  intro s l
  obtain ⟨more, run⟩ := h s (l ++ es)
  exact ⟨es ++ more, by rw [Logged.notes_bind, run, List.append_assoc]⟩

theorem Logs.bind {f : α → Cmd (σ × List ω) β} {g : α → Cmd σ β} (first : Logs c plain)
    (rest : ∀ a, Logs (f a) (g a)) : Logs (c >>= f) (plain >>= g) := by
  intro s l
  obtain ⟨more, run⟩ := first s l
  rw [Cmd.bind_apply, Cmd.bind_apply, run]
  cases plain s with
  | mk r t =>
    cases r with
    | none => exact ⟨more, rfl⟩
    | some a =>
      obtain ⟨later, run'⟩ := rest a t (l ++ more)
      exact ⟨more ++ later, by rw [← List.append_assoc]; exact run'⟩

/-- An event noted after a success. -/
theorem Logs.then_note {c : Cmd (σ × List ω) Unit} {plain : Cmd σ Unit} (h : Logs c plain) (e : ω) :
    Logs (c >>= fun _ => note e) plain := by
  intro s l
  obtain ⟨more, run⟩ := h s l
  rw [Cmd.bind_apply, run]
  cases plain s with
  | mk r t =>
    cases r with
    | none => exact ⟨more, rfl⟩
    | some u => exact ⟨more ++ [e], by rw [← List.append_assoc]; rfl⟩

theorem Logs.attempt (h : Logs c plain) : Logs (Cmd.attempt c) (Cmd.attempt plain) := by
  intro s l
  obtain ⟨more, run⟩ := h s l
  exact ⟨more, by unfold Cmd.attempt; rw [run]⟩

theorem Logs.ignore (h : Logs c plain) : Logs (Cmd.ignore c) (Cmd.ignore plain) := by
  intro s l
  obtain ⟨more, run⟩ := h s l
  exact ⟨more, by unfold Cmd.ignore; rw [run]⟩

theorem Logs.ite {p : Prop} [Decidable p] (yes : Logs c plain) (no : Logs c' plain') :
    Logs (if p then c else c') (if p then plain else plain') := by
  split
  · exact yes
  · exact no

/-- A run from any log adds to it and is otherwise the plain run. -/
theorem Logs.result (h : Logs c plain) (s : σ) (l : List ω) :
    (c (s, l)).1 = (plain s).1 ∧ (c (s, l)).2.1 = (plain s).2 := by
  obtain ⟨more, run⟩ := h s l
  rw [run]
  exact ⟨rfl, rfl⟩

end

/-! ## Losing the device -/

section
variable {ε μ : Type} {M : Medium σ ε μ} {Q : μ → Prop} {P : Option α → σ → Prop}
variable {c : Cmd (σ × List ω) α} {plain : Cmd σ α} {s : σ}

/-- The medium under a log. -/
def medium (M : Medium σ ε μ) : Medium (σ × List ω) ε μ :=
  ⟨fun s => M.env s.1, fun s => M.dead s.1, fun s => M.held s.1⟩

theorem lift_inert (inert : Cmd.Inert M plain) :
    Cmd.Inert (medium M) (lift plain : Cmd (σ × List ω) α) :=
  fun s => inert s.1

theorem notes_inert (es : List ω) : Cmd.Inert (medium M) (notes es) :=
    fun _ => ⟨rfl, fun dead => ⟨dead, rfl⟩⟩

theorem Logs.inert (h : Logs c plain) (inert : Cmd.Inert M plain) : Cmd.Inert (medium M) c := by
  rintro ⟨s, l⟩
  obtain ⟨more, run⟩ := h s l
  rw [run]
  exact inert s

theorem lift_ends (ends : Cmd.Ends M Q P (plain s)) (l : List ω) :
    Cmd.Ends (medium M) Q (fun r t => P r t.1 ∧ t.2 = l) (lift plain (s, l)) :=
  ends.imp (fun h => ⟨h, rfl⟩) id

/-- As the logged command ends, so does the plain one. -/
theorem Logs.ends (h : Logs c plain) (l : List ω)
    (ends : Cmd.Ends (medium M) Q (fun r t => P r t.1) (c (s, l))) : Cmd.Ends M Q P (plain s) := by
  obtain ⟨more, run⟩ := h s l
  rw [run] at ends
  exact ends

end

/-! ## Events that are not noted -/

/-- No event of the kind `P` is noted. -/
def Spares (P : ω → Prop) (c : Cmd (σ × List ω) α) : Prop :=
  ∀ s l, ∀ e ∈ (c (s, l)).2.2, P e → e ∈ l

/-- No event of the kind `P` is noted by a run that fails. -/
def SparesFailing (P : ω → Prop) (c : Cmd (σ × List ω) α) : Prop :=
  ∀ s l, (c (s, l)).1 = none → ∀ e ∈ (c (s, l)).2.2, P e → e ∈ l

section
variable {P : ω → Prop} {c c' : Cmd (σ × List ω) α}

theorem Spares.lift (plain : Cmd σ α) : Spares P (Logged.lift plain : Cmd (σ × List ω) α) :=
  fun _ _ _ member _ => member

theorem Spares.pure (a : α) : Spares P (Pure.pure a : Cmd (σ × List ω) α) :=
    fun _ _ _ member _ => member

theorem Spares.fail : Spares P (Cmd.fail : Cmd (σ × List ω) α) := fun _ _ _ member _ => member

theorem Spares.attempt (h : Spares P c) : Spares P (Cmd.attempt c) := h

theorem Spares.notes {es : List ω} (others : ∀ e ∈ es, ¬ P e) :
    Spares P (Logged.notes es : Cmd (σ × List ω) Unit) := by
  intro s l e member hP
  rcases List.mem_append.1 member with before | now
  · exact before
  · exact absurd hP (others e now)

variable {f : α → Cmd (σ × List ω) β} {p : Prop}

theorem Spares.bind (first : Spares P c) (rest : ∀ a, Spares P (f a)) : Spares P (c >>= f) := by
  intro s l e member hP
  have before := first s l e
  rw [Cmd.bind_apply] at member
  cases run : c (s, l) with
  | mk r t =>
    rw [run] at member before
    cases r with
    | none => exact before member hP
    | some a => exact before (rest a t.1 t.2 e member hP) hP

theorem Spares.ite [Decidable p] (yes : Spares P c) (no : Spares P c') :
    Spares P (if p then c else c') := by
  split
  · exact yes
  · exact no

theorem Spares.failing (h : Spares P c) : SparesFailing P c := fun s l _ => h s l

theorem SparesFailing.total (total : Cmd.Total c) : SparesFailing P c := by
  intro s l failed
  obtain ⟨a, done⟩ := total (s, l)
  rw [failed] at done
  cases done

theorem SparesFailing.bind (first : Spares P c) (rest : ∀ a, SparesFailing P (f a)) :
    SparesFailing P (c >>= f) := by
  intro s l failed e member hP
  have before := first s l e
  rw [Cmd.bind_apply] at failed member
  cases run : c (s, l) with
  | mk r t =>
    rw [run] at failed member before
    cases r with
    | none => exact before member hP
    | some a => exact before (rest a t.1 t.2 failed e member hP) hP

theorem SparesFailing.ite [Decidable p] (yes : SparesFailing P c) (no : SparesFailing P c') :
    SparesFailing P (if p then c else c') := by
  split
  · exact yes
  · exact no

end

/-! ## Runs that note events of one kind only -/

/-- From `l` to `k` events of the kind `P` only are noted, exactly when `C` holds. -/
def Noted (P : ω → Prop) (C : Prop) (l k : List ω) : Prop := (∀ e ∈ k, P e) ↔ (∀ e ∈ l, P e) ∧ C

section
variable {P : ω → Prop} {C D : Prop} {l k m : List ω}

theorem Noted.nothing (h : C) : Noted P C l l := (and_iff_left h).symm

theorem Noted.congr (h : Noted P C l k) (iff : C ↔ D) : Noted P D l k :=
  Iff.trans h (and_congr_right fun _ => iff)

theorem Noted.trans (first : Noted P C l k) (rest : Noted P D k m) : Noted P (C ∧ D) l m :=
  Iff.trans rest ((and_congr_left fun _ => first).trans and_assoc)

theorem Noted.after {es : List ω} (rest : Noted P D (l ++ es) m) :
    Noted P ((∀ e ∈ es, P e) ∧ D) l m :=
  Noted.trans List.forall_mem_append rest

theorem Noted.after_note {e : ω} (rest : Noted P D (l ++ [e]) m) : Noted P (P e ∧ D) l m :=
  rest.after.congr (and_congr_left fun _ => List.forall_mem_singleton)

end

/-- From `s` the command notes events of the kind `P` only, exactly when `C` holds. -/
def NotesOnly (P : ω → Prop) (c : Cmd (σ × List ω) α) (s : σ) (C : Prop) : Prop :=
  ∀ l, (∀ e ∈ (c (s, l)).2.2, P e) ↔ (∀ e ∈ l, P e) ∧ C

section
variable {P : ω → Prop} {c : Cmd (σ × List ω) α} {s t : σ} {C D : Prop}

theorem NotesOnly.congr (h : NotesOnly P c s C) (iff : C ↔ D) : NotesOnly P c s D :=
  fun l => (h l).trans (and_congr_right fun _ => iff)

theorem NotesOnly.events (h : NotesOnly P c s C) : (∀ e ∈ events c s, P e) ↔ C :=
  (h []).trans (and_iff_right fun _ member => absurd member List.not_mem_nil)

theorem NotesOnly.pure (a : α) (s : σ) : NotesOnly P (Pure.pure a : Cmd (σ × List ω) α) s True :=
  fun _ => (and_iff_left trivial).symm

theorem NotesOnly.fail (s : σ) : NotesOnly P (Cmd.fail : Cmd (σ × List ω) α) s True :=
  fun _ => (and_iff_left trivial).symm

theorem NotesOnly.lift (plain : Cmd σ α) (s : σ) :
    NotesOnly P (Logged.lift plain : Cmd (σ × List ω) α) s True :=
  fun _ => (and_iff_left trivial).symm

variable {plain : Cmd σ α} {f : α → Cmd (σ × List ω) β}

/-- A command that fails, with the rest that is not run. -/
theorem NotesOnly.bind_none (logs : Logs c plain) (first : NotesOnly P c s C)
    (run : (plain s).1 = none) :
    NotesOnly P (c >>= f) s C := by
  intro l
  have failed : c (s, l) = (none, (c (s, l)).2) := Prod.ext ((logs.result s l).1.trans run) rfl
  rw [Cmd.bind_none failed]
  exact first l

theorem NotesOnly.bind {a : α} (logs : Logs c plain) (first : NotesOnly P c s C)
    (run : plain s = (some a, t)) (rest : NotesOnly P (f a) t D) :
    NotesOnly P (c >>= f) s (C ∧ D) := by
  intro l
  obtain ⟨more, ran⟩ := logs s l
  have before := first l
  rw [ran] at before
  rw [run] at ran
  rw [Cmd.bind_some ran, rest, before, and_assoc]

end

section
variable {P : ω → Prop} {c : Cmd σ α} {f : α → Cmd (σ × List ω) β} {s t : σ} {C : Prop}

theorem NotesOnly.lift_bind {a : α} (run : c s = (some a, t)) (rest : NotesOnly P (f a) t C) :
    NotesOnly P (Logged.lift c >>= f) s C :=
  (NotesOnly.bind (.lift c) (.lift c s) run rest).congr (by rw [true_and])

theorem NotesOnly.lift_none (run : (c s).1 = none) : NotesOnly P (Logged.lift c >>= f) s True :=
  .bind_none (.lift c) (.lift c s) run

theorem NotesOnly.get_bind {f : σ → Cmd (σ × List ω) β} (rest : NotesOnly P (f s) s C) :
    NotesOnly P (Logged.lift Cmd.get >>= f) s C := rest

theorem NotesOnly.attempt_bind {r : Option α} {f : Option α → Cmd (σ × List ω) β}
    (run : c s = (r, t)) (rest : NotesOnly P (f r) t C) :
    NotesOnly P (Cmd.attempt (Logged.lift c) >>= f) s C := by
  intro l
  rw [attempt_lift_bind, run]
  exact rest l

theorem NotesOnly.notes_bind {es : List ω} {f : Unit → Cmd (σ × List ω) β}
    (rest : NotesOnly P (f ()) s C) :
    NotesOnly P (Logged.notes es >>= f) s ((∀ e ∈ es, P e) ∧ C) := by
  intro l
  rw [Logged.notes_bind, rest, List.forall_mem_append, and_assoc]

end
end Obsidian.Lib.Logged
