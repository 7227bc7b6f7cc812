import Obsidian.Klib.PrintkArgs
import Obsidian.Lib.Runs

/-!
# Reading the format

Source: `kvsnprintf` in lib/printk.c, with the format string in memory. One step tests the
character under `fmt` in one of the four places where the source does so, and every step
reads that one character. A conversion that is cut off by the terminator is handled like an
unknown one, and the `fmt++` of the outer loop then leads behind the terminator.
-/
namespace Obsidian.Klib.Printk
open Lib Lib.Bytes StateTransition

/-! ## The scanner -/

/-- The loop of the source that tests `*fmt` next; the switch belongs to the last. -/
inductive Stage where
  | text
  | flags (spec : Spec)
  | width (spec : Spec)
  | mods (spec : Spec)
  deriving DecidableEq, Repr

structure Scan (σ : Type) where
  fmt : Nat
  stage : Stage
  ap : Va
  ob : σ

def flag (spec : Spec) (c : UInt8) : Option Spec :=
  if c = chMinus then some { spec with ljust := true }
  else if c = chZero then some { spec with zeroPad := true }
  else none

def digit (spec : Spec) (c : UInt8) : Option Spec :=
  if isDigit c then some { spec with width := wrapInt (spec.width * 10 + ((c.toNat : Int) - 48)) }
    else none

def modifier (spec : Spec) (c : UInt8) : Option Spec :=
  if c = 0x6C ∨ c = 0x7A then some { spec with lmod := spec.lmod + 1 } else none

section scan

variable {σ : Type} (putc : σ → UInt8 → σ) (abi : Abi) (str : Nat → List UInt8) (m : Bytes)

/-- One test of `*fmt`; `none` when the outer loop ends. -/
def scanStep (s : Scan σ) : Option (Scan σ) :=
  match s.stage with
  | .text =>
    if m s.fmt = 0 then none
    else if m s.fmt ≠ chPercent then some { s with fmt := s.fmt + 1, ob := putc s.ob (m s.fmt) }
    else some { s with fmt := s.fmt + 1, stage := .flags {} }
  | .flags spec =>
    match flag spec (m s.fmt) with
    | some spec => some { s with fmt := s.fmt + 1, stage := .flags spec }
    | none => some { s with stage := .width spec }
  | .width spec =>
    match digit spec (m s.fmt) with
    | some spec => some { s with fmt := s.fmt + 1, stage := .width spec }
    | none => some { s with stage := .mods spec }
  | .mods spec =>
    match modifier spec (m s.fmt) with
    | some spec => some { s with fmt := s.fmt + 1, stage := .mods spec }
    | none =>
      let (ap, ob) := convert putc abi str spec (m s.fmt) s.ap s.ob
      some ⟨s.fmt + 1, .text, ap, ob⟩

end scan

/-! ## The inner loops -/

/-- Characters are taken as long as `take` accepts them. -/
def consume (take : Spec → UInt8 → Option Spec) (spec : Spec) : List UInt8 → Spec × List UInt8
  | [] => (spec, [])
  | c :: rest =>
    match take spec c with
    | some next => consume take next rest
    | none => (spec, c :: rest)

variable (spec : Spec)

theorem parseFlags_eq (fmt : List UInt8) : parseFlags spec fmt = consume flag spec fmt := by
  induction fmt generalizing spec with
  | nil => rfl
  | cons c rest ih =>
    rw [parseFlags, consume, flag, ih, ih]
    split
    · rfl
    · split
      · rfl
      · rfl

theorem parseWidth_eq (fmt : List UInt8) : parseWidth spec fmt = consume digit spec fmt := by
  induction fmt generalizing spec with
  | nil => rfl
  | cons c rest ih =>
    rw [parseWidth, consume, digit, ih]
    split
    · rfl
    · rfl

theorem parseMod_eq (fmt : List UInt8) : parseMod spec fmt = consume modifier spec fmt := by
  induction fmt generalizing spec with
  | nil => rfl
  | cons c rest ih =>
    rw [parseMod, consume, modifier, ih]
    split
    · rfl
    · rfl

section runs

variable {σ : Type} {putc : σ → UInt8 → σ} {abi : Abi} {str : Nat → List UInt8} {m : Bytes}
    {p last : Nat}
  {fmt : List UInt8} {ap : Va} {ob : σ}

/-- The string that begins at `p` ends with the zero at `last`. -/
structure Ahead (m : Bytes) (last p : Nat) (fmt : List UInt8) : Prop where
  spelled : CStr.Spelled m p fmt
  ends : p + fmt.length = last

theorem Ahead.le (ahead : Ahead m last p fmt) : p ≤ last := by
  have := ahead.ends
  omega

theorem Ahead.cons {c : UInt8} {rest : List UInt8} (ahead : Ahead m last p (c :: rest)) :
    m p = c ∧ c ≠ 0 ∧ Ahead m last (p + 1) rest := by
  obtain ⟨first, nonzero, tail⟩ := ahead.spelled.cons
  have ends := ahead.ends
  rw [List.length_cons] at ends
  exact ⟨first, nonzero, tail, by omega⟩

variable (putc abi str ap ob) in
theorem consume_run (take : Spec → UInt8 → Option Spec) (stage : Spec → Stage)
    (stops : ∀ spec, take spec 0 = none)
    (steps : ∀ p spec next, take spec (m p) = some next →
      scanStep putc abi str m ⟨p, stage spec, ap, ob⟩ = some ⟨p + 1, stage next, ap, ob⟩)
    (spec : Spec) (ahead : Ahead m last p fmt) :
    ∃ p', p ≤ p' ∧ Ahead m last p' (consume take spec fmt).2 ∧ take (consume take spec fmt).1
    (m p') = none ∧
      ReachesIn (scanStep putc abi str m) (·.fmt ≤ last) ⟨p, stage spec, ap, ob⟩
        ⟨p', stage (consume take spec fmt).1, ap, ob⟩ := by
  induction fmt generalizing spec p with
  | nil =>
    refine ⟨p, Nat.le_refl p, ahead, ?_, .refl⟩
    rw [ahead.spelled.nil]
    exact stops spec
  | cons c rest ih =>
    obtain ⟨first, -, tail⟩ := ahead.cons
    rw [consume]
    cases taken : take spec c with
    | none => exact ⟨p, Nat.le_refl p, ahead, by rw [first, taken], .refl⟩
    | some next =>
      obtain ⟨p', later, ahead', left, run⟩ := ih next tail
      refine ⟨p', by omega, ahead', left, .head ahead.le ?_ run⟩
      exact steps p spec next (by rw [first, taken])

theorem spec_run (ahead : Ahead m last p fmt) : ∃ p', p ≤ p' ∧ Ahead m last p' (parseSpec fmt).2 ∧
      ReachesIn (scanStep putc abi str m) (·.fmt ≤ last) ⟨p, .flags {}, ap, ob⟩
        ⟨p' + 1, .text, (convert putc abi str (parseSpec fmt).1 (m p') ap ob).1,
          (convert putc abi str (parseSpec fmt).1 (m p') ap ob).2⟩ := by
  simp only [parseSpec, parseFlags_eq, parseWidth_eq, parseMod_eq]
  obtain ⟨p1, later1, ahead1, left1, run1⟩ :=
    consume_run putc abi str ap ob flag .flags (fun _ => rfl)
    (fun p spec next taken => by simp only [scanStep, taken]) {} ahead
  obtain ⟨p2, later2, ahead2, left2, run2⟩ :=
    consume_run putc abi str ap ob digit .width (fun _ => rfl)
    (fun p spec next taken => by simp only [scanStep, taken]) (consume flag {} fmt).1 ahead1
  obtain ⟨p3, later3, ahead3, left3, run3⟩ :=
    consume_run putc abi str ap ob modifier .mods (fun _ => rfl)
    (fun p spec next taken => by simp only [scanStep, taken])
    (consume digit (consume flag {} fmt).1 (consume flag {} fmt).2).1 ahead2
  have to_width : scanStep putc abi str m ⟨p1, .flags (consume flag {} fmt).1, ap, ob⟩ =
      some ⟨p1, .width (consume flag {} fmt).1, ap, ob⟩ := by
    simp only [scanStep, left1]
  have to_mods : scanStep putc abi str m
      ⟨p2, .width (consume digit (consume flag {} fmt).1 (consume flag {} fmt).2).1, ap, ob⟩ =
      some ⟨p2, .mods (consume digit (consume flag {} fmt).1 (consume flag {} fmt).2).1,
          ap, ob⟩ := by
    simp only [scanStep, left2]
  refine ⟨p3, by omega, ahead3, ?_⟩
  refine run1.trans (ReachesIn.head ahead1.le to_width
    (run2.trans (ReachesIn.head ahead2.le to_mods (run3.trans ?_))))
  refine ReachesIn.head ahead3.le ?_ .refl
  simp only [scanStep, left3]

/-! ## The outer loop -/

theorem text_step {c : UInt8} (here : m p = c) (nonzero : c ≠ 0) (text : c ≠ chPercent) :
    scanStep putc abi str m ⟨p, .text, ap, ob⟩ = some ⟨p + 1, .text, ap, putc ob c⟩ := by
  simp only [scanStep, here, if_neg nonzero, if_pos text]

theorem percent_step (here : m p = chPercent) :
    scanStep putc abi str m ⟨p, .text, ap, ob⟩ = some ⟨p + 1, .flags {}, ap, ob⟩ := by
  simp only [scanStep, here, if_neg (show chPercent ≠ 0 by decide), if_neg (not_not.mpr rfl)]

/-- A complete format is scanned up to its terminator, with the characters of `format`. -/
theorem complete_run {fuel : Nat} (whole : complete fuel fmt = true) (ahead : Ahead m last p fmt) :
    ∃ final, ReachesIn (scanStep putc abi str m) (·.fmt ≤ last) ⟨p, .text, ap, ob⟩ final ∧
      scanStep putc abi str m final = none ∧ final.fmt = last ∧
      format putc abi str (fuel + 1) fmt ap ob = some final.ob := by
  -- the fuel bounds the rounds of the outer loop; each takes a character or a conversion
  induction fuel generalizing fmt p ap ob with
  | zero =>
    cases fmt with
    | nil => exact ⟨_, .refl, if_pos ahead.spelled.nil, ahead.ends, rfl⟩
    | cons c rest => cases whole
  | succ fuel ih =>
    cases fmt with
    | nil => exact ⟨_, .refl, if_pos ahead.spelled.nil, ahead.ends, rfl⟩
    | cons c rest =>
      obtain ⟨first, nonzero, tail⟩ := ahead.cons
      simp only [complete] at whole
      rw [format]
      by_cases text : c ≠ chPercent
      · rw [if_pos text] at whole ⊢
        obtain ⟨final, run, result⟩ := ih whole tail
        exact ⟨final, ReachesIn.head ahead.le (text_step first nonzero text) run, result⟩
      · rw [if_neg text] at whole ⊢
        have percent : m p = chPercent := first.trans (not_not.mp text)
        generalize parsed : parseSpec rest = found at whole ⊢
        obtain ⟨spec, after⟩ := found
        cases after with
        | nil => cases whole
        | cons k more =>
          obtain ⟨p', -, ahead', run⟩ := spec_run tail
          rw [parsed] at ahead' run
          obtain ⟨here, -, tail'⟩ := ahead'.cons
          rw [here] at run
          obtain ⟨final, run', result⟩ := ih whole tail'
          exact ⟨final, ReachesIn.head ahead.le (percent_step percent) (run.trans run'), result⟩

theorem incomplete_run {fuel : Nat} (cut : complete fuel fmt = false) (enough : fmt.length ≤ fuel)
    (ahead : Ahead m last p fmt) :
    ∃ s, Reaches (scanStep putc abi str m) ⟨p, .text, ap, ob⟩ s ∧ s.fmt = last + 1 := by
  induction fuel generalizing fmt p ap ob with
  | zero =>
    rw [List.length_eq_zero_iff.mp (Nat.le_zero.mp enough)] at cut
    cases cut
  | succ fuel ih =>
    cases fmt with
    | nil => cases cut
    | cons c rest =>
      obtain ⟨first, nonzero, tail⟩ := ahead.cons
      rw [List.length_cons] at enough
      simp only [complete] at cut
      by_cases text : c ≠ chPercent
      · rw [if_pos text] at cut
        obtain ⟨s, run, behind⟩ := ih cut (by omega) tail
        exact ⟨s, .head (text_step first nonzero text) run, behind⟩
      · rw [if_neg text] at cut
        obtain ⟨p', later, ahead', run⟩ := spec_run tail
        have percent : m p = chPercent := first.trans (not_not.mp text)
        split at cut
        next spec parsed =>
          rw [parsed] at ahead'
          exact ⟨_, .head (percent_step percent) run.reaches, congrArg (· + 1) ahead'.ends⟩
        next spec k more parsed =>
          rw [parsed] at ahead' run
          obtain ⟨-, -, tail'⟩ := ahead'.cons
          have shorter : more.length ≤ fuel := by
            have ends := tail'.ends
            have ends' := tail.ends
            omega
          obtain ⟨s, run', behind⟩ := ih cut shorter tail'
          exact ⟨s, .head (percent_step percent) (run.reaches.trans run'), behind⟩

end runs

/-- For every format string in memory: no character behind the terminator is read and the loop
ends, exactly when the string does not end inside a conversion; the characters put are then
those of `format`. -/
theorem format_reads_iff {σ : Type} (putc : σ → UInt8 → σ) (abi : Abi) (str : Nat → List UInt8)
    (m : Bytes) (p : Nat) (fmt : List UInt8) (ap : Va) (ob : σ) (spelled : CStr.Spelled m p fmt) :
    ((∀ s, Reaches (scanStep putc abi str m) ⟨p, .text, ap, ob⟩ s → s.fmt ≤ p + fmt.length) ∧
      ∃ final ∈ eval (scanStep putc abi str m) ⟨p, .text, ap, ob⟩,
        format putc abi str (fmt.length + 1) fmt ap ob = some final.ob) ↔ Complete fmt := by
  have ahead : Ahead m (p + fmt.length) p fmt := ⟨spelled, rfl⟩
  constructor
  · rintro ⟨within, -⟩
    by_contra cut
    obtain ⟨s, reached, behind⟩ := incomplete_run (Bool.eq_false_iff.mpr cut) (Nat.le_refl _) ahead
    have inside := within s reached
    omega
  · intro whole
    obtain ⟨final, run, stop, at_end, result⟩ := complete_run whole ahead
    refine ⟨fun s reached => run.always stop (Nat.le_of_eq at_end) reached, final, ?_, result⟩
    exact mem_eval.mpr ⟨run.reaches, stop⟩

/-- The format `%d`. -/
theorem format_reads_decimal :
    (∀ s, Reaches (scanStep snoc .lp64 (fun _ => []) fun k => [0x25, 0x64].getD k 0)
      ⟨0, .text, ⟨fun _ => 42, 0⟩, []⟩ s →
      s.fmt ≤ 2) ∧
    (eval (scanStep snoc .lp64 (fun _ => []) fun k => [0x25, 0x64].getD k 0)
      ⟨0, .text, ⟨fun _ => 42, 0⟩, []⟩).Dom := by
  have spelled : CStr.Spelled (fun k => [0x25, 0x64].getD k 0) 0 [0x25, 0x64] := by
    refine ⟨by decide, fun k _ => ?_⟩
    rw [Nat.zero_add]
  obtain ⟨within, final, ends, -⟩ :=
    (format_reads_iff snoc .lp64 (fun _ => []) _ 0 [0x25, 0x64] ⟨fun _ => 42, 0⟩ []
    spelled).mpr (by decide)
  exact ⟨within, Part.dom_iff_mem.mpr ⟨final, ends⟩⟩

/-- The format `%` in front of an `x`: the `x` behind the terminator is read and put. -/
theorem percent_reads_behind :
    ∃ m : Bytes, m = (fun k => [0x25, 0, 0x78].getD k 0) ∧
    CStr.Spelled m 0 [0x25] ∧
    ∃ s final, Reaches (scanStep snoc .lp64 (fun _ => []) m) ⟨0, .text, ⟨fun _ => 0, 0⟩, []⟩ s ∧
    s.fmt = 2 ∧
      Reaches (scanStep snoc .lp64 (fun _ => []) m) s final ∧ final.ob = [0x25, 0, 0x78] := by
  have spelled : CStr.Spelled (fun k => [0x25, 0, 0x78].getD k 0) 0 [0x25] := by
    refine ⟨by decide, fun k hk => ?_⟩
    rcases Nat.le_one_iff_eq_zero_or_eq_one.mp hk with rfl | rfl
    · rfl
    · rfl
  refine ⟨_, rfl, spelled, ⟨2, .text, ⟨fun _ => 0, 0⟩, [0x25, 0]⟩,
    ⟨3, .text, ⟨fun _ => 0, 0⟩, [0x25, 0, 0x78]⟩,
    ?_, rfl, ?_, rfl⟩
  · refine .head (b := ⟨1, .flags {}, ⟨fun _ => 0, 0⟩, []⟩) rfl ?_
    refine .head (b := ⟨1, .width {}, ⟨fun _ => 0, 0⟩, []⟩) rfl ?_
    refine .head (b := ⟨1, .mods {}, ⟨fun _ => 0, 0⟩, []⟩) rfl ?_
    exact .single rfl
  · exact .single rfl

end Obsidian.Klib.Printk
