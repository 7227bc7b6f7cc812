import Obsidian.Klib.PrintkBuffer
import Obsidian.Lib.CString

/-!
# Conversions and their arguments

A format is given as pieces, each conversion together with its argument; `spell`
is the format string and `Presents` says that the slots of a `va_list` hold the
arguments one after the other. `kvsnprintf` pairs conversions with arguments when
it puts the renderings of the arguments in order, whatever lies in the slots
behind them.
-/
namespace Obsidian.Klib.Printk
open Lib Lib.Bytes

/-! ## Formats -/

inductive LenMod where
  | none | l | ll | z
  deriving DecidableEq, Repr

def LenMod.text : LenMod → List UInt8
  | .none => []
  | .l => [0x6C]
  | .ll => [0x6C, 0x6C]
  | .z => [0x7A]

/-- Flags (`true` for a minus, `false` for a zero), width and length modifier. A width does
not start with a zero, which would be a flag. -/
structure Mods where
  flags : List Bool
  width : List (Fin 10)
  len : LenMod
  lead : ∀ d ∈ width.head?, d ≠ 0

def flagChar (minus : Bool) : UInt8 := if minus then chMinus else chZero

def widthChar (d : Fin 10) : UInt8 := UInt8.ofNat (48 + d.val)

def Mods.text (m : Mods) : List UInt8 := m.flags.map flagChar ++ m.width.map widthChar ++ m.len.text

def Mods.spec (m : Mods) : Spec where
  ljust := m.flags.contains true
  zeroPad := m.flags.contains false
  width := m.width.foldl (fun w d => wrapInt (w * 10 + (d.val : Int))) 0
  lmod := m.len.text.length

inductive NumKind where
  | d | i | u | x | X | o
  deriving DecidableEq, Repr

def NumKind.char : NumKind → UInt8
  | .d => 0x64
  | .i => 0x69
  | .u => 0x75
  | .x => 0x78
  | .X => 0x58
  | .o => 0x6F

/-- A literal character, or a conversion and the argument that belongs to it. A null string
is `none`; numbers are given as the type of the conversion holds them. -/
inductive Piece where
  | text (c : UInt8) (literal : c ≠ chPercent ∧ c ≠ 0)
  | percent (m : Mods)
  | chr (m : Mods) (v : Nat)
  | str (m : Mods) (s : Option CStr)
  | num (m : Mods) (k : NumKind) (v : Nat)
  | ptr (m : Mods) (v : Nat)

def Piece.spell : Piece → List UInt8
  | .text c _ => [c]
  | .percent m => chPercent :: (m.text ++ [0x25])
  | .chr m _ => chPercent :: (m.text ++ [0x63])
  | .str m _ => chPercent :: (m.text ++ [0x73])
  | .num m k _ => chPercent :: (m.text ++ [k.char])
  | .ptr m _ => chPercent :: (m.text ++ [0x70])

def spell (pieces : List Piece) : List UInt8 := pieces.flatMap Piece.spell

/-! ## Arguments in slots -/

/-- The argument of a number, read with the type that its modifier names. -/
def numArg (abi : Abi) (len : LenMod) (ap : Va) : Nat × Va :=
  match len with
  | .none => ap.int
  | .l | .z => ap.long abi
  | .ll => ap.quad abi

/-- Slots that the argument of a piece takes. -/
def Piece.slots (abi : Abi) : Piece → Nat
  | .text _ _ | .percent _ => 0
  | .chr _ _ | .str _ _ | .ptr _ _ => 1
  | .num m _ _ => if m.len = .ll ∧ abi = .ilp32 then 2 else 1

/-- The slots from `i` on hold the argument. -/
def Piece.At (abi : Abi) (str : Nat → List UInt8) (w : Nat → Nat) (i : Nat) : Piece → Prop
  | .text _ _ | .percent _ => True
  | .chr _ v => u32 (w i) = v
  | .str _ none => w i = 0
  | .str _ (some s) => w i ≠ 0 ∧ str (w i) = s.1
  | .num m _ v => (numArg abi m.len ⟨w, i⟩).1 = v
  | .ptr _ v => w i = v

def Presents (abi : Abi) (str : Nat → List UInt8) (w : Nat → Nat) : Nat → List Piece → Prop
  | _, [] => True
  | i, p :: rest => p.At abi str w i ∧ Presents abi str w (i + p.slots abi) rest

/-- A number is a value of the type of its conversion. -/
def Piece.Ok (abi : Abi) : Piece → Prop
  | .chr _ v => v < 4294967296
  | .num m _ v =>
    match m.len with
    | .none => v < 4294967296
    | .l | .z => (match abi with | .ilp32 => v < 4294967296 | .lp64 => v < 18446744073709551616)
    | .ll => v < 18446744073709551616
  | _ => True

/-! ## Renderings -/

/-- The sink that collects characters. -/
abbrev snoc (out : List UInt8) (c : UInt8) : List UInt8 := out ++ [c]

/-- A signed argument as `emit_num` receives it. -/
def signedArg (abi : Abi) (len : LenMod) (v : Nat) : Nat :=
  match len with
  | .none => extend32 v
  | .l | .z => extendLong abi v
  | .ll => v

def numText (abi : Abi) (m : Mods) (k : NumKind) (v : Nat) : List UInt8 :=
  match k with
  | .d | .i => emitNum snoc [] (signedArg abi m.len
      v) 10 false true m.spec.width m.spec.zeroPad m.spec.ljust
  | .u => emitNum snoc [] v 10 false false m.spec.width m.spec.zeroPad m.spec.ljust
  | .x => emitNum snoc [] v 16 false false m.spec.width m.spec.zeroPad m.spec.ljust
  | .X => emitNum snoc [] v 16 true false m.spec.width m.spec.zeroPad m.spec.ljust
  | .o => emitNum snoc [] v 8 false false m.spec.width m.spec.zeroPad m.spec.ljust

def chrText (m : Mods) (v : Nat) : List UInt8 :=
  emitStr snoc [] (if UInt8.ofNat v = 0 then [] else [UInt8.ofNat v]) m.spec.width m.spec.ljust

def strText (m : Mods) (s : List UInt8) : List UInt8 := emitStr snoc [] s m.spec.width m.spec.ljust

/-- What a piece with its own argument should put: the helpers of the source applied to it. -/
def Piece.render (abi : Abi) : Piece → List UInt8
  | .text c _ => [c]
  | .percent _ => [chPercent]
  | .chr m v => chrText m v
  | .str m none => strText m nullText
  | .str m (some s) => strText m s.1
  | .num m k v => numText abi m k v
  | .ptr _ v => emitPtr snoc abi [] v

/-- Whatever the slots behind the arguments and the rest of memory hold, the output is the
literal text and the renderings of the arguments in order. -/
def Pairs (abi : Abi) (pieces : List Piece) : Prop :=
  ∀ str w, Presents abi str w 0 pieces →
    emitted abi str (spell pieces) ⟨w, 0⟩ = some (pieces.flatMap (Piece.render abi))

/-! ## Parsing -/

variable {out rest tail : List UInt8} {k : UInt8} {fuel : Nat}

theorem parseFlags_text (flags : List Bool) (spec : Spec)
    (stop : ∀ c ∈ rest.head?, c ≠ chMinus ∧ c ≠ chZero) :
    parseFlags spec (flags.map flagChar ++ rest) =
      ({ spec with
        ljust := spec.ljust || flags.contains true,
        zeroPad := spec.zeroPad || flags.contains false }, rest) := by
  induction flags generalizing spec with
  | nil =>
    cases rest with
    | nil => simp [parseFlags]
    | cons c more =>
      have := stop c rfl
      simp [parseFlags, this.1, this.2]
  | cons b flags ih =>
    cases b with
    | true => simp [parseFlags, flagChar, ih]
    | false =>
      have : chZero ≠ chMinus := by decide
      simp [parseFlags, flagChar, ih, this]

theorem parseWidth_text (width : List (Fin 10)) (spec : Spec)
    (stop : ∀ c ∈ rest.head?, isDigit c = false) :
    parseWidth spec (width.map widthChar ++ rest) =
      ({ spec with width := width.foldl (fun w d => wrapInt (w * 10 + (d.val : Int))) spec.width },
        rest) := by
  induction width generalizing spec with
  | nil =>
    cases rest with
    | nil => rfl
    | cons c more => simp [parseWidth, stop c rfl]
  | cons d width ih =>
    have digit : ∀ d : Fin 10, isDigit (widthChar d) = true ∧
      ((widthChar d).toNat : Int) - 48 = (d.val : Int) := by decide
    rw [List.map_cons, List.cons_append, parseWidth, if_pos (digit d).1, ih, (digit d).2,
      List.foldl_cons]

theorem parseMod_text (len : LenMod) (spec : Spec) (rest : List UInt8)
    (stop : k ≠ 0x6C ∧ k ≠ 0x7A) :
    parseMod spec (len.text ++ k :: rest) =
    ({ spec with lmod := spec.lmod + len.text.length }, k :: rest) := by
  cases len with
  | none => simp [LenMod.text, parseMod, stop.1, stop.2]
  | l => simp [LenMod.text, parseMod, stop.1, stop.2]
  | ll => simp [LenMod.text, parseMod, stop.1, stop.2]
  | z => simp [LenMod.text, parseMod, stop.1, stop.2]

/-- A conversion character is no flag, digit or modifier. -/
def IsKey (k : UInt8) : Prop := k ≠ chMinus ∧ isDigit k = false ∧ k ≠ 0x6C ∧ k ≠ 0x7A

instance (k : UInt8) : Decidable (IsKey k) := inferInstanceAs (Decidable (_ ∧ _ ∧ _ ∧ _))

variable (m : Mods)

theorem parseSpec_text (key : IsKey k) (rest : List UInt8) :
    parseSpec (m.text ++ k :: rest) = (m.spec, k :: rest) := by
  obtain ⟨hminus, hdigit, hmod⟩ := key
  have hzero : k ≠ chZero := by
    intro same
    rw [same] at hdigit
    cases hdigit
  -- what follows the flags is a width, a modifier or the conversion character
  have modStop : ∀ c ∈ (m.len.text ++ k :: rest).head?, isDigit c = false ∧ c ≠ chMinus ∧
      c ≠ chZero := by
    intro c hc
    cases hlen : m.len with
    | none =>
      rw [hlen] at hc
      cases hc
      exact ⟨hdigit, hminus, hzero⟩
    | l => rw [hlen] at hc; cases hc; decide
    | ll => rw [hlen] at hc; cases hc; decide
    | z => rw [hlen] at hc; cases hc; decide
  have flagStop : ∀ c ∈ (m.width.map widthChar ++ (m.len.text ++ k :: rest)).head?, c ≠ chMinus ∧
      c ≠ chZero := by
    intro c hc
    cases hwidth : m.width with
    | nil =>
      rw [hwidth] at hc
      exact (modStop c hc).2
    | cons d more =>
      rw [hwidth] at hc
      cases hc
      have nonzero := m.lead d (by rw [hwidth]; rfl)
      have all : ∀ d : Fin 10, d ≠ 0 → widthChar d ≠ chMinus ∧ widthChar d ≠ chZero := by decide
      exact all d nonzero
  have split : m.text ++ k :: rest =
      m.flags.map flagChar ++ (m.width.map widthChar ++ (m.len.text ++ k :: rest)) := by
    simp only [Mods.text, List.append_assoc]
  rw [parseSpec, split, parseFlags_text m.flags {} flagStop]
  simp only
  rw [parseWidth_text m.width _ fun c hc => (modStop c hc).1]
  rw [parseMod_text m.len _ rest hmod]
  simp [Mods.spec]

/-! ## The output, piece by piece -/

variable {abi : Abi} {str : Nat → List UInt8} {w : Nat → Nat} {i : Nat} {pieces rest : List Piece}
    {p : Piece}

/-- `%x`, `%X` and `%o` without a modifier. -/
def PlainHex (m : Mods) (k : NumKind) : Prop := m.len = .none ∧ (k = .x ∨ k = .X ∨ k = .o)

instance (m : Mods) (k : NumKind) : Decidable (PlainHex m k) := inferInstanceAs (Decidable (_ ∧ _))

/-- What the source reads for a number: plain `%x`, `%X` and `%o` read a `u64` and keep its low
half. -/
def codeArg (abi : Abi) (m : Mods) (k : NumKind) (ap : Va) : Nat × Va :=
  if PlainHex m k then (u32 (ap.quad abi).1, (ap.quad abi).2) else numArg abi m.len ap

/-- The slot after the ones a piece reads from `i` on, and the characters it puts. -/
def Piece.run (abi : Abi) (str : Nat → List UInt8) (w : Nat → Nat) (i : Nat) :
    Piece → Nat × List UInt8
  | .text c _ => (i, [c])
  | .percent _ => (i, [chPercent])
  | .chr m _ => (i + 1, chrText m (u32 (w i)))
  | .str m _ => if w i ≠ 0 then (i + 2, strText m (str (w (i + 1)))) else (i + 1,
      strText m nullText)
  | .num m k _ => ((codeArg abi m k ⟨w, i⟩).2.pos, numText abi m k (codeArg abi m k ⟨w, i⟩).1)
  | .ptr _ _ => (i + 1, emitPtr snoc abi [] (w i))

def outFrom (abi : Abi) (str : Nat → List UInt8) (w : Nat → Nat) : Nat → List Piece → List UInt8
  | _, [] => []
  | i, p :: rest => (p.run abi str w i).2 ++ outFrom abi str w (p.run abi str w i).1 rest

theorem lmod_cases : m.spec.lmod = match m.len with | .none => 0 | .l | .z => 1 | .ll => 2 := by
  cases h : m.len with
  | none => simp [Mods.spec, h, LenMod.text]
  | l => simp [Mods.spec, h, LenMod.text]
  | ll => simp [Mods.spec, h, LenMod.text]
  | z => simp [Mods.spec, h, LenMod.text]

theorem convert_num (k : NumKind) (w : Nat → Nat) (i : Nat) :
    convert snoc abi str m.spec k.char ⟨w, i⟩ [] =
      (⟨w, (codeArg abi m k ⟨w, i⟩).2.pos⟩, numText abi m k (codeArg abi m k ⟨w, i⟩).1) := by
  have mods := lmod_cases m
  cases hlen : m.len with
  | none =>
    cases k <;> cases abi <;>
      simp [convert, NumKind.char, mods, codeArg, PlainHex, hlen, numArg, numText, signedArg,
        Va.int, Va.quad]
  | l =>
    cases k <;> cases abi <;>
      simp [convert, NumKind.char, mods, codeArg, PlainHex, hlen, numArg, numText,
        signedArg, Va.long]
  | ll =>
    cases k <;> cases abi <;>
      simp [convert, NumKind.char, mods, codeArg, PlainHex, hlen, numArg, numText,
        signedArg, Va.quad]
  | z =>
    cases k <;> cases abi <;>
      simp [convert, NumKind.char, mods, codeArg, PlainHex, hlen, numArg, numText,
        signedArg, Va.long]

theorem format_conversion (key : IsKey k) {pos : Nat} {chars : List UInt8}
    (converted : convert snoc abi str m.spec k ⟨w, i⟩ [] = (⟨w, pos⟩, chars)) :
    format snoc abi str (fuel + 1) (chPercent :: (m.text ++ [k]) ++ tail) ⟨w, i⟩ out =
      format snoc abi str fuel tail ⟨w, pos⟩ (out ++ chars) := by
  have resp : Respects snoc snoc (out ++ ·) := fun s c => by simp only [snoc, List.append_assoc]
  have moved := map_convert resp abi str m.spec k ⟨w, i⟩ []
  rw [converted, List.append_nil] at moved
  have parsed : parseSpec (m.text ++ [k] ++ tail) = (m.spec, k :: tail) := by
    rw [List.append_assoc]
    exact parseSpec_text m key tail
  rw [List.cons_append, format, if_neg (by simp), parsed]
  simp only [moved]

theorem format_piece (p : Piece) : format snoc abi str (fuel + 1) (p.spell ++ tail) ⟨w, i⟩ out =
      format snoc abi str fuel tail ⟨w, (p.run abi str w i).1⟩ (out ++ (p.run abi str w i).2) := by
  cases p with
  | text c literal => simp only [Piece.spell, List.singleton_append, format, if_pos literal.1,
      Piece.run]
  | percent m => exact format_conversion m (by decide) rfl
  | chr m v => exact format_conversion m (by decide) rfl
  | str m s =>
    apply format_conversion m (by decide)
    have branch : convert snoc abi str m.spec 0x73 ⟨w, i⟩ [] =
        if w i ≠ 0 then (⟨w, i + 2⟩, strText m (str (w (i + 1)))) else (⟨w, i + 1⟩,
          strText m nullText) := rfl
    rw [branch, Piece.run]
    split
    · rfl
    · rfl
  | num m k v =>
    have key : ∀ k : NumKind, IsKey k.char := by
      intro k
      cases k <;> decide
    exact format_conversion m (key k) (convert_num m k w i)
  | ptr m v => exact format_conversion m (by decide) rfl

theorem format_pieces (enough : pieces.length < fuel) (out : List UInt8) :
    format snoc abi str fuel (spell pieces) ⟨w, i⟩ out = some
    (out ++ outFrom abi str w i pieces) := by
  induction pieces generalizing fuel i out with
  | nil =>
    obtain ⟨fuel, rfl⟩ := Nat.exists_eq_succ_of_ne_zero (Nat.ne_of_gt enough)
    simp [spell, format, outFrom]
  | cons p rest ih =>
    obtain ⟨fuel, rfl⟩ := Nat.exists_eq_succ_of_ne_zero (Nat.ne_of_gt (Nat.zero_lt_of_lt enough))
    rw [List.length_cons] at enough
    rw [spell, List.flatMap_cons, format_piece, outFrom, ← List.append_assoc]
    exact ih (by omega) _

theorem emitted_pieces (pieces : List Piece) :
    emitted abi str (spell pieces) ⟨w, 0⟩ = some (outFrom abi str w 0 pieces) := by
  have nonempty : ∀ p : Piece, 1 ≤ p.spell.length := by
    intro p
    cases p <;> simp [Piece.spell]
  have long : pieces.length ≤ (spell pieces).length := by
    induction pieces with
    | nil => exact Nat.zero_le _
    | cons p rest ih =>
      have := nonempty p
      rw [spell, List.flatMap_cons, List.length_append, List.length_cons]
      rw [spell] at ih
      omega
  exact format_pieces (Nat.lt_succ_of_le long) []

end Obsidian.Klib.Printk
