import Obsidian.Klib.PrintkPairs
import Mathlib

/-!
# Texts of numbers

What a number looks like is said without the code: the numeral of its magnitude, a sign, and
one kind of padding. `emit_num` puts the sign into the digit buffer and then deals with it
once more in two of its branches, so that a negative number has two signs when it is
padded with zeros, and one space too few when it is left-justified.
-/
namespace Obsidian.Klib.Printk
open Lib Lib.Bytes

/-! ## What a number looks like -/

section number

variable (val base : Nat) (upper isSigned : Bool)

def valueOf : Int := if isNegative val isSigned then (val : Int) - 18446744073709551616 else val

/-- The digits of a number, without leading zeros. -/
def numeral (v : Nat) : List UInt8 :=
  ((if v = 0 then [0] else Nat.digits base v).map (digitChar upper)).reverse

/-- The number without padding. -/
def natural : List UInt8 := sign val isSigned ++ numeral base upper (magnitude val isSigned)

end number

/-- A text without the spaces around it. -/
def strip (out : List UInt8) : List UInt8 :=
  ((out.dropWhile (· = chSpace)).reverse.dropWhile (· = chSpace)).reverse

def parseMagnitude (base : Nat) (text : List UInt8) : Option Nat :=
  if text ≠ [] ∧ ∀ c ∈ text, (digitVal c).any (· < base) =
    true then some (text.foldl (readDigit base) 0) else none

/-- An optional sign and digits. -/
def parseNumber (base : Nat) (out : List UInt8) : Option Int :=
  match strip out with
  | [] => none
  | c :: rest =>
    if c = chMinus then (parseMagnitude base rest).map fun n : Nat => -(n : Int)
    else (parseMagnitude base (c :: rest)).map Int.ofNat

/-- One kind of padding around the sign and the digits, up to the width, and the value reads back.
-/
structure WellFormed (val base : Nat) (upper isSigned : Bool) (width : Int) (out : List UInt8) :
    Prop where
  length : (out.length : Int) = max width (natural val base upper isSigned).length
  shape : ∃ left zeros right, (zeros = 0 ∧ right = 0 ∨ left = 0 ∧ right = 0 ∨ left = 0 ∧
    zeros = 0) ∧
    out = List.replicate left chSpace ++ sign val isSigned ++ List.replicate zeros chZero ++
      numeral base upper (magnitude val isSigned) ++ List.replicate right chSpace
  value : parseNumber base out = some (valueOf val isSigned)

/-! ## What is put -/

theorem digitsLoop_eq {base : Nat} (low : 2 ≤ base) {fuel v : Nat} (enough : v < base ^ fuel)
    (some_fuel : 0 < fuel) :
    digitsLoop base fuel v = if v = 0 then [0] else Nat.digits base v := by
  induction fuel generalizing v with
  | zero => exact absurd some_fuel (Nat.lt_irrefl 0)
  | succ fuel ih =>
    rw [digitsLoop]
    by_cases zero : v = 0
    · simp [zero]
    rw [if_neg zero, Nat.digits_def' low (Nat.pos_of_ne_zero zero)]
    by_cases last : v / base = 0
    · rw [if_pos last, last, Nat.digits_zero]
    · have fewer : v / base < base ^ fuel := by
        rw [Nat.div_lt_iff_lt_mul (by omega)]
        exact enough
      have more : 0 < fuel := by
        by_contra none
        rw [show fuel = 0 by omega] at fewer
        exact last (Nat.lt_one_iff.mp fewer)
      rw [if_neg last, ih fewer more, if_neg last]

theorem magnitude_lt {val : Nat} (isSigned : Bool) (small : val < 18446744073709551616) :
    magnitude val isSigned < 18446744073709551616 := by
  unfold magnitude
  split
  next neg =>
    simp only [isNegative, Bool.and_eq_true, decide_eq_true_eq] at neg
    omega
  · exact small

theorem numberText_eq {val base : Nat} (upper isSigned : Bool) (low : 2 ≤ base)
    (small : val < 18446744073709551616) :
    numberText val base upper isSigned = natural val base upper isSigned := by
  have enough := lt_base_pow low (magnitude_lt isSigned small)
  rw [numberText, digitsLoop_eq low enough (by decide), natural, numeral]

/-! ## Reading it back -/

theorem dropWhile_spaces (n : Nat) {c : UInt8} (rest : List UInt8) (plain : c ≠ chSpace) :
    (List.replicate n chSpace ++ c :: rest).dropWhile (· = chSpace) = c :: rest := by
  rw [List.dropWhile_append_of_pos, List.dropWhile_cons_of_neg (by simpa using plain)]
  intro d member
  exact decide_eq_true (List.eq_of_mem_replicate member)

theorem strip_spaces (left right : Nat) {text : List UInt8} (plain : ∀ c ∈ text, c ≠ chSpace)
    (filled : text ≠ []) :
    strip (List.replicate left chSpace ++ text ++ List.replicate right chSpace) = text := by
  obtain ⟨c, rest, front⟩ := List.exists_cons_of_ne_nil filled
  obtain ⟨d, init, back⟩ := List.exists_cons_of_ne_nil (List.reverse_ne_nil_iff.mpr filled)
  have first : c ≠ chSpace := plain c (by rw [front]; exact List.mem_cons_self)
  have last : d ≠ chSpace := plain d (by rw [← List.mem_reverse, back]; exact List.mem_cons_self)
  have skipped : (List.replicate left chSpace ++ text ++ List.replicate right chSpace).dropWhile
    (· = chSpace) =
      text ++ List.replicate right chSpace := by
    rw [List.append_assoc, front, List.cons_append, dropWhile_spaces left _ first]
  rw [strip, skipped, List.reverse_append, List.reverse_replicate, back,
    dropWhile_spaces right init last, ← back,
    List.reverse_reverse]

section parse

variable {base : Nat} (upper : Bool)

theorem numeral_digits (low : 2 ≤ base) (v : Nat) :
    ∀ c ∈ numeral base upper v, ∃ d, d < base ∧ c = digitChar upper d := by
  intro c member
  rw [numeral, List.mem_reverse, List.mem_map] at member
  obtain ⟨d, digit, rfl⟩ := member
  refine ⟨d, ?_, rfl⟩
  split at digit
  · rw [List.mem_singleton.mp digit]
    omega
  · exact Nat.digits_lt_base low digit

theorem numeral_filled (v : Nat) : numeral base upper v ≠ [] := by
  rw [numeral, ne_eq, List.reverse_eq_nil_iff, List.map_eq_nil_iff]
  split
  · exact List.cons_ne_nil _ _
  next nonzero => exact Nat.digits_ne_nil_iff_ne_zero.mpr nonzero

theorem digitChar_plain {d : Nat} (hd : d < 16) :
    digitChar upper d ≠ chSpace ∧ digitChar upper d ≠ chMinus := by
  have all : ∀ (upper : Bool) (d : Fin 16), digitChar upper d.val ≠ chSpace ∧
    digitChar upper d.val ≠ chMinus := by decide
  exact all upper ⟨d, hd⟩

theorem zeros_numeral_plain (low : 2 ≤ base) (high : base ≤ 16) (zeros v : Nat) :
    ∀ c ∈ List.replicate zeros chZero ++ numeral base upper v, c ≠ chSpace ∧ c ≠ chMinus := by
  intro c member
  rcases List.mem_append.mp member with zero | digit
  · rw [List.eq_of_mem_replicate zero]
    decide
  · obtain ⟨d, hd, rfl⟩ := numeral_digits upper low v c digit
    exact digitChar_plain upper (by omega)

theorem parseMagnitude_zeros (low : 2 ≤ base) (high : base ≤ 16) (zeros : Nat) {v : Nat}
    (small : v < 18446744073709551616) :
    parseMagnitude base (List.replicate zeros chZero ++ numeral base upper v) = some v := by
  have read : (numeral base upper v).foldl (readDigit base) 0 = v := by
    have enough := lt_base_pow low small
    have digits := read_digits upper low high enough
    rwa [digitsLoop_eq low enough (by decide)] at digits
  have digits : ∀ c ∈ List.replicate zeros chZero ++ numeral base upper v,
      (digitVal c).any (· < base) = true := by
    intro c member
    rcases List.mem_append.mp member with zero | digit
    · rw [List.eq_of_mem_replicate zero, show digitVal chZero = some 0 from rfl]
      exact decide_eq_true (by omega)
    · obtain ⟨d, hd, rfl⟩ := numeral_digits upper low v c digit
      rw [digitVal_digitChar upper (by omega)]
      exact decide_eq_true hd
  have filled : List.replicate zeros chZero ++ numeral base upper v ≠ [] := by
    simp [numeral_filled upper v]
  rw [parseMagnitude, if_pos ⟨filled, digits⟩, List.foldl_append, read_zeros, read]

theorem parseNumber_padded (low : 2 ≤ base) (high : base ≤ 16) {val : Nat} (isSigned : Bool)
    (small : val < 18446744073709551616) (left zeros right : Nat) :
    parseNumber base
    (List.replicate left chSpace ++ sign val isSigned ++ List.replicate zeros chZero ++
      numeral base upper (magnitude val isSigned) ++ List.replicate right chSpace) =
      some (valueOf val isSigned) := by
  have digits := parseMagnitude_zeros upper low high zeros (magnitude_lt isSigned small)
  have plain := zeros_numeral_plain upper low high zeros (magnitude val isSigned)
  have filled : List.replicate zeros chZero ++ numeral base upper (magnitude val isSigned) ≠
      [] := by
    simp [numeral_filled upper (magnitude val isSigned)]
  have whole : List.replicate left chSpace ++ sign val isSigned ++ List.replicate zeros chZero ++
      numeral base upper (magnitude val isSigned) ++ List.replicate right chSpace =
      List.replicate left chSpace ++ (sign val isSigned ++ (List.replicate zeros chZero ++
        numeral base upper (magnitude val isSigned))) ++ List.replicate right chSpace := by
    simp only [List.append_assoc]
  generalize List.replicate zeros chZero ++ numeral base upper (magnitude val isSigned) = text at *
  rw [whole, parseNumber]
  cases hneg : isNegative val isSigned with
  | true =>
    have spaces : ∀ c ∈ [chMinus] ++ text, c ≠ chSpace := by
      intro c member
      rcases List.mem_append.mp member with minus | digit
      · rw [List.mem_singleton.mp minus]
        decide
      · exact (plain c digit).1
    have value : -((magnitude val isSigned : Nat) : Int) = valueOf val isSigned := by
      simp only [magnitude, valueOf, hneg, if_true]
      omega
    rw [sign, hneg, if_pos rfl, strip_spaces left right spaces (by simp)]
    simp only [List.singleton_append, if_true, digits, Option.map_some, value]
  | false =>
    obtain ⟨c, rest, rfl⟩ := List.exists_cons_of_ne_nil filled
    have value : Int.ofNat (magnitude val isSigned) = valueOf val isSigned := by
      simp only [magnitude, valueOf, hneg, Bool.false_eq_true, if_false, Int.ofNat_eq_natCast]
    rw [sign, hneg, if_neg (by decide), List.nil_append, strip_spaces left right (fun d h =>
      (plain d h).1) (by simp)]
    simp only [if_neg (plain c List.mem_cons_self).2, digits, Option.map_some, value]

end parse

/-! ## Which numbers are well formed -/

theorem emitNum_eq_foldl {σ : Type} (putc : σ → UInt8 → σ) (ob : σ) (val base : Nat)
    (upper isSigned : Bool) (width : Int) (zeroPad ljust : Bool) :
    emitNum putc ob val base upper isSigned width zeroPad ljust =
      (emitNum snoc [] val base upper isSigned width zeroPad ljust).foldl putc ob := by
  have resp : Respects snoc putc fun out => out.foldl putc ob := by
    intro out c
    simp only [snoc, List.foldl_append, List.foldl_cons, List.foldl_nil]
  exact (map_emitNum resp [] val base upper isSigned width zeroPad ljust).symm

section formed

variable {val base : Nat} {upper isSigned : Bool} {width : Int} {out : List UInt8}

theorem WellFormed.of_shape (low : 2 ≤ base) (high : base ≤ 16) (small : val < 18446744073709551616)
    (length : (out.length : Int) = max width (natural val base upper isSigned).length)
    (left zeros right : Nat)
    (one : zeros = 0 ∧ right = 0 ∨ left = 0 ∧ right = 0 ∨ left = 0 ∧ zeros = 0)
    (text : out = List.replicate left chSpace ++ sign val isSigned ++ List.replicate zeros chZero ++
      numeral base upper (magnitude val isSigned) ++ List.replicate right chSpace) :
    WellFormed val base upper isSigned width out where
  length := length
  shape := ⟨left, zeros, right, one, text⟩
  value := by
    rw [text]
    exact parseNumber_padded upper low high isSigned small left zeros right

theorem count_minus_natural (val : Nat) (upper isSigned : Bool) (low : 2 ≤ base)
    (high : base ≤ 16) :
    (natural val base upper isSigned).count chMinus = (sign val isSigned).length := by
  have none : (numeral base upper (magnitude val isSigned)).count chMinus = 0 := by
    rw [List.count_eq_zero]
    intro member
    exact (zeros_numeral_plain upper low high 0 _ chMinus (member)).2 rfl
  rw [natural, List.count_append, none, sign]
  split
  · rfl
  · rfl

theorem WellFormed.count_minus (formed : WellFormed val base upper isSigned width out)
    (low : 2 ≤ base) (high : base ≤ 16) :
    out.count chMinus = (sign val isSigned).length := by
  obtain ⟨left, zeros, right, -, text⟩ := formed.shape
  have signed := count_minus_natural val upper isSigned low high
  have zero : (chZero == chMinus) = false := by decide
  have space : (chSpace == chMinus) = false := by decide
  rw [natural, List.count_append] at signed
  rw [text]
  simp only [List.count_append, List.count_replicate, zero, space, Bool.false_eq_true, if_false]
  omega

theorem sign_of_positive (positive : isNegative val isSigned = false) : sign val isSigned = [] := by
  rw [sign, positive, if_neg (by decide)]

theorem sign_of_negative (negative : isNegative val isSigned = true) :
    sign val isSigned = [chMinus] := by
  rw [sign, negative, if_pos rfl]

variable (low : 2 ≤ base) (high : base ≤ 16) (small : val < 18446744073709551616) {pad : Nat}
  (padded : pad = (width - (natural val base upper isSigned).length).toNat)
include low high small padded

theorem space_padded :
    WellFormed val base upper isSigned width
    (List.replicate pad chSpace ++ natural val base upper isSigned) := by
  refine .of_shape low high small ?_ pad 0 0 (by simp) ?_
  · rw [List.length_append, List.length_replicate]
    omega
  · simp only [natural, List.replicate_zero, List.append_nil, List.append_assoc]

theorem zero_padded_iff : WellFormed val base upper isSigned width (sign val isSigned ++
      List.replicate (pad - (sign val isSigned).length) chZero ++ natural val base upper isSigned) ↔
    isNegative val isSigned = false := by
  constructor
  · intro formed
    by_contra positive
    have negative := Bool.eq_true_of_not_eq_false positive
    -- the sign is put twice, before the zeros and out of the digit buffer
    have count := formed.count_minus low high
    rw [List.count_append, count_minus_natural val upper isSigned low high,
      sign_of_negative negative] at count
    simp at count
  · intro positive
    rw [sign_of_positive positive, List.length_nil, Nat.sub_zero, List.nil_append]
    refine .of_shape low high small ?_ 0 pad 0 (by simp) ?_
    · rw [List.length_append, List.length_replicate]
      omega
    · simp only [natural, sign_of_positive positive, List.replicate_zero, List.nil_append,
        List.append_nil]

theorem left_justified_iff :
    WellFormed val base upper isSigned width (natural val base upper isSigned ++
      List.replicate (pad - (sign val isSigned).length) chSpace) ↔
    isNegative val isSigned = false ∨ width ≤ (natural val base upper isSigned).length := by
  constructor
  · intro formed
    refine or_iff_not_imp_left.mpr fun positive => ?_
    have length := formed.length
    rw [List.length_append, List.length_replicate,
      sign_of_negative (Bool.eq_true_of_not_eq_false positive),
      List.length_singleton] at length
    omega
  · intro holds
    have whole : pad - (sign val isSigned).length = pad := by
      rcases holds with positive | fits
      · rw [sign_of_positive positive, List.length_nil, Nat.sub_zero]
      · omega
    rw [whole]
    refine .of_shape low high small ?_ 0 0 pad (by simp) ?_
    · rw [List.length_append, List.length_replicate]
      omega
    · simp only [natural, List.replicate_zero, List.nil_append, List.append_nil]

end formed

/-- The text of a number is well formed exactly when the number is not negative, or is padded
with spaces on the left, or is left-justified and not padded at all. -/
theorem emit_num_well_formed_iff (val base : Nat) (upper isSigned : Bool) (width : Int)
    (zeroPad ljust : Bool) (small : val < 18446744073709551616)
    (bases : base = 8 ∨ base = 10 ∨ base = 16) :
    (∀ (σ : Type) (putc : σ → UInt8 → σ) (ob : σ),
      emitNum putc ob val base upper isSigned width zeroPad ljust =
      (emitNum snoc [] val base upper isSigned width zeroPad ljust).foldl putc ob) ∧
    (WellFormed val base upper isSigned width
      (emitNum snoc [] val base upper isSigned width zeroPad ljust) ↔
      isNegative val isSigned = false ∨ ljust = false ∧ zeroPad = false ∨
        ljust = true ∧ width ≤ (natural val base upper isSigned).length) := by
  have low : 2 ≤ base := by omega
  have high : base ≤ 16 := by omega
  refine ⟨fun σ putc ob => emitNum_eq_foldl putc ob val base upper isSigned width zeroPad ljust, ?_⟩
  rw [emitNum_chars, numberText_eq upper isSigned low small]
  cases ljust with
  | true =>
    rw [if_pos rfl, left_justified_iff low high small rfl]
    simp
  | false =>
    rw [if_neg (by decide)]
    cases zeroPad with
    | true =>
      rw [if_pos rfl, zero_padded_iff low high small rfl]
      simp
    | false =>
      rw [if_neg (by decide)]
      exact iff_of_true (space_padded low high small rfl) (by simp)

/-- `%5d` of −42 is `  -42`. -/
theorem emit_num_well_formed_spaces :
    WellFormed 18446744073709551574 10 false true 5
      (emitNum snoc [] 18446744073709551574 10 false true 5 false false) :=
  (emit_num_well_formed_iff 18446744073709551574 10 false true 5 false false (by decide)
    (by decide)).2.mpr
    (Or.inr (Or.inl ⟨rfl, rfl⟩))

/-- `%05d` of −42 is `-0-42`, and `%-5d` of −42 is `-42 `, four characters long. -/
theorem negative_padded_ill_formed :
    emitNum snoc [] 18446744073709551574 10 false true 5 true false =
    [0x2D, 0x30, 0x2D, 0x34, 0x32] ∧
    ¬ WellFormed 18446744073709551574 10 false true 5
      (emitNum snoc [] 18446744073709551574 10 false true 5 true false) ∧
    emitNum snoc [] 18446744073709551574 10 false true 5 false true = [0x2D, 0x34, 0x32, 0x20] ∧
    ¬ WellFormed 18446744073709551574 10 false true 5
      (emitNum snoc [] 18446744073709551574 10 false true 5 false true) := by
  refine ⟨by decide, fun formed => ?_, by decide, fun formed => ?_⟩
  · exact absurd formed.value (by decide)
  · exact absurd formed.length (by decide)

end Obsidian.Klib.Printk
