import Obsidian.Klib.Printk
import Mathlib.Data.List.Induction

/-!
# Truncation

The helpers and the loop treat their sink as a black box: a map between two
sinks that respects `putc` carries one run to the other. Applied to the buffer,
`kvsnprintf` is the fold of `ob_putc` over the characters it puts, and what a
buffer of any size ends with can be read off that list.
-/
namespace Obsidian.Klib.Printk
open Lib Lib.Bytes

/-! ## Maps between sinks -/

section Morphism
variable {σ τ : Type} {putc : σ → UInt8 → σ} {putc' : τ → UInt8 → τ} {h : σ → τ}

/-- Putting a character and mapping the sink may be done in either order. -/
def Respects (putc : σ → UInt8 → σ) (putc' : τ → UInt8 → τ) (h : σ → τ) : Prop :=
  ∀ s c, h (putc s c) = putc' (h s) c

section
variable (resp : Respects putc putc' h)
include resp

variable (ob : σ)

theorem Respects.put (c : UInt8) : h (putc ob c) = putc' (h ob) c := resp ob c

theorem map_putN (c : UInt8) (n : Nat) : h (putN putc ob c n) = putN putc' (h ob) c n := by
  induction n generalizing ob with
  | zero => rfl
  | succ n ih => rw [putN, ih, resp, putN]

theorem map_text (text : List UInt8) : h (text.foldl putc ob) = text.foldl putc' (h ob) := by
  induction text generalizing ob with
  | nil => rfl
  | cons c rest ih => rw [List.foldl_cons, ih, resp, List.foldl_cons]

theorem map_emitStr (s : List UInt8) (width : Int) (ljust : Bool) :
    h (emitStr putc ob s width ljust) = emitStr putc' (h ob) s width ljust := by
  cases ljust with
  | true => simp only [emitStr, if_true, map_putN resp, map_text resp]
  | false => simp only [emitStr, Bool.false_eq_true, if_false, map_text resp, map_putN resp]

theorem map_emitNum (val base : Nat) (upper isSigned : Bool) (width : Int) (zeroPad ljust : Bool) :
    h (emitNum putc ob val base upper isSigned width zeroPad ljust) =
      emitNum putc' (h ob) val base upper isSigned width zeroPad ljust := by
  unfold emitNum
  generalize (isSigned && decide (9223372036854775808 ≤ val)) = neg
  cases ljust with
  | true => simp only [Bool.not_true, Bool.false_and, Bool.false_eq_true, if_false, if_true,
      map_putN resp, map_text resp]
  | false =>
    cases zeroPad with
    | false =>
      simp only [Bool.not_false, Bool.and_false, Bool.false_and, Bool.and_self, Bool.false_eq_true,
        if_false, if_true,
        map_putN resp, map_text resp]
    | true =>
      cases neg with
      | false =>
        simp only [Bool.not_false, Bool.not_true, Bool.and_false, Bool.and_self, Bool.false_eq_true,
          if_false,
          if_true, map_putN resp, map_text resp]
      | true =>
        simp only [Bool.not_false, Bool.and_self, Bool.not_true, Bool.and_false, Bool.false_eq_true,
          if_false,
          if_true, map_putN resp, map_text resp, resp.put]

theorem map_emitPtr (abi : Abi) (ob : σ) (v : Nat) :
    h (emitPtr putc abi ob v) = emitPtr putc' abi (h ob) v := by
  simp only [emitPtr, map_emitNum resp, resp.put]

theorem map_convert (abi : Abi) (str : Nat → List UInt8) (spec : Spec) (k : UInt8) (ap : Va)
    (ob : σ) :
    convert putc' abi str spec k ap (h ob) =
      ((convert putc abi str spec k ap ob).1, h (convert putc abi str spec k ap ob).2) := by
  unfold convert
  split
  all_goals simp only [map_emitStr resp, map_emitNum resp, map_emitPtr resp, resp.put]
  split
  · simp only [map_emitStr resp]
  · simp only [map_emitStr resp]

theorem map_format (abi : Abi) (str : Nat → List UInt8) (fuel : Nat) (fmt : List UInt8) (ap : Va)
    (ob : σ) :
    format putc' abi str fuel fmt ap (h ob) = (format putc abi str fuel fmt ap ob).map h := by
  induction fuel generalizing fmt ap ob with
  | zero => rfl
  | succ fuel ih =>
    cases fmt with
    | nil => rfl
    | cons c rest =>
      simp only [format]
      by_cases text : c ≠ chPercent
      · rw [if_pos text, if_pos text, ← resp, ih]
      · rw [if_neg text, if_neg text]
        split
        · rfl
        · rw [map_convert resp, ih]

end

end Morphism

variable {σ : Type} {fmt : List UInt8}

/-- The loop over any sink is the fold of its `putc` over the characters emitted. -/
theorem format_eq_foldl (putc : σ → UInt8 → σ) (abi : Abi) (str : Nat → List UInt8)
    (fmt : List UInt8) (ap : Va) (ob : σ) :
    format putc abi str (fmt.length + 1) fmt ap ob = (emitted abi str fmt ap).map fun out =>
    out.foldl putc ob := by
  have resp : Respects (fun (out : List UInt8) c => out ++ [c]) putc fun out =>
      out.foldl putc ob := by
    intro out c
    simp only [List.foldl_append, List.foldl_cons, List.foldl_nil]
  exact map_format resp abi str (fmt.length + 1) fmt ap []

/-! ## Complete formats -/

/-- The format does not end inside a conversion. -/
def complete : Nat → List UInt8 → Bool
  | 0, fmt => fmt.isEmpty
  | _ + 1, [] => true
  | fuel + 1, c :: rest =>
    if c ≠ chPercent then complete fuel rest
    else
      match parseSpec rest with
      | (_, []) => false
      | (_, _ :: rest) => complete fuel rest

def Complete (fmt : List UInt8) : Prop := complete fmt.length fmt = true

instance (fmt : List UInt8) : Decidable (Complete fmt) := inferInstanceAs (Decidable (_ = true))

theorem format_of_complete (putc : σ → UInt8 → σ) (abi : Abi) (str : Nat → List UInt8) {fuel : Nat}
    (whole : complete fuel fmt = true) (ap : Va) (ob : σ) :
    ∃ ob', format putc abi str (fuel + 1) fmt ap ob = some ob' := by
  induction fuel generalizing fmt ap ob with
  | zero =>
    cases fmt with
    | nil => exact ⟨ob, rfl⟩
    | cons c rest => cases whole
  | succ fuel ih =>
    cases fmt with
    | nil => exact ⟨ob, rfl⟩
    | cons c rest =>
      simp only [complete] at whole
      rw [format]
      by_cases text : c ≠ chPercent
      · rw [if_pos text] at whole ⊢
        exact ih whole ap _
      · rw [if_neg text] at whole ⊢
        generalize parseSpec rest = parsed at whole ⊢
        obtain ⟨spec, after⟩ := parsed
        cases after with
        | nil => cases whole
        | cons k more => exact ih whole _ _

theorem emitted_of_complete (abi : Abi) (str : Nat → List UInt8) (whole : Complete fmt) (ap : Va) :
    ∃ out, emitted abi str fmt ap = some out :=
  format_of_complete _ abi str whole ap []

/-! ## What the buffer holds -/

/-- After `out` was put into a buffer of `size` octets that held `b`. -/
structure Holds (size : Nat) (b : Bytes) (out : List UInt8) (ob : Outbuf) (b' : Bytes) : Prop where
  p : ob.p = some b'
  room : ob.size = size
  len : ob.len = out.length
  stored : ∀ i, i < out.length → i + 1 < size → out[i]? = some (b' i)
  kept : ∀ i, (out.length ≤ i ∨ size ≤ i) → b' i = b i

theorem obPutc_holds {size : Nat} {b b' : Bytes} {out : List UInt8} {ob : Outbuf}
    (holds : Holds size b out ob b') (small : out.length + 1 < 4294967296) (c : UInt8) :
    ∃ b'', Holds size b (out ++ [c]) (obPutc ob c) b'' := by
  have next : u32 (out.length + 1) = out.length + 1 := u32_of_lt small
  have hlen : u32 (ob.len + 1) = out.length + 1 := by rw [holds.len, next]
  have count : (out ++ [c]).length = out.length + 1 := by simp
  -- the characters before the last are the old ones
  have front : ∀ i, i < out.length → (out ++ [c])[i]? = out[i]? :=
    fun i hi => List.getElem?_append_left hi
  have last : (out ++ [c])[out.length]? = some c := by simp
  by_cases fits : out.length + 1 < size
  · refine ⟨Function.update b' out.length c, ?_, holds.room, hlen.trans count.symm, fun i hi fit =>
      ?_, fun i hi => ?_⟩
    · simp only [obPutc, holds.p, Option.map_some, holds.room, holds.len, next, if_pos fits]
    · by_cases end' : i = out.length
      · rw [end', Function.update_self, last]
      · rw [Function.update_of_ne end', front i (by omega)]
        exact holds.stored i (by omega) fit
    · rw [Function.update_of_ne (by omega)]
      exact holds.kept i (by omega)
  · by_cases edge : out.length < size
    · refine ⟨Function.update b' out.length 0, ?_, holds.room, hlen.trans count.symm,
        fun i hi fit => ?_,
        fun i hi => ?_⟩
      · simp only [obPutc, holds.p, Option.map_some, holds.room, holds.len, next, if_neg fits,
          if_pos edge]
      · rw [Function.update_of_ne (by omega), front i (by omega)]
        exact holds.stored i (by omega) fit
      · rw [Function.update_of_ne (by omega)]
        exact holds.kept i (by omega)
    · refine ⟨b', ?_, holds.room, hlen.trans count.symm, fun i hi fit => ?_, fun i hi => ?_⟩
      · simp only [obPutc, holds.p, Option.map_some, holds.room, holds.len, next, if_neg fits,
          if_neg edge]
      · rw [front i (by omega)]
        exact holds.stored i (by omega) fit
      · exact holds.kept i (by omega)

theorem puts_holds (size : Nat) (b : Bytes) (out : List UInt8) (small : out.length < 4294967296) :
    ∃ b', Holds size b out (out.foldl obPutc ⟨some b, size, 0⟩) b' := by
  induction out using List.reverseRecOn with
  | nil => exact ⟨b, rfl, rfl, rfl, fun i hi => absurd hi (Nat.not_lt_zero i), fun _ _ => rfl⟩
  | append_singleton out c ih =>
    rw [List.length_append] at small
    obtain ⟨b', holds⟩ := ih (by omega)
    rw [List.foldl_append, List.foldl_cons]
    exact obPutc_holds holds small c

theorem puts_null (size : Nat) (out : List UInt8) (small : out.length < 4294967296) :
    out.foldl obPutc ⟨none, size, 0⟩ = ⟨none, size, out.length⟩ := by
  induction out using List.reverseRecOn with
  | nil => rfl
  | append_singleton out c ih =>
    rw [List.length_append, List.length_singleton] at small ⊢
    rw [List.foldl_append, ih (by omega), List.foldl_cons, List.foldl_nil]
    simp only [obPutc, Option.map_none, u32_of_lt small]

/-- For every complete format and all arguments there is one list of characters such that a
buffer of any size ends with as many of them as fit and a terminator, nothing behind the
terminator is written, and every call returns the length of that list. -/
theorem kvsnprintf_truncates (abi : Abi) (str : Nat → List UInt8) (fmt : List UInt8) (ap : Va)
    (whole : Complete fmt) :
    ∃ out, emitted abi str fmt ap = some out ∧
    (out.length < 2147483648 → ∀ size, 1 ≤ size → size < 4294967296 →
      (∀ b : Bytes, ∃ b', kvsnprintf abi str (some b) size fmt ap =
        some ((out.length : Int), some b') ∧
        toList b' 0 (min out.length (size - 1)) = out.take (size - 1) ∧
        b' (min out.length (size - 1)) = 0 ∧
        ∀ i, min out.length (size - 1) < i → b' i = b i) ∧
      kvsnprintf abi str none size fmt ap = some ((out.length : Int), none)) := by
  obtain ⟨out, put⟩ := emitted_of_complete abi str whole ap
  refine ⟨out, put, fun small size hpos hsize => ⟨fun b => ?_, ?_⟩⟩
  · obtain ⟨b', holds⟩ := puts_holds size b out (by omega)
    have stop : (if out.length < size then out.length else size - 1) =
        min out.length (size - 1) := by
      split <;> omega
    have result : toInt out.length = (out.length : Int) := if_pos small
    refine ⟨Function.update b' (min out.length (size - 1)) 0, ?_, ?_, Function.update_self ..,
      fun i hi => ?_⟩
    · simp only [kvsnprintf, format_eq_foldl, put, Option.map_some, holds.p, holds.len,
        result, stop,
        if_pos (show size ≠ 0 by omega)]
    · have whole' : out.take (min out.length (size - 1)) = out.take (size - 1) := by
        rw [Nat.min_comm, ← List.take_eq_take_min]
      rw [← whole']
      apply toList_eq_take
      intro k hk
      rw [Nat.zero_add, Function.update_of_ne (by omega)]
      exact holds.stored k (by omega) (by omega)
    · rw [Function.update_of_ne (by omega)]
      exact holds.kept i (by omega)
  · have result : toInt out.length = (out.length : Int) := if_pos small
    simp only [kvsnprintf, format_eq_foldl, put, Option.map_some, puts_null size out (by omega),
      result,
      Option.map_none, ite_self]

/-- The text a42 into a buffer of two octets. -/
theorem kvsnprintf_truncates_sample :
    Complete [0x61, 0x25, 0x64] ∧ ∃ b', kvsnprintf .lp64 (fun _ => []) (some zero) 2
    [0x61, 0x25, 0x64]
      ⟨fun _ => 42, 0⟩ = some (3, some b') ∧ toList b' 0 1 = [0x61] ∧ b' 1 = 0 := by
  refine ⟨by decide, ?_⟩
  obtain ⟨out, put, all⟩ := kvsnprintf_truncates .lp64 (fun _ => []) [0x61, 0x25, 0x64] ⟨fun _ =>
    42, 0⟩ (by decide)
  have text : emitted .lp64 (fun _ => []) [0x61, 0x25, 0x64] ⟨fun _ => 42, 0⟩ =
      some [0x61, 0x34, 0x32] := by
    decide
  obtain rfl : out = [0x61, 0x34, 0x32] := Option.some.inj (put.symm.trans text)
  obtain ⟨b', result, stored, ended, _⟩ := (all (by decide) 2 (by decide) (by decide)).1 zero
  exact ⟨b', result, stored, ended⟩

end Obsidian.Klib.Printk
