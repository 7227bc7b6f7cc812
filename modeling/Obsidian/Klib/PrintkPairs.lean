import Obsidian.Klib.PrintkArgs

/-!
# When conversions are paired with their arguments

`%s` reads its pointer twice, and on the 32-bit build a plain `%x`, `%X` or `%o`
reads two slots for an argument that takes one. From then on the loop is ahead of
the arguments, and the last conversion prints a slot that holds none of them. The
proof of that direction changes only slots not yet read.
-/
namespace Obsidian.Klib.Printk
open Lib Lib.Bytes

variable {abi : Abi} {str : Nat → List UInt8} {w w₁ w₂ : Nat → Nat} {i n : Nat}
    {pieces rest : List Piece} {p : Piece}

/-! ## Texts of numbers and strings -/

theorem putN_snoc (out : List UInt8) (c : UInt8) (n : Nat) :
    putN snoc out c n = out ++ List.replicate n c := by
  induction n generalizing out with
  | zero => simp [putN]
  | succ n ih => rw [putN, ih, List.replicate_succ, List.append_assoc, List.singleton_append]

theorem foldl_snoc (out text : List UInt8) : text.foldl snoc out = out ++ text := by
  induction text generalizing out with
  | nil => simp
  | cons c rest ih => rw [List.foldl_cons, ih, List.append_assoc, List.singleton_append]

theorem emitStr_text (s : List UInt8) (width : Int) (ljust : Bool) : emitStr snoc [] s width ljust =
      (if ljust then [] else List.replicate (width - s.length).toNat chSpace) ++ s ++
        (if ljust then List.replicate (width - s.length).toNat chSpace else []) := by
  cases ljust with
  | true => simp only [emitStr, if_true, putN_snoc, foldl_snoc]
  | false => simp only [emitStr, Bool.false_eq_true, if_false, putN_snoc, foldl_snoc,
      List.append_nil, List.nil_append]

theorem strText_injective (m : Mods) {s t : List UInt8} (length : s.length = t.length)
    (same : strText m s = strText m t) :
    s = t := by
  simp only [strText, emitStr_text, length] at same
  exact List.append_cancel_left (List.append_cancel_right same)

/-- A number of 64 bits is read as signed or not. -/
def isNegative (val : Nat) (isSigned : Bool) : Bool :=
  isSigned && decide (9223372036854775808 ≤ val)

def magnitude (val : Nat) (isSigned : Bool) : Nat :=
  if isNegative val isSigned then 18446744073709551616 - val else val

def sign (val : Nat) (isSigned : Bool) : List UInt8 :=
  if isNegative val isSigned then [chMinus] else []

/-- What `emit_num` puts without a width. -/
def numberText (val base : Nat) (upper isSigned : Bool) : List UInt8 :=
  sign val isSigned ++ ((digitsLoop base 64 (magnitude val isSigned)).map (digitChar upper)).reverse

theorem pad_eq (width : Int) (n : Nat) :
    (if (n : Int) < width then width - n else 0) = ((width - n).toNat : Int) := by
  split
  · omega
  · omega

theorem emitNum_chars (val base : Nat) (upper isSigned : Bool) (width : Int)
    (zeroPad ljust : Bool) :
    emitNum snoc [] val base upper isSigned width zeroPad ljust =
      let text := numberText val base upper isSigned
      let pad := (width - text.length).toNat
      if ljust then text ++ List.replicate (pad - (sign val isSigned).length) chSpace
      else if zeroPad then
        sign val isSigned ++ List.replicate (pad - (sign val isSigned).length) chZero ++ text
      else List.replicate pad chSpace ++ text := by
  have shorter : ∀ pad : Nat, ((pad : Int) - 1).toNat = pad - 1 := by omega
  rw [emitNum, numberText]
  rw [show (isSigned && decide (9223372036854775808 ≤ val)) = isNegative val isSigned from rfl]
  rw [show (if isNegative val isSigned then 18446744073709551616 - val else val) =
    magnitude val isSigned from rfl]
  generalize (digitsLoop base 64 (magnitude val isSigned)).map (digitChar upper) = digits
  have length : digits.length + 1 = 1 + digits.length := Nat.add_comm _ _
  rw [sign]
  generalize isNegative val isSigned = neg
  -- the flags decide which of the loops run
  cases neg <;> cases ljust <;> cases zeroPad
  all_goals simp only [Bool.not_false, Bool.not_true, Bool.and_true, Bool.and_false,
    Bool.false_eq_true, if_false,
    if_true, List.nil_append, List.singleton_append, List.length_nil, List.length_cons,
      List.length_append,
    List.length_reverse, List.reverse_append, List.reverse_cons, List.reverse_nil, Nat.zero_add,
      Nat.sub_zero, Int.sub_zero,
    pad_eq, length, shorter, Int.toNat_natCast, putN_snoc, foldl_snoc]

/-! ### Reading a number back -/

def digitVal (c : UInt8) : Option Nat :=
  if 48 ≤ c.toNat ∧ c.toNat ≤ 57 then some (c.toNat - 48)
  else if 97 ≤ c.toNat ∧ c.toNat ≤ 102 then some (c.toNat - 87)
  else if 65 ≤ c.toNat ∧ c.toNat ≤ 70 then some (c.toNat - 55)
  else none

/-- One more character of a number in the given base; what is no digit is skipped. -/
def readDigit (base acc : Nat) (c : UInt8) : Nat :=
  match digitVal c with
  | some d => acc * base + d
  | none => acc

theorem digitVal_digitChar (upper : Bool) {d : Nat} (hd : d < 16) :
    digitVal (digitChar upper d) = some d := by
  have all : ∀ (upper : Bool) (d : Fin 16), digitVal (digitChar upper d.val) =
    some d.val := by decide
  exact all upper ⟨d, hd⟩

theorem read_spaces (base acc k : Nat) :
    (List.replicate k chSpace).foldl (readDigit base) acc = acc := by
  induction k with
  | zero => rfl
  | succ k ih =>
    have skip : readDigit base acc chSpace = acc := rfl
    rw [List.replicate_succ, List.foldl_cons, skip, ih]

theorem read_zeros (base k : Nat) : (List.replicate k chZero).foldl (readDigit base) 0 = 0 := by
  induction k with
  | zero => rfl
  | succ k ih =>
    have zero : readDigit base 0 chZero = 0 := Nat.zero_mul base
    rw [List.replicate_succ, List.foldl_cons, zero, ih]

theorem read_digits {base : Nat} (upper : Bool) (low : 2 ≤ base) (high : base ≤ 16) {fuel v : Nat}
    (enough : v < base ^ fuel) :
    ((digitsLoop base fuel v).map (digitChar upper)).reverse.foldl (readDigit base) 0 = v := by
  rw [List.foldl_reverse]
  induction fuel generalizing v with
  | zero =>
    rw [Nat.pow_zero, Nat.lt_one_iff] at enough
    rw [enough]
    rfl
  | succ fuel ih =>
    have digit : digitVal (digitChar upper (v % base)) = some (v % base) :=
      digitVal_digitChar upper (Nat.lt_of_lt_of_le (Nat.mod_lt v (by omega)) high)
    have split : v / base * base + v % base = v := Nat.div_add_mod' v base
    rw [digitsLoop, List.map_cons, List.foldr_cons]
    by_cases last : v / base = 0
    · rw [if_pos last]
      simp only [List.map_nil, List.foldr_nil, readDigit, digit]
      rw [last] at split
      omega
    · have fewer : v / base < base ^ fuel := by
        rw [Nat.div_lt_iff_lt_mul (by omega)]
        exact enough
      rw [if_neg last, ih fewer]
      simp only [readDigit, digit]
      exact split

theorem lt_base_pow {v base : Nat} (low : 2 ≤ base) (small : v < 18446744073709551616) :
    v < base ^ 64 :=
  Nat.lt_of_lt_of_le small (Nat.pow_le_pow_left low 64)

theorem read_emitNum {val base : Nat} {upper isSigned : Bool} (width : Int) (zeroPad ljust : Bool)
    (low : 2 ≤ base) (high : base ≤ 16) (small : val < 9223372036854775808) :
    (emitNum snoc [] val base upper isSigned width zeroPad ljust).foldl
    (readDigit base) 0 = val := by
  have positive : isNegative val isSigned = false := by
    rw [isNegative, decide_eq_false (by omega), Bool.and_false]
  have enough : val < base ^ 64 := lt_base_pow low (by omega)
  rw [emitNum_chars]
  simp only [numberText, sign, magnitude, positive, Bool.false_eq_true, if_false, List.nil_append]
  split
  · rw [List.foldl_append, read_digits upper low high enough, read_spaces]
  · split
    · rw [List.foldl_append, read_zeros, read_digits upper low high enough]
    · rw [List.foldl_append, read_spaces, read_digits upper low high enough]

/-- The base of a conversion. -/
def NumKind.base : NumKind → Nat
  | .d | .i | .u => 10
  | .x | .X => 16
  | .o => 8

theorem read_numText (m : Mods) (k : NumKind) {v : Nat} (plain : signedArg abi m.len v = v)
    (small : v < 9223372036854775808) : (numText abi m k v).foldl (readDigit k.base) 0 = v := by
  cases k with
  | d => simp only [numText, plain,
      NumKind.base]; exact read_emitNum _ _ _ (by decide) (by decide) small
  | i => simp only [numText, plain,
      NumKind.base]; exact read_emitNum _ _ _ (by decide) (by decide) small
  | u => exact read_emitNum _ _ _ (by decide) (by decide) small
  | x => exact read_emitNum _ _ _ (by decide) (by decide) small
  | X => exact read_emitNum _ _ _ (by decide) (by decide) small
  | o => exact read_emitNum _ _ _ (by decide) (by decide) small

theorem numText_ne (m : Mods) (k : NumKind) {a b : Nat} (plainA : signedArg abi m.len a = a)
    (plainB : signedArg abi m.len b = b) (smallA : a < 9223372036854775808)
    (smallB : b < 9223372036854775808) (differ : a ≠ b) :
    numText abi m k a ≠ numText abi m k b := by
  intro same
  apply differ
  rw [← read_numText m k plainA smallA, ← read_numText m k plainB smallB, same]

theorem ptrText_ne (abi : Abi) : emitPtr snoc abi [] 0 ≠ emitPtr snoc abi [] 1 := by
  cases abi <;> decide

/-! ## Which slots a piece reads -/

def Piece.takes : Piece → Bool
  | .text _ _ | .percent _ => false
  | _ => true

/-- Slots that the arguments take. -/
def totalSlots (abi : Abi) (pieces : List Piece) : Nat := (pieces.map (Piece.slots abi)).sum

theorem totalSlots_cons (p : Piece) (rest : List Piece) :
    totalSlots abi (p :: rest) = p.slots abi + totalSlots abi rest := by
  rw [totalSlots, List.map_cons, List.sum_cons, totalSlots]

theorem numArg_cases (abi : Abi) (m : Mods) :
    (¬ (m.len = .ll ∧ abi = .ilp32) ∧ ∃ f : Nat → Nat, (∀ v < 4294967296, f v = v) ∧
        (∀ k v, Piece.Ok abi (.num m k v) → f v = v) ∧
        ∀ w i, numArg abi m.len ⟨w, i⟩ = (f (w i), ⟨w, i + 1⟩)) ∨
      (m.len = .ll ∧ abi = .ilp32 ∧
        ∀ w i, numArg abi m.len ⟨w, i⟩ =
        (u32 (w i) + 4294967296 * u32 (w (i + 1)), ⟨w, i + 2⟩)) := by
  have keep32 : ∀ v < 4294967296, u32 v = v := fun v small => Nat.mod_eq_of_lt small
  have keep64 : ∀ v < 18446744073709551616, u64 v = v := fun v small => Nat.mod_eq_of_lt small
  have keepBoth : ∀ v < 4294967296, u64 v = v := fun v small => keep64 v (by omega)
  cases hlen : m.len with
  | none =>
    refine Or.inl ⟨(fun both => nomatch both.1), u32, keep32, fun k v ok => ?_, fun w i => rfl⟩
    simp only [Piece.Ok, hlen] at ok
    exact keep32 v ok
  | l | z =>
    cases abi with
    | ilp32 =>
      refine Or.inl ⟨(fun both => nomatch both.1), u32, keep32, fun k v ok => ?_, fun w i => rfl⟩
      simp only [Piece.Ok, hlen] at ok
      exact keep32 v ok
    | lp64 =>
      refine Or.inl ⟨(fun both => nomatch both.1), u64, keepBoth, fun k v ok => ?_, fun w i => rfl⟩
      simp only [Piece.Ok, hlen] at ok
      exact keep64 v ok
  | ll =>
    cases abi with
    | ilp32 => exact Or.inr ⟨rfl, rfl, fun w i => rfl⟩
    | lp64 =>
      refine Or.inl ⟨(fun both => nomatch both.2), u64, keepBoth, fun k v ok => ?_, fun w i => rfl⟩
      simp only [Piece.Ok, hlen] at ok
      exact keep64 v ok

/-- Plain `%x`, `%X` and `%o` get their argument, and on the 32-bit build one slot more. -/
theorem codeArg_plainHex {m : Mods} {k : NumKind} (hex : PlainHex m k) (w : Nat → Nat) (i : Nat) :
    codeArg abi m k ⟨w, i⟩ = (u32 (w i), ⟨w, if abi = .ilp32 then i + 2 else i + 1⟩) := by
  have low : ∀ a b, u32 (u32 a + 4294967296 * u32 b) = u32 a := by
    intro a b
    simp only [u32]
    omega
  have narrow : ∀ a, u32 (u64 a) = u32 a := by
    intro a
    simp only [u32, u64]
    omega
  cases abi with
  | ilp32 => simp only [codeArg, if_pos hex, Va.quad, low, if_true]
  | lp64 => simp only [codeArg, if_pos hex, Va.quad, narrow, reduceCtorEq, if_false]

theorem codeArg_cases (abi : Abi) (m : Mods) (k : NumKind) :
    (¬ (m.len = .ll ∧ abi = .ilp32) ∧ ∃ f next : Nat → Nat, (∀ v < 4294967296, f v = v) ∧
      (∀ i, i + 1 ≤ next i) ∧
        ∀ w i, codeArg abi m k ⟨w, i⟩ = (f (w i), ⟨w, next i⟩)) ∨ (m.len = .ll ∧ abi = .ilp32 ∧
        ∀ w i, codeArg abi m k ⟨w, i⟩ =
        (u32 (w i) + 4294967296 * u32 (w (i + 1)), ⟨w, i + 2⟩)) := by
  by_cases hex : PlainHex m k
  · refine Or.inl ⟨fun both => ?_, u32, fun i => if abi = .ilp32 then i + 2 else i + 1,
      fun v small => Nat.mod_eq_of_lt small, fun i => ?_, codeArg_plainHex hex⟩
    · rw [hex.1] at both
      exact nomatch both.1
    · dsimp only
      split <;> omega
  · simp only [codeArg, if_neg hex]
    rcases numArg_cases abi m with ⟨short, f, keep, _, reads⟩ | wide
    · exact Or.inl ⟨short, f, (· + 1), keep, fun i => Nat.le_refl _, reads⟩
    · exact Or.inr wide

/-- A piece reads only the slots it moves over, and at least those of its argument. -/
theorem run_reads (p : Piece) (same : ∀ j, i ≤ j → j < (p.run abi str w₁ i).1 → w₁ j = w₂ j) :
    p.run abi str w₂ i = p.run abi str w₁ i := by
  cases p with
  | text c literal => rfl
  | percent m => rfl
  | chr m v =>
    have here : w₁ i = w₂ i := same i (Nat.le_refl i) (Nat.lt_succ_self i)
    simp only [Piece.run, here]
  | str m s =>
    have first : w₁ i = w₂ i := by
      apply same i (Nat.le_refl i)
      rw [Piece.run]
      split <;> simp only <;> omega
    by_cases null : w₁ i = 0
    · have null' : w₂ i = 0 := first ▸ null
      simp only [Piece.run, null, null', ne_eq, not_true_eq_false, if_false]
    · have moved : (Piece.run abi str w₁ i (.str m s)).1 = i + 2 := by simp only [Piece.run,
        if_pos null]
      have second : w₁ (i + 1) = w₂ (i + 1) := same (i + 1) (by omega) (by omega)
      have null' : w₂ i ≠ 0 := first ▸ null
      simp only [Piece.run, if_pos null, if_pos null', second]
  | num m k v =>
    rcases codeArg_cases abi m k with ⟨_, f, next, _, after, reads⟩ | ⟨_, _, reads⟩
    · have here : w₁ i = w₂ i :=
        same i (Nat.le_refl i) (by simp only [Piece.run, reads]; exact after i)
      simp only [Piece.run, reads, here]
    · have here : w₁ i = w₂ i := same i (Nat.le_refl i) (by simp only [Piece.run, reads]; omega)
      have next : w₁ (i + 1) = w₂ (i + 1) :=
        same (i + 1) (by omega) (by simp only [Piece.run, reads]; omega)
      simp only [Piece.run, reads, here, next]
  | ptr m v =>
    have here : w₁ i = w₂ i := same i (Nat.le_refl i) (Nat.lt_succ_self i)
    simp only [Piece.run, here]

theorem run_advances (p : Piece) : i + p.slots abi ≤ (p.run abi str w i).1 := by
  cases p with
  | text c literal => exact Nat.le_refl _
  | percent m => exact Nat.le_refl _
  | chr m v => exact Nat.le_refl _
  | str m s =>
    rw [Piece.run, Piece.slots]
    split <;> simp only <;> omega
  | num m k v =>
    rcases codeArg_cases abi m k with ⟨short, f, next, _, after, reads⟩ | ⟨long, narrow, reads⟩
    · simp only [Piece.run, Piece.slots, reads, if_neg short]
      exact after i
    · simp only [Piece.run, Piece.slots, reads, if_pos (And.intro long narrow)]
      omega
  | ptr m v => exact Nat.le_refl _

theorem outFrom_congr (same : ∀ j, i ≤ j → w₁ j = w₂ j) (pieces : List Piece) :
    outFrom abi str w₁ i pieces = outFrom abi str w₂ i pieces := by
  induction pieces generalizing i with
  | nil => rfl
  | cons p rest ih =>
    have head : p.run abi str w₂ i = p.run abi str w₁ i := run_reads p fun j low _ => same j low
    have advance := @run_advances abi str w₁ i p
    rw [outFrom, outFrom, head, ih fun j low => same j (by omega)]

theorem takes_iff (p : Piece) : p.takes = true ↔ 1 ≤ p.slots abi := by
  cases p with
  | num m k v =>
    simp only [Piece.takes, Piece.slots, true_iff]
    split <;> omega
  | _ => simp [Piece.takes, Piece.slots]

theorem outFrom_plain (plain : ∀ q ∈ pieces, q.takes = false) (w₁ w₂ : Nat → Nat) (i j : Nat) :
    outFrom abi str w₁ i pieces = outFrom abi str w₂ j pieces := by
  induction pieces generalizing i j with
  | nil => rfl
  | cons p rest ih =>
    have rest' : ∀ q ∈ rest, q.takes = false := fun q member => plain q (by simp [member])
    have none := plain p (by simp)
    cases p with
    | text c literal => rw [outFrom, outFrom, Piece.run, Piece.run, ih rest']
    | percent m => rw [outFrom, outFrom, Piece.run, Piece.run, ih rest']
    | chr | str | num | ptr => cases none

/-! ## Ahead of the arguments -/

theorem signedArg_small (abi : Abi) (len : LenMod) {v : Nat} (small : v < 2147483648) :
    signedArg abi len v = v := by
  cases len <;> cases abi <;> simp [signedArg, extendLong, extend32, small]

/-- A piece that reads a slot from `n` on puts one thing or another, as that slot says. -/
theorem run_sensitive (p : Piece) (takes : p.takes = true) (one : str 1 = [97]) (two : str 2 = [98])
    (w : Nat → Nat) (ahead : n < i + p.slots abi) :
    ∃ w₁ w₂, (∀ j, j < n ∨ j < i → w₁ j = w j ∧ w₂ j = w j) ∧
      (p.run abi str w₁ i).2 ≠ (p.run abi str w₂ i).2 := by
  have vary : ∀ s a b : Nat, n ≤ s → i ≤ s → ∀ j, j < n ∨ j < i →
      Function.update w s a j = w j ∧ Function.update w s b j = w j := by
    intro s a b hn hi j hj
    have hne : j ≠ s := by omega
    exact ⟨Function.update_of_ne hne .., Function.update_of_ne hne ..⟩
  cases p with
  | text c literal => cases takes
  | percent m => cases takes
  | chr m v =>
    have hn : n ≤ i := Nat.le_of_lt_succ ahead
    refine ⟨Function.update w i 97, Function.update w i 98, vary i 97 98 hn (Nat.le_refl i),
      fun same => ?_⟩
    simp only [Piece.run, Function.update_self] at same
    exact absurd (strText_injective m (s := [97]) (t := [98]) rfl same) (by decide)
  | str m s =>
    have hn : n ≤ i := Nat.le_of_lt_succ ahead
    refine ⟨Function.update (Function.update w i 1) (i + 1) 1,
      Function.update (Function.update w i 1) (i + 1) 2,
      fun j hj => ?_, fun same => ?_⟩
    · have hne : j ≠ i := by omega
      have hne' : j ≠ i + 1 := by omega
      simp only [Function.update_of_ne hne', Function.update_of_ne hne, and_self]
    · have hne : i ≠ i + 1 := by omega
      simp only [Piece.run, Function.update_of_ne hne, Function.update_self, ne_eq, one_ne_zero,
        not_false_eq_true,
        if_true, one, two] at same
      exact absurd (strText_injective m (s := [97]) (t := [98]) rfl same) (by decide)
  | num m k v =>
    rcases codeArg_cases abi m k with ⟨short, f, next, keep, _, reads⟩ | ⟨long, narrow, reads⟩
    · simp only [Piece.slots, if_neg short] at ahead
      refine ⟨Function.update w i 0, Function.update w i 1, vary i 0 1 (by omega) (Nat.le_refl i),
        ?_⟩
      simp only [Piece.run, reads, Function.update_self, keep 0 (by decide), keep 1 (by decide)]
      exact numText_ne m k (signedArg_small abi _ (by decide)) (signedArg_small abi _ (by decide))
        (by decide)
        (by decide) (by decide)
    · -- the high half of the number is the slot that varies
      simp only [Piece.slots, if_pos (And.intro long narrow)] at ahead
      have hne : i ≠ i + 1 := by omega
      have word : u32 (w i) < 4294967296 := Nat.mod_lt _ (by decide)
      have plain : ∀ v, signedArg abi m.len v = v := by
        intro v
        rw [long]
        rfl
      refine ⟨Function.update w (i + 1) 0, Function.update w (i + 1) 1,
        vary (i + 1) 0 1 (by omega) (by omega), ?_⟩
      simp only [Piece.run, reads, Function.update_self, Function.update_of_ne hne,
        show u32 0 = 0 from rfl,
        show u32 1 = 1 from rfl]
      exact numText_ne m k (plain _) (plain _) (by omega) (by omega) (by omega)
  | ptr m v =>
    have hn : n ≤ i := Nat.le_of_lt_succ ahead
    refine ⟨Function.update w i 0, Function.update w i 1, vary i 0 1 hn (Nat.le_refl i), ?_⟩
    simp only [Piece.run, Function.update_self]
    exact ptrText_ne abi

theorem totalSlots_plain (plain : ∀ q ∈ pieces, q.takes = false) : totalSlots abi pieces = 0 := by
  induction pieces with
  | nil => rfl
  | cons p rest ih =>
    have none : p.slots abi = 0 := by
      have := mt (@takes_iff abi p).mpr (by simp [plain p (by simp)])
      omega
    rw [totalSlots_cons, none, ih fun q member => plain q (by simp [member])]

/-- Once the loop is ahead of the arguments, the output depends on a slot behind them. -/
theorem outFrom_sensitive (abi : Abi) (one : str 1 = [97]) (two : str 2 = [98]) (w : Nat → Nat)
    {a : Nat} (takes : ∃ q ∈ pieces, q.takes = true) (ahead : a < i) :
    ∃ w₁ w₂, (∀ j, j < a + totalSlots abi pieces ∨ j < i → w₁ j = w j ∧ w₂ j = w j) ∧
      outFrom abi str w₁ i pieces ≠ outFrom abi str w₂ i pieces := by
  induction pieces generalizing i a with
  | nil =>
    obtain ⟨q, member, _⟩ := takes
    cases member
  | cons p rest ih =>
    have advance := @run_advances abi str w i p
    rw [totalSlots_cons]
    by_cases more : ∃ q ∈ rest, q.takes = true
    · obtain ⟨w₁, w₂, agree, differ⟩ := ih more (a := a + p.slots abi) (i :=
        (p.run abi str w i).1) (by omega)
      -- what this piece reads lies before the slots that vary
      have head₁ : p.run abi str w₁ i = p.run abi str w i := run_reads p fun j _ hj =>
        (agree j (Or.inr hj)).1.symm
      have head₂ : p.run abi str w₂ i = p.run abi str w i := run_reads p fun j _ hj =>
        (agree j (Or.inr hj)).2.symm
      refine ⟨w₁, w₂, fun j hj => agree j (by omega), fun same => differ ?_⟩
      rw [outFrom, outFrom, head₁, head₂] at same
      exact List.append_cancel_left same
    · have plain : ∀ q ∈ rest, q.takes = false := by
        intro q member
        exact Bool.eq_false_iff.mpr fun t => more ⟨q, member, t⟩
      have here : p.takes = true := by
        obtain ⟨q, member, t⟩ := takes
        rcases List.mem_cons.mp member with rfl | later
        · exact t
        · exact absurd ⟨q, later, t⟩ more
      rw [totalSlots_plain plain]
      obtain ⟨w₁, w₂, agree, differ⟩ := run_sensitive p here one two w (show a + p.slots abi <
        i + p.slots abi by omega)
      refine ⟨w₁, w₂, fun j hj => agree j (by omega), fun same => differ ?_⟩
      rw [outFrom, outFrom_plain plain w₁ w₂ _ (p.run abi str w₂ i).1] at same
      exact List.append_cancel_right same

/-! ## Presented arguments -/

theorem Piece.At.congr (p : Piece) (same : ∀ j, i ≤ j → j < i + p.slots abi → w₁ j = w₂ j)
    (holds : p.At abi str w₁ i) :
    p.At abi str w₂ i := by
  cases p with
  | text c literal => trivial
  | percent m => trivial
  | chr m v =>
    have here : w₁ i = w₂ i := same i (Nat.le_refl i) (Nat.lt_succ_self i)
    rwa [Piece.At, ← here]
  | str m s =>
    have here : w₁ i = w₂ i := same i (Nat.le_refl i) (Nat.lt_succ_self i)
    cases s with
    | none => rwa [Piece.At, ← here]
    | some s => rwa [Piece.At, ← here]
  | num m k v =>
    rcases numArg_cases abi m with ⟨short, f, _, _, reads⟩ | ⟨long, narrow, reads⟩
    · have here : w₁ i = w₂ i :=
        same i (Nat.le_refl i) (by simp only [Piece.slots, if_neg short]; omega)
      simpa only [Piece.At, reads, here] using holds
    · have two : (Piece.num m k v).slots abi = 2 := by simp only [Piece.slots,
        if_pos (And.intro long narrow)]
      have here : w₁ i = w₂ i := same i (Nat.le_refl i) (by omega)
      have next : w₁ (i + 1) = w₂ (i + 1) := same (i + 1) (by omega) (by omega)
      simpa only [Piece.At, reads, here, next] using holds
  | ptr m v =>
    have here : w₁ i = w₂ i := same i (Nat.le_refl i) (Nat.lt_succ_self i)
    rwa [Piece.At, ← here]

theorem Presents.congr (same : ∀ j, i ≤ j → j < i + totalSlots abi pieces → w₁ j = w₂ j)
    (holds : Presents abi str w₁ i pieces) : Presents abi str w₂ i pieces := by
  induction pieces generalizing i with
  | nil => trivial
  | cons p rest ih =>
    rw [totalSlots_cons] at same
    exact ⟨Piece.At.congr p (fun j low high => same j low (by omega)) holds.1,
      ih (fun j low high => same j (by omega) (by omega)) holds.2⟩

/-- A string argument that is not null. -/
def Piece.NonNull : Piece → Prop
  | .str _ (some _) => True
  | _ => False

theorem exists_at (p : Piece) (ok : p.Ok abi) (noString : ¬ p.NonNull) (w : Nat → Nat) (i : Nat) :
    ∃ w', (∀ j, i + p.slots abi ≤ j → w' j = w j) ∧ ∀ str, p.At abi str w' i := by
  have frame : ∀ s v : Nat, s < i + p.slots abi → ∀ j, i + p.slots abi ≤ j →
      Function.update w s v j = w j := by
    intro s v hs j hj
    have hne : j ≠ s := by omega
    exact Function.update_of_ne hne ..
  cases p with
  | text c literal => exact ⟨w, fun j _ => rfl, fun str => trivial⟩
  | percent m => exact ⟨w, fun j _ => rfl, fun str => trivial⟩
  | chr m v =>
    refine ⟨Function.update w i v, frame i v (Nat.lt_succ_self i), fun str => ?_⟩
    rw [Piece.At, Function.update_self]
    exact Nat.mod_eq_of_lt ok
  | str m s =>
    cases s with
    | some s => exact absurd trivial noString
    | none => exact ⟨Function.update w i 0, frame i 0 (Nat.lt_succ_self i), fun str =>
      Function.update_self i 0 w⟩
  | num m k v =>
    rcases numArg_cases abi m with ⟨short, f, _, keep, reads⟩ | ⟨long, narrow, reads⟩
    · refine ⟨Function.update w i v, frame i v (by simp only [Piece.slots, if_neg short]; omega),
        fun str => ?_⟩
      simp only [Piece.At, reads, Function.update_self]
      exact keep k v ok
    · have two : (Piece.num m k v).slots abi = 2 := by simp only [Piece.slots,
        if_pos (And.intro long narrow)]
      have hne : i ≠ i + 1 := by omega
      refine ⟨Function.update (Function.update w i v) (i + 1) (v / 4294967296), fun j hj => ?_,
        fun str => ?_⟩
      · have hne : j ≠ i := by omega
        have hne' : j ≠ i + 1 := by omega
        simp only [Function.update_of_ne hne', Function.update_of_ne hne]
      · simp only [Piece.Ok, long] at ok
        simp only [Piece.At, reads, Function.update_self, Function.update_of_ne hne, u32]
        omega
  | ptr m v =>
    refine ⟨Function.update w i v, frame i v (Nat.lt_succ_self i), fun str => ?_⟩
    rw [Piece.At, Function.update_self]

/-- Some slots present the arguments from `i` on, in any memory with the strings of `str` up to
`bound`; two short strings are at addresses 1 and 2. -/
def Presentable (abi : Abi) (i : Nat) (pieces : List Piece) : Prop :=
  ∃ (w : Nat → Nat) (str : Nat → List UInt8) (bound : Nat), 2 < bound ∧ str 1 = [97] ∧
    str 2 = [98] ∧
    ∀ str', (∀ a < bound, str' a = str a) → Presents abi str' w i pieces

theorem exists_presents (ok : ∀ p ∈ pieces, p.Ok abi) (i : Nat) : Presentable abi i pieces := by
  induction pieces generalizing i with
  | nil => exact ⟨fun _ => 0, fun a => if a = 1 then [97] else [98],
      3, by decide, rfl, rfl, fun _ _ => trivial⟩
  | cons p rest ih =>
    obtain ⟨w, str, bound, low, one, two, presents⟩ :=
      ih (fun q member => ok q (List.mem_cons_of_mem p member)) (i + p.slots abi)
    have place : ∀ (w' : Nat → Nat) (str' : Nat → List UInt8) (bound' : Nat),
      (∀ j, i + p.slots abi ≤ j → w' j = w j) →
        (∀ a < bound, str' a = str a) → bound ≤ bound' →
        (∀ str'', (∀ a < bound', str'' a = str' a) → p.At abi str'' w' i) →
            Presentable abi i (p :: rest) := by
      intro w' str' bound' frame strings grows holds
      refine ⟨w', str', bound', by omega, ?_, ?_, fun str'' agree => ⟨holds str'' agree, ?_⟩⟩
      · rw [strings 1 (by omega), one]
      · rw [strings 2 low, two]
      · have tail := presents str'' fun a ha => (agree a (by omega)).trans (strings a ha)
        exact Presents.congr (fun j hj _ => (frame j hj).symm) tail
    by_cases string : p.NonNull
    · obtain ⟨m, s, rfl⟩ : ∃ m s, p = .str m (some s) := by
        unfold Piece.NonNull at string
        split at string
        · exact ⟨_, _, rfl⟩
        · exact string.elim
      -- the new string goes to the first free address
      apply place (Function.update w i bound) (Function.update str bound s.1) (bound + 1)
      · intro j hj
        simp only [Piece.slots] at hj
        have hne : j ≠ i := by omega
        exact Function.update_of_ne hne ..
      · exact fun a ha => Function.update_of_ne (Nat.ne_of_lt ha) ..
      · exact Nat.le_succ bound
      · intro str'' agree
        rw [Piece.At, Function.update_self, agree bound (Nat.lt_succ_self bound),
          Function.update_self]
        exact ⟨by omega, rfl⟩
    · obtain ⟨w', frame, holds⟩ := exists_at p (ok p List.mem_cons_self) string w i
      exact place w' str bound frame (fun a _ => rfl) (Nat.le_refl bound) (fun str'' _ =>
        holds str'')

/-! ## When conversions and arguments go together -/

/-- Pieces that move over one slot more than their argument takes. -/
def Piece.Ahead (abi : Abi) : Piece → Prop
  | .str _ (some _) => True
  | .num m k _ => abi = .ilp32 ∧ PlainHex m k
  | _ => False

/-- Formats whose conversions get their own arguments: no string but null ones, and on the
32-bit build no conversion with an argument behind a plain `%x`, `%X` or `%o`. -/
def Paired (abi : Abi) : List Piece → Prop
  | [] => True
  | p :: rest => ¬ p.NonNull ∧ (p.Ahead abi → ∀ q ∈ rest, q.takes = false) ∧ Paired abi rest

theorem run_own (p : Piece) (noString : ¬ p.NonNull) (holds : p.At abi str w i) :
    (p.run abi str w i).2 = p.render abi := by
  cases p with
  | text c literal => rfl
  | percent m => rfl
  | chr m v =>
    rw [Piece.run, Piece.render, holds]
  | str m s =>
    cases s with
    | some s => exact absurd trivial noString
    | none =>
      rw [Piece.At] at holds
      simp only [Piece.run, holds, ne_eq, not_true_eq_false, if_false, Piece.render]
  | num m k v =>
    rw [Piece.At] at holds
    rw [Piece.run, Piece.render]
    by_cases hex : PlainHex m k
    · rw [hex.1] at holds
      simp only [codeArg_plainHex hex]
      exact congrArg (numText abi m k) holds
    · simp only [codeArg, if_neg hex, holds]
  | ptr m v =>
    rw [Piece.run, Piece.render, holds]

open Classical in
theorem run_moves (p : Piece) (holds : p.At abi str w i) :
    (p.run abi str w i).1 = i + p.slots abi + if p.Ahead abi then 1 else 0 := by
  cases p with
  | text c literal => simp [Piece.run, Piece.slots, Piece.Ahead]
  | percent m => simp [Piece.run, Piece.slots, Piece.Ahead]
  | chr m v => simp [Piece.run, Piece.slots, Piece.Ahead]
  | str m s =>
    cases s with
    | some s =>
      rw [Piece.At] at holds
      simp [Piece.run, holds.1, Piece.slots, Piece.Ahead]
    | none =>
      rw [Piece.At] at holds
      simp [Piece.run, holds, Piece.slots, Piece.Ahead]
  | num m k v =>
    by_cases hex : PlainHex m k
    · have short : ¬ (m.len = .ll ∧ abi = .ilp32) := by
        rw [hex.1]
        rintro ⟨long, _⟩
        cases long
      simp only [Piece.run, codeArg_plainHex hex, Piece.Ahead, hex, and_true, Piece.slots,
        if_neg short]
      split <;> rfl
    · simp only [Piece.run, codeArg, hex, and_false, if_false, Piece.Ahead, Piece.slots,
        Nat.add_zero]
      rcases numArg_cases abi m with ⟨short, f, _, _, reads⟩ | ⟨long, narrow, reads⟩
      · rw [reads, if_neg short]
      · rw [reads, if_pos ⟨long, narrow⟩]
  | ptr m v => simp [Piece.run, Piece.slots, Piece.Ahead]

section own

variable (one : str 1 = [97]) (two : str 2 = [98]) (presents : Presents abi str w i (p :: rest))
  (own : ∀ w, Presents abi str w i (p :: rest) →
    outFrom abi str w i (p :: rest) = (p :: rest).flatMap (Piece.render abi))
include one two presents own

theorem plain_of_ahead (ahead : p.Ahead abi) : ∀ q ∈ rest, q.takes = false := by
  intro q member
  by_contra takes
  have moved := run_moves p presents.1
  rw [if_pos ahead] at moved
  obtain ⟨w₁, w₂, agree, differ⟩ := outFrom_sensitive abi one two w (a := i + p.slots abi)
    (i := (p.run abi str w i).1) ⟨q, member, Bool.eq_true_of_not_eq_false takes⟩ (by omega)
  have shared : ∀ j, i ≤ j → j < i + totalSlots abi (p :: rest) → w j = w₁ j ∧ w j = w₂ j := by
    intro j _ hj
    rw [totalSlots_cons] at hj
    have both := agree j (by omega)
    exact ⟨both.1.symm, both.2.symm⟩
  have head₁ : p.run abi str w₁ i = p.run abi str w i := run_reads p fun j _ hj =>
    (agree j (Or.inr hj)).1.symm
  have head₂ : p.run abi str w₂ i = p.run abi str w i := run_reads p fun j _ hj =>
    (agree j (Or.inr hj)).2.symm
  have out₁ := own w₁ (Presents.congr (fun j low high => (shared j low high).1) presents)
  have out₂ := own w₂ (Presents.congr (fun j low high => (shared j low high).2) presents)
  rw [outFrom, head₁] at out₁
  rw [outFrom, head₂] at out₂
  exact differ (List.append_cancel_left (out₁.trans out₂.symm))

theorem no_string (plain : ∀ q ∈ rest, q.takes = false) : ¬ p.NonNull := by
  intro string
  cases p with
  | str m s =>
    cases s with
    | none => exact string
    | some s =>
      have hne : i ≠ i + 1 := by omega
      have shown : ∀ v, outFrom abi str (Function.update w (i + 1) v) i (.str m (some s) :: rest) =
          strText m (str v) ++ outFrom abi str w i rest := by
        intro v
        rw [outFrom, outFrom_plain plain _ w _ i, Piece.run, Function.update_of_ne hne,
          if_pos presents.1.1, Function.update_self]
      have out : ∀ v, outFrom abi str (Function.update w (i + 1) v) i (.str m (some s) :: rest) =
          (Piece.str m (some s) :: rest).flatMap (Piece.render abi) := by
        intro v
        apply own
        refine Presents.congr (fun j low high => ?_) presents
        rw [totalSlots_cons, totalSlots_plain plain, Piece.slots] at high
        have : j ≠ i + 1 := by omega
        exact (Function.update_of_ne this ..).symm
      have same := List.append_cancel_right
        ((shown 1).symm.trans ((out 1).trans ((out 2).symm.trans (shown 2))))
      rw [one, two] at same
      exact absurd (strText_injective m (s := [97]) (t := [98]) rfl same) (by decide)
  | _ => exact string

end own

theorem Piece.NonNull.ahead (string : p.NonNull) : p.Ahead abi := by
  cases p with
  | str m s =>
    cases s with
    | none => exact string.elim
    | some s => trivial
  | _ => exact string.elim

theorem outFrom_after (holds : p.At abi str w₁ i)
    (plain : p.Ahead abi → ∀ q ∈ rest, q.takes = false)
    (same : ∀ j, i + p.slots abi ≤ j → w₁ j = w₂ j) :
    outFrom abi str w₁ (p.run abi str w₁ i).1 rest = outFrom abi str w₂ (i + p.slots abi) rest := by
  have moved := run_moves p holds
  by_cases ahead : p.Ahead abi
  · exact outFrom_plain (plain ahead) ..
  · rw [if_neg ahead] at moved
    rw [moved]
    exact outFrom_congr same rest

theorem own_iff (ok : ∀ p ∈ pieces, p.Ok abi) (i : Nat) :
    (∀ str w, Presents abi str w i pieces → outFrom abi str w i pieces =
      pieces.flatMap (Piece.render abi)) ↔
      Paired abi pieces := by
  induction pieces generalizing i with
  | nil => exact ⟨fun _ => trivial, fun _ str w _ => rfl⟩
  | cons p rest ih =>
    have ih' := ih (fun q member => ok q (List.mem_cons_of_mem p member)) (i + p.slots abi)
    constructor
    · intro own
      obtain ⟨w, str, bound, _, one, two, presents⟩ := exists_presents ok i
      have here := presents str fun _ _ => rfl
      have plain := plain_of_ahead one two here (own str)
      have noString : ¬ p.NonNull :=
        fun string => no_string one two here (own str) (plain string.ahead) string
      refine ⟨noString, plain, ih'.mp fun str w tail => ?_⟩
      obtain ⟨w', frame, holds⟩ := exists_at p (ok p List.mem_cons_self) noString w i
      have out := own str w' ⟨holds str, Presents.congr (fun j low _ => (frame j low).symm) tail⟩
      rw [outFrom, run_own p noString (holds str), outFrom_after (holds str) plain frame] at out
      exact List.append_cancel_left out
    · intro paired str w presents
      obtain ⟨noString, plain, rest'⟩ := paired
      rw [outFrom, run_own p noString presents.1, List.flatMap_cons,
        outFrom_after presents.1 plain fun _ _ => rfl,
        ih'.mpr rest' str w presents.2]

/-- Every conversion renders its own argument exactly when no string argument is non-null and,
on the 32-bit build, nothing that takes an argument follows a plain `%x`, `%X` or `%o`. -/
theorem pairs_iff (abi : Abi) (pieces : List Piece) (ok : ∀ p ∈ pieces, p.Ok abi) :
    Pairs abi pieces ↔ Paired abi pieces := by
  rw [← own_iff ok 0]
  simp only [Pairs, emitted_pieces, Option.some.injEq]

/-- A conversion without flags, width and modifier. -/
def bare : Mods := ⟨[], [], .none, by simp⟩

/-- `"a%d%s"` with 5 and a null string. -/
theorem pairs_iff_sample :
    Pairs .lp64 [.text 97 (by decide), .num bare .d 5, .str bare none] := by
  refine (pairs_iff .lp64 _ ?_).mpr ?_
  · simp [Piece.Ok, bare]
  · simp [Paired, Piece.NonNull, Piece.Ahead]

/-- Memory with "abc" at address 16. -/
def abcAt : Nat → List UInt8 := fun a => if a = 16 then [97, 98, 99] else []

/-- `"%s %d"` with "abc" and 5. -/
def abcFive : List Piece :=
  [.str bare (some ⟨[97, 98, 99], by decide⟩), .text 32 (by decide), .num bare .d 5]

/-- The slots of the arguments 16 (the address of "abc") and 5, and zeros behind them. -/
def abcSlots : Nat → Nat := fun j => if j = 0 then 16 else if j = 1 then 5 else 0

/-- `kprintf("%s %d", "abc", 5)` takes 5 for the string and the slot behind the arguments for the
number. -/
theorem string_takes_next_argument :
    Presents .lp64 abcAt abcSlots 0 abcFive ∧
      emitted .lp64 abcAt (spell abcFive) ⟨abcSlots, 0⟩ = some [32, 48] ∧
      abcFive.flatMap (Piece.render .lp64) = [97, 98, 99, 32, 53] := by
  refine ⟨?_, by decide, by decide⟩
  simp [abcFive, Presents, Piece.At, Piece.slots, abcSlots, abcAt, numArg, bare, Va.int, u32]

end Obsidian.Klib.Printk
