import Mathlib.Data.Nat.Bitwise
import Mathlib.Logic.Function.Iterate

/-!
# Reflected redundancy registers

The register takes the bits of a message one at a time, of every octet the least
significant first. A step that no bit enters is linear in exclusive or, so that eight
of them are a shift by an octet and the steps of the octet shifted out: a table of
those entries replaces the bit loop, for every polynomial and every register.
-/
namespace Obsidian.Lib.Crc

/-! ## Maps that respect exclusive or -/

def Linear (f : Nat → Nat) : Prop := ∀ a b, f (a ^^^ b) = f a ^^^ f b

variable {f g : Nat → Nat}

theorem Linear.iterate (linear : Linear f) (n : Nat) : Linear f^[n] := by
  induction n with
  | zero => exact fun _ _ => rfl
  | succ n ih =>
    intro a b
    rw [Function.iterate_succ_apply, Function.iterate_succ_apply, Function.iterate_succ_apply,
      linear a b, ih]

/-- Reducing the argument first, as an assignment to a narrow variable does. -/
theorem Linear.mod_two_pow (w : Nat) : Linear fun v => v % 2 ^ w := by
  intro a b
  exact Nat.xor_mod_two_pow

/-- A constant added when one bit of the argument is set. -/
theorem Linear.ite_testBit (i poly : Nat) : Linear fun v => if v.testBit i then poly else 0 := by
  intro a b
  simp only [Nat.testBit_xor]
  cases a.testBit i <;> cases b.testBit i <;> simp

theorem Linear.xor (hf : Linear f) (hg : Linear g) : Linear fun v => f v ^^^ g v := by
  intro a b
  show f (a ^^^ b) ^^^ g (a ^^^ b) = (f a ^^^ g a) ^^^ (f b ^^^ g b)
  rw [hf a b, hg a b, Nat.xor_assoc, Nat.xor_assoc, ← Nat.xor_assoc (f b), Nat.xor_comm (f b) (g a),
    Nat.xor_assoc (g a)]

theorem Linear.comp (hf : Linear f) (hg : Linear g) : Linear fun v => f (g v) := by
  intro a b
  show f (g (a ^^^ b)) = f (g a) ^^^ f (g b)
  rw [hg a b, hf]

/-! ## The register -/

/-- One bit of the message enters: the register moves down, and the polynomial is added
when the bit that falls out differs from the one that enters. -/
def feed (poly c : Nat) (bit : Bool) : Nat :=
  (c >>> 1) ^^^ (if (c.testBit 0 ^^ bit) = true then poly else 0)

def octetBits (b : UInt8) : List Bool := (List.range 8).map b.toNat.testBit

/-- The register after a message that starts at the value `c`. -/
def reflected (poly c : Nat) (message : List UInt8) : Nat :=
  (message.flatMap octetBits).foldl (feed poly) c

theorem reflected_append (poly c : Nat) (a b : List UInt8) :
    reflected poly c (a ++ b) = reflected poly (reflected poly c a) b := by
  unfold reflected
  rw [List.flatMap_append, List.foldl_append]

theorem reflected_cons (poly c : Nat) (b : UInt8) (message : List UInt8) :
    reflected poly c (b :: message) = reflected poly
    ((octetBits b).foldl (feed poly) c) message := by
  unfold reflected
  rw [List.flatMap_cons, List.foldl_append]

/-! ## Eight steps at once -/

/-- A step that no bit enters. -/
def shift (poly c : Nat) : Nat := feed poly c false

theorem shift_linear (poly : Nat) : Linear (shift poly) := by
  have down : Linear fun v => v >>> 1 := fun a b => Nat.shiftRight_xor_distrib
  have added := down.xor (Linear.ite_testBit 0 poly)
  intro a b
  simpa only [shift, feed, Bool.xor_false] using added a b

/-- A bit that enters at the end of the register may as well be added in front. -/
theorem shift_xor (poly c x : Nat) :
    shift poly (c ^^^ x) = feed poly c (x.testBit 0) ^^^ (x >>> 1) := by
  unfold shift feed
  rw [Nat.shiftRight_xor_distrib, Nat.testBit_xor, Bool.xor_false, Nat.xor_assoc, Nat.xor_assoc,
    Nat.xor_comm (x >>> 1)]

/-- The bits of `x`, fed one after the other, are the steps of the register with `x` added. -/
theorem foldl_feed (poly : Nat) (n c x : Nat) (fits : x < 2 ^ n) :
    ((List.range n).map x.testBit).foldl (feed poly) c = (shift poly)^[n] (c ^^^ x) := by
  induction n generalizing c x with
  | zero =>
    have none : x = 0 := by simpa using fits
    simp [none]
  | succ n ih =>
    have rest : x >>> 1 < 2 ^ n := by
      rw [Nat.shiftRight_one]
      omega
    have later : ∀ i, x.testBit (i + 1) = (x >>> 1).testBit i := by
      intro i
      rw [Nat.testBit_shiftRight, Nat.add_comm 1 i]
    rw [List.range_succ_eq_map, List.map_cons, List.map_map, List.foldl_cons,
      Function.iterate_succ_apply,
      shift_xor, ← ih _ _ rest]
    congr 1
    exact List.map_congr_left fun i _ => later i

/-- A register whose low bits are clear only moves down. -/
theorem iterate_shift_high (poly n m : Nat) : (shift poly)^[n] (m <<< n) = m := by
  induction n with
  | zero => simp
  | succ n ih =>
    have clear : (m <<< (n + 1)).testBit 0 = false := by simp
    have moved : m <<< (n + 1) >>> 1 = m <<< n := by
      rw [Nat.shiftLeft_succ, Nat.shiftRight_one, Nat.mul_div_cancel_left _ (by decide : 0 < 2)]
    have step : shift poly (m <<< (n + 1)) = m <<< n := by
      unfold shift feed
      rw [moved]
      simp
    rw [Function.iterate_succ_apply, step, ih]

theorem split_low (x n : Nat) : x = (x >>> n <<< n) ^^^ (x % 2 ^ n) := by
  apply Nat.eq_of_testBit_eq
  intro i
  rw [Nat.testBit_xor, Nat.testBit_shiftLeft]
  by_cases low : i < n
  · simp [low, Nat.not_le_of_lt low]
  · simp [low, Nat.le_of_not_lt low]

/-- The steps of a register are those of its low bits, and the rest of it moved down. -/
theorem iterate_shift (poly n x : Nat) :
    (shift poly)^[n] x = (x >>> n) ^^^ (shift poly)^[n] (x % 2 ^ n) := by
  conv => lhs; rw [split_low x n]
  rw [(shift_linear poly).iterate n, iterate_shift_high]

/-- An octet of the message by one look into a table of eight steps. -/
theorem octet_by_table (poly c : Nat) (b : UInt8) :
    (octetBits b).foldl (feed poly) c = (c >>> 8) ^^^ (shift poly)^[8]
    ((c ^^^ b.toNat) &&& 0xFF) := by
  have gone : b.toNat >>> 8 = 0 := by
    rw [Nat.shiftRight_eq_div_pow]
    exact Nat.div_eq_of_lt b.toNat_lt
  have mask : (c ^^^ b.toNat) &&& 0xFF = (c ^^^ b.toNat) % 2 ^ 8 :=
    Nat.and_two_pow_sub_one_eq_mod _ 8
  rw [octetBits, foldl_feed poly 8 c b.toNat b.toNat_lt, iterate_shift, Nat.shiftRight_xor_distrib,
    gone,
    Nat.xor_zero, mask]

/-! ## Changes of the message -/

theorem octet_eq (poly c : Nat) (b : UInt8) :
    (octetBits b).foldl (feed poly) c = (shift poly)^[8] (c ^^^ b.toNat) :=
  foldl_feed poly 8 c b.toNat b.toNat_lt

/-- A change of the register goes through a message by itself. -/
theorem reflected_xor (poly c x : Nat) (message : List UInt8) :
    reflected poly (c ^^^ x) message =
    reflected poly c message ^^^ (shift poly)^[8 * message.length] x := by
  induction message generalizing c x with
  | nil => rfl
  | cons b rest ih =>
    rw [reflected_cons, reflected_cons, octet_eq, octet_eq, Nat.xor_right_comm,
      (shift_linear poly).iterate 8, ih,
      ← Function.iterate_add_apply]
    rfl

/-- It is never lost in a register that the polynomial fills. -/
theorem iterate_shift_ne_zero {poly w x : Nat} (large : 2 ^ w ≤ poly) (small : poly < 2 ^ (w + 1))
    (inside : x < 2 ^ (w + 1)) (changed : x ≠ 0) (n : Nat) : (shift poly)^[n] x ≠ 0 := by
  induction n generalizing x with
  | zero => exact changed
  | succ n ih =>
    have step : shift poly x = x / 2 ^^^ if x % 2 = 1 then poly else 0 := by simp [shift, feed,
      Nat.shiftRight_one]
    rw [Function.iterate_succ_apply, step]
    by_cases odd : x % 2 = 1
    · rw [if_pos odd]
      refine ih (Nat.xor_lt_two_pow (by omega) small) fun same => ?_
      rw [Nat.xor_eq_zero_iff] at same
      omega
    · rw [if_neg odd, Nat.xor_zero]
      exact ih (by omega) (by omega)

end Obsidian.Lib.Crc
