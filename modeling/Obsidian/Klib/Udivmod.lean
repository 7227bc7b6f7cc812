import Obsidian.Lib.Bytes

/-!
# Division of 64-bit numbers

Source: lib/udivmod64.c. After `n` rounds the remainder is that of the first `n` bits of the
dividend, so that the shift of the next round loses no bit.
-/
namespace Obsidian.Klib
open Lib

/-- The quotient and the remainder after `n` rounds of the loop, which takes bit 63 first. -/
def divRounds (num den : Nat) : Nat → Nat × Nat
  | 0 => (0, 0)
  | n + 1 =>
    let (quot, rem) := divRounds num den n
    let i := 63 - n
    let rem := u64 (rem <<< 1) ||| (num >>> i &&& 1)
    if den ≤ rem then (quot ||| u64 (1 <<< i), rem - den) else (quot, rem)

/-- The return value and what is stored to `rem_out`. -/
def udivmoddi4 (num den : Nat) : Nat × Nat := if den = 0 then (0, 0) else divRounds num den 64

theorem shift_lor_bit (r : Nat) {b : Nat} (bit : b < 2) : r <<< 1 ||| b = 2 * r + b := by
  rw [← Nat.shiftLeft_add_eq_or_of_lt (show b < 2 ^ 1 from bit), Nat.shiftLeft_eq, Nat.mul_comm]

theorem divMod_bit {m den b : Nat} (pos : 0 < den) (bit : b < 2) :
    (2 * m + b) / den = 2 * (m / den) + (if den ≤ 2 * (m % den) + b then 1 else 0) ∧
      (2 * m + b) % den = if den ≤ 2 * (m % den) + b then 2 * (m % den) + b - den else 2 *
      (m % den) + b := by
  have split := Nat.mod_add_div m den
  have below := Nat.mod_lt m pos
  rw [Nat.div_mod_unique pos]
  split
  · rw [Nat.mul_add, Nat.mul_left_comm]
    omega
  · rw [Nat.add_zero, Nat.mul_left_comm]
    omega

theorem divRounds_eq {num den n : Nat} (wide : num < 2 ^ 64) (pos : 0 < den) (hn : n ≤ 64) :
    divRounds num den n = (num / 2 ^ (64 - n) / den * 2 ^ (64 - n), num / 2 ^ (64 - n) % den) := by
  induction n with
  | zero => rw [Nat.sub_zero, Nat.div_eq_of_lt wide, Nat.zero_div, Nat.zero_mul, Nat.zero_mod,
      divRounds]
  | succ n ih =>
    have before := ih (by omega)
    rw [show 64 - n = 63 - n + 1 by omega] at before
    rw [divRounds, before, show 64 - (n + 1) = 63 - n by omega]
    dsimp only
    have hbit : num >>> (63 - n) &&& 1 = num / 2 ^ (63 - n) % 2 := by
      rw [Nat.shiftRight_eq_div_pow, Nat.and_one_is_mod]
    have hplace : u64 (1 <<< (63 - n)) = 2 ^ (63 - n) := by
      rw [Nat.one_shiftLeft]
      exact u64_of_lt (Nat.lt_of_le_of_lt (Nat.pow_le_pow_right (by decide) (Nat.sub_le 63 n))
        (by decide))
    have hhalf : num / 2 ^ (63 - n + 1) = num / 2 ^ (63 - n) / 2 := by rw [Nat.pow_succ,
      Nat.div_div_eq_div_mul]
    have small := Nat.div_le_self num (2 ^ (63 - n))
    rw [hbit, hplace, hhalf, Nat.pow_succ]
    generalize num / 2 ^ (63 - n) = m at *
    obtain ⟨hdiv, hmod⟩ := divMod_bit pos (show m % 2 < 2 by omega) (m := m / 2)
    rw [show 2 * (m / 2) + m % 2 = m by omega] at hdiv hmod
    have hrem : u64 ((m / 2 % den) <<< 1) ||| m % 2 = 2 * (m / 2 % den) + m % 2 := by
      have := Nat.mod_le (m / 2) den
      rw [u64_of_lt (by rw [Nat.shiftLeft_eq]; omega), shift_lor_bit _ (by omega)]
    rw [hrem, hdiv, hmod]
    split
    · have hquot : m / 2 / den * (2 ^ (63 - n) * 2) ||| 2 ^ (63 - n) = (2 * (m / 2 / den) + 1) *
          2 ^ (63 - n) := by
        rw [← shift_lor_bit _ (by decide), ← Nat.shiftLeft_eq _ (63 - n), Nat.shiftLeft_or_distrib,
          Nat.one_shiftLeft,
          Nat.shiftLeft_eq, Nat.shiftLeft_eq, Nat.pow_one, Nat.mul_assoc, Nat.mul_comm 2]
      rw [hquot]
    · rw [Nat.add_zero, Nat.mul_comm (2 ^ (63 - n)) 2, ← Nat.mul_assoc, Nat.mul_comm _ 2]

/-- For every dividend of 64 bits and every divisor but zero: the quotient and the remainder are
exact, and the remainder has 63 bits wherever it is shifted. -/
theorem udivmoddi4_exact {num den : Nat} (wide : num < 2 ^ 64) (pos : den ≠ 0) :
    udivmoddi4 num den = (num / den, num % den) ∧ ∀ n < 64, (divRounds num den n).2 < 2 ^ 63 := by
  have hpos := Nat.pos_of_ne_zero pos
  constructor
  · rw [udivmoddi4, if_neg pos, divRounds_eq wide hpos (Nat.le_refl 64), Nat.sub_self, Nat.pow_zero,
      Nat.div_one,
      Nat.mul_one]
  · intro n hn
    have half : num / 2 ^ (64 - n) ≤ num / 2 :=
      Nat.div_le_div_left (Nat.le_self_pow (by omega) 2) (by decide)
    rw [divRounds_eq wide hpos (by omega)]
    have := Nat.mod_le (num / 2 ^ (64 - n)) den
    show num / 2 ^ (64 - n) % den < 2 ^ 63
    omega

theorem udivmoddi4_exact_large : udivmoddi4 (2 ^ 64 - 1) (2 ^ 63 + 1) = (1, 2 ^ 63 - 2) :=
  (udivmoddi4_exact (by decide) (by decide)).1

end Obsidian.Klib
