import Obsidian.Lib.Bytes

/-!
# Bitmaps stored as octets

Bit `i` of a bitmap is bit `i & 7` of octet `i >> 3`. `bitAt`, `setBit` and
`clearBit` are the usual shift and mask expressions; the lemmas say that setting
or clearing one bit changes that bit and nothing else, and that bits determine
octets.
-/
namespace Obsidian.Lib.Bytes

variable {bm a b : Bytes} {i j k : Nat}

def bitAt (bm : Bytes) (i : Nat) : Bool := get8 bm (i >>> 3) &&& 1 <<< (i &&& 7) ≠ 0

def setBit (bm : Bytes) (i : Nat) : Bytes :=
  put8 bm (i >>> 3) (get8 bm (i >>> 3) ||| 1 <<< (i &&& 7))

def clearBit (bm : Bytes) (i : Nat) : Bytes :=
  put8 bm (i >>> 3) (get8 bm (i >>> 3) &&& (255 ^^^ 1 <<< (i &&& 7)))

/-- Set the bits below `n`. -/
def setBits (bm : Bytes) : Nat → Bytes
  | 0 => bm
  | n + 1 => setBit (setBits bm n) n

theorem shift_three (i : Nat) : i >>> 3 = i / 8 := by rw [Nat.shiftRight_eq_div_pow]

theorem mask_seven (i : Nat) : i &&& 7 = i % 8 := Nat.and_two_pow_sub_one_eq_mod i 3

variable (bm : Bytes)

theorem bitAt_eq (i : Nat) : bitAt bm i = (get8 bm (i / 8)).testBit (i % 8) := by
  rw [bitAt, shift_three, mask_seven, Nat.one_shiftLeft, Nat.and_two_pow]
  cases (get8 bm (i / 8)).testBit (i % 8) <;> simp

theorem bitAt_congr (h : a (i / 8) = b (i / 8)) : bitAt a i = bitAt b i := by
  rw [bitAt_eq, bitAt_eq, get8, get8, h]

theorem get8_put8_self (k v : Nat) (h : v < 256) : get8 (put8 bm k v) k = v := by
  rw [get8_put8]
  exact Nat.mod_eq_of_lt h

theorem octet_or_lt (k i : Nat) : get8 bm k ||| 1 <<< (i &&& 7) < 256 := by
  have hbit : 1 <<< (i &&& 7) < 2 ^ 8 := by
    rw [mask_seven, Nat.one_shiftLeft]
    exact Nat.pow_lt_pow_right (by decide) (by omega)
  exact Nat.or_lt_two_pow (get8_lt bm k) hbit

theorem octet_and_lt (k v : Nat) : get8 bm k &&& v < 256 := Nat.lt_of_le_of_lt Nat.and_le_left
    (get8_lt bm k)

theorem testBit_single (i k : Nat) : (1 <<< (i &&& 7)).testBit k = decide (i % 8 = k) := by
  rw [mask_seven, Nat.one_shiftLeft, Nat.testBit_two_pow]

theorem testBit_octet_mask (k : Nat) (h : k < 8) : Nat.testBit 255 k = true := by
  have : (255 : Nat) = 2 ^ 8 - 1 := rfl
  rw [this, Nat.testBit_two_pow_sub_one]
  exact decide_eq_true h

theorem bitAt_setBit (i j : Nat) : bitAt (setBit bm i) j = (decide (j = i) || bitAt bm j) := by
  rw [bitAt_eq, bitAt_eq, setBit, shift_three]
  by_cases same : j / 8 = i / 8
  · rw [same, get8_put8_self _ _ _ (octet_or_lt bm _ i), Nat.testBit_or, testBit_single]
    have hiff : i % 8 = j % 8 ↔ j = i := by omega
    rw [decide_eq_decide.mpr hiff, Bool.or_comm]
  · have hne : j ≠ i := fun h => same (by rw [h])
    rw [get8_put8_ne _ _ _ _ same]
    simp [hne]

theorem bitAt_clearBit (i j : Nat) : bitAt (clearBit bm i) j = (!decide (j = i) && bitAt bm j) := by
  rw [bitAt_eq, bitAt_eq, clearBit, shift_three]
  by_cases same : j / 8 = i / 8
  · rw [same, get8_put8_self _ _ _ (octet_and_lt bm _ _), Nat.testBit_and, Nat.testBit_xor,
      testBit_single, testBit_octet_mask _ (by omega)]
    have hiff : i % 8 = j % 8 ↔ j = i := by omega
    rw [decide_eq_decide.mpr hiff, Bool.and_comm, Bool.true_xor]
  · have hne : j ≠ i := fun h => same (by rw [h])
    rw [get8_put8_ne _ _ _ _ same]
    simp [hne]

theorem bitAt_setBits (n j : Nat) : bitAt (setBits bm n) j = (decide (j < n) || bitAt bm j) := by
  induction n with
  | zero => simp [setBits]
  | succ n ih =>
    rw [setBits, bitAt_setBit, ih, ← Bool.or_assoc, ← Bool.decide_or]
    congr 2
    exact propext (by omega)

/-- Eight equal bits make equal octets. -/
theorem octet_eq_of_bits (h : ∀ j, j < 8 → bitAt a (8 * k + j) = bitAt b (8 * k + j)) :
    a k = b k := by
  have hnat : get8 a k = get8 b k := by
    apply Nat.eq_of_testBit_eq
    intro j
    by_cases hj : j < 8
    · have hbit := h j hj
      rw [bitAt_eq, bitAt_eq] at hbit
      have hk : (8 * k + j) / 8 = k := by omega
      have hm : (8 * k + j) % 8 = j := by omega
      rwa [hk, hm] at hbit
    · have hbig : 2 ^ 8 ≤ 2 ^ j := Nat.pow_le_pow_right (by decide) (by omega)
      rw [Nat.testBit_lt_two_pow (Nat.lt_of_lt_of_le (get8_lt a k) hbig),
        Nat.testBit_lt_two_pow (Nat.lt_of_lt_of_le (get8_lt b k) hbig)]
  exact UInt8.toNat_inj.mp hnat

end Obsidian.Lib.Bytes
