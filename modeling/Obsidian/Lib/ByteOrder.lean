import Obsidian.Lib.Bytes

/-!
# Network byte order

Words read with their first octet high, from memories that are written with the first
octet low. What is written in one order and read in the other comes back with its
octets reversed; masks and shifts that reverse them are shown to do so.
-/
namespace Obsidian.Lib.Bytes

/-- The word at `i`, first octet high. -/
def be16 (b : Bytes) (i : Nat) : Nat := (b i).toNat * 256 + (b (i + 1)).toNat

/-- The word with its octets exchanged. -/
def swap16 (v : Nat) : Nat := v % 256 * 256 + v / 256

/-- The double word with its octets reversed. -/
def swap32 (v : Nat) : Nat := swap16 (v % 65536) * 65536 + swap16 (v / 65536)

variable {v : Nat}

theorem swap16_lt (h : v < 65536) : swap16 v < 65536 := by
  unfold swap16
  omega

theorem swap16_swap16 (h : v < 65536) : swap16 (swap16 v) = v := by
  unfold swap16
  omega

section
variable (h : v < 4294967296)
include h

theorem swap32_lt : swap32 v < 4294967296 := by
  have hlow := swap16_lt (Nat.mod_lt v (by decide : 0 < 65536))
  have hhigh := swap16_lt (show v / 65536 < 65536 by omega)
  unfold swap32
  omega

theorem swap32_div : swap32 v / 65536 = swap16 (v % 65536) := by
  have hhigh := swap16_lt (show v / 65536 < 65536 by omega)
  unfold swap32
  omega

theorem swap32_mod : swap32 v % 65536 = swap16 (v / 65536) := by
  have hhigh := swap16_lt (show v / 65536 < 65536 by omega)
  unfold swap32
  omega

theorem swap32_swap32 : swap32 (swap32 v) = v := by
  have hlow : v % 65536 < 65536 := Nat.mod_lt v (by decide)
  have hhigh : v / 65536 < 65536 := by omega
  rw [swap32, swap32_mod h, swap32_div h, swap16_swap16 hlow, swap16_swap16 hhigh]
  omega

end

/-! ## Masks and shifts -/

/-- One octet of a word, left in its place. -/
theorem land_octet (x k : Nat) : x &&& 0xFF <<< (8 * k) = x / 2 ^ (8 * k) % 256 * 2 ^ (8 * k) := by
  have hplace : x / 2 ^ (8 * k) % 256 * 2 ^ (8 * k) = ((x >>> (8 * k)) &&& 0xFF) <<< (8 * k) := by
    rw [Nat.shiftLeft_eq, Nat.shiftRight_eq_div_pow, show (0xFF : Nat) = 2 ^ 8 - 1 from rfl,
      Nat.and_two_pow_sub_one_eq_mod]
  rw [hplace]
  apply Nat.eq_of_testBit_eq
  intro i
  by_cases hi : 8 * k ≤ i
  · simp [hi]
  · simp [hi]

/-- Two octets put together. -/
theorem lor_octet {a b : Nat} (hb : b < 256) : a <<< 8 ||| b = a * 256 + b := by
  rw [← Nat.shiftLeft_add_eq_or_of_lt (by omega : b < 2 ^ 8), Nat.shiftLeft_eq]

/-- Four octets put together. -/
theorem lor_octets {a b c d : Nat} (hb : b < 256) (hc : c < 256) (hd : d < 256) :
    a <<< 24 ||| b <<< 16 ||| c <<< 8 ||| d = a * 16777216 + b * 65536 + c * 256 + d := by
  have hfirst : a <<< 24 ||| b <<< 16 = (a * 256 + b) <<< 16 := by
    rw [← Nat.shiftLeft_add_eq_or_of_lt (by omega)]
    omega
  have hsecond : (a * 256 + b) <<< 16 ||| c <<< 8 = ((a * 256 + b) * 256 + c) <<< 8 := by
    rw [← Nat.shiftLeft_add_eq_or_of_lt (by omega)]
    omega
  rw [hfirst, hsecond, lor_octet hd]
  omega

/-! ## Reading what was written -/

theorem be16_congr {a b : Bytes} {i : Nat} (h : Agree a b i (i + 2)) : be16 a i = be16 b i := by
  simp only [be16, h i (by omega) (by omega), h (i + 1) (by omega) (by omega)]

section
variable (b : Bytes)

theorem be16_get16 (i : Nat) : be16 b i = swap16 (get16 b i) := by
  have h0 := (b i).toNat_lt
  unfold be16 swap16 get16
  omega

theorem be16_put16 (i v : Nat) : be16 (put16 b i v) i = swap16 (v % 65536) := by
  rw [be16_get16, get16_put16]

variable {i j v : Nat}

theorem be16_put16_ne (h : j + 2 ≤ i ∨ i + 2 ≤ j) : be16 (put16 b i v) j = be16 b j :=
  be16_congr (put16_agree _ _ _ _ _ h)

theorem be16_put8_ne (h : j + 2 ≤ i ∨ i + 1 ≤ j) : be16 (put8 b i v) j = be16 b j :=
    be16_congr (put8_agree _ _ _ _ _ h)

theorem be16_put32_ne (h : j + 2 ≤ i ∨ i + 4 ≤ j) : be16 (put32 b i v) j = be16 b j :=
  be16_congr (put32_agree _ _ _ _ _ h)

/-- The two words of a double word. -/
theorem be16_put32 (i v : Nat) : be16 (put32 b i v) i = swap16 (v % 65536) := by
  rw [put32, be16_put16_ne _ (by omega), be16_put16]

theorem be16_put32_high (i v : Nat) : be16 (put32 b i v) (i + 2) = swap16 (v / 65536 % 65536) := by
  rw [put32, be16_put16]

/-- A word of what was copied. -/
theorem be16_copy (i : Nat) (src : Bytes) (start n : Nat) {k : Nat} (h : k + 2 ≤ n) :
    be16 (copy b i src start n) (i + k) = be16 src (start + k) := by
  have hfirst := copy_inside b i src start n k (by omega)
  have hsecond := copy_inside b i src start n (k + 1) (by omega)
  rw [be16, be16, hfirst, Nat.add_assoc, hsecond, Nat.add_assoc]

/-- A word written octet by octet. -/
theorem be16_put8 (i x y : Nat) :
    be16 (put8 (put8 b i x) (i + 1) y) i = x % 256 * 256 + y % 256 := by
  simp [be16, put8]

end

end Obsidian.Lib.Bytes
