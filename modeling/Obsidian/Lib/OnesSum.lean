import Obsidian.Lib.ByteOrder
import Mathlib.Algebra.BigOperators.Group.List.Basic

/-!
# Ones' complement sums of octets

Sixteen-bit words in network order, their sum with the carry added back, and what the
sum says about the octets: it is the ordinary sum modulo 65535, except that only a sum
of zeros is zero. A checksum makes the sum all ones; stored with its octets swapped it
does so only for some sums.
-/
namespace Obsidian.Lib.OnesSum
open Bytes

/-- Addition of sixteen-bit words with the carry added back. -/
def onesAdd (a b : Nat) : Nat := if a + b < 65536 then a + b else a + b - 65535

def onesSum (ws : List Nat) : Nat := ws.foldl onesAdd 0

/-- The words of a list of octets, first octet high; an odd last octet is the high half of a
word of its own. -/
def words : List UInt8 → List Nat
  | [] => []
  | [a] => [a.toNat * 256]
  | a :: b :: rest => (a.toNat * 256 + b.toNat) :: words rest

theorem words_lt (octets : List UInt8) : ∀ x ∈ words octets, x < 65536 := by
  induction octets using words.induct with
  | case1 => exact fun x h => nomatch h
  | case2 a =>
    intro x h
    have ha := a.toNat_lt
    rw [words, List.mem_singleton] at h
    omega
  | case3 a b rest ih =>
    intro x h
    have ha := a.toNat_lt
    have hb := b.toNat_lt
    rw [words, List.mem_cons] at h
    rcases h with h | h
    · omega
    · exact ih x h

theorem words_toList (b : Bytes) (i n : Nat) :
    words (toList b i (n + 2)) = be16 b i :: words (toList b (i + 2) n) := rfl

/-- Lists are cut into words separately after an even number of octets. -/
theorem words_append {xs : List UInt8} (ys : List UInt8) (even : xs.length % 2 = 0) :
    words (xs ++ ys) = words xs ++ words ys := by
  induction xs using words.induct with
  | case1 => rfl
  | case2 a => simp at even
  | case3 a b rest ih =>
    have hrest : rest.length % 2 = 0 := by
      simp only [List.length_cons] at even
      omega
    simp only [List.cons_append, words, ih hrest]

/-- What a sum with carry keeps of the ordinary sum. -/
structure Folds (s r : Nat) : Prop where
  lt : r < 65536
  mod : r % 65535 = s % 65535
  zero : r = 0 ↔ s = 0

variable {r s : Nat} {ws : List Nat}

theorem Folds.add {x : Nat} (folds : Folds s r) (hx : x < 65536) : Folds (s + x) (onesAdd r x) := by
  obtain ⟨hlt, hmod, hzero⟩ := folds
  unfold onesAdd
  split
  · exact ⟨by omega, by omega, by omega⟩
  · exact ⟨by omega, by omega, by omega⟩

theorem foldl_folds (ws : List Nat) (folds : Folds s r) (small : ∀ x ∈ ws, x < 65536) :
    Folds (s + ws.sum) (ws.foldl onesAdd r) := by
  induction ws generalizing s r with
  | nil => exact folds
  | cons x rest ih =>
    rw [List.sum_cons, ← Nat.add_assoc]
    exact ih (folds.add (small x List.mem_cons_self)) fun y hy =>
      small y (List.mem_cons_of_mem x hy)

theorem onesSum_folds (small : ∀ x ∈ ws, x < 65536) : Folds ws.sum (onesSum ws) := by
  have start : Folds 0 0 := ⟨by decide, rfl, Iff.rfl⟩
  have whole := foldl_folds ws start small
  rwa [Nat.zero_add] at whole

/-- The sum is all ones when the ordinary sum is a multiple of 65535 and not zero. -/
theorem onesSum_eq_ones_iff (small : ∀ x ∈ ws, x < 65536) :
    onesSum ws = 65535 ↔ 0 < ws.sum ∧ ws.sum % 65535 = 0 := by
  obtain ⟨hlt, hmod, hzero⟩ := onesSum_folds small
  omega

/-- With the checksum added the sum is all ones. -/
theorem Folds.checksum {r' : Nat} (folds : Folds s r) (whole : Folds (s + (65535 - r)) r') :
    r' = 65535 := by
  obtain ⟨hlt, hmod, hzero⟩ := folds
  obtain ⟨hlt', hmod', hzero'⟩ := whole
  omega

/-- A checksum stored with its octets swapped, over words that sum to `s`, with further words
that sum to `p`. -/
theorem swapped_checksum_iff (folds : Folds s r) (p : Nat) :
    (s + swap16 (65535 - r) + p) % 65535 = 0 ↔ p % 65535 = 255 * s % 65535 := by
  obtain ⟨hlt, hmod, -⟩ := folds
  unfold swap16
  omega

/-- Without further words it is right when the sum is a multiple of 257. -/
theorem swapped_checksum_alone_iff (folds : Folds s r) :
    (s + swap16 (65535 - r)) % 65535 = 0 ↔ s % 257 = 0 := by
  have h := swapped_checksum_iff folds 0
  omega

end Obsidian.Lib.OnesSum
