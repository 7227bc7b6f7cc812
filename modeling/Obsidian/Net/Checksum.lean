import Obsidian.Net.Stack
import Obsidian.Lib.OnesSum

/-!
# What `inet_csum` computes

The checksum is the complement of the ones' complement sum of the pseudo header and the
data, both read in network order. The byte swaps of the stack reverse the octets of
their words.
-/
namespace Obsidian.Net
open Lib Lib.Bytes Lib.OnesSum

variable {k len plen x : Nat}

theorem bswap16_eq (h : x < 65536) : bswap16 x = swap16 x := by
  have hlow : x &&& 0xFF = x % 256 := Nat.and_two_pow_sub_one_eq_mod x 8
  rw [bswap16, hlow, Nat.shiftRight_eq_div_pow, lor_octet (by omega), swap16, u16_of_lt (by omega)]

theorem bswap32_eq (h : x < 4294967296) : bswap32 x = swap32 x := by
  have hlow : x &&& 0xFF = x % 256 := Nat.and_two_pow_sub_one_eq_mod x 8
  have hsecond : (x &&& 0xFF00) <<< 8 = (x / 256 % 256) <<< 16 := by
    rw [show (0xFF00 : Nat) = 0xFF <<< (8 * 1) from rfl, land_octet]
    omega
  have hthird : x >>> 8 &&& 0xFF00 = (x / 65536 % 256) <<< 8 := by
    rw [show (0xFF00 : Nat) = 0xFF <<< (8 * 1) from rfl, land_octet]
    omega
  have hlast : x >>> 24 &&& 0xFF = x / 16777216 := by
    rw [show (0xFF : Nat) = 2 ^ 8 - 1 from rfl, Nat.and_two_pow_sub_one_eq_mod]
    omega
  rw [bswap32, hsecond, hthird, lor_octets (by omega) (by omega) (by omega)]
  unfold swap32 swap16
  omega

/-- The loop over pairs adds the words to the sum, as long as it does not overflow. -/
theorem addPairs_eq (b : Bytes) (more i sum : Nat)
    (small : sum + (words (toList b i (2 * more))).sum < 4294967296) :
    addPairs b more i sum = sum + (words (toList b i (2 * more))).sum := by
  induction more generalizing i sum with
  | zero => rfl
  | succ more ih =>
    have hword : (b i).toNat <<< 8 ||| (b (i + 1)).toNat = be16 b i := by
      rw [lor_octet (b (i + 1)).toNat_lt, be16]
    rw [show 2 * (more + 1) = 2 * more + 2 by omega, words_toList, List.sum_cons] at small ⊢
    rw [addPairs, u32_of_lt (by omega), ih (i + 2) _ (by omega)]
    omega

theorem words_sum_le (octets : List UInt8) :
    2 * (words octets).sum ≤ 65535 * (octets.length + 1) := by
  induction octets using words.induct with
  | case1 => simp [words]
  | case2 a =>
    have ha := a.toNat_lt
    simp only [words, List.sum_cons, List.sum_nil, List.length_cons, List.length_nil]
    omega
  | case3 a b rest ih =>
    have ha := a.toNat_lt
    have hb := b.toNat_lt
    simp only [words, List.sum_cons, List.length_cons]
    omega

theorem foldCarry_folds (n : Nat) {s : Nat}
    (small : s < 65536 ∨ s < 131071 ∧ 1 ≤ n ∨ s < 4294967296 ∧ 2 ≤ n) :
    Folds s (foldCarry n s) := by
  induction n generalizing s with
  | zero =>
    have hs : s < 65536 := by omega
    exact ⟨hs, rfl, Iff.rfl⟩
  | succ n ih =>
    have hlow : s &&& 0xFFFF = s % 65536 := Nat.and_two_pow_sub_one_eq_mod s 16
    have hhigh : s >>> 16 = s / 65536 := Nat.shiftRight_eq_div_pow s 16
    rw [foldCarry, hlow, hhigh]
    by_cases carry : s / 65536 ≠ 0
    · rw [if_pos carry]
      have hnext : s % 65536 + s / 65536 < 65536 ∨ s % 65536 + s / 65536 < 131071 ∧ 1 ≤ n ∨
          s % 65536 + s / 65536 < 4294967296 ∧ 2 ≤ n := by omega
      obtain ⟨hlt, hmod, hzero⟩ := ih hnext
      exact ⟨hlt, by omega, by omega⟩
    · rw [if_neg carry]
      exact ⟨by omega, rfl, Iff.rfl⟩

theorem words_toList_odd (b : Bytes) (i n : Nat) :
    (words (toList b i (2 * n + 1))).sum =
    (words (toList b i (2 * n))).sum + (b (i + 2 * n)).toNat * 256 := by
  rw [toList_append, words_append _ (by simp)]
  simp [toList, words]

theorem inetCsum_folds (data pseudo : Bytes) (hlen : len < 65536) (hplen : plen < 65536) :
    ∃ r, inetCsum data len pseudo plen = 65535 - r ∧
      Folds ((words (toList pseudo 0 (2 * (plen / 2)))).sum + (words (toList data 0 len)).sum)
      r := by
  have hp := words_sum_le (toList pseudo 0 (2 * (plen / 2)))
  have hd := words_sum_le (toList data 0 len)
  rw [toList_length] at hp hd
  generalize hs : (words (toList pseudo 0 (2 * (plen / 2)))).sum + (words (toList data 0 len)).sum =
    s
  have hsmall : s < 4294967296 := by omega
  have folds := foldCarry_folds 32 (s := s) (Or.inr (Or.inr ⟨hsmall, by decide⟩))
  refine ⟨foldCarry 32 s, ?_, folds⟩
  have hpseudo : addPairs pseudo (plen / 2) 0 0 =
      (words (toList pseudo 0 (2 * (plen / 2)))).sum := by
    rw [addPairs_eq _ _ _ _ (by omega), Nat.zero_add]
  have heven : (if len % 2 = 1 then
      u32 (addPairs data (len / 2) 0 (addPairs pseudo (plen / 2) 0 0) + (data (len - 1)).toNat <<<
        8)
      else addPairs data (len / 2) 0 (addPairs pseudo (plen / 2) 0 0)) = s := by
    by_cases odd : len % 2 = 1
    · have hsplit := words_toList_odd data 0 (len / 2)
      rw [show 2 * (len / 2) + 1 =
        len by omega, show 0 + 2 * (len / 2) = len - 1 by omega] at hsplit
      rw [if_pos odd, addPairs_eq _ _ _ _ (by omega), u32_of_lt (by omega)]
      omega
    · have hwhole : 2 * (len / 2) = len := by omega
      rw [if_neg odd, hpseudo, addPairs_eq _ _ _ _ (by rw [hwhole]; omega), hwhole]
      exact hs
  unfold inetCsum
  dsimp only
  rw [heven, Nat.mod_eq_of_lt folds.lt]

theorem words_stored {b : Bytes} {c : Nat} (even : k % 2 = 0) (inside : k + 1 < len)
    (high : b k = 0) (low : b (k + 1) = 0) (hc : c < 65536) :
    (words (toList (put8 (put8 b k (c >>> 8)) (k + 1) c) 0 len)).sum =
    (words (toList b 0 len)).sum + c := by
  obtain ⟨rest, rfl⟩ : ∃ rest, len = k + (rest + 2) := ⟨len - k - 2, by omega⟩
  have front : toList (put8 (put8 b k (c >>> 8)) (k + 1) c) 0 k = toList b 0 k := by
    apply toList_congr
    intro i hi
    rw [put8, if_neg (by omega), put8, if_neg (by omega)]
  have behind : toList (put8 (put8 b k (c >>> 8)) (k + 1) c) (k + 2) rest =
      toList b (k + 2) rest := by
    apply toList_congr
    intro i _
    rw [put8, if_neg (by omega), put8, if_neg (by omega)]
  have blank : be16 b k = 0 := by rw [be16, high, low]; rfl
  have field : be16 (put8 (put8 b k (c >>> 8)) (k + 1) c) k = c := by
    rw [be16_put8]
    omega
  have even' : (toList b 0 k).length % 2 = 0 := by rw [toList_length, even]
  rw [toList_append, toList_append b, front, words_append _ even', words_append _ even',
    Nat.zero_add, words_toList,
    words_toList, behind]
  simp only [List.sum_append, List.sum_cons]
  omega

/-- A checksum stored in a zero field at an even offset makes the checksum zero. -/
theorem inetCsum_stored (data pseudo : Bytes) (short : len < 65536) (hplen : plen < 65536)
    (even : k % 2 = 0) (inside : k + 1 < len) (high : data k = 0) (low : data (k + 1) = 0) :
    let c := inetCsum data len pseudo plen
    inetCsum (put8 (put8 data k (c >>> 8)) (k + 1) c) len pseudo plen = 0 := by
  intro c
  obtain ⟨r, blank, folds⟩ := inetCsum_folds data pseudo short hplen
  obtain ⟨r', stored, whole⟩ :=
    inetCsum_folds (put8 (put8 data k (c >>> 8)) (k + 1) c) pseudo short hplen
  rw [words_stored even inside high low (by omega), ← Nat.add_assoc, show c =
    65535 - r from blank] at whole
  rw [stored, folds.checksum whole]

/-- For all data and every pseudo header: with the checksum stored in a zero field at an even offset
the checksum is zero; the sum never wraps, neither between the words nor with an odd last octet, and
two rounds add its carry back. -/
theorem inet_csum_self_verifies (data pseudo : Bytes) {len plen k : Nat} (short : len < 65536)
    (hplen : plen < 65536) (even : k % 2 = 0) (inside : k + 1 < len) (high : data k = 0)
    (low : data (k + 1) = 0) :
    let c := inetCsum data len pseudo plen
    inetCsum (put8 (put8 data k (c >>> 8)) (k + 1) c) len pseudo plen = 0 ∧
      (∀ b : Bytes, (∀ i ≤ plen / 2, ∀ j ≤ len / 2, addPairs b j 0 (addPairs pseudo i 0 0) =
          (words (toList pseudo 0 (2 * i))).sum + (words (toList b 0 (2 * j))).sum) ∧
        (words (toList pseudo 0 plen)).sum + (words (toList b 0 len)).sum < 4294967296) ∧
      ∀ sum < 4294967296, foldCarry 2 sum < 65536 := by
  refine ⟨inetCsum_stored data pseudo short hplen even inside high low, fun b => ?_,
    fun sum small => ?_⟩
  · have bound : ∀ i ≤ plen, ∀ j ≤ len,
        (words (toList pseudo 0 i)).sum + (words (toList b 0 j)).sum < 4294967296 := by
      intro i hi j hj
      have hp := words_sum_le (toList pseudo 0 i)
      have hb := words_sum_le (toList b 0 j)
      rw [toList_length] at hp hb
      omega
    refine ⟨fun i hi j hj => ?_, bound plen (Nat.le_refl _) len (Nat.le_refl _)⟩
    have small := bound (2 * i) (by omega) (2 * j) (by omega)
    have first := addPairs_eq pseudo i 0 0 (by omega)
    rw [Nat.zero_add] at first
    rw [first, addPairs_eq b j 0 _ small]
  · exact (foldCarry_folds 2 (Or.inr (Or.inr ⟨small, Nat.le_refl 2⟩))).lt

/-- Three octets with the field in front. -/
theorem inet_csum_self_verifies_three :
    inetCsum (put8 (put8 (put8 zero 2 7) 0 0xF8) 1 0xFF) 3 zero 0 = 0 :=
  (inet_csum_self_verifies (put8 zero 2 7) zero (by decide) (by decide)
    (rfl) (by decide) rfl rfl).1

end Obsidian.Net
