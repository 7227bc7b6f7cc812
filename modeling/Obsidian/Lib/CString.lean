import Obsidian.Lib.Bytes

/-!
# C strings

A string in memory ends at its first zero octet. As a value it is the list of
octets before it, which holds no zero. `strcmp` compares a string in memory with
such a value the way the C loop does, octet by octet.
-/
namespace Obsidian.Lib
open Bytes

/-- A C string without its terminator. -/
abbrev CStr : Type := { s : List UInt8 // (0 : UInt8) ∉ s }

namespace CStr

/-- The string in memory from `i` on, cut off after `n` octets. -/
def read (b : Bytes) (i : Nat) : Nat → List UInt8
  | 0 => []
  | n + 1 => if b i = 0 then [] else b i :: read b (i + 1) n

/-- `while (*a && *a == *b) { a++; b++; } return *a - *b`, with `b` given as a value. -/
def strcmp (a : Bytes) (i : Nat) : List UInt8 → Int
  | [] => ((a i).toNat : Int)
  | c :: rest =>
    if a i ≠ 0 ∧ a i = c then strcmp a (i + 1) rest else ((a i).toNat : Int) - (c.toNat : Int)

/-- `k_strncmp` against the octets of a literal that are compared. -/
def strncmp (a : Bytes) (i : Nat) : List UInt8 → Int
  | [] => 0
  | c :: rest =>
    if a i ≠ c then ((a i).toNat : Int) - (c.toNat : Int) else if a i =
      0 then 0 else strncmp a (i + 1) rest

variable {a b : Bytes} {i n : Nat} {s : List UInt8} {j k : Nat} {c : UInt8} {rest : List UInt8}

/-- A terminator inside the octets bounds the string. -/
theorem read_length_of_zero (hk : k < n) (zero : b (i + k) = 0) : (read b i n).length ≤ k := by
  induction n generalizing i k with
  | zero => omega
  | succ n ih =>
    rw [read]
    split
    · exact Nat.zero_le _
    next going =>
      cases k with
      | zero => exact absurd zero going
      | succ k =>
        rw [List.length_cons]
        exact Nat.succ_le_succ (ih (by omega) (by rwa [show i + 1 + k = i + (k + 1) by omega]))

/-- A string that is not cut off ends at a terminator. -/
theorem read_terminated (short : (read b i n).length < n) : b (i + (read b i n).length) = 0 := by
  induction n generalizing i with
  | zero => omega
  | succ n ih =>
    rw [read] at short ⊢
    split
    next ended => exact ended
    next going =>
      rw [if_neg going, List.length_cons] at short
      have rest := ih (show (read b (i + 1) n).length < n by omega)
      rwa [List.length_cons, show i + ((read b (i + 1) n).length + 1) =
        i + 1 + (read b (i + 1) n).length by omega]

/-- What follows a terminator does not matter. -/
theorem read_eq_of_zero {n' : Nat} (zero : b (i + k) = 0) (hk : k < n) (hk' : k < n') :
    read b i n = read b i n' := by
  induction k generalizing i n n' with
  | zero =>
    obtain ⟨n, rfl⟩ := Nat.exists_eq_succ_of_ne_zero (Nat.ne_of_gt hk)
    obtain ⟨n', rfl⟩ := Nat.exists_eq_succ_of_ne_zero (Nat.ne_of_gt hk')
    rw [Nat.add_zero] at zero
    rw [read, read, if_pos zero, if_pos zero]
  | succ k ih =>
    obtain ⟨n, rfl⟩ := Nat.exists_eq_succ_of_ne_zero (show n ≠ 0 by omega)
    obtain ⟨n', rfl⟩ := Nat.exists_eq_succ_of_ne_zero (show n' ≠ 0 by omega)
    have rest : read b (i + 1) n = read b (i + 1) n' :=
      ih (by rwa [show i + 1 + k = i + (k + 1) by omega]) (by omega) (by omega)
    rw [read, read, rest]

/-- Memory holds a string and its terminator. -/
structure Spelled (b : Bytes) (i : Nat) (s : List UInt8) : Prop where
  clean : (0 : UInt8) ∉ s
  text : ∀ k, k ≤ s.length → b (i + k) = s.getD k 0

theorem Spelled.nil (spelled : Spelled b i []) : b i = 0 := spelled.text 0 (Nat.le_refl 0)

theorem Spelled.cons (spelled : Spelled b i (c :: rest)) :
    b i = c ∧ c ≠ 0 ∧ Spelled b (i + 1) rest := by
  have clean := spelled.clean
  rw [List.mem_cons, not_or] at clean
  refine ⟨spelled.text 0 (Nat.zero_le _), Ne.symm clean.1, clean.2, fun k hk => ?_⟩
  have next := spelled.text (k + 1) (by rw [List.length_cons]; omega)
  rwa [show i + (k + 1) = i + 1 + k by omega] at next

/-- What is read of a string spelled in memory when it is cut off. -/
theorem Spelled.read_take (spelled : Spelled b i s) (n : Nat) : read b i n = s.take n := by
  induction n generalizing i s with
  | zero => rw [List.take_zero, read]
  | succ n ih =>
    cases s with
    | nil => exact if_pos spelled.nil
    | cons c rest =>
      obtain ⟨first, nonzero, tail⟩ := spelled.cons
      rw [read, first, if_neg nonzero, ih tail, List.take_succ_cons]

/-- Memory that spells a string and its terminator reads as that string. -/
theorem Spelled.read (spelled : Spelled b i s) (short : s.length < n) : read b i n = s := by
  rw [spelled.read_take, List.take_of_length_le (Nat.le_of_lt short)]

/-- `strcmp` tells the strings apart. -/
theorem strcmp_eq_zero (clean : (0 : UInt8) ∉ s) (short : s.length < n) :
    strcmp a i s = 0 ↔ read a i n = s := by
  induction s generalizing i n with
  | nil =>
    obtain ⟨n, rfl⟩ := Nat.exists_eq_succ_of_ne_zero (Nat.ne_of_gt short)
    rw [strcmp, read]
    have hzero : ((a i).toNat : Int) = 0 ↔ a i = 0 := by
      rw [Int.natCast_eq_zero]
      exact ⟨fun h => UInt8.toNat_inj.mp h, fun h => by rw [h]; rfl⟩
    rw [hzero]
    split
    next ended => exact ⟨fun _ => rfl, fun _ => ended⟩
    next going => exact ⟨fun h => absurd h going, fun h => nomatch h⟩
  | cons c rest ih =>
    obtain ⟨n, rfl⟩ := Nat.exists_eq_succ_of_ne_zero (show n ≠ 0 by omega)
    rw [List.mem_cons, not_or] at clean
    rw [List.length_cons] at short
    rw [strcmp, read]
    by_cases same : a i = c
    · have going : a i ≠ 0 := same ▸ Ne.symm clean.1
      rw [if_pos ⟨going, same⟩, if_neg going, ih clean.2 (show rest.length < n by omega), same,
        List.cons.injEq]
      exact ⟨fun h => ⟨rfl, h⟩, fun h => h.2⟩
    · have differ : ((a i).toNat : Int) - (c.toNat : Int) ≠ 0 := by
        intro h
        exact same (UInt8.toNat_inj.mp (by omega))
      rw [if_neg fun h => same h.2]
      refine ⟨fun h => absurd h differ, fun h => ?_⟩
      split at h
      · cases h
      · exact absurd (List.cons.inj h).1 same

/-- `strcmp` looks no further than the terminator of the literal. -/
theorem strcmp_congr (same : ∀ k, k ≤ s.length → a (i + k) = b (j + k)) :
    strcmp a i s = strcmp b j s := by
  induction s generalizing i j with
  | nil =>
    have first := same 0 (Nat.le_refl 0)
    rw [Nat.add_zero, Nat.add_zero] at first
    rw [strcmp, strcmp, first]
  | cons c rest ih =>
    have first := same 0 (Nat.zero_le _)
    rw [Nat.add_zero, Nat.add_zero] at first
    have tail : strcmp a (i + 1) rest = strcmp b (j + 1) rest := by
      apply ih
      intro k hk
      have := same (k + 1) (by rw [List.length_cons]; omega)
      rwa [show i + (k + 1) = i + 1 + k by omega, show j + (k + 1) = j + 1 + k by omega] at this
    rw [strcmp, strcmp, first, tail]

theorem strncmp_congr (same : ∀ k, k < s.length → a (i + k) = b (j + k)) :
    strncmp a i s = strncmp b j s := by
  induction s generalizing i j with
  | nil => rfl
  | cons c rest ih =>
    have first := same 0 (Nat.zero_lt_succ _)
    rw [Nat.add_zero, Nat.add_zero] at first
    have tail : strncmp a (i + 1) rest = strncmp b (j + 1) rest := by
      apply ih
      intro k hk
      have := same (k + 1) (by rw [List.length_cons]; omega)
      rwa [show i + (k + 1) = i + 1 + k by omega, show j + (k + 1) = j + 1 + k by omega] at this
    rw [strncmp, strncmp, first, tail]

/-- The first octets of equal strings are equal. -/
theorem strcmp_first (equal : strcmp a i (c :: rest) = 0) : a i = c := by
  rw [strcmp] at equal
  split at equal
  next both => exact both.2
  next _ =>
    apply UInt8.toNat_inj.mp
    omega

theorem strncmp_first (equal : strncmp a i (c :: rest) = 0) : a i = c := by
  rw [strncmp] at equal
  split at equal
  next _ =>
    apply UInt8.toNat_inj.mp
    omega
  next same => exact Decidable.not_not.mp same

/-- `k_strncmp` with the length of the literal looks for it at the start. -/
theorem strncmp_eq_zero (clean : (0 : UInt8) ∉ s) (short : s.length ≤ n) :
    strncmp a i s = 0 ↔ s.isPrefixOf (read a i n) = true := by
  induction s generalizing i n with
  | nil => simp [strncmp]
  | cons c rest ih =>
    obtain ⟨n, rfl⟩ := Nat.exists_eq_succ_of_ne_zero (show n ≠ 0 by rintro rfl; simp at short)
    rw [List.mem_cons, not_or] at clean
    rw [List.length_cons] at short
    rw [strncmp, read]
    by_cases same : a i = c
    · have going : a i ≠ 0 := same ▸ Ne.symm clean.1
      rw [if_neg (not_not.mpr same), if_neg going, if_neg going,
        ih clean.2 (show rest.length ≤ n by omega)]
      simp [same]
    · have differ : ((a i).toNat : Int) - (c.toNat : Int) ≠ 0 := by
        intro h
        exact same (UInt8.toNat_inj.mp (by omega))
      rw [if_pos same]
      refine iff_of_false differ ?_
      split
      · simp
      · simp [Ne.symm same]

end CStr
end Obsidian.Lib
