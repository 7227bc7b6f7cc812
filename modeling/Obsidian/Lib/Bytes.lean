import Mathlib.Data.Nat.Bitwise

/-!
# Byte memories and little-endian words

A memory is a total function from byte addresses to octets. Buffers, whole
devices and heap regions are all memories; the length of a buffer is carried by
its user. Words are read and written little endian, octet by octet, so that two
words which share octets really do alias. Frame facts are stated as agreement
on an address interval.
-/
namespace Obsidian.Lib

abbrev Bytes := Nat → UInt8

namespace Bytes

def zero : Bytes := fun _ => 0

def get8 (b : Bytes) (i : Nat) : Nat := (b i).toNat

def get16 (b : Bytes) (i : Nat) : Nat := (b i).toNat + 256 * (b (i + 1)).toNat

def get32 (b : Bytes) (i : Nat) : Nat := get16 b i + 65536 * get16 b (i + 2)

def get64 (b : Bytes) (i : Nat) : Nat := get32 b i + 4294967296 * get32 b (i + 4)

/-- Big-endian word, as the journal blocks store it. -/
def getBE32 (b : Bytes) (i : Nat) : Nat :=
  (b i).toNat * 16777216 + (b (i + 1)).toNat * 65536 + (b (i + 2)).toNat * 256 + (b (i + 3)).toNat

def put8 (b : Bytes) (i v : Nat) : Bytes := fun j => if j = i then UInt8.ofNat v else b j

def put16 (b : Bytes) (i v : Nat) : Bytes := put8 (put8 b i v) (i + 1) (v / 256)

def put32 (b : Bytes) (i v : Nat) : Bytes := put16 (put16 b i v) (i + 2) (v / 65536)

def put64 (b : Bytes) (i v : Nat) : Bytes := put32 (put32 b i v) (i + 4) (v / 4294967296)

/-- `memset`: `n` octets from `i` on. -/
def fill (b : Bytes) (i n : Nat) (v : UInt8) : Bytes :=
  fun j => if i ≤ j ∧ j < i + n then v else b j

/-- `memcpy`: `n` octets of `src` from `from` on, to `b` from `i` on. -/
def copy (b : Bytes) (i : Nat) (src : Bytes) (start n : Nat) : Bytes :=
  fun j => if i ≤ j ∧ j < i + n then src (start + (j - i)) else b j

/-- The `n` octets from `start` on, as a buffer of their own. -/
def slice (b : Bytes) (start n : Nat) : Bytes := copy zero 0 b start n

/-- The octets from `start` on, as a list. -/
def toList (b : Bytes) (start : Nat) : Nat → List UInt8
  | 0 => []
  | n + 1 => b start :: toList b (start + 1) n

/-- The octets of a list, to `b` from `i` on. -/
def ofList (b : Bytes) (i : Nat) : List UInt8 → Bytes
  | [] => b
  | v :: rest => fun j => if j = i then v else ofList b (i + 1) rest j

/-- The two memories hold the same octets on `[lo, hi)`. -/
def Agree (a b : Bytes) (lo hi : Nat) : Prop := ∀ i, lo ≤ i → i < hi → a i = b i

theorem Agree.refl (a : Bytes) (lo hi : Nat) : Agree a a lo hi := fun _ _ _ => rfl

variable {a b c : Bytes} {hi i j k lo m n start : Nat} {xs : List UInt8}

theorem Agree.trans (h : Agree a b lo hi) (k : Agree b c lo hi) :
    Agree a c lo hi := fun i hlo hhi => (h i hlo hhi).trans (k i hlo hhi)

variable {a b : Bytes} {i : Nat}

theorem Agree.mono {lo' hi' : Nat} (h : Agree a b lo hi) (hlo : lo ≤ lo') (hhi : hi' ≤ hi) :
    Agree a b lo' hi' :=
  fun i h1 h2 => h i (Nat.le_trans hlo h1) (Nat.lt_of_lt_of_le h2 hhi)

/-- The two memories hold the same octets outside `[lo, hi)`. -/
def SameOutside (a b : Bytes) (lo hi : Nat) : Prop := ∀ i, i < lo ∨ hi ≤ i → a i = b i

theorem SameOutside.refl (a : Bytes) (lo hi : Nat) : SameOutside a a lo hi := fun _ _ => rfl

theorem SameOutside.trans (h : SameOutside a b lo hi) (k : SameOutside b c lo hi) :
    SameOutside a c lo hi := fun i out => (h i out).trans (k i out)

/-! ## Bounds of the words read -/

theorem get8_lt (b : Bytes) (i : Nat) : get8 b i < 256 := (b i).toNat_lt

theorem get16_lt (b : Bytes) (i : Nat) : get16 b i < 65536 := by
  have h0 := (b i).toNat_lt
  have h1 := (b (i + 1)).toNat_lt
  unfold get16
  omega

theorem octet_of_get16_eq_zero (h : get16 b i = 0) : b i = 0 := by
  unfold get16 at h
  have hzero : (b i).toNat = 0 := by omega
  exact UInt8.toNat_inj.mp hzero

theorem get32_lt (b : Bytes) (i : Nat) : get32 b i < 4294967296 := by
  have h0 := get16_lt b i
  have h1 := get16_lt b (i + 2)
  unfold get32
  omega

theorem getBE32_lt (b : Bytes) (i : Nat) : getBE32 b i < 4294967296 := by
  have h0 := (b i).toNat_lt
  have h1 := (b (i + 1)).toNat_lt
  have h2 := (b (i + 2)).toNat_lt
  have h3 := (b (i + 3)).toNat_lt
  unfold getBE32
  omega

/-! ## Reading through agreement -/

theorem get8_congr (h : Agree a b i (i + 1)) : get8 a i = get8 b i := by
  simp only [get8, h i (Nat.le_refl _) (Nat.lt_succ_self _)]

theorem get16_congr (h : Agree a b i (i + 2)) : get16 a i = get16 b i := by
  simp only [get16, h i (by omega) (by omega), h (i + 1) (by omega) (by omega)]

theorem get32_congr (h : Agree a b i (i + 4)) : get32 a i = get32 b i := by
  simp only [get32, get16_congr (h.mono (Nat.le_refl _) (by omega) : Agree a b i (i + 2)),
    get16_congr (h.mono (by omega) (by omega) : Agree a b (i + 2) (i + 2 + 2))]

/-! ## Frames of the writes -/

section
variable (b : Bytes)

theorem put8_agree (i v lo hi : Nat) (h : hi ≤ i ∨ i + 1 ≤ lo) : Agree (put8 b i v) b lo hi := by
  intro j hlo hhi
  have hj : j ≠ i := by omega
  simp only [put8, if_neg hj]

theorem put16_agree (i v lo hi : Nat) (h : hi ≤ i ∨ i + 2 ≤ lo) : Agree (put16 b i v) b lo hi :=
  (put8_agree _ _ _ lo hi (by omega)).trans (put8_agree _ _ _ lo hi (by omega))

theorem put16_sameOutside (v : Nat) {i lo hi : Nat} (hlo : lo ≤ i) (hhi : i + 2 ≤ hi) :
    SameOutside (put16 b i v) b lo hi :=
  fun j out => put16_agree b i v j (j + 1) (by omega) j (Nat.le_refl _) (Nat.lt_succ_self _)

theorem put16_put16_sameOutside (u v : Nat) {i j lo hi : Nat} (first : lo ≤ i ∧ i + 2 ≤ hi)
    (second : lo ≤ j ∧ j + 2 ≤ hi) : SameOutside (put16 (put16 b i u) j v) b lo hi :=
  (put16_sameOutside _ v second.1 second.2).trans (put16_sameOutside b u first.1 first.2)

theorem put32_agree (i v lo hi : Nat) (h : hi ≤ i ∨ i + 4 ≤ lo) : Agree (put32 b i v) b lo hi :=
  (put16_agree _ _ _ lo hi (by omega)).trans (put16_agree _ _ _ lo hi (by omega))

theorem put64_agree (i v lo hi : Nat) (h : hi ≤ i ∨ i + 8 ≤ lo) : Agree (put64 b i v) b lo hi :=
  (put32_agree _ _ _ lo hi (by omega)).trans (put32_agree _ _ _ lo hi (by omega))

theorem fill_outside (v : UInt8) {start n i : Nat} (h : i < start ∨ start + n ≤ i) :
    fill b start n v i = b i := by
  have hout : ¬ (start ≤ i ∧ i < start + n) := by omega
  simp only [fill, if_neg hout]

theorem copy_agree (i : Nat) (src : Bytes) (start n lo hi : Nat) (h : hi ≤ i ∨ i + n ≤ lo) :
    Agree (copy b i src start n) b lo hi := by
  intro j hlo hhi
  have hj : ¬ (i ≤ j ∧ j < i + n) := by omega
  simp only [copy, if_neg hj]

/-- The copied interval reads as the source does. -/
theorem copy_inside (i : Nat) (src : Bytes) (start n k : Nat) (h : k < n) :
    copy b i src start n (i + k) = src (start + k) := by
  have hk : i ≤ i + k ∧ i + k < i + n := by omega
  simp only [copy, if_pos hk, Nat.add_sub_cancel_left]

end

/-- What was copied into a buffer is copied on as from its source. -/
theorem copy_of_copy (b buf src : Bytes) (i s : Nat) (inside : start + n ≤ m) :
    copy b i (copy buf 0 src s m) start n = copy b i src (s + start) n := by
  funext j
  unfold copy
  split
  · rw [if_pos (by omega)]
    congr 1
    omega
  · rfl

/-- What was copied to a place is what is read there. -/
theorem copy_read_back (out b src : Bytes) (j i s n : Nat) :
    copy out j (copy b i src s n) i n = copy out j src s n := by
  funext k
  simp only [copy]
  split
  next inside =>
    have : i ≤ i + (k - j) ∧ i + (k - j) < i + n := by omega
    rw [if_pos this]
    congr 1
    omega
  · rfl

/-- Elsewhere nothing changes. -/
theorem copy_read_apart (out b src : Bytes) {s : Nat} (apart : i + n ≤ k ∨ k + m ≤ i) :
    copy out j (copy b i src s n) k m = copy out j b k m := by
  funext l
  simp only [copy]
  split
  · have : ¬ (i ≤ k + (l - j) ∧ k + (l - j) < i + n) := by omega
    rw [if_neg this]
  · rfl

/-- Two copies in a row are one. -/
theorem copy_split (b src : Bytes) (i s : Nat) (le : m ≤ n) :
    copy (copy b i src s m) (i + m) src (s + m) (n - m) = copy b i src s n := by
  funext j
  unfold copy
  by_cases second : i + m ≤ j ∧ j < i + m + (n - m)
  · rw [if_pos second, if_pos (by omega)]
    congr 1
    omega
  · rw [if_neg second]
    by_cases first : i ≤ j ∧ j < i + m
    · rw [if_pos first, if_pos (by omega)]
    · rw [if_neg first, if_neg (by omega)]

/-- A range that is read, changed and written back is changed in place. -/
theorem copy_edit (b buf src : Bytes) (i s : Nat) {off : Nat} (inside : off + n ≤ m) :
    copy b i (copy (copy buf 0 b i m) off src s n) 0 m = copy b (i + off) src s n := by
  funext j
  unfold copy
  by_cases edited : i + off ≤ j ∧ j < i + off + n
  · rw [if_pos (by omega), if_pos (by omega), if_pos edited]
    congr 1
    omega
  · rw [if_neg edited]
    split
    · rw [if_neg (by omega), if_pos (by omega)]
      congr 1
      omega
    · rfl

/-! ## Reading back what was written -/

section
variable (b : Bytes)

theorem get8_put8 (i v : Nat) : get8 (put8 b i v) i = v % 256 := by
  simp [get8, put8]

theorem get16_put16 (i v : Nat) : get16 (put16 b i v) i = v % 65536 := by
  simp only [get16, put16, put8, Nat.left_eq_add, one_ne_zero, if_true, if_false,
    UInt8.toNat_ofNat']
  omega

theorem get32_put32 (i v : Nat) : get32 (put32 b i v) i = v % 4294967296 := by
  have hlow : get16 (put32 b i v) i = get16 (put16 b i v) i :=
    get16_congr (put16_agree _ _ _ _ _ (by omega))
  simp only [get32, hlow, get16_put16]
  simp only [put32, get16_put16]
  omega

theorem get8_put8_ne (i j v : Nat) (h : j ≠ i) : get8 (put8 b i v) j = get8 b j :=
  get8_congr (put8_agree _ _ _ _ _ (by omega))

theorem get16_put16_ne (i j v : Nat) (h : j + 2 ≤ i ∨ i + 2 ≤ j) :
    get16 (put16 b i v) j = get16 b j := get16_congr (put16_agree _ _ _ _ _ h)

theorem get32_put16_ne (i j v : Nat) (h : j + 4 ≤ i ∨ i + 2 ≤ j) :
    get32 (put16 b i v) j = get32 b j := get32_congr (put16_agree _ _ _ _ _ h)

theorem get16_put32_ne (i j v : Nat) (h : j + 2 ≤ i ∨ i + 4 ≤ j) :
    get16 (put32 b i v) j = get16 b j := get16_congr (put32_agree _ _ _ _ _ h)

theorem get32_put32_ne (i j v : Nat) (h : j + 4 ≤ i ∨ i + 4 ≤ j) :
    get32 (put32 b i v) j = get32 b j := get32_congr (put32_agree _ _ _ _ _ h)

/-! ## Octets of a word -/

/-- Octet `k` of a word written. -/
theorem put32_at (i v : Nat) {k : Nat} (hk : k < 4) :
    put32 b i v (i + k) = UInt8.ofNat (v / 256 ^ k) := by
  have hcases : k = 0 ∨ k = 1 ∨ k = 2 ∨ k = 3 := by omega
  rcases hcases with rfl | rfl | rfl | rfl
  · have hlast : ¬ i = i + 2 + 1 := by omega
    simp [put32, put16, put8, hlast]
  · simp [put32, put16, put8]
  · simp [put32, put16, put8]
  · simp [put32, put16, put8, Nat.div_div_eq_div_mul]

theorem put32_outside {i j : Nat} (v : Nat) (outside : j < i ∨ i + 4 ≤ j) : put32 b i v j = b j :=
  put32_agree b i v j (j + 1) (by omega) j (Nat.le_refl _) (Nat.lt_succ_self _)

end

/-- What the word held before does not matter. -/
theorem put32_congr (v : Nat) (same : ∀ j, j < i ∨ i + 4 ≤ j → a j = b j) :
    put32 a i v = put32 b i v := by
  funext j
  by_cases inside : i ≤ j ∧ j < i + 4
  · obtain ⟨k, rfl⟩ := Nat.exists_eq_add_of_le inside.1
    rw [put32_at a i v (by omega), put32_at b i v (by omega)]
  · rw [put32_outside a v (by omega), put32_outside b v (by omega), same j (by omega)]

/-- Octet `k` of a word read. -/
theorem get32_at (b : Bytes) (i : Nat) (hk : k < 4) :
    UInt8.ofNat (get32 b i / 256 ^ k) = b (i + k) := by
  have h0 := (b i).toNat_lt
  have h1 := (b (i + 1)).toNat_lt
  have h2 := (b (i + 2)).toNat_lt
  have h3 := (b (i + 2 + 1)).toNat_lt
  apply UInt8.toNat_inj.mp
  rw [UInt8.toNat_ofNat']
  unfold get32 get16
  have hcases : k = 0 ∨ k = 1 ∨ k = 2 ∨ k = 3 := by omega
  rcases hcases with rfl | rfl | rfl | rfl
  · simp only [Nat.reducePow, Nat.div_one, Nat.add_zero]
    omega
  · omega
  · omega
  · show _ = (b (i + 2 + 1)).toNat
    omega

/-! ## Octets as lists -/

@[simp] theorem toList_length (b : Bytes) (start n : Nat) : (toList b start n).length = n := by
  induction n generalizing start with
  | zero => rfl
  | succ n ih => rw [toList, List.length_cons, ih]

theorem toList_congr {start' : Nat} (same : ∀ k, k < n → a (start + k) = b (start' + k)) :
    toList a start n = toList b start' n := by
  induction n generalizing start start' with
  | zero => rfl
  | succ n ih =>
    have hrest : ∀ k, k < n → a (start + 1 + k) = b (start' + 1 + k) := by
      intro k hk
      have := same (k + 1) (by omega)
      rwa [show start + 1 + k = start + (k + 1) by omega, show start' + 1 + k = start' + (k +
        1) by omega]
    rw [toList, toList, ih hrest, show a start = b start' from same 0 (by omega)]

theorem toList_append (b : Bytes) (start m n : Nat) :
    toList b start (m + n) = toList b start m ++ toList b (start + m) n := by
  induction m generalizing start with
  | zero => rw [Nat.zero_add]; rfl
  | succ m ih =>
    rw [show m + 1 + n = m + n + 1 by omega, toList, ih, toList, List.cons_append,
      show start + 1 + m = start + (m + 1) by omega]

theorem toList_take (b : Bytes) (start n m : Nat) :
    (toList b start n).take m = toList b start (min m n) := by
  induction n generalizing start m with
  | zero => simp [toList]
  | succ n ih =>
    cases m with
    | zero => simp [toList]
    | succ m => rw [toList, List.take_succ_cons, ih, Nat.add_min_add_right, toList]

/-- Memory that spells the first `n` elements of a list. -/
theorem toList_eq_take (spelled : ∀ k, k < n → xs[k]? = some (b (start + k))) :
    toList b start n = xs.take n := by
  induction n generalizing start xs with
  | zero => rw [toList, List.take_zero]
  | succ n ih =>
    have first := spelled 0 (by omega)
    cases xs with
    | nil => cases first
    | cons x rest =>
      have hx : x = b start := by simpa using first
      have more : toList b (start + 1) n = rest.take n := by
        apply ih
        intro k hk
        have := spelled (k + 1) (by omega)
        rwa [show start + (k + 1) = start + 1 + k by omega] at this
      rw [toList, List.take_succ_cons, more, hx]

theorem ofList_outside (b : Bytes) (h : j < i ∨ i + xs.length ≤ j) : ofList b i xs j = b j := by
  induction xs generalizing i with
  | nil => rfl
  | cons x rest ih =>
    rw [List.length_cons] at h
    have hj : j ≠ i := by omega
    simp only [ofList, if_neg hj]
    exact ih (by omega)

/-- Where a list is written, it hides what was there. -/
theorem ofList_agree (b c : Bytes) (i : Nat) (xs : List UInt8) :
    Agree (ofList b i xs) (ofList c i xs) i (i + xs.length) := by
  induction xs generalizing i with
  | nil =>
    intro j hlow hhigh
    exact absurd hhigh (Nat.not_lt.mpr hlow)
  | cons x rest ih =>
    intro j hlow hhigh
    by_cases hj : j = i
    · simp only [ofList, if_pos hj]
    · simp only [ofList, if_neg hj]
      rw [List.length_cons] at hhigh
      exact ih (i + 1) j (by omega) (by omega)

/-- Octets written as a list where they come from. -/
theorem ofList_toList (b a : Bytes) (i n : Nat) :
    Agree (ofList b i (toList a i n)) a i (i + n) := by
  induction n generalizing i with
  | zero =>
    intro j hlow hhigh
    exact absurd hhigh (Nat.not_lt.mpr hlow)
  | succ n ih =>
    intro j hlow hhigh
    rw [toList]
    by_cases hj : j = i
    · rw [hj]
      exact if_pos rfl
    · simp only [ofList, if_neg hj]
      exact ih (i + 1) j (by omega) (by omega)

theorem toList_ofList (b : Bytes) (i : Nat) (xs : List UInt8) :
    toList (ofList b i xs) i xs.length = xs := by
  induction xs generalizing i with
  | nil => rfl
  | cons x rest ih =>
    have hrest : toList (ofList b i (x :: rest)) (i + 1) rest.length =
        toList (ofList b (i + 1) rest) (i + 1) rest.length := by
      apply toList_congr
      intro k hk
      have hk' : i + 1 + k ≠ i := by omega
      simp only [ofList, if_neg hk']
    rw [List.length_cons, toList, hrest, ih]
    simp [ofList]

theorem toList_copy (b : Bytes) (i : Nat) (src : Bytes) (start n : Nat) :
    toList (copy b i src start n) i n = toList src start n := by
  apply toList_congr
  intro k hk
  exact copy_inside b i src start n k hk

end Bytes

/-! ## Unsigned arithmetic -/

def u16 (v : Nat) : Nat := v % 65536
def u32 (v : Nat) : Nat := v % 4294967296
def u64 (v : Nat) : Nat := v % 18446744073709551616

variable {a b v : Nat}

theorem u16_of_lt (h : v < 65536) : u16 v = v := Nat.mod_eq_of_lt h

theorem u32_of_lt (h : v < 4294967296) : u32 v = v := Nat.mod_eq_of_lt h

theorem u64_of_lt (h : v < 18446744073709551616) : u64 v = v := Nat.mod_eq_of_lt h

/-- Unsigned 32-bit difference. -/
def sub32 (a b : Nat) : Nat := u32 (a + (4294967296 - u32 b))

theorem sub32_of_le (ha : a < 4294967296) (h : b ≤ a) : sub32 a b = a - b := by
  simp only [sub32, u32]
  omega

/-- 64-bit difference, wrapping. -/
def sub64 (a b : Nat) : Nat := u64 (a + (18446744073709551616 - u64 b))

theorem sub64_of_le (h : b ≤ a) (hlt : a < 18446744073709551616) : sub64 a b = a - b := by
  have hb : u64 b = b := u64_of_lt (by omega)
  simp only [sub64, hb]
  simp only [u64]
  omega

/-- Clearing the low four bits of a word rounds it down to a multiple of sixteen. -/
theorem land_low_nibble (w v : Nat) (h : v < 2 ^ (w + 4)) :
    v &&& (2 ^ w - 1) <<< 4 = v / 16 * 16 := by
  have hround : v / 16 * 16 = (v >>> 4) <<< 4 := by
    rw [Nat.shiftLeft_eq, Nat.shiftRight_eq_div_pow]
  rw [hround]
  apply Nat.eq_of_testBit_eq
  intro i
  simp only [Nat.testBit_and, Nat.testBit_shiftLeft, Nat.testBit_two_pow_sub_one,
    Nat.testBit_shiftRight]
  by_cases hi : 4 ≤ i
  · rw [Nat.add_sub_cancel' hi]
    by_cases hlt : i - 4 < w
    · simp [hi, hlt]
    · have hbig : v < 2 ^ i :=
        Nat.lt_of_lt_of_le h (Nat.pow_le_pow_right Nat.zero_lt_two (by omega : w + 4 ≤ i))
      simp [Nat.testBit_lt_two_pow hbig]
  · simp [hi]

theorem land_mask16 (v : Nat) (h : v < 4294967296) : v &&& 4294967280 = v / 16 * 16 :=
    land_low_nibble 28 v h

theorem land_mask16_wide (v : Nat) (h : v < 18446744073709551616) :
    v &&& 18446744073709551600 = v / 16 * 16 :=
  land_low_nibble 60 v h

end Obsidian.Lib
