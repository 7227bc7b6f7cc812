import Obsidian.Fs.Csum
import Obsidian.Lib.Crc

/-!
# The checksum tables

Source: fs/ext4_csum.c, with its static tables as state: the first checksum of either
kind builds both. The values are then those of `ext4Crc32c` and `ext4Crc16`, whichever
calls came before, and the file comment fixes what they have to be: the reflected
registers of the polynomials 0x82F63B78 and 0xA001.
-/
namespace Obsidian.Fs
open Lib Lib.Bytes Lib.Crc

/-- `crc32c_table`, `crc16_table` and `tables_ready` -/
structure Tables where
  crc32c : Nat → Nat
  crc16 : Nat → Nat
  ready : Bool

/-- Static storage before the first call. -/
def Tables.boot : Tables := ⟨fun _ => 0, fun _ => 0, false⟩

/-- The loop of `build_tables`, from entry `i` on. -/
def buildFrom : Nat → Nat → Tables → Tables
  | 0, _, t => t
  | more + 1, i, t => buildFrom more (i + 1)
      { t with crc32c := fun j => if j = i then crc32cTable i else t.crc32c j,
               crc16 := fun j => if j = i then crc16Table i else t.crc16 j }

def buildTables (t : Tables) : Tables := { buildFrom 256 0 t with ready := true }

/-- `if (!tables_ready) build_tables();` -/
def Tables.prepare (t : Tables) : Tables := if t.ready then t else buildTables t

def Tables.crc32cLoop (t : Tables) (crc : Nat) (buf : Bytes) (start : Nat) : Nat → Nat
  | 0 => crc
  | len + 1 => t.crc32cLoop ((crc >>> 8) ^^^ t.crc32c ((crc ^^^ get8 buf start) &&&
      0xFF)) buf (start + 1) len

def Tables.crc16Loop (t : Tables) (crc : Nat) (buf : Bytes) (start : Nat) : Nat → Nat
  | 0 => crc
  | len + 1 =>
    t.crc16Loop (u16 (t.crc16 (((crc >>> 8) ^^^ get8 buf start) &&& 0xFF) ^^^ (crc <<< 8))) buf
      (start + 1) len

/-- A call of one of the two checksums, with the octets it is given. -/
inductive CsumCall where
  | crc32c (crc : Nat) (message : List UInt8)
  | crc16 (crc : Nat) (message : List UInt8)

/-- What a call returns and the tables it leaves. -/
def CsumCall.exec (t : Tables) : CsumCall → Nat × Tables
  | .crc32c crc message => (t.prepare.crc32cLoop crc (ofList zero 0 message) 0 message.length,
      t.prepare)
  | .crc16 crc message => (t.prepare.crc16Loop crc (ofList zero 0 message) 0 message.length,
      t.prepare)

/-- The tables after some calls. -/
def tablesAfter (calls : List CsumCall) : Tables :=
  calls.foldl (fun t call => (call.exec t).2) Tables.boot

/-- `ext4_crc32c(crc, message)` when those calls came before. -/
def ext4Crc32cAfter (calls : List CsumCall) (crc : Nat) (message : List UInt8) : Nat :=
  ((CsumCall.crc32c crc message).exec (tablesAfter calls)).1

/-- `ext4_crc16(crc, message)` when those calls came before. -/
def ext4Crc16After (calls : List CsumCall) (crc : Nat) (message : List UInt8) : Nat :=
  ((CsumCall.crc16 crc message).exec (tablesAfter calls)).1

/-! ## What the tables hold -/

def Tables.Built (t : Tables) : Prop := ∀ i, i < 256 → t.crc32c i = crc32cTable i ∧
    t.crc16 i = crc16Table i

theorem buildFrom_at (more i : Nat) (t : Tables) {j : Nat} :
    ((buildFrom more i t).crc32c j = if i ≤ j ∧ j < i + more then crc32cTable j else t.crc32c j) ∧
      ((buildFrom more i t).crc16 j = if i ≤ j ∧
        j < i + more then crc16Table j else t.crc16 j) := by
  induction more generalizing i t with
  | zero =>
    have nothing : ¬ (i ≤ j ∧ j < i + 0) := by omega
    rw [if_neg nothing, if_neg nothing]
    exact ⟨rfl, rfl⟩
  | succ more ih =>
    rw [buildFrom]
    obtain ⟨wide, narrow⟩ := ih (i + 1)
      { t with crc32c := fun j => if j = i then crc32cTable i else t.crc32c j,
               crc16 := fun j => if j = i then crc16Table i else t.crc16 j }
    rw [wide, narrow]
    by_cases here : j = i
    · subst here
      simp
    · have same : i + 1 ≤ j ∧ j < i + 1 + more ↔ i ≤ j ∧ j < i + (more + 1) := by omega
      simp only [same, here, if_false, and_self]

theorem buildTables_built (t : Tables) : (buildTables t).Built := by
  intro i inside
  obtain ⟨wide, narrow⟩ := @buildFrom_at 256 0 t i
  have written : 0 ≤ i ∧ i < 0 + 256 := by omega
  rw [if_pos written] at wide narrow
  exact ⟨wide, narrow⟩

theorem Tables.prepare_built {t : Tables} (kept : t.ready = true → t.Built) : t.prepare.Built := by
  unfold prepare
  split
  next ready => exact kept ready
  next => exact buildTables_built t

variable (calls : List CsumCall)

theorem tablesAfter_kept : (tablesAfter calls).ready = true → (tablesAfter calls).Built := by
  have kept : ∀ t : Tables, (t.ready = true → t.Built) →
      (calls.foldl (fun t call => (call.exec t).2) t).ready = true →
        (calls.foldl (fun t call => (call.exec t).2) t).Built := by
    induction calls with
    | nil => exact fun _ kept => kept
    | cons call calls ih =>
      intro t kept
      have built : (call.exec t).2.Built := by
        cases call with
        | crc32c _ _ => exact Tables.prepare_built kept
        | crc16 _ _ => exact Tables.prepare_built kept
      exact ih (call.exec t).2 fun _ => built
  exact kept Tables.boot fun never => nomatch never

/-! ## The loops over built tables -/

theorem Tables.Built.crc32cLoop {t : Tables} (built : t.Built) (crc : Nat) (buf : Bytes)
    (start len : Nat) :
    t.crc32cLoop crc buf start len = ext4Crc32c crc buf start len := by
  induction len generalizing crc start with
  | zero => rfl
  | succ len ih =>
    have inside : (crc ^^^ get8 buf start) &&& 0xFF < 256 := Nat.lt_succ_of_le Nat.and_le_right
    rw [Tables.crc32cLoop, ext4Crc32c, (built _ inside).1, ih]

theorem Tables.Built.crc16Loop {t : Tables} (built : t.Built) (crc : Nat) (buf : Bytes)
    (start len : Nat) :
    t.crc16Loop crc buf start len = ext4Crc16 crc buf start len := by
  induction len generalizing crc start with
  | zero => rfl
  | succ len ih =>
    have inside : ((crc >>> 8) ^^^ get8 buf start) &&& 0xFF < 256 :=
      Nat.lt_succ_of_le Nat.and_le_right
    rw [Tables.crc16Loop, ext4Crc16, (built _ inside).2, ih]

/-! ## CRC32C -/

theorem crc32cTable_eq (i : Nat) : crc32cTable i = (shift 0x82F63B78)^[8] i := by
  have step : (fun c => if c &&& 1 ≠ 0 then (c >>> 1) ^^^ 0x82F63B78 else c >>> 1) =
      shift 0x82F63B78 := by
    funext c
    unfold shift feed
    rw [Bool.xor_false]
    rcases Nat.mod_two_eq_zero_or_one c with even | odd
    · simp [even]
    · simp [odd]
  rw [crc32cTable, step]
  rfl

theorem ext4Crc32c_eq (crc : Nat) (buf : Bytes) (start len : Nat) :
    ext4Crc32c crc buf start len = reflected 0x82F63B78 crc (toList buf start len) := by
  induction len generalizing crc start with
  | zero => rfl
  | succ len ih =>
    rw [ext4Crc32c, ih, toList, reflected_cons, octet_by_table, crc32cTable_eq]
    rfl

theorem ext4Crc32cAfter_eq (crc : Nat) (message : List UInt8) :
    ext4Crc32cAfter calls crc message = reflected 0x82F63B78 crc message := by
  have built := Tables.prepare_built (tablesAfter_kept calls)
  rw [ext4Crc32cAfter, CsumCall.exec, built.crc32cLoop, ext4Crc32c_eq, toList_ofList]

/-- After any calls, and so whether or not the tables were built, `ext4_crc32c` is the
reflected register of 0x82F63B78, and a checksum continued is that of the whole string. -/
theorem crc32c_is_reflected (before between : List CsumCall) (crc : Nat) (a b : List UInt8) :
    ext4Crc32cAfter before crc a = reflected 0x82F63B78 crc a ∧
      ext4Crc32cAfter between (ext4Crc32cAfter before crc a) b = ext4Crc32cAfter before crc
      (a ++ b) := by
  have first := ext4Crc32cAfter_eq before crc a
  have chained : ext4Crc32cAfter between (ext4Crc32cAfter before crc a) b =
      ext4Crc32cAfter before crc (a ++ b) := by
    rw [first, ext4Crc32cAfter_eq between, ext4Crc32cAfter_eq before, reflected_append]
  exact ⟨first, chained⟩

/-- Whatever calls came before, a change of one octet changes the checksum. -/
theorem crc32c_detects_octet (before between : List CsumCall) (crc : Nat) (front back : List UInt8)
    {a b : UInt8} (changed : a ≠ b) :
    ext4Crc32cAfter before crc (front ++ a :: back) ≠ ext4Crc32cAfter between crc
    (front ++ b :: back) := by
  intro same
  rw [ext4Crc32cAfter_eq, ext4Crc32cAfter_eq, reflected_append, reflected_append, reflected_cons,
    reflected_cons,
    octet_eq, octet_eq, (shift_linear _).iterate 8, (shift_linear _).iterate 8, reflected_xor,
      reflected_xor,
    ← Function.iterate_add_apply, ← Function.iterate_add_apply] at same
  have lost := Nat.xor_eq_zero_iff.mpr (Nat.xor_right_injective same)
  rw [← (shift_linear _).iterate] at lost
  refine iterate_shift_ne_zero (w := 31) (by decide) (by decide) (Nat.xor_lt_two_pow ?_ ?_) ?_ _
    lost
  · exact Nat.lt_trans a.toNat_lt (by decide)
  · exact Nat.lt_trans b.toNat_lt (by decide)
  · exact fun none => changed (UInt8.toNat_inj.mp (Nat.xor_eq_zero_iff.mp none))

theorem crc32c_detects_octet_second : ext4Crc32cAfter [] 0 [1, 2] ≠ ext4Crc32cAfter [] 0 [1, 3] :=
  crc32c_detects_octet [] [] 0 [1] [] (by decide)

/-! ## CRC16 -/

/-- A round of the loop of `ext4_crc16`. -/
def crc16Octet (crc : Nat) (b : UInt8) : Nat :=
  u16 (crc16Table (((crc >>> 8) ^^^ b.toNat) &&& 0xFF) ^^^ (crc <<< 8))

theorem ext4Crc16_eq (crc : Nat) (buf : Bytes) (start len : Nat) :
    ext4Crc16 crc buf start len = (toList buf start len).foldl crc16Octet crc := by
  induction len generalizing crc start with
  | zero => rfl
  | succ len ih =>
    rw [ext4Crc16, ih, toList]
    rfl

theorem ext4Crc16After_eq (crc : Nat) (message : List UInt8) :
    ext4Crc16After calls crc message = message.foldl crc16Octet crc := by
  have built := Tables.prepare_built (tablesAfter_kept calls)
  rw [ext4Crc16After, CsumCall.exec, built.crc16Loop, ext4Crc16_eq, toList_ofList]

theorem crc16Table_linear : Linear crc16Table := by
  have up : ∀ k, Linear fun v => u16 (v <<< k) := fun k =>
    (Linear.mod_two_pow 16).comp fun _ _ => Nat.shiftLeft_xor_distrib
  have step : (fun r => if r &&& 0x8000 ≠ 0 then u16 ((r <<< 1) ^^^ 0x1021) else u16 (r <<< 1)) =
      fun r => u16 (r <<< 1) ^^^ (if r.testBit 15 then 0x1021 else 0) := by
    funext r
    have top : r &&& 0x8000 ≠ 0 ↔ r.testBit 15 = true := by
      rw [show (0x8000 : Nat) = 2 ^ 15 from rfl, Nat.and_two_pow]
      cases r.testBit 15 <;> simp
    by_cases set : r.testBit 15 = true
    · rw [if_pos (top.2 set), if_pos set]
      exact Linear.mod_two_pow 16 (r <<< 1) 0x1021
    · rw [if_neg (mt top.1 set), if_neg set, Nat.xor_zero]
  have entries := ((up 1).xor (Linear.ite_testBit 15 0x1021)).iterate 8
  intro a b
  have linear := entries.comp (up 8) a b
  unfold crc16Table
  rw [step]
  exact linear

/-- The lowest bit of the last octet changes the checksum of the source by 0x1021. -/
theorem crc16Octet_flip (s : Nat) (b : UInt8) :
    crc16Octet s (b ^^^ 1) = crc16Octet s b ^^^ 0x1021 := by
  have index : ((s >>> 8) ^^^ (b ^^^ 1).toNat) &&& 0xFF = (((s >>> 8) ^^^ b.toNat) &&& 0xFF) ^^^
      1 := by
    rw [UInt8.toNat_xor, ← Nat.xor_assoc, Nat.and_xor_distrib_right]
    rfl
  unfold crc16Octet
  rw [index, crc16Table_linear, Nat.xor_assoc, Nat.xor_comm (crc16Table 1), ← Nat.xor_assoc]
  exact Linear.mod_two_pow 16 _ (crc16Table 1)

theorem reflected_flip (crc : Nat) (message : List UInt8) (b : UInt8) :
    reflected 0xA001 crc (message ++ [b ^^^ 1]) = reflected 0xA001 crc
    (message ++ [b]) ^^^ 0xC0C1 := by
  have last : ∀ c : UInt8, reflected 0xA001 crc (message ++ [c]) =
      (reflected 0xA001 crc message >>> 8) ^^^ (shift 0xA001)^[8]
          ((reflected 0xA001 crc message ^^^ c.toNat) &&& 0xFF) := by
    intro c
    rw [reflected_append, reflected_cons, octet_by_table]
    rfl
  have index : ∀ s : Nat, (s ^^^ (b ^^^ 1).toNat) &&& 0xFF = ((s ^^^ b.toNat) &&& 0xFF) ^^^ 1 := by
    intro s
    rw [UInt8.toNat_xor, ← Nat.xor_assoc, Nat.and_xor_distrib_right]
    rfl
  rw [last, last, index, (shift_linear 0xA001).iterate 8, ← Nat.xor_assoc]
  rfl

/-- Of two strings that differ in the lowest bit of their last octet, `ext4_crc16` gives at
most one the checksum of group descriptors. -/
theorem crc16_flip_differs (crc : Nat) (message : List UInt8) (b : UInt8)
    (same : ext4Crc16After calls crc (message ++ [b]) = reflected 0xA001 crc (message ++ [b])) :
    ext4Crc16After calls crc (message ++ [b ^^^ 1]) ≠ reflected 0xA001 crc
    (message ++ [b ^^^ 1]) := by
  intro same'
  rw [ext4Crc16After_eq, List.foldl_append] at same same'
  have flipped : reflected 0xA001 crc (message ++ [b]) ^^^ 0x1021 =
      reflected 0xA001 crc (message ++ [b]) ^^^ 0xC0C1 := by
    rw [← reflected_flip, ← same', ← same]
    exact (crc16Octet_flip _ b).symm
  exact absurd (Nat.xor_right_injective flipped) (by decide)

/-- Whatever calls came before and whatever the initial value, `ext4_crc16` is the reflected
register of 0xA001 on all strings of a length just when that length is zero. -/
theorem crc16_is_reflected_iff (calls : List CsumCall) (crc n : Nat) :
    (∀ message : List UInt8, message.length = n →
      ext4Crc16After calls crc message = reflected 0xA001 crc message) ↔ n = 0 := by
  constructor
  · intro same
    by_contra more
    have front : (List.replicate (n - 1) (0 : UInt8)).length = n - 1 := List.length_replicate
    have whole : ∀ b : UInt8, (List.replicate (n - 1) 0 ++ [b]).length = n := by
      intro b
      rw [List.length_append, List.length_singleton]
      omega
    exact crc16_flip_differs calls crc _ 0 (same _ (whole 0)) (same _ (whole (0 ^^^ 1)))
  · intro none message empty
    rw [none, List.length_eq_zero_iff] at empty
    rw [empty]
    rfl

/-- From the initial value of group descriptors, the octets of `123456789`: the register of
0xA001 gives 0x4B37, `ext4_crc16` on tables not yet built 0x29B1. -/
theorem crc16_of_digits : ext4Crc16After [] 0xFFFF [49, 50, 51, 52, 53, 54, 55, 56, 57] = 0x29B1 ∧
    reflected 0xA001 0xFFFF [49, 50, 51, 52, 53, 54, 55, 56, 57] = 0x4B37 := by
  have source : ext4Crc16After [] 0xFFFF [49, 50, 51, 52, 53, 54, 55, 56, 57] = 0x29B1 := by
    rw [ext4Crc16After_eq]
    decide +kernel
  exact ⟨source, by decide +kernel⟩

end Obsidian.Fs
