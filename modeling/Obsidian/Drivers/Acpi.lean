import Obsidian.Lib.Bytes

/-!
# The ACPI tables

Source: drivers/acpi/fadt.c, drivers/acpi/acpi.h. `header_ok` sums the octets of a table; neither
`handle_table` nor `acpi_walk_tables` calls it.
-/
namespace Obsidian.Drivers.Acpi
open Lib Lib.Bytes

structure AcpiFadt where
  valid : Bool
  sciInt : Nat
  smiCmdPort : Nat
  acpiEnableVal : Nat
  acpiDisableVal : Nat
  pm1aCntPort : Nat
  dsdtAddr : Nat
  dsdtOemTable : List UInt8
  deriving DecidableEq

structure State where
  fadt : AcpiFadt
  acpiReady : Bool
  deriving DecidableEq

def headerOk (mem : Bytes) (h : Nat) : Bool := (toList mem h (get32 mem (h + 4))).foldl
    (· + ·) 0 = 0

/-- The signature is `FACP`. -/
def isFacp (mem : Bytes) (h : Nat) : Bool := toList mem h 4 = [70, 65, 67, 80]

/-- What `handle_table` takes from a table. -/
def fadtOf (mem : Bytes) (raw : Nat) : AcpiFadt where
  valid := true
  sciInt := get16 mem (raw + 46)
  smiCmdPort := get32 mem (raw + 48)
  acpiEnableVal := get8 mem (raw + 52)
  acpiDisableVal := get8 mem (raw + 53)
  pm1aCntPort := get32 mem (raw + 64)
  dsdtAddr := get32 mem (raw + 40)
  dsdtOemTable := toList mem (get32 mem (raw + 40) + 16) 8 ++ [0]

def handleTable (mem : Bytes) (fadt : AcpiFadt) (h : Nat) : AcpiFadt :=
  if isFacp mem h then fadtOf mem h else fadt

/-- `count`, in 32 bits, and at most the 32 rounds of the loop. -/
def rounds (mem : Bytes) (sdt size : Nat) : Nat :=
  min (u32 (get32 mem (sdt + 4) + 4294967296 - 36) / size) 32

/-- The tables that the one loop or the other hands to `handle_table`. -/
def tables (mem : Bytes) (rsdp : Nat) : List Nat :=
  let xsdt := get64 mem (rsdp + 24)
  let rsdt := get32 mem (rsdp + 16)
  if 2 ≤ get8 mem (rsdp + 15) ∧ xsdt ≠ 0 ∧ xsdt < 4294967296 then
    ((List.range (rounds mem xsdt 8)).map fun i => get64 mem (xsdt + 36 + 8 * i)).filter
      (· < 4294967296)
  else ((List.range (rounds mem rsdt 4)).map fun i => get32 mem (rsdt + 36 + 4 * i)).filter (· ≠ 0)

/-- `acpi_walk_tables(rsdp)`; address 0 is NULL. -/
def acpiWalkTables (mem : Bytes) (st : State) (rsdp : Nat) : State :=
  if rsdp = 0 then { st with acpiReady := false }
  else
    let fadt := (tables mem rsdp).foldl (handleTable mem) st.fadt
    ⟨fadt, fadt.valid⟩

def boot : State := ⟨⟨false, 0, 0, 0, 0, 0, 0, List.replicate 9 0⟩, false⟩

/-- The fields are those of a table that was checked. -/
def Validated (mem : Bytes) (rsdp : Nat) (fadt : AcpiFadt) : Prop :=
  ∃ h ∈ tables mem rsdp, isFacp mem h ∧ headerOk mem h ∧ fadt = fadtOf mem h

theorem foldl_handleTable (mem : Bytes) (fadt : AcpiFadt) (hs : List Nat) :
    hs.foldl (handleTable mem) fadt =
    ((hs.filter (isFacp mem)).getLast?.map (fadtOf mem)).getD fadt := by
  induction hs generalizing fadt with
  | nil => rfl
  | cons h hs ih =>
    rw [List.foldl_cons, ih, handleTable]
    cases facp : isFacp mem h with
    | false => rw [List.filter_cons_of_neg (by simp [facp]), if_neg (by decide)]
    | true =>
      rw [List.filter_cons_of_pos facp, if_pos rfl, List.getLast?_cons]
      cases (hs.filter (isFacp mem)).getLast? <;> rfl

/-- For every memory and every RSDP: the fields are set, and ACPI becomes available, from
checked tables only exactly when there is no RSDP, or the last table with the signature is
such a table or has the fields of one. -/
theorem acpi_validated_iff (mem : Bytes) (rsdp : Nat) :
    let st := acpiWalkTables mem boot rsdp
    (st.acpiReady = true ∨ st.fadt ≠ boot.fadt → Validated mem rsdp st.fadt) ↔
      rsdp = 0 ∨ ∀ last, ((tables mem rsdp).filter (isFacp mem)).getLast? = some last →
        Validated mem rsdp (fadtOf mem last) := by
  intro st
  by_cases null : rsdp = 0
  · have idle : st = boot := if_pos null
    simp [idle, null, boot]
  · have walked : st = ⟨(tables mem rsdp).foldl (handleTable mem) boot.fadt,
        ((tables mem rsdp).foldl (handleTable mem) boot.fadt).valid⟩ := if_neg null
    rw [walked, foldl_handleTable]
    cases ((tables mem rsdp).filter (isFacp mem)).getLast? with
    | none => simp [boot]
    | some last => simp [fadtOf, null]

/-- An RSDP at 4096, its RSDT at 8192, and there one table, at 12288, of eight octets that sum
to 34. -/
def badTable : Bytes :=
  let m := put32 (put32 (put32 zero (4096 + 16) 8192) (8192 + 4) 40) (8192 + 36) 12288
  put32 (put32 m 12288 0x50434146) (12288 + 4) 8

theorem acpi_bad_table :
    (acpiWalkTables badTable boot 4096).acpiReady = true ∧ tables badTable 4096 = [12288] ∧
      headerOk badTable 12288 = false := by
  decide +kernel

end Obsidian.Drivers.Acpi
