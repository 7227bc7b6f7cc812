import Obsidian.Arch.Fdt
import Obsidian.Lib.Runs

/-!
# Tokens of a structure block

The structure block is a list of tokens down to the first `FDT_END`. Where a token
leaves off, at which depth, which names and how many cells are in force behind it is
said from the octets of the blob (`Token.behind`), and so is which octets a token needs
and which row of `path`. The walk follows the tokens, so it is safe exactly when every
token of the block is sound.
-/
namespace Obsidian.Arch.Fdt
open Lib Lib.Bytes Traced

variable {mem : Bytes} {inside : Nat → Prop} {a p n len strings fuel : Nat} {s : List UInt8}
    {w next : Walk}

/-! ## What the string functions read -/

/-- Octets that may be read, rows that exist. -/
def Allowed (inside : Nat → Prop) : Access → Prop
  | .read a => inside a
  | .index i => 0 ≤ i ∧ i < 8

instance [DecidablePred inside] : DecidablePred (Allowed inside)
  | .read a => inferInstanceAs (Decidable (inside a))
  | .index i => inferInstanceAs (Decidable (0 ≤ i ∧ i < 8))

/-- `n` octets from `a` on. -/
def Covered (inside : Nat → Prop) (a n : Nat) : Prop := ∀ k, k < n → inside (a + k)

/-- The octets from `a` on up to the first that differs from `s` or is zero. -/
def Compared (mem : Bytes) (inside : Nat → Prop) : Nat → List UInt8 → Prop
  | _, [] => True
  | a, b :: rest => inside a ∧ (mem a = b → mem a ≠ 0 → Compared mem inside (a + 1) rest)

/-- A string of `len` octets and its terminator. -/
def StringAt (mem : Bytes) (a len : Nat) : Prop := (∀ k, k < len → mem (a + k) ≠ 0) ∧ mem
    (a + len) = 0

theorem covered_add (m : Nat) :
    Covered inside a (n + m) ↔ Covered inside a n ∧ Covered inside (a + n) m := by
  constructor
  · intro all
    refine ⟨fun k hk => all k (by omega), fun k hk => ?_⟩
    have := all (n + k) (by omega)
    rwa [← Nat.add_assoc] at this
  · intro both k hk
    by_cases low : k < n
    · exact both.1 k low
    · have := both.2 (k - n) (by omega)
      rwa [show a + n + (k - n) = a + k by omega] at this

theorem covered_one : Covered inside a 1 ↔ inside a := by
  constructor
  · exact fun all => all 0 (by decide)
  · intro here k hk
    rwa [show a + k = a by omega]

theorem covered_succ : Covered inside a (n + 1) ↔ inside a ∧ Covered inside (a + 1) n := by
  rw [Nat.add_comm n 1, covered_add, covered_one]

@[simp] theorem load_val (mem : Bytes) (a : Nat) : (load mem a).val = mem a := by
  rw [load]

@[simp] theorem all_load : (load mem a).All (Allowed inside) ↔ inside a := by
  simp [All, load, Allowed]

@[simp] theorem be32_val (mem : Bytes) (p : Nat) : (be32 mem p).val = getBE32 mem p :=
  lor_octets (mem (p + 1)).toNat_lt (mem (p + 2)).toNat_lt (mem (p + 3)).toNat_lt

@[simp] theorem all_be32 : (be32 mem p).All (Allowed inside) ↔ Covered inside p 4 := by
  simp only [be32, all_bind, all_load, all_pure, and_true]
  rw [covered_succ, covered_succ, covered_succ, covered_one]

@[simp] theorem all_be64 : (be64 mem p).All (Allowed inside) ↔ Covered inside p 8 := by
  simp only [be64, all_bind, all_be32, all_pure, and_true]
  exact (covered_add 4).symm

@[simp] theorem kStrcmp_val (mem : Bytes) (a : Nat) (s : List UInt8) :
    (kStrcmp mem a s).val = CStr.strcmp mem a s := by
  induction s generalizing a with
  | nil => rfl
  | cons b rest ih => rw [kStrcmp, val_bind, load_val, val_ite, ih, val_pure, CStr.strcmp]

@[simp] theorem all_kStrcmp :
    (kStrcmp mem a s).All (Allowed inside) ↔ Compared mem inside a (s ++ [0]) := by
  induction s generalizing a with
  | nil => simp [kStrcmp, Compared]
  | cons b rest ih =>
    rw [kStrcmp, all_bind, all_load, all_ite, ih, all_pure, List.cons_append]
    simp only [implies_true, and_true]
    exact and_congr_right fun _ => ⟨fun h same nonzero => h ⟨nonzero, same⟩, fun h both =>
      h both.2 both.1⟩

@[simp] theorem all_kStrncmp :
    (kStrncmp mem a s).All (Allowed inside) ↔ Compared mem inside a s := by
  induction s generalizing a with
  | nil => simp [kStrncmp, Compared]
  | cons b rest ih =>
    rw [kStrncmp, all_bind, all_load, load_val, all_ite, all_ite, ih, all_pure, all_pure, Compared]
    simp only [implies_true, true_and, Decidable.not_not, ne_eq]

theorem StringAt.tail (string : StringAt mem a (len + 1)) : StringAt mem (a + 1) len := by
  constructor
  · intro k hk
    have := string.1 (k + 1) (by omega)
    rwa [show a + (k + 1) = a + 1 + k by omega] at this
  · have := string.2
    rwa [show a + (len + 1) = a + 1 + len by omega] at this

theorem kStrlen_of_string (string : StringAt mem (a + n) len) (enough : len < fuel) :
    (kStrlen mem a fuel n).val = some (n + len) ∧
      ((kStrlen mem a fuel n).All (Allowed inside) ↔ Covered inside (a + n) (len + 1)) := by
  induction len generalizing n fuel with
  | zero =>
    obtain ⟨fuel, rfl⟩ := Nat.exists_eq_succ_of_ne_zero (Nat.ne_of_gt enough)
    have zero : mem (a + n) = 0 := string.2
    simp [kStrlen, zero, covered_one]
  | succ len ih =>
    obtain ⟨fuel, rfl⟩ := Nat.exists_eq_succ_of_ne_zero (show fuel ≠ 0 by omega)
    have going : mem (a + n) ≠ 0 := string.1 0 (by omega)
    have tail : StringAt mem (a + (n + 1)) len := string.tail
    obtain ⟨value, reads⟩ := ih tail (show len < fuel by omega)
    rw [kStrlen]
    simp only [val_bind, all_bind, load_val, all_load, if_neg going, value, reads]
    exact ⟨by rw [show n + 1 + len = n + (len + 1) by omega], covered_succ.symm⟩

theorem kStrlen_some {m : Nat} (found : (kStrlen mem a fuel n).val = some m) :
    ∃ len, m = n + len ∧ StringAt mem (a + n) len ∧ len < fuel := by
  induction fuel generalizing n with
  | zero => cases found
  | succ fuel ih =>
    rw [kStrlen] at found
    simp only [val_bind, load_val] at found
    by_cases zero : mem (a + n) = 0
    · rw [if_pos zero, val_pure, Option.some.injEq] at found
      exact ⟨0, found.symm, ⟨fun k hk => absurd hk (by omega), zero⟩, by omega⟩
    · rw [if_neg zero] at found
      obtain ⟨len, rfl, string, low⟩ := ih found
      refine ⟨len + 1, by omega, ⟨fun k hk => ?_, ?_⟩, by omega⟩
      · cases k with
        | zero => exact zero
        | succ k =>
          have := string.1 k (by omega)
          rwa [show a + (n + 1) + k = a + n + (k + 1) by omega] at this
      · have := string.2
        rwa [show a + (n + 1) + len = a + n + (len + 1) by omega] at this

theorem all_kStrncpy (string : StringAt mem a len) (covered : Covered inside a (len + 1))
    (n : Nat) :
    (kStrncpy mem a n).All (Allowed inside) := by
  induction n generalizing a len with
  | zero => simp [kStrncpy]
  | succ n ih =>
    have first : inside a := covered 0 (by omega)
    simp only [kStrncpy, all_bind, all_load, first, load_val, all_ite, all_pure, implies_true,
      true_and, and_true]
    intro going
    cases len with
    | zero => exact absurd string.2 going
    | succ len =>
      exact ih string.tail (covered_succ.mp covered).2

/-! ## Tokens -/

/-- A token as the loop tells them apart; of a node the length of its name. -/
inductive Token where
  | beginNode (len : Nat)
  | endNode
  | prop
  | other
  deriving DecidableEq, Repr

def Token.At (mem : Bytes) (p : Nat) : Token → Prop
  | .beginNode len => getBE32 mem p = fdtBeginNode ∧ StringAt mem (p + 4) len
  | .endNode => getBE32 mem p = fdtEndNode
  | .prop => getBE32 mem p = fdtProp
  | .other => ∀ t ∈ [fdtBeginNode, fdtEndNode, fdtProp, fdtEnd], getBE32 mem p ≠ t

/-- What the tokens up to a place of the block say: where the next token is, the depth, the
name last begun at each depth as far as a row holds it, the cells in force and the first
serial register. -/
structure Spot where
  p : Nat
  depth : Int
  path : Int → List UInt8
  addrCells : Int
  sizeCells : Int
  uartBaseVal : Nat

def getBE64 (mem : Bytes) (a : Nat) : Nat := getBE32 mem a * 4294967296 + getBE32 mem (a + 4)

/-- The walk after a token. -/
def Token.after (mem : Bytes) (strings : Nat) (w : Walk) : Token → Walk
  | .beginNode len => (Fdt.beginNode mem (len + 1) { w with p := w.p + 4 }).val
  | .endNode => { w with p := w.p + 4, depth := w.depth - 1 }
  | .prop => (property mem strings { w with p := w.p + 4 }).val
  | .other => { w with p := w.p + 4 }

/-- The name of the property whose token is at `p`. -/
def pnameAt (mem : Bytes) (strings p : Nat) : Nat := strings + getBE32 mem (p + 8)

/-- That name is this literal. -/
def Named (mem : Bytes) (strings p : Nat) (s : List UInt8) : Prop :=
  CStr.strcmp mem (pnameAt mem strings p) s = 0

/-- That name can be compared with this literal. -/
def Comparable (mem : Bytes) (inside : Nat → Prop) (strings p : Nat) (s : List UInt8) : Prop :=
  Compared mem inside (pnameAt mem strings p) (s ++ [0])

/-- The number of cells behind the property at `p`: its value, if it has this name and four
octets. -/
def cellsAfter (mem : Bytes) (strings p : Nat) (s : List UInt8) (cells : Int) : Int :=
  if CStr.strcmp mem (pnameAt mem strings p) s = 0 ∧ getBE32 mem (p + 4) = 4 then
    wrapInt (getBE32 mem (p + 12))
  else cells

/-- The property is a `reg` of a child of a serial node. -/
def Spot.serial (mem : Bytes) (strings : Nat) (k : Spot) : Prop :=
  2 ≤ k.depth ∧ ¬ isMemory (k.path (k.depth - 2)) ∧ isUart (k.path (k.depth - 2)) ∧
    CStr.strcmp mem (pnameAt mem strings k.p) sReg = 0

instance (mem : Bytes) (strings : Nat) (k : Spot) : Decidable (k.serial mem strings) :=
  inferInstanceAs (Decidable (_ ∧ _))

/-- Behind a token: a name and a value are padded to words of four octets, in 32 bits. -/
def Token.behind (mem : Bytes) (strings : Nat) (k : Spot) : Token → Spot
  | .beginNode len =>
    { k with
      p := k.p + 4 + (len + 4) % 4294967296 / 4 * 4
      depth := k.depth + 1
      path := if k.depth < 8 then Function.update k.path k.depth (CStr.read mem (k.p + 4) 47)
        else k.path }
  | .endNode => { k with p := k.p + 4, depth := k.depth - 1 }
  | .prop =>
    { k with
      p := k.p + 4 + (8 + (getBE32 mem (k.p + 4) + 3) % 4294967296 / 4 * 4) % 4294967296
      addrCells := cellsAfter mem strings k.p sAddressCells k.addrCells
      sizeCells := cellsAfter mem strings k.p sSizeCells k.sizeCells
      uartBaseVal := if k.serial mem strings ∧ k.uartBaseVal = 0 then getBE64 mem (k.p + 12)
        else k.uartBaseVal }
  | .other => { k with p := k.p + 4 }

/-- A property that is read inside the blob: its token, length and name offset; the depth of
its node; its name as far as it is compared; its value as far as it is used. What is compared
and used depends on the row two below the depth. -/
structure PropertySound (mem : Bytes) (inside : Nat → Prop) (strings : Nat) (k : Spot) : Prop where
  token : Covered inside k.p 12
  shallow : k.depth ≤ 9
  addressCells : Comparable mem inside strings k.p sAddressCells ∧
    (Named mem strings k.p sAddressCells → getBE32 mem (k.p + 4) = 4 → Covered inside (k.p + 12) 4)
  sizeCells : Comparable mem inside strings k.p sSizeCells ∧
    (Named mem strings k.p sSizeCells → getBE32 mem (k.p + 4) = 4 → Covered inside (k.p + 12) 4)
  chosen : 2 ≤ k.depth → isChosen (k.path (k.depth - 2)) →
    Comparable mem inside strings k.p sBootargs
  memory : 2 ≤ k.depth → isMemory (k.path (k.depth - 2)) →
    Comparable mem inside strings k.p sDeviceType ∧ (Named mem strings k.p sDeviceType →
      inside (k.p + 12)) ∧
    Comparable mem inside strings k.p sReg ∧
    (Named mem strings k.p sReg → regSize k.addrCells k.sizeCells ≤ getBE32 mem (k.p + 4) →
      Covered inside (k.p + 12) 8 ∧
        Covered inside (offset (k.p + 12) (wrapInt (k.addrCells * 4))) 8)
  uart : 2 ≤ k.depth → ¬ isMemory (k.path (k.depth - 2)) → isUart (k.path (k.depth - 2)) →
    Comparable mem inside strings k.p sReg ∧
    (Named mem strings k.p sReg → k.uartBaseVal = 0 → Covered inside (k.p + 12) 8)
  cpus : 2 ≤ k.depth → ¬ isMemory (k.path (k.depth - 2)) → ¬ isUart (k.path (k.depth - 2)) →
    isCpus (k.path (k.depth - 2)) → Comparable mem inside strings k.p sDeviceType ∧
    (Named mem strings k.p sDeviceType → Compared mem inside (k.p + 12) sCpu)

/-- A token that is read inside the blob and indexes no row but the eight there are. -/
def Token.Sound (mem : Bytes) (inside : Nat → Prop) (strings : Nat) (k : Spot) : Token → Prop
  | .beginNode len => 0 ≤ k.depth ∧ Covered inside k.p (len + 5)
  | .endNode | .other => Covered inside k.p 4
  | .prop => PropertySound mem inside strings k

/-! ## What a property reads -/

variable {parent : List UInt8} {pname plen val : Nat}

theorem takeBootargs_val (mem : Bytes) (parent : List UInt8) (pname val : Nat) (w : Walk) :
    (takeBootargs mem parent pname val w).val =
      { w with bootargs := if (2 ≤ w.depth ∧ isChosen parent) ∧
        CStr.strcmp mem pname sBootargs = 0 then some val
                           else w.bootargs } := by
  rw [takeBootargs, val_ite, val_bind, val_pure, val_pure, kStrcmp_val]
  by_cases chosen : 2 ≤ w.depth ∧ isChosen parent
  · by_cases named : CStr.strcmp mem pname sBootargs = 0
    · rw [if_pos chosen, if_pos named, if_pos ⟨chosen, named⟩]
    · rw [if_pos chosen, if_neg named, if_neg fun both => named both.2]
  · rw [if_neg chosen, if_neg fun both => chosen both.1]

theorem all_takeBootargs : (takeBootargs mem parent pname val w).All (Allowed inside) ↔
    (2 ≤ w.depth ∧ isChosen parent → Compared mem inside pname (sBootargs ++ [0])) := by
  rw [takeBootargs, all_ite, all_bind, all_kStrcmp, all_pure, all_pure]
  simp only [and_true, implies_true]

theorem overrideCells_val (mem : Bytes) (s : List UInt8) (pname plen val : Nat) (cells : Int) :
    (overrideCells mem s pname plen val cells).val =
      if CStr.strcmp mem pname s = 0 ∧ plen = 4 then wrapInt (getBE32 mem val) else cells := by
  rw [overrideCells, val_bind, kStrcmp_val, val_ite, val_bind, val_pure, val_pure, be32_val]

theorem all_overrideCells {cells : Int} :
    (overrideCells mem s pname plen val cells).All (Allowed inside) ↔
    Compared mem inside pname (s ++ [0]) ∧
    (CStr.strcmp mem pname s = 0 → plen = 4 → Covered inside val 4) := by
  rw [overrideCells, all_bind, all_kStrcmp, kStrcmp_val, all_ite, all_bind, all_be32,
    all_pure, all_pure]
  simp only [and_true, implies_true, and_imp]

theorem takeCells_val (mem : Bytes) (pname plen val : Nat) (w : Walk) :
    (takeCells mem pname plen val w).val =
      { w with
        addrCells := if CStr.strcmp mem pname sAddressCells = 0 ∧
        plen = 4 then wrapInt (getBE32 mem val) else w.addrCells
        sizeCells := if CStr.strcmp mem pname sSizeCells = 0 ∧
            plen = 4 then wrapInt (getBE32 mem val) else w.sizeCells } := by
  rw [takeCells, val_bind, val_bind, val_pure, overrideCells_val, overrideCells_val]

theorem all_takeMemory :
    (takeMemory mem pname plen val w).All (Allowed inside) ↔
    Compared mem inside pname (sDeviceType ++ [0]) ∧
    (CStr.strcmp mem pname sDeviceType = 0 → inside val) ∧
      Compared mem inside pname (sReg ++ [0]) ∧
      (CStr.strcmp mem pname sReg = 0 → regSize w.addrCells w.sizeCells ≤ plen →
        Covered inside val 8 ∧ Covered inside (offset val (wrapInt (w.addrCells * 4))) 8) := by
  rw [takeMemory, all_bind, testDeviceType, all_bind, all_kStrcmp, kStrcmp_val, all_ite, all_bind,
    all_load, all_pure,
    all_bind, all_kStrcmp, kStrcmp_val, all_ite, all_bind, all_bind, all_be64, all_be64,
      all_pure, all_pure]
  simp only [and_true, implies_true, and_imp, and_assoc]

theorem all_takeUart :
    (takeUart mem pname val w).All (Allowed inside) ↔ Compared mem inside pname (sReg ++ [0]) ∧
      (CStr.strcmp mem pname sReg = 0 → w.uartBaseVal = 0 → Covered inside val 8) := by
  rw [takeUart, all_bind, all_kStrcmp, kStrcmp_val, all_ite, all_bind, all_be64, all_pure, all_pure]
  simp only [and_true, implies_true, and_imp]

theorem all_countCpu : (countCpu mem pname val w).All (Allowed inside) ↔
    Compared mem inside pname (sDeviceType ++ [0]) ∧
      (CStr.strcmp mem pname sDeviceType = 0 → Compared mem inside val sCpu) := by
  rw [countCpu, all_bind, all_kStrcmp, kStrcmp_val, all_ite, all_bind, all_kStrncmp,
    all_pure, all_pure]
  simp only [and_true, implies_true]

theorem be64_val (mem : Bytes) (a : Nat) : (be64 mem a).val = getBE64 mem a := by
  have low : getBE32 mem (a + 4) < 2 ^ 32 := getBE32_lt mem (a + 4)
  rw [be64, val_bind, val_bind, val_pure, be32_val, be32_val, ← Nat.shiftLeft_add_eq_or_of_lt low,
    Nat.shiftLeft_eq,
    getBE64]

theorem takeMemory_val (mem : Bytes) (pname plen val : Nat) (w : Walk) :
    (takeMemory mem pname plen val w).val =
      if CStr.strcmp mem pname sReg = 0 ∧ regSize w.addrCells w.sizeCells ≤ plen then
        { w with
          memBase := getBE64 mem val,
          memSize := getBE64 mem (offset val (wrapInt (w.addrCells * 4))) }
      else w := by
  rw [takeMemory, val_bind, val_bind, kStrcmp_val, val_ite, val_bind, val_bind, val_pure, val_pure,
    be64_val, be64_val]

theorem takeUart_val (mem : Bytes) (pname val : Nat) (w : Walk) :
    (takeUart mem pname val w).val = if CStr.strcmp mem pname sReg = 0 ∧
      w.uartBaseVal = 0 then { w with uartBaseVal := getBE64 mem val } else w := by
  rw [takeUart, val_bind, kStrcmp_val, val_ite, val_bind, val_pure, val_pure, be64_val]

theorem countCpu_val (mem : Bytes) (pname val : Nat) (w : Walk) : (countCpu mem pname val w).val =
      if CStr.strcmp mem pname sDeviceType = 0 ∧ (kStrncmp mem val sCpu).val = 0 then
        { w with cpusFound := w.cpusFound + 1 }
      else w := by
  rw [countCpu, val_bind, kStrcmp_val, val_ite, val_bind, val_pure, val_pure]
  by_cases named : CStr.strcmp mem pname sDeviceType = 0
  · simp only [named, if_true, true_and]
  · simp only [named, if_false, false_and]

theorem parentRow_val (w : Walk) :
    (parentRow w).val = if 2 ≤ w.depth then w.path (w.depth - 2) else [] := by
  rw [parentRow, val_ite, val_bind, val_pure, val_pure]

theorem all_parentRow : (parentRow w).All (Allowed inside) ↔ w.depth ≤ 9 := by
  rw [parentRow, all_ite, all_bind, all_note, all_pure, all_pure]
  simp only [and_true, implies_true, Allowed]
  omega

theorem Named.unique {t : List UInt8} (named : Named mem strings p s)
    (other : Named mem strings p t) (clean : (0 : UInt8) ∉ s) (clean' : (0 : UInt8) ∉ t) :
    s = t := by
  rw [Named, CStr.strcmp_eq_zero clean (n := s.length + t.length + 1) (by omega)] at named
  rw [Named, CStr.strcmp_eq_zero clean' (n := s.length + t.length + 1) (by omega)] at other
  exact named.symm.trans other

/-- Where a walk stands. -/
def Walk.spot (w : Walk) : Spot :=
  ⟨w.p, w.depth, w.path, w.addrCells, w.sizeCells, w.uartBaseVal⟩

theorem all_property : Covered inside w.p 4 ∧ (property mem strings { w with p := w.p + 4 }).All
    (Allowed inside) ↔
    PropertySound mem inside strings w.spot := by
  have token : Covered inside w.p 12 ↔ Covered inside w.p 4 ∧ Covered inside (w.p + 4) 4 ∧
      Covered inside (w.p + 8) 4 := by
    rw [show 12 = 4 + (4 + 4) from rfl, covered_add, covered_add]
  -- a `reg` leaves the cells as they are
  have keep : ∀ {t : List UInt8} {c d : Int}, (0 : UInt8) ∉ t → sReg ≠ t →
    Named mem strings w.p sReg →
      (if CStr.strcmp mem (strings + getBE32 mem (w.p + 8)) t = 0 ∧
          getBE32 mem (w.p + 4) = 4 then c else d) = d := by
    intro t c d clean differ named
    exact if_neg fun other => differ (named.unique other.1 (by decide) clean)
  have keepAddr := @keep sAddressCells (wrapInt (getBE32 mem (w.p + 12))) w.addrCells
    (by decide) (by decide)
  have keepSize := @keep sSizeCells (wrapInt (getBE32 mem (w.p + 12))) w.sizeCells
    (by decide) (by decide)
  simp only [property, all_bind, all_be32, be32_val, parentRow_val, all_parentRow, all_takeBootargs,
    takeBootargs_val,
    all_ite, takeCells, val_bind, all_overrideCells, overrideCells_val, val_pure, all_pure,
      all_takeMemory, all_takeUart,
    all_countCpu, Nat.add_assoc, Nat.reduceAdd]
  have row : 2 ≤ w.depth →
      (if 2 ≤ w.depth then w.path (w.depth - 2) else []) = w.spot.path (w.spot.depth - 2) :=
    fun deep => if_pos deep
  generalize (if 2 ≤ w.depth then w.path (w.depth - 2) else []) = parent at row ⊢
  constructor
  · rintro ⟨h4, h8, h12, shallow, chosen, ⟨addressCells, sizeCells, _⟩, memory, others⟩
    exact {
      token := token.mpr ⟨h4, h8, h12⟩
      shallow := shallow
      addressCells := addressCells
      sizeCells := sizeCells
      chosen := fun deep is => chosen ⟨deep, row deep ▸ is⟩
      memory := fun deep is => by
        obtain ⟨typeRead, typeValue, regRead, regValue⟩ := memory ⟨deep, row deep ▸ is⟩
        refine ⟨typeRead, typeValue, regRead, fun named long => ?_⟩
        have := regValue named
        rw [keepAddr named, keepSize named] at this
        exact this long
      uart := fun deep noMemory is => (others fun both => noMemory (row deep ▸ both.2)).1 ⟨deep,
        row deep ▸ is⟩
      cpus := fun deep noMemory noUart is =>
        ((others fun both => noMemory (row deep ▸ both.2)).2 fun both =>
          noUart (row deep ▸ both.2)).1
          ⟨deep, row deep ▸ is⟩ }
  · intro sound
    obtain ⟨h4, h8, h12⟩ := token.mp sound.token
    refine ⟨h4, h8, h12, sound.shallow, fun both => sound.chosen both.1 (row both.1 ▸ both.2),
      ⟨sound.addressCells, sound.sizeCells, trivial⟩, fun both => ?_, fun noMemory =>
        ⟨fun both => ?_, fun noUart =>
      ⟨fun both => ?_, fun _ => trivial⟩⟩⟩
    · obtain ⟨typeRead, typeValue, regRead, regValue⟩ := sound.memory both.1 (row both.1 ▸ both.2)
      refine ⟨typeRead, typeValue, regRead, fun named => ?_⟩
      rw [keepAddr named, keepSize named]
      exact regValue named
    · exact sound.uart both.1 (fun is => noMemory ⟨both.1, row both.1 ▸ is⟩) (row both.1 ▸ both.2)
    · exact sound.cpus both.1 (fun is => noMemory ⟨both.1, row both.1 ▸ is⟩) (fun is =>
        noUart ⟨both.1, row both.1 ▸ is⟩)
        (row both.1 ▸ both.2)

theorem kStrncpy_val (mem : Bytes) (a n : Nat) : (kStrncpy mem a n).val = CStr.read mem a n := by
  induction n generalizing a with
  | zero => rfl
  | succ n ih => rw [kStrncpy, val_bind, load_val, val_ite, val_bind, ih, val_pure, val_pure,
      CStr.read]

theorem spot_memory (w : Walk) (base size : Nat) :
    Walk.spot { w with memBase := base, memSize := size } = w.spot := rfl

theorem takeMemory_spot : (takeMemory mem pname plen val w).val.spot = w.spot := by
  rw [takeMemory_val, apply_ite Walk.spot, spot_memory, ite_self]

theorem countCpu_spot : (countCpu mem pname val w).val.spot = w.spot := by
  rw [countCpu_val, apply_ite Walk.spot]
  exact ite_self _

theorem takeUart_spot : (takeUart mem pname val w).val.spot = { w.spot with
    uartBaseVal := if CStr.strcmp mem pname sReg = 0 ∧ w.uartBaseVal = 0 then getBE64 mem val
      else w.uartBaseVal } := by
  rw [takeUart_val]
  by_cases first : CStr.strcmp mem pname sReg = 0 ∧ w.uartBaseVal = 0
  · rw [if_pos first, if_pos first]
    rfl
  · rw [if_neg first, if_neg first]
    rfl

theorem property_spot : (property mem strings { w with p := w.p + 4 }).val.spot =
    Token.prop.behind mem strings w.spot := by
  have row : 2 ≤ w.depth →
      (if 2 ≤ w.depth then w.path (w.depth - 2) else []) = w.spot.path (w.spot.depth - 2) :=
    fun deep => if_pos deep
  simp only [property, val_bind, be32_val, parentRow_val, takeBootargs_val, takeCells_val, val_ite,
    apply_ite Walk.spot, takeMemory_spot, takeUart_spot, countCpu_spot, val_pure, ite_self]
  generalize (if 2 ≤ w.depth then w.path (w.depth - 2) else []) = parent at row ⊢
  -- only a serial node leaves more than the cells
  by_cases serial : 2 ≤ w.depth ∧ ¬ isMemory parent ∧ isUart parent
  · rw [if_neg fun both => serial.2.1 both.2, if_pos ⟨serial.1, serial.2.2⟩]
    have named : w.spot.serial mem strings ↔
        CStr.strcmp mem (strings + getBE32 mem (w.p + 8)) sReg = 0 := by
      unfold Spot.serial
      rw [← row serial.1]
      exact ⟨fun h => h.2.2.2, fun h => ⟨serial.1, serial.2.1, serial.2.2, h⟩⟩
    simp only [Token.behind, named]
    simp only [Walk.spot, cellsAfter, pnameAt, andNot3, Nat.add_assoc, Nat.reduceAdd]
    congr
  · have none : ¬ w.spot.serial mem strings := by
      intro h
      refine serial ⟨h.1, ?_⟩
      rw [row h.1]
      exact ⟨h.2.1, h.2.2.1⟩
    have skip : ∀ a b : Spot, (if 2 ≤ w.depth ∧ isMemory parent = true then a
        else if 2 ≤ w.depth ∧ isUart parent = true then b else a) = a := by
      intro a b
      by_cases memory : 2 ≤ w.depth ∧ isMemory parent = true
      · rw [if_pos memory]
      · rw [if_neg memory, if_neg fun uart => serial ⟨uart.1, fun is => memory ⟨uart.1, is⟩,
          uart.2⟩]
    rw [skip]
    simp only [Token.behind, none, false_and, if_false]
    simp only [Walk.spot, cellsAfter, pnameAt, andNot3, Nat.add_assoc, Nat.reduceAdd]
    congr

/-! ## What a token reads -/

theorem all_beginNode (string : StringAt mem (w.p + 4) len) :
    Covered inside w.p 4 ∧ Covered inside (w.p + 4) (len + 1) ∧
        (beginNode mem (len + 1) { w with p := w.p + 4 }).All (Allowed inside) ↔
      0 ≤ w.depth ∧ Covered inside w.p (len + 5) := by
  have octets : Covered inside w.p (len + 5) ↔ Covered inside w.p 4 ∧
      Covered inside (w.p + 4) (len + 1) := by
    rw [show len + 5 = 4 + (len + 1) by omega, covered_add]
  simp only [beginNode, copyName, all_bind, all_ite, all_note, all_pure, and_true, implies_true,
    Allowed]
  rw [octets]
  constructor
  · rintro ⟨token, name, rows⟩
    refine ⟨?_, token, name⟩
    by_cases low : w.depth < 8
    · exact (rows low).1.1
    · omega
  · rintro ⟨depth, token, name⟩
    exact ⟨token, name, fun low => ⟨⟨depth, low⟩, all_kStrncpy string name 47⟩⟩

/-- Fuel that reads the token. -/
def Token.Enough (fuel : Nat) : Token → Prop
  | .beginNode len => len < fuel
  | _ => True

variable {t : Token}

theorem Token.At.not_end (here : t.At mem p) : getBE32 mem p ≠ fdtEnd := by
  cases t with
  | beginNode len => rw [here.1]; decide
  | endNode => rw [Token.At] at here; rw [here]; decide
  | prop => rw [Token.At] at here; rw [here]; decide
  | other => exact here fdtEnd (by simp)

theorem dispatch_token (here : t.At mem w.p) (enough : t.Enough fuel) :
    (dispatch mem strings fuel (getBE32 mem w.p) { w with p := w.p + 4 }).val = some
    (t.after mem strings w) ∧
      (Covered inside w.p 4 ∧ (dispatch mem strings fuel (getBE32 mem w.p) { w with
        p := w.p + 4 }).All (Allowed inside) ↔
        t.Sound mem inside strings w.spot) := by
  cases t with
  | beginNode len =>
    have found : StringAt mem (w.p + 4 + 0) len := here.2
    obtain ⟨value, reads⟩ := @kStrlen_of_string mem inside (w.p + 4) 0 len fuel found enough
    rw [here.1, dispatch, if_neg (by decide), if_pos rfl, val_bind, all_bind, value, reads]
    rw [Nat.zero_add]
    simp only [val_bind, val_pure, all_bind, all_pure, and_true]
    exact ⟨rfl, all_beginNode here.2⟩
  | endNode =>
    rw [here]
    refine ⟨rfl, ?_⟩
    have branch : dispatch mem strings fuel fdtEndNode { w with p := w.p + 4 } =
        pure (some { w with p := w.p + 4, depth := w.depth - 1 }) := rfl
    rw [branch, all_pure, and_true]
    exact Iff.rfl
  | prop =>
    rw [here]
    refine ⟨rfl, ?_⟩
    have branch : dispatch mem strings fuel fdtProp { w with p := w.p + 4 } = (do
        let w ← property mem strings { w with p := w.p + 4 }
        pure (some w)) := rfl
    rw [branch, all_bind, all_pure, and_true]
    exact all_property
  | other =>
    have branch : dispatch mem strings fuel (getBE32 mem w.p) { w with p := w.p + 4 } =
        pure (some { w with p := w.p + 4 }) := by
      rw [dispatch, if_neg (here fdtBeginNode (by simp)), if_neg (here fdtEndNode (by simp)),
        if_pos (here fdtProp (by simp)), ite_self]
    rw [branch, all_pure, and_true]
    exact ⟨rfl, Iff.rfl⟩

theorem token_of_dispatch (going : getBE32 mem w.p ≠ fdtEnd)
    (got : (dispatch mem strings fuel (getBE32 mem w.p) { w with p := w.p + 4 }).val = some next) :
    ∃ t : Token, t.At mem w.p ∧ t.Enough fuel := by
  by_cases isBegin : getBE32 mem w.p = fdtBeginNode
  · rw [isBegin] at got
    rw [dispatch, if_neg (by decide), if_pos rfl, val_bind] at got
    cases length : (kStrlen mem (w.p + 4) fuel 0).val with
    | none =>
      rw [length] at got
      cases got
    | some n =>
      obtain ⟨len, _, string, low⟩ := kStrlen_some length
      exact ⟨.beginNode len, ⟨isBegin, string⟩, low⟩
  · by_cases isEnd : getBE32 mem w.p = fdtEndNode
    · exact ⟨.endNode, isEnd, trivial⟩
    · by_cases isProp : getBE32 mem w.p = fdtProp
      · exact ⟨.prop, isProp, trivial⟩
      · refine ⟨.other, fun t member => ?_, trivial⟩
        simp only [List.mem_cons, List.not_mem_nil, or_false] at member
        rcases member with rfl | rfl | rfl | rfl
        · exact isBegin
        · exact isEnd
        · exact isProp
        · exact going

/-! ## The walk as a run over tokens -/

def Token.step (mem : Bytes) (strings : Nat) (w : Walk) (t : Token) : Option Walk :=
  some (t.after mem strings w)

/-- A run over tokens as they follow one another in memory. -/
abbrev Steps (mem : Bytes) (strings : Nat) : Walk → List Token → Walk → Prop :=
  Run (Token.step mem strings) fun w t => t.At mem w.p

/-- Tokens as they follow one another in the blob, every one of them sound. -/
abbrev SoundSteps (mem : Bytes) (inside : Nat → Prop) (strings : Nat) :
    Spot → List Token → Spot → Prop :=
  Run (fun k t => some (Token.behind mem strings k t)) fun k t =>
    t.At mem k.p ∧ t.Sound mem inside strings k

theorem after_spot (mem : Bytes) (strings : Nat) (w : Walk) (t : Token) :
    (t.after mem strings w).spot = t.behind mem strings w.spot := by
  cases t with
  | beginNode len =>
    rw [Token.after, beginNode, val_bind, val_pure, copyName, val_ite, val_bind, val_bind, val_pure,
      val_pure, kStrncpy_val]
    rfl
  | endNode => rfl
  | prop => exact property_spot
  | other => rfl

variable {ts : List Token} {final : Walk} {bound : Nat}

theorem exists_enough (ts : List Token) :
    ∃ bound, ∀ fuel, bound ≤ fuel → ∀ t ∈ ts, t.Enough fuel := by
  induction ts with
  | nil => exact ⟨0, fun _ _ t member => nomatch member⟩
  | cons t ts ih =>
    obtain ⟨bound, enough⟩ := ih
    cases t with
    | beginNode len =>
      refine ⟨max bound (len + 1), fun fuel high t member => ?_⟩
      rcases List.mem_cons.mp member with rfl | later
      · exact Nat.lt_of_succ_le (Nat.le_trans (Nat.le_max_right _ _) high)
      · exact enough fuel (Nat.le_trans (Nat.le_max_left _ _) high) t later
    | endNode | prop | other =>
      refine ⟨bound, fun fuel high t member => ?_⟩
      rcases List.mem_cons.mp member with rfl | later
      · trivial
      · exact enough fuel high t later

theorem walk_end (ended : getBE32 mem w.p = fdtEnd) :
    (walk mem strings (fuel + 1) w).val = some { w with p := w.p + 4 } ∧
      ((walk mem strings (fuel + 1) w).All (Allowed inside) ↔ Covered inside w.p 4) := by
  rw [walk, val_bind, all_bind, be32_val, all_be32, if_pos ended, all_pure, and_true]
  exact ⟨rfl, Iff.rfl⟩

/-- What follows a round. -/
def afterRound (mem : Bytes) (strings fuel : Nat) : Option Walk → Traced Access (Option Walk)
  | none => pure none
  | some w => walk mem strings fuel w

theorem walk_succ : walk mem strings (fuel + 1) w = (do
    let token ← be32 mem w.p
    if token = fdtEnd then pure (some { w with p := w.p + 4 })
    else do
      let next ← dispatch mem strings fuel token { w with p := w.p + 4 }
      afterRound mem strings fuel next) := rfl

theorem round_parts {P : Access → Prop} {token : Traced Access Nat}
    (stop : Traced Access (Option Walk)) (body : Nat → Traced Access (Option Walk))
    (rest : Option Walk → Traced Access (Option Walk)) (going : token.val ≠ fdtEnd) :
    (do
        let t ← token
        if t = fdtEnd then stop
        else do
          let next ← body t
          rest next).val = (rest (body token.val).val).val ∧ ((do
        let t ← token
        if t = fdtEnd then stop
        else do
          let next ← body t
          rest next).All P ↔ token.All P ∧ (body token.val).All P ∧
          (rest (body token.val).val).All P) := by
  rw [val_bind, all_bind, if_neg going, all_bind]
  exact ⟨rfl, Iff.rfl⟩

theorem walk_round (going : getBE32 mem w.p ≠ fdtEnd) :
    (walk mem strings (fuel + 1) w).val = (afterRound mem strings fuel
          (dispatch mem strings fuel (getBE32 mem w.p) { w with p := w.p + 4 }).val).val ∧
      ((walk mem strings (fuel + 1) w).All (Allowed inside) ↔
        Covered inside w.p 4 ∧
          (dispatch mem strings fuel (getBE32 mem w.p) { w with p := w.p + 4 }).All
            (Allowed inside) ∧
          (afterRound mem strings fuel
            (dispatch mem strings fuel (getBE32 mem w.p) { w with p := w.p + 4 }).val).All
                (Allowed inside)) := by
  have goesOn : (be32 mem w.p).val ≠ fdtEnd := by rwa [be32_val]
  have parts := @round_parts (Allowed inside) _ (pure (some { w with p := w.p + 4 }))
    (fun token => dispatch mem strings fuel token { w with p := w.p + 4 })
      (afterRound mem strings fuel) goesOn
  rw [be32_val, all_be32] at parts
  rw [walk_succ]
  exact parts

/-- A round over a token: the walk goes on behind it, and has read what the token reads. -/
theorem walk_token (here : t.At mem w.p) (enough : t.Enough fuel) :
    (walk mem strings (fuel + 1) w).val = (walk mem strings fuel (t.after mem strings w)).val ∧
      ((walk mem strings (fuel + 1) w).All (Allowed inside) ↔
        t.Sound mem inside strings w.spot ∧ (walk mem strings fuel (t.after mem strings w)).All
        (Allowed inside)) := by
  obtain ⟨value, reads⟩ := @dispatch_token mem inside strings fuel w t here enough
  obtain ⟨same, parts⟩ := @walk_round mem inside strings fuel w here.not_end
  rw [value] at same parts
  rw [← and_assoc, reads] at parts
  exact ⟨same, parts⟩

theorem walk_val (run : Steps mem strings w ts final) (ended : getBE32 mem final.p = fdtEnd)
    (enough : ∀ fuel, bound ≤ fuel → ∀ t ∈ ts, t.Enough fuel) (high : ts.length + bound < fuel) :
    (walk mem strings fuel w).val = some { final with p := final.p + 4 } := by
  induction run generalizing fuel with
  | done w =>
    obtain ⟨fuel, rfl⟩ := Nat.exists_eq_succ_of_ne_zero (Nat.ne_of_gt (Nat.zero_lt_of_lt high))
    exact (@walk_end mem (fun _ => True) strings fuel w ended).1
  | @call w next final t ts here returned rest ih =>
    obtain ⟨fuel, rfl⟩ := Nat.exists_eq_succ_of_ne_zero (Nat.ne_of_gt (Nat.zero_lt_of_lt high))
    rw [List.length_cons] at high
    have round := (@walk_token mem (fun _ => True) strings fuel w t here
      (enough fuel (by omega) t List.mem_cons_self)).1
    cases returned
    rw [round]
    exact ih ended (fun fuel high t later => enough fuel high t (List.mem_cons_of_mem _ later))
      (by omega)

theorem walk_all {k last : Spot} (run : SoundSteps mem inside strings k ts last)
    (ended : getBE32 mem last.p = fdtEnd) (covered : Covered inside last.p 4)
    (enough : ∀ fuel, bound ≤ fuel → ∀ t ∈ ts, t.Enough fuel) (high : ts.length + bound < fuel)
    (here : w.spot = k) : (walk mem strings fuel w).All (Allowed inside) := by
  induction run generalizing fuel w with
  | done k =>
    obtain ⟨fuel, rfl⟩ := Nat.exists_eq_succ_of_ne_zero (Nat.ne_of_gt (Nat.zero_lt_of_lt high))
    subst here
    exact (walk_end ended).2.mpr covered
  | @call k next last t ts admitted returned rest ih =>
    obtain ⟨fuel, rfl⟩ := Nat.exists_eq_succ_of_ne_zero (Nat.ne_of_gt (Nat.zero_lt_of_lt high))
    rw [List.length_cons] at high
    subst here
    have round := (@walk_token mem inside strings fuel w t admitted.1
      (enough fuel (by omega) t List.mem_cons_self)).2
    cases returned
    refine round.mpr ⟨admitted.2, ?_⟩
    exact ih ended covered (fun fuel high t later =>
      enough fuel high t (List.mem_cons_of_mem _ later)) (by omega)
      (after_spot mem strings w t)

theorem SoundSteps.steps {k last : Spot} (run : SoundSteps mem inside strings k ts last)
    (here : w.spot = k) : ∃ final, Steps mem strings w ts final ∧ final.spot = last := by
  induction run generalizing w with
  | done => exact ⟨w, .done w, here⟩
  | @call k next last t ts admitted returned _ ih =>
    cases returned
    subst here
    obtain ⟨final, rest, there⟩ := ih (after_spot mem strings w t)
    exact ⟨final, .call admitted.1 rfl rest, there⟩

theorem soundSteps_of_walk (got : (walk mem strings fuel w).val.isSome)
    (reads : (walk mem strings fuel w).All (Allowed inside)) :
    ∃ ts last, SoundSteps mem inside strings w.spot ts last ∧ getBE32 mem last.p = fdtEnd ∧
    Covered inside last.p 4 := by
  induction fuel generalizing w with
  | zero => cases got
  | succ fuel ih =>
    by_cases ended : getBE32 mem w.p = fdtEnd
    · exact ⟨[], w.spot, .done w.spot, ended, (walk_end ended).2.mp reads⟩
    · cases round : (dispatch mem strings fuel (getBE32 mem w.p) { w with p := w.p + 4 }).val with
      | none =>
        rw [(@walk_round mem inside strings fuel w ended).1, round] at got
        cases got
      | some next =>
        obtain ⟨t, here, enough⟩ := token_of_dispatch ended round
        obtain ⟨same, parts⟩ := @walk_token mem inside strings fuel w t here enough
        rw [same] at got
        obtain ⟨ts, last, run, atEnd, covered⟩ := ih got (parts.mp reads).2
        rw [after_spot] at run
        exact ⟨t :: ts, last, .call ⟨here, (parts.mp reads).1⟩ rfl run, atEnd, covered⟩

/-! ## Safe blobs -/

/-- The `totalsize` octets of the blob at `addr`. -/
def InBlob (mem : Bytes) (addr a : Nat) : Prop := addr ≤ a ∧ a < addr + getBE32 mem (addr + 4)

instance (mem : Bytes) (addr : Nat) : DecidablePred (InBlob mem addr) :=
  fun _ => inferInstanceAs (Decidable (_ ∧ _))

/-- `fdt_init` returns, reads only the blob and indexes only rows of `path`. -/
def Safe (mem : Bytes) (addr : Nat) (old : Harvest) : Prop :=
  ∃ fuel, (fdtInit mem fuel addr old).val.isSome ∧
    (fdtInit mem fuel addr old).All (Allowed (InBlob mem addr))

/-- The walk at the start of the structure block. -/
def startOf (mem : Bytes) (addr : Nat) : Walk := ⟨{}, addr + getBE32 mem (addr + 8), 0, fun _ => []⟩

/-- Where the tokens start: at depth 0, with two cells for addresses and sizes. -/
def firstSpot (mem : Bytes) (addr : Nat) : Spot :=
  ⟨addr + getBE32 mem (addr + 8), 0, fun _ => [], 2, 2, 0⟩

/-- The structure block is tokens down to an `FDT_END`, all of them sound. -/
def SoundBlock (mem : Bytes) (addr : Nat) : Prop :=
  ∃ ts last, SoundSteps mem (InBlob mem addr) (addr + getBE32 mem (addr + 12))
    (firstSpot mem addr) ts last ∧
    getBE32 mem last.p = fdtEnd ∧ Covered (InBlob mem addr) last.p 4

theorem fdtInit_parts {addr : Nat} (nonnull : addr ≠ 0) (magic : getBE32 mem addr = fdtMagic)
    (old : Harvest) :
    (fdtInit mem fuel addr old).val =
        (walk mem (addr + getBE32 mem (addr + 12)) fuel (startOf mem addr)).val.map
        (fun w => (true, w.toHarvest)) ∧
      ((fdtInit mem fuel addr old).All (Allowed inside) ↔
        Covered inside addr 4 ∧ Covered inside (addr + 12) 4 ∧ Covered inside (addr + 8) 4 ∧
          (walk mem (addr + getBE32 mem (addr + 12)) fuel (startOf mem addr)).All
          (Allowed inside)) := by
  rw [fdtInit, if_neg nonnull, val_bind, all_bind, be32_val, if_neg (not_not_intro magic)]
  simp only [val_bind, all_bind, be32_val, all_be32, val_pure, all_pure, and_true]
  exact ⟨rfl, Iff.rfl⟩

theorem covered_blob {addr k : Nat} :
    Covered (InBlob mem addr) (addr + k) 4 ↔ k + 4 ≤ getBE32 mem (addr + 4) := by
  constructor
  · intro all
    have := (all 3 (by decide)).2
    omega
  · intro low j hj
    exact ⟨by omega, by omega⟩

/-- A blob is walked safely exactly when its header is inside it and its structure block is sound.
-/
theorem fdt_init_safe_iff (mem : Bytes) (addr : Nat) (old : Harvest) (nonnull : addr ≠ 0)
    (magic : getBE32 mem addr = fdtMagic) :
    Safe mem addr old ↔ 16 ≤ getBE32 mem (addr + 4) ∧ SoundBlock mem addr := by
  constructor
  · intro ⟨fuel, got, reads⟩
    obtain ⟨value, parts⟩ := @fdtInit_parts mem (InBlob mem addr) fuel addr nonnull magic old
    rw [value, Option.isSome_map] at got
    obtain ⟨_, strings, _, walked⟩ := parts.mp reads
    exact ⟨covered_blob.mp strings, soundSteps_of_walk got walked⟩
  · intro ⟨header, ts, last, run, ended, covered⟩
    obtain ⟨bound, enough⟩ := exists_enough ts
    obtain ⟨final, steps, there⟩ := run.steps (rfl : (startOf mem addr).spot = firstSpot mem addr)
    have high : ts.length + bound < ts.length + bound + 1 := Nat.lt_succ_self _
    obtain ⟨value, parts⟩ := @fdtInit_parts mem (InBlob mem addr) (ts.length + bound + 1) addr
      nonnull magic old
    refine ⟨ts.length + bound + 1, ?_,
      parts.mpr ⟨?_, ?_, ?_, walk_all run ended covered enough high rfl⟩⟩
    · subst there
      rw [value, walk_val steps ended enough high]
      rfl
    · exact @covered_blob mem addr 0 |>.mpr (by omega)
    · exact covered_blob.mpr (by omega)
    · exact covered_blob.mpr (by omega)

/-- Big-endian words, one after the other. -/
def words (ws : List Nat) : List UInt8 :=
  ws.flatMap fun v => [UInt8.ofNat (v / 16777216), UInt8.ofNat (v / 65536), UInt8.ofNat (v / 256),
    UInt8.ofNat v]

/-- A root with an empty property called "reg". -/
def rootBlob : Bytes :=
  ofList zero 4096 (words [fdtMagic, 48, 16, 44, 1, 0, 3, 0, 0, 2, 9, 0x72656700])

theorem fdt_init_safe_iff_sample :
    Safe rootBlob 4096 {} ∧ 16 ≤ getBE32 rootBlob 4100 ∧ SoundBlock rootBlob 4096 := by
  have safe : Safe rootBlob 4096 {} := ⟨6, by decide, by unfold Traced.All; decide⟩
  exact ⟨safe, (fdt_init_safe_iff rootBlob 4096 {} (by decide) (by decide)).mp safe⟩

/-- An `FDT_END_NODE` before the first node. -/
def unbalancedBlob : Bytes := ofList zero 4096 (words [fdtMagic, 32, 16, 0, 2, 1, 0, 9])

/-- An `FDT_NOP` that ends the blob, before other memory that holds an `FDT_END`. -/
def endlessBlob : Bytes := ofList zero 4096 (words [fdtMagic, 20, 16, 0, 4, 9])

theorem Token.At.eq_endNode (here : t.At mem p) (token : getBE32 mem p = fdtEndNode) :
    t = .endNode := by
  cases t with
  | beginNode len => exact absurd (here.1.symm.trans token) (by decide)
  | endNode => rfl
  | prop => exact absurd (Eq.trans (Eq.symm here) token) (by decide)
  | other => exact absurd token (here fdtEndNode (by simp))

theorem Token.Sound.depth_nonneg {k : Spot} (here : t.At mem k.p)
    (token : getBE32 mem k.p = fdtBeginNode) (sound : t.Sound mem inside strings k) :
    0 ≤ k.depth := by
  cases t with
  | beginNode len => exact sound.1
  | endNode => exact absurd (Eq.trans (Eq.symm here) token) (by decide)
  | prop => exact absurd (Eq.trans (Eq.symm here) token) (by decide)
  | other => exact absurd token (here fdtBeginNode (by simp))

/-- The depth goes below zero and the next name is stored at `path[-1]`; without `FDT_END` the walk
goes on behind the blob. -/
theorem fdt_init_leaves_blob :
    ¬ Safe unbalancedBlob 4096 {} ∧
      (fdtInit endlessBlob 6 4096 {}).val.isSome ∧
      .read 4116 ∈ (fdtInit endlessBlob 6 4096 {}).log ∧
      ¬ InBlob endlessBlob 4096 4116 := by
  refine ⟨fun ⟨fuel, got, reads⟩ => ?_, by decide⟩
  obtain ⟨value, parts⟩ := @fdtInit_parts unbalancedBlob (InBlob unbalancedBlob 4096) fuel 4096
    (by decide)
    (by decide) {}
  rw [value, Option.isSome_map] at got
  obtain ⟨ts, final, run, ended, _⟩ := soundSteps_of_walk got (parts.mp reads).2.2.2
  cases run with
  | done => exact absurd ended (by decide)
  | call admitted returned rest =>
    obtain rfl := admitted.1.eq_endNode (by decide)
    cases returned
    cases rest with
    | done => exact absurd ended (by decide)
    | call admitted _ _ => exact absurd (admitted.2.depth_nonneg admitted.1 (by decide)) (by decide)

end Obsidian.Arch.Fdt
