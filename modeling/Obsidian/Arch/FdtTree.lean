import Obsidian.Arch.FdtTokens

/-!
# Device trees and what the walk takes from them

A tree is given by the body of its root: properties, nodes and `FDT_NOP`s in any
order. `Encodes` says that a blob in memory is that tree. What the boot code wants
from the tree is read off it directly; what the walk takes is said over the list
of all properties in document order, each with the name of the node above its own,
because that is the name the source compares.
-/
namespace Obsidian.Arch.Fdt
open Lib Lib.Bytes Traced

/-! ## Trees -/

/-- What stands between the begin and the end of a node. -/
inductive Body where
  | nil
  | nop (rest : Body)
  | prop (name : CStr) (value : List UInt8) (rest : Body)
  | node (name : CStr) (body rest : Body)

/-- Levels of nodes. -/
def Body.height : Body → Nat
  | .nil => 0
  | .nop rest => rest.height
  | .prop _ _ rest => rest.height
  | .node _ body rest => max (body.height + 1) rest.height

/-- The values of the properties of this name, in order. -/
def Body.values (s : List UInt8) : Body → List (List UInt8)
  | .nil => []
  | .nop rest => rest.values s
  | .prop name value rest => if name.1 = s then value :: rest.values s else rest.values s
  | .node _ _ rest => rest.values s

def Body.children : Body → List (CStr × Body)
  | .nil => []
  | .nop rest => rest.children
  | .prop _ _ rest => rest.children
  | .node name body rest => (name, body) :: rest.children

def bigEndian (v : List UInt8) : Nat := v.foldl (fun n c => n * 256 + c.toNat) 0

/-- `#address-cells` or `#size-cells` of a node, for the registers of its children. -/
def Body.cells (s : List UInt8) (default : Nat) (b : Body) : Nat :=
  ((b.values s).head?.map bigEndian).getD default

/-- All nodes in document order, with the address cells of the node above each. -/
def Body.nodes (cells : Nat) : Body → List (Nat × CStr × Body)
  | .nil => []
  | .nop rest => rest.nodes cells
  | .prop _ _ rest => rest.nodes cells
  | .node name body rest =>
    (cells, name, body) :: (body.nodes (body.cells sAddressCells 2) ++ rest.nodes cells)

/-! ## What is wanted -/

/-- The string that a value holds. -/
def text (v : List UInt8) : List UInt8 := v.takeWhile (· ≠ 0)

/-- The boot arguments of `/chosen`. -/
def bootargsOf (root : Body) : List (List UInt8) :=
  (root.children.filter fun c => c.1.1 = sChosen).flatMap fun c => (c.2.values sBootargs).map text

def isMemoryName (name : List UInt8) : Bool := name = sMemory || sMemoryAt.isPrefixOf name

def isUartName (name : List UInt8) : Bool := sUartAt.isPrefixOf name || sSerialAt.isPrefixOf name

/-- Base and size in a register of that many cells. -/
def decodeReg (ac sc : Nat) (v : List UInt8) : Nat × Nat :=
  (bigEndian (v.take (4 * ac)), bigEndian ((v.drop (4 * ac)).take (4 * sc)))

/-- Base and size in the registers of the memory nodes below the root. -/
def memoryOf (root : Body) : List (Nat × Nat) :=
  let ac := root.cells sAddressCells 2
  let sc := root.cells sSizeCells 1
  (root.children.filter fun c => isMemoryName c.1.1).flatMap fun c =>
    ((c.2.values sReg).filter fun v => 4 * (ac + sc) ≤ v.length).map (decodeReg ac sc)

/-- The first register base of the first serial node. -/
def uartOf (root : Body) : Option Nat :=
  match (root.nodes (root.cells sAddressCells 2)).find? fun n => isUartName n.2.1.1 with
  | none => none
  | some (ac, _, body) =>
    match (body.values sReg).head? with
    | none => none
    | some v => if 0 < ac ∧ 4 * ac ≤ v.length then some (bigEndian (v.take (4 * ac))) else none

/-- What the three functions return is what the tree holds. -/
def Harvested (mem : Bytes) (n : Nat) (root : Body) (h : Harvest) : Prop :=
  (∀ s ∈ bootargsOf root, fdtChosenBootargs mem n h = s) ∧
    (memoryOf root ≠ [] → fdtMemoryBase h ∈ memoryOf root) ∧
    ∀ base, uartOf root = some base → fdtUartBase h = base

/-! ## Blobs -/

def align4 (n : Nat) : Nat := (n + 3) / 4 * 4

/-- Octets of the tokens. -/
def Body.size : Body → Nat
  | .nil => 0
  | .nop rest => 4 + rest.size
  | .prop _ value rest => 12 + align4 value.length + rest.size
  | .node name body rest => 4 + align4 (name.1.length + 1) + body.size + 4 + rest.size

/-- The octets of `s` and zeros up to `n` octets. -/
def PaddedAt (mem : Bytes) (a : Nat) (s : List UInt8) (n : Nat) : Prop :=
  ∀ k, k < n → mem (a + k) = s.getD k 0

instance (mem : Bytes) (a : Nat) (s : List UInt8) (n : Nat) : Decidable (PaddedAt mem a s n) :=
  inferInstanceAs (Decidable (∀ k, k < n → _))

def Body.At (mem : Bytes) (strings : Nat) : Nat → Body → Prop
  | _, .nil => True
  | p, .nop rest => getBE32 mem p = fdtNop ∧ rest.At mem strings (p + 4)
  | p, .prop name value rest =>
    getBE32 mem p = fdtProp ∧ getBE32 mem (p + 4) = value.length ∧
      PaddedAt mem (strings + getBE32 mem (p + 8)) name.1 (name.1.length + 1) ∧
      PaddedAt mem (p + 12) value (align4 value.length) ∧
        rest.At mem strings (p + (12 + align4 value.length))
  | p, .node name body rest =>
    getBE32 mem p = fdtBeginNode ∧ PaddedAt mem (p + 4) name.1 (align4 (name.1.length + 1)) ∧
      body.At mem strings (p + (4 + align4 (name.1.length + 1))) ∧
      getBE32 mem (p + (4 + align4 (name.1.length + 1) + body.size)) = fdtEndNode ∧
      rest.At mem strings (p + (4 + align4 (name.1.length + 1) + body.size + 4))

def Body.decidableAt (mem : Bytes) (strings : Nat) :
    (p : Nat) → (b : Body) → Decidable (b.At mem strings p)
  | _, .nil => inferInstanceAs (Decidable True)
  | p, .nop rest =>
    have := rest.decidableAt mem strings (p + 4)
    inferInstanceAs (Decidable (_ ∧ _))
  | p, .prop _ value rest =>
    have := rest.decidableAt mem strings (p + (12 + align4 value.length))
    inferInstanceAs (Decidable (_ ∧ _))
  | p, .node name body rest =>
    have := body.decidableAt mem strings (p + (4 + align4 (name.1.length + 1)))
    have := rest.decidableAt mem strings (p + (4 + align4 (name.1.length + 1) + body.size + 4))
    inferInstanceAs (Decidable (_ ∧ _))

instance (mem : Bytes) (strings p : Nat) (b : Body) : Decidable (b.At mem strings p) :=
    b.decidableAt mem strings p

def NopsAt (mem : Bytes) (p n : Nat) : Prop := ∀ k, k < n → getBE32 mem (p + 4 * k) = fdtNop

/-- The blob at `addr` is the tree: the root is a node with an empty name, with `FDT_NOP`s before
and after it. -/
structure Encodes (mem : Bytes) (addr : Nat) (root : Body) (lead trail : Nat) : Prop where
  nonnull : addr ≠ 0
  magic : getBE32 mem addr = fdtMagic
  before : NopsAt mem (addr + getBE32 mem (addr + 8)) lead
  node : (Body.node ⟨[], List.not_mem_nil⟩ root .nil).At mem (addr + getBE32 mem (addr + 12))
    (addr + getBE32 mem (addr + 8) + 4 * lead)
  behind : NopsAt mem (addr + getBE32 mem (addr + 8) + 4 * lead + (12 + root.size)) trail
  ended : getBE32 mem (addr + getBE32 mem (addr + 8) + 4 * lead + (12 + root.size) + 4 * trail) =
    fdtEnd
  inside : getBE32 mem (addr + 8) + 4 * lead + (12 + root.size) + 4 * trail + 4 ≤
    getBE32 mem (addr + 4)

/-! ## What the walk takes -/

/-- A property in a blob, with the name of the node above its own. -/
structure Located where
  up : Option (List UInt8)
  name : List UInt8
  value : List UInt8
  place : Nat

/-- The properties in document order. -/
def Body.located (up : Option (List UInt8)) (own : List UInt8) : Nat → Body → List Located
  | _, .nil => []
  | p, .nop rest => rest.located up own (p + 4)
  | p, .prop name value rest =>
    ⟨up, name.1, value, p + 12⟩ :: rest.located up own (p + (12 + align4 value.length))
  | p, .node name body rest =>
    body.located (some own) name.1 (p + (4 + align4 (name.1.length + 1))) ++
      rest.located up own (p + (4 + align4 (name.1.length + 1) + body.size + 4))

/-- A property of a child of a node called `chosen`. -/
def Located.isBootargs (l : Located) : Bool := l.up.any isChosen && l.name = sBootargs

/-- A register of a child of a node called `uart@…` or `serial@…`. -/
def Located.isUartReg (l : Located) : Bool := l.up.any isUart && l.name = sReg

/-- The string of the last boot arguments found. -/
def bootargsBelow (ls : List Located) : List UInt8 :=
  ((ls.filter Located.isBootargs).getLast?.map (text ·.value)).getD []

/-- The cells in force behind a property. -/
def Located.cells (mem : Bytes) (c : Int × Int) (l : Located) : Int × Int :=
  (if l.name = sAddressCells ∧ l.value.length = 4 then wrapInt (getBE32 mem l.place) else c.1,
    if l.name = sSizeCells ∧ l.value.length = 4 then wrapInt (getBE32 mem l.place) else c.2)

/-- The last register that is long enough for the cells in force, of the children of nodes called
`memory` or `memory@`. -/
def memoryBelow (mem : Bytes) : Int × Int → Nat × Nat → List Located → Nat × Nat
  | _, found, [] => found
  | c, found, l :: ls =>
    memoryBelow mem (l.cells mem c)
      (if l.up.any isMemory ∧ l.name = sReg ∧ regSize c.1 c.2 ≤ l.value.length then
        (getBE64 mem l.place, getBE64 mem (offset l.place (wrapInt (c.1 * 4))))
      else found) ls

/-- The first register that is not zero of the children of serial nodes, or the default. -/
def uartBelow (mem : Bytes) (ls : List Located) : Nat :=
  (((ls.filter Located.isUartReg).map fun l => getBE64 mem l.place).find? (· ≠ 0)).getD 0x09000000

/-! ## One property -/

variable {mem : Bytes} {strings a p n : Nat} {s name value own : List UInt8}
    {up : Option (List UInt8)} {w : Walk}

/-- What one property leaves in the static variables. -/
def Harvest.take (mem : Bytes) (h : Harvest) (l : Located) : Harvest where
  addrCells := (l.cells mem (h.addrCells, h.sizeCells)).1
  sizeCells := (l.cells mem (h.addrCells, h.sizeCells)).2
  bootargs := if l.isBootargs then some l.place else h.bootargs
  memBase :=
    if l.up.any isMemory ∧ l.name = sReg ∧
      regSize h.addrCells h.sizeCells ≤ l.value.length then getBE64 mem l.place
    else h.memBase
  memSize :=
    if l.up.any isMemory ∧ l.name = sReg ∧ regSize h.addrCells h.sizeCells ≤ l.value.length then
      getBE64 mem (offset l.place (wrapInt (h.addrCells * 4)))
    else h.memSize
  uartBaseVal := if l.isUartReg ∧ h.uartBaseVal = 0 then getBE64 mem l.place else h.uartBaseVal
  cpusFound :=
    if l.up.any (fun u => !isMemory u && !isUart u && isCpus u) ∧ l.name = sDeviceType ∧
        (kStrncmp mem l.place sCpu).val = 0 then h.cpusFound + 1
    else h.cpusFound

theorem PaddedAt.spelled (clean : (0 : UInt8) ∉ name)
    (padded : PaddedAt mem a name (name.length + 1)) :
    CStr.Spelled mem a name :=
  ⟨clean, fun k hk => padded k (Nat.lt_succ_of_le hk)⟩

theorem strcmp_spelled (clean : (0 : UInt8) ∉ name) (literal : (0 : UInt8) ∉ s)
    (padded : PaddedAt mem a name (name.length + 1)) : CStr.strcmp mem a s = 0 ↔ name = s := by
  have read : CStr.read mem a (name.length + s.length + 1) = name :=
    (padded.spelled clean).read (by omega)
  rw [CStr.strcmp_eq_zero literal (n := name.length + s.length + 1) (by omega), read]

theorem row_take (u : List UInt8) {k : Nat} (low : k < 47) : row (u.take 47) k = row u k := by
  simp only [row, List.getD_eq_getElem?_getD, List.getElem?_take, if_pos low]

theorem tests_take (u : List UInt8) :
    isChosen (u.take 47) = isChosen u ∧ isMemory (u.take 47) = isMemory u ∧ isUart
    (u.take 47) = isUart u ∧
      isCpus (u.take 47) = isCpus u := by
  have cmp : ∀ s : List UInt8, s.length < 47 → CStr.strcmp (row (u.take 47)) 0 s =
      CStr.strcmp (row u) 0 s :=
    fun s short => CStr.strcmp_congr fun k hk => row_take u (by omega)
  have ncmp : ∀ s : List UInt8, s.length < 47 → CStr.strncmp (row (u.take 47)) 0 s =
      CStr.strncmp (row u) 0 s :=
    fun s short => CStr.strncmp_congr fun k hk => row_take u (by omega)
  simp only [isChosen, isMemory, isUart, isCpus, cmp sChosen (by decide), cmp sMemory (by decide),
    cmp sCpus (by decide),
    ncmp (sMemoryAt ++ [0]) (by decide), ncmp sUartAt (by decide), ncmp sSerialAt (by decide),
      and_self]

theorem isMemory_of_isUart {u : List UInt8} (uart : isUart u) : isMemory u = false := by
  rw [Bool.eq_false_iff]
  intro memory
  simp only [isUart, isMemory, decide_eq_true_eq] at uart memory
  have letter : row u 0 = 109 := memory.elim CStr.strncmp_first CStr.strcmp_first
  rcases uart with uart | uart
  · exact absurd (letter.symm.trans (CStr.strncmp_first uart)) (by decide)
  · exact absurd (letter.symm.trans (CStr.strncmp_first uart)) (by decide)

/-- The rows that a property of the node `own` below `up` can look at. -/
structure Rows (w : Walk) (up : Option (List UInt8)) (own : List UInt8) : Prop where
  deep : 1 ≤ w.depth
  own_row : w.depth ≤ 8 → w.path (w.depth - 1) = own.take 47
  up_row : match up with
    | none => w.depth = 1
    | some u => 2 ≤ w.depth ∧ w.path (w.depth - 2) = u.take 47

theorem align4_eq (small : value.length + 16 < 4294967296) :
    (8 + andNot3 (value.length + 3)) % 4294967296 = 8 + align4 value.length := by
  unfold andNot3 align4
  omega

/-- The source's test of the row two below the depth is a test of the name above. -/
theorem Rows.test (rows : Rows w up own) (f : List UInt8 → Bool) (cut : ∀ u, f (u.take 47) = f u) :
    (2 ≤ w.depth ∧ f (if 2 ≤ w.depth then w.path (w.depth - 2) else []) = true) ↔
    up.any f = true := by
  have above := rows.up_row
  cases up with
  | none =>
    simp [above]
  | some u =>
    simp [above.1, above.2, cut]

/-- A property of the tree leaves what its entry in the list of properties says. -/
theorem prop_after (rows : Rows w up own) (clean : (0 : UInt8) ∉ name)
    (length : getBE32 mem (w.p + 4) = value.length)
    (spelled : PaddedAt mem (strings + getBE32 mem (w.p + 8)) name (name.length + 1))
    (small : value.length + 16 < 4294967296) :
    Token.prop.after mem strings w =
      ⟨w.toHarvest.take mem ⟨up, name, value, w.p + 12⟩, w.p + (12 + align4 value.length), w.depth,
        w.path⟩ := by
  have named : ∀ s : List UInt8, (0 : UInt8) ∉ s →
      (CStr.strcmp mem (strings + getBE32 mem (w.p + 8)) s = 0 ↔ name = s) := fun s literal =>
        strcmp_spelled clean literal spelled
  have behind : w.p + (4 + (8 + align4 value.length)) = w.p + (12 + align4 value.length) := by omega
  simp only [Token.after, property, val_bind, be32_val, parentRow_val, takeBootargs_val,
    takeCells_val, val_ite,
    takeMemory_val, takeUart_val, countCpu_val, val_pure, length, Nat.add_assoc, Nat.reduceAdd,
      align4_eq small,
    named sBootargs (by decide), named sAddressCells (by decide), named sSizeCells (by decide),
      named sReg (by decide),
    named sDeviceType (by decide), rows.test isChosen fun u => (tests_take u).1,
    rows.test isMemory fun u => (tests_take u).2.1, rows.test isUart fun u => (tests_take u).2.2.1,
    rows.test isCpus fun u => (tests_take u).2.2.2, behind]
  simp only [Harvest.take, Located.cells, Located.isBootargs, Located.isUartReg, Bool.and_eq_true,
    decide_eq_true_eq]
  have uartOnly : up.any isUart = true → up.any isMemory = false := by
    cases up with
    | none =>
      intro h
      cases h
    | some u => exact isMemory_of_isUart
  have cpusOnly : (up.any fun u => !isMemory u && !isUart u && isCpus u) = true ↔
      up.any isMemory = false ∧ up.any isUart = false ∧ up.any isCpus = true := by
    cases up with
    | none => simp
    | some u => simp [and_assoc]
  -- a `reg` changes no cells, so it is measured with the cells before it
  have other : sReg ≠ sAddressCells ∧ sReg ≠ sSizeCells ∧ sReg ≠ sBootargs ∧
    sReg ≠ sDeviceType := by decide
  by_cases memory : up.any isMemory = true
  · have uart : ¬ up.any isUart = true :=
      fun h => Bool.false_ne_true ((uartOnly h).symm.trans memory)
    by_cases reg : name = sReg
    · simp [memory, uart, reg, other]
      split <;> simp
    · simp [memory, uart, reg, cpusOnly]
  · by_cases uart : up.any isUart = true
    · by_cases reg : name = sReg
      · simp [memory, uart, reg, other]
        split <;> simp
      · simp [memory, uart, reg, cpusOnly]
    · by_cases cpus : up.any isCpus = true
      · simp [memory, uart, cpusOnly, cpus]
        split <;> simp
      · simp [memory, uart, cpusOnly, cpus]

/-! ## Nodes -/

theorem PaddedAt.mono {m : Nat} (spelled : PaddedAt mem a s n) (fewer : m ≤ n) :
    PaddedAt mem a s m :=
  fun k hk => spelled k (by omega)

theorem PaddedAt.string (clean : (0 : UInt8) ∉ name)
    (spelled : PaddedAt mem a name (name.length + 1)) :
    StringAt mem a name.length := by
  constructor
  · intro k hk
    rw [spelled k (by omega), List.getD_eq_getElem _ _ hk]
    intro zero
    exact clean (zero ▸ List.getElem_mem hk)
  · rw [spelled name.length (by omega), List.getD_eq_default _ _ (Nat.le_refl _)]

theorem begin_after (clean : (0 : UInt8) ∉ name)
    (padded : PaddedAt mem (w.p + 4) name (name.length + 1))
    (small : name.length + 16 < 4294967296) :
    (Token.beginNode name.length).after mem strings w =
      ⟨w.toHarvest, w.p + (4 + align4 (name.length + 1)), w.depth + 1,
        if w.depth < 8 then Function.update w.path w.depth (name.take 47) else w.path⟩ := by
  have read : CStr.read mem (w.p + 4) 47 = name.take 47 := (padded.spelled clean).read_take 47
  have behind : w.p + 4 + andNot3 (name.length + 1 + 3) = w.p + (4 + align4 (name.length + 1)) := by
    unfold andNot3 align4
    omega
  rw [Token.after, beginNode, val_bind, val_pure, copyName, val_ite, val_bind, val_bind, val_pure,
    val_pure, kStrncpy_val,
    read, behind]

theorem Rows.congr {w' : Walk} (rows : Rows w up own) (depth : w'.depth = w.depth)
    (path : ∀ i, i < w.depth → w'.path i = w.path i) : Rows w' up own where
  deep := depth ▸ rows.deep
  own_row := by
    intro low
    rw [depth] at low ⊢
    rw [path _ (by omega), rows.own_row low]
  up_row := by
    have above := rows.up_row
    cases up with
    | none => exact depth.trans above
    | some u =>
      rw [depth, path _ (by omega)]
      exact above

theorem Rows.enter (rows : Rows w up own) (low : w.depth ≤ 8) (h : Harvest) (q : Nat) :
    Rows ⟨h, q, w.depth + 1, if w.depth <
      8 then Function.update w.path w.depth (name.take 47) else w.path⟩
      (some own) name where
  deep := by
    have := rows.deep
    simp only
    omega
  own_row := by
    intro inside
    simp only at inside ⊢
    rw [if_pos (by omega), show w.depth + 1 - 1 = w.depth by omega, Function.update_self]
  up_row := by
    have deep := rows.deep
    have other : w.depth - 1 ≠ w.depth := by omega
    simp only
    rw [show w.depth + 1 - 2 = w.depth - 1 by omega]
    refine ⟨by omega, ?_⟩
    split
    · rw [Function.update_of_ne other, rows.own_row low]
    · exact rows.own_row low

/-- Where the walk stands behind a body: at the same depth, with the rows of the nodes around it
and with what the properties of the body leave. -/
structure Passed (mem : Bytes) (w final : Walk) (size : Nat) (ls : List Located) : Prop where
  place : final.p = w.p + size
  depth : final.depth = w.depth
  path : ∀ i, i < w.depth → final.path i = w.path i
  harvest : final.toHarvest = ls.foldl (Harvest.take mem) w.toHarvest

theorem steps_cons {t : Token} {ts : List Token} {final : Walk} (here : t.At mem w.p)
    (rest : Steps mem strings (t.after mem strings w) ts final) :
    Steps mem strings w (t :: ts) final :=
  .call here rfl rest

theorem body_steps (b : Body) (here : b.At mem strings w.p) (small : b.size + 16 < 4294967296)
    (levels : w.depth + b.height ≤ 9) (rows : Rows w up own) :
    ∃ ts final, Steps mem strings w ts final ∧ Passed mem w final b.size
    (b.located up own w.p) := by
  induction b generalizing w up own with
  | nil => exact ⟨[], w, .done w, rfl, rfl, fun _ _ => rfl, rfl⟩
  | nop rest ih =>
    rw [Body.size] at small
    have token : Token.other.At mem w.p := by
      intro t member
      rw [here.1]
      revert t
      decide
    obtain ⟨ts, final, run, passed⟩ := @ih own up ⟨w.toHarvest, w.p + 4, w.depth, w.path⟩ here.2
      (by omega) levels
      (rows.congr rfl fun _ _ => rfl)
    refine ⟨.other :: ts, final, steps_cons token run, ?_, passed.depth, passed.path,
      passed.harvest⟩
    rw [passed.place, Body.size, Nat.add_assoc]
  | prop name value rest ih =>
    obtain ⟨token, length, spelled, padded, behind⟩ := here
    rw [Body.size] at small
    have valueSmall : value.length ≤ align4 value.length := by
      unfold align4
      omega
    have after := prop_after rows name.2 length spelled (by omega)
    obtain ⟨ts, final, run, passed⟩ := @ih own up
      ⟨w.toHarvest.take mem ⟨up, name.1, value, w.p + 12⟩, w.p + (12 + align4 value.length),
        w.depth, w.path⟩
      behind (by omega) levels (rows.congr rfl fun _ _ => rfl)
    refine ⟨.prop :: ts, final, steps_cons token (after ▸ run), ?_, passed.depth, passed.path,
      passed.harvest⟩
    rw [passed.place, Body.size]
    simp only
    omega
  | node name body rest ihBody ihRest =>
    obtain ⟨token, spelled, inside, ended, behind⟩ := here
    rw [Body.size] at small
    rw [Body.height] at levels
    have nameSmall : name.1.length + 1 ≤ align4 (name.1.length + 1) := by
      unfold align4
      omega
    have string := spelled.mono nameSmall
    have after := @begin_after mem strings name.1 w name.2 string (by omega)
    -- through the node
    obtain ⟨tsBody, mid, runBody, passedBody⟩ := @ihBody name.1 (some own)
      ⟨w.toHarvest, w.p + (4 + align4 (name.1.length + 1)), w.depth + 1,
        if w.depth < 8 then Function.update w.path w.depth (name.1.take 47) else w.path⟩
      inside (by omega) (by simp only; omega) (rows.enter (by omega) _ _)
    have place : mid.p = w.p + (4 + align4 (name.1.length + 1) + body.size) := by
      rw [passedBody.place]
      simp only
      omega
    have kept : ∀ i, i < w.depth → mid.path i = w.path i := by
      intro i low
      rw [passedBody.path i (by simp only; omega)]
      split
      · exact Function.update_of_ne (by omega) ..
      · rfl
    have depth : mid.depth - 1 = w.depth := by
      rw [passedBody.depth]
      simp only
      omega
    have endToken : Token.endNode.At mem mid.p := by
      rw [place]
      exact ended
    -- and what follows it
    obtain ⟨ts, final, run, passed⟩ :=
      @ihRest own up ⟨mid.toHarvest, mid.p + 4, mid.depth - 1, mid.path⟩
      (by rw [place]; exact behind) (by omega) (by simp only [depth]; omega) (rows.congr depth kept)
    refine ⟨.beginNode name.1.length :: (tsBody ++ .endNode :: ts), final,
      steps_cons ⟨token, string.string name.2⟩ (after ▸ runBody.append (steps_cons endToken run)),
        ?_, ?_, ?_, ?_⟩
    · rw [passed.place, Body.size]
      simp only [place]
      omega
    · rw [passed.depth, depth]
    · intro i low
      rw [passed.path i (by simp only [depth]; exact low), kept i low]
    · rw [passed.harvest, Body.located, List.foldl_append, passedBody.harvest]
      simp only [place, Nat.add_assoc]

/-! ## Strings of values -/

theorem first_octet (low : getBE32 mem a < 16777216) : mem a = 0 := by
  apply UInt8.toNat_inj.mp
  change (mem a).toNat = 0
  unfold getBE32 at low
  omega

theorem Body.At.first_octet {b : Body} (here : b.At mem strings p) (behind : mem (p + b.size) = 0) :
    mem p = 0 := by
  cases b with
  | nil => exact behind
  | nop rest =>
    apply Fdt.first_octet
    rw [here.1]
    decide
  | prop name value rest =>
    apply Fdt.first_octet
    rw [here.1]
    decide
  | node name body rest =>
    apply Fdt.first_octet
    rw [here.1]
    decide

theorem read_text (octets : PaddedAt mem a value value.length) (behind : mem (a + value.length) = 0)
    (short : value.length < n) : CStr.read mem a n = text value := by
  induction value generalizing a n with
  | nil =>
    obtain ⟨n, rfl⟩ := Nat.exists_eq_succ_of_ne_zero (Nat.ne_of_gt short)
    have ended : mem a = 0 := behind
    rw [CStr.read, if_pos ended]
    rfl
  | cons c rest ih =>
    obtain ⟨n, rfl⟩ := Nat.exists_eq_succ_of_ne_zero (Nat.ne_of_gt (Nat.zero_lt_of_lt short))
    rw [List.length_cons] at short
    have first : mem a = c := octets 0 (Nat.zero_lt_succ _)
    have tail : PaddedAt mem (a + 1) rest rest.length := by
      intro k hk
      have := octets (k + 1) (by rw [List.length_cons]; omega)
      rwa [show a + (k + 1) = a + 1 + k by omega] at this
    rw [List.length_cons, show a + (rest.length + 1) = a + 1 + rest.length by omega] at behind
    rw [CStr.read, first, text]
    by_cases zero : c = 0
    · simp [zero]
    · rw [ih tail behind (by omega)]
      simp [zero, text]

/-- The string at the place of a property is the string its value holds: a value without a
terminator is followed by padding or by a token. -/
theorem located_text (b : Body) (here : b.At mem strings p) (behind : mem (p + b.size) = 0)
    (short : b.size ≤ n) :
    ∀ l ∈ b.located up own p, CStr.read mem l.place n = text l.value := by
  induction b generalizing p up own with
  | nil => exact fun l member => nomatch member
  | nop rest ih =>
    rw [Body.size] at short behind
    exact ih here.2 (by rwa [Nat.add_assoc]) (by omega)
  | prop name value rest ih =>
    obtain ⟨_, _, _, padded, rest'⟩ := here
    rw [Body.size] at short behind
    rw [← Nat.add_assoc] at behind
    have size : value.length ≤ align4 value.length := by
      unfold align4
      omega
    intro l member
    rcases List.mem_cons.mp member with rfl | later
    · apply read_text (padded.mono size)
      · by_cases full : value.length = align4 value.length
        · have next := rest'.first_octet behind
          rwa [show p + (12 + align4 value.length) = p + 12 + value.length by omega] at next
        · rw [padded value.length (by omega), List.getD_eq_default _ _ (Nat.le_refl _)]
      · omega
    · exact ih rest' behind (by omega) l later
  | node name body rest ihBody ihRest =>
    obtain ⟨_, _, inside, ended, rest'⟩ := here
    rw [Body.size] at short behind
    rw [← Nat.add_assoc] at behind
    have bodyEnd : mem (p + (4 + align4 (name.1.length + 1)) + body.size) = 0 := by
      apply first_octet
      rw [Nat.add_assoc, ended]
      decide
    intro l member
    rw [Body.located, List.mem_append] at member
    rcases member with member | member
    · exact ihBody inside bodyEnd (by omega) l member
    · exact ihRest rest' behind (by omega) l member

/-! ## The whole blob -/

theorem nops_steps (nops : NopsAt mem w.p n) :
    Steps mem strings w (List.replicate n .other) ⟨w.toHarvest, w.p + 4 * n, w.depth, w.path⟩ := by
  induction n generalizing w with
  | zero => exact .done w
  | succ n ih =>
    have token : Token.other.At mem w.p := by
      intro t member
      rw [show getBE32 mem w.p = fdtNop from nops 0 (Nat.zero_lt_succ n)]
      revert t
      decide
    have rest : NopsAt mem (w.p + 4) n := by
      intro k hk
      have := nops (k + 1) (by omega)
      rwa [show w.p + 4 * (k + 1) = w.p + 4 + 4 * k by omega] at this
    have run := @ih ⟨w.toHarvest, w.p + 4, w.depth, w.path⟩ rest
    rw [show w.p + 4 * (n + 1) = w.p + 4 + 4 * n by omega]
    exact steps_cons token run

/-- The properties of the tree in the blob. -/
def propertiesOf (mem : Bytes) (addr : Nat) (root : Body) (lead : Nat) : List Located :=
  root.located none [] (addr + getBE32 mem (addr + 8) + 4 * lead + 8)

/-- The walk inside the root whose token is at `q`. -/
def rootWalk (q : Nat) : Walk := ⟨{}, q + 8, 1, Function.update (fun _ => []) 0 []⟩

theorem rootWalk_rows (q : Nat) : Rows (rootWalk q) none [] where
  deep := Int.le_refl 1
  own_row := by simp [rootWalk]
  up_row := rfl

variable {addr lead trail : Nat} {root : Body}

section
variable (encodes : Encodes mem addr root lead trail)
include encodes

theorem tree_steps (levels : root.height ≤ 8) :
    ∃ ts final, Steps mem (addr + getBE32 mem (addr + 12)) (startOf mem addr) ts final ∧
      getBE32 mem final.p = fdtEnd ∧
      final.toHarvest = (propertiesOf mem addr root lead).foldl (Harvest.take mem) {} := by
  have total := getBE32_lt mem (addr + 4)
  have inside := encodes.inside
  obtain ⟨token, spelled, body, ended, _⟩ := encodes.node
  have nopsBefore := encodes.before
  have nopsBehind := encodes.behind
  have last := encodes.ended
  have before := @nops_steps mem (addr + getBE32 mem (addr + 12)) lead (startOf mem addr) nopsBefore
  rw [propertiesOf]
  rw [show (startOf mem addr).p = addr + getBE32 mem (addr + 8) from rfl] at before
  generalize addr + getBE32 mem (addr + 12) = strings at *
  generalize addr + getBE32 mem (addr + 8) + 4 * lead = q at *
  -- the root is the node at depth zero
  have entered : (Token.beginNode 0).after mem strings ⟨(startOf mem addr).toHarvest, q,
    (startOf mem addr).depth,
      (startOf mem addr).path⟩ = rootWalk q :=
        @begin_after mem strings [] ⟨(startOf mem addr).toHarvest, q, _, _⟩
    List.not_mem_nil (spelled.mono (by decide)) (by decide)
  have string : StringAt mem (q + 4) 0 := (spelled.mono (by decide)).string List.not_mem_nil
  obtain ⟨ts, mid, run, passed⟩ := @body_steps mem strings [] none (rootWalk q) root body (by omega)
    (by simp only [rootWalk]; omega) (rootWalk_rows q)
  have place : mid.p = q + (8 + root.size) := by
    rw [passed.place]
    simp only [rootWalk]
    omega
  have endToken : Token.endNode.At mem mid.p := by
    rw [place]
    exact ended
  -- and nothing but `FDT_NOP`s follows it
  have behind := @nops_steps mem strings trail ⟨mid.toHarvest, mid.p + 4, mid.depth - 1, mid.path⟩
    (by simp only [place]; rwa [show q + (8 + root.size) + 4 = q + (12 + root.size) by omega])
  have rootToken : (Token.beginNode 0).At mem q := ⟨token, string⟩
  have through := run.append (steps_cons endToken behind)
  rw [← entered] at through
  refine ⟨_, _, before.append (steps_cons rootToken through), ?_, passed.harvest⟩
  simp only [place]
  rw [show q + (8 + root.size) + 4 + 4 * trail = q + (12 + root.size) + 4 * trail by omega]
  exact last

/-- With enough fuel `fdt_init` returns true, and leaves what the properties leave one after the
other. -/
theorem fdtInit_returns (levels : root.height ≤ 8) (old : Harvest) :
    ∃ bound, ∀ fuel, bound ≤ fuel → (fdtInit mem fuel addr old).val =
      some (true, (propertiesOf mem addr root lead).foldl (Harvest.take mem) {}) := by
  obtain ⟨ts, final, run, ended, harvest⟩ := tree_steps encodes levels
  obtain ⟨bound, enough⟩ := exists_enough ts
  refine ⟨ts.length + bound + 1, fun fuel high => ?_⟩
  rw [(@fdtInit_parts mem (fun _ => True) fuel addr encodes.nonnull encodes.magic old).1,
    walk_val run ended enough (by omega), ← harvest]
  rfl

theorem properties_text :
    ∀ l ∈ propertiesOf mem addr root lead, CStr.read mem l.place (getBE32 mem (addr + 4)) =
    text l.value := by
  obtain ⟨_, _, body, endNode, _⟩ := encodes.node
  have inside := encodes.inside
  refine located_text root body (first_octet ?_) (by omega)
  have token : getBE32 mem (addr + getBE32 mem (addr + 8) + 4 * lead + (8 + root.size)) =
    fdtEndNode := endNode
  rw [Nat.add_assoc, token]
  decide

end

/-! ## What is left in the static variables -/

variable (ls : List Located)

theorem fold_bootargs (h : Harvest) : (ls.foldl (Harvest.take mem) h).bootargs =
      ((ls.filter Located.isBootargs).getLast?.map Located.place).or h.bootargs := by
  induction ls generalizing h with
  | nil => rfl
  | cons l ls ih =>
    rw [List.foldl_cons, ih, List.filter_cons]
    by_cases found : l.isBootargs = true
    · rw [if_pos found, List.getLast?_cons]
      cases (ls.filter Located.isBootargs).getLast? <;> simp [Harvest.take, found]
    · rw [if_neg found]
      simp [Harvest.take, found]

theorem fold_memory (h : Harvest) :
    ((ls.foldl (Harvest.take mem) h).memBase, (ls.foldl (Harvest.take mem) h).memSize) =
      memoryBelow mem (h.addrCells, h.sizeCells) (h.memBase, h.memSize) ls := by
  induction ls generalizing h with
  | nil => rfl
  | cons l ls ih =>
    rw [List.foldl_cons, ih, memoryBelow]
    congr 1
    simp only [Harvest.take]
    split <;> rfl

theorem first_nonzero_cons (v : Nat) (vs : List Nat) :
    ((v :: vs).find? (· ≠ 0)).getD 0 = if v ≠ 0 then v else (vs.find? (· ≠ 0)).getD 0 := by
  by_cases zero : v = 0
  · simp [zero]
  · simp [zero]

theorem take_uart (h : Harvest) (l : Located) :
    (h.take mem l).uartBaseVal = if h.uartBaseVal ≠
    0 then h.uartBaseVal else if l.isUartReg then getBE64 mem l.place else 0 := by
  rw [Harvest.take]
  by_cases unset : h.uartBaseVal = 0
  · by_cases found : l.isUartReg = true
    · simp only [found, unset, and_self, if_true, ne_eq, not_true_eq_false, if_false]
    · simp only [found, unset, and_true, if_false, ne_eq, not_true_eq_false, Bool.false_eq_true]
  · simp only [unset, and_false, if_false, ne_eq, not_false_eq_true, if_true]

theorem fold_uart (h : Harvest) :
    (ls.foldl (Harvest.take mem) h).uartBaseVal =
      if h.uartBaseVal ≠ 0 then h.uartBaseVal
      else (((ls.filter Located.isUartReg).map fun l => getBE64 mem l.place).find? (· ≠ 0)).getD
      0 := by
  induction ls generalizing h with
  | nil =>
    simp only [List.foldl_nil, List.filter_nil, List.map_nil, List.find?_nil, Option.getD_none]
    split <;> omega
  | cons l ls ih =>
    rw [List.foldl_cons, ih, take_uart, List.filter_cons]
    by_cases found : l.isUartReg = true
    · rw [if_pos found, if_pos found, List.map_cons, first_nonzero_cons]
      by_cases unset : h.uartBaseVal = 0
      · simp only [unset, ne_eq, not_true_eq_false, if_false]
      · simp only [unset, ne_eq, not_false_eq_true, if_true]
    · rw [if_neg found, if_neg found]
      by_cases unset : h.uartBaseVal = 0
      · simp only [unset, ne_eq, not_true_eq_false, if_false]
      · simp only [unset, ne_eq, not_false_eq_true, if_true]

theorem bootargs_eq {ls : List Located} (read : ∀ l ∈ ls, CStr.read mem l.place n = text l.value) :
    fdtChosenBootargs mem n (ls.foldl (Harvest.take mem) {}) = bootargsBelow ls := by
  rw [fdtChosenBootargs, fold_bootargs, bootargsBelow]
  cases found : (ls.filter Located.isBootargs).getLast? with
  | none => rfl
  | some l =>
    have member : l ∈ ls := List.mem_of_mem_filter (List.mem_of_getLast? found)
    exact read l member

theorem uart_eq : fdtUartBase (ls.foldl (Harvest.take mem) {}) = uartBelow mem ls := by
  rw [fdtUartBase, fold_uart, uartBelow]
  cases found : ((ls.filter Located.isUartReg).map fun l => getBE64 mem l.place).find? (· ≠ 0) with
  | none => rfl
  | some base =>
    have nonzero : base ≠ 0 := by simpa using List.find?_some found
    exact if_pos nonzero

/-- `fdt_init` returns true and leaves what the tree holds. -/
def HarvestsTree (mem : Bytes) (addr : Nat) (old : Harvest) (root : Body) : Prop :=
  ∃ bound, ∀ fuel, bound ≤ fuel → ∃ h, (fdtInit mem fuel addr old).val = some (true, h) ∧
    Harvested mem (getBE32 mem (addr + 4)) root h

/-- The properties one node too deep, which the walk looks at, hold what the right ones do. -/
def Coincides (mem : Bytes) (root : Body) (ls : List Located) : Prop :=
  (∀ s ∈ bootargsOf root, bootargsBelow ls = s) ∧
    (memoryOf root ≠ [] → memoryBelow mem (2, 2) (0, 0) ls ∈ memoryOf root) ∧
    ∀ base, uartOf root = some base → uartBelow mem ls = base

/-- The harvest is right exactly when the properties of the children of `chosen`, of the memory
nodes and of the serial nodes hold the values that those nodes themselves hold. -/
theorem harvest_iff (mem : Bytes) (addr : Nat) (old : Harvest) (root : Body) (lead trail : Nat)
    (encodes : Encodes mem addr root lead trail) (levels : root.height ≤ 8) :
    HarvestsTree mem addr old root ↔ Coincides mem root (propertiesOf mem addr root lead) := by
  obtain ⟨bound, returns⟩ := fdtInit_returns encodes levels old
  have read := properties_text encodes
  -- what the three functions return is what is said of the list of properties
  have same : Harvested mem (getBE32 mem (addr + 4)) root ((propertiesOf mem addr root lead).foldl
    (Harvest.take mem) {}) ↔
      Coincides mem root (propertiesOf mem addr root lead) := by
    rw [Harvested, bootargs_eq read, uart_eq, fdtMemoryBase, fold_memory]
    exact Iff.rfl
  rw [← same]
  constructor
  · intro ⟨least, right⟩
    obtain ⟨h, value, harvested⟩ := right (max least bound) (Nat.le_max_left _ _)
    rw [returns _ (Nat.le_max_right _ _)] at value
    cases value
    exact harvested
  · intro harvested
    exact ⟨bound, fun fuel high => ⟨_, returns fuel high, harvested⟩⟩

/-- A root with two cells for addresses and two for sizes. -/
def cellsTwo (rest : Body) : Body :=
  .prop ⟨sAddressCells, by decide⟩ (words [2]) (.prop ⟨sSizeCells, by decide⟩ (words [2]) rest)

/-- The strings block of the two blobs below. -/
def stringsBlock : List UInt8 :=
  sAddressCells ++ [0] ++ sSizeCells ++ [0] ++ sBootargs ++ [0] ++ sReg ++ [0]

/-- `uart@9000000` with a register at 0x9000000. -/
def uartTree : Body :=
  cellsTwo (.node ⟨[117, 97, 114, 116, 64, 57, 48, 48, 48, 48, 48, 48], by decide⟩
    (.prop ⟨sReg, by decide⟩ (words [0, 0x9000000, 0, 0x1000]) .nil) .nil)

def uartBlob : Bytes :=
  ofList zero 4096 (words [fdtMagic, 156, 16, 116, 1, 0, 3, 4, 0, 2, 3, 4, 15, 2,
    1, 0x75617274, 0x40393030, 0x30303030, 0, 3, 16, 36, 0, 0x9000000, 0, 0x1000, 2, 2, 9] ++
      stringsBlock)

/-- The base that is wanted is the one returned when no register is found. -/
theorem harvest_iff_sample :
    uartOf uartTree = some 0x9000000 ∧ HarvestsTree uartBlob 4096 {} uartTree := by
  have encodes : Encodes uartBlob 4096 uartTree 0 0 :=
    ⟨by decide, by decide, fun k hk => absurd hk (Nat.not_lt_zero k), by decide,
      fun k hk => absurd hk (Nat.not_lt_zero k), by decide, by decide⟩
  refine ⟨by decide, (harvest_iff uartBlob 4096 {} uartTree 0 0 encodes (by decide)).mpr ⟨?_, ?_,
    ?_⟩⟩
  · have none : bootargsOf uartTree = [] := by decide
    rw [none]
    exact fun s member => nomatch member
  · have none : memoryOf uartTree = [] := by decide
    exact fun some => absurd none some
  · intro base found
    have wanted : uartOf uartTree = some 0x9000000 := by decide
    cases wanted.symm.trans found
    decide

/-- `/chosen` with the boot arguments "x". -/
def argsTree : Body :=
  cellsTwo (.node ⟨sChosen, by decide⟩ (.prop ⟨sBootargs, by decide⟩ [120, 0] .nil) .nil)

def argsBlob : Bytes :=
  ofList zero 4096 (words [fdtMagic, 136, 16, 96, 1, 0, 3, 4, 0, 2, 3, 4, 15, 2,
    1, 0x63686F73, 0x656E0000, 3, 2, 27, 0x78000000, 2, 2, 9] ++ stringsBlock)

/-- The boot arguments of `/chosen` are not found: the node above it is the root. -/
theorem chosen_bootargs_missed :
    Encodes argsBlob 4096 argsTree 0 0 ∧ argsTree.height ≤ 8 ∧ argsTree.cells sAddressCells 2 = 2 ∧
      argsTree.cells sSizeCells 1 = 2 ∧ bootargsOf argsTree = [[120]] ∧
      (fdtInit argsBlob 12 4096 {}).val.map (fun r => (r.1, fdtChosenBootargs argsBlob 136 r.2)) =
      some (true, []) := by
  refine ⟨⟨by decide, by decide, fun k hk => absurd hk (Nat.not_lt_zero k), by decide,
      fun k hk => absurd hk (Nat.not_lt_zero k), by decide, by decide⟩, by decide, ?_⟩
  decide +kernel

end Obsidian.Arch.Fdt
