import Obsidian.Lib.Traced
import Obsidian.Lib.CString
import Obsidian.Lib.ByteOrder

/-!
# Device tree walker

Source: arch/arm64/fdt.c, with the string functions of lib/string.c.

The blob lies in a memory that answers at every address; every read of it and
every index of `path` is logged. Addresses are numbers without a largest one, but
for the size cell of a memory node, whose offset may be negative. The loop and
`k_strlen` run on fuel and answer `none` without it. Rows of `path` are kept as
the strings they hold.
-/
namespace Obsidian.Arch.Fdt
open Lib Lib.Bytes

def fdtMagic : Nat := 0xd00dfeed
def fdtBeginNode : Nat := 1
def fdtEndNode : Nat := 2
def fdtProp : Nat := 3
def fdtNop : Nat := 4
def fdtEnd : Nat := 9

inductive Access where
  | read (a : Nat)
  | index (i : Int)
  deriving DecidableEq, Repr

/-! ## Reading memory -/

section Reading
variable (mem : Bytes)

def load (a : Nat) : Traced Access UInt8 := ⟨mem a, [.read a]⟩

def be32 (p : Nat) : Traced Access Nat := do
  let b0 ← load mem p
  let b1 ← load mem (p + 1)
  let b2 ← load mem (p + 2)
  let b3 ← load mem (p + 3)
  pure (b0.toNat <<< 24 ||| b1.toNat <<< 16 ||| b2.toNat <<< 8 ||| b3.toNat)

def be64 (p : Nat) : Traced Access Nat := do
  let hi ← be32 mem p
  let lo ← be32 mem (p + 4)
  pure (hi <<< 32 ||| lo)

/-- The length of the string at `s`, of which `n` octets are known. -/
def kStrlen (s : Nat) : Nat → Nat → Traced Access (Option Nat)
  | 0, _ => pure none
  | fuel + 1, n => do
    let c ← load mem (s + n)
    if c = 0 then pure (some n) else kStrlen s fuel (n + 1)

/-- The string at `a` against a literal. -/
def kStrcmp : Nat → List UInt8 → Traced Access Int
  | a, [] => do
    let c ← load mem a
    pure (c.toNat : Int)
  | a, b :: rest => do
    let c ← load mem a
    if c ≠ 0 ∧ c = b then kStrcmp (a + 1) rest else pure ((c.toNat : Int) - (b.toNat : Int))

/-- The string at `a` against the octets of a literal that are compared. -/
def kStrncmp : Nat → List UInt8 → Traced Access Int
  | _, [] => pure 0
  | a, b :: rest => do
    let c ← load mem a
    if c ≠ b then pure ((c.toNat : Int) - (b.toNat : Int))
    else if c = 0 then pure 0 else kStrncmp (a + 1) rest

/-- What `k_strncpy` copies before it pads with zeros. -/
def kStrncpy : Nat → Nat → Traced Access (List UInt8)
  | _, 0 => pure []
  | src, n + 1 => do
    let c ← load mem src
    if c = 0 then pure []
    else do
      let rest ← kStrncpy (src + 1) n
      pure (c :: rest)

end Reading

/-! ## Literals and rows -/

def sChosen : List UInt8 := [99, 104, 111, 115, 101, 110]
def sBootargs : List UInt8 := [98, 111, 111, 116, 97, 114, 103, 115]
def sAddressCells : List UInt8 := [35, 97, 100, 100, 114, 101, 115, 115, 45, 99, 101, 108, 108, 115]
def sSizeCells : List UInt8 := [35, 115, 105, 122, 101, 45, 99, 101, 108, 108, 115]
def sMemory : List UInt8 := [109, 101, 109, 111, 114, 121]
def sMemoryAt : List UInt8 := [109, 101, 109, 111, 114, 121, 64]
def sDeviceType : List UInt8 := [100, 101, 118, 105, 99, 101, 95, 116, 121, 112, 101]
def sReg : List UInt8 := [114, 101, 103]
def sUartAt : List UInt8 := [117, 97, 114, 116, 64]
def sSerialAt : List UInt8 := [115, 101, 114, 105, 97, 108, 64]
def sCpus : List UInt8 := [99, 112, 117, 115]
def sCpu : List UInt8 := [99, 112, 117]

/-- A row of `path` as memory: the string and zeros. -/
def row (s : List UInt8) : Bytes := fun k => s.getD k 0

def isChosen (parent : List UInt8) : Bool := CStr.strcmp (row parent) 0 sChosen = 0

/-- `k_strncmp(parent, "memory@", 8)` also compares the terminator. -/
def isMemory (parent : List UInt8) : Bool :=
  CStr.strncmp (row parent) 0 (sMemoryAt ++ [0]) = 0 ∨ CStr.strcmp (row parent) 0 sMemory = 0

def isUart (parent : List UInt8) : Bool :=
  CStr.strncmp (row parent) 0 sUartAt = 0 ∨ CStr.strncmp (row parent) 0 sSerialAt = 0

def isCpus (parent : List UInt8) : Bool := CStr.strcmp (row parent) 0 sCpus = 0

/-! ## The walk -/

/-- The static variables. -/
structure Harvest where
  addrCells : Int := 2
  sizeCells : Int := 2
  bootargs : Option Nat := none
  memBase : Nat := 0
  memSize : Nat := 0
  uartBaseVal : Nat := 0
  cpusFound : Int := 0

/-- Static and local variables of the loop; `path` is an array of 8 rows. -/
structure Walk extends Harvest where
  p : Nat
  depth : Int
  path : Int → List UInt8

def wrapInt (v : Int) : Int := (v + 2147483648) % 4294967296 - 2147483648

/-- `x & ~3u`, which also cuts off what lies above 32 bits. -/
def andNot3 (x : Nat) : Nat := x % 4294967296 / 4 * 4

/-- A pointer and an `int` offset. -/
def offset (p : Nat) (d : Int) : Nat := (((p : Int) + d) % 18446744073709551616).toNat

section Loop
variable (mem : Bytes)

/-- `path` with the name at `p` in the row of the depth. -/
def copyName (w : Walk) : Traced Access (Int → List UInt8) :=
  if w.depth < 8 then do
    Traced.note (.index w.depth)
    let name ← kStrncpy mem w.p 47
    pure (Function.update w.path w.depth name)
  else pure w.path

/-- A node whose name is at `p`, `len` octets long with its terminator. -/
def beginNode (len : Nat) (w : Walk) : Traced Access Walk := do
  let path ← copyName mem w
  pure { w with path := path, p := w.p + andNot3 (len + 3), depth := w.depth + 1 }

def takeBootargs (parent : List UInt8) (pname val : Nat) (w : Walk) : Traced Access Walk :=
  if 2 ≤ w.depth ∧ isChosen parent then do
    let r ← kStrcmp mem pname sBootargs
    pure (if r = 0 then { w with bootargs := some val } else w)
  else pure w

/-- A property of this name and of four octets overrides a number of cells. -/
def overrideCells (s : List UInt8) (pname plen val : Nat) (cells : Int) : Traced Access Int := do
  let r ← kStrcmp mem pname s
  if r = 0 ∧ plen = 4 then do
    let c ← be32 mem val
    pure (wrapInt c)
  else pure cells

def takeCells (pname plen val : Nat) (w : Walk) : Traced Access Walk := do
  let addrCells ← overrideCells mem sAddressCells pname plen val w.addrCells
  let sizeCells ← overrideCells mem sSizeCells pname plen val w.sizeCells
  pure { w with addrCells := addrCells, sizeCells := sizeCells }

/-- `(u32)((addr_cells + size_cells) * 4)` -/
def regSize (addrCells sizeCells : Int) : Nat := ((addrCells + sizeCells) * 4 % 4294967296).toNat

/-- The test for a device type has no consequence but its reads. -/
def testDeviceType (pname val : Nat) : Traced Access Unit := do
  let r ← kStrcmp mem pname sDeviceType
  if r = 0 then do
    let _ ← load mem val
    pure ()
  else pure ()

def takeMemory (pname plen val : Nat) (w : Walk) : Traced Access Walk := do
  testDeviceType mem pname val
  let r ← kStrcmp mem pname sReg
  if r = 0 ∧ regSize w.addrCells w.sizeCells ≤ plen then do
    let base ← be64 mem val
    let size ← be64 mem (offset val (wrapInt (w.addrCells * 4)))
    pure { w with memBase := base, memSize := size }
  else pure w

def takeUart (pname val : Nat) (w : Walk) : Traced Access Walk := do
  let r ← kStrcmp mem pname sReg
  if r = 0 ∧ w.uartBaseVal = 0 then do
    let base ← be64 mem val
    pure { w with uartBaseVal := base }
  else pure w

def countCpu (pname val : Nat) (w : Walk) : Traced Access Walk := do
  let r ← kStrcmp mem pname sDeviceType
  if r = 0 then do
    let r ← kStrncmp mem val sCpu
    pure (if r = 0 then { w with cpusFound := w.cpusFound + 1 } else w)
  else pure w

def parentRow (w : Walk) : Traced Access (List UInt8) :=
  if 2 ≤ w.depth then do
    Traced.note (.index (w.depth - 2))
    pure (w.path (w.depth - 2))
  else pure []

/-- A property, with `p` behind its token. -/
def property (strings : Nat) (w : Walk) : Traced Access Walk := do
  let plen ← be32 mem w.p
  let noff ← be32 mem (w.p + 4)
  let pname := strings + noff
  let val := w.p + 8
  let w := { w with p := w.p + (8 + andNot3 (plen + 3)) % 4294967296 }
  let parent ← parentRow w
  let w ← takeBootargs mem parent pname val w
  let w ← takeCells mem pname plen val w
  if 2 ≤ w.depth ∧ isMemory parent then takeMemory mem pname plen val w
  else if 2 ≤ w.depth ∧ isUart parent then takeUart mem pname val w
  else if 2 ≤ w.depth ∧ isCpus parent then countCpu mem pname val w
  else pure w

/-- What the loop does with a token other than `FDT_END`; `p` is behind the token. -/
def dispatch (strings fuel token : Nat) (w : Walk) : Traced Access (Option Walk) :=
  if token = fdtNop then pure (some w)
  else if token = fdtBeginNode then do
    match ← kStrlen mem w.p fuel 0 with
    | none => pure none
    | some n => do
      let w ← beginNode mem (n + 1) w
      pure (some w)
  else if token = fdtEndNode then pure (some { w with depth := w.depth - 1 })
  else if token ≠ fdtProp then pure (some w)
  else do
    let w ← property mem strings w
    pure (some w)

def walk (strings : Nat) : Nat → Walk → Traced Access (Option Walk)
  | 0, _ => pure none
  | fuel + 1, w => do
    let token ← be32 mem w.p
    if token = fdtEnd then pure (some { w with p := w.p + 4 })
    else do
      match ← dispatch mem strings fuel token { w with p := w.p + 4 } with
      | none => pure none
      | some w => walk strings fuel w

/-- `fdt_init`: what it returns and the static variables it leaves. -/
def fdtInit (fuel addr : Nat) (old : Harvest) : Traced Access (Option (Bool × Harvest)) :=
  if addr = 0 then pure (some (false, old))
  else do
    let magic ← be32 mem addr
    if magic ≠ fdtMagic then pure (some (false, old))
    else do
      let offStrings ← be32 mem (addr + 12)
      let offStruct ← be32 mem (addr + 8)
      let final ← walk mem (addr + offStrings) fuel ⟨{}, addr + offStruct, 0, fun _ => []⟩
      pure (final.map fun w => (true, w.toHarvest))

end Loop

/-! ## Results -/

/-- `fdt_chosen_bootargs`: the string returned, up to `n` octets of it. -/
def fdtChosenBootargs (mem : Bytes) (n : Nat) (h : Harvest) : List UInt8 :=
  match h.bootargs with
  | some a => CStr.read mem a n
  | none => []

/-- `fdt_memory_base`, with what it stores at `size_out`. -/
def fdtMemoryBase (h : Harvest) : Nat × Nat := (h.memBase, h.memSize)

def fdtUartBase (h : Harvest) : Nat := if h.uartBaseVal ≠ 0 then h.uartBaseVal else 0x09000000

def fdtCpuCount (h : Harvest) : Int := if h.cpusFound > 0 then h.cpusFound else 1

end Obsidian.Arch.Fdt
