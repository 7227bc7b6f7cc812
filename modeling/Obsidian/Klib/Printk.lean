import Obsidian.Lib.Bytes

/-!
# Kernel printf

Source: lib/printk.c.

`kvsnprintf` hands every character to `ob_putc` and never looks at the buffer,
so its loop and its helpers are written over an arbitrary sink `putc`; the buffer
of the source is one sink, the list of characters another.

A `va_list` is a position in a sequence of argument slots. On the 32-bit build a
64-bit argument takes two slots, on the others every argument takes one. What
lies behind the last argument is whatever the slots hold there. `str` gives the
string found at an address.
-/
namespace Obsidian.Klib.Printk
open Lib Lib.Bytes

inductive Abi where
  | ilp32 | lp64
  deriving DecidableEq, Repr

/-! ## Arguments -/

structure Va where
  words : Nat → Nat
  pos : Nat

/-- `va_arg(ap, int)` and `va_arg(ap, unsigned int)`, as a number below 2^32. -/
def Va.int (ap : Va) : Nat × Va := (u32 (ap.words ap.pos), { ap with pos := ap.pos + 1 })

/-- `va_arg(ap, long)` and `va_arg(ap, unsigned long)`, as a number of the word size. -/
def Va.long (abi : Abi) (ap : Va) : Nat × Va :=
  (match abi with | .ilp32 => u32 (ap.words ap.pos) | .lp64 => u64 (ap.words ap.pos),
    { ap with pos := ap.pos + 1 })

/-- `va_arg(ap, u64)` and `va_arg(ap, s64)`, as a number below 2^64. -/
def Va.quad (abi : Abi) (ap : Va) : Nat × Va :=
  match abi with
  | .ilp32 => (u32 (ap.words ap.pos) + 4294967296 * u32 (ap.words (ap.pos + 1)),
      { ap with pos := ap.pos + 2 })
  | .lp64 => (u64 (ap.words ap.pos), { ap with pos := ap.pos + 1 })

def Va.ptr (ap : Va) : Nat × Va := (ap.words ap.pos, { ap with pos := ap.pos + 1 })

/-- Sign extension of a 32-bit number to 64 bits. -/
def extend32 (v : Nat) : Nat := if v < 2147483648 then v else v + 18446744069414584320

/-- `(s64)` of a `long`. -/
def extendLong (abi : Abi) (v : Nat) : Nat :=
  match abi with | .ilp32 => extend32 v | .lp64 => v

/-! ## Characters -/

def chPercent : UInt8 := 0x25
def chMinus : UInt8 := 0x2D
def chZero : UInt8 := 0x30
def chSpace : UInt8 := 0x20

/-- `"0123456789abcdef"[d]` and `"0123456789ABCDEF"[d]` -/
def digitChar (upper : Bool) (d : Nat) : UInt8 :=
  UInt8.ofNat (if d < 10 then 48 + d else if upper then 55 + d else 87 + d)

/-- `"(null)"` -/
def nullText : List UInt8 := [0x28, 0x6E, 0x75, 0x6C, 0x6C, 0x29]

section Sink
variable {σ : Type} (putc : σ → UInt8 → σ)

/-- `for (int k = 0; k < n; k++) ob_putc(ob, c);` -/
def putN (ob : σ) (c : UInt8) : Nat → σ
  | 0 => ob
  | n + 1 => putN (putc ob c) c n

def emitStr (ob : σ) (s : List UInt8) (width : Int) (ljust : Bool) : σ :=
  let n : Int := s.length
  let ob := if ljust then ob else putN putc ob chSpace (width - n).toNat
  let ob := s.foldl putc ob
  if ljust then putN putc ob chSpace (width - n).toNat else ob

/-- The `do` loop of `emit_num`, least digit first. A number of 64 bits has at most 64 digits. -/
def digitsLoop (base : Nat) : Nat → Nat → List Nat
  | 0, _ => []
  | fuel + 1, v => v % base :: if v / base = 0 then [] else digitsLoop base fuel (v / base)

def emitNum (ob : σ) (val base : Nat) (upper isSigned : Bool) (width : Int) (zeroPad ljust : Bool) :
    σ :=
  let neg := isSigned && decide (9223372036854775808 ≤ val)
  let val := if neg then 18446744073709551616 - val else val
  let digits := (digitsLoop base 64 val).map (digitChar upper)
  let tmp := if neg then digits ++ [chMinus] else digits
  let total : Int := tmp.length
  let pad : Int := if total < width then width - total else 0
  let ob := if !ljust && !zeroPad then putN putc ob chSpace pad.toNat else ob
  let (ob, pad) := if !ljust && zeroPad && neg then (putc ob chMinus, pad - 1) else (ob, pad)
  let ob := if !ljust && zeroPad then putN putc ob chZero pad.toNat else ob
  let ob := tmp.reverse.foldl putc ob
  if ljust then putN putc ob chSpace (pad - if neg then 1 else 0).toNat else ob

/-- `sizeof(uintptr_t) * 2` digits after `0x`. -/
def emitPtr (abi : Abi) (ob : σ) (v : Nat) : σ :=
  let ob := putc ob chZero
  let ob := putc ob 0x78
  emitNum putc ob (u64 v) 16 false false (match abi with | .ilp32 => 8 | .lp64 => 16) true false

/-! ## Conversions -/

structure Spec where
  ljust : Bool := false
  zeroPad : Bool := false
  width : Int := 0
  lmod : Nat := 0
  deriving DecidableEq, Repr

/-- A signed sum as an `int` holds it. -/
def wrapInt (v : Int) : Int := (v + 2147483648) % 4294967296 - 2147483648

def parseFlags (spec : Spec) : List UInt8 → Spec × List UInt8
  | [] => (spec, [])
  | c :: rest =>
    if c = chMinus then parseFlags { spec with ljust := true } rest
    else if c = chZero then parseFlags { spec with zeroPad := true } rest
    else (spec, c :: rest)

def isDigit (c : UInt8) : Bool := 0x30 ≤ c && c ≤ 0x39

def parseWidth (spec : Spec) : List UInt8 → Spec × List UInt8
  | [] => (spec, [])
  | c :: rest =>
    if isDigit c then
      parseWidth { spec with width := wrapInt (spec.width * 10 + ((c.toNat : Int) - 48)) } rest
    else (spec, c :: rest)

/-- `l` and `z`; the test for a `z` behind them never succeeds. -/
def parseMod (spec : Spec) : List UInt8 → Spec × List UInt8
  | [] => (spec, [])
  | c :: rest =>
    if c = 0x6C ∨ c = 0x7A then parseMod { spec with lmod := spec.lmod + 1 } rest
    else (spec, c :: rest)

/-- Everything between the percent sign and the conversion character. -/
def parseSpec (fmt : List UInt8) : Spec × List UInt8 :=
  let (spec, fmt) := parseFlags {} fmt
  let (spec, fmt) := parseWidth spec fmt
  parseMod spec fmt

/-- The `switch` on the conversion character `k`. -/
def convert (abi : Abi) (str : Nat → List UInt8) (spec : Spec) (k : UInt8) (ap : Va) (ob : σ) :
    Va × σ :=
  match k.toNat with
  | 0x25 => (ap, putc ob chPercent)
  | 0x63 =>
    let (v, ap) := ap.int
    let c := UInt8.ofNat v
    (ap, emitStr putc ob (if c = 0 then [] else [c]) spec.width spec.ljust)
  | 0x73 =>
    let (p, ap) := ap.ptr
    if p ≠ 0 then
      let (p, ap) := ap.ptr
      (ap, emitStr putc ob (str p) spec.width spec.ljust)
    else (ap, emitStr putc ob nullText spec.width spec.ljust)
  | 0x64 | 0x69 =>
    let (v, ap) :=
      if 2 ≤ spec.lmod then ap.quad abi
      else if spec.lmod = 1 then (extendLong abi (ap.long abi).1, (ap.long abi).2)
      else (extend32 ap.int.1, ap.int.2)
    (ap, emitNum putc ob v 10 false true spec.width spec.zeroPad spec.ljust)
  | 0x75 =>
    let (v, ap) :=
      if 2 ≤ spec.lmod then ap.quad abi else if spec.lmod = 1 then ap.long abi else ap.int
    (ap, emitNum putc ob v 10 false false spec.width spec.zeroPad spec.ljust)
  | 0x78 | 0x58 | 0x6F =>
    let base := if k = 0x6F then 8 else 16
    let (v, ap) := if 2 ≤ spec.lmod ∨ spec.lmod = 0 then ap.quad abi else ap.long abi
    let v := if spec.lmod = 0 then u32 v else v
    (ap, emitNum putc ob v base (k = 0x58) false spec.width spec.zeroPad spec.ljust)
  | 0x70 =>
    let (v, ap) := ap.ptr
    (ap, emitPtr putc abi ob v)
  | _ => (ap, putc (putc ob chPercent) k)

/-- The loop over the format string. A string that ends inside a conversion is read past its
end; the model is then `none`. Each round takes at least one character. -/
def format (abi : Abi) (str : Nat → List UInt8) : Nat → List UInt8 → Va → σ → Option σ
  | 0, _, _, _ => none
  | _ + 1, [], _, ob => some ob
  | fuel + 1, c :: rest, ap, ob =>
    if c ≠ chPercent then format abi str fuel rest ap (putc ob c)
    else
      match parseSpec rest with
      | (_, []) => none
      | (spec, k :: rest) =>
        let (ap, ob) := convert putc abi str spec k ap ob
        format abi str fuel rest ap ob

end Sink

/-! ## The buffer -/

structure Outbuf where
  p : Option Bytes
  size : Nat
  len : Nat

def obPutc (ob : Outbuf) (c : UInt8) : Outbuf :=
  let p := ob.p.map fun b =>
    if u32 (ob.len + 1) < ob.size then Function.update b ob.len c
    else if ob.len < ob.size then Function.update b ob.len 0
    else b
  { ob with p := p, len := u32 (ob.len + 1) }

/-- `(int)ob.len` -/
def toInt (n : Nat) : Int := if n < 2147483648 then (n : Int) else (n : Int) - 4294967296

/-- Result and buffer; `buf` is `none` for NULL. -/
def kvsnprintf (abi : Abi) (str : Nat → List UInt8) (buf : Option Bytes) (size : Nat)
    (fmt : List UInt8) (ap : Va) :
    Option (Int × Option Bytes) :=
  match format obPutc abi str (fmt.length + 1) fmt ap ⟨buf, size, 0⟩ with
  | none => none
  | some ob =>
    let p := if size ≠ 0 then
        ob.p.map fun b => Function.update b (if ob.len < size then ob.len else size - 1) 0
      else ob.p
    some (toInt ob.len, p)

/-- The characters `kvsnprintf` puts, in order. -/
def emitted (abi : Abi) (str : Nat → List UInt8) (fmt : List UInt8) (ap : Va) :
    Option (List UInt8) :=
  format (fun out c => out ++ [c]) abi str (fmt.length + 1) fmt ap []

end Obsidian.Klib.Printk
