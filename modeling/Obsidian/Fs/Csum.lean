import Obsidian.Lib.Bytes

/-!
# Checksums

Source: fs/ext4_csum.c. A table entry is computed where it is looked up; the
tables of the source hold the same values.
-/
namespace Obsidian.Fs
open Lib Lib.Bytes

/-- Apply `f` a number of times. -/
def rounds (f : Nat → Nat) : Nat → Nat → Nat
  | 0, v => v
  | n + 1, v => rounds f n (f v)

/-- `crc32c_table[i]` -/
def crc32cTable (i : Nat) : Nat :=
  rounds (fun c => if c &&& 1 ≠ 0 then (c >>> 1) ^^^ 0x82F63B78 else c >>> 1) 8 i

/-- `crc16_table[i]` -/
def crc16Table (i : Nat) : Nat :=
  rounds (fun r => if r &&& 0x8000 ≠ 0 then u16 ((r <<< 1) ^^^ 0x1021) else u16 (r <<< 1)) 8
    (u16 (i <<< 8))

/-- `ext4_crc32c(crc, buf + start, len)` -/
def ext4Crc32c (crc : Nat) (buf : Bytes) (start : Nat) : Nat → Nat
  | 0 => crc
  | len + 1 =>
    ext4Crc32c ((crc >>> 8) ^^^ crc32cTable ((crc ^^^ get8 buf start) &&& 0xFF)) buf (start + 1) len

/-- `ext4_crc16(crc, buf + start, len)` -/
def ext4Crc16 (crc : Nat) (buf : Bytes) (start : Nat) : Nat → Nat
  | 0 => crc
  | len + 1 =>
    ext4Crc16 (u16 (crc16Table (((crc >>> 8) ^^^ get8 buf start) &&& 0xFF) ^^^ (crc <<< 8))) buf
      (start + 1) len

/-- The four octets of a word, as the checksums read them. -/
def le32 (v : Nat) : Bytes := put32 zero 0 v

end Obsidian.Fs
