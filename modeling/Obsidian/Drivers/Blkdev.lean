import Obsidian.Lib.Bytes

/-!
# Block devices

Source: drivers/block/blkdev.c, with the transfer loops of drivers/block/ata.c and
drivers/block/virtio_blk.c behind `read_sectors` and `write_sectors`.

Both drivers register sectors of 512 octets. A transfer moves whole sectors; when
the hardware reports an error the sectors before it have been moved. `fault` says
which transfers fail, by their number since boot and their first sector, and after
how many sectors.
-/
namespace Obsidian.Drivers
open Lib Lib.Bytes

/-- `struct blk_device` with the octets on the medium. -/
structure BlkDevice where
  sectors : Nat
  writable : Bool
  /-- A write entry point is registered. -/
  writeSectors : Bool
  data : Bytes

/-- The device table with the environment of its transfers. -/
structure Bus where
  devs : Nat → BlkDevice
  ndevs : Nat
  fault : Nat → Nat → Option Nat
  ios : Nat

def sectorSize : Nat := 512

def Bus.tick (bus : Bus) : Bus := { bus with ios := bus.ios + 1 }

def Bus.setData (bus : Bus) (d : Nat) (data : Bytes) : Bus :=
  { bus with devs := fun e => if e = d then { bus.devs d with data := data } else bus.devs e }

/-- `blk_first`: the index of the first device, if any is registered. -/
def blkFirst (bus : Bus) : Option Nat := if bus.ndevs = 0 then none else some 0

/-- Sectors a transfer moves before it ends. -/
def Bus.moved (bus : Bus) (lba count : Nat) : Nat :=
  match bus.fault bus.ios lba with
  | none => count
  | some k => min k count

/-- The device is too small for a transfer; a size of zero is not checked. -/
def BlkDevice.beyond (dev : BlkDevice) (lba count : Nat) : Bool :=
  dev.sectors < u64 (lba + count) ∧ dev.sectors ≠ 0

/-- `blk_read`: return code, buffer, devices. -/
def blkRead (bus : Bus) (d : Option Nat) (lba count : Nat) (buf : Bytes) : Bool × Bytes × Bus :=
  match d with
  | none => (false, buf, bus)
  | some d =>
    if count = 0 then (false, buf, bus)
    else if (bus.devs d).beyond lba count then (false, buf, bus)
    else
      ((bus.fault bus.ios lba).isNone,
        copy buf 0 (bus.devs d).data (lba * sectorSize) (bus.moved lba count * sectorSize),
          bus.tick)

/-- `blk_write`: return code, devices. -/
def blkWrite (bus : Bus) (d : Option Nat) (lba count : Nat) (buf : Bytes) : Bool × Bus :=
  match d with
  | none => (false, bus)
  | some d =>
    if count = 0 ∨ (bus.devs d).writeSectors = false ∨
      (bus.devs d).writable = false then (false, bus)
    else if (bus.devs d).beyond lba count then (false, bus)
    else
      ((bus.fault bus.ios lba).isNone,
        (bus.setData d (copy (bus.devs d).data (lba * sectorSize) buf 0
          (bus.moved lba count * sectorSize))).tick)

end Obsidian.Drivers
