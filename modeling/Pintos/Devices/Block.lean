import Pintos.Lib.Bytes

/-!
# Block devices

`devices/block.c`. A device is given by its bytes, sector after sector. An access past its end is a
`PANIC`.
-/

namespace Pintos

/-- Why the kernel goes no further: an assertion has failed, there was a `PANIC`, a loop has not ended
within the turns that it is given, or memory is accessed that does not belong to an object. -/
inductive Halt
  | assertion
  | panic
  | running
  | wild
  deriving DecidableEq, Repr

/-- `BLOCK_SECTOR_SIZE`. -/
def sectorSize : ℕ := 512

/-- A block device. A sector number has 32 bits. -/
structure Device where
  size : ℕ
  bytes : Memory
  bound : size < 2 ^ 32

namespace Device

variable (dev : Device)

/-- The bytes of a sector. -/
def sector (i : ℕ) : List UInt8 := dev.bytes.read (sectorSize * i) sectorSize

/-- The device after bytes have been written from a place on. -/
def write (a : ℕ) (l : List UInt8) : Device := { dev with bytes := dev.bytes.write a l }

/-- `block_read`. -/
def blockRead (i : ℕ) : Except Halt (List UInt8) :=
  if dev.size ≤ i then throw .panic else return dev.sector i

/-- `block_write`. -/
def blockWrite (i : ℕ) (data : List UInt8) : Except Halt Device :=
  if dev.size ≤ i then throw .panic else return dev.write (sectorSize * i) data

variable {dev} {i : ℕ}

@[simp] theorem bytes_write (a : ℕ) (l : List UInt8) :
    (dev.write a l).bytes = dev.bytes.write a l := rfl

@[simp] theorem write_nil (a : ℕ) : dev.write a [] = dev := by
  rw [write, Memory.write_nil]

@[simp] theorem length_sector : (dev.sector i).length = sectorSize := Memory.length_read ..

theorem blockRead_of_lt (h : i < dev.size) : dev.blockRead i = .ok (dev.sector i) := by
  rw [blockRead, if_neg (by omega)]
  rfl

theorem blockWrite_of_lt (h : i < dev.size) (data : List UInt8) :
    dev.blockWrite i data = .ok (dev.write (sectorSize * i) data) := by
  rw [blockWrite, if_neg (by omega)]
  rfl

theorem write_write_append (dev : Device) (a : ℕ) (l l' : List UInt8) :
    (dev.write a l).write (a + l.length) l' = dev.write a (l ++ l') := by
  rw [write, write, write, Memory.write_write_append]

/-- A part of a sector is replaced by reading the sector and writing it back. -/
theorem write_splice_sector {k : ℕ} {l : List UInt8} (h : k + l.length ≤ sectorSize) :
    dev.write (sectorSize * i) (splice (dev.sector i) k l) = dev.write (sectorSize * i + k) l := by
  rw [write, write, sector, Memory.write_splice_read h]

/-- A part of a sector. -/
theorem take_drop_sector {k n : ℕ} (h : k + n ≤ sectorSize) :
    ((dev.sector i).drop k).take n = dev.bytes.read (sectorSize * i + k) n := by
  rw [sector, Memory.take_drop_read h]

end Device
end Pintos
