import Mathlib.Logic.Function.Iterate

/-!
# The checksum of the kernel library

`crc32` as the kernel computes it, a byte at a time.  The table is that of the
polynomial `0xEDB88320`, given by the eight shifts behind each of its entries.
-/

namespace Dragonfly.Kern

/-- One shift of the polynomial division. -/
def crc32Shift (crc : UInt32) : UInt32 :=
  if crc &&& 1 = 1 then crc >>> 1 ^^^ 0xEDB88320 else crc >>> 1

/-- `crc32_tab` -/
def crc32Tab (index : UInt32) : UInt32 := crc32Shift^[8] index

/-- The body of the loop of `crc32`. -/
def crc32Byte (crc : UInt32) (byte : UInt8) : UInt32 :=
  crc32Tab ((crc ^^^ byte.toUInt32) &&& 0xFF) ^^^ crc >>> 8

/-- `crc32` -/
def crc32 (buf : List UInt8) : UInt32 := buf.foldl crc32Byte 0xFFFFFFFF ^^^ 0xFFFFFFFF

example : crc32 [] = 0 := by decide

/-- The checksum of the nine digits. -/
example : crc32 [0x31, 0x32, 0x33, 0x34, 0x35, 0x36, 0x37, 0x38, 0x39] = 0xCBF43926 := by
  decide +kernel

end Dragonfly.Kern
