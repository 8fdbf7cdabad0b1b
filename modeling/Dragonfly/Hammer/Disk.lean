import Mathlib.Algebra.Order.Ring.Int
import Mathlib.Data.Nat.Basic
import Mathlib.Data.Int.Basic

/-!
# HAMMER media constants

Sizes, masks and zone numbers of `hammer_disk.h`.  A `hammer_off_t` is a natural
number here: the zone sits in the top four bits of a 64-bit word and the other
sixty bits are the zone-relative ("long") offset.  Masking with a power of two
minus one is written as a remainder, and clearing the same bits as a division
followed by a multiplication.
-/

namespace Dragonfly.Hammer

/-- `HAMMER_BUFSIZE` -/
def bufsize : Nat := 16384

/-- `HAMMER_XBUFSIZE` -/
def xbufsize : Nat := 65536

/-- `HAMMER_LARGEBLOCK_SIZE`, the size of a big-block. -/
def largeblockSize : Nat := 8388608

/-- `HAMMER_HINTBLOCK_SIZE` -/
def hintblockSize : Nat := largeblockSize * 4

/-- `HAMMER_BLOCKMAP_LAYER2`, the bytes covered by one layer-1 entry. -/
def blockmapLayer2 : Nat := 4398046511104

/-- One past the largest long offset, `1 << 60`. -/
def zoneSpan : Nat := 1152921504606846976

/-- `HAMMER_ZONE_ENCODE` -/
def zoneEncode (zone offset : Nat) : Nat := zone * zoneSpan + offset

/-- `HAMMER_ZONE_DECODE` -/
def zoneDecode (offset : Nat) : Nat := offset / zoneSpan

/-- `offset & HAMMER_OFF_LONG_MASK` -/
def longOffset (offset : Nat) : Nat := offset % zoneSpan

/-- `HAMMER_VOL_DECODE` -/
def volDecode (offset : Nat) : Nat := offset / 2 ^ 52 % 256

/-- `HAMMER_ZONE_UNDO_INDEX` -/
def zoneUndoIndex : Nat := 3

/-- `HAMMER_ZONE_BTREE_INDEX`, the first allocatable zone. -/
def zoneBtreeIndex : Nat := 8

/-- `HAMMER_MAX_ZONES` -/
def maxZones : Nat := 16

/-- The rounding `(bytes + 15) & ~15` every blockmap entry point starts with. -/
def roundBytes (bytes : Nat) : Nat := (bytes + 15) / 16 * 16

/-- Wrap-around of a signed 32-bit field. -/
def int32 (value : Int) : Int := value.bmod 4294967296

/-- Signed 32-bit arithmetic is exact inside the representable range. -/
theorem int32_of_range {value : Int} (lower : -2147483648 ≤ value) (upper : value < 2147483648) :
    int32 value = value := by
  unfold int32
  rw [Int.bmod_def]
  split <;> omega

/-- Wrap-around of a signed 64-bit field. -/
def int64 (value : Int) : Int := value.bmod 18446744073709551616

theorem int64_of_range {value : Int} (lower : -9223372036854775808 ≤ value)
    (upper : value < 9223372036854775808) : int64 value = value := by
  unfold int64
  rw [Int.bmod_def]
  split <;> omega

theorem roundBytes_pos {bytes : Nat} (positive : 0 < bytes) : 0 < roundBytes bytes := by
  unfold roundBytes
  omega

end Dragonfly.Hammer
