import Dragonfly.Hammer.Disk
import Dragonfly.Lib.Bytes

/-!
# Records of the UNDO/REDO FIFO

The media structures of `hammer_disk.h` and the two scanners of
`hammer_recover.c`.  The FIFO is a circular area of zone 3, from `undoBase` up to
the `alloc_offset` of its blockmap; memory is addressed by full zone-3 offsets.
The scanners return the offset of the record found, in place of a pointer to it,
and the offset to continue from.

`crc32` is a parameter: encoder and scanner only have to agree on it.  Reads do
not fail.
-/

namespace Dragonfly.Hammer

open Dragonfly.Lib

/-- Error codes of the recovery code. -/
inductive Errno where
  | eio
  | erange
  deriving DecidableEq, Repr

namespace Fifo

/-- `HAMMER_ZONE_ENCODE(HAMMER_ZONE_UNDO_INDEX, 0)`, the first offset of the area. -/
def undoBase : Nat := zoneEncode zoneUndoIndex 0

/-- `HAMMER_UNDO_ALIGN` -/
def undoAlign : Nat := 512

/-- `HAMMER_HEAD_SIGNATURE` -/
def headSignature : Nat := 0xC84E

/-- `HAMMER_TAIL_SIGNATURE` -/
def tailSignature : Nat := 0xC74F

/-- `HAMMER_HEAD_TYPE_PAD` -/
def typePad : Nat := 0x8040

/-- `HAMMER_HEAD_TYPE_DUMMY` -/
def typeDummy : Nat := 0x41

/-- `HAMMER_HEAD_TYPE_UNDO` -/
def typeUndo : Nat := 0x43

/-- `HAMMER_HEAD_TYPE_REDO` -/
def typeRedo : Nat := 0x44

/-- `HAMMER_REDO_WRITE` -/
def redoWrite : Nat := 1

/-- `HAMMER_REDO_TRUNC` -/
def redoTrunc : Nat := 2

/-- `HAMMER_REDO_TERM_WRITE` -/
def redoTermWrite : Nat := 4

/-- `HAMMER_REDO_TERM_TRUNC` -/
def redoTermTrunc : Nat := 8

/-- `HAMMER_REDO_SYNC` -/
def redoSync : Nat := 16

/-! ## Fields

`struct hammer_fifo_head` has 16 bytes, `struct hammer_fifo_tail` 8,
`struct hammer_fifo_undo` 32 and `struct hammer_fifo_redo` 56. -/

section Fields

variable (mem : Mem) (place : Nat)

def hdrSignature : Nat := mem.peek place 2

def hdrType : Nat := mem.peek (place + 2) 2

def hdrSize : Nat := mem.peek (place + 4) 4

def hdrSeq : Nat := mem.peek (place + 8) 4

def hdrCrc : Nat := mem.peek (place + 12) 4

def undoOffset : Nat := mem.peek (place + 16) 8

def undoDataBytes : Int := int32 (mem.peek (place + 24) 4)

def redoObjid : Nat := mem.peek (place + 16) 8

def redoOffset : Nat := mem.peek (place + 24) 8

def redoDataBytes : Int := int32 (mem.peek (place + 32) 4)

def redoFlags : Nat := mem.peek (place + 36) 4

def redoLocalization : Nat := mem.peek (place + 40) 4

def redoMtime : Nat := mem.peek (place + 48) 8

end Fields

/-- What a record carries besides its wrapper.  `data` is the room between the
media structure and the tail; its first `dataBytes` bytes are the payload. -/
inductive Body where
  | pad
  | dummy
  | other (type : Nat)
  | undo (offset : Nat) (dataBytes : Int) (data : List UInt8)
  | redo (objid offset : Nat) (dataBytes : Int) (flags localization mtime : Nat)
      (data : List UInt8)
  deriving DecidableEq, Repr

/-- A record as the recovery code reads it.  A PAD has no sequence number. -/
structure Record where
  size : Nat
  seq : Nat
  body : Body
  deriving DecidableEq, Repr

/-- The record with its head at `place`. -/
def record (mem : Mem) (place : Nat) : Record :=
  let size := hdrSize mem place
  if hdrType mem place = typePad then { size, seq := 0, body := .pad }
  else
    { size, seq := hdrSeq mem place
      body :=
        if hdrType mem place = typeDummy then .dummy
        else if hdrType mem place = typeUndo then
          .undo (undoOffset mem place) (undoDataBytes mem place)
            (mem.slice (place + 32) (size - 40))
        else if hdrType mem place = typeRedo then
          .redo (redoObjid mem place) (redoOffset mem place) (redoDataBytes mem place)
            (redoFlags mem place) (redoLocalization mem place) (redoMtime mem place)
            (mem.slice (place + 56) (size - 64))
        else .other (hdrType mem place) }

section Scan

variable (crc32 : List UInt8 → UInt32)

/-- The checksum of the record at `place`, which skips the `hdr_crc` field. -/
def recordCrc (mem : Mem) (place size : Nat) : Nat :=
  (crc32 (mem.slice place 12) ^^^ crc32 (mem.slice (place + 16) (size - 16))).toNat

/-- `_hammer_check_signature`; zero means that the wrapper is in order.  A record
that is no PAD and shorter than its head is refused here as too small. -/
def checkSignature (mem : Mem) (head tail : Nat) : Nat :=
  let size := hdrSize mem head
  if hdrSignature mem head ≠ headSignature then 2
  else if size < 8 ∨ size % 8 ≠ 0 then 2
  else if (hdrType mem head ≠ typePad ∨ size ≠ 8) ∧ hdrType mem head ≠ hdrType mem tail then 2
  else if (hdrType mem head ≠ typePad ∨ size ≠ 8) ∧ size ≠ hdrSize mem tail then 2
  else if (hdrType mem head ≠ typePad ∨ size ≠ 8) ∧ hdrSignature mem tail ≠ tailSignature then 3
  else if hdrType mem head ≠ typePad ∧ hdrCrc mem head ≠ recordCrc crc32 mem head size then 5
  else if hdrType mem head ≠ typePad ∧ size < 24 then 5
  else if hdrSize mem (head + size - 8) ≠ size then 5
  else if hdrType mem (head + size - 8) ≠ hdrType mem head then 5
  else 0

/-- `hammer_check_head_signature` -/
def checkHeadSignature (mem : Mem) (begOff : Nat) : Nat :=
  let endOff := begOff + hdrSize mem begOff
  if (begOff + 7) / bufsize ≠ begOff / bufsize then 1
  else if begOff / bufsize ≠ (endOff - 1) / bufsize then 1
  else checkSignature crc32 mem begOff (endOff - 8)

/-- `hammer_check_tail_signature` -/
def checkTailSignature (mem : Mem) (endOff : Nat) : Nat :=
  let begOff := endOff - hdrSize mem (endOff - 8)
  if (endOff - 8) / bufsize ≠ (endOff - 1) / bufsize then 1
  else if begOff / bufsize ≠ (endOff - 1) / bufsize then 1
  else checkSignature crc32 mem begOff (endOff - 8)

/-- `hammer_recover_scan_rev`: the record in front of `scanOffset`. -/
def scanRev (mem : Mem) (allocOffset scanOffset : Nat) : Except Errno (Record × Nat) :=
  let scanOffset := if scanOffset = undoBase then allocOffset else scanOffset
  if scanOffset - 8 < undoBase then .error .eio
  else if checkTailSignature crc32 mem scanOffset ≠ 0 then .error .eio
  else
    let head := scanOffset - hdrSize mem (scanOffset - 8)
    .ok (record mem head, scanOffset - hdrSize mem head)

/-- `hammer_recover_scan_fwd`: the record at `scanOffset`. -/
def scanFwd (mem : Mem) (allocOffset scanOffset : Nat) : Except Errno (Record × Nat) :=
  let scanOffset := if scanOffset = allocOffset then undoBase else scanOffset
  if checkHeadSignature crc32 mem scanOffset ≠ 0 then .error .eio
  else
    let next := scanOffset + hdrSize mem scanOffset
    .ok (record mem scanOffset, if next = allocOffset then undoBase else next)

end Scan

end Fifo

end Dragonfly.Hammer
