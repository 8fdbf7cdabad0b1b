import Mathlib.Data.List.Basic
import Mathlib.Data.Int.Basic

/-!
# Raw journal records

A journal stream is a sequence of raw records: a `journal_rawrecbeg`, the payload and a
`journal_rawrecend`, in a multiple of sixteen bytes.  Both headers carry the unaligned size, so
a stream is read from either end.  A pad may be sixteen bytes long, and then its trailer lies
over the transaction id of its header.
-/

namespace Dragonfly.Jscan

/-- `JREC_BEGMAGIC` -/
def begMagic : Nat := 0x1234

/-- `JREC_ENDMAGIC` -/
def endMagic : Nat := 0xCDEF

/-- `JREC_STREAMID_PAD` -/
def streamidPad : Nat := 0xC001

/-- `JREC_MINRECSIZE` -/
def minRecSize : Int := 16

/-- `JREC_MAXRECSIZE` -/
def maxRecSize : Int := 134217728

/-- `sizeof(struct journal_rawrecbeg)` -/
def sizeofRawrecbeg : Nat := 16

/-- `sizeof(struct journal_rawrecend)` -/
def sizeofRawrecend : Nat := 8

/-- The little-endian number in a string of bytes. -/
def leNat : List UInt8 → Nat
  | [] => 0
  | byte :: rest => byte.toNat + 256 * leNat rest

/-- The field of `width` bytes at `offset` of a buffer. -/
def field (buffer : List UInt8) (offset width : Nat) : Nat :=
  leNat ((buffer.drop offset).take width)

/-- `begmagic` of a `journal_rawrecbeg` -/
def begmagic (head : List UInt8) : Nat := field head 0 2

/-- `streamid` of a `journal_rawrecbeg` -/
def streamid (head : List UInt8) : Nat := field head 2 2

/-- `recsize` of a `journal_rawrecbeg` or of a `journal_rawrecend`; both have it at offset 4. -/
def recsize (header : List UInt8) : Int := (field header 4 4 : Int).bmod 4294967296

/-- `transid` of a `journal_rawrecbeg` -/
def transid (head : List UInt8) : Int := (field head 8 8 : Int).bmod 18446744073709551616

/-- `endmagic` of a `journal_rawrecend` -/
def endmagic (tail : List UInt8) : Nat := field tail 0 2

/-- `(recsize + 15) & ~15` in an `int` -/
def alignSize (size : Int) : Int :=
  let sum := (size + 15).bmod 4294967296
  sum - sum % 16

/-- The bytes are one raw record. -/
structure IsRaw (bytes : List UInt8) : Prop where
  least : 16 ≤ bytes.length
  most : bytes.length ≤ 134217728
  aligned : bytes.length % 16 = 0
  beg : begmagic bytes = begMagic
  headSize : alignSize (recsize bytes) = bytes.length
  fin : endmagic (bytes.drop (bytes.length - 8)) = endMagic
  tailSize : alignSize (recsize (bytes.drop (bytes.length - 8))) = bytes.length

/-- One raw record of a stream. -/
structure Raw where
  bytes : List UInt8
  isRaw : IsRaw bytes

namespace Raw

/-- The bytes a record takes in the stream. -/
def size (raw : Raw) : Nat := raw.bytes.length

/-- The transaction id field, which is garbage in a pad. -/
def transid (raw : Raw) : Int := Jscan.transid raw.bytes

/-- The record only fills dead space. -/
def IsPad (raw : Raw) : Prop := streamid raw.bytes = streamidPad

instance (raw : Raw) : Decidable raw.IsPad := inferInstanceAs (Decidable (_ = _))

end Raw

/-! ## Fields of part of a buffer -/

theorem field_take {buffer : List UInt8} {offset width count : Nat}
    (inside : offset + width ≤ count) : field (buffer.take count) offset width = field buffer offset width := by
  unfold field
  rw [List.drop_take, List.take_take, Nat.min_eq_left (by omega)]

variable {head : List UInt8} {count : Nat}

theorem begmagic_take (enough : 16 ≤ count) : begmagic (head.take count) = begmagic head :=
  field_take (by omega)

theorem streamid_take (enough : 16 ≤ count) : streamid (head.take count) = streamid head :=
  field_take (by omega)

theorem recsize_take (enough : 8 ≤ count) : recsize (head.take count) = recsize head := by
  unfold recsize
  rw [field_take (by omega)]

theorem transid_take (enough : 16 ≤ count) : transid (head.take count) = transid head := by
  unfold transid
  rw [field_take (by omega)]

/-! ## Streams -/

/-- The bytes of a sequence of records. -/
def stream (raws : List Raw) : List UInt8 := raws.flatMap Raw.bytes

@[simp]
theorem stream_nil : stream [] = [] := rfl

@[simp]
theorem stream_cons (raw : Raw) (raws : List Raw) : stream (raw :: raws) = raw.bytes ++ stream raws := rfl

@[simp]
theorem stream_append (first second : List Raw) :
    stream (first ++ second) = stream first ++ stream second := List.flatMap_append

theorem stream_aligned (raws : List Raw) : (stream raws).length % 16 = 0 := by
  induction raws with
  | nil => rfl
  | cons raw raws ih =>
      have aligned := raw.isRaw.aligned
      rw [stream_cons, List.length_append]
      omega

/-! ## A record and a pad -/

/-- A record of transaction 1. -/
def firstRecord : Raw where
  bytes := [0x34, 0x12, 0x00, 0xC1, 32, 0, 0, 0, 1, 0, 0, 0, 0, 0, 0, 0,
    0, 0, 0, 0, 0, 0, 0, 0, 0xEF, 0xCD, 0, 0, 32, 0, 0, 0]
  isRaw := by constructor <;> decide

/-- A pad of sixteen bytes. -/
def smallPad : Raw where
  bytes := [0x34, 0x12, 0x01, 0xC0, 16, 0, 0, 0, 0xEF, 0xCD, 0, 0, 16, 0, 0, 0]
  isRaw := by constructor <;> decide

end Dragonfly.Jscan
