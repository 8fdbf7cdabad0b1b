import Mathlib.Algebra.Order.Ring.Int
import Dragonfly.Hammer.Disk

/-!
# Directory name keys

`hammer_directory_namekey` over an arbitrary 32-bit checksum.  The key of an entry is
searched upwards from the name key, and a lookup scans the keys from the name key to
`max_iterations` above it.
-/

namespace Dragonfly.Hammer.Directory

/-- A file name without the terminating zero. -/
abbrev Name := List UInt8

/-- `HAMMER_INODE_CAP_DIRHASH_ALG0` and `HAMMER_INODE_CAP_DIRHASH_ALG1` -/
inductive Dirhash where
  | alg0
  | alg1
  deriving DecidableEq, Repr

/-- The characters that end a segment of a name: `.`, `-`, `_` and `~`. -/
def isSeparator (char : UInt8) : Bool :=
  char = 46 || char = 45 || char = 95 || char = 126

section Key

variable (crc32 : Name → UInt32)

/-- Add the checksum of a segment that is not empty. -/
def addSegment (segment : Name) (crcx : UInt32) : UInt32 :=
  if segment.isEmpty then crcx else crcx + crc32 segment

/-- The sum of the checksums of the segments. -/
def segmentSum : Name → Name → UInt32 → UInt32
  | [], segment, crcx => addSegment crc32 segment crcx
  | char :: rest, segment, crcx =>
      if isSeparator char then segmentSum rest [] (addSegment crc32 segment crcx)
      else segmentSum rest (segment ++ [char]) crcx

/-- The upper 32 bits of a name key, which are never zero. -/
def upperKey (bits : Nat) : Nat := if bits = 0 then 1 else bits

/-- `hammer_directory_namekey` -/
def namekey (alg : Dirhash) (name : Name) : Int :=
  match alg with
  | .alg0 => (upperKey ((crc32 name).toNat % 2 ^ 31) * 2 ^ 32 : Nat)
  | .alg1 =>
      let m32 := (segmentSum crc32 name [] 0).toNat % 2 ^ 31
      let l16 := (crc32 name ^^^ crc32 name <<< 16).toNat / 2 ^ 16 * 2 ^ 16
      (upperKey m32 * 2 ^ 32 + l16 : Nat)

/-- `max_iterations` -/
def maxIterations : Dirhash → Nat
  | .alg0 => 0xFFFFFFFF
  | .alg1 => 0x00FFFFFF

/-- `cursor.key_end.key` of a lookup -/
def keyEnd (alg : Dirhash) (name : Name) : Int :=
  int64 (namekey crc32 alg name + maxIterations alg)

/-- The iteration space of the name ends inside the positive keys. -/
def Fits (alg : Dirhash) (name : Name) : Prop :=
  namekey crc32 alg name + maxIterations alg ≤ 0x7FFFFFFFFFFFFFFF

instance (alg : Dirhash) (name : Name) : Decidable (Fits crc32 alg name) :=
  inferInstanceAs (Decidable (_ ≤ _))

end Key

variable {crc32 : Name → UInt32} {alg : Dirhash} {name : Name}

/-- A name without separators is one segment. -/
theorem segmentSum_of_plain {name : Name} (plain : ∀ char ∈ name, isSeparator char = false)
    (segment : Name) (crcx : UInt32) :
    segmentSum crc32 name segment crcx = addSegment crc32 (segment ++ name) crcx := by
  induction name generalizing segment with
  | nil => rw [segmentSum, List.append_nil]
  | cons char rest ih =>
      rw [List.forall_mem_cons] at plain
      rw [segmentSum, plain.1, if_neg Bool.false_ne_true, ih plain.2, List.append_assoc,
        List.singleton_append]

theorem upperKey_pos (bits : Nat) : 0 < upperKey bits := by
  unfold upperKey
  split <;> omega

theorem upperKey_lt {bits : Nat} (small : bits < 2 ^ 31) : upperKey bits < 2 ^ 31 := by
  unfold upperKey
  split <;> omega

/-- Name keys are positive 63-bit numbers that leave the upper half of the key space. -/
theorem namekey_bounds (crc32 : Name → UInt32) (alg : Dirhash) (name : Name) :
    2 ^ 32 ≤ namekey crc32 alg name ∧ namekey crc32 alg name ≤ 0x7FFFFFFFFFFF0000 := by
  cases alg with
  | alg0 =>
      have positive := upperKey_pos ((crc32 name).toNat % 2 ^ 31)
      have small := upperKey_lt (Nat.mod_lt (crc32 name).toNat (Nat.two_pow_pos 31))
      simp only [namekey]
      omega
  | alg1 =>
      have positive := upperKey_pos ((segmentSum crc32 name [] 0).toNat % 2 ^ 31)
      have small := upperKey_lt
        (Nat.mod_lt (segmentSum crc32 name [] 0).toNat (Nat.two_pow_pos 31))
      have word := (crc32 name ^^^ crc32 name <<< 16).toNat_lt
      simp only [namekey]
      omega

theorem maxIterations_bounds (alg : Dirhash) : 0 < maxIterations alg ∧ maxIterations alg ≤ 0xFFFFFFFF := by
  cases alg <;> simp [maxIterations]

/-- With the original algorithm every iteration space ends inside the positive keys. -/
theorem fits_alg0 : Fits crc32 .alg0 name := by
  have small := upperKey_lt (Nat.mod_lt (crc32 name).toNat (Nat.two_pow_pos 31))
  simp only [Fits, namekey, maxIterations]
  omega

theorem Fits.keyEnd_eq (fits : Fits crc32 alg name) :
    keyEnd crc32 alg name = namekey crc32 alg name + maxIterations alg := by
  have lower := (namekey_bounds crc32 alg name).1
  unfold Fits at fits
  exact int64_of_range (by omega) (by omega)

/-- A name whose iteration space does not fit is looked up in an empty range. -/
theorem keyEnd_neg (tooHigh : ¬Fits crc32 alg name) : keyEnd crc32 alg name < 0 := by
  obtain ⟨lower, upper⟩ := namekey_bounds crc32 alg name
  have iterations := maxIterations_bounds alg
  unfold Fits at tooHigh
  unfold keyEnd int64
  rw [Int.bmod_def]
  split <;> omega

/-- The range of a lookup is a range of positive keys exactly when the iteration space
of the name fits. -/
theorem lookup_range_iff : (0 < namekey crc32 alg name ∧
    namekey crc32 alg name ≤ keyEnd crc32 alg name) ↔ Fits crc32 alg name := by
  have lower := (namekey_bounds crc32 alg name).1
  constructor
  · rintro ⟨-, range⟩
    by_contra tooHigh
    have := keyEnd_neg tooHigh
    omega
  · intro fits
    rw [fits.keyEnd_eq]
    omega

end Dragonfly.Hammer.Directory
