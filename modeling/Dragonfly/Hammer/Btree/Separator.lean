import Dragonfly.Hammer.Btree.Elm
import Dragonfly.Hammer.Disk

/-!
# Separators

A split of a leaf puts a separator into the parent, half way between the last key of
the left part and the first key of the right part.  The half way point of the first
field that differs is computed in the type of the field; the fields behind it are those
of the right key.  In a field of 64 bits the distance itself overflows.
-/

namespace Dragonfly.Hammer.Btree

/-- `MAKE_SEPARATOR` of a `u_int32_t` -/
def separatorU32 (key1 key2 : Nat) : Nat :=
  (key1 + (key2 + 4294967296 - key1 + 1) % 4294967296 / 2) % 4294967296

/-- `MAKE_SEPARATOR` of an `int64_t`; the shift keeps the sign. -/
def separatorI64 (key1 key2 : Int) : Int :=
  int64 (key1 + int64 (int64 (key2 - key1) + 1) / 2)

/-- `MAKE_SEPARATOR` of a `u_int16_t`, which is computed in `int` -/
def separatorU16 (key1 key2 : Nat) : Nat :=
  (((key1 : Int) + ((key2 : Int) - key1 + 1) / 2) % 65536).toNat

/-- `hammer_make_separator` -/
def makeSeparator (key1 key2 : Base) : Base where
  localization := separatorU32 key1.localization key2.localization
  objId :=
    if key1.localization = key2.localization then separatorI64 key1.objId key2.objId
    else key2.objId
  recType :=
    if key1.localization = key2.localization ∧ key1.objId = key2.objId then
      separatorU16 key1.recType key2.recType
    else key2.recType
  key :=
    if key1.localization = key2.localization ∧ key1.objId = key2.objId ∧
        key1.recType = key2.recType then
      separatorI64 key1.key key2.key
    else key2.key
  createTid := key2.createTid
  deleteTid := 0
  objType := 0
  btype := .boundary

/-- The fields of a key are in the ranges of their types. -/
structure Base.Typed (base : Base) : Prop where
  localization : base.localization < 4294967296
  objId : -9223372036854775808 ≤ base.objId ∧ base.objId < 9223372036854775808
  recType : base.recType < 65536
  key : -9223372036854775808 ≤ base.key ∧ base.key < 9223372036854775808
  createTid : base.createTid < 18446744073709551616

/-- A distance of two signed fields is small enough for its half.  The largest distance
wraps to zero, which leaves the order to the fields behind. -/
def Halves (key1 key2 : Int) (behind : Prop) : Prop :=
  key2 - key1 < 9223372036854775807 ∨ key2 - key1 = 18446744073709551615 ∧ behind

/-- The distance of the first field that differs is small enough for its half. -/
def Separable (key1 key2 : Base) : Prop :=
  if key1.localization ≠ key2.localization then
    key2.localization - key1.localization ≠ 4294967295 ∨
      cmp key1 { key2 with localization := key1.localization } < 0
  else if key1.objId ≠ key2.objId then
    Halves key1.objId key2.objId (cmp key1 { key2 with objId := key1.objId } < 0)
  else if key1.recType ≠ key2.recType then True
  else if key1.key ≠ key2.key then
    Halves key1.key key2.key (cmp key1 { key2 with key := key1.key } < 0)
  else True

/-- A key is above the last one on the left and at most the first one on the right. -/
def Separates (key1 key2 separator : Base) : Prop :=
  cmp key1 separator < 0 ∧ cmp separator key2 ≤ 0

/-! ## Half way points -/

section Halfway

/-- The half way point is above the left field and at most the right one, unless the
distance is the largest one. -/
theorem separatorU32_spec {key1 key2 : Nat} (less : key1 < key2) (word : key2 < 4294967296) :
    (key2 - key1 ≠ 4294967295 ∧ key1 < separatorU32 key1 key2 ∧ separatorU32 key1 key2 ≤ key2) ∨
      (key2 - key1 = 4294967295 ∧ separatorU32 key1 key2 = key1) := by
  unfold separatorU32
  omega

theorem separatorU32_self {key : Nat} (word : key < 4294967296) : separatorU32 key key = key := by
  unfold separatorU32
  omega

theorem separatorU16_spec {key1 key2 : Nat} (less : key1 < key2) (word : key2 < 65536) :
    key1 < separatorU16 key1 key2 ∧ separatorU16 key1 key2 ≤ key2 := by
  unfold separatorU16
  omega

theorem separatorU16_self {key : Nat} (word : key < 65536) : separatorU16 key key = key := by
  unfold separatorU16
  omega

/-- Wrap-around of a signed 64-bit field, as one of three cases. -/
theorem int64_cases {value : Int} (lower : -27670116110564327424 ≤ value)
    (upper : value < 27670116110564327424) :
    int64 value = value ∧ -9223372036854775808 ≤ value ∧ value < 9223372036854775808 ∨
      int64 value = value - 18446744073709551616 ∧ 9223372036854775808 ≤ value ∨
      int64 value = value + 18446744073709551616 ∧ value < -9223372036854775808 := by
  unfold int64
  rw [Int.bmod_def]
  split <;> omega

/-- The half way point is right for a distance below `2 ^ 63 - 1`, is the left field for
the largest distance and lies outside for all others. -/
theorem separatorI64_spec {key1 key2 : Int} (lower : -9223372036854775808 ≤ key1)
    (less : key1 < key2) (upper : key2 < 9223372036854775808) :
    (key2 - key1 < 9223372036854775807 ∧ key1 < separatorI64 key1 key2 ∧
        separatorI64 key1 key2 ≤ key2) ∨
      (key2 - key1 = 18446744073709551615 ∧ separatorI64 key1 key2 = key1) ∨
      (9223372036854775807 ≤ key2 - key1 ∧ key2 - key1 ≠ 18446744073709551615 ∧
        (separatorI64 key1 key2 < key1 ∨ key2 < separatorI64 key1 key2)) := by
  unfold separatorI64
  have distance := @int64_cases (key2 - key1) (by omega) (by omega)
  have next := @int64_cases (int64 (key2 - key1) + 1) (by omega) (by omega)
  have sum := @int64_cases (key1 + int64 (int64 (key2 - key1) + 1) / 2) (by omega) (by omega)
  omega

theorem separatorI64_self {key : Int} (lower : -9223372036854775808 ≤ key)
    (upper : key < 9223372036854775808) : separatorI64 key key = key := by
  unfold separatorI64
  have same : int64 (int64 (key - key) + 1) / 2 = 0 := by
    rw [Int.sub_self]
    decide
  rw [same, Int.add_zero]
  exact int64_of_range lower upper

end Halfway

/-! ## Keys -/

section Keys

variable {key1 key2 : Base}

/-- The order of keys, field by field. -/
theorem cmp_lt_zero_fields : cmp key1 key2 < 0 ↔
    key1.localization < key2.localization ∨ key1.localization = key2.localization ∧
      (key1.objId < key2.objId ∨ key1.objId = key2.objId ∧
        (key1.recType < key2.recType ∨ key1.recType = key2.recType ∧
          (key1.key < key2.key ∨ key1.key = key2.key ∧
            (key1.createTid ≠ 0 ∧ (key2.createTid = 0 ∨ key1.createTid < key2.createTid))))) := by
  rw [cmp_lt_zero_iff, rank_lt_iff, lead_lt_iff, lead_eq_iff, tidRank_lt_iff]
  omega

theorem cmp_nonpos_fields : cmp key1 key2 ≤ 0 ↔
    key1.localization < key2.localization ∨ key1.localization = key2.localization ∧
      (key1.objId < key2.objId ∨ key1.objId = key2.objId ∧
        (key1.recType < key2.recType ∨ key1.recType = key2.recType ∧
          (key1.key < key2.key ∨ key1.key = key2.key ∧
            (key2.createTid = 0 ∨ key1.createTid ≠ 0 ∧ key1.createTid ≤ key2.createTid)))) := by
  rw [cmp_nonpos_iff, ← not_lt, rank_lt_iff, lead_lt_iff, lead_eq_iff,
    tidRank_lt_iff]
  omega

/-- The separator separates exactly if the distance of the first field that differs is small
enough for its half. -/
theorem separates_iff (typed1 : key1.Typed) (typed2 : key2.Typed) (less : cmp key1 key2 < 0) :
    Separates key1 key2 (makeSeparator key1 key2) ↔ Separable key1 key2 := by
  obtain ⟨word1, ⟨lowObj1, highObj1⟩, short1, ⟨lowKey1, highKey1⟩, -⟩ := typed1
  obtain ⟨word2, ⟨lowObj2, highObj2⟩, short2, ⟨lowKey2, highKey2⟩, -⟩ := typed2
  unfold Separates Separable Halves makeSeparator
  simp only [cmp_lt_zero_fields, cmp_nonpos_fields] at less ⊢
  by_cases sameLocalization : key1.localization = key2.localization
  · have loc := separatorU32_self word2
    by_cases sameObj : key1.objId = key2.objId
    · have obj := separatorI64_self lowObj2 highObj2
      by_cases sameRec : key1.recType = key2.recType
      · have type := separatorU16_self short2
        by_cases sameKey : key1.key = key2.key
        · have key := separatorI64_self lowKey2 highKey2
          simp only [sameLocalization, sameObj, sameRec, sameKey] at less ⊢
          simp [loc, obj, type, key]
          omega
        · have half := separatorI64_spec lowKey1 (by omega : key1.key < key2.key) highKey2
          simp only [sameLocalization, sameObj, sameRec] at less ⊢
          simp [loc, obj, type, sameKey]
          omega
      · have half := separatorU16_spec (by omega : key1.recType < key2.recType) short2
        simp only [sameLocalization, sameObj] at less ⊢
        simp [loc, obj, sameRec]
        omega
    · have half := separatorI64_spec lowObj1 (by omega : key1.objId < key2.objId) highObj2
      simp only [sameLocalization] at less ⊢
      simp [loc, sameObj]
      omega
  · have half := separatorU32_spec (by omega : key1.localization < key2.localization) word2
    simp [sameLocalization]
    omega

/-- For every two keys in order, the separator is above the first and at most the second
exactly if the distance of the first field that differs is small enough for its half.
The same decides, for every leaf that is split between the two keys, whether the separator
is above the left part, at most the right part and strictly inside the bounds. -/
theorem separators_separate (typed1 : key1.Typed) (typed2 : key2.Typed) (less : cmp key1 key2 < 0) :
    (Separates key1 key2 (makeSeparator key1 key2) ↔ Separable key1 key2) ∧
    ∀ (front back : List Base) (leftBound rightBound : Base),
      (front ++ key1 :: key2 :: back).Pairwise (cmp · · < 0) →
      (∀ key ∈ front ++ key1 :: key2 :: back, cmp leftBound key ≤ 0 ∧ cmp key rightBound < 0) →
      ((∀ key ∈ front ++ [key1], cmp key (makeSeparator key1 key2) < 0) ∧
        (∀ key ∈ key2 :: back, cmp (makeSeparator key1 key2) key ≤ 0) ∧
        cmp leftBound (makeSeparator key1 key2) < 0 ∧ cmp (makeSeparator key1 key2) rightBound < 0 ↔
          Separable key1 key2) := by
  refine ⟨separates_iff typed1 typed2 less, ?_⟩
  intro front back leftBound rightBound sorted inside
  rw [← separates_iff typed1 typed2 less]
  constructor
  · rintro ⟨left, right, -⟩
    exact ⟨left key1 (by simp), right key2 List.mem_cons_self⟩
  · rintro ⟨above, below⟩
    obtain ⟨-, pair, crosses⟩ := List.pairwise_append.mp sorted
    have behind := (List.pairwise_cons.mp (List.pairwise_cons.mp pair).2).1
    have ⟨leftIn, _⟩ := inside key1 (by simp)
    have ⟨_, rightIn⟩ := inside key2 (by simp)
    simp only [cmp_lt_zero_iff, cmp_nonpos_iff] at above below crosses behind leftIn rightIn ⊢
    refine ⟨?_, ?_, leftIn.trans_lt above, below.trans_lt rightIn⟩
    · intro key member
      obtain early | last := List.mem_append.mp member
      · exact (crosses key early key1 List.mem_cons_self).trans above
      · rw [List.mem_singleton.mp last]
        exact above
    · intro key member
      obtain rfl | late := List.mem_cons.mp member
      · exact below
      · exact below.trans (behind key late).le

/-- A key with all fields zero but these. -/
def plainKey (key : Int) (createTid : Nat) : Base where
  objId := 1
  key := key
  createTid := createTid
  deleteTid := 0
  recType := 16
  objType := 0
  btype := .record
  localization := 65536

theorem separators_separate_near : Separates (plainKey 7 4096) (plainKey 12 4097)
    (makeSeparator (plainKey 7 4096) (plainKey 12 4097)) := by
  apply (separators_separate (by constructor <;> decide) (by constructor <;> decide) (by decide)).1.mpr
  unfold Separable Halves
  decide

/-- The half of a distance of `2 ^ 63` is negative. -/
theorem separator_below_both : ¬∀ key1 key2 : Base, key1.Typed → key2.Typed → cmp key1 key2 < 0 →
    Separates key1 key2 (makeSeparator key1 key2) := by
  intro all
  have both := all (plainKey (-1) 4096) (plainKey 9223372036854775807 4097) (by constructor <;> decide)
    (by constructor <;> decide) (by decide)
  exact absurd both.1 (by decide)

end Keys

end Dragonfly.Hammer.Btree
