import Mathlib.Algebra.Order.Ring.WithTop
import Mathlib.Data.Nat.Cast.Order.Ring
import Mathlib.Algebra.Order.Ring.Int
import Mathlib.Data.Prod.Lex
import Mathlib.Order.WithBot

/-!
# Elements of the B-Tree

The base of an element carries its key.  `hammer_btree_cmp` orders bases by
localization, object, record type, key and creation time, where a creation time
of zero comes last.  `Base.rank` maps a base into a linear order with the same
comparisons.
-/

namespace Dragonfly.Hammer.Btree

/-- `HAMMER_BTREE_TYPE_…`; a boundary element has no type. -/
inductive Btype where
  | boundary
  | internal
  | leaf
  | record
  deriving DecidableEq, Repr

/-- `struct hammer_base_elm` -/
structure Base where
  objId : Int
  key : Int
  createTid : Nat
  deleteTid : Nat
  recType : Nat
  objType : Nat
  btype : Btype
  localization : Nat
  deriving DecidableEq, Repr

/-- `struct hammer_btree_leaf_elm` -/
structure LeafElm where
  base : Base
  createTs : Nat
  deleteTs : Nat
  dataOffset : Nat
  dataLen : Int
  dataCrc : Nat
  deriving DecidableEq, Repr

/-- `struct hammer_btree_internal_elm` -/
structure IntElm where
  base : Base
  mirrorTid : Nat
  subtreeOffset : Nat
  deriving DecidableEq, Repr

/-- `HAMMER_BTREE_LEAF_ELMS` -/
def leafElms : Nat := 63

/-- `HAMMER_BTREE_INT_ELMS` -/
def intElms : Nat := leafElms - 1

/-- `hammer_btree_cmp` -/
def cmp (key1 key2 : Base) : Int :=
  if key1.localization < key2.localization then -5
  else if key2.localization < key1.localization then 5
  else if key1.objId < key2.objId then -4
  else if key2.objId < key1.objId then 4
  else if key1.recType < key2.recType then -3
  else if key2.recType < key1.recType then 3
  else if key1.key < key2.key then -2
  else if key2.key < key1.key then 2
  else if key1.createTid = 0 then
    if key2.createTid = 0 then 0 else 1
  else if key2.createTid = 0 then -1
  else if key1.createTid < key2.createTid then -1
  else if key2.createTid < key1.createTid then 1
  else 0

/-- `hammer_btree_chkts`; zero means that the element is visible. -/
def chkts (asof : Nat) (base : Base) : Int :=
  if asof = 0 then
    if base.deleteTid ≠ 0 then 1 else 0
  else if asof < base.createTid then -1
  else if base.deleteTid ≠ 0 ∧ base.deleteTid ≤ asof then 1
  else 0

/-! ## The order of keys -/

/-- All of a key but the creation time. -/
abbrev Lead : Type := Nat ×ₗ Int ×ₗ Nat ×ₗ Int

/-- A key, as a point of a linear order. -/
abbrev Rank : Type := Lead ×ₗ WithTop Nat

/-- Zero is the last creation time. -/
def tidRank (tid : Nat) : WithTop Nat := if tid = 0 then ⊤ else tid

namespace Base

def lead (base : Base) : Lead :=
  toLex (base.localization, toLex (base.objId, toLex (base.recType, base.key)))

def rank (base : Base) : Rank := toLex (base.lead, tidRank base.createTid)

end Base

section Compare

variable {first second : Base}

theorem lead_lt_iff : first.lead < second.lead ↔
    first.localization < second.localization ∨ first.localization = second.localization ∧
      (first.objId < second.objId ∨ first.objId = second.objId ∧
        (first.recType < second.recType ∨ first.recType = second.recType ∧
          first.key < second.key)) := by
  simp only [Base.lead, Prod.Lex.toLex_lt_toLex]

theorem lead_eq_iff : first.lead = second.lead ↔
    first.localization = second.localization ∧ first.objId = second.objId ∧
      first.recType = second.recType ∧ first.key = second.key := by
  simp only [Base.lead, EmbeddingLike.apply_eq_iff_eq, Prod.mk.injEq]

theorem rank_lt_iff : first.rank < second.rank ↔ first.lead < second.lead ∨
    first.lead = second.lead ∧ tidRank first.createTid < tidRank second.createTid := by
  simp only [Base.rank, Prod.Lex.toLex_lt_toLex]

theorem rank_eq_iff : first.rank = second.rank ↔
    first.lead = second.lead ∧ tidRank first.createTid = tidRank second.createTid := by
  simp only [Base.rank, EmbeddingLike.apply_eq_iff_eq, Prod.mk.injEq]

theorem tidRank_lt_iff {tid other : Nat} :
    tidRank tid < tidRank other ↔ tid ≠ 0 ∧ (other = 0 ∨ tid < other) := by
  unfold tidRank
  split_ifs with zero otherZero otherZero
  · simp [zero]
  · simp [zero]
  · simp [zero, otherZero]
  · simp [zero, otherZero]

theorem tidRank_eq_iff {tid other : Nat} : tidRank tid = tidRank other ↔ tid = other := by
  unfold tidRank
  split_ifs with zero otherZero otherZero
  · simp [zero, otherZero]
  · simp [zero, Ne.symm otherZero]
  · simp [zero, otherZero]
  · simp

/-- What a result of the comparison says: the fields in front of the creation
time decide, or the creation time does. -/
def Says (first second : Base) (result : Int) : Prop :=
  (result < -1 ∧ first.lead < second.lead) ∨ (1 < result ∧ second.lead < first.lead) ∨
    first.lead = second.lead ∧
      ((result = -1 ∧ tidRank first.createTid < tidRank second.createTid) ∨
        (result = 1 ∧ tidRank second.createTid < tidRank first.createTid) ∨
        (result = 0 ∧ first.createTid = second.createTid))

theorem cmp_cases (first second : Base) : Says first second (cmp first second) := by
  have below : ∀ {result : Int}, result < -1 → first.lead < second.lead →
      Says first second result := fun small lt => .inl ⟨small, lt⟩
  have above : ∀ {result : Int}, 1 < result → second.lead < first.lead →
      Says first second result := fun large gt => .inr (.inl ⟨large, gt⟩)
  unfold cmp
  rcases Nat.lt_trichotomy first.localization second.localization with lt | locEq | gt
  · rw [if_pos lt]
    exact below (by decide) ((lead_lt_iff).mpr (.inl lt))
  · rw [if_neg (by omega), if_neg (by omega)]
    rcases Int.lt_trichotomy first.objId second.objId with lt | objEq | gt
    · rw [if_pos lt]
      exact below (by decide) ((lead_lt_iff).mpr (.inr ⟨locEq, .inl lt⟩))
    · rw [if_neg (by omega), if_neg (by omega)]
      rcases Nat.lt_trichotomy first.recType second.recType with lt | recEq | gt
      · rw [if_pos lt]
        exact below (by decide) ((lead_lt_iff).mpr (.inr ⟨locEq, .inr ⟨objEq, .inl lt⟩⟩))
      · rw [if_neg (by omega), if_neg (by omega)]
        rcases Int.lt_trichotomy first.key second.key with lt | keyEq | gt
        · rw [if_pos lt]
          exact below (by decide)
            ((lead_lt_iff).mpr (.inr ⟨locEq, .inr ⟨objEq, .inr ⟨recEq, lt⟩⟩⟩))
        · rw [if_neg (by omega), if_neg (by omega)]
          refine .inr (.inr ⟨(lead_eq_iff).mpr ⟨locEq, objEq, recEq, keyEq⟩, ?_⟩)
          rw [tidRank_lt_iff, tidRank_lt_iff]
          split_ifs <;> omega
        · rw [if_neg (by omega), if_pos gt]
          exact above (by decide)
            ((lead_lt_iff).mpr (.inr ⟨locEq.symm, .inr ⟨objEq.symm, .inr ⟨recEq.symm, gt⟩⟩⟩))
      · rw [if_neg (by omega), if_pos gt]
        exact above (by decide)
          ((lead_lt_iff).mpr (.inr ⟨locEq.symm, .inr ⟨objEq.symm, .inl gt⟩⟩))
    · rw [if_neg (by omega), if_pos gt]
      exact above (by decide) ((lead_lt_iff).mpr (.inr ⟨locEq.symm, .inl gt⟩))
  · rw [if_neg (by omega), if_pos gt]
    exact above (by decide) ((lead_lt_iff).mpr (.inl gt))

theorem cmp_lt_zero_iff : cmp first second < 0 ↔ first.rank < second.rank := by
  rw [rank_lt_iff]
  rcases cmp_cases first second with ⟨result, lt⟩ | ⟨result, gt⟩ | ⟨same, ⟨result, lt⟩ | ⟨result, gt⟩ |
    ⟨result, tid⟩⟩
  · exact ⟨fun _ => .inl lt, fun _ => by omega⟩
  · exact ⟨fun _ => by omega, fun below => absurd gt (by
      rcases below with below | ⟨same, _⟩
      · exact below.asymm
      · exact same.not_gt)⟩
  · exact ⟨fun _ => .inr ⟨same, lt⟩, fun _ => by omega⟩
  · refine ⟨fun _ => by omega, ?_⟩
    rintro (below | ⟨_, below⟩)
    · exact absurd same below.ne
    · exact absurd gt below.asymm
  · refine ⟨fun _ => by omega, ?_⟩
    rintro (below | ⟨_, below⟩)
    · exact absurd same below.ne
    · rw [tid] at below
      exact absurd below (lt_irrefl _)

theorem cmp_eq_zero_iff : cmp first second = 0 ↔ first.rank = second.rank := by
  rw [rank_eq_iff, tidRank_eq_iff]
  rcases cmp_cases first second with ⟨result, lt⟩ | ⟨result, gt⟩ | ⟨same, ⟨result, lt⟩ | ⟨result, gt⟩ |
    ⟨result, tid⟩⟩
  · exact ⟨fun _ => by omega, fun equal => absurd equal.1 lt.ne⟩
  · exact ⟨fun _ => by omega, fun equal => absurd equal.1.symm gt.ne⟩
  · exact ⟨fun _ => by omega, fun equal => absurd ((tidRank_eq_iff).mpr equal.2) lt.ne⟩
  · exact ⟨fun _ => by omega, fun equal => absurd ((tidRank_eq_iff).mpr equal.2.symm) gt.ne⟩
  · exact ⟨fun _ => ⟨same, tid⟩, fun _ => result⟩

theorem cmp_pos_iff : 0 < cmp first second ↔ second.rank < first.rank := by
  rw [← not_iff_not, not_lt, not_lt, le_iff_lt_or_eq, le_iff_lt_or_eq, cmp_lt_zero_iff,
    cmp_eq_zero_iff]

theorem cmp_nonneg_iff : 0 ≤ cmp first second ↔ second.rank ≤ first.rank := by
  rw [← not_lt, cmp_lt_zero_iff, not_lt]

theorem cmp_nonpos_iff : cmp first second ≤ 0 ↔ first.rank ≤ second.rank := by
  rw [← not_lt, cmp_pos_iff, not_lt]

/-- A result above one means that more than the creation time is larger. -/
theorem one_lt_cmp_iff : 1 < cmp first second ↔ second.lead < first.lead := by
  rcases cmp_cases first second with ⟨result, lt⟩ | ⟨result, gt⟩ | ⟨same, ⟨result, _⟩ | ⟨result, _⟩ |
    ⟨result, _⟩⟩
  · exact ⟨fun _ => by omega, fun gt => absurd gt lt.asymm⟩
  · exact ⟨fun _ => gt, fun _ => result⟩
  · exact ⟨fun _ => by omega, fun gt => absurd same gt.ne'⟩
  · exact ⟨fun _ => by omega, fun gt => absurd same gt.ne'⟩
  · exact ⟨fun _ => by omega, fun gt => absurd same gt.ne'⟩

/-- A result of one means that only the creation time is larger. -/
theorem cmp_eq_one_iff : cmp first second = 1 ↔
    first.lead = second.lead ∧ tidRank second.createTid < tidRank first.createTid := by
  rcases cmp_cases first second with ⟨result, lt⟩ | ⟨result, gt⟩ | ⟨same, ⟨result, lt⟩ | ⟨result, gt⟩ |
    ⟨result, tid⟩⟩
  · exact ⟨fun _ => by omega, fun equal => absurd equal.1 lt.ne⟩
  · exact ⟨fun _ => by omega, fun equal => absurd equal.1 gt.ne'⟩
  · exact ⟨fun _ => by omega, fun equal => absurd equal.2 lt.asymm⟩
  · exact ⟨fun _ => ⟨same, gt⟩, fun _ => result⟩
  · refine ⟨fun _ => by omega, ?_⟩
    rintro ⟨_, below⟩
    rw [tid] at below
    exact absurd below (lt_irrefl _)

end Compare

end Dragonfly.Hammer.Btree
