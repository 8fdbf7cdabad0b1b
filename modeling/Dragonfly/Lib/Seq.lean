import Mathlib.Algebra.Order.Ring.Int
import Mathlib.Data.Nat.Basic

/-!
# Sequence numbers

Numbers of 32 bits that are compared by the sign of their difference.  Among numbers that are
less than half the circle ahead of a base, this is the order of their distances from it.
-/

namespace Dragonfly.Lib.Seq

/-- `SEQ_LT` -/
def seqLt (a b : BitVec 32) : Bool := (a - b).toInt < 0

/-- `SEQ_LEQ` -/
def seqLeq (a b : BitVec 32) : Bool := (a - b).toInt ≤ 0

/-- `SEQ_GT` -/
def seqGt (a b : BitVec 32) : Bool := 0 < (a - b).toInt

/-- `SEQ_GEQ` -/
def seqGeq (a b : BitVec 32) : Bool := 0 ≤ (a - b).toInt

/-- How far a number is ahead of the base. -/
def ahead (base x : BitVec 32) : Nat := (x - base).toNat

variable {base x y : BitVec 32}

/-- The signed difference of two numbers that are near ahead of a base. -/
theorem toInt_sub_eq (first : ahead base x < 2 ^ 31) (second : ahead base y < 2 ^ 31) :
    (x - y).toInt = (ahead base x : Int) - ahead base y := by
  have boundX := x.isLt
  have boundY := y.isLt
  have boundBase := base.isLt
  rw [BitVec.toInt_eq_toNat_cond]
  simp only [ahead, BitVec.toNat_sub] at *
  split
  · omega
  · omega

theorem seqLt_iff (first : ahead base x < 2 ^ 31) (second : ahead base y < 2 ^ 31) :
    seqLt x y = true ↔ ahead base x < ahead base y := by
  rw [seqLt, decide_eq_true_iff, toInt_sub_eq first second]
  omega

theorem seqLeq_iff (first : ahead base x < 2 ^ 31) (second : ahead base y < 2 ^ 31) :
    seqLeq x y = true ↔ ahead base x ≤ ahead base y := by
  rw [seqLeq, decide_eq_true_iff, toInt_sub_eq first second]
  omega

theorem seqGt_iff (first : ahead base x < 2 ^ 31) (second : ahead base y < 2 ^ 31) :
    seqGt x y = true ↔ ahead base y < ahead base x := by
  rw [seqGt, decide_eq_true_iff, toInt_sub_eq first second]
  omega

theorem seqGeq_iff (first : ahead base x < 2 ^ 31) (second : ahead base y < 2 ^ 31) :
    seqGeq x y = true ↔ ahead base y ≤ ahead base x := by
  rw [seqGeq, decide_eq_true_iff, toInt_sub_eq first second]
  omega

theorem eq_of_ahead (same : ahead base x = ahead base y) : x = y := by
  have diff : x - base = y - base := BitVec.eq_of_toNat_eq same
  rw [← BitVec.sub_add_cancel x base, diff, BitVec.sub_add_cancel]

@[simp]
theorem ahead_self (base : BitVec 32) : ahead base base = 0 := by
  rw [ahead, BitVec.sub_self]
  rfl

/-- The distance from a base further ahead. -/
theorem ahead_of_le {next : BitVec 32} (le : ahead base next ≤ ahead base x) :
    ahead next x = ahead base x - ahead base next := by
  have boundX := x.isLt
  have boundNext := next.isLt
  have boundBase := base.isLt
  simp only [ahead, BitVec.toNat_sub] at *
  omega

/-- Distances add up, as long as they do not go around the circle. -/
theorem ahead_trans {middle : BitVec 32} (small : ahead base middle + ahead middle x < 2 ^ 32) :
    ahead base x = ahead base middle + ahead middle x := by
  have boundX := x.isLt
  have boundMiddle := middle.isLt
  have boundBase := base.isLt
  simp only [ahead, BitVec.toNat_sub] at *
  omega

/-! ## Positions of a stream -/

/-- The sequence number of a position, in a stream that starts at `origin`. -/
def point (origin : BitVec 32) (position : Nat) : BitVec 32 := origin + BitVec.ofNat 32 position

variable {origin : BitVec 32} {a b : Nat}

theorem point_add (origin : BitVec 32) (a b : Nat) :
    point origin a + BitVec.ofNat 32 b = point origin (a + b) := by
  rw [point, point, BitVec.add_assoc, ← BitVec.ofNat_add]

/-- The signed difference of two positions that are near each other. -/
theorem toInt_point_sub (left : a < b + 2 ^ 31) (right : b < a + 2 ^ 31) :
    (point origin a - point origin b).toInt = (a : Int) - b := by
  have bound := origin.isLt
  rw [BitVec.toInt_eq_toNat_cond]
  simp only [point, BitVec.toNat_sub, BitVec.toNat_add, BitVec.toNat_ofNat]
  split
  · omega
  · omega

theorem seqGt_point (left : a < b + 2 ^ 31) (right : b < a + 2 ^ 31) :
    seqGt (point origin a) (point origin b) = true ↔ b < a := by
  rw [seqGt, decide_eq_true_iff, toInt_point_sub left right]
  omega

theorem seqLt_point (left : a < b + 2 ^ 31) (right : b < a + 2 ^ 31) :
    seqLt (point origin a) (point origin b) = true ↔ a < b := by
  rw [seqLt, decide_eq_true_iff, toInt_point_sub left right]
  omega

theorem seqLeq_point (left : a < b + 2 ^ 31) (right : b < a + 2 ^ 31) :
    seqLeq (point origin a) (point origin b) = true ↔ a ≤ b := by
  rw [seqLeq, decide_eq_true_iff, toInt_point_sub left right]
  omega

theorem seqGeq_point (left : a < b + 2 ^ 31) (right : b < a + 2 ^ 31) :
    seqGeq (point origin a) (point origin b) = true ↔ b ≤ a := by
  rw [seqGeq, decide_eq_true_iff, toInt_point_sub left right]
  omega

theorem point_inj (left : a < b + 2 ^ 31) (right : b < a + 2 ^ 31) : point origin a = point origin b ↔ a = b := by
  constructor
  · intro same
    have diff := @toInt_point_sub origin a b left right
    rw [same, BitVec.sub_self, BitVec.toInt_zero] at diff
    omega
  · intro same
    rw [same]

end Dragonfly.Lib.Seq
