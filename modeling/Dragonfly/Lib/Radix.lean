import Mathlib.Algebra.Order.Ring.Int
import Mathlib.Data.Nat.Basic

/-!
# Radix trees of blocks

A leaf covers 32 blocks and a node above 16 nodes of the level below.
-/

namespace Dragonfly.Lib.Radix

/-- The number of blocks that a node of a level covers. -/
def radix (level : Nat) : Nat := 32 * 16 ^ level

variable {level : Nat}

theorem radix_pos (level : Nat) : 0 < radix level := by
  have power : 0 < 16 ^ level := Nat.pow_pos (by decide)
  unfold radix
  omega

theorem radix_succ (level : Nat) : radix (level + 1) = 16 * radix level := by
  rw [radix, radix, Nat.pow_succ]
  omega

theorem leaf_le_radix (level : Nat) : 32 ≤ radix level := by
  have power : 0 < 16 ^ level := Nat.pow_pos (by decide)
  unfold radix
  omega

theorem radix_eq_two_pow (level : Nat) : radix level = 2 ^ (5 + 4 * level) := by
  rw [radix, Nat.pow_add, Nat.pow_mul]

theorem radix_dvd {lower upper : Nat} (le : lower ≤ upper) : radix lower ∣ radix upper := by
  rw [radix_eq_two_pow, radix_eq_two_pow]
  exact Nat.pow_dvd_pow 2 (by omega)

/-- A power of two that is at most the radix of a node divides it. -/
theorem power_dvd_radix {k : Nat} (small : 2 ^ k ≤ radix level) : 2 ^ k ∣ radix level := by
  rw [radix_eq_two_pow] at small ⊢
  exact Nat.pow_dvd_pow 2 ((Nat.pow_le_pow_iff_right (by decide)).mp small)

theorem radix_dvd_power {k : Nat} (large : radix level ≤ 2 ^ k) : radix level ∣ 2 ^ k := by
  rw [radix_eq_two_pow] at large ⊢
  exact Nat.pow_dvd_pow 2 ((Nat.pow_le_pow_iff_right (by decide)).mp large)

/-- A block of a tree of a meta node, as a block of a node below. -/
theorem split_block {block : Nat} (small : block < radix (level + 1)) :
    ∃ i < 16, ∃ offset < radix level, block = i * radix level + offset := by
  refine ⟨block / radix level, ?_, block % radix level, Nat.mod_lt _ (radix_pos level), ?_⟩
  · rw [Nat.div_lt_iff_lt_mul (radix_pos level), ← radix_succ]
    exact small
  · rw [Nat.mul_comm, Nat.div_add_mod]

theorem block_lt {i offset : Nat} (inside : i < 16) (small : offset < radix level) :
    i * radix level + offset < radix (level + 1) := by
  rw [radix_succ]
  have := Nat.mul_le_mul_right (radix level) (Nat.succ_le_of_lt inside)
  rw [Nat.succ_mul] at this
  omega

/-- A power of two between the radix of a node and the one above is a group of nodes. -/
theorem power_group {k : Nat} (large : radix level ≤ 2 ^ k) (small : 2 ^ k < radix (level + 1)) :
    2 ^ k = 2 ^ k / radix level * radix level ∧ 2 ^ k / radix level ∣ 16 ∧ 0 < 2 ^ k / radix level := by
  rw [radix_eq_two_pow] at large small ⊢
  have atLeast := (Nat.pow_le_pow_iff_right (by decide)).mp large
  have less := (Nat.pow_lt_pow_iff_right (by decide)).mp small
  have quotient : 2 ^ k / 2 ^ (5 + 4 * level) = 2 ^ (k - (5 + 4 * level)) :=
    Nat.pow_div atLeast (by decide)
  rw [quotient]
  refine ⟨?_, ?_, Nat.two_pow_pos _⟩
  · rw [← Nat.pow_add, Nat.sub_add_cancel atLeast]
  · exact Nat.pow_dvd_pow 2 (show k - (5 + 4 * level) ≤ 4 by omega)

/-! ## The level of the root -/

/-- The loop that finds the level of the root, for at most `2 ^ 29` blocks. -/
def levelLoop (blocks : Nat) : Nat → Nat → Nat
  | 0, level => level
  | fuel + 1, level => if radix level < blocks then levelLoop blocks fuel (level + 1) else level

def levelOf (blocks : Nat) : Nat := levelLoop blocks 6 0

theorem levelLoop_spec {blocks fuel level : Nat} (sum : level + fuel = 6) (small : blocks ≤ radix 6) :
    blocks ≤ radix (levelLoop blocks fuel level) ∧ levelLoop blocks fuel level ≤ 6 := by
  induction fuel generalizing level with
  | zero =>
      obtain rfl : level = 6 := by omega
      exact ⟨small, le_refl 6⟩
  | succ fuel ih =>
      rw [levelLoop]
      split
      · exact ih (by omega)
      · exact ⟨by omega, by omega⟩

/-- The level is large enough and not too large. -/
theorem levelOf_spec {blocks : Nat} (small : blocks ≤ 2 ^ 29) :
    blocks ≤ radix (levelOf blocks) ∧ radix (levelOf blocks) ≤ 2 ^ 29 := by
  obtain ⟨enough, atMost⟩ := levelLoop_spec (Nat.zero_add 6) small
  have power : 16 ^ levelOf blocks ≤ 16 ^ 6 := Nat.pow_le_pow_right (by decide) atMost
  refine ⟨enough, ?_⟩
  rw [radix]
  omega

/-! ## Ranges over several nodes -/

/-- Where the loop over the nodes below stands: the rest of the range starts in the node
with number `i`, or nothing is left. -/
def Stands (level i lo count : Nat) : Prop :=
  (count = 0 ∧ lo ≤ i * radix level) ∨
    (0 < count ∧ i * radix level ≤ lo ∧ lo < (i + 1) * radix level)

/-- The loop after the node with number `i`. -/
theorem Stands.next {i lo count v : Nat} (stands : Stands level i lo count) (some : 0 < count)
    (is : v = min ((i + 1) * radix level - lo) count) :
    v ≤ count ∧ 0 < v ∧ lo - i * radix level + v ≤ radix level ∧
      Stands level (i + 1) (lo + v) (count - v) := by
  have positive := radix_pos level
  have following : (i + 1 + 1) * radix level = (i + 1) * radix level + radix level := Nat.succ_mul ..
  have this : (i + 1) * radix level = i * radix level + radix level := Nat.succ_mul ..
  unfold Stands at stands ⊢
  omega

end Dragonfly.Lib.Radix
