import Dragonfly.Kern.Alist.Sound
import Dragonfly.Kern.Layout
import Mathlib.Order.Bounds.Defs

/-!
# Sizing

The loop that finds the radix of an allocator multiplies by 16 in 32 bits.  After `2 ^ 29`
comes zero, so that the loop ends for at most `2 ^ 29` blocks only.
-/

namespace Dragonfly.Kern.Alist

open Dragonfly.Lib Dragonfly.Lib.Radix
open Dragonfly.Kern.Layout (skip)

/-- The loop of `alist_create` and `alist_init`, with `radix` and `skip` -/
def radixLoop (blocks : Nat) : Nat → Nat → Nat → Outcome (Nat × Nat)
  | 0, _, _ => .more
  | fuel + 1, radix, skip =>
      if radix < blocks then
        radixLoop blocks fuel (radix * 16 % 2 ^ 32) ((skip + 1) * 16 % 2 ^ 32)
      else .done (radix, skip)

/-- The loop ends with a radix that covers the blocks. -/
def Sized (blocks : Nat) : Prop :=
  ∃ fuel radix skip, radixLoop blocks fuel 32 0 = .done (radix, skip) ∧ blocks ≤ radix

/-- The loop of `alist_alloc` ends with the smallest power of two that is at least the
count. -/
def Rounded (count : Nat) : Prop :=
  ∃ fuel power, roundLoop count fuel (if count < 256 then 1 else 256) = .done power ∧
    IsLeast {power | ∃ k, power = 2 ^ k ∧ count ≤ power} power

variable {blocks level fuel count : Nat}

/-! ## The radix -/

theorem skip_le_radix (level : Nat) : skip level + 2 ≤ radix level := by
  induction level with
  | zero => decide
  | succ level ih =>
      rw [skip, radix_succ]
      omega

theorem radix_le_six (small : level ≤ 6) : radix level ≤ 2 ^ 29 :=
  Nat.le_of_dvd (by decide) (radix_dvd small)

/-- The loop goes up to the level of the root. -/
theorem radixLoop_level (small : blocks ≤ radix 6) (sum : level + fuel = 6) :
    radixLoop blocks (fuel + 1) (radix level) (skip level) =
      .done (radix (levelLoop blocks fuel level), skip (levelLoop blocks fuel level)) := by
  induction fuel generalizing level with
  | zero =>
      obtain rfl : level = 6 := sum
      rw [radixLoop, if_neg (Nat.not_lt.mpr small), levelLoop]
  | succ fuel ih =>
      rw [radixLoop, levelLoop]
      split
      · have bounded := radix_le_six (show level + 1 ≤ 6 by omega)
        have less := skip_le_radix (level + 1)
        have nextRadix : radix level * 16 % 2 ^ 32 = radix (level + 1) := by
          rw [Nat.mul_comm, ← radix_succ]
          exact Nat.mod_eq_of_lt (by omega)
        have nextSkip : (skip level + 1) * 16 % 2 ^ 32 = skip (level + 1) :=
          Nat.mod_eq_of_lt (show skip (level + 1) < 2 ^ 32 by omega)
        rw [nextRadix, nextSkip]
        exact ih (by omega)
      · rfl

/-- Above `2 ^ 29` blocks the radix becomes zero, and the loop never ends. -/
theorem radixLoop_endless (large : 2 ^ 29 < blocks) (fuel : Nat) {value rest : Nat}
    (is : value = 0 ∨ ∃ level ≤ 6, value = radix level) : radixLoop blocks fuel value rest = .more := by
  induction fuel generalizing value rest with
  | zero => rfl
  | succ fuel ih =>
      rw [radixLoop]
      obtain rfl | ⟨level, small, rfl⟩ := is
      · rw [if_pos (by omega)]
        exact ih (.inl rfl)
      · have bounded := radix_le_six small
        rw [if_pos (by omega)]
        apply ih
        by_cases last : level = 6
        · subst last
          exact .inl rfl
        · have next := radix_le_six (show level + 1 ≤ 6 by omega)
          refine .inr ⟨level + 1, by omega, ?_⟩
          rw [Nat.mul_comm, ← radix_succ]
          exact Nat.mod_eq_of_lt (by omega)

theorem sized_iff : Sized blocks ↔ blocks ≤ 2 ^ 29 := by
  constructor
  · rintro ⟨fuel, value, rest, done, -⟩
    by_contra large
    have endless : radixLoop blocks fuel 32 0 = .more :=
      radixLoop_endless (Nat.lt_of_not_le large) fuel (.inr ⟨0, by decide, rfl⟩)
    rw [endless] at done
    cases done
  · intro small
    have ends : radixLoop blocks 7 32 0 = .done (radix (levelOf blocks), skip (levelOf blocks)) :=
      @radixLoop_level blocks 0 6 small rfl
    exact ⟨7, _, _, ends, (levelOf_spec small).1⟩

/-! ## The count -/

/-- Up to `2 ^ 31` the count is rounded up. -/
theorem rounded_of_le (positive : 0 < count) (small : count ≤ 2 ^ 31) : Rounded count := by
  obtain ⟨j, first, below⟩ : ∃ j, (if count < 256 then 1 else 256) = 2 ^ j ∧ 2 ^ j < 2 * count := by
    split
    · exact ⟨0, rfl, by omega⟩
    · exact ⟨8, rfl, by omega⟩
  obtain ⟨-, short⟩ | ⟨power, done, rounds⟩ := @roundLoop_spec count small 32 j below
  · omega
  · refine ⟨32, power, ?_, ?_, ?_⟩
    · rw [first, done]
    · obtain ⟨k, is, enough, -⟩ := rounds
      exact ⟨k, is, enough⟩
    · rintro other ⟨k, is, enough⟩
      exact rounds.least is enough

/-- For every number of blocks and every count up to `2 ^ 31`: the radix is found exactly
for at most `2 ^ 29` blocks; the count is always rounded. -/
theorem sizes_are_found (blocks count : Nat) (positive : 0 < count) (small : count ≤ 2 ^ 31) :
    Sized blocks ∧ Rounded count ↔ blocks ≤ 2 ^ 29 := by
  rw [sized_iff]
  exact and_iff_left (rounded_of_le positive small)

theorem sizes_are_found_three : Sized 5000 ∧ Rounded 3 :=
  (sizes_are_found 5000 3 (by decide) (by decide)).mpr (by decide)

/-- The loop hangs for one block above `2 ^ 29`. -/
theorem sizing_hangs : ¬∀ blocks, 0 < blocks → blocks ≤ 2 ^ 31 → Sized blocks :=
  fun all => absurd ((sized_iff).mp (all (2 ^ 29 + 1) (by decide) (by decide))) (by decide)

end Dragonfly.Kern.Alist
