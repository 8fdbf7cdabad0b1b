import Mathlib.Data.Nat.Bitwise
import Mathlib.Logic.Function.Basic

/-!
# Sets of numbers in an array of words

Number `n` is bit `n % 32` of word `n / 32`.  The greatest member above word zero is found by
a scan over the words from above.
-/

namespace Dragonfly.Lib.Words

/-- An array of words of 32 bits. -/
abbrev WordArray := Nat → BitVec 32

/-- The number is a member. -/
def bit (words : WordArray) (n : Nat) : Bool := (words (n / 32)).getLsbD (n % 32)

/-- The set with one more member. -/
def setBit (words : WordArray) (n : Nat) : WordArray :=
  Function.update words (n / 32) (words (n / 32) ||| BitVec.twoPow 32 (n % 32))

/-- The set with one member less. -/
def clearBit (words : WordArray) (n : Nat) : WordArray :=
  Function.update words (n / 32) (words (n / 32) &&& ~~~BitVec.twoPow 32 (n % 32))

/-- The position of the highest bit, counted from one, or zero if there is none. -/
def fls (word : BitVec 32) : Nat := if word = 0 then 0 else word.toNat.log2 + 1

/-- The highest member in the words from `i` down to word one. -/
def highest (words : WordArray) : Nat → Option Nat
  | 0 => none
  | i + 1 => if fls (words (i + 1)) = 0 then highest words i
      else some ((i + 1) * 32 + (fls (words (i + 1)) - 1))

variable {words : WordArray} {n m i : Nat}

theorem getLsbD_twoPow {k : Nat} (small : k < 32) (j : Nat) :
    (BitVec.twoPow 32 k).getLsbD j = decide (j = k) := by
  rw [BitVec.getLsbD_twoPow]
  by_cases same : k = j
  · subst same
    simp [small]
  · have other : ¬j = k := fun eq => same eq.symm
    simp [same, other]

/-- Two numbers with the same place are equal. -/
theorem eq_of_place (word : n / 32 = m / 32) (offset : n % 32 = m % 32) : n = m := by
  omega

@[simp]
theorem bit_setBit (words : WordArray) (n m : Nat) : bit (setBit words n) m = (bit words m || decide (m = n)) := by
  unfold bit setBit
  by_cases word : m / 32 = n / 32
  · rw [word, Function.update_self, BitVec.getLsbD_or, getLsbD_twoPow (Nat.mod_lt n (by decide))]
    have same : (m % 32 = n % 32) = (m = n) :=
      propext ⟨eq_of_place word, fun eq => congrArg (· % 32) eq⟩
    rw [decide_eq_decide.mpr (iff_of_eq same)]
  · have other : ¬m = n := fun eq => word (congrArg (· / 32) eq)
    rw [Function.update_of_ne word, decide_eq_false other, Bool.or_false]

@[simp]
theorem bit_clearBit (words : WordArray) (n m : Nat) :
    bit (clearBit words n) m = (bit words m && !decide (m = n)) := by
  unfold bit clearBit
  by_cases word : m / 32 = n / 32
  · have offset := Nat.mod_lt m (show 0 < 32 by decide)
    rw [word, Function.update_self, BitVec.getLsbD_and, BitVec.getLsbD_not,
      getLsbD_twoPow (Nat.mod_lt n (by decide)), decide_eq_true offset, Bool.true_and]
    have same : (m % 32 = n % 32) = (m = n) :=
      propext ⟨eq_of_place word, fun eq => congrArg (· % 32) eq⟩
    rw [decide_eq_decide.mpr (iff_of_eq same)]
  · have other : ¬m = n := fun eq => word (congrArg (· / 32) eq)
    rw [Function.update_of_ne word, decide_eq_false other, Bool.not_false, Bool.and_true]

@[simp]
theorem bit_zero (n : Nat) : bit (fun _ => 0) n = false := BitVec.getLsbD_zero

/-! ## The highest member -/

theorem fls_eq_zero_iff (word : BitVec 32) : fls word = 0 ↔ word = 0 := by
  unfold fls
  split
  · rename_i zero
    exact iff_of_true rfl zero
  · rename_i nonzero
    exact iff_of_false (Nat.succ_ne_zero _) nonzero

/-- The highest bit of a word is set, and no bit above it. -/
theorem fls_spec {word : BitVec 32} (nonzero : fls word ≠ 0) :
    word.getLsbD (fls word - 1) = true ∧ fls word ≤ 32 ∧ ∀ j, fls word ≤ j → word.getLsbD j = false := by
  have some : word ≠ 0 := fun zero => nonzero ((fls_eq_zero_iff word).mpr zero)
  have positive : word.toNat ≠ 0 := fun zero => some (BitVec.eq_of_toNat_eq zero)
  have is : fls word = word.toNat.log2 + 1 := if_neg some
  have above : word.toNat < 2 ^ (word.toNat.log2 + 1) := Nat.lt_log2_self
  refine ⟨?_, ?_, fun j large => ?_⟩
  · rw [is, Nat.add_sub_cancel, BitVec.getLsbD]
    exact Nat.testBit_log2 positive
  · have bound : word.toNat.log2 < 32 := (Nat.log2_lt positive).mpr word.isLt
    omega
  · rw [is] at large
    rw [BitVec.getLsbD]
    exact Nat.testBit_lt_two_pow (Nat.lt_of_lt_of_le above (Nat.pow_le_pow_right (by decide) large))

/-- What a scan from above finds is the greatest member above word zero. -/
theorem highest_eq_some (found : highest words i = some n) :
    32 ≤ n ∧ n < 32 * (i + 1) ∧ bit words n = true ∧
      ∀ m, n < m → m < 32 * (i + 1) → bit words m = false := by
  induction i with
  | zero => cases found
  | succ i ih =>
      rw [highest] at found
      split at found
      · rename_i empty
        have zero := (fls_eq_zero_iff _).mp empty
        obtain ⟨low, high, member, greatest⟩ := ih found
        refine ⟨low, by omega, member, fun m above below => ?_⟩
        by_cases here : m / 32 = i + 1
        · rw [bit, here, zero]
          exact BitVec.getLsbD_zero
        · exact greatest m above (by omega)
      · rename_i nonempty
        obtain ⟨highestBit, bound, none⟩ := fls_spec nonempty
        obtain rfl := Option.some.inj found
        have word : ((i + 1) * 32 + (fls (words (i + 1)) - 1)) / 32 = i + 1 := by omega
        have offset : ((i + 1) * 32 + (fls (words (i + 1)) - 1)) % 32 = fls (words (i + 1)) - 1 := by omega
        refine ⟨by omega, by omega, ?_, fun m above below => ?_⟩
        · rw [bit, word, offset]
          exact highestBit
        · have here : m / 32 = i + 1 := by omega
          rw [bit, here]
          exact none _ (by omega)

/-- A scan that finds nothing has seen no member above word zero. -/
theorem highest_eq_none (nothing : highest words i = none) (low : 32 ≤ n) (high : n < 32 * (i + 1)) :
    bit words n = false := by
  induction i with
  | zero => omega
  | succ i ih =>
      rw [highest] at nothing
      split at nothing
      · rename_i empty
        by_cases here : n / 32 = i + 1
        · rw [bit, here, (fls_eq_zero_iff _).mp empty]
          exact BitVec.getLsbD_zero
        · exact ih nothing (by omega)
      · cases nothing

/-- The greatest member above word zero is what a scan finds. -/
theorem highest_eq_some_iff : highest words i = some n ↔ 32 ≤ n ∧ n < 32 * (i + 1) ∧ bit words n = true ∧
    ∀ m, n < m → m < 32 * (i + 1) → bit words m = false := by
  refine ⟨highest_eq_some, ?_⟩
  rintro ⟨low, high, member, greatest⟩
  cases found : highest words i with
  | none => simp [highest_eq_none found low high] at member
  | some other =>
      obtain ⟨_, high', member', greatest'⟩ := highest_eq_some found
      obtain less | same | more := Nat.lt_trichotomy n other
      · simp [greatest other less high'] at member'
      · rw [same]
      · simp [greatest' n more high] at member

end Dragonfly.Lib.Words
