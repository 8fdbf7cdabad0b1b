import Dragonfly.Lib.Blocks

/-!
# Bitmaps of 32 blocks

A set of at most 32 blocks in a machine word.  Masks of consecutive bits are built with
shifts, and the lowest bit is found by halving.
-/

namespace Dragonfly.Lib.Bitmap

open Dragonfly.Lib

/-- A machine word. -/
abbrev Word := BitVec 32

/-- All bits of a word. -/
def ones : Word := BitVec.allOnes 32

/-- The set of blocks of a bitmap. -/
def blocks (bitmap : Word) : Nat → Bool := bitmap.getLsbD

/-- The `count` bits from `lo` on, as a free operation builds them. -/
def span (lo count : Nat) : Word := ones <<< lo &&& ones >>> (32 - count - lo)

/-- The loop that finds the lowest bit of a word that is not zero: `mask` is the lower
half of the `2 * j` bits under inspection. -/
def lowestLoop : Nat → Nat → Word → Word → Nat → Nat
  | 0, _, _, _, r => r
  | fuel + 1, j, mask, orig, r =>
      if j = 0 then r
      else if orig &&& mask = 0 then
        lowestLoop fuel (j / 2) (mask >>> (j / 2)) (orig >>> j) (r + j)
      else lowestLoop fuel (j / 2) (mask >>> (j / 2)) orig r

/-- The lowest bit of a word that is not zero. -/
def lowest (orig : Word) : Nat := lowestLoop 6 16 (ones >>> 16) orig 0

/-- The loop that looks for a run of bits: `mask` is the run at bit `j`, which goes up by
`step` to `n` at most. -/
def runLoop (orig : Word) (n step : Nat) : Nat → Nat → Word → Option (Nat × Word)
  | 0, _, _ => none
  | fuel + 1, j, mask =>
      if j ≤ n then
        if orig &&& mask = mask then some (j, mask)
        else runLoop orig n step fuel (j + step) (mask <<< step)
      else none

/-- The first run of `count` bits at a multiple of `step`, with its mask. -/
def findRun (orig : Word) (count step : Nat) : Option (Nat × Word) :=
  runLoop orig (32 - count) step 33 0 (ones >>> (32 - count))

variable {bitmap mask : Word} {lo count bit : Nat}

theorem blocks_eq_false (large : 32 ≤ bit) : blocks bitmap bit = false :=
  BitVec.getLsbD_of_ge bitmap bit large

theorem eq_of_blocks {first second : Word} (same : blocks first = blocks second) : first = second :=
  BitVec.eq_of_getLsbD_eq fun bit _ => congrFun same bit

/-! ## Bits of the operations -/

@[simp]
theorem blocks_zero (bit : Nat) : blocks 0 bit = false := BitVec.getLsbD_zero

@[simp]
theorem blocks_ones (bit : Nat) : blocks ones bit = decide (bit < 32) := BitVec.getLsbD_allOnes

@[simp]
theorem blocks_and (first second : Word) (bit : Nat) :
    blocks (first &&& second) bit = (blocks first bit && blocks second bit) := BitVec.getLsbD_and

@[simp]
theorem blocks_not (word : Word) (bit : Nat) :
    blocks (~~~word) bit = (decide (bit < 32) && !blocks word bit) := BitVec.getLsbD_not

@[simp]
theorem blocks_shiftRight (word : Word) (n bit : Nat) :
    blocks (word >>> n) bit = blocks word (n + bit) := BitVec.getLsbD_ushiftRight ..

@[simp]
theorem blocks_shiftLeft (word : Word) (n bit : Nat) :
    blocks (word <<< n) bit = (decide (bit < 32) && !decide (bit < n) && blocks word (bit - n)) :=
  BitVec.getLsbD_shiftLeft ..

theorem and_eq_zero_iff :
    bitmap &&& mask = 0 ↔ ∀ bit, blocks mask bit = true → blocks bitmap bit = false := by
  constructor
  · intro zero bit member
    have atBit := congrArg (fun word => blocks word bit) zero
    simpa only [blocks_and, blocks_zero, member, Bool.and_true] using atBit
  · intro apart
    apply eq_of_blocks
    funext bit
    rw [blocks_and, blocks_zero]
    cases member : blocks mask bit with
    | true => rw [apart bit member, Bool.false_and]
    | false => exact Bool.and_false _

theorem and_eq_mask_iff :
    bitmap &&& mask = mask ↔ ∀ bit, blocks mask bit = true → blocks bitmap bit = true := by
  constructor
  · intro same bit member
    have atBit := congrArg (fun word => blocks word bit) same
    simpa [member] using atBit
  · intro inside
    apply eq_of_blocks
    funext bit
    rw [blocks_and]
    cases member : blocks mask bit with
    | true => rw [inside bit member, Bool.true_and]
    | false => exact Bool.and_false _

theorem eq_zero_iff : bitmap = 0 ↔ ∀ bit < 32, blocks bitmap bit = false := by
  constructor
  · rintro rfl bit _
    exact blocks_zero bit
  · intro none
    apply eq_of_blocks
    funext bit
    by_cases small : bit < 32
    · rw [none bit small, blocks_zero]
    · rw [blocks_eq_false (by omega), blocks_zero]

theorem eq_ones_iff : bitmap = ones ↔ ∀ bit < 32, blocks bitmap bit = true := by
  constructor
  · rintro rfl bit small
    simpa using small
  · intro all
    apply eq_of_blocks
    funext bit
    by_cases small : bit < 32
    · rw [all bit small, blocks_ones, decide_eq_true small]
    · rw [blocks_eq_false (by omega), blocks_ones, decide_eq_false small]

/-! ## Masks -/

/-- A mask shifted to its place. -/
theorem blocks_mask (fits : lo + count ≤ 32) :
    blocks (ones >>> (32 - count) <<< lo) = Blocks.within lo count := by
  funext bit
  rw [Bool.eq_iff_iff, Blocks.within_iff]
  simp only [blocks_shiftLeft, blocks_shiftRight, blocks_ones, Bool.and_eq_true, decide_eq_true_eq,
    Bool.not_eq_true', decide_eq_false_iff_not]
  omega

theorem blocks_span (fits : lo + count ≤ 32) : blocks (span lo count) = Blocks.within lo count := by
  funext bit
  rw [Bool.eq_iff_iff, Blocks.within_iff, span]
  simp only [blocks_and, blocks_shiftLeft, blocks_shiftRight, blocks_ones, Bool.and_eq_true,
    decide_eq_true_eq, Bool.not_eq_true', decide_eq_false_iff_not]
  omega

/-- A single bit. -/
theorem blocks_bit (small : bit < 32) : blocks (1#32 <<< bit) = Blocks.within bit 1 := by
  have one : (1#32 : Word) = ones >>> (32 - 1) := by decide
  rw [one]
  exact blocks_mask (by omega)

/-- The test of a single bit. -/
theorem bit_ne_zero_iff (small : bit < 32) :
    bitmap &&& 1#32 <<< bit ≠ 0 ↔ blocks bitmap bit = true := by
  rw [Ne, and_eq_zero_iff, blocks_bit small, not_forall]
  constructor
  · rintro ⟨other, both⟩
    rw [Blocks.within_iff, Classical.not_imp, Bool.not_eq_false] at both
    obtain ⟨inside, set⟩ := both
    obtain rfl : other = bit := by omega
    exact set
  · intro set
    refine ⟨bit, ?_⟩
    rw [Blocks.within_iff, set]
    simp

theorem blocks_and_not (same : blocks mask = Blocks.within lo count) :
    blocks (bitmap &&& ~~~mask) = Blocks.without (blocks bitmap) lo count := by
  funext bit
  rw [Blocks.without, ← same, blocks_and, blocks_not]
  by_cases small : bit < 32
  · rw [decide_eq_true small, Bool.true_and]
  · rw [blocks_eq_false (by omega), Bool.false_and, Bool.false_and]

theorem blocks_or (same : blocks mask = Blocks.within lo count) :
    blocks (bitmap ||| mask) = Blocks.adding (blocks bitmap) lo count := by
  funext bit
  rw [Blocks.adding, ← same]
  exact BitVec.getLsbD_or

/-- The bits from a given one on. -/
theorem blocks_from (small : lo < 32) (bit : Nat) :
    blocks (bitmap &&& ~~~(1#32 <<< lo - 1#32)) bit = (blocks bitmap bit && decide (lo ≤ bit)) := by
  have low : ∀ bit, blocks (1#32 <<< lo - 1#32) bit = decide (bit < lo) := by
    intro bit
    have power : 2 ^ lo < 2 ^ 32 := Nat.pow_lt_pow_right (by omega) small
    have positive : 0 < 2 ^ lo := Nat.two_pow_pos lo
    have toNat : (1#32 <<< lo - 1#32).toNat = 2 ^ lo - 1 := by
      rw [BitVec.toNat_sub, BitVec.toNat_shiftLeft, Nat.shiftLeft_eq]
      simp only [BitVec.toNat_ofNat]
      omega
    rw [blocks, BitVec.getLsbD, toNat, Nat.testBit_two_pow_sub_one]
  rw [blocks_and, blocks_not, low]
  by_cases inside : bit < 32
  · rw [decide_eq_true inside, Bool.true_and]
    congr 1
    rw [← decide_not]
    exact decide_eq_decide.mpr (by omega)
  · rw [blocks_eq_false (by omega), Bool.false_and, Bool.false_and]

/-! ## The lowest bit -/

/-- The lower part of a word is empty. -/
theorem and_low_eq_zero_iff (small : count ≤ 32) :
    bitmap &&& ones >>> (32 - count) = 0 ↔ ∀ bit < count, blocks bitmap bit = false := by
  rw [and_eq_zero_iff]
  refine forall_congr' fun bit => imp_congr_left ?_
  simp only [blocks_shiftRight, blocks_ones, decide_eq_true_eq]
  omega

/-- The search halves the range in which the lowest bit lies: `orig` is the word from
bit `r` on, there is nothing below, and something in the next `2 ^ (k + 1)` bits. -/
theorem lowestLoop_spec (k : Nat) (small : k ≤ 4) {orig : Word} {r : Nat}
    (below : ∀ bit < r, blocks bitmap bit = false)
    (shifted : ∀ bit, blocks orig bit = blocks bitmap (r + bit))
    (member : ∃ bit < 2 * 2 ^ k, blocks orig bit = true) :
    blocks bitmap (lowestLoop (k + 2) (2 ^ k) (ones >>> (32 - 2 ^ k)) orig r) = true ∧
      ∀ bit < lowestLoop (k + 2) (2 ^ k) (ones >>> (32 - 2 ^ k)) orig r,
        blocks bitmap bit = false := by
  have positive : 0 < 2 ^ k := Nat.two_pow_pos k
  have bounded : 2 ^ k ≤ 2 ^ 4 := Nat.pow_le_pow_right (by omega) small
  -- either way the next range starts at `s` and has `2 ^ k` bits
  have next : ∀ {orig : Word} {s : Nat}, (∀ bit < s, blocks bitmap bit = false) →
      (∀ bit, blocks orig bit = blocks bitmap (s + bit)) → (∃ bit < 2 ^ k, blocks orig bit = true) →
      blocks bitmap (lowestLoop (k + 1) (2 ^ k / 2) (ones >>> (32 - 2 ^ k) >>> (2 ^ k / 2)) orig s)
          = true ∧
        ∀ bit < lowestLoop (k + 1) (2 ^ k / 2) (ones >>> (32 - 2 ^ k) >>> (2 ^ k / 2)) orig s,
          blocks bitmap bit = false := by
    intro orig s belowS shiftedS memberS
    cases k with
    | zero =>
        obtain ⟨bit, isZero, set⟩ := memberS
        obtain rfl : bit = 0 := by omega
        exact ⟨by simpa [lowestLoop] using (shiftedS 0).symm.trans set, by simpa [lowestLoop] using belowS⟩
    | succ k =>
        have half : 2 ^ (k + 1) / 2 = 2 ^ k := by omega
        have maskHalf : ones >>> (32 - 2 ^ (k + 1)) >>> (2 ^ (k + 1) / 2) = ones >>> (32 - 2 ^ k) := by
          rw [half, ← BitVec.shiftRight_add]
          congr 1
          omega
        rw [maskHalf, half]
        refine lowestLoop_spec k (by omega) belowS shiftedS ?_
        rwa [← Nat.pow_succ']
  rw [lowestLoop, if_neg (by omega)]
  split
  · rename_i zero
    rw [and_low_eq_zero_iff (by omega)] at zero
    refine next ?_ ?_ ?_
    · intro bit less
      by_cases early : bit < r
      · exact below bit early
      · have := zero (bit - r) (by omega)
        rwa [shifted, Nat.add_sub_cancel' (by omega)] at this
    · intro bit
      rw [blocks_shiftRight, shifted, Nat.add_assoc]
    · obtain ⟨bit, small, set⟩ := member
      by_cases low : bit < 2 ^ k
      · rw [zero bit low] at set
        cases set
      · refine ⟨bit - 2 ^ k, by omega, ?_⟩
        rwa [blocks_shiftRight, Nat.add_sub_cancel' (by omega)]
  · rename_i nonzero
    rw [and_low_eq_zero_iff (by omega)] at nonzero
    push Not at nonzero
    obtain ⟨bit, small, set⟩ := nonzero
    exact next below shifted ⟨bit, small, by simpa using set⟩

/-- The search finds the lowest bit. -/
theorem lowest_spec (nonzero : bitmap ≠ 0) :
    blocks bitmap (lowest bitmap) = true ∧ ∀ bit < lowest bitmap, blocks bitmap bit = false := by
  rw [ne_eq, eq_zero_iff] at nonzero
  push Not at nonzero
  obtain ⟨bit, small, set⟩ := nonzero
  refine lowestLoop_spec 4 le_rfl (by simp) (fun bit => by rw [Nat.zero_add]) ?_
  exact ⟨bit, by omega, by simpa using set⟩

/-- The word minus one has the lowest bit cleared and all bits below set. -/
theorem blocks_clear_lowest (nonzero : bitmap ≠ 0) :
    blocks (bitmap &&& (bitmap - 1#32)) = Blocks.without (blocks bitmap) (lowest bitmap) 1 := by
  obtain ⟨set, below⟩ := lowest_spec nonzero
  generalize lowest bitmap = p at *
  have bits : ∀ bit, blocks bitmap bit = bitmap.toNat.testBit bit := fun _ => rfl
  have low : bitmap.toNat % 2 ^ (p + 1) = 2 ^ p := by
    apply Nat.eq_of_testBit_eq
    intro bit
    rw [Nat.testBit_mod_two_pow, Nat.testBit_two_pow, ← bits]
    rcases Nat.lt_trichotomy bit p with less | rfl | more
    · rw [below bit less, Bool.and_false, decide_eq_false (by omega)]
    · rw [set, decide_eq_true (by omega), decide_eq_true rfl]
      rfl
    · rw [decide_eq_false (by omega), decide_eq_false (by omega), Bool.false_and]
  have positive : 0 < 2 ^ p := Nat.two_pow_pos p
  have split := Nat.div_add_mod bitmap.toNat (2 ^ (p + 1))
  rw [low] at split
  have power : 2 ^ (p + 1) = 2 * 2 ^ p := Nat.pow_succ'
  have minus : (bitmap - 1#32).toNat = 2 ^ (p + 1) * (bitmap.toNat / 2 ^ (p + 1)) + (2 ^ p - 1) := by
    rw [BitVec.toNat_sub_of_le]
    · simp only [BitVec.toNat_ofNat]
      omega
    · rw [BitVec.le_def]
      simp only [BitVec.toNat_ofNat]
      omega
  funext bit
  have lower : blocks (bitmap - 1#32) bit =
      if bit < p + 1 then decide (bit < p) else (bitmap.toNat / 2 ^ (p + 1)).testBit (bit - (p + 1)) := by
    show (bitmap - 1#32).toNat.testBit bit = _
    rw [minus, Nat.testBit_two_pow_mul_add _ (by omega), Nat.testBit_two_pow_sub_one]
  rw [blocks_and, lower, Blocks.without]
  rcases Nat.lt_trichotomy bit p with less | rfl | more
  · rw [below bit less, Bool.false_and, Bool.false_and]
  · rw [if_pos (by omega), decide_eq_false (by omega), Bool.and_false,
      Blocks.within_iff.mpr (by omega), Bool.not_true, Bool.and_false]
  · rw [if_neg (by omega), Blocks.within_eq_false_iff.mpr (by omega), Bool.not_false, Bool.and_true,
      Nat.testBit_div_two_pow, Nat.sub_add_cancel (by omega), ← bits, Bool.and_self]

/-! ## Runs -/

/-- The loop finds the first run from `j` on, or there is none. -/
theorem runLoop_spec {orig : Word} {step fuel j : Nat} (small : count ≤ 32) (positive : 0 < step)
    (enough : 32 < fuel + j) :
    (∀ found mask, runLoop orig (32 - count) step fuel j (ones >>> (32 - count) <<< j) =
        some (found, mask) →
      found + count ≤ 32 ∧ (∃ k, found = j + k * step) ∧ blocks mask = Blocks.within found count ∧
        ∀ bit, Blocks.within found count bit = true → blocks orig bit = true) ∧
    (runLoop orig (32 - count) step fuel j (ones >>> (32 - count) <<< j) = none →
      ∀ k, j + k * step + count ≤ 32 →
        ∃ bit, Blocks.within (j + k * step) count bit = true ∧ blocks orig bit = false) := by
  induction fuel generalizing j with
  | zero =>
      refine ⟨by simp [runLoop], ?_⟩
      intro _ k fits
      omega
  | succ fuel ih =>
      rw [runLoop]
      split
      · rename_i inside
        have fits : j + count ≤ 32 := by omega
        have isMask := blocks_mask fits
        split
        · rename_i all
          rw [and_eq_mask_iff, isMask] at all
          refine ⟨?_, by simp⟩
          rintro found mask ⟨⟩
          exact ⟨fits, ⟨0, by omega⟩, isMask, all⟩
        · rename_i some
          rw [and_eq_mask_iff, isMask] at some
          rw [← BitVec.shiftLeft_add]
          obtain ⟨found, missing⟩ := ih (j := j + step) (by omega)
          refine ⟨?_, ?_⟩
          · intro place mask is
            obtain ⟨placeFits, ⟨k, at_⟩, rest⟩ := found place mask is
            exact ⟨placeFits, ⟨k + 1, by rw [at_, Nat.succ_mul]; omega⟩, rest⟩
          · intro is k kFits
            cases k with
            | zero =>
                push Not at some
                obtain ⟨bit, member, unset⟩ := some
                exact ⟨bit, by simpa using member, by simpa using unset⟩
            | succ k =>
                have shift : j + (k + 1) * step = j + step + k * step := by
                  rw [Nat.succ_mul]
                  omega
                rw [shift] at kFits ⊢
                exact missing is k kFits
      · refine ⟨by simp, ?_⟩
        intro _ k fits
        omega

/-- A run that is found. -/
theorem findRun_eq_some {orig : Word} {step found : Nat} (small : count ≤ 32) (positive : 0 < step)
    (is : findRun orig count step = some (found, mask)) :
    found + count ≤ 32 ∧ step ∣ found ∧ blocks mask = Blocks.within found count ∧
      ∀ bit, Blocks.within found count bit = true → blocks orig bit = true := by
  have start : ones >>> (32 - count) = ones >>> (32 - count) <<< 0 := by simp
  rw [findRun, start] at is
  obtain ⟨fits, ⟨k, at_⟩, rest⟩ := (runLoop_spec small positive (by omega)).1 found mask is
  refine ⟨fits, ?_, rest⟩
  rw [at_, Nat.zero_add]
  exact Nat.dvd_mul_left step k

/-- No run at all. -/
theorem findRun_eq_none {orig : Word} {step : Nat} (small : count ≤ 32) (positive : 0 < step)
    (is : findRun orig count step = none) : ∀ at_, step ∣ at_ → at_ + count ≤ 32 →
      ∃ bit, Blocks.within at_ count bit = true ∧ blocks orig bit = false := by
  have start : ones >>> (32 - count) = ones >>> (32 - count) <<< 0 := by simp
  rw [findRun, start] at is
  rintro at_ ⟨k, rfl⟩ fits
  have missing := (runLoop_spec small positive (by omega)).2 is k
  rw [Nat.zero_add, Nat.mul_comm] at missing
  exact missing fits

end Dragonfly.Lib.Bitmap
