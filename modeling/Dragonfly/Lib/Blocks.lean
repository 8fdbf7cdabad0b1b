import Mathlib.Data.Nat.Count

/-!
# Sets of blocks

An allocator keeps a set of free blocks.  A set is a function from block numbers; taking
a range out of it and putting a range in change its size by the length of the range.  A
set over a large range can be tiled by sets over small ranges of the same length.
-/

namespace Dragonfly.Lib.Blocks

/-- The block lies in the range of `count` blocks from `lo` on. -/
def within (lo count block : Nat) : Bool := decide (lo ≤ block) && decide (block < lo + count)

/-- Take a range out of the set. -/
def without (free : Nat → Bool) (lo count : Nat) : Nat → Bool :=
  fun block => free block && !within lo count block

/-- Put a range into the set. -/
def adding (free : Nat → Bool) (lo count : Nat) : Nat → Bool :=
  fun block => free block || within lo count block

/-- The number of blocks of the set below a bound. -/
def size (free : Nat → Bool) (bound : Nat) : Nat := Nat.count (fun block => free block = true) bound

/-- A set given by sets over ranges of the same length, one behind another. -/
def tile (radix : Nat) (part : Nat → Nat → Bool) : Nat → Bool :=
  fun block => part (block / radix) (block % radix)

variable {free other : Nat → Bool} {lo count block bound radix : Nat}

theorem within_iff : within lo count block = true ↔ lo ≤ block ∧ block < lo + count := by
  simp [within]

theorem within_eq_false_iff : within lo count block = false ↔ block < lo ∨ lo + count ≤ block := by
  rw [← Bool.not_eq_true, within_iff]
  omega

theorem within_zero (lo block : Nat) : within lo 0 block = false := by
  rw [within_eq_false_iff]
  omega

theorem without_zero (free : Nat → Bool) (lo : Nat) : without free lo 0 = free := by
  funext block
  rw [without, within_zero, Bool.not_false, Bool.and_true]

theorem adding_zero (free : Nat → Bool) (lo : Nat) : adding free lo 0 = free := by
  funext block
  rw [adding, within_zero, Bool.or_false]

/-- Two ranges one behind the other. -/
theorem within_add (lo count more block : Nat) :
    within lo (count + more) block = (within lo count block || within (lo + count) more block) := by
  rw [Bool.eq_iff_iff, Bool.or_eq_true, within_iff, within_iff, within_iff]
  omega

theorem adding_add (free : Nat → Bool) (lo count more : Nat) :
    adding (adding free lo count) (lo + count) more = adding free lo (count + more) := by
  funext block
  simp only [adding, within_add, Bool.or_assoc]

theorem without_add (free : Nat → Bool) (lo count more : Nat) :
    without (without free lo count) (lo + count) more = without free lo (count + more) := by
  funext block
  simp only [without, within_add, Bool.not_or, Bool.and_assoc]

/-- Taking a range out and putting its end back takes out the front. -/
theorem adding_without (lo count more : Nat)
    (inside : ∀ block, within lo (count + more) block = true → free block = true) :
    adding (without free lo (count + more)) (lo + count) more = without free lo count := by
  funext block
  have covered := inside block
  simp only [adding, without, within_add] at covered ⊢
  cases front : within lo count block <;> cases back : within (lo + count) more block
  · simp
  · simp_all
  · simp
  · rw [within_iff] at front back
    omega

/-! ## Ranges -/

/-- All blocks of a range are free. -/
def FreeRun (free : Nat → Bool) (lo count : Nat) : Prop :=
  ∀ block, within lo count block = true → free block = true

/-- The blocks of a range are allocated. -/
def Taken (free : Nat → Bool) (lo count : Nat) : Prop :=
  ∀ block, within lo count block = true → free block = false

theorem Taken.rest {free : Nat → Bool} {lo first more : Nat} (taken : Taken free lo (first + more)) :
    Taken (adding free lo first) (lo + first) more := by
  intro block member
  rw [within_iff] at member
  rw [adding, taken block ((within_iff).mpr (by omega)), Bool.false_or,
    within_eq_false_iff]
  omega

theorem FreeRun.shorten {lo count less : Nat} (run : FreeRun free lo count) (atMost : less ≤ count) :
    FreeRun free lo less := by
  intro block member
  rw [within_iff] at member
  exact run block ((within_iff).mpr (by omega))

theorem FreeRun.first {lo : Nat} (run : FreeRun free lo count) (positive : 0 < count) :
    free lo = true :=
  run lo ((within_iff).mpr ⟨le_refl lo, by omega⟩)

theorem FreeRun.mono {other : Nat → Bool} {lo : Nat} (run : FreeRun free lo count)
    (fewer : ∀ block, free block = true → other block = true) : FreeRun other lo count :=
  fun block member => fewer block (run block member)

theorem without_le {lo count block : Nat} (member : without free lo count block = true) :
    free block = true := by
  rw [without, Bool.and_eq_true] at member
  exact member.1

/-! ## Sizes -/

theorem size_zero (free : Nat → Bool) : size free 0 = 0 := Nat.count_zero _

theorem size_succ (free : Nat → Bool) (bound : Nat) :
    size free (bound + 1) = size free bound + if free bound then 1 else 0 :=
  Nat.count_succ _ _

theorem size_le (free : Nat → Bool) (bound : Nat) : size free bound ≤ bound := Nat.count_le _

theorem size_congr (same : ∀ block < bound, free block = other block) :
    size free bound = size other bound := by
  induction bound with
  | zero => rw [size_zero, size_zero]
  | succ bound ih =>
      rw [size_succ, size_succ, ih fun block less => same block (by omega), same bound (by omega)]

theorem size_eq_zero_iff : size free bound = 0 ↔ ∀ block < bound, free block = false := by
  induction bound with
  | zero => simp [size_zero]
  | succ bound ih =>
      rw [size_succ, Nat.add_eq_zero_iff, ih, Nat.forall_lt_succ_right]
      cases free bound <;> simp

theorem size_eq_bound_iff : size free bound = bound ↔ ∀ block < bound, free block = true := by
  induction bound with
  | zero => simp [size_zero]
  | succ bound ih =>
      have atMost := size_le free bound
      rw [size_succ, Nat.forall_lt_succ_right, ← ih]
      cases free bound
      · simp
        omega
      · simp

theorem size_pos_iff : 0 < size free bound ↔ ∃ block < bound, free block = true := by
  rw [Nat.pos_iff_ne_zero, ne_eq, size_eq_zero_iff]
  push Not
  simp

/-- Blocks of the range below a bound, taken out of the set. -/
theorem size_without_min (inside : ∀ block, within lo count block = true → free block = true)
    (bound : Nat) : size (without free lo count) bound + min count (bound - lo) = size free bound := by
  induction bound with
  | zero => simp [size_zero]
  | succ bound ih =>
      rw [size_succ, size_succ, without]
      cases member : within lo count bound with
      | true =>
          rw [inside bound member]
          rw [within_iff] at member
          simp only [Bool.not_true, Bool.and_false, Bool.false_eq_true, if_false, if_true]
          omega
      | false =>
          rw [within_eq_false_iff] at member
          rw [Bool.not_false, Bool.and_true]
          omega

/-- Blocks of the range below a bound, put into the set. -/
theorem size_adding_min (outside : ∀ block, within lo count block = true → free block = false)
    (bound : Nat) : size (adding free lo count) bound = size free bound + min count (bound - lo) := by
  induction bound with
  | zero => simp [size_zero]
  | succ bound ih =>
      rw [size_succ, size_succ, adding]
      cases member : within lo count bound with
      | true =>
          rw [outside bound member]
          rw [within_iff] at member
          simp only [Bool.or_true, Bool.false_eq_true, if_false, if_true]
          omega
      | false =>
          rw [within_eq_false_iff] at member
          rw [Bool.or_false]
          omega

theorem size_without (inside : ∀ block, within lo count block = true → free block = true)
    (below : lo + count ≤ bound) : size (without free lo count) bound + count = size free bound := by
  have change := size_without_min inside bound
  omega

theorem size_adding (outside : ∀ block, within lo count block = true → free block = false)
    (below : lo + count ≤ bound) : size (adding free lo count) bound = size free bound + count := by
  have change := size_adding_min outside bound
  omega

/-- A range taken out of the set and the blocks of the set in the range. -/
theorem size_split (free : Nat → Bool) (lo count bound : Nat) :
    size (without free lo count) bound + size (fun block => free block && within lo count block) bound =
      size free bound := by
  induction bound with
  | zero => simp only [size_zero]
  | succ bound ih =>
      rw [size_succ, size_succ, size_succ, ← ih, without]
      cases free bound <;> cases within lo count bound <;> simp <;> omega

theorem size_add (free : Nat → Bool) (first second : Nat) :
    size free (first + second) = size free first + size (fun block => free (first + block)) second :=
  Nat.count_add _ _ _

/-- The size does not grow where the set has no blocks. -/
theorem size_eq_of_none {larger : Nat} (atMost : bound ≤ larger)
    (none : ∀ block, bound ≤ block → free block = false) : size free larger = size free bound := by
  obtain ⟨more, rfl⟩ := Nat.exists_eq_add_of_le atMost
  have rest : size (fun block => free (bound + block)) more = 0 :=
    (size_eq_zero_iff).mpr fun block _ => none _ (Nat.le_add_right bound block)
  rw [size_add, rest, Nat.add_zero]

/-! ## Tiles -/

/-- The next multiple. -/
theorem add_le_of_dvd {unit first second : Nat} (divides : unit ∣ first) (dividesSecond : unit ∣ second)
    (less : first < second) : first + unit ≤ second := by
  have gap := Nat.le_of_dvd (Nat.sub_pos_of_lt less) (Nat.dvd_sub dividesSecond divides)
  omega

theorem tile_apply (part : Nat → Nat → Bool) (index : Nat) {offset : Nat} (small : offset < radix) :
    tile radix part (index * radix + offset) = part index offset := by
  have positive : 0 < radix := by omega
  rw [tile, Nat.mul_comm, Nat.mul_add_div positive, Nat.div_eq_of_lt small, Nat.add_zero,
    Nat.mul_add_mod, Nat.mod_eq_of_lt small]

/-- A range inside one of the parts. -/
theorem within_tile {index lo count : Nat} (inside : lo + count ≤ radix) (positive : 0 < radix)
    (block : Nat) : within (index * radix + lo) count block =
      (decide (block / radix = index) && within lo count (block % radix)) := by
  have split := Nat.div_add_mod block radix
  have small := Nat.mod_lt block positive
  rw [Bool.eq_iff_iff, Bool.and_eq_true, decide_eq_true_eq, within_iff, within_iff]
  generalize block / radix = quotient at *
  generalize block % radix = rest at *
  constructor
  · intro member
    have same : quotient = index := by
      rcases Nat.lt_trichotomy quotient index with less | same | more
      · have := Nat.mul_le_mul_left radix (Nat.succ_le_of_lt less)
        rw [Nat.mul_succ] at this
        rw [Nat.mul_comm] at member
        omega
      · exact same
      · have := Nat.mul_le_mul_left radix (Nat.succ_le_of_lt more)
        rw [Nat.mul_succ] at this
        rw [Nat.mul_comm] at member
        omega
    subst same
    rw [Nat.mul_comm] at member
    omega
  · rintro ⟨rfl, member⟩
    rw [Nat.mul_comm]
    omega

theorem without_tile (part : Nat → Nat → Bool) {index lo count : Nat} (inside : lo + count ≤ radix)
    (positive : 0 < radix) :
    without (tile radix part) (index * radix + lo) count =
      tile radix (Function.update part index (without (part index) lo count)) := by
  funext block
  rw [without, within_tile inside positive, tile, tile]
  by_cases same : block / radix = index
  · subst same
    simp [without]
  · simp [same]

theorem adding_tile (part : Nat → Nat → Bool) {index lo count : Nat} (inside : lo + count ≤ radix)
    (positive : 0 < radix) :
    adding (tile radix part) (index * radix + lo) count =
      tile radix (Function.update part index (adding (part index) lo count)) := by
  funext block
  rw [adding, within_tile inside positive, tile, tile]
  by_cases same : block / radix = index
  · subst same
    simp [adding]
  · simp [same]

/-- The size of a tiled set when one of the parts changes. -/
theorem size_tile_update (part : Nat → Nat → Bool) {index n : Nat} (inside : index < n)
    (other : Nat → Bool) :
    size (tile radix (Function.update part index other)) (n * radix) + size (part index) radix =
      size (tile radix part) (n * radix) + size other radix := by
  have behind : ∀ (part : Nat → Nat → Bool) (n : Nat),
      size (fun block => tile radix part (n * radix + block)) radix = size (part n) radix :=
    fun part n => size_congr fun block small => tile_apply part n small
  induction n with
  | zero => omega
  | succ n ih =>
      rw [Nat.succ_mul, size_add, size_add, behind, behind]
      by_cases last : index = n
      · subst last
        have front : size (tile radix (Function.update part index other)) (index * radix) =
            size (tile radix part) (index * radix) := by
          apply size_congr
          intro block less
          have before : block / radix < index := by
            apply Nat.div_lt_of_lt_mul
            rwa [Nat.mul_comm]
          rw [tile, tile, Function.update_of_ne before.ne]
        rw [front, Function.update_self]
        omega
      · have change := ih (by omega)
        rw [Function.update_of_ne (Ne.symm last)]
        omega

/-- A range of whole parts. -/
theorem within_group {lo n : Nat} (positive : 0 < radix) (block : Nat) :
    within (lo * radix) (n * radix) block = decide (lo ≤ block / radix ∧ block / radix < lo + n) := by
  rw [Bool.eq_iff_iff, within_iff, decide_eq_true_eq, Nat.le_div_iff_mul_le positive,
    Nat.div_lt_iff_lt_mul positive, Nat.add_mul]

theorem without_group (part : Nat → Nat → Bool) (lo n : Nat) (positive : 0 < radix) :
    without (tile radix part) (lo * radix) (n * radix) =
      tile radix fun i => if lo ≤ i ∧ i < lo + n then fun _ => false else part i := by
  funext block
  rw [without, within_group positive, tile, tile]
  by_cases inside : lo ≤ block / radix ∧ block / radix < lo + n
  · rw [if_pos inside, decide_eq_true inside, Bool.not_true, Bool.and_false]
  · rw [if_neg inside, decide_eq_false inside, Bool.not_false, Bool.and_true]

end Dragonfly.Lib.Blocks
