import Dragonfly.Kern.Alist.Shape

/-!
# The law of the hints

A hint may be too large but must never be too small: no aligned run of free blocks of a
node is longer than the hint of the node.
-/

namespace Dragonfly.Kern.Alist

open Dragonfly.Lib Dragonfly.Lib.Bitmap Dragonfly.Lib.Radix
open Dragonfly.Lib.Blocks (FreeRun Taken without_le)

variable {level limit blk start count : Nat} {free : Nat → Bool}

/-- No aligned run of free blocks, with a power of two as its length, is longer than the
hint. -/
def Covers (free : Nat → Bool) (hint : Nat) : Prop :=
  ∀ k lo, 2 ^ k ∣ lo → FreeRun free lo (2 ^ k) → 2 ^ k ≤ hint

/-- There is no aligned run of free blocks at or behind the start. -/
def Missing (free : Nat → Bool) (blk start count : Nat) : Prop :=
  ∀ lo, count ∣ lo → start ≤ blk + lo → ¬FreeRun free lo count

/-- The law of the hints, for all nodes that are not stale. -/
def Hinted : (level : Nat) → Tree level → Prop
  | 0, scan => Covers (freeBlocks 0 scan) (bighint 0 scan)
  | level + 1, scan => Covers (freeBlocks (level + 1) scan) (bighint (level + 1) scan) ∧
      ∀ i < 16, Meta.bitmap scan i = .partly → ∀ child, Meta.child scan i = some child →
        Hinted level child

/-! ## Runs of free blocks -/

theorem Covers.mono {other : Nat → Bool} {hint larger : Nat} (covers : Covers other hint)
    (fewer : ∀ block, free block = true → other block = true) (atLeast : hint ≤ larger) :
    Covers free larger :=
  fun k lo aligned run => (covers k lo aligned (run.mono fewer)).trans atLeast

/-- A hint that is as large as the node. -/
theorem covers_all {hint : Nat} (none : ∀ block, hint ≤ block → free block = false) :
    Covers free hint := by
  intro k lo aligned run
  by_contra above
  have last := run (lo + 2 ^ k - 1) (Blocks.within_iff.mpr (by omega))
  rw [none _ (by omega)] at last
  cases last

/-- A hint below the length of a run that is not there. -/
theorem covers_of_missing {k hint : Nat} (half : 2 ^ k / 2 ≤ hint)
    (missing : Missing free blk start (2 ^ k)) (all : start ≤ blk) : Covers free hint := by
  intro j lo aligned run
  by_cases smaller : j < k
  · have less : 2 ^ (j + 1) ≤ 2 ^ k := Nat.pow_le_pow_right (by decide) smaller
    rw [Nat.pow_succ] at less
    omega
  · have atMost : 2 ^ k ≤ 2 ^ j := Nat.pow_le_pow_right (by decide) (by omega)
    have divides : 2 ^ k ∣ 2 ^ j := Nat.pow_dvd_pow 2 (by omega)
    exact (missing lo (Nat.dvd_trans divides aligned) (by omega) (run.shorten atMost)).elim

theorem Missing.of_none (none : ∀ block, start ≤ blk + block → free block = false)
    (positive : 0 < count) : Missing free blk start count := by
  intro lo _ late run
  have first := run.first positive
  rw [none lo late] at first
  cases first

/-! ## Meta nodes -/

/-- A property of the nodes below that are not stale, from number `i` on. -/
def Below (scan : Tree (level + 1)) (i : Nat) (holds : Nat → Tree level → Prop) : Prop :=
  ∀ j, i ≤ j → j < 16 → Meta.bitmap scan j = .partly → ∀ child, Meta.child scan j = some child →
    holds j child

theorem put_child_of_ne (scan : Tree (level + 1)) {i j : Nat} (other : j ≠ i) (pair : Pair)
    (node : Tree level) : Meta.child (put scan i pair node) j = Meta.child scan j :=
  Function.update_of_ne other ..

theorem put_bitmap_of_ne (scan : Tree (level + 1)) {i j : Nat} (other : j ≠ i) (pair : Pair)
    (node : Tree level) : Meta.bitmap (put scan i pair node) j = Meta.bitmap scan j :=
  Function.update_of_ne other ..

theorem put_child_self (scan : Tree (level + 1)) (i : Nat) (pair : Pair) (node : Tree level) :
    Meta.child (put scan i pair node) i = some node := Function.update_self ..

theorem put_bitmap_self (scan : Tree (level + 1)) (i : Nat) (pair : Pair) (node : Tree level) :
    Meta.bitmap (put scan i pair node) i = pair := Function.update_self ..

/-- The nodes behind the one that is written. -/
theorem Below.put_next {scan : Tree (level + 1)} {i : Nat} {holds : Nat → Tree level → Prop}
    (below : Below scan i holds) (pair : Pair) (node : Tree level) :
    Below (put scan i pair node) (i + 1) holds := by
  intro j late inside partly child present
  rw [put_bitmap_of_ne scan (by omega)] at partly
  rw [put_child_of_ne scan (by omega)] at present
  exact below j (by omega) inside partly child present

theorem parts_put_of_ne (scan : Tree (level + 1)) {i j : Nat} (inside : i < 16) (other : j ≠ i)
    (pair : Pair) (node : Tree level) : parts (put scan i pair node) j = parts scan j := by
  rw [parts_put scan inside, Function.update_of_ne other]

/-- A node that all lies before the start. -/
theorem Missing.before {radix : Nat} (none : ∀ block, radix ≤ block → free block = false)
    (before : blk + radix ≤ start) (positive : 0 < count) : Missing free blk start count :=
  .of_none (fun block late => none block (by omega)) positive

theorem parts_of_ge (scan : Tree (level + 1)) (i : Nat) {block : Nat} (large : radix level ≤ block) :
    parts scan i block = false := by
  unfold parts
  split
  · cases is : Meta.bitmap scan i with
    | free => exact decide_eq_false (by omega)
    | partly =>
        cases Meta.child scan i with
        | none => rfl
        | some node => exact freeBlocks_of_ge node large
    | _ => cases Meta.child scan i <;> rfl
  · rfl

theorem setFree_hinted (node : Tree level) : Hinted level (setFree level node) := by
  have covers : Covers (freeBlocks level (setFree level node)) (radix level) :=
    covers_all fun block large => freeBlocks_of_ge _ large
  cases level with
  | zero => exact covers
  | succ level =>
      refine ⟨covers, ?_⟩
      intro i _ partly
      cases partly

/-- A hint below the count says that there is no run. -/
theorem Hinted.covers {scan : Tree level} (hinted : Hinted level scan) :
    Covers (freeBlocks level scan) (bighint level scan) := by
  cases level with
  | zero => exact hinted
  | succ level => exact hinted.1

theorem Hinted.missing {k : Nat} {scan : Tree level} (hinted : Hinted level scan)
    (less : bighint level scan < 2 ^ k) : Missing (freeBlocks level scan) blk start (2 ^ k) := by
  intro lo aligned _ run
  have atMost := hinted.covers k lo aligned run
  omega

/-- The law for the nodes below, after one of them is written. -/
theorem Below.put {scan : Tree (level + 1)} {i : Nat} {pair : Pair} {node : Tree level}
    (below : Below scan 0 fun _ child => Hinted level child)
    (hinted : pair = .partly → Hinted level node) :
    Below (put scan i pair node) 0 fun _ child => Hinted level child := by
  intro j _ inside partly child present
  by_cases same : j = i
  · subst same
    rw [put_bitmap_self] at partly
    rw [put_child_self] at present
    cases present
    exact hinted partly
  · rw [put_bitmap_of_ne scan same] at partly
    rw [put_child_of_ne scan same] at present
    exact below j (Nat.zero_le j) inside partly child present

theorem setAllocated_hinted (node : Tree level) : Hinted level (setAllocated level node) := by
  have covers : Covers (freeBlocks level (setAllocated level node)) 0 := by
    rw [freeBlocks_setAllocated]
    exact covers_all fun _ _ => rfl
  cases level with
  | zero => exact covers
  | succ level =>
      refine ⟨covers, ?_⟩
      intro i _ partly
      cases partly

/-- Writing a node below that is neither all free nor all allocated: a run lies in it or it
is a run of the other nodes. -/
theorem covers_put_partly {scan : Tree (level + 1)} {i : Nat} (inside : i < 16) {node : Tree level}
    {hint : Nat} (covers : Covers (freeBlocks (level + 1) scan) hint) (hinted : Hinted level node)
    (gap : ∃ block < radix level, freeBlocks level node block = false) :
    Covers (freeBlocks (level + 1) (put scan i .partly node)) (max hint (bighint level node)) := by
  have positive := radix_pos level
  have this : ∀ {block : Nat}, block < radix level →
      freeBlocks (level + 1) (put scan i .partly node) (i * radix level + block) =
        freeBlocks level node block := by
    intro block small
    rw [freeBlocks_eq, Blocks.tile_apply _ _ small, parts_put scan inside, Function.update_self,
      view_partly]
  have others : ∀ {block : Nat}, block / radix level ≠ i →
      freeBlocks (level + 1) (put scan i .partly node) block = freeBlocks (level + 1) scan block := by
    intro block other
    rw [freeBlocks_eq, freeBlocks_eq, Blocks.tile, Blocks.tile, parts_put_of_ne scan inside other]
  intro k lo aligned run
  by_cases touches : ∃ block, Blocks.within lo (2 ^ k) block = true ∧ block / radix level = i
  · obtain ⟨block, member, place⟩ := touches
    rw [Blocks.within_iff] at member
    have here := Nat.div_add_mod block (radix level)
    have rest := Nat.mod_lt block positive
    rw [place, Nat.mul_comm] at here
    by_cases large : radix level ≤ 2 ^ k
    · -- the run has all of the node
      have divides : radix level ∣ lo :=
        Nat.dvd_trans (radix_dvd_power large) aligned
      have multiple : radix level ∣ 2 ^ k := radix_dvd_power large
      obtain ⟨unset, small, isUnset⟩ := gap
      obtain ⟨q, rfl⟩ := divides
      obtain ⟨p, isP⟩ := multiple
      rw [isP, ← Nat.mul_add] at member
      have qLe : q ≤ i := by
        by_contra above
        have further := Nat.mul_le_mul_left (radix level) (Nat.succ_le_of_lt (Nat.lt_of_not_le above))
        rw [Nat.mul_succ, Nat.mul_comm] at further
        omega
      have iLt : i < q + p := by
        by_contra above
        have further := Nat.mul_le_mul_left (radix level) (Nat.le_of_not_lt above)
        rw [Nat.mul_comm (radix level) i] at further
        omega
      have low := Nat.mul_le_mul_left (radix level) qLe
      have high := Nat.mul_le_mul_left (radix level) (Nat.succ_le_of_lt iLt)
      rw [Nat.mul_succ] at high
      rw [Nat.mul_comm (radix level) i] at low high
      have set := run (i * radix level + unset) (by
        rw [Blocks.within_iff, isP, ← Nat.mul_add]
        omega)
      rw [this small, isUnset] at set
      cases set
    · -- the run lies in the node
      have divides := power_dvd_radix (Nat.le_of_not_le large)
      have start : 2 ^ k ∣ i * radix level := Nat.dvd_mul_left_of_dvd divides i
      have finish : 2 ^ k ∣ (i + 1) * radix level := Nat.dvd_mul_left_of_dvd divides (i + 1)
      have above : i * radix level ≤ lo := by
        by_contra below
        have before := Blocks.add_le_of_dvd aligned start (Nat.lt_of_not_le below)
        omega
      have fits : lo + 2 ^ k ≤ (i + 1) * radix level := by
        apply Blocks.add_le_of_dvd aligned finish
        rw [Nat.succ_mul]
        omega
      rw [Nat.succ_mul] at fits
      have part : FreeRun (freeBlocks level node) (lo - i * radix level) (2 ^ k) := by
        intro inner innerMember
        rw [Blocks.within_iff] at innerMember
        rw [← this (by omega)]
        exact run _ (Blocks.within_iff.mpr (by omega))
      exact (hinted.covers k _ (Nat.dvd_sub aligned start) part).trans (Nat.le_max_right _ _)
  · have old : FreeRun (freeBlocks (level + 1) scan) lo (2 ^ k) := by
      intro block member
      rw [← others fun place => touches ⟨block, member, place⟩]
      exact run block member
    exact (covers k lo aligned old).trans (Nat.le_max_left _ _)

end Dragonfly.Kern.Alist
