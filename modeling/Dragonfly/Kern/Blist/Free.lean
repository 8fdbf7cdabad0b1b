import Dragonfly.Kern.Blist.Alloc

/-!
# Freeing

A free of allocated blocks reaches no panic and puts exactly these blocks into the set of
free blocks.
-/

namespace Dragonfly.Kern.Blist

open Dragonfly.Lib Dragonfly.Lib.Bitmap Dragonfly.Lib.Radix
open Dragonfly.Lib.Blocks (FreeRun Taken)

variable {level limit blk freeBlk count : Nat}

/-- What freeing the blocks from `lo` on does to a tree. -/
def Frees (level limit : Nat) (scan : Tree level) (lo count : Nat) (outcome : Outcome (Tree level)) :
    Prop :=
  ∃ after, outcome = .done after ∧ Ok level limit after ∧
    freeBlocks level after = Blocks.adding (freeBlocks level scan) lo count

theorem leafFree_spec {scan : Leaf} (ok : Ok 0 limit scan) (aligned : 32 ∣ blk)
    (late : blk ≤ freeBlk) (inside : freeBlk - blk + count ≤ 32)
    (below : freeBlk - blk + count ≤ limit) (taken : Taken (blocks scan.bitmap) (freeBlk - blk) count)
    (positive : 0 < count) : Frees 0 limit scan (freeBlk - blk) count (leafFree scan freeBlk count) := by
  have place : freeBlk % 32 = freeBlk - blk := by
    obtain ⟨k, rfl⟩ := aligned
    omega
  have isMask : blocks (span (freeBlk % 32) count) = Blocks.within (freeBlk - blk) count := by
    rw [place]
    exact blocks_span inside
  have unset : scan.bitmap &&& span (freeBlk % 32) count = 0 := by
    rw [and_eq_zero_iff, isMask]
    exact taken
  have added : blocks (scan.bitmap ||| span (freeBlk % 32) count) =
      Blocks.adding (blocks scan.bitmap) (freeBlk - blk) count := blocks_or isMask
  refine ⟨⟨scan.bitmap ||| span (freeBlk % 32) count, 32⟩, if_pos unset,
    ⟨trivial, ?_, covers_leaf _ (le_refl 32)⟩, added⟩
  intro block large
  have was : blocks scan.bitmap block = false := ok.live block large
  refine (congrFun added block).trans ?_
  rw [Blocks.adding, was, Bool.false_or, Blocks.within_eq_false_iff]
  omega

/-! ## The loop -/

/-- The hint is right about the nodes below whose blocks the loop has freed: a run lies
in one of them or was there before. -/
theorem covers_setChild {scan : Tree (level + 1)} {i hint : Nat} {node : Tree level}
    (covers : Covers (below scan) hint) (hinted : Hinted level node) :
    Covers (Blocks.tile (radix level)
      (Function.update (partsOf (freeBlocks level) (Meta.child scan)) i (freeBlocks level node)))
      (max hint (bighint level node)) := by
  intro lo count inLeaf run
  by_cases empty : count = 0
  · omega
  · have positive := radix_pos level
    have split := Nat.div_add_mod lo (radix level)
    have small := Nat.mod_lt lo positive
    have position : lo % 32 = lo % radix level % 32 := by
      rw [radix, Nat.mod_mul_right_mod]
    -- a run in one leaf lies in one node below
    have fits : lo % radix level + count ≤ radix level := by
      rw [position] at inLeaf
      have leaf : ∃ q, radix level = 32 * q := ⟨16 ^ level, rfl⟩
      obtain ⟨q, is⟩ := leaf
      omega
    have inPart : ∀ block, Blocks.within (lo % radix level) count block = true →
        Function.update (partsOf (freeBlocks level) (Meta.child scan)) i (freeBlocks level node)
          (lo / radix level) block = true := by
      intro block member
      rw [Blocks.within_iff] at member
      have free := run (lo / radix level * radix level + block) (by
        rw [Blocks.within_iff, Nat.mul_comm]
        omega)
      rwa [Blocks.tile_apply _ _ (by omega)] at free
    by_cases here : lo / radix level = i
    · rw [here, Function.update_self] at inPart
      rw [position] at inLeaf
      exact (hinted.covers _ _ inLeaf inPart).trans (Nat.le_max_right _ _)
    · rw [Function.update_of_ne here] at inPart
      refine (covers lo count inLeaf ?_).trans (Nat.le_max_left _ _)
      intro block member
      rw [Blocks.within_iff] at member
      have free := inPart (block - lo / radix level * radix level) (by
        rw [Blocks.within_iff, Nat.mul_comm]
        omega)
      rw [below_eq]
      have place : block = lo / radix level * radix level + (block - lo / radix level * radix level) := by
        rw [Nat.mul_comm]
        omega
      rw [place, Blocks.tile_apply _ _ (by rw [Nat.mul_comm]; omega)]
      exact free

/-- The loop puts the range into the set, whatever part of it lies in each node below. -/
theorem freeLoop_spec {release : Tree level → Nat → Nat → Nat → Outcome (Tree level)}
    (spec : ∀ {limit blk freeBlk count : Nat} {node : Tree level}, Ok level limit node →
      radix level ∣ blk → blk ≤ freeBlk → freeBlk - blk + count ≤ radix level →
      freeBlk - blk + count ≤ limit → 0 < count →
      Taken (freeBlocks level node) (freeBlk - blk) count →
      Frees level limit node (freeBlk - blk) count (release node freeBlk count blk))
    (aligned : radix (level + 1) ∣ blk) (fuel : Nat) {i lo count : Nat} (all : i + fuel = 16)
    {scan : Tree (level + 1)} (opened : Opened limit scan) (stands : Stands level i lo count)
    (inside : lo + count ≤ radix (level + 1)) (small : lo + count ≤ limit)
    (taken : Taken (below scan) lo count) (covers : Covers (below scan) (Meta.bighint scan)) :
    ∃ after : Tree (level + 1),
      freeLoop level release fuel i (blk + i * radix level) (blk + lo) count scan = .done after ∧
        Opened limit after ∧ below after = Blocks.adding (below scan) lo count ∧
        Meta.avail after = Meta.avail scan ∧ Covers (below after) (Meta.bighint after) := by
  induction fuel generalizing i lo count scan with
  | zero =>
      refine ⟨scan, rfl, opened, ?_, rfl, covers⟩
      obtain ⟨none, -⟩ | ⟨some, from_, -⟩ := stands
      · rw [none, Blocks.adding_zero]
      · rw [radix_succ] at inside
        obtain rfl : i = 16 := by omega
        omega
  | succ fuel ih =>
      have iInside : i < 16 := by omega
      have next : blk + i * radix level + radix level = blk + (i + 1) * radix level := by
        rw [Nat.succ_mul]
        omega
      rw [freeLoop]
      by_cases some : 0 < count
      · have start : i * radix level ≤ lo ∧ lo < (i + 1) * radix level := by
          unfold Stands at stands
          omega
        obtain ⟨atMost, vPositive, fits, standsNext⟩ := stands.next some rfl
        generalize vIs : min ((i + 1) * radix level - lo) count = v at *
        have v' : min (blk + i * radix level + radix level - (blk + lo)) count = v := by
          rw [next, ← vIs]
          congr 1
          omega
        obtain ⟨node, present, -⟩ := (opened.shape i iInside).2 (by omega)
        have okNode := opened.nodes i iInside node present
        rw [if_pos (by omega)]
        simp only [v', present]
        -- the part of the range in this node
        have place : blk + lo - (blk + i * radix level) = lo - i * radix level := by omega
        have takenNode : Taken (freeBlocks level node) (lo - i * radix level) v := by
          intro block inNode
          rw [Blocks.within_iff] at inNode
          have was := taken (i * radix level + block) (Blocks.within_iff.mpr (by omega))
          rwa [below_apply iInside present (by omega)] at was
        have alignedNode : radix level ∣ blk + i * radix level := by
          rw [radix_succ] at aligned
          exact Nat.dvd_add (Nat.dvd_trans (Nat.dvd_mul_left (radix level) 16) aligned)
            (Nat.dvd_mul_left _ i)
        have late : blk + i * radix level ≤ blk + lo := by omega
        have limited : lo - i * radix level + v ≤ limit - i * radix level := by omega
        rw [← place] at fits limited takenNode
        obtain ⟨found, is, okFound, added⟩ :=
          spec okNode alignedNode late fits limited vPositive takenNode
        rw [place] at added fits
        let changed : Tree (level + 1) :=
          { Meta.setChild scan i found with bighint := max (Meta.bighint scan) (bighint level found) }
        obtain ⟨openedAfter, belowAfter⟩ : Opened limit changed ∧ below changed = _ :=
          opened.setChild iInside present okFound rfl
        have coversAfter : Covers (below changed) (Meta.bighint changed) := by
          rw [belowAfter]
          exact covers_setChild covers okFound.hinted
        rw [added, ← partsOf_some iInside present, ← Blocks.adding_tile _ fits (radix_pos level),
          ← below_eq, Nat.add_sub_cancel' start.1] at belowAfter
        have rest : Taken (below changed) (lo + v) (count - v) := by
          rw [belowAfter]
          refine Taken.rest ?_
          rwa [Nat.add_sub_cancel' atMost]
        have left : i + 1 + fuel = 16 := by omega
        obtain ⟨after, loopIs, openedLast, belowLast, avail, coversLast⟩ :=
          ih left openedAfter standsNext (by omega) (by omega) rest coversAfter
        refine ⟨after, ?_, openedLast, ?_, avail, coversLast⟩
        · rw [is, next, Nat.add_assoc blk lo v]
          exact loopIs
        · rw [belowLast, belowAfter, Blocks.adding_add, Nat.add_sub_cancel' atMost]
      · have done : ¬blk + i * radix level < blk + lo + count := by
          unfold Stands at stands
          omega
        rw [if_neg done]
        refine ⟨scan, rfl, opened, ?_, rfl, covers⟩
        rw [show count = 0 by omega, Blocks.adding_zero]

/-! ## Meta nodes -/

/-- Where the loop starts. -/
theorem stands_first {lo : Nat} (inside : lo + count ≤ radix (level + 1)) (positive : 0 < count) :
    lo / radix level < 16 ∧ Stands level (lo / radix level) lo count := by
  have rpos := radix_pos level
  have split := Nat.div_add_mod lo (radix level)
  have rest := Nat.mod_lt lo rpos
  refine ⟨?_, .inr ⟨positive, Nat.div_mul_le_self lo _, ?_⟩⟩
  · rw [Nat.div_lt_iff_lt_mul rpos, ← radix_succ]
    omega
  · rw [Nat.succ_mul, Nat.mul_comm]
    omega

theorem countFreed_shape {scan : Tree (level + 1)} (shape : Shape (level + 1) limit scan) (count : Nat) :
    Shape (level + 1) limit (countFreed level scan count) := by
  unfold countFreed
  split
  · split
    · exact shape.initialise fun shapeNode => setAllocated_shape shapeNode
    · exact shape
  · exact shape

theorem countFreed_avail (scan : Tree (level + 1)) (count : Nat) :
    Meta.avail (countFreed level scan count) = Meta.avail scan + count := by
  unfold countFreed
  split
  · rename_i zero
    rw [zero, Nat.zero_add]
    split <;> rfl
  · rfl

/-- The node that the loop starts with. -/
theorem countFreed_opened {scan : Tree (level + 1)} (ok : Ok (level + 1) limit scan)
    (notAll : Meta.avail scan ≠ radix (level + 1))
    (notFull : Meta.avail scan + count ≠ radix (level + 1)) :
    Opened limit (countFreed level scan count) ∧
      below (countFreed level scan count) = freeBlocks (level + 1) scan ∧
      Covers (below (countFreed level scan count)) (Meta.bighint (countFreed level scan count)) := by
  obtain ⟨opened, same⟩ := ok.openAllocated notAll
  have nodes : Meta.child (countFreed level scan count) = Meta.child (openAllocated scan) := by
    unfold countFreed openAllocated
    split
    · rw [if_pos (by omega)]
    · rfl
  obtain ⟨openedFirst, belowFirst⟩ := opened.congr nodes
  rw [belowFirst, same]
  refine ⟨openedFirst, rfl, ?_⟩
  by_cases zero : Meta.avail scan = 0
  · refine covers_none (fun block => ?_) _
    rw [freeBlocks, if_pos zero]
  · rw [countFreed, if_neg zero]
    exact ok.hinted.1

/-- A free that makes all blocks of a node free. -/
theorem free_all {scan : Tree (level + 1)} (ok : Ok (level + 1) limit scan) {lo : Nat}
    (inside : lo + count ≤ radix (level + 1)) (small : lo + count ≤ limit)
    (full : Meta.avail scan + count = radix (level + 1))
    (everything : ∀ block < radix (level + 1),
      Blocks.adding (freeBlocks (level + 1) scan) lo count block = true) :
    Frees (level + 1) limit scan lo count
      (.done ⟨Meta.avail scan + count, radix (level + 1), Meta.child (countFreed level scan count)⟩) := by
  have isSet : (⟨Meta.avail scan + count, radix (level + 1),
      Meta.child (countFreed level scan count)⟩ : Meta (Tree level)) =
      setFree (level + 1) (countFreed level scan count) := by
    rw [full, setFree]
  have covered : radix (level + 1) ≤ limit := by
    by_contra short
    have last := everything limit (by omega)
    rw [Blocks.adding, ok.live.freeBlocks_of_ge (le_refl _), Bool.false_or, Blocks.within_iff] at last
    omega
  rw [isSet]
  refine ⟨_, rfl, setFree_ok (countFreed_shape ok.shape count) covered, ?_⟩
  rw [freeBlocks_setFree]
  funext block
  by_cases less : block < radix (level + 1)
  · rw [everything block less, decide_eq_true less]
  · rw [decide_eq_false less, Blocks.adding, freeBlocks_of_ge scan (by omega), Bool.false_or, eq_comm,
      Blocks.within_eq_false_iff]
    omega

/-- A free of allocated blocks of a node makes exactly these blocks free. -/
theorem free_spec {scan : Tree level} (ok : Ok level limit scan) (aligned : radix level ∣ blk)
    (late : blk ≤ freeBlk) (inside : freeBlk - blk + count ≤ radix level)
    (small : freeBlk - blk + count ≤ limit) (positive : 0 < count)
    (taken : Taken (freeBlocks level scan) (freeBlk - blk) count) :
    Frees level limit scan (freeBlk - blk) count (free level scan freeBlk count blk) := by
  induction level generalizing limit blk freeBlk count with
  | zero => exact leafFree_spec ok aligned late inside small taken positive
  | succ level ih =>
      obtain ⟨lo, rfl⟩ : ∃ lo, freeBlk = blk + lo := ⟨freeBlk - blk, by omega⟩
      rw [Nat.add_sub_cancel_left] at *
      have counts := ok.live.1
      have size := Blocks.size_adding taken inside
      have atMost := Blocks.size_le (Blocks.adding (freeBlocks (level + 1) scan) lo count)
        (radix (level + 1))
      have notAll : Meta.avail scan ≠ radix (level + 1) := by omega
      have availIs := countFreed_avail scan count
      rw [free, metaFree]
      simp only [availIs]
      by_cases full : Meta.avail scan + count = radix (level + 1)
      · rw [if_pos full]
        exact free_all ok inside small full (Blocks.size_eq_bound_iff.mp (by omega))
      · rw [if_neg full, if_neg (by omega), Nat.add_sub_cancel_left]
        obtain ⟨opened, same, covers⟩ := countFreed_opened ok notAll full
        obtain ⟨first, stands⟩ := stands_first inside positive
        rw [← same] at taken
        obtain ⟨after, is, openedAfter, belowAfter, avail, coversAfter⟩ :=
          freeLoop_spec (fun okNode => ih okNode) aligned (16 - lo / radix level) (by omega) opened stands
            inside small taken covers
        rw [same] at belowAfter
        obtain ⟨okAfter, sameAfter⟩ := openedAfter.close (by
          rw [avail, availIs, belowAfter]
          omega) coversAfter
        exact ⟨after, is, okAfter, sameAfter.trans belowAfter⟩

end Dragonfly.Kern.Blist
