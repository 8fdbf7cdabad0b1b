import Dragonfly.Kern.Blist.Free

/-!
# Filling

A fill takes all free blocks of a range out of the set of free blocks and counts them.  It
panics if a node with a free block, not covered by the range as a whole, has to fill more
blocks than one of the nodes below has.
-/

namespace Dragonfly.Kern.Blist

open Dragonfly.Lib Dragonfly.Lib.Bitmap Dragonfly.Lib.Radix
open Dragonfly.Lib.Blocks (FreeRun)

variable {level limit blk fillBlk count : Nat}

/-- What filling the blocks from `lo` on does to a tree. -/
def Fills (level limit : Nat) (scan : Tree level) (lo count : Nat)
    (outcome : Outcome (Nat × Tree level)) : Prop :=
  ∃ filled after, outcome = .done (filled, after) ∧ Ok level limit after ∧
    freeBlocks level after = Blocks.without (freeBlocks level scan) lo count ∧
    filled + Blocks.size (freeBlocks level after) (radix level) =
      Blocks.size (freeBlocks level scan) (radix level)

/-! ## Leaves -/

/-- The loop counts the bits of a word. -/
theorem countLoop_spec (fuel : Nat) {bitmap : Word} (enough : Blocks.size (blocks bitmap) 32 < fuel)
    (nblks : Nat) : countLoop fuel bitmap nblks = nblks + Blocks.size (blocks bitmap) 32 := by
  induction fuel generalizing bitmap nblks with
  | zero => omega
  | succ fuel ih =>
      rw [countLoop]
      split
      · rename_i nonzero
        obtain ⟨set, -⟩ := lowest_spec nonzero
        have bounded : lowest bitmap < 32 := by
          by_contra large
          rw [blocks_eq_false (by omega)] at set
          cases set
        have run : FreeRun (blocks bitmap) (lowest bitmap) 1 := by
          intro bit member
          rw [Blocks.within_iff] at member
          rwa [show bit = lowest bitmap by omega]
        have size := Blocks.size_without run (show lowest bitmap + 1 ≤ 32 by omega)
        rw [← blocks_clear_lowest nonzero] at size
        rw [ih (by omega)]
        omega
      · rename_i zero
        have none : Blocks.size (blocks bitmap) 32 = 0 := by
          rw [Blocks.size_eq_zero_iff, ← eq_zero_iff]
          simpa using zero
        omega

theorem leafFill_spec {scan : Leaf} (ok : Ok 0 limit scan) (aligned : 32 ∣ blk)
    (late : blk ≤ fillBlk) (inside : fillBlk - blk + count ≤ 32) (positive : 0 < count) :
    Fills 0 limit scan (fillBlk - blk) count (.done (leafFill scan fillBlk count)) := by
  have place : fillBlk % 32 = fillBlk - blk := by
    obtain ⟨k, rfl⟩ := aligned
    omega
  have isMask : blocks (span (fillBlk % 32) count) = Blocks.within (fillBlk - blk) count := by
    rw [place]
    exact blocks_span inside
  have removed : blocks (scan.bitmap &&& ~~~span (fillBlk % 32) count) =
      Blocks.without (blocks scan.bitmap) (fillBlk - blk) count := blocks_and_not isMask
  have both : blocks (scan.bitmap &&& span (fillBlk % 32) count) =
      fun block => blocks scan.bitmap block && Blocks.within (fillBlk - blk) count block := by
    funext block
    rw [blocks_and, isMask]
  have enough := Blocks.size_le (blocks (scan.bitmap &&& span (fillBlk % 32) count)) 32
  have counted := countLoop_spec 33 (Nat.lt_succ_of_le enough) 0
  have size := Blocks.size_split (blocks scan.bitmap) (fillBlk - blk) count 32
  refine ⟨_, _, rfl, ⟨trivial, ?_, ?_⟩, removed, ?_⟩
  · intro block large
    have unset : blocks scan.bitmap block = false := ok.live block large
    exact (congrFun removed block).trans (by rw [Blocks.without, unset, Bool.false_and])
  · refine ok.hinted.covers.mono (fun block member => ?_) (le_refl _)
    rw [show blocks _ = _ from removed] at member
    exact Blocks.without_le member
  · show countLoop 33 (scan.bitmap &&& span (fillBlk % 32) count) 0 +
      Blocks.size (blocks (scan.bitmap &&& ~~~span (fillBlk % 32) count)) 32 =
      Blocks.size (blocks scan.bitmap) 32
    rw [counted, removed, both]
    omega

/-! ## Which fills do not panic -/

/-- Every node with a free block is covered by the range as a whole, or has no more blocks
of the range than one of the nodes below has. -/
def Fits (level : Nat) (free : Nat → Bool) (lo count : Nat) : Prop :=
  ∀ l < level, ∀ base, radix (l + 1) ∣ base → base + radix (l + 1) ≤ radix level →
    (∃ block, Blocks.within base (radix (l + 1)) block = true ∧ free block = true) →
    (lo ≤ base ∧ base + radix (l + 1) ≤ lo + count) ∨
      min (lo + count) (base + radix (l + 1)) - max lo base ≤ radix l

/-- The part of a range that lies in the node below with number `i`: where it starts in the
node. -/
def partLo (level i lo : Nat) : Nat := max lo (i * radix level) - i * radix level

/-- The length of the part of a range in the node below. -/
def partCount (level i lo count : Nat) : Nat :=
  min (lo + count) ((i + 1) * radix level) - max lo (i * radix level)

/-- Whether a fill of a node fits is decided at the node and at the nodes below. -/
theorem fits_tile_iff {parts : Nat → Nat → Bool} {lo : Nat} (inside : lo + count ≤ radix (level + 1)) :
    Fits (level + 1) (Blocks.tile (radix level) parts) lo count ↔
      ((∃ block < radix (level + 1), Blocks.tile (radix level) parts block = true) →
        count = radix (level + 1) ∨ count ≤ radix level) ∧
      ∀ i < 16, 0 < partCount level i lo count →
        Fits level (parts i) (partLo level i lo) (partCount level i lo count) := by
  have rpos := radix_pos level
  unfold partCount partLo
  constructor
  · intro fits
    constructor
    · rintro ⟨block, small, free⟩
      have top := fits level (Nat.lt_succ_self level) 0 (Nat.dvd_zero _) (by omega)
        ⟨block, Blocks.within_iff.mpr (by omega), free⟩
      omega
    · intro i iInside some l less base aligned node
      rintro ⟨block, member, free⟩
      have divides : radix (l + 1) ∣ i * radix level :=
        Nat.dvd_mul_left_of_dvd (radix_dvd (by omega)) i
      rw [Blocks.within_iff] at member
      have upper := Nat.mul_le_mul_right (radix level) (Nat.succ_le_of_lt iInside)
      rw [Nat.succ_mul] at upper some ⊢
      rw [radix_succ level] at inside
      have found := fits l (by omega) (i * radix level + base) (Nat.dvd_add divides aligned)
        (by rw [radix_succ level]; omega)
        ⟨i * radix level + block, Blocks.within_iff.mpr (by omega), by
          rwa [Blocks.tile_apply _ _ (by omega)]⟩
      omega
  · rintro ⟨top, nodes⟩ l less base aligned node ⟨block, member, free⟩
    rw [Blocks.within_iff] at member
    by_cases isTop : l = level
    · subst isTop
      have holds := top ⟨block, by omega, free⟩
      omega
    · have split := Nat.div_add_mod base (radix level)
      have rest := Nat.mod_lt base rpos
      have divides : radix (l + 1) ∣ radix level := radix_dvd (by omega)
      have alignedRest : radix (l + 1) ∣ base % radix level := (Nat.dvd_mod_iff divides).mpr aligned
      have fits := Blocks.add_le_of_dvd alignedRest divides rest
      have iInside : base / radix level < 16 := by
        have positive := radix_pos (l + 1)
        rw [Nat.div_lt_iff_lt_mul rpos, ← radix_succ]
        omega
      have inPart : parts (base / radix level) (block - radix level * (base / radix level)) = true := by
        have place : block = base / radix level * radix level +
            (block - radix level * (base / radix level)) := by
          rw [Nat.mul_comm]
          omega
        rwa [place, Blocks.tile_apply _ _ (by omega)] at free
      have this := nodes (base / radix level) iInside
      rw [Nat.succ_mul, Nat.mul_comm (base / radix level)] at this
      generalize radix level * (base / radix level) = front at *
      by_cases some : 0 < min (lo + count) (front + radix level) - max lo front
      · have found := this some l (by omega) (base % radix level) alignedRest fits
          ⟨block - front, Blocks.within_iff.mpr (by omega), inPart⟩
        omega
      · omega

/-! ## The loop -/

/-- The parts of the range in the nodes below, from number `i` on, fit. -/
def PartsFit (scan : Tree (level + 1)) (i lo count : Nat) : Prop :=
  ∀ j, i ≤ j → j < 16 → 0 < partCount level j lo count →
    Fits level (partsOf (freeBlocks level) (Meta.child scan) j) (partLo level j lo)
      (partCount level j lo count)

/-- What the loop over the nodes below does. -/
def LoopFills (limit : Nat) (scan : Tree (level + 1)) (lo count nblks : Nat)
    (outcome : Outcome (Nat × Tree (level + 1))) : Prop :=
  ∃ filled after, outcome = .done (nblks + filled, after) ∧ Opened limit after ∧
    below after = Blocks.without (below scan) lo count ∧
    filled + Blocks.size (below after) (radix (level + 1)) =
      Blocks.size (below scan) (radix (level + 1)) ∧
    Meta.avail after = Meta.avail scan ∧ Meta.bighint after = Meta.bighint scan

/-- The loop fills the range if all its parts fit, and it panics otherwise. -/
theorem fillLoop_spec {perform : Tree level → Nat → Nat → Nat → Outcome (Nat × Tree level)}
    (spec : ∀ {limit blk fillBlk count : Nat} {node : Tree level}, Ok level limit node →
      radix level ∣ blk → blk ≤ fillBlk → fillBlk - blk + count ≤ radix level →
      fillBlk - blk + count ≤ limit → 0 < count →
      (Fits level (freeBlocks level node) (fillBlk - blk) count →
        Fills level limit node (fillBlk - blk) count (perform node fillBlk count blk)) ∧
      (¬Fits level (freeBlocks level node) (fillBlk - blk) count →
        perform node fillBlk count blk = .panic))
    (aligned : radix (level + 1) ∣ blk) (fuel : Nat) {i lo count nblks : Nat} (all : i + fuel = 16)
    {scan : Tree (level + 1)} (opened : Opened limit scan) (stands : Stands level i lo count)
    (inside : lo + count ≤ radix (level + 1)) (small : lo + count ≤ limit) :
    (PartsFit scan i lo count → LoopFills limit scan lo count nblks
      (fillLoop level perform fuel i (blk + i * radix level) (blk + lo) count nblks scan)) ∧
    (¬PartsFit scan i lo count →
      fillLoop level perform fuel i (blk + i * radix level) (blk + lo) count nblks scan = .panic) := by
  induction fuel generalizing i lo count nblks scan with
  | zero =>
      constructor
      · intro _
        refine ⟨0, scan, rfl, opened, ?_, Nat.zero_add _, rfl, rfl⟩
        obtain ⟨none, -⟩ | ⟨some, from_, -⟩ := stands
        · rw [none, Blocks.without_zero]
        · rw [radix_succ] at inside
          obtain rfl : i = 16 := by omega
          omega
      · intro misfit
        refine (misfit fun j late jInside => ?_).elim
        omega
  | succ fuel ih =>
      have iInside : i < 16 := by omega
      have next : blk + i * radix level + radix level = blk + (i + 1) * radix level := by
        rw [Nat.succ_mul]
        omega
      rw [fillLoop]
      by_cases some : 0 < count
      · have start : i * radix level ≤ lo ∧ lo < (i + 1) * radix level := by
          unfold Stands at stands
          omega
        obtain ⟨atMost, vPositive, fits, standsNext⟩ := stands.next some rfl
        have partIs : partLo level i lo = lo - i * radix level ∧
            partCount level i lo count = min ((i + 1) * radix level - lo) count := by
          unfold partLo partCount
          omega
        generalize vIs : min ((i + 1) * radix level - lo) count = v at *
        have v' : min (blk + i * radix level + radix level - (blk + lo)) count = v := by
          rw [next, ← vIs]
          congr 1
          omega
        obtain ⟨node, present, -⟩ := (opened.shape i iInside).2 (by omega)
        have okNode := opened.nodes i iInside node present
        rw [if_pos (by omega)]
        simp only [v', present]
        have place : blk + lo - (blk + i * radix level) = lo - i * radix level := by omega
        have alignedNode : radix level ∣ blk + i * radix level := by
          rw [radix_succ] at aligned
          exact Nat.dvd_add (Nat.dvd_trans (Nat.dvd_mul_left (radix level) 16) aligned)
            (Nat.dvd_mul_left _ i)
        have late : blk + i * radix level ≤ blk + lo := by omega
        have limited : lo - i * radix level + v ≤ limit - i * radix level := by omega
        rw [← place] at fits limited
        obtain ⟨fine, bad⟩ := spec okNode alignedNode late fits limited vPositive
        rw [place] at fine bad fits
        -- the parts of the range in the nodes behind
        have others : ∀ j, i + 1 ≤ j → partLo level j (lo + v) = partLo level j lo ∧
            partCount level j (lo + v) (count - v) = partCount level j lo count := by
          intro j later
          have further := Nat.mul_le_mul_right (radix level) later
          have inNode : lo + v ≤ (i + 1) * radix level := by
            rw [Nat.succ_mul]
            omega
          unfold partLo partCount
          omega
        by_cases fitsHere : Fits level (freeBlocks level node) (lo - i * radix level) v
        · obtain ⟨filled, found, is, okFound, removed, counted⟩ := fine fitsHere
          obtain ⟨openedAfter, belowAfter⟩ :
              Opened limit (Meta.setChild scan i found) ∧ below (Meta.setChild scan i found) = _ :=
            opened.setChild iInside present okFound rfl
          have size : Blocks.size (below (Meta.setChild scan i found)) (radix (level + 1)) + filled =
              Blocks.size (below scan) (radix (level + 1)) := by
            have change := @Blocks.size_tile_update (radix level)
              (partsOf (freeBlocks level) (Meta.child scan)) i 16 iInside (freeBlocks level found)
            rw [← belowAfter, partsOf_some iInside present, ← radix_succ, ← below_eq] at change
            omega
          rw [removed, ← partsOf_some iInside present, ← Blocks.without_tile _ fits (radix_pos level),
            ← below_eq, Nat.add_sub_cancel' start.1] at belowAfter
          have kept : ∀ j, j ≠ i → partsOf (freeBlocks level) (Meta.child (Meta.setChild scan i found)) j =
              partsOf (freeBlocks level) (Meta.child scan) j := by
            intro j other
            have same : Meta.child (Meta.setChild scan i found) j = Meta.child scan j :=
              Function.update_of_ne other ..
            rw [partsOf, same, ← partsOf]
          have restIff : PartsFit scan i lo count ↔
              PartsFit (Meta.setChild scan i found) (i + 1) (lo + v) (count - v) := by
            constructor
            · intro fit j later jInside part
              obtain ⟨sameLo, sameCount⟩ := others j later
              rw [sameCount] at part
              rw [sameLo, sameCount, kept j (by omega)]
              exact fit j (by omega) jInside part
            · intro fit j later jInside part
              by_cases here : j = i
              · rw [here, partIs.1, partIs.2, partsOf_some iInside present]
                exact fitsHere
              · obtain ⟨sameLo, sameCount⟩ := others j (by omega)
                have other := fit j (by omega) jInside (by rwa [sameCount])
                rwa [sameLo, sameCount, kept j here] at other
          have left : i + 1 + fuel = 16 := by omega
          obtain ⟨fineRest, badRest⟩ :
              (PartsFit (Meta.setChild scan i found) (i + 1) (lo + v) (count - v) →
                LoopFills limit (Meta.setChild scan i found) (lo + v) (count - v) (nblks + filled) _) ∧ _ :=
            ih left openedAfter standsNext (by omega) (by omega)
          rw [is, restIff, next, Nat.add_assoc blk lo v]
          refine ⟨fun fit => ?_, fun misfit => badRest misfit⟩
          obtain ⟨more, after, loopIs, openedLast, belowLast, sizeLast, avail, hint⟩ := fineRest fit
          refine ⟨filled + more, after, ?_, openedLast, ?_, by omega, avail, hint⟩
          · refine loopIs.trans ?_
            rw [Nat.add_assoc]
          · rw [belowLast, belowAfter, Blocks.without_add, Nat.add_sub_cancel' atMost]
        · rw [bad fitsHere]
          refine ⟨fun fit => (fitsHere ?_).elim, fun _ => rfl⟩
          have part := fit i (le_refl i) iInside (by rw [partIs.2]; exact vPositive)
          rwa [partIs.1, partIs.2, partsOf_some iInside present] at part
      · have done : ¬blk + i * radix level < blk + lo + count := by
          unfold Stands at stands
          omega
        rw [if_neg done]
        constructor
        · intro _
          refine ⟨0, scan, rfl, opened, ?_, Nat.zero_add _, rfl, rfl⟩
          rw [show count = 0 by omega, Blocks.without_zero]
        · intro misfit
          refine (misfit fun j late jInside part => ?_).elim
          unfold partCount at part
          omega

/-! ## Meta nodes -/

/-- A fill that covers a node as a whole, or of a node without a free block. -/
theorem fill_whole {scan : Tree (level + 1)} (ok : Ok (level + 1) limit scan) {lo : Nat}
    (inside : lo + count ≤ radix (level + 1))
    (whole : count = radix (level + 1) ∨ Meta.avail scan = 0) :
    Fills (level + 1) limit scan lo count
        (.done (Meta.avail scan, ({ scan with avail := 0, bighint := count } : Meta (Tree level)))) ∧
      Fits (level + 1) (freeBlocks (level + 1) scan) lo count := by
  have counts := ok.live.1
  have nothing : ∀ after : Tree (level + 1), Meta.avail after = 0 →
      freeBlocks (level + 1) after = fun _ => false := fun after zero => if_pos zero
  have removed : Blocks.without (freeBlocks (level + 1) scan) lo count = fun _ => false := by
    funext block
    rw [Blocks.without]
    obtain isWhole | zero := whole
    · by_cases small : block < radix (level + 1)
      · rw [Blocks.within_iff.mpr (by omega), Bool.not_true, Bool.and_false]
      · rw [freeBlocks_of_ge scan (by omega), Bool.false_and]
    · rw [nothing scan zero, Bool.false_and]
  constructor
  · refine ⟨_, _, rfl, ⟨ok.shape, ⟨?_, ?_, fun some => (some rfl).elim⟩, ?_,
      fun some => (some rfl).elim⟩, ?_, ?_⟩
    · rw [nothing _ rfl, eq_comm]
      exact Blocks.size_eq_zero_iff.mpr fun _ _ => rfl
    · intro full
      have positive := radix_pos (level + 1)
      have zero : 0 = radix (level + 1) := full
      omega
    · exact covers_none (fun block => congrFun (nothing _ rfl) block) _
    · rw [nothing _ rfl, removed]
    · rw [nothing _ rfl, show Blocks.size (fun _ => false) (radix (level + 1)) = 0 from
        Blocks.size_eq_zero_iff.mpr fun _ _ => rfl]
      exact counts
  · intro l less base _ node some
    obtain isWhole | zero := whole
    · left
      omega
    · obtain ⟨block, -, free⟩ := some
      rw [nothing scan zero] at free
      cases free

/-- A fill marks exactly the blocks of the range, if it fits, and panics otherwise. -/
theorem fill_spec {scan : Tree level} (ok : Ok level limit scan) (aligned : radix level ∣ blk)
    (late : blk ≤ fillBlk) (inside : fillBlk - blk + count ≤ radix level)
    (small : fillBlk - blk + count ≤ limit) (positive : 0 < count) :
    (Fits level (freeBlocks level scan) (fillBlk - blk) count →
      Fills level limit scan (fillBlk - blk) count (fill level scan fillBlk count blk)) ∧
    (¬Fits level (freeBlocks level scan) (fillBlk - blk) count →
      fill level scan fillBlk count blk = .panic) := by
  induction level generalizing limit blk fillBlk count with
  | zero =>
      refine ⟨fun _ => leafFill_spec ok aligned late inside positive, fun misfit => ?_⟩
      exact (misfit fun l less => by omega).elim
  | succ level ih =>
      obtain ⟨lo, rfl⟩ : ∃ lo, fillBlk = blk + lo := ⟨fillBlk - blk, by omega⟩
      rw [Nat.add_sub_cancel_left] at *
      rw [fill, metaFill]
      by_cases whole : count = radix (level + 1) ∨ Meta.avail scan = 0
      · rw [if_pos whole]
        obtain ⟨fills, fits⟩ := fill_whole ok inside whole
        exact ⟨fun _ => fills, fun misfit => (misfit fits).elim⟩
      · rw [if_neg whole]
        push Not at whole
        obtain ⟨opened, same⟩ := ok.openFree whole.2
        have counts := ok.live.1
        have someFree : ∃ block < radix (level + 1), freeBlocks (level + 1) scan block = true :=
          Blocks.size_pos_iff.mp (by omega)
        have fitsIff := @fits_tile_iff level count
          (partsOf (freeBlocks level) (Meta.child (openFree scan))) lo inside
        rw [← below_eq, same] at fitsIff
        by_cases large : radix level < count
        · rw [if_pos large]
          refine ⟨fun fits => ?_, fun _ => rfl⟩
          have top := (fitsIff.mp fits).1 someFree
          omega
        · rw [if_neg large]
          simp only [Nat.add_sub_cancel_left]
          obtain ⟨first, stands⟩ := stands_first inside positive
          have isOpen : (if Meta.avail scan = radix (level + 1) then Meta.initialise scan (setFree level)
            else scan) = openFree scan := rfl
          rw [isOpen]
          obtain ⟨fine, bad⟩ :
              (PartsFit (openFree scan) (lo / radix level) lo count →
                LoopFills limit (openFree scan) lo count 0 _) ∧ _ :=
            fillLoop_spec (fun okNode => ih okNode) aligned (16 - lo / radix level) (by omega) opened
              stands inside small
          have partsIff : Fits (level + 1) (freeBlocks (level + 1) scan) lo count ↔
              PartsFit (openFree scan) (lo / radix level) lo count := by
            rw [fitsIff]
            constructor
            · rintro ⟨-, nodes⟩ j _ jInside part
              exact nodes j jInside part
            · intro fit
              refine ⟨fun _ => .inr (by omega), fun j jInside part => fit j ?_ jInside part⟩
              unfold partCount at part
              have before : lo < (j + 1) * radix level := by omega
              exact Nat.le_of_lt_succ ((Nat.div_lt_iff_lt_mul (radix_pos level)).mpr before)
          rw [partsIff]
          constructor
          · intro fit
            obtain ⟨filled, after, is, openedAfter, belowAfter, sizeAfter, avail, hint⟩ := fine fit
            rw [same] at belowAfter sizeAfter
            have availOpen : Meta.avail (openFree scan) = Meta.avail scan := by
              unfold openFree
              split <;> rfl
            have hintOpen : Meta.bighint (openFree scan) = Meta.bighint scan := by
              unfold openFree
              split <;> rfl
            rw [availOpen] at avail
            rw [hintOpen] at hint
            rw [is, Nat.zero_add]
            have countsAfter : Meta.avail after - filled =
                Blocks.size (below after) (radix (level + 1)) := by omega
            have coversAfter : Covers (below after) (Meta.bighint after) := by
              rw [hint, belowAfter]
              exact ok.hinted.1.mono (fun _ member => Blocks.without_le member) (le_refl _)
            obtain ⟨okAfter, sameAfter⟩ := openedAfter.close_with countsAfter coversAfter
            refine ⟨filled, _, rfl, okAfter, sameAfter.trans belowAfter, ?_⟩
            rw [sameAfter]
            exact sizeAfter
          · intro misfit
            rw [bad misfit]
            rfl

end Dragonfly.Kern.Blist
