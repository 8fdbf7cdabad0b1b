import Dragonfly.Kern.Blist.Model

/-!
# Trees as sets of free blocks

The free blocks of a tree, and the invariant of a tree: the numbers of free blocks of all
nodes that are not stale are right.  An operation opens a node, which initialises the
nodes below if they are stale, writes some of them, and closes the node again.
-/

namespace Dragonfly.Kern.Blist

open Dragonfly.Lib Dragonfly.Lib.Bitmap Dragonfly.Lib.Radix

variable {level limit : Nat}

/-- The free blocks of the nodes below, as the nodes below have them. -/
def partsOf {α : Type} (freeBlocks : α → Nat → Bool) (child : Nat → Option α) (i : Nat) : Nat → Bool :=
  if i < 16 then
    match child i with
    | some node => freeBlocks node
    | none => fun _ => false
  else fun _ => false

/-- The free blocks of a tree. -/
def freeBlocks : (level : Nat) → Tree level → Nat → Bool
  | 0, scan => blocks (Leaf.bitmap scan)
  | level + 1, scan =>
      if Meta.avail scan = 0 then fun _ => false
      else if Meta.avail scan = radix (level + 1) then fun block => decide (block < radix (level + 1))
      else Blocks.tile (radix level) (partsOf (freeBlocks level) (Meta.child scan))

/-- The free blocks below a node, whatever its number of free blocks says. -/
def below (scan : Tree (level + 1)) : Nat → Bool :=
  Blocks.tile (radix level) (partsOf (freeBlocks level) (Meta.child scan))

/-- The nodes of a tree are there exactly where it has blocks; this holds of stale nodes
too. -/
def Shape : (level : Nat) → Nat → Tree level → Prop
  | 0, _, _ => True
  | level + 1, limit, scan => ∀ i < 16,
      (limit ≤ i * radix level → Meta.child scan i = none) ∧
      (i * radix level < limit → ∃ child, Meta.child scan i = some child ∧
        Shape level (limit - i * radix level) child)

/-- The numbers of free blocks of all nodes that are not stale are right. -/
def Live : (level : Nat) → Nat → Tree level → Prop
  | 0, limit, scan => ∀ block, limit ≤ block → blocks (Leaf.bitmap scan) block = false
  | level + 1, limit, scan =>
      Meta.avail scan = Blocks.size (freeBlocks (level + 1) scan) (radix (level + 1)) ∧
      (Meta.avail scan = radix (level + 1) → radix (level + 1) ≤ limit) ∧
      (Meta.avail scan ≠ 0 → Meta.avail scan ≠ radix (level + 1) → ∀ i < 16, ∀ child,
        Meta.child scan i = some child → Live level (limit - i * radix level) child)

/-- No run of free blocks in one leaf is longer than the hint. -/
def Covers (free : Nat → Bool) (hint : Nat) : Prop :=
  ∀ lo count, lo % 32 + count ≤ 32 → Blocks.FreeRun free lo count → count ≤ hint

/-- The law of the hints, for all nodes that are not stale. -/
def Hinted : (level : Nat) → Tree level → Prop
  | 0, scan => Covers (blocks (Leaf.bitmap scan)) (Leaf.bighint scan)
  | level + 1, scan => Covers (freeBlocks (level + 1) scan) (Meta.bighint scan) ∧
      (Meta.avail scan ≠ 0 → Meta.avail scan ≠ radix (level + 1) → ∀ i < 16, ∀ child,
        Meta.child scan i = some child → Hinted level child)

/-- The invariant of a tree. -/
structure Ok (level limit : Nat) (scan : Tree level) : Prop where
  shape : Shape level limit scan
  live : Live level limit scan
  hinted : Hinted level scan

/-- The nodes below a node are all there and right; its number of free blocks and its hint
need not be. -/
structure Opened (limit : Nat) (scan : Tree (level + 1)) : Prop where
  shape : Shape (level + 1) limit scan
  nodes : ∀ i < 16, ∀ child, Meta.child scan i = some child →
    Ok level (limit - i * radix level) child

/-! ## Free blocks -/

theorem freeBlocks_of_ge (scan : Tree level) {block : Nat} (large : radix level ≤ block) :
    freeBlocks level scan block = false := by
  cases level with
  | zero => exact blocks_eq_false large
  | succ level =>
      rw [freeBlocks]
      split
      · rfl
      · split
        · exact decide_eq_false (by omega)
        · have outside : ¬block / radix level < 16 := by
            rw [Nat.div_lt_iff_lt_mul (radix_pos level), ← radix_succ]
            omega
          rw [Blocks.tile, partsOf, if_neg outside]

theorem below_of_ge (scan : Tree (level + 1)) {block : Nat} (large : radix (level + 1) ≤ block) :
    below scan block = false := by
  have outside : ¬block / radix level < 16 := by
    rw [Nat.div_lt_iff_lt_mul (radix_pos level), ← radix_succ]
    omega
  rw [below, Blocks.tile, partsOf, if_neg outside]

/-- A block of a node below. -/
theorem below_apply {scan : Tree (level + 1)} {i : Nat} (inside : i < 16) {node : Tree level}
    (present : Meta.child scan i = some node) {block : Nat} (small : block < radix level) :
    below scan (i * radix level + block) = freeBlocks level node block := by
  rw [below, Blocks.tile_apply _ _ small, partsOf, if_pos inside, present]

/-- There are no free blocks above the limit. -/
theorem Live.freeBlocks_of_ge {scan : Tree level} (live : Live level limit scan) {block : Nat}
    (large : limit ≤ block) : freeBlocks level scan block = false := by
  induction level generalizing limit block with
  | zero => exact live block large
  | succ level ih =>
      by_cases small : block < radix (level + 1)
      · obtain ⟨-, full, nodes⟩ := live
        rw [freeBlocks]
        split
        · rfl
        · rename_i some
          split
          · rename_i all
            have covered := full all
            omega
          · rename_i notAll
            obtain ⟨i, inside, offset, offsetSmall, rfl⟩ := split_block small
            rw [Blocks.tile_apply _ _ offsetSmall, partsOf, if_pos inside]
            cases present : Meta.child scan i with
            | none => rfl
            | some node => exact ih (nodes some notAll i inside node present) (by omega)
      · exact Blist.freeBlocks_of_ge scan (by omega)

theorem Hinted.covers {scan : Tree level} (hinted : Hinted level scan) :
    Covers (freeBlocks level scan) (bighint level scan) := by
  cases level with
  | zero => exact hinted
  | succ level => exact hinted.1

/-! ## Hints -/

theorem Covers.mono {free other : Nat → Bool} {hint larger : Nat} (covers : Covers other hint)
    (fewer : ∀ block, free block = true → other block = true) (atLeast : hint ≤ larger) :
    Covers free larger :=
  fun lo count inLeaf run => (covers lo count inLeaf (run.mono fewer)).trans atLeast

/-- A hint of at least the size of a leaf is always right. -/
theorem covers_leaf (free : Nat → Bool) {hint : Nat} (large : 32 ≤ hint) : Covers free hint :=
  fun _ _ inLeaf _ => by omega

theorem covers_none {free : Nat → Bool} (none : ∀ block, free block = false) (hint : Nat) :
    Covers free hint := by
  intro lo count _ run
  by_contra above
  have first := run.first (show 0 < count by omega)
  rw [none lo] at first
  cases first

/-- A run is not longer than the number of free blocks. -/
theorem covers_size {free : Nat → Bool} {bound : Nat} (none : ∀ block, bound ≤ block → free block = false) :
    Covers free (Blocks.size free bound) := by
  intro lo count _ run
  by_cases empty : count = 0
  · omega
  · have inRange : lo + count ≤ bound := by
      by_contra above
      have last := run (lo + count - 1) (Blocks.within_iff.mpr (by omega))
      rw [none _ (by omega)] at last
      cases last
    have size := Blocks.size_without run inRange
    omega

/-! ## Opening and closing -/

/-- A node whose number of free blocks is right can be closed. -/
theorem Opened.close {scan : Tree (level + 1)} (opened : Opened limit scan)
    (counts : Meta.avail scan = Blocks.size (below scan) (radix (level + 1)))
    (covers : Covers (below scan) (Meta.bighint scan)) :
    Ok (level + 1) limit scan ∧ freeBlocks (level + 1) scan = below scan := by
  have same : freeBlocks (level + 1) scan = below scan := by
    rw [freeBlocks]
    split
    · rename_i none
      rw [none, eq_comm, Blocks.size_eq_zero_iff] at counts
      funext block
      by_cases small : block < radix (level + 1)
      · exact (counts block small).symm
      · exact (below_of_ge scan (by omega)).symm
    · split
      · rename_i all
        rw [all, eq_comm, Blocks.size_eq_bound_iff] at counts
        funext block
        by_cases small : block < radix (level + 1)
        · rw [decide_eq_true small, counts block small]
        · rw [decide_eq_false small, below_of_ge scan (by omega)]
      · rfl
  refine ⟨⟨opened.shape, ⟨?_, ?_, ?_⟩, ?_, ?_⟩, same⟩
  · rw [same]
    exact counts
  · intro all
    rw [all, eq_comm, Blocks.size_eq_bound_iff] at counts
    by_contra short
    have free := counts limit (by omega)
    obtain ⟨i, inside, offset, small, split⟩ := split_block (show limit < radix (level + 1) by omega)
    rw [split] at free
    cases present : Meta.child scan i with
    | none =>
        rw [below, Blocks.tile_apply _ _ small, partsOf, if_pos inside, present] at free
        cases free
    | some node =>
        rw [below_apply inside present small,
          (opened.nodes i inside node present).live.freeBlocks_of_ge (by omega)] at free
        cases free
  · intro _ _ i inside child present
    exact (opened.nodes i inside child present).live
  · rw [same]
    exact covers
  · intro _ _ i inside child present
    exact (opened.nodes i inside child present).hinted

/-- Closing a node with another number of free blocks and another hint. -/
theorem Opened.close_with {scan : Tree (level + 1)} (opened : Opened limit scan) {avail hint : Nat}
    (counts : avail = Blocks.size (below scan) (radix (level + 1))) (covers : Covers (below scan) hint) :
    Ok (level + 1) limit { scan with avail := avail, bighint := hint } ∧
      freeBlocks (level + 1) { scan with avail := avail, bighint := hint } = below scan :=
  Opened.close ⟨opened.shape, opened.nodes⟩ counts covers

theorem setFree_ok {scan : Tree level} (shape : Shape level limit scan) (full : radix level ≤ limit) :
    Ok level limit (setFree level scan) := by
  cases level with
  | zero =>
      refine ⟨trivial, ?_, covers_leaf _ (le_refl 32)⟩
      intro block large
      exact blocks_eq_false (Nat.le_trans full large)
  | succ level =>
      have positive := radix_pos (level + 1)
      have all : freeBlocks (level + 1) (setFree (level + 1) scan) =
          fun block => decide (block < radix (level + 1)) :=
        (if_neg positive.ne').trans (if_pos rfl)
      have large : 32 ≤ radix (level + 1) := leaf_le_radix (level + 1)
      refine ⟨shape, ⟨?_, fun _ => full, fun _ notAll => (notAll rfl).elim⟩, covers_leaf _ large,
        fun _ notAll => (notAll rfl).elim⟩
      rw [all, eq_comm]
      exact Blocks.size_eq_bound_iff.mpr fun block small => decide_eq_true small

theorem freeBlocks_setFree (scan : Tree level) :
    freeBlocks level (setFree level scan) = fun block => decide (block < radix level) := by
  cases level with
  | zero => exact funext fun block => blocks_ones block
  | succ level => exact (if_neg (radix_pos (level + 1)).ne').trans (if_pos rfl)

theorem freeBlocks_setAllocated (scan : Tree level) :
    freeBlocks level (setAllocated level scan) = fun _ => false := by
  cases level with
  | zero => exact funext fun block => blocks_zero block
  | succ level => exact if_pos rfl

theorem setAllocated_ok {scan : Tree level} (shape : Shape level limit scan) :
    Ok level limit (setAllocated level scan) := by
  have none := freeBlocks_setAllocated scan
  cases level with
  | zero => exact ⟨trivial, fun block _ => blocks_zero block, covers_none (congrFun none) 0⟩
  | succ level =>
      refine ⟨shape, ⟨?_, ?_, fun some => (some rfl).elim⟩, covers_none (congrFun none) 0,
        fun some => (some rfl).elim⟩
      · rw [none, eq_comm]
        exact Blocks.size_eq_zero_iff.mpr fun _ _ => rfl
      · intro isFull
        have positive := radix_pos (level + 1)
        have zero : (0 : Nat) = radix (level + 1) := isFull
        omega

section Initialise

variable {scan : Tree (level + 1)} {set : Tree level → Tree level}

/-- The nodes below after they are initialised. -/
theorem initialise_child {i : Nat} {node : Tree level}
    (present : Meta.child (Meta.initialise scan set) i = some node) :
    ∃ old, Meta.child scan i = some old ∧ node = set old := by
  have mapped : (Meta.child scan i).map set = some node := present
  rw [Option.map_eq_some_iff] at mapped
  obtain ⟨old, found, is⟩ := mapped
  exact ⟨old, found, is.symm⟩

theorem Shape.initialise (shape : Shape (level + 1) limit scan)
    (keeps : ∀ {limit : Nat} {node : Tree level}, Shape level limit node → Shape level limit (set node)) :
    Shape (level + 1) limit (Meta.initialise scan set) := by
  intro i inside
  obtain ⟨absent, present⟩ := shape i inside
  constructor
  · intro above
    show (Meta.child scan i).map set = none
    rw [absent above]
    rfl
  · intro small
    obtain ⟨node, found, shapeNode⟩ := present small
    refine ⟨set node, ?_, keeps shapeNode⟩
    show (Meta.child scan i).map set = some (set node)
    rw [found]
    rfl

end Initialise

/-- The node below has a place in the tree. -/
theorem Shape.child {scan : Tree (level + 1)} (shape : Shape (level + 1) limit scan) {i : Nat}
    (inside : i < 16) {node : Tree level} (present : Meta.child scan i = some node) :
    i * radix level < limit ∧ Shape level (limit - i * radix level) node := by
  obtain ⟨absent, found⟩ := shape i inside
  have small : i * radix level < limit := by
    by_contra above
    rw [absent (by omega)] at present
    cases present
  obtain ⟨other, same, shapeNode⟩ := found small
  rw [present] at same
  cases same
  exact ⟨small, shapeNode⟩

theorem setFree_shape {node : Tree level} (shape : Shape level limit node) :
    Shape level limit (setFree level node) := by
  cases level with
  | zero => trivial
  | succ level => exact shape

theorem setAllocated_shape {node : Tree level} (shape : Shape level limit node) :
    Shape level limit (setAllocated level node) := by
  cases level with
  | zero => trivial
  | succ level => exact shape

/-- A node that is neither all free nor all allocated is open. -/
theorem Ok.opened {scan : Tree (level + 1)} (ok : Ok (level + 1) limit scan)
    (some : Meta.avail scan ≠ 0) (notAll : Meta.avail scan ≠ radix (level + 1)) :
    Opened limit scan ∧ below scan = freeBlocks (level + 1) scan := by
  obtain ⟨-, -, nodes⟩ := ok.live
  refine ⟨⟨ok.shape, ?_⟩, ?_⟩
  · intro i inside child present
    exact ⟨(ok.shape.child inside present).2, nodes some notAll i inside child present,
      ok.hinted.2 some notAll i inside child present⟩
  · rw [freeBlocks, if_neg some, if_neg notAll, below]

/-- Opening a node for an allocation or a fill. -/
def openFree (scan : Tree (level + 1)) : Tree (level + 1) :=
  if Meta.avail scan = radix (level + 1) then Meta.initialise scan (setFree level) else scan

theorem Ok.openFree {scan : Tree (level + 1)} (ok : Ok (level + 1) limit scan)
    (some : Meta.avail scan ≠ 0) :
    Opened limit (Blist.openFree scan) ∧ below (Blist.openFree scan) = freeBlocks (level + 1) scan := by
  by_cases all : Meta.avail scan = radix (level + 1)
  · rw [freeBlocks, if_neg some, if_pos all, Blist.openFree, if_pos all]
    have covered := ok.live.2.1 all
    rw [radix_succ] at covered
    have shape := ok.shape.initialise fun shapeNode => setFree_shape shapeNode
    have nodeFits : ∀ i < 16, radix level ≤ limit - i * radix level := by
      intro i inside
      have upper := Nat.mul_le_mul_right (radix level) (Nat.succ_le_of_lt inside)
      rw [Nat.succ_mul] at upper
      omega
    refine ⟨⟨shape, ?_⟩, ?_⟩
    · intro i inside child present
      obtain ⟨old, found, rfl⟩ := initialise_child present
      exact setFree_ok (ok.shape.child inside found).2 (nodeFits i inside)
    · funext block
      by_cases small : block < radix (level + 1)
      · obtain ⟨i, inside, offset, offsetSmall, rfl⟩ := split_block small
        obtain ⟨node, present, -⟩ := (shape i inside).2 (by
          have fits := nodeFits i inside
          have positive := radix_pos level
          omega)
        obtain ⟨old, -, rfl⟩ := initialise_child present
        rw [below_apply inside present offsetSmall, freeBlocks_setFree, decide_eq_true small]
        exact decide_eq_true offsetSmall
      · rw [below_of_ge _ (by omega), decide_eq_false small]
  · rw [Blist.openFree, if_neg all]
    exact ok.opened some all

/-- Opening a node for a free. -/
def openAllocated (scan : Tree (level + 1)) : Tree (level + 1) :=
  if Meta.avail scan = 0 then Meta.initialise scan (setAllocated level) else scan

theorem Ok.openAllocated {scan : Tree (level + 1)} (ok : Ok (level + 1) limit scan)
    (notAll : Meta.avail scan ≠ radix (level + 1)) :
    Opened limit (Blist.openAllocated scan) ∧
      below (Blist.openAllocated scan) = freeBlocks (level + 1) scan := by
  by_cases none : Meta.avail scan = 0
  · rw [freeBlocks, if_pos none, Blist.openAllocated, if_pos none]
    have shape := ok.shape.initialise fun shapeNode => setAllocated_shape shapeNode
    refine ⟨⟨shape, ?_⟩, ?_⟩
    · intro i inside child present
      obtain ⟨old, found, rfl⟩ := initialise_child present
      exact setAllocated_ok (ok.shape.child inside found).2
    · funext block
      rw [below, Blocks.tile, partsOf]
      split
      · cases present : Meta.child (Meta.initialise scan (setAllocated level)) (block / radix level) with
        | none => rfl
        | some node =>
            obtain ⟨old, -, rfl⟩ := initialise_child present
            exact congrFun (freeBlocks_setAllocated old) _
      · rfl
  · rw [Blist.openAllocated, if_neg none]
    exact ok.opened none notAll

/-- An open node with other numbers. -/
theorem Opened.congr {scan after : Tree (level + 1)} (opened : Opened limit scan)
    (same : Meta.child after = Meta.child scan) : Opened limit after ∧ below after = below scan := by
  refine ⟨⟨?_, ?_⟩, ?_⟩
  · intro i inside
    rw [same]
    exact opened.shape i inside
  · intro i inside child present
    rw [same] at present
    exact opened.nodes i inside child present
  · rw [below, below, same]

/-! ## Writing a node below -/

/-- Writing a node below of an open node; its number of free blocks and its hint may
change too. -/
theorem Opened.setChild {scan after : Tree (level + 1)} (opened : Opened limit scan) {i : Nat}
    (inside : i < 16) {old node : Tree level} (present : Meta.child scan i = some old)
    (ok : Ok level (limit - i * radix level) node)
    (is : Meta.child after = Function.update (Meta.child scan) i (some node)) :
    Opened limit after ∧ below after = Blocks.tile (radix level)
      (Function.update (partsOf (freeBlocks level) (Meta.child scan)) i (freeBlocks level node)) := by
  have small := (opened.shape.child inside present).1
  refine ⟨⟨?_, ?_⟩, ?_⟩
  · intro k kInside
    rw [is]
    by_cases same : k = i
    · subst same
      refine ⟨fun above => by omega, fun _ => ⟨node, Function.update_self .., ok.shape⟩⟩
    · rw [Function.update_of_ne same]
      exact opened.shape k kInside
  · intro k kInside child found
    rw [is] at found
    by_cases same : k = i
    · subst same
      rw [Function.update_self] at found
      cases found
      exact ok
    · rw [Function.update_of_ne same] at found
      exact opened.nodes k kInside child found
  · rw [below, is]
    congr 1
    funext k
    by_cases same : k = i
    · subst same
      rw [partsOf, if_pos inside, Function.update_self, Function.update_self]
    · rw [partsOf, Function.update_of_ne same, Function.update_of_ne same, partsOf]

theorem below_eq (scan : Tree (level + 1)) :
    below scan = Blocks.tile (radix level) (partsOf (freeBlocks level) (Meta.child scan)) := rfl

theorem partsOf_some {scan : Tree (level + 1)} {i : Nat} (inside : i < 16) {node : Tree level}
    (present : Meta.child scan i = some node) :
    partsOf (freeBlocks level) (Meta.child scan) i = freeBlocks level node := by
  rw [partsOf, if_pos inside, present]

end Dragonfly.Kern.Blist
