import Dragonfly.Kern.Alist.Model

/-!
# Trees as sets of free blocks

The free blocks of a tree, and the invariant of a tree: every pair of a bitmap that is
not stale says exactly which of the blocks below are free.  `limit` is the number of
blocks that the tree manages; a tree has nodes below for these only.
-/

namespace Dragonfly.Kern.Alist

open Dragonfly.Lib Dragonfly.Lib.Bitmap Dragonfly.Lib.Radix

/-- The free blocks below a pair of the bitmap of a meta node. -/
def view {α : Type} (radix : Nat) (freeBlocks : α → Nat → Bool) (pair : Pair) (child : Option α) :
    Nat → Bool :=
  match pair, child with
  | .free, _ => fun block => decide (block < radix)
  | .partly, some child => freeBlocks child
  | _, _ => fun _ => false

/-- The free blocks of a tree. -/
def freeBlocks : (level : Nat) → Tree level → Nat → Bool
  | 0, scan => blocks (Leaf.bitmap scan)
  | level + 1, scan => Blocks.tile (radix level) fun i =>
      if i < 16 then view (radix level) (freeBlocks level) (Meta.bitmap scan i) (Meta.child scan i)
      else fun _ => false

/-- The nodes of a tree are there exactly where it has blocks, and their hints are
bounded; this holds of stale nodes too. -/
def Shape : (level : Nat) → Nat → Tree level → Prop
  | 0, _, scan => Leaf.bighint scan ≤ radix 0
  | level + 1, limit, scan => Meta.bighint scan ≤ radix (level + 1) ∧ ∀ i < 16,
      (limit ≤ i * radix level → Meta.child scan i = none) ∧
      (i * radix level < limit → ∃ child, Meta.child scan i = some child ∧
        Shape level (limit - i * radix level) child)

/-- A pair of a bitmap is right about the blocks below. -/
def PairOk {α : Type} (radix limit i : Nat) (live : Nat → α → Prop) (freeBlocks : α → Nat → Bool)
    (pair : Pair) (child : Option α) : Prop :=
  match pair with
  | .allocated => True
  | .reserved => False
  | .free => (i + 1) * radix ≤ limit
  | .partly => ∃ node, child = some node ∧ live (limit - i * radix) node ∧
      (∃ block < radix, freeBlocks node block = true) ∧ ∃ block < radix, freeBlocks node block = false

/-- The pairs of all bitmaps that are not stale are right. -/
def Live : (level : Nat) → Nat → Tree level → Prop
  | 0, limit, scan => ∀ block, limit ≤ block → blocks (Leaf.bitmap scan) block = false
  | level + 1, limit, scan => ∀ i < 16,
      PairOk (radix level) limit i (Live level) (freeBlocks level) (Meta.bitmap scan i)
        (Meta.child scan i)

/-- The invariant of a tree. -/
structure Ok (level limit : Nat) (scan : Tree level) : Prop where
  shape : Shape level limit scan
  live : Live level limit scan

section View

variable {α : Type} (radix : Nat) (freeBlocks : α → Nat → Bool)

@[simp]
theorem view_allocated (child : Option α) :
    view radix freeBlocks .allocated child = fun _ => false := by
  cases child <;> rfl

@[simp]
theorem view_free (child : Option α) :
    view radix freeBlocks .free child = fun block => decide (block < radix) := rfl

theorem view_free_apply (child : Option α) (block : Nat) :
    view radix freeBlocks .free child block = decide (block < radix) := rfl

@[simp]
theorem view_partly (child : α) : view radix freeBlocks .partly (some child) = freeBlocks child := rfl

end View

variable {level limit : Nat}

/-- Part of the tree of a meta node. -/
theorem freeBlocks_meta (scan : Tree (level + 1)) {i offset : Nat} (inside : i < 16)
    (small : offset < radix level) :
    freeBlocks (level + 1) scan (i * radix level + offset) =
      view (radix level) (freeBlocks level) (Meta.bitmap scan i) (Meta.child scan i) offset := by
  rw [freeBlocks, Blocks.tile_apply _ _ small, if_pos inside]

/-- There are no free blocks above the radix. -/
theorem freeBlocks_of_ge (scan : Tree level) {block : Nat} (large : radix level ≤ block) :
    freeBlocks level scan block = false := by
  cases level with
  | zero => exact blocks_eq_false large
  | succ level =>
      have outside : ¬block / radix level < 16 := by
        rw [Nat.div_lt_iff_lt_mul (radix_pos level), ← radix_succ]
        omega
      rw [freeBlocks, Blocks.tile, if_neg outside]

/-- There are no free blocks above the limit. -/
theorem Live.freeBlocks_of_ge {scan : Tree level} (live : Live level limit scan) {block : Nat}
    (large : limit ≤ block) : freeBlocks level scan block = false := by
  induction level generalizing limit block with
  | zero => exact live block large
  | succ level ih =>
      by_cases small : block < radix (level + 1)
      · obtain ⟨i, inside, offset, offsetSmall, rfl⟩ := split_block small
        have pair := live i inside
        rw [freeBlocks_meta _ inside offsetSmall]
        cases is : Meta.bitmap scan i with
        | allocated => rw [view_allocated]
        | reserved =>
            rw [is] at pair
            exact pair.elim
        | free =>
            rw [is] at pair
            have full : (i + 1) * radix level ≤ limit := pair
            rw [Nat.succ_mul] at full
            omega
        | partly =>
            rw [is] at pair
            obtain ⟨node, child, liveNode, -⟩ := pair
            rw [child, view_partly]
            exact ih liveNode (by omega)
      · exact Alist.freeBlocks_of_ge scan (by omega)

/-- `bm_bitmap == 0` says that all blocks are allocated. -/
theorem Live.isZero_iff {scan : Tree level} (live : Live level limit scan) :
    isZero level scan = true ↔ ∀ block < radix level, freeBlocks level scan block = false := by
  cases level with
  | zero => exact decide_eq_true_iff.trans eq_zero_iff
  | succ level =>
      simp only [isZero, Meta.all, List.all_eq_true, List.mem_range, decide_eq_true_eq]
      constructor
      · intro all block small
        obtain ⟨i, inside, offset, offsetSmall, rfl⟩ := split_block small
        rw [freeBlocks_meta _ inside offsetSmall, all i inside, view_allocated]
      · intro none i inside
        have pair := live i inside
        have below : ∀ offset < radix level,
            view (radix level) (freeBlocks level) (Meta.bitmap scan i) (Meta.child scan i) offset = false := by
          intro offset small
          rw [← freeBlocks_meta _ inside small]
          exact none _ (block_lt inside small)
        cases is : Meta.bitmap scan i with
        | allocated => rfl
        | reserved =>
            rw [is] at pair
            exact pair.elim
        | free =>
            have first := below 0 (radix_pos level)
            simp [is, radix_pos] at first
        | partly =>
            rw [is] at pair below
            obtain ⟨node, child, -, ⟨block, small, set⟩, -⟩ := pair
            have unset := below block small
            rw [child, view_partly, set] at unset
            cases unset

/-- `bm_bitmap == -1` says that all blocks are free. -/
theorem Live.isOnes_iff {scan : Tree level} (live : Live level limit scan) :
    isOnes level scan = true ↔ ∀ block < radix level, freeBlocks level scan block = true := by
  cases level with
  | zero => exact decide_eq_true_iff.trans eq_ones_iff
  | succ level =>
      simp only [isOnes, Meta.all, List.all_eq_true, List.mem_range, decide_eq_true_eq]
      constructor
      · intro all block small
        obtain ⟨i, inside, offset, offsetSmall, rfl⟩ := split_block small
        rw [freeBlocks_meta _ inside offsetSmall, all i inside, view_free]
        exact decide_eq_true offsetSmall
      · intro full i inside
        have pair := live i inside
        have below : ∀ offset < radix level,
            view (radix level) (freeBlocks level) (Meta.bitmap scan i) (Meta.child scan i) offset = true := by
          intro offset small
          rw [← freeBlocks_meta _ inside small]
          exact full _ (block_lt inside small)
        cases is : Meta.bitmap scan i with
        | free => rfl
        | reserved =>
            rw [is] at pair
            exact pair.elim
        | allocated =>
            have first := below 0 (radix_pos level)
            simp [is] at first
        | partly =>
            rw [is] at pair below
            obtain ⟨node, child, -, -, ⟨block, small, unset⟩⟩ := pair
            have set := below block small
            rw [child, view_partly, unset] at set
            cases set

/-! ## Writing a node below -/

/-- The free blocks of the nodes below. -/
def parts (scan : Tree (level + 1)) (i : Nat) : Nat → Bool :=
  if i < 16 then view (radix level) (freeBlocks level) (Meta.bitmap scan i) (Meta.child scan i)
  else fun _ => false

theorem freeBlocks_eq (scan : Tree (level + 1)) :
    freeBlocks (level + 1) scan = Blocks.tile (radix level) (parts scan) := rfl

/-- Write the hint of a meta node. -/
def setHint (scan : Tree (level + 1)) (hint : Nat) : Tree (level + 1) :=
  ({ scan with bighint := hint } : Meta (Tree level))

/-- Write a node below and its pair. -/
def put (scan : Tree (level + 1)) (i : Nat) (pair : Pair) (node : Tree level) : Tree (level + 1) :=
  (Meta.setChild scan i node).setPair i pair

theorem setChild_eq_put (scan : Tree (level + 1)) (i : Nat) (node : Tree level) :
    Meta.setChild scan i node = put scan i (Meta.bitmap scan i) node := by
  simp only [put, Meta.setPair, Meta.setChild, Function.update_eq_self]

theorem freeBlocks_setHint (scan : Tree (level + 1)) (hint : Nat) :
    freeBlocks (level + 1) (setHint scan hint) = freeBlocks (level + 1) scan := rfl

theorem Ok.setHint {scan : Tree (level + 1)} (ok : Ok (level + 1) limit scan) {hint : Nat}
    (bounded : hint ≤ radix (level + 1)) : Ok (level + 1) limit (setHint scan hint) :=
  ⟨⟨bounded, ok.shape.2⟩, ok.live⟩

/-- The node below is there. -/
theorem Ok.child {scan : Tree (level + 1)} (ok : Ok (level + 1) limit scan) {i : Nat} (inside : i < 16)
    {node : Tree level} (present : Meta.child scan i = some node) :
    i * radix level < limit ∧ Shape level (limit - i * radix level) node := by
  obtain ⟨absent, found⟩ := ok.shape.2 i inside
  have below : i * radix level < limit := by
    by_contra above
    rw [absent (by omega)] at present
    cases present
  obtain ⟨other, same, shape⟩ := found below
  rw [present] at same
  cases same
  exact ⟨below, shape⟩

theorem parts_put (scan : Tree (level + 1)) {i : Nat} (inside : i < 16) (pair : Pair)
    (node : Tree level) :
    parts (put scan i pair node) =
      Function.update (parts scan) i (view (radix level) (freeBlocks level) pair (some node)) := by
  funext k
  by_cases same : k = i
  · subst same
    simp [parts, put, Meta.setPair, Meta.setChild, inside]
  · simp [parts, put, Meta.setPair, Meta.setChild, same]

/-- Writing a node below keeps the invariant, if the pair is right about it. -/
theorem Ok.put {scan : Tree (level + 1)} (ok : Ok (level + 1) limit scan) {i : Nat} (inside : i < 16)
    {old node : Tree level} {pair : Pair} (present : Meta.child scan i = some old)
    (shape : Shape level (limit - i * radix level) node)
    (right : PairOk (radix level) limit i (Live level) (freeBlocks level) pair (some node)) :
    Ok (level + 1) limit (put scan i pair node) := by
  have below := (ok.child inside present).1
  refine ⟨⟨ok.shape.1, ?_⟩, ?_⟩
  · intro k kInside
    by_cases same : k = i
    · subst same
      refine ⟨fun above => by omega, fun _ => ⟨node, ?_, shape⟩⟩
      simp [Alist.put, Meta.setPair, Meta.setChild]
    · have others := ok.shape.2 k kInside
      simpa [Alist.put, Meta.setPair, Meta.setChild, same] using others
  · intro k kInside
    by_cases same : k = i
    · subst same
      simpa [Alist.put, Meta.setPair, Meta.setChild] using right
    · have others := ok.live k kInside
      simpa [Alist.put, Meta.setPair, Meta.setChild, same] using others

/-! ## Nodes that are initialised -/

theorem setFree_ok {scan : Tree level} (shape : Shape level limit scan) (full : radix level ≤ limit) :
    Ok level limit (setFree level scan) := by
  cases level with
  | zero =>
      refine ⟨le_refl (radix 0), ?_⟩
      intro block large
      exact blocks_eq_false (Nat.le_trans full large)
  | succ level =>
      refine ⟨⟨le_refl (radix (level + 1)), shape.2⟩, ?_⟩
      intro i inside
      have covered := Nat.mul_le_mul_right (radix level) (Nat.succ_le_of_lt inside)
      rw [radix_succ] at full
      exact covered.trans full

theorem freeBlocks_setFree (scan : Tree level) :
    freeBlocks level (setFree level scan) = fun block => decide (block < radix level) := by
  funext block
  by_cases small : block < radix level
  · rw [decide_eq_true small]
    cases level with
    | zero => exact (blocks_ones block).trans (decide_eq_true small)
    | succ level =>
        obtain ⟨i, inside, offset, offsetSmall, rfl⟩ := split_block small
        rw [freeBlocks_meta _ inside offsetSmall]
        exact decide_eq_true offsetSmall
  · rw [decide_eq_false small]
    exact freeBlocks_of_ge _ (by omega)

theorem setAllocated_ok {scan : Tree level} (shape : Shape level limit scan) :
    Ok level limit (setAllocated level scan) := by
  cases level with
  | zero =>
      refine ⟨Nat.zero_le _, ?_⟩
      intro block _
      exact blocks_zero block
  | succ level => exact ⟨⟨Nat.zero_le _, shape.2⟩, fun i _ => trivial⟩

theorem freeBlocks_setAllocated (scan : Tree level) :
    freeBlocks level (setAllocated level scan) = fun _ => false := by
  funext block
  by_cases small : block < radix level
  · cases level with
    | zero => exact blocks_zero block
    | succ level =>
        obtain ⟨i, inside, offset, offsetSmall, rfl⟩ := split_block small
        rw [freeBlocks_meta _ inside offsetSmall]
        exact congrFun (view_allocated _ _ _) offset
  · exact freeBlocks_of_ge _ (by omega)

end Dragonfly.Kern.Alist
