import Dragonfly.Kern.Blist.Fill
import Dragonfly.Lib.Run

/-!
# The allocator as a set of free blocks

Allocations, frees and fills change the set of free blocks by exactly the blocks that they
name, in every run from the creation of the allocator on.
-/

namespace Dragonfly.Kern.Blist

open Dragonfly.Lib Dragonfly.Lib.Bitmap Dragonfly.Lib.Radix
open Dragonfly.Lib.Blocks (FreeRun Taken)

variable {level : Nat}

/-- The free blocks of an allocator. -/
def Head.freeBlocks (bl : Head level) : Nat → Bool := Blist.freeBlocks level bl.root

/-- The invariant of an allocator. -/
structure Head.Ok (bl : Head level) : Prop where
  root : Blist.Ok level bl.blocks bl.root
  fits : bl.blocks ≤ radix level
  counts : bl.free = Blocks.size bl.freeBlocks bl.blocks

variable {bl after : Head level} {count : Nat}

/-- The number of free blocks of the root. -/
theorem Head.Ok.size_eq (ok : bl.Ok) : Blocks.size bl.freeBlocks (radix level) = bl.free := by
  rw [ok.counts]
  exact Blocks.size_eq_of_none ok.fits fun block large => ok.root.live.freeBlocks_of_ge large

/-- What an allocation returns. -/
def Gives (bl : Head level) (count : Nat) (result : Option Nat) (after : Head level) : Prop :=
  match result with
  | some found => found % 32 + count ≤ 32 ∧ FreeRun bl.freeBlocks found count ∧
      after.freeBlocks = Blocks.without bl.freeBlocks found count
  | none => after.freeBlocks = bl.freeBlocks ∧ Missing bl.freeBlocks count

theorem blistAlloc_spec (ok : bl.Ok) (positive : 0 < count) (small : count ≤ 32) :
    ∃ result after, blistAlloc bl count = .done (result, after) ∧ after.Ok ∧
      after.blocks = bl.blocks ∧ Gives bl count result after := by
  obtain ⟨result, root, is, okRoot, answers⟩ := alloc_spec positive small ok.root 0
  rw [blistAlloc, is]
  cases result with
  | none =>
      obtain ⟨same, missing⟩ := answers
      refine ⟨none, { bl with root := root }, rfl, ⟨okRoot, ok.fits, ?_⟩, rfl, same, missing⟩
      show bl.free = Blocks.size (Blist.freeBlocks level root) bl.blocks
      rw [same]
      exact ok.counts
  | some found =>
      obtain ⟨offset, place, inLeaf, inside, wasFree, remains⟩ := answers
      rw [Nat.zero_add] at place
      subst place
      have below : found + count ≤ bl.blocks := by
        by_contra above
        have last := wasFree (found + count - 1) (Blocks.within_iff.mpr (by omega))
        rw [ok.root.live.freeBlocks_of_ge (by omega)] at last
        cases last
      have size := Blocks.size_without wasFree below
      refine ⟨some found, { bl with root := root, free := bl.free - count }, rfl,
        ⟨okRoot, ok.fits, ?_⟩, rfl, inLeaf, wasFree, remains⟩
      show bl.free - count = Blocks.size (Blist.freeBlocks level root) bl.blocks
      have counts : bl.free = Blocks.size (Blist.freeBlocks level bl.root) bl.blocks := ok.counts
      rw [remains]
      omega

theorem blistFree_spec (ok : bl.Ok) {blkno : Nat} (positive : 0 < count)
    (inside : blkno + count ≤ bl.blocks) (taken : Taken bl.freeBlocks blkno count) :
    ∃ after, blistFree bl blkno count = .done after ∧ after.Ok ∧ after.blocks = bl.blocks ∧
      after.freeBlocks = Blocks.adding bl.freeBlocks blkno count := by
  have fits := ok.fits
  obtain ⟨root, is, okRoot, added⟩ := free_spec ok.root (Nat.dvd_zero _) (Nat.zero_le blkno) (by omega)
    inside positive taken
  refine ⟨{ bl with root := root, free := bl.free + count }, ?_, ⟨okRoot, ok.fits, ?_⟩, rfl, added⟩
  · rw [blistFree, is]
    rfl
  · show bl.free + count = Blocks.size (Blist.freeBlocks level root) bl.blocks
    have size : Blocks.size (Blocks.adding (Blist.freeBlocks level bl.root) blkno count) bl.blocks =
        Blocks.size (Blist.freeBlocks level bl.root) bl.blocks + count :=
      Blocks.size_adding taken inside
    rw [added, Nat.sub_zero, size, ok.counts, Head.freeBlocks]

/-- A fill marks exactly the blocks of the range, or it panics. -/
theorem blistFill_spec (ok : bl.Ok) {blkno : Nat} (positive : 0 < count)
    (inside : blkno + count ≤ bl.blocks) :
    (Fits level bl.freeBlocks blkno count →
      ∃ filled after, blistFill bl blkno count = .done (filled, after) ∧ after.Ok ∧
        after.blocks = bl.blocks ∧
        filled = Blocks.size (fun block => bl.freeBlocks block && Blocks.within blkno count block)
          bl.blocks ∧
        after.freeBlocks = Blocks.without bl.freeBlocks blkno count ∧ after.free + filled = bl.free) ∧
    (¬Fits level bl.freeBlocks blkno count → blistFill bl blkno count = .panic) := by
  have fits := ok.fits
  obtain ⟨fine, bad⟩ := fill_spec ok.root (Nat.dvd_zero _) (Nat.zero_le blkno)
    (show blkno - 0 + count ≤ radix level by omega) inside positive
  constructor
  · intro fit
    obtain ⟨filled, root, is, okRoot, removed, counted⟩ := fine fit
    rw [Nat.sub_zero] at removed
    have sizeBefore := ok.size_eq
    have sizeAfter : Blocks.size (Blist.freeBlocks level root) (radix level) =
        Blocks.size (Blist.freeBlocks level root) bl.blocks :=
      Blocks.size_eq_of_none ok.fits fun block large => okRoot.live.freeBlocks_of_ge large
    have sizeNow : Blocks.size (Blist.freeBlocks level bl.root) (radix level) = bl.free := sizeBefore
    have split := Blocks.size_split (Blist.freeBlocks level bl.root) blkno count bl.blocks
    rw [← removed] at split
    have counts : bl.free = Blocks.size (Blist.freeBlocks level bl.root) bl.blocks := ok.counts
    refine ⟨filled, { bl with root := root, free := bl.free - filled }, ?_, ⟨okRoot, ok.fits, ?_⟩, rfl,
      ?_, removed, ?_⟩
    · rw [blistFill, is]
      rfl
    · show bl.free - filled = Blocks.size (Blist.freeBlocks level root) bl.blocks
      omega
    · show filled = Blocks.size
        (fun block => Blist.freeBlocks level bl.root block && Blocks.within blkno count block) bl.blocks
      omega
    · show bl.free - filled + filled = bl.free
      omega
  · intro misfit
    rw [blistFill, bad misfit]
    rfl

/-! ## Creation -/

/-- The shape of a tree does not depend on blocks behind its radix. -/
theorem Shape.congr {limit other : Nat} {scan : Tree level} (shape : Shape level limit scan)
    (same : min limit (radix level) = min other (radix level)) : Shape level other scan := by
  induction level generalizing limit other with
  | zero => trivial
  | succ level ih =>
      intro i inside
      have upper := Nat.mul_le_mul_right (radix level) (Nat.succ_le_of_lt inside)
      rw [Nat.succ_mul] at upper
      have positive := radix_pos level
      rw [radix_succ] at same
      obtain ⟨absent, present⟩ := shape i inside
      refine ⟨fun above => absent (by omega), fun below => ?_⟩
      obtain ⟨node, found, shapeNode⟩ := present (by omega)
      exact ⟨node, found, ih shapeNode (by omega)⟩

theorem radixInit_shape (level count : Nat) : Shape level count (radixInit level count) := by
  induction level generalizing count with
  | zero => trivial
  | succ level ih =>
      intro i inside
      constructor
      · intro above
        exact if_neg (by omega)
      · intro below
        exact ⟨_, if_pos below, (ih _).congr (by omega)⟩

theorem radixInit_freeBlocks (level count : Nat) :
    freeBlocks level (radixInit level count) = fun _ => false := by
  cases level with
  | zero => exact funext fun block => blocks_zero block
  | succ level => exact if_pos rfl

theorem radixInit_ok (level count : Nat) : Ok level count (radixInit level count) := by
  have isSet : radixInit level count = setAllocated level (radixInit level count) := by
    cases level <;> rfl
  rw [isSet]
  exact setAllocated_ok (radixInit_shape level count)

theorem create_ok {blocks : Nat} (small : blocks ≤ maxBlks) : (create blocks).Ok := by
  refine ⟨radixInit_ok _ _, (levelOf_spec small).1, ?_⟩
  show 0 = Blocks.size (freeBlocks _ (radixInit _ blocks)) blocks
  rw [radixInit_freeBlocks, eq_comm, Blocks.size_eq_zero_iff]
  exact fun _ _ => rfl

/-! ## Runs -/

/-- A call of the allocator. -/
inductive Call where
  | alloc (count : Nat)
  | free (blkno count : Nat)
  | fill (blkno count : Nat)

/-- A call that comes back.  At most 32 blocks are allocated at once, and frees are of
allocated blocks only. -/
inductive Move : Head level → Call → Head level → Prop where
  | alloc {bl after : Head level} {count : Nat} {result : Option Nat} (positive : 0 < count)
      (small : count ≤ 32) (is : blistAlloc bl count = .done (result, after)) :
      Move bl (.alloc count) after
  | free {bl after : Head level} {blkno count : Nat} (positive : 0 < count)
      (inside : blkno + count ≤ bl.blocks) (taken : Taken bl.freeBlocks blkno count)
      (is : blistFree bl blkno count = .done after) : Move bl (.free blkno count) after
  | fill {bl after : Head level} {blkno count filled : Nat} (positive : 0 < count)
      (inside : blkno + count ≤ bl.blocks) (is : blistFill bl blkno count = .done (filled, after)) :
      Move bl (.fill blkno count) after

/-- A call keeps the invariant. -/
theorem Head.Ok.move {call : Call} (ok : bl.Ok) (move : Move bl call after) : after.Ok := by
  cases move with
  | alloc positive small is =>
      obtain ⟨result, found, same, okFound, -⟩ := blistAlloc_spec ok positive small
      rw [same] at is
      cases is
      exact okFound
  | free positive inside taken is =>
      obtain ⟨found, same, okFound, -⟩ := blistFree_spec ok positive inside taken
      rw [same] at is
      cases is
      exact okFound
  | @fill _ blkno count filled positive inside is =>
      obtain ⟨fine, bad⟩ := blistFill_spec ok positive inside
      by_cases fits : Fits level bl.freeBlocks blkno count
      · obtain ⟨_, found, same, okFound, -⟩ := fine fits
        rw [same] at is
        cases is
        exact okFound
      · rw [bad fits] at is
        cases is

/-- `bmu_avail` of every meta node that is not stale is the number of free blocks below. -/
def Counted : (level : Nat) → Tree level → Prop
  | 0, _ => True
  | level + 1, scan =>
      Meta.avail scan = Blocks.size (freeBlocks (level + 1) scan) (radix (level + 1)) ∧
      (Meta.avail scan ≠ 0 → Meta.avail scan ≠ radix (level + 1) → ∀ i < 16, ∀ child,
        Meta.child scan i = some child → Counted level child ∧ ∀ block < radix level,
          freeBlocks (level + 1) scan (i * radix level + block) = freeBlocks level child block)

theorem Live.counted {limit : Nat} {scan : Tree level} (live : Live level limit scan) :
    Counted level scan := by
  induction level generalizing limit with
  | zero => trivial
  | succ level ih =>
      obtain ⟨counts, -, nodes⟩ := live
      refine ⟨counts, ?_⟩
      intro some notAll i inside child present
      refine ⟨ih (nodes some notAll i inside child present), ?_⟩
      intro block small
      rw [freeBlocks, if_neg some, if_neg notAll, Blocks.tile_apply _ _ small,
        partsOf_some inside present]

/-- The allocator behaves as its set of free blocks says: the numbers of free blocks are
right, an allocation takes a run of free blocks in one leaf or there is none, and a free
of allocated blocks makes them free. -/
structure Head.Behaves (bl : Head level) : Prop where
  counted : Counted level bl.root
  free : bl.free = Blocks.size bl.freeBlocks bl.blocks
  allocs : ∀ count, 0 < count → count ≤ 32 → ∃ result after,
    blistAlloc bl count = .done (result, after) ∧ Gives bl count result after
  frees : ∀ blkno count, 0 < count → blkno + count ≤ bl.blocks → Taken bl.freeBlocks blkno count →
    ∃ after, blistFree bl blkno count = .done after ∧
      after.freeBlocks = Blocks.adding bl.freeBlocks blkno count

theorem Head.Ok.behaves (ok : bl.Ok) : bl.Behaves := by
  refine ⟨ok.root.live.counted, ok.counts, ?_, ?_⟩
  · intro count positive small
    obtain ⟨result, after, is, -, -, gives⟩ := blistAlloc_spec ok positive small
    exact ⟨result, after, is, gives⟩
  · intro blkno count positive inside taken
    obtain ⟨after, is, -, -, added⟩ := blistFree_spec ok positive inside taken
    exact ⟨after, is, added⟩

theorem Head.Ok.run {blocks : Nat} (small : blocks ≤ maxBlks) {calls : List Call}
    {bl : Head (levelOf blocks)} (run : Run Move (create blocks) calls bl) : bl.Ok :=
  run.invariant (fun ok move => Head.Ok.move ok move) (create_ok small)

/-- In every run, from the creation on, the allocator behaves as its set of free blocks
says. -/
theorem runs_refine_free_set {blocks : Nat} (small : blocks ≤ maxBlks) {calls : List Call}
    {bl : Head (levelOf blocks)} (run : Run Move (create blocks) calls bl) : bl.Behaves :=
  (Head.Ok.run small run).behaves

theorem create_taken (blocks lo count : Nat) : Taken (create blocks).freeBlocks lo count :=
  fun block _ => congrFun (radixInit_freeBlocks _ blocks) block

theorem runs_refine_free_set_free : ∃ bl : Head (levelOf 40), Run Move (create 40) [.free 3 20] bl ∧
    bl.Behaves := by
  obtain ⟨bl, is, -⟩ := blistFree_spec (create_ok (show 40 ≤ maxBlks by decide)) (by decide)
    (by decide) (create_taken 40 3 20)
  have run : Run Move (create 40) [.free 3 20] bl :=
    .cons (.free (by decide) (by decide) (create_taken 40 3 20) is) (.nil bl)
  exact ⟨bl, run, runs_refine_free_set (by decide) run⟩

/-- A fill does what it is for: it marks exactly the blocks of the range, counts those that
were free, and the allocator behaves as the set says that is left. -/
def Marks (bl : Head level) (blkno count : Nat) : Prop :=
  ∃ filled after, blistFill bl blkno count = .done (filled, after) ∧
    filled = Blocks.size (fun block => bl.freeBlocks block && Blocks.within blkno count block) bl.blocks ∧
    after.freeBlocks = Blocks.without bl.freeBlocks blkno count ∧ after.free + filled = bl.free ∧
    after.Behaves

/-- In every run, a fill marks exactly the blocks of the range if and only if every node with
a free block is covered by the range as a whole, or has no more blocks of the range than
one of the nodes below has. -/
theorem fill_marks_iff {blocks : Nat} (small : blocks ≤ maxBlks) {calls : List Call}
    {bl : Head (levelOf blocks)} (run : Run Move (create blocks) calls bl) {blkno count : Nat}
    (positive : 0 < count) (inside : blkno + count ≤ bl.blocks) :
    Marks bl blkno count ↔ Fits (levelOf blocks) bl.freeBlocks blkno count := by
  obtain ⟨fine, bad⟩ := blistFill_spec (Head.Ok.run small run) positive inside
  constructor
  · rintro ⟨filled, after, is, -⟩
    by_contra misfit
    rw [bad misfit] at is
    cases is
  · intro fits
    obtain ⟨filled, after, is, ok, -, counted, removed, sum⟩ := fine fits
    exact ⟨filled, after, is, counted, removed, sum, ok.behaves⟩

theorem fill_marks_iff_leaf : ∃ bl : Head (levelOf 20), Run Move (create 20) [.free 3 15] bl ∧
    Marks bl 5 8 := by
  obtain ⟨bl, is, -, same, -⟩ := blistFree_spec (create_ok (show 20 ≤ maxBlks by decide)) (by decide)
    (by decide) (create_taken 20 3 15)
  have run : Run Move (create 20) [.free 3 15] bl :=
    .cons (.free (by decide) (by decide) (create_taken 20 3 15) is) (.nil bl)
  have blocks : bl.blocks = 20 := same
  refine ⟨bl, run, (fill_marks_iff (by decide) run (by decide) (by omega)).mpr ?_⟩
  intro l less
  exact (Nat.not_lt_zero l less).elim

/-- Filling 33 of 64 free blocks panics. -/
theorem fill_of_33_blocks_panics : ∃ bl : Head (levelOf 64), Run Move (create 64) [.free 0 64] bl ∧
    0 + 33 ≤ bl.blocks ∧ blistFill bl 0 33 = .panic := by
  obtain ⟨bl, is, -, same, added⟩ := blistFree_spec (create_ok (show 64 ≤ maxBlks by decide))
    (by decide) (by decide) (create_taken 64 0 64)
  have run : Run Move (create 64) [.free 0 64] bl :=
    .cons (.free (by decide) (by decide) (create_taken 64 0 64) is) (.nil bl)
  have blocks : bl.blocks = 64 := same
  have ok := Head.Ok.run (by decide) run
  refine ⟨bl, run, by omega, (blistFill_spec ok (by decide) (by omega)).2 ?_⟩
  intro fits
  have node := fits 0 (by decide) 0 (by decide) (by decide)
    ⟨0, by decide, by rw [added, Blocks.adding, Blocks.within_iff.mpr (by decide), Bool.or_true]⟩
  revert node
  decide

end Dragonfly.Kern.Blist
