import Mathlib
import Dragonfly.Kern.Alist.Sound

/-!
# Hints

A hint may be too large but must never be too small: no aligned run of free blocks of a
node is longer than the hint of the node.  While this law holds, an allocation fails only
if there is no run for it.
-/

namespace Dragonfly.Kern.Alist

open Dragonfly.Lib Dragonfly.Lib.Bitmap Dragonfly.Lib.Radix
open Dragonfly.Lib.Blocks (FreeRun Taken without_le)

variable {level limit blk start count : Nat} {free : Nat → Bool}

/-! ## Leaves -/

section Leaf

variable {k : Nat}

/-- What a search of a leaf writes: it takes bits out, or it lowers the hint, to zero if no
block at or behind the start is free and below the count otherwise. -/
theorem leafAlloc_cases (scan : Leaf) (blk start count : Nat) :
    (∃ r mask, leafAlloc scan blk start count =
      (some r, { scan with bitmap := scan.bitmap &&& ~~~mask })) ∨
    (leafAlloc scan blk start count = (none, scan) ∧ blk + 32 ≤ start) ∨
    (start < blk + 32 ∧ behind scan blk start = 0 ∧ leafAlloc scan blk start count =
      (none, if start % 32 ≤ blk then { scan with bighint := 0 } else scan)) ∨
    (start < blk + 32 ∧ behind scan blk start ≠ 0 ∧
      findRun (behind scan blk start) count count = none ∧ leafAlloc scan blk start count =
      (none, if start % 32 ≤ blk then { scan with bighint := count - 1 } else scan)) := by
  unfold leafAlloc
  split
  · rename_i above
    exact .inr (.inl ⟨rfl, above⟩)
  · rename_i reaches
    have orig : (if blk < start ∧ start < blk + 32 then
        scan.bitmap &&& ~~~(1#32 <<< (start - blk) - 1#32) else scan.bitmap) =
        behind scan blk start := rfl
    simp only [orig]
    split
    · rename_i zero
      exact .inr (.inr (.inl ⟨by omega, zero, rfl⟩))
    · rename_i nonzero
      split
      · exact .inl ⟨_, _, rfl⟩
      · split
        · exact .inl ⟨_, _, rfl⟩
        · rename_i missing
          exact .inr (.inr (.inr ⟨by omega, nonzero, missing, rfl⟩))

theorem behind_eq {scan : Leaf} {block : Nat} (reaches : start < blk + 32) (late : start ≤ blk + block) :
    blocks (behind scan blk start) block = blocks scan.bitmap block := by
  rw [blocks_behind reaches, decide_eq_true late, Bool.and_true]

theorem behind_zero {scan : Leaf} (reaches : start < blk + 32) (zero : behind scan blk start = 0)
    {block : Nat} (late : start ≤ blk + block) : blocks scan.bitmap block = false := by
  rw [← behind_eq reaches late, zero, blocks_zero]

theorem behind_missing {scan : Leaf} (small : 2 ^ k ≤ 32) (reaches : start < blk + 32)
    (none : findRun (behind scan blk start) (2 ^ k) (2 ^ k) = none) :
    Missing (blocks scan.bitmap) blk start (2 ^ k) := by
  intro lo aligned late run
  by_cases fits : lo + 2 ^ k ≤ 32
  · obtain ⟨bit, member, unset⟩ := findRun_eq_none small (Nat.two_pow_pos k) none lo aligned fits
    have set := run bit member
    rw [Blocks.within_iff] at member
    rw [← behind_eq reaches (by omega), unset] at set
    cases set
  · have last := run (lo + 2 ^ k - 1) (Blocks.within_iff.mpr (by omega))
    rw [blocks_eq_false (by omega)] at last
    cases last

/-- A search of a leaf that fails. -/
theorem leafAlloc_missing {scan : Leaf} (small : 2 ^ k ≤ 32)
    (is : (leafAlloc scan blk start (2 ^ k)).1 = none) :
    Missing (blocks scan.bitmap) blk start (2 ^ k) := by
  have positive := Nat.two_pow_pos k
  obtain ⟨r, mask, same⟩ | ⟨-, above⟩ | ⟨reaches, zero, -⟩ | ⟨reaches, -, none, -⟩ :=
    leafAlloc_cases scan blk start (2 ^ k)
  · rw [same] at is
    cases is
  · exact Missing.of_none (fun block late => blocks_eq_false (by omega)) positive
  · exact Missing.of_none (fun block late => behind_zero reaches zero late) positive
  · exact behind_missing small reaches none

/-- The search of a leaf from a block inside it does not lower the hint too far: it finds
a run, or the part that it does not look at has none either. -/
def LeafSafe (scan : Leaf) (blk start count : Nat) : Prop :=
  0 < blk → blk < start → start < blk + 32 →
    Missing (blocks scan.bitmap) blk start count →
      (∃ block, start ≤ blk + block ∧ blocks scan.bitmap block = true) ∧
        Missing (blocks scan.bitmap) blk 0 count ∨
      ∀ block, blocks scan.bitmap block = false

/-- A search of a leaf keeps the law, if the leaf is safe. -/
theorem leafAlloc_hinted {scan : Leaf} (hinted : Hinted 0 scan) (small : 2 ^ k ≤ 32)
    (aligned : 32 ∣ blk) (safe : LeafSafe scan blk start (2 ^ k)) :
    Hinted 0 (leafAlloc scan blk start (2 ^ k)).2 := by
  have positive := Nat.two_pow_pos k
  have law : Covers (blocks scan.bitmap) scan.bighint := hinted
  obtain ⟨r, mask, same⟩ | ⟨same, -⟩ | ⟨reaches, zero, same⟩ | ⟨reaches, nonzero, none, same⟩ :=
    leafAlloc_cases scan blk start (2 ^ k)
  · rw [same]
    refine law.mono (fun block member => ?_) (le_refl _)
    have member' : blocks (scan.bitmap &&& ~~~mask) block = true := member
    rw [blocks_and, Bool.and_eq_true] at member'
    exact member'.1
  · rw [same]
    exact hinted
  · rw [same]
    split
    · rename_i lowered
      -- all of the leaf is allocated, searched or not
      have empty : ∀ block, blocks scan.bitmap block = false := by
        by_cases all : start ≤ blk
        · exact fun block => behind_zero reaches zero (by omega)
        · have missing : Missing (blocks scan.bitmap) blk start (2 ^ k) :=
            Missing.of_none (fun block late => behind_zero reaches zero late) positive
          obtain ⟨⟨block, late, set⟩, -⟩ | empty :=
            safe (by omega) (by omega) reaches missing
          · rw [behind_zero reaches zero late] at set
            cases set
          · exact empty
      exact covers_all fun block _ => empty block
    · exact hinted
  · rw [same]
    split
    · rename_i lowered
      have missing := behind_missing small reaches none
      have half : 2 ^ k / 2 ≤ 2 ^ k - 1 := by omega
      by_cases all : start ≤ blk
      · exact covers_of_missing half missing all
      · obtain ⟨-, nowhere⟩ | empty := safe (by omega) (by omega) reaches missing
        · exact covers_of_missing half nowhere (Nat.zero_le blk)
        · exact covers_all fun block _ => empty block
    · exact hinted

end Leaf

/-! ## Meta nodes -/

/-- The search reaches no leaf whose hint it would lower too far.  Nodes below that are
all free are initialised again by the next search and do not matter. -/
def Safe : (level : Nat) → Tree level → Nat → Nat → Nat → Prop
  | 0, scan, blk, start, count => LeafSafe scan blk start count
  | level + 1, scan, blk, start, count => count < radix level → ∀ i < 16,
      Meta.bitmap scan i = .partly → ∀ child, Meta.child scan i = some child →
        count ≤ bighint level child → Safe level child (blk + i * radix level) start count

/-- Nothing is free from a node on that is not there. -/
theorem Ok.parts_absent {scan : Tree (level + 1)} (ok : Ok (level + 1) limit scan) {i j : Nat}
    (inside : i < 16) (absent : Meta.child scan i = none) (late : i ≤ j)
    {block : Nat} (small : block < radix level) : parts scan j block = false := by
  have above : limit ≤ i * radix level := by
    by_contra below
    obtain ⟨node, present, -⟩ := ok.exists_child inside (Nat.lt_of_not_le below)
    rw [absent] at present
    cases present
  have further : i * radix level ≤ j * radix level := Nat.mul_le_mul_right _ late
  have none : freeBlocks (level + 1) scan (j * radix level + block) = false :=
    ok.live.freeBlocks_of_ge (by omega)
  rwa [freeBlocks_eq, Blocks.tile_apply _ _ small] at none

/-- The hint of a node below as the search finds it. -/
theorem Ok.fresh_hinted {scan : Tree (level + 1)} (ok : Ok (level + 1) limit scan) {i : Nat}
    (inside : i < 16) {node : Tree level} (used : Meta.bitmap scan i ≠ .allocated)
    (hinted : Meta.bitmap scan i = .partly → Hinted level node) :
    Hinted level (Alist.fresh scan i node) := by
  have pair := ok.live i inside
  unfold Alist.fresh
  cases is : Meta.bitmap scan i with
  | allocated => exact (used is).elim
  | reserved =>
      rw [is] at pair
      exact pair.elim
  | free =>
      rw [if_pos rfl]
      exact setFree_hinted node
  | partly =>
      rw [if_neg (by decide)]
      exact hinted is

/-- If no node below has a run, the node has none. -/
theorem missing_of_parts {scan : Tree (level + 1)} (positive : 0 < count) (divides : count ∣ radix level)
    (none : ∀ j < 16, Missing (parts scan j) (blk + j * radix level) start count) :
    Missing (freeBlocks (level + 1) scan) blk start count := by
  intro lo aligned late run
  by_cases small : lo < radix (level + 1)
  · obtain ⟨j, inside, offset, offsetSmall, rfl⟩ := split_block small
    have alignedPart : count ∣ offset :=
      (Nat.dvd_add_right (Nat.dvd_mul_left_of_dvd divides j)).mp aligned
    have fits : offset + count ≤ radix level := Blocks.add_le_of_dvd alignedPart divides offsetSmall
    refine none j inside offset alignedPart (by omega) ?_
    intro block member
    rw [Blocks.within_iff] at member
    have free := run (j * radix level + block) (Blocks.within_iff.mpr (by omega))
    rwa [freeBlocks_eq, Blocks.tile_apply _ _ (by omega)] at free
  · have first := run.first positive
    rw [freeBlocks_of_ge scan (by omega)] at first
    cases first

section Complete

variable {k : Nat} {search : Tree level → Nat → Nat → Nat → Option Nat × Tree level}

/-- The node below that the loop looks at has no run if the search fails or is left out. -/
theorem part_missing {scan : Tree (level + 1)} (ok : Ok (level + 1) limit scan) {i : Nat}
    (inside : i < 16) {old : Tree level} (present : Meta.child scan i = some old)
    (hinted : Meta.bitmap scan i = .partly → Hinted level old)
    (skipped : Meta.bitmap scan i = .allocated ∨ blk + radix level ≤ start ∨
      bighint level (fresh scan i old) < 2 ^ k) :
    Missing (parts scan i) blk start (2 ^ k) := by
  by_cases used : Meta.bitmap scan i = .allocated
  · refine Missing.of_none (fun block _ => ?_) (Nat.two_pow_pos k)
    rw [parts, if_pos inside, used, view_allocated]
  · obtain ⟨-, -, node⟩ := ok.fresh inside present
    obtain ⟨-, same⟩ := node used
    obtain allocated | before | low := skipped
    · exact (used allocated).elim
    · exact .before (fun block large => parts_of_ge scan i large) before (Nat.two_pow_pos k)
    · rw [← same]
      exact (ok.fresh_hinted inside used hinted).missing low

/-- The loop fails only if no node below, from number `i` on, has a run. -/
theorem allocLoop_missing
    (spec : ∀ {limit : Nat} {node : Tree level} (blk : Nat), Ok level limit node →
      Allocates level limit node blk start (2 ^ k) (search node blk start (2 ^ k)))
    (complete : ∀ {limit : Nat} {node : Tree level} (blk : Nat), Ok level limit node →
      Hinted level node → (search node blk start (2 ^ k)).1 = none →
        Missing (freeBlocks level node) blk start (2 ^ k))
    (fuel : Nat) {i : Nat} (all : i + fuel = 16) {scan : Tree (level + 1)}
    (ok : Ok (level + 1) limit scan) (hinted : Below scan i fun _ child => Hinted level child)
    (is : (allocLoop level search start (2 ^ k) fuel i (blk + i * radix level) scan).1 = none) :
    ∀ j, i ≤ j → j < 16 → Missing (parts scan j) (blk + j * radix level) start (2 ^ k) := by
  induction fuel generalizing i scan with
  | zero =>
      intro j late inside
      omega
  | succ fuel ih =>
      have inside : i < 16 := by omega
      have next : blk + i * radix level + radix level = blk + (i + 1) * radix level := by
        rw [Nat.succ_mul]
        omega
      rw [show allocLoop level search start (2 ^ k) (fuel + 1) i (blk + i * radix level) scan = _ from
        allocLoop.eq_2 ..] at is
      cases present : Meta.child scan i with
      | none =>
          intro j late jInside
          refine Missing.of_none (fun block _ => ?_) (Nat.two_pow_pos k)
          by_cases small : block < radix level
          · exact ok.parts_absent inside present late small
          · exact parts_of_ge scan j (by omega)
      | some old =>
          obtain ⟨okFresh, sameFresh, node⟩ := ok.fresh inside present
          have pairFresh : Meta.bitmap (put scan i (Meta.bitmap scan i) (fresh scan i old)) i =
              Meta.bitmap scan i := put_bitmap_self ..
          have init : (if Meta.bitmap scan i = .free then setFree level old else old) =
              fresh scan i old := rfl
          have law : Meta.bitmap scan i = .partly → Hinted level old :=
            fun partly => hinted i (le_refl i) inside partly old present
          simp only [present, init, setChild_eq_put, pairFresh, next] at is
          -- the nodes behind this one are as before
          have others : ∀ {pair : Pair} {found : Tree level},
              (∀ j, i + 1 ≤ j → j < 16 → Missing (parts (put scan i pair found) j)
                (blk + j * radix level) start (2 ^ k)) →
              Missing (parts scan i) (blk + i * radix level) start (2 ^ k) →
              ∀ j, i ≤ j → j < 16 → Missing (parts scan j) (blk + j * radix level) start (2 ^ k) := by
            intro pair found later this j late jInside
            by_cases same : j = i
            · rwa [same]
            · have missing := later j (by omega) jInside
              rwa [parts_put_of_ne scan inside same] at missing
          split at is
          · rename_i skipped
            rw [← next] at skipped
            exact others (ih (by omega) okFresh (hinted.put_next _ _) is)
              (part_missing ok inside present law skipped)
          · rename_i searched
            push Not at searched
            obtain ⟨okNode, sameNode⟩ := node searched.1
            have below := spec (blk + i * radix level) okNode
            split at is
            · cases is
            · rename_i found result
              rw [result] at below
              rw [put_put] at is
              obtain ⟨okFound, -⟩ := ok.put_unchanged inside present below.ok searched.1
                (below.answers.trans sameNode)
              refine others (ih (by omega) okFound (hinted.put_next _ _) is) ?_
              rw [← sameNode]
              refine complete _ okNode (ok.fresh_hinted inside searched.1 law) ?_
              rw [result]

/-- A group of nodes that is wanted as a whole. -/
theorem direct_missing {scan : Tree (level + 1)} (ok : Ok (level + 1) limit scan)
    (large : radix level ≤ 2 ^ k) (small : 2 ^ k < radix (level + 1))
    (is : directLoop scan blk start (radix level) (2 ^ k / radix level) 16 0 = none) :
    Missing (freeBlocks (level + 1) scan) blk start (2 ^ k) := by
  obtain ⟨whole, divides, positive⟩ := power_group large small
  have none := (directLoop_spec positive (Nat.dvd_zero _) (Nat.le_refl 16)).2 is
  rw [whole]
  generalize 2 ^ k / radix level = n at *
  intro lo aligned late run
  obtain ⟨q, rfl⟩ := aligned
  have place : n * radix level * q = n * q * radix level := Nat.mul_right_comm ..
  rw [place] at late run
  have rpos := radix_pos level
  have groupSmall : n * q < 16 := by
    by_contra outside
    have first := run.first (Nat.mul_pos positive rpos)
    have beyond : 16 * radix level ≤ n * q * radix level :=
      Nat.mul_le_mul_right _ (Nat.le_of_not_lt outside)
    rw [freeBlocks_of_ge scan (by rw [radix_succ]; exact beyond)] at first
    cases first
  have fits : n * q + n ≤ 16 := Blocks.add_le_of_dvd (Nat.dvd_mul_right n q) divides groupSmall
  have before := none (n * q) (Nat.dvd_mul_right n q) (Nat.zero_le _) groupSmall ?_
  · omega
  · intro i less
    apply ok.pair_free (show n * q + i < 16 by omega)
    intro block blockSmall
    have member : Blocks.within (n * q * radix level) (n * radix level)
        ((n * q + i) * radix level + block) = true := by
      have upper : (i + 1) * radix level ≤ n * radix level := Nat.mul_le_mul_right _ less
      rw [Blocks.within_iff, Nat.add_mul]
      rw [Nat.succ_mul] at upper
      omega
    have free := run _ member
    rwa [freeBlocks_eq, Blocks.tile_apply _ _ blockSmall] at free

/-- While the law holds, a search fails only if there is no aligned run of free blocks at
or behind the start. -/
theorem alloc_complete (small : 2 ^ k < radix level) {scan : Tree level} (ok : Ok level limit scan)
    (hinted : Hinted level scan) (blk : Nat) (is : (alloc level scan blk start (2 ^ k)).1 = none) :
    Missing (freeBlocks level scan) blk start (2 ^ k) := by
  induction level generalizing limit blk with
  | zero => exact leafAlloc_missing small.le is
  | succ level ih =>
      rw [alloc_succ] at is
      by_cases empty : Meta.all scan .allocated = true
      · refine Missing.of_none (fun block _ => ?_) (Nat.two_pow_pos k)
        by_cases inside : block < radix (level + 1)
        · exact ok.live.isZero_iff.mp empty block inside
        · exact freeBlocks_of_ge scan (by omega)
      · by_cases large : radix level ≤ 2 ^ k
        · rw [metaAlloc_direct empty large] at is
          cases found : directLoop scan blk start (radix level) (2 ^ k / radix level) 16 0 with
          | some j =>
              rw [allocDirect_some found] at is
              cases is
          | none => exact direct_missing ok large small found
        · have below : 2 ^ k < radix level := by omega
          have loop : (allocLoop level (alloc level) start (2 ^ k) 16 0 (blk + 0 * radix level) scan).1 =
              none := by
            rw [Nat.zero_mul, Nat.add_zero]
            cases found : allocLoop level (alloc level) start (2 ^ k) 16 0 blk scan with
            | mk result after =>
                cases result with
                | none => rfl
                | some r =>
                    rw [metaAlloc_found empty large found] at is
                    cases is
          apply missing_of_parts (Nat.two_pow_pos k) (power_dvd_radix below.le)
          intro j inside
          exact allocLoop_missing (fun blk okNode => alloc_spec below okNode blk)
            (fun blk okNode hintedNode => ih below okNode hintedNode blk) 16 (Nat.zero_add 16) ok
            (fun j _ jInside => hinted.2 j jInside) loop j (Nat.zero_le j) inside

end Complete

/-! ## Allocations keep the law -/

section Law

variable {k : Nat} {search : Tree level → Nat → Nat → Nat → Option Nat × Tree level}

/-- The loop keeps the law of the nodes below. -/
theorem allocLoop_below
    (spec : ∀ {limit : Nat} {node : Tree level} (blk : Nat), Ok level limit node →
      Allocates level limit node blk start (2 ^ k) (search node blk start (2 ^ k)))
    (keeps : ∀ {limit : Nat} {node : Tree level} {blk : Nat}, Ok level limit node →
      radix level ∣ blk → Hinted level node → Safe level node blk start (2 ^ k) →
        Hinted level (search node blk start (2 ^ k)).2)
    (free : ∀ {node found : Tree level} {blk r : Nat},
      search (setFree level node) blk start (2 ^ k) = (some r, found) →
        Safe level (setFree level node) blk start (2 ^ k))
    (aligned : radix (level + 1) ∣ blk) (fuel : Nat) {i : Nat} (all : i + fuel = 16)
    {scan : Tree (level + 1)} (ok : Ok (level + 1) limit scan)
    (hinted : Below scan 0 fun _ child => Hinted level child)
    (safe : Below scan i fun j child => 2 ^ k ≤ bighint level child →
      Safe level child (blk + j * radix level) start (2 ^ k)) :
    Below (allocLoop level search start (2 ^ k) fuel i (blk + i * radix level) scan).2 0
      fun _ child => Hinted level child := by
  induction fuel generalizing i scan with
  | zero => exact hinted
  | succ fuel ih =>
      have inside : i < 16 := by omega
      have next : blk + i * radix level + radix level = blk + (i + 1) * radix level := by
        rw [Nat.succ_mul]
        omega
      have alignedNode : radix level ∣ blk + i * radix level := by
        rw [radix_succ] at aligned
        exact Nat.dvd_add (Nat.dvd_trans (Nat.dvd_mul_left (radix level) 16) aligned)
          (Nat.dvd_mul_left _ i)
      rw [show allocLoop level search start (2 ^ k) (fuel + 1) i (blk + i * radix level) scan = _ from
        allocLoop.eq_2 ..]
      cases present : Meta.child scan i with
      | none => exact hinted
      | some old =>
          obtain ⟨okFresh, sameFresh, node⟩ := ok.fresh inside present
          have pairFresh : Meta.bitmap (put scan i (Meta.bitmap scan i) (fresh scan i old)) i =
              Meta.bitmap scan i := put_bitmap_self ..
          have init : (if Meta.bitmap scan i = .free then setFree level old else old) =
              fresh scan i old := rfl
          have law : Meta.bitmap scan i = .partly → Hinted level old :=
            fun partly => hinted i (Nat.zero_le i) inside partly old present
          have same : Meta.bitmap scan i = .partly → fresh scan i old = old := by
            intro partly
            rw [fresh, if_neg (by rw [partly]; decide)]
          simp only [init, setChild_eq_put, pairFresh, next]
          split
          · refine ih (by omega) okFresh (hinted.put ?_) (safe.put_next _ _)
            intro partly
            rw [same partly]
            exact law partly
          · rename_i searched
            push Not at searched
            obtain ⟨okNode, sameNode⟩ := node searched.1
            have below := spec (blk + i * radix level) okNode
            have hintedFresh := ok.fresh_hinted inside searched.1 law
            have safePartly : Meta.bitmap scan i = .partly →
                Safe level (fresh scan i old) (blk + i * radix level) start (2 ^ k) := by
              intro partly
              have large := searched.2.2
              rw [same partly] at large ⊢
              exact safe i (le_refl i) inside partly old present large
            split
            · rename_i r found result
              rw [put_put, setPair_put]
              refine hinted.put fun _ => ?_
              have safeFresh : Safe level (fresh scan i old) (blk + i * radix level) start (2 ^ k) := by
                by_cases isFree : Meta.bitmap scan i = .free
                · have isSet : fresh scan i old = setFree level old := if_pos isFree
                  rw [isSet] at result ⊢
                  exact free result
                · apply safePartly
                  have pair := ok.live i inside
                  cases is : Meta.bitmap scan i with
                  | allocated => exact (searched.1 is).elim
                  | reserved =>
                      rw [is] at pair
                      exact pair.elim
                  | free => exact (isFree is).elim
                  | partly => rfl
              have kept := keeps okNode alignedNode hintedFresh safeFresh
              rwa [result] at kept
            · rename_i found result
              rw [result] at below
              rw [put_put]
              obtain ⟨okFound, -⟩ := ok.put_unchanged inside present below.ok searched.1
                (below.answers.trans sameNode)
              refine ih (by omega) okFound (hinted.put ?_) (safe.put_next _ _)
              intro partly
              have kept := keeps okNode alignedNode hintedFresh (safePartly partly)
              rwa [result] at kept

/-- A search that succeeds in a node that is all free lowers no hint. -/
theorem safe_of_setFree (small : 2 ^ k ≤ 32 ∨ 0 < level) {node found : Tree level} {r : Nat}
    (is : alloc level (setFree level node) blk start (2 ^ k) = (some r, found)) :
    Safe level (setFree level node) blk start (2 ^ k) := by
  cases level with
  | zero =>
      intro _ _ _ missing
      have ok : Ok 0 32 (setFree 0 node) := ⟨le_refl 32, fun block large => blocks_eq_false large⟩
      have spec : Allocates 0 32 (setFree 0 node) blk start (2 ^ k)
          (leafAlloc (setFree 0 node) blk start (2 ^ k)) :=
        leafAlloc_spec ok (Nat.two_pow_pos k) (show 2 ^ k ≤ 32 by omega)
      rw [show leafAlloc (setFree 0 node) blk start (2 ^ k) = _ from is] at spec
      obtain ⟨-, offset, place, late, aligned, -, wasFree, -⟩ := spec
      exact (missing offset aligned (by omega) wasFree).elim
  | succ level =>
      intro _ i _ partly
      cases partly

/-- The loop does not write the hint of the node. -/
theorem allocLoop_bighint (fuel : Nat) {i blk : Nat} (scan : Meta (Tree level)) :
    (allocLoop level search start count fuel i blk scan).2.bighint = scan.bighint := by
  induction fuel generalizing i blk scan with
  | zero => rfl
  | succ fuel ih =>
      rw [allocLoop]
      split
      · rfl
      · rename_i old _
        simp only
        generalize (if scan.bitmap i = .free then setFree level old else old) = node
        split
        · rw [ih]
          rfl
        · split
          · rfl
          · rw [ih]
            rfl

/-- The hint of a node after a failure. -/
theorem lower_hinted {scan : Tree (level + 1)}
    (covers : Covers (freeBlocks (level + 1) scan) (Meta.bighint scan))
    (below : Below scan 0 fun _ child => Hinted level child)
    (missing : Missing (freeBlocks (level + 1) scan) blk start (2 ^ k)) :
    Hinted (level + 1) (Meta.lower scan blk start (2 ^ k)) := by
  have nodes : ∀ i < 16, Meta.bitmap scan i = .partly → ∀ child, Meta.child scan i = some child →
      Hinted level child := fun i => below i (Nat.zero_le i)
  by_cases searched : 2 ^ k ≤ Meta.bighint scan ∧ start ≤ blk
  · have is : Meta.lower scan blk start (2 ^ k) = setHint scan (2 ^ k / 2) := if_pos searched
    rw [is]
    exact ⟨covers_of_missing (le_refl _) missing searched.2, nodes⟩
  · have is : Meta.lower scan blk start (2 ^ k) = scan := if_neg searched
    rw [is]
    exact ⟨covers, nodes⟩

/-- An allocation keeps the law, if it is safe. -/
theorem alloc_hinted (small : 2 ^ k < radix level) {scan : Tree level} (ok : Ok level limit scan)
    (hinted : Hinted level scan) (aligned : radix level ∣ blk)
    (safe : Safe level scan blk start (2 ^ k)) :
    Hinted level (alloc level scan blk start (2 ^ k)).2 := by
  induction level generalizing limit blk with
  | zero => exact leafAlloc_hinted hinted small.le aligned safe
  | succ level ih =>
      have covers := hinted.1
      have below : Below scan 0 fun _ child => Hinted level child := fun j _ => hinted.2 j
      rw [alloc_succ]
      by_cases empty : Meta.all scan .allocated = true
      · rw [metaAlloc_allocated empty]
        refine ⟨covers_all fun block _ => ?_, hinted.2⟩
        by_cases inside : block < radix (level + 1)
        · exact ok.live.isZero_iff.mp empty block inside
        · exact freeBlocks_of_ge _ (by omega)
      · by_cases large : radix level ≤ 2 ^ k
        · rw [metaAlloc_direct empty large]
          cases found : directLoop scan blk start (radix level) (2 ^ k / radix level) 16 0 with
          | some j =>
              rw [allocDirect_some found]
              refine ⟨covers.mono (fun block member => ?_) (le_refl _), ?_⟩
              · rw [freeBlocks_takeGroup] at member
                exact without_le member
              · intro i inside partly child present
                rw [takeGroup_bitmap] at partly
                split at partly
                · cases partly
                · exact hinted.2 i inside partly child present
          | none =>
              rw [allocDirect_none found]
              exact lower_hinted covers below (direct_missing ok large small found)
        · have less : 2 ^ k < radix level := by omega
          have first : blk + 0 * radix level = blk := by rw [Nat.zero_mul, Nat.add_zero]
          have leafOrMeta : 2 ^ k ≤ 32 ∨ 0 < level := by
            cases level with
            | zero => exact .inl less.le
            | succ level => exact .inr (Nat.succ_pos level)
          have nodes := allocLoop_below (fun blk okNode => alloc_spec less okNode blk)
            (fun okNode alignedNode hintedNode safeNode => ih less okNode hintedNode alignedNode safeNode)
            (fun is => safe_of_setFree leafOrMeta is) aligned 16 (Nat.zero_add 16) ok below
            (fun j _ inside partly child present => safe less j inside partly child present)
          have hint : Meta.bighint (allocLoop level (alloc level) start (2 ^ k) 16 0 blk scan).2 =
              Meta.bighint scan := allocLoop_bighint 16 scan
          have spec : Allocates (level + 1) limit scan blk start (2 ^ k)
              (allocLoop level (alloc level) start (2 ^ k) 16 0 (blk + 0 * radix level) scan) :=
            allocLoop_spec (fun blk okNode => alloc_spec less okNode blk) (Nat.two_pow_pos k)
              (power_dvd_radix less.le) 16 (Nat.zero_add 16) ok
          have complete : (alloc (level + 1) scan blk start (2 ^ k)).1 = none →
              Missing (freeBlocks (level + 1) scan) blk start (2 ^ k) :=
            alloc_complete small ok hinted blk
          rw [alloc_succ] at complete
          rw [first] at nodes spec
          cases is : allocLoop level (alloc level) start (2 ^ k) 16 0 blk scan with
          | mk result found =>
              rw [is] at nodes spec hint
              cases result with
              | some r =>
                  rw [metaAlloc_found empty large is]
                  obtain ⟨-, offset, -, -, -, -, -, remains⟩ := spec
                  refine ⟨covers.mono (fun block member => ?_) hint.ge,
                    fun i => nodes i (Nat.zero_le i)⟩
                  rw [show freeBlocks (level + 1) found = _ from remains] at member
                  exact without_le member
              | none =>
                  rw [metaAlloc_missing empty large is] at complete ⊢
                  have same : freeBlocks (level + 1) found = freeBlocks (level + 1) scan := spec.answers
                  refine lower_hinted ?_ nodes ?_
                  · rw [same]
                    exact covers.mono (fun _ member => member) hint.ge
                  · rw [same]
                    exact complete rfl

end Law

/-! ## Runs -/

section Runs

variable {bl after : Head level}

/-- The call lowers no hint too far. -/
def CallSafe (bl : Head level) : Call → Prop
  | .alloc start count => ∀ power, Rounds count power → power < radix level →
      Safe level bl.root 0 start power
  | .free _ _ => True

/-- The invariant of an allocator with the law of the hints. -/
structure Head.Lawful (bl : Head level) : Prop where
  ok : bl.Ok
  hinted : Hinted level bl.root

theorem allocPower_hinted {k : Nat} (ok : bl.Ok) (hinted : Hinted level bl.root)
    (safe : 2 ^ k < radix level → Safe level bl.root 0 start (2 ^ k)) :
    Hinted level (allocPower bl start (2 ^ k)).2.root := by
  unfold allocPower
  split
  · rename_i small
    have kept := alloc_hinted small ok.root hinted (Nat.dvd_zero _) (safe small)
    split
    · rename_i found root is
      rwa [is] at kept
    · rename_i root is
      rwa [is] at kept
  · exact hinted

/-- A call keeps the law, if it is safe. -/
theorem Move.hinted {call : Call} (ok : bl.Ok) (hinted : Hinted level bl.root)
    (safe : CallSafe bl call) (move : Move bl call after) : Hinted level after.root := by
  cases move with
  | @alloc _ start count fuel result positive word is =>
      obtain ⟨more, -⟩ | ⟨given, power, same, rounds, made⟩ :=
        alistAlloc_cases ok positive word start fuel
      · rw [more] at is
        cases is
      · rw [same] at is
        cases is
        have rounded := rounds
        obtain ⟨k, rfl, -⟩ := rounds
        have kept : Hinted level (allocPower bl start (2 ^ k)).2.root :=
          allocPower_hinted ok hinted (safe (2 ^ k) rounded)
        obtain ⟨whole, -⟩ | ⟨found, middle, less, is, freed, -⟩ := made
        · rwa [← whole] at kept
        · have gives := allocPower_spec ok start k
          rw [is] at gives kept
          obtain ⟨last, lastIs, -, law⟩ := gives.shorten ok less positive
          rw [lastIs] at freed
          cases freed
          exact law kept
  | free positive inside taken is =>
      obtain ⟨found, same, -, -, -, law⟩ := alistFree_spec ok positive inside taken
      rw [same] at is
      cases is
      exact law hinted

theorem radixInit_hinted (level blk count : Nat) : Hinted level (radixInit level blk count) := by
  have covers : Covers (freeBlocks level (radixInit level blk count)) 0 := by
    rw [radixInit_freeBlocks]
    exact covers_all fun _ _ => rfl
  cases level with
  | zero => exact covers
  | succ level =>
      refine ⟨covers, ?_⟩
      intro i _ partly
      cases partly

/-- In every run of an allocator of at most `2 ^ 29` blocks in which no search from inside a
leaf lowers the hint of the leaf too far, no hint is too small, and an allocation of a
power of two fails only if there is no aligned run of free blocks at or behind the start. -/
theorem safe_runs_are_complete {blocks : Nat} (small : blocks ≤ 2 ^ 29) {calls : List Call}
    {bl : Head (levelOf blocks)}
    (run : Run (fun bl call after => CallSafe bl call ∧ Move bl call after) (create blocks) calls bl) :
    Hinted _ bl.root ∧ ∀ start k fuel after, 2 ^ k < radix (levelOf blocks) →
      alistAlloc fuel bl start (2 ^ k) = .done (none, after) →
        ¬∃ block, start ≤ block ∧ 2 ^ k ∣ block ∧ FreeRun bl.freeBlocks block (2 ^ k) := by
  have lawful : bl.Lawful := by
    refine run.invariant ?_ ⟨create_ok small, radixInit_hinted _ 0 blocks⟩
    rintro state next call lawful ⟨safe, move⟩
    exact ⟨lawful.ok.move move, move.hinted lawful.ok lawful.hinted safe⟩
  obtain ⟨ok, hinted⟩ := lawful
  refine ⟨hinted, ?_⟩
  rintro start k fuel after fits is ⟨block, late, aligned, free⟩
  have bounded := ok.bounded
  cases fuel with
  | zero => cases is
  | succ fuel =>
      have power := (isPower_iff (Nat.two_pow_pos k) (show 2 ^ k < 2 ^ 32 by omega)).mpr ⟨k, rfl⟩
      rw [alistAlloc_power fuel (Nat.two_pow_pos k).ne' power, allocPower, if_pos fits] at is
      refine alloc_complete fits ok.root hinted 0 ?_ block aligned (late.trans (Nat.zero_add block).ge) free
      cases found : alloc (levelOf blocks) bl.root 0 start (2 ^ k) with
      | mk result root =>
          cases result with
          | none => rfl
          | some r =>
              rw [found] at is
              cases is

theorem safe_runs_are_complete_free : ∃ bl : Head (levelOf 40),
    Run (fun bl call after => CallSafe bl call ∧ Move bl call after) (create 40) [.free 3 20] bl ∧
      Hinted _ bl.root := by
  have taken : Taken (create 40).freeBlocks 3 20 :=
    fun block _ => congrFun (radixInit_freeBlocks _ 0 40) block
  obtain ⟨bl, is, -⟩ := alistFree_spec (create_ok (by decide)) (by decide) (by decide) taken
  have run : Run (fun bl call after => CallSafe bl call ∧ Move bl call after) (create 40)
      [.free 3 20] bl := .cons ⟨trivial, .free (by decide) (by decide) taken is⟩ (.nil bl)
  exact ⟨bl, run, (safe_runs_are_complete (by decide) run).1⟩

/-- A search from block 48 in the leaf from block 32 on, all free below block 48, sets the
hint of the leaf to zero; the next search does not look at the leaf. -/
theorem search_inside_leaf_hides_blocks : ∃ bl : Head (levelOf 64),
    Run Move (create 64) [.free 32 16, .alloc 48 1] bl ∧ FreeRun bl.freeBlocks 32 1 ∧
      1 < radix (levelOf 64) ∧ ∃ after, alistAlloc 1 bl 0 1 = .done (none, after) := by
  have check : ((alistFree (create 64) 32 16).bind fun bl => (alistAlloc 1 bl 48 1).bind fun result =>
      (alistAlloc 1 result.2 0 1).bind fun last => .kkassert last.1.isNone (.done ())) = .done () := by rfl
  simp only [Outcome.bind_eq_done_iff, Outcome.kkassert_eq_done_iff] at check
  obtain ⟨first, freed, ⟨answer, bl⟩, searched, ⟨found, last⟩, is, missed, -⟩ := check
  obtain rfl : found = none := Option.isNone_iff_eq_none.mp missed
  have okCreate : (create 64).Ok := create_ok (by decide)
  have taken : Taken (create 64).freeBlocks 32 16 :=
    fun block _ => congrFun (radixInit_freeBlocks _ 0 64) block
  have move : Move (create 64) (.free 32 16) first := .free (by decide) (by decide) taken freed
  obtain ⟨other, same, -, -, added, -⟩ :=
    alistFree_spec okCreate (by decide) (by decide) taken
  rw [freed] at same
  cases same
  refine ⟨bl, .cons move (.cons (.alloc (by decide) (by decide) searched) (.nil bl)), ?_, by decide,
    last, is⟩
  have one : (0 : Nat) < 1 := Nat.one_pos
  obtain ⟨more, -⟩ | ⟨result, power, done, -, -, -, gives⟩ :=
    alistAlloc_spec (okCreate.move move) one (by decide) 48 1
  · rw [more] at searched
    cases searched
  · rw [searched] at done
    cases done
    have member : first.freeBlocks 32 = true := by
      rw [added, Blocks.adding, Blocks.within_iff.mpr (by decide), Bool.or_true]
    intro block inRun
    rw [Blocks.within_iff] at inRun
    obtain rfl : block = 32 := by omega
    cases answer with
    | none =>
        rw [show bl.freeBlocks = first.freeBlocks from gives]
        exact member
    | some found =>
        obtain ⟨late, -, -, remains⟩ := gives
        rw [show bl.freeBlocks = _ from remains, Blocks.without, member,
          Blocks.within_eq_false_iff.mpr (by omega)]
        rfl

end Runs

end Dragonfly.Kern.Alist
