import Dragonfly.Kern.Blist.Shape

/-!
# Allocation

An allocation of at most 32 blocks takes a run of free blocks inside one leaf, and it fails
only if there is no such run.
-/

namespace Dragonfly.Kern.Blist

open Dragonfly.Lib Dragonfly.Lib.Bitmap Dragonfly.Lib.Radix
open Dragonfly.Lib.Blocks (FreeRun)

variable {level limit blk count : Nat} {free : Nat → Bool}

/-- No leaf has a run of free blocks of the given length. -/
def Missing (free : Nat → Bool) (count : Nat) : Prop :=
  ∀ lo, lo % 32 + count ≤ 32 → ¬FreeRun free lo count

/-- A run of free blocks in one leaf is taken. -/
structure Takes (free after : Nat → Bool) (radix blk count found offset : Nat) : Prop where
  place : found = blk + offset
  inLeaf : offset % 32 + count ≤ 32
  inside : offset + count ≤ radix
  wasFree : FreeRun free offset count
  remains : after = Blocks.without free offset count

/-- What the result of an allocation says about the free blocks. -/
def Answers (free after : Nat → Bool) (radix blk count : Nat) : Option Nat → Prop
  | none => after = free ∧ Missing free count
  | some found => ∃ offset, Takes free after radix blk count found offset

/-- What an allocation does to a tree. -/
def Allocates (level limit : Nat) (scan : Tree level) (blk count : Nat)
    (outcome : Outcome (Option Nat × Tree level)) : Prop :=
  ∃ result after, outcome = .done (result, after) ∧ Ok level limit after ∧
    Answers (freeBlocks level scan) (freeBlocks level after) (radix level) blk count result

theorem Missing.of_none (none : ∀ block, free block = false) (positive : 0 < count) :
    Missing free count := by
  intro lo _ run
  have first := run.first positive
  rw [none lo] at first
  cases first

theorem Missing.of_covers {hint : Nat} (covers : Covers free hint) (less : hint < count) :
    Missing free count := by
  intro lo inLeaf run
  have atMost := covers lo count inLeaf run
  omega

/-- A hint below the length of a run that is not there. -/
theorem Missing.covers (missing : Missing free count) (positive : 0 < count) :
    Covers free (count - 1) := by
  intro lo less inLeaf run
  by_contra above
  exact missing lo (by omega) (run.shorten (by omega))

/-! ## Leaves -/

theorem leaf_takes {scan : Leaf} {offset : Nat} {mask : Word} (ok : Ok 0 limit scan)
    (inside : offset + count ≤ 32) (positive : 0 < count)
    (isMask : blocks mask = Blocks.within offset count)
    (wasFree : FreeRun (blocks scan.bitmap) offset count) :
    Allocates 0 limit scan blk count
      (.done (some (blk + offset), { scan with bitmap := scan.bitmap &&& ~~~mask })) := by
  have removed : blocks (scan.bitmap &&& ~~~mask) = Blocks.without (blocks scan.bitmap) offset count :=
    blocks_and_not isMask
  have small : offset % 32 = offset := Nat.mod_eq_of_lt (by omega)
  refine ⟨_, _, rfl, ⟨trivial, ?_, ?_⟩, offset, rfl, by omega, inside, wasFree, removed⟩
  · intro block large
    have unset : blocks scan.bitmap block = false := ok.live block large
    exact (congrFun removed block).trans (by rw [Blocks.without, unset, Bool.false_and])
  · refine ok.hinted.covers.mono (fun block member => ?_) (le_refl _)
    rw [show blocks _ = _ from removed] at member
    exact Blocks.without_le member

theorem leaf_fails {scan : Leaf} (ok : Ok 0 limit scan) {hint : Nat}
    (missing : Missing (blocks scan.bitmap) count) (covers : Covers (blocks scan.bitmap) hint) :
    Allocates 0 limit scan blk count (.done (none, { scan with bighint := hint })) :=
  ⟨_, _, rfl, ⟨trivial, ok.live, covers⟩, rfl, missing⟩

/-- A run of bits lies in the word. -/
theorem run_in_word {bitmap : Word} {lo : Nat} (run : FreeRun (blocks bitmap) lo count)
    (positive : 0 < count) : lo + count ≤ 32 := by
  by_contra above
  have last := run (lo + count - 1) (Blocks.within_iff.mpr (by omega))
  rw [blocks_eq_false (by omega)] at last
  cases last

theorem leafAlloc_spec {scan : Leaf} (ok : Ok 0 limit scan) (positive : 0 < count)
    (small : count ≤ 32) : Allocates 0 limit scan blk count (.done (leafAlloc scan blk count)) := by
  unfold leafAlloc
  split
  · rename_i zero
    have none : ∀ block, blocks scan.bitmap block = false := by
      rw [zero]
      exact blocks_zero
    exact leaf_fails ok (.of_none none positive) (covers_none none 0)
  · rename_i nonzero
    split
    · rename_i one
      subst one
      obtain ⟨set, -⟩ := lowest_spec nonzero
      have bounded : lowest scan.bitmap < 32 := by
        by_contra large
        rw [blocks_eq_false (by omega)] at set
        cases set
      refine leaf_takes ok (by omega) (by omega) (blocks_bit bounded) ?_
      intro bit member
      rw [Blocks.within_iff] at member
      rwa [show bit = lowest scan.bitmap by omega]
    · split
      · rename_i j mask found
        obtain ⟨inside, -, isMask, free⟩ := findRun_eq_some small Nat.one_pos found
        exact leaf_takes ok inside positive isMask free
      · rename_i none
        have missing : Missing (blocks scan.bitmap) count := by
          intro lo _ run
          obtain ⟨bit, member, unset⟩ :=
            findRun_eq_none small Nat.one_pos none lo (Nat.one_dvd lo) (run_in_word run positive)
          rw [run bit member] at unset
          cases unset
        exact leaf_fails ok missing (missing.covers positive)

/-! ## Meta nodes -/

/-- If no node below has a run, the node has none. -/
theorem missing_of_parts {scan : Tree (level + 1)} (positive : 0 < count)
    (none : ∀ j < 16, Missing (partsOf (freeBlocks level) (Meta.child scan) j) count) :
    Missing (below scan) count := by
  intro lo inLeaf run
  by_cases small : lo < radix (level + 1)
  · obtain ⟨j, inside, offset, offsetSmall, rfl⟩ := split_block small
    have leaf : 32 ∣ radix level := ⟨16 ^ level, rfl⟩
    have position : (j * radix level + offset) % 32 = offset % 32 := by
      obtain ⟨q, is⟩ := leaf
      rw [is, Nat.mul_left_comm]
      exact Nat.mul_add_mod ..
    rw [position] at inLeaf
    have fits : offset + count ≤ radix level := by
      obtain ⟨q, is⟩ := leaf
      omega
    refine none j inside offset inLeaf ?_
    intro block member
    rw [Blocks.within_iff] at member
    have free := run (j * radix level + block) (Blocks.within_iff.mpr (by omega))
    rwa [below_eq, Blocks.tile_apply _ _ (by omega)] at free
  · have first := run.first positive
    rw [below_of_ge scan (by omega)] at first
    cases first

/-- What the loop over the nodes below does, from number `i` on. -/
def Loops (limit : Nat) (scan : Tree (level + 1)) (blk count i : Nat)
    (outcome : Outcome (Option Nat × Tree (level + 1))) : Prop :=
  ∃ result after, outcome = .done (result, after) ∧
    match result with
    | some r => Ok (level + 1) limit after ∧
        ∃ offset, Takes (below scan) (freeBlocks (level + 1) after) (radix (level + 1)) blk count r offset
    | none => Opened limit after ∧ below after = below scan ∧
        Meta.avail after = Meta.avail scan ∧ Meta.bighint after = Meta.bighint scan ∧
        ∀ j, i ≤ j → j < 16 → Missing (partsOf (freeBlocks level) (Meta.child scan) j) count

/-- The search of a node below that takes a run. -/
theorem loop_found {scan : Tree (level + 1)} (opened : Opened limit scan)
    (counts : Meta.avail scan = Blocks.size (below scan) (radix (level + 1)))
    (covers : Covers (below scan) (Meta.bighint scan)) {i : Nat} (inside : i < 16)
    {node found : Tree level} (present : Meta.child scan i = some node)
    (okFound : Ok level (limit - i * radix level) found) {r offset : Nat}
    (takes : Takes (freeBlocks level node) (freeBlocks level found) (radix level)
      (blk + i * radix level) count r offset) :
    Loops limit scan blk count i (.done (some r,
      { Meta.setChild scan i found with
        avail := Meta.avail scan - count
        bighint := min (Meta.bighint scan) (Meta.avail scan - count) })) := by
  obtain ⟨place, inLeaf, fits, wasFree, remains⟩ := takes
  let after : Tree (level + 1) :=
    { Meta.setChild scan i found with
      avail := Meta.avail scan - count
      bighint := min (Meta.bighint scan) (Meta.avail scan - count) }
  obtain ⟨openedAfter, belowAfter⟩ : Opened limit after ∧ below after = _ :=
    opened.setChild inside present okFound rfl
  have run : FreeRun (below scan) (i * radix level + offset) count := by
    intro block member
    rw [Blocks.within_tile fits (radix_pos level), Bool.and_eq_true, decide_eq_true_eq] at member
    rw [below_eq, Blocks.tile, member.1, partsOf_some inside present]
    exact wasFree _ member.2
  have last : i * radix level + offset + count ≤ radix (level + 1) := by
    have upper := Nat.mul_le_mul_right (radix level) (Nat.succ_le_of_lt inside)
    rw [Nat.succ_mul] at upper
    rw [radix_succ]
    omega
  rw [remains, ← partsOf_some inside present, ← Blocks.without_tile _ fits (radix_pos level),
    ← below_eq] at belowAfter
  have size := Blocks.size_without run last
  have countsAfter : Meta.avail scan - count =
      Blocks.size (Blocks.without (below scan) (i * radix level + offset) count) (radix (level + 1)) := by
    omega
  obtain ⟨ok, same⟩ := openedAfter.close (by rw [belowAfter]; exact countsAfter) (by
    rw [belowAfter]
    intro lo length inOne free
    refine Nat.le_min.mpr ⟨?_, ?_⟩
    · exact covers.mono (fun _ member => Blocks.without_le member) (le_refl _) lo length inOne free
    · rw [countsAfter]
      refine covers_size (fun block large => ?_) lo length inOne free
      rw [Blocks.without, below_of_ge scan large, Bool.false_and])
  refine ⟨_, _, rfl, ok, i * radix level + offset, by omega, ?_, last, run, ?_⟩
  · have position : (i * radix level + offset) % 32 = offset % 32 := by
      rw [radix, Nat.mul_left_comm]
      exact Nat.mul_add_mod ..
    rwa [position]
  · rw [same, belowAfter]

/-- The loop over the nodes below. -/
theorem allocLoop_spec {search : Tree level → Nat → Nat → Outcome (Option Nat × Tree level)}
    (spec : ∀ {limit : Nat} {node : Tree level} (blk : Nat), Ok level limit node →
      Allocates level limit node blk count (search node blk count))
    (positive : 0 < count) (small : count ≤ 32) (fuel : Nat) {i : Nat} (all : i + fuel = 16)
    {scan : Tree (level + 1)} (opened : Opened limit scan)
    (counts : Meta.avail scan = Blocks.size (below scan) (radix (level + 1)))
    (covers : Covers (below scan) (Meta.bighint scan)) :
    Loops limit scan blk count i
      (allocLoop level search count fuel i (blk + i * radix level) scan) := by
  induction fuel generalizing i scan with
  | zero =>
      refine ⟨none, scan, rfl, opened, rfl, rfl, rfl, ?_⟩
      intro j late inside
      omega
  | succ fuel ih =>
      have inside : i < 16 := by omega
      have next : blk + i * radix level + radix level = blk + (i + 1) * radix level := by
        rw [Nat.succ_mul]
        omega
      rw [allocLoop]
      split
      · rename_i absent
        refine ⟨none, scan, rfl, opened, rfl, rfl, rfl, ?_⟩
        intro j late jInside
        refine .of_none (fun block => ?_) positive
        have above : limit ≤ i * radix level := by
          by_contra less
          obtain ⟨node, present, -⟩ := (opened.shape i inside).2 (by omega)
          rw [absent] at present
          cases present
        have further := Nat.mul_le_mul_right (radix level) late
        rw [partsOf, if_pos jInside, (opened.shape j jInside).1 (by omega)]
      · rename_i node present
        have okNode := opened.nodes i inside node present
        -- the loop goes on with the node as it is now
        have continues : ∀ {found : Tree level}, Ok level (limit - i * radix level) found →
            freeBlocks level found = freeBlocks level node →
            Missing (freeBlocks level node) count →
            Loops limit scan blk count i (allocLoop level search count fuel (i + 1)
              (blk + i * radix level + radix level) (Meta.setChild scan i found)) := by
          intro found okFound same missing
          obtain ⟨openedAfter, belowAfter⟩ :
              Opened limit (Meta.setChild scan i found) ∧ below (Meta.setChild scan i found) = _ :=
            opened.setChild inside present okFound rfl
          rw [same, ← partsOf_some inside present, Function.update_eq_self, ← below_eq] at belowAfter
          have rest : i + 1 + fuel = 16 := by omega
          obtain ⟨result, after, is, ends⟩ := ih rest openedAfter
            (by rw [belowAfter]; exact counts) (by rw [belowAfter]; exact covers)
          rw [next]
          refine ⟨result, after, is, ?_⟩
          rw [belowAfter] at ends
          cases result with
          | some r => exact ends
          | none =>
              obtain ⟨openedLast, belowLast, avail, hint, others⟩ := ends
              refine ⟨openedLast, belowLast, avail, hint, ?_⟩
              intro j late jInside
              by_cases this : j = i
              · rw [this, partsOf_some inside present]
                exact missing
              · have other := others j (by omega) jInside
                have kept : Meta.child (Meta.setChild scan i found) j = Meta.child scan j :=
                  Function.update_of_ne this ..
                rwa [partsOf, kept, ← partsOf] at other
        split
        · obtain ⟨result, found, is, okFound, answers⟩ := spec (blk + i * radix level) okNode
          rw [is]
          cases result with
          | some r =>
              obtain ⟨offset, takes⟩ := answers
              exact loop_found opened counts covers inside present okFound takes
          | none => exact continues okFound answers.1 answers.2
        · rename_i low
          rw [if_neg (by have := leaf_le_radix level; omega)]
          have missing : Missing (freeBlocks level node) count :=
            .of_covers okNode.hinted.covers (by omega)
          have same : Meta.setChild scan i node = scan := by
            rw [Meta.setChild, ← present, Function.update_eq_self]
          have rest := continues okNode rfl missing
          rwa [same] at rest

/-- An allocation of at most 32 blocks takes a run of free blocks inside one leaf and
nothing else, or there is no such run and it changes no block. -/
theorem alloc_spec (positive : 0 < count) (small : count ≤ 32) {scan : Tree level}
    (ok : Ok level limit scan) (blk : Nat) :
    Allocates level limit scan blk count (alloc level scan blk count) := by
  induction level generalizing limit blk with
  | zero => exact leafAlloc_spec ok positive small
  | succ level ih =>
      rw [alloc, metaAlloc]
      split
      · rename_i zero
        have nothing : freeBlocks (level + 1) scan = fun _ => false := by
          rw [freeBlocks, if_pos zero]
        refine ⟨none, _, rfl, ⟨ok.shape, ok.live, covers_none (congrFun nothing) 0, ok.hinted.2⟩,
          rfl, .of_none (congrFun nothing) positive⟩
      · rename_i some
        obtain ⟨opened, same⟩ := ok.openFree some
        have counts := ok.live.1
        rw [← same] at counts
        -- the node that the loop starts with has the same nodes below as the open node
        have starts : ∃ first : Tree (level + 1),
            (if Meta.avail scan = radix (level + 1) then
              { Meta.initialise scan (setFree level) with bighint := radix (level + 1) }
            else scan) = first ∧ Opened limit first ∧ below first = freeBlocks (level + 1) scan ∧
            Meta.avail first = Blocks.size (below first) (radix (level + 1)) ∧
            Covers (below first) (Meta.bighint first) := by
          refine ⟨_, rfl, ?_⟩
          unfold openFree at opened same counts
          split
          · rename_i all
            rw [if_pos all] at opened same counts
            exact ⟨⟨opened.shape, opened.nodes⟩, same, counts, covers_leaf _ (leaf_le_radix _)⟩
          · rename_i notAll
            rw [if_neg notAll] at opened same counts
            refine ⟨opened, same, counts, ?_⟩
            rw [same]
            exact ok.hinted.1
        obtain ⟨first, is, openedFirst, sameFirst, countsFirst, coversFirst⟩ := starts
        rw [is]
        have start : blk + 0 * radix level = blk := by rw [Nat.zero_mul, Nat.add_zero]
        have loop : Loops limit first blk count 0
            (allocLoop level (alloc level) count 16 0 (blk + 0 * radix level) first) :=
          allocLoop_spec (fun blk okNode => ih okNode blk) positive small 16 (Nat.zero_add 16)
            openedFirst countsFirst coversFirst
        rw [start] at loop
        obtain ⟨result, after, loopIs, ends⟩ := loop
        rw [loopIs]
        cases result with
        | some r =>
            rw [sameFirst] at ends
            exact ⟨_, _, rfl, ends.1, ends.2⟩
        | none =>
            obtain ⟨openedAfter, belowAfter, avail, hint, missing⟩ := ends
            have nowhere : Missing (below first) count :=
              missing_of_parts positive fun j => missing j (Nat.zero_le j)
            rw [← avail] at countsFirst
            rw [← hint] at coversFirst
            rw [sameFirst] at nowhere countsFirst coversFirst belowAfter
            have countsAfter : Meta.avail after = Blocks.size (below after) (radix (level + 1)) := by
              rw [belowAfter]
              exact countsFirst
            show Allocates (level + 1) limit scan blk count (.done (none,
              if count ≤ Meta.bighint after then { after with bighint := count - 1 } else after))
            split
            · obtain ⟨okLast, sameLast⟩ := openedAfter.close_with countsAfter
                (by rw [belowAfter]; exact nowhere.covers positive)
              exact ⟨none, _, rfl, okLast, sameLast.trans belowAfter, nowhere⟩
            · obtain ⟨okLast, sameLast⟩ := openedAfter.close countsAfter
                (by rw [belowAfter]; exact coversFirst)
              exact ⟨none, _, rfl, okLast, sameLast.trans belowAfter, nowhere⟩

end Dragonfly.Kern.Blist
