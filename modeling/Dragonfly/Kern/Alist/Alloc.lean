import Dragonfly.Kern.Alist.Shape

/-!
# Allocation

What an allocation of a power of two does to the free blocks of a tree.  Whatever the
hints say, it takes an aligned run of free blocks at or behind the start, or nothing.
-/

namespace Dragonfly.Kern.Alist

open Dragonfly.Lib Dragonfly.Lib.Bitmap Dragonfly.Lib.Radix

variable {level limit blk start count : Nat}

/-- An aligned run of free blocks at or behind the start is taken. -/
structure Takes (free after : Nat → Bool) (radix blk start count found offset : Nat) : Prop where
  place : found = blk + offset
  late : start ≤ found
  aligned : count ∣ offset
  inside : offset + count ≤ radix
  wasFree : ∀ block, Blocks.within offset count block = true → free block = true
  remains : after = Blocks.without free offset count

/-- What the result of an allocation says about the free blocks. -/
def Answers (free after : Nat → Bool) (radix blk start count : Nat) : Option Nat → Prop
  | none => after = free
  | some found => ∃ offset, Takes free after radix blk start count found offset

/-- What an allocation does to a tree. -/
structure Allocates (level limit : Nat) (scan : Tree level) (blk start count : Nat)
    (result : Option Nat × Tree level) : Prop where
  ok : Ok level limit result.2
  answers : Answers (freeBlocks level scan) (freeBlocks level result.2) (radix level) blk start count
    result.1

section Leaf

/-- The bits of a leaf that lie at or behind the start. -/
def behind (scan : Leaf) (blk start : Nat) : Word :=
  if blk < start ∧ start < blk + 32 then scan.bitmap &&& ~~~(1#32 <<< (start - blk) - 1#32)
  else scan.bitmap

theorem blocks_behind {scan : Leaf} (reaches : start < blk + 32) (bit : Nat) :
    blocks (behind scan blk start) bit = (blocks scan.bitmap bit && decide (start ≤ blk + bit)) := by
  unfold behind
  split
  · rename_i inside
    rw [blocks_from (by omega)]
    congr 1
    exact decide_eq_decide.mpr (by omega)
  · rename_i outside
    rw [decide_eq_true (by omega), Bool.and_true]

/-- Taking a run out of the bitmap of a leaf. -/
theorem leaf_takes {scan : Leaf} {offset : Nat} {mask : Word}
    (ok : Ok 0 limit scan) (reaches : start < blk + 32) (aligned : count ∣ offset)
    (inside : offset + count ≤ 32) (positive : 0 < count)
    (isMask : blocks mask = Blocks.within offset count)
    (free : ∀ bit, Blocks.within offset count bit = true → blocks (behind scan blk start) bit = true) :
    Allocates 0 limit scan blk start count
      (some (blk + offset), ({ scan with bitmap := scan.bitmap &&& ~~~mask } : Leaf)) := by
  have removed : blocks (scan.bitmap &&& ~~~mask) = Blocks.without (blocks scan.bitmap) offset count :=
    blocks_and_not isMask
  have first := free offset (Blocks.within_iff.mpr ⟨le_refl _, by omega⟩)
  rw [blocks_behind reaches, Bool.and_eq_true, decide_eq_true_eq] at first
  refine ⟨⟨ok.shape, ?_⟩, offset, rfl, first.2, aligned, inside, ?_, removed⟩
  · intro block large
    have unset : blocks scan.bitmap block = false := ok.live block large
    exact (congrFun removed block).trans (by rw [Blocks.without, unset, Bool.false_and])
  · intro block member
    have set := free block member
    rw [blocks_behind reaches, Bool.and_eq_true] at set
    exact set.1

theorem leaf_fails {scan : Leaf} (ok : Ok 0 limit scan) {hint : Nat} (bounded : hint ≤ 32)
    {condition : Prop} [Decidable condition] :
    Allocates 0 limit scan blk start count
      (none, (if condition then { scan with bighint := hint } else scan : Leaf)) := by
  by_cases searched : condition
  · rw [if_pos searched]
    exact ⟨⟨bounded, ok.live⟩, rfl⟩
  · rw [if_neg searched]
    exact ⟨ok, rfl⟩

theorem leafAlloc_spec {scan : Leaf} (ok : Ok 0 limit scan) (positive : 0 < count)
    (small : count ≤ 32) : Allocates 0 limit scan blk start count (leafAlloc scan blk start count) := by
  unfold leafAlloc
  split
  · exact ⟨ok, rfl⟩
  · rename_i reaches
    have orig : (if blk < start ∧ start < blk + 32 then
        scan.bitmap &&& ~~~(1#32 <<< (start - blk) - 1#32) else scan.bitmap) =
        behind scan blk start := rfl
    simp only [orig]
    split
    · exact leaf_fails ok (by omega)
    · rename_i nonzero
      split
      · rename_i one
        subst one
        obtain ⟨set, -⟩ := lowest_spec nonzero
        have bounded : lowest (behind scan blk start) < 32 := by
          by_contra large
          rw [blocks_eq_false (by omega)] at set
          cases set
        refine leaf_takes ok (by omega) (Nat.one_dvd _) (by omega) (by omega) (blocks_bit bounded) ?_
        intro bit member
        rw [Blocks.within_iff] at member
        rwa [show bit = lowest (behind scan blk start) by omega]
      · split
        · rename_i j mask found
          obtain ⟨inside, aligned, isMask, free⟩ := findRun_eq_some small positive found
          exact leaf_takes ok (by omega) aligned inside positive isMask free
        · exact leaf_fails ok (by omega)

end Leaf

/-! ## Meta nodes -/

theorem Allocates.of_eq {scan other : Tree level} {result : Option Nat × Tree level}
    (same : freeBlocks level other = freeBlocks level scan)
    (allocates : Allocates level limit other blk start count result) :
    Allocates level limit scan blk start count result := by
  obtain ⟨ok, answers⟩ := allocates
  rw [same] at answers
  exact ⟨ok, answers⟩

theorem put_put (scan : Tree (level + 1)) (i : Nat) (first second : Pair) (old node : Tree level) :
    put (put scan i first old) i second node = put scan i second node := by
  simp only [put, Meta.setPair, Meta.setChild, Function.update_idem]
  rfl

theorem setPair_put (scan : Tree (level + 1)) (i : Nat) (first second : Pair) (node : Tree level) :
    Meta.setPair (put scan i first node) i second = put scan i second node := by
  simp only [put, Meta.setPair, Meta.setChild, Function.update_idem]

/-- The node below as the search finds it. -/
def fresh (scan : Tree (level + 1)) (i : Nat) (node : Tree level) : Tree level :=
  if Meta.bitmap scan i = .free then setFree level node else node

/-- The initialisation of a node below changes nothing, and the node below then has the
free blocks that its pair stands for. -/
theorem Ok.fresh {scan : Tree (level + 1)} (ok : Ok (level + 1) limit scan) {i : Nat} (inside : i < 16)
    {node : Tree level} (present : Meta.child scan i = some node) :
    Ok (level + 1) limit (Alist.put scan i (Meta.bitmap scan i) (Alist.fresh scan i node)) ∧
      freeBlocks (level + 1) (Alist.put scan i (Meta.bitmap scan i) (Alist.fresh scan i node)) =
        freeBlocks (level + 1) scan ∧
      (Meta.bitmap scan i ≠ .allocated →
        Ok level (limit - i * radix level) (Alist.fresh scan i node) ∧
          freeBlocks level (Alist.fresh scan i node) = parts scan i) := by
  have shape := (ok.child inside present).2
  have pair := ok.live i inside
  have part : parts scan i =
      view (radix level) (freeBlocks level) (Meta.bitmap scan i) (some node) := by
    rw [parts, if_pos inside, present]
  rw [freeBlocks_eq, freeBlocks_eq, parts_put scan inside, Alist.fresh]
  cases is : Meta.bitmap scan i with
  | reserved =>
      rw [is] at pair
      exact pair.elim
  | allocated =>
      rw [if_neg (by decide)]
      refine ⟨ok.put inside present shape trivial, ?_, by simp⟩
      rw [is, view_allocated] at part
      rw [view_allocated, ← part, Function.update_eq_self]
  | free =>
      rw [is] at pair part
      have full : (i + 1) * radix level ≤ limit := pair
      rw [Nat.succ_mul] at full
      have init := setFree_ok shape (by omega)
      rw [if_pos rfl]
      refine ⟨ok.put inside present init.shape pair, ?_, fun _ => ⟨init, ?_⟩⟩
      · rw [view_free, ← view_free _ (freeBlocks level) (some node), ← part, Function.update_eq_self]
      · rw [freeBlocks_setFree, part, view_free]
  | partly =>
      rw [is, present] at pair
      rw [is] at part
      rw [if_neg (by decide)]
      refine ⟨ok.put inside present shape pair, ?_, fun _ => ⟨⟨shape, ?_⟩, ?_⟩⟩
      · rw [← part, Function.update_eq_self]
      · obtain ⟨other, same, live, -⟩ := pair
        cases same
        exact live
      · rw [part, view_partly]

/-- A search of a node below that finds nothing. -/
theorem Ok.put_unchanged {scan : Tree (level + 1)} (ok : Ok (level + 1) limit scan) {i : Nat}
    (inside : i < 16) {old node : Tree level} (present : Meta.child scan i = some old)
    (okNode : Ok level (limit - i * radix level) node) (used : Meta.bitmap scan i ≠ .allocated)
    (same : freeBlocks level node = parts scan i) :
    Ok (level + 1) limit (Alist.put scan i (Meta.bitmap scan i) node) ∧
      freeBlocks (level + 1) (Alist.put scan i (Meta.bitmap scan i) node) =
        freeBlocks (level + 1) scan := by
  have pair := ok.live i inside
  have part : parts scan i =
      view (radix level) (freeBlocks level) (Meta.bitmap scan i) (some old) := by
    rw [parts, if_pos inside, present]
  rw [freeBlocks_eq, freeBlocks_eq, parts_put scan inside]
  cases is : Meta.bitmap scan i with
  | allocated => exact (used is).elim
  | reserved =>
      rw [is] at pair
      exact pair.elim
  | free =>
      rw [is] at pair part
      refine ⟨ok.put inside present okNode.shape pair, ?_⟩
      rw [view_free, ← view_free _ (freeBlocks level) (some old), ← part, Function.update_eq_self]
  | partly =>
      rw [is, present] at pair
      rw [is, view_partly] at part
      obtain ⟨other, eq, -, some, none⟩ := pair
      cases eq
      rw [← part, ← same] at some none
      refine ⟨ok.put inside present okNode.shape ⟨node, rfl, okNode.live, some, none⟩, ?_⟩
      rw [view_partly, same, Function.update_eq_self]

/-- A search of a node below that takes a run. -/
theorem Ok.put_taken {scan : Tree (level + 1)} (ok : Ok (level + 1) limit scan) {i : Nat}
    (inside : i < 16) {old node : Tree level} (present : Meta.child scan i = some old)
    (okNode : Ok level (limit - i * radix level) node) {offset : Nat} (positive : 0 < count)
    (fits : offset + count ≤ radix level)
    (taken : freeBlocks level node = Blocks.without (parts scan i) offset count) :
    Ok (level + 1) limit
        (Alist.put scan i (if isZero level node then .allocated else .partly) node) ∧
      freeBlocks (level + 1)
          (Alist.put scan i (if isZero level node then .allocated else .partly) node) =
        Blocks.without (freeBlocks (level + 1) scan) (i * radix level + offset) count := by
  have zero := okNode.live.isZero_iff
  rw [freeBlocks_eq, freeBlocks_eq, parts_put scan inside,
    Blocks.without_tile _ fits (radix_pos level), ← taken]
  cases is : isZero level node with
  | true =>
      rw [is] at zero
      have none : freeBlocks level node = fun _ => false := by
        funext block
        by_cases small : block < radix level
        · exact zero.mp rfl block small
        · exact freeBlocks_of_ge node (by omega)
      rw [if_pos rfl, view_allocated, none]
      exact ⟨ok.put inside present okNode.shape trivial, rfl⟩
  | false =>
      rw [is] at zero
      rw [if_neg (by decide), view_partly]
      refine ⟨ok.put inside present okNode.shape ⟨node, rfl, okNode.live, ?_, ?_⟩, rfl⟩
      · by_contra none
        push Not at none
        have empty := zero.mpr fun block small => by simpa using none block small
        cases empty
      · refine ⟨offset, by omega, ?_⟩
        have member : Blocks.within offset count offset = true :=
          Blocks.within_iff.mpr ⟨le_refl _, by omega⟩
        rw [taken, Blocks.without, member, Bool.not_true, Bool.and_false]

/-- The search of the node below in the loop, seen from the meta node. -/
theorem allocates_child {scan : Tree (level + 1)} (ok : Ok (level + 1) limit scan) {i : Nat}
    (inside : i < 16) {old node found : Tree level} {r : Nat}
    (present : Meta.child scan i = some old) (positive : 0 < count) (divides : count ∣ radix level)
    (same : freeBlocks level node = parts scan i)
    (below : Allocates level (limit - i * radix level) node (blk + i * radix level) start count
      (some r, found)) :
    Allocates (level + 1) limit scan blk start count
      (some r, put scan i (if isZero level found then .allocated else .partly) found) := by
  obtain ⟨okFound, offset, place, late, aligned, fits, wasFree, remains⟩ := below
  rw [same] at wasFree remains
  obtain ⟨okPut, taken⟩ := ok.put_taken inside present okFound positive fits remains
  refine ⟨okPut, i * radix level + offset, ?_, late, ?_, ?_, ?_, taken⟩
  · rw [place]
    omega
  · exact Nat.dvd_add (Nat.dvd_mul_left_of_dvd divides i) aligned
  · have last := block_lt inside (show offset + count - 1 < radix level by omega)
    omega
  · intro block member
    rw [freeBlocks_eq]
    rw [Blocks.within_tile fits (radix_pos level), Bool.and_eq_true, decide_eq_true_eq] at member
    rw [Blocks.tile, member.1]
    exact wasFree _ member.2

/-- The loop over the nodes below. -/
theorem allocLoop_spec {search : Tree level → Nat → Nat → Nat → Option Nat × Tree level}
    (spec : ∀ {limit : Nat} {node : Tree level} (blk : Nat), Ok level limit node →
      Allocates level limit node blk start count (search node blk start count))
    (positive : 0 < count) (divides : count ∣ radix level) (fuel : Nat) {i : Nat}
    (all : i + fuel = 16) {scan : Tree (level + 1)} (ok : Ok (level + 1) limit scan) :
    Allocates (level + 1) limit scan blk start count
      (allocLoop level search start count fuel i (blk + i * radix level) scan) := by
  induction fuel generalizing i scan with
  | zero => exact ⟨ok, rfl⟩
  | succ fuel ih =>
      have inside : i < 16 := by omega
      have next : blk + i * radix level + radix level = blk + (i + 1) * radix level := by
        rw [Nat.succ_mul]
        omega
      rw [show allocLoop level search start count (fuel + 1) i (blk + i * radix level) scan = _ from
        allocLoop.eq_2 ..]
      split
      · exact ⟨ok, rfl⟩
      · rename_i old present
        obtain ⟨okFresh, sameFresh, node⟩ := ok.fresh inside present
        have presentFresh : Meta.child (put scan i (Meta.bitmap scan i) (fresh scan i old)) i =
            some (fresh scan i old) := Function.update_self ..
        have pairFresh : Meta.bitmap (put scan i (Meta.bitmap scan i) (fresh scan i old)) i =
            Meta.bitmap scan i := Function.update_self ..
        have init : (if Meta.bitmap scan i = .free then setFree level old else old) =
            fresh scan i old := rfl
        simp only [init, setChild_eq_put, pairFresh, next]
        split
        · exact (ih (by omega) okFresh).of_eq sameFresh
        · rename_i searched
          push Not at searched
          obtain ⟨okNode, sameNode⟩ := node searched.1
          have below := spec (blk + i * radix level) okNode
          split
          · rename_i r found is
            rw [is] at below
            have taken := allocates_child ok inside present positive divides sameNode below
            rw [put_put, setPair_put]
            exact taken
          · rename_i found is
            rw [is] at below
            obtain ⟨okFound, unchanged⟩ := ok.put_unchanged inside present below.ok searched.1
              (below.answers.trans sameNode)
            rw [put_put]
            exact (ih (by omega) okFound).of_eq unchanged

/-! ## Allocation out of a meta node -/

/-- The loop over the aligned groups from `j` on. -/
theorem directLoop_spec {α : Type} {scan : Meta α} {radix n fuel j : Nat} (positive : 0 < n)
    (aligned : n ∣ j) (enough : 16 ≤ j + fuel) :
    (∀ found, directLoop scan blk start radix n fuel j = some found →
      n ∣ found ∧ found < 16 ∧ (∀ i < n, scan.bitmap (found + i) = .free) ∧
        start ≤ blk + found * radix) ∧
    (directLoop scan blk start radix n fuel j = none → ∀ group, n ∣ group → j ≤ group → group < 16 →
      (∀ i < n, scan.bitmap (group + i) = .free) → blk + group * radix < start) := by
  induction fuel generalizing j with
  | zero =>
      refine ⟨by simp [directLoop], ?_⟩
      intro _ group _ late small
      omega
  | succ fuel ih =>
      rw [directLoop]
      split
      · rename_i small
        split
        · rename_i suits
          refine ⟨?_, by simp⟩
          rintro found ⟨⟩
          simp only [Bool.and_eq_true, List.all_eq_true, List.mem_range, decide_eq_true_eq] at suits
          exact ⟨aligned, small, suits.1, suits.2⟩
        · rename_i unsuited
          simp only [Bool.and_eq_true, List.all_eq_true, List.mem_range, decide_eq_true_eq, not_and,
            not_le] at unsuited
          obtain ⟨found, missing⟩ := ih (j := j + n) (Nat.dvd_add aligned (Nat.dvd_refl n)) (by omega)
          refine ⟨found, ?_⟩
          intro is group groupAligned late groupSmall free
          by_cases same : group = j
          · subst same
            exact unsuited free
          · have behind := Blocks.add_le_of_dvd aligned groupAligned (by omega)
            exact missing is group groupAligned behind groupSmall free
      · refine ⟨by simp, ?_⟩
        intro _ group _ late small
        omega

/-- Nothing is found in a meta node. -/
theorem Ok.lower {scan : Tree (level + 1)} (ok : Ok (level + 1) limit scan)
    (small : count ≤ radix (level + 1)) :
    Allocates (level + 1) limit scan blk start count (none, Meta.lower scan blk start count) := by
  by_cases searched : count ≤ Meta.bighint scan ∧ start ≤ blk
  · have is : Meta.lower scan blk start count = Alist.setHint scan (count / 2) := if_pos searched
    rw [is]
    exact ⟨ok.setHint (by omega), rfl⟩
  · have is : Meta.lower scan blk start count = scan := if_neg searched
    rw [is]
    exact ⟨ok, rfl⟩

/-- Mark a group of nodes as allocated. -/
def takeGroup (scan : Tree (level + 1)) (lo n : Nat) : Tree (level + 1) :=
  ({ scan with
    bitmap := fun i => if lo ≤ i ∧ i < lo + n then .allocated else Meta.bitmap scan i } :
    Meta (Tree level))

theorem takeGroup_bitmap (scan : Tree (level + 1)) (lo n i : Nat) :
    Meta.bitmap (takeGroup scan lo n) i =
      if lo ≤ i ∧ i < lo + n then .allocated else Meta.bitmap scan i := rfl

theorem Ok.takeGroup {scan : Tree (level + 1)} (ok : Ok (level + 1) limit scan) (lo n : Nat) :
    Ok (level + 1) limit (takeGroup scan lo n) := by
  refine ⟨ok.shape, ?_⟩
  intro i inside
  rw [takeGroup_bitmap]
  split
  · trivial
  · exact ok.live i inside

theorem freeBlocks_takeGroup (scan : Tree (level + 1)) (lo n : Nat) :
    freeBlocks (level + 1) (takeGroup scan lo n) =
      Blocks.without (freeBlocks (level + 1) scan) (lo * radix level) (n * radix level) := by
  rw [freeBlocks_eq, freeBlocks_eq, Blocks.without_group _ lo n (radix_pos level)]
  congr 1
  funext i
  rw [parts, takeGroup_bitmap]
  by_cases member : lo ≤ i ∧ i < lo + n
  · rw [if_pos member, if_pos member, view_allocated, ite_self]
  · rw [if_neg member, if_neg member]
    rfl

section Direct

variable {scan : Tree (level + 1)} {j : Nat}

theorem allocDirect_some
    (is : directLoop scan blk start (radix level) (count / radix level) 16 0 = some j) :
    allocDirect scan blk start count (radix level) =
      (some (blk + j * radix level), takeGroup scan j (count / radix level)) := by
  rw [show allocDirect scan blk start count (radix level) = _ from allocDirect.eq_1 .., is]
  rfl

theorem allocDirect_none
    (is : directLoop scan blk start (radix level) (count / radix level) 16 0 = none) :
    allocDirect scan blk start count (radix level) = (none, Meta.lower scan blk start count) := by
  rw [show allocDirect scan blk start count (radix level) = _ from allocDirect.eq_1 .., is]

/-- A group of free nodes is taken. -/
theorem takeGroup_spec {n : Nat} (ok : Ok (level + 1) limit scan) (aligned : n ∣ j)
    (fits : j + n ≤ 16) (free : ∀ i < n, Meta.bitmap scan (j + i) = .free)
    (late : start ≤ blk + j * radix level) :
    Allocates (level + 1) limit scan blk start (n * radix level)
      (some (blk + j * radix level), takeGroup scan j n) := by
  refine ⟨ok.takeGroup j n, j * radix level, rfl, late, ?_, ?_, ?_, freeBlocks_takeGroup scan j n⟩
  · exact Nat.mul_dvd_mul_right aligned _
  · rw [← Nat.add_mul, radix_succ]
    exact Nat.mul_le_mul_right _ fits
  · intro block member
    rw [Blocks.within_group (radix_pos level), decide_eq_true_eq] at member
    have pair : Meta.bitmap scan (block / radix level) = .free := by
      have free' := free (block / radix level - j) (by omega)
      rwa [Nat.add_sub_cancel' member.1] at free'
    rw [freeBlocks_eq, Blocks.tile, parts, if_pos (by omega), pair, view_free]
    exact decide_eq_true (Nat.mod_lt _ (radix_pos level))

theorem allocDirect_spec {k : Nat} (ok : Ok (level + 1) limit scan)
    (large : radix level ≤ 2 ^ k) (small : 2 ^ k < radix (level + 1)) :
    Allocates (level + 1) limit scan blk start (2 ^ k)
      (allocDirect scan blk start (2 ^ k) (radix level)) := by
  obtain ⟨split, divides, positive⟩ := power_group large small
  cases is : directLoop scan blk start (radix level) (2 ^ k / radix level) 16 0 with
  | some j =>
      obtain ⟨aligned, jSmall, free, late⟩ :=
        (directLoop_spec positive (Nat.dvd_zero _) (Nat.le_refl 16)).1 j is
      have taken := takeGroup_spec ok aligned (Blocks.add_le_of_dvd aligned divides jSmall) free late
      rw [← split] at taken
      rw [allocDirect_some is]
      exact taken
  | none =>
      rw [allocDirect_none is]
      exact ok.lower small.le

end Direct

/-! ## The cases of `alst_meta_alloc` -/

section Cases

variable {search : Tree level → Nat → Nat → Nat → Option Nat × Tree level}
variable {scan found : Meta (Tree level)} {r : Nat}

theorem metaAlloc_allocated (empty : scan.all .allocated = true) :
    metaAlloc level search scan blk start count = (none, { scan with bighint := 0 }) := by
  rw [metaAlloc, if_pos empty]

theorem metaAlloc_direct (used : ¬scan.all .allocated = true) (large : radix level ≤ count) :
    metaAlloc level search scan blk start count =
      allocDirect scan blk start count (radix level) := by
  rw [metaAlloc, if_neg used, if_pos large]

theorem metaAlloc_found (used : ¬scan.all .allocated = true) (less : ¬radix level ≤ count)
    (is : allocLoop level search start count 16 0 blk scan = (some r, found)) :
    metaAlloc level search scan blk start count = (some r, found) := by
  rw [metaAlloc, if_neg used, if_neg less, is]

theorem metaAlloc_missing (used : ¬scan.all .allocated = true) (less : ¬radix level ≤ count)
    (is : allocLoop level search start count 16 0 blk scan = (none, found)) :
    metaAlloc level search scan blk start count = (none, found.lower blk start count) := by
  rw [metaAlloc, if_neg used, if_neg less, is]

end Cases

theorem alloc_succ (scan : Tree (level + 1)) : alloc (level + 1) scan blk start count =
    metaAlloc level (alloc level) scan blk start count := rfl

/-- An allocation of a power of two takes an aligned run of free blocks at or behind the
start and nothing else, or changes no block. -/
theorem alloc_spec {k : Nat} (small : 2 ^ k < radix level) {scan : Tree level}
    (ok : Ok level limit scan) (blk : Nat) :
    Allocates level limit scan blk start (2 ^ k) (alloc level scan blk start (2 ^ k)) := by
  induction level generalizing limit blk with
  | zero =>
      have isLeaf : radix 0 = 32 := rfl
      rw [isLeaf] at small
      exact leafAlloc_spec ok (Nat.two_pow_pos k) small.le
  | succ level ih =>
      rw [alloc_succ]
      by_cases empty : Meta.all scan .allocated = true
      · rw [metaAlloc_allocated empty]
        exact ⟨ok.setHint (Nat.zero_le _), rfl⟩
      · by_cases large : radix level ≤ 2 ^ k
        · rw [metaAlloc_direct empty large]
          exact allocDirect_spec ok large small
        · have below : 2 ^ k < radix level := by omega
          have loop : Allocates (level + 1) limit scan blk start (2 ^ k)
              (allocLoop level (alloc level) start (2 ^ k) 16 0 (blk + 0 * radix level) scan) :=
            allocLoop_spec (fun blk okNode => ih below okNode blk) (Nat.two_pow_pos k)
              (power_dvd_radix below.le) 16 (Nat.zero_add 16) ok
          have first : blk + 0 * radix level = blk := by rw [Nat.zero_mul, Nat.add_zero]
          rw [first] at loop
          cases is : allocLoop level (alloc level) start (2 ^ k) 16 0 blk scan with
          | mk result found =>
              rw [is] at loop
              cases result with
              | some r =>
                  rw [metaAlloc_found empty large is]
                  exact loop
              | none =>
                  rw [metaAlloc_missing empty large is]
                  exact (loop.ok.lower small.le).of_eq loop.answers

end Dragonfly.Kern.Alist
