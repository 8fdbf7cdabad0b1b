import Dragonfly.Kern.Alist.Alloc
import Dragonfly.Kern.Alist.Law

/-!
# Freeing

A free of allocated blocks reaches no panic and puts exactly these blocks into the set of
free blocks.  The range need not be aligned: it is cut at the boundaries of the nodes.
-/

namespace Dragonfly.Kern.Alist

open Dragonfly.Lib Dragonfly.Lib.Bitmap Dragonfly.Lib.Radix
open Dragonfly.Lib.Blocks (FreeRun Taken without_le)

variable {level limit blk freeBlk count : Nat}

/-- What freeing the blocks from `lo` on does to a tree. -/
structure Frees (level limit : Nat) (scan : Tree level) (lo count : Nat) (after : Tree level) : Prop where
  ok : Ok level limit after
  added : freeBlocks level after = Blocks.adding (freeBlocks level scan) lo count
  law : Hinted level scan → Hinted level after

/-- The hint of a node is bounded. -/
theorem Shape.bighint_le {scan : Tree level} (shape : Shape level limit scan) :
    bighint level scan ≤ radix level := by
  cases level with
  | zero => exact shape
  | succ level => exact shape.1

/-! ## Leaves -/

theorem leafFree_spec {scan : Leaf} (ok : Ok 0 limit scan) (aligned : 32 ∣ blk)
    (late : blk ≤ freeBlk) (inside : freeBlk - blk + count ≤ 32)
    (below : freeBlk - blk + count ≤ limit) (positive : 0 < count)
    (taken : Taken (blocks scan.bitmap) (freeBlk - blk) count) :
    ∃ after : Leaf, leafFree scan freeBlk count = .done after ∧
      Frees 0 limit scan (freeBlk - blk) count after := by
  have place : freeBlk % 32 = freeBlk - blk := by
    obtain ⟨k, rfl⟩ := aligned
    omega
  have isMask : blocks (span (freeBlk % 32) count) = Blocks.within (freeBlk - blk) count := by
    rw [place]
    exact blocks_span inside
  have unset : scan.bitmap &&& span (freeBlk % 32) count = 0 := by
    rw [and_eq_zero_iff, isMask]
    exact taken
  have added : blocks (scan.bitmap ||| span (freeBlk % 32) count) =
      Blocks.adding (blocks scan.bitmap) (freeBlk - blk) count := blocks_or isMask
  refine ⟨⟨scan.bitmap ||| span (freeBlk % 32) count, 32⟩, if_pos unset, ⟨le_refl 32, ?_⟩, added,
    fun _ => covers_all fun block large => blocks_eq_false large⟩
  intro block large
  have was : blocks scan.bitmap block = false := ok.live block large
  refine (congrFun added block).trans ?_
  rw [Blocks.adding, was, Bool.false_or, Blocks.within_eq_false_iff]
  omega

/-! ## Nodes below -/

theorem setPair_eq_put {scan : Tree (level + 1)} {i : Nat} {node : Tree level} (pair : Pair)
    (present : Meta.child scan i = some node) : Meta.setPair scan i pair = put scan i pair node := by
  have same : Function.update (Meta.child scan) i (some node) = Meta.child scan := by
    rw [← present, Function.update_eq_self]
  simp only [put, Meta.setPair, Meta.setChild, same]

/-- The node below is there when it has a block. -/
theorem Ok.exists_child {scan : Tree (level + 1)} (ok : Ok (level + 1) limit scan) {i : Nat}
    (inside : i < 16) (below : i * radix level < limit) :
    ∃ node, Meta.child scan i = some node ∧ Shape level (limit - i * radix level) node :=
  (ok.shape.2 i inside).2 below

/-- The pair of a node below whose blocks are all allocated. -/
theorem Ok.pair_allocated {scan : Tree (level + 1)} (ok : Ok (level + 1) limit scan) {i : Nat}
    (inside : i < 16) (none : ∀ block < radix level, parts scan i block = false) :
    Meta.bitmap scan i = .allocated := by
  have pair := ok.live i inside
  rw [parts, if_pos inside] at none
  cases is : Meta.bitmap scan i with
  | allocated => rfl
  | reserved =>
      rw [is] at pair
      exact pair.elim
  | free =>
      have first := none 0 (radix_pos level)
      simp [is, radix_pos] at first
  | partly =>
      rw [is] at pair none
      obtain ⟨node, child, -, ⟨block, small, set⟩, -⟩ := pair
      have unset := none block small
      rw [child, view_partly, set] at unset
      cases unset

/-- The pair of a node below whose blocks are all free. -/
theorem Ok.pair_free {scan : Tree (level + 1)} (ok : Ok (level + 1) limit scan) {i : Nat}
    (inside : i < 16) (all : ∀ block < radix level, parts scan i block = true) :
    Meta.bitmap scan i = .free := by
  have pair := ok.live i inside
  rw [parts, if_pos inside] at all
  cases is : Meta.bitmap scan i with
  | free => rfl
  | reserved =>
      rw [is] at pair
      exact pair.elim
  | allocated =>
      have first := all 0 (radix_pos level)
      simp [is] at first
  | partly =>
      rw [is] at pair all
      obtain ⟨node, child, -, -, ⟨block, small, unset⟩⟩ := pair
      have set := all block small
      rw [child, view_partly, unset] at set
      cases set

/-- The node below as a free finds it. -/
def cleared (scan : Tree (level + 1)) (i : Nat) (node : Tree level) : Tree level :=
  if Meta.bitmap scan i = .allocated then setAllocated level node else node

/-- The node below has the free blocks that its pair stands for, if not all are free. -/
theorem Ok.cleared {scan : Tree (level + 1)} (ok : Ok (level + 1) limit scan) {i : Nat} (inside : i < 16)
    {node : Tree level} (present : Meta.child scan i = some node) {block : Nat}
    (small : block < radix level) (taken : parts scan i block = false) :
    Ok level (limit - i * radix level) (Alist.cleared scan i node) ∧
      freeBlocks level (Alist.cleared scan i node) = parts scan i := by
  have shape := (ok.child inside present).2
  have pair := ok.live i inside
  have part : parts scan i =
      view (radix level) (freeBlocks level) (Meta.bitmap scan i) (some node) := by
    rw [parts, if_pos inside, present]
  rw [part] at taken ⊢
  rw [Alist.cleared]
  cases is : Meta.bitmap scan i with
  | reserved =>
      rw [is] at pair
      exact pair.elim
  | free =>
      rw [is, view_free_apply, decide_eq_true small] at taken
      cases taken
  | allocated =>
      rw [if_pos rfl, freeBlocks_setAllocated, view_allocated]
      exact ⟨setAllocated_ok shape, rfl⟩
  | partly =>
      rw [is, present] at pair
      obtain ⟨other, same, live, -⟩ := pair
      cases same
      rw [if_neg (by decide), view_partly]
      exact ⟨⟨shape, live⟩, rfl⟩

/-- A node below after a free in it, with its pair. -/
theorem Ok.put_freed {scan : Tree (level + 1)} (ok : Ok (level + 1) limit scan) {i : Nat}
    (inside : i < 16) {old node : Tree level} (present : Meta.child scan i = some old)
    (okNode : Ok level (limit - i * radix level) node) {lo : Nat} (positive : 0 < count)
    (fits : lo + count ≤ radix level)
    (added : freeBlocks level node = Blocks.adding (parts scan i) lo count) :
    Ok (level + 1) limit (Alist.put scan i (if isOnes level node then .free else .partly) node) ∧
      freeBlocks (level + 1) (Alist.put scan i (if isOnes level node then .free else .partly) node) =
        Blocks.adding (freeBlocks (level + 1) scan) (i * radix level + lo) count := by
  have full := okNode.live.isOnes_iff
  have below := (ok.child inside present).1
  rw [freeBlocks_eq, freeBlocks_eq, parts_put scan inside,
    Blocks.adding_tile _ fits (radix_pos level), ← added]
  cases is : isOnes level node with
  | true =>
      rw [is] at full
      have all := full.mp rfl
      have covered : (i + 1) * radix level ≤ limit := by
        by_contra short
        rw [Nat.succ_mul] at short
        have outside := all (limit - i * radix level) (by omega)
        rw [okNode.live.freeBlocks_of_ge (le_refl _)] at outside
        cases outside
      have everything : freeBlocks level node = fun block => decide (block < radix level) := by
        funext block
        by_cases small : block < radix level
        · rw [all block small, decide_eq_true small]
        · rw [freeBlocks_of_ge node (by omega), decide_eq_false small]
      rw [if_pos rfl, view_free, everything]
      exact ⟨ok.put inside present okNode.shape covered, rfl⟩
  | false =>
      rw [is] at full
      rw [if_neg (by decide), view_partly]
      refine ⟨ok.put inside present okNode.shape ⟨node, rfl, okNode.live, ⟨lo, by omega, ?_⟩, ?_⟩, rfl⟩
      · have member : Blocks.within lo count lo = true := Blocks.within_iff.mpr ⟨le_refl _, by omega⟩
        rw [added, Blocks.adding, member, Bool.or_true]
      · by_contra every
        push Not at every
        have ones := full.mpr fun block small => by simpa using every block small
        cases ones

/-- A node below that becomes free as a whole. -/
theorem Ok.put_whole {scan : Tree (level + 1)} (ok : Ok (level + 1) limit scan) {i : Nat}
    (inside : i < 16) {node : Tree level} (present : Meta.child scan i = some node)
    (covered : (i + 1) * radix level ≤ limit) :
    Ok (level + 1) limit (Alist.put scan i .free node) ∧
      freeBlocks (level + 1) (Alist.put scan i .free node) =
        Blocks.adding (freeBlocks (level + 1) scan) (i * radix level) (radix level) := by
  refine ⟨ok.put inside present (ok.child inside present).2 covered, ?_⟩
  have added : Blocks.adding (Blocks.tile (radix level) (parts scan)) (i * radix level + 0) (radix level) =
      Blocks.tile (radix level)
        (Function.update (parts scan) i (Blocks.adding (parts scan i) 0 (radix level))) :=
    Blocks.adding_tile _ (Nat.zero_add (radix level)).le (radix_pos level)
  rw [Nat.add_zero] at added
  rw [freeBlocks_eq, freeBlocks_eq, parts_put scan inside, added]
  congr 2
  funext block
  by_cases small : block < radix level
  · rw [view_free_apply, decide_eq_true small, Blocks.adding, Blocks.within_iff.mpr (by omega),
      Bool.or_true]
  · have none : parts scan i block = false := by
      rw [parts, if_pos inside, present]
      have outside := freeBlocks_of_ge node (Nat.le_of_not_lt small)
      cases Meta.bitmap scan i with
      | free => exact decide_eq_false small
      | partly => exact outside
      | _ => rfl
    rw [view_free_apply, decide_eq_false small, Blocks.adding, none,
      Blocks.within_eq_false_iff.mpr (by omega), Bool.or_false]

/-- The law after a node below has become free as a whole. -/
theorem Hinted.put_free {scan : Tree (level + 1)} (hinted : Hinted (level + 1) scan) (i : Nat)
    (node : Tree level) : Hinted (level + 1) (setHint (put scan i .free node) (radix level * 16)) := by
  refine ⟨covers_all fun block large => ?_, ?_⟩
  · apply freeBlocks_of_ge
    rw [radix_succ, Nat.mul_comm]
    exact large
  · have nodes : Below (put scan i .free node) 0 fun _ child => Hinted level child :=
      Below.put (fun j _ => hinted.2 j) (fun partly => by cases partly)
    exact fun j => nodes j (Nat.zero_le j)

/-- The law after a node below has become free in part. -/
theorem Hinted.put_partly {scan : Tree (level + 1)} (hinted : Hinted (level + 1) scan) {i : Nat}
    (inside : i < 16) {node : Tree level} (hintedNode : Hinted level node)
    (gap : ∃ block < radix level, freeBlocks level node block = false) :
    Hinted (level + 1)
      (setHint (put scan i .partly node) (max (Meta.bighint scan) (bighint level node))) := by
  refine ⟨covers_put_partly inside hinted.1 hintedNode gap, ?_⟩
  have nodes : Below (put scan i .partly node) 0 fun _ child => Hinted level child :=
    Below.put (fun j _ => hinted.2 j) (fun _ => hintedNode)
  exact fun j => nodes j (Nat.zero_le j)

/-- The law for a node below as a free finds it. -/
theorem Hinted.cleared_hinted {scan : Tree (level + 1)} (hinted : Hinted (level + 1) scan) {i : Nat}
    (ok : Ok (level + 1) limit scan) (inside : i < 16)
    {node : Tree level} (present : Meta.child scan i = some node) {block : Nat}
    (small : block < radix level) (taken : parts scan i block = false) :
    Hinted level (Alist.cleared scan i node) := by
  have pair := ok.live i inside
  rw [parts, if_pos inside] at taken
  rw [Alist.cleared]
  cases is : Meta.bitmap scan i with
  | reserved =>
      rw [is] at pair
      exact pair.elim
  | free =>
      rw [is, view_free_apply, decide_eq_true small] at taken
      cases taken
  | allocated =>
      rw [if_pos rfl]
      exact setAllocated_hinted node
  | partly =>
      rw [if_neg (by decide)]
      exact hinted.2 i inside is node present

/-! ## The loop -/

/-- The loop puts the range into the set, whatever part of it lies in each node below. -/
theorem freeLoop_spec {release : Tree level → Nat → Nat → Nat → Outcome (Tree level)}
    (spec : ∀ {limit blk freeBlk count : Nat} {node : Tree level}, Ok level limit node →
      radix level ∣ blk → blk ≤ freeBlk → freeBlk - blk + count ≤ radix level →
      freeBlk - blk + count ≤ limit → 0 < count →
      Taken (freeBlocks level node) (freeBlk - blk) count →
      ∃ after, release node freeBlk count blk = .done after ∧
        Frees level limit node (freeBlk - blk) count after)
    (bounded : radix (level + 1) < 0xFFFFFFFF) (aligned : radix (level + 1) ∣ blk) (fuel : Nat)
    {i lo count : Nat} (all : i + fuel = 16) {scan : Tree (level + 1)} (ok : Ok (level + 1) limit scan)
    (stands : Stands level i lo count) (inside : lo + count ≤ radix (level + 1))
    (below : lo + count ≤ limit) (taken : Taken (freeBlocks (level + 1) scan) lo count) :
    ∃ after : Tree (level + 1),
      freeLoop level release fuel i (blk + i * radix level) (blk + lo) count scan = .done after ∧
        Frees (level + 1) limit scan lo count after := by
  induction fuel generalizing i lo count scan with
  | zero =>
      refine ⟨scan, rfl, ok, ?_, id⟩
      obtain ⟨none, -⟩ | ⟨some, from_, -⟩ := stands
      · rw [none, Blocks.adding_zero]
      · rw [radix_succ] at inside
        obtain rfl : i = 16 := by omega
        omega
  | succ fuel ih =>
      have iInside : i < 16 := by omega
      have next : blk + i * radix level + radix level = blk + (i + 1) * radix level := by
        rw [Nat.succ_mul]
        omega
      rw [show freeLoop level release (fuel + 1) i (blk + i * radix level) (blk + lo) count scan = _
        from freeLoop.eq_2 ..]
      by_cases some : 0 < count
      · -- some of the range lies in this node
        have reaches : blk + i * radix level < blk + lo + count := by
          unfold Stands at stands
          omega
        have start : i * radix level ≤ lo ∧ lo < (i + 1) * radix level := by
          unfold Stands at stands
          omega
        obtain ⟨atMost, vPositive, fits, standsNext⟩ := stands.next some rfl
        generalize vIs : min ((i + 1) * radix level - lo) count = v at *
        have v' : min (blk + i * radix level + radix level - (blk + lo)) count = v := by
          rw [next, ← vIs]
          congr 1
          omega
        obtain ⟨node, present, shape⟩ := ok.exists_child iInside (by omega)
        have hint : Meta.bighint scan ≠ 0xFFFFFFFF := by
          have := ok.shape.1
          omega
        rw [if_pos reaches]
        simp only [v', Outcome.kkassert_of hint]
        -- what is left to do after the node
        have continues : ∀ {changed : Tree (level + 1)}, Frees (level + 1) limit scan lo v changed →
            ∃ after : Tree (level + 1),
              freeLoop level release fuel (i + 1) (blk + i * radix level + radix level)
                (blk + lo + v) (count - v) changed = .done after ∧
              Frees (level + 1) limit scan lo count after := by
          intro changed frees
          have rest : Taken (freeBlocks (level + 1) changed) (lo + v) (count - v) := by
            rw [frees.added]
            refine Taken.rest ?_
            rwa [Nat.add_sub_cancel' atMost]
          obtain ⟨after, is, last⟩ :=
            ih (by omega) frees.ok standsNext (by omega) (by omega) rest
          refine ⟨after, ?_, last.ok, ?_, fun hinted => last.law (frees.law hinted)⟩
          · rw [next, Nat.add_assoc blk lo v]
            exact is
          · rw [last.added, frees.added, Blocks.adding_add, Nat.add_sub_cancel' atMost]
        by_cases whole : blk + lo = blk + i * radix level ∧ radix level ≤ count
        · -- the range covers the node
          have atStart : lo = i * radix level := by omega
          have vWhole : v = radix level := by
            rw [← vIs, Nat.succ_mul]
            omega
          have none : ∀ block < radix level, parts scan i block = false := by
            intro block small
            have was := taken (i * radix level + block) (Blocks.within_iff.mpr (by omega))
            rwa [freeBlocks_eq, Blocks.tile_apply _ _ small] at was
          have allocated := ok.pair_allocated iInside none
          have covered : (i + 1) * radix level ≤ limit := by
            rw [Nat.succ_mul]
            omega
          obtain ⟨okPut, added⟩ := ok.put_whole iInside present covered
          rw [if_pos whole, Outcome.kkassert_of allocated, setPair_eq_put .free present]
          refine @continues (setHint (put scan i .free node) (radix level * 16))
            ⟨?_, ?_, fun hinted => hinted.put_free i node⟩
          · exact okPut.setHint (by rw [radix_succ, Nat.mul_comm])
          · rw [freeBlocks_setHint, added, atStart, vWhole]
        · -- the range ends or starts inside the node
          rw [if_neg whole]
          have member : parts scan i (lo - i * radix level) = false := by
            have was := taken lo (Blocks.within_iff.mpr (by omega))
            rw [freeBlocks_eq] at was
            rwa [show lo = i * radix level + (lo - i * radix level) by omega,
              Blocks.tile_apply _ _ (by omega)] at was
          have inNodeSmall : lo - i * radix level < radix level := by omega
          obtain ⟨okNode, same⟩ := ok.cleared iInside present inNodeSmall member
          have place : blk + lo - (blk + i * radix level) = lo - i * radix level := by omega
          have takenNode : Taken (freeBlocks level (cleared scan i node)) (lo - i * radix level) v := by
            intro block inNode
            rw [Blocks.within_iff] at inNode
            have was := taken (i * radix level + block) (Blocks.within_iff.mpr (by omega))
            rwa [freeBlocks_eq, Blocks.tile_apply _ _ (by omega), ← same] at was
          have alignedNode : radix level ∣ blk + i * radix level := by
            rw [radix_succ] at aligned
            exact Nat.dvd_add (Nat.dvd_trans (Nat.dvd_mul_left (radix level) 16) aligned) (Nat.dvd_mul_left _ i)
          have late : blk + i * radix level ≤ blk + lo := by omega
          have limited : lo - i * radix level + v ≤ limit - i * radix level := by omega
          rw [← place] at fits limited takenNode
          obtain ⟨found, is, frees⟩ := spec okNode alignedNode late fits limited vPositive takenNode
          rw [place] at frees fits
          obtain ⟨okPut, added⟩ := ok.put_freed iInside present frees.ok vPositive fits
            (by rw [frees.added, same])
          rw [show i * radix level + (lo - i * radix level) = lo by omega] at added
          have init : (if Meta.bitmap scan i = .allocated then setAllocated level node else node) =
            cleared scan i node := rfl
          simp only [present, init, is, Outcome.bind]
          split
          · rename_i full
            rw [if_pos full] at okPut added
            refine @continues (setHint (put scan i .free found) (radix level * 16))
              ⟨?_, ?_, fun hinted => hinted.put_free i found⟩
            · exact okPut.setHint (by rw [radix_succ, Nat.mul_comm])
            · rw [freeBlocks_setHint, added]
          · rename_i notFull
            rw [if_neg notFull] at okPut added
            have gap : ∃ block < radix level, freeBlocks level found block = false := by
              by_contra every
              push Not at every
              exact notFull (frees.ok.live.isOnes_iff.mpr fun block small => by
                simpa using every block small)
            refine @continues (setHint (put scan i .partly found)
              (max (Meta.bighint scan) (bighint level found)))
              ⟨?_, ?_, fun hinted => hinted.put_partly iInside
                (frees.law (hinted.cleared_hinted ok iInside present inNodeSmall member)) gap⟩
            · refine okPut.setHint ?_
              have small := frees.ok.shape.bighint_le
              have hintSmall := ok.shape.1
              rw [radix_succ] at hintSmall ⊢
              omega
            · rw [freeBlocks_setHint, added]
      · have done : ¬blk + i * radix level < blk + lo + count := by
          unfold Stands at stands
          omega
        rw [if_neg done]
        refine ⟨scan, rfl, ok, ?_, id⟩
        rw [show count = 0 by omega, Blocks.adding_zero]

theorem free_succ (scan : Tree (level + 1)) : free (level + 1) scan freeBlk count blk =
    metaFree level (free level) scan freeBlk count blk := rfl

/-- A free of allocated blocks of a node makes exactly these blocks free. -/
theorem free_spec (bounded : radix level < 0xFFFFFFFF) {scan : Tree level} (ok : Ok level limit scan)
    (aligned : radix level ∣ blk) (late : blk ≤ freeBlk)
    (inside : freeBlk - blk + count ≤ radix level) (below : freeBlk - blk + count ≤ limit)
    (positive : 0 < count) (taken : Taken (freeBlocks level scan) (freeBlk - blk) count) :
    ∃ after, free level scan freeBlk count blk = .done after ∧
      Frees level limit scan (freeBlk - blk) count after := by
  induction level generalizing limit blk freeBlk count with
  | zero => exact leafFree_spec ok aligned late inside below positive taken
  | succ level ih =>
      have smaller : radix level < 0xFFFFFFFF := by
        rw [radix_succ] at bounded
        omega
      obtain ⟨lo, rfl⟩ : ∃ lo, freeBlk = blk + lo := ⟨freeBlk - blk, by omega⟩
      rw [Nat.add_sub_cancel_left] at *
      have positive' := radix_pos level
      have first : lo / radix level < 16 := by
        rw [Nat.div_lt_iff_lt_mul positive', ← radix_succ]
        omega
      have stands : Stands level (lo / radix level) lo count :=
        .inr ⟨positive, Nat.div_mul_le_self lo _, by
          have split := Nat.div_add_mod lo (radix level)
          have rest := Nat.mod_lt lo positive'
          rw [Nat.succ_mul, Nat.mul_comm]
          omega⟩
      rw [free_succ, show metaFree level (free level) scan (blk + lo) count blk = _ from metaFree.eq_1 ..]
      simp only [Nat.add_sub_cancel_left]
      exact freeLoop_spec (fun okNode => ih smaller okNode) bounded aligned
        (16 - lo / radix level) (by omega) ok stands inside below taken

end Dragonfly.Kern.Alist
