import Mathlib.Algebra.Order.Ring.Int
import Dragonfly.Lib.Radix

/-!
# The arrays of the radix allocators

Both allocators lay out their tree in one array: a meta node is followed by its 16 nodes
below, `skip / 16` records apart.  The number of records comes from a dry run of the
initialisation.  For the power-of-two allocator it counts the nodes that are there, but the
initialisation writes terminators at the full distance.
-/

namespace Dragonfly.Kern.Layout

open Dragonfly.Lib.Radix

/-- `skip` of a node of the given level -/
def skip : Nat → Nat
  | 0 => 0
  | level + 1 => (skip level + 1) * 16

/-- The distance of the nodes below a meta node, `next_skip`. -/
def nextSkip (level : Nat) : Nat := skip (level + 1) / 16

/-- The sum that a loop over the first `n` nodes below adds up. -/
def sumTo (memindex : Nat → Nat) : Nat → Nat
  | 0 => 0
  | n + 1 => sumTo memindex n + memindex n

/-- The result of `alst_radix_init`, for a node with `left` blocks from its first one on. -/
def alstRadixInit : Nat → Nat → Nat
  | 0, _ => 0
  | level + 1, left =>
      sumTo (fun i => if i * radix level < left then alstRadixInit level (left - i * radix level) else 0) 16
        + 16

/-- The records that `alst_radix_init` writes, with the terminators of all nodes below that
are not there. -/
def alstWrites : Nat → Nat → Nat → List Nat
  | 0, scan, _ => [scan]
  | level + 1, scan, left => scan :: (List.range 16).flatMap fun i =>
      if i * radix level < left then alstWrites level (scan + (1 + i * nextSkip level)) (left - i * radix level)
      else [scan + (1 + i * nextSkip level)]

/-- The loop of `blst_radix_init`: `i` is the record of the next node below. -/
def blstInitLoop (level : Nat) (init : Nat → Nat) : Nat → Nat → Nat → Nat → Nat
  | 0, i, _, memindex => max memindex i
  | fuel + 1, i, count, memindex =>
      if 0 < count then
        blstInitLoop level init fuel (i + nextSkip level) (count - radix level)
          (i + init (min count (radix level)))
      else max memindex i

/-- The result of `blst_radix_init`. -/
def blstRadixInit : Nat → Nat → Nat
  | 0, _ => 0
  | level + 1, count => blstInitLoop level (blstRadixInit level) 16 1 count 0

/-- The records that a loop over the nodes below looks at if it stops at the first
terminator, and goes into every node before. -/
def visitLoop (level : Nat) (visits : Nat → Nat → List Nat) (scan : Nat) : Nat → Nat → Nat → List Nat
  | 0, _, _ => []
  | fuel + 1, i, count =>
      if 0 < count then
        visits (scan + i) (min count (radix level)) ++
          visitLoop level visits scan fuel (i + nextSkip level) (count - radix level)
      else [scan + i]

/-- The records that `blst_radix_init` writes.  The searches, the loops that initialise the
nodes below and the copy of a resize look at some of these. -/
def visits : Nat → Nat → Nat → List Nat
  | 0, scan, _ => [scan]
  | level + 1, scan, count => scan :: visitLoop level (visits level) scan 16 1 count

/-- The records on the way to a block, which a free or a fill of the block uses. -/
def path : Nat → Nat → Nat → List Nat
  | 0, scan, _ => [scan]
  | level + 1, scan, block =>
      scan :: path level (scan + (1 + block / radix level * nextSkip level)) (block % radix level)

/-- `bl_rootblks` of `alist_create` and `alist_init` -/
def alistRootblks (blocks : Nat) : Nat := 1 + alstRadixInit (levelOf blocks) blocks

/-- `bl_rootblks` of `blist_create` -/
def blistRootblks (blocks : Nat) : Nat := 1 + blstRadixInit (levelOf blocks) blocks

/-- Every record that the initialisation or a later operation of the power-of-two allocator
reads or writes is in the array. -/
def AlistInBounds (blocks nrecords : Nat) : Prop :=
  ∀ index, index ∈ alstWrites (levelOf blocks) 0 blocks ∨ index ∈ visits (levelOf blocks) 0 blocks ∨
    (∃ block < blocks, index ∈ path (levelOf blocks) 0 block) → index < nrecords

/-- Every record that the initialisation or a later operation of the bitmap allocator reads
or writes is in the array. -/
def BlistInBounds (blocks : Nat) : Prop :=
  ∀ index, index ∈ visits (levelOf blocks) 0 blocks ∨
    (∃ block < blocks, index ∈ path (levelOf blocks) 0 block) → index < blistRootblks blocks

/-- The records of a node fit into what the initialisation counts: in a node above level one,
the last of the 16 nodes below is there, or only the last 512 blocks before it are missing;
and if it is there, it is so in it. -/
def Dense : Nat → Nat → Prop
  | 0, _ => True
  | 1, _ => True
  | level + 2, left => 15 * radix (level + 1) < left + radix 1 ∧
      (15 * radix (level + 1) < left → Dense (level + 1) (left - 15 * radix (level + 1)))

variable {level left count scan index : Nat}

theorem nextSkip_eq (level : Nat) : nextSkip level = skip level + 1 := by
  rw [nextSkip, skip, Nat.mul_div_cancel _ (by decide)]

theorem sumTo_le {memindex : Nat → Nat} {most : Nat} (bounded : ∀ i, memindex i ≤ most) (n : Nat) :
    sumTo memindex n ≤ n * most := by
  induction n with
  | zero => exact Nat.zero_le _
  | succ n ih =>
      rw [sumTo, Nat.succ_mul]
      exact Nat.add_le_add ih (bounded n)

theorem sumTo_eq {memindex : Nat → Nat} {each n : Nat} (all : ∀ i < n, memindex i = each) :
    sumTo memindex n = n * each := by
  induction n with
  | zero => rw [sumTo, Nat.zero_mul]
  | succ n ih =>
      rw [sumTo, Nat.succ_mul, ih fun i less => all i (Nat.lt_succ_of_lt less), all n (Nat.lt_succ_self n)]

/-! ## The number of records -/

theorem alstSum_le (bounded : ∀ left, alstRadixInit level left ≤ skip level) (left n : Nat) :
    sumTo (fun i => if i * radix level < left then alstRadixInit level (left - i * radix level) else 0) n ≤
      n * skip level := by
  apply sumTo_le
  intro i
  split
  · exact bounded _
  · exact Nat.zero_le _

theorem alstRadixInit_le (level left : Nat) : alstRadixInit level left ≤ skip level := by
  induction level generalizing left with
  | zero => exact le_refl 0
  | succ level ih =>
      have sum := alstSum_le ih left 16
      rw [alstRadixInit, skip]
      omega

theorem skip_pos (level : Nat) : 0 < skip (level + 1) := by
  rw [skip]
  omega

theorem radix_one_le (level : Nat) : radix 1 ≤ radix (level + 1) :=
  Nat.le_of_dvd (radix_pos _) (radix_dvd (by omega))

/-- All records are counted if the last 512 blocks of a node are not all missing. -/
theorem alstRadixInit_eq (level : Nat) {left : Nat} (most : radix (level + 1) < left + radix 1) :
    alstRadixInit (level + 1) left = skip (level + 1) := by
  induction level generalizing left with
  | zero =>
      have none : sumTo (fun i => if i * radix 0 < left then alstRadixInit 0 (left - i * radix 0) else 0)
          16 = 16 * 0 := by
        apply sumTo_eq
        intro i _
        rw [alstRadixInit, ite_self]
      rw [alstRadixInit, none]
      rfl
  | succ level ih =>
      have one := radix_one_le level
      rw [radix_succ (level + 1)] at most
      have all : sumTo (fun i => if i * radix (level + 1) < left then
          alstRadixInit (level + 1) (left - i * radix (level + 1)) else 0) 16 = 16 * skip (level + 1) := by
        apply sumTo_eq
        intro i less
        have upper := Nat.mul_le_mul_right (radix (level + 1)) (Nat.succ_le_of_lt less)
        rw [Nat.succ_mul] at upper
        rw [if_pos (by omega)]
        exact ih (by omega)
      rw [alstRadixInit, all, show skip (level + 1 + 1) = (skip (level + 1) + 1) * 16 from rfl]
      omega

/-- Records are not counted if the last 512 blocks of a node are missing. -/
theorem alstRadixInit_lt (level : Nat) {left : Nat} (some : 0 < left)
    (few : left + radix 1 ≤ radix (level + 1)) : alstRadixInit (level + 1) left < skip (level + 1) := by
  induction level generalizing left with
  | zero =>
      rw [Nat.zero_add] at few
      omega
  | succ level ih =>
      have positive := skip_pos level
      have front := alstSum_le (alstRadixInit_le (level + 1)) left 15
      have last : (if 15 * radix (level + 1) < left then
          alstRadixInit (level + 1) (left - 15 * radix (level + 1)) else 0) < skip (level + 1) := by
        split
        · rw [radix_succ (level + 1)] at few
          exact ih (by omega) (by omega)
        · exact positive
      rw [alstRadixInit, sumTo, show skip (level + 1 + 1) = (skip (level + 1) + 1) * 16 from rfl]
      omega

/-! ## The records that are written -/

theorem mem_alstWrites_succ : index ∈ alstWrites (level + 1) scan left ↔ index = scan ∨ ∃ i < 16,
    (i * radix level < left ∧
      index ∈ alstWrites level (scan + (1 + i * nextSkip level)) (left - i * radix level)) ∨
    (left ≤ i * radix level ∧ index = scan + (1 + i * nextSkip level)) := by
  rw [alstWrites, List.mem_cons, List.mem_flatMap]
  refine or_congr_right (exists_congr fun i => ?_)
  rw [List.mem_range]
  refine and_congr_right fun _ => ?_
  split
  · rename_i there
    constructor
    · exact fun member => .inl ⟨there, member⟩
    · rintro (⟨-, member⟩ | ⟨absent, -⟩)
      · exact member
      · omega
  · rename_i absent
    rw [List.mem_singleton]
    constructor
    · exact fun is => .inr ⟨by omega, is⟩
    · rintro (⟨there, -⟩ | ⟨-, is⟩)
      · omega
      · exact is

/-- The first record of a node is written. -/
theorem self_mem_alstWrites (level scan left : Nat) : scan ∈ alstWrites level scan left := by
  cases level <;> exact List.mem_cons_self

/-- The first record of the last node below is written, also if the node is not there. -/
theorem last_mem_alstWrites (level scan left : Nat) :
    scan + (1 + 15 * nextSkip level) ∈ alstWrites (level + 1) scan left := by
  rw [mem_alstWrites_succ]
  refine .inr ⟨15, by decide, ?_⟩
  by_cases there : 15 * radix level < left
  · exact .inl ⟨there, self_mem_alstWrites ..⟩
  · exact .inr ⟨by omega, rfl⟩

theorem alstWrites_le (member : index ∈ alstWrites level scan left) : index ≤ scan + skip level := by
  induction level generalizing scan left with
  | zero =>
      rw [alstWrites, List.mem_singleton] at member
      omega
  | succ level ih =>
      rw [mem_alstWrites_succ, nextSkip_eq] at member
      rw [skip]
      obtain rfl | ⟨i, inside, ⟨-, below⟩ | ⟨-, rfl⟩⟩ := member
      · omega
      · have bound := ih below
        have upper := Nat.mul_le_mul_right (skip level + 1) (Nat.succ_le_of_lt inside)
        rw [Nat.succ_mul] at upper
        omega
      · have upper := Nat.mul_le_mul_right (skip level + 1) (Nat.succ_le_of_lt inside)
        rw [Nat.succ_mul] at upper
        omega

/-- The number of records of a node of which at most the last node below is not there or not
complete. -/
theorem alstRadixInit_near (near : 15 * radix (level + 1) < left + radix 1) :
    alstRadixInit (level + 2) left = 15 * skip (level + 1) + (if 15 * radix (level + 1) < left then
      alstRadixInit (level + 1) (left - 15 * radix (level + 1)) else 0) + 16 := by
  have one := radix_one_le level
  have front : sumTo (fun i => if i * radix (level + 1) < left then
      alstRadixInit (level + 1) (left - i * radix (level + 1)) else 0) 15 = 15 * skip (level + 1) := by
    apply sumTo_eq
    intro i less
    have upper := Nat.mul_le_mul_right (radix (level + 1)) (Nat.succ_le_of_lt less)
    rw [Nat.succ_mul] at upper
    rw [if_pos (by omega)]
    exact alstRadixInit_eq level (by omega)
  rw [alstRadixInit, sumTo, front]

/-- Otherwise it is smaller. -/
theorem alstRadixInit_far (far : left + radix 1 ≤ 15 * radix (level + 1)) :
    alstRadixInit (level + 2) left < 15 * skip (level + 1) + 16 := by
  have positive := skip_pos level
  have front := alstSum_le (alstRadixInit_le (level + 1)) left 14
  have near : (if 14 * radix (level + 1) < left then
      alstRadixInit (level + 1) (left - 14 * radix (level + 1)) else 0) < skip (level + 1) := by
    split
    · exact alstRadixInit_lt level (by omega) (by omega)
    · exact positive
  rw [alstRadixInit, sumTo, sumTo, if_neg (show ¬15 * radix (level + 1) < left by omega)]
  omega

/-- The records of a node are counted exactly if the node is dense. -/
theorem alstWrites_counted_iff (some : 0 < left) :
    (∀ index ∈ alstWrites level scan left, index ≤ scan + alstRadixInit level left) ↔ Dense level left := by
  induction level using Nat.twoStepInduction generalizing scan left with
  | zero =>
      refine ⟨fun _ => trivial, fun _ index member => ?_⟩
      rw [alstWrites, List.mem_singleton] at member
      omega
  | one =>
      refine ⟨fun _ => trivial, fun _ index member => ?_⟩
      have bound := alstWrites_le member
      rwa [alstRadixInit_eq 0 (by rw [Nat.zero_add]; omega)]
  | more level _ ih =>
      have step := nextSkip_eq (level + 1)
      constructor
      · intro counted
        have last := counted _ (last_mem_alstWrites (level + 1) scan left)
        rw [step] at last
        have near : 15 * radix (level + 1) < left + radix 1 := by
          by_contra far
          have fewer := alstRadixInit_far (Nat.le_of_not_lt far)
          omega
        refine ⟨near, fun there => ?_⟩
        -- the records of the last node below
        refine (@ih (left - 15 * radix (level + 1)) (scan + (1 + 15 * nextSkip (level + 1)))
          (by omega)).mp fun index member => ?_
        have bound := counted index
          ((mem_alstWrites_succ).mpr (.inr ⟨15, by decide, .inl ⟨there, member⟩⟩))
        rw [alstRadixInit_near near, if_pos there] at bound
        rw [step]
        omega
      · rintro ⟨near, dense⟩ index member
        rw [alstRadixInit_near near]
        rw [mem_alstWrites_succ, step] at member
        obtain rfl | ⟨i, inside, ⟨there, below⟩ | ⟨absent, rfl⟩⟩ := member
        · omega
        · by_cases last : i = 15
          · subst last
            have bound := (ih (by omega)).mpr (dense there) index below
            rw [if_pos there]
            omega
          · have bound := alstWrites_le below
            have upper := Nat.mul_le_mul_right (skip (level + 1) + 1) (show i + 1 ≤ 15 by omega)
            rw [Nat.succ_mul] at upper
            omega
        · have upper := Nat.mul_le_mul_right (skip (level + 1) + 1) (show i ≤ 15 by omega)
          omega

/-! ## The records that a loop visits -/

/-- A visit of the nodes below: each is there and visited, or it is the terminator. -/
theorem mem_visitLoop {inner : Nat → Nat → List Nat} (fuel : Nat) {first : Nat}
    (member : index ∈ visitLoop level inner scan fuel first count) : ∃ i < fuel,
      (i * radix level < count ∧ index ∈ inner (scan + (first + i * nextSkip level))
        (min (count - i * radix level) (radix level))) ∨
      (count ≤ i * radix level ∧ index = scan + (first + i * nextSkip level)) := by
  induction fuel generalizing first count with
  | zero => cases member
  | succ fuel ih =>
      rw [visitLoop] at member
      split at member
      · rename_i there
        rw [List.mem_append] at member
        obtain here | later := member
        · refine ⟨0, Nat.succ_pos fuel, .inl ⟨by omega, ?_⟩⟩
          rwa [Nat.zero_mul, Nat.zero_mul, Nat.add_zero, Nat.sub_zero]
        · obtain ⟨i, less, found⟩ := ih later
          refine ⟨i + 1, by omega, ?_⟩
          rw [Nat.succ_mul, Nat.succ_mul, show first + (i * nextSkip level + nextSkip level) =
            first + nextSkip level + i * nextSkip level by omega, show count - (i * radix level +
            radix level) = count - radix level - i * radix level by omega]
          obtain ⟨there', found⟩ | ⟨absent, is⟩ := found
          · exact .inl ⟨by omega, found⟩
          · exact .inr ⟨by omega, is⟩
      · rename_i absent
        rw [List.mem_singleton] at member
        refine ⟨0, Nat.succ_pos fuel, .inr ⟨by omega, ?_⟩⟩
        rwa [Nat.zero_mul, Nat.add_zero]

/-- All nodes that are there are visited. -/
theorem visitLoop_mem {inner : Nat → Nat → List Nat} {fuel first i : Nat} (less : i < fuel)
    (there : i * radix level < count)
    (member : index ∈ inner (scan + (first + i * nextSkip level))
      (min (count - i * radix level) (radix level))) :
    index ∈ visitLoop level inner scan fuel first count := by
  induction i generalizing fuel first count with
  | zero =>
      obtain ⟨fuel, rfl⟩ : ∃ n, fuel = n + 1 := ⟨fuel - 1, by omega⟩
      rw [Nat.zero_mul, Nat.zero_mul, Nat.add_zero, Nat.sub_zero] at member
      rw [visitLoop, if_pos (by omega)]
      exact List.mem_append_left _ member
  | succ i ih =>
      obtain ⟨fuel, rfl⟩ : ∃ n, fuel = n + 1 := ⟨fuel - 1, by omega⟩
      rw [Nat.succ_mul] at there
      rw [Nat.succ_mul, Nat.succ_mul, show first + (i * nextSkip level + nextSkip level) =
        first + nextSkip level + i * nextSkip level by omega, show count - (i * radix level +
        radix level) = count - radix level - i * radix level by omega] at member
      rw [visitLoop, if_pos (by omega)]
      exact List.mem_append_right _ (ih (by omega) (by omega) member)

/-- The records on the way to a block are visited. -/
theorem path_visited {block : Nat} (fits : count ≤ radix level) (small : block < count)
    (member : index ∈ path level scan block) : index ∈ visits level scan count := by
  induction level generalizing scan block count with
  | zero => exact member
  | succ level ih =>
      have positive := radix_pos level
      have parts := Nat.div_add_mod' block (radix level)
      have offset := Nat.mod_lt block positive
      have inside : block / radix level < 16 := by
        rw [Nat.div_lt_iff_lt_mul positive, ← radix_succ]
        omega
      rw [path, List.mem_cons] at member
      rw [visits, List.mem_cons]
      obtain is | below := member
      · exact .inl is
      · refine .inr (visitLoop_mem inside (by omega) ?_)
        exact ih (Nat.min_le_right ..) (by omega) below

/-- The records that are visited are among those that the other initialisation writes. -/
theorem visits_subset (same : min count (radix level) = min left (radix level))
    (member : index ∈ visits level scan count) : index ∈ alstWrites level scan left := by
  induction level generalizing scan count left with
  | zero => exact member
  | succ level ih =>
      rw [visits, List.mem_cons] at member
      rw [mem_alstWrites_succ]
      rw [radix_succ] at same
      obtain is | below := member
      · exact .inl is
      · obtain ⟨i, inside, found⟩ := mem_visitLoop 16 below
        have upper := Nat.mul_le_mul_right (radix level) (Nat.succ_le_of_lt inside)
        rw [Nat.succ_mul] at upper
        have positive := radix_pos level
        refine .inr ⟨i, inside, ?_⟩
        obtain ⟨there, found⟩ | ⟨absent, is⟩ := found
        · exact .inl ⟨by omega, ih (by omega) found⟩
        · exact .inr ⟨by omega, is⟩

theorem visits_le (member : index ∈ visits level scan count) : index ≤ scan + skip level :=
  alstWrites_le (visits_subset rfl member)

/-! ## The bitmap allocator -/

theorem le_blstInitLoop (init : Nat → Nat) (fuel i count memindex : Nat) :
    i ≤ blstInitLoop level init fuel i count memindex := by
  induction fuel generalizing i count memindex with
  | zero => exact Nat.le_max_right ..
  | succ fuel ih =>
      rw [blstInitLoop]
      split
      · exact Nat.le_trans (Nat.le_add_right ..) (ih ..)
      · exact Nat.le_max_right ..

/-- Every record of a loop over the nodes below is counted: the records of a node are before
the next one, and that is at most the result. -/
theorem visitLoop_le {init : Nat → Nat} {fuel i memindex : Nat}
    (member : index ∈ visitLoop level (visits level) scan fuel i count) :
    index ≤ scan + blstInitLoop level init fuel i count memindex := by
  induction fuel generalizing i count memindex with
  | zero => cases member
  | succ fuel ih =>
      rw [visitLoop] at member
      rw [blstInitLoop]
      split at member
      · rename_i there
        rw [if_pos there]
        obtain here | later := List.mem_append.mp member
        · have bound := visits_le here
          have step := nextSkip_eq level
          have next := @le_blstInitLoop level init fuel (i + nextSkip level)
            (count - radix level) (i + init (min count (radix level)))
          omega
        · exact ih later
      · rename_i absent
        rw [List.mem_singleton] at member
        rw [if_neg absent, member]
        exact Nat.add_le_add_left (Nat.le_max_right ..) scan

theorem visits_counted (member : index ∈ visits level scan count) :
    index ≤ scan + blstRadixInit level count := by
  cases level with
  | zero =>
      rw [visits, List.mem_singleton] at member
      omega
  | succ level =>
      rw [visits, List.mem_cons] at member
      obtain is | below := member
      · omega
      · exact visitLoop_le below

/-- The bitmap allocator stays inside its array. -/
theorem blist_in_bounds {blocks : Nat} (small : blocks ≤ 2 ^ 29) : BlistInBounds blocks := by
  have fits := (levelOf_spec small).1
  have counted : ∀ index ∈ visits (levelOf blocks) 0 blocks, index < blistRootblks blocks := by
    intro index member
    have bound := visits_counted member
    unfold blistRootblks
    omega
  rintro index (visited | ⟨block, inside, way⟩)
  · exact counted index visited
  · exact counted index (path_visited fits inside way)

/-! ## Both allocators -/

/-- The power-of-two allocator stays inside its array exactly if its tree is dense. -/
theorem alist_in_bounds_iff {blocks : Nat} (some : 0 < blocks) (small : blocks ≤ 2 ^ 29) :
    AlistInBounds blocks (alistRootblks blocks) ↔ Dense (levelOf blocks) blocks := by
  have fits := (levelOf_spec small).1
  rw [← @alstWrites_counted_iff _ _ 0 some]
  constructor
  · intro bounds index member
    have bound := bounds index (.inl member)
    unfold alistRootblks at bound
    omega
  · intro counted
    have written : ∀ index ∈ alstWrites (levelOf blocks) 0 blocks, index < alistRootblks blocks := by
      intro index member
      have bound := counted index member
      unfold alistRootblks
      omega
    rintro index (member | visited | ⟨block, inside, way⟩)
    · exact written index member
    · exact written index (visits_subset rfl visited)
    · exact written index (visits_subset rfl (path_visited fits inside way))

/-- Both allocators stay inside their arrays for a number of blocks exactly if the tree of
the power-of-two allocator is dense. -/
theorem arrays_in_bounds_iff {blocks : Nat} (some : 0 < blocks) (small : blocks ≤ 2 ^ 29) :
    (BlistInBounds blocks ∧ AlistInBounds blocks (alistRootblks blocks)) ↔
      Dense (levelOf blocks) blocks := by
  rw [alist_in_bounds_iff some small]
  exact and_iff_right (blist_in_bounds small)

theorem arrays_in_bounds_7680 : BlistInBounds 7680 ∧ AlistInBounds 7680 (alistRootblks 7680) :=
  (arrays_in_bounds_iff (by decide) (by decide)).mpr ⟨by decide, fun _ => trivial⟩

/-- The array that is reserved for 65536 blocks is too small: the last of the 16 nodes below
the root is not there, and its terminator is behind the array. -/
theorem terminator_outside_65536 : alistRootblks 65536 = 2193 ∧ ¬AlistInBounds 65536 2193 := by
  refine ⟨by decide, fun bounds => ?_⟩
  have outside := bounds 4096 (.inl (last_mem_alstWrites 2 0 65536))
  omega

end Dragonfly.Kern.Layout
