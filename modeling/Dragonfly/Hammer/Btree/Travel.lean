import Mathlib
import Dragonfly.Hammer.Btree.Legs

/-!
# Where rebalancing takes a tracked cursor

A cursor on a child is taken along the leg of its place.  If that leads to a place
which the loop has not come to yet, the loop comes across the cursor again and takes
it further, away from where it belongs.
-/

namespace Dragonfly.Hammer.Btree

open Dragonfly.Lib

def Place.spot (place : Place) : Spot := (.child place.1, place.2)

theorem Place.spot_inj {first second : Place} : first.spot = second.spot ↔ first = second := by
  simp [spot, Prod.ext_iff]

section Travel

variable {course front back : List Leg} {leg later : Leg} {place : Place} {final : Spot} {k : Nat}

theorem relocate_append (first second : List Call) (spot : Spot) :
    relocate (first ++ second) spot = (relocate first spot).bind (relocate second) := by
  induction first generalizing spot with
  | nil => rfl
  | cons call calls ih =>
      rw [List.cons_append, relocate, relocate, Option.bind_assoc]
      congr 1
      funext next
      exact ih next

theorem relocate_singleton (call : Call) (spot : Spot) :
    relocate [call] spot = call.relocate spot := by
  rw [relocate]
  cases call.relocate spot <;> rfl

/-- A leg takes the cursors at its place to its goal, if that is another place. -/
theorem relocate_leg (leg : Leg) (place : Place) : relocate leg.calls place.spot =
    if place = leg.place then
      if leg.isEnd = true ∧ leg.place = leg.goal then none else some leg.goal.spot
    else some place.spot := by
  unfold Leg.calls
  by_cases idle : leg.isEnd = false ∧ leg.place = leg.goal
  · rw [if_pos idle, relocate]
    by_cases here : place = leg.place
    · rw [if_pos here, if_neg (by simp [idle.1]), here, idle.2]
    · rw [if_neg here]
  · rw [if_neg idle, relocate_singleton, Call.relocate]
    have same : place.spot = (.child leg.place.1, leg.place.2) ↔ place = leg.place :=
      @Place.spot_inj place leg.place
    have stuck : leg.place.1 = leg.goal.1 ∧ leg.place.2 = leg.goal.2 ↔
        leg.isEnd = true ∧ leg.place = leg.goal := by
      rw [← Prod.ext_iff]
      exact ⟨fun equal => ⟨by simpa [equal] using idle, equal⟩, And.right⟩
    simp only [same, stuck]
    rw [if_neg (show ¬ (leg.place.1 ≠ leg.goal.1 ∧ leg.place.2 = 0 ∧
      place.spot = (.root, leg.place.1)) by simp [Place.spot])]
    rfl

/-- A leg takes the cursors of the rebalanced node along with the first element of a
child that goes to another child. -/
theorem relocate_leg_root (leg : Leg) (k : Nat) : relocate leg.calls (.root, k) =
    if leg.place = (k, 0) ∧ leg.goal.1 ≠ k then some leg.goal.spot else some (.root, k) := by
  unfold Leg.calls
  by_cases idle : leg.isEnd = false ∧ leg.place = leg.goal
  · rw [if_pos idle, relocate, if_neg]
    rintro ⟨here, away⟩
    rw [← idle.2, here] at away
    exact away rfl
  · rw [if_neg idle, relocate_singleton, Call.relocate, if_neg (by simp)]
    refine if_congr ?_ rfl rfl
    simp only [Prod.ext_iff, true_and]
    constructor
    · rintro ⟨away, first, rfl⟩
      exact ⟨⟨rfl, first⟩, Ne.symm away⟩
    · rintro ⟨⟨rfl, first⟩, away⟩
      exact ⟨Ne.symm away, first, rfl⟩

/-- A cursor stays where no leg starts. -/
theorem relocate_stays (clear : ∀ leg ∈ course, leg.place ≠ place) :
    relocate (course.flatMap Leg.calls) place.spot = some place.spot := by
  induction course with
  | nil => rfl
  | cons leg course ih =>
      obtain ⟨here, rest⟩ := List.forall_mem_cons.mp clear
      rw [List.flatMap_cons, relocate_append, relocate_leg, if_neg (Ne.symm here)]
      exact ih rest

theorem relocate_root_stays (clear : ∀ leg ∈ course, leg.place ≠ (k, 0)) :
    relocate (course.flatMap Leg.calls) (.root, k) = some (.root, k) := by
  induction course with
  | nil => rfl
  | cons leg course ih =>
      obtain ⟨here, rest⟩ := List.forall_mem_cons.mp clear
      rw [List.flatMap_cons, relocate_append, relocate_leg_root, if_neg (fun at' => here at'.1)]
      exact ih rest

theorem Before.place_ne {first second : Leg} (before : Before first second) :
    first.place ≠ second.place := by
  intro same
  have := before.place
  rw [same] at this
  omega

/-- Up to its own leg nothing happens to a cursor. -/
theorem relocate_reach (before : (front ++ leg :: back).Pairwise Before) :
    relocate ((front ++ leg :: back).flatMap Leg.calls) leg.place.spot =
      if leg.isEnd = true ∧ leg.place = leg.goal then none
      else relocate (back.flatMap Leg.calls) leg.goal.spot := by
  obtain ⟨_, _, between⟩ := List.pairwise_append.mp before
  rw [List.flatMap_append, relocate_append, relocate_stays fun first member =>
    (between first member leg List.mem_cons_self).place_ne, Option.bind_some, List.flatMap_cons,
    relocate_append, relocate_leg, if_pos rfl]
  split_ifs <;> rfl

theorem relocate_reach_root (before : (front ++ leg :: back).Pairwise Before)
    (at' : leg.place = (k, 0)) :
    relocate ((front ++ leg :: back).flatMap Leg.calls) (.root, k) =
      if leg.goal.1 ≠ k then relocate (back.flatMap Leg.calls) leg.goal.spot
      else some (.root, k) := by
  obtain ⟨_, rest, between⟩ := List.pairwise_append.mp before
  obtain ⟨behind, _⟩ := List.pairwise_cons.mp rest
  rw [List.flatMap_append, relocate_append, relocate_root_stays fun first member => at' ▸
    (between first member leg List.mem_cons_self).place_ne, Option.bind_some, List.flatMap_cons,
    relocate_append, relocate_leg_root]
  simp only [at', true_and]
  split_ifs with away
  · rfl
  · exact relocate_root_stays fun last member => at' ▸ (behind last member).place_ne.symm

/-- Wherever a cursor ends up, it has followed some leg that is not in front of its
own. -/
theorem relocate_drift (before : course.Pairwise Before) (member : leg ∈ course)
    (goes : relocate (course.flatMap Leg.calls) leg.place.spot = some final) :
    ∃ last ∈ course, final = last.goal.spot ∧ leg.position ≤ last.position := by
  induction course generalizing leg with
  | nil => contradiction
  | cons head course ih =>
      obtain ⟨behind, before'⟩ := List.pairwise_cons.mp before
      rcases List.mem_cons.mp member with rfl | member
      · have reach := @relocate_reach [] _ _ before
        rw [List.nil_append, goes] at reach
        by_cases stuck : leg.isEnd = true ∧ leg.place = leg.goal
        · rw [if_pos stuck] at reach
          contradiction
        · rw [if_neg stuck] at reach
          by_cases clear : ∀ later ∈ course, later.place ≠ leg.goal
          · rw [relocate_stays clear] at reach
            exact ⟨leg, List.mem_cons_self, Option.some.inj reach, le_rfl⟩
          · push Not at clear
            obtain ⟨later, laterMember, here⟩ := clear
            rw [← here] at reach
            obtain ⟨last, lastMember, finalEq, le⟩ := ih before' laterMember reach.symm
            exact ⟨last, List.mem_cons_of_mem _ lastMember, finalEq,
              (behind later laterMember).position.trans le⟩
      · have away := (behind leg member).place_ne.symm
        rw [List.flatMap_cons, relocate_append, relocate_leg, if_neg away] at goes
        obtain ⟨last, lastMember, finalEq, le⟩ := ih before' member goes
        exact ⟨last, List.mem_cons_of_mem _ lastMember, finalEq, le⟩

/-- A cursor that comes to a place ahead is taken beyond the position it belongs to. -/
theorem relocate_beyond (before : (leg :: back).Pairwise Before) (member : later ∈ back)
    (here : later.place = leg.goal)
    (goes : relocate (back.flatMap Leg.calls) leg.goal.spot = some final) :
    ∃ last ∈ back, final = last.goal.spot ∧ leg.position < last.position := by
  obtain ⟨behind, before'⟩ := List.pairwise_cons.mp before
  rw [← here] at goes
  obtain ⟨last, lastMember, finalEq, le⟩ := relocate_drift before' member goes
  exact ⟨last, lastMember, finalEq, ((behind later member).ahead here.symm).trans_le le⟩

end Travel

/-! ## The deletion of children -/

theorem relocate_deletion_child {baseCount index rest : Nat} {place : Place}
    (below : place.1 < index) :
    relocate (deletionCalls baseCount index rest) place.spot = some place.spot := by
  induction rest generalizing index with
  | zero => rfl
  | succ rest ih =>
      have away : place.spot.1 ≠ .child index := by
        simp only [Place.spot, ne_eq, Site.child.injEq]
        omega
      rw [deletionCalls, relocate, Call.relocate, if_neg away, Option.bind_some, relocate,
        Call.relocate, if_neg (by simp [Place.spot]), Option.bind_some]
      exact ih (by omega)

/-- The index at the rebalanced node goes down for every child, but not below
`base_count`. -/
theorem relocate_deletion_root {baseCount index rest k : Nat} :
    relocate (deletionCalls baseCount index rest) (.root, k) =
      some (.root, if k ≤ baseCount then k else max baseCount (k - rest)) := by
  induction rest generalizing index k with
  | zero =>
      rw [deletionCalls, relocate]
      split_ifs
      · rfl
      · rw [max_eq_right (by omega)]
        rfl
  | succ rest ih =>
      rw [deletionCalls, relocate, Call.relocate, if_neg (by simp), Option.bind_some, relocate,
        Call.relocate]
      by_cases behind : baseCount < k
      · rw [if_pos ⟨rfl, behind⟩, Option.bind_some, ih, if_neg (Nat.not_le_of_lt behind)]
        congr 2
        simp only
        split_ifs <;> omega
      · rw [if_neg (fun both => behind both.2), Option.bind_some, ih]
        simp only [if_pos (Nat.le_of_not_lt behind)]

/-! ## Positions -/

/-- The spot exists if the children have `counts` elements. -/
def Placed (counts : List Nat) : Spot → Prop
  | (.root, k) => k ≤ counts.length
  | (.child child, i) => ∃ count, counts[child]? = some count ∧ i ≤ count

/-- The number of elements of the children that are in front of a spot. -/
def inOrder (counts : List Nat) : Spot → Nat
  | (.root, k) => (counts.take k).sum
  | (.child child, i) => (counts.take child).sum + i

/-- There is an element of a child at the spot. -/
def OnElement (counts : List Nat) : Spot → Prop
  | (.root, _) => False
  | (.child child, i) => ∃ count, counts[child]? = some count ∧ i < count

/-- A cursor has kept its position: it is at a spot that exists, with the same elements
in front of it, and at the same element if it was at one. -/
structure Keeps (old new : List Nat) (before after : Spot) : Prop where
  placed : Placed new after
  position : inOrder new after = inOrder old before
  element : OnElement old before → OnElement new after

/-- The number of children that are kept. -/
def keptCount (avg : Nat) (counts : List Nat) : Nat := (packedTo avg counts.sum).1 + 1

/-- `base_count` at the end -/
def lastCount (avg : Nat) (counts : List Nat) : Nat := (packedTo avg counts.sum).2

/-- The number of elements of the children that are kept. -/
def newCounts (avg : Nat) (counts : List Nat) : List Nat :=
  List.replicate (packedTo avg counts.sum).1 avg ++ [lastCount avg counts]

/-- Where the packing loop takes a cursor from a place of a child. -/
def goalOf (avg : Nat) (counts : List Nat) (place : Place) : Place :=
  if counts[place.1]? = some place.2 then packedTo avg ((counts.take place.1).sum + place.2)
  else dest avg ((counts.take place.1).sum + place.2)

/-- The loop has `goal` still to come when it is at `place`. -/
def Ahead (counts : List Nat) (place goal : Place) : Prop :=
  (place.1 < goal.1 ∨ place.1 = goal.1 ∧ place.2 < goal.2) ∧ Placed counts goal.spot

/-- The calls of the packing loop and of the deletion. -/
def cursorCalls (avg : Nat) (counts : List Nat) : List Call :=
  (legs avg 0 counts 0).flatMap Leg.calls ++
    deletionCalls (lastCount avg counts) (keptCount avg counts)
      (counts.length - keptCount avg counts)

/-- The condition under which a cursor keeps its position.  A cursor on a child goes to
a place that the loop has behind it, and does not stay at the end of the child.  A
cursor on the rebalanced node goes along with the first element of its child in the
same way, or its child starts where it did and the deletion leaves its index alone. -/
def Follows (avg : Nat) (counts : List Nat) : Spot → Prop
  | (.child child, i) =>
      (counts[child]? = some i → goalOf avg counts (child, i) ≠ (child, i)) ∧
        ¬ Ahead counts (child, i) (goalOf avg counts (child, i))
  | (.root, k) =>
      if k < counts.length then
        if (goalOf avg counts (k, 0)).1 ≠ k then
          ¬ Ahead counts (k, 0) (goalOf avg counts (k, 0))
        else (counts.take k).sum = avg * k ∧
          (counts.length ≤ keptCount avg counts ∨ k ≤ lastCount avg counts)
      else counts.length ≤ keptCount avg counts ∨ lastCount avg counts ≤ keptCount avg counts

section Counts

variable {avg : Nat} {counts : List Nat}

theorem take_sum_le {child count : Nat} (at' : counts[child]? = some count) :
    (counts.take child).sum + count ≤ counts.sum := by
  obtain ⟨bound, rfl⟩ := List.getElem?_eq_some_iff.mp at'
  have split := congrArg List.sum (List.take_append_drop child counts)
  rw [List.sum_append, List.drop_eq_getElem_cons bound, List.sum_cons] at split
  omega

theorem newCounts_length : (newCounts avg counts).length = keptCount avg counts := by
  simp [newCounts, keptCount]

theorem newCounts_take {child : Nat} (below : child < keptCount avg counts) :
    ((newCounts avg counts).take child).sum = avg * child := by
  have le : child ≤ (packedTo avg counts.sum).1 := Nat.le_of_lt_succ below
  rw [newCounts, List.take_append_of_le_length (by simpa using le), List.take_replicate,
    min_eq_left le, List.sum_replicate_nat, Nat.mul_comm]

theorem newCounts_sum : (newCounts avg counts).sum = counts.sum := by
  have value := value_packedTo avg counts.sum
  rw [Place.value] at value
  rw [newCounts, List.sum_append, List.sum_replicate_nat, List.sum_singleton, lastCount,
    Nat.mul_comm]
  exact value

theorem newCounts_getElem? {child : Nat} (below : child < keptCount avg counts) :
    (newCounts avg counts)[child]? =
      some (if child < (packedTo avg counts.sum).1 then avg else lastCount avg counts) := by
  unfold newCounts
  split_ifs with front
  · rw [List.getElem?_append_left (by simpa using front), List.getElem?_replicate, if_pos front]
  · have same : child = (packedTo avg counts.sum).1 := by
      unfold keptCount at below
      omega
    rw [List.getElem?_append_right (by simp [same])]
    simp [same]

theorem inOrder_newCounts {place : Place} (below : place.1 < keptCount avg counts) :
    inOrder (newCounts avg counts) place.spot = place.value avg := by
  rw [Place.spot, inOrder, newCounts_take below, Place.value]

/-- Behind the elements packed so far. -/
theorem placed_packedTo {position : Nat} (positive : 0 < avg ∨ counts.sum = 0)
    (le : position ≤ counts.sum) :
    (packedTo avg position).1 < keptCount avg counts ∧
      Placed (newCounts avg counts) (packedTo avg position).spot := by
  have below : (packedTo avg position).1 < keptCount avg counts :=
    Nat.lt_succ_of_le (packedTo_fst_mono le)
  refine ⟨below, _, newCounts_getElem? below, ?_⟩
  split_ifs with front
  · exact packedTo_snd_le position (by omega)
  · have value := value_packedTo avg position
    have total := value_packedTo avg counts.sum
    have same : (packedTo avg position).1 = (packedTo avg counts.sum).1 := by
      unfold keptCount at below
      omega
    rw [Place.value, same] at value
    rw [Place.value] at total
    unfold lastCount
    omega

theorem onElement_dest {position : Nat} (positive : 0 < avg) (lt : position < counts.sum) :
    (dest avg position).1 < keptCount avg counts ∧
      OnElement (newCounts avg counts) (dest avg position).spot := by
  have below : (dest avg position).1 < keptCount avg counts :=
    Nat.lt_succ_of_le (packedTo_fst_mono lt)
  refine ⟨below, _, newCounts_getElem? below, ?_⟩
  split_ifs with front
  · exact dest_snd_lt position positive
  · have value := value_dest avg position
    have total := value_packedTo avg counts.sum
    have same : (dest avg position).1 = (packedTo avg counts.sum).1 := by
      unfold keptCount at below
      omega
    rw [Place.value, same] at value
    rw [Place.value] at total
    unfold lastCount
    omega

/-- What a leg of the loop says about its place and its goal. -/
structure LegFacts (avg : Nat) (counts : List Nat) (leg : Leg) : Prop where
  goal : leg.goal = goalOf avg counts leg.place
  isEnd : leg.isEnd = true ↔ counts[leg.place.1]? = some leg.place.2
  position : leg.position = inOrder counts leg.place.spot
  placed : Placed counts leg.place.spot
  below : leg.goal.1 < keptCount avg counts
  keeps : Keeps counts (newCounts avg counts) leg.place.spot leg.goal.spot

variable {leg : Leg}

theorem leg_facts (positive : 0 < avg ∨ counts.sum = 0) (member : leg ∈ legs avg 0 counts 0) :
    LegFacts avg counts leg := by
  obtain ⟨child, count, i, at', le, rfl⟩ := (mem_legs_iff).mp member
  have within := take_sum_le at'
  rw [Nat.zero_add, Nat.zero_add]
  have value := makeLeg_value avg child i ((counts.take child).sum + i) (decide (i = count))
  have placed : Placed counts (makeLeg avg child i ((counts.take child).sum + i)
    (decide (i = count))).place.spot := ⟨count, at', le⟩
  have last : counts[child]? = some i ↔ i = count := by
    rw [at', Option.some.injEq, eq_comm]
  by_cases behind : i = count
  · obtain ⟨below, there⟩ := placed_packedTo positive
      (show (counts.take child).sum + i ≤ counts.sum by omega)
    refine ⟨?_, ?_, rfl, placed, ?_, ?_, ?_, ?_⟩
    · simp [makeLeg, goalOf, at', behind]
    · simp [makeLeg, at', behind]
    · simpa [makeLeg, behind] using below
    · simpa [makeLeg, behind] using there
    · rw [inOrder_newCounts (by simpa [makeLeg, behind] using below), value]
      rfl
    · rintro ⟨other, at'', lt⟩
      rw [show (makeLeg avg child i ((counts.take child).sum + i) (decide (i = count))).place.1
        = child from rfl, at'] at at''
      obtain rfl := Option.some.inj at''
      exact absurd lt (by simp [makeLeg, behind])
  · have lt : i < count := lt_of_le_of_ne le behind
    obtain ⟨below, there⟩ := onElement_dest (show 0 < avg by omega)
      (show (counts.take child).sum + i < counts.sum by omega)
    refine ⟨?_, ?_, rfl, placed, ?_, ?_, ?_, ?_⟩
    · simp [makeLeg, goalOf, at', behind, Ne.symm behind]
    · simp [makeLeg, at', behind, Ne.symm behind]
    · simpa [makeLeg, behind] using below
    · obtain ⟨other, at'', inside⟩ := there
      exact ⟨other, by simpa [makeLeg, behind] using at'', by simpa [makeLeg, behind] using inside.le⟩
    · rw [inOrder_newCounts (by simpa [makeLeg, behind] using below), value]
      rfl
    · intro _
      simpa [makeLeg, behind] using there

theorem exists_leg (avg : Nat) {place : Place} (placed : Placed counts place.spot) :
    ∃ leg ∈ legs avg 0 counts 0, leg.place = place := by
  obtain ⟨count, at', le⟩ := placed
  exact ⟨_, (mem_legs_iff).mpr ⟨place.1, count, place.2, at', le, rfl⟩, by simp [makeLeg]⟩

variable {front back : List Leg}

/-- The places behind a leg are those ahead of it. -/
theorem ahead_iff (split : legs avg 0 counts 0 = front ++ leg :: back) {goal : Place} :
    Ahead counts leg.place goal ↔ ∃ later ∈ back, later.place = goal := by
  have before := split ▸ legs_before avg 0 counts 0
  obtain ⟨_, rest, between⟩ := List.pairwise_append.mp before
  obtain ⟨behind, _⟩ := List.pairwise_cons.mp rest
  constructor
  · rintro ⟨order, placed⟩
    obtain ⟨later, member, rfl⟩ := exists_leg avg placed
    refine ⟨later, ?_, rfl⟩
    rw [split, List.mem_append, List.mem_cons] at member
    rcases member with member | rfl | member
    · have := (between later member leg List.mem_cons_self).place
      omega
    · omega
    · exact member
  · rintro ⟨later, member, rfl⟩
    refine ⟨(behind later member).place, ?_⟩
    obtain ⟨child, count, i, at', le, laterEq⟩ := (mem_legs_iff).mp
      (show later ∈ legs avg 0 counts 0 by rw [split]; simp [member])
    rw [laterEq]
    exact ⟨count, by simpa [makeLeg] using at', le⟩

/-- From a leg's goal on, the cursor keeps its position exactly if the goal is not
ahead. -/
theorem keeps_from_goal (positive : 0 < avg ∨ counts.sum = 0)
    (split : legs avg 0 counts 0 = front ++ leg :: back) {before : Spot}
    (same : inOrder counts before = leg.position)
    (element : OnElement counts before → OnElement counts leg.place.spot) :
    (∃ after, (relocate (back.flatMap Leg.calls) leg.goal.spot).bind
        (relocate (deletionCalls (lastCount avg counts) (keptCount avg counts)
          (counts.length - keptCount avg counts))) = some after ∧
      Keeps counts (newCounts avg counts) before after) ↔
      ¬ Ahead counts leg.place leg.goal := by
  have sorted := split ▸ legs_before avg 0 counts 0
  have inside : ∀ other ∈ leg :: back, other ∈ legs avg 0 counts 0 := by
    intro other member
    rw [split]
    exact List.mem_append_right _ member
  have facts := leg_facts positive (inside leg List.mem_cons_self)
  rw [ahead_iff split]
  constructor
  · rintro ⟨after, goes, keeps⟩ ⟨later, member, here⟩
    obtain ⟨middle, travels, rest⟩ := Option.bind_eq_some_iff.mp goes
    obtain ⟨last, lastMember, rfl, beyond⟩ :=
      relocate_beyond (List.pairwise_append.mp sorted).2.1 member here travels
    have lastFacts := leg_facts positive (inside last (List.mem_cons_of_mem _ lastMember))
    rw [relocate_deletion_child lastFacts.below] at rest
    have position := keeps.position
    rw [← Option.some.inj rest, lastFacts.keeps.position, ← lastFacts.position, same] at position
    omega
  · intro clear
    refine ⟨leg.goal.spot, ?_, facts.keeps.placed, ?_, ?_⟩
    · rw [relocate_stays fun later member here => clear ⟨later, member, here⟩, Option.bind_some]
      exact relocate_deletion_child facts.below
    · rw [facts.keeps.position, ← facts.position, same]
    · exact fun on => facts.keeps.element (element on)

theorem child_keeps_iff (positive : 0 < avg ∨ counts.sum = 0) {place : Place}
    (placed : Placed counts place.spot) :
    (∃ after, relocate (cursorCalls avg counts) place.spot = some after ∧
      Keeps counts (newCounts avg counts) place.spot after) ↔ Follows avg counts place.spot := by
  obtain ⟨leg, member, rfl⟩ := exists_leg avg placed
  have facts := leg_facts positive member
  obtain ⟨front, back, split⟩ := List.append_of_mem member
  have sorted := split ▸ legs_before avg 0 counts 0
  rw [cursorCalls, relocate_append, split, relocate_reach sorted]
  have follows : Follows avg counts leg.place.spot ↔
      (leg.isEnd = true → leg.goal ≠ leg.place) ∧ ¬ Ahead counts leg.place leg.goal := by
    rw [facts.isEnd, facts.goal]
    rfl
  rw [follows]
  by_cases stuck : leg.isEnd = true ∧ leg.place = leg.goal
  · simp [stuck.1, stuck.2]
  · rw [if_neg stuck, keeps_from_goal positive split facts.position.symm id]
    exact ⟨fun clear => ⟨fun last same => stuck ⟨last, same.symm⟩, clear⟩, And.right⟩

/-- A cursor that stays at the rebalanced node. -/
theorem root_stays_iff (positive : 0 < avg ∨ counts.sum = 0) {k : Nat}
    (below : k < keptCount avg counts) (least : avg * k ≤ (counts.take k).sum) :
    (∃ after, relocate (deletionCalls (lastCount avg counts) (keptCount avg counts)
        (counts.length - keptCount avg counts)) (.root, k) = some after ∧
      Keeps counts (newCounts avg counts) (.root, k) after) ↔
      (counts.take k).sum = avg * k ∧
        (counts.length ≤ keptCount avg counts ∨ k ≤ lastCount avg counts) := by
  rw [relocate_deletion_root]
  constructor
  · rintro ⟨after, goes, keeps⟩
    have position := keeps.position
    rw [← Option.some.inj goes] at position
    simp only [inOrder] at position
    split_ifs at position with front
    · rw [newCounts_take below] at position
      exact ⟨position.symm, .inr front⟩
    · rw [newCounts_take (by omega)] at position
      have moved : avg = 0 ∨ k ≤ max (lastCount avg counts)
          (k - (counts.length - keptCount avg counts)) := by
        refine or_iff_not_imp_left.mpr fun some => ?_
        exact Nat.le_of_mul_le_mul_left (least.trans_eq position.symm) (Nat.pos_of_ne_zero some)
      rcases moved with zero | moved
      · -- Without elements a single child is kept.
        have empty := positive.resolve_left (by omega)
        have only : k = 0 := by
          have kept : keptCount avg counts = 1 := by rw [keptCount, empty, packedTo]
          omega
        exact absurd (Nat.zero_le _) (only ▸ front)
      · have same : max (lastCount avg counts)
            (k - (counts.length - keptCount avg counts)) = k := by omega
        rw [same] at position
        exact ⟨position.symm, .inl (by omega)⟩
  · rintro ⟨position, stays⟩
    have same : (if k ≤ lastCount avg counts then k
        else max (lastCount avg counts) (k - (counts.length - keptCount avg counts))) = k := by
      split_ifs <;> omega
    refine ⟨(.root, k), by rw [same], ?_, ?_, (by rintro ⟨⟩)⟩
    · rw [Placed, newCounts_length]
      exact below.le
    · rw [inOrder, inOrder, newCounts_take below, position]

/-- A cursor at the end of the rebalanced node. -/
theorem root_end_iff (fewer : keptCount avg counts ≤ counts.length) :
    (∃ after, relocate (cursorCalls avg counts) (.root, counts.length) = some after ∧
      Keeps counts (newCounts avg counts) (.root, counts.length) after) ↔
      counts.length ≤ keptCount avg counts ∨ lastCount avg counts ≤ keptCount avg counts := by
  have stays : relocate ((legs avg 0 counts 0).flatMap Leg.calls) (.root, counts.length) =
      some (.root, counts.length) := by
    refine relocate_root_stays fun leg member here => ?_
    obtain ⟨child, count, i, at', _, rfl⟩ := (mem_legs_iff).mp member
    have bound := (List.getElem?_eq_some_iff.mp at').1
    have := congrArg Prod.fst here
    simp only [makeLeg] at this
    omega
  rw [cursorCalls, relocate_append, stays, Option.bind_some, relocate_deletion_root]
  constructor
  · rintro ⟨after, goes, keeps⟩
    have placed := keeps.placed
    rw [← Option.some.inj goes, Placed, newCounts_length] at placed
    split_ifs at placed <;> omega
  · intro small
    have same : (if counts.length ≤ lastCount avg counts then counts.length
        else max (lastCount avg counts)
          (counts.length - (counts.length - keptCount avg counts))) = keptCount avg counts := by
      split_ifs <;> omega
    refine ⟨(.root, keptCount avg counts), by rw [same], ?_, ?_, (by rintro ⟨⟩)⟩
    · rw [Placed, newCounts_length]
    · rw [inOrder, inOrder, ← newCounts_length, List.take_length, List.take_length, newCounts_sum]

theorem root_keeps_iff (positive : 0 < avg ∨ counts.sum = 0)
    (fewer : keptCount avg counts ≤ counts.length) {k : Nat} (placed : Placed counts (.root, k)) :
    (∃ after, relocate (cursorCalls avg counts) (.root, k) = some after ∧
      Keeps counts (newCounts avg counts) (.root, k) after) ↔ Follows avg counts (.root, k) := by
  by_cases inside : k < counts.length
  · obtain ⟨leg, member, at'⟩ := exists_leg avg
      (show Placed counts (Place.spot (k, 0)) from ⟨counts[k], List.getElem?_eq_getElem inside, Nat.zero_le _⟩)
    have facts := leg_facts positive member
    have position : leg.position = (counts.take k).sum := by
      rw [facts.position, at']
      rfl
    obtain ⟨front, back, split⟩ := List.append_of_mem member
    have sorted := split ▸ legs_before avg 0 counts 0
    have goal := facts.goal
    rw [at'] at goal
    rw [cursorCalls, relocate_append, split, relocate_reach_root sorted at', Follows, if_pos inside,
      ← goal]
    by_cases away : leg.goal.1 ≠ k
    · have start : inOrder counts (.root, k) = leg.position := position.symm
      have none : OnElement counts (.root, k) → OnElement counts leg.place.spot := False.elim
      rw [if_pos away, if_pos away, keeps_from_goal positive split start none, at']
    · rw [if_neg away, if_neg away, Option.bind_some]
      have same := not_not.mp away
      refine root_stays_iff positive (same ▸ facts.below) ?_
      have value := facts.keeps.position
      rw [inOrder_newCounts facts.below, ← facts.position, position, Place.value, same] at value
      omega
  · have last : k = counts.length := Nat.le_antisymm placed (Nat.le_of_not_lt inside)
    rw [Follows, if_neg inside, last]
    exact root_end_iff fewer

/-- A cursor keeps its position exactly if it follows. -/
theorem keeps_iff (positive : 0 < avg ∨ counts.sum = 0)
    (fewer : keptCount avg counts ≤ counts.length) {spot : Spot} (placed : Placed counts spot) :
    (∃ after, relocate (cursorCalls avg counts) spot = some after ∧
      Keeps counts (newCounts avg counts) spot after) ↔ Follows avg counts spot := by
  obtain ⟨node, index⟩ := spot
  cases node with
  | root => exact root_keeps_iff positive fewer placed
  | child child => exact @child_keeps_iff _ _ positive (child, index) placed

end Counts

end Dragonfly.Hammer.Btree
