import Dragonfly.Hammer.Btree.Preserve
import Dragonfly.Hammer.Btree.Cursor

/-!
# The schedule of moves

Where the packing loop puts an element depends only on the number of elements in
front of it.  A leg is one place of a child together with the place its contents go
to; the calls the loop makes for the tracked cursors are those of the legs in order.
-/

namespace Dragonfly.Hammer.Btree

open Dragonfly.Lib

/-- A child and an index in it. -/
abbrev Place : Type := Nat × Nat

/-- Where the next element goes if `base_item` and `base_count` are at `place`. -/
def room (avg : Nat) (place : Place) : Place :=
  if place.2 = avg then (place.1 + 1, 0) else place

/-- `base_item` and `base_count` after a number of elements. -/
def packedTo (avg : Nat) : Nat → Place
  | 0 => (0, 0)
  | packed + 1 => ((room avg (packedTo avg packed)).1, (room avg (packedTo avg packed)).2 + 1)

/-- Where an element goes that has `position` elements in front of it. -/
def dest (avg position : Nat) : Place := room avg (packedTo avg position)

/-- A place of the children, and where the packing loop takes a cursor that is there. -/
structure Leg where
  place : Place
  position : Nat
  isEnd : Bool
  goal : Place

/-- No call is made for an element that is in its place already. -/
def Leg.calls (leg : Leg) : List Call :=
  if leg.isEnd = false ∧ leg.place = leg.goal then []
  else [.moved leg.place.1 leg.place.1 leg.place.2 leg.goal.1 leg.goal.2]

/-- A cursor at the end of a child goes behind what is packed so far. -/
def makeLeg (avg child index position : Nat) (isEnd : Bool) : Leg :=
  ⟨(child, index), position, isEnd, if isEnd then packedTo avg position else dest avg position⟩

/-- The legs of a child from `index` on, with `left` elements still to come. -/
def childLegs (avg child : Nat) : Nat → Nat → Nat → List Leg
  | index, 0, position => [makeLeg avg child index position true]
  | index, left + 1, position =>
      makeLeg avg child index position false :: childLegs avg child (index + 1) left (position + 1)

/-- The legs of all children from `child` on, which have `counts` elements. -/
def legs (avg : Nat) : Nat → List Nat → Nat → List Leg
  | _, [], _ => []
  | child, count :: counts, position =>
      childLegs avg child 0 count position ++ legs avg (child + 1) counts (position + count)

/-! ## Places -/

section Places

variable {avg : Nat}

/-- The number of elements in front of a place once the children in front are full. -/
def Place.value (avg : Nat) (place : Place) : Nat := avg * place.1 + place.2

theorem value_room (avg : Nat) (place : Place) : (room avg place).value avg = place.value avg := by
  unfold room Place.value
  split_ifs with full
  · rw [full, Nat.mul_succ]
    rfl
  · rfl

theorem value_packedTo (avg packed : Nat) : (packedTo avg packed).value avg = packed := by
  induction packed with
  | zero => simp [packedTo, Place.value]
  | succ packed ih =>
      have same := (value_room avg (packedTo avg packed)).trans ih
      unfold Place.value at same ⊢
      rw [packedTo, ← Nat.add_assoc, same]

theorem value_dest (avg position : Nat) : (dest avg position).value avg = position :=
  (value_room avg _).trans (value_packedTo avg position)

theorem packedTo_snd_pos (avg : Nat) {packed : Nat} (some : 0 < packed) : 0 < (packedTo avg packed).2 := by
  obtain ⟨packed, rfl⟩ := Nat.exists_eq_succ_of_ne_zero some.ne'
  exact Nat.succ_pos _

theorem packedTo_snd_le (packed : Nat) (positive : packed = 0 ∨ 0 < avg) :
    (packedTo avg packed).2 ≤ avg := by
  induction packed with
  | zero => exact Nat.zero_le _
  | succ packed ih =>
      have positive := positive.resolve_left (Nat.succ_ne_zero packed)
      have le := ih (.inr positive)
      simp only [packedTo, room]
      split_ifs with full
      · exact positive
      · exact lt_of_le_of_ne le full

theorem dest_snd_lt (position : Nat) (positive : 0 < avg) : (dest avg position).2 < avg := by
  unfold dest room
  split_ifs with full
  · exact positive
  · exact lt_of_le_of_ne (packedTo_snd_le position (.inr positive)) full

theorem packedTo_fst_mono {first second : Nat} (le : first ≤ second) :
    (packedTo avg first).1 ≤ (packedTo avg second).1 := by
  induction le with
  | refl => exact le_rfl
  | step _ ih =>
      refine ih.trans ?_
      rw [packedTo]
      unfold room
      split_ifs
      · exact Nat.le_succ _
      · exact le_rfl

end Places

/-! ## The order of the legs -/

section Order

variable {avg child index left position : Nat} {counts : List Nat} {leg : Leg}

theorem makeLeg_value (avg child index position : Nat) (isEnd : Bool) :
    (makeLeg avg child index position isEnd).goal.value avg = position := by
  cases isEnd
  · exact value_dest avg position
  · exact value_packedTo avg position

theorem mem_childLegs_iff : leg ∈ childLegs avg child index left position ↔
    ∃ i, i ≤ left ∧ leg = makeLeg avg child (index + i) (position + i) (decide (i = left)) := by
  induction left generalizing index position with
  | zero => simp [childLegs]
  | succ left ih =>
      rw [childLegs, List.mem_cons, ih]
      constructor
      · rintro (rfl | ⟨i, le, rfl⟩)
        · exact ⟨0, Nat.zero_le _, by simp⟩
        · refine ⟨i + 1, Nat.succ_le_succ le, ?_⟩
          simp [Nat.add_assoc, Nat.add_comm 1]
      · rintro ⟨i, le, rfl⟩
        cases i with
        | zero => exact .inl (by simp)
        | succ i =>
            refine .inr ⟨i, Nat.le_of_succ_le_succ le, ?_⟩
            simp [Nat.add_assoc, Nat.add_comm 1]

theorem mem_legs_iff : leg ∈ legs avg child counts position ↔
    ∃ k count i, counts[k]? = some count ∧ i ≤ count ∧
      leg = makeLeg avg (child + k) i (position + (counts.take k).sum + i) (decide (i = count)) := by
  induction counts generalizing child position with
  | nil => simp [legs]
  | cons count counts ih =>
      rw [legs, List.mem_append, mem_childLegs_iff, ih]
      constructor
      · rintro (⟨i, le, rfl⟩ | ⟨k, other, i, at', le, rfl⟩)
        · exact ⟨0, count, i, rfl, le, by simp⟩
        · refine ⟨k + 1, other, i, at', le, ?_⟩
          simp [Nat.add_assoc, Nat.add_comm 1]
      · rintro ⟨k, other, i, at', le, rfl⟩
        cases k with
        | zero =>
            obtain rfl := Option.some.inj at'
            exact .inl ⟨i, le, by simp⟩
        | succ k =>
            refine .inr ⟨k, other, i, at', le, ?_⟩
            simp [Nat.add_assoc, Nat.add_comm 1]

/-- A leg comes before another: in its place, not behind it in position, and really in
front of it if it leads there. -/
structure Before (first second : Leg) : Prop where
  place : first.place.1 < second.place.1 ∨
    first.place.1 = second.place.1 ∧ first.place.2 < second.place.2
  position : first.position ≤ second.position
  ahead : first.goal = second.place → first.position < second.position

theorem childLegs_before : (childLegs avg child index left position).Pairwise Before := by
  induction left generalizing index position with
  | zero => exact List.pairwise_singleton _ _
  | succ left ih =>
      refine List.pairwise_cons.mpr ⟨?_, ih⟩
      intro second member
      obtain ⟨i, _, rfl⟩ := (mem_childLegs_iff).mp member
      have front : index < index + 1 + i := by omega
      have smaller : position < position + 1 + i := by omega
      exact ⟨.inr ⟨rfl, front⟩, smaller.le, fun _ => smaller⟩

theorem legs_before (avg child : Nat) (counts : List Nat) (position : Nat) :
    (legs avg child counts position).Pairwise Before := by
  induction counts generalizing child position with
  | nil => exact .nil
  | cons count counts ih =>
      refine List.pairwise_append.mpr ⟨childLegs_before, ih (child + 1) (position + count), ?_⟩
      intro first firstMember second secondMember
      obtain ⟨i, le, rfl⟩ := (mem_childLegs_iff).mp firstMember
      obtain ⟨k, other, j, _, _, rfl⟩ := (mem_legs_iff).mp secondMember
      have place : child < child + 1 + k := by omega
      refine ⟨.inl place, by simp only [makeLeg]; omega, ?_⟩
      intro leads
      by_cases behind : i = count
      · -- A cursor from the end of a child goes to an end, which is never at the front.
        have goalEq : packedTo avg (position + i) = (child + 1 + k, j) := by
          simpa [makeLeg, behind] using leads
        have some : 0 < position + i := by
          refine Nat.pos_of_ne_zero fun zero => ?_
          rw [zero] at goalEq
          have := congrArg Prod.fst goalEq
          simp only [packedTo] at this
          omega
        have positive := packedTo_snd_pos avg some
        rw [goalEq] at positive
        simp only [makeLeg] at positive ⊢
        omega
      · simp only [makeLeg]
        omega

end Order

/-! ## The calls of the packing loop -/

namespace Pack

variable {ε ρ : Type} {kind : Kind ε ρ} {pack after : Pack ε ρ} {avg position : Nat}
variable {item : Child ε ρ} {index i : Nat} {elm : ε}

/-- `base_item` and `base_count` -/
def front (pack : Pack ε ρ) : Place := (pack.rootCount, pack.baseCount)

/-- The closed children are full, and no child gets lost. -/
structure Shape (avg total : Nat) (pack : Pack ε ρ) : Prop where
  full : ∀ child ∈ pack.closed, child.elms.length = avg
  total : pack.rootCount + 1 + pack.rest.length = total

theorem closeBase_done {bound : Base} {closed : Child ε ρ}
    (done : pack.closeBase kind bound = .done closed) : closed.elms = pack.base.elms := by
  obtain ⟨right, _, rest⟩ := (Outcome.bind_eq_done_iff).mp done
  rw [← Outcome.done.inj rest]

theorem advance_done {bound : Base} (done : pack.advance kind bound = .done after) :
    after.front = (pack.rootCount + 1, 0) ∧ after.calls = pack.calls ∧
      ∀ {total}, pack.baseCount = avg → pack.Shape avg total → after.Shape avg total := by
  unfold advance at done
  obtain ⟨closed, closeEq, rest⟩ := (Outcome.bind_eq_done_iff).mp done
  cases restEq : pack.rest with
  | nil => simp [restEq] at rest
  | cons next others =>
      rw [restEq] at rest
      rw [← Outcome.done.inj rest]
      refine ⟨by simp [front, rootCount, baseCount, Child.reopen], rfl, ?_⟩
      rintro _ filled ⟨full, rfl⟩
      refine ⟨?_, by simp [rootCount, restEq]; omega⟩
      intro child member
      rcases List.mem_append.mp member with member | member
      · exact full child member
      · rw [List.mem_singleton.mp member, closeBase_done closeEq]
        exact filled

theorem place_done (done : pack.place kind item index i elm = .done after) :
    (after.front = (pack.front.1, pack.front.2 + 1) ∧ after.calls = pack.calls ++
      if (index, i) = pack.front then []
      else [.moved index index i pack.front.1 pack.front.2]) ∧
      ∀ {total}, pack.Shape avg total → after.Shape avg total := by
  unfold place at done
  by_cases idle : index = pack.rootCount ∧ i = pack.baseCount
  · rw [if_pos idle] at done
    rw [← Outcome.done.inj done]
    refine ⟨⟨by simp [front, rootCount, baseCount, keep], ?_⟩, fun ⟨full, total⟩ => ⟨full, total⟩⟩
    rw [if_pos (by simp [front, idle])]
    exact (List.append_nil _).symm
  · rw [if_neg idle] at done
    obtain ⟨moved, _, rest⟩ := (Outcome.bind_eq_done_iff).mp done
    have raised : ∀ tid, (pack.raise tid).front = pack.front ∧
        (pack.raise tid).calls = pack.calls ∧ (pack.raise tid).closed = pack.closed ∧
        (pack.raise tid).rest = pack.rest := by
      intro tid
      unfold raise
      split_ifs <;> exact ⟨rfl, rfl, rfl, rfl⟩
    obtain ⟨frontEq, callsEq, closedEq, restEq⟩ := raised item.head.mirrorTid
    rw [← Outcome.done.inj rest]
    refine ⟨⟨?_, ?_⟩, ?_⟩
    · rw [← frontEq]
      simp [front, rootCount, baseCount, keep, Pack.moved, log]
    · rw [if_neg (by simpa [front] using idle), ← frontEq, ← callsEq]
      rfl
    · rintro _ ⟨full, rfl⟩
      refine ⟨fun child member => full child (closedEq ▸ member), ?_⟩
      rw [rootCount, rootCount, ← closedEq, ← restEq]
      rfl

/-- An element goes to the place that its position says. -/
theorem packElm_done (done : pack.packElm kind avg item index i elm = .done after)
    (front : pack.front = packedTo avg position) :
    (after.front = packedTo avg (position + 1) ∧
      after.calls = pack.calls ++ (makeLeg avg index i position false).calls) ∧
      ∀ {total}, pack.Shape avg total → after.Shape avg total := by
  unfold packElm at done
  obtain ⟨middle, opened, placed⟩ := (Outcome.bind_eq_done_iff).mp done
  have middleEq : middle.front = dest avg position ∧ middle.calls = pack.calls ∧
      ∀ {total}, pack.Shape avg total → middle.Shape avg total := by
    rw [dest, ← front]
    unfold room
    by_cases full : pack.baseCount = avg
    · rw [if_pos full] at opened
      rw [if_pos (show pack.front.2 = avg from full)]
      obtain ⟨frontEq, callsEq, shape⟩ := advance_done opened
      exact ⟨frontEq, callsEq, shape full⟩
    · rw [if_neg full] at opened
      rw [if_neg (show ¬ pack.front.2 = avg from full), Outcome.done.inj opened]
      exact ⟨rfl, rfl, id⟩
  obtain ⟨middleFront, middleCalls, middleShape⟩ := middleEq
  obtain ⟨⟨frontEq, callsEq⟩, shape⟩ := place_done placed
  rw [middleFront] at frontEq callsEq
  rw [middleCalls] at callsEq
  refine ⟨⟨frontEq, ?_⟩, fun before => shape (middleShape before)⟩
  rw [callsEq]
  simp [Leg.calls, makeLeg]

theorem packElms_done {elms : List ε}
    (done : packElms kind avg item index i elms pack = .done after)
    (front : pack.front = packedTo avg position) :
    (after.front = packedTo avg (position + elms.length) ∧
      (after.moved index (i + elms.length)).calls =
        pack.calls ++ (childLegs avg index i elms.length position).flatMap Leg.calls) ∧
      ∀ {total}, pack.Shape avg total → after.Shape avg total := by
  induction elms generalizing i pack position with
  | nil =>
      rw [← Outcome.done.inj done]
      refine ⟨⟨front, ?_⟩, id⟩
      simp only [Pack.front] at front
      simp [childLegs, makeLeg, Leg.calls, Pack.moved, log, ← front]
  | cons elm elms ih =>
      obtain ⟨middle, first, rest⟩ := (Outcome.bind_eq_done_iff).mp done
      obtain ⟨⟨frontEq, callsEq⟩, shape⟩ := packElm_done first front
      obtain ⟨⟨last, calls⟩, restShape⟩ := ih rest frontEq
      rw [List.length_cons, Nat.add_comm elms.length 1, ← Nat.add_assoc, ← Nat.add_assoc]
      refine ⟨⟨last, ?_⟩, fun before => restShape (shape before)⟩
      rw [calls, callsEq, Nat.add_comm 1, childLegs, List.flatMap_cons, List.append_assoc]

/-- The calls of the packing loop are those of the legs. -/
theorem packItems_done {items : List (Child ε ρ)} (position : Nat)
    (done : packItems kind avg index items pack = .done after)
    (front : pack.front = packedTo avg position) :
    (after.front = packedTo avg (position + (items.map (·.elms.length)).sum) ∧
      after.calls = pack.calls ++
        (legs avg index (items.map (·.elms.length)) position).flatMap Leg.calls) ∧
      ∀ {total}, pack.Shape avg total → after.Shape avg total := by
  induction items generalizing index pack position with
  | nil =>
      rw [← Outcome.done.inj done]
      exact ⟨⟨front, (List.append_nil _).symm⟩, id⟩
  | cons item items ih =>
      obtain ⟨middle, first, rest⟩ := (Outcome.bind_eq_done_iff).mp done
      obtain ⟨⟨frontEq, callsEq⟩, shape⟩ := packElms_done first front
      obtain ⟨⟨last, calls⟩, restShape⟩ := ih _ rest frontEq
      rw [List.map_cons, List.sum_cons, ← Nat.add_assoc]
      refine ⟨⟨last, ?_⟩, fun before => restShape ⟨(shape before).full, (shape before).total⟩⟩
      rw [Nat.zero_add] at callsEq
      rw [calls, callsEq, legs, List.flatMap_append, List.append_assoc]

end Pack

end Dragonfly.Hammer.Btree
