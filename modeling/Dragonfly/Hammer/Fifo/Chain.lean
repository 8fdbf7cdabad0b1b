import Dragonfly.Hammer.Fifo.Recover

/-!
# Chains of records

A chain is a stretch of the FIFO that both scanners read as the same records,
one in each direction.  On a chain the loops of the two recovery stages are folds
over the list of records; where the stretch lies in the area, and whether it
wraps, no longer matters.
-/

namespace Dragonfly.Hammer.Fifo

open Dragonfly.Lib

/-- The area has the size a HAMMER volume can give it: at least one byte and at
most `HAMMER_UNDO_LAYER2` big-blocks. -/
structure Area.Sane (area : Area) : Prop where
  lower : undoBase < area.allocOffset
  upper : area.allocOffset ≤ undoBase + 128 * largeblockSize

/-- An offset of the area, in the form the scanners return. -/
def Area.Inside (area : Area) (offset : Nat) : Prop :=
  undoBase ≤ offset ∧ offset < area.allocOffset

/-- The offset `distance` bytes further on, wrapping at the end of the area. -/
def Area.walk (area : Area) (offset distance : Nat) : Nat :=
  undoBase + (offset - undoBase + distance) % (area.allocOffset - undoBase)

/-- Bytes covered by a list of records. -/
def total (records : List Record) : Nat := (records.map Record.size).sum

@[simp]
theorem total_nil : total [] = 0 := rfl

@[simp]
theorem total_cons (record : Record) (records : List Record) :
    total (record :: records) = record.size + total records := by
  simp [total]

@[simp]
theorem total_append (first second : List Record) :
    total (first ++ second) = total first + total second := by
  simp [total]

/-- The long part of an offset of the area. -/
theorem longOffset_eq {offset : Nat} (lower : undoBase ≤ offset)
    (upper : offset ≤ undoBase + 128 * largeblockSize) :
    longOffset offset = offset - undoBase := by
  obtain ⟨distance, rfl⟩ := Nat.exists_eq_add_of_le lower
  have small : distance < zoneSpan := by
    simp only [largeblockSize, zoneSpan] at *
    omega
  rw [Nat.add_sub_cancel_left]
  simp only [longOffset, undoBase, zoneEncode, zoneUndoIndex, Nat.add_zero]
  rw [Nat.mul_comm, Nat.mul_add_mod, Nat.mod_eq_of_lt small]

namespace Area

variable {area : Area} {offset : Nat}

theorem Sane.limit_eq (sane : area.Sane) : area.limit = area.allocOffset - undoBase :=
  longOffset_eq sane.lower.le sane.upper

theorem Inside.longOffset_eq (sane : area.Sane) (inside : area.Inside offset) :
    longOffset offset = offset - undoBase :=
  Fifo.longOffset_eq inside.1 (inside.2.le.trans sane.upper)

theorem walk_inside (sane : area.Sane) (offset distance : Nat) :
    area.Inside (area.walk offset distance) := by
  have positive : 0 < area.allocOffset - undoBase := Nat.sub_pos_of_lt sane.lower
  have bound := Nat.mod_lt (offset - undoBase + distance) positive
  have lower := sane.lower
  unfold Inside walk
  omega

theorem walk_zero (inside : area.Inside offset) : area.walk offset 0 = offset := by
  obtain ⟨lower, upper⟩ := inside
  unfold walk
  rw [Nat.add_zero, Nat.mod_eq_of_lt (by omega)]
  omega

theorem walk_walk (offset first second : Nat) :
    area.walk (area.walk offset first) second = area.walk offset (first + second) := by
  unfold walk
  rw [Nat.add_sub_cancel_left, Nat.mod_add_mod, Nat.add_assoc]

/-- Distances shorter than the area lead to one place each. -/
theorem walk_ne (inside : area.Inside offset) {distance : Nat} (positive : 0 < distance)
    (short : distance < area.allocOffset - undoBase) : area.walk offset distance ≠ offset := by
  obtain ⟨lower, upper⟩ := inside
  intro same
  unfold walk at same
  have residue : (offset - undoBase + distance) % (area.allocOffset - undoBase) =
      offset - undoBase := by omega
  by_cases wraps : offset - undoBase + distance < area.allocOffset - undoBase
  · rw [Nat.mod_eq_of_lt wraps] at residue
    omega
  · rw [Nat.mod_eq_sub_mod (by omega), Nat.mod_eq_of_lt (by omega)] at residue
    omega

/-- Where a walk shorter than the area ends up. -/
theorem walk_cases (inside : area.Inside offset) {distance : Nat}
    (short : distance ≤ area.allocOffset - undoBase) :
    (offset + distance < area.allocOffset ∧ area.walk offset distance = offset + distance) ∨
      (area.allocOffset ≤ offset + distance ∧
        area.walk offset distance + (area.allocOffset - undoBase) = offset + distance) := by
  obtain ⟨lower, upper⟩ := inside
  unfold walk
  by_cases wraps : offset - undoBase + distance < area.allocOffset - undoBase
  · rw [Nat.mod_eq_of_lt wraps]
    exact .inl ⟨by omega, by omega⟩
  · rw [Nat.mod_eq_sub_mod (by omega), Nat.mod_eq_of_lt (by omega)]
    exact .inr ⟨by omega, by omega⟩

/-- The distance the recovery code computes. -/
theorem span_walk (sane : area.Sane) (inside : area.Inside offset) {distance : Nat}
    (short : distance < area.allocOffset - undoBase) :
    area.span offset (area.walk offset distance) = distance := by
  have target := walk_inside sane offset distance
  unfold span
  rw [target.longOffset_eq sane]
  obtain ⟨lower, upper⟩ := inside
  rcases walk_cases ⟨lower, upper⟩ short.le with ⟨below, same⟩ | ⟨above, same⟩
  · rw [if_pos (by omega)]
    omega
  · rw [if_neg (by omega)]
    omega

end Area

/-- From `offset` to `stop` the FIFO holds exactly these records. -/
inductive Chain (area : Area) : Nat → List Record → Nat → Prop where
  | nil (offset : Nat) : Chain area offset [] offset
  | cons {offset stop : Nat} {record : Record} {records : List Record}
      (inside : area.Inside offset) (positive : 0 < record.size)
      (fits : offset + record.size ≤ area.allocOffset)
      (fwd : area.scanFwd offset = .ok (record, area.walk offset record.size))
      (rev : area.scanRev (area.walk offset record.size) = .ok (record, offset))
      (rest : Chain area (area.walk offset record.size) records stop) :
      Chain area offset (record :: records) stop

namespace Chain

variable {area : Area} {offset stop : Nat} {records : List Record}

theorem append {middle : Nat} {more : List Record} (first : Chain area offset records middle)
    (second : Chain area middle more stop) : Chain area offset (records ++ more) stop := by
  induction first with
  | nil offset => exact second
  | cons inside positive fits fwd rev rest ih =>
      exact .cons inside positive fits fwd rev (ih second)

theorem split {more : List Record} (chain : Chain area offset (records ++ more) stop) :
    ∃ middle, Chain area offset records middle ∧ Chain area middle more stop := by
  induction records generalizing offset with
  | nil => exact ⟨offset, .nil offset, chain⟩
  | cons record records ih =>
      cases chain with
      | cons inside positive fits fwd rev rest =>
          obtain ⟨middle, before, after⟩ := ih rest
          exact ⟨middle, .cons inside positive fits fwd rev before, after⟩

theorem stop_of_nil (chain : Chain area offset [] stop) : stop = offset := by
  cases chain
  rfl

/-- A chain ends where its bytes end. -/
theorem stop_eq (inside : area.Inside offset) (chain : Chain area offset records stop) :
    stop = area.walk offset (total records) := by
  induction chain with
  | nil offset => rw [total_nil, Area.walk_zero inside]
  | @cons offset stop record records here positive fits fwd rev rest ih =>
      have sane : area.Inside (area.walk offset record.size) := by
        have bound := Nat.mod_lt (offset - undoBase + record.size)
          (show 0 < area.allocOffset - undoBase by unfold Area.Inside at here; omega)
        unfold Area.Inside Area.walk at *
        omega
      rw [ih sane, Area.walk_walk, total_cons]

theorem total_pos (chain : Chain area offset records stop) (nonempty : records ≠ []) : 0 < total records := by
  cases chain with
  | nil => contradiction
  | cons _ positive =>
      rw [total_cons]
      omega

/-- The last record of a chain. -/
theorem last {record : Record} (chain : Chain area offset (records ++ [record]) stop) :
    ∃ before, Chain area offset records before ∧ area.Inside before ∧ 0 < record.size ∧
      stop = area.walk before record.size ∧ area.scanRev stop = .ok (record, before) := by
  obtain ⟨before, front, back⟩ := chain.split
  cases back with
  | cons inside positive fits fwd rev rest =>
      cases rest with
      | nil => exact ⟨before, front, inside, positive, rfl, rev⟩

end Chain

end Dragonfly.Hammer.Fifo
