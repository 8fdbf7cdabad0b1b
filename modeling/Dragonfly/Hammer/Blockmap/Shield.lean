import Dragonfly.Hammer.Blockmap.Disjoint

/-!
# Reservations for de-duplication

`hammer_blockmap_reserve_dedup` takes a reference on the reservation of the
big-block and leaves its append offset alone, zero for a new reservation.  The
shared extent is then kept from reuse by whichever append offset lies past it.
A free that empties the big-block resets the one of layer 2; the comment in
`hammer_reserve_setdelay_offset` wants the reservation to cover the whole
big-block from there on, but an existing reservation keeps its append offset.
-/

namespace Dragonfly.Hammer

open Dragonfly.Lib

/-- A reservation made for an existing extent and not yet used or dropped. -/
def Handle.shares (handle : Handle) : Bool := handle.dedup && !handle.finalized

/-- One of the two append offsets lies past the extent. -/
def Cell.Shields (cell : Cell) (extent : Extent) : Prop :=
  (cell.entry.zone = extent.zone ∧ extent.stop ≤ cell.entry.appendOff) ∨
    ∃ resv, cell.resv = some resv ∧ extent.stop ≤ resv.appendOff

/-- The steps that keep shared extents shielded: a reservation for
de-duplication names an extent in front of an append offset, and a free that
empties a big-block finds the shared extents there in front of the append offset
of the reservation. -/
def Ledger.Guarded (state : Ledger) : Op → Prop
  | .free extent =>
      int32 ((state.hmp.layer2 extent.block).bytesFree + (extent.size : Nat)) =
          (largeblockSize : Int) →
        ∀ handle ∈ state.pending, handle.extent.block = extent.block → handle.shares = true →
          ∃ resv, state.hmp.resv extent.block = some resv ∧ handle.extent.stop ≤ resv.appendOff
  | .reserveDedup _ bytes offset =>
      (state.cell (bigblock offset)).Shields ⟨offset, bytes⟩
  | _ => True

/-- A move that meets the guard. -/
def GuardedMove (state : Ledger) (op : Op) (next : Ledger) : Prop :=
  state.Guarded op ∧ state.Move op next

/-- Every shared extent of a cell is shielded. -/
def Cell.Shielded (cell : Cell) : Prop :=
  ∀ handle ∈ cell.pending, handle.shares = true → cell.Shields handle.extent

namespace Cell

variable {before after : Cell}

/-- A free that empties the cell leaves the shared extents to the reservation. -/
def ResetGuard (op : Op) (cell : Cell) : Prop :=
  ∀ extent ∈ cell.allocated, op = .free extent →
    int32 (cell.entry.bytesFree + (extent.size : Nat)) = (largeblockSize : Int) →
      ∀ handle ∈ cell.pending, handle.shares = true →
        ∃ resv, cell.resv = some resv ∧ handle.extent.stop ≤ resv.appendOff

/-- The extent named by a reservation for de-duplication is shielded. -/
def ShareGuard (op : Op) (before after : Cell) : Prop :=
  ∀ extent, { extent, dedup := true } ∈ after.pending →
    op = .reserveDedup extent.zone extent.bytes extent.offset → before.Shields extent

/-- What is handed out lies past every shielded extent. -/
theorem Room.past_shielded {cell : Cell} {extent shared : Extent} (room : cell.Room extent)
    (shields : cell.Shields shared) : shared.stop ≤ extent.start := by
  rcases shields with ⟨_, recorded⟩ | ⟨resv, present, reserved⟩
  · exact recorded.trans room.append2
  · exact reserved.trans (room.resv resv present).2

/-- Completing a reservation never lowers an append offset, and a reservation
with other holders survives. -/
theorem Shields.completed {held : Reserve} {extent : Extent} (shields : before.Shields extent)
    (present : before.resv = some held) (entry : after.entry = before.entry) (delay : Bool)
    (completed : Completed { held with onDelay := delay } after.resv) (survives : after.resv ≠ none)
    (stop : extent.stop ≤ largeblockSize) : after.Shields extent := by
  rcases shields with recorded | ⟨resv, resvEq, reserved⟩
  · refine .inl ?_
    rw [entry]
    exact recorded
  · obtain rfl : held = resv := Option.some.inj (present.symm.trans resvEq)
    obtain ⟨kept, keptEq⟩ := Option.ne_none_iff_exists'.mp survives
    obtain ⟨_, _, append, _⟩ := completed.kept kept keptEq
    dsimp only at append
    exact .inr ⟨kept, keptEq, by omega⟩

/-- Every guarded call keeps the shared extents of its cell shielded. -/
theorem Shielded.step {op : Op} (call : CellStep op before after) (base : CellBase before)
    (sized : after.Sized) (resetGuard : ResetGuard op before)
    (shareGuard : ShareGuard op before after) (shielded : before.Shielded) : after.Shielded := by
  have afterBase := call.base base sized
  intro handle member shares
  have stop := (sized.pending handle member).1
  have survives : after.resv ≠ none := by
    obtain ⟨resv, present, _⟩ := afterBase.held handle member
    simp [present]
  cases call with
  | @alloc extent request room entry noResv resv allocated pending =>
      rw [pending] at member
      have past := room.past_shielded (shielded handle member shares)
      obtain ⟨held, present, sameZone⟩ := base.held handle member
      refine .inl ?_
      rw [entry]
      refine ⟨(room.resv held present).1.symm.trans sameZone, ?_⟩
      simp only [Extent.stop] at *
      omega
  | @reserve extent kept request room entry present zone append fresh shared allocated pending =>
      rw [pending] at member
      rcases List.mem_cons.mp member with rfl | member
      · contradiction
      · have past := room.past_shielded (shielded handle member shares)
        refine .inr ⟨kept, present, ?_⟩
        rw [append]
        simp only [Extent.stop] at *
        omega
  | @finalize moved rest reserves holds entry resv allocated pending =>
      rw [pending] at member
      rcases List.mem_cons.mp member with rfl | member
      · simp [Handle.shares] at shares
      · have inBefore := holds.mem_iff.mpr (List.mem_cons_of_mem _ member)
        obtain ⟨held, present, sameZone⟩ := base.held handle inBefore
        have movedZone := base.zone_eq present (holds.mem_iff.mpr List.mem_cons_self)
        rcases shielded handle inBefore shares with ⟨_, recorded⟩ | ⟨other, otherEq, reserved⟩
        · refine .inl ?_
          rw [entry]
          exact ⟨movedZone.symm.trans sameZone, recorded.trans (le_max_left _ _)⟩
        · exact .inr ⟨_, resv.trans (congrArg _ otherEq), reserved⟩
  | @complete dropped rest held holds present entry completed allocated pending =>
      rw [pending] at member
      have inBefore := holds.mem_iff.mpr (List.mem_cons_of_mem _ member)
      exact (shielded handle inBefore shares).completed present entry held.onDelay completed
        survives stop
  | @freeKeeps extent rest call holds zone owned notFull entry resv allocated pending =>
      rw [pending] at member
      have shields := shielded handle member shares
      simp only [Shields, entry, resv] at shields ⊢
      exact shields
  | @freeResets extent rest kept call holds zone full entry present onDelay fresh shared
      allocated pending =>
      rw [pending] at member
      have recorded : extent ∈ before.allocated := holds.mem_iff.mpr List.mem_cons_self
      obtain ⟨resv, resvEq, reserved⟩ := resetGuard extent recorded call full handle member shares
      refine .inr ⟨kept, present, ?_⟩
      rw [(shared resv resvEq).2.2]
      exact reserved
  | @clrdelay held present onDelay entry completed allocated pending =>
      rw [pending] at member
      exact (shielded handle member shares).completed present entry false completed survives stop
  | @reserveDedup extent kept call entry owner present zone fresh shared allocated pending =>
      have carry : ∀ other : Extent, before.Shields other → after.Shields other := by
        intro other shields
        rcases shields with recorded | ⟨resv, resvEq, reserved⟩
        · refine .inl ?_
          rw [entry]
          exact recorded
        · refine .inr ⟨kept, present, ?_⟩
          rw [(shared resv resvEq).2.2.2]
          exact reserved
      have named : { extent, dedup := true } ∈ after.pending := by simp [pending]
      rw [pending] at member
      rcases List.mem_cons.mp member with rfl | member
      · exact carry extent (shareGuard extent named call)
      · exact carry handle.extent (shielded handle member shares)
  | @dedup used rest bytesFree call made holds owned entry resv allocated pending =>
      rw [pending] at member
      rcases List.mem_cons.mp member with rfl | member
      · simp [Handle.shares] at shares
      · have inBefore := holds.mem_iff.mpr (List.mem_cons_of_mem _ member)
        have shields := shielded handle inBefore shares
        simp only [Shields, entry, resv] at shields ⊢
        exact shields

end Cell

/-! ## Runs -/

/-- The invariant of guarded runs. -/
structure Shared (state : Ledger) : Prop where
  base : Base state
  cells : ∀ block, (state.cell block).Shielded

namespace Shared

variable {state next : Ledger} {op : Op} {block : Nat}

theorem change (shared : Shared state) (guarded : state.Guarded op)
    (change : Change op state next block) : Shared next where
  base := change.base shared.base
  cells other := by
    by_cases here : other = block
    · subst here
      apply Cell.Shielded.step change.here (shared.base.cells other) (change.sized other)
      · rintro extent member rfl full handle handleMember shares
        obtain ⟨recorded, inBlock⟩ := List.mem_filter.mp member
        obtain ⟨inPending, handleBlock⟩ := List.mem_filter.mp handleMember
        obtain rfl : extent.block = other := by simpa using inBlock
        exact guarded full handle inPending (by simpa using handleBlock) shares
      · rintro extent member rfl
        obtain ⟨_, inBlock⟩ := List.mem_filter.mp member
        obtain rfl : extent.block = other := by simpa using inBlock
        exact guarded
      · exact shared.cells other
    · rw [change.other other here]
      exact shared.cells other

theorem move (shared : Shared state) (move : GuardedMove state op next) : Shared next := by
  obtain ⟨guarded, admissible, offset, done⟩ := move
  cases step_outcomes shared.base admissible done with
  | idle => exact shared
  | quiet change => exact shared.change guarded change
  | served change _ => exact shared.change guarded change

end Shared

end Dragonfly.Hammer
