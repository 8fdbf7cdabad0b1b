import Mathlib.Algebra.Order.Ring.Int
import Dragonfly.Hammer.Blockmap.Step

/-!
# No double allocation

Without de-duplication the pair of append offsets covers every live extent of a
big-block: layer 2 covers what is recorded on the media, the reservation covers
what is still to be finalized.  `bytes_free` accounts for the recorded extents,
so a big-block is reset only when none is left.
-/

namespace Dragonfly.Hammer

open Dragonfly.Lib

/-- The bytes of a list of extents. -/
def totalSize (extents : List Extent) : Nat := (extents.map Extent.size).sum

@[simp]
theorem totalSize_cons (extent : Extent) (extents : List Extent) :
    totalSize (extent :: extents) = extent.size + totalSize extents := by
  simp [totalSize]

theorem totalSize_perm {first second : List Extent} (perm : first.Perm second) :
    totalSize first = totalSize second :=
  (perm.map Extent.size).sum_eq

theorem size_le_totalSize {extent : Extent} {extents : List Extent} (member : extent ∈ extents) :
    extent.size ≤ totalSize extents := by
  rw [totalSize_perm (List.perm_cons_erase member), totalSize_cons]
  exact Nat.le_add_right _ _

/-- Everything live in a cell. -/
def Cell.live (cell : Cell) : List Extent := cell.allocated ++ reservedIn cell.pending

/-- The extents share no byte. -/
def Separate (extents : List Extent) : Prop := (extents.map Extent.localSpan).Pairwise Span.Apart

theorem separate_perm {first second : List Extent} (perm : first.Perm second) :
    Separate first ↔ Separate second :=
  (perm.map Extent.localSpan).pairwise_iff Span.Apart.symm

theorem Separate.sublist {first second : List Extent} (sub : first.Sublist second)
    (separate : Separate second) : Separate first :=
  List.Pairwise.sublist (sub.map Extent.localSpan) separate

theorem Separate.cons {extent : Extent} {extents : List Extent} (separate : Separate extents)
    (past : ∀ other ∈ extents, other.stop ≤ extent.start) : Separate (extent :: extents) := by
  unfold Separate
  rw [List.map_cons, List.pairwise_cons]
  refine ⟨?_, separate⟩
  intro span member
  obtain ⟨other, otherMember, rfl⟩ := List.mem_map.mp member
  exact .inr (past other otherMember)

/-- The accounting and covering invariant of a big-block without de-duplication. -/
structure CellOk (cell : Cell) : Prop where
  owned : ∀ extent ∈ cell.allocated,
    cell.entry.zone = extent.zone ∧ extent.stop ≤ cell.entry.appendOff
  plain : ∀ handle ∈ cell.pending, handle.dedup = false
  covered : ∀ handle ∈ cell.pending, handle.finalized = false →
    ∀ resv, cell.resv = some resv → handle.extent.stop ≤ resv.appendOff
  lower : 0 ≤ cell.entry.bytesFree + (totalSize cell.allocated : Nat)
  upper : cell.entry.bytesFree + (totalSize cell.allocated : Nat) ≤ (largeblockSize : Int)
  separate : Separate cell.live

/-- What is recorded in a big-block fits into it. -/
theorem totalSize_le {entry : Layer2} {extents : List Extent}
    (bound : entry.appendOff ≤ largeblockSize)
    (owned : ∀ extent ∈ extents, entry.zone = extent.zone ∧ extent.stop ≤ entry.appendOff)
    (separate : Separate extents) : totalSize extents ≤ largeblockSize := by
  have fits := @Span.sum_len_le _ 0 largeblockSize separate ?_
  · simpa [totalSize, Function.comp_def, Extent.localSpan] using fits
  · intro span member
    obtain ⟨extent, extentMember, rfl⟩ := List.mem_map.mp member
    have stop := (owned extent extentMember).2
    refine ⟨Nat.zero_le _, ?_⟩
    rw [Nat.zero_add]
    exact stop.trans bound

theorem mem_reservedIn {pending : List Handle} {extent : Extent}
    (member : extent ∈ reservedIn pending) :
    ∃ handle ∈ pending, handle.finalized = false ∧ handle.dedup = false ∧
      handle.extent = extent := by
  obtain ⟨handle, inside, rfl⟩ := List.mem_map.mp member
  obtain ⟨handleMember, reserves⟩ := List.mem_filter.mp inside
  simp only [Handle.reserves, Bool.and_eq_true, Bool.not_eq_true'] at reserves
  exact ⟨handle, handleMember, reserves.1, reserves.2, rfl⟩

theorem reservedIn_perm {first second : List Handle} (perm : first.Perm second) :
    (reservedIn first).Perm (reservedIn second) :=
  (perm.filter _).map _

theorem reservedIn_sublist (handle : Handle) (pending : List Handle) :
    (reservedIn pending).Sublist (reservedIn (handle :: pending)) :=
  ((List.sublist_cons_self handle pending).filter _).map _

namespace Cell.Room

variable {cell : Cell} {extent : Extent}

/-- Everything live lies in front of what the search settles on. -/
theorem past (room : cell.Room extent) (base : CellBase cell) (ok : CellOk cell) :
    ∀ other ∈ cell.live, other.stop ≤ extent.start := by
  intro other member
  rcases List.mem_append.mp member with recorded | reserved
  · exact (ok.owned other recorded).2.trans room.append2
  · obtain ⟨handle, handleMember, fresh, _, rfl⟩ := mem_reservedIn reserved
    obtain ⟨resv, present, _⟩ := base.held handle handleMember
    exact (ok.covered handle handleMember fresh resv present).trans (room.resv resv present).2

end Cell.Room

namespace CellOk

variable {before after : Cell}

/-- Recording one more extent: the new count is exact. -/
theorem account_record {size total : Nat} {bytesFree : Int}
    (lower : 0 ≤ bytesFree + (total : Nat)) (upper : bytesFree + (total : Nat) ≤ (largeblockSize : Int))
    (fits : size + total ≤ largeblockSize) :
    0 ≤ int32 (bytesFree - (size : Nat)) + ((size + total : Nat) : Int) ∧
      int32 (bytesFree - (size : Nat)) + ((size + total : Nat) : Int) ≤ (largeblockSize : Int) := by
  simp only [largeblockSize] at *
  rw [int32_of_range (by omega) (by omega)]
  omega

/-- Releasing an extent: the new count is exact. -/
theorem account_release {size total : Nat} {bytesFree : Int}
    (lower : 0 ≤ bytesFree + ((size + total : Nat) : Int))
    (upper : bytesFree + ((size + total : Nat) : Int) ≤ (largeblockSize : Int))
    (fits : size + total ≤ largeblockSize) :
    int32 (bytesFree + (size : Nat)) = bytesFree + (size : Nat) := by
  simp only [largeblockSize] at *
  exact int32_of_range (by omega) (by omega)

theorem totalSize_allocated_le (ok : CellOk before) (base : CellBase before) :
    totalSize before.allocated ≤ largeblockSize :=
  totalSize_le base.entryOk.append2 ok.owned (ok.separate.sublist (List.sublist_append_left _ _))

/-- Completing a reservation leaves the remaining holders covered. -/
theorem covered_of_completed {held : Reserve} (ok : CellOk before) (sized : after.Sized)
    (present : before.resv = some held) (delay : Bool)
    (completed : Completed { held with onDelay := delay } after.resv)
    (subset : ∀ handle ∈ after.pending, handle ∈ before.pending) :
    ∀ handle ∈ after.pending, handle.finalized = false →
      ∀ resv, after.resv = some resv → handle.extent.stop ≤ resv.appendOff := by
  intro handle member fresh resv keptEq
  obtain ⟨_, _, append, _⟩ := completed.kept resv keptEq
  dsimp only at append
  have covered := ok.covered handle (subset handle member) fresh held present
  have stop := (sized.pending handle member).1
  omega

/-- Every call other than de-duplication keeps a big-block in order. -/
theorem step {op : Op} (call : CellStep op before after) (plainOp : op.plain = true)
    (base : CellBase before) (sized : after.Sized) (ok : CellOk before) : CellOk after := by
  have afterBase := call.base base sized
  cases call with
  | @alloc extent request room entry noResv resv allocated pending =>
      have past := room.past base ok
      have owned : ∀ other ∈ after.allocated,
          after.entry.zone = other.zone ∧ other.stop ≤ after.entry.appendOff := by
        intro other member
        have real := sized.allocated other member
        rw [allocated] at member
        rw [entry]
        dsimp only
        rcases List.mem_cons.mp member with rfl | member
        · exact ⟨rfl, le_rfl⟩
        · obtain ⟨zone, stop⟩ := ok.owned other member
          have owner : before.entry.zone = extent.zone := by
            apply room.owner.resolve_left
            rw [zone]
            exact real.2.1
          have start := room.append2
          refine ⟨owner.symm.trans zone, ?_⟩
          simp only [Extent.stop] at *
          omega
      have separate : Separate after.live := by
        simp only [Cell.live, allocated, pending]
        exact ok.separate.cons past
      have fits := totalSize_le afterBase.entryOk.append2 owned
        (separate.sublist (List.sublist_append_left _ _))
      rw [allocated, totalSize_cons] at fits
      have account := account_record ok.lower ok.upper fits
      refine ⟨owned, by rw [pending]; exact ok.plain, ?_, ?_, ?_, separate⟩
      · intro handle member fresh kept keptEq
        have stop := (sized.pending handle member).1
        rw [pending] at member
        obtain ⟨held, present, _⟩ := base.held handle member
        obtain ⟨same, keptEq', _, _, _, append⟩ := resv held present
        obtain rfl : kept = same := Option.some.inj (keptEq.symm.trans keptEq')
        have covered := ok.covered handle member fresh held present
        have start := (room.resv held present).2
        simp only [Extent.stop] at *
        omega
      · rw [allocated, totalSize_cons, entry]
        exact account.1
      · rw [allocated, totalSize_cons, entry]
        exact account.2
  | @reserve extent kept request room entry present zone append fresh shared allocated pending =>
      have past := room.past base ok
      refine ⟨?_, ?_, ?_, ?_, ?_, ?_⟩
      · rw [allocated, entry]
        exact ok.owned
      · rw [pending]
        intro handle member
        rcases List.mem_cons.mp member with rfl | member
        · rfl
        · exact ok.plain handle member
      · intro handle member fresh resv resvEq
        obtain rfl : kept = resv := Option.some.inj (present.symm.trans resvEq)
        rw [append]
        rw [pending] at member
        rcases List.mem_cons.mp member with rfl | member
        · exact le_rfl
        · obtain ⟨held, heldEq, _⟩ := base.held handle member
          have covered := ok.covered handle member fresh held heldEq
          have start := (room.resv held heldEq).2
          simp only [Extent.stop] at *
          omega
      · rw [allocated, entry]
        exact ok.lower
      · rw [allocated, entry]
        exact ok.upper
      · have perm : after.live.Perm (extent :: before.live) := by
          simp only [Cell.live, allocated, pending]
          exact List.perm_middle
        rw [separate_perm perm]
        exact ok.separate.cons past
  | @finalize handle rest reserves holds entry resv allocated pending =>
      have member : handle ∈ before.pending := holds.mem_iff.mpr List.mem_cons_self
      obtain ⟨held, present, sameZone⟩ := base.held handle member
      have fresh : handle.finalized = false := by
        simp only [Handle.reserves, Bool.and_eq_true, Bool.not_eq_true'] at reserves
        exact reserves.1
      have live : before.live.Perm after.live := by
        have split : reservedIn (handle :: rest) = handle.extent :: reservedIn rest := by
          simp [reservedIn, reserves]
        have moved : reservedIn ({ handle with finalized := true } :: rest) = reservedIn rest := by
          simp [reservedIn, Handle.reserves]
        simp only [Cell.live, allocated, pending, moved]
        refine ((reservedIn_perm holds).append_left before.allocated).trans ?_
        rw [split]
        exact List.perm_middle
      have separate : Separate after.live := (separate_perm live).mp ok.separate
      have owned : ∀ other ∈ after.allocated,
          after.entry.zone = other.zone ∧ other.stop ≤ after.entry.appendOff := by
        intro other otherMember
        have real := sized.allocated other otherMember
        rw [allocated] at otherMember
        rw [entry]
        dsimp only
        rcases List.mem_cons.mp otherMember with rfl | otherMember
        · exact ⟨rfl, le_max_right _ _⟩
        · obtain ⟨zone, stop⟩ := ok.owned other otherMember
          have owner : before.entry.zone = held.zone := by
            apply (base.entryOk.zone held present).resolve_left
            rw [zone]
            exact real.2.1
          exact ⟨(sameZone.symm.trans owner.symm).trans zone, stop.trans (le_max_left _ _)⟩
      have fits := totalSize_le afterBase.entryOk.append2 owned
        (separate.sublist (List.sublist_append_left _ _))
      rw [allocated, totalSize_cons] at fits
      have account := account_record ok.lower ok.upper fits
      refine ⟨owned, ?_, ?_, ?_, ?_, separate⟩
      · rw [pending]
        intro other otherMember
        rcases List.mem_cons.mp otherMember with rfl | otherMember
        · exact ok.plain handle member
        · exact ok.plain other (holds.mem_iff.mpr (List.mem_cons_of_mem _ otherMember))
      · rw [pending]
        intro other otherMember otherFresh kept keptEq
        rw [resv, present] at keptEq
        obtain rfl : _ = kept := Option.some.inj keptEq
        rcases List.mem_cons.mp otherMember with rfl | otherMember
        · contradiction
        · exact ok.covered other (holds.mem_iff.mpr (List.mem_cons_of_mem _ otherMember))
            otherFresh held present
      · rw [allocated, totalSize_cons, entry]
        exact account.1
      · rw [allocated, totalSize_cons, entry]
        exact account.2
  | @complete handle rest held holds present entry completed allocated pending =>
      have subset : ∀ other ∈ after.pending, other ∈ before.pending := by
        rw [pending]
        exact fun other member => holds.mem_iff.mpr (List.mem_cons_of_mem _ member)
      refine ⟨?_, fun other member => ok.plain other (subset other member),
        ok.covered_of_completed sized present held.onDelay completed subset, ?_, ?_, ?_⟩
      · rw [allocated, entry]
        exact ok.owned
      · rw [allocated, entry]
        exact ok.lower
      · rw [allocated, entry]
        exact ok.upper
      · have perm : before.live.Perm (before.allocated ++ reservedIn (handle :: rest)) :=
          (reservedIn_perm holds).append_left _
        simp only [Cell.live, allocated, pending]
        exact ((separate_perm perm).mp ok.separate).sublist
          ((reservedIn_sublist handle rest).append_left _)
  | @freeKeeps extent rest call holds zone owned notFull entry resv allocated pending =>
      have total : totalSize before.allocated = extent.size + totalSize rest := by
        rw [totalSize_perm holds, totalSize_cons]
      have fits := ok.totalSize_allocated_le base
      have lower := ok.lower
      have upper := ok.upper
      rw [total] at fits lower upper
      have exact' := account_release lower upper fits
      refine ⟨?_, by rw [pending]; exact ok.plain, by rw [pending, resv]; exact ok.covered,
        ?_, ?_, ?_⟩
      · rw [allocated, entry]
        exact fun other member =>
          ok.owned other (holds.mem_iff.mpr (List.mem_cons_of_mem _ member))
      · rw [allocated, entry]
        simp only [exact']
        push_cast at lower
        omega
      · rw [allocated, entry]
        simp only [exact']
        push_cast at upper
        omega
      · have perm : before.live.Perm (extent :: rest ++ reservedIn before.pending) :=
          holds.append_right _
        simp only [Cell.live, allocated, pending]
        exact ((separate_perm perm).mp ok.separate).sublist (List.sublist_cons_self _ _)
  | @freeResets extent rest kept call holds zone full entry present onDelay fresh shared
      allocated pending =>
      have total : totalSize before.allocated = extent.size + totalSize rest := by
        rw [totalSize_perm holds, totalSize_cons]
      have fits := ok.totalSize_allocated_le base
      have lower := ok.lower
      have upper := ok.upper
      rw [total] at fits lower upper
      have exact' := account_release lower upper fits
      -- a full count leaves no room for another recorded extent
      have nothing : rest = [] := by
        rw [List.eq_nil_iff_forall_not_mem]
        intro other member
        have real := (sized.allocated other (by rw [allocated]; exact member)).2.2
        have part := size_le_totalSize member
        rw [exact'] at full
        push_cast at upper
        omega
      rw [nothing] at allocated
      refine ⟨by simp [allocated], by rw [pending]; exact ok.plain, ?_, ?_, ?_, ?_⟩
      · rw [pending]
        intro handle member unfinalized resv resvEq
        obtain rfl : kept = resv := Option.some.inj (present.symm.trans resvEq)
        obtain ⟨held, heldEq, _⟩ := base.held handle member
        rw [(shared held heldEq).2.2]
        exact ok.covered handle member unfinalized held heldEq
      · simp [allocated, entry, totalSize]
      · simp [allocated, entry, totalSize]
      · simp only [Cell.live, allocated, pending, List.nil_append]
        exact ok.separate.sublist (List.sublist_append_right _ _)
  | @clrdelay held present onDelay entry completed allocated pending =>
      refine ⟨?_, by rw [pending]; exact ok.plain,
        ok.covered_of_completed sized present false completed
          (by rw [pending]; exact fun _ member => member), ?_, ?_, ?_⟩
      · rw [allocated, entry]
        exact ok.owned
      · rw [allocated, entry]
        exact ok.lower
      · rw [allocated, entry]
        exact ok.upper
      · simp only [Cell.live, allocated, pending]
        exact ok.separate
  | reserveDedup call =>
      rw [call] at plainOp
      contradiction
  | dedup call =>
      rw [call] at plainOp
      contradiction

end CellOk

/-! ## Runs -/

/-- The invariant of the blockmap without de-duplication. -/
structure Sound (state : Ledger) : Prop where
  base : Base state
  cells : ∀ block, CellOk (state.cell block)
  top : (state.hmp.layer1 lastLayer1).physOffset = none
  inZone : ∀ zone, zoneBtreeIndex ≤ zone → zone < maxZones →
    zoneDecode (state.hmp.nextOffset zone) = zone

/-- A file system as it is mounted: no reservation yet, every recorded extent
below the append offset of a big-block its zone owns, and `bytes_free` accounting
for at least the recorded extents.  No volume is large enough to use the last
layer-1 entry. -/
structure Mounted (state : Ledger) : Prop where
  noResv : ∀ block, state.hmp.resv block = none
  noPending : state.pending = []
  unavail : ∀ index, (state.hmp.layer1 index).physOffset = none →
    (state.hmp.layer1 index).blocksFree = 0
  top : (state.hmp.layer1 lastLayer1).physOffset = none
  next : ∀ zone, zoneBtreeIndex ≤ zone → zone < maxZones →
    ScanOk state.hmp zone (state.hmp.nextOffset zone) ∧
      zoneDecode (state.hmp.nextOffset zone) = zone
  append2 : ∀ block, (state.hmp.layer2 block).appendOff ≤ largeblockSize
  free : ∀ block, (state.hmp.layer2 block).zone = 0 →
    (state.hmp.layer2 block).appendOff = 0 ∧
      (state.hmp.layer2 block).bytesFree = (largeblockSize : Int)
  extents : ∀ extent ∈ state.allocated, ExtentOk state.hmp extent ∧
    (state.hmp.layer2 extent.block).zone = extent.zone ∧
      extent.stop ≤ (state.hmp.layer2 extent.block).appendOff
  account : ∀ block,
    let recorded := totalSize (state.allocated.filter (·.block = block))
    0 ≤ (state.hmp.layer2 block).bytesFree + (recorded : Nat) ∧
      (state.hmp.layer2 block).bytesFree + (recorded : Nat) ≤ (largeblockSize : Int)
  separate : ∀ block, Separate (state.allocated.filter (·.block = block))

theorem Mounted.sound {state : Ledger} (mounted : Mounted state) : Sound state where
  base :=
    { unavail := mounted.unavail
      next := fun zone lower upper => (mounted.next zone lower upper).1
      cells := fun block =>
        .of_none (mounted.noResv block) (mounted.append2 block) (mounted.free block)
          (by simp [Ledger.cell, mounted.noPending])
      allocated := fun extent member => (mounted.extents extent member).1
      pending := by simp [mounted.noPending] }
  cells block := by
    refine ⟨?_, by simp [Ledger.cell, mounted.noPending], by simp [Ledger.cell, mounted.noPending],
      (mounted.account block).1, (mounted.account block).2, ?_⟩
    · intro extent member
      obtain ⟨inList, here⟩ := List.mem_filter.mp member
      obtain rfl : extent.block = block := by simpa using here
      exact (mounted.extents extent inList).2
    · simpa [Cell.live, Ledger.cell, mounted.noPending, reservedIn] using mounted.separate block
  top := mounted.top
  inZone zone lower upper := (mounted.next zone lower upper).2

/-- A move of the allocator proper, without de-duplication. -/
def PlainMove (state : Ledger) (op : Op) (next : Ledger) : Prop :=
  op.plain = true ∧ state.Move op next

namespace Sound

variable {state next : Ledger} {op : Op} {block : Nat}

theorem change (sound : Sound state) (plainOp : op.plain = true)
    (change : Change op state next block) : Sound next where
  base := change.base sound.base
  cells other := by
    by_cases here : other = block
    · subst here
      exact CellOk.step change.here plainOp (sound.base.cells other) (change.sized other)
        (sound.cells other)
    · rw [change.other other here]
      exact sound.cells other
  top := by
    rw [change.touch.phys]
    exact sound.top
  inZone zone lower upper := by
    rcases change.offsets with same | ⟨moved, offset, same, _, inZone⟩
    · rw [same]
      exact sound.inZone zone lower upper
    · rw [same]
      by_cases here : zone = moved
      · subst here
        rw [Function.update_self]
        exact inZone sound.top
      · rw [Function.update_of_ne here]
        exact sound.inZone zone lower upper

theorem move (sound : Sound state) (move : PlainMove state op next) : Sound next := by
  obtain ⟨plainOp, admissible, offset, done⟩ := move
  cases step_outcomes sound.base admissible done with
  | idle => exact sound
  | quiet change => exact sound.change plainOp change
  | served change _ => exact sound.change plainOp change

end Sound

/-- One volume of four free big-blocks, just formatted. -/
def smallVolume : Ledger where
  hmp :=
    { layer1 := fun index => if index = 0 then ⟨4, some 0⟩ else ⟨0, none⟩
      layer2 := fun block =>
        if block < 4 then ⟨0, 0, largeblockSize⟩ else ⟨15, largeblockSize, 0⟩
      resv := fun _ => none
      nextOffset := fun zone => zoneEncode zone 0
      volumeToRemove := none
      delayList := []
      rsvFromdelay := 0
      flusherNext := 0
      statFreebigblocks := 4
      copyStatFreebigblocks := 4 }
  allocated := []
  pending := []

theorem smallVolume_mounted : Mounted smallVolume where
  noResv _ := rfl
  noPending := rfl
  unavail index none := by
    by_cases first : index = 0
    · simp [smallVolume, first] at none
    · simp [smallVolume, first]
  top := rfl
  next zone _ _ := by
    obtain ⟨edge, first, last⟩ := zone_edges zone
    refine ⟨.of_aligned le_rfl ?_ ?_, ?_⟩
    · simp only [smallVolume]
      omega
    · simp only [smallVolume, blockOffset, largeblockSize]
      omega
    · simp only [smallVolume, zoneDecode, zoneEncode, zoneSpan]
      omega
  append2 block := by
    simp only [smallVolume]
    split
    · exact Nat.zero_le _
    · exact le_rfl
  free block unowned := by
    simp only [smallVolume] at unowned ⊢
    split at unowned
    · rename_i inside
      simp [inside]
    · contradiction
  extents := by simp [smallVolume]
  account block := by
    simp only [smallVolume, largeblockSize]
    split <;> simp [totalSize]
  separate _ := List.Pairwise.nil

end Dragonfly.Hammer
