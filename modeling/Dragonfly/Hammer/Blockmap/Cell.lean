import Dragonfly.Hammer.Blockmap.Ledger

/-!
# One call, one cell

A cell is what layer 2, the reservation tree and the callers say about one
big-block.  `CellStep` is the complete list of changes a call can make to a
cell; the invariants of the blockmap are proved by cases on it.
-/

namespace Dragonfly.Hammer

open Dragonfly.Lib

/-- The view all parties have of one big-block. -/
structure Cell where
  entry : Layer2
  resv : Option Reserve
  allocated : List Extent
  pending : List Handle

/-- The cell of a big-block. -/
def Ledger.cell (state : Ledger) (block : Nat) : Cell where
  entry := state.hmp.layer2 block
  resv := state.hmp.resv block
  allocated := state.allocated.filter (·.block = block)
  pending := state.pending.filter (·.extent.block = block)

/-- The search may settle on this extent. -/
structure Cell.Room (cell : Cell) (extent : Extent) : Prop where
  owner : cell.entry.zone = 0 ∨ cell.entry.zone = extent.zone
  append2 : cell.entry.appendOff ≤ extent.start
  resv : ∀ resv, cell.resv = some resv →
    resv.zone = extent.zone ∧ resv.appendOff ≤ extent.start

/-- An extent a caller can hold: sizes, zone and media in range, one big-block. -/
structure ExtentOk (hmp : Mount) (extent : Extent) : Prop where
  positive : 0 < extent.bytes
  small : extent.size ≤ xbufsize
  zoneOk : zoneBtreeIndex ≤ extent.zone ∧ extent.zone < maxZones
  avail : (hmp.layer1 (layer1Index extent.offset)).physOffset.isSome
  stop : extent.stop ≤ largeblockSize

theorem ExtentOk.size_pos {hmp : Mount} {extent : Extent} (ok : ExtentOk hmp extent) :
    0 < extent.size :=
  roundBytes_pos ok.positive

theorem ExtentOk.zone_ne_zero {hmp : Mount} {extent : Extent} (ok : ExtentOk hmp extent) :
    extent.zone ≠ 0 := by
  have lower : 8 ≤ extent.zone := ok.zoneOk.1
  omega

/-- Everything a finished call can do to the cell it works on. -/
inductive CellStep (op : Op) (before after : Cell) : Prop where
  | alloc {extent : Extent} (request : op.request = some (extent.zone, extent.bytes))
      (room : before.Room extent)
      (entry : after.entry =
        { zone := extent.zone
          appendOff := extent.stop
          bytesFree := int32 (before.entry.bytesFree - (extent.size : Nat)) })
      (noResv : before.resv = none → after.resv = none)
      (resv : ∀ held, before.resv = some held →
        ∃ kept, after.resv = some kept ∧ kept.zone = held.zone ∧ 0 < kept.refs ∧
          kept.refs + held.onDelay.toNat = held.refs + kept.onDelay.toNat ∧
          (kept.appendOff = extent.stop ∨ kept.appendOff = largeblockSize))
      (allocated : after.allocated = extent :: before.allocated)
      (pending : after.pending = before.pending)
  | reserve {extent : Extent} {kept : Reserve}
      (request : op.request = some (extent.zone, extent.bytes)) (room : before.Room extent)
      (entry : after.entry = before.entry) (present : after.resv = some kept)
      (zone : kept.zone = extent.zone) (append : kept.appendOff = extent.stop)
      (fresh : before.resv = none → kept.refs = 1 ∧ kept.onDelay = false)
      (shared : ∀ held, before.resv = some held →
        kept.refs = held.refs + 1 ∧ kept.onDelay = held.onDelay)
      (allocated : after.allocated = before.allocated)
      (pending : after.pending = { extent } :: before.pending)
  | finalize {handle : Handle} {rest : List Handle} (reserves : handle.reserves = true)
      (holds : before.pending.Perm (handle :: rest))
      (entry : after.entry =
        { zone := handle.extent.zone
          appendOff := max before.entry.appendOff handle.extent.stop
          bytesFree := int32 (before.entry.bytesFree - (handle.extent.size : Nat)) })
      (resv : after.resv = before.resv.map ({ · with layer2Free := false }))
      (allocated : after.allocated = handle.extent :: before.allocated)
      (pending : after.pending = { handle with finalized := true } :: rest)
  | complete {handle : Handle} {rest : List Handle} {held : Reserve}
      (holds : before.pending.Perm (handle :: rest)) (present : before.resv = some held)
      (entry : after.entry = before.entry) (completed : Completed held after.resv)
      (allocated : after.allocated = before.allocated) (pending : after.pending = rest)
  | freeKeeps {extent : Extent} {rest : List Extent} (call : op = .free extent)
      (holds : before.allocated.Perm (extent :: rest)) (zone : before.entry.zone = extent.zone)
      (owned : before.entry.zone ≠ 0)
      (notFull : int32 (before.entry.bytesFree + (extent.size : Nat)) ≠ (largeblockSize : Int))
      (entry : after.entry =
        { before.entry with bytesFree := int32 (before.entry.bytesFree + (extent.size : Nat)) })
      (resv : after.resv = before.resv)
      (allocated : after.allocated = rest) (pending : after.pending = before.pending)
  | freeResets {extent : Extent} {rest : List Extent} {kept : Reserve} (call : op = .free extent)
      (holds : before.allocated.Perm (extent :: rest)) (zone : before.entry.zone = extent.zone)
      (full : int32 (before.entry.bytesFree + (extent.size : Nat)) = (largeblockSize : Int))
      (entry : after.entry = { zone := 0, appendOff := 0, bytesFree := (largeblockSize : Int) })
      (present : after.resv = some kept) (onDelay : kept.onDelay = true)
      (fresh : before.resv = none → kept.refs = 1 ∧ kept.appendOff = largeblockSize)
      (shared : ∀ held, before.resv = some held →
        kept.zone = held.zone ∧ kept.refs + held.onDelay.toNat = held.refs + 1 ∧
          kept.appendOff = held.appendOff)
      (allocated : after.allocated = rest) (pending : after.pending = before.pending)
  | clrdelay {held : Reserve} (present : before.resv = some held) (onDelay : held.onDelay = true)
      (entry : after.entry = before.entry)
      (completed : Completed { held with onDelay := false } after.resv)
      (allocated : after.allocated = before.allocated) (pending : after.pending = before.pending)
  | reserveDedup {extent : Extent} {kept : Reserve}
      (call : op = .reserveDedup extent.zone extent.bytes extent.offset)
      (entry : after.entry = before.entry)
      (owner : before.entry.zone = 0 ∨ before.entry.zone = extent.zone)
      (present : after.resv = some kept) (zone : kept.zone = extent.zone)
      (fresh : before.resv = none →
        kept.refs = 1 ∧ kept.onDelay = false ∧ kept.appendOff = 0)
      (shared : ∀ held, before.resv = some held → held.zone = kept.zone ∧
        kept.refs = held.refs + 1 ∧ kept.onDelay = held.onDelay ∧
          kept.appendOff = held.appendOff)
      (allocated : after.allocated = before.allocated)
      (pending : after.pending = { extent, dedup := true } :: before.pending)
  | dedup {handle : Handle} {rest : List Handle} {bytesFree : Int} (call : op = .dedup handle)
      (made : handle.dedup = true) (holds : before.pending.Perm (handle :: rest))
      (owned : before.entry.zone ≠ 0) (entry : after.entry = { before.entry with bytesFree })
      (resv : after.resv = before.resv)
      (allocated : after.allocated = handle.extent :: before.allocated)
      (pending : after.pending = { handle with finalized := true } :: rest)

/-! ## What holds of every cell, de-duplication or not -/

/-- The bookkeeping between a reservation and the callers that hold it. -/
structure CellBase (cell : Cell) : Prop where
  entryOk : EntryOk cell.entry cell.resv
  counted : ∀ resv, cell.resv = some resv →
    resv.refs = cell.pending.length + resv.onDelay.toNat
  held : ∀ handle ∈ cell.pending, ∃ resv, cell.resv = some resv ∧ resv.zone = handle.extent.zone

/-- The extents named by a cell are real: inside the big-block, in a zone, not empty. -/
structure Cell.Sized (cell : Cell) : Prop where
  allocated : ∀ extent ∈ cell.allocated,
    extent.stop ≤ largeblockSize ∧ extent.zone ≠ 0 ∧ 0 < extent.size
  pending : ∀ handle ∈ cell.pending,
    handle.extent.stop ≤ largeblockSize ∧ handle.extent.zone ≠ 0 ∧ 0 < handle.extent.size

namespace CellBase

variable {cell : Cell}

/-- Without a reservation nobody holds one. -/
theorem pending_eq_nil (base : CellBase cell) (absent : cell.resv = none) : cell.pending = [] := by
  rw [List.eq_nil_iff_forall_not_mem]
  intro handle member
  obtain ⟨resv, present, _⟩ := base.held handle member
  rw [absent] at present
  contradiction

/-- All holders of a reservation are in its zone. -/
theorem zone_eq (base : CellBase cell) {resv : Reserve} (present : cell.resv = some resv)
    {handle : Handle} (member : handle ∈ cell.pending) : resv.zone = handle.extent.zone := by
  obtain ⟨other, otherPresent, zone⟩ := base.held handle member
  have same : resv = other := Option.some.inj (present.symm.trans otherPresent)
  rw [same]
  exact zone

theorem of_none (absent : cell.resv = none) (append2 : cell.entry.appendOff ≤ largeblockSize)
    (free : cell.entry.zone = 0 →
      cell.entry.appendOff = 0 ∧ cell.entry.bytesFree = (largeblockSize : Int))
    (nobody : cell.pending = []) : CellBase cell where
  entryOk := ⟨append2, free, by simp [absent], by simp [absent], by simp [absent]⟩
  counted := by simp [absent]
  held := by simp [nobody]

theorem of_some {resv : Reserve} (present : cell.resv = some resv)
    (append2 : cell.entry.appendOff ≤ largeblockSize)
    (free : cell.entry.zone = 0 →
      cell.entry.appendOff = 0 ∧ cell.entry.bytesFree = (largeblockSize : Int))
    (appendResv : resv.appendOff ≤ largeblockSize)
    (zone : cell.entry.zone = 0 ∨ cell.entry.zone = resv.zone) (positive : 0 < resv.refs)
    (counted : resv.refs = cell.pending.length + resv.onDelay.toNat)
    (held : ∀ handle ∈ cell.pending, resv.zone = handle.extent.zone) : CellBase cell where
  entryOk :=
    { append2, free
      appendResv := by simpa [present] using appendResv
      refs := by
        intro other same
        have otherEq : resv = other := Option.some.inj (present.symm.trans same)
        subst otherEq
        exact ⟨by omega, positive⟩
      zone := by simpa [present] using zone }
  counted := by simpa [present] using counted
  held handle member := ⟨resv, present, held handle member⟩

/-- Dropping one reference keeps the bookkeeping of the remaining ones. -/
theorem of_completed {before : Cell} {held : Reserve}
    (base : CellBase before) (present : before.resv = some held)
    (entry : cell.entry = before.entry) (delay : Bool)
    (completed : Completed { held with onDelay := delay } cell.resv)
    (balance : held.refs = cell.pending.length + delay.toNat + 1)
    (subset : ∀ handle ∈ cell.pending, handle ∈ before.pending) : CellBase cell := by
  have ok := base.entryOk
  cases result : cell.resv with
  | none =>
      obtain ⟨refs, offDelay⟩ := completed.gone result
      dsimp only at refs offDelay
      refine of_none result (by rw [entry]; exact ok.append2) (by rw [entry]; exact ok.free) ?_
      rw [← List.length_eq_zero_iff]
      omega
  | some kept =>
      obtain ⟨zone, positive, append, refs⟩ := completed.kept kept result
      dsimp only at zone append refs
      refine of_some result (by rw [entry]; exact ok.append2) (by rw [entry]; exact ok.free)
        ?_ ?_ positive (by omega) ?_
      · have bound := ok.appendResv held present
        omega
      · rw [entry, zone]
        exact ok.zone held present
      · intro handle member
        rw [zone]
        exact base.zone_eq present (subset handle member)

/-- One more holder of an existing or a new reservation. -/
theorem of_acquired {before : Cell} {kept : Reserve} {handle : Handle} (base : CellBase before)
    (entry : cell.entry = before.entry) (present : cell.resv = some kept)
    (owner : before.entry.zone = 0 ∨ before.entry.zone = kept.zone)
    (zone : kept.zone = handle.extent.zone) (append : kept.appendOff ≤ largeblockSize)
    (fresh : before.resv = none → kept.refs = 1 ∧ kept.onDelay = false)
    (shared : ∀ held, before.resv = some held →
      held.zone = kept.zone ∧ kept.refs = held.refs + 1 ∧ kept.onDelay = held.onDelay)
    (pending : cell.pending = handle :: before.pending) : CellBase cell := by
  have ok := base.entryOk
  have append2 : cell.entry.appendOff ≤ largeblockSize := by rw [entry]; exact ok.append2
  have free := ok.free
  rw [← entry] at free owner
  cases held : before.resv with
  | none =>
      obtain ⟨refs, offDelay⟩ := fresh held
      have nobody := base.pending_eq_nil held
      rw [nobody] at pending
      apply of_some present append2 free append owner
      · omega
      · simp [pending, refs, offDelay]
      · simp [pending, zone]
  | some resv =>
      obtain ⟨sameZone, refs, delay⟩ := shared resv held
      have counted := base.counted resv held
      apply of_some present append2 free append owner
      · omega
      · rw [pending, List.length_cons, delay]
        omega
      · intro other member
        rw [pending, List.mem_cons] at member
        rcases member with rfl | member
        · exact zone
        · rw [← sameZone]
          exact base.zone_eq held member

/-- A holder of the reservation records its extent. -/
theorem of_finalized {before : Cell} {handle : Handle} {rest : List Handle} (base : CellBase before)
    (holds : before.pending.Perm (handle :: rest)) (stop : handle.extent.stop ≤ largeblockSize)
    (zone : handle.extent.zone ≠ 0) (zoneEq : cell.entry.zone = handle.extent.zone)
    (append : cell.entry.appendOff = max before.entry.appendOff handle.extent.stop)
    (resv : cell.resv = before.resv.map ({ · with layer2Free := false }))
    (pending : cell.pending = { handle with finalized := true } :: rest) : CellBase cell := by
  have ok := base.entryOk
  have member : handle ∈ before.pending := holds.mem_iff.mpr List.mem_cons_self
  obtain ⟨held, present, sameZone⟩ := base.held handle member
  have counted := base.counted held present
  have length := holds.length_eq
  have bound := ok.append2
  apply CellBase.of_some (resv.trans (congrArg _ present))
  · rw [append]
    exact max_le bound stop
  · rw [zoneEq]
    exact fun unowned => absurd unowned zone
  · exact ok.appendResv held present
  · rw [zoneEq]
    exact .inr sameZone.symm
  · exact (ok.refs held present).2
  · rw [pending]
    simpa [length] using counted
  · intro other otherMember
    rw [pending, List.mem_cons] at otherMember
    rcases otherMember with rfl | otherMember
    · exact sameZone
    · exact base.zone_eq present (holds.mem_iff.mpr (List.mem_cons_of_mem _ otherMember))

/-- Only the count of an owned big-block has changed. -/
theorem of_counted {before : Cell} {bytesFree : Int} (base : CellBase before) (owned : before.entry.zone ≠ 0)
    (entry : cell.entry = { before.entry with bytesFree }) (resv : cell.resv = before.resv)
    (pending : cell.pending = before.pending) : CellBase cell := by
  have ok := base.entryOk
  have free : cell.entry.zone = 0 → cell.entry.appendOff = 0 ∧
      cell.entry.bytesFree = (largeblockSize : Int) := by
    rw [entry]
    exact fun unowned => absurd unowned owned
  have append2 : cell.entry.appendOff ≤ largeblockSize := by
    rw [entry]
    exact ok.append2
  refine ⟨⟨append2, free, ?_, ?_, ?_⟩, ?_, ?_⟩
  · rw [resv]
    exact ok.appendResv
  · rw [resv]
    exact ok.refs
  · rw [resv, entry]
    exact ok.zone
  · rw [resv, pending]
    exact base.counted
  · rw [resv, pending]
    exact base.held

end CellBase

/-- Every call keeps the bookkeeping of the cell it works on. -/
theorem CellStep.base {op : Op} {before after : Cell} (step : CellStep op before after)
    (base : CellBase before) (sized : after.Sized) : CellBase after := by
  have ok := base.entryOk
  cases step with
  | @alloc extent request room entry noResv resv allocated pending =>
      obtain ⟨stop, zone, _⟩ := sized.allocated extent (by simp [allocated])
      have append2 : after.entry.appendOff ≤ largeblockSize := by rw [entry]; exact stop
      have free : after.entry.zone = 0 → after.entry.appendOff = 0 ∧
          after.entry.bytesFree = (largeblockSize : Int) := by
        rw [entry]
        exact fun unowned => absurd unowned zone
      cases present : before.resv with
      | none =>
          refine .of_none (noResv present) append2 free ?_
          rw [pending]
          exact base.pending_eq_nil present
      | some held =>
          obtain ⟨kept, keptEq, zoneEq, positive, balance, append⟩ := resv held present
          have counted := base.counted held present
          refine .of_some keptEq append2 free ?_ ?_ positive ?_ ?_
          · omega
          · rw [entry, zoneEq, (room.resv held present).1]
            exact .inr rfl
          · rw [pending]
            omega
          · rw [pending, zoneEq]
            exact fun handle member => base.zone_eq present member
  | @reserve extent kept request room entry present zone append fresh shared allocated pending =>
      obtain ⟨stop, _, _⟩ := sized.pending { extent } (by simp [pending])
      apply base.of_acquired entry present (by rw [zone]; exact room.owner) zone
        (by rw [append]; exact stop) fresh ?_ pending
      intro held heldEq
      rw [zone]
      exact ⟨(room.resv held heldEq).1, shared held heldEq⟩
  | @finalize handle rest reserves holds entry resv allocated pending =>
      obtain ⟨stop, zone, _⟩ := sized.allocated handle.extent (by simp [allocated])
      exact base.of_finalized holds stop zone (by rw [entry]) (by rw [entry]) resv pending
  | @complete handle rest held holds present entry completed allocated pending =>
      have counted := base.counted held present
      have length := holds.length_eq
      apply base.of_completed present entry held.onDelay completed
      · rw [pending]
        simp only [List.length_cons] at length
        omega
      · intro other member
        rw [pending] at member
        exact holds.mem_iff.mpr (List.mem_cons_of_mem _ member)
  | @freeKeeps extent rest call holds zone owned notFull entry resv allocated pending =>
      exact base.of_counted owned entry resv pending
  | @freeResets extent rest kept call holds zone full entry present onDelay fresh shared
      allocated pending =>
      have append2 : after.entry.appendOff ≤ largeblockSize := by
        rw [entry]
        exact Nat.zero_le _
      have free : after.entry.zone = 0 → after.entry.appendOff = 0 ∧
          after.entry.bytesFree = (largeblockSize : Int) := by
        rw [entry]
        exact fun _ => ⟨rfl, rfl⟩
      have unowned : after.entry.zone = 0 := by rw [entry]
      cases held : before.resv with
      | none =>
          obtain ⟨refs, append⟩ := fresh held
          have nobody := base.pending_eq_nil held
          rw [nobody] at pending
          apply CellBase.of_some present append2 free (by omega) (.inl unowned) (by omega)
          · simp [pending, refs, onDelay]
          · simp [pending]
      | some resv =>
          obtain ⟨sameZone, balance, append⟩ := shared resv held
          have counted := base.counted resv held
          have bound := ok.appendResv resv held
          apply CellBase.of_some present append2 free (by omega) (.inl unowned)
          · omega
          · rw [pending, onDelay, Bool.toNat_true]
            omega
          · rw [pending, sameZone]
            exact fun handle member => base.zone_eq held member
  | @clrdelay held present onDelay entry completed allocated pending =>
      have counted := base.counted held present
      apply base.of_completed present entry false completed
      · rw [pending]
        simp only [onDelay, Bool.toNat_true, Bool.toNat_false] at counted ⊢
        omega
      · rw [pending]
        exact fun _ member => member
  | @reserveDedup extent kept call entry owner present zone fresh shared allocated pending =>
      apply base.of_acquired entry present (by rw [zone]; exact owner) zone ?_
        (fun absent => ⟨(fresh absent).1, (fresh absent).2.1⟩) ?_ pending
      · cases held : before.resv with
        | none =>
            rw [(fresh held).2.2]
            exact Nat.zero_le _
        | some resv =>
            rw [(shared resv held).2.2.2]
            exact ok.appendResv resv held
      · intro held heldEq
        obtain ⟨sameZone, refs, delay, _⟩ := shared held heldEq
        exact ⟨sameZone, refs, delay⟩
  | @dedup handle rest bytesFree call made holds owned entry resv allocated pending =>
      have member : handle ∈ before.pending := holds.mem_iff.mpr List.mem_cons_self
      obtain ⟨held, present, sameZone⟩ := base.held handle member
      have counted := base.counted held present
      have length := holds.length_eq
      apply CellBase.of_some (resv.trans present)
      · rw [entry]
        exact ok.append2
      · rw [entry]
        exact fun unowned => absurd unowned owned
      · exact ok.appendResv held present
      · rw [entry]
        exact ok.zone held present
      · exact (ok.refs held present).2
      · rw [pending]
        simpa [length] using counted
      · intro other otherMember
        rw [pending, List.mem_cons] at otherMember
        rcases otherMember with rfl | otherMember
        · exact sameZone
        · exact base.zone_eq present (holds.mem_iff.mpr (List.mem_cons_of_mem _ otherMember))

/-! ## The whole ledger -/

/-- What holds of every ledger, de-duplication or not. -/
structure Base (state : Ledger) : Prop where
  unavail : ∀ index, (state.hmp.layer1 index).physOffset = none →
    (state.hmp.layer1 index).blocksFree = 0
  next : ∀ zone, zoneBtreeIndex ≤ zone → zone < maxZones →
    ScanOk state.hmp zone (state.hmp.nextOffset zone)
  cells : ∀ block, CellBase (state.cell block)
  allocated : ∀ extent ∈ state.allocated, ExtentOk state.hmp extent
  pending : ∀ handle ∈ state.pending, ExtentOk state.hmp handle.extent

theorem ScanOk.touched {hmp hmp' : Mount} {block zone next : Nat} (touch : Touches hmp hmp' block)
    (ok : ScanOk hmp zone next) : ScanOk hmp' zone next := by
  refine ⟨ok.lower, ok.upper, ?_⟩
  rw [touch.phys]
  exact ok.avail

theorem ExtentOk.touched {hmp hmp' : Mount} {block : Nat} {extent : Extent}
    (touch : Touches hmp hmp' block) (ok : ExtentOk hmp extent) : ExtentOk hmp' extent := by
  refine ⟨ok.positive, ok.small, ok.zoneOk, ?_, ok.stop⟩
  rw [touch.phys]
  exact ok.avail

namespace Base

variable {state : Ledger}

theorem tables (base : Base state) : ScanTables state.hmp where
  unavail := base.unavail
  append2 block := (base.cells block).entryOk.append2
  appendResv block := (base.cells block).entryOk.appendResv

end Base

/-- Index of the last layer-1 entry; it is in use only if a volume reaches the
end of the address space of a zone. -/
def lastLayer1 : Nat := 262143

/-- `next` differs from `state` in one cell, and there by one call. -/
structure Change (op : Op) (state next : Ledger) (block : Nat) : Prop where
  touch : Touches state.hmp next.hmp block
  other : ∀ other, other ≠ block → next.cell other = state.cell other
  here : CellStep op (state.cell block) (next.cell block)
  offsets : next.hmp.nextOffset = state.hmp.nextOffset ∨
    ∃ zone offset, next.hmp.nextOffset = Function.update state.hmp.nextOffset zone offset ∧
      ScanOk state.hmp zone offset ∧
      ((state.hmp.layer1 lastLayer1).physOffset = none → zoneDecode offset = zone)
  allocated : ∀ extent ∈ next.allocated, ExtentOk state.hmp extent
  pending : ∀ handle ∈ next.pending, ExtentOk state.hmp handle.extent

/-- The extents named after a change are real. -/
theorem Change.sized {op : Op} {state next : Ledger} {block : Nat}
    (change : Change op state next block) (other : Nat) : (next.cell other).Sized where
  allocated extent member := by
    have ok := change.allocated extent (List.mem_of_mem_filter member)
    exact ⟨ok.stop, ok.zone_ne_zero, ok.size_pos⟩
  pending handle member := by
    have ok := change.pending handle (List.mem_of_mem_filter member)
    exact ⟨ok.stop, ok.zone_ne_zero, ok.size_pos⟩

/-- The bookkeeping of one cell has changed, and nothing else but counters. -/
theorem Base.of_touch {state next : Ledger} {block : Nat} (base : Base state)
    (touch : Touches state.hmp next.hmp block) (other : ∀ other, other ≠ block → next.cell other = state.cell other)
    (here : CellBase (next.cell block))
    (offsets : next.hmp.nextOffset = state.hmp.nextOffset ∨
      ∃ zone offset, next.hmp.nextOffset = Function.update state.hmp.nextOffset zone offset ∧
        ScanOk state.hmp zone offset)
    (allocated : ∀ extent ∈ next.allocated, ExtentOk state.hmp extent)
    (pending : ∀ handle ∈ next.pending, ExtentOk state.hmp handle.extent) : Base next where
  unavail index none := by
    have before := (touch.phys index).symm.trans none
    rw [touch.blocks index before]
    exact base.unavail index before
  next zone lower upper := by
    apply ScanOk.touched touch
    rcases offsets with same | ⟨moved, offset, same, ok⟩
    · rw [same]
      exact base.next zone lower upper
    · rw [same]
      by_cases here : zone = moved
      · subst here
        rw [Function.update_self]
        exact ok
      · rw [Function.update_of_ne here]
        exact base.next zone lower upper
  cells moved := by
    by_cases same : moved = block
    · rw [same]
      exact here
    · rw [other moved same]
      exact base.cells moved
  allocated extent member := (allocated extent member).touched touch
  pending handle member := (pending handle member).touched touch

/-- A change keeps the base invariant. -/
theorem Change.base {op : Op} {state next : Ledger} {block : Nat}
    (change : Change op state next block) (base : Base state) : Base next := by
  apply base.of_touch change.touch change.other (change.here.base (base.cells block) (change.sized block)) ?_
    change.allocated change.pending
  rcases change.offsets with same | ⟨zone, offset, same, ok, _⟩
  · exact .inl same
  · exact .inr ⟨zone, offset, same, ok⟩

end Dragonfly.Hammer
