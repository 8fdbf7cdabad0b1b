import Dragonfly.Hammer.Blockmap.Effect
import Dragonfly.Lib.Run
import Dragonfly.Lib.Span

/-!
# The blockmap and its users

The blockmap does not know which extents its callers hold.  The ledger does: it
carries the mount together with the extents recorded on the media and the
reservations handed out.  Every operation changes one cell, the view all parties
have of one big-block, and `CellStep` lists everything it can do there.
-/

namespace Dragonfly.Hammer

open Dragonfly.Lib

/-- Storage as its holder knows it: a zone offset and the requested length. -/
structure Extent where
  offset : Nat
  bytes : Nat
  deriving DecidableEq

namespace Extent

/-- The length the blockmap accounts for. -/
def size (extent : Extent) : Nat := roundBytes extent.bytes

def zone (extent : Extent) : Nat := zoneDecode extent.offset

def block (extent : Extent) : Nat := bigblock extent.offset

/-- First byte inside the big-block. -/
def start (extent : Extent) : Nat := blockOffset extent.offset

/-- One past the last byte inside the big-block. -/
def stop (extent : Extent) : Nat := extent.start + extent.size

/-- The bytes of the media behind the extent, whatever zone names them. -/
def span (extent : Extent) : Span := ⟨longOffset extent.offset, extent.size⟩

/-- The same bytes counted from the start of the big-block. -/
def localSpan (extent : Extent) : Span := ⟨extent.start, extent.size⟩

theorem span_lo (extent : Extent) :
    extent.span.lo = extent.block * largeblockSize + extent.start := by
  simp only [span, block, start, bigblock, blockOffset, longOffset, largeblockSize, zoneSpan]
  omega

end Extent

/-- A reservation held by a caller.  `finalized` turns true when its storage has
been recorded on the media, `dedup` marks one made for an existing extent. -/
structure Handle where
  extent : Extent
  finalized : Bool := false
  dedup : Bool := false
  deriving DecidableEq

/-- The mount, the extents recorded on the media and the reservations handed out. -/
structure Ledger where
  hmp : Mount
  allocated : List Extent
  pending : List Handle

/-- An extent is reserved until its reservation is finalized or dropped. -/
def Handle.reserves (handle : Handle) : Bool := !handle.finalized && !handle.dedup

/-- The extents of the reservations not yet finalized. -/
def reservedIn (pending : List Handle) : List Extent :=
  (pending.filter Handle.reserves).map Handle.extent

/-- Everything currently allocated or reserved. -/
def Ledger.live (state : Ledger) : List Extent := state.allocated ++ reservedIn state.pending

/-- A call into the blockmap. -/
inductive Op where
  | alloc (zone bytes hint fuel : Nat)
  | reserve (zone bytes fuel : Nat)
  | finalize (handle : Handle)
  | complete (handle : Handle) (delError : Bool)
  | free (extent : Extent)
  | clrdelay (block : Nat) (delError : Bool)
  | reserveDedup (zone bytes offset : Nat)
  | dedup (handle : Handle)
  deriving DecidableEq

namespace Op

/-- Zone and length asked for by the two calls that hand out storage. -/
def request : Op → Option (Nat × Nat)
  | alloc zone bytes _ _ => some (zone, bytes)
  | reserve zone bytes _ => some (zone, bytes)
  | _ => none

/-- The operations other than de-duplication. -/
def plain : Op → Bool
  | reserveDedup .. => false
  | dedup _ => false
  | _ => true

end Op

namespace Ledger

/-- Run one call and record what it did; the first component is the offset
handed out, if any. -/
def step (state : Ledger) : Op → Outcome (Option Nat × Ledger)
  | .alloc zone bytes hint fuel =>
      (blockmapAlloc fuel state.hmp zone bytes hint).bind fun
        | (none, hmp) => .done (none, { state with hmp })
        | (some offset, hmp) =>
            .done (some offset, { state with hmp, allocated := ⟨offset, bytes⟩ :: state.allocated })
  | .reserve zone bytes fuel =>
      (blockmapReserve fuel state.hmp zone bytes).bind fun
        | (none, hmp) => .done (none, { state with hmp })
        | (some offset, hmp) =>
            .done (some offset, { state with hmp, pending := { extent := ⟨offset, bytes⟩ } :: state.pending })
  | .finalize handle =>
      (blockmapFinalize state.hmp true handle.extent.offset handle.extent.bytes).bind fun hmp =>
        .done (none, { hmp
                       allocated := handle.extent :: state.allocated
                       pending := { handle with finalized := true } :: state.pending.erase handle })
  | .complete handle delError =>
      (blockmapReserveComplete state.hmp handle.extent.block delError).bind fun hmp =>
        .done (none, { state with hmp, pending := state.pending.erase handle })
  | .free extent =>
      (blockmapFree state.hmp extent.offset extent.bytes).bind fun hmp =>
        .done (none, { state with hmp, allocated := state.allocated.erase extent })
  | .clrdelay block delError =>
      (reserveClrdelay state.hmp block delError).bind fun hmp => .done (none, { state with hmp })
  | .reserveDedup zone bytes offset =>
      (blockmapReserveDedup state.hmp zone bytes offset).bind fun
        | (false, hmp) => .done (none, { state with hmp })
        | (true, hmp) =>
            .done (none, { state with
              hmp, pending := { extent := ⟨offset, bytes⟩, dedup := true } :: state.pending })
  | .dedup handle =>
      (blockmapDedup state.hmp handle.extent.offset handle.extent.bytes).bind fun
        | (false, hmp) => .done (none, { state with hmp })
        | (true, hmp) =>
            .done (none, { hmp
                           allocated := handle.extent :: state.allocated
                           pending := { handle with finalized := true } ::
                             state.pending.erase handle })

/-- What the callers keep to: sizes and zones in range, a hint names existing
media, and only what is held is finalized, completed or freed. -/
def Admissible (state : Ledger) : Op → Prop
  | .alloc zone bytes hint _ =>
      (0 < bytes ∧ bytes ≤ xbufsize) ∧ (zoneBtreeIndex ≤ zone ∧ zone < maxZones) ∧
        (hint ≠ 0 → zoneDecode hint = zone →
          (state.hmp.layer1 (layer1Index hint)).physOffset.isSome)
  | .reserve zone bytes _ =>
      (0 < bytes ∧ bytes ≤ xbufsize) ∧ (zoneBtreeIndex ≤ zone ∧ zone < maxZones)
  | .finalize handle => handle ∈ state.pending ∧ handle.reserves = true
  | .complete handle _ => handle ∈ state.pending
  | .free extent => extent ∈ state.allocated
  | .clrdelay block _ => ∃ resv, state.hmp.resv block = some resv ∧ resv.onDelay = true
  | .reserveDedup zone bytes offset =>
      zoneDecode offset = zone ∧ (Extent.mk offset bytes).stop ≤ largeblockSize
  | .dedup handle => handle ∈ state.pending ∧ handle.finalized = false ∧ handle.dedup = true

/-- Nobody asks for an empty extent. -/
theorem Admissible.bytes_pos {state : Ledger} {op : Op} {zone bytes : Nat}
    (admissible : state.Admissible op) (request : op.request = some (zone, bytes)) : 0 < bytes := by
  cases op with
  | alloc =>
      obtain ⟨rfl, rfl⟩ := Prod.mk.inj (Option.some.inj request)
      exact admissible.1.1
  | reserve =>
      obtain ⟨rfl, rfl⟩ := Prod.mk.inj (Option.some.inj request)
      exact admissible.1.1
  | _ => contradiction

/-- One admissible call that comes back. -/
def Move (state : Ledger) (op : Op) (next : Ledger) : Prop :=
  state.Admissible op ∧ ∃ offset, state.step op = .done (offset, next)

end Ledger

end Dragonfly.Hammer
