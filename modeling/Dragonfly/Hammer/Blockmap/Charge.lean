import Dragonfly.Hammer.Blockmap.Account
import Dragonfly.Hammer.Blockmap.Shield

/-!
# Charges for shared extents

Every reference to an extent is charged to its big-block, and `bytes_free` turns negative when
extents are shared.  The backend finalizes a reservation for de-duplication like any other one,
and `hammer_blockmap_dedup` shares an extent of the media.  Storage of its own is handed out once
before the big-block is reset, so that its charges stay within the size of a big-block; the
underflow test leaves room for them.
-/

namespace Dragonfly.Hammer

open Dragonfly.Lib

/-- A call of the blockmap: `finalizeDedup` finalizes a reservation for de-duplication, and `share`
is a call of `hammer_blockmap_dedup` for an extent of the media. -/
inductive Use where
  | op (op : Op)
  | finalizeDedup (handle : Handle)
  | share (extent : Extent)

/-- The underflow test that is made of layer 2 and of reservations. -/
def Layer2.underflows (entry : Layer2) : Prop :=
  entry.bytesFree < int32 (entry.bytesFree - largeblockSize * 2)

namespace Ledger

/-- Run one call and record what it did. -/
def use (state : Ledger) : Use → Outcome Ledger
  | .op op => (state.step op).bind fun (_, next) => .done next
  | .finalizeDedup handle =>
      (blockmapFinalize state.hmp true handle.extent.offset handle.extent.bytes).bind fun hmp =>
        .done { hmp
                allocated := handle.extent :: state.allocated
                pending := { handle with finalized := true } :: state.pending.erase handle }
  | .share extent =>
      (blockmapDedup state.hmp extent.offset extent.bytes).bind fun
        | (false, hmp) => .done { state with hmp }
        | (true, hmp) => .done { state with hmp, allocated := extent :: state.allocated }

/-- What the callers keep to. -/
def Uses (state : Ledger) : Use → Prop
  | .op op => (∀ handle, op ≠ .dedup handle) ∧ state.Admissible op
  | .finalizeDedup handle => handle ∈ state.pending ∧ handle.shares = true
  | .share extent => extent ∈ state.allocated

/-- A reservation for de-duplication is finalized where the underflow test would let it pass. -/
def Tested (state : Ledger) : Use → Prop
  | .finalizeDedup handle => ¬(state.hmp.layer2 handle.extent.block).underflows
  | _ => True

/-- `bytes_free` of every big-block that is free or owned by a zone of the allocator is what the
references leave, and fits its field. -/
def Charged (state : Ledger) : Prop :=
  ∀ block, (state.hmp.layer2 block).zone = 0 ∨
      (zoneBtreeIndex ≤ (state.hmp.layer2 block).zone ∧ (state.hmp.layer2 block).zone < zoneUnavailIndex) →
    (state.hmp.layer2 block).bytesFree =
        (largeblockSize : Int) - (totalSize (state.allocated.filter (·.block = block)) : Nat) ∧
      -2147483648 ≤ (largeblockSize : Int) - (totalSize (state.allocated.filter (·.block = block)) : Nat)

end Ledger

/-- One call that comes back. -/
def UseMove (state : Ledger) (use : Use) (next : Ledger) : Prop :=
  state.Uses use ∧ state.use use = .done next

/-- One call that comes back and meets the test. -/
def TestedMove (state : Ledger) (use : Use) (next : Ledger) : Prop :=
  state.Tested use ∧ UseMove state use next

/-! ## One big-block -/

/-- A reservation for de-duplication keeps no storage of its own. -/
theorem Handle.reserves_of_dedup {handle : Handle} (made : handle.dedup = true) : handle.reserves = false := by
  simp [Handle.reserves, made]

/-- Separate extents inside a big-block fit into it. -/
theorem totalSize_le_of_stop {extents : List Extent} (separate : Separate extents)
    (stop : ∀ extent ∈ extents, extent.stop ≤ largeblockSize) : totalSize extents ≤ largeblockSize := by
  have fits := @Span.sum_len_le _ 0 largeblockSize separate ?_
  · simpa [totalSize, Function.comp_def, Extent.localSpan] using fits
  · intro span member
    obtain ⟨extent, extentMember, rfl⟩ := List.mem_map.mp member
    refine ⟨Nat.zero_le _, ?_⟩
    rw [Nat.zero_add]
    exact stop extent extentMember

/-- The charges of a big-block: `own` are the extents charged since the last reset that were handed
out as storage of their own. -/
structure Cell.Charged (cell : Cell) : Prop where
  owned : ∀ extent ∈ cell.allocated, cell.entry.zone = extent.zone
  covered : ∀ handle ∈ cell.pending, handle.reserves = true →
    ∀ resv, cell.resv = some resv → handle.extent.stop ≤ resv.appendOff
  lower : 0 ≤ cell.entry.bytesFree + (totalSize cell.allocated : Nat)
  upper : cell.entry.bytesFree + (totalSize cell.allocated : Nat) ≤ (largeblockSize : Int)
  exact : cell.Exact
  own : ∃ own, Separate (own ++ reservedIn cell.pending) ∧
    (∀ extent ∈ own, extent.stop ≤ cell.entry.appendOff) ∧
      (largeblockSize : Int) - 2147483648 ≤ cell.entry.bytesFree + (totalSize own : Nat)

/-- A charge within the room that is left does not wrap. -/
theorem charge_fits {bytesFree : Int} {size own total : Nat}
    (margin : (largeblockSize : Int) - 2147483648 ≤ bytesFree + (own : Nat))
    (upper : bytesFree + (total : Nat) ≤ (largeblockSize : Int)) (fits : size + own ≤ largeblockSize) :
    int32 (bytesFree - (size : Nat)) = bytesFree - (size : Nat) := by
  simp only [largeblockSize] at *
  exact int32_of_range (by omega) (by omega)

/-- The underflow test leaves room for a big-block and more. -/
theorem not_underflows {entry : Layer2} (tested : ¬entry.underflows)
    (range : -2147483648 ≤ entry.bytesFree) (upper : entry.bytesFree ≤ (largeblockSize : Int)) :
    (largeblockSize : Int) * 2 - 2147483648 ≤ entry.bytesFree := by
  rw [Layer2.underflows, int32, Int.bmod_def] at tested
  simp only [largeblockSize] at *
  split_ifs at tested <;> omega

namespace Cell.Charged

variable {before after : Cell} {extent : Extent} {own : List Extent}

theorem bytesFree_ge (margin : (largeblockSize : Int) - 2147483648 ≤ before.entry.bytesFree + (totalSize own : Nat))
    (fits : totalSize own ≤ largeblockSize) : -2147483648 ≤ before.entry.bytesFree := by
  simp only [largeblockSize] at *
  omega

/-- One more reference has been charged without wrapping. -/
theorem record (charged : before.Charged) (base : CellBase before) (sized : after.Sized)
    (owner : before.entry.zone = 0 ∨ before.entry.zone = extent.zone)
    (zone : after.entry.zone = extent.zone)
    (bytesFree : after.entry.bytesFree = before.entry.bytesFree - (extent.size : Nat))
    (allocated : after.allocated = extent :: before.allocated) :
    (∀ other ∈ after.allocated, after.entry.zone = other.zone) ∧
      0 ≤ after.entry.bytesFree + (totalSize after.allocated : Nat) ∧
      after.entry.bytesFree + (totalSize after.allocated : Nat) ≤ (largeblockSize : Int) ∧ after.Exact := by
  have lower := charged.lower
  have upper := charged.upper
  refine ⟨?_, ?_, ?_, ?_⟩
  · intro other member
    have real := (sized.allocated other member).2.1
    rw [allocated] at member
    rcases List.mem_cons.mp member with rfl | member
    · exact zone
    · have same := charged.owned other member
      rw [zone]
      exact (owner.resolve_left fun unowned => real (same.symm.trans unowned)).symm.trans same
  · rw [allocated, totalSize_cons, bytesFree]
    push_cast
    omega
  · rw [allocated, totalSize_cons, bytesFree]
    push_cast
    omega
  · intro first last
    rw [zone] at first last
    have exactBefore : before.entry.bytesFree =
        (largeblockSize : Int) - (totalSize before.allocated : Nat) := by
      rcases owner with unowned | same
      · have full := (base.entryOk.free unowned).2
        omega
      · exact charged.exact (by rwa [same]) (by rwa [same])
    rw [allocated, totalSize_cons, bytesFree, exactBefore]
    push_cast
    omega

/-- Completing a reservation leaves the remaining holders covered. -/
theorem covered_of_completed {held : Reserve} (charged : before.Charged) (sized : after.Sized)
    (present : before.resv = some held) (delay : Bool)
    (completed : Completed { held with onDelay := delay } after.resv)
    (subset : ∀ handle ∈ after.pending, handle ∈ before.pending) :
    ∀ handle ∈ after.pending, handle.reserves = true →
      ∀ resv, after.resv = some resv → handle.extent.stop ≤ resv.appendOff := by
  intro handle member reserves resv keptEq
  obtain ⟨_, _, append, _⟩ := completed.kept resv keptEq
  dsimp only at append
  have covered := charged.covered handle (subset handle member) reserves held present
  have stop := (sized.pending handle member).1
  omega

/-- Storage of its own lies in front of what the search settles on. -/
theorem past (charged : before.Charged) (base : CellBase before) (room : before.Room extent)
    (stops : ∀ other ∈ own, other.stop ≤ before.entry.appendOff) :
    ∀ other ∈ own ++ reservedIn before.pending, other.stop ≤ extent.start := by
  intro other member
  rcases List.mem_append.mp member with recorded | reserved
  · exact (stops other recorded).trans room.append2
  · obtain ⟨handle, handleMember, fresh, plain, rfl⟩ := mem_reservedIn reserved
    obtain ⟨resv, present, _⟩ := base.held handle handleMember
    have reserves : handle.reserves = true := by simp [Handle.reserves, fresh, plain]
    exact (charged.covered handle handleMember reserves resv present).trans (room.resv resv present).2

/-- Nothing but counts of references that are given back. -/
theorem released {rest : List Extent} (charged : before.Charged) (base : CellBase before)
    (sized : ∀ other ∈ before.allocated, 0 < other.size) (holds : before.allocated.Perm (extent :: rest)) :
    int32 (before.entry.bytesFree + (extent.size : Nat)) = before.entry.bytesFree + (extent.size : Nat) ∧
      (before.entry.bytesFree + (extent.size : Nat) = (largeblockSize : Int) → rest = []) := by
  have total : totalSize before.allocated = extent.size + totalSize rest := by
    rw [totalSize_perm holds, totalSize_cons]
  have upper := charged.upper
  obtain ⟨own, separate, stops, margin⟩ := charged.own
  have fits := totalSize_le_of_stop (separate.sublist (List.sublist_append_left _ _))
    fun other member => (stops other member).trans base.entryOk.append2
  have low := bytesFree_ge margin fits
  rw [total] at upper
  push_cast at upper
  refine ⟨?_, ?_⟩
  · simp only [largeblockSize] at upper
    exact int32_of_range (by omega) (by omega)
  · intro full
    rw [List.eq_nil_iff_forall_not_mem]
    intro other member
    have positive := sized other (holds.mem_iff.mpr (List.mem_cons_of_mem _ member))
    have part := size_le_totalSize member
    omega

/-- A call that records nothing. -/
theorem kept (charged : before.Charged) (entry : after.entry = before.entry)
    (allocated : after.allocated = before.allocated)
    (covered : ∀ handle ∈ after.pending, handle.reserves = true →
      ∀ resv, after.resv = some resv → handle.extent.stop ≤ resv.appendOff)
    (own : ∃ own, Separate (own ++ reservedIn after.pending) ∧
      (∀ extent ∈ own, extent.stop ≤ before.entry.appendOff) ∧
        (largeblockSize : Int) - 2147483648 ≤ before.entry.bytesFree + (totalSize own : Nat)) :
    after.Charged := by
  refine ⟨?_, covered, ?_, ?_, ?_, ?_⟩
  · rw [allocated, entry]
    exact charged.owned
  · rw [allocated, entry]
    exact charged.lower
  · rw [allocated, entry]
    exact charged.upper
  · unfold Cell.Exact
    rw [allocated, entry]
    exact charged.exact
  · rw [entry]
    exact own

/-- Every call that is not one for an extent of the media keeps the charges of its cell. -/
theorem step {op : Op} (charged : before.Charged) (call : CellStep op before after)
    (notDedup : ∀ handle, op ≠ .dedup handle) (base : CellBase before) (sizedBefore : before.Sized)
    (sized : after.Sized) : after.Charged := by
  obtain ⟨own, separate, stops, margin⟩ := charged.own
  have fits := totalSize_le_of_stop (separate.sublist (List.sublist_append_left _ _))
    fun other member => (stops other member).trans base.entryOk.append2
  cases call with
  | @alloc extent request room entry noResv resv allocated pending =>
      have stop := (sized.allocated extent (by simp [allocated])).1
      have start := room.append2
      have stops' : ∀ other ∈ extent :: own, other.stop ≤ extent.stop := by
        intro other member
        rcases List.mem_cons.mp member with rfl | member
        · exact le_rfl
        · have before := stops other member
          simp only [Extent.stop] at *
          omega
      have separate' : Separate ((extent :: own) ++ reservedIn before.pending) :=
        separate.cons (charged.past base room stops)
      have fits' := totalSize_le_of_stop (separate'.sublist (List.sublist_append_left _ _))
        fun other member => (stops' other member).trans stop
      rw [totalSize_cons] at fits'
      have same := charge_fits margin charged.upper fits'
      obtain ⟨owned, lower, upper, exact'⟩ := charged.record base sized room.owner (by rw [entry])
        (by rw [entry]; exact same) allocated
      refine ⟨owned, ?_, lower, upper, exact', extent :: own, ?_, ?_, ?_⟩
      · intro handle member reserves kept keptEq
        have handleStop := (sized.pending handle member).1
        rw [pending] at member
        obtain ⟨held, present, _⟩ := base.held handle member
        obtain ⟨same, keptEq', _, _, _, append⟩ := resv held present
        obtain rfl : kept = same := Option.some.inj (keptEq.symm.trans keptEq')
        have covered := charged.covered handle member reserves held present
        have start := (room.resv held present).2
        simp only [Extent.stop] at *
        omega
      · rw [pending]
        exact separate'
      · rw [entry]
        exact stops'
      · rw [entry, totalSize_cons]
        simp only [same]
        push_cast
        omega
  | @reserve extent kept request room entry present zone append fresh shared allocated pending =>
      refine charged.kept entry allocated ?_ ⟨own, ?_, stops, margin⟩
      · intro handle member reserves resv resvEq
        obtain rfl : kept = resv := Option.some.inj (present.symm.trans resvEq)
        rw [append]
        rw [pending] at member
        rcases List.mem_cons.mp member with rfl | member
        · exact le_rfl
        · obtain ⟨held, heldEq, _⟩ := base.held handle member
          have covered := charged.covered handle member reserves held heldEq
          have start := (room.resv held heldEq).2
          simp only [Extent.stop] at *
          omega
      · have perm : (own ++ reservedIn after.pending).Perm (extent :: (own ++ reservedIn before.pending)) := by
          rw [pending]
          exact List.perm_middle
        rw [separate_perm perm]
        exact separate.cons (charged.past base room stops)
  | @finalize handle rest reserves holds entry resv allocated pending =>
      have member : handle ∈ before.pending := holds.mem_iff.mpr List.mem_cons_self
      obtain ⟨held, present, sameZone⟩ := base.held handle member
      have owner : before.entry.zone = 0 ∨ before.entry.zone = handle.extent.zone :=
        sameZone ▸ base.entryOk.zone held present
      have stop := (sized.allocated handle.extent (by simp [allocated])).1
      have perm : (own ++ reservedIn before.pending).Perm ((handle.extent :: own) ++ reservedIn after.pending) := by
        have split : reservedIn (handle :: rest) = handle.extent :: reservedIn rest := by
          simp [reservedIn, reserves]
        have moved : reservedIn ({ handle with finalized := true } :: rest) = reservedIn rest := by
          simp [reservedIn, Handle.reserves]
        rw [pending, moved]
        refine ((reservedIn_perm holds).append_left own).trans ?_
        rw [split]
        exact List.perm_middle
      have separate' := (separate_perm perm).mp separate
      have stops' : ∀ other ∈ handle.extent :: own, other.stop ≤ max before.entry.appendOff handle.extent.stop := by
        intro other otherMember
        rcases List.mem_cons.mp otherMember with rfl | otherMember
        · exact le_max_right _ _
        · exact (stops other otherMember).trans (le_max_left _ _)
      have fits' := totalSize_le_of_stop (separate'.sublist (List.sublist_append_left _ _))
        fun other otherMember => (stops' other otherMember).trans (max_le base.entryOk.append2 stop)
      rw [totalSize_cons] at fits'
      have same := charge_fits margin charged.upper fits'
      obtain ⟨owned, lower, upper, exact'⟩ := charged.record base sized owner (by rw [entry])
        (by rw [entry]; exact same) allocated
      refine ⟨owned, ?_, lower, upper, exact', handle.extent :: own, separate', ?_, ?_⟩
      · rw [pending]
        intro other otherMember otherReserves kept keptEq
        rw [resv, present] at keptEq
        obtain rfl : _ = kept := Option.some.inj keptEq
        rcases List.mem_cons.mp otherMember with rfl | otherMember
        · simp [Handle.reserves] at otherReserves
        · exact charged.covered other (holds.mem_iff.mpr (List.mem_cons_of_mem _ otherMember)) otherReserves
            held present
      · rw [entry]
        exact stops'
      · rw [entry, totalSize_cons]
        simp only [same]
        push_cast
        omega
  | @complete handle rest held holds present entry completed allocated pending =>
      have subset : ∀ other ∈ after.pending, other ∈ before.pending := by
        rw [pending]
        exact fun other member => holds.mem_iff.mpr (List.mem_cons_of_mem _ member)
      apply charged.kept entry allocated
        (charged.covered_of_completed sized present held.onDelay completed subset) ⟨own, ?_, stops, margin⟩
      rw [pending]
      exact ((separate_perm ((reservedIn_perm holds).append_left own)).mp separate).sublist
        ((reservedIn_sublist handle rest).append_left own)
  | @freeKeeps extent rest call holds zone owned notFull entry resv allocated pending =>
      have total : totalSize before.allocated = extent.size + totalSize rest := by
        rw [totalSize_perm holds, totalSize_cons]
      obtain ⟨same, -⟩ := charged.released base (fun other member => (sizedBefore.allocated other member).2.2) holds
      have lower := charged.lower
      have upper := charged.upper
      rw [total] at lower upper
      push_cast at lower upper
      refine ⟨?_, by rw [pending, resv]; exact charged.covered, ?_, ?_, ?_, own, by rw [pending]; exact separate, ?_, ?_⟩
      · rw [allocated, entry]
        exact fun other member => charged.owned other (holds.mem_iff.mpr (List.mem_cons_of_mem _ member))
      · rw [allocated, entry]
        simp only [same]
        omega
      · rw [allocated, entry]
        simp only [same]
        omega
      · intro first last
        rw [entry] at first last
        have exactBefore := charged.exact first last
        rw [allocated, entry]
        simp only [same]
        rw [exactBefore, total]
        push_cast
        omega
      · rw [entry]
        exact stops
      · rw [entry]
        simp only [same]
        omega
  | @freeResets extent rest kept call holds zone full entry present onDelay fresh shared
      allocated pending =>
      obtain ⟨same, empty⟩ := charged.released base (fun other member => (sizedBefore.allocated other member).2.2) holds
      rw [same] at full
      rw [empty full] at allocated
      refine ⟨by simp [allocated], ?_, ?_, ?_, ?_, [], ?_, by simp, ?_⟩
      · rw [pending]
        intro handle member reserves resv resvEq
        obtain rfl : kept = resv := Option.some.inj (present.symm.trans resvEq)
        obtain ⟨held, heldEq, _⟩ := base.held handle member
        rw [(shared held heldEq).2.2]
        exact charged.covered handle member reserves held heldEq
      · simp [allocated, entry, totalSize]
      · simp [allocated, entry, totalSize]
      · intro first
        rw [entry] at first
        exact absurd first (by decide)
      · rw [pending]
        exact separate.sublist (List.sublist_append_right _ _)
      · simp [entry, totalSize]
  | @clrdelay held present onDelay entry completed allocated pending =>
      apply charged.kept entry allocated
        (charged.covered_of_completed sized present false completed (by rw [pending]; exact fun _ member => member))
      rw [pending]
      exact ⟨own, separate, stops, margin⟩
  | @reserveDedup extent kept call entry owner present zone fresh shared allocated pending =>
      have unreserved : reservedIn after.pending = reservedIn before.pending := by
        rw [pending]
        simp [reservedIn, Handle.reserves]
      refine charged.kept entry allocated ?_ (by rw [unreserved]; exact ⟨own, separate, stops, margin⟩)
      intro handle member reserves resv resvEq
      obtain rfl : kept = resv := Option.some.inj (present.symm.trans resvEq)
      rw [pending] at member
      rcases List.mem_cons.mp member with rfl | member
      · simp [Handle.reserves] at reserves
      · obtain ⟨held, heldEq, _⟩ := base.held handle member
        rw [(shared held heldEq).2.2.2]
        exact charged.covered handle member reserves held heldEq
  | @dedup handle rest bytesFree call =>
      exact absurd call (notDedup handle)

/-- A reference has been charged that needs no storage of its own, after the underflow test. -/
theorem shared (charged : before.Charged) (base : CellBase before) (sized : after.Sized)
    (tested : ¬before.entry.underflows) (small : extent.size ≤ xbufsize)
    (owner : before.entry.zone = 0 ∨ before.entry.zone = extent.zone) (zone : after.entry.zone = extent.zone)
    (append : before.entry.appendOff ≤ after.entry.appendOff)
    (bytesFree : after.entry.bytesFree = int32 (before.entry.bytesFree - (extent.size : Nat)))
    (allocated : after.allocated = extent :: before.allocated)
    (reserved : (reservedIn after.pending).Perm (reservedIn before.pending))
    (covered : ∀ handle ∈ after.pending, handle.reserves = true →
      ∀ resv, after.resv = some resv → handle.extent.stop ≤ resv.appendOff) : after.Charged := by
  obtain ⟨own, separate, stops, margin⟩ := charged.own
  have fits := totalSize_le_of_stop (separate.sublist (List.sublist_append_left _ _))
    fun other member => (stops other member).trans base.entryOk.append2
  have upper := charged.upper
  have high : before.entry.bytesFree ≤ (largeblockSize : Int) := by omega
  have low := not_underflows tested (bytesFree_ge margin fits) high
  have same : int32 (before.entry.bytesFree - (extent.size : Nat)) =
      before.entry.bytesFree - (extent.size : Nat) := by
    simp only [largeblockSize, xbufsize] at *
    exact int32_of_range (by omega) (by omega)
  rw [same] at bytesFree
  obtain ⟨owned, lower, upper', exact'⟩ := charged.record base sized owner zone bytesFree allocated
  refine ⟨owned, covered, lower, upper', exact', own, ?_, ?_, ?_⟩
  · exact (separate_perm (reserved.append_left own)).mpr separate
  · exact fun other member => (stops other member).trans append
  · rw [bytesFree]
    simp only [largeblockSize, xbufsize] at *
    omega

end Cell.Charged

/-! ## Runs -/

/-- The invariant of the charges. -/
structure Metered (state : Ledger) : Prop where
  base : Base state
  cells : ∀ block, (state.cell block).Charged

theorem Base.sized {state : Ledger} (base : Base state) (block : Nat) : (state.cell block).Sized where
  allocated extent member := by
    have ok := base.allocated extent (List.mem_of_mem_filter member)
    exact ⟨ok.stop, ok.zone_ne_zero, ok.size_pos⟩
  pending handle member := by
    have ok := base.pending handle (List.mem_of_mem_filter member)
    exact ⟨ok.stop, ok.zone_ne_zero, ok.size_pos⟩

/-- `hammer_blockmap_dedup` makes the underflow test. -/
theorem blockmapDedup_tested {hmp hmp' : Mount} {zoneOffset bytes : Nat} (positive : 0 < bytes)
    (done : blockmapDedup hmp zoneOffset bytes = .done (true, hmp')) :
    ¬(hmp.layer2 (bigblock zoneOffset)).underflows := by
  unfold blockmapDedup at done
  rw [if_neg (Nat.ne_of_gt positive)] at done
  simp only [Outcome.kkassert_eq_done_iff] at done
  obtain ⟨_, _, _, _, _, result⟩ := done
  split at result
  · simp at result
  · assumption

namespace Metered

variable {state next : Ledger}

theorem op {op : Op} {block : Nat} (metered : Metered state) (notDedup : ∀ handle, op ≠ .dedup handle)
    (change : Change op state next block) : Metered next where
  base := change.base metered.base
  cells other := by
    by_cases here : other = block
    · subst here
      exact (metered.cells other).step change.here notDedup (metered.base.cells other)
        (metered.base.sized other) (change.sized other)
    · rw [change.other other here]
      exact metered.cells other

/-- One more reference has been recorded. -/
theorem recorded {hmp : Mount} {extent : Extent} {pending : List Handle} (metered : Metered state)
    (touch : Touches state.hmp hmp extent.block) (offsets : hmp.nextOffset = state.hmp.nextOffset)
    (ok : ExtentOk state.hmp extent) (handles : ∀ handle ∈ pending, ExtentOk state.hmp handle.extent)
    (elsewhere : ∀ other, other ≠ extent.block →
      pending.filter (·.extent.block = other) = state.pending.filter (·.extent.block = other))
    (base : CellBase ((Ledger.mk hmp (extent :: state.allocated) pending).cell extent.block))
    (charged : ((Ledger.mk hmp (extent :: state.allocated) pending).cell extent.block).Sized →
      ((Ledger.mk hmp (extent :: state.allocated) pending).cell extent.block).Charged) :
    Metered ⟨hmp, extent :: state.allocated, pending⟩ := by
  have apart : ∀ other, other ≠ extent.block →
      (Ledger.mk hmp (extent :: state.allocated) pending).cell other = state.cell other :=
    fun other different => Ledger.cell_other touch different (extents_cons_other different _) (elsewhere other different)
  have next : Base ⟨hmp, extent :: state.allocated, pending⟩ := by
    refine metered.base.of_touch touch apart base (.inl offsets) ?_ handles
    intro other member
    rcases List.mem_cons.mp member with rfl | member
    · exact ok
    · exact metered.base.allocated other member
  refine ⟨next, fun other => ?_⟩
  by_cases here : other = extent.block
  · rw [here]
    exact charged (next.sized _)
  · rw [apart other here]
    exact metered.cells other

/-- The backend finalizes a reservation for de-duplication after the underflow test. -/
theorem finalizeDedup {handle : Handle} (metered : Metered state) (member : handle ∈ state.pending)
    (shares : handle.shares = true) (tested : ¬(state.hmp.layer2 handle.extent.block).underflows)
    (done : state.use (.finalizeDedup handle) = .done next) : Metered next := by
  have ok := metered.base.pending handle member
  have before := metered.base.cells handle.extent.block
  have charged := metered.cells handle.extent.block
  obtain ⟨hmp, call, touch, layer2, resvEq, offsets⟩ := metered.base.finalize_call member
  simp only [Ledger.use, call, Outcome.bind, Outcome.done.injEq] at done
  subst done
  have holds : (state.cell handle.extent.block).pending.Perm
      (handle :: (state.pending.erase handle).filter (·.extent.block = handle.extent.block)) :=
    perm_filter_erase member (by simp)
  have inCell : handle ∈ (state.cell handle.extent.block).pending := holds.mem_iff.mpr List.mem_cons_self
  obtain ⟨held, present, sameZone⟩ := before.held handle inCell
  have owner := sameZone ▸ before.entryOk.zone held present
  have made : handle.dedup = true := (Bool.and_eq_true_iff.mp shares).1
  have here := handles_cons_here { handle with finalized := true } (state.pending.erase handle)
  apply metered.recorded touch offsets ok
  · intro other otherMember
    rcases List.mem_cons.mp otherMember with rfl | otherMember
    · exact ok
    · exact metered.base.pending other (List.mem_of_mem_erase otherMember)
  · intro other different
    refine (handles_cons_other { handle with finalized := true } different _).trans ?_
    exact filter_erase_of_neg (by simpa using different.symm)
  · apply before.of_finalized holds ok.stop ok.zone_ne_zero
    · rw [Ledger.cell, layer2]
    · rw [Ledger.cell, layer2]
      rfl
    · exact resvEq
    · exact here
  · intro sized
    apply charged.shared before sized tested ok.small owner
    · rw [Ledger.cell, layer2]
    · show _ ≤ (hmp.layer2 handle.extent.block).appendOff
      rw [layer2]
      exact le_max_left _ _
    · rw [Ledger.cell, layer2]
      rfl
    · exact extents_cons_here _ _
    · refine List.Perm.trans ?_ (reservedIn_perm holds).symm
      rw [Ledger.cell, here]
      simp [reservedIn, Handle.reserves_of_dedup, made]
    · intro other otherMember reserves kept keptEq
      rw [Ledger.cell, here] at otherMember
      have keptHere : hmp.resv handle.extent.block = some kept := keptEq
      have presentHere : state.hmp.resv handle.extent.block = some held := present
      rw [resvEq, presentHere] at keptHere
      obtain rfl : _ = kept := Option.some.inj keptHere
      rcases List.mem_cons.mp otherMember with rfl | otherMember
      · simp [Handle.reserves] at reserves
      · exact charged.covered other (holds.mem_iff.mpr (List.mem_cons_of_mem _ otherMember)) reserves held present

/-- `hammer_blockmap_dedup` charges one more reference to an extent of the media. -/
theorem share {extent : Extent} (metered : Metered state) (member : extent ∈ state.allocated)
    (done : state.use (.share extent) = .done next) : Metered next := by
  have ok := metered.base.allocated extent member
  have before := metered.base.cells extent.block
  have charged := metered.cells extent.block
  simp only [Ledger.use, Outcome.bind_eq_done_iff] at done
  obtain ⟨⟨success, hmp⟩, call, recorded⟩ := done
  rcases blockmapDedup_done ok.positive call with ⟨rfl, rfl⟩ | ⟨rfl, zone, _, rfl⟩
  · obtain rfl : state = next := by simpa using recorded
    exact metered
  · obtain rfl := Outcome.done.inj recorded
    have tested := blockmapDedup_tested ok.positive call
    have layer2 := Mount.setLayer2_layer2 state.hmp extent.block
      { state.hmp.layer2 extent.block with
        bytesFree := int32 ((state.hmp.layer2 extent.block).bytesFree - (extent.size : Nat)) }
    apply metered.recorded (.setLayer2 _ _ _) rfl ok metered.base.pending (fun _ _ => rfl)
    · exact before.of_counted (fun unowned => ok.zone_ne_zero (zone.symm.trans unowned)) layer2 rfl rfl
    · intro sized
      apply charged.shared before sized tested ok.small (.inr zone)
      · exact (congrArg Layer2.zone layer2).trans zone
      · exact (congrArg Layer2.appendOff layer2).ge
      · exact congrArg Layer2.bytesFree layer2
      · exact extents_cons_here _ _
      · exact .refl _
      · exact charged.covered

/-- Every call that meets the test keeps the charges. -/
theorem move {use : Use} (metered : Metered state) (move : TestedMove state use next) : Metered next := by
  obtain ⟨tested, uses, done⟩ := move
  cases use with
  | op op =>
      obtain ⟨notDedup, admissible⟩ := uses
      simp only [Ledger.use, Outcome.bind_eq_done_iff] at done
      obtain ⟨⟨offset, after⟩, step, same⟩ := done
      obtain rfl := Outcome.done.inj same
      cases step_outcomes metered.base admissible step with
      | idle => exact metered
      | quiet change => exact metered.op notDedup change
      | served change _ => exact metered.op notDedup change
  | finalizeDedup handle => exact metered.finalizeDedup uses.1 uses.2 tested done
  | share extent => exact metered.share uses done

theorem charged (metered : Metered state) : state.Charged := by
  intro block owned
  have charged := metered.cells block
  have entryOk := (metered.base.cells block).entryOk
  have lower := charged.lower
  have upper := charged.upper
  have exact : (state.cell block).entry.bytesFree =
      (largeblockSize : Int) - (totalSize (state.cell block).allocated : Nat) := by
    rcases owned with unowned | owned
    · have full := (entryOk.free unowned).2
      omega
    · exact charged.exact owned.1 owned.2
  obtain ⟨own, separate, stops, margin⟩ := charged.own
  have fits := totalSize_le_of_stop (separate.sublist (List.sublist_append_left _ _))
    fun other member => (stops other member).trans entryOk.append2
  have low := Cell.Charged.bytesFree_ge margin fits
  exact ⟨exact, exact ▸ low⟩

end Metered

/-- The first buffer of zone 10. -/
def firstBuffer : Extent := ⟨zoneEncode 10 0, 65536⟩

/-- A reservation for sharing it. -/
def firstShare : Handle := { extent := firstBuffer, dedup := true }

/-- The first big-block belongs to zone 10, `recorded` references to its first buffer are charged
and `reserved` reservations for sharing it are pending. -/
structure Loaded (state : Ledger) (recorded reserved : Nat) : Prop where
  phys : (state.hmp.layer1 0).physOffset.isSome
  zone : (state.hmp.layer2 0).zone = 10
  member : firstBuffer ∈ state.allocated
  total : totalSize (state.allocated.filter (·.block = 0)) = 65536 * recorded
  pending : state.pending.count firstShare = reserved

/-- The counts that the two tests read. -/
structure Counting (state : Ledger) (recorded reserved : Nat) : Prop extends Loaded state recorded reserved where
  bytesFree : (state.hmp.layer2 0).bytesFree = (largeblockSize : Int) - (65536 * recorded : Nat)
  resv : ∃ resv, state.hmp.resv 0 = some resv ∧ resv.zone = 10 ∧ resv.bytesFree = -(65536 * reserved : Nat)

theorem totalSize_firstBuffer (extents : List Extent) :
    totalSize ((firstBuffer :: extents).filter (·.block = 0)) =
      65536 + totalSize (extents.filter (·.block = 0)) := by
  rw [List.filter_cons_of_pos (by decide), totalSize_cons]
  rfl

/-- The underflow test passes above two big-blocks from the end of the range. -/
theorem passes {bytesFree : Int} (lower : -2130706432 ≤ bytesFree) (upper : bytesFree ≤ (largeblockSize : Int)) :
    ¬int32 (bytesFree - largeblockSize * 2) > bytesFree := by
  simp only [largeblockSize] at *
  rw [int32_of_range (by omega) (by omega)]
  omega

namespace Counting

variable {state : Ledger} {recorded reserved : Nat}

/-- `hammer_blockmap_dedup` succeeds while its test passes. -/
theorem share (counting : Counting state recorded reserved) (few : recorded ≤ 32640) :
    ∃ next, UseMove state (.share firstBuffer) next ∧ Counting next (recorded + 1) reserved := by
  obtain ⟨⟨phys, zone, member, total, pending⟩, bytesFree, resv⟩ := counting
  have tested : ¬int32 ((state.hmp.layer2 0).bytesFree - largeblockSize * 2) > (state.hmp.layer2 0).bytesFree :=
    passes (by rw [bytesFree]; simp only [largeblockSize]; omega) (by rw [bytesFree]; omega)
  have charged : int32 ((state.hmp.layer2 0).bytesFree - (65536 : Nat)) =
      (largeblockSize : Int) - (65536 * (recorded + 1) : Nat) := by
    rw [bytesFree]
    simp only [largeblockSize]
    rw [int32_of_range (by omega) (by omega)]
    omega
  have call : blockmapDedup state.hmp firstBuffer.offset firstBuffer.bytes =
      .done (true, state.hmp.setLayer2 0 { state.hmp.layer2 0 with
        bytesFree := (largeblockSize : Int) - (65536 * (recorded + 1) : Nat) }) := by
    have block : bigblock firstBuffer.offset = 0 := by decide
    have layer1 : layer1Index firstBuffer.offset = 0 := by decide
    have zoneEq : zoneDecode firstBuffer.offset = 10 := by decide
    have bytes : roundBytes firstBuffer.bytes = 65536 := by decide
    unfold blockmapDedup
    rw [if_neg (by decide)]
    simp only [block, layer1, zoneEq, bytes, zone, phys, charged, if_neg tested]
    simp [Outcome.kkassert, largeblockSize, zoneBtreeIndex, maxZones, firstBuffer, zoneEncode, zoneSpan]
    omega
  have done : state.use (.share firstBuffer) = .done
      { state with
        hmp := state.hmp.setLayer2 0 { state.hmp.layer2 0 with
          bytesFree := (largeblockSize : Int) - (65536 * (recorded + 1) : Nat) }
        allocated := firstBuffer :: state.allocated } := by
    simp only [Ledger.use, call, Outcome.bind]
  refine ⟨_, ⟨member, done⟩, ⟨phys, ?_, ?_, ?_, pending⟩, ?_, resv⟩
  · simp only [Mount.setLayer2_layer2]
    exact zone
  · exact List.mem_cons_of_mem _ member
  · rw [totalSize_firstBuffer, total]
    omega
  · simp only [Mount.setLayer2_layer2]

/-- `hammer_blockmap_reserve_dedup` succeeds while its test of the reservation passes. -/
theorem reserveDedup (counting : Counting state recorded reserved) (few : reserved ≤ 32512) :
    ∃ next, UseMove state (.op (.reserveDedup 10 65536 firstBuffer.offset)) next ∧
      Counting next recorded (reserved + 1) := by
  obtain ⟨⟨phys, zone, member, total, pending⟩, bytesFree, resv, present, sameZone, reservedBytes⟩ := counting
  have tested : ¬int32 (resv.bytesFree - largeblockSize * 2) > resv.bytesFree :=
    passes (by omega) (by rw [reservedBytes]; simp only [largeblockSize]; omega)
  have charged : int32 (resv.bytesFree - (65536 : Nat)) = -(65536 * (reserved + 1) : Nat) := by
    rw [int32_of_range (by omega) (by omega)]
    omega
  have call : blockmapReserveDedup state.hmp 10 65536 firstBuffer.offset =
      .done (true, state.hmp.setResv 0 (some { resv with
        refs := resv.refs + 1, bytesFree := -(65536 * (reserved + 1) : Nat) })) := by
    have block : bigblock firstBuffer.offset = 0 := by decide
    have layer1 : layer1Index firstBuffer.offset = 0 := by decide
    have bytes : roundBytes 65536 = 65536 := by decide
    unfold blockmapReserveDedup
    simp only [block, layer1, bytes, zone, phys, present, sameZone, updateBytesFree, charged, if_neg tested]
    simp [Outcome.kkassert, xbufsize, zoneBtreeIndex, maxZones]
  have done : state.use (.op (.reserveDedup 10 65536 firstBuffer.offset)) = .done
      { state with
        hmp := state.hmp.setResv 0 (some { resv with
          refs := resv.refs + 1, bytesFree := -(65536 * (reserved + 1) : Nat) })
        pending := firstShare :: state.pending } := by
    simp only [Ledger.use, Ledger.step, call, Outcome.bind]
    rfl
  refine ⟨_, ⟨⟨by simp, by decide, by decide⟩, done⟩, ⟨phys, ?_, member, total, ?_⟩, ?_, ?_⟩
  · simp only [Mount.setResv_layer2]
    exact zone
  · exact (List.count_cons_self ..).trans (congrArg (· + 1) pending)
  · simp only [Mount.setResv_layer2]
    exact bytesFree
  · exact ⟨_, Mount.setResv_resv _ _ _, sameZone, rfl⟩

end Counting

namespace Loaded

variable {state : Ledger} {recorded reserved : Nat}

/-- The finalization is not tested. -/
theorem finalizeDedup (loaded : Loaded state recorded (reserved + 1)) :
    ∃ next, UseMove state (.finalizeDedup firstShare) next ∧ Loaded next (recorded + 1) reserved := by
  obtain ⟨phys, zone, member, total, pending⟩ := loaded
  have holds : firstShare ∈ state.pending := by
    rw [← List.count_pos_iff, pending]
    exact Nat.succ_pos _
  have block : bigblock firstBuffer.offset = 0 := by decide
  obtain ⟨hmp, call, touch, layer2, -⟩ := @blockmapFinalize_spec state.hmp firstBuffer.offset firstBuffer.bytes
    (by decide) (by decide) (by decide) phys
    (by rw [block, zone]; exact fun unowned => absurd unowned (by decide))
    (.inr (by rw [block, zone]; decide))
  have done : state.use (.finalizeDedup firstShare) = .done
      { hmp
        allocated := firstBuffer :: state.allocated
        pending := { firstShare with finalized := true } :: state.pending.erase firstShare } := by
    simp only [Ledger.use, firstShare, call, Outcome.bind]
  refine ⟨_, ⟨⟨holds, rfl⟩, done⟩, ?_, ?_, List.mem_cons_of_mem _ member, ?_, ?_⟩
  · rw [touch.phys]
    exact phys
  · rw [block] at layer2
    rw [layer2]
    show zoneDecode firstBuffer.offset = 10
    decide
  · rw [totalSize_firstBuffer, total]
    omega
  · rw [List.count_cons_of_ne (by decide), List.count_erase_self, pending]
    rfl

end Loaded

end Dragonfly.Hammer
