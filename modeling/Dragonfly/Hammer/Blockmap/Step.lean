import Dragonfly.Hammer.Blockmap.Cell

/-!
# Every call is a change of one cell

From a ledger that satisfies the base invariant, an admissible call that comes
back either left everything alone or made one `Change`.
-/

namespace Dragonfly.Hammer

open Dragonfly.Lib

section Filter

variable {α : Type} [DecidableEq α] {keep : α → Bool} {list : List α} {item : α}

theorem filter_erase_of_neg (drop : ¬ keep item = true) :
    (list.erase item).filter keep = list.filter keep := by
  rw [← List.erase_filter]
  apply List.erase_of_not_mem
  rw [List.mem_filter]
  exact fun member => drop member.2

theorem perm_filter_erase (member : item ∈ list) (holds : keep item = true) :
    (list.filter keep).Perm (item :: (list.erase item).filter keep) := by
  have perm := (List.perm_cons_erase member).filter keep
  rwa [List.filter_cons_of_pos holds] at perm

end Filter

theorem extents_cons_here (extent : Extent) (list : List Extent) :
    (extent :: list).filter (·.block = extent.block) =
      extent :: list.filter (·.block = extent.block) :=
  List.filter_cons_of_pos (by simp)

theorem extents_cons_other {extent : Extent} {other : Nat} (different : other ≠ extent.block)
    (list : List Extent) :
    (extent :: list).filter (·.block = other) = list.filter (·.block = other) :=
  List.filter_cons_of_neg (by simpa using different.symm)

theorem handles_cons_here (handle : Handle) (list : List Handle) :
    (handle :: list).filter (·.extent.block = handle.extent.block) =
      handle :: list.filter (·.extent.block = handle.extent.block) :=
  List.filter_cons_of_pos (by simp)

theorem handles_cons_other (handle : Handle) {other : Nat}
    (different : other ≠ handle.extent.block) (list : List Handle) :
    (handle :: list).filter (·.extent.block = other) = list.filter (·.extent.block = other) :=
  List.filter_cons_of_neg (by simpa using different.symm)

/-- Cells of other big-blocks, once the lists agree there. -/
theorem Ledger.cell_other {state next : Ledger} {block other : Nat}
    (touch : Touches state.hmp next.hmp block) (different : other ≠ block)
    (allocated : next.allocated.filter (·.block = other) =
      state.allocated.filter (·.block = other))
    (pending : next.pending.filter (·.extent.block = other) =
      state.pending.filter (·.extent.block = other)) :
    next.cell other = state.cell other := by
  simp only [Ledger.cell, touch.layer2 other different, touch.resv other different, allocated,
    pending]

/-! ## Allocation and reservation -/

/-- A hint that names existing media is a good place to start. -/
theorem scanOk_hint {hmp : Mount} {zone hint : Nat}
    (inZone : zoneDecode hint = zone) (avail : (hmp.layer1 (layer1Index hint)).physOffset.isSome) :
    ScanOk hmp zone ((hint + 15) / 16 * 16) := by
  obtain ⟨edge, first, last⟩ := zone_edges zone
  have bounds : edge * 4398046511104 ≤ hint ∧ hint < (edge + 262144) * 4398046511104 := by
    simp only [zoneDecode, zoneEncode, zoneSpan] at *
    omega
  refine ⟨by omega, by omega, ?_⟩
  intro nonzero
  have sameLayer : layer1Index ((hint + 15) / 16 * 16) = layer1Index hint := by
    simp only [blockOffset, largeblockSize, layer1Index, longOffset, zoneSpan,
      blockmapLayer2] at nonzero ⊢
    omega
  rw [sameLayer]
  exact avail

namespace Placeable

variable {hmp : Mount} {zone bytes next : Nat}

/-- A placed extent stays inside its big-block. -/
theorem stop_le (place : Placeable hmp zone bytes next) (positive : 0 < bytes) :
    blockOffset next + bytes ≤ largeblockSize := by
  have fits := place.fits
  simp only [blockOffset, largeblockSize]
  by_cases buffered : bytes ≤ 16384
  · rw [boundary_of_le buffered] at fits
    omega
  · rw [boundary_of_lt (by omega)] at fits
    omega

/-- The end of a placed extent is an acceptable append point. -/
theorem scanOk_end (place : Placeable hmp zone bytes next) (positive : 0 < bytes) :
    ScanOk hmp zone (next + bytes) := by
  obtain ⟨edge, first, last⟩ := zone_edges zone
  have stop := place.stop_le positive
  have bounds : edge * 4398046511104 ≤ next ∧ next < (edge + 262144) * 4398046511104 := by
    have inZone := place.inZone
    simp only [zoneDecode, zoneEncode, zoneSpan] at *
    omega
  simp only [blockOffset, largeblockSize] at stop
  refine ⟨by omega, by omega, ?_⟩
  intro nonzero
  have sameLayer : layer1Index (next + bytes) = layer1Index next := by
    simp only [blockOffset, largeblockSize, layer1Index, longOffset, zoneSpan,
      blockmapLayer2] at nonzero ⊢
    omega
  rw [sameLayer]
  exact place.avail

/-- Only an extent of the last layer-1 entry can end where the zone ends. -/
theorem inZone_end (place : Placeable hmp zone bytes next) (positive : 0 < bytes)
    (top : (hmp.layer1 lastLayer1).physOffset = none) : zoneDecode (next + bytes) = zone := by
  obtain ⟨edge, first, last⟩ := zone_edges zone
  have stop := place.stop_le positive
  have bounds : edge * 4398046511104 ≤ next ∧ next < (edge + 262144) * 4398046511104 := by
    have inZone := place.inZone
    simp only [zoneDecode, zoneEncode, zoneSpan] at *
    omega
  have inner : next < (edge + 262143) * 4398046511104 := by
    by_contra outer
    have same : layer1Index next = lastLayer1 := by
      simp only [zoneEncode, layer1Index, longOffset, zoneSpan, blockmapLayer2,
        lastLayer1] at first ⊢
      omega
    have avail := place.avail
    rw [same, top] at avail
    contradiction
  simp only [blockOffset, largeblockSize, zoneDecode, zoneEncode, zoneSpan] at *
  omega

end Placeable

/-- What `hammer_blockmap_alloc` needs to find in the mount. -/
structure AllocReady (hmp : Mount) (zone hint : Nat) : Prop where
  tables : ScanTables hmp
  entries : ∀ block, EntryOk (hmp.layer2 block) (hmp.resv block)
  next : ScanOk hmp zone (hmp.nextOffset zone)
  hinted : hint ≠ 0 → zoneDecode hint = zone →
    (hmp.layer1 (layer1Index hint)).physOffset.isSome

/-- The search of `hammer_blockmap_alloc` cannot panic and settles on a free place. -/
theorem AllocReady.search {hmp : Mount} {zone bytes hint : Nat} (ready : AllocReady hmp zone hint)
    (fuel : Nat) (positive : 0 < bytes) (small : bytes ≤ xbufsize) :
    let start : ScanState :=
      if hint ≠ 0 ∧ zoneDecode hint = zone then
        { nextOffset := (hint + 15) / 16 * 16, useHint := true, loops := 0 }
      else { nextOffset := hmp.nextOffset zone, useHint := false, loops := 0 }
    scan hmp zone bytes hint hmp.volumeToRemove fuel start ≠ .panic ∧
      ∀ final, scan hmp zone bytes hint hmp.volumeToRemove fuel start = .done (some final) →
        Placeable hmp zone bytes final.nextOffset := by
  apply scan_spec hint hmp.volumeToRemove ready.tables ready.next positive small
  split
  · rename_i hinted
    exact scanOk_hint hinted.2 (ready.hinted hinted.1 hinted.2)
  · exact ready.next

theorem blockmapAlloc_done {fuel : Nat} {hmp hmp' : Mount} {zone bytes hint : Nat}
    {result : Option Nat} (ready : AllocReady hmp zone hint)
    (done : blockmapAlloc fuel hmp zone bytes hint = .done (result, hmp')) :
    (result = none ∧ hmp' = hmp) ∨
      ∃ final : ScanState, result = some final.nextOffset ∧
        Placeable hmp zone (roundBytes bytes) final.nextOffset ∧
        AllocEffect hmp hmp' zone (roundBytes bytes) final := by
  unfold blockmapAlloc at done
  simp only [Outcome.kkassert_eq_done_iff, decide_eq_true_eq, Outcome.bind_eq_done_iff] at done
  obtain ⟨⟨positive, small⟩, _, _, found, searched, outcome⟩ := done
  cases found with
  | none =>
      simp only [Outcome.done.injEq, Prod.mk.injEq] at outcome
      exact .inl ⟨outcome.1.symm, outcome.2.symm⟩
  | some final =>
      have place := (ready.search fuel positive small).2 final searched
      obtain ⟨committed, commit, effect⟩ := allocCommit_spec place (ready.entries _)
      simp only [commit, Outcome.bind, Outcome.done.injEq, Prod.mk.injEq] at outcome
      obtain ⟨rfl, rfl⟩ := outcome
      exact .inr ⟨final, rfl, place, effect⟩

theorem blockmapReserve_done {fuel : Nat} {hmp hmp' : Mount} {zone bytes : Nat}
    {result : Option Nat} (tables : ScanTables hmp) (start : ScanOk hmp zone (hmp.nextOffset zone))
    (done : blockmapReserve fuel hmp zone bytes = .done (result, hmp')) :
    (result = none ∧ hmp' = hmp) ∨
      ∃ next, result = some next ∧ Placeable hmp zone (roundBytes bytes) next ∧
        ReserveEffect hmp hmp' zone (roundBytes bytes) next := by
  unfold blockmapReserve at done
  simp only [Outcome.kkassert_eq_done_iff, decide_eq_true_eq, Outcome.bind_eq_done_iff] at done
  obtain ⟨_, _, ⟨positive, small⟩, found, searched, outcome⟩ := done
  cases found with
  | none =>
      simp only [Outcome.done.injEq, Prod.mk.injEq] at outcome
      exact .inl ⟨outcome.1.symm, outcome.2.symm⟩
  | some final =>
      have place := (scan_spec 0 none tables start positive small fuel start).2 final searched
      simp only [Outcome.done.injEq, Prod.mk.injEq] at outcome
      obtain ⟨rfl, rfl⟩ := outcome
      exact .inr ⟨final.nextOffset, rfl, place, reserveCommit_spec _ _ _ _⟩

/-- What a caller can rely on when an offset is handed out. -/
structure Served (state : Ledger) (op : Op) (offset : Nat) (next : Ledger) : Prop where
  request : ∃ zone bytes, op.request = some (zone, bytes) ∧
    Placeable state.hmp zone (roundBytes bytes) offset ∧
    ((next.hmp.layer2 (bigblock offset)).zone = zone ∨
      ∃ resv, next.hmp.resv (bigblock offset) = some resv ∧ resv.zone = zone)

/-- What a finished call did. -/
inductive Outcomes (state : Ledger) (op : Op) : Option Nat → Ledger → Prop where
  | idle : Outcomes state op none state
  | quiet {next : Ledger} {block : Nat} (change : Change op state next block) :
      Outcomes state op none next
  | served {next : Ledger} {offset : Nat} (change : Change op state next (bigblock offset))
      (served : Served state op offset next) : Outcomes state op (some offset) next

section Calls

variable {state next : Ledger} {result : Option Nat}

theorem Base.allocReady (base : Base state) {zone bytes hint fuel : Nat}
    (admissible : state.Admissible (.alloc zone bytes hint fuel)) :
    AllocReady state.hmp zone hint where
  tables := base.tables
  entries block := (base.cells block).entryOk
  next := base.next zone admissible.2.1.1 admissible.2.1.2
  hinted := admissible.2.2

theorem roundBytes_le {bytes : Nat} (small : bytes ≤ xbufsize) : roundBytes bytes ≤ xbufsize := by
  simp only [roundBytes, xbufsize] at *
  omega

/-- What the search settles on is an extent a caller can hold. -/
theorem Placeable.extentOk {zone bytes offset : Nat}
    (place : Placeable state.hmp zone (roundBytes bytes) offset) (positive : 0 < bytes)
    (small : bytes ≤ xbufsize) (zoneOk : zoneBtreeIndex ≤ zone ∧ zone < maxZones) :
    ExtentOk state.hmp ⟨offset, bytes⟩ := by
  have inZone : (Extent.mk offset bytes).zone = zone := place.inZone
  exact ⟨positive, roundBytes_le small, by rwa [inZone], place.avail,
    place.stop_le (roundBytes_pos positive)⟩

theorem Placeable.room {zone bytes offset : Nat}
    (place : Placeable state.hmp zone (roundBytes bytes) offset) :
    (state.cell (bigblock offset)).Room ⟨offset, bytes⟩ := by
  have inZone : (Extent.mk offset bytes).zone = zone := place.inZone
  constructor
  · rw [inZone]
    exact place.owner
  · exact place.append2
  · rw [inZone]
    exact place.resv

theorem alloc_outcomes (base : Base state) {zone bytes hint fuel : Nat}
    (admissible : state.Admissible (.alloc zone bytes hint fuel))
    (done : state.step (.alloc zone bytes hint fuel) = .done (result, next)) :
    Outcomes state (.alloc zone bytes hint fuel) result next := by
  simp only [Ledger.step, Outcome.bind_eq_done_iff] at done
  obtain ⟨⟨returned, hmp⟩, call, recorded⟩ := done
  rcases blockmapAlloc_done (base.allocReady admissible) call with
    ⟨rfl, rfl⟩ | ⟨final, rfl, place, effect⟩
  · simp only [Outcome.done.injEq, Prod.mk.injEq] at recorded
    obtain ⟨rfl, rfl⟩ := recorded
    exact .idle
  · simp only [Outcome.done.injEq, Prod.mk.injEq] at recorded
    obtain ⟨rfl, rfl⟩ := recorded
    obtain ⟨⟨positive, small⟩, zoneOk, _⟩ := admissible
    have inZone : (Extent.mk final.nextOffset bytes).zone = zone := place.inZone
    apply Outcomes.served
    · constructor
      · exact effect.touch
      · intro other different
        refine Ledger.cell_other effect.touch different ?_ rfl
        exact extents_cons_other different state.allocated
      · apply @CellStep.alloc _ _ _ ⟨final.nextOffset, bytes⟩
        · rw [inZone]
          rfl
        · exact place.room
        · rw [inZone]
          exact effect.layer2
        · exact effect.noResv
        · exact effect.resv
        · exact extents_cons_here ⟨final.nextOffset, bytes⟩ state.allocated
        · rfl
      · cases hint : final.useHint with
        | true => exact .inl (by simp [effect.next, hint])
        | false =>
            refine .inr ⟨zone, _, ?_, place.scanOk_end (roundBytes_pos positive),
              place.inZone_end (roundBytes_pos positive)⟩
            simp [effect.next, hint]
      · intro extent member
        rcases List.mem_cons.mp member with rfl | member
        · exact place.extentOk positive small zoneOk
        · exact base.allocated extent member
      · exact base.pending
    · exact ⟨zone, bytes, rfl, place, .inl (by rw [effect.layer2])⟩

theorem reserve_outcomes (base : Base state) {zone bytes fuel : Nat}
    (admissible : state.Admissible (.reserve zone bytes fuel))
    (done : state.step (.reserve zone bytes fuel) = .done (result, next)) :
    Outcomes state (.reserve zone bytes fuel) result next := by
  simp only [Ledger.step, Outcome.bind_eq_done_iff] at done
  obtain ⟨⟨returned, hmp⟩, call, recorded⟩ := done
  obtain ⟨⟨positive, small⟩, zoneOk⟩ := admissible
  rcases blockmapReserve_done base.tables (base.next zone zoneOk.1 zoneOk.2) call with
    ⟨rfl, rfl⟩ | ⟨offset, rfl, place, effect⟩
  · simp only [Outcome.done.injEq, Prod.mk.injEq] at recorded
    obtain ⟨rfl, rfl⟩ := recorded
    exact .idle
  · simp only [Outcome.done.injEq, Prod.mk.injEq] at recorded
    obtain ⟨rfl, rfl⟩ := recorded
    have inZone : (Extent.mk offset bytes).zone = zone := place.inZone
    obtain ⟨kept, present, append, fresh, shared⟩ := effect.resv
    have keptZone : kept.zone = zone := by
      cases held : state.hmp.resv (bigblock offset) with
      | none => exact (fresh held).1
      | some resv => exact ((shared resv held).1).trans (place.resv resv held).1
    apply Outcomes.served
    · constructor
      · exact effect.touch
      · intro other different
        refine Ledger.cell_other effect.touch different rfl ?_
        exact handles_cons_other { extent := ⟨offset, bytes⟩ } different state.pending
      · apply @CellStep.reserve _ _ _ ⟨offset, bytes⟩ kept
        · rw [inZone]
          rfl
        · exact place.room
        · exact congrFun effect.layer2 _
        · exact present
        · rw [inZone]
          exact keptZone
        · exact append
        · exact fun absent => (fresh absent).2
        · exact fun resv held => (shared resv held).2
        · rfl
        · exact handles_cons_here { extent := ⟨offset, bytes⟩ } state.pending
      · exact .inr ⟨zone, _, effect.next, place.scanOk_end (roundBytes_pos positive),
          place.inZone_end (roundBytes_pos positive)⟩
      · exact base.allocated
      · intro handle member
        rcases List.mem_cons.mp member with rfl | member
        · exact place.extentOk positive small zoneOk
        · exact base.pending handle member
    · exact ⟨zone, bytes, rfl, place, .inr ⟨kept, present, keptZone⟩⟩

/-- A held reservation can be finalized. -/
theorem Base.finalize_call (base : Base state) {handle : Handle} (member : handle ∈ state.pending) :
    ∃ hmp, blockmapFinalize state.hmp true handle.extent.offset handle.extent.bytes = .done hmp ∧
      Touches state.hmp hmp handle.extent.block ∧
      hmp.layer2 handle.extent.block =
        { zone := handle.extent.zone
          appendOff := max (state.hmp.layer2 handle.extent.block).appendOff handle.extent.stop
          bytesFree := int32
            ((state.hmp.layer2 handle.extent.block).bytesFree - (handle.extent.size : Nat)) } ∧
      hmp.resv handle.extent.block =
        (state.hmp.resv handle.extent.block).map ({ · with layer2Free := false }) ∧
      hmp.nextOffset = state.hmp.nextOffset := by
  have ok := base.pending handle member
  have cell := base.cells handle.extent.block
  have inCell : handle ∈ (state.cell handle.extent.block).pending := by
    simpa [Ledger.cell] using member
  obtain ⟨resv, present, zone⟩ := cell.held handle inCell
  have owner : (state.hmp.layer2 handle.extent.block).zone = 0 ∨
      (state.hmp.layer2 handle.extent.block).zone = handle.extent.zone := by
    rw [← zone]
    exact cell.entryOk.zone resv present
  exact blockmapFinalize_spec ok.positive ok.small ok.zoneOk ok.avail cell.entryOk.free owner

/-- A held reservation can be completed. -/
theorem Base.complete_call (base : Base state) {handle : Handle} (member : handle ∈ state.pending)
    (delError : Bool) :
    ∃ resv hmp, state.hmp.resv handle.extent.block = some resv ∧
      blockmapReserveComplete state.hmp handle.extent.block delError = .done hmp ∧
      Touches state.hmp hmp handle.extent.block ∧ hmp.layer2 = state.hmp.layer2 ∧
      hmp.nextOffset = state.hmp.nextOffset ∧ Completed resv (hmp.resv handle.extent.block) := by
  have cell := base.cells handle.extent.block
  have inCell : handle ∈ (state.cell handle.extent.block).pending := by
    simpa [Ledger.cell] using member
  obtain ⟨resv, present, _⟩ := cell.held handle inCell
  have counted := cell.counted resv present
  have nonempty := List.length_pos_of_mem inCell
  obtain ⟨hmp, call⟩ := blockmapReserveComplete_spec present (by omega) delError
  exact ⟨resv, hmp, present, call⟩

theorem finalize_outcomes (base : Base state) {handle : Handle}
    (admissible : state.Admissible (.finalize handle))
    (done : state.step (.finalize handle) = .done (result, next)) :
    Outcomes state (.finalize handle) result next := by
  obtain ⟨member, reserves⟩ := admissible
  have ok := base.pending handle member
  obtain ⟨hmp, call, touch, layer2, resvEq, offsets⟩ := base.finalize_call member
  simp only [Ledger.step, call, Outcome.bind, Outcome.done.injEq, Prod.mk.injEq] at done
  obtain ⟨rfl, rfl⟩ := done
  apply @Outcomes.quiet _ _ _ handle.extent.block
  · constructor
    · exact touch
    · intro other different
      refine Ledger.cell_other touch different (extents_cons_other different state.allocated) ?_
      refine (handles_cons_other { handle with finalized := true } different _).trans ?_
      exact filter_erase_of_neg (by simpa using different.symm)
    · apply @CellStep.finalize _ _ _ handle
        ((state.pending.erase handle).filter (·.extent.block = handle.extent.block)) reserves
      · exact perm_filter_erase member (by simp)
      · exact layer2
      · exact resvEq
      · exact extents_cons_here handle.extent state.allocated
      · exact handles_cons_here { handle with finalized := true } _
    · exact .inl offsets
    · intro extent extentMember
      rcases List.mem_cons.mp extentMember with rfl | extentMember
      · exact ok
      · exact base.allocated extent extentMember
    · intro other otherMember
      rcases List.mem_cons.mp otherMember with rfl | otherMember
      · exact ok
      · exact base.pending other (List.mem_of_mem_erase otherMember)

theorem complete_outcomes (base : Base state) {handle : Handle} {delError : Bool}
    (admissible : state.Admissible (.complete handle delError))
    (done : state.step (.complete handle delError) = .done (result, next)) :
    Outcomes state (.complete handle delError) result next := by
  have member : handle ∈ state.pending := admissible
  obtain ⟨resv, hmp, present, call, touch, layer2, offsets, completed⟩ :=
    base.complete_call member delError
  simp only [Ledger.step, call, Outcome.bind, Outcome.done.injEq, Prod.mk.injEq] at done
  obtain ⟨rfl, rfl⟩ := done
  apply Outcomes.quiet
  · constructor
    · exact touch
    · intro other different
      refine Ledger.cell_other touch different rfl ?_
      exact filter_erase_of_neg (by simpa using different.symm)
    · apply @CellStep.complete _ _ _ handle
        ((state.pending.erase handle).filter (·.extent.block = handle.extent.block)) resv
      · exact perm_filter_erase member (by simp)
      · exact present
      · exact congrFun layer2 _
      · exact completed
      · rfl
      · rfl
    · exact .inl offsets
    · exact base.allocated
    · exact fun other otherMember => base.pending other (List.mem_of_mem_erase otherMember)

theorem free_outcomes (base : Base state) {extent : Extent}
    (admissible : state.Admissible (.free extent))
    (done : state.step (.free extent) = .done (result, next)) :
    Outcomes state (.free extent) result next := by
  have member : extent ∈ state.allocated := admissible
  have ok := base.allocated extent member
  have positive := ok.positive
  have owned := ok.zone_ne_zero
  simp only [Ledger.step, Outcome.bind_eq_done_iff, Outcome.done.injEq, Prod.mk.injEq] at done
  obtain ⟨hmp, call, rfl, rfl⟩ := done
  have holds : (state.cell extent.block).allocated.Perm
      (extent :: (state.allocated.erase extent).filter (·.block = extent.block)) :=
    perm_filter_erase member (by simp)
  have elsewhere : ∀ other, other ≠ extent.block →
      (state.allocated.erase extent).filter (·.block = other) =
        state.allocated.filter (·.block = other) := by
    intro other different
    exact filter_erase_of_neg (by simpa using different.symm)
  have remaining : ∀ other ∈ state.allocated.erase extent, ExtentOk state.hmp other :=
    fun other otherMember => base.allocated other (List.mem_of_mem_erase otherMember)
  rcases blockmapFree_done call with ⟨empty, _⟩ | ⟨zone, keeps | resets⟩
  · omega
  · obtain ⟨notFull, rfl⟩ := keeps
    have touch := Touches.setLayer2 state.hmp extent.block
      { state.hmp.layer2 extent.block with
        bytesFree := int32 ((state.hmp.layer2 extent.block).bytesFree + (extent.size : Nat)) }
    apply Outcomes.quiet
    · constructor
      · exact touch
      · exact fun other different =>
          Ledger.cell_other touch different (elsewhere other different) rfl
      · apply CellStep.freeKeeps rfl holds zone _ notFull
        · exact Mount.setLayer2_layer2 _ _ _
        · rfl
        · rfl
        · rfl
        · exact fun unowned => owned (zone.symm.trans unowned)
      · exact .inl rfl
      · exact remaining
      · exact base.pending
  · have kept : ∃ kept : Reserve, hmp.resv extent.block = some kept ∧ kept.onDelay = true ∧
        (state.hmp.resv extent.block = none →
          kept.refs = 1 ∧ kept.appendOff = largeblockSize) ∧
        (∀ held, state.hmp.resv extent.block = some held →
          kept.zone = held.zone ∧ kept.refs + held.onDelay.toNat = held.refs + 1 ∧
            kept.appendOff = held.appendOff) := by
      cases held : state.hmp.resv extent.block with
      | none =>
          obtain ⟨kept, present, _, refs, onDelay, append⟩ := resets.noResv held
          exact ⟨kept, present, onDelay, fun _ => ⟨refs, append⟩, by simp⟩
      | some resv =>
          obtain ⟨kept, present, sameZone, onDelay, refs, append⟩ := resets.resv resv held
          refine ⟨kept, present, onDelay, by simp, ?_⟩
          intro other same
          obtain rfl : resv = other := Option.some.inj same
          exact ⟨sameZone, refs, append⟩
    obtain ⟨kept, present, onDelay, fresh, shared⟩ := kept
    apply Outcomes.quiet
    · constructor
      · exact resets.touch
      · exact fun other different =>
          Ledger.cell_other resets.touch different (elsewhere other different) rfl
      · exact .freeResets rfl holds zone resets.full resets.layer2 present onDelay fresh shared
          rfl rfl
      · exact .inl resets.next
      · exact remaining
      · exact base.pending

theorem clrdelay_outcomes (base : Base state) {block : Nat} {delError : Bool}
    (admissible : state.Admissible (.clrdelay block delError))
    (done : state.step (.clrdelay block delError) = .done (result, next)) :
    Outcomes state (.clrdelay block delError) result next := by
  obtain ⟨resv, present, onDelay⟩ := admissible
  have positive := ((base.cells block).entryOk.refs resv present).2
  obtain ⟨hmp, call, touch, layer2, offsets, completed⟩ :=
    reserveClrdelay_spec present onDelay positive delError
  simp only [Ledger.step, call, Outcome.bind, Outcome.done.injEq, Prod.mk.injEq] at done
  obtain ⟨rfl, rfl⟩ := done
  apply Outcomes.quiet
  · constructor
    · exact touch
    · exact fun other different => Ledger.cell_other touch different rfl rfl
    · exact .clrdelay present onDelay (congrFun layer2 _) completed rfl rfl
    · exact .inl offsets
    · exact base.allocated
    · exact base.pending

theorem reserveDedup_outcomes (base : Base state) {zone bytes offset : Nat}
    (admissible : state.Admissible (.reserveDedup zone bytes offset))
    (done : state.step (.reserveDedup zone bytes offset) = .done (result, next)) :
    Outcomes state (.reserveDedup zone bytes offset) result next := by
  simp only [Ledger.step, Outcome.bind_eq_done_iff] at done
  obtain ⟨⟨success, hmp⟩, call, recorded⟩ := done
  rcases blockmapReserveDedup_done call with ⟨rfl, rfl⟩ | ⟨rfl, effect⟩
  · simp only [Outcome.done.injEq, Prod.mk.injEq] at recorded
    obtain ⟨rfl, rfl⟩ := recorded
    exact .idle
  · simp only [Outcome.done.injEq, Prod.mk.injEq] at recorded
    obtain ⟨rfl, rfl⟩ := recorded
    obtain ⟨rfl, stop⟩ := admissible
    obtain ⟨kept, present, zone, fresh, shared⟩ := effect.resv
    have extentOk : ExtentOk state.hmp ⟨offset, bytes⟩ := by
      simp only [blockmapReserveDedup, Outcome.kkassert_eq_done_iff, decide_eq_true_eq] at call
      obtain ⟨zoneOk, ⟨positive, small⟩, avail, _⟩ := call
      refine ⟨?_, small, zoneOk, avail, stop⟩
      simp only [roundBytes] at positive
      dsimp only
      omega
    apply Outcomes.quiet
    · constructor
      · exact effect.touch
      · intro other different
        refine Ledger.cell_other effect.touch different rfl ?_
        exact handles_cons_other { extent := ⟨offset, bytes⟩, dedup := true } different state.pending
      · apply @CellStep.reserveDedup _ _ _ ⟨offset, bytes⟩ kept rfl
        · exact congrFun effect.layer2 _
        · exact effect.owner
        · exact present
        · exact zone
        · exact fresh
        · exact shared
        · rfl
        · exact handles_cons_here { extent := ⟨offset, bytes⟩, dedup := true } state.pending
      · exact .inl effect.next
      · exact base.allocated
      · intro handle member
        rcases List.mem_cons.mp member with rfl | member
        · exact extentOk
        · exact base.pending handle member

theorem dedup_outcomes (base : Base state) {handle : Handle}
    (admissible : state.Admissible (.dedup handle))
    (done : state.step (.dedup handle) = .done (result, next)) :
    Outcomes state (.dedup handle) result next := by
  obtain ⟨member, _, made⟩ := admissible
  have ok := base.pending handle member
  simp only [Ledger.step, Outcome.bind_eq_done_iff] at done
  obtain ⟨⟨success, hmp⟩, call, recorded⟩ := done
  rcases blockmapDedup_done ok.positive call with ⟨rfl, rfl⟩ | ⟨rfl, zone, _, rfl⟩
  · simp only [Outcome.done.injEq, Prod.mk.injEq] at recorded
    obtain ⟨rfl, rfl⟩ := recorded
    exact .idle
  · simp only [Outcome.done.injEq, Prod.mk.injEq] at recorded
    obtain ⟨rfl, rfl⟩ := recorded
    have touch := Touches.setLayer2 state.hmp handle.extent.block
      { state.hmp.layer2 handle.extent.block with
        bytesFree := int32
          ((state.hmp.layer2 handle.extent.block).bytesFree - (handle.extent.size : Nat)) }
    apply @Outcomes.quiet _ _ _ handle.extent.block
    · constructor
      · exact touch
      · intro other different
        refine Ledger.cell_other touch different (extents_cons_other different state.allocated) ?_
        refine (handles_cons_other { handle with finalized := true } different _).trans ?_
        exact filter_erase_of_neg (by simpa using different.symm)
      · apply @CellStep.dedup _ _ _ handle
          ((state.pending.erase handle).filter (·.extent.block = handle.extent.block)) _ rfl made
        · exact perm_filter_erase member (by simp)
        · exact fun unowned => ok.zone_ne_zero (zone.symm.trans unowned)
        · exact Mount.setLayer2_layer2 _ _ _
        · rfl
        · exact extents_cons_here handle.extent state.allocated
        · exact handles_cons_here { handle with finalized := true } _
      · exact .inl rfl
      · intro extent extentMember
        rcases List.mem_cons.mp extentMember with rfl | extentMember
        · exact ok
        · exact base.allocated extent extentMember
      · intro other otherMember
        rcases List.mem_cons.mp otherMember with rfl | otherMember
        · exact ok
        · exact base.pending other (List.mem_of_mem_erase otherMember)

/-- Every admissible call that comes back made at most one change. -/
theorem step_outcomes (base : Base state) {op : Op} (admissible : state.Admissible op)
    (done : state.step op = .done (result, next)) : Outcomes state op result next := by
  cases op with
  | alloc zone bytes hint fuel => exact alloc_outcomes base admissible done
  | reserve zone bytes fuel => exact reserve_outcomes base admissible done
  | finalize handle => exact finalize_outcomes base admissible done
  | complete handle delError => exact complete_outcomes base admissible done
  | free extent => exact free_outcomes base admissible done
  | clrdelay block delError => exact clrdelay_outcomes base admissible done
  | reserveDedup zone bytes offset => exact reserveDedup_outcomes base admissible done
  | dedup handle => exact dedup_outcomes base admissible done

/-- The base invariant is kept by every admissible call. -/
theorem Base.step (base : Base state) {op : Op} (admissible : state.Admissible op)
    (done : state.step op = .done (result, next)) : Base next := by
  cases step_outcomes base admissible done with
  | idle => exact base
  | quiet change => exact change.base base
  | served change _ => exact change.base base

end Calls

end Dragonfly.Hammer
