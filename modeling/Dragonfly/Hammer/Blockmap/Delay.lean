import Dragonfly.Hammer.Blockmap.Shield

/-!
# Big-blocks that have just become free

A free that empties a big-block resets its append offset and puts its reservation
on the delay list.  As long as it stays there, the append offset of the
reservation keeps the old contents from being overwritten.  A reservation made by
the free covers the whole big-block; one that was there before keeps its append
offset.
-/

namespace Dragonfly.Hammer

open Dragonfly.Lib

/-- The reservation of the big-block is on the delay list. -/
def Mount.Delayed (hmp : Mount) (block : Nat) : Prop :=
  ∃ resv, hmp.resv block = some resv ∧ resv.onDelay = true

/-- The call brings `bytes_free` of its big-block to `HAMMER_LARGEBLOCK_SIZE`. -/
def Ledger.Empties (state : Ledger) (extent : Extent) : Prop :=
  int32 ((state.hmp.layer2 extent.block).bytesFree + (extent.size : Nat)) = (largeblockSize : Int)

/-- A reservation of the big-block reaches as far as layer 2. -/
def Ledger.Covered (state : Ledger) (block : Nat) : Prop :=
  ∀ resv, state.hmp.resv block = some resv → (state.hmp.layer2 block).appendOff ≤ resv.appendOff

/-- A move that does not end the delay of `block`: a call of
`hammer_reserve_clrdelay` for it puts it back on the list. -/
def Waiting (block : Nat) (state : Ledger) (op : Op) (next : Ledger) : Prop :=
  state.Move op next ∧ ∀ delError, op = .clrdelay block delError → next.hmp.Delayed block

/-! ## Calls that do not end a delay -/

section Calls

variable {hmp hmp' : Mount} {block other zone bytes : Nat}

theorem Mount.Delayed.setResv_other (delayed : hmp.Delayed other) (ne : other ≠ block)
    (resv : Option Reserve) : (hmp.setResv block resv).Delayed other := by
  obtain ⟨held, present, onDelay⟩ := delayed
  exact ⟨held, (Function.update_of_ne ne _ _).trans present, onDelay⟩

theorem reserveSetdelay_delayed (resv : Reserve) (delayed : hmp.Delayed other) :
    (reserveSetdelay hmp block resv).Delayed other := by
  by_cases here : other = block
  · subst here
    obtain ⟨_, _, _, held, present, onDelay, _⟩ := reserveSetdelay_spec hmp other resv
    exact ⟨held, present, onDelay⟩
  · obtain ⟨held, present, onDelay⟩ := delayed
    have touch := (reserveSetdelay_spec hmp block resv).1
    exact ⟨held, (touch.resv other here).trans present, onDelay⟩

/-- Releasing a reference never takes a reservation off the delay list. -/
theorem blockmapReserveComplete_delayed {delError : Bool} (delayed : hmp.Delayed other)
    (done : blockmapReserveComplete hmp block delError = .done hmp') : hmp'.Delayed other := by
  unfold blockmapReserveComplete at done
  cases present : hmp.resv block with
  | none => simp [present] at done
  | some resv =>
      simp only [present, Outcome.kkassert_eq_done_iff] at done
      obtain ⟨_, done⟩ := done
      -- the state after the buffers of the big-block have been dropped
      generalize dropped : (if resv.refs = 1 ∧ resv.layer2Free = true then
          if delError = true then
            reserveSetdelay hmp block { resv with appendOff := largeblockSize }
          else hmp.setResv block (some { resv with appendOff := largeblockSize })
        else hmp) = middle at done
      have between : middle.Delayed other := by
        subst dropped
        split
        · split
          · exact reserveSetdelay_delayed _ delayed
          · by_cases here : other = block
            · subst here
              obtain ⟨held, same, onDelay⟩ := delayed
              obtain rfl : resv = held := Option.some.inj (present.symm.trans same)
              exact ⟨_, Mount.setResv_resv _ _ _, onDelay⟩
            · exact delayed.setResv_other here _
        · exact delayed
      cases kept : middle.resv block with
      | none => simp [kept] at done
      | some last =>
          simp only [kept] at done
          by_cases here : other = block
          · subst here
            obtain ⟨held, same, onDelay⟩ := between
            obtain rfl : last = held := Option.some.inj (kept.symm.trans same)
            split at done
            · simp [onDelay, Outcome.kkassert] at done
            · obtain rfl := Outcome.done.inj done
              exact ⟨_, Mount.setResv_resv _ _ _, onDelay⟩
          · split at done
            · simp only [Outcome.kkassert_eq_done_iff, Outcome.done.injEq] at done
              obtain ⟨_, rfl⟩ := done
              exact between.setResv_other here _
            · obtain rfl := Outcome.done.inj done
              exact between.setResv_other here _

theorem Mount.Delayed.of_resv (delayed : hmp.Delayed other) (same : hmp'.resv = hmp.resv) :
    hmp'.Delayed other := by
  obtain ⟨held, present, onDelay⟩ := delayed
  exact ⟨held, (congrFun same other).trans present, onDelay⟩

/-- Replacing a reservation by one that is on the delay list whenever the old one is. -/
theorem Mount.Delayed.setResv {resv : Reserve} (delayed : hmp.Delayed other)
    (keeps : ∀ held, hmp.resv block = some held → held.onDelay = true → resv.onDelay = true) :
    (hmp.setResv block (some resv)).Delayed other := by
  by_cases here : other = block
  · subst here
    obtain ⟨held, present, onDelay⟩ := delayed
    exact ⟨resv, Mount.setResv_resv _ _ _, keeps held present onDelay⟩
  · exact delayed.setResv_other here _

theorem takeBigblock_delayed {next : Nat} (delayed : hmp.Delayed other)
    (done : takeBigblock hmp next zone = .done hmp') : hmp'.Delayed other := by
  unfold takeBigblock at done
  dsimp only at done
  split at done
  · simp only [Outcome.kkassert_eq_done_iff, Outcome.done.injEq] at done
    obtain ⟨_, _, rfl⟩ := done
    exact delayed.of_resv rfl
  · obtain rfl := Outcome.done.inj done
    exact delayed

theorem allocCommit_delayed {scanned : ScanState} (delayed : hmp.Delayed other)
    (done : allocCommit hmp zone bytes scanned = .done hmp') : hmp'.Delayed other := by
  unfold allocCommit at done
  simp only [Outcome.bind_eq_done_iff, Outcome.kkassert_eq_done_iff, Outcome.done.injEq] at done
  obtain ⟨taken, took, _, _, tracked, tracks, rfl⟩ := done
  have takenDelayed := takeBigblock_delayed delayed took
  have trackedDelayed : tracked.Delayed other := by
    split at tracks
    · obtain rfl := Outcome.done.inj tracks
      exact takenDelayed.of_resv rfl
    · rename_i resv present
      rw [Outcome.kkassert_eq_done_iff] at tracks
      refine blockmapReserveComplete_delayed ?_ tracks.2
      apply Mount.Delayed.setResv (takenDelayed.of_resv rfl)
      intro held same onDelay
      obtain rfl : resv = held := Option.some.inj (present.symm.trans same)
      exact onDelay
  split
  · exact trackedDelayed
  · exact trackedDelayed.of_resv rfl

theorem reserveCommit_delayed (next : Nat) (delayed : hmp.Delayed other) :
    (reserveCommit hmp zone bytes next).Delayed other := by
  unfold reserveCommit
  apply Mount.Delayed.of_resv _ rfl
  apply delayed.setResv
  intro held present onDelay
  simp only [present]
  exact onDelay

theorem blockmapFinalize_delayed {resv : Bool} {zoneOffset : Nat} (delayed : hmp.Delayed other)
    (done : blockmapFinalize hmp resv zoneOffset bytes = .done hmp') : hmp'.Delayed other := by
  unfold blockmapFinalize at done
  split at done
  · obtain rfl := Outcome.done.inj done
    exact delayed
  · simp only [Outcome.bind_eq_done_iff, Outcome.kkassert_eq_done_iff, Outcome.done.injEq] at done
    obtain ⟨_, _, _, taken, took, _, rfl⟩ := done
    have takenDelayed := takeBigblock_delayed delayed took
    apply Mount.Delayed.of_resv _ (Mount.setLayer2_resv _ _ _)
    split
    · cases present : taken.resv (bigblock zoneOffset) with
      | none =>
          obtain ⟨held, same, onDelay⟩ := takenDelayed
          have here : other ≠ bigblock zoneOffset := by
            rintro rfl
            rw [present] at same
            contradiction
          exact Mount.Delayed.setResv_other ⟨held, same, onDelay⟩ here _
      | some held =>
          apply takenDelayed.setResv
          intro held' same onDelay
          obtain rfl : held = held' := Option.some.inj (present.symm.trans same)
          exact onDelay
    · exact takenDelayed

theorem blockmapFree_delayed {zoneOffset : Nat} (delayed : hmp.Delayed other)
    (done : blockmapFree hmp zoneOffset bytes = .done hmp') : hmp'.Delayed other := by
  rcases blockmapFree_done done with ⟨_, rfl⟩ | ⟨_, keeps | resets⟩
  · exact delayed
  · rw [keeps.result]
    exact delayed.of_resv rfl
  · obtain ⟨held, present, onDelay⟩ := delayed
    by_cases here : other = bigblock zoneOffset
    · subst here
      obtain ⟨kept, keptEq, _, keptDelay, _⟩ := resets.resv held present
      exact ⟨kept, keptEq, keptDelay⟩
    · exact ⟨held, (resets.touch.resv other here).trans present, onDelay⟩

theorem blockmapReserveDedup_delayed {zoneOffset : Nat} {success : Bool}
    (delayed : hmp.Delayed other)
    (done : blockmapReserveDedup hmp zone bytes zoneOffset = .done (success, hmp')) :
    hmp'.Delayed other := by
  rcases blockmapReserveDedup_done done with ⟨_, rfl⟩ | ⟨_, effect⟩
  · exact delayed
  · obtain ⟨held, present, onDelay⟩ := delayed
    by_cases here : other = bigblock zoneOffset
    · subst here
      obtain ⟨kept, keptEq, _, _, shared⟩ := effect.resv
      exact ⟨kept, keptEq, (shared held present).2.2.1.trans onDelay⟩
    · exact ⟨held, (effect.touch.resv other here).trans present, onDelay⟩

/-- No call other than `hammer_reserve_clrdelay` takes a reservation off the delay list. -/
theorem Ledger.step_delayed {state next : Ledger} {op : Op} {result : Option Nat}
    (delayed : state.hmp.Delayed block) (done : state.step op = .done (result, next))
    (waits : ∀ delError, op = .clrdelay block delError → next.hmp.Delayed block) :
    next.hmp.Delayed block := by
  cases op with
  | alloc zone bytes hint fuel =>
      simp only [Ledger.step, Outcome.bind_eq_done_iff] at done
      obtain ⟨⟨offset, hmp⟩, call, recorded⟩ := done
      have kept : hmp.Delayed block := by
        simp only [blockmapAlloc, Outcome.bind_eq_done_iff, Outcome.kkassert_eq_done_iff] at call
        obtain ⟨_, _, _, found, _, commit⟩ := call
        cases found with
        | none =>
            obtain ⟨rfl, rfl⟩ := Prod.mk.inj (Outcome.done.inj commit)
            exact delayed
        | some final =>
            simp only [Outcome.bind_eq_done_iff, Outcome.done.injEq, Prod.mk.injEq] at commit
            obtain ⟨committed, commits, _, rfl⟩ := commit
            exact allocCommit_delayed delayed commits
      cases offset with
      | none => obtain ⟨rfl, rfl⟩ := Prod.mk.inj (Outcome.done.inj recorded); exact kept
      | some offset => obtain ⟨rfl, rfl⟩ := Prod.mk.inj (Outcome.done.inj recorded); exact kept
  | reserve zone bytes fuel =>
      simp only [Ledger.step, Outcome.bind_eq_done_iff] at done
      obtain ⟨⟨offset, hmp⟩, call, recorded⟩ := done
      have kept : hmp.Delayed block := by
        simp only [blockmapReserve, Outcome.bind_eq_done_iff, Outcome.kkassert_eq_done_iff] at call
        obtain ⟨_, _, _, found, _, commit⟩ := call
        cases found with
        | none =>
            obtain ⟨rfl, rfl⟩ := Prod.mk.inj (Outcome.done.inj commit)
            exact delayed
        | some final =>
            obtain ⟨rfl, rfl⟩ := Prod.mk.inj (Outcome.done.inj commit)
            exact reserveCommit_delayed _ delayed
      cases offset with
      | none => obtain ⟨rfl, rfl⟩ := Prod.mk.inj (Outcome.done.inj recorded); exact kept
      | some offset => obtain ⟨rfl, rfl⟩ := Prod.mk.inj (Outcome.done.inj recorded); exact kept
  | finalize handle =>
      simp only [Ledger.step, Outcome.bind_eq_done_iff, Outcome.done.injEq, Prod.mk.injEq] at done
      obtain ⟨hmp, call, rfl, rfl⟩ := done
      exact blockmapFinalize_delayed delayed call
  | complete handle delError =>
      simp only [Ledger.step, Outcome.bind_eq_done_iff, Outcome.done.injEq, Prod.mk.injEq] at done
      obtain ⟨hmp, call, rfl, rfl⟩ := done
      exact blockmapReserveComplete_delayed delayed call
  | free extent =>
      simp only [Ledger.step, Outcome.bind_eq_done_iff, Outcome.done.injEq, Prod.mk.injEq] at done
      obtain ⟨hmp, call, rfl, rfl⟩ := done
      exact blockmapFree_delayed delayed call
  | clrdelay cleared delError =>
      by_cases here : cleared = block
      · subst here
        exact waits delError rfl
      · simp only [Ledger.step, Outcome.bind_eq_done_iff, Outcome.done.injEq, Prod.mk.injEq] at done
        obtain ⟨hmp, call, rfl, rfl⟩ := done
        unfold reserveClrdelay at call
        split at call
        · contradiction
        · rw [Outcome.kkassert_eq_done_iff] at call
          refine blockmapReserveComplete_delayed ?_ call.2
          exact (delayed.setResv_other (Ne.symm here) _).of_resv rfl
  | reserveDedup zone bytes offset =>
      simp only [Ledger.step, Outcome.bind_eq_done_iff] at done
      obtain ⟨⟨success, hmp⟩, call, recorded⟩ := done
      have kept := blockmapReserveDedup_delayed delayed call
      cases success with
      | false => obtain ⟨rfl, rfl⟩ := Prod.mk.inj (Outcome.done.inj recorded); exact kept
      | true => obtain ⟨rfl, rfl⟩ := Prod.mk.inj (Outcome.done.inj recorded); exact kept
  | dedup handle =>
      simp only [Ledger.step, Outcome.bind_eq_done_iff] at done
      obtain ⟨⟨success, hmp⟩, call, recorded⟩ := done
      have kept : hmp.Delayed block := by
        unfold blockmapDedup at call
        split at call
        · obtain ⟨rfl, rfl⟩ := Prod.mk.inj (Outcome.done.inj call)
          exact delayed
        · simp only [Outcome.kkassert_eq_done_iff] at call
          obtain ⟨_, _, _, _, _, call⟩ := call
          split at call
          · obtain ⟨rfl, rfl⟩ := Prod.mk.inj (Outcome.done.inj call)
            exact delayed
          · rw [Outcome.kkassert_eq_done_iff] at call
            obtain ⟨rfl, rfl⟩ := Prod.mk.inj (Outcome.done.inj call.2)
            exact delayed.of_resv rfl
      cases success with
      | false => obtain ⟨rfl, rfl⟩ := Prod.mk.inj (Outcome.done.inj recorded); exact kept
      | true => obtain ⟨rfl, rfl⟩ := Prod.mk.inj (Outcome.done.inj recorded); exact kept

end Calls

/-! ## The append offset of a reservation only grows -/

/-- The reservation covers at least `limit` bytes of the big-block. -/
def Cell.Covers (cell : Cell) (limit : Nat) : Prop :=
  ∀ resv, cell.resv = some resv → limit ≤ resv.appendOff

/-- While a reservation exists, no call lowers its append offset. -/
theorem CellStep.covers {op : Op} {before after : Cell} {limit : Nat} {held : Reserve}
    (call : CellStep op before after) (present : before.resv = some held)
    (bound : limit ≤ largeblockSize) (covers : before.Covers limit) : after.Covers limit := by
  have covered := covers held present
  intro kept keptEq
  cases call with
  | @alloc extent request room entry noResv resv allocated pending =>
      obtain ⟨other, otherEq, _, _, _, append⟩ := resv held present
      obtain rfl : kept = other := Option.some.inj (keptEq.symm.trans otherEq)
      have past := (room.resv held present).2
      simp only [Extent.stop] at append
      omega
  | @reserve extent other request room entry otherEq zone append fresh shared allocated pending =>
      obtain rfl : kept = other := Option.some.inj (keptEq.symm.trans otherEq)
      have past := (room.resv held present).2
      simp only [Extent.stop] at append
      omega
  | @finalize handle rest reserves holds entry resv allocated pending =>
      rw [resv, present] at keptEq
      obtain rfl := Option.some.inj keptEq
      exact covered
  | @complete handle rest other holds otherEq entry completed allocated pending =>
      obtain rfl : held = other := Option.some.inj (present.symm.trans otherEq)
      obtain ⟨_, _, append, _⟩ := completed.kept kept keptEq
      omega
  | @freeKeeps extent rest call holds zone owned notFull entry resv allocated pending =>
      exact covers kept (resv.symm.trans keptEq)
  | @freeResets extent rest other call holds zone full entry otherEq onDelay fresh shared
      allocated pending =>
      obtain rfl : kept = other := Option.some.inj (keptEq.symm.trans otherEq)
      rw [(shared held present).2.2]
      exact covered
  | @clrdelay other otherEq onDelay entry completed allocated pending =>
      obtain rfl : held = other := Option.some.inj (present.symm.trans otherEq)
      obtain ⟨_, _, append, _⟩ := completed.kept kept keptEq
      dsimp only at append
      omega
  | @reserveDedup extent other call entry owner otherEq zone fresh shared allocated pending =>
      obtain rfl : kept = other := Option.some.inj (keptEq.symm.trans otherEq)
      rw [(shared held present).2.2.2]
      exact covered
  | @dedup handle rest bytesFree call made holds owned entry resv allocated pending =>
      exact covers kept (resv.symm.trans keptEq)

/-! ## Runs -/

/-- The big-block is delayed and its reservation covers the first `limit` bytes. -/
structure Held (block limit : Nat) (state : Ledger) : Prop where
  base : Base state
  delayed : state.hmp.Delayed block
  covers : (state.cell block).Covers limit

/-- No call hands out bytes among the first `limit` of the big-block. -/
def Ledger.Protects (state : Ledger) (block limit : Nat) : Prop :=
  ∀ op offset next zone bytes, state.Admissible op →
    state.step op = .done (some offset, next) → op.request = some (zone, bytes) →
      (Extent.mk offset bytes).span.Apart ⟨block * largeblockSize, limit⟩

namespace Held

variable {state next : Ledger} {op : Op} {block limit : Nat}

theorem change {other : Nat} (held : Held block limit state) (bound : limit ≤ largeblockSize)
    (change : Change op state next other) (delayed : next.hmp.Delayed block) :
    Held block limit next where
  base := change.base held.base
  delayed := delayed
  covers := by
    by_cases here : block = other
    · subst here
      obtain ⟨resv, present, _⟩ := held.delayed
      exact change.here.covers present bound held.covers
    · rw [change.other block here]
      exact held.covers

theorem move (bound : limit ≤ largeblockSize) (held : Held block limit state)
    (move : Waiting block state op next) : Held block limit next := by
  obtain ⟨⟨admissible, offset, done⟩, waits⟩ := move
  have delayed := Ledger.step_delayed held.delayed done waits
  cases step_outcomes held.base admissible done with
  | idle => exact held
  | quiet change => exact held.change bound change delayed
  | served change _ => exact held.change bound change delayed

theorem protects (held : Held block limit state) (bound : limit ≤ largeblockSize) :
    state.Protects block limit := by
  intro op offset next zone bytes admissible done request
  cases step_outcomes held.base admissible done with
  | served change served =>
      obtain ⟨zone', bytes', request', place, _⟩ := served.request
      obtain ⟨rfl, rfl⟩ := Prod.mk.inj (Option.some.inj (request.symm.trans request'))
      have stop := place.stop_le (roundBytes_pos (admissible.bytes_pos request))
      have lo := (Extent.mk offset bytes).span_lo
      obtain ⟨resv, present, _⟩ := held.delayed
      simp only [Span.Apart, Span.hi, lo]
      simp only [Extent.span, Extent.size, Extent.block, Extent.start, largeblockSize] at *
      rcases Nat.lt_trichotomy (bigblock offset) block with before | here | after
      · exact .inl (by omega)
      · subst here
        have past := (place.resv resv present).2
        have covered := held.covers resv present
        exact .inr (by omega)
      · exact .inr (by omega)

end Held

/-- The free that empties a big-block takes the branch that resets layer 2. -/
theorem Base.free_resets {state freed : Ledger} {extent : Extent} (base : Base state)
    (free : state.Move (.free extent) freed) (empties : state.Empties extent) :
    FreeResets state.hmp freed.hmp extent.offset extent.bytes := by
  obtain ⟨admissible, offset, done⟩ := free
  simp only [Ledger.step, Outcome.bind_eq_done_iff, Outcome.done.injEq, Prod.mk.injEq] at done
  obtain ⟨hmp, call, _, rfl⟩ := done
  rcases blockmapFree_done call with ⟨none, _⟩ | ⟨_, keeps | resets⟩
  · exact absurd none (Nat.ne_of_gt (base.allocated extent admissible).positive)
  · exact absurd empties keeps.notFull
  · exact resets

/-- A free that empties a covered big-block leaves it delayed, with all bytes that
were below its append offset covered. -/
theorem Base.free_held {state freed : Ledger} {extent : Extent} (base : Base state)
    (free : state.Move (.free extent) freed) (empties : state.Empties extent)
    (covered : state.Covered extent.block) :
    Held extent.block (state.hmp.layer2 extent.block).appendOff freed := by
  have resets := base.free_resets free empties
  obtain ⟨admissible, offset, done⟩ := free
  have kept : ∃ kept, freed.hmp.resv extent.block = some kept ∧ kept.onDelay = true ∧
      (state.hmp.layer2 extent.block).appendOff ≤ kept.appendOff := by
    cases present : state.hmp.resv extent.block with
    | none =>
        obtain ⟨kept, keptEq, _, _, onDelay, append⟩ := resets.noResv present
        refine ⟨kept, keptEq, onDelay, ?_⟩
        rw [append]
        exact (base.cells extent.block).entryOk.append2
    | some held =>
        obtain ⟨kept, keptEq, _, onDelay, _, append⟩ := resets.resv held present
        refine ⟨kept, keptEq, onDelay, ?_⟩
        rw [append]
        exact covered held present
  obtain ⟨kept, keptEq, onDelay, append⟩ := kept
  refine ⟨base.step admissible done, ⟨kept, keptEq, onDelay⟩, ?_⟩
  intro resv present
  obtain rfl : kept = resv := Option.some.inj (keptEq.symm.trans present)
  exact append

/-- The reservation of a cell reaches as far as layer 2. -/
def Cell.Reaches (cell : Cell) : Prop :=
  ∀ resv, cell.resv = some resv → cell.entry.appendOff ≤ resv.appendOff

theorem CellStep.reaches {op : Op} {before after : Cell} (call : CellStep op before after)
    (plainOp : op.plain = true) (base : CellBase before) (sized : after.Sized) (ok : CellOk before)
    (reaches : before.Reaches) : after.Reaches := by
  have append2 := (call.base base sized).entryOk.append2
  intro kept keptEq
  cases call with
  | @alloc extent request room entry noResv resv allocated pending =>
      cases present : before.resv with
      | none => simp [noResv present] at keptEq
      | some held =>
          obtain ⟨other, otherEq, _, _, _, append⟩ := resv held present
          obtain rfl : kept = other := Option.some.inj (keptEq.symm.trans otherEq)
          rcases append with append | append
          · rw [entry, append]
          · rw [append]
            exact append2
  | @reserve extent other request room entry otherEq zone append fresh shared allocated pending =>
      obtain rfl : kept = other := Option.some.inj (keptEq.symm.trans otherEq)
      have past := room.append2
      rw [entry, append, Extent.stop]
      omega
  | @finalize handle rest reserves holds entry resv allocated pending =>
      have member : handle ∈ before.pending := holds.mem_iff.mpr List.mem_cons_self
      obtain ⟨held, present, _⟩ := base.held handle member
      have fresh : handle.finalized = false := by
        simp only [Handle.reserves, Bool.and_eq_true, Bool.not_eq_true'] at reserves
        exact reserves.1
      rw [resv, present] at keptEq
      obtain rfl := Option.some.inj keptEq
      rw [entry]
      exact max_le (reaches held present) (ok.covered handle member fresh held present)
  | @complete handle rest held holds present entry completed allocated pending =>
      obtain ⟨_, _, append, _⟩ := completed.kept kept keptEq
      have before := reaches held present
      rw [entry] at append2 ⊢
      omega
  | @freeKeeps extent rest call holds zone owned notFull entry resv allocated pending =>
      rw [entry]
      exact reaches kept (resv.symm.trans keptEq)
  | @freeResets extent rest other call holds zone full entry otherEq onDelay fresh shared
      allocated pending =>
      rw [entry]
      exact Nat.zero_le _
  | @clrdelay held present onDelay entry completed allocated pending =>
      obtain ⟨_, _, append, _⟩ := completed.kept kept keptEq
      dsimp only at append
      have before := reaches held present
      rw [entry] at append2 ⊢
      omega
  | reserveDedup call =>
      subst call
      contradiction
  | dedup call =>
      subst call
      contradiction

/-- Soundness together with the reach of every reservation. -/
structure Reaching (state : Ledger) : Prop where
  sound : Sound state
  cells : ∀ block, (state.cell block).Reaches

theorem Reaching.change {state next : Ledger} {op : Op} {block : Nat} (reaching : Reaching state)
    (plainOp : op.plain = true) (change : Change op state next block) : Reaching next where
  sound := reaching.sound.change plainOp change
  cells other := by
    by_cases here : other = block
    · subst here
      exact change.here.reaches plainOp (reaching.sound.base.cells other) (change.sized other)
        (reaching.sound.cells other) (reaching.cells other)
    · rw [change.other other here]
      exact reaching.cells other

theorem Reaching.move {state next : Ledger} {op : Op} (reaching : Reaching state)
    (move : PlainMove state op next) : Reaching next := by
  obtain ⟨plainOp, admissible, offset, done⟩ := move
  cases step_outcomes reaching.sound.base admissible done with
  | idle => exact reaching
  | quiet change => exact reaching.change plainOp change
  | served change _ => exact reaching.change plainOp change

/-- Without de-duplication no big-block is ever left uncovered. -/
theorem covered_of_plain {mount state : Ledger} {ops : List Op} (mounted : Mounted mount)
    (run : Run PlainMove mount ops state) (block : Nat) : state.Covered block := by
  have initial : Reaching mount := by
    refine ⟨mounted.sound, ?_⟩
    intro other resv present
    have absent := mounted.noResv other
    simp only [Ledger.cell, absent] at present
    contradiction
  have reaching : Reaching state := run.invariant (fun reaching move => reaching.move move) initial
  exact reaching.cells block

/-- In a run without de-duplication, from a free that empties a big-block until its delay has
ended, no call hands out bytes below the append offset the big-block had. -/
theorem plain_bigblock_protected {mount state freed later : Ledger} {ops delay : List Op} {extent : Extent}
    (mounted : Mounted mount) (run : Run PlainMove mount ops state) (free : state.Move (.free extent) freed)
    (empties : state.Empties extent) (waiting : Run (Waiting extent.block) freed delay later) :
    later.Protects extent.block (state.hmp.layer2 extent.block).appendOff := by
  have base : Base state := run.invariant (fun base move => base.step move.2.1 move.2.2.choose_spec) mounted.sound.base
  have bound := (base.cells extent.block).entryOk.append2
  have held := waiting.invariant (fun held move => held.move bound move)
    (base.free_held free empties (covered_of_plain mounted run extent.block))
  exact held.protects bound

/-- On a small volume: an extent is recorded and freed, and then bytes are reserved while the
big-block waits. -/
theorem plain_bigblock_protected_small :
    ∃ state freed later, Run PlainMove smallVolume [.alloc 10 100 0 1] state ∧
      Run (Waiting 0) freed [.reserve 10 200 2] later ∧
      (state.hmp.layer2 0).appendOff = 112 ∧ later.Protects 0 112 := by
  have moves : ∃ state freed later, PlainMove smallVolume (.alloc 10 100 0 1) state ∧
      state.Empties ⟨zoneEncode 10 0, 100⟩ ∧ state.Move (.free ⟨zoneEncode 10 0, 100⟩) freed ∧
      Waiting 0 freed (.reserve 10 200 2) later ∧ (state.hmp.layer2 0).appendOff = 112 := by
    refine ⟨_, _, _, ⟨rfl, ⟨⟨by decide, by decide⟩, ⟨by decide, by decide⟩, by simp⟩, _, rfl⟩,
      rfl, ⟨List.mem_cons_self, _, rfl⟩,
      ⟨⟨⟨⟨by decide, by decide⟩, ⟨by decide, by decide⟩⟩, _, rfl⟩, ?_⟩, rfl⟩
    · intro delError op
      contradiction
  obtain ⟨state, freed, later, alloc, empties, free, again, append⟩ := moves
  have run : Run PlainMove smallVolume [.alloc 10 100 0 1] state := .cons alloc (.nil state)
  have waiting : Run (Waiting 0) freed [.reserve 10 200 2] later := .cons again (.nil later)
  have here : (Extent.mk (zoneEncode 10 0) 100).block = 0 := by decide
  have protects := plain_bigblock_protected smallVolume_mounted run free empties (by rwa [here])
  rw [here, append] at protects
  exact ⟨state, freed, later, run, waiting, append, protects⟩

end Dragonfly.Hammer
