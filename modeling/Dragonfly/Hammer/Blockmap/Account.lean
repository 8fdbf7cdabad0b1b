import Dragonfly.Hammer.Blockmap.Disjoint
import Mathlib.Algebra.BigOperators.Intervals
import Mathlib.Algebra.BigOperators.Ring.Finset
import Mathlib.Algebra.Order.BigOperators.Group.Finset

/-!
# Accounting for free space

Three counters say how much space is left: `bytes_free` of a big-block,
`blocks_free` of a layer-1 entry and the number of free big-blocks in the volume
header, with its copy in the mount.  A call that changes the owner of a big-block
changes the last three by the same amount.
-/

namespace Dragonfly.Hammer

open Dragonfly.Lib

/-- `HAMMER_BLOCKMAP_RADIX1`, the number of layer-1 entries. -/
def blockmapRadix1 : Nat := 262144

/-- `HAMMER_BLOCKMAP_RADIX2`, the number of layer-2 entries below a layer-1 entry. -/
def blockmapRadix2 : Nat := 524288

/-- `HAMMER_ZONE_UNAVAIL_INDEX` -/
def zoneUnavailIndex : Nat := 15

/-- One for a big-block without owner. -/
def Layer2.unowned (entry : Layer2) : Int := if entry.zone = 0 then 1 else 0

/-- The number of big-blocks without owner below a layer-1 entry. -/
def Mount.unownedBelow (hmp : Mount) (index : Nat) : Nat :=
  ((Finset.range blockmapRadix2).filter fun entry =>
    (hmp.layer2 (index * blockmapRadix2 + entry)).zone = 0).card

/-- The counters of a file system. -/
structure Accounted (state : Ledger) : Prop where
  /-- Big-blocks owned by a zone of the allocator. -/
  bytesFree : ∀ block, zoneBtreeIndex ≤ (state.hmp.layer2 block).zone →
    (state.hmp.layer2 block).zone < zoneUnavailIndex →
    (state.hmp.layer2 block).bytesFree =
      (largeblockSize : Int) - (totalSize (state.allocated.filter (·.block = block)) : Nat)
  blocksFree : ∀ index, index < blockmapRadix1 → (state.hmp.layer1 index).physOffset.isSome →
    (state.hmp.layer1 index).blocksFree = state.hmp.unownedBelow index
  stat : state.hmp.statFreebigblocks =
    ∑ index ∈ Finset.range blockmapRadix1, (state.hmp.layer1 index).blocksFree
  copyStat : state.hmp.copyStatFreebigblocks = state.hmp.statFreebigblocks
  nonneg : 0 ≤ state.hmp.statFreebigblocks

/-! ## Calls -/

/-- No counter and no owner has changed. -/
structure Quiet (hmp hmp' : Mount) : Prop where
  layer1 : hmp'.layer1 = hmp.layer1
  layer2 : hmp'.layer2 = hmp.layer2
  stat : hmp'.statFreebigblocks = hmp.statFreebigblocks
  copyStat : hmp'.copyStatFreebigblocks = hmp.copyStatFreebigblocks

theorem Quiet.trans {hmp hmp' hmp'' : Mount} (first : Quiet hmp hmp') (second : Quiet hmp' hmp'') :
    Quiet hmp hmp'' :=
  ⟨second.layer1.trans first.layer1, second.layer2.trans first.layer2,
    second.stat.trans first.stat, second.copyStat.trans first.copyStat⟩

/-- The counters have followed the owner of `block`, the only big-block touched. -/
structure Balanced (hmp hmp' : Mount) (block : Nat) : Prop where
  phys : ∀ index, (hmp'.layer1 index).physOffset = (hmp.layer1 index).physOffset
  layer1 : ∀ index, (hmp'.layer1 index).blocksFree = (hmp.layer1 index).blocksFree +
    if index = block / blockmapRadix2 then
      (hmp'.layer2 block).unowned - (hmp.layer2 block).unowned else 0
  layer2 : ∀ other, other ≠ block → hmp'.layer2 other = hmp.layer2 other
  stat : hmp'.statFreebigblocks =
    hmp.statFreebigblocks + ((hmp'.layer2 block).unowned - (hmp.layer2 block).unowned)
  copyStat : hmp.copyStatFreebigblocks = hmp.statFreebigblocks →
    hmp'.copyStatFreebigblocks = hmp'.statFreebigblocks

namespace Balanced

variable {hmp hmp' hmp'' : Mount} {block : Nat}

theorem of_quiet (quiet : Quiet hmp hmp') (block : Nat) : Balanced hmp hmp' block := by
  refine ⟨fun index => ?_, fun index => ?_, fun other _ => ?_, ?_, fun same => ?_⟩
  · rw [quiet.layer1]
  · rw [quiet.layer1, quiet.layer2, sub_self, ite_self, add_zero]
  · rw [quiet.layer2]
  · rw [quiet.stat, quiet.layer2, sub_self, add_zero]
  · rw [quiet.stat, quiet.copyStat, same]

theorem trans (first : Balanced hmp hmp' block) (second : Balanced hmp' hmp'' block) :
    Balanced hmp hmp'' block where
  phys index := (second.phys index).trans (first.phys index)
  layer1 index := by
    rw [second.layer1, first.layer1]
    split <;> omega
  layer2 other ne := (second.layer2 other ne).trans (first.layer2 other ne)
  stat := by
    rw [second.stat, first.stat]
    omega
  copyStat same := second.copyStat (first.copyStat same)

/-- Writing a layer-2 entry without a new owner. -/
theorem setLayer2 (hmp : Mount) {block : Nat} {entry : Layer2}
    (zone : entry.zone = (hmp.layer2 block).zone) :
    Balanced hmp (hmp.setLayer2 block entry) block := by
  have same : ((hmp.setLayer2 block entry).layer2 block).unowned = (hmp.layer2 block).unowned := by
    unfold Layer2.unowned
    rw [Mount.setLayer2_layer2, zone]
  refine ⟨fun _ => rfl, fun index => ?_, fun _ ne => Function.update_of_ne ne _ _, ?_, fun same => same⟩
  · rw [same, sub_self, ite_self, add_zero]
    rfl
  · rw [same, sub_self, add_zero]
    rfl

end Balanced

/-- The layer-1 entry above a big-block. -/
theorem layer1Index_eq (offset : Nat) : layer1Index offset = bigblock offset / blockmapRadix2 := by
  unfold layer1Index bigblock blockmapRadix2 blockmapLayer2 largeblockSize
  rw [Nat.div_div_eq_div_mul]

/-- A big-block gets or loses its owner together with its counters. -/
theorem Balanced.adjust (hmp : Mount) (offset : Nat) {entry : Layer2} {delta : Int}
    (follows : delta = entry.unowned - (hmp.layer2 (bigblock offset)).unowned) :
    Balanced hmp ((hmp.adjustFree (layer1Index offset) delta).setLayer2 (bigblock offset) entry)
      (bigblock offset) := by
  refine ⟨fun index => ?_, fun index => ?_, fun _ ne => Function.update_of_ne ne _ _, ?_, fun _ => rfl⟩
  · unfold Mount.adjustFree Mount.setLayer2
    dsimp only
    by_cases here : index = layer1Index offset
    · subst here
      rw [Function.update_self]
    · rw [Function.update_of_ne here]
  · rw [Mount.setLayer2_layer2, ← follows, ← layer1Index_eq]
    unfold Mount.adjustFree Mount.setLayer2
    dsimp only
    by_cases here : index = layer1Index offset
    · subst here
      rw [Function.update_self, if_pos rfl]
    · rw [Function.update_of_ne here, if_neg here, add_zero]
  · rw [Mount.setLayer2_layer2, ← follows]
    rfl

section Calls

variable {hmp hmp' : Mount} {block zone bytes : Nat}

theorem reserveSetdelay_quiet (hmp : Mount) (block : Nat) (resv : Reserve) :
    Quiet hmp (reserveSetdelay hmp block resv) := by
  unfold reserveSetdelay
  split <;> exact ⟨rfl, rfl, rfl, rfl⟩

theorem setResv_quiet (hmp : Mount) (block : Nat) (resv : Option Reserve) :
    Quiet hmp (hmp.setResv block resv) :=
  ⟨rfl, rfl, rfl, rfl⟩

theorem blockmapReserveComplete_quiet {delError : Bool}
    (done : blockmapReserveComplete hmp block delError = .done hmp') : Quiet hmp hmp' := by
  unfold blockmapReserveComplete at done
  split at done
  · cases done
  next resv present =>
  simp only [Outcome.kkassert_eq_done_iff] at done
  obtain ⟨_, done⟩ := done
  -- the reservation may be filled up or delayed again before it is released
  obtain ⟨middle, middleEq⟩ : ∃ middle, middle = if resv.refs = 1 ∧ resv.layer2Free = true then
      if delError then reserveSetdelay hmp block { resv with appendOff := largeblockSize }
      else hmp.setResv block (some { resv with appendOff := largeblockSize })
    else hmp := ⟨_, rfl⟩
  have first : Quiet hmp middle := by
    rw [middleEq]
    split
    · split
      · exact reserveSetdelay_quiet _ _ _
      · exact setResv_quiet _ _ _
    · exact ⟨rfl, rfl, rfl, rfl⟩
  rw [← middleEq] at done
  split at done
  · cases done
  · split at done
    · simp only [Outcome.kkassert_eq_done_iff, Outcome.done.injEq] at done
      rw [← done.2]
      exact first.trans (setResv_quiet _ _ _)
    · cases done
      exact first.trans (setResv_quiet _ _ _)

theorem reserveClrdelay_quiet {delError : Bool}
    (done : reserveClrdelay hmp block delError = .done hmp') : Quiet hmp hmp' := by
  unfold reserveClrdelay at done
  split at done
  · cases done
  simp only [Outcome.kkassert_eq_done_iff] at done
  have quiet := blockmapReserveComplete_quiet done.2
  exact ⟨quiet.layer1, quiet.layer2, quiet.stat, quiet.copyStat⟩

theorem takeBigblock_balanced {next : Nat} (zoneNe : zone ≠ 0)
    (done : takeBigblock hmp next zone = .done hmp') :
    Balanced hmp hmp' (bigblock next) := by
  unfold takeBigblock at done
  dsimp only at done
  split at done
  · next unowned =>
    simp only [Outcome.kkassert_eq_done_iff, Outcome.done.injEq] at done
    rw [← done.2.2]
    refine .adjust hmp next ?_
    simp [Layer2.unowned, unowned, zoneNe]
  · cases done
    exact .of_quiet ⟨rfl, rfl, rfl, rfl⟩ _

theorem allocCommit_balanced {state : ScanState} (zoneNe : zone ≠ 0)
    (done : allocCommit hmp zone bytes state = .done hmp') :
    Balanced hmp hmp' (bigblock state.nextOffset) := by
  unfold allocCommit at done
  simp only [Outcome.bind_eq_done_iff, Outcome.kkassert_eq_done_iff] at done
  obtain ⟨taken, took, _, _, tracked, complete, advance⟩ := done
  have recorded := (takeBigblock_balanced zoneNe took).trans
    (@Balanced.setLayer2 taken (bigblock state.nextOffset)
      { taken.layer2 (bigblock state.nextOffset) with
        bytesFree := int32 ((taken.layer2 (bigblock state.nextOffset)).bytesFree - bytes)
        appendOff := blockOffset state.nextOffset + bytes } rfl)
  have completed : Quiet (taken.setLayer2 (bigblock state.nextOffset)
      { taken.layer2 (bigblock state.nextOffset) with
        bytesFree := int32 ((taken.layer2 (bigblock state.nextOffset)).bytesFree - bytes)
        appendOff := blockOffset state.nextOffset + bytes }) tracked := by
    split at complete
    · cases complete
      exact ⟨rfl, rfl, rfl, rfl⟩
    · simp only [Outcome.kkassert_eq_done_iff] at complete
      exact (setResv_quiet _ _ _).trans (blockmapReserveComplete_quiet complete.2)
  have advanced : Quiet tracked hmp' := by
    cases advance
    split <;> exact ⟨rfl, rfl, rfl, rfl⟩
  exact recorded.trans (.of_quiet (completed.trans advanced) _)

theorem blockmapAlloc_balanced {fuel hint : Nat} {result : Option Nat}
    (done : blockmapAlloc fuel hmp zone bytes hint = .done (result, hmp')) :
    ∃ offset, Balanced hmp hmp' (bigblock offset) := by
  unfold blockmapAlloc at done
  simp only [Outcome.kkassert_eq_done_iff, Outcome.bind_eq_done_iff, decide_eq_true_eq] at done
  obtain ⟨_, zoneOk, _, found, _, done⟩ := done
  have zoneNe : zone ≠ 0 := by
    have lower : 8 ≤ zone := zoneOk.1
    omega
  cases found with
  | none =>
      cases done
      exact ⟨0, .of_quiet ⟨rfl, rfl, rfl, rfl⟩ _⟩
  | some final =>
      simp only [Outcome.bind_eq_done_iff, Outcome.done.injEq, Prod.mk.injEq] at done
      obtain ⟨after, committed, _, rfl⟩ := done
      exact ⟨_, allocCommit_balanced zoneNe committed⟩

theorem blockmapReserve_quiet {fuel : Nat} {result : Option Nat}
    (done : blockmapReserve fuel hmp zone bytes = .done (result, hmp')) : Quiet hmp hmp' := by
  unfold blockmapReserve at done
  simp only [Outcome.kkassert_eq_done_iff, Outcome.bind_eq_done_iff] at done
  obtain ⟨_, _, _, found, _, done⟩ := done
  cases found with
  | none =>
      cases done
      exact ⟨rfl, rfl, rfl, rfl⟩
  | some final =>
      cases done
      exact ⟨rfl, rfl, rfl, rfl⟩

theorem blockmapFinalize_balanced {resv : Bool} {zoneOffset : Nat}
    (done : blockmapFinalize hmp resv zoneOffset bytes = .done hmp') :
    Balanced hmp hmp' (bigblock zoneOffset) := by
  unfold blockmapFinalize at done
  split at done
  · cases done
    exact .of_quiet ⟨rfl, rfl, rfl, rfl⟩ _
  simp only [Outcome.kkassert_eq_done_iff, Outcome.bind_eq_done_iff, decide_eq_true_eq] at done
  obtain ⟨_, zoneOk, _, taken, took, _, done⟩ := done
  have zoneNe : zoneDecode zoneOffset ≠ 0 := by
    have lower : 8 ≤ zoneDecode zoneOffset := zoneOk.1
    omega
  refine (takeBigblock_balanced zoneNe took).trans ?_
  cases done
  by_cases covered : resv = true
  · simp only [covered, if_true]
    exact (Balanced.of_quiet (setResv_quiet _ _ _) _).trans (.setLayer2 _ rfl)
  · simp only [covered]
    exact .setLayer2 _ rfl

theorem reserveSetdelayOffset_quiet (hmp : Mount) (block zone : Nat) (entry : Layer2) :
    Quiet hmp (reserveSetdelayOffset hmp block zone entry) := by
  unfold reserveSetdelayOffset
  split <;> exact reserveSetdelay_quiet _ _ _

theorem blockmapFree_balanced {zoneOffset : Nat}
    (done : blockmapFree hmp zoneOffset bytes = .done hmp') :
    Balanced hmp hmp' (bigblock zoneOffset) := by
  unfold blockmapFree at done
  split at done
  · cases done
    exact .of_quiet ⟨rfl, rfl, rfl, rfl⟩ _
  simp only [Outcome.kkassert_eq_done_iff, decide_eq_true_eq] at done
  obtain ⟨_, _, zoneOk, _, owned, _, done⟩ := done
  have zoneNe : zoneDecode zoneOffset ≠ 0 := by
    have lower : 8 ≤ zoneDecode zoneOffset := zoneOk.1
    omega
  split at done
  · cases done
    have delayed := reserveSetdelayOffset_quiet hmp (bigblock zoneOffset) (zoneDecode zoneOffset)
      { hmp.layer2 (bigblock zoneOffset) with
        bytesFree := int32 ((hmp.layer2 (bigblock zoneOffset)).bytesFree + roundBytes bytes) }
    refine (Balanced.of_quiet delayed _).trans (.adjust _ zoneOffset ?_)
    rw [delayed.layer2]
    simp [Layer2.unowned, owned, zoneNe]
  · cases done
    exact .setLayer2 _ rfl

/-- Every call without de-duplication keeps the counters and the owners together. -/
theorem Ledger.step_balanced {state next : Ledger} {op : Op} {result : Option Nat}
    (plainOp : op.plain = true) (done : state.step op = .done (result, next)) :
    ∃ offset, Balanced state.hmp next.hmp (bigblock offset) := by
  cases op with
  | alloc zone bytes hint fuel =>
      simp only [Ledger.step, Outcome.bind_eq_done_iff] at done
      obtain ⟨⟨found, after⟩, call, done⟩ := done
      have balanced := blockmapAlloc_balanced call
      cases found <;> cases done <;> exact balanced
  | reserve zone bytes fuel =>
      simp only [Ledger.step, Outcome.bind_eq_done_iff] at done
      obtain ⟨⟨found, after⟩, call, done⟩ := done
      have quiet := blockmapReserve_quiet call
      cases found <;> cases done <;> exact ⟨0, .of_quiet quiet _⟩
  | finalize handle =>
      simp only [Ledger.step, Outcome.bind_eq_done_iff] at done
      obtain ⟨after, call, done⟩ := done
      cases done
      exact ⟨_, blockmapFinalize_balanced call⟩
  | complete handle delError =>
      simp only [Ledger.step, Outcome.bind_eq_done_iff] at done
      obtain ⟨after, call, done⟩ := done
      cases done
      exact ⟨0, .of_quiet (blockmapReserveComplete_quiet call) _⟩
  | free extent =>
      simp only [Ledger.step, Outcome.bind_eq_done_iff] at done
      obtain ⟨after, call, done⟩ := done
      cases done
      exact ⟨_, blockmapFree_balanced call⟩
  | clrdelay block delError =>
      simp only [Ledger.step, Outcome.bind_eq_done_iff] at done
      obtain ⟨after, call, done⟩ := done
      cases done
      exact ⟨0, .of_quiet (reserveClrdelay_quiet call) _⟩
  | reserveDedup zone bytes offset => contradiction
  | dedup handle => contradiction

end Calls

/-! ## Counting big-blocks -/

theorem Mount.unownedBelow_eq (hmp : Mount) (index : Nat) :
    (hmp.unownedBelow index : Int) =
      ∑ entry ∈ Finset.range blockmapRadix2,
        (hmp.layer2 (index * blockmapRadix2 + entry)).unowned := by
  unfold Mount.unownedBelow Layer2.unowned
  rw [Finset.card_filter]
  simp only [Nat.cast_sum, Nat.cast_ite, Nat.cast_one, Nat.cast_zero]

section Count

variable {hmp hmp' : Mount} {block : Nat}

/-- The number of big-blocks without owner follows the one that has changed. -/
theorem Balanced.unownedBelow (balanced : Balanced hmp hmp' block) (index : Nat) :
    (hmp'.unownedBelow index : Int) = hmp.unownedBelow index +
      if index = block / blockmapRadix2 then
        (hmp'.layer2 block).unowned - (hmp.layer2 block).unowned else 0 := by
  rw [Mount.unownedBelow_eq, Mount.unownedBelow_eq]
  have split := Nat.div_add_mod block blockmapRadix2
  have small := Nat.mod_lt block (show 0 < blockmapRadix2 by decide)
  by_cases above : index = block / blockmapRadix2
  · -- exactly one entry of the sum changes
    have place : index * blockmapRadix2 + block % blockmapRadix2 = block := by
      rw [above, Nat.mul_comm]
      exact split
    have change : ∀ entry ∈ Finset.range blockmapRadix2,
        (hmp'.layer2 (index * blockmapRadix2 + entry)).unowned =
          (hmp.layer2 (index * blockmapRadix2 + entry)).unowned +
            if entry = block % blockmapRadix2 then
              (hmp'.layer2 block).unowned - (hmp.layer2 block).unowned else 0 := by
      intro entry _
      by_cases here : entry = block % blockmapRadix2
      · rw [if_pos here, here, place]
        omega
      · rw [if_neg here, add_zero, balanced.layer2 _ (by omega)]
    rw [if_pos above, Finset.sum_congr rfl change, Finset.sum_add_distrib, Finset.sum_ite_eq',
      if_pos (Finset.mem_range.mpr small)]
  · rw [if_neg above, add_zero]
    refine Finset.sum_congr rfl fun entry member => ?_
    have bound := Finset.mem_range.mp member
    rw [balanced.layer2]
    rintro rfl
    rw [Nat.mul_comm, Nat.mul_add_div (by decide), Nat.div_eq_of_lt bound, Nat.add_zero] at above
    exact above rfl

/-- So does the sum of the layer-1 counts. -/
theorem Balanced.sum_blocksFree (balanced : Balanced hmp hmp' block)
    (inside : block / blockmapRadix2 < blockmapRadix1) :
    ∑ index ∈ Finset.range blockmapRadix1, (hmp'.layer1 index).blocksFree =
      ∑ index ∈ Finset.range blockmapRadix1, (hmp.layer1 index).blocksFree +
        ((hmp'.layer2 block).unowned - (hmp.layer2 block).unowned) := by
  rw [Finset.sum_congr rfl fun index _ => balanced.layer1 index, Finset.sum_add_distrib,
    Finset.sum_ite_eq', if_pos (Finset.mem_range.mpr inside)]

theorem bigblock_inside (offset : Nat) : bigblock offset / blockmapRadix2 < blockmapRadix1 := by
  unfold bigblock longOffset blockmapRadix1 blockmapRadix2 largeblockSize zoneSpan
  omega

end Count

/-! ## Bytes of a big-block -/

/-- `bytes_free` is what the recorded extents leave. -/
def Cell.Exact (cell : Cell) : Prop :=
  zoneBtreeIndex ≤ cell.entry.zone → cell.entry.zone < zoneUnavailIndex →
    cell.entry.bytesFree = (largeblockSize : Int) - (totalSize cell.allocated : Nat)

namespace Cell.Exact

variable {before after : Cell}

/-- One more extent has been recorded, in a big-block without owner or in one that
was exact. -/
theorem record {extent : Extent} (exact : before.Exact) (base : CellBase before)
    (ok : CellOk before) (afterBase : CellBase after) (afterOk : CellOk after)
    (owner : before.entry.zone = 0 ∨ before.entry.zone = extent.zone)
    (zone : after.entry.zone = extent.zone)
    (bytesFree : after.entry.bytesFree = int32 (before.entry.bytesFree - (extent.size : Nat)))
    (allocated : after.allocated = extent :: before.allocated) : after.Exact := by
  intro lower upper
  rw [zone] at lower upper
  have exactBefore : before.entry.bytesFree =
      (largeblockSize : Int) - (totalSize before.allocated : Nat) := by
    rcases owner with unowned | owned
    · have full := (base.entryOk.free unowned).2
      have bound := ok.upper
      omega
    · exact exact (by rwa [owned]) (by rwa [owned])
  have fits := afterOk.totalSize_allocated_le afterBase
  rw [allocated, totalSize_cons] at fits ⊢
  rw [bytesFree, exactBefore]
  simp only [largeblockSize] at *
  rw [int32_of_range (by omega) (by omega)]
  push_cast
  omega

/-- Every call without de-duplication keeps the count exact. -/
theorem step {op : Op} (call : CellStep op before after) (plainOp : op.plain = true)
    (base : CellBase before) (sized : after.Sized) (ok : CellOk before) (exact : before.Exact) :
    after.Exact := by
  have afterBase := call.base base sized
  have afterOk := CellOk.step call plainOp base sized ok
  cases call with
  | @alloc extent request room entry noResv resv allocated pending =>
      exact exact.record base ok afterBase afterOk room.owner (by rw [entry]) (by rw [entry])
        allocated
  | @finalize handle rest reserves holds entry resv allocated pending =>
      have member : handle ∈ before.pending := holds.mem_iff.mpr List.mem_cons_self
      obtain ⟨held, present, sameZone⟩ := base.held handle member
      have owner := base.entryOk.zone held present
      rw [sameZone] at owner
      exact exact.record base ok afterBase afterOk owner (by rw [entry]) (by rw [entry]) allocated
  | @freeKeeps extent rest call holds zone owned notFull entry resv allocated pending =>
      intro lower upper
      rw [entry] at lower upper ⊢
      dsimp only at lower upper ⊢
      have exactBefore := exact lower upper
      have total := totalSize_perm holds
      have fits := ok.totalSize_allocated_le base
      rw [totalSize_cons] at total
      rw [allocated, exactBefore, total]
      simp only [largeblockSize] at *
      rw [int32_of_range (by omega) (by omega)]
      push_cast
      omega
  | @freeResets extent rest kept call holds zone full entry present onDelay fresh shared
      allocated pending =>
      intro lower
      rw [entry] at lower
      exact absurd lower (by decide)
  | @reserve extent kept request room entry present zone append fresh shared allocated pending =>
      unfold Exact
      rw [entry, allocated]
      exact exact
  | @complete handle rest held holds present entry completed allocated pending =>
      unfold Exact
      rw [entry, allocated]
      exact exact
  | @clrdelay held present onDelay entry completed allocated pending =>
      unfold Exact
      rw [entry, allocated]
      exact exact
  | @reserveDedup extent kept call =>
      rw [call] at plainOp
      contradiction
  | @dedup handle rest bytesFree call =>
      rw [call] at plainOp
      contradiction

end Cell.Exact

/-! ## Runs -/

/-- The invariant behind the counters. -/
structure Counted (state : Ledger) : Prop where
  sound : Sound state
  cells : ∀ block, (state.cell block).Exact
  blocksFree : ∀ index, index < blockmapRadix1 → (state.hmp.layer1 index).physOffset.isSome →
    (state.hmp.layer1 index).blocksFree = state.hmp.unownedBelow index
  stat : state.hmp.statFreebigblocks =
    ∑ index ∈ Finset.range blockmapRadix1, (state.hmp.layer1 index).blocksFree
  copyStat : state.hmp.copyStatFreebigblocks = state.hmp.statFreebigblocks

namespace Counted

variable {state next : Ledger} {op : Op}

theorem move (counted : Counted state) (move : PlainMove state op next) : Counted next := by
  have sound := counted.sound.move move
  obtain ⟨plainOp, admissible, result, done⟩ := move
  obtain ⟨offset, balanced⟩ := Ledger.step_balanced plainOp done
  have cells : ∀ block, (next.cell block).Exact := by
    have changed {block : Nat} (change : Change op state next block) (other : Nat) :
        (next.cell other).Exact := by
      by_cases here : other = block
      · subst here
        exact (counted.cells other).step change.here plainOp (counted.sound.base.cells other)
          (change.sized other) (counted.sound.cells other)
      · rw [change.other other here]
        exact counted.cells other
    cases step_outcomes counted.sound.base admissible done with
    | idle => exact counted.cells
    | quiet change => exact changed change
    | served change _ => exact changed change
  refine ⟨sound, cells, fun index below avail => ?_, ?_, balanced.copyStat counted.copyStat⟩
  · rw [balanced.phys] at avail
    rw [balanced.layer1, balanced.unownedBelow, counted.blocksFree index below avail]
  · rw [balanced.stat, counted.stat, balanced.sum_blocksFree (bigblock_inside offset)]

/-- No layer-1 entry counts a negative number. -/
theorem accounted (counted : Counted state) : Accounted state := by
  refine ⟨counted.cells, counted.blocksFree, counted.stat, counted.copyStat, ?_⟩
  rw [counted.stat]
  refine Finset.sum_nonneg fun index member => ?_
  cases phys : (state.hmp.layer1 index).physOffset with
  | none => rw [counted.sound.base.unavail index phys]
  | some offset =>
      rw [counted.blocksFree index (Finset.mem_range.mp member) (by rw [phys]; rfl)]
      exact Int.natCast_nonneg _

end Counted

/-- Over every run of the allocator the counters stay exact. -/
theorem blockmap_accounting {mount state : Ledger} {ops : List Op} (mounted : Mounted mount)
    (accounted : Accounted mount) (run : Run PlainMove mount ops state) : Accounted state := by
  have initial : Counted mount := ⟨mounted.sound, accounted.bytesFree, accounted.blocksFree,
    accounted.stat, accounted.copyStat⟩
  exact (run.invariant (fun counted move => counted.move move) initial).accounted

theorem smallVolume_accounted : Accounted smallVolume := by
  refine ⟨fun block lower upper => ?_, fun index _ avail => ?_, ?_, rfl, by decide⟩
  · simp only [smallVolume] at lower upper
    split at lower <;> simp_all [zoneBtreeIndex, zoneUnavailIndex]
  · obtain rfl : index = 0 := by
      by_contra other
      simp [smallVolume, other] at avail
    have four : ((Finset.range blockmapRadix2).filter fun entry =>
        (smallVolume.hmp.layer2 (0 * blockmapRadix2 + entry)).zone = 0) = Finset.range 4 := by
      ext entry
      simp only [smallVolume, Finset.mem_filter, Finset.mem_range, Nat.zero_mul, Nat.zero_add]
      unfold blockmapRadix2
      constructor
      · rintro ⟨_, unowned⟩
        by_contra beyond
        rw [if_neg beyond] at unowned
        contradiction
      · intro below
        rw [if_pos below]
        exact ⟨by omega, rfl⟩
    unfold Mount.unownedBelow
    rw [four, Finset.card_range]
    rfl
  · have counts : ∀ index ∈ Finset.range blockmapRadix1,
        (smallVolume.hmp.layer1 index).blocksFree = if index = 0 then 4 else 0 := by
      intro index _
      simp only [smallVolume]
      split <;> rfl
    rw [Finset.sum_congr rfl counts, Finset.sum_ite_eq',
      if_pos (Finset.mem_range.mpr (by decide))]
    rfl

/-- Taking one of the four big-blocks. -/
theorem smallVolume_alloc_accounted :
    ∃ state, Run PlainMove smallVolume [.alloc 10 100 0 1] state ∧ Accounted state ∧
      state.hmp.statFreebigblocks = 3 := by
  have move : ∃ state, PlainMove smallVolume (.alloc 10 100 0 1) state ∧
      state.hmp.statFreebigblocks = 3 :=
    ⟨_, ⟨rfl, ⟨⟨by decide, by decide⟩, ⟨by decide, by decide⟩, by simp⟩, _, rfl⟩, rfl⟩
  obtain ⟨state, first, three⟩ := move
  have run : Run PlainMove smallVolume [.alloc 10 100 0 1] state := .cons first (.nil state)
  exact ⟨state, run, blockmap_accounting smallVolume_mounted smallVolume_accounted run, three⟩

end Dragonfly.Hammer
