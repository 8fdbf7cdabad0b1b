import Dragonfly.Hammer.Fifo.Lay
import Dragonfly.Hammer.Fifo.Report

/-!
# Recovery and the place where the FIFO wraps

The same records can lie in the area in two ways, with the nominal range in one
piece or wrapped.  Recovery reports the same in both cases unless the extended
range starts exactly at `first_offset` of the wrapped range, or at `last_offset`.
-/

namespace Dragonfly.Hammer.Fifo

open Dragonfly.Lib

/-- What both stages did, and the return code. -/
structure Report where
  applied : List Record
  collected : List Record
  executed : List Record
  error : Option Errno

/-- Stage 1 and, if it succeeds, stage 2. -/
def recover (area : Area) (fuel : Nat) (state : Recovery) : Outcome Report :=
  (recoverStage1 area fuel state).bind fun
    | (some errno, state) =>
        .done { applied := state.applied, collected := [], executed := [], error := some errno }
    | (none, state) =>
        (recoverStage2 area fuel state).bind fun (error, redo) =>
          .done { applied := state.applied, collected := redo.collected
                  executed := redo.executed, error }

/-- A FIFO full of records: the nominal range, and the rest of the area up to it.
The REDO_SYNC that counts names the first record of `front`, or the first record
of the nominal range if there is none in `front`. -/
structure Ring (area : Area) (state : Recovery) (start : Nat)
    (nominal between front : List Record) : Prop where
  sane : area.Sane
  inside : area.Inside start
  names : area.Names state.firstOffset start
  header : state.nextOffset ≤ area.allocOffset
  idle : state.recoveryReq = false
  chain : Chain area start (nominal ++ (between ++ front)) start
  whole : total (nominal ++ (between ++ front)) = area.allocOffset - undoBase
  sync : ∀ offset, syncOffset nominal.reverse = some offset →
    offset = area.walk start (total nominal + total between)

/-- `nominal` is the longest run of records in sequence with the last record of
the ring. -/
structure Nominal (nominal rest : List Record) (seqno next : Nat) : Prop where
  back : firstSeq (nominal ++ rest).reverse = some seqno
  order : seqAfter nominal (seqSucc seqno) = some next
  ending : ∃ front record, nominal = front ++ [record] ∧ record.body ≠ .pad
  breaks : ∃ other, firstSeq (rest ++ nominal) = some other ∧ other ≠ next
  nonempty : rest ≠ []

/-- What stage 1 leaves behind. -/
structure Stage1Done (area : Area) (state after : Recovery) (start : Nat)
    (nominal : List Record) (seqno : Nat) : Prop where
  applied : after.applied = state.applied ++ (undoReport nominal.reverse).2
  firstOffset : after.firstOffset = state.firstOffset
  nextOffset : after.nextOffset = area.walk start (total nominal)
  seqno : after.stage2Seqno = seqSucc seqno
  req : after.recoveryReq = (syncOffset nominal.reverse).isSome
  offset : after.stage2Offset = (syncOffset nominal.reverse).getD 0

section Ring

variable {area : Area} {state : Recovery} {start seqno next fuel : Nat}
  {nominal between front : List Record}

theorem Ring.active (ring : Ring area state start nominal between front)
    (range : Nominal nominal (between ++ front) seqno next)
    (enough : 2 * (nominal ++ (between ++ front)).length ≤ fuel) :
    Active area state start (area.walk start (total nominal)) nominal seqno next fuel := by
  obtain ⟨last, first, second⟩ := ring.chain.split
  obtain rfl := first.stop_eq ring.inside
  have restPositive := second.total_pos range.nonempty
  have whole := ring.whole
  obtain ⟨other, found, breaks⟩ := range.breaks
  rw [total_append] at whole
  simp only [List.length_append] at enough
  refine ⟨ring.sane, ring.inside, ring.names, ring.header, ?_, first, range.order, range.ending,
    ?_, by omega⟩
  · exact ⟨start, _, ring.chain, range.back, by simp only [List.length_append]; omega⟩
  · refine ⟨_, _, other, second.append first, found, breaks, ?_⟩
    simp only [List.length_append]
    omega

/-- Stage 1 fails on a corrupt UNDO record and otherwise hands over to stage 2. -/
theorem Ring.stage1 (ring : Ring area state start nominal between front)
    (range : Nominal nominal (between ++ front) seqno next)
    (enough : 2 * (nominal ++ (between ++ front)).length ≤ fuel) :
    ∃ after, recoverStage1 area fuel state = .done ((undoReport nominal.reverse).1, after) ∧
      after.applied = state.applied ++ (undoReport nominal.reverse).2 ∧
      ((undoReport nominal.reverse).1 = none →
        Stage1Done area state after start nominal seqno) := by
  have ran := recoverStage1_active (ring.active range enough)
  obtain ⟨error, applied, stage2Seqno⟩ :=
    applyAll_report nominal.reverse (state.found seqno next)
  have syncs := @applyAll_sync nominal.reverse (state.found seqno next) ring.idle
  rw [← error] at syncs ⊢
  generalize applyAll nominal.reverse (state.found seqno next) = result
    at ran error applied stage2Seqno syncs ⊢
  obtain ⟨_ | errno, after⟩ := result
  · obtain ⟨req, offset⟩ := syncs rfl
    exact ⟨_, ran, applied, fun _ => ⟨applied, rfl, rfl, stage2Seqno, req, offset⟩⟩
  · exact ⟨_, ran, applied, fun succeeded => by cases succeeded⟩

/-! ## Stage 2 on a ring -/

variable {after : Recovery}

/-- Without a REDO_SYNC in the nominal range stage 2 does nothing. -/
theorem Stage1Done.stage2_idle (done : Stage1Done area state after start nominal seqno)
    (quiet : syncOffset nominal.reverse = none) :
    recoverStage2 area fuel after = .done (none, {}) := by
  have req : after.recoveryReq = false := by rw [done.req, quiet]; rfl
  unfold recoverStage2
  dsimp only
  by_cases empty : after.firstOffset = after.nextOffset
  · rw [if_pos empty, req]
    rfl
  · rw [if_neg empty, if_pos (by simp [req])]

/-- The ring cut at the three places that matter. -/
theorem Ring.cut (ring : Ring area state start nominal between front) :
    Chain area start nominal (area.walk start (total nominal)) ∧
      Chain area (area.walk start (total nominal)) between
        (area.walk start (total nominal + total between)) ∧
      Chain area (area.walk start (total nominal + total between)) front start := by
  obtain ⟨last, first, rest⟩ := ring.chain.split
  obtain ⟨ext, second, third⟩ := rest.split
  obtain rfl := first.stop_eq ring.inside
  obtain rfl := second.stop_eq (Area.walk_inside ring.sane _ _)
  rw [Area.walk_walk] at second third
  exact ⟨first, second, third⟩

theorem Ring.requested (ring : Ring area state start nominal between front)
    (done : Stage1Done area state after start nominal seqno)
    {offset : Nat} (sync : syncOffset nominal.reverse = some offset) :
    Requested area after ∧
      after.stage2Offset = area.walk start (total nominal + total between) := by
  have offsetEq : after.stage2Offset = area.walk start (total nominal + total between) := by
    rw [done.offset, sync]
    exact ring.sync offset sync
  refine ⟨⟨ring.sane, by rw [done.req, sync]; rfl, ?_⟩, offsetEq⟩
  rw [offsetEq]
  exact Area.walk_inside ring.sane _ _

/-- The report of stage 2 when the extended range starts in front of the nominal
range. -/
def redoReport (front nominal : List Record) (seqno : Nat) :
    Option Errno × List Record × List Record :=
  match gather front.reverse seqno with
  | (some errno, collected) => (some errno, collected, [])
  | (none, _) =>
      (none, front.reverse.filter (·.termKey.isSome), (front ++ nominal).filter (selected front))

theorem redoReport_same {front' nominal' : List Record} (same : SameRecords front front')
    (sameNominal : SameRecords nominal nominal') :
    redoReport front nominal seqno = redoReport front' nominal' seqno := by
  have terms : front.reverse.filter (·.termKey.isSome) =
      front'.reverse.filter (·.termKey.isSome) :=
    same.reverse.eq _ (filter_unplaced (by simp) fun _ => Record.unplaced_of_term)
  unfold redoReport
  rw [same.reverse.eq (gather · seqno) (gather_unplaced seqno), terms,
    same.filter_selected sameNominal]

theorem Ring.stage2_outside (ring : Ring area state start nominal between front)
    (range : Nominal nominal (between ++ front) seqno next)
    (done : Stage1Done area state after start nominal seqno)
    (enough : 2 * (nominal ++ (between ++ front)).length ≤ fuel)
    {offset : Nat} (sync : syncOffset nominal.reverse = some offset)
    (betweenNonempty : between ≠ []) (frontNonempty : front ≠ []) :
    ∃ redo, recoverStage2 area fuel after =
        .done ((redoReport front nominal (seqPred (seqSucc seqno))).1, redo) ∧
      (redo.collected, redo.executed) =
        (redoReport front nominal (seqPred (seqSucc seqno))).2 := by
  obtain ⟨requested, offsetEq⟩ := ring.requested done sync
  obtain ⟨chain, chainBetween, chainFront⟩ := ring.cut
  have names : area.Names after.firstOffset start := done.firstOffset ▸ ring.names
  have nominalNonempty : nominal ≠ [] := by
    obtain ⟨_, _, same, _⟩ := range.ending
    simp [same]
  have nominalLength := List.length_pos_of_ne_nil nominalNonempty
  have positive := chain.total_pos nominalNonempty
  have betweenPositive := chainBetween.total_pos betweenNonempty
  have whole := ring.whole
  simp only [total_append] at whole
  simp only [List.length_append] at enough
  rw [← offsetEq] at chainFront
  rw [← done.nextOffset] at chain
  rw [← done.seqno]
  cases error : (gather front.reverse (seqPred after.stage2Seqno)).1 with
  | none =>
      obtain ⟨redo, ran, collected, executed⟩ := @recoverStage2_extended area after front nominal
        fuel requested (.outside frontNonempty names chainFront chain
          (inSequence_of_gather error) (by omega)) nominalNonempty (by omega)
      have report : redoReport front nominal (seqPred after.stage2Seqno) =
          (none, front.reverse.filter (·.termKey.isSome),
            (front ++ nominal).filter (selected front)) := by
        unfold redoReport
        rw [← Prod.eta (gather front.reverse (seqPred after.stage2Seqno)), error]
      rw [report]
      exact ⟨redo, ran, by rw [collected, executed]⟩
  | some errno =>
      have startEq := chainFront.stop_eq requested.inside
      obtain ⟨spanEq, apart⟩ := Area.span_names ring.sane ring.inside names positive (by omega)
      rw [← done.nextOffset] at spanEq apart
      have extended := extendedRange_outside ring.sane names requested.inside startEq
        done.nextOffset (chainFront.total_pos frontNonempty) positive (by omega)
      have collected := @collectLoop_chain area _ requested.inside front after.firstOffset start
        (seqPred after.stage2Seqno) fuel {} names frontNonempty chainFront (by omega) (by omega)
      obtain ⟨failed, terms, executed⟩ := collectAll_gather
        (area.place after.stage2Offset front).reverse (seqPred after.stage2Seqno) {}
      rw [List.map_reverse, area.map_place] at failed terms
      have report : redoReport front nominal (seqPred after.stage2Seqno) =
          (some errno, (gather front.reverse (seqPred after.stage2Seqno)).2, []) := by
        unfold redoReport
        rw [← Prod.eta (gather front.reverse (seqPred after.stage2Seqno)), error]
      have limit := ring.sane.limit_eq
      rw [recoverStage2_eq requested apart spanEq (by omega) extended, if_pos rfl, collected,
        report]
      generalize collectAll (area.place after.stage2Offset front).reverse
        (seqPred after.stage2Seqno) {} = result at failed terms executed
      obtain ⟨code, redo⟩ := result
      obtain rfl : code = some errno := failed.trans error
      exact ⟨redo, rfl, by rw [terms, executed]; rfl⟩

/-- Number of records that are no PAD. -/
def countRecords (records : List Record) : Nat := records.countP (·.body ≠ .pad)

theorem firstSeq_eq_none {records : List Record} (missing : firstSeq records = none) :
    countRecords records = 0 := by
  induction records with
  | nil => rfl
  | cons record records ih =>
      simp only [firstSeq] at missing
      by_cases pad : record.body = .pad
      · rw [if_neg (not_not.mpr pad)] at missing
        simpa [countRecords, pad] using ih missing
      · rw [if_pos pad] at missing
        cases missing

/-- The oldest of the records in sequence, counted from the newest. -/
theorem inSequence_count {records : List Record} {seqno oldest : Nat}
    (sequence : InSequence records seqno) (found : firstSeq records.reverse = some oldest) :
    (oldest + countRecords records) % 4294967296 = (seqno + 1) % 4294967296 := by
  induction records generalizing seqno with
  | nil => cases found
  | cons record records ih =>
      rw [List.reverse_cons, firstSeq_append] at found
      rcases sequence with ⟨pad, sequence⟩ | ⟨noPad, rfl, sequence⟩
      · have lone : firstSeq [record] = none := by simp [firstSeq, pad]
        rw [lone, Option.or_none] at found
        simpa [countRecords, pad] using ih sequence found
      · have more : countRecords (record :: records) = countRecords records + 1 := by
          simp [countRecords, noPad]
        have lone : firstSeq [record] = some record.seq := by simp [firstSeq, noPad]
        rw [lone] at found
        cases older : firstSeq records.reverse with
        | none =>
            rw [older, Option.none_or] at found
            obtain rfl := Option.some.inj found
            have none := firstSeq_eq_none older
            unfold countRecords at none more
            rw [List.countP_reverse] at none
            unfold countRecords
            rw [more, none]
        | some first =>
            rw [older, Option.some_or] at found
            obtain rfl := Option.some.inj found
            have inner := ih sequence older
            rw [more]
            unfold seqPred at inner
            omega

theorem Chain.countRecords_le {offset stop : Nat} {records : List Record}
    (chain : Chain area offset records stop) : countRecords records ≤ total records := by
  induction chain with
  | nil => rfl
  | cons inside positive fits fwd rev rest ih =>
      rw [total_cons]
      unfold countRecords at *
      rw [List.countP_cons]
      split <;> omega

theorem seqAfter_first {records : List Record} {seqno next first : Nat}
    (order : seqAfter records seqno = some next) (found : firstSeq records = some first) :
    first = seqno := by
  induction records with
  | nil => cases found
  | cons record records ih =>
      simp only [seqAfter] at order
      simp only [firstSeq] at found
      by_cases pad : record.body = .pad
      · rw [if_neg (not_not.mpr pad)] at order found
        exact ih order found
      · rw [if_pos pad] at order found
        obtain rfl := Option.some.inj found
        by_cases same : record.seq = seqno
        · exact same
        · rw [if_pos same] at order
          cases order

/-- The sequence numbers never run all the way round the ring. -/
theorem Ring.gather_whole (ring : Ring area state start nominal between front)
    (range : Nominal nominal (between ++ front) seqno next) :
    (gather (nominal ++ (between ++ front)).reverse (seqPred (seqSucc seqno))).1 ≠ none := by
  intro succeeds
  obtain ⟨init, final, nominalEq, noPad⟩ := range.ending
  have present : ∃ first, firstSeq nominal = some first := by
    cases missing : firstSeq nominal with
    | some first => exact ⟨first, rfl⟩
    | none =>
        have count := firstSeq_eq_none missing
        rw [nominalEq] at count
        simp [countRecords, noPad] at count
  obtain ⟨first, found⟩ := present
  have counted := inSequence_count (inSequence_of_gather succeeds)
    (by rw [List.reverse_reverse, firstSeq_append, found, Option.some_or])
  obtain rfl := seqAfter_first range.order found
  have positive : 0 < countRecords (nominal ++ (between ++ front)).reverse := by
    unfold countRecords
    rw [List.countP_reverse, nominalEq]
    simp [noPad]
  have bound : countRecords (nominal ++ (between ++ front)).reverse ≤ 128 * 8388608 := by
    have upper := ring.sane.upper
    have lower := ring.sane.lower
    have few := ring.chain.countRecords_le
    rw [ring.whole] at few
    unfold countRecords at few ⊢
    rw [List.countP_reverse]
    simp only [largeblockSize] at upper
    omega
  unfold seqPred seqSucc at counted
  omega

/-- An extended range that starts at `first_offset` is the nominal range, unless the
code mistakes it for the whole area. -/
theorem Ring.stage2_first (ring : Ring area state start nominal between [])
    (range : Nominal nominal (between ++ []) seqno next)
    (done : Stage1Done area state after start nominal seqno)
    (enough : 2 * (nominal ++ (between ++ [])).length ≤ fuel)
    {offset : Nat} (sync : syncOffset nominal.reverse = some offset)
    (placed : start ≠ state.firstOffset ∨
      state.firstOffset < area.walk start (total nominal)) :
    ∃ redo, recoverStage2 area fuel after = .done (none, redo) ∧
      (redo.collected, redo.executed) = ([], nominal.filter (selected [])) := by
  obtain ⟨requested, offsetEq⟩ := ring.requested done sync
  obtain ⟨chain, chainBetween, chainFront⟩ := ring.cut
  have names : area.Names after.firstOffset start := done.firstOffset ▸ ring.names
  have nonempty : nominal ≠ [] := by
    obtain ⟨_, _, same, _⟩ := range.ending
    simp [same]
  have nominalLength := List.length_pos_of_ne_nil nonempty
  have whole := ring.whole
  have betweenPositive := chainBetween.total_pos (by simpa using range.nonempty)
  simp only [total_append, total_nil] at whole
  simp only [List.length_append, List.length_nil] at enough
  have atStart : after.stage2Offset = start := offsetEq.trans chainFront.stop_of_nil.symm
  rw [← done.nextOffset] at chain placed
  rw [← done.firstOffset] at placed
  obtain ⟨redo, ran, collected, executed⟩ := @recoverStage2_extended area after [] nominal fuel
    requested (.embedded ring.inside names (by rw [atStart]; exact .nil start)
      (by rw [atStart]; exact chain) (by rw [total_nil]; omega) (by rw [atStart]; exact placed))
    nonempty (by simp only [List.length_nil]; omega)
  refine ⟨redo, ran, ?_⟩
  rw [collected, executed]
  rfl

/-- In a wrapped range the code mistakes `first_offset` for the other end of the
area: it collects backwards all the way round and fails. -/
theorem Ring.stage2_first_wrapped (ring : Ring area state start nominal between [])
    (range : Nominal nominal (between ++ []) seqno next)
    (done : Stage1Done area state after start nominal seqno)
    (enough : 2 * (nominal ++ (between ++ [])).length ≤ fuel)
    {offset : Nat} (sync : syncOffset nominal.reverse = some offset)
    (spelled : state.firstOffset = start)
    (wrapped : area.walk start (total nominal) < state.firstOffset) :
    ∃ errno redo, recoverStage2 area fuel after = .done (some errno, redo) := by
  obtain ⟨requested, offsetEq⟩ := ring.requested done sync
  obtain ⟨chain, chainBetween, chainFront⟩ := ring.cut
  have nonempty : nominal ≠ [] := by
    obtain ⟨_, _, same, _⟩ := range.ending
    simp [same]
  have betweenPositive := chainBetween.total_pos (by simpa using range.nonempty)
  have whole := ring.whole
  simp only [total_append, total_nil] at whole
  have atStart : after.stage2Offset = start := offsetEq.trans chainFront.stop_of_nil.symm
  have names : area.Names after.firstOffset start := done.firstOffset ▸ ring.names
  obtain ⟨spanEq, apart⟩ := Area.span_names ring.sane ring.inside names
    (chain.total_pos nonempty) (by omega)
  rw [← done.nextOffset] at spanEq apart wrapped
  rw [← spelled, ← done.firstOffset] at atStart
  rw [← done.firstOffset] at wrapped
  have extended : extendedRange area after.firstOffset after.nextOffset after.stage2Offset =
      (true, 0) := by
    unfold extendedRange
    rw [if_neg (by omega), if_neg (by omega), if_neg (by omega), atStart, Int.sub_self]
  have collected := @collectLoop_chain area _ requested.inside _ after.firstOffset start
    (seqPred after.stage2Seqno) fuel {} names (by simp [nonempty])
    (by rw [atStart, done.firstOffset, spelled]; exact ring.chain) ring.whole.le (by omega)
  have failed := (collectAll_gather (area.place after.stage2Offset
    (nominal ++ (between ++ []))).reverse (seqPred after.stage2Seqno) {}).1
  rw [List.map_reverse, area.map_place, done.seqno] at failed
  have fails := ring.gather_whole range
  rw [← failed, ← done.seqno] at fails
  have limit := ring.sane.limit_eq
  rw [recoverStage2_eq requested apart spanEq (by omega) extended, if_pos rfl, collected]
  generalize collectAll (area.place after.stage2Offset (nominal ++ (between ++ []))).reverse
    (seqPred after.stage2Seqno) {} = result at fails
  obtain ⟨_ | errno, redo⟩ := result
  · exact absurd rfl fails
  · exact ⟨errno, redo, rfl⟩

/-- An extended range that starts at `last_offset` and covers the whole area is
taken for an empty one if the nominal range is in one piece. -/
theorem Ring.stage2_last (ring : Ring area state start nominal [] front)
    (range : Nominal nominal ([] ++ front) seqno next)
    (done : Stage1Done area state after start nominal seqno)
    (enough : 2 * (nominal ++ ([] ++ front)).length ≤ fuel)
    {offset : Nat} (sync : syncOffset nominal.reverse = some offset)
    (straight : state.firstOffset < area.walk start (total nominal)) :
    recoverStage2 area fuel after = .done (none, {}) := by
  obtain ⟨requested, offsetEq⟩ := ring.requested done sync
  obtain ⟨chain, _, chainFront⟩ := ring.cut
  have nonempty : nominal ≠ [] := by
    obtain ⟨_, _, same, _⟩ := range.ending
    simp [same]
  have frontPositive := chainFront.total_pos (by simpa using range.nonempty)
  have whole := ring.whole
  simp only [total_append, total_nil] at whole
  have names : area.Names after.firstOffset start := done.firstOffset ▸ ring.names
  have positive := chain.total_pos nonempty
  obtain ⟨spanEq, apart⟩ := Area.span_names ring.sane ring.inside names positive (by omega)
  rw [← done.nextOffset] at spanEq apart straight
  rw [← done.firstOffset] at straight
  have atLast : after.stage2Offset = after.nextOffset := by
    rw [offsetEq, done.nextOffset, total_nil, Nat.add_zero]
  have straightSpan : after.nextOffset - after.firstOffset = total nominal := by
    unfold Area.span at spanEq
    rwa [if_pos straight.le] at spanEq
  have extended : extendedRange area after.firstOffset after.nextOffset after.stage2Offset =
      (false, -((total nominal : Nat) : Int)) := by
    unfold extendedRange
    rw [if_pos straight, if_neg (by omega), if_neg (by omega), atLast, ← straightSpan]
    ext1
    · rfl
    · dsimp only
      omega
  have limit := ring.sane.limit_eq
  have someFuel : 0 < fuel := by
    have := List.length_pos_of_ne_nil nonempty
    simp only [List.length_append] at enough
    omega
  rw [recoverStage2_eq requested apart spanEq (by omega) extended]
  simp only [Bool.false_eq_true, if_false, Outcome.bind]
  obtain ⟨fuel, rfl⟩ := Nat.exists_eq_succ_of_ne_zero someFuel.ne'
  simp [redoLoop, Outcome.kkassert]

/-- If the nominal range wraps the same extended range is scanned backwards, and
running it fails an assertion. -/
theorem Ring.stage2_last_wrapped (ring : Ring area state start nominal [] front)
    (range : Nominal nominal ([] ++ front) seqno next)
    (done : Stage1Done area state after start nominal seqno)
    (enough : 2 * (nominal ++ ([] ++ front)).length ≤ fuel)
    {offset : Nat} (sync : syncOffset nominal.reverse = some offset)
    (wrapped : area.walk start (total nominal) < state.firstOffset) :
    recoverStage2 area fuel after = .panic ∨
      ∃ errno redo, recoverStage2 area fuel after = .done (some errno, redo) := by
  obtain ⟨requested, offsetEq⟩ := ring.requested done sync
  obtain ⟨chain, _, chainFront⟩ := ring.cut
  have nonempty : nominal ≠ [] := by
    obtain ⟨_, _, same, _⟩ := range.ending
    simp [same]
  have frontNonempty : front ≠ [] := by simpa using range.nonempty
  have frontPositive := chainFront.total_pos frontNonempty
  have whole := ring.whole
  simp only [total_append, total_nil] at whole
  simp only [List.length_append, List.length_nil] at enough
  have names : area.Names after.firstOffset start := done.firstOffset ▸ ring.names
  have positive := chain.total_pos nonempty
  obtain ⟨spanEq, apart⟩ := Area.span_names ring.sane ring.inside names positive (by omega)
  rw [← done.nextOffset] at spanEq apart wrapped
  rw [← done.firstOffset] at wrapped
  have atLast : after.stage2Offset = after.nextOffset := by
    rw [offsetEq, done.nextOffset, total_nil, Nat.add_zero]
  have extended : extendedRange area after.firstOffset after.nextOffset after.stage2Offset =
      (true, (after.firstOffset : Int) - after.nextOffset) := by
    unfold extendedRange
    rw [if_neg (by omega), if_neg (by omega), if_neg (by omega), atLast]
  rw [← offsetEq] at chainFront
  have collected := @collectLoop_chain area _ requested.inside front after.firstOffset start
    (seqPred after.stage2Seqno) fuel {} names frontNonempty chainFront (by omega) (by omega)
  have limit := ring.sane.limit_eq
  have someFuel : 0 < fuel := by
    have := List.length_pos_of_ne_nil nonempty
    omega
  obtain ⟨fuel, rfl⟩ := Nat.exists_eq_succ_of_ne_zero someFuel.ne'
  rw [recoverStage2_eq requested apart spanEq (by omega) extended, if_pos rfl, collected]
  obtain ⟨_ | errno, redo⟩ := collectAll (area.place after.stage2Offset front).reverse
    (seqPred after.stage2Seqno) {}
  · left
    simp only [Outcome.bind, redoLoop]
    rw [if_pos (by omega), atLast]
    simp [Outcome.kkassert]
  · exact .inr ⟨errno, redo, rfl⟩

end Ring

/-! ## Two placements -/

theorem SameRecords.length {first second : List Record} (same : SameRecords first second) :
    first.length = second.length := by
  simpa using congrArg List.length same

theorem SameRecords.nil_iff {first second : List Record} (same : SameRecords first second) :
    first = [] ↔ second = [] := by
  rw [← List.length_eq_zero_iff, same.length, List.length_eq_zero_iff]

/-- What the nominal range is does not depend on the placement. -/
theorem Nominal.same {nominal rest nominal' rest' : List Record} {seqno next : Nat}
    (range : Nominal nominal rest seqno next) (sameNominal : SameRecords nominal nominal')
    (sameRest : SameRecords rest rest') : Nominal nominal' rest' seqno next := by
  obtain ⟨back, order, ⟨init, final, nominalEq, noPad⟩, ⟨other, found, breaks⟩, nonempty⟩ := range
  refine ⟨?_, ?_, ?_, ⟨other, ?_, breaks⟩, fun empty => nonempty (sameRest.nil_iff.mpr empty)⟩
  · rw [← back]
    exact ((sameNominal.append sameRest).reverse.eq _ firstSeq_unplaced).symm
  · rw [← order]
    exact (sameNominal.eq (seqAfter · _) (seqAfter_unplaced _)).symm
  · unfold SameRecords at sameNominal
    rw [nominalEq, List.map_append, eq_comm, List.map_eq_append_iff] at sameNominal
    obtain ⟨init', last, rfl, _, lastEq⟩ := sameNominal
    obtain ⟨final', rfl, finalEq⟩ := List.map_eq_singleton_iff.mp lastEq
    refine ⟨init', final', rfl, ?_⟩
    rwa [ne_eq, ← final.pad_unplaced, ← finalEq, Record.pad_unplaced] at noPad
  · rw [← found]
    exact ((sameRest.append sameNominal).eq _ firstSeq_unplaced).symm

/-- The report of stage 2, behind the records stage 1 applied. -/
def reportStage2 (applied : List Record) (result : Outcome (Option Errno × Redo)) :
    Outcome Report :=
  result.bind fun (error, redo) => .done
    { applied, collected := redo.collected, executed := redo.executed, error }

/-- Recovery on a ring is stage 2 after what stage 1 leaves behind. -/
theorem Ring.recover_eq {area : Area} {state : Recovery} {start seqno next fuel : Nat}
    {nominal between front : List Record} (ring : Ring area state start nominal between front)
    (range : Nominal nominal (between ++ front) seqno next)
    (enough : 2 * (nominal ++ (between ++ front)).length ≤ fuel) :
    (∃ errno, (undoReport nominal.reverse).1 = some errno ∧
      recover area fuel state = .done
        { applied := state.applied ++ (undoReport nominal.reverse).2, collected := []
          executed := [], error := some errno }) ∨
    ((undoReport nominal.reverse).1 = none ∧
      ∃ after, Stage1Done area state after start nominal seqno ∧
        recover area fuel state =
          reportStage2 (state.applied ++ (undoReport nominal.reverse).2)
            (recoverStage2 area fuel after)) := by
  obtain ⟨after, ran, applied, succeeds⟩ := ring.stage1 range enough
  unfold recover
  rw [ran, ← applied]
  cases code : (undoReport nominal.reverse).1 with
  | some errno => exact .inl ⟨errno, rfl, rfl⟩
  | none => exact .inr ⟨rfl, after, succeeds code, rfl⟩

/-- The same records, in one piece and wrapped. -/
structure Rotated (straight wrapped : Area) (state state' : Recovery)
    (start start' seqno next fuel : Nat)
    (nominal between front nominal' between' front' : List Record) : Prop where
  ring : Ring straight state start nominal between front
  ring' : Ring wrapped state' start' nominal' between' front'
  range : Nominal nominal (between ++ front) seqno next
  sameNominal : SameRecords nominal nominal'
  sameBetween : SameRecords between between'
  sameFront : SameRecords front front'
  sameApplied : state.applied = state'.applied
  onePiece : state.firstOffset < straight.walk start (total nominal)
  twoPieces : wrapped.walk start' (total nominal') < state'.firstOffset
  enough : 2 * (nominal ++ (between ++ front)).length ≤ fuel

namespace Rotated

variable {straight wrapped : Area} {state state' : Recovery} {start start' seqno next fuel : Nat}
  {nominal between front nominal' between' front' : List Record}

theorem range' (rotated : Rotated straight wrapped state state' start start' seqno next fuel
    nominal between front nominal' between' front') :
    Nominal nominal' (between' ++ front') seqno next :=
  rotated.range.same rotated.sameNominal (rotated.sameBetween.append rotated.sameFront)

theorem enough' (rotated : Rotated straight wrapped state state' start start' seqno next fuel
    nominal between front nominal' between' front') :
    2 * (nominal' ++ (between' ++ front')).length ≤ fuel := by
  have same := rotated.sameNominal.append (rotated.sameBetween.append rotated.sameFront)
  rw [← same.length]
  exact rotated.enough

theorem undoReport_eq (rotated : Rotated straight wrapped state state' start start' seqno next
    fuel nominal between front nominal' between' front') :
    undoReport nominal'.reverse = undoReport nominal.reverse :=
  (rotated.sameNominal.reverse.eq undoReport undoReport_unplaced).symm

theorem sync_isSome (rotated : Rotated straight wrapped state state' start start' seqno next
    fuel nominal between front nominal' between' front') :
    (syncOffset nominal'.reverse).isSome = (syncOffset nominal.reverse).isSome :=
  (rotated.sameNominal.reverse.eq (fun records => (syncOffset records).isSome)
    syncOffset_unplaced).symm

/-- An UNDO record that stage 1 refuses ends recovery in both placements. -/
theorem refused_same (rotated : Rotated straight wrapped state state' start start' seqno next
    fuel nominal between front nominal' between' front')
    (refused : (undoReport nominal.reverse).1 ≠ none) :
    recover straight fuel state = recover wrapped fuel state' := by
  have undo := rotated.undoReport_eq
  rcases rotated.ring.recover_eq rotated.range rotated.enough with ⟨errno, code, ran⟩ | ⟨code, _⟩
  · rcases rotated.ring'.recover_eq rotated.range' rotated.enough' with
      ⟨errno', code', ran'⟩ | ⟨code', _⟩
    · rw [undo, code] at code'
      obtain rfl := Option.some.inj code'
      rw [ran, ran', undo, rotated.sameApplied]
    · exact absurd (undo ▸ code') refused
  · exact absurd code refused

/-- Otherwise both placements come to stage 2. -/
theorem stage2 (rotated : Rotated straight wrapped state state' start start' seqno next fuel
    nominal between front nominal' between' front')
    (accepted : (undoReport nominal.reverse).1 = none) :
    ∃ after after' applied, Stage1Done straight state after start nominal seqno ∧
      Stage1Done wrapped state' after' start' nominal' seqno ∧
      recover straight fuel state = reportStage2 applied (recoverStage2 straight fuel after) ∧
      recover wrapped fuel state' = reportStage2 applied (recoverStage2 wrapped fuel after') := by
  have undo := rotated.undoReport_eq
  rcases rotated.ring.recover_eq rotated.range rotated.enough with
    ⟨errno, code, _⟩ | ⟨_, after, done, ran⟩
  · rw [accepted] at code
    cases code
  rcases rotated.ring'.recover_eq rotated.range' rotated.enough' with
    ⟨errno, code, _⟩ | ⟨_, after', done', ran'⟩
  · rw [undo, accepted] at code
    cases code
  rw [undo, ← rotated.sameApplied] at ran'
  exact ⟨after, after', _, done, done', ran, ran'⟩

theorem idle_same (rotated : Rotated straight wrapped state state' start start' seqno next fuel
    nominal between front nominal' between' front')
    (accepted : (undoReport nominal.reverse).1 = none)
    (quiet : syncOffset nominal.reverse = none) :
    recover straight fuel state = recover wrapped fuel state' := by
  obtain ⟨after, after', applied, done, done', ran, ran'⟩ := rotated.stage2 accepted
  have quiet' : syncOffset nominal'.reverse = none := by
    have none := rotated.sync_isSome
    rw [quiet] at none
    simpa using none
  rw [ran, ran', done.stage2_idle quiet, done'.stage2_idle quiet']

theorem sync' (rotated : Rotated straight wrapped state state' start start' seqno next fuel
    nominal between front nominal' between' front') {offset : Nat}
    (sync : syncOffset nominal.reverse = some offset) :
    ∃ offset', syncOffset nominal'.reverse = some offset' := by
  rw [← Option.isSome_iff_exists, rotated.sync_isSome, sync]
  rfl

/-- An extended range in front of the nominal range is found in both placements. -/
theorem outside_same (rotated : Rotated straight wrapped state state' start start' seqno next
    fuel nominal between front nominal' between' front')
    (accepted : (undoReport nominal.reverse).1 = none) {offset : Nat}
    (sync : syncOffset nominal.reverse = some offset) (betweenNonempty : between ≠ [])
    (frontNonempty : front ≠ []) :
    recover straight fuel state = recover wrapped fuel state' := by
  obtain ⟨after, after', applied, done, done', ran, ran'⟩ := rotated.stage2 accepted
  obtain ⟨offset', sync'⟩ := rotated.sync' sync
  obtain ⟨redo, ran2, lists⟩ := rotated.ring.stage2_outside rotated.range done rotated.enough sync
    betweenNonempty frontNonempty
  obtain ⟨redo', ran2', lists'⟩ := rotated.ring'.stage2_outside rotated.range' done'
    rotated.enough' sync' (fun empty => betweenNonempty (rotated.sameBetween.nil_iff.mpr empty))
    (fun empty => frontNonempty (rotated.sameFront.nil_iff.mpr empty))
  rw [← redoReport_same rotated.sameFront rotated.sameNominal] at ran2' lists'
  obtain ⟨collected, executed⟩ := Prod.mk.inj (lists.trans lists'.symm)
  rw [ran, ran', ran2, ran2']
  simp [reportStage2, Outcome.bind, collected, executed]

/-- If `first_offset` is written as the end of the area it is not mistaken. -/
theorem first_same (rotated : Rotated straight wrapped state state' start start' seqno next fuel
    nominal between [] nominal' between' []) (accepted : (undoReport nominal.reverse).1 = none)
    {offset : Nat} (sync : syncOffset nominal.reverse = some offset)
    (spelled : state'.firstOffset = wrapped.allocOffset) :
    recover straight fuel state = recover wrapped fuel state' := by
  obtain ⟨after, after', applied, done, done', ran, ran'⟩ := rotated.stage2 accepted
  obtain ⟨offset', sync'⟩ := rotated.sync' sync
  have apart : start' ≠ state'.firstOffset := spelled ▸ rotated.ring'.inside.2.ne
  obtain ⟨redo, succeeds, lists⟩ := rotated.ring.stage2_first rotated.range done rotated.enough
    sync (.inr rotated.onePiece)
  obtain ⟨redo', succeeds', lists'⟩ := rotated.ring'.stage2_first rotated.range' done'
    rotated.enough' sync' (.inl apart)
  have runs : nominal.filter (selected []) = nominal'.filter (selected []) := by
    simpa using rotated.sameFront.filter_selected rotated.sameNominal
  rw [runs, ← lists'] at lists
  obtain ⟨collected, executed⟩ := Prod.mk.inj lists
  rw [ran, ran', succeeds, succeeds']
  simp [reportStage2, Outcome.bind, collected, executed]

/-- An extended range that starts with the nominal range is lost if it wraps. -/
theorem first_differs (rotated : Rotated straight wrapped state state' start start' seqno next
    fuel nominal between [] nominal' between' [])
    (accepted : (undoReport nominal.reverse).1 = none) {offset : Nat}
    (sync : syncOffset nominal.reverse = some offset)
    (proper : state'.firstOffset ≠ wrapped.allocOffset) :
    recover straight fuel state ≠ recover wrapped fuel state' := by
  obtain ⟨after, after', applied, done, done', ran, ran'⟩ := rotated.stage2 accepted
  obtain ⟨offset', sync'⟩ := rotated.sync' sync
  obtain ⟨redo, succeeds, _⟩ := rotated.ring.stage2_first rotated.range done rotated.enough
    sync (.inr rotated.onePiece)
  have atStart : state'.firstOffset = start' := by
    rcases rotated.ring'.names with same | ⟨same, _⟩
    · exact same
    · exact absurd same proper
  obtain ⟨errno, redo', fails⟩ := rotated.ring'.stage2_first_wrapped rotated.range' done'
    rotated.enough' sync' atStart rotated.twoPieces
  rw [ran, ran', succeeds, fails]
  simp [reportStage2, Outcome.bind]

/-- So is one that starts at `last_offset`. -/
theorem last_differs (rotated : Rotated straight wrapped state state' start start' seqno next
    fuel nominal [] front nominal' [] front')
    (accepted : (undoReport nominal.reverse).1 = none) {offset : Nat}
    (sync : syncOffset nominal.reverse = some offset) :
    recover straight fuel state ≠ recover wrapped fuel state' := by
  obtain ⟨after, after', applied, done, done', ran, ran'⟩ := rotated.stage2 accepted
  obtain ⟨offset', sync'⟩ := rotated.sync' sync
  rw [ran, ran',
    rotated.ring.stage2_last rotated.range done rotated.enough sync rotated.onePiece]
  rcases rotated.ring'.stage2_last_wrapped rotated.range' done' rotated.enough' sync'
    rotated.twoPieces with panics | ⟨errno, redo, fails⟩
  · rw [panics]
    simp [reportStage2, Outcome.bind]
  · rw [fails]
    simp [reportStage2, Outcome.bind]

end Rotated

/-- Recovery reports the same for both placements exactly when the extended range
does not start at `last_offset`, nor at `first_offset` where the wrapped range has
a proper start; or when stage 2 is not reached. -/
theorem recover_rotation_iff {straight wrapped : Area} {state state' : Recovery}
    {start start' seqno next fuel : Nat}
    {nominal between front nominal' between' front' : List Record}
    (rotated : Rotated straight wrapped state state' start start' seqno next fuel nominal between
      front nominal' between' front') :
    recover straight fuel state = recover wrapped fuel state' ↔
      syncOffset nominal.reverse = none ∨ (undoReport nominal.reverse).1 ≠ none ∨
        (between ≠ [] ∧ (front ≠ [] ∨ state'.firstOffset = wrapped.allocOffset)) := by
  by_cases refused : (undoReport nominal.reverse).1 ≠ none
  · exact iff_of_true (rotated.refused_same refused) (.inr (.inl refused))
  have accepted := not_not.mp refused
  cases sync : syncOffset nominal.reverse with
  | none => exact iff_of_true (rotated.idle_same accepted sync) (.inl rfl)
  | some offset =>
      by_cases atLast : between = []
      · obtain rfl := rotated.sameBetween.nil_iff.mp atLast
        subst atLast
        exact iff_of_false (rotated.last_differs accepted sync) (by simp [accepted])
      by_cases atFirst : front = []
      · obtain rfl := rotated.sameFront.nil_iff.mp atFirst
        subst atFirst
        by_cases spelled : state'.firstOffset = wrapped.allocOffset
        · exact iff_of_true (rotated.first_same accepted sync spelled)
            (.inr (.inr ⟨atLast, .inr spelled⟩))
        · exact iff_of_false (rotated.first_differs accepted sync spelled)
            (by simp [accepted, spelled])
      · exact iff_of_true (rotated.outside_same accepted sync atLast atFirst)
          (.inr (.inr ⟨atLast, .inl atFirst⟩))

/-! ## A FIFO of one big-block -/

/-- Blocks as `newfs_hammer` leaves them. -/
def dummies : Nat → Nat → List Record
  | 0, _ => []
  | blocks + 1, seq => { size := undoAlign, seq, body := .dummy } :: dummies blocks (seq + 1)

@[simp]
theorem total_dummies (blocks seq : Nat) : total (dummies blocks seq) = 512 * blocks := by
  induction blocks generalizing seq with
  | zero => rfl
  | succ blocks ih =>
      rw [dummies, total_cons, ih]
      simp only [undoAlign]
      omega

@[simp]
theorem length_dummies (blocks seq : Nat) : (dummies blocks seq).length = blocks := by
  induction blocks generalizing seq with
  | zero => rfl
  | succ blocks ih => rw [dummies, List.length_cons, ih]

theorem dummies_add (blocks more seq : Nat) :
    dummies (blocks + more) seq = dummies blocks seq ++ dummies more (seq + blocks) := by
  induction blocks generalizing seq with
  | zero => rw [Nat.zero_add]; rfl
  | succ blocks ih =>
      rw [Nat.succ_add, dummies, dummies, ih, List.cons_append, Nat.add_assoc, Nat.add_comm 1]

theorem dummies_laid {area : Area} {blocks pos seq : Nat}
    (laid : ∀ index < blocks, Laid area.crc32 area.mem (area.spot (pos + 512 * index))
      { size := undoAlign, seq := seq + index, body := .dummy }) :
    area.LaidFrom pos (dummies blocks seq) := by
  induction blocks generalizing pos seq with
  | zero => trivial
  | succ blocks ih =>
      refine ⟨laid 0 (Nat.succ_pos _), by simp, ih fun index below => ?_⟩
      have next := laid (index + 1) (by omega)
      rw [show pos + 512 * (index + 1) = pos + undoAlign + 512 * index by
        simp only [undoAlign]; omega, show seq + (index + 1) = seq + 1 + index by omega] at next
      exact next

/-- The bytes `flushedRing` saves, as many as fit into one record. -/
def savedBytes : List UInt8 := List.replicate 472 0

theorem length_savedBytes : savedBytes.length = 472 := List.length_replicate

def savedRecord : Record :=
  { size := 512, seq := 16384, body := .undo (zoneEncode 2 0) 472 savedBytes }

/-- The REDO_SYNC behind it. -/
def syncRecord (ext : Nat) : Record :=
  { size := 64, seq := 16385, body := .redo 0 ext 0 redoSync 0 0 [] }

def padRecord : Record := { size := 448, seq := 0, body := .pad }

/-- A formatted big-block whose first sequence number is `seq`, with one UNDO at the
block `first` bytes into it and a REDO_SYNC in the block behind. -/
def flushedRing (seq first ext : Nat) : Area :=
  let crc32 := fun _ => 0
  let syncPlace := undoBase + (first + 512) % largeblockSize
  { crc32
    mem := putPad (putRedo crc32 (putUndo crc32
      (formatLoop crc32 16384 (fun _ => 0) undoBase seq)
      (undoBase + first) 512 16384 (zoneEncode 2 0) savedBytes)
      syncPlace 64 16385 { objid := 0, localization := 0, flags := redoSync, mtime := 0 } ext 0 [])
      (syncPlace + 64) 448
    allocOffset := undoBase + largeblockSize }

theorem flushedRing_buffered (seq first ext : Nat) : (flushedRing seq first ext).Buffered :=
  ⟨⟨by change _ < undoBase + largeblockSize; decide,
    by change undoBase + largeblockSize ≤ _; decide⟩,
    by change (undoBase + largeblockSize - undoBase) % bufsize = 0; decide⟩

theorem flushedRing_spot (seq first ext pos : Nat) :
    (flushedRing seq first ext).spot pos = undoBase + pos % 8388608 := by
  unfold Area.spot
  rw [show (flushedRing seq first ext).allocOffset = undoBase + 8388608 from rfl,
    Nat.add_sub_cancel_left]

theorem flushedRing_walk (seq first ext distance : Nat) :
    (flushedRing seq first ext).walk (undoBase + first) distance =
      undoBase + (first + distance) % 8388608 := by
  unfold Area.walk
  rw [show (flushedRing seq first ext).allocOffset = undoBase + 8388608 from rfl,
    Nat.add_sub_cancel_left, Nat.add_sub_cancel_left]

/-- The two layouts of the ring. -/
def Layout (seq first : Nat) : Prop := (seq = 0 ∧ first = 0) ∨ (seq = 1 ∧ first = 8388096)

theorem Layout.laid {seq first ext : Nat} (layout : Layout seq first) (small : ext < 2 ^ 64) :
    (flushedRing seq first ext).LaidFrom first
      ([savedRecord, syncRecord ext] ++ padRecord :: dummies 16382 2) := by
  have base : undoBase % 512 = 0 := by decide
  have firstEq : first % 8388608 = first := by
    rcases layout with ⟨_, rfl⟩ | ⟨_, rfl⟩ <;> rfl
  have aligned : first % 512 = 0 := by
    rcases layout with ⟨_, rfl⟩ | ⟨_, rfl⟩ <;> rfl
  -- the three writes
  obtain ⟨format, formatEq⟩ : ∃ mem : Mem,
    mem = formatLoop (fun _ => 0) 16384 (fun _ => 0) undoBase seq := ⟨_, rfl⟩
  obtain ⟨saved, savedEq⟩ : ∃ mem : Mem, mem = putUndo (fun _ => 0) format (undoBase + first) 512
    16384 (zoneEncode 2 0) savedBytes := ⟨_, rfl⟩
  obtain ⟨synced, syncedEq⟩ : ∃ mem : Mem, mem = putRedo (fun _ => 0) saved
    (undoBase + (first + 512) % 8388608) 64 16385
    { objid := 0, localization := 0, flags := redoSync, mtime := 0 } ext 0 [] := ⟨_, rfl⟩
  have memEq : (flushedRing seq first ext).mem =
      putPad synced (undoBase + (first + 512) % 8388608 + 64) 448 := by
    rw [syncedEq, savedEq, formatEq]
    rfl
  have agreeSynced {lo hi : Nat} (apart : hi ≤ undoBase + (first + 512) % 8388608 + 64 ∨
      undoBase + (first + 512) % 8388608 + 512 ≤ lo) :
      Mem.AgreeOn (flushedRing seq first ext).mem synced lo hi := by
    rw [memEq]
    exact putPad_agree (by decide) (by omega)
  have agreeSaved {lo hi : Nat} (apart : hi ≤ undoBase + (first + 512) % 8388608 ∨
      undoBase + (first + 512) % 8388608 + 512 ≤ lo) :
      Mem.AgreeOn (flushedRing seq first ext).mem saved lo hi := by
    refine (agreeSynced (by omega)).trans ?_
    rw [syncedEq]
    exact putRedo_agree (by decide) (by omega)
  have agreeFormat {lo hi : Nat} (apart : hi ≤ undoBase + (first + 512) % 8388608 ∨
      undoBase + (first + 512) % 8388608 + 512 ≤ lo)
      (apart' : hi ≤ undoBase + first ∨ undoBase + first + 512 ≤ lo) :
      Mem.AgreeOn (flushedRing seq first ext).mem format lo hi := by
    refine (agreeSaved apart).trans ?_
    rw [savedEq]
    exact putUndo_agree (by rw [length_savedBytes]) apart'
  refine ⟨?_, fun _ => by simp [savedRecord], ?_, fun _ => by simp [syncRecord], ?_, ?_, ?_⟩
  · obtain ⟨rest, take, length, laid⟩ := @putUndo_laid (fun _ => 0) format (undoBase + first) 512
      16384 (zoneEncode 2 0) savedBytes (by simp only [undoAlign]; omega)
      (by rw [length_savedBytes]) (by decide)
    rw [length_savedBytes] at take
    obtain rfl : rest = savedBytes := by
      rw [← take, List.take_of_length_le (by omega)]
    rw [length_savedBytes, ← savedEq] at laid
    rw [flushedRing_spot, firstEq]
    refine laid.congr (agreeSaved ?_)
    rcases layout with ⟨_, rfl⟩ | ⟨_, rfl⟩ <;> dsimp only <;> omega
  · obtain ⟨rest, _, length, laid⟩ := @putRedo_laid (fun _ => 0) saved
      (undoBase + (first + 512) % 8388608) 64 16385
      { objid := 0, localization := 0, flags := redoSync, mtime := 0 } ext 0 []
      (by simp only [undoAlign]; omega) (by decide) (by decide) (by decide)
    obtain rfl : rest = [] := List.eq_nil_of_length_eq_zero (by omega)
    have bodyEq : RedoHead.stored { objid := 0, localization := 0, flags := redoSync, mtime := 0 }
        ext (0 : Nat) [] = (syncRecord ext).body := by
      unfold RedoHead.stored syncRecord
      rw [Nat.mod_eq_of_lt small]
      rfl
    rw [bodyEq, ← syncedEq] at laid
    rw [flushedRing_spot]
    exact laid.congr (agreeSynced (.inl (by dsimp only; omega)))
  · have laid := @putPad_laid (fun _ => 0) synced
      (undoBase + (first + 512) % 8388608 + 64) 448 (by simp only [undoAlign]; omega) (by decide)
      (by decide)
    rw [← memEq] at laid
    have place : (flushedRing seq first ext).spot (first + savedRecord.size +
        (syncRecord ext).size) = undoBase + (first + 512) % 8388608 + 64 := by
      rw [flushedRing_spot]
      simp only [savedRecord, syncRecord]
      omega
    rw [place]
    exact laid
  · intro begins
    simp only [savedRecord, syncRecord, undoAlign] at begins
    omega
  · refine dummies_laid fun index below => ?_
    -- the block of the big-block that becomes dummy number `index`
    obtain ⟨block, blockEq, seqEq⟩ : ∃ block, (first + 1024 + 512 * index) % 8388608 = block * 512 ∧
        seq + block = 2 + index := by
      rcases layout with ⟨rfl, rfl⟩ | ⟨rfl, rfl⟩
      · exact ⟨index + 2, by omega, by omega⟩
      · exact ⟨index + 1, by omega, by omega⟩
    have laid := @formatLoop_laid (fun _ => 0) 16384 block (fun _ => 0) undoBase seq
      (by decide) (by omega)
    rw [← formatEq, seqEq, Nat.mod_eq_of_lt (by omega)] at laid
    have place : (flushedRing seq first ext).spot (first + savedRecord.size +
        (syncRecord ext).size + padRecord.size + 512 * index) = undoBase + block * undoAlign := by
      rw [flushedRing_spot]
      simp only [savedRecord, syncRecord, padRecord, undoAlign]
      rw [← blockEq]
    rw [place]
    refine laid.congr (agreeFormat ?_ ?_) <;> dsimp only [undoAlign] <;>
      rcases layout with ⟨_, rfl⟩ | ⟨_, rfl⟩ <;> omega

/-- Recovery at the UNDO record of `flushedRing`. -/
def flushedState (first : Nat) : Recovery :=
  { image := fun _ => 0, recoveryReq := false, stage2Offset := 0, stage2Seqno := 0
    undoSeqno := 0, firstOffset := undoBase + first
    nextOffset := undoBase + (first + 576) % 8388608, applied := [] }

/-- The REDO_SYNC names the dummy after the first `blocks`, or the UNDO record if
there is none. -/
theorem Layout.ring {seq first blocks more : Nat} (layout : Layout seq first)
    (split : blocks + more = 16382) :
    Ring (flushedRing seq first (undoBase + (first + 1024 + 512 * blocks) % 8388608))
      (flushedState first) (undoBase + first)
      [savedRecord, syncRecord (undoBase + (first + 1024 + 512 * blocks) % 8388608)]
      (padRecord :: dummies blocks 2) (dummies more (2 + blocks)) := by
  have small : undoBase + (first + 1024 + 512 * blocks) % 8388608 < 2 ^ 64 := by
    have top : undoBase + 8388608 < 2 ^ 64 := by decide
    omega
  have laid := layout.laid small
  have below : first < 8388608 := by
    rcases layout with ⟨_, rfl⟩ | ⟨_, rfl⟩ <;> decide
  generalize extEq : undoBase + (first + 1024 + 512 * blocks) % 8388608 = ext at laid ⊢
  have buffered := flushedRing_buffered seq first ext
  have alloc : (flushedRing seq first ext).allocOffset = undoBase + 8388608 := rfl
  have startEq : (flushedRing seq first ext).spot first = undoBase + first := by
    rw [flushedRing_spot, Nat.mod_eq_of_lt below]
  rw [← split, dummies_add, ← List.cons_append] at laid
  have chain := laid.chain buffered.sane buffered
  have whole : total ([savedRecord, syncRecord ext] ++
      (padRecord :: dummies blocks 2 ++ dummies more (2 + blocks))) = 8388608 := by
    simp only [total_append, total_cons, total_nil, total_dummies, savedRecord, syncRecord,
      padRecord]
    omega
  rw [whole, flushedRing_spot _ _ _ (first + 8388608), Nat.add_mod_right,
    ← flushedRing_spot seq first ext, startEq] at chain
  refine ⟨buffered.sane, ⟨by omega, by omega⟩, .inl rfl, ?_, rfl, chain, ?_, ?_⟩
  · rw [alloc]
    simp only [flushedState]
    omega
  · rw [whole, alloc, Nat.add_sub_cancel_left]
  · intro offset sync
    obtain rfl : ext = offset := by
      simpa [syncOffset, savedRecord, syncRecord] using sync
    have distance : total [savedRecord, syncRecord ext] + total (padRecord :: dummies blocks 2) =
        1024 + 512 * blocks := by
      simp only [total_cons, total_nil, total_dummies, savedRecord, syncRecord, padRecord]
      omega
    rw [flushedRing_walk, distance, ← extEq, Nat.add_assoc]

theorem firstSeq_dummies {blocks : Nat} (seq : Nat) (some : 0 < blocks) :
    firstSeq (dummies blocks seq).reverse = Option.some (seq + blocks - 1) := by
  obtain ⟨blocks, rfl⟩ := Nat.exists_eq_succ_of_ne_zero some.ne'
  rw [Nat.succ_eq_add_one, dummies_add blocks 1, List.reverse_append]
  rfl

theorem flushed_nominal {ext blocks more : Nat} (split : blocks + more = 16382) :
    Nominal [savedRecord, syncRecord ext] (padRecord :: dummies blocks 2 ++ dummies more (2 + blocks))
      16383 16386 := by
  rw [List.cons_append, ← dummies_add, split]
  refine ⟨?_, rfl, ⟨[savedRecord], syncRecord ext, rfl, by simp [syncRecord]⟩,
    ⟨2, rfl, by decide⟩, by simp⟩
  have last := firstSeq_dummies 2 (show 0 < 16382 by omega)
  rw [List.reverse_append, List.reverse_cons, firstSeq_append, firstSeq_append, last, Option.some_or,
    Option.some_or]

/-- The two layouts, with the REDO_SYNC naming the same record. -/
theorem flushed_rotated {blocks more : Nat} (split : blocks + more = 16382) :
    Rotated (flushedRing 0 0 (undoBase + (0 + 1024 + 512 * blocks) % 8388608))
      (flushedRing 1 8388096 (undoBase + (8388096 + 1024 + 512 * blocks) % 8388608))
      (flushedState 0) (flushedState 8388096) (undoBase + 0) (undoBase + 8388096) 16383 16386
      32770
      [savedRecord, syncRecord (undoBase + (0 + 1024 + 512 * blocks) % 8388608)]
      (padRecord :: dummies blocks 2) (dummies more (2 + blocks))
      [savedRecord, syncRecord (undoBase + (8388096 + 1024 + 512 * blocks) % 8388608)]
      (padRecord :: dummies blocks 2) (dummies more (2 + blocks)) := by
  have straight : Layout 0 0 := .inl ⟨rfl, rfl⟩
  have wrapped : Layout 1 8388096 := .inr ⟨rfl, rfl⟩
  refine ⟨straight.ring split, wrapped.ring split, flushed_nominal split, rfl, rfl, rfl, rfl, ?_, ?_,
    ?_⟩
  · rw [flushedRing_walk]
    simp [flushedState, savedRecord, syncRecord]
  · rw [flushedRing_walk]
    simp [flushedState, savedRecord, syncRecord]
  · simp only [List.length_append, List.length_cons, List.length_nil, length_dummies]
    omega

theorem flushed_accepted (ext : Nat) :
    (undoReport [savedRecord, syncRecord ext].reverse).1 = none := by
  have saved : savedRecord.refused = none := by
    unfold Record.refused recoverUndo savedRecord
    dsimp only
    rw [if_neg (by decide), if_neg (by decide)]
    rfl
  have sync : (syncRecord ext).refused = none := rfl
  simp [undoReport, saved, sync]

/-- The REDO_SYNC names the UNDO record.  Recovery succeeds in one placement and
not in the other. -/
theorem recover_rotation_fails :
    recover (flushedRing 0 0 undoBase) 32770 (flushedState 0) ≠
      recover (flushedRing 1 8388096 (undoBase + 8388096)) 32770 (flushedState 8388096) := by
  have rotated := @flushed_rotated 16382 0 rfl
  have proper : (flushedState 8388096).firstOffset ≠
      (flushedRing 1 8388096 (undoBase + 8388096)).allocOffset := by
    change undoBase + 8388096 ≠ undoBase + 8388608
    omega
  exact rotated.first_differs (flushed_accepted _) rfl proper

/-- It names the last dummy, and both placements report the same. -/
theorem recover_rotation_succeeds :
    recover (flushedRing 0 0 (undoBase + 8388096)) 32770 (flushedState 0) =
      recover (flushedRing 1 8388096 (undoBase + 8387584)) 32770 (flushedState 8388096) :=
  (recover_rotation_iff (@flushed_rotated 16381 1 rfl)).mpr
    (.inr (.inr ⟨by simp, .inl (by simp [dummies])⟩))

end Dragonfly.Hammer.Fifo
