import Dragonfly.Hammer.Fifo.Select

/-!
# Stage 2 on an extended range

The extended range starts in front of the nominal range, or inside it.  The five
formulas of `hammer_recover_stage2` for its length agree with the layout of the
FIFO except where the range starts exactly at `first_offset` or `last_offset`.
-/

namespace Dragonfly.Hammer.Fifo

open Dragonfly.Lib

/-- Going backwards, the sequence numbers count down from `seqno`. -/
def InSequence : List Record → Nat → Prop
  | [], _ => True
  | record :: records, seqno =>
      (record.body = .pad ∧ InSequence records seqno) ∨
        (record.body ≠ .pad ∧ record.seq = seqno ∧ InSequence records (seqPred seqno))

theorem termKey_pad {record : Record} (pad : record.body = .pad) : record.termKey = none := by
  simp [Record.termKey, pad]

/-- Records in sequence are all collected. -/
theorem collectAll_of_inSequence (placed : List (Nat × Record)) (seqno : Nat) (redo : Redo)
    (sequence : InSequence (placed.map Prod.snd) seqno) :
    collectAll placed seqno redo = (none, collectTerms placed redo) := by
  induction placed generalizing seqno redo with
  | nil => rfl
  | cons head rest ih =>
      obtain ⟨offset, record⟩ := head
      rcases sequence with ⟨pad, sequence⟩ | ⟨noPad, same, sequence⟩
      · simp only [collectAll, collectTerms, recoverRedoRec_of_none (termKey_pad pad)]
        rw [if_neg (not_not.mpr pad)]
        exact ih _ _ sequence
      · simp only [collectAll, collectTerms]
        rw [if_pos noPad, if_neg (not_not.mpr same)]
        exact ih _ _ sequence

section Range

variable {area : Area} {start spelled ext last : Nat} {front nominal : List Record}

/-- An extended range that starts in front of the nominal one. -/
theorem extendedRange_outside (sane : area.Sane) (names : area.Names spelled start)
    (extInside : area.Inside ext) (startEq : start = area.walk ext (total front))
    (lastEq : last = area.walk start (total nominal)) (frontPositive : 0 < total front)
    (nominalPositive : 0 < total nominal)
    (short : total front + total nominal < area.allocOffset - undoBase) :
    extendedRange area spelled last ext = (true, ((total front : Nat) : Int)) := by
  have startInside : area.Inside start := startEq ▸ Area.walk_inside sane _ _
  have lastInside : area.Inside last := lastEq ▸ Area.walk_inside sane _ _
  have spelledLong : longOffset spelled = spelled - undoBase := by
    rcases names with rfl | ⟨rfl, _⟩
    · exact startInside.longOffset_eq sane
    · exact sane.limit_eq
  have toStart := Area.walk_cases extInside (show total front ≤ _ by omega)
  have toLast := Area.walk_cases startInside (show total nominal ≤ _ by omega)
  rw [← startEq] at toStart
  rw [← lastEq] at toLast
  obtain ⟨extLower, extUpper⟩ := extInside
  obtain ⟨startLower, startUpper⟩ := startInside
  obtain ⟨lastLower, lastUpper⟩ := lastInside
  unfold extendedRange
  rw [spelledLong]
  rcases names with rfl | ⟨rfl, atBase⟩
  · by_cases straight : spelled < last
    · rw [if_pos straight]
      by_cases before : ext < spelled
      · rw [if_pos before]
        ext1
        · rfl
        · dsimp only
          omega
      · rw [if_neg before, if_pos (by omega)]
        ext1
        · rfl
        · dsimp only
          omega
    · rw [if_neg straight, if_neg (by omega), if_neg (by omega)]
      ext1
      · rfl
      · dsimp only
        omega
  · rw [if_neg (by omega), if_neg (by omega), if_neg (by omega)]
    ext1
    · rfl
    · dsimp only
      omega

/-- An extended range that starts inside the nominal one. -/
theorem extendedRange_embedded (sane : area.Sane) (names : area.Names spelled start)
    (startInside : area.Inside start) (extEq : ext = area.walk start (total front))
    (lastEq : last = area.walk ext (total nominal)) (nominalPositive : 0 < total nominal)
    (short : total front + total nominal < area.allocOffset - undoBase)
    (placed : ext ≠ spelled ∨ spelled < last) :
    extendedRange area spelled last ext = (false, -((total front : Nat) : Int)) := by
  have extInside : area.Inside ext := extEq ▸ Area.walk_inside sane _ _
  have lastInside : area.Inside last := lastEq ▸ Area.walk_inside sane _ _
  have extLong := extInside.longOffset_eq sane
  have toExt := Area.walk_cases startInside (show total front ≤ _ by omega)
  have toLast := Area.walk_cases extInside (show total nominal ≤ _ by omega)
  rw [← extEq] at toExt
  rw [← lastEq] at toLast
  obtain ⟨extLower, extUpper⟩ := extInside
  obtain ⟨startLower, startUpper⟩ := startInside
  obtain ⟨lastLower, lastUpper⟩ := lastInside
  unfold extendedRange
  rw [extLong]
  rcases names with rfl | ⟨rfl, atBase⟩
  · by_cases straight : spelled < last
    · rw [if_pos straight, if_neg (by omega), if_neg (by omega)]
      ext1
      · rfl
      · dsimp only
        omega
    · rw [if_neg straight]
      by_cases wrapped : ext < last
      · rw [if_pos wrapped]
        ext1
        · rfl
        · dsimp only
          omega
      · rw [if_neg wrapped, if_pos (by omega)]
        ext1
        · rfl
        · dsimp only
          omega
  · rw [if_neg (by omega), if_pos (by omega)]
    ext1
    · rfl
    · dsimp only
      omega

end Range

/-- The records of the extended range, `front` in front of the nominal range and
`nominal` inside it. -/
inductive Extended (area : Area) (state : Recovery) : List Record → List Record → Prop where
  | outside {start : Nat} {front nominal : List Record} (nonempty : front ≠ [])
      (names : area.Names state.firstOffset start)
      (chainFront : Chain area state.stage2Offset front start)
      (chain : Chain area start nominal state.nextOffset)
      (sequence : InSequence front.reverse (seqPred state.stage2Seqno))
      (short : total front + total nominal < area.allocOffset - undoBase) :
      Extended area state front nominal
  | embedded {start : Nat} {skipped nominal : List Record}
      (inside : area.Inside start) (names : area.Names state.firstOffset start)
      (chainSkipped : Chain area start skipped state.stage2Offset)
      (chain : Chain area state.stage2Offset nominal state.nextOffset)
      (short : total skipped + total nominal < area.allocOffset - undoBase)
      (placed : state.stage2Offset ≠ state.firstOffset ∨
        state.firstOffset < state.nextOffset) :
      Extended area state [] nominal

/-- The recovery state stage 2 starts from when there is something to do. -/
structure Requested (area : Area) (state : Recovery) : Prop where
  sane : area.Sane
  req : state.recoveryReq = true
  inside : area.Inside state.stage2Offset

theorem Requested.offset_ne_zero {area : Area} {state : Recovery}
    (requested : Requested area state) : state.stage2Offset ≠ 0 := by
  have lower := requested.inside.1
  have positive : 0 < undoBase := by decide
  omega

/-- Stage 2 once the range is known. -/
theorem recoverStage2_eq {area : Area} {state : Recovery} {fuel bytes : Nat} {dorscan : Bool}
    {extBytes : Int} (requested : Requested area state)
    (apart : state.firstOffset ≠ state.nextOffset)
    (spanEq : area.span state.firstOffset state.nextOffset = bytes) (bound : bytes ≤ area.limit)
    (range : extendedRange area state.firstOffset state.nextOffset state.stage2Offset =
      (dorscan, extBytes)) :
    recoverStage2 area fuel state =
      (if dorscan then
          collectLoop area state.stage2Offset fuel state.firstOffset (seqPred state.stage2Seqno) {}
        else .done (none, {})).bind fun
        | (some errno, redo) => .done (some errno, redo)
        | (none, redo) =>
            redoLoop area state.nextOffset fuel state.stage2Offset (bytes + extBytes) redo := by
  unfold recoverStage2
  rw [if_neg apart, if_neg (not_not.mpr requested.req), if_neg requested.offset_ne_zero]
  dsimp only
  rewrite [spanEq, if_neg (by omega), range]
  rfl

theorem runAll_append (first second : List (Nat × Record)) (redo : Redo) :
    runAll (first ++ second) redo = (runAll first redo).bind (runAll second) := by
  induction first generalizing redo with
  | nil => rfl
  | cons head tail ih =>
      obtain ⟨offset, record⟩ := head
      simp only [List.cons_append, runAll]
      cases recoverRedoRun redo offset record with
      | panic => rfl
      | more => rfl
      | done next => exact ih next

/-- Running an extended range after its TERMs have been collected. -/
theorem runAll_extended {area : Area} {ext : Nat} (inside : area.Inside ext)
    (front nominal : List Record) {gathered : Redo}
    (tracks : Tracks gathered.root front (area.place ext front)) :
    ∃ redo, runAll (area.place ext (front ++ nominal)) gathered = .done redo ∧
      redo.collected = gathered.collected ∧
      redo.executed = gathered.executed ++ (front ++ nominal).filter (selected front) := by
  have subset : ∀ entry ∈ area.place ext front, entry.2 ∈ front := by
    intro entry member
    have mapped := @List.mem_map_of_mem _ _ _ _ Prod.snd member
    rwa [area.map_place] at mapped
  obtain ⟨root, done, ran⟩ := runAll_tracks (area.place ext front) gathered subset tracks
  rw [area.place_append _ _ _ inside, runAll_append, ran]
  simp only [Outcome.bind]
  rw [runAll_nominal _ _ done]
  refine ⟨_, rfl, rfl, ?_⟩
  rw [area.map_place, area.map_place, List.filter_append, List.append_assoc]

/-- Stage 2 collects the TERMs in front of the nominal range and executes the
records that none of them names. -/
theorem recoverStage2_extended {area : Area} {state : Recovery} {front nominal : List Record}
    {fuel : Nat} (requested : Requested area state) (extended : Extended area state front nominal)
    (nonempty : nominal ≠ []) (enough : front.length + nominal.length < fuel) :
    ∃ redo, recoverStage2 area fuel state = .done (none, redo) ∧
      redo.collected = front.reverse.filter (·.termKey.isSome) ∧
      redo.executed = (front ++ nominal).filter (selected front) := by
  have sane := requested.sane
  have limit := sane.limit_eq
  cases extended with
  | @outside start _ _ frontNonempty names chainFront chain sequence short =>
      have startEq := chainFront.stop_eq requested.inside
      have startInside : area.Inside start := startEq ▸ Area.walk_inside sane _ _
      have lastEq := chain.stop_eq startInside
      have positive := chain.total_pos nonempty
      obtain ⟨spanEq, apart⟩ := Area.span_names sane startInside names positive (by omega)
      rw [← lastEq] at spanEq apart
      have range := extendedRange_outside sane names requested.inside startEq lastEq
        (chainFront.total_pos frontNonempty) positive short
      have collected := @collectLoop_chain area _ requested.inside front state.firstOffset start
        (seqPred state.stage2Seqno) fuel {} names frontNonempty chainFront (by omega) (by omega)
      rw [collectAll_of_inSequence _ _ _
        (by rw [List.map_reverse, area.map_place]; exact sequence)] at collected
      have tracks := collectTerms_tracks (area.place state.stage2Offset front)
      have gathers := collectTerms_collected (area.place state.stage2Offset front).reverse {}
      rw [area.map_place] at tracks
      rw [List.map_reverse, area.map_place] at gathers
      generalize collectTerms (area.place state.stage2Offset front).reverse {} = gathered
        at collected tracks gathers
      have looped := @redoLoop_chain area sane _ _ fuel requested.inside _ gathered
        (chainFront.append chain) (by rw [total_append]; exact short)
        (by rw [List.length_append]; exact enough)
      obtain ⟨redo, ran, collectedEq, executedEq⟩ :=
        runAll_extended requested.inside front nominal tracks
      have bytesEq : ((total nominal : Nat) : Int) + (total front : Nat) =
          (total (front ++ nominal) : Nat) := by
        rw [total_append]
        omega
      refine ⟨redo, ?_, by rw [collectedEq, gathers.1]; rfl, by rw [executedEq, gathers.2]; rfl⟩
      rw [recoverStage2_eq requested apart spanEq (by omega) range, if_pos rfl, collected]
      simp only [Outcome.bind]
      rw [bytesEq, looped, ran]
      rfl
  | @embedded start skipped _ inside names chainSkipped chain short placed =>
      have extEq := chainSkipped.stop_eq inside
      have lastEq := chain.stop_eq requested.inside
      have positive := chain.total_pos nonempty
      have wholeEq : state.nextOffset = area.walk start (total skipped + total nominal) := by
        rw [lastEq, extEq, Area.walk_walk]
      obtain ⟨spanEq, apart⟩ := Area.span_names sane inside names
        (show 0 < total skipped + total nominal by omega) short
      rw [← wholeEq] at spanEq apart
      have range := extendedRange_embedded sane names inside extEq lastEq positive short placed
      have looped := @redoLoop_chain area sane _ _ fuel requested.inside _ {} chain (by omega)
        (by simpa using enough)
      have tracks : Tracks (Redo.root {}) [] (area.place state.stage2Offset []) := fun _ => rfl
      obtain ⟨redo, ran, collectedEq, executedEq⟩ :=
        runAll_extended requested.inside [] nominal tracks
      have bytesEq : ((total skipped + total nominal : Nat) : Int) + -((total skipped : Nat) : Int) =
          (total nominal : Nat) := by
        omega
      refine ⟨redo, ?_, collectedEq, executedEq⟩
      rw [recoverStage2_eq requested apart spanEq (by omega) range]
      simp only [Bool.false_eq_true, if_false, Outcome.bind]
      rw [List.nil_append] at ran
      rw [bytesEq, looped, ran]
      rfl

/-! ## The selection -/

/-- The selection asked for: a WRITE or TRUNC is executed when no TERM with its
key follows it in front of the nominal range. -/
def specified (nominal : List Record) : List Record → List Record
  | [] => nominal.filter (·.runKey.isSome)
  | record :: front =>
      if (record.runKey.map (Terminated · front)) = some false then
        record :: specified nominal front
      else specified nominal front

/-- Whoever is named by a TERM in front of the nominal range is also named by one
that follows it there. -/
def TermsFollow (front nominal : List Record) : Prop :=
  (∀ record ∈ nominal, ∀ key, record.runKey = some key → Terminated key front = false) ∧
    ∀ before record after, front = before ++ record :: after →
      ∀ key, record.runKey = some key → Terminated key front = true →
        Terminated key after = true

/-- The records behind `before`, selected as the code does. -/
theorem selected_sublist (known nominal : List Record) (front : List Record)
    (included : ∀ key, Terminated key front = true → Terminated key known = true) :
    ((front ++ nominal).filter (selected known)).Sublist (specified nominal front) := by
  induction front with
  | nil =>
      refine List.Sublist.trans ?_ (List.Sublist.refl _)
      simp only [List.nil_append, specified]
      apply List.monotone_filter_right
      intro record chosen
      unfold selected at chosen
      cases run : record.runKey with
      | none => simp [run] at chosen
      | some key => rfl
  | cons record front ih =>
      have tail := ih fun key found => included key (by simp [terminated_cons, found])
      simp only [List.cons_append, specified]
      cases run : record.runKey with
      | none => simpa [selected, run] using tail
      | some key =>
          cases later : Terminated key front with
          | true =>
              have known' := included key (by simp [terminated_cons, later])
              simpa [selected, run, later, known'] using tail
          | false =>
              cases earlier : Terminated key known with
              | true => simpa [selected, run, later, earlier] using tail.cons record
              | false => simpa [selected, run, later, earlier] using tail.cons_cons record

/-- One step of the comparison between the code's selection and the one asked
for, over the part of the range behind `before`. -/
theorem selected_eq_iff (known nominal front : List Record)
    (included : ∀ key, Terminated key front = true → Terminated key known = true) :
    (front ++ nominal).filter (selected known) = specified nominal front ↔
      (∀ record ∈ nominal, ∀ key, record.runKey = some key → Terminated key known = false) ∧
        ∀ before record after, front = before ++ record :: after →
          ∀ key, record.runKey = some key → Terminated key known = true →
            Terminated key after = true := by
  induction front with
  | nil =>
      simp only [List.nil_append, specified]
      constructor
      · intro same
        refine ⟨?_, by simp⟩
        intro record member key run
        have chosen : record ∈ nominal.filter (selected known) := by
          rw [same, List.mem_filter]
          exact ⟨member, by simp [run]⟩
        simpa [selected, run] using (List.mem_filter.mp chosen).2
      · rintro ⟨clear, _⟩
        apply List.filter_congr
        intro record member
        cases run : record.runKey with
        | none => simp [selected, run]
        | some key => simp [selected, run, clear record member key run]
  | cons record front ih =>
      have shrink : ∀ key, Terminated key front = true → Terminated key known = true :=
        fun key found => included key (by simp [terminated_cons, found])
      have step := ih shrink
      have sublist := selected_sublist known nominal front shrink
      -- the condition on `record :: front` is the one on `front` and one on `record`
      have condition : (∀ before other after, record :: front = before ++ other :: after →
            ∀ key, other.runKey = some key → Terminated key known = true →
              Terminated key after = true) ↔
          (∀ key, record.runKey = some key → Terminated key known = true →
              Terminated key front = true) ∧
            ∀ before other after, front = before ++ other :: after →
              ∀ key, other.runKey = some key → Terminated key known = true →
                Terminated key after = true := by
        constructor
        · intro all
          refine ⟨fun key => all [] record front rfl key, ?_⟩
          intro before other after split
          exact all (record :: before) other after (by rw [split]; rfl)
        · rintro ⟨here, there⟩ before other after split
          cases before with
          | nil =>
              obtain ⟨rfl, rfl⟩ := List.cons.inj split
              exact here
          | cons first before =>
              obtain ⟨rfl, rfl⟩ := List.cons.inj split
              exact there before other after rfl
      rw [condition]
      simp only [List.cons_append, specified]
      cases run : record.runKey with
      | none =>
          have skipped : selected known record = false := by simp [selected, run]
          rw [List.filter_cons_of_neg (by simp [skipped]), if_neg (by simp), step]
          simp
      | some key =>
          cases later : Terminated key front with
          | true =>
              have earlier := shrink key later
              have skipped : selected known record = false := by simp [selected, run, earlier]
              rw [List.filter_cons_of_neg (by simp [skipped]), if_neg (by simp [later]), step]
              simp [later]
          | false =>
              rw [if_pos (by simp [later])]
              cases earlier : Terminated key known with
              | true =>
                  have skipped : selected known record = false := by simp [selected, run, earlier]
                  rw [List.filter_cons_of_neg (by simp [skipped])]
                  constructor
                  · intro same
                    have bound := sublist.length_le
                    rw [same, List.length_cons] at bound
                    omega
                  · rintro ⟨_, here, _⟩
                    rw [here key rfl earlier] at later
                    contradiction
              | false =>
                  have chosen : selected known record = true := by simp [selected, run, earlier]
                  rw [List.filter_cons_of_pos chosen, List.cons.injEq, step]
                  simp [earlier]

/-- What stage 2 executes is what is asked for exactly when whoever is named by a
TERM in front of the nominal range is also named by one that follows it there. -/
theorem recoverStage2_selection_iff {area : Area} {state : Recovery}
    {front nominal : List Record} {fuel : Nat} (requested : Requested area state)
    (extended : Extended area state front nominal) (nonempty : nominal ≠ [])
    (enough : front.length + nominal.length < fuel) :
    (∃ redo, recoverStage2 area fuel state = .done (none, redo) ∧
        redo.executed = specified nominal front) ↔
      TermsFollow front nominal := by
  obtain ⟨redo, done, _, executed⟩ := recoverStage2_extended requested extended nonempty enough
  have same := selected_eq_iff front nominal front fun _ found => found
  rw [← executed] at same
  constructor
  · rintro ⟨other, otherDone, chosen⟩
    rw [done] at otherDone
    obtain rfl : redo = other := by simpa using otherDone
    exact same.mp chosen
  · intro follow
    exact ⟨redo, done, same.mpr follow⟩

/-! ## A file written again after its flush -/

/-- A REDO record of inode 1 without payload, as it stands on the media. -/
def redoImage (seq flags offset : Nat) : List UInt8 :=
  leBytes 2 headSignature ++ leBytes 2 typeRedo ++ leBytes 4 64 ++ leBytes 4 seq ++ leBytes 4 0 ++
    leBytes 8 1 ++ leBytes 8 offset ++ leBytes 4 0 ++ leBytes 4 flags ++ leBytes 4 0 ++
    leBytes 4 0 ++ leBytes 8 0 ++
    leBytes 2 tailSignature ++ leBytes 2 typeRedo ++ leBytes 4 64

/-- The record `redoImage` encodes. -/
def redoRecord (seq flags offset : Nat) : Record :=
  { size := 64, seq, body := .redo 1 offset 0 flags 0 0 [] }

/-- Block 8192 is dirty; block 4096 is written, flushed and written again. -/
def rewrittenFifo : Area :=
  { crc32 := fun _ => 0
    mem := Mem.blit (Mem.blit (Mem.blit (Mem.blit (Mem.blit (Mem.blit (fun _ => 0)
      undoBase (redoImage 0 redoWrite 8192))
      (undoBase + 64) (redoImage 1 redoWrite 4096))
      (undoBase + 128) (redoImage 2 redoTermWrite 4096))
      (undoBase + 192) (redoImage 3 redoSync undoBase))
      (undoBase + 256) (redoImage 4 redoWrite 4096))
      (undoBase + 320) (redoImage 5 redoSync undoBase)
    allocOffset := undoBase + largeblockSize }

theorem rewrittenFifo_sane : rewrittenFifo.Sane := by
  constructor <;> decide

/-- The records of `rewrittenFifo` up to the flush of block 4096. -/
def flushedRecords : List Record :=
  [redoRecord 0 redoWrite 8192, redoRecord 1 redoWrite 4096, redoRecord 2 redoTermWrite 4096]

/-- The records of `rewrittenFifo`, by their place. -/
def rewrittenAt (index : Nat) : Record :=
  (flushedRecords ++ [redoRecord 3 redoSync undoBase, redoRecord 4 redoWrite 4096]).getD index
    (redoRecord 5 redoSync undoBase)

theorem rewrittenFifo_scans : ∀ index < 6, (rewrittenAt index).size = 64 ∧
    rewrittenFifo.scanFwd (undoBase + index * 64) =
      .ok (rewrittenAt index, undoBase + (index + 1) * 64) ∧
    rewrittenFifo.scanRev (undoBase + (index + 1) * 64) =
      .ok (rewrittenAt index, undoBase + index * 64) := by
  decide +kernel

theorem rewrittenFifo_record {index : Nat} {records : List Record} {stop : Nat} (near : index < 6)
    (rest : Chain rewrittenFifo (undoBase + (index + 1) * 64) records stop) :
    Chain rewrittenFifo (undoBase + index * 64) (rewrittenAt index :: records) stop := by
  obtain ⟨size, fwd, rev⟩ := rewrittenFifo_scans index near
  have next : rewrittenFifo.walk (undoBase + index * 64) (rewrittenAt index).size =
      undoBase + (index + 1) * 64 := by
    have long : rewrittenFifo.allocOffset - undoBase = 8388608 := rfl
    unfold Area.walk
    rw [long, size]
    omega
  have room : rewrittenFifo.allocOffset = undoBase + 8388608 := rfl
  rw [← next] at fwd rev rest
  refine .cons ⟨by omega, by omega⟩ (by omega) (by omega) fwd rev rest

theorem rewrittenFifo_flushed :
    Chain rewrittenFifo undoBase flushedRecords (undoBase + 3 * 64) := by
  apply @rewrittenFifo_record 0 _ _ (by decide)
  apply @rewrittenFifo_record 1 _ _ (by decide)
  apply @rewrittenFifo_record 2 _ _ (by decide)
  exact .nil _

theorem rewrittenFifo_sync :
    Chain rewrittenFifo (undoBase + 3 * 64) [redoRecord 3 redoSync undoBase]
      (undoBase + 4 * 64) := by
  apply @rewrittenFifo_record 3 _ _ (by decide)
  exact .nil _

theorem rewrittenFifo_again :
    Chain rewrittenFifo (undoBase + 4 * 64) [redoRecord 4 redoWrite 4096]
      (undoBase + 5 * 64) := by
  apply @rewrittenFifo_record 4 _ _ (by decide)
  exact .nil _

theorem rewrittenFifo_last :
    Chain rewrittenFifo (undoBase + 5 * 64) [redoRecord 5 redoSync undoBase]
      (undoBase + 6 * 64) := by
  apply @rewrittenFifo_record 5 _ _ (by decide)
  exact .nil _

/-- Recovery with `rewrittenFifo` whose nominal range is the records `first`, …, `next - 1`. -/
def rewrittenState (first next : Nat) : Recovery :=
  { image := fun _ => 0, recoveryReq := true, stage2Offset := undoBase, stage2Seqno := first
    undoSeqno := next, firstOffset := undoBase + first * 64, nextOffset := undoBase + next * 64
    applied := [] }

theorem rewrittenState_requested (first next : Nat) :
    Requested rewrittenFifo (rewrittenState first next) :=
  ⟨rewrittenFifo_sane, rfl, le_refl undoBase, (rewrittenFifo_sane).lower⟩

/-- A crash before block 4096 is written again. -/
theorem rewrittenState_flushed : Extended rewrittenFifo (rewrittenState 3 4)
    flushedRecords [redoRecord 3 redoSync undoBase] :=
  .outside (by decide) (.inl rfl) rewrittenFifo_flushed rewrittenFifo_sync
    (by simp [flushedRecords, InSequence, redoRecord, rewrittenState, seqPred]) (by decide)

/-- What has been laid down in front of the last record. -/
def rewrittenRecords : List Record :=
  flushedRecords ++ [redoRecord 3 redoSync undoBase, redoRecord 4 redoWrite 4096]

/-- A crash after block 4096 has been written again. -/
theorem rewrittenState_rewritten : Extended rewrittenFifo (rewrittenState 5 6)
    rewrittenRecords [redoRecord 5 redoSync undoBase] :=
  .outside (by decide) (.inl rfl)
    ((rewrittenFifo_flushed).append ((rewrittenFifo_sync).append rewrittenFifo_again))
    rewrittenFifo_last
    (by simp [flushedRecords, rewrittenRecords, InSequence, redoRecord, rewrittenState, seqPred])
    (by decide)

/-- Before the second write the selection is as asked for: block 8192 is redone. -/
theorem recoverStage2_selects_dirty :
    ∃ redo, recoverStage2 rewrittenFifo 5 (rewrittenState 3 4) = .done (none, redo) ∧
      redo.executed = [redoRecord 0 redoWrite 8192] := by
  apply (recoverStage2_selection_iff (rewrittenState_requested 3 4) rewrittenState_flushed
    (by decide) (by decide)).mpr
  constructor
  · simp [redoRecord, Record.runKey, redoSync, redoWrite, redoTrunc]
  · intro before record after split key run named
    match before with
    | [] =>
        obtain ⟨rfl, rfl⟩ := List.cons.inj split
        obtain rfl := Option.some.inj run
        exact absurd named (by decide)
    | [_] =>
        obtain ⟨_, rfl, rfl⟩ : _ ∧ _ ∧ _ := by simpa [flushedRecords] using split
        obtain rfl := Option.some.inj run
        decide
    | [_, _] =>
        obtain ⟨_, _, rfl, rfl⟩ : _ ∧ _ ∧ _ ∧ _ := by simpa [flushedRecords] using split
        cases run
    | _ :: _ :: _ :: _ => simp [flushedRecords] at split

/-- After it the second write is not redone, though no TERM follows it. -/
theorem recoverStage2_drops_rewrite :
    ¬ ∃ redo, recoverStage2 rewrittenFifo 7 (rewrittenState 5 6) = .done (none, redo) ∧
      redo.executed = specified [redoRecord 5 redoSync undoBase] rewrittenRecords := by
  rintro ⟨redo, done, executed⟩
  obtain ⟨other, otherDone, _, otherExecuted⟩ :=
    @recoverStage2_extended _ _ _ _ 7 (rewrittenState_requested 5 6) rewrittenState_rewritten
      (by decide) (by decide)
  rw [done] at otherDone
  obtain rfl : redo = other := by simpa using otherDone
  rw [otherExecuted] at executed
  revert executed
  decide

end Dragonfly.Hammer.Fifo
