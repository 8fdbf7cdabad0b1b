import Dragonfly.Hammer.Fifo.Stage1
import Dragonfly.Hammer.Fifo.Stage2

/-!
# What recovery reports

The records applied, collected and executed, and the return code, as functions of
the records alone.  They do not look at the offset a REDO_SYNC record names, which
is the one place where the contents of the FIFO depend on where it lies.
-/

namespace Dragonfly.Hammer.Fifo

open Dragonfly.Lib

/-- The record without the offset it names if it is a REDO_SYNC. -/
def Record.unplaced (record : Record) : Record :=
  match record.body with
  | .redo objid _ dataBytes flags localization mtime data =>
      if flags = redoSync then
        { record with body := .redo objid 0 dataBytes flags localization mtime data }
      else record
  | _ => record

/-- Either nothing changes, or the record is a REDO_SYNC. -/
theorem Record.unplaced_cases (record : Record) :
    record.unplaced = record ∨
      ∃ objid offset dataBytes localization mtime data,
        record.body = .redo objid offset dataBytes redoSync localization mtime data ∧
        record.unplaced =
          { record with body := .redo objid 0 dataBytes redoSync localization mtime data } := by
  unfold Record.unplaced
  split
  · next objid offset dataBytes flags localization mtime data body =>
      by_cases sync : flags = redoSync
      · subst sync
        exact .inr ⟨objid, offset, dataBytes, localization, mtime, data, body, by rw [if_pos rfl]⟩
      · exact .inl (if_neg sync)
  · exact .inl rfl

@[simp]
theorem Record.size_unplaced (record : Record) : record.unplaced.size = record.size := by
  rcases record.unplaced_cases with same | ⟨_, _, _, _, _, _, _, same⟩ <;> rw [same]

@[simp]
theorem Record.seq_unplaced (record : Record) : record.unplaced.seq = record.seq := by
  rcases record.unplaced_cases with same | ⟨_, _, _, _, _, _, _, same⟩ <;> rw [same]

@[simp]
theorem Record.pad_unplaced (record : Record) :
    record.unplaced.body = .pad ↔ record.body = .pad := by
  rcases record.unplaced_cases with same | ⟨_, _, _, _, _, _, body, same⟩
  · rw [same]
  · rw [same, body]
    simp

@[simp]
theorem Record.termKey_unplaced (record : Record) : record.unplaced.termKey = record.termKey := by
  rcases record.unplaced_cases with same | ⟨_, _, _, _, _, _, body, same⟩
  · rw [same]
  · rw [same]
    simp [Record.termKey, body, redoSync, redoTermWrite, redoTermTrunc]

@[simp]
theorem Record.runKey_unplaced (record : Record) : record.unplaced.runKey = record.runKey := by
  rcases record.unplaced_cases with same | ⟨_, _, _, _, _, _, body, same⟩
  · rw [same]
  · rw [same]
    simp [Record.runKey, body, redoSync, redoWrite, redoTrunc]

theorem Record.unplaced_of_term {record : Record} (term : record.termKey.isSome) :
    record.unplaced = record := by
  rcases record.unplaced_cases with same | ⟨_, _, _, _, _, _, body, _⟩
  · exact same
  · simp [Record.termKey, body, redoSync, redoTermWrite, redoTermTrunc] at term

theorem Record.unplaced_of_run {record : Record} (run : record.runKey.isSome) :
    record.unplaced = record := by
  rcases record.unplaced_cases with same | ⟨_, _, _, _, _, _, body, _⟩
  · exact same
  · simp [Record.runKey, body, redoSync, redoWrite, redoTrunc] at run

/-- The two lists hold the same records, up to what their REDO_SYNCs name. -/
def SameRecords (first second : List Record) : Prop :=
  first.map Record.unplaced = second.map Record.unplaced

/-- A function of the records that ignores what REDO_SYNCs name takes the same value
on both lists. -/
theorem SameRecords.eq {α : Type} {first second : List Record} (same : SameRecords first second)
    (f : List Record → α) (ignores : ∀ records, f (records.map Record.unplaced) = f records) :
    f first = f second := by
  rw [← ignores first, ← ignores second, same]

theorem SameRecords.reverse {first second : List Record} (same : SameRecords first second) :
    SameRecords first.reverse second.reverse := by
  unfold SameRecords at *
  rw [List.map_reverse, List.map_reverse, same]

theorem SameRecords.append {first second first' second' : List Record}
    (same : SameRecords first second) (same' : SameRecords first' second') :
    SameRecords (first ++ first') (second ++ second') := by
  unfold SameRecords at *
  rw [List.map_append, List.map_append, same, same']

theorem firstSeq_unplaced (records : List Record) :
    firstSeq (records.map Record.unplaced) = firstSeq records := by
  induction records with
  | nil => rfl
  | cons record records ih => simp [firstSeq, ih]

theorem seqAfter_unplaced (seqno : Nat) (records : List Record) :
    seqAfter (records.map Record.unplaced) seqno = seqAfter records seqno := by
  induction records generalizing seqno with
  | nil => rfl
  | cons record records ih => simp [seqAfter, ih]

/-! ## Stage 1 -/

/-- Why the record cannot be run as an UNDO. -/
def Record.refused (record : Record) : Option Errno :=
  match recoverUndo (fun _ => 0) record with
  | .error errno => some errno
  | .ok _ => none

/-- Whether an UNDO record is refused does not depend on the image. -/
theorem recoverUndo_cases (image : Mem) (record : Record) :
    (∃ errno, record.refused = some errno ∧ recoverUndo image record = .error errno) ∨
      (record.refused = none ∧ ∃ after, recoverUndo image record = .ok after) := by
  unfold Record.refused recoverUndo
  cases record.body with
  | undo offset dataBytes data =>
      dsimp only
      by_cases sizes : (record.size : Int) - 40 < 0 ∨ dataBytes < 0 ∨
          (record.size : Int) - 40 < dataBytes
      · rw [if_pos sizes, if_pos sizes]
        exact .inl ⟨_, rfl, rfl⟩
      · rw [if_neg sizes, if_neg sizes]
        by_cases crosses : (bufsize : Int) < (offset % bufsize : Nat) + dataBytes
        · rw [if_pos crosses, if_pos crosses]
          exact .inl ⟨_, rfl, rfl⟩
        · rw [if_neg crosses, if_neg crosses]
          cases undoTarget offset with
          | error errno => exact .inl ⟨errno, rfl, rfl⟩
          | ok target => exact .inr ⟨rfl, _, rfl⟩
  | _ => exact .inr ⟨rfl, image, rfl⟩

theorem Record.refused_unplaced (record : Record) : record.unplaced.refused = record.refused := by
  rcases record.unplaced_cases with same | ⟨_, _, _, _, _, _, body, same⟩
  · rw [same]
  · rw [same]
    simp [Record.refused, recoverUndo, body]

/-- The return code of the reverse scan and the UNDO records it applies. -/
def undoReport : List Record → Option Errno × List Record
  | [] => (none, [])
  | record :: records =>
      match record.refused with
      | some errno => (some errno, [])
      | none =>
          let (error, applied) := undoReport records
          (error, if record.body matches .undo .. then record :: applied else applied)

theorem undoReport_unplaced (records : List Record) :
    undoReport (records.map Record.unplaced) = undoReport records := by
  induction records with
  | nil => rfl
  | cons record records ih =>
      simp only [List.map_cons, undoReport, record.refused_unplaced, ih]
      rcases record.unplaced_cases with same | ⟨_, _, _, _, _, _, body, same⟩
      · rw [same]
      · simp only [same, body]
        rfl

/-- The offset named by the first REDO_SYNC. -/
def syncOffset : List Record → Option Nat
  | [] => none
  | record :: records =>
      match record.body with
      | .redo _ offset _ flags _ _ _ =>
          if flags = redoSync then some offset else syncOffset records
      | _ => syncOffset records

theorem syncOffset_unplaced (records : List Record) :
    (syncOffset (records.map Record.unplaced)).isSome = (syncOffset records).isSome := by
  induction records with
  | nil => rfl
  | cons record records ih =>
      rcases record.unplaced_cases with same | ⟨_, _, _, _, _, _, body, same⟩
      · simp only [List.map_cons, syncOffset, same]
        split
        · split
          · rfl
          · exact ih
        · exact ih
      · simp [syncOffset, same, body]

/-- One record of the reverse scan. -/
theorem applyUndo_cases (state : Recovery) (record : Record) :
    (∃ errno, record.refused = some errno ∧ applyUndo state record = .error errno) ∨
      (record.refused = none ∧ ∃ image, applyUndo state record = .ok (noteSync
        { state with
          image
          applied := if record.body matches .undo .. then state.applied ++ [record]
            else state.applied } record)) := by
  unfold applyUndo
  rcases recoverUndo_cases state.image record with ⟨errno, refused, ran⟩ | ⟨refused, image, ran⟩
  · exact .inl ⟨errno, refused, by rw [ran]; rfl⟩
  · exact .inr ⟨refused, image, by rw [ran]; rfl⟩

@[simp]
theorem noteSync_applied (state : Recovery) (record : Record) :
    (noteSync state record).applied = state.applied := by
  unfold noteSync
  split
  · split <;> rfl
  · rfl

@[simp]
theorem noteSync_stage2Seqno (state : Recovery) (record : Record) :
    (noteSync state record).stage2Seqno = state.stage2Seqno := by
  unfold noteSync
  split
  · split <;> rfl
  · rfl

/-- The reverse scan applies what `undoReport` says. -/
theorem applyAll_report (records : List Record) (state : Recovery) :
    (applyAll records state).1 = (undoReport records).1 ∧
      (applyAll records state).2.applied = state.applied ++ (undoReport records).2 ∧
      (applyAll records state).2.stage2Seqno = state.stage2Seqno := by
  induction records generalizing state with
  | nil => simp [applyAll, undoReport]
  | cons record records ih =>
      rcases applyUndo_cases state record with ⟨errno, refused, ran⟩ | ⟨refused, image, ran⟩
      · simp [applyAll, undoReport, refused, ran]
      · simp only [applyAll, undoReport, refused, ran]
        obtain ⟨error, applied, seqno⟩ := ih (noteSync { state with
          image
          applied := if record.body matches .undo .. then state.applied ++ [record]
            else state.applied } record)
        refine ⟨error, ?_, by simpa using seqno⟩
        rw [applied, noteSync_applied]
        dsimp only
        split <;> simp

/-- The first REDO_SYNC met stays. -/
theorem applyAll_requested {records : List Record} {state : Recovery}
    (req : state.recoveryReq = true) (accepted : (undoReport records).1 = none) :
    (applyAll records state).2.recoveryReq = true ∧
      (applyAll records state).2.stage2Offset = state.stage2Offset := by
  induction records generalizing state with
  | nil => exact ⟨req, rfl⟩
  | cons record records ih =>
      rcases applyUndo_cases state record with ⟨errno, refused, ran⟩ | ⟨refused, image, ran⟩
      · simp [undoReport, refused] at accepted
      · have unchanged : ∀ other : Recovery, other.recoveryReq = true →
            noteSync other record = other := by
          intro other requested
          unfold noteSync
          split
          · rw [if_neg (by simp [requested])]
          · rfl
        simp only [undoReport, refused] at accepted
        simp only [applyAll, ran]
        rw [unchanged _ (by exact req)]
        exact @ih { state with image, applied := _ } req accepted

/-- The reverse scan requests the offset of the first REDO_SYNC it meets. -/
theorem applyAll_sync {records : List Record} {state : Recovery}
    (idle : state.recoveryReq = false) (accepted : (undoReport records).1 = none) :
    (applyAll records state).2.recoveryReq = (syncOffset records).isSome ∧
      (applyAll records state).2.stage2Offset = (syncOffset records).getD state.stage2Offset := by
  induction records generalizing state with
  | nil => simp [applyAll, syncOffset, idle]
  | cons record records ih =>
      rcases applyUndo_cases state record with ⟨errno, refused, ran⟩ | ⟨refused, image, ran⟩
      · simp [undoReport, refused] at accepted
      · simp only [undoReport, refused] at accepted
        simp only [applyAll, ran, syncOffset, noteSync]
        cases record.body with
        | redo objid offset dataBytes flags localization mtime data =>
            dsimp only
            by_cases sync : flags = redoSync
            · rw [if_pos sync, if_pos ⟨sync, by simp [idle]⟩]
              exact @applyAll_requested records { state with
                image, applied := _, recoveryReq := true, stage2Offset := offset } rfl accepted
            · rw [if_neg sync, if_neg (fun both => sync both.1)]
              exact @ih { state with image, applied := _ } idle accepted
        | _ => exact @ih { state with image, applied := _ } idle accepted

/-! ## Stage 2 -/

/-- The return code of the collecting scan and the TERM records it collects. -/
def gather : List Record → Nat → Option Errno × List Record
  | [], _ => (none, [])
  | record :: records, seqno =>
      if record.body ≠ .pad then
        if record.seq ≠ seqno then (some .erange, [])
        else
          let (error, collected) := gather records (seqPred seqno)
          (error, if record.termKey.isSome then record :: collected else collected)
      else gather records seqno

theorem gather_unplaced (seqno : Nat) (records : List Record) :
    gather (records.map Record.unplaced) seqno = gather records seqno := by
  induction records generalizing seqno with
  | nil => rfl
  | cons record records ih =>
      simp only [List.map_cons, gather, ne_eq, record.pad_unplaced, record.seq_unplaced,
        record.termKey_unplaced, ih]
      by_cases term : record.termKey.isSome
      · rw [record.unplaced_of_term term]
      · simp only [term, Bool.false_eq_true, if_false]

theorem collectAll_gather (placed : List (Nat × Record)) (seqno : Nat) (redo : Redo) :
    (collectAll placed seqno redo).1 = (gather (placed.map Prod.snd) seqno).1 ∧
      (collectAll placed seqno redo).2.collected =
        redo.collected ++ (gather (placed.map Prod.snd) seqno).2 ∧
      (collectAll placed seqno redo).2.executed = redo.executed := by
  induction placed generalizing seqno redo with
  | nil => simp [collectAll, gather]
  | cons head placed ih =>
      obtain ⟨offset, record⟩ := head
      simp only [collectAll, List.map_cons, gather]
      split
      · split
        · simp
        · obtain ⟨error, collected, executed⟩ :=
            ih (seqPred seqno) (recoverRedoRec redo offset record)
          refine ⟨error, ?_, ?_⟩
          · rw [collected]
            cases term : record.termKey with
            | none => simp [recoverRedoRec_of_none term]
            | some key =>
                obtain ⟨entry, _, same⟩ := @recoverRedoRec_of_some redo offset record key term
                simp [same]
          · rw [executed]
            cases term : record.termKey with
            | none => rw [recoverRedoRec_of_none term]
            | some key =>
                obtain ⟨entry, _, same⟩ := @recoverRedoRec_of_some redo offset record key term
                rw [same]
      · exact ih seqno redo

/-- The collecting scan succeeds on records in sequence only. -/
theorem inSequence_of_gather {records : List Record} {seqno : Nat}
    (succeeds : (gather records seqno).1 = none) : InSequence records seqno := by
  induction records generalizing seqno with
  | nil => trivial
  | cons record records ih =>
      simp only [gather] at succeeds
      by_cases pad : record.body = .pad
      · rw [if_neg (not_not.mpr pad)] at succeeds
        exact .inl ⟨pad, ih succeeds⟩
      · rw [if_pos pad] at succeeds
        by_cases same : record.seq = seqno
        · rw [if_neg (not_not.mpr same)] at succeeds
          exact .inr ⟨pad, same, ih succeeds⟩
        · rw [if_pos same] at succeeds
          cases succeeds

theorem terminated_unplaced (key : TermKey) (records : List Record) :
    Terminated key (records.map Record.unplaced) = Terminated key records := by
  unfold Terminated
  rw [List.any_map]
  congr 1
  funext record
  simp

/-- Filters that only keep records which are not REDO_SYNCs. -/
theorem filter_unplaced {keep : Record → Bool} (ignores : ∀ record, keep record.unplaced = keep record)
    (keeps : ∀ record, keep record → record.unplaced = record) (records : List Record) :
    (records.map Record.unplaced).filter keep = records.filter keep := by
  induction records with
  | nil => rfl
  | cons record records ih =>
      rw [List.map_cons, List.filter_cons, List.filter_cons, ignores record, ih]
      split
      · next kept => rw [keeps record kept]
      · rfl

/-- What stage 2 executes is the same on both lists. -/
theorem SameRecords.filter_selected {front front' nominal nominal' : List Record}
    (same : SameRecords front front') (sameNominal : SameRecords nominal nominal') :
    (front ++ nominal).filter (selected front) = (front' ++ nominal').filter (selected front') := by
  have alike : selected front = selected front' := by
    funext record
    unfold selected
    cases record.runKey with
    | none => rfl
    | some key =>
        dsimp only
        rw [same.eq (Terminated key) (terminated_unplaced key)]
  rw [alike]
  refine (same.append sameNominal).eq _ (filter_unplaced ?_ ?_)
  · intro record
    simp [selected]
  · intro record kept
    apply Record.unplaced_of_run
    unfold selected at kept
    cases run : record.runKey with
    | none => simp [run] at kept
    | some key => rfl

end Dragonfly.Hammer.Fifo
