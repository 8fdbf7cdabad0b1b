import Dragonfly.Hammer.Fifo.Format
import Dragonfly.Lib.Outcome

/-!
# Recovery from the UNDO/REDO FIFO

`hammer_recover_stage1` finds the active range of the FIFO and runs its UNDO
records backwards; `hammer_recover_stage2` collects the TERM records in front of
that range and runs the REDO records forwards.  Loops take fuel.

Three things are recorded that the code does not keep: the UNDO records applied,
the TERM records collected and the REDO records executed.  Flushing of recovered
buffers and the console are not modelled.  A REDO record is executed by appending
it to the list; what `hammer_recover_redo_exec` then does to the file does not
influence the scan.
-/

namespace Dragonfly.Hammer.Fifo

open Dragonfly.Lib

/-- The UNDO/REDO area of the media. -/
structure Area where
  crc32 : List UInt8 → UInt32
  mem : Mem
  allocOffset : Nat

namespace Area

def scanRev (area : Area) (scanOffset : Nat) : Except Errno (Record × Nat) :=
  Fifo.scanRev area.crc32 area.mem area.allocOffset scanOffset

def scanFwd (area : Area) (scanOffset : Nat) : Except Errno (Record × Nat) :=
  Fifo.scanFwd area.crc32 area.mem area.allocOffset scanOffset

/-- `alloc_offset & HAMMER_OFF_LONG_MASK`, the length of the area. -/
def limit (area : Area) : Nat := longOffset area.allocOffset

/-- The distance from `first` to `last` in FIFO order, as both stages compute it. -/
def span (area : Area) (first last : Nat) : Nat :=
  if first ≤ last then last - first
  else area.allocOffset - first + longOffset last

end Area

/-- The part of the mount and of the volume header that recovery works on. -/
structure Recovery where
  /-- Media behind zone-1 and zone-2 offsets. -/
  image : Mem
  /-- `HAMMER_MOUNT_REDO_RECOVERY_REQ` -/
  recoveryReq : Bool
  stage2Offset : Nat
  stage2Seqno : Nat
  undoSeqno : Nat
  firstOffset : Nat
  nextOffset : Nat
  /-- The UNDO records applied, in order. -/
  applied : List Record

/-! ## Stage 1 -/

/-- Next sequence number. -/
def seqSucc (seqno : Nat) : Nat := (seqno + 1) % 4294967296

/-- Previous sequence number. -/
def seqPred (seqno : Nat) : Nat := (seqno + 4294967295) % 4294967296

/-- Where an UNDO record is copied to, and `HAMMER: Corrupt UNDO record` as an error. -/
def undoTarget (offset : Nat) : Except Errno Nat :=
  match zoneDecode offset with
  | 1 => .ok (offset / 2 ^ 52 * 2 ^ 52 + offset % bufsize)
  | 2 => .ok offset
  | _ => .error .eio

/-- `hammer_recover_undo` -/
def recoverUndo (image : Mem) (record : Record) : Except Errno Mem :=
  match record.body with
  | .undo offset dataBytes data =>
      if (record.size : Int) - 40 < 0 ∨ dataBytes < 0 ∨ (record.size : Int) - 40 < dataBytes then
        .error .eio
      else if (bufsize : Int) < (offset % bufsize : Nat) + dataBytes then .error .eio
      else (undoTarget offset).map fun target => image.blit target (data.take dataBytes.toNat)
  | _ => .ok image

/-- The backwards scan for the sequence number in front of the active range. -/
def backSeqno (area : Area) : Nat → Nat → Outcome (Except Errno Nat)
  | 0, _ => .more
  | fuel + 1, scanOffset =>
      match area.scanRev scanOffset with
      | .error errno => .done (.error errno)
      | .ok (record, scanOffset) =>
          if record.body ≠ .pad then .done (.ok record.seq) else backSeqno area fuel scanOffset

/-- The forwards scan for the end of the active range: the offset past the last
record in sequence, and the sequence number that did not follow. -/
def fwdSeqno (area : Area) : Nat → Nat → Nat → Nat → Outcome (Except Errno (Nat × Nat))
  | 0, _, _, _ => .more
  | fuel + 1, scanOffset, save, seqno =>
      match area.scanFwd scanOffset with
      | .error errno => .done (.error errno)
      | .ok (record, scanOffset) =>
          if record.body ≠ .pad then
            if record.seq ≠ seqno then .done (.ok (save, seqno))
            else fwdSeqno area fuel scanOffset scanOffset (seqSucc seqno)
          else fwdSeqno area fuel scanOffset save seqno

/-- The first REDO_SYNC record met enables stage 2. -/
def noteSync (state : Recovery) (record : Record) : Recovery :=
  match record.body with
  | .redo _ offset _ flags _ _ _ =>
      if flags = redoSync ∧ ¬ state.recoveryReq then
        { state with recoveryReq := true, stage2Offset := offset }
      else state
  | _ => state

/-- One UNDO record of the reverse scan. -/
def applyUndo (state : Recovery) (record : Record) : Except Errno Recovery :=
  (recoverUndo state.image record).map fun image =>
    noteSync { state with
      image
      applied := if record.body matches .undo .. then state.applied ++ [record]
        else state.applied } record

/-- The reverse scan that runs the UNDO records. -/
def undoLoop (area : Area) (firstOffset : Nat) :
    Nat → Nat → Int → Recovery → Outcome (Option Errno × Recovery)
  | 0, _, _, _ => .more
  | fuel + 1, scanOffset, bytes, state =>
      if 0 < bytes then
        .kkassert (scanOffset ≠ firstOffset) <|
          match area.scanRev scanOffset with
          | .error errno => .done (some errno, state)
          | .ok (record, scanOffset) =>
              match applyUndo state record with
              | .error errno => .done (some errno, state)
              | .ok state => undoLoop area firstOffset fuel scanOffset (bytes - record.size) state
      else .kkassert (bytes = 0) <| .done (none, state)

/-- `hammer_recover_stage1` for a version-4 FIFO. -/
def recoverStage1 (area : Area) (fuel : Nat) (state : Recovery) :
    Outcome (Option Errno × Recovery) :=
  let first := state.firstOffset
  let state := { state with stage2Offset := 0 }
  if area.allocOffset < first ∨ area.allocOffset < state.nextOffset then .done (some .eio, state)
  else
    (backSeqno area fuel first).bind fun
      | .error errno => .done (some errno, state)
      | .ok seqno =>
          let state := { state with stage2Seqno := seqSucc seqno }
          (fwdSeqno area fuel first first (seqSucc seqno)).bind fun
            | .error errno => .done (some errno, state)
            | .ok (last, seqno) =>
                let state := { state with undoSeqno := seqno }
                let bytes := area.span first last
                if bytes = 0 then
                  .done (none, { state with firstOffset := first, nextOffset := last })
                else if area.limit < bytes then .done (some .eio, state)
                else
                  (undoLoop area first fuel last bytes state).bind fun
                    | (some errno, state) => .done (some errno, state)
                    | (none, state) =>
                        .done (none, { state with firstOffset := first, nextOffset := last })

/-! ## Stage 2 -/

/-- `struct hammer_rterm` with its list of FIFO offsets. -/
structure RTerm where
  objid : Nat
  localization : Nat
  flags : Nat
  offset : Nat
  termList : List Nat
  deriving DecidableEq, Repr

/-- Equality under `hammer_rterm_rb_cmp`, which ignores the offset of a TERM_TRUNC. -/
def RTerm.same (first second : RTerm) : Bool :=
  first.objid = second.objid ∧ first.localization = second.localization ∧
    first.flags = second.flags ∧
    (first.flags = redoTermTrunc ∨ first.offset = second.offset)

/-- Prepend a FIFO offset to the entry of a key, which is made if it is missing. -/
def rtermRecord (key : RTerm) (scanOffset : Nat) : List RTerm → List RTerm
  | [] => [{ key with termList := [scanOffset] }]
  | rterm :: root =>
      if rterm.same key then { rterm with termList := scanOffset :: rterm.termList } :: root
      else rterm :: rtermRecord key scanOffset root

/-- `RB_FIND` -/
def rtermFind (key : RTerm) (root : List RTerm) : Option RTerm := root.find? (·.same key)

/-- Drop the first FIFO offset of the entry of a key. -/
def rtermPop (key : RTerm) : List RTerm → List RTerm
  | [] => []
  | rterm :: root =>
      if rterm.same key then { rterm with termList := rterm.termList.tail } :: root
      else rterm :: rtermPop key root

/-- Variables of stage 2 that outlive a loop. -/
structure Redo where
  root : List RTerm := []
  /-- The TERM records collected, newest first. -/
  collected : List Record := []
  /-- The REDO records executed, oldest first. -/
  executed : List Record := []

/-- `hammer_recover_redo_rec` -/
def recoverRedoRec (redo : Redo) (scanOffset : Nat) (record : Record) : Redo :=
  match record.body with
  | .redo objid offset _ flags localization _ _ =>
      if flags ≠ redoTermWrite ∧ flags ≠ redoTermTrunc then redo
      else
        { redo with
          root := rtermRecord { objid, localization, flags, offset, termList := [] } scanOffset
            redo.root
          collected := redo.collected ++ [record] }
  | _ => redo

/-- `hammer_recover_redo_run` -/
def recoverRedoRun (redo : Redo) (scanOffset : Nat) (record : Record) : Outcome Redo :=
  match record.body with
  | .redo objid offset _ flags localization _ _ =>
      if flags = redoWrite ∨ flags = redoTrunc then
        let key : RTerm :=
          { objid, localization, offset, termList := []
            flags := if flags = redoWrite then redoTermWrite else redoTermTrunc }
        match rtermFind key redo.root with
        | some _ => .done redo
        | none => .done { redo with executed := redo.executed ++ [record] }
      else if flags = redoTermWrite ∨ flags = redoTermTrunc then
        let key : RTerm := { objid, localization, offset, flags, termList := [] }
        match rtermFind key redo.root with
        | some { termList := fifoOffset :: _, .. } =>
            .kkassert (fifoOffset = scanOffset) <|
              .done { redo with root := rtermPop key redo.root }
        | _ => .done redo
      else .done redo
  | _ => .done redo

/-- Whether the extended range starts in front of the nominal one, and how many
bytes it adds to it. -/
def extendedRange (area : Area) (first last ext : Nat) : Bool × Int :=
  if first < last then
    if ext < first then (true, (first : Int) - ext)
    else if last < ext then (true, ((area.allocOffset : Int) - ext) + longOffset first)
    else (false, -((ext : Int) - first))
  else
    if ext < last then (false, -(((area.allocOffset : Int) - first) + longOffset ext))
    else if first < ext then (false, -((ext : Int) - first))
    else (true, (first : Int) - ext)

/-- The reverse scan from the nominal range to `ext` that collects the TERMs. -/
def collectLoop (area : Area) (ext : Nat) :
    Nat → Nat → Nat → Redo → Outcome (Option Errno × Redo)
  | 0, _, _, _ => .more
  | fuel + 1, scanOffset, seqno, redo =>
      match area.scanRev scanOffset with
      | .error errno => .done (some errno, redo)
      | .ok (record, scanOffset) =>
          if record.body ≠ .pad then
            if record.seq ≠ seqno then .done (some .erange, redo)
            else
              let redo := recoverRedoRec redo scanOffset record
              if scanOffset = ext then .done (none, redo)
              else collectLoop area ext fuel scanOffset (seqPred seqno) redo
          else if scanOffset = ext then .done (none, redo)
          else collectLoop area ext fuel scanOffset seqno redo

/-- The forward scan through the extended range that runs the REDOs. -/
def redoLoop (area : Area) (lastOffset : Nat) :
    Nat → Nat → Int → Redo → Outcome (Option Errno × Redo)
  | 0, _, _, _ => .more
  | fuel + 1, scanOffset, bytes, redo =>
      if 0 < bytes then
        .kkassert (scanOffset ≠ lastOffset) <|
          match area.scanFwd scanOffset with
          | .error errno => .done (some errno, redo)
          | .ok (record, next) =>
              (recoverRedoRun redo scanOffset record).bind fun redo =>
                redoLoop area lastOffset fuel next (bytes - record.size) redo
      else .kkassert (bytes = 0) <| .done (none, redo)

/-- `hammer_recover_stage2` -/
def recoverStage2 (area : Area) (fuel : Nat) (state : Recovery) :
    Outcome (Option Errno × Redo) :=
  let first := state.firstOffset
  let last := state.nextOffset
  if first = last then .kkassert (!state.recoveryReq) <| .done (none, {})
  else if ¬ state.recoveryReq then .done (none, {})
  else if state.stage2Offset = 0 then .done (none, {})
  else
    let bytes := area.span first last
    if area.limit < bytes then .done (some .eio, {})
    else
      let ext := state.stage2Offset
      let (dorscan, extBytes) := extendedRange area first last ext
      let collect : Outcome (Option Errno × Redo) :=
        if dorscan then collectLoop area ext fuel first (seqPred state.stage2Seqno) {}
        else .done (none, {})
      collect.bind fun
        | (some errno, redo) => .done (some errno, redo)
        | (none, redo) => redoLoop area last fuel ext (bytes + extBytes) redo

end Dragonfly.Hammer.Fifo
