import Dragonfly.Hammer.Fifo.Lay

/-!
# The pieces of a request

A range of the media or the data of a write is laid down in pieces that fit into
the blocks of the FIFO.  Each loop comes back with all the pieces of its request.
-/

namespace Dragonfly.Hammer.Fifo

open Dragonfly.Lib

/-- The records hold the range `data` of the media, from `zoneOff` on. -/
def UndoPieces : Nat → List UInt8 → List Record → Prop
  | _, data, [] => data = []
  | zoneOff, data, record :: records =>
      (record.body = .pad ∧ UndoPieces zoneOff data records) ∨
        ∃ count rest, 0 < count ∧ count ≤ data.length ∧ count + 40 ≤ record.size ∧
          record.body = .undo (zoneOff % 2 ^ 64) (count : Nat) rest ∧
          rest.take count = data.take count ∧
          UndoPieces (zoneOff + count) (data.drop count) records

/-- The records hold the payload of a change to a file, from `fileOff` on. -/
def RedoPieces (head : RedoHead) : Nat → Payload → List Record → Prop
  | _, _, [] => False
  | fileOff, .count len, record :: records =>
      (record.body = .pad ∧ RedoPieces head fileOff (.count len) records) ∨
        (record.body = head.stored fileOff len [] ∧ records = [])
  | fileOff, .data data, record :: records =>
      (record.body = .pad ∧ RedoPieces head fileOff (.data data) records) ∨
        ∃ count rest, count ≤ data.length ∧ record.body = head.stored fileOff (count : Nat) rest ∧
          rest.take count = data.take count ∧
          if count = data.length then records = []
          else 0 < count ∧ RedoPieces head (fileOff + count) (.data (data.drop count)) records

/-- The records a request consists of. -/
def Request.Pieces : Request → List Record → Prop
  | .undo zoneOff data, records => UndoPieces zoneOff data records
  | .redo head fileOff payload, records => RedoPieces head fileOff payload records

/-! ## Frames -/

/-- Records have been laid down, and the inodes may be tracked differently. -/
structure Frame (mount after : Mount) : Prop where
  firstOffset : after.firstOffset = mount.firstOffset
  undos : after.undos = mount.undos
  redoSync : after.redoSync = mount.redoSync
  recoveryRun : after.recoveryRun = mount.recoveryRun
  stage2Offset : after.stage2Offset = mount.stage2Offset
  requests : after.requests = mount.requests
  grows : mount.stats ≤ after.stats
  ids : ∀ ip, (after.inodes ip).objId = (mount.inodes ip).objId ∧
    (after.inodes ip).objLocalization = (mount.inodes ip).objLocalization

theorem Frame.refl (mount : Mount) : Frame mount mount :=
  ⟨rfl, rfl, rfl, rfl, rfl, rfl, le_rfl, fun _ => ⟨rfl, rfl⟩⟩

theorem Frame.trans {first second third : Mount} (left : Frame first second)
    (right : Frame second third) : Frame first third :=
  ⟨right.1.trans left.1, right.2.trans left.2, right.3.trans left.3, right.4.trans left.4,
    right.5.trans left.5, right.6.trans left.6, left.7.trans right.7,
    fun ip => ⟨(right.8 ip).1.trans (left.8 ip).1, (right.8 ip).2.trans (left.8 ip).2⟩⟩

section Frames

variable (mount : Mount)

theorem openBuffer_eq : ∃ mem next, mount.openBuffer =
    { mount with area := { mount.area with mem }, nextOffset := next } := by
  unfold Mount.openBuffer
  dsimp only
  generalize (if mount.nextOffset = mount.area.allocOffset then undoBase
    else mount.nextOffset) = next
  split
  · exact ⟨_, _, rfl⟩
  · exact ⟨mount.area.mem, next, rfl⟩

theorem openBuffer_frame : Frame mount mount.openBuffer := by
  obtain ⟨mem, next, same⟩ := openBuffer_eq mount
  rw [same]
  exact ⟨rfl, rfl, rfl, rfl, rfl, rfl, le_rfl, fun _ => ⟨rfl, rfl⟩⟩

theorem openBuffer_stats : mount.openBuffer.stats = mount.stats := by
  obtain ⟨mem, next, same⟩ := openBuffer_eq mount
  rw [same]

theorem openBuffer_limitOf (start : Nat) :
    mount.openBuffer.area.limitOf start = mount.area.limitOf start := by
  obtain ⟨mem, next, same⟩ := openBuffer_eq mount
  rw [same]
  rfl

theorem layPad_frame : Frame mount mount.layPad :=
  ⟨rfl, rfl, rfl, rfl, rfl, rfl, Nat.le_add_right _ _, fun _ => ⟨rfl, rfl⟩⟩

theorem finish_frame (mem : Mem) (bytes : Nat) : Frame mount (mount.finish mem bytes) :=
  ⟨rfl, rfl, rfl, rfl, rfl, rfl, Nat.le_add_right _ _, fun _ => ⟨rfl, rfl⟩⟩

end Frames

/-! ## UNDO -/

/-- What the loop of `hammer_generate_undo` does to everything but the media. -/
theorem undoRecords_frame {fuel : Nat} {mount after : Mount} {zoneOff : Nat} {data : List UInt8}
    (ran : undoRecords fuel mount zoneOff data = .done after) : Frame mount after := by
  induction fuel generalizing mount zoneOff data with
  | zero => cases ran
  | succ fuel ih =>
      rw [undoRecords] at ran
      split at ran
      · cases ran
        exact .refl _
      dsimp only at ran
      have opened := openBuffer_frame mount
      split at ran
      · simp only [Outcome.kkassert_eq_done_iff] at ran
        exact opened.trans ((layPad_frame _).trans (ih ran.2.2))
      · exact opened.trans ((finish_frame _ _ _).trans (ih ran))

theorem Laying.limitOf_eq {first mount : Mount} {start : Nat} {records : List Record}
    (laying : Laying first mount start records) :
    mount.area.limitOf start = first.area.limitOf start := by
  unfold Area.limitOf
  rw [laying.alloc]

/-- An UNDO record has room for its payload and fits into the block. -/
theorem undoSize_spec {mount : Mount} {len : Nat} (room : 40 < Mount.toBoundary mount.nextOffset)
    (aligned : mount.nextOffset % 8 = 0) (some : 0 < len) :
    0 < mount.payload 40 len ∧ mount.payload 40 len ≤ len ∧
      mount.payload 40 len + 40 ≤ mount.undoSize len ∧
      mount.nextOffset % undoAlign + mount.undoSize len ≤ undoAlign ∧
      mount.undoSize len % 8 = 0 := by
  unfold Mount.undoSize Mount.payload Mount.headAlign
  by_cases short : len < Mount.toBoundary mount.nextOffset - 40
  · rw [if_pos short]
    unfold Mount.toBoundary at *
    simp only [undoAlign] at *
    omega
  · rw [if_neg short]
    unfold Mount.toBoundary at *
    simp only [undoAlign] at *
    omega

theorem Laying.nextOffset_aligned {first mount : Mount} {start : Nat} {records : List Record}
    (laying : Laying first mount start records)
    (atNext : mount.nextOffset = mount.area.spot (start + total records)) :
    mount.nextOffset % 8 = 0 := by
  have residue := Area.spot_mod_undoAlign laying.buffered (start + total records)
  have aligned := laying.aligned
  rw [atNext]
  simp only [undoAlign] at residue
  omega

/-- Filling a block that has no room for a record. -/
theorem Laying.fill {first mount : Mount} {start : Nat} {records : List Record}
    (laying : Laying first mount start records)
    (inBlock : mount.openBuffer.nextOffset % undoAlign ≠ 0)
    (room : start + total records < first.area.limitOf start) :
    Laying first mount.openBuffer.layPad start
      (records ++ [padTo (Mount.toBoundary mount.openBuffer.nextOffset)]) := by
  rw [← laying.limitOf_eq] at room
  obtain ⟨opened, atNext⟩ := laying.openBuffer room
  refine opened.layPad atNext ?_ (by rwa [openBuffer_limitOf])
  rwa [atNext, Area.spot_mod_undoAlign opened.buffered] at inBlock

/-- The loop of `hammer_generate_undo` lays down the whole range. -/
theorem undoRecords_laying {first : Mount} {start fuel : Nat} {mount after : Mount} {zoneOff : Nat}
    {data : List UInt8} {records : List Record} (laying : Laying first mount start records)
    (ran : undoRecords fuel mount zoneOff data = .done after)
    (room : start + after.stats ≤ first.area.limitOf start + first.stats) :
    ∃ added, Laying first after start (records ++ added) ∧ UndoPieces zoneOff data added := by
  induction fuel generalizing mount zoneOff data records with
  | zero => cases ran
  | succ fuel ih =>
      rw [undoRecords] at ran
      split at ran
      · next empty =>
          cases ran
          exact ⟨[], by rwa [List.append_nil], List.eq_nil_of_length_eq_zero empty⟩
      next nonempty =>
      dsimp only at ran
      have stats := openBuffer_stats mount
      have limit := laying.limitOf_eq
      split at ran
      · next full =>
          simp only [Outcome.kkassert_eq_done_iff, decide_eq_true_eq] at ran
          obtain ⟨large, inBlock, ran⟩ := ran
          have grows : mount.openBuffer.stats + Mount.toBoundary mount.openBuffer.nextOffset ≤
            after.stats := (undoRecords_frame ran).grows
          rw [stats, laying.stats] at grows
          obtain ⟨added, laid, pieces⟩ := ih (laying.fill inBlock (by omega)) ran
          refine ⟨Laying.padTo (Mount.toBoundary mount.openBuffer.nextOffset) :: added, ?_, ?_⟩
          · rwa [List.append_assoc] at laid
          · exact .inl ⟨rfl, pieces⟩
      · next space =>
          have sizePositive : 0 < mount.openBuffer.undoSize data.length := by
            unfold Mount.undoSize
            split <;> omega
          have grows : mount.openBuffer.stats + mount.openBuffer.undoSize data.length ≤
            after.stats := (undoRecords_frame ran).grows
          rw [stats, laying.stats] at grows
          obtain ⟨opened, atNext⟩ := laying.openBuffer (by omega)
          obtain ⟨positive, countLe, fits, inBlock, sizeAligned⟩ := undoSize_spec (not_le.mp space)
            (opened.nextOffset_aligned atNext) (Nat.pos_of_ne_zero nonempty)
          generalize mount.openBuffer.payload 40 data.length = count at *
          generalize mount.openBuffer.undoSize data.length = size at *
          have taken : (data.take count).length = count := List.length_take_of_le countLe
          obtain ⟨rest, restEq, _, laid⟩ := @putUndo_laid mount.openBuffer.area.crc32
            mount.openBuffer.area.mem mount.openBuffer.nextOffset size mount.openBuffer.undoSeqno
            zoneOff (data.take count) inBlock (by omega) sizeAligned
          rw [Nat.mod_eq_of_lt opened.small, taken] at laid
          rw [taken] at restEq
          have finished := opened.finish atNext laid (by simp) rfl (by dsimp only; omega)
            (fun lo hi apart => putUndo_agree (by omega) apart)
            (by rw [openBuffer_limitOf]; omega)
          obtain ⟨added, laidAll, pieces⟩ := ih finished ran
          refine ⟨{ size, seq := mount.openBuffer.undoSeqno
                    body := .undo (zoneOff % 2 ^ 64) count rest } :: added, ?_, ?_⟩
          · rwa [List.append_assoc] at laidAll
          · exact .inr ⟨count, rest, positive, countLe, fits, rfl, restEq, pieces⟩

/-- `next_offset` is aligned, and so is the end of the area. -/
structure Mount.Aligned (mount : Mount) : Prop where
  alloc : mount.area.allocOffset % undoAlign = 0
  next : mount.nextOffset % 8 = 0

namespace Mount.Aligned

variable {mount : Mount}

/-- After entering a buffer, `next_offset` is as far from the boundary as before. -/
theorem toBoundary_openBuffer (aligned : mount.Aligned) :
    toBoundary mount.openBuffer.nextOffset = toBoundary mount.nextOffset := by
  have base : undoBase % undoAlign = 0 := by decide
  unfold Mount.openBuffer toBoundary
  dsimp only
  by_cases atEnd : mount.nextOffset = mount.area.allocOffset
  · rw [if_pos atEnd, atEnd, aligned.alloc]
    split <;> rw [base]
  · rw [if_neg atEnd]
    split <;> rfl

theorem openBuffer (aligned : mount.Aligned) : mount.openBuffer.Aligned := by
  have boundary := aligned.toBoundary_openBuffer
  have next := aligned.next
  constructor
  · obtain ⟨mem, next, same⟩ := openBuffer_eq mount
    rw [same]
    exact aligned.alloc
  · unfold toBoundary at boundary
    simp only [undoAlign] at boundary
    omega

/-- Behind a PAD there is a whole block. -/
theorem toBoundary_layPad (mount : Mount) : toBoundary mount.layPad.nextOffset = undoAlign := by
  show toBoundary (_ + toBoundary _) = _
  unfold toBoundary
  simp only [undoAlign]
  omega

theorem layPad (aligned : mount.Aligned) : mount.layPad.Aligned := by
  have next := aligned.next
  refine ⟨aligned.alloc, ?_⟩
  show (_ + toBoundary _) % 8 = 0
  unfold toBoundary
  simp only [undoAlign]
  omega

theorem finish (aligned : mount.Aligned) (mem : Mem) {bytes : Nat} (size : bytes % 8 = 0) :
    (mount.finish mem bytes).Aligned := by
  have next := aligned.next
  refine ⟨aligned.alloc, ?_⟩
  show (_ + bytes) % 8 = 0
  omega

end Mount.Aligned

/-- The loop of `hammer_generate_undo` always comes back. -/
theorem undoRecords_returns {fuel : Nat} {mount : Mount} {zoneOff : Nat} {data : List UInt8}
    (aligned : mount.Aligned)
    (enough : 2 * data.length + (if Mount.toBoundary mount.nextOffset ≤ 40 then 1 else 0) < fuel) :
    ∃ after, undoRecords fuel mount zoneOff data = .done after ∧ after.Aligned := by
  induction fuel generalizing mount zoneOff data with
  | zero => omega
  | succ fuel ih =>
      rw [undoRecords]
      by_cases empty : data.length = 0
      · exact ⟨mount, if_pos empty, aligned⟩
      rw [if_neg empty]
      dsimp only
      have opened := aligned.openBuffer
      have boundary := aligned.toBoundary_openBuffer
      by_cases full : Mount.toBoundary mount.openBuffer.nextOffset ≤ 40
      · rw [if_pos full]
        rw [if_pos (boundary ▸ full)] at enough
        obtain ⟨after, ran, afterAligned⟩ := @ih mount.openBuffer.layPad zoneOff data opened.layPad
          (by rw [Mount.Aligned.toBoundary_layPad, if_neg (by decide)]; omega)
        have next := opened.next
        refine ⟨after, ?_, afterAligned⟩
        unfold Mount.toBoundary at full
        simp only [undoAlign] at full
        rw [ran, Outcome.kkassert_of, Outcome.kkassert_of]
        · simp only [undoAlign]
          omega
        · unfold Mount.toBoundary
          simp only [undoAlign]
          omega
      · rw [if_neg full]
        obtain ⟨positive, countLe, fits, inBlock, sizeAligned⟩ := undoSize_spec (not_le.mp full)
          opened.next (Nat.pos_of_ne_zero empty)
        refine ih (opened.finish _ sizeAligned) ?_
        rw [List.length_drop]
        split <;> omega

/-! ## REDO -/

/-- The FIFO is the same. -/
structure SameFifo (mount after : Mount) : Prop where
  area : after.area = mount.area
  nextOffset : after.nextOffset = mount.nextOffset
  undoSeqno : after.undoSeqno = mount.undoSeqno
  stats : after.stats = mount.stats

/-- What has been laid down is a matter of the FIFO only. -/
theorem Laying.sameFifo {first mount after : Mount} {start : Nat} {records : List Record}
    (laying : Laying first mount start records) (same : SameFifo mount after) :
    Laying first after start records := by
  obtain ⟨area, nextOffset, undoSeqno, stats⟩ := same
  obtain ⟨crc, alloc, buffered, names, statsEq, laid, order, small, aligned, padded, ahead⟩ := laying
  rw [← area] at crc alloc buffered names laid padded ahead
  rw [← nextOffset] at names
  rw [← undoSeqno] at order small ahead
  exact ⟨crc, alloc, buffered, names, stats.trans statsEq, laid, order, small, aligned, padded,
    ahead⟩

/-- Only the tracking of inodes differs. -/
structure Tracked (mount after : Mount) : Prop extends SameFifo mount after where
  frame : Frame mount after

theorem Tracked.trans {first second third : Mount} (left : Tracked first second)
    (right : Tracked second third) : Tracked first third :=
  ⟨⟨right.area.trans left.area, right.nextOffset.trans left.nextOffset,
    right.undoSeqno.trans left.undoSeqno, right.stats.trans left.stats⟩,
    left.frame.trans right.frame⟩

theorem redoInsert_tracked {mount after : Mount} {ip : Nat}
    (ran : redoInsert mount ip = .done after) : Tracked mount after := by
  simp only [redoInsert, Outcome.kkassert_eq_done_iff, Outcome.done.injEq] at ran
  rw [← ran.2]
  exact ⟨⟨rfl, rfl, rfl, rfl⟩, ⟨rfl, rfl, rfl, rfl, rfl, rfl, le_rfl, fun _ => ⟨rfl, rfl⟩⟩⟩

/-- Writing an inode with the same identity. -/
theorem update_tracked (mount : Mount) (ip : Nat) {inode : Inode}
    (same : inode.objId = (mount.inodes ip).objId ∧
      inode.objLocalization = (mount.inodes ip).objLocalization) :
    Tracked mount { mount with inodes := Function.update mount.inodes ip inode } := by
  refine ⟨⟨rfl, rfl, rfl, rfl⟩, ⟨rfl, rfl, rfl, rfl, rfl, rfl, le_rfl, fun other => ?_⟩⟩
  dsimp only
  by_cases here : other = ip
  · subst here
    rw [Function.update_self]
    exact same
  · rw [Function.update_of_ne here]
    exact ⟨rfl, rfl⟩

theorem trackRedo_tracked {mount after : Mount} {ip : Nat}
    (ran : trackRedo mount ip = .done after) : Tracked mount after := by
  simp only [trackRedo, Outcome.bind_eq_done_iff] at ran
  obtain ⟨tracked, started, ended⟩ := ran
  have first : Tracked mount tracked := by
    split at started
    · cases started
      exact ⟨⟨rfl, rfl, rfl, rfl⟩, .refl _⟩
    · simp only [Outcome.bind_eq_done_iff, Outcome.done.injEq] at started
      obtain ⟨inserted, insert, same⟩ := started
      rw [← same]
      refine (update_tracked mount ip ?_).trans ((redoInsert_tracked insert).trans
        (update_tracked inserted ip ?_))
      · exact ⟨rfl, rfl⟩
      · exact ⟨rfl, rfl⟩
  split at ended
  · cases ended
    refine first.trans (update_tracked tracked ip ?_)
    exact ⟨rfl, rfl⟩
  · cases ended
    exact first

theorem trackOwner_tracked {mount after : Mount} {ip : Option Nat}
    (ran : trackOwner ip mount = .done after) : Tracked mount after := by
  cases ip with
  | some ip => exact trackRedo_tracked ran
  | none =>
      cases ran
      exact ⟨⟨rfl, rfl, rfl, rfl⟩, .refl _⟩

/-- What the loop of `hammer_generate_redo` does to everything but the media and the
inodes. -/
theorem redoRecords_frame {head : RedoHead} {ip : Option Nat} {fuel : Nat} {mount after : Mount}
    {fileOff : Nat} {payload : Payload}
    (ran : redoRecords head ip fuel mount fileOff payload = .done after) : Frame mount after := by
  induction fuel generalizing mount fileOff payload with
  | zero => cases ran
  | succ fuel ih =>
      unfold redoRecords at ran
      dsimp only at ran
      have opened := openBuffer_frame mount
      split at ran
      · simp only [Outcome.kkassert_eq_done_iff] at ran
        exact opened.trans ((layPad_frame _).trans (ih ran.2.2))
      · rw [Outcome.bind_eq_done_iff] at ran
        obtain ⟨tracked, track, ran⟩ := ran
        refine opened.trans ((trackOwner_tracked track).frame.trans ?_)
        cases payload with
        | count len =>
            cases ran
            exact finish_frame _ _ _
        | data data =>
            dsimp only at ran
            split at ran
            · cases ran
              exact finish_frame _ _ _
            · exact (finish_frame _ _ _).trans (ih ran)

/-- A REDO record has room for its payload and fits into the block. -/
theorem redoSize_spec {mount : Mount} (len : Nat) (room : 64 < Mount.toBoundary mount.nextOffset)
    (aligned : mount.nextOffset % 8 = 0) :
    mount.payload 64 len ≤ len ∧ (0 < len → 0 < mount.payload 64 len) ∧
      mount.payload 64 len + 64 ≤ Mount.headAlign (mount.payload 64 len) + 64 ∧
      mount.nextOffset % undoAlign + (Mount.headAlign (mount.payload 64 len) + 64) ≤ undoAlign ∧
      (Mount.headAlign (mount.payload 64 len) + 64) % 8 = 0 := by
  unfold Mount.payload Mount.headAlign
  unfold Mount.toBoundary at *
  simp only [undoAlign] at *
  omega

/-- Laying down a REDO record. -/
theorem Laying.putRedo {first mount : Mount} {start : Nat} {records : List Record}
    (laying : Laying first mount start records)
    (atNext : mount.nextOffset = mount.area.spot (start + total records))
    (room : start + total records < first.area.limitOf start) (head : RedoHead)
    {bytes fileOff dataBytes : Nat} {data : List UInt8}
    (block : mount.nextOffset % undoAlign + bytes ≤ undoAlign) (fits : data.length + 64 ≤ bytes)
    (aligned : bytes % 8 = 0) (countFits : dataBytes < 2147483648) :
    ∃ record rest, record.body = head.stored fileOff dataBytes rest ∧
      rest.take data.length = data ∧ rest.length = bytes - 64 ∧
      Laying first (mount.finish (Fifo.putRedo mount.area.crc32 mount.area.mem mount.nextOffset
        bytes mount.undoSeqno head fileOff dataBytes data) bytes) start (records ++ [record]) := by
  obtain ⟨rest, restEq, restLength, laid⟩ := @putRedo_laid mount.area.crc32 mount.area.mem
    mount.nextOffset bytes mount.undoSeqno head fileOff dataBytes data block fits aligned countFits
  rw [Nat.mod_eq_of_lt laying.small] at laid
  refine ⟨_, rest, rfl, restEq, restLength, laying.finish atNext laid (by simp [RedoHead.stored]) rfl
    (by dsimp only; omega) (fun lo hi apart => putRedo_agree fits apart) ?_⟩
  rwa [laying.limitOf_eq]

theorem trackOwner_ends (ip : Option Nat) (mount : Mount) :
    (trackOwner ip mount).Ends fun _ => True := by
  have inserts : ∀ (mount : Mount) (ip : Nat), (redoInsert mount ip).Ends fun _ => True :=
    fun _ _ => .kkassert trivial
  cases ip with
  | none => trivial
  | some ip =>
      simp only [trackOwner, trackRedo]
      refine @Outcome.Ends.bind _ _ (fun _ => True) _ _ _ ?_ fun tracked _ _ => ?_
      · split
        · trivial
        · exact (inserts _ ip).bind fun _ _ _ => trivial
      · split <;> trivial

/-- The loop of `hammer_generate_redo` does not run forever. -/
theorem redoRecords_ends {head : RedoHead} {ip : Option Nat} {fuel : Nat} {mount : Mount}
    {fileOff : Nat} {payload : Payload} (aligned : mount.Aligned)
    (enough : 2 * payload.len + (if Mount.toBoundary mount.nextOffset ≤ 64 then 1 else 0) < fuel) :
    (redoRecords head ip fuel mount fileOff payload).Ends Mount.Aligned := by
  induction fuel generalizing mount fileOff payload with
  | zero => omega
  | succ fuel ih =>
      unfold redoRecords
      dsimp only
      have opened := aligned.openBuffer
      have boundary := aligned.toBoundary_openBuffer
      by_cases full : Mount.toBoundary mount.openBuffer.nextOffset ≤ 64
      · rw [if_pos full]
        rw [if_pos (boundary ▸ full)] at enough
        refine .kkassert (.kkassert (ih opened.layPad ?_))
        rw [Mount.Aligned.toBoundary_layPad, if_neg (by decide)]
        omega
      · rw [if_neg full]
        refine (trackOwner_ends ip mount.openBuffer).bind fun tracked track _ => ?_
        have same := trackOwner_tracked track
        have trackedAligned : tracked.Aligned :=
          ⟨by rw [same.area]; exact opened.alloc, by rw [same.nextOffset]; exact opened.next⟩
        rw [← same.nextOffset] at full
        cases payload with
        | count len => exact trackedAligned.finish _ (by decide)
        | data data =>
            dsimp only
            obtain ⟨countLe, positive, fits, inBlock, sizeAligned⟩ :=
              redoSize_spec data.length (not_le.mp full) trackedAligned.next
            split
            · exact trackedAligned.finish _ sizeAligned
            · refine ih (trackedAligned.finish _ sizeAligned) ?_
              simp only [Payload.len] at enough ⊢
              rw [List.length_drop]
              split <;> omega

/-- A payload whose byte count the media structure can hold. -/
def Payload.Fits : Payload → Prop
  | .data _ => True
  | .count len => len < 2147483648

/-- The loop of `hammer_generate_redo` lays down the whole payload. -/
theorem redoRecords_laying {head : RedoHead} {ip : Option Nat} {first : Mount} {start fuel : Nat}
    {mount after : Mount} {fileOff : Nat} {payload : Payload} {records : List Record}
    (fits : payload.Fits) (laying : Laying first mount start records)
    (ran : redoRecords head ip fuel mount fileOff payload = .done after)
    (room : start + after.stats ≤ first.area.limitOf start + first.stats) :
    ∃ added, Laying first after start (records ++ added) ∧
      RedoPieces head fileOff payload added := by
  induction fuel generalizing mount fileOff payload records with
  | zero => cases ran
  | succ fuel ih =>
      unfold redoRecords at ran
      dsimp only at ran
      have stats := openBuffer_stats mount
      have limit := laying.limitOf_eq
      split at ran
      · next full =>
          simp only [Outcome.kkassert_eq_done_iff, decide_eq_true_eq] at ran
          obtain ⟨large, inBlock, ran⟩ := ran
          have grows : mount.openBuffer.stats + Mount.toBoundary mount.openBuffer.nextOffset ≤
            after.stats := (redoRecords_frame ran).grows
          rw [stats, laying.stats] at grows
          obtain ⟨added, laid, pieces⟩ := ih fits (laying.fill inBlock (by omega)) ran
          refine ⟨Laying.padTo (Mount.toBoundary mount.openBuffer.nextOffset) :: added, ?_, ?_⟩
          · rwa [List.append_assoc] at laid
          · cases payload with
            | count len => exact .inl ⟨rfl, pieces⟩
            | data data => exact .inl ⟨rfl, pieces⟩
      · next space =>
          rw [Outcome.bind_eq_done_iff] at ran
          obtain ⟨tracked, track, ran⟩ := ran
          have same := trackOwner_tracked track
          have frame : mount.stats + 64 ≤ after.stats := by
            rw [← stats, ← same.stats]
            cases payload with
            | count len =>
                cases ran
                exact le_rfl
            | data data =>
                dsimp only at ran
                have counted : ∀ mem bytes, (tracked.finish mem (bytes + 64)).stats =
                  tracked.stats + (bytes + 64) := fun _ _ => rfl
                split at ran
                · cases ran
                  rw [counted]
                  omega
                · have grows := (redoRecords_frame ran).grows
                  rw [counted] at grows
                  omega
          rw [laying.stats] at frame
          obtain ⟨opened, atNext⟩ := laying.openBuffer (by omega)
          have opened := opened.sameFifo same.toSameFifo
          rw [← same.nextOffset, ← same.area] at atNext
          rw [← same.nextOffset] at space
          have aligned := opened.nextOffset_aligned atNext
          cases payload with
          | count len =>
              obtain ⟨record, rest, bodyEq, _, restLength, laid⟩ := @Laying.putRedo _ _ _ _ opened
                atNext (by omega) head 64 fileOff len [] (by
                  unfold Mount.toBoundary at space
                  simp only [undoAlign] at *
                  omega) (by simp) (by decide) fits
              cases ran
              obtain rfl := List.eq_nil_of_length_eq_zero restLength
              exact ⟨[record], laid, .inr ⟨bodyEq, rfl⟩⟩
          | data data =>
              dsimp only at ran
              obtain ⟨countLe, positive, sizeFits, inBlock, sizeAligned⟩ :=
                redoSize_spec data.length (not_le.mp space) aligned
              generalize tracked.payload 64 data.length = count at *
              have taken : (data.take count).length = count := List.length_take_of_le countLe
              obtain ⟨record, rest, bodyEq, restEq, _, laid⟩ := @Laying.putRedo _ _ _ _ opened
                atNext (by omega) head (Mount.headAlign count + 64) fileOff count (data.take count)
                inBlock (by omega) sizeAligned (by simp only [undoAlign] at inBlock; omega)
              rw [taken] at restEq
              by_cases complete : data.length - count = 0
              · rw [if_pos complete] at ran
                cases ran
                refine ⟨[record], laid, .inr ⟨count, rest, countLe, bodyEq, restEq, ?_⟩⟩
                rw [if_pos (by omega)]
              · rw [if_neg complete] at ran
                obtain ⟨added, laidAll, pieces⟩ :=
                  @ih _ _ (.data (data.drop count)) _ trivial laid ran
                refine ⟨record :: added, ?_, .inr ⟨count, rest, countLe, bodyEq, restEq, ?_⟩⟩
                · rwa [List.append_assoc] at laidAll
                · rw [if_neg (by omega)]
                  exact ⟨positive (by omega), pieces⟩

end Dragonfly.Hammer.Fifo
