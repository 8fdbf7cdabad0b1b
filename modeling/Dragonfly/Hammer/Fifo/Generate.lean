import Dragonfly.Hammer.Fifo.Recover

/-!
# Laying down UNDO and REDO records

`hammer_undo.c` and `hammer_redo.c`.  The records are written field by field into
the media at the `next_offset` of the FIFO; bytes the code does not write keep
their old contents.  An inode is named by a number, and the red-black tree of
inodes with active REDOs is the list of its members in key order.

Buffers are read and written without errors.  Two things are recorded that the
code does not keep: the requests for which records have been laid down, in order,
and their bytes in one counter instead of two.
-/

namespace Dragonfly.Hammer.Fifo

open Dragonfly.Lib

/-! ## Media structures -/

/-- The fields of `struct hammer_fifo_head`, with the checksum still open. -/
def putHead (mem : Mem) (place type bytes seqno : Nat) : Mem :=
  ((((mem.poke place 2 headSignature).poke (place + 2) 2 type).poke (place + 4) 4 bytes).poke
    (place + 8) 4 seqno).poke (place + 12) 4 0

/-- The fields of `struct hammer_fifo_tail` at the end of a record. -/
def putTail (mem : Mem) (place type bytes : Nat) : Mem :=
  let tail := place + bytes - 8
  ((mem.poke tail 2 tailSignature).poke (tail + 2) 2 type).poke (tail + 4) 4 bytes

/-- The checksum of a record that is otherwise complete. -/
def putCrc (crc32 : List UInt8 → UInt32) (mem : Mem) (place bytes : Nat) : Mem :=
  mem.poke (place + 12) 4 (recordCrc crc32 mem place bytes)

/-- A PAD.  The head and the tail of the smallest one are the same eight bytes. -/
def putPad (mem : Mem) (place bytes : Nat) : Mem :=
  let mem := if place ≠ place + bytes - 8 then putTail mem place typePad bytes else mem
  ((mem.poke place 2 headSignature).poke (place + 2) 2 typePad).poke (place + 4) 4 bytes

/-- One block of `hammer_format_undo`. -/
def putDummy (crc32 : List UInt8 → UInt32) (mem : Mem) (place seqno : Nat) : Mem :=
  let mem := putHead mem place typeDummy undoAlign seqno
  let mem := putTail mem place typeDummy undoAlign
  putCrc crc32 mem place undoAlign

/-- The loop of `hammer_format_undo` over the last `blocks` blocks of a buffer. -/
def formatLoop (crc32 : List UInt8 → UInt32) : Nat → Mem → Nat → Nat → Mem
  | 0, mem, _, _ => mem
  | blocks + 1, mem, place, seqno =>
      formatLoop crc32 blocks (putDummy crc32 mem place seqno) (place + undoAlign) (seqSucc seqno)

/-- `hammer_format_undo` -/
def formatUndo (crc32 : List UInt8 → UInt32) (mem : Mem) (base seqno : Nat) : Mem :=
  formatLoop crc32 32 (mem.blit base (List.replicate bufsize 0)) base seqno

/-- An UNDO record. -/
def putUndo (crc32 : List UInt8 → UInt32) (mem : Mem) (place bytes seqno zoneOff : Nat)
    (data : List UInt8) : Mem :=
  let mem := putHead mem place typeUndo bytes seqno
  let mem := mem.poke (place + 16) 8 zoneOff
  let mem := mem.poke (place + 24) 4 data.length
  let mem := mem.blit (place + 32) data
  let mem := putTail mem place typeUndo bytes
  putCrc crc32 mem place bytes

/-- What a REDO record says about the file. -/
structure RedoHead where
  objid : Nat
  localization : Nat
  flags : Nat
  mtime : Nat
  deriving DecidableEq, Repr

/-- A REDO record. -/
def putRedo (crc32 : List UInt8 → UInt32) (mem : Mem) (place bytes seqno : Nat) (head : RedoHead)
    (fileOff dataBytes : Nat) (data : List UInt8) : Mem :=
  let mem := mem.poke (place + 16) 8 head.objid
  let mem := mem.poke (place + 40) 4 head.localization
  let mem := putHead mem place typeRedo bytes seqno
  let mem := mem.poke (place + 48) 8 head.mtime
  let mem := mem.poke (place + 24) 8 fileOff
  let mem := mem.poke (place + 36) 4 head.flags
  let mem := mem.poke (place + 32) 4 dataBytes
  let mem := mem.blit (place + 56) data
  let mem := putTail mem place typeRedo bytes
  putCrc crc32 mem place bytes

/-! ## The mount -/

/-- The fields of `struct hammer_inode` that belong to the REDO code. -/
structure Inode where
  objId : Nat
  objLocalization : Nat
  /-- `HAMMER_INODE_RDIRTY` -/
  rdirty : Bool
  /-- `HAMMER_INODE_BUFS` -/
  bufs : Bool
  redoFifoStart : Nat
  redoFifoNext : Nat
  deriving DecidableEq, Repr

/-- `struct hammer_undo` -/
structure Undo where
  offset : Nat
  bytes : Nat
  deriving DecidableEq, Repr

/-- The payload of a REDO: the data written, or a byte count without data. -/
inductive Payload where
  | data (bytes : List UInt8)
  | count (len : Nat)
  deriving DecidableEq, Repr

/-- The `len` argument that goes with a payload. -/
def Payload.len : Payload → Nat
  | .data bytes => bytes.length
  | .count len => len

/-- What records are laid down for: a range of the media, or a change to a file. -/
inductive Request where
  | undo (zoneOff : Nat) (data : List UInt8)
  | redo (head : RedoHead) (fileOff : Nat) (payload : Payload)
  deriving DecidableEq, Repr

/-- The part of `struct hammer_mount` that the FIFO code works on. -/
structure Mount where
  area : Area
  nextOffset : Nat
  /-- `first_offset` of the volume header. -/
  firstOffset : Nat
  undoSeqno : Nat
  /-- `undo_lru_list`, the least recently used first. -/
  undos : List Undo
  /-- `HAMMER_MOUNT_REDO_SYNC` -/
  redoSync : Bool
  /-- `HAMMER_MOUNT_REDO_RECOVERY_RUN` -/
  recoveryRun : Bool
  stage2Offset : Nat
  inodes : Nat → Inode
  /-- `rb_redo_root` -/
  redoRoot : List Nat
  /-- `hammer_stats_undo + hammer_stats_redo` -/
  stats : Nat
  requests : List Request

namespace Mount

/-- `hammer_undo_used` -/
def undoUsed (mount : Mount) : Nat :=
  if mount.firstOffset ≤ mount.nextOffset then mount.nextOffset - mount.firstOffset
  else mount.area.allocOffset - mount.firstOffset + longOffset mount.nextOffset

/-- `hammer_undo_space`, and the panic of its callers when there is less than `len`
bytes and three buffers. -/
def checkSpace (mount : Mount) (len : Nat) (rest : Outcome Mount) : Outcome Mount :=
  let maxBytes := mount.area.allocOffset % 2 ^ 52
  .kkassert (mount.undoUsed ≤ maxBytes) <|
    .kkassert (len + 3 * bufsize ≤ maxBytes - mount.undoUsed) rest

/-- Wrap `next_offset`, and format the buffer it enters. -/
def openBuffer (mount : Mount) : Mount :=
  let next := if mount.nextOffset = mount.area.allocOffset then undoBase else mount.nextOffset
  if next % bufsize = 0 then
    { mount with
      nextOffset := next
      area := { mount.area with
        mem := formatUndo mount.area.crc32 mount.area.mem next
          (mount.undoSeqno ^^^ 0x40000000) } }
  else { mount with nextOffset := next }

/-- Bytes up to the next alignment point. -/
def toBoundary (offset : Nat) : Nat := undoAlign - offset % undoAlign

/-- Fill up to the alignment point with a PAD. -/
def layPad (mount : Mount) : Mount :=
  let bytes := toBoundary mount.nextOffset
  { mount with
    area := { mount.area with mem := putPad mount.area.mem mount.nextOffset bytes }
    nextOffset := mount.nextOffset + bytes
    stats := mount.stats + bytes }

/-- Account for a record of `bytes` bytes that has been written at `next_offset`,
and lay down the dummy PAD behind it. -/
def finish (mount : Mount) (mem : Mem) (bytes : Nat) : Mount :=
  let next := mount.nextOffset + bytes
  { mount with
    area := { mount.area with
      mem := if toBoundary next ≠ undoAlign then putPad mem next (toBoundary next) else mem }
    nextOffset := next
    undoSeqno := seqSucc mount.undoSeqno
    stats := mount.stats + bytes }

/-- The payload that fits behind a header of `header` bytes, out of `len`. -/
def payload (mount : Mount) (header len : Nat) : Nat :=
  min (toBoundary mount.nextOffset - header) len

/-- `bytes` rounded up to `HAMMER_HEAD_ALIGN`. -/
def headAlign (bytes : Nat) : Nat := (bytes + 7) / 8 * 8

/-- The size of the UNDO record for the next piece of `len` bytes. -/
def undoSize (mount : Mount) (len : Nat) : Nat :=
  if len < toBoundary mount.nextOffset - 40 then headAlign (mount.payload 40 len) + 40
  else toBoundary mount.nextOffset

end Mount

/-- `hammer_upgrade_undo_4`: the whole area becomes DUMMY records in sequence. -/
def upgradeUndo4 (mount : Mount) : Mount :=
  let blocks := mount.area.limit / undoAlign
  { mount with
    nextOffset := undoBase
    firstOffset := undoBase
    area := { mount.area with
      mem := formatLoop mount.area.crc32 blocks mount.area.mem undoBase 0 }
    stats := mount.stats + blocks * undoAlign
    undoSeqno := blocks % 4294967296 }

/-! ## UNDO -/

/-- `HAMMER_MAX_UNDOS` -/
def maxUndos : Nat := 1024

/-- `hammer_enter_undo_history`; `false` stands for `EALREADY`. -/
def enterUndoHistory (undos : List Undo) (offset bytes : Nat) : Bool × List Undo :=
  match undos.find? (·.offset = offset) with
  | some node =>
      let rest := undos.filter (·.offset ≠ offset)
      if bytes ≤ node.bytes then (false, rest ++ [node])
      else (true, rest ++ [{ node with bytes }])
  | none =>
      if undos.length ≠ maxUndos then (true, undos ++ [{ offset, bytes }])
      else (true, undos.tail ++ [{ offset, bytes }])

/-- The loop of `hammer_generate_undo`. -/
def undoRecords : Nat → Mount → Nat → List UInt8 → Outcome Mount
  | 0, _, _, _ => .more
  | fuel + 1, mount, zoneOff, data =>
      if data.length = 0 then .done mount
      else
        let mount := mount.openBuffer
        let bytes := Mount.toBoundary mount.nextOffset
        if bytes ≤ 40 then
          .kkassert (8 ≤ bytes) <| .kkassert (mount.nextOffset % undoAlign ≠ 0) <|
            undoRecords fuel mount.layPad zoneOff data
        else
          let n := mount.payload 40 data.length
          let bytes := mount.undoSize data.length
          let mem := putUndo mount.area.crc32 mount.area.mem mount.nextOffset bytes
            mount.undoSeqno zoneOff (data.take n)
          undoRecords fuel (mount.finish mem bytes) (zoneOff + n) (data.drop n)

/-! ## REDO -/

/-- Insert an inode into the tree; the key must be new. -/
def redoInsert (mount : Mount) (ip : Nat) : Outcome Mount :=
  let start (other : Nat) := (mount.inodes other).redoFifoStart
  .kkassert (mount.redoRoot.all fun other => start other ≠ start ip) <|
    .done { mount with
      redoRoot := mount.redoRoot.takeWhile (fun other => start other < start ip) ++
        ip :: mount.redoRoot.dropWhile fun other => start other < start ip }

/-- Track the earliest REDO record of an inode. -/
def trackRedo (mount : Mount) (ip : Nat) : Outcome Mount :=
  let next := mount.nextOffset
  let tracked : Outcome Mount :=
    if (mount.inodes ip).rdirty then .done mount
    else
      (redoInsert { mount with
        inodes := Function.update mount.inodes ip
          { mount.inodes ip with redoFifoStart := next } } ip).bind fun mount =>
        .done { mount with
          inodes := Function.update mount.inodes ip { mount.inodes ip with rdirty := true } }
  tracked.bind fun mount =>
    if (mount.inodes ip).redoFifoNext = 0 then
      .done { mount with
        inodes := Function.update mount.inodes ip { mount.inodes ip with redoFifoNext := next } }
    else .done mount

/-- Track the inode a REDO belongs to, if it belongs to one. -/
def trackOwner (ip : Option Nat) (mount : Mount) : Outcome Mount :=
  match ip with
  | some ip => trackRedo mount ip
  | none => .done mount

/-- The inode as the records see it. -/
def redoHead (mount : Mount) (time : Nat) (ip : Option Nat) (flags : Nat) : RedoHead :=
  match ip with
  | some ip =>
      { objid := (mount.inodes ip).objId, localization := (mount.inodes ip).objLocalization
        flags, mtime := time }
  | none => { objid := 0, localization := 0, flags, mtime := time }

/-- The loop of `hammer_generate_redo`.  Without data there is one record only. -/
def redoRecords (head : RedoHead) (ip : Option Nat) :
    Nat → Mount → Nat → Payload → Outcome Mount
  | 0, _, _, _ => .more
  | fuel + 1, mount, fileOff, payload =>
      let mount := mount.openBuffer
      let bytes := Mount.toBoundary mount.nextOffset
      if bytes ≤ 64 then
        .kkassert (8 ≤ bytes) <| .kkassert (mount.nextOffset % undoAlign ≠ 0) <|
          redoRecords head ip fuel mount.layPad fileOff payload
      else
        (trackOwner ip mount).bind fun mount =>
          match payload with
          | .count len =>
              let mem := putRedo mount.area.crc32 mount.area.mem mount.nextOffset 64
                mount.undoSeqno head fileOff len []
              .done (mount.finish mem 64)
          | .data data =>
              let n := mount.payload 64 data.length
              let bytes := Mount.headAlign n + 64
              let mem := putRedo mount.area.crc32 mount.area.mem mount.nextOffset bytes
                mount.undoSeqno head fileOff n (data.take n)
              let mount := mount.finish mem bytes
              if data.length - n = 0 then .done mount
              else redoRecords head ip fuel mount (fileOff + n) (.data (data.drop n))

/-- `hammer_generate_redo` up to the point where it asks for a REDO_SYNC. -/
def layRedo (mount : Mount) (time : Nat) (ip : Option Nat) (fileOff flags : Nat)
    (payload : Payload) : Outcome Mount :=
  let head := redoHead mount time ip flags
  mount.checkSpace payload.len <|
    (redoRecords head ip (2 * payload.len + 2) mount fileOff payload).bind fun mount =>
      .done { mount with requests := mount.requests ++ [.redo head fileOff payload] }

/-- The offset that a REDO_SYNC record has to name; zero if there is none. -/
def redoSyncStart (mount : Mount) : Nat :=
  if mount.recoveryRun then mount.stage2Offset
  else
    match mount.redoRoot with
    | ip :: _ => (mount.inodes ip).redoFifoStart
    | [] => 0

/-- `hammer_generate_redo_sync` -/
def generateRedoSync (mount : Mount) (time : Nat) : Outcome Mount :=
  if redoSyncStart mount = 0 then .done mount
  else
    (layRedo mount time none (redoSyncStart mount) redoSync (.count 0)).bind fun mount =>
      .done { mount with redoSync := true }

/-- `hammer_generate_redo` -/
def generateRedo (mount : Mount) (time : Nat) (ip : Option Nat) (fileOff flags : Nat)
    (payload : Payload) : Outcome Mount :=
  (layRedo mount time ip fileOff flags payload).bind fun mount =>
    if ¬ mount.redoSync ∧ flags ≠ redoSync then generateRedoSync mount time else .done mount

/-- `hammer_generate_undo` -/
def generateUndo (mount : Mount) (time zoneOff : Nat) (data : List UInt8) : Outcome Mount :=
  let synced := if ¬ mount.redoSync then generateRedoSync mount time else .done mount
  synced.bind fun mount =>
    match enterUndoHistory mount.undos zoneOff data.length with
    | (false, undos) => .done { mount with undos }
    | (true, undos) =>
        let mount := { mount with undos }
        mount.checkSpace data.length <|
          (undoRecords (2 * data.length + 2) mount zoneOff data).bind fun mount =>
            .done { mount with requests := mount.requests ++ [.undo zoneOff data] }

/-- `hammer_redo_fifo_start_flush` -/
def redoFifoStartFlush (mount : Mount) (ip : Nat) : Mount :=
  { mount with
    inodes := Function.update mount.inodes ip { mount.inodes ip with redoFifoNext := 0 } }

/-- `hammer_redo_fifo_end_flush` -/
def redoFifoEndFlush (mount : Mount) (ip : Nat) : Outcome Mount :=
  let set (mount : Mount) (inode : Inode) : Mount :=
    { mount with inodes := Function.update mount.inodes ip inode }
  let mount :=
    if (mount.inodes ip).rdirty then
      { set mount { mount.inodes ip with rdirty := false } with
        redoRoot := mount.redoRoot.filter (· ≠ ip) }
    else mount
  let mount :=
    if (mount.inodes ip).bufs then mount else set mount { mount.inodes ip with redoFifoNext := 0 }
  if (mount.inodes ip).redoFifoNext = 0 then .done mount
  else
    (redoInsert (set mount
      { mount.inodes ip with redoFifoStart := (mount.inodes ip).redoFifoNext }) ip).bind
      fun mount => .done (set mount { mount.inodes ip with rdirty := true })

end Dragonfly.Hammer.Fifo
