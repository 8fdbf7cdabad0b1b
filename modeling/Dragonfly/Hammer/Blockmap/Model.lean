import Dragonfly.Hammer.Disk
import Dragonfly.Lib.Outcome
import Mathlib.Logic.Function.Basic

/-!
# The HAMMER blockmap

`hammer_blockmap.c`: allocation out of the freemap, front-end reservations,
finalization, freeing and de-duplication.  The two on-media layers are functions
of the layer-1 index and the big-block number.  The reservation tree, keyed by
the zone-2 base offset of a big-block, is a partial function of the big-block
number.

A failed `KKASSERT` is the outcome `panic`.  The `again` loops of the two
searches take fuel, and `more` is the outcome of a search that has used it up.
Checksums, the buffer cache and debugging counters are not modelled; every
operation runs to completion without another one interleaving, so the re-checks
under `blkmap_lock` repeat the unlocked ones.
-/

namespace Dragonfly.Hammer

open Dragonfly.Lib

/-- `struct hammer_blockmap_layer1`; `physOffset = none` is `HAMMER_BLOCKMAP_UNAVAIL`. -/
structure Layer1 where
  blocksFree : Int
  physOffset : Option Nat
  deriving DecidableEq

/-- `struct hammer_blockmap_layer2` -/
structure Layer2 where
  zone : Nat
  appendOff : Nat
  bytesFree : Int
  deriving DecidableEq

/-- `struct hammer_reserve`; the two flags are `HAMMER_RESF_ONDELAY` and
`HAMMER_RESF_LAYER2FREE`. -/
structure Reserve where
  flushGroup : Nat := 0
  onDelay : Bool := false
  layer2Free : Bool := false
  refs : Nat
  zone : Nat
  appendOff : Nat
  bytesFree : Int := 0
  deriving DecidableEq

/-- The part of `struct hammer_mount` and of the root volume the blockmap code uses. -/
structure Mount where
  layer1 : Nat → Layer1
  layer2 : Nat → Layer2
  resv : Nat → Option Reserve
  /-- `hmp->blockmap[zone].next_offset` -/
  nextOffset : Nat → Nat
  volumeToRemove : Option Nat
  delayList : List Nat
  rsvFromdelay : Int
  flusherNext : Nat
  /-- `vol0_stat_freebigblocks` -/
  statFreebigblocks : Int
  /-- `hmp->copy_stat_freebigblocks` -/
  copyStatFreebigblocks : Int

/-- Big-block number of an offset in any direct-mapped zone. -/
def bigblock (offset : Nat) : Nat := longOffset offset / largeblockSize

/-- Layer-1 index of an offset in any direct-mapped zone. -/
def layer1Index (offset : Nat) : Nat := longOffset offset / blockmapLayer2

/-- `offset & HAMMER_LARGEBLOCK_MASK` -/
def blockOffset (offset : Nat) : Nat := offset % largeblockSize

namespace Mount

/-- Replace a layer-2 entry. -/
def setLayer2 (hmp : Mount) (block : Nat) (entry : Layer2) : Mount :=
  { hmp with layer2 := Function.update hmp.layer2 block entry }

/-- Replace, insert or remove a reservation. -/
def setResv (hmp : Mount) (block : Nat) (resv : Option Reserve) : Mount :=
  { hmp with resv := Function.update hmp.resv block resv }

/-- Adjust the free big-block counts of the layer-1 entry and of the volume header. -/
def adjustFree (hmp : Mount) (index : Nat) (delta : Int) : Mount :=
  { hmp with
    layer1 := Function.update hmp.layer1 index
      { hmp.layer1 index with blocksFree := (hmp.layer1 index).blocksFree + delta }
    statFreebigblocks := hmp.statFreebigblocks + delta
    copyStatFreebigblocks := hmp.statFreebigblocks + delta }

end Mount

/-! ## The search loop -/

/-- Variables of the `again` loop. -/
structure ScanState where
  nextOffset : Nat
  useHint : Bool
  loops : Nat
  deriving DecidableEq

/-- What one pass over the loop body does. -/
inductive ScanStep where
  | panic
  | enospc
  | again (state : ScanState)
  | found (state : ScanState)
  deriving DecidableEq

/-- Drop the hint once the scan has left the hinted block. -/
def dropHint (hmp : Mount) (zone hint : Nat) (state : ScanState) : ScanState :=
  if state.useHint ∧ state.nextOffset / hintblockSize ≠ hint / hintblockSize then
    { state with nextOffset := hmp.nextOffset zone, useHint := false }
  else state

/-- Reaching the end of the zone restarts the scan at its beginning. -/
def wrapScan (zone : Nat) (state : ScanState) : ScanState :=
  if state.nextOffset = zoneEncode (zone + 1) 0 then
    { state with nextOffset := zoneEncode zone 0, loops := state.loops + 1 }
  else state

/-- The boundary a request may not cross: a buffer, or a big-block for a request
larger than a buffer. -/
def boundary (bytes : Nat) : Nat := if bytes ≤ bufsize then bufsize else largeblockSize

/-- The part of the loop body that looks at the two layers and at the
reservation, once `state` no longer crosses a boundary. -/
def probe (hmp : Mount) (zone : Nat) (skipVol : Option Nat) (state : ScanState) : ScanStep :=
  let next := state.nextOffset
  let offset := blockOffset next
  let entry1 := hmp.layer1 (layer1Index next)
  let nextLayer1 := (next + blockmapLayer2) / blockmapLayer2 * blockmapLayer2
  if offset = 0 ∧ entry1.blocksFree = 0 then
    .again { state with nextOffset := nextLayer1 }
  else
    match entry1.physOffset with
    | none => .panic
    | some phys =>
        if skipVol = some (volDecode phys) then
          .again { state with nextOffset := nextLayer1 }
        else
          let entry2 := hmp.layer2 (bigblock next)
          if entry2.zone ≠ 0 ∧ entry2.zone ≠ zone then
            .again { state with nextOffset := next + (largeblockSize - offset) }
          else if offset < entry2.appendOff then
            .again { state with nextOffset := next + (entry2.appendOff - offset) }
          else
            match hmp.resv (bigblock next) with
            | none => .found state
            | some resv =>
                if resv.zone ≠ zone then
                  .again { state with
                    nextOffset := (next + largeblockSize) / largeblockSize * largeblockSize }
                else if offset < resv.appendOff then
                  .again { state with nextOffset := next + (resv.appendOff - offset) }
                else .found state

/-- One pass over the body of the `again` loop shared by `hammer_blockmap_alloc`
and `hammer_blockmap_reserve`.  A reservation scans without a hint and does not
skip the volume being removed. -/
def scanStep (hmp : Mount) (zone bytes hint : Nat) (skipVol : Option Nat)
    (entry : ScanState) : ScanStep :=
  let state := wrapScan zone (dropHint hmp zone hint entry)
  if state.loops = 2 then .enospc
  else
    let tmpOffset := state.nextOffset + bytes - 1
    if state.nextOffset / boundary bytes ≠ tmpOffset / boundary bytes then
      .again { state with nextOffset := tmpOffset / boundary bytes * boundary bytes }
    else probe hmp zone skipVol state

/-- The `again` loop. -/
def scan (hmp : Mount) (zone bytes hint : Nat) (skipVol : Option Nat) :
    Nat → ScanState → Outcome (Option ScanState)
  | 0, _ => .more
  | fuel + 1, state =>
      match scanStep hmp zone bytes hint skipVol state with
      | .panic => .panic
      | .enospc => .done none
      | .found final => .done (some final)
      | .again next => scan hmp zone bytes hint skipVol fuel next

/-! ## Reservations -/

/-- `hammer_reserve_setdelay` -/
def reserveSetdelay (hmp : Mount) (block : Nat) (resv : Reserve) : Mount :=
  if resv.onDelay then
    { hmp.setResv block (some { resv with flushGroup := hmp.flusherNext + 1 }) with
      delayList := hmp.delayList.erase block ++ [block] }
  else
    { hmp.setResv block (some { resv with
        refs := resv.refs + 1, onDelay := true, flushGroup := hmp.flusherNext + 1 }) with
      delayList := hmp.delayList ++ [block]
      rsvFromdelay := hmp.rsvFromdelay + 1 }

/-- `hammer_reserve_setdelay_offset`; `entry` is the caller's view of layer 2. -/
def reserveSetdelayOffset (hmp : Mount) (block zone : Nat) (entry : Layer2) : Mount :=
  match hmp.resv block with
  | none =>
      reserveSetdelay hmp block
        { zone := zone, refs := 0, appendOff := largeblockSize
          layer2Free := entry.bytesFree = largeblockSize }
  | some resv =>
      reserveSetdelay hmp block
        { resv with layer2Free := resv.layer2Free || decide (entry.bytesFree = largeblockSize) }

/-- `hammer_blockmap_reserve_complete`; `delError` is the result of
`hammer_del_buffers`. -/
def blockmapReserveComplete (hmp : Mount) (block : Nat) (delError : Bool) : Outcome Mount :=
  match hmp.resv block with
  | none => .panic
  | some resv =>
      .kkassert (0 < resv.refs) <|
        let hmp :=
          if resv.refs = 1 ∧ resv.layer2Free then
            let full := { resv with appendOff := largeblockSize }
            if delError then reserveSetdelay hmp block full else hmp.setResv block (some full)
          else hmp
        match hmp.resv block with
        | none => .panic
        | some resv =>
            if resv.refs = 1 then
              .kkassert (!resv.onDelay) <| .done (hmp.setResv block none)
            else .done (hmp.setResv block (some { resv with refs := resv.refs - 1 }))

/-- `hammer_reserve_clrdelay` -/
def reserveClrdelay (hmp : Mount) (block : Nat) (delError : Bool) : Outcome Mount :=
  match hmp.resv block with
  | none => .panic
  | some resv =>
      .kkassert resv.onDelay <|
        let hmp := hmp.setResv block (some { resv with onDelay := false })
        blockmapReserveComplete
          { hmp with delayList := hmp.delayList.erase block, rsvFromdelay := hmp.rsvFromdelay - 1 }
          block delError

/-! ## Allocation -/

/-- Ownership of a free big-block passes to `zone`; used by allocation and by
finalization when layer 2 shows no owner. -/
def takeBigblock (hmp : Mount) (next zone : Nat) : Outcome Mount :=
  let entry := hmp.layer2 (bigblock next)
  if entry.zone = 0 then
    .kkassert (entry.bytesFree = largeblockSize) <| .kkassert (entry.appendOff = 0) <|
      .done ((hmp.adjustFree (layer1Index next) (-1)).setLayer2 (bigblock next)
        { entry with zone := zone })
  else .done hmp

/-- Everything `hammer_blockmap_alloc` does after the loop has settled on `next`. -/
def allocCommit (hmp : Mount) (zone bytes : Nat) (state : ScanState) : Outcome Mount :=
  let next := state.nextOffset
  let block := bigblock next
  let offset := blockOffset next
  (takeBigblock hmp next zone).bind fun hmp =>
    let entry := hmp.layer2 block
    .kkassert (entry.zone = zone) <| .kkassert (entry.appendOff ≤ offset) <|
      let hmp := hmp.setLayer2 block
        { entry with bytesFree := int32 (entry.bytesFree - bytes), appendOff := offset + bytes }
      let tracked :=
        match hmp.resv block with
        | none => Outcome.done hmp
        | some resv =>
            .kkassert (resv.appendOff ≤ offset) <|
              blockmapReserveComplete
                (hmp.setResv block (some { resv with
                  refs := resv.refs + 1, appendOff := offset + bytes, layer2Free := false }))
                block false
      tracked.bind fun hmp =>
        .done (if state.useHint then hmp
          else { hmp with nextOffset := Function.update hmp.nextOffset zone (next + bytes) })

/-- `hammer_blockmap_alloc`; `none` is `ENOSPC`. -/
def blockmapAlloc (fuel : Nat) (hmp : Mount) (zone bytes hint : Nat) :
    Outcome (Option Nat × Mount) :=
  let bytes := roundBytes bytes
  .kkassert (0 < bytes ∧ bytes ≤ xbufsize) <|
  .kkassert (zoneBtreeIndex ≤ zone ∧ zone < maxZones) <|
  .kkassert (zoneDecode (hmp.nextOffset zone) = zone) <|
    let start : ScanState :=
      if hint ≠ 0 ∧ zoneDecode hint = zone then
        { nextOffset := (hint + 15) / 16 * 16, useHint := true, loops := 0 }
      else { nextOffset := hmp.nextOffset zone, useHint := false, loops := 0 }
    (scan hmp zone bytes hint hmp.volumeToRemove fuel start).bind fun result =>
      match result with
      | none => .done (none, hmp)
      | some final =>
          (allocCommit hmp zone bytes final).bind fun hmp => .done (some final.nextOffset, hmp)

/-- Everything `hammer_blockmap_reserve` does after the loop has settled on `next`. -/
def reserveCommit (hmp : Mount) (zone bytes next : Nat) : Mount :=
  let block := bigblock next
  let resv :=
    match hmp.resv block with
    | some resv => { resv with refs := resv.refs + 1 }
    | none =>
        { refs := 1, zone := zone, appendOff := 0
          layer2Free := (hmp.layer2 block).bytesFree = largeblockSize }
  let hmp := hmp.setResv block (some { resv with appendOff := blockOffset next + bytes })
  { hmp with nextOffset := Function.update hmp.nextOffset zone (next + bytes) }

/-- `hammer_blockmap_reserve`; the returned offset identifies the reservation. -/
def blockmapReserve (fuel : Nat) (hmp : Mount) (zone bytes : Nat) :
    Outcome (Option Nat × Mount) :=
  .kkassert (zoneBtreeIndex ≤ zone ∧ zone < maxZones) <|
  .kkassert (zoneDecode (hmp.nextOffset zone) = zone) <|
    let bytes := roundBytes bytes
    .kkassert (0 < bytes ∧ bytes ≤ xbufsize) <|
      let start : ScanState := { nextOffset := hmp.nextOffset zone, useHint := false, loops := 0 }
      (scan hmp zone bytes 0 none fuel start).bind fun result =>
        match result with
        | none => .done (none, hmp)
        | some final =>
            .done (some final.nextOffset, reserveCommit hmp zone bytes final.nextOffset)

/-! ## Finalize and free -/

/-- `hammer_blockmap_finalize`; `resv` tells whether the caller passes the
reservation covering the big-block. -/
def blockmapFinalize (hmp : Mount) (resv : Bool) (zoneOffset bytes : Nat) : Outcome Mount :=
  if bytes = 0 then .done hmp
  else
    let bytes := roundBytes bytes
    let zone := zoneDecode zoneOffset
    let block := bigblock zoneOffset
    .kkassert (bytes ≤ xbufsize) <|
    .kkassert (zoneBtreeIndex ≤ zone ∧ zone < maxZones) <|
    .kkassert ((hmp.layer1 (layer1Index zoneOffset)).physOffset.isSome) <|
      (takeBigblock hmp zoneOffset zone).bind fun hmp =>
        let entry := hmp.layer2 block
        .kkassert (entry.zone = zone) <|
          let hmp :=
            if resv then hmp.setResv block ((hmp.resv block).map ({ · with layer2Free := false }))
            else hmp
          let offset := blockOffset zoneOffset + bytes
          .done (hmp.setLayer2 block
            { entry with
              bytesFree := int32 (entry.bytesFree - bytes)
              appendOff := if entry.appendOff < offset then offset else entry.appendOff })

/-- `hammer_blockmap_free` -/
def blockmapFree (hmp : Mount) (zoneOffset bytes : Nat) : Outcome Mount :=
  if bytes = 0 then .done hmp
  else
    let bytes := roundBytes bytes
    let zone := zoneDecode zoneOffset
    let block := bigblock zoneOffset
    .kkassert (bytes ≤ xbufsize) <|
    .kkassert (zoneOffset / largeblockSize = (zoneOffset + (bytes - 1)) / largeblockSize) <|
    .kkassert (zoneBtreeIndex ≤ zone ∧ zone < maxZones) <|
    .kkassert ((hmp.layer1 (layer1Index zoneOffset)).physOffset.isSome) <|
      let entry := hmp.layer2 block
      .kkassert (entry.zone = zone) <|
        let entry := { entry with bytesFree := int32 (entry.bytesFree + bytes) }
        .kkassert (entry.bytesFree ≤ (largeblockSize : Int)) <|
          if entry.bytesFree = (largeblockSize : Int) then
            let hmp := reserveSetdelayOffset hmp block zone entry
            .done ((hmp.adjustFree (layer1Index zoneOffset) 1).setLayer2 block
              { entry with zone := 0, appendOff := 0 })
          else .done (hmp.setLayer2 block entry)

/-! ## De-duplication -/

/-- `update_bytes_free`; `none` is the underflow refusal. -/
def updateBytesFree (resv : Reserve) (bytes : Nat) : Option Reserve :=
  let temp := int32 (resv.bytesFree - largeblockSize * 2)
  if temp > resv.bytesFree then none
  else some { resv with bytesFree := int32 (resv.bytesFree - bytes) }

/-- `hammer_blockmap_reserve_dedup`; `false` is a `NULL` return. -/
def blockmapReserveDedup (hmp : Mount) (zone bytes zoneOffset : Nat) : Outcome (Bool × Mount) :=
  let block := bigblock zoneOffset
  .kkassert (zoneBtreeIndex ≤ zone ∧ zone < maxZones) <|
    let bytes := roundBytes bytes
    .kkassert (0 < bytes ∧ bytes ≤ xbufsize) <|
    .kkassert ((hmp.layer1 (layer1Index zoneOffset)).physOffset.isSome) <|
      let entry := hmp.layer2 block
      if entry.zone ≠ 0 ∧ entry.zone ≠ zone then .done (false, hmp)
      else
        match hmp.resv block with
        | some resv =>
            if resv.zone ≠ zone then .done (false, hmp)
            else
              match updateBytesFree resv bytes with
              | none => .done (false, hmp)
              | some resv =>
                  .done (true, hmp.setResv block (some { resv with refs := resv.refs + 1 }))
        | none =>
            match updateBytesFree
                { refs := 1, zone := zone, appendOff := 0, bytesFree := entry.bytesFree } bytes with
            | none => .done (false, hmp)
            | some resv => .done (true, hmp.setResv block (some resv))

/-- `hammer_blockmap_dedup`; `false` is the `ERANGE` refusal. -/
def blockmapDedup (hmp : Mount) (zoneOffset bytes : Nat) : Outcome (Bool × Mount) :=
  if bytes = 0 then .done (true, hmp)
  else
    let bytes := roundBytes bytes
    let zone := zoneDecode zoneOffset
    let block := bigblock zoneOffset
    .kkassert (bytes ≤ largeblockSize) <|
    .kkassert (zoneOffset / largeblockSize = (zoneOffset + (bytes - 1)) / largeblockSize) <|
    .kkassert (zoneBtreeIndex ≤ zone ∧ zone < maxZones) <|
    .kkassert ((hmp.layer1 (layer1Index zoneOffset)).physOffset.isSome) <|
      let entry := hmp.layer2 block
      .kkassert (entry.zone = zone) <|
        let temp := int32 (entry.bytesFree - largeblockSize * 2)
        if temp > entry.bytesFree then .done (false, hmp)
        else
          let entry := { entry with bytesFree := int32 (entry.bytesFree - bytes) }
          .kkassert (entry.bytesFree ≤ (largeblockSize : Int)) <|
            .done (true, hmp.setLayer2 block entry)

end Dragonfly.Hammer
