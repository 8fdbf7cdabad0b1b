import Dragonfly.Lib.Keyed
import Dragonfly.Lib.Seq

/-!
# The scoreboard of selective acknowledgements

The sender keeps the ranges that its peer has acknowledged out of order in a list of blocks.
A block is known by its address, and the block that was found last is kept as a hint.  A
failed assertion, a null pointer and a hint that is not on the list end a computation.
-/

namespace Dragonfly.Net.Sack

open Dragonfly.Lib Dragonfly.Lib.Seq

/-- `struct sackblock` -/
structure SackBlock where
  addr : Nat
  start : BitVec 32
  stop : BitVec 32

/-- `struct raw_sackblock` -/
structure RawSackblock where
  start : BitVec 32
  stop : BitVec 32

/-- `struct scoreboard`, with the address of the next block that is allocated. -/
structure Scoreboard where
  nblocks : Int := 0
  blocks : List SackBlock := []
  lostseq : BitVec 32 := 0
  lastfound : Option Nat := none
  fresh : Nat := 0

/-- `MAXSAVEDBLOCKS` -/
def maxsavedblocks : Int := 8

/-- `tcprexmtthresh` -/
def tcprexmtthresh : Nat := 3

/-- The address of the last block of a list. -/
def lastAddr (blocks : List SackBlock) : Option Nat := blocks.getLast?.map SackBlock.addr

/-- The loop of `sack_block_lookup` over the blocks from the current one on.  The block in
front of the current one is `before`, the loop ends at `last`, and then the result is
`prev`. -/
def lookupLoop (seq : BitVec 32) (last prev : Option Nat) :
    Option Nat → List SackBlock → Option (Bool × Option Nat)
  | _, [] => none
  | before, cur :: rest =>
      if seqGt cur.stop seq then
        if seqGeq seq cur.start then some (true, some cur.addr) else some (false, before)
      else if rest.head?.map SackBlock.addr = last then some (false, prev)
      else lookupLoop seq last prev (some cur.addr) rest

/-- The search of `sack_block_lookup` in a list that is not empty. -/
def search (blocks : List SackBlock) (hint : Option Nat) (seq : BitVec 32) : Option (Bool × Option Nat) :=
  match hint with
  | none => lookupLoop seq none (lastAddr blocks) none blocks
  | some hint =>
      match Keyed.onward SackBlock.addr hint blocks with
      | [] => none
      | found :: back =>
          if seqGeq seq found.start then
            lookupLoop seq none (lastAddr blocks) (lastAddr (Keyed.upTo SackBlock.addr hint blocks)) (found :: back)
          else
            lookupLoop seq (some hint) (lastAddr (Keyed.upTo SackBlock.addr hint blocks)) none blocks

/-- `sack_block_lookup`: whether the number is in a block, the block or the one in front, and
the scoreboard with the new hint. -/
def sackBlockLookup (scb : Scoreboard) (seq : BitVec 32) : Option (Bool × Option Nat × Scoreboard) :=
  if scb.blocks.isEmpty then some (false, none, scb)
  else (search scb.blocks scb.lastfound seq).map fun (inside, sb) => (inside, sb, { scb with lastfound := sb })

/-- A block is taken off the list: what becomes of the hint. -/
def forget (lastfound : Option Nat) (addr : Nat) : Option Nat :=
  if lastfound = some addr then none else lastfound

/-- The loop of `tcp_sack_ack_blocks` -/
def ackLoop (ack : BitVec 32) : List SackBlock → Int → Option Nat → Option (List SackBlock × Int × Option Nat)
  | [], nblocks, lastfound => some ([], nblocks, lastfound)
  | sb :: rest, nblocks, lastfound =>
      if seqLeq sb.stop ack then
        if nblocks - 1 < 0 then none else ackLoop ack rest (nblocks - 1) (forget lastfound sb.addr)
      else if seqGt ack sb.start then some ({ sb with start := ack } :: rest, nblocks, lastfound)
      else some (sb :: rest, nblocks, lastfound)

/-- `tcp_sack_ack_blocks` -/
def tcpSackAckBlocks (scb : Scoreboard) (ack : BitVec 32) : Option Scoreboard :=
  (ackLoop ack scb.blocks scb.nblocks scb.lastfound).map fun (blocks, nblocks, lastfound) =>
    { scb with blocks := blocks, nblocks := nblocks, lastfound := lastfound }

/-- `tcp_sack_cleanup` -/
def tcpSackCleanup (scb : Scoreboard) : Option Scoreboard :=
  if scb.nblocks - scb.blocks.length ≠ 0 then none
  else some { scb with blocks := [], nblocks := 0, lastfound := none }

/-- `tcp_sack_ndsack_blocks` -/
def tcpSackNdsackBlocks (blocks : List RawSackblock) (sndUna : BitVec 32) : Nat :=
  match blocks with
  | [] => 0
  | first :: rest =>
      if seqLt first.start sndUna then 1
      else
        match rest with
        | [] => 0
        | second :: _ => if seqGeq first.start second.start && seqLeq first.stop second.stop then 2 else 0

/-- The loop of `insert_block` that takes off the blocks that are completely overlapped. -/
def swallow (stop : BitVec 32) : List SackBlock → Int → Option Nat → Option (List SackBlock × Int × Option Nat)
  | [], nblocks, lastfound => some ([], nblocks, lastfound)
  | sb :: rest, nblocks, lastfound =>
      if seqGeq stop sb.stop then
        if nblocks - 1 ≤ 0 then none else swallow stop rest (nblocks - 1) (forget lastfound sb.addr)
      else some (sb :: rest, nblocks, lastfound)

/-- The end of `insert_block`, with the working block between `front` and `rest`: the
right-hand side is consolidated. -/
def consolidate (scb : Scoreboard) (front : List SackBlock) (working : SackBlock) (rest : List SackBlock)
    (nblocks : Int) : Option Scoreboard :=
  match swallow working.stop rest nblocks scb.lastfound with
  | none => none
  | some ([], nblocks, lastfound) =>
      some { scb with blocks := front ++ [working], nblocks := nblocks, lastfound := lastfound }
  | some (sb :: rest, nblocks, lastfound) =>
      if seqGeq working.stop sb.start then
        if nblocks - 1 ≤ 0 then none
        else some { scb with
          blocks := front ++ { working with stop := sb.stop } :: rest
          nblocks := nblocks - 1
          lastfound := forget lastfound sb.addr }
      else some { scb with blocks := front ++ working :: sb :: rest, nblocks := nblocks, lastfound := lastfound }

/-- The block `sb` with a new end, if that is further on. -/
def extend (sb : SackBlock) (stop : BitVec 32) : SackBlock :=
  if seqGt stop sb.stop then { sb with stop := stop } else sb

/-- The middle of `insert_block`, after the search. -/
def place (scb : Scoreboard) (newblock : SackBlock) (overlapFront : Bool) (sb : Option Nat) : Option Scoreboard :=
  match sb with
  | none => consolidate scb [] newblock scb.blocks (scb.nblocks + 1)
  | some addr =>
      let front := Keyed.upTo SackBlock.addr addr scb.blocks
      match Keyed.onward SackBlock.addr addr scb.blocks with
      | [] => none
      | sb :: back =>
          if overlapFront || sb.stop == newblock.start then
            consolidate scb front (extend sb newblock.stop) back scb.nblocks
          else consolidate scb (front ++ [sb]) newblock back (scb.nblocks + 1)

/-- `insert_block` -/
def insertBlock (scb : Scoreboard) (newblock : SackBlock) : Option Scoreboard :=
  if scb.nblocks ≤ 0 then none
  else if scb.nblocks = maxsavedblocks then some scb
  else if maxsavedblocks ≤ scb.nblocks then none
  else
    match sackBlockLookup scb newblock.start with
    | none => none
    | some (overlapFront, sb, scb) => place scb newblock overlapFront sb

/-- A block of the loop of `tcp_sack_add_blocks`. -/
def addBlock (scb : Scoreboard) (raw : RawSackblock) : Option Scoreboard :=
  let sb : SackBlock := { addr := scb.fresh, start := raw.start, stop := raw.stop }
  let scb := { scb with fresh := scb.fresh + 1 }
  if scb.blocks.isEmpty then
    if scb.nblocks = 0 then some { scb with blocks := [sb], nblocks := 1 } else none
  else insertBlock scb sb

/-- The loop of `tcp_sack_add_blocks`; `memory` is the number of blocks that can still be
allocated. -/
def addLoop (sndMax : BitVec 32) : List RawSackblock → Nat → Scoreboard → Option Scoreboard
  | [], _, scb => some scb
  | raw :: rest, memory, scb =>
      if seqGt raw.stop sndMax then some scb
      else
        match memory with
        | 0 => some scb
        | memory + 1 => (addBlock scb raw).bind (addLoop sndMax rest memory)

/-- The blocks of an option that `tcp_sack_add_blocks` goes over. -/
def considered (blocks : List RawSackblock) (sndUna : BitVec 32) : List RawSackblock :=
  if 0 < tcpSackNdsackBlocks blocks sndUna then blocks.drop 1 else blocks

/-- `tcp_sack_add_blocks` -/
def tcpSackAddBlocks (scb : Scoreboard) (sndUna sndMax : BitVec 32) (blocks : List RawSackblock) (memory : Nat) :
    Option Scoreboard :=
  addLoop sndMax (considered blocks sndUna) memory scb

/-- The loop of `update_lostseq` over the blocks from the last one on. -/
def lostLoop (sndUna : BitVec 32) (maxseg : Nat) : List SackBlock → Nat → BitVec 32 → BitVec 32
  | [], _, _ => sndUna
  | sb :: rest, nsackblocks, bytesSacked =>
      let sacked := bytesSacked + (sb.stop - sb.start)
      if nsackblocks + 1 = tcprexmtthresh ∨ tcprexmtthresh * maxseg % 2 ^ 32 ≤ sacked.toNat then sb.start
      else lostLoop sndUna maxseg rest (nsackblocks + 1) sacked

/-- The part of `struct tcpcb` that the scoreboard is used with. -/
structure Tcpcb where
  sndUna : BitVec 32
  sndMax : BitVec 32
  rexmtHigh : BitVec 32
  maxseg : Nat
  scb : Scoreboard := {}

/-- `tcp_sack_update_scoreboard` -/
def tcpSackUpdateScoreboard (tp : Tcpcb) (blocks : List RawSackblock) (memory : Nat) : Option Tcpcb :=
  (tcpSackAckBlocks tp.scb tp.sndUna).bind fun scb =>
    (tcpSackAddBlocks scb tp.sndUna tp.sndMax blocks memory).map fun scb =>
      { tp with
        scb := { scb with lostseq := lostLoop tp.sndUna tp.maxseg scb.blocks.reverse 0 0 }
        rexmtHigh := if seqLt tp.rexmtHigh tp.sndUna then tp.sndUna else tp.rexmtHigh }

end Dragonfly.Net.Sack
