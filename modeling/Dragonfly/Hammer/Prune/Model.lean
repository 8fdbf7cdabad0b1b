import Mathlib.Algebra.Order.Ring.Int
import Dragonfly.Lib.Outcome
import Dragonfly.Hammer.Disk
import Dragonfly.Hammer.Btree.Elm

/-!
# Pruning

The `hammer` utility turns the snapshots of a file system into windows of transaction
ids, and `hammer_ioc_prune` scans the B-Tree backwards and destroys the records whose
lifetime falls into a window.  The tree is the list of its records in the order of
their keys; a cursor stands behind a number of them.  Statistics, the flusher and the
debugging output are left out.
-/

namespace Dragonfly.Hammer.Prune

open Dragonfly.Lib Dragonfly.Hammer.Btree

/-- `struct hammer_ioc_prune_elm` -/
structure PruneElm where
  begTid : Nat
  endTid : Nat
  modTid : Nat
  deriving DecidableEq, Repr

/-- `HAMMER_MAX_TID` -/
def maxTid : Nat := 0xFFFFFFFFFFFFFFFF

/-- `HAMMER_MAX_PRUNE_ELMS` -/
def maxPruneElms : Nat := 1024 * 1024 / 24

/-- The difference of two transaction ids. -/
def tidSub (tid other : Nat) : Nat := (((tid : Int) - other) % 2 ^ 64).toNat

/-! ## The windows of the utility -/

/-- A snapshot: its transaction id, and the two times of its softlink. -/
structure Snapshot where
  tid : UInt64
  ctime : Int
  mtime : Int

/-- `hammer_softprune_addelm`; the time is kept in `mod_tid` for the time being. -/
def addelm (snapshot : Snapshot) : PruneElm where
  begTid := snapshot.tid.toNat
  endTid := 0
  modTid := ((if snapshot.ctime < snapshot.mtime then snapshot.ctime else snapshot.mtime) % 2 ^ 64).toNat

/-- The loop that removes duplicates and sets `end_tid`; `above` is the element in
front. -/
def fillEnds : Option PruneElm → List PruneElm → List PruneElm
  | _, [] => []
  | none, elm :: elms =>
      { elm with endTid := maxTid } :: fillEnds (some { elm with endTid := maxTid }) elms
  | some above, elm :: elms =>
      if elm.begTid = above.begTid then fillEnds (some above) elms
      else { elm with endTid := above.begTid } :: fillEnds (some { elm with endTid := above.begTid }) elms

/-- The element does not end the search for elements to be retained. -/
def passes (pruneMin now : Int) (elm : PruneElm) : Bool :=
  elm.modTid = 0 || ¬ int64 (now - int64 elm.modTid) < pruneMin

/-- The elements within the minimum retention time are removed. -/
def retain (pruneMin now : Int) (elms : List PruneElm) : List PruneElm :=
  if pruneMin = 0 then elms
  else
    let first := (elms.reverse.dropWhile (passes pruneMin now)).length
    if first = 0 then elms
    else
      match elms.drop first with
      | [] => []
      | elm :: elms => { elm with endTid := maxTid } :: elms

/-- The final element, down to the first transaction. -/
def terminate (elms : List PruneElm) : List PruneElm :=
  match elms.getLast? with
  | none => []
  | some last => elms ++ [⟨1, last.begTid, 0⟩]

/-- `mod_tid` as the kernel expects it. -/
def setMod (elm : PruneElm) : PruneElm := { elm with modTid := tidSub elm.endTid elm.begTid }

/-- `hammer_softprune_finalize` on the elements that `qsort` has sorted. -/
def finalize (pruneMin now : Int) (sorted : List PruneElm) : List PruneElm :=
  (terminate (retain pruneMin now (fillEnds none sorted)).tail).map setMod

/-! ## The scan of the kernel -/

/-- `struct hammer_ioc_prune`, with the flag `HAMMER_IOC_PRUNE_ALL` -/
structure IocPrune where
  all : Bool
  elms : List PruneElm
  keyBeg : Base
  keyEnd : Base

/-- The loop of `prune_should_delete`; the processor traps on a division by zero. -/
def shouldDeleteLoop (base : Base) : List PruneElm → Outcome Bool
  | [] => .done false
  | scan :: elms =>
      if scan.endTid ≤ base.createTid ∨ scan.endTid < base.deleteTid then .done false
      else if base.deleteTid ≠ 0 ∧ scan.begTid ≤ base.createTid ∧ base.deleteTid ≤ scan.endTid then
        .kkassert (scan.modTid ≠ 0)
          (if tidSub base.createTid scan.begTid / scan.modTid =
              tidSub base.deleteTid scan.begTid / scan.modTid then .done true
          else shouldDeleteLoop base elms)
      else shouldDeleteLoop base elms

/-- `prune_should_delete` -/
def shouldDelete (prune : IocPrune) (base : Base) : Outcome Bool :=
  if prune.all then .done (base.deleteTid ≠ 0) else shouldDeleteLoop base prune.elms

/-- What happens at a record: a signal, or what `hammer_delete_at_cursor` answers if it
is called. -/
inductive Event where
  | success
  | signal
  | edeadlk
  | eio
  deriving DecidableEq, Repr

/-- How the call ends: with the scan complete, interrupted, or with an error. -/
inductive Stop where
  | complete
  | interrupted
  | einval
  | eio
  deriving DecidableEq, Repr

/-- `cursor.key_beg` of the scan -/
def cursorBeg (prune : IocPrune) (localization : Nat) : Base where
  localization := prune.keyBeg.localization % 65536 + localization
  objId := prune.keyBeg.objId
  key := -0x8000000000000000
  createTid := 1
  deleteTid := 0
  recType := 0
  objType := 0
  btype := .boundary

/-- `cursor.key_end` for `key_cur` -/
def cursorEnd (keyCur : Base) : Base where
  localization := keyCur.localization
  objId := keyCur.objId
  key := keyCur.key
  createTid := maxTid - 1
  deleteTid := 0
  recType := 0xFFFF
  objType := 0
  btype := .boundary

/-- `hammer_btree_last`: the cursor stands at the last record of the range; the result is
the number of records up to there. -/
def btreeLast (records : List LeafElm) (keyEnd : Base) : Nat :=
  (records.takeWhile fun elm => cmp elm.base keyEnd ≤ 0).length

/-- The record at the cursor, the last of the first `upto`, unless the iteration has left
the range. -/
def current (keyBeg : Base) (records : List LeafElm) (upto : Nat) : Option LeafElm :=
  (records.take upto).getLast?.filter fun elm => cmp keyBeg elm.base ≤ 0

/-- The loop of `hammer_ioc_prune`; a deadlock starts the scan again at `key_cur`. -/
def pruneLoop (prune : IocPrune) (keyBeg : Base) :
    List Event → List LeafElm → Nat → Outcome (List LeafElm × Stop)
  | [], records, upto =>
      match current keyBeg records upto with
      | none => .done (records, .complete)
      | some _ => .more
  | event :: events, records, upto =>
      match current keyBeg records upto with
      | none => .done (records, .complete)
      | some elm =>
          if event = .signal then .done (records, .interrupted)
          else
            (shouldDelete prune elm.base).bind fun
            | false => pruneLoop prune keyBeg events records (upto - 1)
            | true =>
                match event with
                | .edeadlk =>
                    pruneLoop prune keyBeg events records (btreeLast records (cursorEnd elm.base))
                | .eio => .done (records, .eio)
                | _ => pruneLoop prune keyBeg events (records.eraseIdx (upto - 1)) (upto - 1)

/-- `prune->key_cur` at the start -/
def keyStart (prune : IocPrune) (localization : Nat) : Base :=
  { prune.keyEnd with
    localization := prune.keyEnd.localization % 65536 + localization
    key := 0x7FFFFFFFFFFFFFFF }

/-- The arguments are accepted. -/
def IocPrune.valid (prune : IocPrune) : Bool :=
  prune.elms.length ≤ maxPruneElms &&
    prune.keyBeg.localization < 65536 && prune.keyEnd.localization < 65536 &&
    prune.keyBeg.localization ≤ prune.keyEnd.localization &&
    (prune.keyBeg.localization ≠ prune.keyEnd.localization ||
      prune.keyBeg.objId ≤ prune.keyEnd.objId) &&
    !(prune.all && !prune.elms.isEmpty)

/-- `hammer_ioc_prune` through an inode of the given localization -/
def iocPrune (prune : IocPrune) (localization : Nat) (events : List Event) (records : List LeafElm) :
    Outcome (List LeafElm × Stop) :=
  if prune.valid then
    pruneLoop prune (cursorBeg prune localization) events records
      (btreeLast records (cursorEnd (keyStart prune localization)))
  else .done (records, .einval)

end Dragonfly.Hammer.Prune
