import Dragonfly.Lib.Outcome
import Dragonfly.Hammer.Btree.Path

/-!
# Cursors and the B-Tree search

A cursor is at a node with all its parents up to the root of the tree, so going up
and down is taking a frame off the list of parents and putting one on it.  The
search is modelled without `HAMMER_CURSOR_INSERT` and `HAMMER_CURSOR_PRUNING`.
-/

namespace Dragonfly.Hammer.Btree

open Dragonfly.Lib

/-- The errors of the B-Tree functions. -/
inductive Errno where
  | enoent
  | einval
  deriving DecidableEq, Repr

/-- `root_btree_beg` -/
def rootBtreeBeg : Base where
  objId := -0x8000000000000000
  key := -0x8000000000000000
  createTid := 1
  deleteTid := 1
  recType := 0
  objType := 0
  btype := .boundary
  localization := 0

/-- `root_btree_end` -/
def rootBtreeEnd : Base where
  objId := 0x7FFFFFFFFFFFFFFF
  key := 0x7FFFFFFFFFFFFFFF
  createTid := 0xFFFFFFFFFFFFFFFF
  deleteTid := 0
  recType := 0xFFFF
  objType := 0
  btype := .boundary
  localization := 0xFFFFFFFF

/-- `elms[index].base` of an internal node; the right boundary stands behind the last
element. -/
def sep (elms : List Link) (right : Base) (index : Nat) : Base :=
  match elms[index]? with
  | some link => link.1.base
  | none => right

/-- A parent of a cursor, with the `parent_index` of the way down. -/
structure Frame where
  head : Head
  elms : List Link
  right : Base
  index : Nat

namespace Frame

def node (frame : Frame) : Node := .internal frame.head frame.elms frame.right

/-- `left_bound` of a cursor under the frame. -/
def leftBound (frame : Frame) : Base := sep frame.elms frame.right frame.index

/-- `right_bound` of a cursor under the frame. -/
def rightBound (frame : Frame) : Base := sep frame.elms frame.right (frame.index + 1)

end Frame

/-- `left_bound` under a list of frames. -/
def leftBound : List Frame → Base
  | [] => rootBtreeBeg
  | frame :: _ => frame.leftBound

/-- `right_bound` under a list of frames. -/
def rightBound : List Frame → Base
  | [] => rootBtreeEnd
  | frame :: _ => frame.rightBound

/-- `node` and `index` of a cursor, with the parents of the node from below. -/
structure Position where
  node : Node
  index : Nat
  above : List Frame

namespace Position

/-- `hammer_cursor_down` -/
def down (pos : Position) : Outcome Position :=
  match pos.node with
  | .leaf .. => .panic
  | .internal head elms right =>
      match elms[pos.index]? with
      | none => .panic
      | some (elm, child) =>
          .kkassert (elm.subtreeOffset ≠ 0 && elm.subtreeOffset = child.head.offset &&
              elm.base.btype = child.type && child.head.parent = head.offset)
            (.done ⟨child, 0, ⟨head, elms, right, pos.index⟩ :: pos.above⟩)

end Position

/-- `struct hammer_cmirror` -/
structure Cmirror where
  mirrorTid : Nat
  skipBeg : Base
  skipEnd : Base

/-- The fields of `struct hammer_cursor` for searches and iterations.  The flags with a
value are options: `asof` is `HAMMER_CURSOR_ASOF`, `createCheck` is
`HAMMER_CURSOR_CREATE_CHECK` and `cmirror` is `HAMMER_CURSOR_MIRROR_FILTERED`. -/
structure Scan where
  pos : Position
  keyBeg : Base
  keyEnd : Base
  endInclusive : Bool
  asof : Option Nat
  createCheck : Option Nat
  ateDisk : Bool
  iterateCheck : Bool
  reblocking : Bool
  cmirror : Option Cmirror

namespace Scan

def goto (scan : Scan) (pos : Position) : Scan := { scan with pos }

def setIndex (scan : Scan) (index : Nat) : Scan := scan.goto { scan.pos with index }

end Scan

/-- One pass of the loop in `hammer_btree_search_node`, as often as there is fuel; the
range of indices is halved every time, so that its length is enough. -/
def narrow (key : Base) (bases : List Base) : Nat → Nat → Nat → Nat
  | 0, b, _ => b
  | fuel + 1, b, s =>
      if 4 < s - b then
        let i := b + (s - b) / 2
        match bases[i]? with
        | none => b
        | some base =>
            if cmp key base ≤ 1 then narrow key bases fuel b i else narrow key bases fuel i s
      else b

/-- `hammer_btree_search_node` -/
def searchNode (key : Base) (bases : List Base) : Nat :=
  narrow key bases bases.length 0 bases.length

/-- A key that is larger than a separator by its creation time only. -/
def createCheck (key base : Base) (check : Option Nat) : Outcome (Option Nat) :=
  if cmp key base = 1 then .kkassert (base.createTid ≠ 1) (.done (some (base.createTid - 1)))
  else .done check

/-- The loop over the separators of an internal node. -/
def scanSeps (key : Base) : List Base → Nat → Option Nat → Outcome (Nat × Option Nat)
  | [], i, check => .done (i, check)
  | base :: bases, i, check =>
      if cmp key base < 0 then .done (i, check)
      else (createCheck key base check).bind fun check => scanSeps key bases (i + 1) check

/-- The last test for an element of a leaf, which is not above the key and differs from
it by its creation time at most. -/
def accepts (key : Base) (asof : Option Nat) (base : Base) : Bool :=
  match asof with
  | some asof => chkts asof base = 0
  | none => cmp key base ≤ 0

/-- The loop over the elements of a leaf, with the result of the search. -/
def scanElms (key : Base) (asof : Option Nat) : List LeafElm → Nat → Outcome (Nat × Bool)
  | [], i => .done (i, false)
  | elm :: elms, i =>
      .kkassert (elm.base.btype = .record)
        (if cmp key elm.base < 0 then .done (i, false)
        else if 1 < cmp key elm.base then scanElms key asof elms (i + 1)
        else if accepts key asof elm.base then .done (i, true)
        else scanElms key asof elms (i + 1))

/-- The loop of the search that goes up until the bounds of the node cover the key. -/
def climb (key : Base) (node : Node) (index : Nat) (above : List Frame) : Outcome Position :=
  if 0 ≤ cmp key (leftBound above) ∧ cmp key (rightBound above) < 0 then .done ⟨node, index, above⟩
  else
    match above with
    | [] => .panic
    | frame :: above => climb key frame.node frame.index above

/-- The rest of the search, from a node that covers the key. -/
def descend : Nat → Scan → Outcome (Scan × Option Errno)
  | 0, _ => .more
  | fuel + 1, scan =>
      match scan.pos.node with
      | .leaf _ elms =>
          let i := searchNode scan.keyBeg (elms.map (·.base))
          .kkassert (elms.length ≤ leafElms)
            ((scanElms scan.keyBeg scan.asof (elms.drop i) i).bind fun (i, found) =>
              .done (scan.setIndex i, if found then none else some .enoent))
      | .internal _ elms right =>
          let bases := elms.map (·.1.base)
          let i := searchNode scan.keyBeg bases
          (scanSeps scan.keyBeg ((bases ++ [right]).drop i) i scan.createCheck).bind
            fun (i, check) =>
              let scan := { scan with createCheck := check }
              if i = 0 then .done (scan.setIndex 0, some .enoent)
              else if i = elms.length + 1 then .done (scan.setIndex (i - 1), some .enoent)
              else (scan.setIndex (i - 1)).pos.down.bind fun pos => descend fuel (scan.goto pos)

/-- `btree_search` -/
def search (fuel : Nat) (scan : Scan) : Outcome (Scan × Option Errno) :=
  (climb scan.keyBeg scan.pos.node scan.pos.index scan.pos.above).bind fun pos =>
    (createCheck scan.keyBeg (leftBound pos.above) scan.createCheck).bind fun check =>
      descend fuel { scan with pos := pos, createCheck := check }

/-- The loop of an as-of lookup. -/
def lookupAsof (fuel : Nat) : Nat → Scan → Outcome (Scan × Option Errno)
  | 0, _ => .more
  | tries + 1, scan =>
      (search fuel { scan with createCheck := none }).bind fun (scan, error) =>
        match error, scan.createCheck with
        | some .enoent, some check =>
            lookupAsof fuel tries { scan with keyBeg := { scan.keyBeg with createTid := check } }
        | error, _ => .done (scan, error)

/-- `hammer_btree_lookup` -/
def lookup (fuel : Nat) (scan : Scan) : Outcome (Scan × Option Errno) :=
  match scan.asof with
  | some asof =>
      lookupAsof fuel fuel
        { scan with iterateCheck := false, keyBeg := { scan.keyBeg with createTid := asof } }
  | none => search fuel { scan with iterateCheck := false }

end Dragonfly.Hammer.Btree
