import Dragonfly.Hammer.Btree.Search

/-!
# Iterations of the B-Tree

The loop of `hammer_btree_iterate`.  `elms[index]` past the end of the elements is not read by it
in a tree that is well formed, so the model panics there.
-/

namespace Dragonfly.Hammer.Btree

open Dragonfly.Lib

namespace Scan

/-- The record at `base` lies behind the end of the range, given the comparison of the
end with it. -/
def beyond (scan : Scan) (base : Base) : Bool :=
  cmp scan.keyEnd base < 0 || cmp scan.keyEnd base = 0 && !scan.endInclusive

/-- A record that an as-of iteration passes over. -/
def invisible (scan : Scan) (base : Base) : Bool :=
  match scan.asof with
  | some asof => chkts asof base ≠ 0
  | none => false

/-- The test for a subtree that the mirror filter passes over. -/
def filtered (scan : Scan) (elm : IntElm) : Option Cmirror :=
  scan.cmirror.filter fun cmirror => elm.mirrorTid < cmirror.mirrorTid

end Scan

/-- `hammer_cursor_mirror_filter` -/
def cursorMirrorFilter (scan : Scan) (cmirror : Cmirror) (elms : List Link) (right : Base) :
    Scan :=
  let first := scan.pos.index
  let skipBeg := if first = 0 then leftBound scan.pos.above else sep elms right first
  let last := first + ((elms.drop first).takeWhile (·.1.mirrorTid < cmirror.mirrorTid)).length
  let skipEnd := if last = elms.length then rightBound scan.pos.above else sep elms right last
  { scan.setIndex last with
    cmirror := some
      { cmirror with
        skipBeg := if cmp skipBeg scan.keyBeg < 0 then scan.keyBeg else skipBeg
        skipEnd := if 0 < cmp skipEnd scan.keyEnd then scan.keyEnd else skipEnd } }

/-- The loop of `hammer_btree_iterate`. -/
def iterateLoop : Nat → Scan → Outcome (Scan × Option Errno)
  | 0, _ => .more
  | fuel + 1, scan =>
      if scan.pos.index = scan.pos.node.count then
        match scan.pos.above with
        | [] => .done (scan, some .enoent)
        | frame :: above =>
            let up : Position := ⟨frame.node, frame.index, above⟩
            .kkassert
              ((frame.elms[frame.index]?.map (·.1.subtreeOffset)) = some scan.pos.node.head.offset &&
                frame.index ≠ frame.elms.length)
              (if scan.reblocking then .done ({ scan.goto up with ateDisk := true }, none)
              else iterateLoop fuel (scan.goto { up with index := frame.index + 1 }))
      else
        match scan.pos.node with
        | .internal _ elms right =>
            match elms[scan.pos.index]? with
            | none => .panic
            | some (elm, _) =>
                if scan.beyond elm.base then .done (scan, some .enoent)
                else .kkassert (elm.subtreeOffset ≠ 0)
                  (if cmp scan.keyBeg (sep elms right (scan.pos.index + 1)) ≤ 0 then
                    match scan.filtered elm with
                    | some cmirror => .done (cursorMirrorFilter scan cmirror elms right, none)
                    | none => scan.pos.down.bind fun pos => iterateLoop fuel (scan.goto pos)
                  else .kkassert scan.iterateCheck
                    (scan.pos.down.bind fun pos => iterateLoop fuel (scan.goto pos)))
        | .leaf _ elms =>
            match elms[scan.pos.index]? with
            | none => .panic
            | some elm =>
                if scan.beyond elm.base then .done (scan, some .enoent)
                else if scan.iterateCheck ∧ 0 < cmp scan.keyBeg elm.base then
                  iterateLoop fuel (scan.setIndex (scan.pos.index + 1))
                else
                  let scan := { scan with iterateCheck := false }
                  if elm.base.btype ≠ .record then .done (scan, some .einval)
                  else if scan.invisible elm.base then
                    iterateLoop fuel (scan.setIndex (scan.pos.index + 1))
                  else .done (scan, none)

/-- `hammer_btree_iterate` -/
def iterate (fuel : Nat) (scan : Scan) : Outcome (Scan × Option Errno) :=
  iterateLoop fuel
    (if scan.pos.index < scan.pos.node.count ∧ scan.ateDisk then
      scan.setIndex (scan.pos.index + 1)
    else scan)

/-- `hammer_btree_first` -/
def first (fuel : Nat) (scan : Scan) : Outcome (Scan × Option Errno) :=
  (lookup fuel scan).bind fun (scan, error) =>
    (if error = some .enoent then iterate fuel { scan with ateDisk := false }
    else .done (scan, error)).bind fun (scan, error) =>
      .done ({ scan with ateDisk := true }, error)

end Dragonfly.Hammer.Btree
