import Mathlib.Algebra.Order.Ring.Int
import Dragonfly.Hammer.Btree.Node
import Dragonfly.Lib.Outcome

/-!
# Rebalancing

`rebalance_node` packs the elements of all children of an internal node into the
first of them, `avg_elms` to a child, and deletes the children left over.  Leaves
and internal nodes are packed by the same loop; `Kind` holds what depends on the
type of the children.  The calls that keep tracked cursors up to date are recorded
in the order in which they are made.
-/

namespace Dragonfly.Hammer.Btree

open Dragonfly.Lib

/-- A call into the cursor tracking code.  The parent is the rebalanced node, and its
children go by the index they have when the loop starts. -/
inductive Call where
  /-- `hammer_cursor_moved_element` -/
  | moved (pindex onode oindex nnode nindex : Nat)
  /-- `hammer_cursor_removed_node` -/
  | removed (node index : Nat)
  /-- `hammer_cursor_deleted_element` -/
  | deleted (index : Nat)
  deriving DecidableEq, Repr

/-- What the packing loop needs to know about children of one type: elements of
type `ε` and a right boundary of type `ρ`. -/
structure Kind (ε ρ : Type) where
  base : ε → Base
  /-- `rebalance_parent_ptrs`, for an element that moves from the node at `source` to
  the node at `target` -/
  parentPtrs (source target : Nat) (elm : ε) : Outcome ε
  /-- the part of `rebalance_closeout` that sets the right boundary -/
  close (count : Nat) (bound : Base) (right : ρ) : Outcome ρ
  node (head : Head) (elms : List ε) (right : ρ) : Node

/-- The node under a new parent. -/
def Node.setParent (offset : Nat) : Node → Node
  | .leaf head elms => .leaf { head with parent := offset } elms
  | .internal head elms right => .internal { head with parent := offset } elms right

/-- Leaves have no right boundary, and nothing below them. -/
def leafKind : Kind LeafElm Unit where
  base := LeafElm.base
  parentPtrs _ _ elm := .done elm
  close _ _ right := .done right
  node head elms _ := .leaf head elms

def linkKind : Kind Link Base where
  base link := link.1.base
  parentPtrs source target link :=
    .kkassert (link.2.head.parent = source) (.done (link.1, link.2.setParent target))
  close count bound _ :=
    .kkassert (decide (count ≠ 0)) (.done { bound with btype := .boundary })
  node := .internal

/-- A locked child (`struct hammer_node_lock`) behind its element in the parent. -/
structure Child (ε ρ : Type) where
  elm : IntElm
  head : Head
  elms : List ε
  right : ρ

/-- The next child as `base_item`: its separator becomes `bound` and keeps its own
type. -/
def Child.reopen {ε ρ : Type} (child : Child ε ρ) (bound : Base) : Child ε ρ :=
  { child with
    elm := { child.elm with base := { bound with btype := child.elm.base.btype } }
    elms := [] }

/-- The state of the packing loop.  The children in front of `base_item` are closed
out, and `base` is `base_item` with `base_count` elements; `root_count`, which is
also the index of `base_item`, is the length of `closed`. -/
structure Pack (ε ρ : Type) where
  closed : List (Child ε ρ)
  base : Child ε ρ
  rest : List (Child ε ρ)
  mirrorTid : Nat
  calls : List Call

namespace Pack

variable {ε ρ : Type} (kind : Kind ε ρ) (pack : Pack ε ρ)

def rootCount : Nat := pack.closed.length

def baseCount : Nat := pack.base.elms.length

/-- `rebalance_closeout`, as far as `base_item` itself is concerned. -/
def closeBase (bound : Base) : Outcome (Child ε ρ) :=
  (kind.close pack.baseCount bound pack.base.right).bind fun right =>
    .done { pack.base with right := right }

/-- Closeout in front of an element; `bound` separates the next child. -/
def advance (bound : Base) : Outcome (Pack ε ρ) :=
  (pack.closeBase kind bound).bind fun closed =>
    match pack.rest with
    | [] => .panic
    | next :: rest =>
        .done { pack with closed := pack.closed ++ [closed], base := next.reopen bound, rest := rest }

/-- An element that is in its place already. -/
def keep (elm : ε) : Pack ε ρ :=
  { pack with base := { pack.base with elms := pack.base.elms ++ [elm] } }

/-- Raise the `mirror_tid` of `base_item`, of the rebalanced node and of its element
to that of the node an element comes from. -/
def raise (tid : Nat) : Pack ε ρ :=
  if pack.base.head.mirrorTid < tid then
    { pack with
      mirrorTid := max pack.mirrorTid tid
      base := { pack.base with
        elm := { pack.base.elm with mirrorTid := max pack.base.elm.mirrorTid tid }
        head := { pack.base.head with mirrorTid := tid } } }
  else pack

def log (call : Call) : Pack ε ρ := { pack with calls := pack.calls ++ [call] }

/-- `hammer_cursor_moved_element` for what is at `i` in the child at `index` and goes
to the end of `base_item`. -/
def moved (index i : Nat) : Pack ε ρ :=
  pack.log (.moved index index i pack.rootCount pack.baseCount)

/-- Move an element of the child at `index` to the end of `base_item`. -/
def place (item : Child ε ρ) (index i : Nat) (elm : ε) : Outcome (Pack ε ρ) :=
  if index = pack.rootCount ∧ i = pack.baseCount then .done (pack.keep elm)
  else
    (if index ≠ pack.rootCount then
      kind.parentPtrs item.head.offset pack.base.head.offset elm
    else .done elm).bind fun elm =>
      .done (((pack.raise item.head.mirrorTid).moved index i).keep elm)

variable (avgElms : Nat)

/-- One pass of the inner loop.  The separator in front of the first element of a
child is the one the parent has. -/
def packElm (item : Child ε ρ) (index i : Nat) (elm : ε) : Outcome (Pack ε ρ) :=
  (if pack.baseCount = avgElms then
    pack.advance kind (if i = 0 then item.elm.base else kind.base elm)
  else .done pack).bind fun pack => pack.place kind item index i elm

/-- The inner loop, from the element at `i` on. -/
def packElms (item : Child ε ρ) (index : Nat) : Nat → List ε → Pack ε ρ → Outcome (Pack ε ρ)
  | _, [], pack => .done pack
  | i, elm :: elms, pack =>
      (pack.packElm kind avgElms item index i elm).bind (packElms item index (i + 1) elms)

/-- The outer loop, from the child at `index` on. -/
def packItems : Nat → List (Child ε ρ) → Pack ε ρ → Outcome (Pack ε ρ)
  | _, [], pack => .done pack
  | index, item :: items, pack =>
      (packElms kind avgElms item index 0 item.elms pack).bind fun pack =>
        packItems (index + 1) items (pack.moved index item.elms.length)

end Pack

/-- The average number of elements per child, or, if that is too low, the one that
goes with fewer children. -/
def avgElms (saturation count children : Nat) : Nat :=
  let avg := (count + (children - 1)) / children
  if count ≠ 0 ∧ avg < saturation then
    let n := (count + (saturation - 1)) / saturation
    (count + (n - 1)) / n
  else avg

/-- What is left of the children, and the calls made for the tracked cursors. -/
structure Repacked (ε ρ : Type) where
  mirrorTid : Nat
  children : List (Child ε ρ)
  deleted : List (Child ε ρ)
  calls : List Call

/-- The calls for the children that are left over, which start at `index`. -/
def deletionCalls (baseCount : Nat) : Nat → Nat → List Call
  | _, 0 => []
  | index, rest + 1 =>
      .removed index baseCount :: .deleted baseCount :: deletionCalls baseCount (index + 1) rest

/-- `rebalance_node`, from the children on. -/
def repack {ε ρ : Type} (kind : Kind ε ρ) (saturation mirrorTid : Nat) (right : Base)
    (first : Child ε ρ) (items : List (Child ε ρ)) : Outcome (Repacked ε ρ) :=
  let children := first :: items
  let count := (children.map (·.elms.length)).sum
  let avg := avgElms saturation count children.length
  let start : Pack ε ρ :=
    { closed := [], base := { first with elms := [] }, rest := items, mirrorTid, calls := [] }
  (start.packItems kind avg 0 children).bind fun pack =>
    (pack.closeBase kind right).bind fun closed =>
      .done {
        mirrorTid := pack.mirrorTid
        children := pack.closed ++ [closed]
        deleted := pack.rest
        calls := pack.calls ++ deletionCalls pack.baseCount (pack.rootCount + 1) pack.rest.length }

namespace Child

/-- The child with its element, as the parent has it. -/
def link {ε ρ : Type} (kind : Kind ε ρ) (child : Child ε ρ) : Link :=
  (child.elm, kind.node child.head child.elms child.right)

def ofLeaf : Link → Outcome (Child LeafElm Unit)
  | (elm, .leaf head elms) => .done ⟨elm, head, elms, ()⟩
  | (_, .internal ..) => .panic

def ofInternal : Link → Outcome (Child Link Base)
  | (_, .leaf ..) => .panic
  | (elm, .internal head elms right) => .done ⟨elm, head, elms, right⟩

end Child

/-- Lock the children; all of them have to be of the type of the first. -/
def collect {ε ρ : Type} (lock : Link → Outcome (Child ε ρ)) : List Link → Outcome (List (Child ε ρ))
  | [] => .done []
  | link :: links => (lock link).bind fun item => (collect lock links).bind fun items =>
      .done (item :: items)

/-- The rebalanced node, the offsets of the deleted children and the cursor calls. -/
structure Rebalanced where
  node : Node
  deleted : List Nat
  calls : List Call

/-- The rebalanced node with the children that are left. -/
def Repacked.finish {ε ρ : Type} (kind : Kind ε ρ) (head : Head) (right : Base)
    (repacked : Repacked ε ρ) : Rebalanced where
  node := .internal { head with mirrorTid := repacked.mirrorTid }
    (repacked.children.map (Child.link kind)) right
  deleted := repacked.deleted.map (·.head.offset)
  calls := repacked.calls

/-- `rebalance_node` for children of one kind. -/
def rebalanceKind {ε ρ : Type} (kind : Kind ε ρ) (lock : Link → Outcome (Child ε ρ))
    (saturation : Nat) (head : Head) (links : List Link) (right : Base) : Outcome Rebalanced :=
  (collect lock links).bind fun children =>
    match children with
    | [] => .done ⟨.internal head links right, [], []⟩
    | first :: items =>
        (repack kind saturation head.mirrorTid right first items).bind fun repacked =>
          .done (repacked.finish kind head right)

/-- `rebalance_node`.  A node without children is left alone. -/
def rebalanceNode (saturation : Nat) : Node → Outcome Rebalanced
  | .leaf head elms => .done ⟨.leaf head elms, [], []⟩
  | .internal head [] right => .done ⟨.internal head [] right, [], []⟩
  | .internal head (link :: links) right =>
      if link.2.type = .leaf then
        rebalanceKind leafKind Child.ofLeaf saturation head (link :: links) right
      else rebalanceKind linkKind Child.ofInternal saturation head (link :: links) right

/-- The saturation `hammer_ioc_rebalance` works with. -/
def clampSaturation (saturation : Int) : Nat :=
  if saturation < intElms / 2 then intElms / 2
  else if intElms < saturation then intElms
  else saturation.toNat

end Dragonfly.Hammer.Btree
