import Dragonfly.Hammer.Btree.Elm
import Dragonfly.Lib.Fence

/-!
# Nodes of the B-Tree

A node carries its own offset, the parent field and the `mirror_tid` of the media
structure.  The elements of an internal node come with the nodes they refer to,
so a tree is one value; the right boundary of an internal node is kept apart from
the elements.  `Node.Ok` is the representation invariant.
-/

namespace Dragonfly.Hammer.Btree

open Dragonfly.Lib

/-- The fields of `struct hammer_node_ondisk` in front of the elements, with the
offset of the node. -/
structure Head where
  offset : Nat
  parent : Nat
  mirrorTid : Nat
  deriving DecidableEq, Repr

/-- A B-Tree node together with everything below it. -/
inductive Node where
  | leaf (head : Head) (elms : List LeafElm)
  | internal (head : Head) (elms : List (IntElm × Node)) (right : Base)

/-- An element of an internal node and the node it refers to. -/
abbrev Link : Type := IntElm × Node

/-- The separator in front of a child. -/
def Link.rank (link : Link) : Rank := link.1.base.rank

namespace Node

def head : Node → Head
  | leaf head _ => head
  | internal head _ _ => head

def type : Node → Btype
  | leaf .. => .leaf
  | internal .. => .internal

/-- `count` -/
def count : Node → Nat
  | leaf _ elms => elms.length
  | internal _ elms _ => elms.length

/-- Induction over a tree: for an internal node the statement is known of all its
children. -/
@[induction_eliminator]
theorem induct {motive : Node → Prop} (leaf : ∀ head elms, motive (.leaf head elms))
    (internal : ∀ head elms right, (∀ link ∈ elms, motive link.2) →
      motive (.internal head elms right)) (node : Node) : motive node :=
  match node with
  | .leaf head elms => leaf head elms
  | .internal head elms right =>
      internal head elms right fun link _ => Node.induct leaf internal link.2
termination_by sizeOf node
decreasing_by
  rename_i member
  have smaller := List.sizeOf_lt_of_mem member
  cases link
  simp_all
  omega

mutual

/-- The leaf records, in order. -/
def records : Node → List LeafElm
  | leaf _ elms => elms
  | internal _ elms _ => recordsOf elms

def recordsOf : List Link → List LeafElm
  | [] => []
  | (_, child) :: links => child.records ++ recordsOf links

end

theorem recordsOf_eq (links : List Link) :
    recordsOf links = links.flatMap fun link => link.2.records := by
  induction links with
  | nil => rfl
  | cons link links ih =>
      obtain ⟨elm, child⟩ := link
      rw [recordsOf, ih, List.flatMap_cons]

@[simp]
theorem records_leaf (head : Head) (elms : List LeafElm) : (leaf head elms).records = elms := rfl

theorem records_internal (head : Head) (elms : List Link) (right : Base) :
    (internal head elms right).records = elms.flatMap fun link => link.2.records := by
  rw [records, recordsOf_eq]

/-- The elements of an internal node, without the nodes they refer to. -/
def refs : Node → List IntElm
  | leaf .. => []
  | internal _ elms _ => elms.map Prod.fst

/-! ## The representation invariant -/

/-- An element names the type and the offset of the node it refers to. -/
structure Refers (elm : IntElm) (child : Node) : Prop where
  btype : elm.base.btype = child.type
  offset : elm.subtreeOffset = child.head.offset
  valid : elm.subtreeOffset ≠ 0

mutual

/-- The node keeps to the keys from `lo` up to `hi`, names its parent, and so does
everything below it. -/
def Ok (lo hi : Rank) (parent : Nat) : Node → Prop
  | leaf head elms =>
      head.parent = parent ∧ elms.length ≤ leafElms ∧
        elms.Pairwise (·.base.rank < ·.base.rank) ∧
        ∀ elm ∈ elms, (lo ≤ elm.base.rank ∧ elm.base.rank < hi) ∧ elm.base.btype = .record
  | internal head elms right =>
      head.parent = parent ∧ elms ≠ [] ∧ elms.length ≤ intElms ∧
        lo ≤ frontKey Link.rank elms right.rank ∧ right.rank ≤ hi ∧
        LinksOk head.offset elms right.rank

/-- The elements increase up to the right boundary, and every child lies between
its element and the next. -/
def LinksOk (offset : Nat) : List Link → Rank → Prop
  | [], _ => True
  | (elm, child) :: links, right =>
      elm.base.rank < frontKey Link.rank links right ∧
        (Refers elm child ∧ child.Ok elm.base.rank (frontKey Link.rank links right) offset) ∧
        LinksOk offset links right

end

theorem linksOk_iff {offset : Nat} {links : List Link} {right : Rank} :
    LinksOk offset links right ↔
      Fenced Link.rank (fun lo hi link => Refers link.1 link.2 ∧ link.2.Ok lo hi offset) links
        right := by
  induction links with
  | nil => exact Iff.rfl
  | cons link links ih =>
      obtain ⟨elm, child⟩ := link
      rw [LinksOk, ih]
      rfl

/-- An internal node keeps to the invariant. -/
structure InternalOk (lo hi : Rank) (parent : Nat) (head : Head) (elms : List Link) (right : Base) :
    Prop where
  parentOk : head.parent = parent
  nonempty : elms ≠ []
  capacity : elms.length ≤ intElms
  lower : lo ≤ frontKey Link.rank elms right.rank
  upper : right.rank ≤ hi
  links : Fenced Link.rank (fun lo hi link => Refers link.1 link.2 ∧ link.2.Ok lo hi head.offset)
    elms right.rank

theorem ok_internal_iff {lo hi : Rank} {parent : Nat} {head : Head} {elms : List Link}
    {right : Base} :
    (internal head elms right).Ok lo hi parent ↔ InternalOk lo hi parent head elms right := by
  rw [Ok, linksOk_iff]
  exact ⟨fun ⟨a, b, c, d, e, f⟩ => ⟨a, b, c, d, e, f⟩, fun ok =>
    ⟨ok.parentOk, ok.nonempty, ok.capacity, ok.lower, ok.upper, ok.links⟩⟩

/-- A leaf keeps to the invariant. -/
structure LeafOk (lo hi : Rank) (parent : Nat) (head : Head) (elms : List LeafElm) : Prop where
  parentOk : head.parent = parent
  capacity : elms.length ≤ leafElms
  sorted : elms.Pairwise (·.base.rank < ·.base.rank)
  within : ∀ elm ∈ elms, lo ≤ elm.base.rank ∧ elm.base.rank < hi
  btype : ∀ elm ∈ elms, elm.base.btype = .record

theorem ok_leaf_iff {lo hi : Rank} {parent : Nat} {head : Head} {elms : List LeafElm} :
    (leaf head elms).Ok lo hi parent ↔ LeafOk lo hi parent head elms := by
  rw [Ok]
  exact ⟨fun ⟨a, b, c, d⟩ => ⟨a, b, c, fun elm member => (d elm member).1,
    fun elm member => (d elm member).2⟩, fun ok =>
    ⟨ok.parentOk, ok.capacity, ok.sorted, fun elm member =>
      ⟨ok.within elm member, ok.btype elm member⟩⟩⟩

/-- Wider bounds are as good. -/
theorem Ok.mono {node : Node} {lo lo' hi hi' : Rank} {parent : Nat} (ok : node.Ok lo hi parent)
    (lower : lo' ≤ lo) (upper : hi ≤ hi') : node.Ok lo' hi' parent := by
  cases node with
  | leaf head elms =>
      rw [ok_leaf_iff] at ok ⊢
      refine ⟨ok.parentOk, ok.capacity, ok.sorted, ?_, ok.btype⟩
      intro elm member
      obtain ⟨above, below⟩ := ok.within elm member
      exact ⟨lower.trans above, below.trans_le upper⟩
  | internal head elms right =>
      rw [ok_internal_iff] at ok ⊢
      exact ⟨ok.parentOk, ok.nonempty, ok.capacity, lower.trans ok.lower, ok.upper.trans upper,
        ok.links⟩

/-- The records of a tree are in ascending order and inside its bounds. -/
theorem Ok.records_sorted {node : Node} {lo hi : Rank} {parent : Nat}
    (ok : node.Ok lo hi parent) :
    node.records.Pairwise (·.base.rank < ·.base.rank) ∧
      ∀ elm ∈ node.records, lo ≤ elm.base.rank ∧ elm.base.rank < hi := by
  induction node generalizing lo hi parent with
  | leaf head elms =>
      rw [ok_leaf_iff] at ok
      exact ⟨ok.sorted, ok.within⟩
  | internal head elms right ih =>
      rw [ok_internal_iff] at ok
      rw [records_internal]
      obtain ⟨sorted, within⟩ := ok.links.flatMap_sorted (fun link => link.2.records)
        (fun elm => elm.base.rank) (fun lo hi link member fit => ih link member fit.2)
      refine ⟨sorted, ?_⟩
      intro elm member
      obtain ⟨above, below⟩ := within elm member
      exact ⟨ok.lower.trans above, below.trans_le ok.upper⟩

/-! ## Mirroring -/

mutual

/-- Every `mirror_tid` bounds the transaction ids below it. -/
def Mirrored : Node → Prop
  | leaf head elms => ∀ elm ∈ elms,
      elm.base.createTid ≤ head.mirrorTid ∧ elm.base.deleteTid ≤ head.mirrorTid
  | internal head elms _ => LinksMirrored head.mirrorTid elms

def LinksMirrored (bound : Nat) : List Link → Prop
  | [] => True
  | (elm, child) :: links =>
      (elm.mirrorTid ≤ bound ∧ child.head.mirrorTid ≤ elm.mirrorTid ∧ child.Mirrored) ∧
        LinksMirrored bound links

end

/-- An element bounds what it refers to, and `bound` bounds the element. -/
structure LinkMirrored (bound : Nat) (link : Link) : Prop where
  elm : link.1.mirrorTid ≤ bound
  head : link.2.head.mirrorTid ≤ link.1.mirrorTid
  child : link.2.Mirrored

theorem mirrored_internal_iff {head : Head} {elms : List Link} {right : Base} :
    (internal head elms right).Mirrored ↔ ∀ link ∈ elms, LinkMirrored head.mirrorTid link := by
  rw [Mirrored]
  induction elms with
  | nil => simp [LinksMirrored]
  | cons link links ih =>
      obtain ⟨elm, child⟩ := link
      rw [LinksMirrored, ih, List.forall_mem_cons]
      exact and_congr_left fun _ => ⟨fun ⟨a, b, c⟩ => ⟨a, b, c⟩, fun ⟨a, b, c⟩ => ⟨a, b, c⟩⟩

end Node

end Dragonfly.Hammer.Btree
