import Dragonfly.Hammer.Btree.Search

/-!
# Where a cursor is

A position divides the records of the tree into those in front of it and those ahead
of it.  Going down does not change the division, and going up from the end of a node
to the next element does not either.
-/

namespace Dragonfly.Hammer.Btree

open Dragonfly.Lib

/-- A whole tree keeps the representation invariant. -/
def Node.Whole (root : Node) : Prop := root.Ok rootBtreeBeg.rank rootBtreeEnd.rank 0

namespace Node

/-- The records of a node in front of an index. -/
def recordsTo : Node → Nat → List LeafElm
  | leaf _ elms, index => elms.take index
  | internal _ elms _, index => (elms.take index).flatMap (·.2.records)

/-- The records of a node from an index on. -/
def recordsFrom : Node → Nat → List LeafElm
  | leaf _ elms, index => elms.drop index
  | internal _ elms _, index => (elms.drop index).flatMap (·.2.records)

theorem recordsTo_append_recordsFrom (node : Node) (index : Nat) :
    node.recordsTo index ++ node.recordsFrom index = node.records := by
  cases node with
  | leaf head elms => exact List.take_append_drop index elms
  | internal head elms right =>
      rw [recordsTo, recordsFrom, ← List.flatMap_append, List.take_append_drop, records_internal]

@[simp]
theorem recordsTo_zero (node : Node) : node.recordsTo 0 = [] := by
  cases node <;> rfl

@[simp]
theorem recordsFrom_zero (node : Node) : node.recordsFrom 0 = node.records := by
  rw [← recordsTo_append_recordsFrom node 0, recordsTo_zero, List.nil_append]

@[simp]
theorem recordsFrom_count (node : Node) : node.recordsFrom node.count = [] := by
  cases node with
  | leaf head elms => exact List.drop_length
  | internal head elms right =>
      rw [recordsFrom, count, List.drop_length, List.flatMap_nil]

@[simp]
theorem recordsTo_count (node : Node) : node.recordsTo node.count = node.records := by
  rw [← recordsTo_append_recordsFrom node node.count, recordsFrom_count, List.append_nil]

end Node

namespace Frame

def before (frame : Frame) : List LeafElm := frame.node.recordsTo frame.index

def after (frame : Frame) : List LeafElm := frame.node.recordsFrom (frame.index + 1)

end Frame

/-- The records in front of everything under the frames. -/
def framesBefore : List Frame → List LeafElm
  | [] => []
  | frame :: above => framesBefore above ++ frame.before

/-- The records behind everything under the frames. -/
def framesAfter : List Frame → List LeafElm
  | [] => []
  | frame :: above => frame.after ++ framesAfter above

namespace Position

def before (pos : Position) : List LeafElm :=
  framesBefore pos.above ++ pos.node.recordsTo pos.index

def ahead (pos : Position) : List LeafElm :=
  pos.node.recordsFrom pos.index ++ framesAfter pos.above

end Position

/-- The frames lead from the root of the tree down to the node. -/
def Sits (root : Node) : Node → List Frame → Prop
  | node, [] => node = root
  | node, frame :: above =>
      (∃ elm, frame.elms[frame.index]? = some (elm, node)) ∧ Sits root frame.node above

section Sits

variable {root node child : Node} {above : List Frame} {frame : Frame}

theorem Sits.up (sits : Sits root node (frame :: above)) : Sits root frame.node above := sits.2

theorem Sits.down {head : Head} {elms : List Link} {right : Base} {index : Nat} {elm : IntElm}
    (sits : Sits root (.internal head elms right) above)
    (found : elms[index]? = some (elm, child)) :
    Sits root child (⟨head, elms, right, index⟩ :: above) :=
  ⟨⟨elm, found⟩, sits⟩

theorem recordsFrom_of_getElem? {head : Head} {elms : List Link} {right : Base} {index : Nat}
    {elm : IntElm} (found : elms[index]? = some (elm, child)) :
    (Node.internal head elms right).recordsFrom index =
      child.records ++ (Node.internal head elms right).recordsFrom (index + 1) := by
  obtain ⟨below, here⟩ := List.getElem?_eq_some_iff.mp found
  rw [Node.recordsFrom, List.drop_eq_getElem_cons below, here, List.flatMap_cons, Node.recordsFrom]

/-- The records of the tree around a node. -/
theorem Sits.records (sits : Sits root node above) :
    framesBefore above ++ node.records ++ framesAfter above = root.records := by
  induction above generalizing node with
  | nil =>
      obtain rfl : node = root := sits
      simp [framesBefore, framesAfter]
  | cons frame above ih =>
      obtain ⟨⟨elm, found⟩, up⟩ := sits
      rw [← ih up, ← Node.recordsTo_append_recordsFrom frame.node frame.index,
        Frame.node, recordsFrom_of_getElem? found]
      simp only [framesBefore, framesAfter, Frame.before, Frame.after, Frame.node,
        List.append_assoc]

theorem Sits.before_append_ahead {pos : Position} (sits : Sits root pos.node pos.above) :
    pos.before ++ pos.ahead = root.records := by
  rw [← sits.records, ← Node.recordsTo_append_recordsFrom pos.node pos.index]
  simp only [Position.before, Position.ahead, List.append_assoc]

/-- Going down changes nothing. -/
theorem ahead_down {head : Head} {elms : List Link} {right : Base} {index : Nat} {elm : IntElm}
    (found : elms[index]? = some (elm, child)) :
    Position.ahead ⟨child, 0, ⟨head, elms, right, index⟩ :: above⟩ =
      Position.ahead ⟨.internal head elms right, index, above⟩ := by
  simp only [Position.ahead, recordsFrom_of_getElem? found, Node.recordsFrom_zero, framesAfter,
    Frame.after, Frame.node, List.append_assoc]

/-- Going up from the end of a node to the next element changes nothing. -/
theorem ahead_up :
    Position.ahead ⟨frame.node, frame.index + 1, above⟩ =
      Position.ahead ⟨node, node.count, frame :: above⟩ := by
  simp only [Position.ahead, Node.recordsFrom_count, framesAfter, Frame.after, List.nil_append]

end Sits

/-! ## Separators -/

section Separators

variable {elms : List Link} {right : Base} {index : Nat} {link : Link}

theorem sep_of_getElem? (found : elms[index]? = some link) : sep elms right index = link.1.base := by
  rw [sep, found]

theorem sep_length : sep elms right elms.length = right := by
  rw [sep, List.getElem?_eq_none le_rfl]

theorem rank_sep (elms : List Link) (right : Base) (index : Nat) :
    (sep elms right index).rank = frontKey Link.rank (elms.drop index) right.rank := by
  rw [sep]
  rcases Nat.lt_or_ge index elms.length with below | past
  · rw [List.drop_eq_getElem_cons below, List.getElem?_eq_getElem below]
    rfl
  · rw [List.drop_eq_nil_of_le past, List.getElem?_eq_none past]
    rfl

end Separators

namespace Node.InternalOk

variable {lo hi : Rank} {parent : Nat} {head : Head} {elms : List Link} {right : Base}

/-- The elements from an index on keep to the invariant. -/
theorem drop (ok : InternalOk lo hi parent head elms right) (index : Nat) :
    Fenced Link.rank (fun lo hi link => Refers link.1 link.2 ∧ link.2.Ok lo hi head.offset)
      (elms.drop index) right.rank := by
  have links := ok.links
  rw [← List.take_append_drop index elms, Fenced.append_iff] at links
  exact links.2

theorem take (ok : InternalOk lo hi parent head elms right) (index : Nat) :
    Fenced Link.rank (fun lo hi link => Refers link.1 link.2 ∧ link.2.Ok lo hi head.offset)
      (elms.take index) (sep elms right index).rank := by
  have links := ok.links
  rw [← List.take_append_drop index elms, Fenced.append_iff] at links
  rw [rank_sep]
  exact links.1

/-- The child at an index lies between the separators around it. -/
theorem child (ok : InternalOk lo hi parent head elms right) {index : Nat} {link : Link}
    (found : elms[index]? = some link) :
    (sep elms right index).rank < (sep elms right (index + 1)).rank ∧ Refers link.1 link.2 ∧
      link.2.Ok (sep elms right index).rank (sep elms right (index + 1)).rank head.offset := by
  obtain ⟨below, here⟩ := List.getElem?_eq_some_iff.mp found
  have fenced := ok.drop index
  rw [List.drop_eq_getElem_cons below, here] at fenced
  obtain ⟨increasing, fits, _⟩ := fenced
  rw [sep_of_getElem? found, rank_sep]
  exact ⟨increasing, fits⟩

theorem sep_mono (ok : InternalOk lo hi parent head elms right) {index other : Nat}
    (le : index ≤ other) : (sep elms right index).rank ≤ (sep elms right other).rank := by
  have fenced := ok.drop index
  rw [← List.take_append_drop (other - index) (elms.drop index), Fenced.append_iff,
    List.drop_drop, Nat.add_sub_cancel' le] at fenced
  rw [rank_sep elms right index, rank_sep elms right other,
    ← List.take_append_drop (other - index) (elms.drop index), frontKey_append, List.drop_drop,
    Nat.add_sub_cancel' le]
  exact fenced.1.frontKey_le

theorem lower_sep (ok : InternalOk lo hi parent head elms right) (index : Nat) :
    lo ≤ (sep elms right index).rank := by
  have lower : lo ≤ (sep elms right 0).rank := by
    rw [rank_sep, List.drop_zero]
    exact ok.lower
  exact lower.trans (ok.sep_mono (Nat.zero_le index))

theorem sep_upper (ok : InternalOk lo hi parent head elms right) (index : Nat) :
    (sep elms right index).rank ≤ hi := by
  rw [rank_sep]
  exact (ok.drop index).frontKey_le.trans ok.upper

/-- The records in front of an index are below its separator. -/
theorem recordsTo_lt (ok : InternalOk lo hi parent head elms right) (index : Nat) :
    ∀ elm ∈ (internal head elms right).recordsTo index,
      elm.base.rank < (sep elms right index).rank := by
  intro elm member
  obtain ⟨_, within⟩ := (ok.take index).flatMap_sorted (fun link => link.2.records)
    (fun elm => elm.base.rank) (fun lo hi link _ fit => fit.2.records_sorted)
  exact (within elm member).2

/-- The records from an index on are not below its separator. -/
theorem le_recordsFrom (ok : InternalOk lo hi parent head elms right) (index : Nat) :
    ∀ elm ∈ (internal head elms right).recordsFrom index,
      (sep elms right index).rank ≤ elm.base.rank := by
  intro elm member
  obtain ⟨_, within⟩ := (ok.drop index).flatMap_sorted (fun link => link.2.records)
    (fun elm => elm.base.rank) (fun lo hi link _ fit => fit.2.records_sorted)
  rw [rank_sep]
  exact (within elm member).1

end Node.InternalOk

/-! ## Bounds -/

section Bounds

variable {root node : Node} {above : List Frame} {frame : Frame}

/-- A node of the tree keeps the invariant between the bounds of the cursor. -/
theorem Sits.ok (whole : root.Whole) (sits : Sits root node above) :
    ∃ parent, node.Ok (leftBound above).rank (rightBound above).rank parent := by
  induction above generalizing node with
  | nil =>
      obtain rfl : node = root := sits
      exact ⟨0, whole⟩
  | cons frame above ih =>
      obtain ⟨⟨elm, found⟩, up⟩ := sits
      obtain ⟨parent, ok⟩ := ih up
      exact ⟨_, ((Node.ok_internal_iff.mp ok).child found).2.2⟩

theorem Sits.frame_ok (whole : root.Whole) (sits : Sits root node (frame :: above)) :
    ∃ parent, Node.InternalOk (leftBound above).rank (rightBound above).rank parent frame.head
      frame.elms frame.right := by
  obtain ⟨parent, ok⟩ := Sits.ok whole sits.up
  exact ⟨parent, Node.ok_internal_iff.mp ok⟩

theorem Sits.framesBefore_lt (whole : root.Whole) (sits : Sits root node above) :
    ∀ elm ∈ framesBefore above, elm.base.rank < (leftBound above).rank := by
  induction above generalizing node with
  | nil => nofun
  | cons frame above ih =>
      intro elm member
      obtain ⟨parent, ok⟩ := sits.frame_ok whole
      rcases List.mem_append.mp member with member | member
      · exact (ih sits.up elm member).trans_le (ok.lower_sep frame.index)
      · exact ok.recordsTo_lt frame.index elm member

theorem Sits.le_framesAfter (whole : root.Whole) (sits : Sits root node above) :
    ∀ elm ∈ framesAfter above, (rightBound above).rank ≤ elm.base.rank := by
  induction above generalizing node with
  | nil => nofun
  | cons frame above ih =>
      intro elm member
      obtain ⟨parent, ok⟩ := sits.frame_ok whole
      rcases List.mem_append.mp member with member | member
      · exact ok.le_recordsFrom (frame.index + 1) elm member
      · exact (ok.sep_upper (frame.index + 1)).trans (ih sits.up elm member)

/-- The bounds of a node are not wider than those of the nodes above it. -/
theorem Sits.rightBound_le (whole : root.Whole) (sits : Sits root node above) :
    ∀ frame ∈ above, (rightBound above).rank ≤ frame.rightBound.rank := by
  induction above generalizing node with
  | nil => nofun
  | cons frame above ih =>
      intro other member
      obtain ⟨parent, ok⟩ := sits.frame_ok whole
      rcases List.mem_cons.mp member with rfl | member
      · exact le_rfl
      · exact (ok.sep_upper (frame.index + 1)).trans (ih sits.up other member)

/-- The records ahead of a cursor are in ascending order. -/
theorem Sits.ahead_sorted {pos : Position} (whole : root.Whole)
    (sits : Sits root pos.node pos.above) : pos.ahead.Pairwise (·.base.rank < ·.base.rank) := by
  have sorted := whole.records_sorted.1
  rw [← sits.before_append_ahead] at sorted
  exact (List.pairwise_append.mp sorted).2.1

/-- Nothing ahead of a cursor at an internal node is below the separator at its index. -/
theorem Sits.le_ahead {head : Head} {elms : List Link} {right : Base} (whole : root.Whole)
    (sits : Sits root (.internal head elms right) above) (index : Nat) :
    ∀ elm ∈ Position.ahead ⟨.internal head elms right, index, above⟩,
      (sep elms right index).rank ≤ elm.base.rank := by
  intro elm member
  obtain ⟨parent, ok⟩ := sits.ok whole
  rw [Node.ok_internal_iff] at ok
  rcases List.mem_append.mp member with member | member
  · exact ok.le_recordsFrom index elm member
  · exact (ok.sep_upper index).trans (sits.le_framesAfter whole elm member)

/-- Everything in front of a cursor at an internal node is below the separator at its
index. -/
theorem Sits.before_lt {head : Head} {elms : List Link} {right : Base} (whole : root.Whole)
    (sits : Sits root (.internal head elms right) above) (index : Nat) :
    ∀ elm ∈ Position.before ⟨.internal head elms right, index, above⟩,
      elm.base.rank < (sep elms right index).rank := by
  intro elm member
  obtain ⟨parent, ok⟩ := sits.ok whole
  rw [Node.ok_internal_iff] at ok
  rcases List.mem_append.mp member with member | member
  · exact (sits.framesBefore_lt whole elm member).trans_le (ok.lower_sep index)
  · exact ok.recordsTo_lt index elm member

end Bounds

end Dragonfly.Hammer.Btree
