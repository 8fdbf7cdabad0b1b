import Dragonfly.Hammer.Btree.Iterate
import Dragonfly.Hammer.Btree.Place

/-!
# What an iteration finds

An iteration starts where nothing ahead of the cursor is below `key_beg`.  It passes
over records that are not visible, and stops at the first that is, at a subtree for
the mirror filter, or where everything ahead lies behind the end of the range.
-/

namespace Dragonfly.Hammer.Btree

open Dragonfly.Lib

/-! ## The length of the way -/

namespace Node

mutual

/-- A bound for the passes it takes to walk through a node from its first element to
its last. -/
def cost : Node → Nat
  | leaf _ elms => elms.length
  | internal _ elms _ => costOf elms

def costOf : List Link → Nat
  | [] => 0
  | (_, child) :: links => child.cost + 2 + costOf links

end

def costFrom : Node → Nat → Nat
  | leaf _ elms, index => elms.length - index
  | internal _ elms _, index => costOf (elms.drop index)

theorem costOf_drop {elms : List Link} {index : Nat} {link : Link}
    (found : elms[index]? = some link) :
    costOf (elms.drop index) = link.2.cost + 2 + costOf (elms.drop (index + 1)) := by
  obtain ⟨below, here⟩ := List.getElem?_eq_some_iff.mp found
  rw [List.drop_eq_getElem_cons below, here]
  rfl

theorem costOf_drop_le (elms : List Link) (index : Nat) : costOf (elms.drop index) ≤ costOf elms := by
  induction elms generalizing index with
  | nil => rw [List.drop_nil]
  | cons link links ih =>
      obtain ⟨elm, child⟩ := link
      cases index with
      | zero => exact le_rfl
      | succ index =>
          rw [List.drop_succ_cons, costOf]
          exact (ih index).trans (Nat.le_add_left _ _)

theorem costFrom_le (node : Node) (index : Nat) : node.costFrom index ≤ node.cost := by
  cases node with
  | leaf head elms => exact Nat.sub_le _ _
  | internal head elms right => exact costOf_drop_le elms index

theorem costFrom_internal (head : Head) (elms : List Link) (right : Base) (index : Nat) :
    (internal head elms right).costFrom index = costOf (elms.drop index) := rfl

theorem costFrom_zero (node : Node) : node.costFrom 0 = node.cost := by
  cases node <;> rfl

end Node

def framesCost : List Frame → Nat
  | [] => 0
  | frame :: above => 1 + frame.node.costFrom (frame.index + 1) + framesCost above

/-- A bound for the passes from a position to the end of the tree. -/
def Position.cost (pos : Position) : Nat := pos.node.costFrom pos.index + framesCost pos.above

theorem Sits.cost_le {root node : Node} {above : List Frame} (sits : Sits root node above) :
    node.cost + framesCost above ≤ root.cost := by
  induction above generalizing node with
  | nil =>
      obtain rfl : node = root := sits
      exact le_rfl
  | cons frame above ih =>
      obtain ⟨⟨elm, found⟩, up⟩ := sits
      have whole := ih up
      have here := Node.costFrom_le frame.node frame.index
      have split := Node.costOf_drop found
      simp only [framesCost, Frame.node, Node.costFrom] at here ⊢ whole split
      omega

/-- No position of a tree is further from the end than the start. -/
theorem Sits.position_cost_le {root : Node} {pos : Position} (sits : Sits root pos.node pos.above) :
    pos.cost ≤ root.cost :=
  (Nat.add_le_add_right (pos.node.costFrom_le pos.index) _).trans sits.cost_le

/-! ## Positions for a key -/

/-- A position from which an iteration of the keys from `key` on can start. -/
structure Stands (root : Node) (key : Rank) (pos : Position) : Prop where
  sits : Sits root pos.node pos.above
  index_le : pos.index ≤ pos.node.count
  frames : ∀ frame ∈ pos.above, key < frame.rightBound.rank
  here : ∀ head elms right, pos.node = .internal head elms right → pos.index < elms.length →
    key < (sep elms right pos.index).rank

namespace Stands

variable {root : Node} {key : Rank} {pos : Position}

theorem down {head : Head} {elms : List Link} {right : Base} {index : Nat} {above : List Frame}
    {elm : IntElm} {child : Node} (whole : root.Whole)
    (stands : Stands root key ⟨.internal head elms right, index, above⟩)
    (found : elms[index]? = some (elm, child)) :
    Stands root key ⟨child, 0, ⟨head, elms, right, index⟩ :: above⟩ := by
  obtain ⟨below, _⟩ := List.getElem?_eq_some_iff.mp found
  have lower := stands.here head elms right rfl below
  obtain ⟨parent, ok⟩ := stands.sits.ok whole
  obtain ⟨increasing, _, childOk⟩ := (Node.ok_internal_iff.mp ok).child found
  constructor
  · exact stands.sits.down found
  · exact Nat.zero_le _
  · intro frame member
    rcases List.mem_cons.mp member with rfl | member
    · exact lower.trans increasing
    · exact stands.frames frame member
  · rintro head' elms' right' rfl _
    exact lower.trans_le ((Node.ok_internal_iff.mp childOk).lower_sep 0)

theorem up {node : Node} {index : Nat} {frame : Frame} {above : List Frame}
    (stands : Stands root key ⟨node, index, frame :: above⟩) :
    Stands root key ⟨frame.node, frame.index + 1, above⟩ := by
  obtain ⟨⟨elm, found⟩, sits⟩ := stands.sits
  obtain ⟨below, _⟩ := List.getElem?_eq_some_iff.mp found
  constructor
  · exact sits
  · exact below
  · exact fun other member => stands.frames other (List.mem_cons_of_mem frame member)
  · rintro head elms right ⟨⟩ _
    exact stands.frames frame List.mem_cons_self

/-- The next element of a leaf. -/
theorem next {head : Head} {elms : List LeafElm} {index : Nat} {above : List Frame}
    (stands : Stands root key ⟨.leaf head elms, index, above⟩) (below : index < elms.length) :
    Stands root key ⟨.leaf head elms, index + 1, above⟩ :=
  ⟨stands.sits, below, stands.frames, nofun⟩

end Stands

/-- A property of positions that the moves of the loop keep. -/
structure Moves (root : Node) (key : Rank) (Inv : Position → Prop) : Prop where
  up : ∀ {node : Node} {frame : Frame} {above : List Frame},
    Stands root key ⟨node, node.count, frame :: above⟩ → Inv ⟨node, node.count, frame :: above⟩ →
      Inv ⟨frame.node, frame.index + 1, above⟩
  down : ∀ {head : Head} {elms : List Link} {right : Base} {index : Nat} {above : List Frame}
    {elm : IntElm} {child : Node}, Stands root key ⟨.internal head elms right, index, above⟩ →
      elms[index]? = some (elm, child) → Inv ⟨.internal head elms right, index, above⟩ →
      Inv ⟨child, 0, ⟨head, elms, right, index⟩ :: above⟩
  next : ∀ {head : Head} {elms : List LeafElm} {index : Nat} {above : List Frame},
    index < elms.length → Inv ⟨.leaf head elms, index, above⟩ →
      Inv ⟨.leaf head elms, index + 1, above⟩

theorem ahead_leaf (head : Head) (above : List Frame) {elms : List LeafElm} {index : Nat}
    {elm : LeafElm} (found : elms[index]? = some elm) :
    Position.ahead ⟨.leaf head elms, index, above⟩ =
      elm :: Position.ahead ⟨.leaf head elms, index + 1, above⟩ := by
  obtain ⟨below, here⟩ := List.getElem?_eq_some_iff.mp found
  simp only [Position.ahead, Node.recordsFrom, List.drop_eq_getElem_cons below, here,
    List.cons_append]

/-! ## The loop -/

theorem Scan.beyond_iff {scan : Scan} {base : Base} : scan.beyond base = true ↔
    scan.keyEnd.rank < base.rank ∨ scan.keyEnd.rank = base.rank ∧ scan.endInclusive = false := by
  simp [Scan.beyond, cmp_lt_zero_iff, cmp_eq_zero_iff]

theorem Scan.beyond_mono {scan : Scan} {base other : Base} (behind : scan.beyond base = true)
    (le : base.rank ≤ other.rank) : scan.beyond other = true := by
  rw [Scan.beyond_iff] at behind ⊢
  rcases behind with lt | ⟨equal, exclusive⟩
  · exact .inl (lt.trans_le le)
  · rcases le.lt_or_eq with lt | same
    · exact .inl (equal ▸ lt)
    · exact .inr ⟨equal.trans same, exclusive⟩

/-- How the loop ends at a position. -/
inductive Stops (scan : Scan) (pos : Position) : Scan × Option Errno → Prop
  | over (behind : ∀ elm ∈ pos.ahead, scan.beyond elm.base = true) :
      Stops scan pos (scan.goto pos, some .enoent)
  | record {head : Head} {elms : List LeafElm} {elm : LeafElm} (node : pos.node = .leaf head elms)
      (found : elms[pos.index]? = some elm) (within : scan.beyond elm.base = false)
      (visible : scan.invisible elm.base = false) :
      Stops scan pos (scan.goto pos, none)
  | filter {head : Head} {elms : List Link} {right : Base} {link : Link} {cmirror : Cmirror}
      (node : pos.node = .internal head elms right) (found : elms[pos.index]? = some link)
      (within : scan.beyond link.1.base = false)
      (filtered : scan.filtered link.1 = some cmirror) :
      Stops scan pos (cursorMirrorFilter (scan.goto pos) cmirror elms right, none)

theorem Position.down_eq {root child : Node} {head : Head} {elms : List Link} {right : Base}
    {index : Nat} {above : List Frame} {elm : IntElm} (whole : root.Whole)
    (sits : Sits root (.internal head elms right) above)
    (found : elms[index]? = some (elm, child)) :
    Position.down ⟨.internal head elms right, index, above⟩ =
      .done ⟨child, 0, ⟨head, elms, right, index⟩ :: above⟩ := by
  obtain ⟨parent, ok⟩ := sits.ok whole
  obtain ⟨_, refers, childOk⟩ := (Node.ok_internal_iff.mp ok).child found
  have parentOk : child.head.parent = head.offset := by
    cases child with
    | leaf childHead childElms => exact (Node.ok_leaf_iff.mp childOk).parentOk
    | internal childHead childElms childRight => exact (Node.ok_internal_iff.mp childOk).parentOk
  have valid := refers.valid
  have offset := refers.offset
  have btype := refers.btype
  simp only at valid offset btype
  rw [offset] at valid
  simp [Position.down, found, Outcome.kkassert, offset, btype, parentOk, valid]

section Loop

variable {root : Node} {scan : Scan} {fuel : Nat}

/-! Passes of the loop, one for every kind of position. -/

theorem iterateLoop_root {node : Node} :
    iterateLoop (fuel + 1) (scan.goto ⟨node, node.count, []⟩) =
      .done (scan.goto ⟨node, node.count, []⟩, some .enoent) := by
  simp [iterateLoop, Scan.goto]

theorem iterateLoop_up {node : Node} {frame : Frame} {above : List Frame} (whole : root.Whole)
    (sits : Sits root node (frame :: above)) (plain : scan.reblocking = false) :
    iterateLoop (fuel + 1) (scan.goto ⟨node, node.count, frame :: above⟩) =
      iterateLoop fuel (scan.goto ⟨frame.node, frame.index + 1, above⟩) := by
  obtain ⟨parent, ok⟩ := sits.frame_ok whole
  obtain ⟨⟨elm, found⟩, _⟩ := sits
  have offset : elm.subtreeOffset = node.head.offset := (ok.child found).2.1.offset
  obtain ⟨below, _⟩ := List.getElem?_eq_some_iff.mp found
  simp [iterateLoop, Scan.goto, Outcome.kkassert, found, offset, below.ne, plain]

theorem iterateLoop_leaf {head : Head} {elms : List LeafElm} {index : Nat} {above : List Frame}
    {elm : LeafElm} (calm : scan.iterateCheck = false) (found : elms[index]? = some elm)
    (btype : elm.base.btype = .record) :
    iterateLoop (fuel + 1) (scan.goto ⟨.leaf head elms, index, above⟩) =
      if scan.beyond elm.base then .done (scan.goto ⟨.leaf head elms, index, above⟩, some .enoent)
      else if scan.invisible elm.base then
        iterateLoop fuel (scan.goto ⟨.leaf head elms, index + 1, above⟩)
      else .done (scan.goto ⟨.leaf head elms, index, above⟩, none) := by
  obtain ⟨below, _⟩ := List.getElem?_eq_some_iff.mp found
  rw [iterateLoop]
  simp only [Scan.goto, Node.count, if_neg below.ne, found, calm, Bool.false_eq_true, false_and,
    if_false, btype, ne_eq, not_true_eq_false]
  rfl

theorem iterateLoop_internal {head : Head} {elms : List Link} {right : Base} {index : Nat}
    {above : List Frame} {elm : IntElm} {child : Node} (whole : root.Whole)
    (sits : Sits root (.internal head elms right) above)
    (found : elms[index]? = some (elm, child))
    (lower : scan.keyBeg.rank ≤ (sep elms right (index + 1)).rank) :
    iterateLoop (fuel + 1) (scan.goto ⟨.internal head elms right, index, above⟩) =
      if scan.beyond elm.base then
        .done (scan.goto ⟨.internal head elms right, index, above⟩, some .enoent)
      else
        match scan.filtered elm with
        | some cmirror =>
            .done (cursorMirrorFilter (scan.goto ⟨.internal head elms right, index, above⟩) cmirror
              elms right, none)
        | none => iterateLoop fuel (scan.goto ⟨child, 0, ⟨head, elms, right, index⟩ :: above⟩) := by
  obtain ⟨below, _⟩ := List.getElem?_eq_some_iff.mp found
  obtain ⟨parent, ok⟩ := sits.ok whole
  have valid : elm.subtreeOffset ≠ 0 := ((Node.ok_internal_iff.mp ok).child found).2.1.valid
  have down := Position.down_eq whole sits found
  rw [iterateLoop]
  simp only [Scan.goto, Node.count, if_neg below.ne, found, cmp_nonpos_iff, lower, if_true, down,
    Outcome.bind, Outcome.kkassert, decide_eq_true valid]
  rfl

/-- What the loop keeps on its way from one position to another. -/
structure Onward (root : Node) (scan : Scan) (Inv : Position → Prop) (pos final : Position)
    (skipped : List LeafElm) : Prop where
  stands : Stands root scan.keyBeg.rank final
  split : pos.ahead = skipped ++ final.ahead
  unseen : ∀ elm ∈ skipped, scan.invisible elm.base = true
  inv : Inv final
  cost : final.cost ≤ pos.cost

/-- The loop stops after passing over records that are not visible. -/
theorem iterateLoop_stops (whole : root.Whole) {Inv : Position → Prop} {pos : Position}
    (calm : scan.iterateCheck = false) (plain : scan.reblocking = false)
    (moves : Moves root scan.keyBeg.rank Inv) (stands : Stands root scan.keyBeg.rank pos)
    (inv : Inv pos) (enough : pos.cost < fuel) :
    ∃ final skipped result, iterateLoop fuel (scan.goto pos) = .done result ∧
      Onward root scan Inv pos final skipped ∧ Stops scan final result := by
  induction fuel generalizing pos with
  | zero => contradiction
  | succ fuel ih =>
      obtain ⟨node, index, above⟩ := pos
      obtain ⟨parent, ok⟩ := stands.sits.ok whole
      by_cases last : index = node.count
      · subst last
        cases above with
        | nil =>
            refine ⟨_, [], _, iterateLoop_root, ⟨stands, rfl, nofun, inv, le_rfl⟩, .over ?_⟩
            simp [Position.ahead, framesAfter]
        | cons frame above =>
            have cheaper : Position.cost ⟨frame.node, frame.index + 1, above⟩ <
                Position.cost ⟨node, node.count, frame :: above⟩ := by
              simp only [Position.cost, framesCost]
              omega
            obtain ⟨final, skipped, result, done, onward, stops⟩ :=
              ih stands.up (moves.up stands inv) (by omega)
            rw [iterateLoop_up whole stands.sits plain]
            refine ⟨final, skipped, result, done, ?_, stops⟩
            exact ⟨onward.stands, (ahead_up).symm.trans onward.split, onward.unseen, onward.inv,
              onward.cost.trans cheaper.le⟩
      · cases node with
        | leaf head elms =>
            have leafOk := Node.ok_leaf_iff.mp ok
            have below : index < elms.length := lt_of_le_of_ne stands.index_le last
            have found := List.getElem?_eq_getElem below
            have ahead := ahead_leaf head above found
            rw [iterateLoop_leaf calm found (leafOk.btype _ (List.getElem_mem below))]
            by_cases behind : scan.beyond elms[index].base = true
            · rw [if_pos behind]
              refine ⟨_, [], _, rfl, ⟨stands, rfl, nofun, inv, le_rfl⟩, .over fun elm member => ?_⟩
              have sorted := stands.sits.ahead_sorted whole
              rw [ahead] at sorted member
              rcases List.mem_cons.mp member with rfl | member
              · exact behind
              · exact Scan.beyond_mono behind ((List.pairwise_cons.mp sorted).1 elm member).le
            · rw [if_neg behind]
              by_cases unseen : scan.invisible elms[index].base = true
              · rw [if_pos unseen]
                have cheaper : Position.cost ⟨.leaf head elms, index + 1, above⟩ <
                    Position.cost ⟨.leaf head elms, index, above⟩ := by
                  simp only [Position.cost, Node.costFrom]
                  omega
                obtain ⟨final, skipped, result, done, onward, stops⟩ :=
                  ih (stands.next below) (moves.next below inv) (by omega)
                refine ⟨final, elms[index] :: skipped, result, done, ?_, stops⟩
                constructor
                · exact onward.stands
                · rw [ahead, onward.split, List.cons_append]
                · exact List.forall_mem_cons.mpr ⟨unseen, onward.unseen⟩
                · exact onward.inv
                · exact onward.cost.trans cheaper.le
              · rw [if_neg unseen]
                exact ⟨_, [], _, rfl, ⟨stands, rfl, nofun, inv, le_rfl⟩,
                  .record rfl found (eq_false_of_ne_true behind) (eq_false_of_ne_true unseen)⟩
        | internal head elms right =>
            have below : index < elms.length := lt_of_le_of_ne stands.index_le last
            obtain ⟨⟨elm, child⟩, found⟩ : ∃ link, elms[index]? = some link :=
              ⟨_, List.getElem?_eq_getElem below⟩
            obtain ⟨increasing, _⟩ := (Node.ok_internal_iff.mp ok).child found
            have lower := (stands.here head elms right rfl below).trans increasing
            rw [iterateLoop_internal whole stands.sits found lower.le]
            by_cases behind : scan.beyond elm.base = true
            · rw [if_pos behind]
              refine ⟨_, [], _, rfl, ⟨stands, rfl, nofun, inv, le_rfl⟩,
                .over fun record member => ?_⟩
              have least := stands.sits.le_ahead whole index record member
              rw [sep_of_getElem? found] at least
              exact Scan.beyond_mono behind least
            · rw [if_neg behind]
              cases filter : scan.filtered elm with
              | some cmirror =>
                  exact ⟨_, [], _, rfl, ⟨stands, rfl, nofun, inv, le_rfl⟩,
                    .filter rfl found (eq_false_of_ne_true behind) filter⟩
              | none =>
                  have cheaper : Position.cost ⟨child, 0, ⟨head, elms, right, index⟩ :: above⟩ <
                      Position.cost ⟨.internal head elms right, index, above⟩ := by
                    have split := Node.costOf_drop found
                    simp only [Position.cost, framesCost, Node.costFrom_zero, Frame.node,
                      Node.costFrom_internal] at split ⊢
                    omega
                  obtain ⟨final, skipped, result, done, onward, stops⟩ :=
                    ih (stands.down whole found) (moves.down stands found inv) (by omega)
                  refine ⟨final, skipped, result, done, ?_, stops⟩
                  exact ⟨onward.stands, (ahead_down found).symm.trans onward.split, onward.unseen,
                    onward.inv, onward.cost.trans cheaper.le⟩

end Loop

end Dragonfly.Hammer.Btree
