import Dragonfly.Kern.Rb.Insert

/-!
# The next element

`RB_NEXT` finds the next element of the tree in order, and the first loop of `RB_SCAN` the first
element of a range.
-/

namespace Dragonfly.Kern.Rb

open Dragonfly.Lib Dragonfly.Lib.Redblack

variable {α κ : Type} [LinearOrder κ] {ord : Order α κ} {head : Head α} {inprog : List (ScanInfo α)}
  {tree left right : RbTree α} {path : Spine α} {color : Color} {elm : α} {range : Range ord}

namespace Holds

theorem parent_eq (holds : Holds head inprog tree path) (root : tree.root = some elm) :
    head.parent elm = Spine.parent path := by
  cases tree with
  | nil => simp [RbTree.root] at root
  | node color left other right =>
      obtain rfl : other = elm := Option.some.inj root
      rw [Head.parent, holds.shape.1]

/-- The focus moves down to the left and to the right. -/
theorem goLeft (holds : Holds head inprog (.node color left elm right) path) :
    Holds head inprog left (⟨.left, color, elm, right⟩ :: path) :=
  down_iff.mp holds

theorem goRight (holds : Holds head inprog (.node color left elm right) path) :
    Holds head inprog right (⟨.right, color, elm, left⟩ :: path) :=
  down_iff.mp holds

end Holds

/-- The leftmost element of a subtree, and the way down to it. -/
theorem leftmost_gives (holds : Holds head inprog (.node color left elm right) path) :
    ∃ other front color' child, Gives (fun fuel => leftmost head fuel elm) other ∧
      RbTree.node color left elm right = Spine.fill front (.node color' .nil other child) ∧
      Spine.before front = [] := by
  induction left generalizing color elm right path with
  | nil =>
      refine ⟨elm, [], color, right, Gives.last fun fuel => ?_, rfl, rfl⟩
      rw [leftmost, Head.left, holds.shape.1]
      rfl
  | node color' left tmp right' ih =>
      obtain ⟨other, front, color'', child, gives, split, before⟩ := ih holds.goLeft
      refine ⟨other, front ++ [⟨.left, color, elm, right⟩], color'', child, Gives.pass (fun fuel => ?_) gives,
        ?_, ?_⟩
      · rw [leftmost, Head.left, holds.shape.1]
        rfl
      · rw [Spine.fill_append, ← split]
        rfl
      · rw [Spine.before_append, before]
        rfl

variable [DecidableEq α]

/-- The loop that goes up finds the element behind the subtree. -/
theorem climb_gives (holds : Holds head inprog tree path) (root : tree.root = some elm) :
    Gives (fun fuel => climb head fuel elm) (Spine.after path).head? := by
  have parent := holds.parent_eq root
  induction path generalizing tree elm with
  | nil =>
      apply Gives.last
      intro fuel
      rw [climb, parent]
      rfl
  | cons frame path ih =>
      rcases frame with ⟨side, color, up, sibling⟩
      cases side with
      | left =>
          have ne : head.right up ≠ some elm := by
            rw [Head.right, holds.above_entry]
            exact holds.root_ne root
          apply Gives.last
          intro fuel
          rw [climb, parent]
          simp only [Spine.parent, if_neg ne]
          rfl
      | right =>
          have same : head.right up = some elm := by
            rw [Head.right, holds.above_entry, ← root]
            rfl
          have above := holds.up
          have rest := ih above (RbTree.root_make _ _ _ _ _) (above.parent_eq (RbTree.root_make _ _ _ _ _))
          refine Gives.pass (fun fuel => ?_) rest
          rw [climb, parent]
          simp only [Spine.parent, if_pos same]

/-- `RB_NEXT` -/
theorem next_gives (holds : Holds head inprog (.node color left elm right) path) :
    Gives (fun fuel => next head fuel elm) (right.elems ++ Spine.after path).head? := by
  have entry : head.entry elm = ⟨left.root, right.root, Spine.parent path, color⟩ := holds.shape.1
  cases right with
  | node color' left' tmp right' =>
      obtain ⟨other, front, color'', child, gives, split, before⟩ := leftmost_gives holds.goRight
      have first : ((RbTree.node color' left' tmp right').elems ++ Spine.after path).head? = some other := by
        rw [split, Spine.elems_fill, before]
        simp [RbTree.elems]
      have called : (fun fuel => next head fuel elm) =
          fun fuel => (leftmost head fuel tmp).bind fun elm => .done (some elm) := by
        funext fuel
        rw [next, Head.right, entry]
        rfl
      rw [first, called]
      exact gives.bind (.pure _)
  | nil =>
      have rest := climb_gives holds rfl
      have absent : head.right elm = none := by
        rw [Head.right, entry]
        rfl
      have parent : head.parent elm = Spine.parent path := holds.parent_eq rfl
      rw [RbTree.elems, List.nil_append]
      cases path with
      | nil =>
          have called : (fun fuel => next head fuel elm) = fun fuel => climb head fuel elm := by
            funext fuel
            rw [next, absent, parent]
            rfl
          rw [called]
          exact rest
      | cons frame path =>
          rcases frame with ⟨side, color', up, sibling⟩
          cases side with
          | left =>
              have same : head.left up = some elm := by
                rw [Head.left, holds.above_entry]
                rfl
              have called : (fun fuel => next head fuel elm) = fun _ => .done (some up) := by
                funext fuel
                rw [next, absent, parent]
                simp only [Spine.parent, if_pos same]
              rw [called]
              exact .pure _
          | right =>
              have ne : head.left up ≠ some elm := by
                rw [Head.left, holds.above_entry]
                exact holds.root_ne rfl
              have called : (fun fuel => next head fuel elm) = fun fuel => climb head fuel elm := by
                funext fuel
                rw [next, absent, parent]
                simp only [Spine.parent, if_neg ne]
              rw [called]
              exact rest

omit [DecidableEq α] in
/-- The first loop of `RB_SCAN` finds the first element of the range. -/
theorem locate_gives (holds : Holds head inprog tree path) (sorted : Sorted ord tree.elems) (best : Option α) :
    Gives (fun fuel => locate range.scancmp head fuel tree.root best)
      ((tree.elems.find? fun elm => range.scancmp elm = 0).or best) := by
  induction tree generalizing path best with
  | nil => exact Gives.last fun fuel => rfl
  | node color left tmp right ihLeft ihRight =>
      obtain ⟨sortedLeft, sortedRest, across⟩ := List.pairwise_append.mp sorted
      obtain ⟨first, sortedRight⟩ := List.pairwise_cons.mp sortedRest
      have entry : head.entry tmp = ⟨left.root, right.root, Spine.parent path, color⟩ := holds.shape.1
      rw [RbTree.elems, List.find?_append, List.find?_cons]
      rcases lt_trichotomy (range.scancmp tmp) 0 with neg | zero | pos
      · have before : left.elems.find? (fun elm => decide (range.scancmp elm = 0)) = none := by
          apply List.find?_eq_none.mpr
          intro elm member
          have less := range.below elm tmp (across elm member tmp List.mem_cons_self) neg
          simpa using less.ne
        have skip : decide (range.scancmp tmp = 0) = false := by simpa using neg.ne
        rw [before, skip]
        refine Gives.pass (fun fuel => ?_) (ihRight holds.goRight sortedRight best)
        rw [RbTree.root, locate]
        simp only [if_pos neg, Head.right, entry]
      · have found : decide (range.scancmp tmp = 0) = true := by simpa using zero
        have notNeg : ¬range.scancmp tmp < 0 := by rw [zero]; exact lt_irrefl 0
        have notPos : ¬0 < range.scancmp tmp := by rw [zero]; exact lt_irrefl 0
        rw [found]
        cases left with
        | nil =>
            apply Gives.last
            intro fuel
            rw [RbTree.root, locate]
            simp only [if_neg notNeg, if_neg notPos, Head.left, entry]
            rfl
        | node color' left' other right' =>
            have rest := ihLeft holds.goLeft sortedLeft (some tmp)
            rw [Option.or_assoc, Option.some_or]
            refine Gives.pass (fun fuel => ?_) rest
            rw [RbTree.root, locate]
            simp only [if_neg notNeg, if_neg notPos, Head.left, entry]
            rfl
      · have notNeg : ¬range.scancmp tmp < 0 := not_lt.mpr pos.le
        have skip : decide (range.scancmp tmp = 0) = false := by simpa using pos.ne'
        have behind : right.elems.find? (fun elm => decide (range.scancmp elm = 0)) = none := by
          apply List.find?_eq_none.mpr
          intro elm member
          have more := range.above tmp elm (first elm member) pos
          simpa using more.ne'
        rw [skip, behind, Option.or_none]
        refine Gives.pass (fun fuel => ?_) (ihLeft holds.goLeft sortedLeft best)
        rw [RbTree.root, locate]
        simp only [if_neg notNeg, if_pos pos, Head.left, entry]

end Dragonfly.Kern.Rb
