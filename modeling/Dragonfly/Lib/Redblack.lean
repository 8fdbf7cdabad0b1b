import Mathlib.Algebra.Group.Nat.Defs
import Mathlib.Data.List.Perm.Basic
import Mathlib.Data.Nat.Log

/-!
# Red-black trees

A tree with a path to one of its subtrees.  A path lists the nodes above the subtree from below,
each with the subtree on the other side.  `Ok above n tree` is the red-black invariant for a tree
of black height `n` that hangs below a node of the colour `above`; the root of a whole tree is
black, as if it hung below a red node.  Left and right are exchanged by `Side.other`, so that
every fact about one side is one about both.
-/

namespace Dragonfly.Lib.Redblack

variable {α : Type}

inductive Color where
  | red
  | black
  deriving DecidableEq, Repr

inductive Side where
  | left
  | right
  deriving DecidableEq, Repr

def Side.other : Side → Side
  | left => right
  | right => left

theorem Side.eq_or_other (side side' : Side) : side' = side ∨ side' = side.other := by
  cases side <;> cases side' <;> simp [other]

@[simp]
theorem Side.other_other (side : Side) : side.other.other = side := by
  cases side <;> rfl

inductive RbTree (α : Type) where
  | nil
  | node (color : Color) (left : RbTree α) (elm : α) (right : RbTree α)
  deriving DecidableEq, Repr

namespace RbTree

def root : RbTree α → Option α
  | nil => none
  | node _ _ elm _ => some elm

/-- The elements in order. -/
def elems : RbTree α → List α
  | nil => []
  | node _ left elm right => left.elems ++ elm :: right.elems

/-- A node by its subtree on one side and the one on the other. -/
def make (side : Side) (color : Color) (near : RbTree α) (elm : α) (far : RbTree α) : RbTree α :=
  match side with
  | .left => node color near elm far
  | .right => node color far elm near

/-- A tree with a red root. -/
def isRed : RbTree α → Bool
  | node .red _ _ _ => true
  | _ => false

/-- The root turns black. -/
def blacken : RbTree α → RbTree α
  | nil => nil
  | node _ left elm right => node .black left elm right

@[simp]
theorem make_other (side : Side) (color : Color) (near : RbTree α) (elm : α) (far : RbTree α) :
    make side.other color near elm far = make side color far elm near := by
  cases side <;> rfl

@[simp]
theorem root_make (side : Side) (color : Color) (near : RbTree α) (elm : α) (far : RbTree α) :
    (make side color near elm far).root = some elm := by
  cases side <;> rfl

/-- A node can be seen from either side. -/
theorem make_cases (side side' : Side) (color : Color) (near : RbTree α) (elm : α) (far : RbTree α) :
    make side color near elm far = make side' color near elm far ∨
      make side color near elm far = make side' color far elm near := by
  cases side <;> cases side' <;> simp [make]

theorem exists_make (side : Side) (color : Color) (left : RbTree α) (elm : α) (right : RbTree α) :
    ∃ near far, node color left elm right = make side color near elm far := by
  cases side with
  | left => exact ⟨left, right, rfl⟩
  | right => exact ⟨right, left, rfl⟩

@[simp]
theorem isRed_make (side : Side) (color : Color) (near : RbTree α) (elm : α) (far : RbTree α) :
    (make side color near elm far).isRed = decide (color = .red) := by
  cases side <;> cases color <;> rfl

@[simp]
theorem blacken_make (side : Side) (color : Color) (near : RbTree α) (elm : α) (far : RbTree α) :
    (make side color near elm far).blacken = make side .black near elm far := by
  cases side <;> rfl

theorem elems_make_perm (side : Side) (color : Color) (near : RbTree α) (elm : α) (far : RbTree α) :
    (make side color near elm far).elems.Perm (elm :: near.elems ++ far.elems) := by
  cases side with
  | left => exact List.perm_middle
  | right => exact List.perm_middle.trans (List.perm_append_comm.cons elm)

theorem nodup_make (side : Side) (color : Color) (near : RbTree α) (elm : α) (far : RbTree α) (rest : List α) :
    ((make side color near elm far).elems ++ rest).Nodup ↔
      (elm ∉ near.elems ∧ elm ∉ far.elems ∧ elm ∉ rest) ∧ (near.elems ++ (far.elems ++ rest)).Nodup := by
  rw [((elems_make_perm side color near elm far).append_right rest).nodup_iff, List.cons_append,
    List.cons_append, List.nodup_cons, List.append_assoc, List.mem_append, List.mem_append, not_or, not_or]

/-- A rotation keeps the order. -/
theorem elems_rotate (side : Side) (color color' color'' color''' : Color) (first second third : RbTree α)
    (lower upper : α) :
    (make side color (make side color' first lower second) upper third).elems =
      (make side color'' first lower (make side color''' second upper third)).elems := by
  cases side <;> simp [make, elems]

theorem elems_recolor (side : Side) (color color' : Color) (near : RbTree α) (elm : α) (far : RbTree α) :
    (make side color near elm far).elems = (make side color' near elm far).elems := by
  cases side <;> rfl

theorem elems_make_congr (side : Side) (color color' : Color) (elm : α) {near near' far far' : RbTree α}
    (sameNear : near.elems = near'.elems) (sameFar : far.elems = far'.elems) :
    (make side color near elm far).elems = (make side color' near' elm far').elems := by
  cases side <;> simp [make, elems, sameNear, sameFar]

@[simp]
theorem elems_blacken (tree : RbTree α) : tree.blacken.elems = tree.elems := by
  cases tree <;> rfl

theorem root_mem {tree : RbTree α} {elm : α} (root : tree.root = some elm) : elm ∈ tree.elems := by
  cases tree with
  | nil => simp [RbTree.root] at root
  | node color left other right =>
      obtain rfl : other = elm := Option.some.inj root
      simp [elems]

end RbTree

/-! ## Paths -/

/-- A node above a subtree on the side `side`, with the subtree on the other side. -/
structure Frame (α : Type) where
  side : Side
  color : Color
  elm : α
  sibling : RbTree α

/-- The nodes above a subtree, from below. -/
abbrev Spine (α : Type) : Type := List (Frame α)

namespace Frame

def fill (frame : Frame α) (tree : RbTree α) : RbTree α :=
  .make frame.side frame.color tree frame.elm frame.sibling

def before (frame : Frame α) : List α :=
  match frame.side with
  | .left => []
  | .right => frame.sibling.elems ++ [frame.elm]

def after (frame : Frame α) : List α :=
  match frame.side with
  | .left => frame.elm :: frame.sibling.elems
  | .right => []

theorem elems_fill (frame : Frame α) (tree : RbTree α) :
    (frame.fill tree).elems = frame.before ++ tree.elems ++ frame.after := by
  cases frame with
  | mk side color elm sibling => cases side <;> simp [fill, before, after, RbTree.make, RbTree.elems]

end Frame

namespace Spine

/-- The tree with the subtree put back. -/
def fill : Spine α → RbTree α → RbTree α
  | [], tree => tree
  | frame :: path, tree => fill path (frame.fill tree)

/-- The node right above the subtree. -/
def parent : Spine α → Option α
  | [] => none
  | frame :: _ => some frame.elm

/-- The elements of the tree in front of the subtree, in order. -/
def before : Spine α → List α
  | [] => []
  | frame :: path => before path ++ frame.before

/-- The elements of the tree behind the subtree, in order. -/
def after : Spine α → List α
  | [] => []
  | frame :: path => frame.after ++ after path

/-- The elements of the tree outside of the subtree. -/
def elems : Spine α → List α
  | [] => []
  | frame :: path => frame.elm :: frame.sibling.elems ++ elems path

theorem fill_append (path rest : Spine α) (tree : RbTree α) :
    fill (path ++ rest) tree = fill rest (fill path tree) := by
  induction path generalizing tree with
  | nil => rfl
  | cons frame path ih => exact ih (frame.fill tree)

theorem elems_append (path rest : Spine α) : elems (path ++ rest) = elems path ++ elems rest := by
  induction path with
  | nil => rfl
  | cons frame path ih => simp [elems, ih]

theorem mem_elems_iff (path : Spine α) (elm : α) : elm ∈ elems path ↔ elm ∈ before path ∨ elm ∈ after path := by
  induction path with
  | nil => simp [elems, before, after]
  | cons frame path ih =>
      rcases frame with ⟨side, color, other, sibling⟩
      cases side with
      | left => simp [elems, before, after, Frame.before, Frame.after, ih, or_left_comm]
      | right =>
          simp only [elems, before, after, Frame.before, Frame.after, List.cons_append, List.mem_cons,
            List.mem_append, List.not_mem_nil, or_false, false_or, ih]
          tauto

theorem before_append (path rest : Spine α) : before (path ++ rest) = before rest ++ before path := by
  induction path with
  | nil => simp [before]
  | cons frame path ih => simp [before, ih]

theorem after_append (path rest : Spine α) : after (path ++ rest) = after path ++ after rest := by
  induction path with
  | nil => rfl
  | cons frame path ih => simp [after, ih]

theorem elems_fill (path : Spine α) (tree : RbTree α) :
    (fill path tree).elems = before path ++ tree.elems ++ after path := by
  induction path generalizing tree with
  | nil => simp [fill, before, after]
  | cons frame path ih => simp [fill, before, after, ih, Frame.elems_fill]

theorem elems_fill_congr {tree other : RbTree α} (path : Spine α) (same : tree.elems = other.elems) :
    (fill path tree).elems = (fill path other).elems := by
  rw [elems_fill, elems_fill, same]

theorem elems_fill_perm (path : Spine α) (tree : RbTree α) :
    (fill path tree).elems.Perm (tree.elems ++ elems path) := by
  induction path generalizing tree with
  | nil => simp [fill, elems]
  | cons frame path ih =>
      apply (ih (frame.fill tree)).trans
      apply ((RbTree.elems_make_perm _ _ _ _ _).append_right _).trans
      rw [elems, List.append_assoc, List.cons_append, List.cons_append]
      exact List.perm_middle.symm

end Spine

/-- Every element is the root of a subtree. -/
theorem RbTree.exists_fill {tree : RbTree α} {elm : α} (member : elm ∈ tree.elems) :
    ∃ path color left right, tree = Spine.fill path (.node color left elm right) := by
  induction tree with
  | nil => simp [elems] at member
  | node color left other right ihLeft ihRight =>
      rw [elems, List.mem_append, List.mem_cons] at member
      rcases member with member | rfl | member
      · obtain ⟨path, color', left', right', eq⟩ := ihLeft member
        refine ⟨path ++ [⟨.left, color, other, right⟩], color', left', right', ?_⟩
        rw [Spine.fill_append, ← eq]
        rfl
      · exact ⟨[], color, left, right, rfl⟩
      · obtain ⟨path, color', left', right', eq⟩ := ihRight member
        refine ⟨path ++ [⟨.right, color, other, left⟩], color', left', right', ?_⟩
        rw [Spine.fill_append, ← eq]
        rfl

namespace Spine

/-- The root of a tree is outside of a subtree below it. -/
theorem root_fill_mem (frame : Frame α) (path : Spine α) (tree : RbTree α) :
    ∃ root, (fill (frame :: path) tree).root = some root ∧ root ∈ elems (frame :: path) := by
  induction path generalizing frame tree with
  | nil => exact ⟨frame.elm, RbTree.root_make _ _ _ _ _, by simp [elems]⟩
  | cons other path ih =>
      obtain ⟨root, eq, member⟩ := ih other (frame.fill tree)
      exact ⟨root, eq, by simp [elems] at member ⊢; tauto⟩

end Spine

/-! ## The invariant -/

/-- A red-black tree of black height `n`, below a node of the colour `above`. -/
def RbTree.Ok (above : Color) (n : Nat) : RbTree α → Prop
  | .nil => n = 0
  | .node .red left _ right => above = .black ∧ left.Ok .red n ∧ right.Ok .red n
  | .node .black left _ right => ∃ m, n = m + 1 ∧ left.Ok .black m ∧ right.Ok .black m

namespace RbTree

variable {above color : Color} {n : Nat} {near far tree : RbTree α} {elm : α} {side : Side}

theorem ok_make_red : (make side .red near elm far).Ok above n ↔
    above = .black ∧ near.Ok .red n ∧ far.Ok .red n := by
  cases side with
  | left => exact Iff.rfl
  | right => exact and_congr_right fun _ => and_comm

theorem ok_make_black : (make side .black near elm far).Ok above (n + 1) ↔
    near.Ok .black n ∧ far.Ok .black n := by
  cases side with
  | left =>
      constructor
      · rintro ⟨m, eq, ok⟩
        obtain rfl : n = m := Nat.succ.inj eq
        exact ok
      · intro ok
        exact ⟨n, rfl, ok⟩
  | right =>
      constructor
      · rintro ⟨m, eq, ok⟩
        obtain rfl : n = m := Nat.succ.inj eq
        exact ok.symm
      · intro ok
        exact ⟨n, rfl, ok.symm⟩

/-- What may hang below a red node may hang below any node. -/
theorem Ok.relax (ok : tree.Ok .red n) : tree.Ok above n := by
  cases tree with
  | nil => exact ok
  | node color left elm right =>
      cases color with
      | red => exact Color.noConfusion ok.1
      | black => exact ok

theorem Ok.of_not_red (ok : tree.Ok above n) (black : tree.isRed = false) : tree.Ok .red n := by
  cases tree with
  | nil => exact ok
  | node color left elm right =>
      cases color with
      | red => simp [isRed] at black
      | black => exact ok

theorem Ok.not_red (ok : tree.Ok .red n) : tree.isRed = false := by
  cases tree with
  | nil => rfl
  | node color left elm right =>
      cases color with
      | red => exact Color.noConfusion ok.1
      | black => rfl

/-- A black root stays black. -/
theorem Ok.blacken (ok : tree.Ok .red n) : tree.blacken.Ok .red n := by
  cases tree with
  | nil => exact ok
  | node color left elm right =>
      cases color with
      | red => exact Color.noConfusion ok.1
      | black => exact ok

/-- A red root turns black, and the height grows. -/
theorem Ok.blacken_red (ok : tree.Ok above n) (red : tree.isRed = true) : tree.blacken.Ok .red (n + 1) := by
  cases tree with
  | nil => simp [isRed] at red
  | node color left elm right =>
      cases color with
      | red => exact ⟨n, rfl, ok.2.1.relax, ok.2.2.relax⟩
      | black => simp [isRed] at red

/-- The number of nodes on the longest way down. -/
def height : RbTree α → Nat
  | .nil => 0
  | .node _ left _ right => max left.height right.height + 1

/-- Along a way down at least every second node is black. -/
theorem Ok.height_le (ok : tree.Ok above n) : tree.height ≤ 2 * n + if above = .black then 1 else 0 := by
  induction tree generalizing above n with
  | nil => exact Nat.zero_le _
  | node color left elm right ihLeft ihRight =>
      cases color with
      | red =>
          obtain ⟨rfl, okLeft, okRight⟩ := ok
          have lower : left.height ≤ 2 * n := ihLeft okLeft
          have lower' : right.height ≤ 2 * n := ihRight okRight
          exact Nat.succ_le_succ (max_le lower lower')
      | black =>
          obtain ⟨m, rfl, okLeft, okRight⟩ := ok
          have lower : left.height ≤ 2 * m + 1 := ihLeft okLeft
          have lower' : right.height ≤ 2 * m + 1 := ihRight okRight
          exact (Nat.succ_le_succ (max_le lower lower')).trans (Nat.le_add_right _ _)

/-- A tree has all the nodes down to its black height. -/
theorem Ok.two_pow_le (ok : tree.Ok above n) : 2 ^ n ≤ tree.elems.length + 1 := by
  induction tree generalizing above n with
  | nil =>
      obtain rfl : n = 0 := ok
      exact Nat.le_refl 1
  | node color left elm right ihLeft ihRight =>
      rw [elems, List.length_append, List.length_cons]
      cases color with
      | red =>
          have lower := ihLeft ok.2.1
          omega
      | black =>
          obtain ⟨m, rfl, okLeft, okRight⟩ := ok
          have lower := ihLeft okLeft
          have lower' := ihRight okRight
          rw [Nat.pow_succ]
          omega

/-- A red-black tree is no higher than twice the logarithm of its size. -/
theorem Ok.height_log (ok : tree.Ok .red n) : tree.height ≤ 2 * Nat.log 2 (tree.elems.length + 1) :=
  ok.height_le.trans (Nat.mul_le_mul_left 2 (Nat.le_log_of_pow_le (by decide) ok.two_pow_le))

/-- A tree of positive height has a root. -/
theorem Ok.exists_make (ok : tree.Ok above (n + 1)) (side : Side) :
    ∃ color near elm far, tree = make side color near elm far := by
  cases tree with
  | nil => exact absurd ok (Nat.succ_ne_zero n)
  | node color left elm right =>
      obtain ⟨near, far, eq⟩ := RbTree.exists_make side color left elm right
      exact ⟨color, near, elm, far, eq⟩

/-- The two subtrees of a node, whatever its colour and theirs. -/
theorem Ok.children (ok : (node color near elm far).Ok above n) :
    ∃ m, near.Ok .black m ∧ far.Ok .black m := by
  cases color with
  | red => exact ⟨n, ok.2.1.relax, ok.2.2.relax⟩
  | black =>
      obtain ⟨m, _, ok⟩ := ok
      exact ⟨m, ok⟩

end RbTree

namespace Spine

/-- The colour of the node right above the subtree. -/
def above : Spine α → Color
  | [] => .red
  | frame :: _ => frame.color

/-- A subtree of black height `n` fits. -/
def Fits : Nat → Spine α → Prop
  | _, [] => True
  | n, ⟨_, .red, _, sibling⟩ :: path => sibling.Ok .red n ∧ above path = .black ∧ Fits n path
  | n, ⟨_, .black, _, sibling⟩ :: path => sibling.Ok .black n ∧ Fits (n + 1) path

theorem Fits.sibling {side : Side} {color : Color} {elm : α} {sibling : RbTree α} {path : Spine α} {n : Nat}
    (fits : Fits n (⟨side, color, elm, sibling⟩ :: path)) : sibling.Ok color n := by
  cases color with
  | red => exact fits.1
  | black => exact fits.1

theorem above_append (front : Spine α) (side : Side) (color : Color) (elm elm' : α) (sibling : RbTree α)
    (path : Spine α) :
    above (front ++ ⟨side, color, elm, sibling⟩ :: path) = above (front ++ ⟨side, color, elm', sibling⟩ :: path) := by
  cases front <;> rfl

/-- Another element in the place of one above the subtree. -/
theorem Fits.replace {front path : Spine α} {side : Side} {color : Color} {elm elm' : α} {sibling : RbTree α}
    {n : Nat} (fits : Fits n (front ++ ⟨side, color, elm, sibling⟩ :: path)) :
    Fits n (front ++ ⟨side, color, elm', sibling⟩ :: path) := by
  induction front generalizing n with
  | nil => cases color <;> exact fits
  | cons frame front ih =>
      rcases frame with ⟨side', color', other, sibling'⟩
      cases color' with
      | red =>
          exact ⟨fits.1, (above_append front side color elm' elm sibling path).trans fits.2.1, ih fits.2.2⟩
      | black => exact ⟨fits.1, ih fits.2⟩

/-- The tree is a red-black tree when a subtree that fits is put back. -/
theorem ok_fill {path : Spine α} {n : Nat} {tree : RbTree α} (fits : Fits n path)
    (ok : tree.Ok (above path) n) : ∃ m, (fill path tree).Ok .red m := by
  induction path generalizing n tree with
  | nil => exact ⟨n, ok⟩
  | cons frame path ih =>
      rcases frame with ⟨side, color, elm, sibling⟩
      cases color with
      | red =>
          apply ih fits.2.2
          exact RbTree.ok_make_red.mpr ⟨fits.2.1, ok, fits.1⟩
      | black =>
          apply ih fits.2
          exact RbTree.ok_make_black.mpr ⟨ok, fits.1⟩

/-- A subtree of a red-black tree is one, and it fits. -/
theorem fits_of_ok {path : Spine α} {n : Nat} {tree : RbTree α} (ok : (fill path tree).Ok .red n) :
    ∃ m, tree.Ok (above path) m ∧ Fits m path := by
  induction path generalizing tree with
  | nil => exact ⟨n, ok, trivial⟩
  | cons frame path ih =>
      rcases frame with ⟨side, color, elm, sibling⟩
      obtain ⟨m, here, fits⟩ := ih ok
      cases color with
      | red =>
          obtain ⟨black, okTree, okSibling⟩ := RbTree.ok_make_red.mp here
          exact ⟨m, okTree, okSibling, black, fits⟩
      | black =>
          obtain ⟨k, rfl⟩ : ∃ k, m = k + 1 := by
            cases side with
            | left => exact ⟨here.choose, here.choose_spec.1⟩
            | right => exact ⟨here.choose, here.choose_spec.1⟩
          obtain ⟨okTree, okSibling⟩ := RbTree.ok_make_black.mp here
          exact ⟨k, okTree, okSibling, fits⟩

end Spine

end Dragonfly.Lib.Redblack
