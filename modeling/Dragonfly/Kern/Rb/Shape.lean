import Dragonfly.Kern.Rb.Model

/-!
# Trees in memory

`Holds head inprog tree path` says that the entries of a head are those of a tree, seen from the
subtree `tree` below `path`.  The focus can move up and down, and every group of writes that makes
one tree of another is a lemma about the focus.
-/

namespace Dragonfly.Kern.Rb

open Dragonfly.Lib Dragonfly.Lib.Redblack

variable {α : Type}

namespace Entry

/-- An entry by the child on one side and the one on the other. -/
def make (side : Side) (near far parent : Option α) (color : Color) : Entry α :=
  match side with
  | .left => ⟨near, far, parent, color⟩
  | .right => ⟨far, near, parent, color⟩

variable {side : Side} {near far parent other : Option α} {color : Color}

@[simp]
theorem child_make : (make side near far parent color).child side = near := by
  cases side <;> rfl

@[simp]
theorem child_other_make : (make side near far parent color).child side.other = far := by
  cases side <;> rfl

@[simp]
theorem parent_make : (make side near far parent color).parent = parent := by
  cases side <;> rfl

@[simp]
theorem color_make : (make side near far parent color).color = color := by
  cases side <;> rfl

@[simp]
theorem setChild_make : (make side near far parent color).setChild side other =
    make side other far parent color := by
  cases side <;> rfl

@[simp]
theorem setChild_other_make : (make side near far parent color).setChild side.other other =
    make side near other parent color := by
  cases side <;> rfl

@[simp]
theorem make_setParent : { make side near far parent color with parent := other } =
    make side near far other color := by
  cases side <;> rfl

@[simp]
theorem make_setColor (color' : Color) : { make side near far parent color with color := color' } =
    make side near far parent color' := by
  cases side <;> rfl

end Entry

/-! ## Trees and paths -/

/-- The entries are those of a tree below `parent`. -/
def Shape (entry : α → Entry α) : Option α → RbTree α → Prop
  | _, .nil => True
  | parent, .node color left elm right =>
      entry elm = ⟨left.root, right.root, parent, color⟩ ∧ Shape entry (some elm) left ∧
        Shape entry (some elm) right

/-- The root and the entries are those around a subtree with the root `hole`. -/
def Around (head : Head α) : Option α → Spine α → Prop
  | hole, [] => head.root = hole
  | hole, frame :: path =>
      head.entry frame.elm =
          Entry.make frame.side hole frame.sibling.root (Spine.parent path) frame.color ∧
        Shape head.entry (some frame.elm) frame.sibling ∧ Around head (some frame.elm) path

variable {head other : Head α} {entries entries' : α → Entry α} {parent hole new : Option α}
  {tree near far : RbTree α} {path : Spine α} {side : Side} {color color' : Color} {elm : α}
  {inprog : List (ScanInfo α)}

theorem shape_make : Shape entries parent (.make side color near elm far) ↔
    entries elm = Entry.make side near.root far.root parent color ∧ Shape entries (some elm) near ∧
      Shape entries (some elm) far := by
  cases side with
  | left => exact Iff.rfl
  | right => exact and_congr_right fun _ => and_comm

theorem Shape.congr (shape : Shape entries parent tree) (same : ∀ elm ∈ tree.elems, entries' elm = entries elm) :
    Shape entries' parent tree := by
  induction tree generalizing parent with
  | nil => trivial
  | node color left elm right ihLeft ihRight =>
      rcases shape with ⟨here, left, right⟩
      refine ⟨(same elm (by simp [RbTree.elems])).trans here, ?_, ?_⟩
      · exact ihLeft left fun elm member => same elm (by simp [RbTree.elems, member])
      · exact ihRight right fun elm member => same elm (by simp [RbTree.elems, member])

theorem Around.congr (around : Around head hole path) (root : other.root = head.root)
    (same : ∀ elm ∈ Spine.elems path, other.entry elm = head.entry elm) : Around other hole path := by
  induction path generalizing hole with
  | nil => exact root.trans around
  | cons frame path ih =>
      rcases around with ⟨here, sibling, above⟩
      refine ⟨(same _ (by simp [Spine.elems])).trans here, ?_, ?_⟩
      · exact sibling.congr fun elm member => same elm (by simp [Spine.elems, member])
      · exact ih above fun elm member => same elm (by simp [Spine.elems, member])

/-- The parent of a subtree is one of the elements around it. -/
theorem parent_mem {up : α} (parent : Spine.parent path = some up) : up ∈ Spine.elems path := by
  cases path with
  | nil => simp [Spine.parent] at parent
  | cons frame path =>
      obtain rfl : frame.elm = up := Option.some.inj parent
      simp [Spine.elems]

/-! ## The focus -/

/-- The scans in progress are `inprog`, and the entries are those of the tree with `tree` below
`path`. -/
structure Holds (head : Head α) (inprog : List (ScanInfo α)) (tree : RbTree α) (path : Spine α) : Prop where
  inprog : head.inprog = inprog
  shape : Shape head.entry (Spine.parent path) tree
  around : Around head tree.root path
  nodup : (tree.elems ++ Spine.elems path).Nodup

namespace Holds

theorem root (holds : Holds head inprog tree []) : head.root = tree.root := holds.around

/-- The focus moves to a subtree and back. -/
theorem down_iff : Holds head inprog (.make side color near elm far) path ↔
    Holds head inprog near (⟨side, color, elm, far⟩ :: path) := by
  have perm : ((RbTree.make side color near elm far).elems ++ Spine.elems path).Perm
      (near.elems ++ Spine.elems (⟨side, color, elm, far⟩ :: path)) := by
    apply ((RbTree.elems_make_perm _ _ _ _ _).append_right _).trans
    rw [Spine.elems, List.cons_append, List.cons_append, List.append_assoc]
    exact List.perm_middle.symm
  constructor
  · intro holds
    obtain ⟨here, near, far⟩ := shape_make.mp holds.shape
    have around := holds.around
    rw [RbTree.root_make] at around
    exact ⟨holds.inprog, near, ⟨here, far, around⟩, perm.nodup_iff.mp holds.nodup⟩
  · intro holds
    obtain ⟨here, far, above⟩ := holds.around
    refine ⟨holds.inprog, shape_make.mpr ⟨here, holds.shape, far⟩, ?_, perm.nodup_iff.mpr holds.nodup⟩
    rw [RbTree.root_make]
    exact above

theorem fill_iff {front : Spine α} : Holds head inprog (Spine.fill front tree) path ↔
    Holds head inprog tree (front ++ path) := by
  induction front generalizing tree with
  | nil => exact Iff.rfl
  | cons frame front ih => exact ih.trans down_iff

/-- The whole tree. -/
theorem whole (holds : Holds head inprog tree path) : Holds head inprog (Spine.fill path tree) [] := by
  apply fill_iff.mpr
  rw [List.append_nil]
  exact holds

theorem entry (holds : Holds head inprog (.make side color near elm far) path) :
    head.entry elm = Entry.make side near.root far.root (Spine.parent path) color :=
  (shape_make.mp holds.shape).1

/-- The elements of a subtree are different from what is above it. -/
theorem parent_ne (nodup : (tree.elems ++ Spine.elems path).Nodup) (member : elm ∈ tree.elems) :
    Spine.parent path ≠ some elm :=
  fun parent => (List.nodup_append.mp nodup).2.2 elm member elm (parent_mem parent) rfl

end Holds

/-! ## Writes -/

variable [DecidableEq α]

section Writes

variable (head : Head α) (elm other : α) (child parent : Option α)

theorem entry_modify (write : Entry α → Entry α) :
    (head.modify elm write).entry other = if other = elm then write (head.entry elm) else head.entry other :=
  Function.update_apply _ _ _ _

theorem entry_adopt : (head.adopt child parent).entry other =
    if child = some other then { head.entry other with parent } else head.entry other := by
  cases child with
  | none => rfl
  | some child =>
      rw [Head.adopt, Head.setParent, entry_modify]
      by_cases same : other = child
      · rw [if_pos same, if_pos (congrArg some same.symm), same]
      · rw [if_neg same, if_neg (fun eq => same (Option.some.inj eq).symm)]

theorem entry_relink (new : Option α) (away : parent ≠ some other) :
    (head.relink parent elm new).entry other = head.entry other := by
  cases parent with
  | none => rfl
  | some parent =>
      have ne : other ≠ parent := fun eq => away (congrArg some eq.symm)
      rw [Head.relink]
      split_ifs
      · exact (entry_modify _ _ _ _).trans (if_neg ne)
      · exact (entry_modify _ _ _ _).trans (if_neg ne)

@[simp]
theorem root_modify (write : Entry α → Entry α) : (head.modify elm write).root = head.root := rfl

@[simp]
theorem inprog_modify (write : Entry α → Entry α) : (head.modify elm write).inprog = head.inprog := rfl

@[simp]
theorem root_adopt : (head.adopt child parent).root = head.root := by
  cases child <;> rfl

@[simp]
theorem inprog_adopt : (head.adopt child parent).inprog = head.inprog := by
  cases child <;> rfl

@[simp]
theorem inprog_relink (new : Option α) : (head.relink parent elm new).inprog = head.inprog := by
  cases parent with
  | none => rfl
  | some parent =>
      rw [Head.relink]
      split_ifs <;> rfl

end Writes

/-- The root of a tree gets another parent. -/
theorem Shape.adopted {parent' : Option α} (shape : Shape entries parent tree) (nodup : tree.elems.Nodup)
    (write : ∀ elm ∈ tree.elems, entries' elm =
      if tree.root = some elm then { entries elm with parent := parent' } else entries elm) :
    Shape entries' parent' tree := by
  cases tree with
  | nil => trivial
  | node color left elm right =>
      rcases shape with ⟨here, leftShape, rightShape⟩
      have here' := write elm (by simp [RbTree.elems])
      simp only [RbTree.root, if_true, here] at here'
      rw [← List.append_nil (RbTree.node color left elm right).elems] at nodup
      obtain ⟨⟨outLeft, outRight, -⟩, -⟩ := (RbTree.nodup_make .left _ _ _ _ _).mp nodup
      refine ⟨here', leftShape.congr ?_, rightShape.congr ?_⟩
      · intro below member
        rw [write below (by simp [RbTree.elems, member]), if_neg]
        intro eq
        exact outLeft (Option.some.inj eq ▸ member)
      · intro below member
        rw [write below (by simp [RbTree.elems, member]), if_neg]
        intro eq
        exact outRight (Option.some.inj eq ▸ member)

/-- The link below the last node of the path changes. -/
theorem Around.attach {up : α} {sibling : RbTree α} (around : Around head hole (⟨side, color, up, sibling⟩ :: path))
    (nodup : (Spine.elems (⟨side, color, up, sibling⟩ :: path)).Nodup) (new : Option α) :
    Around (head.setChild side up new) new (⟨side, color, up, sibling⟩ :: path) := by
  rcases around with ⟨here, shape, above⟩
  dsimp only at here shape above
  rw [Spine.elems, List.cons_append, List.nodup_cons, List.mem_append, not_or] at nodup
  have elsewhere : ∀ other, other ≠ up → (head.setChild side up new).entry other = head.entry other :=
    fun other ne => (entry_modify _ _ _ _).trans (if_neg ne)
  refine ⟨?_, shape.congr ?_, above.congr (root_modify _ _ _) ?_⟩
  · rw [Head.setChild, entry_modify, if_pos rfl, here, Entry.setChild_make]
  · intro below member
    exact elsewhere below fun eq => nodup.1.1 (eq ▸ member)
  · intro other member
    exact elsewhere other fun eq => nodup.1.2 (eq ▸ member)

/-- Another subtree is linked to the path. -/
theorem Around.relink (around : Around head (some elm) path) (outside : elm ∉ Spine.elems path)
    (nodup : (Spine.elems path).Nodup) :
    Around (head.relink (Spine.parent path) elm new) new path := by
  cases path with
  | nil => rfl
  | cons frame path =>
      rcases frame with ⟨side, color, up, sibling⟩
      have here := around.1
      have same : head.relink (some up) elm new = head.setChild side up new := by
        rw [Head.relink, Head.left]
        cases side with
        | left => rw [if_pos (by rw [here]; rfl)]
        | right =>
            rw [if_neg]
            rw [here]
            exact fun root => outside (by simp [Spine.elems, RbTree.root_mem root])
      rw [Spine.parent, same]
      exact around.attach nodup new

namespace Holds

/-- The root of a subtree changes its colour. -/
theorem setColor (holds : Holds head inprog (.make side color near elm far) path) (color' : Color) :
    Holds (head.setColor elm color') inprog (.make side color' near elm far) path := by
  have here := holds.entry
  obtain ⟨-, shapeNear, shapeFar⟩ := shape_make.mp holds.shape
  obtain ⟨⟨outNear, outFar, outPath⟩, -⟩ := (RbTree.nodup_make _ _ _ _ _ _).mp holds.nodup
  have elsewhere : ∀ other, other ≠ elm → (head.setColor elm color').entry other = head.entry other :=
    fun other ne => (entry_modify _ _ _ _).trans (if_neg ne)
  refine ⟨holds.inprog, shape_make.mpr ⟨?_, shapeNear.congr ?_, shapeFar.congr ?_⟩, ?_, ?_⟩
  · rw [Head.setColor, entry_modify, if_pos rfl, here, Entry.make_setColor]
  · intro below member
    exact elsewhere below fun eq => outNear (eq ▸ member)
  · intro below member
    exact elsewhere below fun eq => outFar (eq ▸ member)
  · have around := holds.around
    rw [RbTree.root_make] at around ⊢
    refine around.congr (root_modify _ _ _) ?_
    intro other member
    exact elsewhere other fun eq => outPath (eq ▸ member)
  · rw [RbTree.elems_recolor side color' color]
    exact holds.nodup

theorem blacken (holds : Holds head inprog tree path) :
    Holds (head.blacken tree.root) inprog tree.blacken path := by
  cases tree with
  | nil => exact holds
  | node color left elm right =>
      have seen : Holds head inprog (.make .left color left elm right) path := holds
      exact seen.setColor .black

/-- A rotation. -/
theorem rotated {first second third : RbTree α} {tmp : α}
    (holds : Holds head inprog (.make side color first elm (.make side color' second tmp third)) path) :
    ∃ after, rotate side head elm = .done after ∧
      Holds after inprog (.make side color' (.make side color first elm second) tmp third) path := by
  have lower := holds.entry
  obtain ⟨-, shapeFirst, shapeUpper⟩ := shape_make.mp holds.shape
  obtain ⟨upper, shapeSecond, shapeThird⟩ := shape_make.mp shapeUpper
  have around := holds.around
  rw [RbTree.root_make] at lower around
  obtain ⟨⟨elmFirst, elmUpper, elmPath⟩, nodup⟩ := (RbTree.nodup_make _ _ _ _ _ _).mp holds.nodup
  obtain ⟨nodupFirst, nodupUpper, apart⟩ := List.nodup_append.mp nodup
  obtain ⟨⟨tmpSecond, tmpThird, tmpPath⟩, nodup'⟩ := (RbTree.nodup_make _ _ _ _ _ _).mp nodupUpper
  obtain ⟨nodupSecond, nodupRest, apart'⟩ := List.nodup_append.mp nodup'
  obtain ⟨nodupThird, nodupPath, apart''⟩ := List.nodup_append.mp nodupRest
  have ne : tmp ≠ elm := fun eq => elmUpper (eq ▸ RbTree.root_mem (RbTree.root_make _ _ _ _ _))
  have upElm : Spine.parent path ≠ some elm := fun parent => elmPath (parent_mem parent)
  have upTmp : Spine.parent path ≠ some tmp := fun parent => tmpPath (parent_mem parent)
  have inUpper : ∀ other, other = tmp ∨ other ∈ second.elems ∨ other ∈ third.elems →
      other ∈ (RbTree.make side color' second tmp third).elems := by
    intro other member
    exact (RbTree.elems_make_perm _ _ _ _ _).mem_iff.mpr (by simpa using member)
  have rootElm : second.root ≠ some elm := fun root => elmUpper (inUpper _ (.inr (.inl (RbTree.root_mem root))))
  have rootTmp : second.root ≠ some tmp := fun root => tmpSecond (RbTree.root_mem root)
  -- the head before the parent is linked to `tmp`, and the one at the end
  have childElm : head.child side.other elm = some tmp := by
    rw [Head.child, lower, Entry.child_other_make]
  have childTmp : head.child side tmp = second.root := by
    rw [Head.child, upper, Entry.child_make]
  generalize before : ((head.setChild side.other elm second.root).adopt second.root (some elm)).setParent tmp
    (Spine.parent path) = middle
  have middleEntry : ∀ other, middle.entry other =
      if other = tmp then Entry.make side second.root third.root (Spine.parent path) color'
      else if second.root = some other then { head.entry other with parent := some elm }
      else if other = elm then Entry.make side first.root second.root (Spine.parent path) color
      else head.entry other := by
    intro other
    simp only [← before, Head.setParent, Head.setChild, entry_modify, entry_adopt, lower, upper, rootTmp, ne,
      if_false, Entry.make_setParent, Entry.setChild_other_make]
    split_ifs with h1 h2 h3
    · rfl
    · exact absurd (h3 ▸ h2) rootElm
    · rfl
    · rfl
    · rfl
  have up : ((head.setChild side.other elm second.root).adopt second.root (some elm)).parent elm =
      Spine.parent path := by
    rw [Head.parent, entry_adopt, if_neg rootElm, Head.setChild, entry_modify, if_pos rfl, lower]
    simp
  have upMiddle : middle.parent elm = Spine.parent path := by
    rw [Head.parent, middleEntry, if_neg ne.symm, if_neg rootElm, if_pos rfl, Entry.parent_make]
  have run : rotate side head elm = .done
      (((middle.relink (Spine.parent path) elm (some tmp)).setChild side tmp (some elm)).setParent elm
        (some tmp)) := by
    unfold rotate
    simp only [childElm, childTmp, up, before, upMiddle]
  generalize final : ((middle.relink (Spine.parent path) elm (some tmp)).setChild side tmp (some elm)).setParent
    elm (some tmp) = after at run
  have afterEntry : ∀ other, Spine.parent path ≠ some other → after.entry other =
      if other = elm then Entry.make side first.root second.root (some tmp) color
      else if other = tmp then Entry.make side (some elm) third.root (Spine.parent path) color'
      else if second.root = some other then { head.entry other with parent := some elm }
      else head.entry other := by
    intro other away
    simp only [← final, Head.setParent, Head.setChild, entry_modify, entry_relink _ _ _ _ _ away,
      entry_relink _ _ _ _ _ upElm, entry_relink _ _ _ _ _ upTmp, middleEntry, ne, ne.symm, rootElm, if_false, if_true,
      Entry.make_setParent, Entry.setChild_make]
    split_ifs with h1 h2 h3
    all_goals rfl
  have keeps : ∀ other, Spine.parent path ≠ some other → other ≠ elm → other ≠ tmp → second.root ≠ some other →
      after.entry other = head.entry other := by
    intro other away notElm notTmp notRoot
    rw [afterEntry other away, if_neg notElm, if_neg notTmp, if_neg notRoot]
  refine ⟨after, run, ?_, ?_, ?_, ?_⟩
  · rw [← final, ← before]
    simp [Head.setParent, Head.setChild, holds.inprog]
  · apply shape_make.mpr
    refine ⟨?_, shape_make.mpr ⟨?_, shapeFirst.congr ?_, shapeSecond.adopted nodupSecond ?_⟩, shapeThird.congr ?_⟩
    · rw [afterEntry _ upTmp, if_neg ne, if_pos rfl, RbTree.root_make]
    · rw [afterEntry _ upElm, if_pos rfl]
    · intro other member
      have apart := apart other member
      apply keeps
      · exact fun up => apart _ (List.mem_append_right _ (parent_mem up)) rfl
      · exact fun eq => elmFirst (eq ▸ member)
      · exact apart _ (List.mem_append_left _ (inUpper _ (.inl rfl)))
      · exact fun root => apart _ (List.mem_append_left _ (inUpper _ (.inr (.inl (RbTree.root_mem root))))) rfl
    · intro other member
      rw [afterEntry other, if_neg, if_neg]
      · exact fun eq => tmpSecond (eq ▸ member)
      · exact fun eq => elmUpper (inUpper _ (.inr (.inl (eq ▸ member))))
      · exact fun up => apart' other member _ (List.mem_append_right _ (parent_mem up)) rfl
    · intro other member
      apply keeps
      · exact fun up => apart'' other member _ (parent_mem up) rfl
      · exact fun eq => elmUpper (inUpper _ (.inr (.inr (eq ▸ member))))
      · exact fun eq => tmpThird (eq ▸ member)
      · exact fun root => apart' _ (RbTree.root_mem root) _ (List.mem_append_left _ member) rfl
  · rw [RbTree.root_make]
    have linked : Around (middle.relink (Spine.parent path) elm (some tmp)) (some tmp) path := by
      apply Around.relink _ elmPath nodupPath
      refine around.congr ?_ ?_
      · rw [← before]
        simp [Head.setParent, Head.setChild]
      · intro other member
        rw [middleEntry, if_neg, if_neg, if_neg]
        · exact fun eq => elmPath (eq ▸ member)
        · exact fun root => apart' _ (RbTree.root_mem root) _ (List.mem_append_right _ member) rfl
        · exact fun eq => tmpPath (eq ▸ member)
    rw [← final]
    refine linked.congr rfl ?_
    intro other member
    rw [Head.setParent, entry_modify, if_neg, Head.setChild, entry_modify, if_neg]
    · exact fun eq => tmpPath (eq ▸ member)
    · exact fun eq => elmPath (eq ▸ member)
  · have same := RbTree.elems_rotate side color' color color color' first second third elm tmp
    rw [same]
    exact holds.nodup

end Holds

end Dragonfly.Kern.Rb
