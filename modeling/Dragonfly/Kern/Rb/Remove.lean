import Dragonfly.Kern.Rb.Next

/-!
# Removal

An element with two children changes places with the next element, and an element with at most one
is unlinked.  `RB_REMOVE_COLOR` repairs the height of a subtree that has lost a black node; there is
always a sibling to look at, because it has the height that is missing.
-/

namespace Dragonfly.Kern.Rb

open Dragonfly.Lib Dragonfly.Lib.Redblack

variable {α : Type} [DecidableEq α] {head : Head α} {inprog : List (ScanInfo α)}
  {tree near far left right child sibling : RbTree α} {path : Spine α} {side : Side} {color color' : Color}
  {elm old parent tmp : α} {n : Nat}

/-! ## Unlinking -/

/-- An element with one subtree goes, and the subtree takes its place. -/
theorem unlink_holds (holds : Holds head inprog (.make side color .nil elm child) path) :
    Holds (unlink head elm child.root) inprog child path := by
  have parent : head.parent elm = Spine.parent path := holds.parent_eq (RbTree.root_make _ _ _ _ _)
  obtain ⟨-, -, shape⟩ := shape_make.mp holds.shape
  have around := holds.around
  rw [RbTree.root_make] at around
  obtain ⟨⟨-, outChild, outPath⟩, nodup⟩ := (RbTree.nodup_make _ _ _ _ _ _).mp holds.nodup
  rw [RbTree.elems, List.nil_append] at nodup
  obtain ⟨nodupChild, nodupPath, apart⟩ := List.nodup_append.mp nodup
  rw [unlink, parent]
  refine ⟨?_, shape.adopted nodupChild ?_, ?_, nodup⟩
  · rw [inprog_relink, inprog_adopt, holds.inprog]
  · intro other member
    rw [entry_relink _ _ _ _ _ (Holds.parent_ne nodup member), entry_adopt]
  · apply Around.relink _ outPath nodupPath
    refine around.congr (root_adopt _ _ _) ?_
    intro other member
    rw [entry_adopt, if_neg]
    exact fun root => apart other (RbTree.root_mem root) other member rfl

/-- An element from outside takes the place of one with two subtrees. -/
theorem takePlace_holds (holds : Holds head inprog (.node color left old right) path)
    (filled : left.root = some tmp) (fresh : elm ∉ (RbTree.node color left old right).elems ++ Spine.elems path) :
    ∃ after, takePlace head old elm = .done after ∧ Holds after inprog (.node color left elm right) path := by
  have entry : head.entry old = ⟨left.root, right.root, Spine.parent path, color⟩ := holds.shape.1
  obtain ⟨-, shapeLeft, shapeRight⟩ := holds.shape
  have around : Around head (some old) path := holds.around
  have seen : ((RbTree.make .left color left old right).elems ++ Spine.elems path).Nodup := holds.nodup
  obtain ⟨⟨oldLeft, oldRight, oldPath⟩, nodup⟩ := (RbTree.nodup_make _ _ _ _ _ _).mp seen
  obtain ⟨nodupLeft, nodupRest, apart⟩ := List.nodup_append.mp nodup
  obtain ⟨nodupRight, nodupPath, apart'⟩ := List.nodup_append.mp nodupRest
  obtain ⟨ne, elmLeft, elmRight, elmPath⟩ : elm ≠ old ∧ elm ∉ left.elems ∧ elm ∉ right.elems ∧
      elm ∉ Spine.elems path := by
    simp only [RbTree.elems, List.mem_append, List.mem_cons, not_or] at fresh
    exact ⟨fresh.1.2.1, fresh.1.1, fresh.1.2.2, fresh.2⟩
  have upOld : Spine.parent path ≠ some old := fun up => oldPath (parent_mem up)
  have upElm : Spine.parent path ≠ some elm := fun up => elmPath (parent_mem up)
  have tmpLeft : tmp ∈ left.elems := RbTree.root_mem filled
  have tmpElm : tmp ≠ elm := fun eq => elmLeft (eq ▸ tmpLeft)
  have tmpOld : tmp ≠ old := fun eq => oldLeft (eq ▸ tmpLeft)
  generalize before : (head.modify elm fun _ => head.entry old).relink (Spine.parent path) old (some elm) = middle
  have middleEntry : ∀ other, Spine.parent path ≠ some other →
      middle.entry other = if other = elm then ⟨left.root, right.root, Spine.parent path, color⟩
        else head.entry other := by
    intro other away
    rw [← before, entry_relink _ _ _ _ _ away, entry_modify, entry]
  have run : takePlace head old elm =
      .done ((middle.setParent tmp (some elm)).adopt right.root (some elm)) := by
    have up : (head.modify elm fun _ => head.entry old).parent old = Spine.parent path := by
      rw [Head.parent, entry_modify, if_neg ne.symm, entry]
    have leftOld : middle.left old = some tmp := by
      rw [Head.left, middleEntry old upOld, if_neg ne.symm, entry, ← filled]
    have rightOld : (middle.setParent tmp (some elm)).right old = right.root := by
      rw [Head.right, Head.setParent, entry_modify, if_neg tmpOld.symm, middleEntry old upOld, if_neg ne.symm, entry]
    unfold takePlace
    simp only [up, before, leftOld, rightOld]
  have afterEntry : ∀ other, Spine.parent path ≠ some other →
      ((middle.setParent tmp (some elm)).adopt right.root (some elm)).entry other =
        if other = elm then ⟨left.root, right.root, Spine.parent path, color⟩
        else if left.root = some other ∨ right.root = some other then { head.entry other with parent := some elm }
        else head.entry other := by
    intro other away
    have upTmp : Spine.parent path ≠ some tmp := fun up =>
      apart tmp tmpLeft tmp (List.mem_append_right _ (parent_mem up)) rfl
    have rightElm : right.root ≠ some elm := fun root => elmRight (RbTree.root_mem root)
    have rightTmp : right.root ≠ some tmp := fun root =>
      apart tmp tmpLeft tmp (List.mem_append_left _ (RbTree.root_mem root)) rfl
    rw [entry_adopt, Head.setParent, entry_modify, middleEntry _ away, middleEntry _ upTmp, if_neg tmpElm, filled]
    by_cases here : other = elm
    · rw [here, if_neg rightElm, if_neg tmpElm.symm, if_pos rfl, if_pos rfl]
    · by_cases same : other = tmp
      · rw [same, if_neg rightTmp, if_pos rfl, if_neg tmpElm, if_pos (Or.inl rfl)]
      · have notTmp : (some tmp : Option α) ≠ some other := fun eq => same (Option.some.inj eq).symm
        simp only [if_neg here, if_neg same, notTmp, false_or]
  refine ⟨_, run, ?_, ⟨?_, shapeLeft.adopted nodupLeft ?_, shapeRight.adopted nodupRight ?_⟩, ?_, ?_⟩
  · rw [inprog_adopt, Head.setParent, inprog_modify, ← before, inprog_relink, inprog_modify, holds.inprog]
  · rw [afterEntry elm upElm, if_pos rfl]
  · intro other member
    have away : Spine.parent path ≠ some other := fun up =>
      apart other member other (List.mem_append_right _ (parent_mem up)) rfl
    have notRight : right.root ≠ some other := fun root =>
      apart other member other (List.mem_append_left _ (RbTree.root_mem root)) rfl
    rw [afterEntry other away, if_neg fun eq : other = elm => elmLeft (eq ▸ member)]
    simp only [notRight, or_false]
  · intro other member
    have away : Spine.parent path ≠ some other := fun up => apart' other member other (parent_mem up) rfl
    have notLeft : left.root ≠ some other := fun root =>
      apart other (RbTree.root_mem root) other (List.mem_append_left _ member) rfl
    rw [afterEntry other away, if_neg fun eq : other = elm => elmRight (eq ▸ member)]
    simp only [notLeft, false_or]
  · have linked : Around middle (some elm) path := by
      rw [← before]
      apply Around.relink _ oldPath nodupPath
      refine around.congr rfl ?_
      intro other member
      exact (entry_modify _ _ _ _).trans (if_neg fun eq : other = elm => elmPath (eq ▸ member))
    refine linked.congr (root_adopt _ _ _) ?_
    intro other member
    rw [entry_adopt, if_neg, Head.setParent, entry_modify, if_neg]
    · exact fun eq => apart tmp tmpLeft other (List.mem_append_right _ member) eq.symm
    · exact fun root => apart' _ (RbTree.root_mem root) _ member rfl
  · have swapped : ((RbTree.make .left color left elm right).elems ++ Spine.elems path).Nodup :=
      (RbTree.nodup_make _ _ _ _ _ _).mpr ⟨⟨elmLeft, elmRight, elmPath⟩, nodup⟩
    exact swapped

/-! ## The colours -/

/-- A red sibling is rotated away. -/
theorem siblingBlack_holds (holds : Holds head inprog tree (⟨side, color, parent, sibling⟩ :: path))
    (fits : Spine.Fits (n + 1) (⟨side, color, parent, sibling⟩ :: path)) :
    ∃ after color' sibling' path', siblingBlack side head parent = .done after ∧
      Holds after inprog tree (⟨side, color', parent, sibling'⟩ :: path') ∧ sibling'.isRed = false ∧
      Spine.Fits (n + 1) (⟨side, color', parent, sibling'⟩ :: path') ∧ (path' = path ∨ color' = .red) ∧
      (Spine.fill (⟨side, color', parent, sibling'⟩ :: path') tree).elems =
        (Spine.fill (⟨side, color, parent, sibling⟩ :: path) tree).elems := by
  have child : head.child side.other parent = sibling.root := by
    rw [Head.child, holds.above_entry, Entry.child_other_make]
  obtain ⟨color', near, tmp, far, rfl⟩ := fits.sibling.exists_make side
  have tmpColor : head.color tmp = color' := by rw [Head.color, holds.across.entry, Entry.color_make]
  rw [RbTree.root_make] at child
  rw [siblingBlack, child]
  cases color' with
  | black =>
      refine ⟨head, color, _, path, ?_, holds, by simp, fits, .inl rfl, rfl⟩
      simp only [tmpColor]
      rfl
  | red =>
      obtain ⟨rfl, okNear, okFar⟩ := RbTree.ok_make_red.mp fits.sibling
      have black := (holds.across.setColor .black).across
      rw [Side.other_other] at black
      obtain ⟨after, done, rotated⟩ := (black.up.setColor .red).rotated
      refine ⟨after, .red, near, ⟨side, .black, tmp, far⟩ :: path, ?_, Holds.down_iff.mp (Holds.down_iff.mp rotated), ?_,
        ⟨okNear, rfl, okFar.relax, fits.2⟩, .inr rfl, ?_⟩
      · simp only [tmpColor, if_true]
        exact done
      · exact okNear.not_red
      · exact Spine.elems_fill_congr path (RbTree.elems_rotate side _ _ _ _ _ _ _ _ _)

/-- The last rotation, with a red child on the far side of the sibling. -/
theorem removeRotate_last
    (holds : Holds head inprog tree (⟨side, color, parent, .make side color' near tmp far⟩ :: path)) :
    ∃ after, (rotate side
        (((head.setColor tmp (head.color parent)).setColor parent .black).blacken
          (((head.setColor tmp (head.color parent)).setColor parent .black).child side.other tmp)) parent) =
        .done after ∧
      Holds after inprog (.make side color (.make side .black tree parent near) tmp far.blacken) path := by
  have parentColor : head.color parent = color := by rw [Head.color, holds.above_entry, Entry.color_make]
  rw [parentColor]
  have sibling := (holds.across.setColor color).across
  rw [Side.other_other] at sibling
  have painted := (Holds.down_iff.mp (sibling.up.setColor .black)).across
  have child : ((head.setColor tmp color).setColor parent .black).child side.other tmp = far.root := by
    rw [Head.child, painted.entry, Entry.child_other_make]
  rw [child]
  have blackened := (Holds.down_iff.mp painted).across.blacken.across.up.across.up
  rw [Side.other_other] at blackened
  exact blackened.rotated

/-- The rotations for a black sibling with a red child. -/
theorem removeRotate_holds
    (holds : Holds head inprog tree (⟨side, color, parent, .make side .black near tmp far⟩ :: path))
    (okNear : near.Ok .black n) (okFar : far.Ok .black n) (red : ¬(near.isRed = false ∧ far.isRed = false)) :
    ∃ after near' tmp' far', removeRotate side head parent tmp = .done after ∧
      Holds after inprog (.make side color (.make side .black tree parent near') tmp' far') path ∧
      near'.Ok .black n ∧ far'.Ok .red (n + 1) ∧
      (Spine.fill path (.make side color (.make side .black tree parent near') tmp' far')).elems =
        (Spine.fill (⟨side, color, parent, .make side .black near tmp far⟩ :: path) tree).elems := by
  have farChild : head.child side.other tmp = far.root := by
    rw [Head.child, holds.across.entry, Entry.child_other_make]
  have nearChild : head.child side tmp = near.root := by
    rw [Head.child, holds.across.entry, Entry.child_make]
  have farRed : head.isRed far.root = far.isRed := (Holds.down_iff.mp holds.across).across.isRed_eq
  by_cases line : far.isRed = true
  · obtain ⟨after, done, final⟩ := removeRotate_last holds
    refine ⟨after, near, tmp, far.blacken, ?_, final, okNear, okFar.blacken_red line, ?_⟩
    · rw [removeRotate, farChild, farRed, if_pos line]
      exact done
    · apply Spine.elems_fill_congr path
      rw [RbTree.elems_rotate side color .black color color]
      exact RbTree.elems_make_congr _ _ _ _ rfl (RbTree.elems_make_congr _ _ _ _ rfl (RbTree.elems_blacken far))
  · obtain ⟨first, inner, second, rfl⟩ : ∃ first inner second, near = .make side .red first inner second := by
      cases near with
      | nil => exact absurd ⟨rfl, (Bool.not_eq_true _).mp line⟩ red
      | node color' left inner right =>
          obtain ⟨first, second, eq⟩ := RbTree.exists_make side color' left inner right
          rw [eq, RbTree.isRed_make, (Bool.not_eq_true _).mp line] at red
          obtain rfl : color' = .red := by simpa using red
          exact ⟨first, inner, second, eq⟩
    obtain ⟨-, okFirst, okSecond⟩ := RbTree.ok_make_red.mp okNear
    have okFar := okFar.of_not_red ((Bool.not_eq_true _).mp line)
    -- the red child on the near side is rotated to the place of the sibling
    rw [RbTree.root_make] at nearChild
    have painted := ((Holds.down_iff.mp holds.across).setColor .black).up.setColor .red
    rw [← RbTree.make_other side .red, ← RbTree.make_other side .black] at painted
    obtain ⟨middle, turn, turned⟩ := painted.rotated
    rw [RbTree.make_other, RbTree.make_other] at turned
    have turned := turned.across
    rw [Side.other_other] at turned
    have child : middle.child side.other parent = some inner := by
      rw [Head.child, turned.above_entry, Entry.child_other_make, RbTree.root_make]
    obtain ⟨after, done, final⟩ := removeRotate_last turned
    refine ⟨after, first, inner, _, ?_, final, okFirst.relax,
      (RbTree.ok_make_red.mpr ⟨rfl, okSecond, okFar⟩ : RbTree.Ok .black n _).blacken_red (by simp), ?_⟩
    · rw [removeRotate, farChild, farRed, if_neg line, nearChild]
      simp only [Head.blacken, turn, Outcome.bind, child]
      exact done
    · apply Spine.elems_fill_congr path
      rw [RbTree.elems_make_congr side color color inner rfl (RbTree.elems_blacken _),
        RbTree.elems_rotate side color .black color .black]
      exact RbTree.elems_make_congr _ _ _ _ rfl (RbTree.elems_rotate side _ _ _ _ _ _ _ _ _).symm

theorem removeColor_stop {top child : Option α} (stop : ¬(¬head.isRed child ∧ child ≠ head.root)) (fuel : Nat) :
    removeColor (fuel + 1) head top child = .done (head.blacken child) := by
  cases top with
  | none => rw [removeColor, if_neg stop]
  | some parent => rw [removeColor, if_neg stop]

/-- A red root turns black, and the height is restored. -/
theorem removeColor_red (holds : Holds head inprog tree path) (red : tree.isRed = true)
    (ok : tree.blacken.Ok .red (n + 1)) (fits : Spine.Fits (n + 1) path) :
    ∃ after tree' m, Gives (fun fuel => removeColor fuel head (Spine.parent path) tree.root) after ∧
      Holds after inprog tree' [] ∧ tree'.Ok .red m ∧ tree'.elems = (Spine.fill path tree).elems := by
  obtain ⟨m, whole⟩ := Spine.ok_fill fits ok.relax
  refine ⟨head.blacken tree.root, _, m, Gives.last (removeColor_stop ?_), holds.blacken.whole, whole, ?_⟩
  · rw [holds.isRed_eq, red]
    simp
  · exact Spine.elems_fill_congr path (RbTree.elems_blacken tree)

/-- The loop ends at the root. -/
theorem removeColor_root (holds : Holds head inprog tree []) (black : tree.isRed = false) (ok : tree.Ok .black n) :
    ∃ after tree' m, Gives (fun fuel => removeColor fuel head (Spine.parent []) tree.root) after ∧
      Holds after inprog tree' [] ∧ tree'.Ok .red m ∧ tree'.elems = tree.elems := by
  refine ⟨head.blacken tree.root, _, n, Gives.last (removeColor_stop ?_), holds.blacken,
    (ok.of_not_red black).blacken, RbTree.elems_blacken tree⟩
  rw [holds.root]
  simp

/-- The sibling turns red, and the parent is one lower than what fits. -/
theorem siblingRed_holds
    (holds : Holds head inprog tree (⟨side, color, parent, .make side .black near tmp far⟩ :: path)) :
    Holds (head.setColor tmp .red) inprog (.make side color tree parent (.make side .red near tmp far)) path ∧
      (head.setColor tmp .red).parent parent = Spine.parent path := by
  have painted := (holds.across.setColor .red).across.up
  rw [Side.other_other] at painted
  exact ⟨painted, painted.parent_eq (RbTree.root_make _ _ _ _ _)⟩

/-- A pass below a node whose other child is `tmp` when it is black. -/
theorem removeColor_pass {middle : Head α}
    (holds : Holds head inprog tree (⟨side, color, parent, sibling⟩ :: path))
    (black : tree.isRed = false) (ok : sibling.Ok color (n + 1)) (done : siblingBlack side head parent = .done middle)
    (child : middle.child side.other parent = some tmp) (fuel : Nat) :
    removeColor (fuel + 1) head (some parent) tree.root =
      if ¬middle.isRed (middle.left tmp) ∧ ¬middle.isRed (middle.right tmp) then
        removeColor fuel (middle.setColor tmp .red) ((middle.setColor tmp .red).parent parent) (some parent)
      else (removeRotate side middle parent tmp).bind fun head => .done (head.blacken head.root) := by
  have low : ¬head.isRed tree.root = true ∧ tree.root ≠ head.root := by
    rw [holds.isRed_eq, black]
    exact ⟨Bool.false_ne_true, holds.root_ne_root⟩
  have differ : tree.root ≠ sibling.root := by
    obtain ⟨color', near, elm, far, rfl⟩ := ok.exists_make side
    rw [RbTree.root_make]
    intro same
    exact holds.root_ne same (RbTree.root_make _ _ _ _ _)
  rw [removeColor, if_pos low]
  simp only [holds.side_eq differ, done, Outcome.bind, child]

/-- `RB_REMOVE_COLOR`, by induction on the path: `tree` is one lower than what fits. -/
theorem removeColor_holds (holds : Holds head inprog tree path) (ok : tree.Ok .black n)
    (fits : Spine.Fits (n + 1) path) :
    ∃ after tree' m, Gives (fun fuel => removeColor fuel head (Spine.parent path) tree.root) after ∧
      Holds after inprog tree' [] ∧ tree'.Ok .red m ∧ tree'.elems = (Spine.fill path tree).elems := by
  induction size : path.length generalizing path head tree n with
  | zero =>
      obtain rfl := List.length_eq_zero_iff.mp size
      by_cases red : tree.isRed = true
      · exact removeColor_red holds red (ok.blacken_red red) fits
      · exact removeColor_root holds ((Bool.not_eq_true _).mp red) ok
  | succ size ih =>
      by_cases red : tree.isRed = true
      · exact removeColor_red holds red (ok.blacken_red red) fits
      · have black := (Bool.not_eq_true _).mp red
        have okTree := ok.of_not_red black
        obtain ⟨⟨side, color, parent, sibling⟩, path, rfl⟩ := List.exists_cons_of_length_eq_add_one size
        obtain ⟨middle, color', sibling', path', done, turned, blackSibling, fits', same, elems⟩ :=
          siblingBlack_holds holds fits
        obtain ⟨color'', near, tmp, far, rfl⟩ := fits'.sibling.exists_make side
        obtain rfl : color'' = .black := by
          cases color'' with
          | red => simp at blackSibling
          | black => rfl
        obtain ⟨okNear, okFar⟩ := RbTree.ok_make_black.mp fits'.sibling
        have child : middle.child side.other parent = some tmp := by
          rw [Head.child, turned.above_entry, Entry.child_other_make, RbTree.root_make]
        have pass := removeColor_pass holds black fits.sibling done child
        have test := turned.across.children_black
        by_cases bothBlack : near.isRed = false ∧ far.isRed = false
        · -- the sibling turns red, and the parent is one lower than what fits
          obtain ⟨painted, up⟩ := siblingRed_holds turned
          have okSibling : (RbTree.make side .red near tmp far).Ok .black n :=
            RbTree.ok_make_red.mpr ⟨rfl, okNear.of_not_red bothBlack.1, okFar.of_not_red bothBlack.2⟩
          obtain ⟨after, tree', m, gives, final, ok', elems'⟩ : ∃ after tree' m, Gives (fun fuel =>
                removeColor fuel (middle.setColor tmp .red) (Spine.parent path') (some parent)) after ∧
              Holds after inprog tree' [] ∧ tree'.Ok .red m ∧ tree'.elems =
                (Spine.fill path' (.make side color' tree parent (.make side .red near tmp far))).elems := by
            cases color' with
            | red =>
                have lower : (RbTree.make side .red tree parent (.make side .red near tmp far)).blacken.Ok .red (n + 1) := by
                  rw [RbTree.blacken_make]
                  exact RbTree.ok_make_black.mpr ⟨ok, okSibling⟩
                rw [← RbTree.root_make side .red tree parent (.make side .red near tmp far)]
                exact removeColor_red painted (by simp) lower fits'.2.2
            | black =>
                obtain rfl := same.resolve_right Color.noConfusion
                rw [← RbTree.root_make side .black tree parent (.make side .red near tmp far)]
                exact ih painted (RbTree.ok_make_black.mpr ⟨ok, okSibling⟩) fits'.2 (Nat.succ.inj size)
          refine ⟨after, tree', m, Gives.pass (fun fuel => ?_) gives, final, ok', (elems'.trans ?_).trans elems⟩
          · exact (pass fuel).trans (by rw [if_pos (test.mpr bothBlack), up])
          · exact Spine.elems_fill_congr path' (RbTree.elems_make_congr _ _ _ _ rfl (RbTree.elems_recolor _ _ _ _ _ _))
        · obtain ⟨after, near', tmp', far', rotated, final, okNear', okFar', elems'⟩ :=
            removeRotate_holds turned okNear okFar bothBlack
          have okLow : (RbTree.make side .black tree parent near').Ok .red (n + 1) :=
            RbTree.ok_make_black.mpr ⟨ok, okNear'⟩
          obtain ⟨m, whole⟩ : ∃ m,
              (Spine.fill path' (.make side color' (.make side .black tree parent near') tmp' far')).Ok .red m := by
            cases color' with
            | red => exact Spine.ok_fill fits'.2.2 (RbTree.ok_make_red.mpr ⟨fits'.2.1, okLow, okFar'⟩)
            | black => exact Spine.ok_fill fits'.2 (RbTree.ok_make_black.mpr ⟨okLow.relax, okFar'.relax⟩)
          refine ⟨after.blacken after.root, _, m, Gives.last fun fuel => ?_, ?_, whole.blacken, ?_⟩
          · exact (pass fuel).trans (by rw [if_neg (test.not.mpr bothBlack), rotated]; rfl)
          · rw [final.whole.root]
            exact final.whole.blacken
          · rw [RbTree.elems_blacken, elems', elems]

/-- The end of `RB_REMOVE`, when `child` has taken the place of a node with one subtree. -/
theorem recolor_holds (holds : Holds head inprog child path)
    (ok : (RbTree.make side color .nil elm child).Ok (Spine.above path) n) (fits : Spine.Fits n path) :
    ∃ after tree' m, Gives (fun fuel => recolor fuel head (Spine.parent path) child.root color) after ∧
      Holds after inprog tree' [] ∧ tree'.Ok .red m ∧ tree'.elems = (Spine.fill path child).elems := by
  cases color with
  | red =>
      obtain ⟨m, whole⟩ := Spine.ok_fill fits (RbTree.ok_make_red.mp ok).2.2.relax
      exact ⟨head, _, m, .pure head, holds.whole, whole, rfl⟩
  | black =>
      obtain ⟨m, rfl⟩ : ∃ m, n = m + 1 := by
        cases side with
        | left => exact ⟨ok.choose, ok.choose_spec.1⟩
        | right => exact ⟨ok.choose, ok.choose_spec.1⟩
      exact removeColor_holds holds (RbTree.ok_make_black.mp ok).2 fits

/-! ## The removal -/

/-- A scan that waits at the element moves on to `node`. -/
def ScanInfo.moved (elm : α) (node : Option α) (info : ScanInfo α) : ScanInfo α :=
  if info.node = some elm then { info with node } else info

/-- The scans in progress move on to the next element. -/
theorem advance_gives (holds : Holds head inprog (.node color left elm right) path) (infos : List (ScanInfo α)) :
    Gives (fun fuel => advance head fuel elm infos)
      (infos.map (ScanInfo.moved elm (right.elems ++ Spine.after path).head?)) := by
  induction infos with
  | nil => exact .pure _
  | cons info infos ih =>
      have first : Gives (fun fuel => if info.node = some elm then
            (next head fuel elm).bind fun node => .done { info with node }
          else .done info) (info.moved elm (right.elems ++ Spine.after path).head?) := by
        rw [ScanInfo.moved]
        split_ifs with here
        · exact (next_gives holds).bind (.pure _)
        · exact .pure _
      exact first.bind (ih.bind (.pure _))

omit [DecidableEq α] in
theorem Holds.setInprog (holds : Holds head inprog tree path) (infos : List (ScanInfo α)) :
    Holds { head with inprog := infos } infos tree path :=
  ⟨rfl, holds.shape, holds.around.congr rfl fun _ _ => rfl, holds.nodup⟩

/-- The parent that the code passes on when `old` changes places with `elm` below it. -/
theorem parent_exchanged {front : Spine α}
    (nodup : (Spine.elems (front ++ ⟨side, color, old, sibling⟩ :: path)).Nodup) :
    (if Spine.parent (front ++ ⟨side, color, old, sibling⟩ :: path) = some old then some elm
      else Spine.parent (front ++ ⟨side, color, old, sibling⟩ :: path)) =
      Spine.parent (front ++ ⟨side, color, elm, sibling⟩ :: path) := by
  cases front with
  | nil => exact if_pos rfl
  | cons frame front =>
      have ne : frame.elm ≠ old := by
        intro eq
        rw [List.cons_append, Spine.elems, List.cons_append, List.nodup_cons] at nodup
        exact nodup.1 (by simp [Spine.elems_append, Spine.elems, eq])
      exact if_neg fun eq => ne (Option.some.inj eq)

omit [DecidableEq α] in
/-- The next element is none of the others. -/
theorem other_fresh {front : Spine α}
    (holds : Holds head inprog (.make side color' .nil elm child) (front ++ ⟨.right, color, old, left⟩ :: path)) :
    elm ∉ (RbTree.node color left old (Spine.fill front child)).elems ++ Spine.elems path := by
  obtain ⟨⟨-, outChild, outPath⟩, -⟩ := (RbTree.nodup_make _ _ _ _ _ _).mp holds.nodup
  have below : (RbTree.node color left old (Spine.fill front child)).elems.Perm
      (child.elems ++ Spine.elems (front ++ [⟨.right, color, old, left⟩])) := by
    have perm := Spine.elems_fill_perm (front ++ [⟨.right, color, old, left⟩]) child
    rw [Spine.fill_append] at perm
    exact perm
  rw [List.mem_append, below.mem_iff]
  simp only [Spine.elems_append, Spine.elems, List.mem_append, List.mem_cons, List.not_mem_nil, or_false] at outPath ⊢
  tauto

/-- The next element takes the place of one with two subtrees. -/
theorem exchange_gives (holds : Holds head inprog (.node color left elm right) path)
    (ok : (Spine.fill path (.node color left elm right)).Ok .red n) (filled : left.root = some tmp)
    (filled' : right.root = some old) :
    ∃ after tree' m, Gives (fun fuel => (leftmost head fuel old).bind fun other =>
          (takePlace (unlink head other (head.right other)) elm other).bind fun after =>
            recolor fuel after (if head.parent other = some elm then some other else head.parent other)
              (head.right other) (head.color other)) after ∧
      Holds after inprog tree' [] ∧ tree'.Ok .red m ∧
      tree'.elems = Spine.before path ++ left.elems ++ (right.elems ++ Spine.after path) := by
  obtain ⟨other, front, color', child, found, rfl, first⟩ : ∃ other front color' child,
      Gives (fun fuel => leftmost head fuel old) other ∧
        right = Spine.fill front (.node color' .nil other child) ∧ Spine.before front = [] := by
    cases right with
    | nil => simp [RbTree.root] at filled'
    | node color' left' root right' =>
        obtain rfl : root = old := Option.some.inj filled'
        exact leftmost_gives holds.goRight
  have focus : Holds head inprog (.make .left color' .nil other child) (front ++ ⟨.right, color, elm, left⟩ :: path) :=
    Holds.fill_iff.mp holds.goRight
  have split : ∀ tree, Spine.fill (front ++ ⟨.right, color, elm, left⟩ :: path) tree =
      Spine.fill path (.node color left elm (Spine.fill front tree)) := fun tree => Spine.fill_append _ _ _
  rw [← split] at ok
  obtain ⟨m, okOther, fits⟩ := Spine.fits_of_ok ok
  rw [Spine.above_append front .right color elm other] at okOther
  have okOther : (RbTree.make .left color' .nil other child).Ok
      (Spine.above (front ++ ⟨.right, color, other, left⟩ :: path)) m := okOther
  -- the head after the two exchanges, and what the code passes on
  obtain ⟨after, done, placed⟩ :=
    takePlace_holds (Holds.fill_iff.mpr (unlink_holds focus)).up filled (other_fresh focus)
  have hole : Holds after inprog child (front ++ ⟨.right, color, other, left⟩ :: path) :=
    Holds.fill_iff.mp placed.goRight
  have childEq : head.right other = child.root := by
    rw [Head.right, focus.entry]
    rfl
  have colorEq : head.color other = color' := by rw [Head.color, focus.entry, Entry.color_make]
  have parentEq := focus.parent_eq (RbTree.root_make _ _ _ _ _)
  have exchanged := @parent_exchanged _ _ left path .right color other elm front
    (List.nodup_append.mp focus.nodup).2.1
  obtain ⟨final, tree', m', gives, whole, ok', elems⟩ :=
    recolor_holds hole okOther fits.replace
  refine ⟨final, tree', m', found.bind ?_, whole, ok', ?_⟩
  · simp only [childEq, colorEq, parentEq, exchanged, done, Outcome.bind]
    exact gives
  · rw [elems, Spine.elems_fill, Spine.elems_fill]
    simp [Spine.before_append, Spine.after_append, Spine.before, Spine.after, Frame.before, Frame.after, first,
      RbTree.elems]

/-- The element goes, whatever subtrees it has. -/
theorem detach_gives (holds : Holds head inprog (.node color left elm right) path)
    (ok : (Spine.fill path (.node color left elm right)).Ok .red n) :
    ∃ after tree' m, Gives (fun fuel => detach fuel head elm) after ∧ Holds after inprog tree' [] ∧ tree'.Ok .red m ∧
      tree'.elems = Spine.before path ++ left.elems ++ (right.elems ++ Spine.after path) := by
  have entry : head.entry elm = ⟨left.root, right.root, Spine.parent path, color⟩ := holds.shape.1
  have leftEq : head.left elm = left.root := congrArg Entry.left entry
  have rightEq : head.right elm = right.root := congrArg Entry.right entry
  have parentEq : head.parent elm = Spine.parent path := congrArg Entry.parent entry
  have colorEq : head.color elm = color := congrArg Entry.color entry
  obtain ⟨m, okHere, fits⟩ := Spine.fits_of_ok ok
  cases left with
  | nil =>
      have seen : Holds head inprog (.make .left color .nil elm right) path := holds
      have turned : (RbTree.make .left color .nil elm right).Ok (Spine.above path) m := okHere
      obtain ⟨after, tree', m, gives, final, ok', elems⟩ := recolor_holds (unlink_holds seen) turned fits
      refine ⟨after, tree', m, ?_, final, ok', ?_⟩
      · simp only [detach, leftEq, rightEq, parentEq, colorEq, RbTree.root]
        exact gives
      · rw [elems, Spine.elems_fill]
        simp [RbTree.elems]
  | node color' left' tmp right' =>
      cases right with
      | nil =>
          have seen : Holds head inprog (.make .right color .nil elm (.node color' left' tmp right')) path := holds
          have turned : (RbTree.make .right color .nil elm (.node color' left' tmp right')).Ok (Spine.above path) m :=
            okHere
          obtain ⟨after, tree', m, gives, final, ok', elems⟩ := recolor_holds (unlink_holds seen) turned fits
          refine ⟨after, tree', m, ?_, final, ok', ?_⟩
          · simp only [detach, leftEq, rightEq, parentEq, colorEq, RbTree.root]
            exact gives
          · rw [elems, Spine.elems_fill]
            simp [RbTree.elems]
      | node color'' left'' old right'' =>
          obtain ⟨after, tree', m, gives, final⟩ := exchange_gives holds ok rfl rfl
          refine ⟨after, tree', m, ?_, final⟩
          simp only [detach, leftEq, rightEq, RbTree.root]
          exact gives

/-- `RB_REMOVE` takes the element out, and no scan waits at it any more. -/
theorem remove_gives (holds : Holds head inprog (.node color left elm right) path)
    (ok : (Spine.fill path (.node color left elm right)).Ok .red n) :
    ∃ after tree' m, Gives (fun fuel => remove fuel head elm) after ∧
      Holds after (inprog.map (ScanInfo.moved elm (right.elems ++ Spine.after path).head?)) tree' [] ∧
      tree'.Ok .red m ∧ tree'.elems = Spine.before path ++ left.elems ++ (right.elems ++ Spine.after path) := by
  have scans := advance_gives holds inprog
  obtain ⟨after, tree', m, gives, final⟩ := detach_gives (holds.setInprog _) ok
  refine ⟨after, tree', m, ?_, final⟩
  have called : (fun fuel => remove fuel head elm) = fun fuel =>
      (advance head fuel elm inprog).bind fun inprog => detach fuel { head with inprog } elm := by
    funext fuel
    rw [remove, holds.inprog]
  rw [called]
  exact scans.bind gives

end Dragonfly.Kern.Rb
