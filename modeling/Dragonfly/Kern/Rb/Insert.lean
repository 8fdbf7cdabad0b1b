import Dragonfly.Kern.Rb.Shape

/-!
# Insertion

The loop of `RB_INSERT_COLOR` climbs two levels at a time as long as the uncle is red, and is done
one pass after a rotation.  The new tree has the elements of the old one in the same order, with
the new element between the smaller and the larger ones.
-/

namespace Dragonfly.Kern.Rb

open Dragonfly.Lib Dragonfly.Lib.Redblack

variable {α : Type} {head : Head α} {inprog : List (ScanInfo α)} {tree near far sibling uncle : RbTree α}
  {path rest : Spine α} {side side' : Side} {color above : Color} {elm parent gparent : α} {n : Nat}

/-! ## Around the focus -/

namespace Holds

/-- The node above the focus. -/
theorem up (holds : Holds head inprog tree (⟨side, color, parent, sibling⟩ :: path)) :
    Holds head inprog (.make side color tree parent sibling) path :=
  down_iff.mpr holds

/-- The sibling of the focus. -/
theorem across (holds : Holds head inprog tree (⟨side, color, parent, sibling⟩ :: path)) :
    Holds head inprog sibling (⟨side.other, color, parent, tree⟩ :: path) := by
  apply down_iff.mp
  rw [RbTree.make_other]
  exact holds.up

theorem above_entry (holds : Holds head inprog tree (⟨side, color, parent, sibling⟩ :: path)) :
    head.entry parent = Entry.make side tree.root sibling.root (Spine.parent path) color :=
  holds.around.1

theorem root_ne (holds : Holds head inprog tree (⟨side, color, parent, sibling⟩ :: path))
    (root : tree.root = some elm) : sibling.root ≠ some elm := by
  intro same
  have apart := (List.nodup_append.mp holds.nodup).2.2 elm (RbTree.root_mem root) elm
  exact apart (by simp [Spine.elems, RbTree.root_mem same]) rfl

/-- The test for a red element. -/
theorem isRed_eq (holds : Holds head inprog tree path) : head.isRed tree.root = tree.isRed := by
  cases tree with
  | nil => rfl
  | node color left elm right =>
      have here : head.color elm = color := by rw [Head.color, holds.shape.1]
      cases color <;> simp [RbTree.root, Head.isRed, here, RbTree.isRed]

theorem root_ne_root (holds : Holds head inprog tree (⟨side, color, parent, sibling⟩ :: path)) :
    tree.root ≠ head.root := by
  obtain ⟨root, eq, member⟩ := Spine.root_fill_mem ⟨side, color, parent, sibling⟩ path tree
  rw [holds.whole.root, eq]
  intro same
  exact (List.nodup_append.mp holds.nodup).2.2 root (RbTree.root_mem same) root member rfl

/-- Both children of a node are black. -/
theorem children_black (holds : Holds head inprog (.make side color near elm far) path) :
    (¬head.isRed (head.left elm) ∧ ¬head.isRed (head.right elm)) ↔ near.isRed = false ∧ far.isRed = false := by
  have nearRed : head.isRed near.root = near.isRed := (down_iff.mp holds).isRed_eq
  have farRed : head.isRed far.root = far.isRed := (down_iff.mp holds).across.isRed_eq
  rw [Head.left, Head.right, holds.entry, Bool.not_eq_true, Bool.not_eq_true]
  cases side with
  | left => exact and_congr (by rw [← nearRed]; rfl) (by rw [← farRed]; rfl)
  | right => exact (and_congr (by rw [← farRed]; rfl) (by rw [← nearRed]; rfl)).trans and_comm

end Holds

/-! ## The place of a new element -/

variable {κ : Type} [LinearOrder κ] {ord : Order α κ} {comp : Int}

/-- The elements have increasing keys. -/
def Sorted (ord : Order α κ) (elms : List α) : Prop := elms.Pairwise fun elm other => ord.key elm < ord.key other

/-- The last comparison is the one that leads to the side of the hole. -/
def Leads (comp : Int) : Spine α → Prop
  | [] => True
  | frame :: _ => comp < 0 ↔ frame.side = .left

/-- Where a search ends in a tree. -/
inductive Ends (ord : Order α κ) (elm : α) (tree : RbTree α) (path : Spine α) : Spot α → Prop where
  | found {tmp : α} (member : tmp ∈ tree.elems) (same : ord.key tmp = ord.key elm) : Ends ord elm tree path (.found tmp)
  | below {front : Spine α} {comp : Int} (hole : tree = Spine.fill front .nil) (leads : Leads comp (front ++ path))
      (lower : ∀ other ∈ Spine.before front, ord.key other < ord.key elm)
      (upper : ∀ other ∈ Spine.after front, ord.key elm < ord.key other) :
      Ends ord elm tree path (.below (Spine.parent (front ++ path)) comp)

/-- A search of a subtree is one of the tree above it. -/
theorem Ends.up {frame : Frame α} {spot : Spot α} (ends : Ends ord elm tree (frame :: path) spot)
    (lower : ∀ other ∈ frame.before, ord.key other < ord.key elm)
    (upper : ∀ other ∈ frame.after, ord.key elm < ord.key other) : Ends ord elm (frame.fill tree) path spot := by
  cases ends with
  | found member same =>
      apply Ends.found _ same
      rw [Frame.elems_fill]
      simp [member]
  | @below front comp hole leads lower' upper' =>
      have split : front ++ frame :: path = (front ++ [frame]) ++ path := by simp
      rw [split] at leads ⊢
      refine .below ?_ leads ?_ ?_
      · rw [Spine.fill_append, ← hole]
        rfl
      · intro other member
        rw [Spine.before_append, List.mem_append] at member
        rcases member with member | member
        · exact lower other (by simpa [Spine.before] using member)
        · exact lower' other member
      · intro other member
        rw [Spine.after_append, List.mem_append] at member
        rcases member with member | member
        · exact upper' other member
        · exact upper other (by simpa [Spine.after] using member)

/-- The loop of `RB_INSERT`, by induction on the tree. -/
theorem descend_gives (holds : Holds head inprog tree path) (sorted : Sorted ord tree.elems)
    (leads : Leads comp path) :
    ∃ spot, Gives (fun fuel => descend ord.cmp head elm fuel tree.root (Spine.parent path) comp) spot ∧
      Ends ord elm tree path spot := by
  induction tree generalizing path comp with
  | nil =>
      refine ⟨_, Gives.last fun fuel => rfl, @Ends.below _ _ _ _ elm .nil path [] comp rfl leads ?_ ?_⟩
      · simp [Spine.before]
      · simp [Spine.after]
  | node color left tmp right ihLeft ihRight =>
      obtain ⟨sortedLeft, sortedRest, across⟩ := List.pairwise_append.mp sorted
      obtain ⟨first, sortedRight⟩ := List.pairwise_cons.mp sortedRest
      have entry : head.entry tmp = ⟨left.root, right.root, Spine.parent path, color⟩ := holds.shape.1
      rcases lt_trichotomy (ord.key elm) (ord.key tmp) with less | same | more
      · have neg := (ord.neg_iff elm tmp).mpr less
        have seen : Holds head inprog (.make .left color left tmp right) path := holds
        have leads' : Leads (ord.cmp elm tmp) (⟨.left, color, tmp, right⟩ :: path) := iff_of_true neg rfl
        obtain ⟨spot, gives, ends⟩ := ihLeft (Holds.down_iff.mp seen) sortedLeft leads'
        refine ⟨spot, Gives.pass (fun fuel => ?_) gives, ends.up ?_ ?_⟩
        · rw [RbTree.root, descend]
          simp only [if_pos neg, Head.left, entry]
          rfl
        · simp [Frame.before]
        · intro other member
          rcases List.mem_cons.mp member with rfl | member
          · exact less
          · exact less.trans (first other member)
      · have zero : ¬ord.cmp elm tmp < 0 ∧ ¬0 < ord.cmp elm tmp := by
          rw [ord.neg_iff, ord.pos_iff, same]
          exact ⟨lt_irrefl _, lt_irrefl _⟩
        refine ⟨.found tmp, Gives.last fun fuel => ?_, .found (by simp [RbTree.elems]) same.symm⟩
        rw [RbTree.root, descend]
        simp only [if_neg zero.1, if_neg zero.2]
      · have pos := (ord.pos_iff elm tmp).mpr more
        have notNeg : ¬ord.cmp elm tmp < 0 := not_lt.mpr pos.le
        have seen : Holds head inprog (.make .right color right tmp left) path := holds
        have leads' : Leads (ord.cmp elm tmp) (⟨.right, color, tmp, left⟩ :: path) :=
          iff_of_false notNeg Side.noConfusion
        obtain ⟨spot, gives, ends⟩ := ihRight (Holds.down_iff.mp seen) sortedRight leads'
        refine ⟨spot, Gives.pass (fun fuel => ?_) gives, ends.up ?_ ?_⟩
        · rw [RbTree.root, descend]
          simp only [if_neg notNeg, if_pos pos, Head.right, entry]
          rfl
        · intro other member
          rcases List.mem_append.mp member with member | member
          · exact (across other member tmp List.mem_cons_self).trans more
          · rw [List.mem_singleton.mp member]
            exact more
        · simp [Frame.after]

variable [DecidableEq α]

namespace Holds

/-- The side that the code finds. -/
theorem side_eq (holds : Holds head inprog tree (⟨side, color, parent, sibling⟩ :: path))
    (differ : tree.root ≠ sibling.root) :
    (if head.left parent = tree.root then Side.left else .right) = side := by
  rw [Head.left, holds.above_entry]
  cases side with
  | left => exact if_pos rfl
  | right => exact if_neg differ.symm

end Holds

/-! ## The colours -/

/-- The last write of the loop. -/
theorem blackenRoot_holds (holds : Holds head inprog tree []) (ok : tree.Ok above n)
    (filled : tree.root = some elm) :
    ∃ after m, blackenRoot head = .done after ∧ Holds after inprog tree.blacken [] ∧
      tree.blacken.Ok .red m := by
  cases tree with
  | nil => simp [RbTree.root] at filled
  | node color left root right =>
      obtain ⟨m, okLeft, okRight⟩ := ok.children
      have here : head.root = some root := holds.root
      refine ⟨head.setColor root .black, m + 1, ?_, holds.blacken, m, rfl, okLeft, okRight⟩
      rw [blackenRoot, here]

/-- The loop ends below a black node and at the root. -/
theorem insertColor_ends (holds : Holds head inprog (.make side .red near elm far) path)
    (okNear : near.Ok .red n) (okFar : far.Ok .red n) (fits : Spine.Fits n path)
    (ends : path = [] ∨ Spine.above path = .black) :
    ∃ after tree m, Gives (fun fuel => insertColor fuel head elm) after ∧ Holds after inprog tree [] ∧
      tree.Ok .red m ∧ tree.elems = (Spine.fill path (.make side .red near elm far)).elems := by
  have above' : head.parent elm = Spine.parent path := by rw [Head.parent, holds.entry, Entry.parent_make]
  obtain ⟨above, k, ok⟩ : ∃ above k, (Spine.fill path (RbTree.make side .red near elm far)).Ok above k := by
    rcases ends with rfl | black
    · exact ⟨.black, n, RbTree.ok_make_red.mpr ⟨rfl, okNear, okFar⟩⟩
    · obtain ⟨k, ok⟩ := Spine.ok_fill fits (RbTree.ok_make_red.mpr ⟨black, okNear, okFar⟩)
      exact ⟨.red, k, ok⟩
  obtain ⟨root, filled⟩ : ∃ root, (Spine.fill path (RbTree.make side .red near elm far)).root = some root := by
    have inside : elm ∈ (Spine.fill path (RbTree.make side .red near elm far)).elems := by
      rw [Spine.elems_fill]
      simp [RbTree.root_mem (RbTree.root_make side .red near elm far)]
    cases whole : Spine.fill path (RbTree.make side .red near elm far) with
    | nil => simp [whole, RbTree.elems] at inside
    | node color left root right => exact ⟨root, rfl⟩
  obtain ⟨after, m, done, final, black⟩ := blackenRoot_holds holds.whole ok filled
  refine ⟨after, _, m, Gives.last fun fuel => ?_, final, black, RbTree.elems_blacken _⟩
  rw [insertColor, above']
  cases path with
  | nil => exact done
  | cons frame path =>
      rcases frame with ⟨side', color, parent, sibling⟩
      have black : color = .black := ends.resolve_left (List.cons_ne_nil _ _)
      have notRed : head.color parent ≠ .red := by
        rw [Head.color, holds.above_entry, Entry.color_make, black]
        exact Color.noConfusion
      simp only [Spine.parent, if_neg notRed]
      exact done

/-- The rotation at the grandparent, below which `elm` and `parent` are in line. -/
theorem insertRotate_line
    (holds : Holds head inprog (.make side .red tree parent sibling) (⟨side, .black, gparent, uncle⟩ :: rest)) :
    ∃ after, rotate side.other ((head.setColor parent .black).setColor gparent .red) gparent = .done after ∧
      Holds after inprog tree (⟨side, .black, parent, .make side .red sibling gparent uncle⟩ :: rest) := by
  have black := (holds.setColor .black).up.setColor .red
  rw [← RbTree.make_other side .red, ← RbTree.make_other side .black] at black
  obtain ⟨after, done, rotated⟩ := black.rotated
  rw [RbTree.make_other, RbTree.make_other] at rotated
  exact ⟨after, done, Holds.down_iff.mp rotated⟩

/-- The rotations below a black grandparent whose other child is not red. -/
theorem insertRotate_holds
    (holds : Holds head inprog (.make side .red near elm far)
      (⟨side', .red, parent, sibling⟩ :: ⟨side, .black, gparent, uncle⟩ :: rest))
    (okNear : near.Ok .red n) (okFar : far.Ok .red n) (okSibling : sibling.Ok .red n) (okUncle : uncle.Ok .red n) :
    ∃ after elm' near' far' parent' lower, insertRotate side head elm parent gparent = .done (after, elm') ∧
      Holds after inprog (.make side .red near' elm' far') (⟨side, .black, parent', lower⟩ :: rest) ∧
      near'.Ok .red n ∧ far'.Ok .red n ∧ lower.Ok .black n ∧
      (Spine.fill (⟨side, .black, parent', lower⟩ :: rest) (.make side .red near' elm' far')).elems =
        (Spine.fill (⟨side', .red, parent, sibling⟩ :: ⟨side, .black, gparent, uncle⟩ :: rest)
          (.make side .red near elm far)).elems := by
  have child := congrArg (fun entry => entry.child side.other) holds.above_entry
  rcases Side.eq_or_other side side' with rfl | rfl
  · rw [Entry.child_other_make] at child
    have outer : head.child side'.other parent ≠ some elm := by
      rw [Head.child, child]
      exact holds.root_ne (RbTree.root_make _ _ _ _ _)
    obtain ⟨after, done, final⟩ := insertRotate_line holds.up
    refine ⟨after, elm, near, far, parent, _, ?_, final, okNear, okFar,
      RbTree.ok_make_red.mpr ⟨rfl, okSibling, okUncle⟩, ?_⟩
    · rw [insertRotate, if_neg outer]
      simp only [Outcome.bind, done]
    · exact Spine.elems_fill_congr rest (RbTree.elems_rotate side' _ _ _ _ _ _ _ _ _).symm
  · rw [Entry.child_make, RbTree.root_make] at child
    have inner := holds.up
    rw [RbTree.make_other] at inner
    obtain ⟨middle, first, turned⟩ := inner.rotated
    obtain ⟨after, done, final⟩ := insertRotate_line turned
    refine ⟨after, parent, sibling, near, elm, _, ?_, final, okSibling, okNear,
      RbTree.ok_make_red.mpr ⟨rfl, okFar, okUncle⟩, ?_⟩
    · rw [insertRotate, if_pos (show head.child side.other parent = some elm from child), first]
      simp only [Outcome.bind, done]
    · apply Spine.elems_fill_congr rest
      simp only [Frame.fill, RbTree.make_other]
      rw [← RbTree.elems_rotate side .black .red]
      exact Spine.elems_fill_congr [⟨side, .black, gparent, uncle⟩] (RbTree.elems_rotate side _ _ _ _ _ _ _ _ _)

/-- A pass below a red parent. -/
theorem insertColor_pass
    (holds : Holds head inprog (.make side .red near elm far)
      (⟨side', .red, parent, sibling⟩ :: ⟨side'', .black, gparent, uncle⟩ :: rest)) (fuel : Nat) :
    insertColor (fuel + 1) head elm =
      if head.isRed uncle.root then
        insertColor fuel
          (((head.blacken uncle.root).setColor parent .black).setColor gparent .red) gparent
      else (insertRotate side'' head elm parent gparent).bind fun (head, elm) => insertColor fuel head elm := by
  have above : head.parent elm = some parent := by rw [Head.parent, holds.entry, Entry.parent_make]; rfl
  have red : head.color parent = .red := by rw [Head.color, holds.above_entry, Entry.color_make]
  have top : head.parent parent = some gparent := by rw [Head.parent, holds.above_entry, Entry.parent_make]; rfl
  have turn := holds.up.side_eq (by
    rw [RbTree.root_make]
    exact (holds.up.root_ne (RbTree.root_make _ _ _ _ _)).symm)
  rw [RbTree.root_make] at turn
  have other : head.child side''.other gparent = uncle.root := by
    rw [Head.child, holds.up.above_entry, Entry.child_other_make]
  rw [insertColor, above]
  simp only [if_pos red, top, turn, other]
  cases uncle.root with
  | none => simp [Head.isRed]
  | some tmp => simp [Head.isRed, Head.blacken]

/-- The colours below a red uncle. -/
theorem insertColor_recolor
    (holds : Holds head inprog (.make side .red near elm far)
      (⟨side', .red, parent, sibling⟩ :: ⟨side'', .black, gparent, uncle⟩ :: rest)) :
    Holds (((head.blacken uncle.root).setColor parent .black).setColor gparent .red) inprog
      (.make side'' .red (.make side' .black (.make side .red near elm far) parent sibling) gparent uncle.blacken)
      rest := by
  have first := holds.up.across.blacken.across
  rw [Side.other_other] at first
  exact ((first.setColor .black).up.setColor .red)

/-- The loop of `RB_INSERT_COLOR`, by induction on the length of the path. -/
theorem insertColor_holds (holds : Holds head inprog (.make side .red near elm far) path)
    (okNear : near.Ok .red n) (okFar : far.Ok .red n) (fits : Spine.Fits n path) :
    ∃ after tree m, Gives (fun fuel => insertColor fuel head elm) after ∧ Holds after inprog tree [] ∧
      tree.Ok .red m ∧ tree.elems = (Spine.fill path (.make side .red near elm far)).elems := by
  induction size : path.length using Nat.strong_induction_on generalizing path head side near far elm n with
  | _ size ih =>
      rcases path with _ | ⟨⟨side', color, parent, sibling⟩, path⟩
      · exact insertColor_ends holds okNear okFar fits (.inl rfl)
      · cases color with
        | black => exact insertColor_ends holds okNear okFar fits (.inr rfl)
        | red =>
            rcases path with _ | ⟨⟨side'', color, gparent, uncle⟩, rest⟩
            · exact Color.noConfusion fits.2.1
            · obtain rfl : color = .black := fits.2.1
              obtain ⟨okSibling, -, okUncle, fits⟩ := fits
              have same := holds.up.across.isRed_eq
              by_cases red : head.isRed uncle.root = true
              · -- the uncle is red: the grandparent is the new element, two nodes up
                rw [same] at red
                obtain ⟨after, tree, m, gives, final, ok, elems⟩ := ih rest.length
                  (by rw [← size]; exact Nat.lt_succ_of_lt (Nat.lt_succ_self _)) (insertColor_recolor holds)
                  (RbTree.ok_make_black.mpr ⟨RbTree.ok_make_red.mpr ⟨rfl, okNear, okFar⟩, okSibling.relax⟩)
                  (okUncle.blacken_red red) fits rfl
                refine ⟨after, tree, m, Gives.pass (fun fuel => ?_) gives, final, ok, elems.trans ?_⟩
                · rw [insertColor_pass holds, same, if_pos red]
                · apply Spine.elems_fill_congr rest
                  exact RbTree.elems_make_congr _ _ _ _ (RbTree.elems_make_congr _ _ _ _ rfl rfl) (RbTree.elems_blacken _)
              · -- one more pass ends the loop below the new parent, which is black
                have black := (Bool.not_eq_true _).mp red
                rw [same] at black
                obtain ⟨near', far', seen, okNear', okFar'⟩ : ∃ near' far', RbTree.make side .red near elm far =
                    .make side'' .red near' elm far' ∧ near'.Ok .red n ∧ far'.Ok .red n := by
                  rcases RbTree.make_cases side side'' .red near elm far with eq | eq
                  · exact ⟨near, far, eq, okNear, okFar⟩
                  · exact ⟨far, near, eq, okFar, okNear⟩
                rw [seen] at holds ⊢
                obtain ⟨middle, elm', near, far, parent', lower, done, turned, okNear, okFar, okLower, elems⟩ :=
                  insertRotate_holds holds okNear' okFar' okSibling (okUncle.of_not_red black)
                obtain ⟨after, tree, m, gives, final, ok, elems'⟩ :=
                  insertColor_ends turned okNear okFar ⟨okLower, fits⟩ (.inr rfl)
                refine ⟨after, tree, m, Gives.pass (fun fuel => ?_) gives, final, ok, elems'.trans elems⟩
                rw [insertColor_pass holds, if_neg red, done]
                rfl

/-! ## The insertion -/

/-- The new element is linked below the last node of the search. -/
theorem link_holds (holds : Holds head inprog .nil path) (fresh : elm ∉ Spine.elems path) (leads : Leads comp path) :
    Holds (link head elm (Spine.parent path) comp) inprog (.node .red .nil elm .nil) path := by
  have nodup : (Spine.elems path).Nodup := (List.nodup_append.mp holds.nodup).2.1
  have away : ∀ other ∈ Spine.elems path, other ≠ elm := fun other member eq => fresh (eq ▸ member)
  have around : Around (head.modify elm fun _ => ⟨none, none, Spine.parent path, .red⟩) none path := by
    refine holds.around.congr rfl ?_
    intro other member
    exact (entry_modify _ _ _ _).trans (if_neg (away other member))
  have nodup' : ((RbTree.node .red .nil elm .nil).elems ++ Spine.elems path).Nodup :=
    List.nodup_cons.mpr ⟨fresh, nodup⟩
  cases path with
  | nil =>
      refine ⟨holds.inprog, ⟨?_, trivial, trivial⟩, rfl, nodup'⟩
      have written := entry_modify head elm elm fun _ => ⟨none, none, none, .red⟩
      exact written.trans (if_pos rfl)
  | cons frame path =>
      rcases frame with ⟨side, color, parent, sibling⟩
      have ne : elm ≠ parent := fun eq => fresh (eq ▸ List.mem_cons_self)
      have same : link head elm (some parent) comp =
          (head.modify elm fun _ => ⟨none, none, some parent, .red⟩).setChild side parent (some elm) := by
        rw [link]
        cases side with
        | left => exact if_pos (leads.mpr rfl)
        | right => exact if_neg fun neg => Side.noConfusion (leads.mp neg)
      rw [Spine.parent, same]
      refine ⟨holds.inprog, ⟨?_, trivial, trivial⟩, around.attach nodup _, nodup'⟩
      rw [Head.setChild, entry_modify, if_neg ne, entry_modify, if_pos rfl]
      rfl

/-- `RB_INSERT` finds an element with the same key, or puts the new one between the smaller and
the larger ones. -/
theorem insert_gives (holds : Holds head inprog tree []) (ok : tree.Ok .red n) (sorted : Sorted ord tree.elems)
    (elm : α) :
    (∃ other ∈ tree.elems, ord.key other = ord.key elm ∧
      Gives (fun fuel => insert ord.cmp fuel head elm) (head, some other)) ∨
    ∃ after tree' m front back, Gives (fun fuel => insert ord.cmp fuel head elm) (after, none) ∧
      Holds after inprog tree' [] ∧ tree'.Ok .red m ∧ tree.elems = front ++ back ∧
      tree'.elems = front ++ elm :: back ∧ (∀ other ∈ front, ord.key other < ord.key elm) ∧
      ∀ other ∈ back, ord.key elm < ord.key other := by
  have root : head.root = tree.root := holds.root
  obtain ⟨spot, gives, ends⟩ := @descend_gives _ _ _ _ _ elm _ _ _ 0 holds sorted trivial
  rw [← root] at gives
  cases ends with
  | found member same => exact .inl ⟨_, member, same, gives.bind (.pure _)⟩
  | @below front comp hole leads lower upper =>
      right
      rw [List.append_nil] at leads gives
      rw [hole, Holds.fill_iff, List.append_nil] at holds
      rw [hole] at ok
      obtain ⟨m, nil, fits⟩ := Spine.fits_of_ok ok
      obtain rfl : m = 0 := nil
      have fresh : elm ∉ Spine.elems front := by
        rw [Spine.mem_elems_iff]
        rintro (member | member)
        · exact lt_irrefl _ (lower elm member)
        · exact lt_irrefl _ (upper elm member)
      have linked : Holds (link head elm (Spine.parent front) comp) inprog (.make .left .red .nil elm .nil) front :=
        link_holds holds fresh leads
      obtain ⟨after, tree', m, colored, final, ok', elems⟩ := insertColor_holds linked rfl rfl fits
      refine ⟨after, tree', m, Spine.before front, Spine.after front, ?_, final, ok', ?_, ?_, lower, upper⟩
      · exact gives.bind (colored.bind (.pure _))
      · rw [hole, Spine.elems_fill, RbTree.elems, List.append_nil]
      · rw [elems, Spine.elems_fill]
        simp [RbTree.make, RbTree.elems]

end Dragonfly.Kern.Rb
