import Dragonfly.Hammer.Btree.Seek

/-!
# The shortcut in front of the linear scans

`hammer_btree_search_node` halves a range of indices until at most four are left.  Three loops
start at the index it returns: the one over a leaf, the one over the separators of an internal
node, and the one of `hammer_btree_get_parent` that looks for the element that refers to a child.
Each of them passes over the elements in front of that index anyway.
-/

namespace Dragonfly.Hammer.Btree

open Dragonfly.Lib

/-! ## The three loops -/

/-- The as-of test of the leaf loop, and the test without an as-of time. -/
def passesOver (asof : Option Nat) (r : Int) (base : Base) : Bool :=
  match asof with
  | some asof => chkts asof base ≠ 0
  | none => 0 < r

/-- The loop of `btree_search` over a leaf, with the value of `r` and the result. -/
def leafLoop (key : Base) (asof : Option Nat) : List LeafElm → Nat → Int → Outcome (Nat × Int × Bool)
  | [], i, r => .done (i, r, false)
  | elm :: elms, i, _ =>
      let r := cmp key elm.base
      .kkassert (elm.base.btype = .record)
        (if r < 0 then .done (i, r, false)
        else if 1 < r then leafLoop key asof elms (i + 1) r
        else if passesOver asof r elm.base then leafLoop key asof elms (i + 1) r
        else .done (i, r, true))

/-- The loop of `btree_search` over the separators of an internal node, with the value of `r` and
`create_check`. -/
def sepLoop (key : Base) : List Base → Nat → Int → Option Nat → Outcome (Nat × Int × Option Nat)
  | [], i, r, check => .done (i, r, check)
  | base :: bases, i, _, check =>
      let r := cmp key base
      if r < 0 then .done (i, r, check)
      else (createCheck key base check).bind fun check => sepLoop key bases (i + 1) r check

/-- Without the value of `r` the loop over a leaf is the one of the search. -/
theorem leafLoop_result (key : Base) (asof : Option Nat) (elms : List LeafElm) (i : Nat) (r : Int) :
    (leafLoop key asof elms i r).bind (fun out => .done (out.1, out.2.2)) = scanElms key asof elms i := by
  induction elms generalizing i r with
  | nil => rfl
  | cons elm elms ih =>
      have same : accepts key asof elm.base = !passesOver asof (cmp key elm.base) elm.base := by
        cases asof with
        | none => simp only [accepts, passesOver, ← decide_not, not_lt]
        | some asof => simp [accepts, passesOver]
      rw [leafLoop, scanElms, same]
      by_cases record : elm.base.btype = .record
      · simp only [record, decide_true, Outcome.kkassert, if_true]
        by_cases below : cmp key elm.base < 0
        · simp only [if_pos below, Outcome.bind]
        · by_cases above : 1 < cmp key elm.base
          · simp only [if_neg below, if_pos above, ih]
          · simp only [if_neg below, if_neg above]
            cases passesOver asof (cmp key elm.base) elm.base with
            | true => exact ih _ _
            | false => rfl
      · simp [Outcome.kkassert, record, Outcome.bind]

/-- Without the value of `r` the loop over the separators is the one of the search. -/
theorem sepLoop_result (key : Base) (bases : List Base) (i : Nat) (r : Int) (check : Option Nat) :
    (sepLoop key bases i r check).bind (fun out => .done (out.1, out.2.2)) = scanSeps key bases i check := by
  induction bases generalizing i r check with
  | nil => rfl
  | cons base bases ih =>
      rw [sepLoop, scanSeps]
      split_ifs with below
      · rfl
      · cases createCheck key base check with
        | done check => exact ih _ _ _
        | _ => rfl

/-- The loop of `hammer_btree_get_parent` over the elements of the parent. -/
def parentLoop (offset : Nat) : List IntElm → Nat → Outcome Nat
  | [], _ => .panic
  | elm :: elms, i => if elm.subtreeOffset = offset then .done i else parentLoop offset elms (i + 1)

/-- Where `hammer_btree_get_parent` starts its loop. -/
def parentStart (child : List Base) (elms : List IntElm) : Nat :=
  match child with
  | [] => 0
  | first :: _ => searchNode first (elms.map (·.base))

/-- The search of `hammer_btree_get_parent` for the element that refers to a child. -/
def parentIndex (child : List Base) (offset : Nat) (elms : List IntElm) : Outcome Nat :=
  parentLoop offset (elms.drop (parentStart child elms)) (parentStart child elms)

variable {key : Base} {bases : List Base}

/-! ## The index of the shortcut -/

theorem narrow_lt {fuel b s : Nat} (range : b < s) : narrow key bases fuel b s < s := by
  induction fuel generalizing b s with
  | zero => exact range
  | succ fuel ih =>
      rw [narrow]
      split_ifs with wide
      · dsimp only
        split
        · exact range
        · split_ifs with small
          · exact (ih (by omega)).trans (by omega)
          · exact ih (by omega)
      · exact range

/-- The shortcut leaves an element to look at. -/
theorem searchNode_lt (key : Base) (filled : bases ≠ []) : searchNode key bases < bases.length :=
  narrow_lt (List.length_pos_iff.mpr filled)

/-- The shortcut stops at the start, or at an element that is itself smaller by more than its
creation time. -/
theorem narrow_stops {fuel b s : Nat}
    (start : b = 0 ∨ ∃ base, bases[b]? = some base ∧ 1 < cmp key base) :
    narrow key bases fuel b s = 0 ∨
      ∃ base, bases[narrow key bases fuel b s]? = some base ∧ 1 < cmp key base := by
  induction fuel generalizing b s with
  | zero => exact start
  | succ fuel ih =>
      rw [narrow]
      split_ifs with wide
      · dsimp only
        split
        · exact start
        · rename_i base found
          split_ifs with small
          · exact ih start
          · exact ih (Or.inr ⟨base, found, not_le.mp small⟩)
      · exact start

theorem searchNode_stops (key : Base) (bases : List Base) :
    searchNode key bases = 0 ∨
      ∃ base, bases[searchNode key bases]? = some base ∧ 1 < cmp key base :=
  narrow_stops (Or.inl rfl)

/-! ## Leaves -/

theorem leafLoop_skip {asof : Option Nat} {front rest : List LeafElm} {i : Nat} {r : Int}
    (record : ∀ elm ∈ front, elm.base.btype = .record) (smaller : ∀ elm ∈ front, 1 < cmp key elm.base) :
    ∃ last, leafLoop key asof (front ++ rest) i r = leafLoop key asof rest (i + front.length) last := by
  induction front generalizing i r with
  | nil => exact ⟨r, rfl⟩
  | cons elm front ih =>
      have here := smaller elm List.mem_cons_self
      obtain ⟨last, eq⟩ := @ih (i + 1) (cmp key elm.base)
        (fun other member => record other (List.mem_cons_of_mem _ member))
        (fun other member => smaller other (List.mem_cons_of_mem _ member))
      refine ⟨last, ?_⟩
      rw [List.cons_append, leafLoop]
      simp only [record elm List.mem_cons_self, decide_true, Outcome.kkassert, if_true]
      rw [if_neg (by omega), if_pos here, eq, List.length_cons, Nat.add_right_comm, Nat.add_assoc]

/-- The value of `r` before a pass over a leaf is not used. -/
theorem leafLoop_cons (key : Base) (asof : Option Nat) (elm : LeafElm) (elms : List LeafElm) (i : Nat)
    (r r' : Int) : leafLoop key asof (elm :: elms) i r = leafLoop key asof (elm :: elms) i r' := by
  simp only [leafLoop]

/-- The shortcut makes no difference to the loop over a leaf. -/
theorem leafLoop_shortcut {elms : List LeafElm} (sorted : elms.Pairwise (·.base.rank < ·.base.rank))
    (record : ∀ elm ∈ elms, elm.base.btype = .record) (key : Base) (asof : Option Nat) (r : Int) :
    leafLoop key asof (elms.drop (searchNode key (elms.map (·.base))))
      (searchNode key (elms.map (·.base))) r = leafLoop key asof elms 0 r := by
  by_cases filled : elms = []
  · subst filled
    rfl
  · have below := searchNode_lt key (List.map_eq_nil_iff.not.mpr filled : elms.map (·.base) ≠ [])
    obtain ⟨_, smaller⟩ := searchNode_spec key (List.pairwise_map.mpr sorted)
    rw [List.length_map] at below
    generalize searchNode key (elms.map (·.base)) = start at *
    obtain ⟨last, eq⟩ := @leafLoop_skip key asof (elms.take start) (elms.drop start) 0 r
      (fun elm member => record elm (List.mem_of_mem_take member))
      (fun elm member => smaller elm.base (by
        rw [← List.map_take]
        exact List.mem_map_of_mem member))
    rw [List.take_append_drop, List.length_take, min_eq_left below.le, Nat.zero_add] at eq
    rw [eq]
    obtain ⟨elm, rest, some⟩ : ∃ elm rest, elms.drop start = elm :: rest :=
      ⟨_, _, List.drop_eq_getElem_cons below⟩
    rw [some]
    exact leafLoop_cons key asof elm rest start r last

/-! ## Internal nodes -/

theorem sepLoop_skip {front rest : List Base} {i : Nat} {r : Int} {check : Option Nat}
    (smaller : ∀ base ∈ front, 1 < cmp key base) :
    ∃ last, sepLoop key (front ++ rest) i r check = sepLoop key rest (i + front.length) last check := by
  induction front generalizing i r with
  | nil => exact ⟨r, rfl⟩
  | cons base front ih =>
      have here := smaller base List.mem_cons_self
      obtain ⟨last, eq⟩ := @ih (i + 1) (cmp key base)
        (fun other member => smaller other (List.mem_cons_of_mem _ member))
      refine ⟨last, ?_⟩
      rw [List.cons_append, sepLoop]
      simp only [if_neg (show ¬cmp key base < 0 by omega)]
      rw [createCheck, if_neg (by omega)]
      simp only [Outcome.bind]
      rw [eq, List.length_cons, Nat.add_right_comm, Nat.add_assoc]

/-- The shortcut makes no difference to the loop over the separators. -/
theorem sepLoop_shortcut {elms : List IntElm} (sorted : (elms.map (·.base)).Pairwise (·.rank < ·.rank))
    (key right : Base) (check : Option Nat) (r : Int) :
    sepLoop key ((elms.map (·.base) ++ [right]).drop (searchNode key (elms.map (·.base))))
      (searchNode key (elms.map (·.base))) r check = sepLoop key (elms.map (·.base) ++ [right]) 0 r check := by
  obtain ⟨bound, smaller⟩ := searchNode_spec key sorted
  generalize searchNode key (elms.map (·.base)) = start at *
  generalize elms.map (·.base) = bases at *
  obtain ⟨last, eq⟩ := @sepLoop_skip key (bases.take start) (bases.drop start ++ [right]) 0 r check smaller
  rw [← List.append_assoc, List.take_append_drop, List.length_take, min_eq_left bound, Nat.zero_add] at eq
  rw [eq, List.drop_append_of_le_length bound]
  cases bases.drop start with
  | nil => rfl
  | cons base rest => rfl

/-! ## The element that refers to a child -/

theorem parentLoop_skip {offset : Nat} {front rest : List IntElm} {i : Nat}
    (other : ∀ elm ∈ front, elm.subtreeOffset ≠ offset) :
    parentLoop offset (front ++ rest) i = parentLoop offset rest (i + front.length) := by
  induction front generalizing i with
  | nil => rfl
  | cons elm front ih =>
      rw [List.cons_append, parentLoop, if_neg (other elm List.mem_cons_self),
        ih (fun elm member => other elm (List.mem_cons_of_mem _ member)), List.length_cons,
        Nat.add_right_comm, Nat.add_assoc]

theorem parentLoop_done {offset : Nat} {elms : List IntElm} (i : Nat)
    (refers : ∃ elm ∈ elms, elm.subtreeOffset = offset) :
    ∃ index, parentLoop offset elms i = .done index := by
  induction elms generalizing i with
  | nil => simp at refers
  | cons elm elms ih =>
      rw [parentLoop]
      by_cases here : elm.subtreeOffset = offset
      · rw [if_pos here]
        exact ⟨i, rfl⟩
      · rw [if_neg here]
        apply ih
        obtain ⟨found, member, eq⟩ := refers
        rcases List.mem_cons.mp member with rfl | member
        · exact absurd eq here
        · exact ⟨found, member, eq⟩

/-- Every element of the child lies inside the bounds of each parent element that refers to it; the
last one ends at the right boundary. -/
def Inside (child : List Base) (offset : Nat) (elms : List IntElm) (right : Base) : Prop :=
  ∀ index elm, elms[index]? = some elm → elm.subtreeOffset = offset → ∀ base ∈ child,
    elm.base.rank ≤ base.rank ∧
      base.rank < (((elms.map (·.base))[index + 1]?).getD right).rank

/-- No element in front of the start refers to the child. -/
theorem parentStart_le {child : List Base} {offset : Nat} {elms : List IntElm} {right : Base}
    (sorted : (elms.map (·.base)).Pairwise (·.rank < ·.rank)) (inside : Inside child offset elms right) :
    ∀ elm ∈ elms.take (parentStart child elms), elm.subtreeOffset ≠ offset := by
  intro elm member refers
  cases child with
  | nil => simp [parentStart] at member
  | cons first child =>
      change elm ∈ elms.take (searchNode first (elms.map (·.base))) at member
      rcases searchNode_stops first (elms.map (·.base)) with zero | ⟨base, found, large⟩
      · rw [zero] at member
        simp at member
      · obtain ⟨index, below, here⟩ := List.mem_take_iff_getElem.mp member
        have before : index < searchNode first (elms.map (·.base)) := by omega
        have place : elms[index]? = some elm := by
          rw [← here]
          exact List.getElem?_eq_getElem (by omega)
        have upper := (inside index elm place refers first List.mem_cons_self).2
        -- the next separator is at most the one the shortcut stopped at, which is below the child
        have smaller : base.rank < first.rank := cmp_pos_iff.mp (by omega)
        have length := (List.getElem?_eq_some_iff.mp found).1
        have next : index + 1 < (elms.map (·.base)).length := by omega
        rw [List.getElem?_eq_getElem next, Option.getD_some] at upper
        have most : (elms.map (·.base))[index + 1].rank ≤ base.rank := by
          rw [← (List.getElem?_eq_some_iff.mp found).2]
          rcases Nat.eq_or_lt_of_le (Nat.succ_le_of_lt before) with same | further
          · exact le_of_eq (by simp only [← same])
          · exact (List.pairwise_iff_getElem.mp sorted _ _ next length further).le
        exact lt_asymm upper (most.trans_lt smaller)

/-- The shortcut makes no difference to the search for the element that refers to a child. -/
theorem parentIndex_eq {child : List Base} {offset : Nat} {elms : List IntElm} {right : Base}
    (sorted : (elms.map (·.base)).Pairwise (·.rank < ·.rank)) (inside : Inside child offset elms right) :
    parentIndex child offset elms = parentLoop offset elms 0 := by
  have bound : parentStart child elms ≤ elms.length := by
    cases child with
    | nil => exact Nat.zero_le _
    | cons first child =>
        have bound := (searchNode_spec first sorted).1
        rwa [List.length_map] at bound
  have skip := @parentLoop_skip offset (elms.take (parentStart child elms))
    (elms.drop (parentStart child elms)) 0 (parentStart_le sorted inside)
  rw [List.take_append_drop, List.length_take, min_eq_left bound, Nat.zero_add] at skip
  exact skip.symm

/-- For every node with increasing elements and every key the three loops end as they do from
element zero, and the parent of a child that it refers to is found. -/
theorem shortcut_exact {leaf : List LeafElm} {elms : List IntElm} {child : List Base} {offset : Nat}
    {right : Base} (leafSorted : leaf.Pairwise (·.base.rank < ·.base.rank))
    (record : ∀ elm ∈ leaf, elm.base.btype = .record)
    (sorted : (elms.map (·.base)).Pairwise (·.rank < ·.rank)) (inside : Inside child offset elms right)
    (refers : ∃ elm ∈ elms, elm.subtreeOffset = offset)
    (key : Base) (asof check : Option Nat) (r : Int) :
    leafLoop key asof (leaf.drop (searchNode key (leaf.map (·.base))))
        (searchNode key (leaf.map (·.base))) r = leafLoop key asof leaf 0 r ∧
      sepLoop key ((elms.map (·.base) ++ [right]).drop (searchNode key (elms.map (·.base))))
        (searchNode key (elms.map (·.base))) r check =
          sepLoop key (elms.map (·.base) ++ [right]) 0 r check ∧
      parentIndex child offset elms = parentLoop offset elms 0 ∧
      ∃ index, parentIndex child offset elms = .done index := by
  refine ⟨leafLoop_shortcut leafSorted record key asof r, sepLoop_shortcut sorted key right check r,
    parentIndex_eq sorted inside, ?_⟩
  rw [parentIndex_eq sorted inside]
  exact parentLoop_done 0 refers

def shortcutBase (key : Int) (btype : Btype) : Base :=
  { objId := 1, key, createTid := 1, deleteTid := 0, recType := 1, objType := 0, btype, localization := 1 }

def shortcutLeaf (key : Int) : LeafElm :=
  { base := shortcutBase key .record, createTs := 0, deleteTs := 0, dataOffset := 0, dataLen := 0,
    dataCrc := 0 }

def shortcutElm (key : Int) (offset : Nat) : IntElm :=
  { base := shortcutBase key .leaf, mirrorTid := 0, subtreeOffset := offset }

/-- A node of six leaves. -/
def shortcutParent : List IntElm :=
  [shortcutElm 10 11, shortcutElm 20 12, shortcutElm 30 13, shortcutElm 40 14, shortcutElm 50 15,
    shortcutElm 60 16]

theorem shortcutBase_lt {first second : Int} (below : first < second) (btype btype' : Btype) :
    (shortcutBase first btype).rank < (shortcutBase second btype').rank := by
  apply cmp_lt_zero_iff.mp
  simp [cmp, shortcutBase, below]

/-- The search for the last of six leaves starts at the element with index three. -/
theorem shortcut_exact_six :
    parentStart [shortcutBase 60 .record, shortcutBase 61 .record] shortcutParent = 3 ∧
      parentIndex [shortcutBase 60 .record, shortcutBase 61 .record] 16 shortcutParent = .done 5 := by
  have exact := @shortcut_exact [shortcutLeaf 60, shortcutLeaf 61] shortcutParent
    [shortcutBase 60 .record, shortcutBase 61 .record] 16 (shortcutBase 70 .boundary)
    (by
      apply List.pairwise_pair.mpr
      exact shortcutBase_lt (by decide) _ _)
    (by decide)
    (by simp [shortcutParent, shortcutElm, shortcutBase_lt])
    (by
      intro index elm found refers base member
      rcases index with _ | _ | _ | _ | _ | _ | index
      all_goals simp [shortcutParent, shortcutElm] at found
      all_goals subst found
      all_goals simp at refers
      rcases (by simpa using member : base = shortcutBase 60 .record ∨ base = shortcutBase 61 .record) with rfl | rfl
      · exact ⟨le_of_eq rfl, shortcutBase_lt (by decide) _ _⟩
      · exact ⟨(shortcutBase_lt (by decide) _ _).le, shortcutBase_lt (by decide) _ _⟩)
    (by decide) (shortcutBase 60 .record) none none 0
  constructor
  · decide
  · exact exact.2.2.1.trans rfl

end Dragonfly.Hammer.Btree
