import Mathlib
import Dragonfly.Hammer.Btree.Walk

/-!
# Where a search ends

The search goes down along the separators that are not above the key.  It ends at the
element it accepts, or at a place with everything in front of it at most the key and
everything ahead above the key.  The only assertion that can fail is the one about
separators with creation time one.
-/

namespace Dragonfly.Hammer.Btree

open Dragonfly.Lib

/-! ## The shortcut -/

section Shortcut

variable {key : Base} {bases : List Base}

/-- In a sorted list, elements in front of one that is smaller by more than its
creation time are so as well. -/
theorem one_lt_cmp_of_sorted (sorted : bases.Pairwise (·.rank < ·.rank)) {index : Nat} {base : Base}
    (found : bases[index]? = some base) (large : 1 < cmp key base) :
    ∀ other ∈ bases.take index, 1 < cmp key other := by
  intro other member
  obtain ⟨below, here⟩ := List.getElem?_eq_some_iff.mp found
  have order := sorted
  rw [← List.take_append_drop index bases, List.drop_eq_getElem_cons below, here] at order
  have lt := (List.pairwise_append.mp order).2.2 other member base List.mem_cons_self
  rw [one_lt_cmp_iff] at large ⊢
  rcases rank_lt_iff.mp lt with lead | ⟨lead, _⟩
  · exact lead.trans large
  · exact lead ▸ large

theorem narrow_spec (sorted : bases.Pairwise (·.rank < ·.rank)) {fuel b s : Nat}
    (range : b ≤ s) (length : s ≤ bases.length) (smaller : ∀ base ∈ bases.take b, 1 < cmp key base) :
    narrow key bases fuel b s ≤ bases.length ∧
      ∀ base ∈ bases.take (narrow key bases fuel b s), 1 < cmp key base := by
  induction fuel generalizing b s with
  | zero => exact ⟨range.trans length, smaller⟩
  | succ fuel ih =>
      rw [narrow]
      split_ifs with wide
      · have inside : b + (s - b) / 2 < bases.length := by omega
        simp only [List.getElem?_eq_getElem inside]
        split_ifs with small
        · exact ih (by omega) (by omega) smaller
        · refine ih (by omega) length ?_
          exact one_lt_cmp_of_sorted sorted (List.getElem?_eq_getElem inside) (by omega)
      · exact ⟨range.trans length, smaller⟩

/-- `hammer_btree_search_node` skips only elements that are smaller by more than their
creation time. -/
theorem searchNode_spec (key : Base) (sorted : bases.Pairwise (·.rank < ·.rank)) :
    searchNode key bases ≤ bases.length ∧
      ∀ base ∈ bases.take (searchNode key bases), 1 < cmp key base :=
  narrow_spec sorted (Nat.zero_le _) le_rfl (by simp)

end Shortcut

/-! ## Separators -/

/-- The assertion about the creation time of a separator holds. -/
def Quiet (key base : Base) : Prop := cmp key base = 1 → base.createTid ≠ 1

instance (key base : Base) : Decidable (Quiet key base) :=
  inferInstanceAs (Decidable (cmp key base = 1 → base.createTid ≠ 1))

theorem createCheck_of_quiet {key base : Base} (quiet : Quiet key base) (check : Option Nat) :
    createCheck key base check =
      .done (if cmp key base = 1 then some (base.createTid - 1) else check) := by
  unfold createCheck
  split_ifs with one
  · simp [Outcome.kkassert, quiet one]
  · rfl

theorem createCheck_of_not_quiet {key base : Base} (loud : ¬ Quiet key base) (check : Option Nat) :
    createCheck key base check = .panic := by
  unfold Quiet at loud
  push Not at loud
  simp [createCheck, Outcome.kkassert, loud]

/-- What the separators that have been met leave in `create_check`. -/
def noted (key : Base) (check : Option Nat) (bases : List Base) : Option Nat :=
  bases.foldl (fun check base => if cmp key base = 1 then some (base.createTid - 1) else check) check

section Scan

variable {key : Base} {check : Option Nat}

theorem scanSeps_done {front rest : List Base} {i : Nat} (reached : ∀ base ∈ front, 0 ≤ cmp key base)
    (quiet : ∀ base ∈ front, Quiet key base) (stop : ∀ base ∈ rest.head?, cmp key base < 0) :
    scanSeps key (front ++ rest) i check = .done (i + front.length, noted key check front) := by
  induction front generalizing i check with
  | nil =>
      cases rest with
      | nil => rfl
      | cons base rest =>
          have above : cmp key base < 0 := stop base rfl
          simp [scanSeps, above, noted]
  | cons base front ih =>
      have here := reached base List.mem_cons_self
      rw [List.cons_append, scanSeps, if_neg (by omega),
        createCheck_of_quiet (quiet base List.mem_cons_self)]
      simp only [Outcome.bind]
      rw [ih (fun other member => reached other (List.mem_cons_of_mem _ member))
        (fun other member => quiet other (List.mem_cons_of_mem _ member))]
      simp only [List.length_cons, noted, List.foldl_cons, Outcome.done.injEq, Prod.mk.injEq,
        and_true]
      omega

theorem scanSeps_panic {front rest : List Base} {i : Nat} (reached : ∀ base ∈ front, 0 ≤ cmp key base)
    (loud : ∃ base ∈ front, ¬ Quiet key base) :
    scanSeps key (front ++ rest) i check = .panic := by
  induction front generalizing i check with
  | nil => simp at loud
  | cons base front ih =>
      have here := reached base List.mem_cons_self
      rw [List.cons_append, scanSeps, if_neg (by omega)]
      by_cases quiet : Quiet key base
      · rw [createCheck_of_quiet quiet]
        obtain ⟨other, member, noisy⟩ := loud
        have later : other ∈ front := by
          rcases List.mem_cons.mp member with rfl | member
          · contradiction
          · exact member
        exact ih (fun base member => reached base (List.mem_cons_of_mem _ member))
          ⟨other, later, noisy⟩
      · rw [createCheck_of_not_quiet quiet]
        rfl

/-- Separators that are smaller by more than their creation time may be skipped. -/
theorem scanSeps_skip {front rest : List Base} {i : Nat} (smaller : ∀ base ∈ front, 1 < cmp key base) :
    scanSeps key (front ++ rest) i check = scanSeps key rest (i + front.length) check := by
  induction front generalizing i with
  | nil => rfl
  | cons base front ih =>
      have here := smaller base List.mem_cons_self
      rw [List.cons_append, scanSeps, if_neg (by omega), createCheck, if_neg (by omega)]
      simp only [Outcome.bind]
      rw [ih fun other member => smaller other (List.mem_cons_of_mem _ member)]
      congr 1
      simp only [List.length_cons]
      omega

end Scan

/-- The separators of an internal node, with the right boundary. -/
def seps (elms : List Link) (right : Base) : List Base := elms.map (·.1.base) ++ [right]

theorem seps_length (elms : List Link) (right : Base) :
    (seps elms right).length = elms.length + 1 := by
  simp [seps]

theorem seps_getElem? (right : Base) {elms : List Link} {index : Nat} (le : index ≤ elms.length) :
    (seps elms right)[index]? = some (sep elms right index) := by
  rcases le.lt_or_eq with below | rfl
  · rw [seps, List.getElem?_append_left (by simpa using below), List.getElem?_map, sep,
      List.getElem?_eq_getElem below]
    rfl
  · rw [seps, sep_length]
    simp

theorem mem_take_seps_iff {elms : List Link} {right base : Base} {count : Nat}
    (le : count ≤ elms.length + 1) :
    base ∈ (seps elms right).take count ↔ ∃ index < count, sep elms right index = base := by
  rw [List.mem_take_iff_getElem]
  constructor
  · rintro ⟨index, bound, rfl⟩
    have length := seps_length elms right
    refine ⟨index, by omega, ?_⟩
    have at' := seps_getElem? right (show index ≤ elms.length by omega)
    rw [List.getElem?_eq_getElem (by omega)] at at'
    exact (Option.some.inj at').symm
  · rintro ⟨index, below, rfl⟩
    have length := seps_length elms right
    refine ⟨index, by omega, ?_⟩
    have at' := seps_getElem? right (show index ≤ elms.length by omega)
    rw [List.getElem?_eq_getElem (by omega)] at at'
    exact Option.some.inj at'

namespace Node.InternalOk

variable {lo hi : Rank} {parent : Nat} {head : Head} {elms : List Link} {right key : Base}

theorem sep_lt (ok : InternalOk lo hi parent head elms right) {index other : Nat}
    (lt : index < other) (le : other ≤ elms.length) :
    (sep elms right index).rank < (sep elms right other).rank := by
  have below : index < elms.length := by omega
  obtain ⟨increasing, _⟩ := ok.child (List.getElem?_eq_getElem below)
  exact increasing.trans_le (ok.sep_mono lt)

theorem seps_sorted (ok : InternalOk lo hi parent head elms right) :
    (seps elms right).Pairwise (·.rank < ·.rank) := by
  rw [List.pairwise_iff_getElem]
  intro index other below otherBelow lt
  rw [seps_length] at below otherBelow
  have first := seps_getElem? right (show index ≤ elms.length by omega)
  have second := seps_getElem? right (show other ≤ elms.length by omega)
  rw [List.getElem?_eq_getElem (by rw [seps_length]; omega)] at first second
  rw [Option.some.inj first, Option.some.inj second]
  exact ok.sep_lt lt (by omega)

/-- The key divides the separators. -/
theorem cut (ok : InternalOk lo hi parent head elms right) (key : Base) :
    ∃ count ≤ elms.length + 1, (∀ index < count, (sep elms right index).rank ≤ key.rank) ∧
      ∀ index, count ≤ index → index ≤ elms.length → key.rank < (sep elms right index).rank := by
  by_cases above : key.rank < (sep elms right elms.length).rank
  · have exists' : ∃ count, key.rank < (sep elms right count).rank := ⟨_, above⟩
    classical
    refine ⟨Nat.find exists', (Nat.find_min' exists' above).trans (Nat.le_succ _), ?_, ?_⟩
    · intro index below
      exact not_lt.mp (Nat.find_min exists' below)
    · intro index le _
      exact (Nat.find_spec exists').trans_le (ok.sep_mono le)
  · refine ⟨elms.length + 1, le_rfl, ?_, ?_⟩
    · intro index below
      exact (ok.sep_mono (by omega)).trans (not_lt.mp above)
    · intro index le bound
      omega

section Cut

variable {count : Nat}

/-- The shortcut makes no difference to the scan. -/
theorem scanSeps_eq (ok : InternalOk lo hi parent head elms right) (key : Base)
    (check : Option Nat) :
    scanSeps key ((elms.map (·.1.base) ++ [right]).drop (searchNode key (elms.map (·.1.base))))
      (searchNode key (elms.map (·.1.base))) check = scanSeps key (seps elms right) 0 check := by
  have sorted : (elms.map (·.1.base)).Pairwise (·.rank < ·.rank) :=
    (List.pairwise_append.mp ok.seps_sorted).1
  obtain ⟨bound, smaller⟩ := searchNode_spec key sorted
  set i := searchNode key (elms.map (·.1.base))
  have front : (seps elms right).take i = (elms.map (·.1.base)).take i := by
    rw [seps, List.take_append_of_le_length bound]
  conv_rhs => rw [← List.take_append_drop i (seps elms right)]
  rw [scanSeps_skip (by rw [front]; exact smaller), front, List.length_take, min_eq_left bound,
    Nat.zero_add]
  rfl

theorem scanSeps_done (ok : InternalOk lo hi parent head elms right) (key : Base)
    (check : Option Nat) (le : count ≤ elms.length + 1)
    (reached : ∀ index < count, (sep elms right index).rank ≤ key.rank)
    (stop : ∀ index, count ≤ index → index ≤ elms.length → key.rank < (sep elms right index).rank)
    (quiet : ∀ index < count, Quiet key (sep elms right index)) :
    scanSeps key ((elms.map (·.1.base) ++ [right]).drop (searchNode key (elms.map (·.1.base))))
      (searchNode key (elms.map (·.1.base))) check =
        .done (count, noted key check ((seps elms right).take count)) := by
  rw [ok.scanSeps_eq]
  conv_lhs => rw [← List.take_append_drop count (seps elms right)]
  rw [Btree.scanSeps_done]
  · rw [List.length_take, seps_length, min_eq_left le, Nat.zero_add]
  · intro base member
    obtain ⟨index, below, rfl⟩ := (mem_take_seps_iff le).mp member
    exact cmp_nonneg_iff.mpr (reached index below)
  · intro base member
    obtain ⟨index, below, rfl⟩ := (mem_take_seps_iff le).mp member
    exact quiet index below
  · intro base member
    rw [List.head?_drop] at member
    have bound : count ≤ elms.length := by
      by_contra past
      rw [List.getElem?_eq_none (by rw [seps_length]; omega)] at member
      contradiction
    rw [seps_getElem? right bound] at member
    obtain rfl := Option.some.inj member
    exact cmp_lt_zero_iff.mpr (stop count le_rfl bound)

theorem scanSeps_panic (ok : InternalOk lo hi parent head elms right) (key : Base)
    (check : Option Nat) (le : count ≤ elms.length + 1)
    (reached : ∀ index < count, (sep elms right index).rank ≤ key.rank)
    (loud : ∃ index < count, ¬ Quiet key (sep elms right index)) :
    scanSeps key ((elms.map (·.1.base) ++ [right]).drop (searchNode key (elms.map (·.1.base))))
      (searchNode key (elms.map (·.1.base))) check = .panic := by
  rw [ok.scanSeps_eq]
  conv_lhs => rw [← List.take_append_drop count (seps elms right)]
  apply Btree.scanSeps_panic
  · intro base member
    obtain ⟨index, below, rfl⟩ := (mem_take_seps_iff le).mp member
    exact cmp_nonneg_iff.mpr (reached index below)
  · obtain ⟨index, below, noisy⟩ := loud
    exact ⟨_, (mem_take_seps_iff le).mpr ⟨index, below, rfl⟩, noisy⟩

end Cut

end Node.InternalOk

/-! ## Leaves -/

/-- The end of the loop over a leaf. -/
structure Ended (key : Base) (asof : Option Nat) (elms : List LeafElm) (index : Nat)
    (found : Bool) : Prop where
  index_le : index ≤ elms.length
  passed : ∀ elm ∈ elms.take index, elm.base.rank ≤ key.rank ∧
    (cmp key elm.base ≤ 1 → accepts key asof elm.base = false)
  accepted : found = true → ∃ elm, elms[index]? = some elm ∧ elm.base.rank ≤ key.rank ∧
    cmp key elm.base ≤ 1 ∧ accepts key asof elm.base = true
  stopped : found = false → ∀ elm ∈ elms.drop index, key.rank < elm.base.rank

section Leaf

variable {key : Base} {asof : Option Nat} {elms : List LeafElm}

theorem scanElms_pass {elm : LeafElm} {i : Nat} (btype : elm.base.btype = .record)
    (reached : 0 ≤ cmp key elm.base) (refused : cmp key elm.base ≤ 1 → accepts key asof elm.base = false) :
    scanElms key asof (elm :: elms) i = scanElms key asof elms (i + 1) := by
  rw [scanElms]
  simp only [btype, decide_true, Outcome.kkassert, if_true, if_neg (not_lt.mpr reached)]
  split_ifs with large accepted
  · rfl
  · rw [refused (by omega)] at accepted
    contradiction
  · rfl

theorem scanElms_accept {elm : LeafElm} {i : Nat} (btype : elm.base.btype = .record)
    (reached : 0 ≤ cmp key elm.base) (close : cmp key elm.base ≤ 1)
    (accepted : accepts key asof elm.base = true) :
    scanElms key asof (elm :: elms) i = .done (i, true) := by
  rw [scanElms]
  simp only [btype, decide_true, Outcome.kkassert, if_true, if_neg (not_lt.mpr reached),
    if_neg (not_lt.mpr close), accepted]

/-- The loop comes to an end from any start. -/
theorem scanElms_done (key : Base) (asof : Option Nat)
    (sorted : elms.Pairwise (·.base.rank < ·.base.rank))
    (btype : ∀ elm ∈ elms, elm.base.btype = .record) (i : Nat) :
    ∃ index found, scanElms key asof elms i = .done (i + index, found) ∧
      Ended key asof elms index found := by
  induction elms generalizing i with
  | nil => exact ⟨0, false, rfl, le_rfl, by simp, by simp, by simp⟩
  | cons elm elms ih =>
      obtain ⟨least, sortedRest⟩ := List.pairwise_cons.mp sorted
      have record := btype elm List.mem_cons_self
      by_cases above : cmp key elm.base < 0
      · refine ⟨0, false, by simp [scanElms, record, Outcome.kkassert, above], Nat.zero_le _, by simp,
          by simp, fun _ other member => ?_⟩
        rw [cmp_lt_zero_iff] at above
        rcases List.mem_cons.mp member with rfl | member
        · exact above
        · exact above.trans (least other member)
      · have reached : 0 ≤ cmp key elm.base := not_lt.mp above
        by_cases accepted : cmp key elm.base ≤ 1 ∧ accepts key asof elm.base = true
        · refine ⟨0, true, scanElms_accept record reached accepted.1 accepted.2, Nat.zero_le _,
            by simp, fun _ => ⟨elm, rfl, cmp_nonneg_iff.mp reached, accepted⟩, by simp⟩
        · obtain ⟨index, found, done, ended⟩ := ih sortedRest
            (fun other member => btype other (List.mem_cons_of_mem _ member)) (i + 1)
          have refused : cmp key elm.base ≤ 1 → accepts key asof elm.base = false :=
            fun close => eq_false_of_ne_true fun holds => accepted ⟨close, holds⟩
          refine ⟨index + 1, found, ?_, Nat.succ_le_succ ended.index_le, ?_, ended.accepted,
            ended.stopped⟩
          · rw [scanElms_pass record reached refused, done]
            congr 2
            omega
          · rw [List.take_succ_cons]
            exact List.forall_mem_cons.mpr ⟨⟨cmp_nonneg_iff.mp reached, refused⟩, ended.passed⟩

/-- The shortcut makes no difference to the loop. -/
theorem scanElms_leaf {lo hi : Rank} {parent : Nat} {head : Head}
    (ok : Node.LeafOk lo hi parent head elms) (key : Base) (asof : Option Nat) :
    ∃ index found,
      scanElms key asof (elms.drop (searchNode key (elms.map (·.base))))
        (searchNode key (elms.map (·.base))) = .done (index, found) ∧
      Ended key asof elms index found := by
  obtain ⟨bound, smaller⟩ := searchNode_spec key (List.pairwise_map.mpr ok.sorted)
  rw [List.length_map] at bound
  obtain ⟨index, found, done, ended⟩ := scanElms_done key asof
    (ok.sorted.sublist (List.drop_sublist _ _))
    (fun elm member => ok.btype elm (List.mem_of_mem_drop member))
    (searchNode key (elms.map (·.base)))
  refine ⟨_, found, done, ?_⟩
  generalize searchNode key (elms.map (·.base)) = i at *
  constructor
  · have := ended.index_le
    rw [List.length_drop] at this
    omega
  · intro elm member
    rw [List.take_add] at member
    rcases List.mem_append.mp member with member | member
    · have large := smaller elm.base (by
        rw [← List.map_take]
        exact List.mem_map_of_mem member)
      refine ⟨cmp_nonneg_iff.mp (by omega), fun close => ?_⟩
      omega
    · exact ended.passed elm member
  · intro yes
    obtain ⟨elm, at', rest⟩ := ended.accepted yes
    rw [List.getElem?_drop] at at'
    exact ⟨elm, at', rest⟩
  · intro no
    rw [← List.drop_drop]
    exact ended.stopped no

end Leaf

/-! ## The way down -/

/-- The search for the key in the node compares it with a separator that is not
above it. -/
inductive Meets (key : Base) : Node → Base → Prop
  | here {head : Head} {elms : List Link} {right : Base} (index : Nat) (le : index ≤ elms.length)
      (reached : (sep elms right index).rank ≤ key.rank) :
      Meets key (.internal head elms right) (sep elms right index)
  | down {head : Head} {elms : List Link} {right base : Base} (index : Nat) {elm : IntElm}
      {child : Node} (found : elms[index]? = some (elm, child))
      (reached : (sep elms right index).rank ≤ key.rank)
      (stop : key.rank < (sep elms right (index + 1)).rank) (meets : Meets key child base) :
      Meets key (.internal head elms right) base

/-- Where a search ends: in a leaf, or in the gap on the left or on the right of the
separators of an internal node. -/
inductive Lands (root : Node) (key : Base) (asof : Option Nat) : Position → Bool → Prop
  | leaf {head : Head} {elms : List LeafElm} {index : Nat} {above : List Frame} {found : Bool}
      (sits : Sits root (.leaf head elms) above) (lower : (leftBound above).rank ≤ key.rank)
      (upper : key.rank < (rightBound above).rank) (ended : Ended key asof elms index found) :
      Lands root key asof ⟨.leaf head elms, index, above⟩ found
  | left {head : Head} {elms : List Link} {right : Base} {above : List Frame}
      (sits : Sits root (.internal head elms right) above)
      (lower : (leftBound above).rank ≤ key.rank) (upper : key.rank < (rightBound above).rank)
      (gap : key.rank < (sep elms right 0).rank) :
      Lands root key asof ⟨.internal head elms right, 0, above⟩ false
  | right {head : Head} {elms : List Link} {right : Base} {above : List Frame}
      (sits : Sits root (.internal head elms right) above)
      (lower : (leftBound above).rank ≤ key.rank) (upper : key.rank < (rightBound above).rank)
      (gap : right.rank ≤ key.rank) :
      Lands root key asof ⟨.internal head elms right, elms.length, above⟩ false

theorem noted_append (key : Base) (check : Option Nat) (front back : List Base) :
    noted key check (front ++ back) = noted key (noted key check front) back :=
  List.foldl_append

/-- A separator that is met lies between the bounds of the node. -/
theorem Meets.within {key base : Base} {node : Node} {lo hi : Rank} {parent : Nat}
    (meets : Meets key node base) (ok : node.Ok lo hi parent) :
    lo ≤ base.rank ∧ base.rank ≤ hi := by
  induction meets generalizing lo hi parent with
  | here index _ _ =>
      rw [Node.ok_internal_iff] at ok
      exact ⟨ok.lower_sep index, ok.sep_upper index⟩
  | down index found _ _ _ ih =>
      rw [Node.ok_internal_iff] at ok
      obtain ⟨above, below⟩ := ih (ok.child found).2.2
      exact ⟨(ok.lower_sep index).trans above, below.trans (ok.sep_upper (index + 1))⟩

theorem Meets.rank_le {key base : Base} {node : Node} (meets : Meets key node base) :
    base.rank ≤ key.rank := by
  induction meets with
  | here _ _ reached => exact reached
  | down _ _ _ _ _ ih => exact ih

/-- The cursor has met separators. -/
def Scan.noting (scan : Scan) (bases : List Base) : Scan :=
  { scan with createCheck := noted scan.keyBeg scan.createCheck bases }

section Descend

variable {root : Node} {scan : Scan}

/-- The child that the search goes down to. -/
theorem Node.InternalOk.meets_iff {lo hi : Rank} {parent : Nat} {head : Head} {elms : List Link}
    {right key base : Base} {index : Nat} {elm : IntElm} {child : Node}
    (ok : InternalOk lo hi parent head elms right) (found : elms[index]? = some (elm, child))
    (reached : (sep elms right index).rank ≤ key.rank)
    (stop : key.rank < (sep elms right (index + 1)).rank) :
    Meets key (.internal head elms right) base ↔
      (∃ other ≤ index, sep elms right other = base) ∨ Meets key child base := by
  constructor
  · intro meets
    cases meets with
    | here other le below =>
        refine .inl ⟨other, ?_, rfl⟩
        by_contra past
        exact absurd (stop.trans_le (ok.sep_mono (by omega))) below.not_gt
    | down other otherFound below above meets =>
        have same : other = index := by
          rcases Nat.lt_trichotomy other index with lt | same | gt
          · exact absurd (above.trans_le (ok.sep_mono lt)) reached.not_gt
          · exact same
          · exact absurd (stop.trans_le (ok.sep_mono gt)) below.not_gt
        rw [same, found] at otherFound
        obtain ⟨rfl, rfl⟩ := Prod.mk.inj (Option.some.inj otherFound)
        exact .inr meets
  · rintro (⟨other, le, rfl⟩ | meets)
    · obtain ⟨below, _⟩ := List.getElem?_eq_some_iff.mp found
      exact .here other (by omega) ((ok.sep_mono le).trans reached)
    · exact .down index found reached stop meets

/-- The three ways a key can lie to the separators of an internal node. -/
theorem Node.InternalOk.key_cases {lo hi : Rank} {parent : Nat} {head : Head} {elms : List Link}
    {right : Base} (ok : InternalOk lo hi parent head elms right) (key : Base) :
    key.rank < (sep elms right 0).rank ∨ right.rank ≤ key.rank ∨
      ∃ index elm child, elms[index]? = some (elm, child) ∧
        (sep elms right index).rank ≤ key.rank ∧ key.rank < (sep elms right (index + 1)).rank := by
  obtain ⟨count, le, reached, stop⟩ := ok.cut key
  rcases Nat.eq_zero_or_pos count with rfl | positive
  · exact .inl (stop 0 le_rfl (Nat.zero_le _))
  · rcases Nat.lt_or_ge elms.length count with past | bound
    · have last := reached elms.length past
      rw [sep_length] at last
      exact .inr (.inl last)
    · have below : count - 1 < elms.length := by omega
      refine .inr (.inr ⟨count - 1, elms[count - 1].1, elms[count - 1].2,
        List.getElem?_eq_getElem below, reached _ (by omega), ?_⟩)
      rw [Nat.sub_add_cancel positive]
      exact stop count le_rfl bound

/-- The separators in front of an index are those that the search meets there. -/
theorem Node.InternalOk.take_seps {lo hi : Rank} {parent : Nat} {head : Head} {elms : List Link}
    {right : Base} (ok : InternalOk lo hi parent head elms right) (count : Nat) :
    ((seps elms right).take count).Pairwise (·.rank ≤ ·.rank) :=
  (ok.seps_sorted.sublist (List.take_sublist _ _)).imp fun lt => lt.le

section Node

variable {lo hi : Rank} {parent fuel i : Nat} {head : Head} {elms : List Link} {right : Base}
variable {above : List Frame}

theorem descend_left (ok : Node.InternalOk lo hi parent head elms right)
    (gap : scan.keyBeg.rank < (sep elms right 0).rank) :
    descend (fuel + 1) (scan.goto ⟨.internal head elms right, i, above⟩) =
      .done (scan.goto ⟨.internal head elms right, 0, above⟩, some .enoent) := by
  have scanned := ok.scanSeps_done scan.keyBeg scan.createCheck (Nat.zero_le _) (by simp) (fun index _ _ => gap.trans_le (ok.sep_mono (Nat.zero_le index)))
    (by simp)
  rw [descend]
  simp only [Scan.goto, scanned, Outcome.bind, if_true]
  rfl

theorem descend_right (ok : Node.InternalOk lo hi parent head elms right)
    (gap : right.rank ≤ scan.keyBeg.rank)
    (quiet : ∀ base, Meets scan.keyBeg (.internal head elms right) base → Quiet scan.keyBeg base) :
    descend (fuel + 1) (scan.goto ⟨.internal head elms right, i, above⟩) =
      .done ((scan.noting (seps elms right)).goto ⟨.internal head elms right, elms.length, above⟩,
        some .enoent) := by
  have reached : ∀ index < elms.length + 1, (sep elms right index).rank ≤ scan.keyBeg.rank := by
    intro index below
    have le := ok.sep_mono (show index ≤ elms.length by omega)
    rw [sep_length] at le
    exact le.trans gap
  have scanned := ok.scanSeps_done scan.keyBeg scan.createCheck le_rfl reached
    (fun index _ _ => by omega)
    (fun index below => quiet _ (.here index (by omega) (reached index below)))
  rw [List.take_of_length_le (by rw [seps_length])] at scanned
  rw [descend]
  simp only [Scan.goto, Scan.noting, scanned, Outcome.bind, if_neg (Nat.add_one_ne_zero _), if_true, Scan.setIndex, Nat.add_sub_cancel]

theorem descend_down {index : Nat} {elm : IntElm} {child : Node} (whole : root.Whole)
    (sits : Sits root (.internal head elms right) above)
    (found : elms[index]? = some (elm, child))
    (reached : (sep elms right index).rank ≤ scan.keyBeg.rank)
    (stop : scan.keyBeg.rank < (sep elms right (index + 1)).rank)
    (quiet : ∀ other ≤ index, Quiet scan.keyBeg (sep elms right other)) :
    descend (fuel + 1) (scan.goto ⟨.internal head elms right, i, above⟩) =
      descend fuel ((scan.noting ((seps elms right).take (index + 1))).goto
        ⟨child, 0, ⟨head, elms, right, index⟩ :: above⟩) := by
  obtain ⟨parent, ok⟩ := sits.ok whole
  rw [Node.ok_internal_iff] at ok
  obtain ⟨below, _⟩ := List.getElem?_eq_some_iff.mp found
  have scanned := ok.scanSeps_done scan.keyBeg scan.createCheck (show index + 1 ≤ elms.length + 1 by omega)
    (fun other lt => (ok.sep_mono (by omega)).trans reached)
    (fun other le _ => stop.trans_le (ok.sep_mono le))
    (fun other lt => quiet other (by omega))
  have down := Position.down_eq whole sits found
  rw [descend]
  simp only [Scan.goto, Scan.noting, scanned, Outcome.bind, if_neg (Nat.add_one_ne_zero _),
    Nat.add_right_cancel_iff, if_neg below.ne, Scan.setIndex, Nat.add_sub_cancel, down]

/-- An unfit separator stops the kernel. -/
theorem descend_loud (ok : Node.InternalOk lo hi parent head elms right) {index : Nat}
    (le : index ≤ elms.length) (reached : (sep elms right index).rank ≤ scan.keyBeg.rank)
    (loud : ¬ Quiet scan.keyBeg (sep elms right index)) :
    descend (fuel + 1) (scan.goto ⟨.internal head elms right, i, above⟩) = .panic := by
  obtain ⟨count, bound, before, after⟩ := ok.cut scan.keyBeg
  have inside : index < count := by
    by_contra past
    exact absurd (after index (by omega) le) reached.not_gt
  have scanned := ok.scanSeps_panic scan.keyBeg scan.createCheck bound before ⟨index, inside, loud⟩
  rw [descend]
  simp only [Scan.goto, scanned, Outcome.bind]

end Node

/-- The search comes back from a node that covers the key, unless it meets a separator
that fails the assertion. -/
theorem descend_done (whole : root.Whole) (scan : Scan) {fuel i : Nat} {node : Node}
    {above : List Frame} (sits : Sits root node above) (lower : (leftBound above).rank ≤ scan.keyBeg.rank)
    (upper : scan.keyBeg.rank < (rightBound above).rank)
    (quiet : ∀ base, Meets scan.keyBeg node base → Quiet scan.keyBeg base)
    (enough : node.cost < fuel) :
    ∃ pos found path,
      descend fuel (scan.goto ⟨node, i, above⟩) =
        .done ((scan.noting path).goto pos, if found then none else some .enoent) ∧
      Lands root scan.keyBeg scan.asof pos found ∧
      (∀ base, base ∈ path ↔ Meets scan.keyBeg node base) ∧ path.Pairwise (·.rank ≤ ·.rank) ∧
      (leftBound pos.above = leftBound above ∨ leftBound pos.above ∈ path) ∧
      ∀ head elms right, pos.node = .internal head elms right → right.rank ≤ scan.keyBeg.rank →
        right ∈ path := by
  induction fuel generalizing node above i scan with
  | zero => contradiction
  | succ fuel ih =>
      obtain ⟨parent, ok⟩ := sits.ok whole
      cases node with
      | leaf head elms =>
          have leafOk := Node.ok_leaf_iff.mp ok
          obtain ⟨index, found, done, ended⟩ := scanElms_leaf leafOk scan.keyBeg scan.asof
          refine ⟨⟨.leaf head elms, index, above⟩, found, [], ?_, .leaf sits lower upper ended, ?_,
            .nil, .inl rfl, nofun⟩
          · rw [descend]
            simp only [Scan.goto, Outcome.kkassert_of leafOk.capacity, done, Outcome.bind]
            rfl
          · intro base
            constructor
            · rintro ⟨⟩
            · rintro ⟨⟩
      | internal head elms right =>
          rw [Node.ok_internal_iff] at ok
          rcases ok.key_cases scan.keyBeg with gap | gap | ⟨index, elm, child, found, reached, stop⟩
          · refine ⟨_, false, [], descend_left ok gap, .left sits lower upper gap, ?_, .nil, .inl rfl, ?_⟩
            swap
            · rintro _ _ _ ⟨⟩ below
              have le := ok.sep_mono (Nat.zero_le elms.length)
              rw [sep_length] at le
              exact absurd (gap.trans_le le) below.not_gt
            intro base
            constructor
            · rintro ⟨⟩
            · intro meets
              cases meets with
              | here index _ reached =>
                  exact absurd (gap.trans_le (ok.sep_mono (Nat.zero_le index))) reached.not_gt
              | down index _ reached _ _ =>
                  exact absurd (gap.trans_le (ok.sep_mono (Nat.zero_le index))) reached.not_gt
          · refine ⟨_, false, seps elms right, descend_right ok gap quiet,
              .right sits lower upper gap, ?_, ?_, .inl rfl, ?_⟩
            · intro base
              rw [← List.take_of_length_le (seps_length elms right).le, mem_take_seps_iff le_rfl]
              constructor
              · rintro ⟨index, below, rfl⟩
                have le := ok.sep_mono (show index ≤ elms.length by omega)
                rw [sep_length] at le
                exact .here index (by omega) (le.trans gap)
              · intro meets
                cases meets with
                | here index le _ => exact ⟨index, by omega, rfl⟩
                | down index found _ stop _ =>
                    have le := ok.sep_mono (show index + 1 ≤ elms.length from
                      (List.getElem?_eq_some_iff.mp found).1)
                    rw [sep_length] at le
                    exact absurd (stop.trans_le le) gap.not_gt
            · exact ok.seps_sorted.imp fun lt => lt.le
            · rintro _ _ _ ⟨⟩ _
              exact List.mem_append_right _ (List.mem_singleton_self _)
          · have met : ∀ other ≤ index, Meets scan.keyBeg (.internal head elms right)
                (sep elms right other) := fun other le =>
              (ok.meets_iff found reached stop).mpr (.inl ⟨other, le, rfl⟩)
            have cheaper : child.cost < fuel := by
              have split := Node.costOf_drop found
              have le := Node.costOf_drop_le elms index
              simp only [Node.cost] at enough split
              omega
            obtain ⟨pos, accepted, path, done, lands, mem, sorted, bound, last⟩ :=
              ih (scan.noting ((seps elms right).take (index + 1))) (sits.down found) reached stop
                (fun base meets => quiet base (.down index found reached stop meets)) cheaper
            have inside : index + 1 ≤ elms.length + 1 :=
              Nat.succ_le_succ (List.getElem?_eq_some_iff.mp found).1.le
            refine ⟨pos, accepted, (seps elms right).take (index + 1) ++ path, ?_, lands, ?_, ?_, .inr ?_, ?_⟩
            · rw [descend_down whole sits found reached stop fun other le => quiet _ (met other le),
                done]
              simp only [Scan.noting, Scan.goto, noted_append]
            · intro base
              rw [List.mem_append, mem_take_seps_iff inside, ok.meets_iff found reached stop]
              exact or_congr (by simp only [Nat.lt_succ_iff]) (mem base)
            · refine List.pairwise_append.mpr ⟨ok.take_seps _, sorted, ?_⟩
              intro base member other otherMember
              obtain ⟨position, le, rfl⟩ := (mem_take_seps_iff inside).mp member
              have childOk := (ok.child found).2.2
              exact (ok.sep_mono (Nat.le_of_lt_succ le)).trans
                (((mem other).mp otherMember).within childOk).1
            · rw [List.mem_append]
              rcases bound with same | member
              · exact .inl ((mem_take_seps_iff inside).mpr ⟨index, Nat.lt_succ_self index, same.symm⟩)
              · exact .inr member
            · exact fun head' elms' right' node below =>
                List.mem_append_right _ (last head' elms' right' node below)

theorem descend_panic (whole : root.Whole) (scan : Scan) {fuel i : Nat} {node : Node}
    {above : List Frame} {base : Base} (sits : Sits root node above)
    (meets : Meets scan.keyBeg node base) (loud : ¬ Quiet scan.keyBeg base)
    (enough : node.cost < fuel) : descend fuel (scan.goto ⟨node, i, above⟩) = .panic := by
  induction fuel generalizing node above i scan with
  | zero => contradiction
  | succ fuel ih =>
      obtain ⟨parent, ok⟩ := sits.ok whole
      cases meets with
      | here index le reached => exact descend_loud (Node.ok_internal_iff.mp ok) le reached loud
      | @down head elms right _ index elm child found reached stop meets =>
          rw [Node.ok_internal_iff] at ok
          obtain ⟨below, _⟩ := List.getElem?_eq_some_iff.mp found
          by_cases quiet : ∀ other ≤ index, Quiet scan.keyBeg (sep elms right other)
          · rw [descend_down whole sits found reached stop quiet]
            have cheaper : child.cost < fuel := by
              have split := Node.costOf_drop found
              have le := Node.costOf_drop_le elms index
              simp only [Node.cost] at enough split
              omega
            exact ih _ (sits.down found) meets loud cheaper
          · push Not at quiet
            obtain ⟨other, le, noisy⟩ := quiet
            exact descend_loud ok (by omega) ((ok.sep_mono le).trans reached) noisy

end Descend

/-! ## The whole search -/

section Search

variable {root node : Node} {above : List Frame} {key : Base}

/-- The climb ends at a node that covers the key. -/
theorem climb_done (index : Nat) (sits : Sits root node above) (lower : rootBtreeBeg.rank ≤ key.rank)
    (upper : key.rank < rootBtreeEnd.rank) :
    ∃ pos, climb key node index above = .done pos ∧ Sits root pos.node pos.above ∧
      (leftBound pos.above).rank ≤ key.rank ∧ key.rank < (rightBound pos.above).rank := by
  induction above generalizing node index with
  | nil =>
      refine ⟨⟨node, index, []⟩, ?_, sits, lower, upper⟩
      rw [climb, if_pos ⟨cmp_nonneg_iff.mpr lower, cmp_lt_zero_iff.mpr upper⟩]
  | cons frame above ih =>
      rw [climb]
      split_ifs with covers
      · exact ⟨_, rfl, sits, cmp_nonneg_iff.mp covers.1, cmp_lt_zero_iff.mp covers.2⟩
      · exact ih frame.index sits.up

/-- What a search meets in a node that covers the key, a search from the root meets
as well. -/
theorem Sits.meets (whole : root.Whole) (sits : Sits root node above)
    (lower : (leftBound above).rank ≤ key.rank) (upper : key.rank < (rightBound above).rank)
    {base : Base} (meets : Meets key node base) : Meets key root base := by
  induction above generalizing node with
  | nil =>
      obtain rfl : node = root := sits
      exact meets
  | cons frame above ih =>
      obtain ⟨parent, ok⟩ := sits.frame_ok whole
      obtain ⟨⟨elm, found⟩, up⟩ := sits
      exact ih up ((ok.lower_sep _).trans lower) (upper.trans_le (ok.sep_upper _))
        (.down frame.index found lower upper meets)

/-- The bound that a search starts under is the root's, or a search from the root
meets it. -/
theorem Sits.meets_leftBound (whole : root.Whole) (sits : Sits root node above)
    (lower : (leftBound above).rank ≤ key.rank) (upper : key.rank < (rightBound above).rank) :
    leftBound above = rootBtreeBeg ∨ Meets key root (leftBound above) := by
  cases above with
  | nil => exact .inl rfl
  | cons frame above =>
      obtain ⟨parent, ok⟩ := sits.frame_ok whole
      obtain ⟨⟨elm, found⟩, up⟩ := sits
      have inside : frame.index ≤ frame.elms.length := (List.getElem?_eq_some_iff.mp found).1.le
      exact .inr (up.meets whole ((ok.lower_sep _).trans lower) (upper.trans_le (ok.sep_upper _))
        (.here frame.index inside lower))

end Search

/-- The search for a key from the root of the tree runs into no assertion. -/
structure Searchable (root : Node) (key : Base) : Prop where
  lower : rootBtreeBeg.rank ≤ key.rank
  upper : key.rank < rootBtreeEnd.rank
  start : Quiet key rootBtreeBeg
  quiet : ∀ base, Meets key root base → Quiet key base

section Search

variable {root : Node} {scan : Scan} {fuel : Nat}

theorem Searchable.quiet_leftBound {node : Node} {above : List Frame} {key : Base}
    (searchable : Searchable root key) (whole : root.Whole) (sits : Sits root node above)
    (lower : (leftBound above).rank ≤ key.rank) (upper : key.rank < (rightBound above).rank) :
    Quiet key (leftBound above) := by
  rcases sits.meets_leftBound whole lower upper with same | meets
  · rw [same]
    exact searchable.start
  · exact searchable.quiet _ meets

/-- The separators that a search has met, in their order. -/
structure Trail (root : Node) (key : Base) (pos : Position) (path : List Base) : Prop where
  sorted : path.Pairwise (·.rank ≤ ·.rank)
  reached : ∀ base ∈ path, base.rank ≤ key.rank
  met : ∀ base ∈ path, base = rootBtreeBeg ∨ Meets key root base
  bound : leftBound pos.above ∈ path
  last : ∀ head elms right, pos.node = .internal head elms right → right.rank ≤ key.rank → right ∈ path

/-- A search from anywhere in the tree comes back. -/
theorem search_done (whole : root.Whole) (sits : Sits root scan.pos.node scan.pos.above)
    (searchable : Searchable root scan.keyBeg) (enough : root.cost < fuel) :
    ∃ pos found path, search fuel scan =
        .done ((scan.noting path).goto pos, if found then none else some .enoent) ∧
      Lands root scan.keyBeg scan.asof pos found ∧ Trail root scan.keyBeg pos path := by
  obtain ⟨start, climbed, startSits, lower, upper⟩ :=
    climb_done scan.pos.index sits searchable.lower searchable.upper
  have quiet : ∀ base, Meets scan.keyBeg start.node base → Quiet scan.keyBeg base :=
    fun base meets => searchable.quiet base (startSits.meets whole lower upper meets)
  have cheap : start.node.cost < fuel :=
    (Nat.le_add_right _ _).trans startSits.cost_le |>.trans_lt enough
  obtain ⟨pos, found, path, done, lands, mem, sorted, bound, last⟩ :=
    descend_done whole (scan.noting [leftBound start.above]) startSits lower upper quiet cheap
  obtain ⟨parent, ok⟩ := startSits.ok whole
  refine ⟨pos, found, leftBound start.above :: path, ?_, lands, ?_⟩
  · rw [search, climbed]
    simp only [Outcome.bind,
      createCheck_of_quiet (searchable.quiet_leftBound whole startSits lower upper)]
    exact done
  · constructor
    · exact List.pairwise_cons.mpr ⟨fun base member => (((mem base).mp member).within ok).1, sorted⟩
    · exact List.forall_mem_cons.mpr ⟨lower, fun base member => ((mem base).mp member).rank_le⟩
    · refine List.forall_mem_cons.mpr ⟨startSits.meets_leftBound whole lower upper, fun base member => ?_⟩
      exact .inr (startSits.meets whole lower upper ((mem base).mp member))
    · rcases bound with same | member
      · exact same ▸ List.mem_cons_self
      · exact List.mem_cons_of_mem _ member
    · exact fun head elms right node below => List.mem_cons_of_mem _ (last head elms right node below)

/-- A search from the root that is not free of assertions stops the kernel. -/
theorem search_panic (whole : root.Whole) {index : Nat} (unsearchable : ¬ Searchable root scan.keyBeg)
    (enough : root.cost < fuel) : search fuel (scan.goto ⟨root, index, []⟩) = .panic := by
  by_cases covers : rootBtreeBeg.rank ≤ scan.keyBeg.rank ∧ scan.keyBeg.rank < rootBtreeEnd.rank
  · have climbed : climb scan.keyBeg root index [] = .done ⟨root, index, []⟩ := by
      rw [climb, if_pos ⟨cmp_nonneg_iff.mpr covers.1, cmp_lt_zero_iff.mpr covers.2⟩]
    rw [search]
    simp only [Scan.goto, climbed, Outcome.bind]
    by_cases start : Quiet scan.keyBeg rootBtreeBeg
    · simp only [leftBound, createCheck_of_quiet start]
      have loud : ∃ base, Meets scan.keyBeg root base ∧ ¬ Quiet scan.keyBeg base := by
        by_contra none
        push Not at none
        exact unsearchable ⟨covers.1, covers.2, start, none⟩
      obtain ⟨base, meets, loud⟩ := loud
      exact descend_panic whole (scan.noting [rootBtreeBeg]) rfl meets loud enough
    · simp only [leftBound, createCheck_of_not_quiet start]
  · have stuck : climb scan.keyBeg root index [] = .panic := by
      rw [climb, if_neg]
      rw [cmp_nonneg_iff, cmp_lt_zero_iff]
      exact covers
    rw [search]
    simp only [Scan.goto, stuck, Outcome.bind]

end Search

/-! ## What the search has found -/

namespace Lands

variable {root : Node} {key : Base} {asof : Option Nat} {pos : Position} {found : Bool}

theorem sits (lands : Lands root key asof pos found) : Sits root pos.node pos.above := by
  cases lands with
  | leaf sits => exact sits
  | left sits => exact sits
  | right sits => exact sits

theorem stands (lands : Lands root key asof pos found) (whole : root.Whole) :
    Stands root key.rank pos := by
  have upper : key.rank < (rightBound pos.above).rank := by
    cases lands with
    | leaf _ _ upper => exact upper
    | left _ _ upper => exact upper
    | right _ _ upper => exact upper
  have frames : ∀ frame ∈ pos.above, key.rank < frame.rightBound.rank := fun frame member =>
    upper.trans_le (lands.sits.rightBound_le whole frame member)
  cases lands with
  | leaf sits _ _ ended => exact ⟨sits, ended.index_le, frames, nofun⟩
  | left sits _ _ gap =>
      refine ⟨sits, Nat.zero_le _, frames, ?_⟩
      rintro head elms right ⟨⟩ _
      exact gap
  | right sits _ _ gap =>
      refine ⟨sits, le_rfl, frames, ?_⟩
      rintro head elms right ⟨⟩ below
      exact absurd below (lt_irrefl _)

/-- Everything ahead of a search that has failed is above the key. -/
theorem lt_ahead (lands : Lands root key asof pos false) (whole : root.Whole) :
    ∀ elm ∈ pos.ahead, key.rank < elm.base.rank := by
  intro elm member
  cases lands with
  | leaf sits _ upper ended =>
      rcases List.mem_append.mp member with member | member
      · exact ended.stopped rfl elm member
      · exact upper.trans_le (sits.le_framesAfter whole elm member)
  | left sits _ _ gap => exact gap.trans_le (sits.le_ahead whole 0 elm member)
  | @right head elms right above sits _ upper _ =>
      rw [Position.ahead, show elms.length = (Node.internal head elms right).count from rfl,
        Node.recordsFrom_count, List.nil_append] at member
      exact upper.trans_le (sits.le_framesAfter whole elm member)

/-- A search that has succeeded is at the element it accepts. -/
theorem accepted (lands : Lands root key asof pos true) : ∃ head elms elm,
    pos.node = .leaf head elms ∧ elms[pos.index]? = some elm ∧ elm.base.rank ≤ key.rank ∧
      cmp key elm.base ≤ 1 ∧ accepts key asof elm.base = true := by
  cases lands with
  | leaf sits _ _ ended =>
      obtain ⟨elm, at', rest⟩ := ended.accepted rfl
      exact ⟨_, _, elm, rfl, at', rest⟩

/-- Nothing in front of the place where a search ends is above the key. -/
theorem before_le (lands : Lands root key asof pos found) (whole : root.Whole) :
    ∀ elm ∈ pos.before, elm.base.rank ≤ key.rank := by
  intro elm member
  cases lands with
  | leaf sits lower _ ended =>
      rcases List.mem_append.mp member with member | member
      · exact ((sits.framesBefore_lt whole elm member).trans_le lower).le
      · exact (ended.passed elm member).1
  | left sits lower _ _ =>
      rw [Position.before, Node.recordsTo_zero, List.append_nil] at member
      exact ((sits.framesBefore_lt whole elm member).trans_le lower).le
  | @right head elms right above sits _ _ gap =>
      have lt := sits.before_lt whole elms.length elm member
      rw [sep_length] at lt
      exact (lt.trans_le gap).le

/-- Without an as-of time, everything in front is below the key. -/
theorem before_lt (lands : Lands root key none pos found) (whole : root.Whole) :
    ∀ elm ∈ pos.before, elm.base.rank < key.rank := by
  intro elm member
  refine lt_of_le_of_ne (lands.before_le whole elm member) fun same => ?_
  cases lands with
  | leaf sits lower _ ended =>
      rcases List.mem_append.mp member with member | member
      · exact absurd same ((sits.framesBefore_lt whole elm member).trans_le lower).ne
      · have zero := cmp_eq_zero_iff.mpr same.symm
        have refused := (ended.passed elm member).2 (by omega)
        simp [accepts, zero] at refused
  | left sits lower _ _ =>
      rw [Position.before, Node.recordsTo_zero, List.append_nil] at member
      exact absurd same ((sits.framesBefore_lt whole elm member).trans_le lower).ne
  | @right head elms right above sits _ _ gap =>
      have lt := sits.before_lt whole elms.length elm member
      rw [sep_length] at lt
      exact absurd same (lt.trans_le gap).ne

end Lands

/-! ## Separators of a tree -/

namespace Node

mutual

/-- The separators of the internal nodes of a tree. -/
def separators : Node → List Base
  | leaf .. => []
  | internal _ elms right => right :: separatorsOf elms

def separatorsOf : List Link → List Base
  | [] => []
  | (elm, child) :: links => elm.base :: (child.separators ++ separatorsOf links)

end

theorem separatorsOf_eq (links : List Link) : separatorsOf links = links.flatMap fun link => link.1.base :: link.2.separators := by
  induction links with
  | nil => rfl
  | cons link links ih =>
      obtain ⟨elm, child⟩ := link
      rw [separatorsOf, ih, List.flatMap_cons, List.cons_append]

theorem mem_separators_internal {head : Head} {elms : List Link} {right base : Base} :
    base ∈ (internal head elms right).separators ↔
      base = right ∨ ∃ link ∈ elms, base = link.1.base ∨ base ∈ link.2.separators := by
  rw [separators, separatorsOf_eq, List.mem_cons, List.mem_flatMap]
  simp only [List.mem_cons]

/-- There are no more separators than passes through the tree. -/
theorem Ok.separators_length_le {node : Node} {lo hi : Rank} {parent : Nat} (ok : node.Ok lo hi parent) :
    node.separators.length ≤ node.cost := by
  induction node generalizing lo hi parent with
  | leaf head elms => exact Nat.zero_le _
  | internal head elms right ih =>
      rw [ok_internal_iff] at ok
      have each : ∀ links : List Link, (∀ link ∈ links, link.2.separators.length ≤ link.2.cost) →
          (separatorsOf links).length + links.length ≤ costOf links := by
        intro links below
        induction links with
        | nil => exact le_rfl
        | cons link links rest =>
            obtain ⟨elm, child⟩ := link
            have first := below (elm, child) List.mem_cons_self
            have others := rest fun link member => below link (List.mem_cons_of_mem _ member)
            simp only [separatorsOf, costOf, List.length_cons, List.length_append] at *
            omega
      have positive := List.length_pos_iff.mpr ok.nonempty
      have total := each elms ?_
      · rw [separators, cost, List.length_cons]
        omega
      · intro link member
        obtain ⟨index, found⟩ := List.mem_iff_getElem?.mp member
        exact ih link member (ok.child found).2.2

end Node

theorem Meets.mem_separators {key base : Base} {node : Node} (meets : Meets key node base) : base ∈ node.separators := by
  induction meets with
  | @here head elms right index le _ =>
      rw [Node.mem_separators_internal]
      rcases le.lt_or_eq with below | rfl
      · rw [sep_of_getElem? (List.getElem?_eq_getElem below)]
        exact .inr ⟨_, List.getElem_mem below, .inl rfl⟩
      · rw [sep_length]
        exact .inl rfl
  | down index found _ _ _ ih =>
      rw [Node.mem_separators_internal]
      exact .inr ⟨_, List.mem_of_getElem? found, .inr ih⟩

/-- A key that runs into no assertion at any separator of the tree is one to search for. -/
theorem Searchable.of_separators {root : Node} {key : Base} (lower : rootBtreeBeg.rank ≤ key.rank)
    (upper : key.rank < rootBtreeEnd.rank) (start : Quiet key rootBtreeBeg)
    (quiet : ∀ base ∈ root.separators, Quiet key base) : Searchable root key :=
  ⟨lower, upper, start, fun base meets => quiet base meets.mem_separators⟩

end Dragonfly.Hammer.Btree
