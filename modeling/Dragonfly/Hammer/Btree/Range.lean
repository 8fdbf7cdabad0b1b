import Dragonfly.Hammer.Btree.Seek

/-!
# Scans of a range

The callers of the B-Tree go to the first record of a range, and then from record to record
until there is none left.  What they have seen then are the records of the range, in order.
-/

namespace Dragonfly.Hammer.Btree

open Dragonfly.Lib

/-- The element of a leaf at the cursor. -/
def Position.elm (pos : Position) : Option LeafElm :=
  match pos.node with
  | .leaf _ elms => elms[pos.index]?
  | .internal .. => none

/-- The loop of a caller, with the records that the cursor stops at. -/
def visit (next : Scan → Outcome (Scan × Option Errno)) :
    Nat → Scan × Option Errno → Outcome (List LeafElm × Errno)
  | _, (_, some errno) => .done ([], errno)
  | 0, (_, none) => .more
  | passes + 1, (scan, none) =>
      match scan.pos.elm with
      | none => .panic
      | some elm =>
          (next scan).bind fun result =>
            (visit next passes result).bind fun (elms, errno) => .done (elm :: elms, errno)

/-- `hammer_btree_first`, and `hammer_btree_iterate` until it fails. -/
def forwardScan (fuel passes : Nat) (scan : Scan) : Outcome (List LeafElm × Errno) :=
  (first fuel scan).bind (visit (iterate fuel) passes)

namespace Scan

/-- The key lies in the range of the scan. -/
def inRange (scan : Scan) (base : Base) : Bool := cmp scan.keyBeg base ≤ 0 && !scan.beyond base

/-- The record is one that the scan is for. -/
def wants (scan : Scan) (elm : LeafElm) : Bool := scan.inRange elm.base && !scan.invisible elm.base

/-- The range has room for a key. -/
def Ordered (scan : Scan) : Prop := scan.beyond scan.keyBeg = false

theorem inRange_iff {scan : Scan} {base : Base} :
    scan.inRange base = true ↔ scan.keyBeg.rank ≤ base.rank ∧ scan.beyond base = false := by
  simp [inRange, cmp_nonpos_iff]

end Scan

/-! ## Forward -/

section Forward

variable {root : Node} {scan : Scan} {fuel passes : Nat} {pos : Position}

theorem lead_le_of_rank_le {base other : Base} (le : base.rank ≤ other.rank) : base.lead ≤ other.lead := by
  rcases le.lt_or_eq with lt | equal
  · rcases rank_lt_iff.mp lt with lt | ⟨same, _⟩
    · exact lt.le
    · exact same.le
  · exact (rank_eq_iff.mp equal).1.le

/-- A position moves without any further condition. -/
theorem moves_free (root : Node) (key : Rank) : Moves root key fun _ => True :=
  ⟨fun _ _ => trivial, fun _ _ _ => trivial, fun _ _ => trivial⟩

/-- From where the loop has stopped, the caller sees everything ahead that lies in the range and
is visible. -/
theorem visit_stops (whole : root.Whole) (calm : scan.iterateCheck = false)
    (plain : scan.reblocking = false) (unfiltered : scan.cmirror = none) (enough : root.cost < fuel)
    (stands : Stands root scan.keyBeg.rank pos) {result : Scan × Option Errno}
    (stops : Stops scan pos result) (many : pos.ahead.length < passes) :
    visit (iterate fuel) passes ({ result.1 with ateDisk := true }, result.2) =
      .done (pos.ahead.filter fun elm => !scan.beyond elm.base && !scan.invisible elm.base, .enoent) := by
  induction passes generalizing scan pos result with
  | zero => contradiction
  | succ passes ih =>
      rcases stops with ⟨behind⟩ | @⟨head, elms, elm, node, found, within, visible⟩ | ⟨_, _, _, filtered⟩
      · have empty : (pos.ahead.filter fun elm => !scan.beyond elm.base && !scan.invisible elm.base) = [] := by
          refine List.filter_eq_nil_iff.mpr fun elm member => ?_
          simp [behind elm member]
        rw [empty]
        rfl
      · obtain ⟨posNode, index, above⟩ := pos
        obtain rfl : posNode = .leaf head elms := node
        obtain ⟨below, _⟩ := List.getElem?_eq_some_iff.mp found
        have ahead := ahead_leaf head above found
        dsimp only at ahead
        have further := stands.next below
        obtain ⟨final, skipped, result, done, onward, stops⟩ :=
          @iterateLoop_stops root { scan with ateDisk := true } fuel whole _
            ⟨.leaf head elms, index + 1, above⟩ calm plain (moves_free root scan.keyBeg.rank) further
            trivial (further.sits.position_cost_le.trans_lt enough)
        have next : iterate fuel { scan.goto ⟨.leaf head elms, index, above⟩ with ateDisk := true } =
            .done result := by
          rw [iterate, if_pos ⟨below, rfl⟩]
          exact done
        have short : final.ahead.length < passes := by
          have lengths := congrArg List.length onward.split
          rw [ahead, List.length_cons] at many
          rw [List.length_append] at lengths
          omega
        have rest := @ih { scan with ateDisk := true } final calm plain unfiltered onward.stands result stops short
        have same : ({ result.1 with ateDisk := true }, result.2) = result := by
          rcases stops with ⟨_⟩ | ⟨_, _, _, _⟩ | ⟨_, _, _, filtered⟩
          · rfl
          · rfl
          · simp [Scan.filtered, unfiltered] at filtered
        have unseen : (skipped.filter fun elm => !scan.beyond elm.base && !scan.invisible elm.base) = [] := by
          refine List.filter_eq_nil_iff.mpr fun elm member => ?_
          have invisible : scan.invisible elm.base = true := onward.unseen elm member
          simp [invisible]
        have here : (scan.goto ⟨.leaf head elms, index, above⟩).pos.elm = some elm := found
        rw [same] at rest
        rw [ahead, List.filter_cons_of_pos (by simp [within, visible]), onward.split, List.filter_append, unseen,
          List.nil_append, visit]
        dsimp only
        rw [here]
        dsimp only
        rw [next]
        simp only [Outcome.bind]
        rw [rest]
        rfl
      · simp [Scan.filtered, unfiltered] at filtered

/-- What the loop finds from a position, the caller sees. -/
theorem visit_iterateLoop (whole : root.Whole) (calm : scan.iterateCheck = false)
    (plain : scan.reblocking = false) (unfiltered : scan.cmirror = none) (enough : root.cost < fuel)
    (stands : Stands root scan.keyBeg.rank pos) (many : pos.ahead.length < passes) :
    ((iterateLoop fuel (scan.goto pos)).bind fun (scan, error) =>
        visit (iterate fuel) passes ({ scan with ateDisk := true }, error)) =
      .done (pos.ahead.filter fun elm => !scan.beyond elm.base && !scan.invisible elm.base, .enoent) := by
  obtain ⟨final, skipped, result, done, onward, stops⟩ :=
    iterateLoop_stops whole calm plain (moves_free root scan.keyBeg.rank) stands trivial
      (stands.sits.position_cost_le.trans_lt enough)
  have short : final.ahead.length < passes := by
    have lengths := congrArg List.length onward.split
    rw [List.length_append] at lengths
    omega
  have unseen : (skipped.filter fun elm => !scan.beyond elm.base && !scan.invisible elm.base) = [] := by
    refine List.filter_eq_nil_iff.mpr fun elm member => ?_
    have invisible : scan.invisible elm.base = true := onward.unseen elm member
    simp [invisible]
  rw [done, onward.split, List.filter_append, unseen, List.nil_append]
  exact visit_stops whole calm plain unfiltered enough onward.stands stops short

/-- The caller sees everything ahead of the place that the lookup finds. -/
theorem forwardScan_of_lookup {after : Scan} {found : Bool} (whole : root.Whole)
    (done : lookup fuel scan = .done (after.goto pos, if found then none else some .enoent))
    (calm : after.iterateCheck = false) (plain : after.reblocking = false) (unfiltered : after.cmirror = none)
    (enough : root.cost < fuel) (stands : Stands root after.keyBeg.rank pos)
    (accepted : found = true → ∃ head elms elm, pos.node = .leaf head elms ∧ elms[pos.index]? = some elm ∧
      after.beyond elm.base = false ∧ after.invisible elm.base = false)
    (many : pos.ahead.length < passes) :
    forwardScan fuel passes scan =
      .done (pos.ahead.filter fun elm => !after.beyond elm.base && !after.invisible elm.base, .enoent) := by
  rw [forwardScan, first, done]
  cases found with
  | false =>
      have rest := @visit_iterateLoop root { after with ateDisk := false } fuel passes pos whole calm plain
        unfiltered enough stands many
      simp only [Outcome.bind, Bool.false_eq_true, if_false, if_true, iterate, and_false, Scan.goto] at rest ⊢
      cases result : iterateLoop fuel { after with pos := pos, ateDisk := false } with
      | panic => simp [result] at rest
      | more => simp [result] at rest
      | done value =>
          rw [result] at rest
          exact rest
  | true =>
      obtain ⟨head, elms, elm, node, here, within, visible⟩ := accepted rfl
      exact visit_stops whole calm plain unfiltered enough stands (.record node here within visible) many

theorem lookup_current (current : scan.asof = none) :
    lookup fuel scan = search fuel { scan with iterateCheck := false } := by
  unfold lookup
  split
  · simp_all
  · rfl

/-- Without an as-of time, a search that has succeeded is at an element with the key. -/
theorem Lands.accepted_current {key : Base} (lands : Lands root key none pos true) :
    ∃ head elms elm, pos.node = .leaf head elms ∧ elms[pos.index]? = some elm ∧
      elm.base.rank = key.rank := by
  obtain ⟨head, elms, elm, node, here, le, _, accepts⟩ := lands.accepted
  exact ⟨head, elms, elm, node, here, le.antisymm (cmp_nonpos_iff.mp (of_decide_eq_true accepts))⟩

/-- Without an as-of time, nothing ahead of the place where a search ends is below the key. -/
theorem Lands.le_ahead {key : Base} {found : Bool} (whole : root.Whole) (lands : Lands root key none pos found) :
    ∀ elm ∈ pos.ahead, key.rank ≤ elm.base.rank := by
  intro elm member
  cases found with
  | false => exact (lands.lt_ahead whole elm member).le
  | true =>
      obtain ⟨head, elms, first, node, here, same⟩ := lands.accepted_current
      have sorted := lands.sits.ahead_sorted whole
      obtain ⟨posNode, index, above⟩ := pos
      obtain rfl : posNode = .leaf head elms := node
      rw [ahead_leaf head above here] at sorted member
      rcases List.mem_cons.mp member with rfl | member
      · exact same.ge
      · exact same.ge.trans ((List.pairwise_cons.mp sorted).1 elm member).le

/-- A lookup without an as-of time that starts at the root stops the kernel exactly if the search
for the key runs into an assertion.  If it does not, then from wherever the cursor starts the lookup
comes back, at the record with the key, or with `ENOENT` because there is none. -/
theorem lookup_exact (whole : root.Whole) (current : scan.asof = none) (enough : root.cost < fuel) :
    (∀ index, lookup fuel (scan.goto ⟨root, index, []⟩) = .panic ↔ ¬Searchable root scan.keyBeg) ∧
      (Searchable root scan.keyBeg → Sits root scan.pos.node scan.pos.above →
        ∃ after error, lookup fuel scan = .done (after, error) ∧
          ((error = none ∧ ∃ head elms elm, after.pos.node = .leaf head elms ∧
              elms[after.pos.index]? = some elm ∧ elm ∈ root.records ∧ elm.base.rank = scan.keyBeg.rank) ∨
            (error = some .enoent ∧ ∀ elm ∈ root.records, elm.base.rank ≠ scan.keyBeg.rank))) := by
  refine ⟨fun index => ?_, fun searchable sits => ?_⟩
  · rw [lookup_current (show (scan.goto ⟨root, index, []⟩).asof = none from current)]
    constructor
    · intro panics searchable
      obtain ⟨pos, found, path, done, -⟩ := @search_done root
        { scan.goto ⟨root, index, []⟩ with iterateCheck := false } fuel whole rfl searchable enough
      rw [done] at panics
      cases panics
    · intro unsearchable
      exact @search_panic root { scan with iterateCheck := false } fuel whole index unsearchable enough
  · obtain ⟨pos, found, path, done, lands, -⟩ :=
      @search_done root { scan with iterateCheck := false } fuel whole sits searchable enough
    rw [← lookup_current current] at done
    have lands : Lands root scan.keyBeg none pos found := current ▸ lands
    have split := lands.sits.before_append_ahead
    refine ⟨_, _, done, ?_⟩
    cases found with
    | true =>
        obtain ⟨head, elms, elm, node, here, same⟩ := lands.accepted_current
        refine .inl ⟨rfl, head, elms, elm, node, here, ?_, same⟩
        obtain ⟨posNode, index, above⟩ := pos
        obtain rfl : posNode = .leaf head elms := node
        rw [← split, ahead_leaf head above here]
        exact List.mem_append_right _ List.mem_cons_self
    | false =>
        refine .inr ⟨rfl, fun elm member => ?_⟩
        rw [← split] at member
        rcases List.mem_append.mp member with member | member
        · exact (lands.before_lt whole elm member).ne
        · exact (lands.lt_ahead whole elm member).ne'

/-- A scan without an as-of time returns the records of its range, in order, from wherever the
cursor starts. -/
theorem forwardScan_eq (whole : root.Whole) (sits : Sits root scan.pos.node scan.pos.above)
    (searchable : Searchable root scan.keyBeg) (current : scan.asof = none)
    (plain : scan.reblocking = false) (unfiltered : scan.cmirror = none) (ordered : scan.Ordered)
    (enough : root.cost < fuel) (many : root.records.length < passes) :
    forwardScan fuel passes scan = .done (root.records.filter fun elm => scan.inRange elm.base, .enoent) := by
  obtain ⟨pos, found, path, done, lands, _⟩ :=
    @search_done root { scan with iterateCheck := false } fuel whole sits searchable enough
  rw [← lookup_current current] at done
  have lands : Lands root scan.keyBeg none pos found := current ▸ lands
  have stands := lands.stands whole
  have below : ∀ elm ∈ pos.before, elm.base.rank < scan.keyBeg.rank := lands.before_lt whole
  have above : ∀ elm ∈ pos.ahead, scan.keyBeg.rank ≤ elm.base.rank := lands.le_ahead whole
  have split := stands.sits.before_append_ahead
  have front : (pos.before.filter fun elm => scan.inRange elm.base) = [] := by
    refine List.filter_eq_nil_iff.mpr fun elm member inRange => ?_
    exact absurd (Scan.inRange_iff.mp inRange).1 (below elm member).not_ge
  have wanted : (root.records.filter fun elm => scan.inRange elm.base) =
      pos.ahead.filter fun elm => !scan.beyond elm.base && !scan.invisible elm.base := by
    rw [← split, List.filter_append, front, List.nil_append]
    refine List.filter_congr fun elm member => ?_
    have lower := cmp_nonpos_iff.mpr (above elm member)
    simp [Scan.inRange, Scan.invisible, current, lower]
  have short : pos.ahead.length < passes := by
    rw [← split, List.length_append] at many
    omega
  have accepted : found = true → ∃ head elms elm, pos.node = .leaf head elms ∧
      elms[pos.index]? = some elm ∧ scan.beyond elm.base = false ∧ scan.invisible elm.base = false := by
    rintro rfl
    obtain ⟨head, elms, elm, node, here, same⟩ := lands.accepted_current
    refine ⟨head, elms, elm, node, here, ?_, by simp [Scan.invisible, current]⟩
    by_contra behind
    rw [Bool.not_eq_false] at behind
    have contrary := Scan.beyond_mono behind same.le
    rw [ordered] at contrary
    contradiction
  have answer := forwardScan_of_lookup whole done rfl plain unfiltered enough stands accepted short
  rw [wanted]
  exact answer

end Forward

/-! ## A tree with two versions of a record -/

def versionBase (key : Int) (createTid deleteTid : Nat) (btype : Btype) : Base :=
  { objId := 1, key, createTid, deleteTid, recType := 1, objType := 0, btype, localization := 1 }

def versionElm (key : Int) (createTid deleteTid : Nat) : LeafElm :=
  { base := versionBase key createTid deleteTid .record, createTs := 0, deleteTs := 0, dataOffset := 0,
    dataLen := 0, dataCrc := 0 }

/-- The separator of the leaves lies between the two versions. -/
def versionTree : Node :=
  .internal ⟨8, 0, 32⟩
    [(⟨versionBase 1 16 0 .leaf, 32, 16⟩, .leaf ⟨16, 8, 32⟩ [versionElm 1 16 32]),
      (⟨versionBase 1 24 0 .leaf, 32, 24⟩, .leaf ⟨24, 8, 32⟩ [versionElm 1 32 0, versionElm 2 8 0])]
    (versionBase 9 8 0 .boundary)

def versionScan (asof : Option Nat) : Scan :=
  { pos := ⟨versionTree, 0, []⟩, keyBeg := versionBase 1 4 0 .record, keyEnd := versionBase 2 0 0 .record,
    endInclusive := true, asof, createCheck := none, ateDisk := false, iterateCheck := false,
    reblocking := false, cmirror := none }

theorem versionTree_whole : versionTree.Whole := by
  have below : ∀ {first second : Base}, cmp first second < 0 → first.rank < second.rank :=
    cmp_lt_zero_iff.mp
  refine Node.ok_internal_iff.mpr ⟨rfl, List.cons_ne_nil _ _, by decide, ?_, ?_, ?_⟩
  · exact (below (by decide) : rootBtreeBeg.rank < (versionBase 1 16 0 .leaf).rank).le
  · exact (below (by decide) : (versionBase 9 8 0 .boundary).rank < rootBtreeEnd.rank).le
  · refine ⟨below (by decide), ⟨⟨rfl, rfl, by decide⟩, ?_⟩,
      below (by decide), ⟨⟨rfl, rfl, by decide⟩, ?_⟩, trivial⟩
    · refine Node.ok_leaf_iff.mpr ⟨rfl, by decide, List.pairwise_singleton _ _, ?_, ?_⟩
      · exact List.forall_mem_singleton.mpr ⟨le_rfl, below (by decide)⟩
      · exact List.forall_mem_singleton.mpr rfl
    · refine Node.ok_leaf_iff.mpr ⟨rfl, by decide, ?_, ?_, ?_⟩
      · exact List.pairwise_pair.mpr (below (by decide))
      · refine List.forall_mem_cons.mpr ⟨⟨(below (by decide)).le, below (by decide)⟩, ?_⟩
        exact List.forall_mem_singleton.mpr ⟨(below (by decide)).le, below (by decide)⟩
      · exact List.forall_mem_cons.mpr ⟨rfl, List.forall_mem_singleton.mpr rfl⟩

/-- A lookup of the second record of the last leaf. -/
theorem lookup_exact_versions : ∃ after error,
    lookup 8 { versionScan none with keyBeg := versionBase 2 8 0 .record } = .done (after, error) ∧
      ((error = none ∧ ∃ head elms elm, after.pos.node = .leaf head elms ∧ elms[after.pos.index]? = some elm ∧
          elm ∈ versionTree.records ∧ elm.base.rank = (versionBase 2 8 0 .record).rank) ∨
        (error = some .enoent ∧ ∀ elm ∈ versionTree.records, elm.base.rank ≠ (versionBase 2 8 0 .record).rank)) := by
  refine (lookup_exact versionTree_whole rfl (by decide)).2 ?_ rfl
  exact .of_separators (cmp_lt_zero_iff.mp (by decide)).le (cmp_lt_zero_iff.mp (by decide)) (by decide) (by decide)

/-- All three records are in the range. -/
theorem forwardScan_eq_versions :
    forwardScan 8 4 (versionScan none) =
      .done (versionTree.records.filter fun elm => (versionScan none).inRange elm.base, .enoent) := by
  have searchable : Searchable versionTree (versionScan none).keyBeg :=
    .of_separators (cmp_lt_zero_iff.mp (by decide)).le (cmp_lt_zero_iff.mp (by decide)) (by decide) (by decide)
  exact forwardScan_eq versionTree_whole rfl searchable rfl rfl rfl rfl (by decide) (by decide)

end Dragonfly.Hammer.Btree
