import Dragonfly.Lib.Loop
import Dragonfly.Hammer.Btree.Range

/-!
# Lookups in the past

An as-of lookup searches with the time in the place of the creation time.  If the record it is for lies
in front of where the search has ended, a separator between the two differs from the key by its creation
time only, and the lookup goes on from in front of it.
-/

namespace Dragonfly.Hammer.Btree

open Dragonfly.Lib

/-! ## The time of the next search -/

/-- A bound between a record and a key with the same lead has that lead as well. -/
theorem lead_eq_of_between {key base record : Base} (same : record.lead = key.lead)
    (above : record.rank < base.rank) (below : base.rank ≤ key.rank) : base.lead = key.lead := by
  have lower := lead_le_of_rank_le above.le
  exact (lead_le_of_rank_le below).antisymm (same ▸ lower)

/-- Along a trail, the last bound that the key exceeds by its creation time only is noted. -/
theorem noted_of_sorted {key : Base} {path : List Base} (sorted : path.Pairwise (·.rank ≤ ·.rank))
    (check : Option Nat) :
    (noted key check path = check ∧ ∀ base ∈ path, cmp key base ≠ 1) ∨
      ∃ base ∈ path, cmp key base = 1 ∧ noted key check path = some (base.createTid - 1) ∧
        ∀ other ∈ path, cmp key other = 1 → other.rank ≤ base.rank := by
  induction path generalizing check with
  | nil => exact .inl ⟨rfl, nofun⟩
  | cons base path ih =>
      obtain ⟨first, rest⟩ := List.pairwise_cons.mp sorted
      have step : noted key check (base :: path) =
          noted key (if cmp key base = 1 then some (base.createTid - 1) else check) path := rfl
      rw [step]
      rcases ih rest (if cmp key base = 1 then some (base.createTid - 1) else check) with
        ⟨kept, none⟩ | ⟨last, member, one, noted, greatest⟩
      · by_cases one : cmp key base = 1
        · refine .inr ⟨base, List.mem_cons_self, one, by rw [kept, if_pos one], ?_⟩
          intro other otherMember otherOne
          rcases List.mem_cons.mp otherMember with rfl | otherMember
          · exact le_rfl
          · exact absurd otherOne (none other otherMember)
        · exact .inl ⟨by rw [kept, if_neg one], List.forall_mem_cons.mpr ⟨one, none⟩⟩
      · refine .inr ⟨last, List.mem_cons_of_mem _ member, one, noted, ?_⟩
        intro other otherMember otherOne
        rcases List.mem_cons.mp otherMember with rfl | otherMember
        · exact first last member
        · exact greatest other otherMember otherOne

/-! ## One search -/

/-- A search that fails passes a bound above every record that it should have accepted. -/
theorem Trail.above {root : Node} {key : Base} {asof : Option Nat} {pos : Position} {path : List Base}
    (whole : root.Whole) (lands : Lands root key asof pos false) (trail : Trail root key pos path)
    {elm : LeafElm} (member : elm ∈ root.records) (same : elm.base.lead = key.lead)
    (below : elm.base.rank ≤ key.rank) (accepted : accepts key asof elm.base = true) :
    ∃ base ∈ path, elm.base.rank < base.rank := by
  have split := lands.sits.before_append_ahead
  rw [← split] at member
  rcases List.mem_append.mp member with front | ahead
  · cases lands with
    | leaf sits _ _ ended =>
        rcases List.mem_append.mp front with front | here
        · exact ⟨_, trail.bound, sits.framesBefore_lt whole elm front⟩
        · have small : cmp key elm.base ≤ 1 := by
            by_contra large
            exact (one_lt_cmp_iff.mp (not_le.mp large)).ne same
          rw [(ended.passed elm here).2 small] at accepted
          contradiction
    | left sits _ _ gap =>
        rw [Position.before, Node.recordsTo_zero, List.append_nil] at front
        exact ⟨_, trail.bound, sits.framesBefore_lt whole elm front⟩
    | @right head elms right above sits _ _ gap =>
        have lt := sits.before_lt whole elms.length elm front
        rw [sep_length] at lt
        exact ⟨right, trail.last head elms right rfl gap, lt⟩
  · exact absurd (lands.lt_ahead whole elm ahead) below.not_gt

/-! ## The loop of the lookup -/

/-- A time is one that lookups of the key go by.  A lookup passes over a separator with the time itself,
and over one with the time just before another separator, so that no record in front of these may be
visible. -/
structure Spaced (root : Node) (lead : Lead) (asof : Nat) : Prop where
  lower : rootBtreeBeg.lead < lead
  upper : lead < rootBtreeEnd.lead
  first : ∀ base ∈ root.separators, base.lead = lead → base.createTid ≠ 1
  older : ∀ base ∈ root.separators, base.lead = lead →
    (base.createTid = asof ∨
      ∃ next ∈ root.separators, next.lead = lead ∧ next.createTid = base.createTid + 1) →
    ∀ elm ∈ root.records, elm.base.lead = lead → elm.base.rank < base.rank → chkts asof elm.base ≠ 0

/-- The key of a search at a time. -/
def Base.at (key : Base) (tid : Nat) : Base := { key with createTid := tid }

@[simp] theorem Base.at_lead (key : Base) (tid : Nat) : (key.at tid).lead = key.lead := rfl

@[simp] theorem Base.at_createTid (key : Base) (tid : Nat) : (key.at tid).createTid = tid := rfl

/-- A separator that the key exceeds by its creation time only is none of those of the whole tree. -/
theorem Spaced.mem_separators {root : Node} {key base : Base} {asof : Nat} (spaced : Spaced root key.lead asof)
    (same : base.lead = key.lead) (met : base = rootBtreeBeg ∨ Meets key root base) :
    base ∈ root.separators := by
  rcases met with rfl | meets
  · exact absurd same spaced.lower.ne
  · exact meets.mem_separators

theorem Spaced.searchable {root : Node} {key : Base} {asof : Nat} (spaced : Spaced root key.lead asof) :
    Searchable root key := by
  refine .of_separators (rank_lt_iff.mpr (.inl spaced.lower)).le (rank_lt_iff.mpr (.inl spaced.upper)) ?_ ?_
  · intro one
    exact absurd (cmp_eq_one_iff.mp one).1 spaced.lower.ne'
  · intro base member one
    exact spaced.first base member (cmp_eq_one_iff.mp one).1.symm

/-- The separators that a search for the key does not pass. -/
def Node.separatorsUpto (root : Node) (key : Base) : Nat :=
  root.separators.countP fun base => decide (0 ≤ cmp key base)

theorem Node.separatorsUpto_lt {root : Node} {key next base : Base} (member : base ∈ root.separators)
    (reached : base.rank ≤ key.rank) (behind : next.rank < base.rank) :
    root.separatorsUpto next < root.separatorsUpto key := by
  refine countP_lt_countP (fun other _ le => ?_) member (decide_eq_true (cmp_nonneg_iff.mpr reached)) ?_
  · rw [decide_eq_true_iff, cmp_nonneg_iff] at le ⊢
    exact le.trans (behind.le.trans reached)
  · rw [decide_eq_false_iff_not, cmp_nonneg_iff, not_le]
    exact behind

/-- A lookup that has come to a time has passed over invisible records only. -/
structure Reached (root : Node) (key : Base) (asof : Nat) : Prop where
  start : key.createTid = asof ∨
    ∃ next ∈ root.separators, next.lead = key.lead ∧ next.createTid = key.createTid + 1
  newer : ∀ elm ∈ root.records, elm.base.lead = key.lead → key.rank < elm.base.rank →
    chkts asof elm.base ≠ 0

/-- A search that fails has noted a separator above every visible record of the key. -/
theorem Reached.missed {root : Node} {key : Base} {asof : Nat} {pos : Position} {path : List Base}
    (whole : root.Whole) (spaced : Spaced root key.lead asof) (reached : Reached root key asof)
    (lands : Lands root key (some asof) pos false) (trail : Trail root key pos path) {elm : LeafElm}
    (member : elm ∈ root.records) (same : elm.base.lead = key.lead) (visible : chkts asof elm.base = 0) :
    ∃ base ∈ path, cmp key base = 1 ∧ elm.base.rank < base.rank := by
  have below : elm.base.rank ≤ key.rank := by
    by_contra above
    exact reached.newer elm member same (not_le.mp above) visible
  obtain ⟨base, met, above⟩ := trail.above whole lands member same below (decide_eq_true visible)
  have le := trail.reached base met
  have lead : base.lead = key.lead := lead_eq_of_between same above le
  refine ⟨base, met, cmp_eq_one_iff.mpr ⟨lead.symm, ?_⟩, above⟩
  rcases le.lt_or_eq with lt | equal
  · rcases rank_lt_iff.mp lt with lt | ⟨_, tid⟩
    · exact absurd lead lt.ne
    · exact tid
  · have tid : base.createTid = key.createTid := tidRank_eq_iff.mp (rank_eq_iff.mp equal).2
    have start := reached.start
    rw [← tid, ← lead] at start
    have member' := spaced.mem_separators lead (trail.met base met)
    rw [← lead] at spaced same
    exact absurd visible (spaced.older base member' rfl start elm member same above)

/-- The next search of a lookup, from in front of the last separator that has been noted. -/
theorem Reached.next {root : Node} {key base : Base} {asof : Nat} {pos : Position} {path : List Base}
    (whole : root.Whole) (spaced : Spaced root key.lead asof) (reached : Reached root key asof)
    (lands : Lands root key (some asof) pos false) (trail : Trail root key pos path) (member : base ∈ path)
    (one : cmp key base = 1) (greatest : ∀ other ∈ path, cmp key other = 1 → other.rank ≤ base.rank) :
    Reached root (key.at (base.createTid - 1)) asof ∧
      root.separatorsUpto (key.at (base.createTid - 1)) < root.separatorsUpto key := by
  obtain ⟨same, tid⟩ := cmp_eq_one_iff.mp one
  have bounds : base ∈ root.separators := spaced.mem_separators same.symm (trail.met base member)
  have positive : base.createTid ≠ 0 := by
    intro zero
    rw [zero, tidRank, if_pos rfl] at tid
    exact not_top_lt tid
  have large : base.createTid ≠ 1 := spaced.first base bounds same.symm
  have less : tidRank (base.createTid - 1) < tidRank base.createTid :=
    tidRank_lt_iff.mpr ⟨by omega, .inr (by omega)⟩
  have smaller : (key.at (base.createTid - 1)).rank < base.rank := rank_lt_iff.mpr (.inr ⟨same, less⟩)
  refine ⟨⟨.inr ⟨base, bounds, same.symm, by rw [Base.at_createTid]; omega⟩, ?_⟩,
    Node.separatorsUpto_lt bounds (trail.reached base member) smaller⟩
  intro elm elmMember elmSame above visible
  obtain ⟨other, otherMember, otherOne, below⟩ :=
    reached.missed whole spaced lands trail elmMember elmSame visible
  have between := below.trans_le (greatest other otherMember otherOne)
  rw [rank_lt_iff, Base.at_lead] at above
  rw [rank_lt_iff] at between
  have lower : tidRank (base.createTid - 1) < tidRank elm.base.createTid := by
    rcases above with lt | ⟨_, tid⟩
    · exact absurd elmSame lt.ne'
    · exact tid
  have upper : tidRank elm.base.createTid < tidRank base.createTid := by
    rcases between with lt | ⟨_, tid⟩
    · exact absurd (elmSame.trans same) lt.ne
    · exact tid
  rw [tidRank_lt_iff] at lower upper
  omega

/-- The loop of a lookup comes back, and if it fails then no record of the key is visible. -/
theorem lookupAsof_done {root : Node} {scan : Scan} {fuel tries asof : Nat} (whole : root.Whole)
    (sits : Sits root scan.pos.node scan.pos.above) (time : scan.asof = some asof)
    (spaced : Spaced root scan.keyBeg.lead asof) (reached : Reached root scan.keyBeg asof)
    (enough : root.cost < fuel) (many : root.separatorsUpto scan.keyBeg < tries) :
    ∃ pos found tid check, lookupAsof fuel tries scan =
        .done ({ scan with keyBeg := scan.keyBeg.at tid, createCheck := check }.goto pos,
          if found then none else some .enoent) ∧
      Lands root (scan.keyBeg.at tid) (some asof) pos found ∧ Reached root (scan.keyBeg.at tid) asof ∧
      (found = false → ∀ elm ∈ root.records, elm.base.lead = scan.keyBeg.lead → chkts asof elm.base ≠ 0) := by
  induction tries generalizing scan with
  | zero => exact absurd many (Nat.not_lt_zero _)
  | succ tries ih =>
      obtain ⟨pos, found, path, done, lands, trail⟩ :=
        @search_done root { scan with createCheck := none } fuel whole sits spaced.searchable enough
      have lands : Lands root scan.keyBeg (some asof) pos found := time ▸ lands
      have trail : Trail root scan.keyBeg pos path := trail
      rw [lookupAsof, done]
      cases found with
      | true => exact ⟨pos, true, scan.keyBeg.createTid, _, rfl, lands, reached, nofun⟩
      | false =>
          rcases @noted_of_sorted scan.keyBeg path trail.sorted none with
            ⟨kept, never⟩ | ⟨base, member, one, noted, greatest⟩
          · refine ⟨pos, false, scan.keyBeg.createTid, none, ?_, lands, reached, ?_⟩
            · simp only [Outcome.bind, Scan.noting, kept]
              rfl
            · intro _ elm member same visible
              obtain ⟨base, met, one, _⟩ := reached.missed whole spaced lands trail member same visible
              exact never base met one
          · obtain ⟨next, fewer⟩ := reached.next whole spaced lands trail member one greatest
            obtain ⟨last, found, tid, check, rest, answer⟩ :=
              @ih { scan with
                pos := pos, createCheck := some (base.createTid - 1),
                keyBeg := scan.keyBeg.at (base.createTid - 1) } lands.sits time spaced next
                (show root.separatorsUpto (scan.keyBeg.at (base.createTid - 1)) < tries by omega)
            refine ⟨last, found, tid, check, ?_, answer⟩
            simp only [Outcome.bind, Scan.noting, noted]
            exact rest

/-- The time of a record is none of those that no record has. -/
theorem reached_start {root : Node} {key : Base} {asof : Nat}
    (stamped : ∀ elm ∈ root.records, elm.base.createTid ≠ 0) : Reached root (key.at asof) asof := by
  refine ⟨.inl rfl, fun elm member same above => ?_⟩
  have stamp := stamped elm member
  rcases rank_lt_iff.mp above with lt | ⟨_, tid⟩
  · exact absurd same lt.ne'
  · rw [tidRank_lt_iff, Base.at_createTid] at tid
    rw [chkts, if_neg tid.1, if_pos (by omega)]
    omega

/-- An as-of lookup finds a visible record of the key if there is one. -/
theorem lookup_asof {root : Node} {scan : Scan} {fuel asof : Nat} (whole : root.Whole)
    (sits : Sits root scan.pos.node scan.pos.above) (time : scan.asof = some asof)
    (spaced : Spaced root scan.keyBeg.lead asof) (stamped : ∀ elm ∈ root.records, elm.base.createTid ≠ 0)
    (enough : root.cost < fuel) :
    ∃ pos found tid check, lookup fuel scan =
        .done ({ scan with
            iterateCheck := false, keyBeg := scan.keyBeg.at tid, createCheck := check }.goto pos,
          if found then none else some .enoent) ∧
      Lands root (scan.keyBeg.at tid) (some asof) pos found ∧
      (found = false → ∀ elm ∈ root.records, elm.base.lead = scan.keyBeg.lead → chkts asof elm.base ≠ 0) := by
  have few : root.separatorsUpto (scan.keyBeg.at asof) < fuel := by
    have count : root.separatorsUpto (scan.keyBeg.at asof) ≤ root.separators.length := List.countP_le_length
    have length := whole.separators_length_le
    omega
  obtain ⟨pos, found, tid, check, done, lands, _, missing⟩ :=
    @lookupAsof_done root { scan with iterateCheck := false, keyBeg := scan.keyBeg.at asof } fuel fuel asof
      whole sits time spaced (reached_start stamped) enough few
  have looked : lookup fuel scan =
      lookupAsof fuel fuel { scan with iterateCheck := false, keyBeg := scan.keyBeg.at asof } := by
    rw [lookup, time]
    rfl
  exact ⟨pos, found, tid, check, looked.trans done, lands, missing⟩

/-- An as-of lookup that has succeeded is at a visible record of the key. -/
theorem Lands.accepted_asof {root : Node} {key : Base} {asof : Nat} {pos : Position}
    (lands : Lands root key (some asof) pos true) : ∃ head elms elm,
      pos.node = .leaf head elms ∧ elms[pos.index]? = some elm ∧ elm.base.lead = key.lead ∧
        chkts asof elm.base = 0 := by
  obtain ⟨head, elms, elm, node, here, le, close, accepts⟩ := lands.accepted
  refine ⟨head, elms, elm, node, here, (lead_le_of_rank_le le).antisymm ?_, of_decide_eq_true accepts⟩
  rw [← not_lt, ← one_lt_cmp_iff]
  omega

/-- Ahead of an as-of lookup is nothing in front of the key but its creation time. -/
theorem Lands.lead_le_ahead {root : Node} {key : Base} {asof : Nat} {pos : Position} {found : Bool}
    (whole : root.Whole) (lands : Lands root key (some asof) pos found) :
    ∀ elm ∈ pos.ahead, key.lead ≤ elm.base.lead := by
  intro elm member
  cases found with
  | false => exact lead_le_of_rank_le (lands.lt_ahead whole elm member).le
  | true =>
      obtain ⟨head, elms, first, node, here, same, _⟩ := lands.accepted_asof
      have sorted := lands.sits.ahead_sorted whole
      obtain ⟨posNode, index, above⟩ := pos
      obtain rfl : posNode = .leaf head elms := node
      rw [ahead_leaf head above here] at sorted member
      rcases List.mem_cons.mp member with rfl | member
      · exact same.ge
      · exact same.ge.trans (lead_le_of_rank_le ((List.pairwise_cons.mp sorted).1 elm member).le)

/-- A range with room for a key has room for all of its times. -/
theorem Scan.beyond_of_lead {scan : Scan} {base : Base} (room : scan.beyond (scan.keyBeg.at 0) = false)
    (same : base.lead = scan.keyBeg.lead) : scan.beyond base = false := by
  by_contra behind
  have last : base.rank ≤ (scan.keyBeg.at 0).rank := by
    rw [← not_lt, rank_lt_iff, not_or, Base.at_lead]
    exact ⟨same.not_gt, fun between => (tidRank_lt_iff.mp between.2).1 rfl⟩
  have contrary := Scan.beyond_mono (eq_true_of_ne_false behind) last
  rw [room] at contrary
  contradiction

/-- Nothing of a key is in front of its first time. -/
theorem cmp_at_one_iff {key base : Base} : cmp (key.at 1) base ≤ 0 ↔ key.lead ≤ base.lead := by
  rw [cmp_nonpos_iff, ← not_lt, rank_lt_iff, Base.at_lead, not_or, not_lt]
  refine ⟨fun both => both.1, fun le => ⟨le, fun between => ?_⟩⟩
  have tid := between.2
  rw [tidRank_lt_iff, Base.at_createTid] at tid
  omega

/-- A scan in the past returns the records of its range that were visible, in order, if at most one
record of its first key was. -/
theorem forwardScan_asof {root : Node} {scan : Scan} {fuel passes asof : Nat} (whole : root.Whole)
    (sits : Sits root scan.pos.node scan.pos.above) (time : scan.asof = some asof)
    (spaced : Spaced root scan.keyBeg.lead asof) (stamped : ∀ elm ∈ root.records, elm.base.createTid ≠ 0)
    (single : ∀ elm ∈ root.records, ∀ other ∈ root.records, elm.base.lead = scan.keyBeg.lead →
      other.base.lead = scan.keyBeg.lead → chkts asof elm.base = 0 → chkts asof other.base = 0 → elm = other)
    (room : scan.beyond (scan.keyBeg.at 0) = false) (plain : scan.reblocking = false)
    (unfiltered : scan.cmirror = none) (enough : root.cost < fuel) (many : root.records.length < passes) :
    forwardScan fuel passes scan =
      .done (root.records.filter ({ scan with keyBeg := scan.keyBeg.at 1 } : Scan).wants, .enoent) := by
  obtain ⟨pos, found, tid, check, done, lands, missing⟩ := lookup_asof whole sits time spaced stamped enough
  have split := lands.sits.before_append_ahead
  have sorted := whole.records_sorted.1
  rw [← split, List.pairwise_append] at sorted
  have invisible : ∀ base, scan.invisible base = decide (chkts asof base ≠ 0) := by
    intro base
    rw [Scan.invisible, time]
  have front : pos.before.filter ({ scan with keyBeg := scan.keyBeg.at 1 } : Scan).wants = [] := by
    refine List.filter_eq_nil_iff.mpr fun elm member wanted => ?_
    have inside : elm ∈ root.records := split ▸ List.mem_append_left _ member
    obtain ⟨inRange, visible⟩ := Bool.and_eq_true_iff.mp wanted
    have same : elm.base.lead = scan.keyBeg.lead :=
      (lead_le_of_rank_le (lands.before_le whole elm member)).antisymm
        (cmp_at_one_iff.mp (of_decide_eq_true (Bool.and_eq_true_iff.mp inRange).1))
    have zero : chkts asof elm.base = 0 := by
      have seen : scan.invisible elm.base = false := (Bool.not_eq_true' _).mp visible
      simpa [invisible] using seen
    cases found with
    | false => exact missing rfl elm inside same zero
    | true =>
        obtain ⟨head, elms, first, node, here, firstSame, firstZero⟩ := lands.accepted_asof
        have ahead : first ∈ pos.ahead := by
          obtain ⟨posNode, index, above⟩ := pos
          obtain rfl : posNode = .leaf head elms := node
          rw [ahead_leaf head above here]
          exact List.mem_cons_self
        have lt := sorted.2.2 elm member first ahead
        have equal := single elm inside first (split ▸ List.mem_append_right _ ahead) same firstSame zero firstZero
        exact lt.ne (congrArg (·.base.rank) equal)
  have back : pos.ahead.filter ({ scan with keyBeg := scan.keyBeg.at 1 } : Scan).wants =
      pos.ahead.filter fun elm => !scan.beyond elm.base && !scan.invisible elm.base := by
    refine List.filter_congr fun elm member => ?_
    have above : cmp (scan.keyBeg.at 1) elm.base ≤ 0 :=
      cmp_at_one_iff.mpr (lands.lead_le_ahead whole elm member)
    have same : ({ scan with keyBeg := scan.keyBeg.at 1 } : Scan).wants elm =
      ((decide (cmp (scan.keyBeg.at 1) elm.base ≤ 0) && !scan.beyond elm.base) && !scan.invisible elm.base) := rfl
    rw [same, decide_eq_true above, Bool.true_and]
  have short : pos.ahead.length < passes := by
    rw [← split, List.length_append] at many
    omega
  rw [← split, List.filter_append, front, back, List.nil_append]
  refine @forwardScan_of_lookup root scan fuel passes pos
    { scan with iterateCheck := false, keyBeg := scan.keyBeg.at tid, createCheck := check } found whole done rfl
    plain unfiltered enough (lands.stands whole) ?_ short
  rintro rfl
  obtain ⟨head, elms, elm, node, here, same, visible⟩ := lands.accepted_asof
  refine ⟨head, elms, elm, node, here, Scan.beyond_of_lead room same, (invisible elm.base).trans ?_⟩
  simp [visible]

/-- The first search at time 28 ends behind the separator of the versions, and the second in front of it. -/
theorem forwardScan_asof_versions :
    forwardScan 8 4 (versionScan (some 28)) =
      .done (versionTree.records.filter
        ({ versionScan (some 28) with keyBeg := (versionScan (some 28)).keyBeg.at 1 } : Scan).wants, .enoent) := by
  have lower : rootBtreeBeg.lead < (versionBase 1 4 0 .record).lead := one_lt_cmp_iff.mp (by decide)
  have upper : (versionBase 1 4 0 .record).lead < rootBtreeEnd.lead := one_lt_cmp_iff.mp (by decide)
  have spaced : Spaced versionTree (versionBase 1 4 0 .record).lead 28 := by
    refine ⟨lower, upper, ?_, ?_⟩
    · intro base member _
      have all : ∀ base ∈ versionTree.separators, base.createTid ≠ 1 := by decide
      exact all base member
    · intro base member _ start
      have all : ∀ base ∈ versionTree.separators, base.createTid ≠ 28 ∧
          ∀ next ∈ versionTree.separators, next.createTid ≠ base.createTid + 1 := by decide
      rcases start with same | ⟨next, nextMember, _, same⟩
      · exact absurd same (all base member).1
      · exact absurd same ((all base member).2 next nextMember)
  have single : ∀ elm ∈ versionTree.records, ∀ other ∈ versionTree.records,
      elm.base.lead = (versionBase 1 4 0 .record).lead → other.base.lead = (versionBase 1 4 0 .record).lead →
      chkts 28 elm.base = 0 → chkts 28 other.base = 0 → elm = other := by
    have all : ∀ elm ∈ versionTree.records, ∀ other ∈ versionTree.records, elm.base.key = 1 →
        other.base.key = 1 → chkts 28 elm.base = 0 → chkts 28 other.base = 0 → elm = other := by decide
    intro elm member other otherMember same otherSame
    exact all elm member other otherMember (lead_eq_iff.mp same).2.2.2 (lead_eq_iff.mp otherSame).2.2.2
  exact @forwardScan_asof versionTree (versionScan (some 28)) 8 4 28 versionTree_whole rfl rfl spaced (by decide)
    single (by decide) rfl rfl (by decide) (by decide)

end Dragonfly.Hammer.Btree
