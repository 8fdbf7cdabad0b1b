import Dragonfly.Kern.ByteRange.Clip
import Mathlib.Tactic.Set

/-!
# The clipping loop

The loop visits the owner's ranges from `first_match` to `last_match`.  Only the
first of them can start in front of the request and only the last one can end behind
it, so that the assertions of the loop hold and no range of the owner but `brange`
meets the request afterwards.
-/

namespace Dragonfly.Kern.ByteRange

open Dragonfly.Lib

variable {Owner : Type} [DecidableEq Owner]

/-- The loop does not pass over the range. -/
structure Clip.Due (clip : Clip Owner) (owner : Owner) (range : LockfRange Owner) : Prop where
  owned : range.lfOwner = owner
  alive : clip.isDead range = false
  ne : clip.brange.map LockfRange.addr ≠ some range.addr

/-- The loop stands in front of `rest`. -/
structure Sweeping (request : Request Owner) (before : List (LockfRange Owner))
    (clip : Clip Owner) (rest : List (LockfRange Owner)) : Prop where
  carving : Carving request before clip
  live : (rest.filter fun range => !clip.isDead range) <:+ clip.ranges
  alive : ∀ range ∈ clip.ranges, clip.isDead range = false
  apart : rest.Pairwise fun x y => x.addr ≠ y.addr
  pending : ∀ x, clip.Old request.owner x → request.Meets x → x ∈ rest
  exact : ∀ brange, clip.brange = some brange → brange.lfEnd = request.stop

/-- The update once the loop is over. -/
structure Swept (request : Request Owner) (before : List (LockfRange Owner)) (clip : Clip Owner) :
    Prop where
  carving : Carving request before clip
  clear : ∀ x, clip.Old request.owner x → ¬request.Meets x

/-- `clip` after `wakeup_needed` has been looked at for a range. -/
def Clip.noting (clip : Clip Owner) (request : Request Owner) (range : LockfRange Owner) :
    Clip Owner :=
  { clip with wakeupNeeded := clip.wakeupNeeded || wakes request range }

omit [DecidableEq Owner] in
theorem Clip.old_noting {clip : Clip Owner} {owner : Owner} {request : Request Owner}
    {range x : LockfRange Owner} : (clip.noting request range).Old owner x ↔ clip.Old owner x :=
  ⟨fun old => ⟨old.mem, old.owned, old.ne⟩, fun old => ⟨old.mem, old.owned, old.ne⟩⟩

namespace Sweeping

omit [DecidableEq Owner]

variable {request : Request Owner} {before : List (LockfRange Owner)} {clip : Clip Owner}
  {range : LockfRange Owner} {rest : List (LockfRange Owner)}

theorem noting (sweeping : Sweeping request before clip rest) (range : LockfRange Owner) :
    Sweeping request before (clip.noting request range) rest where
  carving := sweeping.carving.congr rfl rfl
  live := sweeping.live
  alive := sweeping.alive
  apart := sweeping.apart
  pending x old := sweeping.pending x ((Clip.old_noting).mp old)
  exact := sweeping.exact

theorem old_of_due (sweeping : Sweeping request before clip (range :: rest))
    (due : clip.Due request.owner range) : clip.Old request.owner range where
  mem := by
    refine sweeping.live.subset ?_
    simp [due.alive]
  owned := due.owned
  ne := due.ne

theorem skip (sweeping : Sweeping request before clip (range :: rest))
    (notDue : ¬clip.Due request.owner range) : Sweeping request before clip rest where
  carving := sweeping.carving
  live := by
    refine List.IsSuffix.trans ?_ sweeping.live
    rw [List.filter_cons]
    split
    · exact List.suffix_cons _ _
    · exact List.suffix_rfl
  alive := sweeping.alive
  apart := sweeping.apart.of_cons
  pending := by
    intro x old meets
    rcases List.mem_cons.mp (sweeping.pending x old meets) with rfl | later
    · exact absurd ⟨old.owned, sweeping.alive x old.mem, old.ne⟩ notDue
    · exact later
  exact := sweeping.exact

/-- What lies in front of and behind a range that the loop has reached. -/
theorem split (sweeping : Sweeping request before clip (range :: rest))
    (due : clip.Due request.owner range) :
    ∃ front, clip.ranges = front ++ range :: (rest.filter fun other => !clip.isDead other) ∧
      (∀ other ∈ front, other.addr ≠ range.addr) ∧
      ∀ other ∈ rest, other.addr ≠ range.addr := by
  obtain ⟨front, shape⟩ := sweeping.live
  rw [List.filter_cons_of_pos (by simp [due.alive])] at shape
  have distinct := sweeping.carving.distinct
  rw [← shape, List.pairwise_append] at distinct
  refine ⟨front, shape.symm, ?_, ?_⟩
  · intro other member
    exact distinct.2.2 other member range List.mem_cons_self
  · intro other member
    exact ((List.pairwise_cons.mp sweeping.apart).1 other member).symm

theorem remove_eq (sweeping : Sweeping request before clip (range :: rest))
    (due : clip.Due request.owner range) :
    ∃ front, clip.ranges = front ++ range :: (rest.filter fun other => !clip.isDead other) ∧
      Keyed.remove LockfRange.addr range.addr clip.ranges =
        front ++ rest.filter fun other => !clip.isDead other := by
  obtain ⟨front, shape, frontNe, restNe⟩ := sweeping.split due
  refine ⟨front, shape, ?_⟩
  have keepFront : front.filter (fun item => decide (item.addr ≠ range.addr)) = front := by
    rw [List.filter_eq_self]
    simpa using frontNe
  have keepRest : (rest.filter fun other => !clip.isDead other).filter
      (fun item => decide (item.addr ≠ range.addr)) = rest.filter fun other => !clip.isDead other := by
    rw [List.filter_eq_self]
    intro other member
    simpa using restNe other (List.mem_of_mem_filter member)
  rw [Keyed.remove, shape, List.filter_append, List.filter_cons_of_neg (by simp), keepFront, keepRest]

/-- A range of the owner that still has to be visited is not the one reached. -/
theorem later (sweeping : Sweeping request before clip (range :: rest)) {x : LockfRange Owner}
    (old : clip.Old request.owner x) (different : x.addr ≠ range.addr) (meets : request.Meets x) :
    x ∈ rest := by
  rcases List.mem_cons.mp (sweeping.pending x old meets) with rfl | later
  · exact absurd rfl different
  · exact later

theorem destroy (sweeping : Sweeping request before clip (range :: rest))
    (due : clip.Due request.owner range) (start : request.start ≤ range.lfStart)
    (stop : range.lfEnd ≤ request.stop) :
    Sweeping request before (clip.destroy range) rest := by
  have old := sweeping.old_of_due due
  have isDead : ∀ other, (clip.destroy range).isDead other =
      (clip.isDead other || decide (range.addr = other.addr)) := by
    intro other
    simp [Clip.isDead, Clip.destroy]
  obtain ⟨front, shape, removed⟩ := sweeping.remove_eq due
  obtain ⟨-, -, -, restNe⟩ := sweeping.split due
  constructor
  case carving =>
    refine sweeping.carving.destroy old ?_
    intro byte has
    exact ⟨start.trans has.1, has.2.trans stop⟩
  case live =>
    have same : (rest.filter fun other => !(clip.destroy range).isDead other) =
        rest.filter fun other => !clip.isDead other := by
      refine List.filter_congr ?_
      intro other member
      simp [isDead, (restNe other member).symm]
    rw [same, Clip.destroy, removed]
    exact List.suffix_append _ _
  case alive =>
    intro other member
    rw [Clip.destroy, Keyed.mem_remove] at member
    simp [isDead, sweeping.alive other member.1, member.2.symm]
  case apart => exact sweeping.apart.of_cons
  case pending =>
    intro x oldX meets
    have member := oldX.mem
    rw [Clip.destroy, Keyed.mem_remove] at member
    exact sweeping.later ⟨member.1, oldX.owned, oldX.ne⟩ member.2 meets
  case exact => exact sweeping.exact

/-- Nothing is left to do when no later range of the owner meets the request. -/
theorem swept (sweeping : Sweeping request before clip rest)
    (clear : ∀ x ∈ rest, clip.Old request.owner x → ¬request.Meets x) :
    Swept request before clip where
  carving := sweeping.carving
  clear x old meets := clear x (sweeping.pending x old meets) old meets

/-- Insertion from the range behind the one that is moved keeps the list sorted. -/
theorem reinsert_sorted (sweeping : Sweeping request before clip (range :: rest))
    (due : clip.Due request.owner range) (start : range.lfStart ≤ request.stop) :
    (lfInsert (Keyed.remove LockfRange.addr range.addr clip.ranges)
      { range with lfStart := request.stop + 1 }
      ((rest.find? fun other => !clip.isDead other).map LockfRange.addr)).Pairwise
        fun x y => x.lfStart ≤ y.lfStart := by
  obtain ⟨front, shape, removed⟩ := sweeping.remove_eq due
  have sorted := sweeping.carving.sorted
  have distinct := sweeping.carving.distinct
  rw [shape, List.pairwise_append] at sorted distinct
  refine lfInsert_sorted (Keyed.pairwise_remove sweeping.carving.sorted) ?_
  intro other member ahead
  -- `other` stands in front of the range that is moved
  have inFront : other ∈ front := by
    rw [removed] at member ahead
    rw [← List.head?_filter] at ahead
    cases later : rest.filter fun other => !clip.isDead other with
    | nil => simpa [later] using member
    | cons next tail =>
        have prefixed := ahead next.addr (by simp [later])
        rw [later, Keyed.upTo, List.takeWhile_append_of_pos, List.takeWhile_cons_of_neg (by simp),
          List.append_nil] at prefixed
        · exact prefixed
        · intro earlier earlierMem
          have different := distinct.2.2 earlier earlierMem next (by simp [later])
          simpa using different
  have le := sorted.2.2 other inFront range List.mem_cons_self
  show other.lfStart ≤ request.stop + 1
  omega

theorem clipRight (sweeping : Sweeping request before clip (range :: rest))
    (due : clip.Due request.owner range) (start : request.start ≤ range.lfStart)
    (stop : request.stop < range.lfEnd)
    (clear : ∀ x ∈ rest, clip.Old request.owner x → ¬request.Meets x) :
    Swept request before (clip.clipRight request range
      ((rest.find? fun other => !clip.isDead other).map LockfRange.addr)) := by
  have old := sweeping.old_of_due due
  have carving := sweeping.carving
  have remaining : ∀ x, clip.Old request.owner x → x.addr ≠ range.addr → ¬request.Meets x := by
    intro x oldX different meets
    exact clear x (sweeping.later oldX different meets) oldX meets
  have cut : Swept request before (Clip.clipRight.cut clip request range
      ((rest.find? fun other => !clip.isDead other).map LockfRange.addr)) := by
    unfold Clip.clipRight.cut
    split
    case isTrue overlaps =>
      constructor
      case carving =>
        refine carving.trim old [{ range with lfStart := request.stop + 1 }] rfl
          (by simp) (sweeping.reinsert_sorted due overlaps) ?_ ?_ ?_ ?_
        · refine lfInsert_distinct (Keyed.pairwise_remove carving.distinct) ?_
          intro other member
          exact ((Keyed.mem_remove).mp member).2
        · simp only [List.mem_singleton, forall_eq, LockfRange.Has, true_and]
          exact ⟨by omega, by omega⟩
        · simp
        · simp only [LockfRange.Has, Request.Has, List.mem_singleton, exists_eq_left]
          omega
      case clear =>
        intro x oldX meets
        rcases (mem_lfInsert).mp oldX.mem with rfl | member
        · have := meets.1
          dsimp only at this
          omega
        · rw [Keyed.mem_remove] at member
          exact remaining x ⟨member.1, oldX.owned, oldX.ne⟩ member.2 meets
    case isFalse apart =>
      refine ⟨carving, ?_⟩
      intro x oldX
      by_cases same : x.addr = range.addr
      · rw [Keyed.eq_of_mem_of_key carving.distinct oldX.mem old.mem same]
        exact fun meets => apart meets.1
      · exact remaining x oldX same
  unfold Clip.clipRight
  cases is : clip.brange with
  | none => exact cut
  | some brange =>
      dsimp only
      split
      case isFalse => exact cut
      case isTrue merge =>
        simp only [lfMatch, Bool.and_eq_true, decide_eq_true_eq, beq_iff_eq] at merge
        obtain ⟨member, owned, type, left, right⟩ := carving.primary brange is
        have joins : Joins brange range :=
          { owner := owned.trans due.owned.symm
            type := type.trans merge.2.1.symm
            addr := by simpa [is] using due.ne
            start := left.trans start
            reach := by rw [sweeping.exact brange is]; exact merge.1
            stop := by rw [sweeping.exact brange is]; exact stop.le }
        constructor
        case carving => exact carving.absorb member old.mem owned joins (.inl is)
        case clear =>
          intro x oldX
          obtain ⟨oldX, -, different⟩ := Clip.old_of_absorb member joins.addr (.inl is) oldX
          exact remaining x oldX different

/-- The list with another value for the range that the loop has reached. -/
theorem replace_eq (sweeping : Sweeping request before clip (range :: rest))
    (due : clip.Due request.owner range) (item : LockfRange Owner) (addr : item.addr = range.addr) :
    ∃ front, Keyed.replace LockfRange.addr item clip.ranges =
      front ++ item :: rest.filter fun other => !clip.isDead other := by
  obtain ⟨front, shape, frontNe, restNe⟩ := sweeping.split due
  refine ⟨front, ?_⟩
  have unchanged : ∀ (items : List (LockfRange Owner)), (∀ other ∈ items, other.addr ≠ range.addr) →
      Keyed.replace LockfRange.addr item items = items := by
    intro items ne
    refine (List.map_congr_left ?_).trans (List.map_id _)
    intro other member
    simp [addr, ne other member]
  have frontEq := unchanged front frontNe
  have restEq := unchanged (rest.filter fun other => !clip.isDead other)
    (fun other member => restNe other (List.mem_of_mem_filter member))
  unfold Keyed.replace at frontEq restEq ⊢
  rw [shape, List.map_append, List.map_cons, frontEq, restEq, if_pos addr.symm]

/-- The range is cut off in front of the request. -/
theorem cutLeft (sweeping : Sweeping request before clip (range :: rest))
    (due : clip.Due request.owner range) (start : range.lfStart < request.start)
    (stop : range.lfEnd ≤ request.stop) :
    Sweeping request before (Clip.clipLeft.cut clip request range) rest := by
  have old := sweeping.old_of_due due
  have carving := sweeping.carving
  unfold Clip.clipLeft.cut
  split
  case isTrue overlaps =>
    set item : LockfRange Owner :=
      { range with
        lfEnd := request.start - 1
        lfFlags := { range.lfFlags with
          noend := range.lfFlags.noend && request.type == .unlck } } with itemEq
    have present : ∃ old ∈ clip.ranges, old.addr = item.addr := ⟨range, old.mem, rfl⟩
    have mem : ∀ x, x ∈ Keyed.replace LockfRange.addr item clip.ranges ↔
        x ∈ [item] ∨ x ∈ clip.ranges ∧ x.addr ≠ range.addr := by
      intro x
      rw [Keyed.mem_replace present, List.mem_singleton]
    constructor
    case carving =>
      refine carving.trim old [item] rfl mem (carving.replace_sorted item old.mem rfl rfl)
        (Clip.replace_distinct carving.distinct) ?_ ?_ ?_
      · simp only [List.mem_singleton, forall_eq, LockfRange.Has, itemEq, true_and]
        exact ⟨by omega, by omega⟩
      · simp
      · simp only [LockfRange.Has, Request.Has, List.mem_singleton, exists_eq_left, itemEq]
        omega
    case live =>
      obtain ⟨front, shape⟩ := sweeping.replace_eq due item rfl
      rw [shape]
      exact ⟨front ++ [item], by simp [Clip.isDead]⟩
    case alive =>
      intro other member
      rcases (mem other).mp member with isItem | ⟨member, -⟩
      · rw [List.mem_singleton.mp isItem]
        exact due.alive
      · exact sweeping.alive other member
    case apart => exact sweeping.apart.of_cons
    case pending =>
      intro x oldX meets
      rcases (mem x).mp oldX.mem with isItem | ⟨member, different⟩
      · rw [List.mem_singleton.mp isItem] at meets
        have := meets.2
        simp only [itemEq] at this
        omega
      · exact sweeping.later ⟨member, oldX.owned, oldX.ne⟩ different meets
    case exact => exact sweeping.exact
  case isFalse apart =>
    constructor
    case carving => exact carving
    case live => exact (List.suffix_cons _ _).trans (by simpa [due.alive] using sweeping.live)
    case alive => exact sweeping.alive
    case apart => exact sweeping.apart.of_cons
    case pending =>
      intro x oldX meets
      refine sweeping.later oldX ?_ meets
      intro same
      rw [Keyed.eq_of_mem_of_key carving.distinct oldX.mem old.mem same] at meets
      exact apart meets.2
    case exact => exact sweeping.exact

/-- The range takes over from `brange`. -/
theorem absorbLeft (sweeping : Sweeping request before clip (range :: rest))
    (due : clip.Due request.owner range) {brange : LockfRange Owner}
    (is : clip.brange = some brange) (joins : Joins range brange) :
    Sweeping request before (clip.absorb range brange) rest := by
  have old := sweeping.old_of_due due
  have member := (sweeping.carving.primary brange is).1
  have isDead : ∀ other, (clip.absorb range brange).isDead other =
      (clip.isDead other || decide (brange.addr = other.addr)) := by
    intro other
    simp [Clip.isDead, Clip.absorb]
  constructor
  case carving => exact sweeping.carving.absorb old.mem member due.owned joins (.inr is)
  case live =>
    obtain ⟨front, shape⟩ := sweeping.replace_eq due (extend range brange) rfl
    have live : (rest.filter fun other => !(clip.absorb range brange).isDead other) =
        Keyed.remove LockfRange.addr brange.addr (rest.filter fun other => !clip.isDead other) := by
      rw [Keyed.remove, List.filter_filter]
      refine List.filter_congr ?_
      intro other _
      simp [isDead, Bool.and_comm, eq_comm]
    have keeps : (extend range brange).addr ≠ brange.addr := joins.addr
    rw [live, Clip.absorb, shape, Keyed.remove_append, Keyed.remove_cons_of_ne keeps]
    exact ⟨_, List.append_cons _ _ _ |>.symm⟩
  case alive =>
    intro other otherMem
    rcases (Clip.mem_absorb old.mem joins.addr).mp otherMem with rfl | ⟨otherMem, -, notGone⟩
    · have alive : clip.isDead (extend range brange) = false := due.alive
      simp [isDead, alive, joins.addr.symm]
    · simp [isDead, sweeping.alive other otherMem, notGone.symm]
  case apart => exact sweeping.apart.of_cons
  case pending =>
    intro x oldX meets
    obtain ⟨oldX, notKeep, -⟩ := Clip.old_of_absorb old.mem joins.addr (.inr is) oldX
    exact sweeping.later oldX notKeep meets
  case exact =>
    rintro kept ⟨⟩
    exact sweeping.exact brange is

/-- The range that starts in front of the request. -/
theorem clipLeft (sweeping : Sweeping request before clip (range :: rest))
    (due : clip.Due request.owner range) (start : range.lfStart < request.start)
    (stop : range.lfEnd ≤ request.stop)
    (fresh : ∀ brange, clip.brange = some brange → brange.lfStart = request.start) :
    Sweeping request before (clip.clipLeft request range) rest := by
  have cut := sweeping.cutLeft due start stop
  unfold Clip.clipLeft
  cases is : clip.brange with
  | none => exact cut
  | some brange =>
      dsimp only
      split
      case isFalse => exact cut
      case isTrue merge =>
        simp only [lfMatch, Bool.and_eq_true, decide_eq_true_eq, beq_iff_eq] at merge
        obtain ⟨-, owned, type, -, -⟩ := sweeping.carving.primary brange is
        refine sweeping.absorbLeft due is ?_
        constructor
        case owner => exact due.owned.trans owned.symm
        case type => exact merge.2.1.trans type.symm
        case addr => simpa [is, eq_comm] using due.ne
        case start => rw [fresh brange is]; exact start.le
        case reach => rw [fresh brange is]; omega
        case stop => rw [sweeping.exact brange is]; exact stop

end Sweeping

/-- What the loop does to `wakeup_needed` and to `count` on its way from `clip` to
`after` over the ranges `visited`. -/
structure Tally (request : Request Owner) (clip after : Clip Owner)
    (visited : List (LockfRange Owner)) : Prop where
  addrs : ∀ x ∈ after.ranges, ∃ y ∈ clip.ranges, y.addr = x.addr
  kept : clip.wakeupNeeded = true → after.wakeupNeeded = true
  noted : ∀ x ∈ visited, clip.Due request.owner x → wakes request x = true →
    after.wakeupNeeded = true
  count_le : after.count ≤ clip.count
  count_lt : request.flags.posix = true → clip.brange ≠ none → ∀ x ∈ visited,
    clip.Due request.owner x → lfMatch x request.type request.flags = true →
    after.count + 1 ≤ clip.count

section Tally

omit [DecidableEq Owner]

theorem lfMatch_posix {range : LockfRange Owner} {type : LockType} {flags : Flags}
    (same : lfMatch range type flags = true) : range.lfFlags.posix = flags.posix := by
  simp only [lfMatch, Bool.and_eq_true, beq_iff_eq] at same
  exact same.2

namespace Clip

variable (clip : Clip Owner) (request : Request Owner) (range : LockfRange Owner)

theorem addr_absorb (keep gone : LockfRange Owner) :
    ∀ x ∈ (clip.absorb keep gone).ranges, ∃ y ∈ clip.ranges, y.addr = x.addr := by
  intro x member
  exact Keyed.key_of_mem_replace ((Keyed.mem_remove).mp member).1

theorem addr_clipLeft :
    ∀ x ∈ (clip.clipLeft request range).ranges, ∃ y ∈ clip.ranges, y.addr = x.addr := by
  have cut : ∀ x ∈ (clipLeft.cut clip request range).ranges, ∃ y ∈ clip.ranges, y.addr = x.addr := by
    intro x member
    unfold clipLeft.cut at member
    split at member
    · exact Keyed.key_of_mem_replace member
    · exact ⟨x, member, rfl⟩
  unfold clipLeft
  repeat' split
  · exact clip.addr_absorb _ _
  · exact cut
  · exact cut

theorem addr_clipRight (next : Option Nat) (listed : range ∈ clip.ranges) :
    ∀ x ∈ (clip.clipRight request range next).ranges, ∃ y ∈ clip.ranges, y.addr = x.addr := by
  have cut : ∀ x ∈ (clipRight.cut clip request range next).ranges,
      ∃ y ∈ clip.ranges, y.addr = x.addr := by
    intro x member
    unfold clipRight.cut at member
    split at member
    · rcases (mem_lfInsert).mp member with rfl | member
      · exact ⟨range, listed, rfl⟩
      · exact ⟨x, ((Keyed.mem_remove).mp member).1, rfl⟩
    · exact ⟨x, member, rfl⟩
  unfold clipRight
  repeat' split
  · exact clip.addr_absorb _ _
  · exact cut
  · exact cut

theorem count_absorb_le (keep gone : LockfRange Owner) :
    (clip.absorb keep gone).count ≤ clip.count := by
  simp only [absorb]
  split <;> omega

theorem count_destroy_le : (clip.destroy range).count ≤ clip.count := by
  simp only [destroy]
  split <;> omega

theorem wakeup_clipRight (next : Option Nat) :
    (clip.clipRight request range next).wakeupNeeded = clip.wakeupNeeded := by
  unfold clipRight clipRight.cut absorb
  split <;> (repeat' split) <;> rfl

theorem wakeup_clipLeft : (clip.clipLeft request range).wakeupNeeded = clip.wakeupNeeded := by
  unfold clipLeft clipLeft.cut absorb
  split <;> (repeat' split) <;> rfl

theorem count_clipRight_le (next : Option Nat) :
    (clip.clipRight request range next).count ≤ clip.count := by
  unfold clipRight clipRight.cut
  split <;> (repeat' split) <;> first | exact le_rfl | exact clip.count_absorb_le _ _

theorem count_clipLeft_le : (clip.clipLeft request range).count ≤ clip.count := by
  unfold clipLeft clipLeft.cut
  split <;> (repeat' split) <;> first | exact le_rfl | exact clip.count_absorb_le _ _

end Clip

theorem Tally.single {request : Request Owner} {clip after : Clip Owner}
    {range : LockfRange Owner}
    (addrs : ∀ x ∈ after.ranges, ∃ y ∈ clip.ranges, y.addr = x.addr)
    (wakeup : after.wakeupNeeded = (clip.noting request range).wakeupNeeded)
    (count_le : after.count ≤ clip.count)
    (count_lt : request.flags.posix = true → clip.brange ≠ none →
      lfMatch range request.type request.flags = true → after.count + 1 ≤ clip.count) :
    Tally request clip after [range] where
  addrs := addrs
  kept on := by simp [wakeup, Clip.noting, on]
  noted x member due on := by
    rw [List.mem_singleton.mp member] at on
    simp [wakeup, Clip.noting, on]
  count_le := count_le
  count_lt posix present x member due same :=
    count_lt posix present (List.mem_singleton.mp member ▸ same)

theorem Tally.destroy {request : Request Owner} {clip : Clip Owner} {range : LockfRange Owner} :
    Tally request clip ((clip.noting request range).destroy range) [range] := by
  refine .single ?_ rfl ((clip.noting request range).count_destroy_le range) ?_
  · intro x member
    exact ⟨x, ((Keyed.mem_remove).mp member).1, rfl⟩
  · intro posix _ same
    simp [Clip.destroy, lfMatch_posix same, posix, Clip.noting]

/-- One more range in front of those visited. -/
theorem Tally.cons {request : Request Owner} {clip middle after : Clip Owner}
    {range : LockfRange Owner} {visited : List (LockfRange Owner)}
    (first : Tally request clip middle [range]) (rest : Tally request middle after visited)
    (brange : clip.brange ≠ none → middle.brange ≠ none)
    (due : ∀ x ∈ visited, clip.Due request.owner x → middle.Due request.owner x) :
    Tally request clip after (range :: visited) where
  addrs x member := by
    obtain ⟨y, yMem, equal⟩ := rest.addrs x member
    obtain ⟨z, zMem, equal'⟩ := first.addrs y yMem
    exact ⟨z, zMem, equal'.trans equal⟩
  kept on := rest.kept (first.kept on)
  noted x member dueX on := by
    rcases List.mem_cons.mp member with rfl | later
    · exact rest.kept (first.noted x (List.mem_singleton.mpr rfl) dueX on)
    · exact rest.noted x later (due x later dueX) on
  count_le := rest.count_le.trans first.count_le
  count_lt posix present x member dueX same := by
    have restLe := rest.count_le
    have firstLe := first.count_le
    rcases List.mem_cons.mp member with rfl | later
    · have := first.count_lt posix present x (List.mem_singleton.mpr rfl) dueX same
      omega
    · have := rest.count_lt posix (brange present) x later (due x later dueX) same
      omega

/-- A range the loop passes over. -/
theorem Tally.skip {request : Request Owner} {clip after : Clip Owner}
    {range : LockfRange Owner} {visited : List (LockfRange Owner)}
    (rest : Tally request clip after visited) (notDue : ¬clip.Due request.owner range) :
    Tally request clip after (range :: visited) where
  addrs := rest.addrs
  kept := rest.kept
  noted x member dueX on := by
    rcases List.mem_cons.mp member with rfl | later
    · exact absurd dueX notDue
    · exact rest.noted x later dueX on
  count_le := rest.count_le
  count_lt posix present x member dueX same := by
    rcases List.mem_cons.mp member with rfl | later
    · exact absurd dueX notDue
    · exact rest.count_lt posix present x later dueX same

section Left

variable {request : Request Owner} {before : List (LockfRange Owner)}

theorem Clip.due_noting {clip : Clip Owner} {range x : LockfRange Owner} :
    (clip.noting request range).Due request.owner x ↔ clip.Due request.owner x :=
  ⟨fun due => ⟨due.owned, due.alive, due.ne⟩, fun due => ⟨due.owned, due.alive, due.ne⟩⟩

/-- The ranges behind the first one are due before and after it is clipped. -/
theorem Clip.due_clipLeft {clip : Clip Owner} {range x : LockfRange Owner}
    (different : x.addr ≠ range.addr) :
    (clip.clipLeft request range).Due request.owner x ↔ clip.Due request.owner x := by
  have cut : (Clip.clipLeft.cut clip request range).Due request.owner x ↔
      clip.Due request.owner x := by
    unfold Clip.clipLeft.cut
    split
    · exact ⟨fun due => ⟨due.owned, due.alive, due.ne⟩, fun due => ⟨due.owned, due.alive, due.ne⟩⟩
    · exact Iff.rfl
  unfold Clip.clipLeft
  cases is : clip.brange with
  | none => exact cut
  | some brange =>
      dsimp only
      split
      case isFalse => exact cut
      case isTrue =>
        have isDead : (clip.absorb range brange).isDead x =
            (clip.isDead x || decide (brange.addr = x.addr)) := by
          simp [Clip.isDead, Clip.absorb]
        constructor
        · rintro ⟨owned, alive, -⟩
          rw [isDead, Bool.or_eq_false_iff, decide_eq_false_iff_not] at alive
          exact ⟨owned, alive.1, by simpa [is] using alive.2⟩
        · rintro ⟨owned, alive, ne⟩
          refine ⟨owned, ?_, by simpa [Clip.absorb] using different.symm⟩
          rw [isDead, alive, Bool.false_or, decide_eq_false_iff_not]
          simpa [is] using ne

theorem Clip.brange_clipLeft {clip : Clip Owner} {range : LockfRange Owner}
    (present : clip.brange ≠ none) : (clip.clipLeft request range).brange ≠ none := by
  unfold Clip.clipLeft Clip.clipLeft.cut
  repeat' split
  all_goals first | exact present | simp [Clip.absorb]

theorem Sweeping.due_of_old {clip : Clip Owner} {rest : List (LockfRange Owner)}
    {x : LockfRange Owner} (sweeping : Sweeping request before clip rest)
    (old : clip.Old request.owner x) : clip.Due request.owner x :=
  ⟨old.owned, sweeping.alive x old.mem, old.ne⟩

theorem Tally.clipLeft {clip : Clip Owner} {range : LockfRange Owner}
    (reach : request.start - 1 ≤ range.lfEnd)
    (posix : ∀ brange, clip.brange = some brange → brange.lfFlags.posix = request.flags.posix) :
    Tally request clip ((clip.noting request range).clipLeft request range) [range] := by
  refine .single (Clip.addr_clipLeft _ _ _) (Clip.wakeup_clipLeft _ _ _)
    (Clip.count_clipLeft_le _ _ _) ?_
  intro isPosix present same
  obtain ⟨brange, is⟩ := Option.ne_none_iff_exists'.mp present
  have flags := posix brange is
  simp [Clip.clipLeft, Clip.noting, is, same, reach, Clip.absorb, flags, isPosix]

end Left

end Tally

section Loop

variable {request : Request Owner} {before : List (LockfRange Owner)} {firstMatch lastMatch : Nat}

theorem clipLoop_skip {clip : Clip Owner} {range : LockfRange Owner}
    {rest : List (LockfRange Owner)} (notDue : ¬clip.Due request.owner range) :
    clipLoop request firstMatch lastMatch (range :: rest) clip =
      clipLoop request firstMatch lastMatch rest clip := by
  rw [clipLoop]
  by_cases dead : clip.isDead range = true
  · rw [if_pos dead]
  · rw [if_neg dead, if_pos]
    by_contra other
    push Not at other
    exact notDue ⟨other.1, by simpa using dead, other.2⟩

theorem clipLoop_due {clip : Clip Owner} {range : LockfRange Owner}
    {rest : List (LockfRange Owner)} (due : clip.Due request.owner range) :
    clipLoop request firstMatch lastMatch (range :: rest) clip =
      if range.lfStart < request.start then
        .kkassert (range.addr = firstMatch) <|
          if range.addr = lastMatch then .done ((clip.noting request range).clipLeft request range)
          else clipLoop request firstMatch lastMatch rest
            ((clip.noting request range).clipLeft request range)
      else if request.stop < range.lfEnd then
        .kkassert (range.addr = lastMatch) <|
          .done ((clip.noting request range).clipRight request range
            ((rest.find? fun other => !clip.isDead other).map LockfRange.addr))
      else if range.addr = lastMatch then
        .done ((clip.noting request range).destroy range)
      else
        clipLoop request firstMatch lastMatch rest ((clip.noting request range).destroy range) := by
  rw [clipLoop, if_neg (by simp [due.alive]), if_neg (by simp [due.owned, due.ne])]
  rfl

/-- The last range that the loop visits. -/
theorem clipLoop_last {clip : Clip Owner} {last : LockfRange Owner}
    {post : List (LockfRange Owner)}
    (sweeping : Sweeping request before clip (last :: post)) (due : clip.Due request.owner last)
    (start : request.start ≤ last.lfStart) (reach : last.lfStart ≤ request.stop + 1)
    (clear : ∀ x ∈ post, clip.Old request.owner x → ¬request.Meets x) :
    ∃ after, clipLoop request firstMatch last.addr (last :: post) clip = .done after ∧
      Swept request before after ∧ Tally request clip after [last] := by
  have clearNoting : ∀ x ∈ post, (clip.noting request last).Old request.owner x →
      ¬request.Meets x := fun x member old => clear x member ((Clip.old_noting).mp old)
  have dueNoting : (clip.noting request last).Due request.owner last :=
    ⟨due.owned, due.alive, due.ne⟩
  rw [clipLoop_due due, if_neg (not_lt.mpr start)]
  by_cases stop : request.stop < last.lfEnd
  · rw [if_pos stop, Outcome.kkassert_of rfl]
    refine ⟨_, rfl, (sweeping.noting last).clipRight dueNoting start stop clearNoting, ?_⟩
    refine .single (Clip.addr_clipRight _ _ _ _ (sweeping.old_of_due due).mem)
      (Clip.wakeup_clipRight _ _ _ _) (Clip.count_clipRight_le _ _ _ _) ?_
    intro posix present same
    obtain ⟨brange, is⟩ := Option.ne_none_iff_exists'.mp present
    simp [Clip.clipRight, Clip.noting, is, same, reach, Clip.absorb, lfMatch_posix same, posix]
  · rw [if_neg stop, if_pos rfl]
    refine ⟨_, rfl, ?_, ?_⟩
    · refine ((sweeping.noting last).destroy dueNoting start (not_lt.mp stop)).swept ?_
      intro x member old
      have listed := ((Keyed.mem_remove).mp old.mem).1
      exact clear x member ⟨listed, old.owned, old.ne⟩
    · exact .destroy

/-- The loop from a range on, when no range of the owner up to the last one starts in
front of the request. -/
theorem clipLoop_tail (firstMatch : Nat) (pre : List (LockfRange Owner)) {clip : Clip Owner} {last : LockfRange Owner}
    {post : List (LockfRange Owner)}
    (sweeping : Sweeping request before clip (pre ++ last :: post))
    (due : clip.Due request.owner last)
    (start : request.start ≤ last.lfStart) (reach : last.lfStart ≤ request.stop + 1)
    (within : ∀ x ∈ pre, clip.Due request.owner x →
      request.start ≤ x.lfStart ∧ x.lfEnd ≤ request.stop)
    (clear : ∀ x ∈ post, clip.Old request.owner x → ¬request.Meets x) :
    ∃ after, clipLoop request firstMatch last.addr (pre ++ last :: post) clip = .done after ∧
      Swept request before after ∧ Tally request clip after (pre ++ [last]) := by
  induction pre generalizing clip with
  | nil => exact clipLoop_last sweeping due start reach clear
  | cons range pre ih =>
      rw [List.cons_append] at sweeping
      by_cases dueRange : clip.Due request.owner range
      · obtain ⟨left, right⟩ := within range List.mem_cons_self dueRange
        have apart := List.pairwise_cons.mp sweeping.apart
        have notLast : range.addr ≠ last.addr := apart.1 last (by simp)
        have dueNoting : (clip.noting request range).Due request.owner range :=
          ⟨dueRange.owned, dueRange.alive, dueRange.ne⟩
        -- a range behind this one is due before and after this one is destroyed
        have dueIff : ∀ x ∈ pre ++ last :: post,
            ((clip.noting request range).destroy range).Due request.owner x ↔
              clip.Due request.owner x := by
          intro x member
          have different : range.addr ≠ x.addr := apart.1 x member
          have dead : ((clip.noting request range).destroy range).isDead x = clip.isDead x := by
            simp [Clip.isDead, Clip.destroy, Clip.noting, different]
          exact ⟨fun d => ⟨d.owned, dead ▸ d.alive, d.ne⟩, fun d => ⟨d.owned, dead ▸ d.alive, d.ne⟩⟩
        obtain ⟨after, loop, swept, tally⟩ := ih ((sweeping.noting range).destroy dueNoting left right)
          ((dueIff last (by simp)).mpr due)
          (fun x member d => within x (List.mem_cons_of_mem _ member)
            ((dueIff x (List.mem_append_left _ member)).mp d))
          (fun x member old => clear x member
            ⟨((Keyed.mem_remove).mp old.mem).1, old.owned, old.ne⟩)
        refine ⟨after, ?_, swept, ?_⟩
        · rw [List.cons_append, clipLoop_due dueRange, if_neg (not_lt.mpr left),
            if_neg (not_lt.mpr right), if_neg notLast]
          exact loop
        · refine Tally.cons .destroy tally id ?_
          intro x member dueX
          refine (dueIff x ?_).mpr dueX
          rcases List.mem_append.mp member with early | isLast
          · exact List.mem_append_left _ early
          · exact List.mem_append_right _ (by simp [List.mem_singleton.mp isLast])
      · obtain ⟨after, loop, swept, tally⟩ := ih (sweeping.skip dueRange) due
          (fun x member d => within x (List.mem_cons_of_mem _ member) d) clear
        refine ⟨after, ?_, swept, ?_⟩
        · rw [List.cons_append, clipLoop_skip dueRange]
          exact loop
        · exact tally.skip dueRange

/-- The first range starts in front of the request and is the only one. -/
theorem clipLoop_only {clip : Clip Owner} {first : LockfRange Owner}
    {post : List (LockfRange Owner)}
    (sweeping : Sweeping request before clip (first :: post))
    (due : clip.Due request.owner first)
    (start : first.lfStart < request.start) (reach : request.start - 1 ≤ first.lfEnd)
    (stop : first.lfEnd ≤ request.stop)
    (fresh : ∀ brange, clip.brange = some brange →
      brange.lfStart = request.start ∧ brange.lfFlags.posix = request.flags.posix)
    (clear : ∀ x ∈ post, clip.Due request.owner x → ¬request.Meets x) :
    ∃ after, clipLoop request first.addr first.addr (first :: post) clip = .done after ∧
      Swept request before after ∧ Tally request clip after [first] := by
  have clipped := (sweeping.noting first).clipLeft ((Clip.due_noting).mpr due) start stop
    (fun brange is => (fresh brange is).1)
  rw [clipLoop_due due, if_pos start, Outcome.kkassert_of rfl, if_pos rfl]
  refine ⟨_, rfl, clipped.swept ?_, .clipLeft reach (fun brange is => (fresh brange is).2)⟩
  intro x member old
  have different := ((List.pairwise_cons.mp sweeping.apart).1 x member).symm
  exact clear x member
    ((Clip.due_noting).mp ((Clip.due_clipLeft different).mp (clipped.due_of_old old)))

/-- The first range starts in front of the request and is not the last one. -/
theorem clipLoop_left {clip : Clip Owner} {first last : LockfRange Owner}
    {pre post : List (LockfRange Owner)}
    (sweeping : Sweeping request before clip (first :: (pre ++ last :: post)))
    (due : clip.Due request.owner first) (dueLast : clip.Due request.owner last)
    (start : first.lfStart < request.start) (reach : request.start - 1 ≤ first.lfEnd)
    (stop : first.lfEnd ≤ request.stop)
    (fresh : ∀ brange, clip.brange = some brange →
      brange.lfStart = request.start ∧ brange.lfFlags.posix = request.flags.posix)
    (startLast : request.start ≤ last.lfStart) (reachLast : last.lfStart ≤ request.stop + 1)
    (within : ∀ x ∈ pre, clip.Due request.owner x →
      request.start ≤ x.lfStart ∧ x.lfEnd ≤ request.stop)
    (clear : ∀ x ∈ post, clip.Due request.owner x → ¬request.Meets x) :
    ∃ after, clipLoop request first.addr last.addr (first :: (pre ++ last :: post)) clip =
        .done after ∧
      Swept request before after ∧ Tally request clip after (first :: (pre ++ [last])) ∧
      (request.flags.posix = true → clip.brange ≠ none →
        lfMatch first request.type request.flags = true →
        lfMatch last request.type request.flags = true → after.count + 2 ≤ clip.count) := by
  have ne : ∀ x ∈ pre ++ last :: post, x.addr ≠ first.addr :=
    fun x member => ((List.pairwise_cons.mp sweeping.apart).1 x member).symm
  have dueIff : ∀ x ∈ pre ++ last :: post,
      ((clip.noting request first).clipLeft request first).Due request.owner x ↔
        clip.Due request.owner x :=
    fun x member => (Clip.due_clipLeft (ne x member)).trans Clip.due_noting
  have clipped := (sweeping.noting first).clipLeft ((Clip.due_noting).mpr due) start stop
    (fun brange is => (fresh brange is).1)
  have step : Tally request clip ((clip.noting request first).clipLeft request first) [first] :=
    .clipLeft reach (fun brange is => (fresh brange is).2)
  have present : clip.brange ≠ none →
      ((clip.noting request first).clipLeft request first).brange ≠ none :=
    fun present => Clip.brange_clipLeft present
  obtain ⟨after, loop, swept, tally⟩ := clipLoop_tail first.addr pre clipped
    ((dueIff last (by simp)).mpr dueLast) startLast reachLast
    (fun x member d => within x member ((dueIff x (List.mem_append_left _ member)).mp d))
    (fun x member old => clear x member ((dueIff x (by simp [member])).mp (clipped.due_of_old old)))
  refine ⟨after, ?_, swept, ?_, ?_⟩
  · rw [clipLoop_due due, if_pos start, Outcome.kkassert_of rfl,
      if_neg (ne last (by simp)).symm]
    exact loop
  · refine step.cons tally present ?_
    intro x member dueX
    refine (dueIff x ?_).mpr dueX
    rcases List.mem_append.mp member with early | isLast
    · exact List.mem_append_left _ early
    · exact List.mem_append_right _ (by simp [List.mem_singleton.mp isLast])
  · intro posix isSome same sameLast
    have one := step.count_lt posix isSome first (List.mem_singleton.mpr rfl) due same
    have two := tally.count_lt posix (present isSome) last (by simp)
      ((dueIff last (by simp)).mpr dueLast) sameLast
    omega

end Loop

end Dragonfly.Kern.ByteRange
