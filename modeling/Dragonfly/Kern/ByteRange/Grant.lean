import Dragonfly.Kern.ByteRange.Update

/-!
# Granted requests

What a call of `update` that comes back with a new list has done, and when the
update comes back at all: the POSIX locks reserved beforehand cover those created, as
long as one owner does not mix the two styles of locks.
-/

namespace Dragonfly.Kern.ByteRange

open Dragonfly.Lib

variable {Owner : Type} [DecidableEq Owner] {request : Request Owner} {lock after : Lockf Owner}
  {refused : Bool}

/-- `after` is `lock` once the request has been granted. -/
structure Granted (request : Request Owner) (lock after : Lockf Owner) : Prop where
  applied : Applied request lock.lfRange after.lfRange
  unused : Unused after
  fresh : lock.fresh ≤ after.fresh
  blocked : after.lfBlocked = lock.lfBlocked ∨
    after.lfBlocked = lfWakeup lock.lfBlocked request.start request.stop
  woken : ∀ range ∈ lock.lfRange, request.Mine range → wakes request range = true →
    after.lfBlocked = lfWakeup lock.lfBlocked request.start request.stop

/-- The clipping part of the update. -/
def swept (request : Request Owner) (lock : Lockf Owner) (firstMatch lastMatch : LockfRange Owner) :
    Outcome (Clip Owner) :=
  let count := reserve request firstMatch lastMatch
  let clip := insertRequest request lock (scan request lock).insertPoint count
  let double := doubleClip request firstMatch lastMatch
  let clip := if double then clip.breakUp request firstMatch (lock.fresh + 1) else clip
  let last := if double then lock.fresh + 1 else lastMatch.addr
  (clipLoop request firstMatch.addr last
    (Keyed.onward LockfRange.addr firstMatch.addr clip.ranges) clip).bind fun clip =>
      .done ((clip.mergePrev request).mergeNext request)

/-- The state after the clipping part. -/
structure SweptTo (request : Request Owner) (lock : Lockf Owner)
    (firstMatch lastMatch : LockfRange Owner) (clip : Clip Owner) : Prop where
  swept : Swept request lock.lfRange clip
  addrs : ∀ x ∈ clip.ranges, x.addr < lock.fresh + 2
  noted : ∀ range ∈ lock.lfRange, request.Mine range → wakes request range = true →
    clip.wakeupNeeded = true
  count : request.flags.posix = true ∨ firstMatch.lfFlags.posix = false → clip.count ≤ 0

section Count

omit [DecidableEq Owner]

variable {firstMatch lastMatch : LockfRange Owner} {point : Option (LockfRange Owner)}

theorem count_flock (flock : request.flags.posix = false) :
    (insertRequest request lock point (reserve request firstMatch lastMatch)).count = 0 := by
  unfold insertRequest reserve
  split <;> simp [flock]

/-- Without a reservation the lock of the request is still to be paid for. -/
theorem count_match (same : lfMatch firstMatch request.type request.flags = true ∨
      lfMatch lastMatch request.type request.flags = true) :
    (insertRequest request lock point (reserve request firstMatch lastMatch)).count ≤ 1 := by
  have none : reserve request firstMatch lastMatch = 0 := by
    rcases same with same | same <;> simp [reserve, same]
  unfold insertRequest
  rw [none]
  split
  · exact zero_le_one
  · split <;> simp

/-- The reservation covers the lock of the request and the right side of a range that
is broken up. -/
theorem count_reserved (posix : request.flags.posix = true)
    (first : lfMatch firstMatch request.type request.flags = false)
    (last : lfMatch lastMatch request.type request.flags = false) :
    (insertRequest request lock point (reserve request firstMatch lastMatch)).count +
      (if doubleClip request firstMatch lastMatch then 1 else 0) ≤ 0 := by
  by_cases unlock : request.type = .unlck
  · by_cases double : doubleClip request firstMatch lastMatch = true
    · have start : firstMatch.lfStart < request.start := by
        simp only [doubleClip, Bool.and_eq_true, decide_eq_true_eq] at double
        exact double.1.1
      rw [unlock] at first last
      simp [insertRequest, reserve, unlock, posix, first, last, double, unlockOverride, start]
    · simp only [insertRequest, unlock, if_true, double]
      unfold reserve
      split
      · split <;> simp
      · simp
  · by_cases double : doubleClip request firstMatch lastMatch = true
    · simp [insertRequest, reserve, unlock, posix, first, last, double, unlockOverride]
    · simp [insertRequest, reserve, unlock, posix, first, last, double, unlockOverride]

end Count

/-- The two merges at the end of the update. -/
theorem Swept.finish {before : List (LockfRange Owner)} {clip : Clip Owner}
    (swept : Swept request before clip) :
    Swept request before ((clip.mergePrev request).mergeNext request) ∧
      Tally request clip ((clip.mergePrev request).mergeNext request) [] := by
  obtain ⟨prev, prevTally⟩ := swept.mergePrev
  obtain ⟨next, nextTally⟩ := prev.mergeNext
  refine ⟨next, ?_⟩
  constructor
  case addrs =>
    intro x member
    obtain ⟨y, yMem, equal⟩ := nextTally.addrs x member
    obtain ⟨z, zMem, equal'⟩ := prevTally.addrs y yMem
    exact ⟨z, zMem, equal'.trans equal⟩
  case kept => exact fun on => nextTally.kept (prevTally.kept on)
  case noted => simp
  case count_le => exact nextTally.count_le.trans prevTally.count_le
  case count_lt => simp

section Sweep

variable {firstMatch lastMatch : LockfRange Owner}

/-- A range of the owner matches only a request for a lock. -/
theorem brange_of_match (sound : Sound lock.lfRange) (unused : Unused lock)
    (free : (scan request lock).conflict = none) {range : LockfRange Owner}
    (member : range ∈ lock.lfRange) (same : lfMatch range request.type request.flags = true)
    (count : Int) :
    (insertRequest request lock (scan request lock).insertPoint count).brange ≠ none := by
  intro absent
  have unlock := (insertRequest_carving sound unused free count).absent.mp absent
  simp only [lfMatch, Bool.and_eq_true, beq_iff_eq] at same
  exact (sound.proper range member).2 (same.1.trans unlock)

theorem sweptTo_double (sound : Sound lock.lfRange) (unused : Unused lock)
    (free : (scan request lock).conflict = none)
    (first : (scan request lock).firstMatch = some firstMatch)
    (last : (scan request lock).lastMatch = some lastMatch)
    (double : doubleClip request firstMatch lastMatch = true) :
    ∃ clip, swept request lock firstMatch lastMatch = .done clip ∧
      SweptTo request lock firstMatch lastMatch clip := by
  obtain ⟨firstMem, firstMine, -⟩ := scan_firstMatch sound free first
  obtain ⟨lastMem, -, -⟩ := scan_lastMatch sound free last
  have sameMatch : lastMatch = firstMatch := by
    simp only [doubleClip, Bool.and_eq_true, decide_eq_true_eq] at double
    exact Keyed.eq_of_mem_of_key sound.distinct lastMem firstMem double.1.2.symm
  set opened := insertRequest request lock (scan request lock).insertPoint
    (reserve request firstMatch lastMatch) with openedEq
  obtain ⟨after, visited, loop, sweptAfter, tally, alone, visitedLeft, due, twice⟩ :=
    sweep_double sound unused free first last double
      (show opened.breakUp request firstMatch (lock.fresh + 1) = _ from rfl)
  obtain ⟨merged, mergedTally⟩ := sweptAfter.finish
  refine ⟨(after.mergePrev request).mergeNext request, ?_, merged, ?_, ?_, ?_⟩
  · simp only [swept, double, if_true]
    rw [← openedEq, loop]
    rfl
  · intro x member
    obtain ⟨y, yMem, equal⟩ := mergedTally.addrs x member
    obtain ⟨z, zMem, equal'⟩ := tally.addrs y yMem
    rw [← equal, ← equal']
    rcases (mem_breakUp request (lock.fresh + 1)
      (old_insertRequest _ _ unused firstMem firstMine.1).mem z).mp zMem with isPart | ⟨zMem, -⟩
    · simp only [List.mem_cons, List.not_mem_nil, or_false] at isPart
      rcases isPart with rfl | rfl
      · exact (unused firstMatch firstMem).trans (by omega)
      · exact Nat.lt_succ_self _
    · exact (insertRequest_addr unused zMem).trans (by omega)
  · intro range member mine on
    rw [alone range member mine] at on
    exact mergedTally.kept (tally.noted _ visitedLeft due on)
  · intro style
    have mergedLe := mergedTally.count_le
    have afterLe := tally.count_le
    have broken : (opened.breakUp request firstMatch (lock.fresh + 1)).count =
        if firstMatch.lfFlags.posix then opened.count + 1 else opened.count := rfl
    rw [broken] at afterLe twice
    by_cases posix : request.flags.posix = true
    · by_cases same : lfMatch firstMatch request.type request.flags = true
      · have two := twice posix (brange_of_match sound unused free firstMem same _) same
        have one : opened.count ≤ 1 := count_match (.inl same)
        rw [lfMatch_posix same, posix, if_pos rfl] at two
        omega
      · have reserved : opened.count + (if doubleClip request firstMatch lastMatch then 1 else 0) ≤ 0 :=
          count_reserved posix (by simpa using same) (by simpa [sameMatch] using same)
        rw [double, if_pos rfl] at reserved
        split at afterLe <;> omega
    · have flock : firstMatch.lfFlags.posix = false := style.resolve_left posix
      have none : opened.count = 0 := count_flock (by simpa using posix)
      simp only [flock, Bool.false_eq_true, if_false] at afterLe
      omega

theorem sweptTo_plain (sound : Sound lock.lfRange) (unused : Unused lock)
    (free : (scan request lock).conflict = none)
    (first : (scan request lock).firstMatch = some firstMatch)
    (last : (scan request lock).lastMatch = some lastMatch)
    (single : doubleClip request firstMatch lastMatch = false) :
    ∃ clip, swept request lock firstMatch lastMatch = .done clip ∧
      SweptTo request lock firstMatch lastMatch clip := by
  obtain ⟨firstMem, firstMine, -⟩ := scan_firstMatch sound free first
  obtain ⟨lastMem, lastMine, -⟩ := scan_lastMatch sound free last
  set opened := insertRequest request lock (scan request lock).insertPoint
    (reserve request firstMatch lastMatch) with openedEq
  obtain ⟨after, visited, loop, sweptAfter, tally, all⟩ :=
    sweep_plain (reserve request firstMatch lastMatch) sound unused free first last single
  rw [← openedEq] at loop tally all
  obtain ⟨merged, mergedTally⟩ := sweptAfter.finish
  refine ⟨(after.mergePrev request).mergeNext request, ?_, merged, ?_, ?_, ?_⟩
  · simp only [swept, single, if_false, Bool.false_eq_true]
    rw [← openedEq, loop]
    rfl
  · intro x member
    obtain ⟨y, yMem, equal⟩ := mergedTally.addrs x member
    obtain ⟨z, zMem, equal'⟩ := tally.addrs y yMem
    rw [← equal, ← equal']
    exact (insertRequest_addr unused zMem).trans (by omega)
  · intro range member mine on
    obtain ⟨visitedRange, due⟩ := all range member mine
    exact mergedTally.kept (tally.noted range visitedRange due on)
  · intro _
    have mergedLe := mergedTally.count_le
    have afterLe := tally.count_le
    have lt : ∀ range ∈ lock.lfRange, request.Mine range → request.flags.posix = true →
        lfMatch range request.type request.flags = true → after.count + 1 ≤ opened.count := by
      intro range member mine posix same
      obtain ⟨isVisited, due⟩ := all range member mine
      exact tally.count_lt posix (brange_of_match sound unused free member same _) range isVisited
        due same
    by_cases posix : request.flags.posix = true
    · by_cases same : lfMatch firstMatch request.type request.flags = true
      · have one : opened.count ≤ 1 := count_match (.inl same)
        have := lt firstMatch firstMem firstMine posix same
        omega
      · by_cases sameLast : lfMatch lastMatch request.type request.flags = true
        · have one : opened.count ≤ 1 := count_match (.inr sameLast)
          have := lt lastMatch lastMem lastMine posix sameLast
          omega
        · have reserved : opened.count +
              (if doubleClip request firstMatch lastMatch then 1 else 0) ≤ 0 :=
            count_reserved posix (by simpa using same) (by simpa using sameLast)
          simp only [single, if_false, Bool.false_eq_true] at reserved
          omega
    · have none : opened.count = 0 := count_flock (by simpa using posix)
      omega

theorem sweptTo (sound : Sound lock.lfRange) (unused : Unused lock)
    (free : (scan request lock).conflict = none)
    (first : (scan request lock).firstMatch = some firstMatch)
    (last : (scan request lock).lastMatch = some lastMatch) :
    ∃ clip, swept request lock firstMatch lastMatch = .done clip ∧
      SweptTo request lock firstMatch lastMatch clip := by
  cases double : doubleClip request firstMatch lastMatch with
  | true => exact sweptTo_double sound unused free first last double
  | false => exact sweptTo_plain sound unused free first last double

end Sweep

/-- The update of a request that meets a range of its owner. -/
theorem update_match {firstMatch lastMatch : LockfRange Owner}
    (first : (scan request lock).firstMatch = some firstMatch)
    (last : (scan request lock).lastMatch = some lastMatch) :
    update request lock (scan request lock) refused =
      if reserve request firstMatch lastMatch ≠ 0 ∧ refused then .done (.error .enolck)
      else (swept request lock firstMatch lastMatch).bind fun clip =>
        .kkassert (clip.count ≤ 0) <| .done <| .ok
          { lfRange := clip.ranges
            lfBlocked :=
              if clip.wakeupNeeded then lfWakeup lock.lfBlocked request.start request.stop
              else lock.lfBlocked
            fresh := lock.fresh + 2 } := by
  simp only [update, first, last, swept]
  split
  · rfl
  · cases clipLoop request _ _ _ _ <;> rfl

/-- The update of a request that meets no range of its owner. -/
theorem update_new (sound : Sound lock.lfRange) (free : (scan request lock).conflict = none)
    (none : ∀ range ∈ lock.lfRange, ¬request.Mine range) :
    update request lock (scan request lock) refused =
      if request.type = .unlck then .done (.ok lock)
      else if request.flags.posix && refused then .done (.error .enolck)
      else .done <| .ok
        { lock with
          lfRange := lfInsert lock.lfRange (request.createRange lock.fresh request.flags)
            ((scan request lock).insertPoint.map LockfRange.addr)
          fresh := lock.fresh + 2 } := by
  have first : (scan request lock).firstMatch = Option.none := by
    cases found : (scan request lock).firstMatch with
    | none => rfl
    | some range =>
        obtain ⟨member, mine, -⟩ := scan_firstMatch sound free found
        exact absurd mine (none range member)
  simp only [update, first]

theorem granted_match (sound : Sound lock.lfRange) (free : (scan request lock).conflict = none)
    {firstMatch lastMatch : LockfRange Owner} {clip : Clip Owner}
    (result : SweptTo request lock firstMatch lastMatch clip) :
    Granted request lock
      { lfRange := clip.ranges
        lfBlocked :=
          if clip.wakeupNeeded then lfWakeup lock.lfBlocked request.start request.stop
          else lock.lfBlocked
        fresh := lock.fresh + 2 } where
  applied := result.swept.applied sound ((scan_conflict_eq_none sound).mp free)
  unused := result.addrs
  fresh := Nat.le_add_right _ _
  blocked := by
    cases clip.wakeupNeeded
    · exact .inl rfl
    · exact .inr rfl
  woken range member mine on := by rw [result.noted range member mine on, if_pos rfl]

omit [DecidableEq Owner] in
/-- An unlock that meets no range of its owner changes nothing. -/
theorem granted_nothing (sound : Sound lock.lfRange) (unused : Unused lock)
    (unlock : request.type = .unlck) (none : ∀ range ∈ lock.lfRange, ¬request.Mine range) :
    Granted request lock lock where
  applied :=
    { sound := sound
      others := fun _ _ _ _ => Iff.rfl
      outside := fun _ _ _ => Iff.rfl
      inside := by
        intro byte requested type
        constructor
        · rintro ⟨range, member, owned, has, rfl⟩
          exact absurd ⟨owned, has.1.trans requested.2, requested.1.trans has.2⟩ (none range member)
        · rintro ⟨-, lock⟩
          exact absurd unlock lock }
  unused := unused
  fresh := le_rfl
  blocked := .inl rfl
  woken range member mine := absurd mine (none range member)

/-- A request that meets no range of its owner gets a range of its own. -/
theorem granted_new (sound : Sound lock.lfRange) (unused : Unused lock)
    (free : (scan request lock).conflict = none) (lock' : request.type ≠ .unlck)
    (none : ∀ range ∈ lock.lfRange, ¬request.Mine range) :
    Granted request lock
      { lock with
        lfRange := lfInsert lock.lfRange (request.createRange lock.fresh request.flags)
          ((scan request lock).insertPoint.map LockfRange.addr)
        fresh := lock.fresh + 2 } := by
  have opened : insertRequest request lock (scan request lock).insertPoint 0 =
      { ranges := lfInsert lock.lfRange (request.createRange lock.fresh request.flags)
          ((scan request lock).insertPoint.map LockfRange.addr)
        brange := some (request.createRange lock.fresh request.flags)
        deadlist := []
        count := if request.flags.posix then 0 + 1 else 0
        wakeupNeeded := false } := by
    rw [insertRequest, if_neg lock']
  have sweptNow : Swept request lock.lfRange
      (insertRequest request lock (scan request lock).insertPoint 0) :=
    { carving := insertRequest_carving sound unused free 0
      clear := fun x old meets => none x (insertRequest_old old) ⟨old.owned, meets⟩ }
  have applied := sweptNow.applied sound ((scan_conflict_eq_none sound).mp free)
  rw [opened] at applied
  constructor
  case applied => exact applied
  case unused =>
    intro x member
    rcases (mem_lfInsert).mp member with rfl | member
    · exact Nat.lt_add_of_pos_right Nat.two_pos
    · exact (unused x member).trans (Nat.lt_add_of_pos_right Nat.two_pos)
  case fresh => exact Nat.le_add_right _ _
  case blocked => exact .inl rfl
  case woken => exact fun range member mine => absurd mine (none range member)

/-- What an update that comes back with a new list has done. -/
theorem update_granted (sound : Sound lock.lfRange) (unused : Unused lock)
    (free : (scan request lock).conflict = none)
    (returned : update request lock (scan request lock) refused = .done (.ok after)) :
    Granted request lock after := by
  by_cases none : ∀ range ∈ lock.lfRange, ¬request.Mine range
  · rw [update_new sound free none] at returned
    split at returned
    case isTrue unlock =>
      simp only [Outcome.done.injEq, Except.ok.injEq] at returned
      exact returned ▸ granted_nothing sound unused unlock none
    case isFalse lock' =>
      split at returned
      · simp at returned
      · simp only [Outcome.done.injEq, Except.ok.injEq] at returned
        exact returned ▸ granted_new sound unused free lock' none
  · push Not at none
    obtain ⟨range, member, mine⟩ := none
    obtain ⟨firstMatch, lastMatch, first, last⟩ := scan_match_of_mine sound free member mine
    obtain ⟨clip, done, result⟩ := sweptTo sound unused free first last
    rw [update_match first last, done] at returned
    split at returned
    · simp at returned
    · simp only [Outcome.bind, Outcome.kkassert_eq_done_iff, Outcome.done.injEq,
        Except.ok.injEq] at returned
      exact returned.2 ▸ granted_match sound free result

/-- The only error of an update is `ENOLCK`. -/
theorem update_error (found : Scan Owner) {error : Errno}
    (failed : update request lock found refused = .done (.error error)) : error = .enolck := by
  unfold update at failed
  split at failed
  · dsimp only at failed
    split at failed
    · simpa using failed.symm
    · simp at failed
  · repeat' split at failed
    · simp at failed
    · simpa using failed.symm
    · simp at failed

/-- An update fails with `ENOLCK` or comes back with a new list, unless a flock-style
request breaks up POSIX locks of its owner. -/
theorem update_returns (sound : Sound lock.lfRange) (unused : Unused lock)
    (free : (scan request lock).conflict = none)
    (style : request.flags.posix = true ∨
      ∀ range ∈ lock.lfRange, request.Mine range → range.lfFlags.posix = false) :
    (∃ after, update request lock (scan request lock) refused = .done (.ok after)) ∨
      refused = true ∧ update request lock (scan request lock) refused = .done (.error .enolck) := by
  by_cases none : ∀ range ∈ lock.lfRange, ¬request.Mine range
  · rw [update_new sound free none]
    split
    · exact .inl ⟨_, rfl⟩
    · split
      case isTrue denied =>
        rw [Bool.and_eq_true] at denied
        exact .inr ⟨denied.2, rfl⟩
      case isFalse => exact .inl ⟨_, rfl⟩
  · push Not at none
    obtain ⟨range, member, mine⟩ := none
    obtain ⟨firstMatch, lastMatch, first, last⟩ := scan_match_of_mine sound free member mine
    obtain ⟨clip, done, result⟩ := sweptTo sound unused free first last
    obtain ⟨firstMem, firstMine, -⟩ := scan_firstMatch sound free first
    have paid : clip.count ≤ 0 :=
      result.count (style.imp_right fun flock => flock firstMatch firstMem firstMine)
    rw [update_match first last, done]
    split
    case isTrue denied => exact .inr ⟨by simpa using denied.2, rfl⟩
    case isFalse => exact .inl ⟨_, Outcome.kkassert_of paid _⟩

end Dragonfly.Kern.ByteRange
