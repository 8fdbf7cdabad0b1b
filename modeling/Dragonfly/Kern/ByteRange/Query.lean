import Dragonfly.Kern.ByteRange.Getlock

/-!
# The query and the attempt

`lf_getlock` and `lf_setlock` go through the list on their own, with a test for an overlap
each, and only `lf_setlock` stops behind the end of the request.  They meet the same range.
-/

namespace Dragonfly.Kern.ByteRange

open Dragonfly.Lib

variable {Owner : Type} {request : Request Owner} {range : LockfRange Owner} {system : System Owner}
  {labels : List (Label Owner)}

/-- The two tests for an overlap agree for ranges that are not empty. -/
theorem lfOverlap_iff (proper : range.lfStart ≤ range.lfEnd) :
    lfOverlap range request.start request.stop = true ↔ request.Meets range := by
  have le := request.le
  simp only [lfOverlap, Request.Meets, Bool.or_eq_true, Bool.and_eq_true, decide_eq_true_eq]
  omega

/-- A range blocks a request by a lock on a byte that both contain. -/
theorem Request.Blocks.byte (blocks : request.Blocks range) (proper : range.lfStart ≤ range.lfEnd) :
    ∃ byte, request.Has byte ∧ range.Has byte :=
  ⟨max request.start range.lfStart, ⟨le_max_left _ _, max_le request.le blocks.2.1.1⟩,
    ⟨le_max_right _ _, max_le blocks.2.1.2 proper⟩⟩

variable [DecidableEq Owner]

/-- A range in the way of a request for a lock is one that blocks it. -/
theorem inWay_iff_blocks (lock : request.type ≠ .unlck) (proper : range.lfStart ≤ range.lfEnd) :
    inWay request range = true ↔ request.Blocks range := by
  simp only [inWay, Request.Blocks, conflictsWith, Bool.and_eq_true, lfOverlap_iff proper, decide_eq_true_eq,
    ne_eq, lock, not_false_eq_true, decide_true, Bool.true_and, and_assoc]

/-- `lf_getlock` reports the range that the search of `lf_setlock` stops at. -/
theorem lfGetlock_eq {lock : Lockf Owner} (sound : Sound lock.lfRange)
    (locks : request.type ≠ .unlck) :
    lfGetlock request lock = (scan request lock).conflict.map report := by
  have same : lock.lfRange.filter (inWay request) =
      lock.lfRange.filter fun range => request.Blocks range := by
    apply List.filter_congr
    intro range member
    rw [Bool.eq_iff_iff, inWay_iff_blocks locks (sound.proper range member).1, decide_eq_true_iff]
  rw [lfGetlock, scan_conflict sound, ← List.head?_filter, same, List.head?_filter]

/-- The owner's most recent request for a byte of the request keeps it from being granted. -/
def Denied (history : List (Request Owner)) (request : Request Owner) (owner : Owner)
    (type : LockType) : Prop :=
  owner ≠ request.owner ∧ (request.type = .wrlck ∨ type = .wrlck) ∧
    ∃ byte, request.Has byte ∧ recent history owner byte = some type

/-- The ranges that block a request stand for the locks that deny it. -/
theorem denied_iff (faithful : Faithful system) (locks : request.type ≠ .unlck) (owner : Owner)
    (type : LockType) :
    Denied system.history request owner type ↔
      ∃ range ∈ system.lock.lfRange,
        request.Blocks range ∧ range.lfOwner = owner ∧ range.lfType = type := by
  have conflicts : ∀ range : LockfRange Owner,
      conflictsWith request range = true ↔ request.type = .wrlck ∨ range.lfType = .wrlck := by
    simp [conflictsWith, locks]
  constructor
  · rintro ⟨other, conflict, byte, asked, held⟩
    obtain ⟨range, member, rfl, has, rfl⟩ := (faithful.held owner byte type).mpr held
    have meets : request.Meets range := ⟨has.1.trans asked.2, asked.1.trans has.2⟩
    exact ⟨range, member, ⟨other, meets, (conflicts range).mpr conflict⟩, rfl, rfl⟩
  · rintro ⟨range, member, blocks, rfl, rfl⟩
    obtain ⟨byte, asked, has⟩ := blocks.byte (faithful.sound.proper range member).1
    exact ⟨blocks.1, (conflicts range).mp blocks.2.2, byte, asked,
      (faithful.held _ byte _).mp ⟨range, member, rfl, has, rfl⟩⟩

/-- In every state that calls can lead to, a query for a lock is answered with a lock that denies
it, and the same request without `F_WAIT` then fails and changes nothing; it is answered with
`F_UNLCK` exactly if no owner's most recent request denies it, and then it is granted. -/
theorem getlk_foretells_setlk (run : Run Move System.empty labels system)
    (locks : request.type ≠ .unlck) :
    (∀ blocker, lfGetlock request system.lock = some blocker →
      (∃ owner, Denied system.history request owner blocker.lType ∧
          (blocker.lPid = none ∨ blocker.lPid = some owner)) ∧
        (request.flags.wait = false → ∀ refused,
          attempt request refused system.lock = .done ⟨system.lock, .returned (some .eagain), []⟩)) ∧
      (lfGetlock request system.lock = none ↔ ∀ owner type, ¬Denied system.history request owner type) ∧
      (lfGetlock request system.lock = none → request.flags.posix = true →
        ∃ after, attempt request false system.lock = .done ⟨after, .returned none, [request]⟩) := by
  have faithful := Faithful.run run
  have sound := faithful.sound
  have answer : lfGetlock request system.lock = _ := lfGetlock_eq sound locks
  refine ⟨fun blocker found => ?_, ?_, fun free posix => ?_⟩
  · rw [answer, Option.map_eq_some_iff] at found
    obtain ⟨range, conflict, rfl⟩ := found
    obtain ⟨member, blocks⟩ := scan_conflict_eq_some sound conflict
    have denied := (denied_iff faithful locks _ _).mpr ⟨range, member, blocks, rfl, rfl⟩
    refine ⟨⟨range.lfOwner, denied, ?_⟩, fun nowait refused => ?_⟩
    · by_cases posix : range.lfFlags.posix = true
      · exact .inr (if_pos posix)
      · exact .inl (if_neg posix)
    · simp only [attempt, conflict, nowait, Bool.not_false, if_true]
  · rw [answer, Option.map_eq_none_iff, scan_conflict_eq_none sound]
    constructor
    · intro clear owner type denied
      obtain ⟨range, member, blocks, -⟩ := (denied_iff faithful locks owner type).mp denied
      exact clear range member blocks
    · intro free range member blocks
      exact free _ _ ((denied_iff faithful locks _ _).mpr ⟨range, member, blocks, rfl, rfl⟩)
  · rw [answer, Option.map_eq_none_iff] at free
    obtain ⟨after, done⟩ | ⟨refused, -⟩ : (∃ after, update request system.lock
        (scan request system.lock) false = .done (.ok after)) ∨ false = true ∧ _ :=
      update_returns sound faithful.unused free (.inl posix)
    · exact ⟨after, by simp [attempt, free, done, Outcome.bind]⟩
    · cases refused

/-- Between two locks of the first owner, a second owner is refused the bytes of the first lock. -/
theorem getlk_foretells_setlk_endless : ∃ system : System Nat,
    lfGetlock question system.lock = some ⟨.wrlck, 0, 0, some 1⟩ ∧
    ∀ refused, attempt question refused system.lock = .done ⟨system.lock, .returned (some .eagain), []⟩ := by
  obtain ⟨system, played, answer⟩ : ∃ system, play (fun _ _ => True) System.empty
      (oneByOne endlessLock unlockTail) = .done system ∧
        lfGetlock question system.lock = some ⟨.wrlck, 0, 0, some 1⟩ := ⟨_, rfl, rfl⟩
  have run := (run_of_play played).mono And.right
  exact ⟨system, answer, ((getlk_foretells_setlk run (by decide)).1 _ answer).2 rfl⟩

end Dragonfly.Kern.ByteRange
