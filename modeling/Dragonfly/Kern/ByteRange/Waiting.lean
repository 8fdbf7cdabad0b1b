import Dragonfly.Kern.ByteRange.History

/-!
# Waiting requests

A request on `lf_blocked` waits for the locks of some owner.  A step that takes from
the locks of that owner at a byte of the request wakes it, so that what a request
waits for stays until the request leaves the list.  Two properties of whole runs
follow: no request waits for a lock that is free, and POSIX requests do not wait for
each other in a circle.
-/

namespace Dragonfly.Kern.ByteRange

open Dragonfly.Lib

variable {Owner : Type}

/-- A range on `lf_range` conflicts with a request on `lf_blocked`. -/
def Conflicts (entry range : LockfRange Owner) : Prop :=
  range.lfOwner ≠ entry.lfOwner ∧ range.lfStart ≤ entry.lfEnd ∧ entry.lfStart ≤ range.lfEnd ∧
    (entry.lfType = .wrlck ∨ range.lfType = .wrlck)

instance [DecidableEq Owner] (entry range : LockfRange Owner) :
    Decidable (Conflicts entry range) :=
  inferInstanceAs (Decidable (_ ∧ _))

/-- The locks of the owner keep the entry waiting. -/
def Obstructs (ranges : List (LockfRange Owner)) (entry : LockfRange Owner) (owner : Owner) : Prop :=
  owner ≠ entry.lfOwner ∧ ∃ byte type, entry.Has byte ∧ Covers ranges owner byte type ∧
    (entry.lfType = .wrlck ∨ type = .wrlck)

theorem Obstructs.conflicts {ranges : List (LockfRange Owner)} {entry : LockfRange Owner}
    {owner : Owner} (obstructs : Obstructs ranges entry owner) :
    ∃ range ∈ ranges, range.lfOwner = owner ∧ Conflicts entry range := by
  obtain ⟨foreign, byte, type, has, ⟨range, member, rfl, rangeHas, rfl⟩, exclusive⟩ := obstructs
  exact ⟨range, member, rfl, foreign, rangeHas.1.trans has.2, has.1.trans rangeHas.2, exclusive⟩

variable [DecidableEq Owner] {lock after : Lockf Owner} {request : Request Owner}

omit [DecidableEq Owner] in
/-- A range that blocks the request obstructs its entry on `lf_blocked`. -/
theorem Request.Blocks.obstructs {ranges : List (LockfRange Owner)} {range : LockfRange Owner}
    (blocks : request.Blocks range) (member : range ∈ ranges) (proper : range.lfStart ≤ range.lfEnd)
    (addr : Nat) (flags : Flags) :
    Obstructs ranges (request.createRange addr flags) range.lfOwner := by
  obtain ⟨foreign, ⟨left, right⟩, conflict⟩ := blocks
  refine ⟨foreign, max request.start range.lfStart, range.lfType, ?_, ?_, ?_⟩
  · exact ⟨le_max_left _ _, max_le request.le left⟩
  · exact ⟨range, member, rfl, ⟨le_max_right _ _, max_le right proper⟩, rfl⟩
  · simp only [conflictsWith, Bool.and_eq_true, Bool.or_eq_true, beq_iff_eq] at conflict
    exact conflict.2

/-- What an entry waits for is still there as long as the entry is on the list. -/
theorem Granted.obstructs (granted : Granted request lock after) {entry : LockfRange Owner}
    (waits : entry ∈ after.lfBlocked) {owner : Owner} (obstructs : Obstructs lock.lfRange entry owner) :
    Obstructs after.lfRange entry owner := by
  obtain ⟨foreign, byte, type, has, covers, exclusive⟩ := obstructs
  refine ⟨foreign, ?_⟩
  by_cases own : owner = request.owner
  · subst own
    by_cases requested : request.Has byte
    · obtain ⟨range, member, owned, rangeHas, rfl⟩ := covers
      have mine : request.Mine range :=
        ⟨owned, rangeHas.1.trans requested.2, requested.1.trans rangeHas.2⟩
      -- taking something away would have woken the entry
      have keeps : wakes request range = false := by
        by_contra woken
        rw [granted.woken range member mine (by simpa using woken), lfWakeup, List.mem_filter] at waits
        have apart := waits.2
        obtain ⟨entryLeft, entryRight⟩ := has
        obtain ⟨left, right⟩ := requested
        simp only [lfOverlap, Bool.not_eq_true', Bool.or_eq_false_iff, Bool.and_eq_false_iff,
          decide_eq_false_iff_not] at apart
        omega
      simp only [wakes, Bool.or_eq_false_iff, Bool.and_eq_false_iff, beq_eq_false_iff_ne] at keeps
      refine ⟨byte, request.type, has, (granted.applied.inside byte requested _).mpr ⟨rfl, keeps.1⟩, ?_⟩
      rcases exclusive with exclusive | exclusive
      · exact .inl exclusive
      · right
        have notShared : request.type ≠ .rdlck := keeps.2.resolve_right (fun ne => ne exclusive)
        cases kind : request.type with
        | rdlck => exact absurd kind notShared
        | wrlck => rfl
        | unlck => exact absurd kind keeps.1
    · exact ⟨byte, type, has, (granted.applied.outside byte requested type).mpr covers, exclusive⟩
  · exact ⟨byte, type, has, (granted.applied.others owner own byte type).mpr covers, exclusive⟩

omit [DecidableEq Owner] in
theorem Granted.blocked_sublist (granted : Granted request lock after) :
    after.lfBlocked.Sublist lock.lfBlocked := by
  rcases granted.blocked with same | woken
  · rw [same]
  · rw [woken]
    exact List.filter_sublist

section Wakeups

/-- When a flock-style upgrade comes back from its recursive unlock, another owner
still has a lock at the bytes it asks for. -/
def StillHeld (system : System Owner) : Label Owner → Prop
  | .arrive _ => True
  | .run index _ _ => ∀ thread ∈ system.threads[index]?, thread.phase = .unlocking →
      ∃ range ∈ system.lock.lfRange, range.lfOwner ≠ thread.request.owner ∧
        thread.request.Meets range

instance (system : System Owner) : (label : Label Owner) → Decidable (StillHeld system label)
  | .arrive _ => inferInstanceAs (Decidable True)
  | .run index _ _ => inferInstanceAs (Decidable (∀ thread ∈ system.threads[index]?, _))

/-- Every request on `lf_blocked` waits for a lock of some owner. -/
structure Attended (system : System Owner) : Prop where
  faithful : Faithful system
  upgrading : ∀ thread ∈ system.threads, thread.phase = .unlocking → thread.request.type = .wrlck
  waiting : ∀ entry ∈ system.lock.lfBlocked, ∃ owner, Obstructs system.lock.lfRange entry owner

theorem Attended.empty : Attended (System.empty : System Owner) where
  faithful := .empty
  upgrading := by simp [System.empty]
  waiting := by simp [System.empty]

omit [DecidableEq Owner] in
/-- The entry of an upgrade, after the recursive unlock. -/
theorem Granted.upgrade_obstructs (granted : Granted request.unlock lock after)
    (sound : Sound lock.lfRange) (exclusive : request.type = .wrlck) {range : LockfRange Owner}
    (member : range ∈ lock.lfRange) (foreign : range.lfOwner ≠ request.owner)
    (meets : request.Meets range) (addr : Nat) :
    Obstructs after.lfRange (request.createRange addr noFlags) range.lfOwner := by
  have blocks : request.Blocks range := ⟨foreign, meets, by simp [conflictsWith, exclusive]⟩
  obtain ⟨ne, byte, type, has, covers, conflict⟩ :=
    blocks.obstructs member (sound.proper range member).1 addr noFlags
  exact ⟨ne, byte, type, has, (granted.applied.others _ foreign byte type).mpr covers, conflict⟩

theorem Attended.move {system next : System Owner} {label : Label Owner}
    (attended : Attended system) (held : StillHeld system label) (move : Move system label next) :
    Attended next := by
  have faithful := attended.faithful.move move
  obtain ⟨⟨sound, unused, -⟩, upgrading, waiting⟩ := attended
  obtain ⟨request, -, rfl⟩ | ⟨index, refused, error, thread, segment, rfl, found, did, rfl⟩ :=
    move_cases sound unused move
  · refine ⟨faithful, ?_, waiting⟩
    intro thread member inside
    rcases List.mem_append.mp member with old | new
    · exact upgrading thread old inside
    · rw [List.mem_singleton.mp new] at inside
      cases inside
  · refine ⟨faithful, ?_, ?_⟩
    · intro other member inside
      rcases List.mem_or_eq_of_mem_set member with old | rfl
      · exact upgrading other old inside
      · cases did with
        | nothing phase upgrade => exact (upgrade inside).2.1
        | granted => cases inside
        | queued => cases inside
        | dequeued brange phase forward => exact absurd inside forward
        | upgraded => cases inside
    · cases did with
      | nothing phase => exact waiting
      | granted after done =>
          intro entry member
          obtain ⟨owner, obstructs⟩ := waiting entry (done.blocked_sublist.subset member)
          exact ⟨owner, done.obstructs member obstructs⟩
      | queued range member blocks =>
          intro entry listed
          rcases List.mem_append.mp listed with old | new
          · exact waiting entry old
          · rw [List.mem_singleton.mp new]
            exact ⟨_, blocks.obstructs member (sound.proper range member).1 _ _⟩
      | dequeued brange phase =>
          intro entry member
          exact waiting entry ((Keyed.mem_remove).mp member).1
      | upgraded after inside done =>
          intro entry listed
          rcases List.mem_append.mp listed with old | new
          · obtain ⟨owner, obstructs⟩ := waiting entry (done.blocked_sublist.subset old)
            exact ⟨owner, done.obstructs old obstructs⟩
          · obtain ⟨range, member, foreign, meets⟩ := held thread found inside
            rw [List.mem_singleton.mp new]
            exact ⟨_, done.upgrade_obstructs sound
              (upgrading thread (List.mem_of_getElem? found) inside) member foreign meets _⟩

/-- No request waits for a lock that is free, in every run in which each flock-style
upgrade finds its bytes still locked by another owner when it comes back from its
recursive unlock. -/
theorem no_lost_wakeup {system : System Owner} {labels : List (Label Owner)}
    (run : Run (fun state label next => StillHeld state label ∧ Move state label next)
      System.empty labels system) :
    ∀ entry ∈ system.lock.lfBlocked, ∃ range ∈ system.lock.lfRange, Conflicts entry range := by
  have attended : Attended system :=
    run.invariant (fun attended step => attended.move step.1 step.2) .empty
  intro entry member
  obtain ⟨owner, obstructs⟩ := attended.waiting entry member
  obtain ⟨range, rangeMem, -, conflicts⟩ := obstructs.conflicts
  exact ⟨range, rangeMem, conflicts⟩

/-- The requests of two descriptors with flock-style locks on a whole file. -/
def wholeFile (owner : Nat) (type : LockType) : Request Nat :=
  ⟨owner, type, ⟨false, true, true⟩, 0, 0x7FFFFFFFFFFFFFFF, start_nonneg, by decide⟩

/-- Two shared locks, and the first descriptor asks for an exclusive one. -/
def upgradeRun : List (Label Nat) :=
  [.arrive (wholeFile 1 .rdlck), .run 0 false none, .arrive (wholeFile 2 .rdlck),
    .run 1 false none, .arrive (wholeFile 1 .wrlck), .run 2 false none]

theorem no_lost_wakeup_upgradeRun : ∃ system,
    Run (fun state label next => StillHeld state label ∧ Move state label next) System.empty
      (upgradeRun ++ [.run 2 false none]) system ∧
    system.lock.lfBlocked = [(wholeFile 1 .wrlck).createRange 6 noFlags] ∧
    ∀ entry ∈ system.lock.lfBlocked, ∃ range ∈ system.lock.lfRange, Conflicts entry range := by
  obtain ⟨system, played, blocked⟩ :
      ∃ system, play StillHeld System.empty (upgradeRun ++ [.run 2 false none]) = .done system ∧
        system.lock.lfBlocked = [(wholeFile 1 .wrlck).createRange 6 noFlags] := ⟨_, rfl, rfl⟩
  exact ⟨system, run_of_play played, blocked, no_lost_wakeup (run_of_play played)⟩

/-- When the second descriptor unlocks while the recursive unlock of the first
allocates its ranges, the first one sleeps, no call is running, and nothing is locked. -/
theorem upgradeRun_lost_wakeup : ∃ system,
    Run Move System.empty
      (upgradeRun ++ [.arrive (wholeFile 2 .unlck), .run 3 false none, .run 2 false none]) system ∧
    system.threads.map Thread.phase =
      [.returned none, .returned none, .asleep 8, .returned none] ∧
    ∃ entry ∈ system.lock.lfBlocked, ∀ range ∈ system.lock.lfRange, ¬Conflicts entry range := by
  obtain ⟨system, played, phases, blocked, none⟩ :
      ∃ system, play (fun _ _ => True) System.empty
          (upgradeRun ++ [.arrive (wholeFile 2 .unlck), .run 3 false none, .run 2 false none]) =
            .done system ∧
        system.threads.map Thread.phase =
          [.returned none, .returned none, .asleep 8, .returned none] ∧
        system.lock.lfBlocked = [(wholeFile 1 .wrlck).createRange 8 noFlags] ∧
        system.lock.lfRange = [] := ⟨_, rfl, rfl, rfl, rfl⟩
  refine ⟨system, (run_of_play played).mono And.right, phases,
    (wholeFile 1 .wrlck).createRange 8 noFlags, ?_, ?_⟩
  · simp [blocked]
  · simp [none]

end Wakeups

section Deadlock

/-- Only POSIX requests arrive. -/
def Label.Posix : Label Owner → Prop
  | .arrive request => request.flags.posix = true
  | .run _ _ _ => True

instance : (label : Label Owner) → Decidable label.Posix
  | .arrive request => inferInstanceAs (Decidable (request.flags.posix = true))
  | .run _ _ _ => inferInstanceAs (Decidable True)

/-- Every entry waits for an owner that is not on the list in front of it. -/
def Ranked (ranges blocked : List (LockfRange Owner)) : Prop :=
  ∀ front entry back, blocked = front ++ entry :: back →
    ∃ owner, Obstructs ranges entry owner ∧ ∀ earlier ∈ front, earlier.lfOwner ≠ owner

omit [DecidableEq Owner] in
theorem Ranked.sublist {ranges blocked rest : List (LockfRange Owner)} (ranked : Ranked ranges blocked)
    (sub : rest.Sublist blocked) : Ranked ranges rest := by
  rintro front entry back rfl
  obtain ⟨left, right, rfl, frontSub, entrySub⟩ := List.append_sublist_iff.mp sub
  obtain ⟨first, last, rfl, member, -⟩ := List.cons_sublist_iff.mp entrySub
  obtain ⟨early, late, rfl⟩ := List.append_of_mem member
  obtain ⟨owner, obstructs, ahead⟩ := ranked (left ++ early) entry (late ++ last) (by simp)
  exact ⟨owner, obstructs, fun other otherMem => ahead other
    (List.mem_append_left _ (frontSub.subset otherMem))⟩

omit [DecidableEq Owner] in
theorem Ranked.append {ranges blocked : List (LockfRange Owner)} {entry : LockfRange Owner}
    {owner : Owner} (ranked : Ranked ranges blocked) (obstructs : Obstructs ranges entry owner)
    (awake : ∀ other ∈ blocked, other.lfOwner ≠ owner) : Ranked ranges (blocked ++ [entry]) := by
  intro front last back shape
  rcases List.eq_nil_or_concat back with rfl | ⟨init, final, rfl⟩
  · obtain ⟨rfl, same⟩ := List.append_inj' shape rfl
    obtain rfl : entry = last := by simpa using same
    exact ⟨owner, obstructs, awake⟩
  · have whole : blocked ++ [entry] = (front ++ last :: init) ++ [final] := by simpa using shape
    obtain ⟨rfl, -⟩ := List.append_inj' whole rfl
    exact ranked front last init rfl

/-- A step of an owner keeps what the entries left on the list wait for. -/
theorem Ranked.granted (ranked : Ranked lock.lfRange lock.lfBlocked)
    (granted : Granted request lock after) : Ranked after.lfRange after.lfBlocked := by
  intro front entry back shape
  obtain ⟨owner, obstructs, ahead⟩ :=
    (ranked.sublist granted.blocked_sublist) front entry back shape
  exact ⟨owner, granted.obstructs (by simp [shape]) obstructs, ahead⟩

/-- The invariant of runs of POSIX requests. -/
structure Orderly (system : System Owner) : Prop where
  faithful : Faithful system
  posix : ∀ thread ∈ system.threads, thread.request.flags.posix = true ∧ thread.phase ≠ .unlocking
  ranked : Ranked system.lock.lfRange system.lock.lfBlocked

theorem Orderly.empty : Orderly (System.empty : System Owner) where
  faithful := .empty
  posix := by simp [System.empty]
  ranked := by simp [Ranked, System.empty]

theorem Orderly.move {system next : System Owner} {label : Label Owner}
    (orderly : Orderly system) (isPosix : label.Posix) (move : Move system label next) :
    Orderly next := by
  have faithful := orderly.faithful.move move
  obtain ⟨⟨sound, unused, -⟩, posix, ranked⟩ := orderly
  obtain ⟨request, rfl, rfl⟩ | ⟨index, refused, error, thread, segment, rfl, found, did, rfl⟩ :=
    move_cases sound unused move
  · refine ⟨faithful, ?_, ranked⟩
    intro thread member
    rcases List.mem_append.mp member with old | new
    · exact posix thread old
    · rw [List.mem_singleton.mp new]
      exact ⟨isPosix, by simp⟩
  · obtain ⟨threadPosix, outside⟩ := posix thread (List.mem_of_getElem? found)
    refine ⟨faithful, ?_, ?_⟩
    · intro other member
      rcases List.mem_or_eq_of_mem_set member with old | rfl
      · exact posix other old
      · refine ⟨threadPosix, ?_⟩
        cases did with
        | nothing phase upgrade =>
            intro inside
            simp [threadPosix] at upgrade
            exact upgrade inside
        | granted => simp
        | queued => simp
        | dequeued brange phase forward => exact forward
        | upgraded => simp
    · cases did with
      | nothing phase => exact ranked
      | granted after done => exact ranked.granted done
      | queued range member blocks awake =>
          exact ranked.append (blocks.obstructs member (sound.proper range member).1 _ _)
            (awake threadPosix)
      | dequeued brange phase => exact ranked.sublist List.filter_sublist
      | upgraded after inside => exact absurd inside outside

/-- POSIX requests do not wait for each other in a circle: in every state with a
waiting request, some owner of a range that a waiting request conflicts with is not
waiting itself; and a request is refused with `EDEADLK` only when the owner of the
first range it conflicts with is waiting. -/
theorem posix_waits_make_progress {system : System Owner} {labels : List (Label Owner)}
    (run : Run (fun state label next => label.Posix ∧ Move state label next)
      System.empty labels system) :
    (system.lock.lfBlocked ≠ [] →
      ∃ entry ∈ system.lock.lfBlocked, ∃ range ∈ system.lock.lfRange, Conflicts entry range ∧
        ∀ other ∈ system.lock.lfBlocked, other.lfOwner ≠ range.lfOwner) ∧
      ∀ (request : Request Owner) (refused : Bool) (segment : Segment Owner),
        attempt request refused system.lock = .done segment →
        segment.phase = .returned (some .edeadlk) →
        ∃ range, (system.lock.lfRange.find? fun range => request.Blocks range) = some range ∧
          ∃ entry ∈ system.lock.lfBlocked, entry.lfOwner = range.lfOwner := by
  have orderly : Orderly system :=
    run.invariant (fun orderly step => orderly.move step.1 step.2) .empty
  obtain ⟨⟨sound, unused, -⟩, -, ranked⟩ := orderly
  constructor
  · intro waiting
    obtain ⟨front, last, shape⟩ := (List.eq_nil_or_concat _).resolve_left waiting
    rw [List.concat_eq_append] at shape
    -- the last entry waits for an owner that is neither in front of it nor its own
    obtain ⟨owner, obstructs, ahead⟩ := ranked front last [] shape
    obtain ⟨range, member, rfl, conflicts⟩ := obstructs.conflicts
    refine ⟨last, by simp [shape], range, member, conflicts, ?_⟩
    intro other listed
    rw [shape, List.mem_append, List.mem_singleton] at listed
    rcases listed with early | rfl
    · exact ahead other early
    · exact conflicts.1.symm
  · intro request refused segment done refusal
    unfold attempt at done
    cases found : (scan request system.lock).conflict with
    | some range =>
        refine ⟨range, (scan_conflict sound).symm.trans found, ?_⟩
        simp only [found] at done
        repeat' split at done
        · obtain rfl := Outcome.done.inj done
          simp at refusal
        · rename_i blocked
          simp only [Bool.and_eq_true, List.any_eq_true, decide_eq_true_eq] at blocked
          exact blocked.2
        · obtain rfl := Outcome.done.inj done
          simp at refusal
        · obtain rfl := Outcome.done.inj done
          simp at refusal
    | none =>
        simp only [found, Outcome.bind_eq_done_iff] at done
        obtain ⟨result, updated, done⟩ := done
        cases result with
        | ok after =>
            obtain rfl := Outcome.done.inj done
            simp at refusal
        | error error =>
            obtain rfl := Outcome.done.inj done
            obtain rfl : error = .edeadlk := by simpa using refusal
            cases update_error _ updated

/-- The first owner holds a lock and asks for a second one that the second owner
holds; the second owner is then refused the lock of the first. -/
def crossRun : List (Label Nat) :=
  [.arrive ⟨1, .wrlck, ⟨true, true, false⟩, 0, 9, start_nonneg, ten_bytes⟩, .run 0 false none,
    .arrive ⟨2, .wrlck, ⟨true, true, false⟩, 20, 29, by decide, by decide⟩, .run 1 false none,
    .arrive ⟨1, .wrlck, ⟨true, true, false⟩, 25, 25, by decide, by decide⟩, .run 2 false none,
    .arrive ⟨2, .rdlck, ⟨true, true, false⟩, 5, 5, by decide, by decide⟩, .run 3 false none]

theorem posix_waits_make_progress_crossRun : ∃ system,
    Run (fun state label next => label.Posix ∧ Move state label next) System.empty crossRun system ∧
    system.threads.map Thread.phase =
      [.returned none, .returned none, .asleep 4, .returned (some .edeadlk)] ∧
    ∃ entry ∈ system.lock.lfBlocked, ∃ range ∈ system.lock.lfRange, Conflicts entry range ∧
      ∀ other ∈ system.lock.lfBlocked, other.lfOwner ≠ range.lfOwner := by
  obtain ⟨system, played, phases, waiting⟩ :
      ∃ system, play (fun _ label => label.Posix) System.empty crossRun = .done system ∧
        system.threads.map Thread.phase =
          [.returned none, .returned none, .asleep 4, .returned (some .edeadlk)] ∧
        system.lock.lfBlocked.map LockfRange.addr = [4] := ⟨_, rfl, rfl, rfl⟩
  have run := run_of_play played
  refine ⟨system, run, phases, (posix_waits_make_progress run).1 ?_⟩
  rintro nothing
  simp [nothing] at waiting

end Deadlock

end Dragonfly.Kern.ByteRange
