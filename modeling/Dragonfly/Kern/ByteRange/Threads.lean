import Dragonfly.Kern.ByteRange.Grant
import Dragonfly.Lib.Run

/-!
# Concurrent calls of `lf_setlock`

The token of the file is held except where a call blocks, so that a call is a
sequence of atomic segments: from `restart` to its end or to `tsleep`, with one more
stop inside the recursive unlock of a flock-style upgrade.  Any other call may run at
these points.  The history lists the granted requests, the most recent one first.
-/

namespace Dragonfly.Kern.ByteRange

open Dragonfly.Lib

/-- Where a call of `lf_setlock` stands. -/
inductive Phase where
  /-- at `restart`, where `lf_alloc_range` can block -/
  | alloc
  /-- at the `lf_alloc_range` of the recursive unlock -/
  | unlocking
  /-- in `tsleep`, with its range on `lf_blocked` until it is woken -/
  | asleep (brange : Nat)
  /-- in the `tsleep` against livelocks -/
  | napping (error : Option Errno)
  | returned (error : Option Errno)
  deriving DecidableEq, Repr

/-- A call of `lf_setlock`. -/
structure Thread (Owner : Type) where
  request : Request Owner
  count : Nat
  phase : Phase

/-- One file: its locks, the calls, and the history of granted requests. -/
structure System (Owner : Type) where
  lock : Lockf Owner
  threads : List (Thread Owner)
  history : List (Request Owner)

/-- A call arrives, or the call of an index runs on; `refused` is the answer of
`lf_count_change` and `error` that of `tsleep`. -/
inductive Label (Owner : Type) where
  | arrive (request : Request Owner)
  | run (index : Nat) (refused : Bool) (error : Option Errno)

/-- The flags of a range on `lf_blocked`. -/
def noFlags : Flags where
  posix := false
  wait := false
  noend := false

variable {Owner : Type} [DecidableEq Owner]

/-- Put the request at the tail of `lf_blocked`. -/
def queue (request : Request Owner) (lock : Lockf Owner) : Lockf Owner :=
  { lock with
    lfBlocked := lock.lfBlocked ++ [request.createRange lock.fresh noFlags]
    fresh := lock.fresh + 1 }

/-- The request of the recursive call. -/
def Request.unlock (request : Request Owner) : Request Owner :=
  { request with type := .unlck, flags := noFlags }

/-- What a segment of a call leaves behind: the locks, where the call stands, and the
requests it has granted. -/
structure Segment (Owner : Type) where
  lock : Lockf Owner
  phase : Phase
  granted : List (Request Owner)

/-- From `restart` on. -/
def attempt (request : Request Owner) (refused : Bool) (lock : Lockf Owner) :
    Outcome (Segment Owner) :=
  match (scan request lock).conflict with
  | some range =>
      if !request.flags.wait then
        .done ⟨lock, .returned (some .eagain), []⟩
      else if request.flags.posix && lock.lfBlocked.any (fun brange => brange.lfOwner = range.lfOwner) then
        .done ⟨lock, .returned (some .edeadlk), []⟩
      else if !request.flags.posix && request.type == .wrlck then
        .done ⟨lock, .unlocking, []⟩
      else
        .done ⟨queue request lock, .asleep lock.fresh, []⟩
  | none =>
      (update request lock (scan request lock) refused).bind fun
        | .error error => .done ⟨lock, .returned (some error), []⟩
        | .ok after => .done ⟨after, .returned none, [request]⟩

/-- The recursive unlock, whose result is ignored, and the rest of the way to `tsleep`. -/
def unlockAndQueue (request : Request Owner) (refused : Bool) (lock : Lockf Owner) :
    Outcome (Segment Owner) :=
  (update request.unlock lock (scan request.unlock lock) refused).bind fun
    | .error _ => .done ⟨queue request lock, .asleep lock.fresh, []⟩
    | .ok after => .done ⟨queue request after, .asleep after.fresh, [request.unlock]⟩

/-- Leave `lf_blocked` unless `lf_wakeup` has removed the range. -/
def dequeue (brange : Nat) (lock : Lockf Owner) : Lockf Owner :=
  { lock with lfBlocked := Keyed.remove LockfRange.addr brange lock.lfBlocked }

/-- `goto do_cleanup` or `goto restart` -/
def resume (error : Option Errno) : Phase :=
  match error with
  | some error => .returned (some error)
  | none => .alloc

/-- The next segment of a call. -/
def Thread.segment (thread : Thread Owner) (refused : Bool) (error : Option Errno)
    (lock : Lockf Owner) : Outcome (Segment Owner) :=
  match thread.phase with
  | .alloc => attempt thread.request refused lock
  | .unlocking => unlockAndQueue thread.request refused lock
  | .asleep brange =>
      .done ⟨dequeue brange lock,
        if thread.count = 2 then .napping error else resume error, []⟩
  | .napping error => .done ⟨lock, resume error, []⟩
  | .returned _ => .more

/-- `count` after the segment. -/
def Thread.nextCount (thread : Thread Owner) : Nat :=
  match thread.phase with
  | .asleep _ => if thread.count = 2 then 2 else thread.count + 1
  | _ => thread.count

/-- One step of the system. -/
def step (system : System Owner) : Label Owner → Outcome (System Owner)
  | .arrive request =>
      .done { system with threads := system.threads ++ [⟨request, 0, .alloc⟩] }
  | .run index refused error =>
      match system.threads[index]? with
      | none => .more
      | some thread =>
          (thread.segment refused error system.lock).bind fun segment =>
            .done
              { lock := segment.lock
                threads := system.threads.set index
                  ⟨thread.request, thread.nextCount, segment.phase⟩
                history := segment.granted ++ system.history }

/-- The steps that come back. -/
def Move (system : System Owner) (label : Label Owner) (next : System Owner) : Prop :=
  step system label = .done next

/-- Run through a list of steps as long as each meets the guard. -/
def play (guard : System Owner → Label Owner → Prop) [∀ system label, Decidable (guard system label)]
    (system : System Owner) : List (Label Owner) → Outcome (System Owner)
  | [] => .done system
  | label :: labels =>
      if guard system label then (step system label).bind fun next => play guard next labels
      else .more

theorem run_of_play {guard : System Owner → Label Owner → Prop}
    [∀ system label, Decidable (guard system label)] {system next : System Owner}
    {labels : List (Label Owner)} (played : play guard system labels = .done next) :
    Run (fun state label next => guard state label ∧ Move state label next) system labels next := by
  induction labels generalizing system with
  | nil =>
      obtain rfl := Outcome.done.inj played
      exact .nil system
  | cons label labels ih =>
      rw [play] at played
      split at played
      case isTrue allowed =>
        rw [Outcome.bind_eq_done_iff] at played
        obtain ⟨middle, first, rest⟩ := played
        exact .cons ⟨allowed, first⟩ (ih rest)
      case isFalse => cases played

/-- A file without locks. -/
def System.empty : System Owner where
  lock :=
    { lfRange := []
      lfBlocked := []
      fresh := 0 }
  threads := []
  history := []

/-- What a segment that comes back has done. -/
inductive Did (lock : Lockf Owner) (thread : Thread Owner) : Segment Owner → Prop where
  | nothing (phase : Phase)
      (upgrade : phase = .unlocking → thread.request.flags.posix = false ∧
        thread.request.type = .wrlck ∧ ∃ range ∈ lock.lfRange, thread.request.Blocks range) :
      Did lock thread ⟨lock, phase, []⟩
  | granted (after : Lockf Owner) (done : Granted thread.request lock after) :
      Did lock thread ⟨after, .returned none, [thread.request]⟩
  | queued (range : LockfRange Owner) (member : range ∈ lock.lfRange)
      (blocks : thread.request.Blocks range)
      (awake : thread.request.flags.posix = true →
        ∀ brange ∈ lock.lfBlocked, brange.lfOwner ≠ range.lfOwner) :
      Did lock thread ⟨queue thread.request lock, .asleep lock.fresh, []⟩
  | dequeued (brange : Nat) (phase : Phase) (forward : phase ≠ .unlocking) :
      Did lock thread ⟨dequeue brange lock, phase, []⟩
  | upgraded (after : Lockf Owner) (inside : thread.phase = .unlocking)
      (done : Granted thread.request.unlock lock after) :
      Did lock thread ⟨queue thread.request after, .asleep after.fresh, [thread.request.unlock]⟩

section Segments

variable {lock : Lockf Owner} {thread : Thread Owner} {refused : Bool} {error : Option Errno}
  {segment : Segment Owner}

theorem resume_ne (error : Option Errno) : resume error ≠ .unlocking := by
  cases error <;> simp [resume]

theorem attempt_did (sound : Sound lock.lfRange) (unused : Unused lock)
    (done : attempt thread.request refused lock = .done segment) : Did lock thread segment := by
  unfold attempt at done
  cases found : (scan thread.request lock).conflict with
  | some range =>
      obtain ⟨member, blocks⟩ := scan_conflict_eq_some sound found
      simp only [found] at done
      repeat' split at done
      · obtain rfl := Outcome.done.inj done
        exact .nothing _ (by simp)
      · obtain rfl := Outcome.done.inj done
        exact .nothing _ (by simp)
      · rename_i upgrade
        simp only [Bool.and_eq_true, Bool.not_eq_true', beq_iff_eq] at upgrade
        obtain rfl := Outcome.done.inj done
        exact .nothing _ (fun _ => ⟨upgrade.1, upgrade.2, range, member, blocks⟩)
      · rename_i awake _
        obtain rfl := Outcome.done.inj done
        refine .queued range member blocks ?_
        intro posix brange listed same
        exact awake (by simpa [posix] using ⟨brange, listed, same⟩)
  | none =>
      simp only [found, Outcome.bind_eq_done_iff] at done
      obtain ⟨result, updated, done⟩ := done
      cases result with
      | error error =>
          obtain rfl := Outcome.done.inj done
          exact .nothing _ (by simp)
      | ok after =>
          obtain rfl := Outcome.done.inj done
          exact .granted after (update_granted sound unused found updated)

/-- An unlock meets no conflicting range. -/
theorem scan_unlock (sound : Sound lock.lfRange) (request : Request Owner) :
    (scan request.unlock lock).conflict = none := by
  rw [scan_conflict_eq_none sound]
  intro range _ blocks
  have conflict := blocks.2.2
  simp [conflictsWith, Request.unlock] at conflict

/-- The recursive unlock asks for no new POSIX lock, so that it is not refused. -/
theorem update_unlock_ne_error (request : Request Owner) (error : Errno) :
    update request.unlock lock (scan request.unlock lock) refused ≠ .done (.error error) := by
  intro failed
  unfold update at failed
  split at failed
  · have none : ∀ first last, reserve request.unlock first last = 0 := by
      intro first last
      simp [reserve, Request.unlock, noFlags]
    simp only [none, ne_eq, not_true_eq_false, false_and, if_false, Outcome.bind_eq_done_iff,
      Outcome.kkassert_eq_done_iff, Outcome.done.injEq, reduceCtorEq, and_false, exists_false] at failed
  · simp [Request.unlock] at failed

theorem unlockAndQueue_did (sound : Sound lock.lfRange) (unused : Unused lock)
    (inside : thread.phase = .unlocking)
    (done : unlockAndQueue thread.request refused lock = .done segment) :
    Did lock thread segment := by
  unfold unlockAndQueue at done
  rw [Outcome.bind_eq_done_iff] at done
  obtain ⟨result, updated, done⟩ := done
  cases result with
  | error error => exact absurd updated (update_unlock_ne_error thread.request error)
  | ok after =>
      obtain rfl := Outcome.done.inj done
      exact .upgraded after inside (update_granted sound unused (scan_unlock sound _) updated)

/-- Every segment that comes back has done one of these things. -/
theorem segment_did (sound : Sound lock.lfRange) (unused : Unused lock)
    (done : thread.segment refused error lock = .done segment) : Did lock thread segment := by
  unfold Thread.segment at done
  split at done
  case h_1 => exact attempt_did sound unused done
  case h_2 inside => exact unlockAndQueue_did sound unused inside done
  case h_3 brange _ =>
    obtain rfl := Outcome.done.inj done
    refine .dequeued brange _ ?_
    split
    · simp
    · exact resume_ne error
  case h_4 =>
    obtain rfl := Outcome.done.inj done
    exact .nothing _ (fun equal => absurd equal (resume_ne _))
  case h_5 => cases done

end Segments

/-- What a step of the system is. -/
theorem move_cases {system next : System Owner} {label : Label Owner}
    (sound : Sound system.lock.lfRange) (unused : Unused system.lock)
    (move : Move system label next) :
    (∃ request, label = .arrive request ∧
      next = { system with threads := system.threads ++ [⟨request, 0, .alloc⟩] }) ∨
    ∃ index refused error thread segment, label = .run index refused error ∧
      system.threads[index]? = some thread ∧ Did system.lock thread segment ∧
      next =
        { lock := segment.lock
          threads := system.threads.set index ⟨thread.request, thread.nextCount, segment.phase⟩
          history := segment.granted ++ system.history } := by
  cases label with
  | arrive request => exact .inl ⟨request, rfl, (Outcome.done.inj move).symm⟩
  | run index refused error =>
      unfold Move step at move
      cases found : system.threads[index]? with
      | none => simp [found] at move
      | some thread =>
          simp only [found, Outcome.bind_eq_done_iff] at move
          obtain ⟨segment, done, next⟩ := move
          exact .inr ⟨index, refused, error, thread, segment, rfl, found,
            segment_did sound unused done, (Outcome.done.inj next).symm⟩

end Dragonfly.Kern.ByteRange
