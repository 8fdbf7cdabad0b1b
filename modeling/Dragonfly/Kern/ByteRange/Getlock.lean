import Mathlib
import Dragonfly.Kern.ByteRange.History
import Dragonfly.Kern.ByteRange.Noend

/-!
# `F_GETLK`

`lf_advlock` turns a `struct flock` into a request, and `lf_getlock` turns the first range
in its way back into one.  A note kept beside a run says which owners hold a lock up to
the last offset as the result of a to-end-of-file request; the flags of the list agree with
it as long as every unlock to the last offset spares the ranges it begins inside of.
-/

namespace Dragonfly.Kern.ByteRange

open Dragonfly.Lib

/-- `SEEK_SET`, `SEEK_CUR` and `SEEK_END` -/
inductive Whence where
  | seekSet
  | seekCur
  | seekEnd
  deriving DecidableEq, Repr

/-- The fields of `struct flock` that `lf_advlock` reads; `none` is any other `l_whence`. -/
structure Flock where
  lType : LockType
  lWhence : Option Whence
  lStart : Int64
  lLen : Int64
  deriving DecidableEq

/-- What `lf_getlock` stores in the caller's `struct flock`; `none` is the process id -1. -/
structure Blocker (Owner : Type) where
  lType : LockType
  lStart : Int
  lLen : Int64
  lPid : Option Owner
  deriving DecidableEq

theorem le_llongMax (offset : Int64) : offset.toInt ≤ llongMax := Int64.toInt_le offset

theorem toInt_nonneg {offset : Int64} (positive : ¬offset < 0) : 0 ≤ offset.toInt := by
  rw [Int64.lt_iff_toInt_lt] at positive
  exact not_lt.mp positive

variable {Owner : Type}

/-- The `start` of `lf_advlock`. -/
def advStart (size : UInt64) (fl : Flock) (whence : Whence) : Int64 :=
  match whence with
  | .seekSet => fl.lStart
  | .seekCur => fl.lStart
  | .seekEnd => size.toInt64 + fl.lStart

/-- The conversion of `lf_advlock`; `none` is `EINVAL`. -/
def advlock (owner : Owner) (posix wait : Bool) (size : UInt64) (fl : Flock) : Option (Request Owner) :=
  match fl.lWhence with
  | none => none
  | some whence =>
      let start := advStart size fl whence
      if negative : start < 0 then none
      else if fl.lLen = 0 then
        some
          { owner := owner
            type := fl.lType
            flags := { posix := posix, wait := wait, noend := true }
            start := start.toInt
            stop := llongMax
            nonneg := toInt_nonneg negative
            le := le_llongMax start }
      else if fl.lLen < 0 then none
      else if short : start + fl.lLen - 1 < start then none
      else
        some
          { owner := owner
            type := fl.lType
            flags := { posix := posix, wait := wait, noend := false }
            start := start.toInt
            stop := (start + fl.lLen - 1).toInt
            nonneg := toInt_nonneg negative
            le := by
              rw [Int64.lt_iff_toInt_lt] at short
              exact not_lt.mp short }

/-- A request as `lf_advlock` makes them. -/
def Advised (request : Request Owner) : Prop :=
  ∃ posix wait size fl, advlock request.owner posix wait size fl = some request

/-- What a conversion passes on fits. -/
theorem Advised.fits {request : Request Owner} (advised : Advised request) : request.Fits := by
  obtain ⟨posix, wait, size, fl, is⟩ := advised
  unfold advlock at is
  repeat' split at is
  · cases is
  · dsimp only at is
    repeat' split at is
    · cases is
    · rw [← Option.some.inj is]
      exact ⟨le_rfl, fun _ => rfl⟩
    · cases is
    · cases is
    · rw [← Option.some.inj is]
      exact ⟨le_llongMax _, fun noend => absurd noend Bool.false_ne_true⟩

variable [DecidableEq Owner]

/-- Whether `lf_getlock` stops at the range. -/
def inWay (request : Request Owner) (range : LockfRange Owner) : Bool :=
  range.lfOwner ≠ request.owner && lfOverlap range request.start request.stop &&
    (request.type == .wrlck || range.lfType == .wrlck)

/-- What `lf_getlock` reports of a range. -/
def report (range : LockfRange Owner) : Blocker Owner where
  lType := range.lfType
  lStart := range.lfStart
  lLen := if range.lfFlags.noend then 0 else Int64.ofInt (range.lfEnd - range.lfStart + 1)
  lPid := if range.lfFlags.posix then some range.lfOwner else none

/-- `lf_getlock`; `none` stores `F_UNLCK` only. -/
def lfGetlock (request : Request Owner) (lock : Lockf Owner) : Option (Blocker Owner) :=
  (lock.lfRange.find? (inWay request)).map report

/-! ## Runs -/

/-- The note after a step: it changes for the owner of a request that the step grants. -/
def endlessAfter (before next : System Owner) (endless : Owner → Bool) : Owner → Bool :=
  match next.history with
  | [] => endless
  | request :: earlier =>
      if earlier.length = before.history.length then
        Function.update endless request.owner
          (request.endless before.lock.lfRange (endless request.owner))
      else endless

/-- A step beside which the note is kept: the call has come through `lf_advlock`, and an
unlock to the last offset does not begin inside a range that has the flag. -/
structure Careful (state : System Owner × (Owner → Bool)) (label : Label Owner)
    (next : System Owner × (Owner → Bool)) : Prop where
  move : Move state.1 label next.1
  note : next.2 = endlessAfter state.1 next.1 state.2
  arrives : ∀ request, label = .arrive request → Advised request
  spares : ∀ request, next.1.history = request :: state.1.history → request.Spares state.1.lock.lfRange

/-- What a step does to the list: nothing, or a request is granted. -/
inductive Change (system next : System Owner) : Prop where
  | nothing (ranges : next.lock.lfRange = system.lock.lfRange) (history : next.history = system.history)
  | granted (request : Request Owner) (refused : Bool) (after : Lockf Owner)
      (history : next.history = request :: system.history)
      (caller : ∃ thread ∈ system.threads, request = thread.request ∨ request = thread.request.unlock)
      (free : (scan request system.lock).conflict = none)
      (updated : update request system.lock (scan request system.lock) refused = .done (.ok after))
      (ranges : next.lock.lfRange = after.lfRange)

theorem move_change {system next : System Owner} {label : Label Owner} (sound : Sound system.lock.lfRange)
    (move : Move system label next) : Change system next := by
  unfold Move step at move
  split at move
  · obtain rfl := Outcome.done.inj move
    exact .nothing rfl rfl
  · rename_i index refused error
    cases found : system.threads[index]? with
    | none => simp [found] at move
    | some thread =>
        have listed := List.mem_of_getElem? found
        simp only [found, Outcome.bind_eq_done_iff] at move
        obtain ⟨segment, done, isNext⟩ := move
        obtain rfl := Outcome.done.inj isNext
        unfold Thread.segment at done
        split at done
        case h_1 =>
          unfold attempt at done
          cases conflict : (scan thread.request system.lock).conflict with
          | some range =>
              simp only [conflict] at done
              repeat' split at done
              all_goals
                obtain rfl := Outcome.done.inj done
                exact .nothing rfl rfl
          | none =>
              simp only [conflict, Outcome.bind_eq_done_iff] at done
              obtain ⟨result, updated, done⟩ := done
              cases result with
              | error error =>
                  obtain rfl := Outcome.done.inj done
                  exact .nothing rfl rfl
              | ok after =>
                  obtain rfl := Outcome.done.inj done
                  exact .granted thread.request refused after rfl ⟨thread, listed, .inl rfl⟩ conflict updated rfl
        case h_2 =>
          unfold unlockAndQueue at done
          rw [Outcome.bind_eq_done_iff] at done
          obtain ⟨result, updated, done⟩ := done
          cases result with
          | error error =>
              obtain rfl := Outcome.done.inj done
              exact .nothing rfl rfl
          | ok after =>
              obtain rfl := Outcome.done.inj done
              exact .granted thread.request.unlock refused after rfl ⟨thread, listed, .inr rfl⟩
                (scan_unlock sound _) updated rfl
        case h_3 =>
          obtain rfl := Outcome.done.inj done
          exact .nothing rfl rfl
        case h_4 =>
          obtain rfl := Outcome.done.inj done
          exact .nothing rfl rfl
        case h_5 => cases done

/-- The requests of the calls after a step. -/
theorem requests_of_move {system next : System Owner} {label : Label Owner} (sound : Sound system.lock.lfRange)
    (unused : Unused system.lock) (move : Move system label next) :
    ∀ thread ∈ next.threads, label = .arrive thread.request ∨
      ∃ earlier ∈ system.threads, earlier.request = thread.request := by
  intro thread member
  obtain ⟨request, rfl, rfl⟩ | ⟨index, refused, error, caller, segment, -, found, -, rfl⟩ :=
    move_cases sound unused move
  · rcases List.mem_append.mp member with earlier | new
    · exact .inr ⟨thread, earlier, rfl⟩
    · rw [List.mem_singleton.mp new]
      exact .inl rfl
  · rcases List.mem_or_eq_of_mem_set member with earlier | rfl
    · exact .inr ⟨thread, earlier, rfl⟩
    · exact .inr ⟨caller, List.mem_of_getElem? found, rfl⟩

/-- What holds in the states that careful steps lead to. -/
structure Extents (state : System Owner × (Owner → Bool)) : Prop where
  faithful : Faithful state.1
  fits : ∀ thread ∈ state.1.threads, thread.request.Fits
  agrees : ∀ owner, Agrees owner (state.2 owner) state.1.lock.lfRange

theorem Extents.empty : Extents ((System.empty : System Owner), fun _ => false) where
  faithful := .empty
  fits := by simp [System.empty]
  agrees owner range member := by simp [System.empty] at member

omit [DecidableEq Owner] in
theorem Request.Fits.unlock {request : Request Owner} (fits : request.Fits) : request.unlock.Fits where
  stop := fits.stop
  noend flagged := nomatch flagged

theorem Extents.step {state next : System Owner × (Owner → Bool)} {label : Label Owner} (extents : Extents state)
    (careful : Careful state label next) : Extents next := by
  obtain ⟨faithful, fits, agrees⟩ := extents
  obtain ⟨move, note, arrives, spares⟩ := careful
  refine ⟨faithful.move move, ?_, ?_⟩
  · intro thread member
    rcases requests_of_move faithful.sound faithful.unused move thread member with arrived | ⟨earlier, listed, same⟩
    · exact (arrives _ arrived).fits
    · rw [← same]
      exact fits earlier listed
  · intro owner
    rw [note]
    cases move_change faithful.sound move with
    | nothing ranges history =>
        have unchanged : endlessAfter state.1 next.1 state.2 = state.2 := by
          rw [endlessAfter, history]
          split
          · rfl
          · rename_i request earlier shape
            rw [if_neg (by rw [shape, List.length_cons]; omega)]
        rw [unchanged, ranges]
        exact agrees owner
    | granted request refused after history caller free updated ranges =>
        have changed : endlessAfter state.1 next.1 state.2 = Function.update state.2 request.owner
            (request.endless state.1.lock.lfRange (state.2 request.owner)) := by
          rw [endlessAfter, history]
          exact if_pos rfl
        have requestFits : request.Fits := by
          obtain ⟨thread, listed, rfl | rfl⟩ := caller
          · exact fits thread listed
          · exact (fits thread listed).unlock
        rw [changed, ranges]
        exact update_agrees requestFits (spares request history) faithful.sound faithful.unused free agrees updated owner

/-- No range begins in front of the file. -/
theorem Faithful.nonneg {system : System Owner} (faithful : Faithful system) {range : LockfRange Owner}
    (member : range ∈ system.lock.lfRange) : 0 ≤ range.lfStart := by
  have proper := (faithful.sound.proper range member).1
  have covers : Covers system.lock.lfRange range.lfOwner range.lfStart range.lfType :=
    ⟨range, member, rfl, ⟨le_rfl, proper⟩, rfl⟩
  have asked := (faithful.held _ _ _).mp covers
  unfold recent at asked
  split at asked
  · cases asked
  · rename_i request found
    have has := List.find?_some found
    rw [decide_eq_true_eq] at has
    exact request.nonneg.trans has.2.1

/-- A lock to the end of the file. -/
def endlessLock : Request Nat := ⟨1, .wrlck, ⟨true, false, true⟩, 0, llongMax, start_nonneg, by decide⟩

/-- The unlock of everything from byte 100 on. -/
def unlockTail : Request Nat := ⟨1, .unlck, ⟨true, false, true⟩, 100, llongMax, by decide, by decide⟩

/-- A request of a second owner that asks for the first byte. -/
def question : Request Nat := ⟨2, .wrlck, ⟨true, false, false⟩, 0, 0, start_nonneg, start_nonneg⟩

/-- Two requests of calls that do not wait, one after the other. -/
def oneByOne (first second : Request Nat) : List (Label Nat) :=
  [.arrive first, .run 0 false none, .arrive second, .run 1 false none]

end Dragonfly.Kern.ByteRange
