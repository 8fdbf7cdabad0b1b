import Dragonfly.Kern.ByteRange.Threads

/-!
# Locks as the history of requests

What the lists of ranges stand for: at every byte an owner holds what its most
recent granted request for the byte asked for.
-/

namespace Dragonfly.Kern.ByteRange

open Dragonfly.Lib

variable {Owner : Type} [DecidableEq Owner]

/-- The lock that the most recent request of the owner for the byte leaves, with the
most recent request first. -/
def recent (history : List (Request Owner)) (owner : Owner) (byte : Int) : Option LockType :=
  match history.find? fun request => request.owner = owner ∧ request.Has byte with
  | none => none
  | some request => if request.type = .unlck then none else some request.type

theorem recent_cons_of_pos {request : Request Owner} {owner : Owner} {byte : Int}
    (asks : request.owner = owner ∧ request.Has byte) (history : List (Request Owner)) :
    recent (request :: history) owner byte =
      if request.type = .unlck then none else some request.type := by
  rw [recent, List.find?_cons_of_pos (by simpa using asks)]

theorem recent_cons_of_neg {request : Request Owner} {owner : Owner} {byte : Int}
    (other : ¬(request.owner = owner ∧ request.Has byte)) (history : List (Request Owner)) :
    recent (request :: history) owner byte = recent history owner byte := by
  rw [recent, List.find?_cons_of_neg (by simpa using other), recent]

/-- The list is sound and stands for the history. -/
structure Faithful (system : System Owner) : Prop where
  sound : Sound system.lock.lfRange
  unused : Unused system.lock
  held : ∀ owner byte type, Covers system.lock.lfRange owner byte type ↔
    recent system.history owner byte = some type

theorem Faithful.empty : Faithful (System.empty : System Owner) where
  sound := .nil
  unused := by simp [Unused, System.empty]
  held := by simp [Covers, System.empty, recent]

/-- A granted request is the most recent one at its bytes. -/
theorem Applied.held {request : Request Owner} {before after : List (LockfRange Owner)}
    {history : List (Request Owner)} (applied : Applied request before after)
    (held : ∀ owner byte type, Covers before owner byte type ↔
      recent history owner byte = some type) (owner : Owner) (byte : Int) (type : LockType) :
    Covers after owner byte type ↔ recent (request :: history) owner byte = some type := by
  by_cases own : owner = request.owner
  · subst own
    by_cases requested : request.Has byte
    · rw [applied.inside byte requested, recent_cons_of_pos ⟨rfl, requested⟩]
      by_cases unlock : request.type = .unlck
      · simp [unlock]
      · simp [unlock, eq_comm]
    · rw [applied.outside byte requested, held, recent_cons_of_neg (fun asks => requested asks.2)]
  · rw [applied.others owner own, held, recent_cons_of_neg (fun asks => own asks.1.symm)]

theorem Faithful.move {system next : System Owner} {label : Label Owner}
    (faithful : Faithful system) (move : Move system label next) : Faithful next := by
  obtain ⟨sound, unused, held⟩ := faithful
  obtain ⟨request, -, rfl⟩ | ⟨index, refused, error, thread, segment, -, -, did, rfl⟩ :=
    move_cases sound unused move
  · exact ⟨sound, unused, held⟩
  · cases did with
    | nothing phase => exact ⟨sound, unused, held⟩
    | granted after done =>
        exact ⟨done.applied.sound, done.unused, done.applied.held held⟩
    | queued range =>
        exact ⟨sound, fun range member => (unused range member).trans (Nat.lt_succ_self _), held⟩
    | dequeued brange phase => exact ⟨sound, unused, held⟩
    | upgraded after inside done =>
        exact ⟨done.applied.sound,
          fun range member => (done.unused range member).trans (Nat.lt_succ_self _),
          done.applied.held held⟩

theorem Faithful.run {system : System Owner} {labels : List (Label Owner)}
    (run : Run Move System.empty labels system) : Faithful system :=
  run.invariant (fun faithful move => faithful.move move) .empty

/-- In every state that calls can lead to, an owner holds at a byte what its most
recent granted request for the byte asked for; the list is sorted, the ranges of an
owner are disjoint and ranges of different owners overlap only when both are shared
locks; and a POSIX request that conflicts with none of them is granted. -/
theorem locks_follow_requests {system : System Owner} {labels : List (Label Owner)}
    (run : Run Move System.empty labels system) :
    (∀ owner byte, heldType system.lock.lfRange owner byte = recent system.history owner byte) ∧
      system.lock.lfRange.Pairwise (fun x y => x.lfStart ≤ y.lfStart) ∧
      (∀ range ∈ system.lock.lfRange, range.lfStart ≤ range.lfEnd) ∧
      system.lock.lfRange.Pairwise (fun x y => x.lfOwner = y.lfOwner →
        x.lfEnd < y.lfStart ∨ y.lfEnd < x.lfStart) ∧
      (∀ x ∈ system.lock.lfRange, ∀ y ∈ system.lock.lfRange, x.lfOwner ≠ y.lfOwner →
        x.lfStart ≤ y.lfEnd → y.lfStart ≤ x.lfEnd → x.lfType = .rdlck ∧ y.lfType = .rdlck) ∧
      ∀ request : Request Owner, request.flags.posix = true →
        (∀ range ∈ system.lock.lfRange, ¬request.Blocks range) →
        ∃ after, attempt request false system.lock = .done ⟨after, .returned none, [request]⟩ := by
  obtain ⟨sound, unused, held⟩ := Faithful.run run
  refine ⟨?_, sound.sorted, fun range member => (sound.proper range member).1, ?_, ?_, ?_⟩
  · intro owner byte
    refine Option.ext fun type => ?_
    rw [sound.heldType_eq_some_iff, held]
  · refine sound.distinct.imp_of_mem ?_
    intro x y xMem yMem different owner
    exact sound.apart xMem yMem owner (fun equal => different (equal ▸ rfl))
  · intro x xMem y yMem different left right
    -- both cover the later of the two starts
    have xHas : x.Has (max x.lfStart y.lfStart) :=
      ⟨le_max_left _ _, max_le (sound.proper x xMem).1 right⟩
    have yHas : y.Has (max x.lfStart y.lfStart) :=
      ⟨le_max_right _ _, max_le left (sound.proper y yMem).1⟩
    have xCovers : Covers system.lock.lfRange x.lfOwner _ x.lfType := ⟨x, xMem, rfl, xHas, rfl⟩
    have yCovers : Covers system.lock.lfRange y.lfOwner _ y.lfType := ⟨y, yMem, rfl, yHas, rfl⟩
    exact ⟨sound.shared _ _ different _ _ xCovers ⟨_, yCovers⟩,
      sound.shared _ _ different.symm _ _ yCovers ⟨_, xCovers⟩⟩
  · intro request posix clear
    have free := (scan_conflict_eq_none sound).mpr clear
    obtain ⟨after, done⟩ | ⟨denied, -⟩ : (∃ after, update request system.lock
        (scan request system.lock) false = .done (.ok after)) ∨ false = true ∧ _ :=
      update_returns sound unused free (.inl posix)
    · refine ⟨after, ?_⟩
      simp [attempt, free, done, Outcome.bind]
    · cases denied

/-- A shared lock, an exclusive one of the same owner in its middle, and a shared one
of a second owner beside it. -/
def breakUpRun : List (Label Nat) :=
  [.arrive ⟨1, .rdlck, ⟨true, false, false⟩, 0, 9, start_nonneg, ten_bytes⟩, .run 0 false none,
    .arrive ⟨1, .wrlck, ⟨true, false, false⟩, 3, 5, by decide, by decide⟩, .run 1 false none,
    .arrive ⟨2, .rdlck, ⟨true, false, false⟩, 6, 9, by decide, by decide⟩, .run 2 false none]

theorem locks_follow_requests_breakUpRun : ∃ system,
    Run Move System.empty breakUpRun system ∧
    system.lock.lfRange.map (fun range => (range.lfOwner, range.lfStart, range.lfEnd)) =
      [(1, 0, 2), (1, 3, 5), (2, 6, 9), (1, 6, 9)] ∧
    ∀ owner byte, heldType system.lock.lfRange owner byte = recent system.history owner byte := by
  obtain ⟨system, played, ranges⟩ :
      ∃ system, play (fun _ _ => True) System.empty breakUpRun = .done system ∧
        system.lock.lfRange.map (fun range => (range.lfOwner, range.lfStart, range.lfEnd)) =
          [(1, 0, 2), (1, 3, 5), (2, 6, 9), (1, 6, 9)] := ⟨_, rfl, rfl⟩
  have run := (run_of_play played).mono And.right
  exact ⟨system, run, ranges, (locks_follow_requests run).1⟩

end Dragonfly.Kern.ByteRange
