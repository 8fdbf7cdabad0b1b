import Dragonfly.Hammer.Fifo.Pieces
import Mathlib.Data.List.Forall2

/-!
# Encoder and scanners agree

Over any sequence of calls of `hammer_generate_undo` and `hammer_generate_redo`
both scanners read back what has been laid down, and the record behind it does not
continue the sequence.
-/

namespace Dragonfly.Hammer.Fifo

open Dragonfly.Lib

/-- A call of the encoder. -/
inductive Call where
  | undo (time zoneOff : Nat) (data : List UInt8)
  | redo (time : Nat) (ip : Option Nat) (fileOff flags : Nat) (payload : Payload)

def Call.run (mount : Mount) : Call → Outcome Mount
  | .undo time zoneOff data => generateUndo mount time zoneOff data
  | .redo time ip fileOff flags payload => generateRedo mount time ip fileOff flags payload

def runCalls : List Call → Mount → Outcome Mount
  | [], mount => .done mount
  | call :: calls, mount => (call.run mount).bind (runCalls calls)

/-- Whether a request is for a REDO_SYNC record. -/
def Request.isSync : Request → Bool
  | .undo .. => false
  | .redo head _ _ => head.flags = redoSync

/-- What the calls ask for: every REDO, and every UNDO that is not in the history. -/
def asked (first : Mount) : List Undo → List Call → List Request
  | _, [] => []
  | undos, .undo _ zoneOff data :: calls =>
      match enterUndoHistory undos zoneOff data.length with
      | (false, undos) => asked first undos calls
      | (true, undos) => .undo zoneOff data :: asked first undos calls
  | undos, .redo time ip fileOff flags payload :: calls =>
      .redo (redoHead first time ip flags) fileOff payload :: asked first undos calls

/-! ## Requests -/

/-- Records for the requests `new` have been laid down. -/
structure Adds (mount after : Mount) (new : List Request) : Prop where
  requests : after.requests = mount.requests ++ new
  undos : after.undos = mount.undos
  grows : mount.stats ≤ after.stats
  ids : ∀ ip, (after.inodes ip).objId = (mount.inodes ip).objId ∧
    (after.inodes ip).objLocalization = (mount.inodes ip).objLocalization

theorem Adds.trans {first second third : Mount} {new more : List Request}
    (left : Adds first second new) (right : Adds second third more) :
    Adds first third (new ++ more) := by
  refine ⟨?_, right.undos.trans left.undos, left.grows.trans right.grows, fun ip =>
    ⟨(right.ids ip).1.trans (left.ids ip).1, (right.ids ip).2.trans (left.ids ip).2⟩⟩
  rw [right.requests, left.requests, List.append_assoc]

theorem redoHead_eq {first mount : Mount}
    (ids : ∀ ip, (mount.inodes ip).objId = (first.inodes ip).objId ∧
      (mount.inodes ip).objLocalization = (first.inodes ip).objLocalization)
    (time : Nat) (ip : Option Nat) (flags : Nat) :
    redoHead mount time ip flags = redoHead first time ip flags := by
  cases ip with
  | none => rfl
  | some ip =>
      unfold redoHead
      dsimp only
      rw [(ids ip).1, (ids ip).2]

theorem checkSpace_eq_done {mount after : Mount} {len : Nat} {rest : Outcome Mount}
    (ran : mount.checkSpace len rest = .done after) : rest = .done after := by
  unfold Mount.checkSpace at ran
  simp only [Outcome.kkassert_eq_done_iff] at ran
  exact ran.2.2

/-- `hammer_generate_redo` without the REDO_SYNC is its loop. -/
theorem layRedo_inv {mount after : Mount} {time : Nat} {ip : Option Nat} {fileOff flags : Nat}
    {payload : Payload} (ran : layRedo mount time ip fileOff flags payload = .done after) :
    ∃ middle, redoRecords (redoHead mount time ip flags) ip (2 * payload.len + 2) mount fileOff
        payload = .done middle ∧
      after = { middle with requests := middle.requests ++
        [.redo (redoHead mount time ip flags) fileOff payload] } := by
  have looped := checkSpace_eq_done ran
  simp only [Outcome.bind_eq_done_iff, Outcome.done.injEq] at looped
  obtain ⟨middle, done, same⟩ := looped
  exact ⟨middle, done, same.symm⟩

theorem layRedo_adds {mount after : Mount} {time : Nat} {ip : Option Nat} {fileOff flags : Nat}
    {payload : Payload} (ran : layRedo mount time ip fileOff flags payload = .done after) :
    Adds mount after [.redo (redoHead mount time ip flags) fileOff payload] := by
  obtain ⟨middle, looped, rfl⟩ := layRedo_inv ran
  have frame := redoRecords_frame looped
  refine ⟨?_, frame.undos, frame.grows, frame.ids⟩
  dsimp only
  rw [frame.requests]

theorem generateRedoSync_adds {mount after : Mount} {time : Nat}
    (ran : generateRedoSync mount time = .done after) :
    ∃ new, Adds mount after new ∧ ∀ request ∈ new, request.isSync = true := by
  simp only [generateRedoSync] at ran
  split at ran
  · cases ran
    exact ⟨[], ⟨by simp, rfl, le_rfl, fun _ => ⟨rfl, rfl⟩⟩, by simp⟩
  · simp only [Outcome.bind_eq_done_iff, Outcome.done.injEq] at ran
    obtain ⟨middle, laid, rfl⟩ := ran
    have adds := layRedo_adds laid
    exact ⟨_, ⟨adds.requests, adds.undos, adds.grows, adds.ids⟩, by simp [Request.isSync, redoHead]⟩

theorem generateRedo_adds {mount after : Mount} {time : Nat} {ip : Option Nat}
    {fileOff flags : Nat} {payload : Payload}
    (ran : generateRedo mount time ip fileOff flags payload = .done after) :
    ∃ new, Adds mount after (.redo (redoHead mount time ip flags) fileOff payload :: new) ∧
      ∀ request ∈ new, request.isSync = true := by
  simp only [generateRedo, Outcome.bind_eq_done_iff] at ran
  obtain ⟨middle, laid, ran⟩ := ran
  have adds := layRedo_adds laid
  split at ran
  · obtain ⟨new, more, syncs⟩ := generateRedoSync_adds ran
    exact ⟨new, adds.trans more, syncs⟩
  · cases ran
    exact ⟨[], adds, by simp⟩

/-- `hammer_generate_undo` without the REDO_SYNC: either the range is in the history,
or its loop runs. -/
theorem generateUndo_inv {mount after : Mount} {time zoneOff : Nat} {data : List UInt8}
    (ran : generateUndo mount time zoneOff data = .done after) :
    ∃ synced, (if ¬ mount.redoSync then generateRedoSync mount time else .done mount) =
        .done synced ∧
      match enterUndoHistory synced.undos zoneOff data.length with
      | (false, undos) => after = { synced with undos }
      | (true, undos) => ∃ middle,
          undoRecords (2 * data.length + 2) { synced with undos } zoneOff data = .done middle ∧
          after = { middle with requests := middle.requests ++ [.undo zoneOff data] } := by
  simp only [generateUndo, Outcome.bind_eq_done_iff] at ran
  obtain ⟨synced, sync, ran⟩ := ran
  refine ⟨synced, sync, ?_⟩
  revert ran
  rcases enterUndoHistory synced.undos zoneOff data.length with ⟨added, undos⟩
  intro ran
  cases added with
  | false => exact (Outcome.done.inj ran).symm
  | true =>
      have looped := checkSpace_eq_done ran
      simp only [Outcome.bind_eq_done_iff, Outcome.done.injEq] at looped
      obtain ⟨middle, done, same⟩ := looped
      exact ⟨middle, done, same.symm⟩

theorem sync_adds {mount after : Mount} {time : Nat}
    (ran : (if ¬ mount.redoSync then generateRedoSync mount time else .done mount) = .done after) :
    ∃ new, Adds mount after new ∧ ∀ request ∈ new, request.isSync = true := by
  split at ran
  · exact generateRedoSync_adds ran
  · cases ran
    exact ⟨[], ⟨by simp, rfl, le_rfl, fun _ => ⟨rfl, rfl⟩⟩, by simp⟩

theorem filter_syncs {requests : List Request}
    (syncs : ∀ request ∈ requests, request.isSync = true) :
    requests.filter (!·.isSync) = [] := by
  rw [List.filter_eq_nil_iff]
  intro request member
  simp [syncs request member]

theorem generateUndo_adds {mount after : Mount} {time zoneOff : Nat} {data : List UInt8}
    (ran : generateUndo mount time zoneOff data = .done after) :
    ∃ new, Adds { mount with undos := (enterUndoHistory mount.undos zoneOff data.length).2 } after
        new ∧
      new.filter (!·.isSync) =
        if (enterUndoHistory mount.undos zoneOff data.length).1 then [.undo zoneOff data] else [] := by
  obtain ⟨synced, sync, ran⟩ := generateUndo_inv ran
  obtain ⟨new, adds, syncs⟩ := sync_adds sync
  have onlySyncs := filter_syncs syncs
  rw [adds.undos] at ran
  rcases entered : enterUndoHistory mount.undos zoneOff data.length with ⟨_ | _, undos⟩
  · rw [entered] at ran
    obtain rfl := ran
    exact ⟨new, ⟨adds.requests, rfl, adds.grows, adds.ids⟩, by simpa using onlySyncs⟩
  · rw [entered] at ran
    obtain ⟨middle, looped, rfl⟩ := ran
    have frame := undoRecords_frame looped
    refine ⟨new ++ [.undo zoneOff data], ⟨?_, frame.undos, adds.grows.trans frame.grows, ?_⟩, ?_⟩
    · dsimp only
      rw [frame.requests, adds.requests, List.append_assoc]
    · exact fun ip => ⟨(frame.ids ip).1.trans (adds.ids ip).1,
        (frame.ids ip).2.trans (adds.ids ip).2⟩
    · rw [List.filter_append, onlySyncs]
      rfl

/-- Up to REDO_SYNCs, records are laid down for what the calls ask for. -/
theorem runCalls_requests {first : Mount} {calls : List Call} {mount after : Mount}
    (ids : ∀ ip, (mount.inodes ip).objId = (first.inodes ip).objId ∧
      (mount.inodes ip).objLocalization = (first.inodes ip).objLocalization)
    (ran : runCalls calls mount = .done after) :
    ∃ new, after.requests = mount.requests ++ new ∧
      new.filter (!·.isSync) = (asked first mount.undos calls).filter (!·.isSync) := by
  induction calls generalizing mount with
  | nil =>
      cases ran
      exact ⟨[], by simp, rfl⟩
  | cons call calls ih =>
      simp only [runCalls, Outcome.bind_eq_done_iff] at ran
      obtain ⟨middle, stepped, ran⟩ := ran
      cases call with
      | undo time zoneOff data =>
          obtain ⟨new, adds, filtered⟩ := generateUndo_adds stepped
          obtain ⟨more, requests, rest⟩ := ih (fun ip => ⟨(adds.ids ip).1.trans (ids ip).1,
            (adds.ids ip).2.trans (ids ip).2⟩) ran
          refine ⟨new ++ more, by rw [requests, adds.requests, List.append_assoc], ?_⟩
          rw [List.filter_append, filtered, rest, adds.undos]
          simp only [asked]
          rcases enterUndoHistory mount.undos zoneOff data.length with ⟨_ | _, undos⟩
          · rfl
          · simp [Request.isSync]
      | redo time ip fileOff flags payload =>
          obtain ⟨new, adds, syncs⟩ := generateRedo_adds stepped
          obtain ⟨more, requests, rest⟩ := ih (fun ip => ⟨(adds.ids ip).1.trans (ids ip).1,
            (adds.ids ip).2.trans (ids ip).2⟩) ran
          refine ⟨.redo (redoHead mount time ip flags) fileOff payload :: new ++ more,
            by rw [requests, adds.requests, List.append_assoc], ?_⟩
          rw [List.filter_append, List.filter_cons, filter_syncs syncs, rest, adds.undos,
            redoHead_eq ids]
          simp only [asked, List.filter_cons]
          split <;> rfl

/-! ## Records -/

/-- The records laid down since `first` and the requests they belong to. -/
structure Grown (first mount : Mount) (start : Nat) (requests : List Request)
    (groups : List (List Record)) : Prop where
  laying : Laying first mount start groups.flatten
  recorded : mount.requests = first.requests ++ requests
  pieces : List.Forall₂ Request.Pieces requests groups

/-- The run stays inside the free space. -/
def Mount.Room (first mount : Mount) (start : Nat) : Prop :=
  start + mount.stats ≤ first.area.limitOf start + first.stats

theorem Mount.Room.mono {first mount after : Mount} {start : Nat} (room : first.Room after start)
    (grows : mount.stats ≤ after.stats) : first.Room mount start := by
  unfold Mount.Room at *
  omega

section Grown

variable {first mount after : Mount} {start : Nat} {requests : List Request}
  {groups : List (List Record)}

/-- One more request. -/
theorem Grown.snoc (grown : Grown first mount start requests groups) {request : Request}
    {group : List Record} (laying : Laying first after start (groups.flatten ++ group))
    (added : after.requests = mount.requests ++ [request]) (pieces : request.Pieces group) :
    Grown first after start (requests ++ [request]) (groups ++ [group]) := by
  refine ⟨?_, ?_, ?_⟩
  · rw [List.flatten_append]
    simpa using laying
  · rw [added, grown.recorded, List.append_assoc]
  · exact List.rel_append grown.pieces (.cons pieces .nil)

theorem Grown.sameFifo (grown : Grown first mount start requests groups)
    (same : SameFifo mount after) (kept : after.requests = mount.requests) :
    Grown first after start requests groups :=
  ⟨grown.laying.sameFifo same, kept.trans grown.recorded, grown.pieces⟩

theorem layRedo_grown {time : Nat} {ip : Option Nat} {fileOff flags : Nat} {payload : Payload}
    (grown : Grown first mount start requests groups) (fits : payload.Fits)
    (ran : layRedo mount time ip fileOff flags payload = .done after)
    (room : first.Room after start) :
    ∃ requests groups, Grown first after start requests groups := by
  obtain ⟨middle, looped, rfl⟩ := layRedo_inv ran
  obtain ⟨added, laid, pieces⟩ := redoRecords_laying fits grown.laying looped room
  have kept := (redoRecords_frame looped).requests
  refine ⟨_, _, @Grown.snoc _ _ _ _ _ _ grown (.redo (redoHead mount time ip flags) fileOff payload)
    added (laid.sameFifo ⟨rfl, rfl, rfl, rfl⟩) ?_ pieces⟩
  dsimp only
  rw [kept]

theorem generateRedoSync_grown {time : Nat} (grown : Grown first mount start requests groups)
    (ran : generateRedoSync mount time = .done after) (room : first.Room after start) :
    ∃ requests groups, Grown first after start requests groups := by
  simp only [generateRedoSync] at ran
  split at ran
  · cases ran
    exact ⟨requests, groups, grown⟩
  · simp only [Outcome.bind_eq_done_iff, Outcome.done.injEq] at ran
    obtain ⟨middle, laid, rfl⟩ := ran
    obtain ⟨requests, groups, grown⟩ := layRedo_grown grown (by simp [Payload.Fits]) laid room
    exact ⟨requests, groups, grown.sameFifo ⟨rfl, rfl, rfl, rfl⟩ rfl⟩

theorem generateRedo_grown {time : Nat} {ip : Option Nat} {fileOff flags : Nat} {payload : Payload}
    (grown : Grown first mount start requests groups) (fits : payload.Fits)
    (ran : generateRedo mount time ip fileOff flags payload = .done after)
    (room : first.Room after start) :
    ∃ requests groups, Grown first after start requests groups := by
  simp only [generateRedo, Outcome.bind_eq_done_iff] at ran
  obtain ⟨middle, laid, ran⟩ := ran
  split at ran
  · obtain ⟨_, adds, _⟩ := generateRedoSync_adds ran
    obtain ⟨requests, groups, grown⟩ := layRedo_grown grown fits laid (room.mono adds.grows)
    exact generateRedoSync_grown grown ran room
  · cases ran
    exact layRedo_grown grown fits laid room

theorem sync_grown {time : Nat} (grown : Grown first mount start requests groups)
    (ran : (if ¬ mount.redoSync then generateRedoSync mount time else .done mount) = .done after)
    (room : first.Room after start) :
    ∃ requests groups, Grown first after start requests groups := by
  split at ran
  · exact generateRedoSync_grown grown ran room
  · cases ran
    exact ⟨requests, groups, grown⟩

theorem generateUndo_grown {time zoneOff : Nat} {data : List UInt8}
    (grown : Grown first mount start requests groups)
    (ran : generateUndo mount time zoneOff data = .done after) (room : first.Room after start) :
    ∃ requests groups, Grown first after start requests groups := by
  obtain ⟨synced, sync, ran⟩ := generateUndo_inv ran
  rcases entered : enterUndoHistory synced.undos zoneOff data.length with ⟨_ | _, undos⟩
  · rw [entered] at ran
    obtain rfl := ran
    obtain ⟨requests, groups, grown⟩ := sync_grown grown sync room
    exact ⟨requests, groups, grown.sameFifo ⟨rfl, rfl, rfl, rfl⟩ rfl⟩
  · rw [entered] at ran
    obtain ⟨middle, looped, rfl⟩ := ran
    have frame := undoRecords_frame looped
    obtain ⟨requests, groups, grown⟩ := sync_grown grown sync (room.mono frame.grows)
    have entering : Laying first { synced with undos } start groups.flatten :=
      grown.laying.sameFifo ⟨rfl, rfl, rfl, rfl⟩
    have roomLoop : first.Room middle start := room
    obtain ⟨added, laid, pieces⟩ := undoRecords_laying entering looped roomLoop
    refine ⟨_, _, @Grown.snoc _ _ _ _ _ _ grown (.undo zoneOff data) added
      (laid.sameFifo ⟨rfl, rfl, rfl, rfl⟩) ?_ pieces⟩
    dsimp only
    rw [frame.requests]

/-- A call whose arguments the media structures can hold. -/
def Call.Fits : Call → Prop
  | .undo .. => True
  | .redo _ _ _ _ payload => payload.Fits

theorem Call.grows {call : Call} (ran : call.run mount = .done after) :
    mount.stats ≤ after.stats := by
  cases call with
  | undo time zoneOff data =>
      obtain ⟨_, adds, _⟩ := generateUndo_adds ran
      exact adds.grows
  | redo time ip fileOff flags payload =>
      obtain ⟨_, adds, _⟩ := generateRedo_adds ran
      exact adds.grows

theorem runCalls_grows {calls : List Call} (ran : runCalls calls mount = .done after) :
    mount.stats ≤ after.stats := by
  induction calls generalizing mount with
  | nil =>
      cases ran
      exact le_rfl
  | cons call calls ih =>
      simp only [runCalls, Outcome.bind_eq_done_iff] at ran
      obtain ⟨middle, stepped, ran⟩ := ran
      exact (Call.grows stepped).trans (ih ran)

/-- Along a run inside the free space the records of all requests are there. -/
theorem runCalls_grown {calls : List Call} (grown : Grown first mount start requests groups)
    (fits : ∀ call ∈ calls, call.Fits) (ran : runCalls calls mount = .done after)
    (room : first.Room after start) :
    ∃ requests groups, Grown first after start requests groups := by
  induction calls generalizing mount requests groups with
  | nil =>
      cases ran
      exact ⟨requests, groups, grown⟩
  | cons call calls ih =>
      simp only [runCalls, Outcome.bind_eq_done_iff] at ran
      obtain ⟨middle, stepped, ran⟩ := ran
      have here := fits call (List.mem_cons_self ..)
      have roomHere := room.mono (runCalls_grows ran)
      have stepGrown : ∃ requests groups, Grown first middle start requests groups := by
        cases call with
        | undo time zoneOff data => exact generateUndo_grown grown stepped roomHere
        | redo time ip fileOff flags payload => exact generateRedo_grown grown here stepped roomHere
      obtain ⟨requests, groups, grown⟩ := stepGrown
      exact ih grown (fun call member => fits call (List.mem_cons_of_mem _ member)) ran

end Grown

/-! ## Payloads -/

/-- The payload of a record. -/
def Record.payload (record : Record) : List UInt8 :=
  match record.body with
  | .undo _ dataBytes data => data.take dataBytes.toNat
  | .redo _ _ dataBytes _ _ _ data => data.take dataBytes.toNat
  | _ => []

/-- The data of a request. -/
def Request.data : Request → List UInt8
  | .undo _ data => data
  | .redo _ _ (.data data) => data
  | .redo _ _ (.count _) => []

theorem UndoPieces.payload {zoneOff : Nat} {data : List UInt8} {records : List Record}
    (pieces : UndoPieces zoneOff data records) : records.flatMap Record.payload = data := by
  induction records generalizing zoneOff data with
  | nil => exact pieces.symm
  | cons record records ih =>
      rw [List.flatMap_cons]
      rcases pieces with ⟨pad, pieces⟩ | ⟨count, rest, _, _, _, body, same, pieces⟩
      · rw [ih pieces]
        simp [Record.payload, pad]
      · rw [ih pieces]
        simp [Record.payload, body, same]

theorem RedoPieces.payload {head : RedoHead} {fileOff : Nat} {payload : Payload}
    {records : List Record} (pieces : RedoPieces head fileOff payload records) :
    records.flatMap Record.payload = (Request.redo head fileOff payload).data := by
  induction records generalizing fileOff payload with
  | nil => cases payload <;> exact pieces.elim
  | cons record records ih =>
      rw [List.flatMap_cons]
      cases payload with
      | count len =>
          rcases pieces with ⟨pad, pieces⟩ | ⟨body, rfl⟩
          · rw [ih pieces]
            simp [Record.payload, pad]
          · simp [Record.payload, body, RedoHead.stored, Request.data]
      | data data =>
          rcases pieces with ⟨pad, pieces⟩ | ⟨count, rest, bound, body, same, tail⟩
          · rw [ih pieces]
            simp [Record.payload, pad]
          · have here : record.payload = data.take count := by
              simp [Record.payload, body, RedoHead.stored, same]
            rw [here]
            split at tail
            · next complete =>
                rw [tail, complete]
                simp [Request.data]
            · rw [ih tail.2]
              simp [Request.data]

/-- The pieces of a request add up to its data. -/
theorem Request.Pieces.payload {request : Request} {records : List Record}
    (pieces : request.Pieces records) : records.flatMap Record.payload = request.data := by
  cases request with
  | undo zoneOff data => exact UndoPieces.payload pieces
  | redo head fileOff payload => exact RedoPieces.payload pieces

theorem pieces_payload {requests : List Request} {groups : List (List Record)}
    (pieces : List.Forall₂ Request.Pieces requests groups) :
    groups.flatten.flatMap Record.payload = requests.flatMap Request.data := by
  induction pieces with
  | nil => rfl
  | cons here _ ih =>
      rw [List.flatten_cons, List.flatMap_append, List.flatMap_cons, here.payload, ih]

/-! ## The calls come back -/

theorem layRedo_ends {mount : Mount} (aligned : mount.Aligned) (time : Nat) (ip : Option Nat)
    (fileOff flags : Nat) (payload : Payload) :
    (layRedo mount time ip fileOff flags payload).Ends Mount.Aligned := by
  refine .kkassert (.kkassert (Outcome.Ends.bind (redoRecords_ends aligned ?_) ?_))
  · split <;> omega
  · exact fun after _ aligned => ⟨aligned.alloc, aligned.next⟩

theorem generateRedoSync_ends {mount : Mount} (aligned : mount.Aligned) (time : Nat) :
    (generateRedoSync mount time).Ends Mount.Aligned := by
  unfold generateRedoSync
  split
  · exact aligned
  · exact (layRedo_ends aligned ..).bind fun after _ aligned => ⟨aligned.alloc, aligned.next⟩

theorem Call.ends {mount : Mount} (aligned : mount.Aligned) (call : Call) :
    (call.run mount).Ends Mount.Aligned := by
  cases call with
  | undo time zoneOff data =>
      simp only [Call.run, generateUndo]
      refine @Outcome.Ends.bind _ _ Mount.Aligned _ _ _ ?_ fun synced _ aligned => ?_
      · split
        · exact generateRedoSync_ends aligned time
        · exact aligned
      · rcases enterUndoHistory synced.undos zoneOff data.length with ⟨_ | _, undos⟩
        · exact ⟨aligned.alloc, aligned.next⟩
        · obtain ⟨after, ran, afterAligned⟩ := @undoRecords_returns (2 * data.length + 2)
            { synced with undos } zoneOff data ⟨aligned.alloc, aligned.next⟩ (by split <;> omega)
          refine .kkassert (.kkassert ?_)
          rw [ran]
          exact ⟨afterAligned.alloc, afterAligned.next⟩
  | redo time ip fileOff flags payload =>
      refine (layRedo_ends aligned ..).bind fun after _ aligned => ?_
      split
      · exact generateRedoSync_ends aligned time
      · exact aligned

theorem runCalls_ends {mount : Mount} (aligned : mount.Aligned) (calls : List Call) :
    (runCalls calls mount).Ends Mount.Aligned := by
  induction calls generalizing mount with
  | nil => exact aligned
  | cons call calls ih => exact (call.ends aligned).bind fun after _ aligned => ih aligned

/-! ## The result -/

/-- A FIFO that is ready for a run which begins at position `start`. -/
structure Ready (first : Mount) (start : Nat) : Prop where
  buffered : first.area.Buffered
  names : first.area.Names first.nextOffset (first.area.spot start)
  aligned : start % 8 = 0
  small : first.undoSeqno < 4294967296
  ahead : Ahead first.area first.undoSeqno start (first.area.limitOf start)

theorem Ready.mount_aligned {first : Mount} {start : Nat} (ready : Ready first start) :
    first.Aligned := by
  have base : undoBase % undoAlign = 0 := by decide
  have buffers := ready.buffered.buffers
  have lower := ready.buffered.sane.lower
  have aligned := ready.aligned
  have residue := Area.spot_mod_undoAlign ready.buffered start
  have alloc : first.area.allocOffset % undoAlign = 0 := by
    simp only [undoAlign, bufsize] at *
    omega
  refine ⟨alloc, ?_⟩
  rcases ready.names with same | ⟨same, _⟩
  · rw [same]
    simp only [undoAlign] at residue
    omega
  · rw [same]
    simp only [undoAlign] at alloc
    omega

/-- The sequence numbers of a new FIFO do not reach those of the records laid down
in it. -/
theorem upgrade_seqno_ne {length block count : Nat} (inside : block < length)
    (small : length ≤ 128 * 8388608) (aligned : length % 512 = 0) (begins : block % 512 = 0)
    (bound : 40 * count ≤ block) :
    (0 + block / 512) % 4294967296 ≠ (length / 512 % 4294967296 + count) % 4294967296 := by
  omega

theorem upgradeUndo4_alloc (mount : Mount) :
    (upgradeUndo4 mount).area.allocOffset = mount.area.allocOffset := rfl

/-- A FIFO that has just been made is ready. -/
theorem upgradeUndo4_ready {mount : Mount} (buffered : mount.area.Buffered) :
    Ready (upgradeUndo4 mount) 0 := by
  have alloc := upgradeUndo4_alloc mount
  obtain ⟨length, lengthEq⟩ : ∃ length, length = mount.area.allocOffset - undoBase := ⟨_, rfl⟩
  have small : length ≤ 128 * 8388608 := by
    have upper := buffered.sane.upper
    simp only [largeblockSize] at upper
    omega
  have buffers : length % bufsize = 0 := lengthEq ▸ buffered.buffers
  have limit : mount.area.limit = length := buffered.sane.limit_eq.trans lengthEq.symm
  have mem : (upgradeUndo4 mount).area.mem =
      formatLoop mount.area.crc32 (length / undoAlign) mount.area.mem undoBase 0 := by
    rw [← limit]
    rfl
  have seqno : (upgradeUndo4 mount).undoSeqno = length / undoAlign % 4294967296 := by
    rw [← limit]
    rfl
  refine ⟨buffered.withMem _, .inl ?_, rfl, ?_, ?_⟩
  · unfold Area.spot
    rw [Nat.zero_mod]
    rfl
  · rw [seqno]
    exact Nat.mod_lt _ (by decide)
  · intro block _ below begins
    unfold Area.limitOf at below
    rw [alloc, ← lengthEq, Nat.zero_div, Nat.zero_mul, Nat.zero_add] at below
    have place : (upgradeUndo4 mount).area.spot block =
        undoBase + block / undoAlign * undoAlign := by
      unfold Area.spot
      rw [alloc, ← lengthEq, Nat.mod_eq_of_lt below,
        Nat.div_mul_cancel (Nat.dvd_of_mod_eq_zero begins)]
    have few : block / undoAlign < length / undoAlign := by
      simp only [undoAlign, bufsize] at *
      omega
    rw [place, mem, seqno]
    refine ⟨_, formatLoop_laid mount.area.mem (by decide) few, by simp, ?_⟩
    intro count bound
    refine upgrade_seqno_ne below small ?_ begins (by omega)
    simp only [bufsize] at buffers
    omega

theorem Ready.grown {first : Mount} {start : Nat} (ready : Ready first start) :
    Grown first first start [] [] :=
  ⟨⟨rfl, rfl, ready.buffered, ready.names, rfl, trivial, rfl, ready.small, ready.aligned,
    fun some => absurd rfl some, ready.ahead⟩, by simp, .nil⟩

/-- The record behind the run does not continue it. -/
theorem Laying.next {first mount : Mount} {start : Nat} {records : List Record}
    (laying : Laying first mount start records) (some : records ≠ [])
    (room : start + total records + undoAlign ≤ mount.area.limitOf start) :
    ∃ rest stop other, Chain mount.area (mount.area.spot (start + total records)) rest stop ∧
      firstSeq rest = Option.some other ∧ other ≠ mount.undoSeqno := by
  have buffered := laying.buffered
  by_cases begins : (start + total records) % undoAlign = 0
  · obtain ⟨record, laid, noPad, differs⟩ := laying.ahead _ le_rfl (by
      simp only [undoAlign] at room
      omega) begins
    refine ⟨[record], _, record.seq,
      Area.LaidFrom.chain buffered.sane buffered ⟨laid, fun _ => noPad, trivial⟩, ?_, ?_⟩
    · simp [firstSeq, noPad]
    · have other := differs 0 (Nat.zero_le _)
      rwa [Nat.add_zero, Nat.mod_eq_of_lt laying.small] at other
  · -- the dummy PAD fills the block
    have pad := laying.padded some begins
    obtain ⟨record, laid, noPad, differs⟩ := laying.ahead
      (start + total records + Mount.toBoundary (start + total records)) (by omega) (by
        unfold Mount.toBoundary
        simp only [undoAlign] at *
        omega) (by
        unfold Mount.toBoundary
        simp only [undoAlign] at *
        omega)
    refine ⟨[_, record], _, record.seq,
      Area.LaidFrom.chain buffered.sane buffered
        ⟨pad, fun aligned => absurd aligned begins, laid, fun _ => noPad, trivial⟩, ?_, ?_⟩
    · simp [firstSeq, noPad]
    · have other := differs 0 (Nat.zero_le _)
      rwa [Nat.add_zero, Nat.mod_eq_of_lt laying.small] at other

/-- What the scanners read after a run. -/
structure ReadBack (first after : Mount) (start : Nat) (calls : List Call)
    (requests : List Request) (groups : List (List Record)) : Prop where
  /-- Apart from REDO_SYNCs the requests are the calls. -/
  inputs : requests.filter (!·.isSync) = (asked first first.undos calls).filter (!·.isSync)
  /-- The records of each request, in order, with its offsets and data. -/
  pieces : List.Forall₂ Request.Pieces requests groups
  payload : groups.flatten.flatMap Record.payload = requests.flatMap Request.data
  /-- Forwards from the first offset and backwards from the last. -/
  chain : Chain after.area (first.area.spot start) groups.flatten
    (after.area.spot (start + total groups.flatten))
  stop : after.area.Names after.nextOffset (after.area.spot (start + total groups.flatten))
  /-- Consecutive sequence numbers. -/
  order : seqAfter groups.flatten first.undoSeqno = some after.undoSeqno
  inBlock : ∀ entry ∈ after.area.place (first.area.spot start) groups.flatten,
    entry.1 % undoAlign + entry.2.size ≤ undoAlign
  begins : ∀ block, start ≤ block → block < start + total groups.flatten →
    block % undoAlign = 0 → ∃ record, (after.area.spot block, record) ∈
      after.area.place (first.area.spot start) groups.flatten ∧ record.body ≠ .pad
  next : groups.flatten ≠ [] → ∃ rest stop other,
    Chain after.area (after.area.spot (start + total groups.flatten)) rest stop ∧
      firstSeq rest = some other ∧ other ≠ after.undoSeqno

/-- Encoder and scanners agree on every run that fits into the free space. -/
theorem encode_scan_agree {first : Mount} {start : Nat} {calls : List Call}
    (ready : Ready first start) (fits : ∀ call ∈ calls, call.Fits) :
    runCalls calls first ≠ .more ∧
      ∀ after, runCalls calls first = .done after →
        start + (after.stats - first.stats) + undoAlign ≤ first.area.limitOf start →
        ∃ requests groups, after.requests = first.requests ++ requests ∧
          ReadBack first after start calls requests groups := by
  refine ⟨(runCalls_ends ready.mount_aligned calls).ne_more, ?_⟩
  intro after ran room
  obtain ⟨requests, groups, grown⟩ := runCalls_grown ready.grown fits ran (by
    unfold Mount.Room
    omega)
  obtain ⟨new, recorded, inputs⟩ := @runCalls_requests first calls first after
    (fun _ => ⟨rfl, rfl⟩) ran
  obtain rfl : requests = new := List.append_cancel_left (grown.recorded.symm.trans recorded)
  have laying := grown.laying
  have buffered := laying.buffered
  have sameSpot : first.area.spot start = after.area.spot start := by
    unfold Area.spot
    rw [laying.alloc]
  refine ⟨requests, groups, recorded, inputs, grown.pieces, pieces_payload grown.pieces, ?_, laying.names,
    laying.order, ?_, ?_, ?_⟩
  · rw [sameSpot]
    exact laying.laid.chain buffered.sane buffered
  · rw [sameSpot]
    exact laying.laid.inBlock
  · intro block lower upper start0
    rw [sameSpot]
    exact laying.laid.begins buffered lower upper start0
  · intro some
    have stats := laying.stats
    exact laying.next some (by rw [laying.limitOf_eq]; omega)

/-- A mount with a new FIFO of one big-block. -/
def newMount : Mount := upgradeUndo4
  { area := { crc32 := fun _ => 0, mem := fun _ => 0, allocOffset := undoBase + largeblockSize }
    nextOffset := undoBase, firstOffset := undoBase, undoSeqno := 0, undos := []
    redoSync := false, recoveryRun := false, stage2Offset := 0
    inodes := fun ip => { objId := ip, objLocalization := 0, rdirty := false, bufs := true
                          redoFifoStart := 0, redoFifoNext := 0 }
    redoRoot := [], stats := 0, requests := [] }

theorem newMount_ready : Ready newMount 0 :=
  upgradeUndo4_ready ⟨by constructor <;> decide, by decide⟩

/-- Three bytes of media are saved, two bytes of a file written and flushed. -/
def someCalls : List Call :=
  [.undo 0 (zoneEncode 2 0) [1, 2, 3], .redo 0 (some 7) 4096 redoWrite (.data [4, 5]),
    .redo 0 (some 7) 4096 redoTermWrite (.count 2)]

theorem someCalls_read_back :
    ∃ after requests groups, runCalls someCalls newMount = .done after ∧
      after.requests = newMount.requests ++ requests ∧
      ReadBack newMount after 0 someCalls requests groups := by
  obtain ⟨after, ran, laid⟩ : ∃ after, runCalls someCalls newMount = .done after ∧
      after.stats - newMount.stats = 248 := ⟨_, rfl, rfl⟩
  have agree := @encode_scan_agree newMount 0 someCalls newMount_ready
    (by simp [someCalls, Call.Fits, Payload.Fits])
  obtain ⟨requests, groups, recorded, readBack⟩ :=
    agree.2 after ran (by rw [laid]; decide)
  exact ⟨after, requests, groups, ran, recorded, readBack⟩

end Dragonfly.Hammer.Fifo
