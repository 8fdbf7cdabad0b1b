import Dragonfly.Hammer.Fifo.Agree

/-!
# How far back a REDO_SYNC reaches

The tree of inodes with active REDOs is keyed by FIFO offset, and the REDO_SYNC
names the smallest key.  In the order in which records have been laid down that
is the oldest one only as long as the FIFO does not wrap between two of them.
-/

namespace Dragonfly.Hammer.Fifo

open Dragonfly.Lib

/-! ## Runs -/

/-- What happens to the tracking of inodes: REDO and UNDO records are laid down, an
inode is queued to the backend, its flush ends, its buffers become dirty or clean,
it is unloaded, and the flusher finalizes a flush group. -/
inductive Event where
  | call (records : Call)
  | startFlush (ip : Nat)
  | endFlush (ip : Nat)
  | setBufs (ip : Nat) (dirty : Bool)
  | unload (ip : Nat)
  | finalize (firstOffset : Nat)

/-- The part of `hammer_unload_inode` that takes the inode off the tree. -/
def unloadInode (mount : Mount) (ip : Nat) : Mount :=
  if (mount.inodes ip).rdirty then
    { mount with
      redoRoot := mount.redoRoot.filter (· ≠ ip)
      inodes := Function.update mount.inodes ip { mount.inodes ip with rdirty := false } }
  else mount

/-- What `hammer_flusher_finalize` does to the FIFO: a new `first_offset` in the volume
header, an empty UNDO history, and the next record needs a REDO_SYNC again. -/
def flusherFinalize (mount : Mount) (firstOffset : Nat) : Mount :=
  { mount with firstOffset, undos := [], redoSync := false }

def Event.run (mount : Mount) : Event → Outcome Mount
  | .call records => records.run mount
  | .startFlush ip => .done (redoFifoStartFlush mount ip)
  | .endFlush ip => redoFifoEndFlush mount ip
  | .setBufs ip dirty =>
      .done { mount with
        inodes := Function.update mount.inodes ip { mount.inodes ip with bufs := dirty } }
  | .unload ip => .done (unloadInode mount ip)
  | .finalize firstOffset => .done (flusherFinalize mount firstOffset)

/-- The states in which an event calls `hammer_generate_redo_sync`. -/
def Event.syncPoints (mount : Mount) : Event → List Mount
  | .call (.undo ..) => if ¬ mount.redoSync then [mount] else []
  | .call (.redo time ip fileOff flags payload) =>
      match layRedo mount time ip fileOff flags payload with
      | .done mount => if ¬ mount.redoSync ∧ flags ≠ redoSync then [mount] else []
      | _ => []
  | _ => []

/-- The states in which a run calls `hammer_generate_redo_sync`. -/
def syncPoints : List Event → Mount → List Mount
  | [], _ => []
  | event :: events, mount =>
      event.syncPoints mount ++
        match event.run mount with
        | .done mount => syncPoints events mount
        | _ => []

/-- `hammer_generate_redo_sync` lays down a record that names `offset`. -/
def Recorded (mount : Mount) (offset : Nat) : Prop :=
  ∃ time head after, generateRedoSync mount time = .done after ∧
    after.requests = mount.requests ++ [.redo head offset (.count 0)]

/-- How many bytes ago the record at an offset of the FIFO has been laid down. -/
def Mount.age (mount : Mount) (offset : Nat) : Nat :=
  if offset < mount.nextOffset then mount.nextOffset - offset
  else mount.nextOffset + (mount.area.allocOffset - undoBase) - offset

/-- The earliest REDO record of every active inode is either in front of `next_offset`
or, for all of them, behind it. -/
def Mount.OneSide (mount : Mount) : Prop :=
  (∀ ip, (mount.inodes ip).rdirty = true → (mount.inodes ip).redoFifoStart < mount.nextOffset) ∨
    ∀ ip, (mount.inodes ip).rdirty = true → mount.nextOffset ≤ (mount.inodes ip).redoFifoStart

/-! ## The tree -/

/-- Inserting a new key into a sorted list. -/
theorem insert_pairwise {key : Nat → Nat} {members : List Nat} {new : Nat}
    (sorted : members.Pairwise fun left right => key left < key right)
    (fresh : ∀ other ∈ members, key other ≠ key new) :
    (members.takeWhile (key · < key new) ++ new :: members.dropWhile (key · < key new)).Pairwise
      fun left right => key left < key right := by
  induction members with
  | nil => simp
  | cons member members ih =>
      obtain ⟨below, sorted⟩ := List.pairwise_cons.mp sorted
      have apart := fresh member List.mem_cons_self
      by_cases smaller : key member < key new
      · rw [List.takeWhile_cons_of_pos (by simpa using smaller),
          List.dropWhile_cons_of_pos (by simpa using smaller), List.cons_append, List.pairwise_cons]
        refine ⟨fun other inside => ?_, ih sorted fun other inside =>
          fresh other (List.mem_cons_of_mem _ inside)⟩
        rcases List.mem_append.mp inside with front | back
        · exact below other (List.takeWhile_subset _ front)
        · rcases List.mem_cons.mp back with rfl | back
          · exact smaller
          · exact below other (List.dropWhile_subset _ back)
      · rw [List.takeWhile_cons_of_neg (by simpa using smaller),
          List.dropWhile_cons_of_neg (by simpa using smaller), List.nil_append, List.pairwise_cons]
        refine ⟨fun other inside => ?_, List.pairwise_cons.mpr ⟨below, sorted⟩⟩
        rcases List.mem_cons.mp inside with rfl | inside
        · omega
        · have above := below other inside
          omega

theorem mem_insert {key : Nat → Nat} {members : List Nat} {new other : Nat} :
    other ∈ members.takeWhile (key · < key new) ++
        new :: members.dropWhile (key · < key new) ↔ other = new ∨ other ∈ members := by
  rw [List.mem_append, List.mem_cons]
  conv_rhs => rw [← @List.takeWhile_append_dropWhile _ (fun x => key x < key new) members,
    List.mem_append]
  tauto

/-- The tree holds the active inodes in the order of their offsets, all of which lie
in the area. -/
structure Mount.Ordered (mount : Mount) : Prop where
  alloc : mount.area.allocOffset % undoAlign = 0
  next : mount.nextOffset % 8 = 0
  lower : undoBase ≤ mount.nextOffset
  upper : mount.nextOffset ≤ mount.area.allocOffset
  sane : mount.area.Sane
  nominal : mount.recoveryRun = false
  sorted : mount.redoRoot.Pairwise fun left right =>
    (mount.inodes left).redoFifoStart < (mount.inodes right).redoFifoStart
  members : ∀ ip, ip ∈ mount.redoRoot ↔ (mount.inodes ip).rdirty = true
  starts : ∀ ip, (mount.inodes ip).rdirty = true →
    mount.area.Inside (mount.inodes ip).redoFifoStart
  nexts : ∀ ip, (mount.inodes ip).redoFifoNext ≠ 0 →
    mount.area.Inside (mount.inodes ip).redoFifoNext

/-- No inode is being tracked yet. -/
structure Mount.Idle (mount : Mount) : Prop where
  aligned : mount.Aligned
  lower : undoBase ≤ mount.nextOffset
  upper : mount.nextOffset ≤ mount.area.allocOffset
  sane : mount.area.Sane
  nominal : mount.recoveryRun = false
  root : mount.redoRoot = []
  clean : ∀ ip, (mount.inodes ip).rdirty = false ∧ (mount.inodes ip).redoFifoNext = 0

theorem Mount.Idle.ordered {mount : Mount} (idle : mount.Idle) : mount.Ordered := by
  refine ⟨idle.aligned.alloc, idle.aligned.next, idle.lower, idle.upper, idle.sane, idle.nominal, ?_, fun ip => ?_,
    fun ip dirty => ?_, fun ip some => absurd (idle.clean ip).2 some⟩
  · rw [idle.root]
    exact .nil
  · simp [idle.root, (idle.clean ip).1]
  · simp [(idle.clean ip).1] at dirty

namespace Mount.Ordered

variable {mount after : Mount}

theorem aligned (ordered : mount.Ordered) : mount.Aligned := ⟨ordered.alloc, ordered.next⟩

/-- Neither the records nor `next_offset` matter to the tree. -/
theorem withFifo (ordered : mount.Ordered) (mem : Mem) {next : Nat} (seqno stats : Nat)
    (aligned : next % 8 = 0) (lower : undoBase ≤ next) (upper : next ≤ mount.area.allocOffset) :
    Mount.Ordered { mount with
      area := { mount.area with mem }, nextOffset := next, undoSeqno := seqno, stats } :=
  ⟨ordered.alloc, aligned, lower, upper, ⟨ordered.sane.lower, ordered.sane.upper⟩,
    ordered.nominal, ordered.sorted, ordered.members, ordered.starts, ordered.nexts⟩

theorem openBuffer (ordered : mount.Ordered) :
    mount.openBuffer.Ordered ∧ mount.openBuffer.area.Inside mount.openBuffer.nextOffset := by
  have next := ordered.aligned.openBuffer.next
  have sane := ordered.sane
  have place : undoBase ≤ mount.openBuffer.nextOffset ∧
      mount.openBuffer.nextOffset < mount.area.allocOffset := by
    have lower := ordered.lower
    have upper := ordered.upper
    have nonempty := sane.lower
    unfold Mount.openBuffer
    dsimp only
    by_cases atEnd : mount.nextOffset = mount.area.allocOffset
    · rw [if_pos atEnd]
      split <;> exact ⟨le_rfl, nonempty⟩
    · rw [if_neg atEnd]
      split <;> exact ⟨lower, lt_of_le_of_ne upper atEnd⟩
  obtain ⟨mem, offset, same⟩ := openBuffer_eq mount
  rw [same] at next place ⊢
  exact ⟨ordered.withFifo mem _ _ next place.1 place.2.le, place⟩

/-- A place in front of the end of the area has its whole block there. -/
theorem block_le (ordered : mount.Ordered) (inside : mount.area.Inside mount.nextOffset) :
    mount.nextOffset + Mount.toBoundary mount.nextOffset ≤ mount.area.allocOffset := by
  have alloc := ordered.alloc
  unfold Area.Inside at inside
  unfold Mount.toBoundary
  simp only [undoAlign] at *
  omega

theorem layPad (ordered : mount.Ordered) (inside : mount.area.Inside mount.nextOffset) :
    mount.layPad.Ordered :=
  ordered.withFifo _ _ _ ordered.aligned.layPad.next (Nat.le_add_right_of_le ordered.lower)
    (ordered.block_le inside)

theorem finish (ordered : mount.Ordered) (inside : mount.area.Inside mount.nextOffset) (mem : Mem)
    {bytes : Nat} (size : bytes % 8 = 0) (fits : bytes ≤ Mount.toBoundary mount.nextOffset) :
    (mount.finish mem bytes).Ordered := by
  have room := ordered.block_le inside
  refine ordered.withFifo _ _ _ (ordered.aligned.finish mem size).next
    (Nat.le_add_right_of_le ordered.lower) ?_
  omega

/-- Writing an inode that stays on the tree, or off it. -/
theorem touch (ordered : mount.Ordered) (ip : Nat) {inode : Inode}
    (rdirty : inode.rdirty = (mount.inodes ip).rdirty)
    (start : inode.rdirty = true → inode.redoFifoStart = (mount.inodes ip).redoFifoStart)
    (next : inode.redoFifoNext ≠ 0 → mount.area.Inside inode.redoFifoNext) :
    Mount.Ordered { mount with inodes := Function.update mount.inodes ip inode } := by
  have sameStart : ∀ other ∈ mount.redoRoot, (Function.update mount.inodes ip inode
      other).redoFifoStart = (mount.inodes other).redoFifoStart := by
    intro other member
    by_cases here : other = ip
    · subst here
      rw [Function.update_self]
      exact start (rdirty.trans ((ordered.members other).mp member))
    · rw [Function.update_of_ne here]
  refine ⟨ordered.alloc, ordered.next, ordered.lower, ordered.upper, ordered.sane, ordered.nominal, ?_,
    fun other => ?_, fun other => ?_, fun other => ?_⟩
  · refine ordered.sorted.imp_of_mem fun {left right} memberLeft memberRight less => ?_
    dsimp only
    rwa [sameStart left memberLeft, sameStart right memberRight]
  all_goals
    dsimp only
    by_cases here : other = ip
  · subst here
    rw [Function.update_self, rdirty]
    exact ordered.members other
  · rw [Function.update_of_ne here]
    exact ordered.members other
  · subst here
    rw [Function.update_self]
    intro dirty
    rw [start dirty]
    exact ordered.starts other (rdirty ▸ dirty)
  · rw [Function.update_of_ne here]
    exact ordered.starts other
  · subst here
    rw [Function.update_self]
    exact next
  · rw [Function.update_of_ne here]
    exact ordered.nexts other

/-- Taking an inode off the tree. -/
theorem remove (ordered : mount.Ordered) (ip : Nat) {inode : Inode} (clean : inode.rdirty = false)
    (next : inode.redoFifoNext = (mount.inodes ip).redoFifoNext) :
    Mount.Ordered { mount with
      inodes := Function.update mount.inodes ip inode
      redoRoot := mount.redoRoot.filter (· ≠ ip) } := by
  refine ⟨ordered.alloc, ordered.next, ordered.lower, ordered.upper, ordered.sane, ordered.nominal, ?_,
    fun other => ?_, fun other => ?_, fun other => ?_⟩
  · refine (ordered.sorted.filter _).imp_of_mem fun {left right} memberLeft memberRight less => ?_
    dsimp only
    rwa [Function.update_of_ne (by simpa using (List.mem_filter.mp memberLeft).2),
      Function.update_of_ne (by simpa using (List.mem_filter.mp memberRight).2)]
  all_goals
    dsimp only
    by_cases here : other = ip
  · subst here
    simp [clean]
  · rw [Function.update_of_ne here, ← ordered.members other]
    simp [here]
  · subst here
    simp [clean]
  · rw [Function.update_of_ne here]
    exact ordered.starts other
  · subst here
    rw [Function.update_self, next]
    exact ordered.nexts other
  · rw [Function.update_of_ne here]
    exact ordered.nexts other

/-- Putting an inode on the tree, with the start it has been given. -/
theorem insert (ordered : mount.Ordered) {ip : Nat} (clean : (mount.inodes ip).rdirty = false)
    (start : mount.area.Inside (mount.inodes ip).redoFifoStart)
    (inserted : redoInsert mount ip = .done after) :
    Mount.Ordered { after with
      inodes := Function.update after.inodes ip { after.inodes ip with rdirty := true } } := by
  simp only [redoInsert, Outcome.kkassert_eq_done_iff, Outcome.done.injEq] at inserted
  obtain ⟨fresh, rfl⟩ := inserted
  have fresh' : ∀ other ∈ mount.redoRoot,
      (mount.inodes other).redoFifoStart ≠ (mount.inodes ip).redoFifoStart := by
    simpa using fresh
  have sameStart (other : Nat) : (Function.update mount.inodes ip
      { mount.inodes ip with rdirty := true } other).redoFifoStart =
        (mount.inodes other).redoFifoStart := by
    by_cases here : other = ip
    · subst here
      rw [Function.update_self]
    · rw [Function.update_of_ne here]
  refine ⟨ordered.alloc, ordered.next, ordered.lower, ordered.upper, ordered.sane, ordered.nominal, ?_,
    fun other => ?_, fun other => ?_, fun other => ?_⟩
  · refine (insert_pairwise ordered.sorted fresh').imp fun {left right} less => ?_
    dsimp only
    rwa [sameStart, sameStart]
  all_goals dsimp only
  · rw [@mem_insert fun other => (mount.inodes other).redoFifoStart]
    by_cases here : other = ip
    · subst here
      simp
    · rw [Function.update_of_ne here, ← ordered.members other]
      simp [here]
  · rw [sameStart]
    by_cases here : other = ip
    · subst here
      exact fun _ => start
    · rw [Function.update_of_ne here]
      exact ordered.starts other
  · by_cases here : other = ip
    · subst here
      rw [Function.update_self]
      exact ordered.nexts other
    · rw [Function.update_of_ne here]
      exact ordered.nexts other

theorem trackRedo (ordered : mount.Ordered) (inside : mount.area.Inside mount.nextOffset) {ip : Nat}
    (ran : trackRedo mount ip = .done after) : after.Ordered := by
  simp only [Fifo.trackRedo, Outcome.bind_eq_done_iff] at ran
  obtain ⟨tracked, started, ended⟩ := ran
  obtain ⟨first, same⟩ : tracked.Ordered ∧ tracked.area = mount.area := by
    split at started
    · cases started
      exact ⟨ordered, rfl⟩
    · next clean =>
      simp only [Outcome.bind_eq_done_iff, Outcome.done.injEq] at started
      obtain ⟨inserted, insert, rfl⟩ := started
      have area := (redoInsert_tracked insert).area
      rw [Bool.not_eq_true] at clean
      have touched := @touch mount ordered ip
        { mount.inodes ip with redoFifoStart := mount.nextOffset } rfl
        (fun dirty => by simp [clean] at dirty) (ordered.nexts ip)
      exact ⟨touched.insert (by simpa using clean) (by simpa using inside) insert, area⟩
  split at ended
  · cases ended
    refine first.touch ip rfl (fun _ => rfl) fun _ => ?_
    rw [same]
    exact inside
  · cases ended
    exact first

theorem trackOwner (ordered : mount.Ordered) (inside : mount.area.Inside mount.nextOffset)
    {ip : Option Nat} (ran : trackOwner ip mount = .done after) : after.Ordered := by
  cases ip with
  | some ip => exact ordered.trackRedo inside ran
  | none =>
      cases ran
      exact ordered

/-- Nor does the rest of the mount. -/
theorem withRest (ordered : mount.Ordered) (firstOffset : Nat) (undos : List Undo) (redoSync : Bool)
    (requests : List Request) :
    Mount.Ordered { mount with firstOffset, undos, redoSync, requests } :=
  ⟨ordered.alloc, ordered.next, ordered.lower, ordered.upper, ordered.sane, ordered.nominal,
    ordered.sorted, ordered.members, ordered.starts, ordered.nexts⟩

/-! ## What the events preserve -/

theorem undoRecords {fuel zoneOff : Nat} {data : List UInt8} (ordered : mount.Ordered)
    (ran : undoRecords fuel mount zoneOff data = .done after) : after.Ordered := by
  induction fuel generalizing mount zoneOff data with
  | zero => cases ran
  | succ fuel ih =>
      rw [Fifo.undoRecords] at ran
      split at ran
      · cases ran
        exact ordered
      next nonempty =>
      dsimp only at ran
      obtain ⟨opened, inside⟩ := ordered.openBuffer
      split at ran
      · simp only [Outcome.kkassert_eq_done_iff] at ran
        exact ih (opened.layPad inside) ran.2.2
      · next room =>
        obtain ⟨_, _, _, fits, size⟩ := undoSize_spec (not_le.mp room) opened.next
          (Nat.pos_of_ne_zero nonempty)
        refine ih (opened.finish inside _ size ?_) ran
        unfold Mount.toBoundary
        omega

theorem redoRecords {head : RedoHead} {ip : Option Nat} {fuel fileOff : Nat} {payload : Payload}
    (ordered : mount.Ordered)
    (ran : redoRecords head ip fuel mount fileOff payload = .done after) : after.Ordered := by
  induction fuel generalizing mount fileOff payload with
  | zero => cases ran
  | succ fuel ih =>
      unfold Fifo.redoRecords at ran
      dsimp only at ran
      obtain ⟨opened, inside⟩ := ordered.openBuffer
      split at ran
      · simp only [Outcome.kkassert_eq_done_iff] at ran
        exact ih (opened.layPad inside) ran.2.2
      · next room =>
        rw [Outcome.bind_eq_done_iff] at ran
        obtain ⟨tracked, track, ran⟩ := ran
        have same := trackOwner_tracked track
        have kept := opened.trackOwner inside track
        rw [← same.area, ← same.nextOffset] at inside
        rw [← same.nextOffset] at room
        cases payload with
        | count len =>
            cases ran
            exact kept.finish inside _ (by decide) (by omega)
        | data data =>
            dsimp only at ran
            obtain ⟨_, _, _, fits, size⟩ := redoSize_spec data.length (not_le.mp room) kept.next
            have laid := kept.finish inside (putRedo tracked.area.crc32 tracked.area.mem
              tracked.nextOffset (Mount.headAlign (tracked.payload 64 data.length) + 64)
              tracked.undoSeqno head fileOff (tracked.payload 64 data.length)
              (data.take (tracked.payload 64 data.length))) size
              (by unfold Mount.toBoundary; omega)
            split at ran
            · cases ran
              exact laid
            · exact ih laid ran

theorem layRedo {time : Nat} {ip : Option Nat} {fileOff flags : Nat} {payload : Payload}
    (ordered : mount.Ordered) (ran : layRedo mount time ip fileOff flags payload = .done after) :
    after.Ordered := by
  obtain ⟨middle, looped, rfl⟩ := layRedo_inv ran
  exact (ordered.redoRecords looped).withRest _ _ _ _

theorem generateRedoSync {time : Nat} (ordered : mount.Ordered)
    (ran : generateRedoSync mount time = .done after) : after.Ordered := by
  simp only [Fifo.generateRedoSync] at ran
  split at ran
  · cases ran
    exact ordered
  · simp only [Outcome.bind_eq_done_iff, Outcome.done.injEq] at ran
    obtain ⟨middle, laid, rfl⟩ := ran
    exact (ordered.layRedo laid).withRest _ _ _ _

theorem call {records : Call} (ordered : mount.Ordered) (ran : records.run mount = .done after) :
    after.Ordered := by
  cases records with
  | undo time zoneOff data =>
      simp only [Call.run, generateUndo, Outcome.bind_eq_done_iff] at ran
      obtain ⟨middle, synced, ran⟩ := ran
      have kept : middle.Ordered := by
        split at synced
        · exact ordered.generateRedoSync synced
        · cases synced
          exact ordered
      split at ran
      · cases ran
        exact kept.withRest _ _ _ _
      · have looped := checkSpace_eq_done ran
        simp only [Outcome.bind_eq_done_iff, Outcome.done.injEq] at looped
        obtain ⟨laid, looped, rfl⟩ := looped
        exact ((kept.withRest middle.firstOffset _ middle.redoSync middle.requests).undoRecords
          looped).withRest _ _ _ _
  | redo time ip fileOff flags payload =>
      simp only [Call.run, generateRedo, Outcome.bind_eq_done_iff] at ran
      obtain ⟨middle, laid, ran⟩ := ran
      have kept := ordered.layRedo laid
      split at ran
      · exact kept.generateRedoSync ran
      · cases ran
        exact kept

theorem unloadInode (ordered : mount.Ordered) (ip : Nat) :
    (unloadInode mount ip).Ordered ∧ ((Fifo.unloadInode mount ip).inodes ip).rdirty = false := by
  unfold Fifo.unloadInode
  split
  · exact ⟨ordered.remove ip rfl rfl, by simp⟩
  · next clean => exact ⟨ordered, by simpa using clean⟩

theorem startFlush (ordered : mount.Ordered) (ip : Nat) : (redoFifoStartFlush mount ip).Ordered :=
  ordered.touch ip rfl (fun _ => rfl) fun some => absurd rfl some

/-- The inode is taken off the tree and put back with the start it has been given
since its flush began. -/
theorem endFlush {ip : Nat} (ordered : mount.Ordered)
    (ran : redoFifoEndFlush mount ip = .done after) : after.Ordered := by
  obtain ⟨unloaded, clean⟩ := ordered.unloadInode ip
  -- off the tree, and without a start to come unless there are dirty buffers
  obtain ⟨idle, idleEq⟩ : ∃ idle, idle =
    if ((Fifo.unloadInode mount ip).inodes ip).bufs then Fifo.unloadInode mount ip
    else redoFifoStartFlush (Fifo.unloadInode mount ip) ip := ⟨_, rfl⟩
  obtain ⟨idleOrdered, idleClean⟩ : idle.Ordered ∧ (idle.inodes ip).rdirty = false := by
    rw [idleEq]
    split
    · exact ⟨unloaded, clean⟩
    · exact ⟨unloaded.startFlush ip, by simp [redoFifoStartFlush, clean]⟩
  have unfolded : redoFifoEndFlush mount ip =
      if (idle.inodes ip).redoFifoNext = 0 then .done idle
      else
        (redoInsert { idle with
          inodes := Function.update idle.inodes ip
            { idle.inodes ip with redoFifoStart := (idle.inodes ip).redoFifoNext } } ip).bind
          fun mount => .done { mount with
            inodes := Function.update mount.inodes ip { mount.inodes ip with rdirty := true } } := by
    rw [idleEq]
    rfl
  rw [unfolded] at ran
  split at ran
  · cases ran
    exact idleOrdered
  · next some =>
    simp only [Outcome.bind_eq_done_iff, Outcome.done.injEq] at ran
    obtain ⟨inserted, insert, rfl⟩ := ran
    have started := @touch idle idleOrdered ip
      { idle.inodes ip with redoFifoStart := (idle.inodes ip).redoFifoNext } rfl
      (fun dirty => by simp [idleClean] at dirty) (idleOrdered.nexts ip)
    exact started.insert (by simpa using idleClean)
      (by simpa using idleOrdered.nexts ip some) insert

theorem event {event : Event} (ordered : mount.Ordered) (ran : event.run mount = .done after) :
    after.Ordered := by
  cases event with
  | call records => exact ordered.call ran
  | startFlush ip =>
      cases ran
      exact ordered.startFlush ip
  | endFlush ip => exact ordered.endFlush ran
  | setBufs ip dirty =>
      cases ran
      exact ordered.touch ip rfl (fun _ => rfl) (ordered.nexts ip)
  | unload ip =>
      cases ran
      exact (ordered.unloadInode ip).1
  | finalize firstOffset =>
      cases ran
      exact ordered.withRest _ _ _ _

/-- The tree is in order wherever a run calls `hammer_generate_redo_sync`. -/
theorem syncPoints {events : List Event} (ordered : mount.Ordered) {point : Mount}
    (reached : point ∈ syncPoints events mount) : point.Ordered := by
  induction events generalizing mount with
  | nil => cases reached
  | cons event events ih =>
      rcases List.mem_append.mp reached with now | later
      · cases event with
        | call records =>
            cases records with
            | undo time zoneOff data =>
                simp only [Event.syncPoints] at now
                split at now
                · obtain rfl := List.mem_singleton.mp now
                  exact ordered
                · cases now
            | redo time ip fileOff flags payload =>
                simp only [Event.syncPoints] at now
                split at now
                · next middle laid =>
                  split at now
                  · obtain rfl := List.mem_singleton.mp now
                    exact ordered.layRedo laid
                  · cases now
                · cases now
        | _ => cases now
      · split at later
        · next middle ran => exact ih (ordered.event ran) later
        · cases later

/-- The offset that `hammer_generate_redo_sync` records is the smallest start. -/
theorem recorded {offset : Nat} (ordered : mount.Ordered) (recorded : Recorded mount offset) :
    (∃ ip, (mount.inodes ip).rdirty = true ∧ (mount.inodes ip).redoFifoStart = offset) ∧
      ∀ ip, (mount.inodes ip).rdirty = true → offset ≤ (mount.inodes ip).redoFifoStart := by
  obtain ⟨time, head, after, ran, requests⟩ := recorded
  have sorted := ordered.sorted
  have members := ordered.members
  simp only [Fifo.generateRedoSync, redoSyncStart, ordered.nominal] at ran
  cases root : mount.redoRoot with
  | nil =>
      rw [root] at ran
      simp only [Bool.false_eq_true, if_false, if_true, Outcome.done.injEq] at ran
      rw [← ran] at requests
      simp at requests
  | cons first rest =>
      rw [root] at ran sorted members
      simp only [Bool.false_eq_true, if_false] at ran
      split at ran
      · simp only [Outcome.done.injEq] at ran
        rw [← ran] at requests
        simp at requests
      · simp only [Outcome.bind_eq_done_iff, Outcome.done.injEq] at ran
        obtain ⟨middle, laid, rfl⟩ := ran
        have adds := (layRedo_adds laid).requests
        have same : (mount.inodes first).redoFifoStart = offset := by
          have pair := requests.symm.trans adds
          simp only [List.append_cancel_left_eq, List.cons.injEq, Request.redo.injEq] at pair
          exact pair.1.2.1.symm
        rw [← same]
        refine ⟨⟨first, (members first).mp List.mem_cons_self, rfl⟩, fun ip dirty => ?_⟩
        rcases List.mem_cons.mp ((members ip).mpr dirty) with rfl | later
        · exact le_rfl
        · exact ((List.pairwise_cons.mp sorted).1 ip later).le

end Mount.Ordered

/-- In every run, a REDO_SYNC is not later than any active inode's earliest REDO
record exactly when these records lie on one side of `next_offset`. -/
theorem redoSync_reach_iff {mount : Mount} (idle : mount.Idle) (events : List Event)
    {point : Mount} (reached : point ∈ syncPoints events mount) {offset : Nat}
    (recorded : Recorded point offset) :
    (∀ ip, (point.inodes ip).rdirty = true →
      point.age (point.inodes ip).redoFifoStart ≤ point.age offset) ↔ point.OneSide := by
  have ordered := idle.ordered.syncPoints reached
  obtain ⟨⟨first, dirty, same⟩, least⟩ := ordered.recorded recorded
  have lower := ordered.lower
  have upper := ordered.upper
  constructor
  · intro reaches
    by_cases wraps : offset < point.nextOffset
    · left
      intro ip active
      by_contra behind
      have older := reaches ip active
      obtain ⟨_, inside⟩ := ordered.starts ip active
      obtain ⟨based, _⟩ := ordered.starts first dirty
      unfold Mount.age at older
      rw [if_neg behind, if_pos wraps] at older
      omega
    · right
      intro ip active
      have above := least ip active
      omega
  · rintro (front | behind) ip active
    · have below := front ip active
      have firstBelow := front first dirty
      have above := least ip active
      unfold Mount.age
      rw [if_pos below, if_pos (by omega)]
      omega
    · have later := behind ip active
      have firstLater := behind first dirty
      have above := least ip active
      unfold Mount.age
      rw [if_neg (by omega), if_neg (by omega)]
      omega

/-- A mount whose FIFO has one block left in front of the end of the area. -/
def lateMount : Mount :=
  { newMount with
    nextOffset := undoBase + largeblockSize - 128
    firstOffset := undoBase + largeblockSize - 128 }

theorem lateMount_idle : lateMount.Idle :=
  ⟨⟨by decide, by decide⟩, by decide, by decide, (newMount_ready).buffered.sane, rfl, rfl,
    fun _ => ⟨rfl, rfl⟩⟩

/-- One inode is written, a flush group ends, and another inode is written. -/
def straddlingEvents : List Event :=
  [.call (.redo 0 (some 7) 0 redoWrite (.count 0)), .finalize (undoBase + largeblockSize - 128),
    .call (.redo 0 (some 8) 0 redoWrite (.count 0))]

/-- The first REDO_SYNC names the only active inode. -/
theorem redoSync_reaches_first :
    ∃ point ∈ syncPoints straddlingEvents lateMount,
      Recorded point (undoBase + largeblockSize - 128) ∧
      ∀ ip, (point.inodes ip).rdirty = true → point.age (point.inodes ip).redoFifoStart ≤
        point.age (undoBase + largeblockSize - 128) := by
  obtain ⟨point, rest, points, recorded, root, start, next⟩ : ∃ point rest,
      syncPoints straddlingEvents lateMount = point :: rest ∧
      Recorded point (undoBase + largeblockSize - 128) ∧ point.redoRoot = [7] ∧
      (point.inodes 7).redoFifoStart = undoBase + largeblockSize - 128 ∧
      point.nextOffset = undoBase + largeblockSize - 64 :=
    ⟨_, _, rfl, ⟨0, _, _, rfl, rfl⟩, rfl, rfl, rfl⟩
  have reached : point ∈ syncPoints straddlingEvents lateMount := by
    rw [points]
    exact List.mem_cons_self
  refine ⟨point, reached, recorded,
    (redoSync_reach_iff lateMount_idle straddlingEvents reached recorded).mpr (.inl ?_)⟩
  intro ip active
  have member := (((lateMount_idle).ordered.syncPoints reached).members ip).mpr active
  rw [root] at member
  obtain rfl := List.mem_singleton.mp member
  rw [start, next]
  decide

/-- The second one names the newer of two active inodes, whose records lie on both
sides of the wrap. -/
theorem redoSync_misses_older :
    lateMount.Idle ∧ ∃ point ∈ syncPoints straddlingEvents lateMount,
      Recorded point (undoBase + 64) ∧ (point.inodes 7).rdirty = true ∧
        ¬ point.age (point.inodes 7).redoFifoStart ≤ point.age (undoBase + 64) := by
  refine ⟨lateMount_idle, ?_⟩
  obtain ⟨first, point, points, recorded, dirty, older⟩ : ∃ first point,
      syncPoints straddlingEvents lateMount = [first, point] ∧ Recorded point (undoBase + 64) ∧
      (point.inodes 7).rdirty = true ∧
      ¬ point.age (point.inodes 7).redoFifoStart ≤ point.age (undoBase + 64) := by
    refine ⟨_, _, rfl, ⟨0, _, _, rfl, rfl⟩, rfl, ?_⟩
    decide
  exact ⟨point, by simp [points], recorded, dirty, older⟩

end Dragonfly.Hammer.Fifo
