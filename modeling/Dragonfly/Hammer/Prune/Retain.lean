import Mathlib.Algebra.Order.Ring.Int
import Dragonfly.Hammer.Btree.Node
import Dragonfly.Hammer.Prune.Windows

/-!
# What pruning retains

The scan destroys no record but those that a window covers, and when it is complete it
has destroyed all of them.  A record that is visible as of a snapshot is covered exactly
when it is created by the transaction of the snapshot and deleted before the next one.
-/

namespace Dragonfly.Hammer.Prune

open Dragonfly.Lib Dragonfly.Hammer.Btree

/-- The records of a B-Tree: in the order of their keys, with 64-bit keys and with record
types below `HAMMER_MAX_RECTYPE`. -/
structure TreeOk (records : List LeafElm) : Prop where
  sorted : records.Pairwise fun x y => x.base.rank < y.base.rank
  types : ∀ elm ∈ records, elm.base.recType < 0xFFFF
  keys : ∀ elm ∈ records, elm.base.key ≤ 0x7FFFFFFFFFFFFFFF

/-- The records of a tree of nodes. -/
theorem treeOk_records {root : Node} {lo hi : Rank} {parent : Nat} (ok : root.Ok lo hi parent)
    (types : ∀ elm ∈ root.records, elm.base.recType < 0xFFFF)
    (keys : ∀ elm ∈ root.records, elm.base.key ≤ 0x7FFFFFFFFFFFFFFF) : TreeOk root.records :=
  ⟨ok.records_sorted.1, types, keys⟩

/-- Some window covers the record. -/
def Doomed (prune : IocPrune) (elm : LeafElm) : Prop := ∃ window ∈ prune.elms, Covers window elm.base

/-- The record is visible as of a transaction. -/
def VisibleAt (tid : Nat) (base : Base) : Prop :=
  base.createTid ≤ tid ∧ (base.deleteTid = 0 ∨ tid < base.deleteTid)

/-- The rule of `hammer_btree_chkts` -/
theorem chkts_eq_zero_iff {tid : Nat} {base : Base} (nonzero : tid ≠ 0) :
    chkts tid base = 0 ↔ VisibleAt tid base := by
  unfold chkts VisibleAt
  rw [if_neg nonzero]
  split_ifs <;> simp <;> omega

/-- The range of keys of the scan. -/
structure InScan (prune : IocPrune) (localization : Nat) (base : Base) : Prop where
  low : (cursorBeg prune localization).rank ≤ base.rank
  high : base.rank ≤ (cursorEnd (keyStart prune localization)).rank

section Scan

variable {prune : IocPrune} {records final : List LeafElm} {elm : LeafElm} {upto : Nat}
  {keyBeg : Base} {events : List Event} {stop : Stop}

/-- The test of the kernel, for windows that the utility has built. -/
def Decides (prune : IocPrune) : Prop :=
  ∀ elm : LeafElm, ∃ delete, shouldDelete prune elm.base = .done delete ∧ (delete = true ↔ Doomed prune elm)

/-- The record at the cursor, with the records in front of it and behind it. -/
theorem current_eq_some (inside : upto ≤ records.length)
    (is : current keyBeg records upto = some elm) : keyBeg.rank ≤ elm.base.rank ∧
      ∃ front back, records = front ++ elm :: back ∧ upto = front.length + 1 ∧
        records.take upto = front ++ [elm] ∧ records.drop upto = back := by
  rw [current, Option.filter_eq_some_iff, decide_eq_true_eq, cmp_nonpos_iff] at is
  obtain ⟨last, low⟩ := is
  obtain ⟨front, taken⟩ := List.getLast?_eq_some_iff.mp last
  refine ⟨low, front, records.drop upto, ?_, ?_, taken, rfl⟩
  · rw [← List.singleton_append, ← List.append_assoc, ← taken, List.take_append_drop]
  · have length := congrArg List.length taken
    rw [List.length_take, List.length_append, List.length_singleton] at length
    omega

/-- At the end of the scan no record in front of the cursor lies in the range. -/
theorem current_eq_none (sorted : records.Pairwise fun x y => x.base.rank < y.base.rank)
    (is : current keyBeg records upto = none) :
    ∀ elm ∈ records.take upto, elm.base.rank < keyBeg.rank := by
  rw [current, Option.filter_eq_none_iff] at is
  intro elm member
  cases last : (records.take upto).getLast? with
  | none =>
      rw [List.getLast?_eq_none_iff.mp last] at member
      cases member
  | some final =>
      have below : final.base.rank < keyBeg.rank := by
        rw [← cmp_pos_iff]
        simpa using is final last
      obtain ⟨front, taken⟩ := List.getLast?_eq_some_iff.mp last
      have order := sorted.sublist (List.take_sublist upto records)
      rw [taken] at member order
      rcases List.mem_append.mp member with early | late
      · exact ((List.pairwise_append.mp order).2.2 elm early final List.mem_cons_self).trans below
      · rw [List.mem_singleton.mp late]
        exact below

/-- The records up to the end of a range, and those behind it. -/
theorem btreeLast_split (sorted : records.Pairwise fun x y => x.base.rank < y.base.rank)
    (keyEnd : Base) :
    (∀ elm ∈ records.take (btreeLast records keyEnd), elm.base.rank ≤ keyEnd.rank) ∧
      ∀ elm ∈ records.drop (btreeLast records keyEnd), keyEnd.rank < elm.base.rank := by
  induction records with
  | nil => simp [btreeLast]
  | cons first rest ih =>
      rw [List.pairwise_cons] at sorted
      obtain ⟨front, behind⟩ := ih sorted.2
      by_cases inRange : cmp first.base keyEnd ≤ 0
      · have next : btreeLast (first :: rest) keyEnd = btreeLast rest keyEnd + 1 := by
          simp [btreeLast, inRange]
        rw [next, List.take_succ_cons, List.drop_succ_cons, List.forall_mem_cons]
        exact ⟨⟨cmp_nonpos_iff.mp inRange, front⟩, behind⟩
      · have stop : btreeLast (first :: rest) keyEnd = 0 := by
          simp [btreeLast, inRange]
        have above : keyEnd.rank < first.base.rank := cmp_pos_iff.mp (by omega)
        rw [stop, List.take_zero, List.drop_zero, List.forall_mem_cons]
        exact ⟨by simp, above, fun elm member => above.trans (sorted.1 elm member)⟩

theorem btreeLast_le (records : List LeafElm) (keyEnd : Base) :
    btreeLast records keyEnd ≤ records.length :=
  (List.takeWhile_sublist _).length_le

/-- A scan that starts again at a record does not leave it out. -/
theorem rank_lt_cursorEnd (base : Base) (type : base.recType < 0xFFFF) :
    base.rank < (cursorEnd base).rank := by
  rw [rank_lt_iff, lead_lt_iff]
  exact .inl (.inr ⟨rfl, .inr ⟨rfl, .inl type⟩⟩)

/-- A scan that starts again does not leave the range. -/
theorem cursorEnd_le {base : Base} {localization : Nat} (key : base.key ≤ 0x7FFFFFFFFFFFFFFF)
    (atMost : base.rank ≤ (cursorEnd (keyStart prune localization)).rank) :
    (cursorEnd base).rank ≤ (cursorEnd (keyStart prune localization)).rank := by
  rw [← not_lt] at atMost ⊢
  intro above
  apply atMost
  rw [rank_lt_iff, lead_lt_iff] at above ⊢
  simp only [cursorEnd, keyStart, lt_self_iff_false, false_or, and_false, or_false] at above ⊢
  left
  rcases above with lt | ⟨same, lt | ⟨sameObj, -, high⟩⟩
  · exact .inl lt
  · exact .inr ⟨same, .inl lt⟩
  · omega

/-- What the scan has done so far, and that it is done with the records behind the
cursor. -/
structure Scanned (prune : IocPrune) (localization : Nat) (start records : List LeafElm)
    (upto : Nat) : Prop where
  tree : TreeOk records
  sub : records.Sublist start
  removed : ∀ elm ∈ start, elm ∉ records → Doomed prune elm ∧ InScan prune localization elm.base
  inside : upto ≤ records.length
  front : ∀ elm ∈ records.take upto,
    elm.base.rank ≤ (cursorEnd (keyStart prune localization)).rank
  behind : ∀ elm ∈ records.drop upto, InScan prune localization elm.base → ¬Doomed prune elm

theorem TreeOk.sublist (tree : TreeOk records) (sub : final.Sublist records) : TreeOk final where
  sorted := tree.sorted.sublist sub
  types elm member := tree.types elm (sub.subset member)
  keys elm member := tree.keys elm (sub.subset member)

namespace Scanned

variable {localization : Nat} {start : List LeafElm}

theorem initial (tree : TreeOk records) (prune : IocPrune) (localization : Nat) :
    Scanned prune localization records records
      (btreeLast records (cursorEnd (keyStart prune localization))) := by
  obtain ⟨front, behind⟩ := btreeLast_split tree.sorted (cursorEnd (keyStart prune localization))
  refine ⟨tree, List.Sublist.refl _, fun elm member absent => absurd member absent,
    btreeLast_le _ _, front, ?_⟩
  intro elm member inScan
  exact absurd inScan.high (behind elm member).not_ge

/-- The cursor passes a record that is kept. -/
theorem keep (scanned : Scanned prune localization start records upto)
    (is : current keyBeg records upto = some elm) (kept : ¬Doomed prune elm) :
    Scanned prune localization start records (upto - 1) := by
  obtain ⟨-, front, back, shape, here, taken, dropped⟩ := current_eq_some scanned.inside is
  have before : records.take (upto - 1) = front := by simp [shape, here]
  have behind : records.drop (upto - 1) = elm :: back := by simp [shape, here]
  refine ⟨scanned.tree, scanned.sub, scanned.removed, by have := scanned.inside; omega, ?_, ?_⟩
  · rw [before]
    intro other member
    exact scanned.front other (taken ▸ List.mem_append_left _ member)
  · rw [behind, List.forall_mem_cons]
    exact ⟨fun _ => kept, dropped ▸ scanned.behind⟩

/-- The record at the cursor is destroyed. -/
theorem destroy (scanned : Scanned prune localization start records upto)
    (is : current (cursorBeg prune localization) records upto = some elm) (doomed : Doomed prune elm) :
    Scanned prune localization start (records.eraseIdx (upto - 1)) (upto - 1) := by
  obtain ⟨low, front, back, shape, here, taken, dropped⟩ := current_eq_some scanned.inside is
  have erased : records.eraseIdx (upto - 1) = front ++ back := by
    simp [shape, here, List.eraseIdx_append]
  have smaller : (front ++ back).Sublist records :=
    shape ▸ (List.sublist_cons_self elm back).append_left front
  have length : upto - 1 = front.length := by omega
  rw [erased, length]
  refine ⟨scanned.tree.sublist smaller, smaller.trans scanned.sub, ?_, by simp, ?_, ?_⟩
  · intro other member absent
    by_cases present : other ∈ records
    · have same : other = elm := by
        rw [shape] at present
        simp only [List.mem_append, List.mem_cons, not_or] at present absent
        tauto
      subst same
      exact ⟨doomed, low, scanned.front other (taken ▸ List.mem_append_right _ List.mem_cons_self)⟩
    · exact scanned.removed other member present
  · rw [List.take_left]
    intro other member
    exact scanned.front other (taken ▸ List.mem_append_left _ member)
  · rw [List.drop_left]
    exact dropped ▸ scanned.behind

/-- After a deadlock the scan starts again at the record, and has nothing to do again
behind it. -/
theorem retry (scanned : Scanned prune localization start records upto)
    (is : current keyBeg records upto = some elm) :
    Scanned prune localization start records (btreeLast records (cursorEnd elm.base)) := by
  obtain ⟨-, front, back, shape, here, taken, dropped⟩ := current_eq_some scanned.inside is
  obtain ⟨upTo, beyond⟩ := btreeLast_split scanned.tree.sorted (cursorEnd elm.base)
  have member : elm ∈ records := by simp [shape]
  have atMost := scanned.front elm (taken ▸ List.mem_append_right _ List.mem_cons_self)
  refine ⟨scanned.tree, scanned.sub, scanned.removed, btreeLast_le _ _, ?_, ?_⟩
  · intro other otherMem
    exact (upTo other otherMem).trans
      (cursorEnd_le (scanned.tree.keys elm member) atMost)
  · intro other otherMem
    have above := (rank_lt_cursorEnd elm.base (scanned.tree.types elm member)).trans
      (beyond other otherMem)
    have inTree : other ∈ front ++ elm :: back := shape ▸ List.mem_of_mem_drop otherMem
    have sorted := scanned.tree.sorted
    rw [shape] at sorted
    rcases List.mem_append.mp inTree with early | late
    · have below := (List.pairwise_append.mp sorted).2.2 other early elm List.mem_cons_self
      exact absurd above below.asymm
    · rcases List.mem_cons.mp late with rfl | later
      · exact absurd above (lt_irrefl _)
      · exact scanned.behind other (dropped ▸ later)

/-- A complete scan has destroyed what it found. -/
theorem complete (scanned : Scanned prune localization start records upto)
    (is : current (cursorBeg prune localization) records upto = none) :
    ∀ elm ∈ records, InScan prune localization elm.base → ¬Doomed prune elm := by
  intro elm member inScan
  have before := current_eq_none scanned.tree.sorted is
  rw [← List.take_append_drop upto records] at member
  rcases List.mem_append.mp member with early | late
  · exact absurd inScan.low (before elm early).not_ge
  · exact scanned.behind elm late inScan

end Scanned

/-- What a scan leaves when it returns. -/
structure Swept (prune : IocPrune) (localization : Nat) (start final : List LeafElm) (stop : Stop) :
    Prop where
  sub : final.Sublist start
  removed : ∀ elm ∈ start, elm ∉ final → Doomed prune elm ∧ InScan prune localization elm.base
  complete : stop = .complete → ∀ elm ∈ final, InScan prune localization elm.base → ¬Doomed prune elm

theorem Scanned.swept {localization : Nat} {start : List LeafElm}
    (scanned : Scanned prune localization start records upto) (early : stop ≠ .complete) :
    Swept prune localization start records stop :=
  ⟨scanned.sub, scanned.removed, fun is => absurd is early⟩

theorem Scanned.finish {localization : Nat} {start : List LeafElm}
    (scanned : Scanned prune localization start records upto)
    (is : current (cursorBeg prune localization) records upto = none) :
    ∀ final stop, Outcome.done (records, Stop.complete) = .done (final, stop) →
      Swept prune localization start final stop := by
  rintro final stop ⟨⟩
  exact ⟨scanned.sub, scanned.removed, fun _ => scanned.complete is⟩

/-- The loop fails no assertion, and when it returns it has swept the records. -/
theorem pruneLoop_swept (events : List Event) {localization : Nat} {start : List LeafElm} (decides : Decides prune)
    (scanned : Scanned prune localization start records upto) :
    pruneLoop prune (cursorBeg prune localization) events records upto ≠ .panic ∧
    ∀ final stop, pruneLoop prune (cursorBeg prune localization) events records upto =
      .done (final, stop) → Swept prune localization start final stop := by
  induction events generalizing records upto with
  | nil =>
      rw [pruneLoop]
      cases is : current (cursorBeg prune localization) records upto with
      | none => exact ⟨by simp, scanned.finish is⟩
      | some elm => exact ⟨by simp, by simp⟩
  | cons event events ih =>
      rw [pruneLoop]
      cases is : current (cursorBeg prune localization) records upto with
      | none => exact ⟨by simp, scanned.finish is⟩
      | some elm =>
          obtain ⟨delete, tested, iff⟩ := decides elm
          simp only [tested, Outcome.bind]
          by_cases signal : event = .signal
          · rw [if_pos signal]
            refine ⟨by simp, ?_⟩
            rintro final stop ⟨⟩
            exact scanned.swept (by decide)
          · rw [if_neg signal]
            cases delete with
            | false => exact ih (scanned.keep is (mt iff.mpr (by simp)))
            | true =>
                cases event with
                | signal => exact absurd rfl signal
                | success => exact ih (scanned.destroy is (iff.mp rfl))
                | edeadlk => exact ih (scanned.retry is)
                | eio =>
                    refine ⟨by simp, ?_⟩
                    rintro final stop ⟨⟩
                    exact scanned.swept (by decide)

/-- Without signals and errors the loop returns. -/
theorem pruneLoop_returns (decides : Decides prune) (success : ∀ event ∈ events, event = .success)
    (inside : upto ≤ records.length) (enough : upto ≤ events.length) :
    ∃ final, pruneLoop prune keyBeg events records upto = .done (final, .complete) := by
  induction events generalizing records upto with
  | nil =>
      obtain rfl : upto = 0 := by simpa using enough
      exact ⟨records, rfl⟩
  | cons event events ih =>
      rw [List.forall_mem_cons] at success
      rw [List.length_cons] at enough
      rw [pruneLoop]
      cases is : current keyBeg records upto with
      | none => exact ⟨records, rfl⟩
      | some elm =>
          obtain ⟨-, front, back, shape, here, -, -⟩ := current_eq_some inside is
          obtain ⟨delete, tested, -⟩ := decides elm
          rw [success.1]
          simp only [tested, Outcome.bind, reduceCtorEq, if_false]
          cases delete with
          | false => exact ih success.2 (by omega) (by omega)
          | true =>
              refine ih success.2 ?_ (by omega)
              rw [List.length_eraseIdx]
              split <;> omega

end Scan

/-! ## Snapshots -/

/-- What pruning promises: the records as of the listed transactions, the records that
are not deleted, the records of the time after the last window, and that all that lies
strictly inside a window is gone. -/
structure Retains (listed : List Nat) (prune : IocPrune) (localization : Nat)
    (records final : List LeafElm) : Prop where
  snapshots : ∀ elm ∈ records, ∀ tid ∈ listed, VisibleAt tid elm.base → elm ∈ final
  current : ∀ elm ∈ records, elm.base.deleteTid = 0 → elm ∈ final
  recent : ∀ elm ∈ records, ((∀ window ∈ prune.elms, window.endTid < elm.base.createTid) ∨
    ∀ window ∈ prune.elms, window.endTid < elm.base.deleteTid) → elm ∈ final
  pruned : ∀ elm ∈ records, InScan prune localization elm.base → ∀ window ∈ prune.elms,
    window.begTid < elm.base.createTid → elm.base.createTid < window.endTid →
      window.begTid < elm.base.deleteTid → elm.base.deleteTid < window.endTid → elm ∉ final

/-- No record of the scan is created by the transaction of a listed snapshot that begins
a window and deleted inside the window. -/
def NoneBorn (listed : List Nat) (prune : IocPrune) (localization : Nat)
    (records : List LeafElm) : Prop :=
  ∀ elm ∈ records, InScan prune localization elm.base → ∀ window ∈ prune.elms,
    window.begTid ∈ listed → elm.base.createTid = window.begTid →
      ¬(window.begTid < elm.base.deleteTid ∧ elm.base.deleteTid < window.endTid)

section Snapshots

variable {listed : List Nat} {prune : IocPrune} {localization : Nat}
  {records final : List LeafElm} {elm : LeafElm} {stop : Stop}

theorem Windows.decides (windows : Windows listed prune.elms) (some : prune.all = false) :
    Decides prune := by
  intro elm
  rw [shouldDelete, some, if_neg Bool.false_ne_true]
  exact shouldDeleteLoop_eq windows.ok windows.descending

/-- A record that is visible as of a snapshot and covered is created by the transaction
of the snapshot. -/
theorem Windows.born {window : PruneElm} {tid : Nat} (windows : Windows listed prune.elms)
    (member : window ∈ prune.elms) (covers : Covers window elm.base) (isListed : tid ∈ listed)
    (visible : VisibleAt tid elm.base) :
    elm.base.createTid = window.begTid ∧ tid = window.begTid ∧ window.begTid < elm.base.deleteTid := by
  obtain ⟨deleted, createLow, createHigh, deleteLow, deleteHigh⟩ := covers
  obtain ⟨created, alive⟩ := visible
  have same := windows.adjacent window member tid isListed (by omega) (by omega)
  omega

theorem Swept.spares (swept : Swept prune localization records final stop) (member : elm ∈ records)
    (spared : ∀ window ∈ prune.elms, ¬Covers window elm.base) : elm ∈ final := by
  by_contra absent
  obtain ⟨window, windowMem, covers⟩ := (swept.removed elm member absent).1
  exact spared window windowMem covers

theorem Swept.current (swept : Swept prune localization records final stop) :
    ∀ elm ∈ records, elm.base.deleteTid = 0 → elm ∈ final := by
  intro elm member alive
  exact swept.spares member fun window _ covers => covers.deleted alive

theorem Swept.recent (swept : Swept prune localization records final stop) :
    ∀ elm ∈ records, ((∀ window ∈ prune.elms, window.endTid < elm.base.createTid) ∨
      ∀ window ∈ prune.elms, window.endTid < elm.base.deleteTid) → elm ∈ final := by
  intro elm member late
  refine swept.spares member ?_
  intro window windowMem covers
  rcases late with created | deleted
  · exact absurd (created window windowMem) covers.createHigh.asymm
  · exact absurd (deleted window windowMem) covers.deleteHigh.asymm

theorem Swept.snapshots (swept : Swept prune localization records final stop)
    (windows : Windows listed prune.elms) (none : NoneBorn listed prune localization records) :
    ∀ elm ∈ records, ∀ tid ∈ listed, VisibleAt tid elm.base → elm ∈ final := by
  intro elm member tid isListed visible
  by_contra absent
  obtain ⟨⟨window, windowMem, covers⟩, inScan⟩ := swept.removed elm member absent
  obtain ⟨created, same, deleted⟩ := windows.born windowMem covers isListed visible
  exact none elm member inScan window windowMem (same ▸ isListed) created
    ⟨deleted, covers.deleteHigh⟩

/-- A complete scan keeps its promise exactly when no record is born with a snapshot. -/
theorem Swept.retains_iff (swept : Swept prune localization records final .complete)
    (windows : Windows listed prune.elms) :
    Retains listed prune localization records final ↔
      NoneBorn listed prune localization records := by
  have gone : ∀ elm ∈ records, InScan prune localization elm.base → Doomed prune elm →
      elm ∉ final := fun elm _ inScan doomed kept => swept.complete rfl elm kept inScan doomed
  constructor
  · intro retains elm member inScan window windowMem isListed created deleted
    have covers : Covers window elm.base :=
      ⟨by omega, by omega, by omega, by omega, by omega⟩
    exact gone elm member inScan ⟨window, windowMem, covers⟩
      (retains.snapshots elm member window.begTid isListed ⟨by omega, .inr deleted.1⟩)
  · intro none
    refine ⟨swept.snapshots windows none, swept.current, swept.recent, ?_⟩
    intro elm member inScan window windowMem createLow createHigh deleteLow deleteHigh
    exact gone elm member inScan
      ⟨window, windowMem, ⟨by omega, by omega, createHigh, by omega, deleteHigh⟩⟩

theorem Windows.mono {fewer : List Nat} {elms : List PruneElm} (windows : Windows listed elms)
    (subset : fewer ⊆ listed) : Windows fewer elms where
  ok := windows.ok
  descending := windows.descending
  adjacent elm member tid isListed := windows.adjacent elm member tid (subset isListed)

/-- The windows of a list of snapshots, in whatever order `qsort` leaves equal ones. -/
theorem snapshot_windows {snapshots : List Snapshot} {sorted : List PruneElm} (pruneMin now : Int)
    (perm : sorted.Perm (snapshots.map addelm))
    (order : sorted.Pairwise fun x y => y.begTid ≤ x.begTid) :
    Windows (snapshots.map fun snapshot => snapshot.tid.toNat) (finalize pruneMin now sorted) := by
  have small : ∀ elm ∈ sorted, elm.begTid ≤ maxTid := by
    intro elm member
    obtain ⟨snapshot, -, rfl⟩ := List.mem_map.mp (perm.mem_iff.mp member)
    have := snapshot.tid.toNat_lt
    simp only [addelm, maxTid]
    omega
  refine (finalize_windows pruneMin now order small).mono ?_
  intro tid member
  obtain ⟨snapshot, snapshotMem, rfl⟩ := List.mem_map.mp member
  exact List.mem_map.mpr
    ⟨addelm snapshot, perm.mem_iff.mpr (List.mem_map_of_mem snapshotMem), rfl⟩

/-- Pruning with the windows of a list of snapshots traps on no division.  Whatever
happens, it destroys no record that is not deleted and none of the time after the last
window, and if no record is born with a snapshot, none that is visible as of a snapshot.
A scan that is complete keeps all of the promise exactly if no record is born with a
snapshot, and a scan without signals and errors is complete. -/
theorem prune_retains_snapshots {snapshots : List Snapshot} {sorted : List PruneElm}
    (pruneMin now : Int) (perm : sorted.Perm (snapshots.map addelm))
    (order : sorted.Pairwise fun x y => y.begTid ≤ x.begTid) {prune : IocPrune}
    (elms : prune.elms = finalize pruneMin now sorted) (windowed : prune.all = false)
    (localization : Nat) (events : List Event) {records : List LeafElm} (tree : TreeOk records) :
    iocPrune prune localization events records ≠ .panic ∧
    (∀ final stop, iocPrune prune localization events records = .done (final, stop) →
      final.Sublist records ∧
      (∀ elm ∈ records, elm.base.deleteTid = 0 → elm ∈ final) ∧
      (∀ elm ∈ records, ((∀ window ∈ prune.elms, window.endTid < elm.base.createTid) ∨
        ∀ window ∈ prune.elms, window.endTid < elm.base.deleteTid) → elm ∈ final) ∧
      (NoneBorn (snapshots.map fun snapshot => snapshot.tid.toNat) prune localization records →
        ∀ elm ∈ records, ∀ snapshot ∈ snapshots, VisibleAt snapshot.tid.toNat elm.base →
          elm ∈ final) ∧
      (stop = .complete →
        (Retains (snapshots.map fun snapshot => snapshot.tid.toNat) prune localization records final ↔
          NoneBorn (snapshots.map fun snapshot => snapshot.tid.toNat) prune localization records))) ∧
    (prune.valid = true → (∀ event ∈ events, event = .success) → records.length ≤ events.length →
      ∃ final, iocPrune prune localization events records = .done (final, .complete)) := by
  have windows := snapshot_windows pruneMin now perm order
  rw [← elms] at windows
  have decides := windows.decides windowed
  have loop := pruneLoop_swept events decides (Scanned.initial tree prune localization)
  have returned : iocPrune prune localization events records ≠ .panic ∧
      ∀ final stop, iocPrune prune localization events records = .done (final, stop) →
        Swept prune localization records final stop := by
    unfold iocPrune
    split
    · exact loop
    · refine ⟨by simp, ?_⟩
      rintro final stop ⟨⟩
      exact ⟨List.Sublist.refl _, fun elm member absent => absurd member absent, by simp⟩
  refine ⟨returned.1, ?_, ?_⟩
  · intro final stop done
    have swept := returned.2 final stop done
    refine ⟨swept.sub, swept.current, swept.recent, ?_, ?_⟩
    · intro none elm member snapshot snapshotMem visible
      exact swept.snapshots windows none elm member _ (List.mem_map_of_mem snapshotMem) visible
    · rintro rfl
      exact swept.retains_iff windows
  · intro valid success enough
    have inside := btreeLast_le records (cursorEnd (keyStart prune localization))
    rw [iocPrune, if_pos valid]
    exact pruneLoop_returns decides success inside (by omega)

end Snapshots

section Example

/-- Three snapshots, one of them listed twice. -/
def exampleSnapshots : List Snapshot := [⟨100, 0, 0⟩, ⟨300, 0, 0⟩, ⟨200, 0, 0⟩, ⟨100, 0, 0⟩]

/-- The four elements as `qsort` leaves them. -/
def exampleSorted : List PruneElm := [⟨300, 0, 0⟩, ⟨200, 0, 0⟩, ⟨100, 0, 0⟩, ⟨100, 0, 0⟩]

/-- A key of an object. -/
def exampleBase (localization : Nat) (objId : Int) (createTid deleteTid : Nat) : Base where
  objId := objId
  key := 0
  createTid := createTid
  deleteTid := deleteTid
  recType := 1
  objType := 0
  btype := .record
  localization := localization

/-- The call for all of a pseudo-filesystem. -/
def examplePrune : IocPrune where
  all := false
  elms := finalize 0 0 exampleSorted
  keyBeg := exampleBase 0 (-0x8000000000000000) 0 0
  keyEnd := exampleBase 0xFFFF 0x7FFFFFFFFFFFFFFF 0 0

/-- A record of an inode. -/
def exampleRecord (objId : Int) (createTid deleteTid : Nat) : LeafElm where
  base := exampleBase 1 objId createTid deleteTid
  createTs := 0
  deleteTs := 0
  dataOffset := 0
  dataLen := 0
  dataCrc := 0

theorem exampleSorted_perm : exampleSorted.Perm (exampleSnapshots.map addelm) := by decide

theorem exampleSorted_order : exampleSorted.Pairwise fun x y => y.begTid ≤ x.begTid := by decide

theorem example_tree {first second : LeafElm} (sorted : first.base.rank < second.base.rank)
    (types : first.base.recType < 0xFFFF ∧ second.base.recType < 0xFFFF)
    (keys : first.base.key ≤ 0x7FFFFFFFFFFFFFFF ∧ second.base.key ≤ 0x7FFFFFFFFFFFFFFF) :
    TreeOk [first, second] := by
  constructor <;> simp [sorted, types, keys]

/-- The first record lives between two snapshots and goes, the second is visible as of
one. -/
theorem prune_retains_snapshots_example :
    ∃ final, iocPrune examplePrune 0 [.success, .success]
        [exampleRecord 1 120 150, exampleRecord 2 150 250] = .done (final, .complete) ∧
      Retains (exampleSnapshots.map fun snapshot => snapshot.tid.toNat) examplePrune 0
        [exampleRecord 1 120 150, exampleRecord 2 150 250] final := by
  have tree : TreeOk [exampleRecord 1 120 150, exampleRecord 2 150 250] :=
    example_tree (cmp_lt_zero_iff.mp (by decide)) (by decide) (by decide)
  have elms : examplePrune.elms = finalize 0 0 exampleSorted := rfl
  obtain ⟨-, swept, returns⟩ := prune_retains_snapshots 0 0 exampleSorted_perm exampleSorted_order
    elms rfl 0 [.success, .success] tree
  obtain ⟨final, done⟩ := returns (by decide) (by decide) (by decide)
  refine ⟨final, done, ((swept final .complete done).2.2.2.2 rfl).mpr ?_⟩
  have apart : ∀ elm ∈ [exampleRecord 1 120 150, exampleRecord 2 150 250],
      ∀ window ∈ examplePrune.elms, elm.base.createTid ≠ window.begTid := by decide
  intro elm member _ window windowMem _ created
  exact absurd created (apart elm member window windowMem)

/-- A record that the transaction of a snapshot has created is visible as of the snapshot
and destroyed. -/
theorem born_with_snapshot_destroyed :
    iocPrune examplePrune 0 [.success, .success] [exampleRecord 1 100 150, exampleRecord 2 150 250] =
        .done ([exampleRecord 2 150 250], .complete) ∧
      exampleSorted.Perm (exampleSnapshots.map addelm) ∧
      examplePrune.elms = finalize 0 0 exampleSorted ∧
      (∃ snapshot ∈ exampleSnapshots, snapshot.tid = 100) ∧
      chkts 100 (exampleRecord 1 100 150).base = 0 := by
  refine ⟨rfl, exampleSorted_perm, rfl, ?_, by decide⟩
  exact ⟨⟨100, 0, 0⟩, by simp [exampleSnapshots], rfl⟩

end Example

end Dragonfly.Hammer.Prune
