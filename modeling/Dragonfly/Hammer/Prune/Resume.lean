import Dragonfly.Lib.Run
import Dragonfly.Hammer.Prune.Retain

/-!
# Pruning that is interrupted

A call that is interrupted by a signal or an error has done a part of the work, and a later call
starts at the end of the range again.  Once a call has come to its end, the tree is what one call
would have left.
-/

namespace Dragonfly.Hammer.Prune

open Dragonfly.Lib Dragonfly.Hammer.Btree

/-- A call of `hammer_ioc_prune`, with what happens in it and how it stops. -/
def Call (prune : IocPrune) (localization : Nat) (records : List LeafElm) (call : List Event × Stop)
    (next : List LeafElm) : Prop :=
  iocPrune prune localization call.1 records = .done (next, call.2)

variable {prune : IocPrune} {localization : Nat} {records middle final : List LeafElm} {stop stop' : Stop}
  {events : List Event} {calls : List (List Event × Stop)}

/-- What two calls leave, one after the other. -/
theorem Swept.trans (first : Swept prune localization records middle stop)
    (second : Swept prune localization middle final stop') : Swept prune localization records final stop' where
  sub := second.sub.trans first.sub
  removed elm member absent := by
    by_cases kept : elm ∈ middle
    · exact second.removed elm kept absent
    · exact first.removed elm member kept
  complete := second.complete

/-- One call. -/
theorem iocPrune_swept (decides : Decides prune) (tree : TreeOk records)
    (done : iocPrune prune localization events records = .done (final, stop)) :
    Swept prune localization records final stop := by
  unfold iocPrune at done
  split at done
  · exact (pruneLoop_swept events decides (Scanned.initial tree prune localization)).2 final stop done
  · cases done
    exact ⟨List.Sublist.refl _, fun elm member absent => absurd member absent, nofun⟩

/-- Calls one after the other. -/
theorem calls_swept (decides : Decides prune) (tree : TreeOk records)
    (run : Run (Call prune localization) records calls middle) :
    TreeOk middle ∧ Swept prune localization records middle .interrupted := by
  induction run with
  | nil records => exact ⟨tree, List.Sublist.refl _, fun elm member absent => absurd member absent, nofun⟩
  | cons first rest ih =>
      have swept := iocPrune_swept decides tree first
      obtain ⟨tree, rest⟩ := ih (tree.sublist swept.sub)
      exact ⟨tree, swept.trans rest⟩

/-- With the windows of a list of snapshots, whatever calls have been made before and however they
were stopped, a call that comes to its end leaves just the records outside of the range of keys and
those that no window covers. -/
theorem prune_resumes {snapshots : List Snapshot} {sorted : List PruneElm} (pruneMin now : Int)
    (perm : sorted.Perm (snapshots.map addelm)) (order : sorted.Pairwise fun x y => y.begTid ≤ x.begTid)
    (elms : prune.elms = finalize pruneMin now sorted) (windowed : prune.all = false) (tree : TreeOk records)
    (run : Run (Call prune localization) records calls middle)
    (done : iocPrune prune localization events middle = .done (final, .complete)) :
    final.Sublist records ∧
      ∀ elm, elm ∈ final ↔ elm ∈ records ∧ ¬(InScan prune localization elm.base ∧ Doomed prune elm) := by
  have windows := snapshot_windows pruneMin now perm order
  rw [← elms] at windows
  have decides := windows.decides windowed
  obtain ⟨treeMiddle, before⟩ := calls_swept decides tree run
  have swept := before.trans (iocPrune_swept decides treeMiddle done)
  refine ⟨swept.sub, fun elm => ⟨fun kept => ⟨swept.sub.subset kept, fun both => ?_⟩,
    fun ⟨member, spared⟩ => ?_⟩⟩
  · exact swept.complete rfl elm kept both.1 both.2
  · by_contra gone
    exact spared (swept.removed elm member gone).symm

/-- A call that a signal ends at the first record that it would destroy, and then another one. -/
theorem prune_resumes_example :
    [exampleRecord 2 150 250].Sublist [exampleRecord 1 120 150, exampleRecord 2 150 250] ∧
      ∀ elm, elm ∈ [exampleRecord 2 150 250] ↔ elm ∈ [exampleRecord 1 120 150, exampleRecord 2 150 250] ∧
        ¬(InScan examplePrune 0 elm.base ∧ Doomed examplePrune elm) := by
  have tree : TreeOk [exampleRecord 1 120 150, exampleRecord 2 150 250] :=
    example_tree (cmp_lt_zero_iff.mp (by decide)) (by decide) (by decide)
  have interrupted : Call examplePrune 0 [exampleRecord 1 120 150, exampleRecord 2 150 250]
      ([.success, .signal], .interrupted) [exampleRecord 1 120 150, exampleRecord 2 150 250] := rfl
  have completed : iocPrune examplePrune 0 [.success, .success]
      [exampleRecord 1 120 150, exampleRecord 2 150 250] = .done ([exampleRecord 2 150 250], .complete) := rfl
  exact prune_resumes 0 0 exampleSorted_perm exampleSorted_order rfl rfl tree
    (.cons interrupted (.nil _)) completed

end Dragonfly.Hammer.Prune
