import Dragonfly.Lib.Again
import Dragonfly.Hammer.Btree.Rebalance

/-!
# Tracked cursors during rebalancing

A cursor that is not locked is on the list of the node it is at, and the tracking
functions move it along with the elements.  A tracked cursor has no parent, so
`hammer_cursor_parent_changed` does nothing to it.  The functions go back to the
start of a list after every cursor they take off it; the order on the lists plays
no part.
-/

namespace Dragonfly.Hammer.Btree

open Dragonfly.Lib

/-- The rebalanced node, or one of its children under the index it has when the loop
starts. -/
inductive Site where
  | root
  | child (index : Nat)
  deriving DecidableEq, Repr

/-- The fields of a tracked `struct hammer_cursor`; `leaf` is an element of a node. -/
structure Cursor where
  node : Site
  index : Nat
  leaf : Option (Site × Nat)
  ateDisk : Bool
  trackedRipout : Bool
  iterateCheck : Bool
  deriving DecidableEq, Repr

namespace Cursor

/-- Put the cursor at an element, with the leaf pointer if it is at `leaf`. -/
def goto (cursor : Cursor) (leaf : Site × Nat) (node : Site) (index : Nat) : Cursor :=
  { cursor with
    leaf := if cursor.leaf = some leaf then some (node, index) else cursor.leaf
    node := node
    index := index }

/-- What `hammer_cursor_removed_node` does to a cursor. -/
def ripout (cursor : Cursor) (index : Nat) : Cursor :=
  { cursor with
    leaf := if cursor.leaf = some (cursor.node, cursor.index) then none else cursor.leaf
    trackedRipout := true
    iterateCheck := true
    node := .root
    index := index }

/-- What `hammer_cursor_deleted_element` does to a cursor of the rebalanced node. -/
def shift (cursor : Cursor) (index : Nat) : Cursor :=
  if cursor.node ≠ .root then cursor
  else if cursor.index = index then
    { cursor with
      trackedRipout := true
      leaf := if cursor.leaf = some (.root, cursor.index) then none else cursor.leaf }
  else if index < cursor.index then
    { cursor with
      leaf := if cursor.leaf = some (.root, cursor.index) then some (.root, cursor.index - 1)
        else cursor.leaf
      index := cursor.index - 1 }
  else cursor

end Cursor

/-- `hammer_cursor_moved_element` -/
def movedElement (fuel pindex onode oindex nnode nindex : Nat) (cursors : List Cursor) :
    Outcome (List Cursor) :=
  (again (fun cursor => cursor.node = .child onode && cursor.index = oindex) (fun _ => true)
    (fun cursor => cursor.goto (.child onode, oindex) (.child nnode) nindex) fuel cursors).bind
    fun cursors =>
      if onode = nnode ∨ oindex ≠ 0 then .done cursors
      else
        again (fun cursor => cursor.node = .root && cursor.index = pindex) (fun _ => true)
          (fun cursor =>
            { cursor.goto (.root, oindex) (.child nnode) nindex with ateDisk := false })
          fuel cursors

/-- `hammer_cursor_removed_node` -/
def removedNode (fuel node index : Nat) (cursors : List Cursor) : Outcome (List Cursor) :=
  again (fun cursor => cursor.node = .child node) (fun cursor => cursor.index = 0)
    (fun cursor => cursor.ripout index) fuel cursors

/-- `hammer_cursor_deleted_element` -/
def deletedElement (index : Nat) (cursors : List Cursor) : List Cursor :=
  cursors.map fun cursor => cursor.shift index

def Call.apply (fuel : Nat) (cursors : List Cursor) : Call → Outcome (List Cursor)
  | moved pindex onode oindex nnode nindex =>
      movedElement fuel pindex onode oindex nnode nindex cursors
  | removed node index => removedNode fuel node index cursors
  | deleted index => .done (deletedElement index cursors)

/-- All calls, one after the other. -/
def track (fuel : Nat) : List Call → List Cursor → Outcome (List Cursor)
  | [], cursors => .done cursors
  | call :: calls, cursors => (call.apply fuel cursors).bind (track fuel calls)

/-! ## One cursor at a time -/

namespace Cursor

/-- What a call makes of a cursor; nothing if the call does not come back. -/
def step (cursor : Cursor) : Call → Option Cursor
  | .moved pindex onode oindex nnode nindex =>
      (Lib.settle (fun cursor => cursor.node = .child onode && cursor.index = oindex) (fun _ => true)
        (fun cursor => cursor.goto (.child onode, oindex) (.child nnode) nindex) cursor).bind
        fun cursor =>
          if onode = nnode ∨ oindex ≠ 0 then some cursor
          else
            Lib.settle (fun cursor => cursor.node = .root && cursor.index = pindex) (fun _ => true)
              (fun cursor =>
                { cursor.goto (.root, oindex) (.child nnode) nindex with ateDisk := false })
              cursor
  | .removed node index =>
      Lib.settle (fun cursor => cursor.node = .child node) (fun cursor => cursor.index = 0)
        (fun cursor => cursor.ripout index) cursor
  | .deleted index => some (cursor.shift index)

def run : List Call → Cursor → Option Cursor
  | [], cursor => some cursor
  | call :: calls, cursor => (cursor.step call).bind (run calls)

end Cursor

section Track

variable {call : Call} {calls : List Call} {cursors final : List Cursor} {fuel : Nat}

theorem apply_done (done : call.apply fuel cursors = .done final) :
    Each (Cursor.step · call) cursors final := by
  cases call with
  | moved pindex onode oindex nnode nindex =>
      obtain ⟨middle, first, second⟩ := (Outcome.bind_eq_done_iff).mp done
      refine (again_done (fun _ _ => rfl) first).trans ?_
      by_cases only : onode = nnode ∨ oindex ≠ 0
      · simp only [only, if_true, Outcome.done.injEq] at second ⊢
        rw [← second]
        exact each_of_miss fun _ _ => rfl
      · simp only [only, if_false] at second ⊢
        exact again_done (fun _ _ => rfl) second
  | removed node index => exact again_done (fun _ _ => rfl) done
  | deleted index =>
      exact (each_map_iff).mpr (Outcome.done.inj done)

theorem done_apply (each : Each (Cursor.step · call) cursors final)
    (enough : cursors.length < fuel) : call.apply fuel cursors = .done final := by
  cases call with
  | moved pindex onode oindex nnode nindex =>
      obtain ⟨middle, first, second⟩ := each.split
      have done := done_again first (List.countP_le_length.trans_lt enough)
      rw [Call.apply, movedElement, done]
      by_cases only : onode = nnode ∨ oindex ≠ 0
      · simp only [only, if_true] at second
        rw [second.eq_of_miss fun _ _ => rfl]
        simp [Outcome.bind, only]
      · simp only [only, if_false] at second
        simp only [Outcome.bind, only, if_false]
        exact done_again second (List.countP_le_length.trans_lt (first.length_eq ▸ enough))
  | removed node index => exact done_again each (List.countP_le_length.trans_lt enough)
  | deleted index =>
      exact congrArg Outcome.done ((each_map_iff).mp each)

/-- The calls that have come back have made of every cursor what they make of it
alone. -/
theorem track_done (done : track fuel calls cursors = .done final) :
    Each (Cursor.run calls) cursors final := by
  induction calls generalizing cursors with
  | nil =>
      rw [← Outcome.done.inj done]
      exact each_of_miss fun _ _ => rfl
  | cons call calls ih =>
      obtain ⟨middle, first, rest⟩ := (Outcome.bind_eq_done_iff).mp done
      exact (apply_done first).trans (ih rest)

theorem done_track (each : Each (Cursor.run calls) cursors final)
    (enough : cursors.length < fuel) : track fuel calls cursors = .done final := by
  induction calls generalizing cursors with
  | nil =>
      rw [each.eq_of_miss fun _ _ => rfl]
      rfl
  | cons call calls ih =>
      obtain ⟨middle, first, rest⟩ := each.split
      rw [track, done_apply first enough]
      exact ih rest (first.length_eq ▸ enough)

/-- The calls come back with every cursor in a good place exactly if they do so for
every cursor alone. -/
theorem track_iff {good : Cursor → Cursor → Prop} :
    (∃ fuel final, track fuel calls cursors = .done final ∧ List.Forall₂ good cursors final) ↔
      ∀ cursor ∈ cursors, ∃ result, cursor.run calls = some result ∧ good cursor result := by
  rw [← each_exists_iff]
  constructor
  · rintro ⟨fuel, final, done, goods⟩
    exact ⟨final, track_done done, goods⟩
  · rintro ⟨final, each, goods⟩
    exact ⟨_, final, done_track each (Nat.lt_succ_self _), goods⟩

end Track

/-! ## Where a cursor goes -/

/-- A node and an index in it. -/
abbrev Spot : Type := Site × Nat

def Cursor.spot (cursor : Cursor) : Spot := (cursor.node, cursor.index)

/-- Where a call takes a cursor that is at a spot. -/
def Call.relocate : Call → Spot → Option Spot
  | moved pindex onode oindex nnode nindex, spot =>
      if spot = (.child onode, oindex) then
        if onode = nnode ∧ oindex = nindex then none else some (.child nnode, nindex)
      else if onode ≠ nnode ∧ oindex = 0 ∧ spot = (.root, pindex) then
        some (.child nnode, nindex)
      else some spot
  | removed node index, spot =>
      if spot.1 = .child node then if spot.2 = 0 then some (.root, index) else none
      else some spot
  | deleted index, spot =>
      if spot.1 = .root ∧ index < spot.2 then some (.root, spot.2 - 1) else some spot

def relocate : List Call → Spot → Option Spot
  | [], spot => some spot
  | call :: calls, spot => (call.relocate spot).bind (relocate calls)

/-- A loop that hits the cursors at one spot and takes them to another. -/
theorem settle_spot (hit : Cursor → Bool) (change : Cursor → Cursor) (source target : Spot)
    (at' : ∀ cursor, hit cursor = true ↔ cursor.spot = source)
    (goes : ∀ cursor, (change cursor).spot = target) (cursor : Cursor) :
    (Lib.settle hit (fun _ => true) change cursor).map Cursor.spot =
      if cursor.spot = source then if target = source then none else some target
      else some cursor.spot := by
  have again : hit (change cursor) = true ↔ target = source := by rw [at', goes]
  unfold Lib.settle
  by_cases here : cursor.spot = source
  · rw [if_pos ((at' cursor).mpr here), if_pos here]
    by_cases stuck : target = source
    · simp [stuck, again.mpr stuck]
    · have gone : hit (change cursor) = false := by rwa [← Bool.not_eq_true, again]
      simp [stuck, gone, goes]
  · rw [if_neg (mt (at' cursor).mp here), if_neg here]
    rfl

theorem Cursor.step_moved_spot (cursor : Cursor) (pindex onode oindex nnode nindex : Nat) :
    (cursor.step (.moved pindex onode oindex nnode nindex)).map spot =
      (Call.moved pindex onode oindex nnode nindex).relocate cursor.spot := by
  have first := settle_spot
    (fun cursor => cursor.node = .child onode && cursor.index = oindex)
    (fun cursor => cursor.goto (.child onode, oindex) (.child nnode) nindex)
    (.child onode, oindex) (.child nnode, nindex)
    (by simp [spot]) (fun _ => rfl) cursor
  have second := settle_spot
    (fun cursor => cursor.node = .root && cursor.index = pindex)
    (fun cursor =>
      { cursor.goto (.root, oindex) (.child nnode) nindex with ateDisk := false })
    (.root, pindex) (.child nnode, nindex) (by simp [spot]) (fun _ => rfl)
  simp only [reduceCtorEq, Prod.mk.injEq, false_and, if_false] at second
  rw [step, Option.map_bind]
  by_cases here : cursor.spot = (.child onode, oindex)
  · rw [if_pos here] at first
    rw [Call.relocate, if_pos here]
    by_cases stuck : onode = nnode ∧ oindex = nindex
    · rw [if_pos (by simp [stuck])] at first
      rw [if_pos stuck, Option.map_eq_none_iff.mp first]
      rfl
    · rw [if_neg (by simpa [eq_comm] using stuck)] at first
      rw [if_neg stuck]
      obtain ⟨middle, settled, spotEq⟩ := Option.map_eq_some_iff.mp first
      rw [settled, Option.bind_some, Function.comp_apply]
      by_cases only : onode = nnode ∨ oindex ≠ 0
      · rw [if_pos only, Option.map_some, spotEq]
      · rw [if_neg only, second, if_neg (by simp [spotEq]), spotEq]
  · rw [if_neg here] at first
    rw [Call.relocate, if_neg here]
    obtain ⟨middle, settled, spotEq⟩ := Option.map_eq_some_iff.mp first
    rw [settled, Option.bind_some, Function.comp_apply]
    by_cases only : onode = nnode ∨ oindex ≠ 0
    · rw [if_pos only, Option.map_some, spotEq, if_neg (by tauto)]
    · rw [if_neg only, second, spotEq]
      exact if_congr (by tauto) rfl rfl

theorem Cursor.step_spot (cursor : Cursor) (call : Call) :
    (cursor.step call).map spot = call.relocate cursor.spot := by
  cases call with
  | moved pindex onode oindex nnode nindex =>
      exact cursor.step_moved_spot pindex onode oindex nnode nindex
  | removed target index =>
      by_cases here : cursor.node = .child target <;> by_cases zero : cursor.index = 0 <;>
        simp [step, Lib.settle, Call.relocate, spot, ripout, here, zero]
  | deleted index =>
      by_cases top : cursor.node = .root <;> by_cases same : cursor.index = index <;>
        by_cases behind : index < cursor.index <;>
        simp [step, Call.relocate, spot, shift, top, same, behind] 

theorem Cursor.run_spot (cursor : Cursor) (calls : List Call) :
    (cursor.run calls).map spot = relocate calls cursor.spot := by
  induction calls generalizing cursor with
  | nil => rfl
  | cons call calls ih =>
      rw [run, relocate, ← step_spot]
      cases cursor.step call with
      | none => rfl
      | some next => exact ih next

end Dragonfly.Hammer.Btree
