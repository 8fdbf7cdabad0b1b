import Mathlib
import Dragonfly.Hammer.Btree.Travel

/-!
# Tracked cursors of a rebalanced node

The calls of `rebalance_node` are those of the schedule of moves, and its children have
the elements the schedule says, so the cursors that keep their positions are those that
follow.
-/

namespace Dragonfly.Hammer.Btree

open Dragonfly.Lib

/-- The numbers of elements of the children. -/
def Node.counts (node : Node) : List Nat := node.links.map (·.2.count)

section Kinds

variable {ε ρ : Type} {kind : Kind ε ρ} {saturation : Nat}

theorem repack_done {mirrorTid : Nat} {right : Base} {first : Child ε ρ}
    {items : List (Child ε ρ)} {repacked : Repacked ε ρ} {counts : List Nat}
    (countsEq : (first :: items).map (·.elms.length) = counts)
    (done : repack kind saturation mirrorTid right first items = .done repacked) :
    repacked.calls = cursorCalls (avgElms saturation counts.sum counts.length) counts ∧
      repacked.children.map (·.elms.length) =
        newCounts (avgElms saturation counts.sum counts.length) counts ∧
      keptCount (avgElms saturation counts.sum counts.length) counts ≤ counts.length := by
  have lengthEq : (first :: items).length = counts.length := by rw [← countsEq, List.length_map]
  obtain ⟨pack, packed, rest⟩ := (Outcome.bind_eq_done_iff).mp done
  obtain ⟨closed, closeEq, finished⟩ := (Outcome.bind_eq_done_iff).mp rest
  rw [countsEq, lengthEq] at packed
  generalize avgElms saturation counts.sum counts.length = avg at packed ⊢
  obtain ⟨⟨front, calls⟩, shape⟩ := Pack.packItems_done 0 packed rfl
  rw [countsEq] at calls front
  rw [Nat.zero_add] at front
  obtain ⟨full, total⟩ := @shape counts.length ⟨nofun, by
    rw [← lengthEq, List.length_cons, Nat.add_comm]
    simp [Pack.rootCount]⟩
  have rootCount : pack.rootCount = (packedTo avg counts.sum).1 := congrArg Prod.fst front
  have baseCount : pack.baseCount = lastCount avg counts := congrArg Prod.snd front
  have kept : pack.rootCount + 1 = keptCount avg counts := congrArg (· + 1) rootCount
  have left : counts.length - keptCount avg counts = pack.rest.length := by
    rw [← kept, ← total, Nat.add_sub_cancel_left]
  rw [← Outcome.done.inj finished]
  refine ⟨?_, ?_, ?_⟩
  · simp only
    rw [calls, cursorCalls, baseCount, kept, left]
    rfl
  · have lengths : pack.closed.map (·.elms.length) = List.replicate (packedTo avg counts.sum).1 avg :=
      List.eq_replicate_iff.mpr ⟨by rw [List.length_map]; exact rootCount, fun length member => by
        obtain ⟨child, childMember, rfl⟩ := List.mem_map.mp member
        exact full child childMember⟩
    simp only [List.map_append, List.map_cons, List.map_nil, lengths, Pack.closeBase_done closeEq]
    rw [newCounts, ← baseCount]
    rfl
  · omega

theorem rebalanceKind_done (law : Law kind) {lock : Link → Outcome (Child ε ρ)} {head : Head}
    {links : List Link} {right : Base} {out : Rebalanced} (some : links ≠ [])
    (each : ∀ link ∈ links, ∃ item, lock link = .done item ∧ item.link kind = link)
    {counts : List Nat} (countsEq : links.map (·.2.count) = counts)
    (done : rebalanceKind kind lock saturation head links right = .done out) :
    out.calls = cursorCalls (avgElms saturation counts.sum counts.length) counts ∧
      out.node.counts = newCounts (avgElms saturation counts.sum counts.length) counts ∧
      keptCount (avgElms saturation counts.sum counts.length) counts ≤ counts.length := by
  obtain ⟨items, collected, rfl⟩ := collect_eq each
  have count : ∀ child : Child ε ρ, (child.link kind).2.count = child.elms.length :=
    fun child => law.node_count _ _ _
  rw [List.map_map] at countsEq
  obtain ⟨first, rest, rfl⟩ : ∃ first rest, items = first :: rest :=
    List.exists_cons_of_ne_nil fun none => some (by rw [none, List.map_nil])
  rw [rebalanceKind, collected] at done
  obtain ⟨_, itemsEq, repacks⟩ := (Outcome.bind_eq_done_iff).mp done
  rw [← Outcome.done.inj itemsEq] at repacks
  obtain ⟨repacked, packed, finished⟩ := (Outcome.bind_eq_done_iff).mp repacks
  have lengths : (first :: rest).map (·.elms.length) = counts := by
    rw [← countsEq]
    exact List.map_congr_left fun child _ => (count child).symm
  obtain ⟨calls, children, fewer⟩ := repack_done lengths packed
  rw [← Outcome.done.inj finished]
  refine ⟨calls, ?_, fewer⟩
  rw [← children]
  simp only [Node.counts, Repacked.finish, Node.links, List.map_map]
  exact List.map_congr_left fun child _ => count child

end Kinds

section Nodes

variable {node : Node} {lo hi : Rank} {parent saturation : Nat} {out : Rebalanced}

/-- The calls of `rebalance_node` and the elements of the children that are kept. -/
theorem rebalanceNode_done (ok : node.Ok lo hi parent) (internal : node.type = .internal)
    (uniform : node.Uniform) (done : rebalanceNode saturation node = .done out) :
    out.calls = cursorCalls (avgElms saturation node.grandCount node.count) node.counts ∧
      out.node.counts = newCounts (avgElms saturation node.grandCount node.count) node.counts ∧
      keptCount (avgElms saturation node.grandCount node.count) node.counts ≤
        node.counts.length := by
  cases node with
  | leaf => contradiction
  | internal head links right =>
      obtain ⟨type, same⟩ := uniform
      have some := (Node.ok_internal_iff.mp ok).nonempty
      obtain ⟨first, rest, rfl⟩ := List.exists_cons_of_ne_nil some
      have typeEq := same first List.mem_cons_self
      have length : (Node.internal head (first :: rest) right).counts.length =
          (Node.internal head (first :: rest) right).count := List.length_map _
      rw [← length]
      by_cases leaf : first.2.type = .leaf
      · rw [rebalanceNode, if_pos leaf] at done
        exact rebalanceKind_done leafLaw some (fun link member =>
          Child.ofLeaf_eq (((same link member).trans typeEq.symm).trans leaf)) rfl done
      · rw [rebalanceNode, if_neg leaf] at done
        have other : first.2.type = .internal := by
          cases firstEq : first.2 with
          | leaf => rw [firstEq] at leaf; exact absurd rfl leaf
          | internal => rfl
        exact rebalanceKind_done linkLaw some (fun link member =>
          Child.ofInternal_eq (((same link member).trans typeEq.symm).trans other)) rfl done

theorem run_keeps_iff {calls : List Call} {old new : List Nat} (cursor : Cursor) :
    (∃ result, cursor.run calls = some result ∧ Keeps old new cursor.spot result.spot) ↔
      ∃ after, relocate calls cursor.spot = some after ∧ Keeps old new cursor.spot after := by
  rw [← cursor.run_spot]
  constructor
  · rintro ⟨result, runs, keeps⟩
    exact ⟨result.spot, by rw [runs, Option.map_some], keeps⟩
  · rintro ⟨after, runs, keeps⟩
    obtain ⟨result, found, rfl⟩ := Option.map_eq_some_iff.mp runs
    exact ⟨result, found, keeps⟩

/-- All tracked cursors of the rebalanced node and its children keep their positions
exactly if each of them follows. -/
theorem track_keeps_iff (ok : node.Ok lo hi parent) (internal : node.type = .internal)
    (uniform : node.Uniform) (positive : 0 < saturation)
    (done : rebalanceNode saturation node = .done out)
    {cursors : List Cursor} (placed : ∀ cursor ∈ cursors, Placed node.counts cursor.spot) :
    (∃ fuel final, track fuel out.calls cursors = .done final ∧
      List.Forall₂ (fun before after => Keeps node.counts out.node.counts before.spot after.spot)
        cursors final) ↔
      ∀ cursor ∈ cursors,
        Follows (avgElms saturation node.grandCount node.count) node.counts cursor.spot := by
  obtain ⟨calls, counts, fewer⟩ := rebalanceNode_done ok internal uniform done
  have children : 0 < node.count := by
    cases node with
    | leaf => contradiction
    | internal head links right =>
        exact List.length_pos_iff.mpr (Node.ok_internal_iff.mp ok).nonempty
  have some : 0 < avgElms saturation node.grandCount node.count ∨ node.counts.sum = 0 := by
    refine or_iff_not_imp_right.mpr fun some => ?_
    exact avgElms_pos positive children (Nat.pos_of_ne_zero some)
  rw [track_iff]
  refine forall₂_congr fun cursor member => ?_
  rw [run_keeps_iff, calls, counts]
  exact keeps_iff some fewer (placed cursor member)

end Nodes

theorem rebalance_cursors_iff {node : Node} {lo hi : Rank} {parent : Nat} {saturation : Int}
    {out : Rebalanced} (ok : node.Ok lo hi parent) (internal : node.type = .internal)
    (uniform : node.Uniform) (done : rebalanceNode (clampSaturation saturation) node = .done out)
    {cursors : List Cursor} (placed : ∀ cursor ∈ cursors, Placed node.counts cursor.spot) :
    (∃ fuel final, track fuel out.calls cursors = .done final ∧
      List.Forall₂ (fun before after => Keeps node.counts out.node.counts before.spot after.spot)
        cursors final) ↔
      ∀ cursor ∈ cursors,
        Follows (avgElms (clampSaturation saturation) node.grandCount node.count) node.counts
          cursor.spot :=
  track_keeps_iff ok internal uniform
    (lt_of_lt_of_le (by decide) (clampSaturation_bounds saturation).1) done placed

/-- A cursor with nothing but a place. -/
def sampleCursor (spot : Spot) : Cursor :=
  { node := spot.1, index := spot.2, leaf := none, ateDisk := false, trackedRipout := false,
    iterateCheck := false }

/-- Rebalancing the two leaves of the sample makes a single leaf of them. -/
theorem sampleTree_rebalanced : ∃ out, rebalanceNode (clampSaturation 50) sampleTree = .done out ∧
    out.node.counts = [2] ∧ out.calls = cursorCalls 2 [1, 1] := by
  obtain ⟨out, done, _⟩ := rebalanceNode_rebalances sampleTree_ok sampleTree_mirrored rfl
    ⟨.leaf, by simp [sampleTree, sampleLeaf, Node.links, Node.type]⟩
    (show 0 < clampSaturation 50 by decide) (by decide)
  obtain ⟨calls, counts, _⟩ := rebalanceNode_done sampleTree_ok rfl
    ⟨.leaf, by simp [sampleTree, sampleLeaf, Node.links, Node.type]⟩ done
  refine ⟨out, done, ?_, ?_⟩
  · rw [counts]
    decide
  · rw [calls]
    decide

/-- A cursor at the element of the second leaf goes along with it. -/
theorem rebalance_cursors_iff_sample : ∃ out,
    rebalanceNode (clampSaturation 50) sampleTree = .done out ∧ ∃ fuel final,
      track fuel out.calls [sampleCursor (.child 1, 0)] = .done final ∧
      List.Forall₂ (fun before after =>
        Keeps sampleTree.counts out.node.counts before.spot after.spot)
        [sampleCursor (.child 1, 0)] final := by
  obtain ⟨out, done, _⟩ := sampleTree_rebalanced
  refine ⟨out, done, (rebalance_cursors_iff sampleTree_ok rfl
    ⟨.leaf, by simp [sampleTree, sampleLeaf, Node.links, Node.type]⟩ done ?_).mpr ?_⟩
  · intro cursor member
    rw [List.mem_singleton.mp member]
    exact ⟨1, rfl, by decide⟩
  · intro cursor member
    rw [List.mem_singleton.mp member]
    exact ⟨(by rintro ⟨⟩), fun ahead => absurd ahead.1 (by decide)⟩

/-- The two leaves of the sample become one, but a cursor at the end of the node keeps
its index, which is then beyond the end; and the call for a cursor at the end of the
first leaf does not come back. -/
theorem rebalance_cursors_lost :
    ∃ out, rebalanceNode (clampSaturation 50) sampleTree = .done out ∧
      Placed sampleTree.counts (.root, 2) ∧ Placed sampleTree.counts (.child 0, 1) ∧
      (∃ final, track 2 out.calls [sampleCursor (.root, 2)] = .done [final] ∧
        final.spot = (.root, 2) ∧ ¬ Placed out.node.counts final.spot) ∧
      ∀ fuel final, track fuel out.calls [sampleCursor (.child 0, 1)] ≠ .done final := by
  obtain ⟨out, done, counts, calls⟩ := sampleTree_rebalanced
  refine ⟨out, done, le_rfl, ⟨1, rfl, le_rfl⟩, ?_, ?_⟩
  · rw [calls, counts]
    refine ⟨{ sampleCursor (.root, 2) with trackedRipout := true }, rfl, rfl, ?_⟩
    exact fun le : 2 ≤ 1 => absurd le (by decide)
  · intro fuel final ends
    obtain ⟨result, _, runs, _⟩ := List.forall₂_cons_left_iff.mp (track_done ends)
    have goes := (sampleCursor (.child 0, 1)).run_spot out.calls
    have stuck : relocate (cursorCalls 2 [1, 1]) (.child 0, 1) = none := by decide
    rw [runs, calls] at goes
    exact absurd (goes.trans stuck) (by simp)

end Dragonfly.Hammer.Btree
