import Dragonfly.Hammer.Btree.Node

/-!
# Nodes inside a tree

A node of a tree is found by the indices on the way down from the root.  Putting a
node of the same type, the same offset and the same `mirror_tid` in its place keeps
the invariants of the whole tree, as long as it keeps its own.
-/

namespace Dragonfly.Hammer.Btree

open Dragonfly.Lib

namespace Node

/-- The node at the end of a path. -/
def subtree : List Nat → Node → Option Node
  | [], node => some node
  | _ :: _, leaf .. => none
  | index :: path, internal _ elms _ => elms[index]?.bind fun link => link.2.subtree path

/-- Put a node at the end of a path. -/
def graft (node : Node) : List Nat → Node → Node
  | [], _ => node
  | _ :: _, leaf head elms => leaf head elms
  | index :: path, internal head elms right =>
      internal head (elms.modify index fun link => (link.1, graft node path link.2)) right

/-- A node that may stand in for another without its parent taking notice. -/
structure Alike (node other : Node) : Prop where
  head : other.head = node.head
  type : other.type = node.type

theorem Refers.alike {elm : IntElm} {node other : Node} (refers : Refers elm node)
    (alike : Alike node other) : Refers elm other :=
  ⟨refers.btype.trans alike.type.symm, by rw [refers.offset, alike.head], refers.valid⟩

variable {root node other : Node} {path : List Nat}

theorem subtree_cons_eq_some_iff {head : Head} {elms : List Link} {right : Base} {index : Nat} :
    (internal head elms right).subtree (index :: path) = some node ↔
      ∃ link, elms[index]? = some link ∧ link.2.subtree path = some node := by
  simp only [subtree, Option.bind_eq_some_iff]

theorem graft_alike (found : root.subtree path = some node) (alike : Alike node other) :
    Alike root (graft other path root) := by
  cases path with
  | nil => rwa [Option.some.inj found]
  | cons index path =>
      cases root with
      | leaf head elms => contradiction
      | internal head elms right => exact ⟨rfl, rfl⟩

/-- The tree keeps its invariant when a node that keeps it is put in. -/
theorem Ok.graft {lo hi : Rank} {parent : Nat} (ok : root.Ok lo hi parent)
    (found : root.subtree path = some node) (alike : Alike node other)
    (keeps : ∀ lo hi parent, node.Ok lo hi parent → other.Ok lo hi parent) :
    (graft other path root).Ok lo hi parent := by
  induction path generalizing root lo hi parent with
  | nil =>
      rw [Option.some.inj found] at ok
      exact keeps lo hi parent ok
  | cons index path ih =>
      cases root with
      | leaf head elms => contradiction
      | internal head elms right =>
          obtain ⟨link, at', below⟩ := (subtree_cons_eq_some_iff).mp found
          rw [ok_internal_iff] at ok
          rw [Node.graft, ok_internal_iff]
          refine ⟨ok.parentOk, ?_, ?_, ?_, ok.upper, ?_⟩
          · rw [← List.length_pos_iff, List.length_modify]
            exact List.length_pos_iff.mpr ok.nonempty
          · rw [List.length_modify]
            exact ok.capacity
          · rw [frontKey_modify at' rfl]
            exact ok.lower
          · refine ok.links.modify at' rfl ?_
            rintro lo hi ⟨refers, childOk⟩
            exact ⟨refers.alike (graft_alike below alike), ih childOk below⟩

theorem Mirrored.graft (mirrored : root.Mirrored) (found : root.subtree path = some node)
    (alike : Alike node other) (keeps : node.Mirrored → other.Mirrored) :
    (graft other path root).Mirrored := by
  induction path generalizing root with
  | nil =>
      rw [Option.some.inj found] at mirrored
      exact keeps mirrored
  | cons index path ih =>
      cases root with
      | leaf head elms => contradiction
      | internal head elms right =>
          obtain ⟨link, at', below⟩ := (subtree_cons_eq_some_iff).mp found
          rw [mirrored_internal_iff] at mirrored
          rw [Node.graft, mirrored_internal_iff]
          intro changed member
          rw [List.modify_eq_set_getElem?, at'] at member
          rcases List.mem_or_eq_of_mem_set member with member | rfl
          · exact mirrored changed member
          · obtain ⟨elmBound, headBound, childMirrored⟩ :=
              mirrored link (List.mem_of_getElem? at')
            refine ⟨elmBound, ?_, ih childMirrored below⟩
            rw [(graft_alike below alike).head]
            exact headBound

/-- The invariant holds at every node of the tree. -/
theorem Ok.subtree {lo hi : Rank} {parent : Nat} (ok : root.Ok lo hi parent)
    (found : root.subtree path = some node) : ∃ lo hi parent, node.Ok lo hi parent := by
  induction path generalizing root lo hi parent with
  | nil =>
      rw [Option.some.inj found] at ok
      exact ⟨lo, hi, parent, ok⟩
  | cons index path ih =>
      cases root with
      | leaf head elms => contradiction
      | internal head elms right =>
          obtain ⟨link, at', below⟩ := (subtree_cons_eq_some_iff).mp found
          rw [ok_internal_iff] at ok
          obtain ⟨upper, ⟨_, childOk⟩, _⟩ := ok.links.of_mem (List.mem_of_getElem? at')
          exact ih childOk below

theorem Mirrored.subtree (mirrored : root.Mirrored) (found : root.subtree path = some node) :
    node.Mirrored := by
  induction path generalizing root with
  | nil => rwa [Option.some.inj found] at mirrored
  | cons index path ih =>
      cases root with
      | leaf head elms => contradiction
      | internal head elms right =>
          obtain ⟨link, at', below⟩ := (subtree_cons_eq_some_iff).mp found
          rw [mirrored_internal_iff] at mirrored
          exact ih (mirrored link (List.mem_of_getElem? at')).child below

/-- The records of the tree are the same if those of the node are. -/
theorem records_graft (found : root.subtree path = some node) (same : other.records = node.records) :
    (graft other path root).records = root.records := by
  induction path generalizing root with
  | nil => rwa [Option.some.inj found]
  | cons index path ih =>
      cases root with
      | leaf head elms => contradiction
      | internal head elms right =>
          obtain ⟨link, at', below⟩ := (subtree_cons_eq_some_iff).mp found
          rw [Node.graft, records_internal, records_internal]
          exact flatMap_modify at' (ih below)

end Node

end Dragonfly.Hammer.Btree
