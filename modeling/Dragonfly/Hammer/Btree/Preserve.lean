import Mathlib.Algebra.Order.BigOperators.Group.List
import Mathlib.Algebra.Order.Ring.Nat
import Dragonfly.Hammer.Btree.Repack

/-!
# Rebalancing a node of a tree

The children of a node in a tree that keeps the invariants are a job for the packing
loop, and what the loop makes of them goes back into the tree.
-/

namespace Dragonfly.Hammer.Btree

open Dragonfly.Lib

namespace Node

def links : Node → List Link
  | leaf .. => []
  | internal _ elms _ => elms

/-- `HAMMER_BTREE_LEAF_ELMS` or `HAMMER_BTREE_INT_ELMS` -/
def capacity : Node → Nat
  | leaf .. => leafElms
  | internal .. => intElms

/-- The first separator and the right boundary. -/
def bounds : Node → Option Base × Option Base
  | leaf .. => (none, none)
  | internal _ elms right => (elms.head?.map (·.1.base), some right)

/-- The elements of the children of an internal node, in order. -/
def grandRefs (node : Node) : List IntElm := node.links.flatMap (·.2.refs)

/-- The number of elements in all children together. -/
def grandCount (node : Node) : Nat := (node.links.map (·.2.count)).sum

/-- All children are of one type. -/
def Uniform (node : Node) : Prop :=
  ∃ type, ∀ link ∈ node.links, link.2.type = type

theorem Ok.count_le {node : Node} {lo hi : Rank} {parent : Nat} (ok : node.Ok lo hi parent) :
    node.count ≤ node.capacity := by
  cases node with
  | leaf head elms => exact (ok_leaf_iff.mp ok).capacity
  | internal head elms right => exact (ok_internal_iff.mp ok).capacity

/-- The children of a node name it as their parent. -/
theorem Ok.links_parent {node : Node} {lo hi : Rank} {parent : Nat} (ok : node.Ok lo hi parent) :
    ∀ link ∈ node.links, link.2.head.parent = node.head.offset := by
  intro link member
  cases node with
  | leaf head elms => contradiction
  | internal head elms right =>
      obtain ⟨_, ⟨_, childOk⟩, _⟩ := (ok_internal_iff.mp ok).links.of_mem member
      exact childOk.parent_eq

theorem Ok.link {node : Node} {lo hi : Rank} {parent : Nat} (ok : node.Ok lo hi parent)
    {link : Link} (member : link ∈ node.links) :
    ∃ lo hi, link.2.Ok lo hi node.head.offset := by
  cases node with
  | leaf head elms => contradiction
  | internal head elms right =>
      obtain ⟨hi, ⟨_, childOk⟩, _⟩ := (ok_internal_iff.mp ok).links.of_mem member
      exact ⟨_, hi, childOk⟩

end Node

section Collect

variable {ε ρ : Type} {kind : Kind ε ρ} {lock : Link → Outcome (Child ε ρ)} {links : List Link}

theorem collect_eq (each : ∀ link ∈ links, ∃ item, lock link = .done item ∧ item.link kind = link) :
    ∃ items, collect lock links = .done items ∧ items.map (Child.link kind) = links := by
  induction links with
  | nil => exact ⟨[], rfl, rfl⟩
  | cons link links ih =>
      obtain ⟨item, locked, linkEq⟩ := each link List.mem_cons_self
      obtain ⟨items, collected, linksEq⟩ := ih fun other member =>
        each other (List.mem_cons_of_mem _ member)
      refine ⟨item :: items, ?_, ?_⟩
      · rw [collect, locked, collected]
        rfl
      · rw [List.map_cons, linkEq, linksEq]

theorem Child.ofLeaf_eq {link : Link} (type : link.2.type = .leaf) :
    ∃ item, ofLeaf link = .done item ∧ item.link leafKind = link := by
  obtain ⟨elm, node⟩ := link
  cases node with
  | leaf head elms => exact ⟨_, rfl, rfl⟩
  | internal => contradiction

theorem Child.ofInternal_eq {link : Link} (type : link.2.type = .internal) :
    ∃ item, ofInternal link = .done item ∧ item.link linkKind = link := by
  obtain ⟨elm, node⟩ := link
  cases node with
  | leaf => contradiction
  | internal head elms right => exact ⟨_, rfl, rfl⟩

end Collect

/-! ## The job of a node -/

/-- What rebalancing makes of an internal node with at most `avg` elements to a
child. -/
structure Rebalances (avg : Nat) (node : Node) (out : Rebalanced) : Prop where
  alike : Node.Alike node out.node
  ok : ∀ {lo hi parent}, node.Ok lo hi parent → out.node.Ok lo hi parent
  mirrored : out.node.Mirrored
  records : out.node.records = node.records
  grandRefs : out.node.grandRefs = node.grandRefs
  bounds : out.node.bounds = node.bounds
  counts : ∀ link ∈ out.node.links, link.2.count ≤ avg
  kept : out.node.links.map (·.2.head.offset) =
    (node.links.take out.node.links.length).map (·.2.head.offset)
  deleted : out.deleted = (node.links.drop out.node.links.length).map (·.2.head.offset)

section Links

variable {ε ρ : Type} {kind : Kind ε ρ} {law : Law kind}
variable {head : Head} {items : List (Child ε ρ)} {right : Base} {lo hi : Rank} {parent : Nat}

/-- The children of a node that keeps the invariants, with the number of elements they
are to have. -/
def Job.ofNode (law : Law kind)
    (ok : (Node.internal head (items.map (Child.link kind)) right).Ok lo hi parent)
    (mirrored : (Node.internal head (items.map (Child.link kind)) right).Mirrored)
    {avg : Nat} (capacity : avg ≤ law.capacity)
    (enough : (items.map (·.elms.length)).sum ≤ items.length * avg) : Job law where
  items := items
  avg := avg
  parent := head.offset
  mirrorTid := head.mirrorTid
  last := right.rank
  fenced := ((Fenced.map_iff).mp (Node.ok_internal_iff.mp ok).links).mono fun _ _ _ _ fit => fit.2
  covered := by
    intro item member
    rw [Node.mirrored_internal_iff] at mirrored
    obtain ⟨elm, headBound, child⟩ := mirrored _ (List.mem_map_of_mem member)
    rw [Child.link, law.node_head] at headBound
    exact ⟨elm, headBound, (law.node_mirrored _ _ _).mp child⟩
  capacity := capacity
  enough := enough

theorem Child.refers_iff (law : Law kind) (child : Child ε ρ) :
    Node.Refers child.elm (child.link kind).2 ↔ child.elm.base.btype = law.type ∧
      child.elm.subtreeOffset = child.head.offset ∧ child.elm.subtreeOffset ≠ 0 := by
  have typeEq : (child.link kind).2.type = law.type := law.node_type _ _ _
  have headEq : (child.link kind).2.head = child.head := law.node_head _ _ _
  constructor
  · rintro ⟨btype, offset, valid⟩
    exact ⟨btype.trans typeEq, by rwa [headEq] at offset, valid⟩
  · rintro ⟨btype, offset, valid⟩
    exact ⟨btype.trans typeEq.symm, by rwa [headEq], valid⟩

variable {ok : (Node.internal head (items.map (Child.link kind)) right).Ok lo hi parent}
variable {mirrored : (Node.internal head (items.map (Child.link kind)) right).Mirrored}
variable {avg : Nat} {capacity : avg ≤ law.capacity}
variable {enough : (items.map (·.elms.length)).sum ≤ items.length * avg}
variable {repacked : Repacked ε ρ}

/-- An element that is still there refers to the same child as before. -/
theorem Kept.refers (kept : Kept (Job.ofNode law ok mirrored capacity enough) repacked) :
    ∀ child ∈ repacked.children, Node.Refers child.elm (child.link kind).2 := by
  intro child member
  obtain ⟨index, bound, rfl⟩ := List.getElem_of_mem member
  have stems := kept.stems.get (by rw [kept.stems.length_eq]; exact bound) bound
  simp only [List.get_eq_getElem, List.getElem_take] at stems
  have original := List.getElem_mem (l := items) (n := index) (by
    have := kept.stems.length_eq
    rw [List.length_take] at this
    have shown : (Job.ofNode law ok mirrored capacity enough).items = items := rfl
    rw [shown] at this
    omega)
  obtain ⟨_, ⟨refers, _⟩, _⟩ :=
    (Node.ok_internal_iff.mp ok).links.of_mem (List.mem_map_of_mem original)
  obtain ⟨btype, offset, valid⟩ := (Child.refers_iff law _).mp refers
  refine (Child.refers_iff law _).mpr ⟨stems.btype.trans btype, ?_, ?_⟩
  · rw [stems.subtree, stems.offset]
    exact offset
  · rw [stems.subtree]
    exact valid

/-- A view of the elements that does not depend on the node they are in sees the same
elements as before. -/
theorem Kept.flatMap_eq {job : Job law} {α : Type} {view : ε → List α} (kept : Kept job repacked)
    (same : ∀ offset elm, view (law.moveTo offset elm) = view elm) :
    repacked.children.flatMap (fun child => child.elms.flatMap view) =
      job.items.flatMap fun child => child.elms.flatMap view := by
  have contents := congrArg (·.flatMap view) kept.contents
  simpa only [List.flatMap_map, same, List.flatMap_assoc] using contents

theorem Kept.rebalances (kept : Kept (Job.ofNode law ok mirrored capacity enough) repacked) :
    Rebalances avg (.internal head (items.map (Child.link kind)) right)
      (repacked.finish kind head right) := by
  have headEq : { head with mirrorTid := repacked.mirrorTid } = head := by
    rw [kept.mirrorTid]
    rfl
  have nodeEq : (repacked.finish kind head right).node =
      .internal head (repacked.children.map (Child.link kind)) right := by
    rw [Repacked.finish, headEq]
  have fewer : repacked.children.length ≤ items.length := by
    have lengths := kept.stems.length_eq
    rw [List.length_take] at lengths
    exact (lengths.symm.trans_le (Nat.min_le_right _ _))
  have offsetEq : ∀ child : Child ε ρ, (child.link kind).2.head.offset = child.head.offset :=
    fun child => congrArg Head.offset (law.node_head _ _ _)
  exact {
    alike := by
      rw [nodeEq]
      exact ⟨rfl, rfl⟩
    ok := by
      intro lo hi parent ok
      obtain ⟨parentOk, _, capacity, lower, upper, _⟩ := Node.ok_internal_iff.mp ok
      rw [nodeEq, Node.ok_internal_iff]
      refine ⟨parentOk, ?_, ?_, ?_, upper, ?_⟩
      · rw [ne_eq, List.map_eq_nil_iff]
        exact kept.nonempty
      · rw [List.length_map] at capacity ⊢
        exact fewer.trans capacity
      · rw [frontKey_map] at lower ⊢
        exact lower.trans_eq (((Child.frontKey_eq _ _).trans (by rw [kept.first]; rfl)).trans
          (Child.frontKey_eq _ _).symm).symm
      · exact (Fenced.map_iff).mpr (kept.fenced.mono fun lo hi child member childOk =>
          ⟨kept.refers child member, childOk⟩)
    mirrored := by
      rw [nodeEq, Node.mirrored_internal_iff]
      intro link member
      obtain ⟨child, childMember, rfl⟩ := List.mem_map.mp member
      obtain ⟨elm, headBound, elms⟩ := kept.covered child childMember
      refine ⟨elm, ?_, (law.node_mirrored _ _ _).mpr elms⟩
      rw [Child.link, law.node_head]
      exact headBound
    records := by
      rw [nodeEq, Node.records_internal, Node.records_internal]
      simp only [List.flatMap_map, Child.link, law.node_records]
      exact kept.flatMap_eq law.records_moveTo
    grandRefs := by
      rw [nodeEq]
      simp only [Node.grandRefs, Node.links, List.flatMap_map, Child.link, law.node_refs]
      exact kept.flatMap_eq law.refs_moveTo
    bounds := by
      rw [nodeEq]
      simp only [Node.bounds, List.head?_map, Option.map_map]
      exact congrArg (·, some right) kept.first
    counts := by
      rw [nodeEq]
      intro link member
      obtain ⟨child, childMember, rfl⟩ := List.mem_map.mp member
      rw [Child.link, law.node_count]
      exact kept.counts child childMember
    kept := by
      rw [nodeEq]
      simp only [Node.links, List.map_map, List.length_map, ← List.map_take]
      rw [← List.forall₂_eq_eq_eq, List.forall₂_map_left_iff, List.forall₂_map_right_iff]
      refine List.Forall₂.flip (kept.stems.imp fun original child stems => ?_)
      simp only [Function.comp_apply, offsetEq]
      exact stems.offset
    deleted := by
      rw [nodeEq]
      simp only [Repacked.finish, Node.links, List.length_map, ← List.map_drop, List.map_map,
        kept.deleted]
      exact List.map_congr_left fun child _ => (offsetEq child).symm }

/-- Rebalancing the children of one kind. -/
theorem rebalanceKind_rebalances (law : Law kind) {lock : Link → Outcome (Child ε ρ)}
    {links : List Link} {saturation : Nat}
    (ok : (Node.internal head links right).Ok lo hi parent)
    (mirrored : (Node.internal head links right).Mirrored)
    (each : ∀ link ∈ links, ∃ item, lock link = .done item ∧ item.link kind = link)
    (positive : 0 < saturation) (within : saturation ≤ law.capacity) :
    ∃ out, rebalanceKind kind lock saturation head links right = .done out ∧
      Rebalances (avgElms saturation (Node.internal head links right).grandCount links.length)
        (.internal head links right) out := by
  obtain ⟨items, collected, rfl⟩ := collect_eq each
  have some : items ≠ [] := by
    have nonempty := (Node.ok_internal_iff.mp ok).nonempty
    rwa [ne_eq, List.map_eq_nil_iff] at nonempty
  obtain ⟨first, rest, rfl⟩ := List.exists_cons_of_ne_nil some
  have countEq : (Node.internal head ((first :: rest).map (Child.link kind)) right).grandCount =
      ((first :: rest).map (·.elms.length)).sum := by
    simp only [Node.grandCount, Node.links, List.map_map]
    congr 2
    funext child
    exact law.node_count _ _ _
  have each : ((first :: rest).map (·.elms.length)).sum ≤ (first :: rest).length * law.capacity := by
    refine (List.sum_le_card_nsmul _ law.capacity ?_).trans (by simp)
    intro length member
    obtain ⟨child, childMember, rfl⟩ := List.mem_map.mp member
    obtain ⟨hi, ⟨_, childOk⟩, _, below, _⟩ :=
      (Node.ok_internal_iff.mp ok).links.of_mem (List.mem_map_of_mem childMember)
    exact (law.of_ok childOk below).2.1
  have capacity := avgElms_le positive (Nat.succ_pos rest.length) within each
  have enough := @le_mul_avgElms _ ((first :: rest).map (·.elms.length)).sum _ positive
    (Nat.succ_pos rest.length)
  obtain ⟨repacked, packed, kept⟩ := 
    (Job.ofNode law ok mirrored capacity enough).repack rfl saturation rfl right rfl
  refine ⟨repacked.finish kind head right, ?_, ?_⟩
  · have packed : repack kind saturation head.mirrorTid right first rest = .done repacked := packed
    simp only [rebalanceKind, collected, Outcome.bind, packed]
  · rw [countEq, List.length_map]
    exact kept.rebalances

end Links

/-- Rebalancing an internal node whose children are of one type. -/
theorem rebalanceNode_rebalances {node : Node} {lo hi : Rank} {parent saturation : Nat}
    (ok : node.Ok lo hi parent) (mirrored : node.Mirrored) (internal : node.type = .internal)
    (uniform : node.Uniform) (positive : 0 < saturation) (within : saturation ≤ intElms) :
    ∃ out, rebalanceNode saturation node = .done out ∧
      Rebalances (avgElms saturation node.grandCount node.count) node out := by
  cases node with
  | leaf => contradiction
  | internal head links right =>
      obtain ⟨type, same⟩ := uniform
      obtain ⟨first, rest, rfl⟩ := List.exists_cons_of_ne_nil (Node.ok_internal_iff.mp ok).nonempty
      have typeEq := same first List.mem_cons_self
      by_cases leaf : first.2.type = .leaf
      · rw [rebalanceNode, if_pos leaf]
        refine rebalanceKind_rebalances leafLaw ok mirrored ?_ positive
          (within.trans (Nat.sub_le leafElms 1))
        exact fun link member =>
          Child.ofLeaf_eq (((same link member).trans typeEq.symm).trans leaf)
      · rw [rebalanceNode, if_neg leaf]
        refine rebalanceKind_rebalances linkLaw ok mirrored ?_ positive within
        have other : first.2.type = .internal := by
          cases firstEq : first.2 with
          | leaf => rw [firstEq] at leaf; exact absurd rfl leaf
          | internal => rfl
        exact fun link member =>
          Child.ofInternal_eq (((same link member).trans typeEq.symm).trans other)

/-- Rebalancing an internal node anywhere in a tree keeps the tree: its invariants, its
records, the outer bounds of the node and the order of what is below its children.  The
children are filled up to the average, and those left over are deleted. -/
theorem rebalance_preserves {root node : Node} {path : List Nat} {lo hi : Rank} {parent : Nat}
    (ok : root.Ok lo hi parent) (mirrored : root.Mirrored)
    (found : root.subtree path = some node) (internal : node.type = .internal)
    (uniform : node.Uniform) (saturation : Int) :
    ∃ out, rebalanceNode (clampSaturation saturation) node = .done out ∧
      (Node.graft out.node path root).Ok lo hi parent ∧
      (Node.graft out.node path root).Mirrored ∧
      (Node.graft out.node path root).records = root.records ∧
      out.node.grandRefs = node.grandRefs ∧ out.node.bounds = node.bounds ∧
      (∀ link ∈ out.node.links,
        (∀ below ∈ link.2.links, below.2.head.parent = link.2.head.offset) ∧
        link.2.count ≤ avgElms (clampSaturation saturation) node.grandCount node.count ∧
        link.2.count ≤ link.2.capacity) ∧
      out.node.links.map (·.2.head.offset) =
        (node.links.take out.node.links.length).map (·.2.head.offset) ∧
      out.deleted = (node.links.drop out.node.links.length).map (·.2.head.offset) := by
  obtain ⟨nodeLo, nodeHi, nodeParent, nodeOk⟩ := ok.subtree found
  obtain ⟨low, high⟩ := clampSaturation_bounds saturation
  have positive : 0 < clampSaturation saturation := lt_of_lt_of_le (by decide) low
  obtain ⟨out, done, rebalances⟩ := rebalanceNode_rebalances nodeOk (mirrored.subtree found)
    internal uniform positive high
  refine ⟨out, done, ?_, ?_, ?_, rebalances.grandRefs, rebalances.bounds, ?_, rebalances.kept,
    rebalances.deleted⟩
  · exact ok.graft found rebalances.alike fun _ _ _ => rebalances.ok
  · exact mirrored.graft found rebalances.alike fun _ => rebalances.mirrored
  · exact Node.records_graft found rebalances.records
  · intro link member
    obtain ⟨childLo, childHi, childOk⟩ := (rebalances.ok nodeOk).link member
    exact ⟨childOk.links_parent, rebalances.counts link member, childOk.count_le⟩

/-! ### A tree of two leaves -/

def sampleBase (key : Int) (btype : Btype) : Base :=
  { objId := 1, key, createTid := 1, deleteTid := 0, recType := 1, objType := 0, btype,
    localization := 1 }

def sampleElm (key : Int) : LeafElm :=
  { base := sampleBase key .record, createTs := 0, deleteTs := 0, dataOffset := 0, dataLen := 0,
    dataCrc := 0 }

def sampleLeaf (offset : Nat) (key : Int) : Link :=
  (⟨sampleBase key .leaf, 1, offset⟩, .leaf ⟨offset, 8, 1⟩ [sampleElm key])

def sampleTree : Node :=
  .internal ⟨8, 0, 1⟩ [sampleLeaf 16 1, sampleLeaf 24 2] (sampleBase 9 .boundary)

theorem sampleTree_ok :
    sampleTree.Ok (sampleBase 0 .boundary).rank (sampleBase 9 .boundary).rank 0 := by
  have below : ∀ {first second : Base}, cmp first second < 0 → first.rank < second.rank :=
    cmp_lt_zero_iff.mp
  have leafOk : ∀ (offset : Nat) (key : Int) (next : Base),
      cmp (sampleBase key .leaf) next < 0 →
      (sampleLeaf offset key).2.Ok (sampleBase key .leaf).rank next.rank 8 := by
    intro offset key next before
    refine Node.ok_leaf_iff.mpr ⟨rfl, by simp [leafElms], List.pairwise_singleton _ _, ?_, ?_⟩
    · intro elm member
      rw [List.mem_singleton.mp member]
      exact ⟨le_rfl, below before⟩
    · intro elm member
      rw [List.mem_singleton.mp member]
      rfl
  refine Node.ok_internal_iff.mpr ⟨rfl, List.cons_ne_nil _ _, by decide, ?_, le_rfl, ?_⟩
  · exact (below (by decide) : (sampleBase 0 .boundary).rank < (sampleBase 1 .leaf).rank).le
  · exact ⟨below (by decide), ⟨⟨rfl, rfl, by decide⟩, leafOk 16 1 _ (by decide)⟩,
      below (by decide), ⟨⟨rfl, rfl, by decide⟩, leafOk 24 2 _ (by decide)⟩, trivial⟩

theorem sampleTree_mirrored : sampleTree.Mirrored := by
  simp [sampleTree, sampleLeaf, sampleElm, sampleBase, Node.Mirrored, Node.LinksMirrored,
    Node.head]

/-- The two leaves become one. -/
theorem rebalance_preserves_sample :
    ∃ out, rebalanceNode (clampSaturation 50) sampleTree = .done out ∧
      (Node.graft out.node [] sampleTree).records = sampleTree.records ∧
      out.deleted = (sampleTree.links.drop out.node.links.length).map (·.2.head.offset) := by
  obtain ⟨out, done, _, _, records, _, _, _, _, deleted⟩ :=
    @rebalance_preserves _ _ [] _ _ _ sampleTree_ok sampleTree_mirrored rfl rfl
      ⟨.leaf, by simp [sampleTree, sampleLeaf, Node.links, Node.type]⟩ 50
  exact ⟨out, done, records, deleted⟩

end Dragonfly.Hammer.Btree
