import Mathlib
import Dragonfly.Hammer.Btree.Rebalance
import Dragonfly.Hammer.Btree.Path

/-!
# What rebalancing keeps

The elements of all children form one stream, each behind the separator a cut in
front of it would use.  `Packing` is the invariant of the packing loop: what is in
the closed children, in `base_item` and in the stream is fenced by separators that
increase.
-/

namespace Dragonfly.Hammer.Btree

open Dragonfly.Lib

/-! ## The number of elements per child -/

section Average

theorem le_mul_ceil {count children : Nat} (positive : 0 < children) :
    count ≤ children * ((count + (children - 1)) / children) := by
  have := Nat.div_add_mod (count + (children - 1)) children
  have := Nat.mod_lt (count + (children - 1)) positive
  omega

theorem ceil_le {count children bound : Nat} (positive : 0 < children)
    (le : count ≤ children * bound) : (count + (children - 1)) / children ≤ bound := by
  rw [Nat.div_le_iff_le_mul_add_pred positive]
  omega

theorem ceil_pos {count children : Nat} (positive : 0 < children) (some : 0 < count) :
    0 < (count + (children - 1)) / children :=
  Nat.div_pos (by omega) positive

variable {saturation count children : Nat}

/-- All elements fit in the children there are. -/
theorem le_mul_avgElms (positive : 0 < saturation) (positive' : 0 < children) :
    count ≤ children * avgElms saturation count children := by
  have average := @le_mul_ceil count _ positive'
  unfold avgElms
  simp only
  split_ifs with low
  · have fewer : (count + (saturation - 1)) / saturation ≤ children := by
      refine ceil_le positive (average.trans ?_)
      rw [Nat.mul_comm saturation]
      exact Nat.mul_le_mul_left children low.2.le
    exact (le_mul_ceil (ceil_pos positive (Nat.pos_of_ne_zero low.1))).trans
      (Nat.mul_le_mul_right _ fewer)
  · exact average

theorem avgElms_pos (positive : 0 < saturation) (positive' : 0 < children) (some : 0 < count) :
    0 < avgElms saturation count children := by
  have total := @le_mul_avgElms _ count _ positive positive'
  exact Nat.pos_of_mul_pos_left (some.trans_le total)

/-- The average is not above a capacity that the children and the saturation keep
to. -/
theorem avgElms_le {capacity : Nat} (positive : 0 < saturation) (positive' : 0 < children)
    (within : saturation ≤ capacity) (each : count ≤ children * capacity) :
    avgElms saturation count children ≤ capacity := by
  unfold avgElms
  simp only
  split_ifs with low
  · refine (ceil_le (ceil_pos positive (Nat.pos_of_ne_zero low.1)) ?_).trans within
    rw [Nat.mul_comm]
    exact le_mul_ceil positive
  · exact ceil_le positive' each

theorem clampSaturation_bounds (saturation : Int) :
    intElms / 2 ≤ clampSaturation saturation ∧ clampSaturation saturation ≤ intElms := by
  unfold clampSaturation
  split_ifs with low high
  · exact ⟨le_rfl, Nat.div_le_self _ _⟩
  · exact ⟨Nat.div_le_self _ _, le_rfl⟩
  · omega

end Average

/-! ## Children of one kind -/

/-- What the nodes of one kind are, in terms of their elements: an element fits into
the node at an offset, behind its own key and in front of the next, and the
`mirror_tid` of a node covers it. -/
structure Law {ε ρ : Type} (kind : Kind ε ρ) where
  capacity : Nat
  emptiable : Prop
  type : Btype
  fits (offset : Nat) (lo hi : Rank) (elm : ε) : Prop
  covers (mirrorTid : Nat) (elm : ε) : Prop
  /-- the element in the node at another offset -/
  moveTo (offset : Nat) (elm : ε) : ε
  records (elm : ε) : List LeafElm
  refs (elm : ε) : List IntElm
  node_head : ∀ head elms right, (kind.node head elms right).head = head
  node_type : ∀ head elms right, (kind.node head elms right).type = type
  node_count : ∀ head elms right, (kind.node head elms right).count = elms.length
  node_records : ∀ head elms right, (kind.node head elms right).records = elms.flatMap records
  node_refs : ∀ head elms right, (kind.node head elms right).refs = elms.flatMap refs
  node_mirrored : ∀ head elms right,
    (kind.node head elms right).Mirrored ↔ ∀ elm ∈ elms, covers head.mirrorTid elm
  fits_mono : ∀ offset lo hi hi' elm, hi ≤ hi' → fits offset lo hi elm → fits offset lo hi' elm
  covers_mono : ∀ {tid tid' elm}, tid ≤ tid' → covers tid elm → covers tid' elm
  base_moveTo : ∀ offset elm, kind.base (moveTo offset elm) = kind.base elm
  moveTo_moveTo : ∀ offset offset' elm, moveTo offset (moveTo offset' elm) = moveTo offset elm
  records_moveTo : ∀ offset elm, records (moveTo offset elm) = records elm
  refs_moveTo : ∀ offset elm, refs (moveTo offset elm) = refs elm
  covers_moveTo : ∀ {tid offset elm}, covers tid elm → covers tid (moveTo offset elm)
  fits_moveTo : ∀ {offset lo hi elm} offset', fits offset lo hi elm →
    fits offset' lo hi (moveTo offset' elm)
  moveTo_self : ∀ {offset lo hi elm}, fits offset lo hi elm → moveTo offset elm = elm
  parentPtrs : ∀ {offset lo hi elm} offset', fits offset lo hi elm →
    kind.parentPtrs offset offset' elm = .done (moveTo offset' elm)
  of_ok : ∀ {lo hi parent head elms right}, (kind.node head elms right).Ok lo hi parent → lo < hi →
    head.parent = parent ∧ elms.length ≤ capacity ∧ (emptiable ∨ elms ≠ []) ∧
      Fenced (fun elm => (kind.base elm).rank) (fits head.offset) elms hi ∧
      lo ≤ frontKey (fun elm => (kind.base elm).rank) elms hi
  close_ok : ∀ {lo parent head elms} {bound : Base} (right), head.parent = parent →
    elms.length ≤ capacity → (emptiable ∨ elms ≠ []) →
      Fenced (fun elm => (kind.base elm).rank) (fits head.offset) elms bound.rank →
      lo ≤ frontKey (fun elm => (kind.base elm).rank) elms bound.rank →
      ∃ right', kind.close elms.length bound right = .done right' ∧
        (kind.node head elms right').Ok lo bound.rank parent

/-- Leaves may be empty, and their elements refer to nothing. -/
def leafLaw : Law leafKind where
  capacity := leafElms
  emptiable := True
  type := .leaf
  fits _ _ _ elm := elm.base.btype = .record
  covers tid elm := elm.base.createTid ≤ tid ∧ elm.base.deleteTid ≤ tid
  moveTo _ elm := elm
  records elm := [elm]
  refs _ := []
  node_head _ _ _ := rfl
  node_type _ _ _ := rfl
  node_count _ _ _ := rfl
  node_records _ elms _ := by simp [leafKind]
  node_refs _ elms _ := by simp [leafKind, Node.refs]
  node_mirrored _ _ _ := by simp only [leafKind, Node.Mirrored]
  fits_mono _ _ _ _ _ _ fit := fit
  covers_mono le bound := ⟨bound.1.trans le, bound.2.trans le⟩
  base_moveTo _ _ := rfl
  moveTo_moveTo _ _ _ := rfl
  records_moveTo _ _ := rfl
  refs_moveTo _ _ := rfl
  covers_moveTo bound := bound
  fits_moveTo _ fit := fit
  moveTo_self _ := rfl
  parentPtrs _ _ := rfl
  of_ok := by
    intro lo hi parent head elms right ok below
    obtain ⟨parentOk, capacity, sorted, within, btype⟩ := Node.ok_leaf_iff.mp ok
    obtain ⟨fenced, lower⟩ := Fenced.of_sorted (fun elm : LeafElm => elm.base.rank)
      (fun _ _ elm => elm.base.btype = .record) below.le sorted within
      (fun _ _ elm member => btype elm member)
    exact ⟨parentOk, capacity, .inl trivial, fenced, lower⟩
  close_ok := by
    intro lo parent head elms bound right parentOk capacity _ fenced lower
    obtain ⟨sorted, within⟩ := fenced.sorted
    refine ⟨right, rfl, Node.ok_leaf_iff.mpr ⟨parentOk, capacity, sorted, ?_, ?_⟩⟩
    · intro elm member
      obtain ⟨above, below⟩ := within elm member
      exact ⟨lower.trans above, below⟩
    · intro elm member
      obtain ⟨_, btype, _⟩ := fenced.of_mem member
      exact btype

theorem Node.setParent_head (offset : Nat) (node : Node) :
    (node.setParent offset).head = { node.head with parent := offset } := by
  cases node <;> rfl

theorem Node.setParent_type (offset : Nat) (node : Node) :
    (node.setParent offset).type = node.type := by
  cases node <;> rfl

theorem Node.records_setParent (offset : Nat) (node : Node) :
    (node.setParent offset).records = node.records := by
  cases node <;> simp only [setParent, records]

theorem Node.setParent_setParent (offset offset' : Nat) (node : Node) :
    (node.setParent offset').setParent offset = node.setParent offset := by
  cases node <;> rfl

theorem Node.Ok.setParent {node : Node} {lo hi : Rank} {parent : Nat} (ok : node.Ok lo hi parent)
    (offset : Nat) : (node.setParent offset).Ok lo hi offset := by
  cases node with
  | leaf head elms =>
      obtain ⟨_, capacity, sorted, within, btype⟩ := ok_leaf_iff.mp ok
      exact ok_leaf_iff.mpr ⟨rfl, capacity, sorted, within, btype⟩
  | internal head elms right =>
      obtain ⟨_, nonempty, capacity, lower, upper, links⟩ := ok_internal_iff.mp ok
      exact ok_internal_iff.mpr ⟨rfl, nonempty, capacity, lower, upper, links⟩

theorem Node.Ok.parent_eq {node : Node} {lo hi : Rank} {parent : Nat} (ok : node.Ok lo hi parent) :
    node.head.parent = parent := by
  cases node with
  | leaf head elms => exact (ok_leaf_iff.mp ok).parentOk
  | internal head elms right => exact (ok_internal_iff.mp ok).parentOk

theorem Node.setParent_self (node : Node) : node.setParent node.head.parent = node := by
  cases node <;> rfl

theorem Node.mirrored_setParent {offset : Nat} {node : Node} :
    (node.setParent offset).Mirrored ↔ node.Mirrored := by
  cases node <;> simp only [setParent, Mirrored]

/-- Internal nodes have at least one element, and a right boundary. -/
def linkLaw : Law linkKind where
  capacity := intElms
  emptiable := False
  type := .internal
  fits offset lo hi link := Node.Refers link.1 link.2 ∧ link.2.Ok lo hi offset
  covers := Node.LinkMirrored
  moveTo offset link := (link.1, link.2.setParent offset)
  records link := link.2.records
  refs link := [link.1]
  node_head _ _ _ := rfl
  node_type _ _ _ := rfl
  node_count _ _ _ := rfl
  node_records head elms right := Node.records_internal head elms right
  node_refs _ elms _ := by simp [linkKind, Node.refs, List.map_eq_flatMap]
  node_mirrored _ _ _ := Node.mirrored_internal_iff
  fits_mono _ _ _ _ _ le fit := ⟨fit.1, fit.2.mono le_rfl le⟩
  covers_mono le bound := ⟨bound.elm.trans le, bound.head, bound.child⟩
  base_moveTo _ _ := rfl
  moveTo_moveTo offset offset' link := by simp only [Node.setParent_setParent]
  records_moveTo offset link := Node.records_setParent offset link.2
  refs_moveTo _ _ := rfl
  covers_moveTo bound := by
    refine ⟨bound.elm, ?_, (Node.mirrored_setParent).mpr bound.child⟩
    rw [Node.setParent_head]
    exact bound.head
  fits_moveTo offset' fit := by
    refine ⟨⟨?_, ?_, fit.1.valid⟩, fit.2.setParent offset'⟩
    · rw [Node.setParent_type]
      exact fit.1.btype
    · rw [Node.setParent_head]
      exact fit.1.offset
  moveTo_self fit := by
    obtain ⟨_, ok⟩ := fit
    rw [← ok.parent_eq, Node.setParent_self]
  parentPtrs offset' fit := by
    have named := fit.2.parent_eq
    simp only [linkKind, named, Outcome.kkassert_of]
  of_ok := by
    intro lo hi parent head elms right ok _
    obtain ⟨parentOk, nonempty, capacity, lower, upper, links⟩ := Node.ok_internal_iff.mp ok
    refine ⟨parentOk, capacity, .inr nonempty, ?_, ?_⟩
    · exact links.raise_last upper fun _ _ _ _ le fit => ⟨fit.1, fit.2.mono le_rfl le⟩
    · exact lower.trans (frontKey_mono _ _ upper)
  close_ok := by
    intro lo parent head elms bound right parentOk capacity emptiable fenced lower
    have nonempty : elms ≠ [] := emptiable.resolve_left id
    have positive : elms.length ≠ 0 := by
      rwa [ne_eq, List.length_eq_zero_iff]
    refine ⟨{ bound with btype := .boundary }, ?_, ?_⟩
    · simp only [linkKind, Outcome.kkassert_of positive]
    · exact Node.ok_internal_iff.mpr ⟨parentOk, nonempty, capacity, lower, le_rfl, fenced⟩

/-! ## The stream of elements -/

variable {ε ρ : Type} {kind : Kind ε ρ} {law : Law kind}

/-- The separator a cut in front of the element uses, and the element. -/
abbrev Cut (ε : Type) : Type := Base × ε

def Cut.rank (cut : Cut ε) : Rank := cut.1.rank

/-- The element lies between its cut and the next, and fits into some node there. -/
structure Cut.Fits (law : Law kind) (lo hi : Rank) (cut : Cut ε) : Prop where
  above : lo ≤ (kind.base cut.2).rank
  below : (kind.base cut.2).rank < hi
  fits : ∃ offset, law.fits offset (kind.base cut.2).rank hi cut.2

namespace Child

def rank (child : Child ε ρ) : Rank := child.elm.base.rank

/-- The elements from index `i` on, behind their cuts. -/
def cuts (kind : Kind ε ρ) (child : Child ε ρ) : Nat → List ε → List (Cut ε)
  | _, [] => []
  | i, elm :: elms => (if i = 0 then child.elm.base else kind.base elm, elm) :: cuts kind child (i + 1) elms

/-- The node of the child keeps to the invariant. -/
def Ok (kind : Kind ε ρ) (parent : Nat) (lo hi : Rank) (child : Child ε ρ) : Prop :=
  (kind.node child.head child.elms child.right).Ok lo hi parent

/-- Every `mirror_tid` covers what is below it. -/
structure Covered (law : Law kind) (bound : Nat) (child : Child ε ρ) : Prop where
  elm : child.elm.mirrorTid ≤ bound
  head : child.head.mirrorTid ≤ child.elm.mirrorTid
  elms : ∀ elm ∈ child.elms, law.covers child.head.mirrorTid elm

/-- What a child keeps while its elements change. -/
structure Stems (original child : Child ε ρ) : Prop where
  offset : child.head.offset = original.head.offset
  parent : child.head.parent = original.head.parent
  mirrorTid : original.head.mirrorTid ≤ child.head.mirrorTid
  subtree : child.elm.subtreeOffset = original.elm.subtreeOffset
  btype : child.elm.base.btype = original.elm.base.btype

theorem Stems.refl (child : Child ε ρ) : Stems child child := ⟨rfl, rfl, le_rfl, rfl, rfl⟩

theorem Stems.trans {first second third : Child ε ρ} (one : Stems first second)
    (two : Stems second third) : Stems first third where
  offset := two.offset.trans one.offset
  parent := two.parent.trans one.parent
  mirrorTid := one.mirrorTid.trans two.mirrorTid
  subtree := two.subtree.trans one.subtree
  btype := two.btype.trans one.btype

theorem Stems.append {originals front back : List (Child ε ρ)} {child : Child ε ρ}
    (stems : List.Forall₂ Stems originals (front ++ child :: back)) (changed : Child ε ρ) (change : Stems child changed) :
    List.Forall₂ Stems originals (front ++ changed :: back) := by
  induction front generalizing originals with
  | nil =>
      obtain ⟨original, rest, first, others, rfl⟩ := List.forall₂_cons_right_iff.mp stems
      exact .cons (first.trans change) others
  | cons head front ih =>
      obtain ⟨original, rest, first, others, rfl⟩ := List.forall₂_cons_right_iff.mp stems
      exact .cons first (ih others)

variable {child : Child ε ρ}

/-- The first separator stays if the first child keeps its own. -/
theorem head?_append {front back back' : List (Child ε ρ)} {child changed : Child ε ρ}
    (same : changed.elm.base = child.elm.base) :
    (front ++ changed :: back).head?.map (·.elm.base) =
      (front ++ child :: back').head?.map (·.elm.base) := by
  cases front with
  | nil => exact congrArg Option.some same
  | cons => rfl

/-- The first separator of a list of children. -/
theorem frontKey_eq (children : List (Child ε ρ)) (last : Rank) :
    frontKey rank children last = ((children.head?.map (·.elm.base)).map Base.rank).getD last := by
  cases children <;> rfl

theorem cuts_snd (i : Nat) (elms : List ε) : (child.cuts kind i elms).map Prod.snd = elms := by
  induction elms generalizing i with
  | nil => rfl
  | cons elm elms ih => rw [cuts, List.map_cons, ih]

theorem frontKey_cuts_succ (i : Nat) (elms : List ε) (last : Rank) :
    frontKey Cut.rank (child.cuts kind (i + 1) elms) last =
      frontKey (fun elm => (kind.base elm).rank) elms last := by
  cases elms with
  | nil => rfl
  | cons elm elms => rw [cuts, if_neg (Nat.succ_ne_zero i)]; rfl

/-- Elements that use their own keys as cuts are as well fenced as the cuts. -/
theorem fenced_cuts_succ {offset : Nat} {elms : List ε} {last : Rank}
    (fenced : Fenced (fun elm => (kind.base elm).rank) (law.fits offset) elms last) (i : Nat) :
    Fenced Cut.rank (Cut.Fits law) (child.cuts kind (i + 1) elms) last := by
  induction elms generalizing i with
  | nil => trivial
  | cons elm elms ih =>
      obtain ⟨below, fit, rest⟩ := fenced
      rw [cuts, if_neg (Nat.succ_ne_zero i), Fenced, frontKey_cuts_succ]
      exact ⟨below, ⟨le_rfl, below, offset, fit⟩, ih rest (i + 1)⟩

/-- In the stream, the separator of the child is the first of its cuts. -/
theorem fenced_cuts {parent : Nat} {hi : Rank} (ok : child.Ok kind parent child.rank hi)
    (law : Law kind) (below : child.rank < hi) :
    Fenced Cut.rank (Cut.Fits law) (child.cuts kind 0 child.elms) hi ∧
      child.rank ≤ frontKey Cut.rank (child.cuts kind 0 child.elms) hi := by
  obtain ⟨_, _, _, fenced, lower⟩ := law.of_ok ok below
  cases elmsEq : child.elms with
  | nil => exact ⟨trivial, below.le⟩
  | cons elm elms =>
      rw [elmsEq] at fenced lower
      obtain ⟨next, fit, rest⟩ := fenced
      rw [cuts, if_pos rfl, Fenced, frontKey_cuts_succ]
      exact ⟨⟨lower.trans_lt next, ⟨lower, next, _, fit⟩, fenced_cuts_succ rest 0⟩, le_rfl⟩

end Child

/-! ## The invariant of the packing loop -/

/-- A node to be rebalanced: its children, and the number of elements that go into
each of them. -/
structure Job (law : Law kind) where
  items : List (Child ε ρ)
  avg : Nat
  parent : Nat
  mirrorTid : Nat
  last : Rank
  fenced : Fenced Child.rank (Child.Ok kind parent) items last
  covered : ∀ item ∈ items, item.Covered law mirrorTid
  capacity : avg ≤ law.capacity
  enough : (items.map (·.elms.length)).sum ≤ items.length * avg

namespace Job

variable (job : Job law)

/-- Everything that is to be packed. -/
def stream : List (Cut ε) := job.items.flatMap fun item => item.cuts kind 0 item.elms

theorem fenced_stream : Fenced Cut.rank (Cut.Fits law) job.stream job.last ∧
    frontKey Child.rank job.items job.last ≤ frontKey Cut.rank job.stream job.last :=
  job.fenced.flatMap
    (fun _ _ _ _ le fit => ⟨fit.above, fit.below.trans_le le, fit.fits.imp fun offset fits =>
      law.fits_mono offset _ _ _ _ le fits⟩)
    (fun _ _ _ ok below => Child.fenced_cuts ok law below)

end Job

/-- The state of the packing loop with `stream` still to be packed. -/
structure Packing (job : Job law) (stream : List (Cut ε)) (pack : Pack ε ρ) : Prop where
  stems : List.Forall₂ Child.Stems job.items (pack.closed ++ pack.base :: pack.rest)
  rest : pack.rest = job.items.drop (pack.closed.length + 1)
  closed : Fenced Child.rank (Child.Ok kind job.parent) pack.closed pack.base.rank
  full : ∀ child ∈ pack.closed, child.elms.length = job.avg
  room : pack.base.elms.length ≤ job.avg
  base : Fenced (fun elm => (kind.base elm).rank) (law.fits pack.base.head.offset) pack.base.elms
    (frontKey Cut.rank stream job.last)
  lower : pack.base.rank ≤
    frontKey (fun elm => (kind.base elm).rank) pack.base.elms (frontKey Cut.rank stream job.last)
  ahead : Fenced Cut.rank (Cut.Fits law) stream job.last
  first : (pack.closed ++ [pack.base]).head?.map (·.elm.base) =
    job.items.head?.map (·.elm.base)
  mirrorTid : pack.mirrorTid = job.mirrorTid
  covered : ∀ child ∈ pack.closed ++ [pack.base], child.Covered law job.mirrorTid
  contents : ((pack.closed ++ [pack.base]).flatMap (·.elms) ++ stream.map Prod.snd).map
    (law.moveTo 0) = (job.items.flatMap (·.elms)).map (law.moveTo 0)

/-- `base_item` is empty only if it is the first child. -/
def Pack.Settled (pack : Pack ε ρ) : Prop := pack.base.elms ≠ [] ∨ pack.closed = []

namespace Packing

variable {job : Job law} {stream : List (Cut ε)} {cut : Cut ε} {pack : Pack ε ρ}
variable {item : Child ε ρ} {index i : Nat}

theorem count (packing : Packing job stream pack) :
    pack.closed.length * job.avg + pack.base.elms.length + stream.length =
      (job.items.map (·.elms.length)).sum := by
  have total := congrArg List.length packing.contents
  have lengths : pack.closed.map (·.elms.length) = List.replicate pack.closed.length job.avg := by
    rw [List.eq_replicate_iff, List.length_map]
    refine ⟨rfl, ?_⟩
    intro length member
    obtain ⟨child, childMember, rfl⟩ := List.mem_map.mp member
    exact packing.full child childMember
  simp only [List.length_map, List.length_append, List.length_flatMap, List.map_append,
    List.sum_append, List.map_singleton, List.sum_singleton] at total
  rw [lengths, List.sum_replicate_nat] at total
  exact total

/-- The child under the index of `base_item` is the original of `base_item`. -/
theorem stems_base (packing : Packing job stream pack) :
    ∃ item, job.items[pack.rootCount]? = some item ∧ item.Stems pack.base := by
  have back := List.forall₂_drop_append _ _ _ packing.stems
  obtain ⟨item, rest, stems, _, dropEq⟩ := List.forall₂_cons_right_iff.mp back
  refine ⟨item, ?_, stems⟩
  have at' := congrArg (·[0]?) dropEq
  rwa [List.getElem?_drop, Nat.add_zero, List.getElem?_cons_zero] at at'

theorem parent_eq (packing : Packing job stream pack) : pack.base.head.parent = job.parent := by
  obtain ⟨item, at', stems⟩ := packing.stems_base
  obtain ⟨hi, ok, _, below, _⟩ := job.fenced.of_mem (List.mem_of_getElem? at')
  rw [stems.parent]
  exact (law.of_ok ok below).1

/-- A child with elements that fit is closed out by any separator in front of the
stream. -/
theorem closeBase (packing : Packing job stream pack) (bound : Base)
    (front : bound.rank = frontKey Cut.rank stream job.last)
    (some : law.emptiable ∨ pack.base.elms ≠ []) :
    ∃ right, pack.closeBase kind bound = .done { pack.base with right := right } ∧
      (kind.node pack.base.head pack.base.elms right).Ok pack.base.rank bound.rank job.parent := by
  have fenced := packing.base
  have lower := packing.lower
  rw [← front] at fenced lower
  obtain ⟨right, closed, ok⟩ := law.close_ok pack.base.right packing.parent_eq
    (packing.room.trans job.capacity) some fenced lower
  refine ⟨right, ?_, ok⟩
  rw [Pack.closeBase, Pack.baseCount, closed]
  rfl

/-- `base_item` is full: it is closed out, and there is a next child. -/
theorem advance (packing : Packing job (cut :: stream) pack) (full : pack.baseCount = job.avg) :
    ∃ after, pack.advance kind cut.1 = .done after ∧ Packing job (cut :: stream) after ∧
      after.baseCount < job.avg := by
  have count := packing.count
  rw [List.length_cons] at count
  have enough := job.enough
  -- The children in front of the stream are full, so they cannot be all there are.
  have more : pack.closed.length + 1 < job.items.length := by
    by_contra few
    have := Nat.mul_le_mul_right job.avg (Nat.le_of_not_lt few)
    have : pack.base.elms.length = job.avg := full
    rw [Nat.add_mul] at *
    omega
  have positive : 0 < job.avg := by
    refine Nat.pos_of_ne_zero fun zero => ?_
    rw [zero, Nat.mul_zero] at enough
    omega
  have some : pack.base.elms ≠ [] := by
    rw [← List.length_pos_iff]
    exact positive.trans_eq full.symm
  obtain ⟨right, closed, ok⟩ := packing.closeBase cut.1 rfl (.inr some)
  obtain ⟨next, rest, restEq⟩ : ∃ next rest, pack.rest = next :: rest := by
    refine List.exists_cons_of_ne_nil ?_
    rw [packing.rest]
    exact fun none => by
      rw [List.drop_eq_nil_iff] at none
      omega
  have nextEq : job.items.drop (pack.closed.length + 1) = next :: rest :=
    packing.rest.symm.trans restEq
  have nextMember : next ∈ job.items := by
    refine List.mem_of_mem_drop (i := pack.closed.length + 1) ?_
    rw [nextEq]
    exact List.mem_cons_self
  have nextRank : (next.reopen cut.1).rank = cut.1.rank := rfl
  refine ⟨{ pack with
    closed := pack.closed ++ [{ pack.base with right := right }]
    base := next.reopen cut.1
    rest := rest }, ?_, ?_, positive⟩
  · rw [Pack.advance, closed]
    simp only [Outcome.bind, restEq]
  · have stems := packing.stems
    rw [restEq] at stems
    have stemsClosed := Child.Stems.append stems { pack.base with right := right } ⟨rfl, rfl, le_rfl, rfl, rfl⟩
    rw [List.append_cons] at stemsClosed
    exact {
      stems := Child.Stems.append stemsClosed _ ⟨rfl, rfl, le_rfl, rfl, rfl⟩
      rest := by
        rw [List.length_append, List.length_singleton, ← List.drop_drop, nextEq]
        rfl
      closed := by
        rw [Fenced.append_iff]
        exact ⟨packing.closed, packing.lower.trans_lt (packing.base.frontKey_lt some), ok, trivial⟩
      full := by
        intro child member
        rcases List.mem_append.mp member with member | member
        · exact packing.full child member
        · rw [List.mem_singleton.mp member]
          exact full
      room := Nat.zero_le _
      base := trivial
      lower := le_rfl
      ahead := packing.ahead
      first := by
        rw [← packing.first, List.append_assoc]
        exact Child.head?_append rfl
      mirrorTid := packing.mirrorTid
      covered := by
        intro child member
        rcases List.mem_append.mp member with member | member
        · rcases List.mem_append.mp member with member | member
          · exact packing.covered child (List.mem_append_left _ member)
          · rw [List.mem_singleton.mp member]
            obtain ⟨elm, head, elms⟩ := packing.covered pack.base (by simp)
            exact ⟨elm, head, elms⟩
        · rw [List.mem_singleton.mp member]
          obtain ⟨elm, head, _⟩ := job.covered next nextMember
          exact ⟨elm, head, fun _ absent => absurd absent List.not_mem_nil⟩
      contents := by
        rw [← packing.contents]
        simp [Child.reopen] }

theorem log (packing : Packing job stream pack) (call : Call) : Packing job stream (pack.log call) :=
  { packing with }

theorem raise (packing : Packing job stream pack) {tid : Nat} (le : tid ≤ job.mirrorTid) :
    Packing job stream (pack.raise tid) ∧ tid ≤ (pack.raise tid).base.head.mirrorTid := by
  by_cases low : pack.base.head.mirrorTid < tid
  · rw [Pack.raise, if_pos low]
    refine ⟨?_, le_rfl⟩
    exact {
      stems := Child.Stems.append packing.stems _ ⟨rfl, rfl, low.le, rfl, rfl⟩
      rest := packing.rest
      closed := packing.closed
      full := packing.full
      room := packing.room
      base := packing.base
      lower := packing.lower
      ahead := packing.ahead
      first := by
        rw [← packing.first]
        exact Child.head?_append rfl
      mirrorTid := by
        rw [packing.mirrorTid]
        exact max_eq_left le
      covered := by
        intro child member
        rcases List.mem_append.mp member with member | member
        · exact packing.covered child (List.mem_append_left _ member)
        · rw [List.mem_singleton.mp member]
          obtain ⟨elm, head, elms⟩ := packing.covered pack.base (by simp)
          refine ⟨max_le elm le, le_max_right _ _, ?_⟩
          exact fun elm member => law.covers_mono low.le (elms elm member)
      contents := by
        rw [← packing.contents]
        simp }
  · rw [Pack.raise, if_neg low]
    exact ⟨packing, Nat.le_of_not_lt low⟩

/-- The next element of the stream goes to the end of `base_item`. -/
theorem keep (packing : Packing job (cut :: stream) pack) (room : pack.baseCount < job.avg)
    (covers : law.covers pack.base.head.mirrorTid cut.2) :
    Packing job stream (pack.keep (law.moveTo pack.base.head.offset cut.2)) := by
  obtain ⟨next, ⟨above, below, offset, fits⟩, ahead⟩ := packing.ahead
  have base := packing.base.raise_last above fun lo hi hi' elm le fit =>
    law.fits_mono _ lo hi hi' elm le fit
  exact {
    stems := Child.Stems.append packing.stems _ ⟨rfl, rfl, le_rfl, rfl, rfl⟩
    rest := packing.rest
    closed := packing.closed
    full := packing.full
    room := by
      rw [Pack.keep, List.length_append]
      exact room
    base := by
      rw [Pack.keep, Fenced.append_iff]
      simp only [Fenced, frontKey_cons, frontKey_nil, law.base_moveTo]
      exact ⟨base, below, law.fits_moveTo _ fits, trivial⟩
    lower := by
      rw [Pack.keep, frontKey_append]
      simp only [frontKey_cons, law.base_moveTo]
      exact packing.lower.trans (frontKey_mono _ _ above)
    ahead := ahead
    first := by
      rw [← packing.first]
      exact Child.head?_append rfl
    mirrorTid := packing.mirrorTid
    covered := by
      intro child member
      rcases List.mem_append.mp member with member | member
      · exact packing.covered child (List.mem_append_left _ member)
      · rw [List.mem_singleton.mp member]
        obtain ⟨elm, head, elms⟩ := packing.covered pack.base (by simp)
        refine ⟨elm, head, ?_⟩
        intro elm member
        rcases List.mem_append.mp member with member | member
        · exact elms elm member
        · rw [List.mem_singleton.mp member]
          exact law.covers_moveTo covers
    contents := by
      rw [← packing.contents]
      simp [Pack.keep, law.moveTo_moveTo] }

theorem place (packing : Packing job (cut :: stream) pack) (room : pack.baseCount < job.avg)
    (at' : job.items[index]? = some item) {lo hi : Rank}
    (own : law.fits item.head.offset lo hi cut.2) (member : cut.2 ∈ item.elms) :
    ∃ after, pack.place kind item index i cut.2 = .done after ∧ Packing job stream after ∧
      after.base.elms ≠ [] := by
  have covered := job.covered item (List.mem_of_getElem? at')
  have settled : ∀ (pack : Pack ε ρ) elm, (pack.keep elm).base.elms ≠ [] := fun pack elm => by
    simp [Pack.keep]
  -- An element of `base_item` itself stays where it is.
  have stays : index = pack.rootCount → law.moveTo pack.base.head.offset cut.2 = cut.2 ∧
      law.covers pack.base.head.mirrorTid cut.2 := by
    rintro rfl
    obtain ⟨original, originalAt, stems⟩ := packing.stems_base
    obtain rfl := Option.some.inj (at'.symm.trans originalAt)
    rw [stems.offset]
    exact ⟨law.moveTo_self own, law.covers_mono stems.mirrorTid (covered.elms _ member)⟩
  unfold Pack.place
  by_cases idle : index = pack.rootCount ∧ i = pack.baseCount
  · obtain ⟨self, covers⟩ := stays idle.1
    have kept := packing.keep room covers
    rw [self] at kept
    exact ⟨_, if_pos idle, kept, settled _ _⟩
  · rw [if_neg idle]
    have moves : (if index ≠ pack.rootCount then
        kind.parentPtrs item.head.offset pack.base.head.offset cut.2
        else .done cut.2) = .done (law.moveTo pack.base.head.offset cut.2) := by
      by_cases same : index = pack.rootCount
      · rw [if_neg (not_not.mpr same), (stays same).1]
      · rw [if_pos same, law.parentPtrs _ own]
    obtain ⟨raised, le⟩ := packing.raise (covered.head.trans covered.elm)
    have offset : (pack.raise item.head.mirrorTid).base.head.offset = pack.base.head.offset := by
      unfold Pack.raise
      split_ifs <;> rfl
    have count : (pack.raise item.head.mirrorTid).baseCount = pack.baseCount := by
      unfold Pack.raise
      split_ifs <;> rfl
    have kept := (raised.log (.moved index index i (pack.raise item.head.mirrorTid).rootCount
      (pack.raise item.head.mirrorTid).baseCount)).keep (count.trans_lt room)
      (law.covers_mono le (covered.elms _ member))
    rw [moves]
    refine ⟨_, rfl, ?_, settled _ _⟩
    rw [← offset]
    exact kept

theorem packElm (packing : Packing job (cut :: stream) pack)
    (front : cut.1 = if i = 0 then item.elm.base else kind.base cut.2)
    (at' : job.items[index]? = some item) {lo hi : Rank}
    (own : law.fits item.head.offset lo hi cut.2) (member : cut.2 ∈ item.elms) :
    ∃ after, pack.packElm kind job.avg item index i cut.2 = .done after ∧
      Packing job stream after ∧ after.base.elms ≠ [] := by
  unfold Pack.packElm
  by_cases full : pack.baseCount = job.avg
  · obtain ⟨middle, advanced, packing, room⟩ := packing.advance full
    rw [if_pos full, ← front, advanced]
    exact packing.place room at' own member
  · have room : pack.baseCount < job.avg := lt_of_le_of_ne packing.room full
    rw [if_neg full]
    exact packing.place room at' own member

/-- The inner loop takes the elements of the child from the stream. -/
theorem packElms {elms : List ε} (packing : Packing job (item.cuts kind i elms ++ stream) pack)
    (settled : pack.Settled) (at' : job.items[index]? = some item)
    (own : ∀ elm ∈ elms, elm ∈ item.elms ∧ ∃ lo hi, law.fits item.head.offset lo hi elm) :
    ∃ after, Pack.packElms kind job.avg item index i elms pack = .done after ∧
      Packing job stream after ∧ after.Settled := by
  induction elms generalizing i pack with
  | nil => exact ⟨pack, rfl, packing, settled⟩
  | cons elm elms ih =>
      obtain ⟨member, lo, hi, fits⟩ := own elm List.mem_cons_self
      obtain ⟨middle, packed, packing, some⟩ := packing.packElm rfl at' fits member
      obtain ⟨after, rest, packing, settled⟩ := ih packing (.inl some) fun other otherMember =>
        own other (List.mem_cons_of_mem _ otherMember)
      refine ⟨after, ?_, packing, settled⟩
      rw [Pack.packElms, packed]
      exact rest

/-- The outer loop takes everything from the stream. -/
theorem packItems (items : List (Child ε ρ)) {index : Nat} (drop : job.items.drop index = items)
    (packing : Packing job (items.flatMap fun item => item.cuts kind 0 item.elms) pack)
    (settled : pack.Settled) :
    ∃ after, Pack.packItems kind job.avg index items pack = .done after ∧ Packing job [] after ∧
      after.Settled := by
  induction items generalizing index pack with
  | nil => exact ⟨pack, rfl, packing, settled⟩
  | cons item items ih =>
      have at' : job.items[index]? = some item := by
        have head := congrArg (·[0]?) drop
        rwa [List.getElem?_drop, Nat.add_zero, List.getElem?_cons_zero] at head
      have rest : job.items.drop (index + 1) = items := by
        rw [← List.drop_drop, drop]
        rfl
      obtain ⟨hi, ok, _, below, _⟩ := job.fenced.of_mem (List.mem_of_getElem? at')
      obtain ⟨_, _, _, fenced, _⟩ := law.of_ok ok below
      obtain ⟨middle, packed, packing, settled⟩ := packing.packElms settled at' fun elm member =>
        ⟨member, _, (fenced.of_mem member).imp fun hi fit => fit.1⟩
      obtain ⟨after, others, packing, settled⟩ := ih rest
        (packing.log (.moved index index item.elms.length middle.rootCount middle.baseCount)) settled
      refine ⟨after, ?_, packing, settled⟩
      rw [Pack.packItems, packed]
      exact others

end Packing

/-! ## The rebalanced children -/

/-- What rebalancing keeps of the children, and what it makes of them. -/
structure Kept (job : Job law) (repacked : Repacked ε ρ) : Prop where
  mirrorTid : repacked.mirrorTid = job.mirrorTid
  nonempty : repacked.children ≠ []
  fenced : Fenced Child.rank (Child.Ok kind job.parent) repacked.children job.last
  first : repacked.children.head?.map (·.elm.base) = job.items.head?.map (·.elm.base)
  stems : List.Forall₂ Child.Stems (job.items.take repacked.children.length) repacked.children
  deleted : repacked.deleted = job.items.drop repacked.children.length
  counts : ∀ child ∈ repacked.children, child.elms.length ≤ job.avg
  covered : ∀ child ∈ repacked.children, child.Covered law job.mirrorTid
  contents : (repacked.children.flatMap (·.elms)).map (law.moveTo 0) =
    (job.items.flatMap (·.elms)).map (law.moveTo 0)

namespace Job

variable {job : Job law} {first : Child ε ρ} {items : List (Child ε ρ)}

theorem packing_start (itemsEq : job.items = first :: items) :
    Packing job job.stream
      { closed := [], base := { first with elms := [] }, rest := items,
        mirrorTid := job.mirrorTid, calls := [] } := by
  obtain ⟨fenced, lower⟩ := job.fenced_stream
  exact {
    stems := by
      rw [itemsEq]
      exact .cons ⟨rfl, rfl, le_rfl, rfl, rfl⟩ (List.forall₂_same.mpr fun item _ => .refl item)
    rest := by
      rw [itemsEq]
      rfl
    closed := trivial
    full := nofun
    room := Nat.zero_le _
    base := trivial
    lower := by
      rw [itemsEq] at lower
      exact lower
    ahead := fenced
    first := by
      rw [itemsEq]
      rfl
    mirrorTid := rfl
    covered := by
      intro child member
      obtain ⟨elm, head, _⟩ := job.covered first (by simp [itemsEq])
      rw [List.mem_singleton.mp member]
      exact ⟨elm, head, nofun⟩
    contents := by
      have same : ∀ item : Child ε ρ, (item.cuts kind 0 item.elms).map Prod.snd = item.elms :=
        fun item => Child.cuts_snd 0 item.elms
      simp [Job.stream, List.map_flatMap, same] }

/-- With an empty stream the last child is closed out by the right boundary. -/
theorem close_last {pack : Pack ε ρ} (packing : Packing job [] pack) (settled : pack.Settled)
    (some : job.items ≠ []) {right : Base} (last : right.rank = job.last) :
    ∃ closed, pack.closeBase kind right = .done closed ∧ ∀ calls,
      Kept job ⟨pack.mirrorTid, pack.closed ++ [closed], pack.rest, calls⟩ := by
  have emptiable : law.emptiable ∨ pack.base.elms ≠ [] := by
    refine or_iff_not_imp_right.mpr fun empty => ?_
    have empty := not_not.mp empty
    have contents := packing.contents
    rw [settled.resolve_left (not_not.mpr empty)] at contents
    simp only [List.nil_append, List.flatMap_singleton, empty, List.map_nil] at contents
    obtain ⟨item, member⟩ := List.exists_mem_of_ne_nil _ some
    obtain ⟨hi, ok, _, below, _⟩ := job.fenced.of_mem member
    have none := List.flatMap_eq_nil_iff.mp (List.map_eq_nil_iff.mp contents.symm) item member
    exact (law.of_ok ok below).2.2.1.resolve_right (not_not.mpr none)
  obtain ⟨closed, closeEq, ok⟩ := packing.closeBase right last emptiable
  have below : pack.base.rank < job.last := by
    rcases settled with some | start
    · exact packing.lower.trans_lt (packing.base.frontKey_lt some)
    · have first := Child.frontKey_eq job.items job.last
      rw [← packing.first, start] at first
      exact first.symm.trans_lt (job.fenced.frontKey_lt some)
  have stems := Child.Stems.append packing.stems { pack.base with right := closed }
    ⟨rfl, rfl, le_rfl, rfl, rfl⟩
  rw [List.append_cons] at stems
  have length : (pack.closed ++ [{ pack.base with right := closed }]).length =
      pack.closed.length + 1 := List.length_append
  refine ⟨_, closeEq, fun calls => ?_⟩
  exact {
    mirrorTid := packing.mirrorTid
    nonempty := by simp
    fenced := by
      rw [last] at ok
      rw [Fenced.append_iff]
      exact ⟨packing.closed, below, ok, trivial⟩
    first := by
      rw [← packing.first]
      exact Child.head?_append rfl
    stems := List.forall₂_take_append _ _ _ stems
    deleted := by
      rw [length]
      exact packing.rest
    counts := by
      intro child member
      rcases List.mem_append.mp member with member | member
      · exact (packing.full child member).le
      · rw [List.mem_singleton.mp member]
        exact packing.room
    covered := by
      intro child member
      rcases List.mem_append.mp member with member | member
      · exact packing.covered child (List.mem_append_left _ member)
      · rw [List.mem_singleton.mp member]
        obtain ⟨elm, head, elms⟩ := packing.covered pack.base (by simp)
        exact ⟨elm, head, elms⟩
    contents := by
      rw [← packing.contents]
      simp }

/-- Rebalancing comes to its end and keeps what is to be kept. -/
theorem repack (itemsEq : job.items = first :: items) (saturation : Nat)
    (avg : job.avg = avgElms saturation (((first :: items).map (·.elms.length)).sum)
      (first :: items).length)
    (right : Base) (last : right.rank = job.last) :
    ∃ repacked, repack kind saturation job.mirrorTid right first items = .done repacked ∧
      Kept job repacked := by
  obtain ⟨pack, packed, packing, settled⟩ := (packing_start itemsEq).packItems job.items
    (@List.drop_zero _ job.items) (.inr rfl)
  obtain ⟨closed, closeEq, kept⟩ := close_last packing settled (by simp [itemsEq]) last
  rw [itemsEq, avg] at packed
  refine ⟨_, ?_, kept (pack.calls ++ deletionCalls pack.baseCount (pack.rootCount + 1)
    pack.rest.length)⟩
  simp only [Btree.repack, packed, Outcome.bind, closeEq]

end Job

end Dragonfly.Hammer.Btree
