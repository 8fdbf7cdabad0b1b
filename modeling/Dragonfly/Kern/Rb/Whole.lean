import Mathlib.Data.List.Nodup
import Dragonfly.Kern.Rb.Remove

/-!
# The operations on whole trees

`Built ord head inprog elms` is what the operations need and keep: the head holds a red-black tree
with the elements `elms`, whose keys increase.
-/

namespace Dragonfly.Kern.Rb

open Dragonfly.Lib Dragonfly.Lib.Redblack

variable {α κ : Type} [LinearOrder κ] {ord : Order α κ} {head : Head α} {inprog : List (ScanInfo α)}
  {elms front back : List α} {elm other : α} {range : Range ord}

theorem Sorted.nodup (sorted : Sorted ord elms) : elms.Nodup :=
  sorted.imp fun less same => absurd (congrArg ord.key same) less.ne

/-- Elements with the same key are the same. -/
theorem Sorted.eq_of_key (sorted : Sorted ord elms) (member : elm ∈ elms) (member' : other ∈ elms)
    (same : ord.key elm = ord.key other) : elm = other := by
  have keys : (elms.map ord.key).Nodup := List.pairwise_map.mpr (sorted.imp fun less => less.ne)
  exact List.inj_on_of_nodup_map keys member member' same

theorem sorted_split : Sorted ord (front ++ elm :: back) ↔
    Sorted ord (front ++ back) ∧ (∀ other ∈ front, ord.key other < ord.key elm) ∧
      ∀ other ∈ back, ord.key elm < ord.key other := by
  simp only [Sorted, List.pairwise_append, List.pairwise_cons, List.mem_cons]
  constructor
  · rintro ⟨first, ⟨after, second⟩, across⟩
    exact ⟨⟨first, second, fun other member other' member' => across other member other' (.inr member')⟩,
      fun other member => across other member elm (.inl rfl), after⟩
  · rintro ⟨⟨first, second, across⟩, before, after⟩
    refine ⟨first, ⟨after, second⟩, ?_⟩
    rintro other member other' (rfl | member')
    · exact before other member
    · exact across other member other' member'

/-- The head holds a red-black tree with the elements in order. -/
structure Built (ord : Order α κ) (head : Head α) (inprog : List (ScanInfo α)) (elms : List α) : Prop where
  sorted : Sorted ord elms
  tree : ∃ tree n, Holds head inprog tree [] ∧ tree.Ok .red n ∧ tree.elems = elms

namespace Built

theorem inprog_eq (built : Built ord head inprog elms) : head.inprog = inprog := by
  obtain ⟨tree, n, holds, -⟩ := built.tree
  exact holds.inprog

theorem init (entry : α → Entry α) : Built ord (init entry) [] [] :=
  ⟨List.Pairwise.nil, .nil, 0, ⟨rfl, trivial, rfl, List.nodup_nil⟩, rfl, rfl⟩

theorem setInprog (built : Built ord head inprog elms) (infos : List (ScanInfo α)) :
    Built ord { head with inprog := infos } infos elms := by
  obtain ⟨tree, n, holds, ok⟩ := built.tree
  exact ⟨built.sorted, tree, n, holds.setInprog infos, ok⟩

/-- The first element of a range. -/
theorem locate (built : Built ord head inprog elms) :
    Gives (fun fuel => locate range.scancmp head fuel head.root none)
      (elms.find? fun elm => range.scancmp elm = 0) := by
  obtain ⟨tree, n, holds, ok, rfl⟩ := built.tree
  rw [holds.root]
  have gives : Gives (fun fuel => Rb.locate range.scancmp head fuel tree.root none) _ :=
    locate_gives holds built.sorted none
  rw [Option.or_none] at gives
  exact gives

variable [DecidableEq α]

/-- An element that is not in the tree is written to. -/
theorem write (built : Built ord head inprog elms) (outside : elm ∉ elms) (write : Entry α → Entry α) :
    Built ord (head.modify elm write) inprog elms := by
  obtain ⟨tree, n, holds, ok, rfl⟩ := built.tree
  refine ⟨built.sorted, tree, n, ⟨holds.inprog, holds.shape.congr ?_, holds.around, holds.nodup⟩, ok, rfl⟩
  intro other member
  exact (entry_modify _ _ _ _).trans (if_neg fun same : other = elm => outside (same ▸ member))

/-- `RB_INSERT` -/
theorem insert (built : Built ord head inprog elms) (elm : α) :
    (∃ other ∈ elms, Gives (fun fuel => insert ord.cmp fuel head elm) (head, some other)) ∨
    ∃ after front back, Gives (fun fuel => Rb.insert ord.cmp fuel head elm) (after, none) ∧
      elms = front ++ back ∧ Built ord after inprog (front ++ elm :: back) := by
  obtain ⟨tree, n, holds, ok, rfl⟩ := built.tree
  rcases insert_gives holds ok built.sorted elm with
    ⟨other, member, -, gives⟩ | ⟨after, tree', m, front, back, gives, final, ok', split, split', lower, upper⟩
  · exact .inl ⟨other, member, gives⟩
  · refine .inr ⟨after, front, back, gives, split, ?_, tree', m, final, ok', split'⟩
    exact sorted_split.mpr ⟨split ▸ built.sorted, lower, upper⟩

/-- `RB_NEXT` -/
theorem next (built : Built ord head inprog elms) (member : elm ∈ elms) :
    ∃ front back, elms = front ++ elm :: back ∧ Gives (fun fuel => next head fuel elm) back.head? := by
  obtain ⟨tree, n, holds, ok, rfl⟩ := built.tree
  obtain ⟨path, color, left, right, rfl⟩ := RbTree.exists_fill member
  have focus := Holds.fill_iff.mp holds
  rw [List.append_nil] at focus
  refine ⟨Spine.before path ++ left.elems, right.elems ++ Spine.after path, ?_, next_gives focus⟩
  rw [Spine.elems_fill]
  simp [RbTree.elems]

/-- `RB_REMOVE` -/
theorem remove (built : Built ord head inprog elms) (member : elm ∈ elms) :
    ∃ after front back, elms = front ++ elm :: back ∧ Gives (fun fuel => remove fuel head elm) after ∧
      Built ord after (inprog.map (ScanInfo.moved elm back.head?)) (front ++ back) := by
  obtain ⟨tree, n, holds, ok, rfl⟩ := built.tree
  obtain ⟨path, color, left, right, rfl⟩ := RbTree.exists_fill member
  have focus := Holds.fill_iff.mp holds
  rw [List.append_nil] at focus
  have split : (Spine.fill path (.node color left elm right)).elems =
      Spine.before path ++ left.elems ++ elm :: (right.elems ++ Spine.after path) := by
    rw [Spine.elems_fill]
    simp [RbTree.elems]
  obtain ⟨after, tree', m, gives, final, ok', elems⟩ := remove_gives focus ok
  refine ⟨after, _, _, split, gives, ?_, tree', m, final, ok', elems⟩
  exact (sorted_split.mp (split ▸ built.sorted)).1

end Built

end Dragonfly.Kern.Rb
