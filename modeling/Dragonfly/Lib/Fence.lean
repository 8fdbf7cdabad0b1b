import Mathlib.Algebra.Order.Ring.Int
import Mathlib.Order.Basic
import Mathlib.Data.List.Pairwise

/-!
# Items between separators

A node of a search tree is a list of items, each behind its own separator, and a
last separator behind all of them.  An item is judged together with the two
separators around it.  `Fenced` says that the separators increase and that every
item is fit for its place.
-/

namespace Dragonfly.Lib

universe u v

section Front

variable {κ : Type u} {β : Type v}

/-- The separator in front of a list of items, which is the last one if there are
none. -/
def frontKey (key : β → κ) : List β → κ → κ
  | [], last => last
  | item :: _, _ => key item

@[simp]
theorem frontKey_nil (key : β → κ) (last : κ) : frontKey key [] last = last := rfl

@[simp]
theorem frontKey_cons (key : β → κ) (item : β) (items : List β) (last : κ) :
    frontKey key (item :: items) last = key item := rfl

theorem frontKey_append (key : β → κ) (front back : List β) (last : κ) :
    frontKey key (front ++ back) last = frontKey key front (frontKey key back last) := by
  cases front <;> rfl

theorem frontKey_map {α : Type v} (key : β → κ) (change : α → β) (originals : List α) (last : κ) :
    frontKey key (originals.map change) last =
      frontKey (fun original => key (change original)) originals last := by
  cases originals <;> rfl

theorem frontKey_modify {key : β → κ} {change : β → β} {items : List β} {index : Nat} {item : β}
    (found : items[index]? = some item) (same : key (change item) = key item) (last : κ) :
    frontKey key (items.modify index change) last = frontKey key items last := by
  cases items with
  | nil => contradiction
  | cons head items =>
      cases index with
      | zero =>
          rw [List.getElem?_cons_zero] at found
          rw [List.modify_zero_cons, frontKey_cons, frontKey_cons, Option.some.inj found, same]
      | succ index => rfl

/-- Changing an item without its contents leaves the contents of the list. -/
theorem flatMap_modify {α : Type u} {content : β → List α} {change : β → β} {items : List β}
    {index : Nat} {item : β} (found : items[index]? = some item)
    (same : content (change item) = content item) :
    (items.modify index change).flatMap content = items.flatMap content := by
  induction items generalizing index with
  | nil => contradiction
  | cons head items ih =>
      cases index with
      | zero =>
          rw [List.getElem?_cons_zero] at found
          rw [List.modify_zero_cons, List.flatMap_cons, List.flatMap_cons, Option.some.inj found, same]
      | succ index =>
          rw [List.getElem?_cons_succ] at found
          rw [List.modify_succ_cons, List.flatMap_cons, List.flatMap_cons, ih found]

end Front

variable {κ : Type u} {β : Type v} [LinearOrder κ]

theorem frontKey_mono (key : β → κ) (items : List β) {last last' : κ} (le : last ≤ last') :
    frontKey key items last ≤ frontKey key items last' := by
  cases items with
  | nil => exact le
  | cons item items => exact le_rfl

/-- The separators increase, and every item fits between its own and the next. -/
def Fenced (key : β → κ) (fits : κ → κ → β → Prop) : List β → κ → Prop
  | [], _ => True
  | item :: items, last =>
      key item < frontKey key items last ∧ fits (key item) (frontKey key items last) item ∧
        Fenced key fits items last

namespace Fenced

variable {key : β → κ} {fits other : κ → κ → β → Prop} {items front back : List β} {item : β}
variable {last : κ}

@[simp]
theorem nil : Fenced key fits [] last := trivial

theorem append_iff : Fenced key fits (front ++ back) last ↔
    Fenced key fits front (frontKey key back last) ∧ Fenced key fits back last := by
  induction front with
  | nil => exact ⟨fun fenced => ⟨trivial, fenced⟩, fun fenced => fenced.2⟩
  | cons item front ih =>
      simp only [List.cons_append, Fenced, ih, frontKey_append, and_assoc]

theorem map_iff {α : Type v} {change : α → β} {originals : List α} :
    Fenced key fits (originals.map change) last ↔
      Fenced (fun original => key (change original))
        (fun lo hi original => fits lo hi (change original)) originals last := by
  induction originals with
  | nil => exact Iff.rfl
  | cons original originals ih =>
      rw [List.map_cons, Fenced, Fenced, ih, frontKey_map]

theorem mono (fenced : Fenced key fits items last)
    (weaker : ∀ lo hi, ∀ item ∈ items, fits lo hi item → other lo hi item) :
    Fenced key other items last := by
  induction items with
  | nil => trivial
  | cons item items ih =>
      obtain ⟨below, here, rest⟩ := fenced
      exact ⟨below, weaker _ _ item List.mem_cons_self here,
        ih rest fun lo hi item member => weaker lo hi item (List.mem_cons_of_mem _ member)⟩

/-- The first separator is not above the last. -/
theorem frontKey_le (fenced : Fenced key fits items last) : frontKey key items last ≤ last := by
  induction items with
  | nil => exact le_rfl
  | cons item items ih => exact fenced.1.le.trans (ih fenced.2.2)

theorem frontKey_lt (fenced : Fenced key fits items last) (nonempty : items ≠ []) :
    frontKey key items last < last := by
  cases items with
  | nil => contradiction
  | cons item items => exact fenced.1.trans_le (frontKey_le fenced.2.2)

/-- Every item has its separator and the next one, both within the outer ones. -/
theorem of_mem (fenced : Fenced key fits items last) (member : item ∈ items) :
    ∃ hi, fits (key item) hi item ∧ frontKey key items last ≤ key item ∧ key item < hi ∧
      hi ≤ last := by
  induction items with
  | nil => contradiction
  | cons head items ih =>
      obtain ⟨below, here, rest⟩ := fenced
      rcases List.mem_cons.mp member with rfl | member
      · exact ⟨_, here, le_rfl, below, frontKey_le rest⟩
      · obtain ⟨hi, fit, lower, between, upper⟩ := ih rest member
        exact ⟨hi, fit, below.le.trans lower, between, upper⟩

/-- The last separator may be larger if items put up with a larger next separator. -/
theorem raise_last {last' : κ} (fenced : Fenced key fits items last) (le : last ≤ last')
    (weaken : ∀ lo hi hi' item, hi ≤ hi' → fits lo hi item → fits lo hi' item) :
    Fenced key fits items last' := by
  induction items with
  | nil => trivial
  | cons item items ih =>
      obtain ⟨below, here, rest⟩ := fenced
      have larger := frontKey_mono key items le
      exact ⟨below.trans_le larger, weaken _ _ _ item larger here, ih rest⟩

/-- The contents of fenced items, each fenced between the separators of its item. -/
theorem flatMap {α : Type v} {content : β → List α} {inner : α → κ} {holds : κ → κ → α → Prop}
    (fenced : Fenced key fits items last)
    (weaken : ∀ lo hi hi' elm, hi ≤ hi' → holds lo hi elm → holds lo hi' elm)
    (each : ∀ hi, ∀ item ∈ items, fits (key item) hi item → key item < hi →
      Fenced inner holds (content item) hi ∧ key item ≤ frontKey inner (content item) hi) :
    Fenced inner holds (items.flatMap content) last ∧
      frontKey key items last ≤ frontKey inner (items.flatMap content) last := by
  induction items with
  | nil => exact ⟨trivial, le_rfl⟩
  | cons item items ih =>
      obtain ⟨below, here, rest⟩ := fenced
      obtain ⟨fencedHere, lower⟩ := each _ item List.mem_cons_self here below
      obtain ⟨fencedRest, le⟩ := ih rest fun hi item member =>
        each hi item (List.mem_cons_of_mem _ member)
      rw [List.flatMap_cons, append_iff, frontKey_append]
      exact ⟨⟨fencedHere.raise_last le weaken, fencedRest⟩,
        lower.trans (frontKey_mono inner (content item) le)⟩

/-- Sorted items between two bounds are fenced by their own keys. -/
theorem of_sorted {items : List β} {last : κ} (key : β → κ) (fits : κ → κ → β → Prop) {first : κ} (ordered : first ≤ last) (sorted : items.Pairwise (key · < key ·))
    (within : ∀ item ∈ items, first ≤ key item ∧ key item < last)
    (fit : ∀ lo hi, ∀ item ∈ items, fits lo hi item) :
    Fenced key fits items last ∧ first ≤ frontKey key items last := by
  induction items generalizing first with
  | nil => exact ⟨trivial, ordered⟩
  | cons item items ih =>
      obtain ⟨above, sortedRest⟩ := List.pairwise_cons.mp sorted
      obtain ⟨lower, upper⟩ := within item List.mem_cons_self
      obtain ⟨fencedRest, _⟩ := ih upper.le sortedRest
        (fun next member => ⟨(above next member).le, (within next (List.mem_cons_of_mem _ member)).2⟩)
        (fun lo hi next member => fit lo hi next (List.mem_cons_of_mem _ member))
      refine ⟨⟨?_, fit _ _ item List.mem_cons_self, fencedRest⟩, lower⟩
      cases items with
      | nil => exact upper
      | cons next items => exact above next List.mem_cons_self

/-- Fenced items are sorted and between the outer separators. -/
theorem sorted (fenced : Fenced key fits items last) : items.Pairwise (key · < key ·) ∧
    ∀ item ∈ items, frontKey key items last ≤ key item ∧ key item < last := by
  induction items with
  | nil => simp
  | cons item items ih =>
      obtain ⟨below, here, rest⟩ := fenced
      obtain ⟨sortedRest, within⟩ := ih rest
      refine ⟨List.pairwise_cons.mpr ⟨?_, sortedRest⟩, ?_⟩
      · intro next member
        exact below.trans_le (within next member).1
      · intro next member
        rcases List.mem_cons.mp member with rfl | member
        · exact ⟨le_rfl, below.trans_le (frontKey_le rest)⟩
        · exact ⟨below.le.trans (within next member).1, (within next member).2⟩

/-- An item may be changed where its separator stays and it keeps its fitness. -/
theorem modify {change : β → β} {index : Nat} (fenced : Fenced key fits items last)
    (found : items[index]? = some item) (same : key (change item) = key item)
    (fit : ∀ lo hi, fits lo hi item → fits lo hi (change item)) :
    Fenced key fits (items.modify index change) last := by
  induction items generalizing index with
  | nil => contradiction
  | cons head items ih =>
      obtain ⟨below, here, rest⟩ := fenced
      cases index with
      | zero =>
          rw [List.getElem?_cons_zero] at found
          obtain rfl := Option.some.inj found
          rw [List.modify_zero_cons, Fenced, same]
          exact ⟨below, fit _ _ here, rest⟩
      | succ index =>
          rw [List.getElem?_cons_succ] at found
          rw [List.modify_succ_cons, Fenced, frontKey_modify found same]
          exact ⟨below, here, ih rest found⟩

/-- Contents that lie between the separators around their item are sorted as a
whole and lie between the outer separators. -/
theorem flatMap_sorted {α : Type v} (content : β → List α) (rank : α → κ)
    (fenced : Fenced key fits items last)
    (sorted : ∀ lo hi, ∀ item ∈ items, fits lo hi item →
      (content item).Pairwise (rank · < rank ·) ∧ ∀ elm ∈ content item, lo ≤ rank elm ∧ rank elm < hi) :
    (items.flatMap content).Pairwise (rank · < rank ·) ∧
      ∀ elm ∈ items.flatMap content, frontKey key items last ≤ rank elm ∧ rank elm < last := by
  induction items with
  | nil => simp
  | cons item items ih =>
      obtain ⟨below, here, rest⟩ := fenced
      obtain ⟨sortedHere, withinHere⟩ := sorted _ _ item List.mem_cons_self here
      obtain ⟨sortedRest, withinRest⟩ := ih rest fun lo hi item member =>
        sorted lo hi item (List.mem_cons_of_mem _ member)
      rw [List.flatMap_cons]
      refine ⟨List.pairwise_append.mpr ⟨sortedHere, sortedRest, ?_⟩, ?_⟩
      · intro first firstMember second secondMember
        exact (withinHere first firstMember).2.trans_le (withinRest second secondMember).1
      · intro elm member
        rcases List.mem_append.mp member with member | member
        · obtain ⟨lower, upper⟩ := withinHere elm member
          exact ⟨lower, upper.trans_le (frontKey_le rest)⟩
        · obtain ⟨lower, upper⟩ := withinRest elm member
          exact ⟨below.le.trans lower, upper⟩

end Fenced

end Dragonfly.Lib
