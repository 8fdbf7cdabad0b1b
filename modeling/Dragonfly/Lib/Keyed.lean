import Mathlib.Data.List.Nodup
import Mathlib.Data.List.TakeWhile

/-!
# Lists of items that carry a key

A linked list of structures is a list of values whose keys are the addresses: an
item is written through its key and taken off the list by its key.
-/

namespace Dragonfly.Lib.Keyed

universe u v

variable {α : Type u} {κ : Type v} [DecidableEq κ] (key : α → κ)

/-- Store `item` over the item of the same key. -/
def replace (item : α) (items : List α) : List α :=
  items.map fun other => if key other = key item then item else other

/-- Take the item of key `gone` off the list. -/
def remove (gone : κ) (items : List α) : List α :=
  items.filter fun item => key item ≠ gone

/-- The items from the one with key `point` on. -/
def onward (point : κ) (items : List α) : List α :=
  items.dropWhile fun item => key item ≠ point

/-- The items in front of the one with key `point`. -/
def upTo (point : κ) (items : List α) : List α :=
  items.takeWhile fun item => key item ≠ point

/-- The item behind the one with key `point`. -/
def nextOf (point : κ) : List α → Option α
  | [] => none
  | item :: rest => if key item = point then rest.head? else nextOf point rest

/-- The item in front of the one with key `point`. -/
def prevOf (point : κ) : List α → Option α
  | first :: second :: rest =>
      if key second = point then some first else prevOf point (second :: rest)
  | _ => none

theorem upTo_append_onward (point : κ) (items : List α) :
    upTo key point items ++ onward key point items = items :=
  List.takeWhile_append_dropWhile

variable {key} {items : List α} {item other : α} {point gone : κ}

@[simp]
theorem mem_remove : other ∈ remove key gone items ↔ other ∈ items ∧ key other ≠ gone := by
  simp [remove]

theorem remove_append (front back : List α) :
    remove key gone (front ++ back) = remove key gone front ++ remove key gone back :=
  List.filter_append ..

theorem remove_cons_of_ne (different : key item ≠ gone) (items : List α) :
    remove key gone (item :: items) = item :: remove key gone items :=
  List.filter_cons_of_pos (by simpa using different)

theorem mem_replace (present : ∃ old ∈ items, key old = key item) :
    other ∈ replace key item items ↔ other = item ∨ other ∈ items ∧ key other ≠ key item := by
  simp only [replace, List.mem_map]
  constructor
  · rintro ⟨old, member, rfl⟩
    by_cases same : key old = key item
    · simp [same]
    · simp [same, member]
  · rintro (rfl | ⟨member, different⟩)
    · obtain ⟨old, member, same⟩ := present
      exact ⟨old, member, by simp [same]⟩
    · exact ⟨other, member, by simp [different]⟩

/-- Replacing an item brings in no new key. -/
theorem key_of_mem_replace (member : other ∈ replace key item items) :
    ∃ old ∈ items, key old = key other := by
  obtain ⟨old, oldMem, rfl⟩ := List.mem_map.mp member
  refine ⟨old, oldMem, ?_⟩
  split
  · assumption
  · rfl

/-- A relation between the items that replacing one by `item` respects holds of the
new list too. -/
theorem pairwise_replace {R : α → α → Prop} (related : items.Pairwise R)
    (left : ∀ old ∈ items, key old = key item → ∀ x ∈ items, R old x → R item x)
    (right : ∀ old ∈ items, key old = key item → ∀ x ∈ items, R x old → R x item)
    (self : ∀ x ∈ items, ∀ y ∈ items, key x = key item → key y = key item → R x y → R item item) :
    (replace key item items).Pairwise R := by
  rw [replace, List.pairwise_map]
  refine related.imp_of_mem ?_
  intro x y xMem yMem rel
  by_cases xSame : key x = key item <;> by_cases ySame : key y = key item
  · simpa [xSame, ySame] using self x xMem y yMem xSame ySame rel
  · simpa [xSame, ySame] using left x xMem xSame y yMem rel
  · simpa [xSame, ySame] using right y yMem ySame x xMem rel
  · simpa [xSame, ySame] using rel

theorem pairwise_remove {R : α → α → Prop} (related : items.Pairwise R) :
    (remove key gone items).Pairwise R :=
  related.sublist List.filter_sublist

omit [DecidableEq κ] in
theorem eq_of_mem_of_key (distinct : items.Pairwise fun x y => key x ≠ key y)
    (member : item ∈ items) (otherMem : other ∈ items) (same : key item = key other) :
    item = other :=
  List.inj_on_of_nodup_map (List.pairwise_map.mpr distinct) member otherMem same

theorem nextOf_mem (found : nextOf key point items = some item) : item ∈ items := by
  induction items with
  | nil => simp [nextOf] at found
  | cons first rest ih =>
      rw [nextOf] at found
      split at found
      · exact List.mem_cons_of_mem _ (List.mem_of_mem_head? found)
      · exact List.mem_cons_of_mem _ (ih found)

theorem prevOf_mem (found : prevOf key point items = some item) : item ∈ items := by
  fun_induction prevOf key point items with
  | case1 first second rest same =>
      obtain rfl := Option.some.inj found
      exact List.mem_cons_self
  | case2 first second rest different ih => exact List.mem_cons_of_mem _ (ih found)
  | case3 => cases found

theorem nextOf_key (distinct : items.Pairwise fun x y => key x ≠ key y)
    (found : nextOf key point items = some item) : key item ≠ point := by
  induction items with
  | nil => simp [nextOf] at found
  | cons first rest ih =>
      rw [List.pairwise_cons] at distinct
      rw [nextOf] at found
      split at found
      · rename_i same
        rw [← same]
        exact (distinct.1 item (List.mem_of_mem_head? found)).symm
      · exact ih distinct.2 found

theorem prevOf_key (distinct : items.Pairwise fun x y => key x ≠ key y)
    (found : prevOf key point items = some item) : key item ≠ point := by
  fun_induction prevOf key point items with
  | case1 first second rest same =>
      obtain rfl := Option.some.inj found
      rw [← same]
      exact (List.pairwise_cons.mp distinct).1 second List.mem_cons_self
  | case2 first second rest different ih => exact ih (List.pairwise_cons.mp distinct).2 found
  | case3 => cases found

/-- The list from an item on starts with the item. -/
theorem onward_of_mem (distinct : items.Pairwise fun x y => key x ≠ key y)
    (member : item ∈ items) : ∃ rest, onward key (key item) items = item :: rest := by
  induction items with
  | nil => cases member
  | cons first rest ih =>
      rw [List.pairwise_cons] at distinct
      by_cases same : key first = key item
      · have equal : item = first := by
          rcases List.mem_cons.mp member with rfl | later
          · rfl
          · exact absurd same (distinct.1 item later)
        subst equal
        exact ⟨rest, by simp [onward]⟩
      · have later : item ∈ rest := by
          rcases List.mem_cons.mp member with rfl | later
          · exact absurd rfl same
          · exact later
        obtain ⟨tail, shape⟩ := ih distinct.2 later
        refine ⟨tail, ?_⟩
        rw [onward, List.dropWhile_cons_of_pos (by simpa using same)]
        exact shape

/-- What lies in front of an item. -/
theorem upTo_append_cons {front back : List α} (distinct : (front ++ item :: back).Pairwise fun x y => key x ≠ key y) :
    upTo key (key item) (front ++ item :: back) = front := by
  rw [List.pairwise_append] at distinct
  rw [upTo, List.takeWhile_append_of_pos, List.takeWhile_cons_of_neg (by simp), List.append_nil]
  intro other member
  simpa using distinct.2.2 other member item List.mem_cons_self

/-- The list from an item on. -/
theorem onward_append_cons {front back : List α} (distinct : (front ++ item :: back).Pairwise fun x y => key x ≠ key y) :
    onward key (key item) (front ++ item :: back) = item :: back := by
  have whole := upTo_append_onward key (key item) (front ++ item :: back)
  rw [upTo_append_cons distinct] at whole
  exact List.append_cancel_left whole

/-- An item of the list, with what lies in front of it and behind it; replacing and
removing act on the item alone. -/
theorem split_of_mem (distinct : items.Pairwise fun x y => key x ≠ key y) (member : item ∈ items) :
    ∃ front back, items = front ++ item :: back ∧
      (∀ other, key other = key item → replace key other items = front ++ other :: back) ∧
      remove key (key item) items = front ++ back := by
  obtain ⟨front, back, rfl⟩ := List.append_of_mem member
  rw [List.pairwise_append, List.pairwise_cons] at distinct
  have frontNe : ∀ x ∈ front, key x ≠ key item :=
    fun x xMem => distinct.2.2 x xMem item List.mem_cons_self
  have backNe : ∀ x ∈ back, key x ≠ key item := fun x xMem => (distinct.2.1.1 x xMem).symm
  refine ⟨front, back, rfl, ?_, ?_⟩
  · intro other same
    have unchanged : ∀ part : List α, (∀ x ∈ part, key x ≠ key item) →
        part.map (fun x => if key x = key other then other else x) = part := by
      intro part ne
      refine (List.map_congr_left ?_).trans (List.map_id _)
      intro x xMem
      simp [same, ne x xMem]
    rw [replace, List.map_append, List.map_cons, unchanged front frontNe, unchanged back backNe,
      if_pos same.symm]
  · rw [remove_append, remove, remove, List.filter_cons_of_neg (by simp),
      List.filter_eq_self.mpr (by simpa using frontNe), List.filter_eq_self.mpr (by simpa using backNe)]

end Dragonfly.Lib.Keyed
