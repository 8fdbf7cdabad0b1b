import Mathlib.Data.List.Forall2
import Mathlib.Data.List.TakeWhile
import Dragonfly.Lib.Outcome

/-!
# Loops that start over

A loop that changes the first element it hits and goes back to the start of the list.
What it makes of an element does not depend on the others: it leaves an element alone
or changes it once, and it does not end if a changed element is hit again.
-/

namespace Dragonfly.Lib

variable {α : Type}

/-- Change the first element that is hit, after a check, and start over. -/
def again (hit check : α → Bool) (change : α → α) : Nat → List α → Outcome (List α)
  | 0, _ => .more
  | fuel + 1, items =>
      match items.dropWhile (!hit ·) with
      | [] => .done items
      | item :: rest => .kkassert (check item)
          (again hit check change fuel (items.takeWhile (!hit ·) ++ change item :: rest))

/-- What the loop makes of a single element; nothing if the element fails the check or
is hit for ever. -/
def settle (hit check : α → Bool) (change : α → α) (item : α) : Option α :=
  if hit item then
    if check item && !hit (change item) then some (change item) else none
  else some item

/-- `step` makes the elements of one list into those of the other. -/
def Each (step : α → Option α) (items final : List α) : Prop :=
  List.Forall₂ (fun item result => step item = some result) items final

section Again

variable {hit check : α → Bool} {change : α → α} {items final : List α} {fuel : Nat}

theorem settle_of_miss {item : α} (miss : hit item = false) :
    settle hit check change item = some item := by
  simp [settle, miss]

theorem settle_eq_some_iff {item result : α} (found : hit item = true) :
    settle hit check change item = some result ↔
      check item = true ∧ hit (change item) = false ∧ change item = result := by
  simp [settle, found, and_assoc]

/-- Nothing is hit, or there is a first element that is. -/
theorem first_hit (hit : α → Bool) (items : List α) :
    (items.dropWhile (!hit ·) = [] ∧ ∀ item ∈ items, hit item = false) ∨
      ∃ item rest, items.dropWhile (!hit ·) = item :: rest ∧ hit item = true ∧
        items = items.takeWhile (!hit ·) ++ item :: rest := by
  cases left : items.dropWhile (!hit ·) with
  | nil =>
      refine .inl ⟨rfl, fun item member => ?_⟩
      simpa using List.dropWhile_eq_nil_iff.mp left item member
  | cons item rest =>
      refine .inr ⟨item, rest, rfl, ?_, ?_⟩
      · simpa [left] using List.head?_dropWhile_not (!hit ·) items
      · rw [← left, List.takeWhile_append_dropWhile]

theorem each_of_miss {step : α → Option α} (miss : ∀ item ∈ items, step item = some item) :
    Each step items items :=
  List.forall₂_same.mpr miss

theorem Each.eq_of_miss {step : α → Option α} (each : Each step items final)
    (miss : ∀ item ∈ items, step item = some item) : final = items := by
  induction each with
  | nil => rfl
  | cons first _ ih =>
      rw [miss _ List.mem_cons_self] at first
      rw [Option.some.inj first, ih fun item member => miss item (List.mem_cons_of_mem _ member)]

theorem each_append_cons_iff {step : α → Option α} {front rest : List α} {item : α} :
    Each step (front ++ item :: rest) final ↔ ∃ front' result rest',
      final = front' ++ result :: rest' ∧ Each step front front' ∧ step item = some result ∧
        Each step rest rest' := by
  constructor
  · intro each
    induction front generalizing final with
    | nil =>
        obtain ⟨result, rest', first, others, rfl⟩ := List.forall₂_cons_left_iff.mp each
        exact ⟨[], result, rest', rfl, .nil, first, others⟩
    | cons head front ih =>
        obtain ⟨headResult, others, first, tail, rfl⟩ := List.forall₂_cons_left_iff.mp each
        obtain ⟨front', result, rest', rfl, each, step, last⟩ := ih tail
        exact ⟨headResult :: front', result, rest', rfl, .cons first each, step, last⟩
  · rintro ⟨front', result, rest', rfl, each, step, last⟩
    exact List.rel_append each (.cons step last)

/-- A loop that has ended has settled every element. -/
theorem again_done (same : ∀ item other, hit (change item) = hit (change other))
    (done : again hit check change fuel items = .done final) :
    Each (settle hit check change) items final := by
  induction fuel generalizing items with
  | zero => exact absurd done (by simp [again])
  | succ fuel ih =>
      rcases first_hit hit items with ⟨left, miss⟩ | ⟨item, rest, left, found, split⟩
      · rw [again, left] at done
        simp only [Outcome.done.injEq] at done
        rw [← done]
        exact each_of_miss fun item member => settle_of_miss (miss item member)
      · rw [again, left] at done
        simp only [Outcome.kkassert_eq_done_iff] at done
        obtain ⟨checked, done⟩ := done
        obtain ⟨front, result, others, rfl, before, settled, after⟩ :=
          (each_append_cons_iff).mp (ih done)
        -- A changed element that is hit would be changed for ever.
        cases still : hit (change item) with
        | true =>
            obtain ⟨_, gone, _⟩ := (settle_eq_some_iff still).mp settled
            rw [same _ item, still] at gone
            contradiction
        | false =>
            rw [settle_of_miss still] at settled
            rw [split]
            refine (each_append_cons_iff).mpr ⟨front, result, others, rfl, before, ?_, after⟩
            exact (settle_eq_some_iff found).mpr ⟨checked, still, Option.some.inj settled⟩

/-- If every element settles, the loop ends after as many passes as elements are hit. -/
theorem done_again (each : Each (settle hit check change) items final)
    (enough : items.countP hit < fuel) : again hit check change fuel items = .done final := by
  induction fuel generalizing items with
  | zero => contradiction
  | succ fuel ih =>
      rcases first_hit hit items with ⟨left, miss⟩ | ⟨item, rest, left, found, split⟩
      · rw [each.eq_of_miss fun item member => settle_of_miss (miss item member), again, left]
      · rw [split] at each
        obtain ⟨front, result, others, rfl, before, settled, after⟩ :=
          (each_append_cons_iff).mp each
        obtain ⟨checked, gone, rfl⟩ := (settle_eq_some_iff found).mp settled
        rw [again, left]
        simp only [checked, Outcome.kkassert, if_true]
        refine ih ((each_append_cons_iff).mpr
          ⟨front, change item, others, rfl, before, settle_of_miss gone, after⟩) ?_
        rw [split, List.countP_append, List.countP_cons_of_pos found] at enough
        rw [List.countP_append, List.countP_cons_of_neg (by simp [gone])]
        omega

theorem Each.trans {first second : α → Option α} {middle : List α} (one : Each first items middle)
    (two : Each second middle final) : Each (fun item => (first item).bind second) items final := by
  induction one generalizing final with
  | nil =>
      cases two
      exact .nil
  | cons head tail ih =>
      obtain ⟨result, others, second, rest, rfl⟩ := List.forall₂_cons_left_iff.mp two
      exact .cons (Option.bind_eq_some_iff.mpr ⟨_, head, second⟩) (ih rest)

theorem Each.split {first second : α → Option α}
    (each : Each (fun item => (first item).bind second) items final) :
    ∃ middle, Each first items middle ∧ Each second middle final := by
  induction each with
  | nil => exact ⟨[], .nil, .nil⟩
  | cons head tail ih =>
      obtain ⟨middle, one, two⟩ := ih
      obtain ⟨item, first, second⟩ := Option.bind_eq_some_iff.mp head
      exact ⟨item :: middle, .cons first one, .cons second two⟩

theorem each_map_iff {change : α → α} :
    Each (fun item => some (change item)) items final ↔ items.map change = final := by
  simp only [Each, Option.some.injEq]
  rw [← List.forall₂_map_left_iff (f := change), List.forall₂_eq_eq_eq]

theorem Each.length_eq {step : α → Option α} (each : Each step items final) :
    items.length = final.length :=
  List.Forall₂.length_eq each

/-- Every element has a result of its own. -/
theorem each_exists_iff {step : α → Option α} {good : α → α → Prop} :
    (∃ final, Each step items final ∧ List.Forall₂ good items final) ↔
      ∀ item ∈ items, ∃ result, step item = some result ∧ good item result := by
  induction items with
  | nil => exact ⟨fun _ => nofun, fun _ => ⟨[], .nil, .nil⟩⟩
  | cons item items ih =>
      rw [List.forall_mem_cons, ← ih]
      constructor
      · rintro ⟨final, each, goods⟩
        obtain ⟨result, others, step, rest, rfl⟩ := List.forall₂_cons_left_iff.mp each
        obtain ⟨good, goodRest⟩ := List.forall₂_cons.mp goods
        exact ⟨⟨result, step, good⟩, others, rest, goodRest⟩
      · rintro ⟨⟨result, step, good⟩, others, rest, goodRest⟩
        exact ⟨result :: others, .cons step rest, .cons good goodRest⟩

end Again

end Dragonfly.Lib
