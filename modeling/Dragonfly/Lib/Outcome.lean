import Mathlib.Logic.Basic

/-!
# Outcomes of kernel functions

A failed assertion and a loop that has used up its fuel both end a computation
without a value; they are kept apart so that a result can exclude the first
without saying anything about the second.
-/

namespace Dragonfly.Lib

/-- Result of a kernel function: an assertion failed, a loop ran out of fuel, or
the function came back. -/
inductive Outcome (α : Type) where
  | panic
  | more
  | done (value : α)

namespace Outcome

variable {α β : Type}

/-- Continue with the value of a finished computation. -/
def bind (outcome : Outcome α) (next : α → Outcome β) : Outcome β :=
  match outcome with
  | panic => panic
  | more => more
  | done value => next value

/-- `KKASSERT(condition)` followed by `rest`. -/
def kkassert (condition : Bool) (rest : Outcome α) : Outcome α :=
  if condition then rest else panic

@[simp]
theorem bind_eq_done_iff {outcome : Outcome α} {next : α → Outcome β} {result : β} :
    outcome.bind next = done result ↔ ∃ value, outcome = done value ∧ next value = done result := by
  cases outcome <;> simp [bind]

theorem bind_eq_more_iff {outcome : Outcome α} {next : α → Outcome β} :
    outcome.bind next = more ↔ outcome = more ∨ ∃ value, outcome = done value ∧ next value = more := by
  cases outcome <;> simp [bind]

theorem kkassert_of {condition : Prop} [Decidable condition] (holds : condition)
    (rest : Outcome α) : kkassert (decide condition) rest = rest := by
  simp [kkassert, holds]

@[simp]
theorem kkassert_eq_done_iff {condition : Bool} {rest : Outcome α} {result : α} :
    kkassert condition rest = done result ↔ condition = true ∧ rest = done result := by
  cases condition <;> simp [kkassert]

@[simp]
theorem kkassert_eq_panic_iff {condition : Bool} {rest : Outcome α} :
    kkassert condition rest = panic ↔ condition = false ∨ rest = panic := by
  cases condition <;> simp [kkassert]

/-- The computation does not run out of fuel, and whatever it comes back with
satisfies `post`. -/
def Ends (post : α → Prop) : Outcome α → Prop
  | panic => True
  | more => False
  | done value => post value

theorem Ends.bind {post : α → Prop} {final : β → Prop} {outcome : Outcome α}
    {next : α → Outcome β} (ends : Ends post outcome)
    (continues : ∀ value, outcome = done value → post value → Ends final (next value)) :
    Ends final (outcome.bind next) := by
  cases outcome with
  | panic => trivial
  | more => exact ends
  | done value => exact continues value rfl ends

theorem Ends.kkassert {post : α → Prop} {condition : Bool} {rest : Outcome α}
    (ends : Ends post rest) : Ends post (kkassert condition rest) := by
  cases condition with
  | true => exact ends
  | false => trivial

theorem Ends.ne_more {post : α → Prop} {outcome : Outcome α} (ends : Ends post outcome) :
    outcome ≠ more := by
  rintro rfl
  exact ends

end Outcome

end Dragonfly.Lib
