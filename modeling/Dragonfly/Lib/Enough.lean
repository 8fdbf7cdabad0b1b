import Mathlib.Order.Lattice
import Dragonfly.Lib.Outcome

/-!
# Enough fuel

A function with loops takes its fuel first.  `Gives run result` says that it comes back with
`result` whenever there is enough of it, and so that it never fails and comes back with nothing
else.
-/

namespace Dragonfly.Lib

variable {α β : Type}

/-- With enough fuel the computation comes back with the result. -/
def Gives (run : Nat → Outcome α) (result : α) : Prop :=
  ∃ bound, ∀ fuel, bound ≤ fuel → run fuel = .done result

namespace Gives

variable {run next : Nat → Outcome α} {value other : α}

theorem pure (value : α) : Gives (fun _ => .done value) value :=
  ⟨0, fun _ _ => rfl⟩

theorem bind {rest : Nat → α → Outcome β} {result : β} (first : Gives run value)
    (second : Gives (fun fuel => rest fuel value) result) :
    Gives (fun fuel => (run fuel).bind (rest fuel)) result := by
  rcases first with ⟨bound, first⟩
  rcases second with ⟨bound', second⟩
  refine ⟨max bound bound', ?_⟩
  intro fuel enough
  have returned := first fuel ((le_max_left _ _).trans enough)
  simp only [returned, Outcome.bind]
  exact second fuel ((le_max_right _ _).trans enough)

/-- A pass of a loop takes one unit of fuel. -/
theorem pass (step : ∀ fuel, run (fuel + 1) = next fuel) (rest : Gives next value) :
    Gives run value := by
  rcases rest with ⟨bound, rest⟩
  refine ⟨bound + 1, ?_⟩
  intro fuel enough
  cases fuel with
  | zero => exact absurd enough (Nat.not_succ_le_zero bound)
  | succ fuel => exact (step fuel).trans (rest fuel (Nat.le_of_succ_le_succ enough))

/-- The last pass of a loop. -/
theorem last (step : ∀ fuel, run (fuel + 1) = .done value) : Gives run value :=
  pass step (pure value)

/-- The computation needs `bound` units of fuel. -/
theorem evaluated (bound : Nat) (eq : ∀ fuel, run (fuel + bound) = .done value) : Gives run value := by
  refine ⟨bound, ?_⟩
  intro fuel enough
  obtain ⟨rest, rfl⟩ := Nat.exists_eq_add_of_le' enough
  exact eq rest

theorem unique (first : Gives run value) (second : Gives run other) : value = other := by
  rcases first with ⟨bound, first⟩
  rcases second with ⟨bound', second⟩
  have same := (first (max bound bound') (le_max_left _ _)).symm.trans
    (second (max bound bound') (le_max_right _ _))
  exact Outcome.done.inj same

end Gives

end Dragonfly.Lib
