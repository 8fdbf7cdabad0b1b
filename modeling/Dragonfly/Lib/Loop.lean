import Dragonfly.Lib.Outcome

/-!
# Loops with fuel

A loop is given by its passes: `next state` is the state of the next pass, and
`none` means that the pass at `state` is the last one.  The loop does not end
exactly when it always has a next pass, and what it returns does not depend on
fuel it does not need.
-/

namespace Dragonfly.Lib

universe u

variable {σ : Type u} {α : Type}

/-- `loop` makes the passes described by `next`. -/
structure Passes (next : σ → Option σ) (loop : Nat → σ → Outcome α) : Prop where
  zero : ∀ state, loop 0 state = .more
  again : ∀ fuel state after, next state = some after → loop (fuel + 1) state = loop fuel after
  last : ∀ fuel state, next state = none → ∃ result, result ≠ Outcome.more ∧
    loop (fuel + 1) state = result ∧ loop 1 state = result

/-- No amount of fuel brings the loop to its end. -/
def Endless (loop : Nat → σ → Outcome α) (state : σ) : Prop := ∀ fuel, loop fuel state = .more

namespace Passes

variable {next : σ → Option σ} {loop : Nat → σ → Outcome α} {state : σ}

/-- An endless loop has a next pass, from which it is endless again. -/
theorem endless_iff (passes : Passes next loop) :
    Endless loop state ↔ ∃ after, next state = some after ∧ Endless loop after := by
  constructor
  · intro endless
    cases step : next state with
    | none =>
        obtain ⟨result, ends, same, _⟩ := passes.last 0 state step
        exact absurd (same.symm.trans (endless 1)) ends
    | some after =>
        refine ⟨after, rfl, ?_⟩
        intro fuel
        rw [← passes.again fuel state after step]
        exact endless (fuel + 1)
  · rintro ⟨after, step, endless⟩ fuel
    cases fuel with
    | zero => exact passes.zero state
    | succ fuel =>
        rw [passes.again fuel state after step]
        exact endless fuel

/-- A loop that can always go on inside a set of states is endless there. -/
theorem endless_of_invariant (passes : Passes next loop) (Inv : σ → Prop)
    (goes : ∀ state, Inv state → ∃ after, next state = some after ∧ Inv after)
    (initial : Inv state) : Endless loop state := by
  intro fuel
  induction fuel generalizing state with
  | zero => exact passes.zero state
  | succ fuel ih =>
      obtain ⟨after, step, kept⟩ := goes state initial
      rw [passes.again fuel state after step]
      exact ih kept

/-- More fuel does not change a result. -/
theorem stable (passes : Passes next loop) {fuel more : Nat} (enough : fuel ≤ more)
    (ends : loop fuel state ≠ .more) : loop more state = loop fuel state := by
  induction fuel generalizing state more with
  | zero => exact absurd (passes.zero state) ends
  | succ fuel ih =>
      obtain ⟨rest, rfl⟩ : ∃ rest, more = rest + 1 := ⟨more - 1, by omega⟩
      cases step : next state with
      | none =>
          obtain ⟨_, _, first, one⟩ := passes.last fuel state step
          obtain ⟨_, _, second, one'⟩ := passes.last rest state step
          rw [first, second, ← one, ← one']
      | some after =>
          rw [passes.again fuel state after step] at ends ⊢
          rw [passes.again rest state after step]
          exact ih (by omega) ends

/-- Two results of a loop are the same. -/
theorem unique (passes : Passes next loop) {fuel other : Nat} (ends : loop fuel state ≠ .more)
    (otherEnds : loop other state ≠ .more) : loop fuel state = loop other state := by
  rcases Nat.le_total fuel other with enough | enough
  · exact (passes.stable enough ends).symm
  · exact passes.stable enough otherEnds

/-- A loop that is not endless has a result, which any larger amount of fuel gives. -/
theorem exists_result (passes : Passes next loop) (ends : ¬ Endless loop state) :
    ∃ fuel result, result ≠ Outcome.more ∧ ∀ more, fuel ≤ more → loop more state = result := by
  obtain ⟨fuel, ends⟩ := not_forall.mp ends
  exact ⟨fuel, loop fuel state, ends, fun more enough => passes.stable enough ends⟩

end Passes

/-! ## A measure -/

/-- A count gets smaller if nothing new is counted and something is no longer. -/
theorem countP_lt_countP {α : Type u} {before after : α → Bool} {list : List α} {value : α}
    (keeps : ∀ value ∈ list, after value = true → before value = true) (member : value ∈ list)
    (counted : before value = true) (gone : after value = false) : list.countP after < list.countP before := by
  induction list with
  | nil => contradiction
  | cons first list ih =>
      have rest : list.countP after ≤ list.countP before :=
        List.countP_mono_left fun value inside => keeps value (List.mem_cons_of_mem _ inside)
      rw [List.countP_cons, List.countP_cons]
      rcases List.mem_cons.mp member with rfl | inside
      · simp only [counted, gone, Bool.false_eq_true, if_true, if_false]
        omega
      · have less := ih (fun value inside => keeps value (List.mem_cons_of_mem _ inside)) inside
        have here : (if after first = true then 1 else 0) ≤ if before first = true then 1 else 0 := by
          by_cases old : after first = true
          · simp only [old, keeps first List.mem_cons_self old, if_true, Nat.le_refl]
          · simp only [if_neg old, Nat.zero_le]
        omega

end Dragonfly.Lib
