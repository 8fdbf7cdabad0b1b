import Mathlib.Data.List.Basic

/-!
# Finite runs of a labelled transition relation

A component is a relation `move state label next`.  A run is a finite list of
labels threaded through the relation, and an invariant of single moves is an
invariant of every run.  The guarded form restricts the labels a run may use in
the state in which it uses them.
-/

namespace Dragonfly.Lib

universe u v

variable {σ : Type u} {ℓ : Type v}

/-- `Run move source labels target`: the labels lead from `source` to `target`. -/
inductive Run (move : σ → ℓ → σ → Prop) : σ → List ℓ → σ → Prop where
  | nil (state : σ) : Run move state [] state
  | cons {state middle target : σ} {label : ℓ} {labels : List ℓ}
      (first : move state label middle) (rest : Run move middle labels target) :
      Run move state (label :: labels) target

namespace Run

variable {move : σ → ℓ → σ → Prop}

/-- Concatenation of runs. -/
theorem append {source middle target : σ} {front back : List ℓ}
    (first : Run move source front middle) (second : Run move middle back target) :
    Run move source (front ++ back) target := by
  induction first with
  | nil state => exact second
  | cons step rest ih => exact .cons step (ih second)

/-- What every move preserves, every run preserves. -/
theorem invariant {Inv : σ → Prop}
    (preserved : ∀ {state next label}, Inv state → move state label next → Inv next)
    {source target : σ} {labels : List ℓ}
    (run : Run move source labels target) (initial : Inv source) : Inv target := by
  induction run with
  | nil state => exact initial
  | cons step rest ih => exact ih (preserved initial step)

/-- Every run of a relation is a run of a weaker one. -/
theorem mono {weaker : σ → ℓ → σ → Prop}
    (implies : ∀ {state label next}, move state label next → weaker state label next)
    {source target : σ} {labels : List ℓ} (run : Run move source labels target) :
    Run weaker source labels target := by
  induction run with
  | nil state => exact .nil state
  | cons step rest ih => exact .cons (implies step) ih

/-- A label that finds what it needs `bound` times in a row can be repeated. -/
theorem replicate {Inv : Nat → σ → Prop} {label : ℓ} {bound : Nat}
    (step : ∀ {count state}, count < bound → Inv count state →
      ∃ next, move state label next ∧ Inv (count + 1) next)
    {source : σ} (initial : Inv 0 source) (count : Nat) (within : count ≤ bound) :
    ∃ target, Run move source (List.replicate count label) target ∧ Inv count target := by
  induction count with
  | zero => exact ⟨source, .nil source, initial⟩
  | succ count ih =>
      obtain ⟨middle, run, holds⟩ := ih (by omega)
      obtain ⟨next, last, after⟩ := step (by omega) holds
      refine ⟨next, ?_, after⟩
      rw [List.replicate_succ']
      exact run.append (.cons last (.nil next))

end Run

end Dragonfly.Lib
