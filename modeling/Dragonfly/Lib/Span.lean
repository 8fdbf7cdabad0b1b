import Mathlib.Algebra.Order.Ring.Int
import Mathlib.Order.Interval.Finset.Nat
import Mathlib.Algebra.BigOperators.Group.List.Basic
import Mathlib.Data.List.Pairwise

/-!
# Spans of a linear address space

A span is a start address and a length.  Spans that are pairwise apart and lie
inside a window cannot be longer together than the window.
-/

namespace Dragonfly.Lib

/-- The addresses `lo, …, lo + len - 1`. -/
structure Span where
  lo : Nat
  len : Nat
  deriving DecidableEq, Repr

namespace Span

/-- One past the last address. -/
def hi (span : Span) : Nat := span.lo + span.len

/-- The two spans share no address. -/
def Apart (first second : Span) : Prop := first.hi ≤ second.lo ∨ second.hi ≤ first.lo

instance (first second : Span) : Decidable (Apart first second) :=
  inferInstanceAs (Decidable (_ ∨ _))

theorem Apart.symm {first second : Span} (apart : Apart first second) : Apart second first :=
  Or.symm apart

/-- The set of addresses of a list of spans. -/
def cover (spans : List Span) : Finset Nat :=
  spans.foldr (fun span rest => Finset.Ico span.lo span.hi ∪ rest) ∅

theorem mem_cover {spans : List Span} {address : Nat} :
    address ∈ cover spans ↔ ∃ span ∈ spans, span.lo ≤ address ∧ address < span.hi := by
  induction spans with
  | nil => simp [cover]
  | cons span spans ih =>
      have step : cover (span :: spans) = Finset.Ico span.lo span.hi ∪ cover spans := rfl
      rw [step, Finset.mem_union, ih]
      simp

/-- Spans that are pairwise apart cover as many addresses as they are long. -/
theorem card_cover {spans : List Span} (apart : spans.Pairwise Apart) :
    (cover spans).card = (spans.map len).sum := by
  induction spans with
  | nil => rfl
  | cons span spans ih =>
      rw [List.pairwise_cons] at apart
      have step : cover (span :: spans) = Finset.Ico span.lo span.hi ∪ cover spans := rfl
      have disjoint : Disjoint (Finset.Ico span.lo span.hi) (cover spans) := by
        rw [Finset.disjoint_left]
        intro address inside covered
        obtain ⟨other, member, lower, upper⟩ := (mem_cover).mp covered
        rw [Finset.mem_Ico] at inside
        rcases apart.1 other member with before | after <;> omega
      rw [step, Finset.card_union_of_disjoint disjoint, ih apart.2, Nat.card_Ico]
      simp [hi]

/-- Pairwise apart spans inside a window fit into it together. -/
theorem sum_len_le {spans : List Span} {base bound : Nat} (apart : spans.Pairwise Apart)
    (inside : ∀ span ∈ spans, base ≤ span.lo ∧ span.hi ≤ base + bound) :
    (spans.map len).sum ≤ bound := by
  have subset : cover spans ⊆ Finset.Ico base (base + bound) := by
    intro address covered
    obtain ⟨span, member, lower, upper⟩ := (mem_cover).mp covered
    have window := inside span member
    rw [Finset.mem_Ico]
    omega
  calc (spans.map len).sum = (cover spans).card := (card_cover apart).symm
    _ ≤ (Finset.Ico base (base + bound)).card := Finset.card_le_card subset
    _ = bound := by simp

end Span

end Dragonfly.Lib
