import Mathlib.Data.List.Basic
import Mathlib.Data.List.Nodup

/-!
# Singly linked lists in memory

`Chain next nodes head`: starting from the pointer `head` and following `next`
one meets the nodes of the list, each of them non-NULL, and then NULL.  `Tail`
says that a tail pointer names the link field of the last node, or the list head
itself when there is no node.
-/

namespace Dragonfly.Lib

/-- The nodes met on the way from the pointer `head` to NULL. -/
def Chain (next : Nat → Nat) : List Nat → Nat → Prop
  | [], head => head = 0
  | node :: nodes, head => head = node ∧ node ≠ 0 ∧ Chain next nodes (next node)

/-- The tail pointer of a list: the field of its last node, the head when there is none. -/
def Tail (nodes : List Nat) (tail : Option Nat) : Prop := tail = nodes.getLast?

namespace Chain

variable {next next' : Nat → Nat} {nodes others : List Nat} {head node : Nat}

@[simp]
theorem nil_iff : Chain next [] head ↔ head = 0 := Iff.rfl

@[simp]
theorem cons_iff : Chain next (node :: nodes) head ↔ head = node ∧ node ≠ 0 ∧ Chain next nodes (next node) :=
  Iff.rfl

/-- Only the link fields of the nodes matter. -/
theorem congr (chain : Chain next nodes head) (same : ∀ node ∈ nodes, next' node = next node) :
    Chain next' nodes head := by
  induction nodes generalizing head with
  | nil => exact chain
  | cons node nodes ih =>
      obtain ⟨here, nonnull, rest⟩ := chain
      constructor
      · exact here
      · rw [same node List.mem_cons_self]
        exact ⟨nonnull, ih rest fun other member => same other (List.mem_cons_of_mem _ member)⟩

theorem eq_nil (chain : Chain next nodes 0) : nodes = [] := by
  cases nodes with
  | nil => rfl
  | cons node nodes => exact absurd chain.1.symm chain.2.1

theorem ne_nil (chain : Chain next nodes head) (nonnull : head ≠ 0) : nodes ≠ [] := by
  intro empty
  rw [empty] at chain
  exact nonnull chain

/-- A non-NULL pointer is the first node. -/
theorem uncons (chain : Chain next nodes head) (nonnull : head ≠ 0) :
    ∃ rest, nodes = head :: rest ∧ Chain next rest (next head) := by
  cases nodes with
  | nil => exact absurd chain nonnull
  | cons node rest =>
      obtain ⟨rfl, -, rest'⟩ := chain
      exact ⟨rest, rfl, rest'⟩

/-- Storing a chain in the link field of the last node appends it. -/
theorem append {last : Nat} (chain : Chain next nodes head) (final : nodes.getLast? = some last)
    (distinct : nodes.Nodup) (second : Chain next' others (next' last))
    (same : ∀ node ∈ nodes, node ≠ last → next' node = next node) :
    Chain next' (nodes ++ others) head := by
  induction nodes generalizing head with
  | nil => cases final
  | cons node nodes ih =>
      obtain ⟨here, nonnull, rest⟩ := chain
      rw [List.nodup_cons] at distinct
      rw [List.cons_append, cons_iff]
      constructor
      · exact here
      constructor
      · exact nonnull
      cases nodes with
      | nil =>
          obtain rfl : node = last := by simpa using final
          simpa using second
      | cons following nodes =>
          have member : last ∈ following :: nodes := List.mem_of_getLast? (by simpa using final)
          have other : node ≠ last := fun same => distinct.1 (same ▸ member)
          rw [same node List.mem_cons_self other]
          exact ih rest (by simpa using final) distinct.2
            fun node member => same node (List.mem_cons_of_mem _ member)

end Chain

namespace Tail

variable {nodes others : List Nat} {tail : Option Nat} {node : Nat}

theorem none_iff (tailOk : Tail nodes tail) : tail = none ↔ nodes = [] := by
  rw [tailOk, List.getLast?_eq_none_iff]

theorem cons (tailOk : Tail nodes tail) : Tail (node :: nodes) (if nodes = [] then some node else tail) := by
  cases nodes with
  | nil => rfl
  | cons other nodes =>
      rw [if_neg (List.cons_ne_nil other nodes)]
      exact tailOk

theorem uncons (tailOk : Tail (node :: nodes) tail) : Tail nodes (if nodes = [] then none else tail) := by
  cases nodes with
  | nil => rfl
  | cons other nodes =>
      rw [if_neg (List.cons_ne_nil other nodes)]
      exact tailOk

end Tail

end Dragonfly.Lib
