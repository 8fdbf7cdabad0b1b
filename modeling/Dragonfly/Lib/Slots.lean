import Mathlib.Data.List.Basic
import Mathlib.Data.List.Nodup
import Mathlib.Data.Finset.Card
import Mathlib.Data.Finset.Range
import Mathlib.Order.Interval.Finset.Nat
import Mathlib.Tactic.SplitIfs
import Mathlib.Logic.Function.Basic

/-!
# A fixed number of slots with two kinds of free slot

A pool of `n` slots is handed out slot by slot.  A slot that came back is on a
list, a slot that was never handed out lies in a circular window: the slots after
`used`, round to the slot `last` at which the window began.  Slots given back by
somebody else wait on a second list until they are moved to the first one.

`Slots` says that the two lists and the window are exactly the slots of their
kind; the operations keep it, and the free slots are counted by the length of the
list and the length of the window.
-/

namespace Dragonfly.Lib

/-- Where a slot is: handed out, on the list, on the list of returned slots, or never used. -/
inductive Slot where
  | busy | near | far | fresh
  deriving DecidableEq, Repr

namespace Slot

/-! ## The circular window -/

/-- How far `i` is behind `last`, going round. -/
def rank (n last i : Nat) : Nat := (i + n - last) % n

/-- The slot after `i`, going round. -/
def next (n i : Nat) : Nat := if i + 1 ≠ n then i + 1 else 0

/-- How many slots lie strictly between `used` and `last`, going round. -/
def window (n last used : Nat) : Nat := (last + n - used - 1) % n

variable {n last used i j : Nat}

theorem rank_eq (inside : i < n) (bound : last < n) :
    rank n last i = if last ≤ i then i - last else i + n - last := by
  unfold rank
  split
  case isTrue above =>
    rw [show i + n - last = i - last + n by omega, Nat.add_mod_right, Nat.mod_eq_of_lt (by omega)]
  case isFalse below => exact Nat.mod_eq_of_lt (by omega)

theorem rank_lt (inside : i < n) : rank n last i < n := Nat.mod_lt _ (by omega)

theorem rank_inj (first : i < n) (second : j < n) (bound : last < n)
    (same : rank n last i = rank n last j) : i = j := by
  rw [rank_eq first bound, rank_eq second bound] at same
  split at same <;> split at same <;> omega

@[simp]
theorem rank_self (bound : last < n) : rank n last last = 0 := by
  rw [rank_eq bound bound, if_pos (Nat.le_refl last), Nat.sub_self]

theorem next_lt (inside : i < n) : next n i < n := by
  unfold next
  split <;> omega

/-- Unless it comes round to the beginning of the window, the next slot is one further on. -/
theorem rank_next (inside : i < n) (bound : last < n) (onwards : next n i ≠ last) :
    rank n last (next n i) = rank n last i + 1 := by
  rw [rank_eq (next_lt inside) bound, rank_eq inside bound]
  unfold next at *
  split_ifs at onwards ⊢ <;> omega

/-- The next slot is the beginning of the window only when the window is used up. -/
theorem next_eq_iff (inside : i < n) (bound : last < n) : next n i = last ↔ window n last i = 0 := by
  unfold next window
  constructor
  · intro same
    split at same
    · rw [show last + n - i - 1 = n by omega, Nat.mod_self]
    · rw [show last + n - i - 1 = 0 by omega, Nat.zero_mod]
  · intro empty
    split
    · by_contra other
      rcases Nat.lt_or_ge (last + n - i - 1) n with small | large
      · rw [Nat.mod_eq_of_lt small] at empty
        omega
      · rw [show last + n - i - 1 = last - i - 1 + n by omega, Nat.add_mod_right,
          Nat.mod_eq_of_lt (by omega)] at empty
        omega
    · rcases Nat.eq_zero_or_pos last with zero | positive
      · exact zero.symm
      · rw [show last + n - i - 1 = last by omega, Nat.mod_eq_of_lt bound] at empty
        omega

theorem window_eq (inside : used < n) (bound : last < n) : window n last used = n - 1 - rank n last used := by
  rw [rank_eq inside bound]
  unfold window
  split
  case isTrue above =>
    rw [Nat.mod_eq_of_lt (by omega)]
    omega
  case isFalse below =>
    rw [show last + n - used - 1 = last - used - 1 + n by omega, Nat.add_mod_right,
      Nat.mod_eq_of_lt (by omega)]
    omega

/-- Moving on takes one slot out of the window. -/
theorem window_next (inside : used < n) (bound : last < n) (onwards : next n used ≠ last) :
    window n last (next n used) + 1 = window n last used := by
  have step := rank_next inside bound onwards
  have below := @rank_lt _ last _ (next_lt inside)
  rw [window_eq (next_lt inside) bound, window_eq inside bound]
  omega

/-- The slots behind `used` are as many as the window is long. -/
theorem card_window (inside : used < n) (bound : last < n) :
    ((Finset.range n).filter fun i => rank n last used < rank n last i).card = window n last used := by
  have image : ((Finset.range n).filter fun i => rank n last used < rank n last i).image (rank n last) =
      (Finset.range n).filter fun k => rank n last used < k := by
    ext k
    simp only [Finset.mem_image, Finset.mem_filter, Finset.mem_range]
    constructor
    · rintro ⟨i, ⟨below, above⟩, rfl⟩
      exact ⟨rank_lt below, above⟩
    · rintro ⟨below, above⟩
      have place : (last + k) % n < n := Nat.mod_lt _ (by omega)
      have ranked : rank n last ((last + k) % n) = k := by
        rw [rank_eq place bound]
        rcases Nat.lt_or_ge (last + k) n with small | large
        · rw [Nat.mod_eq_of_lt small, if_pos (by omega)]
          omega
        · rw [show last + k = last + k - n + n by omega, Nat.add_mod_right, Nat.mod_eq_of_lt (by omega),
            if_neg (by omega)]
          omega
      exact ⟨(last + k) % n, ⟨place, by rw [ranked]; exact above⟩, ranked⟩
  have injective : Set.InjOn (rank n last)
      (((Finset.range n).filter fun i => rank n last used < rank n last i) : Finset Nat) := by
    intro i first j second same
    have first := Finset.mem_filter.mp (Finset.mem_coe.mp first)
    have second := Finset.mem_filter.mp (Finset.mem_coe.mp second)
    exact rank_inj (Finset.mem_range.mp first.1) (Finset.mem_range.mp second.1) bound same
  have interval : (Finset.range n).filter (fun k => rank n last used < k) =
      Finset.Ico (rank n last used + 1) n := by
    ext k
    simp only [Finset.mem_filter, Finset.mem_range, Finset.mem_Ico]
    omega
  rw [← Finset.card_image_of_injOn injective, image, interval, Nat.card_Ico, window_eq inside bound]
  omega

end Slot

open Slot (rank next window)

/-- `near` and `far` list the slots of their kind, the window holds the unused ones. -/
structure Slots (n last used : Nat) (kind : Nat → Slot) (near far : List Nat) : Prop where
  last_lt : last < n
  used_lt : used < n
  mem_near : ∀ i, i ∈ near ↔ i < n ∧ kind i = .near
  mem_far : ∀ i, i ∈ far ↔ i < n ∧ kind i = .far
  fresh_iff : ∀ i, i < n → (kind i = .fresh ↔ rank n last used < rank n last i)
  near_nodup : near.Nodup
  far_nodup : far.Nodup

namespace Slots

variable {n last used i : Nat} {kind : Nat → Slot} {near far : List Nat}

/-- A pool of which one slot has been handed out. -/
theorem init (inside : last < n) :
    Slots n last last (fun i => if i = last then .busy else .fresh) [] [] where
  last_lt := inside
  used_lt := inside
  mem_near i := by
    constructor
    · intro member
      cases member
    · rintro ⟨-, same⟩
      split at same <;> cases same
  mem_far i := by
    constructor
    · intro member
      cases member
    · rintro ⟨-, same⟩
      split at same <;> cases same
  fresh_iff i below := by
    rw [Slot.rank_self inside]
    constructor
    · intro fresh
      split at fresh
      · cases fresh
      · rename_i other
        rcases Nat.eq_zero_or_pos (rank n last i) with zero | positive
        · exact absurd (Slot.rank_inj below inside inside (zero.trans (Slot.rank_self inside).symm)) other
        · exact positive
    · intro behind
      rw [if_neg]
      rintro rfl
      rw [Slot.rank_self inside] at behind
      exact Nat.lt_irrefl 0 behind
  near_nodup := List.nodup_nil
  far_nodup := List.nodup_nil

/-- The first listed slot is handed out. -/
theorem take (slots : Slots n last used kind (i :: near) far) :
    Slots n last used (Function.update kind i .busy) near far where
  last_lt := slots.last_lt
  used_lt := slots.used_lt
  mem_near j := by
    have distinct := List.nodup_cons.mp slots.near_nodup
    have member := slots.mem_near j
    rw [List.mem_cons] at member
    rcases eq_or_ne j i with rfl | other
    · rw [Function.update_self]
      exact ⟨fun here => absurd here distinct.1, fun both => (nomatch both.2)⟩
    · rw [Function.update_of_ne other, ← member]
      exact ⟨.inr, fun either => either.resolve_left other⟩
  mem_far j := by
    rcases eq_or_ne j i with rfl | other
    · have listed := (slots.mem_near j).mp List.mem_cons_self
      rw [Function.update_self, slots.mem_far, listed.2]
      exact ⟨fun both => (nomatch both.2), fun both => (nomatch both.2)⟩
    · rw [Function.update_of_ne other, slots.mem_far]
  fresh_iff j below := by
    rcases eq_or_ne j i with rfl | other
    · have listed := (slots.mem_near j).mp List.mem_cons_self
      rw [Function.update_self, ← slots.fresh_iff j below, listed.2]
      exact ⟨fun same => (nomatch same), fun same => (nomatch same)⟩
    · rw [Function.update_of_ne other, slots.fresh_iff j below]
  near_nodup := (List.nodup_cons.mp slots.near_nodup).2
  far_nodup := slots.far_nodup

/-- The slot after `used` was never handed out, unless the window is used up. -/
theorem fresh_next (slots : Slots n last used kind near far) (onwards : next n used ≠ last) :
    kind (next n used) = .fresh := by
  rw [slots.fresh_iff _ (Slot.next_lt slots.used_lt), Slot.rank_next slots.used_lt slots.last_lt onwards]
  exact Nat.lt_succ_self _

/-- The first slot of the window is handed out. -/
theorem advance (slots : Slots n last used kind near far) (onwards : next n used ≠ last) :
    Slots n last (next n used) (Function.update kind (next n used) .busy) near far where
  last_lt := slots.last_lt
  used_lt := Slot.next_lt slots.used_lt
  mem_near j := by
    rcases eq_or_ne j (next n used) with rfl | other
    · rw [Function.update_self, slots.mem_near, slots.fresh_next onwards]
      exact ⟨fun both => (nomatch both.2), fun both => (nomatch both.2)⟩
    · rw [Function.update_of_ne other, slots.mem_near]
  mem_far j := by
    rcases eq_or_ne j (next n used) with rfl | other
    · rw [Function.update_self, slots.mem_far, slots.fresh_next onwards]
      exact ⟨fun both => (nomatch both.2), fun both => (nomatch both.2)⟩
    · rw [Function.update_of_ne other, slots.mem_far]
  fresh_iff j below := by
    have inside := Slot.next_lt slots.used_lt
    have step := Slot.rank_next slots.used_lt slots.last_lt onwards
    rcases eq_or_ne j (next n used) with rfl | other
    · rw [Function.update_self]
      exact ⟨fun same => (nomatch same), fun behind => absurd behind (Nat.lt_irrefl _)⟩
    · rw [Function.update_of_ne other, slots.fresh_iff j below, step]
      constructor
      · intro behind
        rcases Nat.lt_or_ge (rank n last used + 1) (rank n last j) with more | less
        · exact more
        · have same : rank n last j = rank n last (next n used) := by omega
          exact absurd (Slot.rank_inj below inside slots.last_lt same) other
      · exact fun behind => Nat.lt_of_succ_lt behind
  near_nodup := slots.near_nodup
  far_nodup := slots.far_nodup

/-- A slot comes back to the front of the list. -/
theorem give (slots : Slots n last used kind near far) (inside : i < n) (busy : kind i = .busy) :
    Slots n last used (Function.update kind i .near) (i :: near) far where
  last_lt := slots.last_lt
  used_lt := slots.used_lt
  mem_near j := by
    rw [List.mem_cons]
    rcases eq_or_ne j i with rfl | other
    · rw [Function.update_self]
      exact ⟨fun _ => ⟨inside, rfl⟩, fun _ => .inl rfl⟩
    · rw [Function.update_of_ne other, ← slots.mem_near]
      exact ⟨fun either => either.resolve_left other, .inr⟩
  mem_far j := by
    rcases eq_or_ne j i with rfl | other
    · rw [Function.update_self, slots.mem_far, busy]
      exact ⟨fun both => (nomatch both.2), fun both => (nomatch both.2)⟩
    · rw [Function.update_of_ne other, slots.mem_far]
  fresh_iff j below := by
    rcases eq_or_ne j i with rfl | other
    · rw [Function.update_self, ← slots.fresh_iff j below, busy]
      exact ⟨fun same => (nomatch same), fun same => (nomatch same)⟩
    · rw [Function.update_of_ne other, slots.fresh_iff j below]
  near_nodup := by
    refine List.nodup_cons.mpr ⟨fun member => ?_, slots.near_nodup⟩
    exact nomatch busy.symm.trans ((slots.mem_near i).mp member).2
  far_nodup := slots.far_nodup

/-- Seen from the other side the two lists change places. -/
theorem swap (slots : Slots n last used kind near far) :
    Slots n last used (fun i => match kind i with | .near => .far | .far => .near | other => other) far near where
  last_lt := slots.last_lt
  used_lt := slots.used_lt
  mem_near j := by
    rw [slots.mem_far]
    cases kind j <;> simp
  mem_far j := by
    rw [slots.mem_near]
    cases kind j <;> simp
  fresh_iff j below := by
    rw [← slots.fresh_iff j below]
    cases kind j <;> simp
  near_nodup := slots.far_nodup
  far_nodup := slots.near_nodup

/-- A slot comes back to the front of the list of returned slots. -/
theorem giveFar (slots : Slots n last used kind near far) (inside : i < n) (busy : kind i = .busy) :
    Slots n last used (Function.update kind i .far) near (i :: far) := by
  have crossed := (slots.swap.give inside (by simp [busy])).swap
  convert crossed using 1
  funext j
  rcases eq_or_ne j i with rfl | other
  · simp
  · simp only [Function.update_of_ne other]
    cases kind j <;> rfl

/-- All returned slots move to the end of the list. -/
theorem drain (slots : Slots n last used kind near far) :
    Slots n last used (fun i => if kind i = .far then .near else kind i) (near ++ far) [] where
  last_lt := slots.last_lt
  used_lt := slots.used_lt
  mem_near j := by
    rw [List.mem_append, slots.mem_near, slots.mem_far]
    cases kind j <;> simp
  mem_far j := by
    cases kind j <;> simp
  fresh_iff j below := by
    rw [← slots.fresh_iff j below]
    cases kind j <;> simp
  near_nodup := by
    refine List.nodup_append.mpr ⟨slots.near_nodup, slots.far_nodup, ?_⟩
    rintro j first k second rfl
    exact nomatch ((slots.mem_near j).mp first).2.symm.trans ((slots.mem_far j).mp second).2
  far_nodup := List.nodup_nil

/-- The slots on the list and in the window are those that are neither handed out nor returned. -/
theorem card_free (slots : Slots n last used kind near far) :
    ((Finset.range n).filter fun i => kind i ≠ .busy ∧ kind i ≠ .far).card = near.length + window n last used := by
  have split : (Finset.range n).filter (fun i => kind i ≠ .busy ∧ kind i ≠ .far) =
      near.toFinset ∪ (Finset.range n).filter fun i => rank n last used < rank n last i := by
    ext j
    simp only [Finset.mem_filter, Finset.mem_range, Finset.mem_union, List.mem_toFinset, slots.mem_near]
    constructor
    · rintro ⟨below, notBusy, notFar⟩
      rcases same : kind j with _ | _ | _ | _
      · exact absurd same notBusy
      · exact .inl ⟨below, rfl⟩
      · exact absurd same notFar
      · exact .inr ⟨below, (slots.fresh_iff j below).mp same⟩
    · rintro (⟨below, listed⟩ | ⟨below, behind⟩)
      · rw [listed]
        exact ⟨below, nofun, nofun⟩
      · rw [(slots.fresh_iff j below).mpr behind]
        exact ⟨below, nofun, nofun⟩
  have apart : Disjoint near.toFinset ((Finset.range n).filter fun i => rank n last used < rank n last i) := by
    rw [Finset.disjoint_left]
    intro j member behind
    have listed := (slots.mem_near j).mp (List.mem_toFinset.mp member)
    rw [Finset.mem_filter, ← slots.fresh_iff j listed.1, listed.2] at behind
    exact nomatch behind.2
  rw [split, Finset.card_union_of_disjoint apart, List.toFinset_card_of_nodup slots.near_nodup,
    Slot.card_window slots.used_lt slots.last_lt]

/-- With every slot free the count is the number of slots; a slot that is not lowers it. -/
theorem free_lt (slots : Slots n last used kind near far) (inside : i < n)
    (taken : kind i = .busy ∨ kind i = .far) : near.length + window n last used < n := by
  rw [← slots.card_free]
  have proper : (Finset.range n).filter (fun i => kind i ≠ .busy ∧ kind i ≠ .far) ⊂ Finset.range n := by
    refine Finset.filter_ssubset.mpr ⟨i, Finset.mem_range.mpr inside, fun both => ?_⟩
    rcases taken with busy | far
    · exact both.1 busy
    · exact both.2 far
  exact (Finset.card_lt_card proper).trans_eq (Finset.card_range n)

end Slots

end Dragonfly.Lib
