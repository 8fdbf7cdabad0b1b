import Dragonfly.Net.Sack.Model

/-!
# The search for a sequence number

In a list of blocks that are in order, the search finds the place of a number, whatever the
hint is.
-/

namespace Dragonfly.Net.Sack

open Dragonfly.Lib Dragonfly.Lib.Seq

variable {base seq : BitVec 32} {limit : Nat} {blocks front back rest : List SackBlock} {sb : SackBlock}

/-- The block is not empty and lies in the window. -/
def Inside (base : BitVec 32) (limit : Nat) (sb : SackBlock) : Prop :=
  ahead base sb.start < ahead base sb.stop ∧ ahead base sb.stop ≤ limit

/-- The first block ends in front of the second one. -/
def Before (base : BitVec 32) (first second : SackBlock) : Prop := ahead base first.stop < ahead base second.start

/-- The blocks are in order, in the window, and no two of them meet. -/
structure Chain (base : BitVec 32) (limit : Nat) (blocks : List SackBlock) : Prop where
  inside : ∀ sb ∈ blocks, Inside base limit sb
  order : blocks.Pairwise (Before base)

/-- No two blocks have the same address. -/
def Distinct (blocks : List SackBlock) : Prop := blocks.Pairwise fun first second => first.addr ≠ second.addr

/-- The hint is the address of a block of the list. -/
def Hinted (lastfound : Option Nat) (blocks : List SackBlock) : Prop :=
  ∀ addr, lastfound = some addr → addr ∈ blocks.map SackBlock.addr

/-- What a search says of a number: the blocks in front of it, and whether it is in the next
block. -/
inductive Placed (base seq : BitVec 32) (blocks : List SackBlock) : Option (Bool × Option Nat) → Prop where
  | within {front rest : List SackBlock} {sb : SackBlock} (split : blocks = front ++ sb :: rest)
      (low : ahead base sb.start ≤ ahead base seq) (high : ahead base seq < ahead base sb.stop) :
      Placed base seq blocks (some (true, some sb.addr))
  | between {front back : List SackBlock} (split : blocks = front ++ back)
      (low : ∀ sb ∈ front, ahead base sb.stop ≤ ahead base seq)
      (high : ∀ sb ∈ back, ahead base seq < ahead base sb.start) :
      Placed base seq blocks (some (false, lastAddr front))

theorem Chain.tail (chain : Chain base limit (sb :: rest)) : Chain base limit rest where
  inside other member := chain.inside other (List.mem_cons_of_mem _ member)
  order := (List.pairwise_cons.mp chain.order).2

theorem Chain.append_right (chain : Chain base limit (front ++ back)) : Chain base limit back where
  inside other member := chain.inside other (List.mem_append_right _ member)
  order := (List.pairwise_append.mp chain.order).2.1

theorem Chain.append_left (chain : Chain base limit (front ++ back)) : Chain base limit front where
  inside other member := chain.inside other (List.mem_append_left _ member)
  order := (List.pairwise_append.mp chain.order).1

/-- If a number is in front of a block, it is in front of all later ones. -/
theorem Chain.all_after (chain : Chain base limit (sb :: rest)) (above : ahead base seq < ahead base sb.start) :
    ∀ other ∈ sb :: rest, ahead base seq < ahead base other.start := by
  intro other member
  obtain rfl | later := List.mem_cons.mp member
  · exact above
  · have beyond : ahead base sb.stop < ahead base other.start := (List.pairwise_cons.mp chain.order).1 other later
    have inside := (chain.inside sb List.mem_cons_self).1
    omega

theorem lastAddr_concat (front : List SackBlock) (sb : SackBlock) : lastAddr (front ++ [sb]) = some sb.addr := by
  rw [lastAddr, List.getLast?_concat]
  rfl

section

variable (chain : Chain base limit blocks) (small : limit < 2 ^ 31) (near : ahead base seq < 2 ^ 31)

include chain small near

/-- The first block that ends behind the number decides. -/
theorem placed_of_gt {prior : List SackBlock} (split : blocks = prior ++ sb :: rest)
    (low : ∀ other ∈ prior, ahead base other.stop ≤ ahead base seq) (above : seqGt sb.stop seq = true) :
    Placed base seq blocks
      (if seqGeq seq sb.start = true then some (true, some sb.addr) else some (false, lastAddr prior)) := by
  have member : sb ∈ blocks := by
    rw [split]
    exact List.mem_append_right _ List.mem_cons_self
  obtain ⟨order, bound⟩ := chain.inside sb member
  rw [seqGt_iff (show ahead base sb.stop < 2 ^ 31 by omega) near] at above
  have start := seqGeq_iff near (show ahead base sb.start < 2 ^ 31 by omega)
  split
  · rename_i within
    exact .within split (start.mp within) above
  · rename_i outside
    refine .between split low ?_
    have below : ahead base seq < ahead base sb.start := by
      by_contra reached
      exact outside (start.mpr (by omega))
    rw [split] at chain
    exact chain.append_right.all_after below

theorem stop_le_of_not_gt (member : sb ∈ blocks) (notAbove : ¬seqGt sb.stop seq = true) :
    ahead base sb.stop ≤ ahead base seq := by
  have inside := (chain.inside sb member).2
  rw [seqGt_iff (show ahead base sb.stop < 2 ^ 31 by omega) near] at notAbove
  omega

/-- The search to the end of the list. -/
theorem lookupLoop_to_end {prior : List SackBlock} (some : rest ≠ []) (split : blocks = prior ++ rest)
    (low : ∀ other ∈ prior, ahead base other.stop ≤ ahead base seq) :
    Placed base seq blocks (lookupLoop seq none (lastAddr blocks) (lastAddr prior) rest) := by
  induction rest generalizing prior with
  | nil => exact absurd rfl some
  | cons cur rest ih =>
      rw [lookupLoop]
      have member : cur ∈ blocks := by
        rw [split]
        exact List.mem_append_right _ List.mem_cons_self
      by_cases above : seqGt cur.stop seq = true
      · rw [if_pos above]
        exact placed_of_gt chain small near split low above
      · rw [if_neg above]
        have split' : blocks = (prior ++ [cur]) ++ rest := by rw [split, List.append_assoc, List.singleton_append]
        have low' : ∀ other ∈ prior ++ [cur], ahead base other.stop ≤ ahead base seq := by
          intro other inside
          obtain old | new := List.mem_append.mp inside
          · exact low other old
          · rw [List.mem_singleton.mp new]
            exact stop_le_of_not_gt chain small near member above
        cases rest with
        | nil =>
            rw [if_pos (show Option.map SackBlock.addr ([] : List SackBlock).head? = none from rfl)]
            refine .between (List.append_nil blocks).symm ?_ fun other => nofun
            rw [split', List.append_nil]
            exact low'
        | cons next rest =>
            rw [if_neg (by simp), ← lastAddr_concat prior cur]
            exact ih (by simp) split' low'

/-- The search up to the hint. -/
theorem lookupLoop_to_hint (distinct : Distinct blocks) {prior middle : List SackBlock} {found : SackBlock}
    (split : blocks = prior ++ (middle ++ found :: back))
    (low : ∀ other ∈ prior, ahead base other.stop ≤ ahead base seq)
    (below : ahead base seq < ahead base found.start) :
    Placed base seq blocks
      (lookupLoop seq (some found.addr) (lastAddr (prior ++ middle)) (lastAddr prior) (middle ++ found :: back)) := by
  induction middle generalizing prior with
  | nil =>
      rw [List.nil_append] at split ⊢
      have member : found ∈ blocks := by
        rw [split]
        exact List.mem_append_right _ List.mem_cons_self
      obtain ⟨order, bound⟩ := chain.inside found member
      have above : seqGt found.stop seq = true :=
        (seqGt_iff (show ahead base found.stop < 2 ^ 31 by omega) near).mpr (by omega)
      rw [lookupLoop, if_pos above]
      exact placed_of_gt chain small near split low above
  | cons cur middle ih =>
      rw [List.cons_append] at split ⊢
      have member : cur ∈ blocks := by
        rw [split]
        exact List.mem_append_right _ List.mem_cons_self
      rw [lookupLoop]
      by_cases above : seqGt cur.stop seq = true
      · rw [if_pos above]
        exact placed_of_gt chain small near split low above
      · rw [if_neg above]
        have split' : blocks = (prior ++ [cur]) ++ (middle ++ found :: back) := by
          rw [split, List.append_assoc, List.singleton_append]
        have low' : ∀ other ∈ prior ++ [cur], ahead base other.stop ≤ ahead base seq := by
          intro other inside
          obtain old | new := List.mem_append.mp inside
          · exact low other old
          · rw [List.mem_singleton.mp new]
            exact stop_le_of_not_gt chain small near member above
        cases middle with
        | nil =>
            rw [List.nil_append] at split' ⊢
            rw [if_pos (show (found :: back).head?.map SackBlock.addr = some found.addr from rfl)]
            refine .between split' low' ?_
            rw [split'] at chain
            exact chain.append_right.all_after below
        | cons next middle =>
            have other : next.addr ≠ found.addr := by
              rw [split', Distinct, List.pairwise_append] at distinct
              exact (List.pairwise_cons.mp distinct.2.1).1 found (by simp)
            rw [if_neg (by simpa using other), ← lastAddr_concat prior cur,
              show prior ++ cur :: next :: middle = (prior ++ [cur]) ++ next :: middle by simp]
            exact ih split' low'

/-- Whatever the hint is, the search finds the place of the number. -/
theorem search_placed (distinct : Distinct blocks) (some : blocks ≠ []) {hint : Option Nat}
    (hinted : Hinted hint blocks) : Placed base seq blocks (search blocks hint seq) := by
  cases hint with
  | none => exact lookupLoop_to_end chain small near some (List.nil_append blocks).symm fun other => nofun
  | some addr =>
      obtain ⟨found, member, rfl⟩ := List.mem_map.mp (hinted addr rfl)
      obtain ⟨front, back, rfl⟩ := List.append_of_mem member
      rw [search]
      simp only [Keyed.onward_append_cons distinct, Keyed.upTo_append_cons distinct]
      have bound := chain.inside found member
      have start : ahead base found.start < 2 ^ 31 := by
        have := bound.1
        have := bound.2
        omega
      by_cases reached : seqGeq seq found.start = true
      · rw [if_pos reached]
        rw [seqGeq_iff near start] at reached
        refine lookupLoop_to_end chain small near (by simp) rfl ?_
        intro other inFront
        have order : ahead base other.stop < ahead base found.start :=
          (List.pairwise_append.mp chain.order).2.2 other inFront found List.mem_cons_self
        omega
      · rw [if_neg reached]
        rw [seqGeq_iff near start] at reached
        have split : front ++ found :: back = [] ++ (front ++ found :: back) := (List.nil_append _).symm
        exact lookupLoop_to_hint chain small near distinct split (fun other => nofun) (by omega)

end

end Dragonfly.Net.Sack
