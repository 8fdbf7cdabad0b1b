import Dragonfly.Net.Sack.Union
import Mathlib.Data.List.Count
import Mathlib.Algebra.BigOperators.Group.List.Basic

/-!
# The pipe

The sender estimates how much of what it has sent is still in the network.  The estimate is
made of two running differences over the blocks of the board, and of one number in front of
which everything counts as lost; the definition goes octet by octet.
-/

namespace Dragonfly.Net.Sack

open Dragonfly.Lib Dragonfly.Lib.Seq

/-- `update_lostseq` -/
def updateLostseq (scb : Scoreboard) (sndUna : BitVec 32) (maxseg : Nat) : Scoreboard :=
  { scb with lostseq := lostLoop sndUna maxseg scb.blocks.reverse 0 0 }

/-- `seq_min` -/
def seqMin (s t : BitVec 32) : BitVec 32 := if seqLt s t then s else t

/-- The loop of `tcp_sack_compute_pipe` -/
def pipeLoop (lostseq rexmtHigh : BitVec 32) : List SackBlock → BitVec 32 → BitVec 32 → BitVec 32
  | [], nlost, nretransmitted => nlost + nretransmitted
  | sb :: rest, nlost, nretransmitted =>
      let nretransmitted :=
        if seqLt sb.start rexmtHigh then nretransmitted - (seqMin sb.stop rexmtHigh - sb.start) else nretransmitted
      let nlost := if seqGeq sb.start lostseq then nlost - (sb.stop - sb.start) else nlost
      pipeLoop lostseq rexmtHigh rest nlost nretransmitted

/-- `tcp_sack_compute_pipe` -/
def tcpSackComputePipe (tp : Tcpcb) : BitVec 32 :=
  pipeLoop tp.scb.lostseq tp.rexmtHigh tp.scb.blocks (tp.sndMax - tp.scb.lostseq) (tp.rexmtHigh - tp.sndUna)

/-! ## The definition -/

/-- The number of octets in a block. -/
def SackBlock.octets (base : BitVec 32) (sb : SackBlock) : Nat := ahead base sb.stop - ahead base sb.start

/-- The number of octets in all blocks. -/
def octets (base : BitVec 32) (blocks : List SackBlock) : Nat := (blocks.map (SackBlock.octets base)).sum

/-- That many blocks, or that many octets in them, say that something is lost. -/
def Enough (base : BitVec 32) (maxseg : Nat) (blocks : List SackBlock) : Prop :=
  tcprexmtthresh ≤ blocks.length ∨ tcprexmtthresh * maxseg ≤ octets base blocks

instance (base : BitVec 32) (maxseg : Nat) (blocks : List SackBlock) : Decidable (Enough base maxseg blocks) :=
  inferInstanceAs (Decidable (_ ∨ _))

/-- The blocks above a position. -/
def above (base : BitVec 32) (blocks : List SackBlock) (position : Nat) : List SackBlock :=
  blocks.filter fun sb => position < ahead base sb.start

/-- `IsLost`: enough has been acknowledged above the octet. -/
def IsLost (base : BitVec 32) (maxseg : Nat) (blocks : List SackBlock) (position : Nat) : Prop :=
  Enough base maxseg (above base blocks position)

instance (base : BitVec 32) (maxseg : Nat) (blocks : List SackBlock) (position : Nat) :
    Decidable (IsLost base maxseg blocks position) := inferInstanceAs (Decidable (Enough _ _ _))

instance (base : BitVec 32) (sb : SackBlock) (position : Nat) : Decidable (sb.Has base position) :=
  inferInstanceAs (Decidable (_ ∧ _))

instance (base : BitVec 32) (blocks : List SackBlock) (position : Nat) : Decidable (Sacked base blocks position) :=
  inferInstanceAs (Decidable (∃ _ ∈ _, _))

/-- What an octet adds to the pipe. -/
def pipeOctet (tp : Tcpcb) (position : Nat) : Nat :=
  if Sacked tp.sndUna tp.scb.blocks position then 0
  else
    (if IsLost tp.sndUna tp.maxseg tp.scb.blocks position then 0 else 1) +
      if position < ahead tp.sndUna tp.rexmtHigh then 1 else 0

/-- `SetPipe`: the sum over the octets that are outstanding. -/
def setPipe (tp : Tcpcb) : Nat := ((List.range (ahead tp.sndUna tp.sndMax)).map (pipeOctet tp)).sum

variable {base rexmtHigh lostseq : BitVec 32} {limit maxseg n : Nat} {blocks front back rest : List SackBlock}
  {sb : SackBlock}

/-! ## Counting -/

theorem countP_interval (a b n : Nat) : (List.range n).countP (fun p => decide (a ≤ p ∧ p < b)) = min b n - a := by
  induction n with
  | zero => simp
  | succ n ih =>
      rw [List.range_succ, List.countP_append, ih, List.countP_singleton]
      by_cases inside : a ≤ n ∧ n < b
      · rw [if_pos (decide_eq_true inside)]
        omega
      · rw [if_neg (by simpa using inside)]
        omega

theorem countP_or {α : Type} {p q : α → Prop} [DecidablePred p] [DecidablePred q] (apart : ∀ x, p x → ¬q x)
    (list : List α) :
    list.countP (fun x => decide (p x ∨ q x)) = list.countP (fun x => decide (p x)) + list.countP (fun x => decide (q x)) := by
  induction list with
  | nil => rfl
  | cons x list ih =>
      rw [List.countP_cons, List.countP_cons, List.countP_cons, ih]
      by_cases first : p x
      · simp only [first, apart x first, decide_true, if_true, true_or, decide_false, Bool.false_eq_true, if_false]
        omega
      · simp only [first, false_or, decide_false, Bool.false_eq_true, if_false]
        omega

/-- The positions in front of `n` that are in a block. -/
theorem countP_sacked (chain : Chain base limit blocks) (n : Nat) :
    (List.range n).countP (fun p => decide (Sacked base blocks p)) =
      (blocks.map fun sb => min (ahead base sb.stop) n - ahead base sb.start).sum := by
  induction blocks with
  | nil => simp
  | cons sb rest ih =>
      have apart : ∀ p, sb.Has base p → ¬Sacked base rest p := by
        intro p has sacked
        have behind := chain.sacked_tail sacked
        have inside := has.2
        omega
      simp only [sacked_cons]
      rw [countP_or apart, ih chain.tail, List.map_cons, List.sum_cons]
      exact congrArg (· + _) (countP_interval _ _ n)

/-- The positions in front of `n` that are in no block. -/
def free (base : BitVec 32) (blocks : List SackBlock) (n : Nat) : Nat :=
  (List.range n).countP fun p => decide (¬Sacked base blocks p)

theorem free_mono {m : Nat} (le : m ≤ n) : free base blocks m ≤ free base blocks n :=
  (List.range_sublist.mpr le).countP_le

/-- The octets of the blocks in front of a position. -/
def octetsBelow (base : BitVec 32) (blocks : List SackBlock) (n : Nat) : Nat :=
  (blocks.map fun sb => min (ahead base sb.stop) n - ahead base sb.start).sum

theorem free_add (chain : Chain base limit blocks) (n : Nat) : free base blocks n + octetsBelow base blocks n = n := by
  have whole : (List.range n).length = _ := List.length_eq_countP_add_countP fun p => decide (Sacked base blocks p)
  rw [List.length_range, countP_sacked chain] at whole
  simp only [decide_eq_true_eq] at whole
  unfold free octetsBelow
  omega

theorem countP_lt {q : Nat → Prop} [DecidablePred q] {bound : Nat} (le : bound ≤ n) :
    (List.range n).countP (fun p => decide (q p ∧ p < bound)) = (List.range bound).countP fun p => decide (q p) := by
  induction n, le using Nat.le_induction with
  | base =>
      refine List.countP_congr fun p member => ?_
      simp [List.mem_range.mp member]
  | succ n le ih =>
      rw [List.range_succ, List.countP_append, ih, List.countP_singleton]
      simp [Nat.not_lt.mpr le]

theorem countP_not_lt {q : Nat → Prop} [DecidablePred q] {bound : Nat} (le : bound ≤ n) :
    (List.range n).countP (fun p => decide (q p ∧ ¬p < bound)) + (List.range bound).countP (fun p => decide (q p)) =
      (List.range n).countP fun p => decide (q p) := by
  rw [← countP_lt le, ← countP_or fun p first second => first.2 second.2]
  refine List.countP_congr fun p _ => ?_
  simp only [decide_eq_true_eq]
  tauto

/-- The sum of the octets, counted by what they add. -/
theorem sum_octets {s l r : Nat → Prop} [DecidablePred s] [DecidablePred l] [DecidablePred r] (list : List Nat) :
    (list.map fun p => if s p then 0 else (if l p then 0 else 1) + if r p then 1 else 0).sum =
      list.countP (fun p => decide (¬s p ∧ ¬l p)) + list.countP (fun p => decide (¬s p ∧ r p)) := by
  induction list with
  | nil => rfl
  | cons p list ih =>
      rw [List.map_cons, List.sum_cons, ih, List.countP_cons, List.countP_cons]
      by_cases sacked : s p <;> by_cases lost : l p <;> by_cases again : r p <;> simp [sacked, lost, again] <;> omega

/-! ## The first number that is not lost -/

/-- What `update_lostseq` settles on: the start of the first block with enough above it and in
it, or `snd_una`. -/
inductive Threshold (base : BitVec 32) (maxseg : Nat) (blocks : List SackBlock) : BitVec 32 → Prop where
  | nothing (few : ¬Enough base maxseg blocks) : Threshold base maxseg blocks base
  | block {front back : List SackBlock} {sb : SackBlock} (split : blocks = front ++ sb :: back)
      (few : ¬Enough base maxseg back) (enough : Enough base maxseg (sb :: back)) :
      Threshold base maxseg blocks sb.start

theorem octetsBelow_limit (chain : Chain base limit blocks) : octetsBelow base blocks limit = octets base blocks := by
  unfold octetsBelow octets
  refine congrArg List.sum (List.map_congr_left fun sb member => ?_)
  have bound := (chain.inside sb member).2
  rw [SackBlock.octets, Nat.min_eq_left bound]

theorem octets_le (chain : Chain base limit blocks) : octets base blocks ≤ limit := by
  have whole := free_add chain limit
  rw [octetsBelow_limit chain] at whole
  omega

theorem octets_eq (inside : Inside base limit sb) : (sb.stop - sb.start).toNat = sb.octets base := by
  exact ahead_of_le inside.1.le

theorem octets_cons (sb : SackBlock) (rest : List SackBlock) :
    octets base (sb :: rest) = sb.octets base + octets base rest := by
  rw [octets, List.map_cons, List.sum_cons, octets]

/-- The loop goes down from the last block. -/
theorem lostLoop_threshold (chain : Chain base limit blocks) (small : limit < 2 ^ 31)
    (segments : tcprexmtthresh * maxseg < 2 ^ 32) {rev : List SackBlock} {bytesSacked : BitVec 32}
    (split : blocks = rev.reverse ++ back) (few : ¬Enough base maxseg back)
    (bytes : bytesSacked.toNat = octets base back) :
    Threshold base maxseg blocks (lostLoop base maxseg rev back.length bytesSacked) := by
  induction rev generalizing back bytesSacked with
  | nil =>
      rw [List.reverse_nil, List.nil_append] at split
      exact .nothing (split ▸ few)
  | cons sb rev ih =>
      have split' : blocks = rev.reverse ++ sb :: back := by
        rw [split, List.reverse_cons, List.append_assoc, List.singleton_append]
      have right : Chain base limit (sb :: back) := (split' ▸ chain).append_right
      have total := octets_le right
      have sacked : (bytesSacked + (sb.stop - sb.start)).toNat = octets base (sb :: back) := by
        rw [octets_cons] at total ⊢
        rw [BitVec.toNat_add, octets_eq (right.inside sb List.mem_cons_self), bytes, Nat.mod_eq_of_lt (by omega)]
        omega
      have met : (back.length + 1 = tcprexmtthresh ∨ tcprexmtthresh * maxseg % 2 ^ 32 ≤
          (bytesSacked + (sb.stop - sb.start)).toNat) ↔ Enough base maxseg (sb :: back) := by
        rw [sacked, Nat.mod_eq_of_lt segments, Enough, List.length_cons]
        have short : ¬tcprexmtthresh ≤ back.length := fun long => few (.inl long)
        omega
      rw [lostLoop]
      by_cases stop : Enough base maxseg (sb :: back)
      · rw [if_pos (met.mpr stop)]
        exact .block split' few stop
      · rw [if_neg (fun now => stop (met.mp now))]
        exact ih split' stop sacked

theorem octets_mono {others : List SackBlock} (part : blocks.Sublist others) : octets base blocks ≤ octets base others := by
  induction part with
  | slnil => exact le_rfl
  | cons sb part ih =>
      rw [octets_cons]
      omega
  | cons_cons sb part ih =>
      rw [octets_cons, octets_cons]
      omega

theorem Enough.mono {others : List SackBlock} (enough : Enough base maxseg blocks) (part : blocks.Sublist others) :
    Enough base maxseg others := by
  have longer := part.length_le
  have more : octets base blocks ≤ octets base others := octets_mono part
  rcases enough with enough | enough
  · exact .inl (enough.trans longer)
  · exact .inr (enough.trans more)

/-- An octet is lost if and only if it is in front of the number. -/
theorem Threshold.isLost_iff (chain : Chain base limit blocks) (threshold : Threshold base maxseg blocks lostseq)
    (position : Nat) : IsLost base maxseg blocks position ↔ position < ahead base lostseq := by
  cases threshold with
  | nothing few =>
      rw [ahead_self]
      exact ⟨fun lost => absurd (lost.mono List.filter_sublist) few, fun lt => absurd lt (Nat.not_lt_zero _)⟩
  | @block front back sb split few enough =>
      subst split
      constructor
      · intro lost
        by_contra behind
        -- the blocks above the octet are behind this one
        refine few (lost.mono ?_)
        have none : above base (front ++ [sb]) position = [] := by
          rw [above, List.filter_eq_nil_iff]
          intro other member
          rw [List.append_cons] at chain
          have order := (chain.append_left.inside other member).1
          have start : ahead base other.start ≤ ahead base sb.start := by
            rcases List.mem_append.mp member with inFront | here
            · have before : ahead base other.stop < ahead base sb.start :=
                (List.pairwise_append.mp chain.append_left.order).2.2 other inFront sb List.mem_cons_self
              omega
            · rw [List.mem_singleton.mp here]
          simp only [decide_eq_true_eq]
          omega
        rw [above, List.append_cons, List.filter_append]
        rw [above] at none
        rw [none, List.nil_append]
        exact List.filter_sublist
      · intro front
        refine Enough.mono enough ?_
        rw [above, List.filter_append, List.filter_eq_self.mpr (show ∀ other ∈ sb :: back, _ from ?_)]
        · exact List.sublist_append_right _ _
        · intro other member
          rcases List.mem_cons.mp member with rfl | later
          · exact decide_eq_true front
          · have before : ahead base sb.stop < ahead base other.start :=
              (List.pairwise_cons.mp chain.append_right.order).1 other later
            have order := (chain.append_right.inside sb List.mem_cons_self).1
            exact decide_eq_true (by omega)

/-! ## The two running differences -/

/-- The octets of the blocks that start at a position or behind it. -/
def octetsFrom (base : BitVec 32) (blocks : List SackBlock) (n : Nat) : Nat :=
  (blocks.map fun sb => if n ≤ ahead base sb.start then sb.octets base else 0).sum

theorem sub_ofNat_sub (x : BitVec 32) (a b : Nat) :
    x - BitVec.ofNat 32 a - BitVec.ofNat 32 b = x - BitVec.ofNat 32 (a + b) := by
  rw [BitVec.ofNat_add]
  bv_omega

theorem eq_ofNat {x : BitVec 32} {a : Nat} (is : x.toNat = a) : x = BitVec.ofNat 32 a := by
  rw [← is, BitVec.ofNat_toNat, BitVec.setWidth_eq]

/-- The part of a block in front of a number. -/
theorem seqMin_sub (inside : Inside base limit sb) (small : limit < 2 ^ 31) (near : ahead base rexmtHigh < 2 ^ 31)
    (front : ahead base sb.start < ahead base rexmtHigh) :
    (seqMin sb.stop rexmtHigh - sb.start).toNat = min (ahead base sb.stop) (ahead base rexmtHigh) - ahead base sb.start := by
  obtain ⟨order, bound⟩ := inside
  have shorter := @seqLt_iff base sb.stop rexmtHigh (by omega) near
  unfold seqMin
  split
  · rename_i lt
    rw [shorter] at lt
    rw [Nat.min_eq_left lt.le]
    exact ahead_of_le order.le
  · rename_i ge
    rw [shorter] at ge
    rw [Nat.min_eq_right (by omega)]
    exact ahead_of_le front.le

theorem pipeLoop_eq (chain : Chain base limit blocks) (small : limit < 2 ^ 31) (near : ahead base rexmtHigh < 2 ^ 31)
    (nearLost : ahead base lostseq < 2 ^ 31) (nlost nretransmitted : BitVec 32) :
    pipeLoop lostseq rexmtHigh blocks nlost nretransmitted =
      (nlost - BitVec.ofNat 32 (octetsFrom base blocks (ahead base lostseq))) +
        (nretransmitted - BitVec.ofNat 32 (octetsBelow base blocks (ahead base rexmtHigh))) := by
  induction blocks generalizing nlost nretransmitted with
  | nil => simp [pipeLoop, octetsFrom, octetsBelow]
  | cons sb rest ih =>
      have inside := chain.inside sb List.mem_cons_self
      obtain ⟨order, bound⟩ := inside
      have again := @seqLt_iff base sb.start rexmtHigh (by omega) near
      have lost := @seqGeq_iff base sb.start lostseq (by omega) nearLost
      rw [pipeLoop, ih chain.tail]
      have retransmitted : (if seqLt sb.start rexmtHigh then nretransmitted - (seqMin sb.stop rexmtHigh - sb.start)
          else nretransmitted) = nretransmitted -
            BitVec.ofNat 32 (min (ahead base sb.stop) (ahead base rexmtHigh) - ahead base sb.start) := by
        split
        · rename_i lt
          rw [again] at lt
          rw [← eq_ofNat (seqMin_sub ⟨order, bound⟩ small near lt)]
        · rename_i ge
          rw [again] at ge
          have none : min (ahead base sb.stop) (ahead base rexmtHigh) - ahead base sb.start = 0 := by omega
          rw [none]
          simp
      have sacked : (if seqGeq sb.start lostseq then nlost - (sb.stop - sb.start) else nlost) =
          nlost - BitVec.ofNat 32 (if ahead base lostseq ≤ ahead base sb.start then sb.octets base else 0) := by
        split
        · rename_i ge
          rw [lost] at ge
          rw [if_pos ge, ← eq_ofNat (octets_eq ⟨order, bound⟩)]
        · rename_i lt
          rw [lost] at lt
          rw [if_neg lt]
          simp
      simp only [retransmitted, sacked, sub_ofNat_sub]
      rfl

/-- No block goes over the number. -/
theorem Threshold.boundary (chain : Chain base limit blocks) (threshold : Threshold base maxseg blocks lostseq) :
    ∀ sb ∈ blocks, ahead base lostseq ≤ ahead base sb.start ∨ ahead base sb.stop ≤ ahead base lostseq := by
  intro other member
  cases threshold with
  | nothing few =>
      rw [ahead_self]
      exact .inl (Nat.zero_le _)
  | @block front back sb split few enough =>
      subst split
      rcases List.mem_append.mp member with inFront | inBack
      · have before : ahead base other.stop < ahead base sb.start :=
          (List.pairwise_append.mp chain.order).2.2 other inFront sb List.mem_cons_self
        exact .inr before.le
      · exact .inl (chain.append_right.all_start_le le_rfl other inBack)

theorem Threshold.le (chain : Chain base limit blocks) (threshold : Threshold base maxseg blocks lostseq) :
    ahead base lostseq ≤ limit := by
  cases threshold with
  | nothing few =>
      rw [ahead_self]
      exact Nat.zero_le _
  | @block front back sb split few enough =>
      subst split
      obtain ⟨order, bound⟩ := chain.inside sb (by simp)
      omega

/-- At a boundary the octets divide. -/
theorem octets_split (chain : Chain base limit blocks) {n : Nat}
    (boundary : ∀ sb ∈ blocks, n ≤ ahead base sb.start ∨ ahead base sb.stop ≤ n) :
    octetsBelow base blocks limit = octetsBelow base blocks n + octetsFrom base blocks n := by
  induction blocks with
  | nil => rfl
  | cons sb rest ih =>
      have rests := ih chain.tail fun other member => boundary other (List.mem_cons_of_mem _ member)
      obtain ⟨order, bound⟩ := chain.inside sb List.mem_cons_self
      have here := boundary sb List.mem_cons_self
      simp only [octetsBelow, octetsFrom, List.map_cons, List.sum_cons, SackBlock.octets] at rests ⊢
      split
      · omega
      · omega

/-! ## The estimate -/

/-- The octets of the definition, counted. -/
theorem setPipe_eq {tp : Tcpcb} (chain : Chain tp.sndUna (ahead tp.sndUna tp.sndMax) tp.scb.blocks)
    (threshold : Threshold tp.sndUna tp.maxseg tp.scb.blocks lostseq)
    (high : ahead tp.sndUna tp.rexmtHigh ≤ ahead tp.sndUna tp.sndMax) :
    setPipe tp + free tp.sndUna tp.scb.blocks (ahead tp.sndUna lostseq) =
      free tp.sndUna tp.scb.blocks (ahead tp.sndUna tp.sndMax) +
        free tp.sndUna tp.scb.blocks (ahead tp.sndUna tp.rexmtHigh) := by
  have sum := @sum_octets (Sacked tp.sndUna tp.scb.blocks) (IsLost tp.sndUna tp.maxseg tp.scb.blocks)
    (· < ahead tp.sndUna tp.rexmtHigh) _ _ _ (List.range (ahead tp.sndUna tp.sndMax))
  have pipe : setPipe tp = _ := sum
  have lost : (List.range (ahead tp.sndUna tp.sndMax)).countP (fun p => decide
      (¬Sacked tp.sndUna tp.scb.blocks p ∧ ¬IsLost tp.sndUna tp.maxseg tp.scb.blocks p)) =
        (List.range (ahead tp.sndUna tp.sndMax)).countP (fun p => decide
          (¬Sacked tp.sndUna tp.scb.blocks p ∧ ¬p < ahead tp.sndUna lostseq)) := by
    refine List.countP_congr fun p _ => ?_
    rw [decide_eq_true_eq, decide_eq_true_eq, threshold.isLost_iff chain]
  have below := @countP_not_lt _ (fun p => ¬Sacked tp.sndUna tp.scb.blocks p) _ _ (threshold.le chain)
  have again := @countP_lt _ (fun p => ¬Sacked tp.sndUna tp.scb.blocks p) _ _ high
  unfold free
  omega

theorem updateLostseq_threshold {scb : Scoreboard} (board : Board base limit scb) (small : limit < 2 ^ 31)
    (positive : 0 < maxseg) (segments : tcprexmtthresh * maxseg < 2 ^ 32) :
    Threshold base maxseg scb.blocks (updateLostseq scb base maxseg).lostseq := by
  have few : ¬Enough base maxseg [] := by
    rintro (long | large)
    · exact absurd long (by decide)
    · have zero : tcprexmtthresh * maxseg ≤ 0 := large
      rw [tcprexmtthresh] at zero
      omega
  refine @lostLoop_threshold base limit maxseg scb.blocks [] board.chain small segments scb.blocks.reverse 0 ?_ few rfl
  rw [List.reverse_reverse, List.append_nil]

/-- Two differences that do not go below 0. -/
theorem toNat_differences {lost again : BitVec 32} {a b : Nat} (lostLe : a ≤ lost.toNat) (againLe : b ≤ again.toNat)
    (small : lost.toNat - a + (again.toNat - b) < 2 ^ 32) :
    ((lost - BitVec.ofNat 32 a) + (again - BitVec.ofNat 32 b)).toNat = lost.toNat - a + (again.toNat - b) := by
  have lostBound := lost.isLt
  have againBound := again.isLt
  simp only [BitVec.toNat_add, BitVec.toNat_sub, BitVec.toNat_ofNat]
  omega

/-- After `update_lostseq` the value of `tcp_sack_compute_pipe` is the sum over the octets, and
it does not wrap. -/
theorem pipe_is_setPipe {tp : Tcpcb} (board : Board tp.sndUna (ahead tp.sndUna tp.sndMax) tp.scb)
    (small : ahead tp.sndUna tp.sndMax < 2 ^ 31) (high : ahead tp.sndUna tp.rexmtHigh ≤ ahead tp.sndUna tp.sndMax)
    (positive : 0 < tp.maxseg) (segments : tcprexmtthresh * tp.maxseg < 2 ^ 32) :
    (tcpSackComputePipe { tp with scb := updateLostseq tp.scb tp.sndUna tp.maxseg }).toNat = setPipe tp ∧
      setPipe tp < 2 ^ 32 := by
  have chain := board.chain
  have threshold := updateLostseq_threshold board small positive segments
  obtain ⟨lostseq, is⟩ : ∃ lostseq, (updateLostseq tp.scb tp.sndUna tp.maxseg).lostseq = lostseq := ⟨_, rfl⟩
  rw [is] at threshold
  have le := threshold.le chain
  have octets := octets_split chain (threshold.boundary chain)
  have pipe := setPipe_eq chain threshold high
  have whole := free_add chain (ahead tp.sndUna tp.sndMax)
  have front := free_add chain (ahead tp.sndUna lostseq)
  have again := free_add chain (ahead tp.sndUna tp.rexmtHigh)
  have fewer : free tp.sndUna tp.scb.blocks (ahead tp.sndUna lostseq) ≤ _ := free_mono le
  have lostPart : (tp.sndMax - lostseq).toNat = ahead tp.sndUna tp.sndMax - ahead tp.sndUna lostseq := ahead_of_le le
  have againPart : (tp.rexmtHigh - tp.sndUna).toNat = ahead tp.sndUna tp.rexmtHigh := rfl
  have value : tcpSackComputePipe { tp with scb := updateLostseq tp.scb tp.sndUna tp.maxseg } =
      (tp.sndMax - lostseq - BitVec.ofNat 32 (octetsFrom tp.sndUna tp.scb.blocks (ahead tp.sndUna lostseq))) +
        (tp.rexmtHigh - tp.sndUna -
          BitVec.ofNat 32 (octetsBelow tp.sndUna tp.scb.blocks (ahead tp.sndUna tp.rexmtHigh))) := by
    have nearHigh : ahead tp.sndUna tp.rexmtHigh < 2 ^ 31 := by omega
    have nearLost : ahead tp.sndUna lostseq < 2 ^ 31 := by omega
    rw [← pipeLoop_eq chain small nearHigh nearLost, ← is]
    rfl
  rw [value]
  constructor
  · rw [toNat_differences (by omega) (by omega) (by omega)]
    omega
  · omega

/-- Three blocks above the first octets. -/
def threeAbove : Tcpcb :=
  { sndUna := 4294967290, sndMax := 94, rexmtHigh := 20, maxseg := 30
    scb := { nblocks := 4, blocks := [⟨0, 4, 10⟩, ⟨1, 14, 24⟩, ⟨2, 34, 44⟩, ⟨3, 54, 64⟩], fresh := 4 } }

theorem threeAbove_board : Board threeAbove.sndUna (ahead threeAbove.sndUna threeAbove.sndMax) threeAbove.scb where
  chain :=
    { inside := show ∀ sb ∈ threeAbove.scb.blocks, ahead threeAbove.sndUna sb.start < ahead threeAbove.sndUna sb.stop ∧
        ahead threeAbove.sndUna sb.stop ≤ ahead threeAbove.sndUna threeAbove.sndMax by decide
      order := show threeAbove.scb.blocks.Pairwise fun first second =>
        ahead threeAbove.sndUna first.stop < ahead threeAbove.sndUna second.start by decide }
  count := rfl
  room := by decide
  hint := nofun
  distinct := show threeAbove.scb.blocks.Pairwise fun first second => first.addr ≠ second.addr by decide
  old := by decide

theorem pipe_is_setPipe_threeAbove :
    (tcpSackComputePipe { threeAbove with scb := updateLostseq threeAbove.scb threeAbove.sndUna threeAbove.maxseg }).toNat =
      setPipe threeAbove :=
  (pipe_is_setPipe threeAbove_board (by decide) (by decide) (by decide) (by decide)).1

/-- A maximum segment size whose threefold wraps. -/
def wideSegments : Tcpcb :=
  { sndUna := 0, sndMax := 10, rexmtHigh := 0, maxseg := 1431655766
    scb := { nblocks := 1, blocks := [⟨0, 5, 8⟩], fresh := 1 } }

/-- With such a size three octets are enough to lose what is below them. -/
theorem pipe_of_wideSegments :
    Board wideSegments.sndUna (ahead wideSegments.sndUna wideSegments.sndMax) wideSegments.scb ∧
      ahead wideSegments.sndUna wideSegments.rexmtHigh ≤ ahead wideSegments.sndUna wideSegments.sndMax ∧
      (tcpSackComputePipe
        { wideSegments with scb := updateLostseq wideSegments.scb wideSegments.sndUna wideSegments.maxseg }).toNat = 2 ∧
      setPipe wideSegments = 7 := by
  refine ⟨⟨⟨?_, List.pairwise_singleton _ _⟩, rfl, by decide, nofun, List.pairwise_singleton _ _, by decide⟩,
    by decide, by decide, by decide⟩
  show ∀ sb ∈ wideSegments.scb.blocks, ahead wideSegments.sndUna sb.start < ahead wideSegments.sndUna sb.stop ∧
    ahead wideSegments.sndUna sb.stop ≤ ahead wideSegments.sndUna wideSegments.sndMax
  decide

end Dragonfly.Net.Sack
