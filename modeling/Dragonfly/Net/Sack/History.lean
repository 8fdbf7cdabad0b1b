import Dragonfly.Net.Sack.Model
import Mathlib.Data.Set.Basic
import Mathlib.Data.List.Basic

/-!
# The history of reported blocks

The receiver remembers the blocks that it reported last, the newest one first, and repeats
them in the reports that follow.  A new block takes in what it touches of the old ones, and
an acknowledgement cuts off what it covers.
-/

namespace Dragonfly.Net.Sack

open Dragonfly.Lib.Seq

/-- The fields of `struct tcpcb` that the receiver of selective acknowledgements uses.  The
length of the list is `nsackhistory`. -/
structure Receiver where
  rcvNxt : BitVec 32
  sackhistory : List RawSackblock := []

/-- `MAX_SACK_REPORT_BLOCKS` -/
def maxSackReportBlocks : Nat := 4

/-- The loop of `tcp_sack_ack_history`: the blocks that it moves to the open slots, and what
is left of `nsackhistory`. -/
def ackHistoryLoop (rcvNxt : BitVec 32) : List RawSackblock → Int → List RawSackblock × Int
  | [], nsackhistory => ([], nsackhistory)
  | rblk :: rest, nsackhistory =>
      if seqLeq rblk.stop rcvNxt then ackHistoryLoop rcvNxt rest (nsackhistory - 1)
      else
        let rblk := if seqLt rblk.start rcvNxt then { rblk with start := rcvNxt } else rblk
        let below := ackHistoryLoop rcvNxt rest nsackhistory
        (rblk :: below.1, below.2)

/-- `tcp_sack_ack_history` -/
def tcpSackAckHistory (tp : Receiver) : Option Receiver :=
  let result := ackHistoryLoop tp.rcvNxt tp.sackhistory tp.sackhistory.length
  if (result.1.length : Int) = result.2 then some { tp with sackhistory := result.1 } else none

/-- The loop of `tcp_sack_update_reported_history`: the block that has grown, and the copies
of the blocks that it does not contain. -/
def reportedLoop : List RawSackblock → List RawSackblock → BitVec 32 → BitVec 32 →
    Option (RawSackblock × List RawSackblock)
  | [], copy, start, stop => some (⟨start, stop⟩, copy)
  | oldblock :: rest, copy, start, stop =>
      if seqLt stop oldblock.start || seqGt start oldblock.stop then
        -- case 0
        reportedLoop rest (copy ++ [oldblock]) start stop
      else if seqGeq start oldblock.start && seqLeq stop oldblock.stop then
        -- cases 1 and 2: the rest is not looked at
        some (oldblock, copy ++ rest)
      else if seqGeq oldblock.stop start && seqLt oldblock.start start then
        -- case 4
        reportedLoop rest copy oldblock.start stop
      else if seqGeq stop oldblock.start && seqGt oldblock.stop stop then
        -- case 5
        reportedLoop rest copy start oldblock.stop
      else if seqLeq start oldblock.start && seqGeq stop oldblock.stop then
        -- case 3
        reportedLoop rest copy start stop
      else none

/-- `tcp_sack_update_reported_history` -/
def tcpSackUpdateReportedHistory (tp : Receiver) (start stop : BitVec 32) : Option Receiver := do
  let (newblock, copy) ← reportedLoop tp.sackhistory [] start stop
  return { tp with sackhistory := newblock :: copy.take (maxSackReportBlocks - 1) }

/-- The copies for which `tcp_sack_update_reported_history` has no slot. -/
def overflow (tp : Receiver) (start stop : BitVec 32) : List RawSackblock :=
  match reportedLoop tp.sackhistory [] start stop with
  | some (_, copy) => copy.drop (maxSackReportBlocks - 1)
  | none => []

/-! ## Spans -/

/-- A block as two positions of the stream. -/
structure Span where
  start : Nat
  stop : Nat

/-- The sequence numbers of a span. -/
def Span.raw (origin : BitVec 32) (x : Span) : RawSackblock := ⟨point origin x.start, point origin x.stop⟩

/-- The span contains the position. -/
def Span.Has (x : Span) (position : Nat) : Prop := x.start ≤ position ∧ position < x.stop

/-- One of the spans contains the position. -/
def Covered (spans : List Span) (position : Nat) : Prop := ∃ x ∈ spans, x.Has position

/-- There is room between the spans. -/
def Span.Apart (x y : Span) : Prop := x.stop < y.start ∨ y.stop < x.start

instance (x y : Span) : Decidable (x.Apart y) := inferInstanceAs (Decidable (_ ∨ _))

/-- The span is not empty, and lies above the position and at less than half the circle from
it. -/
structure Span.Near (x : Span) (position : Nat) : Prop where
  above : position ≤ x.start
  nonempty : x.start < x.stop
  bound : x.stop < position + 2 ^ 31

/-- The least span that contains both. -/
def Span.hull (x y : Span) : Span := ⟨min x.start y.start, max x.stop y.stop⟩

/-- What is left of a span above a position. -/
def Span.cut (position : Nat) (x : Span) : Span := ⟨max x.start position, x.stop⟩

/-- What is left of the spans above a position. -/
def cutBelow (position : Nat) (spans : List Span) : List Span :=
  (spans.filter fun x => position < x.stop).map (Span.cut position)

/-- A span takes in the spans that it touches, one after the other. -/
def absorb : List Span → Span → Span × List Span
  | [], new => (new, [])
  | old :: rest, new =>
      if old.Apart new then
        let below := absorb rest new
        (below.1, old :: below.2)
      else absorb rest (old.hull new)

/-- The history has a slot for each of the spans, they are above the position, and there is
room between any two. -/
structure Canonical (position : Nat) (spans : List Span) : Prop where
  count : spans.length ≤ maxSackReportBlocks
  near : ∀ x ∈ spans, x.Near position
  apart : spans.Pairwise Span.Apart

variable {origin : BitVec 32} {position position' p : Nat} {spans rest : List Span} {x y z new old : Span}

theorem Span.Apart.symm (apart : x.Apart y) : y.Apart x := Or.symm apart

@[simp]
theorem covered_nil : ¬Covered [] p := by
  rintro ⟨x, member, -⟩
  cases member

@[simp]
theorem covered_cons : Covered (x :: rest) p ↔ x.Has p ∨ Covered rest p := by
  simp [Covered]

@[simp]
theorem covered_append : Covered (spans ++ rest) p ↔ Covered spans p ∨ Covered rest p := by
  simp [Covered, or_and_right, exists_or]

theorem Span.Apart.not_has (apart : x.Apart y) (has : x.Has p) : ¬y.Has p := by
  simp only [Apart, Has] at *
  omega

/-- Spans that touch fill their hull. -/
theorem Span.has_hull (touch : ¬x.Apart y) : (x.hull y).Has p ↔ x.Has p ∨ y.Has p := by
  simp only [Apart, hull, Has, not_or, not_lt] at *
  omega

/-- What is apart from two spans that touch is apart from their hull. -/
theorem Span.Apart.hull (left : z.Apart x) (right : z.Apart y) (touch : ¬x.Apart y)
    (nonempty : z.start < z.stop) : z.Apart (x.hull y) := by
  simp only [Apart, Span.hull, not_or, not_lt] at *
  omega

theorem Span.Near.hull (left : x.Near position) (right : y.Near position) : (x.hull y).Near position := by
  have first := left.above
  have second := right.above
  constructor
  · exact le_min first second
  · exact lt_of_le_of_lt (min_le_left _ _) (lt_of_lt_of_le left.nonempty (le_max_left _ _))
  · exact max_lt left.bound right.bound

/-! ## Growing -/

/-- A span that is apart from all others stays as it is. -/
theorem absorb_of_apart (apart : ∀ old ∈ spans, old.Apart new) : absorb spans new = (new, spans) := by
  induction spans with
  | nil => rfl
  | cons old rest ih =>
      have here := apart old List.mem_cons_self
      have later := ih fun x member => apart x (List.mem_cons_of_mem _ member)
      rw [absorb, if_pos here, later]

/-- What is left over is part of the old list. -/
theorem absorb_sublist (spans : List Span) (new : Span) : (absorb spans new).2.Sublist spans := by
  induction spans generalizing new with
  | nil => exact List.Sublist.slnil
  | cons old rest ih =>
      rw [absorb]
      split
      · exact (ih new).cons_cons old
      · exact (ih _).cons old

theorem absorb_near (near : ∀ x ∈ spans, x.Near position) (fresh : new.Near position) :
    (absorb spans new).1.Near position := by
  induction spans generalizing new with
  | nil => exact fresh
  | cons old rest ih =>
      have later : ∀ x ∈ rest, x.Near position := fun x member => near x (List.mem_cons_of_mem _ member)
      rw [absorb]
      split
      · exact ih later fresh
      · exact ih later ((near old List.mem_cons_self).hull fresh)

/-- The block only grows. -/
theorem absorb_grows (spans : List Span) (new : Span) :
    (absorb spans new).1.start ≤ new.start ∧ new.stop ≤ (absorb spans new).1.stop := by
  induction spans generalizing new with
  | nil => exact ⟨le_rfl, le_rfl⟩
  | cons old rest ih =>
      rw [absorb]
      split
      · exact ih new
      · have grown := ih (old.hull new)
        exact ⟨grown.1.trans (min_le_right _ _), (le_max_right _ _).trans grown.2⟩

/-- What is apart from the block and from the list is apart from the block that has grown. -/
theorem absorb_keeps_apart (list : ∀ old ∈ spans, z.Apart old) (fresh : z.Apart new) (nonempty : z.start < z.stop) :
    z.Apart (absorb spans new).1 := by
  induction spans generalizing new with
  | nil => exact fresh
  | cons old rest ih =>
      have later : ∀ old ∈ rest, z.Apart old := fun x member => list x (List.mem_cons_of_mem _ member)
      rw [absorb]
      split
      · exact ih later fresh
      case isFalse touch => exact ih later ((list old List.mem_cons_self).hull fresh touch nonempty)

/-- A block that was judged apart early stays apart from what the new block becomes. -/
theorem absorb_apart (apart : spans.Pairwise Span.Apart) (near : ∀ x ∈ spans, x.Near position) :
    ∀ old ∈ (absorb spans new).2, old.Apart (absorb spans new).1 := by
  induction spans generalizing new with
  | nil => exact nofun
  | cons old rest ih =>
      have first := (List.pairwise_cons.mp apart).1
      have later : ∀ x ∈ rest, x.Near position := fun x member => near x (List.mem_cons_of_mem _ member)
      rw [absorb]
      split
      case isTrue clear =>
        intro x member
        rcases (List.mem_cons).mp member with same | below
        · rw [same]
          exact absorb_keeps_apart first clear (near old List.mem_cons_self).nonempty
        · exact ih (List.pairwise_cons.mp apart).2 later x below
      · exact ih (List.pairwise_cons.mp apart).2 later

/-- Nothing is lost and nothing is added. -/
theorem absorb_covers :
    (absorb spans new).1.Has p ∨ Covered (absorb spans new).2 p ↔ new.Has p ∨ Covered spans p := by
  induction spans generalizing new with
  | nil => rfl
  | cons old rest ih =>
      rw [absorb]
      split
      case isTrue clear =>
        rw [covered_cons, or_left_comm, ih, covered_cons, or_left_comm]
      case isFalse touch =>
        rw [ih, Span.has_hull touch, covered_cons, or_assoc,
          or_left_comm]

/-- What the slots hold is the union, less the blocks that found no slot. -/
theorem covered_report (near : ∀ x ∈ spans, x.Near position) (apart : spans.Pairwise Span.Apart)
    {slots : Nat} :
    Covered ((absorb spans new).1 :: (absorb spans new).2.take slots) p ↔
      (Covered spans p ∨ new.Has p) ∧ ∀ x ∈ (absorb spans new).2.drop slots, ¬x.Has p := by
  have whole := @absorb_covers p spans new
  have separate := @absorb_apart _ _ new apart near
  have order := apart.sublist (absorb_sublist spans new)
  rw [← List.take_append_drop slots (absorb spans new).2, covered_append] at whole
  rw [← List.take_append_drop slots (absorb spans new).2, List.pairwise_append] at order
  rw [or_comm (b := new.Has p), ← whole, covered_cons]
  constructor
  · rintro (grown | ⟨y, kept, has⟩)
    · exact ⟨.inl grown, fun x dropped here => (separate x (List.mem_of_mem_drop dropped)).not_has here grown⟩
    · exact ⟨.inr (.inl ⟨y, kept, has⟩), fun x dropped => (order.2.2 y kept x dropped).not_has has⟩
  · rintro ⟨grown | kept | ⟨x, dropped, has⟩, clear⟩
    · exact .inl grown
    · exact .inr kept
    · exact absurd has (clear x dropped)

/-! ## The code on spans -/

/-- The positions of two spans near one position are near each other. -/
theorem Span.Near.close {q r : Nat} (left : x.Near position) (right : y.Near position)
    (first : q = x.start ∨ q = x.stop) (second : r = y.start ∨ r = y.stop) : q < r + 2 ^ 31 := by
  have a := left.above
  have b := left.nonempty
  have c := left.bound
  have d := right.above
  have e := right.nonempty
  omega

theorem apart_iff (left : old.Near position) (right : new.Near position) :
    (seqLt (point origin new.stop) (point origin old.start) ||
      seqGt (point origin new.start) (point origin old.stop)) = true ↔ old.Apart new := by
  rw [Bool.or_eq_true, seqLt_point (right.close left (.inr rfl) (.inl rfl)) (left.close right (.inl rfl) (.inr rfl)),
    seqGt_point (right.close left (.inl rfl) (.inr rfl)) (left.close right (.inr rfl) (.inl rfl))]
  exact or_comm

/-- The loop of the code lets the new block take in what it touches, although it does not look
at the rest behind a block that contains the new one. -/
theorem reportedLoop_eq (near : ∀ x ∈ spans, x.Near position) (apart : spans.Pairwise Span.Apart)
    (fresh : new.Near position) (copy : List RawSackblock) :
    reportedLoop (spans.map (Span.raw origin)) copy (point origin new.start) (point origin new.stop) =
      some ((absorb spans new).1.raw origin, copy ++ (absorb spans new).2.map (Span.raw origin)) := by
  induction spans generalizing new copy with
  | nil =>
      rw [absorb, List.map_nil, List.append_nil]
      rfl
  | cons old rest ih =>
      have here := near old List.mem_cons_self
      have later : ∀ x ∈ rest, x.Near position := fun x member => near x (List.mem_cons_of_mem _ member)
      have first := (List.pairwise_cons.mp apart).1
      have tail := (List.pairwise_cons.mp apart).2
      have starts := @seqGeq_point origin _ _ (fresh.close here (.inl rfl) (.inl rfl)) (here.close fresh (.inl rfl) (.inl rfl))
      have stops := @seqLeq_point origin _ _ (fresh.close here (.inr rfl) (.inr rfl)) (here.close fresh (.inr rfl) (.inr rfl))
      have tailOver := @seqGeq_point origin _ _ (here.close fresh (.inr rfl) (.inl rfl)) (fresh.close here (.inl rfl) (.inr rfl))
      have headOver := @seqGeq_point origin _ _ (fresh.close here (.inr rfl) (.inl rfl)) (here.close fresh (.inl rfl) (.inr rfl))
      have begins := @seqLt_point origin _ _ (here.close fresh (.inl rfl) (.inl rfl)) (fresh.close here (.inl rfl) (.inl rfl))
      have ends := @seqGt_point origin _ _ (here.close fresh (.inr rfl) (.inr rfl)) (fresh.close here (.inr rfl) (.inr rfl))
      have beginsIn := @seqLeq_point origin _ _ (fresh.close here (.inl rfl) (.inl rfl)) (here.close fresh (.inl rfl) (.inl rfl))
      have endsIn := @seqGeq_point origin _ _ (fresh.close here (.inr rfl) (.inr rfl)) (here.close fresh (.inr rfl) (.inr rfl))
      rw [List.map_cons, reportedLoop, absorb]
      simp only [Span.raw, apart_iff here fresh, Bool.and_eq_true, starts, stops, tailOver, headOver, begins, ends,
        beginsIn, endsIn]
      by_cases clear : old.Apart new
      · rw [if_pos clear, if_pos clear]
        have below := ih later tail fresh (copy ++ [old.raw origin])
        simp only [Span.raw] at below
        rw [below]
        simp [Span.raw]
      · rw [if_neg clear, if_neg clear]
        have touch : old.start ≤ new.stop ∧ new.start ≤ old.stop := by
          simpa only [Span.Apart, not_or, not_lt, and_comm] using clear
        split
        case isTrue contained =>
          have same : old.hull new = old := by
            rw [Span.hull, min_eq_left contained.1, max_eq_left contained.2]
          rw [same, absorb_of_apart fun x member => (first x member).symm]
        case isFalse wider =>
          split
          case isTrue lower =>
            have same : old.hull new = ⟨old.start, new.stop⟩ := by
              rw [Span.hull, min_eq_left lower.2.le, max_eq_right (by omega)]
            have below := ih later tail (here.hull fresh) copy
            rw [same] at below ⊢
            exact below
          case isFalse higher =>
            split
            case isTrue upper =>
              have same : old.hull new = ⟨new.start, old.stop⟩ := by
                rw [Span.hull, min_eq_right (by omega), max_eq_left upper.2.le]
              have below := ih later tail (here.hull fresh) copy
              rw [same] at below ⊢
              exact below
            case isFalse inner =>
              have inside : new.start ≤ old.start ∧ old.stop ≤ new.stop := by omega
              have same : old.hull new = new := by
                rw [Span.hull, min_eq_right inside.1, max_eq_right inside.2]
              rw [if_pos inside, same]
              exact ih later tail fresh copy

/-- The loop that removes what has been acknowledged, and how it counts. -/
theorem ackHistoryLoop_eq (near : ∀ x ∈ spans, x.Near position) (le : position ≤ position')
    (bound : position' < position + 2 ^ 31) (nsackhistory : Int) :
    ackHistoryLoop (point origin position') (spans.map (Span.raw origin)) nsackhistory =
      ((cutBelow position' spans).map (Span.raw origin),
        nsackhistory - spans.length + (cutBelow position' spans).length) := by
  induction spans generalizing nsackhistory with
  | nil => simp [ackHistoryLoop, cutBelow]
  | cons x rest ih =>
      have above := (near x List.mem_cons_self).above
      have nonempty := (near x List.mem_cons_self).nonempty
      have top := (near x List.mem_cons_self).bound
      have later := ih fun x member => near x (List.mem_cons_of_mem _ member)
      have gone := @seqLeq_point origin x.stop position' (by omega) (by omega)
      have cut := @seqLt_point origin x.start position' (by omega) (by omega)
      rw [List.map_cons, ackHistoryLoop]
      simp only [Span.raw, gone, cut]
      by_cases acked : x.stop ≤ position'
      · have kept : cutBelow position' (x :: rest) = cutBelow position' rest := by
          rw [cutBelow, List.filter_cons_of_neg (by simpa using acked), cutBelow]
        rw [if_pos acked, kept]
        have below := later (nsackhistory - 1)
        rw [below, List.length_cons]
        exact Prod.ext rfl (by push_cast; omega)
      · have kept : cutBelow position' (x :: rest) = x.cut position' :: cutBelow position' rest := by
          rw [cutBelow, List.filter_cons_of_pos (by simpa using acked), cutBelow, List.map_cons]
        have below := later nsackhistory
        have edge : (if x.start < position' then ⟨point origin position', point origin x.stop⟩
            else x.raw origin) = (x.cut position').raw origin := by
          split
          case isTrue low => rw [Span.raw, Span.cut, max_eq_right low.le]
          case isFalse high => rw [Span.raw, Span.raw, Span.cut, max_eq_left (not_lt.mp high)]
        simp only [Span.raw] at edge
        rw [if_neg acked, kept, below, List.map_cons, edge, List.length_cons, List.length_cons]
        exact Prod.ext rfl (by push_cast; omega)

/-! ## Cutting -/

theorem covered_cutBelow : Covered (cutBelow position spans) p ↔ Covered spans p ∧ position ≤ p := by
  simp only [Covered, cutBelow, List.mem_map, List.mem_filter, decide_eq_true_eq]
  constructor
  · rintro ⟨_, ⟨x, ⟨member, -⟩, rfl⟩, has⟩
    exact ⟨⟨x, member, (le_max_left _ _).trans has.1, has.2⟩, (le_max_right _ _).trans has.1⟩
  · rintro ⟨⟨x, member, has⟩, above⟩
    exact ⟨x.cut position, ⟨x, ⟨member, above.trans_lt has.2⟩, rfl⟩, max_le has.1 above, has.2⟩

theorem Canonical.cutBelow (canonical : Canonical position spans) (le : position ≤ position') :
    Canonical position' (cutBelow position' spans) := by
  constructor
  · rw [Sack.cutBelow, List.length_map]
    exact (List.length_filter_le _ _).trans canonical.count
  · intro y member
    simp only [Sack.cutBelow, List.mem_map, List.mem_filter, decide_eq_true_eq] at member
    obtain ⟨x, ⟨old, above⟩, rfl⟩ := member
    have near := canonical.near x old
    have bound := near.bound
    exact ⟨le_max_right _ _, max_lt near.nonempty above, bound.trans_le (by omega)⟩
  · apply List.Pairwise.map _ _ (canonical.apart.filter _)
    rintro x y (before | behind)
    · exact .inl (before.trans_le (le_max_left _ _))
    · exact .inr (behind.trans_le (le_max_left _ _))

/-! ## Runs -/

/-- The block contains a position of the stream. -/
def RawSackblock.Has (origin : BitVec 32) (rblk : RawSackblock) (p : Nat) : Prop :=
  seqGeq (point origin p) rblk.start = true ∧ seqLt (point origin p) rblk.stop = true

/-- The receiver after a number of reports and acknowledgements, the position of `rcv_nxt`,
the reported positions that are above it and were not in a block that found no slot, and the
block that was reported last. -/
inductive Reporting (origin : BitVec 32) : Receiver → Nat → Set Nat → Option Span → Prop
  | start (position : Nat) : Reporting origin { rcvNxt := point origin position } position ∅ none
  | ack {tp next position position' kept recent} (run : Reporting origin tp position kept recent)
      (le : position ≤ position') (bound : position' < position + 2 ^ 31)
      (done : tcpSackAckHistory { tp with rcvNxt := point origin position' } = some next) :
      Reporting origin next position' {p | p ∈ kept ∧ position' ≤ p} recent
  | report {tp next position kept recent new} (run : Reporting origin tp position kept recent)
      (near : Span.Near new position)
      (done : tcpSackUpdateReportedHistory tp (point origin new.start) (point origin new.stop) = some next) :
      Reporting origin next position
        {p | (p ∈ kept ∨ new.Has p) ∧
          ∀ rblk ∈ overflow tp (point origin new.start) (point origin new.stop), ¬rblk.Has origin p}
        (some new)

/-- What the history holds at any time. -/
structure Holds (origin : BitVec 32) (tp : Receiver) (position : Nat) (kept : Set Nat) (recent : Option Span)
    (spans : List Span) : Prop where
  rcvNxt : tp.rcvNxt = point origin position
  history : tp.sackhistory = spans.map (Span.raw origin)
  canonical : Canonical position spans
  union : ∀ p, p ∈ kept ↔ Covered spans p
  first : ∀ new, recent = some new → position < new.stop →
    ∃ head rest, spans = head :: rest ∧ head.start ≤ max new.start position ∧ new.stop ≤ head.stop

variable {tp next : Receiver} {kept : Set Nat} {recent : Option Span}

theorem RawSackblock.has_raw (near : x.Near position) (above : position ≤ p) (bound : p < position + 2 ^ 31) :
    (x.raw origin).Has origin p ↔ x.Has p := by
  have low := near.above
  have nonempty := near.nonempty
  have top := near.bound
  rw [Has, Span.raw, seqGeq_point (by omega) (by omega), seqLt_point (by omega) (by omega), Span.Has]

/-- The oldest block is the only one that may find no slot, when none is free. -/
theorem drop_absorb (count : spans.length ≤ maxSackReportBlocks) (new : Span) :
    (absorb spans new).2.drop (maxSackReportBlocks - 1) = [] ∨
      spans.length = maxSackReportBlocks ∧ (absorb spans new).2 = spans ∧
        ∃ front last, spans = front ++ [last] ∧ front.length = maxSackReportBlocks - 1 := by
  have sublist := absorb_sublist spans new
  rcases lt_or_eq_of_le (sublist.length_le.trans count) with fewer | full
  · exact .inl (List.drop_eq_nil_of_le (Nat.le_sub_one_of_lt fewer))
  · have same := sublist.eq_of_length_le (by omega)
    rw [same] at full
    have split := (List.dropLast_append_getLast (List.ne_nil_of_length_pos (full.symm ▸ by decide : 0 < spans.length))).symm
    refine .inr ⟨full, same, _, _, split, ?_⟩
    rw [List.length_dropLast, full]

theorem Holds.overflow_eq (holds : Holds origin tp position kept recent spans) (fresh : new.Near position) :
    overflow tp (point origin new.start) (point origin new.stop) =
      ((absorb spans new).2.drop (maxSackReportBlocks - 1)).map (Span.raw origin) := by
  have loop := @reportedLoop_eq origin _ _ _ holds.canonical.near holds.canonical.apart fresh []
  rw [← holds.history, List.nil_append] at loop
  rw [overflow, loop, List.map_drop]

/-- What one acknowledgement does. -/
theorem Holds.ack (holds : Holds origin tp position kept recent spans) (le : position ≤ position')
    (bound : position' < position + 2 ^ 31) :
    ∃ next, tcpSackAckHistory { tp with rcvNxt := point origin position' } = some next ∧
      Holds origin next position' {p | p ∈ kept ∧ position' ≤ p} recent (cutBelow position' spans) := by
  have loop := @ackHistoryLoop_eq origin _ _ _ holds.canonical.near le bound tp.sackhistory.length
  rw [← holds.history] at loop
  refine ⟨⟨point origin position', (cutBelow position' spans).map (Span.raw origin)⟩, ?_, ?_⟩
  · have counted : (tp.sackhistory.length : Int) - spans.length = 0 := by
      rw [holds.history, List.length_map, Int.sub_self]
    simp only [tcpSackAckHistory, loop, counted, List.length_map]
    rw [if_pos (by omega)]
  constructor
  · rfl
  · rfl
  · exact holds.canonical.cutBelow le
  · intro p
    rw [covered_cutBelow, ← holds.union p]
    rfl
  · intro new same behind
    obtain ⟨head, rest, rfl, starts, stops⟩ := holds.first new same (lt_of_le_of_lt le behind)
    refine ⟨head.cut position', cutBelow position' rest, ?_, ?_, stops⟩
    · rw [cutBelow, List.filter_cons_of_pos (by simpa using behind.trans_le stops), List.map_cons, cutBelow]
    · have higher : max new.start position ≤ max new.start position' := max_le (le_max_left _ _) (le.trans (le_max_right _ _))
      exact max_le (starts.trans higher) (le_max_right _ _)

/-- What one report does. -/
theorem Holds.report (holds : Holds origin tp position kept recent spans) (fresh : new.Near position) :
    ∃ next, tcpSackUpdateReportedHistory tp (point origin new.start) (point origin new.stop) = some next ∧
      Holds origin next position
        {p | (p ∈ kept ∨ new.Has p) ∧
          ∀ rblk ∈ overflow tp (point origin new.start) (point origin new.stop), ¬rblk.Has origin p}
        (some new) ((absorb spans new).1 :: (absorb spans new).2.take (maxSackReportBlocks - 1)) := by
  have canonical := holds.canonical
  have loop := @reportedLoop_eq origin _ _ _ canonical.near canonical.apart fresh []
  rw [← holds.history, List.nil_append] at loop
  have sublist := absorb_sublist spans new
  have grown := absorb_near canonical.near fresh
  have separate := @absorb_apart _ _ new canonical.apart canonical.near
  refine ⟨⟨tp.rcvNxt, (absorb spans new).1.raw origin ::
    ((absorb spans new).2.map (Span.raw origin)).take (maxSackReportBlocks - 1)⟩, ?_, ?_⟩
  · simp only [tcpSackUpdateReportedHistory, loop]
    rfl
  constructor
  · exact holds.rcvNxt
  · rw [List.map_cons, List.map_take]
  · constructor
    · rw [List.length_cons, List.length_take]
      exact Nat.add_le_of_le_sub (by decide) (min_le_left _ _)
    · intro x member
      rcases (List.mem_cons).mp member with rfl | old
      · exact grown
      · exact canonical.near x (sublist.subset (List.mem_of_mem_take old))
    · refine List.pairwise_cons.mpr ⟨?_, (canonical.apart.sublist sublist).sublist (List.take_sublist _ _)⟩
      intro old member
      exact (separate old (List.mem_of_mem_take member)).symm
  · intro p
    rw [covered_report canonical.near canonical.apart, ← holds.union p, holds.overflow_eq fresh]
    refine and_congr_right fun inside => ?_
    have range : position ≤ p ∧ p < position + 2 ^ 31 := by
      rcases inside with old | new
      · obtain ⟨x, member, has⟩ := (holds.union p).mp old
        exact ⟨(canonical.near x member).above.trans has.1, has.2.trans (canonical.near x member).bound⟩
      · exact ⟨fresh.above.trans new.1, new.2.trans fresh.bound⟩
    simp only [List.forall_mem_map]
    refine forall₂_congr fun x member => ?_
    rw [RawSackblock.has_raw (canonical.near x (sublist.subset (List.mem_of_mem_drop member))) range.1 range.2]
  · rintro _ ⟨⟩ -
    have grows := absorb_grows spans new
    exact ⟨_, _, rfl, grows.1.trans (le_max_left _ _), grows.2⟩

theorem Reporting.holds (run : Reporting origin tp position kept recent) :
    ∃ spans, Holds origin tp position kept recent spans := by
  induction run with
  | start position =>
      refine ⟨[], rfl, rfl, ⟨Nat.zero_le _, nofun, .nil⟩, ?_, nofun⟩
      intro p
      simp
  | ack run le bound done ih =>
      obtain ⟨spans, holds⟩ := ih
      obtain ⟨next, done', after⟩ := holds.ack le bound
      cases done.symm.trans done'
      exact ⟨_, after⟩
  | report run near done ih =>
      obtain ⟨spans, holds⟩ := ih
      obtain ⟨next, done', after⟩ := holds.report near
      cases done.symm.trans done'
      exact ⟨_, after⟩

/-- After any reports and acknowledgements the history is made of at most four blocks with room
between any two, the newest one first; it holds what has been reported above `rcv_nxt`, except
for the oldest block where a new one found no slot; and no assertion fails at the next call. -/
theorem history_canonical (run : Reporting origin tp position kept recent) :
    ∃ spans, Holds origin tp position kept recent spans ∧
      (∀ position', position ≤ position' → position' < position + 2 ^ 31 →
        (tcpSackAckHistory { tp with rcvNxt := point origin position' }).isSome) ∧
      ∀ new : Span, new.Near position →
        (tcpSackUpdateReportedHistory tp (point origin new.start) (point origin new.stop)).isSome ∧
          (overflow tp (point origin new.start) (point origin new.stop) = [] ∨
            spans.length = maxSackReportBlocks ∧ ∃ front last, spans = front ++ [last] ∧
              overflow tp (point origin new.start) (point origin new.stop) = [last.raw origin]) := by
  obtain ⟨spans, holds⟩ := run.holds
  refine ⟨spans, holds, ?_, ?_⟩
  · intro position' le bound
    obtain ⟨next, done, -⟩ := holds.ack le bound
    rw [done]
    rfl
  · intro new near
    constructor
    · obtain ⟨next, done, -⟩ := holds.report near
      rw [done]
      rfl
    · rw [holds.overflow_eq near]
      rcases drop_absorb holds.canonical.count new with room | ⟨full, same, front, last, split, long⟩
      · rw [room]
        exact .inl rfl
      · refine .inr ⟨full, front, last, split, ?_⟩
        rw [same, split, ← long, List.drop_left]
        rfl

/-- A stream whose numbers go around the circle: two blocks, one that joins them, and an
acknowledgement. -/
theorem history_canonical_joined :
    ∃ kept spans, Holds 0xfffffff0#32 ⟨8#32, [⟨8#32, 14#32⟩]⟩ 24 kept (some ⟨8, 20⟩) spans := by
  have low : Span.Near ⟨5, 10⟩ 0 := ⟨by decide, by decide, by decide⟩
  have high : Span.Near ⟨20, 30⟩ 0 := ⟨by decide, by decide, by decide⟩
  have joining : Span.Near ⟨8, 20⟩ 0 := ⟨by decide, by decide, by decide⟩
  have first := (@Reporting.start 0xfffffff0#32 0).report low rfl
  have second := first.report high rfl
  have third := second.report joining rfl
  have last := @Reporting.ack _ _ _ _ 24 _ _ third (by decide) (by decide) rfl
  obtain ⟨spans, holds, -⟩ := history_canonical last
  exact ⟨_, spans, holds⟩

end Dragonfly.Net.Sack
