import Dragonfly.Lib.Run
import Dragonfly.Net.Reass.Pieces

/-!
# The stream

The entries of the queue are slices of a stream, and `tcp_reass` does to them what queueing
does to the pieces.  In every run the socket has the stream up to `rcv_nxt`, and the queue has
the rest of what was received.
-/

namespace Dragonfly.Net.Reass

open Dragonfly.Lib Dragonfly.Lib.Seq

variable {β : Type}

/-- The slice of a stream that starts at a sequence number. -/
def slice (iss : BitVec 32) (str : List β) (piece : Piece) : TsegQent β :=
  { seq := point iss piece.lo, fin := piece.fin, len := piece.hi - piece.lo, m := (str.take piece.hi).drop piece.lo }

variable {iss : BitVec 32} {str : List β} {piece p q te : Piece} {front back rest pieces : List Piece} {n x hi i : Nat}

/-! ## Slices -/

theorem slice_stop (proper : piece.lo ≤ piece.hi) : (slice iss str piece).stop = point iss piece.hi := by
  rw [TsegQent.stop, slice]
  simp only [point_add, Nat.add_sub_cancel' proper]

theorem slice_adj : (slice iss str piece).adj i = slice iss str { piece with lo := piece.lo + i } := by
  rw [TsegQent.adj, slice, slice]
  simp only [point_add, List.drop_drop, Nat.sub_sub]

/-- Two slices that meet. -/
theorem take_drop_append {lo middle hi : Nat} (left : lo ≤ middle) (right : middle ≤ hi) (str : List β) :
    (str.take middle).drop lo ++ (str.take hi).drop middle = (str.take hi).drop lo := by
  have shorter : str.take middle = (str.take hi).take middle := by rw [List.take_take, Nat.min_eq_left right]
  have whole : (str.take hi).drop middle = ((str.take hi).drop lo).drop (middle - lo) := by
    rw [List.drop_drop, Nat.add_sub_cancel' left]
  rw [shorter, whole, List.drop_take, List.take_append_drop]

/-- A slice with another one that it meets put behind it; the flag is that of the first. -/
theorem slice_merge (left : p.lo ≤ p.hi) (meet : p.hi = te.lo) (right : te.lo ≤ te.hi) :
    { slice iss str p with
      len := (slice iss str p).len + (slice iss str te).len
      m := (slice iss str p).m ++ (slice iss str te).m } = slice iss str { p with hi := te.hi } := by
  have data : (slice iss str p).m ++ (slice iss str te).m = (str.take te.hi).drop p.lo := by
    show (str.take p.hi).drop p.lo ++ (str.take te.hi).drop te.lo = _
    rw [← meet]
    exact take_drop_append left (by omega) str
  have length : (slice iss str p).len + (slice iss str te).len = te.hi - p.lo := by
    show (p.hi - p.lo) + (te.hi - te.lo) = _
    omega
  rw [data, length]
  rfl

/-! ## The queue -/

/-- Pieces in the half of the sequence space ahead of a position. -/
def Near (n : Nat) (piece : Piece) : Prop := n ≤ piece.lo ∧ piece.lo ≤ piece.hi ∧ piece.hi < n + 2 ^ 31

theorem trimNext_slice (near : ∀ q ∈ back, Near n q) (low : n ≤ hi) (high : hi < n + 2 ^ 31) (qsize : Int) :
    trimNext (point iss hi) (back.map (slice iss str)) qsize =
      ((trimP hi back).map (slice iss str), qsize - (back.length - (trimP hi back).length)) := by
  induction back generalizing qsize with
  | nil => simp [trimNext, trimP]
  | cons q rest ih =>
      obtain ⟨start, wide, ends⟩ := near q List.mem_cons_self
      have diff : (point iss hi - (slice iss str q).seq).toInt = (hi : Int) - q.lo :=
        toInt_point_sub (by omega) (by omega)
      rw [List.map_cons, trimNext, trimP, diff]
      by_cases beyond : hi ≤ q.lo
      · rw [if_pos beyond, if_pos (by omega)]
        simp
      · rw [if_neg beyond, if_neg (by omega)]
        have length : ((slice iss str q).len : Int) = q.hi - q.lo := by
          show ((q.hi - q.lo : Nat) : Int) = _
          omega
        by_cases partly : hi < q.hi
        · rw [if_pos partly, if_pos (by omega), slice_adj, show q.lo + ((hi : Int) - q.lo).toNat = hi by omega]
          simp
        · rw [if_neg partly, if_neg (by omega), ih (fun p member => near p (List.mem_cons_of_mem _ member))]
          rw [List.length_cons]
          congr 1
          omega

theorem joinNext_slice (near : ∀ q ∈ back, Near n q) (mine : Near n te) (qsize : Int) :
    joinNext (slice iss str te) (back.map (slice iss str)) qsize =
      (slice iss str (joinP te back).1, (joinP te back).2.map (slice iss str),
        qsize - (back.length - (joinP te back).2.length)) := by
  cases back with
  | nil => simp [joinNext, joinP]
  | cons q rest =>
      obtain ⟨start, wide, ends⟩ := near q List.mem_cons_self
      obtain ⟨teStart, teWide, teEnds⟩ := mine
      have meets : (slice iss str te).stop = (slice iss str q).seq ↔ te.hi = q.lo := by
        rw [slice_stop teWide]
        exact point_inj (by omega) (by omega)
      rw [List.map_cons, joinNext, joinP]
      by_cases meet : te.hi = q.lo
      · rw [if_pos meet, if_pos (meets.mpr meet)]
        have merged := @slice_merge _ iss str _ _ teWide meet wide
        simp only [List.length_cons, Prod.mk.injEq, true_and]
        refine ⟨?_, by omega⟩
        exact congrArg (fun q' : TsegQent β => { q' with fin := te.fin || q.fin }) merged
      · rw [if_neg meet, if_neg (meets.not.mpr meet)]
        simp

theorem place_slice {tp : Tcpcb β} (right : Separate back) (nearFront : ∀ q ∈ front, Near n q) (nearBack : ∀ q ∈ back, Near n q)
    (mine : Near n piece) :
    place tp (front.map (slice iss str)) (back.map (slice iss str)) (slice iss str piece) =
      { tp with
        segq := (placeP front back piece).map (slice iss str)
        qsize := tp.qsize + ((placeP front back piece).length - (front.length + back.length) - 1) } := by
  obtain ⟨start, wide, ends⟩ := mine
  obtain ⟨trimmed, low, origin, -⟩ := @trimP_spec _ piece.hi right
  have nearTrimmed : ∀ q ∈ trimP piece.hi back, Near n q := by
    intro q member
    obtain ⟨old, oldMem, same, -, lower⟩ := origin q member
    obtain ⟨oldStart, -, oldEnds⟩ := nearBack old oldMem
    exact ⟨by omega, trimmed.proper q member, by omega⟩
  obtain ⟨joined, teStart, reach, -⟩ := joinP_spec trimmed wide low
  rw [place, slice_stop wide, trimNext_slice nearBack (by omega) ends]
  simp only
  rw [joinNext_slice nearTrimmed ⟨start, wide, ends⟩, placeP]
  simp only [List.getLast?_map]
  cases last : front.getLast? with
  | none =>
      have none : front = [] := List.getLast?_eq_none_iff.mp last
      subst none
      simp only [Option.map_none, List.map_cons, List.length_cons, List.length_nil]
      congr 1
      omega
  | some p =>
      obtain ⟨pStart, pWide, pEnds⟩ := nearFront p (List.mem_of_getLast? last)
      have meets : (slice iss str p).stop = (slice iss str piece).seq ↔ p.hi = piece.lo := by
        rw [slice_stop pWide]
        exact point_inj (by omega) (by omega)
      simp only [Option.map_some]
      by_cases meet : p.hi = piece.lo
      · rw [if_pos meet, if_pos (meets.mpr meet)]
        have merged := @slice_merge _ iss str _ _ pWide (teStart ▸ meet) (joined.proper _ List.mem_cons_self)
        rw [merged]
        have positive : 0 < front.length := List.length_pos_of_mem (List.mem_of_getLast? last)
        simp only [List.map_append, List.map_cons, List.map_dropLast, List.length_append, List.length_cons,
          List.length_dropLast]
        congr 1
        omega
      · rw [if_neg meet, if_neg (meets.not.mpr meet)]
        simp only [List.map_append, List.map_cons, List.length_append, List.length_cons]
        congr 1
        omega

/-- Cutting a list where a predicate fails first. -/
theorem span_congr {α : Type} {f g : α → Bool} {items : List α} (same : ∀ item ∈ items, f item = g item) :
    items.takeWhile f = items.takeWhile g ∧ items.dropWhile f = items.dropWhile g := by
  induction items with
  | nil => exact ⟨rfl, rfl⟩
  | cons item items ih =>
      obtain ⟨taken, dropped⟩ := ih fun other member => same other (List.mem_cons_of_mem _ member)
      rw [List.takeWhile_cons, List.takeWhile_cons, List.dropWhile_cons, List.dropWhile_cons,
        same item List.mem_cons_self, taken, dropped]
      exact ⟨rfl, rfl⟩

/-- Queueing a slice is queueing its piece, and the counter follows the length of the queue. -/
theorem enqueue_slice {tp : Tcpcb β} (separate : Separate pieces) (near : ∀ q ∈ pieces, Near n q) (mine : Near n piece)
    (queue : tp.segq = pieces.map (slice iss str)) :
    enqueue tp (slice iss str piece) =
      { tp with
        segq := (enqueueP pieces piece).map (slice iss str)
        qsize := tp.qsize + ((enqueueP pieces piece).length - pieces.length) } := by
  obtain ⟨start, wide, ends⟩ := mine
  have same : ∀ q ∈ pieces, (!seqGt (slice iss str q).seq (slice iss str piece).seq) = decide (q.lo ≤ piece.lo) := by
    intro q member
    obtain ⟨qStart, qWide, qEnds⟩ := near q member
    rw [Bool.eq_iff_iff, Bool.not_eq_true', ← Bool.not_eq_true, decide_eq_true_iff]
    rw [show seqGt (slice iss str q).seq (slice iss str piece).seq = true ↔ piece.lo < q.lo from
      seqGt_point (by omega) (by omega)]
    omega
  obtain ⟨taken, dropped⟩ := span_congr same
  have whole : pieces.takeWhile (fun q => decide (q.lo ≤ piece.lo)) ++ pieces.dropWhile (fun q => decide (q.lo ≤ piece.lo)) =
      pieces := List.takeWhile_append_dropWhile
  have lengths := congrArg List.length whole
  rw [List.length_append] at lengths
  have nearFront : ∀ q ∈ pieces.takeWhile fun q => decide (q.lo ≤ piece.lo), Near n q :=
    fun q member => near q ((List.takeWhile_sublist _).subset member)
  have nearBack : ∀ q ∈ pieces.dropWhile fun q => decide (q.lo ≤ piece.lo), Near n q :=
    fun q member => near q ((List.dropWhile_sublist _).subset member)
  have right : Separate (pieces.dropWhile fun q => decide (q.lo ≤ piece.lo)) := by
    refine @Separate.append_right (pieces.takeWhile fun q => decide (q.lo ≤ piece.lo)) _ ?_
    rw [whole]
    exact separate
  have start' := (split_spec separate piece.lo).1
  rw [enqueue, enqueueP]
  simp only [queue, List.takeWhile_map, List.dropWhile_map, Function.comp_def, taken, dropped, List.getLast?_map]
  generalize pieces.takeWhile (fun q => decide (q.lo ≤ piece.lo)) = front at *
  generalize pieces.dropWhile (fun q => decide (q.lo ≤ piece.lo)) = back at *
  cases last : front.getLast? with
  | none =>
      simp only [Option.map_none]
      rw [place_slice right nearFront nearBack ⟨start, wide, ends⟩]
      congr 1
      show tp.qsize + 1 + _ = _
      omega
  | some p =>
      obtain ⟨pStart, pWide, pEnds⟩ := nearFront p (List.mem_of_getLast? last)
      have below := start' p (List.mem_of_getLast? last)
      have diff : ((slice iss str p).stop - (slice iss str piece).seq).toInt = (p.hi : Int) - piece.lo := by
        rw [slice_stop pWide]
        exact toInt_point_sub (by omega) (by omega)
      have length : ((slice iss str piece).len : Int) = piece.hi - piece.lo := by
        show ((piece.hi - piece.lo : Nat) : Int) = _
        omega
      simp only [Option.map_some, diff, length]
      by_cases overlap : piece.lo < p.hi
      · rw [if_pos overlap, if_pos (by omega)]
        by_cases enclosed : piece.hi ≤ p.hi
        · rw [if_pos enclosed, if_pos (by omega)]
          rw [← queue]
          congr 1
          omega
        · have shorter : Near n { piece with lo := p.hi } :=
            ⟨show n ≤ p.hi by omega, show p.hi ≤ piece.hi by omega, ends⟩
          rw [if_neg enclosed, if_neg (by omega), slice_adj, show piece.lo + ((p.hi : Int) - piece.lo).toNat = p.hi by omega,
            place_slice right nearFront nearBack shorter]
          congr 1
          show tp.qsize + 1 + _ = _
          omega
      · rw [if_neg overlap, if_neg (by omega), place_slice right nearFront nearBack ⟨start, wide, ends⟩]
        congr 1
        show tp.qsize + 1 + _ = _
        omega

/-! ## The connection -/

/-- The connection has received the stream up to `rcv_nxt`, and the pieces are in its queue. -/
structure Holds (iss : BitVec 32) (str : List β) (tp : Tcpcb β) (pieces : List Piece) : Prop where
  queue : tp.segq = pieces.map (slice iss str)
  next : tp.rcvNxt = point iss tp.rcv.length
  received : tp.rcv <+: str
  separate : Separate pieces
  near : ∀ q ∈ pieces, Near tp.rcv.length q
  bound : ∀ q ∈ pieces, q.hi ≤ str.length

variable {tp : Tcpcb β}

/-- The stream up to the end of a piece that is next. -/
theorem Holds.append (holds : Holds iss str tp pieces) (proper : tp.rcv.length ≤ piece.hi) (next : piece.lo = tp.rcv.length)
    (bound : piece.hi ≤ str.length) :
    tp.rcv ++ (slice iss str piece).m = str.take piece.hi ∧ (tp.rcv ++ (slice iss str piece).m).length = piece.hi := by
  have data : tp.rcv ++ (slice iss str piece).m = str.take piece.hi := by
    have so := List.prefix_iff_eq_take.mp holds.received
    show tp.rcv ++ (str.take piece.hi).drop piece.lo = _
    have joined := take_drop_append (Nat.zero_le tp.rcv.length) proper str
    rw [List.drop_zero, List.drop_zero, ← so] at joined
    rw [next, joined]
  rw [data, List.length_take]
  exact ⟨rfl, Nat.min_eq_left bound⟩

/-- What `tcp_reass` does at `present`: nothing, or the first entry goes to the socket. -/
theorem Holds.present (holds : Holds iss str tp pieces) :
    (present tp = some (tp, false) ∧ (tcpsHaveestablished tp.state = false ∨ ∀ q ∈ pieces, q.lo ≠ tp.rcv.length)) ∨
      ∃ q rest tp', pieces = q :: rest ∧ q.lo = tp.rcv.length ∧ tcpsHaveestablished tp.state = true ∧
        present tp = some (tp', q.fin) ∧ Holds iss str tp' rest ∧ tp'.rcv.length = q.hi ∧
        tp'.qsize = tp.qsize - 1 ∧ tp'.state = tp.state := by
  rw [Reass.present]
  by_cases closed : tcpsHaveestablished tp.state = false
  · rw [if_pos closed]
    exact .inl ⟨rfl, .inl closed⟩
  · rw [if_neg closed, holds.queue]
    cases pieces with
    | nil => exact .inl ⟨rfl, .inr nofun⟩
    | cons q rest =>
        obtain ⟨start, wide, ends⟩ := holds.near q List.mem_cons_self
        have first : (slice iss str q).seq = tp.rcvNxt ↔ q.lo = tp.rcv.length := by
          rw [holds.next]
          exact point_inj (by omega) (by omega)
        simp only [List.map_cons]
        by_cases next : q.lo = tp.rcv.length
        · rw [if_pos (first.mpr next)]
          have apart : ¬(rest.map (slice iss str)).head?.map TsegQent.seq = some (slice iss str q).stop := by
            rw [slice_stop wide]
            cases rest with
            | nil => nofun
            | cons other rest =>
                obtain ⟨otherStart, otherWide, otherEnds⟩ := holds.near other (by simp)
                have behind := holds.separate.behind other List.mem_cons_self
                intro same
                have equal : point iss other.lo = point iss q.hi := Option.some.inj same
                rw [point_inj (by omega) (by omega)] at equal
                omega
          rw [if_neg apart]
          obtain ⟨data, length⟩ := holds.append (show tp.rcv.length ≤ q.hi by omega) next (holds.bound q List.mem_cons_self)
          refine .inr ⟨q, rest, _, rfl, next, by simpa using closed, rfl, ?_, length, rfl, rfl⟩
          constructor
          · rfl
          · show (slice iss str q).stop = _
            rw [slice_stop wide, length]
          · rw [data]
            exact List.take_prefix _ _
          · exact holds.separate.tail
          · intro other member
            obtain ⟨otherStart, otherWide, otherEnds⟩ := holds.near other (List.mem_cons_of_mem _ member)
            have behind := holds.separate.behind other member
            rw [length]
            exact ⟨by omega, otherWide, by omega⟩
          · exact fun other member => holds.bound other (List.mem_cons_of_mem _ member)
        · rw [if_neg (first.not.mpr next)]
          refine .inl ⟨rfl, .inr ?_⟩
          intro other member
          obtain rfl | later := List.mem_cons.mp member
          · exact next
          · have behind := holds.separate.behind other later
            omega

/-- A piece is queued. -/
theorem Holds.enqueue (holds : Holds iss str tp pieces) (mine : Near tp.rcv.length piece) (bound : piece.hi ≤ str.length) :
    Holds iss str (enqueue tp (slice iss str piece)) (enqueueP pieces piece) ∧
      (enqueue tp (slice iss str piece)).qsize = tp.qsize + ((enqueueP pieces piece).length - pieces.length) ∧
      (enqueue tp (slice iss str piece)).rcv = tp.rcv ∧
      (enqueue tp (slice iss str piece)).state = tp.state := by
  obtain ⟨start, wide, ends⟩ := mine
  rw [enqueue_slice holds.separate holds.near ⟨start, wide, ends⟩ holds.queue]
  obtain ⟨separate, -⟩ := enqueueP_spec holds.separate wide
  have window : Bounded tp.rcv.length (tp.rcv.length + 2 ^ 31 - 1) (enqueueP pieces piece) := by
    refine enqueueP_bounded holds.separate ?_ start (by omega)
    intro q member
    obtain ⟨qStart, qWide, qEnds⟩ := holds.near q member
    exact ⟨qStart, by omega⟩
  have inside : Bounded 0 str.length (enqueueP pieces piece) :=
    enqueueP_bounded holds.separate (fun q member => ⟨Nat.zero_le _, holds.bound q member⟩) (Nat.zero_le _) bound
  refine ⟨⟨rfl, holds.next, holds.received, separate, ?_, fun q member => (inside q member).2⟩, rfl, rfl, rfl⟩
  intro q member
  have bounds := window q member
  exact ⟨bounds.1, separate.proper q member, by show q.hi < tp.rcv.length + 2 ^ 31; omega⟩

/-! ## Runs -/

/-- A connection, with the segments that were received. -/
structure Trace (β : Type) where
  tp : Tcpcb β
  got : List (Nat × Nat)

inductive Event where
  /-- `tcp_reass` with a segment -/
  | segment (piece : Piece) (maxseg : Int) (memory : Bool)
  /-- the in-order path of `tcp_input`, up to a position -/
  | inline (hi : Nat) (fin : Bool)
  /-- `tcp_reass` without a segment -/
  | flush
  /-- the connection is established -/
  | establish
  /-- other connections use their queues -/
  | others (qsize : Int)

/-- A step; a failed assertion ends it. -/
def step (iss : BitVec 32) (str : List β) (s : Trace β) : Event → Option (Trace β)
  | .segment piece maxseg memory =>
      (tcpReass maxseg memory s.tp (some (slice iss str piece))).map fun (tp, _) =>
        { tp := tp
          got := if refused maxseg memory s.tp (slice iss str piece) then s.got else (piece.lo, piece.hi) :: s.got }
  | .inline hi fin =>
      (dodata 0 true s.tp { th := slice iss str ⟨s.tp.rcv.length, hi, fin⟩, thflagsFin := fin }).map fun (tp, _) =>
        { tp := tp, got := (s.tp.rcv.length, hi) :: s.got }
  | .flush => (tcpReass 0 true s.tp none).map fun (tp, _) => { s with tp := tp }
  | .establish => some { s with tp.state := .established }
  | .others qsize => some { s with tp.qsize := qsize }

/-- The segments are slices at or above `rcv_nxt` and less than half the sequence space ahead of
it, and the in-order path is taken where `tcp_input` takes it. -/
def Admissible (str : List β) (s : Trace β) : Event → Prop
  | .segment piece _ _ => Near s.tp.rcv.length piece ∧ piece.hi ≤ str.length
  | .inline hi fin => Near s.tp.rcv.length ⟨s.tp.rcv.length, hi, fin⟩ ∧ hi ≤ str.length ∧
      (hi ≠ s.tp.rcv.length ∨ fin = true) ∧ s.tp.segq = [] ∧ tcpsHaveestablished s.tp.state = true ∧ tcpsHavercvdfin s.tp.state = false
  | .flush => True
  | .establish => True
  | .others _ => True

instance (n : Nat) (piece : Piece) : Decidable (Near n piece) := inferInstanceAs (Decidable (_ ∧ _ ∧ _))

/-- The positions of received segments. -/
def Got (got : List (Nat × Nat)) (x : Nat) : Prop := ∃ seg ∈ got, seg.1 ≤ x ∧ x < seg.2

/-- The socket has the stream up to `rcv_nxt`, the queue is sorted and its entries do not meet,
and both have exactly the bytes of the segments that were received. -/
def Delivered (iss : BitVec 32) (str : List β) (s : Trace β) : Prop :=
  s.tp.rcv <+: str ∧ s.tp.rcvNxt = point iss s.tp.rcv.length ∧
    ∃ pieces, s.tp.segq = pieces.map (slice iss str) ∧ Separate pieces ∧
      ∀ x, (x < s.tp.rcv.length ∨ Covered pieces x) ↔ Got s.got x

/-- What holds in every state of a run. -/
def Trace.Inv (iss : BitVec 32) (str : List β) (s : Trace β) : Prop :=
  ∃ pieces, Holds iss str s.tp pieces ∧ ∀ x, (x < s.tp.rcv.length ∨ Covered pieces x) ↔ Got s.got x

/-- `present` moves bytes from the queue to the socket. -/
theorem Holds.present_some (holds : Holds iss str tp pieces) :
    ∃ tp' fin pieces', Reass.present tp = some (tp', fin) ∧ Holds iss str tp' pieces' ∧
      tp'.qsize = tp.qsize + (pieces'.length - pieces.length) ∧
      ∀ x, (x < tp'.rcv.length ∨ Covered pieces' x) ↔ (x < tp.rcv.length ∨ Covered pieces x) := by
  obtain ⟨outcome, -⟩ | ⟨q, rest, tp', rfl, next, -, outcome, holds', length, counter, -⟩ := holds.present
  · exact ⟨tp, false, pieces, outcome, holds, by omega, fun x => Iff.rfl⟩
  · obtain ⟨start, wide, -⟩ := holds.near q List.mem_cons_self
    refine ⟨tp', q.fin, rest, outcome, holds', ?_, ?_⟩
    · rw [List.length_cons]
      omega
    · intro x
      rw [length, covered_cons, ← or_assoc]
      refine or_congr_left ?_
      omega

theorem got_cons {lo : Nat} {got : List (Nat × Nat)} : Got ((lo, hi) :: got) x ↔ (lo ≤ x ∧ x < hi) ∨ Got got x := by
  simp [Got]

/-- Nothing is changed but the flags or the counter. -/
theorem Holds.congr {tp' : Tcpcb β} (holds : Holds iss str tp pieces) (queue : tp'.segq = tp.segq)
    (next : tp'.rcvNxt = tp.rcvNxt) (rcv : tp'.rcv = tp.rcv) : Holds iss str tp' pieces where
  queue := queue.trans holds.queue
  next := by rw [next, rcv, holds.next]
  received := rcv ▸ holds.received
  separate := holds.separate
  near := rcv ▸ holds.near
  bound := holds.bound

/-- A segment is queued, and what is next goes to the socket. -/
theorem Holds.tcpReass (holds : Holds iss str tp pieces) (mine : Near tp.rcv.length piece) (bound : piece.hi ≤ str.length)
    (maxseg : Int) (memory : Bool) :
    ∃ tp' fin pieces', Reass.tcpReass maxseg memory tp (some (slice iss str piece)) = some (tp', fin) ∧
      Holds iss str tp' pieces' ∧ tp'.qsize = tp.qsize + (pieces'.length - pieces.length) ∧
      ∀ x, (x < tp'.rcv.length ∨ Covered pieces' x) ↔ (x < tp.rcv.length ∨ Covered pieces x) ∨
        (refused maxseg memory tp (slice iss str piece) = false ∧ piece.lo ≤ x ∧ x < piece.hi) := by
  rw [Reass.tcpReass]
  cases refusal : refused maxseg memory tp (slice iss str piece) with
  | true =>
      refine ⟨tp, false, pieces, rfl, holds, by omega, fun x => ?_⟩
      simp
  | false =>
      obtain ⟨queued, counter, same, -⟩ := holds.enqueue mine bound
      obtain ⟨-, union⟩ := enqueueP_spec holds.separate mine.2.1
      obtain ⟨tp', fin, pieces', outcome, holds', counter', cover⟩ := queued.present_some
      refine ⟨tp', fin, pieces', outcome, holds', by omega, fun x => ?_⟩
      rw [cover, same, union, ← or_assoc]
      simp

/-- Every step succeeds, keeps what was received, and the counter follows the queue. -/
theorem Trace.Inv.step {s : Trace β} {event : Event} (inv : s.Inv iss str) (admissible : Admissible str s event) :
    ∃ next, Reass.step iss str s event = some next ∧ next.Inv iss str ∧
      ((∀ qsize, event ≠ .others qsize) →
        next.tp.qsize - s.tp.qsize = (next.tp.segq.length : Int) - s.tp.segq.length) := by
  obtain ⟨pieces, holds, cover⟩ := inv
  have lengths : s.tp.segq.length = pieces.length := by rw [holds.queue, List.length_map]
  cases event with
  | segment piece maxseg memory =>
      obtain ⟨mine, bound⟩ := admissible
      obtain ⟨tp', fin, pieces', outcome, holds', counter, union⟩ := holds.tcpReass mine bound maxseg memory
      rw [Reass.step, outcome]
      refine ⟨_, rfl, ⟨pieces', holds', fun x => ?_⟩, fun _ => ?_⟩
      · rw [union, cover]
        cases refused maxseg memory s.tp (slice iss str piece) with
        | true => simp
        | false => simp [got_cons, or_comm]
      · show tp'.qsize - s.tp.qsize = (tp'.segq.length : Int) - s.tp.segq.length
        rw [holds'.queue, List.length_map, lengths]
        omega
  | inline hi fin =>
      obtain ⟨⟨-, wide, ends⟩, bound, some, empty, established, open'⟩ := admissible
      have none : pieces = [] := by simpa [empty] using holds.queue.symm
      subst none
      have taken : ((slice iss str ⟨s.tp.rcv.length, hi, fin⟩).len ≠ 0 ∨ fin = true) ∧ tcpsHavercvdfin s.tp.state = false := by
        refine ⟨some.imp_left fun different => ?_, open'⟩
        show hi - s.tp.rcv.length ≠ 0
        have wide : s.tp.rcv.length ≤ hi := wide
        omega
      have inline : (slice iss str ⟨s.tp.rcv.length, hi, fin⟩).seq = s.tp.rcvNxt ∧ s.tp.segq.isEmpty ∧
          tcpsHaveestablished s.tp.state = true := ⟨holds.next.symm, by rw [empty]; rfl, established⟩
      obtain ⟨data, length⟩ := holds.append (show _ ≤ (⟨s.tp.rcv.length, hi, fin⟩ : Piece).hi from wide) rfl bound
      rw [Reass.step, dodata, if_pos taken, if_pos inline]
      refine ⟨_, rfl, ⟨[], ?_, fun x => ?_⟩, fun _ => by simp⟩
      · refine ⟨holds.queue, ?_, ?_, holds.separate, nofun, nofun⟩
        · show (slice iss str ⟨s.tp.rcv.length, hi, fin⟩).stop = _
          rw [slice_stop wide, length]
        · rw [data]
          exact List.take_prefix _ _
      · rw [got_cons, ← cover, length]
        have wide : s.tp.rcv.length ≤ hi := wide
        show x < hi ∨ _ ↔ _
        simp only [covered_nil, or_false]
        omega
  | flush =>
      obtain ⟨tp', fin, pieces', outcome, holds', counter, union⟩ := holds.present_some
      rw [Reass.step, Reass.tcpReass, outcome]
      refine ⟨_, rfl, ⟨pieces', holds', fun x => (union x).trans (cover x)⟩, fun _ => ?_⟩
      show tp'.qsize - s.tp.qsize = (tp'.segq.length : Int) - s.tp.segq.length
      rw [holds'.queue, List.length_map, lengths]
      omega
  | establish => exact ⟨_, rfl, ⟨pieces, holds.congr rfl rfl rfl, cover⟩, fun _ => by simp⟩
  | others qsize => exact ⟨_, rfl, ⟨pieces, holds.congr rfl rfl rfl, cover⟩, fun other => absurd rfl (other qsize)⟩

/-- A connection with nothing received. -/
def connect (iss : BitVec 32) (state : TcpState) (qsize : Int) : Trace β :=
  { tp := { rcvNxt := iss, state := state, segq := [], qsize := qsize, rcv := [] }, got := [] }

end Dragonfly.Net.Reass
