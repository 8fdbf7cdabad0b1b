import Dragonfly.Net.Reass.Fin

/-!
# Segments of a stream with an end

Every segment that reaches the end of the stream carries the FIN.  A segment is cut to the
receive window and then queued or passed on, and the connection sees the FIN or does not.
-/

namespace Dragonfly.Net.Reass

open Dragonfly.Lib Dragonfly.Lib.Seq

variable {β : Type} {iss : BitVec 32} {str : List β} {piece p q : Piece} {pieces rest : List Piece}
  {n lo hi e : Nat} {fin : Bool} {tp : Tcpcb β}

/-! ## The window -/

/-- The end of a slice is cut off. -/
theorem slice_cut (str : List β) (t : Nat) :
    { slice iss str piece with
      len := (slice iss str piece).len - t
      m := (slice iss str piece).m.take ((slice iss str piece).len - t) } =
      slice iss str { piece with hi := piece.hi - t } := by
  have data : ((str.take piece.hi).drop piece.lo).take (piece.hi - piece.lo - t) = (str.take (piece.hi - t)).drop piece.lo := by
    rw [List.drop_take, List.drop_take, List.take_take, Nat.min_eq_left (Nat.sub_le _ _), Nat.sub_right_comm]
  have length : piece.hi - piece.lo - t = piece.hi - t - piece.lo := Nat.sub_right_comm _ _ _
  show ({ seq := _, fin := _, len := piece.hi - piece.lo - t
          m := ((str.take piece.hi).drop piece.lo).take (piece.hi - piece.lo - t) } : TsegQent β) = _
  rw [data, length]
  rfl

/-- What becomes of a segment: it is dropped, nothing is left of it, or a slice is left that has
the FIN if it reaches the end. -/
inductive Trimmed (iss : BitVec 32) (str : List β) (e : Nat) (piece : Piece) : Option (Incoming β) → Prop where
  | dropped : Trimmed iss str e piece none
  | nothing {seg : Incoming β} (empty : seg.th.len = 0) (unmarked : seg.thflagsFin = false) (none : piece.hi ≤ piece.lo) :
      Trimmed iss str e piece (some seg)
  | part (proper : piece.lo ≤ piece.hi) (marked : Marked e piece) :
      Trimmed iss str e piece (some { th := slice iss str piece, thflagsFin := piece.fin })

/-- What is left in the window of a segment that begins in it. -/
theorem trimBack_slice {wnd : BitVec 32} (start : n ≤ lo) (proper : lo ≤ hi) (bound : hi ≤ e) (ends : hi < n + 2 ^ 31)
    (small : wnd.toNat < 2 ^ 31) (marked : fin = decide (hi = e)) (whole : fin = true → hi ≤ n + wnd.toNat ∨ n + wnd.toNat ≤ lo) :
    Trimmed iss str e ⟨lo, min hi (n + wnd.toNat), fin⟩
      (trimBack (point iss n) wnd { th := slice iss str ⟨lo, hi, fin⟩, thflagsFin := fin }) := by
  have edge : point iss n + wnd = point iss (n + wnd.toNat) := by
    rw [← point_add, BitVec.ofNat_toNat, BitVec.setWidth_eq]
  have diff : ((slice iss str ⟨lo, hi, fin⟩).stop - (point iss n + wnd)).toInt = (hi : Int) - (n + wnd.toNat : Nat) := by
    rw [slice_stop proper, edge]
    exact toInt_point_sub (by show hi < _; omega) (by show _ < hi + _; omega)
  have length : ((slice iss str ⟨lo, hi, fin⟩).len : Int) = hi - lo := by
    show ((hi - lo : Nat) : Int) = _
    omega
  have first : (slice iss str ⟨lo, hi, fin⟩).seq = point iss n ↔ lo = n := by
    show point iss lo = point iss n ↔ lo = n
    exact point_inj (by omega) (by omega)
  have closed : wnd = 0 ↔ wnd.toNat = 0 := by
    rw [BitVec.toNat_eq]
    rfl
  rw [trimBack]
  simp only [diff, length, first, closed]
  by_cases fits : hi ≤ n + wnd.toNat
  · rw [if_neg (by omega), Nat.min_eq_left fits]
    exact .part proper marked
  · rw [if_pos (by omega)]
    by_cases beyond : n + wnd.toNat ≤ lo ∧ ¬(wnd.toNat = 0 ∧ lo = n)
    · rw [if_pos (by omega)]
      exact .dropped
    · rw [if_neg (by omega)]
      have cut := @slice_cut _ iss ⟨lo, hi, fin⟩ str (hi - (n + wnd.toNat))
      have count : ((hi : Int) - (n + wnd.toNat : Nat)).toNat = hi - (n + wnd.toNat) := by omega
      rw [count, cut]
      by_cases edge' : lo < n + wnd.toNat
      · have plain : fin = false := by
          by_contra other
          have := whole (by simpa using other)
          omega
        subst plain
        rw [Nat.min_eq_right (by omega), show hi - (hi - (n + wnd.toNat)) = n + wnd.toNat by omega]
        refine .part (show lo ≤ n + wnd.toNat by omega) ?_
        show false = decide (n + wnd.toNat = e)
        rw [eq_comm, decide_eq_false_iff_not]
        omega
      · refine .nothing ?_ rfl ?_
        · show hi - (hi - (n + wnd.toNat)) - lo = 0
          omega
        · show min hi (n + wnd.toNat) ≤ lo
          omega

/-- What is left in the window of any segment. -/
theorem trim_slice {wnd : BitVec 32} (old : n + wnd.toNat < lo + 2 ^ 31) (proper : lo ≤ hi) (bound : hi ≤ e) (ends : hi < n + 2 ^ 31)
    (small : wnd.toNat < 2 ^ 31) (marked : fin = decide (hi = e))
    (whole : fin = true → hi ≤ n + wnd.toNat ∨ n + wnd.toNat ≤ max lo n) :
    Trimmed iss str e ⟨max lo n, min hi (n + wnd.toNat), fin⟩
      (trimBack (point iss n) wnd (trimFront (point iss n) { th := slice iss str ⟨lo, hi, fin⟩, thflagsFin := fin })) := by
  have diff : (point iss n - (slice iss str ⟨lo, hi, fin⟩).seq).toInt = (n : Int) - lo := by
    show (point iss n - point iss lo).toInt = _
    exact toInt_point_sub (by omega) (by omega)
  have length : ((slice iss str ⟨lo, hi, fin⟩).len : Int) = hi - lo := by
    show ((hi - lo : Nat) : Int) = _
    omega
  rw [trimFront]
  simp only [diff, length]
  by_cases start : n ≤ lo
  · rw [if_neg (by omega), Nat.max_eq_left start]
    rw [Nat.max_eq_left start] at whole
    exact trimBack_slice start proper bound ends small marked whole
  · rw [if_pos (by omega), Nat.max_eq_right (by omega)]
    rw [Nat.max_eq_right (by omega)] at whole
    by_cases past : hi < n ∨ hi = n ∧ fin = false
    · rw [if_pos (past.imp (fun less => by omega) fun last => ⟨by omega, last.2⟩), slice_adj]
      have same : lo + (slice iss str ⟨lo, hi, fin⟩).len = hi := by
        show lo + (hi - lo) = hi
        omega
      rw [same, trimBack]
      have edge : point iss n + wnd = point iss (n + wnd.toNat) := by
        rw [← point_add, BitVec.ofNat_toNat, BitVec.setWidth_eq]
      have behind : ((slice iss str ⟨hi, hi, fin⟩).stop - (point iss n + wnd)).toInt ≤ 0 := by
        rw [slice_stop (le_refl hi), edge, toInt_point_sub (by show hi < _; omega) (by show _ < hi + _; omega)]
        show (hi : Int) - _ ≤ 0
        omega
      simp only
      rw [if_neg (by omega)]
      refine .nothing (Nat.sub_self hi) rfl ?_
      show min hi (n + wnd.toNat) ≤ n
      omega
    · have reaches : n ≤ hi := by
        by_contra less
        exact past (.inl (by omega))
      have some : ¬((hi : Int) - lo < n - lo ∨ (n : Int) - lo = hi - lo ∧ fin = false) := by
        rintro (less | ⟨last, plain⟩)
        · omega
        · exact past (.inr ⟨by omega, plain⟩)
      rw [if_neg some, slice_adj, show lo + ((n : Int) - lo).toNat = n by omega]
      exact trimBack_slice (le_refl n) reaches bound ends small marked whole

/-! ## The connection -/

/-- A connection, with whether it has seen the FIN and whether one was accepted in the window. -/
structure Conn (β : Type) where
  tp : Tcpcb β
  seen : Bool
  accepted : Bool

inductive Arrival where
  /-- a segment of the stream, with the receive window, the limit of the queues, whether there is
  memory for an entry, and whether it acknowledges the connection's SYN -/
  | input (lo hi : Nat) (wnd : BitVec 32) (maxseg : Int) (memory ack : Bool)
  /-- the connection's own side moves on -/
  | move (state : TcpState)

/-- A segment of the stream, with the FIN if it reaches the end. -/
def segment (iss : BitVec 32) (str : List β) (lo hi : Nat) : TsegQent β :=
  slice iss str ⟨lo, hi, decide (hi = str.length)⟩

/-- A segment's FIN is in the window, and the segment is not refused. -/
def acceptsFin (maxseg : Int) (memory ack : Bool) (rcvWnd : BitVec 32) (tp : Tcpcb β) (th : TsegQent β) : Bool :=
  match trimBack tp.rcvNxt rcvWnd (trimFront tp.rcvNxt { th := th, thflagsFin := th.fin }) with
  | none => false
  | some seg =>
      match if ack then synAcked tp seg else some tp with
      | none => false
      | some tp =>
          seg.thflagsFin && (!refused maxseg memory tp seg.th ||
            decide (seg.th.seq = tp.rcvNxt ∧ tp.segq.isEmpty ∧ tcpsHaveestablished tp.state = true))

/-- A step of the connection; a failed assertion ends it. -/
def arrive (iss : BitVec 32) (str : List β) (s : Conn β) : Arrival → Option (Conn β)
  | .input lo hi wnd maxseg memory ack =>
      (tcpInput maxseg memory ack wnd s.tp (segment iss str lo hi)).map fun (tp, fin) =>
        { tp := tp
          seen := s.seen || fin
          accepted := s.accepted || acceptsFin maxseg memory ack wnd s.tp (segment iss str lo hi) }
  | .move state => some { s with tp.state := state }

/-- How the connection's own side moves on. -/
inductive Moves : TcpState → TcpState → Prop where
  | close : Moves .established .finWait1
  | acked : Moves .finWait1 .finWait2
  | lastAck : Moves .closeWait .lastAck
  | timeWait : Moves .closing .timeWait

/-- The position of `rcv_nxt`. -/
def Conn.nxt (s : Conn β) : Nat := s.tp.rcv.length + if s.seen then 1 else 0

/-- The position of an entry of the queue. -/
def position (tp : Tcpcb β) (q : TsegQent β) : Nat := tp.rcv.length + ahead tp.rcvNxt q.seq

/-- The segments are slices of the stream, and the numbers are less than half the sequence space
apart. -/
def Arrives (str : List β) (s : Conn β) : Arrival → Prop
  | .input lo hi wnd _ _ _ => lo ≤ hi ∧ hi ≤ str.length ∧ wnd.toNat < 2 ^ 31 ∧ s.nxt + wnd.toNat < lo + 2 ^ 31 ∧
      hi < s.nxt + 2 ^ 31
  | .move state => Moves s.tp.state state

/-- The part `[lo, hi)` of a segment that is in the window is put behind an entry that it meets
or overlaps, and it has the FIN or reaches an entry that has. -/
def LosesFin (tp : Tcpcb β) (lo hi : Nat) (fin : Bool) : Prop :=
  ∃ p ∈ tp.segq, position tp p ≤ lo ∧ lo ≤ position tp p + p.len ∧ position tp p + p.len < hi ∧
    (fin = true ∨ ∃ q ∈ tp.segq, q.fin = true ∧ position tp q ≤ hi)

/-- The FIN is not cut off without the rest of its segment, it is not lost in the queue, and it is
not what the acknowledgement of the SYN passes on. -/
def KeepsFin (str : List β) (s : Conn β) : Arrival → Prop
  | .input lo hi wnd maxseg memory ack => s.seen = false →
      (hi = str.length → hi ≤ s.nxt + wnd.toNat ∨ s.nxt + wnd.toNat ≤ max lo s.nxt) ∧
      ¬LosesFin s.tp (max lo s.nxt) (min hi (s.nxt + wnd.toNat)) (decide (hi = str.length)) ∧
      (ack = true → s.tp.state = .synReceived → (∃ q ∈ s.tp.segq, q.seq = s.tp.rcvNxt ∧ q.fin = true) →
        max lo s.nxt < min hi (s.nxt + wnd.toNat) ∧ memory = true ∧ s.tp.qsize + 1 < maxseg)
  | .move _ => True

/-- The states behind the FIN. -/
def finished : TcpState → Bool
  | .closeWait => true
  | .closing => true
  | .lastAck => true
  | .timeWait => true
  | _ => false

/-- The FIN has not been seen. -/
structure Conn.Open (iss : BitVec 32) (str : List β) (s : Conn β) (pieces : List Piece) : Prop where
  holds : Holds iss str s.tp pieces
  marked : ∀ q ∈ pieces, Marked str.length q
  last : s.accepted = true → Reaches pieces str.length
  first : tcpsHaveestablished s.tp.state = true → ∀ q ∈ pieces, q.lo = s.tp.rcv.length → q.fin = false
  state : finished s.tp.state = false

/-- The FIN has been seen. -/
structure Conn.Closed (iss : BitVec 32) (str : List β) (s : Conn β) : Prop where
  received : s.tp.rcv = str
  next : s.tp.rcvNxt = point iss (str.length + 1)
  state : finished s.tp.state = true

/-- What holds in every state of a run. -/
def Conn.Inv (iss : BitVec 32) (str : List β) (s : Conn β) : Prop :=
  if s.seen then s.Closed iss str else ∃ pieces, s.Open iss str pieces

/-- What is passed on at `present`, for pieces with their flags. -/
theorem Holds.finish (holds : Holds iss str tp pieces) (marked : ∀ q ∈ pieces, Marked str.length q) :
    ∃ tp' fin, Reass.present tp = some (tp', fin) ∧ tp'.state = tp.state ∧
      ((fin = true ∧ tp'.rcv = str ∧ tp'.rcvNxt = point iss str.length ∧ ∃ q ∈ pieces, q.lo = tp.rcv.length ∧ q.fin = true) ∨
        (fin = false ∧ ∃ pieces', Holds iss str tp' pieces' ∧ (∀ q ∈ pieces', Marked str.length q) ∧
          (Reaches pieces str.length → Reaches pieces' str.length) ∧
          (tcpsHaveestablished tp.state = true → ∀ q ∈ pieces', q.lo ≠ tp'.rcv.length))) := by
  obtain ⟨outcome, waiting⟩ | ⟨q, rest, tp', rfl, next, established, outcome, holds', length, -, state⟩ := holds.present
  · refine ⟨tp, false, outcome, rfl, .inr ⟨rfl, pieces, holds, marked, id, fun established => ?_⟩⟩
    obtain closed | none := waiting
    · rw [closed] at established
      cases established
    · exact none
  · have mark := marked q List.mem_cons_self
    have bound := holds.bound q List.mem_cons_self
    refine ⟨tp', q.fin, outcome, state, ?_⟩
    by_cases last : q.hi = str.length
    · have fin : q.fin = true := by rw [mark, decide_eq_true_iff]; exact last
      refine .inl ⟨fin, ?_, ?_, q, List.mem_cons_self, next, fin⟩
      · exact holds'.received.eq_of_length (length.trans last)
      · rw [holds'.next, length, last]
    · refine .inr ⟨by rw [mark, decide_eq_false_iff_not]; exact last, rest, holds',
        fun p member => marked p (List.mem_cons_of_mem _ member), ?_, ?_⟩
      · rintro ⟨p, member, far⟩
        obtain rfl | later := List.mem_cons.mp member
        · omega
        · exact ⟨p, later, far⟩
      · intro _ p member same
        have behind := holds.separate.behind p member
        omega

/-! ## One segment -/

theorem havercvdfin_of_open {state : TcpState} (unfinished : finished state = false) : tcpsHavercvdfin state = false := by
  cases state with
  | timeWait => cases unfinished
  | _ => rfl

/-- What `tcp_input` does behind `dodata` keeps the invariant. -/
theorem inv_receive {tp' : Tcpcb β} {fin accepted : Bool} (unfinished : finished tp'.state = false)
    (result : (fin = true ∧ tp'.rcv = str ∧ tp'.rcvNxt = point iss str.length) ∨
      (fin = false ∧ ∃ pieces, Conn.Open iss str { tp := tp', seen := false, accepted := accepted } pieces)) :
    Conn.Inv iss str { tp := (receiveFin (tp', fin)).1, seen := (receiveFin (tp', fin)).2, accepted := accepted } := by
  obtain ⟨rfl, received, next⟩ | ⟨rfl, pieces, opened⟩ := result
  · rw [Conn.Inv, receiveFin]
    simp only [havercvdfin_of_open unfinished, Bool.false_eq_true, if_false, if_true]
    refine ⟨received, ?_, ?_⟩
    · show tp'.rcvNxt + 1 = _
      rw [next, ← point_add]
      rfl
    · show finished (finState tp'.state) = true
      revert unfinished
      cases tp'.state <;> decide
  · exact ⟨pieces, opened⟩

theorem position_slice (holds : Holds iss str tp pieces) (member : q ∈ pieces) :
    position tp (slice iss str q) = q.lo ∧ position tp (slice iss str q) + (slice iss str q).len = q.hi := by
  obtain ⟨start, wide, ends⟩ := holds.near q member
  have offset : ahead tp.rcvNxt (slice iss str q).seq = q.lo - tp.rcv.length := by
    rw [holds.next, ahead, slice]
    have bound := iss.isLt
    simp only [point, BitVec.toNat_sub, BitVec.toNat_add, BitVec.toNat_ofNat]
    omega
  rw [position, offset]
  constructor
  · omega
  · show tp.rcv.length + (q.lo - tp.rcv.length) + (q.hi - q.lo) = q.hi
    omega

/-- A flag that is lost among the pieces is lost in the queue. -/
theorem losesFin_of_loses (holds : Holds iss str tp pieces) (loses : Loses pieces piece) :
    LosesFin tp piece.lo piece.hi piece.fin := by
  obtain ⟨p, member, low, meet, beyond, flag⟩ := loses
  obtain ⟨start, stop⟩ := position_slice holds member
  refine ⟨slice iss str p, ?_, ?_, ?_, ?_, ?_⟩
  · rw [holds.queue]
    exact List.mem_map_of_mem member
  · omega
  · omega
  · omega
  · obtain mine | ⟨q, qMem, qFin, reach⟩ := flag
    · exact .inl mine
    · refine .inr ⟨slice iss str q, ?_, qFin, ?_⟩
      · rw [holds.queue]
        exact List.mem_map_of_mem qMem
      · rw [(position_slice holds qMem).1]
        exact reach

variable {s : Conn β}

/-- Nothing is left of a segment: what is queued may be passed on. -/
theorem Conn.Open.idle (opened : s.Open iss str pieces) {seg : Incoming β} (empty : seg.th.len = 0)
    (unmarked : seg.thflagsFin = false) {ack : Bool}
    (waits : ack = true → s.tp.state = .synReceived → ¬∃ q ∈ s.tp.segq, q.seq = s.tp.rcvNxt ∧ q.fin = true)
    (maxseg : Int) (memory : Bool) :
    ∃ tp', (if ack then synAcked s.tp seg else some s.tp) = some tp' ∧ dodata maxseg memory tp' seg = some (tp', false) ∧
      Conn.Inv iss str { tp := tp', seen := false, accepted := s.accepted } := by
  have skips : ∀ tp' : Tcpcb β, dodata maxseg memory tp' seg = some (tp', false) := by
    intro tp'
    rw [dodata, if_neg]
    rintro ⟨some | some, -⟩
    · exact some empty
    · rw [unmarked] at some
      cases some
  have same : Conn.Inv iss str { tp := s.tp, seen := false, accepted := s.accepted } :=
    ⟨pieces, opened.holds, opened.marked, opened.last, opened.first, opened.state⟩
  by_cases syn : ack = true ∧ s.tp.state = .synReceived
  · obtain ⟨rfl, state⟩ := syn
    have established : Holds iss str { s.tp with state := .established } pieces := opened.holds.congr rfl rfl rfl
    obtain ⟨tp', fin, outcome, state', result⟩ := established.finish opened.marked
    refine ⟨tp', ?_, skips tp', ?_⟩
    · rw [if_pos rfl, synAcked, if_pos state, if_pos ⟨empty, unmarked⟩, tcpReass, outcome]
      rfl
    · obtain ⟨rfl, -, -, q, member, first, flag⟩ | ⟨rfl, pieces', holds', marked', reach, none⟩ := result
      · refine absurd ⟨slice iss str q, ?_, ?_, flag⟩ (waits rfl state)
        · rw [opened.holds.queue]
          exact List.mem_map_of_mem member
        · rw [opened.holds.next]
          exact congrArg (point iss) first
      · refine ⟨pieces', holds', marked', fun accepted => reach (opened.last accepted), ?_, ?_⟩
        · intro _ q member at'
          exact absurd at' (none rfl q member)
        · rw [state']
          rfl
  · refine ⟨s.tp, ?_, skips s.tp, same⟩
    cases ack with
    | false => rfl
    | true =>
        rw [if_pos rfl, synAcked, if_neg]
        exact fun state => syn ⟨rfl, state⟩

/-- The state in which a segment with something in the window is passed on. -/
theorem synAcked_live {seg : Incoming β} (some : seg.th.len ≠ 0 ∨ seg.thflagsFin = true) (tp : Tcpcb β) (ack : Bool) :
    ∃ state, (if ack then synAcked tp seg else .some tp) = .some { tp with state := state } ∧
      (state = tp.state ∨ ack = true ∧ tp.state = .synReceived ∧ state = .established) := by
  cases ack with
  | false => exact ⟨tp.state, rfl, .inl rfl⟩
  | true =>
      rw [if_pos rfl, synAcked]
      by_cases syn : tp.state = .synReceived
      · rw [if_pos syn, if_neg]
        · exact ⟨.established, rfl, .inr ⟨rfl, syn, rfl⟩⟩
        · rintro ⟨empty, unmarked⟩
          obtain length | flag := some
          · exact length empty
          · rw [unmarked] at flag
            cases flag
      · rw [if_neg syn]
        exact ⟨tp.state, rfl, .inl rfl⟩

/-- What a segment comes to: the stream is complete, or the FIN has not been seen. -/
def Settled (iss : BitVec 32) (str : List β) (accepted : Bool) (tp : Tcpcb β) (fin : Bool) : Prop :=
  finished tp.state = false ∧
    ((fin = true ∧ tp.rcv = str ∧ tp.rcvNxt = point iss str.length) ∨
      (fin = false ∧ ∃ pieces, Conn.Open iss str { tp := tp, seen := false, accepted := accepted } pieces))

/-- The segment is next and nothing is queued. -/
theorem Holds.settled_inline (holds : Holds iss str tp []) (unfinished : finished tp.state = false)
    (wide : tp.rcv.length ≤ piece.hi) (next : piece.lo = tp.rcv.length) (bound : piece.hi ≤ str.length)
    (marked : Marked str.length piece) {accepted : Bool} (flag : accepted = true → piece.fin = true) :
    Settled iss str accepted { tp with rcvNxt := (slice iss str piece).stop, rcv := tp.rcv ++ (slice iss str piece).m }
      piece.fin := by
  obtain ⟨data, length⟩ := holds.append wide next bound
  have stop : (slice iss str piece).stop = point iss piece.hi := slice_stop (by omega)
  refine ⟨unfinished, ?_⟩
  cases fin : piece.fin with
  | true =>
      have last : piece.hi = str.length := by
        rw [marked, decide_eq_true_iff] at fin
        exact fin
      refine .inl ⟨rfl, ?_, ?_⟩
      · show tp.rcv ++ (slice iss str piece).m = str
        rw [data, last, List.take_length]
      · show (slice iss str piece).stop = _
        rw [stop, last]
  | false =>
      refine .inr ⟨rfl, [], ⟨holds.queue, ?_, ?_, holds.separate, nofun, nofun⟩, nofun, ?_, fun _ => nofun, unfinished⟩
      · show (slice iss str piece).stop = point iss (tp.rcv ++ (slice iss str piece).m).length
        rw [stop, length]
      · show tp.rcv ++ (slice iss str piece).m <+: str
        rw [data]
        exact List.take_prefix _ _
      · intro yes
        rw [flag yes] at fin
        cases fin

/-- The segment is queued, and what is next is passed on. -/
theorem Holds.settled_queued (holds : Holds iss str tp pieces) (unfinished : finished tp.state = false)
    (near : Near tp.rcv.length piece) (bound : piece.hi ≤ str.length) (marks : ∀ q ∈ pieces, Marked str.length q)
    (marked : Marked str.length piece) (keeps : ¬Loses pieces piece) {accepted : Bool}
    (flag : accepted = true → Reaches pieces str.length ∨ piece.fin = true) :
    ∃ tp' fin, Reass.present (Reass.enqueue tp (slice iss str piece)) = some (tp', fin) ∧ Settled iss str accepted tp' fin := by
  obtain ⟨start, wide, ends⟩ := near
  obtain ⟨queued, -, same, stays⟩ := holds.enqueue ⟨start, wide, ends⟩ bound
  have marks' := enqueueP_marked holds.separate holds.bound wide bound marks marked keeps
  obtain ⟨tp', fin, outcome, state, result⟩ := queued.finish marks'
  have unfinished' : finished tp'.state = false := by
    rw [state, stays]
    exact unfinished
  refine ⟨tp', fin, outcome, unfinished', ?_⟩
  obtain ⟨rfl, received, next, -⟩ | ⟨rfl, pieces', holds', marked', reach, none⟩ := result
  · exact .inl ⟨rfl, received, next⟩
  · refine .inr ⟨rfl, pieces', holds', marked', ?_, ?_, unfinished'⟩
    · intro yes
      refine reach (enqueueP_reaches holds.separate wide ?_)
      obtain old | mine := flag yes
      · exact .inl old
      · rw [marked, decide_eq_true_iff] at mine
        exact .inr (Nat.le_of_eq mine.symm)
    · intro established q member first
      refine absurd first (none ?_ q member)
      rw [stays]
      rw [state, stays] at established
      exact established

/-- Something of a segment is in the window: it is passed on, queued or refused. -/
theorem Conn.Open.live (opened : s.Open iss str pieces) (near : Near s.tp.rcv.length piece) (bound : piece.hi ≤ str.length)
    (marked : Marked str.length piece) (some : piece.hi - piece.lo ≠ 0 ∨ piece.fin = true) (keeps : ¬Loses pieces piece)
    {maxseg : Int} {memory ack : Bool}
    (waits : ack = true → s.tp.state = .synReceived → (∃ q ∈ s.tp.segq, q.seq = s.tp.rcvNxt ∧ q.fin = true) →
      memory = true ∧ s.tp.qsize + 1 < maxseg) :
    ∃ tp₁ tp' fin, (if ack then synAcked s.tp { th := slice iss str piece, thflagsFin := piece.fin } else .some s.tp) = .some tp₁ ∧
      dodata maxseg memory tp₁ { th := slice iss str piece, thflagsFin := piece.fin } = .some (tp', fin) ∧
      Settled iss str (s.accepted || (piece.fin && (!refused maxseg memory tp₁ (slice iss str piece) ||
        decide ((slice iss str piece).seq = tp₁.rcvNxt ∧ tp₁.segq.isEmpty ∧ tcpsHaveestablished tp₁.state = true)))) tp' fin := by
  obtain ⟨state, acked, moved⟩ := @synAcked_live _ { th := slice iss str piece, thflagsFin := piece.fin } some s.tp ack
  obtain ⟨start, wide, ends⟩ := near
  have unfinished : finished state = false := by
    obtain same | ⟨-, -, same⟩ := moved
    · rw [same]
      exact opened.state
    · rw [same]
      rfl
  have holds : Holds iss str { s.tp with state := state } pieces := opened.holds.congr rfl rfl rfl
  have first : refused maxseg memory { s.tp with state := state } (slice iss str piece) = true →
      tcpsHaveestablished state = true → ∀ q ∈ pieces, q.lo = s.tp.rcv.length → q.fin = false := by
    intro refusal established q member next
    obtain same | ⟨yes, syn, -⟩ := moved
    · exact opened.first (same ▸ established) q member next
    · by_contra flag
      have queued : ∃ q ∈ s.tp.segq, q.seq = s.tp.rcvNxt ∧ q.fin = true := by
        refine ⟨slice iss str q, ?_, ?_, (Bool.not_eq_false _).mp flag⟩
        · rw [opened.holds.queue]
          exact List.mem_map_of_mem member
        · rw [opened.holds.next]
          exact congrArg (point iss) next
      obtain ⟨room, less⟩ := waits yes syn queued
      simp only [refused, room, Bool.not_true, Bool.or_false, Bool.and_eq_true, decide_eq_true_iff] at refusal
      omega
  have last : s.accepted = true → Reaches pieces str.length := opened.last
  have marks := opened.marked
  have next : (slice iss str piece).seq = s.tp.rcvNxt → piece.lo = s.tp.rcv.length := by
    rw [opened.holds.next]
    exact (point_inj (by omega) (by omega)).mp
  revert acked holds first
  generalize changed : ({ s.tp with state := state } : Tcpcb β) = tp₁
  have rcv : tp₁.rcv = s.tp.rcv := by rw [← changed]
  have number : tp₁.rcvNxt = s.tp.rcvNxt := by rw [← changed]
  have stateIs : tp₁.state = state := by rw [← changed]
  intro acked holds first
  rw [← rcv] at start ends next first
  rw [← number] at next
  rw [← stateIs] at unfinished first
  have active : ((slice iss str piece).len ≠ 0 ∨ piece.fin = true) ∧ tcpsHavercvdfin tp₁.state = false :=
    ⟨some, havercvdfin_of_open unfinished⟩
  by_cases inline : (slice iss str piece).seq = tp₁.rcvNxt ∧ tp₁.segq.isEmpty ∧ tcpsHaveestablished tp₁.state = true
  · have empty : pieces = [] := by
      have none := inline.2.1
      rw [holds.queue, List.isEmpty_iff, List.map_eq_nil_iff] at none
      exact none
    subst empty
    refine ⟨tp₁, _, piece.fin, acked, ?_, holds.settled_inline unfinished (by omega) (next inline.1) bound marked ?_⟩
    · rw [dodata, if_pos active, if_pos inline]
      rfl
    · intro accepted
      rw [Bool.or_eq_true, Bool.and_eq_true] at accepted
      obtain old | ⟨flag, -⟩ := accepted
      · obtain ⟨q, member, -⟩ := last old
        cases member
      · exact flag
  · refine ⟨tp₁, ?_⟩
    rw [decide_eq_false inline, Bool.or_false]
    have path : dodata maxseg memory tp₁ { th := slice iss str piece, thflagsFin := piece.fin } =
        tcpReass maxseg memory tp₁ (.some (slice iss str piece)) := by
      rw [dodata, if_pos active, if_neg inline]
    rw [path, tcpReass]
    cases refusal : refused maxseg memory tp₁ (slice iss str piece) with
    | true =>
        refine ⟨tp₁, false, acked, rfl, unfinished, .inr ⟨rfl, pieces, holds, marks, ?_, first refusal, unfinished⟩⟩
        intro accepted
        refine last ?_
        simpa using accepted
    | false =>
        have flag : (s.accepted || (piece.fin && !false)) = true → Reaches pieces str.length ∨ piece.fin = true := by
          rw [Bool.not_false, Bool.and_true, Bool.or_eq_true]
          exact Or.imp_left last
        obtain ⟨tp', fin, outcome, settled⟩ :=
          holds.settled_queued unfinished ⟨start, wide, ends⟩ bound marks marked keeps flag
        exact ⟨tp', fin, acked, outcome, settled⟩

/-! ## Runs -/

variable {wnd : BitVec 32} {maxseg : Int} {memory ack : Bool}

/-- A segment of which something may be left in the window. -/
theorem arrive_input {seg : Incoming β} {tp₁ tp' : Tcpcb β}
    (trim : trimBack s.tp.rcvNxt wnd (trimFront s.tp.rcvNxt { th := segment iss str lo hi, thflagsFin := (segment iss str lo hi).fin }) =
      some seg)
    (acked : (if ack then synAcked s.tp seg else some s.tp) = some tp₁) (data : dodata maxseg memory tp₁ seg = some (tp', fin)) :
    arrive iss str s (.input lo hi wnd maxseg memory ack) =
      some
        { tp := (receiveFin (tp', fin)).1
          seen := s.seen || (receiveFin (tp', fin)).2
          accepted := s.accepted || (seg.thflagsFin && (!refused maxseg memory tp₁ seg.th ||
            decide (seg.th.seq = tp₁.rcvNxt ∧ tp₁.segq.isEmpty ∧ tcpsHaveestablished tp₁.state = true))) } := by
  rw [arrive, tcpInput, acceptsFin, trim]
  simp only [acked, Option.bind_some, data, Option.map_some]

/-- Nothing of the segment is in the window. -/
theorem arrive_dropped
    (trim : trimBack s.tp.rcvNxt wnd (trimFront s.tp.rcvNxt { th := segment iss str lo hi, thflagsFin := (segment iss str lo hi).fin }) =
      none) :
    arrive iss str s (.input lo hi wnd maxseg memory ack) = some s := by
  rw [arrive, tcpInput, acceptsFin, trim]
  simp

theorem Conn.Open.input (opened : s.Open iss str pieces) (unseen : s.seen = false)
    (arrives : Arrives str s (.input lo hi wnd maxseg memory ack)) (keeps : KeepsFin str s (.input lo hi wnd maxseg memory ack)) :
    ∃ next, arrive iss str s (.input lo hi wnd maxseg memory ack) = some next ∧ next.Inv iss str := by
  have start : s.nxt = s.tp.rcv.length := by
    rw [Conn.nxt, unseen]
    rfl
  obtain ⟨proper, bound, small, old, ends⟩ := arrives
  obtain ⟨whole, safe, waits⟩ := keeps unseen
  rw [start] at old ends whole safe waits
  have trimmed : Trimmed iss str str.length ⟨max lo s.tp.rcv.length, min hi (s.tp.rcv.length + wnd.toNat), decide (hi = str.length)⟩
      (trimBack s.tp.rcvNxt wnd (trimFront s.tp.rcvNxt { th := segment iss str lo hi, thflagsFin := (segment iss str lo hi).fin })) := by
    rw [opened.holds.next]
    exact trim_slice old proper bound ends small rfl fun flag => whole (decide_eq_true_iff.mp flag)
  -- nothing is left of the segment: it may still acknowledge the SYN
  have idles : ∀ seg : Incoming β, seg.th.len = 0 → seg.thflagsFin = false →
      ¬max lo s.tp.rcv.length < min hi (s.tp.rcv.length + wnd.toNat) →
      trimBack s.tp.rcvNxt wnd (trimFront s.tp.rcvNxt { th := segment iss str lo hi, thflagsFin := (segment iss str lo hi).fin }) = some seg →
      ∃ next, arrive iss str s (.input lo hi wnd maxseg memory ack) = some next ∧ next.Inv iss str := by
    intro seg empty unmarked none trim
    obtain ⟨tp', acked, data, inv⟩ :=
      opened.idle empty unmarked (fun yes syn queued => none (waits yes syn queued).1) maxseg memory
    refine ⟨_, arrive_input trim acked data, ?_⟩
    rw [unmarked, Bool.false_and, Bool.or_false, unseen]
    exact inv
  generalize trim : trimBack s.tp.rcvNxt wnd
    (trimFront s.tp.rcvNxt { th := segment iss str lo hi, thflagsFin := (segment iss str lo hi).fin }) = result at trimmed
  cases trimmed with
  | dropped =>
      refine ⟨s, arrive_dropped trim, ?_⟩
      rw [Conn.Inv, unseen]
      exact ⟨pieces, opened⟩
  | nothing empty unmarked none => exact idles _ empty unmarked (Nat.not_lt.mpr none) trim
  | part wide marked =>
      by_cases some : min hi (s.tp.rcv.length + wnd.toNat) - max lo s.tp.rcv.length ≠ 0 ∨ decide (hi = str.length) = true
      · have near : Near s.tp.rcv.length
            ⟨max lo s.tp.rcv.length, min hi (s.tp.rcv.length + wnd.toNat), decide (hi = str.length)⟩ := by
          refine ⟨Nat.le_max_right _ _, wide, ?_⟩
          show min hi _ < _
          omega
        have inside : min hi (s.tp.rcv.length + wnd.toNat) ≤ str.length := Nat.le_trans (Nat.min_le_left _ _) bound
        have lost : ¬Loses pieces ⟨max lo s.tp.rcv.length, min hi (s.tp.rcv.length + wnd.toNat), decide (hi = str.length)⟩ :=
          fun loses => safe (losesFin_of_loses opened.holds loses)
        obtain ⟨tp₁, tp', flag, acked, data, settled⟩ :=
          @Conn.Open.live β iss str _ pieces s opened near inside marked some lost maxseg memory ack
            fun yes syn queued => (waits yes syn queued).2
        refine ⟨_, arrive_input trim acked data, ?_⟩
        rw [unseen, Bool.false_or]
        exact inv_receive settled.1 settled.2
      · obtain ⟨none, unmarked⟩ := not_or.mp some
        exact idles _ (not_not.mp none) (Bool.not_eq_true _ ▸ unmarked) (by omega) trim

/-- Behind the FIN nothing is left of a segment. -/
theorem Conn.Closed.input (closed : s.Closed iss str) (seen : s.seen = true)
    (arrives : Arrives str s (.input lo hi wnd maxseg memory ack)) :
    ∃ next, arrive iss str s (.input lo hi wnd maxseg memory ack) = some next ∧ next.Inv iss str := by
  have start : s.nxt = str.length + 1 := by
    rw [Conn.nxt, seen, closed.received]
    rfl
  obtain ⟨proper, bound, small, old, ends⟩ := arrives
  rw [start] at old ends
  have trimmed : Trimmed iss str str.length ⟨max lo (str.length + 1), min hi (str.length + 1 + wnd.toNat), decide (hi = str.length)⟩
      (trimBack s.tp.rcvNxt wnd (trimFront s.tp.rcvNxt { th := segment iss str lo hi, thflagsFin := (segment iss str lo hi).fin })) := by
    rw [closed.next]
    exact trim_slice old proper bound ends small rfl fun _ => .inl (by omega)
  have stays : s.tp.state ≠ .synReceived := by
    intro syn
    have state := closed.state
    rw [syn] at state
    cases state
  generalize trim : trimBack s.tp.rcvNxt wnd
    (trimFront s.tp.rcvNxt { th := segment iss str lo hi, thflagsFin := (segment iss str lo hi).fin }) = result at trimmed
  cases trimmed with
  | dropped =>
      refine ⟨s, arrive_dropped trim, ?_⟩
      rw [Conn.Inv, if_pos seen]
      exact closed
  | @nothing seg empty unmarked none =>
      have acked : (if ack then synAcked s.tp seg else some s.tp) = some s.tp := by
        cases ack with
        | false => rfl
        | true => rw [if_pos rfl, synAcked, if_neg stays]
      have skips : dodata maxseg memory s.tp seg = some (s.tp, false) := by
        rw [dodata, if_neg]
        rintro ⟨length | flag, -⟩
        · exact length empty
        · rw [unmarked] at flag
          cases flag
      refine ⟨_, arrive_input trim acked skips, ?_⟩
      rw [Conn.Inv, seen]
      exact ⟨closed.received, closed.next, closed.state⟩
  | part wide marked =>
      have wide : max lo (str.length + 1) ≤ min hi (str.length + 1 + wnd.toNat) := wide
      omega

/-- The connection's own side moves on. -/
theorem Conn.Inv.move {state : TcpState} (inv : s.Inv iss str) (moves : Moves s.tp.state state) :
    Conn.Inv iss str { s with tp.state := state } := by
  have stage : finished state = finished s.tp.state ∧ tcpsHaveestablished s.tp.state = true := by
    generalize s.tp.state = before at moves
    cases moves <;> exact ⟨rfl, rfl⟩
  rw [Conn.Inv] at inv ⊢
  split at inv
  · rename_i seen
    rw [if_pos seen]
    exact ⟨inv.received, inv.next, stage.1.trans inv.state⟩
  · rename_i unseen
    rw [if_neg unseen]
    obtain ⟨pieces, opened⟩ := inv
    exact ⟨pieces, opened.holds.congr rfl rfl rfl, opened.marked, opened.last, fun _ => opened.first stage.2,
      stage.1.trans opened.state⟩

theorem Conn.Inv.step {arrival : Arrival} (inv : s.Inv iss str) (arrives : Arrives str s arrival)
    (keeps : KeepsFin str s arrival) : ∃ next, arrive iss str s arrival = some next ∧ next.Inv iss str := by
  cases arrival with
  | input lo hi wnd maxseg memory ack =>
      cases seen : s.seen with
      | true =>
          rw [Conn.Inv, if_pos seen] at inv
          exact inv.input seen arrives
      | false =>
          rw [Conn.Inv, seen] at inv
          obtain ⟨pieces, opened⟩ := inv
          exact opened.input seen arrives keeps
  | move state => exact ⟨_, rfl, inv.move arrives⟩

/-- A connection that has received nothing. -/
def Conn.fresh (iss : BitVec 32) (state : TcpState) (qsize : Int) : Conn β :=
  { tp := { rcvNxt := iss, state := state, segq := [], qsize := qsize, rcv := [] }, seen := false, accepted := false }

theorem Conn.Inv.fresh {state : TcpState} (unfinished : finished state = false) (qsize : Int) :
    (Conn.fresh iss state qsize).Inv iss str := by
  refine ⟨[], ⟨rfl, ?_, List.nil_prefix, ⟨List.Pairwise.nil, nofun⟩, nofun, nofun⟩, nofun, nofun, fun _ => nofun, unfinished⟩
  exact (BitVec.add_zero iss).symm

/-- The FIN is seen only with the whole stream received, and with a FIN accepted it is seen with the
last byte. -/
def FinAtEnd (str : List β) (s : Conn β) : Prop :=
  (s.seen = true → s.tp.rcv = str) ∧
    (s.accepted = true → tcpsHaveestablished s.tp.state = true → s.tp.rcv = str → s.seen = true)

theorem Conn.Inv.finAtEnd (inv : s.Inv iss str) : FinAtEnd str s := by
  rw [Conn.Inv] at inv
  split at inv
  · rename_i seen
    exact ⟨fun _ => inv.received, fun _ _ _ => seen⟩
  · rename_i unseen
    obtain ⟨pieces, opened⟩ := inv
    refine ⟨fun seen => absurd seen unseen, fun accepted established whole => ?_⟩
    obtain ⟨q, member, far⟩ := opened.last accepted
    obtain ⟨start, wide, -⟩ := opened.holds.near q member
    have bound := opened.holds.bound q member
    have first := opened.first established q member (by rw [whole]; rw [whole] at start; omega)
    rw [opened.marked q member, decide_eq_false_iff_not] at first
    omega

/-- In every run of segments of a stream in which no FIN is lost, the connection sees the FIN exactly
at the end of the stream, and no assertion fails. -/
theorem fin_at_end {state : TcpState} {qsize : Int} {arrivals : List Arrival} (unfinished : finished state = false)
    (run : Run (fun s arrival next => (Arrives str s arrival ∧ KeepsFin str s arrival) ∧ arrive iss str s arrival = some next)
      (Conn.fresh iss state qsize) arrivals s) :
    FinAtEnd str s ∧ ∀ arrival, Arrives str s arrival → KeepsFin str s arrival → (arrive iss str s arrival).isSome := by
  have inv : s.Inv iss str := by
    refine Run.invariant ?_ run (.fresh unfinished qsize)
    rintro before next arrival inv ⟨⟨arrives, keeps⟩, outcome⟩
    obtain ⟨next', outcome', inv'⟩ := inv.step arrives keeps
    rw [outcome] at outcome'
    exact Option.some.inj outcome' ▸ inv'
  refine ⟨inv.finAtEnd, fun arrival arrives keeps => ?_⟩
  obtain ⟨next, outcome, -⟩ := inv.step arrives keeps
  rw [outcome]
  rfl

instance (tp : Tcpcb β) (lo hi : Nat) (fin : Bool) : Decidable (LosesFin tp lo hi fin) :=
  inferInstanceAs (Decidable (∃ p ∈ tp.segq, _))

instance (str : List β) (s : Conn β) (lo hi : Nat) (wnd : BitVec 32) (maxseg : Int) (memory ack : Bool) :
    Decidable (Arrives str s (.input lo hi wnd maxseg memory ack)) :=
  inferInstanceAs (Decidable (_ ∧ _))

instance (str : List β) (s : Conn β) (lo hi : Nat) (wnd : BitVec 32) (maxseg : Int) (memory ack : Bool) :
    Decidable (KeepsFin str s (.input lo hi wnd maxseg memory ack)) :=
  inferInstanceAs (Decidable (_ → _))

/-- The FIN arrives before the rest of the stream, over the end of the sequence space. -/
theorem fin_at_end_wrap : ∃ s : Conn Nat, s.seen = true ∧ FinAtEnd [5, 6, 7] s := by
  let source : Conn Nat := .fresh 4294967294#32 .established 0
  let last : Arrival := .input 2 3 100 100 true false
  let rest : Arrival := .input 0 2 100 100 true false
  let first := (arrive 4294967294#32 [5, 6, 7] source last).get (by decide)
  let second := (arrive 4294967294#32 [5, 6, 7] first rest).get (by decide)
  have one : (Arrives [5, 6, 7] source last ∧ KeepsFin [5, 6, 7] source last) ∧
      arrive 4294967294#32 [5, 6, 7] source last = some first := ⟨by decide, (Option.some_get _).symm⟩
  have two : (Arrives [5, 6, 7] first rest ∧ KeepsFin [5, 6, 7] first rest) ∧
      arrive 4294967294#32 [5, 6, 7] first rest = some second := ⟨by decide, (Option.some_get _).symm⟩
  exact ⟨second, by decide, (fin_at_end rfl (.cons one (.cons two (.nil _)))).1⟩

/-- The window cuts off the end of a segment with the FIN: the FIN is seen before the end of the
stream.  A segment with the FIN is put behind the one in front of it in the queue: the stream is
delivered and the FIN is not seen. -/
theorem fin_early_fin_lost :
    (∃ s : Conn Nat, Run (fun s arrival next => Arrives [5, 6, 7] s arrival ∧ arrive 1#32 [5, 6, 7] s arrival = some next)
      (Conn.fresh 1#32 .established 0) [.input 0 3 2 100 true false] s ∧ s.seen = true ∧ s.tp.rcv = [5, 6]) ∧
    ∃ s : Conn Nat, Run (fun s arrival next => Arrives [5, 6, 7] s arrival ∧ arrive 1#32 [5, 6, 7] s arrival = some next)
      (Conn.fresh 1#32 .established 0)
      [.input 1 2 100 100 true false, .input 2 3 100 100 true false, .input 0 1 100 100 true false] s ∧
      s.accepted = true ∧ s.tp.rcv = [5, 6, 7] ∧ s.seen = false := by
  let source : Conn Nat := .fresh 1#32 .established 0
  let middle : Arrival := .input 1 2 100 100 true false
  let last : Arrival := .input 2 3 100 100 true false
  let rest : Arrival := .input 0 1 100 100 true false
  let early := (arrive 1#32 [5, 6, 7] source (.input 0 3 2 100 true false)).get (by decide)
  let first := (arrive 1#32 [5, 6, 7] source middle).get (by rfl)
  let second := (arrive 1#32 [5, 6, 7] first last).get (by decide)
  let third := (arrive 1#32 [5, 6, 7] second rest).get (by decide)
  have zero : Arrives [5, 6, 7] source (.input 0 3 2 100 true false) ∧
      arrive 1#32 [5, 6, 7] source (.input 0 3 2 100 true false) = some early := ⟨by decide, (Option.some_get _).symm⟩
  have one : Arrives [5, 6, 7] source middle ∧ arrive 1#32 [5, 6, 7] source middle = some first :=
    ⟨by decide, (Option.some_get _).symm⟩
  have two : Arrives [5, 6, 7] first last ∧ arrive 1#32 [5, 6, 7] first last = some second :=
    ⟨by decide, (Option.some_get _).symm⟩
  have three : Arrives [5, 6, 7] second rest ∧ arrive 1#32 [5, 6, 7] second rest = some third :=
    ⟨by decide, (Option.some_get _).symm⟩
  constructor
  · exact ⟨early, .cons zero (.nil _), by decide⟩
  · exact ⟨third, .cons one (.cons two (.cons three (.nil _))), by decide⟩

end Dragonfly.Net.Reass
