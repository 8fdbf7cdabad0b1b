import Dragonfly.Lib.Run
import Dragonfly.Net.Sack.Insert

/-!
# A sender and its peer

The sender sends, its peer acknowledges with and without options, and the scoreboard is looked
at in between.  The edges of the blocks of an option are not checked against each other, so
that a peer can put any block on the list.  As long as it does not, the board is well-formed
after every update.
-/

namespace Dragonfly.Net.Sack

open Dragonfly.Lib Dragonfly.Lib.Seq

/-- A sender, and from where on the blocks of its board are: `snd_una` of the last update, or
of now if there are no blocks. -/
structure Sender where
  tp : Tcpcb
  since : BitVec 32

inductive Event where
  /-- `snd_max` moves on -/
  | send (sndMax : BitVec 32)
  /-- the acknowledgement of the fast path of `tcp_input`, which leaves the board alone -/
  | ack (thAck : BitVec 32)
  /-- an acknowledgement with the blocks of its option -/
  | sack (thAck : BitVec 32) (blocks : List RawSackblock) (memory : Nat)
  /-- `tcp_sack_skip_sacked` and `tcp_sack_nextseg` look for a number -/
  | look (seq : BitVec 32)
  /-- the retransmission timer -/
  | cleanup

/-- A step of the sender; a failed assertion or a null pointer ends it. -/
def step (s : Sender) : Event → Option Sender
  | .send sndMax => some { s with tp.sndMax := sndMax }
  | .ack thAck => some { tp := { s.tp with sndUna := thAck }, since := if s.tp.scb.blocks.isEmpty then thAck else s.since }
  | .sack thAck blocks memory =>
      (tcpSackUpdateScoreboard { s.tp with sndUna := thAck } blocks memory).map fun tp => { tp := tp, since := thAck }
  | .look seq => (sackBlockLookup s.tp.scb seq).map fun (_, _, scb) => { s with tp.scb := scb }
  | .cleanup => (tcpSackCleanup s.tp.scb).map fun scb => { tp := { s.tp with scb := scb }, since := s.tp.sndUna }

/-- The sender's own numbers: `snd_una` and `snd_max` move on, and `snd_una` does not pass
`snd_max`. -/
def Advances (s : Sender) : Event → Prop
  | .send sndMax => ahead s.tp.sndUna s.tp.sndMax ≤ ahead s.tp.sndUna sndMax ∧ ahead s.tp.sndUna sndMax < 2 ^ 31
  | .ack thAck => ahead s.tp.sndUna thAck ≤ ahead s.tp.sndUna s.tp.sndMax
  | .sack thAck _ _ => ahead s.tp.sndUna thAck ≤ ahead s.tp.sndUna s.tp.sndMax
  | .look _ => True
  | .cleanup => True

/-- The blocks of an option that `tcp_sack_add_blocks` takes. -/
def taken (sndMax : BitVec 32) (blocks : List RawSackblock) (memory : Nat) : List RawSackblock :=
  (blocks.take memory).takeWhile fun raw => !seqGt raw.stop sndMax

/-- Every block that is taken is a part of what is outstanding, and the numbers that are used
are less than half the circle ahead of the board. -/
def Proper (s : Sender) : Event → Prop
  | .send sndMax => ahead s.since sndMax < 2 ^ 31
  | .ack _ => True
  | .sack thAck blocks memory => ∀ raw ∈ taken s.tp.sndMax (considered blocks thAck) memory,
      ahead thAck raw.start < ahead thAck raw.stop ∧ ahead thAck raw.stop ≤ ahead thAck s.tp.sndMax
  | .look seq => ahead s.since seq < 2 ^ 31
  | .cleanup => True

/-- What the board is after an update: in order, in the window, counted, and with a hint that
is on the list. -/
structure Wellformed (tp : Tcpcb) : Prop where
  nonempty : ∀ sb ∈ tp.scb.blocks, ahead tp.sndUna sb.start < ahead tp.sndUna sb.stop
  within : ∀ sb ∈ tp.scb.blocks, ahead tp.sndUna sb.stop ≤ ahead tp.sndUna tp.sndMax
  apart : tp.scb.blocks.Pairwise fun first second => ahead tp.sndUna first.stop < ahead tp.sndUna second.start
  count : tp.scb.nblocks = tp.scb.blocks.length ∧ tp.scb.blocks.length ≤ 8
  hint : tp.scb.lastfound = none ∨ ∃ sb ∈ tp.scb.blocks, tp.scb.lastfound = some sb.addr

/-- A connection with nothing on its board. -/
def connect (sndUna sndMax rexmtHigh : BitVec 32) (maxseg : Nat) : Sender :=
  { tp := { sndUna := sndUna, sndMax := sndMax, rexmtHigh := rexmtHigh, maxseg := maxseg }, since := sndUna }

variable {base : BitVec 32} {limit : Nat} {scb : Scoreboard} {s next : Sender} {event : Event}

/-! ## One update -/

/-- The loop of `tcp_sack_add_blocks` -/
theorem addLoop_spec {sndMax : BitVec 32} {blocks : List RawSackblock} {memory : Nat} (small : limit < 2 ^ 31)
    (board : Board base limit scb)
    (proper : ∀ raw ∈ taken sndMax blocks memory,
      ahead base raw.start < ahead base raw.stop ∧ ahead base raw.stop ≤ limit) :
    ∃ next, addLoop sndMax blocks memory scb = some next ∧ Board base limit next := by
  induction blocks generalizing memory scb with
  | nil => exact ⟨scb, rfl, board⟩
  | cons raw rest ih =>
      rw [addLoop.eq_def]
      simp only
      by_cases beyond : seqGt raw.stop sndMax = true
      · rw [if_pos beyond]
        exact ⟨scb, rfl, board⟩
      · rw [if_neg beyond]
        cases memory with
        | zero => exact ⟨scb, rfl, board⟩
        | succ memory =>
            have first : taken sndMax (raw :: rest) (memory + 1) = raw :: taken sndMax rest memory := by
              rw [taken, List.take_succ_cons, List.takeWhile_cons_of_pos (by simpa using beyond), taken]
            rw [first] at proper
            obtain ⟨order, bound⟩ := proper raw List.mem_cons_self
            obtain ⟨middle, added, board'⟩ := addBlock_spec small board order bound
            obtain ⟨next, outcome, result⟩ :=
              ih board' (fun other member => proper other (List.mem_cons_of_mem _ member))
            refine ⟨next, ?_, result⟩
            simp only [added, Option.bind_some, outcome]

/-- `tcp_sack_update_scoreboard` with a new `snd_una`. -/
theorem update_spec {tp : Tcpcb} {blocks : List RawSackblock} {memory : Nat} (board : Board base limit tp.scb)
    (small : limit < 2 ^ 31) (max : ahead base tp.sndMax = limit) (una : ahead base tp.sndUna ≤ limit)
    (proper : ∀ raw ∈ taken tp.sndMax (considered blocks tp.sndUna) memory,
      ahead tp.sndUna raw.start < ahead tp.sndUna raw.stop ∧
        ahead tp.sndUna raw.stop ≤ ahead tp.sndUna tp.sndMax) :
    ∃ next, tcpSackUpdateScoreboard tp blocks memory = some next ∧ next.sndUna = tp.sndUna ∧
      next.sndMax = tp.sndMax ∧ Board next.sndUna (ahead next.sndUna next.sndMax) next.scb := by
  obtain ⟨acked, ackOutcome, ackBoard⟩ := board.ack small (show ahead base tp.sndUna < 2 ^ 31 by omega)
  have window : limit - ahead base tp.sndUna = ahead tp.sndUna tp.sndMax := by
    subst max
    exact (ahead_of_le una).symm
  rw [window] at ackBoard
  obtain ⟨added, addOutcome, addBoard⟩ :=
    addLoop_spec (show ahead tp.sndUna tp.sndMax < 2 ^ 31 by omega) ackBoard proper
  have outcome : tcpSackUpdateScoreboard tp blocks memory = some
      { tp with
        scb := { added with lostseq := lostLoop tp.sndUna tp.maxseg added.blocks.reverse 0 0 }
        rexmtHigh := if seqLt tp.rexmtHigh tp.sndUna then tp.sndUna else tp.rexmtHigh } := by
    rw [tcpSackUpdateScoreboard, ackOutcome, Option.bind_some, tcpSackAddBlocks, addOutcome, Option.map_some]
  exact ⟨_, outcome, rfl, rfl, { addBoard with }⟩

/-! ## Runs -/

/-- What holds in every state of a run. -/
structure Sender.Inv (s : Sender) : Prop where
  board : Board s.since (ahead s.since s.tp.sndMax) s.tp.scb
  una : ahead s.since s.tp.sndUna ≤ ahead s.since s.tp.sndMax
  small : ahead s.since s.tp.sndMax < 2 ^ 31

theorem Sender.Inv.connect {sndUna sndMax : BitVec 32} (small : ahead sndUna sndMax < 2 ^ 31) (rexmtHigh : BitVec 32)
    (maxseg : Nat) : (connect sndUna sndMax rexmtHigh maxseg).Inv where
  board := Board.empty sndUna _ 0 0
  una := by
    rw [Sack.connect, ahead_self]
    exact Nat.zero_le _
  small := small

/-- An acknowledgement of what is outstanding, as seen from the board. -/
theorem Sender.Inv.ack {thAck : BitVec 32} (inv : s.Inv)
    (le : ahead s.tp.sndUna thAck ≤ ahead s.tp.sndUna s.tp.sndMax) :
    ahead s.since thAck ≤ ahead s.since s.tp.sndMax := by
  have max := ahead_of_le inv.una
  have una := inv.una
  have small := inv.small
  rw [@ahead_trans s.since thAck s.tp.sndUna (by omega)]
  omega

/-- After an update the window starts at `snd_una`. -/
theorem Sender.Inv.of_board {tp : Tcpcb} (board : Board tp.sndUna (ahead tp.sndUna tp.sndMax) tp.scb)
    (small : ahead tp.sndUna tp.sndMax < 2 ^ 31) : Sender.Inv { tp := tp, since := tp.sndUna } where
  board := board
  una := by
    rw [ahead_self]
    exact Nat.zero_le _
  small := small

/-- Every step of the sender that a proper peer can cause succeeds. -/
theorem Sender.Inv.step (inv : s.Inv) (advances : Advances s event) (proper : Proper s event) :
    ∃ next, Sack.step s event = some next ∧ next.Inv := by
  have una := inv.una
  have small := inv.small
  have outstanding := ahead_of_le una
  cases event with
  | send sndMax =>
      obtain ⟨further, half⟩ := advances
      have before := @ahead_trans s.since sndMax s.tp.sndUna (by omega)
      refine ⟨_, rfl, inv.board.mono ?_, ?_, proper⟩
      · show ahead s.since s.tp.sndMax ≤ ahead s.since sndMax
        omega
      · show ahead s.since s.tp.sndUna ≤ ahead s.since sndMax
        omega
  | ack thAck =>
      have acked := inv.ack advances
      refine ⟨_, rfl, ?_⟩
      by_cases none : s.tp.scb.blocks = []
      · rw [if_pos (by simpa using none)]
        have empty : Board thAck (ahead thAck s.tp.sndMax) { s.tp with sndUna := thAck }.scb :=
          inv.board.of_empty none _ _
        refine .of_board empty ?_
        show ahead thAck s.tp.sndMax < 2 ^ 31
        rw [ahead_of_le acked]
        omega
      · rw [if_neg (by simpa using none)]
        exact ⟨inv.board, acked, small⟩
  | sack thAck blocks memory =>
      have acked := inv.ack advances
      have tpBoard : Board s.since (ahead s.since s.tp.sndMax) { s.tp with sndUna := thAck }.scb := inv.board
      obtain ⟨tp, outcome, same, max, board⟩ := update_spec tpBoard small rfl acked proper
      refine ⟨{ tp := tp, since := tp.sndUna }, ?_, .of_board board ?_⟩
      · rw [Sack.step, outcome, same]
        rfl
      · rw [same, max]
        show ahead thAck s.tp.sndMax < 2 ^ 31
        rw [ahead_of_le acked]
        omega
  | look seq =>
      obtain ⟨inside, found, scb, outcome, board, -⟩ := inv.board.lookup small proper
      rw [Sack.step, outcome]
      exact ⟨_, rfl, board, una, small⟩
  | cleanup =>
      rw [Sack.step, tcpSackCleanup, if_neg (by simp [inv.board.count])]
      refine ⟨_, rfl, .of_board (Board.empty _ _ _ _) ?_⟩
      show ahead s.tp.sndUna s.tp.sndMax < 2 ^ 31
      omega

theorem Board.wellformed {tp : Tcpcb} (board : Board tp.sndUna (ahead tp.sndUna tp.sndMax) tp.scb) : Wellformed tp where
  nonempty sb member := (board.chain.inside sb member).1
  within sb member := (board.chain.inside sb member).2
  apart := board.chain.order
  count := ⟨board.count, board.room⟩
  hint := by
    cases found : tp.scb.lastfound with
    | none => exact .inl rfl
    | some addr =>
        obtain ⟨sb, member, same⟩ := List.mem_map.mp (board.hint addr found)
        exact .inr ⟨sb, member, by rw [same]⟩

/-- After an update the board starts at `snd_una`. -/
theorem since_of_sack {thAck : BitVec 32} {blocks : List RawSackblock} {memory : Nat}
    (outcome : step s (.sack thAck blocks memory) = some next) : next.since = next.tp.sndUna := by
  rw [step, tcpSackUpdateScoreboard, Option.map_eq_some_iff] at outcome
  obtain ⟨tp, update, rfl⟩ := outcome
  obtain ⟨acked, -, update⟩ := Option.bind_eq_some_iff.mp update
  obtain ⟨added, -, rfl⟩ := Option.map_eq_some_iff.mp update
  rfl

/-- With a peer whose blocks are parts of what is outstanding, no step fails, and after every
update the board is well-formed. -/
theorem scoreboard_wellformed {sndUna sndMax rexmtHigh : BitVec 32} {maxseg : Nat} {events : List Event}
    (half : ahead sndUna sndMax < 2 ^ 31)
    (run : Run (fun s event next => Advances s event ∧ Proper s event ∧ step s event = some next)
      (connect sndUna sndMax rexmtHigh maxseg) events s)
    (advances : Advances s event) (proper : Proper s event) :
    ∃ next, step s event = some next ∧
      ∀ thAck blocks memory, event = .sack thAck blocks memory → Wellformed next.tp := by
  have inv : s.Inv := by
    refine Run.invariant ?_ run (.connect half rexmtHigh maxseg)
    rintro state next event inv ⟨advances, proper, outcome⟩
    obtain ⟨other, outcome', inv'⟩ := inv.step advances proper
    rw [outcome] at outcome'
    exact Option.some.inj outcome' ▸ inv'
  obtain ⟨next, outcome, inv'⟩ := inv.step advances proper
  refine ⟨next, outcome, ?_⟩
  rintro thAck blocks memory rfl
  have board := inv'.board
  rw [since_of_sack outcome] at board
  exact board.wellformed

/-- Two blocks that the sender has room for. -/
theorem scoreboard_two_blocks :
    ∃ next, step (connect 0 100 0 10) (.sack 5 [⟨10, 20⟩, ⟨30, 40⟩] 4) = some next ∧
      ∀ thAck blocks memory, Event.sack 5 [⟨10, 20⟩, ⟨30, 40⟩] 4 = .sack thAck blocks memory → Wellformed next.tp := by
  refine scoreboard_wellformed (by decide) (.nil (connect 0 100 0 10)) ?_ ?_
  · show ahead 0 5 ≤ ahead 0 100
    decide
  · show ∀ raw ∈ taken 100 (considered [⟨10, 20⟩, ⟨30, 40⟩] 5) 4,
      ahead 5 raw.start < ahead 5 raw.stop ∧ ahead 5 raw.stop ≤ ahead 5 100
    decide

/-- One option with blocks that end in front of their start: the first is put on the list as it
is, and the third one sends the search past the end of the list. -/
theorem reversed_block_panics :
    Advances (connect 0 100 0 10) (.sack 0 [⟨20, 10⟩] 4) ∧
      (∃ next, step (connect 0 100 0 10) (.sack 0 [⟨20, 10⟩] 4) = some next ∧ ¬Wellformed next.tp) ∧
      step (connect 0 100 0 10) (.sack 0 [⟨20, 10⟩, ⟨20, 5⟩, ⟨15, 16⟩] 4) = none := by
  refine ⟨?_, ⟨_, rfl, ?_⟩, rfl⟩
  · show ahead 0 0 ≤ ahead 0 100
    decide
  · intro wellformed
    have order := wellformed.nonempty ⟨0, 20, 10⟩ List.mem_cons_self
    exact absurd order (by decide)

end Dragonfly.Net.Sack
