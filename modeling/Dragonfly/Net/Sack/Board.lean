import Dragonfly.Net.Sack.Lookup

/-!
# The well-formed scoreboard

A board is well-formed with respect to a window of sequence numbers.  Taking off what has been
acknowledged moves the window, and a block that lies in the window can be inserted.
-/

namespace Dragonfly.Net.Sack

open Dragonfly.Lib Dragonfly.Lib.Seq

/-- The scoreboard is well-formed: the window starts at `base` and is `limit` numbers long. -/
structure Board (base : BitVec 32) (limit : Nat) (scb : Scoreboard) : Prop where
  chain : Chain base limit scb.blocks
  count : scb.nblocks = scb.blocks.length
  room : scb.blocks.length ≤ 8
  hint : Hinted scb.lastfound scb.blocks
  distinct : Distinct scb.blocks
  old : ∀ sb ∈ scb.blocks, sb.addr < scb.fresh

variable {base seq : BitVec 32} {limit : Nat} {blocks front back rest : List SackBlock} {sb working : SackBlock}
  {scb : Scoreboard} {nblocks : Int} {lastfound : Option Nat}

/-- The empty scoreboard of a new connection. -/
theorem Board.empty (base : BitVec 32) (limit : Nat) (lostseq : BitVec 32) (fresh : Nat) :
    Board base limit { nblocks := 0, blocks := [], lostseq := lostseq, lastfound := none, fresh := fresh } where
  chain := ⟨nofun, List.Pairwise.nil⟩
  count := rfl
  room := Nat.zero_le _
  hint := nofun
  distinct := List.Pairwise.nil
  old := nofun

/-- A larger window is a window too. -/
theorem Inside.mono {wider : Nat} (inside : Inside base limit sb) (le : limit ≤ wider) : Inside base wider sb :=
  ⟨inside.1, inside.2.trans le⟩

theorem Board.mono {wider : Nat} (board : Board base limit scb) (le : limit ≤ wider) : Board base wider scb :=
  { board with chain := ⟨fun sb member => (board.chain.inside sb member).mono le, board.chain.order⟩ }

/-- A board without blocks is well-formed with respect to every window. -/
theorem Board.of_empty (board : Board base limit scb) (none : scb.blocks = []) (base' : BitVec 32) (limit' : Nat) :
    Board base' limit' scb :=
  { board with chain := none ▸ ⟨nofun, List.Pairwise.nil⟩ }

/-- The addresses of a part of the list are distinct. -/
theorem Distinct.of_addrs (distinct : Distinct blocks)
    (part : (rest.map SackBlock.addr).Sublist (blocks.map SackBlock.addr)) : Distinct rest := by
  have whole : (blocks.map SackBlock.addr).Pairwise (· ≠ ·) := List.pairwise_map.mpr distinct
  exact List.pairwise_map.mp (whole.sublist part)

/-- A block other than the hint can be taken off the list. -/
theorem Hinted.forget (hinted : Hinted lastfound (front ++ sb :: rest)) :
    Hinted (forget lastfound sb.addr) (front ++ rest) := by
  intro addr same
  rw [Sack.forget] at same
  split at same
  · cases same
  · rename_i other
    have member := hinted addr same
    rw [same] at other
    simp only [List.map_append, List.map_cons, List.mem_append, List.mem_cons] at member ⊢
    obtain inFront | rfl | inRest := member
    · exact .inl inFront
    · exact absurd rfl other
    · exact .inr inRest

theorem Hinted.congr {others : List SackBlock} (hinted : Hinted lastfound blocks)
    (same : others.map SackBlock.addr = blocks.map SackBlock.addr) : Hinted lastfound others := by
  intro addr found
  rw [same]
  exact hinted addr found

/-- The search of a board: the place of the number, and the board with a new hint. -/
theorem sackBlockLookup_spec (board : Board base limit scb) (small : limit < 2 ^ 31) (near : ahead base seq < 2 ^ 31)
    (some : scb.blocks ≠ []) :
    ∃ inside found, sackBlockLookup scb seq = .some (inside, found, { scb with lastfound := found }) ∧
      Placed base seq scb.blocks (.some (inside, found)) := by
  have placed := search_placed board.chain small near board.distinct some board.hint
  rw [sackBlockLookup, if_neg (by simpa using some)]
  cases outcome : search scb.blocks scb.lastfound seq with
  | none =>
      rw [outcome] at placed
      cases placed
  | some result =>
      rw [outcome] at placed
      exact ⟨result.1, result.2, rfl, placed⟩

/-- The block that a search names is on the list. -/
theorem Placed.hinted {inside : Bool} {found : Option Nat} (placed : Placed base seq blocks (some (inside, found))) :
    Hinted found blocks := by
  intro addr same
  cases placed with
  | within split =>
      obtain rfl := Option.some.inj same
      rw [split]
      simp
  | @between front back split =>
      rw [lastAddr, Option.map_eq_some_iff] at same
      obtain ⟨sb, last, rfl⟩ := same
      rw [split, List.map_append, List.mem_append]
      exact .inl (List.mem_map_of_mem (List.mem_of_getLast? last))

/-- `sack_block_lookup` leaves the board well-formed. -/
theorem Board.lookup (board : Board base limit scb) (small : limit < 2 ^ 31) (near : ahead base seq < 2 ^ 31) :
    ∃ inside found next, sackBlockLookup scb seq = some (inside, found, next) ∧ Board base limit next ∧
      next.blocks = scb.blocks := by
  by_cases some : scb.blocks = []
  · refine ⟨false, none, scb, ?_, board, rfl⟩
    rw [sackBlockLookup, if_pos (by simpa using some)]
  · obtain ⟨inside, found, outcome, placed⟩ := sackBlockLookup_spec board small near some
    exact ⟨inside, found, _, outcome, { board with hint := placed.hinted }, rfl⟩

/-! ## What has been acknowledged -/

/-- The window starts further on: what is left of the blocks. -/
theorem Inside.rebase {next : BitVec 32} (inside : Inside base limit sb) (le : ahead base next ≤ ahead base sb.start) :
    Inside next (limit - ahead base next) sb := by
  obtain ⟨order, bound⟩ := inside
  rw [Inside, ahead_of_le le, ahead_of_le (le.trans order.le)]
  omega

theorem Chain.rebase {next : BitVec 32} (chain : Chain base limit blocks)
    (le : ∀ sb ∈ blocks, ahead base next ≤ ahead base sb.start) : Chain next (limit - ahead base next) blocks where
  inside sb member := (chain.inside sb member).rebase (le sb member)
  order := by
    refine chain.order.imp_of_mem ?_
    intro first second firstMem secondMem before
    have order := (chain.inside first firstMem).1
    rw [Before, ahead_of_le ((le first firstMem).trans order.le), ahead_of_le (le second secondMem)]
    rw [Before] at before
    have := le first firstMem
    omega

/-- The first block can start elsewhere in front of its end. -/
theorem Chain.restart {start : BitVec 32} (chain : Chain base limit (sb :: rest))
    (lt : ahead base start < ahead base sb.stop) : Chain base limit ({ sb with start := start } :: rest) where
  inside other member := by
    obtain rfl | later := List.mem_cons.mp member
    · exact ⟨lt, (chain.inside sb List.mem_cons_self).2⟩
    · exact chain.tail.inside other later
  order := by
    obtain ⟨first, later⟩ := List.pairwise_cons.mp chain.order
    exact List.pairwise_cons.mpr ⟨fun other member => first other member, later⟩

/-- If the first block starts behind the new base, all blocks do. -/
theorem Chain.all_start_le {next : BitVec 32} (chain : Chain base limit (sb :: rest))
    (le : ahead base next ≤ ahead base sb.start) : ∀ other ∈ sb :: rest, ahead base next ≤ ahead base other.start := by
  intro other member
  obtain rfl | later := List.mem_cons.mp member
  · exact le
  · have order := (chain.inside sb List.mem_cons_self).1
    have before : ahead base sb.stop < ahead base other.start := (List.pairwise_cons.mp chain.order).1 other later
    omega

/-- The loop of `tcp_sack_ack_blocks` -/
theorem ackLoop_spec {ack : BitVec 32} (chain : Chain base limit blocks) (small : limit < 2 ^ 31)
    (near : ahead base ack < 2 ^ 31) (count : nblocks = blocks.length) (hinted : Hinted lastfound blocks) :
    ∃ left lastfound', ackLoop ack blocks nblocks lastfound = some (left, (left.length : Int), lastfound') ∧
      Chain ack (limit - ahead base ack) left ∧ Hinted lastfound' left ∧
      (left.map SackBlock.addr).Sublist (blocks.map SackBlock.addr) := by
  induction blocks generalizing nblocks lastfound with
  | nil =>
      subst count
      exact ⟨[], lastfound, rfl, ⟨nofun, List.Pairwise.nil⟩, hinted, List.Sublist.refl _⟩
  | cons sb rest ih =>
      obtain ⟨order, bound⟩ := chain.inside sb List.mem_cons_self
      have stop := @seqLeq_iff base sb.stop ack (by omega) near
      have start := @seqGt_iff base ack sb.start near (by omega)
      rw [List.length_cons] at count
      rw [ackLoop]
      by_cases gone : seqLeq sb.stop ack = true
      · rw [if_pos gone, if_neg (by omega)]
        have forgotten : Hinted (forget lastfound sb.addr) ([] ++ rest) := Hinted.forget hinted
        have fewer : nblocks - 1 = rest.length := by omega
        obtain ⟨left, lastfound', outcome, chain', hinted', part⟩ := ih chain.tail fewer forgotten
        exact ⟨left, lastfound', outcome, chain', hinted', part.trans (List.sublist_cons_self _ _)⟩
      · rw [if_neg gone]
        rw [stop] at gone
        by_cases cut : seqGt ack sb.start = true
        · rw [if_pos cut]
          refine ⟨{ sb with start := ack } :: rest, lastfound, by rw [count]; rfl, ?_, hinted.congr rfl, List.Sublist.refl _⟩
          have shorter : Chain base limit ({ sb with start := ack } :: rest) := chain.restart (by omega)
          exact shorter.rebase (shorter.all_start_le (le_refl (ahead base ack)))
        · rw [if_neg cut]
          rw [start] at cut
          refine ⟨sb :: rest, lastfound, by rw [count]; rfl, ?_, hinted, List.Sublist.refl _⟩
          exact chain.rebase (chain.all_start_le (by omega))

/-- A board whose addresses are part of the addresses of another list. -/
theorem Board.of_part {next : Scoreboard} (chain : Chain base limit next.blocks)
    (count : next.nblocks = next.blocks.length) (hint : Hinted next.lastfound next.blocks)
    (part : (next.blocks.map SackBlock.addr).Sublist (blocks.map SackBlock.addr)) (distinct : Distinct blocks)
    (room : blocks.length ≤ 8) (old : ∀ sb ∈ blocks, sb.addr < next.fresh) : Board base limit next where
  chain := chain
  count := count
  room := by
    have shorter := part.length_le
    rw [List.length_map, List.length_map] at shorter
    exact shorter.trans room
  hint := hint
  distinct := distinct.of_addrs part
  old := by
    intro sb member
    obtain ⟨other, otherMem, same⟩ := List.mem_map.mp (part.subset (List.mem_map_of_mem member))
    rw [← same]
    exact old other otherMem

/-- `tcp_sack_ack_blocks`: the board with respect to the new window. -/
theorem Board.ack {ack : BitVec 32} (board : Board base limit scb) (small : limit < 2 ^ 31)
    (near : ahead base ack < 2 ^ 31) :
    ∃ next, tcpSackAckBlocks scb ack = some next ∧ Board ack (limit - ahead base ack) next := by
  obtain ⟨left, lastfound, outcome, chain, hinted, part⟩ := ackLoop_spec board.chain small near board.count board.hint
  have next : tcpSackAckBlocks scb ack =
      some { scb with blocks := left, nblocks := left.length, lastfound := lastfound } := by
    rw [tcpSackAckBlocks, outcome]
    rfl
  exact ⟨_, next, .of_part chain rfl hinted part board.distinct board.room board.old⟩

end Dragonfly.Net.Sack
