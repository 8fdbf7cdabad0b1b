import Dragonfly.Net.Sack.Insert
import Mathlib.Tactic.Tauto

/-!
# Insertion as a union

A list of blocks stands for the set of positions that its blocks contain.  A list in order is
the list of the maximal runs of its set, so that the set says what an insertion has to give;
and a search from a hint finds what a search from the left finds.
-/

namespace Dragonfly.Net.Sack

open Dragonfly.Lib Dragonfly.Lib.Seq

/-- The block contains the position. -/
def SackBlock.Has (base : BitVec 32) (sb : SackBlock) (position : Nat) : Prop :=
  ahead base sb.start ≤ position ∧ position < ahead base sb.stop

/-- The position is in one of the blocks. -/
def Sacked (base : BitVec 32) (blocks : List SackBlock) (position : Nat) : Prop :=
  ∃ sb ∈ blocks, sb.Has base position

/-- The edges of a block. -/
def SackBlock.edges (sb : SackBlock) : BitVec 32 × BitVec 32 := (sb.start, sb.stop)

/-- The search from the left: the first block that ends behind the number decides. -/
def leftToRight (seq : BitVec 32) : Option Nat → List SackBlock → Bool × Option Nat
  | before, [] => (false, before)
  | before, cur :: rest =>
      if seqGt cur.stop seq then
        if seqGeq seq cur.start then (true, some cur.addr) else (false, before)
      else leftToRight seq (some cur.addr) rest

variable {base seq : BitVec 32} {limit position : Nat} {blocks others front back rest left : List SackBlock}
  {sb working newblock : SackBlock} {scb next : Scoreboard} {nblocks nblocks' : Int} {lastfound lastfound' : Option Nat}

@[simp]
theorem sacked_nil : ¬Sacked base [] position := by
  rintro ⟨sb, member, -⟩
  cases member

@[simp]
theorem sacked_cons : Sacked base (sb :: rest) position ↔ sb.Has base position ∨ Sacked base rest position := by
  simp [Sacked]

@[simp]
theorem sacked_append : Sacked base (front ++ back) position ↔ Sacked base front position ∨ Sacked base back position := by
  simp only [Sacked, List.mem_append]
  constructor
  · rintro ⟨sb, inFront | inBack, has⟩
    · exact .inl ⟨sb, inFront, has⟩
    · exact .inr ⟨sb, inBack, has⟩
  · rintro (⟨sb, member, has⟩ | ⟨sb, member, has⟩)
    · exact ⟨sb, .inl member, has⟩
    · exact ⟨sb, .inr member, has⟩

/-! ## Maximal runs -/

/-- All positions of the later blocks are behind the end of the first one. -/
theorem Chain.sacked_tail (chain : Chain base limit (sb :: rest)) (sacked : Sacked base rest position) :
    ahead base sb.stop < position := by
  obtain ⟨other, member, has⟩ := sacked
  have before : ahead base sb.stop < ahead base other.start := (List.pairwise_cons.mp chain.order).1 other member
  exact before.trans_le has.1

/-- The set of a list in order starts where its first block starts. -/
theorem Chain.start_le (chain : Chain base limit (sb :: rest)) (sacked : Sacked base (sb :: rest) position) :
    ahead base sb.start ≤ position := by
  have inside := (chain.inside sb List.mem_cons_self).1
  rcases (sacked_cons).mp sacked with here | later
  · exact here.1
  · have behind := chain.sacked_tail later
    omega

theorem Chain.sacked_start (chain : Chain base limit (sb :: rest)) :
    Sacked base (sb :: rest) (ahead base sb.start) :=
  (sacked_cons).mpr (.inl ⟨le_rfl, (chain.inside sb List.mem_cons_self).1⟩)

/-- The first run ends where its first block ends. -/
theorem Chain.not_sacked_stop (chain : Chain base limit (sb :: rest)) :
    ¬Sacked base (sb :: rest) (ahead base sb.stop) := by
  intro sacked
  rcases (sacked_cons).mp sacked with here | later
  · exact lt_irrefl _ here.2
  · exact lt_irrefl _ (chain.sacked_tail later)

theorem Chain.stop_le_of_same {sb' : SackBlock} {rest' : List SackBlock}
    (chain' : Chain base limit (sb' :: rest')) (start : ahead base sb.start = ahead base sb'.start)
    (same : ∀ position, Sacked base (sb :: rest) position → Sacked base (sb' :: rest') position) :
    ahead base sb.stop ≤ ahead base sb'.stop := by
  by_contra longer
  have inside' := (chain'.inside sb' List.mem_cons_self).1
  exact chain'.not_sacked_stop (same _ ((sacked_cons).mpr (.inl ⟨by omega, by omega⟩)))

/-- Two lists in order with the same set have the same blocks. -/
theorem Chain.edges_eq (chain : Chain base limit blocks) (other : Chain base limit others)
    (same : ∀ position, Sacked base blocks position ↔ Sacked base others position) :
    blocks.map SackBlock.edges = others.map SackBlock.edges := by
  induction blocks generalizing others with
  | nil =>
      cases others with
      | nil => rfl
      | cons sb rest => exact absurd ((same _).mpr other.sacked_start) sacked_nil
  | cons sb rest ih =>
      cases others with
      | nil => exact absurd ((same _).mp chain.sacked_start) sacked_nil
      | cons sb' rest' =>
          have start : ahead base sb.start = ahead base sb'.start :=
            le_antisymm (chain.start_le ((same _).mpr other.sacked_start))
              (other.start_le ((same _).mp chain.sacked_start))
          have stop : ahead base sb.stop = ahead base sb'.stop :=
            le_antisymm (other.stop_le_of_same start fun position => (same position).mp)
              (chain.stop_le_of_same start.symm fun position => (same position).mpr)
          have tails : ∀ position, Sacked base rest position ↔ Sacked base rest' position := by
            intro position
            have whole := same position
            simp only [sacked_cons, SackBlock.Has, start, stop] at whole
            constructor
            · intro sacked
              have behind := chain.sacked_tail sacked
              exact (whole.mp (.inr sacked)).resolve_left fun here => by omega
            · intro sacked
              have behind := other.sacked_tail sacked
              exact (whole.mpr (.inr sacked)).resolve_left fun here => by omega
          rw [List.map_cons, List.map_cons, ih chain.tail other.tail tails]
          rw [SackBlock.edges, SackBlock.edges, eq_of_ahead start, eq_of_ahead stop]

/-! ## The hint -/

theorem leftToRight_placed (chain : Chain base limit blocks) (small : limit < 2 ^ 31) (near : ahead base seq < 2 ^ 31)
    {prior : List SackBlock} (split : blocks = prior ++ rest)
    (low : ∀ other ∈ prior, ahead base other.stop ≤ ahead base seq) :
    Placed base seq blocks (some (leftToRight seq (lastAddr prior) rest)) := by
  induction rest generalizing prior with
  | nil => exact .between split low fun other => nofun
  | cons cur rest ih =>
      have member : cur ∈ blocks := by
        rw [split]
        exact List.mem_append_right _ List.mem_cons_self
      rw [leftToRight]
      by_cases above : seqGt cur.stop seq = true
      · rw [if_pos above]
        rw [apply_ite some]
        exact placed_of_gt chain small near split low above
      · rw [if_neg above, ← lastAddr_concat prior cur]
        refine ih (by rw [split, List.append_assoc, List.singleton_append]) ?_
        intro other inside
        obtain old | new := List.mem_append.mp inside
        · exact low other old
        · rw [List.mem_singleton.mp new]
          exact stop_le_of_not_gt chain small near member above

/-- What every search has to say of a number. -/
def placeOf (base seq : BitVec 32) (blocks : List SackBlock) : Bool × Option Nat :=
  match blocks.dropWhile fun sb => ahead base sb.stop ≤ ahead base seq with
  | [] => (false, lastAddr (blocks.takeWhile fun sb => ahead base sb.stop ≤ ahead base seq))
  | sb :: _ =>
      if ahead base sb.start ≤ ahead base seq then (true, some sb.addr)
      else (false, lastAddr (blocks.takeWhile fun sb => ahead base sb.stop ≤ ahead base seq))

theorem Placed.eq_placeOf {answer : Option (Bool × Option Nat)} (chain : Chain base limit blocks)
    (placed : Placed base seq blocks answer) : answer = some (placeOf base seq blocks) := by
  cases placed with
  | @within front rest sb split low high =>
      subst split
      have passed : ∀ other ∈ front, decide (ahead base other.stop ≤ ahead base seq) = true := by
        intro other member
        have before : ahead base other.stop < ahead base sb.start :=
          (List.pairwise_append.mp chain.order).2.2 other member sb List.mem_cons_self
        exact decide_eq_true (by omega)
      rw [placeOf, List.dropWhile_append_of_pos passed, List.dropWhile_cons_of_neg (by simpa using high)]
      simp only
      rw [if_pos low]
  | @between front back split low high =>
      subst split
      have passed : ∀ other ∈ front, decide (ahead base other.stop ≤ ahead base seq) = true := by simpa using low
      rw [placeOf, List.dropWhile_append_of_pos passed, List.takeWhile_append_of_pos passed]
      cases back with
      | nil => simp
      | cons sb rest =>
          have start := high sb List.mem_cons_self
          have order := (chain.inside sb (List.mem_append_right _ List.mem_cons_self)).1
          rw [List.dropWhile_cons_of_neg (by simp; omega), List.takeWhile_cons_of_neg (by simp; omega), List.append_nil]
          simp only
          rw [if_neg (by omega)]

/-- Whatever the hint is, the search finds what a search from the left finds. -/
theorem search_eq_leftToRight (chain : Chain base limit blocks) (small : limit < 2 ^ 31) (near : ahead base seq < 2 ^ 31)
    (distinct : Distinct blocks) (some : blocks ≠ []) {hint : Option Nat} (hinted : Hinted hint blocks) :
    search blocks hint seq = .some (leftToRight seq none blocks) := by
  rw [(search_placed chain small near distinct some hinted).eq_placeOf chain]
  exact ((leftToRight_placed chain small near (List.nil_append blocks).symm fun other => nofun).eq_placeOf chain).symm

/-! ## Insertion -/

/-- What a step of the insertion does to the set. -/
theorem swallow_sacked {stop : BitVec 32} {start : Nat} (chain : Chain base limit rest) (small : limit < 2 ^ 31)
    (near : ahead base stop < 2 ^ 31) (past : ∀ sb ∈ rest, start < ahead base sb.start)
    (outcome : swallow stop rest nblocks lastfound = some (left, nblocks', lastfound')) (position : Nat) :
    (start ≤ position ∧ position < ahead base stop) ∨ Sacked base left position ↔
      (start ≤ position ∧ position < ahead base stop) ∨ Sacked base rest position := by
  induction rest generalizing nblocks lastfound with
  | nil =>
      obtain ⟨rfl, -, -⟩ := Prod.mk.injEq .. ▸ Option.some.inj outcome
      exact Iff.rfl
  | cons sb rest ih =>
      obtain ⟨order, bound⟩ := chain.inside sb List.mem_cons_self
      have reach := @seqGeq_iff base stop sb.stop near (by omega)
      rw [swallow] at outcome
      by_cases gone : seqGeq stop sb.stop = true
      · rw [if_pos gone] at outcome
        split at outcome
        · cases outcome
        · rw [ih chain.tail (fun other member => past other (List.mem_cons_of_mem _ member)) outcome, sacked_cons]
          have first := past sb List.mem_cons_self
          rw [reach] at gone
          constructor
          · exact Or.imp_right .inr
          · rintro (here | here | later)
            · exact .inl here
            · exact .inl ⟨by have := here.1; omega, by have := here.2; omega⟩
            · exact .inr later
      · rw [if_neg gone] at outcome
        obtain ⟨rfl, -, -⟩ := Prod.mk.injEq .. ▸ Option.some.inj outcome
        exact Iff.rfl

/-- What is left are the last blocks of the list, the first of which ends behind the working
block. -/
theorem swallow_left {stop : BitVec 32} (chain : Chain base limit rest) (small : limit < 2 ^ 31)
    (near : ahead base stop < 2 ^ 31)
    (outcome : swallow stop rest nblocks lastfound = some (left, nblocks', lastfound')) :
    left <:+ rest ∧ ∀ sb ∈ left.head?, ahead base stop < ahead base sb.stop := by
  induction rest generalizing nblocks lastfound with
  | nil =>
      obtain ⟨rfl, -, -⟩ := Prod.mk.injEq .. ▸ Option.some.inj outcome
      exact ⟨List.suffix_refl _, nofun⟩
  | cons sb rest ih =>
      have bound := (chain.inside sb List.mem_cons_self).2
      have reach := @seqGeq_iff base stop sb.stop near (by omega)
      rw [swallow] at outcome
      by_cases gone : seqGeq stop sb.stop = true
      · rw [if_pos gone] at outcome
        split at outcome
        · cases outcome
        · obtain ⟨part, beyond⟩ := ih chain.tail outcome
          exact ⟨part.trans (List.suffix_cons _ _), beyond⟩
      · rw [if_neg gone] at outcome
        rw [reach] at gone
        obtain ⟨rfl, -, -⟩ := Prod.mk.injEq .. ▸ Option.some.inj outcome
        refine ⟨List.suffix_refl _, ?_⟩
        rintro other ⟨⟩
        omega

theorem consolidate_sacked (opened : Opened base limit front working rest) (small : limit < 2 ^ 31)
    (outcome : consolidate scb front working rest nblocks = some next) (position : Nat) :
    Sacked base next.blocks position ↔ Sacked base (front ++ working :: rest) position := by
  obtain ⟨order, bound⟩ := opened.left.inside working (by simp)
  rw [consolidate] at outcome
  cases swallowed : swallow working.stop rest nblocks scb.lastfound with
  | none => simp [swallowed] at outcome
  | some result =>
      obtain ⟨left, nblocks', lastfound'⟩ := result
      have same := swallow_sacked opened.right small (by omega) opened.past swallowed position
      obtain ⟨part, beyond⟩ := swallow_left opened.right small (by omega) swallowed
      have whole : Sacked base (front ++ working :: rest) position ↔
          Sacked base front position ∨ working.Has base position ∨ Sacked base left position := by
        rw [sacked_append, sacked_cons]
        exact or_congr_right same.symm
      rw [whole]
      cases left with
      | nil =>
          obtain rfl := Option.some.inj (swallowed ▸ outcome)
          simp
      | cons sb left =>
          simp only [swallowed] at outcome
          have member : sb ∈ rest := part.subset List.mem_cons_self
          obtain ⟨sbOrder, sbBound⟩ := opened.right.inside sb member
          have past := opened.past sb member
          have ends := beyond sb rfl
          have reach := @seqGeq_iff base working.stop sb.start (by omega) (by omega)
          by_cases joined : seqGeq working.stop sb.start = true
          · rw [if_pos joined] at outcome
            rw [reach] at joined
            split at outcome
            · cases outcome
            · obtain rfl := Option.some.inj outcome
              -- the two blocks meet, so that the joined one is their union
              have union : ({ working with stop := sb.stop } : SackBlock).Has base position ↔
                  working.Has base position ∨ sb.Has base position := by
                simp only [SackBlock.Has]
                omega
              rw [sacked_append, sacked_cons, sacked_cons, union, or_assoc]
          · rw [if_neg joined] at outcome
            obtain rfl := Option.some.inj outcome
            rw [sacked_append, sacked_cons]

/-- A block that reaches into or up to the new one covers both when it is extended. -/
theorem extend_has {stop : BitVec 32} (inside : Inside base limit sb) (small : limit < 2 ^ 31)
    (start : ahead base sb.start ≤ ahead base seq) (reach : ahead base seq ≤ ahead base sb.stop)
    (bound : ahead base stop ≤ limit) (position : Nat) :
    (extend sb stop).Has base position ↔ sb.Has base position ∨ (ahead base seq ≤ position ∧ position < ahead base stop) := by
  obtain ⟨order, sbBound⟩ := inside
  have longer := @seqGt_iff base stop sb.stop (by omega) (by omega)
  rw [Sack.extend]
  split
  · rename_i gt
    rw [longer] at gt
    simp only [SackBlock.Has]
    omega
  · rename_i le
    rw [longer] at le
    simp only [SackBlock.Has]
    omega

theorem place_sacked {inside : Bool} {found : Option Nat} (board : Board base limit scb) (small : limit < 2 ^ 31)
    (placed : Placed base newblock.start scb.blocks (some (inside, found))) (proper : Inside base limit newblock)
    (outcome : place scb newblock inside found = some next) (position : Nat) :
    Sacked base next.blocks position ↔ Sacked base scb.blocks position ∨ newblock.Has base position := by
  obtain ⟨order, bound⟩ := proper
  have distinct := board.distinct
  have chain := board.chain
  have extended : ∀ {front rest : List SackBlock} {sb : SackBlock}, scb.blocks = front ++ sb :: rest →
      ahead base sb.start ≤ ahead base newblock.start → ahead base newblock.start ≤ ahead base sb.stop →
      consolidate scb front (extend sb newblock.stop) rest scb.nblocks = some next →
      (Sacked base next.blocks position ↔ Sacked base scb.blocks position ∨ newblock.Has base position) := by
    intro front rest sb split start reach outcome
    have inOrder := split ▸ chain
    rw [consolidate_sacked (.extend inOrder (by omega) bound) small outcome, split, sacked_append, sacked_append,
      sacked_cons, sacked_cons, extend_has (inOrder.inside sb (by simp)) small start reach bound]
    simp only [SackBlock.Has]
    tauto
  have inserted : ∀ {front rest : List SackBlock}, scb.blocks = front ++ rest →
      Opened base limit front newblock rest → consolidate scb front newblock rest (scb.nblocks + 1) = some next →
      (Sacked base next.blocks position ↔ Sacked base scb.blocks position ∨ newblock.Has base position) := by
    intro front rest split opened outcome
    rw [consolidate_sacked opened small outcome, split, sacked_append, sacked_append, sacked_cons]
    tauto
  cases placed with
  | @within front rest sb split low high =>
      rw [split] at distinct
      rw [place] at outcome
      simp only [split, Keyed.onward_append_cons distinct, Keyed.upTo_append_cons distinct, Bool.true_or,
        if_true] at outcome
      exact extended split low high.le outcome
  | @between front back split low high =>
      rw [split] at chain
      obtain rfl | ⟨front, sb, rfl⟩ := List.eq_nil_or_concat front
      · rw [List.nil_append] at split chain
        subst split
        exact inserted (List.nil_append _).symm ⟨.singleton ⟨order, bound⟩, chain, high⟩ outcome
      · rw [List.concat_eq_append] at *
        have split' : scb.blocks = front ++ sb :: back := by rw [split, List.append_assoc, List.singleton_append]
        rw [split'] at distinct
        rw [lastAddr_concat, place] at outcome
        simp only [split', Keyed.onward_append_cons distinct, Keyed.upTo_append_cons distinct,
          Bool.false_or] at outcome
        have ends := low sb (by simp)
        have start := (chain.inside sb (by simp)).1
        by_cases touching : sb.stop = newblock.start
        · rw [if_pos (by simpa using touching)] at outcome
          exact extended split' (by omega) (by rw [touching]) outcome
        · rw [if_neg (by simpa using touching)] at outcome
          have strict : ahead base sb.stop ≠ ahead base newblock.start := fun same => touching (eq_of_ahead same)
          have joined := chain.append_left.join (.singleton ⟨order, bound⟩) (by simp [Before]; omega)
          exact inserted split ⟨by rw [List.append_assoc]; exact joined, chain.append_right, high⟩ outcome

/-- What an insertion is: the board is well-formed, and its blocks are the maximal runs of the
union. -/
structure Inserted (base : BitVec 32) (limit : Nat) (scb : Scoreboard) (newblock : SackBlock) (next : Scoreboard) :
    Prop where
  board : Board base limit next
  union : ∀ position, Sacked base next.blocks position ↔ Sacked base scb.blocks position ∨ newblock.Has base position
  runs : ∀ others, Chain base limit others →
    (∀ position, Sacked base others position ↔ Sacked base scb.blocks position ∨ newblock.Has base position) →
    others.map SackBlock.edges = next.blocks.map SackBlock.edges

theorem Inserted.of_union (board : Board base limit next)
    (union : ∀ position, Sacked base next.blocks position ↔ Sacked base scb.blocks position ∨ newblock.Has base position) :
    Inserted base limit scb newblock next where
  board := board
  union := union
  runs _ chain same := chain.edges_eq board.chain fun position => (same position).trans (union position).symm

/-- `insert_block` puts the maximal runs of the union on the list. -/
theorem insertBlock_inserted (board : Board base limit scb) (small : limit < 2 ^ 31) (some : scb.blocks ≠ [])
    (more : scb.blocks.length < 8) (proper : Inside base limit newblock)
    (unused : ∀ sb ∈ scb.blocks, sb.addr ≠ newblock.addr) (old : newblock.addr < scb.fresh) :
    ∃ next, insertBlock scb newblock = .some next ∧ Inserted base limit scb newblock next := by
  obtain ⟨next, outcome, board'⟩ := insertBlock_spec small board some proper unused old
  refine ⟨next, outcome, .of_union board' ?_⟩
  have positive : 0 < scb.blocks.length := List.length_pos_iff.mpr some
  have count := board.count
  have order := proper.1
  have bound := proper.2
  rw [insertBlock, if_neg (by omega), if_neg (by rw [maxsavedblocks]; omega),
    if_neg (by rw [maxsavedblocks]; omega)] at outcome
  obtain ⟨inside, found, looked, placed⟩ :=
    sackBlockLookup_spec board small (show ahead base newblock.start < 2 ^ 31 by omega) some
  simp only [looked] at outcome
  have hinted : Board base limit { scb with lastfound := found } := { board with hint := placed.hinted }
  intro position
  have placedUnion := place_sacked hinted small placed proper outcome position
  exact placedUnion

/-- Inserting into a board is a union, and the hint is not seen: `insert_block` puts the
maximal runs of the union on a list with a block and less than eight, and leaves one with
eight alone; `tcp_sack_add_blocks` does the same and puts the first block on an empty list;
and with every hint `sack_block_lookup` finds what a search from the left finds. -/
theorem insertion_is_union (board : Board base limit scb) (small : limit < 2 ^ 31) (raw : RawSackblock)
    (order : ahead base raw.start < ahead base raw.stop) (bound : ahead base raw.stop ≤ limit) :
    (scb.blocks ≠ [] → scb.blocks.length < 8 → ∀ addr, (∀ sb ∈ scb.blocks, sb.addr ≠ addr) → addr < scb.fresh →
      ∃ next, insertBlock scb ⟨addr, raw.start, raw.stop⟩ = some next ∧
        Inserted base limit scb ⟨addr, raw.start, raw.stop⟩ next) ∧
    (scb.blocks.length < 8 → ∃ next, addBlock scb raw = some next ∧
      Inserted base limit scb ⟨scb.fresh, raw.start, raw.stop⟩ next) ∧
    (scb.blocks.length = 8 → ∀ addr, insertBlock scb ⟨addr, raw.start, raw.stop⟩ = some scb) ∧
    ∀ hint, Hinted hint scb.blocks → ∀ seq, ahead base seq < 2 ^ 31 →
      (sackBlockLookup { scb with lastfound := hint } seq).map (fun (inside, found, _) => (inside, found)) =
        some (leftToRight seq none scb.blocks) := by
  refine ⟨?_, ?_, ?_, ?_⟩
  · intro some more addr unused old
    exact insertBlock_inserted board small some more ⟨order, bound⟩ unused old
  · intro more
    by_cases none : scb.blocks = []
    · obtain ⟨next, outcome, board'⟩ := addBlock_spec small board order bound
      refine ⟨next, outcome, .of_union board' fun position => ?_⟩
      have count : scb.nblocks = 0 := by rw [board.count, none]; rfl
      simp only [addBlock, none, List.isEmpty_nil, if_true, count, Option.some.injEq] at outcome
      rw [← outcome, none]
      simp
    · have newer : Board base limit { scb with fresh := scb.fresh + 1 } :=
        { board with old := fun sb member => Nat.lt_succ_of_lt (board.old sb member) }
      rw [addBlock, if_neg (by simpa using none)]
      obtain ⟨next, outcome, inserted⟩ := @insertBlock_inserted base limit ⟨scb.fresh, raw.start, raw.stop⟩ _ newer small none more
        ⟨order, bound⟩ (fun sb member => (board.old sb member).ne) (Nat.lt_succ_self _)
      exact ⟨next, outcome, inserted.board, inserted.union, inserted.runs⟩
  · intro full addr
    have count := board.count
    rw [insertBlock, if_neg (by omega), if_pos (by rw [maxsavedblocks]; omega)]
  · intro hint hinted seq near
    by_cases none : scb.blocks = []
    · simp [sackBlockLookup, none, leftToRight]
    · rw [sackBlockLookup, if_neg (by simpa using none),
        search_eq_leftToRight board.chain small near board.distinct none hinted]
      rfl

/-- A board with two blocks. -/
def twoBlocks : Scoreboard :=
  { nblocks := 2, blocks := [⟨0, 10, 20⟩, ⟨1, 30, 40⟩], lastfound := some 1, fresh := 2 }

theorem twoBlocks_board : Board 0 100 twoBlocks where
  chain :=
    { inside := show ∀ sb ∈ twoBlocks.blocks, ahead 0 sb.start < ahead 0 sb.stop ∧ ahead 0 sb.stop ≤ 100 by decide
      order := show twoBlocks.blocks.Pairwise fun first second => ahead 0 first.stop < ahead 0 second.start by decide }
  count := rfl
  room := by decide
  hint := by
    rintro addr ⟨⟩
    decide
  distinct := show twoBlocks.blocks.Pairwise fun first second => first.addr ≠ second.addr by decide
  old := by decide

/-- A block that closes the gap between two others. -/
theorem insertion_is_union_twoBlocks : ∃ next, addBlock twoBlocks ⟨15, 30⟩ = some next ∧
    next.blocks.map SackBlock.edges = [(10, 40)] ∧
    ∀ position, Sacked 0 next.blocks position ↔ Sacked 0 twoBlocks.blocks position ∨ 15 ≤ position ∧ position < 30 := by
  obtain ⟨-, added, -, -⟩ := insertion_is_union twoBlocks_board (by decide) ⟨15, 30⟩ (by decide) (by decide)
  obtain ⟨next, outcome, inserted⟩ := added (by decide)
  refine ⟨next, outcome, ?_, inserted.union⟩
  obtain rfl := Option.some.inj outcome
  rfl

end Dragonfly.Net.Sack
