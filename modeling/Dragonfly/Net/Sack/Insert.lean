import Dragonfly.Net.Sack.Board

/-!
# Inserting a block

A block of the window is inserted into a well-formed board: it extends the block in front of
it or becomes a block of its own, and then the blocks behind it are taken off or joined as far
as it reaches.
-/

namespace Dragonfly.Net.Sack

open Dragonfly.Lib Dragonfly.Lib.Seq

variable {base seq : BitVec 32} {limit : Nat} {blocks front back rest : List SackBlock} {sb working newblock : SackBlock}
  {scb : Scoreboard} {nblocks : Int} {lastfound : Option Nat}

/-- The list while `insert_block` consolidates: the working block reaches into the blocks
behind it. -/
structure Opened (base : BitVec 32) (limit : Nat) (front : List SackBlock) (working : SackBlock)
    (rest : List SackBlock) : Prop where
  left : Chain base limit (front ++ [working])
  right : Chain base limit rest
  past : ∀ sb ∈ rest, ahead base working.start < ahead base sb.start

theorem Chain.singleton (inside : Inside base limit sb) : Chain base limit [sb] where
  inside := by simpa using inside
  order := List.pairwise_singleton _ _

/-- Two chains, the first of which ends in front of the second. -/
theorem Chain.join (left : Chain base limit (front ++ [working])) (right : Chain base limit rest)
    (before : ∀ sb ∈ rest, Before base working sb) : Chain base limit (front ++ working :: rest) where
  inside sb member := by
    rw [List.append_cons, List.mem_append] at member
    obtain old | new := member
    · exact left.inside sb old
    · exact right.inside sb new
  order := by
    rw [List.append_cons, List.pairwise_append]
    refine ⟨left.order, right.order, ?_⟩
    intro first firstMem second secondMem
    obtain old | new := List.mem_append.mp firstMem
    · have order : ahead base first.stop < ahead base working.start :=
        (List.pairwise_append.mp left.order).2.2 first old working List.mem_cons_self
      have inside := (left.inside working (by simp)).1
      have later : ahead base working.stop < ahead base second.start := before second secondMem
      rw [Before]
      omega
    · rw [List.mem_singleton.mp new]
      exact before second secondMem

/-- The last block can end elsewhere. -/
theorem Chain.restop {stop : BitVec 32} (chain : Chain base limit (front ++ [working]))
    (lt : ahead base working.start < ahead base stop) (le : ahead base stop ≤ limit) :
    Chain base limit (front ++ [{ working with stop := stop }]) where
  inside sb member := by
    obtain old | new := List.mem_append.mp member
    · exact chain.append_left.inside sb old
    · rw [List.mem_singleton.mp new]
      exact ⟨lt, le⟩
  order := by
    obtain ⟨order, -, before⟩ := List.pairwise_append.mp chain.order
    refine List.pairwise_append.mpr ⟨order, List.pairwise_singleton _ _, ?_⟩
    intro first firstMem second secondMem
    rw [List.mem_singleton.mp secondMem]
    exact before first firstMem working List.mem_cons_self

/-- The block in front is extended to a new end. -/
theorem Opened.extend {stop : BitVec 32} (chain : Chain base limit (front ++ sb :: rest))
    (reach : ahead base sb.start < ahead base stop) (bound : ahead base stop ≤ limit) :
    Opened base limit front (extend sb stop) rest := by
  have left : Chain base limit (front ++ [sb]) := by
    rw [List.append_cons] at chain
    exact chain.append_left
  have right : Chain base limit (sb :: rest) := chain.append_right
  have past : ∀ other ∈ rest, ahead base sb.start < ahead base other.start := by
    intro other member
    have order := (right.inside sb List.mem_cons_self).1
    have before : ahead base sb.stop < ahead base other.start := (List.pairwise_cons.mp right.order).1 other member
    omega
  rw [Sack.extend]
  split
  · exact ⟨left.restop reach bound, right.tail, past⟩
  · exact ⟨left, right.tail, past⟩

theorem extend_addr (sb : SackBlock) (stop : BitVec 32) : (extend sb stop).addr = sb.addr := by
  rw [extend]
  split
  · rfl
  · rfl

section

variable (small : limit < 2 ^ 31)

include small

/-- The blocks that are completely overlapped are taken off, and no more. -/
theorem swallow_spec {stop : BitVec 32} (chain : Chain base limit rest) (near : ahead base stop < 2 ^ 31)
    (some : 0 < front.length) (count : nblocks = front.length + rest.length)
    (hinted : Hinted lastfound (front ++ rest)) :
    ∃ left lastfound', swallow stop rest nblocks lastfound = .some (left, front.length + (left.length : Int), lastfound') ∧
      left <:+ rest ∧ Hinted lastfound' (front ++ left) ∧ ∀ sb ∈ left, ahead base stop < ahead base sb.stop := by
  induction rest generalizing nblocks lastfound with
  | nil =>
      subst count
      exact ⟨[], lastfound, rfl, List.suffix_refl _, hinted, nofun⟩
  | cons sb rest ih =>
      obtain ⟨order, bound⟩ := chain.inside sb List.mem_cons_self
      have reach := @seqGeq_iff base stop sb.stop near (by omega)
      rw [List.length_cons] at count
      rw [swallow]
      by_cases gone : seqGeq stop sb.stop = true
      · rw [if_pos gone, if_neg (by omega)]
        have fewer : nblocks - 1 = front.length + rest.length := by omega
        obtain ⟨left, lastfound', outcome, part, hinted', beyond⟩ := ih chain.tail fewer hinted.forget
        exact ⟨left, lastfound', outcome, part.trans (List.suffix_cons _ _), hinted', beyond⟩
      · rw [if_neg gone]
        rw [reach] at gone
        refine ⟨sb :: rest, lastfound, ?_, List.suffix_refl _, hinted, ?_⟩
        · rw [count, List.length_cons]
        · intro other member
          obtain rfl | later := List.mem_cons.mp member
          · omega
          · have before : ahead base sb.stop < ahead base other.start :=
              (List.pairwise_cons.mp chain.order).1 other later
            have inside := (chain.inside other member).1
            omega

/-- The right-hand side is consolidated. -/
theorem consolidate_spec (opened : Opened base limit front working rest)
    (count : nblocks = front.length + 1 + rest.length) (hinted : Hinted scb.lastfound (front ++ working :: rest))
    (distinct : Distinct (front ++ working :: rest)) (room : (front ++ working :: rest).length ≤ 8)
    (old : ∀ sb ∈ front ++ working :: rest, sb.addr < scb.fresh) :
    ∃ next, consolidate scb front working rest nblocks = some next ∧ Board base limit next := by
  obtain ⟨order, bound⟩ := opened.left.inside working (by simp)
  rw [List.append_cons] at hinted
  have count' : nblocks = (front ++ [working]).length + rest.length := by simpa using count
  obtain ⟨left, lastfound, outcome, part, hinted', beyond⟩ :=
    swallow_spec small opened.right (show ahead base working.stop < 2 ^ 31 by omega) (by simp) count' hinted
  have addrs : ((front ++ working :: left).map SackBlock.addr).Sublist ((front ++ working :: rest).map SackBlock.addr) :=
    ((part.sublist.cons_cons working).append_left front).map _
  rw [consolidate, outcome]
  cases left with
  | nil =>
      refine ⟨_, rfl, .of_part opened.left ?_ ?_ addrs distinct room old⟩
      · simp
      · simpa using hinted'
  | cons sb left =>
      have chain : Chain base limit (sb :: left) := by
        obtain ⟨gone, rfl⟩ := part
        exact opened.right.append_right
      have member : sb ∈ rest := part.subset List.mem_cons_self
      obtain ⟨sbOrder, sbBound⟩ := opened.right.inside sb member
      have past := opened.past sb member
      have ends := beyond sb List.mem_cons_self
      have reach := @seqGeq_iff base working.stop sb.start (by omega) (by omega)
      simp only
      by_cases joined : seqGeq working.stop sb.start = true
      · rw [if_pos joined, if_neg (by simp; omega)]
        have shorter : ((front ++ { working with stop := sb.stop } :: left).map SackBlock.addr).Sublist
            ((front ++ working :: sb :: left).map SackBlock.addr) := by
          rw [List.map_append, List.map_append]
          exact List.Sublist.append_left (((List.sublist_cons_self _ _).cons_cons _)) _
        refine ⟨_, rfl, .of_part ?_ ?_ ?_ (shorter.trans addrs) distinct room old⟩
        · have longer : Chain base limit (front ++ [{ working with stop := sb.stop }]) :=
            opened.left.restop (by omega) sbBound
          exact longer.join chain.tail (List.pairwise_cons.mp chain.order).1
        · simp
          omega
        · have forgotten := hinted'.forget
          exact forgotten.congr (by simp)
      · rw [if_neg joined]
        rw [reach] at joined
        refine ⟨_, rfl, .of_part ?_ ?_ ?_ addrs distinct room old⟩
        · exact opened.left.join chain (chain.all_after (by omega))
        · simp
          omega
        · rw [List.append_assoc] at hinted'
          exact hinted'

/-- A block that extends the one in front of it. -/
theorem place_extend {stop : BitVec 32} (board : Board base limit scb)
    (split : scb.blocks = front ++ sb :: rest) (reach : ahead base sb.start < ahead base stop)
    (bound : ahead base stop ≤ limit) :
    ∃ next, consolidate scb front (extend sb stop) rest scb.nblocks = some next ∧ Board base limit next := by
  have same : (front ++ extend sb stop :: rest).map SackBlock.addr = scb.blocks.map SackBlock.addr := by
    rw [split, List.map_append, List.map_append, List.map_cons, List.map_cons, extend_addr]
  have chain := board.chain
  have length : (front ++ extend sb stop :: rest).length = scb.blocks.length := by
    rw [← List.length_map SackBlock.addr, same, List.length_map]
  refine consolidate_spec small (.extend (split ▸ chain) reach bound) ?_ (board.hint.congr same) ?_ ?_ ?_
  · rw [board.count, split]
    simp
    omega
  · exact board.distinct.of_addrs (same ▸ List.Sublist.refl _)
  · exact length ▸ board.room
  · intro other member
    obtain ⟨old, oldMem, equal⟩ := List.mem_map.mp (same ▸ List.mem_map_of_mem member)
    rw [← equal]
    exact board.old old oldMem

/-- A block that becomes a block of its own. -/
theorem place_new (board : Board base limit scb) (split : scb.blocks = front ++ rest)
    (opened : Opened base limit front newblock rest) (more : scb.blocks.length < 8)
    (unused : ∀ sb ∈ scb.blocks, sb.addr ≠ newblock.addr) (old : newblock.addr < scb.fresh) :
    ∃ next, consolidate scb front newblock rest (scb.nblocks + 1) = some next ∧ Board base limit next := by
  have distinct := board.distinct
  rw [split] at distinct unused
  have length : scb.blocks.length = front.length + rest.length := by rw [split, List.length_append]
  refine consolidate_spec small opened ?_ ?_ ?_ ?_ ?_
  · rw [board.count]
    omega
  · intro addr same
    have member := board.hint addr same
    rw [split, List.map_append, List.mem_append] at member
    rw [List.map_append, List.map_cons, List.mem_append, List.mem_cons]
    exact member.imp_right .inr
  · rw [Distinct, List.pairwise_append] at distinct ⊢
    obtain ⟨left, right, across⟩ := distinct
    refine ⟨left, List.pairwise_cons.mpr ⟨?_, right⟩, ?_⟩
    · intro other member
      exact (unused other (List.mem_append_right _ member)).symm
    · intro first firstMem second secondMem
      obtain rfl | later := List.mem_cons.mp secondMem
      · exact unused first (List.mem_append_left _ firstMem)
      · exact across first firstMem second later
  · rw [List.length_append, List.length_cons]
    omega
  · intro other member
    rw [List.mem_append, List.mem_cons] at member
    obtain inFront | rfl | inRest := member
    · exact board.old other (split ▸ List.mem_append_left _ inFront)
    · exact old
    · exact board.old other (split ▸ List.mem_append_right _ inRest)

/-- A block of the window is placed where the search found it. -/
theorem place_spec {inside : Bool} {found : Option Nat} (board : Board base limit scb)
    (placed : Placed base newblock.start scb.blocks (some (inside, found)))
    (proper : Inside base limit newblock) (more : scb.blocks.length < 8)
    (unused : ∀ sb ∈ scb.blocks, sb.addr ≠ newblock.addr) (old : newblock.addr < scb.fresh) :
    ∃ next, place scb newblock inside found = some next ∧ Board base limit next := by
  obtain ⟨order, bound⟩ := proper
  have distinct := board.distinct
  have chain := board.chain
  cases placed with
  | @within front rest sb split low high =>
      rw [split] at distinct
      rw [place, split]
      simp only [Keyed.onward_append_cons distinct, Keyed.upTo_append_cons distinct, Bool.true_or, if_true]
      exact place_extend small board split (by omega) bound
  | @between front back split low high =>
      rw [split] at chain
      obtain rfl | ⟨front, sb, rfl⟩ := List.eq_nil_or_concat front
      · rw [List.nil_append] at split chain
        subst split
        exact place_new small board rfl ⟨.singleton ⟨order, bound⟩, chain, high⟩ more unused old
      · rw [List.concat_eq_append] at *
        have split' : scb.blocks = front ++ sb :: back := by rw [split, List.append_assoc, List.singleton_append]
        rw [split'] at distinct
        rw [lastAddr_concat, place, split']
        simp only [Keyed.onward_append_cons distinct, Keyed.upTo_append_cons distinct, Bool.false_or]
        have ends := low sb (by simp)
        have start := (chain.inside sb (by simp)).1
        by_cases touching : sb.stop = newblock.start
        · rw [if_pos (by simpa using touching)]
          exact place_extend small board split' (by omega) bound
        · rw [if_neg (by simpa using touching)]
          refine place_new small board split ⟨?_, chain.append_right, high⟩ more unused old
          have strict : ahead base sb.stop ≠ ahead base newblock.start := fun same => touching (eq_of_ahead same)
          have joined := chain.append_left.join (.singleton ⟨order, bound⟩) (by simp [Before]; omega)
          rw [List.append_assoc]
          exact joined

/-- `insert_block` -/
theorem insertBlock_spec (board : Board base limit scb) (some : scb.blocks ≠ []) (proper : Inside base limit newblock)
    (unused : ∀ sb ∈ scb.blocks, sb.addr ≠ newblock.addr) (old : newblock.addr < scb.fresh) :
    ∃ next, insertBlock scb newblock = .some next ∧ Board base limit next := by
  obtain ⟨order, bound⟩ := proper
  have positive : 0 < scb.blocks.length := List.length_pos_iff.mpr some
  have room := board.room
  have count := board.count
  rw [insertBlock, if_neg (by omega)]
  by_cases full : scb.nblocks = maxsavedblocks
  · rw [if_pos full]
    exact ⟨scb, rfl, board⟩
  · rw [if_neg full, if_neg (by rw [maxsavedblocks] at *; omega)]
    rw [maxsavedblocks] at full
    obtain ⟨inside, found, outcome, placed⟩ :=
      sackBlockLookup_spec board small (show ahead base newblock.start < 2 ^ 31 by omega) some
    rw [outcome]
    have hinted : Board base limit { scb with lastfound := found } := { board with hint := placed.hinted }
    exact place_spec small hinted placed ⟨order, bound⟩ (show scb.blocks.length < 8 by omega) unused old

/-- A block of the loop of `tcp_sack_add_blocks`. -/
theorem addBlock_spec {raw : RawSackblock} (board : Board base limit scb)
    (order : ahead base raw.start < ahead base raw.stop) (bound : ahead base raw.stop ≤ limit) :
    ∃ next, addBlock scb raw = some next ∧ Board base limit next := by
  have newer : Board base limit { scb with fresh := scb.fresh + 1 } :=
    { board with old := fun sb member => Nat.lt_succ_of_lt (board.old sb member) }
  rw [addBlock]
  by_cases none : scb.blocks = []
  · have count : scb.nblocks = 0 := by rw [board.count, none]; rfl
    simp only [none, List.isEmpty_nil, if_true, count]
    refine ⟨_, rfl, .singleton ⟨order, bound⟩, rfl, (by simp), ?_, List.pairwise_singleton _ _, (by simp)⟩
    intro addr same
    have member := board.hint addr same
    rw [none] at member
    cases member
  · rw [if_neg (by simpa using none)]
    refine insertBlock_spec small newer none ⟨order, bound⟩ ?_ (Nat.lt_succ_self _)
    intro sb member
    exact (board.old sb member).ne

end

end Dragonfly.Net.Sack
