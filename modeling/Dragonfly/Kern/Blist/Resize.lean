import Dragonfly.Kern.Blist.Sound

/-!
# Resizing

`blist_resize` creates a new tree, frees in it what is free in the old one, up to the
smaller number of blocks, and may free the blocks that are added.  The copy does not go
into nodes that are all free or all allocated, whose nodes below are stale.
-/

namespace Dragonfly.Kern.Blist

open Dragonfly.Lib Dragonfly.Lib.Bitmap Dragonfly.Lib.Radix
open Dragonfly.Lib.Blocks (Taken)

variable {level other : Nat}

/-- The loop of `blst_copy` over the bits of a leaf, from the one with number `i` on. -/
def copyBits (bitmap : Word) (blk count : Nat) : Nat → Nat → Head other → Outcome (Head other)
  | 0, _, dest => .done dest
  | fuel + 1, i, dest =>
      if i < 32 ∧ i < count then
        (if bitmap &&& 1#32 <<< i ≠ 0 then blistFree dest (blk + i) 1 else .done dest).bind fun dest =>
          copyBits bitmap blk count fuel (i + 1) dest
      else .done dest

/-- `blst_copy` of a leaf -/
def copyLeaf (scan : Leaf) (blk count : Nat) (dest : Head other) : Outcome (Head other) :=
  if scan.bitmap = ones then blistFree dest blk count
  else if scan.bitmap ≠ 0 then copyBits scan.bitmap blk count 33 0 dest
  else .done dest

/-- The loop of `blst_copy` over the nodes below, from the one with number `i` on. -/
def copyLoop (level : Nat) (copy : Tree level → Nat → Nat → Head other → Outcome (Head other))
    (scan : Meta (Tree level)) : Nat → Nat → Nat → Nat → Head other → Outcome (Head other)
  | 0, _, _, _, dest => .done dest
  | fuel + 1, i, blk, count, dest =>
      if count ≠ 0 then
        match scan.child i with
        | none => .done dest
        | some child =>
            if radix level ≤ count then
              (copy child blk (radix level) dest).bind fun dest =>
                copyLoop level copy scan fuel (i + 1) (blk + radix level) (count - radix level) dest
            else
              (copy child blk count dest).bind fun dest =>
                copyLoop level copy scan fuel (i + 1) (blk + radix level) 0 dest
      else .done dest

/-- `blst_copy` -/
def blstCopy : (level : Nat) → Tree level → Nat → Nat → Head other → Outcome (Head other)
  | 0, scan, blk, count, dest => copyLeaf scan blk count dest
  | level + 1, scan, blk, count, dest =>
      if Meta.avail scan = 0 then .done dest
      else if Meta.avail scan = radix (level + 1) then
        blistFree dest blk (if count < radix (level + 1) then count else radix (level + 1))
      else copyLoop level (blstCopy level) scan 16 0 blk count dest

/-- `blist_resize` -/
def blistResize (bl : Head level) (count : Nat) (freenew : Bool) : Outcome (Head (levelOf count)) :=
  let kept := if bl.blocks < count then bl.blocks else count
  (blstCopy level bl.root 0 kept (create count)).bind fun newbl =>
    if freenew = true ∧ kept < newbl.blocks then blistFree newbl kept (newbl.blocks - kept)
    else .done newbl

/-! ## What a copy adds -/

/-- Add the first `count` blocks of a set to another one, from `blk` on. -/
def merging (free source : Nat → Bool) (blk count : Nat) : Nat → Bool :=
  fun block => free block || (Blocks.within blk count block && source (block - blk))

section Merging

variable {free source : Nat → Bool} {blk count more : Nat}

theorem merging_none (none : ∀ block < count, source block = false) : merging free source blk count = free := by
  funext block
  rw [merging]
  cases member : Blocks.within blk count block with
  | false => rw [Bool.false_and, Bool.or_false]
  | true =>
      rw [Blocks.within_iff] at member
      rw [none _ (by omega), Bool.and_false, Bool.or_false]

theorem merging_all (all : ∀ block < count, source block = true) :
    merging free source blk count = Blocks.adding free blk count := by
  funext block
  rw [merging, Blocks.adding]
  cases member : Blocks.within blk count block with
  | false => rw [Bool.false_and]
  | true =>
      rw [Blocks.within_iff] at member
      rw [all _ (by omega), Bool.and_self]

theorem merging_congr {same : Nat → Bool} (is : ∀ block < count, source block = same block) :
    merging free source blk count = merging free same blk count := by
  funext block
  rw [merging, merging]
  cases member : Blocks.within blk count block with
  | false => rw [Bool.false_and, Bool.false_and]
  | true =>
      rw [Blocks.within_iff] at member
      rw [is _ (by omega)]

/-- Two pieces of a set one behind the other. -/
theorem merging_add : merging (merging free source blk count) (fun block => source (count + block))
    (blk + count) more = merging free source blk (count + more) := by
  funext block
  rw [merging, merging, merging, Blocks.within_add, Bool.or_assoc]
  congr 1
  cases first : Blocks.within blk count block with
  | true =>
      rw [Blocks.within_iff] at first
      rw [Blocks.within_eq_false_iff.mpr (by omega)]
      simp
  | false =>
      cases second : Blocks.within (blk + count) more block with
      | false => simp
      | true =>
          rw [Blocks.within_iff] at second
          rw [Bool.false_and, Bool.false_or, Bool.false_or, show count + (block - (blk + count)) = block - blk by omega]

/-- What is allocated behind a piece stays so. -/
theorem taken_merging (taken : Taken free blk (count + more)) :
    Taken (merging free source blk count) (blk + count) more := by
  intro block member
  rw [Blocks.within_iff] at member
  rw [merging, taken block (Blocks.within_iff.mpr (by omega)), Blocks.within_eq_false_iff.mpr (by omega)]
  rfl

theorem Taken.first (taken : Taken free blk (count + more)) : Taken free blk count := by
  intro block member
  rw [Blocks.within_iff] at member
  exact taken block (Blocks.within_iff.mpr (by omega))

end Merging

/-- A copy into an allocator: the free blocks of the source are added. -/
def Copies (dest : Head other) (source : Nat → Bool) (blk count : Nat) (outcome : Outcome (Head other)) :
    Prop :=
  ∃ after, outcome = .done after ∧ after.Ok ∧ after.blocks = dest.blocks ∧
    after.freeBlocks = merging dest.freeBlocks source blk count

section Copies

variable {dest : Head other} {source : Nat → Bool} {blk count more : Nat}

theorem copies_done (ok : dest.Ok) (none : ∀ block < count, source block = false) :
    Copies dest source blk count (.done dest) :=
  ⟨dest, rfl, ok, rfl, (merging_none none).symm⟩

theorem copies_free (ok : dest.Ok) (positive : 0 < count) (inside : blk + count ≤ dest.blocks)
    (taken : Taken dest.freeBlocks blk count) (all : ∀ block < count, source block = true) :
    Copies dest source blk count (blistFree dest blk count) := by
  obtain ⟨after, is, okAfter, sameBlocks, added⟩ := blistFree_spec ok positive inside taken
  exact ⟨after, is, okAfter, sameBlocks, added.trans (merging_all all).symm⟩

/-- A copy of one piece, and one of the piece behind it. -/
theorem Copies.bind {outcome : Outcome (Head other)} {next : Head other → Outcome (Head other)}
    (first : Copies dest source blk count outcome) (taken : Taken dest.freeBlocks blk (count + more))
    (behind : ∀ after, after.Ok → after.blocks = dest.blocks →
      Taken after.freeBlocks (blk + count) more →
      Copies after (fun block => source (count + block)) (blk + count) more (next after)) :
    Copies dest source blk (count + more) (outcome.bind next) := by
  obtain ⟨middle, rfl, okMiddle, blocksMiddle, freeMiddle⟩ := first
  have rest : Taken middle.freeBlocks (blk + count) more := by
    rw [freeMiddle]
    exact taken_merging taken
  obtain ⟨after, is, ok, sameBlocks, free⟩ := behind middle okMiddle blocksMiddle rest
  refine ⟨after, is, ok, sameBlocks.trans blocksMiddle, ?_⟩
  rw [free, freeMiddle, merging_add]

/-! ## The copy -/

theorem copyBits_spec {bitmap : Word} {fuel i rest : Nat} (sum : i + fuel = 33) (small : i + rest ≤ 32)
    (ok : dest.Ok) (inside : blk + i + rest ≤ dest.blocks) (taken : Taken dest.freeBlocks (blk + i) rest) :
    Copies dest (fun block => blocks bitmap (i + block)) (blk + i) rest
      (copyBits bitmap blk (i + rest) fuel i dest) := by
  induction fuel generalizing i rest dest with
  | zero => omega
  | succ fuel ih =>
      rw [copyBits]
      cases rest with
      | zero =>
          rw [if_neg (by omega)]
          exact copies_done ok (by simp)
      | succ rest =>
          rw [if_pos (by omega), Nat.add_comm rest 1] at *
          refine Copies.bind ?_ taken ?_
          · by_cases set : blocks bitmap i = true
            · rw [if_pos ((bit_ne_zero_iff (by omega)).mpr set)]
              apply copies_free ok Nat.one_pos (by omega) (Taken.first taken)
              intro block first
              obtain rfl : block = 0 := by omega
              exact set
            · rw [if_neg (mt (bit_ne_zero_iff (by omega)).mp set)]
              apply copies_done ok
              intro block first
              obtain rfl : block = 0 := by omega
              exact Bool.eq_false_iff.mpr set
          · intro after okAfter sameBlocks free
            have next := @ih after (i + 1) rest (by omega) (by omega) okAfter (by omega) free
            simpa only [Nat.add_assoc] using next

theorem copyLeaf_spec {scan : Leaf} (ok : dest.Ok) (positive : 0 < count) (small : count ≤ 32)
    (inside : blk + count ≤ dest.blocks) (taken : Taken dest.freeBlocks blk count) :
    Copies dest (blocks scan.bitmap) blk count (copyLeaf scan blk count dest) := by
  rw [copyLeaf]
  by_cases all : scan.bitmap = ones
  · rw [if_pos all]
    exact copies_free ok positive inside taken fun block first => eq_ones_iff.mp all block (by omega)
  · rw [if_neg all]
    by_cases none : scan.bitmap = 0
    · rw [if_neg (not_not.mpr none)]
      exact copies_done ok fun block first => eq_zero_iff.mp none block (by omega)
    · rw [if_pos none]
      have bits := @copyBits_spec other dest blk scan.bitmap 33 0 count rfl (by omega) ok inside taken
      simpa only [Nat.zero_add, Nat.add_zero] using bits

/-- What the copy of a node does, for at most as many blocks as it has. -/
def CopySpec (level other : Nat) (copy : Tree level → Nat → Nat → Head other → Outcome (Head other)) :
    Prop :=
  ∀ {limit blk count : Nat} {scan : Tree level} {dest : Head other}, Shape level limit scan →
    Live level limit scan → dest.Ok → 0 < count → count ≤ radix level → count ≤ limit →
    blk + count ≤ dest.blocks → Taken dest.freeBlocks blk count →
    Copies dest (freeBlocks level scan) blk count (copy scan blk count dest)

/-- The loop copies the rest of the nodes below. -/
theorem copyLoop_spec {copy : Tree level → Nat → Nat → Head other → Outcome (Head other)}
    (spec : CopySpec level other copy) {limit : Nat} {scan : Meta (Tree level)}
    (shape : Shape (level + 1) limit scan)
    (live : ∀ i < 16, ∀ child, scan.child i = some child → Live level (limit - i * radix level) child)
    {fuel i : Nat} (sum : i + fuel = 16) (ok : dest.Ok) (small : count ≤ fuel * radix level)
    (limited : i * radix level + count ≤ limit) (inside : blk + count ≤ dest.blocks)
    (taken : Taken dest.freeBlocks blk count) :
    Copies dest (fun block => @below level scan (i * radix level + block)) blk count
      (copyLoop level copy scan fuel i blk count dest) := by
  induction fuel generalizing i blk count dest with
  | zero =>
      obtain rfl : count = 0 := by omega
      exact copies_done ok (by simp)
  | succ fuel ih =>
      rw [copyLoop]
      by_cases none : count = 0
      · rw [if_neg (not_not.mpr none)]
        exact copies_done ok (by simp [none])
      rw [if_pos none]
      have iInside : i < 16 := by omega
      obtain ⟨node, present, shapeNode⟩ := (shape i iInside).2 (by omega)
      have next : (i + 1) * radix level = i * radix level + radix level := Nat.succ_mul ..
      have less : (fuel + 1) * radix level = fuel * radix level + radix level := Nat.succ_mul ..
      have positive := radix_pos level
      -- one node, as a part of the nodes below
      have part : ∀ {piece : Nat}, 0 < piece → piece ≤ radix level → piece ≤ count →
          Copies dest (fun block => @below level scan (i * radix level + block)) blk piece
            (copy node blk piece dest) := by
        intro piece some fits most
        have takenPiece : Taken dest.freeBlocks blk piece := by
          intro block member
          apply taken block
          rw [Blocks.within_iff] at member ⊢
          omega
        obtain ⟨after, is, okAfter, sameBlocks, free⟩ :=
          spec shapeNode (live i iInside node present) ok some fits (by omega) (by omega) takenPiece
        refine ⟨after, is, okAfter, sameBlocks, free.trans (merging_congr ?_)⟩
        intro block first
        exact (below_apply iInside present (by omega)).symm
      simp only [present]
      by_cases whole : radix level ≤ count
      · rw [if_pos whole]
        obtain ⟨more, rfl⟩ : ∃ more, count = radix level + more := ⟨count - radix level, by omega⟩
        rw [Nat.add_sub_cancel_left]
        refine Copies.bind (part positive (le_refl _) whole) taken ?_
        intro after okAfter sameBlocks free
        have rest : Copies after (fun block => @below level scan ((i + 1) * radix level + block))
            (blk + radix level) more (copyLoop level copy scan fuel (i + 1) (blk + radix level) more after) :=
          ih (by omega) okAfter (by omega) (by omega) (by omega) free
        simpa only [next, Nat.add_assoc] using rest
      · rw [if_neg whole]
        have all := @Copies.bind other dest _ blk count 0 _
          (copyLoop level copy scan fuel (i + 1) (blk + radix level) 0)
          (part (by omega) (by omega) (le_refl _)) taken ?_
        · exact all
        · intro after okAfter _ _
          have stops : copyLoop level copy scan fuel (i + 1) (blk + radix level) 0 after = .done after := by
            cases fuel <;> rfl
          rw [stops]
          exact copies_done okAfter (by simp)

theorem blstCopy_spec (level : Nat) : CopySpec level other (blstCopy level) := by
  induction level with
  | zero =>
      intro limit blk count scan dest _ _ ok positive fits _ inside taken
      exact copyLeaf_spec ok positive fits inside taken
  | succ level ih =>
      intro limit blk count scan dest shape live ok positive fits limited inside taken
      rw [blstCopy]
      by_cases none : Meta.avail scan = 0
      · rw [if_pos none]
        apply copies_done ok
        intro block _
        rw [freeBlocks, if_pos none]
      rw [if_neg none]
      by_cases all : Meta.avail scan = radix (level + 1)
      · rw [if_pos all]
        have length : (if count < radix (level + 1) then count else radix (level + 1)) = count := by
          split <;> omega
        rw [length]
        apply copies_free ok positive inside taken
        intro block first
        rw [freeBlocks, if_neg none, if_pos all]
        exact decide_eq_true (by omega)
      · rw [if_neg all]
        rw [radix_succ] at fits
        have loop := copyLoop_spec ih shape (live.2.2 none all) (Nat.zero_add 16) ok fits (by omega)
          inside taken
        have same : freeBlocks (level + 1) scan = below scan := by
          rw [freeBlocks, if_neg none, if_neg all, below]
        simpa only [same, Nat.zero_mul, Nat.zero_add] using loop

end Copies

/-! ## Runs -/

/-- The allocators that come about by calls and resizes.  A size is at least one and at
most `BLIST_MAXBLKS`. -/
inductive Reached : {level : Nat} → Head level → Prop where
  | create {blocks : Nat} (positive : 0 < blocks) (small : blocks ≤ maxBlks) : Reached (create blocks)
  | call {level : Nat} {bl after : Head level} {call : Call} (reached : Reached bl)
      (move : Move bl call after) : Reached after
  | resize {level : Nat} {bl : Head level} {count : Nat} {freenew : Bool} {after : Head (levelOf count)}
      (reached : Reached bl) (positive : 0 < count) (small : count ≤ maxBlks)
      (is : blistResize bl count freenew = .done after) : Reached after

/-- The blocks that are free after a resize. -/
def resized (free : Nat → Bool) (blocks count : Nat) (freenew : Bool) (block : Nat) : Bool :=
  (free block && decide (block < min blocks count)) ||
    (freenew && decide (blocks ≤ block) && decide (block < count))

theorem blistResize_spec {bl : Head level} (ok : bl.Ok) (some : 0 < bl.blocks) {count : Nat}
    (positive : 0 < count) (small : count ≤ maxBlks) (freenew : Bool) :
    ∃ after, blistResize bl count freenew = .done after ∧ after.Ok ∧ after.blocks = count ∧
      after.freeBlocks = resized bl.freeBlocks bl.blocks count freenew := by
  have fits := ok.fits
  have kept : (if bl.blocks < count then bl.blocks else count) = min bl.blocks count := by
    split <;> omega
  obtain ⟨newbl, is, okNew, blocksNew, freeNew⟩ :=
    @blstCopy_spec (levelOf count) level bl.blocks 0 (min bl.blocks count) bl.root (create count)
      ok.root.shape ok.root.live (create_ok small) (by omega) (by omega) (by omega)
      (show 0 + min bl.blocks count ≤ count by omega) (create_taken count 0 (min bl.blocks count))
  have copied : newbl.freeBlocks = fun block => bl.freeBlocks block && decide (block < min bl.blocks count) := by
    rw [freeNew]
    funext block
    have before : (create count).freeBlocks block = false := congrFun (radixInit_freeBlocks _ count) block
    rw [merging, before, Bool.false_or, Bool.and_comm, Nat.sub_zero, Head.freeBlocks]
    congr 1
    rw [Bool.eq_iff_iff, Blocks.within_iff, decide_eq_true_iff]
    omega
  have sameBlocks : newbl.blocks = count := blocksNew
  rw [blistResize]
  simp only [kept, is, Outcome.bind]
  by_cases grows : freenew = true ∧ min bl.blocks count < newbl.blocks
  · rw [if_pos grows]
    have taken : Taken newbl.freeBlocks (min bl.blocks count) (newbl.blocks - min bl.blocks count) := by
      intro block member
      rw [Blocks.within_iff] at member
      rw [congrFun copied block]
      exact (congrArg _ (decide_eq_false (by omega))).trans (Bool.and_false _)
    obtain ⟨after, done, okAfter, blocksAfter, added⟩ :=
      blistFree_spec okNew (by omega) (by omega) taken
    refine ⟨after, done, okAfter, blocksAfter.trans sameBlocks, ?_⟩
    funext block
    rw [added, copied, Blocks.adding, resized, grows.1, Bool.true_and]
    congr 1
    rw [Bool.eq_iff_iff, Blocks.within_iff, Bool.and_eq_true, decide_eq_true_iff, decide_eq_true_iff]
    omega
  · rw [if_neg grows]
    refine ⟨newbl, rfl, okNew, sameBlocks, ?_⟩
    funext block
    rw [copied, resized]
    cases freenew with
    | false => simp
    | true =>
        have largest : ¬min bl.blocks count < newbl.blocks := fun less => grows ⟨rfl, less⟩
        have none : (decide (bl.blocks ≤ block) && decide (block < count)) = false := by
          rw [← Bool.not_eq_true, Bool.and_eq_true, decide_eq_true_iff, decide_eq_true_iff]
          omega
        rw [Bool.true_and, none, Bool.or_false]

/-- A call does not change the number of blocks. -/
theorem Move.blocks {bl after : Head level} {call : Call} (ok : bl.Ok) (move : Move bl call after) :
    after.blocks = bl.blocks := by
  cases move with
  | alloc positive small is =>
      obtain ⟨result, found, same, -, sameBlocks, -⟩ := blistAlloc_spec ok positive small
      rw [same] at is
      cases is
      exact sameBlocks
  | free positive inside taken is =>
      obtain ⟨found, same, -, sameBlocks, -⟩ := blistFree_spec ok positive inside taken
      rw [same] at is
      cases is
      exact sameBlocks
  | @fill _ blkno count filled positive inside is =>
      obtain ⟨fine, bad⟩ := blistFill_spec ok positive inside
      by_cases fits : Fits level bl.freeBlocks blkno count
      · obtain ⟨_, found, same, -, sameBlocks, -⟩ := fine fits
        rw [same] at is
        cases is
        exact sameBlocks
      · rw [bad fits] at is
        cases is

/-- What is reached keeps the invariant. -/
theorem Reached.ok {bl : Head level} (reached : Reached bl) : bl.Ok ∧ 0 < bl.blocks := by
  induction reached with
  | create positive small => exact ⟨create_ok small, positive⟩
  | call _ move ih =>
      refine ⟨ih.1.move move, ?_⟩
      rw [move.blocks ih.1]
      exact ih.2
  | @resize level bl count freenew after _ positive small is ih =>
      obtain ⟨found, same, ok, sameBlocks, -⟩ := blistResize_spec ih.1 ih.2 positive small freenew
      rw [same] at is
      cases is
      exact ⟨ok, by rwa [sameBlocks]⟩

/-- Every resize of every allocator that is reached comes back.  What is free then is what
was free in front of the smaller one of the two sizes, and the blocks that are added if
they are to be free; `bl_free` is the number of these blocks. -/
theorem resize_keeps_free_set {bl : Head level} (reached : Reached bl) {count : Nat}
    (positive : 0 < count) (small : count ≤ maxBlks) (freenew : Bool) :
    ∃ after, blistResize bl count freenew = .done after ∧ after.blocks = count ∧
      (∀ block, after.freeBlocks block = true ↔
        (bl.freeBlocks block = true ∧ block < min bl.blocks count) ∨
          (freenew = true ∧ bl.blocks ≤ block ∧ block < count)) ∧
      after.free = Blocks.size after.freeBlocks after.blocks := by
  obtain ⟨after, is, ok, sameBlocks, free⟩ :=
    blistResize_spec reached.ok.1 reached.ok.2 positive small freenew
  refine ⟨after, is, sameBlocks, ?_, ok.counts⟩
  intro block
  rw [free, resized]
  simp only [Bool.or_eq_true, Bool.and_eq_true, decide_eq_true_eq, and_assoc]

theorem resize_keeps_free_set_create : ∃ after, blistResize (create 40) 700 true = .done after ∧
    after.blocks = 700 := by
  obtain ⟨after, is, blocks, -⟩ := resize_keeps_free_set (.create (by decide) (show 40 ≤ maxBlks by decide))
    (show 0 < 700 by decide) (by decide) true
  exact ⟨after, is, blocks⟩

end Dragonfly.Kern.Blist
