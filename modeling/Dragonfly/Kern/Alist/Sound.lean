import Dragonfly.Kern.Alist.Free
import Dragonfly.Lib.Run

/-!
# Soundness of the allocator

The free blocks of an allocator are a set that allocations and frees change by exactly
the blocks that they name.  A count that is not a power of two is rounded up, and the
rest is free again.
-/

namespace Dragonfly.Kern.Alist

open Dragonfly.Lib Dragonfly.Lib.Bitmap Dragonfly.Lib.Radix
open Dragonfly.Lib.Blocks (FreeRun Taken without_le)

/-! ## Powers of two -/

/-- The test for a power of two. -/
theorem isPower_iff {count : Nat} (positive : 0 < count) (word : count < 2 ^ 32) :
    isPower count = true ↔ ∃ k, count = 2 ^ k := by
  rw [isPower, decide_eq_true_eq]
  constructor
  · intro same
    by_contra other
    have top := Nat.log2_self_le (Nat.ne_of_gt positive)
    have above := @Nat.lt_log2_self count
    have strict : 2 ^ count.log2 ≠ count := fun is => other ⟨count.log2, is.symm⟩
    rw [Nat.pow_succ] at above
    have upper : count ||| (count - 1) < 2 ^ (count.log2 + 1) :=
      Nat.or_lt_two_pow (by rw [Nat.pow_succ]; omega) (by rw [Nat.pow_succ]; omega)
    have lower : count ≤ count ||| (count - 1) := Nat.left_le_or
    rw [Nat.pow_succ] at upper
    omega
  · rintro ⟨k, rfl⟩
    have joined := Nat.two_pow_add_eq_or_of_lt (show 2 ^ k - 1 < 2 ^ k by omega) 1
    rw [Nat.mul_one] at joined
    have less : k < 32 := (Nat.pow_lt_pow_iff_right (by decide)).mp word
    have half : 2 ^ k ≤ 2 ^ 31 := Nat.pow_le_pow_right (by decide) (by omega)
    omega

/-- The smallest power of two that is at least the count. -/
def Rounds (count power : Nat) : Prop := ∃ k, power = 2 ^ k ∧ count ≤ power ∧ power < 2 * count

theorem Rounds.least {count power other : Nat} (rounds : Rounds count power) {k : Nat}
    (isPower : other = 2 ^ k) (enough : count ≤ other) : power ≤ other := by
  obtain ⟨m, rfl, -, less⟩ := rounds
  subst isPower
  by_contra smaller
  have order : k < m := (Nat.pow_lt_pow_iff_right (by decide)).mp (Nat.lt_of_not_le smaller)
  have double : 2 ^ (k + 1) ≤ 2 ^ m := Nat.pow_le_pow_right (by decide) order
  rw [Nat.pow_succ] at double
  omega

/-- The loop doubles up to the smallest power that is large enough. -/
theorem roundLoop_spec {count : Nat} (small : count ≤ 2 ^ 31) {fuel j : Nat}
    (below : 2 ^ j < 2 * count) :
    (roundLoop count fuel (2 ^ j) = .more ∧ fuel + j ≤ 31) ∨
      ∃ power, roundLoop count fuel (2 ^ j) = .done power ∧ Rounds count power := by
  induction fuel generalizing j with
  | zero =>
      refine .inl ⟨rfl, ?_⟩
      by_contra large
      have above : 2 ^ 32 ≤ 2 ^ j := Nat.pow_le_pow_right (by decide) (by omega)
      omega
  | succ fuel ih =>
      rw [roundLoop]
      split
      · rename_i less
        have next : 2 ^ j * 2 % 2 ^ 32 = 2 ^ (j + 1) := by
          rw [← Nat.pow_succ]
          apply Nat.mod_eq_of_lt
          rw [Nat.pow_succ]
          omega
        rw [next, Nat.add_right_comm]
        exact ih (by rw [Nat.pow_succ]; omega)
      · exact .inr ⟨2 ^ j, rfl, j, rfl, by omega, below⟩

/-- For a count above `2 ^ 31` the loop doubles to zero and never ends. -/
theorem roundLoop_endless {count : Nat} (large : 2 ^ 31 < count) (fuel : Nat) {ncount : Nat}
    (is : ncount = 0 ∨ ∃ j ≤ 31, ncount = 2 ^ j) : roundLoop count fuel ncount = .more := by
  induction fuel generalizing ncount with
  | zero => rfl
  | succ fuel ih =>
      rw [roundLoop]
      obtain rfl | ⟨j, small, rfl⟩ := is
      · rw [if_pos (by omega)]
        exact ih (.inl rfl)
      · have bounded : 2 ^ j ≤ 2 ^ 31 := Nat.pow_le_pow_right (by decide) small
        rw [if_pos (by omega)]
        apply ih
        by_cases last : j = 31
        · subst last
          exact .inl rfl
        · have less : 2 ^ (j + 1) ≤ 2 ^ 31 := Nat.pow_le_pow_right (by decide) (by omega)
          refine .inr ⟨j + 1, by omega, ?_⟩
          rw [← Nat.pow_succ]
          exact Nat.mod_eq_of_lt (by omega)

/-! ## The allocator -/

variable {level : Nat}

/-- The free blocks of an allocator. -/
def Head.freeBlocks (bl : Head level) : Nat → Bool := Alist.freeBlocks level bl.root

/-- The invariant of an allocator. -/
structure Head.Ok (bl : Head level) : Prop where
  root : Alist.Ok level bl.blocks bl.root
  fits : bl.blocks ≤ radix level
  bounded : radix level < 0xFFFFFFFF
  counts : bl.free = Blocks.size bl.freeBlocks bl.blocks

variable {bl after : Head level} {start count : Nat}

/-- A run of free blocks ends below the last block. -/
theorem Head.Ok.inRange (ok : bl.Ok) {found : Nat} (positive : 0 < count)
    (free : ∀ block, Blocks.within found count block = true → bl.freeBlocks block = true) :
    found + count ≤ bl.blocks := by
  by_contra above
  have last := free (found + count - 1) (Blocks.within_iff.mpr (by omega))
  rw [Head.freeBlocks, ok.root.live.freeBlocks_of_ge (by omega)] at last
  cases last

/-- What an allocation does: a run of free blocks at or behind the start, aligned to
`power`, is taken, or nothing changes. -/
def Gives (bl : Head level) (start count power : Nat) (result : Option Nat × Head level) : Prop :=
  result.2.Ok ∧ result.2.blocks = bl.blocks ∧
    match result.1 with
    | none => result.2.freeBlocks = bl.freeBlocks
    | some found => start ≤ found ∧ power ∣ found ∧
        (∀ block, Blocks.within found count block = true → bl.freeBlocks block = true) ∧
        result.2.freeBlocks = Blocks.without bl.freeBlocks found count

/-- What an allocation of a power of two does. -/
theorem allocPower_spec (ok : bl.Ok) (start k : Nat) :
    Gives bl start (2 ^ k) (2 ^ k) (allocPower bl start (2 ^ k)) := by
  have positive := Nat.two_pow_pos k
  unfold allocPower
  split
  · rename_i small
    have spec : Allocates level bl.blocks bl.root 0 start (2 ^ k)
        (alloc level bl.root 0 start (2 ^ k)) := alloc_spec small ok.root 0
    split
    · rename_i found root is
      rw [is] at spec
      obtain ⟨okRoot, offset, place, late, aligned, inside, wasFree, remains⟩ := spec
      rw [Nat.zero_add] at place
      subst place
      have fits := ok.inRange positive wasFree
      have size := Blocks.size_without wasFree fits
      refine ⟨⟨okRoot, ok.fits, ok.bounded, ?_⟩, rfl, late, aligned, wasFree, remains⟩
      show bl.free - 2 ^ k = Blocks.size (Alist.freeBlocks level root) bl.blocks
      rw [show Alist.freeBlocks level root = _ from remains]
      have counts : bl.free = Blocks.size (Alist.freeBlocks level bl.root) bl.blocks := ok.counts
      omega
    · rename_i root is
      rw [is] at spec
      have same : Alist.freeBlocks level root = Alist.freeBlocks level bl.root := spec.answers
      refine ⟨⟨spec.ok, ok.fits, ok.bounded, ?_⟩, rfl, same⟩
      show bl.free = Blocks.size (Alist.freeBlocks level root) bl.blocks
      rw [same]
      exact ok.counts
  · exact ⟨ok, rfl, rfl⟩

/-- What a free of allocated blocks does. -/
theorem alistFree_spec (ok : bl.Ok) {blkno count : Nat} (positive : 0 < count)
    (inside : blkno + count ≤ bl.blocks) (taken : Taken bl.freeBlocks blkno count) :
    ∃ after, alistFree bl blkno count = .done after ∧ after.Ok ∧ after.blocks = bl.blocks ∧
      after.freeBlocks = Blocks.adding bl.freeBlocks blkno count ∧
      (Hinted level bl.root → Hinted level after.root) := by
  have fits := ok.fits
  obtain ⟨root, is, okRoot, added, law⟩ := free_spec ok.bounded ok.root (Nat.dvd_zero _)
    (Nat.zero_le blkno) (by omega) inside positive taken
  refine ⟨{ bl with root := root, free := bl.free + count }, ?_, ⟨okRoot, ok.fits, ok.bounded, ?_⟩,
    rfl, added, law⟩
  · rw [alistFree, Outcome.kkassert_of inside, is]
    rfl
  · show bl.free + count = Blocks.size (Alist.freeBlocks level root) bl.blocks
    have size : Blocks.size (Blocks.adding (Alist.freeBlocks level bl.root) blkno count) bl.blocks =
        Blocks.size (Alist.freeBlocks level bl.root) bl.blocks + count :=
      Blocks.size_adding taken inside
    rw [added, Nat.sub_zero, size, ok.counts, Head.freeBlocks]

/-- The rest of a rounded allocation is free again. -/
theorem Gives.shorten {power : Nat} (ok : bl.Ok) (less : count < power)
    {found : Nat} (gives : Gives bl start power power (some found, after)) (positive : 0 < count) :
    ∃ last, alistFree after (found + count) (power - count) = .done last ∧
      Gives bl start count power (some found, last) ∧
      (Hinted level after.root → Hinted level last.root) := by
  obtain ⟨okAfter, blocks, late, aligned, wasFree, remains⟩ := gives
  obtain ⟨more, rfl⟩ : ∃ more, power = count + more := ⟨power - count, by omega⟩
  rw [Nat.add_sub_cancel_left]
  have inRange : found + count + more ≤ after.blocks := by
    have below := ok.inRange (by omega) wasFree
    rw [show after.blocks = bl.blocks from blocks]
    omega
  have taken : Taken after.freeBlocks (found + count) more := by
    intro block member
    rw [Blocks.within_iff] at member
    rw [remains, Blocks.without, Blocks.within_iff.mpr (by omega), Bool.not_true, Bool.and_false]
  obtain ⟨last, is, okLast, sameBlocks, added, law⟩ := alistFree_spec okAfter (by omega) inRange taken
  refine ⟨last, is, ⟨okLast, sameBlocks.trans blocks, late, aligned, ?_, ?_⟩, law⟩
  · intro block member
    rw [Blocks.within_iff] at member
    exact wasFree block (Blocks.within_iff.mpr (by omega))
  · rw [added, remains, Blocks.adding_without _ _ _ wasFree]

theorem alistAlloc_power (fuel : Nat) (positive : count ≠ 0) (power : isPower count = true) :
    alistAlloc (fuel + 1) bl start count = .done (allocPower bl start count) := by
  rw [alistAlloc, Outcome.kkassert_of positive, if_pos power]

/-- How an allocation comes about: the power of two is allocated as a whole, or its rest is
free again. -/
def Made (bl : Head level) (start count power : Nat) (result : Option Nat × Head level) : Prop :=
  (result = allocPower bl start power ∧ (count = power ∨ result.1 = none)) ∨
    ∃ found middle, count < power ∧ allocPower bl start power = (some found, middle) ∧
      alistFree middle (found + count) (power - count) = .done result.2 ∧ result.1 = some found

/-- An allocation comes back unless the fuel is short or the count above `2 ^ 31`. -/
theorem alistAlloc_cases (ok : bl.Ok) (positive : 0 < count) (word : count < 2 ^ 32) (start fuel : Nat) :
    (alistAlloc fuel bl start count = .more ∧ (fuel ≤ 32 ∨ 2 ^ 31 < count)) ∨
      ∃ result power, alistAlloc fuel bl start count = .done result ∧ Rounds count power ∧
        Made bl start count power result := by
  cases fuel with
  | zero => exact .inl ⟨rfl, .inl (Nat.zero_le _)⟩
  | succ fuel =>
      by_cases isPowerOfTwo : isPower count = true
      · obtain ⟨k, rfl⟩ := (isPower_iff positive word).mp isPowerOfTwo
        exact .inr ⟨_, 2 ^ k, alistAlloc_power fuel positive.ne' isPowerOfTwo,
          ⟨k, rfl, le_refl _, by omega⟩, .inl ⟨rfl, .inl rfl⟩⟩
      · rw [alistAlloc, Outcome.kkassert_of positive.ne', if_neg isPowerOfTwo]
        by_cases large : 2 ^ 31 < count
        · refine .inl ⟨?_, .inr large⟩
          rw [roundLoop_endless large fuel]
          · rfl
          · rw [if_neg (by omega)]
            exact .inr ⟨8, by omega, rfl⟩
        · obtain ⟨j, first, below⟩ :
              ∃ j, (if count < 256 then 1 else 256) = 2 ^ j ∧ 2 ^ j < 2 * count := by
            split
            · exact ⟨0, rfl, by omega⟩
            · exact ⟨8, rfl, by omega⟩
          rw [first]
          obtain ⟨is, short⟩ | ⟨power, is, rounds⟩ := roundLoop_spec (Nat.le_of_not_lt large) below
          · rw [is]
            exact .inl ⟨rfl, .inl (by omega)⟩
          · rw [is]
            have rounded := rounds
            obtain ⟨k, rfl, atLeast, twice⟩ := rounds
            have less : count < 2 ^ k := by
              refine Nat.lt_of_le_of_ne atLeast ?_
              rintro rfl
              exact isPowerOfTwo ((isPower_iff positive word).mpr ⟨k, rfl⟩)
            have powerWord : 2 ^ k < 2 ^ 32 := by omega
            cases fuel with
            | zero => cases is
            | succ fuel =>
                have inner : alistAlloc (fuel + 1) bl start (2 ^ k) = .done (allocPower bl start (2 ^ k)) :=
                  alistAlloc_power fuel (Nat.two_pow_pos k).ne'
                    ((isPower_iff (Nat.two_pow_pos k) powerWord).mpr ⟨k, rfl⟩)
                have gives := allocPower_spec ok start k
                simp only [Outcome.bind, inner]
                cases found : allocPower bl start (2 ^ k) with
                | mk result after =>
                    rw [found] at gives
                    cases result with
                    | none => exact .inr ⟨_, 2 ^ k, rfl, rounded, .inl ⟨found.symm, .inr rfl⟩⟩
                    | some blk =>
                        obtain ⟨last, freed, -, -⟩ := gives.shorten ok less positive
                        refine .inr ⟨(some blk, last), 2 ^ k, ?_, rounded,
                          .inr ⟨blk, after, less, found, freed, rfl⟩⟩
                        simp only [freed]

/-- An allocation takes the blocks that it returns. -/
theorem Made.gives {power : Nat} {result : Option Nat × Head level} (ok : bl.Ok) (positive : 0 < count)
    (rounds : Rounds count power) (made : Made bl start count power result) :
    Gives bl start count power result := by
  obtain ⟨k, rfl, -⟩ := rounds
  have gives := allocPower_spec ok start k
  obtain ⟨rfl, whole⟩ | ⟨found, middle, less, is, freed, answer⟩ := made
  · obtain rfl | none := whole
    · exact gives
    · unfold Gives at gives ⊢
      rw [none] at gives ⊢
      exact gives
  · rw [is] at gives
    obtain ⟨last, same, short, -⟩ := gives.shorten ok less positive
    rw [same] at freed
    obtain ⟨answer', after⟩ := result
    cases freed
    subst answer
    exact short

theorem alistAlloc_spec (ok : bl.Ok) (positive : 0 < count) (word : count < 2 ^ 32) (start fuel : Nat) :
    (alistAlloc fuel bl start count = .more ∧ (fuel ≤ 32 ∨ 2 ^ 31 < count)) ∨
      ∃ result power, alistAlloc fuel bl start count = .done result ∧ Rounds count power ∧
        Gives bl start count power result := by
  obtain more | ⟨result, power, is, rounds, made⟩ := alistAlloc_cases ok positive word start fuel
  · exact .inl more
  · exact .inr ⟨result, power, is, rounds, made.gives ok positive rounds⟩

/-! ## Creation -/

theorem radixInit_ok (level : Nat) {blk count : Nat} :
    Ok level (count - blk) (radixInit level blk count) := by
  induction level generalizing blk with
  | zero => exact ⟨Nat.zero_le _, fun block _ => blocks_zero block⟩
  | succ level ih =>
      refine ⟨⟨Nat.zero_le _, ?_⟩, fun i _ => trivial⟩
      intro i inside
      constructor
      · intro above
        exact if_neg (by omega)
      · intro below
        refine ⟨radixInit level (blk + i * radix level) count, if_pos (by omega), ?_⟩
        rw [Nat.sub_sub]
        exact ih.shape

theorem radixInit_freeBlocks (level blk count : Nat) :
    freeBlocks level (radixInit level blk count) = fun _ => false := by
  funext block
  cases level with
  | zero => exact blocks_zero block
  | succ level =>
      rw [freeBlocks, Blocks.tile]
      split
      · exact congrFun (view_allocated _ _ _) _
      · rfl

theorem create_ok {blocks : Nat} (small : blocks ≤ 2 ^ 29) : (create blocks).Ok := by
  obtain ⟨fits, atMost⟩ := levelOf_spec small
  have root : Ok (levelOf blocks) (blocks - 0) (radixInit (levelOf blocks) 0 blocks) := radixInit_ok _
  refine ⟨root, fits, ?_, ?_⟩
  · exact Nat.lt_of_le_of_lt atMost (by decide)
  · show 0 = Blocks.size (freeBlocks _ (radixInit _ 0 blocks)) blocks
    rw [radixInit_freeBlocks, eq_comm, Blocks.size_eq_zero_iff]
    exact fun _ _ => rfl

/-! ## Runs -/

/-- A call of the allocator. -/
inductive Call where
  | alloc (start count : Nat)
  | free (blkno count : Nat)

/-- A call that comes back.  Frees are of allocated blocks only. -/
inductive Move : Head level → Call → Head level → Prop where
  | alloc {bl after : Head level} {start count fuel : Nat} {result : Option Nat} (positive : 0 < count)
      (word : count < 2 ^ 32) (is : alistAlloc fuel bl start count = .done (result, after)) :
      Move bl (.alloc start count) after
  | free {bl after : Head level} {blkno count : Nat} (positive : 0 < count)
      (inside : blkno + count ≤ bl.blocks) (taken : Taken bl.freeBlocks blkno count)
      (is : alistFree bl blkno count = .done after) : Move bl (.free blkno count) after

/-- A call keeps the invariant. -/
theorem Head.Ok.move {call : Call} (ok : bl.Ok) (move : Move bl call after) : after.Ok := by
  cases move with
  | @alloc _ start count fuel result positive word is =>
      obtain ⟨more, -⟩ | ⟨given, power, same, -, gives⟩ := alistAlloc_spec ok positive word start fuel
      · rw [more] at is
        cases is
      · rw [same] at is
        cases is
        exact gives.1
  | free positive inside taken is =>
      obtain ⟨found, same, okFound, -⟩ := alistFree_spec ok positive inside taken
      rw [same] at is
      cases is
      exact okFound

/-- Every pair of a bitmap that is not stale is `00` if all blocks below are allocated,
`11` if all are free and `01` otherwise.  Blocks behind the last one count as allocated. -/
def Exact : (level : Nat) → Tree level → Prop
  | 0, _ => True
  | level + 1, scan => ∀ i < 16,
      (Meta.bitmap scan i = .allocated ↔
        ∀ block < radix level, freeBlocks (level + 1) scan (i * radix level + block) = false) ∧
      (Meta.bitmap scan i = .free ↔
        ∀ block < radix level, freeBlocks (level + 1) scan (i * radix level + block) = true) ∧
      Meta.bitmap scan i ≠ .reserved ∧
      (Meta.bitmap scan i = .partly → ∃ child, Meta.child scan i = some child ∧ Exact level child ∧
        ∀ block < radix level,
          freeBlocks (level + 1) scan (i * radix level + block) = freeBlocks level child block)

theorem Live.exact {limit : Nat} {scan : Tree level} (live : Live level limit scan) :
    Exact level scan := by
  induction level generalizing limit with
  | zero => trivial
  | succ level ih =>
      intro i inside
      have pair := live i inside
      have below : ∀ block < radix level, freeBlocks (level + 1) scan (i * radix level + block) =
          view (radix level) (freeBlocks level) (Meta.bitmap scan i) (Meta.child scan i) block :=
        fun block small => freeBlocks_meta scan inside small
      have first := radix_pos level
      cases is : Meta.bitmap scan i with
      | reserved =>
          rw [is] at pair
          exact pair.elim
      | allocated =>
          simp only [is, view_allocated] at below
          refine ⟨by simpa using below, ⟨by simp, ?_⟩, by simp, by simp⟩
          intro all
          have one := all 0 first
          rw [below 0 first] at one
          cases one
      | free =>
          simp only [is, view_free] at below
          refine ⟨⟨by simp, ?_⟩, ⟨?_, by simp⟩, by simp, by simp⟩
          · intro none
            have one := none 0 first
            rw [below 0 first, decide_eq_true first] at one
            cases one
          · intro _ block small
            rw [below block small, decide_eq_true small]
      | partly =>
          rw [is] at pair
          obtain ⟨node, child, liveNode, ⟨free, freeSmall, set⟩, used, usedSmall, unset⟩ := pair
          simp only [is, child, view_partly] at below
          refine ⟨⟨by simp, ?_⟩, ⟨by simp, ?_⟩, by simp, fun _ => ⟨node, child, ih liveNode, below⟩⟩
          · intro none
            have one := none free freeSmall
            rw [below free freeSmall, set] at one
            cases one
          · intro all
            have one := all used usedSmall
            rw [below used usedSmall, unset] at one
            cases one

/-- In every run of an allocator of at most `2 ^ 29` blocks, from its creation on: the
pairs of the bitmaps and `bl_free` are right; an allocation reaches no panic, comes back
for every count up to `2 ^ 31` and takes exactly the blocks that it returns, which were
free, lie at or behind the start and are aligned to the smallest power of two that is at
least the count; and a free of allocated blocks reaches no panic and makes them free. -/
theorem runs_are_sound {blocks : Nat} (small : blocks ≤ 2 ^ 29) {calls : List Call}
    {bl : Head (levelOf blocks)} (run : Run Move (create blocks) calls bl) :
    Exact _ bl.root ∧ bl.free = Blocks.size bl.freeBlocks bl.blocks ∧
    (∀ start count fuel, 0 < count → count < 2 ^ 32 →
      alistAlloc fuel bl start count ≠ .panic ∧
      (32 < fuel → count ≤ 2 ^ 31 → ∃ result, alistAlloc fuel bl start count = .done result) ∧
      ∀ found after, alistAlloc fuel bl start count = .done (some found, after) →
        start ≤ found ∧ (∃ power, Rounds count power ∧ power ∣ found) ∧
        (∀ block, Blocks.within found count block = true → bl.freeBlocks block = true) ∧
        after.freeBlocks = Blocks.without bl.freeBlocks found count) ∧
    (∀ start count fuel after, 0 < count → count < 2 ^ 32 →
      alistAlloc fuel bl start count = .done (none, after) → after.freeBlocks = bl.freeBlocks) ∧
    ∀ blkno count, 0 < count → blkno + count ≤ bl.blocks → Taken bl.freeBlocks blkno count →
      ∃ after, alistFree bl blkno count = .done after ∧
        after.freeBlocks = Blocks.adding bl.freeBlocks blkno count := by
  have ok : bl.Ok := run.invariant (fun ok move => Head.Ok.move ok move) (create_ok small)
  refine ⟨ok.root.live.exact, ok.counts, ?_, ?_, ?_⟩
  · intro start count fuel positive word
    obtain ⟨more, short⟩ | ⟨result, power, is, rounds, gives⟩ :=
      alistAlloc_spec ok positive word start fuel
    · rw [more]
      refine ⟨by simp, ?_, by simp⟩
      intro enough atMost
      omega
    · rw [is]
      refine ⟨by simp, fun _ _ => ⟨result, rfl⟩, ?_⟩
      rintro found after ⟨⟩
      obtain ⟨-, -, late, aligned, wasFree, remains⟩ := gives
      exact ⟨late, ⟨power, rounds, aligned⟩, wasFree, remains⟩
  · intro start count fuel after positive word is
    obtain ⟨more, -⟩ | ⟨result, power, same, -, gives⟩ :=
      alistAlloc_spec ok positive word start fuel
    · rw [more] at is
      cases is
    · rw [same] at is
      cases is
      exact gives.2.2
  · intro blkno count positive inside taken
    obtain ⟨after, is, -, -, added, -⟩ := alistFree_spec ok positive inside taken
    exact ⟨after, is, added⟩

theorem runs_are_sound_free : ∃ bl : Head (levelOf 40), Run Move (create 40) [.free 3 20] bl ∧
    bl.free = Blocks.size bl.freeBlocks bl.blocks := by
  have taken : Taken (create 40).freeBlocks 3 20 :=
    fun block _ => congrFun (radixInit_freeBlocks _ 0 40) block
  obtain ⟨bl, is, -⟩ := alistFree_spec (create_ok (by decide)) (by decide) (by decide) taken
  have run : Run Move (create 40) [.free 3 20] bl :=
    .cons (.free (by decide) (by decide) taken is) (.nil bl)
  exact ⟨bl, run, (runs_are_sound (by decide) run).2.1⟩

end Dragonfly.Kern.Alist
