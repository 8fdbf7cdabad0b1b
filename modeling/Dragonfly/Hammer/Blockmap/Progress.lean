import Dragonfly.Hammer.Blockmap.Search
import Mathlib.Data.List.Perm.Subperm

/-!
# Why the blockmap search ends

Every pass over the body of the `again` loop that starts again moves the offset up, drops
the hint or wraps.  The hint is dropped once, and the second wrap ends the search.  In one
big-block the search stands at most six times between two of these: it moves up once for
each append offset, and once to the next buffer in front of and behind each of these moves.
-/

namespace Dragonfly.Hammer

open Dragonfly.Lib

/-- `++next_offset; goto again`: what moves the offset up. -/
inductive Advance (hmp : Mount) (zone bytes : Nat) (skipVol : Option Nat) (next : Nat) : Nat → Prop where
  | cross (cut : next / boundary bytes ≠ (next + bytes - 1) / boundary bytes) :
      Advance hmp zone bytes skipVol next ((next + bytes - 1) / boundary bytes * boundary bytes)
  | layer (skipped : (hmp.layer1 (layer1Index next)).blocksFree = 0 ∨
        ∃ phys, (hmp.layer1 (layer1Index next)).physOffset = some phys ∧ skipVol = some (volDecode phys)) :
      Advance hmp zone bytes skipVol next ((next + blockmapLayer2) / blockmapLayer2 * blockmapLayer2)
  | owner (foreign : (hmp.layer2 (bigblock next)).zone ≠ 0 ∧ (hmp.layer2 (bigblock next)).zone ≠ zone) :
      Advance hmp zone bytes skipVol next (next + (largeblockSize - blockOffset next))
  | append2 (fits : next / boundary bytes = (next + bytes - 1) / boundary bytes)
      (short : blockOffset next < (hmp.layer2 (bigblock next)).appendOff) :
      Advance hmp zone bytes skipVol next
        (next + ((hmp.layer2 (bigblock next)).appendOff - blockOffset next))
  | resvZone {resv : Reserve} (present : hmp.resv (bigblock next) = some resv) (foreign : resv.zone ≠ zone) :
      Advance hmp zone bytes skipVol next (next + (largeblockSize - blockOffset next))
  | appendResv {resv : Reserve} (fits : next / boundary bytes = (next + bytes - 1) / boundary bytes)
      (present : hmp.resv (bigblock next) = some resv) (short : blockOffset next < resv.appendOff) :
      Advance hmp zone bytes skipVol next (next + (resv.appendOff - blockOffset next))

/-- Where the body of the loop looks at the layers: the hint is dropped and the end of the
zone wrapped. -/
def settle (hmp : Mount) (zone hint : Nat) (entry : ScanState) : ScanState :=
  wrapScan zone (dropHint hmp zone hint entry)

/-- The states in which the search looks at the layers, one for each pass. -/
def visits (hmp : Mount) (zone bytes hint : Nat) (skipVol : Option Nat) : Nat → ScanState → List ScanState
  | 0, _ => []
  | fuel + 1, entry =>
      if (settle hmp zone hint entry).loops = 2 then []
      else
        settle hmp zone hint entry ::
          match scanStep hmp zone bytes hint skipVol entry with
          | .again next => visits hmp zone bytes hint skipVol fuel next
          | _ => []

/-- The append offsets of all big-blocks are inside the big-block or at its end. -/
structure Bounded (hmp : Mount) : Prop where
  append2 : ∀ block, (hmp.layer2 block).appendOff ≤ largeblockSize
  appendResv : ∀ block resv, hmp.resv block = some resv → resv.appendOff ≤ largeblockSize

/-- What the loop starts with: an offset of the zone, and a hint in the zone if it is in
use. -/
structure Entered (hmp : Mount) (zone hint : Nat) (entry : ScanState) : Prop where
  start : zoneDecode (hmp.nextOffset zone) = zone
  lower : zoneEncode zone 0 ≤ entry.nextOffset
  upper : entry.nextOffset ≤ zoneEncode (zone + 1) 0
  hinted : entry.useHint = true → zoneDecode hint = zone ∧ entry.loops = 0
  loops : entry.loops ≤ 1

variable {hmp : Mount} {zone bytes hint : Nat} {skipVol : Option Nat} {entry state : ScanState} {next after : Nat}

/-! ## One pass -/

theorem probe_again (fits : state.nextOffset / boundary bytes = (state.nextOffset + bytes - 1) / boundary bytes)
    {result : ScanState} (is : probe hmp zone skipVol state = .again result) :
    ∃ next, result = { state with nextOffset := next } ∧
      Advance hmp zone bytes skipVol state.nextOffset next := by
  simp only [probe] at is
  split at is
  · rename_i skip
    cases is
    exact ⟨_, rfl, .layer (.inl skip.2)⟩
  cases phys : (hmp.layer1 (layer1Index state.nextOffset)).physOffset with
  | none => simp [phys] at is
  | some base =>
      simp only [phys] at is
      split at is
      · rename_i removed
        cases is
        exact ⟨_, rfl, .layer (.inr ⟨base, phys, removed⟩)⟩
      split at is
      · rename_i foreign
        cases is
        exact ⟨_, rfl, .owner foreign⟩
      split at is
      · rename_i short
        cases is
        exact ⟨_, rfl, .append2 fits short⟩
      cases present : hmp.resv (bigblock state.nextOffset) with
      | none => simp [present] at is
      | some resv =>
          simp only [present] at is
          split at is
          · rename_i foreign
            cases is
            refine ⟨_, rfl, ?_⟩
            rw [ScanOk.nextBlock_eq]
            exact .resvZone present foreign
          split at is
          · rename_i short
            cases is
            exact ⟨_, rfl, .appendResv fits present short⟩
          · cases is

/-- What a pass that starts again has done. -/
theorem scanStep_again {result : ScanState} (is : scanStep hmp zone bytes hint skipVol entry = .again result) :
    (settle hmp zone hint entry).loops ≠ 2 ∧
      ∃ next, result = { settle hmp zone hint entry with nextOffset := next } ∧
        Advance hmp zone bytes skipVol (settle hmp zone hint entry).nextOffset next := by
  simp only [scanStep] at is
  split at is
  · cases is
  rename_i early
  refine ⟨early, ?_⟩
  split at is
  · rename_i cut
    cases is
    exact ⟨_, rfl, .cross cut⟩
  · rename_i fits
    exact probe_again (not_not.mp fits) is

theorem probe_ne_enospc : probe hmp zone skipVol state ≠ .enospc := by
  simp only [probe]
  cases (hmp.layer1 (layer1Index state.nextOffset)).physOffset with
  | none => split <;> simp
  | some base =>
      cases hmp.resv (bigblock state.nextOffset) with
      | none => dsimp only; split_ifs <;> simp
      | some resv => dsimp only; split_ifs <;> simp

/-- A pass that reports `ENOSPC` has wrapped for the second time. -/
theorem scanStep_enospc (is : scanStep hmp zone bytes hint skipVol entry = .enospc) :
    (settle hmp zone hint entry).loops = 2 := by
  simp only [scanStep] at is
  split at is
  · rename_i late
    exact late
  split at is
  · cases is
  · exact absurd is probe_ne_enospc

/-! ## Moves -/

section Moves

/-- A move goes up, and not over the end of the zone. -/
theorem Advance.spec (bounded : Bounded hmp) (positive : 0 < bytes) (small : bytes ≤ largeblockSize)
    (lower : zoneEncode zone 0 ≤ next) (below : next < zoneEncode (zone + 1) 0)
    (advance : Advance hmp zone bytes skipVol next after) :
    next < after ∧ after ≤ zoneEncode (zone + 1) 0 := by
  obtain ⟨edge, first, last⟩ := zone_edges zone
  have limit : bytes ≤ 8388608 := small
  cases advance with
  | cross cut =>
      by_cases buffered : bytes ≤ 16384
      · rw [boundary_of_le buffered] at cut ⊢
        omega
      · rw [boundary_of_lt (by omega)] at cut ⊢
        omega
  | layer skipped =>
      simp only [blockmapLayer2]
      omega
  | owner foreign =>
      simp only [largeblockSize, blockOffset]
      omega
  | append2 fits short =>
      have atMost := bounded.append2 (bigblock next)
      simp only [largeblockSize, blockOffset] at atMost short ⊢
      omega
  | resvZone present foreign =>
      simp only [largeblockSize, blockOffset]
      omega
  | appendResv fits present short =>
      have atMost := bounded.appendResv _ _ present
      simp only [largeblockSize, blockOffset] at atMost short ⊢
      omega

theorem bigblock_congr (same : after / largeblockSize = next / largeblockSize) :
    bigblock after = bigblock next := by
  simp only [bigblock, longOffset, zoneSpan, largeblockSize] at same ⊢
  omega

/-- A condition as a number. -/
def flag (holds : Prop) [Decidable holds] : Nat := if holds then 1 else 0

theorem flag_le (holds : Prop) [Decidable holds] : flag holds ≤ 1 := by
  unfold flag
  split <;> decide

theorem flag_of {holds : Prop} [Decidable holds] (is : holds) : flag holds = 1 := if_pos is

theorem flag_of_not {holds : Prop} [Decidable holds] (not : ¬holds) : flag holds = 0 := if_neg not

theorem flag_mono {holds other : Prop} [Decidable holds] [Decidable other] (implies : holds → other) :
    flag holds ≤ flag other := by
  by_cases true_ : holds
  · rw [flag, flag, if_pos true_, if_pos (implies true_)]
  · rw [flag, if_neg true_]
    exact Nat.zero_le _

/-- The search is behind the append offset of the reservation. -/
def pastResv (hmp : Mount) (next : Nat) : Prop :=
  (hmp.resv (bigblock next)).all (·.appendOff ≤ blockOffset next) = true

instance (hmp : Mount) (next : Nat) : Decidable (pastResv hmp next) :=
  inferInstanceAs (Decidable (_ = true))

/-- A move inside a big-block. -/
theorem blockOffset_of_same (same : after / largeblockSize = next / largeblockSize) (up : next ≤ after) :
    blockOffset after = blockOffset next + (after - next) := by
  simp only [blockOffset, largeblockSize] at same ⊢
  omega

/-- How far the search has come in one big-block: whether it is behind the two append
offsets, and whether the request fits. -/
def inner (hmp : Mount) (bytes next : Nat) : Nat :=
  2 * flag ((hmp.layer2 (bigblock next)).appendOff ≤ blockOffset next) + 2 * flag (pastResv hmp next) +
    flag (next / boundary bytes = (next + bytes - 1) / boundary bytes)

theorem inner_lt_six (hmp : Mount) (bytes next : Nat) : inner hmp bytes next < 6 := by
  have append := flag_le ((hmp.layer2 (bigblock next)).appendOff ≤ blockOffset next)
  have resv := flag_le (pastResv hmp next)
  have fits := flag_le (next / boundary bytes = (next + bytes - 1) / boundary bytes)
  unfold inner
  omega

/-- Behind an append offset the search stays so. -/
theorem append2_mono (same : bigblock after = bigblock next) (larger : blockOffset next ≤ blockOffset after) :
    flag ((hmp.layer2 (bigblock next)).appendOff ≤ blockOffset next) ≤
      flag ((hmp.layer2 (bigblock after)).appendOff ≤ blockOffset after) := by
  rw [same]
  exact flag_mono fun past => Nat.le_trans past larger

theorem pastResv_mono (same : bigblock after = bigblock next) (larger : blockOffset next ≤ blockOffset after) :
    flag (pastResv hmp next) ≤ flag (pastResv hmp after) := by
  apply flag_mono
  unfold pastResv
  rw [same]
  cases hmp.resv (bigblock next) with
  | none => exact id
  | some found =>
      simp only [Option.all_some, decide_eq_true_eq]
      exact fun past => Nat.le_trans past larger

/-- A move inside a big-block gets further. -/
theorem Advance.inner_lt (positive : 0 < bytes) (small : bytes ≤ largeblockSize)
    (advance : Advance hmp zone bytes skipVol next after) (up : next < after)
    (same : after / largeblockSize = next / largeblockSize) : inner hmp bytes next < inner hmp bytes after := by
  have block := bigblock_congr same
  have offset := blockOffset_of_same same (Nat.le_of_lt up)
  have larger : blockOffset next ≤ blockOffset after := by omega
  have append : _ ≤ flag ((hmp.layer2 (bigblock after)).appendOff ≤ blockOffset after) :=
    append2_mono block larger
  have resv : _ ≤ flag (pastResv hmp after) := pastResv_mono block larger
  have fitsBefore := flag_le (next / boundary bytes = (next + bytes - 1) / boundary bytes)
  have limit : bytes ≤ 8388608 := small
  unfold inner
  cases advance with
  | cross cut =>
      have fits : (next + bytes - 1) / boundary bytes * boundary bytes / boundary bytes =
          ((next + bytes - 1) / boundary bytes * boundary bytes + bytes - 1) / boundary bytes := by
        by_cases buffered : bytes ≤ 16384
        · rw [boundary_of_le buffered]
          omega
        · rw [boundary_of_lt (by omega)]
          omega
      rw [flag_of_not cut, flag_of fits]
      omega
  | layer skipped =>
      simp only [largeblockSize, blockmapLayer2] at same
      omega
  | owner foreign =>
      simp only [largeblockSize, blockOffset] at same
      omega
  | append2 fits short =>
      rw [flag_of_not (Nat.not_le.mpr short), flag_of (show (hmp.layer2 (bigblock (next +
        ((hmp.layer2 (bigblock next)).appendOff - blockOffset next)))).appendOff ≤ _ by rw [block]; omega)]
      omega
  | resvZone present foreign =>
      simp only [largeblockSize, blockOffset] at same
      omega
  | @appendResv found fits present short =>
      have before : ¬pastResv hmp next := by
        unfold pastResv
        rw [present, Option.all_some, decide_eq_true_eq]
        omega
      have past : pastResv hmp (next + (found.appendOff - blockOffset next)) := by
        unfold pastResv
        rw [block, present, Option.all_some, decide_eq_true_eq]
        omega
      rw [flag_of_not before, flag_of past]
      omega

end Moves

/-! ## Where the search stands -/

/-- A state in which the search looks at the layers. -/
structure Visited (zone hint : Nat) (state : ScanState) : Prop where
  lower : zoneEncode zone 0 ≤ state.nextOffset
  below : state.nextOffset < zoneEncode (zone + 1) 0
  hinted : state.useHint = true → zoneDecode hint = zone ∧ state.loops = 0
  loops : state.loops ≤ 1

/-- The search uses the hint, or it has wrapped not at all or once. -/
def phase (state : ScanState) : Nat := if state.useHint then 0 else state.loops + 1

/-- The number of big-blocks of a zone. -/
def largeblocks : Nat := 137438953472

/-- The number of a big-block in its zone. -/
def blockOf (zone next : Nat) : Nat := (next - zoneEncode zone 0) / largeblockSize

/-- The progress of the search. -/
def progress (hmp : Mount) (zone bytes : Nat) (state : ScanState) : Nat :=
  (phase state * largeblocks + blockOf zone state.nextOffset) * 6 + inner hmp bytes state.nextOffset

/-- The offset at which the hint is dropped is not the end of the zone. -/
theorem dropHint_cases (hmp : Mount) (zone hint : Nat) (entry : ScanState) :
    (dropHint hmp zone hint entry = entry ∧
        (entry.useHint = true → entry.nextOffset / hintblockSize = hint / hintblockSize)) ∨
      (entry.useHint = true ∧
        dropHint hmp zone hint entry = { entry with nextOffset := hmp.nextOffset zone, useHint := false }) := by
  unfold dropHint
  by_cases drop : entry.useHint = true ∧ entry.nextOffset / hintblockSize ≠ hint / hintblockSize
  · rw [if_pos drop]
    exact .inr ⟨drop.1, rfl⟩
  · rw [if_neg drop]
    refine .inl ⟨rfl, fun used => ?_⟩
    by_contra left
    exact drop ⟨used, left⟩

/-- What settles: the entry itself, the start of the zone after a wrap, or the offset behind
the last allocation without the hint. -/
theorem settle_cases (entered : Entered hmp zone hint entry) :
    (settle hmp zone hint entry = entry ∧ entry.nextOffset < zoneEncode (zone + 1) 0) ∨
      (settle hmp zone hint entry =
          { nextOffset := zoneEncode zone 0, useHint := false, loops := entry.loops + 1 } ∧
        entry.useHint = false ∧ entry.nextOffset = zoneEncode (zone + 1) 0) ∨
      (settle hmp zone hint entry =
          { nextOffset := hmp.nextOffset zone, useHint := false, loops := 0 } ∧ entry.useHint = true) := by
  obtain ⟨start, lower, upper, hinted, loops⟩ := entered
  have startBelow : hmp.nextOffset zone < zoneEncode (zone + 1) 0 := by
    simp only [zoneDecode, zoneEncode, zoneSpan] at start ⊢
    omega
  unfold settle wrapScan
  obtain ⟨kept, near⟩ | ⟨used, dropped⟩ := dropHint_cases hmp zone hint entry
  · rw [kept]
    by_cases ends : entry.nextOffset = zoneEncode (zone + 1) 0
    · have unused : entry.useHint = false := by
        rw [← Bool.not_eq_true]
        intro used
        have sameBlock := near used
        have inZone := (hinted used).1
        rw [ends] at sameBlock
        simp only [zoneDecode, zoneEncode, zoneSpan, hintblockSize, largeblockSize] at sameBlock inZone
        omega
      rw [if_pos ends, unused]
      exact .inr (.inl ⟨rfl, rfl, ends⟩)
    · rw [if_neg ends]
      exact .inl ⟨rfl, by omega⟩
  · rw [dropped, if_neg (Nat.ne_of_lt startBelow), (hinted used).2]
    exact .inr (.inr ⟨rfl, used⟩)

theorem Entered.visited (entered : Entered hmp zone hint entry) (early : (settle hmp zone hint entry).loops ≠ 2) :
    Visited zone hint (settle hmp zone hint entry) := by
  have cases_ := settle_cases entered
  obtain ⟨start, lower, upper, hinted, loops⟩ := entered
  obtain ⟨is, below⟩ | ⟨is, -, -⟩ | ⟨is, -⟩ := cases_
  · rw [is]
    exact ⟨lower, below, hinted, loops⟩
  · rw [is] at early ⊢
    refine ⟨le_refl _, ?_, by simp, ?_⟩
    · simp only [zoneEncode, zoneSpan]
      omega
    · simp only at early ⊢
      omega
  · rw [is]
    simp only [zoneDecode, zoneSpan] at start
    refine ⟨?_, ?_, by simp, by simp⟩
    · simp only [zoneEncode, zoneSpan]
      omega
    · simp only [zoneEncode, zoneSpan]
      omega

/-- The next pass is entered in order. -/
theorem Visited.entered (visited : Visited zone hint state) (start : zoneDecode (hmp.nextOffset zone) = zone)
    (bounded : Bounded hmp) (positive : 0 < bytes) (small : bytes ≤ largeblockSize)
    (advance : Advance hmp zone bytes skipVol state.nextOffset next) :
    Entered hmp zone hint { state with nextOffset := next } := by
  obtain ⟨up, atMost⟩ := advance.spec bounded positive small visited.lower visited.below
  exact ⟨start, by have := visited.lower; simp only; omega, atMost, visited.hinted, visited.loops⟩

theorem blockOf_lt (lower : zoneEncode zone 0 ≤ next) (below : next < zoneEncode (zone + 1) 0) :
    blockOf zone next < largeblocks := by
  simp only [blockOf, largeblocks, largeblockSize, zoneEncode, zoneSpan] at *
  omega

/-- Every pass makes progress. -/
theorem progress_lt (visited : Visited zone hint state) (start : zoneDecode (hmp.nextOffset zone) = zone)
    (bounded : Bounded hmp) (positive : 0 < bytes) (small : bytes ≤ largeblockSize)
    (advance : Advance hmp zone bytes skipVol state.nextOffset next) :
    progress hmp zone bytes state <
      progress hmp zone bytes (settle hmp zone hint { state with nextOffset := next }) := by
  have entered : Entered hmp zone hint { state with nextOffset := next } :=
    visited.entered start bounded positive small advance
  obtain ⟨up, -⟩ := advance.spec bounded positive small visited.lower visited.below
  have block := blockOf_lt visited.lower visited.below
  have innerHere := inner_lt_six hmp bytes state.nextOffset
  obtain ⟨is, below⟩ | ⟨is, unused, -⟩ | ⟨is, used⟩ := settle_cases entered
  · rw [is]
    by_cases same : next / largeblockSize = state.nextOffset / largeblockSize
    · have further := advance.inner_lt positive small up same
      have sameBlock : blockOf zone state.nextOffset ≤ blockOf zone next := by
        unfold blockOf
        exact Nat.div_le_div_right (by omega)
      simp only [progress, phase]
      omega
    · have later : blockOf zone state.nextOffset < blockOf zone next := by
        have lower := visited.lower
        simp only [blockOf, largeblockSize, zoneEncode, zoneSpan] at same lower ⊢
        omega
      simp only [progress, phase]
      omega
  · rw [is]
    have later : phase state < phase { nextOffset := zoneEncode zone 0, useHint := false, loops := state.loops + 1 } := by
      simp only at unused
      simp [phase, unused]
    simp only [progress] at later ⊢
    have := Nat.mul_le_mul_right largeblocks (Nat.succ_le_of_lt later)
    rw [Nat.succ_mul] at this
    omega
  · rw [is]
    simp only at used
    simp only [progress, phase, used, if_true, largeblocks] at block ⊢
    simp
    omega

/-! ## All passes -/

theorem visits_again (early : (settle hmp zone hint entry).loops ≠ 2) (fuel : Nat) {result : ScanState}
    (is : scanStep hmp zone bytes hint skipVol entry = .again result) :
    visits hmp zone bytes hint skipVol (fuel + 1) entry =
      settle hmp zone hint entry :: visits hmp zone bytes hint skipVol fuel result := by
  rw [visits, if_neg early, is]

theorem visits_last (fuel : Nat)
    (is : ∀ result, scanStep hmp zone bytes hint skipVol entry ≠ .again result) :
    ∀ state ∈ visits hmp zone bytes hint skipVol (fuel + 1) entry,
      (settle hmp zone hint entry).loops ≠ 2 ∧ state = settle hmp zone hint entry := by
  intro state member
  rw [visits] at member
  by_cases late : (settle hmp zone hint entry).loops = 2
  · simp [late] at member
  · rw [if_neg late] at member
    cases step : scanStep hmp zone bytes hint skipVol entry with
    | again result => exact absurd step (is result)
    | panic => simp_all
    | enospc => simp_all
    | found final => simp_all

/-- The states of all passes are ordered by their progress. -/
theorem visits_spec (bounded : Bounded hmp) (positive : 0 < bytes) (small : bytes ≤ largeblockSize) (fuel : Nat)
    (entered : Entered hmp zone hint entry) :
    (∀ state ∈ visits hmp zone bytes hint skipVol fuel entry, Visited zone hint state ∧
      progress hmp zone bytes (settle hmp zone hint entry) ≤ progress hmp zone bytes state) ∧
    (visits hmp zone bytes hint skipVol fuel entry).Pairwise fun state later =>
      progress hmp zone bytes state < progress hmp zone bytes later := by
  induction fuel generalizing entry with
  | zero => exact ⟨by simp [visits], List.Pairwise.nil⟩
  | succ fuel ih =>
      by_cases again : ∃ result, scanStep hmp zone bytes hint skipVol entry = .again result
      · obtain ⟨result, is⟩ := again
        obtain ⟨early, next, rfl, advance⟩ := scanStep_again is
        have visited := entered.visited early
        have up := progress_lt visited entered.start bounded positive small advance
        obtain ⟨behind, sorted⟩ := ih (visited.entered entered.start bounded positive small advance)
        rw [visits_again early fuel is]
        constructor
        · intro state member
          obtain rfl | later := List.mem_cons.mp member
          · exact ⟨visited, le_refl _⟩
          · exact ⟨(behind state later).1, Nat.le_trans (Nat.le_of_lt up) (behind state later).2⟩
        · refine List.pairwise_cons.mpr ⟨fun state later => ?_, sorted⟩
          exact Nat.lt_of_lt_of_le up (behind state later).2
      · have single := visits_last fuel (fun result is => again ⟨result, is⟩)
        constructor
        · intro state member
          obtain ⟨early, rfl⟩ := single state member
          exact ⟨entered.visited early, le_refl _⟩
        · rw [visits]
          split
          · exact List.Pairwise.nil
          · split
            · rename_i result is
              exact absurd ⟨result, is⟩ again
            · exact List.pairwise_singleton _ _

/-- A search that has used up its fuel has looked at the layers as often. -/
theorem visits_length (fuel : Nat) (more : scan hmp zone bytes hint skipVol fuel entry = .more) :
    (visits hmp zone bytes hint skipVol fuel entry).length = fuel := by
  induction fuel generalizing entry with
  | zero => rfl
  | succ fuel ih =>
      rw [scan] at more
      cases is : scanStep hmp zone bytes hint skipVol entry with
      | again result =>
          rw [is] at more
          rw [visits_again (scanStep_again is).1 fuel is, List.length_cons, ih more]
      | panic => simp [is] at more
      | enospc => simp [is] at more
      | found final => simp [is] at more

/-- Numbers below a bound that increase along a list. -/
theorem length_le_of_increasing {α : Type} {measure : α → Nat} {list : List α} {bound : Nat}
    (sorted : list.Pairwise fun first later => measure first < measure later)
    (below : ∀ item ∈ list, measure item < bound) : list.length ≤ bound := by
  have distinct : (list.map measure).Nodup := List.pairwise_map.mpr (sorted.imp Nat.ne_of_lt)
  have inside : list.map measure ⊆ List.range bound := by
    intro value member
    obtain ⟨item, inList, rfl⟩ := List.mem_map.mp member
    exact List.mem_range.mpr (below item inList)
  have shorter := (List.Nodup.subperm distinct inside).length_le
  rwa [List.length_map, List.length_range] at shorter

theorem Visited.phase_le (visited : Visited zone hint state) : phase state ≤ 2 := by
  have loops := visited.loops
  unfold phase
  split <;> omega

theorem Visited.bigblock_eq (visited : Visited zone hint state) :
    bigblock state.nextOffset = blockOf zone state.nextOffset := by
  obtain ⟨lower, below, -, -⟩ := visited
  simp only [bigblock, longOffset, blockOf, largeblockSize, zoneEncode, zoneSpan] at *
  omega

/-- The search looks at the layers at most 18 times for each big-block of the zone. -/
theorem visits_length_le (bounded : Bounded hmp) (positive : 0 < bytes) (small : bytes ≤ largeblockSize) (fuel : Nat)
    (entered : Entered hmp zone hint entry) :
    (visits hmp zone bytes hint skipVol fuel entry).length ≤ 18 * largeblocks := by
  obtain ⟨all, sorted⟩ := @visits_spec hmp zone bytes hint skipVol entry bounded positive small fuel entered
  apply length_le_of_increasing sorted
  intro state member
  have visited := (all state member).1
  have block := blockOf_lt visited.lower visited.below
  have innerHere := inner_lt_six hmp bytes state.nextOffset
  have phaseHere := visited.phase_le
  unfold progress
  rw [largeblocks] at block ⊢
  omega

/-- The search looks at every single big-block at most 18 times. -/
theorem visits_count_le (bounded : Bounded hmp) (positive : 0 < bytes) (small : bytes ≤ largeblockSize) (fuel : Nat)
    (entered : Entered hmp zone hint entry) (block : Nat) :
    (visits hmp zone bytes hint skipVol fuel entry).countP (fun state => bigblock state.nextOffset = block) ≤ 18 := by
  obtain ⟨all, sorted⟩ := @visits_spec hmp zone bytes hint skipVol entry bounded positive small fuel entered
  rw [List.countP_eq_length_filter]
  have place : ∀ state ∈ (visits hmp zone bytes hint skipVol fuel entry).filter
      (fun state => bigblock state.nextOffset = block),
      Visited zone hint state ∧ blockOf zone state.nextOffset = block := by
    intro state member
    obtain ⟨inside, here⟩ := List.mem_filter.mp member
    have visited := (all state inside).1
    exact ⟨visited, visited.bigblock_eq.symm.trans (of_decide_eq_true here)⟩
  apply @length_le_of_increasing _ (fun state => phase state * 6 + inner hmp bytes state.nextOffset)
  · refine (sorted.filter _).imp_of_mem ?_
    intro state later here there up
    have first := inner_lt_six hmp bytes state.nextOffset
    have second := inner_lt_six hmp bytes later.nextOffset
    simp only [progress, (place state here).2, (place later there).2, largeblocks] at up
    omega
  · intro state member
    have innerHere := inner_lt_six hmp bytes state.nextOffset
    have phaseHere := (place state member).1.phase_le
    omega

/-- With more fuel than that the search comes back. -/
theorem scan_ends (bounded : Bounded hmp) (positive : 0 < bytes) (small : bytes ≤ largeblockSize) {fuel : Nat}
    (entered : Entered hmp zone hint entry) (enough : 18 * largeblocks < fuel) :
    scan hmp zone bytes hint skipVol fuel entry ≠ .more := by
  intro more
  have exactly := visits_length fuel more
  have atMost := @visits_length_le hmp zone bytes hint skipVol entry bounded positive small fuel entered
  omega

end Dragonfly.Hammer
