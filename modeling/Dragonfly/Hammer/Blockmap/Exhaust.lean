import Dragonfly.Hammer.Blockmap.Progress

/-!
# What a search has seen that reports `ENOSPC`

No move of the search goes past an offset that is open to the request.  A search that
comes to the end of the zone for the second time has begun at the start of the zone in
between, and has seen all of it.
-/

namespace Dragonfly.Hammer

open Dragonfly.Lib

/-- An offset the request could be placed at, below a layer-1 entry that the search does
not skip as a whole. -/
structure Open (hmp : Mount) (zone bytes : Nat) (skipVol : Option Nat) (next : Nat) : Prop
    extends Placeable hmp zone bytes next where
  counted : (hmp.layer1 (layer1Index next)).blocksFree ≠ 0
  kept : ∀ phys, (hmp.layer1 (layer1Index next)).physOffset = some phys → skipVol ≠ some (volDecode phys)

/-- What both functions start their loop with; a reservation has no hint. -/
def searchStart (hmp : Mount) (zone hint : Nat) : ScanState :=
  if hint ≠ 0 ∧ zoneDecode hint = zone then
    { nextOffset := (hint + 15) / 16 * 16, useHint := true, loops := 0 }
  else { nextOffset := hmp.nextOffset zone, useHint := false, loops := 0 }

/-- Behind the first wrap nothing open is left below the search. -/
def Searched (hmp : Mount) (zone bytes : Nat) (skipVol : Option Nat) (state : ScanState) : Prop :=
  state.loops = 1 → ∀ spot, Open hmp zone bytes skipVol spot → state.nextOffset ≤ spot

variable {hmp : Mount} {zone bytes hint : Nat} {skipVol : Option Nat} {entry state : ScanState}
  {next after spot : Nat}

/-! ## Moves -/

theorem layer1Index_congr (same : after / blockmapLayer2 = next / blockmapLayer2) :
    layer1Index after = layer1Index next := by
  simp only [layer1Index, longOffset, zoneSpan, blockmapLayer2] at same ⊢
  omega

theorem Open.bounds (open_ : Open hmp zone bytes skipVol spot) :
    zoneEncode zone 0 ≤ spot ∧ spot < zoneEncode (zone + 1) 0 := by
  have inZone := open_.inZone
  simp only [zoneDecode, zoneEncode, zoneSpan] at inZone ⊢
  omega

/-- In the big-block of an open offset, and not behind it. -/
theorem sameBlock_of_lt (above : next ≤ spot) (below : spot < next + (largeblockSize - blockOffset next)) :
    bigblock spot = bigblock next ∧ blockOffset next ≤ blockOffset spot ∧
      spot - next = blockOffset spot - blockOffset next := by
  have same : spot / largeblockSize = next / largeblockSize := by
    simp only [blockOffset, largeblockSize] at below ⊢
    omega
  have offset := blockOffset_of_same same above
  exact ⟨bigblock_congr same, by omega, by omega⟩

/-- A move does not go past an open offset. -/
theorem Advance.closed (bounded : Bounded hmp) (advance : Advance hmp zone bytes skipVol next after)
    (above : next ≤ spot) (open_ : Open hmp zone bytes skipVol spot) : after ≤ spot := by
  by_contra below
  rw [not_le] at below
  obtain ⟨⟨inZone, fits, avail, owner, append2, resv⟩, counted, kept⟩ := open_
  cases advance with
  | cross cut =>
      have positive : 0 < boundary bytes := by
        unfold boundary
        split <;> decide
      have early : spot / boundary bytes < (next + bytes - 1) / boundary bytes :=
        (Nat.div_lt_iff_lt_mul positive).mpr below
      have late : (next + bytes - 1) / boundary bytes ≤ (spot + bytes - 1) / boundary bytes :=
        Nat.div_le_div_right (by omega)
      omega
  | layer skipped =>
      have same : layer1Index spot = layer1Index next := by
        apply layer1Index_congr
        simp only [blockmapLayer2] at below ⊢
        omega
      rw [same] at counted kept
      obtain noneFree | ⟨phys, is, removed⟩ := skipped
      · exact counted noneFree
      · exact kept phys is removed
  | owner foreign =>
      rw [(sameBlock_of_lt above below).1] at owner
      exact owner.elim foreign.1 foreign.2
  | append2 fitsHere short =>
      have atMost := bounded.append2 (bigblock next)
      obtain ⟨same, -, moved⟩ := sameBlock_of_lt above (by omega)
      rw [same] at append2
      omega
  | resvZone present foreign =>
      rw [(sameBlock_of_lt above below).1] at resv
      exact foreign (resv _ present).1
  | appendResv fitsHere present short =>
      have atMost := bounded.appendResv _ _ present
      obtain ⟨same, -, moved⟩ := sameBlock_of_lt above (by omega)
      rw [same] at resv
      have past := (resv _ present).2
      omega

/-! ## Passes -/

/-- Settling keeps what has been seen. -/
theorem Searched.settle (searched : Searched hmp zone bytes skipVol entry) (entered : Entered hmp zone hint entry) :
    Searched hmp zone bytes skipVol (settle hmp zone hint entry) := by
  obtain ⟨is, -⟩ | ⟨is, -, -⟩ | ⟨is, -⟩ := settle_cases entered
  · rw [is]
    exact searched
  · rw [is]
    intro _ spot open_
    exact open_.bounds.1
  · rw [is]
    intro wrapped
    simp at wrapped

/-- Behind the second wrap nothing open is left at all. -/
theorem Searched.none_open (searched : Searched hmp zone bytes skipVol entry) (entered : Entered hmp zone hint entry)
    (late : (Hammer.settle hmp zone hint entry).loops = 2) : ¬Open hmp zone bytes skipVol spot := by
  intro open_
  have loops := entered.loops
  obtain ⟨is, -⟩ | ⟨is, -, ended⟩ | ⟨is, -⟩ := settle_cases entered
  · rw [is] at late
    omega
  · rw [is] at late
    have behind := searched (Nat.succ.inj late) spot open_
    have inside := open_.bounds.2
    omega
  · rw [is] at late
    simp at late

/-- A search that reports `ENOSPC` has left nothing open. -/
theorem scan_exhausts (bounded : Bounded hmp) (positive : 0 < bytes) (small : bytes ≤ largeblockSize) {fuel : Nat}
    (entered : Entered hmp zone hint entry) (searched : Searched hmp zone bytes skipVol entry)
    (enospc : scan hmp zone bytes hint skipVol fuel entry = .done none) : ¬Open hmp zone bytes skipVol spot := by
  induction fuel generalizing entry with
  | zero => simp [scan] at enospc
  | succ fuel ih =>
      rw [scan] at enospc
      cases is : scanStep hmp zone bytes hint skipVol entry with
      | panic => simp [is] at enospc
      | found final => simp [is] at enospc
      | enospc => exact searched.none_open entered (scanStep_enospc is)
      | again result =>
          rw [is] at enospc
          obtain ⟨early, next, rfl, advance⟩ := scanStep_again is
          have visited := entered.visited early
          have settled := searched.settle entered
          apply ih (visited.entered entered.start bounded positive small advance) _ enospc
          intro wrapped spot open_
          exact advance.closed bounded (settled wrapped spot open_) open_

theorem searchStart_entered (start : zoneDecode (hmp.nextOffset zone) = zone) (hint : Nat) :
    Entered hmp zone hint (searchStart hmp zone hint) := by
  unfold searchStart
  split
  · rename_i used
    obtain ⟨-, inZone⟩ := used
    refine ⟨start, ?_, ?_, fun _ => ⟨inZone, rfl⟩, Nat.zero_le _⟩
    · simp only [zoneDecode, zoneEncode, zoneSpan] at inZone ⊢
      omega
    · simp only [zoneDecode, zoneEncode, zoneSpan] at inZone ⊢
      omega
  · refine ⟨start, ?_, ?_, by simp, Nat.zero_le _⟩
    · simp only [zoneDecode, zoneEncode, zoneSpan] at start ⊢
      omega
    · simp only [zoneDecode, zoneEncode, zoneSpan] at start ⊢
      omega

theorem searchStart_searched (hint : Nat) : Searched hmp zone bytes skipVol (searchStart hmp zone hint) := by
  intro wrapped
  unfold searchStart at wrapped
  split at wrapped <;> simp at wrapped

/-! ## Both functions -/

theorem takeBigblock_ends (hmp : Mount) (next zone : Nat) : (takeBigblock hmp next zone).Ends fun _ => True := by
  unfold takeBigblock
  dsimp only
  split
  · exact .kkassert (.kkassert trivial)
  · trivial

theorem blockmapReserveComplete_ends (hmp : Mount) (block : Nat) (delError : Bool) :
    (blockmapReserveComplete hmp block delError).Ends fun _ => True := by
  unfold blockmapReserveComplete
  split
  · trivial
  · apply Outcome.Ends.kkassert
    dsimp only
    split
    · trivial
    · split
      · exact .kkassert trivial
      · trivial

/-- Nothing of what an allocation does behind the search loops. -/
theorem allocCommit_ends (hmp : Mount) (zone bytes : Nat) (state : ScanState) :
    (allocCommit hmp zone bytes state).Ends fun _ => True := by
  apply (takeBigblock_ends hmp state.nextOffset zone).bind
  intro taken _ _
  refine .kkassert (.kkassert ?_)
  have tracked : ∀ reserved block (resv : Reserve) (offset : Nat),
      (Outcome.kkassert (resv.appendOff ≤ offset) (blockmapReserveComplete reserved block false)).Ends
        fun _ => True :=
    fun reserved block resv offset => .kkassert (blockmapReserveComplete_ends reserved block false)
  dsimp only
  split
  · trivial
  · exact (tracked _ _ _ _).bind fun _ _ _ => trivial

/-- The search of both functions, with what they start it with. -/
structure SearchEnds (hmp : Mount) (zone bytes hint : Nat) (skipVol : Option Nat) : Prop where
  /-- with fuel for 18 visits of each big-block the loop comes back -/
  ends : ∀ fuel, 18 * largeblocks < fuel →
    scan hmp zone bytes hint skipVol fuel (searchStart hmp zone hint) ≠ .more
  /-- it looks at no big-block more often -/
  counted : ∀ fuel block, (visits hmp zone bytes hint skipVol fuel (searchStart hmp zone hint)).countP
    (fun state => bigblock state.nextOffset = block) ≤ 18
  /-- `ENOSPC` is reported only if nothing is open -/
  exhausted : ∀ fuel, scan hmp zone bytes hint skipVol fuel (searchStart hmp zone hint) = .done none →
    ∀ spot, ¬Open hmp zone bytes skipVol spot

theorem searchEnds (bounded : Bounded hmp) (start : zoneDecode (hmp.nextOffset zone) = zone)
    (positive : 0 < bytes) (small : bytes ≤ largeblockSize) (hint : Nat) (skipVol : Option Nat) :
    SearchEnds hmp zone bytes hint skipVol where
  ends _ enough := scan_ends bounded positive small (searchStart_entered start hint) enough
  counted fuel := visits_count_le bounded positive small fuel (searchStart_entered start hint)
  exhausted _ enospc _ :=
    scan_exhausts bounded positive small (searchStart_entered start hint) (searchStart_searched hint) enospc

theorem kkassert_eq_more {condition : Bool} {α : Type} {rest : Outcome α}
    (more : Outcome.kkassert condition rest = .more) : condition = true ∧ rest = .more := by
  cases condition with
  | true => exact ⟨rfl, more⟩
  | false => cases more

theorem roundBytes_small (small : roundBytes bytes ≤ xbufsize) : roundBytes bytes ≤ largeblockSize :=
  Nat.le_trans small (by decide)

theorem blockmapAlloc_ne_more (bounded : Bounded hmp) {fuel : Nat} (enough : 18 * largeblocks < fuel)
    (zone bytes hint : Nat) : blockmapAlloc fuel hmp zone bytes hint ≠ .more := by
  intro more
  obtain ⟨sized, more⟩ := kkassert_eq_more more
  obtain ⟨-, more⟩ := kkassert_eq_more more
  obtain ⟨start, more⟩ := kkassert_eq_more more
  obtain ⟨positive, small⟩ := of_decide_eq_true sized
  have search := searchEnds bounded (of_decide_eq_true start) positive (roundBytes_small small) hint hmp.volumeToRemove
  obtain running | ⟨result, -, running⟩ := (Outcome.bind_eq_more_iff).mp more
  · exact search.ends fuel enough running
  · cases result with
    | none => cases running
    | some final =>
        obtain committing | ⟨after, -, returning⟩ := (Outcome.bind_eq_more_iff).mp running
        · exact (allocCommit_ends _ _ _ _).ne_more committing
        · cases returning

theorem blockmapAlloc_enospc (bounded : Bounded hmp) {fuel : Nat} {final : Mount}
    (enospc : blockmapAlloc fuel hmp zone bytes hint = .done (none, final)) :
    ¬Open hmp zone (roundBytes bytes) hmp.volumeToRemove spot := by
  obtain ⟨sized, enospc⟩ := (Outcome.kkassert_eq_done_iff).mp enospc
  obtain ⟨-, enospc⟩ := (Outcome.kkassert_eq_done_iff).mp enospc
  obtain ⟨start, enospc⟩ := (Outcome.kkassert_eq_done_iff).mp enospc
  obtain ⟨positive, small⟩ := of_decide_eq_true sized
  have search := searchEnds bounded (of_decide_eq_true start) positive (roundBytes_small small) hint hmp.volumeToRemove
  obtain ⟨result, searched, returned⟩ := (Outcome.bind_eq_done_iff).mp enospc
  cases result with
  | none => exact search.exhausted fuel searched spot
  | some found =>
      obtain ⟨after, -, same⟩ := (Outcome.bind_eq_done_iff).mp returned
      cases same

theorem blockmapReserve_ne_more (bounded : Bounded hmp) {fuel : Nat} (enough : 18 * largeblocks < fuel)
    (zone bytes : Nat) : blockmapReserve fuel hmp zone bytes ≠ .more := by
  intro more
  obtain ⟨-, more⟩ := kkassert_eq_more more
  obtain ⟨start, more⟩ := kkassert_eq_more more
  obtain ⟨sized, more⟩ := kkassert_eq_more more
  obtain ⟨positive, small⟩ := of_decide_eq_true sized
  have search := searchEnds bounded (of_decide_eq_true start) positive (roundBytes_small small) 0 none
  obtain running | ⟨result, -, running⟩ := (Outcome.bind_eq_more_iff).mp more
  · exact search.ends fuel enough running
  · cases result <;> cases running

theorem blockmapReserve_enospc (bounded : Bounded hmp) {fuel : Nat} {final : Mount}
    (enospc : blockmapReserve fuel hmp zone bytes = .done (none, final)) :
    ¬Open hmp zone (roundBytes bytes) none spot := by
  obtain ⟨-, enospc⟩ := (Outcome.kkassert_eq_done_iff).mp enospc
  obtain ⟨start, enospc⟩ := (Outcome.kkassert_eq_done_iff).mp enospc
  obtain ⟨sized, enospc⟩ := (Outcome.kkassert_eq_done_iff).mp enospc
  obtain ⟨positive, small⟩ := of_decide_eq_true sized
  have search := searchEnds bounded (of_decide_eq_true start) positive (roundBytes_small small) 0 none
  obtain ⟨result, searched, returned⟩ := (Outcome.bind_eq_done_iff).mp enospc
  cases result with
  | none => exact search.exhausted fuel searched spot
  | some found => cases returned

/-- The searches end: the loops come back, having looked at each big-block of the zone at
most 18 times, and `ENOSPC` is reported only if no offset below a layer-1 entry that counts
free big-blocks, and not on the volume being removed, has room for the request. -/
theorem searches_end (bounded : Bounded hmp) (zone bytes hint : Nat) :
    (zoneDecode (hmp.nextOffset zone) = zone → 0 < bytes → bytes ≤ largeblockSize →
      ∀ skipVol, SearchEnds hmp zone bytes hint skipVol) ∧
    (∀ fuel, 18 * largeblocks < fuel →
      blockmapAlloc fuel hmp zone bytes hint ≠ .more ∧ blockmapReserve fuel hmp zone bytes ≠ .more) ∧
    (∀ fuel final, blockmapAlloc fuel hmp zone bytes hint = .done (none, final) →
      ∀ spot, ¬Open hmp zone (roundBytes bytes) hmp.volumeToRemove spot) ∧
    (∀ fuel final, blockmapReserve fuel hmp zone bytes = .done (none, final) →
      ∀ spot, ¬Open hmp zone (roundBytes bytes) none spot) := by
  refine ⟨fun start positive small => searchEnds bounded start positive small hint, fun fuel enough => ?_,
    fun fuel final enospc spot => blockmapAlloc_enospc bounded enospc,
    fun fuel final enospc spot => blockmapReserve_enospc bounded enospc⟩
  exact ⟨blockmapAlloc_ne_more bounded enough zone bytes hint, blockmapReserve_ne_more bounded enough zone bytes⟩

/-! ## Where a search misses room, and where it does not end -/

/-- Every big-block belongs to zone 8, `appendOff` bytes of it are allocated, and layer 1
counts `blocksFree` of them as free. -/
def uniformMount (blocksFree : Int) (appendOff start : Nat) : Mount where
  layer1 _ := { blocksFree := blocksFree, physOffset := some 0 }
  layer2 _ := { zone := 8, appendOff := appendOff, bytesFree := largeblockSize - 16 }
  resv _ := none
  nextOffset zone := zoneEncode zone start
  volumeToRemove := none
  delayList := []
  rsvFromdelay := 0
  flusherNext := 0
  statFreebigblocks := 0
  copyStatFreebigblocks := 0

theorem uniformMount_bounded (blocksFree : Int) (start : Nat) : Bounded (uniformMount blocksFree 16 start) where
  append2 _ := show 16 ≤ largeblockSize by decide
  appendResv _ _ present := nomatch present

theorem searches_end_uniform : SearchEnds (uniformMount 0 16 0) 8 16 0 none ∧
    blockmapReserve (18 * largeblocks + 1) (uniformMount 0 16 0) 8 16 ≠ .more := by
  have ends := searches_end (uniformMount_bounded 0 0) 8 16 0
  exact ⟨ends.1 (by decide) (by decide) (by decide) none, (ends.2.1 _ (Nat.lt_succ_self _)).2⟩

/-- At the first big-block of a layer-1 entry that counts nothing free the search moves to
the next entry. -/
theorem scanStep_uniform (aligned : entry.nextOffset % blockmapLayer2 = 0) (unused : entry.useHint = false) :
    scanStep (uniformMount 0 16 0) 8 16 0 none entry = .enospc ∨
      ∃ result, scanStep (uniformMount 0 16 0) 8 16 0 none entry = .again result ∧
        result.nextOffset % blockmapLayer2 = 0 ∧ result.useHint = false := by
  have kept : dropHint (uniformMount 0 16 0) 8 0 entry = entry := by simp [dropHint, unused]
  have wrapped : (wrapScan 8 entry).nextOffset % blockmapLayer2 = 0 ∧ (wrapScan 8 entry).useHint = false := by
    unfold wrapScan
    split
    · exact ⟨show zoneEncode 8 0 % blockmapLayer2 = 0 by decide, unused⟩
    · exact ⟨aligned, unused⟩
  obtain ⟨start, hintless⟩ := wrapped
  simp only [scanStep, kept]
  split
  · exact .inl rfl
  · right
    have fits : (wrapScan 8 entry).nextOffset / boundary 16 =
        ((wrapScan 8 entry).nextOffset + 16 - 1) / boundary 16 := by
      rw [boundary_of_le (by decide)]
      simp only [blockmapLayer2] at start
      omega
    have first : blockOffset (wrapScan 8 entry).nextOffset = 0 := by
      simp only [blockmapLayer2, blockOffset, largeblockSize] at start ⊢
      omega
    rw [if_neg (not_not.mpr fits), probe, if_pos ⟨first, rfl⟩]
    refine ⟨_, rfl, ?_, hintless⟩
    exact Nat.mul_mod_left _ _

theorem scan_uniform (fuel : Nat) (aligned : entry.nextOffset % blockmapLayer2 = 0) (unused : entry.useHint = false) :
    scan (uniformMount 0 16 0) 8 16 0 none fuel entry = .more ∨
      scan (uniformMount 0 16 0) 8 16 0 none fuel entry = .done none := by
  induction fuel generalizing entry with
  | zero => exact .inl rfl
  | succ fuel ih =>
      rw [scan]
      obtain is | ⟨result, is, next, hintless⟩ := scanStep_uniform aligned unused
      · rw [is]
        exact .inr rfl
      · rw [is]
        exact ih next hintless

/-- Behind the first bytes of a big-block, an append offset behind the end of the
big-block keeps the search there for ever. -/
theorem scanStep_over {next : Nat} (place : next % largeblockSize = 16) :
    scanStep (uniformMount 1 (largeblockSize + 16) 16) 8 16 0 none { nextOffset := next, useHint := false, loops := 0 } =
      .again { nextOffset := next + largeblockSize, useHint := false, loops := 0 } := by
  have inside : next ≠ zoneEncode (8 + 1) 0 := by
    rintro rfl
    exact absurd place (by decide)
  have fits : next / boundary 16 = (next + 15) / boundary 16 := by
    rw [boundary_of_le (by decide)]
    simp only [largeblockSize] at place
    omega
  have short : blockOffset next < largeblockSize + 16 := by
    rw [blockOffset, place]
    decide
  have moved : largeblockSize + 16 - blockOffset next = largeblockSize := by
    rw [blockOffset, place]
    rfl
  simp [scanStep, dropHint, wrapScan, inside, probe, uniformMount, short, moved, ← fits]

theorem scan_over (fuel : Nat) {next : Nat} (place : next % largeblockSize = 16) :
    scan (uniformMount 1 (largeblockSize + 16) 16) 8 16 0 none fuel
      { nextOffset := next, useHint := false, loops := 0 } = .more := by
  induction fuel generalizing next with
  | zero => rfl
  | succ fuel ih =>
      rw [scan, scanStep_over place]
      exact ih (by rw [Nat.add_mod_right, place])

theorem blockmapReserve_of_scan {fuel : Nat} (valid : zoneBtreeIndex ≤ zone ∧ zone < maxZones)
    (start : zoneDecode (hmp.nextOffset zone) = zone) (sized : 0 < roundBytes bytes ∧ roundBytes bytes ≤ xbufsize) :
    (scan hmp zone (roundBytes bytes) 0 none fuel (searchStart hmp zone 0) = .more →
      blockmapReserve fuel hmp zone bytes = .more) ∧
    (scan hmp zone (roundBytes bytes) 0 none fuel (searchStart hmp zone 0) = .done none →
      blockmapReserve fuel hmp zone bytes = .done (none, hmp)) := by
  have starts : searchStart hmp zone 0 = { nextOffset := hmp.nextOffset zone, useHint := false, loops := 0 } :=
    if_neg fun used => used.1 rfl
  simp only [blockmapReserve, Outcome.kkassert_of valid, Outcome.kkassert_of start, Outcome.kkassert_of sized, starts]
  constructor
  · intro more
    rw [more]
    rfl
  · intro done
    rw [done]
    rfl

/-- A reservation reports `ENOSPC` although the first big-block has room behind its first
16 bytes, and with an append offset behind the end of the big-block it does not return. -/
theorem search_misses_room :
    (∃ fuel, blockmapReserve fuel (uniformMount 0 16 0) 8 16 = .done (none, uniformMount 0 16 0) ∧
      Placeable (uniformMount 0 16 0) 8 16 (zoneEncode 8 16)) ∧
    ∀ fuel, blockmapReserve fuel (uniformMount 1 (largeblockSize + 16) 16) 8 16 = .more := by
  constructor
  · refine ⟨18 * largeblocks + 1, ?_, by decide, by decide, rfl, by decide, by decide, by simp [uniformMount]⟩
    have ends := (searchEnds (uniformMount_bounded 0 0) (show zoneDecode (zoneEncode 8 0) = 8 by decide)
      (show 0 < roundBytes 16 by decide) (by decide) 0 none).ends _ (Nat.lt_succ_self _)
    have done := (@scan_uniform (searchStart (uniformMount 0 16 0) 8 0) (18 * largeblocks + 1)
      (by decide) (by decide)).resolve_left ends
    exact (blockmapReserve_of_scan (by decide) (by decide) (by decide)).2 done
  · intro fuel
    exact (blockmapReserve_of_scan (by decide) (by decide) (by decide)).1
      (@scan_over fuel (zoneEncode 8 16) (by decide))

end Dragonfly.Hammer
