import Dragonfly.Hammer.Blockmap.Model

/-!
# What the blockmap search settles on

The `again` loop only ever holds offsets of the requested zone, and it holds an
offset inside a big-block only when the layer-1 entry there is available.  So it
cannot trip over an unavailable layer-1 entry, and an offset it settles on lies
past both append offsets of a big-block no other zone owns or has reserved.
-/

namespace Dragonfly.Hammer

open Dragonfly.Lib

/-- An offset the search may hold: inside the zone or at its end, and inside a
big-block only where layer 1 is available. -/
structure ScanOk (hmp : Mount) (zone next : Nat) : Prop where
  lower : zoneEncode zone 0 ≤ next
  upper : next ≤ zoneEncode (zone + 1) 0
  avail : blockOffset next ≠ 0 → (hmp.layer1 (layer1Index next)).physOffset.isSome

/-- What the searches rely on in the two layers and the reservation tree. -/
structure ScanTables (hmp : Mount) : Prop where
  unavail : ∀ index, (hmp.layer1 index).physOffset = none → (hmp.layer1 index).blocksFree = 0
  append2 : ∀ block, (hmp.layer2 block).appendOff ≤ largeblockSize
  appendResv : ∀ block resv, hmp.resv block = some resv → resv.appendOff ≤ largeblockSize

/-- The offset `next` is free for `bytes` bytes in `zone`. -/
structure Placeable (hmp : Mount) (zone bytes next : Nat) : Prop where
  inZone : zoneDecode next = zone
  fits : next / boundary bytes = (next + bytes - 1) / boundary bytes
  avail : (hmp.layer1 (layer1Index next)).physOffset.isSome
  owner : (hmp.layer2 (bigblock next)).zone = 0 ∨ (hmp.layer2 (bigblock next)).zone = zone
  append2 : (hmp.layer2 (bigblock next)).appendOff ≤ blockOffset next
  resv : ∀ resv, hmp.resv (bigblock next) = some resv →
    resv.zone = zone ∧ resv.appendOff ≤ blockOffset next

theorem boundary_of_le {bytes : Nat} (small : bytes ≤ 16384) : boundary bytes = 16384 :=
  if_pos small

theorem boundary_of_lt {bytes : Nat} (large : 16384 < bytes) : boundary bytes = 8388608 :=
  if_neg (Nat.not_le.mpr large)

/-- A zone starts and ends on a layer-1 boundary. -/
theorem zone_edges (zone : Nat) :
    ∃ edge, zoneEncode zone 0 = edge * 4398046511104 ∧
      zoneEncode (zone + 1) 0 = (edge + 262144) * 4398046511104 := by
  refine ⟨zone * 262144, ?_, ?_⟩ <;> simp only [zoneEncode, zoneSpan] <;> omega

namespace ScanOk

variable {hmp : Mount} {zone next : Nat}

/-- A big-block boundary of the zone is always acceptable. -/
theorem of_aligned (lower : zoneEncode zone 0 ≤ next) (upper : next ≤ zoneEncode (zone + 1) 0)
    (aligned : blockOffset next = 0) : ScanOk hmp zone next :=
  ⟨lower, upper, fun nonzero => absurd aligned nonzero⟩

theorem wrap (ok : ScanOk hmp zone next) (state : ScanState) (same : state.nextOffset = next) :
    ScanOk hmp zone (wrapScan zone state).nextOffset ∧
      (wrapScan zone state).nextOffset < zoneEncode (zone + 1) 0 := by
  subst same
  obtain ⟨edge, first, last⟩ := zone_edges zone
  unfold wrapScan
  split
  · refine ⟨of_aligned le_rfl ?_ ?_, ?_⟩
    · dsimp only
      omega
    · simp only [blockOffset, largeblockSize]
      omega
    · dsimp only
      omega
  · rename_i inside
    have upper := ok.upper
    exact ⟨ok, by omega⟩

/-- Rounding to the boundary the request would cross stays acceptable. -/
theorem cross {bytes : Nat} (ok : ScanOk hmp zone next) (below : next < zoneEncode (zone + 1) 0)
    (positive : 0 < bytes) (small : bytes ≤ xbufsize) :
    ScanOk hmp zone ((next + bytes - 1) / boundary bytes * boundary bytes) := by
  obtain ⟨edge, first, last⟩ := zone_edges zone
  have lower := ok.lower
  have avail := ok.avail
  have limit : bytes ≤ 65536 := small
  by_cases buffered : bytes ≤ 16384
  · rw [boundary_of_le buffered]
    refine ⟨by omega, by omega, ?_⟩
    intro nonzero
    simp only [blockOffset, largeblockSize, layer1Index, longOffset, zoneSpan,
      blockmapLayer2] at nonzero avail ⊢
    have sameLayer : (next + bytes - 1) / 16384 * 16384 % 1152921504606846976 / 4398046511104 =
        next % 1152921504606846976 / 4398046511104 := by omega
    rw [sameLayer]
    exact avail (by omega)
  · rw [boundary_of_lt (by omega)]
    refine of_aligned (by omega) (by omega) ?_
    simp only [blockOffset, largeblockSize]
    omega

/-- The next layer-1 entry starts at an acceptable offset. -/
theorem nextLayer1 (ok : ScanOk hmp zone next) (below : next < zoneEncode (zone + 1) 0) :
    ScanOk hmp zone ((next + blockmapLayer2) / blockmapLayer2 * blockmapLayer2) := by
  obtain ⟨edge, first, last⟩ := zone_edges zone
  have lower := ok.lower
  simp only [blockmapLayer2]
  refine of_aligned (by omega) (by omega) ?_
  simp only [blockOffset, largeblockSize]
  omega

/-- So does the next big-block. -/
theorem nextBlock (ok : ScanOk hmp zone next) (below : next < zoneEncode (zone + 1) 0) :
    ScanOk hmp zone (next + (largeblockSize - blockOffset next)) := by
  obtain ⟨edge, first, last⟩ := zone_edges zone
  have lower := ok.lower
  simp only [largeblockSize, blockOffset]
  refine of_aligned (by omega) (by omega) ?_
  simp only [blockOffset, largeblockSize]
  omega

/-- The same step written as the code writes it for a foreign reservation. -/
theorem nextBlock_eq (next : Nat) :
    (next + largeblockSize) / largeblockSize * largeblockSize =
      next + (largeblockSize - blockOffset next) := by
  simp only [largeblockSize, blockOffset]
  omega

/-- Moving past an append offset stays inside the big-block or reaches its end. -/
theorem pastAppend {appendOff : Nat} (ok : ScanOk hmp zone next)
    (below : next < zoneEncode (zone + 1) 0)
    (avail : (hmp.layer1 (layer1Index next)).physOffset.isSome)
    (short : blockOffset next < appendOff) (bounded : appendOff ≤ largeblockSize) :
    ScanOk hmp zone (next + (appendOff - blockOffset next)) := by
  obtain ⟨edge, first, last⟩ := zone_edges zone
  have lower := ok.lower
  have upper : next + (largeblockSize - blockOffset next) ≤ zoneEncode (zone + 1) 0 :=
    (ok.nextBlock below).upper
  refine ⟨by omega, by omega, ?_⟩
  intro nonzero
  have sameLayer : layer1Index (next + (appendOff - blockOffset next)) = layer1Index next := by
    simp only [blockOffset, largeblockSize, layer1Index, longOffset, zoneSpan,
      blockmapLayer2] at nonzero bounded short ⊢
    omega
  rw [sameLayer]
  exact avail

end ScanOk

/-- What one look at the layers can do. -/
theorem probe_cases {hmp : Mount} {zone bytes : Nat} (skipVol : Option Nat) {state : ScanState}
    (tables : ScanTables hmp) (ok : ScanOk hmp zone state.nextOffset)
    (below : state.nextOffset < zoneEncode (zone + 1) 0)
    (fits : state.nextOffset / boundary bytes = (state.nextOffset + bytes - 1) / boundary bytes) :
    (∃ next, probe hmp zone skipVol state = .again { state with nextOffset := next } ∧
        ScanOk hmp zone next) ∨
      (probe hmp zone skipVol state = .found state ∧
        Placeable hmp zone bytes state.nextOffset) := by
  have inZone : zoneDecode state.nextOffset = zone := by
    have lower := ok.lower
    simp only [zoneDecode, zoneEncode, zoneSpan] at *
    omega
  simp only [probe]
  by_cases skip : blockOffset state.nextOffset = 0 ∧
      (hmp.layer1 (layer1Index state.nextOffset)).blocksFree = 0
  · rw [if_pos skip]
    exact .inl ⟨_, rfl, ok.nextLayer1 below⟩
  · rw [if_neg skip]
    cases phys : (hmp.layer1 (layer1Index state.nextOffset)).physOffset with
    | none =>
        have noneFree := tables.unavail _ phys
        have aligned : blockOffset state.nextOffset = 0 := by
          by_contra nonzero
          have avail := ok.avail nonzero
          rw [phys] at avail
          contradiction
        exact absurd ⟨aligned, noneFree⟩ skip
    | some base =>
        have avail : (hmp.layer1 (layer1Index state.nextOffset)).physOffset.isSome := by
          rw [phys]; rfl
        dsimp only
        split
        · exact .inl ⟨_, rfl, ok.nextLayer1 below⟩
        split
        · exact .inl ⟨_, rfl, ok.nextBlock below⟩
        rename_i owner
        split
        · rename_i short
          exact .inl ⟨_, rfl, ok.pastAppend below avail short (tables.append2 _)⟩
        rename_i past
        have owned : (hmp.layer2 (bigblock state.nextOffset)).zone = 0 ∨
            (hmp.layer2 (bigblock state.nextOffset)).zone = zone := by
          by_contra other
          exact owner (not_or.mp other)
        cases entry : hmp.resv (bigblock state.nextOffset) with
        | none =>
            refine .inr ⟨rfl, inZone, fits, avail, owned, by omega, ?_⟩
            intro resv present
            rw [entry] at present
            contradiction
        | some resv =>
            dsimp only
            split
            · refine .inl ⟨_, rfl, ?_⟩
              rw [ScanOk.nextBlock_eq]
              exact ok.nextBlock below
            rename_i sameZone
            split
            · rename_i short
              exact .inl ⟨_, rfl,
                ok.pastAppend below avail short (tables.appendResv _ _ entry)⟩
            rename_i pastResv
            refine .inr ⟨rfl, inZone, fits, avail, owned, by omega, ?_⟩
            intro other present
            have same : other = resv := Option.some.inj (present.symm.trans entry)
            subst same
            exact ⟨by simpa using sameZone, by omega⟩

/-- One pass over the loop body, from an acceptable offset. -/
theorem scanStep_cases {hmp : Mount} {zone bytes : Nat} (hint : Nat) (skipVol : Option Nat)
    {entry : ScanState} (tables : ScanTables hmp) (start : ScanOk hmp zone (hmp.nextOffset zone))
    (positive : 0 < bytes) (small : bytes ≤ xbufsize) (ok : ScanOk hmp zone entry.nextOffset) :
    scanStep hmp zone bytes hint skipVol entry = .enospc ∨
      (∃ state, scanStep hmp zone bytes hint skipVol entry = .again state ∧
        ScanOk hmp zone state.nextOffset) ∨
      (∃ state, scanStep hmp zone bytes hint skipVol entry = .found state ∧
        Placeable hmp zone bytes state.nextOffset) := by
  have dropped : ScanOk hmp zone (dropHint hmp zone hint entry).nextOffset := by
    unfold dropHint
    split
    · exact start
    · exact ok
  obtain ⟨wrapped, below⟩ := dropped.wrap _ rfl
  unfold scanStep
  dsimp only
  split
  · exact .inl rfl
  split
  · exact .inr (.inl ⟨_, rfl, wrapped.cross below positive small⟩)
  · rename_i together
    have fits := not_not.mp together
    rcases probe_cases skipVol tables wrapped below fits with
      ⟨next, result, nextOk⟩ | ⟨result, placeable⟩
    · exact .inr (.inl ⟨_, result, nextOk⟩)
    · exact .inr (.inr ⟨_, result, placeable⟩)

/-- The search never panics, and what it settles on is placeable. -/
theorem scan_spec {hmp : Mount} {zone bytes : Nat} (hint : Nat) (skipVol : Option Nat)
    (tables : ScanTables hmp) (start : ScanOk hmp zone (hmp.nextOffset zone))
    (positive : 0 < bytes) (small : bytes ≤ xbufsize) (fuel : Nat) {entry : ScanState}
    (ok : ScanOk hmp zone entry.nextOffset) :
    scan hmp zone bytes hint skipVol fuel entry ≠ .panic ∧
      ∀ final, scan hmp zone bytes hint skipVol fuel entry = .done (some final) →
        Placeable hmp zone bytes final.nextOffset := by
  induction fuel generalizing entry with
  | zero => simp [scan]
  | succ fuel ih =>
      rcases scanStep_cases hint skipVol tables start positive small ok with
        result | ⟨state, result, nextOk⟩ | ⟨state, result, placeable⟩
      · simp [scan, result]
      · simp only [scan, result]
        exact ih nextOk
      · simp only [scan, result]
        refine ⟨by simp, ?_⟩
        intro final done
        have same : state = final := by simpa using done
        exact same ▸ placeable

end Dragonfly.Hammer
