import Dragonfly.Hammer.Blockmap.Search

/-!
# Effects of the blockmap functions

Each function touches one big-block: its layer-2 entry, its reservation and the
layer-1 entry above it.  The lemmas below say what a finished call left there
and when the call cannot panic; nothing later unfolds the functions.
-/

namespace Dragonfly.Hammer

open Dragonfly.Lib

/-- `hmp'` differs from `hmp` at most in big-block `block` and in counters. -/
structure Touches (hmp hmp' : Mount) (block : Nat) : Prop where
  phys : ∀ index, (hmp'.layer1 index).physOffset = (hmp.layer1 index).physOffset
  blocks : ∀ index, (hmp.layer1 index).physOffset = none →
    (hmp'.layer1 index).blocksFree = (hmp.layer1 index).blocksFree
  layer2 : ∀ other, other ≠ block → hmp'.layer2 other = hmp.layer2 other
  resv : ∀ other, other ≠ block → hmp'.resv other = hmp.resv other

namespace Touches

variable {hmp hmp' hmp'' : Mount} {block : Nat}

theorem refl (hmp : Mount) (block : Nat) : Touches hmp hmp block :=
  ⟨fun _ => rfl, fun _ _ => rfl, fun _ _ => rfl, fun _ _ => rfl⟩

theorem trans (first : Touches hmp hmp' block) (second : Touches hmp' hmp'' block) :
    Touches hmp hmp'' block where
  phys index := (second.phys index).trans (first.phys index)
  blocks index none := (second.blocks index ((first.phys index).trans none)).trans
    (first.blocks index none)
  layer2 other ne := (second.layer2 other ne).trans (first.layer2 other ne)
  resv other ne := (second.resv other ne).trans (first.resv other ne)

theorem setLayer2 (hmp : Mount) (block : Nat) (entry : Layer2) :
    Touches hmp (hmp.setLayer2 block entry) block :=
  ⟨fun _ => rfl, fun _ _ => rfl, fun _ ne => Function.update_of_ne ne _ _, fun _ _ => rfl⟩

theorem setResv (hmp : Mount) (block : Nat) (resv : Option Reserve) :
    Touches hmp (hmp.setResv block resv) block :=
  ⟨fun _ => rfl, fun _ _ => rfl, fun _ _ => rfl, fun _ ne => Function.update_of_ne ne _ _⟩

theorem adjustFree (hmp : Mount) (index : Nat) (delta : Int) (block : Nat)
    (avail : (hmp.layer1 index).physOffset.isSome) :
    Touches hmp (hmp.adjustFree index delta) block where
  phys other := by
    by_cases same : other = index
    · subst same; simp [Mount.adjustFree]
    · simp [Mount.adjustFree, same]
  blocks other none := by
    by_cases same : other = index
    · subst same
      rw [none] at avail
      contradiction
    · simp [Mount.adjustFree, same]
  layer2 _ _ := rfl
  resv _ _ := rfl

/-- Moving the append point of a zone touches no big-block. -/
theorem advance (hmp : Mount) (block : Nat) (useHint : Bool) (next : Nat → Nat) :
    Touches hmp (if useHint then hmp else { hmp with nextOffset := next }) block := by
  cases useHint
  · exact ⟨fun _ => rfl, fun _ _ => rfl, fun _ _ => rfl, fun _ _ => rfl⟩
  · exact refl hmp block

end Touches

@[simp]
theorem Mount.setLayer2_layer2 (hmp : Mount) (block : Nat) (entry : Layer2) :
    (hmp.setLayer2 block entry).layer2 block = entry :=
  Function.update_self ..

@[simp]
theorem Mount.setLayer2_resv (hmp : Mount) (block : Nat) (entry : Layer2) :
    (hmp.setLayer2 block entry).resv = hmp.resv := rfl

@[simp]
theorem Mount.setLayer2_nextOffset (hmp : Mount) (block : Nat) (entry : Layer2) :
    (hmp.setLayer2 block entry).nextOffset = hmp.nextOffset := rfl

@[simp]
theorem Mount.setResv_resv (hmp : Mount) (block : Nat) (resv : Option Reserve) :
    (hmp.setResv block resv).resv block = resv :=
  Function.update_self ..

@[simp]
theorem Mount.setResv_layer2 (hmp : Mount) (block : Nat) (resv : Option Reserve) :
    (hmp.setResv block resv).layer2 = hmp.layer2 := rfl

@[simp]
theorem Mount.setResv_nextOffset (hmp : Mount) (block : Nat) (resv : Option Reserve) :
    (hmp.setResv block resv).nextOffset = hmp.nextOffset := rfl

@[simp]
theorem Mount.adjustFree_layer2 (hmp : Mount) (index : Nat) (delta : Int) :
    (hmp.adjustFree index delta).layer2 = hmp.layer2 := rfl

@[simp]
theorem Mount.adjustFree_resv (hmp : Mount) (index : Nat) (delta : Int) :
    (hmp.adjustFree index delta).resv = hmp.resv := rfl

@[simp]
theorem Mount.adjustFree_nextOffset (hmp : Mount) (index : Nat) (delta : Int) :
    (hmp.adjustFree index delta).nextOffset = hmp.nextOffset := rfl

/-! ## Delay list -/

/-- `hammer_reserve_setdelay` leaves the reservation on the delay list, holding
exactly one reference for it. -/
theorem reserveSetdelay_spec (hmp : Mount) (block : Nat) (resv : Reserve) :
    Touches hmp (reserveSetdelay hmp block resv) block ∧
      (reserveSetdelay hmp block resv).layer2 = hmp.layer2 ∧
      (reserveSetdelay hmp block resv).nextOffset = hmp.nextOffset ∧
      ∃ delayed, (reserveSetdelay hmp block resv).resv block = some delayed ∧
        delayed.onDelay = true ∧ delayed.zone = resv.zone ∧
        delayed.appendOff = resv.appendOff ∧
        delayed.refs + resv.onDelay.toNat = resv.refs + 1 := by
  unfold reserveSetdelay
  split
  · rename_i delayed
    refine ⟨⟨fun _ => rfl, fun _ _ => rfl, fun _ _ => rfl, ?_⟩, rfl, rfl, _,
      Mount.setResv_resv _ _ _, delayed, rfl, rfl, by simp [delayed]⟩
    intro other ne
    exact Function.update_of_ne ne _ _
  · rename_i notDelayed
    refine ⟨⟨fun _ => rfl, fun _ _ => rfl, fun _ _ => rfl, ?_⟩, rfl, rfl, _,
      Mount.setResv_resv _ _ _, rfl, rfl, rfl, by simp [notDelayed]⟩
    intro other ne
    exact Function.update_of_ne ne _ _

/-- What `hammer_blockmap_reserve_complete` can leave of a reservation. -/
structure Completed (resv : Reserve) (result : Option Reserve) : Prop where
  gone : result = none → resv.refs = 1 ∧ resv.onDelay = false
  kept : ∀ kept, result = some kept → kept.zone = resv.zone ∧ 0 < kept.refs ∧
    (kept.appendOff = resv.appendOff ∨ kept.appendOff = largeblockSize) ∧
    kept.refs + resv.onDelay.toNat + 1 = resv.refs + kept.onDelay.toNat

/-- `hammer_blockmap_reserve_complete` on a reservation whose last reference is
not the one held by the delay list. -/
theorem blockmapReserveComplete_spec {hmp : Mount} {block : Nat} {resv : Reserve}
    (present : hmp.resv block = some resv) (held : resv.onDelay.toNat < resv.refs)
    (delError : Bool) :
    ∃ hmp', blockmapReserveComplete hmp block delError = .done hmp' ∧
      Touches hmp hmp' block ∧ hmp'.layer2 = hmp.layer2 ∧ hmp'.nextOffset = hmp.nextOffset ∧
      Completed resv (hmp'.resv block) := by
  have positive : 0 < resv.refs := by omega
  unfold blockmapReserveComplete
  rw [present]
  simp only [positive, decide_true, Outcome.kkassert, if_true]
  by_cases last : resv.refs = 1 ∧ resv.layer2Free = true
  · have offDelay : resv.onDelay = false := by
      cases delay : resv.onDelay with
      | false => rfl
      | true => simp [delay, last.1] at held
    rw [if_pos last]
    cases delError with
    | true =>
        simp only [if_true]
        obtain ⟨touch, layer2, next, delayed, entry, onDelay, zone, append, refs⟩ :=
          reserveSetdelay_spec hmp block { resv with appendOff := largeblockSize }
        simp only [offDelay, last.1, Bool.toNat_false, Nat.add_zero] at refs
        rw [entry]
        simp only [show ¬ delayed.refs = 1 by omega, if_false]
        refine ⟨_, rfl, touch.trans (.setResv _ _ _), layer2, next, ?_, ?_⟩
        · simp
        · intro kept same
          simp only [Mount.setResv_resv, Option.some.injEq] at same
          subst same
          simp only [zone, onDelay, append, offDelay, Bool.toNat_true, Bool.toNat_false, last.1]
          exact ⟨trivial, by omega, .inr trivial, by omega⟩
    | false =>
        simp only [Bool.false_eq_true, if_false, Mount.setResv_resv, last.1, if_true, offDelay,
          Bool.not_false]
        refine ⟨_, rfl, (Touches.setResv _ _ _).trans (.setResv _ _ _), rfl, rfl, ?_, ?_⟩
        · intro _
          exact ⟨last.1, offDelay⟩
        · simp
  · rw [if_neg last, present]
    dsimp only
    by_cases single : resv.refs = 1
    · have offDelay : resv.onDelay = false := by
        cases delay : resv.onDelay with
        | false => rfl
        | true => simp [delay, single] at held
      simp only [single, offDelay, Bool.not_false, if_true]
      refine ⟨_, rfl, .setResv _ _ _, rfl, rfl, ?_, ?_⟩
      · intro _
        exact ⟨single, offDelay⟩
      · simp
    · simp only [single, if_false]
      refine ⟨_, rfl, .setResv _ _ _, rfl, rfl, ?_, ?_⟩
      · simp
      · intro kept same
        simp only [Mount.setResv_resv, Option.some.injEq] at same
        subst same
        dsimp only
        exact ⟨rfl, by omega, .inl rfl, by omega⟩

/-- `hammer_reserve_clrdelay` on a delayed reservation. -/
theorem reserveClrdelay_spec {hmp : Mount} {block : Nat} {resv : Reserve}
    (present : hmp.resv block = some resv) (delayed : resv.onDelay = true)
    (positive : 0 < resv.refs) (delError : Bool) :
    ∃ hmp', reserveClrdelay hmp block delError = .done hmp' ∧
      Touches hmp hmp' block ∧ hmp'.layer2 = hmp.layer2 ∧ hmp'.nextOffset = hmp.nextOffset ∧
      Completed { resv with onDelay := false } (hmp'.resv block) := by
  unfold reserveClrdelay
  rw [present]
  simp only [delayed, Outcome.kkassert, if_true]
  let cleared := hmp.setResv block (some { resv with onDelay := false })
  have entry : ({ cleared with
      delayList := cleared.delayList.erase block
      rsvFromdelay := cleared.rsvFromdelay - 1 } : Mount).resv block =
      some { resv with onDelay := false } := Mount.setResv_resv _ _ _
  obtain ⟨hmp', done, touch, layer2, next, completed⟩ :=
    blockmapReserveComplete_spec entry (by simpa using positive) delError
  refine ⟨hmp', done, ?_, layer2, next, completed⟩
  have first : Touches hmp { cleared with
      delayList := cleared.delayList.erase block
      rsvFromdelay := cleared.rsvFromdelay - 1 } block :=
    ⟨fun _ => rfl, fun _ _ => rfl, fun _ _ => rfl, fun _ ne => Function.update_of_ne ne _ _⟩
  exact first.trans touch

/-! ## Allocation and reservation -/

/-- What layer 2 and the reservation of a big-block always satisfy as far as the
assertions of the allocation path go. -/
structure EntryOk (entry : Layer2) (resv : Option Reserve) : Prop where
  append2 : entry.appendOff ≤ largeblockSize
  free : entry.zone = 0 → entry.appendOff = 0 ∧ entry.bytesFree = (largeblockSize : Int)
  appendResv : ∀ held, resv = some held → held.appendOff ≤ largeblockSize
  refs : ∀ held, resv = some held → held.onDelay.toNat ≤ held.refs ∧ 0 < held.refs
  zone : ∀ held, resv = some held → entry.zone = 0 ∨ entry.zone = held.zone

/-- `takeBigblock` hands an unowned big-block to `zone` and leaves an owned one alone. -/
theorem takeBigblock_spec {hmp : Mount} {next zone : Nat}
    (avail : (hmp.layer1 (layer1Index next)).physOffset.isSome)
    (free : (hmp.layer2 (bigblock next)).zone = 0 →
      (hmp.layer2 (bigblock next)).appendOff = 0 ∧
        (hmp.layer2 (bigblock next)).bytesFree = (largeblockSize : Int))
    (owner : (hmp.layer2 (bigblock next)).zone = 0 ∨ (hmp.layer2 (bigblock next)).zone = zone) :
    ∃ hmp', takeBigblock hmp next zone = .done hmp' ∧ Touches hmp hmp' (bigblock next) ∧
      hmp'.layer2 (bigblock next) = { hmp.layer2 (bigblock next) with zone := zone } ∧
      hmp'.resv = hmp.resv ∧ hmp'.nextOffset = hmp.nextOffset := by
  unfold takeBigblock
  dsimp only
  by_cases unowned : (hmp.layer2 (bigblock next)).zone = 0
  · obtain ⟨append, bytes⟩ := free unowned
    rw [if_pos unowned]
    simp only [append, bytes, decide_true, Outcome.kkassert, if_true]
    refine ⟨_, rfl, (Touches.adjustFree hmp _ _ _ avail).trans (.setLayer2 _ _ _), ?_, rfl, rfl⟩
    simp
  · rw [if_neg unowned]
    have owned := owner.resolve_left unowned
    refine ⟨hmp, rfl, .refl _ _, ?_, rfl, rfl⟩
    rw [← owned]

/-- What a finished allocation leaves behind at its big-block. -/
structure AllocEffect (hmp hmp' : Mount) (zone bytes : Nat) (state : ScanState) : Prop where
  touch : Touches hmp hmp' (bigblock state.nextOffset)
  layer2 : hmp'.layer2 (bigblock state.nextOffset) =
    { zone := zone
      appendOff := blockOffset state.nextOffset + bytes
      bytesFree := int32 ((hmp.layer2 (bigblock state.nextOffset)).bytesFree - bytes) }
  noResv : hmp.resv (bigblock state.nextOffset) = none →
    hmp'.resv (bigblock state.nextOffset) = none
  resv : ∀ held, hmp.resv (bigblock state.nextOffset) = some held →
    ∃ kept, hmp'.resv (bigblock state.nextOffset) = some kept ∧ kept.zone = held.zone ∧
      0 < kept.refs ∧ kept.refs + held.onDelay.toNat = held.refs + kept.onDelay.toNat ∧
      (kept.appendOff = blockOffset state.nextOffset + bytes ∨ kept.appendOff = largeblockSize)
  next : hmp'.nextOffset = if state.useHint then hmp.nextOffset
    else Function.update hmp.nextOffset zone (state.nextOffset + bytes)

theorem allocCommit_spec {hmp : Mount} {zone bytes : Nat} {state : ScanState}
    (place : Placeable hmp zone bytes state.nextOffset)
    (entryOk : EntryOk (hmp.layer2 (bigblock state.nextOffset))
      (hmp.resv (bigblock state.nextOffset))) :
    ∃ hmp', allocCommit hmp zone bytes state = .done hmp' ∧
      AllocEffect hmp hmp' zone bytes state := by
  obtain ⟨taken, took, touch, layer2, resv, next⟩ :=
    takeBigblock_spec place.avail entryOk.free place.owner
  unfold allocCommit
  simp only [took, Outcome.bind, layer2, place.append2, decide_true, Outcome.kkassert, if_true,
    Mount.setLayer2_resv, resv]
  cases entry : hmp.resv (bigblock state.nextOffset) with
  | none =>
      refine ⟨_, rfl, ?_, ?_, ?_, ?_, ?_⟩
      · exact touch.trans ((Touches.setLayer2 _ _ _).trans (.advance _ _ _ _))
      · cases state.useHint <;> simp
      · intro _
        cases state.useHint <;> simp [resv, entry]
      · intro held present
        rw [entry] at present
        contradiction
      · cases state.useHint <;> simp [next]
  | some held =>
      obtain ⟨sameZone, append⟩ := place.resv held entry
      obtain ⟨delay, positive⟩ := entryOk.refs held entry
      simp only [append, decide_true, if_true]
      have reserved : ((taken.setLayer2 (bigblock state.nextOffset)
          { zone := zone
            appendOff := blockOffset state.nextOffset + bytes
            bytesFree := int32 ((hmp.layer2 (bigblock state.nextOffset)).bytesFree - bytes) }
          ).setResv (bigblock state.nextOffset) (some { held with
            refs := held.refs + 1
            appendOff := blockOffset state.nextOffset + bytes
            layer2Free := false })).resv (bigblock state.nextOffset) = some { held with
              refs := held.refs + 1
              appendOff := blockOffset state.nextOffset + bytes
              layer2Free := false } :=
        Mount.setResv_resv _ _ _
      obtain ⟨hmp', done, completeTouch, completeLayer2, completeNext, completed⟩ :=
        blockmapReserveComplete_spec reserved (by simp; omega) false
      have whole : Touches hmp hmp' (bigblock state.nextOffset) :=
        touch.trans ((Touches.setLayer2 _ _ _).trans ((Touches.setResv _ _ _).trans completeTouch))
      rw [done]
      refine ⟨_, rfl, ?_, ?_, ?_, ?_, ?_⟩
      · exact whole.trans (.advance _ _ _ _)
      · cases state.useHint <;> simp [completeLayer2]
      · intro absent
        rw [entry] at absent
        contradiction
      · intro other present
        have same : other = held := Option.some.inj (present.symm.trans entry)
        subst same
        have resvEq : (if state.useHint = true then hmp' else { hmp' with
            nextOffset := Function.update hmp'.nextOffset zone (state.nextOffset + bytes) }).resv =
            hmp'.resv := by cases state.useHint <;> rfl
        rw [resvEq]
        cases result : hmp'.resv (bigblock state.nextOffset) with
        | none =>
            have gone := (completed.gone result).1
            simp at gone
            omega
        | some kept =>
            obtain ⟨zoneEq, keptPositive, appendEq, refsEq⟩ := completed.kept kept result
            refine ⟨kept, rfl, zoneEq, keptPositive, ?_, appendEq⟩
            dsimp only at refsEq
            omega
      · cases state.useHint <;> simp [completeNext, next]

/-- What a finished reservation leaves behind at its big-block. -/
structure ReserveEffect (hmp hmp' : Mount) (zone bytes next : Nat) : Prop where
  touch : Touches hmp hmp' (bigblock next)
  layer2 : hmp'.layer2 = hmp.layer2
  resv : ∃ kept, hmp'.resv (bigblock next) = some kept ∧
    kept.appendOff = blockOffset next + bytes ∧
    (hmp.resv (bigblock next) = none → kept.zone = zone ∧ kept.refs = 1 ∧ kept.onDelay = false) ∧
    (∀ held, hmp.resv (bigblock next) = some held →
      kept.zone = held.zone ∧ kept.refs = held.refs + 1 ∧ kept.onDelay = held.onDelay)
  next : hmp'.nextOffset = Function.update hmp.nextOffset zone (next + bytes)

theorem reserveCommit_spec (hmp : Mount) (zone bytes next : Nat) :
    ReserveEffect hmp (reserveCommit hmp zone bytes next) zone bytes next := by
  unfold reserveCommit
  refine ⟨⟨fun _ => rfl, fun _ _ => rfl, fun _ _ => rfl, ?_⟩, rfl, ?_, rfl⟩
  · intro other ne
    exact Function.update_of_ne ne _ _
  · refine ⟨_, Mount.setResv_resv _ _ _, rfl, ?_, ?_⟩
    · intro absent
      simp [absent]
    · intro held present
      simp [present]

/-! ## Finalize, free and dedup -/

/-- `hammer_blockmap_finalize` of a reserved extent. -/
theorem blockmapFinalize_spec {hmp : Mount} {zoneOffset bytes : Nat}
    (positive : 0 < bytes) (small : roundBytes bytes ≤ xbufsize)
    (zoneOk : zoneBtreeIndex ≤ zoneDecode zoneOffset ∧ zoneDecode zoneOffset < maxZones)
    (avail : (hmp.layer1 (layer1Index zoneOffset)).physOffset.isSome)
    (free : (hmp.layer2 (bigblock zoneOffset)).zone = 0 →
      (hmp.layer2 (bigblock zoneOffset)).appendOff = 0 ∧
        (hmp.layer2 (bigblock zoneOffset)).bytesFree = (largeblockSize : Int))
    (owner : (hmp.layer2 (bigblock zoneOffset)).zone = 0 ∨
      (hmp.layer2 (bigblock zoneOffset)).zone = zoneDecode zoneOffset) :
    ∃ hmp', blockmapFinalize hmp true zoneOffset bytes = .done hmp' ∧
      Touches hmp hmp' (bigblock zoneOffset) ∧
      hmp'.layer2 (bigblock zoneOffset) =
        { zone := zoneDecode zoneOffset
          appendOff := max (hmp.layer2 (bigblock zoneOffset)).appendOff
            (blockOffset zoneOffset + roundBytes bytes)
          bytesFree := int32
            ((hmp.layer2 (bigblock zoneOffset)).bytesFree - (roundBytes bytes : Nat)) } ∧
      hmp'.resv (bigblock zoneOffset) =
        (hmp.resv (bigblock zoneOffset)).map ({ · with layer2Free := false }) ∧
      hmp'.nextOffset = hmp.nextOffset := by
  obtain ⟨taken, took, touch, layer2, resv, next⟩ := takeBigblock_spec avail free owner
  unfold blockmapFinalize
  rw [if_neg (by omega)]
  simp only [small, zoneOk, avail, and_self, decide_true, Outcome.kkassert, if_true, took,
    Outcome.bind, layer2]
  refine ⟨_, rfl, ?_, ?_, ?_, ?_⟩
  · exact touch.trans ((Touches.setResv _ _ _).trans (.setLayer2 _ _ _))
  · simp only [Mount.setLayer2_layer2, Layer2.mk.injEq, true_and]
    refine ⟨?_, trivial⟩
    split <;> omega
  · simp [resv]
  · simp [next]

/-- `hammer_blockmap_free` of bytes that do not empty the big-block. -/
structure FreeKeeps (hmp hmp' : Mount) (zoneOffset bytes : Nat) : Prop where
  notFull : int32 ((hmp.layer2 (bigblock zoneOffset)).bytesFree + (roundBytes bytes : Nat)) ≠
    (largeblockSize : Int)
  result : hmp' = hmp.setLayer2 (bigblock zoneOffset)
    { hmp.layer2 (bigblock zoneOffset) with
      bytesFree := int32
        ((hmp.layer2 (bigblock zoneOffset)).bytesFree + (roundBytes bytes : Nat)) }

/-- `hammer_blockmap_free` of the last bytes of a big-block: layer 2 is reset and
the covering reservation goes on the delay list. -/
structure FreeResets (hmp hmp' : Mount) (zoneOffset bytes : Nat) : Prop where
  full : int32 ((hmp.layer2 (bigblock zoneOffset)).bytesFree + (roundBytes bytes : Nat)) =
    (largeblockSize : Int)
  touch : Touches hmp hmp' (bigblock zoneOffset)
  layer2 : hmp'.layer2 (bigblock zoneOffset) =
    { zone := 0, appendOff := 0, bytesFree := (largeblockSize : Int) }
  noResv : hmp.resv (bigblock zoneOffset) = none →
    ∃ kept, hmp'.resv (bigblock zoneOffset) = some kept ∧ kept.zone = zoneDecode zoneOffset ∧
      kept.refs = 1 ∧ kept.onDelay = true ∧ kept.appendOff = largeblockSize
  resv : ∀ held, hmp.resv (bigblock zoneOffset) = some held →
    ∃ kept, hmp'.resv (bigblock zoneOffset) = some kept ∧ kept.zone = held.zone ∧
      kept.onDelay = true ∧ kept.refs + held.onDelay.toNat = held.refs + 1 ∧
      kept.appendOff = held.appendOff
  next : hmp'.nextOffset = hmp.nextOffset

/-- The result of the full branch of `hammer_blockmap_free`. -/
theorem freeResets_of_full {hmp : Mount} {zoneOffset bytes : Nat}
    (avail : (hmp.layer1 (layer1Index zoneOffset)).physOffset.isSome)
    (full : int32 ((hmp.layer2 (bigblock zoneOffset)).bytesFree + (roundBytes bytes : Nat)) =
      (largeblockSize : Int)) (entry : Layer2) (bytesEq : entry.bytesFree = (largeblockSize : Int)) :
    FreeResets hmp
      (((reserveSetdelayOffset hmp (bigblock zoneOffset) (zoneDecode zoneOffset) entry).adjustFree
        (layer1Index zoneOffset) 1).setLayer2 (bigblock zoneOffset)
        { entry with zone := 0, appendOff := 0 }) zoneOffset bytes := by
  -- whichever reservation is delayed, the layer-1 and layer-2 edits are the same
  have edits : ∀ resv : Reserve,
      let delayed := reserveSetdelay hmp (bigblock zoneOffset) resv
      let result := (delayed.adjustFree (layer1Index zoneOffset) 1).setLayer2 (bigblock zoneOffset)
        { entry with zone := 0, appendOff := 0 }
      Touches hmp result (bigblock zoneOffset) ∧ result.resv = delayed.resv ∧
        result.nextOffset = hmp.nextOffset := by
    intro resv
    obtain ⟨touch, _, next, _⟩ := reserveSetdelay_spec hmp (bigblock zoneOffset) resv
    have available : ((reserveSetdelay hmp (bigblock zoneOffset) resv).layer1
        (layer1Index zoneOffset)).physOffset.isSome := by
      rw [touch.phys]
      exact avail
    exact ⟨touch.trans ((Touches.adjustFree _ _ _ _ available).trans (.setLayer2 _ _ _)), rfl, next⟩
  unfold reserveSetdelayOffset
  cases present : hmp.resv (bigblock zoneOffset) with
  | none =>
      dsimp only
      obtain ⟨touch, resvEq, next⟩ := edits
        { zone := zoneDecode zoneOffset, refs := 0, appendOff := largeblockSize
          layer2Free := entry.bytesFree = (largeblockSize : Int) }
      obtain ⟨_, _, _, kept, keptEq, onDelay, zoneEq, append, refs⟩ :=
        reserveSetdelay_spec hmp (bigblock zoneOffset)
          { zone := zoneDecode zoneOffset, refs := 0, appendOff := largeblockSize
            layer2Free := entry.bytesFree = (largeblockSize : Int) }
      refine ⟨full, touch, by simp [bytesEq], ?_, ?_, next⟩
      · intro _
        refine ⟨kept, ?_, zoneEq, by simpa using refs, onDelay, append⟩
        rw [resvEq, keptEq]
      · simp [present]
  | some held =>
      dsimp only
      obtain ⟨touch, resvEq, next⟩ := edits { held with
        layer2Free := held.layer2Free || decide (entry.bytesFree = largeblockSize) }
      obtain ⟨_, _, _, kept, keptEq, onDelay, zoneEq, append, refs⟩ :=
        reserveSetdelay_spec hmp (bigblock zoneOffset) { held with
          layer2Free := held.layer2Free || decide (entry.bytesFree = largeblockSize) }
      refine ⟨full, touch, by simp [bytesEq], by simp [present], ?_, next⟩
      intro other same
      have otherEq : other = held := Option.some.inj (same.symm.trans present)
      subst otherEq
      refine ⟨kept, ?_, zoneEq, onDelay, refs, append⟩
      rw [resvEq, keptEq]

/-- Every finished `hammer_blockmap_free` did one of three things. -/
theorem blockmapFree_done {hmp hmp' : Mount} {zoneOffset bytes : Nat}
    (done : blockmapFree hmp zoneOffset bytes = .done hmp') :
    (bytes = 0 ∧ hmp' = hmp) ∨
      (hmp.layer2 (bigblock zoneOffset)).zone = zoneDecode zoneOffset ∧
        (FreeKeeps hmp hmp' zoneOffset bytes ∨ FreeResets hmp hmp' zoneOffset bytes) := by
  unfold blockmapFree at done
  by_cases empty : bytes = 0
  · rw [if_pos empty] at done
    exact .inl ⟨empty, (Outcome.done.inj done).symm⟩
  · rw [if_neg empty] at done
    simp only [Outcome.kkassert_eq_done_iff, decide_eq_true_eq] at done
    obtain ⟨_, _, _, avail, zoneEq, _, result⟩ := done
    refine .inr ⟨zoneEq, ?_⟩
    split at result
    · rename_i full
      refine .inr ?_
      have same := Outcome.done.inj result
      rw [← same]
      exact freeResets_of_full avail full _ full
    · rename_i notFull
      exact .inl ⟨notFull, (Outcome.done.inj result).symm⟩

/-- A successful `hammer_blockmap_reserve_dedup` adds one reference and leaves
the append offset of the reservation as it was, zero for a new one. -/
structure DedupEffect (hmp hmp' : Mount) (zone zoneOffset : Nat) : Prop where
  touch : Touches hmp hmp' (bigblock zoneOffset)
  layer2 : hmp'.layer2 = hmp.layer2
  owner : (hmp.layer2 (bigblock zoneOffset)).zone = 0 ∨
    (hmp.layer2 (bigblock zoneOffset)).zone = zone
  resv : ∃ kept, hmp'.resv (bigblock zoneOffset) = some kept ∧ kept.zone = zone ∧
    (hmp.resv (bigblock zoneOffset) = none →
      kept.refs = 1 ∧ kept.onDelay = false ∧ kept.appendOff = 0) ∧
    (∀ held, hmp.resv (bigblock zoneOffset) = some held → held.zone = kept.zone ∧
      kept.refs = held.refs + 1 ∧ kept.onDelay = held.onDelay ∧ kept.appendOff = held.appendOff)
  next : hmp'.nextOffset = hmp.nextOffset

theorem updateBytesFree_some {resv updated : Reserve} {bytes : Nat}
    (success : updateBytesFree resv bytes = some updated) :
    updated = { resv with bytesFree := int32 (resv.bytesFree - bytes) } := by
  unfold updateBytesFree at success
  dsimp only at success
  split at success
  · contradiction
  · exact (Option.some.inj success).symm

theorem blockmapReserveDedup_done {hmp hmp' : Mount} {zone bytes zoneOffset : Nat} {success : Bool}
    (done : blockmapReserveDedup hmp zone bytes zoneOffset = .done (success, hmp')) :
    (success = false ∧ hmp' = hmp) ∨
      (success = true ∧ DedupEffect hmp hmp' zone zoneOffset) := by
  unfold blockmapReserveDedup at done
  simp only [Outcome.kkassert_eq_done_iff, decide_eq_true_eq] at done
  obtain ⟨_, _, _, result⟩ := done
  split at result
  · simp only [Outcome.done.injEq, Prod.mk.injEq] at result
    exact .inl ⟨result.1.symm, result.2.symm⟩
  rename_i ownedOr
  have owner : (hmp.layer2 (bigblock zoneOffset)).zone = 0 ∨
      (hmp.layer2 (bigblock zoneOffset)).zone = zone := by
    by_contra other
    exact ownedOr (not_or.mp other)
  cases present : hmp.resv (bigblock zoneOffset) with
  | some held =>
      simp only [present] at result
      split at result
      · simp only [Outcome.done.injEq, Prod.mk.injEq] at result
        exact .inl ⟨result.1.symm, result.2.symm⟩
      rename_i sameZone
      cases update : updateBytesFree held (roundBytes bytes) with
      | none =>
          simp only [update, Outcome.done.injEq, Prod.mk.injEq] at result
          exact .inl ⟨result.1.symm, result.2.symm⟩
      | some updated =>
          simp only [update, Outcome.done.injEq, Prod.mk.injEq] at result
          obtain ⟨rfl, rfl⟩ := result
          have updatedEq := updateBytesFree_some update
          refine .inr ⟨rfl, .setResv _ _ _, rfl, owner, ?_, rfl⟩
          refine ⟨_, Mount.setResv_resv _ _ _, ?_, by simp [present], ?_⟩
          · rw [updatedEq]
            simpa using sameZone
          · intro other same
            have otherEq : other = held := Option.some.inj (same.symm.trans present)
            subst otherEq
            simp [updatedEq]
  | none =>
      simp only [present] at result
      cases update : updateBytesFree
          { refs := 1, zone := zone, appendOff := 0
            bytesFree := (hmp.layer2 (bigblock zoneOffset)).bytesFree }
          (roundBytes bytes) with
      | none =>
          simp only [update, Outcome.done.injEq, Prod.mk.injEq] at result
          exact .inl ⟨result.1.symm, result.2.symm⟩
      | some updated =>
          simp only [update, Outcome.done.injEq, Prod.mk.injEq] at result
          obtain ⟨rfl, rfl⟩ := result
          have updatedEq := updateBytesFree_some update
          refine .inr ⟨rfl, .setResv _ _ _, rfl, owner, ?_, rfl⟩
          refine ⟨_, Mount.setResv_resv _ _ _, ?_, ?_, by simp [present]⟩
          · rw [updatedEq]
          · intro _
            simp [updatedEq]

/-- `hammer_blockmap_dedup` only moves `bytes_free` of an owned big-block. -/
theorem blockmapDedup_done {hmp hmp' : Mount} {bytes zoneOffset : Nat} {success : Bool}
    (positive : 0 < bytes) (done : blockmapDedup hmp zoneOffset bytes = .done (success, hmp')) :
    (success = false ∧ hmp' = hmp) ∨
      (success = true ∧ (hmp.layer2 (bigblock zoneOffset)).zone = zoneDecode zoneOffset ∧
        zoneBtreeIndex ≤ zoneDecode zoneOffset ∧
        hmp' = hmp.setLayer2 (bigblock zoneOffset)
          { hmp.layer2 (bigblock zoneOffset) with
            bytesFree := int32
              ((hmp.layer2 (bigblock zoneOffset)).bytesFree - (roundBytes bytes : Nat)) }) := by
  unfold blockmapDedup at done
  rw [if_neg (by omega)] at done
  simp only [Outcome.kkassert_eq_done_iff, decide_eq_true_eq] at done
  obtain ⟨_, _, zoneOk, _, zoneEq, result⟩ := done
  split at result
  · simp only [Outcome.done.injEq, Prod.mk.injEq] at result
    exact .inl ⟨result.1.symm, result.2.symm⟩
  · simp only [Outcome.kkassert_eq_done_iff, decide_eq_true_eq, Outcome.done.injEq,
      Prod.mk.injEq] at result
    exact .inr ⟨result.2.1.symm, zoneEq, zoneOk.1, result.2.2.symm⟩

end Dragonfly.Hammer
