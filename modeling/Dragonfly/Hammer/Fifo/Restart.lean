import Dragonfly.Hammer.Fifo.Rotate

/-!
# A crash while the UNDO records are run

Stage 1 writes to buffers that reach the media one by one, and the volume header comes last.  After
a crash in the middle of it the media holds any mixture of old and restored bytes, and recovery
starts again with the same FIFO.  It ends with the same image.
-/

namespace Dragonfly.Hammer.Fifo

open Dragonfly.Lib

/-- The record restores the byte at the address. -/
def Record.Restores (record : Record) (address : Nat) : Prop :=
  ∃ offset dataBytes data target, record.body = .undo offset dataBytes data ∧ undoTarget offset = .ok target ∧
    target ≤ address ∧ address < target + (data.take dataBytes.toNat).length

/-- The images differ only where one of the records restores the byte. -/
def Torn (records : List Record) (image other : Mem) : Prop :=
  ∀ address, other address ≠ image address → ∃ record ∈ records, record.Restores address

section Stage1

variable {area : Area} {record : Record} {records : List Record} {image other next : Mem} {state after : Recovery}

theorem Torn.nil (torn : Torn [] image other) : other = image := by
  funext address
  by_contra differs
  obtain ⟨record, member, -⟩ := torn address differs
  cases member

/-- What a record restores does not depend on the image it is applied to. -/
theorem recoverUndo_write (done : recoverUndo image record = .ok next) :
    ∃ target bytes, (∀ other, recoverUndo other record = .ok (other.blit target bytes)) ∧
      ∀ address, record.Restores address ↔ target ≤ address ∧ address < target + bytes.length := by
  cases body : record.body with
  | undo offset dataBytes data =>
      simp only [recoverUndo, body] at done ⊢
      split at done
      · cases done
      · next small =>
          split at done
          · cases done
          · next fits =>
              cases decoded : undoTarget offset with
              | error errno => simp [decoded, Except.map] at done
              | ok target =>
                  refine ⟨target, data.take dataBytes.toNat, fun other => ?_,
                    fun address => ⟨?_, fun inside => ?_⟩⟩
                  · rw [if_neg small, if_neg fits]
                    rfl
                  · rintro ⟨_, _, _, _, body', decoded', inside⟩
                    obtain ⟨rfl, rfl, rfl⟩ := Body.undo.inj (body.symm.trans body')
                    obtain rfl := Except.ok.inj (decoded.symm.trans decoded')
                    exact inside
                  · exact ⟨offset, dataBytes, data, target, body, decoded, inside⟩
  | _ =>
      refine ⟨0, [], fun other => ?_, fun address => ⟨?_, fun inside => ?_⟩⟩
      · have empty : other.blit 0 [] = other := funext fun address => if_neg (by simp)
        rw [recoverUndo, body, empty]
      · rintro ⟨_, _, _, _, body', -⟩
        cases body.symm.trans body'
      · exact absurd inside.2 (by simp)

/-- The image is not read outside of `hammer_recover_undo`. -/
theorem applyUndo_image {restored restored' : Mem} {state' : Recovery} (done : applyUndo state record = .ok state')
    (here : recoverUndo state.image record = .ok restored) (there : recoverUndo other record = .ok restored') :
    applyUndo { state with image := other } record = .ok { state' with image := restored' } ∧
      state'.image = restored ∧
      state'.applied = if record.body matches .undo .. then state.applied ++ [record] else state.applied := by
  rw [applyUndo, here] at done
  obtain rfl := Except.ok.inj done
  rw [applyUndo, there]
  simp only [Except.map, noteSync]
  split
  · split <;> exact ⟨rfl, rfl, rfl⟩
  · exact ⟨rfl, rfl, rfl⟩

/-- One record: the images differ less afterwards. -/
theorem applyUndo_torn {state' : Recovery} (done : applyUndo state record = .ok state') :
    ∃ ran, state'.applied = state.applied ++ ran ∧ Torn ran state.image state'.image ∧
      ∀ rest other, Torn (ran ++ rest) state.image other →
        ∃ restored, applyUndo { state with image := other } record = .ok { state' with image := restored } ∧
          Torn rest state'.image restored := by
  obtain ⟨next, here⟩ : ∃ next, recoverUndo state.image record = .ok next := by
    cases here : recoverUndo state.image record with
    | error errno => simp [applyUndo, here, Except.map] at done
    | ok next => exact ⟨next, rfl⟩
  obtain ⟨target, bytes, always, restores⟩ := recoverUndo_write here
  have both : ∀ other, _ := fun other => applyUndo_image done (always state.image) (always other)
  obtain ⟨-, image, applied⟩ := both state.image
  refine ⟨if record.body matches .undo .. then [record] else [], ?_, ?_, ?_⟩
  · rw [applied]
    split
    · rfl
    · exact (List.append_nil _).symm
  · intro address differs
    rw [image] at differs
    have covers : record.Restores address := by
      rw [restores]
      by_contra outside
      exact differs (Mem.blit_outside (by omega))
    rcases covers with ⟨offset, dataBytes, data, aim, body, inside⟩
    exact ⟨record, by simp [body], offset, dataBytes, data, aim, body, inside⟩
  · intro rest other torn
    refine ⟨_, (both other).1, fun address differs => ?_⟩
    rw [image] at differs
    by_cases inside : target ≤ address ∧ address < target + bytes.length
    · exact absurd (by simp only [Mem.blit, if_pos inside]) differs
    · rw [Mem.blit_outside (by omega), Mem.blit_outside (by omega)] at differs
      obtain ⟨found, member, covers⟩ := torn address differs
      rcases List.mem_append.mp member with first | last
      · split at first
        · rw [List.mem_singleton.mp first, restores] at covers
          exact absurd covers inside
        · cases first
      · exact ⟨found, last, covers⟩

/-- The loop over the records, by induction on its passes. -/
theorem undoLoop_torn {firstOffset fuel scanOffset : Nat} {bytes : Int}
    (done : undoLoop area firstOffset fuel scanOffset bytes state = .done (none, after)) :
    ∃ ran, after.applied = state.applied ++ ran ∧ Torn ran state.image after.image ∧
      ∀ other, Torn ran state.image other →
        undoLoop area firstOffset fuel scanOffset bytes { state with image := other } = .done (none, after) := by
  induction fuel generalizing scanOffset bytes state with
  | zero => cases done
  | succ fuel ih =>
      rw [undoLoop] at done
      by_cases more : 0 < bytes
      · rw [if_pos more, Outcome.kkassert_eq_done_iff] at done
        obtain ⟨apart, done⟩ := done
        cases scanned : area.scanRev scanOffset with
        | error errno => simp [scanned] at done
        | ok found =>
            obtain ⟨record, before⟩ := found
            simp only [scanned] at done
            cases first : applyUndo state record with
            | error errno => simp [first] at done
            | ok state' =>
                simp only [first] at done
                obtain ⟨ran, applied, torn, restore⟩ := applyUndo_torn first
                obtain ⟨rest, applied', torn', again⟩ := ih done
                refine ⟨ran ++ rest, by rw [applied', applied, List.append_assoc], ?_, ?_⟩
                · intro address differs
                  by_cases late : after.image address = state'.image address
                  · obtain ⟨record, member, covers⟩ := torn address (late ▸ differs)
                    exact ⟨record, List.mem_append_left _ member, covers⟩
                  · obtain ⟨record, member, covers⟩ := torn' address late
                    exact ⟨record, List.mem_append_right _ member, covers⟩
                · intro other differs
                  obtain ⟨restored, there, less⟩ := restore rest other differs
                  rw [undoLoop, if_pos more, Outcome.kkassert_eq_done_iff]
                  refine ⟨apart, ?_⟩
                  simp only [scanned, there]
                  exact again restored less
      · rw [if_neg more, Outcome.kkassert_eq_done_iff] at done
        obtain ⟨last, done⟩ := done
        obtain rfl := (Prod.mk.inj (Outcome.done.inj done)).2
        refine ⟨[], (List.append_nil _).symm, fun address differs => absurd rfl differs, fun other torn => ?_⟩
        rw [undoLoop, if_neg more, Outcome.kkassert_eq_done_iff, torn.nil]
        exact ⟨last, rfl⟩

/-- Stage 1 changes only what it restores, and if it starts again, with the same FIFO and any mixture
of the old bytes and other ones where it restores them, it comes to the same end. -/
theorem recoverStage1_restarts {fuel : Nat} (fresh : state.applied = [])
    (done : recoverStage1 area fuel state = .done (none, after)) :
    Torn after.applied state.image after.image ∧
      ∀ other, Torn after.applied state.image other →
        recoverStage1 area fuel { state with image := other } = .done (none, after) := by
  unfold recoverStage1 at done ⊢
  dsimp only at done ⊢
  by_cases outside : area.allocOffset < state.firstOffset ∨ area.allocOffset < state.nextOffset
  · simp [if_pos outside] at done
  · simp only [if_neg outside] at done ⊢
    obtain ⟨behind, back, done⟩ := Outcome.bind_eq_done_iff.mp done
    simp only [back, Outcome.bind]
    cases behind with
    | error errno => simp at done
    | ok seqno =>
        obtain ⟨ahead, forward, done⟩ := Outcome.bind_eq_done_iff.mp done
        simp only [forward]
        cases ahead with
        | error errno => simp at done
        | ok found =>
            obtain ⟨last, next⟩ := found
            dsimp only at done ⊢
            by_cases idle : area.span state.firstOffset last = 0
            · -- no record is in the active range, and nothing is restored
              simp only [if_pos idle, Outcome.done.injEq, Prod.mk.injEq, true_and] at done ⊢
              subst done
              refine ⟨fun address differs => absurd rfl differs, fun other torn => ?_⟩
              have same : other = state.image := (fresh ▸ torn : Torn [] _ _).nil
              rw [same]
            · simp only [if_neg idle] at done ⊢
              by_cases long : area.limit < area.span state.firstOffset last
              · simp [if_pos long] at done
              · simp only [if_neg long] at done ⊢
                obtain ⟨⟨error, ended⟩, ran, done⟩ := Outcome.bind_eq_done_iff.mp done
                cases error with
                | some errno => simp at done
                | none =>
                    simp only [Outcome.done.injEq, Prod.mk.injEq, true_and] at done
                    obtain ⟨records, applied, torn, again⟩ := undoLoop_torn ran
                    dsimp only at applied torn again
                    rw [fresh, List.nil_append] at applied
                    subst done applied
                    refine ⟨torn, fun other differs => ?_⟩
                    rw [again other differs]

end Stage1

/-- One UNDO record is run; a crash that leaves any bytes where it restores them does no harm. -/
theorem recoverStage1_restarts_flushed : ∃ ext after,
    recoverStage1 (flushedRing 0 0 ext) 32770 (flushedState 0) = .done (none, after) ∧
      after.applied = [savedRecord] ∧
      ∀ other, Torn [savedRecord] (flushedState 0).image other →
        recoverStage1 (flushedRing 0 0 ext) 32770 { flushedState 0 with image := other } = .done (none, after) := by
  have ring := (Layout.ring (.inl ⟨rfl, rfl⟩ : Layout 0 0) (show 16381 + 1 = 16382 from rfl))
  obtain ⟨after, ran, applied, -⟩ := @Ring.stage1 _ _ _ _ _ 32770 _ _ _ ring (flushed_nominal rfl) (by
    simp only [List.length_append, List.length_cons, List.length_nil, length_dummies]
    omega)
  have saved : savedRecord.refused = none := by
    unfold Record.refused recoverUndo savedRecord
    dsimp only
    rw [if_neg (by decide), if_neg (by decide)]
    rfl
  rw [flushed_accepted] at ran
  replace applied : after.applied = [savedRecord] := by
    have sync : ∀ ext, (syncRecord ext).refused = none := fun _ => rfl
    rw [applied]
    simp only [List.reverse_cons, List.reverse_nil, List.nil_append, List.cons_append, undoReport, sync, saved]
    rfl
  exact ⟨_, after, ran, applied, applied ▸ (recoverStage1_restarts rfl ran).2⟩

end Dragonfly.Hammer.Fifo
