import Dragonfly.Jscan.Scan

/-!
# Every read ends

Whatever the files hold, each pass of the forwards loop that goes on has read a header, and each
pass of the backwards loop that goes on has moved the position back.  Realignment never undoes
that, so a file is left after finitely many passes, and there are finitely many files.  Only a
reader that was told to wait for more does not come back.
-/

namespace Dragonfly.Jscan

variable {jf after : Jfile}

/-! ## What a pass does to the reader -/

/-- The two readers differ in their positions only. -/
structure Moved (jf after : Jfile) : Prop where
  source : after.source = jf.source
  fd : after.fd = jf.fd
  seqBeg : after.seqBeg = jf.seqBeg
  seqEnd : after.seqEnd = jf.seqEnd
  seq : after.seq = jf.seq

theorem Moved.refl (jf : Jfile) : Moved jf jf := ⟨rfl, rfl, rfl, rfl, rfl⟩

theorem Moved.trans {final : Jfile} (first : Moved jf after) (second : Moved after final) :
    Moved jf final :=
  ⟨second.source.trans first.source, second.fd.trans first.fd, second.seqBeg.trans first.seqBeg,
    second.seqEnd.trans first.seqEnd, second.seq.trans first.seq⟩

theorem jreadbuf_moved (jf : Jfile) (direction : Direction) (bytes : Nat) :
    Moved jf (jreadbuf jf direction bytes).2 := by
  unfold jreadbuf
  split
  · exact Moved.refl jf
  · split
    · exact ⟨rfl, rfl, rfl, rfl, rfl⟩
    · split
      · exact ⟨rfl, rfl, rfl, rfl, rfl⟩
      · exact Moved.refl jf

/-- Reading forwards moves the position by the bytes that were read. -/
theorem jreadbuf_forwards_pos (jf : Jfile) (bytes : Nat) :
    (jreadbuf jf .forwards bytes).2.pos = jf.pos + (jreadbuf jf .forwards bytes).1.length := by
  unfold jreadbuf
  cases jf.fd with
  | none => simp
  | some contents => simp

/-- Bytes that are read forwards are in the file. -/
theorem jreadbuf_forwards_le (jf : Jfile) (bytes : Nat) :
    (jreadbuf jf .forwards bytes).1.length ≤ (jf.fd.getD []).length - jf.pos.toNat := by
  unfold jreadbuf
  cases jf.fd with
  | none => simp
  | some contents =>
      simp only [if_true, Option.getD_some, List.length_take, List.length_drop]
      exact Nat.min_le_right _ _

theorem jreadbuf_backwards_le (jf : Jfile) (bytes : Nat) :
    (jreadbuf jf .backwards bytes).2.pos ≤ jf.pos ∧
      (0 ≤ jf.pos → 0 ≤ (jreadbuf jf .backwards bytes).2.pos) ∧
      ((jreadbuf jf .backwards bytes).1 ≠ [] →
        (bytes : Int) ≤ jf.pos ∧ (jreadbuf jf .backwards bytes).2.pos = jf.pos - bytes) := by
  unfold jreadbuf
  cases jf.fd with
  | none => simp
  | some contents =>
      simp only [reduceCtorEq, if_false]
      by_cases room : (bytes : Int) ≤ jf.pos
      · rw [if_pos room]
        dsimp only
        exact ⟨by omega, fun _ => by omega, fun _ => ⟨room, rfl⟩⟩
      · rw [if_neg room]
        exact ⟨Int.le_refl _, id, fun some => absurd rfl some⟩

theorem jalign_moved (jf : Jfile) (direction : Direction) : Moved jf (jalign jf direction) := by
  unfold jalign
  split
  · split
    · exact jreadbuf_moved jf direction _
    · exact ⟨rfl, rfl, rfl, rfl, rfl⟩
  · exact Moved.refl jf

theorem jalign_forwards_le (jf : Jfile) : jf.pos ≤ (jalign jf .forwards).pos := by
  unfold jalign
  split
  · rw [if_pos rfl, jreadbuf_forwards_pos]
    omega
  · exact Int.le_refl _

theorem jalign_backwards_le (jf : Jfile) (behind : 0 ≤ jf.pos) :
    (jalign jf .backwards).pos ≤ jf.pos ∧ 0 ≤ (jalign jf .backwards).pos := by
  unfold jalign
  rw [if_neg (by decide : ¬Direction.backwards = .forwards)]
  split
  · dsimp only
    omega
  · exact ⟨Int.le_refl _, behind⟩

/-- What is left of the open file in front of the reader, in bytes. -/
def left (jf : Jfile) : Nat := (((jf.fd.getD []).length : Int) - jf.pos).toNat

/-- A forwards pass that goes on has read a header, and then moved on or stood still. -/
theorem forwardPass_read (again : forwardPass jf = .again after) :
    (jreadbuf jf .forwards sizeofRawrecbeg).1.length = sizeofRawrecbeg ∧
      Moved (jreadbuf jf .forwards sizeofRawrecbeg).2 after ∧
      (jreadbuf jf .forwards sizeofRawrecbeg).2.pos ≤ after.pos := by
  have onward : ∀ (jf : Jfile) (bytes : Nat), jf.pos ≤ (jreadbuf jf .forwards bytes).2.pos := by
    intro jf bytes
    rw [jreadbuf_forwards_pos]
    omega
  unfold forwardPass at again
  generalize jreadbuf jf .forwards sizeofRawrecbeg = header at again ⊢
  obtain ⟨head, here⟩ := header
  dsimp only at again ⊢
  split at again
  · cases again
  · refine ⟨Decidable.not_not.mp ‹_›, ?_⟩
    split at again
    · cases again
      exact ⟨jalign_moved here .forwards, jalign_forwards_le here⟩
    · split at again
      · cases again
        exact ⟨jalign_moved here .forwards, jalign_forwards_le here⟩
      · generalize bytes : (alignSize (recsize head)).toNat - sizeofRawrecbeg = count at again
        have moved := jreadbuf_moved here .forwards count
        have further := onward here count
        split at again
        · cases again
          exact ⟨moved.trans (jalign_moved _ .forwards), Int.le_trans further (jalign_forwards_le _)⟩
        · split at again
          · cases again
            exact ⟨moved.trans (jalign_moved _ .forwards), Int.le_trans further (jalign_forwards_le _)⟩
          · split at again
            · cases again
              exact ⟨moved, further⟩
            · cases again

/-- A forwards pass that goes on has come closer to the end of the file. -/
theorem forwardPass_again (again : forwardPass jf = .again after) :
    Moved jf after ∧ left after < left jf := by
  obtain ⟨length, moved, further⟩ := forwardPass_read again
  have whole := (jreadbuf_moved jf .forwards sizeofRawrecbeg).trans moved
  have room := jreadbuf_forwards_le jf sizeofRawrecbeg
  have place := jreadbuf_forwards_pos jf sizeofRawrecbeg
  rw [length] at room place
  refine ⟨whole, ?_⟩
  unfold left
  rw [whole.fd]
  have sixteen : sizeofRawrecbeg = 16 := rfl
  omega

/-- A backwards pass that goes on has read a trailer, and then moved back or stood still. -/
theorem backwardPass_read {stale : Nat} (again : backwardPass stale jf = .again after) :
    (jreadbuf jf .backwards sizeofRawrecend).1.length = sizeofRawrecend ∧
      Moved (jreadbuf jf .backwards sizeofRawrecend).2 after ∧
      (0 ≤ (jreadbuf jf .backwards sizeofRawrecend).2.pos →
        0 ≤ after.pos ∧ after.pos ≤ (jreadbuf jf .backwards sizeofRawrecend).2.pos) := by
  have aligned : ∀ jf : Jfile, 0 ≤ jf.pos → 0 ≤ (jalign jf .backwards).pos ∧ (jalign jf .backwards).pos ≤ jf.pos :=
    fun jf behind => (jalign_backwards_le jf behind).symm
  unfold backwardPass at again
  generalize jreadbuf jf .backwards sizeofRawrecend = trailer at again ⊢
  obtain ⟨tail, here⟩ := trailer
  dsimp only at again ⊢
  split at again
  · cases again
  · refine ⟨Decidable.not_not.mp ‹_›, ?_⟩
    split at again
    · cases again
      exact ⟨jalign_moved here .backwards, aligned here⟩
    · split at again
      · cases again
        exact ⟨jalign_moved here .backwards, aligned here⟩
      · generalize bytes : (alignSize (recsize tail)).toNat - sizeofRawrecend = count at again
        have moved := jreadbuf_moved here .backwards count
        have back := jreadbuf_backwards_le here count
        have realigned : 0 ≤ here.pos → 0 ≤ (jalign (jreadbuf here .backwards count).2 .backwards).pos ∧
            (jalign (jreadbuf here .backwards count).2 .backwards).pos ≤ here.pos := by
          intro behind
          have both := aligned _ (back.2.1 behind)
          exact ⟨both.1, Int.le_trans both.2 back.1⟩
        split at again
        · cases again
          exact ⟨moved.trans (jalign_moved _ .backwards), realigned⟩
        · split at again
          · cases again
            exact ⟨moved.trans (jalign_moved _ .backwards), realigned⟩
          · split at again
            · cases again
              exact ⟨moved, fun behind => ⟨back.2.1 behind, back.1⟩⟩
            · cases again

/-- A backwards pass that goes on has come closer to the start of the file. -/
theorem backwardPass_again {stale : Nat} (again : backwardPass stale jf = .again after) :
    Moved jf after ∧ after.pos.toNat < jf.pos.toNat := by
  obtain ⟨length, moved, back⟩ := backwardPass_read again
  have whole := (jreadbuf_moved jf .backwards sizeofRawrecend).trans moved
  have some : (jreadbuf jf .backwards sizeofRawrecend).1 ≠ [] := by
    intro none
    rw [none] at length
    exact absurd length (by decide)
  obtain ⟨room, place⟩ := (jreadbuf_backwards_le jf sizeofRawrecend).2.2 some
  rw [place] at back
  unfold sizeofRawrecend at room back
  refine ⟨whole, ?_⟩
  have bounds := back (by omega)
  omega

/-- A forwards pass that ends the loop has at most moved the position. -/
theorem forwardPass_ended {error : Nat} (ended : forwardPass jf = .ended error after) : Moved jf after := by
  have moved := jreadbuf_moved jf .forwards sizeofRawrecbeg
  unfold forwardPass at ended
  generalize jreadbuf jf .forwards sizeofRawrecbeg = header at ended moved
  obtain ⟨head, here⟩ := header
  dsimp only at ended moved
  split at ended
  · cases ended
    exact moved
  · repeat' split at ended
    all_goals cases ended

/-- A backwards pass that ends the loop has at most moved the position. -/
theorem backwardPass_ended {stale error : Nat} (ended : backwardPass stale jf = .ended error after) :
    Moved jf after := by
  have moved := jreadbuf_moved jf .backwards sizeofRawrecend
  unfold backwardPass at ended
  generalize jreadbuf jf .backwards sizeofRawrecend = trailer at ended moved
  obtain ⟨tail, here⟩ := trailer
  dsimp only at ended moved
  split at ended
  · cases ended
    exact moved
  · repeat' split at ended
    all_goals cases ended

/-! ## What a read does -/

/-- The read comes back with a record or without one. -/
def ComesBack (reply : Reply) : Prop := (∃ jd after, reply = .record jd after) ∨ ∃ after, reply = .null after

theorem top_frame (jf : Jfile) (direction : Direction) :
    (top jf direction).seq = jf.seq ∧ (top jf direction).seqBeg = jf.seqBeg ∧
      (top jf direction).seqEnd = jf.seqEnd := by
  have aligned : ∀ other : Jfile,
      (if other.pos % 16 ≠ 0 then jalign other direction else other).seq = other.seq ∧
      (if other.pos % 16 ≠ 0 then jalign other direction else other).seqBeg = other.seqBeg ∧
      (if other.pos % 16 ≠ 0 then jalign other direction else other).seqEnd = other.seqEnd := by
    intro other
    have moved := jalign_moved other direction
    split
    · exact ⟨moved.seq, moved.seqBeg, moved.seqEnd⟩
    · exact ⟨rfl, rfl, rfl⟩
  unfold top
  cases jf.fd with
  | some contents => exact aligned jf
  | none =>
      cases jf.source.file jf.seq with
      | some contents => exact aligned _
      | none => exact aligned _

/-- Where the end of a file leads, for a reader that does not wait. -/
theorem roll_cases (modes : Modes) (quiet : modes.loopForever = false) (direction : Direction) (error : Nat)
    (jf : Jfile) :
    roll modes direction error jf = .null jf ∨
      (direction = .forwards ∧ jf.seq < jf.seqEnd ∧
        roll modes direction error jf = .goto { jf with seq := jf.seq + 1, fd := none }) ∨
      (direction ≠ .forwards ∧ jf.seqBeg < jf.seq ∧
        roll modes direction error jf = .goto { jf with seq := jf.seq - 1, fd := none }) := by
  unfold roll
  rw [quiet]
  by_cases set : error = 0 ∧ jf.source.isPrefix = true
  · rw [if_pos set]
    by_cases forwards : direction = .forwards
    · rw [if_pos forwards]
      by_cases more : jf.seq < jf.seqEnd
      · rw [if_pos more]
        exact Or.inr (Or.inl ⟨forwards, more, rfl⟩)
      · rw [if_neg more]
        exact Or.inl rfl
    · rw [if_neg forwards]
      by_cases more : jf.seqBeg < jf.seq
      · rw [if_pos more]
        exact Or.inr (Or.inr ⟨forwards, more, rfl⟩)
      · rw [if_neg more]
        exact Or.inl rfl
  · rw [if_neg set, if_neg (fun all => nomatch all.2.1)]
    exact Or.inl rfl

/-- The forwards loop ends, by induction on the files that are left and, inside a file, on the
bytes that are left. -/
theorem scan_forwards_ends (modes : Modes) (quiet : modes.loopForever = false) (stale : Nat)
    (files bytes : Nat) (jf : Jfile) (few : jf.seqEnd - jf.seq = files) (short : left jf = bytes) :
    ∃ bound, ∀ fuel, bound ≤ fuel → ComesBack (scan modes stale .forwards fuel jf) := by
  induction files using Nat.strong_induction_on generalizing bytes jf with
  | _ files outer =>
      induction bytes using Nat.strong_induction_on generalizing jf with
      | _ bytes inner =>
          cases step : forwardPass jf with
          | found jd final =>
              refine ⟨1, ?_⟩
              rintro (_ | fuel) bound
              · omega
              · unfold scan
                simp only [if_true, step]
                exact Or.inl ⟨jd, final, rfl⟩
          | again final =>
              obtain ⟨moved, closer⟩ := forwardPass_again step
              obtain ⟨bound, ends⟩ := inner (left final) (by omega) final
                (by rw [moved.seqEnd, moved.seq, few]) rfl
              refine ⟨bound + 1, ?_⟩
              rintro (_ | fuel) enough
              · omega
              · unfold scan
                simp only [if_true, step]
                exact ends fuel (by omega)
          | ended error final =>
              have moved := forwardPass_ended step
              rcases roll_cases modes quiet .forwards error final with null | ⟨_, more, goes⟩ | ⟨no, _⟩
              · refine ⟨1, ?_⟩
                rintro (_ | fuel) bound
                · omega
                · unfold scan
                  simp only [if_true, step, null]
                  exact Or.inr ⟨final, rfl⟩
              · obtain ⟨seq, _, seqEnd⟩ := top_frame { final with seq := final.seq + 1, fd := none } .forwards
                rw [moved.seqEnd, moved.seq] at more
                obtain ⟨bound, ends⟩ := outer _ (by
                  rw [seq, seqEnd]
                  show final.seqEnd - (final.seq + 1) < files
                  rw [moved.seqEnd, moved.seq]
                  omega) _ (top { final with seq := final.seq + 1, fd := none } .forwards) rfl rfl
                refine ⟨bound + 1, ?_⟩
                rintro (_ | fuel) enough
                · omega
                · unfold scan
                  simp only [if_true, step, goes]
                  exact ends fuel (by omega)
              · exact absurd rfl no

/-- The backwards loop ends, by induction on the files that are left and, inside a file, on the
position. -/
theorem scan_backwards_ends (modes : Modes) (quiet : modes.loopForever = false) (stale : Nat)
    {direction : Direction} (backwards : direction ≠ .forwards) (files bytes : Nat) (jf : Jfile)
    (few : jf.seq - jf.seqBeg = files) (short : jf.pos.toNat = bytes) :
    ∃ bound, ∀ fuel, bound ≤ fuel → ComesBack (scan modes stale direction fuel jf) := by
  induction files using Nat.strong_induction_on generalizing bytes jf with
  | _ files outer =>
      induction bytes using Nat.strong_induction_on generalizing jf with
      | _ bytes inner =>
          cases step : backwardPass stale jf with
          | found jd final =>
              refine ⟨1, ?_⟩
              rintro (_ | fuel) bound
              · omega
              · unfold scan
                simp only [if_neg backwards, step]
                exact Or.inl ⟨jd, final, rfl⟩
          | again final =>
              obtain ⟨moved, closer⟩ := backwardPass_again step
              obtain ⟨bound, ends⟩ := inner final.pos.toNat (by omega) final
                (by rw [moved.seqBeg, moved.seq, few]) rfl
              refine ⟨bound + 1, ?_⟩
              rintro (_ | fuel) enough
              · omega
              · unfold scan
                simp only [if_neg backwards, step]
                exact ends fuel (by omega)
          | ended error final =>
              have moved := backwardPass_ended step
              rcases roll_cases modes quiet direction error final with null | ⟨no, _⟩ | ⟨_, more, goes⟩
              · refine ⟨1, ?_⟩
                rintro (_ | fuel) bound
                · omega
                · unfold scan
                  simp only [if_neg backwards, step, null]
                  exact Or.inr ⟨final, rfl⟩
              · exact absurd no backwards
              · obtain ⟨seq, seqBeg, _⟩ := top_frame { final with seq := final.seq - 1, fd := none } direction
                rw [moved.seqBeg, moved.seq] at more
                obtain ⟨bound, ends⟩ := outer _ (by
                  rw [seq, seqBeg]
                  show final.seq - 1 - final.seqBeg < files
                  rw [moved.seqBeg, moved.seq]
                  omega) _ (top { final with seq := final.seq - 1, fd := none } direction) rfl rfl
                refine ⟨bound + 1, ?_⟩
                rintro (_ | fuel) enough
                · omega
                · unfold scan
                  simp only [if_neg backwards, step, goes]
                  exact ends fuel (by omega)

/-- Every read that does not wait for more comes back after finitely many passes, whatever the
files hold and wherever the reader stands. -/
theorem jread_comesBack (modes : Modes) (quiet : modes.loopForever = false) (stale : Nat) (jf : Jfile)
    (jd : Option Jdata) {direction : Direction} (ends : direction = .forwards ∨ direction = .backwards) :
    ∃ bound, ∀ fuel, bound ≤ fuel → ComesBack (jread modes stale fuel jf jd direction) := by
  have loops : ∀ (start : Jfile), ∃ bound, ∀ fuel, bound ≤ fuel →
      ComesBack (scan modes stale direction fuel start) := by
    intro start
    rcases ends with rfl | rfl
    · exact scan_forwards_ends modes quiet stale _ _ start rfl rfl
    · exact scan_backwards_ends modes quiet stale (by decide) _ _ start rfl rfl
  cases jd with
  | some jd =>
      have far : ¬(direction = .seqfirst ∨ direction = .seqlast) := by
        rcases ends with rfl | rfl
        · decide
        · decide
      unfold jread jreadFrom
      simp only [if_neg far]
      exact loops _
  | none =>
      have scanned : (if direction = .forwards ∨ direction = .seqfirst then Direction.forwards else .backwards) =
          direction := by
        rcases ends with rfl | rfl
        · rfl
        · rfl
      unfold jread jreadEnd
      simp only [scanned]
      exact loops _

end Dragonfly.Jscan
