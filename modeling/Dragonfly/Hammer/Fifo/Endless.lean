import Dragonfly.Hammer.Fifo.Place
import Dragonfly.Hammer.Fifo.Stage1
import Dragonfly.Lib.Loop
import Dragonfly.Lib.Run

/-!
# When the recovery scans end

The two scans of stage 1 that look for the active range and the reverse scan of
stage 2 stop at a sequence number or at an offset, never because they have been
all around the FIFO.  PADs carry no sequence number, so a scan that finds nothing
but PADs on its way around the area goes on forever; any other record stops it at
the latest on the second lap.  The scans that count bytes always end.
-/

namespace Dragonfly.Hammer.Fifo

open Dragonfly.Lib

/-! ## Laps -/

/-- All records are PADs. -/
def Pads (records : List Record) : Prop := ∀ record ∈ records, record.body = .pad

/-- The sequence number expected after `records` by a scan that goes from one
number to the next by `turn`, unless one of the records is out of sequence. -/
def seqAlong (turn : Nat → Nat) : List Record → Nat → Option Nat
  | [], seqno => some seqno
  | record :: records, seqno =>
      if record.body = .pad then seqAlong turn records seqno
      else if record.seq = seqno then seqAlong turn records (turn seqno)
      else none

/-- A scan from `offset` finds records in sequence up to the end of the area, and
nothing but PADs when it then goes around the whole area. -/
structure Laps (move : Nat → Record → Nat → Prop) (turn : Nat → Nat) (offset seqno : Nat) :
    Prop where
  reaches : ∃ records last, Run move offset records undoBase ∧
    seqAlong turn records seqno = some last
  ring : ∃ pads, pads ≠ [] ∧ Pads pads ∧ Run move undoBase pads undoBase

section Laps

variable {move : Nat → Record → Nat → Prop} {turn : Nat → Nat} {offset seqno : Nat}
variable {records : List Record}

theorem seqAlong_pads (pads : Pads records) : seqAlong turn records seqno = some seqno := by
  induction records with
  | nil => rfl
  | cons record records ih =>
      obtain ⟨pad, rest⟩ := List.forall_mem_cons.mp pads
      rw [seqAlong, if_pos pad]
      exact ih rest

/-- The number of records that carry a sequence number. -/
def numbered (records : List Record) : Nat := records.countP (·.body ≠ .pad)

theorem seqAlong_eq {last : Nat} (along : seqAlong turn records seqno = some last) :
    last = turn^[numbered records] seqno := by
  induction records generalizing seqno with
  | nil => exact (Option.some.inj along).symm
  | cons record records ih =>
      unfold seqAlong at along
      by_cases pad : record.body = .pad
      · rw [if_pos pad] at along
        simpa [numbered, pad] using ih along
      · rw [if_neg pad] at along
        split at along
        · simpa [numbered, pad] using ih along
        · contradiction

/-- The first number found is the one expected. -/
theorem seqAlong_first {last : Nat} (along : seqAlong turn records seqno = some last)
    (some : ¬ Pads records) : firstSeq records = .some seqno := by
  induction records generalizing seqno with
  | nil => exact absurd (fun _ member => absurd member List.not_mem_nil) some
  | cons record records ih =>
      unfold seqAlong at along
      by_cases pad : record.body = .pad
      · rw [if_pos pad] at along
        rw [firstSeq, if_neg (not_not.mpr pad)]
        refine ih along ?_
        intro rest
        exact some (List.forall_mem_cons.mpr ⟨pad, rest⟩)
      · rw [if_neg pad] at along
        rw [firstSeq, if_pos pad]
        split at along
        · rename_i same
          rw [same]
        · contradiction

/-- `turn` does not come back to where it started within the length of a lap. -/
def Turns (turn : Nat → Nat) : Prop :=
  ∀ seqno count, 0 < count → count < 4294967296 → turn^[count] seqno ≠ seqno

/-- Records that are in sequence on two laps in a row carry no sequence numbers. -/
theorem pads_of_twice (turns : Turns turn) {middle last : Nat}
    (short : records.length < 4294967296) (first : seqAlong turn records seqno = some middle)
    (second : seqAlong turn records middle = some last) : Pads records := by
  by_contra some
  have same : seqno = middle :=
    Option.some.inj ((seqAlong_first first some).symm.trans (seqAlong_first second some))
  have positive : 0 < numbered records := by
    rw [numbered, List.countP_pos_iff]
    unfold Pads at some
    push Not at some
    obtain ⟨record, member, noPad⟩ := some
    exact ⟨record, member, by simpa using noPad⟩
  have bounded : numbered records ≤ records.length := List.countP_le_length
  exact turns seqno (numbered records) positive (by omega)
    ((seqAlong_eq first).symm.trans same.symm)

/-- A set of scans that go on: one can make a pass, to a scan of the set again. -/
def GoesOn (move : Nat → Record → Nat → Prop) (turn : Nat → Nat) (alive : Nat → Nat → Prop) :
    Prop :=
  ∀ offset seqno, alive offset seqno → ∃ record next, move offset record next ∧
    ((record.body = .pad ∧ alive next seqno) ∨
      (record.body ≠ .pad ∧ record.seq = seqno ∧ alive next (turn seqno)))

/-- A scanner reads one record at an offset. -/
def Functional (move : Nat → Record → Nat → Prop) : Prop :=
  ∀ offset record next record' next', move offset record next → move offset record' next' →
    record = record' ∧ next = next'

/-- A scan that goes on finds the records ahead of it in sequence. -/
theorem GoesOn.follows {alive : Nat → Nat → Prop} {stop : Nat}
    (functional : Functional move) (goes : GoesOn move turn alive)
    (run : Run move offset records stop) (here : alive offset seqno) :
    ∃ last, seqAlong turn records seqno = some last ∧ alive stop last := by
  induction run generalizing seqno with
  | nil offset => exact ⟨seqno, rfl, here⟩
  | @cons offset middle stop record records step rest ih =>
      obtain ⟨record', next, step', outcome⟩ := goes offset seqno here
      obtain ⟨rfl, rfl⟩ := functional _ _ _ _ _ step step'
      unfold seqAlong
      rcases outcome with ⟨pad, there⟩ | ⟨noPad, seq, there⟩
      · rw [if_pos pad]
        exact ih there
      · rw [if_neg noPad, if_pos seq]
        exact ih there

/-- Scans that go on, and that come back to the beginning of the area, do laps. -/
theorem GoesOn.laps {alive : Nat → Nat → Prop}
    (functional : Functional move) (goes : GoesOn move turn alive) (turns : Turns turn)
    (closes : ∀ offset seqno, alive offset seqno → ∃ records, records ≠ [] ∧
      Run move offset records undoBase ∧ (offset = undoBase → records.length < 4294967296))
    (here : alive offset seqno) : Laps move turn offset seqno := by
  obtain ⟨front, _, toBase, _⟩ := closes offset seqno here
  obtain ⟨first, frontSeq, atBase⟩ := goes.follows functional toBase here
  obtain ⟨lap, nonempty, around, short⟩ := closes undoBase first atBase
  obtain ⟨second, firstLap, again⟩ := goes.follows functional around atBase
  obtain ⟨third, secondLap, _⟩ := goes.follows functional around again
  exact ⟨⟨front, first, toBase, frontSeq⟩,
    ⟨lap, nonempty, pads_of_twice turns (short rfl) firstLap secondLap, around⟩⟩

/-- A scan that does laps goes on. -/
theorem Laps.goesOn : GoesOn move turn (Laps move turn) := by
  rintro offset seqno ⟨⟨records, last, run, along⟩, ring⟩
  cases run with
  | nil =>
      obtain ⟨pads, nonempty, allPads, around⟩ := id ring
      cases around with
      | nil => contradiction
      | @cons _ middle _ pad pads first rest =>
          obtain ⟨padHere, padRest⟩ := List.forall_mem_cons.mp allPads
          exact ⟨pad, middle, first,
            .inl ⟨padHere, ⟨⟨pads, seqno, rest, seqAlong_pads padRest⟩, ring⟩⟩⟩
  | @cons _ middle _ record records first rest =>
      unfold seqAlong at along
      by_cases pad : record.body = .pad
      · rw [if_pos pad] at along
        exact ⟨record, middle, first, .inl ⟨pad, ⟨⟨records, last, rest, along⟩, ring⟩⟩⟩
      · rw [if_neg pad] at along
        split at along
        · rename_i seq
          exact ⟨record, middle, first, .inr ⟨pad, seq, ⟨⟨records, last, rest, along⟩, ring⟩⟩⟩
        · contradiction

end Laps

theorem seqSucc_turns : Turns seqSucc := by
  intro seqno count positive short same
  have iterate : ∀ steps, seqSucc^[steps + 1] seqno = (seqno + (steps + 1)) % 4294967296 := by
    intro steps
    induction steps with
    | zero => simp [seqSucc]
    | succ steps ih =>
        rw [Function.iterate_succ_apply', ih, seqSucc]
        omega
  obtain ⟨steps, rfl⟩ : ∃ steps, count = steps + 1 := ⟨count - 1, by omega⟩
  rw [iterate] at same
  omega

theorem seqPred_turns : Turns seqPred := by
  intro seqno count positive short same
  have iterate : ∀ steps, (seqPred^[steps] seqno + steps) % 4294967296 = seqno % 4294967296 := by
    intro steps
    induction steps with
    | zero => rfl
    | succ steps ih =>
        rw [Function.iterate_succ_apply', seqPred]
        omega
  have back := iterate count
  rw [same] at back
  omega

/-! ## Scanners -/

namespace Area

/-- The record at `offset`, and where the forward scan continues. -/
def Forward (area : Area) (offset : Nat) (record : Record) (next : Nat) : Prop :=
  area.scanFwd offset = .ok (record, next)

/-- The record in front of `offset`, where it begins, and that this is not `stop`. -/
def Backward (area : Area) (stop : Option Nat) (offset : Nat) (record : Record) (next : Nat) :
    Prop :=
  area.scanRev offset = .ok (record, next) ∧ stop ≠ some next

/-- The PAD in front of `offset`, and where it begins. -/
def PadBackward (area : Area) (offset : Nat) (record : Record) (next : Nat) : Prop :=
  area.scanRev offset = .ok (record, next) ∧ record.body = .pad

variable {area : Area} {offset next : Nat} {record : Record}

theorem forward_functional (area : Area) : Functional area.Forward := by
  intro offset record next record' next' first second
  exact Prod.mk.inj (Except.ok.inj (first.symm.trans second))

theorem backward_functional (area : Area) (stop : Option Nat) :
    Functional (area.Backward stop) := by
  intro offset record next record' next' first second
  exact Prod.mk.inj (Except.ok.inj (first.1.symm.trans second.1))

theorem padBackward_functional (area : Area) : Functional area.PadBackward := by
  intro offset record next record' next' first second
  exact Prod.mk.inj (Except.ok.inj (first.1.symm.trans second.1))

/-- What the reverse scanner has checked. -/
theorem scanRev_ok (scan : area.scanRev offset = .ok (record, next)) :
    ∃ place, (if offset = undoBase then area.allocOffset else offset) = place ∧
      undoBase ≤ place - 8 ∧ 8 ≤ record.size ∧ next = place - record.size := by
  simp only [Area.scanRev, Fifo.scanRev] at scan
  generalize placed : (if offset = undoBase then area.allocOffset else offset) = place at scan
  split at scan
  · contradiction
  · rename_i inside
    split at scan
    · contradiction
    · rename_i checked
      obtain ⟨rfl, rfl⟩ := Prod.mk.inj (Except.ok.inj scan)
      refine ⟨place, rfl, Nat.le_of_not_lt inside, ?_, ?_⟩
      · rw [record_size]
        simp only [ne_eq, not_not, checkTailSignature] at checked
        split at checked
        · contradiction
        · split at checked
          · contradiction
          · exact ((checkSignature_eq_zero_iff).mp checked).2.1
      · rw [record_size]

/-- What the forward scanner has checked. -/
theorem scanFwd_ok (scan : area.scanFwd offset = .ok (record, next)) :
    ∃ place, (if offset = area.allocOffset then undoBase else offset) = place ∧ 8 ≤ record.size ∧
      place / bufsize = (place + record.size - 1) / bufsize ∧
      next = if place + record.size = area.allocOffset then undoBase else place + record.size := by
  simp only [Area.scanFwd, Fifo.scanFwd] at scan
  generalize placed : (if offset = area.allocOffset then undoBase else offset) = place at scan
  split at scan
  · contradiction
  · rename_i checked
    obtain ⟨rfl, rfl⟩ := Prod.mk.inj (Except.ok.inj scan)
    rw [record_size]
    simp only [ne_eq, not_not, checkHeadSignature] at checked
    split at checked
    · contradiction
    · split at checked
      · contradiction
      · rename_i sameBuffer
        exact ⟨place, rfl, ((checkSignature_eq_zero_iff).mp checked).2.1, not_not.mp sameBuffer, rfl⟩

/-- The reverse scan goes down, except at the beginning of the area. -/
theorem next_of_scanRev (scan : area.scanRev offset = .ok (record, next)) :
    (offset ≠ undoBase → undoBase < offset ∧ next < offset) ∧
      (offset = undoBase → next < area.allocOffset) := by
  obtain ⟨place, placed, inside, size, rfl⟩ := scanRev_ok scan
  have positive : 0 < undoBase := by decide
  constructor
  · intro elsewhere
    rw [if_neg elsewhere] at placed
    omega
  · intro here
    rw [if_pos here] at placed
    omega

/-- The forward scan goes up and does not step over the end of the area. -/
theorem next_of_scanFwd (buffered : area.Buffered) (inside : offset < area.allocOffset)
    (scan : area.scanFwd offset = .ok (record, next)) :
    next = undoBase ∨ (offset < next ∧ next < area.allocOffset) := by
  obtain ⟨place, placed, size, sameBuffer, rfl⟩ := scanFwd_ok scan
  rw [if_neg inside.ne] at placed
  subst placed
  have fits : offset + record.size ≤ area.allocOffset := by
    have lower := buffered.sane.lower
    have buffers := buffered.buffers
    have base := undoBase_mod_bufsize
    generalize undoBase = start at *
    simp only [bufsize] at *
    omega
  split
  · exact .inl rfl
  · exact .inr ⟨by omega, by omega⟩

/-- A set of offsets from which one can always scan backwards leads back to the
beginning of the area. -/
theorem backward_closes {move : Nat → Record → Nat → Prop} {alive : Nat → Prop}
    (scans : ∀ offset record next, move offset record next →
      area.scanRev offset = .ok (record, next))
    (goes : ∀ offset, alive offset → ∃ record next, move offset record next ∧ alive next)
    (offset : Nat) (here : alive offset) :
    ∃ records, records ≠ [] ∧ Run move offset records undoBase ∧
      records.length ≤ max offset area.allocOffset - undoBase + 1 := by
  -- a descent that does not start at the beginning of the area ends there
  have descent : ∀ offset, alive offset → offset ≠ undoBase →
      ∃ records, records ≠ [] ∧ Run move offset records undoBase ∧
        records.length ≤ offset - undoBase := by
    intro offset
    induction offset using Nat.strongRecOn with
    | ind offset ih =>
        intro here elsewhere
        obtain ⟨record, next, step, there⟩ := goes offset here
        obtain ⟨lower, down⟩ := (next_of_scanRev (scans _ _ _ step)).1 elsewhere
        by_cases arrived : next = undoBase
        · subst arrived
          exact ⟨[record], by simp, .cons step (.nil _), Nat.sub_pos_of_lt lower⟩
        · obtain ⟨records, _, rest, length⟩ := ih next down there arrived
          refine ⟨record :: records, by simp, .cons step rest, ?_⟩
          rw [List.length_cons]
          omega
  by_cases elsewhere : offset = undoBase
  · obtain ⟨record, next, step, there⟩ := goes offset here
    have down := (next_of_scanRev (scans _ _ _ step)).2 elsewhere
    by_cases arrived : next = undoBase
    · subst arrived
      exact ⟨[record], by simp, .cons step (.nil _), by simp⟩
    · obtain ⟨records, _, rest, length⟩ := descent next there arrived
      refine ⟨record :: records, by simp, .cons step rest, ?_⟩
      rw [List.length_cons]
      omega
  · obtain ⟨records, nonempty, run, length⟩ := descent offset here elsewhere
    exact ⟨records, nonempty, run, by omega⟩

/-- A set of offsets from which one can always scan forwards leads back to the
beginning of the area. -/
theorem forward_closes (buffered : area.Buffered) {alive : Nat → Prop}
    (goes : ∀ offset, alive offset → ∃ record next, area.Forward offset record next ∧ alive next)
    (offset : Nat) (inside : offset ≤ area.allocOffset) (here : alive offset) :
    ∃ records, records ≠ [] ∧ Run area.Forward offset records undoBase ∧
      records.length ≤ area.allocOffset - min offset undoBase + 1 := by
  have ascent : ∀ distance offset, area.allocOffset - offset = distance → alive offset →
      offset < area.allocOffset →
      ∃ records, records ≠ [] ∧ Run area.Forward offset records undoBase ∧
        records.length ≤ area.allocOffset - offset := by
    intro distance
    induction distance using Nat.strongRecOn with
    | ind distance ih =>
        intro offset far here inside
        obtain ⟨record, next, step, there⟩ := goes offset here
        rcases next_of_scanFwd buffered inside step with rfl | ⟨up, below⟩
        · exact ⟨[record], by simp, .cons step (.nil _), Nat.sub_pos_of_lt inside⟩
        · obtain ⟨records, _, rest, length⟩ :=
            ih (area.allocOffset - next) (by omega) next rfl there below
          refine ⟨record :: records, by simp, .cons step rest, ?_⟩
          rw [List.length_cons]
          omega
  rcases Nat.lt_or_eq_of_le inside with below | rfl
  · obtain ⟨records, nonempty, run, length⟩ := ascent _ offset rfl here below
    exact ⟨records, nonempty, run, by omega⟩
  · -- the end of the area is read as its beginning
    obtain ⟨record, next, step, there⟩ := goes _ here
    have names : area.Names area.allocOffset undoBase := .inr ⟨rfl, rfl⟩
    have fromBase : area.scanFwd undoBase = .ok (record, next) :=
      (names.scanFwd buffered.sane).symm.trans step
    rcases next_of_scanFwd buffered buffered.sane.lower fromBase with rfl | ⟨up, below⟩
    · exact ⟨[record], by simp, .cons step (.nil _), by simp⟩
    · obtain ⟨records, _, rest, length⟩ := ascent _ next rfl there below
      refine ⟨record :: records, by simp, .cons step rest, ?_⟩
      rw [List.length_cons]
      omega

/-- The area is shorter than the range of sequence numbers. -/
theorem Sane.lap_short (sane : area.Sane) :
    area.allocOffset - undoBase + 1 < 4294967296 := by
  have upper := sane.upper
  simp only [largeblockSize] at upper
  omega

end Area

/-! ## The scans that look for a sequence number -/

section Loops

variable {area : Area}

/-- The passes of the backwards scan of stage 1. -/
def backPass (area : Area) (offset : Nat) : Option Nat :=
  match area.scanRev offset with
  | .ok (record, next) => if record.body ≠ .pad then none else some next
  | .error _ => none

theorem backPass_eq_some_iff {offset next : Nat} :
    backPass area offset = some next ↔ ∃ record, area.PadBackward offset record next := by
  unfold backPass Area.PadBackward
  rcases area.scanRev offset with errno | ⟨record, after⟩
  · simp
  · by_cases pad : record.body = .pad
    · simp [pad, eq_comm]
    · simp [pad]

theorem backSeqno_passes (area : Area) : Passes (backPass area) (backSeqno area) where
  zero _ := rfl
  again fuel offset after step := by
    obtain ⟨record, scan, pad⟩ := (backPass_eq_some_iff).mp step
    simp [backSeqno, scan, pad]
  last fuel offset step := by
    unfold backPass at step
    rcases scan : area.scanRev offset with errno | ⟨record, after⟩
    · exact ⟨.done (.error errno), by simp, by simp [backSeqno, scan], by simp [backSeqno, scan]⟩
    · have noPad : record.body ≠ .pad := by
        intro pad
        simp [scan, pad] at step
      exact ⟨.done (.ok record.seq), by simp, by simp [backSeqno, scan, noPad],
        by simp [backSeqno, scan, noPad]⟩

/-- The backwards scan of stage 1 does not end exactly when all it finds up to the
beginning of the area, and then around the area, are PADs. -/
theorem backSeqno_endless_iff (sane : area.Sane) {offset : Nat} :
    Endless (backSeqno area) offset ↔ Laps area.PadBackward seqPred offset 0 := by
  have passes := backSeqno_passes area
  have goes : ∀ offset, Endless (backSeqno area) offset →
      ∃ record next, area.PadBackward offset record next ∧ Endless (backSeqno area) next := by
    intro offset endless
    obtain ⟨next, step, there⟩ := passes.endless_iff.mp endless
    obtain ⟨record, back⟩ := (backPass_eq_some_iff).mp step
    exact ⟨record, next, back, there⟩
  constructor
  · intro endless
    apply @GoesOn.laps _ _ _ _ (fun offset _ => Endless (backSeqno area) offset)
      area.padBackward_functional _ seqPred_turns _ endless
    · intro offset _ here
      obtain ⟨record, next, back, there⟩ := goes offset here
      exact ⟨record, next, back, .inl ⟨back.2, there⟩⟩
    · intro offset _ here
      obtain ⟨records, nonempty, run, length⟩ :=
        @Area.backward_closes area area.PadBackward _ (fun _ _ _ back => back.1) goes offset here
      refine ⟨records, nonempty, run, ?_⟩
      rintro rfl
      have short := sane.lap_short
      have lower := sane.lower
      omega
  · intro laps
    apply passes.endless_of_invariant (fun offset => Laps area.PadBackward seqPred offset 0) _ laps
    intro offset here
    obtain ⟨record, next, back, ⟨_, there⟩ | ⟨noPad, _⟩⟩ := Laps.goesOn offset 0 here
    · exact ⟨next, (backPass_eq_some_iff).mpr ⟨record, back⟩, there⟩
    · exact absurd back.2 noPad

/-- `fwdSeqno` with its variables, the offset, the end found and the sequence
number, in one place. -/
def fwdScan (area : Area) (fuel : Nat) (state : Nat × Nat × Nat) :
    Outcome (Except Errno (Nat × Nat)) :=
  fwdSeqno area fuel state.1 state.2.1 state.2.2

/-- The passes of the forwards scan of stage 1. -/
def fwdPass (area : Area) (state : Nat × Nat × Nat) : Option (Nat × Nat × Nat) :=
  match area.scanFwd state.1 with
  | .ok (record, next) =>
      if record.body ≠ .pad then
        if record.seq ≠ state.2.2 then none else some (next, next, seqSucc state.2.2)
      else some (next, state.2.1, state.2.2)
  | .error _ => none

theorem fwdPass_eq_some_iff {offset save seqno : Nat} {after : Nat × Nat × Nat} :
    fwdPass area (offset, save, seqno) = some after ↔
      ∃ record next, area.Forward offset record next ∧
        ((record.body = .pad ∧ after = (next, save, seqno)) ∨
          (record.body ≠ .pad ∧ record.seq = seqno ∧ after = (next, next, seqSucc seqno))) := by
  unfold fwdPass Area.Forward
  rcases area.scanFwd offset with errno | ⟨record, next⟩
  · simp
  · by_cases pad : record.body = .pad
    · simp [pad, eq_comm]
    · by_cases seq : record.seq = seqno
      · simpa [pad, seq] using eq_comm
      · simp [pad, seq]

theorem fwdScan_passes (area : Area) : Passes (fwdPass area) (fwdScan area) where
  zero _ := rfl
  again fuel state after step := by
    obtain ⟨record, next, scan, ⟨pad, rfl⟩ | ⟨noPad, seq, rfl⟩⟩ := (fwdPass_eq_some_iff).mp step
    · rw [Area.Forward] at scan
      simp [fwdScan, fwdSeqno, scan, pad]
    · rw [Area.Forward] at scan
      simp [fwdScan, fwdSeqno, scan, noPad, seq]
  last fuel state step := by
    unfold fwdPass at step
    rcases scan : area.scanFwd state.1 with errno | ⟨record, next⟩
    · exact ⟨.done (.error errno), by simp, by simp [fwdScan, fwdSeqno, scan],
        by simp [fwdScan, fwdSeqno, scan]⟩
    · have noPad : record.body ≠ .pad := by
        intro pad
        simp [scan, pad] at step
      have seq : record.seq ≠ state.2.2 := by
        intro seq
        simp [scan, noPad, seq] at step
      exact ⟨.done (.ok (state.2.1, state.2.2)), by simp,
        by simp [fwdScan, fwdSeqno, scan, noPad, seq],
        by simp [fwdScan, fwdSeqno, scan, noPad, seq]⟩

/-- A scan that has not left the area does not leave it. -/
theorem Area.Forward.le {offset next : Nat} {record : Record} (buffered : area.Buffered)
    (forward : area.Forward offset record next) (inside : offset ≤ area.allocOffset) :
    next ≤ area.allocOffset := by
  have lower := buffered.sane.lower
  rcases Nat.lt_or_eq_of_le inside with below | rfl
  · have moved := Area.next_of_scanFwd buffered below forward
    omega
  · have names : area.Names area.allocOffset undoBase := .inr ⟨rfl, rfl⟩
    have moved := Area.next_of_scanFwd buffered lower
      ((names.scanFwd buffered.sane).symm.trans forward)
    omega

/-- The forwards scan of stage 1 does not end exactly when it finds records in
sequence up to the end of the area and then nothing but PADs around the area. -/
theorem fwdScan_endless_iff (buffered : area.Buffered) {offset save seqno : Nat}
    (inside : offset ≤ area.allocOffset) :
    Endless (fwdScan area) (offset, save, seqno) ↔ Laps area.Forward seqSucc offset seqno := by
  have passes := fwdScan_passes area
  have goes : GoesOn area.Forward seqSucc fun offset seqno =>
      offset ≤ area.allocOffset ∧ ∃ save, Endless (fwdScan area) (offset, save, seqno) := by
    rintro offset seqno ⟨inside, save, endless⟩
    obtain ⟨after, step, there⟩ := passes.endless_iff.mp endless
    obtain ⟨record, next, scan, ⟨pad, rfl⟩ | ⟨noPad, seq, rfl⟩⟩ := (fwdPass_eq_some_iff).mp step
    · exact ⟨record, next, scan, .inl ⟨pad, scan.le buffered inside, _, there⟩⟩
    · exact ⟨record, next, scan, .inr ⟨noPad, seq, scan.le buffered inside, _, there⟩⟩
  constructor
  · intro endless
    apply goes.laps area.forward_functional seqSucc_turns _ ⟨inside, save, endless⟩
    rintro offset seqno ⟨inside, here⟩
    obtain ⟨records, nonempty, run, length⟩ := @Area.forward_closes area buffered
      (fun offset => ∃ seqno, offset ≤ area.allocOffset ∧
        ∃ save, Endless (fwdScan area) (offset, save, seqno))
      (by
        rintro offset ⟨seqno, here⟩
        obtain ⟨record, next, step, ⟨_, there⟩ | ⟨_, _, there⟩⟩ := goes offset seqno here
        · exact ⟨record, next, step, _, there⟩
        · exact ⟨record, next, step, _, there⟩) offset inside ⟨seqno, inside, here⟩
    refine ⟨records, nonempty, run, ?_⟩
    rintro rfl
    have short := buffered.sane.lap_short
    omega
  · intro laps
    apply passes.endless_of_invariant
      (fun state => Laps area.Forward seqSucc state.1 state.2.2) _ laps
    rintro ⟨offset, save, seqno⟩ here
    obtain ⟨record, next, scan, ⟨pad, there⟩ | ⟨noPad, seq, there⟩⟩ := Laps.goesOn _ _ here
    · exact ⟨(next, save, seqno), (fwdPass_eq_some_iff).mpr ⟨record, next, scan, .inl ⟨pad, rfl⟩⟩,
        there⟩
    · exact ⟨(next, next, seqSucc seqno),
        (fwdPass_eq_some_iff).mpr ⟨record, next, scan, .inr ⟨noPad, seq, rfl⟩⟩, there⟩

/-- `collectLoop` with its variables in one place. -/
def collectScan (area : Area) (ext fuel : Nat) (state : Nat × Nat × Redo) :
    Outcome (Option Errno × Redo) :=
  collectLoop area ext fuel state.1 state.2.1 state.2.2

/-- The passes of the reverse scan of stage 2. -/
def collectPass (area : Area) (ext : Nat) (state : Nat × Nat × Redo) :
    Option (Nat × Nat × Redo) :=
  match area.scanRev state.1 with
  | .ok (record, next) =>
      if record.body ≠ .pad then
        if record.seq ≠ state.2.1 then none
        else if next = ext then none
        else some (next, seqPred state.2.1, recoverRedoRec state.2.2 next record)
      else if next = ext then none
      else some (next, state.2.1, state.2.2)
  | .error _ => none

theorem collectPass_eq_some_iff {ext offset seqno : Nat} {redo : Redo}
    {after : Nat × Nat × Redo} :
    collectPass area ext (offset, seqno, redo) = some after ↔
      ∃ record next, area.Backward (some ext) offset record next ∧
        ((record.body = .pad ∧ after = (next, seqno, redo)) ∨
          (record.body ≠ .pad ∧ record.seq = seqno ∧
            after = (next, seqPred seqno, recoverRedoRec redo next record))) := by
  unfold collectPass Area.Backward
  rcases area.scanRev offset with errno | ⟨record, next⟩
  · simp
  · by_cases arrived : next = ext
    · simp [arrived]
    · have further : ext ≠ next := Ne.symm arrived
      by_cases pad : record.body = .pad
      · simpa [pad, arrived, further] using eq_comm
      · by_cases seq : record.seq = seqno
        · simpa [pad, seq, arrived, further] using eq_comm
        · simp [pad, seq]

theorem collectScan_passes (area : Area) (ext : Nat) :
    Passes (collectPass area ext) (collectScan area ext) where
  zero _ := rfl
  again fuel state after step := by
    obtain ⟨record, next, ⟨scan, further⟩, ⟨pad, rfl⟩ | ⟨noPad, seq, rfl⟩⟩ :=
      (collectPass_eq_some_iff).mp step
    · have elsewhere : next ≠ ext := fun arrived => further (congrArg some arrived.symm)
      simp [collectScan, collectLoop, scan, pad, elsewhere]
    · have elsewhere : next ≠ ext := fun arrived => further (congrArg some arrived.symm)
      simp [collectScan, collectLoop, scan, noPad, seq, elsewhere]
  last fuel state step := by
    unfold collectPass at step
    rcases scan : area.scanRev state.1 with errno | ⟨record, next⟩
    · exact ⟨.done (some errno, state.2.2), by simp, by simp [collectScan, collectLoop, scan],
        by simp [collectScan, collectLoop, scan]⟩
    · by_cases pad : record.body = .pad
      · have arrived : next = ext := by
          by_contra elsewhere
          simp [scan, pad, elsewhere] at step
        exact ⟨.done (none, state.2.2), by simp, by simp [collectScan, collectLoop, scan, pad, arrived],
          by simp [collectScan, collectLoop, scan, pad, arrived]⟩
      · by_cases seq : record.seq = state.2.1
        · have arrived : next = ext := by
            by_contra elsewhere
            simp [scan, pad, seq, elsewhere] at step
          exact ⟨.done (none, recoverRedoRec state.2.2 ext record), by simp,
            by simp [collectScan, collectLoop, scan, pad, seq, arrived],
            by simp [collectScan, collectLoop, scan, pad, seq, arrived]⟩
        · exact ⟨.done (some .erange, state.2.2), by simp,
            by simp [collectScan, collectLoop, scan, pad, seq],
            by simp [collectScan, collectLoop, scan, pad, seq]⟩

/-- The reverse scan of stage 2 does not end exactly when it finds records in
sequence down to the beginning of the area and then nothing but PADs around the
area, and none of them begins at `ext`. -/
theorem collectScan_endless_iff (sane : area.Sane) {ext offset seqno : Nat} {redo : Redo} :
    Endless (collectScan area ext) (offset, seqno, redo) ↔
      Laps (area.Backward (some ext)) seqPred offset seqno := by
  have passes := collectScan_passes area ext
  have goes : GoesOn (area.Backward (some ext)) seqPred fun offset seqno =>
      ∃ redo, Endless (collectScan area ext) (offset, seqno, redo) := by
    rintro offset seqno ⟨redo, endless⟩
    obtain ⟨after, step, there⟩ := passes.endless_iff.mp endless
    obtain ⟨record, next, scan, ⟨pad, rfl⟩ | ⟨noPad, seq, rfl⟩⟩ := (collectPass_eq_some_iff).mp step
    · exact ⟨record, next, scan, .inl ⟨pad, _, there⟩⟩
    · exact ⟨record, next, scan, .inr ⟨noPad, seq, _, there⟩⟩
  constructor
  · intro endless
    apply goes.laps (area.backward_functional _) seqPred_turns _ ⟨redo, endless⟩
    intro offset seqno here
    obtain ⟨records, nonempty, run, length⟩ :=
      @Area.backward_closes area (area.Backward (some ext))
        (fun offset => ∃ seqno redo, Endless (collectScan area ext) (offset, seqno, redo))
        (fun _ _ _ back => back.1)
        (by
          rintro offset ⟨seqno, here⟩
          obtain ⟨record, next, step, ⟨_, there⟩ | ⟨_, _, there⟩⟩ := goes offset seqno here
          · exact ⟨record, next, step, _, there⟩
          · exact ⟨record, next, step, _, there⟩) offset ⟨seqno, here⟩
    refine ⟨records, nonempty, run, ?_⟩
    rintro rfl
    have short := sane.lap_short
    have lower := sane.lower
    omega
  · intro laps
    apply passes.endless_of_invariant
      (fun state => Laps (area.Backward (some ext)) seqPred state.1 state.2.1) _ laps
    rintro ⟨offset, seqno, redo⟩ here
    obtain ⟨record, next, scan, ⟨pad, there⟩ | ⟨noPad, seq, there⟩⟩ := Laps.goesOn _ _ here
    · exact ⟨(next, seqno, redo),
        (collectPass_eq_some_iff).mpr ⟨record, next, scan, .inl ⟨pad, rfl⟩⟩, there⟩
    · exact ⟨(next, seqPred seqno, recoverRedoRec redo next record),
        (collectPass_eq_some_iff).mpr ⟨record, next, scan, .inr ⟨noPad, seq, rfl⟩⟩, there⟩

/-! ## The scans that count bytes -/

/-- The scan that runs the UNDO records ends, whatever the FIFO holds. -/
theorem undoLoop_ends {firstOffset fuel offset : Nat} {bytes : Int} {state : Recovery}
    (enough : bytes.toNat < fuel) :
    undoLoop area firstOffset fuel offset bytes state ≠ .more := by
  induction fuel generalizing offset bytes state with
  | zero => omega
  | succ fuel ih =>
      rw [undoLoop]
      by_cases left : 0 < bytes
      · rw [if_pos left, Outcome.kkassert]
        split
        · rcases scan : area.scanRev offset with errno | ⟨record, next⟩
          · simp
          · obtain ⟨_, _, _, size, _⟩ := Area.scanRev_ok scan
            dsimp only
            rcases applyUndo state record with errno | applied
            · simp
            · exact ih (by omega)
        · simp
      · rw [if_neg left, Outcome.kkassert]
        split <;> simp

theorem recoverRedoRun_ne_more (redo : Redo) (offset : Nat) (record : Record) :
    recoverRedoRun redo offset record ≠ .more := by
  unfold recoverRedoRun
  split
  · split
    · dsimp only
      split <;> simp
    · split
      · dsimp only
        split
        · rw [Outcome.kkassert]
          split <;> simp
        · simp
      · simp
  · simp

/-- The scan that runs the REDO records ends, whatever the FIFO holds. -/
theorem redoLoop_ends {lastOffset fuel offset : Nat} {bytes : Int} {redo : Redo}
    (enough : bytes.toNat < fuel) :
    redoLoop area lastOffset fuel offset bytes redo ≠ .more := by
  induction fuel generalizing offset bytes redo with
  | zero => omega
  | succ fuel ih =>
      rw [redoLoop]
      by_cases left : 0 < bytes
      · rw [if_pos left, Outcome.kkassert]
        split
        · rcases scan : area.scanFwd offset with errno | ⟨record, next⟩
          · simp
          · obtain ⟨_, _, size, _⟩ := Area.scanFwd_ok scan
            dsimp only
            rcases run : recoverRedoRun redo offset record with _ | _ | redo'
            · simp [Outcome.bind]
            · exact absurd run (recoverRedoRun_ne_more redo offset record)
            · exact ih (by omega)
        · simp
      · rw [if_neg left, Outcome.kkassert]
        split <;> simp

end Loops

/-! ## The two stages -/

/-- The nearest record behind `offset` that is no PAD has this sequence number. -/
def Area.Behind (area : Area) (offset seqno : Nat) : Prop :=
  ∃ pads place record next, Run area.PadBackward offset pads place ∧
    area.scanRev place = .ok (record, next) ∧ record.body ≠ .pad ∧ record.seq = seqno

/-- Stage 1 finds nothing but PADs behind `first_offset`, all around the area, or
records in sequence from there to the end of the area and then nothing but PADs. -/
def Area.Stage1Circles (area : Area) (state : Recovery) : Prop :=
  (state.firstOffset ≤ area.allocOffset ∧ state.nextOffset ≤ area.allocOffset) ∧
    (Laps area.PadBackward seqPred state.firstOffset 0 ∨
      ∃ seqno, area.Behind state.firstOffset seqno ∧
        Laps area.Forward seqSucc state.firstOffset (seqSucc seqno))

/-- Stage 2 has to look for TERM records in front of the active range, and finds
records in sequence down to the beginning of the area and then nothing but PADs,
without meeting the offset recorded by the REDO_SYNC record. -/
def Area.Stage2Circles (area : Area) (state : Recovery) : Prop :=
  (state.firstOffset ≠ state.nextOffset ∧ state.recoveryReq = true ∧ state.stage2Offset ≠ 0 ∧
    area.span state.firstOffset state.nextOffset ≤ area.limit ∧
    (extendedRange area state.firstOffset state.nextOffset state.stage2Offset).1 = true) ∧
  Laps (area.Backward (some state.stage2Offset)) seqPred state.firstOffset
    (seqPred state.stage2Seqno)

section Stages

variable {area : Area}

/-- The backwards scan of stage 1 returns the number of the nearest record that is
no PAD. -/
theorem backSeqno_found_iff {offset seqno : Nat} :
    (∃ fuel, backSeqno area fuel offset = .done (.ok seqno)) ↔ area.Behind offset seqno := by
  constructor
  · rintro ⟨fuel, found⟩
    induction fuel generalizing offset with
    | zero => contradiction
    | succ fuel ih =>
        rcases scan : area.scanRev offset with errno | ⟨record, next⟩
        · simp [backSeqno, scan] at found
        · by_cases pad : record.body = .pad
          · obtain ⟨pads, place, last, before, run, rest⟩ := ih (by simpa [backSeqno, scan, pad] using found)
            exact ⟨record :: pads, place, last, before, .cons ⟨scan, pad⟩ run, rest⟩
          · have seq : record.seq = seqno := by simpa [backSeqno, scan, pad] using found
            exact ⟨[], offset, record, next, .nil offset, scan, pad, seq⟩
  · rintro ⟨pads, place, last, before, run, scan, noPad, rfl⟩
    induction run with
    | nil offset => exact ⟨1, by simp [backSeqno, scan, noPad]⟩
    | cons step rest ih =>
        obtain ⟨fuel, found⟩ := ih scan
        exact ⟨fuel + 1, by simpa [backSeqno, step.1, step.2] using found⟩

/-- Stage 1 comes to an end exactly when it does not circle. -/
theorem recoverStage1_ends_iff (buffered : area.Buffered) (state : Recovery) :
    (∃ fuel, recoverStage1 area fuel state ≠ .more) ↔ ¬ area.Stage1Circles state := by
  have back := backSeqno_passes area
  have forward := fwdScan_passes area
  constructor
  · rintro ⟨fuel, ends⟩ ⟨⟨firstIn, nextIn⟩, circles⟩
    apply ends
    simp only [recoverStage1]
    rw [if_neg (by omega), Outcome.bind_eq_more_iff]
    rcases circles with laps | ⟨seqno, behind, laps⟩
    · exact .inl ((backSeqno_endless_iff buffered.sane).mpr laps fuel)
    · by_cases early : backSeqno area fuel state.firstOffset = .more
      · exact .inl early
      · obtain ⟨other, found⟩ := (backSeqno_found_iff).mpr behind
        have same : backSeqno area fuel state.firstOffset = .done (.ok seqno) :=
          (back.unique early (by simp [found])).trans found
        refine .inr ⟨.ok seqno, same, ?_⟩
        dsimp only
        rw [Outcome.bind_eq_more_iff]
        exact .inl ((fwdScan_endless_iff buffered firstIn).mpr laps fuel)
  · intro straight
    by_cases outside : area.allocOffset < state.firstOffset ∨ area.allocOffset < state.nextOffset
    · exact ⟨0, by simp [recoverStage1, outside]⟩
    · obtain ⟨firstIn, nextIn⟩ : state.firstOffset ≤ area.allocOffset ∧
          state.nextOffset ≤ area.allocOffset := by omega
      have backEnds : ¬ Endless (backSeqno area) state.firstOffset := by
        rw [backSeqno_endless_iff buffered.sane]
        exact fun laps => straight ⟨⟨firstIn, nextIn⟩, .inl laps⟩
      obtain ⟨backFuel, found, ends, result⟩ := back.exists_result backEnds
      -- fuel for the forwards scan, if there is one
      obtain ⟨fwdFuel, fwdEnds⟩ : ∃ fwdFuel, ∀ seqno, found = .done (.ok seqno) →
          ∀ more, fwdFuel ≤ more →
            fwdSeqno area more state.firstOffset state.firstOffset (seqSucc seqno) ≠ .more := by
        by_cases number : ∃ seqno, found = .done (.ok seqno)
        · obtain ⟨seqno, rfl⟩ := number
          have behind := (backSeqno_found_iff).mp ⟨backFuel, result backFuel le_rfl⟩
          have fwdEnds : ¬ Endless (fwdScan area)
              (state.firstOffset, state.firstOffset, seqSucc seqno) := by
            rw [fwdScan_endless_iff buffered firstIn]
            exact fun laps => straight ⟨⟨firstIn, nextIn⟩, .inr ⟨seqno, behind, laps⟩⟩
          obtain ⟨fwdFuel, range, rangeEnds, fwdResult⟩ := forward.exists_result fwdEnds
          refine ⟨fwdFuel, ?_⟩
          intro other same more enough
          obtain rfl := Except.ok.inj (Outcome.done.inj same)
          have fwdSame := fwdResult more enough
          unfold fwdScan at fwdSame
          rw [fwdSame]
          exact rangeEnds
        · exact ⟨0, fun seqno same => absurd ⟨seqno, same⟩ number⟩
      refine ⟨max (max backFuel fwdFuel) (area.limit + 1), ?_⟩
      intro more
      simp only [recoverStage1, if_neg outside, Outcome.bind_eq_more_iff] at more
      rw [result _ (by omega)] at more
      rcases more with more | ⟨number, same, more⟩
      · exact ends more
      · cases number with
        | error errno => contradiction
        | ok seqno =>
            rcases (Outcome.bind_eq_more_iff).mp more with more | ⟨range, _, more⟩
            · exact fwdEnds seqno same _ (by omega) more
            · cases range with
              | error errno => contradiction
              | ok range =>
                  obtain ⟨last, next⟩ := range
                  dsimp only at more
                  split at more
                  · contradiction
                  · split at more
                    · contradiction
                    · rename_i fits
                      rcases (Outcome.bind_eq_more_iff).mp more with more | ⟨undone, _, more⟩
                      · exact undoLoop_ends (by omega) more
                      · obtain ⟨errno | _, _⟩ := undone <;> contradiction

/-- Stage 2 comes to an end exactly when it does not circle. -/
theorem recoverStage2_ends_iff (sane : area.Sane) (state : Recovery) :
    (∃ fuel, recoverStage2 area fuel state ≠ .more) ↔ ¬ area.Stage2Circles state := by
  have collect := collectScan_passes area state.stage2Offset
  constructor
  · rintro ⟨fuel, ends⟩ ⟨⟨range, req, offset, short, dorscan⟩, laps⟩
    apply ends
    simp only [recoverStage2, if_neg range, req, not_true_eq_false, if_false, if_neg offset,
      if_neg (Nat.not_lt.mpr short), dorscan, if_true]
    rw [Outcome.bind_eq_more_iff]
    exact .inl ((collectScan_endless_iff sane).mpr laps fuel)
  · intro straight
    obtain ⟨collectFuel, collectEnds⟩ : ∃ collectFuel, state.firstOffset ≠ state.nextOffset →
        state.recoveryReq = true → state.stage2Offset ≠ 0 →
        area.span state.firstOffset state.nextOffset ≤ area.limit →
        (extendedRange area state.firstOffset state.nextOffset state.stage2Offset).1 = true →
        ∀ more, collectFuel ≤ more →
          collectLoop area state.stage2Offset more state.firstOffset (seqPred state.stage2Seqno) {}
            ≠ .more := by
      by_cases looks : state.firstOffset ≠ state.nextOffset ∧ state.recoveryReq = true ∧
          state.stage2Offset ≠ 0 ∧
          area.span state.firstOffset state.nextOffset ≤ area.limit ∧
          (extendedRange area state.firstOffset state.nextOffset state.stage2Offset).1 = true
      · have scanEnds : ¬ Endless (collectScan area state.stage2Offset)
            (state.firstOffset, seqPred state.stage2Seqno, {}) := by
          rw [collectScan_endless_iff sane]
          exact fun laps => straight ⟨looks, laps⟩
        obtain ⟨collectFuel, found, ends, result⟩ := collect.exists_result scanEnds
        refine ⟨collectFuel, ?_⟩
        intro _ _ _ _ _ more enough
        have same := result more enough
        unfold collectScan at same
        rw [same]
        exact ends
      · exact ⟨0, fun range req offset short dorscan =>
          absurd ⟨range, req, offset, short, dorscan⟩ looks⟩
    generalize extended :
      extendedRange area state.firstOffset state.nextOffset state.stage2Offset = range at *
    obtain ⟨dorscan, extBytes⟩ := range
    refine ⟨max collectFuel ((area.span state.firstOffset state.nextOffset + extBytes).toNat + 1), ?_⟩
    intro more
    simp only [recoverStage2, extended] at more
    split at more
    · rw [Outcome.kkassert] at more
      split at more <;> contradiction
    · rename_i range
      split at more
      · contradiction
      · rename_i req
        split at more
        · contradiction
        · rename_i offset
          split at more
          · contradiction
          · rename_i short
            rcases (Outcome.bind_eq_more_iff).mp more with more | ⟨⟨errno, redo⟩, _, more⟩
            · split at more
              · rename_i looks
                exact collectEnds range (not_not.mp req) offset (Nat.le_of_not_lt short) looks _
                  (by omega) more
              · contradiction
            · cases errno with
              | some errno => contradiction
              | none => exact redoLoop_ends (by omega) more

/-- Both stages of recovery come to an end exactly when they do not circle. -/
theorem recovery_ends_iff (buffered : area.Buffered) (state : Recovery) :
    ((∃ fuel, recoverStage1 area fuel state ≠ .more) ↔ ¬ area.Stage1Circles state) ∧
      ((∃ fuel, recoverStage2 area fuel state ≠ .more) ↔ ¬ area.Stage2Circles state) :=
  ⟨recoverStage1_ends_iff buffered state, recoverStage2_ends_iff buffered.sane state⟩

end Stages

/-! ## An area of PADs -/

/-- The smallest PAD, over and over. -/
def padMem : Mem := fun address =>
  match address % 8 with
  | 0 => 0x4E
  | 1 => 0xC8
  | 2 => 0x40
  | 3 => 0x80
  | 4 => 8
  | _ => 0

/-- A big-block of PADs. -/
def padArea : Area where
  crc32 := fun _ => 0
  mem := padMem
  allocOffset := undoBase + largeblockSize

/-- The volume header as it is written for an empty FIFO. -/
def padRecovery : Recovery where
  image := fun _ => 0
  recoveryReq := false
  stage2Offset := 0
  stage2Seqno := 0
  undoSeqno := 0
  firstOffset := undoBase
  nextOffset := undoBase
  applied := []

theorem padMem_fields (index : Nat) :
    hdrSignature padMem (8 * index) = headSignature ∧ hdrType padMem (8 * index) = typePad ∧
      hdrSize padMem (8 * index) = 8 := by
  have residue : ∀ byte, byte < 8 → (8 * index + byte) % 8 = byte := by
    intro byte small
    omega
  simp only [hdrSignature, hdrType, hdrSize, Mem.peek, Nat.add_assoc, padMem, Nat.mul_mod_right,
    residue 1 (by decide), residue (1 + 1) (by decide), residue (2 + 1) (by decide),
    residue (4 + 1) (by decide), residue (4 + (1 + 1)) (by decide),
    residue (4 + (1 + (1 + 1))) (by decide), residue 4 (by decide)]
  decide

theorem padMem_laid (index : Nat) :
    Laid padArea.crc32 padMem (8 * index) { size := 8, seq := 0, body := .pad } := by
  obtain ⟨signature, type, size⟩ := padMem_fields index
  refine ⟨by simp only [undoAlign]; omega, trivial, ?_, ?_⟩
  · rw [record_of_pad type, size]
  · rw [checkSignature_eq_zero_iff, signature, size, type]
    dsimp only
    rw [Nat.add_sub_cancel, size, type]
    exact ⟨rfl, by decide, by decide, .inl ⟨rfl, rfl⟩, .inl rfl, rfl, rfl⟩

theorem padArea_buffered : padArea.Buffered :=
  ⟨⟨by change _ < undoBase + largeblockSize; decide,
    by change undoBase + largeblockSize ≤ _; decide⟩,
    by change (undoBase + largeblockSize - undoBase) % bufsize = 0; decide⟩

/-- Going backwards there is always another PAD. -/
theorem padArea_backwards : Endless (backSeqno padArea) undoBase := by
  apply (backSeqno_passes padArea).endless_of_invariant
    (fun offset => offset % 8 = 0 ∧ undoBase ≤ offset)
  · rintro offset ⟨aligned, lower⟩
    obtain ⟨index, reached, above⟩ : ∃ index,
        (if offset = undoBase then padArea.allocOffset else offset) = 8 * index + 8 ∧
          undoBase ≤ 8 * index := by
      rw [show padArea.allocOffset = undoBase + largeblockSize from rfl]
      have base : undoBase % 8 = 0 := by decide
      generalize undoBase = start at *
      simp only [largeblockSize]
      split
      · exact ⟨(start + 8388600) / 8, by omega, by omega⟩
      · exact ⟨(offset - 8) / 8, by omega, by omega⟩
    refine ⟨8 * index, ?_, by omega, above⟩
    exact (backPass_eq_some_iff).mpr ⟨_, (padMem_laid index).scanRev above reached, rfl⟩
  · exact ⟨by decide, le_rfl⟩

theorem recoverStage1_padArea (fuel : Nat) : recoverStage1 padArea fuel padRecovery = .more := by
  simp only [recoverStage1]
  rw [if_neg (by
    change ¬ (undoBase + largeblockSize < undoBase ∨ undoBase + largeblockSize < undoBase)
    decide), Outcome.bind_eq_more_iff]
  exact .inl (padArea_backwards fuel)

/-- Recovery of an area of PADs does not come back. -/
theorem recovery_not_ends : ¬ ∃ fuel, recoverStage1 padArea fuel padRecovery ≠ .more := by
  rintro ⟨fuel, ends⟩
  exact ends (recoverStage1_padArea fuel)

/-- The area of PADs is one on which stage 1 circles and stage 2 does not. -/
theorem padArea_circles : padArea.Buffered ∧ padArea.Stage1Circles padRecovery ∧
    ¬ padArea.Stage2Circles padRecovery := by
  obtain ⟨stage1, stage2⟩ := recovery_ends_iff padArea_buffered padRecovery
  refine ⟨padArea_buffered, ?_, ?_⟩
  · by_contra straight
    obtain ⟨fuel, ends⟩ := stage1.mpr straight
    exact ends (recoverStage1_padArea fuel)
  · refine stage2.mp ⟨0, ?_⟩
    simp [recoverStage2, padRecovery, Outcome.kkassert]

end Dragonfly.Hammer.Fifo
