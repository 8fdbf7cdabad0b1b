import Dragonfly.Hammer.Fifo.Fold

/-!
# Stage 1 on a chain

Stage 1 reads one sequence number in front of the FIFO's `first_offset` and then
follows the records as long as they are in sequence.  What it finds is determined
by the records alone.
-/

namespace Dragonfly.Hammer.Fifo

open Dragonfly.Lib

/-- The sequence number of the first record that is no PAD. -/
def firstSeq : List Record → Option Nat
  | [] => none
  | record :: records => if record.body ≠ .pad then some record.seq else firstSeq records

/-- The sequence number expected after `records`, unless one of them breaks the
sequence. -/
def seqAfter : List Record → Nat → Option Nat
  | [], seqno => some seqno
  | record :: records, seqno =>
      if record.body ≠ .pad then
        if record.seq ≠ seqno then none else seqAfter records (seqSucc seqno)
      else seqAfter records seqno

theorem firstSeq_append (first second : List Record) :
    firstSeq (first ++ second) = (firstSeq first).or (firstSeq second) := by
  induction first with
  | nil => rfl
  | cons record records ih =>
      simp only [List.cons_append, firstSeq]
      by_cases pad : record.body = .pad
      · rw [if_neg (not_not.mpr pad), if_neg (not_not.mpr pad), ih]
      · rw [if_pos pad, if_pos pad]
        rfl

section Loops

variable {area : Area}

theorem backSeqno_names {fuel spelled start : Nat} (names : area.Names spelled start) :
    backSeqno area fuel spelled = backSeqno area fuel start := by
  cases fuel with
  | zero => rfl
  | succ fuel => simp only [backSeqno, names.scanRev]

theorem fwdSeqno_names {fuel spelled start save seqno : Nat} (sane : area.Sane)
    (names : area.Names spelled start) :
    fwdSeqno area fuel spelled save seqno = fwdSeqno area fuel start save seqno := by
  cases fuel with
  | zero => rfl
  | succ fuel => simp only [fwdSeqno, names.scanFwd sane]

/-- The backwards scan returns the sequence number of the last record that is no
PAD. -/
theorem backSeqno_chain {records : List Record} {offset stop seqno fuel : Nat}
    (chain : Chain area offset records stop) (found : firstSeq records.reverse = some seqno)
    (enough : records.length ≤ fuel) : backSeqno area fuel stop = .done (.ok seqno) := by
  induction records using List.reverseRecOn generalizing stop fuel with
  | nil => cases found
  | append_singleton records record ih =>
      obtain ⟨before, front, _, _, _, rev⟩ := chain.last
      rw [List.length_append, List.length_singleton] at enough
      cases fuel with
      | zero => omega
      | succ fuel =>
          simp only [List.reverse_append, List.reverse_singleton, List.singleton_append,
            firstSeq] at found
          simp only [backSeqno, rev]
          split at found
          · next noPad =>
              rw [if_pos noPad, Option.some.inj found]
          · next pad =>
              rw [if_neg pad]
              exact ih front found (by omega)

/-- The end of the last of the records that is no PAD. -/
def savedOffset (area : Area) : Nat → List Record → Nat → Nat
  | _, [], save => save
  | offset, record :: records, save =>
      savedOffset area (area.walk offset record.size) records
        (if record.body ≠ .pad then area.walk offset record.size else save)

theorem savedOffset_last {records : List Record} {record : Record} (noPad : record.body ≠ .pad)
    (offset save : Nat) :
    savedOffset area offset (records ++ [record]) save =
      area.walk offset (total (records ++ [record])) := by
  induction records generalizing offset save with
  | nil => simp [savedOffset, noPad]
  | cons head records ih =>
      simp only [List.cons_append, savedOffset, total_cons]
      rw [ih, Area.walk_walk]

/-- The forwards scan through records in sequence. -/
theorem fwdSeqno_inOrder {records : List Record} {offset stop save seqno next fuel : Nat}
    (chain : Chain area offset records stop) (order : seqAfter records seqno = some next)
    (enough : records.length ≤ fuel) :
    fwdSeqno area fuel offset save seqno =
      fwdSeqno area (fuel - records.length) stop (savedOffset area offset records save) next := by
  induction chain generalizing save seqno fuel with
  | nil offset =>
      obtain rfl := Option.some.inj order
      rfl
  | @cons offset stop record records inside positive fits fwd rev rest ih =>
      cases fuel with
      | zero => simp at enough
      | succ fuel =>
          rw [List.length_cons] at enough
          simp only [seqAfter] at order
          simp only [fwdSeqno, fwd, List.length_cons, Nat.add_sub_add_right, savedOffset]
          by_cases pad : record.body = .pad
          · rw [if_neg (not_not.mpr pad)] at order
            rw [if_neg (not_not.mpr pad), if_neg (not_not.mpr pad)]
            exact ih order (by omega)
          · rw [if_pos pad] at order
            rw [if_pos pad, if_pos pad]
            by_cases same : record.seq = seqno
            · rw [if_neg (not_not.mpr same)] at order ⊢
              exact ih order (by omega)
            · rw [if_pos same] at order
              cases order

/-- The forwards scan stops at the first record that is out of sequence. -/
theorem fwdSeqno_break {records : List Record} {offset stop save seqno other fuel : Nat}
    (chain : Chain area offset records stop) (found : firstSeq records = some other)
    (breaks : other ≠ seqno) (enough : records.length ≤ fuel) :
    fwdSeqno area fuel offset save seqno = .done (.ok (save, seqno)) := by
  induction chain generalizing fuel with
  | nil offset => cases found
  | @cons offset stop record records inside positive fits fwd rev rest ih =>
      cases fuel with
      | zero => simp at enough
      | succ fuel =>
          rw [List.length_cons] at enough
          simp only [firstSeq] at found
          simp only [fwdSeqno, fwd]
          by_cases pad : record.body = .pad
          · rw [if_neg (not_not.mpr pad)] at found ⊢
            exact ih found (by omega)
          · rw [if_pos pad] at found ⊢
            obtain rfl := Option.some.inj found
            rw [if_pos breaks]

end Loops

/-- What stage 1 finds on the media: a record in front of `first_offset`, the
active range in sequence with it, and a record behind the range that is not. -/
structure Active (area : Area) (state : Recovery) (start last : Nat) (records : List Record)
    (seqno next : Nat) (fuel : Nat) : Prop where
  sane : area.Sane
  inside : area.Inside start
  names : area.Names state.firstOffset start
  header : state.nextOffset ≤ area.allocOffset
  behind : ∃ offset front, Chain area offset front start ∧
    firstSeq front.reverse = some seqno ∧ front.length ≤ fuel
  chain : Chain area start records last
  order : seqAfter records (seqSucc seqno) = some next
  ending : ∃ front record, records = front ++ [record] ∧ record.body ≠ .pad
  ahead : ∃ stop rest other, Chain area last rest stop ∧ firstSeq rest = some other ∧
    other ≠ next ∧ records.length + rest.length ≤ fuel
  short : total records < area.allocOffset - undoBase

/-- The state in which the UNDO records are run. -/
def Recovery.found (state : Recovery) (seqno next : Nat) : Recovery :=
  { state with stage2Offset := 0, stage2Seqno := seqSucc seqno, undoSeqno := next }

/-- Stage 1 runs the UNDO records of the active range backwards. -/
theorem recoverStage1_active {area : Area} {state : Recovery} {start last seqno next fuel : Nat}
    {records : List Record} (active : Active area state start last records seqno next fuel) :
    recoverStage1 area fuel state =
      .done (match applyAll records.reverse (state.found seqno next) with
        | (some errno, state) => (some errno, state)
        | (none, after) =>
            (none, { after with firstOffset := state.firstOffset, nextOffset := last })) := by
  obtain ⟨sane, inside, names, header, ⟨offset, front, chainFront, foundSeq, enoughFront⟩, chain,
    order, ⟨init, final, recordsEq, noPad⟩, ⟨stop, rest, other, chainRest, foundOther, breaks,
    enough⟩, short⟩ := active
  have lastEq := chain.stop_eq inside
  have saved : savedOffset area start records state.firstOffset = last := by
    rw [lastEq, recordsEq, savedOffset_last noPad]
  have nonempty : records ≠ [] := by
    rw [recordsEq]
    simp
  have back : backSeqno area fuel state.firstOffset = .done (.ok seqno) := by
    rw [backSeqno_names names]
    exact backSeqno_chain chainFront foundSeq enoughFront
  have forward : fwdSeqno area fuel state.firstOffset state.firstOffset (seqSucc seqno) =
      .done (.ok (last, next)) := by
    rw [fwdSeqno_names sane names, fwdSeqno_inOrder chain order (by omega), saved]
    exact fwdSeqno_break chainRest foundOther breaks (by omega)
  obtain ⟨spanEq, _⟩ := Area.span_names sane inside names (chain.total_pos nonempty) short
  rw [← lastEq] at spanEq
  have firstBound : state.firstOffset ≤ area.allocOffset := by
    rcases names with same | ⟨same, _⟩
    · exact same ▸ inside.2.le
    · exact same.le
  have restNonempty : 0 < rest.length := by
    cases rest with
    | nil => cases foundOther
    | cons => simp
  have ran := @undoLoop_chain area sane start _ inside names records last fuel
    (state.found seqno next) chain short (by omega)
  have limit := sane.limit_eq
  have positive := chain.total_pos nonempty
  unfold recoverStage1
  dsimp only
  rw [if_neg (by omega), back]
  simp only [Outcome.bind]
  rw [forward]
  dsimp only
  unfold Recovery.found at ran ⊢
  rw [spanEq, if_neg (by omega), if_neg (by omega), ran]
  rcases applyAll records.reverse _ with ⟨_ | errno, after⟩ <;> rfl

end Dragonfly.Hammer.Fifo
