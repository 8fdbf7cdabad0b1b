import Dragonfly.Jscan.Scan

/-!
# What `jread` finds

Every kind of read in terms of the sequence of the raw records of all files: where it starts, and
what of the sequence lies in front of it.
-/

namespace Dragonfly.Jscan

variable {raws : Nat → List Raw} {jf after : Jfile} {done todo : List Raw}

/-! ## The reader's place in the journal -/

/-- Passes that are enough for any read of the journal. -/
def passes (raws : Nat → List Raw) (jf : Jfile) : Nat :=
  (entries raws jf).length + (jf.seqEnd - jf.seqBeg) + 1

/-- The records of the journal, split at the reader. -/
theorem Stands.entries_eq (stands : Stands raws jf done todo) :
    entries raws jf = behind raws jf done ++ ahead raws jf done todo := by
  have low := stands.settled.low
  have high := stands.settled.high
  have file := placed_append jf.seq 0 done todo
  rw [← stands.split, Nat.zero_add] at file
  have count : jf.seqEnd + 1 - jf.seqBeg = (jf.seq - jf.seqBeg) + (jf.seqEnd - jf.seq + 1) := by omega
  unfold entries behind ahead
  rw [count, entriesOf_add, Nat.add_sub_cancel' low, entriesOf_succ, fileEntries, file,
    List.append_assoc, List.append_assoc]

/-- A record of the journal is where its entry says. -/
theorem Holds.entry_split (holds : Holds raws jf) {entry : Entry} {before beyond : List Entry}
    (split : entries raws jf = before ++ entry :: beyond) :
    ∃ done todo, jf.seqBeg ≤ entry.seq ∧ entry.seq ≤ jf.seqEnd ∧
      raws entry.seq = done ++ entry.raw :: todo ∧ entry.pos = (stream done).length ∧
      before = behind raws { jf with seq := entry.seq } done ∧
      beyond = ahead raws { jf with seq := entry.seq } (done ++ [entry.raw]) todo := by
  obtain ⟨skip, more, inside, outside, sum, file, left, right⟩ := entriesOf_split split
  obtain ⟨done, todo, whole, same, first, second⟩ := placed_split file
  have ordered := holds.ordered
  have seq : entry.seq = jf.seqBeg + skip := by rw [same]
  have pos : entry.pos = 0 + (stream done).length := by rw [same]
  rw [Nat.zero_add] at pos
  refine ⟨done, todo, by omega, by omega, by rw [seq]; exact whole, pos, ?_, ?_⟩
  · rw [left, first]
    unfold behind
    show _ = entriesOf raws jf.seqBeg (entry.seq - jf.seqBeg) ++ placed entry.seq 0 done
    rw [seq, Nat.add_sub_cancel_left]
  · rw [right, second]
    unfold ahead
    show _ = placed entry.seq _ todo ++ entriesOf raws (entry.seq + 1) (jf.seqEnd - entry.seq)
    rw [seq, Nat.zero_add]
    congr 2
    omega

/-- The file of a record of the journal is opened. -/
theorem Settled.reopened (settled : Settled raws jf) {seq : Nat} (low : jf.seqBeg ≤ seq)
    (high : seq ≤ jf.seqEnd) (filled : raws seq ≠ []) :
    SameInput jf (reopen jf seq) ∧ (reopen jf seq).seq = seq ∧ Settled raws (reopen jf seq) ∧
      (reopen jf seq).fd = some (stream (raws seq)) := by
  have holds := settled.holds
  obtain ⟨contents, there⟩ : ∃ contents, jf.source.file seq = some contents := by
    cases there : jf.source.file seq with
    | none => exact absurd (holds.raws_eq_nil low high there) filled
    | some contents => exact ⟨contents, rfl⟩
  have same := holds.file_eq low high there
  cases set : jf.source.isPrefix with
  | false =>
      obtain ⟨opened, first, final⟩ := holds.single set
      have here : jf.seq = seq := by omega
      have eq : reopen jf seq = jf := by
        unfold reopen
        rw [set]
        rfl
      rw [eq]
      exact ⟨SameInput.refl jf, here, settled, by rw [opened, here, there, same]⟩
  | true =>
      have fd : (if (if jf.fd.isSome = true ∧ jf.seq ≠ seq then none else jf.fd).isNone = true then
          jf.source.file seq else (if jf.fd.isSome = true ∧ jf.seq ≠ seq then none else jf.fd)) =
          some (stream (raws seq)) := by
        rcases settled.opened with closed | opened
        · simp [closed, there, same]
        · by_cases here : jf.seq = seq
          · simp [here ▸ opened, here]
          · simp [opened, here, there, same]
      have eq : reopen jf seq = { jf with seq := seq, fd := some (stream (raws seq)) } := by
        unfold reopen
        rw [if_pos set]
        simp only [fd]
      rw [eq]
      refine ⟨⟨rfl, rfl, rfl⟩, rfl, ⟨?_, low, high, Or.inr rfl⟩, rfl⟩
      refine holds.of_same ⟨rfl, rfl, rfl⟩ ?_
      rw [set]
      exact nofun

/-- The reader in front of a record of the journal. -/
theorem Settled.locate (settled : Settled raws jf) {entry : Entry} {before beyond : List Entry}
    (split : entries raws jf = before ++ entry :: beyond) :
    ∃ done todo, SameInput jf (reopen jf entry.seq) ∧ entry.pos = (stream done).length ∧
      Stands raws { reopen jf entry.seq with pos := (stream done).length } done (entry.raw :: todo) ∧
      (reopen jf entry.seq).fd ≠ none ∧ behind raws (reopen jf entry.seq) done = before ∧
      ahead raws (reopen jf entry.seq) (done ++ [entry.raw]) todo = beyond := by
  obtain ⟨done, todo, low, high, file, pos, left, right⟩ := settled.holds.entry_split split
  have filled : raws entry.seq ≠ [] := by
    rw [file]
    exact List.append_ne_nil_of_right_ne_nil done (List.cons_ne_nil entry.raw todo)
  obtain ⟨same, seq, kept, opened⟩ := settled.reopened low high filled
  refine ⟨done, todo, same, pos, ?_, ?_, ?_, ?_⟩
  · apply kept.stands
    · rw [seq]
      exact opened
    · rw [seq]
      exact file
  · rw [opened]
    exact nofun
  · rw [left]
    unfold behind
    simp only [seq, same.seqBeg]
  · rw [right]
    unfold ahead
    simp only [seq, same.seqEnd]

/-- The passes are enough from any place of the journal. -/
theorem Stands.enough (stands : Stands raws jf done todo) :
    (ahead raws jf done todo).length + (jf.seqEnd - jf.seq) < passes raws jf ∧
      (behind raws jf done).length + (jf.seq - jf.seqBeg) < passes raws jf := by
  have low := stands.settled.low
  have high := stands.settled.high
  have length := congrArg List.length stands.entries_eq
  rw [List.length_append] at length
  unfold passes
  omega

theorem SameInput.passes_eq (same : SameInput jf after) : passes raws after = passes raws jf := by
  unfold passes
  rw [same.entries_eq, same.seqBeg, same.seqEnd]

/-- A forwards read behind a record returns the next record that is not a pad. -/
theorem jread_next (modes : Modes) (stale : Nat) {fuel : Nat} (settled : Settled raws jf)
    {entry : Entry} {before beyond : List Entry} (split : entries raws jf = before ++ entry :: beyond)
    (enough : passes raws jf ≤ fuel) :
    Answers raws jf modes.loopForever (beyond.find? Entry.isRecord)
      (jread modes stale fuel jf (some entry.jdata) .forwards) := by
  obtain ⟨done, todo, same, pos, stands, opened, _, right⟩ := settled.locate split
  have place : (entry.jdata.pos + entry.jdata.size : Int) = (stream (done ++ [entry.raw])).length := by
    rw [stream_append, List.length_append, stream_cons, stream_nil, List.append_nil]
    show (entry.pos : Int) + entry.raw.size = _
    rw [pos]
    rfl
  have stands := stands.forward
  rw [← same.passes_eq] at enough
  have found := scan_forwards modes stale fuel stands (Nat.lt_of_lt_of_le stands.enough.1 enough)
  have list : ahead raws { reopen jf entry.seq with pos := (stream (done ++ [entry.raw])).length }
      (done ++ [entry.raw]) todo = beyond := right
  rw [list] at found
  unfold jread jreadFrom
  simp only [reduceCtorEq, or_self, if_false, if_true, place]
  have here : entry.jdata.seq = entry.seq := rfl
  rw [here, stands.top_eq opened]
  exact found.of_same ⟨same.source, same.seqBeg, same.seqEnd⟩

/-- A backwards read in front of a record returns the raw record before it, or none at all. -/
theorem jread_prev (modes : Modes) (stale : Nat) {fuel : Nat} (settled : Settled raws jf)
    {entry : Entry} {before beyond : List Entry} (split : entries raws jf = before ++ entry :: beyond)
    (enough : passes raws jf ≤ fuel) :
    Answers raws jf false (if stale = streamidPad then none else before.getLast?)
      (jread modes stale fuel jf (some entry.jdata) .backwards) := by
  obtain ⟨done, todo, same, pos, stands, opened, left, _⟩ := settled.locate split
  have place : entry.jdata.pos = (stream done).length := by
    show (entry.pos : Int) = _
    rw [pos]
  rw [← same.passes_eq] at enough
  have found := scan_backwards modes stale fuel stands (Nat.lt_of_lt_of_le stands.enough.2 enough)
  have list : behind raws { reopen jf entry.seq with pos := (stream done).length } done = before := left
  rw [list] at found
  unfold jread jreadFrom
  simp only [reduceCtorEq, or_self, if_false, place]
  have here : entry.jdata.seq = entry.seq := rfl
  rw [here, stands.top_eq opened]
  exact found.of_same ⟨same.source, same.seqBeg, same.seqEnd⟩

/-- A descriptor is always open. -/
theorem Holds.single_opened (holds : Holds raws jf) (single : jf.source.isPrefix = false) :
    Settled raws jf ∧ jf.fd = some (stream (raws jf.seq)) := by
  obtain ⟨opened, first, final⟩ := holds.single single
  have fd : jf.fd = some (stream (raws jf.seq)) := by
    cases there : jf.source.file jf.seq with
    | none =>
        rw [there] at opened
        exact absurd (holds.isPrefix_of_closed opened) (by rw [single]; decide)
    | some contents => rw [opened, there, holds.file_eq (by omega) (by omega) there]
  exact ⟨⟨holds, by omega, by omega, Or.inr fd⟩, fd⟩

/-- The reader at the start of a file. -/
theorem Holds.rewind (holds : Holds raws jf) {seq : Nat} (low : jf.seqBeg ≤ seq) (high : seq ≤ jf.seqEnd)
    {start : Jfile} (eq : start =
      if jf.source.isPrefix then { jf with fd := none, seq := seq } else { jf with pos := 0 }) :
    SameInput jf (top start .forwards) ∧ (top start .forwards).seq = seq ∧
      Stands raws (top start .forwards) [] (raws seq) := by
  cases set : jf.source.isPrefix with
  | true =>
      rw [if_pos set] at eq
      subst eq
      have kept : Holds raws { jf with fd := none, seq := seq } := by
        refine holds.of_same ⟨rfl, rfl, rfl⟩ ?_
        rw [set]
        exact nofun
      obtain ⟨same, place, stands⟩ := top_forwards kept low high rfl
      exact ⟨⟨same.source, same.seqBeg, same.seqEnd⟩, place, stands⟩
  | false =>
      rw [set] at eq
      simp only [Bool.false_eq_true, if_false] at eq
      subst eq
      obtain ⟨settled, fd⟩ := holds.single_opened set
      obtain ⟨_, first, final⟩ := holds.single set
      have here : jf.seq = seq := by omega
      have stands : Stands raws { jf with pos := (stream []).length } [] (raws jf.seq) :=
        settled.stands fd rfl
      have still := stands.top_eq (by rw [fd]; exact nofun) .forwards
      rw [← here]
      rw [show (0 : Int) = ((stream []).length : Int) from rfl, still]
      exact ⟨⟨rfl, rfl, rfl⟩, rfl, stands⟩

/-- The reader at the end of a file. -/
theorem Holds.wind (holds : Holds raws jf) {seq : Nat} (low : jf.seqBeg ≤ seq) (high : seq ≤ jf.seqEnd)
    {start : Jfile} (eq : start =
      if jf.source.isPrefix then { jf with fd := none, seq := seq }
      else { jf with pos := ((jf.fd.getD []).length : Int) }) :
    SameInput jf (top start .backwards) ∧ (top start .backwards).seq = seq ∧
      Stands raws (top start .backwards) (raws seq) [] := by
  cases set : jf.source.isPrefix with
  | true =>
      rw [if_pos set] at eq
      subst eq
      have kept : Holds raws { jf with fd := none, seq := seq } := by
        refine holds.of_same ⟨rfl, rfl, rfl⟩ ?_
        rw [set]
        exact nofun
      obtain ⟨same, place, stands⟩ := top_backwards kept low high rfl
      exact ⟨⟨same.source, same.seqBeg, same.seqEnd⟩, place, stands⟩
  | false =>
      rw [set] at eq
      simp only [Bool.false_eq_true, if_false] at eq
      subst eq
      obtain ⟨settled, fd⟩ := holds.single_opened set
      obtain ⟨_, first, final⟩ := holds.single set
      have here : jf.seq = seq := by omega
      have stands : Stands raws { jf with pos := (stream (raws jf.seq)).length } (raws jf.seq) [] :=
        settled.stands fd (List.append_nil _).symm
      have still := stands.top_eq (by rw [fd]; exact nofun) .backwards
      have place : ((jf.fd.getD []).length : Int) = (stream (raws jf.seq)).length := by
        rw [fd]
        rfl
      rw [← here]
      rw [place, still]
      exact ⟨⟨rfl, rfl, rfl⟩, rfl, stands⟩

theorem scan_start (modes : Modes) (stale : Nat) {fuel : Nat} (holds : Holds raws jf) {seq : Nat}
    (low : jf.seqBeg ≤ seq) (high : seq ≤ jf.seqEnd) {start : Jfile} (eq : start =
      if jf.source.isPrefix then { jf with fd := none, seq := seq } else { jf with pos := 0 })
    (enough : passes raws jf ≤ fuel) :
    Answers raws jf modes.loopForever
      ((entriesOf raws seq (jf.seqEnd - seq + 1)).find? Entry.isRecord)
      (scan modes stale .forwards fuel (top start .forwards)) := by
  obtain ⟨same, here, stands⟩ := holds.rewind low high eq
  rw [← same.passes_eq] at enough
  have found := scan_forwards modes stale fuel stands (Nat.lt_of_lt_of_le stands.enough.1 enough)
  rw [← here, ahead_start, here, same.seqEnd] at found
  exact found.of_same same

theorem scan_end (modes : Modes) (stale : Nat) {fuel : Nat} (holds : Holds raws jf) {seq : Nat}
    (low : jf.seqBeg ≤ seq) (high : seq ≤ jf.seqEnd) {start : Jfile} (eq : start =
      if jf.source.isPrefix then { jf with fd := none, seq := seq }
      else { jf with pos := ((jf.fd.getD []).length : Int) })
    (enough : passes raws jf ≤ fuel) :
    Answers raws jf false
      (if stale = streamidPad then none else (entriesOf raws jf.seqBeg (seq - jf.seqBeg + 1)).getLast?)
      (scan modes stale .backwards fuel (top start .backwards)) := by
  obtain ⟨same, here, stands⟩ := holds.wind low high eq
  rw [← same.passes_eq] at enough
  have found := scan_backwards modes stale fuel stands (Nat.lt_of_lt_of_le stands.enough.2 enough)
  have low' : (top start .backwards).seqBeg ≤ (top start .backwards).seq := by
    rw [same.seqBeg, here]
    exact low
  rw [← here, behind_end raws _ low', here, same.seqBeg] at found
  exact found.of_same same

/-- The first record of the journal. -/
theorem jread_first (modes : Modes) (stale : Nat) {fuel : Nat} (holds : Holds raws jf)
    (enough : passes raws jf ≤ fuel) :
    Answers raws jf modes.loopForever ((entries raws jf).find? Entry.isRecord)
      (jread modes stale fuel jf none .forwards) := by
  have count : jf.seqEnd + 1 - jf.seqBeg = jf.seqEnd - jf.seqBeg + 1 := by
    have := holds.ordered
    omega
  unfold entries
  rw [count]
  exact scan_start modes stale holds (Nat.le_refl _) holds.ordered rfl enough

/-- The last raw record of the journal. -/
theorem jread_last (modes : Modes) (stale : Nat) {fuel : Nat} (holds : Holds raws jf)
    (enough : passes raws jf ≤ fuel) :
    Answers raws jf false (if stale = streamidPad then none else (entries raws jf).getLast?)
      (jread modes stale fuel jf none .backwards) := by
  have count : jf.seqEnd + 1 - jf.seqBeg = jf.seqEnd - jf.seqBeg + 1 := by
    have := holds.ordered
    omega
  unfold entries
  rw [count]
  exact scan_end modes stale holds holds.ordered (Nat.le_refl _) rfl enough

/-- The first record from the file of the sequence number on. -/
theorem jread_seqfirst (modes : Modes) (stale : Nat) {fuel : Nat} (holds : Holds raws jf)
    (low : jf.seqBeg ≤ jf.seq) (high : jf.seq ≤ jf.seqEnd) (enough : passes raws jf ≤ fuel) :
    Answers raws jf modes.loopForever
      ((entriesOf raws jf.seq (jf.seqEnd - jf.seq + 1)).find? Entry.isRecord)
      (jread modes stale fuel jf none .seqfirst) :=
  scan_start modes stale holds low high rfl enough

/-- The last raw record up to the file of the sequence number. -/
theorem jread_seqlast (modes : Modes) (stale : Nat) {fuel : Nat} (holds : Holds raws jf)
    (low : jf.seqBeg ≤ jf.seq) (high : jf.seq ≤ jf.seqEnd) (enough : passes raws jf ≤ fuel) :
    Answers raws jf false
      (if stale = streamidPad then none
        else (entriesOf raws jf.seqBeg (jf.seq - jf.seqBeg + 1)).getLast?)
      (jread modes stale fuel jf none .seqlast) :=
  scan_end modes stale holds low high rfl enough

/-! ## A descriptor -/

/-- A descriptor that was just opened on raw records. -/
theorem jopenFd_holds (raws : List Raw) : Holds (fun _ => raws) (jopenFd (stream raws)) := by
  constructor
  · exact Nat.le_refl 0
  · exact Nat.zero_lt_succ _
  · intro seq low high
    rfl
  · intro set
    cases set
  · intro single
    exact ⟨rfl, rfl, rfl⟩

theorem jopenFd_entries (raws : List Raw) :
    entries (fun _ => raws) (jopenFd (stream raws)) = placed 0 0 raws :=
  List.append_nil _

/-- The contents of a file with one record and a pad behind it. -/
def paddedRaws (_ : Nat) : List Raw := [firstRecord, smallPad]

/-- A file with one record and a pad behind it. -/
def paddedFile : Jfile := jopenFd (stream [firstRecord, smallPad])

theorem paddedFile_holds : Holds paddedRaws paddedFile := jopenFd_holds _

theorem paddedFile_entries : entries paddedRaws paddedFile =
    [⟨0, 0, firstRecord⟩, ⟨0, 32, smallPad⟩] := jopenFd_entries _

end Dragonfly.Jscan
