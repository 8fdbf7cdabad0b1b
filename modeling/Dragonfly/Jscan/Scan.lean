import Dragonfly.Jscan.Entries

/-!
# The loops of `jread` on well-formed records

A pass of a loop moves the reader over one raw record, and at the end of a file the reader goes
on in the next one.  So the forwards loop returns the next record that is not a pad.  The
backwards loop returns the previous raw record, pads included, unless the variable it tests holds
the stream id of a pad: then it skips every record there is.
-/

namespace Dragonfly.Jscan

variable {raws : Nat → List Raw} {jf after : Jfile} {done todo : List Raw} {raw : Raw}

namespace SameInput

theorem refl (jf : Jfile) : SameInput jf jf := ⟨rfl, rfl, rfl⟩

theorem trans {final : Jfile} (first : SameInput jf after) (second : SameInput after final) :
    SameInput jf final :=
  ⟨second.source.trans first.source, second.seqBeg.trans first.seqBeg, second.seqEnd.trans first.seqEnd⟩

theorem entries_eq (same : SameInput jf after) : entries raws after = entries raws jf := by
  unfold entries
  rw [same.seqBeg, same.seqEnd]

end SameInput

/-- A file that is not open differs in nothing that matters to the next read from the start. -/
theorem Holds.of_same (holds : Holds raws jf) (same : SameInput jf after)
    (kept : jf.source.isPrefix = false → after.fd = jf.fd ∧ after.seq = jf.seq) :
    Holds raws after := by
  constructor
  · rw [same.seqBeg, same.seqEnd]
    exact holds.ordered
  · rw [same.seqEnd]
    exact holds.numbered
  · rw [same.seqBeg, same.seqEnd, same.source]
    exact holds.files
  · rw [same.seqEnd, same.source]
    exact holds.last
  · rw [same.source, same.seqBeg, same.seqEnd]
    intro single
    obtain ⟨fd, seq⟩ := kept single
    rw [fd, seq]
    exact holds.single single

theorem Holds.file_eq (holds : Holds raws jf) {seq : Nat} (low : jf.seqBeg ≤ seq) (high : seq ≤ jf.seqEnd)
    {contents : List UInt8} (there : jf.source.file seq = some contents) : contents = stream (raws seq) := by
  rw [← holds.files seq low high, there]
  rfl

theorem stream_eq_nil {list : List Raw} (empty : stream list = []) : list = [] := by
  cases list with
  | nil => rfl
  | cons raw list =>
      have least := raw.isRaw.least
      rw [stream_cons, List.append_eq_nil_iff] at empty
      rw [empty.1] at least
      exact absurd least (by decide)

theorem Holds.raws_eq_nil (holds : Holds raws jf) {seq : Nat} (low : jf.seqBeg ≤ seq) (high : seq ≤ jf.seqEnd)
    (missing : jf.source.file seq = none) : raws seq = [] := by
  apply stream_eq_nil
  rw [← holds.files seq low high, missing]
  rfl

/-! ## Reading bytes -/

theorem jreadbuf_forwards (jf : Jfile) (before middle behind : List UInt8)
    (opened : jf.fd = some (before ++ middle ++ behind)) (place : jf.pos = before.length) :
    jreadbuf jf .forwards middle.length = (middle, { jf with pos := jf.pos + middle.length }) := by
  have buffer : ((before ++ middle ++ behind).drop jf.pos.toNat).take middle.length = middle := by
    rw [place, Int.toNat_natCast, List.append_assoc, List.drop_left', List.take_left']
    · rfl
    · rfl
  unfold jreadbuf
  rw [opened]
  simp only [if_true, buffer]

theorem jreadbuf_backwards (jf : Jfile) (before middle behind : List UInt8)
    (opened : jf.fd = some (before ++ middle ++ behind))
    (place : jf.pos = (before ++ middle).length) :
    jreadbuf jf .backwards middle.length = (middle, { jf with pos := before.length }) := by
  have start : jf.pos - middle.length = before.length := by
    rw [place, List.length_append]
    omega
  have buffer : ((before ++ middle ++ behind).drop before.length).take middle.length = middle := by
    rw [List.append_assoc, List.drop_left', List.take_left']
    · rfl
    · rfl
  unfold jreadbuf
  rw [opened]
  have enough : (middle.length : Int) ≤ jf.pos := by omega
  simp only [reduceCtorEq, if_false, if_pos enough, start, Int.toNat_natCast, buffer]

/-! ## One pass -/

theorem Raw.headSize_eq (raw : Raw) : alignSize (recsize raw.bytes) = (raw.size : Int) :=
  raw.isRaw.headSize

theorem Raw.sizes (raw : Raw) : ¬((raw.size : Int) < minRecSize ∨ maxRecSize < (raw.size : Int)) := by
  have least := raw.isRaw.least
  have most := raw.isRaw.most
  unfold Raw.size minRecSize maxRecSize
  omega

/-- At the end of a file the forwards loop ends. -/
theorem forwardPass_nil (stands : Stands raws jf done []) : forwardPass jf = .ended 0 jf := by
  rcases stands.place with ⟨opened, place⟩ | ⟨closed, _, _⟩
  · have short : jreadbuf jf .forwards sizeofRawrecbeg = ([], jf) := by
      cases jf
      cases opened
      cases place
      simp [jreadbuf]
    unfold forwardPass
    rw [short]
    rfl
  · unfold forwardPass jreadbuf
    rw [closed]
    rfl

/-- In front of a raw record the forwards loop reads it, whatever comes behind it. -/
theorem forwardPass_raw {before behind : List UInt8} (opened : jf.fd = some (before ++ raw.bytes ++ behind))
    (place : jf.pos = before.length) :
    forwardPass jf =
      if raw.IsPad then .again { jf with pos := (before ++ raw.bytes).length }
      else .found (Entry.jdata ⟨jf.seq, before.length, raw⟩)
        { jf with pos := (before ++ raw.bytes).length } := by
  have least := raw.isRaw.least
  have headLength : (raw.bytes.take 16).length = 16 := by
    rw [List.length_take]
    omega
  have whole : raw.bytes.take 16 ++ raw.bytes.drop 16 = raw.bytes := List.take_append_drop 16 raw.bytes
  have restLength : (raw.bytes.drop 16).length = raw.size - 16 := List.length_drop
  have contents : before ++ raw.bytes ++ behind =
      before ++ raw.bytes.take 16 ++ (raw.bytes.drop 16 ++ behind) := by
    rw [List.append_assoc before, List.append_assoc, ← List.append_assoc (raw.bytes.take 16), whole]
  have headRead : jreadbuf jf .forwards sizeofRawrecbeg =
      (raw.bytes.take 16, { jf with pos := jf.pos + 16 }) := by
    have read := jreadbuf_forwards jf _ _ _ (opened.trans (congrArg some contents)) place
    rw [headLength] at read
    exact read
  have restRead : jreadbuf { jf with pos := jf.pos + 16 } .forwards (raw.size - 16) =
      (raw.bytes.drop 16, { jf with pos := jf.pos + 16 + (raw.bytes.drop 16).length }) := by
    have read := jreadbuf_forwards { jf with pos := jf.pos + 16 }
      (before ++ raw.bytes.take 16) (raw.bytes.drop 16) behind
      (by rw [opened, contents, List.append_assoc, List.append_assoc, List.append_assoc])
      (by rw [place, List.length_append, headLength]; rfl)
    rw [restLength] at read ⊢
    exact read
  have final : jf.pos + 16 + (raw.bytes.drop 16).length = (before ++ raw.bytes).length := by
    rw [place, restLength, List.length_append]
    unfold Raw.size
    omega
  rw [final] at restRead
  unfold forwardPass
  rw [headRead]
  simp only [headLength, sizeofRawrecbeg, ne_eq, not_true_eq_false, if_false, begmagic_take (Nat.le_refl 16),
    recsize_take (by omega : 8 ≤ 16), streamid_take (Nat.le_refl 16), transid_take (Nat.le_refl 16),
    raw.isRaw.beg, raw.headSize_eq, Int.toNat_natCast, if_neg raw.sizes, restRead, restLength, whole]
  have tail : endmagic (raw.bytes.drop (raw.size - sizeofRawrecend)) = endMagic := raw.isRaw.fin
  simp only [tail, not_true_eq_false, if_false]
  have start : ((before ++ raw.bytes).length : Int) - raw.size = before.length := by
    rw [List.length_append]
    unfold Raw.size
    omega
  rw [start]
  rfl

theorem stream_concat (done : List Raw) (raw : Raw) : stream (done ++ [raw]) = stream done ++ raw.bytes := by
  rw [stream_append, stream_cons, stream_nil, List.append_nil]

/-- In front of a raw record of its file the reader moves over it. -/
theorem forwardPass_cons (stands : Stands raws jf done (raw :: todo)) :
    forwardPass jf =
      if raw.IsPad then .again { jf with pos := (stream (done ++ [raw])).length }
      else .found (Entry.jdata ⟨jf.seq, (stream done).length, raw⟩)
        { jf with pos := (stream (done ++ [raw])).length } := by
  obtain ⟨opened, place⟩ : jf.fd = some (stream (done ++ raw :: todo)) ∧
      jf.pos = (stream done).length := by
    rcases stands.place with there | ⟨_, _, empty⟩
    · exact there
    · cases empty
  rw [stream_concat]
  have contents : stream (done ++ raw :: todo) = stream done ++ raw.bytes ++ stream todo := by
    rw [stream_append, stream_cons, List.append_assoc]
  exact forwardPass_raw (opened.trans (congrArg some contents)) place

theorem Raw.tailSize_eq (raw : Raw) :
    alignSize (recsize (raw.bytes.drop (raw.size - 8))) = (raw.size : Int) :=
  raw.isRaw.tailSize

/-- At the start of a file the backwards loop ends. -/
theorem backwardPass_nil (stale : Nat) (stands : Stands raws jf [] todo) :
    backwardPass stale jf = .ended 0 jf := by
  have short : jreadbuf jf .backwards sizeofRawrecend = ([], jf) := by
    rcases stands.place with ⟨opened, place⟩ | ⟨closed, _, _⟩
    · unfold jreadbuf
      rw [opened, place]
      rfl
    · unfold jreadbuf
      rw [closed]
  unfold backwardPass
  rw [short]
  rfl

/-- Behind a raw record the backwards loop reads it. -/
theorem backwardPass_snoc (stale : Nat) (stands : Stands raws jf (done ++ [raw]) todo) :
    backwardPass stale jf =
      if stale = streamidPad then .again { jf with pos := (stream done).length }
      else .found (Entry.jdata ⟨jf.seq, (stream done).length, raw⟩)
        { jf with pos := (stream done).length } := by
  obtain ⟨opened, place⟩ : jf.fd = some (stream ((done ++ [raw]) ++ todo)) ∧
      jf.pos = (stream (done ++ [raw])).length := by
    rcases stands.place with there | ⟨_, empty, _⟩
    · exact there
    · exact absurd empty (List.append_ne_nil_of_right_ne_nil done (List.cons_ne_nil raw []))
  have least := raw.isRaw.least
  have tailLength : (raw.bytes.drop (raw.size - 8)).length = 8 := by
    rw [List.length_drop]
    unfold Raw.size
    omega
  have whole : raw.bytes.take (raw.size - 8) ++ raw.bytes.drop (raw.size - 8) = raw.bytes :=
    List.take_append_drop (raw.size - 8) raw.bytes
  have restLength : (raw.bytes.take (raw.size - 8)).length = raw.size - 8 := by
    rw [List.length_take]
    unfold Raw.size
    omega
  have record : stream (done ++ [raw]) =
      stream done ++ raw.bytes.take (raw.size - 8) ++ raw.bytes.drop (raw.size - 8) := by
    rw [stream_append, stream_cons, stream_nil, List.append_nil, List.append_assoc, whole]
  have contents := stream_append (done ++ [raw]) todo
  rw [record] at contents
  have tailRead : jreadbuf jf .backwards sizeofRawrecend =
      (raw.bytes.drop (raw.size - 8),
        { jf with pos := (stream done ++ raw.bytes.take (raw.size - 8)).length }) := by
    have read := jreadbuf_backwards jf _ _ _ (opened.trans (congrArg some contents))
      (place.trans (by rw [record]))
    rw [tailLength] at read
    exact read
  have restRead : jreadbuf
      { jf with pos := (stream done ++ raw.bytes.take (raw.size - 8)).length } .backwards (raw.size - 8) =
      (raw.bytes.take (raw.size - 8), { jf with pos := (stream done).length }) := by
    have read := jreadbuf_backwards
      { jf with pos := (stream done ++ raw.bytes.take (raw.size - 8)).length }
      (stream done) (raw.bytes.take (raw.size - 8)) (raw.bytes.drop (raw.size - 8) ++ stream todo)
      (by rw [opened, contents, List.append_assoc]) rfl
    rw [restLength] at read
    exact read
  unfold backwardPass
  rw [tailRead]
  have tailMagic : endmagic (raw.bytes.drop (raw.size - 8)) = endMagic := raw.isRaw.fin
  simp only [tailLength, sizeofRawrecend, ne_eq, not_true_eq_false, if_false, tailMagic, raw.tailSize_eq,
    Int.toNat_natCast, if_neg raw.sizes, restRead, restLength, whole, raw.isRaw.beg]
  rfl

/-! ## Moves of the reader -/

theorem Settled.move (settled : Settled raws jf) (pos : Int) : Settled raws { jf with pos := pos } := by
  constructor
  · exact settled.holds.of_same ⟨rfl, rfl, rfl⟩ (fun _ => ⟨rfl, rfl⟩)
  · exact settled.low
  · exact settled.high
  · exact settled.opened

/-- The reader in a file that is open. -/
theorem Settled.stands (settled : Settled raws jf) (opened : jf.fd = some (stream (raws jf.seq)))
    (split : raws jf.seq = done ++ todo) :
    Stands raws { jf with pos := (stream done).length } done todo := by
  constructor
  · exact settled.move _
  · exact split
  · left
    rw [← split]
    exact ⟨opened, rfl⟩

theorem Stands.opened (stands : Stands raws jf done todo) (some : raws jf.seq ≠ []) :
    jf.fd = .some (stream (raws jf.seq)) := by
  rcases stands.place with ⟨there, _⟩ | ⟨_, rfl, rfl⟩
  · rw [there, stands.split]
  · exact absurd stands.split some

theorem Stands.forward (stands : Stands raws jf done (raw :: todo)) :
    Stands raws { jf with pos := (stream (done ++ [raw])).length } (done ++ [raw]) todo := by
  have filled : raws jf.seq ≠ [] := by
    rw [stands.split]
    exact List.append_ne_nil_of_right_ne_nil done (List.cons_ne_nil raw todo)
  apply stands.settled.stands (stands.opened filled)
  rw [stands.split, List.append_assoc]
  rfl

theorem Stands.backward (stands : Stands raws jf (done ++ [raw]) todo) :
    Stands raws { jf with pos := (stream done).length } done (raw :: todo) := by
  have split : raws jf.seq = done ++ raw :: todo := by
    rw [stands.split, List.append_assoc]
    rfl
  have filled : raws jf.seq ≠ [] := by
    rw [split]
    exact List.append_ne_nil_of_right_ne_nil done (List.cons_ne_nil raw todo)
  exact stands.settled.stands (stands.opened filled) split

theorem ahead_cons (raws : Nat → List Raw) (jf : Jfile) (done todo : List Raw) (raw : Raw) :
    ahead raws jf done (raw :: todo) =
      ⟨jf.seq, (stream done).length, raw⟩ :: ahead raws jf (done ++ [raw]) todo := by
  unfold ahead
  rw [stream_append, List.length_append, stream_cons, stream_nil, List.append_nil]
  rfl

theorem behind_snoc (raws : Nat → List Raw) (jf : Jfile) (done : List Raw) (raw : Raw) :
    behind raws jf (done ++ [raw]) =
      behind raws jf done ++ [⟨jf.seq, (stream done).length, raw⟩] := by
  unfold behind
  rw [placed_append, ← List.append_assoc, Nat.zero_add]
  rfl

theorem ahead_start (raws : Nat → List Raw) (jf : Jfile) :
    ahead raws jf [] (raws jf.seq) = entriesOf raws jf.seq (jf.seqEnd - jf.seq + 1) :=
  (entriesOf_succ jf.seq (jf.seqEnd - jf.seq)).symm

theorem behind_end (raws : Nat → List Raw) (jf : Jfile) (low : jf.seqBeg ≤ jf.seq) :
    behind raws jf (raws jf.seq) = entriesOf raws jf.seqBeg (jf.seq - jf.seqBeg + 1) := by
  rw [entriesOf_add, Nat.add_sub_cancel' low]
  unfold behind
  congr 1
  exact (List.append_nil _).symm

/-- A reader in an open file need not be moved. -/
theorem Stands.top_eq (stands : Stands raws jf done todo) (opened : jf.fd ≠ none)
    (direction : Direction) : top jf direction = jf := by
  rcases stands.place with ⟨there, place⟩ | ⟨closed, _⟩
  · have aligned : jf.pos % 16 = 0 := by
      rw [place]
      exact_mod_cast stream_aligned done
    unfold top
    simp only [there, aligned, ne_eq, not_true_eq_false, if_false]
  · exact absurd closed opened

/-- Only the files of a prefix set are ever closed. -/
theorem Holds.isPrefix_of_closed (holds : Holds raws jf) (closed : jf.fd = none) :
    jf.source.isPrefix = true := by
  cases set : jf.source with
  | prefixSet files => rfl
  | descriptor contents =>
      have single : jf.source.isPrefix = false := by
        rw [set]
        rfl
      have opened := (holds.single single).1
      rw [closed, set] at opened
      cases opened

/-- Only a prefix set has more than one file. -/
theorem Holds.isPrefix_of_lt (holds : Holds raws jf) (several : jf.seqBeg < jf.seqEnd) :
    jf.source.isPrefix = true := by
  cases set : jf.source.isPrefix with
  | true => rfl
  | false =>
      have one := holds.single set
      omega

theorem top_missing (closed : jf.fd = none) (missing : jf.source.file jf.seq = none)
    (direction : Direction) : ∃ pos, top jf direction = { jf with pos := pos } := by
  unfold top
  simp only [closed, missing]
  have odd : ¬(-1 : Int) % 16 = 0 := by decide
  rw [if_pos odd]
  unfold jalign jreadbuf
  rw [if_pos odd]
  by_cases forwards : direction = .forwards
  · rw [if_pos forwards]
    exact ⟨_, rfl⟩
  · rw [if_neg forwards]
    exact ⟨_, rfl⟩

/-- The reader at the start of a file that was just opened, or could not be. -/
theorem top_forwards (holds : Holds raws jf) (low : jf.seqBeg ≤ jf.seq) (high : jf.seq ≤ jf.seqEnd)
    (closed : jf.fd = none) :
    SameInput jf (top jf .forwards) ∧ (top jf .forwards).seq = jf.seq ∧
      Stands raws (top jf .forwards) [] (raws jf.seq) := by
  have set := holds.isPrefix_of_closed closed
  cases there : jf.source.file jf.seq with
  | none =>
      obtain ⟨pos, eq⟩ := top_missing closed there .forwards
      rw [eq]
      refine ⟨⟨rfl, rfl, rfl⟩, rfl, ?_, rfl, ?_⟩
      · exact Settled.move ⟨holds, low, high, Or.inl closed⟩ pos
      · exact Or.inr ⟨closed, rfl, holds.raws_eq_nil low high there⟩
  | some contents =>
      have same := holds.file_eq low high there
      have eq : top jf .forwards = { jf with fd := some (stream (raws jf.seq)), pos := 0 } := by
        unfold top
        simp only [closed, there, same, if_true]
        rw [if_neg (by decide)]
      rw [eq]
      refine ⟨⟨rfl, rfl, rfl⟩, rfl, ?_, rfl, Or.inl ⟨rfl, rfl⟩⟩
      refine ⟨holds.of_same ⟨rfl, rfl, rfl⟩ ?_, low, high, Or.inr rfl⟩
      rw [set]
      exact nofun

/-- The reader at the end of a file that was just opened, or could not be. -/
theorem top_backwards (holds : Holds raws jf) (low : jf.seqBeg ≤ jf.seq) (high : jf.seq ≤ jf.seqEnd)
    (closed : jf.fd = none) :
    SameInput jf (top jf .backwards) ∧ (top jf .backwards).seq = jf.seq ∧
      Stands raws (top jf .backwards) (raws jf.seq) [] := by
  have set := holds.isPrefix_of_closed closed
  cases there : jf.source.file jf.seq with
  | none =>
      obtain ⟨pos, eq⟩ := top_missing closed there .backwards
      rw [eq]
      refine ⟨⟨rfl, rfl, rfl⟩, rfl, ?_, (List.append_nil _).symm, ?_⟩
      · exact Settled.move ⟨holds, low, high, Or.inl closed⟩ pos
      · exact Or.inr ⟨closed, holds.raws_eq_nil low high there, rfl⟩
  | some contents =>
      have same := holds.file_eq low high there
      have aligned : ((stream (raws jf.seq)).length : Int) % 16 = 0 := by
        exact_mod_cast stream_aligned (raws jf.seq)
      have eq : top jf .backwards =
          { jf with fd := some (stream (raws jf.seq)), pos := (stream (raws jf.seq)).length } := by
        unfold top
        simp only [closed, there, same, reduceCtorEq, if_false, aligned, ne_eq, not_true_eq_false]
      rw [eq]
      refine ⟨⟨rfl, rfl, rfl⟩, rfl, ?_, (List.append_nil _).symm, Or.inl ⟨?_, rfl⟩⟩
      · refine ⟨holds.of_same ⟨rfl, rfl, rfl⟩ ?_, low, high, Or.inr rfl⟩
        rw [set]
        exact nofun
      · rw [List.append_nil]

/-! ## The loops -/

/-- The reply is the wanted record; without one the reader waits or returns `NULL`. -/
def Answers (raws : Nat → List Raw) (jf : Jfile) (waits : Bool) (wanted : Option Entry)
    (reply : Reply) : Prop :=
  match wanted with
  | some entry => ∃ after, reply = .record entry.jdata after ∧ SameInput jf after ∧
      Settled raws after ∧ after.seq = entry.seq
  | none =>
      if waits then reply = .sleeps
      else ∃ after, reply = .null after ∧ SameInput jf after ∧ Settled raws after

theorem Answers.of_same {waits : Bool} {wanted : Option Entry} {reply : Reply}
    (answers : Answers raws after waits wanted reply) (same : SameInput jf after) :
    Answers raws jf waits wanted reply := by
  cases wanted with
  | some entry =>
      obtain ⟨final, eq, input, settled⟩ := answers
      exact ⟨final, eq, same.trans input, settled⟩
  | none =>
      unfold Answers at answers ⊢
      cases waits with
      | true => exact answers
      | false =>
          obtain ⟨final, eq, input, settled⟩ := answers
          exact ⟨final, eq, same.trans input, settled⟩

/-- Behind the last file a forwards read waits or comes back without a record. -/
theorem roll_last (modes : Modes) (settled : Settled raws jf) (final : jf.seq = jf.seqEnd) :
    roll modes .forwards 0 jf = if modes.loopForever then .sleeps else .null jf := by
  unfold roll
  by_cases set : jf.source.isPrefix = true
  · have absent : ¬(jf.source.file (jf.seq + 1)).isSome = true := by
      rw [final, settled.holds.last set]
      decide
    have whole : ¬jf.seq < jf.seqEnd := by omega
    rw [if_pos ⟨rfl, set⟩, if_pos rfl, if_neg whole, if_neg absent]
  · rw [if_neg (fun both => set both.2)]
    by_cases waits : modes.loopForever = true
    · rw [if_pos ⟨rfl, waits, rfl⟩, if_pos waits]
    · rw [if_neg (fun all => waits all.2.1), if_neg waits]

/-- In front of the first file a backwards read comes back without a record. -/
theorem roll_first (modes : Modes) (first : jf.seq = jf.seqBeg) :
    roll modes .backwards 0 jf = .null jf := by
  have whole : ¬jf.seqBeg < jf.seq := by omega
  unfold roll
  by_cases set : jf.source.isPrefix = true
  · rw [if_pos ⟨rfl, set⟩, if_neg (by decide), if_neg whole]
  · rw [if_neg (fun both => set both.2), if_neg (fun all => nomatch all.2.2)]

/-- The forwards loop returns the next record that is not a pad. -/
theorem scan_forwards (modes : Modes) (stale fuel : Nat) (stands : Stands raws jf done todo)
    (enough : (ahead raws jf done todo).length + (jf.seqEnd - jf.seq) < fuel) :
    Answers raws jf modes.loopForever ((ahead raws jf done todo).find? Entry.isRecord)
      (scan modes stale .forwards fuel jf) := by
  induction fuel generalizing jf done todo with
  | zero => omega
  | succ fuel ih =>
      have holds := stands.settled.holds
      cases todo with
      | cons raw todo =>
          rw [ahead_cons] at enough ⊢
          unfold scan
          simp only [if_true, forwardPass_cons stands]
          by_cases pad : raw.IsPad
          · have skips : Entry.isRecord ⟨jf.seq, (stream done).length, raw⟩ = false := by
              simp [Entry.isRecord, pad]
            rw [if_pos pad, List.find?_cons_of_neg (by rw [skips]; decide)]
            rw [List.length_cons] at enough
            have fewer : (ahead raws jf (done ++ [raw]) todo).length + (jf.seqEnd - jf.seq) < fuel := by omega
            exact (ih stands.forward fewer).of_same ⟨rfl, rfl, rfl⟩
          · have stops : Entry.isRecord ⟨jf.seq, (stream done).length, raw⟩ = true := by
              simp [Entry.isRecord, pad]
            rw [if_neg pad, List.find?_cons_of_pos stops]
            exact ⟨_, rfl, ⟨rfl, rfl, rfl⟩, stands.forward.settled, rfl⟩
      | nil =>
          unfold scan
          simp only [if_true, forwardPass_nil stands]
          by_cases more : jf.seq < jf.seqEnd
          · have set := holds.isPrefix_of_lt (Nat.lt_of_le_of_lt stands.settled.low more)
            let next : Jfile := { jf with seq := jf.seq + 1, fd := none }
            have rolled : roll modes .forwards 0 jf = .goto next := by
              unfold roll
              rw [if_pos ⟨rfl, set⟩, if_pos rfl, if_pos more]
            have same : SameInput jf next := ⟨rfl, rfl, rfl⟩
            have holds' : Holds raws next := holds.of_same same (fun single => absurd set (by simp [single]))
            obtain ⟨input, seq, opened⟩ := top_forwards holds' (Nat.le_succ_of_le stands.settled.low) more rfl
            have list : ahead raws (top next .forwards) [] (raws next.seq) = ahead raws jf done [] := by
              rw [← seq, ahead_start, seq, input.seqEnd]
              show entriesOf raws (jf.seq + 1) (jf.seqEnd - (jf.seq + 1) + 1) = [] ++ _
              rw [List.nil_append]
              congr 1
              omega
            rw [rolled, ← list]
            refine (ih opened ?_).of_same (same.trans input)
            rw [list, input.seqEnd, seq]
            show _ + (jf.seqEnd - (jf.seq + 1)) < fuel
            omega
          · have final : jf.seq = jf.seqEnd := Nat.le_antisymm stands.settled.high (Nat.le_of_not_lt more)
            have none' : ahead raws jf done [] = [] := by
              unfold ahead
              rw [final, Nat.sub_self]
              rfl
            rw [none', roll_last modes stands.settled final]
            unfold Answers
            cases modes.loopForever with
            | true => rfl
            | false => exact ⟨jf, rfl, SameInput.refl jf, stands.settled⟩

/-- The backwards loop returns the raw record behind the reader, or skips all of them. -/
theorem scan_backwards (modes : Modes) (stale fuel : Nat) (stands : Stands raws jf done todo)
    (enough : (behind raws jf done).length + (jf.seq - jf.seqBeg) < fuel) :
    Answers raws jf false
      (if stale = streamidPad then none else (behind raws jf done).getLast?)
      (scan modes stale .backwards fuel jf) := by
  induction fuel generalizing jf done todo with
  | zero => omega
  | succ fuel ih =>
      have holds := stands.settled.holds
      rcases List.eq_nil_or_concat' done with rfl | ⟨init, raw, rfl⟩
      · unfold scan
        simp only [reduceCtorEq, if_false, backwardPass_nil stale stands]
        by_cases more : jf.seqBeg < jf.seq
        · have set := holds.isPrefix_of_lt (Nat.lt_of_lt_of_le more stands.settled.high)
          let next : Jfile := { jf with seq := jf.seq - 1, fd := none }
          have rolled : roll modes .backwards 0 jf = .goto next := by
            unfold roll
            rw [if_pos ⟨rfl, set⟩, if_neg (by decide), if_pos more]
          have same : SameInput jf next := ⟨rfl, rfl, rfl⟩
          have holds' : Holds raws next := holds.of_same same (fun single => absurd set (by simp [single]))
          have low : next.seqBeg ≤ next.seq := Nat.le_sub_one_of_lt more
          have high : next.seq ≤ next.seqEnd := (Nat.sub_le _ _).trans stands.settled.high
          obtain ⟨input, seq, opened⟩ := top_backwards holds' low high rfl
          have list : behind raws (top next .backwards) (raws next.seq) = behind raws jf [] := by
            rw [← seq, behind_end raws _ (by rw [input.seqBeg, seq]; exact low), seq, input.seqBeg]
            show entriesOf raws jf.seqBeg (jf.seq - 1 - jf.seqBeg + 1) = _ ++ []
            rw [List.append_nil]
            congr 1
            omega
          rw [rolled, ← list]
          refine (ih opened ?_).of_same (same.trans input)
          rw [list, input.seqBeg, seq]
          show _ + (jf.seq - 1 - jf.seqBeg) < fuel
          omega
        · have first : jf.seq = jf.seqBeg := Nat.le_antisymm (Nat.le_of_not_lt more) stands.settled.low
          have none' : behind raws jf [] = [] := by
            unfold behind
            rw [first, Nat.sub_self]
            rfl
          rw [none', roll_first modes first]
          simp only [List.getLast?_nil, ite_self]
          exact ⟨jf, rfl, SameInput.refl jf, stands.settled⟩
      · rw [behind_snoc] at enough ⊢
        unfold scan
        simp only [reduceCtorEq, if_false, backwardPass_snoc stale stands]
        rw [List.length_append, List.length_singleton] at enough
        by_cases skips : stale = streamidPad
        · rw [if_pos skips, if_pos skips]
          have fewer : (behind raws jf init).length + (jf.seq - jf.seqBeg) < fuel := by omega
          have same : SameInput jf { jf with pos := (stream init).length } := ⟨rfl, rfl, rfl⟩
          have rest := (ih stands.backward fewer).of_same same
          rw [if_pos skips] at rest
          exact rest
        · rw [if_neg skips, if_neg skips, List.getLast?_concat]
          exact ⟨_, rfl, ⟨rfl, rfl, rfl⟩, stands.backward.settled, rfl⟩

end Dragonfly.Jscan
