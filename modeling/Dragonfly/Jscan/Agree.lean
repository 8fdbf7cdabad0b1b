import Dragonfly.Jscan.Read
import Mathlib.Data.List.Infix

/-!
# Forwards and backwards

Forwards `jread` returns the records, backwards it returns every raw record until a read takes all
that is left for pads.  The two lists are each other's reverse only if all pads come before the
first record and the read in front of that record happens to skip them.
-/

namespace Dragonfly.Jscan

variable {raws : Nat → List Raw} {jf after : Jfile} {modes : Modes} {fuel : Nat} {reply : Reply}

/-- The backwards reads of the whole journal, from the reply of the `call`-th one on: what they
return, and the reply that ends them. -/
def readBack (modes : Modes) (stale : Nat → Nat) (fuel : Nat) : Nat → Nat → Reply → List Jdata × Reply
  | 0, _, _ => ([], .more)
  | times + 1, call, .record jd jf =>
      let rest := readBack modes stale fuel times (call + 1)
        (jread modes (stale (call + 1)) fuel jf (some jd) .backwards)
      (jd :: rest.1, rest.2)
  | _ + 1, _, other => ([], other)

/-- The backwards reads return what the forwards reads return, in the opposite order, and end. -/
def ScansAgree (modes : Modes) (stale : Nat → Nat) (jf : Jfile) : Prop :=
  ∃ bound, ∀ fuel, bound ≤ fuel → ∃ final,
    readBack modes stale fuel fuel 0 (jread modes (stale 0) fuel jf none .backwards) =
      ((readAll modes fuel fuel (jread modes 0 fuel jf none .forwards)).1.reverse, .null final)

/-- A step in one direction from a record, and back, returns to it.  `step` is what a backwards
read from a record finds in the variable that is not filled in. -/
def StepsReturn (raws : Nat → List Raw) (modes : Modes) (step : Jdata → Nat) (jf : Jfile) : Prop :=
  ∀ reader, SameInput jf reader → Settled raws reader → ∀ entry ∈ entries raws jf,
    entry.isRecord = true → ∀ fuel, passes raws jf ≤ fuel → ∀ jd after,
      (jread modes 0 fuel reader (some entry.jdata) .forwards = .record jd after →
        ∃ final, jread modes (step jd) fuel after (some jd) .backwards = .record entry.jdata final) ∧
      (jread modes (step entry.jdata) fuel reader (some entry.jdata) .backwards = .record jd after →
        ∃ final, jread modes 0 fuel after (some jd) .forwards = .record entry.jdata final)

/-- All pads come before the first record; a backwards scan meets no read that skips before it has
returned all records, and then one that skips all pads, if there are any. -/
def PadsFirst (stale : Nat → Nat) (step : Jdata → Nat) (all : List Entry) : Prop :=
  ∃ pads records, all = pads ++ records ∧ (∀ entry ∈ pads, entry.isRecord = false) ∧
    (∀ entry ∈ records, entry.isRecord = true) ∧ (∀ call < records.length, stale call ≠ streamidPad) ∧
    (pads = [] ∨ stale records.length = streamidPad) ∧
    ∀ entry ∈ records.tail, step entry.jdata ≠ streamidPad

/-! ## The forwards list -/

theorem readAll_eq {before list : List Entry} {waits : Bool} {times : Nat}
    (answers : Answers raws jf waits (list.find? Entry.isRecord) reply)
    (loops : waits = modes.loopForever) (split : entries raws jf = before ++ list)
    (enough : passes raws jf ≤ fuel) (more : list.length < times) :
    (readAll modes fuel times reply).1 = (list.filter Entry.isRecord).map Entry.jdata := by
  induction times generalizing before list reply with
  | zero => omega
  | succ times ih =>
      cases first : list.find? Entry.isRecord with
      | none =>
          have empty : list.filter Entry.isRecord = [] := by
            rw [List.filter_eq_nil_iff]
            exact List.find?_eq_none.mp first
          rw [first] at answers
          rw [empty]
          cases waits with
          | true =>
              have eq : reply = .sleeps := answers
              rw [eq]
              rfl
          | false =>
              obtain ⟨final, rfl, _⟩ := answers
              rfl
      | some entry =>
          rw [first] at answers
          obtain ⟨final, rfl, same, settled, _⟩ := answers
          obtain ⟨record, pads, rest, rfl, none'⟩ := List.find?_eq_some_iff_append.mp first
          have skipped : pads.filter Entry.isRecord = [] := by
            rw [List.filter_eq_nil_iff]
            intro pad member
            simpa using none' pad member
          rw [List.filter_append, skipped, List.nil_append, List.filter_cons_of_pos record]
          have split' : entries raws final = (before ++ pads) ++ entry :: rest := by
            rw [same.entries_eq, split, List.append_assoc]
          rw [← same.passes_eq] at enough
          have next := (jread_next modes 0 settled split' enough).of_same same
          have whole : entries raws jf = (before ++ pads ++ [entry]) ++ rest := by
            rw [split]
            simp only [List.append_assoc, List.singleton_append]
          rw [same.passes_eq] at enough
          rw [List.length_append, List.length_cons] at more
          rw [← loops] at next
          have tail := ih next whole (by omega)
          unfold readAll
          exact congrArg (entry.jdata :: ·) tail

/-! ## The backwards list -/

/-- What the backwards reads return of the raw records behind the reader, nearest first. -/
def backList (stale : Nat → Nat) : Nat → List Entry → List Entry
  | _, [] => []
  | call, entry :: rest => if stale call = streamidPad then [] else entry :: backList stale (call + 1) rest

theorem readBack_eq {stale : Nat → Nat} {list beyond : List Entry} {call times : Nat}
    (answers : Answers raws jf false (if stale call = streamidPad then none else list.head?) reply)
    (split : entries raws jf = list.reverse ++ beyond) (enough : passes raws jf ≤ fuel)
    (more : list.length < times) :
    ∃ final, readBack modes stale fuel times call reply =
      ((backList stale call list).map Entry.jdata, .null final) := by
  induction list generalizing beyond call times reply with
  | nil =>
      obtain ⟨times, rfl⟩ : ∃ rest, times = rest + 1 := ⟨times - 1, by omega⟩
      simp only [List.head?_nil, ite_self] at answers
      obtain ⟨final, rfl, _⟩ := answers
      exact ⟨final, rfl⟩
  | cons entry list ih =>
      obtain ⟨times, rfl⟩ : ∃ rest, times = rest + 1 := ⟨times - 1, by omega⟩
      unfold backList
      by_cases skips : stale call = streamidPad
      · rw [if_pos skips] at answers ⊢
        obtain ⟨final, rfl, _⟩ := answers
        exact ⟨final, rfl⟩
      · rw [if_neg skips] at answers ⊢
        obtain ⟨final, rfl, same, settled, _⟩ := answers
        have here : entries raws jf = list.reverse ++ entry :: beyond := by
          rw [split, List.reverse_cons, List.append_assoc]
          rfl
        have there : entries raws final = list.reverse ++ entry :: beyond := by
          rw [same.entries_eq, here]
        rw [← same.passes_eq] at enough
        have next := (jread_prev modes (stale (call + 1)) settled there enough).of_same same
        rw [List.getLast?_reverse] at next
        rw [same.passes_eq] at enough
        obtain ⟨last, rest⟩ := ih next here (Nat.lt_of_succ_lt_succ more)
        refine ⟨last, ?_⟩
        unfold readBack
        rw [rest]
        rfl

/-- The backwards reads return exactly the records when these come first, no read skips them, and
a read skips what is left. -/
theorem backList_eq_filter_iff {stale : Nat → Nat} (call : Nat) (list : List Entry) :
    backList stale call list = list.filter Entry.isRecord ↔
      ∃ records pads, list = records ++ pads ∧ (∀ entry ∈ records, entry.isRecord = true) ∧
        (∀ entry ∈ pads, entry.isRecord = false) ∧
        (∀ read < records.length, stale (call + read) ≠ streamidPad) ∧
        (pads = [] ∨ stale (call + records.length) = streamidPad) := by
  induction list generalizing call with
  | nil =>
      constructor
      · intro _
        exact ⟨[], [], rfl, fun _ member => absurd member List.not_mem_nil,
          fun _ member => absurd member List.not_mem_nil, fun read bound => absurd bound (Nat.not_lt_zero read), Or.inl rfl⟩
      · intro _
        rfl
  | cons entry list ih =>
      unfold backList
      by_cases skips : stale call = streamidPad
      · rw [if_pos skips]
        constructor
        · intro empty
          refine ⟨[], entry :: list, rfl, fun _ member => absurd member List.not_mem_nil, ?_, fun read bound => absurd bound (Nat.not_lt_zero read),
            Or.inr skips⟩
          intro other member
          have no := List.filter_eq_nil_iff.mp empty.symm other member
          exact Bool.eq_false_iff.mpr no
        · rintro ⟨records, pads, whole, some, none, fine, _⟩
          cases records with
          | nil =>
              rw [List.nil_append] at whole
              rw [whole, eq_comm, List.filter_eq_nil_iff]
              intro other member
              rw [none other member]
              exact Bool.false_ne_true
          | cons first records => exact absurd skips (fine 0 (Nat.zero_lt_succ _))
      · rw [if_neg skips]
        cases record : entry.isRecord with
        | false =>
            rw [List.filter_cons_of_neg (by rw [record]; exact Bool.false_ne_true)]
            constructor
            · intro same
              have member : entry ∈ list.filter Entry.isRecord := same ▸ List.mem_cons_self ..
              rw [(List.mem_filter.mp member).2] at record
              cases record
            · rintro ⟨records, pads, whole, some, none, fine, last⟩
              cases records with
              | nil =>
                  rcases last with empty | pad
                  · rw [empty] at whole
                    cases whole
                  · exact absurd pad skips
              | cons first records =>
                  obtain ⟨rfl, _⟩ := List.cons.inj whole
                  rw [some entry (List.mem_cons_self ..)] at record
                  cases record
        | true =>
            rw [List.filter_cons_of_pos record, List.cons.injEq, eq_self, true_and, ih]
            constructor
            · rintro ⟨records, pads, whole, some, none, fine, last⟩
              refine ⟨entry :: records, pads, by rw [whole]; rfl, ?_, none, ?_, ?_⟩
              · intro other member
                rcases List.mem_cons.mp member with rfl | member
                · exact record
                · exact some other member
              · rintro (_ | read) bound
                · exact skips
                · rw [Nat.add_left_comm, Nat.add_comm]
                  exact fine read (Nat.lt_of_succ_lt_succ bound)
              · rw [List.length_cons, Nat.add_left_comm, Nat.add_comm]
                exact last
            · rintro ⟨records, pads, whole, some, none, fine, last⟩
              cases records with
              | nil =>
                  rw [List.nil_append] at whole
                  rw [none entry (whole ▸ List.mem_cons_self ..)] at record
                  cases record
              | cons first records =>
                  obtain ⟨rfl, rest⟩ := List.cons.inj whole
                  refine ⟨records, pads, rest, ?_, none, ?_, ?_⟩
                  · exact fun other member => some other (List.mem_cons_of_mem _ member)
                  · intro read bound
                    have next := fine (read + 1) (Nat.succ_lt_succ bound)
                    rwa [Nat.add_left_comm, Nat.add_comm] at next
                  · rwa [List.length_cons, Nat.add_left_comm, Nat.add_comm] at last

theorem scansAgree_iff {stale : Nat → Nat} (holds : Holds raws jf) :
    ScansAgree modes stale jf ↔
      backList stale 0 (entries raws jf).reverse = ((entries raws jf).filter Entry.isRecord).reverse := by
  have both : ∀ fuel, passes raws jf ≤ fuel → ∃ final,
      readBack modes stale fuel fuel 0 (jread modes (stale 0) fuel jf none .backwards) =
        ((backList stale 0 (entries raws jf).reverse).map Entry.jdata, .null final) ∧
      (readAll modes fuel fuel (jread modes 0 fuel jf none .forwards)).1 =
        ((entries raws jf).filter Entry.isRecord).map Entry.jdata := by
    intro fuel enough
    have length : (entries raws jf).length < fuel := by
      unfold passes at enough
      omega
    have last := jread_last modes (stale 0) holds enough
    rw [← List.head?_reverse] at last
    have split : entries raws jf = (entries raws jf).reverse.reverse ++ [] := by
      rw [List.reverse_reverse, List.append_nil]
    obtain ⟨final, back⟩ := readBack_eq last split enough (by rwa [List.length_reverse])
    exact ⟨final, back, readAll_eq (jread_first modes 0 holds enough) rfl (List.nil_append _).symm enough length⟩
  have injective := List.map_injective_iff.mpr Entry.jdata_injective
  constructor
  · rintro ⟨bound, agrees⟩
    obtain ⟨last, eq⟩ := agrees (max bound (passes raws jf)) (Nat.le_max_left _ _)
    obtain ⟨final, back, forth⟩ := both _ (Nat.le_max_right bound (passes raws jf))
    rw [back, forth, ← List.map_reverse, Prod.mk.injEq] at eq
    exact injective eq.1
  · intro same
    refine ⟨passes raws jf, ?_⟩
    intro fuel enough
    obtain ⟨final, back, forth⟩ := both fuel enough
    exact ⟨final, by rw [back, forth, same, List.map_reverse]⟩

/-! ## A step and back -/

theorem Answers.record_of_some {waits : Bool} {entry : Entry}
    (answers : Answers raws jf waits (some entry) reply) {jd : Jdata} (eq : reply = .record jd after) :
    jd = entry.jdata ∧ SameInput jf after ∧ Settled raws after := by
  obtain ⟨final, found, same, settled, _⟩ := answers
  obtain ⟨jd_eq, after_eq⟩ := Reply.record.inj (eq.symm.trans found)
  rw [after_eq]
  exact ⟨jd_eq, same, settled⟩

theorem Answers.not_record_of_none {waits : Bool} (answers : Answers raws jf waits none reply)
    {jd : Jdata} (eq : reply = .record jd after) : False := by
  cases waits with
  | true =>
      have sleeps : reply = .sleeps := answers
      rw [eq] at sleeps
      cases sleeps
  | false =>
      obtain ⟨final, null, _⟩ := answers
      rw [eq] at null
      cases null

/-- A step from a record and back returns when no pad lies between the records and the read back
does not skip. -/
theorem stepsReturn_of {step : Jdata → Nat} {pads records : List Entry}
    (whole : entries raws jf = pads ++ records) (none' : ∀ entry ∈ pads, entry.isRecord = false)
    (some' : ∀ entry ∈ records, entry.isRecord = true)
    (fine : ∀ entry ∈ records.tail, step entry.jdata ≠ streamidPad) :
    StepsReturn raws modes step jf := by
  intro reader same settled entry member record fuel enough jd after
  have inside : entry ∈ records := by
    rw [whole] at member
    rcases List.mem_append.mp member with pad | there
    · rw [none' entry pad] at record
      cases record
    · exact there
  obtain ⟨earlier, later, rfl⟩ := List.append_of_mem inside
  have split : entries raws reader = (pads ++ earlier) ++ entry :: later := by
    rw [same.entries_eq, whole, List.append_assoc]
  rw [← same.passes_eq] at enough
  constructor
  · intro eq
    have next := jread_next modes 0 settled split enough
    cases later with
    | nil => exact absurd eq (fun eq => next.not_record_of_none eq)
    | cons other later =>
        have found : (other :: later).find? Entry.isRecord = some other :=
          List.find?_cons_of_pos (some' other (by simp))
        rw [found] at next
        obtain ⟨rfl, input, settled'⟩ := next.record_of_some eq
        have split' : entries raws after = (pads ++ earlier ++ [entry]) ++ other :: later := by
          rw [input.entries_eq, split]
          simp only [List.append_assoc, List.singleton_append]
        have tail : other ∈ (earlier ++ entry :: other :: later).tail := by
          cases earlier with
          | nil => exact List.mem_cons_self ..
          | cons first earlier => simp
        rw [← input.passes_eq] at enough
        have back := jread_prev modes (step other.jdata) settled' split' enough
        rw [if_neg (fine other tail), List.getLast?_concat] at back
        obtain ⟨final, eq, _⟩ := back
        exact ⟨final, eq⟩
  · intro eq
    have back := jread_prev modes (step entry.jdata) settled split enough
    by_cases skips : step entry.jdata = streamidPad
    · rw [if_pos skips] at back
      exact absurd eq (fun eq => back.not_record_of_none eq)
    · rw [if_neg skips] at back
      rcases List.eq_nil_or_concat' (pads ++ earlier) with empty | ⟨init, last, eq'⟩
      · rw [empty] at back
        exact absurd eq (fun eq => back.not_record_of_none eq)
      · rw [eq'] at back split
        rw [List.getLast?_concat] at back
        obtain ⟨rfl, input, settled'⟩ := back.record_of_some eq
        have split' : entries raws after = init ++ last :: (entry :: later) := by
          rw [input.entries_eq, split, List.append_assoc]
          rfl
        rw [← input.passes_eq] at enough
        have next := jread_next modes 0 settled' split' enough
        rw [List.find?_cons_of_pos record] at next
        obtain ⟨final, eq, _⟩ := next
        exact ⟨final, eq⟩

/-- A step back that is taken for the skipping of pads does not return. -/
theorem step_fine {step : Jdata → Nat} (holds : Holds raws jf) {pads records : List Entry}
    (whole : entries raws jf = pads ++ records) (some' : ∀ entry ∈ records, entry.isRecord = true)
    (returns : StepsReturn raws modes step jf) :
    ∀ entry ∈ records.tail, step entry.jdata ≠ streamidPad := by
  intro other tail skips
  obtain ⟨first, rest, rfl⟩ : ∃ first rest, records = first :: rest := by
    cases records with
    | nil => cases tail
    | cons first rest => exact ⟨first, rest, rfl⟩
  obtain ⟨earlier, later, eq⟩ := List.append_of_mem (show other ∈ rest from tail)
  -- the record in front of `other`
  obtain ⟨front, entry, eq'⟩ : ∃ front entry, first :: earlier = front ++ [entry] := by
    rcases List.eq_nil_or_concat' (first :: earlier) with empty | ⟨front, entry, eq'⟩
    · cases empty
    · exact ⟨front, entry, eq'⟩
  have list : first :: rest = front ++ entry :: other :: later := by
    rw [eq, ← List.cons_append, eq', List.append_assoc]
    rfl
  rw [list] at whole some'
  have entryRecord := some' entry (by simp)
  have member : entry ∈ entries raws jf := by
    rw [whole]
    simp
  -- a reader that has read a record
  have start := jread_first modes 0 holds (Nat.le_refl (passes raws jf))
  obtain ⟨oldest, found⟩ : ∃ oldest, (entries raws jf).find? Entry.isRecord = some oldest := by
    rw [← Option.isSome_iff_exists, List.find?_isSome]
    exact ⟨entry, member, entryRecord⟩
  rw [found] at start
  obtain ⟨reader, _, same, settled, _⟩ := start
  have split : entries raws reader = (pads ++ front) ++ entry :: other :: later := by
    rw [same.entries_eq, whole, List.append_assoc]
  have enough : passes raws reader ≤ passes raws jf := Nat.le_of_eq same.passes_eq
  have next := jread_next modes 0 settled split enough
  rw [List.find?_cons_of_pos (some' other (by simp))] at next
  obtain ⟨after, eq'', input, settled', _⟩ := next
  obtain ⟨final, back⟩ :=
    (returns reader same settled entry member entryRecord _ (Nat.le_refl _) other.jdata after).1 eq''
  have split' : entries raws after = (pads ++ front ++ [entry]) ++ other :: later := by
    rw [input.entries_eq, split]
    simp only [List.append_assoc, List.singleton_append]
  have enough' : passes raws after ≤ passes raws jf := by
    rw [input.passes_eq]
    exact enough
  have prev := jread_prev modes (step other.jdata) settled' split' enough'
  rw [if_pos skips] at prev
  exact prev.not_record_of_none back

/-- The two directions agree, on whole scans and on single steps, exactly when all pads come first
and are skipped by chance. -/
theorem directions_agree_iff {stale : Nat → Nat} {step : Jdata → Nat} (holds : Holds raws jf) :
    (ScansAgree modes stale jf ∧ StepsReturn raws modes step jf) ↔
      PadsFirst stale step (entries raws jf) := by
  rw [scansAgree_iff holds, ← List.filter_reverse, backList_eq_filter_iff]
  constructor
  · rintro ⟨⟨records, pads, whole, some', none', fine, last⟩, returns⟩
    have whole' : entries raws jf = pads.reverse ++ records.reverse := by
      rw [← List.reverse_append, ← whole, List.reverse_reverse]
    have some'' : ∀ entry ∈ records.reverse, entry.isRecord = true :=
      fun entry member => some' entry (List.mem_reverse.mp member)
    simp only [Nat.zero_add] at fine last
    refine ⟨pads.reverse, records.reverse, whole', ?_, some'', ?_, ?_, step_fine holds whole' some'' returns⟩
    · exact fun entry member => none' entry (List.mem_reverse.mp member)
    · rwa [List.length_reverse]
    · rwa [List.length_reverse, List.reverse_eq_nil_iff]
  · rintro ⟨pads, records, whole, none', some', fine, last, steps⟩
    refine ⟨⟨records.reverse, pads.reverse, by rw [whole, List.reverse_append], ?_, ?_, ?_, ?_⟩,
      stepsReturn_of whole none' some' steps⟩
    · exact fun entry member => some' entry (List.mem_reverse.mp member)
    · exact fun entry member => none' entry (List.mem_reverse.mp member)
    · simpa only [Nat.zero_add, List.length_reverse] using fine
    · simpa only [Nat.zero_add, List.length_reverse, List.reverse_eq_nil_iff] using last

theorem directions_agree_iff_single :
    ScansAgree ⟨0, false⟩ (fun _ => 0) (jopenFd (stream [firstRecord])) ∧
      StepsReturn (fun _ => [firstRecord]) ⟨0, false⟩ (fun _ => 0) (jopenFd (stream [firstRecord])) :=
  (directions_agree_iff (jopenFd_holds [firstRecord])).mpr (by
    refine ⟨[], [⟨0, 0, firstRecord⟩], jopenFd_entries [firstRecord], ?_, ?_, ?_, Or.inl rfl, ?_⟩
    · exact fun _ member => absurd member List.not_mem_nil
    · intro entry member
      rw [List.mem_singleton.mp member]
      decide
    · intro _ _ skips
      exact absurd (show (0 : Nat) = streamidPad from skips) (by decide)
    · exact fun _ member => absurd member List.not_mem_nil)

/-- Backwards the pad behind the record is returned. -/
theorem pad_returned_backwards :
    ¬∀ (raws : Nat → List Raw) (modes : Modes) (stale : Nat → Nat) (step : Jdata → Nat) (jf : Jfile),
      Holds raws jf → ScansAgree modes stale jf ∧ StepsReturn raws modes step jf := by
  intro all
  have agrees := (all paddedRaws ⟨0, false⟩ (fun _ => 0) (fun _ => 0) paddedFile paddedFile_holds).1
  have same := (scansAgree_iff paddedFile_holds).mp agrees
  have lengths := congrArg List.length same
  rw [paddedFile_entries] at lengths
  exact absurd lengths (by decide)

end Dragonfly.Jscan
