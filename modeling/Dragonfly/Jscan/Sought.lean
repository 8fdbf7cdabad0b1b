import Dragonfly.Jscan.Seek
import Mathlib.Data.List.Find
import Mathlib.Data.List.TakeWhile

/-!
# When `jseek` finds the record

Forwards `jseek` has to return the first record that is not older than the request, backwards the
last one that is not newer.  It does so exactly when the walk stops at a record, or stops at a pad
that does no harm, and no step forwards is taken past the last record while it prints or waits.
-/

namespace Dragonfly.Jscan

variable {raws : Nat → List Raw} {jf after : Jfile} {requested : Int}
variable {seen beyond : List Entry} {entry : Entry}

/-- The record `jseek` has to find: the first one that is not older than the request, or the last
one that is not newer. -/
def sought (requested : Int) (direction : Direction) (all : List Entry) : Option Entry :=
  if direction = .backwards then
    all.reverse.find? (fun entry => entry.isRecord && decide (entry.raw.transid ≤ requested))
  else all.find? (fun entry => entry.isRecord && decide (requested ≤ entry.raw.transid))

/-- The transaction ids of the records increase; those of pads are arbitrary. -/
def Increasing (all : List Entry) : Prop :=
  (all.filter Entry.isRecord).Pairwise (fun entry other => entry.raw.transid < other.raw.transid)

/-- The reply is the entry, or `NULL` if there is none. -/
def Returns (wanted : Option Entry) (reply : Reply) : Prop :=
  match wanted with
  | some entry => ∃ after, reply = .record entry.jdata after
  | none => ∃ after, reply = .null after

/-- The search ends with the record it has to find. -/
def Honours (raws : Nat → List Raw) (modes : Modes) (stale : Nat → Nat) (jf : Jfile)
    (requested : Int) (direction : Direction) : Prop :=
  ∃ fuel, ∀ enough, fuel ≤ enough →
    Returns (sought requested direction (entries raws jf))
      (jseek modes stale enough jf requested direction)

/-! ## When the search is right -/

/-- The walk through `seen` comes to the right record: it meets a record before any pad that is
not newer than the request, or such a pad does no harm. -/
def WalkMeets (modes : Modes) (stale : Nat → Nat) (requested : Int) (direction : Direction)
    (seen beyond : List Entry) : Prop :=
  match remaining requested seen with
  | [] => direction = .forwards → modes.loopForever = true → HasRecord (seen ++ beyond)
  | hit :: earlier =>
      if direction = .backwards then
        (¬Spoiled stale (newer requested seen).length ∧ hit.isRecord = true) ∨
        (Spoiled stale (newer requested seen).length ∧
          ∀ entry ∈ seen, entry.isRecord = true → requested < entry.raw.transid)
      else
        (¬Spoiled stale (newer requested seen).length ∧ hit.raw.transid = requested ∧
          hit.isRecord = true) ∨
        (¬Spoiled stale (newer requested seen).length ∧ hit.raw.transid < requested ∧
          (∀ entry ∈ earlier, entry.isRecord = true → entry.raw.transid < requested) ∧
          (HasRecord (newer requested seen ++ beyond) ∨
            modes.verbose ≤ 1 ∧ modes.loopForever = false)) ∨
        (Spoiled stale (newer requested seen).length ∧
          (∀ entry ∈ seen, entry.isRecord = true → requested ≤ entry.raw.transid) ∧
          (modes.loopForever = true → HasRecord (seen ++ beyond)))

/-- The search comes to the right record. -/
def SeekMeets (raws : Nat → List Raw) (modes : Modes) (stale : Nat → Nat) (jf : Jfile)
    (requested : Int) (direction : Direction) : Prop :=
  if jf.source.isPrefix = true then
    (modes.loopForever = true → HasRecord (fileEntries raws jf.seqEnd)) ∧
    match newest raws requested jf.seqBeg (jf.seqEnd + 1 - jf.seqBeg) with
    | none => True
    | some seq =>
        ((fileEntries raws seq).find? Entry.isRecord).map (fun entry => entry.raw.transid) =
            some requested ∨
          WalkMeets modes stale requested direction (entriesOf raws jf.seqBeg (seq - jf.seqBeg + 1))
            (entriesOf raws (seq + 1) (jf.seqEnd - seq))
  else WalkMeets modes stale requested direction (entries raws jf) []

/-! ## What has to be found, and what the walk comes to -/

theorem seen_eq (requested : Int) (seen : List Entry) :
    seen = (remaining requested seen).reverse ++ (newer requested seen).reverse := by
  unfold newer remaining
  rw [← List.reverse_append, List.takeWhile_append_dropWhile, List.reverse_reverse]

theorem newer_late (requested : Int) (seen : List Entry) :
    ∀ entry ∈ newer requested seen, requested < entry.raw.transid := by
  intro entry member
  have late := List.mem_takeWhile_imp member
  exact of_decide_eq_true late

/-- The walk stops at an entry that is not newer than the request. -/
theorem hit_early {hit : Entry} {earlier : List Entry} (stops : remaining requested seen = hit :: earlier) :
    hit.raw.transid ≤ requested := by
  have first := List.head?_dropWhile_not (fun entry : Entry => decide (requested < entry.raw.transid)) seen.reverse
  unfold remaining at stops
  rw [stops] at first
  simpa using first

/-- Two entries that read the same are both records or both pads. -/
theorem isRecord_eq_of_jdata {other : Entry} (same : entry.jdata = other.jdata) :
    entry.isRecord = other.isRecord := by
  have bytes : entry.raw.bytes = other.raw.bytes := congrArg Jdata.data same
  have pads : entry.raw.IsPad ↔ other.raw.IsPad := by
    unfold Raw.IsPad
    rw [bytes]
  unfold Entry.isRecord
  rw [decide_eq_decide.mpr pads]

theorem transid_eq_of_jdata {other : Entry} (same : entry.jdata = other.jdata) :
    entry.raw.transid = other.raw.transid := by
  rw [← Entry.jdata_transid, same, Entry.jdata_transid]

theorem returns_record_iff {wanted : Option Entry} :
    Returns wanted (.record entry.jdata after) ↔
      ∃ other, wanted = some other ∧ other.jdata = entry.jdata := by
  cases wanted with
  | none => simp [Returns]
  | some other => simp [Returns, eq_comm]

theorem returns_null_iff {wanted : Option Entry} : Returns wanted (.null after) ↔ wanted = none := by
  cases wanted <;> simp [Returns]

theorem not_returns_sleeps (wanted : Option Entry) : ¬Returns wanted .sleeps := by
  cases wanted <;> simp [Returns]

theorem not_returns_fault (wanted : Option Entry) : ¬Returns wanted .fault := by
  cases wanted <;> simp [Returns]

/-- A list in which every record is late enough is searched for its first record. -/
theorem find_late {list : List Entry}
    (late : ∀ entry ∈ list, entry.isRecord = true → requested ≤ entry.raw.transid) :
    list.find? (fun entry => entry.isRecord && decide (requested ≤ entry.raw.transid)) =
      list.find? Entry.isRecord := by
  apply List.find?_congr
  intro entry member
  cases record : entry.isRecord with
  | false => rfl
  | true => simp [late entry member record]

variable {modes : Modes} {stale : Nat → Nat} {fuel : Nat} {direction : Direction} {reply : Reply}

theorem sought_backwards (late : ∀ entry ∈ beyond, entry.isRecord = true → requested < entry.raw.transid) :
    sought requested .backwards (seen ++ beyond) =
      (remaining requested seen).find?
        (fun entry => entry.isRecord && decide (entry.raw.transid ≤ requested)) := by
  have none' : ∀ list : List Entry,
      (∀ entry ∈ list, entry.isRecord = true → requested < entry.raw.transid) →
      list.find? (fun entry => entry.isRecord && decide (entry.raw.transid ≤ requested)) = none := by
    intro list newer
    apply List.find?_eq_none.mpr
    intro entry member found
    rw [Bool.and_eq_true, decide_eq_true_eq] at found
    exact Int.not_le.mpr (newer entry member found.1) found.2
  unfold sought
  rw [if_pos rfl, List.reverse_append, List.find?_append,
    none' _ (fun entry member => late entry (List.mem_reverse.mp member)), Option.none_or]
  have whole : seen.reverse = newer requested seen ++ remaining requested seen :=
    (List.takeWhile_append_dropWhile).symm
  rw [whole, List.find?_append, none' _ (fun entry member _ => newer_late requested seen entry member),
    Option.none_or]

/-- The walk backwards is right exactly when it stops at a record, or is spoiled and there is
nothing to find. -/
theorem walk_backwards (late : ∀ entry ∈ beyond, entry.isRecord = true → requested < entry.raw.transid)
    (walks : Walks raws jf modes stale fuel requested .backwards seen reply) :
    Returns (sought requested .backwards (seen ++ beyond)) reply ↔
      WalkMeets modes stale requested .backwards seen beyond := by
  obtain ⟨final, _, _, walk⟩ := walks
  rw [sought_backwards late]
  unfold WalkMeets
  cases stops : remaining requested seen with
  | nil =>
      rw [stops] at walk
      rw [walk]
      simp [seekNone, returns_null_iff]
  | cons hit earlier =>
      rw [stops] at walk
      have early := hit_early stops
      simp only [if_true]
      by_cases spoiled : Spoiled stale (newer requested seen).length
      · rw [walk.1 spoiled]
        simp only [seekNone, if_true, returns_null_iff, spoiled, not_true_eq_false, false_and, true_and,
          false_or]
        rw [List.find?_eq_none]
        constructor
        · intro absent entry member record
          rw [seen_eq requested seen, stops, List.mem_append, List.mem_reverse, List.mem_reverse] at member
          rcases member with member | member
          · have no := absent entry member
            rw [record, Bool.true_and, decide_eq_true_eq] at no
            exact Int.not_le.mp no
          · exact newer_late requested seen entry member
        · intro all entry member found
          rw [Bool.and_eq_true, decide_eq_true_eq] at found
          have inside : entry ∈ seen := by
            rw [seen_eq requested seen, stops]
            exact List.mem_append_left _ (List.mem_reverse.mpr member)
          exact Int.not_le.mpr (all entry inside found.1) found.2
      · rw [walk.2 spoiled]
        have taken : seekHit modes fuel requested .backwards hit.jdata final = .record hit.jdata final := by
          unfold seekHit
          rw [if_neg (fun both => nomatch both.2)]
        rw [taken, returns_record_iff]
        simp only [spoiled, not_false_eq_true, true_and, false_and, or_false]
        constructor
        · rintro ⟨other, found, same⟩
          have record := List.find?_some found
          rw [Bool.and_eq_true] at record
          rw [← isRecord_eq_of_jdata same]
          exact record.1
        · intro record
          refine ⟨hit, ?_, rfl⟩
          rw [List.find?_cons_of_pos]
          rw [record, Bool.true_and]
          exact decide_eq_true early

theorem increasing_append {first second : List Entry} (increasing : Increasing (first ++ second))
    {other : Entry} (before : entry ∈ first) (after : other ∈ second) (record : entry.isRecord = true)
    (record' : other.isRecord = true) : entry.raw.transid < other.raw.transid := by
  unfold Increasing at increasing
  rw [List.filter_append] at increasing
  exact (List.pairwise_append.mp increasing).2.2 entry (List.mem_filter.mpr ⟨before, record⟩) other
    (List.mem_filter.mpr ⟨after, record'⟩)

theorem sought_forwards (all : List Entry) :
    sought requested .forwards all =
      all.find? (fun entry => entry.isRecord && decide (requested ≤ entry.raw.transid)) := by
  unfold sought
  rw [if_neg (by decide)]

/-- The first record of a list is the oldest one. -/
theorem first_le {all : List Entry} (increasing : Increasing all) {other : Entry}
    (first : all.find? Entry.isRecord = some entry) (member : other ∈ all) (record : other.isRecord = true) :
    entry.raw.transid ≤ other.raw.transid := by
  obtain ⟨record', before, beyond, split, none'⟩ := List.find?_eq_some_iff_append.mp first
  rw [split, List.mem_append, List.mem_cons] at member
  rcases member with member | rfl | member
  · have no := none' other member
    rw [record] at no
    cases no
  · exact Int.le_refl _
  · rw [split, ← List.singleton_append, ← List.append_assoc] at increasing
    exact Int.le_of_lt (increasing_append increasing
      (List.mem_append_right before (List.mem_singleton_self entry)) member record' record)

/-- Returning the first record of the journal is right exactly when no record is older than the
request. -/
theorem first_returns_iff {all : List Entry} (increasing : Increasing all)
    (answers : Answers raws jf modes.loopForever (all.find? Entry.isRecord) reply) :
    Returns (sought requested .forwards all) reply ↔
      (∀ entry ∈ all, entry.isRecord = true → requested ≤ entry.raw.transid) ∧
        (modes.loopForever = true → HasRecord all) := by
  rw [sought_forwards, hasRecord_iff]
  cases first : all.find? Entry.isRecord with
  | none =>
      rw [first] at answers
      have absent := List.find?_eq_none.mp first
      have late : ∀ entry ∈ all, entry.isRecord = true → requested ≤ entry.raw.transid :=
        fun entry member record => absurd record (absent entry member)
      rw [find_late late, first]
      cases waits : modes.loopForever with
      | true =>
          rw [waits] at answers
          have eq : reply = .sleeps := answers
          rw [eq]
          simp [not_returns_sleeps]
      | false =>
          rw [waits] at answers
          obtain ⟨final, rfl, _⟩ := answers
          simp only [returns_null_iff, true_iff]
          exact ⟨late, nofun⟩
  | some entry =>
      rw [first] at answers
      obtain ⟨final, rfl, _⟩ := answers
      rw [returns_record_iff]
      constructor
      · rintro ⟨other, found, same⟩
        have taken := List.find?_some found
        rw [Bool.and_eq_true, decide_eq_true_eq, transid_eq_of_jdata same] at taken
        refine ⟨?_, fun _ => ⟨entry, rfl⟩⟩
        exact fun later member record => Int.le_trans taken.2 (first_le increasing first member record)
      · rintro ⟨late, _⟩
        exact ⟨entry, by rw [find_late late, first], rfl⟩

/-- The step forwards behind a pad or a record in front of the request. -/
theorem step_returns_iff {hit : Entry} {before after' : List Entry} (settled : Settled raws after)
    (increasing : Increasing (before ++ hit :: after'))
    (split : entries raws after = before ++ hit :: after') (enough : passes raws after ≤ fuel)
    (early : hit.raw.transid < requested)
    (late : ∀ entry ∈ after', entry.isRecord = true → requested < entry.raw.transid) :
    Returns (sought requested .forwards (before ++ hit :: after'))
        (seekHit modes fuel requested .forwards hit.jdata after) ↔
      (∀ entry ∈ before, entry.isRecord = true → entry.raw.transid < requested) ∧
        (HasRecord after' ∨ modes.verbose ≤ 1 ∧ modes.loopForever = false) := by
  have answers := jread_next modes 0 settled split enough
  have skip : (hit.isRecord && decide (requested ≤ hit.raw.transid)) = false := by
    rw [decide_eq_false (Int.not_le.mpr early), Bool.and_false]
  have tail : (hit :: after').find? (fun entry => entry.isRecord && decide (requested ≤ entry.raw.transid)) =
      after'.find? Entry.isRecord := by
    rw [List.find?_cons_of_neg (by rw [skip]; decide)]
    exact find_late (fun entry member record => Int.le_of_lt (late entry member record))
  have front : (∀ entry ∈ before, entry.isRecord = true → entry.raw.transid < requested) ↔
      before.find? (fun entry => entry.isRecord && decide (requested ≤ entry.raw.transid)) = none := by
    rw [List.find?_eq_none]
    constructor
    · intro all entry member found
      rw [Bool.and_eq_true, decide_eq_true_eq] at found
      exact Int.not_le.mpr (all entry member found.1) found.2
    · intro none' entry member record
      have no := none' entry member
      rw [record, Bool.true_and, decide_eq_true_eq] at no
      exact Int.not_le.mp no
  rw [sought_forwards, List.find?_append, tail, front, hasRecord_iff]
  unfold seekHit
  rw [Entry.jdata_transid, if_pos ⟨early, rfl⟩]
  cases next : after'.find? Entry.isRecord with
  | some entry =>
      rw [next] at answers
      obtain ⟨final, eq, _⟩ := answers
      rw [eq]
      simp only [returns_record_iff]
      constructor
      · rintro ⟨other, found, same⟩
        refine ⟨?_, Or.inl ⟨entry, rfl⟩⟩
        cases ahead : before.find?
            (fun entry => entry.isRecord && decide (requested ≤ entry.raw.transid)) with
        | none => rfl
        | some first =>
            rw [ahead, Option.some_or] at found
            cases found
            have record := List.find?_some ahead
            rw [Bool.and_eq_true] at record
            have less := increasing_append increasing (List.mem_of_find?_eq_some ahead)
              (List.mem_cons_of_mem hit (List.mem_of_find?_eq_some next)) record.1 (List.find?_some next)
            rw [transid_eq_of_jdata same] at less
            exact absurd less (Int.lt_irrefl _)
      · rintro ⟨absent, _⟩
        exact ⟨entry, by rw [absent, Option.none_or], rfl⟩
  | none =>
      rw [next] at answers
      cases waits : modes.loopForever with
      | true =>
          rw [waits] at answers
          have eq : jread modes 0 fuel after (some hit.jdata) .forwards = .sleeps := answers
          rw [eq]
          simp [not_returns_sleeps]
      | false =>
          rw [waits] at answers
          obtain ⟨final, eq, _⟩ := answers
          rw [eq]
          by_cases loud : 1 < modes.verbose
          · simp only [if_pos loud, not_returns_fault, Nat.not_le.mpr loud]
            simp
          · simp only [if_neg loud, returns_null_iff, Nat.not_lt.mp loud, Option.or_none]
            simp

/-- The walk forwards is right exactly when it stops at the request itself, or in front of it with
nothing to find before that place, or is spoiled and the first record is the one to find. -/
theorem walk_forwards (increasing : Increasing (seen ++ beyond))
    (split : entries raws jf = seen ++ beyond) (enough : passes raws jf ≤ fuel)
    (late : ∀ entry ∈ beyond, entry.isRecord = true → requested < entry.raw.transid)
    (walks : Walks raws jf modes stale fuel requested .forwards seen reply) :
    Returns (sought requested .forwards (seen ++ beyond)) reply ↔
      WalkMeets modes stale requested .forwards seen beyond := by
  obtain ⟨final, same, settled, walk⟩ := walks
  rw [← same.passes_eq] at enough
  have split' : entries raws final = seen ++ beyond := by rw [same.entries_eq, split]
  have none' : seekNone modes fuel final .forwards = jread modes 0 fuel final none .forwards := by
    unfold seekNone
    rw [if_neg (by decide)]
  have first := jread_first modes 0 settled.holds enough
  rw [← none', split'] at first
  have beyondLate : (∀ entry ∈ beyond, entry.isRecord = true → requested ≤ entry.raw.transid) :=
    fun entry member record => Int.le_of_lt (late entry member record)
  unfold WalkMeets
  cases stops : remaining requested seen with
  | nil =>
      rw [stops] at walk
      have all : ∀ entry ∈ seen ++ beyond, entry.isRecord = true → requested ≤ entry.raw.transid := by
        intro entry member record
        rcases List.mem_append.mp member with member | member
        · rw [seen_eq requested seen, stops] at member
          exact Int.le_of_lt (newer_late requested seen entry (List.mem_reverse.mp member))
        · exact beyondLate entry member record
      rw [walk, first_returns_iff increasing first]
      exact ⟨fun both _ => both.2, fun has => ⟨all, has rfl⟩⟩
  | cons hit earlier =>
      rw [stops] at walk
      have early := hit_early stops
      have list : seen ++ beyond =
          earlier.reverse ++ hit :: ((newer requested seen).reverse ++ beyond) := by
        have whole := seen_eq requested seen
        rw [stops, List.reverse_cons, List.append_assoc, List.singleton_append] at whole
        exact (congrArg (· ++ beyond) whole).trans (List.append_assoc _ _ _)
      have later : ∀ entry ∈ (newer requested seen).reverse ++ beyond, entry.isRecord = true →
          requested < entry.raw.transid := by
        intro entry member record
        rcases List.mem_append.mp member with member | member
        · exact newer_late requested seen entry (List.mem_reverse.mp member)
        · exact late entry member record
      simp only [reduceCtorEq, if_false]
      by_cases spoiled : Spoiled stale (newer requested seen).length
      · simp only [spoiled, not_true_eq_false, false_and, false_or, true_and]
        rw [walk.1 spoiled, first_returns_iff increasing first]
        constructor
        · rintro ⟨all, has⟩
          exact ⟨fun entry member => all entry (List.mem_append_left beyond member), has⟩
        · rintro ⟨all, has⟩
          refine ⟨?_, has⟩
          intro entry member
          rcases List.mem_append.mp member with member | member
          · exact all entry member
          · exact beyondLate entry member
      · simp only [spoiled, not_false_eq_true, true_and, false_and, or_false]
        rw [walk.2 spoiled]
        by_cases exactly : hit.raw.transid = requested
        · have taken : seekHit modes fuel requested .forwards hit.jdata final = .record hit.jdata final := by
            unfold seekHit
            rw [Entry.jdata_transid, exactly, if_neg (fun both => Int.lt_irrefl _ both.1)]
          simp only [taken, returns_record_iff, exactly, true_and, Int.lt_irrefl, false_and, or_false]
          constructor
          · rintro ⟨other, found, same'⟩
            rw [sought_forwards] at found
            have record := List.find?_some found
            rw [Bool.and_eq_true] at record
            rw [← isRecord_eq_of_jdata same']
            exact record.1
          · intro record
            refine ⟨hit, ?_, rfl⟩
            rw [sought_forwards, list, List.find?_append]
            have before : earlier.reverse.find?
                (fun entry => entry.isRecord && decide (requested ≤ entry.raw.transid)) = none := by
              rw [List.find?_eq_none]
              intro entry member found
              rw [Bool.and_eq_true, decide_eq_true_eq] at found
              rw [list] at increasing
              have less := increasing_append increasing member (List.mem_cons_self ..) found.1 record
              rw [exactly] at less
              exact Int.not_le.mpr less found.2
            rw [before, Option.none_or, List.find?_cons_of_pos]
            rw [record, Bool.true_and]
            exact decide_eq_true (Int.le_of_eq exactly.symm)
        · have strictly : hit.raw.transid < requested := Int.lt_iff_le_and_ne.mpr ⟨early, exactly⟩
          simp only [exactly, false_and, false_or, strictly, true_and]
          rw [list] at increasing split' ⊢
          rw [step_returns_iff settled increasing split' enough strictly later]
          have before : (∀ entry ∈ earlier.reverse, entry.isRecord = true → entry.raw.transid < requested) ↔
              ∀ entry ∈ earlier, entry.isRecord = true → entry.raw.transid < requested := by
            simp only [List.mem_reverse]
          have some' : HasRecord ((newer requested seen).reverse ++ beyond) ↔
              HasRecord (newer requested seen ++ beyond) := by
            unfold HasRecord
            simp only [List.mem_append, List.mem_reverse]
          rw [before, some']

/-! ## The whole search -/

theorem newest_spec {first count : Nat} :
    match newest raws requested first count with
    | none => ∀ seq, first ≤ seq → seq < first + count → reaches raws requested seq = false
    | some found => first ≤ found ∧ found < first + count ∧
        ∀ seq, found < seq → seq < first + count → reaches raws requested seq = false := by
  induction count with
  | zero =>
      intro seq low high
      omega
  | succ count ih =>
      unfold newest
      cases reached : reaches raws requested (first + count) with
      | true =>
          refine ⟨Nat.le_add_right _ _, Nat.lt_succ_self _, ?_⟩
          intro seq low high
          omega
      | false =>
          simp only [Bool.false_eq_true, if_false]
          have last : ∀ seq, seq < first + (count + 1) → ¬seq < first + count →
              reaches raws requested seq = false := by
            intro seq high past
            have eq : seq = first + count := by omega
            rw [eq]
            exact reached
          cases found : newest raws requested first count with
          | none =>
              rw [found] at ih
              intro seq low high
              by_cases under : seq < first + count
              · exact ih seq low under
              · exact last seq high under
          | some there =>
              rw [found] at ih
              obtain ⟨low, high, rest⟩ := ih
              refine ⟨low, Nat.lt_succ_of_lt high, ?_⟩
              intro seq above high'
              by_cases under : seq < first + count
              · exact rest seq above under
              · exact last seq high' under

/-- The records of files none of which starts in time are all newer than the request. -/
theorem late_of_not_reached {first count : Nat} (increasing : Increasing (entriesOf raws first count))
    (late : ∀ seq, first ≤ seq → seq < first + count → reaches raws requested seq = false) :
    ∀ entry ∈ entriesOf raws first count, entry.isRecord = true → requested < entry.raw.transid := by
  intro entry member record
  obtain ⟨oldest, found⟩ := hasRecord_iff.mp ⟨entry, member, record⟩
  exact Int.lt_of_lt_of_le (newer_of_find late found) (first_le increasing found member record)

theorem Increasing.right {first second : List Entry} (increasing : Increasing (first ++ second)) :
    Increasing second := by
  unfold Increasing at increasing ⊢
  rw [List.filter_append] at increasing
  exact (List.pairwise_append.mp increasing).2.1

/-- A record with the requested transaction id is the one to find, in both directions. -/
theorem sought_exactly {all : List Entry} (increasing : Increasing all) (member : entry ∈ all)
    (record : entry.isRecord = true) (exactly : entry.raw.transid = requested) (direction : Direction) :
    sought requested direction all = some entry := by
  obtain ⟨before, beyond, rfl⟩ := List.append_of_mem member
  have smaller : ∀ other ∈ before, other.isRecord = true → other.raw.transid < requested := by
    intro other inside record'
    rw [← exactly]
    exact increasing_append increasing inside (List.mem_cons_self ..) record' record
  have larger : ∀ other ∈ beyond, other.isRecord = true → requested < other.raw.transid := by
    intro other inside record'
    rw [← List.singleton_append, ← List.append_assoc] at increasing
    rw [← exactly]
    exact increasing_append increasing (List.mem_append_right before (List.mem_singleton_self entry)) inside
      record record'
  unfold sought
  by_cases backwards : direction = .backwards
  · rw [if_pos backwards, List.reverse_append, List.reverse_cons, List.append_assoc, List.find?_append]
    have none' : beyond.reverse.find?
        (fun entry => entry.isRecord && decide (entry.raw.transid ≤ requested)) = none := by
      rw [List.find?_eq_none]
      intro other inside found
      rw [Bool.and_eq_true, decide_eq_true_eq] at found
      exact Int.not_le.mpr (larger other (List.mem_reverse.mp inside) found.1) found.2
    rw [none', Option.none_or, List.singleton_append, List.find?_cons_of_pos]
    rw [record, Bool.true_and]
    exact decide_eq_true (Int.le_of_eq exactly)
  · rw [if_neg backwards, List.find?_append]
    have none' : before.find?
        (fun entry => entry.isRecord && decide (requested ≤ entry.raw.transid)) = none := by
      rw [List.find?_eq_none]
      intro other inside found
      rw [Bool.and_eq_true, decide_eq_true_eq] at found
      exact Int.not_le.mpr (smaller other inside found.1) found.2
    rw [none', Option.none_or, List.find?_cons_of_pos]
    rw [record, Bool.true_and]
    exact decide_eq_true (Int.le_of_eq exactly.symm)

theorem walk_returns_iff (ends : direction = .forwards ∨ direction = .backwards)
    (increasing : Increasing (seen ++ beyond)) (split : entries raws jf = seen ++ beyond)
    (enough : passes raws jf ≤ fuel)
    (late : ∀ entry ∈ beyond, entry.isRecord = true → requested < entry.raw.transid)
    (walks : Walks raws jf modes stale fuel requested direction seen reply) :
    Returns (sought requested direction (seen ++ beyond)) reply ↔
      WalkMeets modes stale requested direction seen beyond := by
  rcases ends with rfl | rfl
  · exact walk_forwards increasing split enough late walks
  · exact walk_backwards late walks

/-- The walk from the end of the file of the sequence number. -/
theorem seqlast_walks (modes : Modes) (stale : Nat → Nat) (direction : Direction)
    (settled : Settled raws jf) (enough : passes raws jf < fuel)
    (split : entries raws jf = entriesOf raws jf.seqBeg (jf.seq - jf.seqBeg + 1) ++ beyond) :
    Walks raws jf modes stale fuel requested direction
      (entriesOf raws jf.seqBeg (jf.seq - jf.seqBeg + 1))
      (seekBack modes stale fuel requested direction fuel 0
        (jread modes (stale 0) fuel jf none .seqlast)) := by
  have enough' := Nat.le_of_lt enough
  have reply := jread_seqlast modes (stale 0) settled.holds settled.low settled.high enough'
  have length := congrArg List.length split
  rw [List.length_append] at length
  unfold passes at enough
  have walks := @seekBack_walks raws jf requested (entriesOf raws jf.seqBeg (jf.seq - jf.seqBeg + 1))
    beyond modes stale fuel direction enough' 0 fuel _ split (by omega) reply
  simpa only [Nat.zero_add] using walks

/-- The first probe waits for a record when the last file has none and the reader loops. -/
theorem seekFile_sleeps (holds : Holds raws jf) (set : jf.source.isPrefix = true)
    (waits : modes.loopForever = true) (empty : ¬HasRecord (fileEntries raws jf.seqEnd))
    (enough : passes raws jf ≤ fuel) (times : Nat) :
    seekFile modes fuel requested (times + 1) jf jf.seqEnd = .answer .sleeps := by
  let here : Jfile := { jf with seq := jf.seqEnd }
  have same : SameInput jf here := ⟨rfl, rfl, rfl⟩
  have holds' : Holds raws here := holds.of_same same (fun single => absurd set (by simp [single]))
  have reply := jread_seqfirst modes 0 holds' holds.ordered (Nat.le_refl _) enough
  have none' : (entriesOf raws jf.seqEnd (jf.seqEnd - jf.seqEnd + 1)).find? Entry.isRecord = none := by
    rw [Nat.sub_self, entriesOf_succ, List.find?_append]
    cases found : (fileEntries raws jf.seqEnd).find? Entry.isRecord with
    | none => rfl
    | some entry => exact absurd (hasRecord_iff.mpr ⟨entry, found⟩) empty
  rw [none', waits] at reply
  have eq : jread modes 0 fuel here none .seqfirst = .sleeps := reply
  have inside : ¬jf.seqEnd = seqPred jf.seqBeg := by
    have ordered := holds.ordered
    have numbered := holds.numbered
    unfold seqPred
    omega
  unfold seekFile
  rw [if_neg inside, eq]

theorem Settled.entries_split (settled : Settled raws jf) :
    entries raws jf = entriesOf raws jf.seqBeg (jf.seq - jf.seqBeg + 1) ++
      entriesOf raws (jf.seq + 1) (jf.seqEnd - jf.seq) := by
  have low := settled.low
  have high := settled.high
  have count : jf.seqEnd + 1 - jf.seqBeg = jf.seq - jf.seqBeg + 1 + (jf.seqEnd - jf.seq) := by omega
  have start : jf.seqBeg + (jf.seq - jf.seqBeg + 1) = jf.seq + 1 := by omega
  unfold entries
  rw [count, entriesOf_add, start]

/-- With enough passes the search returns the right record exactly under the condition. -/
theorem jseek_returns_iff (holds : Holds raws jf) (increasing : Increasing (entries raws jf))
    (ends : direction = .forwards ∨ direction = .backwards) (enough : passes raws jf < fuel) :
    Returns (sought requested direction (entries raws jf)) (jseek modes stale fuel jf requested direction) ↔
      SeekMeets raws modes stale jf requested direction := by
  have enough' := Nat.le_of_lt enough
  unfold jseek SeekMeets
  cases set : jf.source.isPrefix with
  | false =>
      simp only [Bool.false_eq_true, if_false]
      obtain ⟨settled, _⟩ := holds.single_opened set
      obtain ⟨_, first, final⟩ := holds.single set
      have none' : entriesOf raws (jf.seq + 1) (jf.seqEnd - jf.seq) = [] := by
        rw [← final, Nat.sub_self]
        rfl
      have split := settled.entries_split
      rw [none'] at split
      have whole : entriesOf raws jf.seqBeg (jf.seq - jf.seqBeg + 1) = entries raws jf := by
        rw [split, List.append_nil]
      have walks := @seqlast_walks raws jf requested [] fuel modes stale direction settled enough split
      rw [whole] at walks split
      have nothing : ∀ entry ∈ ([] : List Entry), entry.isRecord = true → requested < entry.raw.transid :=
        fun entry member => absurd member List.not_mem_nil
      rw [split] at increasing
      have iff' := walk_returns_iff ends increasing split enough' nothing walks
      rwa [List.append_nil] at iff'
  | true =>
      simp only [if_true]
      have ordered := holds.ordered
      have numbered := holds.numbered
      have count : jf.seqBeg + (jf.seqEnd + 1 - jf.seqBeg) = jf.seqEnd + 1 := by omega
      by_cases records : modes.loopForever = true → HasRecord (fileEntries raws jf.seqEnd)
      · have start : seqPred (jf.seqBeg + (jf.seqEnd + 1 - jf.seqBeg)) = jf.seqEnd := by
          rw [count]
          have pred := @seqPred_eq (jf.seqEnd + 1) (by omega) (by omega)
          omega
        have times : jf.seqEnd + 1 - jf.seqBeg < fuel := by
          unfold passes at enough
          omega
        have above : ∀ seq, jf.seqBeg + (jf.seqEnd + 1 - jf.seqBeg) ≤ seq → seq ≤ jf.seqEnd →
            reaches raws requested seq = false := by
          intro seq low high
          omega
        have locates := seekFile_locates modes holds set enough' records (jf.seqEnd + 1 - jf.seqBeg)
          (SameInput.refl jf) (Nat.le_of_eq count) above times
        rw [start] at locates
        have spec := @newest_spec raws requested jf.seqBeg (jf.seqEnd + 1 - jf.seqBeg)
        cases found : newest raws requested jf.seqBeg (jf.seqEnd + 1 - jf.seqBeg) with
        | none =>
            rw [found] at locates spec
            obtain ⟨final, eq, same⟩ := locates
            rw [eq]
            simp only [and_true]
            refine (iff_true_right records).mpr ?_
            have late : ∀ entry ∈ entries raws jf, entry.isRecord = true → requested < entry.raw.transid :=
              late_of_not_reached increasing spec
            rcases ends with rfl | rfl
            · have holds' : Holds raws final := holds.of_same same (fun single => absurd set (by simp [single]))
              rw [← same.passes_eq] at enough'
              have reply := jread_first modes 0 holds' enough'
              rw [same.entries_eq] at reply
              have none' : seekNone modes fuel final .forwards = jread modes 0 fuel final none .forwards := by
                unfold seekNone
                rw [if_neg (by decide)]
              rw [none', first_returns_iff increasing reply]
              refine ⟨fun entry member record => Int.le_of_lt (late entry member record), ?_⟩
              exact fun waits => (records waits).of_file ordered (by omega)
            · have nothing : sought requested .backwards (entries raws jf) = none := by
                have before := @sought_backwards requested [] (entries raws jf) late
                rwa [List.nil_append] at before
              rw [nothing]
              exact ⟨final, if_pos rfl⟩
        | some seq =>
            rw [found] at locates spec
            obtain ⟨low, high, above'⟩ := spec
            obtain ⟨entry, final, first, eq, same, settled, place⟩ := locates
            rw [eq]
            simp only [first, Option.map_some, Option.some.injEq]
            by_cases exactly : entry.raw.transid = requested
            · have member : entry ∈ entries raws jf := by
                apply List.mem_flatMap.mpr
                exact ⟨seq, List.mem_range'_1.mpr ⟨low, high⟩, List.mem_of_find?_eq_some first⟩
              rw [if_pos exactly,
                sought_exactly increasing member (List.find?_some first) exactly direction]
              simp only [exactly, true_or, and_true]
              exact (iff_true_right records).mpr ⟨final, rfl⟩
            · have split := settled.entries_split
              rw [same.entries_eq, same.seqBeg, same.seqEnd, place] at split
              have late : ∀ entry ∈ entriesOf raws (seq + 1) (jf.seqEnd - seq), entry.isRecord = true →
                  requested < entry.raw.transid := by
                rw [split] at increasing
                exact late_of_not_reached increasing.right
                  (fun other above below => above' other above (by omega))
              have split' := settled.entries_split
              rw [← same.passes_eq] at enough enough'
              have walks := @seqlast_walks raws final requested _ fuel modes stale direction settled enough split'
              rw [place, same.seqBeg] at walks
              rw [place, same.seqBeg, same.seqEnd] at split'
              rw [split] at increasing
              have iff' := walk_returns_iff ends increasing split' enough' late walks
              rw [← split] at iff'
              simp only [exactly, false_or, if_false]
              rw [iff']
              exact (and_iff_right records).symm
      · obtain ⟨waits, empty⟩ := Classical.not_imp.mp records
        obtain ⟨times, rfl⟩ : ∃ rest, fuel = rest + 1 := ⟨fuel - 1, by omega⟩
        rw [seekFile_sleeps holds set waits empty enough' times]
        simp only [not_returns_sleeps, false_iff]
        exact fun both => records both.1

/-- On every well-formed journal with increasing transaction ids the search ends with the record
it has to find exactly when it comes to the right place. -/
theorem jseek_honours_iff (holds : Holds raws jf) (increasing : Increasing (entries raws jf))
    (ends : direction = .forwards ∨ direction = .backwards) :
    Honours raws modes stale jf requested direction ↔ SeekMeets raws modes stale jf requested direction := by
  constructor
  · rintro ⟨fuel, honours⟩
    have returns := honours (max fuel (passes raws jf + 1)) (Nat.le_max_left _ _)
    exact (jseek_returns_iff holds increasing ends (Nat.le_max_right _ _)).mp returns
  · intro meets
    refine ⟨passes raws jf + 1, ?_⟩
    intro enough bound
    exact (jseek_returns_iff holds increasing ends bound).mpr meets

/-! ## A record in front of a pad -/

theorem firstRecord_transid : firstRecord.transid = 1 := by decide

theorem smallPad_transid : smallPad.transid = 68719529455 := by decide

theorem paddedFile_increasing : Increasing (entries paddedRaws paddedFile) := by
  have one : (entries paddedRaws paddedFile).filter Entry.isRecord =
      [⟨0, 0, firstRecord⟩] := by
    rfl
  unfold Increasing
  rw [one]
  exact List.pairwise_singleton _ _

theorem jseek_honours_iff_padded :
    Honours paddedRaws ⟨0, false⟩ (fun _ => 0)
    paddedFile 1 .forwards :=
  (jseek_honours_iff paddedFile_holds paddedFile_increasing (Or.inl rfl)).mpr (by
    have stops : remaining 1 (entries paddedRaws paddedFile) =
        [⟨0, 0, firstRecord⟩] := by
      rw [paddedFile_entries]
      simp [remaining, firstRecord_transid, smallPad_transid]
    have fine : ¬Spoiled (fun _ => 0) (newer 1 (entries paddedRaws paddedFile)).length := by
      rintro ⟨_, _, pad⟩
      exact absurd (show (0 : Nat) = streamidPad from pad) (by decide)
    unfold SeekMeets
    rw [if_neg (by decide)]
    unfold WalkMeets
    rw [stops]
    exact Or.inl ⟨fine, firstRecord_transid, by decide⟩)

/-- A search backwards for a later transaction returns the pad. -/
theorem jseek_returns_pad :
    ¬∀ (raws : Nat → List Raw) (modes : Modes) (stale : Nat → Nat) (jf : Jfile) (requested : Int)
      (direction : Direction), Holds raws jf → Increasing (entries raws jf) →
      (direction = .forwards ∨ direction = .backwards) →
      Honours raws modes stale jf requested direction := by
  intro all
  obtain ⟨fuel, honours⟩ := all paddedRaws ⟨0, false⟩ (fun _ => 0)
    paddedFile
    1099511627776 .backwards paddedFile_holds paddedFile_increasing (Or.inr rfl)
  have returns := honours (max fuel (passes paddedRaws paddedFile + 1))
    (Nat.le_max_left _ _)
  have meets := (jseek_returns_iff paddedFile_holds paddedFile_increasing (Or.inr rfl)
    (Nat.le_max_right _ _)).mp returns
  have stops : remaining 1099511627776 (entries paddedRaws paddedFile) =
      [⟨0, 32, smallPad⟩, ⟨0, 0, firstRecord⟩] := by
    rw [paddedFile_entries]
    simp [remaining, smallPad_transid]
  unfold SeekMeets at meets
  rw [if_neg (by decide)] at meets
  unfold WalkMeets at meets
  rw [stops] at meets
  simp only [if_true] at meets
  rcases meets with ⟨_, record⟩ | ⟨⟨_, _, pad⟩, _⟩
  · exact absurd record (by decide)
  · exact absurd (show (0 : Nat) = streamidPad from pad) (by decide)

end Dragonfly.Jscan
