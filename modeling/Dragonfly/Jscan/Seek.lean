import Dragonfly.Jscan.Read

/-!
# Looking for a transaction id

`jseek` looks at the first record of each file, from the newest file to the oldest, and then
walks backwards through the raw records up to the end of the file it has chosen.  The walk stops
at pads too, whose transaction id is garbage, and it is cut short by a backwards read that skips
every record.  A walk that stops in front of the request takes a step forwards and, if it prints
what it found, does not look whether there was a record.
-/

namespace Dragonfly.Jscan

variable {raws : Nat → List Raw} {jf after : Jfile} {requested : Int}

/-- The first record of a file is not newer than the request. -/
def reaches (raws : Nat → List Raw) (requested : Int) (seq : Nat) : Bool :=
  match (fileEntries raws seq).find? Entry.isRecord with
  | some entry => decide (entry.raw.transid ≤ requested)
  | none => false

/-- The newest of `count` files whose first record is not newer than the request. -/
def newest (raws : Nat → List Raw) (requested : Int) (first : Nat) : Nat → Option Nat
  | 0 => none
  | count + 1 =>
      if reaches raws requested (first + count) then some (first + count)
      else newest raws requested first count

/-- The raw records at the end of `seen` whose transaction id field is newer than the request,
from the end. -/
def newer (requested : Int) (seen : List Entry) : List Entry :=
  seen.reverse.takeWhile (fun entry => decide (requested < entry.raw.transid))

/-- The other raw records of `seen`, from the end. -/
def remaining (requested : Int) (seen : List Entry) : List Entry :=
  seen.reverse.dropWhile (fun entry => decide (requested < entry.raw.transid))

/-- One of the first backwards reads takes every record for a pad. -/
def Spoiled (stale : Nat → Nat) (reads : Nat) : Prop := ∃ call ≤ reads, stale call = streamidPad

/-! ## The first records of the files -/

theorem hasRecord_iff {list : List Entry} :
    HasRecord list ↔ ∃ entry, list.find? Entry.isRecord = some entry := by
  rw [← Option.isSome_iff_exists, List.find?_isSome]
  rfl

/-- The first record of files none of which starts in time is newer than the request. -/
theorem newer_of_find {first count : Nat} {entry : Entry}
    (late : ∀ seq, first ≤ seq → seq < first + count → reaches raws requested seq = false)
    (found : (entriesOf raws first count).find? Entry.isRecord = some entry) :
    requested < entry.raw.transid := by
  induction count generalizing first with
  | zero => simp [entriesOf] at found
  | succ count ih =>
      have here := late first (Nat.le_refl _) (by omega)
      rw [entriesOf_succ, List.find?_append] at found
      cases file : (fileEntries raws first).find? Entry.isRecord with
      | none =>
          rw [file, Option.none_or] at found
          exact ih (fun seq low high => late seq (by omega) (by omega)) found
      | some other =>
          rw [file, Option.some_or] at found
          cases found
          unfold reaches at here
          rw [file] at here
          exact Int.not_le.mp (of_decide_eq_false here)

theorem seqPred_eq {seq : Nat} (positive : 0 < seq) (small : seq < 4294967296) : seqPred seq = seq - 1 := by
  unfold seqPred
  omega

theorem reaches_of_find {seq : Nat} {entry : Entry}
    (found : (fileEntries raws seq).find? Entry.isRecord = some entry) :
    reaches raws requested seq = decide (entry.raw.transid ≤ requested) := by
  unfold reaches
  rw [found]

theorem reaches_of_find_none {seq : Nat}
    (empty : (fileEntries raws seq).find? Entry.isRecord = none) :
    reaches raws requested seq = false := by
  unfold reaches
  rw [empty]

theorem fileEntries_seq {seq : Nat} {entry : Entry}
    (found : (fileEntries raws seq).find? Entry.isRecord = some entry) : entry.seq = seq := by
  obtain ⟨before, beyond, split⟩ := List.append_of_mem (List.mem_of_find?_eq_some found)
  obtain ⟨_, _, _, same, _⟩ := placed_split split
  rw [same]

/-- What the loop over the files finds: no file, an exact answer, or the file to walk through. -/
def Locates (raws : Nat → List Raw) (jf : Jfile) (requested : Int) (wanted : Option Nat)
    (located : Located) : Prop :=
  match wanted with
  | none => ∃ final, located = .below final ∧ SameInput jf final
  | some seq => ∃ entry final, (fileEntries raws seq).find? Entry.isRecord = some entry ∧
      located = (if entry.raw.transid = requested then .answer (.record entry.jdata final)
        else .inFile final) ∧ SameInput jf final ∧ Settled raws final ∧ final.seq = seq

/-- The loop over the files stops at the newest one that starts in time. -/
theorem seekFile_locates (modes : Modes) {fuel : Nat} (holds : Holds raws jf)
    (set : jf.source.isPrefix = true) (enough : passes raws jf ≤ fuel)
    (records : modes.loopForever = true → HasRecord (fileEntries raws jf.seqEnd))
    (count : Nat) {times : Nat} (same : SameInput jf after)
    (within : jf.seqBeg + count ≤ jf.seqEnd + 1)
    (late : ∀ seq, jf.seqBeg + count ≤ seq → seq ≤ jf.seqEnd → reaches raws requested seq = false)
    (more : count < times) :
    Locates raws jf requested (newest raws requested jf.seqBeg count)
      (seekFile modes fuel requested times after (seqPred (jf.seqBeg + count))) := by
  have small := holds.numbered
  have ordered := holds.ordered
  induction count generalizing times after with
  | zero =>
      obtain ⟨times, rfl⟩ : ∃ rest, times = rest + 1 := ⟨times - 1, by omega⟩
      refine ⟨after, ?_, same⟩
      unfold seekFile
      rw [Nat.add_zero, same.seqBeg, if_pos rfl]
  | succ count ih =>
      obtain ⟨times, rfl⟩ : ∃ rest, times = rest + 1 := ⟨times - 1, by omega⟩
      have seq : seqPred (jf.seqBeg + (count + 1)) = jf.seqBeg + count := by
        have pred := @seqPred_eq (jf.seqBeg + (count + 1)) (by omega) (by omega)
        omega
      have inside : ¬jf.seqBeg + count = seqPred after.seqBeg := by
        rw [same.seqBeg]
        unfold seqPred
        omega
      let here : Jfile := { after with seq := jf.seqBeg + count }
      have same' : SameInput jf here := ⟨same.source, same.seqBeg, same.seqEnd⟩
      have holds' : Holds raws here := holds.of_same same' (fun single => absurd set (by simp [single]))
      have low : here.seqBeg ≤ here.seq := by
        show after.seqBeg ≤ _
        rw [same.seqBeg]
        exact Nat.le_add_right _ _
      have high : here.seq ≤ here.seqEnd := by
        show _ ≤ after.seqEnd
        rw [same.seqEnd]
        show jf.seqBeg + count ≤ _
        omega
      have enough' : passes raws here ≤ fuel := by
        rw [same'.passes_eq]
        exact enough
      have reply := jread_seqfirst modes 0 holds' low high enough'
      have span : entriesOf raws here.seq (here.seqEnd - here.seq + 1) =
          entriesOf raws (jf.seqBeg + count) (jf.seqEnd - (jf.seqBeg + count) + 1) := by
        rw [same'.seqEnd]
      rw [span] at reply
      rw [seq]
      unfold seekFile
      rw [if_neg inside]
      -- the loop goes on when this file starts too late
      have onward : ∀ final, SameInput jf final → reaches raws requested (jf.seqBeg + count) = false →
          Locates raws jf requested (newest raws requested jf.seqBeg (count + 1))
            (seekFile modes fuel requested times final (seqPred (jf.seqBeg + count))) := by
        intro final input no
        have rest := ih input (by omega) (fun other low high => by
          rcases Nat.eq_or_lt_of_le low with rfl | beyond
          · exact no
          · exact late other beyond high) (by omega : count < times)
        unfold newest
        rw [no]
        exact rest
      cases found : (entriesOf raws (jf.seqBeg + count)
          (jf.seqEnd - (jf.seqBeg + count) + 1)).find? Entry.isRecord with
      | none =>
          rw [found] at reply
          have no : reaches raws requested (jf.seqBeg + count) = false := by
            rw [entriesOf_succ, List.find?_append, Option.or_eq_none_iff] at found
            exact reaches_of_find_none found.1
          have quiet : modes.loopForever = false := by
            cases waits : modes.loopForever with
            | false => rfl
            | true =>
                have has : HasRecord (entriesOf raws (jf.seqBeg + count)
                    (jf.seqEnd - (jf.seqBeg + count) + 1)) :=
                  (records waits).of_file (by omega) (by omega)
                obtain ⟨entry, found'⟩ := hasRecord_iff.mp has
                rw [found] at found'
                cases found'
          rw [quiet] at reply
          obtain ⟨final, eq, input, _⟩ := reply
          rw [eq]
          exact onward final (same'.trans input) no
      | some entry =>
          rw [found] at reply
          obtain ⟨final, eq, input, settled, place⟩ := reply
          have input := same'.trans input
          rw [eq]
          simp only [Entry.jdata_transid]
          cases reached : reaches raws requested (jf.seqBeg + count) with
          | true =>
              -- the record is the first one of this file
              have file : (fileEntries raws (jf.seqBeg + count)).find? Entry.isRecord = some entry := by
                rw [entriesOf_succ, List.find?_append] at found
                cases first : (fileEntries raws (jf.seqBeg + count)).find? Entry.isRecord with
                | none =>
                    rw [reaches_of_find_none first] at reached
                    cases reached
                | some other => rwa [first, Option.some_or] at found
              rw [reaches_of_find file] at reached
              have early := of_decide_eq_true reached
              unfold newest
              rw [reaches_of_find file, reached, if_pos rfl]
              refine ⟨entry, final, file, ?_, input, settled, ?_⟩
              · by_cases exactly : entry.raw.transid = requested
                · rw [if_pos exactly, if_pos exactly]
                · rw [if_neg exactly, if_neg exactly, if_pos (Int.lt_iff_le_and_ne.mpr ⟨early, exactly⟩)]
              · rw [place]
                exact fileEntries_seq file
          | false =>
              have span' : jf.seqEnd - (jf.seqBeg + count) + 1 = jf.seqEnd + 1 - (jf.seqBeg + count) := by
                omega
              have beyond : requested < entry.raw.transid := by
                apply newer_of_find _ found
                intro other low high
                rcases Nat.eq_or_lt_of_le low with rfl | beyond
                · exact reached
                · exact late other beyond (by omega)
              rw [if_neg (Int.ne_of_gt beyond), if_neg (Int.not_lt.mpr (Int.le_of_lt beyond))]
              exact onward final input reached

/-! ## The walk -/

variable {seen beyond : List Entry} {entry : Entry}

theorem newer_concat (seen : List Entry) (entry : Entry) :
    newer requested (seen ++ [entry]) =
      if requested < entry.raw.transid then entry :: newer requested seen else [] := by
  unfold newer
  rw [List.reverse_concat, List.takeWhile_cons]
  simp only [decide_eq_true_eq]

theorem remaining_concat (seen : List Entry) (entry : Entry) :
    remaining requested (seen ++ [entry]) =
      if requested < entry.raw.transid then remaining requested seen else entry :: seen.reverse := by
  unfold remaining
  rw [List.reverse_concat, List.dropWhile_cons]
  simp only [decide_eq_true_eq]

theorem spoiled_succ {stale : Nat → Nat} {call reads : Nat} (fine : stale call ≠ streamidPad) :
    Spoiled (fun later => stale (call + later)) (reads + 1) ↔
      Spoiled (fun later => stale (call + 1 + later)) reads := by
  constructor
  · rintro ⟨later, bound, pad⟩
    cases later with
    | zero => exact absurd pad fine
    | succ later =>
        refine ⟨later, Nat.le_of_succ_le_succ bound, ?_⟩
        rw [← pad]
        exact congrArg stale (Nat.add_right_comm call 1 later)
  · rintro ⟨later, bound, pad⟩
    refine ⟨later + 1, Nat.succ_le_succ bound, ?_⟩
    rw [← pad]
    exact congrArg stale (Nat.add_right_comm call later 1)

/-- What the walk through the raw records of `seen` comes to. -/
def Walks (raws : Nat → List Raw) (jf : Jfile) (modes : Modes) (stale : Nat → Nat) (fuel : Nat)
    (requested : Int) (direction : Direction) (seen : List Entry) (reply : Reply) : Prop :=
  ∃ final, SameInput jf final ∧ Settled raws final ∧
    match remaining requested seen with
    | [] => reply = seekNone modes fuel final direction
    | hit :: _ =>
        (Spoiled stale (newer requested seen).length → reply = seekNone modes fuel final direction) ∧
        (¬Spoiled stale (newer requested seen).length →
          reply = seekHit modes fuel requested direction hit.jdata final)

theorem seekBack_walks (modes : Modes) (stale : Nat → Nat) {fuel : Nat} (direction : Direction)
    (enough : passes raws jf ≤ fuel) {call times : Nat} {reply : Reply}
    (split : entries raws jf = seen ++ beyond) (more : seen.length < times)
    (answers : Answers raws jf false (if stale call = streamidPad then none else seen.getLast?) reply) :
    Walks raws jf modes (fun later => stale (call + later)) fuel requested direction seen
      (seekBack modes stale fuel requested direction times call reply) := by
  induction seen using List.reverseRecOn generalizing beyond call times reply with
  | nil =>
      obtain ⟨times, rfl⟩ : ∃ rest, times = rest + 1 := ⟨times - 1, by omega⟩
      simp only [List.getLast?_nil, ite_self] at answers
      obtain ⟨final, rfl, same, settled⟩ := answers
      exact ⟨final, same, settled, rfl⟩
  | append_singleton seen entry ih =>
      obtain ⟨times, rfl⟩ : ∃ rest, times = rest + 1 := ⟨times - 1, by omega⟩
      rw [List.getLast?_concat] at answers
      by_cases pad : stale call = streamidPad
      · rw [if_pos pad] at answers
        obtain ⟨final, rfl, same, settled⟩ := answers
        refine ⟨final, same, settled, ?_⟩
        have spoiled : ∀ reads, Spoiled (fun later => stale (call + later)) reads :=
          fun reads => ⟨0, Nat.zero_le _, pad⟩
        cases remaining requested (seen ++ [entry]) with
        | nil => rfl
        | cons hit earlier => exact ⟨fun _ => rfl, fun fine => absurd (spoiled _) fine⟩
      · rw [if_neg pad] at answers
        obtain ⟨final, rfl, same, settled, _⟩ := answers
        have here : entries raws final = seen ++ entry :: beyond := by
          rw [same.entries_eq, split, List.append_assoc]
          rfl
        unfold Walks
        rw [newer_concat, remaining_concat]
        unfold seekBack
        rw [Entry.jdata_transid]
        by_cases late : requested < entry.raw.transid
        · rw [if_pos late, if_pos late, if_neg (Int.not_le.mpr late), List.length_cons]
          rw [← same.passes_eq] at enough
          have reply := jread_prev modes (stale (call + 1)) settled here enough
          rw [same.passes_eq] at enough
          rw [List.length_append, List.length_singleton] at more
          have split' : entries raws jf = seen ++ entry :: beyond := by
            rw [split, List.append_assoc]
            rfl
          obtain ⟨last, input, settled', walk⟩ :=
            ih split' (Nat.lt_of_succ_lt_succ more) (reply.of_same same)
          refine ⟨last, input, settled', ?_⟩
          cases rest : remaining requested seen with
          | nil =>
              rw [rest] at walk
              exact walk
          | cons hit earlier =>
              rw [rest] at walk
              rw [spoiled_succ pad]
              exact walk
        · rw [if_neg late, if_neg late, if_pos (Int.not_lt.mp late)]
          refine ⟨final, same, settled, ?_, fun _ => rfl⟩
          rintro ⟨later, bound, spoiled⟩
          cases Nat.le_zero.mp bound
          exact absurd spoiled pad

end Dragonfly.Jscan
