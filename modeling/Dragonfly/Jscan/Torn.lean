import Mathlib
import Dragonfly.Jscan.Ends

/-!
# Files with a truncated tail

A crash can leave the first bytes of one more record at the end of a file.  If these are at least
a header, the forwards loop reads it, misses the rest and finds nothing more, and the reader goes
on in the next file.  A shorter rest is returned by the read of the header as a count that is
neither a header nor zero, and there the reader stops for good.
-/

namespace Dragonfly.Jscan

variable {raws : Nat → List Raw} {tails : Nat → List UInt8} {jf after : Jfile}
variable {done todo : List Raw} {modes : Modes}

/-- The first bytes of a record that is not complete. -/
def Truncated (tail : List UInt8) : Prop :=
  ∃ raw : Raw, tail <+: raw.bytes ∧ tail.length < raw.bytes.length

/-- There is a rest that is shorter than a header. -/
def Short (tail : List UInt8) : Prop := 0 < tail.length ∧ tail.length < 16

instance (tail : List UInt8) : Decidable (Short tail) := inferInstanceAs (Decidable (_ ∧ _))

/-- Every file of a prefix set holds raw records and the first bytes of one more. -/
structure HoldsTorn (raws : Nat → List Raw) (tails : Nat → List UInt8) (jf : Jfile) : Prop where
  set : jf.source.isPrefix = true
  ordered : jf.seqBeg ≤ jf.seqEnd
  files : ∀ seq, jf.seqBeg ≤ seq → seq ≤ jf.seqEnd →
    (jf.source.file seq).getD [] = stream (raws seq) ++ tails seq
  truncated : ∀ seq, jf.seqBeg ≤ seq → seq ≤ jf.seqEnd → Truncated (tails seq)
  last : jf.source.file (jf.seqEnd + 1) = none

/-- Reading from the start returns all records of all files in order, and then `NULL`. -/
def ReadsAll (raws : Nat → List Raw) (modes : Modes) (jf : Jfile) : Prop :=
  ∃ bound, ∀ fuel, bound ≤ fuel → ∃ after,
    readAll modes fuel fuel (jread modes 0 fuel jf none .forwards) =
      (((entries raws jf).filter Entry.isRecord).map Entry.jdata, .null after)

/-- Truncated tails cost nothing but the truncated records, and every read comes back. -/
def Tolerates (raws : Nat → List Raw) (modes : Modes) (jf : Jfile) : Prop :=
  ReadsAll raws modes jf ∧
    ∀ (stale : Nat) (reader : Jfile) (jd : Option Jdata) (direction : Direction),
      (direction = .forwards ∨ direction = .backwards) →
      ∃ bound, ∀ fuel, bound ≤ fuel → ComesBack (jread modes stale fuel reader jd direction)

/-- No file behind a short rest has a record. -/
def NothingBehind (raws : Nat → List Raw) (tails : Nat → List UInt8) (jf : Jfile) : Prop :=
  ∀ seq later, jf.seqBeg ≤ seq → seq < later → later ≤ jf.seqEnd → Short (tails seq) →
    ¬HasRecord (fileEntries raws later)

/-! ## The end of a file -/

/-- A read forwards of more than is left returns what is left. -/
theorem jreadbuf_rest {before rest : List UInt8} {bytes : Nat} (opened : jf.fd = some (before ++ rest))
    (place : jf.pos = before.length) (past : rest.length ≤ bytes) :
    jreadbuf jf .forwards bytes = (rest, { jf with pos := (before ++ rest).length }) := by
  have left : (before ++ rest).drop jf.pos.toNat = rest := by
    rw [place, Int.toNat_natCast, List.drop_left']
    rfl
  unfold jreadbuf
  rw [opened]
  simp only [if_true, left]
  rw [List.take_of_length_le past, place, List.length_append]
  rfl

/-- There is nothing to align with at the end of the file. -/
theorem jalign_end {contents : List UInt8} (opened : jf.fd = some contents)
    (place : jf.pos = contents.length) : jalign jf .forwards = jf := by
  have none' : ∀ bytes, (jreadbuf jf .forwards bytes).2 = jf := by
    intro bytes
    have whole : jf.fd = some (contents ++ []) := by rw [opened, List.append_nil]
    rw [jreadbuf_rest whole place (Nat.zero_le bytes), List.append_nil, ← place]
  unfold jalign
  split
  · rw [if_pos rfl, none']
  · rfl

/-- At the end of the file the forwards loop ends. -/
theorem forwardPass_end {contents : List UInt8} (opened : jf.fd = some contents)
    (place : jf.pos = contents.length) : forwardPass jf = .ended 0 jf := by
  have whole : jf.fd = some (contents ++ []) := by rw [opened, List.append_nil]
  have read : jreadbuf jf .forwards sizeofRawrecbeg = ([], jf) := by
    rw [jreadbuf_rest whole place (Nat.zero_le _), List.append_nil, ← place]
  unfold forwardPass
  rw [read]
  rfl

/-- A rest that is shorter than a header ends the loop with its length. -/
theorem forwardPass_short {before tail : List UInt8} (opened : jf.fd = some (before ++ tail))
    (place : jf.pos = before.length) (short : tail.length < 16) :
    forwardPass jf = .ended tail.length { jf with pos := (before ++ tail).length } := by
  have read : jreadbuf jf .forwards sizeofRawrecbeg =
      (tail, { jf with pos := (before ++ tail).length }) :=
    jreadbuf_rest opened place (Nat.le_of_lt short)
  have few : tail.length ≠ sizeofRawrecbeg := Nat.ne_of_lt short
  unfold forwardPass
  rw [read]
  simp only [if_pos few]

/-- A header without its record takes the reader to the end of the file. -/
theorem forwardPass_torn {before tail : List UInt8} (opened : jf.fd = some (before ++ tail))
    (place : jf.pos = before.length) (truncated : Truncated tail) (long : 16 ≤ tail.length) :
    forwardPass jf = .again { jf with pos := (before ++ tail).length } := by
  obtain ⟨raw, ⟨missing, whole⟩, less⟩ := truncated
  have headLength : (tail.take 16).length = 16 := by
    rw [List.length_take]
    omega
  have same : tail.take 16 = raw.bytes.take 16 := by
    rw [← whole, List.take_append_of_le_length long]
  have parts : before ++ tail = before ++ tail.take 16 ++ tail.drop 16 := by
    rw [List.append_assoc, List.take_append_drop]
  have headRead : jreadbuf jf .forwards sizeofRawrecbeg =
      (tail.take 16, { jf with pos := jf.pos + 16 }) := by
    have read := jreadbuf_forwards jf before (tail.take 16) (tail.drop 16)
      (opened.trans (congrArg some parts)) place
    rw [headLength] at read
    exact read
  have few : (tail.drop 16).length < raw.size - 16 := by
    rw [List.length_drop]
    unfold Raw.size
    omega
  have restRead : jreadbuf { jf with pos := jf.pos + 16 } .forwards (raw.size - 16) =
      (tail.drop 16, { jf with pos := (before ++ tail).length }) := by
    rw [parts]
    refine @jreadbuf_rest { jf with pos := jf.pos + 16 } _ _ _ (opened.trans (congrArg some parts)) ?_
      (Nat.le_of_lt few)
    rw [place, List.length_append, headLength]
    rfl
  have still : jalign { jf with pos := ((before ++ tail).length : Int) } .forwards =
      { jf with pos := ((before ++ tail).length : Int) } := jalign_end opened rfl
  have beg : begmagic (tail.take 16) = begMagic := by
    rw [same, begmagic_take (Nat.le_refl 16)]
    exact raw.isRaw.beg
  have size : alignSize (recsize (tail.take 16)) = (raw.size : Int) := by
    rw [same, recsize_take (by omega : 8 ≤ 16)]
    exact raw.headSize_eq
  unfold forwardPass
  rw [headRead]
  simp only [headLength, sizeofRawrecbeg, ne_eq, not_true_eq_false, if_false, beg, size, Int.toNat_natCast,
    if_neg raw.sizes, restRead, if_pos (Nat.ne_of_lt few), still]

/-! ## What is read -/

/-- The raw records the forwards reads come to in `count` files. -/
def visible (raws : Nat → List Raw) (tails : Nat → List UInt8) : Nat → Nat → List Entry
  | _, 0 => []
  | first, count + 1 =>
      fileEntries raws first ++ if Short (tails first) then [] else visible raws tails (first + 1) count

/-- The reader is in front of `todo` in its file. -/
structure TornStands (raws : Nat → List Raw) (tails : Nat → List UInt8) (jf : Jfile)
    (done todo : List Raw) : Prop where
  holds : HoldsTorn raws tails jf
  low : jf.seqBeg ≤ jf.seq
  high : jf.seq ≤ jf.seqEnd
  split : raws jf.seq = done ++ todo
  place : (jf.fd = some (stream (raws jf.seq) ++ tails jf.seq) ∧ jf.pos = (stream done).length) ∨
    (jf.fd = none ∧ todo = [] ∧ tails jf.seq = [])

/-- The raw records in front of the reader that it comes to. -/
def visibleAhead (raws : Nat → List Raw) (tails : Nat → List UInt8) (jf : Jfile) (done todo : List Raw) :
    List Entry :=
  placed jf.seq (stream done).length todo ++
    if Short (tails jf.seq) then [] else visible raws tails (jf.seq + 1) (jf.seqEnd - jf.seq)

theorem HoldsTorn.of_same (holds : HoldsTorn raws tails jf) (same : SameInput jf after) :
    HoldsTorn raws tails after := by
  constructor
  · rw [same.source]
    exact holds.set
  · rw [same.seqBeg, same.seqEnd]
    exact holds.ordered
  · rw [same.seqBeg, same.seqEnd, same.source]
    exact holds.files
  · rw [same.seqBeg, same.seqEnd]
    exact holds.truncated
  · rw [same.source, same.seqEnd]
    exact holds.last

/-- The reader at the start of a file that was just opened, or could not be. -/
theorem top_torn (holds : HoldsTorn raws tails jf) (low : jf.seqBeg ≤ jf.seq) (high : jf.seq ≤ jf.seqEnd)
    (closed : jf.fd = none) :
    SameInput jf (top jf .forwards) ∧ (top jf .forwards).seq = jf.seq ∧
      TornStands raws tails (top jf .forwards) [] (raws jf.seq) := by
  have contents := holds.files jf.seq low high
  cases there : jf.source.file jf.seq with
  | none =>
      rw [there] at contents
      obtain ⟨noRaws, noTail⟩ := List.append_eq_nil_iff.mp contents.symm
      obtain ⟨pos, eq⟩ := top_missing closed there .forwards
      rw [eq]
      exact ⟨⟨rfl, rfl, rfl⟩, rfl, holds.of_same ⟨rfl, rfl, rfl⟩, low, high, rfl,
        Or.inr ⟨closed, stream_eq_nil noRaws, noTail⟩⟩
  | some file =>
      rw [there] at contents
      have same : file = stream (raws jf.seq) ++ tails jf.seq := contents
      have eq : top jf .forwards = { jf with fd := some file, pos := 0 } := by
        unfold top
        simp only [closed, there, if_true]
        rw [if_neg (by decide)]
      rw [eq]
      exact ⟨⟨rfl, rfl, rfl⟩, rfl, holds.of_same ⟨rfl, rfl, rfl⟩, low, high, rfl,
        Or.inl ⟨congrArg some same, rfl⟩⟩

theorem TornStands.forward {raw : Raw} (stands : TornStands raws tails jf done (raw :: todo)) :
    jf.fd = some (stream (raws jf.seq) ++ tails jf.seq) ∧ jf.pos = (stream done).length ∧
      TornStands raws tails { jf with pos := (stream (done ++ [raw])).length } (done ++ [raw]) todo := by
  rcases stands.place with ⟨opened, place⟩ | ⟨_, empty, _⟩
  · refine ⟨opened, place, stands.holds.of_same ⟨rfl, rfl, rfl⟩, stands.low, stands.high, ?_,
      Or.inl ⟨opened, rfl⟩⟩
    rw [List.append_assoc]
    exact stands.split
  · cases empty

theorem visibleAhead_cons (raws : Nat → List Raw) (tails : Nat → List UInt8) (jf : Jfile)
    (done todo : List Raw) (raw : Raw) :
    visibleAhead raws tails jf done (raw :: todo) =
      ⟨jf.seq, (stream done).length, raw⟩ :: visibleAhead raws tails jf (done ++ [raw]) todo := by
  unfold visibleAhead
  rw [stream_concat, List.length_append]
  rfl

/-- What a forwards read comes to when `records` lie ahead: the first of them, with the reader
behind it, or none. -/
def Reads (raws : Nat → List Raw) (tails : Nat → List UInt8) (jf : Jfile) (records : List Entry)
    (read : Nat → Reply) : Prop :=
  (∃ entry after done todo bound, (∀ fuel, bound ≤ fuel → read fuel = .record entry.jdata after) ∧
    SameInput jf after ∧ TornStands raws tails after done todo ∧ after.fd ≠ none ∧
    after.seq = entry.seq ∧ after.pos = entry.pos + entry.raw.size ∧
    records = entry :: (visibleAhead raws tails after done todo).filter Entry.isRecord) ∨
  ∃ after bound, (∀ fuel, bound ≤ fuel → read fuel = .null after) ∧ records = []

namespace Reads

variable {records : List Entry} {read longer : Nat → Reply}

/-- One more pass in front of a read. -/
theorem succ (reads : Reads raws tails jf records read) (step : ∀ fuel, longer (fuel + 1) = read fuel) :
    Reads raws tails jf records longer := by
  have shift : ∀ (bound : Nat) (reply : Reply), (∀ fuel, bound ≤ fuel → read fuel = reply) →
      ∀ fuel, bound + 1 ≤ fuel → longer fuel = reply := by
    rintro bound reply all (_ | fuel) enough
    · omega
    · rw [step]
      exact all fuel (by omega)
  rcases reads with ⟨entry, after, done, todo, bound, all, rest⟩ | ⟨after, bound, all, rest⟩
  · exact Or.inl ⟨entry, after, done, todo, bound + 1, shift bound _ all, rest⟩
  · exact Or.inr ⟨after, bound + 1, shift bound _ all, rest⟩

theorem of_same (reads : Reads raws tails after records read) (same : SameInput jf after) :
    Reads raws tails jf records read := by
  rcases reads with ⟨entry, final, done, todo, bound, all, input, rest⟩ | null
  · exact Or.inl ⟨entry, final, done, todo, bound, all, same.trans input, rest⟩
  · exact Or.inr null

end Reads

/-- The end of a file: the next file, or no more records. -/
theorem scan_torn_end {final : Jfile} {error : Nat} (quiet : modes.loopForever = false) (stale : Nat)
    (stands : TornStands raws tails jf done []) (pass : forwardPass after = .ended error final)
    (moved : Moved jf final) (stops : error = 0 ↔ ¬Short (tails jf.seq))
    (next : ∀ other : Jfile, other.seqEnd - other.seq < jf.seqEnd - jf.seq →
      TornStands raws tails other [] (raws other.seq) →
      Reads raws tails other ((visibleAhead raws tails other [] (raws other.seq)).filter Entry.isRecord)
        (fun fuel => scan modes stale .forwards fuel other)) :
    Reads raws tails jf ((visibleAhead raws tails jf done []).filter Entry.isRecord)
      (fun fuel => scan modes stale .forwards fuel after) := by
  have low := stands.low
  have high := stands.high
  have set : final.source.isPrefix = true := by
    rw [moved.source]
    exact stands.holds.set
  by_cases short : Short (tails jf.seq)
  · have stuck : roll modes .forwards error final = .null final := by
      have nonzero : error ≠ 0 := fun zero => stops.mp zero short
      unfold roll
      rw [if_neg (fun both => nonzero both.1), if_neg (fun both => nonzero both.1)]
    right
    refine ⟨final, 1, ?_, ?_⟩
    · rintro (_ | fuel) enough
      · omega
      · simp only [scan, if_true, pass, stuck]
    · unfold visibleAhead
      rw [if_pos short]
      rfl
  · have zero := stops.mpr short
    have list : visibleAhead raws tails jf done [] = visible raws tails (jf.seq + 1) (jf.seqEnd - jf.seq) := by
      unfold visibleAhead
      rw [if_neg short]
      rfl
    rw [list]
    by_cases more : jf.seq < jf.seqEnd
    · let other : Jfile := { final with seq := jf.seq + 1, fd := none }
      have rolled : roll modes .forwards error final = .goto other := by
        unfold roll
        have further : final.seq < final.seqEnd := by
          rw [moved.seq, moved.seqEnd]
          exact more
        rw [if_pos ⟨zero, set⟩, if_pos rfl, if_pos further]
        show Roll.goto { final with seq := final.seq + 1, fd := none } =
          .goto { final with seq := jf.seq + 1, fd := none }
        rw [moved.seq]
      have same : SameInput jf other := ⟨moved.source, moved.seqBeg, moved.seqEnd⟩
      have low' : other.seqBeg ≤ other.seq := by
        show final.seqBeg ≤ jf.seq + 1
        rw [moved.seqBeg]
        exact Nat.le_succ_of_le low
      have high' : other.seq ≤ other.seqEnd := by
        show jf.seq + 1 ≤ final.seqEnd
        rw [moved.seqEnd]
        exact more
      obtain ⟨input, seq, opened⟩ := top_torn (stands.holds.of_same same) low' high' rfl
      have count : jf.seqEnd - jf.seq = jf.seqEnd - (jf.seq + 1) + 1 := by omega
      have ahead : visibleAhead raws tails (top other .forwards) [] (raws other.seq) =
          visible raws tails (jf.seq + 1) (jf.seqEnd - jf.seq) := by
        unfold visibleAhead
        rw [seq, input.seqEnd, same.seqEnd, count]
        rfl
      have fewer : (top other .forwards).seqEnd - (top other .forwards).seq < jf.seqEnd - jf.seq := by
        rw [seq, input.seqEnd, same.seqEnd]
        show jf.seqEnd - (jf.seq + 1) < _
        omega
      rw [← seq] at opened ahead
      rw [← ahead]
      refine ((next _ fewer opened).of_same (same.trans input)).succ ?_
      intro fuel
      simp only [scan, if_true, pass, rolled]
    · have null : roll modes .forwards error final = .null final := by
        rcases roll_cases modes quiet .forwards error final with null | ⟨_, further, _⟩ | ⟨no, _⟩
        · exact null
        · rw [moved.seq, moved.seqEnd] at further
          exact absurd further more
        · exact absurd rfl no
      have none' : jf.seqEnd - jf.seq = 0 := by omega
      right
      refine ⟨final, 1, ?_, ?_⟩
      · rintro (_ | fuel) enough
        · omega
        · simp only [scan, if_true, pass, null]
      · rw [none']
        rfl

/-- The forwards loop from in front of `todo`, by induction on the files that are left and on the
records that are left in this one. -/
theorem scan_torn (quiet : modes.loopForever = false) (stale files : Nat)
    (few : jf.seqEnd - jf.seq = files) (stands : TornStands raws tails jf done todo) :
    Reads raws tails jf ((visibleAhead raws tails jf done todo).filter Entry.isRecord)
      (fun fuel => scan modes stale .forwards fuel jf) := by
  induction files using Nat.strong_induction_on generalizing jf done todo with
  | _ files outer =>
      induction todo generalizing jf done with
      | cons raw todo inner =>
          obtain ⟨opened, place, moved⟩ := stands.forward
          have contents : stream (raws jf.seq) ++ tails jf.seq =
              stream done ++ raw.bytes ++ (stream todo ++ tails jf.seq) := by
            rw [stands.split, stream_append, stream_cons]
            simp only [List.append_assoc]
          have pass := forwardPass_raw (opened.trans (congrArg some contents)) place
          rw [← stream_concat] at pass
          rw [visibleAhead_cons]
          by_cases pad : raw.IsPad
          · rw [if_pos pad] at pass
            have skips : Entry.isRecord ⟨jf.seq, (stream done).length, raw⟩ = false := by
              simp [Entry.isRecord, pad]
            have same : SameInput jf { jf with pos := (stream (done ++ [raw])).length } := ⟨rfl, rfl, rfl⟩
            rw [List.filter_cons_of_neg (by rw [skips]; decide)]
            refine ((inner (by exact few) moved).of_same same).succ ?_
            intro fuel
            simp only [scan, if_true, pass]
          · rw [if_neg pad] at pass
            have stops : Entry.isRecord ⟨jf.seq, (stream done).length, raw⟩ = true := by
              simp [Entry.isRecord, pad]
            left
            refine ⟨⟨jf.seq, (stream done).length, raw⟩,
              { jf with pos := (stream (done ++ [raw])).length }, done ++ [raw], todo, 1, ?_,
              ⟨rfl, rfl, rfl⟩, moved, ?_, rfl, ?_, ?_⟩
            · rintro (_ | fuel) enough
              · omega
              · simp only [scan, if_true, pass]
            · show jf.fd ≠ none
              rw [opened]
              exact (by rintro ⟨⟩)
            · show ((stream (done ++ [raw])).length : Int) = _
              rw [stream_concat, List.length_append]
              rfl
            · rw [List.filter_cons_of_pos stops]
              rfl
      | nil =>
          have next : ∀ other : Jfile, other.seqEnd - other.seq < jf.seqEnd - jf.seq →
              TornStands raws tails other [] (raws other.seq) →
              Reads raws tails other ((visibleAhead raws tails other [] (raws other.seq)).filter Entry.isRecord)
                (fun fuel => scan modes stale .forwards fuel other) :=
            fun other fewer there => outer _ (by omega) rfl there
          rcases stands.place with ⟨opened, place⟩ | ⟨closed, _, empty⟩
          · have file : raws jf.seq = done := by rw [stands.split, List.append_nil]
            rw [file] at opened
            by_cases few' : (tails jf.seq).length < 16
            · refine scan_torn_end quiet stale stands (forwardPass_short opened place few')
                ⟨rfl, rfl, rfl, rfl, rfl⟩ ?_ next
              unfold Short
              omega
            · have long := Nat.le_of_not_lt few'
              have torn := forwardPass_torn opened place (stands.holds.truncated _ stands.low stands.high) long
              have stops : (0 : Nat) = 0 ↔ ¬Short (tails jf.seq) := by
                unfold Short
                omega
              have finish : forwardPass { jf with pos := (stream done ++ tails jf.seq).length } =
                  .ended 0 { jf with pos := (stream done ++ tails jf.seq).length } :=
                forwardPass_end opened rfl
              refine (scan_torn_end quiet stale stands finish ⟨rfl, rfl, rfl, rfl, rfl⟩ stops next).succ ?_
              intro fuel
              simp only [scan, if_true, torn]
          · have ended : forwardPass jf = .ended 0 jf := by
              unfold forwardPass jreadbuf
              rw [closed]
              rfl
            refine scan_torn_end quiet stale stands ended (Moved.refl jf) ?_ next
            rw [empty]
            unfold Short
            simp

/-! ## The whole journal -/

/-- The next read goes on where the last one stopped. -/
theorem jread_again {entry : Entry} {fuel : Nat} (stands : TornStands raws tails after done todo)
    (opened : after.fd ≠ none) (seq : after.seq = entry.seq)
    (place : after.pos = entry.pos + entry.raw.size) :
    jread modes 0 fuel after (some entry.jdata) .forwards = scan modes 0 .forwards fuel after := by
  rcases stands.place with ⟨there, aligned⟩ | ⟨closed, _⟩
  · have still : reopen after entry.jdata.seq = after := by
      have here : entry.jdata.seq = after.seq := seq.symm
      have kept : (if after.fd.isSome = true ∧ after.seq ≠ after.seq then none else after.fd) = after.fd :=
        if_neg (fun both => both.2 rfl)
      have some : after.fd.isNone = false := by
        rw [there]
        rfl
      unfold reopen
      rw [if_pos stands.holds.set, here]
      simp only [kept, some, Bool.false_eq_true, if_false]
    have here : { after with pos := entry.jdata.pos + entry.jdata.size } = after := by
      have same : entry.jdata.pos + entry.jdata.size = after.pos := place.symm
      rw [same]
    have multiple : after.pos % 16 = 0 := by
      rw [aligned]
      exact_mod_cast stream_aligned done
    have top' : top after .forwards = after := by
      unfold top
      simp only [there, multiple, ne_eq, not_true_eq_false, if_false]
    unfold jread jreadFrom
    simp only [reduceCtorEq, or_self, if_false, if_true, still, here, top']
  · exact absurd closed opened

/-- The reads return everything that lies ahead, by induction on the records. -/
theorem readAll_reads (quiet : modes.loopForever = false) (records : List Entry) {read : Nat → Reply}
    (reads : Reads raws tails jf records read) :
    ∃ bound final, ∀ fuel times, bound ≤ fuel → records.length < times →
      readAll modes fuel times (read fuel) = (records.map Entry.jdata, .null final) := by
  induction records generalizing jf read with
  | nil =>
      rcases reads with ⟨entry, after, _, _, _, _, _, _, _, _, _, list⟩ | ⟨after, bound, all, _⟩
      · cases list
      · refine ⟨bound, after, ?_⟩
        rintro fuel (_ | times) enough more
        · omega
        · rw [all fuel enough]
          rfl
  | cons entry records ih =>
      rcases reads with ⟨first, after, done, todo, bound, all, same, stands, opened, seq, place, list⟩ |
        ⟨_, _, _, none⟩
      · obtain ⟨rfl, rfl⟩ := List.cons.inj list
        obtain ⟨bound', final, rest⟩ := ih (scan_torn quiet 0 _ rfl stands)
        refine ⟨max bound bound', final, ?_⟩
        rintro fuel (_ | times) enough more
        · omega
        · have tail := rest fuel times (by omega) (Nat.lt_of_succ_lt_succ more)
          rw [all fuel (by omega)]
          unfold readAll
          rw [jread_again stands opened seq place, tail]
          rfl
      · cases none

theorem readAll_torn (quiet : modes.loopForever = false) (holds : HoldsTorn raws tails jf) :
    ∃ bound final, ∀ fuel, bound ≤ fuel →
      readAll modes fuel fuel (jread modes 0 fuel jf none .forwards) =
        (((visible raws tails jf.seqBeg (jf.seqEnd + 1 - jf.seqBeg)).filter Entry.isRecord).map
          Entry.jdata, .null final) := by
  let start : Jfile := { jf with fd := none, seq := jf.seqBeg }
  have holds' : HoldsTorn raws tails start := holds.of_same ⟨rfl, rfl, rfl⟩
  obtain ⟨same, seq, stands⟩ := top_torn holds' (Nat.le_refl _) holds.ordered rfl
  have count : jf.seqEnd + 1 - jf.seqBeg = jf.seqEnd - jf.seqBeg + 1 := by
    have ordered := holds.ordered
    omega
  have list : visibleAhead raws tails (top start .forwards) [] (raws start.seq) =
      visible raws tails jf.seqBeg (jf.seqEnd + 1 - jf.seqBeg) := by
    unfold visibleAhead
    rw [seq, same.seqEnd, count]
    rfl
  have reads := scan_torn quiet 0 _ rfl stands
  rw [list] at reads
  obtain ⟨bound, final, all⟩ := readAll_reads quiet _ reads
  refine ⟨max bound (((visible raws tails jf.seqBeg (jf.seqEnd + 1 - jf.seqBeg)).filter
    Entry.isRecord).length + 1), final, ?_⟩
  intro fuel enough
  have first : jread modes 0 fuel jf none .forwards = scan modes 0 .forwards fuel (top start .forwards) := by
    unfold jread jreadEnd
    simp only [true_or, if_true, holds.set]
    rfl
  rw [first]
  exact all fuel fuel (by omega) (by omega)

theorem filter_eq_nil_iff {list : List Entry} : list.filter Entry.isRecord = [] ↔ ¬HasRecord list := by
  rw [List.filter_eq_nil_iff]
  unfold HasRecord
  simp only [not_exists, not_and]

/-- Everything is read exactly when no record lies behind a short rest. -/
theorem visible_iff (first count : Nat) :
    (visible raws tails first count).filter Entry.isRecord =
        (entriesOf raws first count).filter Entry.isRecord ↔
      ∀ seq later, first ≤ seq → seq < later → later < first + count → Short (tails seq) →
        ¬HasRecord (fileEntries raws later) := by
  induction count generalizing first with
  | zero =>
      constructor
      · intro _ seq later low above below
        omega
      · intro _
        rfl
  | succ count ih =>
      unfold visible
      rw [entriesOf_succ, List.filter_append, List.filter_append, List.append_cancel_left_eq]
      by_cases short : Short (tails first)
      · rw [if_pos short, List.filter_nil, eq_comm, filter_eq_nil_iff]
        constructor
        · intro empty seq later low above below _ has
          exact empty (has.of_file (by omega) (by omega))
        · rintro all ⟨entry, member, record⟩
          obtain ⟨later, inside, member⟩ := List.mem_flatMap.mp member
          obtain ⟨low, high⟩ := List.mem_range'_1.mp inside
          exact all first later (Nat.le_refl _) low (by omega) short ⟨entry, member, record⟩
      · rw [if_neg short, ih]
        constructor
        · intro all seq later low above below short'
          have other : seq ≠ first := by
            rintro rfl
            exact short short'
          exact all seq later (by omega) above (by omega) short'
        · intro all seq later low above below
          exact all seq later (by omega) above (by omega)

/-- A reader that waits for more does not come back from an empty file. -/
theorem waits_forever (waits : modes.loopForever = true) (fuel : Nat) :
    ¬ComesBack (jread modes 0 fuel (jopenFd []) none .forwards) := by
  have start : jread modes 0 fuel (jopenFd []) none .forwards = scan modes 0 .forwards fuel (jopenFd []) := rfl
  rw [start]
  cases fuel with
  | zero =>
      rintro (⟨_, _, eq⟩ | ⟨_, eq⟩)
      · cases eq
      · cases eq
  | succ fuel =>
      have pass : forwardPass (jopenFd []) = .ended 0 (jopenFd []) := rfl
      have sleeps : roll modes .forwards 0 (jopenFd []) = .sleeps := by
        unfold roll
        rw [if_neg (fun both => nomatch both.2), if_pos ⟨rfl, waits, rfl⟩]
      simp only [scan, if_true, pass, sleeps]
      rintro (⟨_, _, eq⟩ | ⟨_, eq⟩)
      · cases eq
      · cases eq

theorem readsAll_iff (quiet : modes.loopForever = false) (holds : HoldsTorn raws tails jf) :
    ReadsAll raws modes jf ↔ NothingBehind raws tails jf := by
  obtain ⟨bound, final, all⟩ := readAll_torn quiet holds
  have count : jf.seqBeg + (jf.seqEnd + 1 - jf.seqBeg) = jf.seqEnd + 1 := by
    have ordered := holds.ordered
    omega
  have spec := @visible_iff raws tails jf.seqBeg (jf.seqEnd + 1 - jf.seqBeg)
  rw [count] at spec
  have behind : NothingBehind raws tails jf ↔
      (visible raws tails jf.seqBeg (jf.seqEnd + 1 - jf.seqBeg)).filter Entry.isRecord =
        (entries raws jf).filter Entry.isRecord := by
    rw [entries, spec]
    constructor
    · intro nothing seq later low above below
      exact nothing seq later low above (Nat.le_of_lt_succ below)
    · intro nothing seq later low above below
      exact nothing seq later low above (Nat.lt_succ_of_le below)
  rw [behind]
  constructor
  · rintro ⟨bound', reads⟩
    obtain ⟨after, eq⟩ := reads (max bound bound') (Nat.le_max_right _ _)
    rw [all _ (Nat.le_max_left _ _), Prod.mk.injEq] at eq
    exact List.map_injective_iff.mpr Entry.jdata_injective eq.1
  · intro same
    refine ⟨bound, ?_⟩
    intro fuel enough
    exact ⟨final, by rw [all fuel enough, same]⟩

/-- A set with truncated tails is read as it should be, and every read comes back, exactly when the
reader was not told to wait and no record lies in a file behind a rest shorter than a header. -/
theorem tolerates_iff (holds : HoldsTorn raws tails jf) :
    Tolerates raws modes jf ↔ modes.loopForever = false ∧ NothingBehind raws tails jf := by
  constructor
  · rintro ⟨reads, ends⟩
    have quiet : modes.loopForever = false := by
      cases waits : modes.loopForever with
      | false => rfl
      | true =>
          obtain ⟨bound, comesBack⟩ := ends 0 (jopenFd []) none .forwards (Or.inl rfl)
          exact absurd (comesBack bound (Nat.le_refl _)) (waits_forever waits bound)
    exact ⟨quiet, (readsAll_iff quiet holds).mp reads⟩
  · rintro ⟨quiet, nothing⟩
    constructor
    · exact (readsAll_iff quiet holds).mpr nothing
    · intro stale reader jd direction ends
      exact jread_comesBack modes quiet stale reader jd ends

/-! ## One byte of a record -/

/-- A set of two files with a record each. -/
def twoFiles (tail : List UInt8) : Jfile where
  source := .prefixSet (fun seq =>
    if seq = 0 then some (firstRecord.bytes ++ tail) else if seq = 1 then some firstRecord.bytes else none)
  fd := none
  pos := 0
  seqBeg := 0
  seqEnd := 1
  seq := 0

/-- The tails of the two files. -/
def twoTails (tail : List UInt8) (seq : Nat) : List UInt8 := if seq = 0 then tail else []

theorem twoFiles_holds {tail : List UInt8} (truncated : Truncated tail) :
    HoldsTorn (fun _ => [firstRecord]) (twoTails tail) (twoFiles tail) := by
  have nothing : Truncated [] := ⟨firstRecord, List.nil_prefix, by decide⟩
  have first : stream [firstRecord] = firstRecord.bytes := List.append_nil _
  constructor
  · rfl
  · exact Nat.zero_le 1
  · intro seq low high
    obtain rfl | rfl : seq = 0 ∨ seq = 1 := by
      have top : seq ≤ 1 := high
      omega
    · show firstRecord.bytes ++ tail = stream [firstRecord] ++ tail
      rw [first]
    · show firstRecord.bytes = stream [firstRecord] ++ []
      rw [first, List.append_nil]
  · intro seq low high
    unfold twoTails
    split
    · exact truncated
    · exact nothing
  · rfl

theorem truncated_header : Truncated (smallPad.bytes.take 15) :=
  ⟨smallPad, List.take_prefix _ _, by decide⟩

/-- A complete header costs nothing. -/
theorem tolerates_iff_body :
    Tolerates (fun _ => [firstRecord]) ⟨0, false⟩ (twoFiles (firstRecord.bytes.take 16)) :=
  (tolerates_iff (twoFiles_holds ⟨firstRecord, List.take_prefix _ _, by decide⟩)).mpr (by
    refine ⟨rfl, ?_⟩
    intro seq later low above below short
    exfalso
    obtain rfl | other : seq = 0 ∨ seq ≠ 0 := Decidable.em _
    · exact absurd short (by decide)
    · unfold twoTails at short
      rw [if_neg other] at short
      exact absurd short (by decide))

/-- A part of a header hides the record of the next file. -/
theorem short_tail_hides :
    ¬∀ (raws : Nat → List Raw) (tails : Nat → List UInt8) (modes : Modes) (jf : Jfile),
      HoldsTorn raws tails jf → Tolerates raws modes jf := by
  intro all
  have tolerates := all (fun _ => [firstRecord]) (twoTails (smallPad.bytes.take 15)) ⟨0, false⟩
    (twoFiles (smallPad.bytes.take 15)) (twoFiles_holds truncated_header)
  have nothing := (readsAll_iff rfl (twoFiles_holds truncated_header)).mp tolerates.1
  refine nothing 0 1 (Nat.le_refl _) (by decide) (Nat.le_refl _) (by decide) ?_
  exact ⟨⟨1, 0, firstRecord⟩, List.mem_singleton_self _, by decide⟩

end Dragonfly.Jscan
