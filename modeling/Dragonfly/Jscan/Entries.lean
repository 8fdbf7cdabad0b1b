import Dragonfly.Jscan.File
import Mathlib.Data.List.Range

/-!
# The records of a journal and their places

A journal is the sequence of the raw records of its files, each with the file and the offset it
is at.  A reader stands between two records of that sequence.
-/

namespace Dragonfly.Jscan

/-- A raw record and where it is. -/
structure Entry where
  seq : Nat
  pos : Nat
  raw : Raw

namespace Entry

/-- What a reader that returns the record hands out. -/
def jdata (entry : Entry) : Jdata where
  transid := entry.raw.transid
  alloc := allocSize entry.raw.size
  size := entry.raw.size
  seq := entry.seq
  pos := entry.pos
  data := entry.raw.bytes

@[simp]
theorem jdata_transid (entry : Entry) : entry.jdata.transid = entry.raw.transid := by
  simp only [jdata]

/-- A reader tells all entries apart. -/
theorem jdata_injective : Function.Injective jdata := by
  intro entry other same
  have seq : entry.seq = other.seq := congrArg Jdata.seq same
  have pos : entry.pos = other.pos := Int.ofNat_inj.mp (congrArg Jdata.pos same)
  have bytes : entry.raw.bytes = other.raw.bytes := congrArg Jdata.data same
  cases entry with
  | mk seq₁ pos₁ raw₁ =>
      cases other with
      | mk seq₂ pos₂ raw₂ =>
          cases raw₁
          cases raw₂
          cases seq
          cases pos
          cases bytes
          rfl

/-- The entry is a record, not a pad. -/
def isRecord (entry : Entry) : Bool := !decide entry.raw.IsPad

end Entry

/-- Raw records one after the other from byte `pos` of file `seq` on. -/
def placed (seq : Nat) : Nat → List Raw → List Entry
  | _, [] => []
  | pos, raw :: raws => ⟨seq, pos, raw⟩ :: placed seq (pos + raw.size) raws

/-- The raw records of one file. -/
def fileEntries (raws : Nat → List Raw) (seq : Nat) : List Entry := placed seq 0 (raws seq)

/-- The raw records of `count` files. -/
def entriesOf (raws : Nat → List Raw) (first count : Nat) : List Entry :=
  (List.range' first count).flatMap (fileEntries raws)

/-- The raw records of all files, from the oldest to the newest. -/
def entries (raws : Nat → List Raw) (jf : Jfile) : List Entry :=
  entriesOf raws jf.seqBeg (jf.seqEnd + 1 - jf.seqBeg)

/-- There is a record in the list. -/
def HasRecord (list : List Entry) : Prop := ∃ entry ∈ list, entry.isRecord = true

/-- The files hold the raw records `raws`.  A file of a prefix set may be missing, and none comes
after the last one; a descriptor is a single file. -/
structure Holds (raws : Nat → List Raw) (jf : Jfile) : Prop where
  ordered : jf.seqBeg ≤ jf.seqEnd
  numbered : jf.seqEnd < 4294967295
  files : ∀ seq, jf.seqBeg ≤ seq → seq ≤ jf.seqEnd → (jf.source.file seq).getD [] = stream (raws seq)
  last : jf.source.isPrefix = true → jf.source.file (jf.seqEnd + 1) = none
  single : jf.source.isPrefix = false →
    jf.fd = jf.source.file jf.seq ∧ jf.seq = jf.seqBeg ∧ jf.seq = jf.seqEnd

/-- The two read the same input. -/
structure SameInput (jf after : Jfile) : Prop where
  source : after.source = jf.source
  seqBeg : after.seqBeg = jf.seqBeg
  seqEnd : after.seqEnd = jf.seqEnd

/-- The open file, if there is one, is the one of the sequence number. -/
structure Settled (raws : Nat → List Raw) (jf : Jfile) : Prop where
  holds : Holds raws jf
  low : jf.seqBeg ≤ jf.seq
  high : jf.seq ≤ jf.seqEnd
  opened : jf.fd = none ∨ jf.fd = some (stream (raws jf.seq))

/-- The reader is behind `done` and in front of `todo` in its file; a file that could not be
opened has no records. -/
structure Stands (raws : Nat → List Raw) (jf : Jfile) (done todo : List Raw) : Prop where
  settled : Settled raws jf
  split : raws jf.seq = done ++ todo
  place : (jf.fd = some (stream (done ++ todo)) ∧ jf.pos = (stream done).length) ∨
    (jf.fd = none ∧ done = [] ∧ todo = [])

/-- The raw records behind the reader. -/
def behind (raws : Nat → List Raw) (jf : Jfile) (done : List Raw) : List Entry :=
  entriesOf raws jf.seqBeg (jf.seq - jf.seqBeg) ++ placed jf.seq 0 done

/-- The raw records in front of the reader. -/
def ahead (raws : Nat → List Raw) (jf : Jfile) (done todo : List Raw) : List Entry :=
  placed jf.seq (stream done).length todo ++ entriesOf raws (jf.seq + 1) (jf.seqEnd - jf.seq)

/-- The forwards reads of the whole journal: what they return, and the reply that ends them. -/
def readAll (modes : Modes) (fuel : Nat) : Nat → Reply → List Jdata × Reply
  | 0, _ => ([], .more)
  | times + 1, .record jd jf =>
      let rest := readAll modes fuel times (jread modes 0 fuel jf (some jd) .forwards)
      (jd :: rest.1, rest.2)
  | _ + 1, other => ([], other)

variable {raws : Nat → List Raw} {jf after : Jfile} {done todo : List Raw}

/-! ## Lists of entries -/

theorem placed_append (seq pos : Nat) (first second : List Raw) :
    placed seq pos (first ++ second) =
      placed seq pos first ++ placed seq (pos + (stream first).length) second := by
  induction first generalizing pos with
  | nil => rfl
  | cons raw first ih =>
      simp only [List.cons_append, placed, stream_cons, List.length_append]
      rw [ih, Nat.add_assoc]
      rfl

theorem entriesOf_succ (first count : Nat) :
    entriesOf raws first (count + 1) = fileEntries raws first ++ entriesOf raws (first + 1) count := by
  unfold entriesOf
  rw [List.range'_succ, List.flatMap_cons]

theorem entriesOf_add (first count more : Nat) :
    entriesOf raws first (count + more) =
      entriesOf raws first count ++ entriesOf raws (first + count) more := by
  induction count generalizing first with
  | zero =>
      rw [Nat.zero_add, Nat.add_zero]
      rfl
  | succ count ih =>
      rw [Nat.add_right_comm, entriesOf_succ, entriesOf_succ, ih, List.append_assoc,
        Nat.add_right_comm first 1 count]
      rfl

/-- Where an entry of a file is. -/
theorem placed_split {seq pos : Nat} {list : List Raw} {entry : Entry} {before behind : List Entry}
    (split : placed seq pos list = before ++ entry :: behind) :
    ∃ first second, list = first ++ entry.raw :: second ∧
      entry = ⟨seq, pos + (stream first).length, entry.raw⟩ ∧ before = placed seq pos first ∧
      behind = placed seq (pos + (stream (first ++ [entry.raw])).length) second := by
  induction list generalizing pos before with
  | nil => simp [placed] at split
  | cons raw list ih =>
      cases before with
      | nil =>
          simp only [placed, List.nil_append, List.cons.injEq] at split
          obtain ⟨rfl, rfl⟩ := split
          refine ⟨[], list, rfl, rfl, rfl, ?_⟩
          simp [Raw.size]
      | cons other before =>
          simp only [placed, List.cons_append, List.cons.injEq] at split
          obtain ⟨rfl, split⟩ := split
          obtain ⟨first, second, whole, same, left, right⟩ := ih split
          refine ⟨raw :: first, second, by rw [whole]; rfl, ?_, by rw [left]; rfl, ?_⟩
          · rw [same]
            simp [Raw.size, Nat.add_assoc]
          · rw [right]
            simp [Raw.size, Nat.add_assoc]

/-- Where an entry of several files is. -/
theorem entriesOf_split {first count : Nat} {entry : Entry} {before behind : List Entry}
    (split : entriesOf raws first count = before ++ entry :: behind) :
    ∃ skip more inside outside, count = skip + (1 + more) ∧
      fileEntries raws (first + skip) = inside ++ entry :: outside ∧
      before = entriesOf raws first skip ++ inside ∧
      behind = outside ++ entriesOf raws (first + skip + 1) more := by
  induction count generalizing first before with
  | zero => simp [entriesOf] at split
  | succ count ih =>
      rw [entriesOf_succ, List.append_eq_append_iff] at split
      rcases split with ⟨middle, left, right⟩ | ⟨middle, left, right⟩
      · obtain ⟨skip, more, inside, outside, sum, file, before', behind'⟩ := ih right
        refine ⟨skip + 1, more, inside, outside, by omega, ?_, ?_, ?_⟩
        · rw [← file]
          congr 1
          omega
        · rw [left, before', entriesOf_succ, List.append_assoc]
        · rw [behind']
          congr 2
          omega
      · cases middle with
        | nil =>
            rw [List.append_nil] at left
            rw [List.nil_append] at right
            have here : entriesOf raws (first + 1) count = [] ++ entry :: behind := right.symm
            obtain ⟨skip, more, inside, outside, sum, file, before', behind'⟩ := ih here
            refine ⟨skip + 1, more, inside, outside, by omega, ?_, ?_, ?_⟩
            · rw [← file]
              congr 1
              omega
            · rw [← left, entriesOf_succ, List.append_assoc, ← before', List.append_nil]
            · rw [behind']
              congr 2
              omega
        | cons other middle =>
            rw [List.cons_append, List.cons.injEq] at right
            obtain ⟨rfl, right⟩ := right
            refine ⟨0, count, before, middle, by omega, left, by simp [entriesOf], right⟩

/-- The records of one of several files. -/
theorem HasRecord.of_file {first count seq : Nat} (low : first ≤ seq) (high : seq < first + count)
    (has : HasRecord (fileEntries raws seq)) : HasRecord (entriesOf raws first count) := by
  obtain ⟨entry, member, record⟩ := has
  refine ⟨entry, ?_, record⟩
  apply List.mem_flatMap.mpr
  exact ⟨seq, List.mem_range'_1.mpr ⟨low, high⟩, member⟩

end Dragonfly.Jscan
