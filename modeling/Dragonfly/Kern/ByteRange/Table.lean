import Dragonfly.Kern.ByteRange.Model

/-!
# Lock tables

What a list of ranges says about every byte, the invariant of `lf_range`, and what
the search through a list that satisfies it finds.
-/

namespace Dragonfly.Kern.ByteRange

open Dragonfly.Lib

variable {Owner : Type}

namespace LockfRange

/-- The byte lies in the range. -/
def Has (range : LockfRange Owner) (byte : Int) : Prop :=
  range.lfStart ≤ byte ∧ byte ≤ range.lfEnd

instance (range : LockfRange Owner) (byte : Int) : Decidable (range.Has byte) :=
  inferInstanceAs (Decidable (_ ∧ _))

end LockfRange

namespace Request

/-- The byte lies in the request. -/
def Has (request : Request Owner) (byte : Int) : Prop :=
  request.start ≤ byte ∧ byte ≤ request.stop

instance (request : Request Owner) (byte : Int) : Decidable (request.Has byte) :=
  inferInstanceAs (Decidable (_ ∧ _))

/-- The request and the range have a byte in common. -/
def Meets (request : Request Owner) (range : LockfRange Owner) : Prop :=
  range.lfStart ≤ request.stop ∧ request.start ≤ range.lfEnd

instance (request : Request Owner) (range : LockfRange Owner) :
    Decidable (request.Meets range) :=
  inferInstanceAs (Decidable (_ ∧ _))

end Request

/-- The owner holds a lock of the type at the byte. -/
def Covers (ranges : List (LockfRange Owner)) (owner : Owner) (byte : Int) (type : LockType) :
    Prop :=
  ∃ range ∈ ranges, range.lfOwner = owner ∧ range.Has byte ∧ range.lfType = type

/-- The invariant of `lf_range`: sorted, made of distinct structures, no owner with
two ranges at one byte, and different owners together only with shared locks. -/
structure Sound (ranges : List (LockfRange Owner)) : Prop where
  sorted : ranges.Pairwise fun x y => x.lfStart ≤ y.lfStart
  distinct : ranges.Pairwise fun x y => x.addr ≠ y.addr
  proper : ∀ range ∈ ranges, range.lfStart ≤ range.lfEnd ∧ range.lfType ≠ .unlck
  once : ∀ x ∈ ranges, ∀ y ∈ ranges, x.lfOwner = y.lfOwner → ∀ byte,
    x.Has byte → y.Has byte → x = y
  shared : ∀ owner other, owner ≠ other → ∀ byte type,
    Covers ranges owner byte type → (∃ otherType, Covers ranges other byte otherType) →
    type = .rdlck

theorem Sound.nil : Sound ([] : List (LockfRange Owner)) where
  sorted := .nil
  distinct := .nil
  proper := by simp
  once := by simp
  shared := by simp [Covers]

namespace Sound

variable {ranges : List (LockfRange Owner)}

/-- Two ranges of one owner lie apart. -/
theorem apart (sound : Sound ranges) {x y : LockfRange Owner} (xMem : x ∈ ranges)
    (yMem : y ∈ ranges) (owner : x.lfOwner = y.lfOwner) (different : x ≠ y) :
    x.lfEnd < y.lfStart ∨ y.lfEnd < x.lfStart := by
  by_contra overlap
  push Not at overlap
  have xProper := (sound.proper x xMem).1
  have yProper := (sound.proper y yMem).1
  rcases le_total x.lfStart y.lfStart with before | after
  · exact different (sound.once x xMem y yMem owner y.lfStart ⟨before, overlap.1⟩ ⟨le_rfl, yProper⟩)
  · exact different (sound.once x xMem y yMem owner x.lfStart ⟨le_rfl, xProper⟩ ⟨after, overlap.2⟩)

end Sound

variable [DecidableEq Owner]

/-- The type of the lock the owner holds at the byte. -/
def heldType (ranges : List (LockfRange Owner)) (owner : Owner) (byte : Int) : Option LockType :=
  (ranges.find? fun range => range.lfOwner = owner ∧ range.Has byte).map LockfRange.lfType

theorem Sound.heldType_eq_some_iff {ranges : List (LockfRange Owner)} (sound : Sound ranges)
    {owner : Owner} {byte : Int} {type : LockType} :
    heldType ranges owner byte = some type ↔ Covers ranges owner byte type := by
  rw [heldType, Option.map_eq_some_iff]
  constructor
  · rintro ⟨range, found, rfl⟩
    have holds := List.find?_some found
    simp only [decide_eq_true_eq] at holds
    exact ⟨range, List.mem_of_find?_eq_some found, holds.1, holds.2, rfl⟩
  · rintro ⟨range, member, owned, has, rfl⟩
    cases search : ranges.find? fun range => range.lfOwner = owner ∧ range.Has byte with
    | none =>
        have missing := List.find?_eq_none.mp search range member
        simp [owned, has] at missing
    | some found =>
        have holds := List.find?_some search
        simp only [decide_eq_true_eq] at holds
        refine ⟨found, rfl, ?_⟩
        rw [sound.once found (List.mem_of_find?_eq_some search) range member
          (holds.1.trans owned.symm) byte holds.2 has]

/-- The range belongs to the owner of the request and overlaps it. -/
def Request.Mine (request : Request Owner) (range : LockfRange Owner) : Prop :=
  range.lfOwner = request.owner ∧ request.Meets range

instance (request : Request Owner) (range : LockfRange Owner) :
    Decidable (request.Mine range) :=
  inferInstanceAs (Decidable (_ ∧ _))

/-- The range keeps the request from being granted. -/
def Request.Blocks (request : Request Owner) (range : LockfRange Owner) : Prop :=
  range.lfOwner ≠ request.owner ∧ request.Meets range ∧ conflictsWith request range

instance (request : Request Owner) (range : LockfRange Owner) :
    Decidable (request.Blocks range) :=
  inferInstanceAs (Decidable (_ ∧ _))

section Search

variable {request : Request Owner} {ranges : List (LockfRange Owner)}

omit [DecidableEq Owner] in
/-- Behind a range that starts behind the request, no range meets it. -/
theorem not_meets_of_lt {range : LockfRange Owner}
    (sorted : (range :: ranges).Pairwise fun x y => x.lfStart ≤ y.lfStart)
    (behind : request.stop < range.lfStart) : ∀ other ∈ range :: ranges, ¬request.Meets other := by
  intro other member meets
  rcases List.mem_cons.mp member with rfl | later
  · exact absurd meets.1 (by omega)
  · have := (List.pairwise_cons.mp sorted).1 other later
    exact absurd meets.1 (by omega)

section Point

omit [DecidableEq Owner]

variable (state : Scan Owner) (range : LockfRange Owner)

@[simp]
theorem notePoint_conflict : (state.notePoint request range).conflict = state.conflict := by
  unfold Scan.notePoint
  split <;> rfl

@[simp]
theorem notePoint_firstMatch : (state.notePoint request range).firstMatch = state.firstMatch := by
  unfold Scan.notePoint
  split <;> rfl

@[simp]
theorem notePoint_lastMatch : (state.notePoint request range).lastMatch = state.lastMatch := by
  unfold Scan.notePoint
  split <;> rfl

variable (request) in
theorem notePoint_insertPoint (rest : List (LockfRange Owner)) :
    (state.notePoint request range).insertPoint.or
        (rest.find? fun range => request.start ≤ range.lfStart) =
      state.insertPoint.or
        ((range :: rest).find? fun range => request.start ≤ range.lfStart) := by
  unfold Scan.notePoint
  cases point : state.insertPoint with
  | some found => simp [point]
  | none => by_cases behind : request.start ≤ range.lfStart <;> simp [point, behind]

end Point

/-- The range the search stops at is the first one that blocks the request. -/
theorem scanLoop_conflict (sorted : ranges.Pairwise fun x y => x.lfStart ≤ y.lfStart)
    (state : Scan Owner) (clear : state.conflict = none) :
    (scanLoop request ranges state).conflict = ranges.find? fun range => request.Blocks range := by
  fun_induction scanLoop request ranges state with
  | case1 => simp [clear]
  | case2 range rest state next before ih =>
      have other : ¬request.Blocks range := by
        rintro ⟨-, meets, -⟩
        exact absurd meets.2 (by omega)
      rw [ih sorted.of_cons (by simp [next, clear]), List.find?_cons_of_neg (by simpa using other)]
  | case3 range rest state next before behind =>
      have none : ∀ other ∈ range :: rest, ¬request.Blocks other := by
        rintro other member ⟨-, meets, -⟩
        exact not_meets_of_lt sorted behind other member meets
      rw [List.find?_eq_none.mpr (by simpa using none)]
      simp [next, clear]
  | case4 range rest state next before behind own ih =>
      have other : ¬request.Blocks range := fun blocks => blocks.1 own
      rw [ih sorted.of_cons (by simp [next, clear]), List.find?_cons_of_neg (by simpa using other)]
  | case5 range rest state next before behind foreign conflict =>
      have blocks : request.Blocks range := ⟨foreign, ⟨by omega, by omega⟩, conflict⟩
      rw [List.find?_cons_of_pos (by simpa using blocks)]
  | case6 range rest state next before behind foreign free ih =>
      have other : ¬request.Blocks range := fun blocks => free blocks.2.2
      rw [ih sorted.of_cons (by simp [next, clear]), List.find?_cons_of_neg (by simpa using other)]

/-- Without a conflict, the search leaves the first range that does not start in front
of the request, and the first and the last of the owner's overlapping ranges. -/
theorem scanLoop_free (sorted : ranges.Pairwise fun x y => x.lfStart ≤ y.lfStart)
    (state : Scan Owner) (free : (scanLoop request ranges state).conflict = none) :
    (scanLoop request ranges state).insertPoint =
        state.insertPoint.or (ranges.find? fun range => request.start ≤ range.lfStart) ∧
      (scanLoop request ranges state).firstMatch =
        state.firstMatch.or (ranges.filter fun range => request.Mine range).head? ∧
      (scanLoop request ranges state).lastMatch =
        (ranges.filter fun range => request.Mine range).getLast?.or state.lastMatch := by
  fun_induction scanLoop request ranges state with
  | case1 => simp
  | case2 range rest state next before ih =>
      have other : ¬request.Mine range := by
        rintro ⟨-, meets⟩
        exact absurd meets.2 (by omega)
      obtain ⟨point, first, last⟩ := ih sorted.of_cons free
      rw [point, first, last, List.filter_cons_of_neg (by simpa using other), notePoint_insertPoint]
      simp [next]
  | case3 range rest state next before behind =>
      have none : (range :: rest).filter (fun range => request.Mine range) = [] := by
        rw [List.filter_eq_nil_iff]
        intro other member
        simp [Request.Mine, not_meets_of_lt sorted behind other member]
      have after : request.start ≤ range.lfStart := le_of_lt (request.le.trans_lt behind)
      have point := notePoint_insertPoint request state range []
      rw [none]
      simpa [next, after] using point
  | case4 range rest state next before behind own ih =>
      have mine : request.Mine range := ⟨own, by omega, by omega⟩
      obtain ⟨point, first, last⟩ := ih sorted.of_cons free
      rw [point, first, last, List.filter_cons_of_pos (by simpa using mine), notePoint_insertPoint]
      refine ⟨rfl, ?_, ?_⟩
      · simp [next]
      · simp [List.getLast?_cons]
  | case5 => simp at free
  | case6 range rest state next before behind foreign clear ih =>
      have other : ¬request.Mine range := fun mine => foreign mine.1
      obtain ⟨point, first, last⟩ := ih sorted.of_cons free
      rw [point, first, last, List.filter_cons_of_neg (by simpa using other), notePoint_insertPoint]
      simp [next]

/-- The blocking range that the search reports. -/
theorem scan_conflict {lock : Lockf Owner} (sound : Sound lock.lfRange) :
    (scan request lock).conflict = lock.lfRange.find? fun range => request.Blocks range :=
  scanLoop_conflict sound.sorted {} rfl

theorem scan_conflict_eq_none {lock : Lockf Owner} (sound : Sound lock.lfRange) :
    (scan request lock).conflict = none ↔ ∀ range ∈ lock.lfRange, ¬request.Blocks range := by
  rw [scan_conflict sound, List.find?_eq_none]
  simp

theorem scan_conflict_eq_some {lock : Lockf Owner} (sound : Sound lock.lfRange)
    {range : LockfRange Owner} (found : (scan request lock).conflict = some range) :
    range ∈ lock.lfRange ∧ request.Blocks range := by
  rw [scan_conflict sound] at found
  exact ⟨List.mem_of_find?_eq_some found, by simpa using List.find?_some found⟩

/-- The first of the owner's overlapping ranges. -/
theorem scan_firstMatch {lock : Lockf Owner} (sound : Sound lock.lfRange)
    (free : (scan request lock).conflict = none) {range : LockfRange Owner}
    (found : (scan request lock).firstMatch = some range) :
    range ∈ lock.lfRange ∧ request.Mine range ∧
      ∀ other ∈ lock.lfRange, request.Mine other → range.lfStart ≤ other.lfStart := by
  have first := (scanLoop_free sound.sorted {} free).2.1
  rw [show scanLoop request lock.lfRange {} = scan request lock from rfl, found,
    Option.none_or] at first
  have filtered := sound.sorted.sublist (List.filter_sublist (p := fun range => request.Mine range))
  cases shape : lock.lfRange.filter fun range => request.Mine range with
  | nil => simp [shape] at first
  | cons head rest =>
      obtain rfl : range = head := by simpa [shape] using first
      have member : range ∈ lock.lfRange.filter fun range => request.Mine range := by simp [shape]
      rw [List.mem_filter, decide_eq_true_eq] at member
      refine ⟨member.1, member.2, ?_⟩
      intro other otherMem mine
      have listed : other ∈ range :: rest := by
        rw [← shape, List.mem_filter, decide_eq_true_eq]
        exact ⟨otherMem, mine⟩
      rcases List.mem_cons.mp listed with rfl | later
      · exact le_rfl
      · exact (List.pairwise_cons.mp (shape ▸ filtered)).1 other later

/-- The last of the owner's overlapping ranges. -/
theorem scan_lastMatch {lock : Lockf Owner} (sound : Sound lock.lfRange)
    (free : (scan request lock).conflict = none) {range : LockfRange Owner}
    (found : (scan request lock).lastMatch = some range) :
    range ∈ lock.lfRange ∧ request.Mine range ∧
      ∀ other ∈ lock.lfRange, request.Mine other → other.lfStart ≤ range.lfStart := by
  have last := (scanLoop_free sound.sorted {} free).2.2
  rw [show scanLoop request lock.lfRange {} = scan request lock from rfl, found,
    Option.or_none] at last
  obtain ⟨front, shape⟩ := List.getLast?_eq_some_iff.mp last.symm
  have filtered := sound.sorted.sublist (List.filter_sublist (p := fun range => request.Mine range))
  have member : range ∈ lock.lfRange.filter fun range => request.Mine range := by simp [shape]
  rw [List.mem_filter, decide_eq_true_eq] at member
  refine ⟨member.1, member.2, ?_⟩
  intro other otherMem mine
  have listed : other ∈ front ++ [range] := by
    rw [← shape, List.mem_filter, decide_eq_true_eq]
    exact ⟨otherMem, mine⟩
  rw [shape, List.pairwise_append] at filtered
  rcases List.mem_append.mp listed with earlier | same
  · exact filtered.2.2 other earlier range (List.mem_singleton.mpr rfl)
  · rw [List.mem_singleton.mp same]

/-- The search misses neither the first nor the last of the owner's overlapping ranges. -/
theorem scan_match_of_mine {lock : Lockf Owner} (sound : Sound lock.lfRange)
    (free : (scan request lock).conflict = none) {range : LockfRange Owner}
    (member : range ∈ lock.lfRange) (mine : request.Mine range) :
    ∃ first last, (scan request lock).firstMatch = some first ∧
      (scan request lock).lastMatch = some last := by
  obtain ⟨-, first, last⟩ := scanLoop_free sound.sorted {} free
  have listed : range ∈ lock.lfRange.filter fun range => request.Mine range := by
    rw [List.mem_filter, decide_eq_true_eq]
    exact ⟨member, mine⟩
  cases shape : lock.lfRange.filter fun range => request.Mine range with
  | nil => simp [shape] at listed
  | cons head rest =>
      rw [shape] at first last
      exact ⟨head, (head :: rest).getLast (by simp), by simpa [scan] using first,
        by simpa [scan, List.getLast?_eq_some_getLast] using last⟩

theorem scan_insertPoint {lock : Lockf Owner} (sound : Sound lock.lfRange)
    (free : (scan request lock).conflict = none) :
    (scan request lock).insertPoint =
      lock.lfRange.find? fun range => request.start ≤ range.lfStart := by
  simpa [scan] using (scanLoop_free sound.sorted {} free).1

end Search

section Insert

omit [DecidableEq Owner]

variable {ranges : List (LockfRange Owner)} {elm : LockfRange Owner} {point : Option Nat}

theorem lfInsert_perm : (lfInsert ranges elm point).Perm (elm :: ranges) := by
  cases point with
  | none => exact List.perm_append_comm
  | some point =>
      calc (Keyed.upTo LockfRange.addr point ranges ++
            (Keyed.onward LockfRange.addr point ranges).orderedInsert _ elm).Perm
            (Keyed.upTo LockfRange.addr point ranges ++
              elm :: Keyed.onward LockfRange.addr point ranges) :=
              (List.perm_orderedInsert _ _ _).append_left _
        _ |>.Perm (elm :: (Keyed.upTo LockfRange.addr point ranges ++
              Keyed.onward LockfRange.addr point ranges)) := List.perm_middle
        _ = elm :: ranges := by rw [Keyed.upTo_append_onward]

@[simp]
theorem mem_lfInsert {range : LockfRange Owner} :
    range ∈ lfInsert ranges elm point ↔ range = elm ∨ range ∈ ranges := by
  rw [(lfInsert_perm).mem_iff, List.mem_cons]

theorem lfInsert_distinct (distinct : ranges.Pairwise fun x y => x.addr ≠ y.addr)
    (unused : ∀ range ∈ ranges, range.addr ≠ elm.addr) :
    (lfInsert ranges elm point).Pairwise fun x y => x.addr ≠ y.addr := by
  rw [(lfInsert_perm).pairwise_iff (fun different => different.symm), List.pairwise_cons]
  exact ⟨fun range member => (unused range member).symm, distinct⟩

/-- Insertion from a point keeps the list sorted when nothing in front of the point
starts behind the new range. -/
theorem lfInsert_sorted (sorted : ranges.Pairwise fun x y => x.lfStart ≤ y.lfStart)
    (front : ∀ range ∈ ranges, (∀ addr, point = some addr →
      range ∈ Keyed.upTo LockfRange.addr addr ranges) → range.lfStart ≤ elm.lfStart) :
    (lfInsert ranges elm point).Pairwise fun x y => x.lfStart ≤ y.lfStart := by
  cases point with
  | none =>
      rw [lfInsert, List.pairwise_append]
      refine ⟨sorted, List.pairwise_singleton _ _, ?_⟩
      intro range member last lastMem
      rw [List.mem_singleton.mp lastMem]
      exact front range member (by simp)
  | some addr =>
      rw [← Keyed.upTo_append_onward LockfRange.addr addr ranges, List.pairwise_append] at sorted
      rw [lfInsert, List.pairwise_append]
      refine ⟨sorted.1, ?_, ?_⟩
      · exact sorted.2.1.orderedInsert _ _
      · intro range member other otherMem
        rcases (List.mem_orderedInsert _).mp otherMem with rfl | later
        · refine front range (List.takeWhile_subset _ member) ?_
          rintro point ⟨⟩
          exact member
        · exact sorted.2.2 range member other later

end Insert

end Dragonfly.Kern.ByteRange
