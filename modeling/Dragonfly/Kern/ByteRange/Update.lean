import Dragonfly.Kern.ByteRange.Sweep

/-!
# The update of the owner's ranges

`update` leaves exactly the locks of the request at its bytes and no other lock
changed, it keeps the invariant of the list, and it wakes the waiters whenever it
takes something from a lock of the owner.
-/

namespace Dragonfly.Kern.ByteRange

open Dragonfly.Lib

variable {Owner : Type}

/-- `after` is `before` with the request granted. -/
structure Applied (request : Request Owner) (before after : List (LockfRange Owner)) : Prop where
  sound : Sound after
  others : ∀ owner, owner ≠ request.owner → ∀ byte type,
    Covers after owner byte type ↔ Covers before owner byte type
  outside : ∀ byte, ¬request.Has byte → ∀ type,
    Covers after request.owner byte type ↔ Covers before request.owner byte type
  inside : ∀ byte, request.Has byte → ∀ type,
    Covers after request.owner byte type ↔ type = request.type ∧ request.type ≠ .unlck

variable [DecidableEq Owner] {request : Request Owner} {before : List (LockfRange Owner)}

section Start

variable {lock : Lockf Owner}

/-- Addresses of ranges on the list are not handed out again. -/
def Unused (lock : Lockf Owner) : Prop := ∀ range ∈ lock.lfRange, range.addr < lock.fresh

/-- Everything in front of the insertion point starts in front of the request. -/
theorem insert_sorted (sound : Sound lock.lfRange) (free : (scan request lock).conflict = none)
    (addr : Nat) (flags : Flags) :
    (lfInsert lock.lfRange (request.createRange addr flags)
      ((scan request lock).insertPoint.map LockfRange.addr)).Pairwise
        fun x y => x.lfStart ≤ y.lfStart := by
  refine lfInsert_sorted sound.sorted ?_
  intro range member ahead
  rw [scan_insertPoint sound free] at ahead
  show range.lfStart ≤ request.start
  cases point : lock.lfRange.find? fun range => request.start ≤ range.lfStart with
  | none =>
      have := List.find?_eq_none.mp point range member
      simp only [decide_eq_true_eq] at this
      omega
  | some found =>
      -- the list is cut at the first range that does not start in front of the request
      obtain ⟨isPoint, front, back, shape, earlier⟩ := List.find?_eq_some_iff_append.mp point
      have prefixed := ahead found.addr (by simp [point])
      have distinct := sound.distinct
      rw [shape, List.pairwise_append] at distinct
      rw [shape, Keyed.upTo, List.takeWhile_append_of_pos, List.takeWhile_cons_of_neg (by simp),
        List.append_nil] at prefixed
      · have := earlier range prefixed
        simp only [Bool.not_eq_true', decide_eq_false_iff_not] at this
        omega
      · intro other otherMem
        simpa using distinct.2.2 other otherMem found List.mem_cons_self

omit [DecidableEq Owner] in
theorem Sound.carving_nil (sound : Sound before) (unlock : request.type = .unlck) {clip : Clip Owner}
    (ranges : clip.ranges = before) (brange : clip.brange = none) :
    Carving request before clip where
  sorted := ranges ▸ sound.sorted
  distinct := ranges ▸ sound.distinct
  proper := ranges ▸ sound.proper
  others := by simp [ranges]
  outside := by simp [ranges]
  once x y oldX oldY := by
    have xMem := oldX.mem
    have yMem := oldY.mem
    rw [ranges] at xMem yMem
    exact sound.once x xMem y yMem (oldX.owned.trans oldY.owned.symm)
  primary := by simp [brange]
  inside := by simp [brange]
  absent := by simp [brange, unlock]

omit [DecidableEq Owner] in
theorem Sound.carving_insert (sound : Sound before) (lock' : request.type ≠ .unlck)
    {clip : Clip Owner} {addr : Nat} {flags : Flags} {point : Option Nat}
    (unused : ∀ range ∈ before, range.addr < addr)
    (ranges : clip.ranges = lfInsert before (request.createRange addr flags) point)
    (brange : clip.brange = some (request.createRange addr flags))
    (sorted : clip.ranges.Pairwise fun x y => x.lfStart ≤ y.lfStart) :
    Carving request before clip := by
  have mem : ∀ range, range ∈ clip.ranges ↔
      range = request.createRange addr flags ∨ range ∈ before := by simp [ranges]
  have old : ∀ x, clip.Old request.owner x → x ∈ before := by
    intro x oldX
    rcases (mem x).mp oldX.mem with rfl | member
    · exact absurd (by simp [brange]) oldX.ne
    · exact member
  constructor
  case sorted => exact sorted
  case distinct =>
    rw [ranges]
    exact lfInsert_distinct sound.distinct (fun range member => (unused range member).ne)
  case proper =>
    intro range member
    rcases (mem range).mp member with rfl | member
    · exact ⟨request.le, lock'⟩
    · exact sound.proper range member
  case others =>
    intro range foreign
    rw [mem]
    constructor
    · rintro (rfl | member)
      · exact absurd rfl foreign
      · exact member
    · exact .inr
  case outside =>
    intro byte out type
    constructor
    · rintro ⟨range, member, owned, has, rfl⟩
      rcases (mem range).mp member with rfl | member
      · exact absurd has out
      · exact ⟨range, member, owned, has, rfl⟩
    · rintro ⟨range, member, owned, has, rfl⟩
      exact ⟨range, (mem range).mpr (.inr member), owned, has, rfl⟩
  case once =>
    intro x y oldX oldY
    exact sound.once x (old x oldX) y (old y oldY) (oldX.owned.trans oldY.owned.symm)
  case primary =>
    intro primary is
    obtain rfl : request.createRange addr flags = primary := by simpa [brange] using is
    exact ⟨(mem _).mpr (.inl rfl), rfl, rfl, le_rfl, le_rfl⟩
  case inside =>
    intro primary is x _ byte _ has
    obtain rfl : request.createRange addr flags = primary := by simpa [brange] using is
    exact has
  case absent => simp [brange, lock']

theorem insertRequest_carving (sound : Sound lock.lfRange) (unused : Unused lock)
    (free : (scan request lock).conflict = none) (count : Int) :
    Carving request lock.lfRange
      (insertRequest request lock (scan request lock).insertPoint count) := by
  unfold insertRequest
  split
  case isTrue unlock => exact sound.carving_nil unlock rfl rfl
  case isFalse lock' =>
    exact sound.carving_insert lock' unused rfl rfl (insert_sorted sound free _ _)

omit [DecidableEq Owner] in
/-- An old range of the list with the request inserted is a range of the list. -/
theorem insertRequest_old {point : Option (LockfRange Owner)} {count : Int}
    {x : LockfRange Owner} :
    (insertRequest request lock point count).Old request.owner x → x ∈ lock.lfRange := by
  intro old
  have member := old.mem
  have ne := old.ne
  unfold insertRequest at member ne
  split at member
  · exact member
  · rename_i lock'
    rcases (mem_lfInsert).mp member with rfl | member
    · simp [lock', Request.createRange] at ne
    · exact member

omit [DecidableEq Owner] in
theorem insertRequest_isDead {point : Option (LockfRange Owner)} {count : Int}
    (x : LockfRange Owner) : (insertRequest request lock point count).isDead x = false := by
  unfold insertRequest
  split <;> rfl

omit [DecidableEq Owner] in
theorem insertRequest_brange {point : Option (LockfRange Owner)} {count : Int}
    {brange : LockfRange Owner} :
    (insertRequest request lock point count).brange = some brange →
      brange = request.createRange lock.fresh request.flags := by
  unfold insertRequest
  split
  · rintro ⟨⟩
  · rintro ⟨⟩
    rfl

omit [DecidableEq Owner] in
/-- The owner's ranges of the list are old ranges once the request is inserted. -/
theorem old_insertRequest (point : Option (LockfRange Owner)) (count : Int)
    (unused : Unused lock) {x : LockfRange Owner} (member : x ∈ lock.lfRange)
    (owned : x.lfOwner = request.owner) :
    (insertRequest request lock point count).Old request.owner x := by
  have below := unused x member
  unfold insertRequest
  split
  · exact ⟨member, owned, by simp⟩
  · refine ⟨(mem_lfInsert).mpr (.inr member), owned, ?_⟩
    simp only [Option.map_some, Request.createRange, ne_eq, Option.some.injEq]
    omega

end Start

section Loop

variable {lock : Lockf Owner} {firstMatch lastMatch : LockfRange Owner} {count : Int}

/-- The loop of an update that does not break up a range. -/
theorem sweep_plain (count : Int) (sound : Sound lock.lfRange) (unused : Unused lock)
    (free : (scan request lock).conflict = none)
    (first : (scan request lock).firstMatch = some firstMatch)
    (last : (scan request lock).lastMatch = some lastMatch)
    (single : doubleClip request firstMatch lastMatch = false) :
    let clip := insertRequest request lock (scan request lock).insertPoint count
    ∃ after visited, clipLoop request firstMatch.addr lastMatch.addr
        (Keyed.onward LockfRange.addr firstMatch.addr clip.ranges) clip = .done after ∧
      Swept request lock.lfRange after ∧ Tally request clip after visited ∧
      ∀ x ∈ lock.lfRange, request.Mine x → x ∈ visited ∧ clip.Due request.owner x := by
  intro clip
  obtain ⟨firstMem, firstMine, firstLe⟩ := scan_firstMatch sound free first
  obtain ⟨lastMem, lastMine, lastLe⟩ := scan_lastMatch sound free last
  have carving : Carving request lock.lfRange clip := insertRequest_carving sound unused free count
  have oldOf : ∀ x ∈ lock.lfRange, x.lfOwner = request.owner → clip.Old request.owner x :=
    fun x member owned => old_insertRequest _ _ unused member owned
  have dueOf : ∀ x ∈ lock.lfRange, x.lfOwner = request.owner → clip.Due request.owner x :=
    fun x member owned => ⟨owned, insertRequest_isDead x, (oldOf x member owned).ne⟩
  have listed : ∀ x ∈ clip.ranges, clip.Due request.owner x → x ∈ lock.lfRange :=
    fun x member due => insertRequest_old ⟨member, due.owned, due.ne⟩
  obtain ⟨tail, shape⟩ := Keyed.onward_of_mem carving.distinct
    (oldOf firstMatch firstMem firstMine.1).mem
  have whole := Keyed.upTo_append_onward LockfRange.addr firstMatch.addr clip.ranges
  rw [shape] at whole
  have sorted := carving.sorted
  have distinct := carving.distinct
  rw [← whole, List.pairwise_append, List.pairwise_cons] at sorted distinct
  have tailMem : ∀ x ∈ tail, x ∈ clip.ranges := by
    intro x member
    rw [← whole]
    exact List.mem_append_right _ (List.mem_cons_of_mem _ member)
  -- two ranges of the owner that start together are one
  have same : ∀ x ∈ lock.lfRange, ∀ y ∈ lock.lfRange, x.lfOwner = request.owner →
      y.lfOwner = request.owner → x.lfStart = y.lfStart → x = y := by
    intro x xMem y yMem xOwned yOwned equal
    exact sound.once x xMem y yMem (xOwned.trans yOwned.symm) x.lfStart
      ⟨le_rfl, (sound.proper x xMem).1⟩ ⟨equal.ge, equal ▸ (sound.proper y yMem).1⟩
  have pending : ∀ x ∈ lock.lfRange, request.Mine x → x ∈ firstMatch :: tail := by
    intro x member mine
    have inRanges := (oldOf x member mine.1).mem
    rw [← whole] at inRanges
    rcases List.mem_append.mp inRanges with early | later
    · have le := sorted.2.2 x early firstMatch List.mem_cons_self
      rw [same x member firstMatch firstMem mine.1 firstMine.1 (le_antisymm le (firstLe x member mine))]
      exact List.mem_cons_self
    · exact later
  have sweeping : Sweeping request lock.lfRange clip (firstMatch :: tail) := by
    constructor
    case carving => exact carving
    case live =>
      rw [List.filter_eq_self.mpr (fun x _ => by simp [clip, insertRequest_isDead]), ← shape]
      exact List.dropWhile_suffix _
    case alive => exact fun x _ => insertRequest_isDead x
    case apart => exact List.pairwise_cons.mpr distinct.2.1
    case pending =>
      intro x old meets
      exact pending x (insertRequest_old old) ⟨old.owned, meets⟩
    case exact =>
      intro brange is
      rw [insertRequest_brange is]
      rfl
  have fresh : ∀ brange, clip.brange = some brange →
      brange.lfStart = request.start ∧ brange.lfFlags.posix = request.flags.posix := by
    intro brange is
    rw [insertRequest_brange is]
    exact ⟨rfl, rfl⟩
  have dueFirst := dueOf firstMatch firstMem firstMine.1
  have dueLast := dueOf lastMatch lastMem lastMine.1
  have firstProper := (sound.proper firstMatch firstMem).1
  have lastProper := (sound.proper lastMatch lastMem).1
  -- the owner's ranges behind the first one
  have behind : ∀ x ∈ tail, clip.Due request.owner x → firstMatch.lfEnd < x.lfStart := by
    intro x member due
    have xMem := listed x (tailMem x member) due
    have le := sorted.2.1.1 x member
    have ne : firstMatch ≠ x := fun equal => distinct.2.1.1 x member (equal ▸ rfl)
    have xProper := (sound.proper x xMem).1
    rcases sound.apart firstMem xMem (firstMine.1.trans due.owned.symm) ne with before | after
    · exact before
    · omega
  rw [shape]
  by_cases only : firstMatch = lastMatch
  · subst only
    have clear : ∀ x ∈ tail, clip.Due request.owner x → ¬request.Meets x := by
      intro x member due meets
      have xMem := listed x (tailMem x member) due
      have le := lastLe x xMem ⟨due.owned, meets⟩
      have := behind x member due
      omega
    have all : ∀ x ∈ lock.lfRange, request.Mine x → x ∈ [firstMatch] ∧ clip.Due request.owner x := by
      intro x member mine
      have le := lastLe x member mine
      have ge := firstLe x member mine
      rw [same x member firstMatch firstMem mine.1 firstMine.1 (le_antisymm le ge)]
      exact ⟨List.mem_singleton.mpr rfl, dueFirst⟩
    by_cases start : firstMatch.lfStart < request.start
    · have stop : firstMatch.lfEnd ≤ request.stop := by
        simpa [doubleClip, start] using single
      obtain ⟨after, loop, swept, tally⟩ := clipLoop_only sweeping dueFirst start
        (by have := firstMine.2.2; omega) stop fresh clear
      exact ⟨after, [firstMatch], loop, swept, tally, all⟩
    · obtain ⟨after, loop, swept, tally⟩ := clipLoop_last sweeping dueFirst (not_lt.mp start)
        (by have := firstMine.2.1; omega)
        (fun x member old => clear x member (sweeping.due_of_old old))
      exact ⟨after, [firstMatch], loop, swept, tally, all⟩
  · have lastLater : lastMatch ∈ tail := by
      rcases List.mem_cons.mp (pending lastMatch lastMem lastMine) with equal | later
      · exact absurd equal.symm only
      · exact later
    obtain ⟨pre, post, tailEq⟩ := List.append_of_mem lastLater
    subst tailEq
    have sortedTail := sorted.2.1.2
    have distinctTail := distinct.2.1.2
    rw [List.pairwise_append, List.pairwise_cons] at sortedTail distinctTail
    have firstEnd := behind lastMatch lastLater dueLast
    have lastStart := lastMine.2.1
    have firstReach := firstMine.2.2
    have within : ∀ x ∈ pre, clip.Due request.owner x →
        request.start ≤ x.lfStart ∧ x.lfEnd ≤ request.stop := by
      intro x member due
      have xMem := listed x (tailMem x (List.mem_append_left _ member)) due
      have le := sortedTail.2.2 x member lastMatch List.mem_cons_self
      have ne : x ≠ lastMatch :=
        fun equal => distinctTail.2.2 x member lastMatch List.mem_cons_self (equal ▸ rfl)
      have after := behind x (List.mem_append_left _ member) due
      have xProper := (sound.proper x xMem).1
      rcases sound.apart xMem lastMem (due.owned.trans lastMine.1.symm) ne with earlier | later
      · exact ⟨by omega, by omega⟩
      · omega
    have clear : ∀ x ∈ post, clip.Due request.owner x → ¬request.Meets x := by
      intro x member due meets
      have inTail : x ∈ pre ++ lastMatch :: post := by simp [member]
      have xMem := listed x (tailMem x inTail) due
      have le := lastLe x xMem ⟨due.owned, meets⟩
      have ge := sortedTail.2.1.1 x member
      have equal := same x xMem lastMatch lastMem due.owned lastMine.1 (le_antisymm le ge)
      exact distinctTail.2.1.1 x member (equal ▸ rfl)
    have all : ∀ x ∈ lock.lfRange, request.Mine x →
        x ∈ firstMatch :: (pre ++ [lastMatch]) ∧ clip.Due request.owner x := by
      intro x member mine
      have due := dueOf x member mine.1
      refine ⟨?_, due⟩
      have inList := pending x member mine
      simp only [List.mem_cons, List.mem_append] at inList ⊢
      rcases inList with isFirst | early | isLast | late
      · exact .inl isFirst
      · exact .inr (.inl early)
      · exact .inr (.inr (.inl isLast))
      · exact absurd mine.2 (clear x late due)
    by_cases start : firstMatch.lfStart < request.start
    · obtain ⟨after, loop, swept, tally, -⟩ := clipLoop_left sweeping dueFirst dueLast start
        (by omega) (by omega) fresh (by omega) (by omega) within clear
      exact ⟨after, _, loop, swept, tally, all⟩
    · have lastGe := sorted.2.1.1 lastMatch lastLater
      obtain ⟨after, loop, swept, tally⟩ := clipLoop_tail firstMatch.addr
        (firstMatch :: pre) sweeping dueLast (by omega) (by omega)
        (by
          intro x member due
          rcases List.mem_cons.mp member with rfl | early
          · exact ⟨by omega, by omega⟩
          · exact within x early due)
        (fun x member old => clear x member (sweeping.due_of_old old))
      exact ⟨after, _, loop, swept, tally, all⟩

omit [DecidableEq Owner] in
theorem insertRequest_addr {point : Option (LockfRange Owner)} (unused : Unused lock)
    {x : LockfRange Owner} (member : x ∈ (insertRequest request lock point count).ranges) :
    x.addr < lock.fresh + 1 := by
  unfold insertRequest at member
  split at member
  · exact (unused x member).trans (Nat.lt_succ_self _)
  · rcases (mem_lfInsert).mp member with rfl | member
    · exact Nat.lt_succ_self _
    · exact (unused x member).trans (Nat.lt_succ_self _)

/-- The loop of an update that breaks up a range in the middle. -/
theorem sweep_double (sound : Sound lock.lfRange) (unused : Unused lock)
    (free : (scan request lock).conflict = none)
    (first : (scan request lock).firstMatch = some firstMatch)
    (last : (scan request lock).lastMatch = some lastMatch)
    (double : doubleClip request firstMatch lastMatch = true) {clip : Clip Owner}
    (is : clip = (insertRequest request lock (scan request lock).insertPoint count).breakUp request
      firstMatch (lock.fresh + 1)) :
    ∃ after visited, clipLoop request firstMatch.addr (lock.fresh + 1)
        (Keyed.onward LockfRange.addr firstMatch.addr clip.ranges) clip = .done after ∧
      Swept request lock.lfRange after ∧ Tally request clip after visited ∧
      (∀ x ∈ lock.lfRange, request.Mine x → x = firstMatch) ∧
      leftSide request firstMatch ∈ visited ∧
      clip.Due request.owner (leftSide request firstMatch) ∧
      (request.flags.posix = true → clip.brange ≠ none →
        lfMatch firstMatch request.type request.flags = true → after.count + 2 ≤ clip.count) := by
  obtain ⟨firstMem, firstMine, -⟩ := scan_firstMatch sound free first
  obtain ⟨lastMem, -, -⟩ := scan_lastMatch sound free last
  simp only [doubleClip, Bool.and_eq_true, decide_eq_true_eq] at double
  obtain ⟨⟨start, sameAddr⟩, stop⟩ := double
  obtain rfl := Keyed.eq_of_mem_of_key sound.distinct firstMem lastMem sameAddr
  have requestLe := request.le
  have old := old_insertRequest (scan request lock).insertPoint count unused firstMem firstMine.1
  have broken : Carving request lock.lfRange clip := by
    rw [is]
    exact (insertRequest_carving sound unused free count).breakUp old start stop
      (fun x member => insertRequest_addr unused member)
  have mem := mem_breakUp request (lock.fresh + 1) old.mem
  rw [← is] at mem
  set left := leftSide request firstMatch with leftEq
  set right := rightSide request firstMatch (lock.fresh + 1) with rightEq
  have isDead : ∀ x, clip.isDead x = false := by
    intro x
    rw [is]
    exact insertRequest_isDead x
  have brangeIs : ∀ brange, clip.brange = some brange →
      brange = request.createRange lock.fresh request.flags := by
    intro brange some
    rw [is] at some
    exact insertRequest_brange some
  -- the broken range covers the request, so that nothing else of the owner meets it
  have alone : ∀ x ∈ lock.lfRange, request.Mine x → x = firstMatch := by
    intro x member mine
    by_contra ne
    have proper := (sound.proper x member).1
    obtain ⟨owned, meetsLeft, meetsRight⟩ := mine
    rcases sound.apart member firstMem (owned.trans firstMine.1.symm) ne with before | after
    · omega
    · omega
  have oldCases : ∀ x, clip.Old request.owner x →
      x = left ∨ x = right ∨ x ∈ lock.lfRange ∧ x.addr ≠ firstMatch.addr := by
    intro x oldX
    rcases (mem x).mp oldX.mem with isPart | ⟨member, ne⟩
    · simp only [List.mem_cons, List.not_mem_nil, or_false] at isPart
      tauto
    · refine .inr (.inr ⟨insertRequest_old ⟨member, oldX.owned, ?_⟩, ne⟩)
      have notBrange := oldX.ne
      rwa [is] at notBrange
  have quiet : ∀ x, clip.Old request.owner x → ¬request.Meets x := by
    intro x oldX meets
    rcases oldCases x oldX with rfl | rfl | ⟨member, ne⟩
    · have := meets.2
      simp only [leftEq, leftSide] at this
      omega
    · have := meets.1
      simp only [rightEq, rightSide] at this
      omega
    · exact ne (alone x member ⟨oldX.owned, meets⟩ ▸ rfl)
  have dueLeft : clip.Due request.owner left := by
    refine ⟨firstMine.1, isDead left, ?_⟩
    rw [is]
    exact old.ne
  have dueRight : clip.Due request.owner right := by
    refine ⟨firstMine.1, isDead right, ?_⟩
    intro same
    obtain ⟨brange, some, addr⟩ := Option.map_eq_some_iff.mp same
    rw [brangeIs brange some] at addr
    simp [Request.createRange, rightEq, rightSide] at addr
  obtain ⟨tail, shape⟩ := Keyed.onward_of_mem broken.distinct ((mem left).mpr (.inl (by simp)))
  have whole := Keyed.upTo_append_onward LockfRange.addr left.addr clip.ranges
  rw [shape] at whole
  have order := broken.sorted
  have apart := broken.distinct
  rw [← whole, List.pairwise_append, List.pairwise_cons] at order apart
  have rightLater : right ∈ tail := by
    have member := (mem right).mpr (.inl (by simp))
    rw [← whole, List.mem_append, List.mem_cons] at member
    rcases member with early | isLeft | later
    · have le := order.2.2 right early left List.mem_cons_self
      simp only [leftEq, leftSide, rightEq, rightSide] at le
      omega
    · have addr := congrArg LockfRange.addr isLeft
      have below := insertRequest_addr unused old.mem
      simp only [leftEq, leftSide, rightEq, rightSide] at addr
      omega
    · exact later
  obtain ⟨pre, post, tailEq⟩ := List.append_of_mem rightLater
  subst tailEq
  have tailMem : ∀ x ∈ pre ++ right :: post, x ∈ clip.ranges := by
    intro x member
    rw [← whole]
    exact List.mem_append_right _ (List.mem_cons_of_mem _ member)
  have sweeping : Sweeping request lock.lfRange clip (left :: (pre ++ right :: post)) := by
    constructor
    case carving => exact broken
    case live =>
      rw [List.filter_eq_self.mpr (fun x _ => by simp [isDead]), ← shape]
      exact List.dropWhile_suffix _
    case alive => exact fun x _ => isDead x
    case apart => exact List.pairwise_cons.mpr apart.2.1
    case pending => exact fun x oldX meets => absurd meets (quiet x oldX)
    case exact =>
      intro brange some
      rw [brangeIs brange some]
      rfl
  have within : ∀ x ∈ pre, clip.Due request.owner x →
      request.start ≤ x.lfStart ∧ x.lfEnd ≤ request.stop := by
    intro x member due
    have inTail : x ∈ pre ++ right :: post := List.mem_append_left _ member
    have ne := apart.2.1.1 x inTail
    have lower := order.2.1.1 x inTail
    have upper := (List.pairwise_append.mp order.2.1.2).2.2 x member right List.mem_cons_self
    have neRight := (List.pairwise_append.mp apart.2.1.2).2.2 x member right List.mem_cons_self
    rcases oldCases x ⟨tailMem x inTail, due.owned, due.ne⟩ with rfl | rfl | ⟨listed, different⟩
    · exact absurd rfl ne
    · exact absurd rfl neRight
    · have proper := (sound.proper x listed).1
      have distinctFirst : x ≠ firstMatch := fun equal => different (equal ▸ rfl)
      simp only [leftEq, leftSide, rightEq, rightSide] at lower upper
      rcases sound.apart listed firstMem (due.owned.trans firstMine.1.symm) distinctFirst with
        before | after
      · omega
      · omega
  obtain ⟨after, loop, swept, tally, twice⟩ := clipLoop_left sweeping dueLeft dueRight start le_rfl
    (by simp only [leftEq, leftSide]; omega)
    (by
      intro brange some
      rw [brangeIs brange some]
      exact ⟨rfl, rfl⟩)
    (by simp only [rightEq, rightSide]; omega) le_rfl within
    (fun x member due => quiet x ⟨tailMem x (by simp [member]), due.owned, due.ne⟩)
  refine ⟨after, _, ?_, swept, tally, alone, List.mem_cons_self, dueLeft, ?_⟩
  · rw [show firstMatch.addr = left.addr from rfl, shape]
    exact loop
  · intro posix isSome same
    exact twice posix isSome same same

end Loop

section Merge

omit [DecidableEq Owner]

variable {clip : Clip Owner}

theorem Swept.absorb (swept : Swept request before clip) {keep gone : LockfRange Owner}
    (keepMem : keep ∈ clip.ranges) (goneMem : gone ∈ clip.ranges)
    (owned : keep.lfOwner = request.owner) (joins : Joins keep gone)
    (part : clip.brange = some keep ∨ clip.brange = some gone) :
    Swept request before (clip.absorb keep gone) where
  carving := swept.carving.absorb keepMem goneMem owned joins part
  clear x old := swept.clear x (Clip.old_of_absorb keepMem joins.addr part old).1

theorem Tally.absorb (clip : Clip Owner) (keep gone : LockfRange Owner) :
    Tally request clip (clip.absorb keep gone) [] where
  addrs := clip.addr_absorb keep gone
  kept on := on
  noted := by simp
  count_le := clip.count_absorb_le keep gone
  count_lt := by simp

theorem Tally.refl (clip : Clip Owner) : Tally request clip clip [] where
  addrs x member := ⟨x, member, rfl⟩
  kept on := on
  noted := by simp
  count_le := le_rfl
  count_lt := by simp

end Merge

section Merge

variable {clip : Clip Owner}

theorem Swept.mergePrev (swept : Swept request before clip) :
    Swept request before (clip.mergePrev request) ∧ Tally request clip (clip.mergePrev request) [] := by
  have same : Swept request before clip ∧ Tally request clip clip [] := ⟨swept, .refl clip⟩
  unfold Clip.mergePrev
  cases is : clip.brange with
  | none => exact same
  | some brange =>
      cases found : Keyed.prevOf LockfRange.addr brange.addr clip.ranges with
      | none => simpa [found] using same
      | some range =>
          simp only [found]
          split
          case isFalse => exact same
          case isTrue adjacent =>
            simp only [lfMatch, Bool.and_eq_true, decide_eq_true_eq, beq_iff_eq] at adjacent
            obtain ⟨⟨owned, touches⟩, type, -⟩ := adjacent
            obtain ⟨member, brangeOwned, brangeType, -⟩ := swept.carving.primary brange is
            have rangeMem := Keyed.prevOf_mem found
            have proper := (swept.carving.proper range rangeMem).1
            have brangeProper := (swept.carving.proper brange member).1
            refine ⟨swept.absorb rangeMem member owned ?_ (.inr is), .absorb clip range brange⟩
            constructor
            case owner => exact owned.trans brangeOwned.symm
            case type => exact type.trans brangeType.symm
            case addr => exact Keyed.prevOf_key swept.carving.distinct found
            case start => omega
            case reach => omega
            case stop => omega

theorem Swept.mergeNext (swept : Swept request before clip) :
    Swept request before (clip.mergeNext request) ∧ Tally request clip (clip.mergeNext request) [] := by
  have same : Swept request before clip ∧ Tally request clip clip [] := ⟨swept, .refl clip⟩
  unfold Clip.mergeNext
  cases is : clip.brange with
  | none => exact same
  | some brange =>
      cases found : Keyed.nextOf LockfRange.addr brange.addr clip.ranges with
      | none => simpa [found] using same
      | some range =>
          simp only [found]
          split
          case isFalse => exact same
          case isTrue adjacent =>
            simp only [lfMatch, Bool.and_eq_true, decide_eq_true_eq, beq_iff_eq] at adjacent
            obtain ⟨⟨owned, touches⟩, type, -⟩ := adjacent
            obtain ⟨member, brangeOwned, brangeType, -⟩ := swept.carving.primary brange is
            have rangeMem := Keyed.nextOf_mem found
            have proper := (swept.carving.proper range rangeMem).1
            have brangeProper := (swept.carving.proper brange member).1
            refine ⟨swept.absorb member rangeMem brangeOwned ?_ (.inl is), .absorb clip brange range⟩
            constructor
            case owner => exact brangeOwned.trans owned.symm
            case type => exact brangeType.trans type.symm
            case addr => exact (Keyed.nextOf_key swept.carving.distinct found).symm
            case start => omega
            case reach => omega
            case stop => omega

end Merge

/-- Once no old range meets the request, the owner holds the lock of the request at
its bytes, and the list satisfies its invariant again. -/
theorem Swept.applied {clip : Clip Owner} (swept : Swept request before clip) (sound : Sound before)
    (free : ∀ range ∈ before, ¬request.Blocks range) : Applied request before clip.ranges := by
  have carving := swept.carving
  have others : ∀ owner, owner ≠ request.owner → ∀ byte type,
      Covers clip.ranges owner byte type ↔ Covers before owner byte type := by
    intro owner foreign byte type
    constructor
    · rintro ⟨range, member, rfl, has, rfl⟩
      exact ⟨range, (carving.others range foreign).mp member, rfl, has, rfl⟩
    · rintro ⟨range, member, rfl, has, rfl⟩
      exact ⟨range, (carving.others range foreign).mpr member, rfl, has, rfl⟩
  have meets : ∀ (range : LockfRange Owner) byte, range.Has byte → request.Has byte →
      request.Meets range := by
    intro range byte has requested
    exact ⟨has.1.trans requested.2, requested.1.trans has.2⟩
  have ofPrimary : ∀ byte, request.Has byte → ∀ range ∈ clip.ranges,
      range.lfOwner = request.owner → range.Has byte → clip.brange = some range := by
    intro byte requested range member owned has
    by_cases same : clip.brange.map LockfRange.addr = some range.addr
    · obtain ⟨brange, is, addr⟩ := Option.map_eq_some_iff.mp same
      rw [is, Keyed.eq_of_mem_of_key carving.distinct (carving.primary brange is).1 member addr]
    · exact absurd (meets range byte has requested) (swept.clear range ⟨member, owned, same⟩)
  have inside : ∀ byte, request.Has byte → ∀ type,
      Covers clip.ranges request.owner byte type ↔ type = request.type ∧ request.type ≠ .unlck := by
    intro byte requested type
    constructor
    · rintro ⟨range, member, owned, has, rfl⟩
      have is := ofPrimary byte requested range member owned has
      refine ⟨(carving.primary range is).2.2.1, ?_⟩
      intro unlock
      rw [carving.absent.mpr unlock] at is
      cases is
    · rintro ⟨rfl, lock⟩
      obtain ⟨brange, is⟩ := Option.ne_none_iff_exists'.mp (mt carving.absent.mp lock)
      obtain ⟨member, owned, type, left, right⟩ := carving.primary brange is
      exact ⟨brange, member, owned, ⟨left.trans requested.1, requested.2.trans right⟩, type⟩
  -- what another owner has at a byte of the request does not conflict with it
  have compatible : ∀ byte, request.Has byte → ∀ owner, owner ≠ request.owner → ∀ type,
      Covers before owner byte type → request.type ≠ .unlck →
        request.type = .rdlck ∧ type = .rdlck := by
    rintro byte requested owner foreign type ⟨range, member, rfl, has, rfl⟩ lock
    have clear := free range member
    have proper := (sound.proper range member).2
    simp only [Request.Blocks, conflictsWith, not_and, Bool.not_eq_true] at clear
    have none := clear foreign (meets range byte has requested)
    cases kind : request.type <;> cases held : range.lfType <;> simp_all
  constructor
  case others => exact others
  case outside => exact carving.outside
  case inside => exact inside
  case sound =>
    constructor
    case sorted => exact carving.sorted
    case distinct => exact carving.distinct
    case proper => exact carving.proper
    case once =>
      intro x xMem y yMem owner byte xHas yHas
      by_cases own : x.lfOwner = request.owner
      · have yOwn : y.lfOwner = request.owner := owner ▸ own
        by_cases requested : request.Has byte
        · exact Option.some.inj ((ofPrimary byte requested x xMem own xHas).symm.trans
            (ofPrimary byte requested y yMem yOwn yHas))
        · by_cases xOld : clip.brange.map LockfRange.addr = some x.addr <;>
            by_cases yOld : clip.brange.map LockfRange.addr = some y.addr
          · exact Keyed.eq_of_mem_of_key carving.distinct xMem yMem
              (Option.some.inj (xOld.symm.trans yOld))
          · obtain ⟨brange, is, addr⟩ := Option.map_eq_some_iff.mp xOld
            obtain rfl := Keyed.eq_of_mem_of_key carving.distinct (carving.primary brange is).1 xMem addr
            exact absurd (carving.inside brange is y ⟨yMem, yOwn, yOld⟩ byte yHas xHas) requested
          · obtain ⟨brange, is, addr⟩ := Option.map_eq_some_iff.mp yOld
            obtain rfl := Keyed.eq_of_mem_of_key carving.distinct (carving.primary brange is).1 yMem addr
            exact absurd (carving.inside brange is x ⟨xMem, own, xOld⟩ byte xHas yHas) requested
          · exact carving.once x y ⟨xMem, own, xOld⟩ ⟨yMem, yOwn, yOld⟩ byte xHas yHas
      · exact sound.once x ((carving.others x own).mp xMem) y
          ((carving.others y (owner ▸ own)).mp yMem) owner byte xHas yHas
    case shared =>
      rintro owner other different byte type covers ⟨otherType, otherCovers⟩
      by_cases requested : request.Has byte
      · by_cases own : owner = request.owner
        · subst own
          obtain ⟨rfl, lock⟩ := (inside byte requested type).mp covers
          exact (compatible byte requested other different.symm otherType
            ((others other different.symm byte otherType).mp otherCovers) lock).1
        · have held := (others owner own byte type).mp covers
          by_cases otherOwn : other = request.owner
          · subst otherOwn
            obtain ⟨-, lock⟩ := (inside byte requested otherType).mp otherCovers
            exact (compatible byte requested owner own type held lock).2
          · exact sound.shared owner other different byte type held
              ⟨otherType, (others other otherOwn byte otherType).mp otherCovers⟩
      · have back : ∀ o k, Covers clip.ranges o byte k → Covers before o byte k := by
          intro o k held
          by_cases own : o = request.owner
          · subst own
            exact (carving.outside byte requested k).mp held
          · exact (others o own byte k).mp held
        exact sound.shared owner other different byte type (back owner type covers)
          ⟨otherType, back other otherType otherCovers⟩

end Dragonfly.Kern.ByteRange
