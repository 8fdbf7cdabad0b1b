import Dragonfly.Kern.ByteRange.Grant
import Mathlib.Logic.Function.Basic

/-!
# `F_NOEND`

A range carries the flag next to its `lf_end`.  Every step of the update copies,
merges or clears the two, and the lemmas here say for each of them that they stay in
agreement, as long as no unlock to the last offset begins inside a range that has the
flag.
-/

namespace Dragonfly.Kern.ByteRange

open Dragonfly.Lib

/-- `LLONG_MAX` -/
def llongMax : Int := 9223372036854775807

variable {Owner : Type}

/-- What `lf_advlock` passes on: offsets in `off_t`, and the flag only with the last offset. -/
structure Request.Fits (request : Request Owner) : Prop where
  stop : request.stop ≤ llongMax
  noend : request.flags.noend = true → request.stop = llongMax

/-- An unlock to the last offset does not begin inside a range of the owner that has the flag. -/
def Request.Spares (request : Request Owner) (ranges : List (LockfRange Owner)) : Prop :=
  request.type = .unlck → request.stop = llongMax →
    ∀ range ∈ ranges, range.lfOwner = request.owner → range.lfFlags.noend = true → request.start ≤ range.lfStart

/-- A lock of the owner that the request is absorbed by: one of the same kind that begins in
front of it and reaches the last offset. -/
structure Request.Tail (request : Request Owner) (range : LockfRange Owner) : Prop where
  owned : range.lfOwner = request.owner
  last : range.lfEnd = llongMax
  start : range.lfStart < request.start
  same : lfMatch range request.type request.flags = true

section Endless

variable [DecidableEq Owner]

instance (request : Request Owner) (range : LockfRange Owner) : Decidable (request.Tail range) :=
  decidable_of_iff (range.lfOwner = request.owner ∧ range.lfEnd = llongMax ∧
    range.lfStart < request.start ∧ lfMatch range request.type request.flags = true)
    ⟨fun ⟨owned, last, start, same⟩ => ⟨owned, last, start, same⟩,
      fun ⟨owned, last, start, same⟩ => ⟨owned, last, start, same⟩⟩

/-- Whether the lock of the owner that reaches the last offset does so as the result of a
to-end-of-file request, after one more request has been granted; `was` is the same before it.
The request says so, or it is absorbed by such a lock. -/
def Request.endless (request : Request Owner) (ranges : List (LockfRange Owner)) (was : Bool) : Bool :=
  if request.stop < llongMax then was
  else if request.type = .unlck then false
  else request.flags.noend || (was && ranges.any fun range => request.Tail range)

end Endless

/-- The flag and the end of a range of the owner agree in the course of the update. -/
structure Tagged (request : Request Owner) (was : Bool) (range : LockfRange Owner) : Prop where
  proper : range.lfStart ≤ range.lfEnd
  upper : range.lfEnd ≤ llongMax
  last : range.lfFlags.noend = true → range.lfEnd = llongMax
  kept : request.stop < llongMax → range.lfEnd = llongMax → range.lfFlags.noend = was

/-- A range of the owner as the loop finds it. -/
structure Found (request : Request Owner) (before : List (LockfRange Owner)) (was : Bool)
    (range : LockfRange Owner) : Prop extends Tagged request was range where
  within : range.lfStart < request.start → range.lfEnd ≤ request.stop
  old : range.lfStart < request.start → range.lfFlags.noend = true → range ∈ before

/-- All ranges of the owner agree, and the flag of the one that stands for the request comes
from the request or from a lock that has absorbed it. -/
structure Tagging (request : Request Owner) (before : List (LockfRange Owner)) (was : Bool) (clip : Clip Owner) :
    Prop where
  ranges : ∀ range ∈ clip.ranges, range.lfOwner = request.owner → Tagged request was range
  primary : ∀ brange, clip.brange = some brange → Tagged request was brange
  asked : ∀ brange, clip.brange = some brange → request.flags.noend = true → brange.lfFlags.noend = true
  reach : ∀ brange, clip.brange = some brange → request.stop = llongMax → brange.lfEnd = llongMax
  origin : ∀ brange, clip.brange = some brange → request.stop = llongMax → brange.lfFlags.noend = true →
    request.flags.noend = true ∨ ∃ old ∈ before, request.Tail old ∧ old.lfFlags.noend = true

variable {request : Request Owner} {before : List (LockfRange Owner)} {was : Bool} {clip : Clip Owner}
  {keep gone range : LockfRange Owner}

theorem mem_of_mem_absorb (member : range ∈ (clip.absorb keep gone).ranges) :
    range = extend keep gone ∨ range ∈ clip.ranges := by
  rw [Clip.absorb, Keyed.mem_remove, Keyed.replace, List.mem_map] at member
  obtain ⟨⟨old, oldMem, rfl⟩, -⟩ := member
  split
  · exact .inl rfl
  · exact .inr oldMem

namespace Tagging

/-- Merging two ranges, of which the longer one passes its end on. -/
theorem absorb (tagging : Tagging request before was clip)
    (tagged : Tagged request was (extend keep gone))
    (asked : request.flags.noend = true → (extend keep gone).lfFlags.noend = true)
    (reach : request.stop = llongMax → gone.lfEnd = llongMax)
    (origin : request.stop = llongMax → (extend keep gone).lfFlags.noend = true →
      request.flags.noend = true ∨ ∃ old ∈ before, request.Tail old ∧ old.lfFlags.noend = true) :
    Tagging request before was (clip.absorb keep gone) where
  ranges range member mine := by
    rcases mem_of_mem_absorb member with rfl | member
    · exact tagged
    · exact tagging.ranges range member mine
  primary := by
    rintro brange ⟨⟩
    exact tagged
  asked := by
    rintro brange ⟨⟩
    exact asked
  reach := by
    rintro brange ⟨⟩
    exact reach
  origin := by
    rintro brange ⟨⟩
    exact origin

/-- Every list whose ranges of the owner agree, with the same `brange`. -/
theorem congr (tagging : Tagging request before was clip) {after : Clip Owner}
    (ranges : ∀ range ∈ after.ranges, range.lfOwner = request.owner →
      range ∈ clip.ranges ∨ Tagged request was range) (brange : after.brange = clip.brange) :
    Tagging request before was after where
  ranges range member mine := (ranges range member mine).elim (tagging.ranges range · mine) id
  primary := by
    rw [brange]
    exact tagging.primary
  asked := by
    rw [brange]
    exact tagging.asked
  reach := by
    rw [brange]
    exact tagging.reach
  origin := by
    rw [brange]
    exact tagging.origin

theorem destroy (tagging : Tagging request before was clip) (range : LockfRange Owner) :
    Tagging request before was (clip.destroy range) :=
  tagging.congr (fun _ member _ => .inl ((Keyed.mem_remove).mp member).1) rfl

/-- The clip on the left. -/
theorem clipLeft (tagging : Tagging request before was clip) (fits : request.Fits) (spares : request.Spares before)
    (exact : ∀ brange, clip.brange = some brange → brange.lfEnd = request.stop)
    (owned : range.lfOwner = request.owner) (found : Found request before was range)
    (start : range.lfStart < request.start) : Tagging request before was (clip.clipLeft request range) := by
  have stopLe := fits.stop
  have within := found.within start
  have requestLe := request.le
  have cut : Tagging request before was (Clip.clipLeft.cut clip request range) := by
    unfold Clip.clipLeft.cut
    split
    · refine tagging.congr (fun other member _ => ?_) rfl
      rw [Keyed.replace, List.mem_map] at member
      obtain ⟨old, oldMem, rfl⟩ := member
      split
      · right
        -- only an unlock would leave the flag, and it does not begin inside such a range
        have cleared : (range.lfFlags.noend && request.type == .unlck) = false := by
          by_contra flagged
          simp only [Bool.not_eq_false, Bool.and_eq_true, beq_iff_eq] at flagged
          have reached := found.last flagged.1
          have ahead := spares flagged.2 (by omega) range (found.old start flagged.1) owned flagged.1
          omega
        exact ⟨by simp only; omega, by simp only; omega, by simp [cleared], fun _ is => by simp only at is; omega⟩
      · exact .inl oldMem
    · exact tagging
  unfold Clip.clipLeft
  split
  · rename_i brange is
    split
    · rename_i near
      simp only [Bool.and_eq_true, decide_eq_true_eq] at near
      have primary := tagging.primary brange is
      have ends := exact brange is
      have noend : (extend range brange).lfFlags.noend = (range.lfFlags.noend || brange.lfFlags.noend) := rfl
      have reached : (extend range brange).lfEnd = brange.lfEnd := rfl
      apply tagging.absorb
      · refine ⟨by rw [reached]; show range.lfStart ≤ _; omega, by rw [reached]; exact primary.upper, ?_, ?_⟩
        · rw [noend, Bool.or_eq_true, reached]
          rintro (flagged | flagged)
          · have last := found.last flagged
            omega
          · exact primary.last flagged
        · rw [reached]
          omega
      · intro asks
        rw [noend, tagging.asked brange is asks, Bool.or_true]
      · exact tagging.reach brange is
      · intro last flagged
        rw [noend, Bool.or_eq_true] at flagged
        rcases flagged with flagged | flagged
        · exact .inr ⟨range, found.old start flagged, ⟨owned, found.last flagged, start, near.2⟩, flagged⟩
        · exact tagging.origin brange is last flagged
    · exact cut
  · exact cut

/-- The clip on the right. -/
theorem clipRight (tagging : Tagging request before was clip) (fits : request.Fits)
    (exact : ∀ brange, clip.brange = some brange → brange.lfEnd = request.stop)
    (found : Found request before was range) (stop : request.stop < range.lfEnd) (next : Option Nat) :
    Tagging request before was (clip.clipRight request range next) := by
  have upper := found.upper
  have cut : Tagging request before was (Clip.clipRight.cut clip request range next) := by
    unfold Clip.clipRight.cut
    split
    · refine tagging.congr (fun other member _ => ?_) rfl
      rcases (mem_lfInsert).mp member with rfl | member
      · exact .inr ⟨by simp only; omega, upper, found.last, found.kept⟩
      · exact .inl ((Keyed.mem_remove).mp member).1
    · exact tagging
  unfold Clip.clipRight
  split
  · rename_i brange is
    split
    · rename_i near
      have primary := tagging.primary brange is
      have ends := exact brange is
      have unflagged : brange.lfFlags.noend = false := by
        by_contra flagged
        have last := primary.last (by simpa using flagged)
        omega
      have noend : (extend brange range).lfFlags.noend = range.lfFlags.noend := by
        simp [extend, unflagged]
      have proper := primary.proper
      apply tagging.absorb
      · exact ⟨by show brange.lfStart ≤ range.lfEnd; omega, upper, by rw [noend]; exact found.last,
          by rw [noend]; exact found.kept⟩
      · intro asks
        have last := fits.noend asks
        omega
      · omega
      · omega
    · exact cut
  · exact cut

theorem mergePrev [DecidableEq Owner] (tagging : Tagging request before was clip) :
    Tagging request before was (clip.mergePrev request) := by
  unfold Clip.mergePrev
  split
  · exact tagging
  · rename_i brange is
    split
    · exact tagging
    · rename_i range isPrev
      split
      · rename_i near
        simp only [Bool.and_eq_true, decide_eq_true_eq] at near
        have tagged := tagging.ranges range (Keyed.prevOf_mem isPrev) near.1.1
        have primary := tagging.primary brange is
        have rangeProper := tagged.proper
        have proper := primary.proper
        have upper := primary.upper
        have unflagged : range.lfFlags.noend = false := by
          by_contra flagged
          have last := tagged.last (by simpa using flagged)
          omega
        have noend : (extend range brange).lfFlags.noend = brange.lfFlags.noend := by
          simp [extend, unflagged]
        apply tagging.absorb
        · exact ⟨by show range.lfStart ≤ brange.lfEnd; omega, upper, by rw [noend]; exact primary.last,
            by rw [noend]; exact primary.kept⟩
        · rw [noend]
          exact tagging.asked brange is
        · exact tagging.reach brange is
        · rw [noend]
          exact tagging.origin brange is
      · exact tagging

theorem mergeNext [DecidableEq Owner] (tagging : Tagging request before was clip) (fits : request.Fits) :
    Tagging request before was (clip.mergeNext request) := by
  unfold Clip.mergeNext
  split
  · exact tagging
  · rename_i brange is
    split
    · exact tagging
    · rename_i range isNext
      split
      · rename_i near
        simp only [Bool.and_eq_true, decide_eq_true_eq] at near
        have tagged := tagging.ranges range (Keyed.nextOf_mem isNext) near.1.1
        have primary := tagging.primary brange is
        have reach := tagging.reach brange is
        have rangeProper := tagged.proper
        have proper := primary.proper
        have upper := tagged.upper
        have unflagged : brange.lfFlags.noend = false := by
          by_contra flagged
          have last := primary.last (by simpa using flagged)
          omega
        have noend : (extend brange range).lfFlags.noend = range.lfFlags.noend := by
          simp [extend, unflagged]
        apply tagging.absorb
        · exact ⟨by show brange.lfStart ≤ range.lfEnd; omega, upper, by rw [noend]; exact tagged.last,
            by rw [noend]; exact tagged.kept⟩
        · intro asks
          have last := reach (fits.noend asks)
          omega
        · intro last
          have := reach last
          omega
        · intro last
          have := reach last
          omega
      · exact tagging

end Tagging

/-- The whole loop. -/
theorem clipLoop_tagging [DecidableEq Owner] {firstMatch lastMatch : Nat} {rest : List (LockfRange Owner)}
    {after : Clip Owner} (fits : request.Fits) (spares : request.Spares before)
    (tagging : Tagging request before was clip)
    (exact : ∀ brange, clip.brange = some brange → brange.lfEnd = request.stop)
    (found : ∀ range ∈ rest, range.lfOwner = request.owner → Found request before was range)
    (done : clipLoop request firstMatch lastMatch rest clip = .done after) :
    Tagging request before was after := by
  induction rest generalizing clip with
  | nil =>
      obtain rfl := Outcome.done.inj done
      exact tagging
  | cons range rest ih =>
      have later := fun other member => found other (List.mem_cons_of_mem range member)
      by_cases due : clip.Due request.owner range
      · have here := found range List.mem_cons_self due.owned
        have noted : Tagging request before was (clip.noting request range) :=
          tagging.congr (fun _ member _ => .inl member) rfl
        rw [clipLoop_due due] at done
        split at done
        · rename_i start
          have left := noted.clipLeft fits spares exact due.owned here start
          have leftExact : ∀ brange, ((clip.noting request range).clipLeft request range).brange = some brange →
              brange.lfEnd = request.stop := by
            unfold Clip.clipLeft Clip.clipLeft.cut
            intro brange
            split
            · rename_i first is
              split
              · rintro ⟨⟩
                exact exact first is
              · split <;> exact exact brange
            · split <;> exact exact brange
          rw [Outcome.kkassert_eq_done_iff] at done
          obtain ⟨-, done⟩ := done
          split at done
          · obtain rfl := Outcome.done.inj done
            exact left
          · exact ih left leftExact later done
        · split at done
          · rename_i stop
            rw [Outcome.kkassert_eq_done_iff] at done
            obtain rfl := Outcome.done.inj done.2
            exact noted.clipRight fits exact here stop _
          · split at done
            · obtain rfl := Outcome.done.inj done
              exact noted.destroy range
            · exact ih (noted.destroy range) exact later done
      · rw [clipLoop_skip due] at done
        exact ih tagging exact later done

/-! ## The update -/

/-- The flags of the owner's ranges are in order. -/
def Agrees (owner : Owner) (was : Bool) (ranges : List (LockfRange Owner)) : Prop :=
  ∀ range ∈ ranges, range.lfOwner = owner →
    range.lfEnd ≤ llongMax ∧ (range.lfFlags.noend = true ↔ range.lfEnd = llongMax ∧ was = true)

theorem Agrees.tagged (agrees : Agrees request.owner was before) (sound : Sound before) (member : range ∈ before)
    (owned : range.lfOwner = request.owner) : Tagged request was range := by
  obtain ⟨upper, flagged⟩ := agrees range member owned
  refine ⟨(sound.proper range member).1, upper, fun noend => (flagged.mp noend).1, fun _ last => ?_⟩
  rw [Bool.eq_iff_iff, flagged]
  exact and_iff_right last

theorem Request.Fits.createRange_tagged (fits : request.Fits) (was : Bool) (addr : Nat) :
    Tagged request was (request.createRange addr request.flags) where
  proper := request.le
  upper := fits.stop
  last := fits.noend
  kept early last := by
    have : request.stop = llongMax := last
    omega

section Start

variable [DecidableEq Owner] {lock : Lockf Owner} {firstMatch lastMatch : LockfRange Owner}

omit [DecidableEq Owner] in
theorem mem_insertRequest {point : Option (LockfRange Owner)} {count : Int}
    (member : range ∈ (insertRequest request lock point count).ranges) :
    range ∈ lock.lfRange ∨ range = request.createRange lock.fresh request.flags := by
  unfold insertRequest at member
  split at member
  · exact .inl member
  · exact ((mem_lfInsert).mp member).symm

omit [DecidableEq Owner] in
theorem insertRequest_tagging (fits : request.Fits) (sound : Sound lock.lfRange)
    (agrees : Agrees request.owner was lock.lfRange) (point : Option (LockfRange Owner)) (count : Int) :
    Tagging request lock.lfRange was (insertRequest request lock point count) where
  ranges range member owned := by
    rcases mem_insertRequest member with member | rfl
    · exact agrees.tagged sound member owned
    · exact fits.createRange_tagged was _
  primary brange is := by
    rw [insertRequest_brange is]
    exact fits.createRange_tagged was _
  asked brange is asks := by
    rw [insertRequest_brange is]
    exact asks
  reach brange is last := by
    rw [insertRequest_brange is]
    exact last
  origin brange is _ flagged := by
    rw [insertRequest_brange is] at flagged
    exact .inl flagged

omit [DecidableEq Owner] in
theorem Request.Fits.createRange_found (fits : request.Fits) (was : Bool) (addr : Nat) :
    Found request before was (request.createRange addr request.flags) where
  toTagged := fits.createRange_tagged was addr
  within start := absurd start (lt_irrefl request.start)
  old start := absurd start (lt_irrefl request.start)

omit [DecidableEq Owner] in
/-- A range of the owner other than one the request breaks up. -/
theorem found_of_mem (sound : Sound lock.lfRange) (agrees : Agrees request.owner was lock.lfRange)
    (member : range ∈ lock.lfRange) (owned : range.lfOwner = request.owner)
    (whole : range.lfStart < request.start → range.lfEnd ≤ request.stop) :
    Found request lock.lfRange was range :=
  ⟨agrees.tagged sound member owned, whole, fun _ _ => member⟩

/-- Without a double clip no range of the owner goes over both ends of the request. -/
theorem within_of_single (sound : Sound lock.lfRange) (free : (scan request lock).conflict = none)
    (first : (scan request lock).firstMatch = some firstMatch)
    (last : (scan request lock).lastMatch = some lastMatch)
    (single : doubleClip request firstMatch lastMatch = false) (member : range ∈ lock.lfRange)
    (owned : range.lfOwner = request.owner) (start : range.lfStart < request.start) :
    range.lfEnd ≤ request.stop := by
  by_contra stop
  rw [not_le] at stop
  have requestLe := request.le
  obtain ⟨firstMem, firstMine, -⟩ := scan_firstMatch sound free first
  obtain ⟨lastMem, lastMine, -⟩ := scan_lastMatch sound free last
  have alone : ∀ x ∈ lock.lfRange, request.Mine x → x = range := by
    intro x xMem mine
    by_contra ne
    have proper := (sound.proper x xMem).1
    obtain ⟨xOwned, left, right⟩ := mine
    rcases sound.apart xMem member (xOwned.trans owned.symm) ne with before | after
    · omega
    · omega
  rw [alone firstMatch firstMem firstMine, alone lastMatch lastMem lastMine] at single
  simp [doubleClip, start, stop] at single

/-- The ranges of the owner as the loop finds them without a double clip. -/
theorem found_plain (fits : request.Fits) (sound : Sound lock.lfRange)
    (free : (scan request lock).conflict = none) (agrees : Agrees request.owner was lock.lfRange)
    (first : (scan request lock).firstMatch = some firstMatch)
    (last : (scan request lock).lastMatch = some lastMatch)
    (single : doubleClip request firstMatch lastMatch = false) {point : Option (LockfRange Owner)} {count : Int}
    (member : range ∈ (insertRequest request lock point count).ranges) (owned : range.lfOwner = request.owner) :
    Found request lock.lfRange was range := by
  rcases mem_insertRequest member with member | rfl
  · exact found_of_mem sound agrees member owned (within_of_single sound free first last single member owned)
  · exact fits.createRange_found was _

/-- The same with one. -/
theorem found_double (fits : request.Fits) (sound : Sound lock.lfRange) (unused : Unused lock)
    (agrees : Agrees request.owner was lock.lfRange) (firstMem : firstMatch ∈ lock.lfRange)
    (firstOwned : firstMatch.lfOwner = request.owner) (start : firstMatch.lfStart < request.start)
    (stop : request.stop < firstMatch.lfEnd) (point : Option (LockfRange Owner)) (count : Int) (addr : Nat)
    (member : range ∈ ((insertRequest request lock point count).breakUp request firstMatch addr).ranges)
    (owned : range.lfOwner = request.owner) :
    Found request lock.lfRange was range := by
  have firstOld := old_insertRequest point count unused firstMem firstOwned
  have whole := agrees.tagged sound firstMem firstOwned
  have requestLe := request.le
  have upper := whole.upper
  rcases (mem_breakUp request addr firstOld.mem range).mp member with part | ⟨member, other⟩
  · simp only [List.mem_cons, List.not_mem_nil, or_false] at part
    rcases part with rfl | rfl
    · have unflagged : (leftSide request firstMatch).lfFlags.noend = false := rfl
      refine ⟨⟨?_, ?_, by simp [unflagged], ?_⟩, fun _ => ?_, by simp [unflagged]⟩
      · show firstMatch.lfStart ≤ request.start - 1
        omega
      · show request.start - 1 ≤ llongMax
        omega
      · intro _ last
        have : request.start - 1 = llongMax := last
        omega
      · show request.start - 1 ≤ request.stop
        omega
    · refine ⟨⟨?_, upper, whole.last, whole.kept⟩, fun ahead => ?_, fun ahead => ?_⟩
      · show request.stop + 1 ≤ firstMatch.lfEnd
        omega
      · have : request.stop + 1 < request.start := ahead
        omega
      · have : request.stop + 1 < request.start := ahead
        omega
  · rcases mem_insertRequest member with member | rfl
    · refine found_of_mem sound agrees member owned fun ahead => ?_
      have proper := (sound.proper range member).1
      rcases sound.apart member firstMem (owned.trans firstOwned.symm) (fun same => other (same ▸ rfl)) with
        before | after
      · omega
      · omega
    · exact fits.createRange_found was _

theorem breakUp_tagging (fits : request.Fits) (sound : Sound lock.lfRange) (unused : Unused lock)
    (agrees : Agrees request.owner was lock.lfRange) (firstMem : firstMatch ∈ lock.lfRange)
    (firstOwned : firstMatch.lfOwner = request.owner) (start : firstMatch.lfStart < request.start)
    (stop : request.stop < firstMatch.lfEnd) (point : Option (LockfRange Owner)) (count : Int) (addr : Nat) :
    Tagging request lock.lfRange was ((insertRequest request lock point count).breakUp request firstMatch addr) := by
  refine (insertRequest_tagging fits sound agrees point count).congr (fun range member owned => .inr ?_) rfl
  exact (found_double fits sound unused agrees firstMem firstOwned start stop point count addr member owned).toTagged

/-- The clipping part of the update. -/
theorem swept_tagging (fits : request.Fits) (spares : request.Spares lock.lfRange) (sound : Sound lock.lfRange)
    (unused : Unused lock) (free : (scan request lock).conflict = none)
    (agrees : Agrees request.owner was lock.lfRange)
    (first : (scan request lock).firstMatch = some firstMatch)
    (last : (scan request lock).lastMatch = some lastMatch) {after : Clip Owner}
    (done : swept request lock firstMatch lastMatch = .done after) : Tagging request lock.lfRange was after := by
  obtain ⟨firstMem, firstMine, -⟩ := scan_firstMatch sound free first
  obtain ⟨lastMem, -, -⟩ := scan_lastMatch sound free last
  have exact : ∀ count brange, (insertRequest request lock (scan request lock).insertPoint count).brange = some brange →
      brange.lfEnd = request.stop := by
    intro count brange is
    rw [insertRequest_brange is]
    rfl
  have onward : ∀ (point : Nat) (ranges : List (LockfRange Owner)), ∀ range ∈ Keyed.onward LockfRange.addr point ranges,
      range ∈ ranges := fun point ranges => (List.dropWhile_suffix _).subset
  unfold swept at done
  cases double : doubleClip request firstMatch lastMatch with
  | true =>
      have sameMatch : lastMatch = firstMatch := by
        simp only [doubleClip, Bool.and_eq_true, decide_eq_true_eq] at double
        exact Keyed.eq_of_mem_of_key sound.distinct lastMem firstMem double.1.2.symm
      have ends := double
      simp only [doubleClip, sameMatch, Bool.and_eq_true, decide_eq_true_eq] at ends
      simp only [double, if_true, Outcome.bind_eq_done_iff, Outcome.done.injEq] at done
      obtain ⟨middle, loop, rfl⟩ := done
      have opened := breakUp_tagging fits sound unused agrees firstMem firstMine.1 ends.1.1 ends.2
        (scan request lock).insertPoint (reserve request firstMatch lastMatch) (lock.fresh + 1)
      have looped := clipLoop_tagging fits spares opened (exact _) (fun range member =>
        found_double fits sound unused agrees firstMem firstMine.1 ends.1.1 ends.2 _ _ _ (onward _ _ range member)) loop
      exact looped.mergePrev.mergeNext fits
  | false =>
      simp only [double, Bool.false_eq_true, if_false, Outcome.bind_eq_done_iff, Outcome.done.injEq] at done
      obtain ⟨middle, loop, rfl⟩ := done
      have opened := insertRequest_tagging fits sound agrees (scan request lock).insertPoint
        (reserve request firstMatch lastMatch)
      have looped := clipLoop_tagging fits spares opened (exact _) (fun range member =>
        found_plain fits sound free agrees first last double (onward _ _ range member)) loop
      exact looped.mergePrev.mergeNext fits

omit [DecidableEq Owner] in
/-- A lock the request is absorbed by is the only one of the owner that meets it. -/
theorem Request.Tail.alone (sound : Sound lock.lfRange) (tail : request.Tail range) (member : range ∈ lock.lfRange)
    (last : request.stop = llongMax) {x : LockfRange Owner} (xMem : x ∈ lock.lfRange) (mine : request.Mine x) :
    x = range := by
  by_contra ne
  obtain ⟨owned, ends, start, -⟩ := tail
  obtain ⟨xOwned, left, right⟩ := mine
  rcases sound.apart xMem member (xOwned.trans owned.symm) ne with before | after
  · omega
  · have proper := (sound.proper range member).1
    omega

/-- The merges at the end leave the flag alone. -/
theorem merges_noend (flagged : ∀ brange, clip.brange = some brange → brange.lfFlags.noend = true) :
    ∀ brange, ((clip.mergePrev request).mergeNext request).brange = some brange → brange.lfFlags.noend = true := by
  have prev : ∀ brange, (clip.mergePrev request).brange = some brange → brange.lfFlags.noend = true := by
    unfold Clip.mergePrev
    intro brange
    repeat' split
    · exact flagged brange
    · exact flagged brange
    · rename_i first is _ _ _ _
      rintro ⟨⟩
      simp [extend, flagged first is]
    · exact flagged brange
  unfold Clip.mergeNext
  intro brange
  repeat' split
  · exact prev brange
  · exact prev brange
  · rename_i first is _ _ _ _
    rintro ⟨⟩
    simp [extend, prev first is]
  · exact prev brange

/-- A lock with the flag passes it on when the request is absorbed by it. -/
theorem swept_tail (sound : Sound lock.lfRange) (unused : Unused lock) (free : (scan request lock).conflict = none)
    (first : (scan request lock).firstMatch = some firstMatch)
    (last : (scan request lock).lastMatch = some lastMatch) {after : Clip Owner}
    (done : swept request lock firstMatch lastMatch = .done after) (ends : request.stop = llongMax)
    (member : range ∈ lock.lfRange) (tail : request.Tail range) (flagged : range.lfFlags.noend = true) :
    ∀ brange, after.brange = some brange → brange.lfFlags.noend = true := by
  obtain ⟨firstMem, firstMine, -⟩ := scan_firstMatch sound free first
  obtain ⟨lastMem, lastMine, -⟩ := scan_lastMatch sound free last
  obtain rfl := tail.alone sound member ends firstMem firstMine
  obtain rfl := tail.alone sound member ends lastMem lastMine
  have single : doubleClip request lastMatch lastMatch = false := by
    simp [doubleClip, tail.last, ends]
  set opened := insertRequest request lock (scan request lock).insertPoint (reserve request lastMatch lastMatch)
    with openedEq
  have old : opened.Old request.owner lastMatch := old_insertRequest _ _ unused member tail.owned
  have due : opened.Due request.owner lastMatch := ⟨tail.owned, insertRequest_isDead _, old.ne⟩
  have carving : Carving request lock.lfRange opened := insertRequest_carving sound unused free _
  obtain ⟨rest, shape⟩ := Keyed.onward_of_mem carving.distinct old.mem
  simp only [swept, single, Bool.false_eq_true, if_false, ← openedEq, shape, clipLoop_due due, if_pos tail.start,
    Outcome.kkassert_of, if_true, Outcome.bind, Outcome.done.injEq] at done
  subst done
  apply merges_noend
  have present : opened.brange ≠ none := brange_of_match sound unused free member tail.same _
  have near : (decide (request.start - 1 ≤ lastMatch.lfEnd) && lfMatch lastMatch request.type request.flags) = true := by
    have requestLe := request.le
    have reached := tail.last
    rw [tail.same, Bool.and_true, decide_eq_true_eq]
    omega
  intro brange
  unfold Clip.clipLeft
  split
  · rw [if_pos near]
    rintro ⟨⟩
    simp [extend, flagged]
  · rename_i absent
    exact absurd absent present

omit [DecidableEq Owner] in
/-- The range that stands for the request is the only one of the owner at its last byte. -/
theorem eq_brange_of_last (applied : Applied request before clip.ranges) (carving : Carving request before clip)
    (tagging : Tagging request before was clip) (ends : request.stop = llongMax)
    (member : range ∈ clip.ranges) (owned : range.lfOwner = request.owner) (last : range.lfEnd = llongMax) :
    clip.brange = some range := by
  have proper := (applied.sound.proper range member).1
  have requestLe := request.le
  have reaches : range.Has llongMax := ⟨by omega, by omega⟩
  -- an unlock leaves nothing at its last byte
  have lock' : request.type ≠ .unlck :=
    ((applied.inside llongMax ⟨by omega, by omega⟩ range.lfType).mp ⟨range, member, owned, reaches, rfl⟩).2
  obtain ⟨brange, is⟩ := Option.ne_none_iff_exists'.mp fun absent => lock' (carving.absent.mp absent)
  obtain ⟨primaryMem, primaryOwned, -, -, -⟩ := carving.primary brange is
  have primaryLast := tagging.reach brange is ends
  have primaryProper := (applied.sound.proper brange primaryMem).1
  rw [is, applied.sound.once range member brange primaryMem (owned.trans primaryOwned.symm) llongMax reaches
    ⟨by omega, by omega⟩]

/-- The flags are in order behind the update. -/
theorem Tagging.agrees (tagging : Tagging request before was clip) (fits : request.Fits)
    (agrees : Agrees request.owner was before) (applied : Applied request before clip.ranges)
    (carving : Carving request before clip)
    (forward : request.stop = llongMax → ∀ old ∈ before, request.Tail old → old.lfFlags.noend = true →
      ∀ brange, clip.brange = some brange → brange.lfFlags.noend = true) :
    Agrees request.owner (request.endless before was) clip.ranges := by
  intro range member owned
  have tagged := tagging.ranges range member owned
  refine ⟨tagged.upper, ?_⟩
  by_cases early : request.stop < llongMax
  · rw [Request.endless, if_pos early]
    constructor
    · intro flagged
      exact ⟨tagged.last flagged, (tagged.kept early (tagged.last flagged)).symm.trans flagged⟩
    · rintro ⟨last, is⟩
      exact (tagged.kept early last).trans is
  have ends : request.stop = llongMax := by
    have := fits.stop
    omega
  by_cases last : range.lfEnd = llongMax
  · have is := eq_brange_of_last applied carving tagging ends member owned last
    have lock' : request.type ≠ .unlck := by
      intro unlock
      rw [carving.absent.mpr unlock] at is
      cases is
    rw [Request.endless, if_neg early, if_neg lock', Bool.or_eq_true, Bool.and_eq_true, List.any_eq_true]
    constructor
    · intro flagged
      refine ⟨last, ?_⟩
      rcases tagging.origin range is ends flagged with asks | ⟨old, oldMem, tail, oldFlagged⟩
      · exact .inl asks
      · exact .inr ⟨((agrees old oldMem tail.owned).2.mp oldFlagged).2, old, oldMem, decide_eq_true tail⟩
    · rintro ⟨-, asks | ⟨is', old, oldMem, tail⟩⟩
      · exact tagging.asked range is asks
      · have tail := of_decide_eq_true tail
        exact forward ends old oldMem tail ((agrees old oldMem tail.owned).2.mpr ⟨tail.last, is'⟩) range is
  · constructor
    · intro flagged
      exact absurd (tagged.last flagged) last
    · rintro ⟨reached, -⟩
      exact absurd reached last

/-- What an update that comes back with a new list has done to the flags. -/
theorem update_tagging (fits : request.Fits) (spares : request.Spares lock.lfRange) (sound : Sound lock.lfRange)
    (unused : Unused lock) (free : (scan request lock).conflict = none)
    (agrees : Agrees request.owner was lock.lfRange) {refused : Bool} {after : Lockf Owner}
    (returned : update request lock (scan request lock) refused = .done (.ok after)) :
    ∃ clip, after.lfRange = clip.ranges ∧ Carving request lock.lfRange clip ∧
      Tagging request lock.lfRange was clip ∧
      (request.stop = llongMax → ∀ old ∈ lock.lfRange, request.Tail old → old.lfFlags.noend = true →
        ∀ brange, clip.brange = some brange → brange.lfFlags.noend = true) := by
  by_cases none : ∀ range ∈ lock.lfRange, ¬request.Mine range
  · -- the range of the request is new, or an unlock changes nothing
    refine ⟨insertRequest request lock (scan request lock).insertPoint 0, ?_, insertRequest_carving sound unused free 0,
      insertRequest_tagging fits sound agrees _ 0, ?_⟩
    · rw [update_new sound free none] at returned
      unfold insertRequest
      split at returned
      · rename_i unlock
        obtain rfl := Except.ok.inj (Outcome.done.inj returned)
        rw [if_pos unlock]
      · rename_i lock'
        split at returned
        · cases returned
        · obtain rfl := Except.ok.inj (Outcome.done.inj returned)
          rw [if_neg lock']
    · intro ends old member tail
      have proper := (sound.proper old member).1
      have requestLe := request.le
      have reached := tail.last
      exact absurd ⟨tail.owned, by omega, by omega⟩ (none old member)
  · push Not at none
    obtain ⟨range, member, mine⟩ := none
    obtain ⟨firstMatch, lastMatch, first, last⟩ := scan_match_of_mine sound free member mine
    obtain ⟨clip, done, result⟩ := sweptTo sound unused free first last
    refine ⟨clip, ?_, result.swept.carving, swept_tagging fits spares sound unused free agrees first last done,
      fun ends old oldMem tail flagged => swept_tail sound unused free first last done ends oldMem tail flagged⟩
    rw [update_match first last, done] at returned
    split at returned
    · cases returned
    · simp only [Outcome.bind, Outcome.kkassert_eq_done_iff, Outcome.done.injEq, Except.ok.injEq] at returned
      rw [← returned.2]

/-- A granted request leaves the flags of all owners in order. -/
theorem update_agrees {endless : Owner → Bool} (fits : request.Fits) (spares : request.Spares lock.lfRange)
    (sound : Sound lock.lfRange) (unused : Unused lock) (free : (scan request lock).conflict = none)
    (agrees : ∀ owner, Agrees owner (endless owner) lock.lfRange) {refused : Bool} {after : Lockf Owner}
    (returned : update request lock (scan request lock) refused = .done (.ok after)) (owner : Owner) :
    Agrees owner (Function.update endless request.owner
      (request.endless lock.lfRange (endless request.owner)) owner) after.lfRange := by
  have applied := (update_granted sound unused free returned).applied
  obtain ⟨clip, same, carving, tagging, forward⟩ :=
    update_tagging fits spares sound unused free (agrees request.owner) returned
  rw [same] at applied ⊢
  by_cases own : owner = request.owner
  · subst own
    rw [Function.update_self]
    exact tagging.agrees fits (agrees request.owner) applied carving forward
  · rw [Function.update_of_ne own]
    intro range member owned
    exact agrees owner range ((carving.others range (owned ▸ own)).mp member) owned

end Start

end Dragonfly.Kern.ByteRange
