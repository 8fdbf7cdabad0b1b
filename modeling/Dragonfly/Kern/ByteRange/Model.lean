import Dragonfly.Lib.Keyed
import Dragonfly.Lib.Outcome
import Mathlib.Data.List.Sort

/-!
# Byte-range locks

`lf_setlock` between two points at which it can block: the scan for a conflicting
range, and the update of the owner's ranges when there is none.  Ranges are values
that carry the address of their structure.  Offsets are integers without a bound;
`end + 1` and `start - 1` leave the range of `off_t` only where the comparison they
are used in fails either way.
-/

namespace Dragonfly.Kern.ByteRange

open Dragonfly.Lib

/-- `F_RDLCK`, `F_WRLCK` and `F_UNLCK` -/
inductive LockType where
  | rdlck
  | wrlck
  | unlck
  deriving DecidableEq, Repr

/-- `F_POSIX`, `F_WAIT` and `F_NOEND` -/
structure Flags where
  posix : Bool
  wait : Bool
  noend : Bool
  deriving DecidableEq, Repr

/-- The errors `lf_setlock` returns; `eintr` stands for any error of `tsleep`. -/
inductive Errno where
  | eagain
  | edeadlk
  | enolck
  | eintr
  deriving DecidableEq, Repr

/-- `struct lockf_range` -/
structure LockfRange (Owner : Type) where
  addr : Nat
  lfType : LockType
  lfFlags : Flags
  lfStart : Int
  lfEnd : Int
  lfOwner : Owner
  deriving DecidableEq, Repr

/-- The arguments of `lf_setlock`, with what `lf_advlock` has checked. -/
structure Request (Owner : Type) where
  owner : Owner
  type : LockType
  flags : Flags
  start : Int
  stop : Int
  nonneg : 0 ≤ start
  le : start ≤ stop

/-- A request can start at the first byte. -/
theorem start_nonneg : (0 : Int) ≤ 0 := le_refl 0

/-- A request can be for the first ten bytes. -/
theorem ten_bytes : (0 : Int) ≤ 9 := Int.natCast_nonneg 9

/-- `struct lockf`, with the next address the allocator hands out. -/
structure Lockf (Owner : Type) where
  lfRange : List (LockfRange Owner)
  lfBlocked : List (LockfRange Owner)
  fresh : Nat

variable {Owner : Type} [DecidableEq Owner]

/-- `lf_match` -/
def lfMatch (range : LockfRange Owner) (type : LockType) (flags : Flags) : Bool :=
  range.lfType == type && range.lfFlags.posix == flags.posix

/-- `lf_overlap` -/
def lfOverlap (range : LockfRange Owner) (start stop : Int) : Bool :=
  (start ≤ range.lfStart && range.lfStart ≤ stop) ||
    (range.lfStart ≤ start && start ≤ range.lfEnd)

/-- `lf_create_range` for a request -/
def Request.createRange (request : Request Owner) (addr : Nat) (flags : Flags) :
    LockfRange Owner where
  addr := addr
  lfType := request.type
  lfFlags := flags
  lfStart := request.start
  lfEnd := request.stop
  lfOwner := request.owner

/-- What the search through `lf_range` leaves in the local variables. -/
structure Scan (Owner : Type) where
  insertPoint : Option (LockfRange Owner) := none
  firstMatch : Option (LockfRange Owner) := none
  lastMatch : Option (LockfRange Owner) := none
  conflict : Option (LockfRange Owner) := none

/-- Whether a range of another owner that overlaps the request conflicts with it. -/
def conflictsWith (request : Request Owner) (range : LockfRange Owner) : Bool :=
  request.type ≠ .unlck && (request.type == .wrlck || range.lfType == .wrlck)

/-- Locate the insertion point, the first range with an `lf_start >= start`. -/
def Scan.notePoint (scan : Scan Owner) (request : Request Owner) (range : LockfRange Owner) :
    Scan Owner :=
  if scan.insertPoint.isNone && request.start ≤ range.lfStart then
    { scan with insertPoint := some range }
  else scan

/-- The search for the insertion point, for the owner's overlapping ranges and for a
conflicting range. -/
def scanLoop (request : Request Owner) : List (LockfRange Owner) → Scan Owner → Scan Owner
  | [], scan => scan
  | range :: rest, scan =>
      let scan := scan.notePoint request range
      if range.lfEnd < request.start then
        scanLoop request rest scan
      else if request.stop < range.lfStart then
        scan
      else if range.lfOwner = request.owner then
        scanLoop request rest
          { scan with
            firstMatch := scan.firstMatch.or (some range)
            lastMatch := some range }
      else if conflictsWith request range then
        { scan with conflict := some range }
      else
        scanLoop request rest scan

/-- The search over the whole list. -/
def scan (request : Request Owner) (lock : Lockf Owner) : Scan Owner :=
  scanLoop request lock.lfRange {}

/-- `lf_insert` -/
def lfInsert (list : List (LockfRange Owner)) (elm : LockfRange Owner)
    (insertPoint : Option Nat) : List (LockfRange Owner) :=
  match insertPoint with
  | none => list ++ [elm]
  | some point =>
      Keyed.upTo LockfRange.addr point list ++
        (Keyed.onward LockfRange.addr point list).orderedInsert
          (fun x y => x.lfStart ≤ y.lfStart) elm

/-- The local state of the update: the list, the range that stands for the request,
the ranges to destroy, the `count` of POSIX locks and `wakeup_needed`. -/
structure Clip (Owner : Type) where
  ranges : List (LockfRange Owner)
  brange : Option (LockfRange Owner)
  deadlist : List (LockfRange Owner)
  count : Int
  wakeupNeeded : Bool

/-- `keep` with the end of `gone`. -/
def extend (keep gone : LockfRange Owner) : LockfRange Owner :=
  { keep with
    lfEnd := gone.lfEnd
    lfFlags := { keep.lfFlags with noend := keep.lfFlags.noend || gone.lfFlags.noend } }

/-- Extend `keep` to the end of `gone` and scrap `gone`; `brange` is what is kept. -/
def Clip.absorb (clip : Clip Owner) (keep gone : LockfRange Owner) : Clip Owner where
  ranges :=
    Keyed.remove LockfRange.addr gone.addr
      (Keyed.replace LockfRange.addr (extend keep gone) clip.ranges)
  brange := some (extend keep gone)
  deadlist := clip.deadlist ++ [gone]
  count := if gone.lfFlags.posix then clip.count - 1 else clip.count
  wakeupNeeded := clip.wakeupNeeded

/-- Take a range off the list. -/
def Clip.destroy (clip : Clip Owner) (range : LockfRange Owner) : Clip Owner :=
  { clip with
    ranges := Keyed.remove LockfRange.addr range.addr clip.ranges
    deadlist := clip.deadlist ++ [range]
    count := if range.lfFlags.posix then clip.count - 1 else clip.count }

/-- Whether the range has gone to the deadlist. -/
def Clip.isDead (clip : Clip Owner) (range : LockfRange Owner) : Bool :=
  clip.deadlist.any fun dead => dead.addr = range.addr

/-- `wakeup_needed` after a range of the owner has been looked at. -/
def wakes (request : Request Owner) (range : LockfRange Owner) : Bool :=
  request.type == .unlck || (request.type == .rdlck && range.lfType == .wrlck)

/-- Clip left: merge `range` with `brange`, or cut it off in front of the request. -/
def Clip.clipLeft (clip : Clip Owner) (request : Request Owner) (range : LockfRange Owner) :
    Clip Owner :=
  match clip.brange with
  | some brange =>
      if request.start - 1 ≤ range.lfEnd && lfMatch range request.type request.flags then
        clip.absorb range brange
      else cut
  | none => cut
where
  cut : Clip Owner :=
    if request.start ≤ range.lfEnd then
      { clip with
        ranges := Keyed.replace LockfRange.addr
          { range with
            lfEnd := request.start - 1
            lfFlags := { range.lfFlags with
              noend := range.lfFlags.noend && request.type == .unlck } } clip.ranges }
    else clip

/-- Clip right: merge `range` with `brange`, or cut it off behind the request, which
moves it down the list from `next`. -/
def Clip.clipRight (clip : Clip Owner) (request : Request Owner) (range : LockfRange Owner)
    (next : Option Nat) : Clip Owner :=
  match clip.brange with
  | some brange =>
      if range.lfStart ≤ request.stop + 1 && lfMatch range request.type request.flags then
        clip.absorb brange range
      else cut
  | none => cut
where
  cut : Clip Owner :=
    if range.lfStart ≤ request.stop then
      { clip with
        ranges := lfInsert (Keyed.remove LockfRange.addr range.addr clip.ranges)
          { range with lfStart := request.stop + 1 } next }
    else clip

/-- The loop that clips or destroys the owner's ranges from `first_match` to
`last_match`.  The list is what `TAILQ_NEXT` leads through; a range on the deadlist is
no longer reached. -/
def clipLoop (request : Request Owner) (firstMatch lastMatch : Nat) :
    List (LockfRange Owner) → Clip Owner → Outcome (Clip Owner)
  | [], clip => .done clip
  | range :: rest, clip =>
      if clip.isDead range then
        clipLoop request firstMatch lastMatch rest clip
      else if range.lfOwner ≠ request.owner ∨ clip.brange.map LockfRange.addr = some range.addr then
        clipLoop request firstMatch lastMatch rest clip
      else
        let clip := { clip with wakeupNeeded := clip.wakeupNeeded || wakes request range }
        if range.lfStart < request.start then
          .kkassert (range.addr = firstMatch) <|
            if range.addr = lastMatch then .done (clip.clipLeft request range)
            else clipLoop request firstMatch lastMatch rest (clip.clipLeft request range)
        else if request.stop < range.lfEnd then
          .kkassert (range.addr = lastMatch) <|
            .done (clip.clipRight request range
              ((rest.find? fun other => !clip.isDead other).map LockfRange.addr))
        else if range.addr = lastMatch then
          .done (clip.destroy range)
        else
          clipLoop request firstMatch lastMatch rest (clip.destroy range)

/-- Merge `brange` with the range in front of it. -/
def Clip.mergePrev (clip : Clip Owner) (request : Request Owner) : Clip Owner :=
  match clip.brange with
  | none => clip
  | some brange =>
      match Keyed.prevOf LockfRange.addr brange.addr clip.ranges with
      | none => clip
      | some range =>
          if range.lfOwner = request.owner && range.lfEnd = brange.lfStart - 1 &&
              lfMatch range request.type request.flags then
            clip.absorb range brange
          else clip

/-- Merge `brange` with the range behind it. -/
def Clip.mergeNext (clip : Clip Owner) (request : Request Owner) : Clip Owner :=
  match clip.brange with
  | none => clip
  | some brange =>
      match Keyed.nextOf LockfRange.addr brange.addr clip.ranges with
      | none => clip
      | some range =>
          if range.lfOwner = request.owner && range.lfStart = brange.lfEnd + 1 &&
              lfMatch range request.type request.flags then
            clip.absorb brange range
          else clip

/-- `double_clip` -/
def doubleClip (request : Request Owner) (firstMatch lastMatch : LockfRange Owner) : Bool :=
  firstMatch.lfStart < request.start && firstMatch.addr = lastMatch.addr &&
    request.stop < lastMatch.lfEnd

/-- `unlock_override` -/
def unlockOverride (request : Request Owner) (firstMatch lastMatch : LockfRange Owner) : Bool :=
  !(firstMatch.lfStart < request.start) && request.type == .unlck &&
    lastMatch.lfEnd ≤ request.stop

/-- The POSIX locks reserved before anything is modified, negative. -/
def reserve (request : Request Owner) (firstMatch lastMatch : LockfRange Owner) : Int :=
  if request.flags.posix && !unlockOverride request firstMatch lastMatch &&
      !lfMatch firstMatch request.type request.flags &&
      !lfMatch lastMatch request.type request.flags then
    if doubleClip request firstMatch lastMatch && request.type ≠ .unlck then -2 else -1
  else 0

/-- Create and insert the range of the request; an unlock has none. -/
def insertRequest (request : Request Owner) (lock : Lockf Owner)
    (insertPoint : Option (LockfRange Owner)) (count : Int) : Clip Owner :=
  if request.type = .unlck then
    { ranges := lock.lfRange, brange := none, deadlist := [], count := count,
      wakeupNeeded := false }
  else
    { ranges := lfInsert lock.lfRange (request.createRange lock.fresh request.flags)
        (insertPoint.map LockfRange.addr)
      brange := some (request.createRange lock.fresh request.flags)
      deadlist := []
      count := if request.flags.posix then count + 1 else count
      wakeupNeeded := false }

/-- The right side of a range that the request breaks up in the middle. -/
def rightSide (request : Request Owner) (range : LockfRange Owner) (addr : Nat) :
    LockfRange Owner :=
  { range with addr := addr, lfStart := request.stop + 1 }

/-- The left side of a range that the request breaks up in the middle. -/
def leftSide (request : Request Owner) (range : LockfRange Owner) : LockfRange Owner :=
  { range with
    lfEnd := request.start - 1
    lfFlags := { range.lfFlags with noend := false } }

/-- The double clip: the range is cut off in front of the request and a second range
is inserted behind it. -/
def Clip.breakUp (clip : Clip Owner) (request : Request Owner) (range : LockfRange Owner)
    (addr : Nat) : Clip Owner :=
  { clip with
    ranges := lfInsert
      (Keyed.replace LockfRange.addr (leftSide request range) clip.ranges)
      (rightSide request range addr) (some range.addr)
    count := if range.lfFlags.posix then clip.count + 1 else clip.count }

/-- `lf_wakeup`: the overlapping requests leave `lf_blocked`. -/
def lfWakeup (blocked : List (LockfRange Owner)) (start stop : Int) : List (LockfRange Owner) :=
  blocked.filter fun range => !lfOverlap range start stop

/-- The update of the owner's ranges; `refused` is the answer of `lf_count_change` to
a positive change, whose counters are shared with all other files. -/
def update (request : Request Owner) (lock : Lockf Owner) (found : Scan Owner) (refused : Bool) :
    Outcome (Except Errno (Lockf Owner)) :=
  match found.firstMatch, found.lastMatch with
  | some firstMatch, some lastMatch =>
      let count := reserve request firstMatch lastMatch
      if count ≠ 0 ∧ refused then
        .done (.error .enolck)
      else
        let clip := insertRequest request lock found.insertPoint count
        let double := doubleClip request firstMatch lastMatch
        let clip := if double then clip.breakUp request firstMatch (lock.fresh + 1) else clip
        let last := if double then lock.fresh + 1 else lastMatch.addr
        (clipLoop request firstMatch.addr last
          (Keyed.onward LockfRange.addr firstMatch.addr clip.ranges) clip).bind fun clip =>
            let clip := (clip.mergePrev request).mergeNext request
            .kkassert (clip.count ≤ 0) <|
              .done <| .ok
                { lfRange := clip.ranges
                  lfBlocked :=
                    if clip.wakeupNeeded then lfWakeup lock.lfBlocked request.start request.stop
                    else lock.lfBlocked
                  fresh := lock.fresh + 2 }
  | _, _ =>
      if request.type = .unlck then
        .done (.ok lock)
      else if request.flags.posix && refused then
        .done (.error .enolck)
      else
        .done <| .ok
          { lock with
            lfRange := lfInsert lock.lfRange (request.createRange lock.fresh request.flags)
              (found.insertPoint.map LockfRange.addr)
            fresh := lock.fresh + 2 }

end Dragonfly.Kern.ByteRange
