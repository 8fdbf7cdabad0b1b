import Dragonfly.Kern.ByteRange.Table
import Mathlib.Tactic.Common

/-!
# Clipping the owner's ranges

Every step of the update leaves the other owners' ranges as they are and changes the
owner's locks only at the bytes of the request.  The loop goes on until no range of
the owner but `brange` meets the request.
-/

namespace Dragonfly.Kern.ByteRange

open Dragonfly.Lib

variable {Owner : Type}

/-- A range of the owner on the list that does not stand for the request. -/
structure Clip.Old (clip : Clip Owner) (owner : Owner) (range : LockfRange Owner) : Prop where
  mem : range ∈ clip.ranges
  owned : range.lfOwner = owner
  ne : clip.brange.map LockfRange.addr ≠ some range.addr

/-- What holds of the list in the course of the update; `before` is the list it
started from. -/
structure Carving (request : Request Owner) (before : List (LockfRange Owner))
    (clip : Clip Owner) : Prop where
  sorted : clip.ranges.Pairwise fun x y => x.lfStart ≤ y.lfStart
  distinct : clip.ranges.Pairwise fun x y => x.addr ≠ y.addr
  proper : ∀ range ∈ clip.ranges, range.lfStart ≤ range.lfEnd ∧ range.lfType ≠ .unlck
  others : ∀ range, range.lfOwner ≠ request.owner → (range ∈ clip.ranges ↔ range ∈ before)
  outside : ∀ byte, ¬request.Has byte → ∀ type,
    Covers clip.ranges request.owner byte type ↔ Covers before request.owner byte type
  once : ∀ x y, clip.Old request.owner x → clip.Old request.owner y → ∀ byte,
    x.Has byte → y.Has byte → x = y
  primary : ∀ brange, clip.brange = some brange → brange ∈ clip.ranges ∧
    brange.lfOwner = request.owner ∧ brange.lfType = request.type ∧
    brange.lfStart ≤ request.start ∧ request.stop ≤ brange.lfEnd
  inside : ∀ brange, clip.brange = some brange → ∀ x, clip.Old request.owner x → ∀ byte,
    x.Has byte → brange.Has byte → request.Has byte
  absent : clip.brange = none ↔ request.type = .unlck

@[simp]
theorem extend_addr (keep gone : LockfRange Owner) : (extend keep gone).addr = keep.addr := rfl

/-- The range takes over from `gone` at its end. -/
structure Joins (keep gone : LockfRange Owner) : Prop where
  owner : keep.lfOwner = gone.lfOwner
  type : keep.lfType = gone.lfType
  addr : keep.addr ≠ gone.addr
  start : keep.lfStart ≤ gone.lfStart
  reach : gone.lfStart ≤ keep.lfEnd + 1
  stop : keep.lfEnd ≤ gone.lfEnd

theorem Joins.extend_has {keep gone : LockfRange Owner} (joins : Joins keep gone) (byte : Int) :
    (extend keep gone).Has byte ↔ keep.Has byte ∨ gone.Has byte := by
  have := joins.start
  have := joins.reach
  have := joins.stop
  simp only [extend, LockfRange.Has]
  omega

namespace Clip

variable {clip : Clip Owner} {keep gone range : LockfRange Owner}

theorem mem_absorb (keepMem : keep ∈ clip.ranges) (different : keep.addr ≠ gone.addr) :
    range ∈ (clip.absorb keep gone).ranges ↔ range = extend keep gone ∨
      range ∈ clip.ranges ∧ range.addr ≠ keep.addr ∧ range.addr ≠ gone.addr := by
  have present : ∃ old ∈ clip.ranges, old.addr = (extend keep gone).addr := ⟨keep, keepMem, rfl⟩
  rw [absorb, Keyed.mem_remove, Keyed.mem_replace present]
  constructor
  · rintro ⟨rfl | ⟨member, notKeep⟩, notGone⟩
    · exact .inl rfl
    · exact .inr ⟨member, notKeep, notGone⟩
  · rintro (rfl | ⟨member, notKeep, notGone⟩)
    · exact ⟨.inl rfl, different⟩
    · exact ⟨.inr ⟨member, notKeep⟩, notGone⟩

theorem absorb_sorted (keepMem : keep ∈ clip.ranges)
    (distinct : clip.ranges.Pairwise fun x y => x.addr ≠ y.addr)
    (sorted : clip.ranges.Pairwise fun x y => x.lfStart ≤ y.lfStart) :
    (clip.absorb keep gone).ranges.Pairwise fun x y => x.lfStart ≤ y.lfStart := by
  have same : ∀ old ∈ clip.ranges, old.addr = (extend keep gone).addr → old = keep :=
    fun old member equal => Keyed.eq_of_mem_of_key distinct member keepMem equal
  refine Keyed.pairwise_remove (Keyed.pairwise_replace sorted ?_ ?_ ?_)
  · intro old member equal x _ le
    rw [same old member equal] at le
    exact le
  · intro old member equal x _ le
    rw [same old member equal] at le
    exact le
  · intro x _ y _ _ _ _
    exact le_rfl

theorem replace_distinct {ranges : List (LockfRange Owner)} {item : LockfRange Owner}
    (distinct : ranges.Pairwise fun x y => x.addr ≠ y.addr) :
    (Keyed.replace LockfRange.addr item ranges).Pairwise fun x y => x.addr ≠ y.addr := by
  refine Keyed.pairwise_replace distinct ?_ ?_ ?_
  · intro old _ equal x _ different
    rwa [← equal]
  · intro old _ equal x _ different
    rwa [← equal]
  · intro x _ y _ xEqual yEqual different
    exact absurd (xEqual.trans yEqual.symm) different

/-- Merging two ranges of one owner and type changes no lock. -/
theorem covers_absorb (keepMem : keep ∈ clip.ranges) (goneMem : gone ∈ clip.ranges)
    (distinct : clip.ranges.Pairwise fun x y => x.addr ≠ y.addr) (joins : Joins keep gone)
    {owner : Owner} {byte : Int} {type : LockType} :
    Covers (clip.absorb keep gone).ranges owner byte type ↔ Covers clip.ranges owner byte type := by
  constructor
  · rintro ⟨range, member, owned, has, rfl⟩
    rcases (mem_absorb keepMem joins.addr).mp member with rfl | ⟨member, -, -⟩
    · rcases (joins.extend_has byte).mp has with has | has
      · exact ⟨keep, keepMem, owned, has, rfl⟩
      · exact ⟨gone, goneMem, joins.owner ▸ owned, has, joins.type.symm⟩
    · exact ⟨range, member, owned, has, rfl⟩
  · rintro ⟨range, member, owned, has, rfl⟩
    by_cases isKeep : range.addr = keep.addr
    · obtain rfl := Keyed.eq_of_mem_of_key distinct member keepMem isKeep
      exact ⟨extend range gone, (mem_absorb keepMem joins.addr).mpr (.inl rfl), owned,
        (joins.extend_has byte).mpr (.inl has), rfl⟩
    · by_cases isGone : range.addr = gone.addr
      · obtain rfl := Keyed.eq_of_mem_of_key distinct member goneMem isGone
        exact ⟨extend keep range, (mem_absorb keepMem joins.addr).mpr (.inl rfl),
          joins.owner.trans owned, (joins.extend_has byte).mpr (.inr has), joins.type⟩
      · exact ⟨range, (mem_absorb keepMem joins.addr).mpr (.inr ⟨member, isKeep, isGone⟩), owned,
          has, rfl⟩

/-- After `brange` has been merged with another range, the old ranges are those that
were neither of the two. -/
theorem old_of_absorb {owner : Owner} (keepMem : keep ∈ clip.ranges)
    (different : keep.addr ≠ gone.addr)
    (part : clip.brange = some keep ∨ clip.brange = some gone)
    (old : (clip.absorb keep gone).Old owner range) :
    clip.Old owner range ∧ range.addr ≠ keep.addr ∧ range.addr ≠ gone.addr := by
  have notKeep : range.addr ≠ keep.addr :=
    fun same => old.ne (by simp [Clip.absorb, extend, same])
  rcases (mem_absorb keepMem different).mp old.mem with rfl | ⟨member, -, notGone⟩
  · exact absurd rfl notKeep
  · refine ⟨⟨member, old.owned, ?_⟩, notKeep, notGone⟩
    rcases part with part | part
    · simpa [part] using notKeep.symm
    · simpa [part] using notGone.symm

end Clip

namespace Carving

variable {request : Request Owner} {before : List (LockfRange Owner)} {clip : Clip Owner}

/-- Merging `brange` with another range of the owner, in either direction. -/
theorem absorb (carving : Carving request before clip) {keep gone : LockfRange Owner}
    (keepMem : keep ∈ clip.ranges) (goneMem : gone ∈ clip.ranges)
    (owned : keep.lfOwner = request.owner) (joins : Joins keep gone)
    (part : clip.brange = some keep ∨ clip.brange = some gone) :
    Carving request before (clip.absorb keep gone) := by
  have mem {range : LockfRange Owner} : range ∈ (clip.absorb keep gone).ranges ↔ _ :=
    Clip.mem_absorb keepMem joins.addr
  have old (x : LockfRange Owner) (oldX : (clip.absorb keep gone).Old request.owner x) :=
    Clip.old_of_absorb keepMem joins.addr part oldX
  have goneOwned : gone.lfOwner = request.owner := joins.owner ▸ owned
  constructor
  case sorted => exact clip.absorb_sorted keepMem carving.distinct carving.sorted
  case distinct => exact Keyed.pairwise_remove (Clip.replace_distinct carving.distinct)
  case proper =>
    intro range member
    rcases mem.mp member with rfl | ⟨member, -, -⟩
    · have keepProper := carving.proper keep keepMem
      exact ⟨keepProper.1.trans joins.stop, keepProper.2⟩
    · exact carving.proper range member
  case others =>
    intro range foreign
    rw [← carving.others range foreign, mem]
    constructor
    · rintro (rfl | ⟨member, -, -⟩)
      · exact absurd owned foreign
      · exact member
    · intro member
      refine .inr ⟨member, ?_, ?_⟩
      · intro same
        rw [Keyed.eq_of_mem_of_key carving.distinct member keepMem same] at foreign
        exact foreign owned
      · intro same
        rw [Keyed.eq_of_mem_of_key carving.distinct member goneMem same] at foreign
        exact foreign goneOwned
  case outside =>
    intro byte out type
    rw [clip.covers_absorb keepMem goneMem carving.distinct joins, carving.outside byte out type]
  case once =>
    intro x y oldX oldY
    exact carving.once x y (old x oldX).1 (old y oldY).1
  case primary =>
    rintro brange ⟨⟩
    refine ⟨mem.mpr (.inl rfl), owned, ?_⟩
    have start := joins.start
    have stop := joins.stop
    rcases part with part | part
    · obtain ⟨-, -, type, left, right⟩ := carving.primary keep part
      exact ⟨type, left, right.trans stop⟩
    · obtain ⟨-, -, type, left, right⟩ := carving.primary gone part
      exact ⟨joins.type.trans type, start.trans left, right⟩
  case inside =>
    rintro brange ⟨⟩ x oldX byte has hasKept
    obtain ⟨oldX, notKeep, notGone⟩ := old x oldX
    -- the part of the merged range that was not `brange` is disjoint from `x`
    rcases (joins.extend_has byte).mp hasKept with hasKeep | hasGone <;> rcases part with part | part
    · exact carving.inside keep part x oldX byte has hasKeep
    · have oldKeep : clip.Old request.owner keep := ⟨keepMem, owned, by simpa [part] using joins.addr.symm⟩
      exact absurd (carving.once x keep oldX oldKeep byte has hasKeep ▸ rfl) notKeep
    · have oldGone : clip.Old request.owner gone := ⟨goneMem, goneOwned, by simpa [part] using joins.addr⟩
      exact absurd (carving.once x gone oldX oldGone byte has hasGone ▸ rfl) notGone
    · exact carving.inside gone part x oldX byte has hasGone
  case absent =>
    have present : request.type ≠ .unlck := by
      intro unlock
      rw [carving.absent.mpr unlock] at part
      simp at part
    simp [Clip.absorb, present]

/-- Replacing an old range by parts of it that lose bytes of the request only. -/
theorem trim (carving : Carving request before clip) {whole : LockfRange Owner}
    (old : clip.Old request.owner whole) (parts : List (LockfRange Owner)) {after : Clip Owner}
    (brange : after.brange = clip.brange)
    (mem : ∀ range, range ∈ after.ranges ↔
      range ∈ parts ∨ range ∈ clip.ranges ∧ range.addr ≠ whole.addr)
    (sorted : after.ranges.Pairwise fun x y => x.lfStart ≤ y.lfStart)
    (distinct : after.ranges.Pairwise fun x y => x.addr ≠ y.addr)
    (part : ∀ range ∈ parts, range.lfOwner = whole.lfOwner ∧ range.lfType = whole.lfType ∧
      range.lfStart ≤ range.lfEnd ∧ ∀ byte, range.Has byte → whole.Has byte)
    (apart : ∀ x ∈ parts, ∀ y ∈ parts, ∀ byte, x.Has byte → y.Has byte → x = y)
    (rest : ∀ byte, whole.Has byte → ¬request.Has byte → ∃ range ∈ parts, range.Has byte) :
    Carving request before after := by
  have cases : ∀ x, after.Old request.owner x →
      x ∈ parts ∨ clip.Old request.owner x ∧ x.addr ≠ whole.addr := by
    intro x oldX
    rcases (mem x).mp oldX.mem with isPart | ⟨member, different⟩
    · exact .inl isPart
    · exact .inr ⟨⟨member, oldX.owned, brange ▸ oldX.ne⟩, different⟩
  have foreign : ∀ x y, x ∈ parts → clip.Old request.owner y ∧ y.addr ≠ whole.addr → ∀ byte,
      x.Has byte → ¬y.Has byte := by
    intro x y isPart oldY byte has hasY
    have inWhole := (part x isPart).2.2.2 byte has
    exact oldY.2 (carving.once y whole oldY.1 old byte hasY inWhole ▸ rfl)
  constructor
  case sorted => exact sorted
  case distinct => exact distinct
  case proper =>
    intro range member
    rcases (mem range).mp member with isPart | ⟨member, -⟩
    · obtain ⟨-, type, proper, -⟩ := part range isPart
      exact ⟨proper, type ▸ (carving.proper whole old.mem).2⟩
    · exact carving.proper range member
  case others =>
    intro range other
    rw [← carving.others range other, mem]
    constructor
    · rintro (isPart | ⟨member, -⟩)
      · exact absurd ((part range isPart).1.trans old.owned) other
      · exact member
    · intro member
      refine .inr ⟨member, fun same => other ?_⟩
      rw [Keyed.eq_of_mem_of_key carving.distinct member old.mem same]
      exact old.owned
  case outside =>
    intro byte out type
    rw [← carving.outside byte out type]
    constructor
    · rintro ⟨range, member, owned, has, rfl⟩
      rcases (mem range).mp member with isPart | ⟨member, -⟩
      · obtain ⟨-, type, -, within⟩ := part range isPart
        exact ⟨whole, old.mem, old.owned, within byte has, type.symm⟩
      · exact ⟨range, member, owned, has, rfl⟩
    · rintro ⟨range, member, owned, has, rfl⟩
      by_cases same : range.addr = whole.addr
      · obtain rfl := Keyed.eq_of_mem_of_key carving.distinct member old.mem same
        obtain ⟨left, isPart, hasLeft⟩ := rest byte has out
        obtain ⟨owner, type, -, -⟩ := part left isPart
        exact ⟨left, (mem left).mpr (.inl isPart), owner.trans owned, hasLeft, type⟩
      · exact ⟨range, (mem range).mpr (.inr ⟨member, same⟩), owned, has, rfl⟩
  case once =>
    intro x y oldX oldY byte hasX hasY
    rcases cases x oldX with partX | oldX <;> rcases cases y oldY with partY | oldY
    · exact apart x partX y partY byte hasX hasY
    · exact absurd hasY (foreign x y partX oldY byte hasX)
    · exact absurd hasX (foreign y x partY oldX byte hasY)
    · exact carving.once x y oldX.1 oldY.1 byte hasX hasY
  case primary =>
    intro primary is
    rw [brange] at is
    obtain ⟨member, facts⟩ := carving.primary primary is
    refine ⟨(mem primary).mpr (.inr ⟨member, ?_⟩), facts⟩
    have ne := old.ne
    rw [is] at ne
    simpa using ne
  case inside =>
    intro primary is x oldX byte has hasPrimary
    rw [brange] at is
    rcases cases x oldX with isPart | oldX
    · exact carving.inside primary is whole old byte ((part x isPart).2.2.2 byte has) hasPrimary
    · exact carving.inside primary is x oldX.1 byte has hasPrimary
  case absent => rw [brange, carving.absent]

/-- `wakeup_needed`, the deadlist and `count` are of no account to the list. -/
theorem congr (carving : Carving request before clip) {after : Clip Owner}
    (ranges : after.ranges = clip.ranges) (brange : after.brange = clip.brange) :
    Carving request before after := by
  have same : ∀ x, after.Old request.owner x ↔ clip.Old request.owner x := by
    intro x
    constructor
    · rintro ⟨mem, owned, ne⟩
      exact ⟨ranges ▸ mem, owned, brange ▸ ne⟩
    · rintro ⟨mem, owned, ne⟩
      exact ⟨ranges ▸ mem, owned, brange ▸ ne⟩
  constructor
  case once =>
    intro x y oldX oldY
    exact carving.once x y ((same x).mp oldX) ((same y).mp oldY)
  case inside =>
    intro primary is x oldX
    exact carving.inside primary (brange ▸ is) x ((same x).mp oldX)
  all_goals
    simp only [ranges, brange]
  · exact carving.sorted
  · exact carving.distinct
  · exact carving.proper
  · exact carving.others
  · exact carving.outside
  · exact carving.primary
  · exact carving.absent

/-- A range inside the request goes altogether. -/
theorem destroy (carving : Carving request before clip) {range : LockfRange Owner}
    (old : clip.Old request.owner range) (inside : ∀ byte, range.Has byte → request.Has byte) :
    Carving request before (clip.destroy range) := by
  refine carving.trim old [] rfl ?_ ?_ ?_ ?_ ?_ ?_
  · simp [Clip.destroy]
  · exact Keyed.pairwise_remove carving.sorted
  · exact Keyed.pairwise_remove carving.distinct
  · simp
  · simp
  · intro byte has out
    exact absurd (inside byte has) out

/-- Writing a range without moving its start keeps the list sorted. -/
theorem replace_sorted (carving : Carving request before clip) {range : LockfRange Owner}
    (item : LockfRange Owner) (member : range ∈ clip.ranges) (addr : item.addr = range.addr)
    (start : item.lfStart = range.lfStart) :
    (Keyed.replace LockfRange.addr item clip.ranges).Pairwise fun x y => x.lfStart ≤ y.lfStart := by
  have same : ∀ old ∈ clip.ranges, old.addr = item.addr → old = range :=
    fun old oldMem equal => Keyed.eq_of_mem_of_key carving.distinct oldMem member (equal.trans addr)
  refine Keyed.pairwise_replace carving.sorted ?_ ?_ ?_
  · intro old oldMem equal x _ le
    rwa [same old oldMem equal, ← start] at le
  · intro old oldMem equal x _ le
    rwa [same old oldMem equal, ← start] at le
  · intro x _ y _ _ _ _
    exact le_rfl

end Carving

section BreakUp

variable {request : Request Owner} {before : List (LockfRange Owner)} {clip : Clip Owner}
  {range : LockfRange Owner} {addr : Nat}

theorem mem_breakUp (request : Request Owner) (addr : Nat) (member : range ∈ clip.ranges)
    (x : LockfRange Owner) :
    x ∈ (clip.breakUp request range addr).ranges ↔
      x ∈ [leftSide request range, rightSide request range addr] ∨
        x ∈ clip.ranges ∧ x.addr ≠ range.addr := by
  have present : ∃ item ∈ clip.ranges, item.addr = (leftSide request range).addr :=
    ⟨range, member, rfl⟩
  rw [Clip.breakUp, mem_lfInsert, Keyed.mem_replace present]
  simp only [List.mem_cons, List.not_mem_nil, or_false]
  exact or_left_comm.trans or_assoc.symm

/-- A range with the request in its middle is broken up. -/
theorem Carving.breakUp (carving : Carving request before clip)
    (old : clip.Old request.owner range) (start : range.lfStart < request.start)
    (stop : request.stop < range.lfEnd) (unused : ∀ x ∈ clip.ranges, x.addr < addr) :
    Carving request before (clip.breakUp request range addr) := by
  have requestLe := request.le
  have distinct : (Keyed.replace LockfRange.addr (leftSide request range) clip.ranges).Pairwise
      fun x y => x.addr ≠ y.addr := Clip.replace_distinct carving.distinct
  have sorted := carving.replace_sorted (leftSide request range) old.mem rfl rfl
  have present : ∃ item ∈ clip.ranges, item.addr = (leftSide request range).addr :=
    ⟨range, old.mem, rfl⟩
  refine carving.trim old [leftSide request range, rightSide request range addr] rfl
    (mem_breakUp request addr old.mem) ?_ ?_ ?_ ?_ ?_
  · dsimp only [Clip.breakUp]
    refine lfInsert_sorted sorted ?_
    intro x _ ahead
    have early := ahead range.addr rfl
    obtain ⟨rest, shape⟩ := Keyed.onward_of_mem distinct ((Keyed.mem_replace present).mpr (.inl rfl))
    rw [← Keyed.upTo_append_onward LockfRange.addr range.addr
      (Keyed.replace LockfRange.addr (leftSide request range) clip.ranges),
      show range.addr = (leftSide request range).addr from rfl, shape, List.pairwise_append] at sorted
    have le := sorted.2.2 x early (leftSide request range) List.mem_cons_self
    simp only [leftSide, rightSide] at le ⊢
    omega
  · dsimp only [Clip.breakUp]
    refine lfInsert_distinct distinct ?_
    intro x member
    rcases (Keyed.mem_replace present).mp member with rfl | ⟨member, -⟩
    · exact (unused range old.mem).ne
    · exact (unused x member).ne
  · simp only [List.mem_cons, List.not_mem_nil, or_false, forall_eq_or_imp, forall_eq,
      leftSide, rightSide, LockfRange.Has, true_and]
    exact ⟨⟨by omega, by omega⟩, by omega, by omega⟩
  · simp only [List.mem_cons, List.not_mem_nil, or_false, forall_eq_or_imp, forall_eq,
      leftSide, rightSide, LockfRange.Has]
    refine ⟨⟨fun _ _ _ => trivial, ?_⟩, ?_, fun _ _ _ => trivial⟩
    · intro byte
      omega
    · intro byte
      omega
  · simp only [List.mem_cons, List.not_mem_nil, or_false, exists_eq_or_imp, exists_eq_left,
      leftSide, rightSide, LockfRange.Has, Request.Has]
    intro byte
    omega

end BreakUp

end Dragonfly.Kern.ByteRange
