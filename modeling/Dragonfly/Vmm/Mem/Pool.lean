import Mathlib.Algebra.Order.Ring.Int
import Dragonfly.Vmm.Mem.Model

/-!
# Allocation and release of segments

The available segments are sorted and do not meet, and no address is available and held, or
held twice.
-/

namespace Dragonfly.Vmm.Mem

open Dragonfly.Lib

/-- The segments are in the order of their addresses and share none. -/
def Ordered (segs : List Span) : Prop := segs.Pairwise fun first second => first.hi ≤ second.lo

/-- The segments are in order, and no two of them meet. -/
def Separate (segs : List Span) : Prop := segs.Pairwise fun first second => first.hi < second.lo

/-- A segment that can be recorded: it is not empty and does not start at address zero. -/
def Proper (seg : Span) : Prop := 0 < seg.len ∧ 0 < seg.lo

/-- The memory of the segments together. -/
def size (segs : List Span) : Nat := (segs.map Span.len).sum

variable {segs fewer : List Span} {seg : Span} {address : Nat}

theorem Separate.ordered (separate : Separate segs) : Ordered segs :=
  List.Pairwise.imp (fun less => Nat.le_of_lt less) separate

@[simp]
theorem size_cons (seg : Span) (segs : List Span) : size (seg :: segs) = seg.len + size segs := rfl

@[simp]
theorem size_append (first second : List Span) : size (first ++ second) = size first + size second := by
  rw [size, List.map_append, List.sum_append]
  rfl

/-! ## Segments that meet are made one -/

/-- Two segments in one. -/
theorem mem_join {first second : Span} (meet : first.lo + first.len = second.lo) :
    (first.lo ≤ address ∧ address < first.lo + (first.len + second.len)) ↔
      (first.lo ≤ address ∧ address < first.hi) ∨ (second.lo ≤ address ∧ address < second.hi) := by
  unfold Span.hi
  omega

/-- One pass: it keeps the addresses, the memory and the order. -/
structure Coalesced (segs fewer : List Span) : Prop where
  length : fewer.length + 1 = segs.length
  size : size fewer = size segs
  cover : ∀ address, address ∈ Span.cover fewer ↔ address ∈ Span.cover segs
  lo : ∀ seg ∈ fewer, ∃ before ∈ segs, seg.lo = before.lo ∧ before.len ≤ seg.len
  ordered : Ordered segs → Ordered fewer

theorem coalesce_spec (done : coalesce segs = some fewer) : Coalesced segs fewer := by
  induction segs generalizing fewer with
  | nil => cases done
  | cons first rest ih =>
      cases rest with
      | nil => cases done
      | cons second rest =>
          rw [coalesce] at done
          split at done
          · rename_i meet
            obtain rfl := Option.some.inj done
            constructor
            · rfl
            · simp only [size_cons]
              omega
            · intro address
              simp only [Span.mem_cover, List.mem_cons, or_and_right, exists_or, exists_eq_left]
              rw [← or_assoc, ← mem_join meet]
              rfl
            · intro seg member
              obtain rfl | later := List.mem_cons.mp member
              · exact ⟨first, List.mem_cons_self, rfl, Nat.le_add_right ..⟩
              · exact ⟨seg, List.mem_cons_of_mem _ (List.mem_cons_of_mem _ later), rfl, le_refl _⟩
            · intro ordered
              obtain ⟨-, rest'⟩ := List.pairwise_cons.mp ordered
              obtain ⟨after, others⟩ := List.pairwise_cons.mp rest'
              refine List.pairwise_cons.mpr ⟨fun other member => ?_, others⟩
              have behind := after other member
              unfold Span.hi at behind ⊢
              show first.lo + (first.len + second.len) ≤ other.lo
              omega
          · obtain ⟨later, found, rfl⟩ := Option.map_eq_some_iff.mp done
            have inner := ih found
            constructor
            · have shorter := inner.length
              simp only [List.length_cons] at shorter ⊢
              omega
            · rw [size_cons, inner.size, size_cons first]
            · intro address
              have same := inner.cover address
              rw [Span.mem_cover, Span.mem_cover] at same ⊢
              simp only [List.exists_mem_cons_iff] at same ⊢
              rw [same]
            · intro seg member
              obtain rfl | inside := List.mem_cons.mp member
              · exact ⟨seg, List.mem_cons_self, rfl, le_refl _⟩
              · obtain ⟨before, was, same⟩ := inner.lo seg inside
                exact ⟨before, List.mem_cons_of_mem _ was, same⟩
            · intro ordered
              obtain ⟨after, others⟩ := List.pairwise_cons.mp ordered
              refine List.pairwise_cons.mpr ⟨fun other member => ?_, inner.ordered others⟩
              obtain ⟨before, was, same, -⟩ := inner.lo other member
              rw [same]
              exact after before was

/-- A pass that finds nothing. -/
theorem separate_of_coalesce (ordered : Ordered segs) (nothing : coalesce segs = none) : Separate segs := by
  induction segs with
  | nil => exact List.Pairwise.nil
  | cons first rest ih =>
      obtain ⟨after, others⟩ := List.pairwise_cons.mp ordered
      cases rest with
      | nil => exact List.pairwise_singleton ..
      | cons second rest =>
          rw [coalesce] at nothing
          split at nothing
          · cases nothing
          · rename_i apart
            have later := ih others (Option.map_eq_none_iff.mp nothing)
            refine List.pairwise_cons.mpr ⟨fun other member => ?_, later⟩
            have next : first.hi < second.lo := Nat.lt_of_le_of_ne (after second List.mem_cons_self) apart
            obtain rfl | behind := List.mem_cons.mp member
            · exact next
            · have beyond := (List.pairwise_cons.mp others).1 other behind
              unfold Span.hi at next beyond ⊢
              omega

/-- The whole loop. -/
theorem coalesceSomeMore_spec {fuel : Nat} (enough : segs.length ≤ fuel) (ordered : Ordered segs) :
    Separate (coalesceSomeMore fuel segs) ∧ size (coalesceSomeMore fuel segs) = size segs ∧
      (∀ address, address ∈ Span.cover (coalesceSomeMore fuel segs) ↔ address ∈ Span.cover segs) ∧
      ((∀ seg ∈ segs, Proper seg) → ∀ seg ∈ coalesceSomeMore fuel segs, Proper seg) := by
  induction fuel generalizing segs with
  | zero =>
      obtain rfl : segs = [] := List.length_eq_zero_iff.mp (Nat.le_zero.mp enough)
      exact ⟨List.Pairwise.nil, rfl, fun _ => Iff.rfl, id⟩
  | succ fuel ih =>
      rw [coalesceSomeMore]
      cases found : coalesce segs with
      | none => exact ⟨separate_of_coalesce ordered found, rfl, fun _ => Iff.rfl, id⟩
      | some fewer =>
          have pass := coalesce_spec found
          have shorter := pass.length
          obtain ⟨separate, same, cover, proper⟩ := ih (by omega) (pass.ordered ordered)
          refine ⟨separate, same.trans pass.size, fun address => (cover address).trans (pass.cover address),
            fun before => proper fun seg member => ?_⟩
          obtain ⟨was, member', lo, len⟩ := pass.lo seg member
          have good := before was member'
          unfold Proper at good ⊢
          omega

/-! ## A segment comes back -/

theorem mem_insertSeg {other : Span} : other ∈ insertSeg segs seg ↔ other = seg ∨ other ∈ segs := by
  induction segs with
  | nil => rw [insertSeg, List.mem_singleton, or_iff_left List.not_mem_nil]
  | cons first rest ih =>
      rw [insertSeg]
      split
      · rw [List.mem_cons]
      · rw [List.mem_cons, ih, List.mem_cons, or_left_comm]

theorem length_insertSeg : (insertSeg segs seg).length = segs.length + 1 := by
  induction segs with
  | nil => rfl
  | cons first rest ih =>
      rw [insertSeg]
      split
      · rfl
      · rw [List.length_cons, ih, List.length_cons]

theorem size_insertSeg : size (insertSeg segs seg) = seg.len + size segs := by
  induction segs with
  | nil => rfl
  | cons first rest ih =>
      rw [insertSeg]
      split
      · rfl
      · rw [size_cons, ih, size_cons, Nat.add_left_comm]

theorem ordered_insertSeg (ordered : Ordered segs) (apart : ∀ other ∈ segs, Span.Apart seg other)
    (some : 0 < seg.len) (all : ∀ other ∈ segs, 0 < other.len) : Ordered (insertSeg segs seg) := by
  induction segs with
  | nil => exact List.pairwise_singleton ..
  | cons first rest ih =>
      obtain ⟨after, others⟩ := List.pairwise_cons.mp ordered
      have beside := apart first List.mem_cons_self
      have positive := all first List.mem_cons_self
      rw [insertSeg]
      split
      · rename_i below
        have front : seg.hi ≤ first.lo := by
          unfold Span.Apart Span.hi at beside
          unfold Span.hi
          omega
        refine List.pairwise_cons.mpr ⟨fun other member => ?_, ordered⟩
        obtain rfl | behind := List.mem_cons.mp member
        · exact front
        · have beyond := after other behind
          unfold Span.hi at front beyond ⊢
          omega
      · rename_i notBelow
        refine List.pairwise_cons.mpr ⟨fun other member => ?_, ih others
          (fun other member => apart other (List.mem_cons_of_mem _ member))
          (fun other member => all other (List.mem_cons_of_mem _ member))⟩
        obtain rfl | inside := (mem_insertSeg).mp member
        · unfold Span.Apart Span.hi at beside
          unfold Span.hi
          omega
        · exact after other inside

/-! ## A segment is cut off -/

/-- An allocation finds the first segment that is large enough, or none is. -/
theorem allocLoop_cases (avail : List Span) (wanted : Nat) :
    (allocLoop avail wanted = (0, avail) ∧ ∀ seg ∈ avail, seg.len < wanted) ∨
      ∃ front seg back, avail = front ++ seg :: back ∧ wanted ≤ seg.len ∧
        (∀ other ∈ front, other.len < wanted) ∧
        allocLoop avail wanted = (seg.lo, front ++ (if seg.len - wanted = 0 then back
          else ⟨seg.lo + wanted, seg.len - wanted⟩ :: back)) := by
  induction avail with
  | nil => exact .inl ⟨rfl, fun seg member => nomatch member⟩
  | cons first rest ih =>
      rw [allocLoop]
      split
      · rename_i large
        refine .inr ⟨[], first, rest, rfl, large, ?_, rfl⟩
        intro other member
        cases member
      · rename_i small
        have less : first.len < wanted := by omega
        obtain ⟨nothing, all⟩ | ⟨front, seg, back, rfl, large, before, found⟩ := ih
        · refine .inl ⟨by rw [nothing], fun seg member => ?_⟩
          obtain rfl | later := List.mem_cons.mp member
          · exact less
          · exact all seg later
        · refine .inr ⟨first :: front, seg, back, rfl, large, fun other member => ?_, by rw [found]; rfl⟩
          obtain rfl | later := List.mem_cons.mp member
          · exact less
          · exact before other later

/-- The part of a segment that is left. -/
def remainder (seg : Span) (wanted : Nat) (back : List Span) : List Span :=
  if seg.len - wanted = 0 then back else ⟨seg.lo + wanted, seg.len - wanted⟩ :: back

theorem size_remainder {wanted : Nat} (large : wanted ≤ seg.len) (back : List Span) :
    wanted + size (remainder seg wanted back) = size (seg :: back) := by
  unfold remainder
  split
  · rw [size_cons]
    omega
  · show wanted + (seg.len - wanted + size back) = seg.len + size back
    omega

theorem mem_remainder {other : Span} {wanted : Nat} {back : List Span} (large : wanted ≤ seg.len)
    (member : other ∈ remainder seg wanted back) :
    (seg.lo + wanted = other.lo ∧ other.hi = seg.hi ∧ 0 < other.len) ∨ other ∈ back := by
  unfold remainder at member
  split at member
  · exact .inr member
  · rename_i left
    obtain rfl | later := List.mem_cons.mp member
    · refine .inl ⟨rfl, ?_, Nat.pos_of_ne_zero left⟩
      show seg.lo + wanted + (seg.len - wanted) = seg.lo + seg.len
      omega
    · exact .inr later

/-! ## The pool -/

/-- What holds between calls. -/
structure Pool.Inv (pool : Pool) (total : Nat) : Prop where
  separate : Separate pool.avail
  proper : ∀ seg ∈ pool.avail, Proper seg
  live : pool.live.Pairwise Span.Apart
  held : ∀ seg ∈ pool.live, Proper seg
  apart : ∀ seg ∈ pool.avail, ∀ other ∈ pool.live, Span.Apart seg other
  total : size pool.avail + size pool.live = total

variable {pool next : Pool} {total : Nat}

/-- Two segments that share no address are apart. -/
theorem apart_of_cover {first second : Span} (one : 0 < first.len) (two : 0 < second.len)
    (none : ∀ address, first.lo ≤ address → address < first.hi →
      ¬(second.lo ≤ address ∧ address < second.hi)) : Span.Apart first second := by
  have here := none (max first.lo second.lo)
  unfold Span.Apart Span.hi at *
  omega

theorem not_mem_of_apart {first second : Span} (apart : Span.Apart first second)
    (inside : first.lo ≤ address ∧ address < first.hi) : ¬(second.lo ≤ address ∧ address < second.hi) := by
  unfold Span.Apart at apart
  omega

/-- An allocation that succeeds. -/
theorem Pool.Inv.alloc (inv : pool.Inv total) {front back : List Span} {wanted : Nat}
    (is : pool.avail = front ++ seg :: back) (some : 0 < wanted) (large : wanted ≤ seg.len) :
    Pool.Inv ⟨front ++ remainder seg wanted back, ⟨seg.lo, wanted⟩ :: pool.live⟩ total := by
  obtain ⟨separate, proper, live, held, apart, sum⟩ := inv
  rw [is] at separate proper apart sum
  have inside : seg ∈ front ++ seg :: back := List.mem_append_right _ List.mem_cons_self
  obtain ⟨before, behind, across⟩ := List.pairwise_append.mp separate
  obtain ⟨after, behind⟩ := List.pairwise_cons.mp behind
  have later : ∀ other ∈ back, other ∈ front ++ seg :: back := fun other member =>
    List.mem_append_right _ (List.mem_cons_of_mem _ member)
  constructor
  · -- the remainder is inside the segment
    refine List.pairwise_append.mpr ⟨before, ?_, fun other member left rest => ?_⟩
    · unfold remainder
      split
      · exact behind
      · refine List.pairwise_cons.mpr ⟨fun other member => ?_, behind⟩
        have beyond := after other member
        show seg.lo + wanted + (seg.len - wanted) < other.lo
        unfold Span.hi at beyond
        omega
    · obtain ⟨starts, -, -⟩ | old := mem_remainder large rest
      · have ahead := across other member seg List.mem_cons_self
        omega
      · exact across other member left (List.mem_cons_of_mem _ old)
  · intro other member
    obtain old | rest := List.mem_append.mp member
    · exact proper other (List.mem_append_left _ old)
    · obtain ⟨starts, -, positive⟩ | old := mem_remainder large rest
      · exact ⟨positive, by omega⟩
      · exact proper other (later other old)
  · refine List.pairwise_cons.mpr ⟨fun other member => ?_, live⟩
    have beside := apart seg inside other member
    unfold Span.Apart Span.hi at beside ⊢
    show seg.lo + wanted ≤ other.lo ∨ other.lo + other.len ≤ seg.lo
    omega
  · intro other member
    obtain rfl | old := List.mem_cons.mp member
    · exact ⟨some, (proper seg inside).2⟩
    · exact held other old
  · intro other member mine taken
    obtain rfl | old := List.mem_cons.mp taken
    · -- against the new segment
      show other.lo + other.len ≤ seg.lo ∨ seg.lo + wanted ≤ other.lo
      obtain ahead | rest := List.mem_append.mp member
      · have less := across other ahead seg List.mem_cons_self
        unfold Span.hi at less
        omega
      · obtain ⟨starts, -, -⟩ | late := mem_remainder large rest
        · omega
        · have beyond := after other late
          unfold Span.hi at beyond
          omega
    · obtain ahead | rest := List.mem_append.mp member
      · exact apart other (List.mem_append_left _ ahead) mine old
      · obtain ⟨starts, ends, -⟩ | late := mem_remainder large rest
        · have beside := apart seg inside mine old
          unfold Span.Apart at beside ⊢
          omega
        · exact apart other (later other late) mine old
  · have cut := size_remainder large back
    rw [size_append, size_cons]
    rw [size_append] at sum
    show size front + size (remainder seg wanted back) + (wanted + size pool.live) = total
    omega

/-- A release. -/
theorem Pool.Inv.free (inv : pool.Inv total) (member : seg ∈ pool.live) :
    Pool.Inv ⟨coalesceSomeMore (pool.avail.length + 1) (insertSeg pool.avail seg), pool.live.erase seg⟩
      total := by
  have perm := List.perm_cons_erase member
  have others := (List.pairwise_cons.mp (perm.pairwise inv.live fun apart => apart.symm))
  have positive := inv.held seg member
  have ordered : Ordered (insertSeg pool.avail seg) := by
    apply ordered_insertSeg inv.separate.ordered _ positive.1 fun other inside => (inv.proper other inside).1
    intro other inside
    exact (inv.apart other inside seg member).symm
  obtain ⟨separate, same, cover, proper⟩ :=
    coalesceSomeMore_spec (Nat.le_of_eq length_insertSeg) ordered
  have properAll := proper fun other inside => by
    obtain rfl | old := (mem_insertSeg).mp inside
    · exact positive
    · exact inv.proper other old
  constructor
  · exact separate
  · exact properAll
  · exact others.2
  · exact fun other inside => inv.held other (List.mem_of_mem_erase inside)
  · intro other inside mine taken
    have held := List.mem_of_mem_erase taken
    refine apart_of_cover (properAll other inside).1 (inv.held mine held).1 fun address low high => ?_
    -- an address of the result was available, or is one of the segment that comes back
    have covered := (cover address).mp ((Span.mem_cover).mpr ⟨other, inside, low, high⟩)
    obtain ⟨was, old, range⟩ := (Span.mem_cover).mp covered
    obtain rfl | available := (mem_insertSeg).mp old
    · exact not_mem_of_apart (others.1 mine taken) range
    · exact not_mem_of_apart (inv.apart was available mine held) range
  · have back : size pool.live = seg.len + size (pool.live.erase seg) := by
      rw [← size_cons]
      exact (perm.map Span.len).sum_eq
    have sum := inv.total
    rw [same, size_insertSeg]
    show seg.len + size pool.avail + size (pool.live.erase seg) = total
    omega

/-- A call that does not ask for an empty segment. -/
def Op.Positive : Op → Prop
  | .alloc wanted => 0 < wanted
  | .free _ => True

/-- One call. -/
theorem Pool.Inv.step (inv : pool.Inv total) {op : Op} (positive : op.Positive)
    (done : step pool op = some next) : next.Inv total := by
  cases op with
  | alloc wanted =>
      obtain ⟨⟨addr, avail⟩, found, rfl⟩ := Option.map_eq_some_iff.mp done
      rw [vmmMemAlloc] at found
      split at found
      · cases found
      · obtain ⟨nothing, -⟩ | ⟨front, seg, back, is, large, -, cut⟩ := allocLoop_cases pool.avail wanted
        · rw [nothing] at found
          obtain ⟨rfl, rfl⟩ := Prod.mk.inj (Option.some.inj found)
          exact inv
        · rw [cut] at found
          obtain ⟨rfl, rfl⟩ := Prod.mk.inj (Option.some.inj found)
          have above : 0 < seg.lo := (inv.proper seg (by rw [is]; simp)).2
          simp only
          rw [if_neg (by omega)]
          exact inv.alloc is positive large
  | free seg =>
      simp only [Mem.step] at done
      split at done
      · rename_i member
        obtain ⟨avail, back, rfl⟩ := Option.map_eq_some_iff.mp done
        rw [vmmMemFree] at back
        split at back
        · cases back
        split at back
        · cases back
        · obtain rfl := Option.some.inj back
          exact inv.free member
      · cases done

/-- What is promised of the segments: those that are available are sorted, not empty, and do
not meet, no address is held twice or held and available, no memory is lost, and an
allocation fails only if no segment is large enough. -/
structure Pool.Promised (pool : Pool) (total : Nat) : Prop where
  separate : Separate pool.avail
  nonempty : ∀ seg ∈ pool.avail, 0 < seg.len
  live : pool.live.Pairwise Span.Apart
  apart : ∀ seg ∈ pool.avail, ∀ other ∈ pool.live, Span.Apart seg other
  total : size pool.avail + size pool.live = total
  fails : ∀ wanted avail, 0 < wanted → vmmMemAlloc pool.avail wanted = some (0, avail) →
    ∀ seg ∈ pool.avail, seg.len < wanted

theorem Pool.Inv.promised (inv : pool.Inv total) : pool.Promised total where
  separate := inv.separate
  nonempty seg member := (inv.proper seg member).1
  live := inv.live
  apart := inv.apart
  total := inv.total
  fails wanted avail _ found := by
    rw [vmmMemAlloc] at found
    split at found
    · cases found
    · obtain ⟨-, all⟩ | ⟨front, seg, back, is, -, -, cut⟩ := allocLoop_cases pool.avail wanted
      · exact all
      · rw [cut] at found
        have zero : seg.lo = 0 := (Prod.mk.inj (Option.some.inj found)).1
        have above : 0 < seg.lo := (inv.proper seg (by rw [is]; simp)).2
        omega

/-- The states that are reached from segments by calls for segments that are not empty. -/
def Reaches (segs : List Span) (pool : Pool) : Prop :=
  ∃ ops : List Op, Run (fun pool op next => op.Positive ∧ step pool op = some next) ⟨segs, []⟩ ops pool

theorem Reaches.inv (separate : Separate segs) (proper : ∀ seg ∈ segs, Proper seg)
    (reaches : Reaches segs pool) : pool.Inv (size segs) := by
  obtain ⟨ops, run⟩ := reaches
  have initial : Pool.Inv ⟨segs, []⟩ (size segs) :=
    ⟨separate, proper, List.Pairwise.nil, nofun, fun _ _ _ => nofun, rfl⟩
  exact @Run.invariant _ _ _ (fun pool => pool.Inv (size segs)) (fun inv move => inv.step move.1 move.2)
    _ _ _ run initial

end Dragonfly.Vmm.Mem
