import Dragonfly.Hammer.Fifo.Chain
import Mathlib.Data.List.Induction

/-!
# The recovery loops on a chain

Each loop of `hammer_recover_stage1` and `hammer_recover_stage2` walks a chain in
one direction.  With as much fuel as there are records it comes back, and what it
computes is a fold over the records and, for stage 2, their offsets.
-/

namespace Dragonfly.Hammer.Fifo

open Dragonfly.Lib

/-- Records of a chain with the offsets they start at. -/
def Area.place (area : Area) : Nat → List Record → List (Nat × Record)
  | _, [] => []
  | offset, record :: records =>
      (offset, record) :: area.place (area.walk offset record.size) records

theorem Area.place_append (area : Area) (offset : Nat) (first second : List Record)
    (inside : area.Inside offset) :
    area.place offset (first ++ second) =
      area.place offset first ++ area.place (area.walk offset (total first)) second := by
  induction first generalizing offset with
  | nil => simp [Area.place, Area.walk_zero inside]
  | cons record records ih =>
      have next : area.Inside (area.walk offset record.size) := by
        have bound := Nat.mod_lt (offset - undoBase + record.size)
          (show 0 < area.allocOffset - undoBase by unfold Area.Inside at inside; omega)
        unfold Area.Inside Area.walk at *
        omega
      simp only [List.cons_append, Area.place, total_cons]
      rw [ih _ next, Area.walk_walk]

theorem Area.map_place (area : Area) (offset : Nat) (records : List Record) :
    (area.place offset records).map Prod.snd = records := by
  induction records generalizing offset with
  | nil => rfl
  | cons record records ih => simp [Area.place, ih]

/-- Two spellings of one offset: the end of the area is its beginning. -/
def Area.Names (area : Area) (spelled offset : Nat) : Prop :=
  spelled = offset ∨ (spelled = area.allocOffset ∧ offset = undoBase)

theorem Area.Names.scanRev {area : Area} {spelled offset : Nat} (names : area.Names spelled offset) :
    area.scanRev spelled = area.scanRev offset := by
  rcases names with rfl | ⟨rfl, rfl⟩
  · rfl
  · simp only [Area.scanRev, Fifo.scanRev, if_true]
    split <;> rfl

theorem Area.Names.scanFwd {area : Area} {spelled offset : Nat} (sane : area.Sane)
    (names : area.Names spelled offset) : area.scanFwd spelled = area.scanFwd offset := by
  rcases names with rfl | ⟨rfl, rfl⟩
  · rfl
  · have different : undoBase ≠ area.allocOffset := sane.lower.ne
    simp only [Area.scanFwd, Fifo.scanFwd, if_true, if_neg different]

/-- An inside offset is not the other spelling of the beginning. -/
theorem Area.Names.ne {area : Area} {spelled offset place : Nat} (names : area.Names spelled offset)
    (inside : area.Inside place) (different : place ≠ offset) : place ≠ spelled := by
  rcases names with rfl | ⟨rfl, rfl⟩
  · exact different
  · exact inside.2.ne

/-- The distance from an offset, however it is spelled. -/
theorem Area.span_names {area : Area} (sane : area.Sane) {spelled start distance : Nat}
    (inside : area.Inside start) (names : area.Names spelled start) (positive : 0 < distance)
    (short : distance < area.allocOffset - undoBase) :
    area.span spelled (area.walk start distance) = distance ∧
      spelled ≠ area.walk start distance := by
  have target := Area.walk_inside sane start distance
  refine ⟨?_, (names.ne target (Area.walk_ne inside positive short)).symm⟩
  rcases names with rfl | ⟨rfl, rfl⟩
  · exact Area.span_walk sane inside short
  · have straight := Area.walk_cases inside short.le
    unfold Area.span
    rw [if_neg (Nat.not_le.mpr target.2), target.longOffset_eq sane]
    have lower := sane.lower
    omega

/-! ## Stage 1 -/

/-- Run UNDO records until one is refused. -/
def applyAll : List Record → Recovery → Option Errno × Recovery
  | [], state => (none, state)
  | record :: records, state =>
      match applyUndo state record with
      | .error errno => (some errno, state)
      | .ok state => applyAll records state

theorem undoLoop_chain {area : Area} (sane : area.Sane) {start firstOffset : Nat}
    (inside : area.Inside start) (names : area.Names firstOffset start) {records : List Record}
    {last fuel : Nat} {state : Recovery} (chain : Chain area start records last)
    (short : total records < area.allocOffset - undoBase) (enough : records.length < fuel) :
    undoLoop area firstOffset fuel last (total records : Nat) state =
      .done (applyAll records.reverse state) := by
  induction records using List.reverseRecOn generalizing last fuel state with
  | nil =>
      cases fuel with
      | zero => exact absurd enough (Nat.not_lt_zero _)
      | succ fuel => simp [undoLoop, applyAll, Outcome.kkassert]
  | append_singleton records record ih =>
      cases fuel with
      | zero => exact absurd enough (Nat.not_lt_zero _)
      | succ fuel =>
          obtain ⟨before, front, _, positive, _, rev⟩ := chain.last
          have lastEq := chain.stop_eq inside
          rw [total_append, total_cons, total_nil] at short lastEq
          have lastNe : last ≠ firstOffset := by
            rw [lastEq]
            exact names.ne (Area.walk_inside sane _ _)
              (Area.walk_ne inside (by omega) (by omega))
          have more : (0 : Int) < (total (records ++ [record]) : Nat) := by
            rw [total_append, total_cons, total_nil]
            omega
          have left : ((total (records ++ [record]) : Nat) : Int) - record.size =
              (total records : Nat) := by
            rw [total_append, total_cons, total_nil]
            omega
          simp only [undoLoop, if_pos more, Outcome.kkassert, lastNe, ne_eq, not_false_eq_true,
            decide_true, if_true, rev, List.reverse_append, List.reverse_cons, List.reverse_nil,
            List.nil_append, List.cons_append, applyAll]
          cases applied : applyUndo state record with
          | error errno => rfl
          | ok next =>
              dsimp only
              rw [left]
              refine ih front (by omega) ?_
              simp only [List.length_append, List.length_cons, List.length_nil] at enough
              omega

/-! ## Stage 2 -/

/-- Collect the TERMs of a list of placed records, checking the sequence numbers. -/
def collectAll : List (Nat × Record) → Nat → Redo → Option Errno × Redo
  | [], _, redo => (none, redo)
  | (offset, record) :: records, seqno, redo =>
      if record.body ≠ .pad then
        if record.seq ≠ seqno then (some .erange, redo)
        else collectAll records (seqPred seqno) (recoverRedoRec redo offset record)
      else collectAll records seqno redo

theorem collectLoop_chain {area : Area} {ext : Nat} (inside : area.Inside ext)
    {records : List Record} {scanOffset stop seqno fuel : Nat} {redo : Redo}
    (names : area.Names scanOffset stop) (nonempty : records ≠ [])
    (chain : Chain area ext records stop)
    (short : total records ≤ area.allocOffset - undoBase) (enough : records.length ≤ fuel) :
    collectLoop area ext fuel scanOffset seqno redo =
      .done (collectAll (area.place ext records).reverse seqno redo) := by
  induction records using List.reverseRecOn generalizing scanOffset stop seqno fuel redo with
  | nil => contradiction
  | append_singleton records record ih =>
      cases fuel with
      | zero => simp at enough
      | succ fuel =>
          obtain ⟨before, front, beforeInside, positive, _, rev⟩ := chain.last
          have beforeEq := front.stop_eq inside
          rw [total_append, total_cons, total_nil] at short
          have placed : (area.place ext (records ++ [record])).reverse =
              (before, record) :: (area.place ext records).reverse := by
            rw [area.place_append _ _ _ inside, ← beforeEq]
            simp [Area.place]
          simp only [List.length_append, List.length_cons, List.length_nil] at enough
          rw [placed]
          simp only [collectLoop, names.scanRev, rev, collectAll]
          -- the scan has reached `ext` exactly when no record is left in front
          by_cases rest : records = []
          · subst rest
            have reached : before = ext := by
              rw [beforeEq, total_nil, Area.walk_zero inside]
            subst reached
            simp only [if_true, Area.place, List.reverse_nil, collectAll]
            split
            · split <;> rfl
            · rfl
          · have apart : before ≠ ext := by
              obtain ⟨head, tail, rfl⟩ := List.exists_cons_of_ne_nil rest
              have headPositive : 0 < head.size := by
                cases front with
                | cons _ positive => exact positive
              rw [beforeEq]
              rw [total_cons] at short ⊢
              exact Area.walk_ne inside (by omega) (by omega)
            simp only [if_neg apart]
            split
            · split
              · rfl
              · exact ih (.inl rfl) rest front (by omega) (by omega)
            · exact ih (.inl rfl) rest front (by omega) (by omega)

/-- Run a list of placed records forwards. -/
def runAll : List (Nat × Record) → Redo → Outcome Redo
  | [], redo => .done redo
  | (offset, record) :: records, redo =>
      (recoverRedoRun redo offset record).bind (runAll records)

theorem redoLoop_chain {area : Area} (sane : area.Sane) {ext last fuel : Nat}
    (inside : area.Inside ext) {records : List Record} {redo : Redo}
    (chain : Chain area ext records last) (short : total records < area.allocOffset - undoBase)
    (enough : records.length < fuel) :
    redoLoop area last fuel ext (total records : Nat) redo =
      (runAll (area.place ext records) redo).bind fun redo => .done (none, redo) := by
  induction records generalizing ext fuel redo with
  | nil =>
      cases fuel with
      | zero => exact absurd enough (Nat.not_lt_zero _)
      | succ fuel => simp [redoLoop, runAll, Area.place, Outcome.kkassert, Outcome.bind]
  | cons record records ih =>
      cases fuel with
      | zero => exact absurd enough (Nat.not_lt_zero _)
      | succ fuel =>
          have lastEq := chain.stop_eq inside
          cases chain with
          | cons _ positive fits fwd rev rest =>
              rw [total_cons] at short
              have extNe : ext ≠ last := by
                rw [lastEq, total_cons]
                exact (Area.walk_ne inside (by omega) (by omega)).symm
              have more : (0 : Int) < (total (record :: records) : Nat) := by
                rw [total_cons]
                omega
              have left : ((total (record :: records) : Nat) : Int) - record.size =
                  (total records : Nat) := by
                rw [total_cons]
                omega
              simp only [redoLoop, if_pos more, Outcome.kkassert, extNe, ne_eq,
                not_false_eq_true, decide_true, if_true, fwd, Area.place, runAll]
              cases run : recoverRedoRun redo ext record with
              | panic => rfl
              | more => rfl
              | done next =>
                  simp only [Outcome.bind]
                  rw [left]
                  simp only [List.length_cons] at enough
                  exact ih (Area.walk_inside sane _ _) rest (by omega) (by omega)

end Dragonfly.Hammer.Fifo
