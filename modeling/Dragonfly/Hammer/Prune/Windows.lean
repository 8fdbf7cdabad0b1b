import Dragonfly.Hammer.Prune.Model

/-!
# The windows of a list of snapshots

The utility builds windows that lie between adjacent snapshots, in descending order, and
the kernel destroys the records that a window covers.  A window covers a record that is
created at its lower end, which is the transaction of a snapshot.
-/

namespace Dragonfly.Hammer.Prune

open Dragonfly.Lib Dragonfly.Hammer.Btree

/-- The lifetime of the record falls into the window. -/
structure Covers (elm : PruneElm) (base : Base) : Prop where
  deleted : base.deleteTid ≠ 0
  createLow : elm.begTid ≤ base.createTid
  createHigh : base.createTid < elm.endTid
  deleteLow : elm.begTid ≤ base.deleteTid
  deleteHigh : base.deleteTid < elm.endTid

/-- What the kernel is given: a window, or an empty one at the start of time. -/
structure WindowOk (elm : PruneElm) : Prop where
  bounded : elm.endTid ≤ maxTid
  mod : elm.modTid = tidSub elm.endTid elm.begTid
  order : elm.begTid < elm.endTid ∨ elm.begTid = 1 ∧ elm.endTid ≤ 1

/-- Windows between adjacent ones of the listed transaction ids, in descending order. -/
structure Windows (listed : List Nat) (elms : List PruneElm) : Prop where
  ok : ∀ elm ∈ elms, WindowOk elm
  descending : elms.Pairwise fun first second => second.endTid ≤ first.endTid
  adjacent : ∀ elm ∈ elms, ∀ tid ∈ listed, elm.begTid ≤ tid → tid < elm.endTid → tid = elm.begTid

section ShouldDelete

variable {elm : PruneElm} {base : Base} {elms : List PruneElm}

theorem tidSub_of_le {tid other : Nat} (small : tid ≤ maxTid) (le : other ≤ tid) :
    tidSub tid other = tid - other := by
  unfold tidSub
  unfold maxTid at small
  omega

/-- The test with the modulo holds exactly when the deletion lies in the window. -/
theorem modulo_iff (ok : WindowOk elm) (less : elm.begTid < elm.endTid)
    (createLow : elm.begTid ≤ base.createTid) (createHigh : base.createTid < elm.endTid)
    (deleteHigh : base.deleteTid ≤ elm.endTid) :
    elm.modTid ≠ 0 ∧ (tidSub base.createTid elm.begTid / elm.modTid =
        tidSub base.deleteTid elm.begTid / elm.modTid ↔
      elm.begTid ≤ base.deleteTid ∧ base.deleteTid < elm.endTid) := by
  have bounded := ok.bounded
  have mod : elm.modTid = elm.endTid - elm.begTid := by
    rw [ok.mod, tidSub_of_le bounded (by omega)]
  have create : tidSub base.createTid elm.begTid / elm.modTid = 0 := by
    rw [tidSub_of_le (by omega) createLow]
    exact Nat.div_eq_of_lt (by omega)
  refine ⟨by omega, ?_⟩
  rw [create, eq_comm, Nat.div_eq_zero_iff]
  by_cases low : elm.begTid ≤ base.deleteTid
  · rw [tidSub_of_le (by omega) low]
    omega
  · unfold tidSub
    unfold maxTid at bounded
    omega

/-- The kernel destroys exactly the records that some window covers, and does not divide
by zero. -/
theorem shouldDeleteLoop_eq (ok : ∀ elm ∈ elms, WindowOk elm)
    (descending : elms.Pairwise fun first second => second.endTid ≤ first.endTid) :
    ∃ delete, shouldDeleteLoop base elms = .done delete ∧
      (delete = true ↔ ∃ elm ∈ elms, Covers elm base) := by
  induction elms with
  | nil => exact ⟨false, rfl, by simp⟩
  | cons elm elms ih =>
      rw [List.forall_mem_cons] at ok
      rw [List.pairwise_cons] at descending
      obtain ⟨delete, rest, iff⟩ := ih ok.2 descending.2
      rw [shouldDeleteLoop]
      split
      · rename_i leaves
        refine ⟨false, rfl, ?_⟩
        simp only [Bool.false_eq_true, false_iff, not_exists, not_and]
        intro other member covers
        have createHigh := covers.createHigh
        have deleteHigh := covers.deleteHigh
        rcases List.mem_cons.mp member with rfl | later
        · omega
        · have := descending.1 other later
          omega
      · rename_i stays
        have here : ∀ {answer : Bool}, (answer = true ↔ ∃ elm ∈ elms, Covers elm base) →
            ¬Covers elm base → (answer = true ↔ ∃ other ∈ elm :: elms, Covers other base) := by
          intro answer same uncovered
          simp only [same, List.mem_cons, exists_eq_or_imp]
          exact ⟨.inr, fun either => either.resolve_left uncovered⟩
        split
        · rename_i candidate
          rcases ok.1.order with less | ⟨one, empty⟩
          · obtain ⟨nonzero, modulo⟩ :=
              modulo_iff ok.1 less candidate.2.1 (by omega) candidate.2.2
            rw [Outcome.kkassert_of nonzero]
            split
            · rename_i same
              obtain ⟨deleteLow, deleteHigh⟩ := modulo.mp same
              refine ⟨true, rfl, ?_⟩
              simp only [true_iff]
              exact ⟨elm, List.mem_cons_self,
                ⟨candidate.1, candidate.2.1, by omega, deleteLow, deleteHigh⟩⟩
            · rename_i different
              exact ⟨delete, rest, here iff fun covers =>
                different (modulo.mpr ⟨covers.deleteLow, covers.deleteHigh⟩)⟩
          · omega
        · rename_i other
          refine ⟨delete, rest, here iff fun covers => other ⟨covers.deleted, covers.createLow, ?_⟩⟩
          have := covers.deleteHigh
          omega

end ShouldDelete

/-! ## What the utility builds -/

/-- The elements begin at the listed transaction ids below the bound, one after
another. -/
def Teeth (listed : List Nat) : Nat → List PruneElm → Prop
  | bound, [] => ∀ tid ∈ listed, bound ≤ tid
  | bound, elm :: elms =>
      elm.endTid = bound ∧ elm.begTid < bound ∧ (∀ tid ∈ listed, tid < bound → tid ≤ elm.begTid) ∧
        Teeth listed elm.begTid elms

section Finalize

variable {listed : List Nat} {bound : Nat} {elms : List PruneElm}

theorem fillEnds_teeth (above : PruneElm) (sorted : elms.Pairwise fun x y => y.begTid ≤ x.begTid)
    (below : ∀ elm ∈ elms, elm.begTid ≤ above.begTid)
    (begins : ∀ tid ∈ listed, tid < above.begTid → ∃ elm ∈ elms, elm.begTid = tid) :
    Teeth listed above.begTid (fillEnds (some above) elms) := by
  induction elms generalizing above with
  | nil =>
      intro tid member
      by_contra less
      obtain ⟨elm, none, -⟩ := begins tid member (by omega)
      cases none
  | cons elm elms ih =>
      rw [List.pairwise_cons] at sorted
      rw [List.forall_mem_cons] at below
      rw [fillEnds]
      split
      · rename_i duplicate
        refine ih _ sorted.2 below.2 ?_
        intro tid member less
        obtain ⟨other, otherMem, same⟩ := begins tid member less
        rcases List.mem_cons.mp otherMem with rfl | later
        · omega
        · exact ⟨other, later, same⟩
      · refine ⟨rfl, by have := below.1; simp only; omega, ?_, ih _ sorted.2 sorted.1 ?_⟩
        · intro tid member less
          obtain ⟨other, otherMem, same⟩ := begins tid member less
          rcases List.mem_cons.mp otherMem with rfl | later
          · exact same.ge
          · exact same ▸ sorted.1 other later
        · intro tid member less
          dsimp only at less
          obtain ⟨other, otherMem, same⟩ := begins tid member (by omega)
          rcases List.mem_cons.mp otherMem with rfl | later
          · omega
          · exact ⟨other, later, same⟩

theorem Teeth.drop (teeth : Teeth listed bound elms) (small : bound ≤ maxTid) (n : Nat) :
    ∃ lower ≤ maxTid, Teeth listed lower (elms.drop n) := by
  induction n generalizing bound elms with
  | zero => exact ⟨bound, small, teeth⟩
  | succ n ih =>
      cases elms with
      | nil => exact ⟨bound, small, teeth⟩
      | cons elm elms =>
          have less := teeth.2.1
          exact ih teeth.2.2.2 (by omega)

/-- The minimum retention time takes elements off the front. -/
theorem retain_tail (pruneMin now : Int) (elms : List PruneElm) :
    ∃ n, (retain pruneMin now elms).tail = elms.tail.drop n := by
  unfold retain
  split
  · exact ⟨0, rfl⟩
  · dsimp only
    generalize (elms.reverse.dropWhile (passes pruneMin now)).length = first
    split
    · exact ⟨0, rfl⟩
    · refine ⟨first, ?_⟩
      rw [List.drop_tail, ← List.tail_drop]
      cases elms.drop first <;> rfl

theorem setMod_ok {elm : PruneElm} (bounded : elm.endTid ≤ maxTid)
    (order : elm.begTid < elm.endTid ∨ elm.begTid = 1 ∧ elm.endTid ≤ 1) : WindowOk (setMod elm) where
  bounded := bounded
  mod := by simp only [setMod]
  order := order

theorem Teeth.windowOk (teeth : Teeth listed bound elms) (small : bound ≤ maxTid) :
    ∀ elm ∈ elms.map setMod, WindowOk elm := by
  induction elms generalizing bound with
  | nil => simp
  | cons elm elms ih =>
      obtain ⟨ends, less, -, rest⟩ := teeth
      rw [List.map_cons, List.forall_mem_cons]
      exact ⟨setMod_ok (by omega) (.inl (by omega)), ih rest (by omega)⟩

theorem Teeth.endTid_le (teeth : Teeth listed bound elms) : ∀ elm ∈ elms, elm.endTid ≤ bound := by
  induction elms generalizing bound with
  | nil => simp
  | cons elm elms ih =>
      obtain ⟨ends, less, -, rest⟩ := teeth
      rw [List.forall_mem_cons]
      refine ⟨ends.le, ?_⟩
      intro other member
      have := ih rest other member
      omega

theorem Teeth.descending (teeth : Teeth listed bound elms) :
    elms.Pairwise fun first second => second.endTid ≤ first.endTid := by
  induction elms generalizing bound with
  | nil => exact .nil
  | cons elm elms ih =>
      obtain ⟨ends, less, -, rest⟩ := teeth
      refine List.pairwise_cons.mpr ⟨?_, ih rest⟩
      intro other member
      have := rest.endTid_le other member
      omega

theorem Teeth.adjacent (teeth : Teeth listed bound elms) :
    ∀ elm ∈ elms, ∀ tid ∈ listed, elm.begTid ≤ tid → tid < elm.endTid → tid = elm.begTid := by
  induction elms generalizing bound with
  | nil => simp
  | cons elm elms ih =>
      obtain ⟨ends, less, none, rest⟩ := teeth
      rw [List.forall_mem_cons]
      refine ⟨?_, ih rest⟩
      intro tid member low high
      exact Nat.le_antisymm (none tid member (by omega)) low

/-- The last element begins at the lowest of the transaction ids. -/
theorem Teeth.last (teeth : Teeth listed bound elms) {last : PruneElm}
    (is : elms.getLast? = some last) :
    last.begTid < bound ∧ (∀ elm ∈ elms, last.begTid ≤ elm.endTid) ∧
      ∀ tid ∈ listed, last.begTid ≤ tid := by
  induction elms generalizing bound with
  | nil => cases is
  | cons elm elms ih =>
      obtain ⟨ends, less, none, rest⟩ := teeth
      cases elms with
      | nil =>
          rw [List.getLast?_singleton, Option.some.injEq] at is
          subst is
          refine ⟨less, ?_, rest⟩
          rw [List.forall_mem_singleton]
          omega
      | cons second elms =>
          rw [List.getLast?_cons_cons] at is
          obtain ⟨below, ends', lowest⟩ := ih rest is
          refine ⟨by omega, List.forall_mem_cons.mpr ⟨by omega, ends'⟩, lowest⟩

/-- The final element closes the windows off at the start of time. -/
theorem Teeth.terminate (teeth : Teeth listed bound elms) (small : bound ≤ maxTid) :
    Windows listed ((terminate elms).map setMod) := by
  unfold Prune.terminate
  split
  · exact ⟨by simp, .nil, by simp⟩
  · rename_i last is
    obtain ⟨below, ends, lowest⟩ := teeth.last is
    rw [List.map_append, List.map_singleton]
    constructor
    case ok =>
      rw [List.forall_mem_append]
      refine ⟨teeth.windowOk small, ?_⟩
      rw [List.forall_mem_singleton]
      exact setMod_ok (by dsimp only; omega) (by dsimp only; omega)
    case descending =>
      rw [List.pairwise_append, List.pairwise_map]
      refine ⟨teeth.descending, List.pairwise_singleton _ _, ?_⟩
      simp only [List.mem_map, List.mem_singleton, forall_eq]
      rintro _ ⟨elm, member, rfl⟩
      exact ends elm member
    case adjacent =>
      rw [List.forall_mem_append, List.forall_mem_singleton, List.forall_mem_map]
      refine ⟨teeth.adjacent, ?_⟩
      intro tid member low high
      have := lowest tid member
      dsimp only [setMod] at high
      omega

/-- The utility builds windows between adjacent snapshots. -/
theorem finalize_windows {sorted : List PruneElm} (pruneMin now : Int)
    (order : sorted.Pairwise fun x y => y.begTid ≤ x.begTid)
    (small : ∀ elm ∈ sorted, elm.begTid ≤ maxTid) :
    Windows (sorted.map PruneElm.begTid) (finalize pruneMin now sorted) := by
  obtain ⟨n, tail⟩ := retain_tail pruneMin now (fillEnds none sorted)
  rw [finalize, tail]
  cases sorted with
  | nil => exact ⟨by simp [fillEnds, Prune.terminate], by simp [fillEnds, Prune.terminate], by simp⟩
  | cons first rest =>
      rw [List.pairwise_cons] at order
      have teeth : Teeth ((first :: rest).map PruneElm.begTid) first.begTid
          (fillEnds (some { first with endTid := maxTid }) rest) := by
        refine fillEnds_teeth { first with endTid := maxTid } order.2 order.1 ?_
        intro tid member less
        obtain ⟨elm, elmMem, same⟩ := List.mem_map.mp member
        rcases List.mem_cons.mp elmMem with rfl | later
        · dsimp only at less
          omega
        · exact ⟨elm, later, same⟩
      obtain ⟨lower, lowerSmall, dropped⟩ := teeth.drop (small first List.mem_cons_self) n
      exact dropped.terminate lowerSmall

end Finalize

end Dragonfly.Hammer.Prune
