import Mathlib
import Dragonfly.Kern.Sem.Undo

/-!
# All or nothing

A call of `semop` either does all its operations, each possible after those in front of it, or
leaves the values and the entries as they were.
-/

namespace Dragonfly.Kern.Sem

variable {d : SemidDs} {sops done rest : List Sembuf} {sop : Sembuf} {sem : Nat → Semaphore} {x semid k : Nat}
  {info : Seminfo} {p : Proc} {s s' s₀ t : System} {suptr : Option Nat}

/-! ## Values -/

/-- The operation is possible at a value. -/
def Permitted (sop : Sembuf) (semval : BitVec 16) : Prop := 0 ≤ (semval.toNat : Int) + sop.op.toInt ∧ (sop.op = 0 → semval = 0)

/-- The semaphore of an operation. -/
def SemidDs.place (d : SemidDs) (sop : Sembuf) : Nat := d.base + sop.num.toNat

/-- The operations are done. -/
def perform (d : SemidDs) (sops : List Sembuf) (sem : Nat → Semaphore) : Nat → Semaphore :=
  sops.foldl (fun sem sop => Function.update sem (d.place sop) (addVal sop.op (sem (d.place sop)))) sem

/-- The operations are in range, and each is possible after those in front of it. -/
def Allowed (d : SemidDs) : List Sembuf → (Nat → Semaphore) → Prop
  | [], _ => True
  | sop :: rest, sem => sop.num < d.nsems ∧ Permitted sop (sem (d.place sop)).semval ∧ Allowed d rest (perform d [sop] sem)

/-- What operations add to a semaphore. -/
def net (d : SemidDs) (x : Nat) : List Sembuf → BitVec 16
  | [] => 0
  | sop :: rest => (if d.place sop = x then sop.op else 0) + net d x rest

theorem ofNat_toNat (value : BitVec 16) : BitVec.ofNat 16 value.toNat = value := by
  rw [BitVec.ofNat_toNat, BitVec.setWidth_eq]

theorem pos_iff {value : BitVec 16} : 0 < value ↔ value ≠ 0 := by
  rw [BitVec.lt_def, ne_eq, BitVec.toNat_eq]
  exact Nat.pos_iff_ne_zero

theorem addVal_zero (x : Semaphore) : addVal 0 x = x := by
  rw [addVal, add_zero]

theorem addVal_addVal (first second : BitVec 16) (x : Semaphore) : addVal second (addVal first x) = addVal (first + second) x := by
  rw [addVal, addVal, addVal]
  simp only [add_assoc]

theorem perform_apply (d : SemidDs) (sops : List Sembuf) (sem : Nat → Semaphore) (x : Nat) :
    perform d sops sem x = addVal (net d x sops) (sem x) := by
  induction sops generalizing sem with
  | nil => exact (addVal_zero _).symm
  | cons sop rest ih =>
      show perform d rest (Function.update sem _ _) x = _
      rw [ih, net]
      by_cases here : d.place sop = x
      · rw [if_pos here, here, Function.update_self, addVal_addVal]
      · rw [if_neg here, Function.update_of_ne (Ne.symm here), zero_add]

theorem rollback_apply (d : SemidDs) (sops : List Sembuf) (sem : Nat → Semaphore) (x : Nat) :
    rollback d sops sem x = addVal (-net d x sops) (sem x) := by
  induction sops generalizing sem with
  | nil =>
      show sem x = addVal (-0) (sem x)
      rw [neg_zero, addVal_zero]
  | cons sop rest ih =>
      show rollback d rest (Function.update sem (d.place sop) (addVal (-sop.op) (sem (d.place sop)))) x = _
      rw [ih, net]
      by_cases here : d.place sop = x
      · rw [if_pos here, here, Function.update_self, addVal_addVal, neg_add]
      · rw [if_neg here, Function.update_of_ne (Ne.symm here), zero_add]

/-- Taking the operations back is exact. -/
theorem rollback_perform (d : SemidDs) (sops : List Sembuf) (sem : Nat → Semaphore) :
    rollback d sops (perform d sops sem) = sem := by
  funext x
  rw [rollback_apply, perform_apply, addVal_addVal, add_neg_cancel, addVal_zero]

theorem perform_of_zero (zero : sop.op = 0) (sem : Nat → Semaphore) : perform d [sop] sem = sem := by
  funext x
  rw [perform_apply, net, net, zero, ite_self, add_zero, addVal_zero]

/-- An operation that is done before. -/
theorem Allowed.at_index (allowed : Allowed d (sops.take k) sem) {j : Nat} (before : j < k) (here : sops[j]? = some sop) :
    sop.num < d.nsems ∧ Permitted sop (perform d (sops.take j) sem (d.place sop)).semval := by
  induction sops generalizing sem j k with
  | nil => cases here
  | cons first rest ih =>
      obtain ⟨k, rfl⟩ : ∃ k', k = k' + 1 := ⟨k - 1, by omega⟩
      rw [List.take_succ_cons, Allowed] at allowed
      cases j with
      | zero =>
          cases here
          exact ⟨allowed.1, allowed.2.1⟩
      | succ j => exact ih allowed.2.2 (by omega) here

/-- How the loop over the operations ends. -/
structure Ends (d : SemidDs) (sops : List Sembuf) (sem : Nat → Semaphore) (k : Nat) (stop : Stop) : Prop where
  bound : k ≤ sops.length
  allowed : Allowed d (sops.take k) sem
  through : stop = .through → k = sops.length
  efbig : stop = .efbig → ∃ sop, sops[k]? = some sop ∧ d.nsems ≤ sop.num
  blocked : ∀ sop, stop = .blocked sop → sops[k]? = some sop ∧ sop.num < d.nsems ∧
    ¬Permitted sop (perform d (sops.take k) sem (d.place sop)).semval

theorem Ends.cons {stop : Stop} (ends : Ends d rest (perform d [sop] sem) k stop) (inside : sop.num < d.nsems)
    (permitted : Permitted sop (sem (d.place sop)).semval) : Ends d (sop :: rest) sem (k + 1) stop where
  bound := Nat.succ_le_succ ends.bound
  allowed := ⟨inside, permitted, ends.allowed⟩
  through same := congrArg Nat.succ (ends.through same)
  efbig := ends.efbig
  blocked := ends.blocked

/-- The loop does operations as long as they are possible. -/
theorem tryOps_spec (d : SemidDs) (sops : List Sembuf) (r : Progress) :
    ∃ stop r' k, tryOps d sops r = (stop, r') ∧ Ends d sops r.sem k stop ∧ r'.i = r.i + k ∧
      r'.sem = perform d (sops.take k) r.sem ∧
      (r'.doUndos = false → r.doUndos = false ∧ ∀ sop ∈ sops.take k, sop.undoes = false) := by
  induction sops generalizing r with
  | nil => exact ⟨.through, r, 0, rfl, ⟨Nat.zero_le _, trivial, fun _ => rfl, nofun, nofun⟩, rfl, rfl, fun same => ⟨same, nofun⟩⟩
  | cons sop rest ih =>
      -- the operation is done, and the loop goes on
      have goes : ∀ next : Progress, next.i = r.i + 1 → next.sem = perform d [sop] r.sem →
          (next.doUndos = false → r.doUndos = false ∧ sop.undoes = false) → sop.num < d.nsems →
          Permitted sop (r.sem (d.place sop)).semval →
          ∃ stop r' k, tryOps d rest next = (stop, r') ∧ Ends d (sop :: rest) r.sem k stop ∧ r'.i = r.i + k ∧
            r'.sem = perform d ((sop :: rest).take k) r.sem ∧
            (r'.doUndos = false → r.doUndos = false ∧ ∀ sop' ∈ (sop :: rest).take k, sop'.undoes = false) := by
        intro next count same undos inside permitted
        obtain ⟨stop, r', k, outcome, ends, count', same', undos'⟩ := ih next
        rw [same] at ends same'
        refine ⟨stop, r', k + 1, outcome, ends.cons inside permitted, by omega, same', fun off => ?_⟩
        obtain ⟨nextOff, others⟩ := undos' off
        obtain ⟨before, mine⟩ := undos nextOff
        exact ⟨before, List.forall_mem_cons.mpr ⟨mine, others⟩⟩
      -- the loop ends in front of the operation
      have stops : ∀ stop, (stop = .through → False) → (stop = .efbig → d.nsems ≤ sop.num) →
          (∀ sop', stop = .blocked sop' → sop' = sop ∧ sop.num < d.nsems ∧ ¬Permitted sop (r.sem (d.place sop)).semval) →
          ∃ stop' r' k, (stop, r) = (stop', r') ∧ Ends d (sop :: rest) r.sem k stop' ∧ r'.i = r.i + k ∧
            r'.sem = perform d ((sop :: rest).take k) r.sem ∧
            (r'.doUndos = false → r.doUndos = false ∧ ∀ sop' ∈ (sop :: rest).take k, sop'.undoes = false) := by
        intro stop through efbig blocked
        refine ⟨stop, r, 0, rfl, ⟨Nat.zero_le _, trivial, fun same => (through same).elim, ?_, ?_⟩, rfl, rfl, fun off => ⟨off, nofun⟩⟩
        · exact fun same => ⟨sop, rfl, efbig same⟩
        · intro sop' same
          obtain ⟨rfl, inside, not⟩ := blocked sop' same
          exact ⟨rfl, inside, not⟩
      rw [tryOps]
      by_cases outside : d.nsems ≤ sop.num
      · rw [if_pos outside]
        exact stops .efbig nofun (fun _ => outside) nofun
      · have inside : sop.num < d.nsems := BitVec.not_le.mp outside
        rw [if_neg outside]
        by_cases negative : sop.op.toInt < 0
        · have nonzero : sop.op ≠ 0 := by
            intro zero
            rw [zero] at negative
            exact absurd negative (by decide)
          simp only [if_pos negative]
          by_cases short : ((r.sem (d.base + sop.num.toNat)).semval.toNat : Int) + sop.op.toInt < 0
          · rw [if_pos short]
            refine stops (.blocked sop) nofun nofun ?_
            rintro sop' ⟨⟩
            exact ⟨rfl, inside, fun permitted => absurd permitted.1 (not_le.mpr short)⟩
          · rw [if_neg short]
            refine goes _ rfl rfl (fun off => ?_) inside ⟨not_lt.mp short, fun zero => absurd zero nonzero⟩
            obtain ⟨before, undo⟩ := Bool.or_eq_false_iff.mp off
            exact ⟨before, by rw [Sembuf.undoes, undo, Bool.false_and]⟩
        · simp only [if_neg negative]
          by_cases zero : sop.op = 0
          · rw [if_pos zero]
            by_cases positive : 0 < (r.sem (d.base + sop.num.toNat)).semval
            · rw [if_pos positive]
              refine stops (.blocked sop) nofun nofun ?_
              rintro sop' ⟨⟩
              exact ⟨rfl, inside, fun permitted => absurd (permitted.2 zero) ((pos_iff).mp positive)⟩
            · rw [if_neg positive]
              have value : (r.sem (d.place sop)).semval = 0 := by
                by_contra some
                exact positive ((pos_iff).mpr some)
              refine goes _ rfl (perform_of_zero zero _).symm (fun off => ⟨off, ?_⟩) inside ⟨?_, fun _ => value⟩
              · rw [Sembuf.undoes, decide_eq_false (not_not.mpr zero), Bool.and_false]
              · rw [zero, value]
                decide
          · rw [if_neg zero]
            refine goes _ rfl rfl (fun off => ?_) inside ⟨?_, fun zero' => absurd zero' zero⟩
            · obtain ⟨before, undo⟩ := Bool.or_eq_false_iff.mp off
              exact ⟨before, by rw [Sembuf.undoes, undo, Bool.false_and]⟩
            · exact Int.add_nonneg (Int.natCast_nonneg _) (not_lt.mp negative)

/-! ## Entries -/

/-- What operations with `SEM_UNDO` add to a semaphore. -/
def netUndo (num : BitVec 16) : List Sembuf → BitVec 16
  | [] => 0
  | sop :: rest => (if sop.undoes = true ∧ sop.num = num then sop.op else 0) + netUndo num rest

theorem netUndo_append (num : BitVec 16) (first second : List Sembuf) :
    netUndo num (first ++ second) = netUndo num first + netUndo num second := by
  induction first with
  | nil => exact (zero_add _).symm
  | cons sop rest ih => rw [List.cons_append, netUndo, netUndo, ih, add_assoc]

theorem netUndo_reverse (num : BitVec 16) (sops : List Sembuf) : netUndo num sops.reverse = netUndo num sops := by
  induction sops with
  | nil => rfl
  | cons sop rest ih =>
      rw [List.reverse_cons, netUndo_append, ih, netUndo, netUndo, netUndo, add_zero, add_comm]

/-- The adjustments for operations, the last one first, were made. -/
inductive Undone (info : Seminfo) (p : Proc) (semid : Nat) (s₀ : System) : List Sembuf → System → Prop where
  | nil (ok : UndoOk info s₀.semu s₀.semuList) : Undone info p semid s₀ [] s₀
  | skip {done : List Sembuf} {s : System} {sop : Sembuf} (before : Undone info p semid s₀ done s)
      (plain : sop.undoes = false) : Undone info p semid s₀ (sop :: done) s
  | adjust {done : List Sembuf} {s s' : System} {sop : Sembuf} (before : Undone info p semid s₀ done s)
      (undoes : sop.undoes = true) (adjusts : Adjusts info p semid sop.num (-sop.op) s s') :
      Undone info p semid s₀ (sop :: done) s'

/-- Nothing else was changed. -/
def Frame (s s' : System) : Prop := s' = { s with semu := s'.semu, semuList := s'.semuList }

theorem Frame.trans {s'' : System} (first : Frame s s') (second : Frame s' s'') : Frame s s'' := by
  rw [Frame] at first second ⊢
  rw [second, first]

theorem Undone.ok (undone : Undone info p semid s₀ done s) : UndoOk info s.semu s.semuList := by
  induction undone with
  | nil ok => exact ok
  | skip before plain ih => exact ih
  | adjust before undoes adjusts ih => exact adjusts.ok

theorem Undone.frame (undone : Undone info p semid s₀ done s) : Frame s₀ s := by
  induction undone with
  | nil ok => exact rfl
  | skip before plain ih => exact ih
  | adjust before undoes adjusts ih => exact ih.trans adjusts.frame

theorem Undone.others (undone : Undone info p semid s₀ done s) {q : Proc} (different : q ≠ p) :
    entries s q = entries s₀ q := by
  induction undone with
  | nil ok => rfl
  | skip before plain ih => exact ih
  | adjust before undoes adjusts ih => exact (adjusts.others q different).trans ih

theorem Undone.names (undone : Undone info p semid s₀ done s) :
    ∀ u ∈ entries s p, u ∈ entries s₀ p ∨ ∃ sop ∈ done, u.Names semid sop.num := by
  induction undone with
  | nil ok => exact fun u member => .inl member
  | skip before plain ih =>
      intro u member
      obtain old | ⟨sop, sopMem, names⟩ := ih u member
      · exact .inl old
      · exact .inr ⟨sop, List.mem_cons_of_mem _ sopMem, names⟩
  | adjust before undoes adjusts ih =>
      intro u member
      obtain mine | old := adjusts.names u member
      · exact .inr ⟨_, List.mem_cons_self, mine⟩
      · obtain older | ⟨sop, sopMem, names⟩ := ih u old
        · exact .inl older
        · exact .inr ⟨sop, List.mem_cons_of_mem _ sopMem, names⟩

/-- All adjustments together. -/
theorem Undone.mine (undone : Undone info p semid s₀ done s) (id : Nat) (num : BitVec 16) :
    total id num (entries s p) = total id num (entries s₀ p) - if id = semid then netUndo num done else 0 := by
  induction undone with
  | nil ok => simp [netUndo]
  | skip before plain ih =>
      rw [ih, netUndo, plain]
      simp
  | @adjust done s s' sop before undoes adjusts ih =>
      rw [adjusts.mine, ih, netUndo]
      by_cases set : id = semid
      · by_cases here : sop.num = num
        · rw [if_pos set, if_pos ⟨set, here.symm⟩, if_pos set, if_pos ⟨undoes, here⟩]
          ring
        · rw [if_pos set, if_neg fun both => here both.2.symm, if_pos set, if_neg fun both => here both.2]
          ring
      · rw [if_neg set, if_neg fun both => set both.1, if_neg set, add_zero]

/-- The adjustments are the same. -/
def SameTotals (s s' : System) : Prop := ∀ q id num, total id num (entries s' q) = total id num (entries s q)

/-- The adjustments are taken back in the reverse order: there is room for each. -/
theorem redoOps_spec (undone : Undone info p semid s₀ done s) (ok : UndoOk info t.semu t.semuList) (same : SameTotals s t)
    (known : (∀ sop ∈ done, sop.undoes = false) ∨ suptr = findUndo p t ∧ suptr.isSome)
    (small : ∀ sop ∈ done, sop.num.toNat < 2 ^ 15) :
    ∃ t', redoOps info p semid done suptr t = some t' ∧ Frame t t' ∧ UndoOk info t'.semu t'.semuList ∧ SameTotals s₀ t' := by
  induction undone generalizing t suptr with
  | nil ok₀ => exact ⟨t, rfl, rfl, ok, same⟩
  | @skip done s sop before plain ih =>
      rw [redoOps, plain]
      refine ih ok same (known.imp_left fun none sop member => none sop (List.mem_cons_of_mem _ member)) ?_
      exact fun sop member => small sop (List.mem_cons_of_mem _ member)
  | @adjust done s s' sop before undoes adjusts ih =>
      obtain none | ⟨found, some⟩ := known
      · rw [none sop List.mem_cons_self] at undoes
        cases undoes
      · have nonzero : sop.op ≠ 0 := by
          rw [Sembuf.undoes, Bool.and_eq_true, decide_eq_true_iff] at undoes
          exact undoes.2
        have num := ofNat_toNat sop.num
        obtain ⟨t₁, suptr', eval, outcome, succeeds, fails⟩ :=
          @semundoAdjust_spec semid sop.num.toNat sop.op info t p suptr ok (.inr found) (small sop List.mem_cons_self) nonzero
        rw [num] at succeeds fails
        cases eval with
        | none =>
            obtain ⟨found', some', adjusts'⟩ := succeeds rfl
            have same₁ : SameTotals s t₁ := by
              intro q id num
              by_cases mine : q = p
              · rw [mine, adjusts'.mine, same p, adjusts.mine]
                by_cases here : id = semid ∧ num = sop.num
                · rw [if_pos here, if_pos here, neg_add_cancel_right]
                · rw [if_neg here, if_neg here, add_zero, add_zero]
              · rw [adjusts'.others q mine, same q, adjusts.others q mine]
            obtain ⟨t', outcome', frame, ok', same'⟩ := ih adjusts'.ok same₁ (.inr ⟨found', some'⟩)
              fun sop member => small sop (List.mem_cons_of_mem _ member)
            refine ⟨t', ?_, Frame.trans adjusts'.frame frame, ok', same'⟩
            rw [redoOps, if_pos undoes, outcome]
            exact outcome'
        | some eval =>
            -- there was an entry for the semaphore before the adjustment, so that there is room for it
            obtain ⟨-, -, zero, full⟩ := (fails (by simp)).2.2 some
            obtain ⟨beforeOk, fits⟩ := entries_ok before.ok p
            have length := (entries_ok ok p).1.length_of_total beforeOk (neg_ne_zero.mpr nonzero)
              (fun id num => (same p id num).trans (adjusts.mine id num)) zero
            omega

/-- The adjustments of a call are made, or none is. -/
theorem undoOps_spec (undone : Undone info p semid s₀ done s)
    (known : suptr = none ∧ (∀ sop ∈ done, sop.undoes = false) ∨ suptr = findUndo p s ∧ suptr.isSome)
    (small : ∀ sop ∈ rest, sop.num.toNat < 2 ^ 15) (smallDone : ∀ sop ∈ done, sop.num.toNat < 2 ^ 15) :
    ∃ s' eval, undoOps info p semid rest done suptr s = some (s', eval) ∧
      (eval = none → Undone info p semid s₀ (rest.reverse ++ done) s') ∧
      (eval ≠ none → Frame s₀ s' ∧ UndoOk info s'.semu s'.semuList ∧ SameTotals s₀ s') := by
  induction rest generalizing done s suptr with
  | nil => exact ⟨s, none, rfl, fun _ => undone, fun some => absurd rfl some⟩
  | cons sop rest ih =>
      have later : ∀ sop ∈ rest, sop.num.toNat < 2 ^ 15 := fun sop member => small sop (List.mem_cons_of_mem _ member)
      have mine := small sop List.mem_cons_self
      have smallDone' : ∀ sop' ∈ sop :: done, sop'.num.toNat < 2 ^ 15 := List.forall_mem_cons.mpr ⟨mine, smallDone⟩
      rw [undoOps, List.reverse_cons, List.append_assoc, List.singleton_append]
      cases undoes : sop.undoes with
      | false =>
          simp only [Bool.false_eq_true, if_false]
          refine ih (.skip undone undoes) (known.imp_left fun none => ⟨none.1, ?_⟩) later smallDone'
          exact List.forall_mem_cons.mpr ⟨undoes, none.2⟩
      | true =>
          have nonzero : sop.op ≠ 0 := by
            rw [Sembuf.undoes, Bool.and_eq_true, decide_eq_true_iff] at undoes
            exact undoes.2
          have num := ofNat_toNat sop.num
          obtain ⟨s₁, suptr', eval, outcome, succeeds, fails⟩ :=
            @semundoAdjust_spec semid sop.num.toNat (-sop.op) info s p suptr undone.ok (known.imp And.left And.left) mine
              (neg_ne_zero.mpr nonzero)
          rw [num] at succeeds fails
          rw [if_pos rfl, outcome]
          cases eval with
          | none =>
              obtain ⟨found, some, adjusts⟩ := succeeds rfl
              exact ih (.adjust undone undoes adjusts) (.inr ⟨found, some⟩) later smallDone'
          | some eval =>
              obtain ⟨adjusts, -, room⟩ := fails (by simp)
              have same : SameTotals s s₁ := by
                intro q id num
                by_cases mine : q = p
                · rw [mine, adjusts.mine, ite_self, add_zero]
                · rw [adjusts.others q mine]
              have known' : (∀ sop ∈ done, sop.undoes = false) ∨ suptr' = findUndo p s₁ ∧ suptr'.isSome :=
                known.imp And.right fun known => ⟨(room known.2).2.1, (room known.2).1⟩
              obtain ⟨t', outcome', frame, ok', same'⟩ := redoOps_spec undone adjusts.ok same known' smallDone
              refine ⟨t', some eval, ?_, nofun, fun _ => ⟨?_, ok', same'⟩⟩
              · simp only [outcome', Option.map_some]
              · exact (undone.frame.trans adjusts.frame).trans frame

/-! ## A pass -/

variable {id : BitVec 32} {doUndos : Bool} {out : Outcome}

/-- The loop over the operations, from its beginning. -/
def firstTry (id : BitVec 32) (sops : List Sembuf) (doUndos : Bool) (s : System) : Stop × Progress :=
  tryOps (s.sema (ipcidToIx id)) sops { i := 0, sem := s.sem, doWakeup := false, doUndos := doUndos }

/-- `sempid` is set in the semaphores of the operations. -/
def setPids (p : Proc) (d : SemidDs) (sops : List Sembuf) (sem : Nat → Semaphore) : Nat → Semaphore :=
  sops.foldl (fun sem sop => Function.update sem (d.place sop) { sem (d.place sop) with sempid := p }) sem

theorem setPids_apply (p : Proc) (d : SemidDs) (sops : List Sembuf) (sem : Nat → Semaphore) (x : Nat) :
    ∃ pid, setPids p d sops sem x = { sem x with sempid := pid } := by
  induction sops generalizing sem with
  | nil => exact ⟨(sem x).sempid, rfl⟩
  | cons sop rest ih =>
      obtain ⟨pid, same⟩ := ih (Function.update sem (d.place sop) { sem (d.place sop) with sempid := p })
      refine ⟨pid, ?_⟩
      show setPids p d rest _ x = _
      rw [same]
      by_cases here : x = d.place sop
      · rw [here, Function.update_self]
      · rw [Function.update_of_ne here]

/-- What a pass through the loop of `semop` does. -/
inductive Passed (info : Seminfo) (p : Proc) (id : BitVec 32) (sops : List Sembuf) (doUndos : Bool) (s : System) :
    System → Outcome → Prop where
  /-- all operations are done -/
  | done {s₁ : System} (allowed : Allowed (s.sema (ipcidToIx id)) sops s.sem)
      (undone : Undone info p (ipcidToIx id) { s with sem := perform (s.sema (ipcidToIx id)) sops s.sem } sops.reverse s₁) :
      Passed info p id sops doUndos s
        (if (firstTry id sops doUndos s).2.doWakeup then
          wakeup (ipcidToIx id) { s₁ with sem := setPids p (s.sema (ipcidToIx id)) sops s₁.sem }
        else { s₁ with sem := setPids p (s.sema (ipcidToIx id)) sops s₁.sem })
        (.returned none)
  /-- there is no room for the adjustments -/
  | full {s₁ : System} (eval : Errno) (allowed : Allowed (s.sema (ipcidToIx id)) sops s.sem) (frame : Frame s s₁)
      (ok : UndoOk info s₁.semu s₁.semuList) (same : SameTotals s s₁) :
      Passed info p id sops doUndos s s₁ (.returned (some eval))
  /-- an operation is out of range -/
  | efbig {k : Nat} {sop : Sembuf} (here : sops[k]? = some sop) (outside : (s.sema (ipcidToIx id)).nsems ≤ sop.num)
      (allowed : Allowed (s.sema (ipcidToIx id)) (sops.take k) s.sem) :
      Passed info p id sops doUndos s { s with sem := perform (s.sema (ipcidToIx id)) (sops.take k) s.sem }
        (.returned (some .EFBIG))
  /-- an operation is not possible, and the call does not wait -/
  | again {k : Nat} {sop : Sembuf} (here : sops[k]? = some sop) (inside : sop.num < (s.sema (ipcidToIx id)).nsems)
      (allowed : Allowed (s.sema (ipcidToIx id)) (sops.take k) s.sem)
      (not : ¬Permitted sop (perform (s.sema (ipcidToIx id)) (sops.take k) s.sem ((s.sema (ipcidToIx id)).place sop)).semval) :
      Passed info p id sops doUndos s s (.returned (some .EAGAIN))
  /-- an operation is not possible, and the call sleeps -/
  | slept {k : Nat} {sop : Sembuf} {undos : Bool} (here : sops[k]? = some sop) (waits : sop.nowait = false)
      (inside : sop.num < (s.sema (ipcidToIx id)).nsems) (allowed : Allowed (s.sema (ipcidToIx id)) (sops.take k) s.sem)
      (not : ¬Permitted sop (perform (s.sema (ipcidToIx id)) (sops.take k) s.sem ((s.sema (ipcidToIx id)).place sop)).semval) :
      Passed info p id sops doUndos s
        { s with
          sem := Function.update s.sem ((s.sema (ipcidToIx id)).place sop)
            (countWaiter sop 1 (s.sem ((s.sema (ipcidToIx id)).place sop)))
          sleepers :=
            { proc := p, id := id, sops := sops, sop := sop, semptr := (s.sema (ipcidToIx id)).place sop, doUndos := undos
              woken := false } :: s.sleepers }
        .slept

/-- No adjustment is to be made. -/
theorem Undone.of_plain (ok : UndoOk info s.semu s.semuList) (plain : ∀ sop ∈ done, sop.undoes = false) :
    Undone info p semid s done s := by
  induction done with
  | nil => exact .nil ok
  | cons sop done ih =>
      exact .skip (ih fun other member => plain other (List.mem_cons_of_mem _ member)) (plain sop List.mem_cons_self)

theorem Allowed.inside (allowed : Allowed d sops sem) : ∀ sop ∈ sops, sop.num < d.nsems := by
  induction sops generalizing sem with
  | nil => nofun
  | cons sop rest ih => exact List.forall_mem_cons.mpr ⟨allowed.1, ih allowed.2.2⟩

/-- The part behind `donex`. -/
theorem finish_spec {semid : Nat} {wake undos : Bool} (ok : UndoOk info s.semu s.semuList)
    (small : ∀ sop ∈ sops, sop.num.toNat < 2 ^ 15) (plain : undos = false → ∀ sop ∈ sops, sop.undoes = false) :
    (∃ s₁, Undone info p semid s sops.reverse s₁ ∧
      finish info p semid sops wake undos s = some
        (if wake then wakeup semid { s₁ with sem := setPids p (s.sema semid) sops s₁.sem }
          else { s₁ with sem := setPids p (s.sema semid) sops s₁.sem }, .returned none)) ∨
      ∃ s₁ eval, Frame s s₁ ∧ UndoOk info s₁.semu s₁.semuList ∧ SameTotals s s₁ ∧
        finish info p semid sops wake undos s =
          some ({ s₁ with sem := rollback (s₁.sema semid) sops s₁.sem }, .returned (some eval)) := by
  rw [finish]
  cases undos with
  | false =>
      refine .inl ⟨s, .of_plain ok fun sop member => plain rfl sop (List.mem_reverse.mp member), rfl⟩
  | true =>
      obtain ⟨s₁, eval, outcome, succeeds, fails⟩ :=
        @undoOps_spec [] sops semid info p s s none (.nil ok) (.inl ⟨rfl, nofun⟩) small nofun
      rw [if_pos rfl, outcome]
      cases eval with
      | none =>
          have undone := succeeds rfl
          rw [List.append_nil] at undone
          have sema : s₁.sema semid = s.sema semid := by rw [undone.frame]
          rw [← sema]
          exact .inl ⟨s₁, undone, rfl⟩
      | some eval =>
          obtain ⟨frame, ok', same⟩ := fails (by simp)
          exact .inr ⟨s₁, eval, frame, ok', same, rfl⟩

/-- A pass does not panic. -/
theorem semopPass_spec (ok : UndoOk info s.semu s.semuList) (small : (s.sema (ipcidToIx id)).nsems.toNat ≤ 2 ^ 15)
    (p : Proc) (sops : List Sembuf) (doUndos : Bool) :
    ∃ s' out, semopPass info p id sops doUndos s = some (s', out) ∧ Passed info p id sops doUndos s s' out := by
  obtain ⟨stop, r, k, outcome, ends, count, same, undos⟩ :=
    tryOps_spec (s.sema (ipcidToIx id)) sops { i := 0, sem := s.sem, doWakeup := false, doUndos := doUndos }
  have count : r.i = k := count.trans (Nat.zero_add k)
  rw [semopPass]
  simp only [outcome]
  have first : firstTry id sops doUndos s = (stop, r) := outcome
  cases stop with
  | through =>
      have whole : sops.take k = sops := by rw [ends.through rfl, List.take_length]
      have allowed := ends.allowed
      rw [whole] at same allowed undos
      have room : ∀ sop ∈ sops, sop.num.toNat < 2 ^ 15 := by
        intro sop member
        have inside : sop.num.toNat < (s.sema (ipcidToIx id)).nsems.toNat := allowed.inside sop member
        omega
      have ok' : UndoOk info ({ s with sem := r.sem } : System).semu ({ s with sem := r.sem } : System).semuList := ok
      obtain ⟨s₁, undone, result⟩ | ⟨s₁, eval, frame, okF, totals, result⟩ :=
        @finish_spec sops info p _ (ipcidToIx id) r.doWakeup r.doUndos ok' room fun off => (undos off).2
      · refine ⟨_, _, result, ?_⟩
        rw [show r.doWakeup = (firstTry id sops doUndos s).2.doWakeup by rw [first]]
        rw [same] at undone
        exact .done allowed undone
      · refine ⟨_, _, result, ?_⟩
        have restored : ({ s₁ with sem := rollback (s₁.sema (ipcidToIx id)) sops s₁.sem } : System) =
            { s with semu := s₁.semu, semuList := s₁.semuList } := by
          rw [frame]
          simp only [same, rollback_perform]
        rw [restored]
        exact .full eval allowed rfl okF totals
  | efbig =>
      obtain ⟨sop, here, outside⟩ := ends.efbig rfl
      refine ⟨_, _, rfl, ?_⟩
      rw [same]
      exact .efbig here outside ends.allowed
  | blocked sop =>
      obtain ⟨here, inside, not⟩ := ends.blocked sop rfl
      have back : rollback (s.sema (ipcidToIx id)) (sops.take r.i) r.sem = s.sem := by
        rw [count, same, rollback_perform]
      simp only [back]
      cases waits : sop.nowait with
      | true => exact ⟨_, _, rfl, .again here inside ends.allowed not⟩
      | false => exact ⟨_, _, rfl, .slept here waits inside ends.allowed not⟩

instance (sop : Sembuf) (semval : BitVec 16) : Decidable (Permitted sop semval) := inferInstanceAs (Decidable (_ ∧ _))

/-! ## A call -/

/-- The values and the entries of every process are the same. -/
def Unchanged (s s' : System) : Prop :=
  (∀ x, (s'.sem x).semval = (s.sem x).semval) ∧ ∀ q, (entries s q).Perm (entries s' q)

/-- All operations were possible in turn and were done together, with their adjustments. -/
def AllDone (p : Proc) (id : BitVec 32) (sops : List Sembuf) (s s' : System) : Prop :=
  Allowed (s.sema (ipcidToIx id)) sops s.sem ∧
    (∀ x, (s'.sem x).semval = (s.sem x).semval + net (s.sema (ipcidToIx id)) x sops) ∧
    (∀ q, q ≠ p → entries s' q = entries s q) ∧
    ∀ ix num, total ix num (entries s' p) =
      total ix num (entries s p) - if ix = ipcidToIx id then netUndo num sops else 0

/-- A call that returns 0 has done everything, and one that returns an error or sleeps nothing. -/
def Atomic (p : Proc) (id : BitVec 32) (sops : List Sembuf) (s s' : System) : Outcome → Prop
  | .returned none => AllDone p id sops s s'
  | .returned (some _) => Unchanged s s'
  | .slept => Unchanged s s'

/-- The loop comes to an operation that is out of range, and those in front of it have changed
something. -/
def Overruns (d : SemidDs) (sops : List Sembuf) (sem : Nat → Semaphore) : Prop :=
  ∃ k sop, sops[k]? = some sop ∧ d.nsems ≤ sop.num ∧ Allowed d (sops.take k) sem ∧ ∃ x, net d x (sops.take k) ≠ 0

theorem allowed_congr {sem' : Nat → Semaphore} (same : ∀ x, (sem' x).semval = (sem x).semval) (allowed : Allowed d sops sem) :
    Allowed d sops sem' := by
  induction sops generalizing sem sem' with
  | nil => trivial
  | cons sop rest ih =>
      refine ⟨allowed.1, ?_, ih ?_ allowed.2.2⟩
      · rw [same]
        exact allowed.2.1
      · intro x
        rw [perform_apply, perform_apply, addVal, addVal]
        show (sem' x).semval + _ = (sem x).semval + _
        rw [same]

theorem Overruns.congr {sem' : Nat → Semaphore} (same : ∀ x, (sem' x).semval = (sem x).semval) (overruns : Overruns d sops sem) :
    Overruns d sops sem' := by
  obtain ⟨k, sop, here, outside, allowed, changed⟩ := overruns
  exact ⟨k, sop, here, outside, allowed_congr same allowed, changed⟩

theorem Unchanged.of_frame (frame : Frame s s') (ok : UndoOk info s.semu s.semuList) (ok' : UndoOk info s'.semu s'.semuList)
    (same : SameTotals s s') : Unchanged s s' := by
  refine ⟨fun x => by rw [frame], fun q => ?_⟩
  exact (entries_ok ok q).1.perm_of_total (entries_ok ok' q).1 fun id num => (same q id num).symm

/-- The loop goes through all operations, or ends at one that is not possible: it does not come to
one that is out of range. -/
theorem not_overruns_of_allowed (allowed : Allowed d sops sem) : ¬Overruns d sops sem := by
  rintro ⟨k, sop, here, outside, -⟩
  exact BitVec.not_le.mpr (allowed.inside sop (List.mem_of_getElem? here)) outside

theorem not_overruns_of_blocked (here : sops[k]? = some sop) (inside : sop.num < d.nsems) (allowed : Allowed d (sops.take k) sem)
    (not : ¬Permitted sop (perform d (sops.take k) sem (d.place sop)).semval) : ¬Overruns d sops sem := by
  rintro ⟨j, other, there, outside, before, -⟩
  obtain less | rfl | more := Nat.lt_trichotomy j k
  · exact BitVec.not_le.mpr (allowed.at_index less there).1 outside
  · rw [here] at there
    cases there
    exact BitVec.not_le.mpr inside outside
  · exact not (before.at_index more here).2

/-- A pass is atomic exactly if it does not come too late to an operation that is out of range. -/
theorem Passed.atomic_iff (ok : UndoOk info s.semu s.semuList) (passed : Passed info p id sops doUndos s s' out) :
    Atomic p id sops s s' out ↔ ¬Overruns (s.sema (ipcidToIx id)) sops s.sem := by
  cases passed with
  | @done s₁ allowed undone =>
      refine iff_of_true ?_ (not_overruns_of_allowed allowed)
      have values : ∀ x, (setPids p (s.sema (ipcidToIx id)) sops s₁.sem x).semval =
          (s.sem x).semval + net (s.sema (ipcidToIx id)) x sops := by
        intro x
        obtain ⟨pid, same⟩ := setPids_apply p (s.sema (ipcidToIx id)) sops s₁.sem x
        rw [same, undone.frame]
        exact congrArg Semaphore.semval (perform_apply (s.sema (ipcidToIx id)) sops s.sem x)
      have others : ∀ q, q ≠ p → entries s₁ q = entries s q := fun q different => undone.others different
      have mine : ∀ ix num, total ix num (entries s₁ p) =
          total ix num (entries s p) - if ix = ipcidToIx id then netUndo num sops else 0 := by
        intro ix num
        rw [undone.mine, netUndo_reverse]
        rfl
      split
      · exact ⟨allowed, values, others, mine⟩
      · exact ⟨allowed, values, others, mine⟩
  | full eval allowed frame ok' same =>
      exact iff_of_true (Unchanged.of_frame frame ok ok' same) (not_overruns_of_allowed allowed)
  | @efbig k sop here outside allowed =>
      constructor
      · rintro ⟨values, -⟩ ⟨j, other, there, outside', before, x, changed⟩
        have equal : j = k := by
          obtain less | same | more := Nat.lt_trichotomy j k
          · exact absurd outside' (BitVec.not_le.mpr (allowed.at_index less there).1)
          · exact same
          · exact absurd outside (BitVec.not_le.mpr (before.at_index more here).1)
        have value := values x
        rw [show ({ s with sem := perform (s.sema (ipcidToIx id)) (sops.take k) s.sem } : System).sem x = _ from
          perform_apply _ _ _ _] at value
        exact changed (equal ▸ add_eq_left.mp value)
      · intro fits
        refine ⟨fun x => ?_, fun q => List.Perm.refl _⟩
        have zero : net (s.sema (ipcidToIx id)) x (sops.take k) = 0 := by
          by_contra changed
          exact fits ⟨k, sop, here, outside, allowed, x, changed⟩
        show (perform (s.sema (ipcidToIx id)) (sops.take k) s.sem x).semval = _
        rw [perform_apply, zero, addVal_zero]
  | again here inside allowed not =>
      exact iff_of_true ⟨fun x => rfl, fun q => List.Perm.refl _⟩ (not_overruns_of_blocked here inside allowed not)
  | @slept k sop undos here waits inside allowed not =>
      refine iff_of_true ⟨fun x => ?_, fun q => List.Perm.refl _⟩ (not_overruns_of_blocked here inside allowed not)
      show (Function.update s.sem _ _ x).semval = _
      by_cases same : x = (s.sema (ipcidToIx id)).place sop
      · rw [same, Function.update_self, countWaiter]
        split <;> rfl
      · rw [Function.update_of_ne same]

/-- The operations that a step of a call goes through, if it comes to the loop. -/
def attempt (info : Seminfo) (s : System) : Call → Option (Proc × BitVec 32 × List Sembuf)
  | .semop p id sops ipcperm copyin =>
      if ipcidToIx id < info.semmni ∧ exists? id s = true ∧ ipcperm = none ∧ sops.length ≤ maxSops ∧ copyin = none then
        some (p, id, sops)
      else none
  | .resume index interrupted =>
      match s.sleepers[index]? with
      | none => none
      | some w => if w.woken = true ∧ exists? w.id s = true ∧ interrupted = false then some (w.proc, w.id, w.sops) else none
  | _ => none

/-- A step of a call comes to an end, and it is atomic. -/
def AtomicStep (info : Seminfo) (s : System) (call : Call) : Prop :=
  ∃ s' out, step info s call = some (s', out) ∧ ∀ r, out = some r →
    match attempt info s call with
    | none => Unchanged s s'
    | some (p, id, sops) => Atomic p id sops s s' r

theorem unchanged_of_values (values : ∀ x, (s'.sem x).semval = (s.sem x).semval) (same : ∀ q, entries s' q = entries s q) :
    Unchanged s s' :=
  ⟨values, fun q => by rw [same]⟩

theorem countWaiter_semval (sop : Sembuf) (more : BitVec 16) (x : Semaphore) : (countWaiter sop more x).semval = x.semval := by
  rw [countWaiter]
  split <;> rfl

/-- The checks in front of the loop. -/
theorem sysSemop_cases (info : Seminfo) (p : Proc) (id : BitVec 32) (sops : List Sembuf) (ipcperm copyin : Option Errno)
    (s : System) :
    (attempt info s (.semop p id sops ipcperm copyin) = some (p, id, sops) ∧ exists? id s = true ∧ ipcidToIx id < info.semmni ∧
        sysSemop info p id sops ipcperm copyin s = semopPass info p id sops false s) ∨
      attempt info s (.semop p id sops ipcperm copyin) = none ∧
        ∃ eval, sysSemop info p id sops ipcperm copyin s = some (s, .returned (some eval)) := by
  rw [attempt, sysSemop]
  by_cases range : info.semmni ≤ ipcidToIx id
  · rw [if_pos range, if_neg fun all => absurd all.1 (Nat.not_lt.mpr range)]
    exact .inr ⟨rfl, _, rfl⟩
  · rw [if_neg range]
    cases alive : exists? id s with
    | false =>
        rw [if_pos rfl, if_neg fun all => by cases all.2.1]
        exact .inr ⟨rfl, _, rfl⟩
    | true =>
        rw [if_neg (show ¬(true = false) from nofun)]
        cases ipcperm with
        | some eval =>
            rw [if_pos (show some eval ≠ none from nofun), if_neg fun all => nomatch all.2.2.1]
            exact .inr ⟨rfl, _, rfl⟩
        | none =>
            rw [if_neg (show ¬(none : Option Errno) ≠ none from fun some => some rfl)]
            by_cases many : maxSops < sops.length
            · rw [if_pos many, if_neg fun all => absurd all.2.2.2.1 (Nat.not_le.mpr many)]
              exact .inr ⟨rfl, _, rfl⟩
            · rw [if_neg many]
              cases copyin with
              | some eval =>
                  rw [if_pos (show some eval ≠ none from nofun), if_neg fun all => nomatch all.2.2.2.2]
                  exact .inr ⟨rfl, _, rfl⟩
              | none =>
                  rw [if_neg (show ¬(none : Option Errno) ≠ none from fun some => some rfl), if_pos ⟨Nat.not_le.mp range, rfl, rfl, Nat.not_lt.mp many, rfl⟩]
                  exact .inl ⟨rfl, rfl, Nat.not_le.mp range, rfl⟩

/-- A call that has slept, with its waiter counted back. -/
def awake (index : Nat) (w : Sleeper) (s : System) : System :=
  { s with
    sleepers := s.sleepers.eraseIdx index
    sem := Function.update s.sem w.semptr (countWaiter w.sop (-1) (s.sem w.semptr)) }

/-- The checks behind `tsleep`. -/
theorem resume_cases (info : Seminfo) (index : Nat) (interrupted : Bool) (s : System) :
    (attempt info s (.resume index interrupted) = none ∧ step info s (.resume index interrupted) = some (s, none)) ∨
      ∃ w, s.sleepers[index]? = some w ∧ (w.woken || interrupted) = true ∧
        ((attempt info s (.resume index interrupted) = none ∧ exists? w.id s = false ∧
            step info s (.resume index interrupted) =
              some ({ s with sleepers := s.sleepers.eraseIdx index }, some (.returned (some .EIDRM)))) ∨
          (attempt info s (.resume index interrupted) = none ∧ exists? w.id s = true ∧
            step info s (.resume index interrupted) = some (awake index w s, some (.returned (some .EINTR)))) ∨
          attempt info s (.resume index interrupted) = some (w.proc, w.id, w.sops) ∧ exists? w.id s = true ∧
            step info s (.resume index interrupted) =
              (semopPass info w.proc w.id w.sops w.doUndos (awake index w s)).map fun (s, r) => (s, some r)) := by
  rw [attempt, step]
  cases there : s.sleepers[index]? with
  | none => exact .inl ⟨rfl, rfl⟩
  | some w =>
      simp only
      by_cases goes : (w.woken || interrupted) = true
      · refine .inr ⟨w, rfl, goes, ?_⟩
        rw [if_pos goes, resumeSemop]
        have same : exists? w.id { s with sleepers := s.sleepers.eraseIdx index } = exists? w.id s := rfl
        rw [same]
        cases alive : exists? w.id s with
        | false =>
            rw [if_neg fun all => by cases all.2.1]
            exact .inl ⟨rfl, rfl, rfl⟩
        | true =>
            rw [if_neg (show ¬(true = false) from nofun)]
            cases interrupted with
            | true =>
                rw [if_neg fun all => by cases all.2.2]
                exact .inr (.inl ⟨rfl, rfl, rfl⟩)
            | false =>
                rw [Bool.or_false] at goes
                rw [if_pos ⟨goes, rfl, rfl⟩]
                exact .inr (.inr ⟨rfl, rfl, rfl⟩)
      · rw [if_neg goes]
        refine .inl ⟨if_neg ?_, rfl⟩
        rintro ⟨woken, -⟩
        rw [woken] at goes
        exact goes rfl

theorem awake_semval (index : Nat) (w : Sleeper) (s : System) (x : Nat) : ((awake index w s).sem x).semval = (s.sem x).semval := by
  show (Function.update s.sem _ _ x).semval = _
  by_cases same : x = w.semptr
  · rw [same, Function.update_self, countWaiter_semval]
  · rw [Function.update_of_ne same]

/-- A call of `sys_semop`, from its beginning or from where it has slept. -/
def Call.isSemop : Call → Bool
  | .semop .. => true
  | .resume .. => true
  | _ => false

/-- A step of `semop`, in any state with values of any kind and with undo structures that are in
order, does not panic and is all or nothing, exactly if the loop does not come to an operation that
is out of range with something changed by those in front of it. -/
theorem semop_atomic_iff {call : Call} (isSemop : call.isSemop = true) (ok : UndoOk info s.semu s.semuList)
    (small : ∀ ix, (s.sema ix).nsems.toNat ≤ 2 ^ 15) :
    AtomicStep info s call ↔ ∀ p id sops, attempt info s call = some (p, id, sops) →
      ¬Overruns (s.sema (ipcidToIx id)) sops s.sem := by
  -- nothing is changed, and the loop is not reached
  have idle : ∀ s' out, attempt info s call = none → step info s call = some (s', out) → Unchanged s s' →
      (AtomicStep info s call ↔ ∀ p id sops, attempt info s call = some (p, id, sops) →
        ¬Overruns (s.sema (ipcidToIx id)) sops s.sem) := by
    intro s' out none outcome same
    rw [AtomicStep, none]
    exact iff_of_true ⟨s', out, outcome, fun r _ => same⟩ (by rintro _ _ _ ⟨⟩)
  -- the loop is reached, in a state with the same values
  have active : ∀ p id sops doUndos s₁, attempt info s call = some (p, id, sops) →
      step info s call = (semopPass info p id sops doUndos s₁).map (fun (s, r) => (s, some r)) →
      (∀ x, (s₁.sem x).semval = (s.sem x).semval) → s₁.sema = s.sema → s₁.semu = s.semu → s₁.semuList = s.semuList →
      (AtomicStep info s call ↔ ∀ p id sops, attempt info s call = some (p, id, sops) →
        ¬Overruns (s.sema (ipcidToIx id)) sops s.sem) := by
    intro p id sops doUndos s₁ tried outcome values sema semu semuList
    have ok₁ : UndoOk info s₁.semu s₁.semuList := by
      rw [semu, semuList]
      exact ok
    obtain ⟨s', out, result, passed⟩ :=
      semopPass_spec ok₁ (sema ▸ small (ipcidToIx id) : (s₁.sema (ipcidToIx id)).nsems.toNat ≤ 2 ^ 15) p sops doUndos
    rw [result, Option.map_some] at outcome
    have same : ∀ q, entries s₁ q = entries s q := by
      intro q
      rw [entries, entries, findUndo, findUndo, semu, semuList]
    have carry : Atomic p id sops s₁ s' out ↔ Atomic p id sops s s' out := by
      have unchanged : Unchanged s₁ s' ↔ Unchanged s s' := by
        simp only [Unchanged, values, same]
      have back : Allowed (s.sema (ipcidToIx id)) sops s₁.sem ↔ Allowed (s.sema (ipcidToIx id)) sops s.sem :=
        ⟨allowed_congr fun x => (values x).symm, allowed_congr values⟩
      cases out with
      | returned eval =>
          cases eval with
          | none => simp only [Atomic, AllDone, values, same, sema, back]
          | some _ => exact unchanged
      | slept => exact unchanged
    have overruns : Overruns (s₁.sema (ipcidToIx id)) sops s₁.sem ↔ Overruns (s.sema (ipcidToIx id)) sops s.sem := by
      rw [sema]
      exact ⟨Overruns.congr fun x => (values x).symm, Overruns.congr values⟩
    have exact := carry.symm.trans ((passed.atomic_iff ok₁).trans overruns.not)
    rw [AtomicStep, tried, outcome]
    constructor
    · rintro ⟨_, _, ⟨⟩, atomic⟩ _ _ _ ⟨⟩
      exact exact.mp (atomic out rfl)
    · intro fits
      exact ⟨s', some out, rfl, fun r equal => Option.some.inj equal ▸ exact.mpr (fits p id sops rfl)⟩
  cases call with
  | semop p id sops ipcperm copyin =>
      obtain ⟨tried, -, -, outcome⟩ | ⟨none, eval, outcome⟩ := sysSemop_cases info p id sops ipcperm copyin s
      · exact active p id sops false s tried (by rw [step, outcome]) (fun x => rfl) rfl rfl rfl
      · exact idle s _ none (by rw [step, outcome]; rfl) (unchanged_of_values (fun x => rfl) fun q => rfl)
  | resume index interrupted =>
      obtain ⟨none, outcome⟩ | ⟨w, there, -, ⟨none, -, outcome⟩ | ⟨none, -, outcome⟩ | ⟨tried, -, outcome⟩⟩ :=
        resume_cases info index interrupted s
      · exact idle s _ none outcome (unchanged_of_values (fun x => rfl) fun q => rfl)
      · exact idle _ _ none outcome (unchanged_of_values (fun x => rfl) fun q => rfl)
      · exact idle _ _ none outcome (unchanged_of_values (awake_semval index w s) fun q => rfl)
      · exact active w.proc w.id w.sops w.doUndos (awake index w s) tried outcome (awake_semval index w s) rfl rfl rfl
  | semget => cases isSemop
  | semctl => cases isSemop
  | exit => cases isSemop

/-- One set with two semaphores, of values 1 and 0. -/
def twoSemaphores : System :=
  { seminit (fun _ => ⟨false, 0, 0, 0, 0⟩) (fun _ => ⟨0, 0, 0, 0⟩) (fun _ => ⟨none, []⟩) with
    semtot := 2
    sema := fun i => if i = 0 then ⟨true, 0, 1, 2, 0⟩ else ⟨false, 0, 0, 0, 0⟩
    sem := fun i => if i = 0 then ⟨1, 0, 0, 0⟩ else ⟨0, 0, 0, 0⟩ }

theorem twoSemaphores_small (ix : Nat) : (twoSemaphores.sema ix).nsems.toNat ≤ 2 ^ 15 := by
  show (if ix = 0 then (⟨true, 0, 1, 2, 0⟩ : SemidDs) else ⟨false, 0, 0, 0, 0⟩).nsems.toNat ≤ 2 ^ 15
  split <;> decide

/-- A unit is moved from one semaphore to the other, with undos. -/
theorem semop_atomic_move :
    AtomicStep seminfo twoSemaphores
      (.semop 7 0x10000#32 [⟨0, -1, false, true⟩, ⟨1, 1, false, true⟩] none none) := by
  refine (semop_atomic_iff rfl (UndoOk.init seminfo _) twoSemaphores_small).mpr ?_
  rintro p id sops ⟨⟩
  refine not_overruns_of_allowed ⟨by decide, by decide, by decide, ?_, trivial⟩
  decide

/-- The first operation stays done when the second one is out of range. -/
theorem semop_not_atomic :
    UndoOk seminfo twoSemaphores.semu twoSemaphores.semuList ∧
      ¬AtomicStep seminfo twoSemaphores (.semop 7 0x10000#32 [⟨0, -1, false, false⟩, ⟨2, 1, false, false⟩] none none) := by
  refine ⟨UndoOk.init seminfo _, ?_⟩
  rintro ⟨s', out, outcome, atomic⟩
  cases outcome
  have value := (atomic _ rfl).1 0
  revert value
  decide

end Dragonfly.Kern.Sem
