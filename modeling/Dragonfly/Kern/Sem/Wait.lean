import Dragonfly.Kern.Sem.Pool

/-!
# Waiting calls

The counts of a semaphore are the numbers of calls that sleep on it, and a call that has not been
woken sleeps at an operation that is not possible.
-/

namespace Dragonfly.Kern.Sem

open Dragonfly.Lib

variable {info : Seminfo} {s s' : System} {p : Proc} {id : BitVec 32} {d : SemidDs} {sops rest : List Sembuf} {sop : Sembuf}
  {sem sem' : Nat → Semaphore} {w : Sleeper} {semid x k : Nat}

/-! ## Values -/

/-- The sum of operations on a semaphore. -/
def sum (d : SemidDs) (x : Nat) : List Sembuf → Int
  | [] => 0
  | sop :: rest => (if d.place sop = x then sop.op.toInt else 0) + sum d x rest

/-- No value leaves its range. -/
def Fits (d : SemidDs) : List Sembuf → (Nat → Semaphore) → Prop
  | [], _ => True
  | sop :: rest, sem => ((sem (d.place sop)).semval.toNat : Int) + sop.op.toInt < 2 ^ 16 ∧ Fits d rest (perform d [sop] sem)

/-- No operation has a waiter to wake. -/
def Quiet (d : SemidDs) : List Sembuf → (Nat → Semaphore) → Prop
  | [], _ => True
  | sop :: rest, sem =>
      (0 < sop.op.toInt → (sem (d.place sop)).semncnt = 0) ∧
      (sop.op.toInt < 0 → (sem (d.place sop)).semval + sop.op = 0 → (sem (d.place sop)).semzcnt = 0) ∧
      Quiet d rest (perform d [sop] sem)

theorem perform_one (d : SemidDs) (sop : Sembuf) (sem : Nat → Semaphore) :
    perform d [sop] sem x = if d.place sop = x then addVal sop.op (sem x) else sem x := by
  rw [perform_apply, net, net, add_zero]
  split
  · rfl
  · exact addVal_zero _

theorem toNat_add_op {value op : BitVec 16} (low : 0 ≤ (value.toNat : Int) + op.toInt) :
    ((value + op).toNat : Int) ≤ value.toNat + op.toInt ∧
      ((value.toNat : Int) + op.toInt < 2 ^ 16 → ((value + op).toNat : Int) = value.toNat + op.toInt) := by
  have bound := value.isLt
  have opBound := op.isLt
  rw [BitVec.toNat_add]
  rw [BitVec.toInt_eq_toNat_cond] at *
  split at low
  · rename_i small
    rw [if_pos small]
    omega
  · rename_i large
    rw [if_neg large]
    omega

/-- Values do not exceed the sums. -/
theorem Allowed.le_sum (allowed : Allowed d sops sem) (x : Nat) :
    ((perform d sops sem x).semval.toNat : Int) ≤ (sem x).semval.toNat + sum d x sops := by
  induction sops generalizing sem with
  | nil =>
      show ((sem x).semval.toNat : Int) ≤ (sem x).semval.toNat + 0
      omega
  | cons sop rest ih =>
      have later := ih allowed.2.2
      have low := allowed.2.1.1
      rw [perform_one] at later
      rw [sum]
      by_cases here : d.place sop = x
      · rw [here] at low
        rw [if_pos here] at later ⊢
        have step := (toNat_add_op low).1
        have later : ((perform d rest (perform d [sop] sem) x).semval.toNat : Int) ≤
            ((sem x).semval + sop.op).toNat + sum d x rest := later
        show ((perform d rest (perform d [sop] sem) x).semval.toNat : Int) ≤ _
        omega
      · rw [if_neg here] at later ⊢
        show ((perform d rest (perform d [sop] sem) x).semval.toNat : Int) ≤ _
        omega

/-- Values are the sums if they stay in range. -/
theorem Allowed.eq_sum (allowed : Allowed d sops sem) (fits : Fits d sops sem) (x : Nat) :
    ((perform d sops sem x).semval.toNat : Int) = (sem x).semval.toNat + sum d x sops := by
  induction sops generalizing sem with
  | nil =>
      show ((sem x).semval.toNat : Int) = (sem x).semval.toNat + 0
      omega
  | cons sop rest ih =>
      have later := ih allowed.2.2 fits.2
      have low := allowed.2.1.1
      have high := fits.1
      rw [perform_one] at later
      rw [sum]
      by_cases here : d.place sop = x
      · rw [here] at low high
        rw [if_pos here] at later ⊢
        have step := (toNat_add_op low).2 high
        have later : ((perform d rest (perform d [sop] sem) x).semval.toNat : Int) =
            ((sem x).semval + sop.op).toNat + sum d x rest := later
        show ((perform d rest (perform d [sop] sem) x).semval.toNat : Int) = _
        omega
      · rw [if_neg here] at later ⊢
        show ((perform d rest (perform d [sop] sem) x).semval.toNat : Int) = _
        omega

theorem perform_counts (d : SemidDs) (sops : List Sembuf) (sem : Nat → Semaphore) (x : Nat) :
    (perform d sops sem x).semncnt = (sem x).semncnt ∧ (perform d sops sem x).semzcnt = (sem x).semzcnt := by
  rw [perform_apply]
  exact ⟨rfl, rfl⟩

/-- A value with waiters for an increase has not increased. -/
theorem Quiet.not_increased (quiet : Quiet d sops sem) (allowed : Allowed d sops sem) (waiters : (sem x).semncnt ≠ 0) :
    (perform d sops sem x).semval.toNat ≤ (sem x).semval.toNat := by
  induction sops generalizing sem with
  | nil => exact le_refl _
  | cons sop rest ih =>
      have later := ih quiet.2.2 allowed.2.2 (by rw [(perform_counts d [sop] sem x).1]; exact waiters)
      rw [perform_one] at later
      refine later.trans ?_
      by_cases here : d.place sop = x
      · have low := allowed.2.1.1
        have notPositive : ¬0 < sop.op.toInt := fun positive => waiters (here ▸ quiet.1 positive)
        rw [if_pos here]
        rw [here] at low
        have step := (toNat_add_op low).1
        show ((sem x).semval + sop.op).toNat ≤ _
        omega
      · rw [if_neg here]

/-- A value with waiters for zero has not become zero. -/
theorem Quiet.not_zero (quiet : Quiet d sops sem) (allowed : Allowed d sops sem) (fits : Fits d sops sem)
    (waiters : (sem x).semzcnt ≠ 0) (some : (sem x).semval ≠ 0) : (perform d sops sem x).semval ≠ 0 := by
  induction sops generalizing sem with
  | nil => exact some
  | cons sop rest ih =>
      have count : (perform d [sop] sem x).semzcnt ≠ 0 := by
        rw [(perform_counts d [sop] sem x).2]
        exact waiters
      have value : (perform d [sop] sem x).semval ≠ 0 := by
        rw [perform_one]
        by_cases here : d.place sop = x
        · rw [if_pos here]
          have low := allowed.2.1.1
          have high := fits.1
          have still := quiet.2.1
          rw [here] at low high still
          intro zero
          have zero : (sem x).semval + sop.op = 0 := zero
          by_cases negative : sop.op.toInt < 0
          · exact waiters (still negative zero)
          · have step := (toNat_add_op low).2 high
            have positive : (sem x).semval.toNat ≠ 0 := fun none => some (BitVec.eq_of_toNat_eq none)
            rw [zero] at step
            have step : (0 : Int) = (sem x).semval.toNat + sop.op.toInt := step
            omega
        · rw [if_neg here]
          exact some
      exact ih quiet.2.2 allowed.2.2 fits.2 count value

/-- Without a wakeup there was nobody to wake. -/
theorem tryOps_quiet {r r' : Progress} (outcome : tryOps d sops r = (.through, r')) (off : r'.doWakeup = false) :
    r.doWakeup = false ∧ Quiet d sops r.sem := by
  induction sops generalizing r with
  | nil =>
      cases outcome
      exact ⟨off, trivial⟩
  | cons sop rest ih =>
      rw [tryOps] at outcome
      split at outcome
      · cases outcome
      · simp only at outcome
        split at outcome
        · rename_i negative
          split at outcome
          · cases outcome
          · obtain ⟨both, quiet⟩ := ih outcome
            obtain ⟨before, now⟩ := Bool.or_eq_false_iff.mp both
            refine ⟨before, fun positive => absurd negative (by omega), fun _ zero => ?_, quiet⟩
            by_contra some
            exact absurd (decide_eq_false_iff_not.mp now) (not_not.mpr ⟨zero, pos_iff.mpr some⟩)
        · rename_i notNegative
          split at outcome
          · rename_i zero
            split at outcome
            · cases outcome
            · obtain ⟨before, quiet⟩ := ih outcome
              refine ⟨before, fun positive => ?_, fun negative => absurd negative notNegative, ?_⟩
              · rw [zero] at positive
                exact absurd positive (by decide)
              · rw [perform_of_zero zero]
                exact quiet
          · obtain ⟨both, quiet⟩ := ih outcome
            obtain ⟨before, now⟩ := Bool.or_eq_false_iff.mp both
            refine ⟨before, fun positive => ?_, fun negative => absurd negative notNegative, quiet⟩
            by_contra some
            exact absurd (decide_eq_false_iff_not.mp now) (not_not.mpr (pos_iff.mpr some))

/-! ## The invariant -/

/-- One of the counts of a semaphore: of those that wait for zero, or for an increase. -/
def counter (zero : Bool) (x : Semaphore) : BitVec 16 := if zero then x.semzcnt else x.semncnt

/-- A call sleeps on a semaphore of a set that exists, for zero or for an increase. -/
def WaitsFor (s : System) (ix : Nat) (num : BitVec 16) (zero : Bool) (w : Sleeper) : Bool :=
  exists? w.id s && decide (ipcidToIx w.id = ix ∧ w.sop.num = num ∧ decide (w.sop.op = 0) = zero)

/-- The number of calls that sleep on a semaphore. -/
def waiters (s : System) (ix : Nat) (num : BitVec 16) (zero : Bool) : Nat := s.sleepers.countP (WaitsFor s ix num zero)

/-- A call sleeps at an operation that is not possible. -/
def Blocked (d : SemidDs) (sem : Nat → Semaphore) (w : Sleeper) : Prop :=
  ∃ k, w.sops[k]? = some w.sop ∧
    ((w.sop.op.toInt < 0 ∧
        ((sem (d.place w.sop)).semval.toNat : Int) + sum d (d.place w.sop) (w.sops.take k) + w.sop.op.toInt < 0) ∨
      (w.sop.op = 0 ∧ net d (d.place w.sop) (w.sops.take k) = 0 ∧ (sem (d.place w.sop)).semval ≠ 0))

/-- What holds of the sleeping calls in every state of a run. -/
structure Waiting (s : System) : Prop where
  few : s.sleepers.length < 2 ^ 16
  placed : ∀ w ∈ s.sleepers, exists? w.id s = true →
    w.semptr = (s.sema (ipcidToIx w.id)).place w.sop ∧ w.sop.num < (s.sema (ipcidToIx w.id)).nsems
  blocked : ∀ w ∈ s.sleepers, exists? w.id s = true → w.woken = false → Blocked (s.sema (ipcidToIx w.id)) s.sem w
  counted : ∀ ix num zero, (s.sema ix).alloc = true → num < (s.sema ix).nsems →
    counter zero (s.sem ((s.sema ix).base + num.toNat)) = BitVec.ofNat 16 (waiters s ix num zero)

theorem Allowed.take (allowed : Allowed d sops sem) (k : Nat) : Allowed d (sops.take k) sem := by
  induction sops generalizing sem k with
  | nil =>
      rw [List.take_nil]
      exact allowed
  | cons sop rest ih =>
      cases k with
      | zero => trivial
      | succ k => exact ⟨allowed.1, allowed.2.1, ih allowed.2.2 k⟩

/-- A call that is blocked cannot do its operations. -/
theorem Blocked.not_allowed (blocked : Blocked d sem w) : ¬Allowed d w.sops sem := by
  intro allowed
  obtain ⟨k, here, why⟩ := blocked
  have before := allowed.take k
  have whole : Allowed d (w.sops.take w.sops.length) sem := by
    rw [List.take_length]
    exact allowed
  obtain ⟨-, low, zero⟩ := whole.at_index (List.getElem?_eq_some_iff.mp here).1 here
  obtain ⟨-, short⟩ | ⟨none, same, some⟩ := why
  · have most := before.le_sum (d.place w.sop)
    omega
  · have value := zero none
    rw [perform_apply, same, addVal_zero] at value
    exact some value

theorem counter_countWaiter (zero : Bool) (sop : Sembuf) (more : BitVec 16) (x : Semaphore) :
    counter zero (countWaiter sop more x) = counter zero x + if decide (sop.op = 0) = zero then more else 0 := by
  rw [countWaiter]
  by_cases none : sop.op = 0
  · rw [if_pos none, decide_eq_true none]
    cases zero with
    | true => rfl
    | false => exact (add_zero x.semncnt).symm
  · rw [if_neg none, decide_eq_false none]
    cases zero with
    | true => exact (add_zero x.semzcnt).symm
    | false => rfl

theorem exists?_congr (sema : s'.sema = s.sema) (id : BitVec 32) : exists? id s' = exists? id s := by
  rw [exists?, exists?, sema]

theorem waitsFor_congr (sema : s'.sema = s.sema) (ix : Nat) (num : BitVec 16) (zero : Bool) :
    WaitsFor s' ix num zero = WaitsFor s ix num zero := by
  funext w
  rw [WaitsFor, WaitsFor, exists?_congr sema]

/-- Semaphores of different sets are different. -/
theorem PoolOk.place_ne (pool : PoolOk info s) {ix jx : Nat} {num num' : BitVec 16} (alloc : (s.sema ix).alloc = true)
    (alloc' : (s.sema jx).alloc = true) (bound : num < (s.sema ix).nsems) (bound' : num' < (s.sema jx).nsems)
    (different : ix ≠ jx ∨ num ≠ num') : (s.sema ix).base + num.toNat ≠ (s.sema jx).base + num'.toNat := by
  have bound : num.toNat < (s.sema ix).nsems.toNat := bound
  have bound' : num'.toNat < (s.sema jx).nsems.toNat := bound'
  by_cases same : ix = jx
  · subst same
    intro equal
    exact different.elim (absurd rfl) fun other => other (BitVec.eq_of_toNat_eq (by omega))
  · have apart := pool.apart ix jx alloc alloc' same
    omega

/-- Values change and calls are woken. -/
theorem Waiting.change (waiting : Waiting s) (sema : s'.sema = s.sema) (mark : Sleeper → Prop) [DecidablePred mark]
    (sleepers : s'.sleepers = s.sleepers.map fun w => if mark w then { w with woken := true } else w)
    (counts : ∀ x zero, counter zero (s'.sem x) = counter zero (s.sem x))
    (still : ∀ w ∈ s.sleepers, exists? w.id s = true → w.woken = false → ¬mark w → Blocked (s.sema (ipcidToIx w.id)) s.sem w →
      Blocked (s.sema (ipcidToIx w.id)) s'.sem w) : Waiting s' := by
  have old : ∀ w' ∈ s'.sleepers, ∃ w ∈ s.sleepers, w'.id = w.id ∧ w'.sop = w.sop ∧ w'.sops = w.sops ∧ w'.semptr = w.semptr ∧
      (w'.woken = false → w' = w ∧ ¬mark w) := by
    intro w' member
    rw [sleepers] at member
    obtain ⟨w, wMem, rfl⟩ := List.mem_map.mp member
    refine ⟨w, wMem, ?_⟩
    by_cases marked : mark w
    · rw [if_pos marked]
      exact ⟨rfl, rfl, rfl, rfl, nofun⟩
    · rw [if_neg marked]
      exact ⟨rfl, rfl, rfl, rfl, fun _ => ⟨rfl, marked⟩⟩
  constructor
  · rw [sleepers, List.length_map]
    exact waiting.few
  · intro w' member alive
    obtain ⟨w, wMem, sameId, sameSop, -, samePtr, -⟩ := old w' member
    rw [exists?_congr sema, sameId] at alive
    rw [samePtr, sameSop, sameId, sema]
    exact waiting.placed w wMem alive
  · intro w' member alive asleep
    obtain ⟨w, wMem, -, -, -, -, unmarked⟩ := old w' member
    obtain ⟨rfl, notMarked⟩ := unmarked asleep
    rw [exists?_congr sema] at alive
    rw [sema]
    exact still w' wMem alive asleep notMarked (waiting.blocked w' wMem alive asleep)
  · intro ix num zero alloc bound
    rw [sema] at alloc bound ⊢
    rw [counts, waiting.counted ix num zero alloc bound, waiters, waiters, sleepers, List.countP_map, waitsFor_congr sema]
    congr 2
    funext w
    show WaitsFor s ix num zero w = WaitsFor s ix num zero (if mark w then { w with woken := true } else w)
    split <;> rfl

/-- A call goes to sleep. -/
theorem Waiting.sleep (pool : PoolOk info s) (waiting : Waiting s) (alive : exists? w.id s = true)
    (room : s.sleepers.length + 1 < 2 ^ 16) (ptr : w.semptr = (s.sema (ipcidToIx w.id)).place w.sop)
    (inside : w.sop.num < (s.sema (ipcidToIx w.id)).nsems) (blocked : Blocked (s.sema (ipcidToIx w.id)) s.sem w) :
    Waiting
      { s with
        sem := Function.update s.sem w.semptr (countWaiter w.sop 1 (s.sem w.semptr))
        sleepers := w :: s.sleepers } := by
  have alloc := exists?_alloc alive
  have values : ∀ x, (Function.update s.sem w.semptr (countWaiter w.sop 1 (s.sem w.semptr)) x).semval = (s.sem x).semval := by
    intro x
    by_cases here : x = w.semptr
    · rw [here, Function.update_self, countWaiter_semval]
    · rw [Function.update_of_ne here]
  have same : ∀ v, Blocked (s.sema (ipcidToIx v.id)) s.sem v → Blocked (s.sema (ipcidToIx v.id))
      (Function.update s.sem w.semptr (countWaiter w.sop 1 (s.sem w.semptr))) v := by
    rintro v ⟨k, here, why⟩
    refine ⟨k, here, ?_⟩
    rw [values]
    exact why
  constructor
  · exact room
  · refine List.forall_mem_cons.mpr ⟨fun _ => ⟨ptr, inside⟩, ?_⟩
    exact fun v member aliveV => waiting.placed v member aliveV
  · refine List.forall_mem_cons.mpr ⟨fun _ _ => same w blocked, ?_⟩
    exact fun v member aliveV asleep => same v (waiting.blocked v member aliveV asleep)
  · intro ix num zero allocIx bound
    have before := waiting.counted ix num zero allocIx bound
    have count : waiters { s with sem := Function.update s.sem w.semptr (countWaiter w.sop 1 (s.sem w.semptr)), sleepers := w :: s.sleepers }
        ix num zero = waiters s ix num zero + if WaitsFor s ix num zero w then 1 else 0 := List.countP_cons
    rw [count]
    show counter zero (Function.update s.sem w.semptr (countWaiter w.sop 1 (s.sem w.semptr)) ((s.sema ix).base + num.toNat)) = _
    by_cases mine : ipcidToIx w.id = ix ∧ w.sop.num = num
    · obtain ⟨rfl, rfl⟩ := mine
      have place : (s.sema (ipcidToIx w.id)).base + w.sop.num.toNat = w.semptr := ptr.symm
      rw [place, Function.update_self, counter_countWaiter, ← place, before]
      by_cases kind : decide (w.sop.op = 0) = zero
      · have yes : WaitsFor s (ipcidToIx w.id) w.sop.num zero w = true := by
          rw [WaitsFor, alive, decide_eq_true ⟨rfl, rfl, kind⟩]
          rfl
        rw [if_pos kind, if_pos yes, BitVec.ofNat_add]
        rfl
      · have no : ¬WaitsFor s (ipcidToIx w.id) w.sop.num zero w = true := by
          rw [WaitsFor, alive, Bool.true_and, decide_eq_true_iff]
          exact fun all => kind all.2.2
        rw [if_neg kind, if_neg no, add_zero, add_zero]
    · have other : (s.sema ix).base + num.toNat ≠ w.semptr := by
        rw [ptr]
        refine pool.place_ne allocIx alloc bound inside ?_
        rw [← not_and_or]
        exact fun both => mine ⟨both.1.symm, both.2.symm⟩
      have no : ¬WaitsFor s ix num zero w = true := by
        rw [WaitsFor, alive, Bool.true_and, decide_eq_true_iff]
        exact fun all => mine ⟨all.1, all.2.1⟩
      rw [Function.update_of_ne other, before, if_neg no, add_zero]

/-- A call that was asleep is gone. -/
theorem waiters_erase {index : Nat} (there : s.sleepers[index]? = some w) (ix : Nat) (num : BitVec 16) (zero : Bool) :
    waiters s ix num zero =
      waiters { s with sleepers := s.sleepers.eraseIdx index } ix num zero + if WaitsFor s ix num zero w then 1 else 0 := by
  obtain ⟨bound, rfl⟩ := List.getElem?_eq_some_iff.mp there
  rw [waiters, ← (List.getElem_cons_eraseIdx_perm bound).countP_eq, List.countP_cons]
  rfl

theorem Waiting.erase_dead {index : Nat} (waiting : Waiting s) (there : s.sleepers[index]? = some w)
    (dead : exists? w.id s = false) : Waiting { s with sleepers := s.sleepers.eraseIdx index } := by
  have subset : ∀ v ∈ s.sleepers.eraseIdx index, v ∈ s.sleepers := fun v member => List.mem_of_mem_eraseIdx member
  constructor
  · exact (List.length_eraseIdx_le _ _).trans_lt waiting.few
  · exact fun v member => waiting.placed v (subset v member)
  · exact fun v member => waiting.blocked v (subset v member)
  · intro ix num zero alloc bound
    have before := waiting.counted ix num zero alloc bound
    rw [waiters_erase there, if_neg (by rw [WaitsFor, dead]; nofun), add_zero] at before
    exact before

/-- A call goes on behind `tsleep`. -/
theorem Waiting.awake {index : Nat} (pool : PoolOk info s) (waiting : Waiting s) (there : s.sleepers[index]? = some w)
    (alive : exists? w.id s = true) : Waiting (awake index w s) := by
  have alloc := exists?_alloc alive
  obtain ⟨ptr, inside⟩ := waiting.placed w (List.mem_of_getElem? there) alive
  have subset : ∀ v ∈ s.sleepers.eraseIdx index, v ∈ s.sleepers := fun v member => List.mem_of_mem_eraseIdx member
  constructor
  · exact (List.length_eraseIdx_le _ _).trans_lt waiting.few
  · exact fun v member => waiting.placed v (subset v member)
  · intro v member aliveV asleep
    obtain ⟨k, here, why⟩ := waiting.blocked v (subset v member) aliveV asleep
    refine ⟨k, here, ?_⟩
    rw [awake_semval]
    exact why
  · intro ix num zero allocIx bound
    have before := waiting.counted ix num zero allocIx bound
    rw [waiters_erase there] at before
    show counter zero (Function.update s.sem w.semptr (countWaiter w.sop (-1) (s.sem w.semptr)) ((s.sema ix).base + num.toNat)) =
      BitVec.ofNat 16 (waiters { s with sleepers := s.sleepers.eraseIdx index } ix num zero)
    by_cases mine : ipcidToIx w.id = ix ∧ w.sop.num = num
    · obtain ⟨rfl, rfl⟩ := mine
      have place : (s.sema (ipcidToIx w.id)).base + w.sop.num.toNat = w.semptr := ptr.symm
      rw [place, Function.update_self, counter_countWaiter, ← place, before]
      by_cases kind : decide (w.sop.op = 0) = zero
      · have yes : WaitsFor s (ipcidToIx w.id) w.sop.num zero w = true := by
          rw [WaitsFor, alive, decide_eq_true ⟨rfl, rfl, kind⟩]
          rfl
        rw [if_pos kind, if_pos yes, BitVec.ofNat_add]
        exact add_neg_cancel_right _ _
      · have no : ¬WaitsFor s (ipcidToIx w.id) w.sop.num zero w = true := by
          rw [WaitsFor, alive, Bool.true_and, decide_eq_true_iff]
          exact fun all => kind all.2.2
        rw [if_neg kind, if_neg no, add_zero, add_zero]
    · have other : (s.sema ix).base + num.toNat ≠ w.semptr := by
        rw [ptr]
        refine pool.place_ne allocIx alloc bound inside ?_
        rw [← not_and_or]
        exact fun both => mine ⟨both.1.symm, both.2.symm⟩
      have no : ¬WaitsFor s ix num zero w = true := by
        rw [WaitsFor, alive, Bool.true_and, decide_eq_true_iff]
        exact fun all => mine ⟨all.1, all.2.1⟩
      rw [Function.update_of_ne other, before, if_neg no, add_zero]

/-! ## A pass -/

variable {doUndos : Bool} {out : Outcome}

theorem Waiting.congr (waiting : Waiting s) (sema : s'.sema = s.sema) (sem : s'.sem = s.sem)
    (sleepers : s'.sleepers = s.sleepers) : Waiting s' := by
  refine waiting.change sema (fun _ => False) ?_ ?_ ?_
  · rw [sleepers]
    simp
  · intro x zero
    rw [sem]
  · intro w member alive asleep unmarked blocked
    rw [sem]
    exact blocked

/-- Operations that are not on a semaphore. -/
theorem net_eq_zero (none : ∀ sop ∈ sops, d.place sop ≠ x) : net d x sops = 0 := by
  induction sops with
  | nil => rfl
  | cons sop rest ih =>
      rw [net, if_neg (none sop List.mem_cons_self), zero_add]
      exact ih fun other member => none other (List.mem_cons_of_mem _ member)

theorem Blocked.mono (blocked : Blocked d sem w)
    (less : w.sop.op ≠ 0 → (sem' (d.place w.sop)).semval.toNat ≤ (sem (d.place w.sop)).semval.toNat)
    (some : w.sop.op = 0 → (sem (d.place w.sop)).semval ≠ 0 → (sem' (d.place w.sop)).semval ≠ 0) : Blocked d sem' w := by
  obtain ⟨k, here, ⟨negative, short⟩ | ⟨zero, same, value⟩⟩ := blocked
  · refine ⟨k, here, .inl ⟨negative, ?_⟩⟩
    have lower := less (by
      intro zero
      rw [zero] at negative
      exact absurd negative (by decide))
    omega
  · exact ⟨k, here, .inr ⟨zero, same, some zero value⟩⟩

/-- A call that sleeps is counted. -/
theorem Waiting.counter_ne_zero (waiting : Waiting s) (member : w ∈ s.sleepers) (alive : exists? w.id s = true) :
    counter (decide (w.sop.op = 0)) (s.sem ((s.sema (ipcidToIx w.id)).place w.sop)) ≠ 0 := by
  obtain ⟨-, inside⟩ := waiting.placed w member alive
  have count := waiting.counted _ _ (decide (w.sop.op = 0)) (exists?_alloc alive) inside
  rw [SemidDs.place, count]
  have positive : 0 < waiters s (ipcidToIx w.id) w.sop.num (decide (w.sop.op = 0)) := by
    refine List.countP_pos_iff.mpr ⟨w, member, ?_⟩
    rw [WaitsFor, alive, decide_eq_true ⟨rfl, rfl, rfl⟩]
    rfl
  have most : waiters s (ipcidToIx w.id) w.sop.num (decide (w.sop.op = 0)) ≤ s.sleepers.length := List.countP_le_length
  have few := waiting.few
  intro zero
  have value := congrArg BitVec.toNat zero
  rw [BitVec.toNat_ofNat, Nat.mod_eq_of_lt (by omega)] at value
  have value : waiters s (ipcidToIx w.id) w.sop.num (decide (w.sop.op = 0)) = 0 := value
  omega

/-- Values of one set change, and its calls are woken. -/
theorem Waiting.touch (pool : PoolOk info s) (waiting : Waiting s) (alloc : (s.sema semid).alloc = true) (sema : s'.sema = s.sema)
    (sleepers : s'.sleepers = s.sleepers) (counts : ∀ x zero, counter zero (s'.sem x) = counter zero (s.sem x))
    (outside : ∀ x, ¬((s.sema semid).base ≤ x ∧ x < (s.sema semid).base + (s.sema semid).nsems.toNat) →
      (s'.sem x).semval = (s.sem x).semval) : Waiting (wakeup semid s') := by
  refine waiting.change sema (fun w => ipcidToIx w.id = semid) ?_ counts ?_
  · show s'.sleepers.map _ = _
    rw [sleepers]
  · intro w member alive asleep unmarked blocked
    obtain ⟨-, inside⟩ := waiting.placed w member alive
    have inside : w.sop.num.toNat < (s.sema (ipcidToIx w.id)).nsems.toNat := inside
    have apart := pool.apart _ _ (exists?_alloc alive) alloc unmarked
    have same : (s'.sem ((s.sema (ipcidToIx w.id)).place w.sop)).semval =
        (s.sem ((s.sema (ipcidToIx w.id)).place w.sop)).semval := by
      refine outside _ ?_
      have place : (s.sema (ipcidToIx w.id)).place w.sop = (s.sema (ipcidToIx w.id)).base + w.sop.num.toNat := rfl
      omega
    refine blocked.mono (fun _ => ?_) (fun _ some => ?_)
    · show (s'.sem _).semval.toNat ≤ _
      rw [same]
    · show (s'.sem _).semval ≠ 0
      rw [same]
      exact some

/-- What a pass must not do for the waiting calls to be woken: change values without doing all
operations, leave the range of values, or wait for zero behind operations on the same semaphore. -/
structure Careful (d : SemidDs) (sops : List Sembuf) (s : System) : Prop where
  complete : ¬Overruns d sops s.sem
  fits : ∀ k, Allowed d (sops.take k) s.sem → Fits d (sops.take k) s.sem
  zero : ∀ k sop, sops[k]? = some sop → sop.op = 0 → sop.nowait = false → Allowed d (sops.take k) s.sem →
    ¬Permitted sop (perform d (sops.take k) s.sem (d.place sop)).semval → net d (d.place sop) (sops.take k) = 0
  room : s.sleepers.length + 1 < 2 ^ 16

/-- All operations are possible: the loop goes through. -/
theorem firstTry_through (allowed : Allowed (s.sema (ipcidToIx id)) sops s.sem) :
    ∃ r, firstTry id sops doUndos s = (.through, r) := by
  obtain ⟨stop, r, k, outcome, ends, -⟩ :=
    tryOps_spec (s.sema (ipcidToIx id)) sops { i := 0, sem := s.sem, doWakeup := false, doUndos := doUndos }
  have whole : Allowed (s.sema (ipcidToIx id)) (sops.take sops.length) s.sem := by
    rw [List.take_length]
    exact allowed
  cases stop with
  | through => exact ⟨r, outcome⟩
  | efbig =>
      obtain ⟨sop, here, beyond⟩ := ends.efbig rfl
      exact absurd beyond (BitVec.not_le.mpr (whole.at_index (List.getElem?_eq_some_iff.mp here).1 here).1)
  | blocked sop =>
      obtain ⟨here, -, not⟩ := ends.blocked sop rfl
      exact absurd (whole.at_index (List.getElem?_eq_some_iff.mp here).1 here).2 not

theorem Waiting.done {s₁ : System} (consistent : Consistent info s) (waiting : Waiting s)
    (alloc : (s.sema (ipcidToIx id)).alloc = true) (careful : Careful (s.sema (ipcidToIx id)) sops s)
    (allowed : Allowed (s.sema (ipcidToIx id)) sops s.sem) (sema : s₁.sema = s.sema) (sleepers : s₁.sleepers = s.sleepers)
    (sem : ∀ x, ∃ pid, s₁.sem x = { perform (s.sema (ipcidToIx id)) sops s.sem x with sempid := pid }) :
    Waiting (if (firstTry id sops doUndos s).2.doWakeup then wakeup (ipcidToIx id) s₁ else s₁) := by
  have values : ∀ x, (s₁.sem x).semval = (perform (s.sema (ipcidToIx id)) sops s.sem x).semval := by
    intro x
    obtain ⟨pid, same⟩ := sem x
    rw [same]
  have counts : ∀ x zero, counter zero (s₁.sem x) = counter zero (s.sem x) := by
    intro x zero
    obtain ⟨pid, same⟩ := sem x
    rw [same, perform_apply]
    cases zero <;> rfl
  have outside : ∀ x, ¬((s.sema (ipcidToIx id)).base ≤ x ∧
      x < (s.sema (ipcidToIx id)).base + (s.sema (ipcidToIx id)).nsems.toNat) → (s₁.sem x).semval = (s.sem x).semval := by
    intro x beyond
    rw [values, perform_apply, net_eq_zero, addVal_zero]
    intro sop member here
    have inside : sop.num.toNat < (s.sema (ipcidToIx id)).nsems.toNat := allowed.inside sop member
    have here : (s.sema (ipcidToIx id)).base + sop.num.toNat = x := here
    omega
  obtain ⟨r, through⟩ := @firstTry_through _ _ _ doUndos allowed
  rw [through]
  cases wake : r.doWakeup with
  | true =>
      simp only [if_true]
      exact waiting.touch consistent.pool alloc sema sleepers counts outside
  | false =>
      simp only [Bool.false_eq_true, if_false]
      have quiet := (tryOps_quiet through wake).2
      have fits : Fits (s.sema (ipcidToIx id)) sops s.sem := by
        have all := careful.fits sops.length
        rw [List.take_length] at all
        exact all allowed
      refine waiting.change sema (fun _ => False) ?_ counts ?_
      · rw [sleepers]
        simp
      · intro w member alive asleep unmarked blocked
        have counted := waiting.counter_ne_zero member alive
        obtain ⟨-, inside⟩ := waiting.placed w member alive
        by_cases mine : ipcidToIx w.id = ipcidToIx id
        · rw [mine] at blocked counted ⊢
          refine blocked.mono (fun some => ?_) (fun none value => ?_)
          · show (s₁.sem _).semval.toNat ≤ _
            rw [values]
            rw [decide_eq_false some] at counted
            exact quiet.not_increased allowed counted
          · show (s₁.sem _).semval ≠ 0
            rw [values]
            rw [decide_eq_true none] at counted
            exact quiet.not_zero allowed fits counted value
        · have inside : w.sop.num.toNat < (s.sema (ipcidToIx w.id)).nsems.toNat := inside
          have apart := consistent.pool.apart _ _ (exists?_alloc alive) alloc mine
          have same : (s₁.sem ((s.sema (ipcidToIx w.id)).place w.sop)).semval =
              (s.sem ((s.sema (ipcidToIx w.id)).place w.sop)).semval := by
            refine outside _ ?_
            have place : (s.sema (ipcidToIx w.id)).place w.sop = (s.sema (ipcidToIx w.id)).base + w.sop.num.toNat := rfl
            omega
          refine blocked.mono (fun _ => ?_) (fun _ some => ?_)
          · show (s₁.sem _).semval.toNat ≤ _
            rw [same]
          · show (s₁.sem _).semval ≠ 0
            rw [same]
            exact some

/-- A pass keeps the invariant. -/
theorem Waiting.passed (consistent : Consistent info s) (waiting : Waiting s) (alive : exists? id s = true)
    (careful : Careful (s.sema (ipcidToIx id)) sops s) (passed : Passed info p id sops doUndos s s' out) : Waiting s' := by
  have alloc := exists?_alloc alive
  cases passed with
  | @done s₁ allowed undone =>
      have frame : s₁.sema = s.sema ∧ s₁.sleepers = s.sleepers ∧ s₁.sem = perform (s.sema (ipcidToIx id)) sops s.sem := by
        rw [undone.frame]
        exact ⟨rfl, rfl, rfl⟩
      obtain ⟨sema, sleepers, sem⟩ := frame
      refine Waiting.done consistent waiting alloc careful allowed sema sleepers ?_
      intro x
      rw [← sem]
      exact setPids_apply p (s.sema (ipcidToIx id)) sops s₁.sem x
  | full eval allowed frame ok same =>
      refine waiting.congr ?_ ?_ ?_
      all_goals rw [frame]
  | @efbig k sop here outside allowed =>
      have same : perform (s.sema (ipcidToIx id)) (sops.take k) s.sem = s.sem := by
        funext x
        have zero : net (s.sema (ipcidToIx id)) x (sops.take k) = 0 := by
          by_contra changed
          exact careful.complete ⟨k, sop, here, outside, allowed, x, changed⟩
        rw [perform_apply, zero, addVal_zero]
      exact waiting.congr rfl same rfl
  | again here inside allowed not => exact waiting
  | @slept k sop undos here waits inside allowed not =>
      refine @Waiting.sleep info s ⟨p, id, sops, sop, (s.sema (ipcidToIx id)).place sop, undos, false⟩
        consistent.pool waiting alive careful.room rfl inside ?_
      have value := allowed.eq_sum (careful.fits k allowed) ((s.sema (ipcidToIx id)).place sop)
      by_cases negative : sop.op.toInt < 0
      · have short : ((s.sem ((s.sema (ipcidToIx id)).place sop)).semval.toNat : Int) +
            sum (s.sema (ipcidToIx id)) ((s.sema (ipcidToIx id)).place sop) (sops.take k) + sop.op.toInt < 0 := by
          by_contra possible
          refine not ⟨by omega, fun zero => ?_⟩
          rw [zero] at negative
          exact absurd negative (by decide)
        exact ⟨k, here, .inl ⟨negative, short⟩⟩
      · have zero : sop.op = 0 := by
          by_contra some
          exact not ⟨by omega, fun zero => absurd zero some⟩
        have same := careful.zero k sop here zero waits allowed not
        refine ⟨k, here, .inr ⟨zero, same, fun none => ?_⟩⟩
        refine not ⟨by omega, fun _ => ?_⟩
        rw [perform_apply, same, addVal_zero]
        exact none

end Dragonfly.Kern.Sem
