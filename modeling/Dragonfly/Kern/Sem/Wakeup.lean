import Mathlib
import Dragonfly.Kern.Sem.Wait

/-!
# Counts and wakeups

In every run without one of a few kinds of steps, the counts of every semaphore are right, and no
call sleeps without need.
-/

namespace Dragonfly.Kern.Sem

open Dragonfly.Lib

variable {info : Seminfo} {s s' : System} {p : Proc} {id : BitVec 32} {w : Sleeper} {semid : Nat}

/-! ## Removal and creation -/

theorem exists?_removed : exists? id (removed info semid s) = (decide (ipcidToIx id ≠ semid) && exists? id s) := by
  rw [exists?, exists?, removed_seq]
  by_cases same : ipcidToIx id = semid
  · have gone : ((removed info semid s).sema (ipcidToIx id)).alloc ≠ true := fun alloc => ((removed_alloc).mp alloc).1 same
    rw [decide_eq_false (not_not.mpr same), Bool.eq_false_iff.mpr gone]
    rfl
  · rw [decide_eq_true same]
    have kept : ((removed info semid s).sema (ipcidToIx id)).alloc = (s.sema (ipcidToIx id)).alloc := by
      rw [Bool.eq_iff_iff, removed_alloc]
      exact and_iff_right same
    rw [kept]
    rfl

/-- A set in front of the one that is removed stays where it is. -/
theorem removed_sema_of_le {ix : Nat} (other : ix ≠ semid) (before : (s.sema ix).base ≤ (s.sema semid).base) :
    (removed info semid s).sema ix = s.sema ix := by
  show (if ix = semid then _ else if _ then _ else s.sema ix) = _
  rw [if_neg other, if_neg]
  exact fun all => absurd all.2.2 (Nat.not_lt.mpr before)

theorem Waiting.removed (pool : PoolOk info s) (waiting : Waiting s) (alloc : (s.sema semid).alloc = true)
    (front : ∀ w ∈ s.sleepers, exists? w.id s = true → (s.sema (ipcidToIx w.id)).base ≤ (s.sema semid).base) :
    Waiting (removed info semid s) := by
  have alive_iff : ∀ w : Sleeper, exists? w.id (Sem.removed info semid s) = true ↔
      ipcidToIx w.id ≠ semid ∧ exists? w.id s = true := by
    intro w
    rw [exists?_removed, Bool.and_eq_true, decide_eq_true_iff]
  constructor
  · exact waiting.few
  · intro w member alive
    obtain ⟨other, old⟩ := (alive_iff w).mp alive
    rw [removed_sema_of_le other (front w member old)]
    exact waiting.placed w member old
  · intro w member alive asleep
    obtain ⟨other, old⟩ := (alive_iff w).mp alive
    have inside := (waiting.placed w member old).2
    have stays := @removed_sema_of_le info _ _ _ other (front w member old)
    have value : (Sem.removed info semid s).sem ((s.sema (ipcidToIx w.id)).place w.sop) =
        s.sem ((s.sema (ipcidToIx w.id)).place w.sop) := by
      have moved := removed_sem pool alloc other (exists?_alloc old) inside
      rw [stays] at moved
      exact moved
    rw [stays]
    refine (waiting.blocked w member old asleep).mono (fun _ => ?_) (fun _ some => ?_)
    · rw [value]
    · rw [value]
      exact some
  · intro ix num zero alloc' bound
    obtain ⟨other, old⟩ := (removed_alloc).mp alloc'
    rw [removed_nsems] at bound
    have same : WaitsFor (Sem.removed info semid s) ix num zero = WaitsFor s ix num zero := by
      funext w
      rw [WaitsFor, WaitsFor, exists?_removed]
      by_cases here : ipcidToIx w.id = ix
      · rw [decide_eq_true (here ▸ other), Bool.true_and]
      · have no : decide (ipcidToIx w.id = ix ∧ w.sop.num = num ∧ decide (w.sop.op = 0) = zero) = false :=
          decide_eq_false fun all => here all.1
        rw [no, Bool.and_false, Bool.and_false]
    rw [removed_sem pool alloc other old bound, waiting.counted ix num zero old bound, waiters, waiters, same]
    rfl

theorem Waiting.created {key nsems : Int} (config : info.semmns ≤ 2 ^ 15) (pool : PoolOk info s) (waiting : Waiting s)
    (found : firstFree info s = some semid) (positive : 0 < nsems) (room : nsems ≤ (info.semmns : Int) - s.semtot)
    (fresh : ∀ w ∈ s.sleepers, ipcidToIx w.id = semid → (((s.sema semid).seq + 1) &&& 0x7fff#16).zeroExtend 32 ≠ ipcidToSeq w.id) :
    Waiting (created semid key nsems s) := by
  have free := (firstFree_eq_some found).2
  have mine : (Sem.created semid key nsems s).sema semid =
      { alloc := true, key := key, seq := ((s.sema semid).seq + 1) &&& 0x7fff#16, nsems := BitVec.ofInt 16 nsems, base := s.semtot } :=
    Function.update_self _ _ _
  have old : ∀ ix, ix ≠ semid → (Sem.created semid key nsems s).sema ix = s.sema ix :=
    fun ix other => Function.update_of_ne other _ _
  have size : (BitVec.ofInt 16 nsems).toNat = nsems.toNat := by
    rw [BitVec.toNat_ofInt]
    omega
  have dead : ∀ w ∈ s.sleepers, ipcidToIx w.id = semid → exists? w.id (Sem.created semid key nsems s) = false := by
    intro w member same
    rw [exists?, same, mine, decide_eq_false (fresh w member same), Bool.and_false]
  have alive_iff : ∀ w ∈ s.sleepers, exists? w.id (Sem.created semid key nsems s) = exists? w.id s := by
    intro w member
    by_cases same : ipcidToIx w.id = semid
    · rw [dead w member same, exists?, same, free]
      rfl
    · rw [exists?, exists?, old _ same]
  have different : ∀ w ∈ s.sleepers, exists? w.id (Sem.created semid key nsems s) = true → ipcidToIx w.id ≠ semid := by
    intro w member alive same
    rw [dead w member same] at alive
    cases alive
  have sem : ∀ x, x < s.semtot → (Sem.created semid key nsems s).sem x = s.sem x :=
    fun x less => if_neg fun all => absurd all.1 (Nat.not_le.mpr less)
  constructor
  · exact waiting.few
  · intro w member alive
    rw [old _ (different w member alive)]
    exact waiting.placed w member (alive_iff w member ▸ alive)
  · intro w member alive asleep
    have was := alive_iff w member ▸ alive
    have inside : w.sop.num.toNat < (s.sema (ipcidToIx w.id)).nsems.toNat := (waiting.placed w member was).2
    have bound := pool.inside _ (exists?_alloc was)
    have value := sem ((s.sema (ipcidToIx w.id)).place w.sop) (by
      show (s.sema (ipcidToIx w.id)).base + w.sop.num.toNat < s.semtot
      omega)
    rw [old _ (different w member alive)]
    refine (waiting.blocked w member was asleep).mono (fun _ => ?_) (fun _ some => ?_)
    · rw [value]
    · rw [value]
      exact some
  · intro ix num zero alloc bound
    have count : waiters (Sem.created semid key nsems s) ix num zero =
        s.sleepers.countP (WaitsFor (Sem.created semid key nsems s) ix num zero) := rfl
    by_cases same : ix = semid
    · subst same
      have none : s.sleepers.countP (WaitsFor (Sem.created ix key nsems s) ix num zero) = 0 := by
        rw [List.countP_eq_zero]
        intro w member
        rw [WaitsFor]
        by_cases here : ipcidToIx w.id = ix
        · rw [dead w member here]
          rintro ⟨⟩
        · rw [decide_eq_false fun all => here all.1, Bool.and_false]
          rintro ⟨⟩
      rw [mine] at bound
      have bound : num.toNat < (BitVec.ofInt 16 nsems).toNat := bound
      have zeroed : (Sem.created ix key nsems s).sem (((Sem.created ix key nsems s).sema ix).base + num.toNat) = ⟨0, 0, 0, 0⟩ := by
        rw [mine]
        refine if_pos ⟨Nat.le_add_right _ _, ?_⟩
        show s.semtot + num.toNat < _
        omega
      rw [count, none, zeroed]
      cases zero <;> rfl
    · rw [old ix same] at alloc bound ⊢
      have less : num.toNat < (s.sema ix).nsems.toNat := bound
      have inside := pool.inside ix alloc
      have counts : s.sleepers.countP (WaitsFor (Sem.created semid key nsems s) ix num zero) = waiters s ix num zero := by
        refine List.countP_congr fun w member => ?_
        rw [WaitsFor, WaitsFor, alive_iff w member]
      rw [sem _ (by omega), waiting.counted ix num zero alloc bound, count, counts]

/-! ## Values -/

theorem Waiting.setval {semnum : Nat} (pool : PoolOk info s) (waiting : Waiting s) (alloc : (s.sema semid).alloc = true)
    (bound : semnum < (s.sema semid).nsems.toNat) (val : BitVec 16) : Waiting (setval semid semnum val s) := by
  refine waiting.touch pool alloc rfl rfl ?_ ?_
  · intro x zero
    show counter zero (Function.update s.sem _ _ x) = _
    by_cases here : x = (s.sema semid).base + semnum
    · rw [here, Function.update_self]
      cases zero <;> rfl
    · rw [Function.update_of_ne here]
  · intro x outside
    show (Function.update s.sem _ _ x).semval = _
    rw [Function.update_of_ne]
    rintro rfl
    omega

theorem Waiting.setall (pool : PoolOk info s) (waiting : Waiting s) (alloc : (s.sema semid).alloc = true)
    (vals : List (BitVec 16)) : Waiting (setall semid vals s) := by
  refine waiting.touch pool alloc rfl rfl ?_ ?_
  · intro x zero
    show counter zero (if _ then _ else s.sem x) = _
    split
    · split
      · rfl
      · cases zero <;> rfl
    · rfl
  · intro x outside
    show (if _ then _ else s.sem x).semval = _
    rw [if_neg outside]

theorem Waiting.exitEnts {ents : List Undo} (pool : PoolOk info s) (waiting : Waiting s) (live : ∀ u ∈ ents, u.Live s)
    (small : ∀ ix, (s.sema ix).alloc = true → (s.sema ix).nsems.toNat ≤ 2 ^ 15) (outcome : exitEnts ents s = some s') :
    Waiting s' := by
  induction ents generalizing s with
  | nil =>
      cases outcome
      exact waiting
  | cons u rest ih =>
      obtain ⟨alloc, bound⟩ := live u List.mem_cons_self
      have size := small u.id alloc
      have value : u.num.toInt = u.num.toNat := by
        rw [BitVec.toInt_eq_toNat_cond, if_pos (by omega)]
      rw [Sem.exitEnts] at outcome
      simp only at outcome
      rw [if_neg (by rw [alloc]; rintro ⟨⟩), if_neg (by rw [value]; omega)] at outcome
      have next : Waiting (wakeup u.id
          { s with
            sem := Function.update s.sem ((s.sema u.id).base + u.num.toInt).toNat
              (exitVal u.adjval (s.sem ((s.sema u.id).base + u.num.toInt).toNat)) }) := by
        refine waiting.touch pool alloc rfl rfl ?_ ?_
        · intro x zero
          show counter zero (Function.update s.sem _ _ x) = _
          by_cases here : x = ((s.sema u.id).base + u.num.toInt).toNat
          · rw [here, Function.update_self, exitVal]
            split
            · cases zero <;> rfl
            · cases zero <;> rfl
          · rw [Function.update_of_ne here]
        · intro x outside
          show (Function.update s.sem _ _ x).semval = _
          rw [Function.update_of_ne]
          rintro rfl
          rw [value] at outside
          omega
      refine ih ?_ next (fun v member => live v (List.mem_cons_of_mem _ member)) small outcome
      exact pool.congr rfl rfl

/-! ## Runs -/

/-- What a step must not do for the counts to stay right and the calls to be woken. -/
def Minds (info : Seminfo) (s : System) : Call → Prop
  | .semop p id sops ipcperm copyin => ∀ q ix ops, attempt info s (.semop p id sops ipcperm copyin) = some (q, ix, ops) →
      Careful (s.sema (ipcidToIx id)) sops s
  | .resume index interrupted => ∀ w, s.sleepers[index]? = some w → ∀ q ix ops,
      attempt info s (.resume index interrupted) = some (q, ix, ops) → Careful (s.sema (ipcidToIx w.id)) w.sops (awake index w s)
  | .semctl id .rmid ipcperm => exists? id s = true → ipcperm = none → ∀ w ∈ s.sleepers, exists? w.id s = true →
      (s.sema (ipcidToIx w.id)).base ≤ (s.sema (ipcidToIx id)).base
  | .semget .. => ∀ w ∈ s.sleepers, firstFree info s = some (ipcidToIx w.id) →
      (((s.sema (ipcidToIx w.id)).seq + 1) &&& 0x7fff#16).zeroExtend 32 ≠ ipcidToSeq w.id
  | _ => True

theorem Waiting.semctl (consistent : Consistent info s) (waiting : Waiting s) {cmd : Cmd} {ipcperm : Option Errno}
    (minds : Minds info s (.semctl id cmd ipcperm)) : Waiting (sysSemctl info id cmd ipcperm s) := by
  rw [sysSemctl.eq_def]
  split
  · exact waiting
  · split
    · exact waiting
    · rename_i dead
      have exist := Bool.not_eq_false _ ▸ dead
      have alive := exists?_alloc exist
      split
      · exact waiting
      · rename_i permitted
        cases cmd with
        | rmid =>
            have removed := Waiting.removed consistent.pool waiting alive (minds exist (not_not.mp permitted))
            refine removed.change rfl (fun w => ipcidToIx w.id = ipcidToIx id) rfl (fun x zero => rfl) ?_
            exact fun w member alive asleep unmarked blocked => blocked
        | setval semnum val copyin =>
            simp only
            split
            · exact waiting
            · rename_i range
              split
              · exact waiting
              · exact Waiting.setval consistent.pool waiting alive (by omega) _
        | setall vals => exact Waiting.setall consistent.pool waiting alive vals

theorem Waiting.step (config : info.semmns ≤ 2 ^ 15) (consistent : Consistent info s) (waiting : Waiting s) {call : Call}
    (minds : Minds info s call) {out : Option Outcome} (outcome : step info s call = some (s', out)) : Waiting s' := by
  cases call with
  | semget key nsems creat excl ipcperm =>
      cases outcome
      obtain same | ⟨semid, found, positive, room, same⟩ := sysSemget_cases info key nsems creat excl ipcperm s
      · rw [same]
        exact waiting
      · rw [same]
        refine Waiting.created config consistent.pool waiting found positive room ?_
        rintro w member rfl
        exact minds w member found
  | semop p id sops ipcperm copyin =>
      rw [Sem.step] at outcome
      obtain ⟨tried, alive, -, result⟩ | ⟨-, eval, result⟩ := sysSemop_cases info p id sops ipcperm copyin s
      · have alloc := exists?_alloc alive
        obtain ⟨s₁, out₁, final, passed⟩ := semopPass_spec consistent.undo (consistent.small config alloc) p sops false
        rw [result, final] at outcome
        cases outcome
        exact waiting.passed consistent alive (minds p id sops tried) passed
      · rw [result] at outcome
        cases outcome
        exact waiting
  | resume index interrupted =>
      obtain ⟨-, result⟩ | ⟨w, there, -, ⟨-, dead, result⟩ | ⟨-, alive, result⟩ | ⟨tried, alive, result⟩⟩ :=
        resume_cases info index interrupted s
      · rw [result] at outcome
        cases outcome
        exact waiting
      · rw [result] at outcome
        cases outcome
        exact waiting.erase_dead there dead
      · rw [result] at outcome
        cases outcome
        exact waiting.awake consistent.pool there alive
      · have alloc := exists?_alloc alive
        have after : Consistent info (Sem.awake index w s) := consistent.frame rfl rfl rfl rfl
        obtain ⟨s₁, out₁, final, passed⟩ := semopPass_spec after.undo (after.small config alloc) w.proc w.sops w.doUndos
        rw [result, final] at outcome
        cases outcome
        exact Waiting.passed after (waiting.awake consistent.pool there alive) alive (minds w there _ _ _ tried) passed
  | semctl id cmd ipcperm =>
      cases outcome
      exact Waiting.semctl consistent waiting minds
  | exit p =>
      rw [Sem.step, semexit] at outcome
      cases found : findUndo p s with
      | none =>
          rw [found] at outcome
          cases outcome
          exact waiting
      | some i =>
          have member := ((findUndo_eq_some consistent.undo).mp found).1
          cases left : Sem.exitEnts (s.semu i).ent s with
          | none =>
              rw [found] at outcome
              simp only [left] at outcome
              cases outcome
          | some s₁ =>
              rw [found] at outcome
              simp only [left] at outcome
              cases outcome
              have after := Waiting.exitEnts consistent.pool waiting (consistent.live i member)
                (fun ix alloc => consistent.small config alloc) left
              exact after.congr rfl rfl rfl

/-- The counts of every semaphore of every set are the numbers of the calls that sleep on it, and no
call that has not been woken could do its operations. -/
def Counted (s : System) : Prop :=
  (∀ ix num, (s.sema ix).alloc = true → num < (s.sema ix).nsems →
    (s.sem ((s.sema ix).base + num.toNat)).semncnt.toNat = waiters s ix num false ∧
    (s.sem ((s.sema ix).base + num.toNat)).semzcnt.toNat = waiters s ix num true) ∧
  ∀ w ∈ s.sleepers, w.woken = false → exists? w.id s = true → ¬Allowed (s.sema (ipcidToIx w.id)) w.sops s.sem

theorem Waiting.toCounted (waiting : Waiting s) : Counted s := by
  have exact : ∀ ix num zero, (s.sema ix).alloc = true → num < (s.sema ix).nsems →
      (counter zero (s.sem ((s.sema ix).base + num.toNat))).toNat = waiters s ix num zero := by
    intro ix num zero alloc bound
    have most : waiters s ix num zero ≤ s.sleepers.length := List.countP_le_length
    have few := waiting.few
    rw [waiting.counted ix num zero alloc bound, BitVec.toNat_ofNat, Nat.mod_eq_of_lt (by omega)]
  constructor
  · exact fun ix num alloc bound => ⟨exact ix num false alloc bound, exact ix num true alloc bound⟩
  · exact fun w member asleep alive => (waiting.blocked w member alive asleep).not_allowed

/-- In every run of steps that mind the waiting calls, the counts are right and no call sleeps
without need. -/
theorem waiters_counted {sema : Nat → SemidDs} {sem : Nat → Semaphore} {semu : Nat → SemUndo} {calls : List Call}
    (config : info.semmns ≤ 2 ^ 15)
    (run : Run (fun s call s' => Minds info s call ∧ Steps info s call s') (seminit sema sem semu) calls s) : Counted s := by
  have preserved : ∀ {before next : System} {call : Call}, Consistent info before ∧ Waiting before →
      Minds info before call ∧ Steps info before call next → Consistent info next ∧ Waiting next := by
    rintro before next call ⟨consistent, waiting⟩ ⟨minds, out, outcome⟩
    obtain ⟨next', out', outcome', consistent'⟩ := consistent.step config call
    have same := outcome
    rw [outcome'] at same
    cases same
    exact ⟨consistent', waiting.step config consistent minds outcome⟩
  have initial : Waiting (seminit sema sem semu) := ⟨Nat.two_pow_pos 16, nofun, nofun, nofun⟩
  have inv := @Run.invariant _ _ _ (fun s => Consistent info s ∧ Waiting s) preserved _ _ _ run ⟨.init info sema sem semu, initial⟩
  exact inv.2.toCounted

/-- The system without sets. -/
def noSets : System := seminit (fun _ => ⟨false, 0, 0, 0, 0⟩) (fun _ => ⟨0, 0, 0, 0⟩) (fun _ => ⟨none, []⟩)

/-- The state after a step. -/
def after (s : System) (call : Call) (ends : (step seminfo s call).isSome) : System := ((step seminfo s call).get ends).1

theorem steps_after (s : System) (call : Call) (ends : (step seminfo s call).isSome) : Steps seminfo s call (after s call ends) :=
  ⟨_, (Option.some_get ends).symm⟩

/-- A call that sleeps is counted. -/
theorem waiters_counted_one : ∃ s, s.sleepers.length = 1 ∧ (s.sem 0).semncnt = 1 ∧ Counted s := by
  let make : Call := .semget 0 1 false false none
  let take : Call := .semop 7 0x10000#32 [⟨0, -1, false, true⟩] none none
  let first := after noSets make rfl
  let second := after first take (by rfl)
  have mindsMake : Minds seminfo noSets make := nofun
  have mindsTake : Minds seminfo first take := by
    rintro q ix ops -
    constructor
    · exact @not_overruns_of_blocked _ _ ⟨0, -1, false, true⟩ _ 0 rfl (by decide) trivial (by decide)
    · intro k allowed
      match k with
      | 0 => trivial
      | k + 1 =>
          rw [List.take_succ_cons, List.take_nil]
          exact ⟨by decide, trivial⟩
    · intro k sop here zero
      match k with
      | 0 =>
          cases here
          cases zero
      | k + 1 => cases here
    · decide
  refine ⟨second, by rfl, by rfl, ?_⟩
  exact waiters_counted (by decide)
    (.cons ⟨mindsMake, steps_after _ _ _⟩ (.cons ⟨mindsTake, steps_after first take _⟩ (.nil _)))

/-- A set in front of the one that a call sleeps on is removed, and the call is interrupted: it is
not counted back where it was counted.  A call waits for zero behind an operation of its own: it
is not woken when it could be done. -/
theorem waiters_miscounted :
    (∃ calls s, Run (Steps seminfo) noSets calls s ∧ s.sleepers = [] ∧ (s.sem (s.sema 1).base).semncnt = 1 ∧ ¬Counted s) ∧
    ∃ calls s, Run (Steps seminfo) noSets calls s ∧ s.sleepers.length = 1 ∧ ¬Counted s := by
  let make : Call := .semget 0 1 false false none
  let first := after noSets make rfl
  constructor
  · let take : Call := .semop 7 0x10001#32 [⟨0, -1, false, false⟩] none none
    let remove : Call := .semctl 0x10000#32 .rmid none
    let signal : Call := .resume 0 true
    let second := after first make rfl
    let third := after second take (by decide)
    let fourth := after third remove rfl
    let fifth := after fourth signal (by decide)
    refine ⟨[make, make, take, remove, signal], fifth, ?_, by decide, by decide, fun counted => ?_⟩
    · exact .cons (steps_after noSets make _) (.cons (steps_after first make _) (.cons (steps_after second take _)
        (.cons (steps_after third remove _) (.cons (steps_after fourth signal _) (.nil _)))))
    · have count := (counted.1 1 0 (by decide) (by decide)).1
      revert count
      decide
  · let raise : Call := .semop 7 0x10000#32 [⟨0, 3, false, false⟩] none none
    let wait : Call := .semop 8 0x10000#32 [⟨0, -2, false, false⟩, ⟨0, 0, false, false⟩] none none
    let lower : Call := .semop 7 0x10000#32 [⟨0, -1, false, false⟩] none none
    let second := after first raise (by rfl)
    let third := after second wait (by decide)
    let fourth := after third lower (by decide)
    let asleep : Sleeper :=
      ⟨8, 0x10000#32, [⟨0, -2, false, false⟩, ⟨0, 0, false, false⟩], ⟨0, 0, false, false⟩, 0, false, false⟩
    refine ⟨[make, raise, wait, lower], fourth, ?_, by decide, fun counted => ?_⟩
    · exact .cons (steps_after noSets make _) (.cons (steps_after first raise _) (.cons (steps_after second wait _)
        (.cons (steps_after third lower _) (.nil _))))
    · refine counted.2 asleep (by decide) rfl (by decide) ?_
      exact ⟨by decide, by decide, by decide, by decide, trivial⟩

end Dragonfly.Kern.Sem
