import Dragonfly.Vmm.Apic.Guest
import Mathlib.Data.List.Count

/-!
# Delivery of interrupts

A vector that is made ready stays pending until it is accepted.  Between two acceptances of a
vector all requests for it are one.
-/

namespace Dragonfly.Vmm.Apic

open Dragonfly.Lib.Words

/-- What is seen of a run: requests for vectors and acceptances. -/
inductive Label where
  | set (cpu vector : Nat)
  | accepted (cpu vector : Nat)
  deriving DecidableEq

/-- The steps of the delivery of interrupts: requests, acceptances, and writes of the task
priority and of the end of an interrupt. -/
def Delivers : Event → Prop
  | .setIntr cpu vector => cpu < vmMaxcpu ∧ 32 ≤ vector ∧ vector ≤ 255
  | .accept _ meanwhile => ∀ v ∈ meanwhile, 32 ≤ v ∧ v ≤ 255
  | .write _ gpa _ _ => register gpa = some 0x80 ∨ register gpa = some 0xB0
  | _ => False

/-- The acceptance of the vector that is offered. -/
def acceptance (cpu : Nat) (offered : Option Nat) : List Label :=
  match offered with
  | none => []
  | some v => [.accepted cpu v]

/-- What is seen of a step. -/
def labels (vm : Vm) : Event → List Label
  | .setIntr cpu vector => [.set cpu vector]
  | .accept cpu meanwhile =>
      meanwhile.map (.set cpu) ++ acceptance cpu (vlapicPendingIntr (vm.vlapic cpu))
  | _ => []

/-- What is seen of a run. -/
def trace (host : Host) : List Event → Vm → List Label
  | [], _ => []
  | event :: events, vm =>
      labels vm event ++
        match step host event vm with
        | .ok next => trace host events next
        | .error _ => []

/-- Whether a vector is pending after one more label. -/
def pendingStep (cpu v : Nat) (pending : Bool) (label : Label) : Bool :=
  if label = .set cpu v then true else if label = .accepted cpu v then false else pending

/-- A vector is pending: it has been requested since its last acceptance. -/
def pendingAfter (cpu v : Nat) (before : Bool) (past : List Label) : Bool :=
  past.foldl (pendingStep cpu v) before

/-- The number of maximal runs of requests for a vector without an acceptance in between. -/
def raised (cpu v : Nat) : Bool → List Label → Nat
  | _, [] => 0
  | pending, label :: rest =>
      (if label = .set cpu v ∧ pending = false then 1 else 0) +
        raised cpu v (pendingStep cpu v pending label) rest

/-- A vector is accepted only while it is pending. -/
def OnlyPending (cpu v : Nat) (before : Bool) (past : List Label) : Prop :=
  ∀ front back, past = front ++ .accepted cpu v :: back → pendingAfter cpu v before front = true

variable {cpu v : Nat} {before : Bool} {first second past : List Label} {label : Label}

theorem pendingAfter_append :
    pendingAfter cpu v before (first ++ second) = pendingAfter cpu v (pendingAfter cpu v before first) second :=
  List.foldl_append

theorem OnlyPending.append (one : OnlyPending cpu v before first)
    (two : OnlyPending cpu v (pendingAfter cpu v before first) second) :
    OnlyPending cpu v before (first ++ second) := by
  intro front back split
  obtain ⟨middle, rfl, rest⟩ | ⟨middle, rfl, rest⟩ := List.append_eq_append_iff.mp split
  · rw [pendingAfter_append]
    exact two middle back rest
  · cases middle with
    | nil =>
        have here := two [] back rest.symm
        rwa [List.append_nil] at here
    | cons label middle =>
        obtain ⟨rfl, -⟩ := List.cons.inj rest
        exact one front middle rfl

theorem OnlyPending.tail (only : OnlyPending cpu v before (label :: past)) :
    OnlyPending cpu v (pendingStep cpu v before label) past :=
  fun front back split => only (label :: front) back (by rw [split, List.cons_append])

/-- Each maximal run of requests has led to one acceptance, or is still pending. -/
theorem raised_eq (only : OnlyPending cpu v before past) :
    raised cpu v before past + before.toNat =
      past.count (.accepted cpu v) + (pendingAfter cpu v before past).toNat := by
  induction past generalizing before with
  | nil => rw [raised, List.count_nil, Nat.zero_add, Nat.zero_add, pendingAfter, List.foldl_nil]
  | cons label rest ih =>
      have later := ih only.tail
      rw [raised, pendingAfter, List.foldl_cons, ← pendingAfter]
      by_cases set : label = .set cpu v
      · subst set
        have step : pendingStep cpu v before (.set cpu v) = true := if_pos rfl
        rw [step] at later ⊢
        rw [List.count_cons_of_ne (by simp)]
        cases before with
        | true =>
            rw [if_neg (by simp)]
            omega
        | false =>
            rw [if_pos ⟨rfl, rfl⟩]
            simp only [Bool.toNat_true, Bool.toNat_false] at later ⊢
            omega
      · rw [if_neg fun both => set both.1]
        by_cases accepted : label = .accepted cpu v
        · subst accepted
          have step : pendingStep cpu v before (.accepted cpu v) = false := by
            rw [pendingStep, if_neg set, if_pos rfl]
          obtain rfl : before = true := only [] rest rfl
          rw [step] at later ⊢
          rw [List.count_cons_self]
          simp only [Bool.toNat_true, Bool.toNat_false] at later ⊢
          omega
        · have step : pendingStep cpu v before label = before := by
            rw [pendingStep, if_neg set, if_neg accepted]
          rw [step] at later ⊢
          rw [List.count_cons_of_ne accepted]
          omega

/-! ## One step -/

/-- After the steps with the given labels. -/
structure Delivered (vm : Vm) (past : List Label) (vm' : Vm) : Prop where
  healthy : Healthy vm'
  pending : ∀ cpu v, bit (vm'.vlapic cpu).apic.irr v =
    pendingAfter cpu v (bit (vm.vlapic cpu).apic.irr v) past
  only : ∀ cpu v, OnlyPending cpu v (bit (vm.vlapic cpu).apic.irr v) past

variable {vm vm' vm'' : Vm}

theorem Delivered.trans (one : Delivered vm first vm') (two : Delivered vm' second vm'') :
    Delivered vm (first ++ second) vm'' where
  healthy := two.healthy
  pending cpu v := by
    rw [pendingAfter_append, ← one.pending]
    exact two.pending cpu v
  only cpu v := by
    apply (one.only cpu v).append
    rw [← one.pending]
    exact two.only cpu v

theorem pendingAfter_sets (vectors : List Nat) (c : Nat) :
    pendingAfter cpu v before (vectors.map (.set c)) = (before || decide (cpu = c ∧ v ∈ vectors)) := by
  induction vectors generalizing before with
  | nil => simp [pendingAfter]
  | cons vector rest ih =>
      rw [List.map_cons, pendingAfter, List.foldl_cons, ← pendingAfter, ih, pendingStep]
      by_cases same : Label.set c vector = .set cpu v
      · obtain ⟨rfl, rfl⟩ := Label.set.inj same
        simp
      · rw [if_neg same, if_neg (by simp)]
        have other : ¬(cpu = c ∧ v = vector) := fun ⟨one, two⟩ => same (by rw [one, two])
        have more : (cpu = c ∧ v ∈ vector :: rest) ↔ (cpu = c ∧ v ∈ rest) := by
          rw [List.mem_cons, and_or_left]
          exact or_iff_right other
        rw [decide_eq_decide.mpr more]

theorem onlyPending_sets (vectors : List Nat) (c : Nat) :
    OnlyPending cpu v before (vectors.map (.set c)) := by
  intro front back split
  have member : Label.accepted cpu v ∈ vectors.map (Label.set c) := by
    rw [split]
    exact List.mem_append_right _ List.mem_cons_self
  obtain ⟨_, _, impossible⟩ := List.mem_map.mp member
  cases impossible

/-- A request. -/
theorem delivered_setIntr (host : Host) (healthy : Healthy vm) {cpu vector : Nat}
    (delivers : Delivers (.setIntr cpu vector)) : ∃ vm', step host (.setIntr cpu vector) vm = .ok vm' ∧
      Delivered vm (labels vm (.setIntr cpu vector)) vm' := by
  obtain ⟨inside, low, high⟩ := delivers
  have quiet := quiet_ready (vm.vlapic cpu) vector
  refine ⟨vm.put cpu { vm.vlapic cpu with apic.irr := setBit (vm.vlapic cpu).apic.irr vector }, ?_,
    healthy.put (quiet.sync (healthy.sync cpu)) quiet.vcpuid, fun c v => ?_,
    fun c v => onlyPending_sets [vector] cpu⟩
  · rw [step, lapicSetIntr, if_neg (Nat.not_le_of_lt inside), if_neg (by omega),
      vlapicSetIntrReady_of_lt (by omega)]
    rfl
  · rw [show labels vm (.setIntr cpu vector) = [vector].map (.set cpu) from rfl, pendingAfter_sets]
    by_cases same : c = cpu
    · subst same
      rw [put_vlapic_self, bit_setBit]
      simp
    · rw [put_vlapic_of_ne vm _ same]
      simp [same]

/-- The end of an interrupt or a new task priority leaves the requests alone. -/
theorem delivered_write (host : Host) (healthy : Healthy vm) {cpu : Fin vmMaxcpu} {gpa data : Nat}
    {ticks : BitVec 32} (delivers : Delivers (.write cpu gpa data ticks)) :
    ∃ vm', step host (.write cpu gpa data ticks) vm = .ok vm' ∧
      Delivered vm (labels vm (.write cpu gpa data ticks)) vm' := by
  have unchanged {s : Vlapic} (sync : Sync s) (irr : s.apic.irr = (vm.vlapic cpu).apic.irr)
      (vcpuid : s.vcpuid = (vm.vlapic cpu).vcpuid) : Delivered vm [] (vm.put cpu s) := by
    refine ⟨healthy.put sync vcpuid, fun c v => ?_, fun c v front back split => by cases front <;> cases split⟩
    rw [pendingAfter, List.foldl_nil]
    by_cases same : c = cpu
    · rw [same, put_vlapic_self, irr]
    · rw [put_vlapic_of_ne vm s same]
  have kind := vlapicOpMemWrite_kind vm cpu gpa data ticks
  rw [step]
  generalize selected : register gpa = reg at kind
  cases kind with
  | tpr is =>
      obtain ⟨s, updated, sync, irr, -, vcpuid⟩ := (healthy.sync cpu).write_tpr data
      refine ⟨vm.put cpu s, ?_, unchanged sync irr vcpuid⟩
      rw [is, updated]
      rfl
  | eoi is =>
      obtain ⟨s, ended, sync, irr, -, vcpuid⟩ := (healthy.sync cpu).eoi
      refine ⟨vm.put cpu s, ?_, unchanged sync irr vcpuid⟩
      rw [is, ended]
      rfl
  | icr is =>
      obtain other | other := delivers
      all_goals
        rw [selected] at other
        cases other
  | dcr is =>
      obtain other | other := delivers
      all_goals
        rw [selected] at other
        cases other
  | quiet other is quiet =>
      obtain tpr | eoi := delivers
      · exact absurd (selected.symm.trans tpr) (other 0x80 (by decide))
      · exact absurd (selected.symm.trans eoi) (other 0xB0 (by decide))

/-- An acceptance. -/
theorem delivered_accept (host : Host) (healthy : Healthy vm) {cpu : Fin vmMaxcpu} {meanwhile : List Nat}
    (delivers : Delivers (.accept cpu meanwhile)) : ∃ vm', step host (.accept cpu meanwhile) vm = .ok vm' ∧
      Delivered vm (labels vm (.accept cpu meanwhile)) vm' := by
  have sync := healthy.sync cpu
  obtain ⟨s, ready, quiet, bits⟩ := @setAllReady_spec (vm.vlapic cpu) meanwhile fun v member => by
    have range := delivers v member
    omega
  have before : Delivered vm (meanwhile.map (.set cpu)) (vm.put cpu s) := by
    refine ⟨healthy.put (quiet.sync sync) quiet.vcpuid, fun c v => ?_, fun c v => onlyPending_sets meanwhile cpu⟩
    rw [pendingAfter_sets]
    by_cases same : c = cpu
    · rw [same, put_vlapic_self, bits v]
      simp
    · rw [put_vlapic_of_ne vm s same]
      simp [same]
  cases offered : vlapicPendingIntr (vm.vlapic cpu) with
  | none =>
      refine ⟨vm.put cpu s, ?_, ?_⟩
      · rw [step, ready, offered]
        rfl
      · rw [labels, offered, acceptance, List.append_nil]
        exact before
  | some w =>
      obtain ⟨low, small, member, -, higher⟩ := (vlapicPendingIntr_eq_some_iff).mp offered
      rw [← quiet.ppr] at higher
      obtain ⟨s', accepted, sync', irr, -, vcpuid⟩ := (quiet.sync sync).accept low small higher
      refine ⟨vm.put cpu s', ?_, ?_⟩
      · rw [step, ready, offered]
        simp only [Except.bind, acceptOffered, accepted, Except.map]
      · rw [labels, offered, acceptance]
        apply before.trans
        refine ⟨healthy.put sync' (vcpuid.trans quiet.vcpuid), fun c v => ?_, fun c v front back split => ?_⟩
        · rw [pendingAfter, List.foldl_cons, List.foldl_nil, pendingStep, if_neg (by simp)]
          by_cases same : c = cpu
          · subst same
            rw [put_vlapic_self, put_vlapic_self, irr, bit_clearBit]
            by_cases this : v = w
            · subst this
              simp
            · rw [if_neg fun eq => this (Label.accepted.inj eq).2.symm, decide_eq_false this]
              simp
          · rw [put_vlapic_of_ne vm s same, put_vlapic_of_ne vm s' same,
              if_neg fun eq => same (Label.accepted.inj eq).1.symm]
        · obtain ⟨rfl, rest⟩ | ⟨_, _, impossible⟩ := List.append_eq_cons_iff.mp split.symm
          · obtain ⟨rfl, rfl⟩ := Label.accepted.inj (List.cons.inj rest).1
            rw [pendingAfter, List.foldl_nil, put_vlapic_self, bits, member]
            rfl
          · simp at impossible

/-- A step of the delivery. -/
theorem delivered_step (host : Host) (healthy : Healthy vm) {event : Event} (delivers : Delivers event) :
    ∃ vm', step host event vm = .ok vm' ∧ Delivered vm (labels vm event) vm' := by
  cases event with
  | setIntr cpu vector => exact delivered_setIntr host healthy delivers
  | accept cpu meanwhile => exact delivered_accept host healthy delivers
  | write cpu gpa data ticks => exact delivered_write host healthy delivers
  | _ => exact delivers.elim

/-! ## Runs -/

theorem delivered_run (host : Host) {events : List Event} (healthy : Healthy vm)
    (delivers : ∀ event ∈ events, Delivers event) :
    ∃ vm', run host events vm = .ok vm' ∧ Delivered vm (trace host events vm) vm' := by
  induction events generalizing vm with
  | nil =>
      refine ⟨vm, rfl, healthy, fun _ _ => rfl, fun c v front back split => ?_⟩
      cases front <;> cases split
  | cons event events ih =>
      obtain ⟨next, stepped, one⟩ := delivered_step host healthy (delivers event List.mem_cons_self)
      obtain ⟨vm', rest, two⟩ := ih one.healthy fun other member =>
        delivers other (List.mem_cons_of_mem event member)
      refine ⟨vm', ?_, ?_⟩
      · rw [run, stepped]
        exact rest
      · simp only [trace, stepped]
        exact one.trans two

/-- In every run of requests, acceptances, ends of interrupts and task priorities, a vector is
accepted only if it has been requested since its last acceptance, and each maximal run of
requests has led to one acceptance or is still pending.  The next vector to be accepted is the
highest one that is pending, if and only if its class is above the processor priority. -/
theorem delivered_exactly_once (host : Host) {events : List Event} (delivers : ∀ event ∈ events, Delivers event) :
    ∃ vm, run host events vmCreate = .ok vm ∧ ∀ cpu < vmMaxcpu,
      Consistent (vm.vlapic cpu) ∧ ∀ v, 32 ≤ v → v < 256 →
        (∀ front back, trace host events vmCreate = front ++ .accepted cpu v :: back →
          pendingAfter cpu v false front = true) ∧
        raised cpu v false (trace host events vmCreate) =
          (trace host events vmCreate).count (.accepted cpu v) +
            (pendingAfter cpu v false (trace host events vmCreate)).toNat ∧
        (vlapicPendingIntr (vm.vlapic cpu) = some v ↔
          pendingAfter cpu v false (trace host events vmCreate) = true ∧
          (∀ w, v < w → w < 256 → pendingAfter cpu w false (trace host events vmCreate) = false) ∧
          prio (vm.vlapic cpu).apic.ppr < prio v) := by
  obtain ⟨vm, reached, delivered⟩ := delivered_run host healthy_vmCreate delivers
  have start (cpu v : Nat) : bit (vmCreate.vlapic cpu).apic.irr v = false := bit_zero v
  refine ⟨vm, reached, fun cpu _ => ⟨(delivered.healthy.sync cpu).consistent, fun v low high => ?_⟩⟩
  have only := delivered.only cpu v
  have pending := delivered.pending cpu
  simp only [start] at only pending
  refine ⟨only, ?_, ?_⟩
  · exact raised_eq only
  · rw [vlapicPendingIntr_eq_some_iff]
    simp only [pending, low, high, true_and]

/-- Two requests for vector 48 lead to one acceptance, and a third one to another. -/
theorem delivered_exactly_once_48 :
    raised bsp 48 false (trace ⟨10 ^ 9, 100⟩ [.setIntr 0 48, .setIntr 0 48, .accept bsp [], .write bsp 0xB0 0 0,
      .setIntr 0 48, .accept bsp []] vmCreate) = 2 ∧
    ∃ vm, run ⟨10 ^ 9, 100⟩ [.setIntr 0 48, .setIntr 0 48, .accept bsp [], .write bsp 0xB0 0 0,
      .setIntr 0 48, .accept bsp []] vmCreate = .ok vm ∧ Consistent (vm.vlapic 0) := by
  refine ⟨by decide +kernel, ?_⟩
  have delivers : ∀ event ∈ [Event.setIntr 0 48, .setIntr 0 48, .accept bsp [], .write bsp 0xB0 0 0,
      .setIntr 0 48, .accept bsp []], Delivers event := by
    simp [Delivers, register, regOffset, vmMaxcpu]
  obtain ⟨vm, reached, all⟩ := delivered_exactly_once ⟨10 ^ 9, 100⟩ delivers
  exact ⟨vm, reached, (all 0 (by decide)).1⟩

end Dragonfly.Vmm.Apic
