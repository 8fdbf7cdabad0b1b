import Dragonfly.Vmm.Apic.Service

/-!
# Runs of a virtual machine

The local APICs of a virtual machine under the accesses of its cpus, of other devices and of
the host clock, in any order.
-/

namespace Dragonfly.Vmm.Apic

open Dragonfly.Lib.Words

/-- What happens to a local APIC. -/
inductive Event where
  /-- `vlapic_set_intr_ready` -/
  | ready (cpu : Fin vmMaxcpu) (vector : Nat)
  /-- `lapic_set_intr` -/
  | setIntr (cpu vector : Nat)
  /-- `vlapic_pending_intr` and then `vlapic_intr_accepted` if there is a vector.  The vectors
  that other cpus make ready in between are given. -/
  | accept (cpu : Fin vmMaxcpu) (meanwhile : List Nat)
  | read (cpu : Fin vmMaxcpu) (gpa : Nat)
  | write (cpu : Fin vmMaxcpu) (gpa data : Nat) (ticks : BitVec 32)
  /-- `vlapic_timer_tick` -/
  | tick (cpu : Fin vmMaxcpu) (ticks : BitVec 32)
  | reset (cpu : Fin vmMaxcpu)

/-- `emulate_rdmsr` of a register of the local APIC. -/
def Event.rdmsr (cpu : Fin vmMaxcpu) (num : Nat) : Event := .read cpu (x2apicMsrToRegoff num)

/-- `emulate_wrmsr` of a register of the local APIC. -/
def Event.wrmsr (cpu : Fin vmMaxcpu) (num val : Nat) (ticks : BitVec 32) : Event :=
  .write cpu (x2apicMsrToRegoff num) val ticks

/-- Several vectors are made ready one after the other. -/
def setAllReady : List Nat → Vlapic → Except Panic Vlapic
  | [], vlapic => .ok vlapic
  | vector :: rest, vlapic => (vlapicSetIntrReady vlapic vector).bind (setAllReady rest)

/-- The acceptance of the vector that was offered, if any. -/
def acceptOffered (offered : Option Nat) (vlapic : Vlapic) : Except Panic Vlapic :=
  match offered with
  | none => .ok vlapic
  | some vector => vlapicIntrAccepted vlapic vector

def step (host : Host) (event : Event) (vm : Vm) : Except Panic Vm :=
  match event with
  | .ready cpu vector => (vlapicSetIntrReady (vm.vlapic cpu) vector).map (vm.put cpu)
  | .setIntr cpu vector => (lapicSetIntr vm cpu vector).map Prod.snd
  | .accept cpu meanwhile =>
      ((setAllReady meanwhile (vm.vlapic cpu)).bind
        (acceptOffered (vlapicPendingIntr (vm.vlapic cpu)))).map (vm.put cpu)
  | .read cpu gpa => (vlapicOpMemRead (vm.vlapic cpu) gpa).map fun _ => vm
  | .write cpu gpa data ticks => (vlapicOpMemWrite vm cpu gpa data ticks).map Prod.snd
  | .tick cpu ticks => (vlapicTimerTick host (vm.vlapic cpu) ticks).map (vm.put cpu)
  | .reset cpu => .ok (vm.put cpu (vlapicOpReset (vm.vlapic cpu)))

def run (host : Host) : List Event → Vm → Except Panic Vm
  | [], vm => .ok vm
  | event :: events, vm => (step host event vm).bind (run host events)

theorem run_append (host : Host) (front back : List Event) (vm : Vm) :
    run host (front ++ back) vm = (run host front vm).bind (run host back) := by
  induction front generalizing vm with
  | nil => rfl
  | cons event front ih =>
      rw [List.cons_append, run, run]
      cases step host event vm with
      | error panic => rfl
      | ok next => exact ih next

/-! ## Registers -/

/-- The register that an access selects. -/
def register (gpa : Nat) : Option Nat :=
  if 0x400 < regOffset gpa then none else some (regOffset gpa / 4 * 4)

/-- The timer divides the frequency of the host. -/
def Counting (s : Vlapic) (ticks : BitVec 32) : Prop :=
  0 < (ticks - s.ccrTicks).toInt ∧ s.apic.icrTimer ≠ 0 ∧
    (vlapicPeriodicTimer s = true ∨ s.apic.ccrTimer ≠ 0)

/-- An interrupt command names a destination outside the cpu sets. -/
def IcrOutside (icrval : Nat) : Prop :=
  (icrval &&& 0x700 = 0 ∨ icrval &&& 0x700 = 0x400) ∧ icrval &&& 0xc0000 = 0 ∧
    cpuSetsize ≤ icrval / 2 ^ 32 % 2 ^ 32

variable {vm : Vm} {s : Vlapic}

@[simp]
theorem put_vlapic_self (vm : Vm) (cpu : Nat) (s : Vlapic) : (vm.put cpu s).vlapic cpu = s :=
  Function.update_self ..

theorem put_vlapic_of_ne (vm : Vm) {cpu other : Nat} (s : Vlapic) (ne : other ≠ cpu) :
    (vm.put cpu s).vlapic other = vm.vlapic other :=
  Function.update_of_ne ne ..

@[simp]
theorem put_activeCpus (vm : Vm) (cpu : Nat) (s : Vlapic) : (vm.put cpu s).activeCpus = vm.activeCpus := rfl

@[simp]
theorem put_self (vm : Vm) (cpu : Nat) : vm.put cpu (vm.vlapic cpu) = vm := by
  rw [Vm.put, Function.update_eq_self]

/-- What a property of all local APICs needs after a change of one. -/
theorem forall_put {P : Nat → Vlapic → Prop} {cpu : Nat} {s : Vlapic} (others : ∀ c, P c (vm.vlapic c))
    (this : P cpu s) : ∀ c, P c ((vm.put cpu s).vlapic c) := by
  intro c
  by_cases same : c = cpu
  · rw [same, put_vlapic_self]
    exact this
  · rw [put_vlapic_of_ne vm s same]
    exact others c

/-! ## What is made ready -/

theorem vlapicSetIntrReady_of_lt {vector : Nat} (small : vector < 256) :
    vlapicSetIntrReady s vector = .ok { s with apic.irr := setBit s.apic.irr vector } :=
  if_neg (by omega)

theorem quiet_ready (s : Vlapic) (vector : Nat) :
    Quiet s { s with apic.irr := setBit s.apic.irr vector } := ⟨rfl, rfl, rfl, rfl, rfl, rfl, rfl⟩

theorem setAllReady_spec {vectors : List Nat} (small : ∀ v ∈ vectors, v < 256) :
    ∃ s', setAllReady vectors s = .ok s' ∧ Quiet s s' ∧
      ∀ v, bit s'.apic.irr v = (bit s.apic.irr v || decide (v ∈ vectors)) := by
  induction vectors generalizing s with
  | nil =>
      refine ⟨s, rfl, .refl s, fun v => ?_⟩
      simp
  | cons vector rest ih =>
      obtain ⟨s', done, quiet, bits⟩ := @ih { s with apic.irr := setBit s.apic.irr vector }
        fun v member => small v (List.mem_cons_of_mem _ member)
      refine ⟨s', ?_, (quiet_ready s vector).trans quiet, fun v => ?_⟩
      · rw [setAllReady, vlapicSetIntrReady_of_lt (small vector List.mem_cons_self)]
        exact done
      · rw [bits v, bit_setBit, Bool.or_assoc]
        simp only [List.mem_cons, Bool.decide_or]

theorem setAllReady_error {vectors : List Nat} (large : ¬∀ v ∈ vectors, v < 256) :
    setAllReady vectors s = .error .invalidVector := by
  induction vectors generalizing s with
  | nil => exact absurd (fun v member => nomatch member) large
  | cons vector rest ih =>
      rw [setAllReady]
      by_cases small : vector < 256
      · rw [vlapicSetIntrReady_of_lt small]
        apply ih
        intro all
        apply large
        intro v member
        obtain rfl | later := List.mem_cons.mp member
        · exact small
        · exact all v later
      · rw [vlapicSetIntrReady, if_pos (by omega)]
        rfl

theorem lapicSetIntr_spec (vm : Vm) (cpu vector : Nat) :
    ∃ error vm', lapicSetIntr vm cpu vector = .ok (error, vm') ∧
      (∀ c, Quiet (vm.vlapic c) (vm'.vlapic c)) ∧ vm'.activeCpus = vm.activeCpus := by
  rw [lapicSetIntr]
  split
  · exact ⟨_, vm, rfl, fun c => .refl _, rfl⟩
  · split
    · exact ⟨_, vm, rfl, fun c => .refl _, rfl⟩
    · rw [vlapicSetIntrReady_of_lt (by omega)]
      refine ⟨_, _, rfl, ?_, rfl⟩
      exact forall_put (P := fun c => Quiet (vm.vlapic c)) (fun c => .refl _) (quiet_ready _ vector)

/-! ## The timer -/

theorem vlapicFireTimer_spec (s : Vlapic) : ∃ s', vlapicFireTimer s = .ok s' ∧ Quiet s s' := by
  rw [vlapicFireTimer]
  split
  · exact ⟨_, vlapicSetIntrReady_of_lt (Nat.mod_lt _ (by decide)), quiet_ready s _⟩
  · exact ⟨s, rfl, .refl s⟩

theorem quiet_startTimer (s : Vlapic) (elapsed : Nat) (ticks : BitVec 32) :
    Quiet s (vlapicStartTimer s elapsed ticks) := ⟨rfl, rfl, rfl, rfl, rfl, rfl, rfl⟩

/-- A run of the timer fires interrupts and does nothing else that is seen here. -/
theorem timerLoop_spec (periodic : Bool) (decrement : Nat) (ticks : BitVec 32) (delta : Nat) (s : Vlapic)
    (ccr : Nat) : ∃ s' ccr', timerLoop periodic decrement ticks delta s ccr = .ok (s', ccr') ∧ Quiet s s' := by
  induction delta generalizing s ccr with
  | zero => exact ⟨s, ccr, rfl, .refl s⟩
  | succ delta ih =>
      rw [timerLoop]
      split
      · obtain ⟨fired, done, quiet⟩ := vlapicFireTimer_spec s
        rw [done]
        simp only [Except.bind]
        split
        · obtain ⟨s', ccr', rest, quiet'⟩ := ih (vlapicStartTimer fired (decrement - ccr) ticks)
            (vlapicStartTimer fired (decrement - ccr) ticks).apic.ccrTimer
          exact ⟨s', ccr', rest, (quiet.trans (quiet_startTimer fired _ ticks)).trans quiet'⟩
        · exact ⟨fired, 0, rfl, quiet⟩
      · exact ih s _

/-- A tick of the clock divides by zero exactly if a counting timer has no divisor. -/
theorem vlapicTimerTick_spec (host : Host) (s : Vlapic) (ticks : BitVec 32) :
    (Counting s ticks ∧ s.divisor = 0 ∧ vlapicTimerTick host s ticks = .error .divideByZero) ∨
      ((Counting s ticks → s.divisor ≠ 0) ∧
        ∃ s', vlapicTimerTick host s ticks = .ok s' ∧ Quiet s s') := by
  unfold Counting
  rw [vlapicTimerTick]
  split
  · rename_i zero
    rw [zero]
    exact .inr ⟨fun counting => absurd counting.1 (by decide), s, rfl, .refl s⟩
  split
  · rename_i off
    exact .inr ⟨fun counting => absurd off counting.2.1, s, rfl, .refl s⟩
  split
  · rename_i done
    refine .inr ⟨?_, s, rfl, .refl s⟩
    rintro ⟨-, -, periodic | running⟩
    · simp [done.1] at periodic
    · exact absurd done.2 running
  split
  · exact .inr ⟨fun counting => by omega, _, rfl, quiet_startTimer s 0 ticks⟩
  · rename_i nonzero on running forward
    have counting : 0 < (ticks - s.ccrTicks).toInt := by
      have other : (ticks - s.ccrTicks).toInt ≠ 0 := fun zero =>
        nonzero (BitVec.eq_of_toInt_eq (zero.trans BitVec.toInt_zero.symm))
      omega
    have live : vlapicPeriodicTimer s = true ∨ s.apic.ccrTimer ≠ 0 := by
      cases periodic : vlapicPeriodicTimer s with
      | true => exact .inl rfl
      | false => exact .inr fun zero => running ⟨periodic, zero⟩
    split
    · rename_i none
      exact .inl ⟨⟨counting, on, live⟩, none, rfl⟩
    · rename_i some
      obtain ⟨s', ccr, done, quiet⟩ := timerLoop_spec (vlapicPeriodicTimer s)
        (host.tscFrequency / s.divisor / host.hz % 2 ^ 32) ticks (ticks - s.ccrTicks).toNat s s.apic.ccrTimer
      refine .inr ⟨fun _ => some, { s' with ccrTicks := ticks, apic.ccrTimer := ccr }, ?_, ?_⟩
      · simp only [done, Except.bind]
      · exact quiet.trans ⟨rfl, rfl, rfl, rfl, rfl, rfl, rfl⟩

/-! ## Interrupt commands -/

/-- The local APICs are consistent, and every cpu number is in range. -/
structure Healthy (vm : Vm) : Prop where
  sync : ∀ cpu, Sync (vm.vlapic cpu)
  vcpuid : ∀ cpu, (vm.vlapic cpu).vcpuid = cpu
  active : ∀ i, vm.activeCpus.getLsbD i = true → i < vmMaxcpu

theorem Healthy.of_quiet {vm' : Vm} (healthy : Healthy vm)
    (quiet : ∀ c, Quiet (vm.vlapic c) (vm'.vlapic c)) (active : vm'.activeCpus = vm.activeCpus) :
    Healthy vm' where
  sync c := (quiet c).sync (healthy.sync c)
  vcpuid c := (quiet c).vcpuid.trans (healthy.vcpuid c)
  active := by
    rw [active]
    exact healthy.active

theorem Healthy.put (healthy : Healthy vm) {cpu : Nat} {s : Vlapic} (sync : Sync s)
    (same : s.vcpuid = (vm.vlapic cpu).vcpuid) : Healthy (vm.put cpu s) where
  sync := forall_put (P := fun _ => Sync) healthy.sync sync
  vcpuid := forall_put (P := fun c s => s.vcpuid = c) healthy.vcpuid (same.trans (healthy.vcpuid cpu))
  active := healthy.active

theorem mem_members {set : BitVec 64} {i : Nat} (member : i ∈ members set) : set.getLsbD i = true :=
  (List.mem_filter.mp member).2

theorem cpuClr_of_lt {n : Nat} (small : n < cpuSetsize) (set : BitVec 64) :
    cpuClr n set = .ok (set &&& ~~~BitVec.twoPow 64 n) := if_pos small

theorem deliver_spec (fixed : Bool) (vec : Nat) {cpus : List Nat} (small : ∀ i ∈ cpus, i < cpuSetsize)
    (dmask : BitVec 64) (vm : Vm) : ∃ vm', deliver dmask fixed vec cpus vm = .ok vm' ∧
      (∀ c, Quiet (vm.vlapic c) (vm'.vlapic c)) ∧ vm'.activeCpus = vm.activeCpus := by
  induction cpus generalizing dmask vm with
  | nil => exact ⟨vm, rfl, fun c => .refl _, rfl⟩
  | cons i rest ih =>
      have later := fun j member => small j (List.mem_cons_of_mem i member)
      rw [deliver, cpuClr_of_lt (small i List.mem_cons_self)]
      simp only [Except.bind]
      split
      · obtain ⟨error, next, set, quiet, active⟩ := lapicSetIntr_spec vm i vec
        obtain ⟨vm', done, quiet', active'⟩ := ih later (dmask &&& ~~~BitVec.twoPow 64 i) next
        rw [set]
        exact ⟨vm', done, fun c => (quiet c).trans (quiet' c), active'.trans active⟩
      · exact ih later _ vm

/-- The destinations of a command are in range unless the command itself names another. -/
theorem icrMask_spec (healthy : Healthy vm) {vcpuid : Nat} (inside : vcpuid < vmMaxcpu) (dest shorthand : Nat) :
    (shorthand = 0 ∧ cpuSetsize ≤ dest ∧ icrMask vm vcpuid dest shorthand = .error .cpusetRange) ∨
      ((shorthand = 0 → dest < cpuSetsize) ∧ ∃ dmask, icrMask vm vcpuid dest shorthand = .ok dmask ∧
        ∀ i ∈ members dmask, i < cpuSetsize) := by
  have active : ∀ i ∈ members vm.activeCpus, i < cpuSetsize := fun i member =>
    Nat.lt_trans (healthy.active i (mem_members member)) (by decide)
  have within : vcpuid < cpuSetsize := Nat.lt_trans inside (by decide)
  have single : ∀ n < cpuSetsize, ∀ i ∈ members (BitVec.twoPow 64 n), i < cpuSetsize := by
    intro n small i member
    have bit := mem_members member
    rw [BitVec.getLsbD_twoPow, Bool.and_eq_true, decide_eq_true_iff] at bit
    have same : n = i := by simpa using bit.2
    omega
  rw [icrMask]
  split
  · rename_i named
    rw [cpuSetof]
    split
    · rename_i small
      exact .inr ⟨fun _ => small, _, rfl, single dest small⟩
    · exact .inl ⟨named, by omega, rfl⟩
  · rename_i short
    refine .inr ⟨fun named => absurd named short, ?_⟩
    split
    · rw [cpuSetof, if_pos within]
      exact ⟨_, rfl, single vcpuid within⟩
    split
    · exact ⟨_, rfl, active⟩
    · rw [cpuClr_of_lt within]
      refine ⟨_, rfl, fun i member => active i ?_⟩
      have bit := mem_members member
      rw [BitVec.getLsbD_and, Bool.and_eq_true] at bit
      exact List.mem_filter.mpr ⟨(List.mem_filter.mp member).1, bit.1⟩

/-- An interrupt command fails exactly if it names a destination outside the cpu sets. -/
theorem lapicProcessIcr_spec (healthy : Healthy vm) {vcpuid : Nat} (inside : vcpuid < vmMaxcpu) (icrval : Nat) :
    (IcrOutside icrval ∧ lapicProcessIcr vm vcpuid icrval = .error .cpusetRange) ∨
      (¬IcrOutside icrval ∧ ∃ code vm', lapicProcessIcr vm vcpuid icrval = .ok (code, vm') ∧
        Healthy vm' ∧ ∀ c, (vm'.vlapic c).divisor = (vm.vlapic c).divisor) := by
  rw [lapicProcessIcr]
  split
  · rename_i mode
    obtain ⟨named, outside, failed⟩ | ⟨small, dmask, mask, within⟩ :=
      icrMask_spec healthy inside (icrval / 2 ^ 32 % 2 ^ 32) (icrval &&& 0xc0000)
    · rw [failed]
      exact .inl ⟨⟨mode, named, outside⟩, rfl⟩
    · obtain ⟨vm', done, quiet, active⟩ :=
        deliver_spec (decide (icrval &&& 0x700 = 0)) (icrval &&& 0xff) within dmask vm
      refine .inr ⟨fun outside => ?_, 0, vm', ?_, healthy.of_quiet quiet active,
        fun c => (quiet c).divisor⟩
      · have fits := small outside.2.1
        have large := outside.2.2
        omega
      · simp only [mask, Except.bind, done]
  · rename_i other
    refine .inr ⟨fun outside => other outside.1, ?_⟩
    split
    · refine ⟨1, _, rfl, ?_, ?_⟩
      · unfold vmActivateCpu
        split
        · rename_i small
          refine ⟨healthy.sync, healthy.vcpuid, fun i member => ?_⟩
          rw [BitVec.getLsbD_or, Bool.or_eq_true, BitVec.getLsbD_twoPow, Bool.and_eq_true,
            decide_eq_true_iff] at member
          obtain before | ⟨-, added⟩ := member
          · exact healthy.active i before
          · have same : icrval / 2 ^ 32 % 2 ^ 32 = i := by simpa using added
            omega
        · exact healthy
      · intro c
        unfold vmActivateCpu
        split <;> rfl
    · exact ⟨1, vm, rfl, healthy, fun c => rfl⟩

/-! ## Writes -/

theorem and_b_of_le : ∀ low ≤ 11, low &&& 0xB = low → low = 0 ∨ low = 1 ∨ low = 2 ∨ low = 3 ∨ low = 8 ∨
    low = 9 ∨ low = 10 ∨ low = 11 := by
  decide

/-- One of the eight values of the divide configuration is rejected. -/
theorem vlapicTimerDivisor_spec (dcr : Nat) :
    (dcr &&& 0xB = 0xB ∧ vlapicTimerDivisor dcr = .error .invalidDcr) ∨
      (dcr &&& 0xB ≠ 0xB ∧ ∃ divisor, vlapicTimerDivisor dcr = .ok divisor ∧ divisor ≠ 0) := by
  have masked : (dcr &&& 0xB) &&& 0xB = dcr &&& 0xB := by
    rw [Nat.and_assoc, Nat.and_self]
  rw [vlapicTimerDivisor]
  obtain low | low | low | low | low | low | low | low := and_b_of_le _ Nat.and_le_right masked
  all_goals rw [low]
  case inr.inr.inr.inr.inr.inr.inr => exact .inl ⟨rfl, rfl⟩
  all_goals exact .inr ⟨by decide, _, rfl, by decide⟩

/-- The five kinds of writes: the task priority, the end of an interrupt, an interrupt
command, the divide configuration, and what has no effect on the interrupts in service. -/
inductive WriteKind (vm : Vm) (cpu data : Nat) (written : Except Panic (Nat × Vm)) : Option Nat → Prop where
  | tpr (is : written = (vlapicUpdatePpr { vm.vlapic cpu with apic.tpr := data % 256 }).map
      fun s => (0, vm.put cpu s)) : WriteKind vm cpu data written (some 0x80)
  | eoi (is : written = (vlapicProcessEoi (vm.vlapic cpu)).map fun s => (0, vm.put cpu s)) :
      WriteKind vm cpu data written (some 0xB0)
  | icr (is : written = lapicProcessIcr vm (vm.vlapic cpu).vcpuid data) :
      WriteKind vm cpu data written (some 0x300)
  | dcr (is : written = (vlapicTimerDivisor data).map fun divisor =>
      (0, vm.put cpu (writeDcr (vm.vlapic cpu) data divisor))) : WriteKind vm cpu data written (some 0x3E0)
  | quiet {register : Option Nat} {s : Vlapic} (other : ∀ reg ∈ [0x80, 0xB0, 0x300, 0x3E0], register ≠ some reg)
      (is : written = .ok (0, vm.put cpu s)) (quiet : Quiet (vm.vlapic cpu) s) :
      WriteKind vm cpu data written register

theorem writeRegister_kind (vm : Vm) (cpu offset data : Nat) (ticks : BitVec 32) :
    WriteKind vm cpu data (writeRegister vm cpu offset data ticks) (some offset) := by
  rw [writeRegister]
  by_cases id : offset = 0x20
  · subst id
    exact .quiet (by decide) (if_pos rfl) ⟨rfl, rfl, rfl, rfl, rfl, rfl, rfl⟩
  rw [if_neg id]
  by_cases tpr : offset = 0x80
  · subst tpr
    exact .tpr (if_pos rfl)
  rw [if_neg tpr]
  by_cases eoi : offset = 0xB0
  · subst eoi
    exact .eoi (if_pos rfl)
  rw [if_neg eoi]
  by_cases svr : offset = 0xF0
  · subst svr
    exact .quiet (by decide) (if_pos rfl) ⟨rfl, rfl, rfl, rfl, rfl, rfl, rfl⟩
  rw [if_neg svr]
  by_cases icr : offset = 0x300
  · subst icr
    exact .icr (if_pos rfl)
  rw [if_neg icr]
  by_cases dcr : offset = 0x3E0
  · subst dcr
    refine .dcr ?_
    rw [if_neg (by decide), if_neg (by decide), if_pos rfl]
  have other : ∀ reg ∈ [0x80, 0xB0, 0x300, 0x3E0], some offset ≠ some reg := by
    simp [tpr, eoi, icr, dcr]
  by_cases lvt : 0x320 ≤ offset ∧ offset ≤ 0x370
  · rw [if_pos lvt, vlapicGetLvt, if_neg (by omega)]
    exact .quiet other rfl ⟨rfl, rfl, rfl, rfl, rfl, rfl, rfl⟩
  rw [if_neg lvt]
  by_cases timer : offset = 0x380
  · exact .quiet other (if_pos timer) ⟨rfl, rfl, rfl, rfl, rfl, rfl, rfl⟩
  rw [if_neg timer, if_neg dcr]
  by_cases esr : offset = 0x280
  · exact .quiet other (if_pos esr) ⟨rfl, rfl, rfl, rfl, rfl, rfl, rfl⟩
  · refine .quiet other ?_ (.refl _)
    rw [if_neg esr, put_self]

theorem vlapicOpMemWrite_kind (vm : Vm) (cpu gpa data : Nat) (ticks : BitVec 32) :
    WriteKind vm cpu data (vlapicOpMemWrite vm cpu gpa data ticks) (register gpa) := by
  rw [vlapicOpMemWrite, register]
  split
  · refine .quiet (fun _ _ => nofun) ?_ (.refl _)
    rw [put_self]
  · exact writeRegister_kind ..

theorem exists_ok_ite {condition : Prop} [Decidable condition] {first second : Except Panic Nat}
    (yes : condition → ∃ data, first = .ok data) (no : ∃ data, second = .ok data) :
    ∃ data, (if condition then first else second) = .ok data := by
  split
  · rename_i holds
    exact yes holds
  · exact no

theorem readRegister_ok (lapic : Lapic) (offset : Nat) : ∃ data, readRegister lapic offset = .ok data := by
  unfold readRegister
  iterate 15 apply exists_ok_ite fun _ => ⟨_, rfl⟩
  apply exists_ok_ite
  · intro inside
    rw [vlapicGetLvt, if_neg (by omega)]
    exact ⟨_, rfl⟩
  iterate 3 apply exists_ok_ite fun _ => ⟨_, rfl⟩
  exact ⟨_, rfl⟩

/-- A read never fails. -/
theorem vlapicOpMemRead_ok (s : Vlapic) (gpa : Nat) : ∃ data, vlapicOpMemRead s gpa = .ok data :=
  exists_ok_ite (fun _ => ⟨_, rfl⟩) (readRegister_ok ..)

end Dragonfly.Vmm.Apic
