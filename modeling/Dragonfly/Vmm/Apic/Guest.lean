import Dragonfly.Vmm.Apic.System

/-!
# What a run of a virtual machine can do to the host

One step keeps the local APICs consistent if it is no reset of a local APIC with an interrupt
in service.  It stops the host exactly if it is not allowed.
-/

namespace Dragonfly.Vmm.Apic

open Dragonfly.Lib.Words

/-- A step that does not stop the host. -/
def Allowed (vm : Vm) : Event → Prop
  | .ready _ vector => vector < 256
  | .accept _ meanwhile => ∀ v ∈ meanwhile, v < 256
  | .write _ gpa data _ =>
      (register gpa = some 0x300 → ¬IcrOutside data) ∧ (register gpa = some 0x3E0 → data &&& 0xB ≠ 0xB)
  | .tick cpu ticks => Counting (vm.vlapic cpu) ticks → (vm.vlapic cpu).divisor ≠ 0
  | _ => True

/-- A step that resets no local APIC with an interrupt in service. -/
def Idle (vm : Vm) : Event → Prop
  | .reset cpu => (vm.vlapic cpu).isrvecStkTop = 0
  | _ => True

/-- A step that writes the divide configuration of a cpu. -/
def Configures (cpu : Nat) : Event → Prop
  | .write c gpa _ _ => c.val = cpu ∧ register gpa = some 0x3E0
  | _ => False

/-- The divisors after a step. -/
def Divisors (vm : Vm) (event : Event) (vm' : Vm) : Prop :=
  ∀ cpu, (vm'.vlapic cpu).divisor ≠ 0 ↔ (vm.vlapic cpu).divisor ≠ 0 ∨ Configures cpu event

/-- What a step can do. -/
inductive StepKind (vm : Vm) (event : Event) (result : Except Panic Vm) : Prop where
  | done (vm' : Vm) (allowed : Allowed vm event) (is : result = .ok vm') (healthy : Healthy vm')
      (divisors : Divisors vm event vm')
  | stopped (panic : Panic) (not : ¬Allowed vm event) (is : result = .error panic)
      (other : panic.ofService = false)

variable {vm : Vm} {event : Event} {result : Except Panic Vm}

/-- A step that changes one local APIC and configures none. -/
theorem StepKind.put (healthy : Healthy vm) (allowed : Allowed vm event) {cpu : Nat} {s : Vlapic}
    (is : result = .ok (vm.put cpu s)) (sync : Sync s) (divisor : s.divisor = (vm.vlapic cpu).divisor)
    (vcpuid : s.vcpuid = (vm.vlapic cpu).vcpuid) (none : ∀ c, ¬Configures c event) :
    StepKind vm event result := by
  refine .done _ allowed is (healthy.put sync vcpuid) fun c => ?_
  rw [or_iff_left (none c)]
  by_cases same : c = cpu
  · rw [same, put_vlapic_self, divisor]
  · rw [put_vlapic_of_ne vm s same]

theorem StepKind.quiet (healthy : Healthy vm) (allowed : Allowed vm event) {cpu : Nat} {s : Vlapic}
    (is : result = .ok (vm.put cpu s)) (quiet : Quiet (vm.vlapic cpu) s) (none : ∀ c, ¬Configures c event) :
    StepKind vm event result :=
  .put healthy allowed is (quiet.sync (healthy.sync cpu)) quiet.divisor quiet.vcpuid none

/-! ## The kinds of steps -/

theorem step_ready (host : Host) (healthy : Healthy vm) (cpu : Fin vmMaxcpu) (vector : Nat) :
    StepKind vm (.ready cpu vector) (step host (.ready cpu vector) vm) := by
  by_cases small : vector < 256
  · refine .quiet healthy small ?_ (quiet_ready (vm.vlapic cpu) vector) fun _ => id
    rw [step, vlapicSetIntrReady_of_lt small]
    rfl
  · refine .stopped .invalidVector small ?_ rfl
    rw [step, vlapicSetIntrReady, if_pos (by omega)]
    rfl

theorem step_setIntr (host : Host) (healthy : Healthy vm) (cpu vector : Nat) :
    StepKind vm (.setIntr cpu vector) (step host (.setIntr cpu vector) vm) := by
  obtain ⟨error, vm', set, quiet, active⟩ := lapicSetIntr_spec vm cpu vector
  refine .done vm' trivial ?_ (healthy.of_quiet quiet active) fun c => ?_
  · rw [step, set]
    rfl
  · rw [(quiet c).divisor]
    exact (or_iff_left id).symm

/-- The vector that was offered is accepted, whatever is made ready in the meantime. -/
theorem acceptOffered_spec {s s' : Vlapic} (sync : Sync s) (quiet : Quiet s s') :
    ∃ s'', acceptOffered (vlapicPendingIntr s) s' = .ok s'' ∧ Sync s'' ∧ s''.divisor = s.divisor ∧
      s''.vcpuid = s.vcpuid := by
  have sync' := quiet.sync sync
  cases offered : vlapicPendingIntr s with
  | none => exact ⟨s', rfl, sync', quiet.divisor, quiet.vcpuid⟩
  | some v =>
      obtain ⟨low, small, -, -, higher⟩ := (vlapicPendingIntr_eq_some_iff).mp offered
      rw [← quiet.ppr] at higher
      obtain ⟨s'', accepted, sync'', -, divisor, vcpuid⟩ := sync'.accept low small higher
      exact ⟨s'', accepted, sync'', divisor.trans quiet.divisor, vcpuid.trans quiet.vcpuid⟩

theorem step_accept (host : Host) (healthy : Healthy vm) (cpu : Fin vmMaxcpu) (meanwhile : List Nat) :
    StepKind vm (.accept cpu meanwhile) (step host (.accept cpu meanwhile) vm) := by
  by_cases small : ∀ v ∈ meanwhile, v < 256
  · obtain ⟨s, ready, quiet, -⟩ := @setAllReady_spec (vm.vlapic cpu) meanwhile small
    obtain ⟨s', accepted, sync, divisor, vcpuid⟩ := acceptOffered_spec (healthy.sync cpu) quiet
    refine .put healthy small ?_ sync divisor vcpuid fun _ => id
    simp only [step, ready, Except.bind, accepted, Except.map]
  · refine .stopped .invalidVector small ?_ rfl
    rw [step, setAllReady_error small]
    rfl

theorem step_read (host : Host) (healthy : Healthy vm) (cpu : Fin vmMaxcpu) (gpa : Nat) :
    StepKind vm (.read cpu gpa) (step host (.read cpu gpa) vm) := by
  obtain ⟨data, read⟩ := vlapicOpMemRead_ok (vm.vlapic cpu) gpa
  refine .done vm trivial ?_ healthy fun c => (or_iff_left id).symm
  rw [step, read]
  rfl

theorem step_tick (host : Host) (healthy : Healthy vm) (cpu : Fin vmMaxcpu) (ticks : BitVec 32) :
    StepKind vm (.tick cpu ticks) (step host (.tick cpu ticks) vm) := by
  obtain ⟨counting, zero, failed⟩ | ⟨allowed, s, done, quiet⟩ :=
    vlapicTimerTick_spec host (vm.vlapic cpu) ticks
  · refine .stopped .divideByZero (fun allowed => allowed counting zero) ?_ rfl
    rw [step, failed]
    rfl
  · refine .quiet healthy allowed ?_ quiet fun _ => id
    rw [step, done]
    rfl

theorem step_write (host : Host) (healthy : Healthy vm) (cpu : Fin vmMaxcpu) (gpa data : Nat)
    (ticks : BitVec 32) :
    StepKind vm (.write cpu gpa data ticks) (step host (.write cpu gpa data ticks) vm) := by
  have kind := vlapicOpMemWrite_kind vm cpu gpa data ticks
  rw [step]
  generalize selected : register gpa = reg at kind
  -- the condition of a write that is neither a command nor a configuration
  have free (notIcr : reg ≠ some 0x300) (notDcr : reg ≠ some 0x3E0) :
      Allowed vm (.write cpu gpa data ticks) ∧ ∀ c, ¬Configures c (.write cpu gpa data ticks) := by
    rw [← selected] at notIcr notDcr
    exact ⟨⟨fun icr => absurd icr notIcr, fun dcr => absurd dcr notDcr⟩, fun c both => notDcr both.2⟩
  cases kind with
  | tpr is =>
      obtain ⟨allowed, none⟩ := free (by decide) (by decide)
      obtain ⟨s, updated, sync, -, divisor, vcpuid⟩ := (healthy.sync cpu).write_tpr data
      refine .put healthy allowed ?_ sync divisor vcpuid none
      rw [is, updated]
      rfl
  | eoi is =>
      obtain ⟨allowed, none⟩ := free (by decide) (by decide)
      obtain ⟨s, ended, sync, -, divisor, vcpuid⟩ := (healthy.sync cpu).eoi
      refine .put healthy allowed ?_ sync divisor vcpuid none
      rw [is, ended]
      rfl
  | icr is =>
      have inside : (vm.vlapic cpu).vcpuid < vmMaxcpu := by
        rw [healthy.vcpuid]
        exact cpu.isLt
      have notDcr : register gpa ≠ some 0x3E0 := by
        rw [selected]
        decide
      obtain ⟨outside, failed⟩ | ⟨within, code, vm', sent, healthy', same⟩ :=
        lapicProcessIcr_spec healthy inside data
      · refine .stopped .cpusetRange (fun allowed => allowed.1 selected outside) ?_ rfl
        rw [is, failed]
        rfl
      · refine .done vm' ⟨fun _ => within, fun dcr => absurd dcr notDcr⟩ ?_ healthy' fun c => ?_
        · rw [is, sent]
          rfl
        · rw [same c]
          exact (or_iff_left fun both => notDcr both.2).symm
  | dcr is =>
      have notIcr : register gpa ≠ some 0x300 := by
        rw [selected]
        decide
      obtain ⟨bad, failed⟩ | ⟨good, divisor, found, nonzero⟩ := vlapicTimerDivisor_spec data
      · refine .stopped .invalidDcr (fun allowed => allowed.2 selected bad) ?_ rfl
        rw [is, failed]
        rfl
      · have sync := healthy.sync cpu
        have quiet : Sync (writeDcr (vm.vlapic cpu) data divisor) :=
          ⟨⟨sync.bottom, sync.range, sync.rising, sync.isr⟩, sync.tpr, sync.ppr⟩
        refine .done (vm.put cpu (writeDcr (vm.vlapic cpu) data divisor))
          ⟨fun icr => absurd icr notIcr, fun _ => good⟩ ?_ (healthy.put quiet rfl) fun c => ?_
        · rw [is, found]
          rfl
        · by_cases same : c = cpu
          · rw [same, put_vlapic_self]
            exact iff_of_true nonzero (.inr ⟨rfl, selected⟩)
          · rw [put_vlapic_of_ne vm _ same]
            exact (or_iff_left fun both => same both.1.symm).symm
  | quiet other is quiet =>
      obtain ⟨allowed, none⟩ := free (other 0x300 (by decide)) (other 0x3E0 (by decide))
      refine .quiet healthy allowed ?_ quiet none
      rw [is]
      rfl

theorem step_reset (host : Host) (healthy : Healthy vm) {cpu : Fin vmMaxcpu}
    (idle : Idle vm (.reset cpu)) : StepKind vm (.reset cpu) (step host (.reset cpu) vm) :=
  .put healthy trivial rfl ((healthy.sync cpu).reset idle) (vlapicOpReset_divisor _)
    (vlapicOpReset_vcpuid _) fun _ => id

/-- A step keeps the local APICs consistent, or it is not allowed and stops the host. -/
theorem step_kind (host : Host) (healthy : Healthy vm) (idle : Idle vm event) :
    StepKind vm event (step host event vm) := by
  cases event with
  | ready cpu vector => exact step_ready host healthy cpu vector
  | setIntr cpu vector => exact step_setIntr host healthy cpu vector
  | accept cpu meanwhile => exact step_accept host healthy cpu meanwhile
  | read cpu gpa => exact step_read host healthy cpu gpa
  | write cpu gpa data ticks => exact step_write host healthy cpu gpa data ticks
  | tick cpu ticks => exact step_tick host healthy cpu ticks
  | reset cpu => exact step_reset host healthy idle

/-! ## Runs -/

theorem healthy_vmCreate : Healthy vmCreate where
  sync := sync_init
  vcpuid cpu := vlapicOpReset_vcpuid _
  active i member := by
    rw [show vmCreate.activeCpus = 0#64 ||| BitVec.twoPow 64 0 from rfl, BitVec.getLsbD_or,
      BitVec.getLsbD_zero, Bool.false_or, BitVec.getLsbD_twoPow, Bool.and_eq_true] at member
    have is : 0 = i := by simpa using member.2
    rw [← is]
    decide

/-- What the self-checks ask of the outcome of a run. -/
def Checked : Except Panic Vm → Prop
  | .ok vm => ∀ cpu, Consistent (vm.vlapic cpu)
  | .error panic => panic.ofService = false

/-- The outcome of a run whose resets find no interrupt in service. -/
def Sound : Except Panic Vm → Prop
  | .ok vm => Healthy vm
  | .error panic => panic.ofService = false

theorem Sound.checked (sound : Sound result) : Checked result := by
  cases result with
  | ok vm => exact fun cpu => (sound.sync cpu).consistent
  | error panic => exact sound

theorem run_concat (host : Host) (front : List Event) (event : Event) (vm : Vm) :
    run host (front ++ [event]) vm = (run host front vm).bind (step host event) := by
  rw [run_append]
  cases run host front vm with
  | error panic => rfl
  | ok next =>
      show (step host event next).bind (run host []) = step host event next
      cases step host event next <;> rfl

theorem run_sound (host : Host) {events : List Event}
    (idle : ∀ front event back vm, events = front ++ event :: back →
      run host front vmCreate = .ok vm → Healthy vm → Idle vm event) :
    Sound (run host events vmCreate) := by
  induction events using List.reverseRecOn with
  | nil => exact healthy_vmCreate
  | append_singleton events event ih =>
      have before := ih fun front other back vm split =>
        idle front other (back ++ [event]) vm (by rw [split, List.append_assoc, List.cons_append])
      rw [run_concat]
      cases reached : run host events vmCreate with
      | error panic =>
          rw [reached] at before
          exact before
      | ok vm =>
          rw [reached] at before
          obtain ⟨vm', -, is, healthy, -⟩ | ⟨panic, -, is, other⟩ :=
            step_kind host before (idle events event [] vm rfl reached before)
          · rw [show (Except.ok vm).bind (step host event) = step host event vm from rfl, is]
            exact healthy
          · rw [show (Except.ok vm).bind (step host event) = step host event vm from rfl, is]
            exact other

/-- The bitmap, the stack and the priority of every local APIC agree in every state of a run,
and no self-check fails, exactly if no local APIC is reset while it has an interrupt in
service. -/
theorem service_checked_iff (host : Host) (events : List Event) :
    (∀ front back, events = front ++ back → Checked (run host front vmCreate)) ↔
      ∀ front (cpu : Fin vmMaxcpu) back vm, events = front ++ .reset cpu :: back → run host front vmCreate = .ok vm →
        (vm.vlapic cpu).isrvecStkTop = 0 := by
  constructor
  · intro checked front cpu back vm split reached
    -- every reset before has found no interrupt, so the state before this one is sound
    have sound : Sound (run host front vmCreate) := by
      apply run_sound
      intro front' event back' vm' split' reached' healthy
      cases event with
      | reset cpu' =>
          by_contra some
          have after := checked (front' ++ [.reset cpu']) (back' ++ .reset cpu :: back) (by
            rw [split, split', List.append_assoc, List.append_assoc]
            rfl)
          rw [run_concat, reached'] at after
          have consistent := after cpu'
          rw [put_vlapic_self] at consistent
          exact (healthy.sync cpu').reset_inconsistent some consistent
      | _ => trivial
    rw [reached] at sound
    by_contra some
    have after := checked (front ++ [.reset cpu]) back (by
      rw [split, List.append_assoc]
      rfl)
    rw [run_concat, reached] at after
    have consistent := after cpu
    rw [put_vlapic_self] at consistent
    exact (sound.sync cpu).reset_inconsistent some consistent
  · intro idle front back split
    apply Sound.checked
    apply run_sound
    intro front' event back' vm' split' reached' _
    cases event with
    | reset cpu =>
        refine idle front' cpu (back' ++ back) vm' ?_ reached'
        rw [split, split', List.append_assoc]
        rfl
    | _ => trivial

/-- The cpu that is active from the start. -/
def bsp : Fin vmMaxcpu := ⟨0, by decide⟩

/-- The panic of an outcome. -/
def panicOf : Except Panic Vm → Option Panic
  | .ok _ => none
  | .error panic => some panic

/-- A reset while vector 32 is in service leaves it on the stack, and the next acceptance stops
the host. -/
theorem reset_in_service_panics :
    panicOf (run ⟨10 ^ 9, 100⟩
      [.ready bsp 32, .accept bsp [], .reset bsp, .ready bsp 48, .accept bsp []] vmCreate) =
        some .outOfSync := by
  decide +kernel

/-! ## Accesses of a guest -/

/-- The guest reads and writes the registers of its local APICs (`num` is from `0x800` to
`0xBFF`), the host clock ticks, and pending interrupts are injected. -/
inductive Access where
  | rdmsr (cpu : Fin vmMaxcpu) (num : Nat)
  | wrmsr (cpu : Fin vmMaxcpu) (num val : Nat) (ticks : BitVec 32)
  | tick (cpu : Fin vmMaxcpu) (ticks : BitVec 32)
  | inject (cpu : Fin vmMaxcpu)

def Access.toEvent : Access → Event
  | rdmsr cpu num => .rdmsr cpu num
  | wrmsr cpu num val ticks => .wrmsr cpu num val ticks
  | tick cpu ticks => .tick cpu ticks
  | inject cpu => .accept cpu []

/-- The outcome of the accesses of a guest. -/
def guestRun (host : Host) (accesses : List Access) : Except Panic Vm :=
  run host (accesses.map Access.toEvent) vmCreate

/-- The guest writes the divide configuration register of a cpu. -/
def SetsDivisor (cpu : Fin vmMaxcpu) : Access → Prop
  | .wrmsr c num _ _ => c = cpu ∧ register (x2apicMsrToRegoff num) = some 0x3E0
  | _ => False

/-- An access after others is harmless: an interrupt command with a destination field names a
cpu that fits into a cpu set, the divide configuration is not the eighth one, and a timer is
not counting before its divide configuration has been written. -/
def Harmless (host : Host) (front : List Access) : Access → Prop
  | .wrmsr _ num val _ =>
      (register (x2apicMsrToRegoff num) = some 0x300 → ¬IcrOutside val) ∧
        (register (x2apicMsrToRegoff num) = some 0x3E0 → val &&& 0xB ≠ 0xB)
  | .tick cpu ticks =>
      (∃ vm, guestRun host front = .ok vm ∧ Counting (vm.vlapic cpu) ticks) →
        ∃ earlier ∈ front, SetsDivisor cpu earlier
  | _ => True

variable {host : Host} {accesses front back : List Access} {access : Access}

theorem idle_toEvent (access : Access) (vm : Vm) : Idle vm access.toEvent := by
  cases access <;> trivial

theorem configures_toEvent (access : Access) (cpu : Fin vmMaxcpu) :
    Configures cpu access.toEvent ↔ SetsDivisor cpu access := by
  cases access with
  | wrmsr c num val ticks => exact and_congr_left fun _ => Fin.val_inj
  | _ => exact Iff.rfl

theorem guestRun_concat (host : Host) (accesses : List Access) (access : Access) :
    guestRun host (accesses ++ [access]) = (guestRun host accesses).bind (step host access.toEvent) := by
  rw [guestRun, List.map_append]
  exact run_concat host _ _ _

/-- What holds after harmless accesses. -/
structure Configured (accesses : List Access) (vm : Vm) : Prop where
  healthy : Healthy vm
  divisor : ∀ cpu : Fin vmMaxcpu, (vm.vlapic cpu).divisor ≠ 0 ↔ ∃ earlier ∈ accesses, SetsDivisor cpu earlier

theorem configured_vmCreate : Configured [] vmCreate where
  healthy := healthy_vmCreate
  divisor cpu := by
    refine iff_of_false (fun nonzero => nonzero ?_) (by simp)
    exact vlapicOpReset_divisor _

/-- One more access: it is allowed and what holds is kept, or it stops the host. -/
theorem Configured.step {vm : Vm} (configured : Configured accesses vm) (host : Host) (access : Access) :
    (Allowed vm access.toEvent ∧ ∃ vm', Apic.step host access.toEvent vm = .ok vm' ∧
      Configured (accesses ++ [access]) vm') ∨
    (¬Allowed vm access.toEvent ∧ ∃ panic, Apic.step host access.toEvent vm = .error panic) := by
  obtain ⟨vm', allowed, is, healthy, divisors⟩ | ⟨panic, not, is, -⟩ :=
    step_kind host configured.healthy (idle_toEvent access vm)
  · refine .inl ⟨allowed, vm', is, healthy, fun cpu => ?_⟩
    rw [divisors cpu, configured.divisor cpu, configures_toEvent]
    simp only [List.mem_append, List.mem_singleton, or_and_right, exists_or, exists_eq_left]
  · exact .inr ⟨not, panic, is⟩

theorem configured_of_run {vm : Vm} (reached : guestRun host accesses = .ok vm) :
    Configured accesses vm := by
  induction accesses using List.reverseRecOn generalizing vm with
  | nil =>
      obtain rfl := Except.ok.inj reached
      exact configured_vmCreate
  | append_singleton accesses access ih =>
      rw [guestRun_concat] at reached
      cases before : guestRun host accesses with
      | error panic =>
          rw [before] at reached
          cases reached
      | ok middle =>
          rw [before] at reached
          obtain ⟨-, vm', is, configured⟩ | ⟨-, panic, is⟩ := (ih before).step host access
          · obtain rfl : vm' = vm := Except.ok.inj (is.symm.trans reached)
            exact configured
          · cases is.symm.trans reached

/-- A run reaches a state before each access. -/
theorem guestRun_split {vm : Vm} (reached : guestRun host (front ++ back) = .ok vm) :
    ∃ middle, guestRun host front = .ok middle := by
  rw [guestRun, List.map_append, run_append] at reached
  cases before : run host (front.map Access.toEvent) vmCreate with
  | error panic =>
      rw [before] at reached
      cases reached
  | ok middle => exact ⟨middle, before⟩

/-- An access is allowed in the state before it exactly if it is harmless. -/
theorem allowed_iff {vm : Vm} (reached : guestRun host front = .ok vm) :
    Allowed vm access.toEvent ↔ Harmless host front access := by
  cases access with
  | rdmsr cpu num => exact Iff.rfl
  | wrmsr cpu num val ticks => exact Iff.rfl
  | inject cpu => exact iff_of_true (fun v member => nomatch member) trivial
  | tick cpu ticks =>
      have divisor := (configured_of_run reached).divisor cpu
      constructor
      · rintro allowed ⟨vm', reached', counting⟩
        obtain rfl : vm = vm' := Except.ok.inj (reached.symm.trans reached')
        exact divisor.mp (allowed counting)
      · intro configured counting
        exact divisor.mpr (configured ⟨vm, reached, counting⟩)

/-- A guest does not stop the host through its local APICs exactly if each of its accesses is
harmless. -/
theorem guest_harmless_iff (host : Host) (accesses : List Access) :
    (∃ vm, guestRun host accesses = .ok vm) ↔
      ∀ front access back, accesses = front ++ access :: back → Harmless host front access := by
  constructor
  · rintro ⟨vm, reached⟩ front access back rfl
    obtain ⟨middle, before⟩ := guestRun_split reached
    obtain ⟨next, after⟩ := @guestRun_split host (front ++ [access]) back vm (by
      rw [List.append_assoc]
      exact reached)
    rw [guestRun_concat, before] at after
    apply (allowed_iff before).mp
    obtain ⟨allowed, -⟩ | ⟨-, panic, is⟩ := (configured_of_run before).step host access
    · exact allowed
    · cases is.symm.trans after
  · intro tame
    induction accesses using List.reverseRecOn with
    | nil => exact ⟨vmCreate, rfl⟩
    | append_singleton accesses access ih =>
        obtain ⟨vm, before⟩ := ih fun front other back split =>
          tame front other (back ++ [access]) (by rw [split, List.append_assoc, List.cons_append])
        have allowed := (allowed_iff before).mpr (tame accesses access [] rfl)
        rw [guestRun_concat, before]
        obtain ⟨-, vm', is, -⟩ | ⟨not, -⟩ := (configured_of_run before).step host access
        · exact ⟨vm', is⟩
        · exact absurd allowed not

/-- The divide configuration for a divisor of one stops the host.  So does an interrupt
command to cpu 64, and a tick of a timer that has been started without a divisor. -/
theorem guest_stops_host :
    panicOf (guestRun ⟨10 ^ 9, 100⟩ [.wrmsr bsp 0x83E 0xB 0]) = some .invalidDcr ∧
      panicOf (guestRun ⟨10 ^ 9, 100⟩ [.wrmsr bsp 0x830 (64 * 2 ^ 32 + 48) 0]) = some .cpusetRange ∧
      panicOf (guestRun ⟨10 ^ 9, 100⟩ [.wrmsr bsp 0x838 1000 0, .tick bsp 1]) = some .divideByZero := by
  decide

end Dragonfly.Vmm.Apic
