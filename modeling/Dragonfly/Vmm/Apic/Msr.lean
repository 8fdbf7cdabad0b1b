import Dragonfly.Vmm.Apic.System
import Mathlib.Tactic.IntervalCases
import Mathlib.Tactic.Tauto

/-!
# The registers as model specific registers

The guest names a register of its local APIC by the number of a model specific register.  A
write of one number is compared with a read of another one.
-/

namespace Dragonfly.Vmm.Apic

open Dragonfly.Lib.Words

/-- `x2apic_msr` -/
def x2apicMsr (num : Nat) : Bool := 0x800 ≤ num ∧ num ≤ 0xBFF

/-- `emulate_rdmsr` of a number that `x2apic_msr` accepts: the value for the guest. -/
def emulateRdmsr (vm : Vm) (cpu num : Nat) : Except Panic Nat :=
  (vlapicOpMemRead (vm.vlapic cpu) (x2apicMsrToRegoff num)).map fun result =>
    if num = 0x802 then result >>> 24 else result

/-- `emulate_wrmsr` of a number that `x2apic_msr` accepts, at the host time `ticks`. -/
def emulateWrmsr (vm : Vm) (cpu num val : Nat) (ticks : BitVec 32) : Except Panic (Bool × Vm) :=
  (vlapicOpMemWrite vm cpu (x2apicMsrToRegoff num) val ticks).map fun (error, vm) => (error = 0, vm)

/-- The couplings of the architecture: the end of an interrupt changes what is in service, it
and the task priority change the processor priority, the initial count sets the current
count, and an interrupt command requests interrupts. -/
def Coupled (n m : Nat) : Prop :=
  n = 0x80B ∧ (m = 0x80A ∨ 0x810 ≤ m ∧ m ≤ 0x817) ∨ n = 0x808 ∧ m = 0x80A ∨ n = 0x838 ∧ m = 0x839 ∨
    n = 0x830 ∧ 0x820 ≤ m ∧ m ≤ 0x827

/-- The registers that keep what is written, or part of it. -/
def Writable (n : Nat) : Prop :=
  n = 0x802 ∨ n = 0x808 ∨ n = 0x80F ∨ n = 0x828 ∨ 0x832 ≤ n ∧ n ≤ 0x837 ∨ n = 0x838 ∨ n = 0x83E

/-- A write of the one register can change the other one.  The first word of the interrupts in
service and the first word of the requests never change. -/
def Changes (n m : Nat) : Prop := n = m ∧ Writable n ∨ Coupled n m ∧ m ≠ 0x810 ∧ m ≠ 0x820

/-- The number that has the same offset but for the bit that the accesses leave out. -/
def folded (num : Nat) : Nat := if 0x900 ≤ num ∧ num ≤ 0x9FF then num - 0x100 else num

/-- The offset of a register within its page. -/
def offsetOf (num : Nat) : Nat := 16 * (num - 0x800)

variable {vm vm' : Vm} {s s' : Vlapic} {lapic : Lapic} {n m : Nat}

/-! ## What an access selects -/

/-- The mask leaves one bit of the number of the page. -/
theorem regOffset_page {page x : Nat} (small : page < 4) (inside : x < 4096) :
    regOffset (4096 * page + x) = 4096 * (page &&& 2) + x := by
  have low : regOffset (4096 * page + x) % 4096 = x := by
    have mask : regOffset (4096 * page + x) % 2 ^ 12 = (4096 * page + x) % 2 ^ 12 := by
      rw [regOffset, Nat.and_mod_two_pow, show (2 ^ 64 - 1 - 0x1000) % 2 ^ 12 = 2 ^ 12 - 1 from rfl,
        Nat.and_two_pow_sub_one_eq_mod, Nat.mod_mod]
    omega
  have high : regOffset (4096 * page + x) / 4096 = page &&& 2 := by
    have number : (4096 * page + x) / 2 ^ 12 = page := by omega
    have mask : regOffset (4096 * page + x) / 2 ^ 12 = page &&& (2 ^ 64 - 1 - 0x1000) / 2 ^ 12 := by
      rw [regOffset, Nat.and_div_two_pow, number]
    rw [show 4096 = 2 ^ 12 from rfl] at mask ⊢
    rw [mask]
    interval_cases page
    · rfl
    · rfl
    · rfl
    · rfl
  have whole := Nat.div_add_mod (regOffset (4096 * page + x)) 4096
  rw [low, high] at whole
  exact whole.symm

theorem regOffset_msr (low : 0x800 ≤ n) (high : n ≤ 0xBFF) :
    regOffset (x2apicMsrToRegoff n) = 4096 * ((n - 0x800) / 256 &&& 2) + 16 * ((n - 0x800) % 256) := by
  have small : (n - 0x800) / 256 < 4 := by omega
  have inside : 16 * ((n - 0x800) % 256) < 4096 := by omega
  have split : x2apicMsrToRegoff n = 4096 * ((n - 0x800) / 256) + 16 * ((n - 0x800) % 256) := by
    unfold x2apicMsrToRegoff
    omega
  rw [split, regOffset_page small inside]

/-- Two numbers that differ in the bit that is left out select the same register. -/
theorem register_folded (low : 0x800 ≤ n) (high : n ≤ 0x9FF) :
    register (x2apicMsrToRegoff n) = if folded n ≤ 0x840 then some (offsetOf (folded n)) else none := by
  have page : (n - 0x800) / 256 &&& 2 = 0 := by
    rcases (by omega : (n - 0x800) / 256 = 0 ∨ (n - 0x800) / 256 = 1) with zero | one
    · rw [zero]
      rfl
    · rw [one]
      rfl
  have offset : 16 * ((n - 0x800) % 256) = offsetOf (folded n) := by
    unfold offsetOf folded
    split
    · omega
    · omega
  have limit : 0x400 < offsetOf (folded n) ↔ ¬folded n ≤ 0x840 := by
    unfold offsetOf
    omega
  have whole : regOffset (x2apicMsrToRegoff n) = offsetOf (folded n) := by
    have split := @regOffset_msr n low (by omega)
    rw [page, offset] at split
    omega
  simp only [register, whole]
  by_cases inside : folded n ≤ 0x840
  · have aligned : offsetOf (folded n) / 4 * 4 = offsetOf (folded n) := by
      unfold offsetOf
      omega
    rw [if_neg fun behind => limit.mp behind inside, if_pos inside, aligned]
  · rw [if_pos (limit.mpr inside), if_neg inside]

/-- The upper half of the numbers selects no register. -/
theorem register_upper (low : 0xA00 ≤ n) (high : n ≤ 0xBFF) : register (x2apicMsrToRegoff n) = none := by
  have page : (n - 0x800) / 256 &&& 2 = 2 := by
    rcases (by omega : (n - 0x800) / 256 = 2 ∨ (n - 0x800) / 256 = 3) with two | three
    · rw [two]
      rfl
    · rw [three]
      rfl
  rw [register, regOffset_msr (by omega) high, page, if_pos (by omega)]

theorem vlapicOpMemRead_eq (s : Vlapic) (gpa : Nat) :
    vlapicOpMemRead s gpa = match register gpa with
      | none => .ok 0
      | some offset => readRegister s.apic offset := by
  rw [vlapicOpMemRead, register]
  split
  · rfl
  · rfl

theorem vlapicOpMemWrite_eq (vm : Vm) (cpu gpa data : Nat) (ticks : BitVec 32) :
    vlapicOpMemWrite vm cpu gpa data ticks = match register gpa with
      | none => .ok (0, vm)
      | some offset => writeRegister vm cpu offset data ticks := by
  rw [vlapicOpMemWrite, register]
  split
  · rfl
  · rfl

/-! ## What a write leaves alone -/

/-- Only requests above the first word have been added. -/
def Requested (lapic lapic' : Lapic) : Prop := ∃ irr : WordArray, irr 0 = lapic.irr 0 ∧ lapic' = { lapic with irr := irr }

theorem Requested.refl (lapic : Lapic) : Requested lapic lapic := ⟨lapic.irr, rfl, rfl⟩

theorem Requested.trans {a b c : Lapic} (first : Requested a b) (second : Requested b c) : Requested a c := by
  obtain ⟨irr, same, rfl⟩ := first
  obtain ⟨irr', same', rfl⟩ := second
  exact ⟨irr', same'.trans same, rfl⟩

theorem requested_setIntr {cpu vector code : Nat} (done : lapicSetIntr vm cpu vector = .ok (code, vm')) (c : Nat) :
    Requested (vm.vlapic c).apic (vm'.vlapic c).apic := by
  rw [lapicSetIntr] at done
  split at done
  · cases done
    exact .refl _
  split at done
  · cases done
    exact .refl _
  · rw [vlapicSetIntrReady_of_lt (by omega)] at done
    cases done
    revert c
    refine forall_put (P := fun c s => Requested (vm.vlapic c).apic s.apic) (fun c => .refl _) ⟨_, ?_, rfl⟩
    rw [setBit, Function.update_of_ne (by omega)]

theorem requested_deliver {dmask : BitVec 64} {fixed : Bool} {vec : Nat} {cpus : List Nat}
    (done : deliver dmask fixed vec cpus vm = .ok vm') (c : Nat) :
    Requested (vm.vlapic c).apic (vm'.vlapic c).apic := by
  induction cpus generalizing dmask vm with
  | nil =>
      cases done
      exact .refl _
  | cons i rest ih =>
      rw [deliver] at done
      cases clear : cpuClr i dmask with
      | error panic =>
          rw [clear] at done
          cases done
      | ok dmask' =>
          rw [clear] at done
          simp only [Except.bind] at done
          split at done
          · cases set : lapicSetIntr vm i vec with
            | error panic =>
                rw [set] at done
                cases done
            | ok result =>
                rw [set] at done
                exact (requested_setIntr set c).trans (ih done)
          · exact ih done

theorem requested_icr {vcpuid icrval code : Nat} (done : lapicProcessIcr vm vcpuid icrval = .ok (code, vm'))
    (c : Nat) : Requested (vm.vlapic c).apic (vm'.vlapic c).apic := by
  rw [lapicProcessIcr] at done
  split at done
  · cases mask : icrMask vm vcpuid (icrval / 2 ^ 32 % 2 ^ 32) (icrval &&& 0xc0000) with
    | error panic =>
        rw [mask] at done
        cases done
    | ok dmask =>
        rw [mask] at done
        simp only [Except.bind] at done
        split at done
        · cases done
        · rename_i next delivered
          cases done
          exact requested_deliver delivered c
  split at done
  · cases done
    rw [vmActivateCpu]
    split
    · exact .refl _
    · exact .refl _
  · cases done
    exact .refl _

/-- An update of the processor priority changes nothing else. -/
theorem vlapicUpdatePpr_frame (done : vlapicUpdatePpr s = .ok s') :
    ∃ ppr, s' = { s with apic.ppr := ppr } := by
  rw [vlapicUpdatePpr] at done
  split at done
  · cases done
  split at done
  · cases done
  split at done
  · cases done
  · cases done
    exact ⟨_, rfl⟩

/-- The end of an interrupt changes the processor priority and the interrupts in service above
the first word. -/
theorem vlapicProcessEoi_frame (done : vlapicProcessEoi s = .ok s') :
    ∃ isr : WordArray, ∃ ppr, isr 0 = s.apic.isr 0 ∧ s'.apic = { s.apic with isr := isr, ppr := ppr } := by
  rw [vlapicProcessEoi] at done
  cases found : highest s.apic.isr 7 with
  | none =>
      rw [found] at done
      cases done
      exact ⟨s.apic.isr, s.apic.ppr, rfl, rfl⟩
  | some vector =>
      rw [found] at done
      simp only at done
      split at done
      · cases done
      · obtain ⟨ppr, rfl⟩ := vlapicUpdatePpr_frame done
        have above := (highest_eq_some found).1
        refine ⟨clearBit s.apic.isr vector, ppr, ?_, rfl⟩
        rw [clearBit, Function.update_of_ne (by omega)]

theorem read_put {offset cpu : Nat}
    (same : readRegister s.apic offset = readRegister (vm.vlapic cpu).apic offset) (c : Nat) :
    readRegister ((vm.put cpu s).vlapic c).apic offset = readRegister (vm.vlapic c).apic offset :=
  forall_put (P := fun c s => readRegister s.apic offset = readRegister (vm.vlapic c).apic offset) (fun _ => rfl) same c

/-- Requests are seen in the words of requests above the first one only. -/
theorem Requested.read {lapic' : Lapic} (requested : Requested lapic lapic') {offset : Nat}
    (other : ¬(0x210 ≤ offset ∧ offset ≤ 0x270)) : readRegister lapic' offset = readRegister lapic offset := by
  obtain ⟨irr, first, rfl⟩ := requested
  by_cases inside : 0x200 ≤ offset ∧ offset ≤ 0x270
  · have word : wordAt irr ((offset - 0x200) / 4) = wordAt lapic.irr ((offset - 0x200) / 4) := by
      unfold wordAt
      split
      · rename_i aligned
        have zero : (offset - 0x200) / 4 / 4 = 0 := by omega
        rw [zero, first]
      · rfl
    simp only [readRegister, word]
  · simp only [readRegister, if_neg inside]

/-- The end of an interrupt is seen in the processor priority and in the words of what is in
service above the first one only. -/
theorem read_of_eoi {isr : WordArray} {ppr offset : Nat} (first : isr 0 = lapic.isr 0) (priority : offset ≠ 0xA0)
    (other : ¬(0x110 ≤ offset ∧ offset ≤ 0x170)) :
    readRegister { lapic with isr := isr, ppr := ppr } offset = readRegister lapic offset := by
  by_cases inside : 0x100 ≤ offset ∧ offset ≤ 0x170
  · have word : wordAt isr ((offset - 0x100) / 4) = wordAt lapic.isr ((offset - 0x100) / 4) := by
      unfold wordAt
      split
      · rename_i aligned
        have zero : (offset - 0x100) / 4 / 4 = 0 := by omega
        rw [zero, first]
      · rfl
    simp only [readRegister, word, if_neg priority]
  · simp only [readRegister, if_neg inside, if_neg priority]

/-- A write of a register does not change what a read of another one returns, except for the
couplings. -/
theorem writeRegister_frame {a b cpu data code : Nat} {ticks : BitVec 32} (first : 0x800 ≤ a) (second : 0x800 ≤ b)
    (done : writeRegister vm cpu (offsetOf a) data ticks = .ok (code, vm')) (clear : ¬Changes a b) (c : Nat) :
    readRegister (vm'.vlapic c).apic (offsetOf b) = readRegister (vm.vlapic c).apic (offsetOf b) := by
  have number : offsetOf a = 16 * (a - 0x800) := rfl
  have number' : offsetOf b = 16 * (b - 0x800) := rfl
  rw [writeRegister] at done
  by_cases id : offsetOf a = 0x20
  · have other : offsetOf b ≠ 0x20 := fun same => clear (.inl ⟨by omega, .inl (by omega)⟩)
    rw [if_pos id] at done
    cases done
    apply read_put
    simp only [readRegister, if_neg other]
  rw [if_neg id] at done
  by_cases tpr : offsetOf a = 0x80
  · have other : offsetOf b ≠ 0x80 := fun same => clear (.inl ⟨by omega, .inr (.inl (by omega))⟩)
    have priority : offsetOf b ≠ 0xA0 := fun same =>
      clear (.inr ⟨.inr (.inl ⟨by omega, by omega⟩), by omega, by omega⟩)
    rw [if_pos tpr] at done
    cases updated : vlapicUpdatePpr { vm.vlapic cpu with apic.tpr := data % 256 } with
    | error panic =>
        rw [updated] at done
        cases done
    | ok s' =>
        rw [updated] at done
        cases done
        obtain ⟨ppr, rfl⟩ := vlapicUpdatePpr_frame updated
        apply read_put
        simp only [readRegister, if_neg other, if_neg priority]
  rw [if_neg tpr] at done
  by_cases eoi : offsetOf a = 0xB0
  · have priority : offsetOf b ≠ 0xA0 := fun same =>
      clear (.inr ⟨.inl ⟨by omega, .inl (by omega)⟩, by omega, by omega⟩)
    have word : ¬(0x110 ≤ offsetOf b ∧ offsetOf b ≤ 0x170) := fun inside =>
      clear (.inr ⟨.inl ⟨by omega, .inr ⟨by omega, by omega⟩⟩, by omega, by omega⟩)
    rw [if_pos eoi] at done
    cases processed : vlapicProcessEoi (vm.vlapic cpu) with
    | error panic =>
        rw [processed] at done
        cases done
    | ok s' =>
        rw [processed] at done
        cases done
        obtain ⟨isr, ppr, same, apic⟩ := vlapicProcessEoi_frame processed
        apply read_put
        rw [apic]
        exact read_of_eoi same priority word
  rw [if_neg eoi] at done
  by_cases svr : offsetOf a = 0xF0
  · have other : offsetOf b ≠ 0xF0 := fun same => clear (.inl ⟨by omega, .inr (.inr (.inl (by omega)))⟩)
    rw [if_pos svr] at done
    cases done
    apply read_put
    simp only [readRegister, if_neg other]
  rw [if_neg svr] at done
  by_cases icr : offsetOf a = 0x300
  · have word : ¬(0x210 ≤ offsetOf b ∧ offsetOf b ≤ 0x270) := fun inside =>
      clear (.inr ⟨.inr (.inr (.inr ⟨by omega, by omega, by omega⟩)), by omega, by omega⟩)
    rw [if_pos icr] at done
    exact (requested_icr done c).read word
  rw [if_neg icr] at done
  by_cases lvt : 0x320 ≤ offsetOf a ∧ offsetOf a ≤ 0x370
  · have other : a ≠ b := fun same =>
      clear (.inl ⟨same, .inr (.inr (.inr (.inr (.inl ⟨by omega, by omega⟩))))⟩)
    rw [if_pos lvt, vlapicGetLvt, if_neg (by omega)] at done
    cases done
    apply read_put
    by_cases inside : 0x320 ≤ offsetOf b ∧ offsetOf b ≤ 0x370
    · have apart : (offsetOf b - 0x320) / 4 ≠ (offsetOf a - 0x320) / 4 := by omega
      simp only [readRegister, vlapicGetLvt, writeLvt, if_neg (by omega : ¬(offsetOf b < 0x320 ∨ 0x370 < offsetOf b)),
        Except.map, Function.update_of_ne apart]
    · simp only [readRegister, writeLvt, if_neg inside]
  rw [if_neg lvt] at done
  by_cases timer : offsetOf a = 0x380
  · have other : offsetOf b ≠ 0x380 := fun same =>
      clear (.inl ⟨by omega, .inr (.inr (.inr (.inr (.inr (.inl (by omega))))))⟩)
    have current : offsetOf b ≠ 0x390 := fun same =>
      clear (.inr ⟨.inr (.inr (.inl ⟨by omega, by omega⟩)), by omega, by omega⟩)
    rw [if_pos timer] at done
    cases done
    apply read_put
    simp only [readRegister, vlapicStartTimer, if_neg other, if_neg current]
  rw [if_neg timer] at done
  by_cases dcr : offsetOf a = 0x3E0
  · have other : offsetOf b ≠ 0x3E0 := fun same =>
      clear (.inl ⟨by omega, .inr (.inr (.inr (.inr (.inr (.inr (by omega))))))⟩)
    rw [if_pos dcr] at done
    cases divided : vlapicTimerDivisor data with
    | error panic =>
        rw [divided] at done
        cases done
    | ok divisor =>
        rw [divided] at done
        cases done
        apply read_put
        simp only [readRegister, writeDcr, if_neg other]
  rw [if_neg dcr] at done
  by_cases esr : offsetOf a = 0x280
  · have other : offsetOf b ≠ 0x280 := fun same =>
      clear (.inl ⟨by omega, .inr (.inr (.inr (.inl (by omega))))⟩)
    rw [if_pos esr] at done
    cases done
    apply read_put
    simp only [readRegister, if_neg other]
  · rw [if_neg esr] at done
    cases done
    rfl

/-! ## What a write changes -/

/-- A local APIC with one interrupt in service. -/
def serving (vector cpu : Nat) : Vlapic :=
  { vlapicInit cpu with
    apic.isr := setBit (fun _ => 0) vector
    apic.ppr := vector &&& 0xf0
    apic.esr := 1
    isrvecStk := Function.update (fun _ => 0) 1 vector
    isrvecStkTop := 1 }

/-- The same local APIC without the interrupt in service, before the priority is brought up to date. -/
def served (vector cpu : Nat) : Vlapic :=
  { serving vector cpu with
    apic.isr := clearBit (serving vector cpu).apic.isr vector
    isrvecStkTop := (serving vector cpu).isrvecStkTop - 1 }

/-- A virtual machine with one interrupt in service on each cpu. -/
def busy (vector : Nat) : Vm := { vlapic := serving vector, activeCpus := 1 }

/-- A write of the one register changes what a read of the other one returns. -/
def Seen (a b : Nat) : Prop :=
  ∃ (vm vm' : Vm) (val : BitVec 64) (code old new : Nat),
    writeRegister vm 0 (offsetOf a) val.toNat 0 = .ok (code, vm') ∧
      readRegister (vm.vlapic 0).apic (offsetOf b) = .ok old ∧
      readRegister (vm'.vlapic 0).apic (offsetOf b) = .ok new ∧ old ≠ new ∧
      (b = 0x802 → old >>> 24 ≠ new >>> 24)

theorem seen_writable (writable : Writable n) (plain : n ≠ 0x808) : Seen n n := by
  rcases writable with rfl | rfl | rfl | rfl | lvt | rfl | rfl
  · exact ⟨busy 32, _, 0xff000000#64, 0, _, _, rfl, rfl, rfl, by decide, by decide⟩
  · exact absurd rfl plain
  · exact ⟨busy 32, _, 0#64, 0, _, _, rfl, rfl, rfl, by decide, by decide⟩
  · exact ⟨busy 32, _, 0#64, 0, _, _, rfl, rfl, rfl, by decide, by decide⟩
  · obtain ⟨low, high⟩ := lvt
    interval_cases n
    all_goals exact ⟨busy 32, _, 0x20000#64, 0, 0x10000, 0x30000, rfl, rfl, rfl, by decide, by decide⟩
  · exact ⟨busy 32, _, 5#64, 0, _, _, rfl, rfl, rfl, by decide, by decide⟩
  · exact ⟨busy 32, _, 1#64, 0, _, _, rfl, rfl, rfl, by decide, by decide⟩

theorem seen_count : Seen 0x838 0x839 :=
  ⟨busy 32, _, 5#64, 0, _, _, rfl, rfl, rfl, by decide, by decide⟩

theorem seen_command (low : 0x821 ≤ m) (high : m ≤ 0x827) : Seen 0x830 m := by
  interval_cases m
  · exact ⟨busy 32, _, 0x40020#64, 0, 0, 1, rfl, rfl, rfl, by decide, by decide⟩
  · exact ⟨busy 32, _, 0x40040#64, 0, 0, 1, rfl, rfl, rfl, by decide, by decide⟩
  · exact ⟨busy 32, _, 0x40060#64, 0, 0, 1, rfl, rfl, rfl, by decide, by decide⟩
  · exact ⟨busy 32, _, 0x40080#64, 0, 0, 1, rfl, rfl, rfl, by decide, by decide⟩
  · exact ⟨busy 32, _, 0x400a0#64, 0, 0, 1, rfl, rfl, rfl, by decide, by decide⟩
  · exact ⟨busy 32, _, 0x400c0#64, 0, 0, 1, rfl, rfl, rfl, by decide, by decide⟩
  · exact ⟨busy 32, _, 0x400e0#64, 0, 0, 1, rfl, rfl, rfl, by decide, by decide⟩

theorem bit_serving (vector cpu v : Nat) : bit (serving vector cpu).apic.isr v = decide (v = vector) := by
  rw [serving, bit_setBit, bit_zero, Bool.false_or]

theorem inService_served (vector cpu : Nat) : InService (served vector cpu) where
  bottom := rfl
  range i first last := absurd (first.trans last) (Nat.not_succ_le_zero 0)
  rising i first last := absurd last (Nat.not_lt_zero i)
  isr v small := by
    have clear : bit (served vector cpu).apic.isr v = false := by
      rw [served, bit_clearBit, bit_serving, Bool.and_not_self]
    rw [clear]
    constructor
    · nofun
    · rintro ⟨i, first, last, -⟩
      exact absurd (first.trans last) (Nat.not_succ_le_zero 0)

theorem write_eoi {vector : Nat} (low : 32 ≤ vector) (high : vector < 256) :
    ∃ s', writeRegister (busy vector) 0 (offsetOf 0x80B) 0 0 = .ok (0, (busy vector).put 0 s') ∧
      s'.apic.isr = clearBit (serving vector 0).apic.isr vector ∧ s'.apic.ppr = 0 := by
  have found : highest (serving vector 0).apic.isr 7 = some vector := by
    refine highest_eq_some_iff.mpr ⟨low, high, ?_, ?_⟩
    · rw [bit_serving, decide_eq_true rfl]
    · intro v above small
      rw [bit_serving, decide_eq_false above.ne']
  have processed : vlapicProcessEoi (serving vector 0) = vlapicUpdatePpr (served vector 0) := by
    rw [vlapicProcessEoi, found]
    exact if_neg Nat.one_ne_zero
  have dispatched : writeRegister (busy vector) 0 (offsetOf 0x80B) 0 0 =
      (vlapicProcessEoi (serving vector 0)).map fun s => (0, (busy vector).put 0 s) := rfl
  have top : (served vector 0).isrvecStk (served vector 0).isrvecStkTop = 0 := (inService_served vector 0).bottom
  have updated := vlapicUpdatePpr_eq (inService_served vector 0)
  have lowest : prio 0 ≤ prio (served vector 0).apic.tpr := Nat.zero_le _
  rw [top, if_pos lowest] at updated
  rw [dispatched, processed, updated]
  exact ⟨_, rfl, rfl, rfl⟩

theorem write_tpr : ∃ s', writeRegister vmCreate 0 (offsetOf 0x808) 0x40 0 = .ok (0, vmCreate.put 0 s') ∧
    s'.apic.tpr = 0x40 ∧ s'.apic.ppr = 0x40 := by
  have service : InService { vlapicInit 0 with apic.tpr := 0x40 } :=
    ⟨(sync_init 0).bottom, (sync_init 0).range, (sync_init 0).rising, (sync_init 0).isr⟩
  have dispatched : writeRegister vmCreate 0 (offsetOf 0x808) 0x40 0 =
      (vlapicUpdatePpr { vlapicInit 0 with apic.tpr := 0x40 }).map fun s => (0, vmCreate.put 0 s) := rfl
  rw [dispatched, vlapicUpdatePpr_eq service]
  exact ⟨_, rfl, rfl, rfl⟩

/-- The word of the only vector, before and after. -/
theorem wordAt_serving {j : Nat} :
    wordAt (serving (32 * j) 0).apic.isr (4 * j) = 1 ∧
      wordAt (clearBit (serving (32 * j) 0).apic.isr (32 * j)) (4 * j) = 0 := by
  have place : 32 * j / 32 = j := Nat.mul_div_cancel_left j (by decide)
  have offset : 32 * j % 32 = 0 := Nat.mul_mod_right 32 j
  have aligned : 4 * j % 4 = 0 := Nat.mul_mod_right 4 j
  have word : 4 * j / 4 = j := Nat.mul_div_cancel_left j (by decide)
  simp only [wordAt, aligned, word, serving, setBit, clearBit, place, offset, Function.update_self]
  constructor
  · rfl
  · rfl

theorem seen_eoi (low : 0x811 ≤ m) (high : m ≤ 0x817) : Seen 0x80B m := by
  obtain ⟨s', done, isr, -⟩ := @write_eoi (32 * (m - 0x810)) (by omega) (by omega)
  have words := @wordAt_serving (m - 0x810)
  rw [← isr] at words
  have offset : (offsetOf m - 0x100) / 4 = 4 * (m - 0x810) := by
    unfold offsetOf
    omega
  have read : ∀ lapic : Lapic, readRegister lapic (offsetOf m) = .ok (wordAt lapic.isr (4 * (m - 0x810))) := by
    intro lapic
    rw [← offset]
    interval_cases m
    all_goals rfl
  refine ⟨busy (32 * (m - 0x810)), _, 0#64, 0, 1, 0, done, ?_, ?_, by decide, by omega⟩
  · rw [read, ← words.1]
    rfl
  · rw [read, put_vlapic_self, words.2]

/-- Every change that is not excluded is seen in some state. -/
theorem seen_of_changes (changes : Changes n m) : Seen n m := by
  rcases changes with ⟨rfl, writable⟩ | ⟨coupled, noService, noRequest⟩
  · by_cases tpr : n = 0x808
    · subst tpr
      obtain ⟨s', done, value, -⟩ := write_tpr
      refine ⟨vmCreate, _, 0x40#64, 0, 0, 0x40, done, rfl, ?_, by decide, by decide⟩
      rw [put_vlapic_self, ← value]
      rfl
    · exact seen_writable writable tpr
  · rcases coupled with ⟨rfl, rfl | ⟨low, high⟩⟩ | ⟨rfl, rfl⟩ | ⟨rfl, rfl⟩ | ⟨rfl, low, high⟩
    · obtain ⟨s', done, -, value⟩ := @write_eoi 32 (by decide) (by decide)
      refine ⟨busy 32, _, 0#64, 0, 0x20, 0, done, rfl, ?_, by decide, by decide⟩
      rw [put_vlapic_self, ← value]
      rfl
    · exact seen_eoi (by omega) high
    · obtain ⟨s', done, -, value⟩ := write_tpr
      refine ⟨vmCreate, _, 0x40#64, 0, 0, 0x40, done, rfl, ?_, by decide, by decide⟩
      rw [put_vlapic_self, ← value]
      rfl
    · exact seen_count
    · exact seen_command (by omega) high

/-! ## Two numbers -/

/-- A write of the one number never changes what any cpu reads from the other one. -/
def Independent (n m : Nat) : Prop :=
  ∀ (vm vm' : Vm) (cpu reader : Fin vmMaxcpu) (val : BitVec 64) (ticks : BitVec 32) (handled : Bool),
    emulateWrmsr vm cpu n val.toNat ticks = .ok (handled, vm') → emulateRdmsr vm' reader m = emulateRdmsr vm reader m

/-- A write of the number does nothing at all. -/
def Ignored (n : Nat) : Prop :=
  ∀ (vm : Vm) (cpu : Fin vmMaxcpu) (val : BitVec 64) (ticks : BitVec 32),
    emulateWrmsr vm cpu n val.toNat ticks = .ok (true, vm)

/-- The numbers of the registers of a local APIC. -/
def HasRegister (n : Nat) : Prop :=
  n = 0x802 ∨ n = 0x803 ∨ 0x808 ≤ n ∧ n ≤ 0x828 ∨ 0x830 ≤ n ∧ n ≤ 0x839 ∨ n = 0x83E

/-- One of the numbers selects the register of another number, and a write of the first
selected register can change the second one. -/
def Aliased (n m : Nat) : Prop := (folded n ≠ n ∨ folded m ≠ m) ∧ Changes (folded n) (folded m)

/-- The number selects the register of another number, and a write of that register acts. -/
def Acts (n : Nat) : Prop := folded n ≠ n ∧ (Writable (folded n) ∨ folded n = 0x80B ∨ folded n = 0x830)

theorem register_msr (low : 0x800 ≤ n) (high : n ≤ 0xBFF) :
    register (x2apicMsrToRegoff n) = if folded n ≤ 0x840 then some (offsetOf (folded n)) else none := by
  by_cases lower : n ≤ 0x9FF
  · exact register_folded low lower
  · have same : folded n = n := if_neg (by omega)
    rw [register_upper (by omega) high, if_neg (by omega)]

theorem folded_ge (low : 0x800 ≤ n) : 0x800 ≤ folded n := by
  unfold folded
  split
  · omega
  · exact low

theorem independent_of_not_changes (low : 0x800 ≤ n) (high : n ≤ 0xBFF) (low' : 0x800 ≤ m) (high' : m ≤ 0xBFF)
    (clear : ¬Changes (folded n) (folded m)) : Independent n m := by
  intro vm vm' cpu reader val ticks handled done
  rw [emulateWrmsr, vlapicOpMemWrite_eq, register_msr low high] at done
  rw [emulateRdmsr, emulateRdmsr, vlapicOpMemRead_eq, vlapicOpMemRead_eq, register_msr low' high']
  by_cases writes : folded n ≤ 0x840
  · rw [if_pos writes] at done
    cases written : writeRegister vm cpu (offsetOf (folded n)) val.toNat ticks with
    | error panic =>
        simp only [written] at done
        cases done
    | ok result =>
        simp only [written] at done
        cases done
        by_cases reads : folded m ≤ 0x840
        · rw [if_pos reads]
          exact congrArg (Except.map _) (writeRegister_frame (folded_ge low) (folded_ge low') written clear reader)
        · rw [if_neg reads]
  · rw [if_neg writes] at done
    cases done
    rfl

theorem not_independent_of_changes (low : 0x800 ≤ n) (high : n ≤ 0xBFF) (low' : 0x800 ≤ m) (high' : m ≤ 0xBFF)
    (changes : Changes (folded n) (folded m)) : ¬Independent n m := by
  have writes : folded n ≤ 0x840 := by
    unfold Changes Writable Coupled at changes
    omega
  have reads : folded m ≤ 0x840 := by
    unfold Changes Writable Coupled at changes
    omega
  obtain ⟨vm, vm', val, code, old, new, done, before, after, ne, shifted⟩ := seen_of_changes changes
  intro independent
  have same := independent vm vm' ⟨0, by decide⟩ ⟨0, by decide⟩ val 0 (code = 0) ?_
  · rw [emulateRdmsr, emulateRdmsr, vlapicOpMemRead_eq, vlapicOpMemRead_eq, register_msr low' high', if_pos reads] at same
    simp only [before, after, Except.map, Except.ok.injEq] at same
    split at same
    · rename_i id
      exact shifted (by rw [id]; rfl) same.symm
    · exact ne same.symm
  · rw [emulateWrmsr, vlapicOpMemWrite_eq, register_msr low high, if_pos writes]
    simp only [done, Except.map]

theorem not_ignored_of_changes (low : 0x800 ≤ n) (high : n ≤ 0xBFF) (changes : Changes (folded n) m) : ¬Ignored n := by
  have writes : folded n ≤ 0x840 := by
    unfold Changes Writable Coupled at changes
    omega
  obtain ⟨vm, vm', val, code, old, new, done, before, after, ne, -⟩ := seen_of_changes changes
  intro ignored
  have nothing := ignored vm ⟨0, by decide⟩ val 0
  rw [emulateWrmsr, vlapicOpMemWrite_eq, register_msr low high, if_pos writes] at nothing
  simp only [done, Except.map, Except.ok.injEq, Prod.mk.injEq] at nothing
  rw [nothing.2, before] at after
  cases after
  exact ne rfl

theorem ignored_of_idle (low : 0x800 ≤ n) (high : n ≤ 0xBFF)
    (idle : ¬(Writable (folded n) ∨ folded n = 0x80B ∨ folded n = 0x830)) : Ignored n := by
  intro vm cpu val ticks
  rw [emulateWrmsr, vlapicOpMemWrite_eq, register_msr low high]
  split
  · rename_i writes
    split at writes
    · cases writes
    · rfl
  · rename_i offset writes
    split at writes
    · have above := folded_ge low
      have number : offset = 16 * (folded n - 0x800) := (Option.some.inj writes).symm
      simp only [Writable, not_or] at idle
      rw [writeRegister, if_neg (by omega), if_neg (by omega), if_neg (by omega), if_neg (by omega), if_neg (by omega),
        if_neg (by omega), if_neg (by omega), if_neg (by omega), if_neg (by omega)]
      rfl
    · cases writes

/-- Two different numbers do not alias, apart from the couplings, exactly if neither is the
number of the other's register under a second name; and a number without a register does
nothing exactly if it is not a second name. -/
theorem msr_alias_iff (first : x2apicMsr n = true) (second : x2apicMsr m = true) (ne : n ≠ m) :
    (Coupled n m ∨ Independent n m ↔ ¬Aliased n m) ∧ (¬HasRegister n → (Ignored n ↔ ¬Acts n)) := by
  obtain ⟨low, high⟩ := of_decide_eq_true first
  obtain ⟨low', high'⟩ := of_decide_eq_true second
  constructor
  · constructor
    · rintro (coupled | independent) ⟨second, changes⟩
      · have plain : folded n = n ∧ folded m = m := by
          unfold Coupled at coupled
          exact ⟨if_neg (by omega), if_neg (by omega)⟩
        exact second.elim (fun other => other plain.1) fun other => other plain.2
      · exact not_independent_of_changes low high low' high' changes independent
    · intro clear
      by_cases changes : Changes (folded n) (folded m)
      · have plain : folded n = n ∧ folded m = m := by
          by_contra other
          exact clear ⟨by tauto, changes⟩
        rw [plain.1, plain.2] at changes
        rcases changes with ⟨same, -⟩ | ⟨coupled, -⟩
        · exact absurd same ne
        · exact .inl coupled
      · exact .inr (independent_of_not_changes low high low' high' changes)
  · intro none
    constructor
    · rintro ignored ⟨-, writable | eoi | icr⟩
      · exact not_ignored_of_changes low high (.inl ⟨rfl, writable⟩) ignored
      · exact not_ignored_of_changes low high (m := 0x80A) (.inr ⟨.inl ⟨eoi, .inl rfl⟩, by decide, by decide⟩) ignored
      · exact not_ignored_of_changes low high (m := 0x821)
          (.inr ⟨.inr (.inr (.inr ⟨icr, by decide, by decide⟩)), by decide, by decide⟩) ignored
    · intro still
      apply ignored_of_idle low high
      intro acting
      by_cases plain : folded n = n
      · rw [plain] at acting
        unfold HasRegister at none
        unfold Writable at acting
        omega
      · exact still ⟨plain, acting⟩

/-- The divide configuration and the current count, a coupling, and two names of one register. -/
theorem msr_alias_iff_divide :
    (Coupled 0x83E 0x839 ∨ Independent 0x83E 0x839 ↔ ¬Aliased 0x83E 0x839) ∧
      (¬HasRegister 0x83E → (Ignored 0x83E ↔ ¬Acts 0x83E)) :=
  msr_alias_iff (by decide) (by decide) (by decide)

/-- A write of the number 0x908, which has no register, changes the task priority. -/
theorem task_priority_aliased :
    ¬((∀ n m, x2apicMsr n = true → x2apicMsr m = true → n ≠ m → Coupled n m ∨ Independent n m) ∧
      ∀ n, x2apicMsr n = true → ¬HasRegister n → Ignored n) := by
  rintro ⟨frame, -⟩
  have folds : folded 0x908 = 0x808 ∧ folded 0x808 = 0x808 := by decide
  rcases frame 0x908 0x808 (by decide) (by decide) (by decide) with coupled | independent
  · unfold Coupled at coupled
    omega
  · refine not_independent_of_changes (by decide) (by decide) (by decide) (by decide) ?_ independent
    rw [folds.1, folds.2]
    exact .inl ⟨rfl, .inr (.inl rfl)⟩

end Dragonfly.Vmm.Apic
