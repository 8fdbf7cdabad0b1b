import Dragonfly.Lib.Words

/-!
# The virtual local APIC

The registers of the local APIC of a virtual cpu, the stack of the interrupts in service, and
the accesses of the guest and the host to them.  A host panic and the operations that C leaves
undefined (a division by zero, an index outside a cpu set) end a computation with an error.
-/

namespace Dragonfly.Vmm.Apic

open Dragonfly.Lib.Words

/-- The ways in which an access can stop the host. -/
inductive Panic where
  /-- `vlapic_set_intr_ready: invalid vector` -/
  | invalidVector
  /-- `vlapic_timer_divisor: invalid dcr` -/
  | invalidDcr
  /-- `vlapic_get_lvt: invalid LVT` -/
  | invalidLvt
  /-- `isrvec_stk is corrupted` -/
  | stkCorrupted
  /-- `isrvec_stk does not satisfy invariant` -/
  | stkInvariant
  /-- `ISR and isrvec_stk out of sync` -/
  | outOfSync
  /-- `invalid vlapic isrvec_stk_top` -/
  | invalidTop
  /-- `isrvec_stk_top overflow` -/
  | topOverflow
  /-- The division by the divisor of the timer. -/
  | divideByZero
  /-- A cpu number that is not below `CPU_SETSIZE`. -/
  | cpusetRange
  deriving DecidableEq

/-- The panics of `vlapic_update_ppr`, `vlapic_process_eoi` and `vlapic_intr_accepted`. -/
def Panic.ofService : Panic → Bool
  | stkCorrupted | stkInvariant | outOfSync | invalidTop | topOverflow => true
  | _ => false

/-- `PRIO`, the priority class. -/
def prio (x : Nat) : Nat := x / 16

/-- `struct LAPIC`.  The local vector table is the words from `lvt_timer` on. -/
structure Lapic where
  id : Nat := 0
  version : Nat := 0
  tpr : Nat := 0
  apr : Nat := 0
  ppr : Nat := 0
  eoi : Nat := 0
  ldr : Nat := 0
  dfr : Nat := 0
  svr : Nat := 0
  isr : WordArray := fun _ => 0
  tmr : WordArray := fun _ => 0
  irr : WordArray := fun _ => 0
  esr : Nat := 0
  icrLo : Nat := 0
  icrHi : Nat := 0
  lvt : Nat → Nat := fun _ => 0
  icrTimer : Nat := 0
  ccrTimer : Nat := 0
  dcrTimer : Nat := 0

/-- `struct vlapic` -/
structure Vlapic where
  vcpuid : Nat
  apic : Lapic := {}
  divisor : Nat := 0
  ccrTicks : BitVec 32 := 0
  isrvecStk : Nat → Nat := fun _ => 0
  isrvecStkTop : Nat := 0

/-- `ISRVEC_STK_SIZE` -/
def isrvecStkSize : Nat := 16 + 1

/-- `vlapic_mask_lvts` -/
def vlapicMaskLvts (lvts : Nat → Nat) (numLvt : Nat) : Nat → Nat := fun i =>
  if i % 4 = 0 ∧ i / 4 < numLvt then lvts i ||| 0x10000 else lvts i

/-- `vlapic_init_ipi` -/
def vlapicInitIpi (lapic : Lapic) : Lapic :=
  { lapic with
    version := 16 ||| (decide (5 < 16)).toNat
    dfr := 0xffffffff
    svr := 0xff
    lvt := vlapicMaskLvts lapic.lvt 6 }

/-- `vlapic_op_reset`: only the registers. -/
def vlapicOpReset (vlapic : Vlapic) : Vlapic :=
  { vlapic with apic := vlapicInitIpi { id := vlapic.vcpuid <<< 24 % 2 ^ 32, apr := vlapic.vcpuid } }

/-- `vlapic_init` -/
def vlapicInit (vcpuid : Nat) : Vlapic := vlapicOpReset { vcpuid := vcpuid }

/-- `vlapic_set_intr_ready` -/
def vlapicSetIntrReady (vlapic : Vlapic) (vector : Nat) : Except Panic Vlapic :=
  if 256 ≤ vector then .error .invalidVector
  else .ok { vlapic with apic.irr := setBit vlapic.apic.irr vector }

/-- `vlapic_timer_divisor` -/
def vlapicTimerDivisor (dcr : Nat) : Except Panic Nat :=
  match dcr &&& 0xB with
  | 0x00 => .ok 2
  | 0x01 => .ok 4
  | 0x02 => .ok 8
  | 0x03 => .ok 16
  | 0x08 => .ok 32
  | 0x09 => .ok 64
  | 0x0a => .ok 128
  | _ => .error .invalidDcr

/-- `vlapic_start_timer` at the host time `ticks` -/
def vlapicStartTimer (vlapic : Vlapic) (elapsed : Nat) (ticks : BitVec 32) : Vlapic :=
  { vlapic with
    ccrTicks := ticks
    apic.ccrTimer := if elapsed < vlapic.apic.icrTimer then vlapic.apic.icrTimer - elapsed else 0 }

/-- `vlapic_get_lvt`: the number of the word. -/
def vlapicGetLvt (offset : Nat) : Except Panic Nat :=
  if offset < 0x320 ∨ 0x370 < offset then .error .invalidLvt else .ok ((offset - 0x320) / 4)

/-! ## Interrupts in service -/

/-- The first check of `vlapic_update_ppr`: the classes on the stack go up. -/
def checkPrio (isrvecStk : Nat → Nat) : Nat → Nat → Int → Bool
  | 0, _, _ => true
  | left + 1, i, lastprio =>
      if (prio (isrvecStk i) : Int) ≤ lastprio then false
      else checkPrio isrvecStk left (i + 1) (prio (isrvecStk i))

/-- The second check of `vlapic_update_ppr`: each bit has its entry on the stack. -/
def checkIsr (isr : WordArray) (isrvecStk : Nat → Nat) (top : Nat) : Nat → Nat → Nat → Bool
  | 0, _, _ => true
  | left + 1, vector, i =>
      if bit isr vector then
        if top < i ∨ isrvecStk i ≠ vector then false
        else checkIsr isr isrvecStk top left (vector + 1) (i + 1)
      else checkIsr isr isrvecStk top left (vector + 1) i

/-- `vlapic_update_ppr` -/
def vlapicUpdatePpr (vlapic : Vlapic) : Except Panic Vlapic :=
  let isrvec := vlapic.isrvecStk vlapic.isrvecStkTop
  let tpr := vlapic.apic.tpr
  if vlapic.isrvecStkTop = 0 ∧ isrvec ≠ 0 then .error .stkCorrupted
  else if checkPrio vlapic.isrvecStk vlapic.isrvecStkTop 1 (-1) = false then .error .stkInvariant
  else if checkIsr vlapic.apic.isr vlapic.isrvecStk vlapic.isrvecStkTop 256 0 1 = false then
    .error .outOfSync
  else .ok { vlapic with apic.ppr := if prio isrvec ≤ prio tpr then tpr else isrvec &&& 0xf0 }

/-- `vlapic_process_eoi` -/
def vlapicProcessEoi (vlapic : Vlapic) : Except Panic Vlapic :=
  match highest vlapic.apic.isr 7 with
  | none => .ok vlapic
  | some vector =>
      if vlapic.isrvecStkTop = 0 then .error .invalidTop
      else vlapicUpdatePpr
        { vlapic with
          apic.isr := clearBit vlapic.apic.isr vector
          isrvecStkTop := vlapic.isrvecStkTop - 1 }

/-- `vlapic_pending_intr` -/
def vlapicPendingIntr (vlapic : Vlapic) : Option Nat :=
  match highest vlapic.apic.irr 7 with
  | none => none
  | some vector => if prio vlapic.apic.ppr < prio vector then some vector else none

/-- `vlapic_intr_accepted` -/
def vlapicIntrAccepted (vlapic : Vlapic) (vector : Nat) : Except Panic Vlapic :=
  if isrvecStkSize ≤ vlapic.isrvecStkTop + 1 then .error .topOverflow
  else vlapicUpdatePpr
    { vlapic with
      apic.irr := clearBit vlapic.apic.irr vector
      apic.isr := setBit vlapic.apic.isr vector
      isrvecStkTop := vlapic.isrvecStkTop + 1
      isrvecStk := Function.update vlapic.isrvecStk (vlapic.isrvecStkTop + 1) (vector % 256) }

/-! ## The timer -/

/-- `vlapic_periodic_timer` -/
def vlapicPeriodicTimer (vlapic : Vlapic) : Bool := vlapic.apic.lvt 0 &&& 0x20000 ≠ 0

/-- `vlapic_fire_timer` -/
def vlapicFireTimer (vlapic : Vlapic) : Except Panic Vlapic :=
  if vlapic.apic.lvt 0 &&& 0x10000 = 0 then vlapicSetIntrReady vlapic (vlapic.apic.lvt 0 % 256)
  else .ok vlapic

/-- The loop of `vlapic_timer_tick`: `delta` ticks are left. -/
def timerLoop (periodic : Bool) (decrement : Nat) (ticks : BitVec 32) :
    Nat → Vlapic → Nat → Except Panic (Vlapic × Nat)
  | 0, vlapic, ccr => .ok (vlapic, ccr)
  | delta + 1, vlapic, ccr =>
      if ccr ≤ decrement then
        (vlapicFireTimer vlapic).bind fun fired =>
          if periodic then
            let started := vlapicStartTimer fired (decrement - ccr) ticks
            timerLoop periodic decrement ticks delta started started.apic.ccrTimer
          else .ok (fired, 0)
      else timerLoop periodic decrement ticks delta vlapic (ccr - decrement)

/-- The frequencies of the host: `tsc_frequency` and `hz`. -/
structure Host where
  tscFrequency : Nat
  hz : Nat

/-- `vlapic_timer_tick` at the host time `ticks` -/
def vlapicTimerTick (host : Host) (vlapic : Vlapic) (ticks : BitVec 32) : Except Panic Vlapic :=
  let delta := ticks - vlapic.ccrTicks
  let periodic := vlapicPeriodicTimer vlapic
  if delta = 0 then .ok vlapic
  else if vlapic.apic.icrTimer = 0 then .ok vlapic
  else if periodic = false ∧ vlapic.apic.ccrTimer = 0 then .ok vlapic
  else if delta.toInt < 0 then .ok (vlapicStartTimer vlapic 0 ticks)
  else if vlapic.divisor = 0 then .error .divideByZero
  else
    let decrement := host.tscFrequency / vlapic.divisor / host.hz % 2 ^ 32
    (timerLoop periodic decrement ticks delta.toNat vlapic vlapic.apic.ccrTimer).bind fun (vlapic, ccr) =>
      .ok { vlapic with ccrTicks := ticks, apic.ccrTimer := ccr }

/-! ## The virtual machine -/

/-- `VM_MAXCPU` -/
def vmMaxcpu : Nat := 8

/-- `CPU_SETSIZE` -/
def cpuSetsize : Nat := 63

/-- A virtual machine: its local APICs and the set of its active cpus. -/
structure Vm where
  vlapic : Nat → Vlapic
  activeCpus : BitVec 64

/-- The virtual machine with another state of one local APIC. -/
def Vm.put (vm : Vm) (cpu : Nat) (vlapic : Vlapic) : Vm :=
  { vm with vlapic := Function.update vm.vlapic cpu vlapic }

/-- `CPU_SETOF` -/
def cpuSetof (n : Nat) : Except Panic (BitVec 64) :=
  if n < cpuSetsize then .ok (BitVec.twoPow 64 n) else .error .cpusetRange

/-- `CPU_CLR` -/
def cpuClr (n : Nat) (set : BitVec 64) : Except Panic (BitVec 64) :=
  if n < cpuSetsize then .ok (set &&& ~~~BitVec.twoPow 64 n) else .error .cpusetRange

/-- The cpus of a set, as `cpusetobj_ffs` finds them one after the other. -/
def members (set : BitVec 64) : List Nat := (List.range 64).filter set.getLsbD

/-- `vm_activate_cpu` -/
def vmActivateCpu (vm : Vm) (vcpuid : Nat) : Vm :=
  if vcpuid < vmMaxcpu then { vm with activeCpus := vm.activeCpus ||| BitVec.twoPow 64 vcpuid } else vm

/-- `lapic_set_intr`, with its error number. -/
def lapicSetIntr (vm : Vm) (cpu vector : Nat) : Except Panic (Nat × Vm) :=
  if vmMaxcpu ≤ cpu then .ok (22, vm)
  else if vector < 32 ∨ 255 < vector then .ok (22, vm)
  else (vlapicSetIntrReady (vm.vlapic cpu) vector).bind fun vlapic => .ok (0, vm.put cpu vlapic)

/-- The loop of `lapic_process_icr` over the destinations.  A non-maskable interrupt goes past
the local APIC. -/
def deliver (dmask : BitVec 64) (fixed : Bool) (vec : Nat) : List Nat → Vm → Except Panic Vm
  | [], vm => .ok vm
  | i :: rest, vm =>
      (cpuClr i dmask).bind fun dmask =>
        if fixed then (lapicSetIntr vm i vec).bind fun (_, vm) => deliver dmask fixed vec rest vm
        else deliver dmask fixed vec rest vm

/-- The destinations of `lapic_process_icr`. -/
def icrMask (vm : Vm) (vcpuid dest shorthand : Nat) : Except Panic (BitVec 64) :=
  if shorthand = 0 then cpuSetof dest
  else if shorthand = 0x40000 then cpuSetof vcpuid
  else if shorthand = 0x80000 then .ok vm.activeCpus
  else cpuClr vcpuid vm.activeCpus

/-- `lapic_process_icr` -/
def lapicProcessIcr (vm : Vm) (vcpuid icrval : Nat) : Except Panic (Nat × Vm) :=
  let dest := icrval / 2 ^ 32 % 2 ^ 32
  let vec := icrval &&& 0xff
  let mode := icrval &&& 0x700
  if mode = 0 ∨ mode = 0x400 then
    (icrMask vm vcpuid dest (icrval &&& 0xc0000)).bind fun dmask =>
      (deliver dmask (mode = 0) vec (members dmask) vm).bind fun vm => .ok (0, vm)
  else if mode = 0x600 then .ok (1, vmActivateCpu vm dest)
  else .ok (1, vm)

/-- The register at an address: `gpa & ~(PAGE_SIZE)`. -/
def regOffset (gpa : Nat) : Nat := gpa &&& (2 ^ 64 - 1 - 0x1000)

/-- A word of a bitmap.  The words between the registers are never written. -/
def wordAt (words : WordArray) (i : Nat) : Nat := if i % 4 = 0 then (words (i / 4)).toNat else 0

/-- The switch of `vlapic_op_mem_read` -/
def readRegister (lapic : Lapic) (offset : Nat) : Except Panic Nat :=
  if offset = 0x20 then .ok lapic.id
  else if offset = 0x30 then .ok lapic.version
  else if offset = 0x80 then .ok lapic.tpr
  else if offset = 0x90 then .ok lapic.apr
  else if offset = 0xA0 then .ok lapic.ppr
  else if offset = 0xB0 then .ok lapic.eoi
  else if offset = 0xD0 then .ok lapic.ldr
  else if offset = 0xE0 then .ok lapic.dfr
  else if offset = 0xF0 then .ok lapic.svr
  else if 0x100 ≤ offset ∧ offset ≤ 0x170 then .ok (wordAt lapic.isr ((offset - 0x100) / 4))
  else if 0x180 ≤ offset ∧ offset ≤ 0x1F0 then .ok (wordAt lapic.tmr ((offset - 0x180) / 4))
  else if 0x200 ≤ offset ∧ offset ≤ 0x270 then .ok (wordAt lapic.irr ((offset - 0x200) / 4))
  else if offset = 0x280 then .ok lapic.esr
  else if offset = 0x300 then .ok lapic.icrLo
  else if offset = 0x310 then .ok lapic.icrHi
  else if 0x320 ≤ offset ∧ offset ≤ 0x370 then (vlapicGetLvt offset).map lapic.lvt
  else if offset = 0x380 then .ok lapic.icrTimer
  else if offset = 0x390 then .ok lapic.ccrTimer
  else if offset = 0x3E0 then .ok lapic.dcrTimer
  else .ok 0

/-- `vlapic_op_mem_read` -/
def vlapicOpMemRead (vlapic : Vlapic) (gpa : Nat) : Except Panic Nat :=
  if 0x400 < regOffset gpa then .ok 0 else readRegister vlapic.apic (regOffset gpa / 4 * 4)

/-- A write of an entry of the local vector table.  It stays masked while the local APIC is
not enabled. -/
def writeLvt (vlapic : Vlapic) (data i : Nat) : Vlapic :=
  { vlapic with
    apic.lvt := Function.update vlapic.apic.lvt i
      ((if vlapic.apic.svr &&& 0x100 = 0 then data ||| 0x10000 else data) % 2 ^ 32) }

/-- A write of the divide configuration, with the divisor for it. -/
def writeDcr (vlapic : Vlapic) (data divisor : Nat) : Vlapic :=
  { vlapic with apic.dcrTimer := data % 2 ^ 32, divisor := divisor }

/-- The switch of `vlapic_op_mem_write` -/
def writeRegister (vm : Vm) (cpu offset data : Nat) (ticks : BitVec 32) : Except Panic (Nat × Vm) :=
  let vlapic := vm.vlapic cpu
  let put (vlapic : Vlapic) := (0, vm.put cpu vlapic)
  if offset = 0x20 then .ok (put { vlapic with apic.id := data % 2 ^ 32 })
  else if offset = 0x80 then (vlapicUpdatePpr { vlapic with apic.tpr := data % 256 }).map put
  else if offset = 0xB0 then (vlapicProcessEoi vlapic).map put
  else if offset = 0xF0 then .ok (put { vlapic with apic.svr := data % 2 ^ 32 })
  else if offset = 0x300 then lapicProcessIcr vm vlapic.vcpuid data
  else if 0x320 ≤ offset ∧ offset ≤ 0x370 then
    (vlapicGetLvt offset).map fun i => put (writeLvt vlapic data i)
  else if offset = 0x380 then
    .ok (put (vlapicStartTimer { vlapic with apic.icrTimer := data % 2 ^ 32 } 0 ticks))
  else if offset = 0x3E0 then
    (vlapicTimerDivisor data).map fun divisor => put (writeDcr vlapic data divisor)
  else if offset = 0x280 then .ok (put { vlapic with apic.esr := 0 })
  else .ok (0, vm)

/-- `vlapic_op_mem_write` at the host time `ticks` -/
def vlapicOpMemWrite (vm : Vm) (cpu gpa data : Nat) (ticks : BitVec 32) : Except Panic (Nat × Vm) :=
  if 0x400 < regOffset gpa then .ok (0, vm)
  else writeRegister vm cpu (regOffset gpa / 4 * 4) data ticks

/-- `x2apic_msr_to_regoff` -/
def x2apicMsrToRegoff (msr : Nat) : Nat := (msr - 0x800) * 16

/-- A new virtual machine: all local APICs are reset, and the first cpu is active. -/
def vmCreate : Vm := vmActivateCpu { vlapic := vlapicInit, activeCpus := 0 } 0

end Dragonfly.Vmm.Apic
