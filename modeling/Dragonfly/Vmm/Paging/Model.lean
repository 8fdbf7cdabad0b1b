import Dragonfly.Lib.PageTable
import Dragonfly.Vmm.Mem.Model

/-!
# The page tables of a virtual machine

A guest address is translated by the nested page tables of the processor, by the page tables
of the remapping unit, and by a list of segments.  The tables are filled page by page, and the
size of each page is chosen by alignment and by what is left.  A panic, and a descent into an
entry that does not point to a table, end a computation.
-/

namespace Dragonfly.Vmm.Paging

open Dragonfly.Lib Dragonfly.Lib.PageTable
open Dragonfly.Vmm.Mem (add64 sub64)

/-- `VM_PROT_READ`, `VM_PROT_WRITE` and `VM_PROT_EXECUTE` -/
structure Prot where
  read : Bool
  write : Bool
  execute : Bool
deriving DecidableEq

/-- `VM_PROT_NONE` -/
def vmProtNone : Prot := ⟨false, false, false⟩

/-- `VM_PROT_RW` -/
def vmProtRw : Prot := ⟨true, true, false⟩

/-- `VM_PROT_ALL` -/
def vmProtAll : Prot := ⟨true, true, true⟩

/-- `VM_MEMATTR_UNCACHEABLE` -/
def vmMemattrUncacheable : Nat := 0

/-- `VM_MEMATTR_WRITE_BACK` -/
def vmMemattrWriteBack : Nat := 6

/-- The largest level, from the given one down, whose pages are fitting. -/
def firstFit (fits : Nat → Bool) : Nat → Option Nat
  | 0 => if fits 0 then some 0 else none
  | level + 1 => if fits (level + 1) then some (level + 1) else firstFit fits level

/-- Both addresses are aligned to the pages of a level, and so much is left. -/
def roomFor (gpa hpa length level : Nat) : Bool :=
  gpa % size level == 0 && hpa % size level == 0 && decide (size level ≤ length)

/-- The loop of `ept_vmmmap` and of `iommu_create_mapping`, where `create` makes one page and
says how large it is. -/
def mapLoop {σ : Type} (create : σ → Nat → Nat → Nat → Option (σ × Nat)) :
    Nat → σ → Nat → Nat → Nat → Option σ
  | 0, ptp, _, _, len => if len = 0 then some ptp else none
  | fuel + 1, ptp, gpa, hpa, len =>
      if len = 0 then some ptp
      else
        (create ptp gpa hpa len).bind fun (ptp, n) =>
          mapLoop create fuel ptp (add64 gpa n) (add64 hpa n) (sub64 len n)

/-! ## The nested page tables -/

/-- What is stored for a page: the host address, the access controls, the memory type and
whether it is larger than a base page. -/
structure Leaf where
  hpa : Nat
  prot : Prot
  attr : Nat
  superpage : Bool

/-- A table of the nested page tables. -/
abbrev Ept := Nat → Entry Leaf

/-- `page_sizes_mask`, as `ept_init` sets it from the capabilities. -/
def pageSizesMask (cap : Nat) : Nat :=
  2 ^ 12 ||| (if cap.testBit 16 then 2 ^ 21 else 0) ||| (if cap.testBit 17 then 2 ^ 30 else 0)

/-- The page size of `ept_create_mapping`, as a level: `EPT_PWLEVELS` is 4. -/
def eptSpshift (mask gpa hpa length : Nat) (spok : Bool) : Option Nat :=
  firstFit (fun level => mask.testBit (shift level) && roomFor gpa hpa length level) (if spok then 3 else 0)

/-- `ept_create_mapping`.  An entry in the middle of the path is not zero only if it is a table
or a page larger than a base page. -/
def eptCreateMapping (mask attr : Nat) (prot : Prot) (spok : Bool) (ptp : Ept) (gpa hpa length : Nat) :
    Option (Ept × Nat) :=
  match eptSpshift mask gpa hpa length spok with
  | none => none
  | some level =>
      if gpa % size level ≠ 0 then none
      else
        (store gpa level { hpa := hpa, prot := prot, attr := attr, superpage := decide (0 < level) } 3 ptp).map
          fun ptp => (ptp, size level)

/-- The arguments of `ept_vmmmap`. -/
structure Call where
  gpa : Nat
  hpa : Nat
  len : Nat
  attr : Nat
  prot : Prot
  spok : Bool

/-- `ept_vmmmap` -/
def eptVmmmap (cap : Nat) (ptp : Ept) (call : Call) : Option Ept :=
  mapLoop (eptCreateMapping (pageSizesMask cap) call.attr call.prot call.spok) (call.len / 4096) ptp
    call.gpa call.hpa call.len

/-- The call that `vm_map_mmio` makes. -/
def vmMapMmio (gpa len hpa : Nat) : Call :=
  { gpa := gpa, hpa := hpa, len := len, attr := vmMemattrUncacheable, prot := vmProtRw, spok := true }

/-- The call that `vm_unmap_mmio` makes. -/
def vmUnmapMmio (gpa len : Nat) : Call :=
  { gpa := gpa, hpa := 0, len := len, attr := vmMemattrUncacheable, prot := vmProtNone, spok := true }

/-- The processor's walk: a page without any access is no translation. -/
def eptTranslate (ptp : Ept) (gpa : Nat) : Option (Nat × Prot) :=
  if 2 ^ 48 ≤ gpa then none
  else
    match walk gpa 3 ptp with
    | none => none
    | some (leaf, level) =>
        if leaf.prot = vmProtNone then none else some (leaf.hpa + gpa % size level, leaf.prot)

/-! ## The page tables of the remapping unit -/

/-- What is stored for a page: it can always be read and written. -/
structure DmaLeaf where
  hpa : Nat
  superpage : Bool

/-- A table of the remapping unit. -/
abbrev Ptp := Nat → Entry DmaLeaf

/-- `struct domain` -/
structure Domain where
  ptp : Ptp
  ptLevels : Nat
  spsmask : Nat

/-- The loop of `vtd_create_domain` that finds the width of the highest address, from the width
`gaw` on. -/
def gawLoop (maxaddr : Nat) : Nat → Nat → Nat → Nat
  | 0, gaw, _ => gaw
  | fuel + 1, gaw, addr => if addr < maxaddr then gawLoop maxaddr fuel (gaw + 1) (2 ^ gaw) else gaw

/-- The adjusted guest address width. -/
def agaw (maxaddr : Nat) : Int :=
  let gaw : Int := gawLoop maxaddr 64 0 0
  let res := (gaw - 12).tmod 9
  min 64 (if res = 0 then gaw else gaw + 9 - res)

/-- The loop of `vtd_create_domain` over the supported widths. -/
def sagawLoop (sagaws : Nat) (agaw : Int) : Nat → Nat → Nat → Nat → Option Nat
  | 0, _, _, _ => none
  | fuel + 1, i, ptLevels, sagaw =>
      if sagaws.testBit i ∧ agaw ≤ sagaw then some ptLevels
      else sagawLoop sagaws agaw fuel (i + 1) (ptLevels + 1) (min 64 (sagaw + 9))

/-- `vtd_create_domain`, with the capabilities of the unit: `VTD_CAP_SAGAW` and `VTD_CAP_SPS`. -/
def vtdCreateDomain (cap maxaddr : Nat) : Option Domain :=
  (sagawLoop (cap / 2 ^ 8 % 32) (agaw maxaddr) 5 0 2 30).map fun ptLevels =>
    { ptp := blank, ptLevels := ptLevels, spsmask := cap / 2 ^ 34 % 16 }

/-- The page size of `vtd_create_mapping`, as a level: base pages if no larger ones fit. -/
def vtdSpshift (spsmask gpa hpa len : Nat) : Nat :=
  (firstFit (fun level => level == 0 || spsmask.testBit (level - 1) && roomFor gpa hpa len level) 4).getD 0

/-- `vtd_create_mapping`.  A page that is larger than those of the top level is cut to one. -/
def vtdCreateMapping (ptLevels spsmask : Nat) (ptp : Ptp) (gpa hpa len : Nat) : Option (Ptp × Nat) :=
  if gpa % 4096 ≠ 0 ∨ hpa % 4096 ≠ 0 ∨ len % 4096 ≠ 0 then none
  else
    let level := min (vtdSpshift spsmask gpa hpa len) (ptLevels - 1)
    if gpa % size level ≠ 0 then none
    else
      (store gpa level { hpa := hpa, superpage := decide (0 < level) } (ptLevels - 1) ptp).map
        fun ptp => (ptp, size level)

/-- `iommu_create_mapping` -/
def iommuCreateMapping (dom : Domain) (gpa hpa len : Nat) : Option Domain :=
  (mapLoop (vtdCreateMapping dom.ptLevels dom.spsmask) (len / 4096) dom.ptp gpa hpa len).map
    fun ptp => { dom with ptp := ptp }

/-- The walk of the remapping unit, for the addresses of the domain's width. -/
def dmaTranslate (dom : Domain) (gpa : Nat) : Option Nat :=
  if size dom.ptLevels ≤ gpa then none
  else (walk gpa (dom.ptLevels - 1) dom.ptp).map fun (leaf, level) => leaf.hpa + gpa % size level

/-! ## The segments -/

/-- `struct vm_memory_segment` -/
structure MemSeg where
  gpa : Nat
  hpa : Nat
  len : Nat

/-- `VM_MAX_MEMORY_SEGMENTS` -/
def vmMaxMemorySegments : Nat := 2

/-- The memory of a virtual machine, and the host memory that is available. -/
structure Vm where
  memSegs : List MemSeg
  ept : Ept
  iommu : Domain
  avail : List Span

inductive Errno where
  | e2big
  | enomem
deriving DecidableEq

/-- A segment of `vm_gpa2hpa` -/
def MemSeg.gpa2hpa (seg : MemSeg) (gpa len : Nat) : Option Nat :=
  if seg.gpa ≤ gpa ∧ add64 gpa len ≤ add64 seg.gpa seg.len then some (add64 (gpa - seg.gpa) seg.hpa) else none

/-- `vm_gpa2hpa`, where no address is `none`. -/
def vmGpa2hpa (vm : Vm) (gpa len : Nat) : Option Nat := vm.memSegs.findSome? (·.gpa2hpa gpa len)

/-- The call that `vm_malloc` makes. -/
def mallocCall (gpa hpa len : Nat) : Call :=
  { gpa := gpa, hpa := hpa, len := len, attr := vmMemattrWriteBack, prot := vmProtAll, spok := true }

/-- `vm_malloc`: the address or an error, and the machine.  `ept_vmmmap` never reports an
error. -/
def vmMalloc (cap : Nat) (vm : Vm) (gpa len : Nat) : Option (Except Errno Nat × Vm) :=
  match vmGpa2hpa vm gpa len with
  | some hpa => some (.ok hpa, vm)
  | none =>
      if vmMaxMemorySegments ≤ vm.memSegs.length then some (.error .e2big, vm)
      else
        (Mem.vmmMemAlloc vm.avail len).bind fun (hpa, avail) =>
          if hpa = 0 then some (.error .enomem, { vm with avail := avail })
          else
            (eptVmmmap cap vm.ept (mallocCall gpa hpa len)).bind fun ept =>
              (iommuCreateMapping vm.iommu gpa hpa len).map fun iommu =>
                (.ok hpa,
                  { memSegs := vm.memSegs ++ [⟨gpa, hpa, len⟩], ept := ept, iommu := iommu, avail := avail })

/-- A new machine. -/
def vmCreate (dom : Domain) (avail : List Span) : Vm := { memSegs := [], ept := blank, iommu := dom, avail := avail }

end Dragonfly.Vmm.Paging
