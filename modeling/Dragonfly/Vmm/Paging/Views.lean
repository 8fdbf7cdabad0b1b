import Mathlib
import Dragonfly.Vmm.Mem.Pool
import Dragonfly.Vmm.Paging.Ept

/-!
# Three views of guest memory

The segments, the nested page tables and the tables of the remapping unit are filled by the
same calls.  They agree as long as the segments do not overlap, are within the width of both
tables, and an address is asked for together with what is left of its segment.
-/

namespace Dragonfly.Vmm.Paging

open Dragonfly.Lib Dragonfly.Lib.PageTable
open Dragonfly.Vmm.Mem (add64 add64_of_lt nbpdr)

/-- The guest address is one of the segment. -/
def MemSeg.Covers (seg : MemSeg) (y : Nat) : Prop := seg.gpa ≤ y ∧ y < seg.gpa + seg.len

instance (seg : MemSeg) (y : Nat) : Decidable (seg.Covers y) := inferInstanceAs (Decidable (_ ∧ _))

/-- Two segments have no guest address in common. -/
def MemSeg.Apart (first second : MemSeg) : Prop := ∀ y, first.Covers y → ¬second.Covers y

/-- A call of `vm_malloc` that is within the width of both tables, and that is inside a segment
or has no address in common with it. -/
structure Regular (vm : Vm) (gpa len : Nat) : Prop where
  guest : gpa % 4096 = 0
  large : len % nbpdr = 0
  nested : gpa + len ≤ 2 ^ 48
  width : gpa + len ≤ size vm.iommu.ptLevels
  apart : ∀ seg ∈ vm.memSegs,
    seg.gpa ≤ gpa ∧ gpa + len ≤ seg.gpa + seg.len ∨ gpa + len ≤ seg.gpa ∨ seg.gpa + seg.len ≤ gpa

/-- A question that does not reach beyond the segment of its address. -/
structure Fits (vm : Vm) (gpa len : Nat) : Prop where
  positive : 0 < len
  nowrap : gpa + len < 2 ^ 64
  inside : ∀ seg ∈ vm.memSegs, seg.Covers gpa → gpa + len ≤ seg.gpa + seg.len

/-- Host memory comes in whole large pages, and none of it is at address zero. -/
def Host (avail : List Span) : Prop :=
  ∀ seg ∈ avail, 0 < seg.lo ∧ seg.lo % nbpdr = 0 ∧ seg.lo < 2 ^ 64 ∧ seg.lo + seg.len ≤ 2 ^ 64

variable {cap top spsmask ptLevels gpa hpa len y : Nat} {vm next : Vm} {seg : MemSeg} {segs : List MemSeg}

/-! ## The remapping unit -/

/-- The level that `vtd_create_mapping` chooses. -/
def vtdPick (ptLevels spsmask : Nat) : Pick := fun gpa hpa len => min (vtdSpshift spsmask gpa hpa len) (ptLevels - 1)

def dmaLeaf (hpa level : Nat) : DmaLeaf := { hpa := hpa, superpage := decide (0 < level) }

/-- The pages that `iommu_create_mapping` makes for a segment. -/
def MemSeg.dmaPages (ptLevels spsmask : Nat) (seg : MemSeg) : List (Page DmaLeaf) :=
  pieces (vtdPick ptLevels spsmask) dmaLeaf (seg.len / 4096) seg.gpa seg.hpa seg.len

theorem vtdSpshift_spec (whole : Whole top gpa hpa len) (some : 0 < len) :
    size (vtdSpshift spsmask gpa hpa len) ∣ gpa ∧ size (vtdSpshift spsmask gpa hpa len) ∣ hpa ∧
      size (vtdSpshift spsmask gpa hpa len) ≤ len := by
  obtain ⟨level, found, -, fits⟩ :=
    @firstFit_spec (fun level => level == 0 || spsmask.testBit (level - 1) && roomFor gpa hpa len level) rfl 4
  rw [vtdSpshift, found, Option.getD_some]
  simp only [Bool.or_eq_true, beq_iff_eq, Bool.and_eq_true] at fits
  obtain rfl | ⟨-, room⟩ := fits
  · exact ⟨whole.guest, whole.host, Nat.le_of_dvd some whole.length⟩
  · exact (roomFor_iff).mp room

theorem vtdPick_sound (ptLevels spsmask : Nat) : Sound (ptLevels - 1) (vtdPick ptLevels spsmask) := by
  intro gpa hpa len whole some
  obtain ⟨guest, host, fits⟩ := @vtdSpshift_spec _ spsmask _ _ _ whole some
  have smaller := min_le_left (vtdSpshift spsmask gpa hpa len) (ptLevels - 1)
  have divides := size_dvd_size smaller
  exact ⟨min_le_right _ _, divides.trans guest, divides.trans host, (size_le_size smaller).trans fits⟩

/-- `iommu_create_mapping` stores the pages of a segment. -/
theorem iommuCreateMapping_eq (dom : Domain) (whole : Whole (dom.ptLevels - 1) seg.gpa seg.hpa seg.len) :
    iommuCreateMapping dom seg.gpa seg.hpa seg.len =
      (storeAll (dom.ptLevels - 1) (seg.dmaPages dom.ptLevels dom.spsmask) dom.ptp).map
        fun ptp => { dom with ptp := ptp } := by
  have enough : seg.len ≤ seg.len / 4096 * 4096 := by
    have := Nat.mod_eq_zero_of_dvd whole.length
    rw [size_zero] at this
    omega
  rw [iommuCreateMapping, mapLoop_eq (vtdPick_sound dom.ptLevels dom.spsmask) whole enough]
  · rfl
  · intro ptp gpa hpa len whole some
    obtain ⟨-, guest, -, -⟩ := vtdPick_sound dom.ptLevels dom.spsmask gpa hpa len whole some
    have guestPages := Nat.mod_eq_zero_of_dvd whole.guest
    have hostPages := Nat.mod_eq_zero_of_dvd whole.host
    have wholePages := Nat.mod_eq_zero_of_dvd whole.length
    rw [size_zero] at guestPages hostPages wholePages
    rw [vtdCreateMapping, if_neg (by omega)]
    exact if_neg (not_not.mpr (Nat.mod_eq_zero_of_dvd guest))

/-! ## Segments -/

/-- A segment of whole base pages that both tables reach. -/
structure MemSeg.Valid (ptLevels : Nat) (seg : MemSeg) : Prop where
  guest : seg.gpa % 4096 = 0
  host : seg.hpa % 4096 = 0
  length : seg.len % 4096 = 0
  address : seg.hpa < 2 ^ 64
  nested : seg.gpa + seg.len ≤ 2 ^ 48
  width : seg.gpa + seg.len ≤ size ptLevels

/-- The call of `ept_vmmmap` for a segment. -/
def MemSeg.call (seg : MemSeg) : Call := mallocCall seg.gpa seg.hpa seg.len

theorem MemSeg.Valid.call (valid : seg.Valid ptLevels) : seg.call.Valid :=
  ⟨valid.guest, valid.host, valid.length, valid.nested, valid.address⟩

theorem MemSeg.Valid.whole (valid : seg.Valid ptLevels) (levels : 0 < ptLevels) :
    Whole (ptLevels - 1) seg.gpa seg.hpa seg.len where
  guest := Nat.dvd_of_mod_eq_zero valid.guest
  host := Nat.dvd_of_mod_eq_zero valid.host
  length := Nat.dvd_of_mod_eq_zero valid.length
  address := valid.address
  bound := by
    rw [Nat.sub_add_cancel levels]
    exact valid.width
  width := lt_of_le_of_lt valid.nested (by decide)

theorem MemSeg.Valid.enough (valid : seg.Valid ptLevels) : seg.len ≤ seg.len / 4096 * 4096 := valid.call.enough

instance : Std.Symm MemSeg.Apart where
  symm _ _ apart := fun y covers other => apart y other covers

section

variable (apart : segs.Pairwise MemSeg.Apart)

include apart

theorem eq_of_covers {other : MemSeg} (member : seg ∈ segs) (otherMem : other ∈ segs) (covers : seg.Covers y)
    (otherCovers : other.Covers y) : seg = other := by
  by_contra different
  exact apart.forall member otherMem different y covers otherCovers

/-- The last segment that covers an address is the only one. -/
theorem find?_reverse (member : seg ∈ segs) (covers : seg.Covers y) :
    segs.reverse.find? (fun seg => seg.Covers y) = some seg := by
  cases found : segs.reverse.find? (fun seg => seg.Covers y) with
  | none =>
      have missed := List.find?_eq_none.mp found seg (List.mem_reverse.mpr member)
      exact absurd covers (by simpa using missed)
  | some other =>
      have otherCovers : other.Covers y := by simpa using List.find?_some found
      have otherMem := List.mem_reverse.mp (List.mem_of_find?_eq_some found)
      rw [eq_of_covers apart member otherMem covers otherCovers]

end

theorem find?_reverse_none (missed : ∀ seg ∈ segs, ¬seg.Covers y) :
    segs.reverse.find? (fun seg => seg.Covers y) = none := by
  refine List.find?_eq_none.mpr fun seg member => ?_
  simpa using missed seg (List.mem_reverse.mp member)

/-! ## The machine -/

/-- The segments are those of both tables, and have no address in common. -/
structure Vm.Inv (cap : Nat) (vm : Vm) : Prop where
  levels : 0 < vm.iommu.ptLevels
  valid : ∀ seg ∈ vm.memSegs, seg.Valid vm.iommu.ptLevels
  apart : vm.memSegs.Pairwise MemSeg.Apart
  ept : storeAll 3 ((vm.memSegs.map MemSeg.call).flatMap (Call.pages cap)) blank = some vm.ept
  iommu : storeAll (vm.iommu.ptLevels - 1)
    (vm.memSegs.flatMap (MemSeg.dmaPages vm.iommu.ptLevels vm.iommu.spsmask)) blank = some vm.iommu.ptp
  host : Host vm.avail

/-- What a segment says of a guest address. -/
def MemSeg.translate (seg : MemSeg) (y : Nat) : Nat := add64 seg.hpa (y - seg.gpa)

theorem Vm.Inv.valid_calls (inv : vm.Inv cap) : ∀ call ∈ vm.memSegs.map MemSeg.call, call.Valid := by
  intro call member
  obtain ⟨seg, segMem, rfl⟩ := List.mem_map.mp member
  exact (inv.valid seg segMem).call

/-- The nested page tables translate by the segment that covers an address. -/
theorem Vm.Inv.eptTranslate_eq (inv : vm.Inv cap) (bound : y < 2 ^ 48) :
    (eptTranslate vm.ept y).map Prod.fst =
      (vm.memSegs.reverse.find? fun seg => seg.Covers y).map (·.translate y) := by
  rw [Paging.eptTranslate_eq inv.valid_calls inv.ept bound, meaning, ← List.map_reverse, List.find?_map]
  have same : (fun call => decide (Call.Covers call y)) ∘ MemSeg.call = fun seg => decide (seg.Covers y) := rfl
  rw [same]
  cases vm.memSegs.reverse.find? fun seg => seg.Covers y with
  | none => rfl
  | some seg => rfl

/-- So does the remapping unit. -/
theorem Vm.Inv.dmaTranslate_eq (inv : vm.Inv cap) (bound : y < size vm.iommu.ptLevels) :
    dmaTranslate vm.iommu y = (vm.memSegs.reverse.find? fun seg => seg.Covers y).map (·.translate y) := by
  have fits : ∀ page ∈ vm.memSegs.flatMap (MemSeg.dmaPages vm.iommu.ptLevels vm.iommu.spsmask),
      page.Fits (vm.iommu.ptLevels - 1) := by
    intro page member
    obtain ⟨seg, segMem, inside⟩ := List.mem_flatMap.mp member
    have valid := inv.valid seg segMem
    exact pieces_fits (vtdPick_sound _ _) (valid.whole inv.levels) valid.enough page inside
  have ends : (latest (vm.memSegs.flatMap (MemSeg.dmaPages vm.iommu.ptLevels vm.iommu.spsmask)) y).bind
      (fun page => some (page.leaf.hpa + y % size page.level)) =
        (vm.memSegs.reverse.find? fun seg => seg.Covers y).bind fun seg => some (seg.translate y) := by
    refine latest_flatMap ?_ ?_
    · intro seg member
      have valid := inv.valid seg member
      rw [decide_eq_true_iff]
      exact pieces_cover (vtdPick_sound _ _) (valid.whole inv.levels) valid.enough
    · intro seg member page inside covers
      have valid := inv.valid seg member
      obtain ⟨host, leaf, address⟩ :=
        pieces_leaf (vtdPick_sound _ _) (valid.whole inv.levels) valid.enough inside covers
      rw [leaf]
      exact congrArg some address
  rw [dmaTranslate, if_neg (by omega),
    walk_storeAll fits inv.iommu (by rw [Nat.sub_add_cancel inv.levels]; exact bound), Option.map_map,
    Option.map_eq_bind, Option.map_eq_bind]
  exact ends

/-- The segments translate a question that fits by the segment that covers its address. -/
theorem Vm.Inv.vmGpa2hpa_eq (inv : vm.Inv cap) (fits : Fits vm gpa len) :
    vmGpa2hpa vm gpa len = (vm.memSegs.reverse.find? fun seg => seg.Covers gpa).map (·.translate gpa) := by
  have positive := fits.positive
  have nowrap := fits.nowrap
  have answer : ∀ seg ∈ vm.memSegs,
      seg.gpa2hpa gpa len = if seg.Covers gpa then some (seg.translate gpa) else none := by
    intro seg member
    have end48 := (inv.valid seg member).nested
    have inside := fits.inside seg member
    rw [MemSeg.gpa2hpa, add64_of_lt nowrap, add64_of_lt (show seg.gpa + seg.len < 2 ^ 64 by omega)]
    by_cases covers : seg.Covers gpa
    · rw [if_pos covers, if_pos ⟨covers.1, inside covers⟩, MemSeg.translate, add64, add64, Nat.add_comm]
    · rw [if_neg covers, if_neg]
      rw [MemSeg.Covers] at covers
      omega
  rw [vmGpa2hpa]
  cases outcome : vm.memSegs.findSome? (·.gpa2hpa gpa len) with
  | none =>
      rw [find?_reverse_none]
      · rfl
      · intro seg member covers
        have nothing := List.findSome?_eq_none_iff.mp outcome seg member
        rw [answer seg member, if_pos covers] at nothing
        cases nothing
  | some hpa =>
      obtain ⟨seg, member, found⟩ := List.exists_of_findSome?_eq_some outcome
      rw [answer seg member] at found
      split at found
      · rename_i covers
        rw [find?_reverse inv.apart member covers, ← found]
        rfl
      · cases found

/-- Outside the width of a table there is no segment. -/
theorem Vm.Inv.views_eq (inv : vm.Inv cap) (fits : Fits vm gpa len) :
    vmGpa2hpa vm gpa len = (eptTranslate vm.ept gpa).map Prod.fst ∧ vmGpa2hpa vm gpa len = dmaTranslate vm.iommu gpa := by
  rw [inv.vmGpa2hpa_eq fits]
  constructor
  · by_cases bound : gpa < 2 ^ 48
    · exact (inv.eptTranslate_eq bound).symm
    · rw [eptTranslate, if_pos (by omega), find?_reverse_none]
      · rfl
      · intro seg member covers
        have := (inv.valid seg member).nested
        have := covers.2
        omega
  · by_cases bound : gpa < size vm.iommu.ptLevels
    · exact (inv.dmaTranslate_eq bound).symm
    · rw [dmaTranslate, if_pos (by omega), find?_reverse_none]
      · rfl
      · intro seg member covers
        have := (inv.valid seg member).width
        have := covers.2
        omega

/-- An address is returned only for a range inside one segment. -/
theorem Vm.Inv.inside_segment (inv : vm.Inv cap) (nowrap : gpa + len < 2 ^ 64)
    (found : vmGpa2hpa vm gpa len = some hpa) :
    ∃ seg ∈ vm.memSegs, seg.gpa ≤ gpa ∧ gpa + len ≤ seg.gpa + seg.len := by
  obtain ⟨seg, member, answer⟩ := List.exists_of_findSome?_eq_some found
  have end48 := (inv.valid seg member).nested
  rw [MemSeg.gpa2hpa, add64_of_lt nowrap, add64_of_lt (show seg.gpa + seg.len < 2 ^ 64 by omega)] at answer
  split at answer
  · rename_i inside
    exact ⟨seg, member, inside⟩
  · cases answer

/-! ## One call -/

/-- A range that a new segment can have. -/
theorem Regular.apart_of_none (inv : vm.Inv cap) (regular : Regular vm gpa len) (missed : vmGpa2hpa vm gpa len = none)
    (hpa : Nat) : ∀ seg ∈ vm.memSegs, seg.Apart ⟨gpa, hpa, len⟩ := by
  intro seg member y covers other
  have answer := List.findSome?_eq_none_iff.mp missed seg member
  have end48 := (inv.valid seg member).nested
  have bound := regular.nested
  rw [MemSeg.gpa2hpa, add64_of_lt (by omega), add64_of_lt (by omega)] at answer
  have lower : seg.gpa ≤ y := covers.1
  have upper : y < seg.gpa + seg.len := covers.2
  have lower' : gpa ≤ y := other.1
  have upper' : y < gpa + len := other.2
  obtain inside | below | above := regular.apart seg member
  · rw [if_pos inside] at answer
    cases answer
  · omega
  · omega

/-- What is left of the host memory. -/
theorem Host.alloc {avail rest : List Span} (host : Host avail) (large : len % nbpdr = 0)
    (found : Mem.vmmMemAlloc avail len = some (hpa, rest)) :
    Host rest ∧ (hpa = 0 → rest = avail) ∧ (hpa ≠ 0 → hpa % 4096 = 0 ∧ hpa < 2 ^ 64) := by
  rw [Mem.vmmMemAlloc, if_neg (by omega), Option.some.injEq] at found
  obtain ⟨nothing, -⟩ | ⟨front, seg, back, rfl, fits, -, cut⟩ := Mem.allocLoop_cases avail len
  · rw [nothing] at found
    obtain ⟨rfl, rfl⟩ := Prod.mk.inj found
    exact ⟨host, fun _ => rfl, fun some => absurd rfl some⟩
  · rw [cut] at found
    obtain ⟨rfl, rfl⟩ := Prod.mk.inj found
    obtain ⟨positive, aligned, address, bound⟩ := host seg (by simp)
    refine ⟨?_, fun zero => absurd zero positive.ne', fun _ => ⟨?_, address⟩⟩
    · intro other member
      rw [List.mem_append] at member
      obtain old | new := member
      · exact host other (List.mem_append_left _ old)
      · split at new
        · exact host other (by simp [new])
        · rename_i left
          obtain rfl | old := List.mem_cons.mp new
          · refine ⟨Nat.add_pos_left positive len, ?_, ?_, ?_⟩
            · exact Nat.mod_eq_zero_of_dvd (Nat.dvd_add (Nat.dvd_of_mod_eq_zero aligned) (Nat.dvd_of_mod_eq_zero large))
            · show seg.lo + len < 2 ^ 64
              omega
            · show seg.lo + len + (seg.len - len) ≤ 2 ^ 64
              omega
          · exact host other (by simp [old])
    · rw [nbpdr] at aligned
      omega

section

variable (inv : vm.Inv cap) (valid : seg.Valid vm.iommu.ptLevels) (apart : ∀ other ∈ vm.memSegs, other.Apart seg)

include inv valid apart

omit apart in
theorem Vm.Inv.valid_concat : ∀ other ∈ vm.memSegs ++ [seg], other.Valid vm.iommu.ptLevels := by
  intro other member
  obtain old | new := List.mem_append.mp member
  · exact inv.valid other old
  · exact List.mem_singleton.mp new ▸ valid

omit valid in
theorem Vm.Inv.apart_concat : (vm.memSegs ++ [seg]).Pairwise MemSeg.Apart := by
  refine List.pairwise_append.mpr ⟨inv.apart, List.pairwise_singleton _ _, ?_⟩
  intro other member new single
  exact List.mem_singleton.mp single ▸ apart other member

/-- The pages of the nested page tables, with a new segment. -/
theorem Vm.Inv.ept_add :
    ∃ ept, eptVmmmap cap vm.ept seg.call = some ept ∧
      storeAll 3 (((vm.memSegs ++ [seg]).map MemSeg.call).flatMap (Call.pages cap)) blank = some ept := by
  have stored := inv.ept
  rw [List.flatMap_map] at stored ⊢
  rw [eptVmmmap_eq valid.call]
  have validAll := inv.valid_concat valid
  refine storeAll_add ?_ ?_ ?_ stored
  · intro other member
    exact (validAll other member).call.fits
  · intro other member
    have call := (validAll other member).call
    exact pieces_apart (eptPick_sound cap true) call.whole call.enough
  · refine (inv.apart_concat apart).imp_of_mem ?_
    intro first second firstMem secondMem disjoint page pageMem other otherMem y covers otherCovers
    have callFirst := (validAll first firstMem).call
    have callSecond := (validAll second secondMem).call
    have inFirst := (pieces_cover (eptPick_sound cap true) callFirst.whole callFirst.enough).mp ⟨page, pageMem, covers⟩
    have inSecond :=
      (pieces_cover (eptPick_sound cap true) callSecond.whole callSecond.enough).mp ⟨other, otherMem, otherCovers⟩
    exact disjoint y inFirst inSecond

/-- The pages of the remapping unit, with a new segment. -/
theorem Vm.Inv.iommu_add :
    ∃ ptp, iommuCreateMapping vm.iommu seg.gpa seg.hpa seg.len = some { vm.iommu with ptp := ptp } ∧
      storeAll (vm.iommu.ptLevels - 1)
        ((vm.memSegs ++ [seg]).flatMap (MemSeg.dmaPages vm.iommu.ptLevels vm.iommu.spsmask)) blank = some ptp := by
  have validAll := inv.valid_concat valid
  have sound := vtdPick_sound vm.iommu.ptLevels vm.iommu.spsmask
  have levels := inv.levels
  have added : ∃ ptp, storeAll (vm.iommu.ptLevels - 1) (seg.dmaPages vm.iommu.ptLevels vm.iommu.spsmask) vm.iommu.ptp = some ptp ∧
      storeAll (vm.iommu.ptLevels - 1)
        ((vm.memSegs ++ [seg]).flatMap (MemSeg.dmaPages vm.iommu.ptLevels vm.iommu.spsmask)) blank = some ptp := by
    refine storeAll_add ?_ ?_ ?_ inv.iommu
    · intro other member
      exact pieces_fits sound ((validAll other member).whole levels) (validAll other member).enough
    · intro other member
      exact pieces_apart sound ((validAll other member).whole levels) (validAll other member).enough
    · refine (inv.apart_concat apart).imp_of_mem ?_
      intro first second firstMem secondMem disjoint page pageMem other otherMem y covers otherCovers
      have validFirst := validAll first firstMem
      have validSecond := validAll second secondMem
      have inFirst := (pieces_cover sound (validFirst.whole levels) validFirst.enough).mp ⟨page, pageMem, covers⟩
      have inSecond :=
        (pieces_cover sound (validSecond.whole levels) validSecond.enough).mp ⟨other, otherMem, otherCovers⟩
      exact disjoint y inFirst inSecond
  obtain ⟨ptp, stored, whole⟩ := added
  refine ⟨ptp, ?_, whole⟩
  rw [iommuCreateMapping_eq vm.iommu (valid.whole levels), stored]
  rfl

end

/-- Every call succeeds or reports an error, and an error leaves the machine as it is. -/
theorem Vm.Inv.step (inv : vm.Inv cap) (regular : Regular vm gpa len) :
    ∃ result next, vmMalloc cap vm gpa len = some (result, next) ∧ next.Inv cap ∧
      ∀ error, result = .error error → next = vm := by
  rw [vmMalloc]
  cases missed : vmGpa2hpa vm gpa len with
  | some hpa => exact ⟨.ok hpa, vm, rfl, inv, fun _ _ => rfl⟩
  | none =>
      by_cases full : vmMaxMemorySegments ≤ vm.memSegs.length
      · rw [if_pos full]
        exact ⟨.error .e2big, vm, rfl, inv, fun _ _ => rfl⟩
      · rw [if_neg full]
        have large := regular.large
        cases found : Mem.vmmMemAlloc vm.avail len with
        | none =>
            rw [Mem.vmmMemAlloc, if_neg (by omega)] at found
            cases found
        | some result =>
            obtain ⟨hpa, avail⟩ := result
            obtain ⟨host, nothing, address⟩ := inv.host.alloc large found
            simp only [Option.bind_some]
            by_cases zero : hpa = 0
            · rw [if_pos zero]
              refine ⟨.error .enomem, _, rfl, { inv with host := host }, fun _ _ => ?_⟩
              rw [nothing zero]
            · rw [if_neg zero]
              obtain ⟨page, bound⟩ := address zero
              have valid : MemSeg.Valid vm.iommu.ptLevels ⟨gpa, hpa, len⟩ := by
                refine ⟨regular.guest, page, ?_, bound, regular.nested, regular.width⟩
                rw [nbpdr] at large
                show len % 4096 = 0
                omega
              have apart := regular.apart_of_none inv missed hpa
              obtain ⟨ept, mapped, eptStored⟩ := inv.ept_add valid apart
              obtain ⟨ptp, remapped, ptpStored⟩ := inv.iommu_add valid apart
              rw [MemSeg.call] at mapped
              rw [mapped, Option.bind_some, remapped, Option.map_some]
              refine ⟨.ok hpa, _, rfl, ?_, (by rintro _ ⟨⟩)⟩
              exact ⟨inv.levels, inv.valid_concat valid, inv.apart_concat apart, eptStored, ptpStored, host⟩

/-! ## Runs -/

theorem sagawLoop_pos {sagaws : Nat} {width : Int} {fuel i levels sagaw : Nat} (positive : 0 < levels)
    (found : sagawLoop sagaws width fuel i levels sagaw = some ptLevels) : 0 < ptLevels := by
  induction fuel generalizing i levels sagaw with
  | zero => cases found
  | succ fuel ih =>
      rw [sagawLoop] at found
      split at found
      · exact Option.some.inj found ▸ positive
      · exact ih (Nat.succ_pos levels) found

theorem Vm.Inv.create {vtdCap maxaddr : Nat} {dom : Domain} {avail : List Span}
    (created : vtdCreateDomain vtdCap maxaddr = some dom) (host : Host avail) : (vmCreate dom avail).Inv cap := by
  obtain ⟨ptLevels, found, rfl⟩ := Option.map_eq_some_iff.mp created
  exact ⟨sagawLoop_pos (by decide) found, nofun, List.Pairwise.nil, rfl, rfl, host⟩

/-- In a run of calls that are within the width of both tables and do not overlap, the three
views agree on every question that does not reach beyond its segment, only ranges inside a
segment have an address, and a call that fails changes nothing. -/
theorem views_agree {vtdCap maxaddr : Nat} {dom : Domain} {avail : List Span} {calls : List (Nat × Nat)}
    (created : vtdCreateDomain vtdCap maxaddr = some dom) (host : Host avail)
    (run : Run (fun vm call next => Regular vm call.1 call.2 ∧
      ∃ result, vmMalloc cap vm call.1 call.2 = some (result, next)) (vmCreate dom avail) calls vm) :
    (∀ gpa len, Fits vm gpa len → vmGpa2hpa vm gpa len = (eptTranslate vm.ept gpa).map Prod.fst ∧
      vmGpa2hpa vm gpa len = dmaTranslate vm.iommu gpa) ∧
    (∀ gpa len hpa, gpa + len < 2 ^ 64 → vmGpa2hpa vm gpa len = some hpa →
      ∃ seg ∈ vm.memSegs, seg.gpa ≤ gpa ∧ gpa + len ≤ seg.gpa + seg.len) ∧
    ∀ gpa len, Regular vm gpa len → ∃ result next, vmMalloc cap vm gpa len = some (result, next) ∧
      ∀ error, result = .error error → next = vm := by
  have inv : vm.Inv cap := by
    refine Run.invariant ?_ run (.create created host)
    rintro vm next ⟨gpa, len⟩ inv ⟨regular, result, outcome⟩
    obtain ⟨result', next', outcome', inv', -⟩ := inv.step regular
    rw [outcome] at outcome'
    exact (Prod.mk.inj (Option.some.inj outcome')).2 ▸ inv'
  refine ⟨fun gpa len fits => inv.views_eq fits, fun gpa len hpa nowrap found => inv.inside_segment nowrap found, ?_⟩
  intro gpa len regular
  obtain ⟨result, next, outcome, -, unchanged⟩ := inv.step regular
  exact ⟨result, next, outcome, unchanged⟩

/-- A domain of four levels with large pages, and host memory from 2MB on. -/
def sampleDomain : Domain := { ptp := blank, ptLevels := 4, spsmask := 1 }

def sampleAvail : List Span := [⟨2097152, 16777216⟩]

/-- The first call of a machine. -/
theorem views_agree_first : ∃ result next,
    vmMalloc (2 ^ 16) (vmCreate sampleDomain sampleAvail) 0 2097152 = some (result, next) ∧
      ∀ error, result = .error error → next = vmCreate sampleDomain sampleAvail := by
  have host : Host sampleAvail := by
    intro seg member
    rw [List.mem_singleton.mp member]
    decide
  have created : vtdCreateDomain (2 ^ 10 + 2 ^ 34) (2 ^ 32) = some sampleDomain := rfl
  refine (views_agree created host (.nil _)).2.2 0 2097152 ?_
  exact ⟨rfl, rfl, by decide, by decide, nofun⟩

/-- The state after `vm_malloc` of 2MB and of 4MB at address zero. -/
def overlapped : Option Vm :=
  (vmMalloc (2 ^ 16) (vmCreate sampleDomain sampleAvail) 0 2097152).bind fun (_, vm) =>
    (vmMalloc (2 ^ 16) vm 0 4194304).map Prod.snd

/-- The segments name the first memory at address zero and both tables the second; and a length
that wraps around is taken for one inside the segment. -/
theorem overlapping_views_differ :
    overlapped.map (fun vm => (vmGpa2hpa vm 0 4096, (eptTranslate vm.ept 0).map Prod.fst, dmaTranslate vm.iommu 0)) =
        some (some 2097152, some 4194304, some 4194304) ∧
      overlapped.map (fun vm => vmGpa2hpa vm 4096 (2 ^ 64 - 4096)) = some (some 2101248) := by
  constructor
  · decide
  · rfl

end Dragonfly.Vmm.Paging
