import Mathlib.Algebra.Order.Ring.Int
import Mathlib.Data.List.Basic
import Mathlib.Data.Nat.Basic

/-!
# The regions of the virtual devices

A device registers the ranges of addresses for which it has handlers, and an access of the
guest to an address is given to the handler of a range.  One search serves the registration,
the removal and the access.
-/

namespace Dragonfly.Vmm.Vdev

/-- `struct io_region` -/
structure IoRegion where
  base : BitVec 64
  len : BitVec 64
  attr : Nat
  deriving DecidableEq

/-- `struct vdev_region`, with the addresses of the handlers and of the device. -/
structure VdevRegion where
  ops : Nat
  dev : Nat
  io : IoRegion
  deriving DecidableEq

/-- `opsize_t` -/
inductive Opsize where
  | byte
  | word
  | dword
  | qword

def Opsize.bytes : Opsize → Nat
  | byte => 1
  | word => 2
  | dword => 4
  | qword => 8

/-- The bit of `region_attr_t` for an access: `MMIO_READ` or `MMIO_WRITE`. -/
def mmioAttr (read : Bool) : Nat := if read then 1 else 2

/-- `EPERM` -/
def eperm : Int := 1

/-- `EEXIST` -/
def eexist : Int := 17

/-- `EINVAL` -/
def einval : Int := 22

/-- What an access comes to: an error number, or the call of a handler of a device, whose
result is the result of the access. -/
inductive Answer where
  | error (rc : Int)
  | handler (ops dev : Nat) (gpa : BitVec 64) (size : Opsize) (read : Bool)

/-- `IN_RANGE` -/
def inRange (val start stop : BitVec 64) : Bool := start ≤ val && val < stop

/-- The test of `vdev_find_region`. -/
def found (io : IoRegion) (dev : Nat) (region : VdevRegion) : Bool :=
  let regionBase := region.io.base
  let regionEnd := regionBase + region.io.len
  inRange io.base regionBase regionEnd && inRange (io.base + io.len) regionBase (regionEnd + 1) &&
    (dev ≠ 0 && dev = region.dev)

/-- `vdev_find_region` -/
def vdevFindRegion (regions : List VdevRegion) (io : IoRegion) (dev : Nat) : Option VdevRegion :=
  regions.find? (found io dev)

/-- `vdev_register_region` -/
def vdevRegisterRegion (regions : List VdevRegion) (ops dev : Nat) (io : IoRegion) : Int × List VdevRegion :=
  match vdevFindRegion regions io dev with
  | some _ => (-eexist, regions)
  | none => (0, ⟨ops, dev, io⟩ :: regions)

/-- `vdev_unregister_region` -/
def vdevUnregisterRegion (regions : List VdevRegion) (dev : Nat) (io : IoRegion) : List VdevRegion :=
  match vdevFindRegion regions io dev with
  | some region => regions.erase region
  | none => regions

/-- `vdev_memrw` -/
def vdevMemrw (regions : List VdevRegion) (gpa : BitVec 64) (size : Opsize) (read : Bool) : Answer :=
  match vdevFindRegion regions ⟨gpa, BitVec.ofNat 64 size.bytes, 0⟩ 0 with
  | none => .error (-einval)
  | some region =>
      if region.io.attr &&& mmioAttr read = 0 then .error (-eperm)
      else .handler region.ops region.dev gpa size read

/-- A call that changes the list of the regions. -/
inductive Call where
  | register (ops dev : Nat) (io : IoRegion)
  | unregister (dev : Nat) (io : IoRegion)

def step (regions : List VdevRegion) : Call → List VdevRegion
  | .register ops dev io => (vdevRegisterRegion regions ops dev io).2
  | .unregister dev io => vdevUnregisterRegion regions dev io

/-- The regions after a number of calls.  `vdev_vm_init` starts with none. -/
def regionsAfter (calls : List Call) : List VdevRegion := calls.foldl step []

/-! ## What the calls are for -/

/-- The region contains all addresses of the access. -/
def IoRegion.Contains (io : IoRegion) (gpa : BitVec 64) (size : Opsize) : Prop :=
  io.base.toNat ≤ gpa.toNat ∧ gpa.toNat + size.bytes ≤ io.base.toNat + io.len.toNat

/-- The region grants the access. -/
def IoRegion.Grants (io : IoRegion) (read : Bool) : Prop := io.attr &&& mmioAttr read ≠ 0

/-- The answer to an access: the handler of a region that contains it and grants it, an error
because a region that contains it does not grant it, and another error exactly if no region
contains it. -/
def Dispatched (regions : List VdevRegion) (gpa : BitVec 64) (size : Opsize) (read : Bool) : Answer → Prop
  | .error rc =>
      (rc = -einval ∧ ∀ region ∈ regions, ¬region.io.Contains gpa size) ∨
        (rc = -eperm ∧ ∃ region ∈ regions, region.io.Contains gpa size ∧ ¬region.io.Grants read)
  | .handler ops dev gpa' size' read' =>
      gpa' = gpa ∧ size' = size ∧ read' = read ∧
        ∃ region ∈ regions, region.io.Contains gpa size ∧ region.io.Grants read ∧ region.ops = ops ∧ region.dev = dev

/-- The entry is this region of this device. -/
def Same (dev : Nat) (io : IoRegion) (region : VdevRegion) : Prop := region.dev = dev ∧ region.io = io

instance (dev : Nat) (io : IoRegion) (region : VdevRegion) : Decidable (Same dev io region) :=
  inferInstanceAs (Decidable (_ ∧ _))

/-- The search for a region of a device stops at the entry: the entry does not end near the top
of the address space, and it has the first address and, as 64 bits, the end of the region. -/
structure Stops (dev : Nat) (io : IoRegion) (region : VdevRegion) : Prop where
  device : dev ≠ 0 ∧ region.dev = dev
  room : region.io.base.toNat + region.io.len.toNat + 1 < 2 ^ 64
  start : region.io.base.toNat ≤ io.base.toNat ∧ io.base.toNat < region.io.base.toNat + region.io.len.toNat
  stop : region.io.base.toNat ≤ (io.base.toNat + io.len.toNat) % 2 ^ 64 ∧
    (io.base.toNat + io.len.toNat) % 2 ^ 64 ≤ region.io.base.toNat + region.io.len.toNat

/-- The entries in front of the region. -/
def inFront (regions : List VdevRegion) (dev : Nat) (io : IoRegion) : List VdevRegion :=
  regions.takeWhile fun region => !decide (Same dev io region)

variable {regions rest : List VdevRegion} {region : VdevRegion} {io : IoRegion} {dev : Nat}

theorem found_iff : found io dev region = true ↔ Stops dev io region := by
  have base := region.io.base.isLt
  have len := region.io.len.isLt
  have one : (1 : BitVec 64).toNat = 1 := rfl
  simp only [found, inRange, Bool.and_eq_true, decide_eq_true_eq, BitVec.le_def, BitVec.lt_def, BitVec.toNat_add,
    one]
  constructor
  · rintro ⟨⟨⟨low, high⟩, low', high'⟩, nonnull, device⟩
    constructor
    · exact ⟨nonnull, device.symm⟩
    · omega
    · omega
    · omega
  · rintro ⟨⟨nonnull, device⟩, room, start, stop⟩
    refine ⟨⟨⟨start.1, ?_⟩, stop.1, ?_⟩, nonnull, device.symm⟩
    · omega
    · omega

/-! ## The calls -/

/-- A search without a device finds nothing. -/
theorem vdevFindRegion_zero (regions : List VdevRegion) (io : IoRegion) : vdevFindRegion regions io 0 = none := by
  rw [vdevFindRegion, List.find?_eq_none]
  intro region _ hit
  exact ((found_iff).mp hit).device.1 rfl

theorem vdevUnregisterRegion_eq (regions : List VdevRegion) (dev : Nat) (io : IoRegion) :
    vdevUnregisterRegion regions dev io = regions.eraseP (found io dev) := by
  rw [vdevUnregisterRegion, vdevFindRegion]
  induction regions with
  | nil => rfl
  | cons region rest ih =>
      by_cases hit : found io dev region = true
      · rw [List.find?_cons_of_pos hit, List.eraseP_cons_of_pos hit]
        exact List.erase_cons_head ..
      · rw [List.find?_cons_of_neg hit, List.eraseP_cons_of_neg hit, ← ih]
        cases search : rest.find? (found io dev) with
        | none => rfl
        | some other =>
            have different : region ≠ other := by
              rintro rfl
              exact hit (List.find?_some search)
            exact List.erase_cons_tail (by simpa using different)

/-- To keep an element and to remove an equal one behind it is not to remove the element. -/
theorem cons_eraseP_ne {P : VdevRegion → Bool} (keep : ¬P region = true) (rest : List VdevRegion) :
    region :: rest.eraseP P ≠ rest := by
  induction rest generalizing region with
  | nil => exact List.cons_ne_nil _ _
  | cons next rest ih =>
      intro same
      have head : region = next := List.head_eq_of_cons_eq same
      rw [head] at keep
      rw [List.eraseP_cons_of_neg keep] at same
      exact ih keep (List.tail_eq_of_cons_eq same)

/-- The removal of the first entry with a property is the removal of the first entry with
another property exactly if no entry in front of the second one has the first property, and the
second one has it. -/
theorem eraseP_eq_iff {P Q : VdevRegion → Bool} :
    regions.eraseP P = regions.eraseP Q ↔
      (∀ region ∈ regions.takeWhile (fun region => !Q region), ¬P region = true) ∧
        ∀ region, regions.find? Q = some region → P region = true := by
  induction regions with
  | nil => simp
  | cons region rest ih =>
      by_cases second : Q region = true
      · have front : (region :: rest).takeWhile (fun region => !Q region) = [] := by
          rw [List.takeWhile_cons_of_neg (by rw [second]; decide)]
        rw [front, List.find?_cons_of_pos second, List.eraseP_cons_of_pos second]
        by_cases first : P region = true
        · rw [List.eraseP_cons_of_pos first]
          refine iff_of_true rfl ⟨nofun, ?_⟩
          rintro _ ⟨⟩
          exact first
        · rw [List.eraseP_cons_of_neg first]
          exact iff_of_false (cons_eraseP_ne first rest) fun both => first (both.2 region rfl)
      · have front : (region :: rest).takeWhile (fun region => !Q region) =
            region :: rest.takeWhile (fun region => !Q region) := by
          rw [List.takeWhile_cons_of_pos (by simpa using second)]
        rw [front, List.find?_cons_of_neg second, List.eraseP_cons_of_neg second, List.forall_mem_cons]
        by_cases first : P region = true
        · rw [List.eraseP_cons_of_pos first]
          exact iff_of_false (cons_eraseP_ne second rest).symm fun both => both.1.1 first
        · rw [List.eraseP_cons_of_neg first, and_assoc, List.cons_inj_right, ih]
          exact (and_iff_right first).symm

/-- The search stops at the entry of the region itself if the region is not empty and does not
reach the top of the address space. -/
theorem Same.stops_iff (same : Same dev io region) :
    Stops dev io region ↔ dev ≠ 0 ∧ 0 < io.len.toNat ∧ io.base.toNat + io.len.toNat + 1 < 2 ^ 64 := by
  obtain ⟨device, rfl⟩ := same
  constructor
  · intro stops
    have room := stops.room
    have start := stops.start
    exact ⟨stops.device.1, by omega, room⟩
  · rintro ⟨nonnull, nonempty, room⟩
    have whole : (region.io.base.toNat + region.io.len.toNat) % 2 ^ 64 = region.io.base.toNat + region.io.len.toNat :=
      Nat.mod_eq_of_lt (by omega)
    constructor
    · exact ⟨nonnull, device⟩
    · exact room
    · exact ⟨le_rfl, by omega⟩
    · rw [whole]
      exact ⟨by omega, le_rfl⟩

theorem dispatched_iff (regions : List VdevRegion) (gpa : BitVec 64) (size : Opsize) (read : Bool) :
    Dispatched regions gpa size read (vdevMemrw regions gpa size read) ↔
      ∀ region ∈ regions, ¬region.io.Contains gpa size := by
  rw [vdevMemrw, vdevFindRegion_zero]
  constructor
  · rintro (⟨-, nowhere⟩ | ⟨wrong, -⟩)
    · exact nowhere
    · exact absurd wrong (by decide)
  · exact fun nowhere => .inl ⟨rfl, nowhere⟩

theorem register_fails_iff (regions : List VdevRegion) (ops dev : Nat) (io : IoRegion) :
    vdevRegisterRegion regions ops dev io = (-eexist, regions) ↔ ∃ region ∈ regions, Stops dev io region := by
  rw [vdevRegisterRegion, vdevFindRegion]
  cases search : regions.find? (found io dev) with
  | none =>
      rw [List.find?_eq_none] at search
      refine iff_of_false (fun same => absurd (congrArg Prod.fst same) (by simp [eexist])) ?_
      rintro ⟨region, member, stops⟩
      exact search region member ((found_iff).mpr stops)
  | some region =>
      exact iff_of_true rfl ⟨region, List.mem_of_find?_eq_some search, (found_iff).mp (List.find?_some search)⟩

theorem unregister_removes_iff (regions : List VdevRegion) (dev : Nat) (io : IoRegion) :
    vdevUnregisterRegion regions dev io = regions.eraseP (Same dev io ·) ↔
      (∀ region ∈ inFront regions dev io, ¬Stops dev io region) ∧
        ((∃ region ∈ regions, Same dev io region) →
          dev ≠ 0 ∧ 0 < io.len.toNat ∧ io.base.toNat + io.len.toNat + 1 < 2 ^ 64) := by
  rw [vdevUnregisterRegion_eq, eraseP_eq_iff]
  simp only [found_iff]
  refine and_congr_right fun _ => ?_
  constructor
  · rintro first ⟨region, member, same⟩
    cases search : regions.find? (Same dev io ·) with
    | none => exact absurd (decide_eq_true same) (List.find?_eq_none.mp search region member)
    | some other =>
        have same' : Same dev io other := by simpa using List.find?_some search
        exact same'.stops_iff.mp (first other search)
  · intro sane region search
    have same : Same dev io region := by simpa using List.find?_some search
    exact same.stops_iff.mpr (sane ⟨region, List.mem_of_find?_eq_some search, same⟩)

/-- Whatever has been registered and removed: an access is answered as it should be exactly if no
region contains it; a registration fails exactly if the search stops at an entry; and a removal
removes the region and nothing else exactly if the search stops at no entry in front of it, and
the region is not empty and does not reach the top of the address space. -/
theorem regions_answer_iff (calls : List Call) :
    (∀ gpa size read, Dispatched (regionsAfter calls) gpa size read (vdevMemrw (regionsAfter calls) gpa size read) ↔
        ∀ region ∈ regionsAfter calls, ¬region.io.Contains gpa size) ∧
      (∀ ops dev io, vdevRegisterRegion (regionsAfter calls) ops dev io = (-eexist, regionsAfter calls) ↔
        ∃ region ∈ regionsAfter calls, Stops dev io region) ∧
      ∀ dev io, vdevUnregisterRegion (regionsAfter calls) dev io = (regionsAfter calls).eraseP (Same dev io ·) ↔
        (∀ region ∈ inFront (regionsAfter calls) dev io, ¬Stops dev io region) ∧
          ((∃ region ∈ regionsAfter calls, Same dev io region) →
            dev ≠ 0 ∧ 0 < io.len.toNat ∧ io.base.toNat + io.len.toNat + 1 < 2 ^ 64) :=
  ⟨dispatched_iff _, register_fails_iff _, unregister_removes_iff _⟩

/-- The page of a local APIC is registered, and a read of its first word finds no region. -/
theorem registered_page_not_found :
    ¬∀ calls gpa size read, Dispatched (regionsAfter calls) gpa size read (vdevMemrw (regionsAfter calls) gpa size read) := by
  intro all
  have answered := all [.register 1 2 ⟨0xfee00000#64, 0x400#64, 3⟩] 0xfee00000#64 .dword true
  rw [dispatched_iff] at answered
  exact answered _ List.mem_cons_self ⟨by decide, by decide⟩

end Dragonfly.Vmm.Vdev
