import Dragonfly.Vmm.Paging.Pieces

/-!
# What the nested page tables mean

Each call stores the pages of its range.  A call that has a smaller page inside a larger page
of an earlier call takes the entry of the larger one for a table; without such calls, every
guest address is translated as the last call that covers it says.
-/

namespace Dragonfly.Vmm.Paging

open Dragonfly.Lib Dragonfly.Lib.PageTable
open Dragonfly.Vmm.Mem (add64)

/-- A call of whole base pages, inside the guest addresses that four levels reach. -/
structure Call.Valid (call : Call) : Prop where
  gpa : call.gpa % 4096 = 0
  hpa : call.hpa % 4096 = 0
  len : call.len % 4096 = 0
  bound : call.gpa + call.len ≤ 2 ^ 48
  address : call.hpa < 2 ^ 64

/-- The guest address is one of the call's range. -/
def Call.Covers (call : Call) (y : Nat) : Prop := call.gpa ≤ y ∧ y < call.gpa + call.len

instance (call : Call) (y : Nat) : Decidable (call.Covers y) := inferInstanceAs (Decidable (_ ∧ _))

/-- What a call says of a guest address of its range. -/
def Call.translate (call : Call) (y : Nat) : Option (Nat × Prot) :=
  if call.prot = vmProtNone then none else some (add64 call.hpa (y - call.gpa), call.prot)

/-- What the last call that covers a guest address says of it. -/
def meaning (calls : List Call) (y : Nat) : Option (Nat × Prot) :=
  (calls.reverse.find? fun call => call.Covers y).bind (·.translate y)

/-- The level that `ept_create_mapping` chooses. -/
def eptPick (cap : Nat) (spok : Bool) : Pick := fun gpa hpa len =>
  (eptSpshift (pageSizesMask cap) gpa hpa len spok).getD 0

/-- What `ept_create_mapping` stores. -/
def Call.leaf (call : Call) (hpa level : Nat) : Leaf :=
  { hpa := hpa, prot := call.prot, attr := call.attr, superpage := decide (0 < level) }

/-- The pages that `ept_vmmmap` makes for a call. -/
def Call.pages (cap : Nat) (call : Call) : List (Page Leaf) :=
  pieces (eptPick cap call.spok) call.leaf (call.len / 4096) call.gpa call.hpa call.len

variable {cap y : Nat} {spok : Bool} {call : Call} {calls : List Call}

/-! ## The size of a page -/

theorem firstFit_spec {fits : Nat → Bool} (smallest : fits 0 = true) (start : Nat) :
    ∃ level, firstFit fits start = some level ∧ level ≤ start ∧ fits level = true := by
  induction start with
  | zero => exact ⟨0, by rw [firstFit, if_pos smallest], le_refl 0, smallest⟩
  | succ start ih =>
      rw [firstFit]
      by_cases large : fits (start + 1) = true
      · rw [if_pos large]
        exact ⟨start + 1, rfl, le_refl _, large⟩
      · rw [if_neg large]
        obtain ⟨level, found, low, fitting⟩ := ih
        exact ⟨level, found, Nat.le_succ_of_le low, fitting⟩

theorem roomFor_iff {gpa hpa length level : Nat} :
    roomFor gpa hpa length level = true ↔ size level ∣ gpa ∧ size level ∣ hpa ∧ size level ≤ length := by
  simp only [roomFor, Bool.and_eq_true, beq_iff_eq, decide_eq_true_eq, Nat.dvd_iff_mod_eq_zero, and_assoc]

/-- Base pages are always supported. -/
theorem pageSizesMask_base (cap : Nat) : (pageSizesMask cap).testBit (shift 0) = true := by
  rw [pageSizesMask, Nat.testBit_or, Nat.testBit_or, shift, Nat.testBit_two_pow_self]
  rfl

theorem eptSpshift_spec {gpa hpa len : Nat} (whole : Whole 3 gpa hpa len) (some : 0 < len) :
    ∃ level, eptSpshift (pageSizesMask cap) gpa hpa len spok = .some level ∧ level ≤ 3 ∧
      size level ∣ gpa ∧ size level ∣ hpa ∧ size level ≤ len := by
  have base : ((pageSizesMask cap).testBit (shift 0) && roomFor gpa hpa len 0) = true := by
    rw [pageSizesMask_base, Bool.true_and, roomFor_iff]
    exact ⟨whole.guest, whole.host, Nat.le_of_dvd some whole.length⟩
  obtain ⟨level, found, low, fits⟩ :=
    @firstFit_spec (fun level => (pageSizesMask cap).testBit (shift level) && roomFor gpa hpa len level) base
      (if spok then 3 else 0)
  refine ⟨level, found, low.trans (by split <;> omega), ?_⟩
  exact (roomFor_iff).mp (Bool.and_eq_true_iff.mp fits).2

theorem eptPick_sound (cap : Nat) (spok : Bool) : Sound 3 (eptPick cap spok) := by
  intro gpa hpa len whole some
  obtain ⟨level, found, bounds⟩ := @eptSpshift_spec cap spok gpa hpa len whole some
  rw [eptPick, found]
  exact bounds

theorem Call.Valid.whole (valid : call.Valid) : Whole 3 call.gpa call.hpa call.len where
  guest := Nat.dvd_of_mod_eq_zero valid.gpa
  host := Nat.dvd_of_mod_eq_zero valid.hpa
  length := Nat.dvd_of_mod_eq_zero valid.len
  address := valid.address
  bound := valid.bound
  width := lt_of_le_of_lt valid.bound (by decide)

theorem Call.Valid.enough (valid : call.Valid) : call.len ≤ call.len / 4096 * 4096 := by
  have := valid.len
  omega

/-! ## Calls -/

/-- A call stores its pages. -/
theorem eptVmmmap_eq (valid : call.Valid) (ptp : Ept) : eptVmmmap cap ptp call = storeAll 3 (call.pages cap) ptp := by
  refine mapLoop_eq (eptPick_sound cap call.spok) valid.whole valid.enough ?_ ptp
  intro ptp gpa hpa len whole some
  obtain ⟨level, found, low, guest, -⟩ := @eptSpshift_spec cap call.spok gpa hpa len whole some
  rw [eptCreateMapping, eptPick, found]
  simp only [Option.getD_some]
  rw [if_neg (not_not.mpr (Nat.mod_eq_zero_of_dvd guest))]
  rfl

/-- Calls store the pages of all of them, in order. -/
theorem eptVmmmap_foldlM (valid : ∀ call ∈ calls, call.Valid) (ptp : Ept) :
    calls.foldlM (eptVmmmap cap) ptp = storeAll 3 (calls.flatMap (Call.pages cap)) ptp := by
  induction calls generalizing ptp with
  | nil => rfl
  | cons call calls ih =>
      rw [List.foldlM_cons, List.flatMap_cons, storeAll, List.foldlM_append, eptVmmmap_eq (valid call List.mem_cons_self)]
      exact Option.bind_congr fun next _ => ih (fun call member => valid call (List.mem_cons_of_mem _ member)) next

theorem Call.Valid.fits (valid : call.Valid) : ∀ page ∈ call.pages cap, page.Fits 3 :=
  pieces_fits (eptPick_sound cap call.spok) valid.whole valid.enough

theorem fits_flatMap (valid : ∀ call ∈ calls, call.Valid) : ∀ page ∈ calls.flatMap (Call.pages cap), page.Fits 3 := by
  intro page member
  obtain ⟨call, callMem, inside⟩ := List.mem_flatMap.mp member
  exact (valid call callMem).fits page inside

/-- The processor's view of a page. -/
def access (page : Page Leaf) (y : Nat) : Option (Nat × Prot) :=
  if page.leaf.prot = vmProtNone then none else some (page.leaf.hpa + y % size page.level, page.leaf.prot)

/-- The pages of a call say what the call says. -/
theorem Call.Valid.access_eq (valid : call.Valid) {page : Page Leaf} (member : page ∈ call.pages cap)
    (covers : page.Covers y) : access page y = call.translate y := by
  obtain ⟨host, leaf, address⟩ :=
    pieces_leaf (eptPick_sound cap call.spok) valid.whole valid.enough member covers
  rw [access, leaf, Call.translate, Call.leaf]
  simp only [address]

/-- After any number of calls, a guest address is translated as the last call that covers it
says. -/
theorem eptTranslate_eq (valid : ∀ call ∈ calls, call.Valid) {ptp : Ept}
    (stored : storeAll 3 (calls.flatMap (Call.pages cap)) blank = some ptp) (bound : y < 2 ^ 48) :
    eptTranslate ptp y = meaning calls y := by
  have ends : (latest (calls.flatMap (Call.pages cap)) y).bind (access · y) = meaning calls y := by
    refine latest_flatMap ?_ ?_
    · intro call member
      rw [decide_eq_true_iff]
      exact pieces_cover (eptPick_sound cap call.spok) (valid call member).whole (valid call member).enough
    · intro call member page inside covers
      exact (valid call member).access_eq inside covers
  rw [eptTranslate, if_neg (by omega), walk_storeAll (fits_flatMap valid) stored bound, ← ends]
  cases latest (calls.flatMap (Call.pages cap)) y with
  | none => rfl
  | some page => rfl

/-- A guest address is translated as the last call that covers it says, and no entry is taken
for a table that is none, exactly if no call has a page strictly inside a page of an earlier
one. -/
theorem nested_paging_iff (valid : ∀ call ∈ calls, call.Valid) :
    (∃ ptp, calls.foldlM (eptVmmmap cap) blank = some ptp ∧ ∀ y < 2 ^ 48, eptTranslate ptp y = meaning calls y) ↔
      (calls.flatMap (Call.pages cap)).Pairwise fun earlier later => ¬Within earlier later := by
  rw [eptVmmmap_foldlM valid, ← storeAll_isSome_iff (fits_flatMap valid), Option.isSome_iff_exists]
  constructor
  · rintro ⟨ptp, stored, -⟩
    exact ⟨ptp, stored⟩
  · rintro ⟨ptp, stored⟩
    exact ⟨ptp, stored, fun y bound => eptTranslate_eq valid stored bound⟩

/-- Two pages of a device next to each other. -/
theorem nested_paging_pages :
    ∃ ptp, [vmMapMmio 0 4096 8192, vmMapMmio 4096 4096 0].foldlM (eptVmmmap 0) blank = some ptp ∧
      ∀ y < 2 ^ 48, eptTranslate ptp y = meaning [vmMapMmio 0 4096 8192, vmMapMmio 4096 4096 0] y := by
  refine (nested_paging_iff ?_).mpr (by decide)
  intro call member
  simp only [List.mem_cons, List.not_mem_nil, or_false] at member
  obtain rfl | rfl := member
  · exact ⟨rfl, rfl, rfl, by decide, by decide⟩
  · exact ⟨rfl, rfl, rfl, by decide, by decide⟩

/-- A device's large page is unmapped, and a small page is mapped in its place: the unmapped
entry is taken for a table.  So is the entry of a large page that is still mapped. -/
theorem large_page_taken_for_table :
    [vmMapMmio 0 2097152 0, vmUnmapMmio 0 2097152, vmMapMmio 0 4096 0].foldlM (eptVmmmap (2 ^ 16)) blank = none ∧
      [vmMapMmio 0 2097152 0, vmUnmapMmio 4096 4096].foldlM (eptVmmmap (2 ^ 16)) blank = none := by
  refine ⟨?_, ?_⟩
  · rfl
  · rfl

end Dragonfly.Vmm.Paging
