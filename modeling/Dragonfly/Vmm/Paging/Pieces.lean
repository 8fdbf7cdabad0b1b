import Dragonfly.Vmm.Mem.Steal
import Dragonfly.Vmm.Paging.Model

/-!
# A range in pages

The pages that the loop of a mapping makes: they cover the range, no two of them have an
address in common, and each of them translates its addresses as the range does.
-/

namespace Dragonfly.Vmm.Paging

open Dragonfly.Lib Dragonfly.Lib.PageTable
open Dragonfly.Vmm.Mem (add64 sub64 add64_of_lt sub64_of_le)

variable {α : Type}

/-- The choice of a page size: the level, for the two addresses and what is left. -/
abbrev Pick := Nat → Nat → Nat → Nat

/-- The pages of a range, with what is stored for a host address and a level. -/
def pieces (pick : Pick) (leaf : Nat → Nat → α) : Nat → Nat → Nat → Nat → List (Page α)
  | 0, _, _, _ => []
  | fuel + 1, gpa, hpa, len =>
      if len = 0 then []
      else
        ⟨gpa, pick gpa hpa len, leaf hpa (pick gpa hpa len)⟩ ::
          pieces pick leaf fuel (gpa + size (pick gpa hpa len)) (add64 hpa (size (pick gpa hpa len)))
            (len - size (pick gpa hpa len))

/-- Whole base pages, and the guest addresses are those of a tree. -/
structure Whole (top gpa hpa len : Nat) : Prop where
  guest : size 0 ∣ gpa
  host : size 0 ∣ hpa
  length : size 0 ∣ len
  address : hpa < 2 ^ 64
  bound : gpa + len ≤ size (top + 1)
  width : gpa + len < 2 ^ 64

/-- The size that is chosen is one that the range has room for. -/
def Sound (top : Nat) (pick : Pick) : Prop :=
  ∀ gpa hpa len, Whole top gpa hpa len → 0 < len →
    pick gpa hpa len ≤ top ∧ size (pick gpa hpa len) ∣ gpa ∧ size (pick gpa hpa len) ∣ hpa ∧
      size (pick gpa hpa len) ≤ len

variable {pick : Pick} {leaf : Nat → Nat → α} {top gpa hpa len fuel y : Nat}

theorem size_zero : size 0 = 4096 := rfl

theorem size_zero_dvd_two_pow : size 0 ∣ 2 ^ 64 := Nat.pow_dvd_pow 2 (by decide)

/-- What is left after a page. -/
theorem Whole.rest (whole : Whole top gpa hpa len) {level : Nat} (fits : size level ≤ len) :
    Whole top (gpa + size level) (add64 hpa (size level)) (len - size level) := by
  have page := size_dvd_size (Nat.zero_le level)
  have bound := whole.bound
  have width := whole.width
  constructor
  · exact Nat.dvd_add whole.guest page
  · exact (Nat.dvd_mod_iff size_zero_dvd_two_pow).mpr (Nat.dvd_add whole.host page)
  · exact Nat.dvd_sub whole.length page
  · exact Nat.mod_lt _ (Nat.two_pow_pos 64)
  · omega
  · omega

theorem fuel_rest (enough : len ≤ (fuel + 1) * 4096) (level : Nat) : len - size level ≤ fuel * 4096 := by
  have := size_le_size (Nat.zero_le level)
  rw [size_zero] at this
  omega

theorem size_dvd_two_pow {level : Nat} (le : size level ≤ 2 ^ 64) : size level ∣ 2 ^ 64 :=
  Nat.pow_dvd_pow 2 ((Nat.pow_le_pow_iff_right (by decide)).mp le)

theorem mod_of_dvd {unit base : Nat} (aligned : unit ∣ base) (above : base ≤ y) (below : y < base + unit) :
    y % unit = y - base := by
  obtain ⟨number, rfl⟩ := aligned
  rw [← Nat.sub_mul_mod above, Nat.mod_eq_of_lt (by omega)]

theorem le_of_dvd_of_lt {unit base limit : Nat} (one : unit ∣ base) (two : unit ∣ limit) (less : base < limit) :
    base + unit ≤ limit := by
  obtain ⟨i, rfl⟩ := one
  obtain ⟨j, rfl⟩ := two
  have := Nat.mul_le_mul_left unit (Nat.lt_of_mul_lt_mul_left less)
  rwa [Nat.succ_eq_add_one, Nat.mul_add, Nat.mul_one] at this

section

variable (sound : Sound top pick) (whole : Whole top gpa hpa len) (enough : len ≤ fuel * 4096)

include sound whole enough

/-- The pages are pages of the tree. -/
theorem pieces_fits : ∀ page ∈ pieces pick leaf fuel gpa hpa len, page.Fits top := by
  induction fuel generalizing gpa hpa len with
  | zero => nofun
  | succ fuel ih =>
      rw [pieces]
      split
      · nofun
      · rename_i some
        obtain ⟨low, alignedG, alignedH, fits⟩ := sound gpa hpa len whole (Nat.pos_of_ne_zero some)
        intro page member
        obtain rfl | later := List.mem_cons.mp member
        · refine ⟨low, alignedG, ?_⟩
          have := whole.bound
          show gpa < size (top + 1)
          omega
        · exact ih (whole.rest fits) (fuel_rest enough _) page later

/-- The pages cover the range. -/
theorem pieces_cover :
    (∃ page ∈ pieces pick leaf fuel gpa hpa len, page.Covers y) ↔ gpa ≤ y ∧ y < gpa + len := by
  induction fuel generalizing gpa hpa len with
  | zero =>
      simp only [pieces, List.not_mem_nil, false_and, exists_false, false_iff]
      omega
  | succ fuel ih =>
      rw [pieces]
      split
      · simp only [List.not_mem_nil, false_and, exists_false, false_iff]
        omega
      · rename_i some
        obtain ⟨low, alignedG, alignedH, fits⟩ := sound gpa hpa len whole (Nat.pos_of_ne_zero some)
        rw [List.exists_mem_cons_iff, ih (whole.rest fits) (fuel_rest enough _), Page.Covers]
        show (gpa ≤ y ∧ y < gpa + size (pick gpa hpa len)) ∨ _ ↔ _
        omega

/-- A page translates its addresses as the range does. -/
theorem pieces_leaf {page : Page α} (member : page ∈ pieces pick leaf fuel gpa hpa len) (covers : page.Covers y) :
    ∃ host, page.leaf = leaf host page.level ∧ host + y % size page.level = add64 hpa (y - gpa) := by
  induction fuel generalizing gpa hpa len with
  | zero => cases member
  | succ fuel ih =>
      rw [pieces] at member
      split at member
      · cases member
      · rename_i some
        obtain ⟨low, alignedG, alignedH, fits⟩ := sound gpa hpa len whole (Nat.pos_of_ne_zero some)
        obtain rfl | later := List.mem_cons.mp member
        · refine ⟨hpa, rfl, ?_⟩
          have positive := size_pos (pick gpa hpa len)
          have above : gpa ≤ y := covers.1
          have below : y < gpa + size (pick gpa hpa len) := covers.2
          show hpa + y % size (pick gpa hpa len) = add64 hpa (y - gpa)
          have offset : y % size (pick gpa hpa len) = y - gpa := mod_of_dvd alignedG above below
          rw [offset, add64, Nat.mod_eq_of_lt]
          have room := le_of_dvd_of_lt alignedH (size_dvd_two_pow (fits.trans (by have := whole.width; omega))) whole.address
          omega
        · obtain ⟨host, same, address⟩ := ih (whole.rest fits) (fuel_rest enough _) later
          refine ⟨host, same, ?_⟩
          have beyond := (pieces_cover sound (whole.rest fits) (fuel_rest enough _)).mp ⟨page, later, covers⟩
          rw [address]
          unfold add64
          omega

/-- No two pages have an address in common. -/
theorem pieces_apart :
    (pieces pick leaf fuel gpa hpa len).Pairwise fun first second => ∀ y, first.Covers y → ¬second.Covers y := by
  induction fuel generalizing gpa hpa len with
  | zero => exact List.Pairwise.nil
  | succ fuel ih =>
      rw [pieces]
      split
      · exact List.Pairwise.nil
      · rename_i some
        obtain ⟨low, alignedG, alignedH, fits⟩ := sound gpa hpa len whole (Nat.pos_of_ne_zero some)
        refine List.pairwise_cons.mpr ⟨?_, ih (whole.rest fits) (fuel_rest enough _)⟩
        intro other later y mine theirs
        have beyond := (pieces_cover sound (whole.rest fits) (fuel_rest enough _)).mp ⟨other, later, theirs⟩
        have below : y < gpa + size (pick gpa hpa len) := mine.2
        omega

/-- The loop stores the pages one after the other. -/
theorem mapLoop_eq {create : (Nat → Entry α) → Nat → Nat → Nat → Option ((Nat → Entry α) × Nat)}
    (made : ∀ ptp gpa hpa len, Whole top gpa hpa len → 0 < len →
      create ptp gpa hpa len = (store gpa (pick gpa hpa len) (leaf hpa (pick gpa hpa len)) top ptp).map
        fun ptp => (ptp, size (pick gpa hpa len)))
    (ptp : Nat → Entry α) :
    mapLoop create fuel ptp gpa hpa len = storeAll top (pieces pick leaf fuel gpa hpa len) ptp := by
  induction fuel generalizing gpa hpa len ptp with
  | zero =>
      rw [mapLoop, if_pos (by omega)]
      rfl
  | succ fuel ih =>
      rw [mapLoop, pieces]
      split
      · rfl
      · rename_i some
        obtain ⟨low, alignedG, alignedH, fits⟩ := sound gpa hpa len whole (Nat.pos_of_ne_zero some)
        have width := whole.width
        rw [made ptp gpa hpa len whole (Nat.pos_of_ne_zero some), Option.bind_map, storeAll, List.foldlM_cons]
        refine Option.bind_congr fun next _ => ?_
        have guest : add64 gpa (size (pick gpa hpa len)) = gpa + size (pick gpa hpa len) :=
          add64_of_lt (by omega)
        have left : sub64 len (size (pick gpa hpa len)) = len - size (pick gpa hpa len) :=
          sub64_of_le fits (by omega)
        simp only [Function.comp_apply, guest, left]
        exact ih (whole.rest fits) (fuel_rest enough _) next

end

end Dragonfly.Vmm.Paging
