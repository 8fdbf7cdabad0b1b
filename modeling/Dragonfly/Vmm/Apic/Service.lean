import Mathlib.Algebra.Order.Ring.Int
import Mathlib.Order.Lattice.Nat
import Dragonfly.Vmm.Apic.Model
import Mathlib.Data.Finset.Lattice.Fold
import Mathlib.Data.Finset.Range

/-!
# Interrupts in service

The interrupts in service are kept in a bitmap, on a stack and in the processor priority.
The three agree as long as an operation changes them together.
-/

namespace Dragonfly.Vmm.Apic

open Dragonfly.Lib.Words

variable {s : Vlapic}

/-- The bitmap and the stack agree. -/
structure InService (s : Vlapic) : Prop where
  bottom : s.isrvecStk 0 = 0
  range : ∀ i, 1 ≤ i → i ≤ s.isrvecStkTop → 32 ≤ s.isrvecStk i ∧ s.isrvecStk i < 256
  rising : ∀ i, 1 ≤ i → i < s.isrvecStkTop → prio (s.isrvecStk i) < prio (s.isrvecStk (i + 1))
  isr : ∀ v < 256, bit s.apic.isr v = true ↔ ∃ i, 1 ≤ i ∧ i ≤ s.isrvecStkTop ∧ s.isrvecStk i = v

/-- All three agree. -/
structure Sync (s : Vlapic) : Prop extends InService s where
  tpr : s.apic.tpr < 256
  ppr : s.apic.ppr = if prio (s.isrvecStk s.isrvecStkTop) ≤ prio s.apic.tpr then s.apic.tpr
    else s.isrvecStk s.isrvecStkTop &&& 0xf0

/-- The highest class of an interrupt in service, or zero. -/
def serviceClass (s : Vlapic) : Nat :=
  ((Finset.range 256).filter fun v => bit s.apic.isr v = true).sup prio

/-- The rule for the processor priority: the task priority, or the class in service with a
zero subclass if that is higher. -/
def processorPriority (tpr serviceClass : Nat) : Nat :=
  if serviceClass ≤ prio tpr then tpr else serviceClass * 16

/-- The consistency of a local APIC, as its self-checks describe it. -/
structure Consistent (s : Vlapic) : Prop where
  isr : ∀ v < 256, bit s.apic.isr v = true ↔ ∃ i, 1 ≤ i ∧ i ≤ s.isrvecStkTop ∧ s.isrvecStk i = v
  rising : ∀ i j, 1 ≤ i → i < j → j ≤ s.isrvecStkTop → prio (s.isrvecStk i) < prio (s.isrvecStk j)
  bottom : s.isrvecStk 0 = 0
  top : s.isrvecStkTop < isrvecStkSize
  ppr : s.apic.ppr = processorPriority s.apic.tpr (serviceClass s)

/-! ## The stack -/

theorem InService.rising_of_lt (service : InService s) {i j : Nat} (first : 1 ≤ i) (less : i < j)
    (last : j ≤ s.isrvecStkTop) : prio (s.isrvecStk i) < prio (s.isrvecStk j) := by
  induction j, less using Nat.le_induction with
  | base => exact service.rising i first last
  | succ j above ih => exact Nat.lt_trans (ih (by omega)) (service.rising j (by omega) (by omega))

theorem lt_of_prio_lt {v w : Nat} (less : prio v < prio w) : v < w := by
  unfold prio at less
  omega

/-- The classes start at two and go up. -/
theorem InService.class_ge (service : InService s) {i : Nat} (first : 1 ≤ i) (last : i ≤ s.isrvecStkTop) :
    i + 1 ≤ prio (s.isrvecStk i) := by
  induction i, first using Nat.le_induction with
  | base =>
      have low := (service.range 1 (le_refl 1) last).1
      unfold prio
      omega
  | succ i above ih =>
      have before := ih (by omega)
      have step := service.rising i above (by omega)
      omega

theorem InService.top_le (service : InService s) : s.isrvecStkTop ≤ 14 := by
  by_contra large
  have first : 1 ≤ s.isrvecStkTop := by omega
  have high := service.class_ge first (le_refl _)
  have bound := (service.range _ first (le_refl _)).2
  unfold prio at high
  omega

/-! ## The self-checks pass -/

theorem InService.checkPrio (service : InService s) {left i : Nat} {lastprio : Int} (first : 1 ≤ i)
    (sum : i + left = s.isrvecStkTop + 1)
    (less : 0 < left → lastprio < (prio (s.isrvecStk i) : Int)) :
    checkPrio s.isrvecStk left i lastprio = true := by
  induction left generalizing i lastprio with
  | zero => rfl
  | succ left ih =>
      have higher := less (Nat.succ_pos left)
      rw [Apic.checkPrio, if_neg (by omega)]
      apply ih (by omega) (by omega)
      intro more
      have step := service.rising i first (by omega)
      omega

/-- The scan over the vectors stands at `vector`, and the entries before `i` are below it. -/
theorem InService.checkIsr (service : InService s) {left vector i : Nat} (sum : vector + left = 256)
    (first : 1 ≤ i) (before : ∀ j, 1 ≤ j → j < i → s.isrvecStk j < vector)
    (after : ∀ j, i ≤ j → j ≤ s.isrvecStkTop → vector ≤ s.isrvecStk j) :
    checkIsr s.apic.isr s.isrvecStk s.isrvecStkTop left vector i = true := by
  induction left generalizing vector i with
  | zero => rfl
  | succ left ih =>
      have member := service.isr vector (by omega)
      rw [Apic.checkIsr]
      split
      · rename_i set
        obtain ⟨j, low, high, entry⟩ := member.mp set
        -- the entry of the vector is the next one
        have atLeast : i ≤ j := by
          by_contra early
          have below := before j low (by omega)
          omega
        obtain rfl : j = i := by
          by_contra other
          have lower := lt_of_prio_lt (service.rising_of_lt first (show i < j by omega) high)
          have above := after i (le_refl i) (by omega)
          omega
        rw [if_neg (by omega)]
        apply ih (by omega) (by omega)
        · intro k low' less
          by_cases same : k = j
          · rw [same]
            omega
          · have below := before k low' (by omega)
            omega
        · intro k low' high'
          have lower := lt_of_prio_lt (service.rising_of_lt first (show j < k by omega) high')
          omega
      · rename_i clear
        apply ih (by omega) first
        · intro k low less
          have below := before k low less
          omega
        · intro k low high
          have above := after k low high
          have other : s.isrvecStk k ≠ vector := fun entry =>
            clear (member.mpr ⟨k, by omega, high, entry⟩)
          omega

theorem InService.top_zero (service : InService s) :
    ¬(s.isrvecStkTop = 0 ∧ s.isrvecStk s.isrvecStkTop ≠ 0) := by
  rintro ⟨empty, nonzero⟩
  rw [empty] at nonzero
  exact nonzero service.bottom

/-- The priority is brought up to date if the bitmap and the stack agree. -/
theorem vlapicUpdatePpr_eq (service : InService s) :
    vlapicUpdatePpr s = .ok { s with
      apic.ppr := if prio (s.isrvecStk s.isrvecStkTop) ≤ prio s.apic.tpr then s.apic.tpr
        else s.isrvecStk s.isrvecStkTop &&& 0xf0 } := by
  have rising := service.checkPrio (le_refl 1) (Nat.add_comm 1 s.isrvecStkTop)
    (fun _ => by omega : 0 < s.isrvecStkTop → (-1 : Int) < (prio (s.isrvecStk 1) : Int))
  have synced := service.checkIsr (Nat.zero_add 256) (le_refl 1) (fun j low less => by omega)
    (fun j _ _ => Nat.zero_le _)
  rw [vlapicUpdatePpr, if_neg service.top_zero, if_neg (by rw [rising]; decide),
    if_neg (by rw [synced]; decide)]

/-- After that all three agree. -/
theorem InService.update (service : InService s) (small : s.apic.tpr < 256) :
    ∃ s', vlapicUpdatePpr s = .ok s' ∧ Sync s' ∧ s'.isrvecStkTop = s.isrvecStkTop ∧
      s'.apic.irr = s.apic.irr ∧ s'.divisor = s.divisor ∧ s'.vcpuid = s.vcpuid := by
  refine ⟨_, vlapicUpdatePpr_eq service, ?_, rfl, rfl, rfl, rfl⟩
  exact ⟨⟨service.bottom, service.range, service.rising, service.isr⟩, small, rfl⟩

/-! ## Consistency -/

theorem and_f0 : ∀ v < 256, v &&& 0xf0 = prio v * 16 := by
  decide +kernel

theorem prio_and_f0 {v : Nat} (small : v < 256) : prio (v &&& 0xf0) = prio v := by
  rw [and_f0 v small, prio, Nat.mul_div_cancel _ (by decide)]

theorem InService.top_small (service : InService s) : s.isrvecStk s.isrvecStkTop < 256 := by
  by_cases empty : s.isrvecStkTop = 0
  · rw [empty, service.bottom]
    decide
  · exact (service.range _ (by omega) (le_refl _)).2

/-- The top of the stack has the highest class. -/
theorem InService.serviceClass_eq (service : InService s) :
    serviceClass s = prio (s.isrvecStk s.isrvecStkTop) := by
  apply le_antisymm
  · apply Finset.sup_le
    intro v member
    rw [Finset.mem_filter, Finset.mem_range] at member
    obtain ⟨i, low, high, rfl⟩ := (service.isr v member.1).mp member.2
    obtain less | same := Nat.lt_or_eq_of_le high
    · exact (service.rising_of_lt low less (le_refl _)).le
    · rw [same]
  · by_cases empty : s.isrvecStkTop = 0
    · rw [empty, service.bottom]
      exact Nat.zero_le _
    · have small := service.top_small
      apply Finset.le_sup (f := prio)
      rw [Finset.mem_filter, Finset.mem_range]
      exact ⟨small, (service.isr _ small).mpr ⟨_, by omega, le_refl _, rfl⟩⟩

theorem Sync.consistent (sync : Sync s) : Consistent s where
  isr := sync.isr
  rising i j first less last := sync.rising_of_lt first less last
  bottom := sync.bottom
  top := Nat.lt_of_le_of_lt sync.top_le (by decide)
  ppr := by
    rw [sync.ppr, sync.serviceClass_eq, processorPriority, and_f0 _ sync.top_small]

/-- The class of the processor priority is the maximum of the two. -/
theorem Sync.prio_ppr (sync : Sync s) :
    prio s.apic.ppr = max (prio s.apic.tpr) (prio (s.isrvecStk s.isrvecStkTop)) := by
  rw [sync.ppr]
  split
  · omega
  · rw [prio_and_f0 sync.top_small]
    omega

/-! ## The operations -/

/-- Two states with the same interrupts in service, priorities and divisor. -/
structure Quiet (s s' : Vlapic) : Prop where
  isr : s'.apic.isr = s.apic.isr
  tpr : s'.apic.tpr = s.apic.tpr
  ppr : s'.apic.ppr = s.apic.ppr
  isrvecStk : s'.isrvecStk = s.isrvecStk
  isrvecStkTop : s'.isrvecStkTop = s.isrvecStkTop
  divisor : s'.divisor = s.divisor
  vcpuid : s'.vcpuid = s.vcpuid

theorem Quiet.refl (s : Vlapic) : Quiet s s := ⟨rfl, rfl, rfl, rfl, rfl, rfl, rfl⟩

theorem Quiet.trans {s s' s'' : Vlapic} (first : Quiet s s') (second : Quiet s' s'') :
    Quiet s s'' where
  isr := second.isr.trans first.isr
  tpr := second.tpr.trans first.tpr
  ppr := second.ppr.trans first.ppr
  isrvecStk := second.isrvecStk.trans first.isrvecStk
  isrvecStkTop := second.isrvecStkTop.trans first.isrvecStkTop
  divisor := second.divisor.trans first.divisor
  vcpuid := second.vcpuid.trans first.vcpuid

theorem Quiet.sync {s' : Vlapic} (same : Quiet s s') (sync : Sync s) : Sync s' where
  bottom := by
    rw [same.isrvecStk]
    exact sync.bottom
  range := by
    rw [same.isrvecStk, same.isrvecStkTop]
    exact sync.range
  rising := by
    rw [same.isrvecStk, same.isrvecStkTop]
    exact sync.rising
  isr := by
    rw [same.isr, same.isrvecStk, same.isrvecStkTop]
    exact sync.isr
  tpr := by
    rw [same.tpr]
    exact sync.tpr
  ppr := by
    rw [same.ppr, same.tpr, same.isrvecStk, same.isrvecStkTop]
    exact sync.ppr

/-- A write of the task priority. -/
theorem Sync.write_tpr (sync : Sync s) (data : Nat) :
    ∃ s', vlapicUpdatePpr { s with apic.tpr := data % 256 } = .ok s' ∧ Sync s' ∧
      s'.apic.irr = s.apic.irr ∧ s'.divisor = s.divisor ∧ s'.vcpuid = s.vcpuid := by
  have service : InService { s with apic.tpr := data % 256 } :=
    ⟨sync.bottom, sync.range, sync.rising, sync.isr⟩
  obtain ⟨s', updated, sync', -, others⟩ := service.update (Nat.mod_lt data (by decide))
  exact ⟨s', updated, sync', others⟩

/-- The highest bit is the top of the stack. -/
theorem InService.highest_isr (service : InService s) {v : Nat} (found : highest s.apic.isr 7 = some v) :
    1 ≤ s.isrvecStkTop ∧ v = s.isrvecStk s.isrvecStkTop := by
  obtain ⟨-, high, member, greatest⟩ := highest_eq_some found
  obtain ⟨i, first, last, entry⟩ := (service.isr v high).mp member
  obtain less | rfl := Nat.lt_or_eq_of_le last
  · -- an entry above would have a higher bit
    have above := lt_of_prio_lt (service.rising_of_lt first less (le_refl _))
    have small := service.top_small
    have bit := (service.isr _ small).mpr ⟨s.isrvecStkTop, by omega, le_refl _, rfl⟩
    rw [greatest _ (by omega) small] at bit
    cases bit
  · exact ⟨first, entry.symm⟩

/-- The end of the interrupt with the highest priority. -/
theorem Sync.eoi (sync : Sync s) : ∃ s', vlapicProcessEoi s = .ok s' ∧ Sync s' ∧
    s'.apic.irr = s.apic.irr ∧ s'.divisor = s.divisor ∧ s'.vcpuid = s.vcpuid := by
  rw [vlapicProcessEoi]
  cases found : highest s.apic.isr 7 with
  | none => exact ⟨s, rfl, sync, rfl, rfl, rfl⟩
  | some v =>
      obtain ⟨some, rfl⟩ := sync.highest_isr found
      have service : InService { s with
          apic.isr := clearBit s.apic.isr (s.isrvecStk s.isrvecStkTop)
          isrvecStkTop := s.isrvecStkTop - 1 } := by
        refine ⟨sync.bottom, fun i first last => ?_, fun i first last => ?_, fun v small => ?_⟩
        · exact sync.range i first (show i ≤ s.isrvecStkTop from Nat.le_trans last (Nat.sub_le ..))
        · exact sync.rising i first (show i < s.isrvecStkTop from Nat.lt_of_lt_of_le last (Nat.sub_le ..))
        · rw [bit_clearBit, Bool.and_eq_true, sync.isr v small]
          constructor
          · rintro ⟨⟨i, first, last, rfl⟩, other⟩
            refine ⟨i, first, ?_, rfl⟩
            have below : i ≠ s.isrvecStkTop := by
              rintro rfl
              simp at other
            show i ≤ s.isrvecStkTop - 1
            omega
          · rintro ⟨i, first, last, rfl⟩
            have below : i < s.isrvecStkTop := Nat.lt_of_le_of_lt last (Nat.sub_one_lt (by omega))
            have lower := lt_of_prio_lt (sync.rising_of_lt first below (le_refl _))
            refine ⟨⟨i, first, below.le, rfl⟩, ?_⟩
            rw [decide_eq_false (Nat.ne_of_lt lower)]
            rfl
      obtain ⟨s', updated, sync', -, others⟩ := service.update sync.tpr
      refine ⟨s', ?_, sync', others⟩
      simp only
      rw [if_neg (by omega)]
      exact updated

/-- A vector of a class above the processor priority is accepted. -/
theorem Sync.accept (sync : Sync s) {v : Nat} (low : 32 ≤ v) (small : v < 256)
    (higher : prio s.apic.ppr < prio v) : ∃ s', vlapicIntrAccepted s v = .ok s' ∧ Sync s' ∧
      s'.apic.irr = clearBit s.apic.irr v ∧ s'.divisor = s.divisor ∧ s'.vcpuid = s.vcpuid := by
  have top := sync.top_le
  have above : prio (s.isrvecStk s.isrvecStkTop) < prio v := by
    rw [sync.prio_ppr] at higher
    omega
  have below : ∀ i ≤ s.isrvecStkTop,
      Function.update s.isrvecStk (s.isrvecStkTop + 1) (v % 256) i = s.isrvecStk i := by
    intro i last
    exact Function.update_of_ne (by omega) ..
  have here : Function.update s.isrvecStk (s.isrvecStkTop + 1) (v % 256) (s.isrvecStkTop + 1) = v := by
    rw [Function.update_self, Nat.mod_eq_of_lt small]
  have service : InService { s with
      apic.irr := clearBit s.apic.irr v
      apic.isr := setBit s.apic.isr v
      isrvecStkTop := s.isrvecStkTop + 1
      isrvecStk := Function.update s.isrvecStk (s.isrvecStkTop + 1) (v % 256) } := by
    constructor
    · exact (below 0 (Nat.zero_le _)).trans sync.bottom
    · intro i first last
      obtain less | rfl := Nat.lt_or_eq_of_le last
      · simp only [below i (Nat.le_of_lt_succ less)]
        exact sync.range i first (Nat.le_of_lt_succ less)
      · simp only [here]
        exact ⟨low, small⟩
    · intro i first last
      have inside : i ≤ s.isrvecStkTop := Nat.le_of_lt_succ last
      simp only [below i inside]
      obtain less | rfl := Nat.lt_or_eq_of_le inside
      · simp only [below (i + 1) less]
        exact sync.rising i first less
      · simp only [here]
        exact above
    · intro w smaller
      rw [bit_setBit, Bool.or_eq_true, sync.isr w smaller, decide_eq_true_iff]
      constructor
      · rintro (⟨i, first, last, entry⟩ | rfl)
        · exact ⟨i, first, Nat.le_succ_of_le last, (below i last).trans entry⟩
        · exact ⟨s.isrvecStkTop + 1, Nat.succ_pos _, le_refl _, here⟩
      · rintro ⟨i, first, last, entry⟩
        obtain less | rfl := Nat.lt_or_eq_of_le last
        · have inside : i ≤ s.isrvecStkTop := Nat.le_of_lt_succ less
          exact .inl ⟨i, first, inside, (below i inside).symm.trans entry⟩
        · exact .inr (entry.symm.trans here)
  obtain ⟨s', updated, sync', -, others⟩ := service.update sync.tpr
  refine ⟨s', ?_, sync', others⟩
  rw [vlapicIntrAccepted, if_neg (by unfold isrvecStkSize; omega)]
  exact updated

/-- What is offered is above the processor priority. -/
theorem vlapicPendingIntr_eq_some_iff {v : Nat} : vlapicPendingIntr s = some v ↔
    32 ≤ v ∧ v < 256 ∧ bit s.apic.irr v = true ∧
      (∀ w, v < w → w < 256 → bit s.apic.irr w = false) ∧ prio s.apic.ppr < prio v := by
  have scan := @highest_eq_some_iff s.apic.irr v 7
  rw [vlapicPendingIntr]
  cases found : highest s.apic.irr 7 with
  | none =>
      rw [found] at scan
      refine iff_of_false (by simp) fun ⟨low, small, member, greatest, _⟩ => ?_
      cases scan.mpr ⟨low, small, member, greatest⟩
  | some w =>
      rw [found] at scan
      simp only
      split
      · rename_i higher
        rw [scan]
        constructor
        · rintro ⟨low, small, member, greatest⟩
          obtain rfl : w = v := Option.some.inj (scan.mpr ⟨low, small, member, greatest⟩)
          exact ⟨low, small, member, greatest, higher⟩
        · rintro ⟨low, small, member, greatest, -⟩
          exact ⟨low, small, member, greatest⟩
      · rename_i lower
        refine iff_of_false (by simp) fun ⟨low, small, member, greatest, higher⟩ => ?_
        obtain rfl : w = v := Option.some.inj (scan.mpr ⟨low, small, member, greatest⟩)
        exact lower higher

@[simp]
theorem vlapicOpReset_isrvecStk (s : Vlapic) : (vlapicOpReset s).isrvecStk = s.isrvecStk := by
  simp only [vlapicOpReset]

@[simp]
theorem vlapicOpReset_isrvecStkTop (s : Vlapic) :
    (vlapicOpReset s).isrvecStkTop = s.isrvecStkTop := by
  simp only [vlapicOpReset]

@[simp]
theorem vlapicOpReset_divisor (s : Vlapic) : (vlapicOpReset s).divisor = s.divisor := by
  simp only [vlapicOpReset]

@[simp]
theorem vlapicOpReset_vcpuid (s : Vlapic) : (vlapicOpReset s).vcpuid = s.vcpuid := by
  simp only [vlapicOpReset]

@[simp]
theorem vlapicOpReset_isr (s : Vlapic) : (vlapicOpReset s).apic.isr = fun _ => 0 := rfl

/-- A reset clears the registers and leaves the stack alone. -/
theorem Sync.reset (sync : Sync s) (empty : s.isrvecStkTop = 0) : Sync (vlapicOpReset s) where
  bottom := by
    rw [vlapicOpReset_isrvecStk]
    exact sync.bottom
  range i first last := by
    rw [vlapicOpReset_isrvecStkTop] at last
    omega
  rising i first last := by
    rw [vlapicOpReset_isrvecStkTop] at last
    omega
  isr v _ := by
    rw [vlapicOpReset_isr, vlapicOpReset_isrvecStkTop, bit_zero]
    refine iff_of_false (by simp) ?_
    rintro ⟨i, first, last, -⟩
    omega
  tpr := by
    rw [show (vlapicOpReset s).apic.tpr = 0 from rfl]
    decide
  ppr := by
    rw [vlapicOpReset_isrvecStk, vlapicOpReset_isrvecStkTop, empty, sync.bottom,
      show (vlapicOpReset s).apic.tpr = 0 from rfl, show (vlapicOpReset s).apic.ppr = 0 from rfl,
      if_pos (le_refl _)]

/-- If an interrupt is in service, the three do not agree after a reset. -/
theorem Sync.reset_inconsistent (sync : Sync s) (some : s.isrvecStkTop ≠ 0) :
    ¬Consistent (vlapicOpReset s) := by
  intro consistent
  obtain ⟨-, small⟩ := sync.range s.isrvecStkTop (by omega) (le_refl _)
  have bit := consistent.isr _ small
  rw [vlapicOpReset_isr, vlapicOpReset_isrvecStk, vlapicOpReset_isrvecStkTop, bit_zero] at bit
  cases bit.mpr ⟨s.isrvecStkTop, by omega, le_refl _, rfl⟩

theorem sync_init (vcpuid : Nat) : Sync (vlapicInit vcpuid) := by
  have empty : InService { vcpuid := vcpuid } := by
    constructor
    · rfl
    · intro i first last
      have none : i ≤ 0 := last
      omega
    · intro i first last
      have none : i < 0 := last
      omega
    · intro v _
      rw [bit_zero]
      refine iff_of_false (by simp) ?_
      rintro ⟨i, first, last, -⟩
      have none : i ≤ 0 := last
      omega
  have sync : Sync { vcpuid := vcpuid } := by
    refine ⟨empty, Nat.succ_pos 255, ?_⟩
    simp only [le_refl, if_true]
  exact sync.reset rfl

end Dragonfly.Vmm.Apic
