import Mathlib.Data.List.Perm.Basic
import Mathlib.Data.List.Nodup
import Mathlib.Data.BitVec
import Dragonfly.Kern.Sem.Model

/-!
# Undo structures

The entries of a structure stand for one adjustment for each semaphore, and their order means
nothing.  Every process has at most one structure, and an adjustment that was made can be taken
back.
-/

namespace Dragonfly.Kern.Sem

variable {ent ent' rest : List Undo} {u : Undo} {id semid semnum semume i : Nat} {num adjval : BitVec 16}

/-! ## Entries -/

/-- The entry is for the semaphore with this number. -/
def Undo.Names (u : Undo) (id : Nat) (num : BitVec 16) : Prop := u.id = id ∧ u.num = num

instance (u : Undo) (id : Nat) (num : BitVec 16) : Decidable (u.Names id num) := inferInstanceAs (Decidable (_ ∧ _))

/-- The adjustment for a semaphore. -/
def total (id : Nat) (num : BitVec 16) : List Undo → BitVec 16
  | [] => 0
  | u :: rest => (if u.Names id num then u.adjval else 0) + total id num rest

/-- No two entries are for one semaphore, and none of them is zero. -/
structure EntOk (ent : List Undo) : Prop where
  distinct : ent.Pairwise fun a b => ¬(a.id = b.id ∧ a.num = b.num)
  nonzero : ∀ u ∈ ent, u.adjval ≠ 0

theorem EntOk.nil : EntOk [] := ⟨List.Pairwise.nil, nofun⟩

theorem entOk_cons : EntOk (u :: rest) ↔ (∀ v ∈ rest, ¬v.Names u.id u.num) ∧ u.adjval ≠ 0 ∧ EntOk rest := by
  constructor
  · rintro ⟨distinct, nonzero⟩
    obtain ⟨first, others⟩ := List.pairwise_cons.mp distinct
    exact ⟨fun v member names => first v member ⟨names.1.symm, names.2.symm⟩, nonzero u List.mem_cons_self,
      others, fun v member => nonzero v (List.mem_cons_of_mem _ member)⟩
  · rintro ⟨first, nonzero, others⟩
    refine ⟨List.pairwise_cons.mpr ⟨fun v member same => first v member ⟨same.1.symm, same.2.symm⟩, others.distinct⟩, ?_⟩
    exact List.forall_mem_cons.mpr ⟨nonzero, others.nonzero⟩

theorem EntOk.perm (ok : EntOk ent) (perm : ent.Perm ent') : EntOk ent' := by
  refine ⟨(perm.pairwise_iff ?_).mp ok.distinct, fun u member => ok.nonzero u (perm.mem_iff.mpr member)⟩
  rintro a b different ⟨sameId, sameNum⟩
  exact different ⟨sameId.symm, sameNum.symm⟩

theorem EntOk.nodup (ok : EntOk ent) : ent.Nodup :=
  ok.distinct.imp fun different same => different ⟨congrArg Undo.id same, congrArg Undo.num same⟩

theorem total_perm (perm : ent.Perm ent') : total id num ent = total id num ent' := by
  induction perm with
  | nil => rfl
  | cons u _ ih => rw [total, total, ih]
  | swap u v rest => rw [total, total, total, total, add_left_comm]
  | trans _ _ first second => exact first.trans second

/-- The adjustment is zero if there is no entry. -/
theorem total_eq_zero (none : ∀ u ∈ ent, ¬u.Names id num) : total id num ent = 0 := by
  induction ent with
  | nil => rfl
  | cons u rest ih =>
      rw [total, if_neg (none u List.mem_cons_self), ih fun v member => none v (List.mem_cons_of_mem _ member)]
      exact add_zero 0

/-- An entry is the adjustment for its semaphore. -/
theorem EntOk.total_eq (ok : EntOk ent) (member : u ∈ ent) (names : u.Names id num) : total id num ent = u.adjval := by
  induction ent with
  | nil => cases member
  | cons first rest ih =>
      obtain ⟨apart, -, restOk⟩ := (entOk_cons).mp ok
      rw [total]
      obtain rfl | later := List.mem_cons.mp member
      · rw [if_pos names, total_eq_zero, add_zero]
        intro v vMem vNames
        exact apart v vMem ⟨vNames.1.trans names.1.symm, vNames.2.trans names.2.symm⟩
      · have other : ¬first.Names id num :=
          fun both => apart u later ⟨names.1.trans both.1.symm, names.2.trans both.2.symm⟩
        rw [if_neg other, ih restOk later, zero_add]

/-- The entries are the adjustments that are not zero. -/
theorem EntOk.mem_iff (ok : EntOk ent) : u ∈ ent ↔ u.adjval ≠ 0 ∧ total u.id u.num ent = u.adjval := by
  constructor
  · intro member
    exact ⟨ok.nonzero u member, ok.total_eq member ⟨rfl, rfl⟩⟩
  · rintro ⟨nonzero, same⟩
    by_contra missing
    have found : ∃ v ∈ ent, v.Names u.id u.num := by
      by_contra none
      rw [total_eq_zero fun v member names => none ⟨v, member, names⟩] at same
      exact nonzero same.symm
    obtain ⟨v, member, names⟩ := found
    rw [ok.total_eq member names] at same
    have equal : v = u := Undo.ext same names.2 names.1
    exact missing (equal ▸ member)

/-- The adjustments determine the entries up to their order. -/
theorem EntOk.perm_of_total (ok : EntOk ent) (ok' : EntOk ent') (same : ∀ id num, total id num ent = total id num ent') :
    ent.Perm ent' := by
  rw [List.perm_ext_iff_of_nodup ok.nodup ok'.nodup]
  intro u
  rw [ok.mem_iff, ok'.mem_iff, same]

/-- An entry is gone when an adjustment has become zero. -/
theorem EntOk.length_of_total (ok : EntOk ent) (ok' : EntOk ent') (nonzero : adjval ≠ 0)
    (same : ∀ id' num', total id' num' ent = total id' num' ent' + if id' = id ∧ num' = num then adjval else 0)
    (gone : total id num ent = 0) : ent.length + 1 = ent'.length := by
  have before := same id num
  rw [if_pos ⟨rfl, rfl⟩, gone] at before
  have value : total id num ent' = -adjval := eq_neg_of_add_eq_zero_left before.symm
  let u : Undo := { adjval := -adjval, num := num, id := id }
  have missing : u ∉ ent := by
    rw [ok.mem_iff]
    rintro ⟨other, equal⟩
    exact other (equal.symm.trans gone)
  have perm : (u :: ent).Perm ent' := by
    rw [List.perm_ext_iff_of_nodup (List.nodup_cons.mpr ⟨missing, ok.nodup⟩) ok'.nodup]
    intro v
    rw [List.mem_cons, ok.mem_iff, ok'.mem_iff]
    by_cases names : v.id = id ∧ v.num = num
    · rw [names.1, names.2, gone, value]
      constructor
      · rintro (rfl | ⟨some, zero⟩)
        · exact ⟨neg_ne_zero.mpr nonzero, rfl⟩
        · exact absurd zero.symm some
      · rintro ⟨-, equal⟩
        exact .inl (Undo.ext equal.symm names.2 names.1)
    · rw [same, if_neg names, add_zero]
      constructor
      · rintro (rfl | both)
        · exact absurd ⟨rfl, rfl⟩ names
        · exact both
      · exact .inr
  rw [← perm.length_eq, List.length_cons]

/-- What is in front of the entry that goes stays where it is. -/
theorem swapRemove_split (front back : List Undo) (u : Undo) :
    ∃ back', swapRemove (front ++ u :: back) front.length = front ++ back' ∧ back'.Perm back := by
  rw [swapRemove]
  cases back using List.reverseRecOn with
  | nil => exact ⟨[], by simp, List.Perm.nil⟩
  | append_singleton back last =>
      have ends : (front ++ u :: (back ++ [last])).getLast? = some last := by
        rw [← List.cons_append, ← List.append_assoc]
        exact List.getLast?_concat
      refine ⟨last :: back, ?_, (List.perm_append_singleton last back).symm⟩
      simp only [ends, List.set_append_right _ _ (le_refl front.length), Nat.sub_self, List.set_cons_zero]
      rw [← List.cons_append, ← List.append_assoc, List.dropLast_concat]

theorem swapRemove_perm (front back : List Undo) (u : Undo) :
    (swapRemove (front ++ u :: back) front.length).Perm (front ++ back) := by
  obtain ⟨back', same, perm⟩ := swapRemove_split front back u
  rw [same]
  exact perm.append_left front

theorem getElem?_split (here : ent[i]? = some u) : ∃ front back, ent = front ++ u :: back ∧ i = front.length := by
  obtain ⟨bound, rfl⟩ := List.getElem?_eq_some_iff.mp here
  refine ⟨ent.take i, ent.drop (i + 1), ?_, ?_⟩
  · rw [← List.drop_eq_getElem_cons bound, List.take_append_drop]
  · rw [List.length_take, Nat.min_eq_left (Nat.le_of_lt bound)]

/-- An entry that is found, with those around it. -/
theorem findIdx?_split {p : Undo → Bool} (found : ent.findIdx? p = some i) :
    ∃ front u back, ent = front ++ u :: back ∧ i = front.length ∧ p u = true := by
  obtain ⟨bound, holds, -⟩ := List.findIdx?_eq_some_iff_getElem.mp found
  obtain ⟨front, back, parts, length⟩ := getElem?_split (List.getElem?_eq_getElem bound)
  exact ⟨front, _, back, parts, length, holds⟩

theorem toInt_eq_natCast_iff (small : semnum < 2 ^ 15) : num.toInt = semnum ↔ num = BitVec.ofNat 16 semnum := by
  have value : (BitVec.ofNat 16 semnum).toInt = semnum := by
    rw [BitVec.toInt_ofNat', Int.bmod_def]
    omega
  rw [← value]
  exact BitVec.toInt_inj

theorem isFor_iff (small : semnum < 2 ^ 15) : u.isFor semid semnum = true ↔ u.Names semid (BitVec.ofNat 16 semnum) := by
  rw [Undo.isFor, decide_eq_true_iff, toInt_eq_natCast_iff small]
  rfl

/-- What an adjustment does to the entries: it is added, or there is no room for it. -/
theorem adjustEnt_spec (ok : EntOk ent) (small : semnum < 2 ^ 15) (nonzero : adjval ≠ 0) (fits : ent.length ≤ semume) :
    (adjustEnt semume semid semnum adjval ent = none ∧ total semid (BitVec.ofNat 16 semnum) ent = 0 ∧ ent.length = semume) ∨
      ∃ ent', adjustEnt semume semid semnum adjval ent = some ent' ∧ EntOk ent' ∧ ent'.length ≤ semume ∧
        (∀ id num, total id num ent' =
          total id num ent + if id = semid ∧ num = BitVec.ofNat 16 semnum then adjval else 0) ∧
        ∀ v ∈ ent', v.Names semid (BitVec.ofNat 16 semnum) ∨ v ∈ ent := by
  rw [adjustEnt]
  cases found : ent.findIdx? (·.isFor semid semnum) with
  | none =>
      have missing : ∀ u ∈ ent, ¬u.Names semid (BitVec.ofNat 16 semnum) := by
        intro u member names
        have no := List.findIdx?_eq_none_iff.mp found u member
        rw [(isFor_iff small).mpr names] at no
        cases no
      simp only [if_neg nonzero]
      by_cases full : ent.length = semume
      · rw [if_neg (not_not.mpr full)]
        exact .inl ⟨rfl, total_eq_zero missing, full⟩
      · rw [if_pos full]
        have perm := List.perm_append_singleton ({ adjval := adjval, num := BitVec.ofNat 16 semnum, id := semid } : Undo) ent
        refine .inr ⟨_, rfl, ?_, ?_, ?_, ?_⟩
        · exact EntOk.perm ((entOk_cons).mpr ⟨missing, nonzero, ok⟩) perm.symm
        · rw [List.length_append, List.length_singleton]
          omega
        · intro id num
          rw [total_perm perm, total, add_comm]
          simp only [Undo.Names, eq_comm]
        · intro v member
          obtain rfl | old := List.mem_cons.mp (perm.mem_iff.mp member)
          · exact .inl ⟨rfl, rfl⟩
          · exact .inr old
  | some i =>
      obtain ⟨front, u, back, rfl, rfl, holds⟩ := findIdx?_split found
      have names := (isFor_iff small).mp holds
      have perm : (front ++ u :: back).Perm (u :: (front ++ back)) := List.perm_middle
      obtain ⟨apart, -, others⟩ := (entOk_cons).mp (ok.perm perm)
      have here : (front ++ u :: back)[front.length]? = some u := by simp
      have length : (front ++ back).length + 1 = (front ++ u :: back).length := by
        rw [perm.length_eq, List.length_cons]
      simp only [here, if_neg nonzero]
      refine .inr ?_
      by_cases gone : u.adjval + adjval = 0
      · rw [if_pos gone]
        have removed := swapRemove_perm front back u
        refine ⟨_, rfl, others.perm removed.symm, ?_, ?_, ?_⟩
        · rw [removed.length_eq]
          omega
        · intro id num
          rw [total_perm removed, total_perm perm, total]
          by_cases mine : id = semid ∧ num = BitVec.ofNat 16 semnum
          · rw [if_pos mine, if_pos ⟨names.1.trans mine.1.symm, names.2.trans mine.2.symm⟩, add_right_comm, gone, zero_add]
          · rw [if_neg mine, if_neg fun both => mine ⟨both.1.symm.trans names.1, both.2.symm.trans names.2⟩, zero_add, add_zero]
        · intro v member
          exact .inr (perm.mem_iff.mpr (List.mem_cons_of_mem _ (removed.mem_iff.mp member)))
      · rw [if_neg gone, List.set_append_right _ _ (le_refl front.length), Nat.sub_self, List.set_cons_zero]
        have changed : (front ++ { u with adjval := u.adjval + adjval } :: back).Perm
            ({ u with adjval := u.adjval + adjval } :: (front ++ back)) := List.perm_middle
        refine ⟨_, rfl, ?_, ?_, ?_, ?_⟩
        · have adjusted : EntOk ({ u with adjval := u.adjval + adjval } :: (front ++ back)) :=
            (entOk_cons).mpr ⟨apart, gone, others⟩
          exact adjusted.perm changed.symm
        · rw [changed.length_eq, List.length_cons]
          omega
        · intro id num
          rw [total_perm changed, total_perm perm, total, total]
          by_cases mine : id = semid ∧ num = BitVec.ofNat 16 semnum
          · have both : u.Names id num := ⟨names.1.trans mine.1.symm, names.2.trans mine.2.symm⟩
            rw [if_pos mine, if_pos both, if_pos (show Undo.Names { u with adjval := u.adjval + adjval } id num from both),
              add_right_comm]
          · have neither : ¬u.Names id num := fun both => mine ⟨both.1.symm.trans names.1, both.2.symm.trans names.2⟩
            rw [if_neg mine, if_neg neither,
              if_neg (show ¬Undo.Names { u with adjval := u.adjval + adjval } id num from neither), add_zero]
        · intro v member
          obtain rfl | old := List.mem_cons.mp (changed.mem_iff.mp member)
          · exact .inl names
          · exact .inr (perm.mem_iff.mpr (List.mem_cons_of_mem _ old))

theorem swapRemove_subperm (here : ent[i]? = some u) : (swapRemove ent i).Subperm ent := by
  obtain ⟨front, back, rfl, rfl⟩ := getElem?_split here
  exact (swapRemove_perm front back u).subperm.trans
    ((List.sublist_cons_self u back).append_left front).subperm

/-- Clearing only takes entries away. -/
theorem clearEnt_subperm (semid : Nat) (semnum : Option Nat) (fuel i : Nat) (ent : List Undo) :
    (clearEnt semid semnum fuel i ent).Subperm ent := by
  induction fuel generalizing i ent with
  | zero => exact List.Subperm.refl ent
  | succ fuel ih =>
      rw [clearEnt]
      split
      · exact List.Subperm.refl ent
      · rename_i u here
        have less := swapRemove_subperm here
        split
        · split
          · split
            · exact (ih i _).trans less
            · split
              · exact less
              · exact (ih (i + 1) _).trans less
          · split
            · exact List.Subperm.refl ent
            · exact ih (i + 1) ent
        · exact ih (i + 1) ent

theorem clearEnt_of_length_le (fuel : Nat) (semnum : Option Nat) (beyond : ent.length ≤ i) :
    clearEnt semid semnum fuel i ent = ent := by
  cases fuel with
  | zero => rfl
  | succ fuel => rw [clearEnt, List.getElem?_eq_none beyond]

/-- With `-1` no entry of the set is left. -/
theorem clearEnt_all {fuel : Nat} {front back : List Undo} (cleared : ∀ u ∈ front, u.id ≠ semid) (enough : back.length ≤ fuel) :
    ∀ u ∈ clearEnt semid none fuel front.length (front ++ back), u.id ≠ semid := by
  induction fuel generalizing front back with
  | zero =>
      rw [List.eq_nil_of_length_eq_zero (Nat.le_zero.mp enough), List.append_nil]
      exact cleared
  | succ fuel ih =>
      cases back with
      | nil =>
          rw [List.append_nil, clearEnt_of_length_le _ _ (le_refl _)]
          exact cleared
      | cons u back =>
          have here : (front ++ u :: back)[front.length]? = some u := by simp
          rw [List.length_cons] at enough
          rw [clearEnt]
          simp only [here, true_or, if_true, ne_eq, not_true_eq_false, if_false]
          by_cases gone : u.id = semid
          · obtain ⟨back', same, perm⟩ := swapRemove_split front back u
            rw [if_pos gone, same]
            have length := perm.length_eq
            split
            · exact ih cleared (by omega)
            · rename_i last
              have none : back' = [] := by
                rw [List.length_append, List.length_cons] at last
                exact List.eq_nil_of_length_eq_zero (by omega)
              rw [none, List.append_nil, clearEnt_of_length_le _ _ (Nat.le_succ _)]
              exact cleared
          · rw [if_neg gone]
            have next := @ih (front ++ [u]) back (by
              intro v member
              obtain old | new := List.mem_append.mp member
              · exact cleared v old
              · rw [List.mem_singleton.mp new]
                exact gone) (by omega)
            rw [List.length_append, List.length_singleton, List.append_assoc, List.singleton_append] at next
            exact next

theorem EntOk.subperm (ok : EntOk ent) (less : ent'.Subperm ent) : EntOk ent' := by
  obtain ⟨middle, perm, sublist⟩ := less
  have between : EntOk middle := ⟨ok.distinct.sublist sublist, fun u member => ok.nonzero u (sublist.subset member)⟩
  exact between.perm perm

/-! ## Structures -/

variable {info : Seminfo} {s s' : System} {p q : Proc} {suptr : Option Nat}

/-- The active structures are those on the list, every process has at most one, and their entries
are in order and in their limits. -/
structure UndoOk (info : Seminfo) (semu : Nat → SemUndo) (semuList : List Nat) : Prop where
  nodup : semuList.Nodup
  owned : ∀ i ∈ semuList, (semu i).proc ≠ none
  pool : ∀ i ∈ semuList, i < info.semmnu
  active : ∀ i < info.semmnu, (semu i).proc ≠ none → i ∈ semuList
  owners : ∀ i ∈ semuList, ∀ j ∈ semuList, (semu i).proc = (semu j).proc → i = j
  ents : ∀ i ∈ semuList, EntOk (semu i).ent ∧ (semu i).ent.length ≤ info.semume

theorem UndoOk.init (info : Seminfo) (semu : Nat → SemUndo) : UndoOk info (fun i => { semu i with proc := none }) [] where
  nodup := List.nodup_nil
  owned := nofun
  pool := nofun
  active _ _ owner := absurd rfl owner
  owners := nofun
  ents := nofun

/-- The entries of a process. -/
def entries (s : System) (p : Proc) : List Undo :=
  match findUndo p s with
  | none => []
  | some i => (s.semu i).ent

theorem findUndo_eq_some (ok : UndoOk info s.semu s.semuList) :
    findUndo p s = some i ↔ i ∈ s.semuList ∧ (s.semu i).proc = some p := by
  constructor
  · intro found
    refine ⟨List.mem_of_find?_eq_some found, ?_⟩
    simpa using List.find?_some found
  · rintro ⟨member, owner⟩
    cases found : findUndo p s with
    | none =>
        have no := List.find?_eq_none.mp found i member
        simp [owner] at no
    | some j =>
        have owner' : (s.semu j).proc = some p := by simpa using List.find?_some found
        rw [ok.owners i member j (List.mem_of_find?_eq_some found) (owner.trans owner'.symm)]

theorem findUndo_eq_none : findUndo p s = none ↔ ∀ i ∈ s.semuList, (s.semu i).proc ≠ some p := by
  rw [findUndo, List.find?_eq_none]
  simp

theorem entries_of_owner (ok : UndoOk info s.semu s.semuList) (member : i ∈ s.semuList) (owner : (s.semu i).proc = some p) :
    entries s p = (s.semu i).ent := by
  rw [entries, (findUndo_eq_some ok).mpr ⟨member, owner⟩]

theorem entries_of_none (none : ∀ i ∈ s.semuList, (s.semu i).proc ≠ some p) : entries s p = [] := by
  rw [entries, (findUndo_eq_none).mpr none]

theorem entries_ok (ok : UndoOk info s.semu s.semuList) (p : Proc) :
    EntOk (entries s p) ∧ (entries s p).length ≤ info.semume := by
  rw [entries]
  cases found : findUndo p s with
  | none => exact ⟨EntOk.nil, Nat.zero_le _⟩
  | some i => exact ok.ents i ((findUndo_eq_some ok).mp found).1

theorem freeUndo_eq_some (found : freeUndo info s = some i) : i < info.semmnu ∧ (s.semu i).proc = none := by
  refine ⟨List.mem_range.mp (List.mem_of_find?_eq_some found), ?_⟩
  simpa using List.find?_some found

/-- A free structure is filled in for a process that has none. -/
theorem UndoOk.fill (ok : UndoOk info s.semu s.semuList) (free : freeUndo info s = some i)
    (none : ∀ j ∈ s.semuList, (s.semu j).proc ≠ some p) :
    UndoOk info (fillUndo p i s).semu (fillUndo p i s).semuList ∧ findUndo p (fillUndo p i s) = some i ∧
      entries (fillUndo p i s) p = [] ∧ ∀ q, q ≠ p → entries (fillUndo p i s) q = entries s q := by
  obtain ⟨bound, unowned⟩ := freeUndo_eq_some free
  have fresh : i ∉ s.semuList := fun member => ok.owned i member unowned
  have same : ∀ j ∈ s.semuList, (fillUndo p i s).semu j = s.semu j := by
    intro j member
    refine Function.update_of_ne ?_ _ _
    rintro rfl
    exact fresh member
  have mine : (fillUndo p i s).semu i = { proc := some p, ent := [] } := Function.update_self _ _ _
  have ok' : UndoOk info (fillUndo p i s).semu (fillUndo p i s).semuList := by
    constructor
    · exact List.nodup_cons.mpr ⟨fresh, ok.nodup⟩
    · refine List.forall_mem_cons.mpr ⟨by rw [mine]; nofun, fun j member => ?_⟩
      rw [same j member]
      exact ok.owned j member
    · exact List.forall_mem_cons.mpr ⟨bound, ok.pool⟩
    · intro j less owner
      by_cases equal : j = i
      · exact equal ▸ List.mem_cons_self
      · rw [show (fillUndo p i s).semu j = s.semu j from Function.update_of_ne equal _ _] at owner
        exact List.mem_cons_of_mem _ (ok.active j less owner)
    · intro j jMem k kMem equal
      obtain rfl | jOld := List.mem_cons.mp jMem
      · obtain rfl | kOld := List.mem_cons.mp kMem
        · rfl
        · rw [mine, same k kOld] at equal
          exact absurd equal.symm (none k kOld)
      · obtain rfl | kOld := List.mem_cons.mp kMem
        · rw [mine, same j jOld] at equal
          exact absurd equal (none j jOld)
        · rw [same j jOld, same k kOld] at equal
          exact ok.owners j jOld k kOld equal
    · refine List.forall_mem_cons.mpr ⟨by rw [mine]; exact ⟨EntOk.nil, Nat.zero_le _⟩, fun j member => ?_⟩
      rw [same j member]
      exact ok.ents j member
  have found : findUndo p (fillUndo p i s) = some i :=
    (findUndo_eq_some ok').mpr ⟨List.mem_cons_self, by rw [mine]⟩
  refine ⟨ok', found, ?_, fun q different => ?_⟩
  · rw [entries_of_owner ok' List.mem_cons_self (by rw [mine]), mine]
  · cases owner : findUndo q s with
    | some j =>
        obtain ⟨member, owner⟩ := (findUndo_eq_some ok).mp owner
        rw [entries_of_owner ok member owner,
          entries_of_owner ok' (List.mem_cons_of_mem _ member) (by rw [same j member]; exact owner), same j member]
    | none =>
        have others := (findUndo_eq_none).mp owner
        rw [entries_of_none others, entries_of_none]
        refine List.forall_mem_cons.mpr ⟨?_, fun j member => ?_⟩
        · rw [mine]
          exact fun equal => different (Option.some.inj equal).symm
        · rw [same j member]
          exact others j member

/-- Freeing the structures without entries. -/
theorem UndoOk.purge (ok : UndoOk info s.semu s.semuList) :
    UndoOk info (purgeUndo s).semu (purgeUndo s).semuList ∧ ∀ q, entries (purgeUndo s) q = entries s q := by
  have member_iff : ∀ j, j ∈ (purgeUndo s).semuList ↔ j ∈ s.semuList ∧ (s.semu j).ent ≠ [] := by
    intro j
    exact List.mem_filter.trans (and_congr_right fun _ => decide_eq_true_iff)
  have same : ∀ j ∈ (purgeUndo s).semuList, (purgeUndo s).semu j = s.semu j := by
    intro j member
    exact if_neg fun both => ((member_iff j).mp member).2 both.2
  have ok' : UndoOk info (purgeUndo s).semu (purgeUndo s).semuList := by
    constructor
    · exact ok.nodup.filter _
    · intro j member
      rw [same j member]
      exact ok.owned j ((member_iff j).mp member).1
    · exact fun j member => ok.pool j ((member_iff j).mp member).1
    · intro j less owner
      rw [member_iff]
      by_cases gone : j ∈ s.semuList ∧ (s.semu j).ent = []
      · have freed : (purgeUndo s).semu j = { s.semu j with proc := none } := if_pos gone
        exact absurd (congrArg SemUndo.proc freed) owner
      · rw [show (purgeUndo s).semu j = s.semu j from if_neg gone] at owner
        exact ⟨ok.active j less owner, fun empty => gone ⟨ok.active j less owner, empty⟩⟩
    · intro j jMem k kMem equal
      rw [same j jMem, same k kMem] at equal
      exact ok.owners j ((member_iff j).mp jMem).1 k ((member_iff k).mp kMem).1 equal
    · intro j member
      rw [same j member]
      exact ok.ents j ((member_iff j).mp member).1
  refine ⟨ok', fun q => ?_⟩
  cases owner : findUndo q s with
  | none =>
      have others := (findUndo_eq_none).mp owner
      rw [entries_of_none others, entries_of_none]
      intro j member
      rw [same j member]
      exact others j ((member_iff j).mp member).1
  | some j =>
      obtain ⟨member, owner⟩ := (findUndo_eq_some ok).mp owner
      rw [entries_of_owner ok member owner]
      by_cases empty : (s.semu j).ent = []
      · rw [empty, entries_of_none]
        intro k kMem equal
        obtain ⟨old, some⟩ := (member_iff k).mp kMem
        rw [same k kMem] at equal
        exact some (ok.owners k old j member (equal.trans owner.symm) ▸ empty)
      · have kept := (member_iff j).mpr ⟨member, empty⟩
        rw [entries_of_owner ok' kept (by rw [same j kept]; exact owner), same j kept]

/-- `semu_alloc` does not panic, and it changes the entries of no process. -/
theorem semuAlloc_spec (ok : UndoOk info s.semu s.semuList) (none : ∀ j ∈ s.semuList, (s.semu j).proc ≠ some p) :
    semuAlloc info p s = some (s, .none) ∨
      ∃ i s', semuAlloc info p s = some (s', some i) ∧ s' = { s with semu := s'.semu, semuList := s'.semuList } ∧
        UndoOk info s'.semu s'.semuList ∧ findUndo p s' = some i ∧ ∀ q, entries s' q = entries s q := by
  have mine : entries s p = [] := entries_of_none none
  rw [semuAlloc]
  cases free : freeUndo info s with
  | some i =>
      obtain ⟨ok', found, empty, others⟩ := ok.fill free none
      refine .inr ⟨i, fillUndo p i s, rfl, rfl, ok', found, fun q => ?_⟩
      by_cases same : q = p
      · rw [same, empty, mine]
      · exact others q same
  | none =>
      simp only
      split
      · rename_i any
        obtain ⟨j, member, empty⟩ := List.any_eq_true.mp any
        have empty : (s.semu j).ent = [] := by simpa using empty
        have freed : ((purgeUndo s).semu j).proc = Option.none := by
          have changed : (purgeUndo s).semu j = { s.semu j with proc := Option.none } := if_pos ⟨member, empty⟩
          rw [changed]
        obtain ⟨okP, sameP⟩ := ok.purge
        have noneP : ∀ k ∈ (purgeUndo s).semuList, ((purgeUndo s).semu k).proc ≠ some p := by
          intro k kMem
          obtain ⟨old, some⟩ := List.mem_filter.mp kMem
          have kept : (purgeUndo s).semu k = s.semu k := if_neg fun both => by simp [both.2] at some
          rw [kept]
          exact none k old
        cases free' : freeUndo info (purgeUndo s) with
        | none =>
            have taken := List.find?_eq_none.mp free' j (List.mem_range.mpr (ok.pool j member))
            simp [freed] at taken
        | some i =>
            obtain ⟨ok', found, empty', others⟩ := okP.fill free' noneP
            refine .inr ⟨i, fillUndo p i (purgeUndo s), rfl, rfl, ok', found, fun q => ?_⟩
            by_cases same : q = p
            · rw [same, empty', mine]
            · exact (others q same).trans (sameP q)
      · exact .inl rfl

/-- An adjustment of a process was made, and nothing else was changed. -/
structure Adjusts (info : Seminfo) (p : Proc) (semid : Nat) (num adjval : BitVec 16) (s s' : System) : Prop where
  frame : s' = { s with semu := s'.semu, semuList := s'.semuList }
  ok : UndoOk info s'.semu s'.semuList
  others : ∀ q, q ≠ p → entries s' q = entries s q
  mine : ∀ id' num', total id' num' (entries s' p) =
    total id' num' (entries s p) + if id' = semid ∧ num' = num then adjval else 0
  names : ∀ u ∈ entries s' p, u.Names semid num ∨ u ∈ entries s p

/-- The second half of `semundo_adjust`, for the structure of the process. -/
theorem adjustUndo_spec (ok : UndoOk info s.semu s.semuList) (found : findUndo p s = some i) (small : semnum < 2 ^ 15)
    (nonzero : adjval ≠ 0) :
    (adjustUndo info i semid semnum adjval s = (s, some .EINVAL) ∧
      total semid (BitVec.ofNat 16 semnum) (entries s p) = 0 ∧ (entries s p).length = info.semume) ∨
    ∃ s', adjustUndo info i semid semnum adjval s = (s', none) ∧ findUndo p s' = some i ∧
      Adjusts info p semid (BitVec.ofNat 16 semnum) adjval s s' := by
  obtain ⟨member, owner⟩ := (findUndo_eq_some ok).mp found
  have mine := entries_of_owner ok member owner
  obtain ⟨entOk, fits⟩ := ok.ents i member
  rw [adjustUndo]
  obtain ⟨full, zero, length⟩ | ⟨ent', outcome, entOk', fits', totals, names⟩ :=
    @adjustEnt_spec _ semid semnum info.semume _ entOk small nonzero fits
  · rw [full, mine]
    exact .inl ⟨rfl, zero, length⟩
  · rw [outcome]
    let next : System := { s with semu := Function.update s.semu i { s.semu i with ent := ent' } }
    have here : next.semu i = { s.semu i with ent := ent' } := Function.update_self _ _ _
    have there : ∀ j, j ≠ i → next.semu j = s.semu j := fun j different => Function.update_of_ne different _ _
    have proc : ∀ j, (next.semu j).proc = (s.semu j).proc := by
      intro j
      by_cases same : j = i
      · rw [same, here]
      · rw [there j same]
    have ok' : UndoOk info next.semu next.semuList := by
      constructor
      · exact ok.nodup
      · exact fun j jMem => proc j ▸ ok.owned j jMem
      · exact ok.pool
      · exact fun j less owned => ok.active j less (proc j ▸ owned)
      · exact fun j jMem k kMem equal => ok.owners j jMem k kMem (proc j ▸ proc k ▸ equal)
      · intro j jMem
        by_cases same : j = i
        · rw [same, here]
          exact ⟨entOk', fits'⟩
        · rw [there j same]
          exact ok.ents j jMem
    have mine' : entries next p = ent' := by
      rw [entries_of_owner ok' member ((proc i).trans owner), here]
    refine .inr ⟨next, rfl, (findUndo_eq_some ok').mpr ⟨member, (proc i).trans owner⟩, rfl, ok', ?_, ?_, ?_⟩
    · intro q different
      have other : findUndo q next = findUndo q s := by
        rw [findUndo, findUndo]
        simp only [proc]
        rfl
      rw [entries, entries, other]
      cases findQ : findUndo q s with
      | none => rfl
      | some j =>
          refine congrArg SemUndo.ent (there j ?_)
          rintro rfl
          rw [((findUndo_eq_some ok).mp findQ).2] at owner
          exact different (Option.some.inj owner)
    · rw [mine', mine]
      exact totals
    · rw [mine', mine]
      exact names

theorem Adjusts.of_entries (frame : s' = { s with semu := s'.semu, semuList := s'.semuList })
    (ok : UndoOk info s'.semu s'.semuList) (same : ∀ q, entries s' q = entries s q) : Adjusts info p semid num 0 s s' where
  frame := frame
  ok := ok
  others q _ := same q
  mine id' num' := by
    rw [same, ite_self, add_zero]
  names u member := .inr (same p ▸ member)

/-- An adjustment after one that changed no entries. -/
theorem Adjusts.after (frame : s' = { s with semu := s'.semu, semuList := s'.semuList }) (same : ∀ q, entries s' q = entries s q)
    {s'' : System} (adjusts : Adjusts info p semid num adjval s' s'') : Adjusts info p semid num adjval s s'' where
  frame := by
    rw [adjusts.frame, frame]
  ok := adjusts.ok
  others q different := (adjusts.others q different).trans (same q)
  mine id' num' := by
    rw [adjusts.mine, same]
  names u member := same p ▸ adjusts.names u member

/-- `semundo_adjust` does not panic; the adjustment is made, or it is not and there is no room
for it. -/
theorem semundoAdjust_spec (ok : UndoOk info s.semu s.semuList) (known : suptr = none ∨ suptr = findUndo p s)
    (small : semnum < 2 ^ 15) (nonzero : adjval ≠ 0) :
    ∃ s' suptr' eval, semundoAdjust info p suptr semid semnum adjval s = some (s', suptr', eval) ∧
      (eval = none → suptr' = findUndo p s' ∧ suptr'.isSome ∧ Adjusts info p semid (BitVec.ofNat 16 semnum) adjval s s') ∧
      (eval ≠ none → Adjusts info p semid (BitVec.ofNat 16 semnum) 0 s s' ∧ (suptr' = none ∨ suptr' = findUndo p s') ∧
        (suptr.isSome → suptr'.isSome ∧ suptr' = findUndo p s' ∧ total semid (BitVec.ofNat 16 semnum) (entries s p) = 0 ∧
          (entries s p).length = info.semume)) := by
  have locate : (suptr <|> findUndo p s) = findUndo p s := by
    obtain rfl | rfl := known
    · rfl
    · cases findUndo p s with
      | none => rfl
      | some i => rfl
  rw [semundoAdjust, locate]
  cases found : findUndo p s with
  | some i =>
      obtain ⟨outcome, zero, length⟩ | ⟨s', outcome, found', adjusts⟩ :=
        @adjustUndo_spec semid semnum i adjval info s p ok found small nonzero
      · refine ⟨s, some i, some .EINVAL, by simp only [outcome], nofun, fun _ => ?_⟩
        exact ⟨Adjusts.of_entries rfl ok fun q => rfl, .inr found.symm, fun _ => ⟨rfl, found.symm, zero, length⟩⟩
      · refine ⟨s', some i, none, by simp only [outcome], fun _ => ⟨found'.symm, rfl, adjusts⟩, fun some => absurd rfl some⟩
  | none =>
      have unknown : suptr = none := by
        obtain rfl | rfl := known
        · rfl
        · exact found
      simp only [if_neg nonzero]
      obtain outcome | ⟨i, s', outcome, frame, ok', found', same⟩ := semuAlloc_spec ok ((findUndo_eq_none).mp found)
      · refine ⟨s, none, some .ENOSPC, by rw [outcome], nofun, fun _ => ?_⟩
        refine ⟨Adjusts.of_entries rfl ok fun q => rfl, .inl rfl, fun some => ?_⟩
        rw [unknown] at some
        cases some
      · obtain ⟨outcome', -⟩ | ⟨s'', outcome', found'', adjusts⟩ :=
          @adjustUndo_spec semid semnum i adjval info s' p ok' found' small nonzero
        · refine ⟨s', some i, some .EINVAL, by simp only [outcome, outcome'], nofun, fun _ => ?_⟩
          refine ⟨Adjusts.of_entries frame ok' same, .inr found'.symm, fun some => ?_⟩
          rw [unknown] at some
          cases some
        · refine ⟨s'', some i, none, by simp only [outcome, outcome'], fun _ => ?_, fun some => absurd rfl some⟩
          exact ⟨found''.symm, rfl, Adjusts.after frame same adjusts⟩

end Dragonfly.Kern.Sem
