import Mathlib
import Dragonfly.Kern.Sem.Pool

/-!
# The sums

Beside the system a ledger has what every semaphore should be worth and what every process should
give back, as integers.  The values and the adjustments are those of the ledger in every run in
which no sum leaves the range of its type.
-/

namespace Dragonfly.Kern.Sem

open Dragonfly.Lib

variable {info : Seminfo} {s s' : System} {d : SemidDs} {p q : Proc} {id : BitVec 32} {sop : Sembuf} {sops rest : List Sembuf}
  {sem : Nat → Semaphore} {ix n k : Nat} {ent ents : List Undo} {u : Undo}

/-! ## The ledger -/

/-- What every semaphore of a set should be worth, and what every process should give back to it at
its exit. -/
structure Ledger where
  value : Nat → Nat → Int
  undo : Proc → Nat → Nat → Int

/-- What operations add to a semaphore of their set, as an integer. -/
def gain (n : Nat) : List Sembuf → Int
  | [] => 0
  | sop :: rest => (if sop.num.toNat = n then sop.op.toInt else 0) + gain n rest

/-- What operations with `SEM_UNDO` add to it. -/
def gainUndo (n : Nat) : List Sembuf → Int
  | [] => 0
  | sop :: rest => (if sop.undo = true ∧ sop.num.toNat = n then sop.op.toInt else 0) + gainUndo n rest

/-- Operations of a process on a set. -/
def Ledger.operate (p : Proc) (ix : Nat) (sops : List Sembuf) (l : Ledger) : Ledger where
  value i n := l.value i n + if i = ix then gain n sops else 0
  undo q i n := l.undo q i n - if q = p ∧ i = ix then gainUndo n sops else 0

/-- Sets are created. -/
def Ledger.create (fresh : Nat → Bool) (l : Ledger) : Ledger where
  value i n := if fresh i then 0 else l.value i n
  undo q i n := if fresh i then 0 else l.undo q i n

/-- `SETVAL` -/
def Ledger.setval (ix k : Nat) (val : Int) (l : Ledger) : Ledger where
  value i n := if i = ix ∧ n = k then val else l.value i n
  undo q i n := if i = ix ∧ n = k then 0 else l.undo q i n

/-- `SETALL`, with the values up to where they could be read. -/
def Ledger.setall (ix : Nat) (vals : List (BitVec 16)) (l : Ledger) : Ledger where
  value i n :=
    if i = ix then
      match vals[n]? with
      | none => l.value i n
      | some val => val.toNat
    else l.value i n
  undo q i n := if i = ix then 0 else l.undo q i n

/-- The exit of a process. -/
def Ledger.exit (p : Proc) (l : Ledger) : Ledger where
  value i n := max 0 (l.value i n + l.undo p i n)
  undo q i n := if q = p then 0 else l.undo q i n

/-- `semctl` gets to its command. -/
def takes (info : Seminfo) (id : BitVec 32) (ipcperm : Option Errno) (s : System) : Bool :=
  decide (ipcidToIx id < info.semmni) && exists? id s && decide (ipcperm = none)

/-- What is entered for a step: the operations of a call of `semop` that returns 0. -/
def record (info : Seminfo) (s : System) (call : Call) (out : Option Outcome) (s' : System) (l : Ledger) : Ledger :=
  match call with
  | .semget .. => l.create fun i => !(s.sema i).alloc && (s'.sema i).alloc
  | .semop p id sops _ _ =>
      match out with
      | some (.returned none) => l.operate p (ipcidToIx id) sops
      | _ => l
  | .resume index _ =>
      match out, s.sleepers[index]? with
      | some (.returned none), some w => l.operate w.proc (ipcidToIx w.id) w.sops
      | _, _ => l
  | .semctl id cmd ipcperm =>
      if takes info id ipcperm s then
        match cmd with
        | .rmid => l
        | .setval semnum val copyin =>
            if 0 ≤ semnum ∧ semnum < (s.sema (ipcidToIx id)).nsems.toNat ∧ copyin = none then
              l.setval (ipcidToIx id) semnum.toNat val.toInt
            else l
        | .setall vals => l.setall (ipcidToIx id) vals
      else l
  | .exit p => l.exit p

/-- The value of a semaphore of a set. -/
def semval (s : System) (ix n : Nat) : BitVec 16 := (s.sem ((s.sema ix).base + n)).semval

/-- What a process is to give back to a semaphore. -/
def adjustment (s : System) (p : Proc) (ix n : Nat) : BitVec 16 := total ix (BitVec.ofNat 16 n) (entries s p)

/-- The semaphores of all sets and the entries of all processes are those of the ledger. -/
structure Exact (s : System) (l : Ledger) : Prop where
  value : ∀ ix n, (s.sema ix).alloc = true → n < (s.sema ix).nsems.toNat → ((semval s ix n).toNat : Int) = l.value ix n
  undo : ∀ p ix n, (s.sema ix).alloc = true → n < (s.sema ix).nsems.toNat → (adjustment s p ix n).toInt = l.undo p ix n

/-! ## The ranges -/

/-- The operations do not come to one that is out of range; and if they are all possible in turn, the
values stay below 65536 and the adjustments are 16-bit numbers. -/
def SemopInRange (p : Proc) (ix : Nat) (sops : List Sembuf) (s : System) : Prop :=
  ¬Overruns (s.sema ix) sops s.sem ∧
    (Allowed (s.sema ix) sops s.sem → ∀ n < (s.sema ix).nsems.toNat,
      (semval s ix n).toNat + gain n sops < 2 ^ 16 ∧
      -2 ^ 15 ≤ (adjustment s p ix n).toInt - gainUndo n sops ∧ (adjustment s p ix n).toInt - gainUndo n sops < 2 ^ 15)

/-- The entry for a semaphore, if there is one, is the first of the entries for its set. -/
def Leads (ix k : Nat) (ent : List Undo) : Prop :=
  ∀ front u back, ent = front ++ u :: back → u.Names ix (BitVec.ofNat 16 k) → ∀ v ∈ front, v.id ≠ ix

/-- The step stays in the ranges. -/
def InRange (info : Seminfo) (s : System) : Call → Prop
  | .semctl id (.setval semnum val copyin) ipcperm =>
      takes info id ipcperm s = true → 0 ≤ semnum ∧ semnum < (s.sema (ipcidToIx id)).nsems.toNat ∧ copyin = none →
        0 ≤ val.toInt ∧ val.toInt < 2 ^ 16 ∧ ∀ q, Leads (ipcidToIx id) semnum.toNat (entries s q)
  | .exit p => ∀ u ∈ entries s p, ((semval s u.id u.num.toNat).toNat : Int) + u.adjval.toInt < 2 ^ 16
  | call => ∀ p id sops, attempt info s call = some (p, id, sops) → SemopInRange p (ipcidToIx id) sops s

/-! ## Arithmetic -/

/-- A possible operation, with what is carried over. -/
theorem addVal_carry {value op : BitVec 16} (possible : 0 ≤ (value.toNat : Int) + op.toInt) :
    ∃ m : Nat, (value.toNat : Int) + op.toInt = (value + op).toNat + 65536 * m := by
  rw [BitVec.toInt_eq_toNat_cond] at possible ⊢
  have small := value.isLt
  have small' := op.isLt
  have sum := BitVec.toNat_add value op
  by_cases positive : 2 * op.toNat < 2 ^ 16
  · rw [if_pos positive]
    exact ⟨(value.toNat + op.toNat) / 65536, by omega⟩
  · rw [if_neg positive] at possible ⊢
    exact ⟨0, by omega⟩

/-- Operations that are possible in turn, with what is carried over. -/
theorem perform_carry (allowed : Allowed d sops sem) (n : Nat) :
    ∃ m : Nat, ((sem (d.base + n)).semval.toNat : Int) + gain n sops =
      (perform d sops sem (d.base + n)).semval.toNat + 65536 * m := by
  induction sops generalizing sem with
  | nil => exact ⟨0, by simp [gain, perform]⟩
  | cons sop rest ih =>
      obtain ⟨-, permitted, later⟩ := allowed
      obtain ⟨m, rest'⟩ := ih later
      show ∃ m : Nat, _ = ((perform d rest (perform d [sop] sem) (d.base + n)).semval.toNat : Int) + 65536 * m
      have first : (perform d [sop] sem (d.base + n)).semval =
          (sem (d.base + n)).semval + if sop.num.toNat = n then sop.op else 0 := by
        rw [perform_apply, net, net, add_zero, addVal, SemidDs.place]
        simp only [Nat.add_left_cancel_iff]
      rw [gain]
      by_cases here : sop.num.toNat = n
      · rw [if_pos here] at first ⊢
        have possible : 0 ≤ ((sem (d.base + n)).semval.toNat : Int) + sop.op.toInt := by
          rw [← here]
          exact permitted.1
        obtain ⟨m', carry⟩ := addVal_carry possible
        rw [← first] at carry
        exact ⟨m + m', by omega⟩
      · rw [if_neg here, add_zero] at first
        rw [if_neg here, ← first]
        exact ⟨m, by omega⟩

/-- The values below 65536 are those of the ledger. -/
theorem perform_exact (allowed : Allowed d sops sem) (fits : ((sem (d.base + n)).semval.toNat : Int) + gain n sops < 2 ^ 16) :
    ((perform d sops sem (d.base + n)).semval.toNat : Int) = (sem (d.base + n)).semval.toNat + gain n sops := by
  obtain ⟨m, carry⟩ := perform_carry allowed n
  omega

theorem netUndo_eq (small : n < 2 ^ 16) (sops : List Sembuf) :
    netUndo (BitVec.ofNat 16 n) sops = BitVec.ofInt 16 (gainUndo n sops) := by
  induction sops with
  | nil => rfl
  | cons sop rest ih =>
      have named : sop.num = BitVec.ofNat 16 n ↔ sop.num.toNat = n := by
        rw [BitVec.toNat_eq, BitVec.toNat_ofNat, Nat.mod_eq_of_lt small]
      rw [netUndo, gainUndo, ih, BitVec.ofInt_add]
      congr 1
      by_cases here : sop.undo = true ∧ sop.num.toNat = n
      · rw [if_pos here, BitVec.ofInt_toInt]
        by_cases zero : sop.op = 0
        · rw [zero, ite_self]
        · rw [if_pos]
          exact ⟨by rw [Sembuf.undoes, here.1, Bool.true_and, decide_eq_true_iff]; exact zero, named.mpr here.2⟩
      · rw [if_neg here, if_neg]
        · rfl
        · rintro ⟨undoes, same⟩
          rw [Sembuf.undoes, Bool.and_eq_true] at undoes
          exact here ⟨undoes.1, named.mp same⟩

/-- The adjustments that are 16-bit numbers are those of the ledger. -/
theorem total_exact {adjval : BitVec 16} (small : n < 2 ^ 16) (low : -2 ^ 15 ≤ adjval.toInt - gainUndo n sops)
    (high : adjval.toInt - gainUndo n sops < 2 ^ 15) :
    (adjval - netUndo (BitVec.ofNat 16 n) sops).toInt = adjval.toInt - gainUndo n sops := by
  rw [netUndo_eq small, BitVec.toInt_sub, BitVec.toInt_ofInt, Int.sub_bmod_bmod]
  exact Int.bmod_eq_of_le (by omega) (by omega)

/-! ## Calls of semop -/

variable {l : Ledger} {out : Outcome} {doUndos : Bool}

theorem Exact.congr (exact : Exact s l) (sema : s'.sema = s.sema)
    (values : ∀ ix n, (s.sema ix).alloc = true → n < (s.sema ix).nsems.toNat → semval s' ix n = semval s ix n)
    (undos : ∀ p ix n, adjustment s' p ix n = adjustment s p ix n) : Exact s' l := by
  constructor
  · intro ix n alloc bound
    rw [sema] at alloc bound
    rw [values ix n alloc bound]
    exact exact.value ix n alloc bound
  · intro p ix n alloc bound
    rw [sema] at alloc bound
    rw [undos]
    exact exact.undo p ix n alloc bound

theorem Passed.sema (passed : Passed info p id sops doUndos s s' out) : s'.sema = s.sema := by
  cases passed with
  | @done s₁ allowed undone =>
      have same : s₁.sema = s.sema := by rw [undone.frame]
      split
      · exact same
      · exact same
  | full eval allowed frame ok same => rw [frame]
  | efbig here outside allowed => rfl
  | again here inside allowed not => rfl
  | slept here waits inside allowed not => rfl

theorem net_of_apart {x : Nat} (apart : ∀ sop ∈ sops, d.place sop ≠ x) : net d x sops = 0 := by
  induction sops with
  | nil => rfl
  | cons sop rest ih =>
      rw [net, if_neg (apart sop List.mem_cons_self), ih fun other member => apart other (List.mem_cons_of_mem _ member)]
      exact add_zero 0

theorem Unchanged.exact (same : Unchanged s s') (sema : s'.sema = s.sema) (exact : Exact s l) : Exact s' l := by
  refine exact.congr sema ?_ fun p ix n => (total_perm (same.2 p)).symm
  intro ix n _ _
  rw [semval, semval, sema]
  exact same.1 _

/-- What is entered for a pass through the loop of `semop`. -/
def Ledger.passed (p : Proc) (ix : Nat) (sops : List Sembuf) (l : Ledger) : Outcome → Ledger
  | .returned none => l.operate p ix sops
  | _ => l

/-- All operations are done, and no sum leaves its range. -/
theorem AllDone.exact (done : AllDone p id sops s s') (sema : s'.sema = s.sema) (pool : PoolOk info s)
    (alive : (s.sema (ipcidToIx id)).alloc = true) (small : ∀ ix, (s.sema ix).alloc = true → (s.sema ix).nsems.toNat ≤ 2 ^ 15)
    (fits : SemopInRange p (ipcidToIx id) sops s) (exact : Exact s l) : Exact s' (l.operate p (ipcidToIx id) sops) := by
  obtain ⟨allowed, values, others, mine⟩ := done
  constructor
  · intro ix n alloc bound
    rw [sema] at alloc bound
    show ((semval s' ix n).toNat : Int) = l.value ix n + if ix = ipcidToIx id then gain n sops else 0
    rw [← exact.value ix n alloc bound, semval, sema, values]
    by_cases here : ix = ipcidToIx id
    · subst here
      have sum := perform_exact allowed (fits.2 allowed n bound).1
      rw [perform_apply] at sum
      rw [if_pos rfl]
      exact sum
    · have apart : ∀ sop ∈ sops, (s.sema (ipcidToIx id)).place sop ≠ (s.sema ix).base + n := by
        intro sop member same
        have inside : sop.num.toNat < (s.sema (ipcidToIx id)).nsems.toNat := allowed.inside sop member
        rw [SemidDs.place] at same
        have order := pool.apart ix (ipcidToIx id) alloc alive here
        omega
      rw [net_of_apart apart, add_zero, if_neg here, add_zero]
      rfl
  · intro q ix n alloc bound
    rw [sema] at alloc bound
    have narrow := small ix alloc
    show (adjustment s' q ix n).toInt = l.undo q ix n - if q = p ∧ ix = ipcidToIx id then gainUndo n sops else 0
    rw [← exact.undo q ix n alloc bound]
    by_cases own : q = p
    · subst own
      rw [adjustment, mine]
      by_cases here : ix = ipcidToIx id
      · subst here
        obtain ⟨-, low, high⟩ := fits.2 allowed n bound
        rw [if_pos rfl, if_pos ⟨rfl, rfl⟩]
        exact total_exact (by omega) low high
      · rw [if_neg here, if_neg fun both => here both.2, sub_zero, sub_zero]
        rfl
    · rw [if_neg fun both => own both.1, sub_zero, adjustment, others q own]
      rfl

/-- A pass through the loop of `semop`. -/
theorem Exact.passed (exact : Exact s l) (consistent : Consistent info s) (alive : (s.sema (ipcidToIx id)).alloc = true)
    (small : ∀ ix, (s.sema ix).alloc = true → (s.sema ix).nsems.toNat ≤ 2 ^ 15) (fits : SemopInRange p (ipcidToIx id) sops s)
    (passed : Passed info p id sops doUndos s s' out) : Exact s' (l.passed p (ipcidToIx id) sops out) := by
  have atomic := (passed.atomic_iff consistent.undo).mpr fits.1
  match out with
  | .returned none => exact AllDone.exact atomic passed.sema consistent.pool alive small fits exact
  | .returned (some _) => exact Unchanged.exact atomic passed.sema exact
  | .slept => exact Unchanged.exact atomic passed.sema exact

/-! ## Clearing -/

variable {semid : Nat} {num : BitVec 16} {semnum : Option Nat} {fuel i : Nat}

theorem total_append (front back : List Undo) : total ix num (front ++ back) = total ix num front + total ix num back := by
  induction front with
  | nil => exact (zero_add _).symm
  | cons u rest ih => rw [List.cons_append, total, total, ih, add_assoc]

/-- An entry for another semaphore goes. -/
theorem total_swapRemove (here : ent[i]? = some u) (other : ¬u.Names ix num) :
    total ix num (swapRemove ent i) = total ix num ent := by
  obtain ⟨front, back, rfl, rfl⟩ := getElem?_split here
  rw [total_perm (swapRemove_perm front back u), total_append, total_append, total, if_neg other, zero_add]

/-- Clearing leaves the entries for other semaphores. -/
theorem total_clearEnt (other : ∀ u : Undo, u.id = semid → (semnum = none ∨ semnum.map Int.ofNat = some u.num.toInt) → ¬u.Names ix num) :
    total ix num (clearEnt semid semnum fuel i ent) = total ix num ent := by
  induction fuel generalizing i ent with
  | zero => rfl
  | succ fuel ih =>
      rw [clearEnt]
      cases here : ent[i]? with
      | none => rfl
      | some u =>
          simp only
          by_cases set : u.id = semid
          · rw [if_pos set]
            by_cases named : semnum = none ∨ semnum.map Int.ofNat = some u.num.toInt
            · have gone := total_swapRemove here (other u set named)
              rw [if_pos named]
              split
              · rw [ih, gone]
              · split
                · exact gone
                · rw [ih, gone]
            · rw [if_neg named]
              split
              · rfl
              · exact ih
          · rw [if_neg set]
            exact ih

/-- Without an entry for the semaphore nothing is cleared. -/
theorem clearEnt_of_none (small : k < 2 ^ 15) (none : ∀ u ∈ ent, ¬u.Names semid (BitVec.ofNat 16 k)) :
    clearEnt semid (some k) fuel i ent = ent := by
  induction fuel generalizing i with
  | zero => rfl
  | succ fuel ih =>
      rw [clearEnt]
      cases here : ent[i]? with
      | none => rfl
      | some u =>
          simp only
          by_cases set : u.id = semid
          · have different : ¬(some k = Option.none ∨ (some k).map Int.ofNat = some u.num.toInt) := by
              rintro (empty | same)
              · cases empty
              · have equal : (u.num.toInt : Int) = k := (Option.some.inj same).symm
                exact none u (List.mem_of_getElem? here) ⟨set, (toInt_eq_natCast_iff small).mp equal⟩
            rw [if_pos set, if_neg different, if_pos (Option.some_ne_none k)]
          · rw [if_neg set]
            exact ih

/-- With a number the entry is found if it is the first one for its set. -/
theorem clearEnt_leads {front back : List Undo} (small : k < 2 ^ 15) (ok : EntOk ent) (split : ent = front ++ u :: back)
    (names : u.Names semid (BitVec.ofNat 16 k)) (leads : ∀ v ∈ front.drop i, v.id ≠ semid) (reach : i ≤ front.length)
    (enough : front.length < fuel + i) : total semid (BitVec.ofNat 16 k) (clearEnt semid (some k) fuel i ent) = 0 := by
  induction fuel generalizing i with
  | zero => omega
  | succ fuel ih =>
      rw [clearEnt]
      by_cases found : i = front.length
      · have here : ent[i]? = some u := by rw [split, found, List.getElem?_append_right (le_refl _), Nat.sub_self]; rfl
        have matched : some k = none ∨ (some k).map Int.ofNat = some u.num.toInt := by
          refine .inr (congrArg some ?_)
          exact ((toInt_eq_natCast_iff small).mpr names.2).symm
        have perm : (swapRemove ent i).Perm (front ++ back) := by
          rw [split, found]
          exact swapRemove_perm front back u
        have rest : ∀ v ∈ swapRemove ent i, ¬v.Names semid (BitVec.ofNat 16 k) := by
          intro v member same
          have apart := (entOk_cons).mp (ok.perm (split ▸ List.perm_middle))
          exact apart.1 v (perm.mem_iff.mp member) ⟨same.1.trans names.1.symm, same.2.trans names.2.symm⟩
        rw [here]
        simp only
        rw [if_pos names.1, if_pos matched]
        split
        · rw [clearEnt_of_none small rest]
          exact total_eq_zero rest
        · rw [if_pos (Option.some_ne_none k)]
          exact total_eq_zero rest
      · have less : i < front.length := by omega
        have here : ent[i]? = some front[i] := by
          rw [split, List.getElem?_append_left less]
          exact List.getElem?_eq_getElem less
        have other : front[i].id ≠ semid := leads _ (by rw [List.drop_eq_getElem_cons less]; exact List.mem_cons_self)
        rw [here]
        simp only
        rw [if_neg other]
        refine ih (fun v member => leads v ?_) (by omega) (by omega)
        rw [List.drop_eq_getElem_cons less]
        exact List.mem_cons_of_mem _ member

/-- `semundo_clear` for each process. -/
theorem entries_clear (semid : Nat) (semnum : Option Nat) (s : System) (q : Proc) :
    entries (semundoClear semid semnum s) q = clearEnt semid semnum (entries s q).length 0 (entries s q) := by
  have proc : ∀ i, ((semundoClear semid semnum s).semu i).proc = (s.semu i).proc := by
    intro i
    show (if i ∈ s.semuList then _ else s.semu i).proc = _
    split <;> rfl
  have found : findUndo q (semundoClear semid semnum s) = findUndo q s := by
    rw [findUndo, findUndo]
    simp only [proc]
    rfl
  rw [entries, entries, found]
  cases here : findUndo q s with
  | none => rfl
  | some i =>
      have member : i ∈ s.semuList := List.mem_of_find?_eq_some here
      show (if i ∈ s.semuList then _ else s.semu i).ent = _
      rw [if_pos member]

/-- The adjustments for other semaphores stay. -/
theorem adjustment_clear (semnum : Option Nat) (q : Proc) {ix n : Nat}
    (other : ∀ u : Undo, u.id = semid → (semnum = none ∨ semnum.map Int.ofNat = some u.num.toInt) →
      ¬u.Names ix (BitVec.ofNat 16 n)) : adjustment (semundoClear semid semnum s) q ix n = adjustment s q ix n := by
  rw [adjustment, adjustment, entries_clear]
  exact total_clearEnt other

/-- No adjustment for a set is left. -/
theorem adjustment_clear_all (semid : Nat) (s : System) (q : Proc) (n : Nat) :
    adjustment (semundoClear semid none s) q semid n = 0 := by
  rw [adjustment, entries_clear]
  refine total_eq_zero fun u member names => ?_
  exact @clearEnt_all semid _ [] (entries s q) nofun (le_refl _) u member names.1

/-- No adjustment for a semaphore is left, if its entry was the first one for its set. -/
theorem adjustment_clear_one (ok : UndoOk info s.semu s.semuList) (small : k < 2 ^ 15) (q : Proc)
    (leads : Leads semid k (entries s q)) : adjustment (semundoClear semid (some k) s) q semid k = 0 := by
  rw [adjustment, entries_clear]
  by_cases named : ∃ u ∈ entries s q, u.Names semid (BitVec.ofNat 16 k)
  · obtain ⟨u, member, names⟩ := named
    obtain ⟨front, back, split⟩ := List.append_of_mem member
    refine clearEnt_leads small (entries_ok ok q).1 split names ?_ (Nat.zero_le _) ?_
    · rw [List.drop_zero]
      exact leads front u back split names
    · rw [split, List.length_append, List.length_cons]
      omega
  · have none : ∀ u ∈ entries s q, ¬u.Names semid (BitVec.ofNat 16 k) := fun u member names => named ⟨u, member, names⟩
    rw [clearEnt_of_none small none]
    exact total_eq_zero none

/-! ## Other calls -/

/-- Two semaphores of sets that exist are at different places of the pool. -/
theorem PoolOk.place_inj (pool : PoolOk info s) {ix jx n m : Nat} (allocI : (s.sema ix).alloc = true)
    (allocJ : (s.sema jx).alloc = true) (boundI : n < (s.sema ix).nsems.toNat) (boundJ : m < (s.sema jx).nsems.toNat) :
    (s.sema ix).base + n = (s.sema jx).base + m ↔ ix = jx ∧ n = m := by
  constructor
  · intro same
    by_cases set : ix = jx
    · subst set
      exact ⟨rfl, by omega⟩
    · have apart := pool.apart ix jx allocI allocJ set
      omega
  · rintro ⟨rfl, rfl⟩
    rfl

theorem Exact.setall (exact : Exact s l) (pool : PoolOk info s) (alive : (s.sema semid).alloc = true) (vals : List (BitVec 16)) :
    Exact (setall semid vals s) (l.setall semid vals) := by
  constructor
  · intro ix n alloc bound
    show (((if (s.sema semid).base ≤ (s.sema ix).base + n ∧ (s.sema ix).base + n < (s.sema semid).base + (s.sema semid).nsems.toNat
      then _ else s.sem ((s.sema ix).base + n)) : Semaphore).semval.toNat : Int) = if ix = semid then _ else l.value ix n
    have alloc : (s.sema ix).alloc = true := alloc
    have bound : n < (s.sema ix).nsems.toNat := bound
    have old := exact.value ix n alloc bound
    by_cases here : ix = semid
    · subst here
      have inside : (s.sema ix).base ≤ (s.sema ix).base + n ∧ (s.sema ix).base + n < (s.sema ix).base + (s.sema ix).nsems.toNat :=
        ⟨Nat.le_add_right _ _, Nat.add_lt_add_left bound _⟩
      have offset : ((Sem.setall ix vals s).sema ix).base + n - (s.sema ix).base = n := Nat.add_sub_cancel_left _ _
      rw [if_pos inside, if_pos rfl, offset]
      cases vals[n]? with
      | none => exact old
      | some val => rfl
    · have apart := pool.apart ix semid alloc alive here
      rw [if_neg (by omega), if_neg here]
      exact old
  · intro q ix n alloc bound
    show (adjustment (semundoClear semid none _) q ix n).toInt = if ix = semid then 0 else l.undo q ix n
    by_cases here : ix = semid
    · subst here
      rw [adjustment_clear_all, if_pos rfl]
      rfl
    · rw [adjustment_clear none q fun u set _ names => here (names.1.symm.trans set), if_neg here]
      exact exact.undo q ix n alloc bound

theorem Exact.setval (exact : Exact s l) (consistent : Consistent info s) (alive : (s.sema semid).alloc = true)
    (bound : k < (s.sema semid).nsems.toNat) (small : (s.sema semid).nsems.toNat ≤ 2 ^ 15) {val : BitVec 32}
    (low : 0 ≤ val.toInt) (high : val.toInt < 2 ^ 16) (leads : ∀ q, Leads semid k (entries s q)) :
    Exact (setval semid k (val.truncate 16) s) (l.setval semid k val.toInt) := by
  have narrow : ((val.truncate 16).toNat : Int) = val.toInt := by
    rw [BitVec.toInt_eq_toNat_cond] at low high ⊢
    rw [BitVec.truncate, BitVec.toNat_setWidth]
    omega
  constructor
  · intro ix n alloc bound'
    have alloc : (s.sema ix).alloc = true := alloc
    have bound' : n < (s.sema ix).nsems.toNat := bound'
    show ((Function.update s.sem ((s.sema semid).base + k) _ ((s.sema ix).base + n)).semval.toNat : Int) =
      if ix = semid ∧ n = k then val.toInt else l.value ix n
    have place := consistent.pool.place_inj alloc alive bound' bound
    by_cases here : ix = semid ∧ n = k
    · rw [if_pos here, place.mpr here, Function.update_self]
      exact narrow
    · rw [if_neg here, Function.update_of_ne (place.not.mpr here)]
      exact exact.value ix n alloc bound'
  · intro q ix n alloc bound'
    have bound' : n < (s.sema ix).nsems.toNat := bound'
    show (adjustment (semundoClear semid (some k) s) q ix n).toInt = if ix = semid ∧ n = k then 0 else l.undo q ix n
    by_cases here : ix = semid ∧ n = k
    · obtain ⟨rfl, rfl⟩ := here
      rw [adjustment_clear_one consistent.undo (by omega) q (leads q), if_pos ⟨rfl, rfl⟩]
      rfl
    · rw [adjustment_clear, if_neg here]
      · exact exact.undo q ix n alloc bound'
      · rintro u set (all | same) ⟨set', num⟩
        · cases all
        · have equal : (u.num.toInt : Int) = k := (Option.some.inj same).symm
          have narrowK : k < 2 ^ 15 := by omega
          have both : BitVec.ofNat 16 n = BitVec.ofNat 16 k := num.symm.trans ((toInt_eq_natCast_iff narrowK).mp equal)
          have setIx : ix = semid := set'.symm.trans set
          rw [setIx] at bound'
          rw [BitVec.toNat_eq, BitVec.toNat_ofNat, BitVec.toNat_ofNat] at both
          exact here ⟨setIx, by omega⟩

theorem Exact.rmid (exact : Exact s l) (pool : PoolOk info s) (alive : (s.sema semid).alloc = true) :
    Exact (rmid info semid s) l := by
  constructor
  · intro ix n alloc bound
    obtain ⟨other, alloc⟩ := (removed_alloc).mp alloc
    have bound : n < (s.sema ix).nsems.toNat := by
      rw [← @removed_nsems info s semid ix]
      exact bound
    show (((removed info semid s).sem (((removed info semid s).sema ix).base + n)).semval.toNat : Int) = _
    rw [removed_sem pool alive other alloc bound]
    exact exact.value ix n alloc bound
  · intro q ix n alloc bound
    obtain ⟨other, alloc⟩ := (removed_alloc).mp alloc
    have bound : n < (s.sema ix).nsems.toNat := by
      rw [← @removed_nsems info s semid ix]
      exact bound
    show (adjustment (semundoClear semid none (removed info semid s)) q ix n).toInt = _
    rw [adjustment_clear none q fun u set _ names => other (names.1.symm.trans set)]
    exact exact.undo q ix n alloc bound

theorem Exact.created {key nsems : Int} (exact : Exact s l) (consistent : Consistent info s)
    (found : firstFree info s = some semid) (positive : 0 < nsems) :
    Exact (Sem.created semid key nsems s) (l.create fun i => !(s.sema i).alloc && ((Sem.created semid key nsems s).sema i).alloc) := by
  obtain ⟨-, free⟩ := firstFree_eq_some found
  have size : (BitVec.ofInt 16 nsems).toNat ≤ nsems.toNat := by
    rw [BitVec.toNat_ofInt]
    omega
  have old : ∀ ix, ix ≠ semid → (Sem.created semid key nsems s).sema ix = s.sema ix := fun ix other => Function.update_of_ne other _ _
  have mine : (Sem.created semid key nsems s).sema semid = _ := Function.update_self _ _ _
  have fresh : ∀ ix, (!(s.sema ix).alloc && ((Sem.created semid key nsems s).sema ix).alloc) = true ↔ ix = semid := by
    intro ix
    by_cases here : ix = semid
    · rw [here, mine, free]
      exact iff_of_true rfl rfl
    · rw [old ix here, Bool.not_and_self]
      exact iff_of_false nofun here
  constructor
  · intro ix n alloc bound
    show (((if s.semtot ≤ ((Sem.created semid key nsems s).sema ix).base + n ∧
        ((Sem.created semid key nsems s).sema ix).base + n < s.semtot + nsems.toNat then _ else _ : Semaphore)).semval.toNat : Int) =
      if (!(s.sema ix).alloc && ((Sem.created semid key nsems s).sema ix).alloc) = true then 0 else l.value ix n
    by_cases here : ix = semid
    · rw [here, mine] at bound
      rw [if_pos ((fresh ix).mpr here), here, mine, if_pos]
      · rfl
      · have bound : n < (BitVec.ofInt 16 nsems).toNat := bound
        exact ⟨Nat.le_add_right _ _, Nat.add_lt_add_left (bound.trans_le size) _⟩
    · rw [if_neg ((fresh ix).not.mpr here)]
      rw [old ix here] at alloc bound ⊢
      have inside := consistent.pool.inside ix alloc
      rw [if_neg (by omega)]
      exact exact.value ix n alloc bound
  · intro q ix n alloc bound
    show (adjustment s q ix n).toInt =
      if (!(s.sema ix).alloc && ((Sem.created semid key nsems s).sema ix).alloc) = true then 0 else l.undo q ix n
    by_cases here : ix = semid
    · rw [if_pos ((fresh ix).mpr here), here, adjustment, total_eq_zero]
      · rfl
      · intro u member names
        have live := (live_iff consistent.undo).mp consistent.live q u member
        have alive : (s.sema u.id).alloc = true := live.1
        rw [names.1, free] at alive
        cases alive
    · rw [old ix here] at alloc bound
      rw [if_neg ((fresh ix).not.mpr here)]
      exact exact.undo q ix n alloc bound

/-! ## Exit -/

/-- A value after an adjustment at exit, as an integer. -/
theorem exitVal_exact {adjval : BitVec 16} {x : Semaphore} (fits : (x.semval.toNat : Int) + adjval.toInt < 2 ^ 16) :
    ((exitVal adjval x).semval.toNat : Int) = max 0 ((x.semval.toNat : Int) + adjval.toInt) := by
  rw [exitVal]
  by_cases clipped : adjval.toInt < 0 ∧ (x.semval.toNat : Int) < -adjval.toInt
  · rw [if_pos clipped, max_eq_left (by omega)]
    rfl
  · have possible : 0 ≤ (x.semval.toNat : Int) + adjval.toInt := by omega
    obtain ⟨m, carry⟩ := addVal_carry possible
    rw [if_neg clipped, max_eq_right possible]
    show ((x.semval + adjval).toNat : Int) = _
    omega

theorem exitVal_zero (x : Semaphore) : exitVal 0 x = x := by
  rw [exitVal, if_neg (fun both => absurd both.1 (by decide)), addVal_zero]

/-- The adjustments of a process change each semaphore once. -/
theorem exitEnts_values (ok : EntOk ents) (pool : PoolOk info s) (live : ∀ u ∈ ents, u.Live s)
    (small : ∀ ix, (s.sema ix).alloc = true → (s.sema ix).nsems.toNat ≤ 2 ^ 15) (outcome : exitEnts ents s = some s') :
    ∀ ix n, (s.sema ix).alloc = true → n < (s.sema ix).nsems.toNat →
      (s'.sem ((s.sema ix).base + n)).semval =
        (exitVal (total ix (BitVec.ofNat 16 n) ents) (s.sem ((s.sema ix).base + n))).semval := by
  induction ents generalizing s with
  | nil =>
      intro ix n _ _
      cases outcome
      rw [total, exitVal_zero]
  | cons u rest ih =>
      intro ix n alloc bound
      obtain ⟨apart, -, ok'⟩ := (entOk_cons).mp ok
      obtain ⟨alive, inside⟩ := live u List.mem_cons_self
      have size := small u.id alive
      have value : u.num.toInt = u.num.toNat := by
        rw [BitVec.toInt_eq_toNat_cond, if_pos (by omega)]
      rw [exitEnts] at outcome
      simp only at outcome
      rw [if_neg (by rw [alive]; rintro ⟨⟩), if_neg (by rw [value]; omega), value] at outcome
      have place : ((s.sema u.id).base + (u.num.toNat : Int)).toNat = (s.sema u.id).base + u.num.toNat := by omega
      rw [place] at outcome
      have later := @ih (wakeup u.id
        { s with
          sem := Function.update s.sem ((s.sema u.id).base + u.num.toNat)
            (exitVal u.adjval (s.sem ((s.sema u.id).base + u.num.toNat))) })
        ok' (pool.congr rfl rfl) (fun v member => live v (List.mem_cons_of_mem _ member)) small outcome ix n alloc bound
      have named : u.Names ix (BitVec.ofNat 16 n) ↔ u.id = ix ∧ u.num.toNat = n := by
        refine and_congr_right fun _ => ?_
        have narrow := small ix alloc
        rw [BitVec.toNat_eq, BitVec.toNat_ofNat, Nat.mod_eq_of_lt (by omega)]
      have here := pool.place_inj alloc alive bound inside
      rw [total]
      refine later.trans ?_
      show (exitVal _ (Function.update s.sem _ _ ((s.sema ix).base + n))).semval = _
      by_cases mine : u.id = ix ∧ u.num.toNat = n
      · have none : total ix (BitVec.ofNat 16 n) rest = 0 := by
          have names := named.mpr mine
          exact total_eq_zero fun v member same => apart v member ⟨same.1.trans names.1.symm, same.2.trans names.2.symm⟩
        rw [here.mpr ⟨mine.1.symm, mine.2.symm⟩, Function.update_self, if_pos (named.mpr mine), none, exitVal_zero, add_zero]
      · rw [Function.update_of_ne fun same => mine ⟨(here.mp same).1.symm, (here.mp same).2.symm⟩, if_neg (named.not.mpr mine), zero_add]

/-- The structure of a process is gone, and the others are as they were. -/
theorem adjustment_release {i : Nat} (ok : UndoOk info s.semu s.semuList) (found : findUndo p s = some i)
    (semu : s'.semu = Function.update s.semu i { s.semu i with proc := none }) (semuList : s'.semuList = s.semuList.erase i)
    (q : Proc) (ix n : Nat) : adjustment s' q ix n = if q = p then 0 else adjustment s q ix n := by
  obtain ⟨member, owner⟩ := (findUndo_eq_some ok).mp found
  have ok' : UndoOk info s'.semu s'.semuList := by
    rw [semu, semuList]
    exact ok.release i
  have kept : ∀ j, j ∈ s'.semuList ↔ j ≠ i ∧ j ∈ s.semuList := by
    intro j
    rw [semuList]
    exact ok.nodup.mem_erase_iff
  have same : ∀ j, j ≠ i → s'.semu j = s.semu j := by
    intro j other
    rw [semu]
    exact Function.update_of_ne other _ _
  rw [adjustment, adjustment]
  by_cases own : q = p
  · rw [if_pos own, own, entries_of_none]
    · rfl
    · intro j jMem mine
      obtain ⟨other, old⟩ := (kept j).mp jMem
      rw [same j other] at mine
      exact other (ok.owners j old i member (mine.trans owner.symm))
  · rw [if_neg own]
    congr 1
    cases there : findUndo q s with
    | none =>
        rw [entries_of_none ((findUndo_eq_none).mp there), entries_of_none]
        intro j jMem mine
        obtain ⟨other, old⟩ := (kept j).mp jMem
        rw [same j other] at mine
        exact (findUndo_eq_none).mp there j old mine
    | some j =>
        obtain ⟨jMem, jOwner⟩ := (findUndo_eq_some ok).mp there
        have other : j ≠ i := by
          rintro rfl
          exact own (Option.some.inj (jOwner.symm.trans owner))
        rw [entries_of_owner ok jMem jOwner, entries_of_owner ok' ((kept j).mpr ⟨other, jMem⟩) ((same j other).symm ▸ jOwner), same j other]

/-- An adjustment that does not leave the range of a value. -/
theorem exit_fits (consistent : Consistent info s) (config : info.semmns ≤ 2 ^ 15)
    (fits : ∀ u ∈ entries s p, ((semval s u.id u.num.toNat).toNat : Int) + u.adjval.toInt < 2 ^ 16)
    (alloc : (s.sema ix).alloc = true) (bound : n < (s.sema ix).nsems.toNat) :
    ((semval s ix n).toNat : Int) + (adjustment s p ix n).toInt < 2 ^ 16 := by
  have narrow := consistent.small config alloc
  by_cases named : ∃ u ∈ entries s p, u.Names ix (BitVec.ofNat 16 n)
  · obtain ⟨u, member, rfl, num⟩ := named
    have fit := fits u member
    rw [num, BitVec.toNat_ofNat, Nat.mod_eq_of_lt (by omega)] at fit
    rw [adjustment, (entries_ok consistent.undo p).1.total_eq member ⟨rfl, num⟩]
    exact fit
  · rw [adjustment, total_eq_zero fun u member names => named ⟨u, member, names⟩]
    have small := (semval s ix n).isLt
    show ((semval s ix n).toNat : Int) + 0 < 2 ^ 16
    omega

theorem Exact.exit (exact : Exact s l) (consistent : Consistent info s) (config : info.semmns ≤ 2 ^ 15)
    (fits : ∀ u ∈ entries s p, ((semval s u.id u.num.toNat).toNat : Int) + u.adjval.toInt < 2 ^ 16)
    (outcome : semexit p s = some s') : Exact s' (l.exit p) := by
  have after : ∀ ix n, (s.sema ix).alloc = true → n < (s.sema ix).nsems.toNat →
      ((exitVal (adjustment s p ix n) (s.sem ((s.sema ix).base + n))).semval.toNat : Int) = max 0 (l.value ix n + l.undo p ix n) := by
    intro ix n alloc bound
    rw [← exact.value ix n alloc bound, ← exact.undo p ix n alloc bound]
    exact exitVal_exact (exit_fits consistent config fits alloc bound)
  rw [semexit] at outcome
  cases found : findUndo p s with
  | none =>
      rw [found] at outcome
      cases outcome
      have zero : ∀ ix n, adjustment s p ix n = 0 := by
        intro ix n
        rw [adjustment, entries, found]
        rfl
      constructor
      · intro ix n alloc bound
        have value := after ix n alloc bound
        rw [zero, exitVal_zero] at value
        exact value
      · intro q ix n alloc bound
        show _ = if q = p then 0 else l.undo q ix n
        by_cases own : q = p
        · rw [if_pos own, own, zero]
          rfl
        · rw [if_neg own]
          exact exact.undo q ix n alloc bound
  | some i =>
      rw [found] at outcome
      obtain ⟨member, owner⟩ := (findUndo_eq_some consistent.undo).mp found
      have live := consistent.live i member
      have small : ∀ ix, (s.sema ix).alloc = true → (s.sema ix).nsems.toNat ≤ 2 ^ 15 := fun ix alloc => consistent.small config alloc
      obtain ⟨s₁, result, sema, -, semu, semuList⟩ := exitEnts_spec live small
      have values := exitEnts_values (consistent.undo.ents i member).1 consistent.pool live small result
      simp only [result, Option.map_some] at outcome
      cases outcome
      have undos := @adjustment_release info s
        { s₁ with semu := Function.update s₁.semu i { s₁.semu i with proc := none }, semuList := s₁.semuList.erase i } p i
        consistent.undo found (by rw [semu]) (by rw [semuList])
      constructor
      · intro ix n alloc bound
        have alloc : (s.sema ix).alloc = true := sema ▸ alloc
        have bound : n < (s.sema ix).nsems.toNat := sema ▸ bound
        have value := after ix n alloc bound
        rw [adjustment, entries_of_owner consistent.undo member owner, ← values ix n alloc bound] at value
        show ((s₁.sem ((s₁.sema ix).base + n)).semval.toNat : Int) = _
        rw [sema]
        exact value
      · intro q ix n alloc bound
        have alloc : (s.sema ix).alloc = true := sema ▸ alloc
        have bound : n < (s.sema ix).nsems.toNat := sema ▸ bound
        show _ = if q = p then 0 else l.undo q ix n
        rw [undos]
        by_cases own : q = p
        · rw [if_pos own, if_pos own]
          rfl
        · rw [if_neg own, if_neg own]
          exact exact.undo q ix n alloc bound

/-! ## Runs -/

/-- A command that is taken. -/
theorem sysSemctl_takes {cmd : Cmd} {ipcperm : Option Errno} :
    (takes info id ipcperm s = false ∧ sysSemctl info id cmd ipcperm s = s) ∨
      takes info id ipcperm s = true ∧ exists? id s = true ∧
        sysSemctl info id cmd ipcperm s =
          match cmd with
          | .rmid => rmid info (ipcidToIx id) s
          | .setval semnum val copyin =>
              if semnum < 0 ∨ (s.sema (ipcidToIx id)).nsems.toNat ≤ semnum then s
              else if copyin ≠ none then s
              else setval (ipcidToIx id) semnum.toNat (val.truncate 16) s
          | .setall vals => setall (ipcidToIx id) vals s := by
  rw [takes, sysSemctl.eq_def]
  by_cases range : info.semmni ≤ ipcidToIx id
  · rw [if_pos range, decide_eq_false (Nat.not_lt.mpr range)]
    exact .inl ⟨rfl, rfl⟩
  · rw [if_neg range, decide_eq_true (Nat.not_le.mp range)]
    cases alive : exists? id s with
    | false => exact .inl ⟨rfl, rfl⟩
    | true =>
        rw [if_neg (show ¬(true = false) from (by rintro ⟨⟩))]
        cases ipcperm with
        | some eval => exact .inl ⟨rfl, rfl⟩
        | none => exact .inr ⟨rfl, rfl, rfl⟩

theorem Exact.semctl (exact : Exact s l) (consistent : Consistent info s) (config : info.semmns ≤ 2 ^ 15) {cmd : Cmd}
    {ipcperm : Option Errno} (fits : InRange info s (.semctl id cmd ipcperm)) :
    Exact (sysSemctl info id cmd ipcperm s) (record info s (.semctl id cmd ipcperm) none (sysSemctl info id cmd ipcperm s) l) := by
  obtain ⟨refused, outcome⟩ | ⟨taken, alive, outcome⟩ := @sysSemctl_takes info s id cmd ipcperm
  · rw [outcome, record.eq_def]
    simp only [refused, Bool.false_eq_true, if_false]
    exact exact
  · have alloc := exists?_alloc alive
    rw [outcome, record.eq_def]
    simp only [taken, if_true]
    cases cmd with
    | rmid => exact exact.rmid consistent.pool alloc
    | setall vals => exact exact.setall consistent.pool alloc vals
    | setval semnum val copyin =>
        simp only
        by_cases range : semnum < 0 ∨ ((s.sema (ipcidToIx id)).nsems.toNat : Int) ≤ semnum
        · rw [if_pos range, if_neg (by omega)]
          exact exact
        · rw [if_neg range]
          cases copyin with
          | some eval =>
              rw [if_pos (show some eval ≠ none from nofun), if_neg fun all => nomatch all.2.2]
              exact exact
          | none =>
              have inside : 0 ≤ semnum ∧ semnum < (s.sema (ipcidToIx id)).nsems.toNat ∧ (none : Option Errno) = none :=
                ⟨by omega, by omega, rfl⟩
              obtain ⟨low, high, leads⟩ := fits taken inside
              rw [if_neg (show ¬(none : Option Errno) ≠ none from fun some => some rfl), if_pos inside]
              exact exact.setval consistent alloc (by omega) (consistent.small config alloc) low high leads

/-- A step that stays in the ranges does to the system what is entered. -/
theorem Exact.step {call : Call} {out : Option Outcome} (exact : Exact s l) (consistent : Consistent info s)
    (config : info.semmns ≤ 2 ^ 15) (fits : InRange info s call) (outcome : step info s call = some (s', out)) :
    Exact s' (record info s call out s' l) := by
  have small : ∀ ix, (s.sema ix).alloc = true → (s.sema ix).nsems.toNat ≤ 2 ^ 15 := fun ix alloc => consistent.small config alloc
  cases call with
  | semget key nsems creat excl ipcperm =>
      cases outcome
      obtain same | ⟨semid, found, positive, -, same⟩ := sysSemget_cases info key nsems creat excl ipcperm s
      · rw [record, same]
        have none : ∀ ix, (!(s.sema ix).alloc && (s.sema ix).alloc) = false := fun ix => Bool.not_and_self _
        simp only [none]
        exact exact
      · rw [record, same]
        exact exact.created consistent found positive
  | semop p id sops ipcperm copyin =>
      obtain ⟨tried, alive, -, result⟩ | ⟨-, eval, result⟩ := sysSemop_cases info p id sops ipcperm copyin s
      · have alloc := exists?_alloc alive
        obtain ⟨next, out', passes, passed⟩ := semopPass_spec consistent.undo (small _ alloc) p sops false
        rw [Sem.step, result, passes] at outcome
        cases outcome
        have after := exact.passed consistent alloc small (fits p id sops tried) passed
        cases out' with
        | returned eval => cases eval <;> exact after
        | slept => exact after
      · rw [Sem.step, result] at outcome
        cases outcome
        exact exact
  | resume index interrupted =>
      obtain ⟨-, result⟩ | ⟨w, there, -, ⟨-, -, result⟩ | ⟨-, -, result⟩ | ⟨tried, alive, result⟩⟩ :=
        resume_cases info index interrupted s
      · rw [result] at outcome
        cases outcome
        exact exact
      · rw [result] at outcome
        cases outcome
        exact exact.congr rfl (fun _ _ _ _ => rfl) fun _ _ _ => rfl
      · rw [result] at outcome
        cases outcome
        exact exact.congr rfl (fun _ _ _ _ => awake_semval index w s _) fun _ _ _ => rfl
      · have alloc := exists?_alloc alive
        have woken : Consistent info (awake index w s) := consistent.frame rfl rfl rfl rfl
        have values : ∀ x, ((awake index w s).sem x).semval = (s.sem x).semval := awake_semval index w s
        have exact' : Exact (awake index w s) l := exact.congr rfl (fun _ _ _ _ => values _) fun _ _ _ => rfl
        obtain ⟨next, out', passes, passed⟩ := semopPass_spec woken.undo (small _ alloc) w.proc w.sops w.doUndos
        rw [result, passes] at outcome
        cases outcome
        obtain ⟨inRange, sums⟩ := fits w.proc w.id w.sops tried
        have fits' : SemopInRange w.proc (ipcidToIx w.id) w.sops (awake index w s) := by
          refine ⟨fun overruns => inRange (overruns.congr fun x => (values x).symm), fun allowed n bound => ?_⟩
          have fit := sums (allowed_congr (fun x => (values x).symm) allowed) n bound
          rw [semval] at fit ⊢
          rw [values]
          exact fit
        have after := exact'.passed woken alloc small fits' passed
        cases out' with
        | returned eval =>
            cases eval with
            | none =>
                rw [record.eq_def]
                simp only [there]
                exact after
            | some _ => exact after
        | slept => exact after
  | semctl id cmd ipcperm =>
      cases outcome
      exact exact.semctl consistent config fits
  | exit p =>
      rw [Sem.step] at outcome
      cases result : semexit p s with
      | none =>
          rw [result] at outcome
          cases outcome
      | some next =>
          rw [result] at outcome
          cases outcome
          exact exact.exit consistent config fits result

/-- A step of the system with its ledger. -/
def Enters (info : Seminfo) (source : System × Ledger) (call : Call) (target : System × Ledger) : Prop :=
  ∃ out, step info source.1 call = some (target.1, out) ∧ target.2 = record info source.1 call out target.1 source.2

/-- In every run whose steps stay in the ranges, the values of all semaphores and the entries of all
processes are those of the ledger. -/
theorem sums_exact {sema : Nat → SemidDs} {sem : Nat → Semaphore} {semu : Nat → SemUndo} {l₀ : Ledger} {calls : List Call}
    (config : info.semmns ≤ 2 ^ 15)
    (run : Run (fun source call target => InRange info source.1 call ∧ Enters info source call target)
      (seminit sema sem semu, l₀) calls (s, l)) : Exact s l := by
  have both : Consistent info s ∧ Exact s l := by
    refine @Run.invariant _ _ _ (fun state => Consistent info state.1 ∧ Exact state.1 state.2) ?_ _ _ _ run
      ⟨.init info sema sem semu, ⟨nofun, nofun⟩⟩
    rintro ⟨before, books⟩ ⟨next, books'⟩ call ⟨consistent, exact⟩ ⟨fits, out, outcome, entered⟩
    obtain ⟨next', out', outcome', consistent'⟩ := consistent.step config call
    rw [outcome] at outcome'
    cases outcome'
    have after := exact.step consistent config fits outcome
    rw [← entered] at after
    exact ⟨consistent', after⟩
  exact both.2

/-- Memory before `seminit`. -/
def booted : System := seminit (fun _ => ⟨false, 0, 0, 0, 0⟩) (fun _ => ⟨0, 0, 0, 0⟩) (fun _ => ⟨none, []⟩)

/-- The system with one set of two semaphores. -/
def onePair : System := (sysSemget seminfo 0 2 false false none booted).1

/-- The ledger at that time. -/
def noEntries : Ledger := ⟨fun _ _ => 0, fun _ _ _ => 0⟩

theorem onePair_enters : Enters seminfo (booted, noEntries) (.semget 0 2 false false none)
    (onePair, record seminfo booted (.semget 0 2 false false none) none onePair noEntries) :=
  ⟨none, rfl, rfl⟩

/-- A semaphore is raised with an undo. -/
theorem sums_exact_raised : ∃ s l, semval s 0 0 = 1 ∧ adjustment s 7 0 0 = -1 ∧ Exact s l := by
  let call : Call := .semop 7 0x10000#32 [⟨0, 1, false, true⟩] none none
  let next := ((step seminfo onePair call).get (by decide)).1
  let out := ((step seminfo onePair call).get (by decide)).2
  let books := record seminfo booted (.semget 0 2 false false none) none onePair noEntries
  have second : Enters seminfo (onePair, books) call (next, record seminfo onePair call out next books) :=
    ⟨out, (@Option.some_get _ (step seminfo onePair call) (by decide)).symm, rfl⟩
  have creates : InRange seminfo booted (.semget 0 2 false false none) := by
    rintro p id sops ⟨⟩
  have fits : InRange seminfo onePair call := by
    rintro p id sops ⟨⟩
    refine ⟨not_overruns_of_allowed ⟨by decide, by decide, trivial⟩, fun _ n bound => ?_⟩
    have few : n < 2 := bound
    match n, few with
    | 0, _ => exact ⟨by decide, by decide, by decide⟩
    | 1, _ => exact ⟨by decide, by decide, by decide⟩
  refine ⟨next, record seminfo onePair call out next books, by decide, by decide, ?_⟩
  exact sums_exact (show seminfo.semmns ≤ 2 ^ 15 by decide)
    (.cons ⟨creates, onePair_enters⟩ (.cons ⟨fits, second⟩ (.nil _)))

/-- A semaphore is raised three times, and the third time its value gets smaller. -/
theorem raised_value_wraps :
    ∃ s l, (∃ calls, Run (Enters seminfo) (booted, noEntries) calls (s, l)) ∧ (s.sema 0).alloc = true ∧
      semval s 0 0 = 32765 ∧ l.value 0 0 = 98301 ∧ ¬Exact s l := by
  let call : Call := .semop 7 0x10000#32 [⟨0, 32767, false, false⟩, ⟨0, 32767, false, false⟩, ⟨0, 32767, false, false⟩] none none
  let next := ((step seminfo onePair call).get (by decide)).1
  let out := ((step seminfo onePair call).get (by decide)).2
  let books := record seminfo booted (.semget 0 2 false false none) none onePair noEntries
  let after := record seminfo onePair call out next books
  have second : Enters seminfo (onePair, books) call (next, after) := ⟨out, (@Option.some_get _ (step seminfo onePair call) (by decide)).symm, rfl⟩
  have low : semval next 0 0 = 32765 := by decide
  have high : after.value 0 0 = 98301 := by decide
  refine ⟨next, after, ⟨_, .cons onePair_enters (.cons second (.nil _))⟩, by decide, low, high, ?_⟩
  intro exact
  have same := exact.value 0 0 (by decide) (by decide)
  rw [low, high] at same
  exact absurd same (by decide)

end Dragonfly.Kern.Sem
