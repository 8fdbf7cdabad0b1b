import Dragonfly.Lib.Run
import Dragonfly.Kern.Sem.Semop

/-!
# The pool

The sets have the pool to themselves, without gaps, and every entry of an undo structure is for a
semaphore of a set that exists.  No step panics.
-/

namespace Dragonfly.Kern.Sem

open Dragonfly.Lib

variable {info : Seminfo} {s s' : System} {p : Proc} {id : BitVec 32} {sops : List Sembuf} {out : Outcome} {semid x : Nat}

/-! ## The invariant -/

/-- The slices of the sets that exist are disjoint and cover the pool up to `semtot`. -/
structure PoolOk (info : Seminfo) (s : System) : Prop where
  fits : s.semtot ≤ info.semmns
  ids : ∀ ix, (s.sema ix).alloc = true → ix < info.semmni
  wide : ∀ ix, (s.sema ix).alloc = true → 0 < (s.sema ix).nsems.toNat
  inside : ∀ ix, (s.sema ix).alloc = true → (s.sema ix).base + (s.sema ix).nsems.toNat ≤ s.semtot
  apart : ∀ ix jx, (s.sema ix).alloc = true → (s.sema jx).alloc = true → ix ≠ jx →
    (s.sema ix).base + (s.sema ix).nsems.toNat ≤ (s.sema jx).base ∨ (s.sema jx).base + (s.sema jx).nsems.toNat ≤ (s.sema ix).base
  tiled : ∀ x < s.semtot, ∃ ix, (s.sema ix).alloc = true ∧ (s.sema ix).base ≤ x ∧ x < (s.sema ix).base + (s.sema ix).nsems.toNat

/-- The entry is for a semaphore of a set that exists. -/
def Undo.Live (u : Undo) (s : System) : Prop := (s.sema u.id).alloc = true ∧ u.num.toNat < (s.sema u.id).nsems.toNat

/-- The sets and the undo structures are in order. -/
structure Consistent (info : Seminfo) (s : System) : Prop where
  pool : PoolOk info s
  undo : UndoOk info s.semu s.semuList
  live : ∀ i ∈ s.semuList, ∀ u ∈ (s.semu i).ent, u.Live s

/-- An entry on the list is one of a process. -/
theorem live_iff (ok : UndoOk info s.semu s.semuList) {P : Undo → Prop} :
    (∀ i ∈ s.semuList, ∀ u ∈ (s.semu i).ent, P u) ↔ ∀ p, ∀ u ∈ entries s p, P u := by
  constructor
  · intro all p u member
    rw [entries] at member
    cases found : findUndo p s with
    | none =>
        rw [found] at member
        cases member
    | some i =>
        rw [found] at member
        exact all i ((findUndo_eq_some ok).mp found).1 u member
  · intro all i member u uMem
    obtain ⟨p, owner⟩ := Option.ne_none_iff_exists'.mp (ok.owned i member)
    refine all p u ?_
    rw [entries_of_owner ok member owner]
    exact uMem

/-! ## Steps -/

theorem PoolOk.congr (pool : PoolOk info s) (sema : s'.sema = s.sema) (semtot : s'.semtot = s.semtot) : PoolOk info s' := by
  obtain ⟨fits, ids, wide, inside, apart, tiled⟩ := pool
  constructor
  · rw [semtot]
    exact fits
  · rw [sema]
    exact ids
  · rw [sema]
    exact wide
  · rw [sema, semtot]
    exact inside
  · rw [sema]
    exact apart
  · rw [sema, semtot]
    exact tiled

/-- The sets are the same, and every entry is an old one or for a semaphore of a set. -/
theorem Consistent.of_undo (consistent : Consistent info s) (sema : s'.sema = s.sema) (semtot : s'.semtot = s.semtot)
    (ok : UndoOk info s'.semu s'.semuList) (old : ∀ q, ∀ u ∈ entries s' q, u ∈ entries s q ∨ u.Live s) : Consistent info s' where
  pool := consistent.pool.congr sema semtot
  undo := ok
  live := by
    rw [live_iff ok]
    intro q u member
    have live : u.Live s := (old q u member).elim ((live_iff consistent.undo).mp consistent.live q u) fun live => live
    rw [Undo.Live, sema]
    exact live

theorem Consistent.small (consistent : Consistent info s) (config : info.semmns ≤ 2 ^ 15) (alive : (s.sema semid).alloc = true) :
    (s.sema semid).nsems.toNat ≤ 2 ^ 15 := by
  have inside := consistent.pool.inside semid alive
  have fits := consistent.pool.fits
  omega

/-- A pass of `semop` for a set that exists. -/
theorem Consistent.passed {doUndos : Bool} (consistent : Consistent info s) (alive : (s.sema (ipcidToIx id)).alloc = true)
    (passed : Passed info p id sops doUndos s s' out) : Consistent info s' := by
  cases passed with
  | @done s₁ allowed undone =>
      have frame : s₁.sema = s.sema ∧ s₁.semtot = s.semtot := by
        rw [undone.frame]
        exact ⟨rfl, rfl⟩
      have old : ∀ q, ∀ u ∈ entries s₁ q, u ∈ entries s q ∨ u.Live s := by
        intro q u member
        by_cases mine : q = p
        · rw [mine] at member ⊢
          refine (undone.names u member).imp_right ?_
          rintro ⟨sop, sopMem, set, num⟩
          rw [Undo.Live, set, num]
          exact ⟨alive, allowed.inside sop (List.mem_reverse.mp sopMem)⟩
        · rw [undone.others mine] at member
          exact .inl member
      split
      · exact consistent.of_undo frame.1 frame.2 undone.ok old
      · exact consistent.of_undo frame.1 frame.2 undone.ok old
  | full eval allowed frame ok same =>
      refine consistent.of_undo (by rw [frame]) (by rw [frame]) ok fun q u member => .inl ?_
      have perm := (entries_ok consistent.undo q).1.perm_of_total (entries_ok ok q).1 fun id num => (same q id num).symm
      exact perm.mem_iff.mpr member
  | efbig here outside allowed => exact consistent.of_undo rfl rfl consistent.undo fun q u member => .inl member
  | again here inside allowed not => exact consistent
  | slept here waits inside allowed not => exact consistent.of_undo rfl rfl consistent.undo fun q u member => .inl member

/-- Entries go, and nothing else. -/
theorem Consistent.clear (consistent : Consistent info s) (semid : Nat) (semnum : Option Nat) :
    Consistent info (semundoClear semid semnum s) := by
  have less : ∀ i, ((semundoClear semid semnum s).semu i).ent.Subperm (s.semu i).ent := by
    intro i
    show (if i ∈ s.semuList then _ else s.semu i).ent.Subperm _
    split
    · exact clearEnt_subperm _ _ _ _ _
    · exact List.Subperm.refl _
  have proc : ∀ i, ((semundoClear semid semnum s).semu i).proc = (s.semu i).proc := by
    intro i
    show (if i ∈ s.semuList then _ else s.semu i).proc = _
    split <;> rfl
  obtain ⟨pool, undo, live⟩ := consistent
  refine ⟨pool.congr rfl rfl, ⟨undo.nodup, ?_, undo.pool, ?_, ?_, ?_⟩, ?_⟩
  · intro i member
    rw [proc]
    exact undo.owned i member
  · intro i bound owner
    rw [proc] at owner
    exact undo.active i bound owner
  · intro i iMem j jMem same
    rw [proc, proc] at same
    exact undo.owners i iMem j jMem same
  · intro i member
    obtain ⟨ok, fits⟩ := undo.ents i member
    exact ⟨ok.subperm (less i), (less i).length_le.trans fits⟩
  · intro i member u uMem
    exact live i member u ((less i).subset uMem)

/-- No entry for a set is left. -/
theorem clear_all (semid : Nat) (s : System) :
    ∀ i ∈ s.semuList, ∀ u ∈ ((semundoClear semid none s).semu i).ent, u.id ≠ semid := by
  intro i member u uMem
  have cleared : ((semundoClear semid none s).semu i).ent = clearEnt semid none (s.semu i).ent.length 0 (s.semu i).ent := by
    show (if i ∈ s.semuList then _ else s.semu i).ent = _
    rw [if_pos member]
  rw [cleared] at uMem
  exact @clearEnt_all semid _ [] (s.semu i).ent nofun (le_refl _) u uMem

theorem Consistent.wakeup (consistent : Consistent info s) (semid : Nat) : Consistent info (wakeup semid s) :=
  ⟨consistent.pool.congr rfl rfl, consistent.undo, consistent.live⟩

/-! ## Removal -/

/-- The loop of `IPC_RMID`. -/
theorem compact_apply (nsems count i : Nat) (sem : Nat → Semaphore) (x : Nat) :
    compact nsems count i sem x = if i ≤ x ∧ x < i + count then sem (x + nsems) else sem x := by
  induction count generalizing i sem with
  | zero =>
      rw [if_neg (by omega)]
      rfl
  | succ count ih =>
      rw [compact, ih]
      by_cases first : x = i
      · rw [first, if_neg (by omega), if_pos (by omega), Function.update_self]
      · by_cases later : i + 1 ≤ x ∧ x < i + 1 + count
        · rw [if_pos later, if_pos (by omega), Function.update_of_ne (by omega)]
        · rw [if_neg later, if_neg (by omega), Function.update_of_ne first]

/-- The system after the loops of `IPC_RMID`. -/
def removed (info : Seminfo) (semid : Nat) (s : System) : System :=
  { s with
    semtot := s.semtot - (s.sema semid).nsems.toNat
    sem := compact (s.sema semid).nsems.toNat (s.semtot - (s.sema semid).nsems.toNat - (s.sema semid).base) (s.sema semid).base s.sem
    sema := fun i =>
      if i = semid then { s.sema semid with alloc := false }
      else if i < info.semmni ∧ (s.sema i).alloc ∧ (s.sema semid).base < (s.sema i).base then
        { s.sema i with base := (s.sema i).base - (s.sema semid).nsems.toNat }
      else s.sema i }

theorem removed_alloc {ix : Nat} : ((removed info semid s).sema ix).alloc = true ↔ ix ≠ semid ∧ (s.sema ix).alloc = true := by
  show (if ix = semid then _ else if _ then _ else s.sema ix).alloc = true ↔ _
  by_cases same : ix = semid
  · rw [if_pos same]
    exact iff_of_false nofun fun both => both.1 same
  · rw [if_neg same]
    split <;> exact ⟨fun alive => ⟨same, alive⟩, And.right⟩

theorem removed_nsems {ix : Nat} : ((removed info semid s).sema ix).nsems = (s.sema ix).nsems := by
  show (if ix = semid then _ else if _ then _ else s.sema ix).nsems = _
  split
  · rename_i same
    rw [same]
  · split <;> rfl

theorem removed_seq {ix : Nat} : ((removed info semid s).sema ix).seq = (s.sema ix).seq := by
  show (if ix = semid then _ else if _ then _ else s.sema ix).seq = _
  split
  · rename_i same
    rw [same]
  · split <;> rfl

/-- Where another set begins when a set is removed. -/
theorem removed_base (pool : PoolOk info s) (alive : (s.sema semid).alloc = true) {ix : Nat} (other : ix ≠ semid)
    (alloc : (s.sema ix).alloc = true) :
    ((s.sema ix).base + (s.sema ix).nsems.toNat ≤ (s.sema semid).base ∧ ((removed info semid s).sema ix).base = (s.sema ix).base) ∨
      ((s.sema semid).base + (s.sema semid).nsems.toNat ≤ (s.sema ix).base ∧
        ((removed info semid s).sema ix).base = (s.sema ix).base - (s.sema semid).nsems.toNat) := by
  have wide := pool.wide ix alloc
  have wide' := pool.wide semid alive
  have base : ((removed info semid s).sema ix).base =
      if (s.sema semid).base < (s.sema ix).base then (s.sema ix).base - (s.sema semid).nsems.toNat else (s.sema ix).base := by
    show (if ix = semid then _ else if _ then _ else s.sema ix).base = _
    rw [if_neg other]
    by_cases behind : (s.sema semid).base < (s.sema ix).base
    · rw [if_pos ⟨pool.ids ix alloc, alloc, behind⟩, if_pos behind]
    · rw [if_neg fun all => behind all.2.2, if_neg behind]
  rw [base]
  obtain before | after := pool.apart ix semid alloc alive other
  · rw [if_neg (by omega)]
    exact .inl ⟨before, rfl⟩
  · rw [if_pos (by omega)]
    exact .inr ⟨after, rfl⟩

theorem PoolOk.removed (pool : PoolOk info s) (alive : (s.sema semid).alloc = true) : PoolOk info (removed info semid s) := by
  have semtot : (Sem.removed info semid s).semtot = s.semtot - (s.sema semid).nsems.toNat := rfl
  have inside' := pool.inside semid alive
  constructor
  · exact (Nat.sub_le _ _).trans pool.fits
  · exact fun ix alloc => pool.ids ix ((removed_alloc).mp alloc).2
  · intro ix alloc
    rw [removed_nsems]
    exact pool.wide ix ((removed_alloc).mp alloc).2
  · intro ix alloc
    obtain ⟨other, old⟩ := (removed_alloc).mp alloc
    have inside := pool.inside ix old
    rw [removed_nsems, semtot]
    obtain ⟨before, base⟩ | ⟨after, base⟩ := removed_base pool alive other old
    · rw [base]
      omega
    · rw [base]
      omega
  · intro ix jx allocI allocJ different
    obtain ⟨otherI, oldI⟩ := (removed_alloc).mp allocI
    obtain ⟨otherJ, oldJ⟩ := (removed_alloc).mp allocJ
    rw [removed_nsems, removed_nsems]
    have apart := pool.apart ix jx oldI oldJ different
    obtain ⟨placeI, baseI⟩ | ⟨placeI, baseI⟩ := removed_base pool alive otherI oldI
    · obtain ⟨placeJ, baseJ⟩ | ⟨placeJ, baseJ⟩ := removed_base pool alive otherJ oldJ
      · rw [baseI, baseJ]
        exact apart
      · rw [baseI, baseJ]
        omega
    · obtain ⟨placeJ, baseJ⟩ | ⟨placeJ, baseJ⟩ := removed_base pool alive otherJ oldJ
      · rw [baseI, baseJ]
        omega
      · rw [baseI, baseJ]
        omega
  · intro x bound
    rw [semtot] at bound
    by_cases low : x < (s.sema semid).base
    · obtain ⟨ix, alloc, start, stop⟩ := pool.tiled x (by omega)
      have other : ix ≠ semid := by
        rintro rfl
        omega
      refine ⟨ix, (removed_alloc).mpr ⟨other, alloc⟩, ?_⟩
      rw [removed_nsems]
      obtain ⟨before, base⟩ | ⟨after, base⟩ := removed_base pool alive other alloc
      · rw [base]
        exact ⟨start, stop⟩
      · omega
    · obtain ⟨ix, alloc, start, stop⟩ := pool.tiled (x + (s.sema semid).nsems.toNat) (by omega)
      have other : ix ≠ semid := by
        rintro rfl
        omega
      refine ⟨ix, (removed_alloc).mpr ⟨other, alloc⟩, ?_⟩
      rw [removed_nsems]
      obtain ⟨before, base⟩ | ⟨after, base⟩ := removed_base pool alive other alloc
      · omega
      · rw [base]
        omega

/-- Removal moves the semaphores of the other sets with their bases. -/
theorem removed_sem (pool : PoolOk info s) (alive : (s.sema semid).alloc = true) {ix n : Nat} (other : ix ≠ semid)
    (alloc : (s.sema ix).alloc = true) (bound : n < (s.sema ix).nsems.toNat) :
    (removed info semid s).sem (((removed info semid s).sema ix).base + n) = s.sem ((s.sema ix).base + n) := by
  have inside := pool.inside ix alloc
  show compact _ _ _ _ _ = _
  rw [compact_apply]
  obtain ⟨before, base⟩ | ⟨after, base⟩ := removed_base pool alive other alloc
  · rw [base, if_neg (by omega)]
  · rw [base, if_pos (by omega)]
    congr 1
    omega

theorem Consistent.rmid (consistent : Consistent info s) (alive : (s.sema semid).alloc = true) :
    Consistent info (rmid info semid s) := by
  have cleared := consistent.clear semid none
  refine ⟨(consistent.pool.removed alive).congr rfl rfl, cleared.undo, ?_⟩
  intro i member u uMem
  obtain ⟨alloc, bound⟩ : u.Live s := cleared.live i member u uMem
  have other : u.id ≠ semid := clear_all semid s i member u uMem
  refine ⟨(removed_alloc).mpr ⟨other, alloc⟩, ?_⟩
  show u.num.toNat < ((Sem.removed info semid s).sema u.id).nsems.toNat
  rw [removed_nsems]
  exact bound

/-! ## Creation -/

/-- The system with a new set at the end of the pool. -/
def created (semid : Nat) (key nsems : Int) (s : System) : System :=
  { s with
    sema := Function.update s.sema semid
      { alloc := true, key := key, seq := ((s.sema semid).seq + 1) &&& 0x7fff#16, nsems := BitVec.ofInt 16 nsems, base := s.semtot }
    semtot := s.semtot + nsems.toNat
    sem := fun i =>
      if s.semtot ≤ i ∧ i < s.semtot + nsems.toNat then { semval := 0, sempid := 0, semncnt := 0, semzcnt := 0 } else s.sem i }

/-- The set that is free first. -/
def firstFree (info : Seminfo) (s : System) : Option Nat := (List.range info.semmni).find? fun semid => !(s.sema semid).alloc

theorem firstFree_eq_some (found : firstFree info s = some semid) : semid < info.semmni ∧ (s.sema semid).alloc = false := by
  refine ⟨List.mem_range.mp (List.mem_of_find?_eq_some found), ?_⟩
  simpa using List.find?_some found

/-- `semget` creates a set or changes nothing. -/
theorem sysSemget_cases (info : Seminfo) (key nsems : Int) (creat excl : Bool) (ipcperm : Option Errno) (s : System) :
    (sysSemget info key nsems creat excl ipcperm s).1 = s ∨
      ∃ semid, firstFree info s = some semid ∧ 0 < nsems ∧ nsems ≤ (info.semmns : Int) - s.semtot ∧
        (sysSemget info key nsems creat excl ipcperm s).1 = created semid key nsems s := by
  rw [sysSemget]
  generalize makes : (if key = 0 ∨ creat = true then _ else _ : System × Except Errno (BitVec 32)) = create
  have create_cases : create.1 = s ∨ ∃ semid, firstFree info s = some semid ∧ 0 < nsems ∧
      nsems ≤ (info.semmns : Int) - s.semtot ∧ create.1 = created semid key nsems s := by
    rw [← makes]
    split
    · split
      · exact .inl rfl
      · rename_i range
        split
        · exact .inl rfl
        · rename_i room
          split
          · exact .inl rfl
          · rename_i semid found
            exact .inr ⟨semid, found, by omega, by omega, rfl⟩
    · exact .inl rfl
  split
  · exact create_cases
  · split
    · exact create_cases
    · split
      · exact .inl rfl
      · split
        · exact .inl rfl
        · split
          · exact .inl rfl
          · exact .inl rfl

theorem Consistent.created {key nsems : Int} (config : info.semmns ≤ 2 ^ 15) (consistent : Consistent info s)
    (found : firstFree info s = some semid) (positive : 0 < nsems)
    (room : nsems ≤ (info.semmns : Int) - s.semtot) : Consistent info (created semid key nsems s) := by
  have mine : (Sem.created semid key nsems s).sema semid =
      { alloc := true, key := key, seq := ((s.sema semid).seq + 1) &&& 0x7fff#16, nsems := BitVec.ofInt 16 nsems, base := s.semtot } :=
    Function.update_self _ _ _
  have old : ∀ ix, ix ≠ semid → (Sem.created semid key nsems s).sema ix = s.sema ix :=
    fun ix other => Function.update_of_ne other _ _
  have size : (BitVec.ofInt 16 nsems).toNat = nsems.toNat := by
    rw [BitVec.toNat_ofInt]
    omega
  have semtot : (Sem.created semid key nsems s).semtot = s.semtot + nsems.toNat := rfl
  obtain ⟨bound, free⟩ := firstFree_eq_some found
  obtain ⟨⟨fits, ids, wide, inside, apart, tiled⟩, undo, live⟩ := consistent
  have different : ∀ ix, (s.sema ix).alloc = true → ix ≠ semid := by
    rintro ix alloc rfl
    rw [free] at alloc
    cases alloc
  refine ⟨⟨?_, ?_, ?_, ?_, ?_, ?_⟩, undo, ?_⟩
  · rw [semtot]
    omega
  · intro ix alloc
    by_cases same : ix = semid
    · rw [same]
      exact bound
    · rw [old ix same] at alloc
      exact ids ix alloc
  · intro ix alloc
    by_cases same : ix = semid
    · rw [same, mine, size]
      omega
    · rw [old ix same] at alloc ⊢
      exact wide ix alloc
  · intro ix alloc
    by_cases same : ix = semid
    · rw [same, mine, size, semtot]
    · rw [old ix same] at alloc ⊢
      have := inside ix alloc
      rw [semtot]
      omega
  · intro ix jx allocI allocJ other
    by_cases sameI : ix = semid
    · have sameJ : jx ≠ semid := fun equal => other (sameI.trans equal.symm)
      rw [old jx sameJ] at allocJ ⊢
      have := inside jx allocJ
      rw [sameI, mine]
      exact .inr this
    · rw [old ix sameI] at allocI ⊢
      by_cases sameJ : jx = semid
      · have := inside ix allocI
        rw [sameJ, mine]
        exact .inl this
      · rw [old jx sameJ] at allocJ ⊢
        exact apart ix jx allocI allocJ other
  · intro x less
    rw [semtot] at less
    by_cases low : x < s.semtot
    · obtain ⟨ix, alloc, start, stop⟩ := tiled x low
      refine ⟨ix, ?_⟩
      rw [old ix (different ix alloc)]
      exact ⟨alloc, start, stop⟩
    · refine ⟨semid, ?_⟩
      rw [mine, size]
      exact ⟨rfl, Nat.not_lt.mp low, less⟩
  · intro i member u uMem
    obtain ⟨alloc, less⟩ := live i member u uMem
    rw [Undo.Live, old u.id (different u.id alloc)]
    exact ⟨alloc, less⟩

/-! ## Exit -/

/-- The adjustments of a process at its exit do not panic, and change values only. -/
theorem exitEnts_spec {ents : List Undo} (live : ∀ u ∈ ents, u.Live s) (small : ∀ ix, (s.sema ix).alloc = true →
    (s.sema ix).nsems.toNat ≤ 2 ^ 15) :
    ∃ s', exitEnts ents s = some s' ∧ s'.sema = s.sema ∧ s'.semtot = s.semtot ∧ s'.semu = s.semu ∧ s'.semuList = s.semuList := by
  induction ents generalizing s with
  | nil => exact ⟨s, rfl, rfl, rfl, rfl, rfl⟩
  | cons u rest ih =>
      obtain ⟨alloc, bound⟩ := live u List.mem_cons_self
      have size := small u.id alloc
      have value : u.num.toInt = u.num.toNat := by
        rw [BitVec.toInt_eq_toNat_cond, if_pos (by omega)]
      rw [exitEnts]
      simp only
      rw [if_neg (by rw [alloc]; nofun), if_neg (by rw [value]; omega)]
      obtain ⟨s', outcome, sema, semtot, semu, semuList⟩ := @ih (wakeup u.id
        { s with sem := Function.update s.sem _ (exitVal u.adjval (s.sem ((s.sema u.id).base + u.num.toInt).toNat)) })
        (fun v member => live v (List.mem_cons_of_mem _ member)) small
      exact ⟨s', outcome, sema, semtot, semu, semuList⟩

/-- The structure of a process is freed. -/
theorem UndoOk.release (ok : UndoOk info s.semu s.semuList) (i : Nat) :
    UndoOk info (Function.update s.semu i { s.semu i with proc := none }) (s.semuList.erase i) := by
  have kept : ∀ j, j ∈ s.semuList.erase i ↔ j ≠ i ∧ j ∈ s.semuList := fun j => ok.nodup.mem_erase_iff
  have same : ∀ j, j ≠ i → Function.update s.semu i { s.semu i with proc := none } j = s.semu j :=
    fun j other => Function.update_of_ne other _ _
  constructor
  · exact ok.nodup.erase i
  · intro j jMem
    obtain ⟨other, old⟩ := (kept j).mp jMem
    rw [same j other]
    exact ok.owned j old
  · exact fun j jMem => ok.pool j ((kept j).mp jMem).2
  · intro j bound owner
    by_cases gone : j = i
    · rw [gone, Function.update_self] at owner
      exact absurd rfl owner
    · rw [same j gone] at owner
      exact (kept j).mpr ⟨gone, ok.active j bound owner⟩
  · intro j jMem k kMem equal
    obtain ⟨otherJ, oldJ⟩ := (kept j).mp jMem
    obtain ⟨otherK, oldK⟩ := (kept k).mp kMem
    rw [same j otherJ, same k otherK] at equal
    exact ok.owners j oldJ k oldK equal
  · intro j jMem
    obtain ⟨other, old⟩ := (kept j).mp jMem
    rw [same j other]
    exact ok.ents j old

/-- Values and counts are not looked at. -/
theorem Consistent.frame (consistent : Consistent info s) (sema : s'.sema = s.sema) (semtot : s'.semtot = s.semtot)
    (semu : s'.semu = s.semu) (semuList : s'.semuList = s.semuList) : Consistent info s' := by
  refine ⟨consistent.pool.congr sema semtot, ?_, ?_⟩
  · rw [semu, semuList]
    exact consistent.undo
  · rw [semu, semuList]
    intro i member u uMem
    rw [Undo.Live, sema]
    exact consistent.live i member u uMem

theorem Consistent.values (consistent : Consistent info s) (sem : Nat → Semaphore) : Consistent info { s with sem := sem } :=
  consistent.frame rfl rfl rfl rfl

theorem Consistent.semexit (config : info.semmns ≤ 2 ^ 15) (consistent : Consistent info s) (p : Proc) :
    ∃ s', semexit p s = some s' ∧ Consistent info s' := by
  rw [Sem.semexit]
  cases found : findUndo p s with
  | none => exact ⟨s, rfl, consistent⟩
  | some i =>
      obtain ⟨member, -⟩ := (findUndo_eq_some consistent.undo).mp found
      obtain ⟨s₁, outcome, sema, semtot, semu, semuList⟩ :=
        exitEnts_spec (consistent.live i member) fun ix alloc => consistent.small config alloc
      have after : Consistent info s₁ := consistent.frame sema semtot semu semuList
      simp only [outcome, Option.map_some]
      refine ⟨_, rfl, after.pool.congr rfl rfl, after.undo.release i, ?_⟩
      intro j jMem u uMem
      obtain ⟨other, old⟩ := after.undo.nodup.mem_erase_iff.mp jMem
      have same : Function.update s₁.semu i { s₁.semu i with proc := none } j = s₁.semu j := Function.update_of_ne other _ _
      exact after.live j old u (same ▸ uMem)

/-! ## Runs -/

theorem exists?_alloc (alive : exists? id s = true) : (s.sema (ipcidToIx id)).alloc = true :=
  (Bool.and_eq_true_iff.mp alive).1

theorem Consistent.semctl (consistent : Consistent info s) (cmd : Cmd) (ipcperm : Option Errno) :
    Consistent info (sysSemctl info id cmd ipcperm s) := by
  rw [sysSemctl.eq_def]
  split
  · exact consistent
  · split
    · exact consistent
    · rename_i dead
      have alive := exists?_alloc (Bool.not_eq_false _ ▸ dead)
      split
      · exact consistent
      · cases cmd with
        | rmid => exact consistent.rmid alive
        | setval semnum val copyin =>
            simp only
            split
            · exact consistent
            · split
              · exact consistent
              · exact ((consistent.values _).clear _ _).wakeup _
        | setall vals => exact ((consistent.values _).clear _ _).wakeup _

theorem Consistent.step (config : info.semmns ≤ 2 ^ 15) (consistent : Consistent info s) (call : Call) :
    ∃ s' out, step info s call = some (s', out) ∧ Consistent info s' := by
  cases call with
  | semget key nsems creat excl ipcperm =>
      refine ⟨_, _, rfl, ?_⟩
      obtain same | ⟨semid, found, positive, room, same⟩ := sysSemget_cases info key nsems creat excl ipcperm s
      · rw [same]
        exact consistent
      · rw [same]
        exact consistent.created config found positive room
  | semop p id sops ipcperm copyin =>
      obtain ⟨-, alive, -, outcome⟩ | ⟨-, eval, outcome⟩ := sysSemop_cases info p id sops ipcperm copyin s
      · have alloc := exists?_alloc alive
        obtain ⟨s', out, result, passed⟩ := semopPass_spec consistent.undo (consistent.small config alloc) p sops false
        exact ⟨s', some out, by rw [Sem.step, outcome, result]; rfl, consistent.passed alloc passed⟩
      · exact ⟨s, _, by rw [Sem.step, outcome]; rfl, consistent⟩
  | resume index interrupted =>
      obtain ⟨-, outcome⟩ | ⟨w, -, -, ⟨-, -, outcome⟩ | ⟨-, -, outcome⟩ | ⟨-, alive, outcome⟩⟩ :=
        resume_cases info index interrupted s
      · exact ⟨s, _, outcome, consistent⟩
      · exact ⟨_, _, outcome, consistent.frame rfl rfl rfl rfl⟩
      · exact ⟨_, _, outcome, consistent.frame rfl rfl rfl rfl⟩
      · have alloc := exists?_alloc alive
        have awake : Consistent info (awake index w s) := consistent.frame rfl rfl rfl rfl
        obtain ⟨s', out, result, passed⟩ :=
          semopPass_spec awake.undo (awake.small config alloc) w.proc w.sops w.doUndos
        exact ⟨s', some out, by rw [outcome, result]; rfl, awake.passed alloc passed⟩
  | semctl id cmd ipcperm => exact ⟨_, _, rfl, consistent.semctl cmd ipcperm⟩
  | exit p =>
      obtain ⟨s', outcome, consistent'⟩ := consistent.semexit config p
      exact ⟨s', none, by rw [Sem.step, outcome]; rfl, consistent'⟩

theorem Consistent.init (info : Seminfo) (sema : Nat → SemidDs) (sem : Nat → Semaphore) (semu : Nat → SemUndo) :
    Consistent info (seminit sema sem semu) where
  pool :=
    { fits := Nat.zero_le _
      ids := nofun
      wide := nofun
      inside := nofun
      apart := nofun
      tiled := fun x less => absurd less (Nat.not_lt_zero x) }
  undo := UndoOk.init info semu
  live := nofun

/-- A step of the system. -/
def Steps (info : Seminfo) (s : System) (call : Call) (s' : System) : Prop := ∃ out, step info s call = some (s', out)

/-- In every run the slices of the sets are disjoint and cover the pool up to `semtot`, the undo
structures are in order and their entries are for semaphores that exist, no step panics, and
`IPC_RMID` leaves the semaphores of the other sets as they are. -/
theorem pool_and_undo_consistent {sema : Nat → SemidDs} {sem : Nat → Semaphore} {semu : Nat → SemUndo} {calls : List Call}
    (config : info.semmns ≤ 2 ^ 15) (run : Run (Steps info) (seminit sema sem semu) calls s) :
    Consistent info s ∧ (∀ call, (step info s call).isSome) ∧
      ∀ id ipcperm ix n, ix ≠ ipcidToIx id → (s.sema ix).alloc = true → n < (s.sema ix).nsems.toNat →
        ((sysSemctl info id .rmid ipcperm s).sema ix).alloc = true ∧
        ((sysSemctl info id .rmid ipcperm s).sema ix).nsems = (s.sema ix).nsems ∧
        (sysSemctl info id .rmid ipcperm s).sem (((sysSemctl info id .rmid ipcperm s).sema ix).base + n) =
          s.sem ((s.sema ix).base + n) := by
  have consistent : Consistent info s := by
    refine Run.invariant ?_ run (.init info sema sem semu)
    rintro before next call inv ⟨out, outcome⟩
    obtain ⟨next', out', outcome', inv'⟩ := inv.step config call
    rw [outcome] at outcome'
    cases outcome'
    exact inv'
  refine ⟨consistent, fun call => ?_, fun id ipcperm ix n other alloc bound => ?_⟩
  · obtain ⟨next, out, outcome, -⟩ := consistent.step config call
    rw [outcome]
    rfl
  · rw [sysSemctl]
    split
    · exact ⟨alloc, rfl, rfl⟩
    · split
      · exact ⟨alloc, rfl, rfl⟩
      · rename_i dead
        have alive := exists?_alloc (Bool.not_eq_false _ ▸ dead)
        split
        · exact ⟨alloc, rfl, rfl⟩
        · exact ⟨(removed_alloc).mpr ⟨other, alloc⟩, removed_nsems, removed_sem consistent.pool alive other alloc bound⟩

/-- A set is created, and its first semaphore is raised with an undo. -/
theorem pool_and_undo_consistent_raised :
    ∃ s, s.semtot = 2 ∧ (s.sem 0).semval = 1 ∧ (s.semu 0).ent = [⟨-1, 0, 0⟩] ∧ Consistent seminfo s := by
  let source := seminit (fun _ => ⟨false, 0, 0, 0, 0⟩) (fun _ => ⟨0, 0, 0, 0⟩) (fun _ => ⟨none, []⟩)
  let first := (sysSemget seminfo 0 2 false false none source).1
  let call : Call := .semop 7 0x10000#32 [⟨0, 1, false, true⟩] none none
  let second := ((step seminfo first call).get (by decide)).1
  have two : Steps seminfo first call second := ⟨_, (Option.some_get _).symm⟩
  refine ⟨second, by decide, by decide, by decide, ?_⟩
  exact (pool_and_undo_consistent (by decide)
    (.cons (show Steps seminfo source (.semget 0 2 false false none) first from ⟨none, rfl⟩) (.cons two (.nil _)))).1

end Dragonfly.Kern.Sem
