import Dragonfly.Hammer.Fifo.Fold

/-!
# Which REDO records are executed

Stage 2 keeps a tree of the TERM records found in front of the nominal range.  A
key stays in the tree for good; only its list of offsets is consumed.  So a REDO
record is skipped as soon as any TERM with its key lies in front of the nominal
range, be it in front of the record or behind it.
-/

namespace Dragonfly.Hammer.Fifo

open Dragonfly.Lib

/-- What `hammer_rterm_rb_cmp` compares. -/
structure TermKey where
  objid : Nat
  localization : Nat
  flags : Nat
  /-- Zero for a TERM_TRUNC. -/
  offset : Nat
  deriving DecidableEq, Repr

def RTerm.key (rterm : RTerm) : TermKey :=
  { objid := rterm.objid, localization := rterm.localization, flags := rterm.flags
    offset := if rterm.flags = redoTermTrunc then 0 else rterm.offset }

theorem RTerm.same_iff {first second : RTerm} :
    first.same second = true ↔ first.key = second.key := by
  simp only [RTerm.same, RTerm.key, decide_eq_true_eq, TermKey.mk.injEq]
  constructor
  · rintro ⟨objid, localization, flags, offset⟩
    refine ⟨objid, localization, flags, ?_⟩
    rw [← flags]
    split
    · rfl
    · rename_i write
      exact offset.resolve_left write
  · rintro ⟨objid, localization, flags, offset⟩
    refine ⟨objid, localization, flags, ?_⟩
    rw [← flags] at offset
    split at offset
    · rename_i trunc
      exact .inl trunc
    · exact .inr offset

namespace Record

/-- The key a TERM record is filed under. -/
def termKey (record : Record) : Option TermKey :=
  match record.body with
  | .redo objid offset _ flags localization _ _ =>
      if flags = redoTermWrite ∨ flags = redoTermTrunc then
        some (RTerm.key { objid, localization, flags, offset, termList := [] })
      else none
  | _ => none

/-- The key of the TERM record that cancels a WRITE or TRUNC record. -/
def runKey (record : Record) : Option TermKey :=
  match record.body with
  | .redo objid offset _ flags localization _ _ =>
      if flags = redoWrite ∨ flags = redoTrunc then
        some (RTerm.key
          { objid, localization, offset, termList := []
            flags := if flags = redoWrite then redoTermWrite else redoTermTrunc })
      else none
  | _ => none

end Record

/-- A TERM record with this key is among the records. -/
def Terminated (key : TermKey) (records : List Record) : Bool :=
  records.any (·.termKey = some key)

/-! ## The tree -/

/-- Offsets of the TERM records of a key. -/
def termOffsets (key : TermKey) (placed : List (Nat × Record)) : List Nat :=
  (placed.filter (·.2.termKey = some key)).map Prod.fst

/-- The list of offsets the tree holds for a key. -/
def lookup (root : List RTerm) (key : TermKey) : Option (List Nat) :=
  (root.find? (·.key = key)).map RTerm.termList

theorem rtermFind_eq (key : RTerm) (root : List RTerm) :
    (rtermFind key root).map RTerm.termList = lookup root key.key := by
  have same : (fun rterm : RTerm => rterm.same key) = fun rterm => decide (rterm.key = key.key) := by
    funext rterm
    rw [Bool.eq_iff_iff, RTerm.same_iff, decide_eq_true_eq]
  rw [rtermFind, lookup, same]

theorem lookup_cons (rterm : RTerm) (root : List RTerm) (key : TermKey) :
    lookup (rterm :: root) key =
      if rterm.key = key then some rterm.termList else lookup root key := by
  simp only [lookup, List.find?_cons]
  by_cases same : rterm.key = key
  · simp [same]
  · simp [same]

theorem lookup_record (entry : RTerm) (offset : Nat) (root : List RTerm) (key : TermKey) :
    lookup (rtermRecord entry offset root) key =
      if entry.key = key then some (offset :: (lookup root key).getD []) else lookup root key := by
  induction root with
  | nil =>
      have keyEq : RTerm.key { entry with termList := [offset] } = entry.key := rfl
      simp only [rtermRecord, lookup_cons, keyEq]
      rfl
  | cons rterm root ih =>
      have keyEq : ∀ offsets, RTerm.key { rterm with termList := offsets } = rterm.key :=
        fun _ => rfl
      simp only [rtermRecord]
      by_cases same : rterm.key = entry.key
      · rw [if_pos ((RTerm.same_iff).mpr same)]
        simp only [lookup_cons, keyEq, same]
        by_cases here : entry.key = key
        · simp [here]
        · simp [here]
      · rw [if_neg (fun found => same ((RTerm.same_iff).mp found))]
        simp only [lookup_cons, ih]
        by_cases here : entry.key = key
        · have different : rterm.key ≠ key := fun equal => same (equal.trans here.symm)
          simp [here, different]
        · simp [here]

theorem lookup_pop (entry : RTerm) (root : List RTerm) (key : TermKey) :
    lookup (rtermPop entry root) key =
      if entry.key = key then (lookup root key).map List.tail else lookup root key := by
  induction root with
  | nil => simp [rtermPop, lookup]
  | cons rterm root ih =>
      have keyEq : ∀ offsets, RTerm.key { rterm with termList := offsets } = rterm.key :=
        fun _ => rfl
      simp only [rtermPop]
      by_cases same : rterm.key = entry.key
      · rw [if_pos ((RTerm.same_iff).mpr same)]
        simp only [lookup_cons, keyEq, same]
        by_cases here : entry.key = key
        · simp [here]
        · simp [here]
      · rw [if_neg (fun found => same ((RTerm.same_iff).mp found))]
        simp only [lookup_cons, ih]
        by_cases here : entry.key = key
        · have different : rterm.key ≠ key := fun equal => same (equal.trans here.symm)
          simp [here, different]
        · simp [here]

/-- `root` knows the keys terminated in `known` and the offsets of the TERM
records still ahead. -/
def Tracks (root : List RTerm) (known : List Record) (ahead : List (Nat × Record)) : Prop :=
  ∀ key, lookup root key =
    if Terminated key known then some (termOffsets key ahead) else none

/-! ## Collecting -/

/-- Collect without looking at sequence numbers. -/
def collectTerms : List (Nat × Record) → Redo → Redo
  | [], redo => redo
  | (offset, record) :: records, redo =>
      collectTerms records (recoverRedoRec redo offset record)

theorem recoverRedoRec_of_none {redo : Redo} {offset : Nat} {record : Record}
    (noTerm : record.termKey = none) : recoverRedoRec redo offset record = redo := by
  unfold recoverRedoRec
  unfold Record.termKey at noTerm
  split
  · rename_i objid place bytes flags localization mtime data body
    rw [body] at noTerm
    dsimp only at noTerm
    split at noTerm
    · contradiction
    · rename_i other
      rw [if_pos (not_or.mp other)]
  · rfl

theorem recoverRedoRec_of_some {redo : Redo} {offset : Nat} {record : Record} {key : TermKey}
    (term : record.termKey = some key) :
    ∃ entry : RTerm, entry.key = key ∧ recoverRedoRec redo offset record =
      { redo with
        root := rtermRecord entry offset redo.root
        collected := redo.collected ++ [record] } := by
  unfold Record.termKey at term
  unfold recoverRedoRec
  cases body : record.body with
  | redo objid place bytes flags localization mtime data =>
      rw [body] at term
      dsimp only at term ⊢
      split at term
      · rename_i kind
        refine ⟨_, Option.some.inj term, ?_⟩
        rw [if_neg]
        intro neither
        exact kind.elim neither.1 neither.2
      · contradiction
  | _ =>
      rw [body] at term
      contradiction

theorem collectTerms_append (first second : List (Nat × Record)) (redo : Redo) :
    collectTerms (first ++ second) redo = collectTerms second (collectTerms first redo) := by
  induction first generalizing redo with
  | nil => rfl
  | cons head tail ih => exact ih _

theorem terminated_cons (key : TermKey) (record : Record) (records : List Record) :
    Terminated key (record :: records) =
      (decide (record.termKey = some key) || Terminated key records) := rfl

/-- Scanning backwards through `placed` files all its TERMs in forward order. -/
theorem collectTerms_tracks (placed : List (Nat × Record)) :
    Tracks (collectTerms placed.reverse {}).root (placed.map Prod.snd) placed := by
  induction placed with
  | nil =>
      intro key
      rfl
  | cons head rest ih =>
      obtain ⟨offset, record⟩ := head
      intro key
      have known := ih key
      rw [List.reverse_cons, collectTerms_append, List.map_cons, terminated_cons]
      simp only [collectTerms]
      cases kind : record.termKey with
      | none =>
          rw [recoverRedoRec_of_none kind, known]
          simp [termOffsets, kind]
      | some found =>
          obtain ⟨entry, entryKey, filed⟩ :=
            @recoverRedoRec_of_some (collectTerms rest.reverse {}) offset record found kind
          rw [filed, lookup_record, entryKey, known]
          by_cases here : found = key
          · subst here
            have unfiled : Terminated found (rest.map Prod.snd) = false →
                termOffsets found rest = [] := by
              intro none
              simp only [Terminated, List.any_map, List.any_eq_false] at none
              simp only [termOffsets, List.map_eq_nil_iff, List.filter_eq_nil_iff]
              exact none
            cases later : Terminated found (rest.map Prod.snd) with
            | true => simp [termOffsets, kind]
            | false =>
                have empty := unfiled later
                simp only [termOffsets, List.map_eq_nil_iff] at empty
                simp [termOffsets, kind, empty]
          · simp [here, termOffsets, kind]

theorem collectTerms_collected (placed : List (Nat × Record)) (redo : Redo) :
    (collectTerms placed redo).collected =
        redo.collected ++ (placed.map Prod.snd).filter (·.termKey.isSome) ∧
      (collectTerms placed redo).executed = redo.executed := by
  induction placed generalizing redo with
  | nil => simp [collectTerms]
  | cons head rest ih =>
      obtain ⟨offset, record⟩ := head
      obtain ⟨collected, executed⟩ := ih (recoverRedoRec redo offset record)
      simp only [collectTerms]
      rw [collected, executed]
      cases kind : record.termKey with
      | none => simp [recoverRedoRec_of_none kind, kind]
      | some key =>
          obtain ⟨entry, _, filed⟩ := @recoverRedoRec_of_some redo offset record key kind
          simp [filed, kind]

/-! ## Running -/

/-- What stage 2 executes: a WRITE or TRUNC no TERM of `known` names. -/
def selected (known : List Record) (record : Record) : Bool :=
  match record.runKey with
  | some key => !Terminated key known
  | none => false

theorem recoverRedoRun_of_run {redo : Redo} {offset : Nat} {record : Record} {key : TermKey}
    (runs : record.runKey = some key) :
    recoverRedoRun redo offset record =
      .done (if (lookup redo.root key).isSome then redo
        else { redo with executed := redo.executed ++ [record] }) := by
  unfold Record.runKey at runs
  unfold recoverRedoRun
  cases body : record.body with
  | redo objid place bytes flags localization mtime data =>
      rw [body] at runs
      dsimp only at runs ⊢
      split at runs
      · rename_i kind
        have keyEq := Option.some.inj runs
        rw [if_pos kind, ← keyEq, ← rtermFind_eq]
        split <;> rename_i found <;> simp [found]
      · contradiction
  | _ =>
      rw [body] at runs
      contradiction

theorem recoverRedoRun_of_term {redo : Redo} {offset : Nat} {record : Record} {key : TermKey}
    (term : record.termKey = some key) :
    ∃ entry : RTerm, entry.key = key ∧ recoverRedoRun redo offset record =
      match lookup redo.root key with
      | some (fifoOffset :: _) =>
          .kkassert (fifoOffset = offset) (.done { redo with root := rtermPop entry redo.root })
      | _ => .done redo := by
  unfold Record.termKey at term
  unfold recoverRedoRun
  cases body : record.body with
  | redo objid place bytes flags localization mtime data =>
      rw [body] at term
      dsimp only at term ⊢
      split at term
      · rename_i kind
        have keyEq := Option.some.inj term
        have noRun : ¬ (flags = redoWrite ∨ flags = redoTrunc) := by
          rcases kind with rfl | rfl <;> decide
        refine ⟨{ objid, localization, flags, offset := place, termList := [] }, keyEq, ?_⟩
        rw [if_neg noRun, if_pos kind, ← keyEq, ← rtermFind_eq]
        cases found : rtermFind { objid, localization, flags, offset := place, termList := [] }
            redo.root with
        | none => rfl
        | some rterm =>
            obtain ⟨a, b, c, d, termList⟩ := rterm
            cases termList with
            | nil => rfl
            | cons first others => rfl
      · contradiction
  | _ =>
      rw [body] at term
      contradiction

theorem recoverRedoRun_of_none {redo : Redo} {offset : Nat} {record : Record}
    (noRun : record.runKey = none) (noTerm : record.termKey = none) :
    recoverRedoRun redo offset record = .done redo := by
  unfold Record.runKey at noRun
  unfold Record.termKey at noTerm
  unfold recoverRedoRun
  cases body : record.body with
  | redo objid place bytes flags localization mtime data =>
      rw [body] at noRun noTerm
      dsimp only at noRun noTerm ⊢
      split at noRun
      · contradiction
      · rename_i run
        split at noTerm
        · contradiction
        · rename_i term
          rw [if_neg run, if_neg term]
  | _ => rfl

/-- No record both cancels and is cancelled. -/
theorem runKey_eq_none_of_term {record : Record} {key : TermKey}
    (term : record.termKey = some key) : record.runKey = none := by
  unfold Record.termKey at term
  unfold Record.runKey
  cases body : record.body with
  | redo objid place bytes flags localization mtime data =>
      rw [body] at term
      dsimp only at term ⊢
      split at term
      · rename_i kind
        have noRun : ¬ (flags = redoWrite ∨ flags = redoTrunc) := by
          rcases kind with rfl | rfl <;> decide
        rw [if_neg noRun]
      · contradiction
  | _ => rfl

/-- Running through the TERMs that were collected: each is found at the head of
its list, and what is executed depends on the keys alone. -/
theorem runAll_tracks {known : List Record} (ahead : List (Nat × Record)) (redo : Redo)
    (subset : ∀ entry ∈ ahead, entry.2 ∈ known) (tracks : Tracks redo.root known ahead) :
    ∃ root, Tracks root known [] ∧ runAll ahead redo =
      .done { redo with
        root
        executed := redo.executed ++ (ahead.map Prod.snd).filter (selected known) } := by
  induction ahead generalizing redo with
  | nil => exact ⟨redo.root, tracks, by simp [runAll]⟩
  | cons head rest ih =>
      obtain ⟨offset, record⟩ := head
      have restSubset : ∀ entry ∈ rest, entry.2 ∈ known :=
        fun entry member => subset entry (List.mem_cons_of_mem _ member)
      simp only [runAll, List.map_cons]
      cases term : record.termKey with
      | some key =>
          have present : Terminated key known = true := by
            rw [Terminated, List.any_eq_true]
            exact ⟨record, subset _ List.mem_cons_self, by simp [term]⟩
          have listed : lookup redo.root key = some (offset :: termOffsets key rest) := by
            rw [tracks key, present]
            simp [termOffsets, term]
          obtain ⟨entry, entryKey, run⟩ := @recoverRedoRun_of_term redo offset record key term
          rw [listed] at run
          simp only [decide_true, Outcome.kkassert, if_true] at run
          rw [run]
          simp only [Outcome.bind]
          have next : Tracks (rtermPop entry redo.root) known rest := by
            intro other
            rw [lookup_pop, entryKey, tracks other]
            by_cases here : key = other
            · subst here
              simp [present, termOffsets, term]
            · simp [here, termOffsets, term]
          obtain ⟨root, done, result⟩ :=
            ih { redo with root := rtermPop entry redo.root } restSubset next
          refine ⟨root, done, ?_⟩
          rw [result]
          have skipped : selected known record = false := by
            simp [selected, runKey_eq_none_of_term term]
          simp [skipped]
      | none =>
          have next : Tracks redo.root known rest := by
            intro other
            rw [tracks other]
            simp [termOffsets, term]
          cases run : record.runKey with
          | none =>
              rw [recoverRedoRun_of_none run term]
              obtain ⟨root, done, result⟩ := ih redo restSubset next
              refine ⟨root, done, ?_⟩
              simp only [Outcome.bind]
              rw [result]
              simp [selected, run]
          | some key =>
              rw [recoverRedoRun_of_run run]
              simp only [Outcome.bind]
              have found : (lookup redo.root key).isSome = Terminated key known := by
                rw [tracks key]
                cases Terminated key known <;> rfl
              rw [found]
              cases cancelled : Terminated key known with
              | true =>
                  obtain ⟨root, done, result⟩ := ih redo restSubset next
                  refine ⟨root, done, ?_⟩
                  simp only [if_true]
                  rw [result]
                  simp [selected, run, cancelled]
              | false =>
                  obtain ⟨root, done, result⟩ :=
                    ih { redo with executed := redo.executed ++ [record] } restSubset next
                  refine ⟨root, done, ?_⟩
                  simp only [Bool.false_eq_true, if_false]
                  rw [result]
                  simp [selected, run, cancelled]

/-- In the nominal range no TERM is left to find. -/
theorem runAll_nominal {known : List Record} (placed : List (Nat × Record)) (redo : Redo)
    (tracks : Tracks redo.root known []) :
    runAll placed redo = .done { redo with
      executed := redo.executed ++ (placed.map Prod.snd).filter (selected known) } := by
  induction placed generalizing redo with
  | nil => simp [runAll]
  | cons head rest ih =>
      obtain ⟨offset, record⟩ := head
      simp only [runAll, List.map_cons]
      cases term : record.termKey with
      | some key =>
          obtain ⟨entry, _, run⟩ := @recoverRedoRun_of_term redo offset record key term
          have idle : recoverRedoRun redo offset record = .done redo := by
            rw [run, tracks key]
            cases Terminated key known <;> rfl
          rw [idle]
          simp only [Outcome.bind]
          rw [ih redo tracks]
          simp [selected, runKey_eq_none_of_term term]
      | none =>
          cases run : record.runKey with
          | none =>
              rw [recoverRedoRun_of_none run term]
              simp only [Outcome.bind]
              rw [ih redo tracks]
              simp [selected, run]
          | some key =>
              rw [recoverRedoRun_of_run run]
              simp only [Outcome.bind]
              have found : (lookup redo.root key).isSome = Terminated key known := by
                rw [tracks key]
                cases Terminated key known <;> rfl
              rw [found]
              cases cancelled : Terminated key known with
              | true =>
                  simp only [if_true]
                  rw [ih redo tracks]
                  simp [selected, run, cancelled]
              | false =>
                  simp only [Bool.false_eq_true, if_false]
                  rw [ih { redo with executed := redo.executed ++ [record] } tracks]
                  simp [selected, run, cancelled]

end Dragonfly.Hammer.Fifo
