import Dragonfly.Kern.Crc32
import Dragonfly.Hammer.Directory.Effect

/-!
# Lookup of directory entries

A lookup scans the keys from the name key to `max_iterations` above it.  When every
name that is added has an iteration space inside the positive keys, the scan finds
exactly the entry of the name.
-/

namespace Dragonfly.Hammer.Directory

open Dragonfly.Lib

/-- The entries of a directory have different names, and each of them lies in the
iteration space of its name. -/
structure Findable (crc32 : Name → UInt32) (alg : Dirhash) (entries : List Entry) : Prop where
  names : (entries.map Entry.name).Nodup
  low : ∀ entry ∈ entries, namekey crc32 alg entry.name ≤ entry.key
  high : ∀ entry ∈ entries, entry.key < namekey crc32 alg entry.name + maxIterations alg
  fits : ∀ entry ∈ entries, Fits crc32 alg entry.name

/-- For an addition, the iteration space of the name ends inside the positive keys. -/
def NameFits (crc32 : Name → UInt32) (system : System) : Label → Prop
  | .add index name _ => ∀ dir ∈ system.dirs[index]?, Fits crc32 dir.alg name
  | _ => True

/-- The steps of runs that add such names only. -/
def FittingMove (crc32 : Name → UInt32) (system : System) (label : Label) (next : System) : Prop :=
  NameFits crc32 system label ∧ Move crc32 system label next

/-- Every directory can be searched by name. -/
structure Searchable (crc32 : Name → UInt32) (system : System) : Prop where
  ok : system.Ok
  findable : ∀ dir ∈ system.dirs, Findable crc32 dir.alg dir.visible

variable {crc32 : Name → UInt32} {alg : Dirhash} {entries others : List Entry} {entry : Entry}
  {system next : System} {label : Label} {dir : Dir} {error : Option Errno}

namespace Findable

theorem perm (findable : Findable crc32 alg entries) (same : others.Perm entries) :
    Findable crc32 alg others where
  names := (same.map _).nodup_iff.mpr findable.names
  low other member := findable.low other (same.mem_iff.mp member)
  high other member := findable.high other (same.mem_iff.mp member)
  fits other member := findable.fits other (same.mem_iff.mp member)

theorem cons (findable : Findable crc32 alg entries)
    (newName : ∀ other ∈ entries, other.name ≠ entry.name)
    (low : namekey crc32 alg entry.name ≤ entry.key)
    (high : entry.key < namekey crc32 alg entry.name + maxIterations alg)
    (fits : Fits crc32 alg entry.name) : Findable crc32 alg (entry :: entries) where
  names := by
    rw [List.map_cons, List.nodup_cons]
    refine ⟨?_, findable.names⟩
    rintro member
    obtain ⟨other, otherMem, same⟩ := List.mem_map.mp member
    exact newName other otherMem same
  low := List.forall_mem_cons.mpr ⟨low, findable.low⟩
  high := List.forall_mem_cons.mpr ⟨high, findable.high⟩
  fits := List.forall_mem_cons.mpr ⟨fits, findable.fits⟩

theorem tail (findable : Findable crc32 alg (entry :: entries)) : Findable crc32 alg entries where
  names := (List.nodup_cons.mp findable.names).2
  low := (List.forall_mem_cons.mp findable.low).2
  high := (List.forall_mem_cons.mp findable.high).2
  fits := (List.forall_mem_cons.mp findable.fits).2

/-- The entry of a name is the only one. -/
theorem eq_of_name (findable : Findable crc32 alg entries) {other : Entry} (member : entry ∈ entries)
    (otherMem : other ∈ entries) (same : entry.name = other.name) : entry = other :=
  List.inj_on_of_nodup_map findable.names member otherMem same

/-- An entry lies in the range that a lookup of its name scans. -/
theorem mem_range (findable : Findable crc32 alg entries) (member : entry ∈ entries) :
    namekey crc32 alg entry.name ≤ entry.key ∧ entry.key ≤ keyEnd crc32 alg entry.name := by
  have high := findable.high entry member
  rw [(findable.fits entry member).keyEnd_eq]
  exact ⟨findable.low entry member, by omega⟩

end Findable

/-- The lookup finds exactly the entry of the name. -/
theorem nresolve_eq_some_iff (findable : Findable crc32 dir.alg dir.visible) (name : Name)
    (objId : ObjId) :
    nresolve crc32 dir name = some objId ↔ ∃ key, (⟨key, name, objId⟩ : Entry) ∈ dir.visible := by
  rw [nresolve, Option.map_eq_some_iff]
  constructor
  · rintro ⟨entry, found, rfl⟩
    have is := List.find?_some found
    simp only [decide_eq_true_eq] at is
    refine ⟨entry.key, ?_⟩
    rw [← is.2.2]
    exact List.mem_of_find?_eq_some found
  · rintro ⟨key, member⟩
    have inRange := findable.mem_range member
    cases found : dir.visible.find? fun entry =>
        namekey crc32 dir.alg name ≤ entry.key ∧ entry.key ≤ keyEnd crc32 dir.alg name ∧
          entry.name = name with
    | none =>
        have none := List.find?_eq_none.mp found _ member
        simp only [decide_eq_true_eq] at none
        exact absurd ⟨inRange.1, inRange.2, trivial⟩ none
    | some other =>
        have is := List.find?_some found
        simp only [decide_eq_true_eq] at is
        have same := findable.eq_of_name (List.mem_of_find?_eq_some found) member is.2.2
        exact ⟨other, rfl, congrArg Entry.objId same⟩

/-- The assertion of the key search holds for a name whose iteration space fits. -/
theorem addDirectory_ne_panic {index : Nat} {name : Name} {ip : ObjId}
    (fits : Fits crc32 dir.alg name) : addDirectory crc32 system index dir name ip ≠ .panic := by
  have low := (namekey_bounds crc32 dir.alg name).1
  obtain ⟨result, searched⟩ := findKey_returns dir.used (by omega) fits
  rw [addDirectory, searched]
  cases result <;> simp [Outcome.bind]

theorem Searchable.write {index : Nat} {written : Dir} (searchable : Searchable crc32 system)
    (writes : Written system next index dir written) (ok : next.Ok)
    (findable : Findable crc32 written.alg written.visible) : Searchable crc32 next := by
  refine ⟨ok, ?_⟩
  intro other member
  rw [writes.dirs] at member
  rcases List.mem_or_eq_of_mem_set member with old | rfl
  · exact searchable.findable other old
  · exact findable

theorem Searchable.step (searchable : Searchable crc32 system)
    (move : FittingMove crc32 system label next) : Searchable crc32 next := by
  obtain ⟨fits, called, error, step⟩ := move
  obtain ⟨effect, ok, -⟩ := step_effect searchable.ok called step
  cases effect with
  | kept writes entries nlinks =>
      have before := searchable.findable _ (List.mem_of_getElem? writes.found)
      exact searchable.write writes ok (writes.alg ▸ before.perm entries)
  | @added _ name ip key dir _ _ writes low high entries nlinks =>
      have before := searchable.findable _ (List.mem_of_getElem? writes.found)
      have cons : Findable crc32 dir.alg (⟨key, name, ip⟩ :: dir.visible) :=
        before.cons (called.2 _ writes.found) low high (fits _ writes.found)
      exact searchable.write writes ok (writes.alg ▸ cons.perm entries)
  | removed writes target entries nlinks =>
      have before := searchable.findable _ (List.mem_of_getElem? writes.found)
      exact searchable.write writes ok (writes.alg ▸ (before.perm entries.symm).tail)
  | failed nlinks targets dirs => exact ⟨ok, dirs ▸ searchable.findable⟩
  | full found full nlinks targets dirs => exact ⟨ok, dirs ▸ searchable.findable⟩

/-- In every run that adds only names whose iteration spaces fit, in every directory:
the range of a lookup is a range of positive keys exactly for the names that fit, it
contains the keys of the entries of the name, a lookup finds exactly the entry of the
name, and no search for a key fails its assertion. -/
theorem entries_are_found {start : System} {labels : List Label}
    (searchable : Searchable crc32 start) (run : Run (FittingMove crc32) start labels system) :
    ∀ dir ∈ system.dirs,
      (∀ name, (0 < namekey crc32 dir.alg name ∧
        namekey crc32 dir.alg name ≤ keyEnd crc32 dir.alg name) ↔ Fits crc32 dir.alg name) ∧
      (∀ entry ∈ dir.visible, Fits crc32 dir.alg entry.name ∧
        namekey crc32 dir.alg entry.name ≤ entry.key ∧ entry.key ≤ keyEnd crc32 dir.alg entry.name) ∧
      (∀ name objId, nresolve crc32 dir name = some objId ↔
        ∃ key, (⟨key, name, objId⟩ : Entry) ∈ dir.visible) ∧
      ∀ index name ip, Fits crc32 dir.alg name →
        addDirectory crc32 system index dir name ip ≠ .panic := by
  have reached : Searchable crc32 system :=
    run.invariant (fun searchable move => searchable.step move) searchable
  intro dir member
  have findable := reached.findable dir member
  refine ⟨fun name => lookup_range_iff, ?_, nresolve_eq_some_iff findable, ?_⟩
  · intro entry visible
    exact ⟨findable.fits entry visible, findable.mem_range visible⟩
  · intro index name ip fits
    exact addDirectory_ne_panic fits

theorem bare_searchable : Searchable crc32 bare := by
  refine ⟨bare_ok, ?_⟩
  intro dir member
  rw [List.mem_singleton.mp member]
  constructor <;> simp [bareDir, Dir.visible, Dir.unhidden]

theorem entries_are_found_bare : ∃ system,
    Run (FittingMove Kern.crc32) bare [.add 0 [97] 2] system ∧
      ∀ dir ∈ system.dirs, nresolve Kern.crc32 dir [97] = some 2 ↔
        ∃ key, (⟨key, [97], 2⟩ : Entry) ∈ dir.visible := by
  have fits : NameFits Kern.crc32 bare (.add 0 [97] 2) := by
    rintro dir ⟨⟩
    decide
  have run : Run (FittingMove Kern.crc32) bare [.add 0 [97] 2] _ :=
    .cons ⟨fits, called_bare [97], _, .add rfl (addDirectory_bare Kern.crc32 [97])⟩ (.nil _)
  refine ⟨_, run, ?_⟩
  intro dir member
  exact (entries_are_found bare_searchable run dir member).2.2.1 [97] 2

/-- The file name `txan.ugri5g` -/
def topName : Name := [116, 120, 97, 110, 46, 117, 103, 114, 105, 53, 103]

/-- The entry of this name is created and not found. -/
theorem topName_not_found : ∃ next,
    Called bare (.add 0 topName 2) ∧ Step Kern.crc32 bare (.add 0 topName 2) none next ∧
      ∃ dir, next.dirs = [dir] ∧ keyEnd Kern.crc32 dir.alg topName < 0 ∧
        (∃ key, (⟨key, topName, 2⟩ : Entry) ∈ dir.visible) ∧
        nresolve Kern.crc32 dir topName = none := by
  have tooHigh : ¬Fits Kern.crc32 .alg1 topName := by decide +kernel
  have negative := keyEnd_neg tooHigh
  have low := (namekey_bounds Kern.crc32 .alg1 topName).1
  refine ⟨_, called_bare topName, .add rfl (addDirectory_bare Kern.crc32 topName), _, rfl, negative,
    ⟨_, List.mem_append.mpr (.inl List.mem_cons_self)⟩, ?_⟩
  rw [nresolve, Option.map_eq_none_iff, List.find?_eq_none]
  intro entry _ inRange
  simp only [decide_eq_true_eq] at inRange
  have above : namekey Kern.crc32 .alg1 topName ≤ entry.key := inRange.1
  have below : entry.key ≤ keyEnd Kern.crc32 .alg1 topName := inRange.2.1
  omega

end Dragonfly.Hammer.Directory
