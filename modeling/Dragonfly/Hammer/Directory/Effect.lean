import Dragonfly.Hammer.Directory.Entries

/-!
# What a step does

Each call and each step of the backend is described once: it leaves the entries as they
are, adds one, takes one off or fails.  The invariants of runs are derived from this
description.
-/

namespace Dragonfly.Hammer.Directory

open Dragonfly.Lib

section FindKey

variable {used : Int → Bool} {iterations : Nat} {key found : Int}

/-- The assertion keeps the keys of the search positive, so that they do not wrap. -/
theorem succ_of_pos (low : 0 ≤ key) (high : key ≤ 0x7FFFFFFFFFFFFFFF) (positive : 0 < int64 (key + 1)) :
    int64 (key + 1) = key + 1 ∧ key + 1 ≤ 0x7FFFFFFFFFFFFFFF := by
  unfold int64 at positive ⊢
  rw [Int.bmod_def] at positive ⊢
  split at positive <;> split <;> omega

/-- The key that the search returns is unused and lies in the iteration space. -/
theorem findKey_some (low : 0 ≤ key) (high : key ≤ 0x7FFFFFFFFFFFFFFF)
    (done : findKey used iterations key = .done (some found)) :
    used found = false ∧ key ≤ found ∧ found < key + iterations := by
  induction iterations generalizing key with
  | zero => simp [findKey] at done
  | succ iterations ih =>
      rw [findKey] at done
      split at done
      · rw [Outcome.kkassert_eq_done_iff, decide_eq_true_eq] at done
        obtain ⟨positive, done⟩ := done
        obtain ⟨succ, bound⟩ := succ_of_pos low high positive
        split at done
        · cases done
        · rw [succ] at done
          have later := ih (by omega) bound done
          refine ⟨later.1, ?_, ?_⟩ <;> omega
      · rename_i unused
        obtain rfl := Option.some.inj (Outcome.done.inj done)
        refine ⟨by simpa using unused, Int.le_refl _, ?_⟩
        omega

/-- The search fails when every key of the iteration space is used. -/
theorem findKey_none (low : 0 ≤ key) (high : key ≤ 0x7FFFFFFFFFFFFFFF)
    (done : findKey used iterations key = .done none) :
    ∀ n < iterations, used (key + n) = true := by
  induction iterations generalizing key with
  | zero => simp
  | succ iterations ih =>
      rw [findKey] at done
      split at done
      · rename_i first
        rw [Outcome.kkassert_eq_done_iff, decide_eq_true_eq] at done
        obtain ⟨positive, done⟩ := done
        obtain ⟨succ, bound⟩ := succ_of_pos low high positive
        intro n small
        cases n with
        | zero => simpa using first
        | succ n =>
            rw [if_neg (by omega), succ] at done
            have shift : key + ((n + 1 : Nat) : Int) = key + 1 + n := by omega
            rw [shift]
            exact ih (by omega) bound done n (by omega)
      · cases done

/-- The search fails in a full iteration space that ends inside the positive keys. -/
theorem findKey_full (low : 0 ≤ key) (high : key + iterations ≤ 0x7FFFFFFFFFFFFFFF)
    (full : ∀ n < iterations, used (key + n) = true) : findKey used iterations key = .done none := by
  induction iterations generalizing key with
  | zero => rfl
  | succ iterations ih =>
      have first : used key = true := by simpa using full 0 (by omega)
      have succ : int64 (key + 1) = key + 1 := int64_of_range (by omega) (by omega)
      rw [findKey, if_pos first, succ, Outcome.kkassert_of (by omega), ih (by omega) (by omega)]
      · exact ite_self _
      · intro n small
        have shift : key + 1 + (n : Int) = key + ((n + 1 : Nat) : Int) := by omega
        rw [shift]
        exact full (n + 1) (by omega)

/-- The search takes the first key if it is unused. -/
theorem findKey_first (positive : 0 < iterations) (unused : used key = false) :
    findKey used iterations key = .done (some key) := by
  cases iterations with
  | zero => cases positive
  | succ iterations => simp [findKey, unused]

/-- No assertion fails as long as the iteration space ends inside the positive keys. -/
theorem findKey_returns (used : Int → Bool) (low : 0 ≤ key) (high : key + iterations ≤ 0x7FFFFFFFFFFFFFFF) :
    ∃ result, findKey used iterations key = .done result := by
  induction iterations generalizing key with
  | zero => exact ⟨none, rfl⟩
  | succ iterations ih =>
      rw [findKey]
      split
      · have succ : int64 (key + 1) = key + 1 := int64_of_range (by omega) (by omega)
        rw [succ, Outcome.kkassert_of (by omega)]
        split
        · exact ⟨none, rfl⟩
        · exact ih (by omega) (by push_cast at high; omega)
      · exact ⟨some key, rfl⟩

end FindKey

/-- The invariant of a file system. -/
structure System.Ok (system : System) : Prop where
  dirs : ∀ dir ∈ system.dirs, DirOk dir
  ids : ∀ dir ∈ system.dirs, ∀ record ∈ dir.recTree, record.id < system.fresh
  targets : ∀ ip, ∀ id ∈ system.targetList ip, id < system.fresh

/-- A directory is written. -/
structure Written (system next : System) (index : Nat) (dir written : Dir) : Prop where
  found : system.dirs[index]? = some dir
  dirs : next.dirs = system.dirs.set index written
  alg : written.alg = dir.alg

theorem System.Ok.dir_of_found {system : System} (ok : system.Ok) {index : Nat} {dir : Dir}
    (found : system.dirs[index]? = some dir) : DirOk dir :=
  ok.dirs dir (List.mem_of_getElem? found)

/-- Writing a directory keeps the invariant. -/
theorem System.Ok.write {system next : System} (ok : system.Ok) {index : Nat} {dir written : Dir}
    (writes : Written system next index dir written) (dirOk : DirOk written)
    (fresh : system.fresh ≤ next.fresh) (ids : ∀ record ∈ written.recTree, record.id < next.fresh)
    (targets : ∀ ip, ∀ id ∈ next.targetList ip, id < next.fresh) : next.Ok where
  dirs := by
    intro other member
    rw [writes.dirs] at member
    rcases List.mem_or_eq_of_mem_set member with old | rfl
    · exact ok.dirs other old
    · exact dirOk
  ids := by
    intro other member
    rw [writes.dirs] at member
    rcases List.mem_or_eq_of_mem_set member with old | rfl
    · intro record recordMem
      exact Nat.lt_of_lt_of_le (ok.ids other old record recordMem) fresh
    · exact ids
  targets := targets

/-- What a step does to the entries and to the link counts. -/
inductive Effect (crc32 : Name → UInt32) (system : System) :
    Label → Option Errno → System → Prop where
  | kept {label : Label} {index : Nat} {dir written : Dir} {next : System}
      (writes : Written system next index dir written)
      (entries : written.visible.Perm dir.visible) (nlinks : next.nlinks = system.nlinks) :
      Effect crc32 system label none next
  | added {index : Nat} {name : Name} {ip : ObjId} {key : Int} {dir written : Dir} {next : System}
      (writes : Written system next index dir written)
      (low : namekey crc32 dir.alg name ≤ key)
      (high : key < namekey crc32 dir.alg name + maxIterations dir.alg)
      (entries : written.visible.Perm (⟨key, name, ip⟩ :: dir.visible))
      (nlinks : next.nlinks = (system.link ip 1).nlinks) :
      Effect crc32 system (.add index name ip) none next
  | removed {index : Nat} {place : Place} {ip : Option ObjId} {entry : Entry} {dir written : Dir}
      {next : System} (writes : Written system next index dir written)
      (target : ip = if system.exists_ entry.objId then some entry.objId else none)
      (entries : dir.visible.Perm (entry :: written.visible))
      (nlinks : next.nlinks = (unlink system ip).nlinks) :
      Effect crc32 system (.del index place ip) none next
  | failed {label : Label} {error : Errno} {next : System} (nlinks : next.nlinks = system.nlinks)
      (targets : next.targetList = system.targetList) (dirs : next.dirs = system.dirs) :
      Effect crc32 system label (some error) next
  | full {index : Nat} {name : Name} {ip : ObjId} {dir : Dir} {next : System}
      (found : system.dirs[index]? = some dir)
      (full : ∀ n < maxIterations dir.alg, dir.used (namekey crc32 dir.alg name + n) = true)
      (nlinks : next.nlinks = (system.link ip 1).nlinks)
      (targets : next.targetList = system.targetList) (dirs : next.dirs = system.dirs) :
      Effect crc32 system (.add index name ip) (some .enospc) next

section Step

variable {crc32 : Name → UInt32} {system next : System} {index id : Nat} {dir : Dir}
  {record : Record} {error : Option Errno}

section Unlink

variable (system : System) (ip : Option ObjId)

@[simp]
theorem unlink_dirs : (unlink system ip).dirs = system.dirs := by cases ip <;> rfl

@[simp]
theorem unlink_fresh : (unlink system ip).fresh = system.fresh := by cases ip <;> rfl

@[simp]
theorem unlink_targetList : (unlink system ip).targetList = system.targetList := by cases ip <;> rfl

@[simp]
theorem unlink_exists : (unlink system ip).exists_ = system.exists_ := by cases ip <;> rfl

theorem unlink_nlinks {other : System} (same : other.nlinks = system.nlinks) :
    (unlink other ip).nlinks = (unlink system ip).nlinks := by
  cases ip <;> simp [unlink, System.link, same]

end Unlink

theorem memAdd_cases (system : System) (index : Nat) (dir : Dir) (record : Record) :
    (dir.collides record.entry.key = true ∧
      memAdd system index dir record = (some .eexist, system.untarget record.id)) ∨
    memAdd system index dir record = (none, system.setDir index (dir.add record)) := by
  unfold memAdd
  split
  · rename_i both
    rw [Bool.and_eq_true] at both
    exact .inl ⟨both.2, rfl⟩
  · exact .inr rfl

theorem Dir.collides_of_used {key : Int} (unused : dir.used key = false) :
    dir.collides key = false := by
  rw [Dir.collides, List.any_eq_false]
  intro other member
  simp [(Dir.not_used unused).1 other member]

/-- Targets stay in the bound when one more record is targeted. -/
theorem System.Ok.target (ok : system.Ok) (ip : ObjId) :
    ∀ other, ∀ id ∈ (system.target ip system.fresh).targetList other, id < system.fresh + 1 := by
  intro other id member
  simp only [System.target, Function.update_apply] at member
  split at member
  · rcases List.mem_append.mp member with old | new
    · have := ok.targets ip id old
      omega
    · have := List.mem_singleton.mp new
      omega
  · have := ok.targets other id member
    omega

/-- The record of a call has an id that no other record has. -/
theorem System.Ok.id_of_add (ok : system.Ok) (found : system.dirs[index]? = some dir)
    (record : Record) (isNew : record.id = system.fresh) :
    (∀ other ∈ dir.recTree, other.id ≠ record.id) ∧
      ∀ other ∈ (dir.add record).recTree, other.id < system.fresh + 1 := by
  have old := ok.ids dir (List.mem_of_getElem? found)
  constructor
  · intro other member
    have := old other member
    omega
  · intro other member
    rcases List.mem_append.mp member with present | new
    · have := old other present
      omega
    · rw [List.mem_singleton.mp new, isNew]
      omega

theorem addDirectory_effect (ok : system.Ok) (found : system.dirs[index]? = some dir) {name : Name}
    {ip : ObjId} (done : addDirectory crc32 system index dir name ip = .done (error, next)) :
    Effect crc32 system (.add index name ip) error next ∧ next.Ok ∧
      next.exists_ = system.exists_ := by
  obtain ⟨low, high⟩ := namekey_bounds crc32 dir.alg name
  simp only [addDirectory, Outcome.bind_eq_done_iff] at done
  obtain ⟨result, searched, done⟩ := done
  cases result with
  | none =>
      obtain ⟨rfl, rfl⟩ := Prod.mk.inj (Outcome.done.inj done)
      refine ⟨.full found ?_ rfl rfl rfl, ⟨ok.dirs, ok.ids, ok.targets⟩, rfl⟩
      exact findKey_none (by omega) (by omega) searched
  | some key =>
      obtain ⟨unused, atLeast, below⟩ := findKey_some (by omega) (by omega) searched
      rcases memAdd_cases ((system.link ip 1).target ip system.fresh) index dir
        { id := system.fresh, type := .add, entry := ⟨key, name, ip⟩ } with ⟨collides, -⟩ | added
      · rw [Dir.collides_of_used unused] at collides
        cases collides
      · simp only [added] at done
        obtain ⟨rfl, rfl⟩ := Prod.mk.inj (Outcome.done.inj done)
        have writes : Written system
            (((system.link ip 1).target ip system.fresh).setDir index
              (dir.add { id := system.fresh, type := .add, entry := ⟨key, name, ip⟩ })) index dir
            (dir.add { id := system.fresh, type := .add, entry := ⟨key, name, ip⟩ }) :=
          ⟨found, rfl, rfl⟩
        refine ⟨.added writes atLeast below (Dir.visible_add rfl) rfl, ?_, rfl⟩
        obtain ⟨fresh, ids⟩ := ok.id_of_add found
          { id := system.fresh, type := .add, entry := ⟨key, name, ip⟩ } rfl
        have dirOk := (ok.dir_of_found found).add fresh rfl
          (fun other member _ => (Dir.not_used unused).1 other member)
          (fun _ => (Dir.not_used unused).2)
        exact ok.write writes dirOk (Nat.le_succ _) ids (ok.target ip)

/-- The record of the tree that a cursor stands at. -/
theorem Dir.find_of_entryAt {entry : Entry} (ok : DirOk dir)
    (stands : dir.entryAt (.inmem id) = some entry) :
    ∃ record, dir.find id = some record ∧ record ∈ dir.recTree ∧ record.id = id ∧
      record.type = .add ∧ record.deletedFe = false ∧ record.entry = entry := by
  simp only [Dir.entryAt, Option.map_eq_some_iff] at stands
  obtain ⟨record, found, rfl⟩ := stands
  have member := List.mem_of_find?_eq_some found
  have shown := List.find?_some found
  simp only [Bool.and_eq_true, decide_eq_true_eq, Bool.not_eq_true'] at shown
  obtain ⟨⟨rfl, isAdd⟩, live⟩ := shown
  refine ⟨record, ?_, member, rfl, isAdd, live, rfl⟩
  cases first : dir.find record.id with
  | none =>
      have none := List.find?_eq_none.mp first record member
      simp at none
  | some other =>
      have same := List.find?_some first
      rw [Keyed.eq_of_mem_of_key ok.ids (List.mem_of_find?_eq_some first) member (by simpa using same)]

theorem delDirectory_inmem (ok : system.Ok) (found : system.dirs[index]? = some dir)
    {ip : Option ObjId} {entry : Entry} (stands : dir.entryAt (.inmem id) = some entry)
    (target : ip = if system.exists_ entry.objId then some entry.objId else none)
    (done : delDirectory system index dir (.inmem id) ip = .done (error, next)) :
    Effect crc32 system (.del index (.inmem id) ip) error next ∧ next.Ok ∧
      next.exists_ = system.exists_ := by
  obtain ⟨record, first, member, rfl, isAdd, live, rfl⟩ :=
    Dir.find_of_entryAt (ok.dir_of_found found) stands
  simp only [delDirectory, first] at done
  split at done
  · obtain ⟨rfl, rfl⟩ := Prod.mk.inj (Outcome.done.inj done)
    exact ⟨.failed rfl rfl rfl, ok, rfl⟩
  · rename_i undisturbed
    rw [Outcome.kkassert_eq_done_iff] at done
    obtain ⟨rfl, rfl⟩ := Prod.mk.inj (Outcome.done.inj done.2)
    simp only [Bool.or_eq_true, not_or, Bool.not_eq_true] at undisturbed
    have adds : record.adds = true := by simp [Record.adds, Record.good, live, undisturbed, isAdd]
    have dirOk : DirOk (dir.put { record with deletedFe := true }) := by
      apply (ok.dir_of_found found).put member
      · rfl
      · rfl
      · exact fun pending => pending
      · exact fun isAdd => isAdd
      · exact fun _ => isAdd
    have writes : Written system
        (unlink (system.setDir index (dir.put { record with deletedFe := true })) ip) index dir
        (dir.put { record with deletedFe := true }) := ⟨found, by simp [System.setDir], rfl⟩
    refine ⟨.removed writes target (Dir.visible_delete (ok.dir_of_found found) member adds) ?_, ?_, ?_⟩
    · exact unlink_nlinks _ _ rfl
    · refine ok.write writes dirOk (by simp [System.setDir]) ?_ ?_
      · intro other otherMem
        obtain ⟨old, oldMem, same⟩ := Keyed.key_of_mem_replace otherMem
        rw [← same]
        simpa [System.setDir] using ok.ids dir (List.mem_of_getElem? found) old oldMem
      · simpa [System.setDir] using ok.targets
    · simp [System.setDir]

/-- No pending record has the key of an entry on the media that is not hidden. -/
theorem Dir.key_of_unhidden {entry : Entry} (ok : DirOk dir) (shown : entry ∈ dir.unhidden) :
    ∀ other ∈ dir.recTree, other.pending = true → other.entry.key ≠ entry.key := by
  obtain ⟨member, notHidden⟩ := List.mem_filter.mp shown
  intro other otherMem pending same
  cases isType : other.type with
  | add => exact ok.adds other otherMem pending isType entry member same.symm
  | del =>
      have live : other.deletedFe = false := by
        by_contra deleted
        have isAdd := ok.front other otherMem (by simpa using deleted)
        rw [isType] at isAdd
        cases isAdd
      rw [Bool.not_eq_true', List.any_eq_false] at notHidden
      refine notHidden other otherMem ?_
      simp only [Record.pending, Bool.and_eq_true, Bool.not_eq_true'] at pending
      simp [Record.hides, Record.good, live, pending, isType, same]

/-- The state in which a deletion is put on the tree. -/
theorem System.Ok.targeted (ok : system.Ok) (ip : Option ObjId) :
    ∃ targeted : System, system.targetIf ip system.fresh = targeted ∧
      targeted.dirs = system.dirs ∧ targeted.exists_ = system.exists_ ∧
      targeted.nlinks = system.nlinks ∧ targeted.fresh = system.fresh + 1 ∧
      ∀ other, ∀ id ∈ targeted.targetList other, id < system.fresh + 1 := by
  cases ip with
  | none =>
      refine ⟨_, rfl, rfl, rfl, rfl, rfl, ?_⟩
      intro other id member
      exact Nat.lt_succ_of_lt (ok.targets other id member)
  | some ip => exact ⟨_, rfl, rfl, rfl, rfl, rfl, ok.target ip⟩

theorem delDirectory_media (ok : system.Ok) (found : system.dirs[index]? = some dir) {key : Int}
    {ip : Option ObjId} {entry : Entry} (stands : dir.entryAt (.media key) = some entry)
    (target : ip = if system.exists_ entry.objId then some entry.objId else none)
    (done : delDirectory system index dir (.media key) ip = .done (error, next)) :
    Effect crc32 system (.del index (.media key) ip) error next ∧ next.Ok ∧
      next.exists_ = system.exists_ := by
  have dirOk := ok.dir_of_found found
  have shown : entry ∈ dir.unhidden := List.mem_of_find?_eq_some stands
  have atKey : entry.key = key := by simpa using List.find?_some stands
  have pendingKeys := Dir.key_of_unhidden dirOk shown
  obtain ⟨targeted, isTargeted, dirs, existing, nlinks, fresh, targets⟩ := ok.targeted ip
  simp only [delDirectory, isTargeted] at done
  rcases memAdd_cases targeted index dir { id := system.fresh, type := .del, entry := ⟨key, [], 0⟩ }
    with ⟨collides, -⟩ | added
  · rw [Dir.collides, List.any_eq_true] at collides
    obtain ⟨other, otherMem, both⟩ := collides
    rw [Bool.and_eq_true, decide_eq_true_eq] at both
    have differs := pendingKeys other otherMem (Record.pending_of_good both.1)
    exact absurd (both.2.trans atKey.symm) differs
  · simp only [added] at done
    obtain ⟨rfl, rfl⟩ := Prod.mk.inj (Outcome.done.inj done)
    obtain ⟨newId, ids⟩ := ok.id_of_add found
      { id := system.fresh, type := .del, entry := ⟨key, [], 0⟩ } rfl
    have writes : Written system
        (unlink (targeted.setDir index
          (dir.add { id := system.fresh, type := .del, entry := ⟨key, [], 0⟩ })) ip) index dir
        (dir.add { id := system.fresh, type := .del, entry := ⟨key, [], 0⟩ }) :=
      ⟨found, by simp [System.setDir, dirs], rfl⟩
    have addOk := dirOk.add newId rfl
      (fun other member pending => by simpa [atKey] using pendingKeys other member pending) (by simp)
    refine ⟨.removed writes target (Dir.visible_cover dirOk shown rfl rfl atKey.symm) ?_, ?_, ?_⟩
    · exact unlink_nlinks _ _ nlinks
    · apply ok.write writes addOk
      · simp [System.setDir, fresh]
      · simpa [System.setDir, fresh] using ids
      · simpa [System.setDir, fresh] using targets
    · simp [System.setDir, existing]

/-- A step of the backend that writes a record or takes one off. -/
theorem backend_effect {label : Label} {written : Dir} (ok : system.Ok)
    (writes : Written system next index dir written) (dirOk : DirOk written)
    (entries : written.visible.Perm dir.visible) (nlinks : next.nlinks = system.nlinks)
    (existing : next.exists_ = system.exists_) (fresh : next.fresh = system.fresh)
    (ids : ∀ record ∈ written.recTree, ∃ old ∈ dir.recTree, old.id = record.id)
    (targets : ∀ ip, ∀ id ∈ next.targetList ip, id ∈ system.targetList ip) :
    Effect crc32 system label none next ∧ next.Ok ∧ next.exists_ = system.exists_ := by
  refine ⟨.kept writes entries nlinks, ok.write writes dirOk fresh.ge ?_ ?_, existing⟩
  · intro record member
    obtain ⟨old, oldMem, same⟩ := ids record member
    rw [← same, fresh]
    exact ok.ids dir (List.mem_of_getElem? writes.found) old oldMem
  · intro ip id member
    rw [fresh]
    exact ok.targets ip id (targets ip id member)

theorem mem_untarget {ip : ObjId} {other : Nat}
    (member : other ∈ (system.untarget id).targetList ip) : other ∈ system.targetList ip :=
  List.mem_of_mem_filter member

/-- The backend writes one record and leaves the others alone. -/
theorem syncRecord_tree (dir : Dir) (record : Record) :
    (syncRecord dir record).alg = dir.alg ∧
      ∃ written, (syncRecord dir record).recTree = Keyed.replace Record.id written dir.recTree := by
  cases isType : record.type with
  | del => exact Dir.syncRecord_del isType ▸ ⟨rfl, _, rfl⟩
  | add =>
      cases deleted : record.deletedFe with
      | true => exact Dir.syncRecord_deleted isType deleted ▸ ⟨rfl, _, rfl⟩
      | false => exact Dir.syncRecord_add isType deleted ▸ ⟨rfl, _, rfl⟩

/-- Every step has one of the effects and keeps the invariant. -/
theorem step_effect {label : Label} (ok : system.Ok) (called : Called system label)
    (step : Step crc32 system label error next) :
    Effect crc32 system label error next ∧ next.Ok ∧ next.exists_ = system.exists_ := by
  cases step with
  | add found done => exact addDirectory_effect ok found done
  | @del index place ip dir _ _ found done =>
      obtain ⟨entry, stands, target⟩ := called dir found
      cases place with
      | inmem id => exact delDirectory_inmem ok found stands target done
      | media key => exact delDirectory_media ok found stands target done
  | @interlock index id dir record found member is =>
      have dirOk := ok.dir_of_found found
      refine backend_effect ok ⟨found, rfl, rfl⟩ ?_ (Dir.visible_interlock dirOk member true) rfl rfl
        rfl (fun _ => Keyed.key_of_mem_replace) (fun _ _ same => same)
      exact dirOk.put member rfl rfl (fun same => same) (fun same => same) (dirOk.front record member)
  | @sync index id dir record found member is locked pending =>
      have dirOk := ok.dir_of_found found
      obtain ⟨alg, written, tree⟩ := syncRecord_tree dir record
      refine backend_effect ok ⟨found, rfl, alg⟩ (Dir.sync_ok dirOk member pending)
        (Dir.visible_sync dirOk member pending) rfl rfl rfl ?_ (fun _ _ same => same)
      rw [tree]
      exact fun _ => Keyed.key_of_mem_replace
  | @finish index id dir record found member is =>
      have dirOk := ok.dir_of_found found
      have put : DirOk (dir.put { record with interlockBe := false }) :=
        dirOk.put member rfl rfl (fun same => same) (fun same => same) (dirOk.front record member)
      have visible := Dir.visible_interlock dirOk member false
      split
      · exact backend_effect ok ⟨found, rfl, rfl⟩ put visible rfl rfl rfl
          (fun _ => Keyed.key_of_mem_replace) (fun _ _ same => same)
      · exact backend_effect ok ⟨found, rfl, rfl⟩ put visible rfl rfl rfl
          (fun _ => Keyed.key_of_mem_replace) (fun _ _ => mem_untarget)
  | @destroy index id dir record found member is free dead =>
      have dirOk := ok.dir_of_found found
      subst is
      refine backend_effect ok ⟨found, rfl, rfl⟩ (dirOk.remove record.id)
        (Dir.visible_remove dirOk member dead).symm rfl rfl rfl ?_ (fun _ _ => mem_untarget)
      intro other otherMem
      exact ⟨other, ((Keyed.mem_remove).mp otherMem).1, rfl⟩

end Step

/-- An empty directory. -/
def bareDir : Dir where
  alg := .alg1
  recTree := []
  media := []

/-- A file system with one empty directory and inodes without links. -/
def bare : System where
  dirs := [bareDir]
  exists_ _ := true
  nlinks _ := 0
  targetList _ := []
  fresh := 0

theorem bare_ok : bare.Ok where
  dirs := by
    intro dir member
    rw [List.mem_singleton.mp member]
    constructor <;> simp [bareDir]
  ids := by simp [bare, bareDir]
  targets := by simp [bare]

theorem called_bare (name : Name) : Called bare (.add 0 name 2) := by
  refine ⟨rfl, ?_⟩
  rintro dir ⟨⟩ entry member
  cases member

/-- An addition to the empty directory takes the name key. -/
theorem addDirectory_bare (crc32 : Name → UInt32) (name : Name) :
    addDirectory crc32 bare 0 bareDir name 2 =
      .done (memAdd ((bare.link 2 1).target 2 0) 0 bareDir
        { id := 0, type := .add, entry := ⟨namekey crc32 .alg1 name, name, 2⟩ }) := by
  rw [addDirectory, findKey_first (by decide) rfl]
  rfl

end Dragonfly.Hammer.Directory
