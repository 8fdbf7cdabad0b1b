import Dragonfly.Kern.Crc32
import Dragonfly.Hammer.Directory.Effect

/-!
# Link counts

The link count of an inode moves with the entries that refer to it, as long as every
search for a key finds one.  A search that finds none returns with the count raised.
-/

namespace Dragonfly.Hammer.Directory

open Dragonfly.Lib

/-- The number of visible entries that refer to an inode. -/
def System.links (system : System) (ip : ObjId) : Nat :=
  (system.dirs.flatMap Dir.visible).countP fun entry => entry.objId = ip

/-- The entries of one directory that refer to an inode. -/
def Dir.links (dir : Dir) (ip : ObjId) : Nat := dir.visible.countP fun entry => entry.objId = ip

/-- For an addition, some key of the iteration space of the name is not used. -/
def HasRoom (crc32 : Name → UInt32) (system : System) : Label → Prop
  | .add index name _ => ∀ dir ∈ system.dirs[index]?,
      ∃ n < maxIterations dir.alg, dir.used (namekey crc32 dir.alg name + n) = false
  | _ => True

/-- The steps of runs in which every addition finds room. -/
def RoomyMove (crc32 : Name → UInt32) (system : System) (label : Label) (next : System) : Prop :=
  HasRoom crc32 system label ∧ Move crc32 system label next

variable {crc32 : Name → UInt32} {system next : System} {index : Nat} {dir written : Dir}
  {label : Label} {error : Option Errno}

/-- The count of a file system changes by what one directory changes. -/
theorem Written.links (writes : Written system next index dir written) (ip : ObjId) :
    next.links ip + dir.links ip = system.links ip + written.links ip := by
  obtain ⟨inside, is⟩ := List.getElem?_eq_some_iff.mp writes.found
  have before : system.dirs = system.dirs.take index ++ dir :: system.dirs.drop (index + 1) := by
    rw [← is, List.getElem_cons_drop, List.take_append_drop]
  have after : next.dirs = system.dirs.take index ++ written :: system.dirs.drop (index + 1) := by
    rw [writes.dirs, List.set_eq_take_append_cons_drop, if_pos inside]
  rw [System.links, System.links, after]
  nth_rewrite 3 [before]
  simp only [List.flatMap_append, List.flatMap_cons, List.countP_append, Dir.links]
  omega

theorem Dir.links_of_perm {entries : List Entry} (perm : dir.visible.Perm entries) (ip : ObjId) :
    dir.links ip = entries.countP fun entry => entry.objId = ip :=
  perm.countP_eq _

theorem System.link_nlinks (system : System) (target : ObjId) (change : Int) (ip : ObjId) :
    (system.link target change).nlinks ip =
      system.nlinks ip + if target = ip then change else 0 := by
  simp only [System.link, Function.update_apply]
  by_cases same : target = ip
  · simp [same]
  · simp [same, eq_comm]

/-- The deletion of an entry takes a link off the inode of the entry, if it exists. -/
theorem unlink_entry {ip : ObjId} (existing : system.exists_ ip = true) (objId : ObjId) :
    (unlink system (if system.exists_ objId then some objId else none)).nlinks ip =
      system.nlinks ip - if objId = ip then 1 else 0 := by
  by_cases same : objId = ip
  · rw [same, if_pos existing]
    exact (system.link_nlinks ip (-1) ip).trans (by simp [Int.sub_eq_add_neg])
  · rw [if_neg same]
    split
    · exact (system.link_nlinks objId (-1) ip).trans (by simp [same])
    · simp [unlink]

theorem countP_objId (entry : Entry) (entries : List Entry) (ip : ObjId) :
    (entry :: entries).countP (fun entry => entry.objId = ip) =
      entries.countP (fun entry => entry.objId = ip) + if entry.objId = ip then 1 else 0 := by
  simp [List.countP_cons]

/-- A step that is not a failed search moves the counts of the existing inodes with
the entries. -/
theorem Effect.links (effect : Effect crc32 system label error next)
    (room : HasRoom crc32 system label) {ip : ObjId} (existing : system.exists_ ip = true) :
    next.nlinks ip + system.links ip = system.nlinks ip + next.links ip := by
  cases effect with
  | kept writes entries nlinks =>
      have change := writes.links ip
      rw [Dir.links_of_perm entries] at change
      simp only [Dir.links] at change
      rw [nlinks]
      omega
  | added writes low high entries nlinks =>
      have change := writes.links ip
      rw [Dir.links_of_perm entries, countP_objId] at change
      simp only [Dir.links] at change
      rw [nlinks, System.link_nlinks]
      split at change <;> simp_all only [if_true, if_false] <;> omega
  | removed writes target entries nlinks =>
      have change := writes.links ip
      rw [Dir.links_of_perm entries, countP_objId] at change
      simp only [Dir.links] at change
      rw [nlinks, target, unlink_entry existing]
      split at change <;> simp_all only [if_true, if_false] <;> omega
  | failed nlinks targets dirs => rw [nlinks, System.links, System.links, dirs]
  | full found full nlinks targets dirs =>
      obtain ⟨n, small, unused⟩ := room _ found
      rw [full n small] at unused
      cases unused

/-- A call that fails, but for want of a key, changes nothing. -/
theorem Effect.failed_unchanged {failure : Errno}
    (effect : Effect crc32 system label (some failure) next) (room : HasRoom crc32 system label) :
    next.nlinks = system.nlinks ∧ next.targetList = system.targetList ∧ next.dirs = system.dirs := by
  cases effect with
  | failed nlinks targets dirs => exact ⟨nlinks, targets, dirs⟩
  | full found full nlinks targets dirs =>
      obtain ⟨n, small, unused⟩ := room _ found
      rw [full n small] at unused
      cases unused

/-- What a run of roomy steps keeps: the counts against those of the start. -/
structure Linked (start system : System) : Prop where
  ok : system.Ok
  existing : system.exists_ = start.exists_
  counts : ∀ ip, start.exists_ ip = true →
    system.nlinks ip + start.links ip = start.nlinks ip + system.links ip

theorem Linked.step {start : System} (linked : Linked start system)
    (move : RoomyMove crc32 system label next) : Linked start next := by
  obtain ⟨room, called, error, step⟩ := move
  obtain ⟨effect, ok, existing⟩ := step_effect linked.ok called step
  refine ⟨ok, existing.trans linked.existing, ?_⟩
  intro ip isInode
  have before := linked.counts ip isInode
  have change := effect.links room (linked.existing ▸ isInode)
  omega

/-- In every run whose additions find room, link counts move with the visible entries,
and from every state reached a call that fails leaves the counts, the target lists and
the directories as they were. -/
theorem links_follow_entries {start : System} {labels : List Label} (ok : start.Ok)
    (run : Run (RoomyMove crc32) start labels system) :
    (∀ ip, start.exists_ ip = true →
      system.nlinks ip + start.links ip = start.nlinks ip + system.links ip) ∧
    ∀ label failure next, HasRoom crc32 system label → Called system label →
      Step crc32 system label (some failure) next →
        next.nlinks = system.nlinks ∧ next.targetList = system.targetList ∧
          next.dirs = system.dirs := by
  have linked : Linked start system := by
    refine run.invariant (fun linked move => linked.step move) ⟨ok, rfl, ?_⟩
    intro ip _
    rfl
  refine ⟨linked.counts, ?_⟩
  intro label failure next room called step
  exact (step_effect linked.ok called step).1.failed_unchanged room

theorem links_follow_entries_bare : ∃ system,
    Run (RoomyMove Kern.crc32) bare [.add 0 [97] 2] system ∧
      system.nlinks 2 + bare.links 2 = bare.nlinks 2 + system.links 2 := by
  have room : HasRoom Kern.crc32 bare (.add 0 [97] 2) := by
    rintro dir ⟨⟩
    exact ⟨0, by decide, rfl⟩
  have run : Run (RoomyMove Kern.crc32) bare [.add 0 [97] 2] _ :=
    .cons ⟨room, called_bare [97], none, .add rfl (addDirectory_bare Kern.crc32 [97])⟩ (.nil _)
  exact ⟨_, run, (links_follow_entries bare_ok run).1 2 rfl⟩

section Crowded

/-- Two texts that the checksum does not tell apart: `nidmovh` and `bubanxn`. -/
def twin : Bool → Name
  | false => [110, 105, 100, 109, 111, 118, 104]
  | true => [98, 117, 98, 97, 110, 120, 110]

/-- The checksum register behind a number of twins. -/
def twinStates : List UInt32 :=
  [0xFFFFFFFF, 0x4A980CFF, 0xD82072BD, 0xD6210A6, 0x1E3E3441, 0xFB4B3143, 0xEC8A6F6C,
   0xFA40E1D3, 0xDE10530B, 0x67D5BF5, 0x5C2DBA96, 0xA7C804C4, 0x82115756, 0x6355083E,
   0xE564684A, 0xA1C4EBF9, 0x4C2C884E, 0x1B2F916F, 0x4746BDDF, 0x2A49214, 0xC49AD236,
   0xDED747D2, 0xFB546925, 0x6819C7A, 0xA35AB3DD]

def twinState (n : Nat) : UInt32 := twinStates.getD n 0

/-- A name of 24 twins, one for each bit of the number. -/
def crowdName (n : Nat) : Name := ((List.range 24).map n.testBit).flatMap twin

/-- The name key that all these names have. -/
def crowdKey : Int := namekey Kern.crc32 .alg1 (crowdName 0)

/-- The entry that is found a number of keys above the name key. -/
def crowdEntry (n : Nat) : Entry := ⟨crowdKey + n, crowdName n, 1⟩

/-- A directory with a number of entries of one name key. -/
def crowdDir (count : Nat) : Dir where
  alg := .alg1
  recTree := []
  media := (List.range count).map crowdEntry

/-- The directory, the inode of its entries and an inode without entries. -/
def crowded (count : Nat) : System where
  dirs := [crowdDir count]
  exists_ _ := true
  nlinks ip := if ip = 1 then count else 0
  targetList _ := []
  fresh := 0

theorem twin_foldl : ∀ n < 24, ∀ bit,
    (twin bit).foldl Kern.crc32Byte (twinState n) = twinState (n + 1) := by
  decide +kernel

theorem twins_foldl (bits : List Bool) (n : Nat) (few : n + bits.length ≤ 24) :
    (bits.flatMap twin).foldl Kern.crc32Byte (twinState n) = twinState (n + bits.length) := by
  induction bits generalizing n with
  | nil => rfl
  | cons bit bits ih =>
      rw [List.length_cons] at few ⊢
      rw [List.flatMap_cons, List.foldl_append, twin_foldl n (by omega), ih (n + 1) (by omega)]
      congr 1
      omega

theorem crc32_crowdName (n : Nat) : Kern.crc32 (crowdName n) = twinState 24 ^^^ 0xFFFFFFFF := by
  have folded := twins_foldl ((List.range 24).map n.testBit) 0 (by simp)
  rw [List.length_map, List.length_range] at folded
  exact congrArg (· ^^^ 0xFFFFFFFF) folded

theorem crowdName_plain (n : Nat) : ∀ char ∈ crowdName n, isSeparator char = false := by
  have plain : ∀ bit, ∀ char ∈ twin bit, isSeparator char = false := by
    intro bit
    cases bit <;> simp [twin, isSeparator]
  intro char member
  obtain ⟨bit, -, inTwin⟩ := List.mem_flatMap.mp member
  exact plain bit char inTwin

theorem segmentSum_crowdName (n : Nat) :
    segmentSum Kern.crc32 (crowdName n) [] 0 = 0 + (twinState 24 ^^^ 0xFFFFFFFF) := by
  rw [segmentSum_of_plain (crowdName_plain n), List.nil_append, addSegment, crc32_crowdName]
  cases bit : n.testBit 0 <;> simp [crowdName, List.range_succ_eq_map, bit, twin]

theorem namekey_crowdName (n : Nat) : namekey Kern.crc32 .alg1 (crowdName n) = crowdKey := by
  simp only [crowdKey, namekey, segmentSum_crowdName, crc32_crowdName]

theorem twins_injective {bits others : List Bool} (length : bits.length = others.length)
    (same : bits.flatMap twin = others.flatMap twin) : bits = others := by
  have seven : ∀ bit, (twin bit).length = 7 := by decide
  have differ : ∀ bit other, twin bit = twin other → bit = other := by decide
  induction bits generalizing others with
  | nil => exact (List.length_eq_zero_iff.mp length.symm).symm
  | cons bit bits ih =>
      cases others with
      | nil => cases length
      | cons other others =>
          rw [List.flatMap_cons, List.flatMap_cons] at same
          obtain ⟨first, rest⟩ := List.append_inj same (by rw [seven, seven])
          rw [differ bit other first, ih (Nat.succ.inj length) rest]

theorem crowdName_injective {n m : Nat} (nSmall : n < 2 ^ 24) (mSmall : m < 2 ^ 24)
    (same : crowdName n = crowdName m) : n = m := by
  have bits := twins_injective (by simp) same
  rw [List.map_inj_left] at bits
  apply Nat.eq_of_testBit_eq
  intro bit
  by_cases small : bit < 24
  · exact bits bit (List.mem_range.mpr small)
  · have above : ∀ k < 2 ^ 24, k.testBit bit = false := by
      intro k kSmall
      have power : 2 ^ 24 ≤ 2 ^ bit := Nat.pow_le_pow_right (by omega) (by omega)
      exact Nat.testBit_lt_two_pow (by omega)
    rw [above n nSmall, above m mSmall]

theorem crowdKey_eq : crowdKey = 0x5CA54C2210870000 := by
  have state : twinState 24 ^^^ 0xFFFFFFFF = 0x5CA54C22 := by rfl
  rw [crowdKey, namekey, segmentSum_crowdName, crc32_crowdName, state]
  decide

variable {count : Nat}

theorem mem_crowdDir {entry : Entry} :
    entry ∈ (crowdDir count).visible ↔ ∃ n < count, entry = crowdEntry n := by
  simp [Dir.visible, Dir.unhidden, crowdDir, eq_comm]

theorem crowded_ok : (crowded count).Ok where
  dirs := by
    intro dir member
    rw [List.mem_singleton.mp member]
    constructor
    case media =>
      rw [crowdDir, List.pairwise_map]
      refine List.pairwise_lt_range.imp ?_
      intro n m less
      simp only [crowdEntry]
      omega
    all_goals simp [crowdDir]
  ids := by simp [crowded, crowdDir]
  targets := by simp [crowded]

theorem crowdDir_used {n : Nat} (small : n < count) : (crowdDir count).used (crowdKey + n) = true := by
  simp only [Dir.used, crowdDir, Bool.or_eq_true, List.any_eq_true, List.mem_map, List.mem_range]
  exact .inr ⟨crowdEntry n, ⟨n, small, rfl⟩, by simp [crowdEntry]⟩

/-- One more name with the same name key: the call fails, and the inode has a link
that no entry accounts for. -/
theorem crowded_leaks_link :
    (crowded 0xFFFFFF).Ok ∧
    (∀ dir ∈ (crowded 0xFFFFFF).dirs, ∀ entry ∈ dir.visible,
      namekey Kern.crc32 dir.alg entry.name ≤ entry.key ∧
        entry.key < namekey Kern.crc32 dir.alg entry.name + maxIterations dir.alg) ∧
    Called (crowded 0xFFFFFF) (.add 0 (crowdName 0xFFFFFF) 2) ∧
    ∃ next, Step Kern.crc32 (crowded 0xFFFFFF) (.add 0 (crowdName 0xFFFFFF) 2) (some .enospc) next ∧
      (crowded 0xFFFFFF).nlinks 2 = 0 ∧ next.nlinks 2 = 1 ∧
      next.dirs = (crowded 0xFFFFFF).dirs := by
  refine ⟨crowded_ok, ?_, ⟨rfl, ?_⟩, ?_⟩
  · intro dir member entry visible
    rw [crowded, List.mem_singleton] at member
    subst member
    obtain ⟨n, small, rfl⟩ := (mem_crowdDir).mp visible
    simp only [crowdEntry, crowdDir, namekey_crowdName, maxIterations]
    omega
  · rintro dir ⟨⟩ entry visible same
    obtain ⟨n, small, rfl⟩ := (mem_crowdDir).mp visible
    have equal := crowdName_injective (by omega) (by decide) same
    omega
  · have full : findKey (crowdDir 0xFFFFFF).used (maxIterations .alg1)
        (namekey Kern.crc32 .alg1 (crowdName 0xFFFFFF)) = .done none := by
      rw [namekey_crowdName]
      refine findKey_full ?_ ?_ (fun n => crowdDir_used)
      · rw [crowdKey_eq]
        decide
      · rw [crowdKey_eq]
        decide
    refine ⟨(crowded 0xFFFFFF).link 2 1, .add rfl ?_, rfl, rfl, rfl⟩
    rw [addDirectory]
    exact congrArg (Outcome.bind · _) full

end Crowded

end Dragonfly.Hammer.Directory
