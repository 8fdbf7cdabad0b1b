import Mathlib.Data.List.Pairwise
import Dragonfly.Hammer.Directory.Model

/-!
# The entries of a directory

What each operation on a directory does to the entries that the frontend sees: an
addition makes one more of them, a deletion one less, and the backend leaves them as
they are while it moves records to the media.
-/

namespace Dragonfly.Hammer.Directory

open Dragonfly.Lib

/-- The invariant of a directory: keys on the media differ, pending records have
different keys, and a pending addition has a key that the media does not have. -/
structure DirOk (dir : Dir) : Prop where
  ids : dir.recTree.Pairwise fun x y => x.id ≠ y.id
  keys : dir.recTree.Pairwise fun x y =>
    x.pending = true → y.pending = true → x.entry.key ≠ y.entry.key
  adds : ∀ record ∈ dir.recTree, record.pending = true → record.type = .add →
    ∀ entry ∈ dir.media, entry.key ≠ record.entry.key
  media : dir.media.Pairwise fun x y => x.key ≠ y.key
  front : ∀ record ∈ dir.recTree, record.deletedFe = true → record.type = .add

variable {dir : Dir} {record : Record}

theorem Record.pending_of_good (good : record.good = true) : record.pending = true := by
  simp only [Record.good, Record.pending, Bool.and_eq_true] at good ⊢
  exact ⟨good.1.2, good.2⟩

/-- The key of no memory record and of no entry on the media. -/
theorem Dir.not_used {key : Int} (unused : dir.used key = false) :
    (∀ record ∈ dir.recTree, record.entry.key ≠ key) ∧ ∀ entry ∈ dir.media, entry.key ≠ key := by
  simpa [Dir.used] using unused

namespace DirOk

/-- Adding a record of the tree under an unused id. -/
theorem add (ok : DirOk dir) (fresh : ∀ other ∈ dir.recTree, other.id ≠ record.id)
    (good : record.good = true)
    (keys : ∀ other ∈ dir.recTree, other.pending = true → other.entry.key ≠ record.entry.key)
    (media : record.type = .add → ∀ entry ∈ dir.media, entry.key ≠ record.entry.key) :
    DirOk (dir.add record) where
  ids := by
    rw [Dir.add, List.pairwise_append]
    exact ⟨ok.ids, List.pairwise_singleton _ _, by simpa using fresh⟩
  keys := by
    rw [Dir.add, List.pairwise_append]
    refine ⟨ok.keys, List.pairwise_singleton _ _, ?_⟩
    intro other member new isNew pending _
    rw [List.mem_singleton.mp isNew]
    exact keys other member pending
  adds := by
    intro other member pending isAdd
    rcases List.mem_append.mp member with old | new
    · exact ok.adds other old pending isAdd
    · rw [List.mem_singleton.mp new] at isAdd ⊢
      exact media isAdd
  media := ok.media
  front := by
    intro other member deleted
    rcases List.mem_append.mp member with old | new
    · exact ok.front other old deleted
    · rw [List.mem_singleton.mp new] at deleted
      simp [Record.good, deleted] at good

/-- Writing a record that keeps its id, its key and whether it is pending. -/
theorem put (ok : DirOk dir) (member : record ∈ dir.recTree) {written : Record}
    (id : written.id = record.id) (key : written.entry.key = record.entry.key)
    (pending : written.pending = true → record.pending = true)
    (type : written.type = .add → record.type = .add)
    (front : written.deletedFe = true → written.type = .add) :
    DirOk (dir.put written) := by
  obtain ⟨before, behind, shape, replaced, -⟩ := Keyed.split_of_mem ok.ids member
  have put : (dir.put written).recTree = before ++ written :: behind := replaced written id
  obtain ⟨ids, keys, adds, media, fronts⟩ := ok
  rw [shape] at ids keys adds fronts
  constructor
  case ids =>
    rw [put]
    rw [List.pairwise_append, List.pairwise_cons] at ids ⊢
    rw [id]
    refine ⟨ids.1, ids.2.1, ?_⟩
    intro x xMem y yMem
    rcases List.mem_cons.mp yMem with rfl | later
    · rw [id]
      exact ids.2.2 x xMem record List.mem_cons_self
    · exact ids.2.2 x xMem y (List.mem_cons_of_mem _ later)
  case keys =>
    rw [put]
    rw [List.pairwise_append, List.pairwise_cons] at keys ⊢
    rw [key]
    refine ⟨keys.1, ⟨fun y yMem now other => keys.2.1.1 y yMem (pending now) other, keys.2.1.2⟩, ?_⟩
    intro x xMem y yMem xPending yPending
    rcases List.mem_cons.mp yMem with rfl | later
    · rw [key]
      exact keys.2.2 x xMem record List.mem_cons_self xPending (pending yPending)
    · exact keys.2.2 x xMem y (List.mem_cons_of_mem _ later) xPending yPending
  case adds =>
    intro other otherMem now isAdd
    rw [put, List.mem_append, List.mem_cons] at otherMem
    rcases otherMem with early | rfl | late
    · exact adds other (by simp [early]) now isAdd
    · rw [key]
      exact adds record (by simp) (pending now) (type isAdd)
    · exact adds other (by simp [late]) now isAdd
  case media => exact media
  case front =>
    intro other otherMem deleted
    rw [put, List.mem_append, List.mem_cons] at otherMem
    rcases otherMem with early | rfl | late
    · exact fronts other (by simp [early]) deleted
    · exact front deleted
    · exact fronts other (by simp [late]) deleted

theorem remove (ok : DirOk dir) (id : Nat) :
    DirOk { dir with recTree := Keyed.remove Record.id id dir.recTree } where
  ids := Keyed.pairwise_remove ok.ids
  keys := Keyed.pairwise_remove ok.keys
  adds other member := ok.adds other ((Keyed.mem_remove).mp member).1
  media := ok.media
  front other member := ok.front other ((Keyed.mem_remove).mp member).1

theorem eq_of_pending (ok : DirOk dir) {other : Record} (member : record ∈ dir.recTree)
    (otherMem : other ∈ dir.recTree) (pending : record.pending = true)
    (otherPending : other.pending = true) (same : record.entry.key = other.entry.key) :
    record = other := by
  by_contra different
  have symm : Std.Symm fun x y : Record =>
      x.pending = true → y.pending = true → x.entry.key ≠ y.entry.key :=
    ⟨fun x y differ yPending xPending equal => differ xPending yPending equal.symm⟩
  exact ok.keys.forall member otherMem different pending otherPending same

/-- An addition goes to the media, and no pending addition stays in its place. -/
theorem store (ok : DirOk dir) (member : record ∈ dir.recTree) (pending : record.pending = true)
    (isAdd : record.type = .add) {written : Record} (id : written.id = record.id)
    (key : written.entry.key = record.entry.key)
    (done : written.type = .add → written.pending = false)
    (front : written.deletedFe = true → written.type = .add) :
    DirOk { dir.put written with media := dir.media ++ [record.entry] } := by
  have put := ok.put member id key (fun _ => pending) (fun _ => isAdd) front
  constructor
  case ids => exact put.ids
  case keys => exact put.keys
  case front => exact put.front
  case media =>
    rw [List.pairwise_append]
    refine ⟨ok.media, List.pairwise_singleton _ _, ?_⟩
    intro entry entryMem new isNew
    rw [List.mem_singleton.mp isNew]
    exact ok.adds record member pending isAdd entry entryMem
  case adds =>
    intro other otherMem now otherAdd entry entryMem
    rcases List.mem_append.mp entryMem with old | new
    · exact put.adds other otherMem now otherAdd entry old
    · rw [List.mem_singleton.mp new]
      intro same
      have present : ∃ old ∈ dir.recTree, old.id = written.id := ⟨record, member, id.symm⟩
      rcases (Keyed.mem_replace present).mp otherMem with rfl | ⟨others, different⟩
      · rw [done otherAdd] at now
        cases now
      · rw [← ok.eq_of_pending member others pending now same] at different
        exact different id.symm

/-- Entries leave the media. -/
theorem filter (ok : DirOk dir) (keep : Entry → Bool) :
    DirOk { dir with media := dir.media.filter keep } where
  ids := ok.ids
  keys := ok.keys
  adds other member pending isAdd entry entryMem :=
    ok.adds other member pending isAdd entry (List.mem_of_mem_filter entryMem)
  media := ok.media.filter _
  front := ok.front

end DirOk

/-- No record of the tree hides the entry. -/
def shows (tree : List Record) (entry : Entry) : Bool :=
  !tree.any fun record => record.hides entry.key

/-- The entries that a tree of records and the media give. -/
def entriesOf (tree : List Record) (media : List Entry) : List Entry :=
  (tree.filter Record.adds).map Record.entry ++ media.filter (shows tree)

section EntriesOf

variable {tree others : List Record} {media : List Entry}

theorem entriesOf_perm (media : List Entry) (perm : tree.Perm others) :
    (entriesOf tree media).Perm (entriesOf others media) := by
  have same : shows tree = shows others := by
    funext entry
    rw [shows, shows, Bool.eq_iff_iff, Bool.not_eq_true', Bool.not_eq_true', List.any_eq_false,
      List.any_eq_false]
    exact forall_congr' fun record => imp_congr_left perm.mem_iff
  rw [entriesOf, entriesOf, same]
  exact ((perm.filter _).map _).append_right _

theorem entriesOf_dead (dead : record.good = false) :
    entriesOf (record :: tree) media = entriesOf tree media := by
  have same : shows (record :: tree) = shows tree := by
    funext entry
    simp [shows, Record.hides, dead]
  rw [entriesOf, entriesOf, same, List.filter_cons_of_neg (by simp [Record.adds, dead])]

theorem entriesOf_adds (adds : record.adds = true) :
    entriesOf (record :: tree) media = record.entry :: entriesOf tree media := by
  have isAdd : record.type = .add := by
    simp only [Record.adds, Bool.and_eq_true, decide_eq_true_eq] at adds
    exact adds.2
  have same : shows (record :: tree) = shows tree := by
    funext entry
    simp [shows, Record.hides, isAdd]
  rw [entriesOf, entriesOf, same, List.filter_cons_of_pos adds, List.map_cons, List.cons_append]

theorem entriesOf_hides (good : record.good = true) (isDel : record.type = .del) :
    entriesOf (record :: tree) media =
      entriesOf tree (media.filter fun entry => entry.key ≠ record.entry.key) := by
  have notAdds : record.adds = false := by simp [Record.adds, isDel]
  rw [entriesOf, entriesOf, List.filter_cons_of_neg (by simp [notAdds]), List.filter_filter]
  congr 1
  refine List.filter_congr ?_
  intro entry _
  simp [shows, Record.hides, good, isDel, Bool.and_comm, eq_comm]

theorem entriesOf_append (entry : Entry) (shown : shows tree entry = true) :
    entriesOf tree (media ++ [entry]) = entriesOf tree media ++ [entry] := by
  rw [entriesOf, List.filter_append, List.filter_cons_of_pos shown, List.filter_nil,
    ← List.append_assoc, entriesOf]

/-- An entry on the media that is not hidden can be taken off. -/
theorem entriesOf_take {entry : Entry} (distinct : media.Pairwise fun x y => x.key ≠ y.key)
    (member : entry ∈ media) (shown : shows tree entry = true) :
    (entriesOf tree media).Perm
      (entry :: entriesOf tree (media.filter fun other => other.key ≠ entry.key)) := by
  obtain ⟨front, back, rfl, -, removed⟩ := Keyed.split_of_mem distinct member
  rw [Keyed.remove] at removed
  rw [removed, entriesOf, entriesOf, List.filter_append, List.filter_append,
    List.filter_cons_of_pos shown, ← List.append_assoc, ← List.append_assoc]
  exact List.perm_middle

end EntriesOf

namespace Dir

/-- The tree with one record in front. -/
theorem perm_of_mem (ok : DirOk dir) (member : record ∈ dir.recTree) :
    ∃ others, dir.recTree.Perm (record :: others) ∧
      (∀ written, written.id = record.id → (dir.put written).recTree.Perm (written :: others)) ∧
      Keyed.remove Record.id record.id dir.recTree = others := by
  obtain ⟨front, back, shape, replaced, removed⟩ := Keyed.split_of_mem ok.ids member
  refine ⟨front ++ back, ?_, ?_, removed⟩
  · rw [shape]
    exact List.perm_middle
  · intro written id
    rw [Dir.put, replaced written id]
    exact List.perm_middle

/-- Flags that the frontend does not look at. -/
theorem visible_interlock (ok : DirOk dir) (member : record ∈ dir.recTree) (locked : Bool) :
    (dir.put { record with interlockBe := locked }).visible.Perm dir.visible := by
  obtain ⟨others, tree, put, -⟩ := perm_of_mem ok member
  have same : ∀ media, entriesOf ({ record with interlockBe := locked } :: others) media =
      entriesOf (record :: others) media := by
    intro media
    by_cases adds : record.adds = true
    · rw [entriesOf, entriesOf, List.filter_cons_of_pos adds, List.filter_cons_of_pos (by exact adds)]
      rfl
    · rw [entriesOf, entriesOf, List.filter_cons_of_neg adds, List.filter_cons_of_neg (by exact adds)]
      rfl
  calc (dir.put { record with interlockBe := locked }).visible.Perm
        (entriesOf ({ record with interlockBe := locked } :: others) dir.media) :=
          entriesOf_perm _ (put { record with interlockBe := locked } rfl)
    _ = entriesOf (record :: others) dir.media := same dir.media
    _ |>.Perm dir.visible := entriesOf_perm _ tree.symm

theorem visible_remove (ok : DirOk dir) (member : record ∈ dir.recTree) (dead : record.good = false) :
    dir.visible.Perm
      { dir with recTree := Keyed.remove Record.id record.id dir.recTree }.visible := by
  obtain ⟨others, tree, -, removed⟩ := perm_of_mem ok member
  have after : { dir with recTree := Keyed.remove Record.id record.id dir.recTree }.visible =
      entriesOf others dir.media := by
    rw [← removed]
    rfl
  rw [after, ← entriesOf_dead dead]
  exact entriesOf_perm _ tree

theorem visible_add (adds : record.adds = true) :
    (dir.add record).visible.Perm (record.entry :: dir.visible) := by
  calc (dir.add record).visible.Perm (entriesOf (record :: dir.recTree) dir.media) :=
        entriesOf_perm _ List.perm_append_comm
    _ = record.entry :: dir.visible := entriesOf_adds adds

/-- The frontend deletes a memory record. -/
theorem visible_delete (ok : DirOk dir) (member : record ∈ dir.recTree) (adds : record.adds = true) :
    dir.visible.Perm (record.entry :: (dir.put { record with deletedFe := true }).visible) := by
  obtain ⟨others, tree, put, -⟩ := perm_of_mem ok member
  have dead : ({ record with deletedFe := true } : Record).good = false := by simp [Record.good]
  calc dir.visible.Perm (entriesOf (record :: others) dir.media) := entriesOf_perm _ tree
    _ = record.entry :: entriesOf others dir.media := entriesOf_adds adds
    _ = record.entry :: entriesOf ({ record with deletedFe := true } :: others) dir.media := by
      rw [entriesOf_dead dead]
    _ |>.Perm (record.entry :: (dir.put { record with deletedFe := true }).visible) :=
      (entriesOf_perm _ (put { record with deletedFe := true } rfl).symm).cons _

/-- The frontend covers an entry on the media by a deletion. -/
theorem visible_cover (ok : DirOk dir) {entry : Entry} (shown : entry ∈ dir.unhidden)
    (good : record.good = true) (isDel : record.type = .del) (key : record.entry.key = entry.key) :
    dir.visible.Perm (entry :: (dir.add record).visible) := by
  obtain ⟨member, notHidden⟩ := List.mem_filter.mp shown
  have added : (dir.add record).visible.Perm (entriesOf (record :: dir.recTree) dir.media) :=
    entriesOf_perm _ List.perm_append_comm
  rw [entriesOf_hides good isDel, key] at added
  exact (entriesOf_take ok.media member notHidden).trans (added.symm.cons entry)

theorem syncRecord_del (isDel : record.type = .del) :
    syncRecord dir record =
      { dir.put { record with deletedBe := true, committed := true } with
        media := dir.media.filter fun entry => entry.key ≠ record.entry.key } := by
  cases record
  cases isDel
  rfl

theorem syncRecord_deleted (isAdd : record.type = .add) (deleted : record.deletedFe = true) :
    syncRecord dir record =
      { dir.put { record with deletedFe := false, type := .del } with
        media := dir.media ++ [record.entry] } := by
  cases record
  cases isAdd
  cases deleted
  rfl

theorem syncRecord_add (isAdd : record.type = .add) (live : record.deletedFe = false) :
    syncRecord dir record =
      { dir.put { record with committed := true } with media := dir.media ++ [record.entry] } := by
  cases record
  cases isAdd
  cases live
  rfl

/-- The backend moves a record to the media: the frontend sees the same entries. -/
theorem visible_sync (ok : DirOk dir) (member : record ∈ dir.recTree)
    (pending : record.pending = true) : (syncRecord dir record).visible.Perm dir.visible := by
  obtain ⟨others, tree, put, -⟩ := perm_of_mem ok member
  have before : dir.visible.Perm (entriesOf (record :: others) dir.media) := entriesOf_perm _ tree
  refine List.Perm.trans ?_ before.symm
  simp only [Record.pending, Bool.and_eq_true, Bool.not_eq_true'] at pending
  cases isType : record.type with
  | del =>
      have live : record.deletedFe = false := by
        by_contra deleted
        have isAdd := ok.front record member (by simpa using deleted)
        rw [isType] at isAdd
        cases isAdd
      have good : record.good = true := by simp [Record.good, live, pending]
      have dead : ({ record with deletedBe := true, committed := true } : Record).good = false := by
        simp [Record.good]
      rw [syncRecord_del isType, entriesOf_hides good isType, ← entriesOf_dead dead]
      exact entriesOf_perm _ (put { record with deletedBe := true, committed := true } rfl)
  | add =>
      have absent : (dir.media ++ [record.entry]).filter
          (fun entry => entry.key ≠ record.entry.key) = dir.media := by
        rw [List.filter_append, List.filter_cons_of_neg (by simp), List.filter_nil, List.append_nil,
          List.filter_eq_self]
        intro entry entryMem
        simpa using ok.adds record member (by simp [Record.pending, pending]) isType entry entryMem
      by_cases deleted : record.deletedFe = true
      · have good : ({ record with deletedFe := false, type := .del } : Record).good = true := by
          simp [Record.good, pending]
        have after := entriesOf_perm (dir.media ++ [record.entry])
          (put { record with deletedFe := false, type := .del } rfl)
        rw [entriesOf_hides good rfl, absent] at after
        rw [syncRecord_deleted isType deleted, entriesOf_dead (by simp [Record.good, deleted])]
        exact after
      · have adds : record.adds = true := by simp [Record.adds, Record.good, deleted, pending, isType]
        have dead : ({ record with committed := true } : Record).good = false := by
          simp [Record.good]
        have shown : shows others record.entry = true := by
          rw [shows, Bool.not_eq_true', List.any_eq_false]
          intro other otherMem hides
          simp only [Record.hides, Bool.and_eq_true, decide_eq_true_eq] at hides
          have inTree : other ∈ dir.recTree := tree.mem_iff.mpr (List.mem_cons_of_mem _ otherMem)
          have same := ok.eq_of_pending member inTree (by simp [Record.pending, pending])
            (Record.pending_of_good hides.1.1) hides.2.symm
          rw [← same, isType] at hides
          cases hides.1.2
        rw [syncRecord_add isType (by simpa using deleted), entriesOf_adds adds]
        have stored := entriesOf_perm (dir.media ++ [record.entry])
          (put { record with committed := true } rfl)
        rw [entriesOf_dead dead, entriesOf_append record.entry shown] at stored
        exact stored.trans (List.perm_append_singleton _ _)

/-- The backend keeps the invariant. -/
theorem sync_ok (ok : DirOk dir) (member : record ∈ dir.recTree)
    (pending : record.pending = true) : DirOk (syncRecord dir record) := by
  cases isType : record.type with
  | del =>
      have put : DirOk (dir.put { record with deletedBe := true, committed := true }) := by
        apply ok.put member
        · rfl
        · rfl
        · simp [Record.pending]
        · exact fun isAdd => isAdd
        · exact ok.front record member
      rw [syncRecord_del isType]
      exact put.filter _
  | add =>
      by_cases deleted : record.deletedFe = true
      · rw [syncRecord_deleted isType deleted]
        apply ok.store member pending isType <;> simp
      · rw [syncRecord_add isType (by simpa using deleted)]
        apply ok.store member pending isType <;> simp [Record.pending, isType]

end Dir

end Dragonfly.Hammer.Directory
