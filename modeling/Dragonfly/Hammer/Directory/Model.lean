import Dragonfly.Lib.Keyed
import Dragonfly.Lib.Outcome
import Dragonfly.Lib.Run
import Dragonfly.Hammer.Directory.Namekey

/-!
# Directory entries in memory and on the media

A directory has a tree of memory records, which add an entry or delete one on the
media, and the entries that the B-Tree has at present.  The frontend adds and deletes
entries; the backend moves the memory records to the media.  The state machine of
flushes is left out except for `HAMMER_RECF_INTERLOCK_BE`, and times are left out.
-/

namespace Dragonfly.Hammer.Directory

open Dragonfly.Lib

/-- `obj_id` of an inode -/
abbrev ObjId := Nat

/-- `HAMMER_MEM_RECORD_ADD` and `HAMMER_MEM_RECORD_DEL` -/
inductive RecordType where
  | add
  | del
  deriving DecidableEq, Repr

/-- A directory entry: the key of its record, the name and the inode. -/
structure Entry where
  key : Int
  name : Name
  objId : ObjId
  deriving DecidableEq, Repr

/-- `struct hammer_record` of a directory entry; the entry of a deletion has a key
only. -/
structure Record where
  id : Nat
  type : RecordType
  entry : Entry
  deletedFe : Bool := false
  deletedBe : Bool := false
  committed : Bool := false
  interlockBe : Bool := false
  deriving DecidableEq, Repr

/-- A directory inode: the memory records and the entries of the B-Tree. -/
structure Dir where
  alg : Dirhash
  recTree : List Record
  media : List Entry

/-- The errors of the two functions. -/
inductive Errno where
  | enospc
  | eexist
  | edeadlk
  deriving DecidableEq, Repr

/-- The directories and the inodes of a file system. -/
structure System where
  dirs : List Dir
  exists_ : ObjId → Bool
  nlinks : ObjId → Int
  targetList : ObjId → List Nat
  fresh : Nat

namespace Record

/-- Neither deleted nor committed: what `hammer_ip_iterate_mem_good` lets the frontend
see, and what `hammer_rec_rb_compare` compares. -/
def good (record : Record) : Bool :=
  !record.deletedFe && !record.deletedBe && !record.committed

/-- The backend has not disposed of the record. -/
def pending (record : Record) : Bool :=
  !record.deletedBe && !record.committed

/-- The record adds an entry that the frontend sees. -/
def adds (record : Record) : Bool := record.good && record.type = .add

/-- The record hides the entry of a key on the media. -/
def hides (record : Record) (key : Int) : Bool :=
  record.good && record.type = .del && record.entry.key = key

end Record

namespace Dir

/-- The entries of the media that no deletion hides. -/
def unhidden (dir : Dir) : List Entry :=
  dir.media.filter fun entry => !dir.recTree.any fun record => record.hides entry.key

/-- The entries that a scan with `hammer_ip_first` and `hammer_ip_next` over all keys
returns, in no particular order. -/
def visible (dir : Dir) : List Entry :=
  (dir.recTree.filter Record.adds).map Record.entry ++ dir.unhidden

/-- `hammer_ip_lookup` with `HAMMER_CURSOR_DELETE_VISIBILITY` finds a record of the key. -/
def used (dir : Dir) (key : Int) : Bool :=
  dir.recTree.any (fun record => record.entry.key = key) ||
    dir.media.any (fun entry => entry.key = key)

/-- `RB_INSERT` of `hammer_mem_add` meets a record of the same key. -/
def collides (dir : Dir) (key : Int) : Bool :=
  dir.recTree.any fun record => record.good && record.entry.key = key

def add (dir : Dir) (record : Record) : Dir :=
  { dir with recTree := dir.recTree ++ [record] }

/-- Write a record of the tree. -/
def put (dir : Dir) (record : Record) : Dir :=
  { dir with recTree := Keyed.replace Record.id record dir.recTree }

/-- The record of an id. -/
def find (dir : Dir) (id : Nat) : Option Record :=
  dir.recTree.find? fun record => record.id = id

end Dir

/-- The search for an unused key. -/
def findKey (used : Int → Bool) : Nat → Int → Outcome (Option Int)
  | 0, _ => .done none
  | iterations + 1, key =>
      if used key then
        .kkassert (0 < int64 (key + 1)) <|
          if iterations = 0 then .done none else findKey used iterations (int64 (key + 1))
      else .done (some key)

namespace System

/-- Change a directory. -/
def setDir (system : System) (index : Nat) (dir : Dir) : System :=
  { system with dirs := system.dirs.set index dir }

/-- `ino_data.nlinks` of an inode changes. -/
def link (system : System) (ip : ObjId) (change : Int) : System :=
  { system with nlinks := Function.update system.nlinks ip (system.nlinks ip + change) }

/-- A record is put at the tail of the `target_list` of an inode. -/
def target (system : System) (ip : ObjId) (id : Nat) : System :=
  { system with
    targetList := Function.update system.targetList ip (system.targetList ip ++ [id])
    fresh := id + 1 }

/-- The record of a deletion is targeted if there is an inode. -/
def targetIf (system : System) (ip : Option ObjId) (id : Nat) : System :=
  match ip with
  | none => { system with fresh := id + 1 }
  | some ip => system.target ip id

/-- A record leaves the target lists. -/
def untarget (system : System) (id : Nat) : System :=
  { system with targetList := fun ip => (system.targetList ip).filter (· ≠ id) }

end System

/-- `hammer_mem_add`: the error and the state; a record that cannot be inserted is
released, which takes it off the target list. -/
def memAdd (system : System) (index : Nat) (dir : Dir) (record : Record) :
    Option Errno × System :=
  if record.good && dir.collides record.entry.key then
    (some .eexist, system.untarget record.id)
  else
    (none, system.setDir index (dir.add record))

/-- `hammer_ip_add_directory` -/
def addDirectory (crc32 : Name → UInt32) (system : System) (index : Nat) (dip : Dir)
    (name : Name) (ip : ObjId) : Outcome (Option Errno × System) :=
  let linked := system.link ip 1
  (findKey dip.used (maxIterations dip.alg) (namekey crc32 dip.alg name)).bind fun
    | none => .done (some .enospc, linked)
    | some key =>
        .done (memAdd (linked.target ip system.fresh) index dip
          { id := system.fresh, type := .add, entry := ⟨key, name, ip⟩ })

/-- Where a cursor stands: at a memory record, or at a record of the B-Tree. -/
inductive Place where
  | inmem (id : Nat)
  | media (key : Int)
  deriving DecidableEq, Repr

/-- One less link, if there is an inode. -/
def unlink (system : System) (ip : Option ObjId) : System :=
  match ip with
  | none => system
  | some ip => system.link ip (-1)

/-- `hammer_ip_del_directory` -/
def delDirectory (system : System) (index : Nat) (dip : Dir) (place : Place)
    (ip : Option ObjId) : Outcome (Option Errno × System) :=
  match place with
  | .inmem id =>
      match dip.find id with
      | none => .more
      | some record =>
          if record.interlockBe || record.deletedBe || record.committed then
            .done (some .edeadlk, system)
          else
            .kkassert (record.type = .add) <|
              .done (none, unlink (system.setDir index (dip.put { record with deletedFe := true })) ip)
  | .media key =>
      let record : Record := { id := system.fresh, type := .del, entry := ⟨key, [], 0⟩ }
      match memAdd (system.targetIf ip system.fresh) index dip record with
      | (none, added) => .done (none, unlink added ip)
      | (some error, failed) => .done (some error, failed)

/-- `hammer_ip_sync_record_cursor` on a directory entry, when it succeeds. -/
def syncRecord (dir : Dir) (record : Record) : Dir :=
  match record.type with
  | .del =>
      { dir.put { record with deletedBe := true, committed := true } with
        media := dir.media.filter fun entry => entry.key ≠ record.entry.key }
  | .add =>
      if record.deletedFe then
        -- the entry is synced for the sake of its dependencies, and covered by a deletion
        { dir.put { record with deletedFe := false, type := .del } with
          media := dir.media ++ [record.entry] }
      else
        { dir.put { record with committed := true } with media := dir.media ++ [record.entry] }

/-- A call of the frontend, or a step of the backend on a record of a directory. -/
inductive Label where
  | add (index : Nat) (name : Name) (ip : ObjId)
  | del (index : Nat) (place : Place) (ip : Option ObjId)
  | interlock (index id : Nat)
  | sync (index id : Nat)
  | finish (index id : Nat)
  | destroy (index id : Nat)

/-- The entry a cursor stands at; scans do not stop at records that are deleted. -/
def Dir.entryAt (dir : Dir) : Place → Option Entry
  | .inmem id => (dir.recTree.find? fun record =>
      record.id = id && record.type = .add && !record.deletedFe).map Record.entry
  | .media key => dir.unhidden.find? fun entry => entry.key = key

/-- What the callers see to: the name to be added is not there, the inode exists, and
the entry to be deleted is that of the inode. -/
def Called (system : System) : Label → Prop
  | .add index name ip => system.exists_ ip = true ∧
      ∀ dir ∈ system.dirs[index]?, ∀ entry ∈ dir.visible, entry.name ≠ name
  | .del index place ip => ∀ dir ∈ system.dirs[index]?, ∃ entry, dir.entryAt place = some entry ∧
      ip = if system.exists_ entry.objId then some entry.objId else none
  | _ => True

/-- One step, with the error that a call returns. -/
inductive Step (crc32 : Name → UInt32) (system : System) :
    Label → Option Errno → System → Prop where
  | add {index : Nat} {name : Name} {ip : ObjId} {dir : Dir} {error : Option Errno} {next : System}
      (found : system.dirs[index]? = some dir)
      (done : addDirectory crc32 system index dir name ip = .done (error, next)) :
      Step crc32 system (.add index name ip) error next
  | del {index : Nat} {place : Place} {ip : Option ObjId} {dir : Dir} {error : Option Errno}
      {next : System} (found : system.dirs[index]? = some dir)
      (done : delDirectory system index dir place ip = .done (error, next)) :
      Step crc32 system (.del index place ip) error next
  | interlock {index id : Nat} {dir : Dir} {record : Record}
      (found : system.dirs[index]? = some dir) (member : record ∈ dir.recTree) (is : record.id = id) :
      Step crc32 system (.interlock index id) none
        (system.setDir index (dir.put { record with interlockBe := true }))
  | sync {index id : Nat} {dir : Dir} {record : Record}
      (found : system.dirs[index]? = some dir) (member : record ∈ dir.recTree) (is : record.id = id)
      (locked : record.interlockBe = true) (pending : record.pending = true) :
      Step crc32 system (.sync index id) none (system.setDir index (syncRecord dir record))
  | finish {index id : Nat} {dir : Dir} {record : Record}
      (found : system.dirs[index]? = some dir) (member : record ∈ dir.recTree) (is : record.id = id) :
      Step crc32 system (.finish index id) none
        ((if record.pending then system else system.untarget id).setDir index
          (dir.put { record with interlockBe := false }))
  | destroy {index id : Nat} {dir : Dir} {record : Record}
      (found : system.dirs[index]? = some dir) (member : record ∈ dir.recTree) (is : record.id = id)
      (free : record.interlockBe = false) (dead : record.good = false) :
      Step crc32 system (.destroy index id) none
        ((system.untarget id).setDir index
          { dir with recTree := Keyed.remove Record.id id dir.recTree })

/-- The steps of a run. -/
def Move (crc32 : Name → UInt32) (system : System) (label : Label) (next : System) : Prop :=
  Called system label ∧ ∃ error, Step crc32 system label error next

/-- `hammer_vop_nresolve`: scan the keys of the range for the name. -/
def nresolve (crc32 : Name → UInt32) (dip : Dir) (name : Name) : Option ObjId :=
  (dip.visible.find? fun entry =>
    namekey crc32 dip.alg name ≤ entry.key ∧ entry.key ≤ keyEnd crc32 dip.alg name ∧
      entry.name = name).map Entry.objId

end Dragonfly.Hammer.Directory
