import RucksFs.Lib.OrdMap
import RucksFs.Delta

/-!
# The database (`storage/src/lib.rs`, `storage/src/rocks.rs`)

The column families as ordered maps.  Keys are the decoded ones: the prefix bytes `I`, `L`, `S`
of the `inodes` column family keep inode records, data locations and symlink targets apart, so
they are three maps here, and `next_inode` is a field of its own.  Directory entries are ordered
by parent and then by name bytes, deltas by inode and then by sequence number, as the big-endian
keys are.

* `BatchOp`, `applyBatch` — a write batch, applied in the order it was pushed.
* `deltas`, `effective` — the stored deltas of an inode in sequence order, and the record
  folded with them.
* `names` — the number of directory entries whose value names an inode.
-/

set_option autoImplicit false

namespace RucksFs

abbrev DirKey := Inode ×ₗ Name

abbrev DeltaKey := Inode ×ₗ Nat

/-- `BatchOp`. -/
inductive BatchOp where
  | putInode (inode : Inode) (value : InodeValue)
  | deleteInode (inode : Inode)
  | putDirEntry (parent : Inode) (name : Name) (value : DirValue)
  | deleteDirEntry (parent : Inode) (name : Name)
  | putDelta (inode : Inode) (seq : Nat) (value : DeltaOp)
  | deleteDelta (inode : Inode) (seq : Nat)
  | putDataLocation (inode : Inode) (serverId : String)
  | deleteDataLocation (inode : Inode)
  | putSymlink (inode : Inode) (target : List Byte)
  | deleteSymlink (inode : Inode)
  deriving DecidableEq

/-- Committed contents of the database. -/
structure Db where
  inodes : OrdMap Inode InodeValue := ∅
  dataLocations : OrdMap Inode String := ∅
  symlinks : OrdMap Inode (List Byte) := ∅
  nextInode : Option Nat := none
  dirEntries : OrdMap DirKey DirValue := ∅
  deltaEntries : OrdMap DeltaKey DeltaOp := ∅
  deriving DecidableEq

namespace Db

def applyOp (db : Db) : BatchOp → Db
  | .putInode i v => { db with inodes := db.inodes.put i v }
  | .deleteInode i => { db with inodes := db.inodes.erase i }
  | .putDirEntry p n v => { db with dirEntries := db.dirEntries.put (toLex (p, n)) v }
  | .deleteDirEntry p n => { db with dirEntries := db.dirEntries.erase (toLex (p, n)) }
  | .putDelta i q d => { db with deltaEntries := db.deltaEntries.put (toLex (i, q)) d }
  | .deleteDelta i q => { db with deltaEntries := db.deltaEntries.erase (toLex (i, q)) }
  | .putDataLocation i s => { db with dataLocations := db.dataLocations.put i s }
  | .deleteDataLocation i => { db with dataLocations := db.dataLocations.erase i }
  | .putSymlink i t => { db with symlinks := db.symlinks.put i t }
  | .deleteSymlink i => { db with symlinks := db.symlinks.erase i }

/-- Apply a batch in push order. -/
def applyBatch (db : Db) (ops : List BatchOp) : Db := ops.foldl applyOp db

@[simp] theorem applyBatch_nil (db : Db) : db.applyBatch [] = db := rfl

@[simp] theorem applyBatch_cons (db : Db) (op : BatchOp) (ops : List BatchOp) :
    db.applyBatch (op :: ops) = (db.applyOp op).applyBatch ops := rfl

theorem applyBatch_append (db : Db) (ops ops' : List BatchOp) :
    db.applyBatch (ops ++ ops') = (db.applyBatch ops).applyBatch ops' :=
  List.foldl_append

/-- The inode record under key `i`. -/
def inode (db : Db) (i : Inode) : Option InodeValue := db.inodes.get i

/-- The directory entry under key `(p, n)`. -/
def entry (db : Db) (p : Inode) (n : Name) : Option DirValue := db.dirEntries.get (toLex (p, n))

/-- `scan_deltas_with_keys`: the stored deltas of an inode in sequence order. -/
def scanDeltas (db : Db) (i : Inode) : List (Nat × DeltaOp) := (db.deltaEntries.slice i).toList

def deltas (db : Db) (i : Inode) : List DeltaOp := (db.scanDeltas i).map (·.2)

/-- The stored base record folded with all stored deltas. -/
def effective (db : Db) (i : Inode) : Option InodeValue :=
  (db.inode i).map (fun base => foldDeltas base (db.deltas i))

/-- `is_dir_empty`: the prefix scan finds no key. -/
def isDirEmpty (db : Db) (d : Inode) : Bool := (db.dirEntries.slice d).toList.isEmpty

/-- `list_dir`: the entries under `d` in byte order of their names. -/
def listDir (db : Db) (d : Inode) : List DirEntry :=
  (db.dirEntries.slice d).toList.map (fun p => ⟨p.1, p.2.inode, p.2.mode⟩)

/-- Number of directory entries whose value names `i`. -/
def names (db : Db) (i : Inode) : Nat := db.dirEntries.count (fun _ v => v.inode == i)

/-- Some directory entry names `i`. -/
def Named (db : Db) (i : Inode) : Prop := ∃ p n v, db.entry p n = some v ∧ v.inode = i

/-- Number of entries under `p` whose value says that the target is a directory. -/
def dirModeEntries (db : Db) (p : Inode) : Nat :=
  db.dirEntries.count (fun k v => (ofLex k).1 == p && isDir v.mode)

/-- A stored record of directory type. -/
def IsDirectory (db : Db) (i : Inode) : Prop := ∃ iv, db.inode i = some iv ∧ isDir iv.mode = true

/-- Number of entries under `p` whose target's stored record is a directory. -/
def subdirs (db : Db) (p : Inode) : Nat :=
  db.dirEntries.count fun k v => (ofLex k).1 == p &&
    (match db.inode v.inode with
     | some iv => isDir iv.mode
     | none => false)

/-- The stored record of `i` is a directory's. -/
def isDirAt (db : Db) (i : Inode) : Bool :=
  match db.inode i with
  | some iv => isDir iv.mode
  | none => false

theorem isDirAt_some {db : Db} {i : Inode} {iv : InodeValue} (h : db.inode i = some iv) :
    db.isDirAt i = isDir iv.mode := by
  unfold isDirAt
  rw [h]

theorem subdirs_eq (db : Db) (p : Inode) :
    db.subdirs p = db.dirEntries.count fun k v => (ofLex k).1 == p && db.isDirAt v.inode := rfl

/-! ## Point reads after one operation -/

theorem inode_applyOp (db : Db) (op : BatchOp) (i : Inode) :
    (db.applyOp op).inode i =
      match op with
      | .putInode j v => if i = j then some v else db.inode i
      | .deleteInode j => if i = j then none else db.inode i
      | _ => db.inode i := by
  cases op <;> simp [applyOp, inode, OrdMap.get_put, OrdMap.get_erase]

theorem entry_applyOp (db : Db) (op : BatchOp) (p : Inode) (n : Name) :
    (db.applyOp op).entry p n =
      match op with
      | .putDirEntry p' n' v => if p = p' ∧ n = n' then some v else db.entry p n
      | .deleteDirEntry p' n' => if p = p' ∧ n = n' then none else db.entry p n
      | _ => db.entry p n := by
  cases op <;> simp [applyOp, entry, OrdMap.get_put, OrdMap.get_erase]

theorem names_pos {db : Db} {i : Inode} : 0 < db.names i ↔ db.Named i := by
  unfold names Named
  rw [OrdMap.count_pos]
  constructor
  · rintro ⟨k, v, hk, hv⟩
    exact ⟨(ofLex k).1, (ofLex k).2, v, hk, by simpa using hv⟩
  · rintro ⟨p, n, v, hk, hv⟩
    exact ⟨toLex (p, n), v, hk, by simpa using hv⟩

theorem isDirEmpty_iff {db : Db} {d : Inode} : db.isDirEmpty d = true ↔ ∀ n, db.entry d n = none := by
  unfold isDirEmpty entry
  rw [List.isEmpty_iff, OrdMap.toList_eq_nil]
  simp

end Db

end RucksFs
