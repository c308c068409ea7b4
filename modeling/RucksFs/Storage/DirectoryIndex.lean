import Mathlib.Data.List.Induction
import RucksFs.Db
import RucksFs.Storage.Keys

/-!
# `RocksDirectoryIndex` (`storage/src/rocks.rs`)

The column family `dir_entries` as a byte-ordered map, and the operations of the directory index on it.  Entries come
by `insert_child`, or by a committed batch of `PutDirEntry` operations that `batch_put_dir_entry` has encoded by itself.

* `IndexOp.step` — the writes; `resolvePath`, `listDir`, `isDirEmpty` — the reads.
* `lastWrite` — the last insertion of a name in a history, unless a removal follows.
* `directory_index_faithful` — after every history the reads show exactly these entries, in order.
* `listDir_eq_db` — the reads are those of `Db`, where keys and values are decoded.
-/

set_option autoImplicit false

namespace RucksFs

/-- The column family `dir_entries`. -/
abbrev RocksDirectoryIndex := OrdMap (List Byte) (List Byte)

namespace RocksDirectoryIndex

def insertChild (parent : U64) (name : Str) (inode : U64) (mode : U32) (idx : RocksDirectoryIndex) :
    RocksDirectoryIndex :=
  idx.put (encodeDirEntryKey parent name) (encodeDirValue inode mode)

def removeChild (parent : U64) (name : Str) (idx : RocksDirectoryIndex) : RocksDirectoryIndex :=
  idx.erase (encodeDirEntryKey parent name)

/-- `batch_put_dir_entry`: key and value of the operation. -/
def batchPutDirEntry (parent : U64) (name : Str) (childInode : U64) (mode : U32) : List Byte × List Byte :=
  (encodeDirEntryKey parent name, [] ++ beBytes64 childInode ++ beBytes32 mode)

/-- `batch_delete_dir_entry`: the key of the operation. -/
def batchDeleteDirEntry (parent : U64) (name : Str) : List Byte := encodeDirEntryKey parent name

def resolvePath (parent : U64) (name : Str) (idx : RocksDirectoryIndex) : FsResult (Option U64) :=
  match idx.get (encodeDirEntryKey parent name) with
  | some val => do
      let r ← decodeDirValue val
      return some r.1
  | none => return none

/-- One entry of a listing. -/
def decodeEntry (e : List Byte × List Byte) : FsResult DirEntry := do
  let name ← extractChildName e.1
  let r ← decodeDirValue e.2
  return ⟨name.val, r.1.val, r.2.val⟩

def listDir (inode : U64) (idx : RocksDirectoryIndex) : FsResult (List DirEntry) :=
  (idx.scanPrefix (dirEntryPrefix inode)).mapM decodeEntry

/-- `is_dir_empty` looks at the first key of the iterator only. -/
def isDirEmpty (parent : U64) (idx : RocksDirectoryIndex) : Bool :=
  match (idx.scanFrom (dirEntryPrefix parent)).head? with
  | some e => !decide (dirEntryPrefix parent <+: e.1)
  | none => true

end RocksDirectoryIndex

open RocksDirectoryIndex

/-- A write. -/
inductive IndexOp where
  | insertChild (parent : U64) (name : Str) (inode : U64) (mode : U32)
  | removeChild (parent : U64) (name : Str)
  | putDirEntry (parent : U64) (name : Str) (inode : U64) (mode : U32)
  | deleteDirEntry (parent : U64) (name : Str)

namespace IndexOp

def step (idx : RocksDirectoryIndex) : IndexOp → RocksDirectoryIndex
  | .insertChild p n i m => RocksDirectoryIndex.insertChild p n i m idx
  | .removeChild p n => RocksDirectoryIndex.removeChild p n idx
  | .putDirEntry p n i m => idx.put (batchPutDirEntry p n i m).1 (batchPutDirEntry p n i m).2
  | .deleteDirEntry p n => idx.erase (batchDeleteDirEntry p n)

/-- The name it is about. -/
def key : IndexOp → U64 ×ₗ Str
  | .insertChild p n _ _ | .removeChild p n | .putDirEntry p n _ _ | .deleteDirEntry p n => toLex (p, n)

/-- What it inserts; a removal inserts nothing. -/
def value : IndexOp → Option (U64 × U32)
  | .insertChild _ _ i m | .putDirEntry _ _ i m => some (i, m)
  | .removeChild .. | .deleteDirEntry .. => none

end IndexOp

/-- The index after some writes. -/
def indexAfter (ops : List IndexOp) : RocksDirectoryIndex := ops.foldl IndexOp.step ∅

/-- The last insertion of a name, unless a removal follows. -/
def lastWrite (ops : List IndexOp) (k : U64 ×ₗ Str) : Option (U64 × U32) :=
  (ops.reverse.find? fun op => decide (op.key = k)).bind IndexOp.value

/-! ## The index is the image of a map -/

/-- The column family that holds the entries of `m`. -/
def onDisk (m : OrdMap (U64 ×ₗ Str) (U64 × U32)) : RocksDirectoryIndex :=
  m.image dirKey strictMono_dirKey fun v => encodeDirValue v.1 v.2

theorem onDisk_put (m : OrdMap (U64 ×ₗ Str) (U64 × U32)) (k : U64 ×ₗ Str) (v : U64 × U32) :
    onDisk (m.put k v) = (onDisk m).put (dirKey k) (encodeDirValue v.1 v.2) := m.image_put k v

theorem onDisk_erase (m : OrdMap (U64 ×ₗ Str) (U64 × U32)) (k : U64 ×ₗ Str) :
    onDisk (m.erase k) = (onDisk m).erase (dirKey k) := m.image_erase k

/-- The entries after some writes. -/
def entriesAfter : List IndexOp → OrdMap (U64 ×ₗ Str) (U64 × U32) :=
  List.foldl (fun m op =>
    match op.value with
    | some v => m.put op.key v
    | none => m.erase op.key) ∅

/-- One write. -/
theorem step_onDisk (m : OrdMap (U64 ×ₗ Str) (U64 × U32)) (op : IndexOp) :
    op.step (onDisk m) = onDisk (match op.value with
      | some v => m.put op.key v
      | none => m.erase op.key) := by
  cases op with
  | insertChild p n i k => exact (onDisk_put m (toLex (p, n)) (i, k)).symm
  | removeChild p n => exact (onDisk_erase m (toLex (p, n))).symm
  | putDirEntry p n i k => exact (onDisk_put m (toLex (p, n)) (i, k)).symm
  | deleteDirEntry p n => exact (onDisk_erase m (toLex (p, n))).symm

theorem indexAfter_eq (ops : List IndexOp) : indexAfter ops = onDisk (entriesAfter ops) := by
  induction ops using List.reverseRecOn with
  | nil => rfl
  | append_singleton ops op ih =>
      unfold indexAfter entriesAfter at ih ⊢
      rw [List.foldl_append, List.foldl_append, ih]
      exact step_onDisk _ op

theorem get_entriesAfter (ops : List IndexOp) (k : U64 ×ₗ Str) : (entriesAfter ops).get k = lastWrite ops k := by
  induction ops using List.reverseRecOn with
  | nil => rfl
  | append_singleton ops op ih =>
      unfold entriesAfter lastWrite at ih ⊢
      rw [List.foldl_append, List.foldl_cons, List.foldl_nil, List.reverse_append, List.reverse_singleton,
        List.singleton_append]
      by_cases h : op.key = k
      · rw [List.find?_cons_of_pos (by simpa using h), Option.bind_some]
        subst h
        cases hv : op.value with
        | none => exact OrdMap.get_erase_self ..
        | some v => exact OrdMap.get_put_self ..
      · rw [List.find?_cons_of_neg (by simpa using h), ← ih]
        cases hv : op.value with
        | none => exact OrdMap.get_erase_ne _ (Ne.symm h)
        | some v => exact OrdMap.get_put_ne _ v (Ne.symm h)

/-! ## Reads -/

theorem resolvePath_onDisk (m : OrdMap (U64 ×ₗ Str) (U64 × U32)) (p : U64) (n : Str) :
    resolvePath p n (onDisk m) = .ok ((m.get (toLex (p, n))).map Prod.fst) := by
  have hget : (onDisk m).get (encodeDirEntryKey p n) =
      (m.get (toLex (p, n))).map fun v => encodeDirValue v.1 v.2 := m.get_image (toLex (p, n))
  unfold resolvePath
  rw [hget]
  cases m.get (toLex (p, n)) with
  | none => rfl
  | some v =>
      show (do let r ← decodeDirValue (encodeDirValue v.1 v.2); return some r.1) = _
      rw [decodeDirValue_encode]
      rfl

/-- A line of the listing. -/
def listed (e : Str × U64 × U32) : DirEntry := ⟨e.1.val, e.2.1.val, e.2.2.val⟩

theorem decodeEntry_encode (p : U64) (e : Str × U64 × U32) :
    decodeEntry (dirKey (toLex (p, e.1)), encodeDirValue e.2.1 e.2.2) = .ok (listed e) := by
  unfold decodeEntry dirKey
  rw [extractChildName_encode, decodeDirValue_encode]
  rfl

theorem mapM_decodeEntry (p : U64) (l : List (Str × U64 × U32)) :
    (l.map fun e => (dirKey (toLex (p, e.1)), encodeDirValue e.2.1 e.2.2)).mapM decodeEntry =
      .ok (l.map listed) := by
  induction l with
  | nil => rfl
  | cons e l ih =>
      rw [List.map_cons, List.mapM_cons, decodeEntry_encode, ih]
      rfl

/-- The listing of a directory is its slice. -/
theorem listDir_onDisk (m : OrdMap (U64 ×ₗ Str) (U64 × U32)) (p : U64) :
    RocksDirectoryIndex.listDir p (onDisk m) = .ok ((m.slice p).toList.map listed) := by
  unfold RocksDirectoryIndex.listDir onDisk
  rw [m.scanPrefix_image (dirEntryPrefix_iff p)]
  exact mapM_decodeEntry p _

theorem isDirEmpty_onDisk (m : OrdMap (U64 ×ₗ Str) (U64 × U32)) (p : U64) :
    RocksDirectoryIndex.isDirEmpty p (onDisk m) = (m.slice p).toList.isEmpty := by
  have hscan : (onDisk m).scanPrefix (dirEntryPrefix p) =
      (m.slice p).toList.map fun e => (dirKey (toLex (p, e.1)), encodeDirValue e.2.1 e.2.2) :=
    m.scanPrefix_image (dirEntryPrefix_iff p)
  have hnil := (onDisk m).scanPrefix_eq_nil_iff (dirEntryPrefix p)
  rw [hscan, List.map_eq_nil_iff] at hnil
  rw [Bool.eq_iff_iff, List.isEmpty_iff, hnil]
  unfold RocksDirectoryIndex.isDirEmpty
  cases ((onDisk m).scanFrom (dirEntryPrefix p)).head? with
  | none => simp
  | some e => simp

/-- **The index is a faithful map of directories.**  After every history of insertions and removals, a name resolves to
its last insertion unless a removal follows; a listing returns exactly the entries of its directory that are there, each
once and in byte order of the names; and a directory is empty exactly when its listing is. -/
theorem directory_index_faithful (ops : List IndexOp) (p : U64) :
    (∀ n, resolvePath p n (indexAfter ops) = .ok ((lastWrite ops (toLex (p, n))).map Prod.fst)) ∧
      ∃ l : List (Str × U64 × U32), RocksDirectoryIndex.listDir p (indexAfter ops) = .ok (l.map listed) ∧
        l.Pairwise (fun a b => a.1 < b.1) ∧ (∀ n v, (n, v) ∈ l ↔ lastWrite ops (toLex (p, n)) = some v) ∧
        (RocksDirectoryIndex.isDirEmpty p (indexAfter ops) = true ↔
          RocksDirectoryIndex.listDir p (indexAfter ops) = .ok []) := by
  rw [indexAfter_eq]
  refine ⟨fun n => ?_, ((entriesAfter ops).slice p).toList, listDir_onDisk _ p, ((entriesAfter ops).slice p).sorted,
    fun n v => ?_, ?_⟩
  · rw [resolvePath_onDisk, get_entriesAfter]
  · rw [OrdMap.mem_toList, OrdMap.get_slice, get_entriesAfter]
  · rw [isDirEmpty_onDisk, listDir_onDisk, List.isEmpty_iff]
    simp

/-! ## The decoded database -/

/-- The decoded key. -/
def decodedKey (k : U64 ×ₗ Str) : DirKey := toLex ((ofLex k).1.val, (ofLex k).2.val)

theorem strictMono_decodedKey : StrictMono decodedKey := by
  intro k k' hlt
  rw [decodedKey, decodedKey, Prod.Lex.toLex_lt_toLex]
  rcases Prod.Lex.lt_iff.1 hlt with h | ⟨h, h'⟩
  · exact Or.inl h
  · exact Or.inr ⟨congrArg Fin.val h, h'⟩

/-- The entries as `Db` has them. -/
def decoded (m : OrdMap (U64 ×ₗ Str) (U64 × U32)) : OrdMap DirKey DirValue :=
  m.image decodedKey strictMono_decodedKey fun v => ⟨v.1.val, v.2.val⟩

/-- **The bytes are read as `Db` reads its entries.** -/
theorem listDir_eq_db {m : OrdMap (U64 ×ₗ Str) (U64 × U32)} {db : Db} (h : db.dirEntries = decoded m) (p : U64) :
    RocksDirectoryIndex.listDir p (onDisk m) = .ok (db.listDir p.val) ∧
      RocksDirectoryIndex.isDirEmpty p (onDisk m) = db.isDirEmpty p.val ∧
      ∀ n, (resolvePath p n (onDisk m)).map (Option.map Fin.val) = .ok ((db.entry p.val n.val).map DirValue.inode) := by
  have hslice : (db.dirEntries.slice p.val).toList =
      (m.slice p).toList.map fun e => (e.1.val, (⟨e.2.1.val, e.2.2.val⟩ : DirValue)) := by
    rw [h]
    exact m.slice_image Fin.val Subtype.val Fin.val_injective (fun _ => rfl) p
  refine ⟨?_, ?_, fun n => ?_⟩
  · unfold Db.listDir
    rw [listDir_onDisk, hslice, List.map_map]
    rfl
  · unfold Db.isDirEmpty
    rw [isDirEmpty_onDisk, hslice, List.isEmpty_map]
  · have hentry : db.entry p.val n.val =
        (m.get (toLex (p, n))).map fun v => (⟨v.1.val, v.2.val⟩ : DirValue) := by
      unfold Db.entry
      rw [h]
      exact m.get_image (toLex (p, n))
    rw [resolvePath_onDisk, hentry]
    cases m.get (toLex (p, n)) <;> rfl

end RucksFs
