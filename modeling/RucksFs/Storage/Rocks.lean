import RucksFs.Storage.DirectoryIndex
import RucksFs.Storage.Records

/-!
# The column families and transactions of `storage/src/rocks.rs`

A RocksDB database is one byte-ordered map for each column family.  The column family `inodes` holds four kinds of
keys: records (`I`), data locations (`L`), symlink targets (`S`) and the counter `next_inode`.

* `RocksDb`, `RawBatchOp`, `RocksWriteBatch` — the database, `BatchOp` with its bytes, and a transaction, which reads
  its own writes over the database and holds the locks of its rows.
* `SizedDb`, `SizedOp` — a database and its writes with the widths of the source's types.  A value that cannot be
  encoded cannot be built.
* `Stored` — the bytes of a sized database; `SizedDb.db` — what they mean.  `Stored.apply`, `SizedDb.db_apply`: one
  write does the same to both.
-/

set_option autoImplicit false

namespace RucksFs

open Bytes

/-- `ALL_CFS`. -/
inductive Cf where
  | inodes
  | dirEntries
  | system
  | deltaEntries
  deriving DecidableEq, Repr

abbrev Column := OrdMap (List Byte) (List Byte)

abbrev RocksDb := Cf → Column

/-- A write to one row: the new value, or none for a deletion. -/
structure RowWrite where
  cf : Cf
  key : List Byte
  value : Option (List Byte)
  deriving DecidableEq

/-- `put_cf`, `delete_cf`. -/
def RocksDb.write (db : RocksDb) (w : RowWrite) : RocksDb :=
  Function.update db w.cf (match w.value with
    | some v => (db w.cf).put w.key v
    | none => (db w.cf).erase w.key)

/-- `BatchOp` (`storage/src/lib.rs`). -/
inductive RawBatchOp where
  | putInode (key value : List Byte)
  | deleteInode (key : List Byte)
  | putDirEntry (key value : List Byte)
  | deleteDirEntry (key : List Byte)
  | putDelta (key value : List Byte)
  | deleteDelta (key : List Byte)
  | putSystem (key value : List Byte)
  | putDataLocation (key value : List Byte)
  | deleteDataLocation (key : List Byte)
  | putSymlink (key value : List Byte)
  | deleteSymlink (key : List Byte)

/-- The write that `RocksWriteBatch::push` makes. -/
def RawBatchOp.write : RawBatchOp → RowWrite
  | .putInode key value => ⟨.inodes, key, some value⟩
  | .deleteInode key => ⟨.inodes, key, none⟩
  | .putDirEntry key value => ⟨.dirEntries, key, some value⟩
  | .deleteDirEntry key => ⟨.dirEntries, key, none⟩
  | .putDelta key value => ⟨.deltaEntries, key, some value⟩
  | .deleteDelta key => ⟨.deltaEntries, key, none⟩
  | .putSystem key value => ⟨.system, key, some value⟩
  | .putDataLocation key value => ⟨.inodes, key, some value⟩
  | .deleteDataLocation key => ⟨.inodes, key, none⟩
  | .putSymlink key value => ⟨.inodes, key, some value⟩
  | .deleteSymlink key => ⟨.inodes, key, none⟩

/-- A transaction: its writes in the order they were made, and the rows it has locked. -/
structure RocksWriteBatch where
  writes : List RowWrite := []
  locks : List (Cf × List Byte) := []

namespace RocksWriteBatch

/-- What the transaction reads: its own writes over the database. -/
def view (b : RocksWriteBatch) (db : RocksDb) : RocksDb := b.writes.foldl RocksDb.write db

def push (op : RawBatchOp) (b : RocksWriteBatch) : RocksWriteBatch where
  writes := b.writes ++ [op.write]
  locks := (op.write.cf, op.write.key) :: b.locks

/-- `get_for_update_cf`: the value, and the lock. -/
def getForUpdate (cf : Cf) (key : List Byte) (db : RocksDb) (b : RocksWriteBatch) :
    Option (List Byte) × RocksWriteBatch :=
  (((b.view db) cf).get key, { b with locks := (cf, key) :: b.locks })

def isDirEmpty (parent : U64) (db : RocksDb) (b : RocksWriteBatch) : Bool :=
  RocksDirectoryIndex.isDirEmpty parent ((b.view db) .dirEntries)

end RocksWriteBatch

/-! ## Keys of the column family `inodes` -/

/-- `b'I'`. -/
def INODE_KEY_PREFIX : Byte := 73

/-- `b'L'`. -/
def DATA_LOCATION_KEY_PREFIX : Byte := 76

/-- `b'S'`. -/
def SYMLINK_KEY_PREFIX : Byte := 83

def encodeInodeKey (inode : U64) : List Byte := INODE_KEY_PREFIX :: beBytes64 inode

def encodeDataLocationKey (inode : U64) : List Byte := DATA_LOCATION_KEY_PREFIX :: beBytes64 inode

def encodeSymlinkKey (inode : U64) : List Byte := SYMLINK_KEY_PREFIX :: beBytes64 inode

/-- `b"next_inode"`. -/
def NEXT_INODE_KEY : List Byte := [110, 101, 120, 116, 95, 105, 110, 111, 100, 101]

inductive InodesKey where
  | record (i : U64)
  | location (i : U64)
  | symlink (i : U64)
  | nextInode
  deriving DecidableEq

def InodesKey.encode : InodesKey → List Byte
  | .record i => encodeInodeKey i
  | .location i => encodeDataLocationKey i
  | .symlink i => encodeSymlinkKey i
  | .nextInode => NEXT_INODE_KEY

/-- The first byte tells the kinds apart. -/
theorem InodesKey.encode_injective : Function.Injective InodesKey.encode := by
  intro k k' h
  have hhead : k.encode.head? = k'.encode.head? := by rw [h]
  have htail : k.encode.tail = k'.encode.tail := by rw [h]
  cases k <;> cases k' <;> first
    | rfl
    | exact congrArg _ (beBytes64_inj htail)
    | exact absurd hhead (by simp [encode, encodeInodeKey, encodeDataLocationKey, encodeSymlinkKey, NEXT_INODE_KEY,
        INODE_KEY_PREFIX, DATA_LOCATION_KEY_PREFIX, SYMLINK_KEY_PREFIX])

/-- The column family holds `f` and nothing else. -/
structure Holds (f : InodesKey → Option (List Byte)) (cf : Column) : Prop where
  get : ∀ k : InodesKey, cf.get k.encode = f k
  only : ∀ {key v}, cf.get key = some v → ∃ k : InodesKey, k.encode = key

/-- What one row's write leaves under each key. -/
theorem RocksDb.get_write (db : RocksDb) (w : RowWrite) (key : List Byte) :
    (db.write w w.cf).get key = if key = w.key then w.value else (db w.cf).get key := by
  rw [RocksDb.write, Function.update_self]
  cases w.value with
  | some v => simp [OrdMap.get_put]
  | none => simp [OrdMap.get_erase]

theorem Holds.write {f g : InodesKey → Option (List Byte)} {db : RocksDb} (h : Holds f (db .inodes)) {k : InodesKey}
    {o : Option (List Byte)} (hg : ∀ j, g j = if j = k then o else f j) :
    Holds g (db.write ⟨.inodes, k.encode, o⟩ .inodes) := by
  constructor
  · intro j
    rw [RocksDb.get_write, h.get, hg]
    simp only [InodesKey.encode_injective.eq_iff]
  · intro key v hv
    rw [RocksDb.get_write] at hv
    split at hv
    · exact ⟨k, by simp_all⟩
    · exact h.only hv

/-! ## Arguments of the source's types -/

/-- An inode number as a `u64`. -/
def u64 (n : Nat) : U64 := Fin.ofNat (2 ^ 64) n

@[simp] theorem u64_val (i : U64) : u64 i.val = i := by
  simp [u64]

theorem val_u64 {n : Nat} (h : n < 2 ^ 64) : (u64 n).val = n := Nat.mod_eq_of_lt h

def u32 (n : Nat) : U32 := Fin.ofNat (2 ^ 32) n

@[simp] theorem u32_val (i : U32) : u32 i.val = i := by
  simp [u32]

/-- A name as a `&str`.  Other bytes than UTF-8 do not occur in one; the empty name stands for them. -/
def asStr (n : Name) : Str := if h : Utf8.valid n = true then ⟨n, h⟩ else ⟨[], rfl⟩

@[simp] theorem asStr_val (n : Str) : asStr n.val = n := dif_pos n.property

/-- `as_bytes`. -/
def stringBytes (s : String) : List Byte := s.toUTF8.data.toList.map UInt8.toFin

/-- `String::from_utf8`. -/
def stringFromUtf8 (bytes : List Byte) : Option String :=
  String.fromUTF8? ⟨(bytes.map UInt8.ofFin).toArray⟩

@[simp] theorem stringFromUtf8_bytes (s : String) : stringFromUtf8 (stringBytes s) = some s := by
  have hback : (stringBytes s).map UInt8.ofFin = s.toUTF8.data.toList := by
    unfold stringBytes
    rw [List.map_map]
    exact List.map_id' _
  unfold stringFromUtf8
  rw [hback, Array.toArray_toList]
  unfold String.fromUTF8?
  exact dif_pos s.isValidUTF8

/-! ## Databases within the widths -/

/-- A stored record: version 1, and every field within its width. -/
abbrev SizedInode := { v : InodeValue // v.Fits ∧ v.version = 1 }

abbrev SizedDelta := { d : DeltaOp // d.Fits }

/-- Every number of a delta has a successor. -/
def Below (m : OrdMap (U64 ×ₗ U64) SizedDelta) : Prop := ∀ k d, m.get k = some d → (ofLex k).2.val + 1 < 2 ^ 64

namespace Below

variable {m : OrdMap (U64 ×ₗ U64) SizedDelta}

theorem put (h : Below m) (i : U64) {q : U64} (hq : q.val + 1 < 2 ^ 64) (d : SizedDelta) :
    Below (m.put (toLex (i, q)) d) := by
  intro k d' hget
  rw [OrdMap.get_put] at hget
  split at hget
  · rename_i hk
    rw [hk]
    exact hq
  · exact h k d' hget

theorem erase (h : Below m) (k : U64 ×ₗ U64) : Below (m.erase k) := by
  intro k' d' hget
  rw [OrdMap.get_erase] at hget
  split at hget
  · cases hget
  · exact h k' d' hget

theorem foldl_erase (h : Below m) (ks : List (U64 ×ₗ U64)) : Below (ks.foldl OrdMap.erase m) := by
  induction ks generalizing m with
  | nil => exact h
  | cons k ks ih => exact ih (h.erase k)

end Below

structure SizedDb where
  inodes : OrdMap U64 SizedInode := ∅
  dataLocations : OrdMap U64 String := ∅
  symlinks : OrdMap U64 Str := ∅
  nextInode : Option U64 := none
  dirEntries : OrdMap (U64 ×ₗ Str) (U64 × U32) := ∅
  deltaEntries : OrdMap (U64 ×ₗ U64) SizedDelta := ∅
  below : Below deltaEntries

def SizedDb.empty : SizedDb where
  below _ _ h := by cases h

inductive SizedOp where
  | putInode (i : U64) (v : SizedInode)
  | deleteInode (i : U64)
  | putDirEntry (p : U64) (n : Str) (i : U64) (mode : U32)
  | deleteDirEntry (p : U64) (n : Str)
  | putDelta (i q : U64) (d : SizedDelta) (hq : q.val + 1 < 2 ^ 64)
  | deleteDelta (i q : U64)
  | putDataLocation (i : U64) (serverId : String)
  | deleteDataLocation (i : U64)
  | putSymlink (i : U64) (target : Str)
  | deleteSymlink (i : U64)

/-- The operation that the server asks for. -/
def SizedOp.op : SizedOp → BatchOp
  | .putInode i v => .putInode i.val v.val
  | .deleteInode i => .deleteInode i.val
  | .putDirEntry p n i m => .putDirEntry p.val n.val ⟨i.val, m.val⟩
  | .deleteDirEntry p n => .deleteDirEntry p.val n.val
  | .putDelta i q d _ => .putDelta i.val q.val d.val
  | .deleteDelta i q => .deleteDelta i.val q.val
  | .putDataLocation i s => .putDataLocation i.val s
  | .deleteDataLocation i => .deleteDataLocation i.val
  | .putSymlink i t => .putSymlink i.val t.val
  | .deleteSymlink i => .deleteSymlink i.val

/-- `batch_put_inode`, `batch_delete_inode` and the others: keys and values as bytes. -/
def BatchOp.raw : BatchOp → RawBatchOp
  | .putInode i v => .putInode (encodeInodeKey (u64 i)) v.serialize
  | .deleteInode i => .deleteInode (encodeInodeKey (u64 i))
  | .putDirEntry p n v =>
      let e := RocksDirectoryIndex.batchPutDirEntry (u64 p) (asStr n) (u64 v.inode) (u32 v.mode)
      .putDirEntry e.1 e.2
  | .deleteDirEntry p n => .deleteDirEntry (RocksDirectoryIndex.batchDeleteDirEntry (u64 p) (asStr n))
  | .putDelta i q d => .putDelta (encodeDeltaKey (u64 i) (u64 q)) d.serialize
  | .deleteDelta i q => .deleteDelta (encodeDeltaKey (u64 i) (u64 q))
  | .putDataLocation i s => .putDataLocation (encodeDataLocationKey (u64 i)) (stringBytes s)
  | .deleteDataLocation i => .deleteDataLocation (encodeDataLocationKey (u64 i))
  | .putSymlink i t => .putSymlink (encodeSymlinkKey (u64 i)) t
  | .deleteSymlink i => .deleteSymlink (encodeSymlinkKey (u64 i))

namespace SizedDb

def apply (t : SizedDb) : SizedOp → SizedDb
  | .putInode i v => { t with inodes := t.inodes.put i v }
  | .deleteInode i => { t with inodes := t.inodes.erase i }
  | .putDirEntry p n i m => { t with dirEntries := t.dirEntries.put (toLex (p, n)) (i, m) }
  | .deleteDirEntry p n => { t with dirEntries := t.dirEntries.erase (toLex (p, n)) }
  | .putDelta i q d hq => { t with deltaEntries := t.deltaEntries.put (toLex (i, q)) d, below := t.below.put i hq d }
  | .deleteDelta i q => { t with deltaEntries := t.deltaEntries.erase (toLex (i, q)), below := t.below.erase _ }
  | .putDataLocation i s => { t with dataLocations := t.dataLocations.put i s }
  | .deleteDataLocation i => { t with dataLocations := t.dataLocations.erase i }
  | .putSymlink i s => { t with symlinks := t.symlinks.put i s }
  | .deleteSymlink i => { t with symlinks := t.symlinks.erase i }

def applyAll (t : SizedDb) (ops : List SizedOp) : SizedDb := ops.foldl apply t

/-- The value under each key of the column family `inodes`. -/
def inodesValue (t : SizedDb) : InodesKey → Option (List Byte)
  | .record i => (t.inodes.get i).map fun v => v.val.serialize
  | .location i => (t.dataLocations.get i).map stringBytes
  | .symlink i => (t.symlinks.get i).map Subtype.val
  | .nextInode => t.nextInode.map beBytes64

/-- What the bytes mean. -/
def db (t : SizedDb) : Db where
  inodes := t.inodes.image Fin.val Fin.val_strictMono Subtype.val
  dataLocations := t.dataLocations.image Fin.val Fin.val_strictMono id
  symlinks := t.symlinks.image Fin.val Fin.val_strictMono Subtype.val
  nextInode := t.nextInode.map Fin.val
  dirEntries := decoded t.dirEntries
  deltaEntries := t.deltaEntries.image decodedDeltaKey strictMono_decodedDeltaKey Subtype.val

theorem inode_db (t : SizedDb) (i : U64) : t.db.inode i.val = (t.inodes.get i).map Subtype.val := by
  rw [Db.inode, db, OrdMap.get_image]

theorem dataLocations_db (t : SizedDb) (i : U64) : t.db.dataLocations.get i.val = t.dataLocations.get i := by
  rw [db, OrdMap.get_image, Option.map_id, id]

theorem symlinks_db (t : SizedDb) (i : U64) : t.db.symlinks.get i.val = (t.symlinks.get i).map Subtype.val := by
  rw [db, OrdMap.get_image]

theorem entry_db (t : SizedDb) (p : U64) (n : Str) : t.db.entry p.val n.val =
    (t.dirEntries.get (toLex (p, n))).map fun v => (⟨v.1.val, v.2.val⟩ : DirValue) := by
  show (t.dirEntries.image decodedKey strictMono_decodedKey _).get (decodedKey (toLex (p, n))) = _
  rw [OrdMap.get_image]

theorem scanDeltas_db (t : SizedDb) (i : U64) :
    t.db.scanDeltas i.val = (t.deltaEntries.slice i).toList.map fun e => (e.1.val, e.2.val) := by
  show ((t.deltaEntries.image decodedDeltaKey strictMono_decodedDeltaKey Subtype.val).slice i.val).toList = _
  exact t.deltaEntries.slice_image Fin.val Fin.val Fin.val_injective (fun _ => rfl) i

/-- **A write means the same on both levels.** -/
theorem db_apply (t : SizedDb) (op : SizedOp) : (t.apply op).db = t.db.applyOp op.op := by
  cases op with
  | putDirEntry p n i m =>
      have hput : decoded (t.dirEntries.put (toLex (p, n)) (i, m)) =
          (decoded t.dirEntries).put (toLex (p.val, n.val)) ⟨i.val, m.val⟩ := t.dirEntries.image_put ..
      simp only [apply, db, SizedOp.op, Db.applyOp, hput]
  | deleteDirEntry p n =>
      have herase : decoded (t.dirEntries.erase (toLex (p, n))) =
          (decoded t.dirEntries).erase (toLex (p.val, n.val)) := t.dirEntries.image_erase ..
      simp only [apply, db, SizedOp.op, Db.applyOp, herase]
  | putDelta i q d hq =>
      simp only [apply, db, SizedOp.op, Db.applyOp, OrdMap.image_put]
      rfl
  | deleteDelta i q =>
      simp only [apply, db, SizedOp.op, Db.applyOp, OrdMap.image_erase]
      rfl
  | _ => simp only [apply, db, SizedOp.op, Db.applyOp, OrdMap.image_put, OrdMap.image_erase, id]

theorem db_applyAll (t : SizedDb) (ops : List SizedOp) :
    (t.applyAll ops).db = t.db.applyBatch (ops.map SizedOp.op) := by
  induction ops generalizing t with
  | nil => rfl
  | cons op ops ih =>
      rw [List.map_cons, Db.applyBatch_cons, ← db_apply]
      exact ih (t.apply op)

end SizedDb

/-- The bytes of a database. -/
structure Stored (t : SizedDb) (b : RocksDb) : Prop where
  inodes : Holds t.inodesValue (b .inodes)
  dirEntries : b .dirEntries = onDisk t.dirEntries
  deltaEntries : b .deltaEntries = t.deltaEntries.image deltaKey strictMono_deltaKey fun d => d.val.serialize

namespace Stored

variable {t t' : SizedDb} {b : RocksDb}

theorem empty : Stored .empty fun _ => ∅ := by
  refine ⟨⟨fun k => ?_, by simp⟩, rfl, rfl⟩
  cases k <;> rfl

/-- A write to a row of the column family `inodes`. -/
theorem write_inodes (h : Stored t b) (k : InodesKey) {o : Option (List Byte)}
    (hval : ∀ j, t'.inodesValue j = if j = k then o else t.inodesValue j) (hdir : t'.dirEntries = t.dirEntries)
    (hdelta : t'.deltaEntries = t.deltaEntries) : Stored t' (b.write ⟨.inodes, k.encode, o⟩) :=
  ⟨h.inodes.write hval, hdir ▸ h.dirEntries, hdelta ▸ h.deltaEntries⟩

theorem get_put_map {ν β : Type} (m : OrdMap U64 ν) (f : ν → β) (i j : U64) (v : ν) :
    ((m.put i v).get j).map f = if j = i then some (f v) else (m.get j).map f := by
  rw [OrdMap.get_put]
  split <;> rfl

theorem get_erase_map {ν β : Type} (m : OrdMap U64 ν) (f : ν → β) (i j : U64) :
    ((m.erase i).get j).map f = if j = i then none else (m.get j).map f := by
  rw [OrdMap.get_erase]
  split <;> rfl

/-- **One write.** -/
theorem apply (h : Stored t b) (op : SizedOp) : Stored (t.apply op) (b.write op.op.raw.write) := by
  cases op <;> simp only [SizedOp.op, BatchOp.raw, RawBatchOp.write, u64_val, u32_val, asStr_val]
  case putInode i v | deleteInode i =>
    refine h.write_inodes (.record i) (fun j => ?_) rfl rfl
    cases j <;> simp [SizedDb.inodesValue, SizedDb.apply, get_put_map, get_erase_map]
  case putDirEntry p n i m =>
    refine ⟨h.inodes, ?_, h.deltaEntries⟩
    show (b .dirEntries).put _ _ = _
    rw [h.dirEntries]
    exact (onDisk_put t.dirEntries (toLex (p, n)) (i, m)).symm
  case deleteDirEntry p n =>
    refine ⟨h.inodes, ?_, h.deltaEntries⟩
    show (b .dirEntries).erase _ = _
    rw [h.dirEntries]
    exact (onDisk_erase t.dirEntries (toLex (p, n))).symm
  case putDelta i q d hq =>
    refine ⟨h.inodes, h.dirEntries, ?_⟩
    show (b .deltaEntries).put _ _ = _
    rw [h.deltaEntries]
    exact (OrdMap.image_put t.deltaEntries (toLex (i, q)) d).symm
  case deleteDelta i q =>
    refine ⟨h.inodes, h.dirEntries, ?_⟩
    show (b .deltaEntries).erase _ = _
    rw [h.deltaEntries]
    exact (OrdMap.image_erase t.deltaEntries (toLex (i, q))).symm
  case putDataLocation i s | deleteDataLocation i =>
    refine h.write_inodes (.location i) (fun j => ?_) rfl rfl
    cases j <;> simp [SizedDb.inodesValue, SizedDb.apply, get_put_map, get_erase_map]
  case putSymlink i s | deleteSymlink i =>
    refine h.write_inodes (.symlink i) (fun j => ?_) rfl rfl
    cases j <;> simp [SizedDb.inodesValue, SizedDb.apply, get_put_map, get_erase_map]

/-- What a transaction reads. -/
theorem view (ops : List SizedOp) : ∀ {t : SizedDb} {b : RocksDb}, Stored t b →
    Stored (t.applyAll ops) ((ops.map fun op => op.op.raw.write).foldl RocksDb.write b) := by
  induction ops with
  | nil => exact fun h => h
  | cons op ops ih => exact fun h => ih (h.apply op)

/-- `store.put(NEXT_INODE_KEY, …)`. -/
theorem putNextInode (h : Stored t b) (n : U64) :
    Stored { t with nextInode := some n } (b.write ⟨.inodes, NEXT_INODE_KEY, some (beBytes64 n)⟩) := by
  refine h.write_inodes .nextInode (fun j => ?_) rfl rfl
  cases j <;> simp [SizedDb.inodesValue]

end Stored

end RucksFs
