import RucksFs.Server.Concurrent
import RucksFs.Storage.Rocks

/-!
# The metadata server over bytes

`handle` says what an operation's call on the stores does to a `Db`.  Here the same calls are carried out on the column
families: the server encodes keys and values, RocksDB stores bytes, and the server decodes what it reads, with the
errors of the decoders.  Numbers are 64 bits wide and wrap.

* `RocksServer`, `rocksHandle` — the server over bytes.
* `Shown`, `BatchShown` — a server and a transaction over a `Db` that show what the bytes mean.
* `rocksHandle_agrees` — **one effect whose arguments fit gives the same answer on both levels**, and leaves states that
  show the same again.
* `shown_new` — a restart on the same bytes: the allocator, the sequence numbers and the root.
-/

set_option autoImplicit false

namespace RucksFs

open Bytes RocksDeltaStore

/-! ## The server -/

/-- What a server has in memory only: it forgets the stores and their counters. -/
def Server.tables (s : Server) : Server := { s with db := {}, seqs := fun _ => 0, next := 0 }

structure RocksServer where
  db : RocksDb
  /-- `RocksDeltaStore::seqs`. -/
  seqs : U64 → Option U64
  /-- `InodeAllocator::next`. -/
  next : U64
  /-- Cache, dirty set, handles and clock. -/
  tables : Server

namespace RocksServer

def deltaStore (s : RocksServer) : RocksDeltaStore := ⟨s.db .deltaEntries, s.seqs⟩

/-- The next sequence number of an inode. -/
def seqAt (s : RocksServer) (i : Inode) : Nat := ((s.seqs (u64 i)).getD 0).val

def withDeltaStore (s : RocksServer) (st : RocksDeltaStore) : RocksServer :=
  { s with db := Function.update s.db .deltaEntries st.cf, seqs := st.seqs }

end RocksServer

/-- `InodeValue::deserialize(&raw)?` on a value that is there. -/
def decodeRecord : Option (List Byte) → FsResult (Option InodeValue)
  | none => .ok none
  | some raw => (InodeValue.deserialize raw).map some

/-- `decode_dir_entry_value`. -/
def decodeDirEntryValue (data : List Byte) : FsResult (U64 × U32) :=
  if data.length < 12 then .error (.invalidInput "dir entry value too short")
  else .ok (fromBe64 (data.take 8), fromBe32 ((data.drop 8).take 4))

def decodeDirEntry : Option (List Byte) → FsResult (Option DirValue)
  | none => .ok none
  | some data => (decodeDirEntryValue data).map fun r => some ⟨r.1.val, r.2.val⟩

/-- `readlink`: a target that is not UTF-8 is an error. -/
def decodeTarget : Option (List Byte) → FsResult (Option (List Byte))
  | none => .ok none
  | some data =>
      if Utf8.valid data = true then .ok (some data)
      else .error (.io ("invalid symlink target: " ++ Utf8.errorText data))

/-- A pair that `force_compact_inode` folds: the number and the delta.  Pairs that cannot be read are left out. -/
def decodeDelta (kv : List Byte × List Byte) : Option (Nat × DeltaOp) :=
  match decodeDeltaKey kv.1, DeltaOp.deserialize kv.2 with
  | .ok k, .ok d => some (k.2.val, d)
  | _, _ => none

/-- One effect on the bytes.  Effects on the tables are those of `handle`. -/
def rocksHandle (cfg : Config) : (e : Eff) → RocksWriteBatch × RocksServer → e.Res × RocksWriteBatch × RocksServer
  | .beginWrite, (_, s) => ((), {}, s)
  | .getForUpdateDirEntry p n, (b, s) =>
      let r := b.getForUpdate .dirEntries (encodeDirEntryKey (u64 p) (asStr n)) s.db
      (decodeDirEntry r.1, r.2, s)
  | .getForUpdateInode i, (b, s) =>
      let r := b.getForUpdate .inodes (encodeInodeKey (u64 i)) s.db
      (decodeRecord r.1, r.2, s)
  | .isDirEmpty d, (b, s) => (.ok (b.isDirEmpty (u64 d) s.db), b, s)
  | .push op, (b, s) => ((), b.push op.raw, s)
  | .commit, (b, s) => (.ok (), {}, { s with db := b.view s.db })
  | .dropBatch, (_, s) => ((), {}, s)
  | .alloc, (b, s) => (s.next.val, b, { s with next := wrappingSucc s.next })
  | .allocCurrent, (b, s) => (s.next.val, b, s)
  | .putNextInode val, (b, s) =>
      (.ok (), b, { s with db := s.db.write ⟨.inodes, NEXT_INODE_KEY, some (beBytes64 (u64 val))⟩ })
  | .nextSeq i _, (b, s) =>
      let r := RocksDeltaStore.nextSeq (u64 i) s.deltaStore
      (r.1.val, b, s.withDeltaStore r.2)
  | .clearDeltas i, (b, s) => (.ok (), b, s.withDeltaStore (RocksDeltaStore.clearDeltas (u64 i) s.deltaStore))
  | .scanDeltas i, (b, s) => (.ok (loadedOps (RocksDeltaStore.scanDeltas (u64 i) s.deltaStore)), b, s)
  | .scanDeltasWithKeys i, (b, s) =>
      (.ok ((RocksDeltaStore.scanDeltasWithKeys (u64 i) s.deltaStore).filterMap decodeDelta), b, s)
  | .getInode i, (b, s) => (decodeRecord ((s.db .inodes).get (encodeInodeKey (u64 i))), b, s)
  | .getDataLocation i, (b, s) =>
      (.ok (((s.db .inodes).get (encodeDataLocationKey (u64 i))).bind stringFromUtf8), b, s)
  | .getSymlink i, (b, s) => (decodeTarget ((s.db .inodes).get (encodeSymlinkKey (u64 i))), b, s)
  | .resolvePath p n, (b, s) =>
      ((RocksDirectoryIndex.resolvePath (u64 p) (asStr n) (s.db .dirEntries)).map (Option.map Fin.val), b, s)
  | .listDir i, (b, s) => (RocksDirectoryIndex.listDir (u64 i) (s.db .dirEntries), b, s)
  | e, (b, s) =>
      let r := handle cfg e ({}, s.tables)
      (r.1, b, { s with tables := r.2.2 })

/-! ## Reads -/

namespace Stored

variable {t : SizedDb} {b : RocksDb}

theorem record (h : Stored t b) (i : U64) :
    decodeRecord ((b .inodes).get (encodeInodeKey i)) = .ok (t.db.inode i.val) := by
  have hget : (b .inodes).get (encodeInodeKey i) = (t.inodes.get i).map fun v => v.val.serialize :=
    h.inodes.get (.record i)
  rw [hget, t.inode_db]
  cases t.inodes.get i with
  | none => rfl
  | some v =>
      have hread := InodeValue.deserialize_serialize v.property.1 v.property.2 []
      rw [List.append_nil] at hread
      show (InodeValue.deserialize v.val.serialize).map some = _
      rw [hread]
      rfl

theorem location (h : Stored t b) (i : U64) :
    ((b .inodes).get (encodeDataLocationKey i)).bind stringFromUtf8 = t.db.dataLocations.get i.val := by
  have hget : (b .inodes).get (encodeDataLocationKey i) = (t.dataLocations.get i).map stringBytes :=
    h.inodes.get (.location i)
  rw [hget, t.dataLocations_db]
  cases t.dataLocations.get i <;> simp

theorem target (h : Stored t b) (i : U64) :
    decodeTarget ((b .inodes).get (encodeSymlinkKey i)) = .ok (t.db.symlinks.get i.val) := by
  have hget : (b .inodes).get (encodeSymlinkKey i) = (t.symlinks.get i).map Subtype.val := h.inodes.get (.symlink i)
  rw [hget, t.symlinks_db]
  cases t.symlinks.get i with
  | none => rfl
  | some s => exact if_pos s.property

theorem decodeDirEntryValue_encode (i : U64) (mode : U32) : decodeDirEntryValue (encodeDirValue i mode) = .ok (i, mode) := by
  have hlen : ¬(encodeDirValue i mode).length < 12 := by simp [encodeDirValue]
  have hread := decodeDirValue_encode i mode
  unfold decodeDirValue at hread
  unfold decodeDirEntryValue
  rw [if_neg hlen] at hread ⊢
  exact hread

theorem entry (h : Stored t b) (p : U64) (n : Str) :
    decodeDirEntry ((b .dirEntries).get (encodeDirEntryKey p n)) = .ok (t.db.entry p.val n.val) := by
  have hget : (b .dirEntries).get (encodeDirEntryKey p n) =
      (t.dirEntries.get (toLex (p, n))).map fun v => encodeDirValue v.1 v.2 := by
    rw [h.dirEntries]
    exact t.dirEntries.get_image (toLex (p, n))
  rw [hget, t.entry_db]
  cases t.dirEntries.get (toLex (p, n)) with
  | none => rfl
  | some v =>
      simp only [Option.map_some, decodeDirEntry, decodeDirEntryValue_encode]
      rfl

theorem sameDeltas (h : Stored t b) (seqs : U64 → Option U64) :
    SameDeltas (t.deltaEntries.image id strictMono_id Subtype.val) ⟨b .deltaEntries, seqs⟩ t.db := by
  refine ⟨fun k d hd => ?_, ?_, ?_⟩
  · have hget : (t.deltaEntries.image id strictMono_id Subtype.val).get k = (t.deltaEntries.get k).map Subtype.val :=
      OrdMap.get_image t.deltaEntries k
    rw [hget] at hd
    obtain ⟨d', -, rfl⟩ := Option.map_eq_some_iff.1 hd
    exact d'.property
  · show b .deltaEntries = _
    rw [h.deltaEntries]
    apply OrdMap.ext
    simp [OrdMap.image]
  · apply OrdMap.ext
    simp [SizedDb.db, OrdMap.image]

theorem decodeDelta_encode (i q : U64) (d : SizedDelta) :
    decodeDelta (encodeDeltaKey i q, d.val.serialize) = some (q.val, d.val) := by
  have hread := DeltaOp.deserialize_serialize d.property []
  rw [List.append_nil] at hread
  unfold decodeDelta
  rw [decodeDeltaKey_encode, hread]

theorem scan (h : Stored t b) (i : U64) : (b .deltaEntries).scanPrefix (deltaPrefix i) =
    (t.deltaEntries.slice i).toList.map fun e => (encodeDeltaKey i e.1, e.2.val.serialize) := by
  rw [h.deltaEntries]
  exact t.deltaEntries.scanPrefix_image (deltaPrefix_iff i)

/-- Numbers and deltas of an inode. -/
theorem scanWithKeys (h : Stored t b) (i : U64) (seqs : U64 → Option U64) :
    (RocksDeltaStore.scanDeltasWithKeys i ⟨b .deltaEntries, seqs⟩).filterMap decodeDelta = t.db.scanDeltas i.val := by
  unfold RocksDeltaStore.scanDeltasWithKeys
  rw [h.scan, t.scanDeltas_db]
  generalize (t.deltaEntries.slice i).toList = l
  induction l with
  | nil => rfl
  | cons e l ih => rw [List.map_cons, List.filterMap_cons_some (decodeDelta_encode i e.1 e.2), ih, List.map_cons]

end Stored

/-! ## What the bytes show -/

/-- The server `s` shows what the server `b` has in its bytes, which hold `t`. -/
structure Shown (t : SizedDb) (b : RocksServer) (s : Server) : Prop where
  stored : Stored t b.db
  db : s.db = t.db
  seqs : ∀ i : U64, s.seqs i.val = ((b.seqs i).getD 0).val
  next : s.next = b.next.val
  tables : s.tables = b.tables

/-- The row of a column family. -/
def Row.raw : Row → Cf × List Byte
  | .inode i => (.inodes, encodeInodeKey (u64 i))
  | .dataLocation i => (.inodes, encodeDataLocationKey (u64 i))
  | .symlink i => (.inodes, encodeSymlinkKey (u64 i))
  | .dirEntry p n => (.dirEntries, encodeDirEntryKey (u64 p) (asStr n))
  | .delta i q => (.deltaEntries, encodeDeltaKey (u64 i) (u64 q))

def Row.Fits : Row → Prop
  | .inode i | .dataLocation i | .symlink i => i < 2 ^ 64
  | .dirEntry p n => p < 2 ^ 64 ∧ Utf8.valid n = true
  | .delta i q => i < 2 ^ 64 ∧ q + 1 < 2 ^ 64

instance : DecidablePred Row.Fits := fun row => by
  cases row <;> first | exact instDecidableAnd | exact Nat.decLt ..

/-- Different rows have different keys. -/
theorem Row.raw_inj {r r' : Row} (h : r.Fits) (h' : r'.Fits) (heq : r.raw = r'.raw) : r = r' := by
  have hval : ∀ {i j : Nat}, i < 2 ^ 64 → j < 2 ^ 64 → u64 i = u64 j → i = j := by
    intro i j hi hj hij
    rw [← val_u64 hi, ← val_u64 hj, hij]
  cases r <;> cases r' <;> simp only [Row.raw, Prod.mk.injEq, reduceCtorEq, true_and, false_and] at heq
  case inode.inode | dataLocation.dataLocation | symlink.symlink =>
      exact congrArg _ (hval h h' (beBytes64_inj (List.cons.inj heq).2))
  case dirEntry.dirEntry p n q m =>
      have hpq : toLex (u64 p, asStr n) = toLex (u64 q, asStr m) := strictMono_dirKey.injective heq
      obtain ⟨hp, hn⟩ := Prod.mk.inj (toLex.injective hpq)
      have hstr : ∀ {k : Name}, Utf8.valid k = true → (asStr k).val = k := fun hk => by rw [asStr, dif_pos hk]
      rw [hval h.1 h'.1 hp, ← hstr h.2, ← hstr h'.2, hn]
  case delta.delta i q j m =>
      have hij : toLex (u64 i, u64 q) = toLex (u64 j, u64 m) := strictMono_deltaKey.injective heq
      obtain ⟨hi, hq⟩ := Prod.mk.inj (toLex.injective hij)
      rw [hval h.1 h'.1 hi, hval (Nat.lt_of_succ_lt h.2) (Nat.lt_of_succ_lt h'.2) hq]
  -- keys of two kinds differ in their first byte
  all_goals simp [encodeInodeKey, encodeDataLocationKey, encodeSymlinkKey, INODE_KEY_PREFIX, DATA_LOCATION_KEY_PREFIX,
    SYMLINK_KEY_PREFIX] at heq

/-- The arguments of an operation have the widths of their types. -/
def BatchOp.Fits (op : BatchOp) : Prop :=
  op.row.Fits ∧ match op with
    | .putInode _ v => v.Fits ∧ v.version = 1
    | .putDirEntry _ _ v => v.inode < 2 ^ 64 ∧ v.mode < 2 ^ 32
    | .putDelta _ _ d => d.Fits
    | .putSymlink _ t => Utf8.valid t = true
    | _ => True

instance : DecidablePred BatchOp.Fits := fun op => by
  cases op <;> exact instDecidableAnd

theorem BatchOp.Fits.sized {op : BatchOp} (h : op.Fits) : ∃ sop : SizedOp, sop.op = op := by
  obtain ⟨hrow, hval⟩ := h
  cases op with
  | putInode i v => exact ⟨.putInode ⟨i, hrow⟩ ⟨v, hval⟩, rfl⟩
  | deleteInode i => exact ⟨.deleteInode ⟨i, hrow⟩, rfl⟩
  | putDirEntry p n v => exact ⟨.putDirEntry ⟨p, hrow.1⟩ ⟨n, hrow.2⟩ ⟨v.inode, hval.1⟩ ⟨v.mode, hval.2⟩, rfl⟩
  | deleteDirEntry p n => exact ⟨.deleteDirEntry ⟨p, hrow.1⟩ ⟨n, hrow.2⟩, rfl⟩
  | putDelta i q d => exact ⟨.putDelta ⟨i, hrow.1⟩ ⟨q, Nat.lt_of_succ_lt hrow.2⟩ ⟨d, hval⟩ hrow.2, rfl⟩
  | deleteDelta i q => exact ⟨.deleteDelta ⟨i, hrow.1⟩ ⟨q, Nat.lt_of_succ_lt hrow.2⟩, rfl⟩
  | putDataLocation i s => exact ⟨.putDataLocation ⟨i, hrow⟩ s, rfl⟩
  | deleteDataLocation i => exact ⟨.deleteDataLocation ⟨i, hrow⟩, rfl⟩
  | putSymlink i s => exact ⟨.putSymlink ⟨i, hrow⟩ ⟨s, hval⟩, rfl⟩
  | deleteSymlink i => exact ⟨.deleteSymlink ⟨i, hrow⟩, rfl⟩

theorem BatchOp.row_raw (op : BatchOp) : op.row.raw = (op.raw.write.cf, op.raw.write.key) := by
  cases op <;> rfl

/-- The transaction `tx` shows the writes `ops` and the locks of `b`. -/
structure BatchShown (ops : List SizedOp) (b : RocksWriteBatch) (tx : Txn) : Prop where
  batch : tx.batch = ops.map SizedOp.op
  writes : b.writes = ops.map fun op => op.op.raw.write
  locks : b.locks = tx.locks.map Row.raw
  rows : ∀ row ∈ tx.locks, row.Fits

/-- The arguments of an effect have the widths of their types, and the counter that it advances is not used up. -/
def Eff.Fits (next : Nat) (seqs : Inode → Nat) : Eff → Prop
  | .getForUpdateDirEntry p n | .resolvePath p n => p < 2 ^ 64 ∧ Utf8.valid n = true
  | .getForUpdateInode i | .isDirEmpty i | .clearDeltas i | .scanDeltas i | .scanDeltasWithKeys i | .getInode i
  | .getDataLocation i | .getSymlink i | .listDir i => i < 2 ^ 64
  | .push op => op.Fits
  | .putNextInode val => val < 2 ^ 64
  | .alloc => next + 1 < 2 ^ 64
  | .nextSeq i _ => i < 2 ^ 64 ∧ seqs i + 1 < 2 ^ 64
  | _ => True

instance (next : Nat) (seqs : Inode → Nat) : DecidablePred (Eff.Fits next seqs) := fun e => by
  cases e <;> first
    | exact instDecidableAnd
    | exact Nat.decLt ..
    | exact inferInstanceAs (Decidable (BatchOp.Fits _))
    | exact instDecidableTrue

theorem exists_u64 {n : Nat} (h : n < 2 ^ 64) : ∃ i : U64, i.val = n := ⟨⟨n, h⟩, rfl⟩

theorem Shown.fits_iff {t : SizedDb} {b : RocksServer} {s : Server} (h : Shown t b s) (e : Eff) :
    e.Fits b.next.val b.seqAt ↔ e.Fits s.next s.seqs := by
  cases e with
  | alloc => simp only [Eff.Fits, h.next]
  | nextSeq i d =>
      refine and_congr_right fun hi => ?_
      obtain ⟨i, rfl⟩ := exists_u64 hi
      rw [h.seqs, RocksServer.seqAt, u64_val]
  | _ => rfl

/-- One effect does the same on both levels. -/
structure Agrees (cfg : Config) (wb : RocksWriteBatch) (b : RocksServer) (tx : Txn) (s : Server) (e : Eff) : Prop where
  answer : (rocksHandle cfg e (wb, b)).1 = (handle cfg e (tx, s)).1
  batch : ∃ ops, BatchShown ops (rocksHandle cfg e (wb, b)).2.1 (handle cfg e (tx, s)).2.1
  server : ∃ t, Shown t (rocksHandle cfg e (wb, b)).2.2 (handle cfg e (tx, s)).2.2

theorem SizedDb.dirEntries_db (t : SizedDb) : t.db.dirEntries = decoded t.dirEntries := rfl

theorem exists_str {n : Name} (h : Utf8.valid n = true) : ∃ s : Str, s.val = n := ⟨⟨n, h⟩, rfl⟩

theorem val_wrappingSucc {c : U64} (h : c.val + 1 < 2 ^ 64) : (wrappingSucc c).val = c.val + 1 :=
  Nat.mod_eq_of_lt h

/-- Effects on the tables. -/
def Eff.onTables : Eff → Bool
  | .nowSecs | .cacheGet .. | .cachePut .. | .cacheApplyDeltas .. | .cacheInvalidate .. | .markDirty ..
  | .handleCount .. | .handleIncr .. | .checkAndClearDeferredDelete .. | .pendingInsert .. => true
  | _ => false

/-- They neither see nor change what is stored. -/
theorem handle_onTables (cfg : Config) {e : Eff} (he : e.onTables = true) (tx : Txn) (s : Server) :
    handle cfg e (tx, s) = ((handle cfg e ({}, s.tables)).1, tx,
      { (handle cfg e ({}, s.tables)).2.2 with db := s.db, seqs := s.seqs, next := s.next }) := by
  cases e with
  | checkAndClearDeferredDelete i =>
      simp only [handle, Server.checkAndClearDeferredDelete, Server.tables]
      cases s.openHandles i with
      | none => rfl
      | some count =>
          dsimp only
          split <;> rfl
  | nowSecs | cacheGet | cachePut | cacheApplyDeltas | cacheInvalidate | markDirty | handleCount | handleIncr
  | pendingInsert => rfl
  | _ => cases he

section Effects

variable {cfg : Config} {t : SizedDb} {b : RocksServer} {s : Server} {ops : List SizedOp} {wb : RocksWriteBatch}
  {tx : Txn}

/-- What a transaction reads, on both levels. -/
theorem BatchShown.view (h : BatchShown ops wb tx) (hs : Shown t b s) :
    Stored (t.applyAll ops) (wb.view b.db) ∧ s.db.applyBatch tx.batch = (t.applyAll ops).db := by
  constructor
  · unfold RocksWriteBatch.view
    rw [h.writes]
    exact hs.stored.view ops
  · rw [h.batch, hs.db, SizedDb.db_applyAll]

/-- One more lock. -/
theorem BatchShown.lock (h : BatchShown ops wb tx) {row : Row} (hrow : row.Fits) {tx' : Txn}
    (hb : tx'.batch = tx.batch) (hl : tx'.locks = row :: tx.locks) :
    BatchShown ops { wb with locks := row.raw :: wb.locks } tx' := by
  refine ⟨hb.trans h.batch, h.writes, ?_, ?_⟩
  · rw [hl, List.map_cons, h.locks]
  · rw [hl]
    exact List.forall_mem_cons.2 ⟨hrow, h.rows⟩

/-- The history of a transaction does not matter. -/
theorem BatchShown.history (h : BatchShown ops wb tx) {tx' : Txn} (hb : tx'.batch = tx.batch)
    (hl : tx'.locks = tx.locks) : BatchShown ops wb tx' :=
  ⟨hb.trans h.batch, h.writes, by rw [hl, h.locks], by rw [hl]; exact h.rows⟩

theorem batchShown_empty (hb : tx.batch = []) (hl : tx.locks = []) : BatchShown [] {} tx :=
  ⟨hb, rfl, by rw [hl]; rfl, by simp [hl]⟩

variable (hs : Shown t b s) (hb : BatchShown ops wb tx)

include hs hb

theorem agrees_getForUpdateDirEntry (p : U64) (n : Str) :
    Agrees cfg wb b tx s (.getForUpdateDirEntry p.val n.val) := by
  obtain ⟨hview, hdb⟩ := hb.view hs
  refine ⟨?_, ⟨ops, hb.lock (show (Row.dirEntry p.val n.val).Fits from ⟨p.isLt, n.property⟩) rfl rfl⟩, t, hs⟩
  simp only [rocksHandle, handle, RocksWriteBatch.getForUpdate, u64_val, asStr_val]
  rw [hview.entry, hdb]

theorem agrees_getForUpdateInode (i : U64) : Agrees cfg wb b tx s (.getForUpdateInode i.val) := by
  obtain ⟨hview, hdb⟩ := hb.view hs
  refine ⟨?_, ⟨ops, hb.lock (show (Row.inode i.val).Fits from i.isLt) rfl rfl⟩, t, hs⟩
  simp only [rocksHandle, handle, RocksWriteBatch.getForUpdate, u64_val]
  rw [hview.record, hdb]

theorem agrees_isDirEmpty (d : U64) : Agrees cfg wb b tx s (.isDirEmpty d.val) := by
  obtain ⟨hview, hdb⟩ := hb.view hs
  refine ⟨?_, ⟨ops, hb.history rfl rfl⟩, t, hs⟩
  have hempty := (listDir_eq_db (t.applyAll ops).dirEntries_db d).2.1
  simp only [rocksHandle, handle, RocksWriteBatch.isDirEmpty, u64_val]
  rw [hview.dirEntries, hempty, hdb]

theorem agrees_push {op : BatchOp} (hop : op.Fits) : Agrees cfg wb b tx s (.push op) := by
  obtain ⟨sop, rfl⟩ := hop.sized
  refine ⟨rfl, ⟨ops ++ [sop], ?_, ?_, ?_, List.forall_mem_cons.2 ⟨hop.1, hb.rows⟩⟩, t, hs⟩
  · show tx.batch ++ [sop.op] = _
    rw [hb.batch, List.map_append]
    rfl
  · show wb.writes ++ [sop.op.raw.write] = _
    rw [hb.writes, List.map_append]
    rfl
  · show (sop.op.raw.write.cf, sop.op.raw.write.key) :: wb.locks = (sop.op.row :: tx.locks).map Row.raw
    rw [List.map_cons, BatchOp.row_raw, hb.locks]

theorem agrees_commit : Agrees cfg wb b tx s .commit := by
  obtain ⟨hview, hdb⟩ := hb.view hs
  exact ⟨rfl, ⟨[], batchShown_empty rfl rfl⟩, t.applyAll ops, ⟨hview, hdb, hs.seqs, hs.next, hs.tables⟩⟩

theorem agrees_alloc (hroom : b.next.val + 1 < 2 ^ 64) : Agrees cfg wb b tx s .alloc := by
  refine ⟨hs.next.symm, ⟨ops, hb.history rfl rfl⟩, t, ⟨hs.stored, hs.db, hs.seqs, ?_, hs.tables⟩⟩
  show s.next + 1 = (wrappingSucc b.next).val
  rw [val_wrappingSucc hroom, hs.next]

theorem agrees_putNextInode (n : U64) : Agrees cfg wb b tx s (.putNextInode n.val) := by
  refine ⟨rfl, ⟨ops, hb⟩, { t with nextInode := some n }, ⟨?_, ?_, hs.seqs, hs.next, hs.tables⟩⟩
  · simp only [rocksHandle, u64_val]
    exact hs.stored.putNextInode n
  · show { s.db with nextInode := some n.val } = _
    rw [hs.db]
    rfl

theorem agrees_nextSeq (i : U64) (d : DeltaOp) (hroom : b.seqAt i.val + 1 < 2 ^ 64) :
    Agrees cfg wb b tx s (.nextSeq i.val d) := by
  rw [RocksServer.seqAt, u64_val] at hroom
  have hseq : (RocksDeltaStore.nextSeq i b.deltaStore).1.val = s.seqs i.val := (hs.seqs i).symm
  have hdb : Function.update b.db .deltaEntries (b.db .deltaEntries) = b.db := Function.update_eq_self ..
  refine ⟨?_, ⟨ops, hb.history rfl rfl⟩, t, ⟨?_, hs.db, ?_, hs.next, hs.tables⟩⟩
  · simp only [rocksHandle, handle, u64_val]
    exact hseq
  · show Stored t (Function.update b.db .deltaEntries (b.db .deltaEntries))
    rw [hdb]
    exact hs.stored
  · intro j
    show Function.update s.seqs i.val (s.seqs i.val + 1) j.val =
      ((Function.update b.seqs (u64 i.val) (some (wrappingSucc ((b.seqs (u64 i.val)).getD 0))) j).getD 0).val
    rw [u64_val]
    by_cases hj : j = i
    · subst hj
      rw [Function.update_self, Function.update_self, Option.getD_some, val_wrappingSucc hroom, hs.seqs]
    · rw [Function.update_of_ne hj, Function.update_of_ne fun h => hj (Fin.ext h), hs.seqs]

/-- Every delta of an inode goes, and the counter starts again. -/
theorem agrees_clearDeltas (i : U64) : Agrees cfg wb b tx s (.clearDeltas i.val) := by
  -- the keys that go, on the three levels
  let ks : List (U64 ×ₗ U64) := (t.deltaEntries.slice i).toList.map fun e => toLex (i, e.1)
  have hraw : ((b.db .deltaEntries).scanPrefix (deltaPrefix i)).map Prod.fst = ks.map deltaKey := by
    rw [hs.stored.scan, List.map_map, List.map_map]
    rfl
  have hdb : (s.db.scanDeltas i.val).map (fun p => (toLex (i.val, p.1) : DeltaKey)) = ks.map decodedDeltaKey := by
    rw [hs.db, SizedDb.scanDeltas_db, List.map_map, List.map_map]
    rfl
  refine ⟨rfl, ⟨ops, hb⟩, { t with deltaEntries := ks.foldl OrdMap.erase t.deltaEntries, below := t.below.foldl_erase ks }, ?_⟩
  simp only [rocksHandle, handle, u64_val]
  refine ⟨⟨hs.stored.inodes, hs.stored.dirEntries, ?_⟩, ?_, fun j => ?_, hs.next, hs.tables⟩
  · show (((b.db .deltaEntries).scanPrefix (deltaPrefix i)).map Prod.fst).foldl OrdMap.erase (b.db .deltaEntries) = _
    rw [hraw, OrdMap.image_foldl_erase, hs.stored.deltaEntries]
  · have hfold : (s.db.scanDeltas i.val).foldl (fun m p => m.erase (toLex (i.val, p.1))) s.db.deltaEntries =
        (ks.map decodedDeltaKey).foldl OrdMap.erase t.db.deltaEntries := by
      rw [← hdb, List.foldl_map, hs.db]
    simp only [Server.clearDeltas, hfold]
    rw [hs.db]
    simp only [SizedDb.db, OrdMap.image_foldl_erase]
  · show Function.update s.seqs i.val 0 j.val =
      (((if (b.seqs i).isSome then Function.update b.seqs i (some 0) else b.seqs) j).getD 0).val
    by_cases hj : j = i
    · subst hj
      rw [Function.update_self]
      cases hc : b.seqs j <;> simp [hc]
    · rw [Function.update_of_ne fun h => hj (Fin.ext h), hs.seqs]
      split
      · rw [Function.update_of_ne hj]
      · rfl

theorem agrees_onTables {e : Eff} (he : e.onTables = true) : Agrees cfg wb b tx s e := by
  have hraw : rocksHandle cfg e (wb, b) = ((handle cfg e ({}, b.tables)).1, wb,
      { b with tables := (handle cfg e ({}, b.tables)).2.2 }) := by
    cases e with
    | nowSecs | cacheGet | cachePut | cacheApplyDeltas | cacheInvalidate | markDirty | handleCount | handleIncr
    | checkAndClearDeferredDelete | pendingInsert => rfl
    | _ => cases he
  -- the tables stay without stores
  have htables := congrArg (fun r => r.2.2) (handle_onTables cfg he {} s.tables)
  have hdb := handle_onTables cfg he tx s
  rw [← hs.tables] at hraw
  constructor
  · rw [hraw, hdb]
  · rw [hraw, hdb]
    exact ⟨ops, hb⟩
  · rw [hraw, hdb]
    exact ⟨t, hs.stored, hs.db, hs.seqs, hs.next, htables.symm⟩

/-- **One effect.** -/
theorem rocksHandle_agrees {e : Eff} (he : e.Fits b.next.val b.seqAt) : Agrees cfg wb b tx s e := by
  cases e with
  | beginWrite => exact ⟨rfl, ⟨[], batchShown_empty rfl rfl⟩, t, hs⟩
  | getForUpdateDirEntry p n =>
      obtain ⟨p, rfl⟩ := exists_u64 he.1
      obtain ⟨n, rfl⟩ := exists_str he.2
      exact agrees_getForUpdateDirEntry hs hb p n
  | getForUpdateInode i =>
      obtain ⟨i, rfl⟩ := exists_u64 he
      exact agrees_getForUpdateInode hs hb i
  | isDirEmpty d =>
      obtain ⟨d, rfl⟩ := exists_u64 he
      exact agrees_isDirEmpty hs hb d
  | push op => exact agrees_push hs hb he
  | commit => exact agrees_commit hs hb
  | dropBatch => exact ⟨rfl, ⟨[], batchShown_empty rfl rfl⟩, t, hs⟩
  | alloc => exact agrees_alloc hs hb he
  | allocCurrent => exact ⟨hs.next.symm, ⟨ops, hb⟩, t, hs⟩
  | putNextInode val =>
      obtain ⟨n, rfl⟩ := exists_u64 he
      exact agrees_putNextInode hs hb n
  | nextSeq i d =>
      obtain ⟨i, rfl⟩ := exists_u64 he.1
      exact agrees_nextSeq hs hb i d he.2
  | clearDeltas i =>
      obtain ⟨i, rfl⟩ := exists_u64 he
      exact agrees_clearDeltas hs hb i
  | scanDeltas i =>
      obtain ⟨i, rfl⟩ := exists_u64 he
      refine ⟨?_, ⟨ops, hb⟩, t, hs⟩
      simp only [rocksHandle, handle, u64_val]
      rw [hs.db, ← (deltas_eq_db (hs.stored.sameDeltas b.seqs) i).1]
      rfl
  | scanDeltasWithKeys i =>
      obtain ⟨i, rfl⟩ := exists_u64 he
      refine ⟨?_, ⟨ops, hb.history rfl rfl⟩, t, hs⟩
      simp only [rocksHandle, handle, u64_val]
      rw [hs.db, ← hs.stored.scanWithKeys i b.seqs]
      rfl
  | getInode i | getDataLocation i | getSymlink i | listDir i =>
      obtain ⟨i, rfl⟩ := exists_u64 he
      refine ⟨?_, ⟨ops, hb⟩, t, hs⟩
      simp only [rocksHandle, handle, u64_val, hs.stored.record, hs.stored.location, hs.stored.target,
        hs.stored.dirEntries, listDir_eq_db t.dirEntries_db, hs.db]
      rfl
  | resolvePath p n =>
      obtain ⟨p, rfl⟩ := exists_u64 he.1
      obtain ⟨n, rfl⟩ := exists_str he.2
      refine ⟨?_, ⟨ops, hb⟩, t, hs⟩
      simp only [rocksHandle, handle, u64_val, asStr_val]
      rw [hs.stored.dirEntries, (listDir_eq_db t.dirEntries_db p).2.2, hs.db]
  | nowSecs | cacheGet | cachePut | cacheApplyDeltas | cacheInvalidate | markDirty | handleCount | handleIncr
  | checkAndClearDeferredDelete | pendingInsert => exact agrees_onTables hs hb rfl

end Effects

/-! ## Restarts -/

/-- `InodeAllocator::load`; a value of another length is ignored. -/
def RocksDb.loadAllocator (db : RocksDb) : U64 :=
  match (db .inodes).get NEXT_INODE_KEY with
  | some bytes => if bytes.length ≠ 8 then u64 FIRST_ALLOC_INODE else fromBe64 bytes
  | none => u64 FIRST_ALLOC_INODE

namespace RocksServer

/-- `init_root`. -/
def initRoot (cfg : Config) (b : RocksServer) : RocksServer :=
  match (b.db .inodes).get (encodeInodeKey (u64 ROOT_INODE)) with
  | some _ => b
  | none =>
      { b with
        db := b.db.write ⟨.inodes, encodeInodeKey (u64 ROOT_INODE),
          some (rootValue cfg (cfg.clock b.tables.ticks)).serialize⟩
        tables := { b.tables with ticks := b.tables.ticks + 1 } }

/-- `MetadataServer::new` on the column families. -/
def new (cfg : Config) (db : RocksDb) (ticks : Nat) : RocksServer :=
  initRoot cfg
    { db
      seqs := (RocksDeltaStore.restart { cf := db .deltaEntries }).seqs
      next := db.loadAllocator
      tables :=
        { db := {}
          seqs := fun _ => 0
          next := 0
          cache := InodeFoldedCache.new cfg.cacheCapacity
          dirty := []
          notifyFlag := false
          openHandles := fun _ => none
          pendingDeletes := fun _ => false
          ticks } }

end RocksServer

theorem foldl_max_le_iff {n : Nat} (l : List Nat) (a : Nat) : l.foldl max a ≤ n ↔ a ≤ n ∧ ∀ x ∈ l, x ≤ n := by
  induction l generalizing a with
  | nil => simp
  | cons x l ih =>
      rw [List.foldl_cons, ih, max_le_iff, List.forall_mem_cons, and_assoc]

theorem Stored.loadAllocator {t : SizedDb} {b : RocksDb} (h : Stored t b) :
    Server.loadAllocator t.db = b.loadAllocator.val := by
  have hget : (b .inodes).get NEXT_INODE_KEY = t.nextInode.map beBytes64 := h.inodes.get .nextInode
  unfold Server.loadAllocator RocksDb.loadAllocator
  rw [hget]
  show (t.nextInode.map Fin.val).getD _ = _
  cases t.nextInode with
  | none => rfl
  | some n => simp

/-- The successors of the numbers of `i`. -/
theorem SizedDb.mem_numbers (t : SizedDb) (i : U64) {n : Nat} : n ∈ (t.db.scanDeltas i.val).map (·.1 + 1) ↔
    ∃ q d, t.deltaEntries.get (toLex (i, q)) = some d ∧ q.val + 1 = n := by
  rw [t.scanDeltas_db, List.map_map, List.mem_map]
  constructor
  · rintro ⟨e, he, rfl⟩
    have hget := OrdMap.mem_toList.1 he
    rw [OrdMap.get_slice] at hget
    exact ⟨e.1, e.2, hget, rfl⟩
  · rintro ⟨q, d, hget, rfl⟩
    refine ⟨(q, d), OrdMap.mem_toList.2 ?_, rfl⟩
    rw [OrdMap.get_slice]
    exact hget

/-- The counters are read off the keys. -/
theorem Stored.recoverSeqs {t : SizedDb} {b : RocksDb} (h : Stored t b) (i : U64) :
    Server.recoverSeqs t.db i.val =
      (((RocksDeltaStore.restart { cf := b .deltaEntries }).seqs i).getD 0).val := by
  let l : List ((U64 ×ₗ U64) × List Byte) := t.deltaEntries.toList.map fun e => (e.1, e.2.val.serialize)
  have hlist : (b .deltaEntries).toList = l.map fun e => (deltaKey e.1, e.2) := by
    rw [h.deltaEntries, List.map_map]
    rfl
  have hl : ∀ k v, (k, v) ∈ l ↔ ∃ d, t.deltaEntries.get k = some d ∧ d.val.serialize = v := by
    simp [l, OrdMap.mem_toList]
  obtain ⟨hmem, hmax⟩ := maxSeqs_spec l
  have hseqs : (RocksDeltaStore.restart { cf := b .deltaEntries }).seqs i =
      ((l.map fun e => (deltaKey e.1, e.2)).foldr (fun e acc => recordSeq e.1 acc) (fun _ => none) i).map wrappingSucc := by
    simp only [restart, RocksDeltaStore.recoverSeqs, hlist]
    split <;> simp_all
  unfold Server.recoverSeqs
  rw [hseqs]
  generalize hmaxi : (l.map fun e => (deltaKey e.1, e.2)).foldr (fun e acc => recordSeq e.1 acc) (fun _ => none) i = o
  -- no number of `i` is above the largest one
  have hle : ∀ q d, t.deltaEntries.get (toLex (i, q)) = some d → ∃ s, o = some s ∧ q ≤ s := by
    intro q d hd
    rw [← hmaxi]
    exact hmax i q _ ((hl _ _).2 ⟨d, hd, rfl⟩)
  cases o with
  | none =>
      refine Nat.le_zero.1 ((foldl_max_le_iff _ _).2 ⟨le_refl 0, fun n hn => ?_⟩)
      obtain ⟨q, d, hd, -⟩ := (t.mem_numbers i).1 hn
      obtain ⟨s, hs, -⟩ := hle q d hd
      cases hs
  | some s =>
      obtain ⟨v, hv⟩ := hmem i s hmaxi
      obtain ⟨d, hd, -⟩ := (hl _ _).1 hv
      show _ = (wrappingSucc s).val
      have hroom : s.val + 1 < 2 ^ 64 := t.below _ d hd
      rw [val_wrappingSucc hroom]
      apply le_antisymm
      · refine (foldl_max_le_iff _ _).2 ⟨Nat.zero_le _, fun n hn => ?_⟩
        obtain ⟨q, d', hd', rfl⟩ := (t.mem_numbers i).1 hn
        obtain ⟨s', hs', hqs⟩ := hle q d' hd'
        cases hs'
        rw [Fin.le_def] at hqs
        omega
      · exact ((foldl_max_le_iff _ 0).1 (le_refl _)).2 _ ((t.mem_numbers i).2 ⟨s, d, hd, rfl⟩)

/-- The settings of a server have the widths of their types. -/
structure Config.Fits (cfg : Config) : Prop where
  clock : ∀ k, cfg.clock k < 2 ^ 64
  uid : cfg.uid < 2 ^ 32
  gid : cfg.gid < 2 ^ 32

theorem shown_initRoot {cfg : Config} (hcfg : cfg.Fits) {t : SizedDb} {b : RocksServer} {s : Server}
    (h : Shown t b s) : ∃ t', Shown t' (b.initRoot cfg) (s.initRoot cfg) := by
  obtain ⟨root, hroot⟩ : ∃ i : U64, i.val = ROOT_INODE := ⟨1, rfl⟩
  have hget : (b.db .inodes).get (encodeInodeKey root) = (t.inodes.get root).map fun v => v.val.serialize :=
    h.stored.inodes.get (.record root)
  have hdb : s.db.inode ROOT_INODE = (t.inodes.get root).map Subtype.val := by
    rw [h.db, ← hroot, t.inode_db]
  have hticks : b.tables.ticks = s.ticks := by
    rw [← h.tables]
    rfl
  unfold RocksServer.initRoot Server.initRoot
  rw [hdb, ← hroot, u64_val, hget, hticks]
  cases t.inodes.get root with
  | some v => exact ⟨t, h⟩
  | none =>
      have hclock := hcfg.clock s.ticks
      have hfits : (rootValue cfg (cfg.clock s.ticks)).Fits := ⟨show 1 < 2 ^ 8 by decide, show 1 < 2 ^ 64 by decide,
        show 0 < 2 ^ 64 by decide, show S_IFDIR ||| 0o777 < 2 ^ 32 by decide, show 2 < 2 ^ 32 by decide, hcfg.uid,
        hcfg.gid, hclock, hclock, hclock⟩
      let op : SizedOp := .putInode root ⟨rootValue cfg (cfg.clock s.ticks), hfits, rfl⟩
      have hwrite := h.stored.apply op
      simp only [op, SizedOp.op, BatchOp.raw, RawBatchOp.write, u64_val] at hwrite
      refine ⟨t.apply op, hwrite, ?_, h.seqs, h.next, ?_⟩
      · show s.db.applyOp (.putInode root.val (rootValue cfg (cfg.clock s.ticks))) = _
        rw [SizedDb.db_apply, ← h.db]
        rfl
      · show ({ s.tables with ticks := s.ticks + 1 } : Server) = _
        rw [h.tables]
        rfl

/-- **A restart reads off the bytes what it reads off the database.** -/
theorem shown_new {cfg : Config} (hcfg : cfg.Fits) {t : SizedDb} {b : RocksDb} (h : Stored t b)
    (ticks : Nat) : ∃ t', Shown t' (RocksServer.new cfg b ticks) (Server.new cfg t.db ticks) :=
  shown_initRoot hcfg ⟨h, rfl, h.recoverSeqs, h.loadAllocator, rfl⟩

end RucksFs
