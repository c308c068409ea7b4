import RucksFs.Cache
import RucksFs.Db
import RucksFs.Lib.Prog

/-!
# State of the metadata server and the meaning of its effects

`Server` is the state behind a `MetadataServer`: the database, the delta sequence counters, the
inode allocator, the folded cache, the compaction worker's dirty set and the open-handle tables.

`Txn` is the write batch of one running call: what was pushed and which rows are locked.  Its
other fields are history variables.  They record what the transaction has read and taken so far
and are never read by `handle` to compute an answer.

`Eff` lists the calls that the operations make on the stores, the tables and the clock;
`handle` is what each of them does.  Storage calls that can fail answer an `FsResult`.
-/

set_option autoImplicit false

namespace RucksFs

/-- Cargo feature `no_delta` off or on. -/
inductive Build where
  | delta
  | noDelta
  deriving DecidableEq, Repr

/-- What is fixed for the lifetime of a server.  `clock k` is the `k`-th reading of
`now_secs`. -/
structure Config where
  build : Build := .delta
  clock : Nat → Nat := fun _ => 0
  defaultDataLocation : DataLocation := ⟨"default"⟩
  cacheCapacity : Nat := 10000
  uid : Nat := 0
  gid : Nat := 0

structure Server where
  db : Db
  /-- `RocksDeltaStore::seqs`; an absent counter behaves as 0. -/
  seqs : Inode → Nat
  /-- `InodeAllocator::next`. -/
  next : Nat
  cache : InodeFoldedCache
  dirty : List Inode
  notifyFlag : Bool
  openHandles : Inode → Option Nat
  pendingDeletes : Inode → Bool
  /-- Number of clock readings so far. -/
  ticks : Nat

/-- Open handles of an inode; an absent entry counts 0. -/
def Server.handles (s : Server) (i : Inode) : Nat := (s.openHandles i).getD 0

/-- Keys on which RocksDB takes row locks. -/
inductive Row where
  | inode (i : Inode)
  | dataLocation (i : Inode)
  | symlink (i : Inode)
  | dirEntry (p : Inode) (n : Name)
  | delta (i : Inode) (q : Nat)
  deriving DecidableEq

def BatchOp.row : BatchOp → Row
  | .putInode i _ => .inode i
  | .deleteInode i => .inode i
  | .putDirEntry p n _ => .dirEntry p n
  | .deleteDirEntry p n => .dirEntry p n
  | .putDelta i q _ => .delta i q
  | .deleteDelta i q => .delta i q
  | .putDataLocation i _ => .dataLocation i
  | .deleteDataLocation i => .dataLocation i
  | .putSymlink i _ => .symlink i
  | .deleteSymlink i => .symlink i

/-- The batch of one call, and its history. -/
structure Txn where
  batch : List BatchOp := []
  locks : List Row := []
  /-- Entries read under lock, with the committed value. -/
  dirReads : List (Inode × Name × Option DirValue) := []
  /-- Inode records read under lock, with the committed value. -/
  inodeReads : List (Inode × Option InodeValue) := []
  allocated : List Inode := []
  /-- Sequence numbers taken, each with the delta it was taken for. -/
  seqs : List (Inode × Nat × DeltaOp) := []
  scanned : Option (Inode × List (Nat × DeltaOp)) := none
  /-- Directories found empty. -/
  emptyChecks : List Inode := []
  /-- Inodes that lost the name through which the last commit reached them. -/
  retired : List Inode := []
  deriving DecidableEq

namespace Txn

/-- The batch puts an entry that names `i`. -/
def putsName (tx : Txn) (i : Inode) : Bool :=
  tx.batch.any fun op => match op with
    | .putDirEntry _ _ v => v.inode == i
    | _ => false

/-- Inodes whose entry was read and is not put back by the batch. -/
def retiring (tx : Txn) : List Inode :=
  (tx.dirReads.filterMap fun r => r.2.2.map (·.inode)).filter fun i => !tx.putsName i

end Txn

inductive Eff where
  | beginWrite
  | getForUpdateDirEntry (parent : Inode) (name : Name)
  | getForUpdateInode (inode : Inode)
  | isDirEmpty (parent : Inode)
  | push (op : BatchOp)
  | commit
  | dropBatch
  | nowSecs
  | alloc
  | allocCurrent
  | putNextInode (val : Nat)
  | nextSeq (inode : Inode) (delta : DeltaOp)
  | clearDeltas (inode : Inode)
  | scanDeltas (inode : Inode)
  | scanDeltasWithKeys (inode : Inode)
  | getInode (inode : Inode)
  | getDataLocation (inode : Inode)
  | getSymlink (inode : Inode)
  | resolvePath (parent : Inode) (name : Name)
  | listDir (inode : Inode)
  | cacheGet (inode : Inode)
  | cachePut (inode : Inode) (value : InodeValue)
  | cacheApplyDeltas (inode : Inode) (deltas : List DeltaOp)
  | cacheInvalidate (inode : Inode)
  | markDirty (inode : Inode)
  | handleCount (inode : Inode)
  | handleIncr (inode : Inode)
  | checkAndClearDeferredDelete (inode : Inode)
  | pendingInsert (inode : Inode)
  deriving DecidableEq

def Eff.Res : Eff → Type
  | .beginWrite => Unit
  | .getForUpdateDirEntry _ _ => FsResult (Option DirValue)
  | .getForUpdateInode _ => FsResult (Option InodeValue)
  | .isDirEmpty _ => FsResult Bool
  | .push _ => Unit
  | .commit => FsResult Unit
  | .dropBatch => Unit
  | .nowSecs => Nat
  | .alloc => Inode
  | .allocCurrent => Nat
  | .putNextInode _ => FsResult Unit
  | .nextSeq _ _ => Nat
  | .clearDeltas _ => FsResult Unit
  | .scanDeltas _ => FsResult (List DeltaOp)
  | .scanDeltasWithKeys _ => FsResult (List (Nat × DeltaOp))
  | .getInode _ => FsResult (Option InodeValue)
  | .getDataLocation _ => FsResult (Option String)
  | .getSymlink _ => FsResult (Option (List Byte))
  | .resolvePath _ _ => FsResult (Option Inode)
  | .listDir _ => FsResult (List DirEntry)
  | .cacheGet _ => Option InodeValue
  | .cachePut _ _ => Unit
  | .cacheApplyDeltas _ _ => Unit
  | .cacheInvalidate _ => Unit
  | .markDirty _ => Unit
  | .handleCount _ => Nat
  | .handleIncr _ => Unit
  | .checkAndClearDeferredDelete _ => Bool
  | .pendingInsert _ => Unit

namespace Server

/-- `clear_deltas`: delete every delta of `i` and reset its counter. -/
def clearDeltas (s : Server) (i : Inode) : Server :=
  { s with
    db := { s.db with
      deltaEntries := (s.db.scanDeltas i).foldl (fun m p => m.erase (toLex (i, p.1))) s.db.deltaEntries }
    seqs := Function.update s.seqs i 0 }

/-- `mark_dirty`: only the first mark of an empty set raises the flag. -/
def markDirty (s : Server) (i : Inode) : Server :=
  { s with dirty := s.dirty.insert i, notifyFlag := s.notifyFlag || s.dirty.isEmpty }

/-- `*open_handles.entry(i).or_insert(0) += 1` on a `u32`. -/
def handleIncr (s : Server) (i : Inode) : Server :=
  { s with openHandles := Function.update s.openHandles i (some ((s.handles i + 1) % U32_SIZE)) }

/-- `check_and_clear_deferred_delete`. -/
def checkAndClearDeferredDelete (s : Server) (i : Inode) : Bool × Server :=
  match s.openHandles i with
  | none => (false, s)
  | some count =>
      if count - 1 = 0 then
        (s.pendingDeletes i,
          { s with
            openHandles := Function.update s.openHandles i none
            pendingDeletes := Function.update s.pendingDeletes i false })
      else (false, { s with openHandles := Function.update s.openHandles i (some (count - 1)) })

end Server

/-- One effect on the batch of the calling transaction and the server. -/
def handle (cfg : Config) : (e : Eff) → Txn × Server → e.Res × Txn × Server
  | .beginWrite, (tx, s) => ((), { scanned := tx.scanned }, s)
  | .getForUpdateDirEntry p n, (tx, s) =>
      (.ok ((s.db.applyBatch tx.batch).entry p n),
        { tx with
          locks := .dirEntry p n :: tx.locks
          dirReads := (p, n, s.db.entry p n) :: tx.dirReads }, s)
  | .getForUpdateInode i, (tx, s) =>
      (.ok ((s.db.applyBatch tx.batch).inode i),
        { tx with
          locks := .inode i :: tx.locks
          inodeReads := (i, s.db.inode i) :: tx.inodeReads }, s)
  | .isDirEmpty d, (tx, s) =>
      let r := (s.db.applyBatch tx.batch).isDirEmpty d
      (.ok r, { tx with emptyChecks := if r then d :: tx.emptyChecks else tx.emptyChecks }, s)
  | .push op, (tx, s) => ((), { tx with batch := tx.batch ++ [op], locks := op.row :: tx.locks }, s)
  | .commit, (tx, s) =>
      (.ok (), { retired := tx.retiring }, { s with db := s.db.applyBatch tx.batch })
  | .dropBatch, (_, s) => ((), {}, s)
  | .nowSecs, (tx, s) => (cfg.clock s.ticks, tx, { s with ticks := s.ticks + 1 })
  | .alloc, (tx, s) =>
      (s.next, { tx with allocated := s.next :: tx.allocated }, { s with next := s.next + 1 })
  | .allocCurrent, (tx, s) => (s.next, tx, s)
  | .putNextInode val, (tx, s) => (.ok (), tx, { s with db := { s.db with nextInode := some val } })
  | .nextSeq i d, (tx, s) =>
      (s.seqs i, { tx with seqs := tx.seqs ++ [(i, s.seqs i, d)] },
        { s with seqs := Function.update s.seqs i (s.seqs i + 1) })
  | .clearDeltas i, (tx, s) => (.ok (), tx, s.clearDeltas i)
  | .scanDeltas i, (tx, s) => (.ok (s.db.deltas i), tx, s)
  | .scanDeltasWithKeys i, (tx, s) =>
      (.ok (s.db.scanDeltas i), { tx with scanned := some (i, s.db.scanDeltas i) }, s)
  | .getInode i, (tx, s) => (.ok (s.db.inode i), tx, s)
  | .getDataLocation i, (tx, s) => (.ok (s.db.dataLocations.get i), tx, s)
  | .getSymlink i, (tx, s) => (.ok (s.db.symlinks.get i), tx, s)
  | .resolvePath p n, (tx, s) => (.ok ((s.db.entry p n).map (·.inode)), tx, s)
  | .listDir i, (tx, s) => (.ok (s.db.listDir i), tx, s)
  | .cacheGet i, (tx, s) => ((s.cache.get i).1, tx, { s with cache := (s.cache.get i).2 })
  | .cachePut i v, (tx, s) => ((), tx, { s with cache := s.cache.put i v })
  | .cacheApplyDeltas i ds, (tx, s) => ((), tx, { s with cache := s.cache.applyDeltas i ds })
  | .cacheInvalidate i, (tx, s) => ((), tx, { s with cache := s.cache.invalidate i })
  | .markDirty i, (tx, s) => ((), tx, s.markDirty i)
  | .handleCount i, (tx, s) => (s.handles i, tx, s)
  | .handleIncr i, (tx, s) => ((), tx, s.handleIncr i)
  | .checkAndClearDeferredDelete i, (tx, s) =>
      ((s.checkAndClearDeferredDelete i).1, tx, (s.checkAndClearDeferredDelete i).2)
  | .pendingInsert i, (tx, s) =>
      ((), tx, { s with pendingDeletes := Function.update s.pendingDeletes i true })

end RucksFs
