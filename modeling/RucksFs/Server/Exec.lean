import RucksFs.Server.Ops

/-!
# Sequential runs

`Server.new` is `MetadataServer::new` over an existing database: the allocator is loaded from
`next_inode`, the sequence counters are recovered from the stored delta keys, the cache and the
handle tables start empty and the root directory is created when it is missing.

`Server.exec` serves one call to its end.  `Op.exec` is the same for a part of an operation;
its equations (`exec_bind` and one per effect) are what the specifications of the operations are
computed with.
-/

set_option autoImplicit false

namespace RucksFs

/-- The record `init_root` stores. -/
def rootValue (cfg : Config) (ts : Nat) : InodeValue :=
  { version := 1, inode := ROOT_INODE, size := 0, mode := S_IFDIR ||| 0o777, nlink := 2,
    uid := cfg.uid, gid := cfg.gid, atime := ts, mtime := ts, ctime := ts }

namespace Server

/-- `init_root`. -/
def initRoot (cfg : Config) (s : Server) : Server :=
  match s.db.inode ROOT_INODE with
  | some _ => s
  | none =>
      { s with
        db := { s.db with inodes := s.db.inodes.put ROOT_INODE (rootValue cfg (cfg.clock s.ticks)) }
        ticks := s.ticks + 1 }

/-- `RocksDeltaStore::recover_seqs`: one above the largest stored number. -/
def recoverSeqs (db : Db) (i : Inode) : Nat := ((db.scanDeltas i).map (·.1 + 1)).foldl max 0

/-- `InodeAllocator::load`. -/
def loadAllocator (db : Db) : Nat := db.nextInode.getD FIRST_ALLOC_INODE

/-- `MetadataServer::new` on a database, at clock reading `ticks`. -/
def new (cfg : Config) (db : Db) (ticks : Nat) : Server :=
  initRoot cfg
    { db
      seqs := recoverSeqs db
      next := loadAllocator db
      cache := InodeFoldedCache.new cfg.cacheCapacity
      dirty := []
      notifyFlag := false
      openHandles := fun _ => none
      pendingDeletes := fun _ => false
      ticks }

/-- A server on an empty database. -/
def fresh (cfg : Config) : Server := new cfg {} 0

end Server

namespace Op

variable {α β : Type}

/-- Run a part of an operation on a batch and a server. -/
def exec (cfg : Config) (x : Op α) (st : Txn × Server) : FsResult α × Txn × Server :=
  Prog.run (handle cfg) x.run st

variable (cfg : Config) (st : Txn × Server)

@[simp] theorem exec_pure (a : α) : exec cfg (pure a) st = (.ok a, st) := rfl

@[simp] theorem exec_throw (e : FsError) : exec cfg (throw e : Op α) st = (.error e, st) := rfl

theorem exec_bind (x : Op α) (f : α → Op β) :
    exec cfg (x >>= f) st =
      match exec cfg x st with
      | (.ok a, st') => exec cfg (f a) st'
      | (.error e, st') => (.error e, st') := by
  unfold exec
  rw [Prog.run_except_bind]
  rcases Prog.run (handle cfg) x.run st with ⟨r, st'⟩
  cases r <;> rfl

@[simp] theorem exec_eff (e : Eff) :
    exec cfg (eff e) st = (.ok (handle cfg e st).1, (handle cfg e st).2) := rfl

end Op

/-- Serve one call. -/
def Server.exec (cfg : Config) (c : Call) (s : Server) : Reply × Server :=
  let r := Prog.run (handle cfg) (c.body cfg) ({}, s)
  (r.1, r.2.2)

end RucksFs
