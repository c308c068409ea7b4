import Mathlib.Data.List.Sort
import RucksFs.Server.State

/-!
# The metadata operations (`server/src/lib.rs`, `server/src/compaction.rs`)

Each operation of `MetadataServer` as a program over the effects of `RucksFs.Server.State`, in
the order in which the source makes the calls.  `?` on a failing call is the failure of
`ExceptT`; the closure of `execute_with_retry` opens a batch, and leaving it drops the batch,
which undoes what was not committed and releases the row locks.

The directory index is `RocksDirectoryIndex`, whose `shares_batch_storage` is `true`, so the
`insert_child` / `remove_child` calls after a commit are not made.
-/

set_option autoImplicit false

namespace RucksFs

/-- A fallible program of the server. -/
abbrev Op (α : Type) := ExceptT FsError (Prog Eff Eff.Res) α

namespace Op

/-- A call that cannot fail. -/
def eff (e : Eff) : Op e.Res := ExceptT.lift (Prog.perform e)

def getForUpdateDirEntry (p : Inode) (n : Name) : Op (Option DirValue) :=
  ExceptT.mk (Prog.perform (Eff.getForUpdateDirEntry p n))

def getForUpdateInode (i : Inode) : Op (Option InodeValue) :=
  ExceptT.mk (Prog.perform (Eff.getForUpdateInode i))

def isDirEmpty (d : Inode) : Op Bool := ExceptT.mk (Prog.perform (Eff.isDirEmpty d))

def push (op : BatchOp) : Op Unit := eff (.push op)

def commit : Op Unit := ExceptT.mk (Prog.perform Eff.commit)

def nowSecs : Op Nat := eff .nowSecs

def alloc : Op Inode := eff .alloc

def allocCurrent : Op Nat := eff .allocCurrent

def nextSeq (i : Inode) (d : DeltaOp) : Op Nat := eff (.nextSeq i d)

def putNextInode (val : Nat) : Op Unit := ExceptT.mk (Prog.perform (Eff.putNextInode val))

def scanDeltas (i : Inode) : Op (List DeltaOp) := ExceptT.mk (Prog.perform (Eff.scanDeltas i))

def scanDeltasWithKeys (i : Inode) : Op (List (Nat × DeltaOp)) :=
  ExceptT.mk (Prog.perform (Eff.scanDeltasWithKeys i))

def getInode (i : Inode) : Op (Option InodeValue) := ExceptT.mk (Prog.perform (Eff.getInode i))

def getDataLocation (i : Inode) : Op (Option String) :=
  ExceptT.mk (Prog.perform (Eff.getDataLocation i))

def getSymlink (i : Inode) : Op (Option (List Byte)) := ExceptT.mk (Prog.perform (Eff.getSymlink i))

def resolvePath (p : Inode) (n : Name) : Op (Option Inode) :=
  ExceptT.mk (Prog.perform (Eff.resolvePath p n))

def listDir (i : Inode) : Op (List DirEntry) := ExceptT.mk (Prog.perform (Eff.listDir i))

/-- `let _ = delta_store.clear_deltas(i)`: a failure is ignored. -/
def clearDeltas (i : Inode) : Op Unit := do
  let _ ← eff (.clearDeltas i)

def cachePut (i : Inode) (v : InodeValue) : Op Unit := eff (.cachePut i v)

def cacheApplyDeltas (i : Inode) (ds : List DeltaOp) : Op Unit := eff (.cacheApplyDeltas i ds)

def cacheInvalidate (i : Inode) : Op Unit := eff (.cacheInvalidate i)

def cacheGet (i : Inode) : Op (Option InodeValue) := eff (.cacheGet i)

def markDirty (i : Inode) : Op Unit := eff (.markDirty i)

def handleCount (i : Inode) : Op Nat := eff (.handleCount i)

def handleIncr (i : Inode) : Op Unit := eff (.handleIncr i)

def checkAndClearDeferredDelete (i : Inode) : Op Bool := eff (.checkAndClearDeferredDelete i)

def pendingInsert (i : Inode) : Op Unit := eff (.pendingInsert i)

/-- `.ok_or(FsError::NotFound)?`. -/
def orNotFound {α : Type} : Option α → Op α
  | some a => pure a
  | none => throw .notFound

/-- A closure run with a batch of its own, dropped on every way out. -/
def withBatch {α : Type} (body : Op α) : Op α := ExceptT.mk do
  let _ ← Prog.perform .beginWrite
  let r ← body.run
  let _ ← Prog.perform .dropBatch
  return r

/-- `n` further attempts after a transaction conflict. -/
def retry {α : Type} (body : Op α) : Nat → Op α
  | 0 => withBatch body
  | n + 1 => ExceptT.mk do
      match ← (withBatch body).run with
      | .error .transactionConflict => (retry body n).run
      | r => return r

/-- `execute_with_retry`. -/
def executeWithRetry {α : Type} (body : Op α) : Op α := retry body (TXN_MAX_RETRIES - 1)

end Op

open Op

/-- `validate_name`. -/
def validateName (name : Name) : Op Unit :=
  if name.length > NAME_MAX then throw .nameTooLong else pure ()

/-- `load_inode`: the cached value, else the base folded with the stored deltas. -/
def loadInode (inode : Inode) : Op InodeValue := do
  match ← cacheGet inode with
  | some cached => return cached
  | none =>
      let base ← orNotFound (← getInode inode)
      let iv := foldDeltas base (← scanDeltas inode)
      cachePut inode iv
      return iv

/-- The loop of `batch_parent_deltas`, default build. -/
def pushDeltas (parent : Inode) : List DeltaOp → Op Unit
  | [] => pure ()
  | d :: ds => do
      let seq ← nextSeq parent d
      push (.putDelta parent seq d)
      pushDeltas parent ds

/-- `batch_parent_deltas`, both `cfg` variants. -/
def batchParentDeltas (cfg : Config) (parent : Inode) (deltas : List DeltaOp) : Op Unit :=
  match cfg.build with
  | .delta => pushDeltas parent deltas
  | .noDelta => do
      -- a failed or empty read is skipped silently
      match ← ExceptT.lift (getForUpdateInode parent).run with
      | .ok (some iv) => push (.putInode parent (foldDeltas iv deltas))
      | _ => pure ()

/-- `InodeAllocator::maybe_persist`. -/
def maybePersist : Op Unit := do
  let val ← allocCurrent
  if val % PERSIST_INTERVAL = 0 then putNextInode val

/-! ## Lookups and attributes -/

def lookup (parent : Inode) (name : Name) : Op FileAttr := do
  validateName name
  let child ← orNotFound (← resolvePath parent name)
  let iv ← loadInode child
  return iv.toAttr

def getattr (inode : Inode) : Op FileAttr := do
  let iv ← loadInode inode
  return iv.toAttr

def readdir (inode : Inode) : Op (List DirEntry) := do
  let iv ← loadInode inode
  if !isDir iv.mode then throw .notADirectory
  listDir inode

/-- The part of `setattr` that copies the requested fields. -/
def SetAttrRequest.applyFields (req : SetAttrRequest) (iv : InodeValue) : InodeValue :=
  { iv with
    mode := match req.mode with
      | some m => (iv.mode &&& 0o170000) ||| (m &&& 0o7777)
      | none => iv.mode
    uid := req.uid.getD iv.uid
    gid := req.gid.getD iv.gid
    atime := req.atime.getD iv.atime
    mtime := req.mtime.getD iv.mtime }

/-- The size change of `setattr`; the flag asks the client to truncate the data. -/
def SetAttrRequest.applySize (req : SetAttrRequest) (ts : Nat) (iv : InodeValue) : InodeValue × Bool :=
  match req.size with
  | none => (iv, false)
  | some newSize =>
      if newSize ≠ iv.size then ({ iv with size := newSize, mtime := ts }, decide (newSize < iv.size))
      else (iv, false)

def setattr (inode : Inode) (req : SetAttrRequest) : Op SetAttrResponse := do
  let (attr, needsTruncate) ← executeWithRetry do
    let raw ← orNotFound (← getForUpdateInode inode)
    let ts ← nowSecs
    let (sized, doTruncate) := req.applySize ts (req.applyFields raw)
    let iv := { sized with ctime := ts }
    push (.putInode inode iv)
    commit
    cachePut inode iv
    return (iv.toAttr, doTruncate)
  return ⟨attr, if needsTruncate then req.size else none⟩

def reportWrite (inode : Inode) (newSize mtime : Nat) : Op Unit :=
  executeWithRetry do
    let raw ← orNotFound (← getForUpdateInode inode)
    let iv := { raw with size := max raw.size newSize, mtime := mtime, ctime := mtime }
    push (.putInode inode iv)
    commit
    cachePut inode iv

/-! ## Creation -/

/-- The record of a new object. -/
def newInodeValue (inode size mode nlink uid gid ts : Nat) : InodeValue :=
  { version := 1, inode, size, mode, nlink, uid, gid, atime := ts, mtime := ts, ctime := ts }

/-- The transaction shared by `create`, `mkdir` and `symlink`: an entry check, a fresh number,
the record, the entry, the object's own extra operations and the parent's deltas. -/
def createTxn (cfg : Config) (parent : Inode) (name : Name) (size mode nlink uid gid : Nat)
    (extra : Inode → List BatchOp) (deltas : Nat → List DeltaOp) : Op InodeValue :=
  executeWithRetry do
    if (← getForUpdateDirEntry parent name).isSome then throw .alreadyExists
    let newInode ← alloc
    let ts ← nowSecs
    let iv := newInodeValue newInode size mode nlink uid gid ts
    push (.putInode newInode iv)
    push (.putDirEntry parent name ⟨newInode, iv.mode⟩)
    (extra newInode).forM push
    batchParentDeltas cfg parent (deltas ts)
    commit
    return iv

/-- After the commit of a creation: counter, cache and dirty mark. -/
def afterCreate (parent : Inode) (iv : InodeValue) (deltas : List DeltaOp) : Op FileAttr := do
  maybePersist
  cachePut iv.inode iv
  cacheApplyDeltas parent deltas
  markDirty parent
  return iv.toAttr

def create (cfg : Config) (parent : Inode) (name : Name) (mode uid gid : Nat) : Op FileAttr := do
  validateName name
  let iv ← createTxn cfg parent name 0 (S_IFREG ||| (mode &&& 0o7777)) 1 uid gid
    (fun i => [.putDataLocation i cfg.defaultDataLocation.serverId])
    (fun ts => [.setMtime ts, .setCtime ts])
  afterCreate parent iv [.setMtime iv.mtime, .setCtime iv.ctime]

def createAndOpen (cfg : Config) (parent : Inode) (name : Name) (mode uid gid _flags : Nat) :
    Op CreateAndOpenResponse := do
  let attr ← create cfg parent name mode uid gid
  handleIncr attr.inode
  return ⟨attr, attr.inode, cfg.defaultDataLocation⟩

def mkdir (cfg : Config) (parent : Inode) (name : Name) (mode uid gid : Nat) : Op FileAttr := do
  validateName name
  let iv ← createTxn cfg parent name 0 (S_IFDIR ||| (mode &&& 0o7777)) 2 uid gid
    (fun _ => [])
    (fun ts => [.incrementNlink 1, .setMtime ts, .setCtime ts])
  afterCreate parent iv [.incrementNlink 1, .setMtime iv.mtime, .setCtime iv.ctime]

def symlink (cfg : Config) (parent : Inode) (name : Name) (linkTarget : List Byte) (uid gid : Nat) :
    Op FileAttr := do
  validateName name
  let iv ← createTxn cfg parent name linkTarget.length (S_IFLNK ||| 0o777) 1 uid gid
    (fun i => [.putSymlink i linkTarget])
    (fun ts => [.setMtime ts, .setCtime ts])
  afterCreate parent iv [.setMtime iv.mtime, .setCtime iv.ctime]

def link (cfg : Config) (parent : Inode) (name : Name) (target : Inode) : Op FileAttr := do
  validateName name
  let (targetIv, parentTs) ← executeWithRetry do
    let targetIv ← orNotFound (← getForUpdateInode target)
    if isDir targetIv.mode then throw .permissionDenied
    if (← getForUpdateDirEntry parent name).isSome then throw .alreadyExists
    let parentIv ← orNotFound (← getForUpdateInode parent)
    if !isDir parentIv.mode then throw .notADirectory
    -- `target_iv.nlink += 1` on a `u32`
    let targetIv := { targetIv with nlink := (targetIv.nlink + 1) % U32_SIZE, ctime := ← nowSecs }
    push (.putInode target targetIv)
    push (.putDirEntry parent name ⟨target, targetIv.mode⟩)
    let ts ← nowSecs
    batchParentDeltas cfg parent [.setMtime ts, .setCtime ts]
    commit
    cachePut target targetIv
    return (targetIv, ts)
  cacheApplyDeltas parent [.setMtime parentTs, .setCtime parentTs]
  markDirty parent
  return targetIv.toAttr

def readlink (inode : Inode) : Op (List Byte) := do
  let iv ← loadInode inode
  if !isSymlink iv.mode then throw (.invalidInput "not a symbolic link")
  match ← getSymlink inode with
  | some target => return target
  | none => throw (.io s!"symlink target not found for inode {inode}")

/-! ## Removal -/

/-- The branch of `unlink` on the decremented link count: the inode that lost its last link,
with the flag "deletion deferred". -/
def unlinkChild (child : Inode) (childIv : InodeValue) : Op (InodeValue × Option (Inode × Bool)) := do
  if childIv.nlink = 0 then
    if (← handleCount child) > 0 then
      -- open: the record stays with nlink 0 until the last `release`
      let childIv := { childIv with ctime := ← nowSecs }
      push (.putInode child childIv)
      return (childIv, some (child, true))
    else
      push (.deleteInode child)
      push (.deleteDataLocation child)
      return (childIv, some (child, false))
  else
    let childIv := { childIv with ctime := ← nowSecs }
    push (.putInode child childIv)
    return (childIv, none)

def unlink (cfg : Config) (parent : Inode) (name : Name) : Op (List Inode) := do
  validateName name
  let (needDeleteData, parentTs) ← executeWithRetry do
    let dirVal ← orNotFound (← getForUpdateDirEntry parent name)
    let child := dirVal.inode
    if isDir dirVal.mode then throw .isADirectory
    let childIv ← orNotFound (← getForUpdateInode child)
    let childIv := { childIv with nlink := childIv.nlink - 1 }
    push (.deleteDirEntry parent name)
    let (childIv, result) ← unlinkChild child childIv
    let ts ← nowSecs
    batchParentDeltas cfg parent [.setMtime ts, .setCtime ts]
    commit
    match result with
    | some (ino, false) => do
        clearDeltas ino
        cacheInvalidate ino
    | _ => cachePut child childIv
    return (result, ts)
  let purged ← match needDeleteData with
    | some (inode, true) => do
        pendingInsert inode
        pure []
    | some (inode, false) => pure [inode]
    | none => pure []
  cacheApplyDeltas parent [.setMtime parentTs, .setCtime parentTs]
  markDirty parent
  return purged

def rmdir (cfg : Config) (parent : Inode) (name : Name) : Op Unit := do
  validateName name
  let parentTs ← executeWithRetry do
    let dirVal ← orNotFound (← getForUpdateDirEntry parent name)
    let child := dirVal.inode
    if !isDir dirVal.mode then throw .notADirectory
    let _ ← orNotFound (← getForUpdateInode child)
    if !(← isDirEmpty child) then throw .directoryNotEmpty
    push (.deleteDirEntry parent name)
    push (.deleteInode child)
    let ts ← nowSecs
    batchParentDeltas cfg parent [.incrementNlink (-1), .setMtime ts, .setCtime ts]
    commit
    clearDeltas child
    cacheInvalidate child
    return ts
  cacheApplyDeltas parent [.incrementNlink (-1), .setMtime parentTs, .setCtime parentTs]
  markDirty parent

/-! ## Rename -/

/-- The inodes `rename` locks, in ascending order.  The list is sorted, so dropping repeated
neighbours is dropping repeats. -/
def renameInodeIds (parent newParent src : Inode) (dst : Option DirValue) : List Inode :=
  let ids := match dst with
    | some d => [src, d.inode]
    | none => [src]
  let ids := if parent ∈ ids then ids else ids ++ [parent]
  let ids := if parent ≠ newParent ∧ newParent ∉ ids then ids ++ [newParent] else ids
  (ids.insertionSort (· ≤ ·)).dedup

/-- Lock inodes in the given order and keep the records that exist. -/
def lockInodes : List Inode → Op (List (Inode × InodeValue))
  | [] => pure []
  | ino :: rest => do
      let raw ← getForUpdateInode ino
      let vals ← lockInodes rest
      match raw with
      | some iv => return (ino, iv) :: vals
      | none => return vals

/-- The checks of `rename` against an existing destination: the inode to delete, and whether a
directory is replaced. -/
def renameTarget (srcIsDir : Bool) (ts : Nat) (values : List (Inode × InodeValue)) :
    Option DirValue → Op (Option Inode × Bool)
  | none => return (none, false)
  | some dst => do
      let dstIsDir := isDir dst.mode
      if srcIsDir && !dstIsDir then throw .notADirectory
      if !srcIsDir && dstIsDir then throw .isADirectory
      if dstIsDir then
        if !(← isDirEmpty dst.inode) then throw .directoryNotEmpty
        return (none, true)
      else
        let dstIv ← orNotFound (values.lookup dst.inode)
        if dstIv.nlink > 1 then
          push (.putInode dst.inode { dstIv with nlink := dstIv.nlink - 1, ctime := ts })
          return (none, false)
        else
          return (some dst.inode, false)

/-- The parent deltas of `rename`, in the order they are written. -/
def renameDeltas (parent newParent : Inode) (srcIsDir dstWasDir : Bool) (ts : Nat) :
    List (Inode × List DeltaOp) :=
  (if dstWasDir then [(newParent, [.incrementNlink (-1)])] else []) ++
  (if srcIsDir && parent != newParent then
    [(parent, [.incrementNlink (-1)]), (newParent, [.incrementNlink 1])] else []) ++
  [(parent, [.setMtime ts, .setCtime ts])] ++
  (if parent != newParent then [(newParent, [.setMtime ts, .setCtime ts])] else [])

/-- The replaced entry leaves the batch, and with its last name the record. -/
def removeDst (newParent : Inode) (newName : Name) (deleteInode : Option Inode) :
    Option DirValue → Op Unit
  | some dst => do
      push (.deleteDirEntry newParent newName)
      if deleteInode.isSome then
        push (.deleteInode dst.inode)
        push (.deleteDataLocation dst.inode)
  | none => pure ()

/-- After the commit: deltas and cached value of a replaced destination, file or directory. -/
def forgetDst : Option DirValue → Op Unit
  | some dst => do
      clearDeltas dst.inode
      cacheInvalidate dst.inode
  | none => pure ()

/-- The transaction of `rename`: the inode to purge and the deltas written. -/
def renameTxn (cfg : Config) (parent : Inode) (name : Name) (newParent : Inode) (newName : Name) :
    Op (Option Inode × List (Inode × List DeltaOp)) := do
  let src := (← orNotFound (← getForUpdateDirEntry parent name)).inode
  let existingDst ← getForUpdateDirEntry newParent newName
  let values ← lockInodes (renameInodeIds parent newParent src existingDst)
  let srcIv ← orNotFound (values.lookup src)
  let srcIsDir := isDir srcIv.mode
  let ts ← nowSecs
  let (deleteInode, dstWasDir) ← renameTarget srcIsDir ts values existingDst
  removeDst newParent newName deleteInode existingDst
  push (.deleteDirEntry parent name)
  push (.putDirEntry newParent newName ⟨src, srcIv.mode⟩)
  let updatedSrc := { srcIv with ctime := ts }
  push (.putInode src updatedSrc)
  let deltas := renameDeltas parent newParent srcIsDir dstWasDir ts
  deltas.forM fun d => batchParentDeltas cfg d.1 d.2
  commit
  forgetDst existingDst
  cachePut src updatedSrc
  return (deleteInode, deltas)

def rename (cfg : Config) (parent : Inode) (name : Name) (newParent : Inode) (newName : Name) :
    Op (List Inode) := do
  validateName name
  validateName newName
  let (deleteInode, deltas) ← executeWithRetry (renameTxn cfg parent name newParent newName)
  -- the cache sees the deltas in the order they were written
  deltas.forM fun d => do
    cacheApplyDeltas d.1 d.2
    markDirty d.1
  return deleteInode.toList

/-! ## Handles -/

def openFile (cfg : Config) (inode : Inode) (flags : Nat) : Op OpenResponse := do
  let iv ← loadInode inode
  if isDir iv.mode then throw .isADirectory
  if flags &&& O_TRUNC != 0 && iv.size > 0 then
    executeWithRetry do
      let raw ← orNotFound (← getForUpdateInode inode)
      let ts ← nowSecs
      let iv := { raw with size := 0, mtime := ts, ctime := ts }
      push (.putInode inode iv)
      commit
      cachePut inode iv
  handleIncr inode
  let serverId := (← getDataLocation inode).getD cfg.defaultDataLocation.serverId
  return ⟨inode, ⟨serverId⟩⟩

def release (inode : Inode) : Op (List Inode) := do
  if ← checkAndClearDeferredDelete inode then
    executeWithRetry do
      push (.deleteInode inode)
      push (.deleteDataLocation inode)
      commit
    clearDeltas inode
    cacheInvalidate inode
    return [inode]
  else
    return []

/-! ## Compaction -/

/-- `force_compact_inode`: the scan comes before the row lock. -/
def forceCompactInode (inode : Inode) : Op Bool := do
  let kvPairs ← scanDeltasWithKeys inode
  if kvPairs.isEmpty then return false
  withBatch do
    match ← getForUpdateInode inode with
    | none => return false
    | some base =>
        push (.putInode inode (foldDeltas base (kvPairs.map (·.2))))
        kvPairs.forM fun p => push (.deleteDelta inode p.1)
        match ← ExceptT.lift commit.run with
        | .ok _ => do
            cacheInvalidate inode
            return true
        | .error .transactionConflict => return false
        | .error e => throw e

/-! ## Calls -/

/-- One request, with its arguments. -/
inductive Call where
  | lookup (parent : Inode) (name : Name)
  | getattr (inode : Inode)
  | setattr (inode : Inode) (req : SetAttrRequest)
  | readdir (inode : Inode)
  | create (parent : Inode) (name : Name) (mode uid gid : Nat)
  | createAndOpen (parent : Inode) (name : Name) (mode uid gid flags : Nat)
  | mkdir (parent : Inode) (name : Name) (mode uid gid : Nat)
  | unlink (parent : Inode) (name : Name)
  | rmdir (parent : Inode) (name : Name)
  | rename (parent : Inode) (name : Name) (newParent : Inode) (newName : Name)
  | openFile (inode : Inode) (flags : Nat)
  | reportWrite (inode : Inode) (newSize mtime : Nat)
  | link (parent : Inode) (name : Name) (target : Inode)
  | symlink (parent : Inode) (name : Name) (linkTarget : List Byte) (uid gid : Nat)
  | readlink (inode : Inode)
  | release (inode : Inode)
  | forceCompactInode (inode : Inode)
  deriving DecidableEq

inductive Reply where
  | attr (r : FsResult FileAttr)
  | setAttr (r : FsResult SetAttrResponse)
  | entries (r : FsResult (List DirEntry))
  | created (r : FsResult CreateAndOpenResponse)
  | purged (r : FsResult (List Inode))
  | opened (r : FsResult OpenResponse)
  | done (r : FsResult Unit)
  | target (r : FsResult (List Byte))
  | compacted (r : FsResult Bool)

def Call.body (cfg : Config) : Call → Prog Eff Eff.Res Reply
  | .lookup p n => do return .attr (← (RucksFs.lookup p n).run)
  | .getattr i => do return .attr (← (RucksFs.getattr i).run)
  | .setattr i req => do return .setAttr (← (RucksFs.setattr i req).run)
  | .readdir i => do return .entries (← (RucksFs.readdir i).run)
  | .create p n m u g => do return .attr (← (RucksFs.create cfg p n m u g).run)
  | .createAndOpen p n m u g f => do return .created (← (RucksFs.createAndOpen cfg p n m u g f).run)
  | .mkdir p n m u g => do return .attr (← (RucksFs.mkdir cfg p n m u g).run)
  | .unlink p n => do return .purged (← (RucksFs.unlink cfg p n).run)
  | .rmdir p n => do return .done (← (RucksFs.rmdir cfg p n).run)
  | .rename p n p' n' => do return .purged (← (RucksFs.rename cfg p n p' n').run)
  | .openFile i f => do return .opened (← (RucksFs.openFile cfg i f).run)
  | .reportWrite i sz t => do return .done (← (RucksFs.reportWrite i sz t).run)
  | .link p n t => do return .attr (← (RucksFs.link cfg p n t).run)
  | .symlink p n t u g => do return .attr (← (RucksFs.symlink cfg p n t u g).run)
  | .readlink i => do return .target (← (RucksFs.readlink i).run)
  | .release i => do return .purged (← (RucksFs.release i).run)
  | .forceCompactInode i => do return .compacted (← (RucksFs.forceCompactInode i).run)

end RucksFs
