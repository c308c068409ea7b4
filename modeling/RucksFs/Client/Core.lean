import RucksFs.Client.Requests
import RucksFs.Data.RawDisk

/-!
# The client (`client/src/vfs_core.rs`, `fallocate` of `client/src/fuse.rs`)

`VfsCore` sends metadata requests to the metadata server and data requests to the data server that its
routing table names.  Its operations are programs over the effects `VfsEff`: a request to one of the servers,
a look into one of its tables, or a reading of the clock.

* `VfsCore.resolveData` — the routing table: open handles, then registered servers, then the default.
* `VfsCall.op` — the operations.
* `VfsState.serve` — one operation after the other, on `MetadataServer` and on data servers that answer in any
  way (`VfsSetup.answer`).
-/

set_option autoImplicit false

namespace RucksFs

/-- The tables of a `VfsCore`. -/
structure VfsCore where
  handleMap : Inode → Option String := fun _ => none
  writtenInodes : Inode → Bool := fun _ => false

/-- The data servers of a `VfsCore`: the default one, and those registered under an identifier. -/
structure Registry where
  defaultData : Nat
  dataServers : String → Option Nat

/-- `resolve_data`. -/
def VfsCore.resolveData (reg : Registry) (v : VfsCore) (inode : Inode) : Nat :=
  match v.handleMap inode with
  | some serverId => (reg.dataServers serverId).getD reg.defaultData
  | none => reg.defaultData

inductive VfsEff where
  | metadata (m : MetadataOp)
  | resolveData (inode : Inode)
  | data (server : Nat) (c : DataCall)
  | nowSecs
  | handleInsert (handle : Inode) (serverId : String)
  | handleRemove (inode : Inode)
  | writtenInsert (inode : Inode)
  | writtenRemove (inode : Inode)

def VfsEff.Res : VfsEff → Type
  | .metadata m => FsResult m.Out
  | .resolveData _ => Nat
  | .data _ c => c.Res
  | .nowSecs => Nat
  | .handleInsert _ _ => Unit
  | .handleRemove _ => Unit
  | .writtenInsert _ => Unit
  | .writtenRemove _ => Bool

/-- A fallible program of the client. -/
abbrev VfsOp (α : Type) := ExceptT FsError (Prog VfsEff VfsEff.Res) α

namespace VfsOp

/-- A step that cannot fail. -/
def eff (e : VfsEff) : VfsOp e.Res := ExceptT.lift (Prog.perform e)

def metadata (m : MetadataOp) : VfsOp m.Out := ExceptT.mk (Prog.perform (VfsEff.metadata m))

def resolveData (inode : Inode) : VfsOp Nat := eff (.resolveData inode)

def readData (server inode offset size : Nat) : VfsOp (List Byte) :=
  ExceptT.mk (Prog.perform (VfsEff.data server (.readData inode offset size)))

def writeData (server inode offset : Nat) (data : List Byte) : VfsOp Nat :=
  ExceptT.mk (Prog.perform (VfsEff.data server (.writeData inode offset data)))

def truncateData (server inode size : Nat) : VfsOp Unit :=
  ExceptT.mk (Prog.perform (VfsEff.data server (.truncate inode size)))

def flushData (server inode : Nat) : VfsOp Unit :=
  ExceptT.mk (Prog.perform (VfsEff.data server (.flush inode)))

/-- The loop over `purged_inodes`; a failed deletion is only logged. -/
def deletePurged : List Inode → VfsOp Unit
  | [] => pure ()
  | inode :: rest => do
      let ds ← resolveData inode
      let _ ← eff (.data ds (.deleteData inode))
      deletePurged rest

end VfsOp

open VfsOp

/-- An operation of the trait `VfsOps`. -/
inductive VfsCall where
  | lookup (parent : Inode) (name : Name)
  | getattr (inode : Inode)
  | readdir (inode : Inode)
  | create (parent : Inode) (name : Name) (mode uid gid : Nat)
  | createAndOpen (parent : Inode) (name : Name) (mode uid gid flags : Nat)
  | mkdir (parent : Inode) (name : Name) (mode uid gid : Nat)
  | unlink (parent : Inode) (name : Name)
  | rmdir (parent : Inode) (name : Name)
  | rename (parent : Inode) (name : Name) (newParent : Inode) (newName : Name)
  | setattr (inode : Inode) (req : SetAttrRequest)
  | statfs (inode : Inode)
  | openFile (inode : Inode) (flags : Nat)
  | read (inode : Inode) (offset size : Nat)
  | write (inode : Inode) (offset : Nat) (data : List Byte) (flags : Nat)
  | flush (inode : Inode)
  | fsync (inode : Inode) (datasync : Bool)
  | link (parent : Inode) (name : Name) (target : Inode)
  | symlink (parent : Inode) (name : Name) (linkTarget : List Byte) (uid gid : Nat)
  | readlink (inode : Inode)
  | release (inode : Inode)
  deriving DecidableEq

namespace VfsCall

def Out : VfsCall → Type
  | .lookup .. | .getattr .. | .create .. | .mkdir .. | .setattr .. | .link .. | .symlink .. => FileAttr
  | .readdir .. => List DirEntry
  | .createAndOpen .. => FileAttr × Nat
  | .unlink .. | .rmdir .. | .rename .. | .flush .. | .fsync .. | .release .. => Unit
  | .statfs .. => StatFs
  | .openFile .. => Nat
  | .read .. | .readlink .. => List Byte
  | .write .. => Nat

end VfsCall

namespace VfsCore

def createAndOpen (parent : Inode) (name : Name) (mode uid gid flags : Nat) : VfsOp (FileAttr × Nat) := do
  let resp : CreateAndOpenResponse ← metadata (.createAndOpen parent name mode uid gid flags)
  eff (.handleInsert resp.handle resp.dataLocation.serverId)
  return (resp.attr, resp.handle)

def unlink (parent : Inode) (name : Name) : VfsOp Unit := do
  let purged : List Inode ← metadata (.unlink parent name)
  deletePurged purged

def rename (parent : Inode) (name : Name) (newParent : Inode) (newName : Name) : VfsOp Unit := do
  let purged : List Inode ← metadata (.rename parent name newParent newName)
  deletePurged purged

def setattr (inode : Inode) (req : SetAttrRequest) : VfsOp FileAttr := do
  let resp : SetAttrResponse ← metadata (.setattr inode req)
  match resp.needsTruncate with
  | some size =>
      let ds ← VfsOp.resolveData inode
      truncateData ds inode size
      return resp.attr
  | none => return resp.attr

def openFile (inode : Inode) (flags : Nat) : VfsOp Nat := do
  let resp : OpenResponse ← metadata (.openFile inode flags)
  eff (.handleInsert resp.handle resp.dataLocation.serverId)
  return resp.handle

def read (inode : Inode) (offset size : Nat) : VfsOp (List Byte) := do
  let ds ← VfsOp.resolveData inode
  readData ds inode offset size

def write (inode : Inode) (offset : Nat) (data : List Byte) (_flags : Nat) : VfsOp Nat := do
  let ds ← VfsOp.resolveData inode
  let written ← writeData ds inode offset data
  let newEnd := offset + written
  let ts ← eff .nowSecs
  let _ ← metadata (.reportWrite inode newEnd ts)
  eff (.writtenInsert inode)
  return written

/-- Nothing is sent when nothing was written. -/
def flush (inode : Inode) : VfsOp Unit := do
  let wasWritten : Bool ← eff (.writtenRemove inode)
  if !wasWritten then return ()
  let ds ← VfsOp.resolveData inode
  flushData ds inode

def fsync (inode : Inode) (_datasync : Bool) : VfsOp Unit := do
  let ds ← VfsOp.resolveData inode
  flushData ds inode

def release (inode : Inode) : VfsOp Unit := do
  let purged : List Inode ← metadata (.release inode)
  deletePurged purged
  eff (.handleRemove inode)
  let _ ← eff (.writtenRemove inode)
  return ()

end VfsCore

/-- `FuseClient::fallocate`.  `EOPNOTSUPP` is the errno of `NotImplemented`. -/
def fallocate (inode : Inode) (offset length mode : Nat) : VfsOp Unit := do
  let keepSize := mode &&& 0x01 != 0
  let punchHole := mode &&& 0x02 != 0
  -- `mode & !(0x01 | 0x02)` on a `u32`
  let unsupported := mode &&& 0xfffffffc
  if unsupported != 0 then throw .notImplemented
  if punchHole || keepSize then return ()
  let newEnd := offset + length
  let attr : FileAttr ← metadata (.getattr inode)
  if newEnd > attr.size then
    let _ ← VfsCore.setattr inode { size := some newEnd }
    return ()
  else return ()

/-- `impl VfsOps for VfsCore`. -/
def VfsCall.op : (c : VfsCall) → VfsOp c.Out
  | .lookup p n => metadata (.lookup p n)
  | .getattr i => metadata (.getattr i)
  | .readdir i => metadata (.readdir i)
  | .create p n m u g => metadata (.create p n m u g)
  | .createAndOpen p n m u g f => VfsCore.createAndOpen p n m u g f
  | .mkdir p n m u g => metadata (.mkdir p n m u g)
  | .unlink p n => VfsCore.unlink p n
  | .rmdir p n => metadata (.rmdir p n)
  | .rename p n p' n' => VfsCore.rename p n p' n'
  | .setattr i req => VfsCore.setattr i req
  | .statfs i => metadata (.statfs i)
  | .openFile i f => VfsCore.openFile i f
  | .read i off n => VfsCore.read i off n
  | .write i off data f => VfsCore.write i off data f
  | .flush i => VfsCore.flush i
  | .fsync i d => VfsCore.fsync i d
  | .link p n t => metadata (.link p n t)
  | .symlink p n t u g => metadata (.symlink p n t u g)
  | .readlink i => metadata (.readlink i)
  | .release i => VfsCore.release i

/-! ## One call at a time -/

/-- What is fixed around a `VfsCore`: the configuration of the metadata server, the registered data servers and
how data servers answer, on a state `δ` of their own. -/
structure VfsSetup (δ : Type) where
  cfg : Config := {}
  reg : Registry
  clock : Nat → Nat := fun _ => 0
  answer : Nat → (c : DataCall) → δ → c.Res × δ

/-- Data servers that each keep a disk of their own. -/
def VfsSetup.onDisks (cfg : Config) (reg : Registry) (clock : Nat → Nat := fun _ => 0) :
    VfsSetup (Nat → RawDisk) where
  cfg := cfg
  reg := reg
  clock := clock
  answer srv c disks := ((RawDisk.serve c (disks srv)).1, Function.update disks srv (RawDisk.serve c (disks srv)).2)

/-- `getattr` answers the size of the cached copy, and without one the stored size. -/
theorem Server.size_load (s : Server) {i : Inode} {iv : InodeValue} (hiv : s.db.inode i = some iv) :
    Except.map FileAttr.size ((s.load i).1.map InodeValue.toAttr) = .ok ((s.cache.find i).getD iv).size := by
  unfold load
  cases s.cache.find i with
  | some v => rfl
  | none =>
      have heff : s.db.effective i = some (foldDeltas iv (s.db.deltas i)) := by
        unfold Db.effective
        rw [hiv]
        rfl
      rw [heff]
      exact congrArg Except.ok (foldDeltas_size iv _)

structure VfsState (δ : Type) where
  server : Server
  data : δ
  core : VfsCore := {}
  /-- Number of readings of the client's clock. -/
  ticks : Nat := 0

namespace VfsState

variable {δ : Type}

/-- One effect, with the metadata server serving one request at a time. -/
def handle (S : VfsSetup δ) : (e : VfsEff) → VfsState δ → e.Res × VfsState δ
  | .metadata m, v => ((v.server.serve S.cfg m).1, { v with server := (v.server.serve S.cfg m).2 })
  | .resolveData i, v => (v.core.resolveData S.reg i, v)
  | .data srv c, v => ((S.answer srv c v.data).1, { v with data := (S.answer srv c v.data).2 })
  | .nowSecs, v => (S.clock v.ticks, { v with ticks := v.ticks + 1 })
  | .handleInsert h id, v =>
      ((), { v with core := { v.core with handleMap := Function.update v.core.handleMap h (some id) } })
  | .handleRemove i, v =>
      ((), { v with core := { v.core with handleMap := Function.update v.core.handleMap i none } })
  | .writtenInsert i, v =>
      ((), { v with core := { v.core with writtenInodes := Function.update v.core.writtenInodes i true } })
  | .writtenRemove i, v =>
      (v.core.writtenInodes i,
        { v with core := { v.core with writtenInodes := Function.update v.core.writtenInodes i false } })

/-- Run an operation of the client to its end. -/
def run {α : Type} (S : VfsSetup δ) (x : VfsOp α) (v : VfsState δ) : FsResult α × VfsState δ :=
  Prog.run (handle S) x.run v

/-- Serve one call. -/
def serve (S : VfsSetup δ) (c : VfsCall) (v : VfsState δ) : FsResult c.Out × VfsState δ := v.run S c.op

/-- The data request that an effect is. -/
def dataRequest : ((e : VfsEff) × e.Res) → Option (Nat × DataCall)
  | ⟨.data srv c, _⟩ => some (srv, c)
  | _ => none

/-- The data requests that an operation of the client sends. -/
def sends {α : Type} (S : VfsSetup δ) (x : VfsOp α) (v : VfsState δ) : List (Nat × DataCall) :=
  (Prog.performed (handle S) x.run v).filterMap dataRequest

/-- The data requests that a call sends. -/
def sent (S : VfsSetup δ) (c : VfsCall) (v : VfsState δ) : List (Nat × DataCall) := v.sends S c.op

/-! ### Equations of runs -/

section

variable {α β : Type} (S : VfsSetup δ) (v : VfsState δ)

@[simp] theorem run_pure (a : α) : run S (pure a : VfsOp α) v = (.ok a, v) := rfl

theorem run_bind (x : VfsOp α) (f : α → VfsOp β) :
    run S (x >>= f) v =
      match run S x v with
      | (.ok a, v') => run S (f a) v'
      | (.error e, v') => (.error e, v') := by
  unfold run
  rw [Prog.run_except_bind]
  rcases Prog.run (handle S) x.run v with ⟨r, v'⟩
  cases r <;> rfl

@[simp] theorem run_eff (e : VfsEff) : run S (eff e) v = (.ok (handle S e v).1, (handle S e v).2) := rfl

@[simp] theorem run_resolveData (i : Inode) :
    run S (VfsOp.resolveData i) v = (.ok (v.core.resolveData S.reg i), v) := rfl

@[simp] theorem run_metadata (m : MetadataOp) : run S (metadata m) v =
    ((v.server.serve S.cfg m).1, { v with server := (v.server.serve S.cfg m).2 }) := rfl

theorem run_metadata_bind (m : MetadataOp) (f : m.Out → VfsOp β) :
    run S (metadata m >>= f) v =
      match v.server.serve S.cfg m with
      | (.ok a, s') => run S (f a) { v with server := s' }
      | (.error e, s') => (.error e, { v with server := s' }) := by
  rw [run_bind, run_metadata]
  rcases v.server.serve S.cfg m with ⟨r, s'⟩
  cases r <;> rfl

theorem run_metadata_ok {m : MetadataOp} {a : m.Out} {s' : Server} (f : m.Out → VfsOp β)
    (h : v.server.serve S.cfg m = (.ok a, s')) :
    run S (metadata m >>= f) v = run S (f a) { v with server := s' } := by
  rw [run_metadata_bind, h]

theorem run_metadata_error {m : MetadataOp} {e : FsError} {s' : Server} (f : m.Out → VfsOp β)
    (h : v.server.serve S.cfg m = (.error e, s')) :
    run S (metadata m >>= f) v = (.error e, { v with server := s' }) := by
  rw [run_metadata_bind, h]

theorem serve_getattr (i : Inode) :
    (serve S (.getattr i) v).1 = (v.server.load i).1.map InodeValue.toAttr :=
  congrArg Prod.fst (exec_getattr S.cfg v.server i)

/-- Deletions change the data servers only, and are never reported as failed. -/
theorem run_deletePurged (l : List Inode) :
    ∀ v : VfsState δ, ∃ data, run S (deletePurged l) v = (.ok (), { v with data }) := by
  induction l with
  | nil => exact fun v => ⟨v.data, rfl⟩
  | cons i l ih =>
      intro v
      obtain ⟨data, h⟩ := ih { v with data := (S.answer (v.core.resolveData S.reg i) (.deleteData i) v.data).2 }
      exact ⟨data, h⟩

/-! ### Equations of what is sent -/

theorem sends_bind (x : VfsOp α) (f : α → VfsOp β) :
    sends S (x >>= f) v = sends S x v ++
      match run S x v with
      | (.ok a, v') => sends S (f a) v'
      | (.error _, _) => [] := by
  unfold sends run
  rw [Prog.performed_except_bind, List.filterMap_append]
  rcases Prog.run (handle S) x.run v with ⟨r, v'⟩
  cases r <;> rfl

@[simp] theorem sends_metadata (m : MetadataOp) : sends S (metadata m) v = [] := rfl

theorem sends_eff_bind (e : VfsEff) (f : e.Res → VfsOp β) :
    sends S (eff e >>= f) v =
      (dataRequest ⟨e, (handle S e v).1⟩).toList ++ sends S (f (handle S e v).1) (handle S e v).2 := by
  rw [sends_bind, run_eff]
  cases e <;> rfl

/-- A metadata request, and what its answer leads to. -/
theorem sends_metadata_bind (m : MetadataOp) (f : m.Out → VfsOp β) :
    sends S (metadata m >>= f) v =
      match v.server.serve S.cfg m with
      | (.ok a, s') => sends S (f a) { v with server := s' }
      | (.error _, _) => [] := by
  rw [sends_bind, sends_metadata, run_metadata]
  rcases v.server.serve S.cfg m with ⟨r, s'⟩
  cases r <;> rfl

@[simp] theorem sends_deletePurged (l : List Inode) :
    ∀ v : VfsState δ,
      sends S (deletePurged l) v = l.map fun i => (v.core.resolveData S.reg i, .deleteData i) := by
  induction l with
  | nil => exact fun _ => rfl
  | cons i l ih =>
      intro v
      exact congrArg (List.cons _)
        (ih { v with data := (S.answer (v.core.resolveData S.reg i) (.deleteData i) v.data).2 })

end

end VfsState

end RucksFs
