import RucksFs.Client.Fuse

/-!
# Metadata over gRPC (`rpc/src/metadata_client.rs`, `rpc/src/metadata_server.rs`)

A client that is not in the server's process reaches `MetadataOps` through two hand-written layers.
`MetadataRpcClient` encodes each operation into a request message, `MetadataRpcServer` decodes it, asks its
backend and encodes the answer, an error as a gRPC status.  Messages and statuses arrive as they were sent.

* `MetadataRpcClient.call_eq` — an operation over the wire does to the backend what it does directly, and its
  answer is the direct one up to the errors' way through a status.
* `FsError.viaStatus_eq_iff` — which errors come back as they were: not the two about directories, which share a
  status with `InvalidInput`, and not `Other`, which shares one with `Io`.
* `rpc_transparent_iff` — when an operation answers over the wire as it does directly.
* `MetadataRpcClient.session_eq` — whole sessions.
-/

set_option autoImplicit false

namespace RucksFs

/-! ## Messages (`rpc/proto/metadata.proto`) -/

namespace Proto

structure FileAttr where
  inode : Nat
  size : Nat
  mode : Nat
  nlink : Nat
  uid : Nat
  gid : Nat
  atime : Nat
  mtime : Nat
  ctime : Nat
  deriving DecidableEq, Repr

structure StatFs where
  blocks : Nat
  bfree : Nat
  bavail : Nat
  files : Nat
  ffree : Nat
  bsize : Nat
  namelen : Nat
  deriving DecidableEq, Repr

structure DirEntry where
  name : Name
  inode : Nat
  kind : Nat
  deriving DecidableEq, Repr

structure DataLocation where
  serverId : String
  deriving DecidableEq, Repr

structure ReaddirResponse where
  entries : List DirEntry
  deriving DecidableEq, Repr

/-- A field of message type may be missing. -/
structure CreateAndOpenResponse where
  attr : Option FileAttr
  handle : Nat
  dataLocation : Option DataLocation
  deriving DecidableEq, Repr

/-- Three messages with the same field. -/
structure PurgedResponse where
  purgedInodes : List Nat
  deriving DecidableEq, Repr

abbrev UnlinkResponse := PurgedResponse

abbrev RenameResponse := PurgedResponse

abbrev ReleaseResponse := PurgedResponse

structure SetAttrResponse where
  attr : Option FileAttr
  needsTruncate : Option Nat
  deriving DecidableEq, Repr

structure OpenResponse where
  handle : Nat
  dataLocation : Option DataLocation
  deriving DecidableEq, Repr

structure ReadlinkResponse where
  target : List Byte
  deriving DecidableEq, Repr

structure EmptyResponse where
  deriving DecidableEq, Repr

/-- The methods of `MetadataService`, each with the fields of its request message. -/
inductive Request where
  | lookup (parent : Nat) (name : Name)
  | getattr (inode : Nat)
  | readdir (inode : Nat)
  | create (parent : Nat) (name : Name) (mode uid gid : Nat)
  | createAndOpen (parent : Nat) (name : Name) (mode uid gid flags : Nat)
  | mkdir (parent : Nat) (name : Name) (mode uid gid : Nat)
  | unlink (parent : Nat) (name : Name)
  | rmdir (parent : Nat) (name : Name)
  | rename (parent : Nat) (name : Name) (newParent : Nat) (newName : Name)
  | setattr (inode : Nat) (mode uid gid size atime mtime : Option Nat)
  | statfs (inode : Nat)
  | openFile (inode flags : Nat)
  | reportWrite (inode newSize mtime : Nat)
  | link (parent : Nat) (name : Name) (targetInode : Nat)
  | symlink (parent : Nat) (name : Name) (linkTarget : List Byte) (uid gid : Nat)
  | readlink (inode : Nat)
  | release (inode : Nat)
  deriving DecidableEq, Repr

def Request.Response : Request → Type
  | .lookup .. | .getattr .. | .create .. | .mkdir .. | .link .. | .symlink .. => FileAttr
  | .readdir .. => ReaddirResponse
  | .createAndOpen .. => CreateAndOpenResponse
  | .unlink .. => UnlinkResponse
  | .rename .. => RenameResponse
  | .release .. => ReleaseResponse
  | .rmdir .. | .reportWrite .. => EmptyResponse
  | .setattr .. => SetAttrResponse
  | .statfs .. => StatFs
  | .openFile .. => OpenResponse
  | .readlink .. => ReadlinkResponse

end Proto

/-- `tonic::Code`. -/
inductive Code where
  | ok
  | cancelled
  | unknown
  | invalidArgument
  | deadlineExceeded
  | notFound
  | alreadyExists
  | permissionDenied
  | resourceExhausted
  | failedPrecondition
  | aborted
  | outOfRange
  | unimplemented
  | internal
  | unavailable
  | dataLoss
  | unauthenticated
  deriving DecidableEq, Repr

/-- `tonic::Status`. -/
structure Status where
  code : Code
  message : String
  deriving DecidableEq, Repr

/-! ## Errors -/

/-- The text of an error. -/
def FsError.text : FsError → String
  | .notImplemented => "not implemented"
  | .notFound => "not found"
  | .alreadyExists => "already exists"
  | .notADirectory => "not a directory"
  | .isADirectory => "is a directory"
  | .directoryNotEmpty => "directory not empty"
  | .nameTooLong => "name too long"
  | .io msg => "io error: " ++ msg
  | .invalidInput msg => "invalid input: " ++ msg
  | .permissionDenied => "permission denied"
  | .transactionConflict => "transaction conflict"
  | .other msg => "other: " ++ msg

/-- `map_error` of the server. -/
def MetadataRpcServer.mapError : FsError → Status
  | .notFound => ⟨.notFound, FsError.text .notFound⟩
  | .permissionDenied => ⟨.permissionDenied, FsError.text .permissionDenied⟩
  | .invalidInput msg => ⟨.invalidArgument, msg⟩
  | .io msg => ⟨.internal, msg⟩
  | .notImplemented => ⟨.unimplemented, FsError.text .notImplemented⟩
  | .alreadyExists => ⟨.alreadyExists, FsError.text .alreadyExists⟩
  | .notADirectory => ⟨.invalidArgument, FsError.text .notADirectory⟩
  | .isADirectory => ⟨.invalidArgument, FsError.text .isADirectory⟩
  | .directoryNotEmpty => ⟨.failedPrecondition, FsError.text .directoryNotEmpty⟩
  | .nameTooLong => ⟨.outOfRange, FsError.text .nameTooLong⟩
  | .transactionConflict => ⟨.aborted, FsError.text .transactionConflict⟩
  | .other msg => ⟨.internal, msg⟩

/-- `map_error` of the client. -/
def MetadataRpcClient.mapError (err : Status) : FsError :=
  match err.code with
  | .notFound => .notFound
  | .permissionDenied => .permissionDenied
  | .invalidArgument => .invalidInput err.message
  | .unauthenticated => .permissionDenied
  | .unimplemented => .notImplemented
  | .alreadyExists => .alreadyExists
  | .failedPrecondition => .directoryNotEmpty
  | .aborted => .transactionConflict
  | .outOfRange => .nameTooLong
  | _ => .io err.message

namespace FsError

/-- What becomes of an error on its way through a status. -/
def viaStatus (e : FsError) : FsError := MetadataRpcClient.mapError (MetadataRpcServer.mapError e)

/-- The error has a status of its own. -/
def Survives : FsError → Prop
  | .notADirectory | .isADirectory | .other _ => False
  | _ => True

instance : DecidablePred Survives := fun e => by
  cases e <;> first | exact instDecidableTrue | exact instDecidableFalse

theorem viaStatus_eq_iff (e : FsError) : e.viaStatus = e ↔ e.Survives := by
  cases e <;> simp [viaStatus, Survives, MetadataRpcServer.mapError, MetadataRpcClient.mapError]

/-- The kernel sees another error for the two about directories, and only for them. -/
theorem errno_viaStatus (e : FsError) :
    fsErrorToErrno e.viaStatus = fsErrorToErrno e ↔ e ≠ .notADirectory ∧ e ≠ .isADirectory := by
  cases e <;> simp [viaStatus, MetadataRpcServer.mapError, MetadataRpcClient.mapError, fsErrorToErrno]

end FsError

/-! ## The two sides -/

/-- A backend: how it answers each operation, and what becomes of its state. -/
abbrev MetadataOps (σ : Type) := (m : MetadataOp) → σ → FsResult m.Out × σ

/-- `MetadataServer`. -/
def Server.backend (cfg : Config) : MetadataOps Server := fun m s => s.serve cfg m

/-- `Default` of `FileAttr`. -/
def FileAttr.zero : FileAttr := ⟨0, 0, 0, 0, 0, 0, 0, 0, 0⟩

/-- `Default` of `DataLocation`. -/
def DataLocation.unnamed : DataLocation := ⟨""⟩

namespace MetadataRpcServer

/-- `to_proto_attr`. -/
def toProtoAttr (attr : FileAttr) : Proto.FileAttr :=
  ⟨attr.inode, attr.size, attr.mode, attr.nlink, attr.uid, attr.gid, attr.atime, attr.mtime, attr.ctime⟩

/-- The backend's operation that a request asks for. -/
def op : Proto.Request → MetadataOp
  | .lookup parent name => .lookup parent name
  | .getattr inode => .getattr inode
  | .readdir inode => .readdir inode
  | .create parent name mode uid gid => .create parent name mode uid gid
  | .createAndOpen parent name mode uid gid flags => .createAndOpen parent name mode uid gid flags
  | .mkdir parent name mode uid gid => .mkdir parent name mode uid gid
  | .unlink parent name => .unlink parent name
  | .rmdir parent name => .rmdir parent name
  | .rename parent name newParent newName => .rename parent name newParent newName
  | .setattr inode mode uid gid size atime mtime => .setattr inode ⟨mode, uid, gid, size, atime, mtime⟩
  | .statfs inode => .statfs inode
  | .openFile inode flags => .openFile inode flags
  | .reportWrite inode newSize mtime => .reportWrite inode newSize mtime
  | .link parent name targetInode => .link parent name targetInode
  | .symlink parent name linkTarget uid gid => .symlink parent name linkTarget uid gid
  | .readlink inode => .readlink inode
  | .release inode => .release inode

/-- The response to a successful answer. -/
def respond : (q : Proto.Request) → (op q).Out → q.Response
  | .lookup .., attr | .getattr .., attr | .create .., attr | .mkdir .., attr | .link .., attr
  | .symlink .., attr => toProtoAttr attr
  | .readdir .., entries => Proto.ReaddirResponse.mk (entries.map fun e => ⟨e.name, e.inode, e.kind⟩)
  | .createAndOpen .., resp =>
      Proto.CreateAndOpenResponse.mk (some (toProtoAttr resp.attr)) resp.handle (some ⟨resp.dataLocation.serverId⟩)
  | .unlink .., purged | .rename .., purged | .release .., purged => Proto.PurgedResponse.mk purged
  | .rmdir .., _ | .reportWrite .., _ => Proto.EmptyResponse.mk
  | .setattr .., resp => Proto.SetAttrResponse.mk (some (toProtoAttr resp.attr)) resp.needsTruncate
  | .statfs .., st => Proto.StatFs.mk st.blocks st.bfree st.bavail st.files st.ffree st.bsize st.namelen
  | .openFile .., resp => Proto.OpenResponse.mk resp.handle (some ⟨resp.dataLocation.serverId⟩)
  | .readlink .., target => Proto.ReadlinkResponse.mk target

/-- Answer one request. -/
def serve {σ : Type} (backend : MetadataOps σ) (q : Proto.Request) (s : σ) : Except Status q.Response × σ :=
  let r := backend (op q) s
  ((r.1.map (respond q)).mapError mapError, r.2)

end MetadataRpcServer

namespace MetadataRpcClient

/-- `from_proto_attr`. -/
def fromProtoAttr (attr : Proto.FileAttr) : FileAttr :=
  ⟨attr.inode, attr.size, attr.mode, attr.nlink, attr.uid, attr.gid, attr.atime, attr.mtime, attr.ctime⟩

/-- `from_proto_statfs`. -/
def fromProtoStatfs (s : Proto.StatFs) : StatFs :=
  ⟨s.blocks, s.bfree, s.bavail, s.files, s.ffree, s.bsize, s.namelen⟩

/-- The request of an operation. -/
def request : MetadataOp → Proto.Request
  | .lookup parent name => .lookup parent name
  | .getattr inode => .getattr inode
  | .readdir inode => .readdir inode
  | .create parent name mode uid gid => .create parent name mode uid gid
  | .createAndOpen parent name mode uid gid flags => .createAndOpen parent name mode uid gid flags
  | .mkdir parent name mode uid gid => .mkdir parent name mode uid gid
  | .unlink parent name => .unlink parent name
  | .rmdir parent name => .rmdir parent name
  | .rename parent name newParent newName => .rename parent name newParent newName
  | .setattr inode req => .setattr inode req.mode req.uid req.gid req.size req.atime req.mtime
  | .statfs inode => .statfs inode
  | .openFile inode flags => .openFile inode flags
  | .reportWrite inode newSize mtime => .reportWrite inode newSize mtime
  | .link parent name target => .link parent name target
  | .symlink parent name linkTarget uid gid => .symlink parent name linkTarget uid gid
  | .readlink inode => .readlink inode
  | .release inode => .release inode

/-- The answer in a response; a missing message is its default. -/
def answer : (m : MetadataOp) → (request m).Response → m.Out
  | .lookup .., attr | .getattr .., attr | .create .., attr | .mkdir .., attr | .link .., attr
  | .symlink .., attr => fromProtoAttr attr
  | .readdir .., resp => resp.entries.map fun e => DirEntry.mk e.name e.inode e.kind
  | .createAndOpen .., resp => CreateAndOpenResponse.mk ((resp.attr.map fromProtoAttr).getD .zero) resp.handle
      ((resp.dataLocation.map fun dl => DataLocation.mk dl.serverId).getD .unnamed)
  | .unlink .., resp | .rename .., resp | .release .., resp => resp.purgedInodes
  | .rmdir .., _ | .reportWrite .., _ => ()
  | .setattr .., resp => SetAttrResponse.mk ((resp.attr.map fromProtoAttr).getD .zero) resp.needsTruncate
  | .statfs .., resp => fromProtoStatfs resp
  | .openFile .., resp => OpenResponse.mk resp.handle
      ((resp.dataLocation.map fun dl => DataLocation.mk dl.serverId).getD .unnamed)
  | .readlink .., resp => resp.target

/-- An operation of a client that is connected to a server over `backend`. -/
def call {σ : Type} (backend : MetadataOps σ) : MetadataOps σ := fun m s =>
  let r := MetadataRpcServer.serve backend (request m) s
  ((r.1.mapError mapError).map (answer m), r.2)

end MetadataRpcClient

/-! ## What arrives -/

/-- Answers that are encoded and decoded come back, errors as they come out of their status. -/
theorem relay {α β : Type} (resp : α → β) (ans : β → α) (h : ∀ a, ans (resp a) = a) (r : FsResult α) :
    (((r.map resp).mapError MetadataRpcServer.mapError).mapError MetadataRpcClient.mapError).map ans =
      r.mapError FsError.viaStatus := by
  cases r with
  | error e => rfl
  | ok a => exact congrArg Except.ok (h a)

namespace MetadataRpcClient

variable {σ : Type}

theorem entries_eq (i : Inode) (entries : List DirEntry) :
    answer (.readdir i) (MetadataRpcServer.respond (.readdir i) entries) = entries := by
  show (entries.map fun e => Proto.DirEntry.mk e.name e.inode e.kind).map (fun e => DirEntry.mk e.name e.inode e.kind) = _
  simp [List.map_map, Function.comp_def]

/-- **The wire carries everything** but some errors: the same operation with the same arguments reaches the
backend, every field of its answer comes back. -/
theorem call_eq (backend : MetadataOps σ) (m : MetadataOp) (s : σ) :
    call backend m s = ((backend m s).1.mapError FsError.viaStatus, (backend m s).2) := by
  cases m with
  | readdir i =>
      exact Prod.ext (relay _ _ (entries_eq i) _) rfl
  | _ => exact Prod.ext (relay _ _ (fun _ => rfl) _) rfl

end MetadataRpcClient

/-- **Transparency**: an operation over the wire answers, and leaves the backend, as it does directly, exactly
when the direct answer is not an error without a status of its own. -/
theorem rpc_transparent_iff {σ : Type} (backend : MetadataOps σ) (m : MetadataOp) (s : σ) :
    MetadataRpcClient.call backend m s = backend m s ↔ ∀ e, (backend m s).1 = .error e → e.Survives := by
  rw [MetadataRpcClient.call_eq]
  generalize backend m s = r
  obtain ⟨r, s'⟩ := r
  cases r with
  | ok a => simp [Except.mapError]
  | error e => simp [Except.mapError, FsError.viaStatus_eq_iff]

/-- `rmdir` of a file: `ENOTDIR` directly, `EINVAL` over the wire. -/
theorem rmdir_of_file_over_rpc :
    let s := ((Server.fresh {}).exec {} (.create ROOT_INODE [97] 0o644 0 0)).2
    (Server.backend {} (.rmdir ROOT_INODE [97]) s).1 = .error .notADirectory ∧
    (MetadataRpcClient.call (Server.backend {}) (.rmdir ROOT_INODE [97]) s).1 =
      .error (.invalidInput "not a directory") ∧
    fsErrorToErrno .notADirectory = .enotdir ∧ fsErrorToErrno (.invalidInput "not a directory") = .einval := by
  refine ⟨?_, ?_, rfl, rfl⟩
  · exact eq_error_of_errorOf (by decide +kernel)
  · exact eq_error_of_errorOf (by decide +kernel)

/-! ## Sessions -/

/-- The answers to a list of operations, one after the other. -/
def session {σ : Type} (backend : MetadataOps σ) : List MetadataOp → σ → List ((m : MetadataOp) × FsResult m.Out) × σ
  | [], s => ([], s)
  | m :: ms, s =>
      let r := backend m s
      let rest := session backend ms r.2
      (⟨m, r.1⟩ :: rest.1, rest.2)

/-- A session over the wire is the direct session, with the errors that come out of their statuses. -/
theorem MetadataRpcClient.session_eq {σ : Type} (backend : MetadataOps σ) : ∀ (ms : List MetadataOp) (s : σ),
    session (call backend) ms s =
      ((session backend ms s).1.map fun x => ⟨x.1, x.2.mapError FsError.viaStatus⟩, (session backend ms s).2)
  | [], _ => rfl
  | m :: ms, s => by
      have hhead := call_eq backend m s
      have htail := session_eq backend ms (backend m s).2
      unfold session
      rw [hhead]
      dsimp only
      rw [htail]
      rfl

end RucksFs
