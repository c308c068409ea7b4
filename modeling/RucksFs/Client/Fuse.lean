import RucksFs.Client.Core
import RucksFs.Lib.Utf8

/-!
# `FuseClient` (`client/src/fuse.rs`)

The callbacks of the kernel that carry names, and the one that lists a directory.  The kernel's names are byte
strings; every callback turns them into text first (`to_string_lossy`).  Fields of a reply that are fixed numbers
are there with their numbers; the callbacks that only pass inode numbers on are `VfsCall`s.

* `FuseCall.op` — the callbacks.
* `VfsState.fuse` — one callback, with its errno.
-/

set_option autoImplicit false

namespace RucksFs

/-- The error numbers of `fs_error_to_errno`. -/
inductive Errno where
  | eopnotsupp
  | enoent
  | eexist
  | enotdir
  | eisdir
  | enotempty
  | enametoolong
  | eperm
  | einval
  | eio
  | eagain
  deriving DecidableEq, Repr

def fsErrorToErrno : FsError → Errno
  | .notImplemented => .eopnotsupp
  | .notFound => .enoent
  | .alreadyExists => .eexist
  | .notADirectory => .enotdir
  | .isADirectory => .eisdir
  | .directoryNotEmpty => .enotempty
  | .nameTooLong => .enametoolong
  | .permissionDenied => .eperm
  | .invalidInput _ => .einval
  | .io _ => .eio
  | .other _ => .eio
  | .transactionConflict => .eagain

/-- The kernel's file types that a reply can name. -/
inductive FileKind where
  | directory
  | symlink
  | regularFile
  deriving DecidableEq, Repr

def FileKind.ofMode (mode : Nat) : FileKind :=
  if fileType mode = S_IFDIR then .directory
  else if fileType mode = S_IFLNK then .symlink
  else .regularFile

/-- `fuse3::FileAttr`; times in seconds. -/
structure FuseAttr where
  ino : Nat
  size : Nat
  blocks : Nat
  atime : Nat
  mtime : Nat
  ctime : Nat
  kind : FileKind
  perm : Nat
  nlink : Nat
  uid : Nat
  gid : Nat
  rdev : Nat
  blksize : Nat
  deriving DecidableEq, Repr

def toFuse3Attr (attr : FileAttr) : FuseAttr :=
  { ino := attr.inode, size := attr.size, blocks := 0, atime := attr.atime, mtime := attr.mtime,
    ctime := attr.ctime, kind := .ofMode attr.mode, perm := attr.mode &&& 0o7777, nlink := attr.nlink,
    uid := attr.uid, gid := attr.gid, rdev := 0, blksize := 512 }

/-- `TTL`. -/
def TTL : Nat := 0

structure ReplyEntry where
  ttl : Nat
  attr : FuseAttr
  generation : Nat
  deriving DecidableEq, Repr

def replyEntry (attr : FileAttr) : ReplyEntry := ⟨TTL, toFuse3Attr attr, 0⟩

structure ReplyCreated where
  ttl : Nat
  attr : FuseAttr
  generation : Nat
  fh : Nat
  flags : Nat
  deriving DecidableEq, Repr

structure DirectoryEntryPlus where
  inode : Nat
  generation : Nat
  kind : FileKind
  name : Name
  offset : Nat
  attr : FuseAttr
  entryTtl : Nat
  attrTtl : Nat
  deriving DecidableEq, Repr

/-- The entry at position `i` of a listing.  Its cookie is the position after it. -/
def directoryEntryPlus (entry : DirEntry) (i : Nat) : DirectoryEntryPlus :=
  let kind := FileKind.ofMode entry.kind
  { inode := entry.inode, generation := 0, kind, name := entry.name, offset := i + 1,
    attr := { ino := entry.inode, size := 0, blocks := 0, atime := 0, mtime := 0, ctime := 0, kind, perm := 0o755,
              nlink := 1, uid := 0, gid := 0, rdev := 0, blksize := 512 },
    entryTtl := TTL, attrTtl := TTL }

/-- The entries of a listing from position `offset` on. -/
def pageFrom (entries : List DirEntry) (offset : Nat) : List DirectoryEntryPlus :=
  (entries.zipIdx.drop offset).map fun e => directoryEntryPlus e.1 e.2

/-- `OsStr::to_string_lossy`. -/
def toStringLossy (name : List Byte) : Name := Utf8.lossy name

namespace FuseClient

def lookup (parent : Inode) (name : List Byte) : VfsOp ReplyEntry := do
  let attr : FileAttr ← VfsCall.op (.lookup parent (toStringLossy name))
  return replyEntry attr

def mkdir (parent : Inode) (name : List Byte) (mode umask uid gid : Nat) : VfsOp ReplyEntry := do
  -- `mode & !umask & 0o7777` on a `u32`
  let effectiveMode := mode &&& (0xffffffff ^^^ umask) &&& 0o7777
  let attr : FileAttr ← VfsCall.op (.mkdir parent (toStringLossy name) effectiveMode uid gid)
  return replyEntry attr

def create (parent : Inode) (name : List Byte) (mode flags uid gid : Nat) : VfsOp ReplyCreated := do
  let effectiveMode := mode &&& 0o7777
  let r : FileAttr × Nat ← VfsCall.op (.createAndOpen parent (toStringLossy name) effectiveMode uid gid flags)
  return ⟨TTL, toFuse3Attr r.1, 0, r.2, 0⟩

/-- `EOPNOTSUPP` is the errno of `NotImplemented`. -/
def mknod (parent : Inode) (name : List Byte) (mode uid gid : Nat) : VfsOp ReplyEntry := do
  if fileType mode ≠ S_IFREG ∧ fileType mode ≠ 0 then throw .notImplemented
  let effectiveMode := mode &&& 0o7777
  let attr : FileAttr ← VfsCall.op (.create parent (toStringLossy name) effectiveMode uid gid)
  return replyEntry attr

def unlink (parent : Inode) (name : List Byte) : VfsOp Unit := VfsCall.op (.unlink parent (toStringLossy name))

def rmdir (parent : Inode) (name : List Byte) : VfsOp Unit := VfsCall.op (.rmdir parent (toStringLossy name))

def rename (parent : Inode) (name : List Byte) (newParent : Inode) (newName : List Byte) : VfsOp Unit :=
  VfsCall.op (.rename parent (toStringLossy name) newParent (toStringLossy newName))

def link (inode newParent : Inode) (newName : List Byte) : VfsOp ReplyEntry := do
  let attr : FileAttr ← VfsCall.op (.link newParent (toStringLossy newName) inode)
  return replyEntry attr

def symlink (parent : Inode) (name target : List Byte) (uid gid : Nat) : VfsOp ReplyEntry := do
  let attr : FileAttr ← VfsCall.op (.symlink parent (toStringLossy name) (toStringLossy target) uid gid)
  return replyEntry attr

/-- The listing is made anew by every call; `offset` entries of it are skipped. -/
def readdirplus (parent : Inode) (offset : Nat) : VfsOp (List DirectoryEntryPlus) := do
  let entries : List DirEntry ← VfsCall.op (.readdir parent)
  return pageFrom entries offset

end FuseClient

/-- Run a callback; its error becomes an errno. -/
def VfsState.fuse {δ α : Type} (S : VfsSetup δ) (x : VfsOp α) (v : VfsState δ) : Except Errno α × VfsState δ :=
  ((v.run S x).1.mapError fsErrorToErrno, (v.run S x).2)

/-! ## Listings -/

/-- What `readdir` answers. -/
def Server.listing (s : Server) (d : Inode) : FsResult (List DirEntry) :=
  (s.load d).1.bind fun iv => if isDir iv.mode then .ok (s.db.listDir d) else .error .notADirectory

/-- A directory is listed as it is stored. -/
theorem Server.listing_ok {s : Server} {d : Inode} {l : List DirEntry} (h : s.listing d = .ok l) :
    l = s.db.listDir d := by
  unfold listing at h
  cases hl : (s.load d).1 with
  | error e =>
      rw [hl] at h
      cases h
  | ok iv =>
      rw [hl] at h
      simp only [Except.bind] at h
      split at h <;> cases h
      rfl

section

variable {δ : Type} (S : VfsSetup δ) (v : VfsState δ) (d : Inode) (offset : Nat)

theorem serve_readdir :
    v.server.serve S.cfg (.readdir d) = ((v.server.listing d : FsResult (List DirEntry)), (v.server.load d).2) :=
  congrArg (fun r : FsResult (List DirEntry) × Txn × Server => (r.1, r.2.2)) (exec_readdir S.cfg v.server d)

theorem run_readdirplus :
    v.run S (FuseClient.readdirplus d offset) =
      ((v.server.listing d).map (pageFrom · offset), { v with server := (v.server.load d).2 }) := by
  have hserve := serve_readdir S v d
  cases hl : v.server.listing d with
  | error e =>
      rw [hl] at hserve
      exact VfsState.run_metadata_error S v _ hserve
  | ok l =>
      rw [hl] at hserve
      exact VfsState.run_metadata_ok S v _ hserve

end

end RucksFs
