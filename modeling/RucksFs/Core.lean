import RucksFs.Lib.Bytes

/-!
# Core types of the metadata server

Types of `core/src/lib.rs` and `storage/src/encoding.rs` that the metadata operations use, and
the mode-bit tests of `server/src/lib.rs`.

* Inode numbers, sizes, times and mode words are natural numbers.  The 64-bit inode counter
  is not exhausted (`docs/design.md`: "64-bit counter space is effectively unlimited"); the
  32-bit link count and handle count wrap where the code can reach the wrap.
* A `&str` name is its list of UTF-8 bytes, which is what the directory key holds and what
  `validate_name` measures.
-/

set_option autoImplicit false

namespace RucksFs

abbrev Inode := Nat

abbrev Byte := Fin 256

abbrev Name := List Byte

/-- `FsError`. -/
inductive FsError where
  | notImplemented
  | notFound
  | alreadyExists
  | notADirectory
  | isADirectory
  | directoryNotEmpty
  | nameTooLong
  | io (msg : String)
  | invalidInput (msg : String)
  | permissionDenied
  | transactionConflict
  | other (msg : String)
  deriving DecidableEq, Repr

abbrev FsResult (α : Type) := Except FsError α

/-- The error of an answer. -/
def errorOf {ε α : Type} : Except ε α → Option ε
  | .ok _ => none
  | .error e => some e

theorem eq_error_of_errorOf {ε α : Type} {r : Except ε α} {e : ε} (h : errorOf r = some e) : r = .error e := by
  cases r with
  | ok a => cases h
  | error e' => exact congrArg _ (Option.some.inj h)

/-- `FileAttr`. -/
structure FileAttr where
  inode : Inode
  size : Nat
  mode : Nat
  nlink : Nat
  uid : Nat
  gid : Nat
  atime : Nat
  mtime : Nat
  ctime : Nat
  deriving DecidableEq, Repr

/-- `InodeValue`, the record stored under an inode key. -/
structure InodeValue where
  version : Nat
  inode : Inode
  size : Nat
  mode : Nat
  nlink : Nat
  uid : Nat
  gid : Nat
  atime : Nat
  mtime : Nat
  ctime : Nat
  deriving DecidableEq, Repr

def InodeValue.toAttr (v : InodeValue) : FileAttr :=
  ⟨v.inode, v.size, v.mode, v.nlink, v.uid, v.gid, v.atime, v.mtime, v.ctime⟩

/-- Value of a directory entry: `[inode: u64][mode: u32]`. -/
structure DirValue where
  inode : Inode
  mode : Nat
  deriving DecidableEq, Repr

/-- `DirEntry`, one line of a listing. -/
structure DirEntry where
  name : Name
  inode : Inode
  kind : Nat
  deriving DecidableEq, Repr

/-- `SetAttrRequest`. -/
structure SetAttrRequest where
  mode : Option Nat := none
  uid : Option Nat := none
  gid : Option Nat := none
  size : Option Nat := none
  atime : Option Nat := none
  mtime : Option Nat := none
  deriving DecidableEq, Repr

/-- `DataLocation`. -/
structure DataLocation where
  serverId : String
  deriving DecidableEq, Repr

structure OpenResponse where
  handle : Inode
  dataLocation : DataLocation
  deriving DecidableEq, Repr

structure SetAttrResponse where
  attr : FileAttr
  needsTruncate : Option Nat
  deriving DecidableEq, Repr

structure CreateAndOpenResponse where
  attr : FileAttr
  handle : Inode
  dataLocation : DataLocation
  deriving DecidableEq, Repr

/-- `ROOT_INODE`. -/
def ROOT_INODE : Inode := 1

/-- `FIRST_ALLOC_INODE`: 0 and 1 are reserved. -/
def FIRST_ALLOC_INODE : Nat := 2

def PERSIST_INTERVAL : Nat := 64

def NAME_MAX : Nat := 255

/-- Attempts of `execute_with_retry`. -/
def TXN_MAX_RETRIES : Nat := 3

/-- Values of a `u32`. -/
def U32_SIZE : Nat := 2 ^ 32

/-! ## Mode bits -/

def S_IFDIR : Nat := 0o040000
def S_IFREG : Nat := 0o100000
def S_IFLNK : Nat := 0o120000

def O_TRUNC : Nat := 0o1000

/-- `is_dir`: one bit is tested, not the whole type field. -/
def isDir (mode : Nat) : Bool := mode &&& S_IFDIR != 0

def isSymlink (mode : Nat) : Bool := (mode &&& 0o170000) == S_IFLNK

/-- The file-type field of a mode word. -/
def fileType (mode : Nat) : Nat := mode &&& 0o170000

/-- A mode word made of a type and permission bits has that type. -/
theorem fileType_perm {t : Nat} (m : Nat) (ht : t &&& 0o170000 = t) :
    fileType (t ||| (m &&& 0o7777)) = t := by
  unfold fileType
  rw [Nat.and_or_distrib_right, ht, Nat.and_assoc]
  simp

theorem isDir_eq_fileType (mode : Nat) : isDir mode = (fileType mode &&& S_IFDIR != 0) := by
  unfold isDir fileType
  rw [Nat.and_assoc, show 0o170000 &&& S_IFDIR = S_IFDIR by decide]

/-- The directory test sees only the type field. -/
theorem isDir_of_fileType_eq {a b : Nat} (h : fileType a = fileType b) : isDir a = isDir b := by
  rw [isDir_eq_fileType, isDir_eq_fileType, h]

/-- `setattr` replaces the permission bits and keeps the type field. -/
theorem fileType_chmod (old new : Nat) :
    fileType ((old &&& 0o170000) ||| (new &&& 0o7777)) = fileType old := by
  apply fileType_perm
  rw [Nat.and_assoc, Nat.and_self]

@[simp] theorem fileType_reg (m : Nat) : fileType (S_IFREG ||| (m &&& 0o7777)) = S_IFREG :=
  fileType_perm m (by decide)

@[simp] theorem fileType_dir (m : Nat) : fileType (S_IFDIR ||| (m &&& 0o7777)) = S_IFDIR :=
  fileType_perm m (by decide)

@[simp] theorem isDir_reg (m : Nat) : isDir (S_IFREG ||| (m &&& 0o7777)) = false := by
  rw [isDir_eq_fileType, fileType_reg]
  decide

@[simp] theorem isDir_dir (m : Nat) : isDir (S_IFDIR ||| (m &&& 0o7777)) = true := by
  rw [isDir_eq_fileType, fileType_dir]
  decide

@[simp] theorem isDir_lnk : isDir (S_IFLNK ||| 0o777) = false := by decide

end RucksFs
