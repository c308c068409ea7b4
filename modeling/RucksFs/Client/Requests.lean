import RucksFs.Server.Spec

/-!
# The trait `MetadataOps` (`core/src/lib.rs`)

What a client can ask of a metadata server, as data.  `MetadataServer` answers every request by the
operation of that name (`Server.serve`); the RPC layer carries the same requests over the network.
-/

set_option autoImplicit false

namespace RucksFs

/-- `StatFs`. -/
structure StatFs where
  blocks : Nat
  bfree : Nat
  bavail : Nat
  files : Nat
  ffree : Nat
  bsize : Nat
  namelen : Nat
  deriving DecidableEq, Repr

inductive MetadataOp where
  | lookup (parent : Inode) (name : Name)
  | getattr (inode : Inode)
  | readdir (inode : Inode)
  | create (parent : Inode) (name : Name) (mode uid gid : Nat)
  | mkdir (parent : Inode) (name : Name) (mode uid gid : Nat)
  | unlink (parent : Inode) (name : Name)
  | rmdir (parent : Inode) (name : Name)
  | rename (parent : Inode) (name : Name) (newParent : Inode) (newName : Name)
  | setattr (inode : Inode) (req : SetAttrRequest)
  | statfs (inode : Inode)
  | openFile (inode : Inode) (flags : Nat)
  | reportWrite (inode : Inode) (newSize mtime : Nat)
  | link (parent : Inode) (name : Name) (target : Inode)
  | symlink (parent : Inode) (name : Name) (linkTarget : List Byte) (uid gid : Nat)
  | readlink (inode : Inode)
  | release (inode : Inode)
  | createAndOpen (parent : Inode) (name : Name) (mode uid gid flags : Nat)
  deriving DecidableEq

namespace MetadataOp

/-- The type of a successful answer. -/
def Out : MetadataOp → Type
  | .lookup .. | .getattr .. | .create .. | .mkdir .. | .link .. | .symlink .. => FileAttr
  | .readdir .. => List DirEntry
  | .unlink .. | .rename .. | .release .. => List Inode
  | .rmdir .. | .reportWrite .. => Unit
  | .setattr .. => SetAttrResponse
  | .statfs .. => StatFs
  | .openFile .. => OpenResponse
  | .readlink .. => List Byte
  | .createAndOpen .. => CreateAndOpenResponse

/-- `MetadataServer::statfs`: fixed figures. -/
def serverStatFs : StatFs :=
  { blocks := 1000000, bfree := 500000, bavail := 500000, files := 1000000, ffree := 999000, bsize := 4096,
    namelen := 255 }

/-- The server's operation. -/
def op (cfg : Config) : (m : MetadataOp) → Op m.Out
  | .lookup p n => RucksFs.lookup p n
  | .getattr i => RucksFs.getattr i
  | .readdir i => RucksFs.readdir i
  | .create p n m u g => RucksFs.create cfg p n m u g
  | .mkdir p n m u g => RucksFs.mkdir cfg p n m u g
  | .unlink p n => RucksFs.unlink cfg p n
  | .rmdir p n => RucksFs.rmdir cfg p n
  | .rename p n p' n' => RucksFs.rename cfg p n p' n'
  | .setattr i req => RucksFs.setattr i req
  | .statfs _ => (pure serverStatFs : Op StatFs)
  | .openFile i f => RucksFs.openFile cfg i f
  | .reportWrite i sz t => RucksFs.reportWrite i sz t
  | .link p n t => RucksFs.link cfg p n t
  | .symlink p n t u g => RucksFs.symlink cfg p n t u g
  | .readlink i => RucksFs.readlink i
  | .release i => RucksFs.release i
  | .createAndOpen p n m u g f => RucksFs.createAndOpen cfg p n m u g f

/-- The call it makes on the server; `statfs` makes none. -/
def call : MetadataOp → Option Call
  | .lookup p n => some (.lookup p n)
  | .getattr i => some (.getattr i)
  | .readdir i => some (.readdir i)
  | .create p n m u g => some (.create p n m u g)
  | .mkdir p n m u g => some (.mkdir p n m u g)
  | .unlink p n => some (.unlink p n)
  | .rmdir p n => some (.rmdir p n)
  | .rename p n p' n' => some (.rename p n p' n')
  | .setattr i req => some (.setattr i req)
  | .statfs _ => none
  | .openFile i f => some (.openFile i f)
  | .reportWrite i sz t => some (.reportWrite i sz t)
  | .link p n t => some (.link p n t)
  | .symlink p n t u g => some (.symlink p n t u g)
  | .readlink i => some (.readlink i)
  | .release i => some (.release i)
  | .createAndOpen p n m u g f => some (.createAndOpen p n m u g f)

end MetadataOp

/-- Answer one request. -/
def Server.serve (cfg : Config) (m : MetadataOp) (s : Server) : FsResult m.Out × Server :=
  let r := Op.exec cfg (m.op cfg) ({}, s)
  (r.1, r.2.2)

/-- Serving a request is running its call. -/
theorem Server.serve_snd (cfg : Config) (m : MetadataOp) (s : Server) :
    (s.serve cfg m).2 =
      match m.call with
      | some c => (s.exec cfg c).2
      | none => s := by
  have hrun : ∀ {α : Type} {x : Op α} {c : Call} {f : FsResult α → Reply},
      c.body cfg = (do return f (← x.run)) → (Op.exec cfg x ({}, s)).2.2 = (s.exec cfg c).2 := by
    intro α x c f hc
    unfold Server.exec Op.exec
    rw [hc, Prog.run_bind]
    rfl
  cases m with
  | statfs i => rfl
  | _ => exact hrun rfl

end RucksFs
