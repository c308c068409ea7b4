import RucksFs.Lib.Interleave
import RucksFs.Server.Exec

/-!
# Interleaved calls

Any number of calls run at once.  Between two effects of one call any effects of others may come.
What keeps them apart is RocksDB's pessimistic locking: `get_for_update` and every write of a
transaction take the row's lock, which is exclusive and held until the transaction commits or is
dropped; `handle` records it in the transaction.

* `blocked` — the next effect needs a row that another transaction has locked.
* `Acts` — one effect, done as `handle` says or failed; a failed lock, read or commit changes
  nothing, and a failed commit drops its transaction.
* `fsSystem` — the interleavings of all calls over one server.
-/

set_option autoImplicit false

namespace RucksFs

/-- The state of one running call: its transaction and, as history, the inodes it has seen not to
be directories. -/
structure Local where
  tx : Txn := {}
  files : List Inode := []

abbrev FsThread := Thread Call Eff Eff.Res Reply Local

abbrev FsConf := Conf Server Call Eff Eff.Res Reply Local

/-- The row whose lock an effect takes. -/
def Eff.needs : Eff → Option Row
  | .getForUpdateDirEntry p n => some (.dirEntry p n)
  | .getForUpdateInode i => some (.inode i)
  | .push op => some op.row
  | _ => none

/-- Another running transaction holds the lock. -/
def blocked (os : List FsThread) (e : Eff) : Bool :=
  match e.needs with
  | some row => os.any fun th => decide (row ∈ th.loc.tx.locks)
  | none => false

/-- The answer of a storage call that fails with `x`. -/
def Eff.failure : (e : Eff) → FsError → Option e.Res
  | .getForUpdateDirEntry _ _, x => some (.error x)
  | .getForUpdateInode _, x => some (.error x)
  | .isDirEmpty _, x => some (.error x)
  | .commit, x => some (.error x)
  | .putNextInode _, x => some (.error x)
  | .clearDeltas _, x => some (.error x)
  | .scanDeltas _, x => some (.error x)
  | .scanDeltasWithKeys _, x => some (.error x)
  | .getInode _, x => some (.error x)
  | .getDataLocation _, x => some (.error x)
  | .getSymlink _, x => some (.error x)
  | .resolvePath _ _, x => some (.error x)
  | .listDir _, x => some (.error x)
  | _, _ => none

/-- What a call learns about inodes that are not directories: a record it locked, and an inode
whose deferred deletion is due. -/
def Eff.remember (s : Server) (files : List Inode) : Eff → List Inode
  | .getForUpdateInode i =>
      match s.db.inode i with
      | some iv => if isDir iv.mode then files else i :: files
      | none => files
  | .checkAndClearDeferredDelete i => if (s.checkAndClearDeferredDelete i).1 then i :: files else files
  | _ => files

namespace Local

def after (cfg : Config) (l : Local) (s : Server) (e : Eff) : Local :=
  ⟨(handle cfg e (l.tx, s)).2.1, e.remember s l.files⟩

/-- A failed commit has consumed the transaction. -/
def afterFailure (l : Local) : Eff → Local
  | .commit => { l with tx := {} }
  | _ => l

end Local

inductive Acts (cfg : Config) (os : List FsThread) :
    (e : Eff) → Local → Server → e.Res → Local → Server → Prop where
  | done {e : Eff} {l : Local} {s : Server} (h : blocked os e = false) :
      Acts cfg os e l s (handle cfg e (l.tx, s)).1 (l.after cfg s e) (handle cfg e (l.tx, s)).2.2
  | failed {e : Eff} {l : Local} {s : Server} {x : FsError} {r : e.Res} (h : e.failure x = some r) :
      Acts cfg os e l s r (l.afterFailure e) s

/-- All interleavings of calls that `admits` lets start. -/
def fsSystem (cfg : Config) (admits : Server → Call → Prop) :
    System Server Call Eff Eff.Res Reply Local where
  body := Call.body cfg
  loc₀ := {}
  admits := admits
  act := Acts cfg

/-- The failure-free resolution of `Acts`. -/
def fsNext (cfg : Config) (os : List FsThread) (e : Eff) (l : Local) (s : Server) :
    Option (e.Res × Local × Server) :=
  if blocked os e then none
  else some ((handle cfg e (l.tx, s)).1, l.after cfg s e, (handle cfg e (l.tx, s)).2.2)

theorem acts_of_fsNext (cfg : Config) (os : List FsThread) (e : Eff) (l : Local) (s : Server)
    (r : e.Res) (l' : Local) (s' : Server) (h : fsNext cfg os e l s = some (r, l', s')) :
    Acts cfg os e l s r l' s' := by
  unfold fsNext at h
  split at h
  · cases h
  · rename_i hb
    cases h
    exact .done (by simpa using hb)

/-- A rename's source and destination, as far as they have been read, are different inodes. -/
def Call.DistinctRead : Call → Txn → Prop
  | .rename p n np nn, tx =>
      ∀ v d, (p, n, some v) ∈ tx.dirReads → (np, nn, some d) ∈ tx.dirReads → d.inode ≠ v.inode
  | _, _ => True

instance (c : Call) (tx : Txn) : Decidable (c.DistinctRead tx) :=
  match c with
  | .rename p n np nn =>
      decidable_of_iff (∀ a ∈ tx.dirReads, ∀ b ∈ tx.dirReads, (a.1, a.2.1) = (p, n) →
        (b.1, b.2.1) = (np, nn) → ∀ v ∈ a.2.2, ∀ d ∈ b.2.2, d.inode ≠ v.inode) <| by
          constructor
          · intro h v d hv hd
            exact h _ hv _ hd rfl rfl v rfl d rfl
          · rintro h ⟨q, m, o⟩ ha ⟨q', m', o'⟩ hb e e' v hv d hd
            cases e
            cases e'
            cases hv
            cases hd
            exact h v d ha hb
  | .lookup .. | .getattr .. | .setattr .. | .readdir .. | .create .. | .createAndOpen .. | .mkdir ..
  | .unlink .. | .rmdir .. | .openFile .. | .reportWrite .. | .link .. | .symlink .. | .readlink ..
  | .release .. | .forceCompactInode .. => .isTrue trivial

section

variable (cfg : Config) (admits : Server → Call → Prop) (Hyp : FsConf → Prop)
  [∀ s c, Decidable (admits s c)] [DecidablePred Hyp]

/-- The scheduler that resolves the choices of `fsSystem` without failures. -/
def fsScheduler : Scheduler Server Call Eff Eff.Res Reply Local where
  sys := fsSystem cfg admits
  starts s c := decide (admits s c)
  next := fsNext cfg
  check c := decide (Hyp c)

theorem fsScheduler_reach {c₀ c : FsConf} (xs : List (Choice Call)) (h₀ : Hyp c₀)
    (h : (fsScheduler cfg admits Hyp).run xs c₀ = some c) : Reach (fsSystem cfg admits) Hyp c₀ c :=
  Scheduler.reach (S := fsScheduler cfg admits Hyp)
    (fun s call hs => of_decide_eq_true (p := admits s call) hs) (acts_of_fsNext cfg)
    (fun c hc => of_decide_eq_true (p := Hyp c) hc) xs (.init h₀) h

end

end RucksFs
