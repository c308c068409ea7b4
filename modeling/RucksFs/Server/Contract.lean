import RucksFs.Server.Concurrent
import RucksFs.Server.Effect

/-!
# What each call does between its row locks

Every call is verified on its own against a contract for the effects it performs.  The contract
hides the other calls: an answer is computed from some committed state in which all that the
transaction has read under lock still holds.

* `Txn.Valid` — the rows read, and the numbers allocated, as they are at any time until the commit.
* `Writes` — the batches with which the calls commit, one constructor for each kind.
* `LockStep` — the rows each call asks for next to those it has locked.
* `contract` — the obligations: locks are taken in that order, a commit writes what the rows read call for, a delta is taken for a
  parent, at most one of them takes a link away and only for a locked directory entry.
* `Call.meets_contract` — every call meets them, whatever the others do.
-/

set_option autoImplicit false

namespace RucksFs

open Server Prog

/-- What the history of a transaction says about the committed state. -/
structure Txn.Valid (tx : Txn) (db : Db) (next : Nat) : Prop where
  entry : ∀ {p n o}, (p, n, o) ∈ tx.dirReads → db.entry p n = o
  inode : ∀ {i o}, (i, o) ∈ tx.inodeReads → db.inode i = o
  fresh : ∀ {i}, i ∈ tx.allocated →
    db.inode i = none ∧ (∀ p n v, db.entry p n = some v → v.inode ≠ i) ∧ i < next

/-- The directory a call puts an entry into. -/
def Call.adds : Call → Option Inode
  | .create p _ _ _ _ | .createAndOpen p _ _ _ _ _ | .mkdir p _ _ _ _ | .symlink p _ _ _ _
  | .link p _ _ => some p
  | .rename _ _ np _ => some np
  | _ => none

/-- The entry a creation puts. -/
def Call.creates : Call → Option (Inode × Name)
  | .create p n _ _ _ | .createAndOpen p n _ _ _ _ | .mkdir p n _ _ _ | .symlink p n _ _ _
  | .link p n _ => some (p, n)
  | _ => none

def Call.isLink : Call → Bool
  | .link _ _ _ => true
  | _ => false

theorem Call.parents_of_creates {c : Call} {p : Inode} {n : Name} (h : c.creates = some (p, n)) :
    c.parents = [p] ∧ c.adds = some p := by
  cases c <;> cases h <;> exact ⟨rfl, rfl⟩

theorem Call.creates_of_parents {c : Call} (h : c.parents = []) : c.creates = none := by
  cases c <;> first | rfl | cases h

/-- The inode whose record a call replaces and does nothing else. -/
def Call.rewritten : Call → Option Inode
  | .setattr i _ | .openFile i _ | .reportWrite i _ _ => some i
  | _ => none

theorem Call.parents_of_rewritten {c : Call} {i : Inode} (h : c.rewritten = some i) : c.parents = [] := by
  cases c <;> first | rfl | cases h

/-- Calls that take a name or a last handle away, and with it possibly an inode. -/
def Call.removes : Call → Bool
  | .unlink _ _ | .rmdir _ _ | .rename _ _ _ _ | .release _ => true
  | _ => false

/-- What a call knows of an inode it does not forget. -/
theorem Eff.mem_remember {e : Eff} {s : Server} {fs : List Inode} {i : Inode} (h : i ∈ fs) :
    i ∈ e.remember s fs := by
  unfold Eff.remember
  split
  · split
    · split
      · exact h
      · exact List.mem_cons_of_mem _ h
    · exact h
  · split
    · exact List.mem_cons_of_mem _ h
    · exact h
  · exact h

/-! ## Commits -/

/-- The batch with which call `c` commits, without its parent deltas, and those deltas. -/
inductive Writes (db : Db) (l : Local) : Call → List BatchOp → List (Inode × List DeltaOp) → Prop where
  | create {c : Call} {p : Inode} {n : Name} {i : Inode} {iv : InodeValue} {extra : List BatchOp}
      {ds : List DeltaOp} {ts : Nat} (hc : c.creates = some (p, n))
      (hnl : c.isLink = false) (he : db.entry p n = none) (hi : i ∈ l.tx.allocated) (hx : ∀ op ∈ extra, op.IsPayload)
      (hkind : isDir iv.mode = false ∧ iv.nlink = 1 ∧ ds = touchDeltas ts ∨
        isDir iv.mode = true ∧ iv.nlink = 2 ∧ ds = .incrementNlink 1 :: touchDeltas ts)
      (hr : l.tx.dirReads = [(p, n, none)]) :
      Writes db l c (.putInode i iv :: .putDirEntry p n ⟨i, iv.mode⟩ :: extra) [(p, ds)]
  | link {p : Inode} {n : Name} {t : Inode} {iv : InodeValue} {ts ts' : Nat}
      (hi : db.inode t = some iv) (hd : isDir iv.mode = false) (he : db.entry p n = none)
      (hp : db.IsDirectory p) (hlock : .inode p ∈ l.tx.locks) (hr : l.tx.dirReads = [(p, n, none)]) :
      Writes db l (.link p n t)
        [.putInode t { iv with nlink := (iv.nlink + 1) % U32_SIZE, ctime := ts },
          .putDirEntry p n ⟨t, iv.mode⟩] [(p, touchDeltas ts')]
  | unlinkKeep {p : Inode} {n : Name} {v : DirValue} {iv : InodeValue} {ts ts' : Nat}
      (he : db.entry p n = some v) (hd : isDir v.mode = false) (hi : db.inode v.inode = some iv)
      (hr : l.tx.dirReads = [(p, n, some v)]) :
      Writes db l (.unlink p n)
        [.deleteDirEntry p n, .putInode v.inode { iv with nlink := iv.nlink - 1, ctime := ts }]
        [(p, touchDeltas ts')]
  | unlinkDrop {p : Inode} {n : Name} {v : DirValue} {iv : InodeValue} {ts : Nat}
      (he : db.entry p n = some v) (hd : isDir v.mode = false) (hi : db.inode v.inode = some iv)
      (hz : iv.nlink - 1 = 0) (hr : l.tx.dirReads = [(p, n, some v)]) :
      Writes db l (.unlink p n)
        [.deleteDirEntry p n, .deleteInode v.inode, .deleteDataLocation v.inode] [(p, touchDeltas ts)]
  | rmdir {p : Inode} {n : Name} {v : DirValue} {iv : InodeValue} {ts : Nat}
      (he : db.entry p n = some v) (hd : isDir v.mode = true) (hi : db.inode v.inode = some iv)
      (hemp : v.inode ∈ l.tx.emptyChecks) (hne : v.inode ≠ p) (hr : l.tx.dirReads = [(p, n, some v)]) :
      Writes db l (.rmdir p n) [.deleteDirEntry p n, .deleteInode v.inode]
        [(p, .incrementNlink (-1) :: touchDeltas ts)]
  | rename {p : Inode} {n : Name} {np : Inode} {nn : Name} {v : DirValue} {srcIv : InodeValue}
      {vic : Victim} {ts : Nat} (he : db.entry p n = some v) (hi : db.inode v.inode = some srcIv)
      (hv : VictimOf db (isDir srcIv.mode) ts (db.entry np nn) vic)
      (hemp : ∀ d, db.entry np nn = some d → vic.wasDir = true →
        d.inode ∈ l.tx.emptyChecks ∧ d.inode ≠ p ∧ d.inode ≠ np)
      (hr : l.tx.dirReads = [(np, nn, db.entry np nn), (p, n, some v)]) :
      Writes db l (.rename p n np nn) (renameOps p n np nn v.inode srcIv (db.entry np nn) vic ts)
        (renameDeltas p np (isDir srcIv.mode) vic.wasDir ts)
  | rewrite {c : Call} {i : Inode} {iv iv' : InodeValue} (hc : c.rewritten = some i)
      (hi : db.inode i = some iv) (ht : fileType iv'.mode = fileType iv.mode) (hl : iv'.nlink = iv.nlink)
      (hr : l.tx.dirReads = []) : Writes db l c [.putInode i iv'] []
  | drop {i : Inode} (hf : i ∈ l.files) (hr : l.tx.dirReads = []) :
      Writes db l (.release i) [.deleteInode i, .deleteDataLocation i] []
  | compact {i : Inode} {base : InodeValue} {ks : List (Nat × DeltaOp)}
      (hi : db.inode i = some base) (hs : l.tx.scanned = some (i, ks)) (hk : ks ≠ [])
      (hr : l.tx.dirReads = []) :
      Writes db l (.forceCompactInode i) (.putInode i (foldDeltas base (ks.map (·.2))) ::
        ks.map fun k => .deleteDelta i k.1) []

/-- Records of the directories `ps` are rewritten, as `no_delta` does instead of deltas. -/
def RecordWrites (ps : List Inode) : Db → List BatchOp → Prop
  | _, [] => True
  | db, .putInode p v :: ops =>
      p ∈ ps ∧ (∃ iv, db.inode p = some iv ∧ v.mode = iv.mode) ∧
        RecordWrites ps (db.applyOp (.putInode p v)) ops
  | _, _ :: _ => False

/-- Deltas one by one, each with its inode. -/
def flatDeltas (dss : List (Inode × List DeltaOp)) : List (Inode × DeltaOp) :=
  dss.flatMap fun d => d.2.map (Prod.mk d.1)

/-- The part of a batch that `batch_parent_deltas` has written for `dss`: in the delta build one
delta under each number taken. -/
def ParentPart (cfg : Config) (seqs : List (Inode × Nat × DeltaOp)) (db : Db)
    (dss : List (Inode × List DeltaOp)) (ops : List BatchOp) : Prop :=
  match cfg.build with
  | .delta =>
      ops = seqs.map (fun x => .putDelta x.1 x.2.1 x.2.2) ∧
        seqs.map (fun x => (x.1, x.2.2)) = flatDeltas dss
  | .noDelta => seqs = [] ∧ RecordWrites (dss.map Prod.fst) db ops

/-- The batch of `l` is what call `c` writes in state `db`. -/
def Committing (cfg : Config) (c : Call) (l : Local) (db : Db) : Prop :=
  ∃ main dss rest, l.tx.batch = main ++ rest ∧ Writes db l c main dss ∧
    ParentPart cfg l.tx.seqs (db.applyBatch main) dss rest

/-! ## Row locks -/

/-- Directory entries and inode records: the rows that more than one call may want. -/
def Row.isKey : Row → Bool
  | .inode _ | .dirEntry _ _ => true
  | _ => false

theorem BatchOp.not_isKey_of_isPayload {op : BatchOp} (h : op.IsPayload) : op.row.isKey = false := by
  cases op <;> first | rfl | cases h

/-- An inode that `rename` locks: a parent, or what one of the entries names that it has read. -/
def Local.RenameInode (l : Local) (p np j : Inode) : Prop :=
  j = p ∨ j = np ∨ ∃ q m v, (q, m, some v) ∈ l.tx.dirReads ∧ v.inode = j

instance (l : Local) (p np j : Inode) : Decidable (l.RenameInode p np j) :=
  decidable_of_iff (j = p ∨ j = np ∨ ∃ r ∈ l.tx.dirReads, ∃ v ∈ r.2.2, v.inode = j) <|
    or_congr_right <| or_congr_right <| by
      constructor
      · rintro ⟨⟨q, m, o⟩, hr, v, hv, e⟩
        cases hv
        exact ⟨q, m, v, hr, e⟩
      · rintro ⟨q, m, v, hr, e⟩
        exact ⟨(q, m, some v), hr, v, rfl, e⟩

/-- The rows a call asks for in the default build, next to those it has locked. -/
inductive LockStep (l : Local) : Call → Row → Prop where
  | side {c : Call} {row : Row} (h : row.isKey = false) : LockStep l c row
  | held {c : Call} {row : Row} (h : row ∈ l.tx.locks) : LockStep l c row
  | first {c : Call} {row : Row} (hc : c.creates = none) (h : l.tx.locks = []) : LockStep l c row
  | firstEntry {c : Call} {p : Inode} {n : Name} (hc : c.creates = some (p, n)) (hnl : c.isLink = false)
      (h : l.tx.locks = []) : LockStep l c (.dirEntry p n)
  | fresh {c : Call} {p : Inode} {n : Name} {i : Inode} (hc : c.creates = some (p, n))
      (hnl : c.isLink = false) (h : l.tx.locks = [.dirEntry p n]) (hi : i ∈ l.tx.allocated) :
      LockStep l c (.inode i)
  | child {c : Call} {p : Inode} {n : Name} {v : DirValue}
      (hc : c = .unlink p n ∧ isDir v.mode = false ∨ c = .rmdir p n ∧ isDir v.mode = true)
      (h : l.tx.locks = [.dirEntry p n]) (hr : (p, n, some v) ∈ l.tx.dirReads) :
      LockStep l c (.inode v.inode)
  | linkTarget {p : Inode} {n : Name} {t : Inode} (h : l.tx.locks = []) :
      LockStep l (.link p n t) (.inode t)
  | linkEntry {p : Inode} {n : Name} {t : Inode} {iv : InodeValue} (h : l.tx.locks = [.inode t])
      (hi : (t, some iv) ∈ l.tx.inodeReads) (hd : isDir iv.mode = false) :
      LockStep l (.link p n t) (.dirEntry p n)
  | linkParent {p : Inode} {n : Name} {t : Inode} {iv : InodeValue}
      (h : l.tx.locks = [.dirEntry p n, .inode t]) (hi : (t, some iv) ∈ l.tx.inodeReads)
      (hd : isDir iv.mode = false) : LockStep l (.link p n t) (.inode p)
  | second {p : Inode} {n : Name} {np : Inode} {nn : Name} (h : l.tx.locks = [.dirEntry p n]) :
      LockStep l (.rename p n np nn) (.dirEntry np nn)
  | ascend {p : Inode} {n : Name} {np : Inode} {nn : Name} {i : Inode}
      (h : ∀ k ∈ l.tx.locks, k = .dirEntry p n ∨ k = .dirEntry np nn ∨
        ∃ j, k = .inode j ∧ j < i ∧ l.RenameInode p np j) :
      LockStep l (.rename p n np nn) (.inode i)

/-! ## The contract -/

/-- A number may be taken for this delta. -/
def NextOk (c : Call) (tx : Txn) (p : Inode) (d : DeltaOp) : Prop :=
  p ∈ c.parents ∧ ∀ k, d = .incrementNlink k → k = 1 ∨ (k = -1 ∧
    (∃ n v, (p, n, some v) ∈ tx.dirReads ∧ isDir v.mode = true) ∧
    ∀ q, (p, q, .incrementNlink (-1)) ∉ tx.seqs)

/-- Answers as the other calls may make them look. -/
inductive Answers (cfg : Config) : (e : Eff) → Local → e.Res → Local → Prop where
  | done {e : Eff} {l : Local} (s : Server) (hv : l.tx.Valid s.db s.next) (hw : s.db.Wf s.next) :
      Answers cfg e l (handle cfg e (l.tx, s)).1 (l.after cfg s e)
  | failed {e : Eff} {l : Local} {x : FsError} {r : e.Res} (h : e.failure x = some r) :
      Answers cfg e l r (l.afterFailure e)

/-- Obligations of call `c`.  With `strict` the renames are between different inodes. -/
def contract (cfg : Config) (strict : Prop) (c : Call) : Contract Eff Eff.Res Local where
  pre e l :=
    match e with
    | .getForUpdateDirEntry p n => cfg.build = .delta → LockStep l c (.dirEntry p n)
    | .getForUpdateInode i => cfg.build = .delta → LockStep l c (.inode i)
    | .push op => cfg.build = .delta → LockStep l c op.row
    | .commit => ∀ db next, l.tx.Valid db next → db.Wf next → Committing cfg c l db
    | .nextSeq p d => NextOk c l.tx p d
    | .clearDeltas i => c.removes = true ∧ (strict → i ∈ l.tx.retired ∨ i ∈ l.files)
    | .pendingInsert i => i ∈ l.files
    | .isDirEmpty d => .inode d ∈ l.tx.locks ∧ l.tx.batch = []
    | .scanDeltasWithKeys i => c = .forceCompactInode i
    | _ => True
  post e l r l' := Answers cfg e l r l' ∧ (strict → c.DistinctRead l'.tx)

/-- Between transactions nothing is locked. -/
def Local.Idle (l : Local) : Prop :=
  l.tx.locks = [] ∧ l.tx.emptyChecks = [] ∧ ∀ i ks, l.tx.scanned = some (i, ks) → ks = []

/-! ## Rules -/

namespace Op

variable {α β : Type} {cfg : Config} {strict : Prop} {c : Call} {E : Local → Prop} {l : Local} {e : Eff}
  {Q : Unit → Local → Prop} {body : Op α}

theorem wp_perform {Q : e.Res → Local → Prop} (hpre : (contract cfg strict c).pre e l)
    (hdone : ∀ s, l.tx.Valid s.db s.next → s.db.Wf s.next →
      (strict → c.DistinctRead (l.after cfg s e).tx) → Q (handle cfg e (l.tx, s)).1 (l.after cfg s e))
    (hfail : ∀ x r, e.failure x = some r → Q r (l.afterFailure e)) : wp (contract cfg strict c) (perform e) Q l := by
  refine ⟨hpre, fun r l' hp => ?_⟩
  obtain ⟨ha, hd⟩ := hp
  cases ha with
  | done s hv hw => exact hdone s hv hw hd
  | failed h => exact hfail _ _ h

theorem wp_eff {Q : e.Res → Local → Prop} (hpre : (contract cfg strict c).pre e l) (hf : ∀ x, e.failure x = none)
    (h : ∀ s, l.tx.Valid s.db s.next → s.db.Wf s.next →
      Q (handle cfg e (l.tx, s)).1 (l.after cfg s e)) : wpE (contract cfg strict c) E (eff e) Q l := by
  unfold eff
  rw [wpE_lift]
  refine wp_perform hpre (fun s hv hw _ => h s hv hw) fun x r hr => ?_
  rw [hf] at hr
  cases hr

/-- Effects on the cache, the tables and the clock. -/
theorem wp_quiet {Q : e.Res → Local → Prop} (hpre : (contract cfg strict c).pre e l) (hf : ∀ x, e.failure x = none)
    (hs : ∀ s, l.after cfg s e = l) (h : ∀ r, Q r l) : wpE (contract cfg strict c) E (eff e) Q l :=
  wp_eff hpre hf fun s _ _ => by rw [hs]; exact h _

theorem wp_push {op : BatchOp} (hlock : cfg.build = .delta → LockStep l c op.row)
    (h : Q () { l with tx := { l.tx with batch := l.tx.batch ++ [op], locks := op.row :: l.tx.locks } }) :
    wpE (contract cfg strict c) E (push op) Q l :=
  wp_eff hlock (fun _ => rfl) fun _ _ _ => h

theorem wp_alloc {Q : Inode → Local → Prop}
    (h : ∀ i, Q i { l with tx := { l.tx with allocated := i :: l.tx.allocated } }) :
    wpE (contract cfg strict c) E alloc Q l :=
  wp_eff trivial (fun _ => rfl) fun s _ _ => h s.next

theorem wp_nextSeq {p : Inode} {d : DeltaOp} {Q : Nat → Local → Prop} (hpre : NextOk c l.tx p d)
    (h : ∀ q, Q q { l with tx := { l.tx with seqs := l.tx.seqs ++ [(p, q, d)] } }) :
    wpE (contract cfg strict c) E (nextSeq p d) Q l :=
  wp_eff hpre (fun _ => rfl) fun s _ _ => h (s.seqs p)

theorem wp_nowSecs {Q : Nat → Local → Prop} (h : ∀ ts, Q ts l) :
    wpE (contract cfg strict c) E nowSecs Q l :=
  wp_quiet trivial (fun _ => rfl) (fun _ => rfl) h

theorem wp_orNotFound {o : Option α} {Q : α → Local → Prop} (h : ∀ a, o = some a → Q a l) (hE : E l) :
    wpE (contract cfg strict c) E (orNotFound o) Q l := by
  cases o with
  | none => exact hE
  | some a => exact h a rfl

theorem wp_getForUpdateDirEntry {p : Inode} {n : Name} {Q : Option DirValue → Local → Prop}
    (hlock : cfg.build = .delta → LockStep l c (.dirEntry p n)) (hb : l.tx.batch = []) (hE : E l)
    (h : ∀ o, (strict → c.DistinctRead { l.tx with
        locks := .dirEntry p n :: l.tx.locks, dirReads := (p, n, o) :: l.tx.dirReads }) →
      Q o { l with tx := { l.tx with
        locks := .dirEntry p n :: l.tx.locks, dirReads := (p, n, o) :: l.tx.dirReads } }) :
    wpE (contract cfg strict c) E (getForUpdateDirEntry p n) Q l := by
  refine wp_perform hlock (fun s _ _ hd => ?_) fun x r hr => ?_
  · have ho : (s.db.applyBatch l.tx.batch).entry p n = s.db.entry p n := by rw [hb]; rfl
    show Q ((s.db.applyBatch l.tx.batch).entry p n) _
    rw [ho]
    exact h _ hd
  · cases hr
    exact hE

/-- The committed state seen by the read is one in which the earlier reads hold. -/
theorem wp_getForUpdateInode {i : Inode} {Q : Option InodeValue → Local → Prop}
    (hlock : cfg.build = .delta → LockStep l c (.inode i)) (hb : l.tx.batch = []) (hE : E l)
    (h : ∀ s : Server, l.tx.Valid s.db s.next → s.db.Wf s.next →
      Q (s.db.inode i) ⟨{ l.tx with
        locks := .inode i :: l.tx.locks, inodeReads := (i, s.db.inode i) :: l.tx.inodeReads },
        (Eff.getForUpdateInode i).remember s l.files⟩) :
    wpE (contract cfg strict c) E (getForUpdateInode i) Q l := by
  refine wp_perform hlock (fun s hv hw _ => ?_) fun x r hr => ?_
  · have ho : (s.db.applyBatch l.tx.batch).inode i = s.db.inode i := by rw [hb]; rfl
    show Q ((s.db.applyBatch l.tx.batch).inode i) _
    rw [ho]
    exact h s hv hw
  · cases hr
    exact hE

theorem wp_isDirEmpty {d : Inode} {Q : Bool → Local → Prop} (hpre : .inode d ∈ l.tx.locks)
    (hb : l.tx.batch = []) (hE : E l)
    (h : ∀ s : Server, l.tx.Valid s.db s.next → Q (s.db.isDirEmpty d) { l with tx := { l.tx with
      emptyChecks := if s.db.isDirEmpty d then d :: l.tx.emptyChecks else l.tx.emptyChecks } }) :
    wpE (contract cfg strict c) E (isDirEmpty d) Q l := by
  refine wp_perform ⟨hpre, hb⟩ (fun s hv _ _ => ?_) fun x r hr => ?_
  · have hd : (s.db.applyBatch l.tx.batch).isDirEmpty d = s.db.isDirEmpty d := by rw [hb]; rfl
    show Q ((s.db.applyBatch l.tx.batch).isDirEmpty d) { l with tx := { l.tx with
      emptyChecks := if (s.db.applyBatch l.tx.batch).isDirEmpty d then d :: l.tx.emptyChecks
        else l.tx.emptyChecks } }
    rw [hd]
    exact h s hv
  · cases hr
    exact hE

theorem wp_commit (hpre : ∀ db next, l.tx.Valid db next → db.Wf next → Committing cfg c l db)
    (hE : E { l with tx := {} }) (h : Q () { l with tx := { retired := l.tx.retiring } }) :
    wpE (contract cfg strict c) E commit Q l := by
  refine wp_perform hpre (fun s _ _ _ => h) fun x r hr => ?_
  cases hr
  exact hE

theorem wp_clearDeltas {i : Inode} (hc : c.removes = true) (hpre : strict → i ∈ l.tx.retired ∨ i ∈ l.files)
    (h : Q () l) : wpE (contract cfg strict c) E (clearDeltas i) Q l := by
  unfold clearDeltas eff
  rw [wpE_bind, wpE_lift]
  exact wp_perform ⟨hc, hpre⟩ (fun s _ _ _ => h) fun x r hr => h

/-! ### Batches -/

theorem wp_withBatch {P : List Inode → Prop} {Q : α → Local → Prop} (hE : ∀ fs, P fs → E ⟨{}, fs⟩)
    (h : wpE (contract cfg strict c) (fun l' => P l'.files) body (fun a l' => Q a ⟨{}, l'.files⟩)
      ⟨{ scanned := l.tx.scanned }, l.files⟩) : wpE (contract cfg strict c) E (withBatch body) Q l := by
  unfold withBatch
  show wp _ (perform Eff.beginWrite >>= _) _ _
  rw [wp_bind]
  refine wp_perform trivial (fun s _ _ _ => ?_) fun x r hr => by cases hr
  rw [wp_bind]
  refine wp_mono (fun r l' hr => ?_) h
  rw [wp_bind]
  refine wp_perform trivial (fun s _ _ _ => ?_) fun x r hr => by cases hr
  cases r with
  | ok a => exact hr
  | error e => exact hE l'.files hr

/-- What is known of inodes, as far as a failed attempt keeps it, is known in the next one. -/
theorem wp_retry {P : List Inode → Prop} {Q : α → Local → Prop} (hE : ∀ fs, P fs → E ⟨{}, fs⟩)
    (h : ∀ fs, P fs → wpE (contract cfg strict c) (fun l' => P l'.files) body
      (fun a l' => Q a ⟨{}, l'.files⟩) ⟨{}, fs⟩) :
    ∀ (n : Nat) (fs : List Inode), P fs → wpE (contract cfg strict c) E (retry body n) Q ⟨{}, fs⟩
  | 0, fs, hP => wp_withBatch hE (h fs hP)
  | n + 1, fs, hP => by
    have hfirst : wpE (contract cfg strict c) (fun l => l.tx = {} ∧ P l.files) (withBatch body) Q
        ⟨{}, fs⟩ := wp_withBatch (fun _ hP' => ⟨rfl, hP'⟩) (h fs hP)
    unfold retry
    show wp _ ((withBatch body).run >>= _) _ _
    rw [wp_bind]
    refine wp_mono (fun r l' hr => ?_) hfirst
    cases r with
    | ok a => exact hr
    | error e =>
        obtain ⟨tx, fs'⟩ := l'
        obtain ⟨htx, hP'⟩ : tx = {} ∧ P fs' := hr
        subst htx
        cases e with
        | transactionConflict => exact wp_retry hE h n fs' hP'
        | _ => exact hE fs' hP'

theorem wp_executeWithRetry {Q : α → Local → Prop} {fs : List Inode} (hE : ∀ fs, E ⟨{}, fs⟩)
    (h : ∀ fs, wpE (contract cfg strict c) (fun _ => True) body (fun a l' => Q a ⟨{}, l'.files⟩) ⟨{}, fs⟩) :
    wpE (contract cfg strict c) E (executeWithRetry body) Q ⟨{}, fs⟩ :=
  wp_retry (P := fun _ => True) (fun fs _ => hE fs) (fun fs _ => h fs) _ fs trivial

end Op

/-! ## Parent deltas -/

theorem flatDeltas_append (a b : List (Inode × List DeltaOp)) :
    flatDeltas (a ++ b) = flatDeltas a ++ flatDeltas b := List.flatMap_append

theorem Db.inode_applyBatch_congr {a b : Db} {i : Inode} (ops : List BatchOp) (h : a.inode i = b.inode i) :
    (a.applyBatch ops).inode i = (b.applyBatch ops).inode i := by
  induction ops generalizing a b with
  | nil => exact h
  | cons op ops ih =>
      refine ih ?_
      rw [Db.inode_applyOp, Db.inode_applyOp]
      cases op <;> simp only [h]

theorem RecordWrites.mono {ps ps' : List Inode} (hps : ∀ p ∈ ps, p ∈ ps') :
    ∀ {ops : List BatchOp} {db : Db}, RecordWrites ps db ops → RecordWrites ps' db ops
  | [], _, _ => trivial
  | .putInode p _ :: _, _, h => ⟨hps p h.1, h.2.1, RecordWrites.mono hps h.2.2⟩

theorem RecordWrites.append {ps : List Inode} {ops' : List BatchOp} :
    ∀ {ops : List BatchOp} {db : Db}, RecordWrites ps db ops → RecordWrites ps (db.applyBatch ops) ops' →
      RecordWrites ps db (ops ++ ops')
  | [], _, _, h' => h'
  | .putInode _ _ :: _, _, h, h' => ⟨h.1, h.2.1, RecordWrites.append h.2.2 h'⟩

theorem ParentPart.append {cfg : Config} {qs qs' : List (Inode × Nat × DeltaOp)} {db : Db}
    {dss dss' : List (Inode × List DeltaOp)} {ops ops' : List BatchOp}
    (h : ParentPart cfg qs db dss ops) (h' : ParentPart cfg qs' (db.applyBatch ops) dss' ops') :
    ParentPart cfg (qs ++ qs') db (dss ++ dss') (ops ++ ops') := by
  unfold ParentPart at h h' ⊢
  cases hb : cfg.build with
  | delta =>
      simp only [hb] at h h' ⊢
      rw [List.map_append, List.map_append, flatDeltas_append, h.1, h.2, h'.1, h'.2]
      exact ⟨rfl, rfl⟩
  | noDelta =>
      simp only [hb] at h h' ⊢
      rw [h.1, h'.1, List.map_append]
      exact ⟨rfl, (h.2.mono fun p hp => List.mem_append_left _ hp).append
        (h'.2.mono fun p hp => List.mem_append_right _ hp)⟩

/-- `l'` has read and locked more inodes than `l` and nothing else of its history has changed. -/
structure Local.Extends (l l' : Local) : Prop where
  dirReads : l'.tx.dirReads = l.tx.dirReads
  allocated : l'.tx.allocated = l.tx.allocated
  emptyChecks : l'.tx.emptyChecks = l.tx.emptyChecks
  inodeReads : ∀ x ∈ l.tx.inodeReads, x ∈ l'.tx.inodeReads
  locks : ∀ r ∈ l.tx.locks, r ∈ l'.tx.locks
  files : ∀ i ∈ l.files, i ∈ l'.files

namespace Local.Extends

variable {l l' l'' : Local} {db : Db} {next : Nat}

theorem refl (l : Local) : l.Extends l := ⟨rfl, rfl, rfl, fun _ h => h, fun _ h => h, fun _ h => h⟩

theorem trans (h : l.Extends l') (h' : l'.Extends l'') : l.Extends l'' :=
  ⟨h'.dirReads.trans h.dirReads, h'.allocated.trans h.allocated, h'.emptyChecks.trans h.emptyChecks,
    fun x hx => h'.inodeReads x (h.inodeReads x hx), fun r hr => h'.locks r (h.locks r hr),
    fun i hi => h'.files i (h.files i hi)⟩

theorem valid (h : l.Extends l') (hv : l'.tx.Valid db next) : l.tx.Valid db next :=
  ⟨fun hm => hv.entry (h.dirReads ▸ hm), fun hm => hv.inode (h.inodeReads _ hm),
    fun hm => hv.fresh (h.allocated ▸ hm)⟩

end Local.Extends

/-- The deltas for which numbers have been taken. -/
def Txn.taken (tx : Txn) : List (Inode × DeltaOp) := tx.seqs.map fun x => (x.1, x.2.2)

/-- What calls of `batch_parent_deltas` for `dss` do to a transaction. -/
structure ParentStep (cfg : Config) (l : Local) (dss : List (Inode × List DeltaOp)) (l' : Local) :
    Prop where
  ext : l.Extends l'
  taken : ∃ t, t.Sublist (flatDeltas dss) ∧ l'.tx.taken = l.tx.taken ++ t
  part : ∃ qs rest, l'.tx.seqs = l.tx.seqs ++ qs ∧ l'.tx.batch = l.tx.batch ++ rest ∧
    (∀ op ∈ rest, ∀ p n v, op ≠ .putDirEntry p n v) ∧
    ∀ db next, l'.tx.Valid db next → ParentPart cfg qs (db.applyBatch l.tx.batch) dss rest

theorem ParentStep.trans {cfg : Config} {l l' l'' : Local} {dss dss' : List (Inode × List DeltaOp)}
    (h : ParentStep cfg l dss l') (h' : ParentStep cfg l' dss' l'') :
    ParentStep cfg l (dss ++ dss') l'' := by
  obtain ⟨qs, rest, hq, hb, hn, hp⟩ := h.part
  obtain ⟨qs', rest', hq', hb', hn', hp'⟩ := h'.part
  obtain ⟨t, ht, htaken⟩ := h.taken
  obtain ⟨t', ht', htaken'⟩ := h'.taken
  refine ⟨h.ext.trans h'.ext, ⟨t ++ t', ?_, ?_⟩, qs ++ qs', rest ++ rest', ?_, ?_,
    fun op ho => (List.mem_append.1 ho).elim (hn op) (hn' op), fun db next hv => ?_⟩
  · rw [flatDeltas_append]
    exact ht.append ht'
  · rw [htaken', htaken, List.append_assoc]
  · rw [hq', hq, List.append_assoc]
  · rw [hb', hb, List.append_assoc]
  · refine (hp db next (h'.ext.valid hv)).append ?_
    rw [← Db.applyBatch_append, ← hb]
    exact hp' db next hv

/-- The deltas a call may write: for its parents, and taking links only from locked entries of
directories, once for each parent. -/
structure DeltasOk (c : Call) (reads : List (Inode × Name × Option DirValue))
    (items : List (Inode × DeltaOp)) : Prop where
  parent : ∀ x ∈ items, x.1 ∈ c.parents
  step : ∀ x ∈ items, ∀ k, x.2 = .incrementNlink k →
    k = 1 ∨ k = -1 ∧ ∃ n v, (x.1, n, some v) ∈ reads ∧ isDir v.mode = true
  once : items.Pairwise fun a b =>
    a.2 = .incrementNlink (-1) → b.2 = .incrementNlink (-1) → a.1 ≠ b.1

theorem DeltasOk.sublist {c : Call} {reads : List (Inode × Name × Option DirValue)}
    {items items' : List (Inode × DeltaOp)} (h : DeltasOk c reads items) (hs : items'.Sublist items) :
    DeltasOk c reads items' :=
  ⟨fun x hx => h.parent x (hs.subset hx), fun x hx => h.step x (hs.subset hx), h.once.sublist hs⟩

theorem DeltasOk.nextOk {c : Call} {tx : Txn} {p : Inode} {d : DeltaOp} {items : List (Inode × DeltaOp)}
    (h : DeltasOk c tx.dirReads (tx.taken ++ (p, d) :: items)) : NextOk c tx p d := by
  have hmem : (p, d) ∈ tx.taken ++ (p, d) :: items := List.mem_append_right _ List.mem_cons_self
  refine ⟨h.parent _ hmem, fun k hk => ?_⟩
  rcases h.step _ hmem k hk with rfl | ⟨rfl, hread⟩
  · exact Or.inl rfl
  · refine Or.inr ⟨rfl, hread, fun q hq => ?_⟩
    have htaken : (p, .incrementNlink (-1)) ∈ tx.taken :=
      List.mem_map_of_mem (f := fun x : Inode × Nat × DeltaOp => (x.1, x.2.2)) hq
    exact (List.pairwise_append.1 h.once).2.2 _ htaken _ List.mem_cons_self rfl hk rfl

namespace Op

variable {cfg : Config} {strict : Prop} {c : Call} {E : Local → Prop} {l : Local} {Q : Unit → Local → Prop}

theorem wp_pushDeltas (hb : cfg.build = .delta) (p : Inode) :
    ∀ (ds : List DeltaOp) {l : Local} {Q : Unit → Local → Prop},
      DeltasOk c l.tx.dirReads (l.tx.taken ++ ds.map (Prod.mk p)) →
      (∀ l', ParentStep cfg l [(p, ds)] l' → Q () l') →
      wpE (contract cfg strict c) E (pushDeltas p ds) Q l
  | [], l, Q, _, h => by
      refine h l ⟨.refl l, ⟨[], List.nil_sublist _, by simp⟩, [], [], by simp, by simp, by simp, fun db next _ => ?_⟩
      simp [ParentPart, hb, flatDeltas]
  | d :: ds, l, Q, hok, h => by
      unfold pushDeltas
      rw [wpE_bind]
      refine wp_nextSeq hok.nextOk fun q => ?_
      rw [wpE_bind]
      refine wp_push (fun _ => .side rfl) (wp_pushDeltas hb p ds ?_ fun l' hl' => h l' ?_)
      · simpa [Txn.taken] using hok
      · obtain ⟨ext, ⟨t, ht, htaken⟩, qs, rest, hq, hbat, hn, hp⟩ := hl'
        refine ⟨⟨ext.dirReads, ext.allocated, ext.emptyChecks, ext.inodeReads,
          fun r hr => ext.locks r (List.mem_cons_of_mem _ hr), ext.files⟩, ⟨(p, d) :: t, ?_, ?_⟩,
          (p, q, d) :: qs, .putDelta p q d :: rest, ?_, ?_, by simpa using hn, fun db next hv => ?_⟩
        · simpa [flatDeltas] using ht
        · simpa [Txn.taken] using htaken
        · simpa using hq
        · simpa using hbat
        · have hpart := hp db next hv
          simp only [ParentPart, hb, flatDeltas, List.flatMap_cons, List.flatMap_nil,
            List.append_nil, List.map_cons] at hpart ⊢
          exact ⟨by rw [hpart.1], by rw [hpart.2]⟩

theorem wp_batchParentDeltas {p : Inode} {ds : List DeltaOp}
    (hok : DeltasOk c l.tx.dirReads (l.tx.taken ++ ds.map (Prod.mk p)))
    (h : ∀ l', ParentStep cfg l [(p, ds)] l' → Q () l') :
    wpE (contract cfg strict c) E (batchParentDeltas cfg p ds) Q l := by
  unfold batchParentDeltas
  cases hb : cfg.build with
  | delta => exact wp_pushDeltas hb p ds hok h
  | noDelta =>
      dsimp only
      have hskip : ∀ {l' : Local}, l.Extends l' → l'.tx.seqs = l.tx.seqs → l'.tx.batch = l.tx.batch →
          Q () l' := by
        intro l' hext hseqs hbatch
        refine h l' ⟨hext, ⟨[], List.nil_sublist _, by simp [Txn.taken, hseqs]⟩, [], [],
          by simpa using hseqs, by simpa using hbatch, by simp, fun db next _ => ?_⟩
        simp [ParentPart, hb, RecordWrites]
      -- the order of these locks is that of the other build
      have hbuild : cfg.build ≠ .delta := by rw [hb]; exact Build.noConfusion
      rw [wpE_bind, wpE_lift]
      refine wp_perform (fun e => absurd e hbuild) (fun s _ _ _ => ?_) fun x r hr => ?_
      · -- the record, as the transaction sees it, is read under lock
        have hext : l.Extends (l.after cfg s (.getForUpdateInode p)) := by
          exact ⟨rfl, rfl, rfl, fun x hx => List.mem_cons_of_mem _ hx,
            fun r hr => List.mem_cons_of_mem _ hr, fun i hi => Eff.mem_remember (e := .getForUpdateInode p) (s := s) hi⟩
        have hans : (handle cfg (.getForUpdateInode p) (l.tx, s)).1 =
          .ok ((s.db.applyBatch l.tx.batch).inode p) := rfl
        rw [hans]
        cases hi : (s.db.applyBatch l.tx.batch).inode p with
        | none => exact hskip hext rfl rfl
        | some iv =>
            refine wp_push (fun e => absurd e hbuild) (h _ ⟨⟨hext.dirReads, hext.allocated, hext.emptyChecks, hext.inodeReads,
              fun r hr => List.mem_cons_of_mem _ (hext.locks r hr), hext.files⟩,
              ⟨[], List.nil_sublist _, (List.append_nil _).symm⟩, [],
              [.putInode p (foldDeltas iv ds)], (List.append_nil _).symm, rfl, by simp, fun db next hv => ?_⟩)
            have hread : db.inode p = s.db.inode p := hv.inode List.mem_cons_self
            unfold ParentPart
            rw [hb]
            refine ⟨rfl, List.mem_cons_self, ⟨iv, ?_, foldDeltas_mode iv ds⟩, trivial⟩
            rw [Db.inode_applyBatch_congr _ hread, hi]
      · cases hr
        exact hskip (.refl l) rfl rfl

theorem wp_batchParentDeltasAll : ∀ (dss : List (Inode × List DeltaOp)) {l : Local}
    {Q : Unit → Local → Prop}, DeltasOk c l.tx.dirReads (l.tx.taken ++ flatDeltas dss) →
    (∀ l', ParentStep cfg l dss l' → Q () l') →
    wpE (contract cfg strict c) E (forM dss fun d => batchParentDeltas cfg d.1 d.2) Q l
  | [], l, Q, _, h => by
      refine h l ⟨.refl l, ⟨[], List.nil_sublist _, by simp⟩, [], [], by simp, by simp, by simp, fun db next _ => ?_⟩
      unfold ParentPart
      cases cfg.build <;> simp [flatDeltas, RecordWrites]
  | d :: dss, l, Q, hok, h => by
      have hflat : flatDeltas (d :: dss) = d.2.map (Prod.mk d.1) ++ flatDeltas dss := List.flatMap_cons
      rw [hflat] at hok
      rw [List.forM_cons, wpE_bind]
      refine wp_batchParentDeltas (hok.sublist ?_) fun l₁ h₁ => ?_
      · exact List.Sublist.append_left (List.sublist_append_left _ _) _
      · refine wp_batchParentDeltasAll dss ?_ fun l' h' => h l' (h₁.trans h')
        obtain ⟨t, ht, htaken⟩ := h₁.taken
        rw [h₁.ext.dirReads, htaken]
        refine hok.sublist ?_
        rw [List.append_assoc]
        refine List.Sublist.append_left (List.Sublist.append_right ?_ _) _
        simpa [flatDeltas] using ht

end Op

end RucksFs
