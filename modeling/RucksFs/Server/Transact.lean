import RucksFs.Server.Exec

/-!
# Sequential meaning of transactions

The server updates out of which the effect of every operation is composed, and what the shared
parts of the operations compute when one call runs at a time:

* `exec_executeWithRetry` — without conflicts the first attempt decides, and the batch is gone
  afterwards.
* `write_deltaStep` — `batch_parent_deltas` followed by `commit` writes the batch and then the
  parent's deltas, in both builds.
* `exec_loadInode` — a cache hit, or the fold of the stored record.
-/

set_option autoImplicit false

namespace RucksFs

namespace Server

/-- Commit a batch. -/
def write (s : Server) (ops : List BatchOp) : Server := { s with db := s.db.applyBatch ops }

/-- One clock reading. -/
def tick (s : Server) : Server := { s with ticks := s.ticks + 1 }

/-- Deltas of `p` under consecutive sequence numbers. -/
def deltaPuts (p : Inode) : Nat → List DeltaOp → List BatchOp
  | _, [] => []
  | q, d :: ds => .putDelta p q d :: deltaPuts p (q + 1) ds

/-- What `batch_parent_deltas` adds to a commit. -/
def parentDeltas (cfg : Config) (s : Server) (p : Inode) (ds : List DeltaOp) : Server :=
  match cfg.build with
  | .delta =>
      { s with
        db := s.db.applyBatch (deltaPuts p (s.seqs p) ds)
        seqs := Function.update s.seqs p (s.seqs p + ds.length) }
  | .noDelta =>
      match s.db.inode p with
      | some iv => s.write [.putInode p (foldDeltas iv ds)]
      | none => s

/-- `cache.put`. -/
def cachePut (s : Server) (i : Inode) (v : InodeValue) : Server := { s with cache := s.cache.put i v }

/-- `cache.invalidate`. -/
def cacheInvalidate (s : Server) (i : Inode) : Server := { s with cache := s.cache.invalidate i }

/-- Apply parent deltas to the cache and mark the parent dirty. -/
def touch (s : Server) (p : Inode) (ds : List DeltaOp) : Server :=
  { s with cache := s.cache.applyDeltas p ds }.markDirty p

/-- An inode joins `pending_deletes`. -/
def pendingInsert (s : Server) (i : Inode) : Server :=
  { s with pendingDeletes := Function.update s.pendingDeletes i true }

/-- Several calls of `batch_parent_deltas`. -/
def parentDeltasAll (cfg : Config) (s : Server) (dss : List (Inode × List DeltaOp)) : Server :=
  dss.foldl (fun s d => s.parentDeltas cfg d.1 d.2) s

/-- Several `touch` updates. -/
def touchAll (s : Server) (dss : List (Inode × List DeltaOp)) : Server :=
  dss.foldl (fun s d => s.touch d.1 d.2) s

/-- `maybe_persist`. -/
def persist (s : Server) : Server :=
  if s.next % PERSIST_INTERVAL = 0 then { s with db := { s.db with nextInode := some s.next } } else s

/-- `load_inode`: a hit returns the cached value, a miss caches the folded record. -/
def load (s : Server) (i : Inode) : FsResult InodeValue × Server :=
  match s.cache.find i with
  | some v => (.ok v, { s with cache := (s.cache.get i).2 })
  | none =>
      match s.db.effective i with
      | some v => (.ok v, { s with cache := (s.cache.get i).2.put i v })
      | none => (.error .notFound, { s with cache := (s.cache.get i).2 })

theorem db_touchAll (dss : List (Inode × List DeltaOp)) :
    ∀ s : Server, (s.touchAll dss).db = s.db ∧ (s.touchAll dss).seqs = s.seqs := by
  induction dss with
  | nil => exact fun _ => ⟨rfl, rfl⟩
  | cons d dss ih => exact fun s => ih (s.touch d.1 d.2)

theorem load_snd (s : Server) (i : Inode) : ∃ c, (s.load i).2 = { s with cache := c } := by
  unfold load
  split
  · exact ⟨_, rfl⟩
  · split <;> exact ⟨_, rfl⟩

end Server

open Server

namespace Op

variable {α β : Type} (cfg : Config) (tx : Txn) (s : Server)

/-! ## Batches and retries -/

theorem exec_withBatch (body : Op α) :
    exec cfg (withBatch body) (tx, s) =
      ((exec cfg body ({ scanned := tx.scanned }, s)).1, {},
        (exec cfg body ({ scanned := tx.scanned }, s)).2.2) := by
  unfold exec withBatch
  simp only [ExceptT.run_mk, Prog.run_bind, Prog.run_perform, Prog.run_pure]
  rfl

theorem exec_retry {body : Op α} {r : FsResult α} {tx' : Txn} {s' : Server}
    (h : exec cfg body ({}, s) = (r, tx', s')) (hr : r ≠ .error .transactionConflict) :
    ∀ n, exec cfg (retry body n) ({}, s) = (r, {}, s')
  | 0 => by
    unfold retry
    rw [exec_withBatch, h]
  | n + 1 => by
    have hb := exec_withBatch cfg {} s body
    rw [h] at hb
    unfold retry
    unfold exec at hb ⊢
    rw [ExceptT.run_mk, Prog.run_bind, hb]
    cases r with
    | ok a => rfl
    | error e =>
        cases e with
        | transactionConflict => exact absurd rfl hr
        | _ => rfl

/-- No attempt conflicts when one call runs at a time. -/
theorem exec_executeWithRetry {body : Op α} {r : FsResult α} {s' : Server}
    (h : ∃ tx', exec cfg body ({}, s) = (r, tx', s')) (hr : r ≠ .error .transactionConflict) :
    exec cfg (executeWithRetry body) ({}, s) = (r, {}, s') := by
  obtain ⟨tx', h⟩ := h
  exact exec_retry cfg s h hr _

/-- A transaction that succeeds, and what follows it. -/
theorem exec_retry_ok {body : Op α} {f : α → Op β} {a : α} {t : Server}
    (h : ∃ tx', exec cfg body ({}, s) = (.ok a, tx', t)) :
    exec cfg (executeWithRetry body >>= f) ({}, s) = exec cfg (f a) ({}, t) := by
  rw [exec_bind, exec_executeWithRetry cfg s h (by simp)]

/-- A transaction that fails ends the operation. -/
theorem exec_retry_error {body : Op α} {f : α → Op β} {e : FsError} {t : Server}
    (he : e ≠ .transactionConflict) (h : ∃ tx', exec cfg body ({}, s) = (.error e, tx', t)) :
    exec cfg (executeWithRetry body >>= f) ({}, s) = (.error e, {}, t) := by
  rw [exec_bind, exec_executeWithRetry cfg s h (by simpa using he)]

/-! ## Effects -/

@[simp] theorem exec_getForUpdateDirEntry (p : Inode) (n : Name) :
    exec cfg (getForUpdateDirEntry p n) (tx, s) =
      (.ok ((s.db.applyBatch tx.batch).entry p n),
        { tx with
          locks := .dirEntry p n :: tx.locks
          dirReads := (p, n, s.db.entry p n) :: tx.dirReads }, s) := rfl

@[simp] theorem exec_getForUpdateInode (i : Inode) :
    exec cfg (getForUpdateInode i) (tx, s) =
      (.ok ((s.db.applyBatch tx.batch).inode i),
        { tx with
          locks := .inode i :: tx.locks
          inodeReads := (i, s.db.inode i) :: tx.inodeReads }, s) := rfl

@[simp] theorem exec_isDirEmpty (d : Inode) :
    exec cfg (isDirEmpty d) (tx, s) =
      (.ok ((s.db.applyBatch tx.batch).isDirEmpty d), (handle cfg (.isDirEmpty d) (tx, s)).2.1, s) :=
  rfl

@[simp] theorem exec_push (op : BatchOp) :
    exec cfg (push op) (tx, s) =
      (.ok (), { tx with batch := tx.batch ++ [op], locks := op.row :: tx.locks }, s) := rfl

@[simp] theorem exec_commit (st : Txn × Server) :
    exec cfg commit st = (.ok (), { retired := st.1.retiring }, st.2.write st.1.batch) := rfl

@[simp] theorem exec_nowSecs :
    exec cfg nowSecs (tx, s) = (.ok (cfg.clock s.ticks), tx, s.tick) := rfl

@[simp] theorem exec_alloc :
    exec cfg alloc (tx, s) =
      (.ok s.next, { tx with allocated := s.next :: tx.allocated }, { s with next := s.next + 1 }) :=
  rfl

@[simp] theorem exec_clearDeltas (i : Inode) :
    exec cfg (clearDeltas i) (tx, s) = (.ok (), tx, s.clearDeltas i) := rfl

@[simp] theorem exec_cachePut (i : Inode) (v : InodeValue) :
    exec cfg (cachePut i v) (tx, s) = (.ok (), tx, s.cachePut i v) := rfl

@[simp] theorem exec_cacheInvalidate (i : Inode) :
    exec cfg (cacheInvalidate i) (tx, s) = (.ok (), tx, s.cacheInvalidate i) := rfl

@[simp] theorem exec_handleCount (i : Inode) :
    exec cfg (handleCount i) (tx, s) = (.ok (s.handles i), tx, s) := rfl

@[simp] theorem exec_orNotFound (o : Option α) :
    exec cfg (orNotFound o) (tx, s) =
      (match o with
       | some a => .ok a
       | none => .error .notFound, tx, s) := by
  cases o <;> rfl

theorem exec_validateName (n : Name) :
    exec cfg (validateName n) (tx, s) =
      (if n.length > NAME_MAX then .error .nameTooLong else .ok (), tx, s) := by
  unfold validateName
  split <;> rfl

theorem exec_forM_push {γ : Type} (f : γ → BatchOp) (l : List γ) (tx : Txn) :
    exec cfg (forM l fun a => push (f a)) (tx, s) =
      (.ok (), { tx with
        batch := tx.batch ++ l.map f
        locks := ((l.map f).map BatchOp.row).reverse ++ tx.locks }, s) := by
  induction l generalizing tx with
  | nil => simp
  | cons a l ih =>
      rw [List.forM_cons, exec_bind, exec_push]
      dsimp only
      rw [ih]
      simp

@[simp] theorem exec_cacheApplyDeltas (p : Inode) (ds : List DeltaOp) :
    exec cfg (cacheApplyDeltas p ds) (tx, s) =
      (.ok (), tx, { s with cache := s.cache.applyDeltas p ds }) := rfl

@[simp] theorem exec_markDirty (p : Inode) :
    exec cfg (markDirty p) (tx, s) = (.ok (), tx, s.markDirty p) := rfl

@[simp] theorem exec_pendingInsert (i : Inode) :
    exec cfg (pendingInsert i) (tx, s) = (.ok (), tx, s.pendingInsert i) := rfl

@[simp] theorem exec_handleIncr (i : Inode) :
    exec cfg (handleIncr i) (tx, s) = (.ok (), tx, s.handleIncr i) := rfl

theorem exec_maybePersist : exec cfg maybePersist (tx, s) = (.ok (), tx, s.persist) := by
  unfold maybePersist persist
  show exec cfg (if s.next % PERSIST_INTERVAL = 0 then putNextInode s.next else pure ()) (tx, s) = _
  split <;> rfl

/-! ## Parent deltas -/

theorem exec_pushDeltas (p : Inode) : ∀ (ds : List DeltaOp) (tx : Txn) (s : Server),
    ∃ tx', exec cfg (pushDeltas p ds) (tx, s) =
        (.ok (), tx', { s with seqs := Function.update s.seqs p (s.seqs p + ds.length) }) ∧
      tx'.batch = tx.batch ++ deltaPuts p (s.seqs p) ds
  | [], tx, s => ⟨tx, by simp [pushDeltas], by simp [deltaPuts]⟩
  | d :: ds, tx, s => by
    obtain ⟨tx', h, hb⟩ := exec_pushDeltas p ds
      { tx with
        batch := tx.batch ++ [.putDelta p (s.seqs p) d]
        locks := .delta p (s.seqs p) :: tx.locks
        seqs := tx.seqs ++ [(p, s.seqs p, d)] }
      { s with seqs := Function.update s.seqs p (s.seqs p + 1) }
    refine ⟨tx', ?_, ?_⟩
    · refine Eq.trans (b := exec cfg (pushDeltas p ds) _) rfl (h.trans ?_)
      simp [Nat.add_assoc, Nat.add_comm 1]
    · simpa [deltaPuts] using hb

/-- Batch and server after `batch_parent_deltas`, before the commit. -/
def deltaStep (p : Inode) (ds : List DeltaOp) : Txn × Server :=
  (exec cfg (batchParentDeltas cfg p ds) (tx, s)).2

theorem batchParentDeltas_spec (p : Inode) (ds : List DeltaOp) :
    ∃ tx' s', exec cfg (batchParentDeltas cfg p ds) (tx, s) = (.ok (), tx', s') ∧
      s'.write tx'.batch = (s.write tx.batch).parentDeltas cfg p ds := by
  unfold batchParentDeltas
  cases hb : cfg.build with
  | delta =>
      obtain ⟨tx', h, hbatch⟩ := exec_pushDeltas cfg p ds tx s
      refine ⟨_, _, h, ?_⟩
      simp [parentDeltas, hb, write, hbatch, Db.applyBatch_append]
  | noDelta =>
      have hread : exec cfg (ExceptT.lift (getForUpdateInode p).run : Op _) (tx, s) =
          (.ok (.ok ((s.db.applyBatch tx.batch).inode p)),
            (handle cfg (.getForUpdateInode p) (tx, s)).2) := rfl
      dsimp only
      rw [exec_bind, hread]
      cases hi : (s.db.applyBatch tx.batch).inode p with
      | none => exact ⟨_, _, rfl, by simp [parentDeltas, hb, write, hi]⟩
      | some iv => exact ⟨_, _, rfl, by simp [parentDeltas, hb, write, hi, Db.applyBatch_append]⟩

@[simp] theorem exec_batchParentDeltas (p : Inode) (ds : List DeltaOp) :
    exec cfg (batchParentDeltas cfg p ds) (tx, s) = (.ok (), deltaStep cfg tx s p ds) := by
  obtain ⟨tx', s', h, -⟩ := batchParentDeltas_spec cfg tx s p ds
  unfold deltaStep
  rw [h]

/-- The batch is written first, then the parent's deltas. -/
@[simp] theorem write_deltaStep (p : Inode) (ds : List DeltaOp) :
    (deltaStep cfg tx s p ds).2.write (deltaStep cfg tx s p ds).1.batch =
      (s.write tx.batch).parentDeltas cfg p ds := by
  obtain ⟨tx', s', h, hw⟩ := batchParentDeltas_spec cfg tx s p ds
  unfold deltaStep
  rw [h]
  exact hw

theorem forM_batchParentDeltas_spec (dss : List (Inode × List DeltaOp)) :
    ∀ (tx : Txn) (s : Server), ∃ tx' s',
      exec cfg (forM dss fun d => batchParentDeltas cfg d.1 d.2) (tx, s) = (.ok (), tx', s') ∧
      s'.write tx'.batch = (s.write tx.batch).parentDeltasAll cfg dss := by
  induction dss with
  | nil => exact fun tx s => ⟨tx, s, rfl, rfl⟩
  | cons d dss ih =>
      intro tx s
      obtain ⟨tx', s', h, hw⟩ := ih (deltaStep cfg tx s d.1 d.2).1 (deltaStep cfg tx s d.1 d.2).2
      refine ⟨tx', s', ?_, ?_⟩
      · rw [List.forM_cons, exec_bind, exec_batchParentDeltas]
        exact h
      · rw [hw, write_deltaStep]
        rfl

/-- Batch and server after several calls of `batch_parent_deltas`. -/
def deltaSteps (dss : List (Inode × List DeltaOp)) : Txn × Server :=
  (exec cfg (forM dss fun d => batchParentDeltas cfg d.1 d.2) (tx, s)).2

@[simp] theorem exec_forM_batchParentDeltas (dss : List (Inode × List DeltaOp)) :
    exec cfg (forM dss fun d => batchParentDeltas cfg d.1 d.2) (tx, s) =
      (.ok (), deltaSteps cfg tx s dss) := by
  obtain ⟨tx', s', h, -⟩ := forM_batchParentDeltas_spec cfg dss tx s
  unfold deltaSteps
  rw [h]

@[simp] theorem write_deltaSteps (dss : List (Inode × List DeltaOp)) :
    (deltaSteps cfg tx s dss).2.write (deltaSteps cfg tx s dss).1.batch =
      (s.write tx.batch).parentDeltasAll cfg dss := by
  obtain ⟨tx', s', h, hw⟩ := forM_batchParentDeltas_spec cfg dss tx s
  unfold deltaSteps
  rw [h]
  exact hw

theorem exec_forM_touch (dss : List (Inode × List DeltaOp)) :
    ∀ (tx : Txn) (s : Server),
      exec cfg (forM dss fun d => do cacheApplyDeltas d.1 d.2; markDirty d.1) (tx, s) =
        (.ok (), tx, s.touchAll dss) := by
  induction dss with
  | nil => exact fun _ _ => rfl
  | cons d dss ih => exact fun tx s => ih tx (s.touch d.1 d.2)

/-! ## Reading an inode -/

theorem exec_loadInode (i : Inode) :
    exec cfg (loadInode i) (tx, s) = ((s.load i).1, tx, (s.load i).2) := by
  have hget : exec cfg (cacheGet i) (tx, s) =
      (.ok (s.cache.find i), tx, { s with cache := (s.cache.get i).2 }) := by
    rw [← InodeFoldedCache.get_fst]
    rfl
  unfold loadInode Server.load
  rw [exec_bind, hget]
  cases s.cache.find i with
  | some v => rfl
  | none =>
      show exec cfg (orNotFound (s.db.inode i) >>= _) _ = _
      cases hi : s.db.inode i with
      | none =>
          simp only [Db.effective, hi, Option.map_none]
          rfl
      | some base =>
          simp only [Db.effective, hi, Option.map_some]
          rfl

end Op

end RucksFs
