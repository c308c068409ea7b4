import Mathlib.Data.List.Dedup
import RucksFs.Change
import RucksFs.Server.Transact

/-!
# What each operation computes

One equation per operation for a call that runs alone: the checks in the order the code makes
them, as a pure function of the database, and the server after a success, composed from the
updates of `RucksFs.Server.Transact`.  The equations hold in both builds.

* `exec_create`, `exec_createAndOpen`, `exec_mkdir`, `exec_symlink`, `exec_link`
* `exec_unlink`, `exec_rmdir`, `exec_rename`
* `exec_setattr`, `exec_reportWrite`, `exec_openFile`, `exec_release`, `exec_forceCompactInode`
-/

set_option autoImplicit false

namespace RucksFs

open Op Server

variable (cfg : Config) (s : Server)

/-- The time stamps every change of a directory leaves on it. -/
def touchDeltas (ts : Nat) : List DeltaOp := [.setMtime ts, .setCtime ts]

/-! ## Creation -/

/-- A committed creation of `iv` as `p/n`. -/
def Server.created (cfg : Config) (s : Server) (p : Inode) (n : Name) (iv : InodeValue)
    (extra : List BatchOp) (ds : List DeltaOp) : Server :=
  ((({ s with next := s.next + 1 }.tick.write
    (.putInode iv.inode iv :: .putDirEntry p n ⟨iv.inode, iv.mode⟩ :: extra)).parentDeltas
      cfg p ds).persist.cachePut iv.inode iv).touch p ds

theorem exec_createTxn (p : Inode) (n : Name) (size mode nlink uid gid : Nat)
    (extra : Inode → List BatchOp) (ds : Nat → List DeltaOp) :
    exec cfg (createTxn cfg p n size mode nlink uid gid extra ds) ({}, s) =
      if (s.db.entry p n).isSome then (.error .alreadyExists, {}, s)
      else
        let iv := newInodeValue s.next size mode nlink uid gid (cfg.clock s.ticks)
        (.ok iv, {}, ({ s with next := s.next + 1 }.tick.write
          (.putInode iv.inode iv :: .putDirEntry p n ⟨iv.inode, iv.mode⟩ ::
            extra iv.inode)).parentDeltas cfg p (ds (cfg.clock s.ticks))) := by
  unfold createTxn
  by_cases he : (s.db.entry p n).isSome
  · rw [if_pos he]
    refine exec_executeWithRetry cfg s ?_ (by simp)
    simp [exec_bind, he]
  · rw [if_neg he]
    refine exec_executeWithRetry cfg s ?_ (by simp)
    simp only [Bool.not_eq_true] at he
    simp [exec_bind, he, exec_forM_push cfg _ (fun op => op), newInodeValue]

theorem exec_afterCreate (p : Inode) (iv : InodeValue) (ds : List DeltaOp) :
    exec cfg (afterCreate p iv ds) ({}, s) =
      (.ok iv.toAttr, {}, (s.persist.cachePut iv.inode iv).touch p ds) := by
  unfold afterCreate
  simp [exec_bind, exec_maybePersist, touch, Server.cachePut]

/-- Outcome of `create`, `mkdir` and `symlink` for the record `iv`. -/
def Server.creation (cfg : Config) (s : Server) (p : Inode) (n : Name) (iv : InodeValue)
    (extra : List BatchOp) (ds : List DeltaOp) : FsResult FileAttr × Server :=
  if n.length > NAME_MAX then (.error .nameTooLong, s)
  else if (s.db.entry p n).isSome then (.error .alreadyExists, s)
  else (.ok iv.toAttr, s.created cfg p n iv extra ds)

theorem exec_creation (p : Inode) (n : Name) (size mode nlink uid gid : Nat)
    (extra : Inode → List BatchOp) (ds : Nat → List DeltaOp) (after : InodeValue → List DeltaOp)
    (hds : ∀ i ts, after (newInodeValue i size mode nlink uid gid ts) = ds ts) :
    exec cfg (do
        validateName n
        let iv ← createTxn cfg p n size mode nlink uid gid extra ds
        afterCreate p iv (after iv)) ({}, s) =
      let iv := newInodeValue s.next size mode nlink uid gid (cfg.clock s.ticks)
      let out := s.creation cfg p n iv (extra s.next) (ds (cfg.clock s.ticks))
      (out.1, {}, out.2) := by
  unfold Server.creation
  rw [exec_bind, exec_validateName]
  by_cases hn : n.length > NAME_MAX
  · simp [hn]
  · simp only [hn, if_false]
    rw [exec_bind, exec_createTxn]
    by_cases he : (s.db.entry p n).isSome
    · simp [he]
    · rw [if_neg he, if_neg he]
      dsimp only
      rw [exec_afterCreate, hds]
      rfl

/-- The record `create` stores. -/
def Server.newFile (cfg : Config) (s : Server) (mode uid gid : Nat) : InodeValue :=
  newInodeValue s.next 0 (S_IFREG ||| (mode &&& 0o7777)) 1 uid gid (cfg.clock s.ticks)

/-- The record `mkdir` stores. -/
def Server.newDir (cfg : Config) (s : Server) (mode uid gid : Nat) : InodeValue :=
  newInodeValue s.next 0 (S_IFDIR ||| (mode &&& 0o7777)) 2 uid gid (cfg.clock s.ticks)

/-- The record `symlink` stores. -/
def Server.newSymlink (cfg : Config) (s : Server) (target : List Byte) (uid gid : Nat) : InodeValue :=
  newInodeValue s.next target.length (S_IFLNK ||| 0o777) 1 uid gid (cfg.clock s.ticks)

theorem exec_create (p : Inode) (n : Name) (mode uid gid : Nat) :
    exec cfg (create cfg p n mode uid gid) ({}, s) =
      let out := s.creation cfg p n (s.newFile cfg mode uid gid)
        [.putDataLocation s.next cfg.defaultDataLocation.serverId] (touchDeltas (cfg.clock s.ticks))
      (out.1, {}, out.2) :=
  exec_creation cfg s p n _ _ _ _ _ _ _ _ (fun _ _ => rfl)

theorem exec_mkdir (p : Inode) (n : Name) (mode uid gid : Nat) :
    exec cfg (mkdir cfg p n mode uid gid) ({}, s) =
      let out := s.creation cfg p n (s.newDir cfg mode uid gid) []
        (.incrementNlink 1 :: touchDeltas (cfg.clock s.ticks))
      (out.1, {}, out.2) :=
  exec_creation cfg s p n _ _ _ _ _ _ _ _ (fun _ _ => rfl)

theorem exec_symlink (p : Inode) (n : Name) (target : List Byte) (uid gid : Nat) :
    exec cfg (symlink cfg p n target uid gid) ({}, s) =
      let out := s.creation cfg p n (s.newSymlink cfg target uid gid)
        [.putSymlink s.next target] (touchDeltas (cfg.clock s.ticks))
      (out.1, {}, out.2) :=
  exec_creation cfg s p n _ _ _ _ _ _ _ _ (fun _ _ => rfl)

theorem exec_createAndOpen (p : Inode) (n : Name) (mode uid gid flags : Nat) :
    exec cfg (createAndOpen cfg p n mode uid gid flags) ({}, s) =
      match s.creation cfg p n (s.newFile cfg mode uid gid)
        [.putDataLocation s.next cfg.defaultDataLocation.serverId]
        (touchDeltas (cfg.clock s.ticks)) with
      | (.ok attr, s') => (.ok ⟨attr, attr.inode, cfg.defaultDataLocation⟩, {}, s'.handleIncr attr.inode)
      | (.error e, s') => (.error e, {}, s') := by
  unfold createAndOpen
  rw [exec_bind, exec_create]
  dsimp only
  rcases s.creation cfg p n _ _ _ with ⟨r, s'⟩
  cases r <;> rfl

/-! ## Links -/

/-- The checks of `link`: the target's record. -/
def Db.linkCheck (db : Db) (p : Inode) (n : Name) (t : Inode) : FsResult InodeValue :=
  match db.inode t with
  | none => .error .notFound
  | some iv =>
      if isDir iv.mode then .error .permissionDenied
      else if (db.entry p n).isSome then .error .alreadyExists
      else match db.inode p with
        | none => .error .notFound
        | some piv => if isDir piv.mode then .ok iv else .error .notADirectory

/-- A committed `link` that stores `iv` for the target. -/
def Server.linked (cfg : Config) (s : Server) (p : Inode) (n : Name) (t : Inode) (iv : InodeValue)
    (ts : Nat) : Server :=
  (((s.tick.tick.write [.putInode t iv, .putDirEntry p n ⟨t, iv.mode⟩]).parentDeltas cfg p
    (touchDeltas ts)).cachePut t iv).touch p (touchDeltas ts)

theorem exec_link (p : Inode) (n : Name) (t : Inode) :
    exec cfg (link cfg p n t) ({}, s) =
      if n.length > NAME_MAX then (.error .nameTooLong, {}, s)
      else match s.db.linkCheck p n t with
        | .error e => (.error e, {}, s)
        | .ok tiv =>
            let iv := { tiv with nlink := (tiv.nlink + 1) % U32_SIZE, ctime := cfg.clock s.ticks }
            (.ok iv.toAttr, {}, s.linked cfg p n t iv (cfg.clock (s.ticks + 1))) := by
  unfold link Db.linkCheck
  rw [exec_bind, exec_validateName]
  by_cases hn : n.length > NAME_MAX
  · simp [hn]
  simp only [hn, if_false]
  cases ht : s.db.inode t with
  | none => exact exec_retry_error cfg s (by simp) (by simp [exec_bind, ht])
  | some tiv =>
      by_cases hd : isDir tiv.mode
      · refine (exec_retry_error cfg s (e := .permissionDenied) (t := s) (by simp) ?_).trans ?_
        · simp [exec_bind, ht, hd]
        · simp [hd]
      by_cases he : (s.db.entry p n).isSome
      · refine (exec_retry_error cfg s (e := .alreadyExists) (t := s) (by simp) ?_).trans ?_
        · simp [exec_bind, ht, hd, he]
        · simp [hd, he]
      cases hp : s.db.inode p with
      | none =>
          refine (exec_retry_error cfg s (e := .notFound) (t := s) (by simp) ?_).trans ?_
          · simp [exec_bind, ht, hd, he, hp]
          · simp [hd, he]
      | some piv =>
          by_cases hpd : isDir piv.mode
          · let iv := { tiv with nlink := (tiv.nlink + 1) % U32_SIZE, ctime := cfg.clock s.ticks }
            refine (exec_retry_ok cfg s (a := (iv, cfg.clock (s.ticks + 1)))
              (t := ((s.tick.tick.write [.putInode t iv, .putDirEntry p n ⟨t, iv.mode⟩]).parentDeltas cfg p
                (touchDeltas (cfg.clock (s.ticks + 1)))).cachePut t iv) ?_).trans ?_
            · simp [exec_bind, ht, hd, he, hp, hpd]
              exact ⟨⟨rfl, rfl⟩, rfl⟩
            · simp [hd, he, hpd]
              rfl
          · refine (exec_retry_error cfg s (e := .notADirectory) (t := s) (by simp) ?_).trans ?_
            · simp [exec_bind, ht, hd, he, hp, hpd]
            · simp [hd, he, hpd]

/-! ## Removal -/

/-- The checks of `unlink`: the entry and the record of its target. -/
def Db.unlinkCheck (db : Db) (p : Inode) (n : Name) : FsResult (DirValue × InodeValue) :=
  match db.entry p n with
  | none => .error .notFound
  | some v =>
      if isDir v.mode then .error .isADirectory
      else match db.inode v.inode with
        | none => .error .notFound
        | some iv => .ok (v, iv)

/-- A committed `unlink` that removes the target's record. -/
def Server.unlinkedDrop (cfg : Config) (s : Server) (p : Inode) (n : Name) (c : Inode) (ts : Nat) :
    Server :=
  ((((s.tick.write [.deleteDirEntry p n, .deleteInode c, .deleteDataLocation c]).parentDeltas cfg p
    (touchDeltas ts)).clearDeltas c).cacheInvalidate c).touch p (touchDeltas ts)

/-- A committed `unlink` that keeps the target's record as `iv`; at link count 0 the deletion
is pending. -/
def Server.unlinkedKeep (cfg : Config) (s : Server) (p : Inode) (n : Name) (c : Inode)
    (iv : InodeValue) (ts : Nat) : Server :=
  let s := ((s.tick.tick.write [.deleteDirEntry p n, .putInode c iv]).parentDeltas cfg p
    (touchDeltas ts)).cachePut c iv
  (if iv.nlink = 0 then s.pendingInsert c else s).touch p (touchDeltas ts)

theorem exec_unlink (p : Inode) (n : Name) :
    exec cfg (unlink cfg p n) ({}, s) =
      if n.length > NAME_MAX then (.error .nameTooLong, {}, s)
      else match s.db.unlinkCheck p n with
        | .error e => (.error e, {}, s)
        | .ok (v, civ) =>
            if civ.nlink - 1 = 0 ∧ s.handles v.inode = 0 then
              (.ok [v.inode], {}, s.unlinkedDrop cfg p n v.inode (cfg.clock s.ticks))
            else
              let iv := { civ with nlink := civ.nlink - 1, ctime := cfg.clock s.ticks }
              (.ok [], {}, s.unlinkedKeep cfg p n v.inode iv (cfg.clock (s.ticks + 1))) := by
  unfold unlink Db.unlinkCheck
  rw [exec_bind, exec_validateName]
  by_cases hn : n.length > NAME_MAX
  · simp [hn]
  simp only [hn, if_false]
  cases he : s.db.entry p n with
  | none => exact exec_retry_error cfg s (by simp) (by simp [exec_bind, he])
  | some v =>
      by_cases hd : isDir v.mode
      · refine (exec_retry_error cfg s (e := .isADirectory) (t := s) (by simp) ?_).trans ?_
        · simp [exec_bind, he, hd]
        · simp [hd]
      cases hi : s.db.inode v.inode with
      | none =>
          refine (exec_retry_error cfg s (e := .notFound) (t := s) (by simp) ?_).trans ?_
          · simp [exec_bind, he, hd, hi]
          · simp [hd, hi]
      | some civ =>
          by_cases hz : civ.nlink - 1 = 0
          · by_cases hh : s.handles v.inode = 0
            · refine (exec_retry_ok cfg s (a := (some (v.inode, false), cfg.clock s.ticks))
                (t := (((s.tick.write [.deleteDirEntry p n, .deleteInode v.inode,
                  .deleteDataLocation v.inode]).parentDeltas cfg p
                  (touchDeltas (cfg.clock s.ticks))).clearDeltas v.inode).cacheInvalidate v.inode)
                ?_).trans ?_
              · simp [exec_bind, he, hd, hi, unlinkChild, hz, hh]
                rfl
              · simp [hd, hi, hz, hh, exec_bind]
                rfl
            · have hh' : 0 < s.handles v.inode := Nat.pos_of_ne_zero hh
              refine (exec_retry_ok cfg s
                (a := (some (v.inode, true), cfg.clock (s.ticks + 1)))
                (t := ((s.tick.tick.write [.deleteDirEntry p n, .putInode v.inode
                  { civ with nlink := civ.nlink - 1, ctime := cfg.clock s.ticks }]).parentDeltas cfg p
                  (touchDeltas (cfg.clock (s.ticks + 1)))).cachePut v.inode
                  { civ with nlink := civ.nlink - 1, ctime := cfg.clock s.ticks }) ?_).trans ?_
              · simp [exec_bind, he, hd, hi, unlinkChild, hz, hh']
                exact ⟨rfl, rfl⟩
              · simp [hd, hi, hz, hh, exec_bind, Server.unlinkedKeep]
                rfl
          · refine (exec_retry_ok cfg s (a := (none, cfg.clock (s.ticks + 1)))
              (t := ((s.tick.tick.write [.deleteDirEntry p n, .putInode v.inode
                { civ with nlink := civ.nlink - 1, ctime := cfg.clock s.ticks }]).parentDeltas cfg p
                (touchDeltas (cfg.clock (s.ticks + 1)))).cachePut v.inode
                { civ with nlink := civ.nlink - 1, ctime := cfg.clock s.ticks }) ?_).trans ?_
            · simp [exec_bind, he, hd, hi, unlinkChild, hz]
              exact ⟨rfl, rfl⟩
            · simp [hd, hi, hz, exec_bind, Server.unlinkedKeep]
              rfl

/-- The checks of `rmdir`: the entry of an empty directory with a stored record. -/
def Db.rmdirCheck (db : Db) (p : Inode) (n : Name) : FsResult DirValue :=
  match db.entry p n with
  | none => .error .notFound
  | some v =>
      if isDir v.mode then
        match db.inode v.inode with
        | none => .error .notFound
        | some _ => if db.isDirEmpty v.inode then .ok v else .error .directoryNotEmpty
      else .error .notADirectory

/-- A committed `rmdir` of directory `c`. -/
def Server.rmdired (cfg : Config) (s : Server) (p : Inode) (n : Name) (c : Inode) (ts : Nat) :
    Server :=
  ((((s.tick.write [.deleteDirEntry p n, .deleteInode c]).parentDeltas cfg p
    (.incrementNlink (-1) :: touchDeltas ts)).clearDeltas c).cacheInvalidate c).touch p
      (.incrementNlink (-1) :: touchDeltas ts)

theorem exec_rmdir (p : Inode) (n : Name) :
    exec cfg (rmdir cfg p n) ({}, s) =
      if n.length > NAME_MAX then (.error .nameTooLong, {}, s)
      else match s.db.rmdirCheck p n with
        | .error e => (.error e, {}, s)
        | .ok v => (.ok (), {}, s.rmdired cfg p n v.inode (cfg.clock s.ticks)) := by
  unfold rmdir Db.rmdirCheck
  rw [exec_bind, exec_validateName]
  by_cases hn : n.length > NAME_MAX
  · simp [hn]
  simp only [hn, if_false]
  cases he : s.db.entry p n with
  | none => exact exec_retry_error cfg s (by simp) (by simp [exec_bind, he])
  | some v =>
      by_cases hd : isDir v.mode
      · cases hi : s.db.inode v.inode with
        | none =>
            refine (exec_retry_error cfg s (e := .notFound) (t := s) (by simp) ?_).trans ?_
            · simp [exec_bind, he, hd, hi]
            · simp [hd, hi]
        | some civ =>
            by_cases hemp : s.db.isDirEmpty v.inode
            · refine (exec_retry_ok cfg s (a := cfg.clock s.ticks)
                (t := ((s.tick.write [.deleteDirEntry p n, .deleteInode v.inode]).parentDeltas cfg p
                  (.incrementNlink (-1) :: touchDeltas (cfg.clock s.ticks))).clearDeltas
                    v.inode |>.cacheInvalidate v.inode) ?_).trans ?_
              · simp [exec_bind, he, hd, hi, hemp, handle]
                rfl
              · simp [hd, hi, hemp, exec_bind]
                rfl
            · refine (exec_retry_error cfg s (e := .directoryNotEmpty) (t := s) (by simp) ?_).trans ?_
              · simp [exec_bind, he, hd, hi, hemp]
              · simp [hd, hi, hemp]
      · refine (exec_retry_error cfg s (e := .notADirectory) (t := s) (by simp) ?_).trans ?_
        · simp [exec_bind, he, hd]
        · simp [hd]

/-! ## Rename -/

/-- The records that `lockInodes` keeps. -/
def Db.lockedValues (db : Db) (ids : List Inode) : List (Inode × InodeValue) :=
  ids.filterMap fun i => (db.inode i).map fun iv => (i, iv)

theorem Db.lookup_lockedValues (db : Db) {ids : List Inode} {i : Inode} (h : i ∈ ids) :
    (db.lockedValues ids).lookup i = db.inode i := by
  induction ids with
  | nil => cases h
  | cons j ids ih =>
      by_cases hij : i = j
      · subst hij
        cases hi : db.inode i with
        | some iv => simp [lockedValues, hi]
        | none =>
            by_cases hm : i ∈ ids
            · simpa [lockedValues, hi] using ih hm
            · have hne : ∀ p ∈ db.lockedValues ids, (i != p.1) = true := by
                intro p hp
                obtain ⟨j, hj, hjp⟩ := List.mem_filterMap.1 hp
                obtain ⟨iv, -, rfl⟩ := Option.map_eq_some_iff.1 hjp
                simpa using fun e : i = j => hm (e ▸ hj)
              simpa [lockedValues, hi] using List.lookup_eq_none_iff.2 hne
      · have hm : i ∈ ids := (List.mem_cons.1 h).resolve_left hij
        cases hj : db.inode j with
        | some iv =>
            have hb : (i == j) = false := by simpa using hij
            simpa [lockedValues, hj, List.lookup_cons, hb] using ih hm
        | none => simpa [lockedValues, hj] using ih hm

theorem mem_renameInodeIds_src (p np src : Inode) (dst : Option DirValue) :
    src ∈ renameInodeIds p np src dst := by
  unfold renameInodeIds
  simp only [List.mem_dedup, List.mem_insertionSort]
  split <;> split <;> split <;> simp

theorem mem_renameInodeIds_dst (p np src : Inode) (d : DirValue) :
    d.inode ∈ renameInodeIds p np src (some d) := by
  unfold renameInodeIds
  simp only [List.mem_dedup, List.mem_insertionSort]
  split <;> split <;> simp

theorem mem_renameInodeIds {p np src : Inode} {dst : Option DirValue} {i : Inode}
    (h : i ∈ renameInodeIds p np src dst) :
    i = src ∨ (∃ d, dst = some d ∧ i = d.inode) ∨ i = p ∨ i = np := by
  unfold renameInodeIds at h
  simp only [List.mem_dedup, List.mem_insertionSort] at h
  cases dst with
  | none =>
      dsimp only at h
      split at h <;> split at h <;> simp at h <;> grind
  | some d =>
      dsimp only at h
      split at h <;> split at h <;> simp at h <;> grind

/-- The inodes are locked in ascending order. -/
theorem renameInodeIds_sorted (p np src : Inode) (dst : Option DirValue) :
    (renameInodeIds p np src dst).Pairwise (· < ·) := by
  unfold renameInodeIds
  have hsort := fun ids : List Inode => (List.pairwise_insertionSort (· ≤ ·) ids).sublist (List.dedup_sublist _)
  refine (hsort _).imp₂ (fun a b hle hne => Nat.lt_of_le_of_ne hle hne) (List.nodup_dedup _)

theorem exec_lockInodes (ids : List Inode) : ∀ tx : Txn, ∃ tx',
    exec cfg (lockInodes ids) (tx, s) =
      (.ok ((s.db.applyBatch tx.batch).lockedValues ids), tx', s) ∧ tx'.batch = tx.batch := by
  induction ids with
  | nil => exact fun tx => ⟨tx, rfl, rfl⟩
  | cons i ids ih =>
      intro tx
      obtain ⟨tx', h, hb⟩ := ih
        { tx with locks := .inode i :: tx.locks, inodeReads := (i, s.db.inode i) :: tx.inodeReads }
      refine ⟨tx', ?_, hb⟩
      unfold lockInodes
      rw [exec_bind, exec_getForUpdateInode]
      dsimp only
      rw [exec_bind, h]
      cases hi : (s.db.applyBatch tx.batch).inode i <;> simp [Db.lockedValues, hi]

/-- The checks of `rename` against the destination. -/
def Db.renameVictim (db : Db) (srcIsDir : Bool) (ts : Nat) : Option DirValue → FsResult Victim
  | none => .ok {}
  | some d =>
      if srcIsDir && !isDir d.mode then .error .notADirectory
      else if !srcIsDir && isDir d.mode then .error .isADirectory
      else if isDir d.mode then
        if db.isDirEmpty d.inode then .ok { wasDir := true } else .error .directoryNotEmpty
      else match db.inode d.inode with
        | none => .error .notFound
        | some iv =>
            if iv.nlink > 1 then
              .ok { keep := some (d.inode, { iv with nlink := iv.nlink - 1, ctime := ts }) }
            else .ok { delete := some d.inode }

/-- The checks of `rename` on the source: its inode number and record. -/
def Db.renameSource (db : Db) (p : Inode) (n : Name) : FsResult (Inode × InodeValue) :=
  match db.entry p n with
  | none => .error .notFound
  | some v =>
      match db.inode v.inode with
      | none => .error .notFound
      | some iv => .ok (v.inode, iv)

/-- A replaced destination leaves the delta store and the cache. -/
def Server.forget (s : Server) : Option DirValue → Server
  | some d => (s.clearDeltas d.inode).cacheInvalidate d.inode
  | none => s

/-- A committed rename transaction that wrote the deltas `dss`. -/
def Server.renameCommitted (cfg : Config) (s : Server) (p : Inode) (n : Name) (np : Inode) (nn : Name)
    (src : Inode) (srcIv : InodeValue) (vic : Victim) (dss : List (Inode × List DeltaOp)) : Server :=
  let ts := cfg.clock s.ticks
  let dst := s.db.entry np nn
  (((s.tick.write (renameOps p n np nn src srcIv dst vic ts)).parentDeltasAll cfg dss).forget
    dst).cachePut src { srcIv with ctime := ts }

/-- Outcome of the transaction of `rename`. -/
def Server.renaming (cfg : Config) (s : Server) (p : Inode) (n : Name) (np : Inode) (nn : Name) :
    FsResult (Option Inode × List (Inode × List DeltaOp)) × Server :=
  match s.db.renameSource p n with
  | .error e => (.error e, s)
  | .ok (src, srcIv) =>
      -- the clock is read before the destination is checked
      match s.db.renameVictim (isDir srcIv.mode) (cfg.clock s.ticks) (s.db.entry np nn) with
      | .error e => (.error e, s.tick)
      | .ok vic =>
          let dss := renameDeltas p np (isDir srcIv.mode) vic.wasDir (cfg.clock s.ticks)
          (.ok (vic.delete, dss), s.renameCommitted cfg p n np nn src srcIv vic dss)

theorem exec_renameTarget (tx : Txn) (srcIsDir : Bool) (ts : Nat) (dst : Option DirValue)
    (values : List (Inode × InodeValue)) (hb : tx.batch = [])
    (hv : ∀ d, dst = some d → values.lookup d.inode = s.db.inode d.inode) :
    (∃ e tx', e ≠ .transactionConflict ∧ s.db.renameVictim srcIsDir ts dst = .error e ∧
      exec cfg (renameTarget srcIsDir ts values dst) (tx, s) = (.error e, tx', s)) ∨
    (∃ vic tx', s.db.renameVictim srcIsDir ts dst = .ok vic ∧ tx'.batch = vic.ops ∧
      exec cfg (renameTarget srcIsDir ts values dst) (tx, s) =
        (.ok (vic.delete, vic.wasDir), tx', s)) := by
  cases dst with
  | none => exact Or.inr ⟨{}, tx, rfl, hb, rfl⟩
  | some d =>
      have hv := hv d rfl
      unfold renameTarget Db.renameVictim
      cases hs : srcIsDir <;> cases hd : isDir d.mode
      case false.true =>
        exact Or.inl ⟨.isADirectory, tx, by simp, by simp [hd], by simp [exec_bind, hd]⟩
      case true.false =>
        exact Or.inl ⟨.notADirectory, tx, by simp, by simp [hd], by simp [exec_bind, hd]⟩
      case true.true =>
        by_cases hemp : s.db.isDirEmpty d.inode
        · refine Or.inr ⟨{ wasDir := true }, { tx with emptyChecks := d.inode :: tx.emptyChecks },
            by simp [hd, hemp], hb, ?_⟩
          simp [exec_bind, hd, hb, hemp, handle]
        · refine Or.inl ⟨.directoryNotEmpty, (handle cfg (.isDirEmpty d.inode) (tx, s)).2.1,
            by simp, by simp [hd, hemp], ?_⟩
          simp [exec_bind, hd, hb, hemp]
      case false.false =>
        cases hi : s.db.inode d.inode with
        | none => exact Or.inl ⟨.notFound, tx, by simp, by simp [hd, hi], by simp [exec_bind, hd, hv, hi]⟩
        | some iv =>
            by_cases hl : iv.nlink > 1
            · let iv' := { iv with nlink := iv.nlink - 1, ctime := ts }
              let op := BatchOp.putInode d.inode iv'
              refine Or.inr ⟨{ keep := some (d.inode, iv') },
                { tx with batch := tx.batch ++ [op], locks := op.row :: tx.locks },
                by simp [hd, hi, hl, iv'], by simp [hb, Victim.ops, op], ?_⟩
              simp [exec_bind, hd, hv, hi, hl, op, iv']
            · exact Or.inr ⟨{ delete := some d.inode }, tx, by simp [hd, hi, hl], hb,
                by simp [exec_bind, hd, hv, hi, hl]⟩

theorem exec_removeDst (tx : Txn) (np : Inode) (nn : Name) (del : Option Inode)
    (dst : Option DirValue) :
    ∃ tx', exec cfg (removeDst np nn del dst) (tx, s) = (.ok (), tx', s) ∧
      tx'.batch = tx.batch ++ removeDstOps np nn del dst := by
  cases dst with
  | none => exact ⟨tx, rfl, by simp [removeDstOps]⟩
  | some d => cases del <;> exact ⟨_, rfl, by simp [removeDstOps]⟩

theorem exec_forgetDst (tx : Txn) (dst : Option DirValue) :
    exec cfg (forgetDst dst) (tx, s) = (.ok (), tx, s.forget dst) := by
  cases dst <;> rfl

theorem exec_renameTxn (p : Inode) (n : Name) (np : Inode) (nn : Name) :
    (s.renaming cfg p n np nn).1 ≠ .error .transactionConflict ∧
    ∃ tx', exec cfg (renameTxn cfg p n np nn) ({}, s) =
      ((s.renaming cfg p n np nn).1, tx', (s.renaming cfg p n np nn).2) := by
  unfold renameTxn Server.renaming Db.renameSource
  rw [exec_bind, exec_getForUpdateDirEntry]
  dsimp only [Db.applyBatch_nil]
  cases he : s.db.entry p n with
  | none => exact ⟨by simp, _, rfl⟩
  | some v =>
      let ids := renameInodeIds p np v.inode (s.db.entry np nn)
      let tx₀ : Txn :=
        { locks := [.dirEntry np nn, .dirEntry p n]
          dirReads := [(np, nn, s.db.entry np nn), (p, n, some v)] }
      obtain ⟨tx₁, hlock, hb₁⟩ := exec_lockInodes cfg s ids tx₀
      have hlook : ∀ i ∈ ids, (s.db.lockedValues ids).lookup i = s.db.inode i :=
        fun i hi => s.db.lookup_lockedValues hi
      have hsrc := hlook v.inode (mem_renameInodeIds_src _ _ _ _)
      have hdst : ∀ d, s.db.entry np nn = some d →
          (s.db.lockedValues ids).lookup d.inode = s.tick.db.inode d.inode := fun d hd =>
        hlook d.inode (by simp only [ids, hd]; exact mem_renameInodeIds_dst _ _ _ _)
      rw [exec_bind, exec_orNotFound]
      dsimp only
      rw [exec_bind, exec_getForUpdateDirEntry]
      dsimp only [Db.applyBatch_nil]
      simp only [ids, tx₀] at hlock
      rw [exec_bind, hlock]
      dsimp only [Db.applyBatch_nil]
      rw [exec_bind, exec_orNotFound, hsrc]
      cases hi : s.db.inode v.inode with
      | none => exact ⟨by simp, _, rfl⟩
      | some srcIv =>
          dsimp only
          rw [exec_bind, exec_nowSecs]
          dsimp only
          rw [exec_bind]
          have htick : s.tick.db = s.db := rfl
          rcases exec_renameTarget cfg s.tick tx₁ (isDir srcIv.mode) (cfg.clock s.ticks)
            (s.db.entry np nn) (s.db.lockedValues ids) hb₁ hdst with
            ⟨e, tx₂, hne, hvic, hex⟩ | ⟨vic, tx₂, hvic, hb₂, hex⟩
          · rw [htick] at hvic
            rw [hex, hvic]
            exact ⟨by simpa using hne, _, rfl⟩
          · rw [htick] at hvic
            obtain ⟨tx₃, hrem, hb₃⟩ :=
              exec_removeDst cfg s.tick tx₂ np nn vic.delete (s.db.entry np nn)
            rw [hex, hvic]
            dsimp only
            rw [exec_bind, hrem]
            refine ⟨by simp, ?_⟩
            simp [exec_bind, exec_forgetDst, hb₃, hb₂, Server.renameCommitted, renameOps]

theorem exec_rename (p : Inode) (n : Name) (np : Inode) (nn : Name) :
    exec cfg (rename cfg p n np nn) ({}, s) =
      if n.length > NAME_MAX then (.error .nameTooLong, {}, s)
      else if nn.length > NAME_MAX then (.error .nameTooLong, {}, s)
      else match s.renaming cfg p n np nn with
        | (.error e, s') => (.error e, {}, s')
        | (.ok (del, dss), s') => (.ok del.toList, {}, s'.touchAll dss) := by
  unfold rename
  rw [exec_bind, exec_validateName]
  by_cases hn : n.length > NAME_MAX
  · simp [hn]
  simp only [hn, if_false]
  rw [exec_bind, exec_validateName]
  by_cases hnn : nn.length > NAME_MAX
  · simp [hnn]
  simp only [hnn, if_false]
  obtain ⟨hne, htxn⟩ := exec_renameTxn cfg s p n np nn
  rw [exec_bind, exec_executeWithRetry cfg s htxn hne]
  rcases s.renaming cfg p n np nn with ⟨r, s'⟩
  cases r with
  | error e => rfl
  | ok r => simp [exec_bind, exec_forM_touch]

/-! ## Reads -/

theorem exec_getattr (i : Inode) :
    exec cfg (getattr i) ({}, s) =
      ((s.load i).1.map InodeValue.toAttr, {}, (s.load i).2) := by
  unfold getattr
  rw [exec_bind, exec_loadInode]
  rcases s.load i with ⟨r, s'⟩
  cases r <;> rfl

theorem exec_lookup (p : Inode) (n : Name) :
    exec cfg (lookup p n) ({}, s) =
      if n.length > NAME_MAX then (.error .nameTooLong, {}, s)
      else match s.db.entry p n with
        | none => (.error .notFound, {}, s)
        | some v => ((s.load v.inode).1.map InodeValue.toAttr, {}, (s.load v.inode).2) := by
  unfold lookup
  rw [exec_bind, exec_validateName]
  by_cases hn : n.length > NAME_MAX
  · simp [hn]
  simp only [hn, if_false]
  show exec cfg (orNotFound ((s.db.entry p n).map (·.inode)) >>= _) ({}, s) = _
  cases he : s.db.entry p n with
  | none => rfl
  | some v => exact exec_getattr cfg s v.inode

theorem exec_readdir (i : Inode) :
    exec cfg (readdir i) ({}, s) =
      ((s.load i).1.bind fun iv =>
        if isDir iv.mode then .ok (s.db.listDir i) else .error .notADirectory, {}, (s.load i).2) := by
  obtain ⟨c, hc⟩ := s.load_snd i
  unfold readdir
  rw [exec_bind, exec_loadInode]
  rcases hl : s.load i with ⟨r, s'⟩
  rw [hl] at hc
  have hdb : s'.db = s.db := by rw [show s' = _ from hc]
  cases r with
  | error e => rfl
  | ok iv =>
      have hlist : exec cfg (listDir i) ({}, s') = (.ok (s'.db.listDir i), {}, s') := rfl
      cases hd : isDir iv.mode
      · simp [exec_bind, hd, Except.bind]
      · simp [hd, Except.bind, hlist, hdb]

theorem exec_readlink (i : Inode) :
    ∃ r, exec cfg (readlink i) ({}, s) = (r, {}, (s.load i).2) := by
  unfold readlink
  rw [exec_bind, exec_loadInode]
  rcases s.load i with ⟨r, s'⟩
  cases r with
  | error e => exact ⟨_, rfl⟩
  | ok iv =>
      have hget : exec cfg (getSymlink i) ({}, s') = (.ok (s'.db.symlinks.get i), {}, s') := rfl
      cases hd : isSymlink iv.mode
      · exact ⟨.error (.invalidInput "not a symbolic link"), by simp [exec_bind, hd]⟩
      · cases hs : s'.db.symlinks.get i with
        | none =>
            exact ⟨.error (.io s!"symlink target not found for inode {i}"),
              by simp [exec_bind, hd, hget, hs]⟩
        | some target => exact ⟨.ok target, by simp [exec_bind, hd, hget, hs]⟩

/-! ## Record updates -/

/-- A committed rewrite of one record, which then replaces the cached value. -/
def Server.rewritten (s : Server) (i : Inode) (iv : InodeValue) : Server :=
  (s.write [.putInode i iv]).cachePut i iv

/-- The record `setattr` stores, and whether the data must be truncated. -/
def SetAttrRequest.apply (req : SetAttrRequest) (ts : Nat) (raw : InodeValue) : InodeValue × Bool :=
  let sized := req.applySize ts (req.applyFields raw)
  ({ sized.1 with ctime := ts }, sized.2)

/-- `setattr` with a size stores that size and asks for a truncation when the file was longer. -/
theorem SetAttrRequest.applySize_some {req : SetAttrRequest} {z : Nat} (hreq : req.size = some z) (ts : Nat)
    (raw : InodeValue) :
    (req.applySize ts (req.applyFields raw)).1.size = z ∧
      (req.applySize ts (req.applyFields raw)).2 = decide (z < raw.size) := by
  unfold SetAttrRequest.applySize
  rw [hreq]
  dsimp only
  have hraw : (req.applyFields raw).size = raw.size := rfl
  split
  · exact ⟨rfl, by rw [hraw]⟩
  · rename_i hne
    have hz : z = raw.size := by simpa [hraw] using hne
    exact ⟨hz ▸ hraw, by simp [hz]⟩

theorem exec_setattr (i : Inode) (req : SetAttrRequest) :
    exec cfg (setattr i req) ({}, s) =
      match s.db.inode i with
      | none => (.error .notFound, {}, s)
      | some raw =>
          let out := req.apply (cfg.clock s.ticks) raw
          (.ok ⟨out.1.toAttr, if out.2 then req.size else none⟩, {}, s.tick.rewritten i out.1) := by
  unfold setattr
  cases hi : s.db.inode i with
  | none => exact exec_retry_error cfg s (by simp) (by simp [exec_bind, hi])
  | some raw =>
      let out := req.apply (cfg.clock s.ticks) raw
      refine exec_retry_ok cfg s (a := (out.1.toAttr, out.2)) (t := s.tick.rewritten i out.1) ?_
      simp [exec_bind, hi]
      exact ⟨⟨rfl, rfl⟩, rfl⟩

/-- The record `report_write` stores. -/
def InodeValue.written (raw : InodeValue) (newSize mtime : Nat) : InodeValue :=
  { raw with size := max raw.size newSize, mtime := mtime, ctime := mtime }

theorem exec_reportWrite (i : Inode) (newSize mtime : Nat) :
    exec cfg (reportWrite i newSize mtime) ({}, s) =
      match s.db.inode i with
      | none => (.error .notFound, {}, s)
      | some raw => (.ok (), {}, s.rewritten i (raw.written newSize mtime)) := by
  unfold reportWrite
  cases hi : s.db.inode i with
  | none => exact exec_executeWithRetry cfg s (by simp [exec_bind, hi]) (by simp)
  | some raw =>
      refine exec_executeWithRetry cfg s ?_ (by simp)
      simp [exec_bind, hi]
      rfl

/-! ## Handles -/

/-- The record `open` stores for `O_TRUNC`. -/
def InodeValue.truncated (raw : InodeValue) (ts : Nat) : InodeValue :=
  { raw with size := 0, mtime := ts, ctime := ts }

/-- The last steps of `open`. -/
def Server.opened (cfg : Config) (s : Server) (i : Inode) : OpenResponse × Server :=
  (⟨i, ⟨(s.db.dataLocations.get i).getD cfg.defaultDataLocation.serverId⟩⟩, s.handleIncr i)

theorem exec_openFile (i : Inode) (flags : Nat) :
    exec cfg (openFile cfg i flags) ({}, s) =
      match s.load i with
      | (.error e, s') => (.error e, {}, s')
      | (.ok iv, s') =>
          if isDir iv.mode then (.error .isADirectory, {}, s')
          else if flags &&& O_TRUNC != 0 && iv.size > 0 then
            match s'.db.inode i with
            | none => (.error .notFound, {}, s')
            | some raw =>
                let out := (s'.tick.rewritten i (raw.truncated (cfg.clock s'.ticks))).opened cfg i
                (.ok out.1, {}, out.2)
          else
            let out := s'.opened cfg i
            (.ok out.1, {}, out.2) := by
  unfold openFile
  rw [exec_bind, exec_loadInode]
  rcases s.load i with ⟨r, s'⟩
  cases r with
  | error e => rfl
  | ok iv =>
      dsimp only
      by_cases hd : isDir iv.mode
      · simp [exec_bind, hd]
      by_cases ht : flags &&& O_TRUNC != 0 && iv.size > 0
      · simp only [hd, ht]
        cases hi : s'.db.inode i with
        | none => exact exec_retry_error cfg s' (by simp) (by simp [exec_bind, hi])
        | some raw =>
            refine exec_retry_ok cfg s' (a := ())
              (t := s'.tick.rewritten i (raw.truncated (cfg.clock s'.ticks))) ?_
            simp [exec_bind, hi]
            rfl
      · simp only [hd, ht]
        rfl

/-- A `release` that removes the record of a pending inode. -/
def Server.dropped (s : Server) (i : Inode) : Server :=
  ((s.write [.deleteInode i, .deleteDataLocation i]).clearDeltas i).cacheInvalidate i

theorem exec_release (i : Inode) :
    exec cfg (release i) ({}, s) =
      if (s.checkAndClearDeferredDelete i).1 then
        (.ok [i], {}, (s.checkAndClearDeferredDelete i).2.dropped i)
      else (.ok [], {}, (s.checkAndClearDeferredDelete i).2) := by
  unfold release
  rw [exec_bind]
  show exec cfg (if (s.checkAndClearDeferredDelete i).1 then _ else _)
    ({}, (s.checkAndClearDeferredDelete i).2) = _
  by_cases hp : (s.checkAndClearDeferredDelete i).1
  · simp only [hp, if_true]
    refine exec_retry_ok cfg _ (a := ()) (t := (s.checkAndClearDeferredDelete i).2.write
      [.deleteInode i, .deleteDataLocation i]) ?_
    simp [exec_bind]
  · simp only [hp]
    rfl

/-! ## Compaction -/

/-- A committed compaction of `base`. -/
def Server.compacted (s : Server) (i : Inode) (base : InodeValue) : Server :=
  (s.write (.putInode i (foldDeltas base (s.db.deltas i)) ::
    (s.db.scanDeltas i).map fun p => .deleteDelta i p.1)).cacheInvalidate i

theorem exec_forceCompactInode (i : Inode) (tx : Txn) :
    ∃ tx', exec cfg (forceCompactInode i) (tx, s) =
      if (s.db.scanDeltas i).isEmpty then (.ok false, tx', s)
      else match s.db.inode i with
        | none => (.ok false, tx', s)
        | some base => (.ok true, tx', s.compacted i base) := by
  unfold forceCompactInode
  rw [exec_bind]
  show ∃ tx', exec cfg (if (s.db.scanDeltas i).isEmpty then pure false else withBatch _)
    ({ tx with scanned := some (i, s.db.scanDeltas i) }, s) = _
  by_cases hk : (s.db.scanDeltas i).isEmpty
  · simp [hk]
  · simp only [hk]
    rw [if_neg (by simp), exec_withBatch]
    refine ⟨{}, ?_⟩
    rw [exec_bind, exec_getForUpdateInode]
    dsimp only [Db.applyBatch_nil]
    cases hi : s.db.inode i with
    | none => rfl
    | some base =>
        have hcommit : ∀ st : Txn × Server, exec cfg (ExceptT.lift commit.run : Op _) st =
            (.ok (.ok ()), { retired := st.1.retiring }, st.2.write st.1.batch) := fun _ => rfl
        simp [exec_bind, exec_forM_push, hcommit, Server.compacted, Db.deltas]

end RucksFs
