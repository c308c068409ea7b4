import RucksFs.Orphans
import RucksFs.SideRecords

/-!
# The consistency checker (`server/src/fsck.rs`)

`check` recomputes the references to every inode by listing every directory, compares them with the
stored link counts, and compares the stored allocator counter with the largest inode number.

* `fsck_report` — after every run of creations, links, unlinks and rmdirs the totals are right, and the
  report is clean exactly when no object is stored whose number is at or above the last multiple of 64
  that the allocator has passed.
* `fsck_counter_behind` — 63 creations are reported as an inconsistency.
-/

set_option autoImplicit false

namespace RucksFs

open Server

/-- `FsckIssueKind`. -/
inductive FsckIssueKind where
  | orphanInode
  | nlinkMismatch
  | counterInconsistency
  deriving DecidableEq, Repr

/-- `FsckIssue`. -/
structure FsckIssue where
  inode : Inode
  kind : FsckIssueKind
  detail : String
  deriving DecidableEq, Repr

/-- `FsckReport`. -/
structure FsckReport where
  issues : List FsckIssue
  totalInodes : Nat
  totalDirEntries : Nat
  deriving DecidableEq, Repr

namespace Fsck

/-- Phase 1: the largest inode number. -/
def maxInode (db : Db) : Inode :=
  db.inodes.toList.foldl (fun m b => if b.1 > m then b.1 else m) 0

/-- Phase 2: the directories.  The whole type field is compared, not one bit as in `is_dir`. -/
def dirInodes (db : Db) : List Inode :=
  (db.inodes.toList.filter fun b => fileType b.2.mode == S_IFDIR).map (·.1)

/-- Phase 2: the children of all directories. -/
def children (db : Db) : List DirEntry := (dirInodes db).flatMap db.listDir

/-- `referenced_inodes.get`: the references are counted in a `u32`. -/
def referenced (db : Db) (i : Inode) : Option Nat :=
  let count := (children db).countP (·.inode == i)
  if count = 0 then none else some (count % U32_SIZE)

/-- Phase 3. -/
def orphan (db : Db) (b : Inode × InodeValue) : Option FsckIssue :=
  if b.1 = ROOT_INODE then none
  else if (referenced db b.1).isSome then none
  else some
    { inode := b.1
      kind := .orphanInode
      detail := "inode " ++ toString b.1 ++ " has no directory entry references" }

/-- Phase 4. -/
def nlinkMismatch (db : Db) (b : Inode × InodeValue) : Option FsckIssue :=
  if fileType b.2.mode == S_IFDIR then none
  else
    let expectedRefs := (referenced db b.1).getD 0
    if b.2.nlink ≠ expectedRefs then some
      { inode := b.1
        kind := .nlinkMismatch
        detail := "inode " ++ toString b.1 ++ " has nlink=" ++ toString b.2.nlink ++ " but " ++
          toString expectedRefs ++ " directory references" }
    else none

/-- Phase 5. -/
def counterIssue (db : Db) : Option FsckIssue :=
  match db.nextInode with
  | some storedNext =>
      if storedNext ≤ maxInode db then some
        { inode := 0
          kind := .counterInconsistency
          detail := "next_inode counter (" ++ toString storedNext ++ ") <= max existing inode (" ++
            toString (maxInode db) ++ ")" }
      else none
  | none => none

/-- `fsck::check`.  The hash maps are walked in key order here; the source's order is not fixed. -/
def check (db : Db) : FsckReport where
  issues := db.inodes.toList.filterMap (orphan db) ++ db.inodes.toList.filterMap (nlinkMismatch db) ++
    (counterIssue db).toList
  totalInodes := db.inodes.toList.length
  totalDirEntries := (children db).length

/-! ## The checker on a database with entries under directories only -/

theorem maxInode_le {db : Db} {m : Nat} : maxInode db ≤ m ↔ ∀ i iv, db.inode i = some iv → i ≤ m := by
  have hfold : ∀ (l : List (Inode × InodeValue)) (k : Nat),
      l.foldl (fun m b => if b.1 > m then b.1 else m) k ≤ m ↔ k ≤ m ∧ ∀ b ∈ l, b.1 ≤ m := by
    intro l
    induction l with
    | nil => simp
    | cons b l ih =>
        intro k
        rw [List.foldl_cons, ih]
        constructor
        · rintro ⟨hk, hl⟩
          split at hk
          · exact ⟨by omega, List.forall_mem_cons.2 ⟨hk, hl⟩⟩
          · rename_i hb
            exact ⟨hk, List.forall_mem_cons.2 ⟨Nat.le_trans (Nat.le_of_not_lt hb) hk, hl⟩⟩
        · rintro ⟨hk, hl⟩
          obtain ⟨hb, hl⟩ := List.forall_mem_cons.1 hl
          refine ⟨?_, hl⟩
          split <;> assumption
  unfold maxInode
  rw [hfold]
  constructor
  · rintro ⟨-, h⟩ i iv hi
    exact h (i, iv) (OrdMap.mem_toList.2 hi)
  · exact fun h => ⟨Nat.zero_le _, fun b hb => h b.1 b.2 (OrdMap.mem_toList.1 hb)⟩

/-- Every entry is under a stored directory. -/
def Rooted (db : Db) : Prop := ∀ p n v, db.entry p n = some v → db.kind p = some S_IFDIR

section

variable {db : Db}

theorem mem_dirInodes {i : Inode} : i ∈ dirInodes db ↔ db.kind i = some S_IFDIR := by
  unfold dirInodes Db.kind
  simp only [List.mem_map, List.mem_filter, beq_iff_eq]
  constructor
  · rintro ⟨b, ⟨hb, ht⟩, rfl⟩
    have hi : db.inode b.1 = some b.2 := OrdMap.mem_toList.1 hb
    rw [hi, Option.map_some, ht]
  · intro h
    obtain ⟨iv, hi, ht⟩ := Option.map_eq_some_iff.1 h
    exact ⟨(i, iv), ⟨OrdMap.mem_toList.2 hi, ht⟩, rfl⟩

theorem nodup_dirInodes : (dirInodes db).Nodup := by
  have hkeys : db.inodes.toList.Pairwise fun a b => a.1 ≠ b.1 :=
    db.inodes.sorted.imp fun h => ne_of_lt h
  exact List.pairwise_map.2 (hkeys.filter _)

/-- The children of the directories are all entries. -/
theorem children_perm (h : Rooted db) :
    (children db).Perm (db.dirEntries.toList.map fun b => ⟨(ofLex b.1).2, b.2.inode, b.2.mode⟩) := by
  have hperm := db.dirEntries.perm_flatMap_slice nodup_dirInodes
    fun a b v hv => mem_dirInodes.2 (h a b v hv)
  have hmap := hperm.map fun b => (⟨(ofLex b.1).2, b.2.inode, b.2.mode⟩ : DirEntry)
  simp only [List.map_flatMap, List.map_map, Function.comp_def, ofLex_toLex] at hmap
  exact hmap

theorem length_children (h : Rooted db) : (children db).length = db.entries := by
  rw [(children_perm h).length_eq, List.length_map]
  rfl

theorem countP_children (h : Rooted db) (i : Inode) :
    (children db).countP (·.inode == i) = db.names i := by
  rw [(children_perm h).countP_eq, List.countP_map]
  rfl

end

/-! ## Runs -/

/-- Calls of the runs considered.  A link that would take the link count out of a `u32` is not among
them. -/
def Serves (s : Server) (c : Call) : Prop :=
  c.ParentsExist s.db ∧
  match c with
  | .create _ _ _ _ _ | .mkdir _ _ _ _ _ | .symlink _ _ _ _ _ | .unlink _ _ | .rmdir _ _ => True
  | .link _ _ t => ∀ iv, s.db.inode t = some iv → iv.nlink + 1 < U32_SIZE
  | _ => False

/-- The multiple of the persist interval that the allocator has passed last. -/
def lastPersist (next : Nat) : Nat := next / PERSIST_INTERVAL * PERSIST_INTERVAL

/-- The invariant of these runs. -/
structure Clean (s : Server) : Prop where
  backed : Backed s
  kept : Kept s
  closed : ∀ i, s.handles i = 0
  kinds : ∀ i t, s.db.kind i = some t → t = S_IFREG ∨ t = S_IFDIR ∨ t = S_IFLNK
  rooted : Rooted s.db
  nlink_lt : ∀ i iv, s.db.inode i = some iv → isDir iv.mode = false → iv.nlink < U32_SIZE
  counter : s.db.nextInode = if s.next < PERSIST_INTERVAL then none else some (lastPersist s.next)

theorem lastPersist_succ (k : Nat) : lastPersist (k + 1) =
    if (k + 1) % PERSIST_INTERVAL = 0 then k + 1 else lastPersist k := by
  unfold lastPersist PERSIST_INTERVAL
  split <;> omega

section

variable {cfg : Config} {s s' : Server} {c : Call} {r : Reply}

theorem Serves.admitted (h : Serves s c) : c.Admitted s := by
  refine ⟨fun i e => ?_, h.1⟩
  subst e
  exact h.2

/-- A directory in the sense of the mode bit is one in the sense of the type field. -/
theorem Clean.kind_of_isDirectory (h : Clean s) {p : Inode} (hp : s.db.IsDirectory p) :
    s.db.kind p = some S_IFDIR := by
  obtain ⟨iv, hi, hd⟩ := hp
  have hk := Db.kind_some hi
  rw [isDir_eq_fileType] at hd
  rcases h.kinds p _ hk with e | e | e
  · rw [e] at hd
    exact absurd hd (by decide)
  · rw [hk, e]
  · rw [e] at hd
    exact absurd hd (by decide)

theorem aside_nextInode : Db.Aside Db.nextInode where
  applyOp db op _ _ := by cases op <;> rfl
  deltas _ _ := rfl

/-- The stored counter after a creation. -/
theorem nextInode_created {p : Inode} {n : Name} {iv : InodeValue} {extra : List BatchOp}
    {ds : List DeltaOp} : (s.created cfg p n iv extra ds).db.nextInode =
      if (s.next + 1) % PERSIST_INTERVAL = 0 then some (s.next + 1) else s.db.nextInode := by
  have hbatch : ∀ (ops : List BatchOp) (db : Db), (db.applyBatch ops).nextInode = db.nextInode := by
    intro ops
    induction ops with
    | nil => exact fun _ => rfl
    | cons op ops ih =>
        intro db
        refine (ih (db.applyOp op)).trans ?_
        cases op <;> rfl
  set t := ({ s with next := s.next + 1 }.tick.write
    (.putInode iv.inode iv :: .putDirEntry p n ⟨iv.inode, iv.mode⟩ :: extra)).parentDeltas cfg p ds with ht
  have hbk : Server.Bookkeeping [p] _ t := .parentDeltas cfg _ ds List.mem_cons_self
  have htn : t.next = s.next + 1 := hbk.next
  have htd : t.db.nextInode = s.db.nextInode :=
    (aside_nextInode.parentDeltas cfg _ p ds).trans (hbatch _ _)
  show t.persist.db.nextInode = _
  unfold Server.persist
  rw [htn]
  split
  · rfl
  · exact htd

end

section

variable {db D : Db} {p : Inode} {n : Name}

theorem Rooted.put (h : Rooted db) {v : DirValue} (hD : D.dirEntries = db.dirEntries.put (toLex (p, n)) v)
    (hp : db.kind p = some S_IFDIR)
    (hk : ∀ j, db.kind j = some S_IFDIR → D.kind j = some S_IFDIR) : Rooted D := by
  intro a b w hw
  rcases Db.entry_some_of_put hD hw with ⟨rfl, -, -⟩ | hold
  · exact hk a hp
  · exact hk a (h a b w hold)

theorem Rooted.erase (h : Rooted db) (hD : D.dirEntries = db.dirEntries.erase (toLex (p, n)))
    (hk : ∀ a b w, D.entry a b = some w → db.kind a = some S_IFDIR → D.kind a = some S_IFDIR) : Rooted D := by
  intro a b w hw
  exact hk a b w hw (h a b w (Db.entry_some_of_erase hD hw).2)

end

section

variable {cfg : Config} {s s' : Server} {c : Call} {r : Reply}

/-- What an effect of these calls does to handles, parents and link counts. -/
theorem Clean.effect (h : Clean s) (hs : Serves s c) (he : Effect s c r s') :
    (∀ i, s'.handles i = 0) ∧ Rooted s'.db ∧
      ∀ i iv, s'.db.inode i = some iv → isDir iv.mode = false → iv.nlink < U32_SIZE := by
  -- the record of one inode is replaced
  have hput : ∀ {D : Db} {t : Inode} {jv : InodeValue}, (∀ j, D.inode j = if j = t then some jv else s.db.inode j) →
      (isDir jv.mode = false → jv.nlink < U32_SIZE) →
      ∀ i iv, D.inode i = some iv → isDir iv.mode = false → iv.nlink < U32_SIZE := by
    intro D t jv hD hlt i iv hi hd
    rw [hD] at hi
    split at hi
    · cases hi
      exact hlt hd
    · exact h.nlink_lt i iv hi hd
  -- the record of one inode goes
  have hdel : ∀ {D : Db} {t : Inode}, (∀ j, D.inode j = if j = t then none else s.db.inode j) →
      ∀ i iv, D.inode i = some iv → isDir iv.mode = false → iv.nlink < U32_SIZE := by
    intro D t hD i iv hi hd
    rw [hD] at hi
    split at hi
    · cases hi
    · exact h.nlink_lt i iv hi hd
  have hU : (1 : Nat) < U32_SIZE := by decide
  cases he with
  | quiet => exact ⟨h.closed, h.rooted, h.nlink_lt⟩
  | @made _ p n iv extra hc hfree hi hx =>
      have hside : ∀ op ∈ extra, op.IsSide := fun op ho => (hx op ho).side
      have hp : s.db.IsDirectory p := hs.1 p (by cases hc <;> exact List.mem_cons_self)
      have hnone : s.db.inode s.next = none := (Effect.fresh_next h.kept.wf.db).1
      refine ⟨h.closed, h.rooted.put (Change.dirEntries_create hside) (h.kind_of_isDirectory hp) fun j hj => ?_,
        hput (Change.inode_create hside) fun hd => ?_⟩
      · have hne : j ≠ s.next := by
          rintro rfl
          unfold Db.kind at hj
          rw [hnone] at hj
          cases hj
        unfold Db.kind
        exact (congrArg _ ((Change.inode_create hside j).trans (if_neg hne))).trans hj
      · cases hc with
        | create hl => omega
        | mkdir _ ht =>
            rw [isDir_eq_fileType, ht] at hd
            exact absurd hd (by decide)
        | symlink hl => omega
  | @link p n t iv ts a hi hd hfree hp =>
      refine ⟨h.closed, h.rooted.put rfl (h.kind_of_isDirectory hp) fun j hj => ?_,
        hput Change.inode_link fun _ => Nat.mod_lt _ (by decide)⟩
      rw [← hj]
      refine Db.kind_of_rewrite hi Change.inode_link ?_ j
      rfl
  | @unlinkKeep p n v iv ts he hd hi hl =>
      refine ⟨h.closed, h.rooted.erase rfl fun a b w _ hj => ?_, hput Change.inode_unlinkKeep fun hf => ?_⟩
      · rw [← hj]
        refine Db.kind_of_rewrite hi Change.inode_unlinkKeep ?_ a
        rfl
      · have := h.nlink_lt _ iv hi hf
        show iv.nlink - 1 < U32_SIZE
        omega
  | unlinkDefer ts he hd hi hl hh => exact absurd (h.closed _) hh
  | @unlinkDrop p n v iv he hd hi hl hh =>
      refine ⟨h.closed, h.rooted.erase rfl fun a b w _ hj => ?_, hdel Change.inode_unlinkDrop⟩
      have hne : a ≠ v.inode := by
        rintro rfl
        rw [Db.kind_some hi, ← h.kept.wf.db.type_eq he hi] at hj
        rw [isDir_eq_fileType, Option.some.inj hj] at hd
        exact absurd hd (by decide)
      exact (Db.kind_of_erase Change.inode_unlinkDrop a).trans ((if_neg hne).trans hj)
  | @rmdir p n v iv he hd hi hemp =>
      refine ⟨h.closed, h.rooted.erase rfl fun a b w hw hj => ?_, hdel Change.inode_rmdir⟩
      have hne : a ≠ v.inode := by
        rintro rfl
        have hw' : s.db.entry v.inode b = some w := by
          have hentry := Db.entry_of_erase (D := s.db.applyBatch [.deleteDirEntry p n, .deleteInode v.inode]) rfl
            v.inode b
          have hkeep : (s.db.applyBatch [.deleteDirEntry p n, .deleteInode v.inode]).entry v.inode b = some w := hw
          rw [hentry] at hkeep
          split at hkeep
          · cases hkeep
          · exact hkeep
        rw [Db.isDirEmpty_iff.1 hemp b] at hw'
        cases hw'
      exact (Db.kind_of_erase Change.inode_rmdir a).trans ((if_neg hne).trans hj)
  | rewrite hc => cases hc <;> exact absurd hs.2 id
  | rename => exact absurd hs.2 id
  | madeOpen => exact absurd hs.2 id
  | opened => exact absurd hs.2 id
  | openedTrunc => exact absurd hs.2 id
  | released => exact absurd hs.2 id
  | releasedDrop => exact absurd hs.2 id

/-- Only the three types are made. -/
theorem Clean.kinds_exec (h : Clean s) (hs : Serves s c) (i : Inode) (t : Nat)
    (ht : (s.exec cfg c).2.db.kind i = some t) : t = S_IFREG ∨ t = S_IFDIR ∨ t = S_IFLNK := by
  by_cases hc : c.makesObject = true
  · rcases exec_makesObject cfg s hc with he | ⟨p, n, iv, extra, ds, hi, hx, he, -⟩ <;> rw [he] at ht
    · exact h.kinds i t ht
    · rw [kind_created hi hx.isPayload] at ht
      split at ht
      · cases ht
        generalize fileType iv.mode = k at hx
        cases hx <;> simp
      · exact h.kinds i t ht
  · have hm : c.MovesApart s.db := by
      cases c with
      | rename => exact absurd hs.2 id
      | _ => trivial
    obtain ⟨s₁, he, hb⟩ := exec_effect cfg s c
    rw [hb.kind] at ht
    rcases he.kind_cases h.kept.wf hm (by simpa using hc) with ⟨hk, -⟩ | ⟨j, hk, -⟩ <;> rw [hk] at ht
    · exact h.kinds i t ht
    · split at ht
      · cases ht
      · exact h.kinds i t ht

/-- The stored counter is the last multiple of the persist interval passed. -/
theorem Clean.counter_exec (h : Clean s) :
    (s.exec cfg c).2.db.nextInode = if (s.exec cfg c).2.next < PERSIST_INTERVAL then none
      else some (lastPersist (s.exec cfg c).2.next) := by
  by_cases hc : c.makesObject = true
  · rcases exec_makesObject cfg s hc with hsame | ⟨p, n, iv, extra, ds, hi, hx, hmade, hnext⟩
    · rw [hsame]
      exact h.counter
    · rw [hmade, hnext, nextInode_created, h.counter, lastPersist_succ]
      have hroot : 2 ≤ s.next := h.kept.wf.db.root_lt
      unfold PERSIST_INTERVAL
      by_cases hm : (s.next + 1) % 64 = 0
      · rw [if_pos hm, if_pos hm, if_neg (by omega)]
      · rw [if_neg hm, if_neg hm]
        by_cases hlt : s.next < 64
        · rw [if_pos hlt, if_pos (by omega)]
        · rw [if_neg hlt, if_neg (by omega)]
  · obtain ⟨s₁, he, hb⟩ := exec_effect cfg s c
    have hnext : s₁.next = s.next := by
      generalize (s.exec cfg c).1 = r at he
      cases he with
      | made hk => cases hk <;> exact absurd rfl hc
      | madeOpen => exact absurd rfl hc
      | released => exact s.checkAndClear_next
      | releasedDrop => exact s.checkAndClear_next
      | _ => rfl
    rw [hb.next, hnext, (exec_outcome cfg s c).aside aside_nextInode (by simpa using hc)]
    exact h.counter

/-- **One call** keeps the invariant. -/
theorem Clean.exec (h : Clean s) (hs : Serves s c) : Clean (s.exec cfg c).2 := by
  obtain ⟨s₁, he, hf⟩ := exec_files cfg h.kept.wf hs.admitted.2 hs.admitted.1
  obtain ⟨hclosed, hrooted, hlt⟩ := h.effect hs he
  have hentries : c.KeepsEntries s := by
    cases c with
    | link => exact hs.2
    | release => exact absurd hs.2 id
    | _ => trivial
  have hrecords : c.KeepsRecords s := by
    cases c with
    | rename => exact absurd hs.2 id
    | openFile => exact absurd hs.2 id
    | _ => trivial
  refine
    { backed := h.backed.exec cfg hs.admitted hentries
      kept := h.kept.exec cfg hs.admitted hrecords
      closed := fun i => (hf.handles i).trans (hclosed i)
      kinds := h.kinds_exec hs
      rooted := fun p n v hv => ?_
      nlink_lt := fun i iv hi hd => hlt i iv ((hf.file hd).1 hi) hd
      counter := h.counter_exec }
  have hkind : (s.exec cfg c).2.db.kind p = s₁.db.kind p := by
    have hm := congrArg (Option.map fileType) (hf.mode p)
    rw [Option.map_map, Option.map_map] at hm
    exact hm
  rw [hkind]
  exact hrooted p n v (hf.entry p n ▸ hv)

theorem Clean.fresh (cfg : Config) : Clean (Server.fresh cfg) where
  backed := Backed.fresh cfg
  kept := Kept.fresh cfg
  closed _ := rfl
  kinds i t ht := by
    rw [Server.kind_fresh] at ht
    split at ht
    · cases ht
      simp
    · cases ht
  rooted p n v hv := by cases hv
  nlink_lt i iv hi hd := by
    rw [Server.inode_fresh] at hi
    split at hi
    · cases hi
      exact absurd hd (by show isDir (S_IFDIR ||| 0o777) ≠ false; decide)
    · cases hi
  counter := rfl

/-! ## Result -/

/-- A non-directory has as many links as names. -/
theorem Clean.nlink_eq (h : Clean s) {i : Inode} {iv : InodeValue} (hi : s.db.inode i = some iv)
    (hd : isDir iv.mode = false) : iv.nlink = s.db.names i := by
  have hroot : i ≠ ROOT_INODE := by
    rintro rfl
    obtain ⟨rv, hr, hrd⟩ := h.kept.wf.db.root
    rw [hi] at hr
    cases hr
    rw [hd] at hrd
    cases hrd
  have hle := (h.backed.at_inode i).2 iv hi hd
  have hge := ((h.kept.at_inode hroot iv hi).2 hd).1
  omega

theorem Clean.orphans (h : Clean s) : s.db.inodes.toList.filterMap (orphan s.db) = [] := by
  refine List.filterMap_eq_nil_iff.2 fun b hb => ?_
  have hi : s.db.inode b.1 = some b.2 := OrdMap.mem_toList.1 hb
  unfold orphan
  by_cases hroot : b.1 = ROOT_INODE
  · rw [if_pos hroot]
  · rw [if_neg hroot]
    rcases h.kept.noOrphans b.1 b.2 hi hroot with hn | ⟨-, hw⟩
    · have hpos := Db.names_pos.2 hn
      have href : (referenced s.db b.1).isSome = true := by
        unfold referenced
        rw [countP_children h.rooted]
        dsimp only
        rw [if_neg (Nat.ne_of_gt hpos)]
        rfl
      rw [if_pos href]
    · rw [h.closed] at hw
      cases hw

theorem Clean.nlinkMismatches (h : Clean s) :
    s.db.inodes.toList.filterMap (nlinkMismatch s.db) = [] := by
  refine List.filterMap_eq_nil_iff.2 fun b hb => ?_
  have hi : s.db.inode b.1 = some b.2 := OrdMap.mem_toList.1 hb
  unfold nlinkMismatch
  by_cases hdir : fileType b.2.mode = S_IFDIR
  · rw [if_pos (by simpa using hdir)]
  · have hd : isDir b.2.mode = false := by
      by_contra hd
      have hk := h.kind_of_isDirectory ⟨b.2, hi, by simpa using hd⟩
      rw [Db.kind_some hi] at hk
      exact hdir (Option.some.inj hk)
    have hn := h.nlink_eq hi hd
    have hlt := h.nlink_lt b.1 b.2 hi hd
    rw [if_neg (by simpa using hdir)]
    have hrefs : (referenced s.db b.1).getD 0 = b.2.nlink := by
      unfold referenced
      rw [countP_children h.rooted, ← hn]
      dsimp only
      split
      · rename_i hz
        exact hz.symm
      · exact Nat.mod_eq_of_lt hlt
    rw [hrefs, if_neg (by simp)]

theorem Clean.counterIssue (h : Clean s) : (counterIssue s.db).toList = [] ↔
    s.next < PERSIST_INTERVAL ∨ ∀ i iv, s.db.inode i = some iv → i < lastPersist s.next := by
  unfold Fsck.counterIssue
  rw [h.counter]
  by_cases hlt : s.next < PERSIST_INTERVAL
  · simp [hlt]
  · rw [if_neg hlt]
    have hpos : 0 < lastPersist s.next := by
      unfold lastPersist PERSIST_INTERVAL at *
      omega
    have hmax : ¬lastPersist s.next ≤ maxInode s.db ↔
        ∀ i iv, s.db.inode i = some iv → i < lastPersist s.next := by
      rw [not_le, Nat.lt_iff_le_pred hpos, maxInode_le]
      exact forall_congr' fun i => forall_congr' fun iv => imp_congr_right fun _ => (Nat.lt_iff_le_pred hpos).symm
    rw [← hmax]
    dsimp only
    split
    · simp_all
    · simp_all

/-- **The checker's report** after a run of creations, links, unlinks and rmdirs. -/
theorem fsck_report {es : List (Call × Reply)}
    (h : Trace (Server.exec cfg) (fun _ s c => Serves s c) (Server.fresh cfg) es s) :
    (check s.db).totalInodes = s.db.inodes.toList.length ∧
    (check s.db).totalDirEntries = s.db.dirEntries.toList.length ∧
    ((check s.db).issues = [] ↔
      s.next < PERSIST_INTERVAL ∨ ∀ i iv, s.db.inode i = some iv → i < lastPersist s.next) := by
  have hinv : Clean s := h.invariant (fun _ s => Clean s) (Clean.fresh cfg) fun hc hs => hc.exec hs
  refine ⟨rfl, length_children hinv.rooted, ?_⟩
  rw [← hinv.counterIssue]
  unfold check
  dsimp only
  rw [hinv.orphans, hinv.nlinkMismatches]
  simp

end

/-- A file and a symbolic link are made, the file is linked, and one of its names goes. -/
theorem fsck_report_linked :
    let s := ((((Server.fresh {}).exec {} (.create 1 [97] 0o644 0 0)).2.exec {} (.symlink 1 [98] [120] 0 0)).2.exec {}
      (.link 1 [99] 2)).2
    (check (s.exec {} (.unlink 1 [97])).2.db).totalInodes = 3 ∧
      (check (s.exec {} (.unlink 1 [97])).2.db).totalDirEntries = 2 ∧
      (check (s.exec {} (.unlink 1 [97])).2.db).issues = [] := by
  intro s
  have hlink : ∀ iv, (((Server.fresh {}).exec {} (.create 1 [97] 0o644 0 0)).2.exec {}
      (.symlink 1 [98] [120] 0 0)).2.db.inode 2 = some iv → iv.nlink + 1 < U32_SIZE := by
    have hall : ∀ b ∈ (((Server.fresh {}).exec {} (.create 1 [97] 0o644 0 0)).2.exec {}
      (.symlink 1 [98] [120] 0 0)).2.db.inodes.toList, b.2.nlink + 1 < U32_SIZE := by decide +kernel
    exact fun iv hi => hall _ (OrdMap.mem_toList.2 hi)
  have hrun : Trace (Server.exec {}) (fun _ s c => Serves s c) (Server.fresh {}) _ s :=
    .snoc (Call.link 1 [99] 2) (.snoc (Call.symlink 1 [98] [120] 0 0)
      (.snoc (Call.create 1 [97] 0o644 0 0) .nil ⟨by decide +kernel, trivial⟩) ⟨by decide +kernel, trivial⟩)
      ⟨by decide +kernel, hlink⟩
  obtain ⟨hi, hd, hissues⟩ := fsck_report (.snoc (Call.unlink 1 [97]) hrun ⟨by decide +kernel, trivial⟩)
  exact ⟨hi.trans (by decide +kernel), hd.trans (by decide +kernel), hissues.2 (Or.inl (by decide +kernel))⟩

/-- The name of the `k`-th file. -/
def fileName (k : Nat) : Name := List.replicate k 97

/-- `k` files of the root, made one after the other. -/
def filesMade : Nat → Server
  | 0 => Server.fresh {}
  | k + 1 => ((filesMade k).exec {} (.create ROOT_INODE (fileName k) 0o644 0 0)).2

/-- The creations succeed as long as the names are short enough, and take the numbers from 2 on. -/
theorem filesMade_spec : ∀ k ≤ 255, Clean (filesMade k) ∧ (filesMade k).next = k + 2 ∧
    (∀ j, k ≤ j → (filesMade k).db.entry ROOT_INODE (fileName j) = none) ∧
    ∀ j, 2 ≤ j → j < k + 2 → ((filesMade k).db.inode j).isSome = true
  | 0, _ => ⟨Clean.fresh {}, rfl, fun _ _ => rfl, fun j h h' => absurd h' (by omega)⟩
  | k + 1, hk => by
      obtain ⟨hclean, hnext, hnone, hsome⟩ := filesMade_spec k (by omega)
      set s := filesMade k with hs
      have hlen : ¬(fileName k).length > NAME_MAX := by
        unfold fileName NAME_MAX
        rw [List.length_replicate]
        omega
      have hop := exec_create {} s ROOT_INODE (fileName k) 0o644 0 0
      unfold Server.creation at hop
      rw [if_neg hlen, if_neg (by rw [hnone k (Nat.le_refl k)]; simp)] at hop
      have hstate : filesMade (k + 1) = _ := congrArg Prod.snd (Server.exec_eq rfl hop)
      have hbk := Server.Bookkeeping.created {} s ROOT_INODE (fileName k) (s.newFile {} 0o644 0 0)
        [.putDataLocation s.next ({} : Config).defaultDataLocation.serverId] (touchDeltas (({} : Config).clock s.ticks))
      have hside : ∀ op ∈ [BatchOp.putDataLocation s.next ({} : Config).defaultDataLocation.serverId], op.IsSide := by
        simp [BatchOp.IsSide]
      refine ⟨hclean.exec ⟨?_, trivial⟩, ?_, fun j hj => ?_, fun j h₂ hj => ?_⟩
      · intro p hp
        rw [List.mem_singleton.1 hp]
        exact hclean.kept.wf.db.root
      · rw [hstate, hbk.next]
        show s.next + 1 = k + 1 + 2
        omega
      · rw [hstate, hbk.entry]
        refine (Db.entry_of_put (Change.dirEntries_create hside) ROOT_INODE (fileName j)).trans ?_
        rw [if_neg, hnone j (by omega)]
        rintro ⟨-, e⟩
        have := congrArg List.length e
        rw [fileName, fileName, List.length_replicate, List.length_replicate] at this
        omega
      · rw [hstate, hbk.isSome_inode]
        refine (congrArg Option.isSome (Change.inode_create hside j)).trans ?_
        split
        · rfl
        · rename_i hne
          refine hsome j h₂ ?_
          have hnum : j ≠ s.next := hne
          omega

/-- After 63 creations, all successful, the stored counter is 64, the number of the last file: the
report is not clean. -/
theorem fsck_counter_behind : (filesMade 63).next = 65 ∧ (filesMade 63).db.nextInode = some 64 ∧
    ((filesMade 63).db.inode 64).isSome = true ∧ (check (filesMade 63).db).issues ≠ [] := by
  obtain ⟨hclean, hnext, -, hsome⟩ := filesMade_spec 63 (by decide)
  have hlast := hsome 64 (by decide) (by decide)
  refine ⟨hnext, ?_, hlast, fun hnil => ?_⟩
  · rw [hclean.counter, hnext]
    rfl
  · have hcounter : (counterIssue (filesMade 63).db).toList = [] := (List.append_eq_nil_iff.1 hnil).2
    obtain ⟨iv, hi⟩ := Option.isSome_iff_exists.1 hlast
    rcases hclean.counterIssue.1 hcounter with hlt | hall
    · rw [hnext] at hlt
      exact absurd hlt (by decide)
    · have := hall 64 iv hi
      rw [hnext] at this
      exact absurd this (by decide)

end Fsck

end RucksFs
