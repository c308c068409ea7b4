import RucksFs.Server.Outcome

/-!
# The effect of a call on the files

The abstract view of the server: entries, records, the allocator, the handle table and the
pending deletions.  `Effect s c r s'` lists what a call `c` with reply `r` can do to them.  The
rest of a call is `Bookkeeping`: time stamps of the parent directories (deltas, or in the
`no_delta` build the parent's record), the cache, dirty marks, the stored counter.

* `exec_effect` — every call is an effect followed by bookkeeping, in both builds.
* `Server.Wf.exec` — the shape of the namespace survives every call.
-/

set_option autoImplicit false

namespace RucksFs

open Server

/-! ## Bookkeeping -/

/-- `s'` differs from `s` in bookkeeping only; of the records, those of `ps` may be folded. -/
structure Server.Bookkeeping (ps : List Inode) (s s' : Server) : Prop where
  dirEntries : s'.db.dirEntries = s.db.dirEntries
  dataLocations : s'.db.dataLocations = s.db.dataLocations
  inode : ∀ i, s'.db.inode i = s.db.inode i ∨
    (i ∈ ps ∧ ∃ iv ds, s.db.inode i = some iv ∧ s'.db.inode i = some (foldDeltas iv ds))
  next : s'.next = s.next
  openHandles : s'.openHandles = s.openHandles
  pendingDeletes : s'.pendingDeletes = s.pendingDeletes

namespace Server.Bookkeeping

variable {ps : List Inode} {s s' s'' : Server}

theorem refl (s : Server) : Bookkeeping ps s s :=
  ⟨rfl, rfl, fun _ => Or.inl rfl, rfl, rfl, rfl⟩

theorem trans (h : Bookkeeping ps s s') (h' : Bookkeeping ps s' s'') : Bookkeeping ps s s'' := by
  refine ⟨h'.dirEntries.trans h.dirEntries, h'.dataLocations.trans h.dataLocations, ?_,
    h'.next.trans h.next, h'.openHandles.trans h.openHandles,
    h'.pendingDeletes.trans h.pendingDeletes⟩
  intro i
  rcases h'.inode i with h₂ | ⟨hi, iv, ds, h₂, h₃⟩
  · rw [h₂]
    exact h.inode i
  · rcases h.inode i with h₁ | ⟨-, iv', ds', h₁, h₁'⟩
    · exact Or.inr ⟨hi, iv, ds, h₁ ▸ h₂, h₃⟩
    · rw [h₁'] at h₂
      cases h₂
      exact Or.inr ⟨hi, iv', ds' ++ ds, h₁, by rw [h₃, foldDeltas_append]⟩

/-- An update that leaves the files alone. -/
theorem of_eq (hd : s'.db.dirEntries = s.db.dirEntries) (hl : s'.db.dataLocations = s.db.dataLocations)
    (hi : s'.db.inodes = s.db.inodes) (hn : s'.next = s.next) (ho : s'.openHandles = s.openHandles)
    (hp : s'.pendingDeletes = s.pendingDeletes) : Bookkeeping ps s s' :=
  ⟨hd, hl, fun i => Or.inl (by unfold Db.inode; rw [hi]), hn, ho, hp⟩

theorem tick (s : Server) : Bookkeeping ps s s.tick := of_eq rfl rfl rfl rfl rfl rfl

theorem cachePut (s : Server) (i : Inode) (v : InodeValue) : Bookkeeping ps s (s.cachePut i v) :=
  of_eq rfl rfl rfl rfl rfl rfl

theorem cacheInvalidate (s : Server) (i : Inode) : Bookkeeping ps s (s.cacheInvalidate i) :=
  of_eq rfl rfl rfl rfl rfl rfl

theorem clearDeltas (s : Server) (i : Inode) : Bookkeeping ps s (s.clearDeltas i) :=
  of_eq rfl rfl rfl rfl rfl rfl

theorem touch (s : Server) (p : Inode) (ds : List DeltaOp) : Bookkeeping ps s (s.touch p ds) :=
  of_eq rfl rfl rfl rfl rfl rfl

theorem touchAll (dss : List (Inode × List DeltaOp)) :
    ∀ s : Server, Bookkeeping ps s (s.touchAll dss) := by
  induction dss with
  | nil => exact fun s => refl s
  | cons d dss ih => exact fun s => (touch s d.1 d.2).trans (ih _)

theorem persist (s : Server) : Bookkeeping ps s s.persist := by
  unfold Server.persist
  split
  · exact of_eq rfl rfl rfl rfl rfl rfl
  · exact refl s

theorem forget (s : Server) (dst : Option DirValue) : Bookkeeping ps s (s.forget dst) := by
  cases dst with
  | none => exact refl s
  | some d => exact (clearDeltas s _).trans (cacheInvalidate _ _)

theorem load (s : Server) (i : Inode) : Bookkeeping ps s (s.load i).2 := by
  unfold Server.load
  split
  · exact of_eq rfl rfl rfl rfl rfl rfl
  · split <;> exact of_eq rfl rfl rfl rfl rfl rfl

/-- A batch of deltas. -/
theorem write_deltas (s : Server) {ops : List BatchOp} (h : ∀ op ∈ ops, op.IsDelta) :
    Bookkeeping ps s (s.write ops) := by
  have hside := Db.applyBatch_side s.db fun op ho => (h op ho).side
  exact of_eq hside.2 (Db.dataLocations_applyBatch s.db h) hside.1 rfl rfl rfl

/-- A folded record. -/
theorem write_fold (s : Server) {i : Inode} {iv : InodeValue} (ds : List DeltaOp)
    (hi : s.db.inode i = some iv) (hp : i ∈ ps) :
    Bookkeeping ps s (s.write [.putInode i (foldDeltas iv ds)]) := by
  refine ⟨rfl, rfl, fun j => ?_, rfl, rfl, rfl⟩
  by_cases h : j = i
  · subst h
    exact Or.inr ⟨hp, iv, ds, hi, by simp [write, Db.inode_applyOp]⟩
  · exact Or.inl (by simp [write, Db.inode_applyOp, h])

theorem isDelta_deltaPuts (p : Inode) : ∀ (ds : List DeltaOp) (q : Nat),
    ∀ op ∈ deltaPuts p q ds, op.IsDelta
  | [], _, op, h => by cases h
  | _ :: ds, q, op, h => by
    rcases List.mem_cons.1 h with rfl | h
    · trivial
    · exact isDelta_deltaPuts p ds (q + 1) op h

theorem parentDeltas (cfg : Config) (s : Server) {p : Inode} (ds : List DeltaOp) (hp : p ∈ ps) :
    Bookkeeping ps s (s.parentDeltas cfg p ds) := by
  unfold Server.parentDeltas
  split
  · exact (write_deltas s (isDelta_deltaPuts p ds (s.seqs p))).trans (of_eq rfl rfl rfl rfl rfl rfl)
  · split
    · rename_i iv hiv
      exact write_fold s ds hiv hp
    · exact refl s

theorem parentDeltasAll (cfg : Config) (dss : List (Inode × List DeltaOp)) (hps : ∀ d ∈ dss, d.1 ∈ ps) :
    ∀ s : Server, Bookkeeping ps s (s.parentDeltasAll cfg dss) := by
  induction dss with
  | nil => exact fun s => refl s
  | cons d dss ih =>
      intro s
      exact (parentDeltas cfg s d.2 (hps d List.mem_cons_self)).trans
        (ih (fun e he => hps e (List.mem_cons_of_mem _ he)) _)

theorem pendingInsert (h : Bookkeeping ps s s') (i : Inode) :
    Bookkeeping ps (s.pendingInsert i) (s'.pendingInsert i) :=
  { h with
    pendingDeletes := by
      unfold Server.pendingInsert
      dsimp only
      rw [h.pendingDeletes] }

theorem handleIncr (h : Bookkeeping ps s s') (i : Inode) :
    Bookkeeping ps (s.handleIncr i) (s'.handleIncr i) :=
  { h with
    openHandles := by
      unfold Server.handleIncr Server.handles
      dsimp only
      rw [h.openHandles] }

/-- Bookkeeping keeps the mode of every record. -/
theorem mode (h : Bookkeeping ps s s') {i : Inode} {iv' : InodeValue} (hi : s'.db.inode i = some iv') :
    ∃ iv, s.db.inode i = some iv ∧ iv'.mode = iv.mode := by
  rcases h.inode i with he | ⟨-, iv, ds, h₁, h₂⟩
  · exact ⟨iv', he ▸ hi, rfl⟩
  · rw [h₂] at hi
    cases hi
    exact ⟨iv, h₁, foldDeltas_mode _ _⟩

theorem isDirAt (h : Bookkeeping ps s s') (i : Inode) : s'.db.isDirAt i = s.db.isDirAt i := by
  unfold Db.isDirAt
  rcases h.inode i with he | ⟨-, iv, ds, h₁, h₂⟩
  · rw [he]
  · rw [h₁, h₂]
    exact congrArg isDir (foldDeltas_mode _ _)

theorem isSome_inode (h : Bookkeeping ps s s') (i : Inode) :
    (s'.db.inode i).isSome = (s.db.inode i).isSome := by
  rcases h.inode i with he | ⟨-, iv, ds, h₁, h₂⟩
  · rw [he]
  · rw [h₁, h₂]
    rfl

theorem inode_eq_none (h : Bookkeeping ps s s') {i : Inode} :
    s'.db.inode i = none ↔ s.db.inode i = none := by
  rw [← Option.isNone_iff_eq_none, ← Option.isNone_iff_eq_none, ← Option.not_isSome,
    ← Option.not_isSome, h.isSome_inode]

theorem entry (h : Bookkeeping ps s s') (p : Inode) (n : Name) : s'.db.entry p n = s.db.entry p n := by
  unfold Db.entry
  rw [h.dirEntries]

theorem names (h : Bookkeeping ps s s') (i : Inode) : s'.db.names i = s.db.names i :=
  Db.names_eq_of_dirEntries h.dirEntries i

theorem handles (h : Bookkeeping ps s s') (i : Inode) : s'.handles i = s.handles i := by
  unfold Server.handles
  rw [h.openHandles]

theorem wf (h : Bookkeeping ps s s') (hw : s.db.Wf s.next) : s'.db.Wf s'.next := by
  rw [h.next]
  refine hw.of_modes h.dirEntries h.mode fun {i iv} hi => ?_
  rw [← Option.isSome_iff_exists, h.isSome_inode, hi]
  rfl

end Server.Bookkeeping

/-! ## Effects -/

/-- The inodes whose records a call may fold: the parents, or the compacted inode. -/
def Call.folds : Call → List Inode
  | .create p _ _ _ _ | .createAndOpen p _ _ _ _ _ | .mkdir p _ _ _ _ | .symlink p _ _ _ _
  | .link p _ _ | .unlink p _ | .rmdir p _ => [p]
  | .rename p _ np _ => [p, np]
  | .forceCompactInode i => [i]
  | _ => []

/-- What a call does to entries, records, counter, handles and pending deletions. -/
inductive Effect (s : Server) : Call → Reply → Server → Prop where
  | quiet {c : Call} {r : Reply} (h : r.isError = true ∨ c.reads = true) : Effect s c r s
  | made {c : Call} {p : Inode} {n : Name} {iv : InodeValue} {extra : List BatchOp}
      (hc : c.Makes p n iv) (he : s.db.entry p n = none) (hi : iv.inode = s.next)
      (hx : ∀ op ∈ extra, op.IsPayload) :
      Effect s c (.attr (.ok iv.toAttr)) { s.write
        (.putInode s.next iv :: .putDirEntry p n ⟨s.next, iv.mode⟩ :: extra) with next := s.next + 1 }
  | madeOpen {p : Inode} {n : Name} {mode uid gid flags : Nat} {iv : InodeValue}
      {extra : List BatchOp} {r : CreateAndOpenResponse} (hl : iv.nlink = 1)
      (ht : fileType iv.mode = S_IFREG) (he : s.db.entry p n = none)
      (hx : ∀ op ∈ extra, op.IsPayload) (hr : r.attr.inode = s.next) (hh : r.handle = s.next) :
      Effect s (.createAndOpen p n mode uid gid flags) (.created (.ok r))
        ({ s.write (.putInode s.next iv :: .putDirEntry p n ⟨s.next, iv.mode⟩ :: extra) with
          next := s.next + 1 }.handleIncr s.next)
  | link {p : Inode} {n : Name} {t : Inode} {iv : InodeValue} (ts : Nat) {a : FileAttr}
      (hi : s.db.inode t = some iv) (hd : isDir iv.mode = false) (he : s.db.entry p n = none)
      (hp : s.db.IsDirectory p) :
      Effect s (.link p n t) (.attr (.ok a)) (s.write
        [.putInode t { iv with nlink := (iv.nlink + 1) % U32_SIZE, ctime := ts },
          .putDirEntry p n ⟨t, iv.mode⟩])
  | unlinkKeep {p : Inode} {n : Name} {v : DirValue} {iv : InodeValue} (ts : Nat)
      (he : s.db.entry p n = some v) (hd : isDir v.mode = false) (hi : s.db.inode v.inode = some iv)
      (hl : iv.nlink - 1 ≠ 0) :
      Effect s (.unlink p n) (.purged (.ok [])) (s.write
        [.deleteDirEntry p n, .putInode v.inode { iv with nlink := iv.nlink - 1, ctime := ts }])
  | unlinkDefer {p : Inode} {n : Name} {v : DirValue} {iv : InodeValue} (ts : Nat)
      (he : s.db.entry p n = some v) (hd : isDir v.mode = false) (hi : s.db.inode v.inode = some iv)
      (hl : iv.nlink - 1 = 0) (hh : s.handles v.inode ≠ 0) :
      Effect s (.unlink p n) (.purged (.ok [])) ((s.write
        [.deleteDirEntry p n, .putInode v.inode
          { iv with nlink := iv.nlink - 1, ctime := ts }]).pendingInsert v.inode)
  | unlinkDrop {p : Inode} {n : Name} {v : DirValue} {iv : InodeValue}
      (he : s.db.entry p n = some v) (hd : isDir v.mode = false) (hi : s.db.inode v.inode = some iv)
      (hl : iv.nlink - 1 = 0) (hh : s.handles v.inode = 0) :
      Effect s (.unlink p n) (.purged (.ok [v.inode])) (s.write
        [.deleteDirEntry p n, .deleteInode v.inode, .deleteDataLocation v.inode])
  | rmdir {p : Inode} {n : Name} {v : DirValue} {iv : InodeValue}
      (he : s.db.entry p n = some v) (hd : isDir v.mode = true) (hi : s.db.inode v.inode = some iv)
      (hemp : s.db.isDirEmpty v.inode = true) :
      Effect s (.rmdir p n) (.done (.ok ())) (s.write [.deleteDirEntry p n, .deleteInode v.inode])
  | rename {p : Inode} {n : Name} {np : Inode} {nn : Name} {v : DirValue} {srcIv : InodeValue}
      {vic : Victim} {ts : Nat} (he : s.db.entry p n = some v)
      (hi : s.db.inode v.inode = some srcIv)
      (hv : VictimOf s.db (isDir srcIv.mode) ts (s.db.entry np nn) vic)
      (hemp : ∀ d, s.db.entry np nn = some d → vic.wasDir = true → s.db.isDirEmpty d.inode = true) :
      Effect s (.rename p n np nn) (.purged (.ok vic.delete.toList))
        (s.write (renameOps p n np nn v.inode srcIv (s.db.entry np nn) vic ts))
  | rewrite {c : Call} {i : Inode} {iv iv' : InodeValue} {r : Reply} (hc : c.Rewrites i)
      (hi : s.db.inode i = some iv) (ht : fileType iv'.mode = fileType iv.mode)
      (hl : iv'.nlink = iv.nlink) (hr : r.isError = false) : Effect s c r (s.write [.putInode i iv'])
  | opened {i : Inode} {flags : Nat} {r : OpenResponse} :
      Effect s (.openFile i flags) (.opened (.ok r)) (s.handleIncr i)
  | openedTrunc {i : Inode} {flags : Nat} {r : OpenResponse} {iv iv' : InodeValue}
      (hi : s.db.inode i = some iv) (ht : iv'.mode = iv.mode) (hl : iv'.nlink = iv.nlink) :
      Effect s (.openFile i flags) (.opened (.ok r)) ((s.write [.putInode i iv']).handleIncr i)
  | released {i : Inode} (h : (s.checkAndClearDeferredDelete i).1 = false) :
      Effect s (.release i) (.purged (.ok [])) (s.checkAndClearDeferredDelete i).2
  | releasedDrop {i : Inode} (h : (s.checkAndClearDeferredDelete i).1 = true) :
      Effect s (.release i) (.purged (.ok [i]))
        ((s.checkAndClearDeferredDelete i).2.write [.deleteInode i, .deleteDataLocation i])

/-! ## Every call is an effect and bookkeeping -/

theorem Server.Bookkeeping.created (cfg : Config) (s : Server) (p : Inode) (n : Name) (iv : InodeValue)
    (extra : List BatchOp) (ds : List DeltaOp) :
    Server.Bookkeeping [p]
      { s.write (.putInode iv.inode iv :: .putDirEntry p n ⟨iv.inode, iv.mode⟩ :: extra) with
        next := s.next + 1 }
      (s.created cfg p n iv extra ds) := by
  unfold Server.created
  refine Server.Bookkeeping.trans ?_ (.touch _ p ds)
  refine Server.Bookkeeping.trans ?_ (.cachePut _ _ _)
  refine Server.Bookkeeping.trans ?_ (.persist _)
  refine Server.Bookkeeping.trans ?_ (.parentDeltas cfg _ ds List.mem_cons_self)
  exact .of_eq rfl rfl rfl rfl rfl rfl

theorem Server.Bookkeeping.compacted (s : Server) {i : Inode} {base : InodeValue}
    (hi : s.db.inode i = some base) : Server.Bookkeeping [i] s (s.compacted i base) := by
  unfold Server.compacted
  refine Bookkeeping.trans ?_ (.cacheInvalidate _ _)
  have hdel : ∀ op ∈ (s.db.scanDeltas i).map fun p => BatchOp.deleteDelta i p.1, op.IsDelta := by
    intro op hop
    obtain ⟨q, -, rfl⟩ := List.mem_map.1 hop
    trivial
  exact (Bookkeeping.write_fold s _ hi List.mem_cons_self).trans (.write_deltas _ hdel)

theorem renameDeltas_fst {p np : Inode} {a b : Bool} {ts : Nat} :
    ∀ d ∈ renameDeltas p np a b ts, d.1 ∈ [p, np] := by
  intro d hd
  unfold renameDeltas at hd
  simp only [List.mem_append, List.mem_singleton] at hd
  rcases hd with ((hd | hd) | rfl) | hd
  · split at hd <;> simp_all
  · split at hd <;> simp_all
    rcases hd with rfl | rfl <;> simp
  · simp
  · split at hd <;> simp_all

theorem Server.Bookkeeping.renamed (cfg : Config) (s : Server) (p : Inode) (n : Name) (np : Inode) (nn : Name)
    (src : Inode) (srcIv : InodeValue) (vic : Victim) :
    let dss := renameDeltas p np (isDir srcIv.mode) vic.wasDir (cfg.clock s.ticks)
    Bookkeeping [p, np] (s.write (renameOps p n np nn src srcIv (s.db.entry np nn) vic (cfg.clock s.ticks)))
      ((s.renameCommitted cfg p n np nn src srcIv vic dss).touchAll dss) := by
  refine Bookkeeping.trans ?_ (.touchAll _ _)
  refine Bookkeeping.trans ?_ (.cachePut _ _ _)
  refine Bookkeeping.trans ?_ (.forget _ _)
  refine Bookkeeping.trans ?_ (.parentDeltasAll cfg _ renameDeltas_fst _)
  exact .of_eq rfl rfl rfl rfl rfl rfl

/-- An outcome is an effect on the files followed by bookkeeping. -/
theorem Outcome.effect {cfg : Config} {s s' : Server} {c : Call} {r : Reply}
    (h : Outcome cfg s c r s') : ∃ s₁, Effect s c r s₁ ∧ Bookkeeping c.folds s₁ s' := by
  cases h with
  | failed hr hs =>
      refine ⟨s, .quiet (Or.inl hr), ?_⟩
      rcases hs with rfl | rfl
      · exact .refl s'
      · exact .tick s
  | loaded i h => exact ⟨s, .quiet h, .load s i⟩
  | @made c p n iv extra ds hc he hi hx =>
      have hb := Bookkeeping.created cfg s p n iv extra ds
      have hf : c.folds = [p] := by cases hc <;> rfl
      rw [hi] at hb
      rw [hf]
      exact ⟨_, .made hc he hi hx, hb⟩
  | @madeOpen p n mode uid gid flags iv extra ds r hl ht he hi hx hr hh =>
      have hb := Bookkeeping.created cfg s p n iv extra ds
      rw [hi] at hb
      exact ⟨_, .madeOpen hl ht he hx hr hh, hb.handleIncr s.next⟩
  | link hi hd he hp =>
      refine ⟨_, .link (cfg.clock s.ticks) hi hd he hp, ?_⟩
      unfold Server.linked
      refine Bookkeeping.trans ?_ (.touch _ _ _)
      refine Bookkeeping.trans ?_ (.cachePut _ _ _)
      refine Bookkeeping.trans ?_ (.parentDeltas cfg _ _ List.mem_cons_self)
      exact .of_eq rfl rfl rfl rfl rfl rfl
  | unlinkDrop he hd hi hl hh =>
      refine ⟨_, .unlinkDrop he hd hi hl hh, ?_⟩
      unfold Server.unlinkedDrop
      refine Bookkeeping.trans ?_ (.touch _ _ _)
      refine Bookkeeping.trans ?_ (.cacheInvalidate _ _)
      refine Bookkeeping.trans ?_ (.clearDeltas _ _)
      refine Bookkeeping.trans ?_ (.parentDeltas cfg _ _ List.mem_cons_self)
      exact .of_eq rfl rfl rfl rfl rfl rfl
  | @unlinkKeep p n v iv he hd hi hk =>
      unfold Server.unlinkedKeep
      dsimp only
      by_cases hl : iv.nlink - 1 = 0
      · rw [if_pos hl]
        refine ⟨_, .unlinkDefer (cfg.clock s.ticks) he hd hi hl fun hh => hk ⟨hl, hh⟩, ?_⟩
        refine Bookkeeping.trans (Bookkeeping.pendingInsert ?_ v.inode) (.touch _ _ _)
        refine Bookkeeping.trans ?_ (.cachePut _ _ _)
        refine Bookkeeping.trans ?_ (.parentDeltas cfg _ _ List.mem_cons_self)
        exact .of_eq rfl rfl rfl rfl rfl rfl
      · rw [if_neg hl]
        refine ⟨_, .unlinkKeep (cfg.clock s.ticks) he hd hi hl, ?_⟩
        refine Bookkeeping.trans ?_ (.touch _ _ _)
        refine Bookkeeping.trans ?_ (.cachePut _ _ _)
        refine Bookkeeping.trans ?_ (.parentDeltas cfg _ _ List.mem_cons_self)
        exact .of_eq rfl rfl rfl rfl rfl rfl
  | rmdir he hd hi hemp =>
      refine ⟨_, .rmdir he hd hi hemp, ?_⟩
      unfold Server.rmdired
      refine Bookkeeping.trans ?_ (.touch _ _ _)
      refine Bookkeeping.trans ?_ (.cacheInvalidate _ _)
      refine Bookkeeping.trans ?_ (.clearDeltas _ _)
      refine Bookkeeping.trans ?_ (.parentDeltas cfg _ _ List.mem_cons_self)
      exact .of_eq rfl rfl rfl rfl rfl rfl
  | rename he hi hv hemp => exact ⟨_, .rename he hi hv hemp, .renamed ..⟩
  | rewrite hc hi ht hl hr hs =>
      refine ⟨_, .rewrite hc hi ht hl hr, ?_⟩
      rcases hs with rfl | rfl <;> exact .of_eq rfl rfl rfl rfl rfl rfl
  | opened => exact ⟨_, .opened, (Bookkeeping.load s _).handleIncr _⟩
  | @openedTrunc i flags r iv raw hl hd hi =>
      have hm : (raw.truncated (cfg.clock s.ticks)).mode = raw.mode := rfl
      refine ⟨_, .openedTrunc hi hm rfl, Bookkeeping.handleIncr ?_ i⟩
      obtain ⟨c, hc⟩ := s.load_snd i
      rw [hc]
      exact .of_eq rfl rfl rfl rfl rfl rfl
  | released hp => exact ⟨_, .released hp, .refl _⟩
  | releasedDrop hp => exact ⟨_, .releasedDrop hp, Bookkeeping.trans (.clearDeltas _ _) (.cacheInvalidate _ _)⟩
  | compacted hi => exact ⟨s, .quiet (Or.inr rfl), .compacted s hi⟩
  | idle => exact ⟨s, .quiet (Or.inr rfl), .refl s⟩

/-- **Every call is an effect on the files followed by bookkeeping.** -/
theorem exec_effect (cfg : Config) (s : Server) (c : Call) :
    ∃ s₁, Effect s c (s.exec cfg c).1 s₁ ∧ Bookkeeping c.folds s₁ (s.exec cfg c).2 :=
  (exec_outcome cfg s c).effect

/-! ## Closing a handle -/

namespace Server

variable (s : Server) {i : Inode}

/-- Only the handle table and the pending set change. -/
theorem checkAndClear_snd : ∃ handles pending, (s.checkAndClearDeferredDelete i).2 =
    { s with openHandles := handles, pendingDeletes := pending } := by
  unfold checkAndClearDeferredDelete
  split
  · exact ⟨_, _, rfl⟩
  · split <;> exact ⟨_, _, rfl⟩

theorem checkAndClear_db : (s.checkAndClearDeferredDelete i).2.db = s.db := by
  obtain ⟨_, _, h⟩ := s.checkAndClear_snd (i := i)
  rw [h]

theorem checkAndClear_next : (s.checkAndClearDeferredDelete i).2.next = s.next := by
  obtain ⟨_, _, h⟩ := s.checkAndClear_snd (i := i)
  rw [h]

theorem checkAndClear_seqs : (s.checkAndClearDeferredDelete i).2.seqs = s.seqs := by
  obtain ⟨_, _, h⟩ := s.checkAndClear_snd (i := i)
  rw [h]

theorem checkAndClear_cache : (s.checkAndClearDeferredDelete i).2.cache = s.cache := by
  obtain ⟨_, _, h⟩ := s.checkAndClear_snd (i := i)
  rw [h]

/-- Only the last handle of a pending inode asks for deletion, and the inode is no longer
pending. -/
theorem checkAndClear_true (h : (s.checkAndClearDeferredDelete i).1 = true) :
    s.pendingDeletes i = true ∧ s.handles i ≤ 1 ∧
      (s.checkAndClearDeferredDelete i).2.pendingDeletes i = false := by
  unfold checkAndClearDeferredDelete at h ⊢
  unfold Server.handles
  split at h
  · cases h
  · rename_i count hc
    split at h
    · rename_i hz
      rw [hc]
      refine ⟨h, show count ≤ 1 by omega, ?_⟩
      simp [hz]
    · cases h

theorem handles_handleIncr (j : Inode) :
    (s.handleIncr i).handles j = if j = i then (s.handles i + 1) % U32_SIZE else s.handles j := by
  unfold Server.handles handleIncr
  by_cases e : j = i
  · subst e
    simp [Server.handles]
  · simp [e]

theorem checkAndClear_handles (j : Inode) :
    (s.checkAndClearDeferredDelete i).2.handles j =
      if j = i then s.handles i - 1 else s.handles j := by
  unfold checkAndClearDeferredDelete Server.handles
  by_cases e : j = i
  · subst e
    split
    · rename_i hc
      simp [hc]
    · rename_i count hc
      split
      · rename_i hz
        simp [hc, hz]
      · simp [hc]
  · split
    · simp [e]
    · split <;> simp [e]

theorem checkAndClear_pending_ne {j : Inode} (h : j ≠ i) :
    (s.checkAndClearDeferredDelete i).2.pendingDeletes j = s.pendingDeletes j := by
  unfold checkAndClearDeferredDelete
  split
  · rfl
  · split
    · simp [h]
    · rfl

/-- A `release` that does not ask for deletion leaves the pending set. -/
theorem checkAndClear_false (h : (s.checkAndClearDeferredDelete i).1 = false) :
    (s.checkAndClearDeferredDelete i).2.pendingDeletes = s.pendingDeletes ∧
      (s.pendingDeletes i = true → s.handles i ≠ 1) := by
  unfold checkAndClearDeferredDelete at h ⊢
  unfold Server.handles
  split at h
  · rename_i hc
    simp [hc]
  · rename_i count hc
    split at h
    · rename_i hz
      have hi : s.pendingDeletes i = false := h
      rw [hc]
      simp only [hz, if_pos]
      refine ⟨?_, fun hp => by rw [hi] at hp; cases hp⟩
      funext j
      by_cases e : j = i
      · subst e
        simp [hi]
      · simp [e]
    · rename_i hz
      rw [hc]
      refine ⟨by simp [hz], fun _ e => hz ?_⟩
      have hone : count = 1 := e
      rw [hone]

theorem checkAndClear_pending {j : Inode}
    (h : (s.checkAndClearDeferredDelete i).2.pendingDeletes j = true) : s.pendingDeletes j = true := by
  by_cases e : j = i
  · subst e
    unfold checkAndClearDeferredDelete at h
    split at h
    · exact h
    · split at h
      · simp at h
      · exact h
  · rwa [s.checkAndClear_pending_ne e] at h

end Server

/-! ## The shape of the namespace over whole runs -/

/-- The shape of the namespace, and that the root is not waiting for deletion. -/
structure Server.Wf (s : Server) : Prop where
  db : s.db.Wf s.next
  root : s.pendingDeletes ROOT_INODE = false

namespace Effect

variable {s s' : Server} {c : Call} {r : Reply}

theorem isDir_of_makes {p : Inode} {n : Name} {iv : InodeValue} (h : c.Makes p n iv) :
    isDir iv.mode = false ∧ iv.nlink = 1 ∨ isDir iv.mode = true ∧ iv.nlink = 2 := by
  cases h with
  | create hl ht => exact Or.inl ⟨by rw [isDir_eq_fileType, ht]; decide, hl⟩
  | mkdir hl ht => exact Or.inr ⟨by rw [isDir_eq_fileType, ht]; decide, hl⟩
  | symlink hl ht => exact Or.inl ⟨by rw [isDir_eq_fileType, ht]; decide, hl⟩

/-- The next number is unused. -/
theorem fresh_next (hw : s.db.Wf s.next) :
    s.db.inode s.next = none ∧ ∀ p n v, s.db.entry p n = some v → v.inode ≠ s.next := by
  refine ⟨?_, fun p n v he e => ?_⟩
  · cases hi : s.db.inode s.next with
    | none => rfl
    | some iv => exact absurd (hw.inode_lt hi) (Nat.lt_irrefl _)
  · exact absurd e (Nat.ne_of_lt (hw.entry_lt he))

/-- An effect on the database is one of the changes; a new object takes the next number. -/
theorem change (h : Effect s c r s') (hw : s.Wf) :
    (s'.db = s.db ∧ s'.next = s.next) ∨
    ∃ fresh ops, Change s.db s'.next fresh ops ∧ s'.db = s.db.applyBatch ops ∧
      ((fresh = none ∧ s'.next = s.next) ∨ (fresh = some s.next ∧ s'.next = s.next + 1)) := by
  obtain ⟨hfresh, hunnamed⟩ := fresh_next hw.db
  have hold : ∀ {ops}, Change s.db s.next none ops → ∃ fresh ops', Change s.db s.next fresh ops' ∧
      s.db.applyBatch ops = s.db.applyBatch ops' ∧
      ((fresh = none ∧ s.next = s.next) ∨ (fresh = some s.next ∧ s.next = s.next + 1)) :=
    fun h => ⟨none, _, h, rfl, Or.inl ⟨rfl, rfl⟩⟩
  cases h with
  | quiet => exact Or.inl ⟨rfl, rfl⟩
  | opened => exact Or.inl ⟨rfl, rfl⟩
  | made hc he hi hx =>
      exact Or.inr ⟨_, _, .create he hfresh hunnamed (Nat.lt_succ_self _) (isDir_of_makes hc)
        (fun op ho => (hx op ho).side), rfl, Or.inr ⟨rfl, rfl⟩⟩
  | madeOpen hl ht he hx =>
      exact Or.inr ⟨_, _, .create he hfresh hunnamed (Nat.lt_succ_self _)
        (Or.inl ⟨by rw [isDir_eq_fileType, ht]; decide, hl⟩) (fun op ho => (hx op ho).side), rfl,
        Or.inr ⟨rfl, rfl⟩⟩
  | link ts hi hd he hp => exact Or.inr (hold (.link hi hd he hp))
  | unlinkKeep ts he hd hi hl => exact Or.inr (hold (.unlinkKeep he hd hi))
  | unlinkDefer ts he hd hi hl hh => exact Or.inr (hold (.unlinkKeep he hd hi))
  | unlinkDrop he hd hi hl hh => exact Or.inr (hold (.unlinkDrop he hd hi hl))
  | rmdir he hd hi hemp => exact Or.inr (hold (.rmdir he hd hi))
  | rename he hi hv hemp => exact Or.inr (hold (.rename he hi hv))
  | rewrite hc hi ht hl hr => exact Or.inr (hold (.rewrite hi ht fun _ => hl))
  | openedTrunc hi ht hl => exact Or.inr (hold (.rewrite hi (by rw [ht]) fun _ => hl))
  | @released i hp => exact Or.inl ⟨by rw [s.checkAndClear_db], by rw [s.checkAndClear_next]⟩
  | @releasedDrop i hp =>
      obtain ⟨hpend, -⟩ := s.checkAndClear_true hp
      have hne : i ≠ ROOT_INODE := by
        rintro rfl
        rw [hw.root] at hpend
        cases hpend
      refine Or.inr ?_
      unfold Server.write
      dsimp only
      rw [s.checkAndClear_db, s.checkAndClear_next]
      exact hold (.drop hne)

theorem next_le (h : Effect s c r s') (hw : s.Wf) : s.next ≤ s'.next := by
  rcases h.change hw with ⟨-, hnext⟩ | ⟨-, -, -, -, ⟨-, hnext⟩ | ⟨-, hnext⟩⟩ <;> rw [hnext]
  exact Nat.le_succ _

/-- A record after an effect was there before with the same type, or is the new object's. -/
theorem origin (h : Effect s c r s') (hw : s.Wf) {i : Inode} {iv' : InodeValue}
    (hi : s'.db.inode i = some iv') : Change.Origin s.db i iv' ∨ i = s.next := by
  rcases h.change hw with ⟨hdb, -⟩ | ⟨fresh, ops, hch, hdb, hf⟩
  · exact Or.inl ⟨iv', hdb ▸ hi, rfl⟩
  · rw [hdb] at hi
    rcases hch.origin hi with ho | he
    · exact Or.inl ho
    · rcases hf with ⟨hnone, -⟩ | ⟨hsome, -⟩
      · rw [hnone] at he
        cases he
      · rw [hsome] at he
        cases he
        exact Or.inr rfl

/-- Only a file that loses a name starts to wait for deletion. -/
theorem pending_of (h : Effect s c r s') {i : Inode} (hp : s'.pendingDeletes i = true) :
    s.pendingDeletes i = true ∨
      ∃ p n v, s.db.entry p n = some v ∧ v.inode = i ∧ isDir v.mode = false := by
  cases h with
  | @unlinkDefer p n v iv ts he hd hi hl hh =>
      by_cases e : i = v.inode
      · exact Or.inr ⟨p, n, v, he, e.symm, hd⟩
      · have hp : Function.update s.pendingDeletes v.inode true i = true := hp
        rw [Function.update_of_ne e] at hp
        exact Or.inl hp
  | released h => exact Or.inl (s.checkAndClear_pending hp)
  | releasedDrop h => exact Or.inl (s.checkAndClear_pending hp)
  | _ => exact Or.inl hp

/-- The root never waits for deletion. -/
theorem root (h : Effect s c r s') (hw : s.Wf) : s'.pendingDeletes ROOT_INODE = false := by
  cases hp : s'.pendingDeletes ROOT_INODE with
  | false => rfl
  | true =>
      rcases h.pending_of hp with hs | ⟨p, n, v, he, hi, -⟩
      · rw [hw.root] at hs
        cases hs
      · exact absurd hi (hw.db.entry_ne_root he)

theorem wf (h : Effect s c r s') (hw : s.Wf) : s'.Wf := by
  refine ⟨?_, h.root hw⟩
  rcases h.change hw with ⟨hdb, hnext⟩ | ⟨fresh, ops, hch, hdb, -⟩
  · rw [hdb, hnext]
    exact hw.db
  · rw [hdb]
    exact hch.wf (hw.db.mono (h.next_le hw))

end Effect

/-- **The shape of the namespace survives every call**, in both builds. -/
theorem Server.Wf.exec {s : Server} (hw : s.Wf) (cfg : Config) (c : Call) : (s.exec cfg c).2.Wf := by
  obtain ⟨s₁, he, hb⟩ := exec_effect cfg s c
  have hw₁ := he.wf hw
  exact ⟨hb.wf hw₁.db, by rw [hb.pendingDeletes]; exact hw₁.root⟩

theorem Server.inode_fresh (cfg : Config) (i : Inode) : (Server.fresh cfg).db.inode i =
    if i = ROOT_INODE then some (rootValue cfg (cfg.clock 0)) else none :=
  OrdMap.get_put _ _ _ _

theorem Server.wf_fresh (cfg : Config) : (Server.fresh cfg).Wf := by
  have hin := Server.inode_fresh cfg
  have hen : ∀ p n, (Server.fresh cfg).db.entry p n = none := fun _ _ => rfl
  have hroot : isDir (S_IFDIR ||| 0o777) = true := by decide
  have hlt : ROOT_INODE < FIRST_ALLOC_INODE := by decide
  refine ⟨?_, rfl⟩
  refine
    { root := ⟨rootValue cfg (cfg.clock 0), by rw [hin, if_pos rfl], hroot⟩
      root_lt := hlt
      inode_lt := ?_
      entry_lt := fun he => by rw [hen] at he; cases he
      entry_ne_root := fun he => by rw [hen] at he; cases he
      type_eq := fun he => by rw [hen] at he; cases he
      dir_unique := fun he => by rw [hen] at he; cases he }
  intro i iv hi
  rw [hin] at hi
  split at hi
  · rename_i e
    rw [e]
    exact hlt
  · cases hi

/-! ## Calls under existing directories -/

/-- The parent arguments of a call. -/
def Call.parents : Call → List Inode
  | .forceCompactInode _ => []
  | c => c.folds

/-- Every parent argument names an existing directory. -/
def Call.ParentsExist (db : Db) (c : Call) : Prop := ∀ p ∈ c.parents, db.IsDirectory p

instance (db : Db) (i : Inode) : Decidable (db.IsDirectory i) :=
  match h : db.inode i with
  | some iv =>
      if hd : isDir iv.mode = true then .isTrue ⟨iv, h, hd⟩
      else .isFalse fun ⟨jv, hj, hjd⟩ => by rw [h] at hj; cases hj; exact hd hjd
  | none => .isFalse fun ⟨jv, hj, _⟩ => by rw [h] at hj; cases hj

instance (db : Db) (c : Call) : Decidable (c.ParentsExist db) := by
  unfold Call.ParentsExist
  infer_instance

/-- Entries, counter, handles and pending deletions agree, and so do the records up to the
attributes of directories other than their mode. -/
structure Server.SameFiles (s s' : Server) : Prop where
  dirEntries : s'.db.dirEntries = s.db.dirEntries
  dataLocations : s'.db.dataLocations = s.db.dataLocations
  mode : ∀ i, (s'.db.inode i).map InodeValue.mode = (s.db.inode i).map InodeValue.mode
  file : ∀ {i iv}, isDir iv.mode = false → (s'.db.inode i = some iv ↔ s.db.inode i = some iv)
  next : s'.next = s.next
  openHandles : s'.openHandles = s.openHandles
  pendingDeletes : s'.pendingDeletes = s.pendingDeletes

namespace Server.SameFiles

variable {s s' : Server}

theorem entry (h : SameFiles s s') (p : Inode) (n : Name) : s'.db.entry p n = s.db.entry p n := by
  unfold Db.entry
  rw [h.dirEntries]

theorem names (h : SameFiles s s') (i : Inode) : s'.db.names i = s.db.names i :=
  Db.names_eq_of_dirEntries h.dirEntries i

theorem handles (h : SameFiles s s') (i : Inode) : s'.handles i = s.handles i := by
  unfold Server.handles
  rw [h.openHandles]

theorem isSome_inode (h : SameFiles s s') (i : Inode) :
    (s'.db.inode i).isSome = (s.db.inode i).isSome := by
  have hm := congrArg Option.isSome (h.mode i)
  simpa using hm

theorem mode_eq (h : SameFiles s s') {i : Inode} {iv' : InodeValue} (hi : s'.db.inode i = some iv') :
    ∃ iv, s.db.inode i = some iv ∧ iv.mode = iv'.mode := by
  have hm := h.mode i
  rw [hi] at hm
  exact Option.map_eq_some_iff.1 hm.symm

end Server.SameFiles

/-- A call under existing directories is an effect, and leaves the other records of files and
the types of directories as the effect left them. -/
theorem exec_files (cfg : Config) {s : Server} {c : Call} (hw : s.Wf) (hp : c.ParentsExist s.db)
    (hc : ∀ i, c ≠ .forceCompactInode i) :
    ∃ s₁, Effect s c (s.exec cfg c).1 s₁ ∧ SameFiles s₁ (s.exec cfg c).2 := by
  obtain ⟨s₁, he, hb⟩ := exec_effect cfg s c
  have hdir : ∀ p ∈ c.folds, ∀ iv, s₁.db.inode p = some iv → isDir iv.mode = true := by
    intro p hpm iv hiv
    have hpar : p ∈ c.parents := by
      cases c with
      | forceCompactInode i => exact absurd rfl (hc i)
      | _ => exact hpm
    obtain ⟨piv, hpiv, hpd⟩ := hp p hpar
    rcases he.origin hw hiv with ⟨old, hold, ht⟩ | hnext
    · rw [hpiv] at hold
      cases hold
      rw [isDir_of_fileType_eq ht, hpd]
    · exact absurd hnext (Nat.ne_of_lt (hw.db.inode_lt hpiv))
  refine ⟨s₁, he,
    { dirEntries := hb.dirEntries
      dataLocations := hb.dataLocations
      mode := ?_
      file := ?_
      next := hb.next
      openHandles := hb.openHandles
      pendingDeletes := hb.pendingDeletes }⟩
  · intro i
    rcases hb.inode i with h | ⟨-, iv, ds, h₁, h₂⟩
    · rw [h]
    · rw [h₁, h₂]
      simp
  · intro i iv hd
    rcases hb.inode i with h | ⟨hm, jv, ds, h₁, h₂⟩
    · rw [h]
    · have hjd := hdir i hm jv h₁
      rw [h₁, h₂]
      constructor
      · intro e
        cases e
        rw [foldDeltas_mode, hjd] at hd
        cases hd
      · intro e
        cases e
        rw [hjd] at hd
        cases hd

/-! ## What only creations change -/

/-- `create`, `create_and_open`, `mkdir` and `symlink`. -/
def Call.makesObject : Call → Bool
  | .create _ _ _ _ _ | .createAndOpen _ _ _ _ _ _ | .mkdir _ _ _ _ _ | .symlink _ _ _ _ _ => true
  | _ => false

/-- A part of the database outside records, entries, data locations and deltas. -/
structure Db.Aside {α : Type} (f : Db → α) : Prop where
  applyOp : ∀ (db : Db) (op : BatchOp), (∀ i t, op ≠ .putSymlink i t) → (∀ i, op ≠ .deleteSymlink i) →
    f (db.applyOp op) = f db
  deltas : ∀ (db : Db) (m : OrdMap DeltaKey DeltaOp), f { db with deltaEntries := m } = f db

namespace Db.Aside

variable {α : Type} {f : Db → α}

theorem applyBatch (hf : Aside f) (db : Db) {ops : List BatchOp}
    (h : ∀ op ∈ ops, (∀ i t, op ≠ .putSymlink i t) ∧ ∀ i, op ≠ .deleteSymlink i) :
    f (db.applyBatch ops) = f db := by
  induction ops generalizing db with
  | nil => rfl
  | cons op ops ih =>
      obtain ⟨hput, hdel⟩ := h op List.mem_cons_self
      rw [applyBatch_cons, ih (db.applyOp op) fun o ho => h o (List.mem_cons_of_mem _ ho)]
      exact hf.applyOp db op hput hdel

theorem parentDeltas (hf : Aside f) (cfg : Config) (s : Server) (p : Inode) (ds : List DeltaOp) :
    f (s.parentDeltas cfg p ds).db = f s.db := by
  unfold Server.parentDeltas
  split
  · refine hf.applyBatch s.db fun op ho => ?_
    have hd := Server.Bookkeeping.isDelta_deltaPuts p ds (s.seqs p) op ho
    exact ⟨fun i t e => (by rw [e] at hd; cases hd), fun i e => (by rw [e] at hd; cases hd)⟩
  · split
    · exact hf.applyBatch s.db (by simp)
    · rfl

theorem parentDeltasAll (hf : Aside f) (cfg : Config) (dss : List (Inode × List DeltaOp)) :
    ∀ s : Server, f (s.parentDeltasAll cfg dss).db = f s.db := by
  induction dss with
  | nil => exact fun _ => rfl
  | cons d dss ih => exact fun s => (ih _).trans (hf.parentDeltas cfg s d.1 d.2)

theorem renameOps (hf : Aside f) (db : Db) (p : Inode) (n : Name) (np : Inode) (nn : Name) (src : Inode)
    (srcIv : InodeValue) (dst : Option DirValue) (vic : Victim) (ts : Nat) :
    f (db.applyBatch (renameOps p n np nn src srcIv dst vic ts)) = f db := by
  refine hf.applyBatch db fun op ho => ?_
  unfold RucksFs.renameOps Victim.ops removeDstOps at ho
  rcases vic with ⟨_ | _, _, _ | _⟩ <;> cases dst <;> simp at ho <;> grind

end Db.Aside

/-- A call that makes no object leaves such a part alone. -/
theorem Outcome.aside {α : Type} {f : Db → α} (hf : Db.Aside f) {cfg : Config} {s s' : Server} {c : Call}
    {r : Reply} (h : Outcome cfg s c r s') (hc : c.makesObject = false) : f s'.db = f s.db := by
  have hload : ∀ i, (s.load i).2.db = s.db := by
    intro i
    obtain ⟨c, hc⟩ := s.load_snd i
    rw [hc]
  cases h with
  | failed _ hs => rcases hs with rfl | rfl <;> rfl
  | loaded i => rw [hload]
  | made hk => cases hk <;> cases hc
  | madeOpen => cases hc
  | link => exact (hf.parentDeltas _ _ _ _).trans (hf.applyBatch s.db (by simp))
  | unlinkDrop =>
      exact (hf.deltas _ _).trans ((hf.parentDeltas _ _ _ _).trans (hf.applyBatch s.db (by simp)))
  | @unlinkKeep p n v iv he hd hi hk =>
      unfold Server.unlinkedKeep
      dsimp only
      split <;> exact (hf.parentDeltas _ _ _ _).trans (hf.applyBatch s.db (by simp))
  | rmdir =>
      exact (hf.deltas _ _).trans ((hf.parentDeltas _ _ _ _).trans (hf.applyBatch s.db (by simp)))
  | @rename p n np nn v srcIv vic he hi hv hemp =>
      have hforget : ∀ t : Server, f (t.forget (s.db.entry np nn)).db = f t.db := by
        intro t
        cases s.db.entry np nn with
        | none => rfl
        | some d => exact hf.deltas _ _
      dsimp only
      rw [(Server.db_touchAll _ _).1]
      exact (hforget _).trans ((hf.parentDeltasAll _ _ _).trans (hf.renameOps s.db _ _ _ _ _ _ _ _ _))
  | @rewrite _ _ _ _ _ t _ _ _ _ _ hs =>
      have ht : t.db = s.db := by rcases hs with rfl | rfl <;> rfl
      exact (hf.applyBatch t.db (by simp)).trans (congrArg f ht)
  | @opened i => exact congrArg f (hload i)
  | @openedTrunc i =>
      refine (hf.applyBatch (s.load i).2.db (by simp)).trans ?_
      rw [hload]
  | released => rw [s.checkAndClear_db]
  | @releasedDrop i =>
      refine (hf.deltas _ _).trans ((hf.applyBatch _ (by simp)).trans ?_)
      rw [s.checkAndClear_db]
  | compacted hi =>
      refine hf.applyBatch s.db fun op ho => ?_
      rcases List.mem_cons.1 ho with rfl | ho
      · simp
      · obtain ⟨q, -, rfl⟩ := List.mem_map.1 ho
        simp
  | idle => rfl

end RucksFs
