import RucksFs.Server.Contract

/-!
# Every call meets its contract

The operations of `RucksFs.Server.Ops` followed through their effects, each against `contract`.  The
interleaving with other calls does not appear here any more.

* `Call.meets_contract` — for every call, whatever the build and the clock.
-/

set_option autoImplicit false

namespace RucksFs

open Server Prog Op

/-- A batch followed by the parents' deltas commits as the batch alone would. -/
theorem ParentStep.committing {cfg : Config} {c : Call} {l l' : Local}
    {dss : List (Inode × List DeltaOp)} (h : ParentStep cfg l dss l') (hs : l.tx.seqs = [])
    (hw : ∀ db next, l'.tx.Valid db next → db.Wf next → Writes db l' c l.tx.batch dss) :
    ∀ db next, l'.tx.Valid db next → db.Wf next → Committing cfg c l' db := by
  intro db next hv hwf
  obtain ⟨qs, rest, hq, hb, -, hp⟩ := h.part
  rw [hs, List.nil_append] at hq
  exact ⟨l.tx.batch, dss, rest, hb, hw db next hv hwf, by rw [hq]; exact hp db next hv⟩

section

variable {α : Type} {cfg : Config} {strict : Prop} {c : Call} {E : Local → Prop} {l : Local} {fs : List Inode}
  {p i np : Inode} {n nn : Name} {Q : Unit → Local → Prop} {uid gid mode ts : Nat} {dst : Option DirValue}
  {ds : List DeltaOp} {iv : InodeValue}

theorem wp_forM_push (f : α → BatchOp) : ∀ (xs : List α) {l : Local} {Q : Unit → Local → Prop},
    (∀ x ∈ xs, (f x).row.isKey = false) →
    Q () { l with tx := { l.tx with
      batch := l.tx.batch ++ xs.map f, locks := (xs.map fun x => (f x).row).reverse ++ l.tx.locks } } →
    wpE (contract cfg strict c) E (forM xs fun x => push (f x)) Q l
  | [], l, Q, _, h => by simpa using h
  | x :: xs, l, Q, hx, h => by
      rw [List.forM_cons, wpE_bind]
      refine wp_push (fun _ => .side (hx x List.mem_cons_self))
        (wp_forM_push f xs (fun y hy => hx y (List.mem_cons_of_mem _ hy)) ?_)
      simpa using h

/-- No deltas take a link away. -/
theorem deltasOk_touch {reads : List (Inode × Name × Option DirValue)} (hp : p ∈ c.parents)
    (hds : ∀ k, .incrementNlink k ∈ ds → k = 1) : DeltasOk c reads (ds.map (Prod.mk p)) := by
  have hstep : ∀ x ∈ ds.map (Prod.mk p), ∀ k, x.2 = .incrementNlink k → k = 1 := by
    intro x hx k hk
    obtain ⟨d, hd, rfl⟩ := List.mem_map.1 hx
    exact hds k (hk ▸ hd)
  refine ⟨fun x hx => ?_, fun x hx k hk => Or.inl (hstep x hx k hk), ?_⟩
  · obtain ⟨d, -, rfl⟩ := List.mem_map.1 hx
    exact hp
  · refine List.pairwise_of_forall_mem_list fun a ha b hb ha' => ?_
    have hone := hstep a ha _ ha'
    omega

theorem wp_createTxn {size nlink : Nat} {extra : Inode → List BatchOp} {deltas : Nat → List DeltaOp}
    {Q : InodeValue → Local → Prop} (hc : c.creates = some (p, n)) (hnl : c.isLink = false)
    (hkind : ∀ ts, isDir mode = false ∧ nlink = 1 ∧ deltas ts = touchDeltas ts ∨
      isDir mode = true ∧ nlink = 2 ∧ deltas ts = .incrementNlink 1 :: touchDeltas ts)
    (hx : ∀ i, ∀ op ∈ extra i, op.IsPayload) (hE : ∀ fs, E ⟨{}, fs⟩) (h : ∀ iv fs, Q iv ⟨{}, fs⟩) :
    wpE (contract cfg strict c) E (createTxn cfg p n size mode nlink uid gid extra deltas) Q ⟨{}, fs⟩ := by
  unfold createTxn
  refine wp_executeWithRetry hE fun fs => ?_
  rw [wpE_bind]
  refine wp_getForUpdateDirEntry (fun _ => .firstEntry hc hnl rfl) rfl trivial fun o _ => ?_
  cases o with
  | some v => trivial
  | none =>
      show wpE _ _ (alloc >>= _) _ _
      rw [wpE_bind]
      refine wp_alloc fun i => ?_
      rw [wpE_bind]
      refine wp_nowSecs fun ts => ?_
      dsimp only
      rw [wpE_bind]
      refine wp_push (fun _ => .fresh hc hnl rfl List.mem_cons_self) ?_
      rw [wpE_bind]
      refine wp_push (fun _ => .held (List.mem_cons_of_mem _ List.mem_cons_self)) ?_
      rw [wpE_bind]
      refine wp_forM_push (fun op => op) _ (fun op ho => BatchOp.not_isKey_of_isPayload (hx i op ho)) ?_
      rw [List.map_id', wpE_bind]
      refine wp_batchParentDeltas ?_ fun l' hl' => ?_
      · refine deltasOk_touch ((Call.parents_of_creates hc).1 ▸ List.mem_cons_self) fun k hk => ?_
        rcases hkind ts with ⟨-, -, hd⟩ | ⟨-, -, hd⟩
        · simp [hd, touchDeltas] at hk
        · simpa [hd, touchDeltas] using hk
      · rw [wpE_bind]
        refine wp_commit (hl'.committing rfl fun db next hv hwf => ?_) trivial ?_
        · refine .create hc hnl (hv.entry ?_) ?_ (hx i) (hkind ts) ?_
          · rw [hl'.ext.dirReads]
            exact List.mem_cons_self
          · rw [hl'.ext.allocated]
            exact List.mem_cons_self
          · rw [hl'.ext.dirReads]
        · exact h _ _

/-! ## Effects outside of transactions -/

theorem wp_validateName (hE : E l) (h : Q () l) : wpE (contract cfg strict c) E (validateName n) Q l := by
  unfold validateName
  split
  · exact hE
  · exact h

theorem wp_cachePut {v : InodeValue} (h : Q () l) : wpE (contract cfg strict c) E (cachePut i v) Q l :=
  wp_quiet trivial (fun _ => rfl) (fun _ => rfl) fun _ => h

theorem wp_cacheInvalidate (h : Q () l) : wpE (contract cfg strict c) E (cacheInvalidate i) Q l :=
  wp_quiet trivial (fun _ => rfl) (fun _ => rfl) fun _ => h

/-- `cache.apply_deltas` and `mark_dirty`. -/
theorem wp_touch (h : Q () l) : wpE (contract cfg strict c) E (do cacheApplyDeltas p ds; markDirty p) Q l := by
  rw [wpE_bind]
  refine wp_quiet trivial (fun _ => rfl) (fun _ => rfl) fun _ => ?_
  exact wp_quiet trivial (fun _ => rfl) (fun _ => rfl) fun _ => h

theorem wp_afterCreate {Q : FileAttr → Local → Prop} (hE : E l) (h : ∀ a, Q a l) :
    wpE (contract cfg strict c) E (afterCreate p iv ds) Q l := by
  have hpersist : wpE (contract cfg strict c) E maybePersist (fun _ l' => l' = l) l := by
    unfold maybePersist
    rw [wpE_bind]
    refine wp_quiet trivial (fun _ => rfl) (fun _ => rfl) fun val => ?_
    split
    · refine wp_perform trivial (fun _ _ _ _ => rfl) fun x r hr => ?_
      cases hr
      exact hE
    · rfl
  unfold afterCreate
  rw [wpE_bind]
  refine wpE_mono (fun _ l' hl' => ?_) (fun _ h => h) hpersist
  subst hl'
  rw [wpE_bind]
  refine wp_cachePut ?_
  rw [wpE_bind]
  refine wp_quiet trivial (fun _ => rfl) (fun _ => rfl) fun _ => ?_
  rw [wpE_bind]
  exact wp_quiet trivial (fun _ => rfl) (fun _ => rfl) fun _ => h _

theorem wp_loadInode {Q : InodeValue → Local → Prop} (hE : E l) (h : ∀ v, Q v l) :
    wpE (contract cfg strict c) E (loadInode i) Q l := by
  unfold loadInode
  rw [wpE_bind]
  refine wp_quiet trivial (fun _ => rfl) (fun _ => rfl) fun o => ?_
  cases o with
  | some v => exact h v
  | none =>
      dsimp only
      rw [wpE_bind]
      refine wp_perform trivial (fun s _ _ _ => ?_) fun x r hr => by cases hr; exact hE
      show wpE _ _ (orNotFound (s.db.inode i) >>= _) _ _
      rw [wpE_bind]
      refine wp_orNotFound (fun base _ => ?_) hE
      rw [wpE_bind]
      refine wp_perform trivial (fun s _ _ _ => ?_) fun x r hr => by cases hr; exact hE
      show wpE _ _ (cachePut i _ >>= _) _ _
      rw [wpE_bind]
      exact wp_cachePut (h _)

/-! ## Creation -/

theorem wp_create {Q : FileAttr → Local → Prop} (hc : c.creates = some (p, n)) (hnl : c.isLink = false)
    (hE : ∀ fs, E ⟨{}, fs⟩) (h : ∀ a fs, Q a ⟨{}, fs⟩) :
    wpE (contract cfg strict c) E (create cfg p n mode uid gid) Q ⟨{}, fs⟩ := by
  unfold create
  rw [wpE_bind]
  refine wp_validateName (hE fs) ?_
  rw [wpE_bind]
  refine wp_createTxn hc hnl (fun ts => Or.inl ⟨isDir_reg mode, rfl, rfl⟩) (fun i => ?_) hE ?_
  · simp [BatchOp.IsPayload]
  · exact fun iv fs => wp_afterCreate (hE fs) fun a => h a fs

theorem wp_mkdir {Q : FileAttr → Local → Prop} (hc : c.creates = some (p, n)) (hnl : c.isLink = false)
    (hE : ∀ fs, E ⟨{}, fs⟩) (h : ∀ a fs, Q a ⟨{}, fs⟩) :
    wpE (contract cfg strict c) E (mkdir cfg p n mode uid gid) Q ⟨{}, fs⟩ := by
  unfold mkdir
  rw [wpE_bind]
  refine wp_validateName (hE fs) ?_
  rw [wpE_bind]
  refine wp_createTxn hc hnl (fun ts => Or.inr ⟨isDir_dir mode, rfl, rfl⟩) (fun i => ?_) hE ?_
  · simp
  · exact fun iv fs => wp_afterCreate (hE fs) fun a => h a fs

theorem wp_symlink {target : List Byte} {Q : FileAttr → Local → Prop} (hc : c.creates = some (p, n))
    (hnl : c.isLink = false) (hE : ∀ fs, E ⟨{}, fs⟩) (h : ∀ a fs, Q a ⟨{}, fs⟩) :
    wpE (contract cfg strict c) E (symlink cfg p n target uid gid) Q ⟨{}, fs⟩ := by
  unfold symlink
  rw [wpE_bind]
  refine wp_validateName (hE fs) ?_
  rw [wpE_bind]
  refine wp_createTxn hc hnl (fun ts => Or.inl ⟨isDir_lnk, rfl, rfl⟩) (fun i => ?_) hE ?_
  · simp [BatchOp.IsPayload]
  · exact fun iv fs => wp_afterCreate (hE fs) fun a => h a fs

/-! ## Rewriting a record -/

theorem committing_of_writes {main : List BatchOp} (hb : l.tx.batch = main) (hs : l.tx.seqs = [])
    (hw : ∀ db next, l.tx.Valid db next → db.Wf next → Writes db l c main []) :
    ∀ db next, l.tx.Valid db next → db.Wf next → Committing cfg c l db := by
  intro db next hv hwf
  refine ⟨main, [], [], by simpa using hb, hw db next hv hwf, ?_⟩
  unfold ParentPart
  cases cfg.build <;> simp [hs, flatDeltas, RecordWrites]

/-- A record read under lock is replaced and committed, and `x` follows. -/
theorem wp_rewriteRecord {iv' : InodeValue} {o : Option InodeValue} {x : Op α} {Q : α → Local → Prop}
    (hc : c.rewritten = some i) (ho : ∃ iv, o = some iv ∧ fileType iv'.mode = fileType iv.mode ∧ iv'.nlink = iv.nlink)
    (h : ∀ tx, wpE (contract cfg strict c) (fun _ => True) x Q ⟨tx, fs⟩) :
    wpE (contract cfg strict c) (fun _ => True) (do push (.putInode i iv'); commit; x) Q
      ⟨{ locks := [.inode i], inodeReads := [(i, o)] }, fs⟩ := by
  obtain ⟨iv, rfl, ht, hl⟩ := ho
  rw [wpE_bind]
  refine wp_push (fun _ => .held List.mem_cons_self) ?_
  rw [wpE_bind]
  refine wp_commit (committing_of_writes rfl rfl fun db next hv _ => ?_)
    trivial (h _)
  exact .rewrite hc (hv.inode List.mem_cons_self) ht hl rfl

theorem wp_setattr {req : SetAttrRequest} {Q : SetAttrResponse → Local → Prop} (hc : c.rewritten = some i)
    (hE : ∀ fs, E ⟨{}, fs⟩) (h : ∀ a fs, Q a ⟨{}, fs⟩) : wpE (contract cfg strict c) E (setattr i req) Q ⟨{}, fs⟩ := by
  unfold setattr
  rw [wpE_bind]
  refine wp_executeWithRetry hE fun fs => ?_
  rw [wpE_bind]
  refine wp_getForUpdateInode (fun _ => .first (Call.creates_of_parents (Call.parents_of_rewritten hc)) rfl) rfl trivial fun s _ _ => ?_
  rw [wpE_bind]
  refine wp_orNotFound (fun raw hraw => ?_) trivial
  rw [wpE_bind]
  refine wp_nowSecs fun ts => ?_
  refine wp_rewriteRecord hc ⟨raw, hraw, req.fileType_apply ts raw, req.nlink_apply ts raw⟩ fun tx => ?_
  rw [wpE_bind]
  exact wp_cachePut (h _ _)

theorem wp_reportWrite {newSize mtime : Nat} (hc : c.rewritten = some i) (hE : ∀ fs, E ⟨{}, fs⟩)
    (h : ∀ fs, Q () ⟨{}, fs⟩) : wpE (contract cfg strict c) E (reportWrite i newSize mtime) Q ⟨{}, fs⟩ := by
  unfold reportWrite
  refine wp_executeWithRetry hE fun fs => ?_
  rw [wpE_bind]
  refine wp_getForUpdateInode (fun _ => .first (Call.creates_of_parents (Call.parents_of_rewritten hc)) rfl) rfl trivial fun s _ _ => ?_
  rw [wpE_bind]
  refine wp_orNotFound (fun raw hraw => ?_) trivial
  exact wp_rewriteRecord hc ⟨raw, hraw, rfl, rfl⟩ fun tx => wp_cachePut (h _)

theorem wp_openFile {flags : Nat} {Q : OpenResponse → Local → Prop} (hc : c.rewritten = some i)
    (hE : ∀ fs, E ⟨{}, fs⟩) (h : ∀ a fs, Q a ⟨{}, fs⟩) :
    wpE (contract cfg strict c) E (openFile cfg i flags) Q ⟨{}, fs⟩ := by
  have hopen : ∀ fs, wpE (contract cfg strict c) E (do
      handleIncr i
      let serverId := (← getDataLocation i).getD cfg.defaultDataLocation.serverId
      return ⟨i, ⟨serverId⟩⟩) Q ⟨{}, fs⟩ := by
    intro fs
    rw [wpE_bind]
    refine wp_quiet trivial (fun _ => rfl) (fun _ => rfl) fun _ => ?_
    rw [wpE_bind]
    exact wp_perform trivial (fun s _ _ _ => h _ _) fun x r hr => by cases hr; exact hE fs
  unfold openFile
  rw [wpE_bind]
  refine wp_loadInode (hE fs) fun iv => ?_
  refine wpE_guard (fun _ => hE fs) fun _ => ?_
  dsimp only
  split
  · rw [wpE_bind]
    refine wp_executeWithRetry hE fun fs => ?_
    rw [wpE_bind]
    refine wp_getForUpdateInode (fun _ => .first (Call.creates_of_parents (Call.parents_of_rewritten hc)) rfl) rfl trivial fun s _ _ => ?_
    rw [wpE_bind]
    refine wp_orNotFound (fun raw hraw => ?_) trivial
    rw [wpE_bind]
    refine wp_nowSecs fun ts => ?_
    exact wp_rewriteRecord hc ⟨raw, hraw, rfl, rfl⟩ fun tx => wp_cachePut (hopen _)
  · exact hopen fs

/-! ## Link, unlink, rmdir -/

theorem wp_link {t : Inode} {Q : FileAttr → Local → Prop} (hE : ∀ fs, E ⟨{}, fs⟩) (h : ∀ a fs, Q a ⟨{}, fs⟩) :
    wpE (contract cfg strict (.link p n t)) E (link cfg p n t) Q ⟨{}, fs⟩ := by
  unfold link
  rw [wpE_bind]
  refine wp_validateName (hE fs) ?_
  rw [wpE_bind]
  refine wp_executeWithRetry hE fun fs => ?_
  rw [wpE_bind]
  refine wp_getForUpdateInode (fun _ => .linkTarget rfl) rfl trivial fun s _ _ => ?_
  rw [wpE_bind]
  refine wp_orNotFound (fun iv hiv => ?_) trivial
  refine wpE_guard (fun _ => trivial) fun hd => ?_
  have hd : isDir iv.mode = false := by simpa using hd
  rw [wpE_bind]
  refine wp_getForUpdateDirEntry (fun _ => .linkEntry rfl (hiv ▸ List.mem_cons_self) hd) rfl trivial
    fun o _ => ?_
  refine wpE_guard (fun _ => trivial) fun ho => ?_
  have ho : o = none := by simpa using ho
  subst ho
  rw [wpE_bind]
  refine wp_getForUpdateInode (fun _ => .linkParent rfl (hiv ▸ List.mem_cons_self) hd) rfl trivial
    fun s' _ _ => ?_
  rw [wpE_bind]
  refine wp_orNotFound (fun piv hpiv => ?_) trivial
  refine wpE_guard (fun _ => trivial) fun hpd => ?_
  rw [wpE_bind]
  refine wp_nowSecs fun ts => ?_
  rw [wpE_bind]
  refine wp_push (fun _ => .held (by simp [BatchOp.row])) ?_
  rw [wpE_bind]
  refine wp_push (fun _ => .held (by simp [BatchOp.row])) ?_
  rw [wpE_bind]
  refine wp_nowSecs fun ts' => ?_
  rw [wpE_bind]
  refine wp_batchParentDeltas (deltasOk_touch List.mem_cons_self (by simp)) fun l' hl' => ?_
  rw [wpE_bind]
  refine wp_commit (hl'.committing rfl fun db next hv hwf => ?_) trivial ?_
  · have hreads := hl'.ext.inodeReads
    refine .link ?_ hd (hv.entry ?_) ⟨piv, ?_, by simpa using hpd⟩ ?_ ?_
    · rw [← hiv]
      exact hv.inode (hreads (t, s.db.inode t) (List.mem_cons_of_mem _ List.mem_cons_self))
    · rw [hl'.ext.dirReads]
      exact List.mem_cons_self
    · rw [← hpiv]
      exact hv.inode (hreads (p, s'.db.inode p) List.mem_cons_self)
    · exact hl'.ext.locks _ (by simp)
    · rw [hl'.ext.dirReads]
  · rw [wpE_bind]
    refine wp_cachePut ?_
    show wpE _ _ (cacheApplyDeltas p _ >>= _) _ _
    rw [wpE_bind]
    refine wp_quiet trivial (fun _ => rfl) (fun _ => rfl) fun _ => ?_
    rw [wpE_bind]
    exact wp_quiet trivial (fun _ => rfl) (fun _ => rfl) fun _ => h _ _

/-- What is left of `unlink` after its transaction. -/
theorem wp_unlinkTail {o : Option (Inode × Bool)} {Q : List Inode → Local → Prop}
    (ho : ∀ i, o = some (i, true) → i ∈ l.files) (h : ∀ a, Q a l) :
    wpE (contract cfg strict c) E (do
      let purged ← match o with
        | some (inode, true) => do
            pendingInsert inode
            pure []
        | some (inode, false) => pure [inode]
        | none => pure []
      cacheApplyDeltas p [.setMtime ts, .setCtime ts]
      markDirty p
      return purged) Q l := by
  have htail : ∀ a, wpE (contract cfg strict c) E (do
      cacheApplyDeltas p [.setMtime ts, .setCtime ts]
      markDirty p
      return a) Q l := by
    intro a
    rw [wpE_bind]
    refine wp_quiet trivial (fun _ => rfl) (fun _ => rfl) fun _ => ?_
    rw [wpE_bind]
    exact wp_quiet trivial (fun _ => rfl) (fun _ => rfl) fun _ => h a
  rcases o with _ | ⟨i, _ | _⟩
  · exact htail []
  · exact htail [i]
  · rw [wpE_bind]
    exact wp_quiet (ho i rfl) (fun _ => rfl) (fun _ => rfl) fun _ => htail []

/-- Either the record is kept, with or without a deferred deletion, or it goes. -/
theorem wp_unlinkChild {Q : InodeValue × Option (Inode × Bool) → Local → Prop} (hlock : .inode i ∈ l.tx.locks)
    (hkeep : ∀ ts o, o = none ∨ o = some (i, true) →
      Q ({ iv with ctime := ts }, o) { l with tx := { l.tx with
      batch := l.tx.batch ++ [.putInode i { iv with ctime := ts }], locks := .inode i :: l.tx.locks } })
    (hdrop : iv.nlink = 0 → Q (iv, some (i, false)) { l with tx := { l.tx with
      batch := l.tx.batch ++ [.deleteInode i, .deleteDataLocation i]
      locks := .dataLocation i :: .inode i :: l.tx.locks } }) :
    wpE (contract cfg strict c) E (unlinkChild i iv) Q l := by
  unfold unlinkChild
  split
  · rename_i hz
    rw [wpE_bind]
    refine wp_quiet trivial (fun _ => rfl) (fun _ => rfl) fun count => ?_
    split
    · rw [wpE_bind]
      refine wp_nowSecs fun ts => ?_
      rw [wpE_bind]
      exact wp_push (fun _ => .held hlock) (hkeep ts _ (Or.inr rfl))
    · rw [wpE_bind]
      refine wp_push (fun _ => .held hlock) ?_
      rw [wpE_bind]
      refine wp_push (fun _ => .side rfl) ?_
      simpa [BatchOp.row] using hdrop hz
  · rw [wpE_bind]
    refine wp_nowSecs fun ts => ?_
    rw [wpE_bind]
    exact wp_push (fun _ => .held hlock) (hkeep ts _ (Or.inl rfl))

theorem wp_unlink {Q : List Inode → Local → Prop} (hE : ∀ fs, E ⟨{}, fs⟩) (h : ∀ a fs, Q a ⟨{}, fs⟩) :
    wpE (contract cfg strict (.unlink p n)) E (unlink cfg p n) Q ⟨{}, fs⟩ := by
  unfold unlink
  rw [wpE_bind]
  refine wp_validateName (hE fs) ?_
  rw [wpE_bind]
  refine wp_executeWithRetry hE fun fs => ?_
  rw [wpE_bind]
  refine wp_getForUpdateDirEntry (fun _ => .first rfl rfl) rfl trivial fun o _ => ?_
  rw [wpE_bind]
  refine wp_orNotFound (fun v hv => ?_) trivial
  subst hv
  refine wpE_guard (fun _ => trivial) fun hd => ?_
  have hd : isDir v.mode = false := by simpa using hd
  rw [wpE_bind]
  refine wp_getForUpdateInode (fun _ => .child (Or.inl ⟨rfl, hd⟩) rfl List.mem_cons_self) rfl trivial
    fun s hs hw => ?_
  rw [wpE_bind]
  refine wp_orNotFound (fun iv hiv => ?_) trivial
  -- the record has the type of the entry, so the call knows it is no directory
  have hfile : isDir iv.mode = false := (hw.isDir_eq (hs.entry List.mem_cons_self) hiv).trans hd
  have hfiles : Eff.remember s fs (.getForUpdateInode v.inode) = v.inode :: fs := by
    simp [Eff.remember, hiv, hfile]
  rw [hfiles]
  rw [wpE_bind]
  refine wp_push (fun _ => .held (by simp [BatchOp.row])) ?_
  rw [wpE_bind]
  refine wp_unlinkChild (by simp) (fun ts b hb => ?_) fun hz => ?_
  · -- the record stays, with one link less
    dsimp only
    rw [wpE_bind]
    refine wp_nowSecs fun ts' => ?_
    rw [wpE_bind]
    refine wp_batchParentDeltas (deltasOk_touch List.mem_cons_self (by simp)) fun l' hl' => ?_
    rw [wpE_bind]
    refine wp_commit (hl'.committing rfl fun db next hv hwf => ?_) trivial ?_
    · have hread : db.inode v.inode = some iv :=
        (hv.inode (hl'.ext.inodeReads _ List.mem_cons_self)).trans hiv
      refine .unlinkKeep (hv.entry ?_) hd hread ?_
      · rw [hl'.ext.dirReads]
        exact List.mem_cons_self
      · rw [hl'.ext.dirReads]
    · have hmem : v.inode ∈ l'.files := hl'.ext.files _ List.mem_cons_self
      rcases hb with rfl | rfl
      · rw [wpE_bind]
        refine wp_cachePut ?_
        rw [wpE_pure]
        exact wp_unlinkTail (o := none) (fun i hi => by cases hi) fun a => h a _
      · rw [wpE_bind]
        refine wp_cachePut ?_
        rw [wpE_pure]
        exact wp_unlinkTail (o := some (v.inode, true)) (fun i hi => by cases hi; exact hmem)
          fun a => h a _
  · -- the last link of a file that nobody has open
    dsimp only
    rw [wpE_bind]
    refine wp_nowSecs fun ts' => ?_
    rw [wpE_bind]
    refine wp_batchParentDeltas (deltasOk_touch List.mem_cons_self (by simp)) fun l' hl' => ?_
    rw [wpE_bind]
    refine wp_commit (hl'.committing rfl fun db next hv hwf => ?_) trivial ?_
    · have hread : db.inode v.inode = some iv :=
        (hv.inode (hl'.ext.inodeReads _ List.mem_cons_self)).trans hiv
      refine .unlinkDrop (hv.entry ?_) hd hread hz ?_
      · rw [hl'.ext.dirReads]
        exact List.mem_cons_self
      · rw [hl'.ext.dirReads]
    · rw [wpE_bind]
      refine wp_clearDeltas rfl (fun _ => Or.inr (hl'.ext.files _ List.mem_cons_self)) ?_
      rw [wpE_bind]
      refine wp_cacheInvalidate ?_
      rw [wpE_pure]
      exact wp_unlinkTail (o := some (v.inode, false)) (fun i hi => by cases hi) fun a => h a _

/-- An entry was read and nothing in the batch names its inode. -/
theorem mem_retiring {tx : Txn} {v : DirValue} (hr : (p, n, some v) ∈ tx.dirReads)
    (hb : ∀ op ∈ tx.batch, ∀ q m w, op = .putDirEntry q m w → w.inode ≠ v.inode) : v.inode ∈ tx.retiring := by
  unfold Txn.retiring
  refine List.mem_filter.2 ⟨List.mem_filterMap.2 ⟨_, hr, rfl⟩, ?_⟩
  suffices h : tx.putsName v.inode = false by rw [h]; rfl
  unfold Txn.putsName
  rw [List.any_eq_false]
  intro op ho
  cases op with
  | putDirEntry q m w => simpa using hb _ ho q m w rfl
  | _ => simp

theorem wp_rmdir (hE : ∀ fs, E ⟨{}, fs⟩) (h : ∀ fs, Q () ⟨{}, fs⟩) :
    wpE (contract cfg strict (.rmdir p n)) E (rmdir cfg p n) Q ⟨{}, fs⟩ := by
  unfold rmdir
  rw [wpE_bind]
  refine wp_validateName (hE fs) ?_
  rw [wpE_bind]
  refine wp_executeWithRetry hE fun fs => ?_
  rw [wpE_bind]
  refine wp_getForUpdateDirEntry (fun _ => .first rfl rfl) rfl trivial fun o _ => ?_
  rw [wpE_bind]
  refine wp_orNotFound (fun v hv => ?_) trivial
  subst hv
  refine wpE_guard (fun _ => trivial) fun hd => ?_
  have hd : isDir v.mode = true := by simpa using hd
  rw [wpE_bind]
  refine wp_getForUpdateInode (fun _ => .child (Or.inr ⟨rfl, hd⟩) rfl List.mem_cons_self) rfl trivial
    fun s hs hw => ?_
  rw [wpE_bind]
  refine wp_orNotFound (fun iv hiv => ?_) trivial
  rw [wpE_bind]
  refine wp_isDirEmpty List.mem_cons_self rfl trivial fun s' hs' => ?_
  refine wpE_guard (fun _ => trivial) fun hemp => ?_
  have hemp : s'.db.isDirEmpty v.inode = true := by simpa using hemp
  -- the entry that was read lies in `p`, so the empty directory is another one
  have hne : v.inode ≠ p := by
    intro e
    have hread : s'.db.entry p n = some v := hs'.entry List.mem_cons_self
    rw [← e, Db.isDirEmpty_iff.1 hemp n] at hread
    cases hread
  rw [hemp]
  rw [wpE_bind]
  refine wp_push (fun _ => .held (by simp [BatchOp.row])) ?_
  rw [wpE_bind]
  refine wp_push (fun _ => .held (by simp [BatchOp.row])) ?_
  rw [wpE_bind]
  refine wp_nowSecs fun ts => ?_
  rw [wpE_bind]
  refine wp_batchParentDeltas ?_ fun l' hl' => ?_
  · refine ⟨by simp [Txn.taken, Call.parents, Call.folds], ?_, by simp [Txn.taken]⟩
    intro x hx k hk
    simp only [Txn.taken, List.map_nil, List.nil_append, List.map_cons, List.mem_cons] at hx
    rcases hx with rfl | rfl | rfl | hx
    · cases hk
      exact Or.inr ⟨rfl, n, v, List.mem_cons_self, hd⟩
    · cases hk
    · cases hk
    · cases hx
  · rw [wpE_bind]
    refine wp_commit (hl'.committing rfl fun db next hv hwf => ?_) trivial ?_
    · have hread : db.inode v.inode = some iv :=
        (hv.inode (hl'.ext.inodeReads _ List.mem_cons_self)).trans hiv
      refine .rmdir (hv.entry ?_) hd hread ?_ hne ?_
      · rw [hl'.ext.dirReads]
        exact List.mem_cons_self
      · rw [hl'.ext.emptyChecks]
        exact List.mem_cons_self
      · rw [hl'.ext.dirReads]
    · have hret : v.inode ∈ l'.tx.retiring := by
        refine mem_retiring (p := p) (n := n) ?_ ?_
        · rw [hl'.ext.dirReads]
          exact List.mem_cons_self
        · obtain ⟨qs, rest, -, hbatch, hrest, -⟩ := hl'.part
          rw [hbatch]
          intro op ho q m w e
          rcases List.mem_append.1 ho with ho | ho
          · subst e
            simp at ho
          · exact absurd e (hrest op ho q m w)
      rw [wpE_bind]
      refine wp_clearDeltas rfl (fun _ => Or.inl hret) ?_
      rw [wpE_bind]
      refine wp_cacheInvalidate ?_
      rw [wpE_pure]
      exact wp_touch (h _)

/-! ## Rename -/

theorem mem_of_lookup {vals : List (Inode × InodeValue)} (h : vals.lookup i = some iv) : (i, iv) ∈ vals := by
  obtain ⟨as, bs, rfl, -⟩ := List.lookup_eq_some_iff.1 h
  exact List.mem_append_right _ List.mem_cons_self

/-- What `lockInodes` has found is what every state up to the commit holds. -/
theorem wp_lockInodes : ∀ (ids : List Inode) {l : Local} {Q : List (Inode × InodeValue) → Local → Prop},
    l.tx.batch = [] → ids.Pairwise (· < ·) → (∀ i ∈ ids, l.RenameInode p np i) →
    (∀ k ∈ l.tx.locks, k = .dirEntry p n ∨ k = .dirEntry np nn ∨
      ∃ j, k = .inode j ∧ (∀ i ∈ ids, j < i) ∧ l.RenameInode p np j) →
    (∀ vals l', l.Extends l' → l'.tx.batch = [] → l'.tx.seqs = l.tx.seqs →
      (∀ i ∈ ids, .inode i ∈ l'.tx.locks) →
      (∀ db next, l'.tx.Valid db next → vals = db.lockedValues ids) →
      (∀ x ∈ vals, ∃ db next, l.tx.Valid db next ∧ db.Wf next ∧ db.inode x.1 = some x.2) → Q vals l') →
    wpE (contract cfg strict (.rename p n np nn)) (fun _ => True) (lockInodes ids) Q l
  | [], l, Q, hb, _, _, _, h =>
      h [] l (.refl l) hb rfl (by simp) (fun _ _ _ => rfl) (by simp)
  | i :: ids, l, Q, hb, hsort, hids, hheld, h => by
      obtain ⟨hlt, hsort⟩ := List.pairwise_cons.1 hsort
      unfold lockInodes
      rw [wpE_bind]
      refine wp_getForUpdateInode (fun _ => .ascend fun k hk => ?_) hb trivial fun s hs hw => ?_
      · refine (hheld k hk).imp id (Or.imp id ?_)
        rintro ⟨j, rfl, hj, hr⟩
        exact ⟨j, rfl, hj i List.mem_cons_self, hr⟩
      rw [wpE_bind]
      refine wp_lockInodes ids hb hsort (fun j hj => hids j (List.mem_cons_of_mem _ hj)) (fun k hk => ?_)
        fun vals l' hext hb' hseqs hlocks hvals hseen => ?_
      · rcases List.mem_cons.1 hk with rfl | hk
        · exact Or.inr (Or.inr ⟨i, rfl, hlt, hids i List.mem_cons_self⟩)
        · refine (hheld k hk).imp id (Or.imp id ?_)
          rintro ⟨j, rfl, hj, hr⟩
          exact ⟨j, rfl, fun x hx => hj x (List.mem_cons_of_mem _ hx), hr⟩
      have hfirst : l.Extends l' := by
        refine ⟨hext.dirReads, hext.allocated, hext.emptyChecks,
          fun x hx => hext.inodeReads x (List.mem_cons_of_mem _ hx),
          fun r hr => hext.locks r (List.mem_cons_of_mem _ hr), fun j hj => hext.files j ?_⟩
        exact Eff.mem_remember (e := .getForUpdateInode i) (s := s) hj
      have hlocks' : ∀ j ∈ i :: ids, .inode j ∈ l'.tx.locks := by
        intro j hj
        rcases List.mem_cons.1 hj with rfl | hj
        · exact hext.locks _ List.mem_cons_self
        · exact hlocks j hj
      have hread : ∀ db next, l'.tx.Valid db next → db.inode i = s.db.inode i :=
        fun db next hv => hv.inode (hext.inodeReads _ List.mem_cons_self)
      have hseen' : ∀ x ∈ vals, ∃ db next, l.tx.Valid db next ∧ db.Wf next ∧ db.inode x.1 = some x.2 := by
        intro x hx
        obtain ⟨db, next, hv, hw, hi⟩ := hseen x hx
        exact ⟨db, next, ⟨hv.entry, fun hm => hv.inode (List.mem_cons_of_mem _ hm), hv.fresh⟩, hw, hi⟩
      cases hi : s.db.inode i with
      | some iv =>
          refine h ((i, iv) :: vals) l' hfirst hb' hseqs hlocks' (fun db next hv => ?_) fun x hx => ?_
          · rw [Db.lockedValues, List.filterMap_cons, hread db next hv, hi, hvals db next hv]
            rfl
          · rcases List.mem_cons.1 hx with rfl | hx
            · exact ⟨s.db, s.next, hs, hw, hi⟩
            · exact hseen' x hx
      | none =>
          refine h vals l' hfirst hb' hseqs hlocks' (fun db next hv => ?_) hseen'
          rw [Db.lockedValues, List.filterMap_cons, hread db next hv, hi, hvals db next hv]
          rfl

/-- What the checks of `rename` against the destination leave behind. -/
structure TargetStep (srcIsDir : Bool) (ts : Nat) (dst : Option DirValue) (vic : Victim) (l l' : Local) :
    Prop where
  dirReads : l'.tx.dirReads = l.tx.dirReads
  inodeReads : l'.tx.inodeReads = l.tx.inodeReads
  allocated : l'.tx.allocated = l.tx.allocated
  seqs : l'.tx.seqs = l.tx.seqs
  locks : ∀ r ∈ l.tx.locks, r ∈ l'.tx.locks
  batch : l'.tx.batch = vic.ops
  victim : ∀ db next, l.tx.Valid db next → VictimOf db srcIsDir ts dst vic
  isDir : vic.wasDir = true → ∃ d, dst = some d ∧ RucksFs.isDir d.mode = true
  empty : ∀ d, dst = some d → vic.wasDir = true →
    d.inode ∈ l'.tx.emptyChecks ∧ ∀ q m w, (q, m, some w) ∈ l.tx.dirReads → d.inode ≠ q

theorem wp_renameTarget {srcIsDir : Bool} {ids : List Inode} {vals : List (Inode × InodeValue)}
    {Q : Option Inode × Bool → Local → Prop} (hb : l.tx.batch = [])
    (hlock : ∀ d, dst = some d → d.inode ∈ ids ∧ .inode d.inode ∈ l.tx.locks)
    (hvals : ∀ db next, l.tx.Valid db next → vals = db.lockedValues ids)
    (h : ∀ vic l', TargetStep srcIsDir ts dst vic l l' → Q (vic.delete, vic.wasDir) l') :
    wpE (contract cfg strict c) (fun _ => True) (renameTarget srcIsDir ts vals dst) Q l := by
  cases dst with
  | none =>
      exact h {} l ⟨rfl, rfl, rfl, rfl, fun _ hr => hr, hb, fun _ _ _ => .none, by simp, by simp⟩
  | some d =>
      obtain ⟨hmem, hrow⟩ := hlock d rfl
      unfold renameTarget
      refine wpE_guard (fun _ => trivial) fun h₁ => ?_
      refine wpE_guard (fun _ => trivial) fun h₂ => ?_
      split
      · rename_i hd
        have hs : srcIsDir = true := by simpa [hd] using h₂
        rw [wpE_bind]
        refine wp_isDirEmpty hrow hb trivial fun s hs' => ?_
        refine wpE_guard (fun _ => trivial) fun hemp => ?_
        have hemp : s.db.isDirEmpty d.inode = true := by simpa using hemp
        rw [hemp]
        refine h { wasDir := true } _ ⟨rfl, rfl, rfl, rfl, fun _ hr => hr, hb, fun _ _ _ => .dir hd hs,
          fun _ => ⟨d, rfl, hd⟩, fun d' hd' _ => ?_⟩
        cases hd'
        refine ⟨List.mem_cons_self, fun q m w hm e => ?_⟩
        have hread := hs'.entry hm
        rw [← e, Db.isDirEmpty_iff.1 hemp m] at hread
        cases hread
      · rename_i hd
        have hd : isDir d.mode = false := by simpa using hd
        have hs : srcIsDir = false := by simpa [hd] using h₁
        rw [wpE_bind]
        refine wp_orNotFound (fun iv hiv => ?_) trivial
        have hread : ∀ db next, l.tx.Valid db next → db.inode d.inode = some iv := by
          intro db next hv
          rw [← hiv, hvals db next hv, Db.lookup_lockedValues db hmem]
        split
        · rename_i hl
          rw [wpE_bind]
          refine wp_push (fun _ => .held hrow)
            (h { keep := some (d.inode, { iv with nlink := iv.nlink - 1, ctime := ts }) } _
            ⟨rfl, rfl, rfl, rfl, fun _ hr => List.mem_cons_of_mem _ hr, by simp [hb, Victim.ops], fun db next hv => ?_, by simp, by simp⟩)
          exact .keep hd hs (hread db next hv) hl
        · rename_i hl
          refine h { delete := some d.inode } l ⟨rfl, rfl, rfl, rfl, fun _ hr => hr, hb, fun db next hv => ?_, by simp, by simp⟩
          exact .drop hd hs (hread db next hv) (by omega)

theorem wp_removeDst {delete : Option Inode} (hentry : .dirEntry np nn ∈ l.tx.locks)
    (hinode : ∀ d, dst = some d → .inode d.inode ∈ l.tx.locks)
    (h : ∀ locks, (∀ r ∈ l.tx.locks, r ∈ locks) → Q () { l with tx := { l.tx with
      batch := l.tx.batch ++ removeDstOps np nn delete dst, locks := locks } }) :
    wpE (contract cfg strict c) E (removeDst np nn delete dst) Q l := by
  cases dst with
  | none => simpa [removeDst, removeDstOps] using h l.tx.locks fun _ hr => hr
  | some d =>
      unfold removeDst
      rw [wpE_bind]
      refine wp_push (fun _ => .held hentry) ?_
      cases delete with
      | none => exact h _ fun _ hr => List.mem_cons_of_mem _ hr
      | some i =>
          show wpE _ _ (do push (.deleteInode d.inode); push (.deleteDataLocation d.inode)) _ _
          rw [wpE_bind]
          refine wp_push (fun _ => .held (List.mem_cons_of_mem _ (hinode d rfl))) ?_
          refine wp_push (fun _ => .side rfl) ?_
          simpa [removeDstOps] using h _ fun _ hr =>
            List.mem_cons_of_mem _ (List.mem_cons_of_mem _ (List.mem_cons_of_mem _ hr))

/-- The parent deltas of a rename: a link is taken from each directory at most once, and for an entry
of it that was read. -/
theorem deltasOk_rename {v : DirValue} {srcIsDir wasDir : Bool} (hs : srcIsDir = true → isDir v.mode = true)
    (hd : wasDir = true → ∃ d, dst = some d ∧ isDir d.mode = true) :
    DeltasOk (.rename p n np nn) [(np, nn, dst), (p, n, some v)]
      (flatDeltas (renameDeltas p np srcIsDir wasDir ts)) := by
  have hitem : ∀ x ∈ flatDeltas (renameDeltas p np srcIsDir wasDir ts), x.1 = p ∨ x.1 = np := by
    intro x hx
    cases srcIsDir <;> cases wasDir <;> by_cases hpn : p = np <;>
      simp [flatDeltas, renameDeltas, hpn] at hx <;> grind
  refine ⟨fun x hx => ?_, fun x hx k hk => ?_, ?_⟩
  · simpa [Call.parents, Call.folds] using hitem x hx
  · obtain ⟨q, d⟩ := x
    dsimp only at hk
    subst hk
    cases srcIsDir <;> cases wasDir <;> by_cases hpn : p = np <;>
      simp [flatDeltas, renameDeltas, hpn] at hx <;> grind
  · cases srcIsDir <;> cases wasDir <;> by_cases hpn : p = np <;>
      simp [flatDeltas, renameDeltas, hpn]
    exact fun e => hpn e.symm

theorem wp_forgetDst (hc : c.removes = true) (hret : strict → ∀ d, dst = some d → d.inode ∈ l.tx.retired) (h : Q () l) :
    wpE (contract cfg strict c) E (forgetDst dst) Q l := by
  cases dst with
  | none => exact h
  | some d =>
      unfold forgetDst
      rw [wpE_bind]
      refine wp_clearDeltas hc (fun hs => Or.inl (hret hs d rfl)) ?_
      exact wp_cacheInvalidate h

theorem wp_renameTxn {Q : Option Inode × List (Inode × List DeltaOp) → Local → Prop} (h : ∀ a l, Q a l) :
    wpE (contract cfg strict (.rename p n np nn)) (fun _ => True) (renameTxn cfg p n np nn) Q ⟨{}, fs⟩ := by
  unfold renameTxn
  rw [wpE_bind]
  refine wp_getForUpdateDirEntry (fun _ => .first rfl rfl) rfl trivial fun o _ => ?_
  rw [wpE_bind]
  refine wp_orNotFound (fun v hv => ?_) trivial
  subst hv
  rw [wpE_bind]
  refine wp_getForUpdateDirEntry (fun _ => .second rfl) rfl trivial fun dst hdistinct => ?_
  rw [wpE_bind]
  refine wp_lockInodes _ rfl (renameInodeIds_sorted ..) (fun i hi => ?_) (by simp) fun vals l₁ hext₁ hb₁ hseqs₁ hlocks₁ hvals₁ hseen₁ => ?_
  · rcases mem_renameInodeIds hi with rfl | ⟨d, rfl, rfl⟩ | rfl | rfl
    · exact Or.inr (Or.inr ⟨p, n, v, by simp, rfl⟩)
    · exact Or.inr (Or.inr ⟨np, nn, d, by simp, rfl⟩)
    · exact Or.inl rfl
    · exact Or.inr (Or.inl rfl)
  rw [wpE_bind]
  refine wp_orNotFound (fun srcIv hsrc => ?_) trivial
  -- the record and the entry of the source agree on its type
  have hsrcDir : isDir srcIv.mode = isDir v.mode := by
    obtain ⟨db, next, hv, hw, hi⟩ := hseen₁ (v.inode, srcIv) (mem_of_lookup hsrc)
    exact hw.isDir_eq (hv.entry (List.mem_cons_of_mem _ List.mem_cons_self)) hi
  have hreads₁ : l₁.tx.dirReads = [(np, nn, dst), (p, n, some v)] := hext₁.dirReads
  dsimp only
  rw [wpE_bind]
  refine wp_nowSecs fun ts => ?_
  rw [wpE_bind]
  refine wp_renameTarget hb₁ (fun d hd => ?_) hvals₁ fun vic l₂ h₂ => ?_
  · subst hd
    exact ⟨mem_renameInodeIds_dst p np v.inode d, hlocks₁ _ (mem_renameInodeIds_dst p np v.inode d)⟩
  have hreads₂ : l₂.tx.dirReads = [(np, nn, dst), (p, n, some v)] := h₂.dirReads.trans hreads₁
  have hseqs₂ : l₂.tx.seqs = [] := h₂.seqs.trans hseqs₁
  have hlocks₂ : ∀ r ∈ [Row.dirEntry np nn, .dirEntry p n], r ∈ l₂.tx.locks :=
    fun r hr => h₂.locks r (hext₁.locks r hr)
  have hids₂ : ∀ i ∈ renameInodeIds p np v.inode dst, .inode i ∈ l₂.tx.locks :=
    fun i hi => h₂.locks _ (hlocks₁ i hi)
  rw [wpE_bind]
  refine wp_removeDst (hlocks₂ _ (by simp)) (fun d hd => hids₂ _ ?_) fun locks hkept => ?_
  · rw [hd]
    exact mem_renameInodeIds_dst ..
  rw [wpE_bind]
  refine wp_push (fun _ => .held (hkept _ (hlocks₂ _ (by simp [BatchOp.row])))) ?_
  rw [wpE_bind]
  refine wp_push (fun _ => .held (List.mem_cons_of_mem _ (hkept _ (hlocks₂ _ (by simp [BatchOp.row]))))) ?_
  rw [wpE_bind]
  refine wp_push (fun _ => .held (List.mem_cons_of_mem _ (List.mem_cons_of_mem _
    (hkept _ (hids₂ _ (mem_renameInodeIds_src ..)))))) ?_
  rw [wpE_bind]
  refine wp_batchParentDeltasAll _ ?_ fun l' hl' => ?_
  · simp only [Txn.taken, hseqs₂, List.map_nil, List.nil_append, hreads₂]
    exact deltasOk_rename (fun hs => hsrcDir ▸ hs) h₂.isDir
  have hreads : l'.tx.dirReads = [(np, nn, dst), (p, n, some v)] := hl'.ext.dirReads.trans hreads₂
  have hvalid₁ : ∀ {db next}, l'.tx.Valid db next → l₁.tx.Valid db next := by
    intro db next hv
    have hv₂ := hl'.ext.valid hv
    exact ⟨fun hm => hv₂.entry (h₂.dirReads ▸ hm), fun hm => hv₂.inode (h₂.inodeReads ▸ hm),
      fun hm => hv₂.fresh (h₂.allocated ▸ hm)⟩
  have hmain : l₂.tx.batch ++ removeDstOps np nn vic.delete dst ++ [.deleteDirEntry p n] ++
      [.putDirEntry np nn ⟨v.inode, srcIv.mode⟩] ++ [.putInode v.inode { srcIv with ctime := ts }] =
      renameOps p n np nn v.inode srcIv dst vic ts := by
    simp [renameOps, h₂.batch]
  rw [wpE_bind]
  refine wp_commit (hl'.committing hseqs₂ fun db next hv hwf => ?_) trivial ?_
  · have hdst : db.entry np nn = dst := hv.entry (by rw [hreads]; exact List.mem_cons_self)
    rw [hmain, ← hdst]
    refine .rename (hv.entry ?_) ?_ ?_ ?_ ?_
    · rw [hreads]
      exact List.mem_cons_of_mem _ List.mem_cons_self
    · rw [← hsrc, hvals₁ db next (hvalid₁ hv), Db.lookup_lockedValues db (mem_renameInodeIds_src ..)]
    · rw [hdst]
      exact h₂.victim db next (hvalid₁ hv)
    · intro d hd hwas
      rw [hdst] at hd
      obtain ⟨hmem, hne⟩ := h₂.empty d hd hwas
      refine ⟨?_, hne p n v ?_, hne np nn d ?_⟩
      · rw [hl'.ext.emptyChecks]
        exact hmem
      · rw [hreads₁]
        exact List.mem_cons_of_mem _ List.mem_cons_self
      · rw [hreads₁, hd]
        exact List.mem_cons_self
    · rw [hreads, hdst]
  · rw [wpE_bind]
    refine wp_forgetDst rfl (fun hs d hd => ?_) ?_
    · refine mem_retiring (p := np) (n := nn) ?_ ?_
      · rw [hreads, hd]
        exact List.mem_cons_self
      · obtain ⟨qs, rest, -, hbatch, hrest, -⟩ := hl'.part
        rw [hbatch]
        intro op ho q m w e
        have hne : d.inode ≠ v.inode :=
          hdistinct hs v d (List.mem_cons_of_mem _ List.mem_cons_self) (by rw [hd]; exact List.mem_cons_self)
        rcases List.mem_append.1 ho with ho | ho
        · subst e
          rw [hmain] at ho
          rw [putDirEntry_mem_renameOps ho]
          exact hne.symm
        · exact absurd e (hrest op ho q m w)
    · rw [wpE_bind]
      exact wp_cachePut (h _ _)

theorem wp_rename {Q : List Inode → Local → Prop} (hE : ∀ fs, E ⟨{}, fs⟩) (h : ∀ a fs, Q a ⟨{}, fs⟩) :
    wpE (contract cfg strict (.rename p n np nn)) E (rename cfg p n np nn) Q ⟨{}, fs⟩ := by
  have htail : ∀ (dss : List (Inode × List DeltaOp)) (fs : List Inode) (a : List Inode),
      wpE (contract cfg strict (.rename p n np nn)) E (do
        forM dss fun d => do
          cacheApplyDeltas d.1 d.2
          markDirty d.1
        return a) Q ⟨{}, fs⟩ := by
    intro dss fs a
    rw [wpE_bind]
    induction dss with
    | nil => exact h a fs
    | cons d dss ih =>
        rw [List.forM_cons, wpE_bind]
        exact wp_touch ih
  unfold rename
  rw [wpE_bind]
  refine wp_validateName (hE fs) ?_
  rw [wpE_bind]
  refine wp_validateName (hE fs) ?_
  rw [wpE_bind]
  exact wp_executeWithRetry hE fun fs => wp_renameTxn fun a l => htail a.2 l.files a.1.toList

/-! ## Release, compaction and reads -/

theorem wp_release {Q : List Inode → Local → Prop} (hE : ∀ fs, E ⟨{}, fs⟩) (h : ∀ a fs, Q a ⟨{}, fs⟩) :
    wpE (contract cfg strict (.release i)) E (release i) Q ⟨{}, fs⟩ := by
  unfold release
  rw [wpE_bind]
  refine wp_eff trivial (fun _ => rfl) fun s _ _ => ?_
  show wpE _ _ (if (s.checkAndClearDeferredDelete i).1 = true then _ else _) _
    (⟨{}, if (s.checkAndClearDeferredDelete i).1 then i :: fs else fs⟩ : Local)
  split
  · -- the call remembers the inode through all attempts
    rw [wpE_bind]
    refine wp_retry (P := fun fs => i ∈ fs) (fun fs _ => hE fs) (fun fs hmem => ?_) _ _ List.mem_cons_self
    rw [wpE_bind]
    refine wp_push (fun _ => .first rfl rfl) ?_
    rw [wpE_bind]
    refine wp_push (fun _ => .side rfl) ?_
    refine wp_commit (committing_of_writes rfl rfl fun db next hv _ => .drop hmem rfl) hmem ?_
    rw [wpE_bind]
    refine wp_clearDeltas rfl (fun _ => Or.inr hmem) ?_
    rw [wpE_bind]
    exact wp_cacheInvalidate (h _ _)
  · exact h [] fs

theorem wp_forceCompactInode {Q : Bool → Local → Prop} (hE : ∀ fs, E ⟨{}, fs⟩)
    (hscan : Q false ⟨{ scanned := some (i, []) }, fs⟩) (h : ∀ a fs, Q a ⟨{}, fs⟩) :
    wpE (contract cfg strict (.forceCompactInode i)) E (forceCompactInode i) Q ⟨{}, fs⟩ := by
  unfold forceCompactInode
  rw [wpE_bind]
  refine wp_perform rfl (fun s _ _ _ => ?_) fun x r hr => by cases hr; exact hE fs
  show wpE _ _ (if (s.db.scanDeltas i).isEmpty then pure false else _) _
    (⟨{ scanned := some (i, s.db.scanDeltas i) }, fs⟩ : Local)
  split
  · rename_i hnil
    rw [List.isEmpty_iff.1 hnil]
    exact hscan
  · rename_i hnil
    have hne : s.db.scanDeltas i ≠ [] := fun e => hnil (by rw [e]; rfl)
    refine wp_withBatch (P := fun _ => True) (fun fs _ => hE fs) ?_
    rw [wpE_bind]
    refine wp_getForUpdateInode (fun _ => .first rfl rfl) rfl trivial fun s' _ _ => ?_
    cases hi : s'.db.inode i with
    | none => exact h _ _
    | some base =>
        dsimp only
        rw [wpE_bind]
        refine wp_push (fun _ => .held List.mem_cons_self) ?_
        rw [wpE_bind]
        refine wp_forM_push (fun k : Nat × DeltaOp => .deleteDelta i k.1) _ (fun _ _ => rfl) ?_
        rw [wpE_bind, wpE_lift]
        refine wp_perform ?_ (fun s'' _ _ _ => ?_) fun x r hr => ?_
        · refine committing_of_writes rfl rfl fun db next hv _ => ?_
          exact .compact (hv.inode List.mem_cons_self) rfl hne rfl
        · show wpE _ _ (cacheInvalidate i >>= _) _ _
          rw [wpE_bind]
          exact wp_cacheInvalidate (h _ _)
        · cases hr
          cases x <;> first | exact trivial | exact h _ _

theorem wp_lookup {Q : FileAttr → Local → Prop} (hE : E l) (h : ∀ a, Q a l) :
    wpE (contract cfg strict c) E (lookup p n) Q l := by
  unfold lookup
  rw [wpE_bind]
  refine wp_validateName hE ?_
  rw [wpE_bind]
  refine wp_perform trivial (fun s _ _ _ => ?_) fun x r hr => by cases hr; exact hE
  show wpE _ _ (orNotFound ((s.db.entry p n).map (·.inode)) >>= _) _ _
  rw [wpE_bind]
  refine wp_orNotFound (fun i _ => ?_) hE
  rw [wpE_bind]
  exact wp_loadInode hE fun v => h _

theorem wp_getattr {Q : FileAttr → Local → Prop} (hE : E l) (h : ∀ a, Q a l) :
    wpE (contract cfg strict c) E (getattr i) Q l := by
  unfold getattr
  rw [wpE_bind]
  exact wp_loadInode hE fun v => h _

theorem wp_readdir {Q : List DirEntry → Local → Prop} (hE : E l) (h : ∀ a, Q a l) :
    wpE (contract cfg strict c) E (readdir i) Q l := by
  unfold readdir
  rw [wpE_bind]
  refine wp_loadInode hE fun v => wpE_guard (fun _ => hE) fun _ => ?_
  exact wp_perform trivial (fun s _ _ _ => h _) fun x r hr => by cases hr; exact hE

theorem wp_readlink {Q : List Byte → Local → Prop} (hE : E l) (h : ∀ a, Q a l) :
    wpE (contract cfg strict c) E (readlink i) Q l := by
  unfold readlink
  rw [wpE_bind]
  refine wp_loadInode hE fun v => wpE_guard (fun _ => hE) fun _ => ?_
  rw [wpE_bind]
  refine wp_perform trivial (fun s _ _ _ => ?_) fun x r hr => by cases hr; exact hE
  have hans : (handle cfg (.getSymlink i) (l.tx, s)).1 = Except.ok (s.db.symlinks.get i) := rfl
  rw [hans]
  cases s.db.symlinks.get i with
  | some target => exact h target
  | none => exact hE

theorem wp_createAndOpen {flags : Nat} {Q : CreateAndOpenResponse → Local → Prop} (hc : c.creates = some (p, n))
    (hnl : c.isLink = false) (hE : ∀ fs, E ⟨{}, fs⟩) (h : ∀ a fs, Q a ⟨{}, fs⟩) :
    wpE (contract cfg strict c) E (createAndOpen cfg p n mode uid gid flags) Q ⟨{}, fs⟩ := by
  unfold createAndOpen
  rw [wpE_bind]
  refine wp_create hc hnl hE fun a fs => ?_
  rw [wpE_bind]
  exact wp_quiet trivial (fun _ => rfl) (fun _ => rfl) fun _ => h _ _

end

/-! ## Calls -/

theorem Local.idle_empty (fs : List Inode) : Local.Idle ⟨{}, fs⟩ := ⟨rfl, rfl, by simp⟩

/-- The reply of a call wraps what its operation ends with. -/
theorem wp_reply {α : Type} {C : Contract Eff Eff.Res Local} {x : Op α} {f : FsResult α → Reply}
    {Q : Local → Prop} {l : Local} (h : wpE C Q x (fun _ => Q) l) :
    wp C (do return f (← x.run)) (fun _ => Q) l := by
  show wp C (x.run >>= fun r => pure (f r)) _ l
  rw [wp_bind]
  refine wp_mono (fun r l' hr => ?_) h
  cases r with
  | ok a => exact hr
  | error e => exact hr

/-- **Every call meets its contract and ends with nothing locked.** -/
theorem Call.meets_contract (cfg : Config) (strict : Prop) (c : Call) :
    wp (contract cfg strict c) (c.body cfg) (fun _ l => l.Idle) {} := by
  have hE : ∀ fs, Local.Idle ⟨{}, fs⟩ := Local.idle_empty
  cases c with
  | lookup p n => exact wp_reply (wp_lookup (hE _) fun _ => hE _)
  | getattr i => exact wp_reply (wp_getattr (hE _) fun _ => hE _)
  | setattr i req => exact wp_reply (wp_setattr rfl hE fun _ fs => hE fs)
  | readdir i => exact wp_reply (wp_readdir (hE _) fun _ => hE _)
  | create p n m u g => exact wp_reply (wp_create rfl rfl hE fun _ fs => hE fs)
  | createAndOpen p n m u g f => exact wp_reply (wp_createAndOpen rfl rfl hE fun _ fs => hE fs)
  | mkdir p n m u g => exact wp_reply (wp_mkdir rfl rfl hE fun _ fs => hE fs)
  | unlink p n => exact wp_reply (wp_unlink hE fun _ fs => hE fs)
  | rmdir p n => exact wp_reply (wp_rmdir hE fun fs => hE fs)
  | rename p n np nn => exact wp_reply (wp_rename hE fun _ fs => hE fs)
  | openFile i f => exact wp_reply (wp_openFile rfl hE fun _ fs => hE fs)
  | reportWrite i sz t => exact wp_reply (wp_reportWrite rfl hE fun fs => hE fs)
  | link p n t => exact wp_reply (wp_link hE fun _ fs => hE fs)
  | symlink p n t u g => exact wp_reply (wp_symlink rfl rfl hE fun _ fs => hE fs)
  | readlink i => exact wp_reply (wp_readlink (hE _) fun _ => hE _)
  | release i => exact wp_reply (wp_release hE fun _ fs => hE fs)
  | forceCompactInode i =>
      refine wp_reply (wp_forceCompactInode hE ⟨rfl, rfl, ?_⟩ fun _ fs => hE fs)
      intro j ks h
      cases h
      rfl

end RucksFs
