import RucksFs.Allocation
import RucksFs.Server.Log

/-!
# Times set by `setattr`

`setattr` stores the requested times in the base record.  Deltas that are still pending are folded
over it by maximum, so a time below a pending one is not what a reader gets.

* `setattr_times_iff` — the requested times are the effective ones, and stay so, exactly when no
  pending delta is above them.
* `setattr_time_lost` — a directory whose modification time is set back right after a creation.
-/

set_option autoImplicit false

namespace RucksFs

open Server

/-! ## Folded times -/

section

variable {get : InodeValue → Nat} {set : Nat → DeltaOp}

/-- A field that the deltas `set t` raise to `t` and no other delta changes. -/
structure FoldsByMax (get : InodeValue → Nat) (set : Nat → DeltaOp) : Prop where
  hit : ∀ base t, get (foldDelta base (set t)) = max (get base) t
  miss : ∀ base d, (∀ t, d ≠ set t) → get (foldDelta base d) = get base

theorem foldsByMax_mtime : FoldsByMax InodeValue.mtime DeltaOp.setMtime where
  hit _ _ := rfl
  miss _ d h := by
    cases d with
    | setMtime t => exact absurd rfl (h t)
    | _ => rfl

theorem foldsByMax_atime : FoldsByMax InodeValue.atime DeltaOp.setAtime where
  hit _ _ := rfl
  miss _ d h := by
    cases d with
    | setAtime t => exact absurd rfl (h t)
    | _ => rfl

theorem FoldsByMax.le_iff (h : FoldsByMax get set) {m : Nat} {ds : List DeltaOp} {base : InodeValue} :
    get (foldDeltas base ds) ≤ m ↔ get base ≤ m ∧ ∀ t, set t ∈ ds → t ≤ m := by
  induction ds generalizing base with
  | nil => simp
  | cons d ds ih =>
      rw [foldDeltas_cons, ih]
      by_cases hd : ∃ t, d = set t
      · obtain ⟨t, rfl⟩ := hd
        rw [h.hit]
        constructor
        · rintro ⟨hmax, hrest⟩
          refine ⟨by omega, fun u hu => ?_⟩
          rcases List.mem_cons.1 hu with e | hu
          · -- equal deltas carry one time
            have hget := congrArg (fun d => get (foldDelta base d)) e
            rw [h.hit, h.hit] at hget
            omega
          · exact hrest u hu
        · rintro ⟨hb, hall⟩
          have ht := hall t List.mem_cons_self
          exact ⟨by omega, fun u hu => hall u (List.mem_cons_of_mem _ hu)⟩
      · have hne : ∀ t, d ≠ set t := fun t e => hd ⟨t, e⟩
        rw [h.miss base d hne]
        refine and_congr_right fun _ => forall_congr' fun t => ?_
        rw [List.mem_cons, or_iff_right fun e => hne t e.symm]

/-- The field keeps its value when no delta is above it. -/
theorem FoldsByMax.eq_iff (h : FoldsByMax get set) {ds : List DeltaOp} {base : InodeValue} :
    get (foldDeltas base ds) = get base ↔ ∀ t, set t ∈ ds → t ≤ get base := by
  have hge : get base ≤ get (foldDeltas base ds) := (h.le_iff.1 (Nat.le_refl _)).1
  have hle : get (foldDeltas base ds) ≤ get base ↔ _ := h.le_iff
  constructor
  · intro he
    exact (hle.1 (by omega)).2
  · intro hall
    have := hle.2 ⟨Nat.le_refl _, hall⟩
    omega

end

/-! ## Calls that leave an inode alone -/

/-- The call may write the record or the deltas of `i`. -/
def Call.Touches (s : Server) (i : Inode) (c : Call) : Prop :=
  i ∈ c.parents ∨
  match c with
  | .create _ _ _ _ _ | .createAndOpen _ _ _ _ _ _ | .mkdir _ _ _ _ _ | .symlink _ _ _ _ _ => s.next = i
  | .link _ _ t => t = i
  | .unlink p n | .rmdir p n => ∃ v, s.db.entry p n = some v ∧ v.inode = i
  | .rename p n np nn => (∃ v, s.db.entry p n = some v ∧ v.inode = i) ∨
      ∃ d, s.db.entry np nn = some d ∧ d.inode = i
  | .setattr j _ | .reportWrite j _ _ => j = i
  | .openFile j flags => j = i ∧ flags &&& O_TRUNC ≠ 0
  | .release j => j = i ∧ s.pendingDeletes i = true
  | _ => False

/-- Record and deltas of `i` are the same. -/
def Server.SameAt (i : Inode) (s s' : Server) : Prop :=
  s'.db.inode i = s.db.inode i ∧ s'.db.deltas i = s.db.deltas i

namespace Server.SameAt

variable {cfg : Config} {i p : Inode} {s s' s'' : Server}

theorem trans (h : SameAt i s s') (h' : SameAt i s' s'') : SameAt i s s'' :=
  ⟨h'.1.trans h.1, h'.2.trans h.2⟩

theorem of_db (h : s'.db = s.db) : SameAt i s s' := by
  unfold SameAt
  rw [h]
  exact ⟨rfl, rfl⟩

theorem effective (h : SameAt i s s') : s'.db.effective i = s.db.effective i :=
  Db.effective_congr h.1 h.2

theorem write (s : Server) (ops : List BatchOp) (hops : ∀ op ∈ ops, ¬op.IsDelta)
    (hi : (s.db.applyBatch ops).inode i = s.db.inode i) : SameAt i s (s.write ops) :=
  ⟨hi, Db.deltas_congr (s.db.deltaEntries_applyBatch hops) i⟩

theorem clearDeltas (s : Server) {j : Inode} (h : i ≠ j) : SameAt i s (s.clearDeltas j) :=
  ⟨rfl, (deltas_clearDeltas s j i).trans (if_neg h)⟩

theorem deltaPuts (h : i ≠ p) : ∀ (ds : List DeltaOp) (q : Nat) (db : Db),
    (db.applyBatch (deltaPuts p q ds)).deltas i = db.deltas i
  | [], _, _ => rfl
  | d :: ds, q, db => by
      refine (deltaPuts h ds (q + 1) (db.applyOp (.putDelta p q d))).trans ?_
      unfold Db.deltas Db.scanDeltas Db.applyOp
      rw [OrdMap.slice_put_ne _ _ _ h]

theorem parentDeltas (cfg : Config) (s : Server) (ds : List DeltaOp) (h : i ≠ p) :
    SameAt i s (s.parentDeltas cfg p ds) := by
  unfold Server.parentDeltas
  split
  · exact ⟨Db.inode_deltaPuts p ds s.db (s.seqs p) i, deltaPuts h ds _ _⟩
  · split
    · exact write s _ (by simp [BatchOp.IsDelta]) ((Change.inode_rewrite i).trans (if_neg h))
    · exact of_db rfl

theorem parentDeltasAll (dss : List (Inode × List DeltaOp)) (h : ∀ d ∈ dss, i ≠ d.1) :
    ∀ s : Server, SameAt i s (s.parentDeltasAll cfg dss) := by
  induction dss with
  | nil => exact fun _ => of_db rfl
  | cons d dss ih =>
      intro s
      exact (parentDeltas cfg s d.2 (h d List.mem_cons_self)).trans
        (ih (fun e he => h e (List.mem_cons_of_mem _ he)) _)

theorem created {n : Name} {iv : InodeValue} {extra : List BatchOp} {ds : List DeltaOp}
    (hx : ∀ op ∈ extra, op.IsPayload) (hp : i ≠ p) (hi : i ≠ iv.inode) :
    SameAt i s (s.created cfg p n iv extra ds) := by
  have hwrite := write (i := i) { s with next := s.next + 1 }.tick
    (.putInode iv.inode iv :: .putDirEntry p n ⟨iv.inode, iv.mode⟩ :: extra)
    (BatchOp.not_isDelta_creation hx)
    ((Change.inode_create (fun op ho => (hx op ho).side) i).trans (if_neg hi))
  have hpersist : ∀ t : Server, SameAt i t t.persist := by
    intro t
    unfold Server.persist
    split
    · exact ⟨rfl, rfl⟩
    · exact of_db rfl
  exact ((hwrite.trans (parentDeltas cfg _ ds hp)).trans (hpersist _)).trans (of_db rfl)

end Server.SameAt

/-- A call that does not touch `i`, or fails, leaves the effective record of `i`. -/
theorem Outcome.effective_eq {cfg : Config} {s s' : Server} {c : Call} {r : Reply} {i : Inode}
    (h : Outcome cfg s c r s') (hn : ¬c.Touches s i)
    (hopen : ∀ flags, c ≠ .openFile i flags) : s'.db.effective i = s.db.effective i := by
  have hn := not_or.1 hn
  cases h with
  | failed hr hs => rcases hs with rfl | rfl <;> rfl
  | loaded j hj =>
      obtain ⟨c, hc⟩ := s.load_snd j
      rw [hc]
  | made hc he hi hx =>
      refine (SameAt.created hx ?_ ?_).effective
      · cases hc <;> exact fun e => hn.1 (by simp [Call.parents, Call.folds, e])
      · rw [hi]
        cases hc <;> exact fun e => hn.2 e.symm
  | @madeOpen p n mode uid gid flags iv extra ds r hl ht he hi hx hr hh =>
      have hmade : SameAt i s (s.created cfg p n iv extra ds) :=
        SameAt.created hx (fun e => hn.1 (by simp [Call.parents, Call.folds, e]))
          fun e => hn.2 (hi.symm.trans e.symm)
      exact hmade.effective
  | @link p n t iv a hi hd he hp =>
      have hp : i ≠ p := fun e => hn.1 (by simp [Call.parents, Call.folds, e])
      refine (((SameAt.write s.tick.tick _ (by simp [BatchOp.IsDelta]) ?_).trans
        (SameAt.parentDeltas cfg _ _ hp)).trans (SameAt.of_db rfl)).effective
      exact (Change.inode_link i).trans (if_neg fun e => hn.2 e.symm)
  | @unlinkDrop p n v iv he hd hi hl hh =>
      have hp : i ≠ p := fun e => hn.1 (by simp [Call.parents, Call.folds, e])
      have hv : i ≠ v.inode := fun e => hn.2 ⟨v, he, e.symm⟩
      refine ((((SameAt.write s.tick _ (by simp [BatchOp.IsDelta]) ?_).trans
        (SameAt.parentDeltas cfg _ _ hp)).trans (SameAt.clearDeltas _ hv)).trans (SameAt.of_db rfl)).effective
      exact (Change.inode_unlinkDrop i).trans (if_neg hv)
  | @unlinkKeep p n v iv he hd hi hk =>
      have hp : i ≠ p := fun e => hn.1 (by simp [Call.parents, Call.folds, e])
      have hv : i ≠ v.inode := fun e => hn.2 ⟨v, he, e.symm⟩
      have hcommit := (SameAt.write (i := i) s.tick.tick [.deleteDirEntry p n, .putInode v.inode
        { iv with nlink := iv.nlink - 1, ctime := cfg.clock s.ticks }] (by simp [BatchOp.IsDelta])
        ((Change.inode_unlinkKeep i).trans (if_neg hv))).trans
        (SameAt.parentDeltas cfg _ (touchDeltas (cfg.clock (s.ticks + 1))) hp)
      refine (hcommit.trans (SameAt.of_db ?_)).effective
      unfold Server.unlinkedKeep
      dsimp only
      split <;> rfl
  | @rmdir p n v iv he hd hi hemp =>
      have hp : i ≠ p := fun e => hn.1 (by simp [Call.parents, Call.folds, e])
      have hv : i ≠ v.inode := fun e => hn.2 ⟨v, he, e.symm⟩
      refine ((((SameAt.write s.tick _ (by simp [BatchOp.IsDelta]) ?_).trans
        (SameAt.parentDeltas cfg _ _ hp)).trans (SameAt.clearDeltas _ hv)).trans (SameAt.of_db rfl)).effective
      exact (Change.inode_rmdir i).trans (if_neg hv)
  | @rename p n np nn v srcIv vic he hi hv hemp =>
      have hpar : ∀ d ∈ renameDeltas p np (isDir srcIv.mode) vic.wasDir (cfg.clock s.ticks), i ≠ d.1 :=
        fun d hd e => hn.1 (e ▸ renameDeltas_fst d hd)
      have hsrc : i ≠ v.inode := fun e => hn.2 (Or.inl ⟨v, he, e.symm⟩)
      have hdst : ∀ d, s.db.entry np nn = some d → i ≠ d.inode :=
        fun d hd e => hn.2 (Or.inr ⟨d, hd, e.symm⟩)
      have hforget : ∀ t : Server, SameAt i t (t.forget (s.db.entry np nn)) := by
        intro t
        cases hd : s.db.entry np nn with
        | none => exact SameAt.of_db rfl
        | some d => exact (SameAt.clearDeltas t (hdst d hd)).trans (SameAt.of_db rfl)
      have hcommit : SameAt i s (s.renameCommitted cfg p n np nn v.inode srcIv vic
          (renameDeltas p np (isDir srcIv.mode) vic.wasDir (cfg.clock s.ticks))) := by
        refine (((SameAt.write s.tick _ not_isDelta_renameOps ?_).trans
          (SameAt.parentDeltasAll _ hpar _)).trans (hforget _)).trans (SameAt.of_db rfl)
        exact (inode_renameOps hv i).trans (hv.records_ne hsrc hdst)
      exact (hcommit.trans (SameAt.of_db (Server.db_touchAll _ _).1)).effective
  | @rewrite c j iv iv' r t hc hi ht hl hr hs =>
      have hj : i ≠ j := by
        cases hc <;> exact fun e => hn.2 e.symm
      have ht : t.db = s.db := by rcases hs with rfl | rfl <;> rfl
      refine ((SameAt.of_db ht).trans ((SameAt.write t _ (by simp [BatchOp.IsDelta]) ?_).trans
        (SameAt.of_db rfl))).effective
      exact (Change.inode_rewrite i).trans (if_neg hj)
  | @opened j flags r =>
      obtain ⟨c, hc⟩ := s.load_snd j
      rw [hc]
      rfl
  | @openedTrunc j flags r iv raw hl hd hi =>
      have hne : i ≠ j := fun e => hopen flags (by rw [e])
      obtain ⟨c, hc⟩ := s.load_snd j
      rw [hc]
      exact (SameAt.write s [.putInode j (raw.truncated (cfg.clock s.ticks))] (by simp [BatchOp.IsDelta])
        ((Change.inode_rewrite i).trans (if_neg hne))).effective
  | @released j hj => rw [s.checkAndClear_db]
  | @releasedDrop j hj =>
      have hne : i ≠ j := fun e => hn.2 ⟨e.symm, by rw [e]; exact (s.checkAndClear_true hj).1⟩
      refine ((SameAt.of_db (s.checkAndClear_db (i := j))).trans (((SameAt.write _ _ (by simp [BatchOp.IsDelta])
        ?_).trans (SameAt.clearDeltas _ hne)).trans (SameAt.of_db rfl))).effective
      exact (Change.inode_drop i).trans (if_neg hne)
  | compacted hi => exact effective_compacted hi i
  | idle => rfl

/-- A failed call leaves every effective record. -/
theorem Outcome.effective_of_error {cfg : Config} {s s' : Server} {c : Call} {r : Reply}
    (h : Outcome cfg s c r s') (hr : r.isError = true) (i : Inode) :
    s'.db.effective i = s.db.effective i := by
  cases h with
  | failed _ hs => rcases hs with rfl | rfl <;> rfl
  | loaded j hj =>
      obtain ⟨c, hc⟩ := s.load_snd j
      rw [hc]
  | rewrite _ _ _ _ hok =>
      rw [hok] at hr
      cases hr
  | compacted hi => exact effective_compacted hi i
  | idle => rfl
  | _ => cases hr

/-- An `open` without `O_TRUNC` leaves every effective record. -/
theorem effective_openFile {cfg : Config} {s : Server} {j : Inode} {flags : Nat}
    (hf : flags &&& O_TRUNC = 0) (i : Inode) :
    (s.exec cfg (.openFile j flags)).2.db.effective i = s.db.effective i := by
  have hop := exec_openFile cfg s j flags
  obtain ⟨c, hc⟩ := s.load_snd j
  have hdb : (s.load j).2.db = s.db := by rw [hc]
  rcases hload : s.load j with ⟨r, s'⟩
  rw [hload] at hop hdb
  cases r with
  | error e =>
      rw [Server.exec_eq rfl hop]
      exact congrArg (Db.effective · i) hdb
  | ok iv =>
      dsimp only at hop
      by_cases hd : isDir iv.mode = true
      · rw [if_pos hd] at hop
        rw [Server.exec_eq rfl hop]
        exact congrArg (Db.effective · i) hdb
      · rw [if_neg hd, if_neg (by simp [hf])] at hop
        rw [Server.exec_eq rfl hop]
        exact congrArg (Db.effective · i) hdb

/-- Steps after which `i` is as before: calls that fail or do not touch `i`, and restarts. -/
def Event.Spares (cfg : Config) (i : Inode) (s : Server) : Event → Prop
  | .call c => (s.exec cfg c).1.isError = true ∨ ¬c.Touches s i
  | .restart => True

theorem Event.effective_step {cfg : Config} {i : Inode} {s : Server} {e : Event} (h : e.Spares cfg i s)
    {iv : InodeValue} (hi : s.db.effective i = some iv) : (e.step cfg s).2.db.effective i = some iv := by
  cases e with
  | restart =>
      show (Server.new cfg s.db s.ticks).db.effective i = some iv
      unfold Server.new Server.initRoot
      dsimp only
      cases hroot : s.db.inode ROOT_INODE with
      | some _ => exact hi
      | none =>
          -- the root is stored again; `i` has a record, so it is another inode
          have hne : i ≠ ROOT_INODE := by
            rintro rfl
            unfold Db.effective at hi
            rw [hroot] at hi
            cases hi
          have hrec : ({ s.db with inodes := s.db.inodes.put ROOT_INODE (rootValue cfg (cfg.clock s.ticks)) } :
              Db).inode i = s.db.inode i := OrdMap.get_put_ne _ _ hne
          exact (Db.effective_congr hrec rfl).trans hi
  | call c =>
      rcases h with hr | hn
      · exact ((exec_outcome cfg s c).effective_of_error hr i).trans hi
      · by_cases hopen : ∃ flags, c = .openFile i flags
        · obtain ⟨flags, rfl⟩ := hopen
          have hf : flags &&& O_TRUNC = 0 := by
            by_contra hf
            exact hn (Or.inr ⟨rfl, hf⟩)
          exact (effective_openFile hf i).trans hi
        · exact ((exec_outcome cfg s c).effective_eq hn fun flags e => hopen ⟨flags, e⟩).trans hi

/-! ## Result -/

/-- The times a request asks for. -/
def SetAttrRequest.TimesAre (req : SetAttrRequest) (iv : InodeValue) : Prop :=
  (∀ m, req.mtime = some m → iv.mtime = m) ∧ ∀ a, req.atime = some a → iv.atime = a

/-- **Requested times.**  After a successful `setattr` without a size the effective times of `i` are
the requested ones, and stay so through restarts, compactions and all calls that do not touch `i`,
exactly when no delta of `i` pending at the call is above them. -/
theorem setattr_times_iff {cfg : Config} {s : Server} {i : Inode} {req : SetAttrRequest}
    (hsize : req.size = none) (hok : (s.exec cfg (.setattr i req)).1.isError = false) :
    (∀ es s', Trace (Event.step cfg) (fun _ t e => e.Spares cfg i t) (s.exec cfg (.setattr i req)).2 es s' →
      ∃ iv, s'.db.effective i = some iv ∧ req.TimesAre iv) ↔
    (∀ m, req.mtime = some m → ∀ t, .setMtime t ∈ s.db.deltas i → t ≤ m) ∧
      ∀ a, req.atime = some a → ∀ t, .setAtime t ∈ s.db.deltas i → t ≤ a := by
  have hop := exec_setattr cfg s i req
  cases hi : s.db.inode i with
  | none =>
      rw [hi] at hop
      rw [Server.exec_eq rfl hop] at hok
      cases hok
  | some raw =>
      rw [hi] at hop
      dsimp only at hop
      set iv := (req.apply (cfg.clock s.ticks) raw).1 with hiv
      have hval : iv = { req.applyFields raw with ctime := cfg.clock s.ticks } := by
        rw [hiv]
        unfold SetAttrRequest.apply SetAttrRequest.applySize
        rw [hsize]
      have hstate : (s.exec cfg (.setattr i req)).2 = s.tick.rewritten i iv := by
        rw [Server.exec_eq rfl hop]
      have heff : (s.tick.rewritten i iv).db.effective i = some (foldDeltas iv (s.db.deltas i)) := by
        have hrec : (s.tick.rewritten i iv).db.inode i = some iv := (Change.inode_rewrite i).trans (if_pos rfl)
        have hdel : (s.tick.rewritten i iv).db.deltas i = s.db.deltas i :=
          Db.deltas_congr (s.db.deltaEntries_applyBatch (by simp [BatchOp.IsDelta])) i
        unfold Db.effective
        rw [hrec, hdel]
        rfl
      have htimes : req.TimesAre (foldDeltas iv (s.db.deltas i)) ↔
          (∀ m, req.mtime = some m → ∀ t, .setMtime t ∈ s.db.deltas i → t ≤ m) ∧
            ∀ a, req.atime = some a → ∀ t, .setAtime t ∈ s.db.deltas i → t ≤ a := by
        refine and_congr (forall_congr' fun m => imp_congr_right fun hm => ?_)
          (forall_congr' fun a => imp_congr_right fun ha => ?_)
        · have hbase : iv.mtime = m := by
            rw [hval]
            simp [SetAttrRequest.applyFields, hm]
          rw [← hbase]
          exact foldsByMax_mtime.eq_iff
        · have hbase : iv.atime = a := by
            rw [hval]
            simp [SetAttrRequest.applyFields, ha]
          rw [← hbase]
          exact foldsByMax_atime.eq_iff
      rw [← htimes, hstate]
      constructor
      · intro h
        obtain ⟨jv, hj, ht⟩ := h [] _ .nil
        rw [heff] at hj
        cases hj
        exact ht
      · intro ht es s' hrun
        refine ⟨_, ?_, ht⟩
        exact hrun.invariant (fun _ t => t.db.effective i = some (foldDeltas iv (s.db.deltas i))) heff
          fun hprev hok => Event.effective_step hok hprev

/-- The root's time set forward, right after a creation. -/
theorem setattr_times_forward :
    let cfg : Config := { clock := fun _ => 100 }
    let s := ((Server.fresh cfg).exec cfg (.create ROOT_INODE [97] 0o644 0 0)).2
    ∃ iv, (Event.step cfg .restart (s.exec cfg (.setattr ROOT_INODE { mtime := some 200 })).2).2.db.effective
      ROOT_INODE = some iv ∧ iv.mtime = 200 := by
  intro cfg s
  have hok : (s.exec cfg (.setattr ROOT_INODE { mtime := some 200 })).1.isError = false := by decide +kernel
  have hall : ∀ d ∈ s.db.deltas ROOT_INODE, d = .setMtime 100 ∨ d = .setCtime 100 := by decide +kernel
  have hbelow : ∀ t, .setMtime t ∈ s.db.deltas ROOT_INODE → t ≤ 200 := by
    intro t ht
    rcases hall _ ht with e | e <;> cases e
    decide
  obtain ⟨iv, hiv, ht⟩ := (setattr_times_iff rfl hok).2
    ⟨fun m hm => Option.some.inj hm ▸ hbelow, fun a ha => by cases ha⟩ _ _
    (.snoc Event.restart .nil trivial)
  exact ⟨iv, hiv, ht.1 200 rfl⟩

/-- The root's time set back, right after a creation: the effective time is the creation's. -/
theorem setattr_time_lost :
    let cfg : Config := { clock := fun _ => 100 }
    let s := ((Server.fresh cfg).exec cfg (.create ROOT_INODE [97] 0o644 0 0)).2
    let s' := (s.exec cfg (.setattr ROOT_INODE { mtime := some 50 })).2
    (s.exec cfg (.setattr ROOT_INODE { mtime := some 50 })).1.isError = false ∧
      (s'.db.inode ROOT_INODE).map InodeValue.mtime = some 50 ∧
      (s'.db.effective ROOT_INODE).map InodeValue.mtime = some 100 ∧
      ((Event.step cfg .restart s').2.db.effective ROOT_INODE).map InodeValue.mtime = some 100 := by
  decide +kernel

end RucksFs
