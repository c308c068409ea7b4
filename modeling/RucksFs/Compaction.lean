import RucksFs.Server.Commits
import RucksFs.Server.Numbers

/-!
# Compaction next to other calls

`force_compact_inode` scans the deltas of an inode, then locks the record, and commits the folded record
together with the deletion of exactly the keys it has scanned.  Other transactions store deltas between
the scan and the commit, some of them under smaller numbers than the scanned ones.

* `ScannedBy` — what the deltas stored since a scan are.
* `compaction_transparent` — one compaction of an inode does not change its effective record and leaves
  the deltas committed since its scan.
* `compacted_twice` — two that have both scanned fold the same deltas twice; `compactions_keep` — otherwise
  any number of them keep the effective record.
-/

set_option autoImplicit false

namespace RucksFs

open Server Prog

/-! ## Since a scan -/

/-- A commit that stores delta `d` of `i` under number `q`. -/
def FsEvent.stores (ev : FsEvent) (i : Inode) (q : Nat) (d : DeltaOp) : Prop :=
  ev.commits = true ∧ .putDelta i q d ∈ ev.loc.tx.batch

/-- Thread `t` has scanned `ks`; the deltas of `i` stored in `db` are those and, under other numbers, the
ones committed since. -/
def ScannedBy (i : Inode) (t : Nat) (ks : List (Nat × DeltaOp)) (es : List FsEvent) (db : Db) : Prop :=
  ∃ xs a ys, es = xs ++ a :: ys ∧ a.thread = t ∧ a.eff = .scanDeltasWithKeys i ∧
    a.before.db.scanDeltas i = ks ∧
    (∀ q d, db.delta i q = some d ↔ (q, d) ∈ ks ∨ ∃ ev ∈ ys, ev.stores i q d) ∧
    ∀ ev ∈ ys, ∀ q d, ev.stores i q d → ∀ d', (q, d') ∉ ks

namespace ScannedBy

variable {i : Inode} {t : Nat} {ks : List (Nat × DeltaOp)} {es : List FsEvent} {db db' : Db}

theorem of_scan {a : FsEvent} (ht : a.thread = t) (he : a.eff = .scanDeltasWithKeys i)
    (hks : a.before.db.scanDeltas i = ks) (hd : ∀ q, db.delta i q = a.before.db.delta i q) :
    ScannedBy i t ks (es ++ [a]) db := by
  refine ⟨es, a, [], rfl, ht, he, hks, fun q d => ?_, by simp⟩
  rw [hd, ← hks, Db.mem_scanDeltas]
  simp

/-- One more event, which stores what `db'` has in addition. -/
theorem snoc (h : ScannedBy i t ks es db) {ev : FsEvent}
    (hd : ∀ q d, db'.delta i q = some d ↔ db.delta i q = some d ∨ ev.stores i q d)
    (hnew : ∀ q d, ev.stores i q d → db.delta i q = none) : ScannedBy i t ks (es ++ [ev]) db' := by
  obtain ⟨xs, a, ys, rfl, ht, he, hks, hiff, hother⟩ := h
  refine ⟨xs, a, ys ++ [ev], by simp, ht, he, hks, fun q d => ?_, fun ev' hev q d hs d' hm => ?_⟩
  · rw [hd, hiff, or_assoc]
    simp only [List.mem_append, List.mem_singleton, or_and_right, exists_or, exists_eq_left]
  · rcases List.mem_append.1 hev with hev | hev
    · exact hother ev' hev q d hs d' hm
    · rw [List.mem_singleton.1 hev] at hs
      have hstored := (hiff q d').2 (Or.inl hm)
      rw [hnew q d hs] at hstored
      cases hstored

end ScannedBy

/-! ## One compaction -/

/-- At most one compaction of `i` is running, and no call is about to clear the deltas of `i`, which is
what the removal of an inode ends with. -/
def CompactedAlone (i : Inode) (c : FsConf) : Prop :=
  Apart (fun a b : FsThread => a.result = none → b.result = none →
    ¬(a.tag = .forceCompactInode i ∧ b.tag = .forceCompactInode i)) c.threads ∧
  Pool (fun th : FsThread => th.nextEff ≠ some (.clearDeltas i)) c.threads

instance (i : Inode) : DecidablePred (CompactedAlone i) := fun _ => instDecidableAnd

/-- Only a compaction of `i` has scanned its deltas. -/
def ScansOwn (th : FsThread) : Prop :=
  ∀ j ks, th.loc.tx.scanned = some (j, ks) → th.tag = .forceCompactInode j

section

variable {cfg : Config} {admits : Server → Call → Prop} {s₀ : Server} {c : FsConf} {i : Inode}
  {es : List FsEvent}

theorem scansOwn_act {n : Nat} {call : Call} {e : Eff} {k : e.Res → Prog Eff Eff.Res Reply}
    {r : e.Res} {l l' : Local} {s' : Server} {strict : Prop} (h : Pool ScansOwn c.threads)
    (hn : c.threads[n]? = some ⟨call, .call e k, l⟩) (hpre : (contract cfg strict call).pre e l)
    (ha : Acts cfg (c.threads.eraseIdx n) e l c.shared r l' s') :
    Pool ScansOwn (c.threads.set n ⟨call, k r, l'⟩) := by
  refine h.set (fun j ks hs => ?_) fun _ _ _ _ hu => hu
  rcases ha.scanned hs with hs | ⟨rfl, -⟩
  · exact h n _ hn j ks hs
  · exact hpre

/-- What holds at any point of such a run. -/
theorem numbered_of_reach (hw : s₀.Wf) (hl : s₀.LogOk cfg)
    (h : Reach (fsSystem cfg admits) (CompactedAlone i) ⟨s₀, []⟩ c) :
    ((Numbered i c ∧ Pool ScansOwn c.threads) ∧ Isolated c) ∧
      ∀ th ∈ c.threads, wp (contract cfg False th.tag) th.prog (fun _ l => l.Idle) th.loc := by
  refine isolated_invariant False (fun c => Numbered i c ∧ Pool ScansOwn c.threads) (fun hf => hf.elim)
    rfl hw (fun _ => ⟨.of_server hl, fun m u hu => by simp at hu⟩)
    (fun _ _ hX _ => ⟨hX.1.start, hX.2.append fun j ks hs => by cases hs⟩) ?_ h
  intro c n call e k l l' r s' hH hi hX hn hpre ha hH'
  refine ⟨hX.1.act hi hn hpre (fun he => ?_) ha, scansOwn_act hX.2 hn hpre ha⟩
  subst he
  exact hH.2 n _ hn rfl

/-- A call that holds scanned deltas has not returned. -/
theorem result_of_scanned {th : FsThread} {strict : Prop}
    (hwp : wp (contract cfg strict th.tag) th.prog (fun _ l => l.Idle) th.loc)
    {ks : List (Nat × DeltaOp)} (hs : th.loc.tx.scanned = some (i, ks)) (hk : ks ≠ []) : th.result = none := by
  obtain ⟨tag, prog, loc⟩ := th
  cases prog with
  | call e k => rfl
  | ret a => exact absurd (hwp.2.2 i ks hs) hk

/-- A commit adds its own deltas, under numbers not stored. -/
theorem delta_commit (hX : Numbered i c) {n : Nat} {call : Call} {e : Eff}
    {k : e.Res → Prog Eff Eff.Res Reply} {l : Local}
    (hn : c.threads[n]? = some ⟨call, .call e k, l⟩) (hcommit : Committing cfg call l c.shared.db)
    (q : Nat) (d : DeltaOp) :
    ((c.shared.db.applyBatch l.tx.batch).delta i q = some d ↔
      (c.shared.db.delta i q = some d ∧ ¬l.FoldsNumber call i q) ∨ .putDelta i q d ∈ l.tx.batch) ∧
    (.putDelta i q d ∈ l.tx.batch → c.shared.db.delta i q = none) := by
  have hnew : ∀ d', (q, d') ∈ numbersOf i l.tx.seqs → c.shared.db.delta i q = none :=
    fun d' hm => (hX.taken n _ hn _ hm).2
  rw [hcommit.delta_iff (hX.own n _ hn), hcommit.putDelta_iff]
  refine ⟨or_congr_left (and_iff_left_of_imp fun hold d' hm => ?_), hnew d⟩
  have hnone := hnew d' hm
  rw [hold.1] at hnone
  cases hnone

/-- Between the scan of a compaction and its commit, the other calls only add to the deltas. -/
theorem scannedBy_of_run (hw : s₀.Wf) (hl : s₀.LogOk cfg)
    (h : Run (fsSystem cfg admits) (CompactedAlone i) ⟨s₀, []⟩ es c) :
    ∀ (t : Nat) (th : FsThread) (ks : List (Nat × DeltaOp)), c.threads[t]? = some th →
      th.loc.tx.scanned = some (i, ks) → ks ≠ [] → ScannedBy i t ks es c.shared.db := by
  induction h with
  | init h => simp
  | @start es c call hr ha h ih =>
      intro t th ks hth hs hk
      rcases getElem?_append_cases hth with ⟨-, rfl⟩ | ⟨-, hth⟩
      · cases hs
      · exact ih t th ks hth hs hk
  | @act es c n call e k l l' r s' hr hn ha h ih =>
      intro t th ks hth hs hk
      obtain ⟨⟨⟨hnum, hown⟩, hi⟩, hwp⟩ := numbered_of_reach hw hl hr.reach
      have hclear : ∀ {j}, e = .clearDeltas j → i ≠ j := by
        rintro j rfl rfl
        exact hr.reach.hyp.2 n _ hn rfl
      rcases ha.committed_cases with ⟨rfl, hc, rfl, rfl⟩ | ⟨hc, -, -, hd⟩
      · -- the commit of another call, which is not a compaction of this inode
        rcases getElem?_set_cases hth with ⟨-, rfl⟩ | ⟨hne, hth⟩
        · cases hs
        · have hcommit : Committing cfg call l c.shared.db :=
            (hwp _ (List.mem_of_getElem? hn)).1 _ _ (hi.valid n _ hn) hi.wf
          have hcall : call ≠ .forceCompactInode i := fun e =>
            hr.reach.hyp.1 n t _ th (Ne.symm hne) hn hth rfl
              (result_of_scanned (hwp th (List.mem_of_getElem? hth)) hs hk) ⟨e, hown t th hth i ks hs⟩
          refine (ih t th ks hth hs hk).snoc (fun q d => ?_) fun q d hst =>
            (delta_commit hnum hn hcommit q d).2 hst.2
          rw [(delta_commit hnum hn hcommit q d).1]
          have hfold : ¬l.FoldsNumber call i q := fun hf => hcall hf.1
          simp [FsEvent.stores, FsEvent.commits, hc, hfold]
      · have hsame : ∀ q, s'.db.delta i q = c.shared.db.delta i q := by
          intro q
          rcases hd with hd | ⟨j, he, rfl⟩
          · exact Db.delta_congr hd i q
          · rw [Db.delta_clearDeltas, if_neg (hclear he)]
        have hquiet : ∀ {db : Db}, ScannedBy i t ks es db → (∀ q, s'.db.delta i q = db.delta i q) →
            ScannedBy i t ks (es ++ [⟨n, call, l, e, r, c.shared, s'⟩]) s'.db := by
          intro db hsc hdb
          refine hsc.snoc (fun q d => ?_) fun q d hst => ?_
          · rw [hdb]
            simp [FsEvent.stores, FsEvent.commits, hc]
          · have hyes : e.committed r = true := hst.1
            rw [hc] at hyes
            cases hyes
        rcases getElem?_set_cases hth with ⟨rfl, rfl⟩ | ⟨-, hth⟩
        · rcases ha.scanned hs with hs | ⟨rfl, rfl⟩
          · exact hquiet (ih t _ ks hn hs hk) hsame
          · exact .of_scan rfl rfl rfl hsame
        · exact hquiet (ih t th ks hth hs hk) hsame

/-- The scanned deltas and the remaining ones are, in some order, all of them. -/
theorem perm_scanDeltas {db db' : Db} {ks : List (Nat × DeltaOp)} (hk : ks.Nodup)
    (h : ∀ x, x ∈ db.scanDeltas i ↔ x ∈ ks ∨ x ∈ db'.scanDeltas i)
    (hd : ∀ x ∈ db'.scanDeltas i, x ∉ ks) : (ks ++ db'.scanDeltas i).Perm (db.scanDeltas i) := by
  refine (List.perm_ext_iff_of_nodup ?_ (db.nodup_scanDeltas i)).2 fun x => ?_
  · exact hk.append (db'.nodup_scanDeltas i) fun x hx hx' => hd x hx' hx
  · rw [List.mem_append, h]

/-- What the commit of a compaction does. -/
theorem compaction_commit (hw : s₀.Wf) (hl : s₀.LogOk cfg)
    (h : Run (fsSystem cfg admits) (CompactedAlone i) ⟨s₀, []⟩ es c) {t : Nat} {l : Local}
    {k : Eff.commit.Res → Prog Eff Eff.Res Reply}
    (hn : c.threads[t]? = some ⟨.forceCompactInode i, .call .commit k, l⟩) :
    ((∀ base, c.shared.db.inode i = some base → InRangeAnyOrder base.nlink (c.shared.db.deltas i)) →
      (c.shared.db.applyBatch l.tx.batch).effective i = c.shared.db.effective i) ∧
    ∃ xs a ys, es = xs ++ a :: ys ∧ a.thread = t ∧ a.eff = .scanDeltasWithKeys i ∧
      ∀ q d, (c.shared.db.applyBatch l.tx.batch).delta i q = some d ↔ ∃ ev ∈ ys, ev.stores i q d := by
  obtain ⟨⟨⟨hnum, -⟩, hi⟩, hwp⟩ := numbered_of_reach hw hl h.reach
  have hcommit : Committing cfg (.forceCompactInode i) l c.shared.db :=
    (hwp _ (List.mem_of_getElem? hn)).1 _ _ (hi.valid t _ hn) hi.wf
  obtain ⟨base, ks, hbase, hs, hk, hbatch⟩ := hcommit.compaction
  obtain ⟨xs, a, ys, hes, hat, hae, haks, hiff, hother⟩ := scannedBy_of_run hw hl h t _ ks hn hs hk
  -- of the stored deltas, the scanned ones go
  have hleft : ∀ q d, (c.shared.db.applyBatch l.tx.batch).delta i q = some d ↔
      ∃ ev ∈ ys, ev.stores i q d := by
    intro q d
    have hput : .putDelta i q d ∉ l.tx.batch := by
      rw [hbatch]
      simp
    rw [(delta_commit hnum hn hcommit q d).1, or_iff_left hput, hiff]
    constructor
    · rintro ⟨hm | hst, hf⟩
      · exact absurd ⟨rfl, ks, d, hs, hm⟩ hf
      · exact hst
    · rintro ⟨ev, hev, hst⟩
      refine ⟨Or.inr ⟨ev, hev, hst⟩, ?_⟩
      rintro ⟨-, ks', d', hs', hm⟩
      rw [hs] at hs'
      cases hs'
      exact hother ev hev q d hst d' hm
  refine ⟨fun hrange => ?_, xs, a, ys, hes, hat, hae, hleft⟩
  have hperm : (ks ++ (c.shared.db.applyBatch l.tx.batch).scanDeltas i).Perm (c.shared.db.scanDeltas i) := by
    refine perm_scanDeltas (haks ▸ Db.nodup_scanDeltas _ _) (fun x => ?_) fun x hx hm => ?_
    · rw [Db.mem_scanDeltas, Db.mem_scanDeltas, hiff, hleft]
    · rw [Db.mem_scanDeltas, hleft] at hx
      obtain ⟨ev, hev, hst⟩ := hx
      exact hother ev hev _ _ hst _ hm
  have hin : (c.shared.db.applyBatch l.tx.batch).inode i = some (foldDeltas base (ks.map (·.2))) := by
    rw [hbatch, inode_compaction, if_pos rfl]
  have hdeltas : (ks.map (·.2) ++ (c.shared.db.applyBatch l.tx.batch).deltas i).Perm
      (c.shared.db.deltas i) := by
    unfold Db.deltas
    rw [← List.map_append]
    exact hperm.map _
  unfold Db.effective
  rw [hin, hbase, Option.map_some, Option.map_some, ← foldDeltas_append,
    foldDeltas_perm (hrange base hbase) hdeltas]

/-- **Compaction is transparent.**  At the commit of a compaction of `i`, next to any other calls, the
effective record stays the same, and the deltas left are those committed since its scan. -/
theorem compaction_transparent (hw : s₀.Wf) (hl : s₀.LogOk cfg)
    (h : Run (fsSystem cfg admits) (CompactedAlone i) ⟨s₀, []⟩ es c) {pre post : List FsEvent} {b : FsEvent}
    (hes : es = pre ++ b :: post) (htag : b.tag = .forceCompactInode i) (hc : b.commits = true)
    (hrange : ∀ base, b.before.db.inode i = some base →
      InRangeAnyOrder base.nlink (b.before.db.deltas i)) :
    b.after.db.effective i = b.before.db.effective i ∧
    ∃ xs a ys, pre = xs ++ a :: ys ∧ a.thread = b.thread ∧ a.eff = .scanDeltasWithKeys i ∧
      ∀ q d, b.after.db.delta i q = some d ↔ ∃ ev ∈ ys, ev.stores i q d := by
  obtain ⟨c', k, l', hr, hshared, hn, hact⟩ := h.at_event hes
  obtain ⟨t, tag, l, e, r, s, s'⟩ := b
  cases hshared
  cases htag
  have ha : Acts cfg (c'.threads.eraseIdx t) e l c'.shared r l' s' := hact
  rcases ha.committed_cases with ⟨rfl, -, hs', -⟩ | ⟨hno, -⟩
  · obtain ⟨heff, hleft⟩ := compaction_commit hw hl hr hn
    have hafter : s'.db = c'.shared.db.applyBatch l.tx.batch := by rw [hs']
    show s'.db.effective i = _ ∧ ∃ xs a ys, _ ∧ _ ∧ _ ∧ ∀ q d, s'.db.delta i q = some d ↔ _
    rw [hafter]
    exact ⟨heff hrange, hleft⟩
  · have hyes : e.committed r = true := hc
    rw [hno] at hyes
    cases hyes

end

/-- `mkdir` of `1/a` has taken its numbers when `1/b` is made and a compaction of the root scans the deltas;
it commits before the compaction does. -/
def committedOutOfOrder : List (Choice Call) :=
  .start (.mkdir ROOT_INODE [97] 0o755 0 0) :: List.replicate 12 (.run 0) ++
    .start (.mkdir ROOT_INODE [98] 0o755 0 0) :: List.replicate 18 (.run 1) ++
      .start (.forceCompactInode ROOT_INODE) :: .run 2 :: .run 0 :: List.replicate 7 (.run 2)

theorem compaction_transparent_outOfOrder : ∃ (es : List FsEvent) (c : FsConf) (pre : List FsEvent)
    (b : FsEvent),
    Run (fsSystem {} fun _ _ => True) (CompactedAlone ROOT_INODE) ⟨Server.fresh {}, []⟩ es c ∧
    es = pre ++ [b] ∧ b.tag = .forceCompactInode ROOT_INODE ∧ b.commits = true ∧
    (b.before.db.scanDeltas ROOT_INODE).map (·.1) = [0, 1, 2, 3, 4, 5] ∧
    (b.after.db.scanDeltas ROOT_INODE).map (·.1) = [0, 1, 2] ∧
    b.after.db.effective ROOT_INODE = b.before.db.effective ROOT_INODE := by
  have hrec : ((fsScheduler {} (fun _ _ => True) (CompactedAlone ROOT_INODE)).record committedOutOfOrder
      ⟨Server.fresh {}, []⟩).map (fun x => x.1.getLast?.map fun b : FsEvent =>
        decide (b.tag = .forceCompactInode ROOT_INODE ∧ b.commits = true ∧
          (b.before.db.inode ROOT_INODE).map (·.nlink) = some 2 ∧
          b.before.db.scanDeltas ROOT_INODE = [(0, .incrementNlink 1), (1, .setMtime 0), (2, .setCtime 0),
            (3, .incrementNlink 1), (4, .setMtime 0), (5, .setCtime 0)] ∧
          (b.after.db.scanDeltas ROOT_INODE).map (·.1) = [0, 1, 2])) = some (some true) := by
    decide +kernel
  obtain ⟨⟨es, c⟩, hes, hlast⟩ := Option.map_eq_some_iff.1 hrec
  obtain ⟨b, hb, hv⟩ := Option.map_eq_some_iff.1 hlast
  obtain ⟨pre, hpre⟩ := List.getLast?_eq_some_iff.1 hb
  obtain ⟨htag, hc, hnlink, hbefore, hafter⟩ := of_decide_eq_true hv
  have hrun := fsScheduler_record committedOutOfOrder (by decide) hes
  refine ⟨es, c, pre, b, hrun, hpre, htag, hc, by rw [hbefore]; rfl, hafter,
    (compaction_transparent (Server.wf_fresh {}) (LogOk.fresh {}) hrun hpre htag hc fun base hi => ?_).1⟩
  rw [hi] at hnlink
  have htwo : base.nlink = 2 := Option.some.inj hnlink
  unfold Db.deltas
  rw [htwo, hbefore]
  exact inRangeAnyOrder_of_bounds (by decide) (by decide)

/-! ## Several compactions -/

def Call.isCompaction : Call → Bool
  | .forceCompactInode _ => true
  | _ => false

/-- The thread has found deltas of `i` and has neither folded them into the record nor given up. -/
def holdsScan (i : Inode) (th : FsThread) : Bool :=
  match th.loc.tx.scanned with
  | some (j, ks) => j == i && !ks.isEmpty
  | none => false

theorem holdsScan_of_scanned {i : Inode} {th : FsThread} {ks : List (Nat × DeltaOp)}
    (hs : th.loc.tx.scanned = some (i, ks)) (hk : ks ≠ []) : holdsScan i th = true := by
  unfold holdsScan
  rw [hs]
  simpa using hk

/-- No two compactions of `i` are between their scan and their commit. -/
def ScansApart (i : Inode) (c : FsConf) : Prop :=
  Apart (fun a b : FsThread => ¬(holdsScan i a = true ∧ holdsScan i b = true)) c.threads

instance (i : Inode) : DecidablePred (ScansApart i) := fun c =>
  inferInstanceAs (Decidable (Apart _ c.threads))

section

variable {cfg : Config} {s₀ : Server} {c : FsConf} {i : Inode}

/-- A compaction of another inode leaves the record and the deltas of `i`. -/
theorem compaction_other {db : Db} {j : Inode} (v : InodeValue) (ks : List (Nat × DeltaOp)) (hne : i ≠ j) :
    (db.applyBatch (.putInode j v :: ks.map fun k => .deleteDelta j k.1)).inode i = db.inode i ∧
    (db.applyBatch (.putInode j v :: ks.map fun k => .deleteDelta j k.1)).scanDeltas i = db.scanDeltas i := by
  refine ⟨by rw [inode_compaction, if_neg hne], ?_⟩
  unfold Db.scanDeltas
  rw [deltaEntries_compaction]
  congr 1
  refine OrdMap.ext_get fun q => ?_
  rw [OrdMap.get_slice, OrdMap.get_slice, get_foldl_erase, if_neg]
  rintro ⟨p, -, hkey⟩
  exact hne (by simpa using congrArg (fun k => (ofLex k).1) hkey)

/-- **Compactions that do not overlap between scan and commit keep the effective record**, however many of
them run and whatever else of them overlaps. -/
theorem compactions_keep (hw : s₀.Wf)
    (h : Reach (fsSystem cfg fun _ call => call.isCompaction = true) (ScansApart i) ⟨s₀, []⟩ c) :
    c.shared.db.effective i = s₀.db.effective i := by
  refine (isolated_invariant False (fun c => c.shared.db.effective i = s₀.db.effective i ∧
    Pool (fun th : FsThread => ∀ ks, th.loc.tx.scanned = some (i, ks) → ks ≠ [] →
      ks = c.shared.db.scanDeltas i) c.threads ∧
    Pool (fun th : FsThread => th.tag.isCompaction = true) c.threads) (fun hf => hf.elim) rfl hw
    (fun _ => ⟨rfl, fun m u hu => by simp at hu, fun m u hu => by simp at hu⟩) (fun _ _ hX hadm => ?_) ?_
    h).1.1.1
  · exact ⟨hX.1, hX.2.1.append fun ks hs => (by cases hs), hX.2.2.append hadm⟩
  intro c n call e k l l' r s' hH hi ⟨heff, hscan, htags⟩ hn hpre ha hH'
  have htag : call.isCompaction = true := htags n _ hn
  refine and_assoc.1 ⟨?_, htags.set htag fun _ _ _ _ hu => hu⟩
  obtain ⟨j, rfl⟩ : ∃ j, call = .forceCompactInode j := by
    cases call <;> first | exact ⟨_, rfl⟩ | cases htag
  rcases ha.committed_cases with ⟨rfl, -, rfl, rfl⟩ | ⟨-, hin, -, hd⟩
  · -- what is committed was scanned, and nothing has been stored since
    have hcommit : Committing cfg (.forceCompactInode j) l c.shared.db := hpre _ _ (hi.valid n _ hn) hi.wf
    obtain ⟨base, ks, hbase, hs, hk, hbatch⟩ := hcommit.compaction
    show (c.shared.db.applyBatch l.tx.batch).effective i = _ ∧ _
    rw [hbatch]
    by_cases hij : i = j
    · subst hij
      have hks := hscan n _ hn ks hs hk
      refine ⟨?_, hscan.set (fun ks' hs' => by cases hs') fun m u hm hu _ ks' hs' hk' => ?_⟩
      · rw [← heff, hks]
        exact effective_compacted hbase i
      · exact absurd ⟨holdsScan_of_scanned hs hk, holdsScan_of_scanned hs' hk'⟩
          (hH n m _ u hm.symm hn hu)
    · obtain ⟨hinode, hdeltas⟩ := compaction_other (foldDeltas base (ks.map (·.2))) ks hij
      refine ⟨?_, hscan.set (fun ks' hs' => by cases hs') fun m u _ _ hu ks' hs' hk' => ?_⟩
      · rw [← heff]
        exact Db.effective_congr hinode (congrArg (List.map Prod.snd) hdeltas)
      · exact (hu ks' hs' hk').trans hdeltas.symm
  · have hde : s'.db.deltaEntries = c.shared.db.deltaEntries := by
      rcases hd with hd | ⟨m, rfl, -⟩
      · exact hd
      · cases hpre.1
    have hdeltas : s'.db.scanDeltas i = c.shared.db.scanDeltas i := by
      unfold Db.scanDeltas
      rw [hde]
    refine ⟨?_, hscan.set (fun ks hs hk => ?_) fun m u _ _ hu ks hs hk => ?_⟩
    · rw [← heff]
      exact Db.effective_congr (congrArg (OrdMap.get · i) hin) (Db.deltas_congr hde i)
    · rcases ha.scanned hs with hs | ⟨-, rfl⟩
      · exact (hscan n _ hn ks hs hk).trans hdeltas.symm
      · exact hdeltas.symm
    · exact (hu ks hs hk).trans hdeltas.symm

end

/-- A server on which `1/a` has been made: the root has a pending link. -/
def oneDirMade : Server := ((Server.fresh {}).exec {} (.mkdir ROOT_INODE [97] 0o755 0 0)).2

/-- Both compactions scan before the first of them commits. -/
def scannedTwice : List (Choice Call) :=
  [.start (.forceCompactInode ROOT_INODE), .start (.forceCompactInode ROOT_INODE), .run 0, .run 1] ++
    List.replicate 9 (.run 0) ++ List.replicate 9 (.run 1)

/-- The root has three links before two overlapping compactions, and four when both have returned. -/
theorem compacted_twice : ∃ c,
    Reach (fsSystem {} fun _ call => call.isCompaction = true) (fun _ => True) ⟨oneDirMade, []⟩ c ∧
    c.threads.map (fun th => (th.tag, th.result.isSome)) =
      [(.forceCompactInode ROOT_INODE, true), (.forceCompactInode ROOT_INODE, true)] ∧
    (oneDirMade.db.effective ROOT_INODE).map (·.nlink) = some 3 ∧
    (c.shared.db.effective ROOT_INODE).map (·.nlink) = some 4 := by
  have hrun : ((fsScheduler {} (fun _ call => call.isCompaction = true) (fun _ => True)).run
      scannedTwice ⟨oneDirMade, []⟩).map (fun c =>
        decide (c.threads.map (fun th => (th.tag, th.result.isSome)) =
          [(.forceCompactInode ROOT_INODE, true), (.forceCompactInode ROOT_INODE, true)] ∧
        (oneDirMade.db.effective ROOT_INODE).map (·.nlink) = some 3 ∧
        (c.shared.db.effective ROOT_INODE).map (·.nlink) = some 4)) = some true := by decide +kernel
  obtain ⟨c, hc, hv⟩ := Option.map_eq_some_iff.1 hrun
  exact ⟨c, fsScheduler_reach {} _ (fun _ => True) scannedTwice trivial hc, of_decide_eq_true hv⟩

/-- The second compaction scans when the first one has committed and is about to return. -/
def scannedAfterCommit : List (Choice Call) :=
  [.start (.forceCompactInode ROOT_INODE), .start (.forceCompactInode ROOT_INODE)] ++
    List.replicate 8 (.run 0) ++ [.run 1, .run 0, .run 0]

theorem compactions_keep_afterCommit : ∃ c,
    Reach (fsSystem {} fun _ call => call.isCompaction = true) (ScansApart ROOT_INODE) ⟨oneDirMade, []⟩ c ∧
    c.threads.map (fun th => th.result.isSome) = [true, true] ∧
    (c.shared.db.inode ROOT_INODE).map (·.nlink) = some 3 ∧
    c.shared.db.effective ROOT_INODE = oneDirMade.db.effective ROOT_INODE := by
  have hrun : ((fsScheduler {} (fun _ call => call.isCompaction = true) (ScansApart ROOT_INODE)).run
      scannedAfterCommit ⟨oneDirMade, []⟩).map (fun c =>
        decide (c.threads.map (fun th => th.result.isSome) = [true, true] ∧
          (c.shared.db.inode ROOT_INODE).map (·.nlink) = some 3)) = some true := by decide +kernel
  obtain ⟨c, hc, hv⟩ := Option.map_eq_some_iff.1 hrun
  have hreach := fsScheduler_reach {} _ (ScansApart ROOT_INODE) scannedAfterCommit (by decide) hc
  obtain ⟨hres, hlinks⟩ := of_decide_eq_true hv
  exact ⟨c, hreach, hres, hlinks, compactions_keep ((Server.wf_fresh {}).exec {} _) hreach⟩

end RucksFs
