import RucksFs.Server.Effect

/-!
# The stored deltas of a directory

What the updates of `RucksFs.Server.Transact` do to the stored deltas and to the effective record
of an inode, its base record folded with them.

* `Server.LogOk` — sequence numbers still to be given out are above the stored ones, and the
  `no_delta` build stores no deltas.
* `effective_parentDeltasAll` — in both builds the deltas of a commit are folded on top of what
  was there.
* `deltas_clearDeltas`, `deltas_compacted` — what clearing and compaction leave.
-/

set_option autoImplicit false

namespace RucksFs

open Server

/-- The deltas that a list of parent updates holds for `j`. -/
def deltasOf (dss : List (Inode × List DeltaOp)) (j : Inode) : List DeltaOp :=
  dss.flatMap fun d => if d.1 = j then d.2 else []

theorem deltasOf_cons (d : Inode × List DeltaOp) (dss : List (Inode × List DeltaOp)) (j : Inode) :
    deltasOf (d :: dss) j = (if d.1 = j then d.2 else []) ++ deltasOf dss j := rfl

theorem deltasOf_singleton (p : Inode) (ds : List DeltaOp) (j : Inode) :
    deltasOf [(p, ds)] j = if p = j then ds else [] := List.append_nil _

theorem deltasOf_ne {dss : List (Inode × List DeltaOp)} {i : Inode} (h : ∀ d ∈ dss, d.1 ≠ i) :
    deltasOf dss i = [] := by
  unfold deltasOf
  rw [List.flatMap_eq_nil_iff]
  exact fun d hd => if_neg (h d hd)

/-! A rename has deltas for the directory it leaves and for the one it enters; for a directory it stays in, it has
those of the replaced entry. -/

theorem deltasOf_rename_left {p np : Inode} (h : p ≠ np) (a b : Bool) (ts : Nat) :
    deltasOf (renameDeltas p np a b ts) p = (if a then [.incrementNlink (-1)] else []) ++ touchDeltas ts := by
  cases a <;> cases b <;> simp [deltasOf, renameDeltas, touchDeltas, h, Ne.symm h]

theorem deltasOf_rename_entered {p np : Inode} (h : p ≠ np) (a b : Bool) (ts : Nat) :
    deltasOf (renameDeltas p np a b ts) np =
      (if b then [.incrementNlink (-1)] else []) ++ (if a then [.incrementNlink 1] else []) ++ touchDeltas ts := by
  cases a <;> cases b <;> simp [deltasOf, renameDeltas, touchDeltas, h]

theorem deltasOf_rename_within (p : Inode) (a b : Bool) (ts : Nat) (j : Inode) :
    deltasOf (renameDeltas p p a b ts) j =
      if p = j then (if b then [.incrementNlink (-1)] else []) ++ touchDeltas ts else [] := by
  by_cases e : p = j <;> cases b <;> simp [deltasOf, renameDeltas, touchDeltas, e]

theorem deltasOf_rename_other {p np j : Inode} (hp : j ≠ p) (hnp : j ≠ np) (a b : Bool) (ts : Nat) :
    deltasOf (renameDeltas p np a b ts) j = [] := by
  apply deltasOf_ne
  rintro x hx rfl
  have hmem := renameDeltas_fst x hx
  simp only [List.mem_cons, List.not_mem_nil, or_false] at hmem
  exact hmem.elim hp hnp

namespace Db

theorem deltas_congr {a b : Db} (h : a.deltaEntries = b.deltaEntries) (i : Inode) :
    a.deltas i = b.deltas i := by
  unfold deltas scanDeltas
  rw [h]

theorem effective_congr {a b : Db} {i : Inode} (hi : a.inode i = b.inode i)
    (hd : a.deltas i = b.deltas i) : a.effective i = b.effective i := by
  unfold effective
  rw [hi, hd]

/-- Operations on other column families leave the deltas. -/
theorem deltaEntries_applyBatch (db : Db) {ops : List BatchOp} (h : ∀ op ∈ ops, ¬op.IsDelta) :
    (db.applyBatch ops).deltaEntries = db.deltaEntries := by
  induction ops generalizing db with
  | nil => rfl
  | cons op ops ih =>
      have hop := h op List.mem_cons_self
      rw [applyBatch_cons, ih (db.applyOp op) fun o ho => h o (List.mem_cons_of_mem _ ho)]
      cases op <;> first | rfl | exact absurd trivial hop

theorem deltas_eq_nil {db : Db} {i : Inode} :
    db.deltas i = [] ↔ ∀ q, db.deltaEntries.get (toLex (i, q)) = none := by
  unfold deltas scanDeltas
  rw [List.map_eq_nil_iff, OrdMap.toList_eq_nil]
  simp

/-- A delta above all stored ones of its inode comes last. -/
theorem deltas_putDelta {db : Db} {p : Inode} {q : Nat} (d : DeltaOp)
    (h : ∀ q' d', db.deltaEntries.get (toLex (p, q')) = some d' → q' < q) (j : Inode) :
    (db.applyOp (.putDelta p q d)).deltas j = if j = p then db.deltas p ++ [d] else db.deltas j := by
  unfold deltas scanDeltas applyOp
  by_cases e : j = p
  · subst e
    rw [if_pos rfl, OrdMap.slice_put_self, OrdMap.toList_put_last (fun q' d' hq => h q' d' (by simpa using hq))]
    simp
  · rw [if_neg e, OrdMap.slice_put_ne _ _ _ e]

theorem deltas_deltaPuts (p : Inode) : ∀ (ds : List DeltaOp) (db : Db) (q : Nat),
    (∀ q' d', db.deltaEntries.get (toLex (p, q')) = some d' → q' < q) → ∀ j,
    (db.applyBatch (deltaPuts p q ds)).deltas j = if j = p then db.deltas p ++ ds else db.deltas j
  | [], db, q, _, j => by
      by_cases e : j = p
      · rw [if_pos e, List.append_nil, e]
        rfl
      · rw [if_neg e]
        rfl
  | d :: ds, db, q, h, j => by
      have hstep := deltas_putDelta d h
      have h' : ∀ q' d', (db.applyOp (.putDelta p q d)).deltaEntries.get (toLex (p, q')) = some d' →
          q' < q + 1 := by
        intro q' d' hq
        unfold applyOp at hq
        dsimp only at hq
        rw [OrdMap.get_put] at hq
        split at hq
        · rename_i e
          obtain ⟨-, rfl⟩ : p = p ∧ q' = q := by simpa using e
          exact Nat.lt_succ_self _
        · exact Nat.lt_succ_of_lt (h q' d' hq)
      show ((db.applyOp (.putDelta p q d)).applyBatch (deltaPuts p (q + 1) ds)).deltas j = _
      rw [deltas_deltaPuts p ds _ _ h' j, hstep p, hstep j, if_pos rfl]
      by_cases e : j = p
      · simp [e]
      · simp [e]

theorem get_deltaPuts (p : Inode) : ∀ (ds : List DeltaOp) (db : Db) (q : Nat) {i : Inode} {q' : Nat}
    {d : DeltaOp}, (db.applyBatch (deltaPuts p q ds)).deltaEntries.get (toLex (i, q')) = some d →
    db.deltaEntries.get (toLex (i, q')) = some d ∨ (i = p ∧ q' < q + ds.length)
  | [], _, _, _, _, _, h => Or.inl h
  | e :: ds, db, q, i, q', d, h => by
      have h : ((db.applyOp (.putDelta p q e)).applyBatch (deltaPuts p (q + 1) ds)).deltaEntries.get
          (toLex (i, q')) = some d := h
      rcases get_deltaPuts p ds _ _ h with h₁ | ⟨rfl, hlt⟩
      · unfold applyOp at h₁
        dsimp only at h₁
        rw [OrdMap.get_put] at h₁
        split at h₁
        · rename_i hk
          obtain ⟨rfl, rfl⟩ : i = p ∧ q' = q := by simpa using hk
          exact Or.inr ⟨rfl, by simp⟩
        · exact Or.inl h₁
      · exact Or.inr ⟨rfl, by simp only [List.length_cons]; omega⟩

theorem inode_deltaPuts (p : Inode) (ds : List DeltaOp) (db : Db) (q : Nat) (i : Inode) :
    (db.applyBatch (deltaPuts p q ds)).inode i = db.inode i := by
  have hside : ∀ op ∈ deltaPuts p q ds, op.IsSide :=
    fun op ho => (Server.Bookkeeping.isDelta_deltaPuts p ds q op ho).side
  unfold inode
  rw [(applyBatch_side db hside).1]

end Db

/-- New sequence numbers are above the stored ones, and the `no_delta` build stores none. -/
structure Server.LogOk (cfg : Config) (s : Server) : Prop where
  seqs : ∀ {i q d}, s.db.deltaEntries.get (toLex (i, q)) = some d → q < s.seqs i
  plain : cfg.build = .noDelta → ∀ i, s.db.deltas i = []

theorem Server.deltas_fresh (cfg : Config) (i : Inode) : (Server.fresh cfg).db.deltas i = [] :=
  Db.deltas_eq_nil.2 fun _ => rfl

namespace Server.LogOk

variable {cfg : Config} {s s' : Server}

theorem fresh (cfg : Config) : LogOk cfg (Server.fresh cfg) where
  seqs {i q d} hd := by
    have hnone : (Server.fresh cfg).db.deltaEntries.get (toLex (i, q)) = none := rfl
    rw [hnone] at hd
    cases hd
  plain _ := Server.deltas_fresh cfg

theorem congr (h : LogOk cfg s) (hd : s'.db.deltaEntries = s.db.deltaEntries)
    (hq : s'.seqs = s.seqs) : LogOk cfg s' := by
  refine ⟨fun {i q d} hi => ?_, fun hb i => ?_⟩
  · rw [hd] at hi
    rw [hq]
    exact h.seqs hi
  · rw [Db.deltas_congr hd]
    exact h.plain hb i

theorem write (h : LogOk cfg s) {ops : List BatchOp} (hops : ∀ op ∈ ops, ¬op.IsDelta) :
    LogOk cfg (s.write ops) :=
  h.congr (s.db.deltaEntries_applyBatch hops) rfl

theorem parentDeltas (h : LogOk cfg s) (p : Inode) (ds : List DeltaOp) :
    LogOk cfg (s.parentDeltas cfg p ds) := by
  unfold Server.parentDeltas
  split
  · rename_i hb
    refine ⟨fun {i q d} hi => ?_, fun hb' => by rw [hb] at hb'; cases hb'⟩
    dsimp only at hi ⊢
    rcases Db.get_deltaPuts p ds _ _ hi with h₀ | ⟨rfl, hlt⟩
    · have hlt := h.seqs h₀
      by_cases e : i = p
      · subst e
        simp only [Function.update_self]
        exact Nat.lt_of_lt_of_le hlt (Nat.le_add_right _ _)
      · simpa [e] using hlt
    · simpa using hlt
  · split
    · exact h.write (by simp [BatchOp.IsDelta])
    · exact h

theorem parentDeltasAll (dss : List (Inode × List DeltaOp)) :
    ∀ {s : Server}, LogOk cfg s → LogOk cfg (s.parentDeltasAll cfg dss) := by
  induction dss with
  | nil => exact fun h => h
  | cons d dss ih => exact fun h => ih (h.parentDeltas d.1 d.2)

end Server.LogOk

/-! ## Effective records -/

section

variable {cfg : Config} {s : Server}

theorem effective_parentDeltas (h : LogOk cfg s) (p : Inode) (ds : List DeltaOp) (j : Inode) :
    (s.parentDeltas cfg p ds).db.effective j =
      (s.db.effective j).map (foldDeltas · (if p = j then ds else [])) := by
  have hid : ∀ o : Option InodeValue, o.map (foldDeltas · []) = o := by
    intro o
    cases o <;> rfl
  unfold Server.parentDeltas
  split
  · unfold Db.effective
    dsimp only
    rw [Db.inode_deltaPuts, Db.deltas_deltaPuts p ds _ _ fun q' d' hq => h.seqs hq]
    by_cases e : j = p
    · subst e
      rw [if_pos rfl, if_pos rfl, Option.map_map]
      congr 1
      funext base
      exact foldDeltas_append _ _ _
    · rw [if_neg e, if_neg (Ne.symm e), hid]
  · rename_i hb
    have hnil : ∀ k, s.db.deltas k = [] := h.plain hb
    split
    · rename_i iv hiv
      have hd : ∀ k, (s.write [.putInode p (foldDeltas iv ds)]).db.deltas k = [] :=
        fun k => (Db.deltas_congr (s.db.deltaEntries_applyBatch (by simp [BatchOp.IsDelta])) k).trans
          (hnil k)
      unfold Db.effective
      rw [hd, hnil]
      show ((s.db.applyBatch [.putInode p (foldDeltas iv ds)]).inode j).map _ = _
      rw [Change.inode_rewrite]
      by_cases e : j = p
      · subst e
        rw [if_pos rfl, if_pos rfl, hiv]
        rfl
      · rw [if_neg e, if_neg (Ne.symm e), hid, hid]
    · rename_i hnone
      by_cases e : p = j
      · subst e
        unfold Db.effective
        rw [hnone]
        rfl
      · rw [if_neg e, hid]

theorem effective_parentDeltasAll (dss : List (Inode × List DeltaOp)) (j : Inode) :
    ∀ {s : Server}, LogOk cfg s → (s.parentDeltasAll cfg dss).db.effective j =
      (s.db.effective j).map (foldDeltas · (deltasOf dss j)) := by
  induction dss with
  | nil =>
      intro s _
      show s.db.effective j = (s.db.effective j).map id
      rw [Option.map_id]
      rfl
  | cons d dss ih =>
      intro s h
      have hstep := effective_parentDeltas h d.1 d.2 j
      show ((s.parentDeltas cfg d.1 d.2).parentDeltasAll cfg dss).db.effective j = _
      rw [ih (h.parentDeltas d.1 d.2), hstep, Option.map_map, deltasOf_cons]
      congr 1
      funext base
      exact (foldDeltas_append _ _ _).symm

/-- In the delta build the deltas of a commit come last, and no record changes. -/
theorem deltas_parentDeltasAll_delta (hb : cfg.build = .delta) (dss : List (Inode × List DeltaOp))
    (j : Inode) : ∀ {s : Server}, LogOk cfg s →
      (s.parentDeltasAll cfg dss).db.deltas j = s.db.deltas j ++ deltasOf dss j ∧
        (s.parentDeltasAll cfg dss).db.inode j = s.db.inode j := by
  induction dss with
  | nil => exact fun {s} _ => ⟨(List.append_nil _).symm, rfl⟩
  | cons d dss ih =>
      intro s h
      have hs : s.parentDeltas cfg d.1 d.2 =
          { s with
            db := s.db.applyBatch (deltaPuts d.1 (s.seqs d.1) d.2)
            seqs := Function.update s.seqs d.1 (s.seqs d.1 + d.2.length) } := by
        unfold Server.parentDeltas
        rw [hb]
      have hd : (s.parentDeltas cfg d.1 d.2).db.deltas j =
          s.db.deltas j ++ if d.1 = j then d.2 else [] := by
        rw [hs]
        dsimp only
        rw [Db.deltas_deltaPuts d.1 d.2 _ _ fun q' d' hq => h.seqs hq]
        by_cases e : d.1 = j
        · rw [if_pos e, if_pos e.symm, e]
        · rw [if_neg e, if_neg (Ne.symm e), List.append_nil]
      have hi : (s.parentDeltas cfg d.1 d.2).db.inode j = s.db.inode j := by
        rw [hs]
        exact Db.inode_deltaPuts _ _ _ _ _
      obtain ⟨hd', hi'⟩ := ih (h.parentDeltas d.1 d.2)
      refine ⟨hd'.trans ?_, hi'.trans hi⟩
      rw [hd, deltasOf_cons, List.append_assoc]

/-- In the `no_delta` build they are folded into the record. -/
theorem inode_parentDeltasAll_noDelta (hb : cfg.build = .noDelta) (h : LogOk cfg s)
    (dss : List (Inode × List DeltaOp)) (j : Inode) :
    (s.parentDeltasAll cfg dss).db.inode j = (s.db.inode j).map (foldDeltas · (deltasOf dss j)) := by
  have heff : ∀ {t : Server}, LogOk cfg t → t.db.effective j = t.db.inode j := by
    intro t ht
    unfold Db.effective
    rw [ht.plain hb]
    cases t.db.inode j <;> rfl
  rw [← heff (h.parentDeltasAll dss), effective_parentDeltasAll dss j h, heff h]

theorem deltas_parentDeltas_ne {p j : Inode} (h : LogOk cfg s) (ds : List DeltaOp) (hj : j ≠ p) :
    (s.parentDeltas cfg p ds).db.deltas j = s.db.deltas j := by
  unfold Server.parentDeltas
  split
  · dsimp only
    rw [Db.deltas_deltaPuts p ds _ _ fun q' d' hq => h.seqs hq, if_neg hj]
  · split
    · exact Db.deltas_congr (s.db.deltaEntries_applyBatch (by simp [BatchOp.IsDelta])) j
    · rfl

/-- Only the parents get deltas. -/
theorem deltas_parentDeltasAll {j : Inode} (dss : List (Inode × List DeltaOp)) :
    ∀ {s : Server}, LogOk cfg s → (s.parentDeltasAll cfg dss).db.deltas j ≠ [] →
      s.db.deltas j ≠ [] ∨ ∃ d ∈ dss, d.1 = j := by
  induction dss with
  | nil => exact fun _ h => Or.inl h
  | cons d dss ih =>
      intro s hl h
      rcases ih (hl.parentDeltas d.1 d.2) h with h | ⟨d', hd', e⟩
      · by_cases e : d.1 = j
        · exact Or.inr ⟨d, List.mem_cons_self, e⟩
        · rw [deltas_parentDeltas_ne hl d.2 (Ne.symm e)] at h
          exact Or.inl h
      · exact Or.inr ⟨d', List.mem_cons_of_mem _ hd', e⟩

theorem get_foldl_erase (i : Inode) : ∀ (l : List (Nat × DeltaOp)) (m : OrdMap DeltaKey DeltaOp)
    (k : DeltaKey), (l.foldl (fun m p => m.erase (toLex (i, p.1))) m).get k =
      if ∃ p ∈ l, k = toLex (i, p.1) then none else m.get k
  | [], m, k => by simp
  | p :: l, m, k => by
      rw [List.foldl_cons, get_foldl_erase i l, OrdMap.get_erase]
      by_cases h : ∃ p ∈ l, k = toLex (i, p.1)
      · have h' : ∃ p' ∈ p :: l, k = toLex (i, p'.1) := by
          obtain ⟨p', hm, e⟩ := h
          exact ⟨p', List.mem_cons_of_mem _ hm, e⟩
        rw [if_pos h, if_pos h']
      · rw [if_neg h]
        by_cases e : k = toLex (i, p.1)
        · rw [if_pos e, if_pos ⟨p, List.mem_cons_self, e⟩]
        · rw [if_neg e, if_neg]
          rintro ⟨p', hm, e'⟩
          rcases List.mem_cons.1 hm with rfl | hm
          · exact e e'
          · exact h ⟨p', hm, e'⟩

/-- Erasing what a scan of `i` found leaves nothing of `i`, and everything else. -/
theorem get_erase_scan (db : Db) (i j : Inode) (q : Nat) :
    ((db.scanDeltas i).foldl (fun m p => m.erase (toLex (i, p.1))) db.deltaEntries).get (toLex (j, q)) =
      if j = i then none else db.deltaEntries.get (toLex (j, q)) := by
  rw [get_foldl_erase]
  by_cases e : j = i
  · subst e
    rw [if_pos rfl]
    cases hg : db.deltaEntries.get (toLex (j, q)) with
    | none => split <;> rfl
    | some d =>
        rw [if_pos]
        refine ⟨(q, d), OrdMap.mem_toList.2 ?_, rfl⟩
        rw [OrdMap.get_slice, hg]
  · rw [if_neg e, if_neg]
    rintro ⟨p, -, hk⟩
    exact e (by simpa using congrArg (fun k => (ofLex k).1) hk)

/-! ## Clearing and compaction -/

theorem deltas_clearDeltas (s : Server) (i j : Inode) :
    (s.clearDeltas i).db.deltas j = if j = i then [] else s.db.deltas j := by
  by_cases e : j = i
  · rw [if_pos e, Db.deltas_eq_nil]
    intro q
    exact (get_erase_scan s.db i j q).trans (if_pos e)
  · rw [if_neg e]
    have hslice : (s.clearDeltas i).db.deltaEntries.slice j = s.db.deltaEntries.slice j := by
      apply OrdMap.ext_get
      intro q
      rw [OrdMap.get_slice, OrdMap.get_slice]
      exact (get_erase_scan s.db i j q).trans (if_neg e)
    unfold Db.deltas Db.scanDeltas
    rw [hslice]

theorem Server.LogOk.clearDeltas (h : LogOk cfg s) (i : Inode) : LogOk cfg (s.clearDeltas i) := by
  refine ⟨fun {j q d} hj => ?_, fun hb j => ?_⟩
  · have hget : (s.clearDeltas i).db.deltaEntries.get (toLex (j, q)) =
        if j = i then none else s.db.deltaEntries.get (toLex (j, q)) := get_erase_scan s.db i j q
    rw [hget] at hj
    by_cases e : j = i
    · rw [if_pos e] at hj
      cases hj
    · rw [if_neg e] at hj
      show q < Function.update s.seqs i 0 j
      rw [Function.update_of_ne e]
      exact h.seqs hj
  · rw [deltas_clearDeltas]
    split
    · rfl
    · exact h.plain hb j

/-- The batch of a compaction. -/
theorem deltaEntries_compaction (i : Inode) (v : InodeValue) (l : List (Nat × DeltaOp)) : ∀ db : Db,
    (db.applyBatch (.putInode i v :: l.map fun p => .deleteDelta i p.1)).deltaEntries =
      l.foldl (fun m p => m.erase (toLex (i, p.1))) db.deltaEntries := by
  intro db
  have hrest : ∀ (l : List (Nat × DeltaOp)) (db : Db),
      (db.applyBatch (l.map fun p => .deleteDelta i p.1)).deltaEntries =
        l.foldl (fun m p => m.erase (toLex (i, p.1))) db.deltaEntries := by
    intro l
    induction l with
    | nil => exact fun _ => rfl
    | cons p l ih => exact fun db => ih (db.applyOp (.deleteDelta i p.1))
  exact hrest l (db.applyOp (.putInode i v))

theorem inode_compaction (i : Inode) (v : InodeValue) (l : List (Nat × DeltaOp)) (db : Db) (j : Inode) :
    (db.applyBatch (.putInode i v :: l.map fun p => .deleteDelta i p.1)).inode j =
      if j = i then some v else db.inode j := by
  have hside : ∀ op ∈ l.map fun p => BatchOp.deleteDelta i p.1, op.IsSide := by
    intro op ho
    obtain ⟨p, -, rfl⟩ := List.mem_map.1 ho
    trivial
  unfold Db.inode
  rw [Db.applyBatch_cons, (Db.applyBatch_side (db.applyOp (.putInode i v)) hside).1]
  exact OrdMap.get_put _ _ _ _

/-- Compaction leaves no deltas of the inode and does not change any effective record. -/
theorem deltas_compacted (s : Server) (i : Inode) (base : InodeValue) (j : Inode) :
    (s.compacted i base).db.deltas j = if j = i then [] else s.db.deltas j := by
  rw [← deltas_clearDeltas s i j]
  exact Db.deltas_congr (deltaEntries_compaction i _ (s.db.scanDeltas i) s.db) j

theorem effective_compacted {i : Inode} {base : InodeValue} (hi : s.db.inode i = some base)
    (j : Inode) : (s.compacted i base).db.effective j = s.db.effective j := by
  have hin : (s.compacted i base).db.inode j =
      if j = i then some (foldDeltas base (s.db.deltas i)) else s.db.inode j :=
    inode_compaction i _ (s.db.scanDeltas i) s.db j
  unfold Db.effective
  rw [hin, deltas_compacted]
  by_cases e : j = i
  · subst e
    rw [if_pos rfl, if_pos rfl, hi]
    rfl
  · rw [if_neg e, if_neg e]

theorem Server.LogOk.compacted (h : LogOk cfg s) (i : Inode) (base : InodeValue) :
    LogOk cfg (s.compacted i base) := by
  have hc := h.clearDeltas i
  have hd : (s.compacted i base).db.deltaEntries = (s.clearDeltas i).db.deltaEntries :=
    deltaEntries_compaction i _ (s.db.scanDeltas i) s.db
  refine ⟨fun {j q d} hj => ?_, fun hb j => ?_⟩
  · rw [hd] at hj
    have hle : (s.clearDeltas i).seqs j ≤ s.seqs j := by
      show Function.update s.seqs i 0 j ≤ s.seqs j
      by_cases e : j = i
      · simp [e]
      · simp [e]
    exact Nat.lt_of_lt_of_le (hc.seqs hj) hle
  · rw [Db.deltas_congr hd]
    exact hc.plain hb j

end

end RucksFs
