import RucksFs.Server.Log
import RucksFs.Server.Verified

/-!
# Row locks isolate transactions

What every interleaving keeps, whatever the calls and their arguments: the shape of the namespace,
and that no transaction sees a row it has locked change under it.

* `Isolated` — the invariant; `Isolated.act` is its step lemma.
* `isolated_invariant` — the rule by which the further invariants are proved: each has to be kept by
  one effect at a time, next to `Isolated` and the contract of the call that performs it.
* `Evolves`, `Roles` — inodes keep their type for life, so that what was a directory or a file when a
  call met it still is one, or is gone, at its commit.
-/

set_option autoImplicit false

namespace RucksFs

open Server Prog

/-! ## Frames -/

namespace Db

variable {db : Db} {ops : List BatchOp}

/-- A batch that does not write the row leaves the record. -/
theorem inode_applyBatch_of_row {i : Inode} (h : ∀ op ∈ ops, op.row ≠ .inode i) :
    (db.applyBatch ops).inode i = db.inode i := by
  induction ops generalizing db with
  | nil => rfl
  | cons op ops ih =>
      have hop := h op List.mem_cons_self
      rw [applyBatch_cons, ih fun o ho => h o (List.mem_cons_of_mem _ ho), inode_applyOp]
      cases op with
      | putInode j v => exact if_neg fun e : i = j => hop (e ▸ rfl)
      | deleteInode j => exact if_neg fun e : i = j => hop (e ▸ rfl)
      | _ => rfl

/-- A record was there before or is in the batch. -/
theorem inode_applyBatch_some {i : Inode} {iv : InodeValue} (h : (db.applyBatch ops).inode i = some iv) :
    db.inode i = some iv ∨ .putInode i iv ∈ ops := by
  induction ops generalizing db with
  | nil => exact Or.inl h
  | cons op ops ih =>
      rcases ih h with hold | hmem
      · rw [inode_applyOp] at hold
        cases op with
        | putInode j v =>
            dsimp only at hold
            split at hold
            · rename_i e
              cases hold
              exact Or.inr (e ▸ List.mem_cons_self)
            · exact Or.inl hold
        | deleteInode j =>
            dsimp only at hold
            split at hold
            · cases hold
            · exact Or.inl hold
        | _ => exact Or.inl hold
      · exact Or.inr (List.mem_cons_of_mem _ hmem)

/-- A missing record was missing before or is deleted by the batch. -/
theorem inode_applyBatch_none {i : Inode} (h : (db.applyBatch ops).inode i = none) :
    db.inode i = none ∨ .deleteInode i ∈ ops := by
  induction ops generalizing db with
  | nil => exact Or.inl h
  | cons op ops ih =>
      rcases ih h with hold | hmem
      · rw [inode_applyOp] at hold
        cases op with
        | putInode j v =>
            dsimp only at hold
            split at hold
            · cases hold
            · exact Or.inl hold
        | deleteInode j =>
            dsimp only at hold
            split at hold
            · rename_i e
              exact Or.inr (e ▸ List.mem_cons_self)
            · exact Or.inl hold
        | _ => exact Or.inl hold
      · exact Or.inr (List.mem_cons_of_mem _ hmem)

theorem entry_applyBatch_of_row {p : Inode} {n : Name} (h : ∀ op ∈ ops, op.row ≠ .dirEntry p n) :
    (db.applyBatch ops).entry p n = db.entry p n := by
  induction ops generalizing db with
  | nil => rfl
  | cons op ops ih =>
      have hop := h op List.mem_cons_self
      rw [applyBatch_cons, ih fun o ho => h o (List.mem_cons_of_mem _ ho), entry_applyOp]
      cases op with
      | putDirEntry q m v => exact if_neg fun e => hop (by rw [e.1, e.2]; rfl)
      | deleteDirEntry q m => exact if_neg fun e => hop (by rw [e.1, e.2]; rfl)
      | _ => rfl

/-- A stored delta was there before or is in the batch. -/
theorem delta_applyBatch {i : Inode} {q : Nat} {d : DeltaOp}
    (h : (db.applyBatch ops).deltaEntries.get (toLex (i, q)) = some d) :
    db.deltaEntries.get (toLex (i, q)) = some d ∨ .putDelta i q d ∈ ops := by
  induction ops generalizing db with
  | nil => exact Or.inl h
  | cons op ops ih =>
      rcases ih h with hold | hmem
      · cases op with
        | putDelta j q' d' =>
            unfold applyOp at hold
            dsimp only at hold
            rw [OrdMap.get_put] at hold
            split at hold
            · rename_i e
              obtain ⟨rfl, rfl⟩ : i = j ∧ q = q' := by simpa using e
              cases hold
              exact Or.inr List.mem_cons_self
            · exact Or.inl hold
        | deleteDelta j q' =>
            unfold applyOp at hold
            dsimp only at hold
            rw [OrdMap.get_erase] at hold
            split at hold
            · cases hold
            · exact Or.inl hold
        | _ => exact Or.inl hold
      · exact Or.inr (List.mem_cons_of_mem _ hmem)

end Db

/-! ## What a commit does to records and entries -/

/-- A record of `db'` was in `db` with the same type, or is new. -/
structure Grows (new : List Inode) (db db' : Db) : Prop where
  record : ∀ {i iv'}, db'.inode i = some iv' → Change.Origin db i iv' ∨ i ∈ new
  name : ∀ {p n v}, db'.entry p n = some v →
    db.entry p n = some v ∨ v.inode ∈ new ∨ ∃ iv, db.inode v.inode = some iv

/-- The parents' part leaves entries alone and keeps the mode of every record; it rewrites records of
the parents only. -/
structure Folds (ps : List Inode) (db db' : Db) : Prop where
  dirEntries : db'.dirEntries = db.dirEntries
  record : ∀ {i iv'}, db'.inode i = some iv' → ∃ iv, db.inode i = some iv ∧ iv'.mode = iv.mode
  stays : ∀ {i iv}, db.inode i = some iv → ∃ iv', db'.inode i = some iv'
  other : ∀ {i}, i ∉ ps → db'.inode i = db.inode i

namespace Folds

variable {ps : List Inode} {db db' : Db}

theorem of_side {ops : List BatchOp} (h : ∀ op ∈ ops, op.IsSide) : Folds ps db (db.applyBatch ops) := by
  obtain ⟨hi, he⟩ := Db.applyBatch_side db h
  have hin : ∀ i, (db.applyBatch ops).inode i = db.inode i := fun i => by unfold Db.inode; rw [hi]
  exact ⟨he, fun {i iv'} h => ⟨iv', hin i ▸ h, rfl⟩, fun {i iv} h => ⟨iv, (hin i).trans h⟩, fun {i} _ => hin i⟩

theorem entry (h : Folds ps db db') (p : Inode) (n : Name) : db'.entry p n = db.entry p n := by
  unfold Db.entry
  rw [h.dirEntries]

theorem wf {next : Nat} (h : Folds ps db db') (hw : db.Wf next) : db'.Wf next :=
  hw.of_modes h.dirEntries h.record h.stays

end Folds

theorem RecordWrites.folds {ps : List Inode} : ∀ {ops : List BatchOp} {db : Db}, RecordWrites ps db ops →
    Folds ps db (db.applyBatch ops)
  | [], db, _ => .of_side (by simp)
  | .putInode p v :: ops, db, ⟨hp, ⟨iv, hiv, hm⟩, hrest⟩ => by
      have hin : ∀ i, (db.applyOp (.putInode p v)).inode i = if i = p then some v else db.inode i :=
        fun i => Db.inode_applyOp db _ i
      have ih := hrest.folds
      refine ⟨ih.dirEntries, fun {i iv'} hi => ?_, fun {i jv} hi => ?_, fun {i} hi => ?_⟩
      · obtain ⟨old, hold, hm'⟩ := ih.record hi
        rw [hin] at hold
        split at hold
        · rename_i e
          cases hold
          exact ⟨iv, e ▸ hiv, hm'.trans hm⟩
        · exact ⟨old, hold, hm'⟩
      · by_cases e : i = p
        · exact ih.stays ((hin i).trans (if_pos e))
        · exact ih.stays ((hin i).trans ((if_neg e).trans hi))
      · have hne : i ≠ p := fun e => hi (e ▸ hp)
        exact (ih.other hi).trans (by rw [hin, if_neg hne])

theorem RecordWrites.not_putDelta {ps : List Inode} (i : Inode) (q : Nat) (d : DeltaOp) :
    ∀ {ops : List BatchOp} {db : Db}, RecordWrites ps db ops → .putDelta i q d ∉ ops
  | [], _, _ => by simp
  | .putInode p v :: ops, db, h => by
      have ih := RecordWrites.not_putDelta i q d h.2.2
      simpa using ih

theorem ParentPart.folds {cfg : Config} {seqs : List (Inode × Nat × DeltaOp)} {db : Db}
    {dss : List (Inode × List DeltaOp)} {ops : List BatchOp} (h : ParentPart cfg seqs db dss ops) :
    Folds (dss.map Prod.fst) db (db.applyBatch ops) := by
  unfold ParentPart at h
  split at h
  · refine .of_side fun op ho => ?_
    rw [h.1] at ho
    obtain ⟨x, -, rfl⟩ := List.mem_map.1 ho
    trivial
  · exact h.2.folds

namespace Writes

variable {db : Db} {l : Local} {c : Call} {main : List BatchOp} {dss : List (Inode × List DeltaOp)}
  {next : Nat}

/-- A commit is one of the changes of the namespace, or a compaction. -/
theorem change (h : Writes db l c main dss) (hv : l.tx.Valid db next) (hroot : ROOT_INODE ∉ l.files) :
    (∃ fresh, Change db next fresh main ∧ ∀ i, fresh = some i → i ∈ l.tx.allocated) ∨
    ∃ i base ks, c = .forceCompactInode i ∧ db.inode i = some base ∧ l.tx.scanned = some (i, ks) ∧
      ks ≠ [] ∧ dss = [] ∧
      main = .putInode i (foldDeltas base (ks.map (·.2))) :: ks.map fun k => .deleteDelta i k.1 := by
  have hold : ∀ {ops}, Change db next none ops →
      ∃ fresh, Change db next fresh ops ∧ ∀ i, fresh = some i → i ∈ l.tx.allocated :=
    fun h => ⟨none, h, by simp⟩
  cases h with
  | @create c p n i iv extra ds ts hc hnl he hi hx hkind hr =>
      obtain ⟨hnone, hnamed, hlt⟩ := hv.fresh hi
      refine Or.inl ⟨some i, .create he hnone hnamed hlt ?_ fun op ho => (hx op ho).side, ?_⟩
      · rcases hkind with ⟨hd, hl, -⟩ | ⟨hd, hl, -⟩
        · exact Or.inl ⟨hd, hl⟩
        · exact Or.inr ⟨hd, hl⟩
      · intro j e
        cases e
        exact hi
  | link hi hd he hp => exact Or.inl (hold (.link hi hd he hp))
  | unlinkKeep he hd hi => exact Or.inl (hold (.unlinkKeep he hd hi))
  | unlinkDrop he hd hi hz => exact Or.inl (hold (.unlinkDrop he hd hi hz))
  | rmdir he hd hi => exact Or.inl (hold (.rmdir he hd hi))
  | rename he hi hvic => exact Or.inl (hold (.rename he hi hvic))
  | rewrite hc hi ht hl => exact Or.inl (hold (.rewrite hi ht fun _ => hl))
  | @drop i hf => exact Or.inl (hold (.drop fun e => hroot (e ▸ hf)))
  | @compact i base ks hi hs hk => exact Or.inr ⟨i, base, ks, rfl, hi, hs, hk, rfl, rfl⟩

/-- The batch of a compaction is a rewrite followed by operations on deltas. -/
theorem folds_compaction {i : Inode} {base v : InodeValue} {ks : List (Nat × DeltaOp)}
    (hi : db.inode i = some base) (hm : v.mode = base.mode) :
    Folds [i] db (db.applyBatch (.putInode i v :: ks.map fun k => .deleteDelta i k.1)) := by
  have hin := inode_compaction i v ks db
  have hside : ∀ op ∈ ks.map fun k => BatchOp.deleteDelta i k.1, op.IsSide := by
    intro op ho
    obtain ⟨k, -, rfl⟩ := List.mem_map.1 ho
    trivial
  refine ⟨(Db.applyBatch_side (db.applyOp (.putInode i v)) hside).2, fun {j jv} hj => ?_,
    fun {j jv} hj => ?_, fun {j} hj => ?_⟩
  · rw [hin] at hj
    split at hj
    · rename_i e
      cases hj
      exact ⟨base, e ▸ hi, hm⟩
    · exact ⟨jv, hj, rfl⟩
  · by_cases e : j = i
    · exact ⟨v, by rw [hin, if_pos e]⟩
    · exact ⟨jv, by rw [hin, if_neg e, hj]⟩
  · rw [hin, if_neg fun e => hj (List.mem_singleton.2 e)]

theorem wf (h : Writes db l c main dss) (hv : l.tx.Valid db next) (hroot : ROOT_INODE ∉ l.files)
    (hw : db.Wf next) : (db.applyBatch main).Wf next := by
  rcases h.change hv hroot with ⟨fresh, hch, -⟩ | ⟨i, base, ks, -, hi, -, -, -, rfl⟩
  · exact hch.wf hw
  · exact (folds_compaction hi (foldDeltas_mode _ _)).wf hw

/-- How an entry gets under `p`: with a new object, as a further name of a file, or from another place. -/
inductive Enters (db D : Db) (l : Local) (c : Call) (p : Inode) (v : DirValue) : Prop where
  | created {iv : InodeValue} (hadds : c.adds = some p) (hnl : c.isLink = false) (hnew : v.inode ∈ l.tx.allocated)
      (hi : D.inode v.inode = some iv) (hm : v.mode = iv.mode) (hl : isDir iv.mode = true → iv.nlink = 2)
  | linked {iv : InodeValue} (hadds : c.adds = some p) (hp : db.IsDirectory p) (hlock : .inode p ∈ l.tx.locks)
      (hi : db.inode v.inode = some iv) (hd : isDir v.mode = false)
  | moved {q : Inode} {m : Name} {w : DirValue} {iv : InodeValue} (hadds : c.adds = some p) (hnl : c.isLink = false)
      (he : db.entry q m = some w) (hw : w.inode = v.inode) (hi : db.inode v.inode = some iv) (hm : v.mode = iv.mode)

/-- An entry was there before the commit or has got there in one of three ways. -/
theorem entry_cases (h : Writes db l c main dss) {p : Inode} {n : Name} {v : DirValue}
    (he : (db.applyBatch main).entry p n = some v) :
    db.entry p n = some v ∨ Enters db (db.applyBatch main) l c p v := by
  cases h with
  | @create c q m i iv extra ds ts hc hnl hq hi hx hkind hr =>
      have hside : ∀ op ∈ extra, op.IsSide := fun op ho => (hx op ho).side
      rcases Db.entry_some_of_put (Change.dirEntries_create hside) he with ⟨rfl, rfl, rfl⟩ | hold
      · refine Or.inr (.created (Call.parents_of_creates hc).2 hnl hi ?_ rfl fun hd => ?_)
        · rw [Change.inode_create hside, if_pos rfl]
        · rcases hkind with ⟨hfile, -, -⟩ | ⟨-, hlinks, -⟩
          · rw [hfile] at hd
            cases hd
          · exact hlinks
      · exact Or.inl hold
  | @link q m t iv ts ts' hi hd hq hp hlock hr =>
      rcases Db.entry_some_of_put rfl he with ⟨rfl, rfl, rfl⟩ | hold
      · exact Or.inr (.linked rfl hp hlock hi hd)
      · exact Or.inl hold
  | @unlinkKeep q m w iv ts ts' hq hd hi =>
      exact Or.inl (Db.entry_some_of_erase (p := q) (n := m) rfl he).2
  | @unlinkDrop q m w iv ts hq hd hi hz =>
      exact Or.inl (Db.entry_some_of_erase (p := q) (n := m) rfl he).2
  | @rmdir q m w iv ts hq hd hi =>
      exact Or.inl (Db.entry_some_of_erase (p := q) (n := m) rfl he).2
  | @rename q m nq nm w srcIv vic ts hq hi hvic hemp hr =>
      rcases entry_some_renameOps he with ⟨rfl, rfl, rfl⟩ | ⟨-, -, hold⟩
      · exact Or.inr (.moved rfl rfl hq rfl hi rfl)
      · exact Or.inl hold
  | rewrite hc hi ht hl => exact Or.inl he
  | drop hf => exact Or.inl he
  | compact hi hs hk =>
      rw [(folds_compaction hi (foldDeltas_mode _ _)).entry] at he
      exact Or.inl he

/-- A new entry lies under the directory the call adds to, whose record `link` has locked; it names a new
object or one that had a record. -/
theorem new_entry (h : Writes db l c main dss) {p : Inode} {n : Name} {v : DirValue}
    (he : (db.applyBatch main).entry p n = some v) :
    db.entry p n = some v ∨
      ((c.adds = some p ∧ (c.isLink = true → db.IsDirectory p ∧ .inode p ∈ l.tx.locks)) ∧
        (v.inode ∈ l.tx.allocated ∨ ∃ iv, db.inode v.inode = some iv)) := by
  rcases h.entry_cases he with hold | henters
  · exact Or.inl hold
  · cases henters with
    | created hadds hnl hnew =>
        refine Or.inr ⟨⟨hadds, fun hl => ?_⟩, Or.inl hnew⟩
        rw [hnl] at hl
        cases hl
    | linked hadds hp hlock hi => exact Or.inr ⟨⟨hadds, fun _ => ⟨hp, hlock⟩⟩, Or.inr ⟨_, hi⟩⟩
    | moved hadds hnl hq hw hi =>
        refine Or.inr ⟨⟨hadds, fun hl => ?_⟩, Or.inr ⟨_, hi⟩⟩
        rw [hnl] at hl
        cases hl

theorem grows (h : Writes db l c main dss) (hv : l.tx.Valid db next) (hroot : ROOT_INODE ∉ l.files) :
    Grows l.tx.allocated db (db.applyBatch main) := by
  refine ⟨fun {i iv'} hi => ?_, fun he => (h.new_entry he).imp id And.right⟩
  rcases h.change hv hroot with ⟨fresh, hch, hfresh⟩ | ⟨j, base, ks, -, hj, -, -, -, rfl⟩
  · rcases hch.origin hi with ho | hf
    · exact Or.inl ho
    · exact Or.inr (hfresh i hf)
  · obtain ⟨iv, hiv, hm⟩ := (folds_compaction hj (foldDeltas_mode _ _)).record hi
    exact Or.inl ⟨iv, hiv, by rw [hm]⟩

/-- Deltas are for the parents of the call. -/
theorem parents (h : Writes db l c main dss) : ∀ d ∈ dss, d.1 ∈ c.parents := by
  cases h with
  | create hc => simp [(Call.parents_of_creates hc).1]
  | rename =>
      intro d hd
      exact renameDeltas_fst d hd
  | _ => simp [Call.parents, Call.folds]

theorem not_putDelta (h : Writes db l c main dss) {i : Inode} {q : Nat} {d : DeltaOp} :
    .putDelta i q d ∉ main := by
  cases h with
  | create hc hnl he hi hx => exact fun hm => BatchOp.not_isDelta_creation hx _ hm trivial
  | rename => exact fun hm => not_isDelta_renameOps _ hm trivial
  | _ => simp

end Writes

namespace Committing

variable {cfg : Config} {c : Call} {l : Local} {db : Db} {next : Nat}

theorem wf (h : Committing cfg c l db) (hv : l.tx.Valid db next) (hroot : ROOT_INODE ∉ l.files)
    (hw : db.Wf next) : (db.applyBatch l.tx.batch).Wf next := by
  obtain ⟨main, dss, rest, hb, hm, hp⟩ := h
  rw [hb, Db.applyBatch_append]
  exact hp.folds.wf (hm.wf hv hroot hw)

theorem grows (h : Committing cfg c l db) (hv : l.tx.Valid db next) (hroot : ROOT_INODE ∉ l.files) :
    Grows l.tx.allocated db (db.applyBatch l.tx.batch) := by
  obtain ⟨main, dss, rest, hb, hm, hp⟩ := h
  have hg := hm.grows hv hroot
  rw [hb, Db.applyBatch_append]
  refine ⟨fun {i iv'} hi => ?_, fun {p n v} he => hg.name (hp.folds.entry p n ▸ he)⟩
  obtain ⟨iv, hiv, hmode⟩ := hp.folds.record hi
  rcases hg.record hiv with ⟨old, hold, ht⟩ | hnew
  · exact Or.inl ⟨old, hold, by rw [hmode, ht]⟩
  · exact Or.inr hnew

theorem putDelta_parent (h : Committing cfg c l db) {i : Inode} {q : Nat} {d : DeltaOp}
    (hm : .putDelta i q d ∈ l.tx.batch) : i ∈ c.parents := by
  obtain ⟨main, dss, rest, hb, hw, hp⟩ := h
  rw [hb] at hm
  rcases List.mem_append.1 hm with hm | hm
  · exact absurd hm hw.not_putDelta
  · unfold ParentPart at hp
    split at hp
    · rw [hp.1] at hm
      obtain ⟨x, hx, e⟩ := List.mem_map.1 hm
      cases e
      have hflat : (x.1, x.2.2) ∈ flatDeltas dss := by
        rw [← hp.2]
        exact List.mem_map_of_mem (f := fun x : Inode × Nat × DeltaOp => (x.1, x.2.2)) hx
      obtain ⟨ds, hds, hmem⟩ := List.mem_flatMap.1 hflat
      obtain ⟨d', -, e⟩ := List.mem_map.1 hmem
      have hfst : ds.1 = x.1 := congrArg Prod.fst e
      exact hfst ▸ hw.parents ds hds
    · exact absurd hm (hp.2.not_putDelta i q d)

end Committing

/-! ## The invariant -/

/-- A transaction holds the lock of every row it has read or will write. -/
structure Txn.Covered (tx : Txn) : Prop where
  entry : ∀ {p n o}, (p, n, o) ∈ tx.dirReads → .dirEntry p n ∈ tx.locks
  inode : ∀ {i o}, (i, o) ∈ tx.inodeReads → .inode i ∈ tx.locks
  batch : ∀ {op}, op ∈ tx.batch → op.row ∈ tx.locks

/-- No row is locked twice. -/
def LocksApart (a b : FsThread) : Prop := ∀ r ∈ a.loc.tx.locks, r ∉ b.loc.tx.locks

/-- No number is given out twice. -/
def NumbersApart (a b : FsThread) : Prop := ∀ i ∈ a.loc.tx.allocated, i ∉ b.loc.tx.allocated

structure Isolated (c : FsConf) : Prop where
  wf : c.shared.db.Wf c.shared.next
  valid : Pool (fun th => th.loc.tx.Valid c.shared.db c.shared.next) c.threads
  covered : Pool (fun th => th.loc.tx.Covered) c.threads
  locks : Apart LocksApart c.threads
  numbers : Apart NumbersApart c.threads
  files : Pool (fun th => ROOT_INODE ∉ th.loc.files) c.threads
  pending : c.shared.pendingDeletes ROOT_INODE = false

theorem LocksApart.symm {a b : FsThread} (h : LocksApart a b) : LocksApart b a :=
  fun r hr ha => h r ha hr

theorem NumbersApart.symm {a b : FsThread} (h : NumbersApart a b) : NumbersApart b a :=
  fun i hi ha => h i ha hi

theorem Txn.Valid.empty {db : Db} {next : Nat} : Txn.Valid {} db next :=
  ⟨by simp, by simp, by simp⟩

/-- Validity speaks of records, entries and the counter. -/
theorem Txn.Valid.congr {tx : Txn} {db db' : Db} {next : Nat} (h : tx.Valid db next)
    (hi : db'.inodes = db.inodes) (he : db'.dirEntries = db.dirEntries) : tx.Valid db' next := by
  have hin : ∀ i, db'.inode i = db.inode i := fun i => by unfold Db.inode; rw [hi]
  have hen : ∀ p n, db'.entry p n = db.entry p n := fun p n => by unfold Db.entry; rw [he]
  refine ⟨fun hm => (hen _ _).trans (h.entry hm), fun hm => (hin _).trans (h.inode hm), fun hm => ?_⟩
  obtain ⟨hnone, hname, hlt⟩ := h.fresh hm
  exact ⟨(hin _).trans hnone, fun p n v hv => hname p n v (hen p n ▸ hv), hlt⟩

theorem Txn.Covered.empty : Txn.Covered {} :=
  ⟨by simp, by simp, by simp⟩

namespace Isolated

variable {cfg : Config} {strict : Prop} {c : FsConf} {n : Nat} {call : Call} {e : Eff}
  {k : e.Res → Prog Eff Eff.Res Reply} {r : e.Res} {l l' : Local} {s' : Server}

/-- Thread `n` moves on; the others keep what they know. -/
theorem set (h : Isolated c) {th : FsThread} (hwf : s'.db.Wf s'.next)
    (hvalid : th.loc.tx.Valid s'.db s'.next) (hcov : th.loc.tx.Covered)
    (hothers : ∀ m u, m ≠ n → c.threads[m]? = some u → u.loc.tx.Valid s'.db s'.next)
    (hlocks : ∀ m u, m ≠ n → c.threads[m]? = some u → LocksApart th u)
    (hnumbers : ∀ m u, m ≠ n → c.threads[m]? = some u → NumbersApart th u)
    (hfiles : ROOT_INODE ∉ th.loc.files) (hpending : s'.pendingDeletes ROOT_INODE = false) :
    Isolated ⟨s', c.threads.set n th⟩ where
  wf := hwf
  valid := h.valid.set hvalid fun m u hm hu _ => hothers m u hm hu
  covered := h.covered.set hcov fun _ _ _ _ hu => hu
  locks := h.locks.set LocksApart.symm hlocks
  numbers := h.numbers.set NumbersApart.symm hnumbers
  files := h.files.set hfiles fun _ _ _ _ hu => hu
  pending := hpending

section

variable (h : Isolated c) (hn : c.threads[n]? = some ⟨call, .call e k, l⟩)

include h hn

/-- An effect that takes no lock and no number, reads no row and leaves records, entries and counter. -/
theorem quiet {th : FsThread} (hreads : th.loc.tx.dirReads = l.tx.dirReads ∧ th.loc.tx.inodeReads = l.tx.inodeReads)
    (hheld : th.loc.tx.locks = l.tx.locks ∧ th.loc.tx.batch = l.tx.batch ∧
      th.loc.tx.allocated = l.tx.allocated)
    (hfiles : ROOT_INODE ∉ th.loc.files) (hi : s'.db.inodes = c.shared.db.inodes)
    (he : s'.db.dirEntries = c.shared.db.dirEntries) (hnext : s'.next = c.shared.next)
    (hpending : s'.pendingDeletes ROOT_INODE = false) : Isolated ⟨s', c.threads.set n th⟩ := by
  have hv := h.valid n _ hn
  have hc := h.covered n _ hn
  obtain ⟨hdr, hir⟩ := hreads
  obtain ⟨hl, hb, ha⟩ := hheld
  refine h.set ?_ ?_ ?_ (fun m u hm hu => ?_) (fun m u hm hu => ?_) (fun m u hm hu => ?_) hfiles hpending
  · rw [hnext]
    exact h.wf.congr hi he
  · rw [hnext]
    refine Txn.Valid.congr ⟨fun hm => hv.entry (hdr ▸ hm), fun hm => hv.inode (hir ▸ hm),
      fun hm => hv.fresh (ha ▸ hm)⟩ hi he
  · refine ⟨fun hm => ?_, fun hm => ?_, fun hm => ?_⟩
    · rw [hl]
      exact hc.entry (hdr ▸ hm)
    · rw [hl]
      exact hc.inode (hir ▸ hm)
    · rw [hl]
      exact hc.batch (hb ▸ hm)
  · rw [hnext]
    exact (h.valid m u hu).congr hi he
  · intro row hrow
    rw [hl] at hrow
    exact h.locks n m _ u hm.symm hn hu row hrow
  · intro i hi
    rw [ha] at hi
    exact h.numbers n m _ u hm.symm hn hu i hi

/-- A transaction begins or is dropped. -/
theorem reset {tx : Txn} (hreads : tx.dirReads = [] ∧ tx.inodeReads = [])
    (hheld : tx.locks = [] ∧ tx.batch = [] ∧ tx.allocated = []) :
    Isolated ⟨c.shared, c.threads.set n ⟨call, k r, ⟨tx, l.files⟩⟩⟩ := by
  have hroot := h.files n _ hn
  obtain ⟨hdr, hir⟩ := hreads
  obtain ⟨hl, hb, ha⟩ := hheld
  refine h.set h.wf ⟨?_, ?_, ?_⟩ ⟨?_, ?_, ?_⟩ (fun m u _ hu => h.valid m u hu) (fun m u _ _ => ?_)
    (fun m u _ _ => ?_) hroot h.pending
  · simp [hdr]
  · simp [hir]
  · simp [ha]
  · simp [hdr]
  · simp [hir]
  · simp [hb]
  · simp [LocksApart, hl]
  · simp [NumbersApart, ha]

/-- The transaction takes the lock of a row nobody else has locked. -/
theorem lock {tx : Txn} {fs : List Inode} {row : Row} (hlocks : tx.locks = row :: l.tx.locks)
    (hfree : ∀ m u, m ≠ n → c.threads[m]? = some u → row ∉ u.loc.tx.locks)
    (halloc : tx.allocated = l.tx.allocated) (hvalid : tx.Valid c.shared.db c.shared.next)
    (hcov : tx.Covered) (hfiles : ROOT_INODE ∉ fs) :
    Isolated ⟨c.shared, c.threads.set n ⟨call, k r, ⟨tx, fs⟩⟩⟩ := by
  refine h.set h.wf hvalid hcov (fun m u _ hu => h.valid m u hu) (fun m u hm hu row' hr => ?_)
    (fun m u hm hu i hi => ?_) hfiles h.pending
  · have hr' : row' ∈ tx.locks := hr
    rw [hlocks] at hr'
    rcases List.mem_cons.1 hr' with rfl | hr'
    · exact hfree m u hm hu
    · exact h.locks n m _ u hm.symm hn hu row' hr'
  · have hi' : i ∈ tx.allocated := hi
    rw [halloc] at hi'
    exact h.numbers n m _ u hm.symm hn hu i hi'

/-- A commit leaves the rows that others have locked and the numbers they have taken. -/
theorem commit (hcommit : Committing cfg call l c.shared.db) :
    Isolated ⟨{ c.shared with db := c.shared.db.applyBatch l.tx.batch },
      c.threads.set n ⟨call, k r, ⟨{ retired := l.tx.retiring }, l.files⟩⟩⟩ := by
  have hv := h.valid n _ hn
  have hroot := h.files n _ hn
  have hc := h.covered n _ hn
  have hg := hcommit.grows hv hroot
  refine h.set (hcommit.wf hv hroot h.wf) ⟨by simp, by simp, by simp⟩ ⟨by simp, by simp, by simp⟩
    (fun m u hm hu => ?_) (fun m u _ _ => by simp [LocksApart]) (fun m u _ _ => by simp [NumbersApart])
    hroot h.pending
  have hu' := h.valid m u hu
  have hcu := h.covered m u hu
  have hlock := h.locks n m _ u hm.symm hn hu
  have hnum := h.numbers n m _ u hm.symm hn hu
  refine ⟨fun hr => ?_, fun hr => ?_, fun hi => ?_⟩
  · rw [Db.entry_applyBatch_of_row fun op ho e => hlock _ (hc.batch ho) (e ▸ hcu.entry hr)]
    exact hu'.entry hr
  · rw [Db.inode_applyBatch_of_row fun op ho e => hlock _ (hc.batch ho) (e ▸ hcu.inode hr)]
    exact hu'.inode hr
  · obtain ⟨hnone, hname, hlt⟩ := hu'.fresh hi
    refine ⟨?_, fun p m v he e => ?_, hlt⟩
    · cases hi' : (c.shared.db.applyBatch l.tx.batch).inode _ with
      | none => rfl
      | some iv =>
          rcases hg.record hi' with ⟨old, hold, -⟩ | hmem
          · rw [hnone] at hold
            cases hold
          · exact absurd hi (hnum _ hmem)
    · rcases hg.name he with hold | hmem | ⟨iv, hiv⟩
      · exact hname p m v hold e
      · exact hnum _ hmem (e ▸ hi)
      · rw [e, hnone] at hiv
        cases hiv

/-- The next number goes to one transaction. -/
theorem alloc : Isolated ⟨{ c.shared with next := c.shared.next + 1 },
    c.threads.set n ⟨call, k r, ⟨{ l.tx with allocated := c.shared.next :: l.tx.allocated }, l.files⟩⟩⟩ := by
  have hv := h.valid n _ hn
  have hc := h.covered n _ hn
  have hroot := h.files n _ hn
  have hlocks := fun m u (hm : m ≠ n) hu => h.locks n m _ u hm.symm hn hu
  obtain ⟨hfresh, hunnamed⟩ := Effect.fresh_next h.wf
  have hgrow : ∀ {tx : Txn}, tx.Valid c.shared.db c.shared.next → tx.Valid c.shared.db (c.shared.next + 1) :=
    fun htx => ⟨htx.entry, htx.inode, fun hi => by
      obtain ⟨h₁, h₂, h₃⟩ := htx.fresh hi
      exact ⟨h₁, h₂, Nat.lt_succ_of_lt h₃⟩⟩
  refine h.set (h.wf.mono (Nat.le_succ _)) ⟨hv.entry, hv.inode, fun {i} hi => ?_⟩
    ⟨hc.entry, hc.inode, hc.batch⟩ (fun m u _ hu => hgrow (h.valid m u hu))
    hlocks (fun m u hm hu i hi hmem => ?_) hroot h.pending
  · rcases List.mem_cons.1 hi with rfl | hi
    · exact ⟨hfresh, hunnamed, Nat.lt_succ_self _⟩
    · exact (hgrow hv).fresh hi
  · rcases List.mem_cons.1 hi with rfl | hi
    · exact absurd ((h.valid m u hu).fresh hmem).2.2 (Nat.lt_irrefl _)
    · exact h.numbers n m _ u hm.symm hn hu i hi hmem

end

/-- The root is never taken for a file. -/
theorem root_not_remembered (h : Isolated c) {fs : List Inode} (hfs : ROOT_INODE ∉ fs) (e : Eff) :
    ROOT_INODE ∉ e.remember c.shared fs := by
  unfold Eff.remember
  split
  · rename_i i
    split
    · rename_i iv hi
      split
      · exact hfs
      · rename_i hd
        intro hm
        rcases List.mem_cons.1 hm with rfl | hm
        · obtain ⟨riv, hriv, hrd⟩ := h.wf.root
          rw [hi] at hriv
          cases hriv
          exact hd hrd
        · exact hfs hm
    · exact hfs
  · rename_i i
    split
    · rename_i hc
      intro hm
      rcases List.mem_cons.1 hm with rfl | hm
      · have hp := (checkAndClear_true c.shared hc).1
        rw [h.pending] at hp
        cases hp
      · exact hfs hm
    · exact hfs
  · exact hfs

/-- **One effect of one call keeps the invariant.** -/
theorem act (h : Isolated c) (hn : c.threads[n]? = some ⟨call, .call e k, l⟩)
    (hpre : (contract cfg strict call).pre e l)
    (ha : Acts cfg (c.threads.eraseIdx n) e l c.shared r l' s') :
    Isolated ⟨s', c.threads.set n ⟨call, k r, l'⟩⟩ := by
  have hroot := h.files n _ hn
  have hv := h.valid n _ hn
  have hc := h.covered n _ hn
  cases ha with
  | failed hf =>
      cases e with
      | commit => exact h.reset hn ⟨rfl, rfl⟩ ⟨rfl, rfl, rfl⟩
      | _ => exact h.quiet hn ⟨rfl, rfl⟩ ⟨rfl, rfl, rfl⟩ hroot rfl rfl rfl h.pending
  | done hb =>
      have hrem := h.root_not_remembered hroot e
      have hfree : ∀ row, e.needs = some row → ∀ m u, m ≠ n → c.threads[m]? = some u →
          row ∉ u.loc.tx.locks := by
        intro row hrow m u hm hu
        have hany := hb
        unfold blocked at hany
        rw [hrow] at hany
        have hall := List.any_eq_false.1 hany u (mem_eraseIdx_of_getElem? hm hu)
        simpa using hall
      cases e with
      | beginWrite => exact h.reset hn ⟨rfl, rfl⟩ ⟨rfl, rfl, rfl⟩
      | dropBatch => exact h.reset hn ⟨rfl, rfl⟩ ⟨rfl, rfl, rfl⟩
      | getForUpdateDirEntry p m =>
          refine h.lock hn rfl (hfree _ rfl) rfl ⟨fun hm => ?_, hv.inode, hv.fresh⟩
            ⟨fun hm => ?_, fun hm => List.mem_cons_of_mem _ (hc.inode hm),
              fun hm => List.mem_cons_of_mem _ (hc.batch hm)⟩ hrem
          · rcases List.mem_cons.1 hm with e | hm
            · cases e
              rfl
            · exact hv.entry hm
          · rcases List.mem_cons.1 hm with e | hm
            · cases e
              exact List.mem_cons_self
            · exact List.mem_cons_of_mem _ (hc.entry hm)
      | getForUpdateInode i =>
          refine h.lock hn rfl (hfree _ rfl) rfl ⟨hv.entry, fun hm => ?_, hv.fresh⟩
            ⟨fun hm => List.mem_cons_of_mem _ (hc.entry hm), fun hm => ?_,
              fun hm => List.mem_cons_of_mem _ (hc.batch hm)⟩ hrem
          · rcases List.mem_cons.1 hm with e | hm
            · cases e
              rfl
            · exact hv.inode hm
          · rcases List.mem_cons.1 hm with e | hm
            · cases e
              exact List.mem_cons_self
            · exact List.mem_cons_of_mem _ (hc.inode hm)
      | push op =>
          refine h.lock hn rfl (hfree _ rfl) rfl ⟨hv.entry, hv.inode, hv.fresh⟩
            ⟨fun hm => List.mem_cons_of_mem _ (hc.entry hm), fun hm => List.mem_cons_of_mem _ (hc.inode hm),
              fun hm => ?_⟩ hrem
          rcases List.mem_append.1 hm with hm | hm
          · exact List.mem_cons_of_mem _ (hc.batch hm)
          · rw [List.mem_singleton.1 hm]
            exact List.mem_cons_self
      | commit => exact h.commit hn (hpre _ _ hv h.wf)
      | alloc => exact h.alloc hn
      | checkAndClearDeferredDelete i =>
          refine h.quiet hn ⟨rfl, rfl⟩ ⟨rfl, rfl, rfl⟩ hrem ?_ ?_ (checkAndClear_next _) ?_
          · show (c.shared.checkAndClearDeferredDelete i).2.db.inodes = _
            rw [checkAndClear_db]
          · show (c.shared.checkAndClearDeferredDelete i).2.db.dirEntries = _
            rw [checkAndClear_db]
          · cases hp : (c.shared.checkAndClearDeferredDelete i).2.pendingDeletes ROOT_INODE with
            | false => exact hp
            | true => exact absurd (checkAndClear_pending c.shared hp) (by simp [h.pending])
      | pendingInsert i =>
          refine h.quiet hn ⟨rfl, rfl⟩ ⟨rfl, rfl, rfl⟩ hrem rfl rfl rfl ?_
          have hne : ROOT_INODE ≠ i := fun e => hroot (e ▸ hpre)
          show Function.update c.shared.pendingDeletes i true ROOT_INODE = false
          rw [Function.update_of_ne hne]
          exact h.pending
      | _ => exact h.quiet hn ⟨rfl, rfl⟩ ⟨rfl, rfl, rfl⟩ hrem rfl rfl rfl h.pending

theorem start (h : Isolated c) {call : Call} {admits : Server → Call → Prop} :
    Isolated ⟨c.shared, c.threads ++ [(fsSystem cfg admits).spawn call]⟩ where
  wf := h.wf
  valid := h.valid.append .empty
  covered := h.covered.append .empty
  locks := h.locks.append LocksApart.symm fun _ _ _ r hr => by cases hr
  numbers := h.numbers.append NumbersApart.symm fun _ _ _ i hi => by cases hi
  files := h.files.append (by simp [System.spawn, fsSystem])
  pending := h.pending

theorem of_server {s : Server} (hw : s.Wf) : Isolated ⟨s, []⟩ where
  wf := hw.db
  valid := fun m u hu => by simp at hu
  covered := fun m u hu => by simp at hu
  locks := fun m k u v _ hu => by simp at hu
  numbers := fun m k u v _ hu => by simp at hu
  files := fun m u hu => by simp at hu
  pending := hw.root

end Isolated

/-! ## Runs -/

section

variable {cfg : Config} {admits : Server → Call → Prop} {Hyp : FsConf → Prop} {c₀ c : FsConf}

/-- **Invariants of interleaved calls.**  To hold in every state of every run, a property has to be
kept by one effect at a time, of a call that meets its contract, next to isolated transactions. -/
theorem isolated_invariant (strict : Prop) (X : FsConf → Prop)
    (hstrict : strict → ∀ c, Hyp c → ∀ th ∈ c.threads, th.tag.DistinctRead th.loc.tx)
    (hnone : c₀.threads = []) (hw : c₀.shared.Wf) (hinit : Hyp c₀ → X c₀)
    (hstart : ∀ {c : FsConf} {call : Call}, Hyp c → Isolated c → X c → admits c.shared call →
      X ⟨c.shared, c.threads ++ [(fsSystem cfg admits).spawn call]⟩)
    (hact : ∀ {c : FsConf} {n : Nat} {call : Call} {e : Eff} {k : e.Res → Prog Eff Eff.Res Reply}
      {l l' : Local} {r : e.Res} {s' : Server}, Hyp c → Isolated c → X c →
      c.threads[n]? = some ⟨call, .call e k, l⟩ → (contract cfg strict call).pre e l →
      Acts cfg (c.threads.eraseIdx n) e l c.shared r l' s' → Hyp ⟨s', c.threads.set n ⟨call, k r, l'⟩⟩ →
      X ⟨s', c.threads.set n ⟨call, k r, l'⟩⟩)
    (h : Reach (fsSystem cfg admits) Hyp c₀ c) :
    (X c ∧ Isolated c) ∧
      ∀ th ∈ c.threads, wp (contract cfg strict th.tag) th.prog (fun _ l => l.Idle) th.loc := by
  refine Reach.invariant (contract cfg strict) (fun _ _ l => l.Idle) (fun c => X c ∧ Isolated c) hnone
    (fun hH => ⟨hinit hH, ?_⟩) (fun call => call.meets_contract cfg strict)
    (fun hH hX hadm => ⟨hstart hH hX.2 hX.1 hadm, hX.2.start⟩) ?_ h
  · have hc : c₀ = ⟨c₀.shared, []⟩ := by rw [← hnone]
    rw [hc]
    exact .of_server hw
  · intro c n call e k l l' r s' hH hX hn hpre ha hH'
    refine ⟨⟨hact hH hX.2 hX.1 hn hpre ha hH', hX.2.act hn hpre ha⟩, ?_, fun hs => ?_⟩
    · cases ha with
      | done hb => exact .done c.shared (hX.2.valid n _ hn) hX.2.wf
      | failed hf => exact .failed hf
    · have hlt : n < c.threads.length := (List.getElem?_eq_some_iff.1 hn).1
      exact hstrict hs _ hH' ⟨call, k r, l'⟩ (List.mem_set hlt _)

end

/-! ## What one effect changes -/

namespace Acts

variable {cfg : Config} {os : List FsThread} {e : Eff} {l l' : Local} {s s' : Server} {r : e.Res}

/-- What one effect does to the tables, and to what a transaction has read, taken and retired: there are a commit,
`clear_deltas` and `next_seq`; all other effects leave the tables alone, and the transaction goes on or ends. -/
theorem table_cases (h : Acts cfg os e l s r l' s') :
    (e = .commit ∧ s' = { s with db := s.db.applyBatch l.tx.batch } ∧
      l' = ⟨{ retired := l.tx.retiring }, l.files⟩) ∨
    (∃ j, e = .clearDeltas j ∧ s' = s.clearDeltas j ∧ l' = l) ∨
    (∃ p δ, e = .nextSeq p δ ∧ s' = { s with seqs := Function.update s.seqs p (s.seqs p + 1) } ∧
      l' = { l with tx := { l.tx with seqs := l.tx.seqs ++ [(p, s.seqs p, δ)] } }) ∨
    ((s'.db.inodes = s.db.inodes ∧ s'.db.dirEntries = s.db.dirEntries ∧ s'.db.deltaEntries = s.db.deltaEntries ∧
        s'.seqs = s.seqs) ∧
      (∀ i ∈ l'.tx.retired, i ∈ l.tx.retired) ∧
      (l'.tx.seqs = [] ∨ l'.tx.seqs = l.tx.seqs ∧ ∀ x ∈ l.tx.dirReads, x ∈ l'.tx.dirReads)) := by
  have hquiet : ∀ {s' : Server} {l' : Local}, s'.db.inodes = s.db.inodes → s'.db.dirEntries = s.db.dirEntries →
      s'.db.deltaEntries = s.db.deltaEntries → s'.seqs = s.seqs → l'.tx.retired = l.tx.retired →
      l'.tx.seqs = l.tx.seqs → l'.tx.dirReads = l.tx.dirReads →
      (s'.db.inodes = s.db.inodes ∧ s'.db.dirEntries = s.db.dirEntries ∧ s'.db.deltaEntries = s.db.deltaEntries ∧
        s'.seqs = s.seqs) ∧
      (∀ i ∈ l'.tx.retired, i ∈ l.tx.retired) ∧
      (l'.tx.seqs = [] ∨ l'.tx.seqs = l.tx.seqs ∧ ∀ x ∈ l.tx.dirReads, x ∈ l'.tx.dirReads) := by
    intro s' l' hi he hd hq hr hs hreads
    exact ⟨⟨hi, he, hd, hq⟩, fun i hi => hr ▸ hi, Or.inr ⟨hs, fun x hx => hreads ▸ hx⟩⟩
  have hempty : ∀ {l' : Local}, l'.tx.retired = [] → l'.tx.seqs = [] →
      (∀ i ∈ l'.tx.retired, i ∈ l.tx.retired) ∧
      (l'.tx.seqs = [] ∨ l'.tx.seqs = l.tx.seqs ∧ ∀ x ∈ l.tx.dirReads, x ∈ l'.tx.dirReads) := by
    intro l' hr hs
    refine ⟨fun i hi => ?_, Or.inl hs⟩
    rw [hr] at hi
    cases hi
  cases h with
  | failed hf =>
      cases e with
      | commit => exact Or.inr (Or.inr (Or.inr ⟨⟨rfl, rfl, rfl, rfl⟩, hempty rfl rfl⟩))
      | _ => exact Or.inr (Or.inr (Or.inr (hquiet rfl rfl rfl rfl rfl rfl rfl)))
  | done hb =>
      cases e with
      | commit => exact Or.inl ⟨rfl, rfl, rfl⟩
      | clearDeltas j => exact Or.inr (Or.inl ⟨j, rfl, rfl, rfl⟩)
      | nextSeq p δ => exact Or.inr (Or.inr (Or.inl ⟨p, δ, rfl, rfl, rfl⟩))
      | beginWrite => exact Or.inr (Or.inr (Or.inr ⟨⟨rfl, rfl, rfl, rfl⟩, hempty rfl rfl⟩))
      | dropBatch => exact Or.inr (Or.inr (Or.inr ⟨⟨rfl, rfl, rfl, rfl⟩, hempty rfl rfl⟩))
      | getForUpdateDirEntry p n =>
          exact Or.inr (Or.inr (Or.inr ⟨⟨rfl, rfl, rfl, rfl⟩, fun i hi => hi,
            Or.inr ⟨rfl, fun x hx => List.mem_cons_of_mem _ hx⟩⟩))
      | checkAndClearDeferredDelete i =>
          have hdb : (s.checkAndClearDeferredDelete i).2.db = s.db := s.checkAndClear_db
          exact Or.inr (Or.inr (Or.inr (hquiet (congrArg Db.inodes hdb) (congrArg Db.dirEntries hdb)
            (congrArg Db.deltaEntries hdb) (checkAndClear_seqs s) rfl rfl rfl)))
      | _ => exact Or.inr (Or.inr (Or.inr (hquiet rfl rfl rfl rfl rfl rfl rfl)))

/-- Records and entries change in a commit only. -/
theorem db_cases (h : Acts cfg os e l s r l' s') :
    (e = .commit ∧ s' = { s with db := s.db.applyBatch l.tx.batch } ∧
      l' = ⟨{ retired := l.tx.retiring }, l.files⟩) ∨
    (s'.db.inodes = s.db.inodes ∧ s'.db.dirEntries = s.db.dirEntries) := by
  rcases h.table_cases with hcommit | ⟨j, -, rfl, -⟩ | ⟨p, δ, -, rfl, -⟩ | ⟨⟨hin, hen, -⟩, -⟩
  · exact Or.inl hcommit
  · exact Or.inr ⟨rfl, rfl⟩
  · exact Or.inr ⟨rfl, rfl⟩
  · exact Or.inr ⟨hin, hen⟩

/-- Deltas change in a commit and by `clear_deltas`. -/
theorem deltas_cases (h : Acts cfg os e l s r l' s') :
    (e = .commit ∧ s' = { s with db := s.db.applyBatch l.tx.batch } ∧
      l' = ⟨{ retired := l.tx.retiring }, l.files⟩) ∨
    (∃ i, e = .clearDeltas i ∧ s' = s.clearDeltas i ∧ l' = l) ∨
    s'.db.deltaEntries = s.db.deltaEntries := by
  rcases h.table_cases with hcommit | hclear | ⟨p, δ, -, rfl, -⟩ | ⟨⟨-, -, hde, -⟩, -⟩
  · exact Or.inl hcommit
  · exact Or.inr (Or.inl hclear)
  · exact Or.inr (Or.inr rfl)
  · exact Or.inr (Or.inr hde)

/-- Numbers come from the allocator. -/
theorem allocated (h : Acts cfg os e l s r l' s') {i : Inode} (hi : i ∈ l'.tx.allocated) :
    i ∈ l.tx.allocated ∨ i = s.next := by
  cases h with
  | failed hf =>
      cases e with
      | commit => cases hi
      | _ => exact Or.inl hi
  | done hb =>
      cases e with
      | alloc =>
          rcases List.mem_cons.1 hi with rfl | hi
          · exact Or.inr rfl
          · exact Or.inl hi
      | beginWrite => cases hi
      | dropBatch => cases hi
      | commit => cases hi
      | _ => exact Or.inl hi

theorem next_le (h : Acts cfg os e l s r l' s') : s.next ≤ s'.next := by
  cases h with
  | failed hf => exact Nat.le_refl _
  | done hb =>
      cases e with
      | alloc => exact Nat.le_succ _
      | checkAndClearDeferredDelete i => exact Nat.le_of_eq (checkAndClear_next s).symm
      | _ => exact Nat.le_refl _

/-- What a call knows about files is remembered. -/
theorem files (h : Acts cfg os e l s r l' s') {i : Inode} (hi : i ∈ l'.files) :
    i ∈ l.files ∨ (∃ iv, s.db.inode i = some iv ∧ isDir iv.mode = false) ∨ s.pendingDeletes i = true := by
  cases h with
  | failed hf =>
      cases e with
      | _ => exact Or.inl hi
  | done hb =>
      have hi : i ∈ e.remember s l.files := hi
      unfold Eff.remember at hi
      split at hi
      · split at hi
        · rename_i iv hiv
          split at hi
          · exact Or.inl hi
          · rename_i hd
            rcases List.mem_cons.1 hi with rfl | hi
            · exact Or.inr (Or.inl ⟨iv, hiv, by simpa using hd⟩)
            · exact Or.inl hi
        · exact Or.inl hi
      · split at hi
        · rename_i hc
          rcases List.mem_cons.1 hi with rfl | hi
          · exact Or.inr (Or.inr (checkAndClear_true s hc).1)
          · exact Or.inl hi
        · exact Or.inl hi
      · exact Or.inl hi

theorem pending (h : Acts cfg os e l s r l' s') {i : Inode} (hi : s'.pendingDeletes i = true) :
    s.pendingDeletes i = true ∨ e = .pendingInsert i := by
  cases h with
  | failed hf => exact Or.inl hi
  | done hb =>
      cases e with
      | checkAndClearDeferredDelete j => exact Or.inl (checkAndClear_pending s hi)
      | pendingInsert j =>
          have hi : Function.update s.pendingDeletes j true i = true := hi
          by_cases e : i = j
          · exact Or.inr (e ▸ rfl)
          · rw [Function.update_of_ne e] at hi
            exact Or.inl hi
      | _ => exact Or.inl hi

theorem scanned (h : Acts cfg os e l s r l' s') {i : Inode} {ks : List (Nat × DeltaOp)}
    (hi : l'.tx.scanned = some (i, ks)) :
    l.tx.scanned = some (i, ks) ∨ e = .scanDeltasWithKeys i ∧ ks = s.db.scanDeltas i := by
  cases h with
  | failed hf =>
      cases e with
      | commit => cases hi
      | _ => exact Or.inl hi
  | done hb =>
      cases e with
      | scanDeltasWithKeys j =>
          cases hi
          exact Or.inr ⟨rfl, rfl⟩
      | dropBatch => cases hi
      | commit => cases hi
      | _ => exact Or.inl hi

end Acts

/-! ## Types are for life -/

/-- A number that no committed object has had. -/
def Unborn (c : FsConf) (i : Inode) : Prop :=
  c.shared.next ≤ i ∨ ∃ th ∈ c.threads, i ∈ th.loc.tx.allocated

/-- Objects are born but once and keep their type. -/
structure Evolves (c c' : FsConf) : Prop where
  unborn : ∀ {i}, Unborn c' i → Unborn c i
  record : ∀ {i iv'}, c'.shared.db.inode i = some iv' → Change.Origin c.shared.db i iv' ∨ Unborn c i

namespace Isolated

variable {cfg : Config} {strict : Prop} {c : FsConf} {n : Nat} {call : Call} {e : Eff}
  {k : e.Res → Prog Eff Eff.Res Reply} {r : e.Res} {l l' : Local} {s' : Server}

theorem evolves (h : Isolated c) (hn : c.threads[n]? = some ⟨call, .call e k, l⟩)
    (hpre : (contract cfg strict call).pre e l)
    (ha : Acts cfg (c.threads.eraseIdx n) e l c.shared r l' s') :
    Evolves c ⟨s', c.threads.set n ⟨call, k r, l'⟩⟩ := by
  refine ⟨fun {i} hi => ?_, fun {i iv'} hi => ?_⟩
  · rcases hi with hle | ⟨th, hth, hi⟩
    · exact Or.inl (Nat.le_trans ha.next_le hle)
    · rcases List.mem_or_eq_of_mem_set hth with hth | rfl
      · exact Or.inr ⟨th, hth, hi⟩
      · rcases ha.allocated hi with hi | rfl
        · exact Or.inr ⟨_, List.mem_of_getElem? hn, hi⟩
        · exact Or.inl (Nat.le_refl _)
  · rcases ha.db_cases with ⟨rfl, rfl, rfl⟩ | ⟨hin, -⟩
    · have hv := h.valid n _ hn
      have hcommit : Committing cfg call l c.shared.db := hpre _ _ hv h.wf
      rcases (hcommit.grows hv (h.files n _ hn)).record hi with ho | hmem
      · exact Or.inl ho
      · exact Or.inr (Or.inr ⟨_, List.mem_of_getElem? hn, hmem⟩)
    · refine Or.inl ⟨iv', ?_, rfl⟩
      unfold Db.inode at hi ⊢
      rw [← hin]
      exact hi

theorem evolves_start {admits : Server → Call → Prop} :
    Evolves c ⟨c.shared, c.threads ++ [(fsSystem cfg admits).spawn call]⟩ := by
  refine ⟨fun {i} hi => ?_, fun {i iv'} hi => Or.inl ⟨iv', hi, rfl⟩⟩
  rcases hi with hle | ⟨th, hth, hi⟩
  · exact Or.inl hle
  · rcases List.mem_append.1 hth with hth | hth
    · exact Or.inr ⟨th, hth, hi⟩
    · rw [List.mem_singleton.1 hth] at hi
      cases hi

/-- What has a record or a name has been born. -/
theorem not_unborn_of_inode (h : Isolated c) {i : Inode} {iv : InodeValue}
    (hi : c.shared.db.inode i = some iv) : ¬Unborn c i := by
  rintro (hle | ⟨th, hth, hm⟩)
  · exact absurd (h.wf.inode_lt hi) (Nat.not_lt.2 hle)
  · have hnone := ((h.valid.of_mem hth).fresh hm).1
    rw [hi] at hnone
    cases hnone

end Isolated

/-- A directory, or what is left of one. -/
def DirLike (c : FsConf) (i : Inode) : Prop :=
  ¬Unborn c i ∧ ∀ iv, c.shared.db.inode i = some iv → isDir iv.mode = true

/-- A file or symbolic link, or what is left of one. -/
def FileLike (c : FsConf) (i : Inode) : Prop :=
  ¬Unborn c i ∧ ∀ iv, c.shared.db.inode i = some iv → isDir iv.mode = false

theorem DirLike.evolves {c c' : FsConf} {i : Inode} (h : DirLike c i) (he : Evolves c c') : DirLike c' i := by
  refine ⟨fun hu => h.1 (he.unborn hu), fun iv' hi => ?_⟩
  rcases he.record hi with ⟨iv, hiv, ht⟩ | hu
  · rw [isDir_of_fileType_eq ht, h.2 iv hiv]
  · exact absurd hu h.1

theorem FileLike.evolves {c c' : FsConf} {i : Inode} (h : FileLike c i) (he : Evolves c c') :
    FileLike c' i := by
  refine ⟨fun hu => h.1 (he.unborn hu), fun iv' hi => ?_⟩
  rcases he.record hi with ⟨iv, hiv, ht⟩ | hu
  · rw [isDir_of_fileType_eq ht, h.2 iv hiv]
  · exact absurd hu h.1

theorem Isolated.dirLike {c : FsConf} (h : Isolated c) {i : Inode} (hi : c.shared.db.IsDirectory i) :
    DirLike c i := by
  obtain ⟨iv, hiv, hd⟩ := hi
  refine ⟨h.not_unborn_of_inode hiv, fun jv hj => ?_⟩
  rw [hiv] at hj
  cases hj
  exact hd

theorem Isolated.fileLike {c : FsConf} (h : Isolated c) {i : Inode} {iv : InodeValue}
    (hiv : c.shared.db.inode i = some iv) (hd : isDir iv.mode = false) : FileLike c i := by
  refine ⟨h.not_unborn_of_inode hiv, fun jv hj => ?_⟩
  rw [hiv] at hj
  cases hj
  exact hd

/-- A server before its first call: deltas are those of directories and no deletion is pending. -/
structure Server.Starts (s : Server) : Prop where
  wf : s.Wf
  deltas : ∀ {i q d}, s.db.deltaEntries.get (toLex (i, q)) = some d → s.db.IsDirectory i
  pending : ∀ i, s.pendingDeletes i = false

theorem Server.starts_fresh (cfg : Config) : (Server.fresh cfg).Starts where
  wf := Server.wf_fresh cfg
  deltas := fun h => by cases h
  pending := fun _ => rfl

/-- The part each inode plays for the calls that are running: parents and inodes with deltas are
directories, inodes remembered as files or waiting for deletion are not. -/
structure Roles (c : FsConf) : Prop where
  parents : Pool (fun th => ∀ p ∈ th.tag.parents, DirLike c p) c.threads
  deltas : ∀ {i q d}, c.shared.db.deltaEntries.get (toLex (i, q)) = some d → DirLike c i
  scanned : Pool (fun th => ∀ i ks, th.loc.tx.scanned = some (i, ks) → ks ≠ [] → DirLike c i) c.threads
  files : Pool (fun th => ∀ i ∈ th.loc.files, FileLike c i) c.threads
  pending : ∀ {i}, c.shared.pendingDeletes i = true → FileLike c i

namespace Roles

variable {cfg : Config} {strict : Prop} {c : FsConf} {n : Nat} {call : Call} {e : Eff}
  {k : e.Res → Prog Eff Eff.Res Reply} {r : e.Res} {l l' : Local} {s' : Server}

theorem act (h : Roles c) (hi : Isolated c) (hn : c.threads[n]? = some ⟨call, .call e k, l⟩)
    (hpre : (contract cfg strict call).pre e l)
    (ha : Acts cfg (c.threads.eraseIdx n) e l c.shared r l' s') :
    Roles ⟨s', c.threads.set n ⟨call, k r, l'⟩⟩ := by
  have hev := hi.evolves hn hpre ha
  have hpar := h.parents n _ hn
  have hfiles := h.files n _ hn
  refine ⟨?_, fun {i q d} hd => ?_, ?_, ?_, fun {i} hp => ?_⟩
  · exact h.parents.set (fun p hp => (hpar p hp).evolves hev)
      fun m u _ _ hu p hp => (hu p hp).evolves hev
  · rcases ha.deltas_cases with ⟨rfl, rfl, rfl⟩ | ⟨j, rfl, rfl, rfl⟩ | hde
    · rcases Db.delta_applyBatch hd with hd | hm
      · exact (h.deltas hd).evolves hev
      · have hcommit : Committing cfg call l c.shared.db := hpre _ _ (hi.valid n _ hn) hi.wf
        exact (hpar i (hcommit.putDelta_parent hm)).evolves hev
    · have hget : (c.shared.clearDeltas j).db.deltaEntries.get (toLex (i, q)) =
          if i = j then none else c.shared.db.deltaEntries.get (toLex (i, q)) :=
        get_erase_scan c.shared.db j i q
      have hd : (c.shared.clearDeltas j).db.deltaEntries.get (toLex (i, q)) = some d := hd
      rw [hget] at hd
      split at hd
      · cases hd
      · exact (h.deltas hd).evolves hev
    · have hd : s'.db.deltaEntries.get (toLex (i, q)) = some d := hd
      rw [hde] at hd
      exact (h.deltas hd).evolves hev
  · refine h.scanned.set (fun i ks hs hne => ?_) fun m u _ _ hu i ks hs hne => (hu i ks hs hne).evolves hev
    rcases ha.scanned hs with hs | ⟨-, rfl⟩
    · exact (h.scanned n _ hn i ks hs hne).evolves hev
    · obtain ⟨x, hx⟩ := List.exists_mem_of_ne_nil _ hne
      have hget := OrdMap.mem_toList.1 (show (x.1, x.2) ∈ (c.shared.db.deltaEntries.slice i).toList from hx)
      rw [OrdMap.get_slice] at hget
      exact (h.deltas hget).evolves hev
  · refine h.files.set (fun i hm => ?_) fun m u _ _ hu i hm => (hu i hm).evolves hev
    rcases ha.files hm with hm | ⟨iv, hiv, hd⟩ | hp
    · exact (hfiles i hm).evolves hev
    · exact (hi.fileLike hiv hd).evolves hev
    · exact (h.pending hp).evolves hev
  · rcases ha.pending hp with hp | rfl
    · exact (h.pending hp).evolves hev
    · exact (hfiles i hpre).evolves hev

theorem start (h : Roles c) (hi : Isolated c) {admits : Server → Call → Prop}
    (hp : call.ParentsExist c.shared.db) :
    Roles ⟨c.shared, c.threads ++ [(fsSystem cfg admits).spawn call]⟩ := by
  have hev : Evolves c ⟨c.shared, c.threads ++ [(fsSystem cfg admits).spawn call]⟩ := Isolated.evolves_start
  refine ⟨?_, fun hd => (h.deltas hd).evolves hev, ?_, ?_, fun hd => (h.pending hd).evolves hev⟩
  · refine Pool.append (h.parents.mono fun th hth p hp => (hth p hp).evolves hev) fun p hpm => ?_
    exact (hi.dirLike (hp p hpm)).evolves hev
  · refine Pool.append (h.scanned.mono fun th hth i ks hs hne => (hth i ks hs hne).evolves hev) ?_
    intro i ks hs
    cases hs
  · refine Pool.append (h.files.mono fun th hth i hm => (hth i hm).evolves hev) ?_
    intro i hm
    cases hm

theorem of_server {s : Server} (hs : s.Starts) : Roles ⟨s, []⟩ where
  parents := fun m u hu => by simp at hu
  deltas := fun h => (Isolated.of_server hs.wf).dirLike (hs.deltas h)
  scanned := fun m u hu => by simp at hu
  files := fun m u hu => by simp at hu
  pending := fun {i} h => by rw [hs.pending i] at h; cases h

end Roles

/-- What is isolated in every run. -/
theorem isolated_of_reach {cfg : Config} {admits : Server → Call → Prop} {Hyp : FsConf → Prop} {s₀ : Server}
    {c : FsConf} (h₀ : s₀.Wf) (h : Reach (fsSystem cfg admits) Hyp ⟨s₀, []⟩ c) :
    Isolated c ∧ ∀ th ∈ c.threads, wp (contract cfg False th.tag) th.prog (fun _ l => l.Idle) th.loc := by
  have hinv := isolated_invariant False (fun _ => True) (fun hf => hf.elim) rfl h₀ (fun _ => trivial)
    (fun _ _ _ _ => trivial) (fun _ _ _ _ _ _ _ => trivial) h
  exact ⟨hinv.1.2, hinv.2⟩

/-- The invariants of a run whose calls start with existing parents. -/
theorem roles_of_reach {cfg : Config} {admits : Server → Call → Prop} {Hyp : FsConf → Prop} {s₀ : Server}
    {c : FsConf} (h₀ : s₀.Starts) (hadm : ∀ s call, admits s call → call.ParentsExist s.db)
    (h : Reach (fsSystem cfg admits) Hyp ⟨s₀, []⟩ c) :
    (Roles c ∧ Isolated c) ∧
      ∀ th ∈ c.threads, wp (contract cfg False th.tag) th.prog (fun _ l => l.Idle) th.loc :=
  isolated_invariant False Roles (fun hf => hf.elim) rfl h₀.wf (fun _ => .of_server h₀)
    (fun _ hi hX ha => hX.start hi (hadm _ _ ha)) (fun _ hi hX hn hpre ha _ => hX.act hi hn hpre ha) h

end RucksFs
