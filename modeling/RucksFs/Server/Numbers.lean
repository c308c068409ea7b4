import RucksFs.Server.Isolation
import RucksFs.Server.Log

/-!
# Sequence numbers of deltas

A delta is stored under a number that its transaction has taken from the counter of the inode
before it commits, so numbers are given out in one order and used in another.

* `Committing.delta_iff` — what a commit does to the stored deltas: its own come in, and those
  that a compaction has scanned go out.
* `Numbered` — the numbers stored, and those taken and not yet used, are below the counter and all
  different.  `Numbered.act`: it lasts while the deltas of the inode are not cleared.
-/

set_option autoImplicit false

namespace RucksFs

open Server

namespace Db

/-- The delta of `i` stored under number `q`. -/
def delta (db : Db) (i : Inode) (q : Nat) : Option DeltaOp := db.deltaEntries.get (toLex (i, q))

theorem delta_congr {a b : Db} (h : a.deltaEntries = b.deltaEntries) (i : Inode) (q : Nat) :
    a.delta i q = b.delta i q := by
  unfold delta
  rw [h]

theorem mem_scanDeltas {db : Db} {i : Inode} {x : Nat × DeltaOp} :
    x ∈ db.scanDeltas i ↔ db.delta i x.1 = some x.2 := by
  unfold scanDeltas delta
  rw [← OrdMap.get_slice]
  exact OrdMap.mem_toList

theorem nodup_scanDeltas (db : Db) (i : Inode) : (db.scanDeltas i).Nodup := OrdMap.nodup_toList _

theorem delta_putDelta (db : Db) (j : Inode) (q' : Nat) (d : DeltaOp) (i : Inode) (q : Nat) :
    (db.applyOp (.putDelta j q' d)).delta i q =
      if i = j ∧ q = q' then some d else db.delta i q := by
  unfold delta applyOp
  simp [OrdMap.get_put]

theorem delta_clearDeltas (s : Server) (j i : Inode) (q : Nat) :
    (s.clearDeltas j).db.delta i q = if i = j then none else s.db.delta i q :=
  get_erase_scan s.db j i q

end Db

/-- The numbers of `i` among those taken, each with its delta. -/
def numbersOf (i : Inode) (seqs : List (Inode × Nat × DeltaOp)) : List (Nat × DeltaOp) :=
  seqs.filterMap fun x => if x.1 = i then some x.2 else none

theorem mem_numbersOf {i : Inode} {seqs : List (Inode × Nat × DeltaOp)} {x : Nat × DeltaOp} :
    x ∈ numbersOf i seqs ↔ (i, x) ∈ seqs := by
  unfold numbersOf
  rw [List.mem_filterMap]
  constructor
  · rintro ⟨⟨j, y⟩, hm, hy⟩
    split at hy
    · rename_i e
      cases e
      cases hy
      exact hm
    · cases hy
  · exact fun hm => ⟨_, hm, if_pos rfl⟩

theorem numbersOf_append (i : Inode) (a b : List (Inode × Nat × DeltaOp)) :
    numbersOf i (a ++ b) = numbersOf i a ++ numbersOf i b := List.filterMap_append

theorem numbersOf_singleton (i j : Inode) (x : Nat × DeltaOp) :
    numbersOf i [(j, x)] = if j = i then [x] else [] := by
  unfold numbersOf
  split <;> simp [*]

theorem numbersOf_cons (i j : Inode) (x : Nat × DeltaOp) (seqs : List (Inode × Nat × DeltaOp)) :
    numbersOf i ((j, x) :: seqs) = (if j = i then [x] else []) ++ numbersOf i seqs := by
  rw [← numbersOf_singleton, ← numbersOf_append]
  rfl

/-- All under different numbers. -/
def DistinctNumbers (xs : List (Nat × DeltaOp)) : Prop := xs.Pairwise fun a b => a.1 ≠ b.1

/-- Deltas put under different numbers are all there. -/
theorem Db.delta_putDeltas {i : Inode} {q : Nat} {d : DeltaOp} :
    ∀ {seqs : List (Inode × Nat × DeltaOp)} {db : Db}, DistinctNumbers (numbersOf i seqs) →
      ((db.applyBatch (seqs.map fun x => .putDelta x.1 x.2.1 x.2.2)).delta i q = some d ↔
        db.delta i q = some d ∧ (∀ d', (q, d') ∉ numbersOf i seqs) ∨ (q, d) ∈ numbersOf i seqs)
  | [], db, _ => by simp [numbersOf]
  | (j, q', e) :: seqs, db, hp => by
      rw [numbersOf_cons] at hp ⊢
      have htail : DistinctNumbers (numbersOf i seqs) := (List.pairwise_append.1 hp).2.1
      rw [List.map_cons, applyBatch_cons, Db.delta_putDeltas htail, delta_putDelta]
      by_cases hj : j = i
      · subst hj
        rw [if_pos rfl] at hp ⊢
        by_cases hq : q = q'
        · -- the number is used here and not again
          subst hq
          have hrest : ∀ d', (q, d') ∉ numbersOf j seqs := fun d' hm =>
            (List.pairwise_append.1 hp).2.2 _ List.mem_cons_self _ hm rfl
          simp [hrest, eq_comm]
        · simp [hq]
      · simp [hj, Ne.symm hj]

theorem Db.deltas_putDelta_ne {i p : Inode} (h : i ≠ p) (q : Nat) (d : DeltaOp) (db : Db) :
    (db.applyOp (.putDelta p q d)).deltas i = db.deltas i := by
  unfold Db.deltas Db.scanDeltas Db.applyOp
  rw [OrdMap.slice_put_ne _ _ _ h]

/-- Deltas put under numbers above the stored ones come last, in their order. -/
theorem Db.deltas_putDeltas {i : Inode} : ∀ (seqs : List (Inode × Nat × DeltaOp)) (db : Db),
    (numbersOf i seqs).Pairwise (fun x y => x.1 < y.1) →
    (∀ x ∈ numbersOf i seqs, ∀ q d, db.delta i q = some d → q < x.1) →
    (db.applyBatch (seqs.map fun x => .putDelta x.1 x.2.1 x.2.2)).deltas i =
      db.deltas i ++ (numbersOf i seqs).map (·.2)
  | [], db, _, _ => (List.append_nil _).symm
  | (j, q, d) :: seqs, db, hs, ha => by
      rw [numbersOf_cons] at hs ha ⊢
      rw [List.map_cons, applyBatch_cons]
      by_cases hj : j = i
      · subst hj
        rw [if_pos rfl] at hs ha ⊢
        obtain ⟨-, htail, hlt⟩ := List.pairwise_append.1 hs
        have hlast := Db.deltas_putDelta d (fun q' d' hq => ha _ List.mem_cons_self q' d' hq) j
        rw [if_pos rfl] at hlast
        rw [Db.deltas_putDeltas seqs _ htail fun x hx q' d' hq => ?_, hlast]
        · simp
        · rw [Db.delta_putDelta] at hq
          split at hq
          · rename_i e
            rw [e.2]
            exact hlt _ List.mem_cons_self x hx
          · exact ha x (List.mem_append_right _ hx) q' d' hq
      · rw [if_neg hj, List.nil_append] at hs ha ⊢
        rw [Db.deltas_putDeltas seqs _ hs fun x hx q' d' hq => ?_, Db.deltas_putDelta_ne (Ne.symm hj)]
        rw [Db.delta_putDelta, if_neg fun e => hj e.1.symm] at hq
        exact ha x hx q' d' hq

/-! ## Commits -/

/-- The compaction of `i` that call `c` is running folds number `q` into the record. -/
def Local.FoldsNumber (l : Local) (c : Call) (i : Inode) (q : Nat) : Prop :=
  c = .forceCompactInode i ∧ ∃ ks d, l.tx.scanned = some (i, ks) ∧ (q, d) ∈ ks

/-- Only compaction takes deltas away. -/
theorem Writes.not_isDelta {db : Db} {l : Local} {c : Call} {main : List BatchOp}
    {dss : List (Inode × List DeltaOp)} (h : Writes db l c main dss) (hc : ∀ j, c ≠ .forceCompactInode j) :
    ∀ op ∈ main, ¬op.IsDelta := by
  cases h with
  | create hcr hnl he hi hx => exact BatchOp.not_isDelta_creation hx
  | rename => exact not_isDelta_renameOps
  | compact => exact absurd rfl (hc _)
  | _ => simp [BatchOp.IsDelta]

theorem Writes.delta_iff {db : Db} {l : Local} {c : Call} {main : List BatchOp}
    {dss : List (Inode × List DeltaOp)} (h : Writes db l c main dss) {i : Inode} {q : Nat} {d : DeltaOp} :
    (db.applyBatch main).delta i q = some d ↔ db.delta i q = some d ∧ ¬l.FoldsNumber c i q := by
  have hplain : (∀ j, c ≠ .forceCompactInode j) →
      ((db.applyBatch main).delta i q = some d ↔ db.delta i q = some d ∧ ¬l.FoldsNumber c i q) := by
    intro hc
    rw [Db.delta_congr (db.deltaEntries_applyBatch (h.not_isDelta hc))]
    exact (and_iff_left fun hf => hc i hf.1).symm
  cases h with
  | create hc => exact hplain (by rintro j rfl; cases hc)
  | rewrite hc => exact hplain (by rintro j rfl; cases hc)
  | @compact j base ks hi hs hk hr =>
      unfold Db.delta
      rw [deltaEntries_compaction, get_foldl_erase]
      by_cases e : ∃ p ∈ ks, toLex (i, q) = toLex (j, p.1)
      · -- the number was scanned
        rw [if_pos e]
        obtain ⟨p, hp, hkey⟩ := e
        obtain ⟨rfl, rfl⟩ : i = j ∧ q = p.1 := by simpa using hkey
        have hf : l.FoldsNumber (.forceCompactInode i) i p.1 := ⟨rfl, ks, p.2, hs, hp⟩
        simp [hf]
      · rw [if_neg e]
        refine (and_iff_left ?_).symm
        rintro ⟨hc, ks', d', hs', hm⟩
        cases hc
        rw [hs] at hs'
        cases hs'
        exact e ⟨_, hm, rfl⟩
  | _ => exact hplain fun _ => nofun

theorem RecordWrites.not_isDelta {ps : List Inode} :
    ∀ {ops : List BatchOp} {db : Db}, RecordWrites ps db ops → ∀ op ∈ ops, ¬op.IsDelta
  | [], _, _ => by simp
  | .putInode p v :: ops, db, h => by
      intro op ho hd
      rcases List.mem_cons.1 ho with rfl | ho
      · exact hd
      · exact h.2.2.not_isDelta op ho hd

theorem RecordWrites.eq_nil_of_nil : ∀ {ops : List BatchOp} {db : Db}, RecordWrites [] db ops → ops = []
  | [], _, _ => rfl
  | .putInode p v :: ops, _, h => by cases h.1

theorem ParentPart.eq_nil {cfg : Config} {seqs : List (Inode × Nat × DeltaOp)} {db : Db} {ops : List BatchOp}
    (h : ParentPart cfg seqs db [] ops) : ops = [] := by
  unfold ParentPart at h
  split at h
  · have hnil : seqs = [] := List.map_eq_nil_iff.1 h.2
    rw [h.1, hnil]
    rfl
  · exact h.2.eq_nil_of_nil

namespace Committing

variable {cfg : Config} {c : Call} {l : Local} {db : Db}

/-- The deltas after a commit: those put by it, and the old ones that it has not folded. -/
theorem delta_iff (h : Committing cfg c l db) {i : Inode} {q : Nat} {d : DeltaOp}
    (hown : DistinctNumbers (numbersOf i l.tx.seqs)) :
    (db.applyBatch l.tx.batch).delta i q = some d ↔
      (db.delta i q = some d ∧ ¬l.FoldsNumber c i q) ∧ (∀ d', (q, d') ∉ numbersOf i l.tx.seqs) ∨
        (q, d) ∈ numbersOf i l.tx.seqs := by
  obtain ⟨main, dss, rest, hb, hw, hp⟩ := h
  rw [hb, Db.applyBatch_append]
  unfold ParentPart at hp
  split at hp
  · rw [hp.1, Db.delta_putDeltas hown, hw.delta_iff]
  · obtain ⟨hnil, hrec⟩ := hp
    rw [Db.delta_congr (Db.deltaEntries_applyBatch _ hrec.not_isDelta), hw.delta_iff, hnil]
    simp [numbersOf]

/-- A commit of numbers above the stored ones appends its deltas. -/
theorem deltas_append (h : Committing cfg c l db) (hb : cfg.build = .delta)
    (hc : ∀ j, c ≠ .forceCompactInode j) {i : Inode}
    (hs : (numbersOf i l.tx.seqs).Pairwise fun x y => x.1 < y.1)
    (ha : ∀ x ∈ numbersOf i l.tx.seqs, ∀ q d, db.delta i q = some d → q < x.1) :
    (db.applyBatch l.tx.batch).deltas i = db.deltas i ++ (numbersOf i l.tx.seqs).map (·.2) := by
  obtain ⟨main, dss, rest, hbatch, hw, hp⟩ := h
  unfold ParentPart at hp
  rw [hb] at hp
  have hmain := db.deltaEntries_applyBatch (hw.not_isDelta hc)
  rw [hbatch, Db.applyBatch_append, hp.1, Db.deltas_putDeltas _ _ hs, Db.deltas_congr hmain]
  intro x hx q d hq
  exact ha x hx q d (Db.delta_congr hmain i q ▸ hq)

/-- The operations that put deltas are those of the numbers taken. -/
theorem putDelta_iff (h : Committing cfg c l db) {i : Inode} {q : Nat} {d : DeltaOp} :
    .putDelta i q d ∈ l.tx.batch ↔ (q, d) ∈ numbersOf i l.tx.seqs := by
  rw [mem_numbersOf]
  obtain ⟨main, dss, rest, hb, hw, hp⟩ := h
  rw [hb, List.mem_append, or_iff_right hw.not_putDelta]
  unfold ParentPart at hp
  split at hp
  · rw [hp.1, List.mem_map]
    constructor
    · rintro ⟨x, hx, e⟩
      cases e
      exact hx
    · exact fun hm => ⟨_, hm, rfl⟩
  · rw [hp.1]
    exact iff_of_false (hp.2.not_putDelta i q d) (by simp)

/-- The batch of a compaction. -/
theorem compaction {i : Inode} (h : Committing cfg (.forceCompactInode i) l db) :
    ∃ base ks, db.inode i = some base ∧ l.tx.scanned = some (i, ks) ∧ ks ≠ [] ∧
      l.tx.batch = .putInode i (foldDeltas base (ks.map (·.2))) :: ks.map fun k => .deleteDelta i k.1 := by
  obtain ⟨main, dss, rest, hb, hw, hp⟩ := h
  cases hw with
  | create hc => cases hc
  | rewrite hc => cases hc
  | @compact j base ks hi hs hk hr =>
      refine ⟨base, ks, hi, hs, hk, ?_⟩
      rw [hb, hp.eq_nil, List.append_nil]

/-- A call that rewrites a record keeps its type and its links. -/
theorem rewritten (h : Committing cfg c l db) {i : Inode} (hc : c.rewritten = some i) :
    ∃ iv iv', db.inode i = some iv ∧ l.tx.batch = [.putInode i iv'] ∧ fileType iv'.mode = fileType iv.mode ∧
      iv'.nlink = iv.nlink := by
  obtain ⟨main, dss, rest, hb, hw, hp⟩ := h
  have hnone : c.creates = none := Call.creates_of_parents (Call.parents_of_rewritten hc)
  cases hw with
  | create hcr =>
      rw [hcr] at hnone
      cases hnone
  | @rewrite _ j iv iv' hcj hi ht hl hr =>
      obtain rfl : j = i := Option.some.inj (hcj.symm.trans hc)
      exact ⟨iv, iv', hi, by rw [hb, hp.eq_nil]; rfl, ht, hl⟩
  | _ => cases hc

/-- The batch of a deferred deletion. -/
theorem release {i : Inode} (h : Committing cfg (.release i) l db) :
    l.tx.batch = [.deleteInode i, .deleteDataLocation i] := by
  obtain ⟨main, dss, rest, hb, hw, hp⟩ := h
  cases hw with
  | create hc => cases hc
  | rewrite hc => cases hc
  | drop hf hr => rw [hb, hp.eq_nil]; rfl

end Committing

/-! ## What one effect does to the numbers -/

/-- Numbers are taken one at a time, used by a commit, and given up when a transaction ends. -/
theorem Acts.log_cases {cfg : Config} {os : List FsThread} {e : Eff} {l l' : Local} {s s' : Server}
    {r : e.Res} (h : Acts cfg os e l s r l' s') :
    (e = .commit ∧ s' = { s with db := s.db.applyBatch l.tx.batch } ∧
      l' = ⟨{ retired := l.tx.retiring }, l.files⟩) ∨
    (∃ j, e = .clearDeltas j ∧ s' = s.clearDeltas j ∧ l' = l) ∨
    (∃ p d, e = .nextSeq p d ∧ s'.db = s.db ∧ s'.seqs = Function.update s.seqs p (s.seqs p + 1) ∧
      l' = { l with tx := { l.tx with seqs := l.tx.seqs ++ [(p, s.seqs p, d)] } }) ∨
    (s'.db.deltaEntries = s.db.deltaEntries ∧ s'.seqs = s.seqs ∧
      (l'.tx.seqs = l.tx.seqs ∨ l'.tx.seqs = [])) := by
  rcases h.table_cases with hcommit | hclear | ⟨p, d, rfl, rfl, rfl⟩ | ⟨⟨-, -, hd, hq⟩, -, hl⟩
  · exact Or.inl hcommit
  · exact Or.inr (Or.inl hclear)
  · exact Or.inr (Or.inr (Or.inl ⟨p, d, rfl, rfl, rfl, rfl⟩))
  · exact Or.inr (Or.inr (Or.inr ⟨hd, hq, hl.symm.imp And.left id⟩))

/-! ## The invariant -/

/-- Two transactions have taken no common number of `i`. -/
def SeqsApart (i : Inode) (a b : FsThread) : Prop :=
  ∀ x ∈ numbersOf i a.loc.tx.seqs, ∀ y ∈ numbersOf i b.loc.tx.seqs, x.1 ≠ y.1

theorem SeqsApart.symm {i : Inode} {a b : FsThread} (h : SeqsApart i a b) : SeqsApart i b a :=
  fun x hx y hy e => h y hy x hx e.symm

/-- The numbers of `i` that are stored or taken. -/
structure Numbered (i : Inode) (c : FsConf) : Prop where
  stored : ∀ {q d}, c.shared.db.delta i q = some d → q < c.shared.seqs i
  taken : Pool (fun th => ∀ x ∈ numbersOf i th.loc.tx.seqs,
    x.1 < c.shared.seqs i ∧ c.shared.db.delta i x.1 = none) c.threads
  own : Pool (fun th => DistinctNumbers (numbersOf i th.loc.tx.seqs)) c.threads
  apart : Apart (SeqsApart i) c.threads

namespace Numbered

variable {cfg : Config} {strict : Prop} {i : Inode} {c : FsConf} {n : Nat} {call : Call} {e : Eff}
  {k : e.Res → Prog Eff Eff.Res Reply} {r : e.Res} {l l' : Local} {s' : Server}

/-- The numbers of `i` stay as they are, and thread `n` keeps or gives up those it has taken. -/
theorem quiet (h : Numbered i c) (hn : c.threads[n]? = some ⟨call, .call e k, l⟩)
    (hd : ∀ q, s'.db.delta i q = c.shared.db.delta i q) (hq : s'.seqs i = c.shared.seqs i)
    (hl : numbersOf i l'.tx.seqs = numbersOf i l.tx.seqs ∨ numbersOf i l'.tx.seqs = []) :
    Numbered i ⟨s', c.threads.set n ⟨call, k r, l'⟩⟩ := by
  have hsub : ∀ x ∈ numbersOf i l'.tx.seqs, x ∈ numbersOf i l.tx.seqs := by
    intro x hx
    rcases hl with hl | hl
    · exact hl ▸ hx
    · rw [hl] at hx
      cases hx
  refine ⟨fun {q d} hs => ?_, ?_, ?_, ?_⟩
  · rw [hd] at hs
    show q < s'.seqs i
    rw [hq]
    exact h.stored hs
  · simp only [hq, hd]
    exact h.taken.set (fun x hx => h.taken n _ hn x (hsub x hx)) fun _ _ _ _ hu => hu
  · refine h.own.set ?_ fun _ _ _ _ hu => hu
    rcases hl with hl | hl
    · rw [hl]
      exact h.own n _ hn
    · rw [hl]
      exact .nil
  · exact h.apart.set SeqsApart.symm fun m u hm hu x hx =>
      h.apart n m _ u hm.symm hn hu x (hsub x hx)

theorem commit (h : Numbered i c) (hn : c.threads[n]? = some ⟨call, .call e k, l⟩)
    (hcommit : Committing cfg call l c.shared.db) {tx : Txn} (hseqs : tx.seqs = []) :
    Numbered i ⟨{ c.shared with db := c.shared.db.applyBatch l.tx.batch },
      c.threads.set n ⟨call, k r, ⟨tx, l.files⟩⟩⟩ := by
  have htaken := h.taken n _ hn
  have hown := h.own n _ hn
  have hnone : numbersOf i tx.seqs = [] := by rw [hseqs]; rfl
  refine ⟨fun {q d} hs => ?_, ?_, ?_, ?_⟩
  · rcases (hcommit.delta_iff hown).1 hs with ⟨⟨hold, -⟩, -⟩ | hm
    · exact h.stored hold
    · exact (htaken _ hm).1
  · refine h.taken.set (by simp [hnone]) fun m u hm hu hold x hx => ⟨(hold x hx).1, ?_⟩
    -- a number another transaction has taken is not used by this commit
    cases hs : (c.shared.db.applyBatch l.tx.batch).delta i x.1 with
    | none => rfl
    | some d =>
        rcases (hcommit.delta_iff hown).1 hs with ⟨⟨hst, -⟩, -⟩ | hm'
        · rw [(hold x hx).2] at hst
          cases hst
        · exact absurd rfl (h.apart n m _ u hm.symm hn hu _ hm' x hx)
  · refine h.own.set ?_ fun _ _ _ _ hu => hu
    rw [hnone]
    exact .nil
  · exact h.apart.set SeqsApart.symm fun m u _ _ => by simp [SeqsApart, hnone]

/-- The next number goes to one transaction. -/
theorem nextSeq (h : Numbered i c) (hn : c.threads[n]? = some ⟨call, .call e k, l⟩) {d : DeltaOp}
    {tx : Txn} (hdb : s'.db = c.shared.db) (hq : s'.seqs i = c.shared.seqs i + 1)
    (hseqs : numbersOf i tx.seqs = numbersOf i l.tx.seqs ++ [(c.shared.seqs i, d)]) :
    Numbered i ⟨s', c.threads.set n ⟨call, k r, ⟨tx, l.files⟩⟩⟩ := by
  have htaken := h.taken n _ hn
  have hmem : ∀ x ∈ numbersOf i tx.seqs, x ∈ numbersOf i l.tx.seqs ∨ x.1 = c.shared.seqs i := by
    intro x hx
    rw [hseqs] at hx
    rcases List.mem_append.1 hx with hx | hx
    · exact Or.inl hx
    · exact Or.inr (congrArg Prod.fst (List.mem_singleton.1 hx))
  refine ⟨fun {q d} hs => ?_, ?_, ?_, ?_⟩
  · have hlt := h.stored (hdb ▸ hs)
    show q < s'.seqs i
    omega
  · simp only [hq, hdb]
    refine h.taken.set (fun x hx => ?_) fun m u _ _ hu x hx =>
      ⟨Nat.lt_succ_of_lt (hu x hx).1, (hu x hx).2⟩
    rcases hmem x hx with hx | hx
    · exact ⟨Nat.lt_succ_of_lt (htaken x hx).1, (htaken x hx).2⟩
    · refine ⟨by omega, ?_⟩
      cases hs : c.shared.db.delta i x.1 with
      | none => rfl
      | some d' =>
          have hlt := h.stored hs
          omega
  · refine h.own.set ?_ fun _ _ _ _ hu => hu
    show DistinctNumbers (numbersOf i tx.seqs)
    rw [hseqs]
    refine List.pairwise_append.2 ⟨h.own n _ hn, List.pairwise_singleton _ _, fun x hx y hy => ?_⟩
    rw [List.mem_singleton.1 hy]
    exact Nat.ne_of_lt (htaken x hx).1
  · refine h.apart.set SeqsApart.symm fun m u hm hu x hx y hy => ?_
    rcases hmem x hx with hx | hx
    · exact h.apart n m _ u hm.symm hn hu x hx y hy
    · have hlt := (h.taken m u hu y hy).1
      omega

/-- **A number is used at most once**, as long as the deltas of the inode are not cleared. -/
theorem act (h : Numbered i c) (hi : Isolated c) (hn : c.threads[n]? = some ⟨call, .call e k, l⟩)
    (hpre : (contract cfg strict call).pre e l) (hclear : e ≠ .clearDeltas i)
    (ha : Acts cfg (c.threads.eraseIdx n) e l c.shared r l' s') :
    Numbered i ⟨s', c.threads.set n ⟨call, k r, l'⟩⟩ := by
  rcases ha.log_cases with ⟨rfl, rfl, rfl⟩ | ⟨j, rfl, rfl, rfl⟩ | ⟨p, d, rfl, hdb, hq, rfl⟩ | ⟨hd, hq, hl⟩
  · exact h.commit hn (hpre _ _ (hi.valid n _ hn) hi.wf) rfl
  · have hne : i ≠ j := fun e => hclear (e ▸ rfl)
    refine h.quiet hn (fun q => ?_) ?_ (Or.inl rfl)
    · rw [Db.delta_clearDeltas, if_neg hne]
    · exact Function.update_of_ne hne _ _
  · have hseqs : numbersOf i (l.tx.seqs ++ [(p, c.shared.seqs p, d)]) =
        numbersOf i l.tx.seqs ++ if p = i then [(c.shared.seqs p, d)] else [] := by
      rw [numbersOf_append, numbersOf_singleton]
    by_cases e : i = p
    · subst e
      rw [if_pos rfl] at hseqs
      refine h.nextSeq hn hdb ?_ hseqs
      rw [hq, Function.update_self]
    · rw [if_neg (Ne.symm e), List.append_nil] at hseqs
      refine h.quiet hn (fun q => by rw [hdb]) ?_ (Or.inl hseqs)
      rw [hq, Function.update_of_ne e]
  · refine h.quiet hn (fun q => Db.delta_congr hd i q) (by rw [hq]) ?_
    rcases hl with hl | hl
    · exact Or.inl (by rw [hl])
    · exact Or.inr (by rw [hl]; rfl)

theorem start (h : Numbered i c) {admits : Server → Call → Prop} :
    Numbered i ⟨c.shared, c.threads ++ [(fsSystem cfg admits).spawn call]⟩ where
  stored := h.stored
  taken := h.taken.append fun x hx => by cases hx
  own := h.own.append .nil
  apart := h.apart.append SeqsApart.symm fun m u hu x hx => by cases hx

theorem of_server {s : Server} (hs : s.LogOk cfg) : Numbered i ⟨s, []⟩ where
  stored := hs.seqs
  taken := fun m u hu => by simp at hu
  own := fun m u hu => by simp at hu
  apart := fun m k u v _ hu => by simp at hu

end Numbered

end RucksFs
