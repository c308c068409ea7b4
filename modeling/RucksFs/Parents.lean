import RucksFs.Names

/-!
# Entries under removed directories

`rmdir` and a rename that replaces a directory test with a range read that the directory is empty.  No row
lock covers that read, and the calls that add an entry do not keep the directory from being removed: the
two can pass each other, and an entry is left under a directory that has no name.

* `Writes.existing` — a directory that exists does so after a commit, unless it was found empty.
* `entry_under_removed` — the interleaving of `create` with `rmdir`.
* `parents_exist` — without such an overlap, in every run every entry lies under an existing directory.
-/

set_option autoImplicit false

namespace RucksFs

open Server Prog

/-- A directory of the tree: it has a record, and is the root or has a name. -/
def Db.Existing (db : Db) (d : Inode) : Prop := db.IsDirectory d ∧ (d = ROOT_INODE ∨ db.Named d)

instance (db : Db) (d : Inode) : Decidable (db.Named d) := decidable_of_iff _ Db.names_pos

instance (db : Db) (d : Inode) : Decidable (db.Existing d) := instDecidableAnd

def Call.isRmdir : Call → Bool
  | .rmdir _ _ => true
  | _ => false

/-! ## Commits -/

namespace Writes

variable {db : Db} {l : Local} {c : Call} {main : List BatchOp} {dss : List (Inode × List DeltaOp)}
  {next : Nat} {q : Inode}

/-- A record that the batch does not remove stays a directory's. -/
theorem isDirectory_of_not_removes (h : Writes db l c main dss) (hv : l.tx.Valid db next)
    (hroot : ROOT_INODE ∉ l.files) (hq : db.IsDirectory q) (hr : ∀ op ∈ main, ¬op.Removes q) :
    (db.applyBatch main).IsDirectory q := by
  obtain ⟨iv, hiv, hd⟩ := hq
  have hsome := (Db.isSome_applyBatch db hr).1 (by rw [hiv]; rfl)
  obtain ⟨iv', hiv'⟩ := Option.isSome_iff_exists.1 hsome
  refine ⟨iv', hiv', ?_⟩
  rcases (h.grows hv hroot).record hiv' with ⟨old, hold, ht⟩ | hnew
  · rw [hiv] at hold
    cases hold
    rw [isDir_of_fileType_eq ht, hd]
  · rw [(hv.fresh hnew).1] at hiv
    cases hiv

/-- Only `rmdir` removes the record of a directory. -/
theorem isDirectory (h : Writes db l c main dss) (hv : l.tx.Valid db next) (hw : db.Wf next)
    (hroot : ROOT_INODE ∉ l.files) (hfiles : ∀ i ∈ l.files, ¬db.IsDirectory i) (hq : db.IsDirectory q) :
    (db.applyBatch main).IsDirectory q ∨
      (c.isRmdir = true ∧ (db.applyBatch main).inode q = none ∧ q ∈ l.tx.emptyChecks) := by
  have hkeep := h.isDirectory_of_not_removes hv hroot hq
  -- what loses its record is not `q` when it is a file
  have hfile : ∀ {p n v}, db.entry p n = some v → isDir v.mode = false → v.inode ≠ q := by
    rintro p n v he hd rfl
    obtain ⟨iv, hiv, hdir⟩ := hq
    rw [hw.isDir_eq he hiv, hd] at hdir
    cases hdir
  cases h with
  | create hc hnl he hi hx hkind hr => exact Or.inl (hkeep (BatchOp.not_removes_creation hx))
  | unlinkDrop he hd hi hz hr =>
      have hne := hfile he hd
      exact Or.inl (hkeep (by simp [BatchOp.Removes, hne]))
  | @rmdir p n v iv ts he hd hi hemp hne hr =>
      by_cases e : q = v.inode
      · exact Or.inr ⟨rfl, by rw [Change.inode_rmdir, if_pos e], e ▸ hemp⟩
      · exact Or.inl (hkeep (by simp [BatchOp.Removes, Ne.symm e]))
  | @rename p n np nn v srcIv vic ts he hi hvic hemp hr =>
      refine Or.inl (hkeep (not_removes_renameOps hvic fun hdel => ?_))
      obtain ⟨d, iv, hdst, hd, hmode, -⟩ := hvic.delete_eq hdel
      exact hfile hdst hmode hd
  | @drop i hf hr =>
      have hne : i ≠ q := fun e => hfiles i hf (e ▸ hq)
      exact Or.inl (hkeep (by simp [BatchOp.Removes, hne]))
  | compact hi hs hk hr =>
      refine Or.inl (hkeep fun op ho => ?_)
      rcases List.mem_cons.1 ho with rfl | ho
      · exact id
      · obtain ⟨k, -, rfl⟩ := List.mem_map.1 ho
        exact id
  | _ => exact Or.inl (hkeep (by simp [BatchOp.Removes]))

/-- The call has found `q` empty and does not add to it; `rmdir` leaves no record of it in `db'`. -/
def Removed (l : Local) (c : Call) (db' : Db) (q : Inode) : Prop :=
  q ∈ l.tx.emptyChecks ∧ c.adds ≠ some q ∧ (c.isRmdir = true → db'.inode q = none)

/-- A directory loses its name in `rmdir`, and in a rename that replaces it. -/
theorem named (h : Writes db l c main dss) (hw : db.Wf next) (hq : db.IsDirectory q) (hn : db.Named q) :
    (db.applyBatch main).Named q ∨ Removed l c (db.applyBatch main) q := by
  obtain ⟨a, b, w, hwab, rfl⟩ := hn
  have hdir : isDir w.mode = true := by
    obtain ⟨iv, hiv, hd⟩ := hq
    rw [← hw.isDir_eq hwab hiv, hd]
  by_cases ht : (a, b) ∈ c.takes
  · cases h with
    | @unlinkKeep p n v iv ts ts' he hd hi hr =>
        cases List.mem_singleton.1 ht
        rw [hwab] at he
        cases he
        rw [hdir] at hd
        cases hd
    | @unlinkDrop p n v iv ts he hd hi hz hr =>
        cases List.mem_singleton.1 ht
        rw [hwab] at he
        cases he
        rw [hdir] at hd
        cases hd
    | @rmdir p n v iv ts he hd hi hemp hne hr =>
        cases List.mem_singleton.1 ht
        rw [hwab] at he
        cases he
        exact Or.inr ⟨hemp, by simp [Call.adds], fun _ => by rw [Change.inode_rmdir, if_pos rfl]⟩
    | @rename p n np nn v srcIv vic ts he hi hvic hemp hr =>
        have hcases : (a, b) = (p, n) ∨ (a, b) = (np, nn) := by simpa [Call.takes] using ht
        rcases hcases with e | e
        · cases e
          rw [hwab] at he
          cases he
          exact Or.inl ⟨np, nn, ⟨w.inode, srcIv.mode⟩, by rw [entry_renameOps, if_pos ⟨rfl, rfl⟩], rfl⟩
        · cases e
          rw [hwab] at hvic
          have hwas : vic.wasDir = true := by rw [hvic.isDir_eq.2, ← hvic.isDir_eq.1, hdir]
          obtain ⟨hcheck, -, hne⟩ := hemp w hwab hwas
          exact Or.inr ⟨hcheck, fun e => hne (Option.some.inj e).symm, by simp [Call.isRmdir]⟩
    | create hc => cases c <;> cases hc <;> cases ht
    | rewrite hc => cases c <;> cases hc <;> cases ht
    | _ => cases ht
  · exact Or.inl ⟨a, b, w, h.entry_kept hwab ht, rfl⟩

/-- **A directory that exists does so after the commit**, unless the call has found it empty. -/
theorem existing (h : Writes db l c main dss) (hv : l.tx.Valid db next) (hw : db.Wf next)
    (hroot : ROOT_INODE ∉ l.files) (hfiles : ∀ i ∈ l.files, ¬db.IsDirectory i) (hq : db.Existing q) :
    (db.applyBatch main).Existing q ∨ Removed l c (db.applyBatch main) q := by
  rcases h.isDirectory hv hw hroot hfiles hq.1 with hdir | ⟨hrm, hnone, hemp⟩
  · rcases hq.2 with rfl | hn
    · exact Or.inl ⟨hdir, Or.inl rfl⟩
    · rcases h.named hw hq.1 hn with hn | hrm
      · exact Or.inl ⟨hdir, Or.inr hn⟩
      · exact Or.inr hrm
  · refine Or.inr ⟨hemp, fun e => ?_, fun _ => hnone⟩
    cases c <;> cases hrm
    cases e

theorem link_parent (h : Writes db l c main dss) (hl : c.isLink = true) {p : Inode}
    (hp : c.adds = some p) : db.IsDirectory p := by
  cases h with
  | link hi hd he hdir hlock hr =>
      cases hp
      exact hdir
  | create hc hnl =>
      rw [hl] at hnl
      cases hnl
  | rewrite hc =>
      cases c <;> cases hl
      cases hc
  | _ => cases hl

end Writes

theorem Folds.existing {ps : List Inode} {db db' : Db} (h : Folds ps db db') {q : Inode}
    (hq : db.Existing q) : db'.Existing q := by
  obtain ⟨⟨iv, hiv, hd⟩, hn⟩ := hq
  obtain ⟨iv', hiv'⟩ := h.stays hiv
  obtain ⟨old, hold, hm⟩ := h.record hiv'
  rw [hiv] at hold
  cases hold
  refine ⟨⟨iv', hiv', by rw [hm, hd]⟩, hn.imp id fun ⟨a, b, w, hw, e⟩ => ⟨a, b, w, ?_, e⟩⟩
  rw [h.entry, hw]

namespace Committing

variable {cfg : Config} {c : Call} {l : Local} {db : Db} {next : Nat} {q : Inode}

theorem existing (h : Committing cfg c l db) (hv : l.tx.Valid db next) (hw : db.Wf next)
    (hroot : ROOT_INODE ∉ l.files) (hfiles : ∀ i ∈ l.files, ¬db.IsDirectory i) (hq : db.Existing q) :
    (db.applyBatch l.tx.batch).Existing q ∨ Writes.Removed l c (db.applyBatch l.tx.batch) q := by
  obtain ⟨main, dss, rest, hb, hm, hp⟩ := h
  rw [hb, Db.applyBatch_append]
  rcases hm.existing hv hw hroot hfiles hq with hex | ⟨hemp, hadds, hrm⟩
  · exact Or.inl (hp.folds.existing hex)
  · refine Or.inr ⟨hemp, hadds, fun hc => ?_⟩
    cases hi : ((db.applyBatch main).applyBatch rest).inode q with
    | none => rfl
    | some iv =>
        obtain ⟨old, hold, -⟩ := hp.folds.record hi
        rw [hrm hc] at hold
        cases hold

theorem new_entry (h : Committing cfg c l db) {p : Inode} {n : Name} {v : DirValue}
    (he : (db.applyBatch l.tx.batch).entry p n = some v) :
    db.entry p n = some v ∨
      (c.adds = some p ∧ (c.isLink = true → db.IsDirectory p ∧ .inode p ∈ l.tx.locks)) := by
  obtain ⟨main, dss, rest, hb, hm, hp⟩ := h
  rw [hb, Db.applyBatch_append, hp.folds.entry] at he
  exact (hm.new_entry he).imp id And.left

theorem link_parent (h : Committing cfg c l db) (hl : c.isLink = true) {p : Inode}
    (hp : c.adds = some p) : db.IsDirectory p := by
  obtain ⟨main, dss, rest, hb, hm, -⟩ := h
  exact hm.link_parent hl hp

end Committing

/-! ## The invariant -/

/-- A call that adds under `d` may go on: `d` exists, or its record is gone and `link` will see that. -/
def Db.AddsUnder (db : Db) (c : Call) (d : Inode) : Prop :=
  db.Existing d ∨ (c.isLink = true ∧ ¬db.IsDirectory d)

/-- No call adds under a directory that another one has found empty; only `link` and `rmdir` may meet,
because both lock the directory's record. -/
def AddersApart (c : FsConf) : Prop :=
  Apart (fun a b : FsThread => a.result.isNone = true → ∀ d ∈ a.tag.adds, d ∈ b.loc.tx.emptyChecks →
    a.tag.isLink = true ∧ b.tag.isRmdir = true) c.threads

instance : DecidablePred AddersApart := fun c => by
  unfold AddersApart
  infer_instance

structure UnderExisting (c : FsConf) : Prop where
  entries : ∀ {p n v}, c.shared.db.entry p n = some v → c.shared.db.Existing p
  adders : Pool (fun th : FsThread => th.result.isNone = true → ∀ d ∈ th.tag.adds,
    c.shared.db.AddsUnder th.tag d) c.threads
  empty : Pool (fun th : FsThread => ∀ d ∈ th.loc.tx.emptyChecks,
    .inode d ∈ th.loc.tx.locks ∧ ∀ n, c.shared.db.entry d n = none) c.threads

theorem Call.adds_parent {c : Call} {d : Inode} (h : d ∈ c.adds) : d ∈ c.parents := by
  cases c <;> cases h <;> simp [Call.parents, Call.folds]

/-- Locks are kept until the transaction ends, and a directory is found empty in the committed state. -/
theorem Acts.emptyChecks {cfg : Config} {strict : Prop} {call : Call} {os : List FsThread} {e : Eff}
    {l l' : Local} {s s' : Server} {r : e.Res} (h : Acts cfg os e l s r l' s')
    (hpre : (contract cfg strict call).pre e l) {d : Inode} (hd : d ∈ l'.tx.emptyChecks) :
    (d ∈ l.tx.emptyChecks ∨ (.inode d ∈ l.tx.locks ∧ s.db.isDirEmpty d = true)) ∧
      ∀ row ∈ l.tx.locks, row ∈ l'.tx.locks := by
  cases h with
  | failed hf =>
      cases e with
      | commit => cases hd
      | _ => exact ⟨Or.inl hd, fun row hr => hr⟩
  | done hb =>
      cases e with
      | isDirEmpty q =>
          obtain ⟨hlock, hbatch⟩ := hpre
          have hd' : d ∈ (if (s.db.applyBatch l.tx.batch).isDirEmpty q then q :: l.tx.emptyChecks
            else l.tx.emptyChecks) := hd
          refine ⟨?_, fun row hr => hr⟩
          rw [hbatch] at hd'
          split at hd'
          · rename_i hempty
            rcases List.mem_cons.1 hd' with rfl | hd'
            · exact Or.inr ⟨hlock, hempty⟩
            · exact Or.inl hd'
          · exact Or.inl hd'
      | beginWrite => cases hd
      | dropBatch => cases hd
      | commit => cases hd
      | getForUpdateDirEntry p m => exact ⟨Or.inl hd, fun row hr => List.mem_cons_of_mem _ hr⟩
      | getForUpdateInode i => exact ⟨Or.inl hd, fun row hr => List.mem_cons_of_mem _ hr⟩
      | push op => exact ⟨Or.inl hd, fun row hr => List.mem_cons_of_mem _ hr⟩
      | _ => exact ⟨Or.inl hd, fun row hr => hr⟩

namespace UnderExisting

variable {cfg : Config} {strict : Prop} {c : FsConf} {n : Nat} {call : Call}
  {k : Eff.commit.Res → Prog Eff Eff.Res Reply} {l : Local}

/-- A call that commits adds under an existing directory. -/
theorem adds (h : UnderExisting c) {e : Eff} {k : e.Res → Prog Eff Eff.Res Reply}
    (hn : c.threads[n]? = some ⟨call, .call e k, l⟩) (hcommit : Committing cfg call l c.shared.db)
    {p : Inode} (hp : call.adds = some p) : c.shared.db.Existing p := by
  rcases h.adders n _ hn rfl p hp with hex | ⟨hl, hno⟩
  · exact hex
  · exact absurd (hcommit.link_parent hl hp) hno

section

variable (h : UnderExisting c) (hi : Isolated c) (hr : Roles c)
  (hn : c.threads[n]? = some ⟨call, .call Eff.commit k, l⟩)
  (hcommit : Committing cfg call l c.shared.db)

include hi hr hn hcommit

/-- What exists after a commit did before, or was removed by it. -/
theorem existing_commit {q : Inode} (hq : c.shared.db.Existing q) :
    (c.shared.db.applyBatch l.tx.batch).Existing q ∨
      Writes.Removed l call (c.shared.db.applyBatch l.tx.batch) q := by
  refine hcommit.existing (hi.valid n _ hn) hi.wf (hi.files n _ hn) (fun i hm => ?_) hq
  rintro ⟨iv, hiv, hd⟩
  have hfile := (hr.files n _ hn i hm).2 iv hiv
  rw [hd] at hfile
  cases hfile

/-- A parent of a running call that is no directory any more does not become one. -/
theorem not_isDirectory_commit {m : Nat} {th : FsThread} (hm : c.threads[m]? = some th) {d : Inode}
    (hd : d ∈ th.tag.adds) (hno : ¬c.shared.db.IsDirectory d) :
    ¬(c.shared.db.applyBatch l.tx.batch).IsDirectory d := by
  rintro ⟨iv', hiv', hdir⟩
  have hborn := (hr.parents m th hm d (Call.adds_parent hd)).1
  rcases (hcommit.grows (hi.valid n _ hn) (hi.files n _ hn)).record hiv' with ⟨iv, hiv, ht⟩ | hnew
  · exact hno ⟨iv, hiv, by rw [← isDir_of_fileType_eq ht, hdir]⟩
  · exact hborn (Or.inr ⟨_, List.mem_of_getElem? hn, hnew⟩)

include h

theorem commit (hH : AddersApart c) {r : Eff.commit.Res} :
    UnderExisting ⟨{ c.shared with db := c.shared.db.applyBatch l.tx.batch },
      c.threads.set n ⟨call, k r, ⟨{ retired := l.tx.retiring }, l.files⟩⟩⟩ := by
  have hempty := h.empty n _ hn
  refine ⟨fun {p m v} he => ?_, ?_, ?_⟩
  · -- the parent of an entry exists, and is not what the commit removes
    rcases hcommit.new_entry he with hold | ⟨hadds, -⟩
    · rcases existing_commit hi hr hn hcommit (h.entries hold) with hex | hrem
      · exact hex
      · have hnone := (hempty p hrem.1).2 m
        rw [hold] at hnone
        cases hnone
    · rcases existing_commit hi hr hn hcommit (h.adds hn hcommit hadds) with hex | hrem
      · exact hex
      · exact absurd hadds hrem.2.1
  · refine h.adders.set (fun _ d hd => ?_) fun m th hm hth hold hrun d hd => ?_
    · rcases h.adders n _ hn rfl d hd with hex | ⟨hl, hno⟩
      · rcases existing_commit hi hr hn hcommit hex with hex | hrem
        · exact Or.inl hex
        · exact absurd hd hrem.2.1
      · exact Or.inr ⟨hl, not_isDirectory_commit hi hr hn hcommit hn hd hno⟩
    · rcases hold hrun d hd with hex | ⟨hl, hno⟩
      · rcases existing_commit hi hr hn hcommit hex with hex | hrem
        · exact Or.inl hex
        · obtain ⟨hl, hrm⟩ := hH m n th _ hm hth hn hrun d hd hrem.1
          refine Or.inr ⟨hl, ?_⟩
          rintro ⟨iv, hiv, -⟩
          have hnone := hrem.2.2 hrm
          rw [hiv] at hnone
          cases hnone
      · exact Or.inr ⟨hl, not_isDirectory_commit hi hr hn hcommit hth hd hno⟩
  · refine h.empty.set (fun d hd => by cases hd) fun m th hm hth hold d hd => ⟨(hold d hd).1, fun b => ?_⟩
    cases he : (c.shared.db.applyBatch l.tx.batch).entry d b with
    | none => rfl
    | some v =>
        rcases hcommit.new_entry he with hold' | ⟨hadds, hlink⟩
        · rw [(hold d hd).2 b] at hold'
          cases hold'
        · -- only `link` gets here, and both have locked the directory's record
          obtain ⟨hl, -⟩ := hH n m _ th (Ne.symm hm) hn hth rfl d hadds hd
          exact absurd (hold d hd).1 (hi.locks n m _ th (Ne.symm hm) hn hth _ (hlink hl).2)

end

/-- An effect that leaves records and entries. -/
theorem quiet {e : Eff} {k : e.Res → Prog Eff Eff.Res Reply} {r : e.Res} {l' : Local} {s' : Server}
    (h : UnderExisting c) (hn : c.threads[n]? = some ⟨call, .call e k, l⟩)
    (hpre : (contract cfg strict call).pre e l)
    (ha : Acts cfg (c.threads.eraseIdx n) e l c.shared r l' s')
    (hin : s'.db.inodes = c.shared.db.inodes) (hen : s'.db.dirEntries = c.shared.db.dirEntries) :
    UnderExisting ⟨s', c.threads.set n ⟨call, k r, l'⟩⟩ := by
  have hi : ∀ i, s'.db.inode i = c.shared.db.inode i := fun i => by unfold Db.inode; rw [hin]
  have he : ∀ p m, s'.db.entry p m = c.shared.db.entry p m := fun p m => by unfold Db.entry; rw [hen]
  have hex : ∀ {q}, c.shared.db.Existing q → s'.db.Existing q := by
    rintro q ⟨⟨iv, hiv, hd⟩, hname⟩
    exact ⟨⟨iv, (hi q).trans hiv, hd⟩, hname.imp id fun ⟨a, b, w, hw, e⟩ => ⟨a, b, w, (he a b).trans hw, e⟩⟩
  have hadd : ∀ {tag d}, c.shared.db.AddsUnder tag d → s'.db.AddsUnder tag d := by
    rintro tag d (hq | ⟨hl, hno⟩)
    · exact Or.inl (hex hq)
    · exact Or.inr ⟨hl, fun ⟨iv, hiv, hd⟩ => hno ⟨iv, (hi d).symm.trans hiv, hd⟩⟩
  refine ⟨fun {p m v} hpm => hex (h.entries ((he p m).symm.trans hpm)), ?_, ?_⟩
  · exact h.adders.set (fun _ d hd => hadd (h.adders n _ hn rfl d hd))
      fun m th _ _ hold hrun d hd => hadd (hold hrun d hd)
  · refine h.empty.set (fun d hd => ?_) fun m th _ _ hold d hd =>
      ⟨(hold d hd).1, fun b => (he d b).trans ((hold d hd).2 b)⟩
    obtain ⟨hcheck, hlocks⟩ := ha.emptyChecks hpre hd
    rcases hcheck with hold | ⟨hlock, hempty⟩
    · obtain ⟨hlock, hnone⟩ := h.empty n _ hn d hold
      exact ⟨hlocks _ hlock, fun b => (he d b).trans (hnone b)⟩
    · exact ⟨hlocks _ hlock, fun b => (he d b).trans (Db.isDirEmpty_iff.1 hempty b)⟩

end UnderExisting

/-! ## Runs -/

/-- Every parent argument is a directory of the tree. -/
def Call.ParentsInTree (db : Db) (c : Call) : Prop := ∀ p ∈ c.parents, db.Existing p

instance (db : Db) (c : Call) : Decidable (c.ParentsInTree db) := by
  unfold Call.ParentsInTree
  infer_instance

section

variable {cfg : Config} {s₀ : Server} {c : FsConf}

theorem underExisting_of_reach (h₀ : s₀.Starts)
    (hs : ∀ p n v, s₀.db.entry p n = some v → s₀.db.Existing p)
    (h : Reach (fsSystem cfg fun s call => call.ParentsInTree s.db) AddersApart ⟨s₀, []⟩ c) :
    ((Roles c ∧ UnderExisting c) ∧ Isolated c) ∧
      ∀ th ∈ c.threads, wp (contract cfg False th.tag) th.prog (fun _ l => l.Idle) th.loc := by
  refine isolated_invariant False (fun c => Roles c ∧ UnderExisting c) (fun hf => hf.elim) rfl h₀.wf
    (fun _ => ⟨.of_server h₀, ?_⟩) (fun {c call} hH hi hX hadm => ⟨?_, ?_⟩) ?_ h
  · exact ⟨fun he => hs _ _ _ he, fun m th hm => by simp at hm, fun m th hm => by simp at hm⟩
  · exact hX.1.start hi fun p hp => (hadm p hp).1
  · refine ⟨hX.2.entries, hX.2.adders.append fun _ d hd => ?_, hX.2.empty.append fun d hd => by cases hd⟩
    exact Or.inl (hadm d (Call.adds_parent hd))
  · intro c n call e k l l' r s' hH hi hX hn hpre ha hH'
    refine ⟨hX.1.act hi hn hpre ha, ?_⟩
    rcases ha.db_cases with ⟨rfl, rfl, rfl⟩ | ⟨hin, hen⟩
    · exact hX.2.commit hi hX.1 hn (hpre _ _ (hi.valid n _ hn) hi.wf) hH
    · exact hX.2.quiet hn hpre ha hin hen

/-- **Entries lie under existing directories**, in every state of every run in which no call adds under a
directory that another has found empty; and every commit that adds an entry adds it to a directory that
exists before and after. -/
theorem parents_exist {es : List FsEvent} (h₀ : s₀.Starts)
    (hs : ∀ p n v, s₀.db.entry p n = some v → s₀.db.Existing p)
    (h : Run (fsSystem cfg fun s call => call.ParentsInTree s.db) AddersApart ⟨s₀, []⟩ es c) :
    (∀ p n v, c.shared.db.entry p n = some v → c.shared.db.Existing p) ∧
    ∀ ev ∈ es, ev.commits = true → ∀ p, ev.tag.adds = some p →
      ev.before.db.Existing p ∧ ev.after.db.Existing p := by
  refine ⟨fun p n v he => (underExisting_of_reach h₀ hs h.reach).1.1.2.entries he, ?_⟩
  refine Run.forall_events (fun {c n call e k l l' r s'} hreach hn ha hc p hp => ?_) h
  obtain ⟨⟨⟨hr, hu⟩, hi⟩, hwp⟩ := underExisting_of_reach h₀ hs hreach
  rcases ha.committed_cases with ⟨rfl, -, rfl, -⟩ | ⟨hno, -⟩
  · have hcommit : Committing cfg call l c.shared.db :=
      (hwp _ (List.mem_of_getElem? hn)).1 _ _ (hi.valid n _ hn) hi.wf
    have hex := hu.adds hn hcommit hp
    refine ⟨hex, ?_⟩
    rcases UnderExisting.existing_commit hi hr hn hcommit hex with hex' | hrem
    · exact hex'
    · exact absurd hp hrem.2.1
  · have hyes : e.committed r = true := hc
    rw [hno] at hyes
    cases hyes

end

/-- Directory 2 is made as `1/a`.  `rmdir` of it has found it empty when `create` of `2/b` starts, and goes
on when that has returned. -/
def createdWhileRemoving : List (Choice Call) :=
  .start (.mkdir ROOT_INODE [97] 0o755 0 0) :: List.replicate 18 (.run 0) ++
    .start (.rmdir ROOT_INODE [97]) :: List.replicate 4 (.run 1) ++
      .start (.create 2 [98] 0o644 0 0) :: List.replicate 17 (.run 2) ++ List.replicate 15 (.run 1)

/-- Both return `Ok`: directory 2 is gone, and an entry lies under it. -/
theorem entry_under_removed : ∃ c,
    Reach (fsSystem {} fun s call => call.ParentsInTree s.db) (fun _ => True) ⟨Server.fresh {}, []⟩ c ∧
    c.threads.map (fun th => (th.tag, th.result.map Reply.isOk)) =
      [(.mkdir ROOT_INODE [97] 0o755 0 0, some true), (.rmdir ROOT_INODE [97], some true),
        (.create 2 [98] 0o644 0 0, some true)] ∧
    (c.shared.db.entry 2 [98]).isSome = true ∧ c.shared.db.entry ROOT_INODE [97] = none ∧
    ¬c.shared.db.Existing 2 := by
  have hrun : ((fsScheduler {} (fun s call => call.ParentsInTree s.db) (fun _ => True)).run
      createdWhileRemoving ⟨Server.fresh {}, []⟩).map (fun c =>
        (c.threads.map (fun th => (th.tag, th.result.map Reply.isOk)),
          (c.shared.db.entry 2 [98]).isSome, c.shared.db.entry ROOT_INODE [97],
          decide (c.shared.db.Existing 2))) =
      some ([(.mkdir ROOT_INODE [97] 0o755 0 0, some true), (.rmdir ROOT_INODE [97], some true),
        (.create 2 [98] 0o644 0 0, some true)], true, none, false) := by decide +kernel
  obtain ⟨c, hc, hv⟩ := Option.map_eq_some_iff.1 hrun
  obtain ⟨hres, hv⟩ := Prod.mk.inj hv
  obtain ⟨hentry, hv⟩ := Prod.mk.inj hv
  obtain ⟨hname, hex⟩ := Prod.mk.inj hv
  exact ⟨c, fsScheduler_reach {} _ (fun _ => True) createdWhileRemoving trivial hc, hres, hentry, hname,
    of_decide_eq_false hex⟩

/-- `link` puts `2/b` while `rmdir` waits for the record of directory 2. -/
def linkedWhileRemoving : List (Choice Call) :=
  .start (.mkdir ROOT_INODE [97] 0o755 0 0) :: List.replicate 18 (.run 0) ++
    .start (.create ROOT_INODE [102] 0o644 0 0) :: List.replicate 17 (.run 1) ++
      .start (.link 2 [98] 3) :: List.replicate 5 (.run 2) ++
        .start (.rmdir ROOT_INODE [97]) :: List.replicate 2 (.run 3) ++ List.replicate 12 (.run 2) ++
          List.replicate 3 (.run 3)

theorem parents_exist_linked : ∃ es c,
    Run (fsSystem {} fun s call => call.ParentsInTree s.db) AddersApart ⟨Server.fresh {}, []⟩ es c ∧
    c.threads.map (fun th => th.result.map Reply.isOk) = [some true, some true, some true, some false] ∧
    (c.shared.db.entry 2 [98]).isSome = true ∧ c.shared.db.Existing 2 := by
  have hrun : ((fsScheduler {} (fun s call => call.ParentsInTree s.db) AddersApart).run
      linkedWhileRemoving ⟨Server.fresh {}, []⟩).map (fun c =>
        (c.threads.map (fun th => th.result.map Reply.isOk), (c.shared.db.entry 2 [98]).isSome)) =
      some ([some true, some true, some true, some false], true) := by decide +kernel
  obtain ⟨c, hc, hv⟩ := Option.map_eq_some_iff.1 hrun
  obtain ⟨hres, hentry⟩ := Prod.mk.inj hv
  have hreach := fsScheduler_reach {} _ AddersApart linkedWhileRemoving (by decide) hc
  obtain ⟨es, hes⟩ := Run.of_reach hreach
  obtain ⟨v, hv⟩ := Option.isSome_iff_exists.1 hentry
  refine ⟨es, c, hes, hres, hentry, (parents_exist (Server.starts_fresh {}) ?_ hes).1 2 [98] v hv⟩
  intro p n v he
  cases he

end RucksFs
