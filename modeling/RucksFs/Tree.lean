import RucksFs.Lib.Rooted
import RucksFs.Entries

/-!
# The directory tree

The directories named by entries should form a tree with root inode 1.

* `rename_into_itself` — `rename` moves a directory into itself: it becomes its own ancestor and
  is cut off from the root.
* `directories_form_tree` — without such a move, and as long as the parent arguments are the root
  or have a name, every reached state is a tree.

Only reachability has to be carried along a run (`Db.AllReached`); one name per directory is part
of `Db.Wf`, and the two exclude cycles (`Rooted.not_on_cycle`).
-/

set_option autoImplicit false

namespace RucksFs

open Server Relation

/-- `c` is a directory with an entry under `p`. -/
def Db.Child (db : Db) (p c : Inode) : Prop :=
  ∃ n v, db.entry p n = some v ∧ isDir v.mode = true ∧ v.inode = c

/-- The directories form a tree. -/
structure Db.IsTree (db : Db) : Prop where
  unique : ∀ {p n v p' n' v'}, db.entry p n = some v → isDir v.mode = true →
    db.entry p' n' = some v' → v'.inode = v.inode → p' = p ∧ n' = n
  acyclic : ∀ {p d}, db.Child p d → ¬TransGen db.Child d d
  reached : ∀ {p d}, db.Child p d → ReflTransGen db.Child ROOT_INODE d

/-- The condition on the calls: parents that are the root or have a name, and no directory moved
below itself. -/
def Call.KeepsTree (db : Db) (c : Call) : Prop :=
  (∀ p ∈ c.parents, p = ROOT_INODE ∨ db.Named p) ∧
  ∀ p n np nn v, c = .rename p n np nn → db.entry p n = some v → isDir v.mode = true →
    ¬ReflTransGen db.Child v.inode np

/-! ## Entries put and taken -/

/-- Every directory that has a name is reached from the root. -/
def Db.AllReached (db : Db) : Prop :=
  ∀ p c, db.Child p c → ReflTransGen db.Child ROOT_INODE c

namespace Db.AllReached

variable {db D : Db} {next : Nat} {p : Inode} {n : Name} {v : DirValue}

theorem child_unique (hw : db.Wf next) {a b c : Inode} (ha : db.Child a c) (hb : db.Child b c) :
    a = b := by
  obtain ⟨_, _, he, hd, hi⟩ := ha
  obtain ⟨_, _, he', -, hi'⟩ := hb
  exact (hw.dir_unique he he' (hi.trans hi'.symm) hd).1

theorem not_child_root (hw : db.Wf next) (a : Inode) : ¬db.Child a ROOT_INODE := by
  rintro ⟨_, _, he, -, hi⟩
  exact hw.entry_ne_root he hi

theorem not_on_cycle (h : db.AllReached) (hw : db.Wf next) {a c : Inode} (hc : db.Child a c) :
    ¬TransGen db.Child c c :=
  Rooted.not_on_cycle (r := db.Child) (fun _ _ _ => child_unique hw) (not_child_root hw) (h _ _ hc)

theorem not_child_of_empty {d c : Inode} (h : db.isDirEmpty d = true) : ¬db.Child d c := by
  rintro ⟨m, w, he, -, -⟩
  rw [Db.isDirEmpty_iff.1 h m] at he
  cases he

theorem congr (h : db.AllReached) (hD : D.dirEntries = db.dirEntries) : D.AllReached := by
  have hchild : D.Child = db.Child := by
    unfold Db.Child Db.entry
    rw [hD]
  unfold Db.AllReached
  rw [hchild]
  exact h

theorem put (h : db.AllReached) (hD : D.dirEntries = db.dirEntries.put (toLex (p, n)) v)
    (he : db.entry p n = none)
    (hp : isDir v.mode = true → ReflTransGen db.Child ROOT_INODE p) : D.AllReached := by
  have hen := Db.entry_of_put hD
  have hle : ∀ a c, db.Child a c → D.Child a c := by
    rintro a c ⟨m, w, hm, hd, hi⟩
    refine ⟨m, w, ?_, hd, hi⟩
    rw [hen, if_neg, hm]
    rintro ⟨rfl, rfl⟩
    rw [he] at hm
    cases hm
  rintro a c ⟨m, w, hm, hd, rfl⟩
  rcases Db.entry_some_of_put hD hm with ⟨rfl, rfl, rfl⟩ | hm
  · refine (ReflTransGen.mono hle _ _ (hp hd)).tail ⟨m, w, ?_, hd, rfl⟩
    rw [hen, if_pos ⟨rfl, rfl⟩]
  · exact ReflTransGen.mono hle _ _ (h a _ ⟨m, w, hm, hd, rfl⟩)

theorem erase (h : db.AllReached) (hw : db.Wf next)
    (hD : D.dirEntries = db.dirEntries.erase (toLex (p, n))) (he : db.entry p n = some v)
    (hemp : isDir v.mode = true → db.isDirEmpty v.inode = true) : D.AllReached := by
  have hen := Db.entry_of_erase hD
  rintro a c ⟨m, w, hm, hd, rfl⟩
  obtain ⟨hk, hm⟩ := Db.entry_some_of_erase hD hm
  have hleaf : ∀ b c, (isDir v.mode = true ∧ b = v.inode) → ¬db.Child b c := by
    rintro b c ⟨hvd, rfl⟩
    exact not_child_of_empty (hemp hvd)
  refine Rooted.remove hleaf ?_ (h a _ ⟨m, w, hm, hd, rfl⟩) ?_
  · rintro a b ⟨m', w', hm', hd', rfl⟩ hg
    refine ⟨m', w', ?_, hd', rfl⟩
    rw [hen, if_neg, hm']
    rintro ⟨rfl, rfl⟩
    rw [he] at hm'
    cases hm'
    exact hg ⟨hd', rfl⟩
  · rintro ⟨hvd, hi⟩
    exact hk (hw.dir_unique hm he hi hd)

end Db.AllReached

/-! ## Rename -/

namespace Db.AllReached

variable {db : Db} {next : Nat} {p : Inode} {n : Name} {np : Inode} {nn : Name} {v : DirValue}
  {srcIv : InodeValue} {vic : Victim} {ts : Nat}

/-- A file is moved: the directories stay. -/
theorem rename_file (h : db.AllReached) (he : db.entry p n = some v) (hd : isDir v.mode = false)
    (hs : isDir srcIv.mode = false)
    (hdst : ∀ d, db.entry np nn = some d → isDir d.mode = false) :
    (db.applyBatch (renameOps p n np nn v.inode srcIv (db.entry np nn) vic ts)).AllReached := by
  have hle : ∀ a c, db.Child a c →
      (db.applyBatch (renameOps p n np nn v.inode srcIv (db.entry np nn) vic ts)).Child a c := by
    rintro a c ⟨m, w, hm, hwd, rfl⟩
    refine ⟨m, w, ?_, hwd, rfl⟩
    rw [entry_renameOps, if_neg, if_neg, hm]
    · rintro ⟨rfl, rfl⟩
      rw [he] at hm
      cases hm
      rw [hd] at hwd
      cases hwd
    · rintro ⟨rfl, rfl⟩
      rw [hdst w hm] at hwd
      cases hwd
  rintro a c ⟨m, w, hm, hwd, rfl⟩
  rcases entry_some_renameOps hm with ⟨-, -, rfl⟩ | ⟨-, -, hm⟩
  · rw [hs] at hwd
    cases hwd
  · exact ReflTransGen.mono hle _ _ (h a _ ⟨m, w, hm, hwd, rfl⟩)

/-- A directory is moved onto its own name. -/
theorem rename_self (h : db.AllReached) (he : db.entry p n = some v)
    (ht : isDir srcIv.mode = isDir v.mode) :
    (db.applyBatch (renameOps p n p n v.inode srcIv (db.entry p n) vic ts)).AllReached := by
  have hchild : (db.applyBatch (renameOps p n p n v.inode srcIv (db.entry p n) vic ts)).Child =
      db.Child := by
    funext a c
    refine propext ⟨?_, ?_⟩
    · rintro ⟨m, w, hm, hwd, rfl⟩
      rcases entry_some_renameOps hm with ⟨rfl, -, rfl⟩ | ⟨-, -, hm⟩
      · exact ⟨n, v, he, ht ▸ hwd, rfl⟩
      · exact ⟨m, w, hm, hwd, rfl⟩
    · rintro ⟨m, w, hm, hwd, rfl⟩
      by_cases e : a = p ∧ m = n
      · obtain ⟨rfl, rfl⟩ := e
        rw [he] at hm
        cases hm
        exact ⟨m, ⟨v.inode, srcIv.mode⟩, by rw [entry_renameOps, if_pos ⟨rfl, rfl⟩], ht.trans hwd, rfl⟩
      · exact ⟨m, w, by rw [entry_renameOps, if_neg e, if_neg e, hm], hwd, rfl⟩
  unfold Db.AllReached
  rw [hchild]
  exact h

/-- A directory is moved below `np`, which is not below it. -/
theorem rename_dir (h : db.AllReached) (hw : db.Wf next) (he : db.entry p n = some v)
    (hd : isDir v.mode = true) (hs : isDir srcIv.mode = true) (hk : ¬(p = np ∧ n = nn))
    (hemp : ∀ d, db.entry np nn = some d → db.isDirEmpty d.inode = true)
    (hnp : ReflTransGen db.Child ROOT_INODE np) (hout : ¬ReflTransGen db.Child v.inode np) :
    (db.applyBatch (renameOps p n np nn v.inode srcIv (db.entry np nn) vic ts)).AllReached := by
  have hleaf : ∀ b c, (∃ d, db.entry np nn = some d ∧ b = d.inode) → ¬db.Child b c := by
    rintro b c ⟨d, hdst, rfl⟩
    exact not_child_of_empty (hemp d hdst)
  have hsrc : db.Child p v.inode := ⟨n, v, he, hd, rfl⟩
  have hmove := @Rooted.move _ db.Child
    (db.applyBatch (renameOps p n np nn v.inode srcIv (db.entry np nn) vic ts)).Child ROOT_INODE _ hleaf
    v.inode np ?_ ?_ (h.not_on_cycle hw hsrc) hnp hout ?_
  · rintro a c ⟨m, w, hm, hwd, rfl⟩
    rcases entry_some_renameOps hm with ⟨-, -, rfl⟩ | ⟨hkey, -, hm⟩
    · refine hmove (h _ _ hsrc) ?_
      rintro ⟨d, hdst, hi⟩
      exact hk (hw.dir_unique he hdst hi hd)
    · refine hmove (h a _ ⟨m, w, hm, hwd, rfl⟩) ?_
      rintro ⟨d, hdst, hi⟩
      exact hkey (hw.dir_unique hm hdst hi hwd)
  · rintro a b ⟨m, w, hm, hwd, rfl⟩ hne hg
    refine ⟨m, w, ?_, hwd, rfl⟩
    rw [entry_renameOps, if_neg, if_neg, hm]
    · rintro ⟨rfl, rfl⟩
      rw [he] at hm
      cases hm
      exact hne rfl
    · rintro ⟨rfl, rfl⟩
      exact hg ⟨w, hm, rfl⟩
  · exact ⟨nn, ⟨v.inode, srcIv.mode⟩, by rw [entry_renameOps, if_pos ⟨rfl, rfl⟩], hs, rfl⟩
  · rintro ⟨d, hdst, rfl⟩
    have hnone := Db.isDirEmpty_iff.1 (hemp d hdst) nn
    rw [hdst] at hnone
    cases hnone

end Db.AllReached

/-! ## One call -/

theorem Db.AllReached.parent {db : Db} {next : Nat} (h : db.AllReached) (hw : db.Wf next) {p : Inode}
    (hd : db.IsDirectory p) (hp : p = ROOT_INODE ∨ db.Named p) :
    ReflTransGen db.Child ROOT_INODE p := by
  rcases hp with rfl | ⟨q, m, w, he, rfl⟩
  · exact .refl
  · obtain ⟨iv, hi, hdir⟩ := hd
    refine h _ _ ⟨m, w, he, ?_, rfl⟩
    rw [isDir_of_fileType_eq (hw.type_eq he hi), hdir]

theorem Effect.allReached {s s' : Server} {c : Call} {r : Reply} (h : Effect s c r s') (hw : s.Wf)
    (hr : s.db.AllReached) (hp : c.ParentsExist s.db) (hk : c.KeepsTree s.db) :
    s'.db.AllReached := by
  have hpar : ∀ p ∈ c.parents, ReflTransGen s.db.Child ROOT_INODE p :=
    fun p hm => hr.parent hw.db (hp p hm) (hk.1 p hm)
  cases h with
  | quiet => exact hr
  | made hc he hi hx =>
      refine hr.put (Change.dirEntries_create fun op ho => (hx op ho).side) he fun _ => hpar _ ?_
      cases hc <;> exact List.mem_cons_self
  | madeOpen hl ht he hx hr' hh =>
      exact hr.put (Change.dirEntries_create fun op ho => (hx op ho).side) he
        fun _ => hpar _ List.mem_cons_self
  | link ts hi hd he hp' => exact hr.put rfl he fun _ => hpar _ List.mem_cons_self
  | unlinkKeep ts he hd hi hl => exact hr.erase hw.db rfl he fun hd' => by rw [hd] at hd'; cases hd'
  | unlinkDefer ts he hd hi hl hh =>
      exact hr.erase hw.db rfl he fun hd' => by rw [hd] at hd'; cases hd'
  | unlinkDrop he hd hi hl hh => exact hr.erase hw.db rfl he fun hd' => by rw [hd] at hd'; cases hd'
  | rmdir he hd hi hemp => exact hr.erase hw.db rfl he fun _ => hemp
  | @rename p n np nn v srcIv vic ts he hi hv hemp =>
      have ht := isDir_of_fileType_eq (hw.db.type_eq he hi)
      by_cases hkey : p = np ∧ n = nn
      · obtain ⟨rfl, rfl⟩ := hkey
        exact hr.rename_self he ht.symm
      · cases hd : isDir v.mode with
        | false =>
            refine hr.rename_file he hd (ht ▸ hd) fun d hdst => ?_
            rw [hdst] at hv
            exact hv.isDir_eq.1.trans (ht ▸ hd)
        | true =>
            refine hr.rename_dir hw.db he hd (ht ▸ hd) hkey (fun d hdst => hemp d hdst ?_)
              (hpar np (by simp [Call.parents, Call.folds])) (hk.2 p n np nn v rfl he hd)
            rw [hdst] at hv
            exact hv.isDir_eq.2.trans (ht ▸ hd)
  | rewrite => exact hr
  | opened => exact hr
  | openedTrunc => exact hr
  | released => exact hr.congr (by rw [s.checkAndClear_db])
  | releasedDrop =>
      refine hr.congr ?_
      show (Server.checkAndClearDeferredDelete s _).2.db.dirEntries = _
      rw [s.checkAndClear_db]

/-! ## Runs -/

theorem Db.IsTree.of_allReached {db : Db} {next : Nat} (h : db.AllReached) (hw : db.Wf next) :
    db.IsTree where
  unique he hd he' hi :=
    have hkey := hw.dir_unique he he' hi.symm hd
    ⟨hkey.1.symm, hkey.2.symm⟩
  acyclic := h.not_on_cycle hw
  reached := h _ _

/-- **The directories form a tree** after every run of admitted calls that meet `KeepsTree`. -/
theorem directories_form_tree {cfg : Config} {es : List (Call × Reply)} {s : Server}
    (h : Trace (Server.exec cfg) (fun _ s c => c.Admitted s ∧ c.KeepsTree s.db)
      (Server.fresh cfg) es s) : s.db.IsTree := by
  have hinv : s.Wf ∧ s.db.AllReached := by
    refine h.invariant (fun _ s => s.Wf ∧ s.db.AllReached) ⟨Server.wf_fresh cfg, ?_⟩ ?_
    · rintro a c ⟨m, w, he, -⟩
      cases he
    · rintro es s c ⟨hw, hr⟩ ⟨⟨hc, hp⟩, hk⟩
      obtain ⟨s₁, he, hb⟩ := exec_effect cfg s c
      exact ⟨hw.exec cfg c, (he.allReached hw hr hp hk).congr hb.dirEntries⟩
  exact .of_allReached hinv.2 hinv.1.db

/-- `mkdir a`, `mkdir b`, and `a` moved to `b/x`. -/
theorem directories_form_tree_moved :
    let s₁ := ((Server.fresh {}).exec {} (.mkdir 1 [97] 0o755 0 0)).2
    let s₂ := (s₁.exec {} (.mkdir 1 [98] 0o755 0 0)).2
    (s₂.exec {} (.rename 1 [97] 3 [120])).2.db.IsTree := by
  intro s₁ s₂
  have hroot : ∀ {db : Db} {n : Name} {m u g : Nat},
      Call.KeepsTree db (.mkdir ROOT_INODE n m u g) := by
    intro db n m u g
    exact ⟨fun p hp => Or.inl (List.mem_singleton.1 hp), fun _ _ _ _ _ e => by cases e⟩
  have h₁ : Trace (Server.exec {}) (fun _ s c => c.Admitted s ∧ c.KeepsTree s.db)
      (Server.fresh {}) _ s₁ :=
    .snoc (Call.mkdir 1 [97] 0o755 0 0) .nil ⟨⟨by simp, by decide⟩, hroot⟩
  have h₂ : Trace (Server.exec {}) (fun _ s c => c.Admitted s ∧ c.KeepsTree s.db)
      (Server.fresh {}) _ s₂ :=
    .snoc (Call.mkdir 1 [98] 0o755 0 0) h₁ ⟨⟨by simp, by decide⟩, hroot⟩
  have ha : s₂.db.entry 1 [97] = some ⟨2, S_IFDIR ||| 0o755⟩ := by decide
  have hb : s₂.db.entry 1 [98] = some ⟨3, S_IFDIR ||| 0o755⟩ := by decide
  have hempty : s₂.db.isDirEmpty 2 = true := by decide
  refine directories_form_tree (.snoc (Call.rename 1 [97] 3 [120]) h₂ ⟨⟨by simp, by decide⟩, ?_, ?_⟩)
  · intro p hp
    rcases List.mem_cons.1 hp with rfl | hp
    · exact Or.inl rfl
    · obtain rfl := List.mem_singleton.1 hp
      exact Or.inr ⟨1, [98], _, hb, rfl⟩
  · rintro p n np nn v ⟨⟩ hv - hreach
    rw [ha] at hv
    cases hv
    rcases hreach.cases_head with e | ⟨c, hc, -⟩
    · exact absurd e (by decide)
    · exact Db.AllReached.not_child_of_empty hempty hc

/-- `mkdir a` and `rename a a/x`: the rename succeeds, and directory 2 is named only by its own
entry. -/
theorem rename_into_itself :
    let s₁ := ((Server.fresh {}).exec {} (.mkdir 1 [97] 0o755 0 0)).2
    let out := s₁.exec {} (.rename 1 [97] 2 [120])
    out.1.isError = false ∧ out.2.db.entry 2 [120] = some ⟨2, S_IFDIR ||| 0o755⟩ ∧
      out.2.db.names 2 = 1 ∧ ¬out.2.db.IsTree := by
  intro s₁ out
  have he : out.2.db.entry 2 [120] = some ⟨2, S_IFDIR ||| 0o755⟩ := by decide
  refine ⟨by decide, he, by decide, fun h => ?_⟩
  have hchild : out.2.db.Child 2 2 := ⟨[120], _, he, by decide, rfl⟩
  exact h.acyclic hchild (.single hchild)

end RucksFs
