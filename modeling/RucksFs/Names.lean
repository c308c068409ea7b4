import RucksFs.Server.Commits
import RucksFs.Server.Isolation

/-!
# One owner for each name, under any interleaving

Seven operations write directory entries, each after it has locked the entry's key.  Over a whole run:
a creation that returns `Ok` found no entry at its commit, two of them for the same name have a removal
between them, entries stay until a removal or rename takes them, and a removal takes the entry it has
checked.

* `Committing.entry_creates`, `entry_kept`, `entry_removes` — what one commit does to the entries.
* `names_exclusive` — the run theorem, for all calls and in both builds.
-/

set_option autoImplicit false

namespace RucksFs

open Server Prog

/-! ## Commits -/

namespace Writes

variable {db : Db} {l : Local} {c : Call} {main : List BatchOp} {dss : List (Inode × List DeltaOp)}
  {p : Inode} {n : Name} {v : DirValue}

theorem entry_creates (h : Writes db l c main dss) (hc : c.creates = some (p, n)) :
    db.entry p n = none ∧ ∃ v, (db.applyBatch main).entry p n = some v := by
  cases h with
  | @create c q m i iv extra ds ts hc' hnl he hi hx hkind hr =>
      rw [hc] at hc'
      cases hc'
      refine ⟨he, ⟨i, iv.mode⟩, ?_⟩
      rw [Db.entry_of_put (Change.dirEntries_create fun op ho => (hx op ho).side), if_pos ⟨rfl, rfl⟩]
  | @link q m t iv ts ts' hi hd he hp hlock hr =>
      cases hc
      refine ⟨he, ⟨t, iv.mode⟩, ?_⟩
      rw [Db.entry_of_put rfl, if_pos ⟨rfl, rfl⟩]
  | rewrite hp =>
      have hnil := Call.parents_of_rewritten hp
      rw [(Call.parents_of_creates hc).1] at hnil
      cases hnil
  | _ => cases hc

/-- An entry that the call does not take stays. -/
theorem entry_kept (h : Writes db l c main dss) (he : db.entry p n = some v) (ht : (p, n) ∉ c.takes) :
    (db.applyBatch main).entry p n = some v := by
  cases h with
  | @create c q m i iv extra ds ts hc' hnl hq hi hx hkind hr =>
      rw [Db.entry_of_put (Change.dirEntries_create fun op ho => (hx op ho).side), if_neg, he]
      rintro ⟨rfl, rfl⟩
      rw [he] at hq
      cases hq
  | @link q m t iv ts ts' hi hd hq hp hlock hr =>
      rw [Db.entry_of_put rfl, if_neg]
      · exact he
      · rintro ⟨rfl, rfl⟩
        rw [he] at hq
        cases hq
  | @unlinkKeep q m w iv ts ts' hq hd hi =>
      rw [Db.entry_of_erase (p := q) (n := m) rfl, if_neg, he]
      rintro ⟨rfl, rfl⟩
      exact ht List.mem_cons_self
  | @unlinkDrop q m w iv ts hq hd hi hz =>
      rw [Db.entry_of_erase (p := q) (n := m) rfl, if_neg, he]
      rintro ⟨rfl, rfl⟩
      exact ht List.mem_cons_self
  | @rmdir q m w iv ts hq hd hi =>
      rw [Db.entry_of_erase (p := q) (n := m) rfl, if_neg, he]
      rintro ⟨rfl, rfl⟩
      exact ht List.mem_cons_self
  | @rename q m nq nm w srcIv vic ts hq hi hvic hemp hr =>
      rw [entry_renameOps, if_neg, if_neg, he]
      · rintro ⟨rfl, rfl⟩
        exact ht List.mem_cons_self
      · rintro ⟨rfl, rfl⟩
        exact ht (List.mem_cons_of_mem _ List.mem_cons_self)
  | rewrite hi ht hl => exact he
  | drop hf => exact he
  | compact hi hs hk =>
      rw [(folds_compaction hi (foldDeltas_mode _ _)).entry]
      exact he

/-- `unlink` and `rmdir` take away the entry they have read, and no other. -/
theorem entry_removes (h : Writes db l c main dss) (hc : c = .unlink p n ∨ c = .rmdir p n) :
    ∃ v, l.tx.dirReads = [(p, n, some v)] ∧ db.entry p n = some v ∧
      ∀ q m, (db.applyBatch main).entry q m = if q = p ∧ m = n then none else db.entry q m := by
  have hname : c = .unlink p n ∨ c = .rmdir p n := hc
  cases h with
  | @unlinkKeep q m w iv ts ts' hq hd hi hr =>
      obtain ⟨rfl, rfl⟩ : q = p ∧ m = n := by simpa using hname
      exact ⟨w, hr, hq, Db.entry_of_erase rfl⟩
  | @unlinkDrop q m w iv ts hq hd hi hz hr =>
      obtain ⟨rfl, rfl⟩ : q = p ∧ m = n := by simpa using hname
      exact ⟨w, hr, hq, Db.entry_of_erase rfl⟩
  | @rmdir q m w iv ts hq hd hi hemp hne hr =>
      obtain ⟨rfl, rfl⟩ : q = p ∧ m = n := by simpa using hname
      exact ⟨w, hr, hq, Db.entry_of_erase rfl⟩
  | create hc' =>
      rcases hc with rfl | rfl <;> cases hc'
  | rewrite hp =>
      rcases hc with rfl | rfl <;> cases hp
  | _ => simp at hname

end Writes

namespace Committing

variable {cfg : Config} {c : Call} {l : Local} {db : Db} {p : Inode} {n : Name} {v : DirValue}

theorem entry_creates (h : Committing cfg c l db) (hc : c.creates = some (p, n)) :
    db.entry p n = none ∧ ∃ v, (db.applyBatch l.tx.batch).entry p n = some v := by
  obtain ⟨main, dss, rest, hb, hm, hp⟩ := h
  rw [hb, Db.applyBatch_append, hp.folds.entry]
  exact hm.entry_creates hc

theorem entry_kept (h : Committing cfg c l db) (he : db.entry p n = some v) (ht : (p, n) ∉ c.takes) :
    (db.applyBatch l.tx.batch).entry p n = some v := by
  obtain ⟨main, dss, rest, hb, hm, hp⟩ := h
  rw [hb, Db.applyBatch_append, hp.folds.entry]
  exact hm.entry_kept he ht

theorem entry_removes (h : Committing cfg c l db) (hc : c = .unlink p n ∨ c = .rmdir p n) :
    ∃ v, l.tx.dirReads = [(p, n, some v)] ∧ db.entry p n = some v ∧
      ∀ q m, (db.applyBatch l.tx.batch).entry q m = if q = p ∧ m = n then none else db.entry q m := by
  obtain ⟨main, dss, rest, hb, hm, hp⟩ := h
  obtain ⟨v, hr, he, hafter⟩ := hm.entry_removes hc
  refine ⟨v, hr, he, fun q m => ?_⟩
  rw [hb, Db.applyBatch_append, hp.folds.entry, hafter]

end Committing

/-! ## Runs -/

/-- What an effect of a run does to the entries: nothing, or what its call commits. -/
def EntryStep (cfg : Config) (ev : FsEvent) : Prop :=
  (ev.commits = true ∧ Committing cfg ev.tag ev.loc ev.before.db ∧
    ev.after.db = ev.before.db.applyBatch ev.loc.tx.batch) ∨
  (ev.commits = false ∧ ∀ p n, ev.after.db.entry p n = ev.before.db.entry p n)

section

variable {cfg : Config} {admits : Server → Call → Prop} {Hyp : FsConf → Prop} {s₀ : Server} {c : FsConf}
  {es : List FsEvent}

/-- Every effect of a run is such a step. -/
theorem entryStep_of_run (hw : s₀.Wf) (h : Run (fsSystem cfg admits) Hyp ⟨s₀, []⟩ es c) :
    ∀ ev ∈ es, EntryStep cfg ev := by
  refine Run.forall_events (fun {c n call e k l l' r s'} hreach hn ha => ?_) h
  have hinv := isolated_invariant False (fun _ => True) (fun hf => hf.elim) rfl hw
    (fun _ => trivial) (fun _ _ _ _ => trivial) (fun _ _ _ _ _ _ _ => trivial) hreach
  rcases ha.committed_cases with ⟨rfl, hc, rfl, -⟩ | ⟨hc, -, hdb, -⟩
  · refine Or.inl ⟨hc, ?_, rfl⟩
    exact (hinv.2 _ (List.mem_of_getElem? hn)).1 _ _ (hinv.1.2.valid n _ hn) hinv.1.2.wf
  · refine Or.inr ⟨hc, fun p m => ?_⟩
    unfold Db.entry
    rw [hdb]

end

/-- Names over a run `es` that has led to `c`. -/
structure NamesExclusive (es : List FsEvent) (c : FsConf) : Prop where
  /-- A creation that has returned `Ok` committed once, when there was no such entry. -/
  created : ∀ (t : Nat) (th : FsThread) (r : Reply) (p : Inode) (n : Name), c.threads[t]? = some th →
    th.result = some r → r.isOk = true → th.tag.creates = some (p, n) →
    ∃ ev, commitsOf t es = [ev] ∧ ev.before.db.entry p n = none ∧ ∃ v, ev.after.db.entry p n = some v
  /-- Between two committed creations of one name, a removal or rename that is successful took it away. -/
  between : ∀ (p : Inode) (n : Name) (xs ys zs : List FsEvent) (a b : FsEvent),
    es = xs ++ a :: ys ++ b :: zs → a.commits = true → a.tag.creates = some (p, n) →
    b.commits = true → b.tag.creates = some (p, n) →
    ∃ ev ∈ ys, ev.commits = true ∧ (p, n) ∈ ev.tag.takes ∧ ev.before.db.entry p n ≠ none ∧
      ev.after.db.entry p n = none ∧
      ∀ th r, c.threads[ev.thread]? = some th → th.result = some r → r.isOk = true
  /-- An entry stays until the commit of a removal or rename that takes or replaces it. -/
  stays : ∀ ev ∈ es, ∀ (p : Inode) (n : Name) (v : DirValue), ev.before.db.entry p n = some v →
    ev.after.db.entry p n = some v ∨ ev.commits = true ∧ (p, n) ∈ ev.tag.takes
  /-- `unlink` and `rmdir` that have returned `Ok` removed exactly the entry they had read under lock. -/
  removed : ∀ (t : Nat) (th : FsThread) (r : Reply) (p : Inode) (n : Name), c.threads[t]? = some th →
    th.result = some r → r.isOk = true → th.tag = .unlink p n ∨ th.tag = .rmdir p n →
    ∃ ev v, commitsOf t es = [ev] ∧ ev.loc.tx.dirReads = [(p, n, some v)] ∧
      ev.before.db.entry p n = some v ∧
      ∀ q m, ev.after.db.entry q m = if q = p ∧ m = n then none else ev.before.db.entry q m

/-- **Names are exclusive in every run of every interleaving.** -/
theorem names_exclusive {cfg : Config} {s₀ : Server} {es : List FsEvent} {c : FsConf} (hw : s₀.Wf)
    (h : Run (fsSystem cfg fun _ _ => True) (fun _ => True) ⟨s₀, []⟩ es c) : NamesExclusive es c := by
  have hsteps := entryStep_of_run hw h
  have htag : ∀ ev ∈ es, ∀ th, c.threads[ev.thread]? = some th → th.tag = ev.tag := by
    intro ev hev th hth
    obtain ⟨th', hth', htag⟩ := h.tag_of_event ev hev
    rw [hth] at hth'
    cases hth'
    exact htag
  -- the commit of a creation goes from no entry to some entry
  have hcreate : ∀ ev ∈ es, ev.commits = true → ∀ p n, ev.tag.creates = some (p, n) →
      ev.before.db.entry p n = none ∧ ∃ v, ev.after.db.entry p n = some v := by
    intro ev hev hc p n hcr
    rcases hsteps ev hev with ⟨-, hcommit, hafter⟩ | ⟨hno, -⟩
    · rw [hafter]
      exact hcommit.entry_creates hcr
    · rw [hc] at hno
      cases hno
  have hstays : ∀ ev ∈ es, ∀ p n v, ev.before.db.entry p n = some v →
      ev.after.db.entry p n = some v ∨ ev.commits = true ∧ (p, n) ∈ ev.tag.takes := by
    intro ev hev p n v he
    rcases hsteps ev hev with ⟨hc, hcommit, hafter⟩ | ⟨-, hsame⟩
    · by_cases ht : (p, n) ∈ ev.tag.takes
      · exact Or.inr ⟨hc, ht⟩
      · rw [hafter]
        exact Or.inl (hcommit.entry_kept he ht)
    · exact Or.inl ((hsame p n).trans he)
  refine ⟨?_, ?_, hstays, ?_⟩
  · intro t th r p n hth hr hok hcr
    obtain ⟨ev, hev⟩ := commits_of_created rfl h hth hr hok (by rw [hcr]; rfl)
    obtain ⟨hmem, rfl, hc⟩ := mem_commitsOf.1 (hev ▸ List.mem_cons_self : ev ∈ commitsOf t es)
    rw [htag ev hmem th hth] at hcr
    exact ⟨ev, hev, hcreate ev hmem hc p n hcr⟩
  · intro p n xs ys zs a b hes ha hacr hb hbcr
    have hmem : ∀ ev ∈ a :: ys ++ [b], ev ∈ es := by
      intro ev hev
      rw [hes]
      simp only [List.cons_append, List.mem_append, List.mem_cons, List.append_assoc,
        List.not_mem_nil, or_false] at hev ⊢
      tauto
    have hlink : Linked a.after ys b.before := (hes ▸ h.linked).between
    have hbefore := (hcreate b (hmem b (by simp)) hb p n hbcr).1
    obtain ⟨v, hv⟩ := (hcreate a (hmem a (by simp)) ha p n hacr).2
    obtain ⟨ev, hev, hsome, hnone⟩ := hlink.crossing (P := fun s => s.db.entry p n ≠ none)
      (by rw [hv]; simp) (by simpa using hbefore)
    have hev' := hmem ev (by simp [hev])
    obtain ⟨w, hw⟩ := Option.ne_none_iff_exists'.1 hsome
    have hnone : ev.after.db.entry p n = none := by simpa using hnone
    rcases hstays ev hev' p n w hw with hkept | ⟨hc, ht⟩
    · rw [hnone] at hkept
      cases hkept
    · refine ⟨ev, hev, hc, ht, hsome, hnone, fun th r hth hr => ?_⟩
      refine isOk_of_commit rfl h hth hr ?_ (mem_commitsOf.2 ⟨hev', rfl, hc⟩)
      rw [htag ev hev' th hth]
      exact List.ne_nil_of_mem ht
  · intro t th r p n hth hr hok hcall
    have htakes : th.tag.takes ≠ [] := by
      rcases hcall with e | e <;> rw [e] <;> simp [Call.takes]
    obtain ⟨ev, hev⟩ := commits_of_removed rfl h hth hr hok htakes
    obtain ⟨hmem, rfl, hc⟩ := mem_commitsOf.1 (hev ▸ List.mem_cons_self : ev ∈ commitsOf t es)
    rw [htag ev hmem th hth] at hcall
    rcases hsteps ev hmem with ⟨-, hcommit, hafter⟩ | ⟨hno, -⟩
    · obtain ⟨v, hread, he, hremoved⟩ := hcommit.entry_removes hcall
      exact ⟨ev, v, hev, hread, he, fun q m => by rw [hafter, hremoved]⟩
    · rw [hc] at hno
      cases hno

/-- The first `create` of `1/a` has its row lock when the second one begins; then the name is removed
and created again. -/
def createdTwice : List (Choice Call) :=
  .start (.create ROOT_INODE [97] 0o644 0 0) :: List.replicate 4 (.run 0) ++
    .start (.create ROOT_INODE [97] 0o600 0 0) :: .run 1 :: List.replicate 13 (.run 0) ++
      List.replicate 2 (.run 1) ++ .start (.unlink ROOT_INODE [97]) :: List.replicate 18 (.run 2) ++
        .start (.mkdir ROOT_INODE [97] 0o755 0 0) :: List.replicate 18 (.run 3)

theorem names_exclusive_createdTwice : ∃ es c,
    Run (fsSystem {} fun _ _ => True) (fun _ => True) ⟨Server.fresh {}, []⟩ es c ∧
    c.threads.map (fun th => th.result.map Reply.isOk) = [some true, some false, some true, some true] ∧
    NamesExclusive es c := by
  have hrun : ((fsScheduler {} (fun _ _ => True) (fun _ => True)).run createdTwice
      ⟨Server.fresh {}, []⟩).map (fun c => c.threads.map fun th => th.result.map Reply.isOk) =
      some [some true, some false, some true, some true] := by decide +kernel
  obtain ⟨c, hc, hres⟩ := Option.map_eq_some_iff.1 hrun
  have hreach := fsScheduler_reach {} (fun _ _ => True) (fun _ => True) createdTwice trivial hc
  obtain ⟨es, hes⟩ := Run.of_reach hreach
  exact ⟨es, c, hes, hres, names_exclusive (Server.wf_fresh {}) hes⟩

end RucksFs
