import RucksFs.Server.Commits
import RucksFs.Server.Isolation

/-!
# Calls take effect at their commit

Row locks make every interleaving look like a sequence of whole transactions.  What a transaction has read under lock
stays as it was read; so the batch that it commits is one that its call writes in the state that it meets, and nothing
else changes records and entries.

* `transactions_isolated` — in every reachable state.
* `calls_serialize` — **along every run**: each commit fits the state that it meets, and the answer of a call that has
  returned says how many it has made.
-/

set_option autoImplicit false

namespace RucksFs

open Prog

section

variable {cfg : Config} {admits : Server → Call → Prop} {Hyp : FsConf → Prop} {s₀ : Server} {c : FsConf}

/-- **Isolation.**  While a transaction runs, the rows that it has read under lock have the values that it has read, the
numbers that it has taken are unused, and nobody else has its locks or its numbers.  A call that has returned holds no
lock. -/
theorem transactions_isolated (h₀ : s₀.Wf) (h : Reach (fsSystem cfg admits) Hyp ⟨s₀, []⟩ c) :
    (∀ th ∈ c.threads, th.loc.tx.Valid c.shared.db c.shared.next) ∧
    (∀ (m n : Nat) (th th' : FsThread), m ≠ n → c.threads[m]? = some th → c.threads[n]? = some th' →
      LocksApart th th' ∧ NumbersApart th th') ∧
    ∀ th ∈ c.threads, ∀ r, th.result = some r → th.loc.tx.locks = [] := by
  obtain ⟨hiso, hwp⟩ := isolated_of_reach h₀ h
  refine ⟨fun th hth => ?_, fun m n th th' hne hm hn => ⟨hiso.locks m n th th' hne hm hn, hiso.numbers m n th th' hne hm hn⟩,
    fun th hth r hr => ?_⟩
  · obtain ⟨n, hn⟩ := List.mem_iff_getElem?.1 hth
    exact hiso.valid n th hn
  · have hidle := hwp th hth
    obtain ⟨tag, prog, loc⟩ := th
    cases prog with
    | call e k => cases hr
    | ret a => exact hidle.1

/-- Two calls of `create` have locked the names that they have found free and have taken a number each. -/
theorem transactions_isolated_creating : ∃ c th th',
    Reach (fsSystem {} fun _ _ => True) (fun _ => True) ⟨Server.fresh {}, []⟩ c ∧ c.threads = [th, th'] ∧
    (th.loc.tx.locks, th.loc.tx.allocated) = ([.dirEntry ROOT_INODE [97]], [2]) ∧
    (th'.loc.tx.locks, th'.loc.tx.allocated) = ([.dirEntry ROOT_INODE [98]], [3]) ∧
    LocksApart th th' ∧ NumbersApart th th' ∧ th.loc.tx.Valid c.shared.db c.shared.next ∧
    th'.loc.tx.Valid c.shared.db c.shared.next := by
  let xs : List (Choice Call) := [.start (.create ROOT_INODE [97] 0o644 0 0), .start (.create ROOT_INODE [98] 0o644 0 0),
    .run 0, .run 1, .run 0, .run 1, .run 0, .run 1]
  have hrun : ((fsScheduler {} (fun _ _ => True) fun _ => True).run xs ⟨Server.fresh {}, []⟩).map
      (fun c => c.threads.map fun th => (th.loc.tx.locks, th.loc.tx.allocated)) =
      some [([.dirEntry ROOT_INODE [97]], [2]), ([.dirEntry ROOT_INODE [98]], [3])] := by decide +kernel
  obtain ⟨c, hc, htxs⟩ := Option.map_eq_some_iff.1 hrun
  have hreach := fsScheduler_reach {} (fun _ _ => True) (fun _ => True) xs trivial hc
  obtain ⟨th, ths, hth, htx, hths⟩ := List.map_eq_cons_iff.1 htxs
  obtain ⟨th', rfl, htx'⟩ := List.map_eq_singleton_iff.1 hths
  obtain ⟨hvalid, hapart, -⟩ := transactions_isolated (Server.wf_fresh {}) hreach
  rw [hth] at hvalid hapart
  obtain ⟨hlocks, hnumbers⟩ := hapart 0 1 th th' (by decide) rfl rfl
  exact ⟨c, th, th', hreach, hth, htx, htx', hlocks, hnumbers, hvalid th (by simp), hvalid th' (by simp)⟩

/-- **Serial transactions.**  Every effect of a run either commits, and then the batch is one that its call writes in the
state it meets, or leaves records and entries alone.  A call that has returned has committed as often as its answer says. -/
theorem calls_serialize {es : List FsEvent} (h₀ : s₀.Wf) (h : Run (fsSystem cfg admits) Hyp ⟨s₀, []⟩ es c) :
    (∀ ev ∈ es, ev.commits = true ∧ Committing cfg ev.tag ev.loc ev.before.db ∧
        ev.after.db = ev.before.db.applyBatch ev.loc.tx.batch ∨
      ev.commits = false ∧ ev.after.db.inodes = ev.before.db.inodes ∧
        ev.after.db.dirEntries = ev.before.db.dirEntries) ∧
    ∀ (t : Nat) (th : FsThread) (r : Reply), c.threads[t]? = some th → th.result = some r →
      th.tag.Counted r ((ownEvents t es).countP FsEvent.commits) := by
  refine ⟨h.forall_events fun hr hn ha => ?_, fun t th r hth hres => counted_of_run rfl h hth hres⟩
  obtain ⟨hiso, hwp⟩ := isolated_of_reach h₀ hr
  have hpre := (hwp _ (List.mem_of_getElem? hn)).1
  rcases ha.committed_cases with ⟨rfl, hc, hs, -⟩ | ⟨hc, hin, hen, -⟩
  · exact .inl ⟨hc, hpre _ _ (hiso.valid _ _ hn) hiso.wf, congrArg Server.db hs⟩
  · exact .inr ⟨hc, hin, hen⟩

end

/-- A `create` that has returned. -/
theorem calls_serialize_created : ∃ es c, Run (fsSystem {} fun _ _ => True) (fun _ => True) ⟨Server.fresh {}, []⟩ es c ∧
    (ownEvents 0 es).countP FsEvent.commits = 1 := by
  let xs : List (Choice Call) := .start (.create ROOT_INODE [97] 0o644 0 0) :: List.replicate 17 (.run 0)
  have hrun : ((fsScheduler {} (fun _ _ => True) fun _ => True).record xs ⟨Server.fresh {}, []⟩).map
      (fun x => x.2.threads.map fun th => (th.tag.creates.isSome, th.result.map Reply.isOk)) =
      some [(true, some true)] := by decide +kernel
  obtain ⟨⟨es, c⟩, hc, hres⟩ := Option.map_eq_some_iff.1 hrun
  have h := fsScheduler_record xs trivial hc
  obtain ⟨th, hth, hval⟩ := List.map_eq_singleton_iff.1 hres
  obtain ⟨hcreates, hok⟩ := Prod.mk.inj hval
  obtain ⟨r, hr, hrok⟩ := Option.map_eq_some_iff.1 hok
  have hzero : c.threads[0]? = some th := by
    rw [hth]
    rfl
  exact ⟨es, c, h, ((calls_serialize (Server.wf_fresh {}) h).2 0 th r hzero hr).1 hcreates hrok⟩

end RucksFs
