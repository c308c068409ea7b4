import RucksFs.Worker.Marks

/-!
# The last flush of the worker (`server/src/compaction.rs`)

When `stop` has ended its loop, `run_loop` calls `flush_all`: the dirty set is taken once more and every inode in it is
compacted, however few deltas it has.  Nothing is marked again.

* `flushAll` — the function; `flushAll_alone` — without other threads, inode by inode.
* `clean_shutdown` — **after any interleaving of calls and rounds** every pending delta is of a marked inode, and the flush
  folds all of them into their records.
-/

set_option autoImplicit false

namespace RucksFs

open Op

/-- The body of the loop of `flush_all`; a failure is logged. -/
def flushOne (inode : Inode) : Prog WorkEff WorkEff.Res Bool := do
  match ← onServer (forceCompactInode inode).run with
  | .ok done => return done
  | .error _ => return false

def flushEach : List Inode → Nat → Prog WorkEff WorkEff.Res Nat
  | [], compacted => return compacted
  | inode :: inodes, compacted => do
      let done ← flushOne inode
      flushEach inodes (if done then compacted + 1 else compacted)

def flushAll : Prog WorkEff WorkEff.Res (FsResult Nat) := do
  let inodes ← WorkEff.perform .drain
  return .ok (← flushEach inodes 0)

/-- `flush_all`, run alone. -/
def Server.flushAll (cfg : Config) (s : Server) : FsResult Nat × Server :=
  let r := Prog.run (WorkEff.handle cfg) RucksFs.flushAll ({}, { server := s })
  (r.1, r.2.2.server)

/-- What the flush does with one inode. -/
def Server.flushStep (s : Server) (i : Inode) : Server :=
  if (s.db.scanDeltas i).isEmpty then s
  else match s.db.inode i with
    | none => s
    | some base => s.compacted i base

section

variable (cfg : Config) (s : Server) (i j : Inode)

theorem run_flushOne (l : WorkLocal) (t : WorkState) :
    (Prog.run (WorkEff.handle cfg) (flushOne i) (l, t)).2.2.server = t.server.flushStep i := by
  obtain ⟨tx', hexec⟩ := exec_forceCompactInode cfg t.server i l.loc.tx
  have hserver : (Prog.run (WorkEff.handle cfg) (onServer (forceCompactInode i).run) (l, t)).2.2.server =
      (exec cfg (forceCompactInode i) (l.loc.tx, t.server)).2.2 :=
    congrArg (fun r => r.2.2) (run_onServer cfg (forceCompactInode i).run l t)
  have hstep : (exec cfg (forceCompactInode i) (l.loc.tx, t.server)).2.2 = t.server.flushStep i := by
    rw [hexec]
    unfold Server.flushStep
    split
    · rfl
    · cases t.server.db.inode i <;> rfl
  unfold flushOne
  rw [Prog.run_bind, ← hstep, ← hserver]
  generalize Prog.run (WorkEff.handle cfg) (onServer (forceCompactInode i).run) (l, t) = r
  obtain ⟨a, st⟩ := r
  cases a <;> rfl

theorem run_flushEach (is : List Inode) : ∀ (n : Nat) (l : WorkLocal) (t : WorkState),
    (Prog.run (WorkEff.handle cfg) (flushEach is n) (l, t)).2.2.server = is.foldl Server.flushStep t.server := by
  induction is with
  | nil => exact fun _ _ _ => rfl
  | cons i is ih =>
      intro n l t
      unfold flushEach
      rw [Prog.run_bind]
      show (Prog.run (WorkEff.handle cfg) (flushEach is _) (_, _)).2.2.server = _
      rw [ih, List.foldl_cons, run_flushOne]

theorem flushAll_alone : (s.flushAll cfg).2 = s.dirty.foldl Server.flushStep { s with dirty := [] } := by
  have hrun := run_flushEach cfg s.dirty 0 { left := s.dirty } ⟨{ s with dirty := [] }, []⟩
  have hret := Prog.run_bind (WorkEff.handle cfg) (fun n => .ret (.ok n : FsResult Nat)) (flushEach s.dirty 0)
    ({ left := s.dirty }, ⟨{ s with dirty := [] }, []⟩)
  rw [← hrun]
  exact congrArg (fun r => r.2.2.server) hret

/-! ## What the flush leaves -/

theorem effective_flushStep : (s.flushStep i).db.effective j = s.db.effective j := by
  unfold Server.flushStep
  split
  · rfl
  · split
    · rfl
    · rename_i base hi
      exact effective_compacted hi j

theorem deltas_flushStep :
    (s.flushStep i).db.deltas j = if j = i ∧ (s.db.inode i).isSome = true then [] else s.db.deltas j := by
  unfold Server.flushStep
  split
  · rename_i hnil
    have hdeltas : s.db.deltas i = [] := by simpa [Db.deltas] using hnil
    split
    · rename_i h
      rw [h.1, hdeltas]
    · rfl
  · cases hi : s.db.inode i with
    | none => simp
    | some base => simpa using deltas_compacted s i base j

theorem flush_spec (is : List Inode) : ∀ s : Server,
    (is.foldl Server.flushStep s).db.effective j = s.db.effective j ∧
      ((s.db.effective j).isSome = true → j ∈ is ∨ s.db.deltas j = [] → (is.foldl Server.flushStep s).db.deltas j = []) := by
  induction is with
  | nil => simp
  | cons i is ih =>
      intro s
      obtain ⟨heff, hnone⟩ := ih (s.flushStep i)
      rw [effective_flushStep] at heff hnone
      refine ⟨heff, fun hj hmem => hnone hj ?_⟩
      have hrec : (s.db.inode j).isSome = true := by simpa [Db.effective] using hj
      rw [deltas_flushStep]
      rcases hmem with hmem | hnil
      · rcases List.mem_cons.1 hmem with rfl | hmem
        · exact .inr (if_pos ⟨rfl, hrec⟩)
        · exact .inl hmem
      · right
        split
        · rfl
        · exact hnil

end

/-! ## Runs that have come to rest -/

section

variable {cfg : Config} {cc : CompactionConfig} {c : WorkConf}

/-- A round owes no mark: it stores no delta. -/
def RoundsPaid (c : WorkConf) : Prop :=
  ∀ (m : Nat) (th : WorkThread), c.threads[m]? = some th → th.tag = .compactDirty → th.loc.unmarked = []

theorem RoundsPaid.act {γ : Nat → RoundWatch} {n : Nat} {t : WorkCall} {e : WorkEff}
    {k : e.Res → Prog WorkEff WorkEff.Res WorkReply} {l l' : WorkLocal} {r : e.Res} {s' : WorkState} (h : RoundsPaid c)
    (hJ : Marked γ c) (hn : c.threads[n]? = some ⟨t, .call e k, l⟩)
    (ha : WorkActs cfg (c.threads.eraseIdx n) e l c.shared r l' s') :
    RoundsPaid ⟨s', c.threads.set n ⟨t, k r, l'⟩⟩ := by
  intro m th hm ht
  rcases getElem?_set_cases hm with ⟨rfl, rfl⟩ | ⟨-, hm⟩
  · have hpaid : l.unmarked = [] := h m _ hn ht
    have hputs := (hJ.round m _ hn ht).puts
    cases ha with
    | failed | drained => exact hpaid
    | done =>
        cases e with
        | server e =>
            cases e with
            | commit => simpa [WorkEff.handle, Eff.unmarkedAfter, hpaid] using hputs
            | markDirty i => simp [WorkEff.handle, Eff.unmarkedAfter, hpaid]
            | _ => exact hpaid
        | _ => exact hpaid
  · exact h m th hm ht

/-- A round that has returned, or a call that has returned `Ok`. -/
def rested (th : WorkThread) : Bool :=
  match th.result with
  | some (.reply r) => r.isOk
  | some (.compacted _) => decide (th.tag = .compactDirty)
  | none => false

theorem marked_at_rest {db : Db} {ticks : Nat} (h : Reach (workSystem cfg cc) OneRound (WorkConf.start cfg db ticks) c)
    (hrest : ∀ th ∈ c.threads, rested th = true) {i : Inode} {q : Nat} (hp : c.shared.Pending i q) : i ∈ c.shared.server.dirty := by
  obtain ⟨γ, ⟨hJ, hrounds⟩, hwp⟩ := Reach.ghost WorkCall.contract WorkCall.Ended {}
    (fun γ c => Marked γ c ∧ RoundsPaid c) rfl
    ⟨by refine ⟨?_, ?_, ?_, ?_⟩ <;> simp [WorkConf.start, WorkState.Pending], by simp [RoundsPaid, WorkConf.start]⟩
    (WorkCall.meets_contract cfg cc)
    (fun _ hJ _ _ => ⟨hJ.1.start _, fun m th hm ht => by
      rcases getElem?_append_cases hm with ⟨-, rfl⟩ | ⟨-, hm⟩
      · rfl
      · exact hJ.2 m th hm ht⟩)
    (fun hr hJ _ hn hpre ha _ => by
      obtain ⟨g', hpost, hJ'⟩ := hJ.1.act hr.hyp hn hpre ha
      exact ⟨g', hpost, hJ', hJ.2.act hJ.1 hn ha⟩) h
  rcases hJ.covered i q hp with (hd | ⟨m, th, hm, hi⟩) | ⟨th, hth, hi⟩
  · exact hd
  · -- nobody owes the mark
    have hr := hrest th (List.mem_of_getElem? hm)
    have hpaid : th.loc.unmarked = [] := by
      unfold rested at hr
      split at hr
      · rename_i r hres
        exact nothing_owed rfl h (List.mem_of_getElem? hm) hres hr
      · exact hrounds m th hm (of_decide_eq_true hr)
      · cases hr
    rw [hpaid] at hi
    cases hi
  · -- a round that has returned has finished everything
    obtain ⟨m, hm⟩ := List.mem_iff_getElem?.1 hth
    have hreturned := hrest th hth
    obtain ⟨tag, prog, loc⟩ := th
    cases prog with
    | call e k => cases hreturned
    | ret a =>
        by_cases ht : tag = .compactDirty
        · have hend : (γ m).left = [] := hwp m _ hm ht
          rw [(hJ.round m _ hm ht).left, hend] at hi
          cases hi
        · rw [hJ.call m _ hm ht] at hi
          cases hi

end

/-- **Clean shutdown.**  Calls and rounds run in any interleaving, with any failures, on a server that starts on any
database.  When all have returned, the calls with `Ok`, every delta that was committed and is still stored is of a dirty
inode.  The flush then leaves none of them, unless the record of the inode is gone, and changes no attributes. -/
theorem clean_shutdown {cfg : Config} {cc : CompactionConfig} {c : WorkConf} {db : Db} {ticks : Nat}
    (h : Reach (workSystem cfg cc) OneRound (WorkConf.start cfg db ticks) c)
    (hrest : ∀ th ∈ c.threads, rested th = true) (i : Inode) :
    (c.shared.server.flushAll cfg).2.db.effective i = c.shared.server.db.effective i ∧
    ((∃ q, c.shared.Pending i q) → i ∈ c.shared.server.dirty ∧
      ((c.shared.server.db.effective i).isSome = true → (c.shared.server.flushAll cfg).2.db.deltas i = [])) := by
  obtain ⟨heff, hnone⟩ := flush_spec i c.shared.server.dirty { c.shared.server with dirty := [] }
  rw [flushAll_alone]
  refine ⟨heff, ?_⟩
  rintro ⟨q, hp⟩
  have hdirty := marked_at_rest h hrest hp
  exact ⟨hdirty, fun hrec => hnone hrec (.inl hdirty)⟩

/-- One file has been created, and the deltas of its directory are flushed. -/
theorem clean_shutdown_created : ∃ c, Reach (workSystem {} {}) OneRound (WorkConf.start {} {} 0) c ∧
    c.shared.Pending ROOT_INODE 0 ∧ (c.shared.server.flushAll {}).2.db.deltas ROOT_INODE = [] := by
  let xs : List (Choice WorkCall) := .start (.call (.create ROOT_INODE [97] 0o644 0 0)) :: List.replicate 17 (.run 0)
  have hrun : ((workScheduler {} {}).run xs (WorkConf.start {} {} 0)).map (fun c => decide
      ((∀ th ∈ c.threads, rested th = true) ∧ c.shared.Pending ROOT_INODE 0 ∧
        (c.shared.server.db.effective ROOT_INODE).isSome = true)) = some true := by decide +kernel
  obtain ⟨c, hc, hval⟩ := Option.map_eq_some_iff.1 hrun
  obtain ⟨hrest, hpending, hrec⟩ := of_decide_eq_true hval
  have hreach := workScheduler_reach {} {} xs (by decide) hc
  exact ⟨c, hreach, hpending, ((clean_shutdown hreach hrest ROOT_INODE).2 ⟨0, hpending⟩).2 hrec⟩

end RucksFs
