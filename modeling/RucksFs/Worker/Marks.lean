import RucksFs.Server.Numbers
import RucksFs.Server.Walk
import RucksFs.Worker.Writers

/-!
# Dirty marks next to the worker

Any number of calls commit deltas and mark the directory afterwards, while the worker drains the dirty set,
compacts, and marks again what it has not compacted.  A delta may come before or after the drain and before or
after the scan, and its mark comes later still.

* `workSystem` — all interleavings of calls and rounds.
* `Marked` — every delta committed since the start is of an inode that is marked, drained, or owed a mark; what a
  round has not scanned is owed to somebody else.
* `no_mark_lost` — whenever nobody owes a mark of an inode, its deltas are marked or drained.
* `nothing_owed` — a call that has returned `Ok` owes no mark.
-/

set_option autoImplicit false

namespace RucksFs

open Prog

/-! ## Calls and rounds -/

inductive WorkCall where
  | call (c : Call)
  | compactDirty
  deriving DecidableEq

inductive WorkReply where
  | reply (r : Reply)
  | compacted (r : FsResult Nat)

def WorkCall.body (cfg : Config) (cc : CompactionConfig) : WorkCall → Prog WorkEff WorkEff.Res WorkReply
  | .call c => do return .reply (← onServer (c.body cfg))
  | .compactDirty => do return .compacted (← RucksFs.compactDirty cc)

abbrev WorkThread := Thread WorkCall WorkEff WorkEff.Res WorkReply WorkLocal

abbrev WorkConf := Conf WorkState WorkCall WorkEff WorkEff.Res WorkReply WorkLocal

/-- Another running transaction holds the row that an effect needs. -/
def WorkEff.blocked (os : List WorkThread) : WorkEff → Bool
  | .server e =>
      match e.needs with
      | some row => os.any fun th => decide (row ∈ th.loc.loc.tx.locks)
      | none => false
  | _ => false

/-- One effect, done or failed; the set is drained in any order. -/
inductive WorkActs (cfg : Config) (os : List WorkThread) :
    (e : WorkEff) → WorkLocal → WorkState → e.Res → WorkLocal → WorkState → Prop where
  | done {e : WorkEff} {l : WorkLocal} {s : WorkState} (h : e.blocked os = false) :
      WorkActs cfg os e l s (e.handle cfg (l, s)).1 (e.handle cfg (l, s)).2.1 (e.handle cfg (l, s)).2.2
  | failed {e : Eff} {l : WorkLocal} {s : WorkState} {x : FsError} {r : e.Res} (h : e.failure x = some r) :
      WorkActs cfg os (.server e) l s r { l with loc := l.loc.afterFailure e } s
  | drained {l : WorkLocal} {s : WorkState} {inodes : List Inode} (h : inodes.Perm s.server.dirty) :
      WorkActs cfg os .drain l s inodes { l with left := inodes }
        { s with server := { s.server with dirty := [] } }

/-- All interleavings of calls and rounds. -/
def workSystem (cfg : Config) (cc : CompactionConfig) :
    System WorkState WorkCall WorkEff WorkEff.Res WorkReply WorkLocal where
  body := WorkCall.body cfg cc
  loc₀ := {}
  admits _ _ := True
  act := WorkActs cfg

/-- A server on a database, before the first call. -/
def WorkConf.start (cfg : Config) (db : Db) (ticks : Nat) : WorkConf := ⟨⟨Server.new cfg db ticks, []⟩, []⟩

/-- A round that has not returned. -/
def inRound (th : WorkThread) : Bool := decide (th.tag = .compactDirty) && th.result.isNone

/-- There is one worker, which runs one round after the other. -/
def OneRound (c : WorkConf) : Prop := Apart (fun a b => (inRound a && inRound b) = false) c.threads

instance : DecidablePred OneRound := fun c => inferInstanceAs (Decidable (Apart _ c.threads))

section

variable (cfg : Config) (cc : CompactionConfig)

/-- The failure-free resolution of `WorkActs`. -/
def workNext (os : List WorkThread) (e : WorkEff) (l : WorkLocal) (s : WorkState) :
    Option (e.Res × WorkLocal × WorkState) :=
  if e.blocked os then none else some (e.handle cfg (l, s))

theorem acts_of_workNext (os : List WorkThread) (e : WorkEff) (l : WorkLocal) (s : WorkState) (r : e.Res)
    (l' : WorkLocal) (s' : WorkState) (h : workNext cfg os e l s = some (r, l', s')) :
    WorkActs cfg os e l s r l' s' := by
  unfold workNext at h
  split at h
  · cases h
  · rename_i hb
    have hx := Option.some.inj h
    have hdone : WorkActs cfg os e l s (e.handle cfg (l, s)).1 (e.handle cfg (l, s)).2.1 (e.handle cfg (l, s)).2.2 :=
      .done (by simpa using hb)
    rw [hx] at hdone
    exact hdone

/-- The scheduler that resolves the choices of `workSystem` without failures. -/
def workScheduler : Scheduler WorkState WorkCall WorkEff WorkEff.Res WorkReply WorkLocal where
  sys := workSystem cfg cc
  starts _ _ := true
  next := workNext cfg
  check c := decide (OneRound c)

theorem workScheduler_reach {c₀ c : WorkConf} (xs : List (Choice WorkCall)) (h₀ : OneRound c₀)
    (h : (workScheduler cfg cc).run xs c₀ = some c) : Reach (workSystem cfg cc) OneRound c₀ c :=
  Scheduler.reach (S := workScheduler cfg cc) (fun _ _ _ => trivial) (acts_of_workNext cfg)
    (fun _ hc => of_decide_eq_true hc) xs (.init h₀) h

end

/-- A stored delta that was committed since the server started. -/
def WorkState.Pending (s : WorkState) (i : Inode) (q : Nat) : Prop :=
  (s.server.db.delta i q).isSome = true ∧ (i, q) ∈ s.committed

instance (s : WorkState) (i : Inode) (q : Nat) : Decidable (s.Pending i q) := inferInstanceAs (Decidable (_ ∧ _))

/-! ## Following a round -/

structure RoundWatch where
  /-- The drained inodes that are not finished, the current one first. -/
  left : List Inode := []
  /-- Numbers of the deltas of the current inode that were scanned. -/
  scanned : Option (List Nat) := none
  /-- Numbers of the deltas that the batch deletes. -/
  doomed : List Nat := []
  /-- The current inode is compacted, or marked again. -/
  settled : Bool := false

namespace RoundWatch

/-- The batch deletes everything that was scanned. -/
def complete (g : RoundWatch) : Bool :=
  match g.scanned with
  | some ks => decide (∀ q ∈ ks, q ∈ g.doomed)
  | none => false

def upd (g : RoundWatch) : (e : Eff) → e.Res → RoundWatch
  | .beginWrite, _ | .dropBatch, _ => { g with doomed := [] }
  | .scanDeltasWithKeys _, .ok kvs => { g with scanned := some (kvs.map Prod.fst) }
  | .push (.deleteDelta _ q), _ => { g with doomed := q :: g.doomed }
  | .commit, .ok _ => { g with doomed := [], settled := g.settled || g.complete }
  | .commit, .error _ => { g with doomed := [] }
  | .markDirty _, _ => { g with settled := true }
  | _, _ => g

/-- A round works on its current inode and stores no delta. -/
def Pre (e : Eff) (g : RoundWatch) : Prop :=
  match e with
  | .scanDeltasWithKeys i | .markDirty i | .push (.deleteDelta i _) => g.left.head? = some i
  | .push (.putDelta ..) => False
  | _ => True

end RoundWatch

/-- What a round does on the server. -/
def compacting : Contract Eff Eff.Res RoundWatch := following RoundWatch.Pre RoundWatch.upd fun _ _ _ => True

/-- A round settles each inode before it goes on to the next; a call does nothing but what the server does. -/
def WorkCall.contract (t : WorkCall) : Contract WorkEff WorkEff.Res RoundWatch where
  pre e g := match e with
    | .server e => t = .compactDirty → compacting.pre e g
    | .drain => t = .compactDirty ∧ g.left = []
    | .advance => t = .compactDirty ∧ g.settled = true
    | .waitNotify _ => False
  post e g r g' := match e, r with
    | .server e, r => if t = .compactDirty then compacting.post e g r g' else g' = g
    | .drain, r => g' = { left := r }
    | .advance, _ => g' = { left := g.left.tail }
    | .waitNotify _, _ => g' = g

/-- At its end a round has nothing left. -/
def WorkCall.Ended (t : WorkCall) (_ : WorkReply) (g : RoundWatch) : Prop := t = .compactDirty → g.left = []

theorem wp_onServer {α : Type} {x : Prog Eff Eff.Res α} {Q : α → RoundWatch → Prop} {g : RoundWatch}
    (h : wp compacting x Q g) : wp WorkCall.compactDirty.contract (onServer x) Q g := by
  refine wp_expand (C := compacting) (fun e g' hpre => ?_) x g h
  exact ⟨fun _ => hpre, fun _ _ hpost => hpost⟩

section

variable {i : Inode} {is : List Inode}

/-- The pushes that delete what was scanned. -/
theorem follow_deletes {E : RoundWatch → Prop} {Q : Unit → RoundWatch → Prop} (kvs : List (Nat × DeltaOp)) :
    ∀ g : RoundWatch, g.left.head? = some i →
      (∀ g', g'.left = g.left → g'.scanned = g.scanned → (∀ q ∈ g.doomed, q ∈ g'.doomed) →
        (∀ kv ∈ kvs, kv.1 ∈ g'.doomed) → Q () g') →
      wpE compacting E (kvs.forM fun kv => Op.push (.deleteDelta i kv.1)) Q g := by
  induction kvs with
  | nil => exact fun g _ h => h g rfl rfl (fun _ hq => hq) (by simp)
  | cons kv kvs ih =>
      intro g hhead h
      show wpE compacting E (Op.push (.deleteDelta i kv.1) >>= fun _ => kvs.forM _) Q g
      rw [wpE_bind]
      refine follow_eff hhead fun _ _ => ih _ hhead fun g' hleft hscan hold hnew => h g' hleft hscan ?_ ?_
      · exact fun q hq => hold q (List.mem_cons_of_mem _ hq)
      · intro kv' hkv
        rcases List.mem_cons.1 hkv with rfl | hkv
        · exact hold _ List.mem_cons_self
        · exact hnew kv' hkv

/-- A compaction of the current inode that returns `true` has deleted what it has scanned. -/
theorem follow_forceCompact {g : RoundWatch} (hleft : g.left = i :: is) :
    wpE compacting (fun g' => g'.left = i :: is) (forceCompactInode i)
      (fun b g' => g'.left = i :: is ∧ (b = true → g'.settled = true)) g := by
  have hhead : g.left.head? = some i := by rw [hleft]; rfl
  unfold forceCompactInode
  rw [wpE_bind]
  refine follow_scanDeltasWithKeys hhead (fun kvs _ => ?_) fun _ => hleft
  split
  · exact ⟨hleft, nofun⟩
  · refine follow_withBatch trivial (fun _ => trivial) ?_
    rw [wpE_bind]
    refine follow_getForUpdateInode trivial (fun base _ => ?_) fun _ => hleft
    cases base with
    | none => exact ⟨hleft, nofun⟩
    | some base =>
        rw [wpE_bind]
        refine follow_skip trivial (fun _ => rfl) fun _ => ?_
        rw [wpE_bind]
        refine follow_deletes kvs _ hhead fun g' hl hs _ hnew => ?_
        have hcomplete : g'.complete = true := by
          unfold RoundWatch.complete
          rw [hs]
          show decide (∀ q ∈ kvs.map Prod.fst, q ∈ g'.doomed) = true
          simpa using hnew
        rw [wpE_bind]
        refine (wpE_lift _).2 ⟨trivial, fun r g'' hp => ?_⟩
        obtain ⟨rfl, -⟩ := hp
        cases r with
        | ok _ =>
            show wpE compacting _ (do Op.cacheInvalidate i; pure true) _ _
            rw [wpE_bind]
            refine follow_skip trivial (fun _ => rfl) fun _ => ⟨hl.trans hleft, fun _ => ?_⟩
            show (g'.settled || g'.complete) = true
            rw [hcomplete, Bool.or_true]
        | error x => cases x <;> first | exact ⟨hl.trans hleft, nofun⟩ | exact hl.trans hleft

theorem follow_compactInode (cc : CompactionConfig) {g : RoundWatch} (hleft : g.left = i :: is) :
    wpE compacting (fun g' => g'.left = i :: is) (compactInode cc i)
      (fun b g' => g'.left = i :: is ∧ (b = true → g'.settled = true)) g := by
  unfold compactInode
  rw [wpE_bind]
  refine follow_scanDeltas trivial (fun ds _ => ?_) fun _ => hleft
  split
  · exact ⟨hleft, nofun⟩
  · split
    · exact ⟨hleft, nofun⟩
    · exact follow_forceCompact hleft

/-- Each inode is compacted or marked again. -/
theorem wp_compactOne (cc : CompactionConfig) {g : RoundWatch} (hleft : g.left = i :: is) :
    wp WorkCall.compactDirty.contract (compactOne cc i) (fun _ g' => g'.left = i :: is ∧ g'.settled = true) g := by
  have hmark : ∀ {g' : RoundWatch}, g'.left = i :: is →
      wp WorkCall.compactDirty.contract (do WorkEff.perform (.server (.markDirty i)); return false)
        (fun _ g'' => g''.left = i :: is ∧ g''.settled = true) g' := by
    intro g' hl
    refine ⟨fun _ => by show g'.left.head? = some i; rw [hl]; rfl, fun _ g'' hp => ?_⟩
    obtain ⟨rfl, -⟩ := hp
    exact ⟨hl, rfl⟩
  unfold compactOne
  rw [wp_bind]
  refine wp_mono (fun r g' hr => ?_) (wp_onServer (follow_compactInode cc hleft))
  match r with
  | .ok true => exact ⟨hr.1, hr.2 rfl⟩
  | .ok false => exact hmark hr.1
  | .error _ => exact hmark hr

theorem wp_compactEach (cc : CompactionConfig) (is : List Inode) :
    ∀ (n : Nat) (g : RoundWatch), g.left = is →
      wp WorkCall.compactDirty.contract (compactEach cc is n) (fun _ g' => g'.left = []) g := by
  induction is with
  | nil => exact fun _ _ hleft => hleft
  | cons i is ih =>
      intro n g hleft
      unfold compactEach
      rw [wp_bind]
      refine wp_mono (fun done g' hg' => ?_) (wp_compactOne cc hleft)
      refine ⟨⟨rfl, hg'.2⟩, fun _ g'' hp => ?_⟩
      obtain rfl : g'' = { left := g'.left.tail } := hp
      exact ih _ _ (by rw [hg'.1]; rfl)

end

theorem wp_true_onServer {α : Type} (c : Call) (g : RoundWatch) :
    ∀ x : Prog Eff Eff.Res α, wp (WorkCall.call c).contract (onServer x) (fun _ _ => True) g
  | .ret _ => trivial
  | .call _ k => ⟨nofun, fun r g' _ => wp_true_onServer c g' (k r)⟩

/-- **Calls and rounds keep their contracts.** -/
theorem WorkCall.meets_contract (cfg : Config) (cc : CompactionConfig) (t : WorkCall) :
    wp t.contract (t.body cfg cc) t.Ended {} := by
  cases t with
  | call c =>
      refine (wp_bind _ _ _ _ _).2 (wp_mono (fun _ _ _ => ?_) (wp_true_onServer c {} (c.body cfg)))
      exact nofun
  | compactDirty =>
      refine (wp_bind _ _ _ _ _).2 ⟨⟨rfl, rfl⟩, fun inodes g hp => ?_⟩
      obtain rfl : g = { left := inodes } := hp
      refine (wp_bind _ _ _ _ _).2 ((wp_bind _ _ _ _ _).2 ?_)
      exact wp_mono (fun _ _ hleft _ => hleft) (wp_compactEach cc inodes 0 _ rfl)

/-! ## One effect on marks and deltas -/

theorem mem_deltaKeys {ops : List BatchOp} {i : Inode} {q : Nat} :
    (i, q) ∈ deltaKeys ops ↔ ∃ d, .putDelta i q d ∈ ops := by
  unfold deltaKeys
  rw [List.mem_filterMap]
  constructor
  · rintro ⟨op, hop, hkey⟩
    cases op with
    | putDelta j q' d =>
        cases hkey
        exact ⟨d, hop⟩
    | _ => cases hkey
  · rintro ⟨d, hop⟩
    exact ⟨_, hop, rfl⟩

section

variable {cfg : Config} {e : Eff} {tx : Txn} {s : Server} {i : Inode} {q : Nat}

/-- Only the worker takes marks away. -/
theorem mem_dirty_handle (h : i ∈ s.dirty) : i ∈ (handle cfg e (tx, s)).2.2.dirty := by
  cases e with
  | markDirty j => exact List.mem_insert_of_mem h
  | checkAndClearDeferredDelete j =>
      show i ∈ (s.checkAndClearDeferredDelete j).2.dirty
      unfold Server.checkAndClearDeferredDelete
      split
      · exact h
      · split <;> exact h
  | _ => exact h

/-- Only a commit stores deltas. -/
theorem delta_handle (h : ((handle cfg e (tx, s)).2.2.db.delta i q).isSome = true) :
    (s.db.delta i q).isSome = true ∨ (e = .commit ∧ (i, q) ∈ deltaKeys tx.batch) := by
  cases e with
  | commit =>
      obtain ⟨d, hd⟩ := Option.isSome_iff_exists.1 h
      rcases Db.delta_applyBatch hd with hold | hput
      · exact Or.inl (Option.isSome_iff_exists.2 ⟨d, hold⟩)
      · exact Or.inr ⟨rfl, mem_deltaKeys.2 ⟨d, hput⟩⟩
  | clearDeltas j =>
      have hclear : ((s.clearDeltas j).db.delta i q).isSome = true := h
      rw [Db.delta_clearDeltas] at hclear
      split at hclear
      · cases hclear
      · exact Or.inl hclear
  | checkAndClearDeferredDelete j =>
      left
      have hsame : (s.checkAndClearDeferredDelete j).2.db = s.db := by
        unfold Server.checkAndClearDeferredDelete
        split
        · rfl
        · split <;> rfl
      have hdel : ((s.checkAndClearDeferredDelete j).2.db.delta i q).isSome = true := h
      rwa [hsame] at hdel
  | _ => exact Or.inl h

theorem mem_unmarkedAfter (e : Eff) (tx : Txn) {us : List Inode} (h : i ∈ us) : i ∈ e.unmarkedAfter tx us ∨ e = .markDirty i := by
  cases e with
  | commit => exact Or.inl (List.mem_append_left _ h)
  | markDirty j =>
      by_cases hj : i = j
      · exact Or.inr (by rw [hj])
      · exact Or.inl (List.mem_filter.2 ⟨h, by simpa using hj⟩)
  | _ => exact Or.inl h

/-- A stored delta that the batch deletes, and does not put, is gone. -/
theorem delta_applyBatch_deleted (db : Db) {ops : List BatchOp} (hdel : .deleteDelta i q ∈ ops)
    (hput : ∀ d, .putDelta i q d ∉ ops) : (db.applyBatch ops).delta i q = none := by
  induction ops generalizing db with
  | nil => cases hdel
  | cons op ops ih =>
      rw [Db.applyBatch_cons]
      have hputs : ∀ d, .putDelta i q d ∉ ops := fun d hd => hput d (List.mem_cons_of_mem _ hd)
      rcases List.mem_cons.1 hdel with rfl | hdel
      · rw [Option.eq_none_iff_forall_not_mem]
        intro d hd
        rcases Db.delta_applyBatch hd with hold | hd'
        · unfold Db.applyOp at hold
          simp at hold
        · exact hputs d hd'
      · exact ih _ hdel hputs

end

/-! ## The invariant -/

/-- `i` is marked, or somebody owes its mark. -/
def Fresh (c : WorkConf) (i : Inode) : Prop :=
  i ∈ c.shared.server.dirty ∨ ∃ (m : Nat) (th : WorkThread), c.threads[m]? = some th ∧ i ∈ th.loc.unmarked

/-- What is known of the current inode of a round: deltas that it has not scanned are somebody else's, and once
it is settled all are. -/
structure RoundKept (g : RoundWatch) (c : WorkConf) : Prop where
  unscanned : ∀ i ks, g.left.head? = some i → g.scanned = some ks → ∀ q, q ∉ ks → c.shared.Pending i q → Fresh c i
  settled : ∀ i, g.left.head? = some i → g.settled = true → ∀ q, c.shared.Pending i q → Fresh c i

/-- A round's own data, as followed. -/
structure Follows (g : RoundWatch) (l : WorkLocal) : Prop where
  left : l.left = g.left
  doomed : ∀ i, g.left.head? = some i → ∀ q ∈ g.doomed, .deleteDelta i q ∈ l.loc.tx.batch
  puts : deltaKeys l.loc.tx.batch = []

structure Marked (γ : Nat → RoundWatch) (c : WorkConf) : Prop where
  call : ∀ (m : Nat) (th : WorkThread), c.threads[m]? = some th → th.tag ≠ .compactDirty → th.loc.left = []
  round : ∀ (m : Nat) (th : WorkThread), c.threads[m]? = some th → th.tag = .compactDirty → Follows (γ m) th.loc
  kept : ∀ (m : Nat) (th : WorkThread), c.threads[m]? = some th → inRound th = true → RoundKept (γ m) c
  covered : ∀ i q, c.shared.Pending i q → Fresh c i ∨ ∃ th ∈ c.threads, i ∈ th.loc.left

/-- Steps that take no mark away: what is pending afterwards was pending, or its mark is owed. -/
structure Shift (c c' : WorkConf) : Prop where
  fresh : ∀ i, Fresh c i → Fresh c' i
  pending : ∀ i q, c'.shared.Pending i q → c.shared.Pending i q ∨ Fresh c' i

theorem RoundKept.shift {g : RoundWatch} {c c' : WorkConf} (h : RoundKept g c) (hs : Shift c c') : RoundKept g c' := by
  constructor
  · intro i ks hi hscan q hq hp
    exact (hs.pending i q hp).elim (fun hold => hs.fresh i (h.unscanned i ks hi hscan q hq hold)) id
  · intro i hi hset q hp
    exact (hs.pending i q hp).elim (fun hold => hs.fresh i (h.settled i hi hset q hold)) id

section

variable {cfg : Config} {c : WorkConf} {n : Nat} {t : WorkCall} {l : WorkLocal}

/-- A step of thread `n` that leaves the server and its marks. -/
theorem Shift.of_local {e : WorkEff} {k : e.Res → Prog WorkEff WorkEff.Res WorkReply} {r : e.Res} {l' : WorkLocal}
    (hn : c.threads[n]? = some ⟨t, .call e k, l⟩) (hu : l'.unmarked = l.unmarked) :
    Shift c ⟨c.shared, c.threads.set n ⟨t, k r, l'⟩⟩ := by
  constructor
  · rintro i (hd | ⟨m, th, hm, hi⟩)
    · exact Or.inl hd
    · refine Or.inr ?_
      by_cases hmn : m = n
      · subst hmn
        rw [hn] at hm
        cases hm
        exact ⟨m, _, List.getElem?_set_self (List.getElem?_eq_some_iff.1 hn).1, by rw [hu]; exact hi⟩
      · exact ⟨m, th, by rw [List.getElem?_set_ne (Ne.symm hmn)]; exact hm, hi⟩
  · exact fun i q hp => Or.inl hp

/-- Every effect on the server: a commit owes the marks of its deltas, a mark is paid into the set. -/
theorem Shift.of_server (cfg : Config) {e : Eff} {k : e.Res → Prog WorkEff WorkEff.Res WorkReply}
    (hn : c.threads[n]? = some ⟨t, .call (.server e) k, l⟩) :
    let x := (WorkEff.server e).handle cfg (l, c.shared)
    Shift c ⟨x.2.2, c.threads.set n ⟨t, k x.1, x.2.1⟩⟩ := by
  intro x
  have hself : (c.threads.set n ⟨t, k x.1, x.2.1⟩)[n]? = some ⟨t, k x.1, x.2.1⟩ :=
    List.getElem?_set_self (List.getElem?_eq_some_iff.1 hn).1
  constructor
  · rintro i (hd | ⟨m, th, hm, hi⟩)
    · exact Or.inl (mem_dirty_handle hd)
    · by_cases hmn : m = n
      · subst hmn
        rw [hn] at hm
        cases hm
        rcases mem_unmarkedAfter e l.loc.tx hi with hi' | rfl
        · exact Or.inr ⟨m, _, hself, hi'⟩
        · exact Or.inl List.mem_insert_self
      · exact Or.inr ⟨m, th, by rw [List.getElem?_set_ne (Ne.symm hmn)]; exact hm, hi⟩
  · intro i q hp
    -- the key is new, or it was stored and committed before
    have hnew : (e = .commit ∧ (i, q) ∈ deltaKeys l.loc.tx.batch) ∨ c.shared.Pending i q := by
      rcases delta_handle hp.1 with hold | hput
      · have hcom : (i, q) ∈ e.committedAfter l.loc.tx c.shared.committed := hp.2
        cases e with
        | commit =>
            rcases List.mem_append.1 hcom with hcom | hcom
            · exact Or.inr ⟨hold, hcom⟩
            · exact Or.inl ⟨rfl, hcom⟩
        | _ => exact Or.inr ⟨hold, hcom⟩
      · exact Or.inl hput
    rcases hnew with ⟨rfl, hput⟩ | hold
    · exact Or.inr (Or.inr ⟨n, _, hself, List.mem_append_right _ (List.mem_map.2 ⟨(i, q), hput, rfl⟩)⟩)
    · exact Or.inl hold

theorem RoundWatch.upd_left (g : RoundWatch) (e : Eff) (r : e.Res) : (g.upd e r).left = g.left := by
  unfold upd
  split <;> rfl

theorem deltaKeys_append (a b : List BatchOp) : deltaKeys (a ++ b) = deltaKeys a ++ deltaKeys b :=
  List.filterMap_append

/-- The batch of a round, one effect further. -/
theorem Follows.done {g : RoundWatch} {e : Eff} (h : Follows g l) (hpre : g.Pre e) :
    let x := (WorkEff.server e).handle cfg (l, c.shared)
    Follows (g.upd e x.1) x.2.1 := by
  refine ⟨h.left.trans (g.upd_left e _).symm, fun i hi => ?_, ?_⟩
  · replace hi : g.left.head? = some i := (congrArg List.head? (g.upd_left e _)).symm.trans hi
    cases e with
    | beginWrite => exact nofun
    | dropBatch => exact nofun
    | commit => exact nofun
    | push op =>
        cases op with
        | deleteDelta j q =>
            obtain rfl : i = j := Option.some.inj (hi.symm.trans hpre)
            intro q' hq
            rcases List.mem_cons.1 hq with rfl | hq
            · exact List.mem_append_right _ (List.mem_singleton.2 rfl)
            · exact List.mem_append_left _ (h.doomed i hi q' hq)
        | putDelta j q d => exact hpre.elim
        | _ => exact fun q hq => List.mem_append_left _ (h.doomed i hi q hq)
    | _ => exact h.doomed i hi
  · cases e with
    | beginWrite => rfl
    | dropBatch => rfl
    | commit => rfl
    | push op =>
        have happ := deltaKeys_append l.loc.tx.batch [op]
        rw [h.puts] at happ
        cases op with
        | putDelta j q d => exact hpre.elim
        | _ => exact happ
    | _ => exact h.puts

/-- A failed effect changes a batch only by dropping it. -/
theorem Follows.failed {g : RoundWatch} {e : Eff} {x : FsError} {r : e.Res} (h : Follows g l)
    (hr : e.failure x = some r) : Follows (g.upd e r) { l with loc := l.loc.afterFailure e } := by
  cases e with
  | commit =>
      cases hr
      exact ⟨h.left, fun _ _ => nofun, rfl⟩
  | _ => first | (cases hr; exact ⟨h.left, h.doomed, h.puts⟩) | cases hr

/-- The current inode of a round, one effect further. -/
theorem RoundKept.done {g : RoundWatch} {e : Eff} {k : e.Res → Prog WorkEff WorkEff.Res WorkReply}
    (hk : RoundKept g c) (hf : Follows g l) (hpre : g.Pre e) (hn : c.threads[n]? = some ⟨t, .call (.server e) k, l⟩) :
    let x := (WorkEff.server e).handle cfg (l, c.shared)
    RoundKept (g.upd e x.1) ⟨x.2.2, c.threads.set n ⟨t, k x.1, x.2.1⟩⟩ := by
  have hs := Shift.of_server cfg hn
  have hkept := hk.shift hs
  cases e with
  | scanDeltasWithKeys j =>
      refine ⟨fun i ks hi hscan q hq hp => ?_, hkept.settled⟩
      -- everything stored has just been scanned
      obtain rfl : i = j := Option.some.inj (hi.symm.trans hpre)
      cases hscan
      obtain ⟨d, hd⟩ := Option.isSome_iff_exists.1 hp.1
      exact absurd (List.mem_map.2 ⟨(q, d), Db.mem_scanDeltas.2 hd, rfl⟩) hq
  | commit =>
      refine ⟨hkept.unscanned, fun i hi hset q hp => ?_⟩
      rcases Bool.or_eq_true_iff.1 hset with hset | hcomplete
      · exact hkept.settled i hi hset q hp
      · unfold RoundWatch.complete at hcomplete
        split at hcomplete
        · rename_i ks hscan
          have hall : ∀ q ∈ ks, q ∈ g.doomed := of_decide_eq_true hcomplete
          apply hkept.unscanned i ks hi hscan q ?_ hp
          intro hq
          have hputs : ∀ d, .putDelta i q d ∉ l.loc.tx.batch := by
            intro d hd
            have := mem_deltaKeys.2 ⟨d, hd⟩
            rw [hf.puts] at this
            cases this
          have hgone := delta_applyBatch_deleted c.shared.server.db (hf.doomed i hi q (hall q hq)) hputs
          have hstored : ((c.shared.server.db.applyBatch l.loc.tx.batch).delta i q).isSome = true := hp.1
          rw [hgone] at hstored
          cases hstored
        · cases hcomplete
  | markDirty j =>
      refine ⟨hkept.unscanned, fun i hi _ q _ => ?_⟩
      obtain rfl : i = j := Option.some.inj (hi.symm.trans hpre)
      exact Or.inl List.mem_insert_self
  | push op => cases op <;> exact ⟨hkept.unscanned, hkept.settled⟩
  | _ => exact ⟨hkept.unscanned, hkept.settled⟩

theorem RoundKept.failed {g : RoundWatch} {e : Eff} {x : FsError} {r : e.Res} {c' : WorkConf} (h : RoundKept g c')
    (hr : e.failure x = some r) : RoundKept (g.upd e r) c' := by
  cases e with
  | _ => first | (cases hr; exact ⟨h.unscanned, h.settled⟩) | cases hr

end

section

variable {cfg : Config} {cc : CompactionConfig} {γ : Nat → RoundWatch} {c : WorkConf} {n : Nat} {t : WorkCall}
  {l l' : WorkLocal}

/-- A thread moves to `⟨t, p', l'⟩` and the server to `s'`, with no mark taken away. -/
theorem Marked.set (h : Marked γ c) {p p' : Prog WorkEff WorkEff.Res WorkReply} {s' : WorkState} {g' : RoundWatch}
    (hn : c.threads[n]? = some ⟨t, p, l⟩) (hs : Shift c ⟨s', c.threads.set n ⟨t, p', l'⟩⟩)
    (hcall : t ≠ .compactDirty → l'.left = []) (hround : t = .compactDirty → Follows g' l')
    (hkept : inRound ⟨t, p', l'⟩ = true → RoundKept g' ⟨s', c.threads.set n ⟨t, p', l'⟩⟩)
    (hleft : ∀ i ∈ l.left, i ∈ l'.left ∨ ∀ q, s'.Pending i q → Fresh ⟨s', c.threads.set n ⟨t, p', l'⟩⟩ i) :
    Marked (Function.update γ n g') ⟨s', c.threads.set n ⟨t, p', l'⟩⟩ := by
  have hself : (c.threads.set n ⟨t, p', l'⟩)[n]? = some ⟨t, p', l'⟩ :=
    List.getElem?_set_self (List.getElem?_eq_some_iff.1 hn).1
  refine ⟨fun m th hm htag => ?_, fun m th hm htag => ?_, fun m th hm hin => ?_, fun i q hp => ?_⟩
  · rcases getElem?_set_cases hm with ⟨-, rfl⟩ | ⟨-, hm⟩
    · exact hcall htag
    · exact h.call m th hm htag
  · rcases getElem?_set_cases hm with ⟨rfl, rfl⟩ | ⟨hne, hm⟩
    · rw [Function.update_self]
      exact hround htag
    · rw [Function.update_of_ne hne]
      exact h.round m th hm htag
  · rcases getElem?_set_cases hm with ⟨rfl, rfl⟩ | ⟨hne, hm⟩
    · rw [Function.update_self]
      exact hkept hin
    · rw [Function.update_of_ne hne]
      exact (h.kept m th hm hin).shift hs
  · rcases hs.pending i q hp with hold | hfresh
    · rcases h.covered i q hold with hfresh | ⟨th, hth, hi⟩
      · exact Or.inl (hs.fresh i hfresh)
      · obtain ⟨m, hm⟩ := List.mem_iff_getElem?.1 hth
        by_cases hmn : m = n
        · subst hmn
          rw [hn] at hm
          cases hm
          rcases hleft i hi with hi' | hfresh
          · exact Or.inr ⟨_, List.mem_of_getElem? hself, hi'⟩
          · exact Or.inl (hfresh q hp)
        · refine Or.inr ⟨th, List.mem_of_getElem? (i := m) ?_, hi⟩
          rw [List.getElem?_set_ne (Ne.symm hmn)]
          exact hm
    · exact Or.inl hfresh

theorem Marked.start (h : Marked γ c) (t : WorkCall) :
    Marked (Function.update γ c.threads.length {}) ⟨c.shared, c.threads ++ [(workSystem cfg cc).spawn t]⟩ := by
  have hold : ∀ {m : Nat} {th : WorkThread}, c.threads[m]? = some th →
      (c.threads ++ [(workSystem cfg cc).spawn t])[m]? = some th := fun {m th} hm => by
    rw [List.getElem?_append_left (List.getElem?_eq_some_iff.1 hm).1]
    exact hm
  have hs : Shift c ⟨c.shared, c.threads ++ [(workSystem cfg cc).spawn t]⟩ :=
    ⟨fun i hf => hf.imp id fun ⟨m, th, hm, hi⟩ => ⟨m, th, hold hm, hi⟩, fun i q hp => Or.inl hp⟩
  refine ⟨fun m th hm htag => ?_, fun m th hm htag => ?_, fun m th hm hin => ?_, fun i q hp => ?_⟩
  · rcases getElem?_append_cases hm with ⟨-, rfl⟩ | ⟨-, hm⟩
    · rfl
    · exact h.call m th hm htag
  · rcases getElem?_append_cases hm with ⟨rfl, rfl⟩ | ⟨hne, hm⟩
    · rw [Function.update_self]
      exact ⟨rfl, nofun, rfl⟩
    · rw [Function.update_of_ne hne]
      exact h.round m th hm htag
  · rcases getElem?_append_cases hm with ⟨rfl, rfl⟩ | ⟨hne, hm⟩
    · rw [Function.update_self]
      exact ⟨nofun, nofun⟩
    · rw [Function.update_of_ne hne]
      exact (h.kept m th hm hin).shift hs
  · rcases h.covered i q hp with hfresh | ⟨th, hth, hi⟩
    · exact Or.inl (hs.fresh i hfresh)
    · exact Or.inr ⟨th, List.mem_append_left _ hth, hi⟩

/-- The worker takes the whole set while no other round is under way. -/
theorem Marked.drain (h : Marked γ c) {k : List Inode → Prog WorkEff WorkEff.Res WorkReply} {inodes : List Inode}
    (hone : OneRound c) (hn : c.threads[n]? = some ⟨.compactDirty, .call .drain k, l⟩) (hnil : (γ n).left = [])
    (hperm : inodes.Perm c.shared.server.dirty) :
    Marked (Function.update γ n { left := inodes })
      ⟨{ c.shared with server := { c.shared.server with dirty := [] } },
        c.threads.set n ⟨.compactDirty, k inodes, { l with left := inodes }⟩⟩ := by
  have hself : (c.threads.set n ⟨.compactDirty, k inodes, { l with left := inodes }⟩)[n]? =
      some ⟨.compactDirty, k inodes, { l with left := inodes }⟩ :=
    List.getElem?_set_self (List.getElem?_eq_some_iff.1 hn).1
  have hl := h.round n _ hn rfl
  refine ⟨fun m th hm htag => ?_, fun m th hm htag => ?_, fun m th hm hin => ?_, fun i q hp => ?_⟩
  · rcases getElem?_set_cases hm with ⟨-, rfl⟩ | ⟨-, hm⟩
    · exact absurd rfl htag
    · exact h.call m th hm htag
  · rcases getElem?_set_cases hm with ⟨rfl, rfl⟩ | ⟨hne, hm⟩
    · rw [Function.update_self]
      exact ⟨rfl, nofun, hl.puts⟩
    · rw [Function.update_of_ne hne]
      exact h.round m th hm htag
  · rcases getElem?_set_cases hm with ⟨rfl, rfl⟩ | ⟨hne, hm⟩
    · rw [Function.update_self]
      exact ⟨nofun, nofun⟩
    · have hother : (inRound th && true) = false := hone m n _ _ hne hm hn
      rw [hin] at hother
      cases hother
  · have hin : i ∈ inodes → ∃ th ∈ c.threads.set n ⟨.compactDirty, k inodes, { l with left := inodes }⟩,
        i ∈ th.loc.left := fun hi => ⟨_, List.mem_of_getElem? hself, hi⟩
    have hother : ∀ {m : Nat} {th : WorkThread}, m ≠ n → c.threads[m]? = some th →
        (c.threads.set n ⟨.compactDirty, k inodes, { l with left := inodes }⟩)[m]? = some th :=
      fun {m th} hne hm => by
        rw [List.getElem?_set_ne (Ne.symm hne)]
        exact hm
    rcases h.covered i q hp with (hd | ⟨m, th, hm, hi⟩) | ⟨th, hth, hi⟩
    · exact Or.inr (hin (hperm.mem_iff.2 hd))
    · by_cases hmn : m = n
      · subst hmn
        rw [hn] at hm
        cases hm
        exact Or.inl (Or.inr ⟨m, _, hself, hi⟩)
      · exact Or.inl (Or.inr ⟨m, th, hother hmn hm, hi⟩)
    · obtain ⟨m, hm⟩ := List.mem_iff_getElem?.1 hth
      by_cases hmn : m = n
      · subst hmn
        rw [hn] at hm
        cases hm
        rw [hl.left, hnil] at hi
        cases hi
      · exact Or.inr ⟨th, List.mem_of_getElem? (hother hmn hm), hi⟩

/-- The round goes on to the next inode. -/
theorem Marked.advance (h : Marked γ c) {k : Unit → Prog WorkEff WorkEff.Res WorkReply}
    (hn : c.threads[n]? = some ⟨.compactDirty, .call .advance k, l⟩) (hset : (γ n).settled = true) :
    Marked (Function.update γ n { left := (γ n).left.tail })
      ⟨c.shared, c.threads.set n ⟨.compactDirty, k (), { l with left := l.left.tail }⟩⟩ := by
  have hl := h.round n _ hn rfl
  have hk := h.kept n _ hn rfl
  have hs : Shift c ⟨c.shared, c.threads.set n ⟨.compactDirty, k (), { l with left := l.left.tail }⟩⟩ :=
    Shift.of_local hn rfl
  refine h.set hn hs (fun hne => absurd rfl hne) (fun _ => ⟨by rw [hl.left], nofun, hl.puts⟩)
    (fun _ => ⟨nofun, nofun⟩) fun i hi => ?_
  have hsplit : ∀ is : List Inode, i ∈ is → is.head? = some i ∨ i ∈ is.tail := by
    intro is his
    cases is with
    | nil => cases his
    | cons j is => exact (List.mem_cons.1 his).imp (fun e => by rw [e]; rfl) id
  rcases hsplit l.left hi with hhead | htail
  · exact Or.inr fun q hp => hs.fresh i (hk.settled i (by rw [← hl.left]; exact hhead) hset q hp)
  · exact Or.inl htail

/-- Every step of every thread. -/
theorem Marked.act (h : Marked γ c) {e : WorkEff} {k : e.Res → Prog WorkEff WorkEff.Res WorkReply} {r : e.Res}
    {s' : WorkState} (hone : OneRound c) (hn : c.threads[n]? = some ⟨t, .call e k, l⟩)
    (hpre : t.contract.pre e (γ n)) (ha : WorkActs cfg (c.threads.eraseIdx n) e l c.shared r l' s') :
    ∃ g', t.contract.post e (γ n) r g' ∧
      Marked (Function.update γ n g') ⟨s', c.threads.set n ⟨t, k r, l'⟩⟩ := by
  cases ha with
  | @failed e _ _ x r hfail =>
      have hs : Shift c ⟨c.shared, c.threads.set n ⟨t, k r, { l with loc := l.loc.afterFailure e }⟩⟩ :=
        Shift.of_local hn rfl
      by_cases ht : t = .compactDirty
      · subst ht
        have hl := h.round n _ hn rfl
        have hk := h.kept n _ hn rfl
        refine ⟨_, ?_, h.set hn hs (fun hne => absurd rfl hne) (fun _ => hl.failed hfail)
          (fun _ => (hk.shift hs).failed hfail) fun i hi => Or.inl hi⟩
        exact ⟨rfl, trivial⟩
      · refine ⟨γ n, ?_, ?_⟩
        · show if t = .compactDirty then _ else _
          rw [if_neg ht]
        · refine h.set hn hs (fun _ => h.call n _ hn ht) (fun e => absurd e ht) ?_ fun i hi => Or.inl hi
          intro hin
          simp [inRound, ht] at hin
  | drained hperm =>
      obtain ⟨rfl, hnil⟩ := hpre
      exact ⟨_, rfl, h.drain hone hn hnil hperm⟩
  | done hfree =>
      cases e with
      | waitNotify ms => exact hpre.elim
      | drain =>
          obtain ⟨rfl, hnil⟩ := hpre
          exact ⟨_, rfl, h.drain hone hn hnil (List.Perm.refl _)⟩
      | advance =>
          obtain ⟨rfl, hset⟩ := hpre
          exact ⟨_, rfl, h.advance hn hset⟩
      | server e =>
          have hs := Shift.of_server cfg hn
          by_cases ht : t = .compactDirty
          · subst ht
            have hl := h.round n _ hn rfl
            have hk := h.kept n _ hn rfl
            refine ⟨_, ?_, h.set hn hs (fun hne => absurd rfl hne) (fun _ => hl.done (hpre rfl))
              (fun _ => hk.done hl (hpre rfl) hn) fun i hi => Or.inl hi⟩
            exact ⟨rfl, trivial⟩
          · refine ⟨γ n, ?_, ?_⟩
            · show if t = .compactDirty then _ else _
              rw [if_neg ht]
            · refine h.set hn hs (fun _ => h.call n _ hn ht) (fun e => absurd e ht) ?_ fun i hi => Or.inl hi
              intro hin
              simp [inRound, ht] at hin

/-- **No mark is lost.**  Calls and rounds run in any interleaving on a server that starts on any database.  When
no call is between the commit of deltas of `i` and its mark, and a delta of `i` committed since the start is
stored, then `i` is in the dirty set, or the round that is under way has drained it and not finished it. -/
theorem no_mark_lost {db : Db} {ticks : Nat}
    (h : Reach (workSystem cfg cc) OneRound (WorkConf.start cfg db ticks) c) (i : Inode)
    (hpaid : ∀ th ∈ c.threads, i ∉ th.loc.unmarked) (hdelta : ∃ q, c.shared.Pending i q) :
    i ∈ c.shared.server.dirty ∨ ∃ th ∈ c.threads, inRound th = true ∧ i ∈ th.loc.left := by
  obtain ⟨γ, hJ, hwp⟩ := Reach.ghost WorkCall.contract WorkCall.Ended {} Marked rfl
    (by refine ⟨?_, ?_, ?_, ?_⟩ <;> simp [WorkConf.start, WorkState.Pending]) (WorkCall.meets_contract cfg cc)
    (fun _ hJ _ _ => hJ.start _) (fun hr hJ _ hn hpre ha _ => hJ.act hr.hyp hn hpre ha) h
  obtain ⟨q, hp⟩ := hdelta
  rcases hJ.covered i q hp with (hd | ⟨m, th, hm, hi⟩) | ⟨th, hth, hi⟩
  · exact Or.inl hd
  · exact absurd hi (hpaid th (List.mem_of_getElem? hm))
  · refine Or.inr ⟨th, hth, ?_, hi⟩
    -- a call has drained nothing, and a round that has returned has finished everything
    obtain ⟨m, hm⟩ := List.mem_iff_getElem?.1 hth
    obtain ⟨tag, prog, loc⟩ := th
    by_cases ht : tag = .compactDirty
    · subst ht
      cases prog with
      | call e k => rfl
      | ret r =>
          have hend : (γ m).left = [] := hwp m _ hm rfl
          rw [(hJ.round m _ hm rfl).left, hend] at hi
          cases hi
    · rw [hJ.call m _ hm ht] at hi
      cases hi

end

/-- A second file is created when the round has scanned the deltas of the root. -/
def createdAfterScan : List (Choice WorkCall) :=
  .start (.call (.create 1 [97] 0o644 0 0)) :: List.replicate 17 (.run 0) ++
    .start .compactDirty :: List.replicate 3 (.run 1) ++
    .start (.call (.create 1 [98] 0o644 0 0)) :: List.replicate 17 (.run 2) ++ List.replicate 9 (.run 1)

/-- The round has deleted the deltas it has scanned and is done; the others are marked. -/
theorem no_mark_lost_after_scan : ∃ c,
    Reach (workSystem {} { deltaThreshold := 2 }) OneRound (WorkConf.start {} {} 0) c ∧
    (∀ th ∈ c.threads, th.result.isSome = true ∧ th.loc.unmarked = []) ∧
    ¬c.shared.Pending 1 0 ∧ c.shared.Pending 1 2 ∧
    (1 ∈ c.shared.server.dirty ∨ ∃ th ∈ c.threads, inRound th = true ∧ 1 ∈ th.loc.left) := by
  have hrun : ((workScheduler {} { deltaThreshold := 2 }).run createdAfterScan (WorkConf.start {} {} 0)).map
      (fun c => decide ((∀ th ∈ c.threads, th.result.isSome = true ∧ th.loc.unmarked = []) ∧
        ¬c.shared.Pending 1 0 ∧ c.shared.Pending 1 2)) = some true := by decide +kernel
  obtain ⟨c, hc, hv⟩ := Option.map_eq_some_iff.1 hrun
  have hreach := workScheduler_reach {} _ createdAfterScan (by decide) hc
  obtain ⟨hdone, hgone, hstored⟩ := of_decide_eq_true hv
  have hmarked := no_mark_lost hreach 1 (fun th hth => by rw [(hdone th hth).2]; exact nofun) ⟨2, hstored⟩
  exact ⟨c, hreach, hdone, hgone, hstored, hmarked⟩

/-! ## Writers that have returned -/

/-- The marks that a thread owes. -/
def owing : Contract WorkEff WorkEff.Res MarkWatch :=
  tracking fun g e r => match e, r with
    | .server e, r => g.upd e r
    | .drain, _ | .advance, _ | .waitNotify _, _ => g

def WorkReply.Paid : WorkReply → MarkWatch → Prop
  | .reply r, g => r.isOk = true → g.owes = []
  | .compacted _, _ => True

theorem WorkCall.pays (cfg : Config) (cc : CompactionConfig) (t : WorkCall) :
    wp owing (t.body cfg cc) WorkReply.Paid {} := by
  cases t with
  | call c =>
      refine (wp_bind _ _ _ _ _).2 (wp_expand (C := paying) (fun e g _ => ?_) _ _ (c.pays cfg))
      exact ⟨trivial, fun _ _ hp => hp⟩
  | compactDirty =>
      exact (wp_bind _ _ _ _ _).2 (wp_mono (fun _ _ _ => trivial) (wp_true (fun _ _ => trivial) _ _))

/-- The history of a thread is what is followed along its program. -/
def Tallied (γ : Nat → MarkWatch) (c : WorkConf) : Prop :=
  ∀ (m : Nat) (th : WorkThread), c.threads[m]? = some th →
    th.loc.unmarked = (γ m).owes ∧ (deltaKeys th.loc.loc.tx.batch).map Prod.fst = (γ m).puts

section

variable {cfg : Config} {cc : CompactionConfig} {γ : Nat → MarkWatch} {c : WorkConf} {n : Nat} {t : WorkCall}
  {l l' : WorkLocal}

theorem Tallied.set (h : Tallied γ c) {p' : Prog WorkEff WorkEff.Res WorkReply} {s' : WorkState} {g' : MarkWatch}
    (howes : l'.unmarked = g'.owes) (hputs : (deltaKeys l'.loc.tx.batch).map Prod.fst = g'.puts) :
    Tallied (Function.update γ n g') ⟨s', c.threads.set n ⟨t, p', l'⟩⟩ := by
  intro m th hm
  rcases getElem?_set_cases hm with ⟨rfl, rfl⟩ | ⟨hne, hm⟩
  · rw [Function.update_self]
    exact ⟨howes, hputs⟩
  · rw [Function.update_of_ne hne]
    exact h m th hm

/-- One effect on the server. -/
theorem tally_done (cfg : Config) (s : WorkState) {g : MarkWatch} {e : Eff} (howes : l.unmarked = g.owes)
    (hputs : (deltaKeys l.loc.tx.batch).map Prod.fst = g.puts) :
    let x := (WorkEff.server e).handle cfg (l, s)
    x.2.1.unmarked = (g.upd e x.1).owes ∧ (deltaKeys x.2.1.loc.tx.batch).map Prod.fst = (g.upd e x.1).puts := by
  intro x
  cases e with
  | beginWrite => exact ⟨howes, rfl⟩
  | dropBatch => exact ⟨howes, rfl⟩
  | commit => exact ⟨congrArg₂ (· ++ ·) howes hputs, rfl⟩
  | markDirty i => exact ⟨congrArg (List.filter (· ≠ i)) howes, hputs⟩
  | push op =>
      have happ : (deltaKeys (l.loc.tx.batch ++ [op])).map Prod.fst = g.puts ++ (deltaKeys [op]).map Prod.fst := by
        rw [deltaKeys_append, List.map_append, hputs]
      cases op with
      | putDelta i q d => exact ⟨howes, happ⟩
      | _ => exact ⟨howes, happ.trans (List.append_nil _)⟩
  | _ => exact ⟨howes, hputs⟩

theorem tally_failed {g : MarkWatch} {e : Eff} {x : FsError} {r : e.Res} (hr : e.failure x = some r)
    (hputs : (deltaKeys l.loc.tx.batch).map Prod.fst = g.puts) :
    (g.upd e r).owes = g.owes ∧ (deltaKeys (l.loc.afterFailure e).tx.batch).map Prod.fst = (g.upd e r).puts := by
  cases e with
  | commit =>
      cases hr
      exact ⟨rfl, rfl⟩
  | _ => first | (cases hr; exact ⟨rfl, hputs⟩) | cases hr

/-- **A call that has returned `Ok` owes no mark**: what is between a commit and its mark is a call that is
running, or a creation that has failed there. -/
theorem nothing_owed {Hyp : WorkConf → Prop} {c₀ : WorkConf} (h₀ : c₀.threads = [])
    (h : Reach (workSystem cfg cc) Hyp c₀ c) {th : WorkThread} (hth : th ∈ c.threads) {r : Reply}
    (hr : th.result = some (.reply r)) (hok : r.isOk = true) : th.loc.unmarked = [] := by
  obtain ⟨γ, hJ, hwp⟩ := Reach.ghost (fun _ => owing) (fun _ => WorkReply.Paid) {} Tallied h₀
    (by intro m th hm; simp [h₀] at hm) (WorkCall.pays cfg cc)
    (fun {γ c t} _ hJ _ _ m th hm => by
      rcases getElem?_append_cases hm with ⟨rfl, rfl⟩ | ⟨hne, hm⟩
      · rw [Function.update_self]
        exact ⟨rfl, rfl⟩
      · rw [Function.update_of_ne hne]
        exact hJ m th hm)
    (fun {γ c n t e k l l' r s'} _ hJ _ hn _ ha _ => by
      obtain ⟨howes, hputs⟩ := hJ n _ hn
      refine ⟨_, rfl, ?_⟩
      cases ha with
      | failed hfail =>
          obtain ⟨howes', hputs'⟩ := tally_failed hfail hputs
          exact hJ.set (howes.trans howes'.symm) hputs'
      | drained _ => exact hJ.set howes hputs
      | done _ =>
          cases e with
          | server e =>
              obtain ⟨howes', hputs'⟩ := tally_done cfg c.shared howes hputs
              exact hJ.set howes' hputs'
          | drain => exact hJ.set howes hputs
          | advance => exact hJ.set howes hputs
          | waitNotify ms => exact hJ.set howes hputs) h
  obtain ⟨m, hm⟩ := List.mem_iff_getElem?.1 hth
  obtain ⟨tag, prog, loc⟩ := th
  cases prog with
  | call e k => cases hr
  | ret a =>
      cases hr
      rw [(hJ m _ hm).1]
      exact hwp m _ hm hok

end

end RucksFs
