import RucksFs.Lib.Events
import RucksFs.Server.Contract
import RucksFs.Server.Transactions

/-!
# How often a call commits

Every call that changes the namespace runs one transaction, tries it again when it conflicts, and
returns `Ok` exactly when an attempt was committed.  Only a creation can fail after its commit, when
the allocator's counter cannot be stored.

* `CommitsOnce`, `OkOnce` — one commit on success, and for the former none on failure.
* `Call.counted` — the number of commits of a whole call, against its answer.
-/

set_option autoImplicit false

namespace RucksFs

open Prog Op

/-- A commit that succeeded. -/
def Eff.committed : (e : Eff) → e.Res → Bool
  | .commit, .ok _ => true
  | _, _ => false

def countCommits (n : Nat) (e : Eff) (r : e.Res) : Nat := if e.committed r then n + 1 else n

/-- One commit on success, none on failure. -/
def CommitsOnce {α : Type} (x : Op α) : Prop :=
  ∀ n, wpE (tracking countCommits) (fun n' => n' = n) x (fun _ n' => n' = n + 1) n

/-- One commit on success. -/
def OkOnce {α : Type} (x : Op α) : Prop :=
  ∀ n, wpE (tracking countCommits) (fun _ => True) x (fun _ n' => n' = n + 1) n

/-! ## Operations -/

section

variable {α β : Type}

/-- Effects of a kind without the commit do not count. -/
theorem countCommits_keep {p : Eff → Bool} (hp : p .commit = false) {n : Nat} (e : Eff) (l : Nat) (r : e.Res)
    (l' : Nat) (he : p e = true) (hl : l = n) (hl' : l' = countCommits l e r) : l' = n := by
  rw [hl', hl]
  cases e with
  | commit => rw [hp] at he; cases he
  | _ => rfl

/-- A transaction commits once, or fails without a commit. -/
theorem Transacts.commitsOnce {x : Op α} (h : Transacts x) : CommitsOnce x := by
  intro n
  refine h (I := fun n' => n' = n) (J := fun n' => n' = n + 1)
    ⟨fun _ _ => trivial, countCommits_keep rfl, ?_, ?_, countCommits_keep rfl⟩ n rfl
  · rintro l x l' hl hp
    rw [hp]
    exact hl
  · rintro l l' hl hp
    rw [hp, hl]
    rfl

namespace OkOnce

/-- A part that can fail, after a part that commits once. -/
theorem then_only {p : Eff → Bool} (hp : p .commit = false) {x : Op α} {f : α → Op β} (hx : OkOnce x)
    (hf : ∀ a, Only p True (f a)) : OkOnce (x >>= f) := by
  intro n
  rw [wpE_bind]
  refine wpE_mono (fun a n' h => ?_) (fun _ h => h) (hx n)
  exact wpE_mono (fun _ _ h => h) (fun _ _ => trivial)
    ((hf a).invariant (I := fun m => m = n + 1) (fun _ _ => trivial) (countCommits_keep hp) n' h)

/-- The three creations: a checked name, the transaction, and what settles it. -/
theorem creation {cfg : Config} {p : Inode} {n : Name} {size mode nlink uid gid : Nat}
    {extra : Inode → List BatchOp} {deltas : Nat → List DeltaOp} {after : InodeValue → List DeltaOp} :
    OkOnce (do
      validateName n
      let iv ← createTxn cfg p n size mode nlink uid gid extra deltas
      afterCreate p iv (after iv)) := by
  have htxn : OkOnce (createTxn cfg p n size mode nlink uid gid extra deltas) := fun k =>
    wpE_mono (fun _ _ h => h) (fun _ _ => trivial)
      ((Transacts.createTxn cfg p n size mode nlink uid gid extra deltas).commitsOnce k)
  intro k
  rw [wpE_bind]
  refine wpE_mono (fun _ m hm => ?_) (fun _ _ => trivial)
    ((Only.validateName n).invariant (p := Eff.prepares) (I := fun m => m = k) (fun _ _ => trivial)
      (countCommits_keep rfl) k rfl)
  subst hm
  exact htxn.then_only rfl (fun iv => Only.afterCreate p iv (after iv)) m

theorem createAndOpen (cfg : Config) (p : Inode) (n : Name) (mode uid gid flags : Nat) :
    OkOnce (createAndOpen cfg p n mode uid gid flags) :=
  then_only (p := fun e => e != .commit) (by decide) (x := create cfg p n mode uid gid) creation fun attr =>
    Only.bind (x := handleIncr attr.inode) (Only.eff rfl) fun _ => Only.pure _

end OkOnce

end

/-! ## Calls -/

/-- `Ok` was returned. -/
def Reply.isOk : Reply → Bool
  | .attr r => r.isOk
  | .setAttr r => r.isOk
  | .entries r => r.isOk
  | .created r => r.isOk
  | .purged r => r.isOk
  | .opened r => r.isOk
  | .done r => r.isOk
  | .target r => r.isOk
  | .compacted r => r.isOk

/-- The entries a call may take away: its own, or a rename's source and destination. -/
def Call.takes : Call → List (Inode × Name)
  | .unlink p n | .rmdir p n => [(p, n)]
  | .rename p n np nn => [(p, n), (np, nn)]
  | _ => []

/-- What the answer of a call says about its commits. -/
def Call.Counted (c : Call) (r : Reply) (n : Nat) : Prop :=
  (c.creates.isSome = true → r.isOk = true → n = 1) ∧ (c.takes ≠ [] → n = if r.isOk then 1 else 0)

section

variable {α : Type} {x : Op α} {mk : FsResult α → Reply} {c : Call} {n : Nat}

theorem counted_reply {Q : Reply → Nat → Prop}
    (h : wp (tracking countCommits) x.run (fun r n => Q (mk r) n) n) :
    wp (tracking countCommits) (do return mk (← x.run)) Q n := by
  rw [wp_bind]
  exact h

/-- An answer that says whether the transaction was committed. -/
theorem CommitsOnce.reply (h : CommitsOnce x) (hok : ∀ r, (mk r).isOk = r.isOk) :
    wp (tracking countCommits) (do return mk (← x.run)) (fun r n => n = if r.isOk then 1 else 0) 0 := by
  refine counted_reply (wp_mono (fun r n hn => ?_) (h 0))
  rw [hok]
  cases r <;> exact hn

theorem OkOnce.reply (h : OkOnce x) (hok : ∀ r, (mk r).isOk = r.isOk) :
    wp (tracking countCommits) (do return mk (← x.run)) (fun r n => r.isOk = true → n = 1) 0 := by
  refine counted_reply (wp_mono (fun r n hn hr => ?_) (h 0))
  rw [hok] at hr
  cases r with
  | ok a => exact hn
  | error e => cases hr

end

/-- **The commits of a call and its answer.** -/
theorem Call.counted (cfg : Config) (c : Call) :
    wp (tracking countCommits) (c.body cfg) (fun r n => c.Counted r n) 0 := by
  -- a creation's answer tells of a commit only when it is `Ok`
  have hcreate : ∀ {c : Call} {x : Prog Eff Eff.Res Reply}, c.takes = [] →
      wp (tracking countCommits) x (fun r n => r.isOk = true → n = 1) 0 →
      wp (tracking countCommits) x (fun r n => c.Counted r n) 0 :=
    fun ht => wp_mono fun r n hn => ⟨fun _ => hn, fun h => absurd ht h⟩
  have hremove : ∀ {c : Call} {x : Prog Eff Eff.Res Reply},
      wp (tracking countCommits) x (fun r n => n = if r.isOk then 1 else 0) 0 →
      wp (tracking countCommits) x (fun r n => c.Counted r n) 0 :=
    wp_mono fun r n hn => ⟨fun _ hr => by rw [hn, if_pos hr], fun _ => hn⟩
  have hother : c.creates = none → c.takes = [] →
      wp (tracking countCommits) (c.body cfg) (fun r n => c.Counted r n) 0 :=
    fun hc ht => wp_mono (fun r n _ => ⟨fun h => by simp [hc] at h, fun h => absurd ht h⟩) (wp_true (fun _ _ => trivial) _ _)
  cases c with
  | create p n m u g => exact hcreate rfl (OkOnce.creation.reply fun _ => rfl)
  | createAndOpen p n m u g f =>
      exact hcreate rfl ((OkOnce.createAndOpen cfg p n m u g f).reply fun _ => rfl)
  | mkdir p n m u g => exact hcreate rfl (OkOnce.creation.reply fun _ => rfl)
  | symlink p n t u g => exact hcreate rfl (OkOnce.creation.reply fun _ => rfl)
  | link p n t => exact hremove ((Transacts.link cfg p n t).commitsOnce.reply fun _ => rfl)
  | unlink p n => exact hremove ((Transacts.unlink cfg p n).commitsOnce.reply fun _ => rfl)
  | rmdir p n => exact hremove ((Transacts.rmdir cfg p n).commitsOnce.reply fun _ => rfl)
  | rename p n np nn => exact hremove ((Transacts.rename cfg p n np nn).commitsOnce.reply fun _ => rfl)
  | _ => exact hother rfl rfl

/-! ## Runs -/

abbrev FsEvent := EffectEvent Server Call Eff Eff.Res Local

/-- The event is a commit that succeeded. -/
def FsEvent.commits (ev : FsEvent) : Bool := ev.eff.committed ev.ans

/-- A recorded schedule is a run. -/
theorem fsScheduler_record {cfg : Config} {admits : Server → Call → Prop} {Hyp : FsConf → Prop}
    [∀ s c, Decidable (admits s c)] [DecidablePred Hyp] {c₀ c : FsConf} {es : List FsEvent}
    (xs : List (Choice Call)) (h₀ : Hyp c₀)
    (h : (fsScheduler cfg admits Hyp).record xs c₀ = some (es, c)) :
    Run (fsSystem cfg admits) Hyp c₀ es c :=
  Scheduler.run_of_record (S := fsScheduler cfg admits Hyp)
    (fun s call hs => of_decide_eq_true (p := admits s call) hs) (acts_of_fsNext cfg)
    (fun c hc => of_decide_eq_true (p := Hyp c) hc) xs (.init h₀) h

/-- An effect commits its batch, or leaves records and entries as they are. -/
theorem Acts.committed_cases {cfg : Config} {os : List FsThread} {e : Eff} {l l' : Local} {s s' : Server}
    {r : e.Res} (h : Acts cfg os e l s r l' s') :
    (e = .commit ∧ e.committed r = true ∧ s' = { s with db := s.db.applyBatch l.tx.batch } ∧
      l' = ⟨{ retired := l.tx.retiring }, l.files⟩) ∨
    (e.committed r = false ∧ s'.db.inodes = s.db.inodes ∧ s'.db.dirEntries = s.db.dirEntries ∧
      (s'.db.deltaEntries = s.db.deltaEntries ∨ ∃ j, e = .clearDeltas j ∧ s' = s.clearDeltas j)) := by
  cases h with
  | failed hf =>
      refine Or.inr ⟨?_, rfl, rfl, Or.inl rfl⟩
      cases e with
      | commit =>
          cases hf
          rfl
      | _ => rfl
  | done hb =>
      cases e with
      | commit => exact Or.inl ⟨rfl, rfl, rfl, rfl⟩
      | clearDeltas j => exact Or.inr ⟨rfl, rfl, rfl, Or.inr ⟨j, rfl, rfl⟩⟩
      | checkAndClearDeferredDelete i =>
          refine Or.inr ⟨rfl, ?_⟩
          have hdb : (s.checkAndClearDeferredDelete i).2.db = s.db := s.checkAndClear_db
          exact ⟨congrArg Db.inodes hdb, congrArg Db.dirEntries hdb,
            Or.inl (congrArg Db.deltaEntries hdb)⟩
      | _ => exact Or.inr ⟨rfl, rfl, rfl, Or.inl rfl⟩

theorem track_countCommits (es : List FsEvent) :
    ∀ n, track countCommits n es = n + es.countP FsEvent.commits := by
  induction es with
  | nil => exact fun n => rfl
  | cons ev es ih =>
      intro n
      have hstep : track countCommits n (ev :: es) = track countCommits (countCommits n ev.eff ev.ans) es := rfl
      rw [hstep, ih, List.countP_cons]
      unfold countCommits
      show _ = n + (es.countP FsEvent.commits + if ev.eff.committed ev.ans then 1 else 0)
      split <;> omega

section

variable {cfg : Config} {admits : Server → Call → Prop} {Hyp : FsConf → Prop} {c₀ c : FsConf}
  {es : List FsEvent}

/-- In every run, the commits of a call that has returned are as its answer says. -/
theorem counted_of_run (hnone : c₀.threads = []) (h : Run (fsSystem cfg admits) Hyp c₀ es c) {t : Nat}
    {th : FsThread} (hth : c.threads[t]? = some th) {r : Reply} (hr : th.result = some r) :
    th.tag.Counted r ((ownEvents t es).countP FsEvent.commits) := by
  have hwp := h.tracked countCommits 0 Call.Counted hnone (Call.counted cfg) t th hth
  rw [track_countCommits, Nat.zero_add] at hwp
  unfold Thread.result at hr
  split at hr
  · rename_i a ha
    cases hr
    rw [ha] at hwp
    exact hwp
  · cases hr

end

/-- The commits of one thread. -/
def commitsOf (t : Nat) (es : List FsEvent) : List FsEvent := (ownEvents t es).filter FsEvent.commits

theorem mem_commitsOf {t : Nat} {es : List FsEvent} {ev : FsEvent} :
    ev ∈ commitsOf t es ↔ ev ∈ es ∧ ev.thread = t ∧ ev.commits = true := by
  simp only [commitsOf, ownEvents, List.mem_filter, beq_iff_eq, and_assoc]

section

variable {cfg : Config} {admits : Server → Call → Prop} {Hyp : FsConf → Prop} {c₀ c : FsConf}
  {es : List FsEvent} {t : Nat} {th : FsThread} {r : Reply}

/-- A creation that has returned `Ok` has committed once. -/
theorem commits_of_created (hnone : c₀.threads = []) (h : Run (fsSystem cfg admits) Hyp c₀ es c)
    (hth : c.threads[t]? = some th) (hr : th.result = some r) (hok : r.isOk = true)
    (hc : th.tag.creates.isSome = true) : ∃ ev, commitsOf t es = [ev] := by
  have hone := (counted_of_run hnone h hth hr).1 hc hok
  rw [List.countP_eq_length_filter] at hone
  exact List.length_eq_one_iff.1 hone

/-- A removal or rename that has returned `Ok` has committed once. -/
theorem commits_of_removed (hnone : c₀.threads = []) (h : Run (fsSystem cfg admits) Hyp c₀ es c)
    (hth : c.threads[t]? = some th) (hr : th.result = some r) (hok : r.isOk = true)
    (hc : th.tag.takes ≠ []) : ∃ ev, commitsOf t es = [ev] := by
  have hone := (counted_of_run hnone h hth hr).2 hc
  rw [if_pos hok, List.countP_eq_length_filter] at hone
  exact List.length_eq_one_iff.1 hone

/-- A removal or rename that has committed returns `Ok`. -/
theorem isOk_of_commit (hnone : c₀.threads = []) (h : Run (fsSystem cfg admits) Hyp c₀ es c)
    (hth : c.threads[t]? = some th) (hr : th.result = some r) (hc : th.tag.takes ≠ []) {ev : FsEvent}
    (hev : ev ∈ commitsOf t es) : r.isOk = true := by
  have hcount := (counted_of_run hnone h hth hr).2 hc
  rw [List.countP_eq_length_filter] at hcount
  have hpos : 0 < ((ownEvents t es).filter FsEvent.commits).length := List.length_pos_of_mem hev
  split at hcount
  · assumption
  · omega

end

end RucksFs
