import RucksFs.Server.Concurrent
import RucksFs.Server.Log

/-!
# The compaction worker (`server/src/compaction.rs`)

`compact_dirty` takes the whole dirty set and compacts one inode after the other; an inode that it has not
compacted it marks again.  `run_loop` sleeps before a round unless the notify flag is up, and lowers the flag.

* `compactInode`, `compactDirty`, `loopTurn` — the functions of the source, over the effects `WorkEff`.
* `WorkEff.handle` — what one effect does, next to the history that the statements about marks speak of.
* `compactDirty_alone` — a round without other threads, inode by inode.
* `flag_down_iff` — the flag is down after such a round exactly if every drained inode was compacted;
  `one_create_wakes` — one inode below the threshold raises it.
* `Stuck.spins` — from then on no turn of the loop sleeps.
-/

set_option autoImplicit false

namespace RucksFs

open Op

/-- `CompactionConfig`. -/
structure CompactionConfig where
  intervalMs : Nat := 5000
  deltaThreshold : Nat := 32

/-! ## The functions of the worker -/

def compactInode (cc : CompactionConfig) (inode : Inode) : Op Bool := do
  let rawDeltas ← scanDeltas inode
  if rawDeltas.isEmpty then return false
  if rawDeltas.length < cc.deltaThreshold then return false
  forceCompactInode inode

/-- An effect of a call or of the worker on the server, or one on the worker's own data. -/
inductive WorkEff where
  | server (e : Eff)
  /-- `dirty.drain().collect()`. -/
  | drain
  /-- The loop over the drained inodes goes on to the next one. -/
  | advance
  /-- The wait at the top of `run_loop`. -/
  | waitNotify (intervalMs : Nat)

def WorkEff.Res : WorkEff → Type
  | .server e => e.Res
  | .drain => List Inode
  | .advance => Unit
  | .waitNotify _ => Bool

/-- One step. -/
def WorkEff.perform (e : WorkEff) : Prog WorkEff WorkEff.Res e.Res := Prog.perform e

/-- A program of the server, as the worker and the calls run it. -/
def onServer {α : Type} (x : Prog Eff Eff.Res α) : Prog WorkEff WorkEff.Res α :=
  Prog.expand (fun e => WorkEff.perform (.server e)) x

/-- The body of the loop of `compact_dirty`: whether the inode was compacted. -/
def compactOne (cc : CompactionConfig) (inode : Inode) : Prog WorkEff WorkEff.Res Bool := do
  match ← onServer (compactInode cc inode).run with
  | .ok true => return true
  | .ok false => do
      -- below threshold: re-mark as dirty for the next round
      WorkEff.perform (.server (.markDirty inode))
      return false
  | .error _ => do
      WorkEff.perform (.server (.markDirty inode))
      return false

/-- The loop of `compact_dirty`, `compacted` inodes on. -/
def compactEach (cc : CompactionConfig) : List Inode → Nat → Prog WorkEff WorkEff.Res Nat
  | [], compacted => return compacted
  | inode :: inodes, compacted => do
      let done ← compactOne cc inode
      WorkEff.perform .advance
      compactEach cc inodes (if done then compacted + 1 else compacted)

def compactDirty (cc : CompactionConfig) : Prog WorkEff WorkEff.Res (FsResult Nat) := do
  let inodes ← WorkEff.perform .drain
  return .ok (← compactEach cc inodes 0)

/-- One turn of `run_loop` while `running` is set: whether it slept, and what the round returned. -/
def loopTurn (cc : CompactionConfig) : Prog WorkEff WorkEff.Res (Bool × FsResult Nat) := do
  let slept ← WorkEff.perform (.waitNotify cc.intervalMs)
  return (slept, ← compactDirty cc)

/-! ## One effect -/

/-- Inode and number of each delta that a batch stores. -/
def deltaKeys (ops : List BatchOp) : List (Inode × Nat) :=
  ops.filterMap fun op => match op with
    | .putDelta i q _ => some (i, q)
    | _ => none

structure WorkState where
  server : Server
  /-- History: the keys of the deltas committed since the server started. -/
  committed : List (Inode × Nat) := []

structure WorkLocal where
  loc : Local := {}
  /-- History: inodes whose deltas the call has committed and which it has not marked since. -/
  unmarked : List Inode := []
  /-- The drained inodes that the round has not finished, the current one first. -/
  left : List Inode := []

/-- The history of marks after an effect on the server. -/
def Eff.unmarkedAfter (tx : Txn) (unmarked : List Inode) : Eff → List Inode
  | .commit => unmarked ++ (deltaKeys tx.batch).map Prod.fst
  | .markDirty i => unmarked.filter (· ≠ i)
  | _ => unmarked

/-- The history of commits after an effect on the server. -/
def Eff.committedAfter (tx : Txn) (committed : List (Inode × Nat)) : Eff → List (Inode × Nat)
  | .commit => committed ++ deltaKeys tx.batch
  | _ => committed

def WorkEff.handle (cfg : Config) : (e : WorkEff) → WorkLocal × WorkState → e.Res × WorkLocal × WorkState
  | .server e, (l, s) =>
      ((RucksFs.handle cfg e (l.loc.tx, s.server)).1,
        { l with loc := l.loc.after cfg s.server e, unmarked := e.unmarkedAfter l.loc.tx l.unmarked },
        ⟨(RucksFs.handle cfg e (l.loc.tx, s.server)).2.2, e.committedAfter l.loc.tx s.committed⟩)
  | .drain, (l, s) =>
      (s.server.dirty, { l with left := s.server.dirty }, { s with server := { s.server with dirty := [] } })
  | .advance, (l, s) => ((), { l with left := l.left.tail }, s)
  -- the answer says whether the thread slept; nobody raises the flag meanwhile
  | .waitNotify _, (l, s) =>
      (!s.server.notifyFlag, l, { s with server := { s.server with notifyFlag := false } })

/-! ## A round without other threads -/

/-- `compact_dirty`, run alone. -/
def Server.compactDirty (cfg : Config) (cc : CompactionConfig) (s : Server) : FsResult Nat × Server :=
  let r := Prog.run (WorkEff.handle cfg) (RucksFs.compactDirty cc) ({}, { server := s })
  (r.1, r.2.2.server)

/-- One turn of `run_loop`, run alone. -/
def Server.loopTurn (cfg : Config) (cc : CompactionConfig) (s : Server) : (Bool × FsResult Nat) × Server :=
  let r := Prog.run (WorkEff.handle cfg) (RucksFs.loopTurn cc) ({}, { server := s })
  (r.1, r.2.2.server)

/-- What `compact_inode` asks for: a stored base, and at least one and `delta_threshold` deltas. -/
def Db.Compactable (cc : CompactionConfig) (db : Db) (i : Inode) : Prop :=
  (db.inode i).isSome = true ∧ db.deltas i ≠ [] ∧ cc.deltaThreshold ≤ (db.deltas i).length

instance (cc : CompactionConfig) (db : Db) (i : Inode) : Decidable (db.Compactable cc i) :=
  inferInstanceAs (Decidable (_ ∧ _))

/-- What a round does with one inode. -/
def Server.compactStep (cc : CompactionConfig) (s : Server) (i : Inode) : Server :=
  match s.db.inode i with
  | some base => if s.db.Compactable cc i then s.compacted i base else s.markDirty i
  | none => s.markDirty i

section

variable (cfg : Config) (cc : CompactionConfig) (s : Server) (i : Inode)

theorem exec_compactInode (tx : Txn) :
    ∃ tx', exec cfg (compactInode cc i) (tx, s) =
      match s.db.inode i with
      | some base => if s.db.Compactable cc i then (.ok true, tx', s.compacted i base) else (.ok false, tx', s)
      | none => (.ok false, tx', s) := by
  have hscan : exec cfg (scanDeltas i) (tx, s) = (.ok (s.db.deltas i), tx, s) := rfl
  unfold compactInode
  rw [exec_bind, hscan]
  dsimp only
  by_cases hnil : s.db.deltas i = []
  · refine ⟨tx, ?_⟩
    have hno : ¬s.db.Compactable cc i := fun h => h.2.1 hnil
    cases s.db.inode i <;> simp [hnil, hno]
  · by_cases hfew : (s.db.deltas i).length < cc.deltaThreshold
    · refine ⟨tx, ?_⟩
      have hno : ¬s.db.Compactable cc i := fun h => Nat.not_le_of_lt hfew h.2.2
      cases s.db.inode i <;> simp [hfew, hno]
    · obtain ⟨tx', hforce⟩ := exec_forceCompactInode cfg s i tx
      have hkeys : s.db.scanDeltas i ≠ [] := fun h => hnil (by simp [Db.deltas, h])
      refine ⟨tx', ?_⟩
      simp only [List.isEmpty_iff, hnil, hfew, if_false]
      rw [hforce]
      cases hi : s.db.inode i with
      | none => simp [hkeys]
      | some base =>
          have hyes : s.db.Compactable cc i := ⟨by rw [hi]; rfl, hnil, Nat.le_of_not_lt hfew⟩
          simp [hkeys, hyes]

/-- The server under a run of a program of the server. -/
theorem run_onServer {α : Type} (x : Prog Eff Eff.Res α) (l : WorkLocal) (t : WorkState) :
    let r := Prog.run (WorkEff.handle cfg) (onServer x) (l, t)
    (r.1, r.2.1.loc.tx, r.2.2.server) = Prog.run (RucksFs.handle cfg) x (l.loc.tx, t.server) :=
  Prog.run_expand (fun st : WorkLocal × WorkState => (st.1.loc.tx, st.2.server)) (fun _ _ => rfl) x (l, t)

theorem run_compactOne (l : WorkLocal) (t : WorkState) :
    (Prog.run (WorkEff.handle cfg) (compactOne cc i) (l, t)).2.2.server = t.server.compactStep cc i := by
  obtain ⟨tx', hop⟩ := exec_compactInode cfg cc t.server i l.loc.tx
  have hrun := run_onServer cfg (compactInode cc i).run l t
  unfold compactOne Server.compactStep
  rw [Prog.run_bind]
  unfold exec at hop
  rw [hop] at hrun
  revert hrun
  generalize Prog.run (WorkEff.handle cfg) (onServer (compactInode cc i).run) (l, t) = r
  obtain ⟨a, l', t'⟩ := r
  intro hrun
  cases hi : t.server.db.inode i with
  | none =>
      rw [hi] at hrun
      obtain ⟨rfl, -, hserver⟩ : a = .ok false ∧ l'.loc.tx = tx' ∧ t'.server = t.server := by simpa using hrun
      exact congrArg (fun s => s.markDirty i) hserver
  | some base =>
      rw [hi] at hrun
      by_cases hc : t.server.db.Compactable cc i
      · obtain ⟨rfl, -, hserver⟩ : a = .ok true ∧ l'.loc.tx = tx' ∧ t'.server = t.server.compacted i base := by
          simpa [hc] using hrun
        exact hserver.trans (if_pos hc).symm
      · obtain ⟨rfl, -, hserver⟩ : a = .ok false ∧ l'.loc.tx = tx' ∧ t'.server = t.server := by
          simpa [hc] using hrun
        exact (congrArg (fun s => s.markDirty i) hserver).trans (if_neg hc).symm

theorem run_compactEach (is : List Inode) :
    ∀ (n : Nat) (l : WorkLocal) (t : WorkState),
      (Prog.run (WorkEff.handle cfg) (compactEach cc is n) (l, t)).2.2.server =
        is.foldl (Server.compactStep cc) t.server := by
  induction is with
  | nil => exact fun _ _ _ => rfl
  | cons i is ih =>
      intro n l t
      unfold compactEach
      rw [Prog.run_bind]
      show (Prog.run (WorkEff.handle cfg) (compactEach cc is _) (_, _)).2.2.server = _
      rw [ih, List.foldl_cons, run_compactOne]

/-- **A round alone** takes the dirty inodes one after the other. -/
theorem compactDirty_alone :
    (s.compactDirty cfg cc).2 = s.dirty.foldl (Server.compactStep cc) { s with dirty := [] } := by
  have hrun := run_compactEach cfg cc s.dirty 0 { left := s.dirty } ⟨{ s with dirty := [] }, []⟩
  have hret := Prog.run_bind (WorkEff.handle cfg) (fun n => .ret (.ok n : FsResult Nat)) (compactEach cc s.dirty 0)
    ({ left := s.dirty }, ⟨{ s with dirty := [] }, []⟩)
  rw [← hrun]
  exact congrArg (fun r => r.2.2.server) hret

end

/-! ## The flag after a round -/

namespace Server

variable {cc : CompactionConfig} {s : Server} {i j : Inode}

theorem compactStep_of_compactable (h : s.db.Compactable cc i) :
    ∃ base, s.db.inode i = some base ∧ s.compactStep cc i = s.compacted i base := by
  obtain ⟨base, hi⟩ := Option.isSome_iff_exists.1 h.1
  refine ⟨base, hi, ?_⟩
  unfold compactStep
  rw [hi]
  exact if_pos h

theorem compactStep_of_not_compactable (h : ¬s.db.Compactable cc i) : s.compactStep cc i = s.markDirty i := by
  unfold compactStep
  cases s.db.inode i with
  | none => rfl
  | some base => exact if_neg h

/-- The compaction of one inode leaves the records and deltas of the others. -/
theorem compactable_compactStep (hne : j ≠ i) :
    (s.compactStep cc i).db.Compactable cc j ↔ s.db.Compactable cc j := by
  by_cases h : s.db.Compactable cc i
  · obtain ⟨base, -, hstep⟩ := compactStep_of_compactable h
    have hinode : (s.compacted i base).db.inode j = s.db.inode j :=
      (inode_compaction i _ (s.db.scanDeltas i) s.db j).trans (if_neg hne)
    have hdeltas : (s.compacted i base).db.deltas j = s.db.deltas j :=
      (deltas_compacted s i base j).trans (if_neg hne)
    unfold Db.Compactable
    rw [hstep, hinode, hdeltas]
  · rw [compactStep_of_not_compactable h]
    rfl

theorem dirty_compactStep :
    (s.compactStep cc i).dirty = if s.db.Compactable cc i then s.dirty else s.dirty.insert i := by
  split
  · rename_i h
    obtain ⟨base, -, hstep⟩ := compactStep_of_compactable h
    rw [hstep]
    rfl
  · rename_i h
    rw [compactStep_of_not_compactable h]
    rfl

/-- As long as nobody else marks, the flag is up exactly if something has been marked. -/
theorem flag_compactStep (h : s.notifyFlag = true ↔ s.dirty ≠ []) :
    (s.compactStep cc i).notifyFlag = true ↔ (s.compactStep cc i).dirty ≠ [] := by
  by_cases hc : s.db.Compactable cc i
  · obtain ⟨base, -, hstep⟩ := compactStep_of_compactable hc
    rw [hstep]
    exact h
  · rw [compactStep_of_not_compactable hc]
    have hmem : i ∈ s.dirty.insert i := List.mem_insert_self
    have hflag : (s.notifyFlag || s.dirty.isEmpty) = true := by
      by_cases hd : s.dirty = []
      · simp [hd]
      · simp [h.2 hd]
    exact iff_of_true hflag (List.ne_nil_of_mem hmem)

theorem flag_foldl (cc : CompactionConfig) (is : List Inode) : ∀ s : Server, (s.notifyFlag = true ↔ s.dirty ≠ []) →
    ((is.foldl (compactStep cc) s).notifyFlag = true ↔ (is.foldl (compactStep cc) s).dirty ≠ []) := by
  induction is with
  | nil => exact fun _ h => h
  | cons i is ih => exact fun s h => ih _ (flag_compactStep h)

/-- Nothing is marked again exactly if all are compacted. -/
theorem dirty_foldl (cc : CompactionConfig) (is : List Inode) : ∀ s : Server, is.Nodup →
    ((is.foldl (compactStep cc) s).dirty = [] ↔ s.dirty = [] ∧ ∀ i ∈ is, s.db.Compactable cc i) := by
  induction is with
  | nil => simp
  | cons i is ih =>
      intro s hnodup
      obtain ⟨hi, hrest⟩ := List.nodup_cons.1 hnodup
      rw [List.foldl_cons, ih _ hrest, dirty_compactStep]
      by_cases hc : s.db.Compactable cc i
      · have hlater : (∀ j ∈ is, (s.compactStep cc i).db.Compactable cc j) ↔
            ∀ j ∈ is, s.db.Compactable cc j := by
          apply forall₂_congr
          intro j hj
          apply compactable_compactStep
          rintro rfl
          exact hi hj
        rw [if_pos hc, hlater, List.forall_mem_cons]
        simp [hc]
      · rw [if_neg hc, List.forall_mem_cons]
        have hmem : i ∈ s.dirty.insert i := List.mem_insert_self
        simp [hc, List.ne_nil_of_mem hmem]

/-- **A round alone leaves the flag down exactly if it compacts every inode it has drained**: an inode that is
marked again comes into an empty set. -/
theorem flag_down_iff (cfg : Config) (cc : CompactionConfig) (s : Server) (hset : s.dirty.Nodup)
    (hflag : s.notifyFlag = false) :
    (s.compactDirty cfg cc).2.notifyFlag = false ↔ ∀ i ∈ s.dirty, s.db.Compactable cc i := by
  have hround := flag_foldl cc s.dirty { s with dirty := [] } (by simp [hflag])
  have hdirty := dirty_foldl cc s.dirty { s with dirty := [] } hset
  rw [compactDirty_alone, ← Bool.not_eq_true, hround, not_not, hdirty]
  simp

/-- A server that has created one file; the wait at the top of the loop has lowered the flag. -/
def afterOneCreate : Server :=
  { ((Server.fresh {}).exec {} (.create 1 [97] 0o644 0 0)).2 with notifyFlag := false }

theorem flag_down_threshold_two :
    (afterOneCreate.compactDirty {} { deltaThreshold := 2 }).2.notifyFlag = false ↔
      ∀ i ∈ afterOneCreate.dirty, afterOneCreate.db.Compactable { deltaThreshold := 2 } i :=
  flag_down_iff {} { deltaThreshold := 2 } afterOneCreate (by decide +kernel) (by decide +kernel)

/-- The root has two deltas, and the worker compacts from 32 on. -/
theorem one_create_wakes : afterOneCreate.dirty.Nodup ∧ afterOneCreate.notifyFlag = false ∧
    (afterOneCreate.compactDirty {} {}).2.notifyFlag = true ∧
    ((afterOneCreate.compactDirty {} {}).2.loopTurn {} {}).1.1 = false := by
  decide +kernel

/-! ## The loop -/

/-- An inode that the worker marks again in every round. -/
def Stuck (cc : CompactionConfig) (s : Server) (i : Inode) : Prop := i ∈ s.dirty ∧ ¬s.db.Compactable cc i

theorem compactable_foldl (h : ¬s.db.Compactable cc i) (is : List Inode) :
    ¬(is.foldl (compactStep cc) s).db.Compactable cc i := by
  induction is generalizing s with
  | nil => exact h
  | cons j is ih =>
      apply ih
      by_cases e : i = j
      · rw [← e, compactStep_of_not_compactable h]
        exact h
      · rwa [compactable_compactStep e]

theorem mem_dirty_foldl (is : List Inode) : ∀ s : Server, ¬s.db.Compactable cc i → i ∈ s.dirty ∨ i ∈ is →
    i ∈ (is.foldl (compactStep cc) s).dirty := by
  induction is with
  | nil => simp
  | cons j is ih =>
      intro s hn hmem
      have hstep : i ∈ (s.compactStep cc j).dirty ∨ i ∈ is := by
        rw [dirty_compactStep]
        rcases hmem with hd | hd
        · left
          split
          · exact hd
          · exact List.mem_insert_of_mem hd
        · rcases List.mem_cons.1 hd with rfl | hd
          · left
            rw [if_neg hn]
            exact List.mem_insert_self
          · exact Or.inr hd
      exact ih _ (compactable_foldl hn [j]) hstep

theorem loopTurn_alone (cfg : Config) (cc : CompactionConfig) (s : Server) :
    (s.loopTurn cfg cc).1.1 = !s.notifyFlag ∧
      (s.loopTurn cfg cc).2 = ({ s with notifyFlag := false }.compactDirty cfg cc).2 := by
  have hret := Prog.run_bind (WorkEff.handle cfg) (fun r => .ret (!s.notifyFlag, r)) (RucksFs.compactDirty cc)
    ({}, ⟨{ s with notifyFlag := false }, []⟩)
  exact ⟨congrArg (fun r => r.1.1) hret, congrArg (fun r => r.2.2.server) hret⟩

/-- One turn with a stuck inode leaves it stuck and the flag up. -/
theorem Stuck.loopTurn (cfg : Config) (h : s.Stuck cc i) :
    (s.loopTurn cfg cc).2.Stuck cc i ∧ (s.loopTurn cfg cc).2.notifyFlag = true := by
  have hmem := mem_dirty_foldl s.dirty { s with dirty := [], notifyFlag := false } h.2 (Or.inr h.1)
  have hstuck := compactable_foldl (s := { s with dirty := [], notifyFlag := false }) h.2 s.dirty
  have hflag := flag_foldl cc s.dirty { s with dirty := [], notifyFlag := false } (by simp)
  rw [(loopTurn_alone cfg cc s).2, compactDirty_alone]
  exact ⟨⟨hmem, hstuck⟩, hflag.2 (List.ne_nil_of_mem hmem)⟩

/-- **The loop spins** on an inode that stays below the threshold: no turn after the first one sleeps. -/
theorem Stuck.spins (cfg : Config) (h : s.Stuck cc i) (n : Nat) :
    (((fun s => (s.loopTurn cfg cc).2)^[n + 1] s).loopTurn cfg cc).1.1 = false := by
  have hall : ∀ n, ((fun s => (s.loopTurn cfg cc).2)^[n + 1] s).Stuck cc i ∧
      ((fun s => (s.loopTurn cfg cc).2)^[n + 1] s).notifyFlag = true := by
    intro n
    induction n with
    | zero => exact h.loopTurn cfg
    | succ n ih =>
        rw [Function.iterate_succ_apply']
        exact ih.1.loopTurn cfg
  rw [(loopTurn_alone cfg cc _).1, (hall n).2]
  rfl

/-- One `create`, and the worker never sleeps again. -/
theorem Stuck.spins_after_create : afterOneCreate.Stuck {} ROOT_INODE ∧
    ∀ n, (((fun s => (s.loopTurn {} {}).2)^[n + 1] afterOneCreate).loopTurn {} {}).1.1 = false := by
  have hstuck : afterOneCreate.Stuck {} ROOT_INODE := ⟨by decide +kernel, by decide +kernel⟩
  exact ⟨hstuck, hstuck.spins {}⟩

end Server

end RucksFs
