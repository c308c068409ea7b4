import RucksFs.Server.Locking
import RucksFs.Server.Numbers

/-!
# Writes that wait for a lock

`AtomicWriteBatch::push` takes the lock of the row it writes, and its `expect` panics when another transaction
has held the row for the whole timeout.  Most rows are locked by `get_for_update` before they are written.  The
others are written without: the record of a new inode, deltas under their own numbers, and the record that
`release` deletes.

* `release_waits_for_report_write` — `release` about to delete a record that `report_write` has locked.
* `PushApart` — what keeps two running calls apart: neither is given the number of an inode that the other is
  creating, nobody uses an inode whose deferred deletion is due, and nobody uses a directory whose deltas are
  being cleared, as this starts its numbers again.
* `push_never_waits` — in every run whose calls are apart, no `push` asks for a row locked elsewhere.
-/

set_option autoImplicit false

namespace RucksFs

open Server Prog

/-! ## Waiting writes -/

/-- The row a thread is about to write. -/
def pushRow (th : FsThread) : Option Row :=
  match th.nextEff with
  | some (.push op) => some op.row
  | _ => none

/-- Thread `m` is about to write a row that the transaction of thread `n` has locked. -/
def PushWaits (c : FsConf) (m n : Nat) : Prop :=
  m ≠ n ∧ ∃ a ∈ c.threads[m]?, ∃ b ∈ c.threads[n]?, ∃ row ∈ pushRow a, row ∈ b.loc.tx.locks

instance (c : FsConf) (m n : Nat) : Decidable (PushWaits c m n) := by
  unfold PushWaits
  infer_instance

/-- File 2 is created, opened and unlinked.  A `report_write` has locked its record when the last `release`
finds that the deletion is due. -/
def releaseAndReport : List (Choice Call) :=
  .start (.create ROOT_INODE [97] 0o644 0 0) :: List.replicate 17 (.run 0) ++
    .start (.openFile 2 0) :: List.replicate 3 (.run 1) ++
      .start (.unlink ROOT_INODE [97]) :: List.replicate 18 (.run 2) ++
        .start (.reportWrite 2 1 0) :: .run 3 :: .run 3 :: .start (.release 2) :: [.run 4, .run 4]

theorem release_waits_for_report_write : ∃ c,
    Reach (fsSystem {} fun _ _ => True) (fun _ => True) ⟨Server.fresh {}, []⟩ c ∧
    c.threads.map (fun th => (th.tag, th.result.isSome)) =
      [(.create ROOT_INODE [97] 0o644 0 0, true), (.openFile 2 0, true), (.unlink ROOT_INODE [97], true),
        (.reportWrite 2 1 0, false), (.release 2, false)] ∧
    PushWaits c 4 3 := by
  have hrun : ((fsScheduler {} (fun _ _ => True) (fun _ => True)).run releaseAndReport
      ⟨Server.fresh {}, []⟩).map (fun c =>
        (c.threads.map (fun th => (th.tag, th.result.isSome)), decide (PushWaits c 4 3))) =
      some ([(.create ROOT_INODE [97] 0o644 0 0, true), (.openFile 2 0, true), (.unlink ROOT_INODE [97], true),
        (.reportWrite 2 1 0, false), (.release 2, false)], true) := by decide +kernel
  obtain ⟨c, hc, hv⟩ := Option.map_eq_some_iff.1 hrun
  obtain ⟨hcalls, hwaits⟩ := Prod.mk.inj hv
  exact ⟨c, fsScheduler_reach {} _ (fun _ => True) releaseAndReport trivial hc, hcalls, of_decide_eq_true hwaits⟩

/-! ## Calls that keep apart -/

section

variable (cfg : Config) (a b : FsThread)

/-- Call `a` may not lock the record of an inode that `b` is creating. -/
def NamesApart : Prop := ∀ i ∈ a.tag.inodes cfg, i ∉ b.loc.tx.allocated

/-- Call `b` uses no inode whose deferred deletion `a` has found due. -/
def ReleaseApart : Prop :=
  match a.tag with
  | .release i => i ∈ a.loc.files →
      i ∉ b.tag.inodes cfg ∧ ∀ x ∈ b.loc.tx.dirReads, ∀ v ∈ x.2.2, v.inode ≠ i
  | _ => True

/-- Call `b` writes no deltas of an inode, and folds none, whose deltas `a` is about to clear. -/
def ClearApart : Prop :=
  match a.nextEff with
  | some (.clearDeltas i) => i ∉ b.tag.folds
  | _ => True

/-- The calls that are running keep apart. -/
def PushApart : Prop :=
  a.result.isNone = true → b.result.isNone = true → NamesApart cfg a b ∧ ReleaseApart cfg a b ∧ ClearApart a b

instance : Decidable (NamesApart cfg a b) := inferInstanceAs (Decidable (∀ i ∈ a.tag.inodes cfg, i ∉ b.loc.tx.allocated))

/-- The inode of a `release`. -/
def Call.releasing : Call → Option Inode
  | .release i => some i
  | _ => none

theorem releaseApart_iff : ReleaseApart cfg a b ↔ ∀ i ∈ a.tag.releasing, i ∈ a.loc.files →
    i ∉ b.tag.inodes cfg ∧ ∀ x ∈ b.loc.tx.dirReads, ∀ v ∈ x.2.2, v.inode ≠ i := by
  unfold ReleaseApart
  cases a.tag <;> simp [Call.releasing]

instance : Decidable (ReleaseApart cfg a b) := decidable_of_iff' _ (releaseApart_iff cfg a b)

instance : Decidable (ClearApart a b) := by
  unfold ClearApart
  split <;> infer_instance

instance : Decidable (PushApart cfg a b) := by
  unfold PushApart
  infer_instance

end

/-! ## The ghost state of a thread -/

/-- The ghost state tells of the thread's transaction. -/
structure Tied (l : Local) (g : LockWatch) : Prop where
  locks : l.tx.locks = g.locks
  reads : ∀ i ∈ g.reads, ∃ p n v, (p, n, some v) ∈ l.tx.dirReads ∧ v.inode = i
  fresh : l.tx.allocated = g.fresh
  numbers : ∀ i q, (i, q) ∈ g.numbers ↔ ∃ d, (i, q, d) ∈ l.tx.seqs
  scanned : g.scanned = l.tx.scanned.map fun x => (x.1, x.2.map Prod.fst)
  due : ∀ i, g.due = some i → i ∈ l.files
  clean : g.clean = true → l.tx.batch = []

namespace Tied

variable {cfg : Config} {call : Call} {os : List FsThread} {e : Eff} {l l' : Local} {s s' : Server} {r : e.Res}
  {g : LockWatch}

/-- An ended transaction. -/
theorem ended (h : Tied l g) {tx : Txn} (hlocks : tx.locks = []) (hfresh : tx.allocated = []) (hseqs : tx.seqs = [])
    (hscan : tx.scanned = none) (hbatch : tx.batch = []) {fs : List Inode} (hfs : ∀ i ∈ l.files, i ∈ fs) :
    Tied ⟨tx, fs⟩ { due := g.due } where
  locks := hlocks
  reads := nofun
  fresh := hfresh
  numbers i q := by simp [hseqs]
  scanned := by simp [hscan]
  due i hi := hfs i (h.due i hi)
  clean _ := hbatch

/-- A call's own number comes last. -/
theorem nextSeq (h : Tied l g) (p : Inode) (q : Nat) (d : DeltaOp) :
    Tied { l with tx := { l.tx with seqs := l.tx.seqs ++ [(p, q, d)] } } { g with numbers := (p, q) :: g.numbers } where
  locks := h.locks
  reads := h.reads
  fresh := h.fresh
  numbers i q' := by
    have hold := h.numbers i q'
    simp only [List.mem_cons, List.mem_append, List.not_mem_nil, or_false, Prod.mk.injEq, hold]
    constructor
    · rintro (⟨rfl, rfl⟩ | ⟨d', hd⟩)
      · exact ⟨d, Or.inr ⟨rfl, rfl, rfl⟩⟩
      · exact ⟨d', Or.inl hd⟩
    · rintro ⟨d', hd | ⟨rfl, rfl, rfl⟩⟩
      · exact Or.inr ⟨d', hd⟩
      · exact Or.inl ⟨rfl, rfl⟩
  scanned := h.scanned
  due := h.due
  clean := h.clean

theorem entry (h : Tied l g) (p : Inode) (n : Name) (o : Option DirValue) :
    Tied { l with tx := { l.tx with locks := .dirEntry p n :: l.tx.locks, dirReads := (p, n, o) :: l.tx.dirReads } }
      { g with locks := .dirEntry p n :: g.locks, reads := (o.map (·.inode)).toList ++ g.reads } where
  locks := congrArg _ h.locks
  reads i hi := by
    rcases List.mem_append.1 hi with hi | hi
    · cases o with
      | none => cases hi
      | some v => exact ⟨p, n, v, List.mem_cons_self, (List.mem_singleton.1 hi).symm⟩
    · obtain ⟨p', n', v, hm, hv⟩ := h.reads i hi
      exact ⟨p', n', v, List.mem_cons_of_mem _ hm, hv⟩
  fresh := h.fresh
  numbers := h.numbers
  scanned := h.scanned
  due := h.due
  clean := h.clean

/-- What one effect does to the transaction the ghost state follows. -/
theorem act (h : Tied l g) (hpre : g.Pre cfg call e) (ha : Acts cfg os e l s r l' s') : Tied l' (g.upd e r) := by
  cases ha with
  | failed hf =>
      cases e with
      | commit => exact h.ended rfl rfl rfl rfl rfl fun _ hi => hi
      | getForUpdateDirEntry p n => cases hf; exact h
      | getForUpdateInode i => cases hf; exact h
      | scanDeltasWithKeys i => cases hf; exact h
      | _ => first | exact h | cases hf
  | done hb =>
      cases e with
      | beginWrite =>
          exact ⟨rfl, (fun _ h => by cases h), rfl, fun i q => by simp [Local.after, handle, LockWatch.upd], h.scanned,
            h.due, fun _ => rfl⟩
      | dropBatch => exact h.ended rfl rfl rfl rfl rfl fun _ hi => hi
      | commit => exact h.ended rfl rfl rfl rfl rfl fun _ hi => hi
      | getForUpdateDirEntry p n =>
          -- nothing is written yet, so the entry read is the committed one
          have hans : (s.db.applyBatch l.tx.batch).entry p n = s.db.entry p n := by rw [h.clean hpre]; rfl
          show Tied _ (g.upd (.getForUpdateDirEntry p n) (.ok ((s.db.applyBatch l.tx.batch).entry p n)))
          rw [hans]
          exact h.entry p n _
      | getForUpdateInode i =>
          exact ⟨congrArg _ h.locks, h.reads, h.fresh, h.numbers, h.scanned,
            fun j hj => (Eff.mem_remember (h.due j hj) : j ∈ (Eff.getForUpdateInode i).remember s l.files), h.clean⟩
      | isDirEmpty d => exact ⟨h.locks, h.reads, h.fresh, h.numbers, h.scanned, h.due, h.clean⟩
      | push op => exact ⟨congrArg _ h.locks, h.reads, h.fresh, h.numbers, h.scanned, h.due, fun h => by cases h⟩
      | alloc => exact ⟨h.locks, h.reads, congrArg _ h.fresh, h.numbers, h.scanned, h.due, h.clean⟩
      | nextSeq p d => exact h.nextSeq p (s.seqs p) d
      | scanDeltasWithKeys i => exact ⟨h.locks, h.reads, h.fresh, h.numbers, rfl, h.due, h.clean⟩
      | checkAndClearDeferredDelete i =>
          have hdue : ∀ j, g.due = some j → j ∈ (Eff.checkAndClearDeferredDelete i).remember s l.files :=
            fun j hj => Eff.mem_remember (h.due j hj)
          show Tied ⟨l.tx, (Eff.checkAndClearDeferredDelete i).remember s l.files⟩
            (g.upd (.checkAndClearDeferredDelete i) (s.checkAndClearDeferredDelete i).1)
          cases hc : (s.checkAndClearDeferredDelete i).1 with
          | false => exact ⟨h.locks, h.reads, h.fresh, h.numbers, h.scanned, hdue, h.clean⟩
          | true =>
              refine ⟨h.locks, h.reads, h.fresh, h.numbers, h.scanned, fun j hj => ?_, h.clean⟩
              cases hj
              simp [Eff.remember, hc]
      | _ => exact h

end Tied

/-! ## Numbers -/

/-- The numbers a compaction has scanned have been given out, and no transaction has taken one of them. -/
def Scanned (c : FsConf) : Prop :=
  ∀ (m n : Nat) (a b : FsThread), c.threads[m]? = some a → c.threads[n]? = some b →
    ∀ i ks, a.loc.tx.scanned = some (i, ks) → ∀ x ∈ ks,
      x.1 < c.shared.seqs i ∧ ∀ y ∈ numbersOf i b.loc.tx.seqs, y.1 ≠ x.1

/-- Whoever runs next to a call that clears the deltas of `j` has nothing to do with them. -/
def Clears (c : FsConf) (j : Inode) : Prop :=
  Pool (fun th => numbersOf j th.loc.tx.seqs = [] ∧ ∀ ks, th.loc.tx.scanned = some (j, ks) → ks = []) c.threads

section

variable {cfg : Config} {strict : Prop} {c : FsConf} {n : Nat} {call : Call} {e : Eff}
  {k : e.Res → Prog Eff Eff.Res Reply} {r : e.Res} {l l' : Local} {s' : Server}

theorem Clears.numbered {j : Inode} (hc : Clears c j)
    (hn : c.threads[n]? = some ⟨call, .call e k, l⟩) :
    Numbered j ⟨c.shared.clearDeltas j, c.threads.set n ⟨call, k r, l⟩⟩ := by
  have hown : numbersOf j l.tx.seqs = [] := (hc n _ hn).1
  have hnone : Pool (fun th : FsThread => numbersOf j th.loc.tx.seqs = []) (c.threads.set n ⟨call, k r, l⟩) :=
    Pool.set (fun m u hu => (hc m u hu).1) hown fun _ _ _ _ hu => hu
  refine ⟨fun {q d} hd => ?_, fun m u hu x hx => ?_, fun m u hu => ?_, fun m m' u v _ hu hv x hx => ?_⟩
  · rw [Db.delta_clearDeltas, if_pos rfl] at hd
    cases hd
  · rw [hnone m u hu] at hx
    cases hx
  · show DistinctNumbers _
    rw [hnone m u hu]
    exact .nil
  · rw [hnone m u hu] at hx
    cases hx

/-- One effect next to the numbers that thread `m` has scanned. -/
theorem Scanned.step (h : Scanned c) (hn : c.threads[n]? = some ⟨call, .call e k, l⟩)
    (hclear : ∀ j, e = .clearDeltas j → Clears c j) (ha : Acts cfg (c.threads.eraseIdx n) e l c.shared r l' s')
    {m : Nat} {a : FsThread} (hm : c.threads[m]? = some a) {i : Inode} {ks : List (Nat × DeltaOp)}
    (hs : a.loc.tx.scanned = some (i, ks)) {x : Nat × DeltaOp} (hx : x ∈ ks) :
    x.1 < s'.seqs i ∧ ∀ y ∈ numbersOf i l'.tx.seqs, y.1 ≠ x.1 := by
  obtain ⟨hlt, hne⟩ := h m n a _ hm hn i ks hs x hx
  rcases ha.log_cases with ⟨rfl, rfl, rfl⟩ | ⟨j, rfl, rfl, rfl⟩ | ⟨p, d, rfl, hdb, hq, rfl⟩ | ⟨hd, hq, hl⟩
  · exact ⟨hlt, nofun⟩
  · by_cases hij : i = j
    · subst hij
      rw [(hclear i rfl m a hm).2 ks hs] at hx
      cases hx
    · refine ⟨?_, hne⟩
      show x.1 < Function.update c.shared.seqs j 0 i
      rw [Function.update_of_ne hij]
      exact hlt
  · rw [hq]
    show _ ∧ ∀ y ∈ numbersOf i (l.tx.seqs ++ [(p, c.shared.seqs p, d)]), y.1 ≠ x.1
    rw [numbersOf_append, numbersOf_singleton]
    by_cases hip : i = p
    · subst hip
      rw [Function.update_self, if_pos rfl]
      refine ⟨Nat.lt_succ_of_lt hlt, fun y hy => ?_⟩
      rcases List.mem_append.1 hy with hy | hy
      · exact hne y hy
      · rw [List.mem_singleton.1 hy]
        exact Nat.ne_of_gt hlt
    · rw [Function.update_of_ne hip, if_neg (Ne.symm hip), List.append_nil]
      exact ⟨hlt, hne⟩
  · rw [hq]
    rcases hl with hl | hl
    · rw [hl]
      exact ⟨hlt, hne⟩
    · rw [hl]
      exact ⟨hlt, nofun⟩

/-- What a scan finds is stored, so nobody has taken its number. -/
theorem Numbered.scan {i : Inode} (h : Numbered i c) {x : Nat × DeltaOp} (hx : x ∈ c.shared.db.scanDeltas i) :
    x.1 < c.shared.seqs i ∧ Pool (fun th => ∀ y ∈ numbersOf i th.loc.tx.seqs, y.1 ≠ x.1) c.threads := by
  have hstored := Db.mem_scanDeltas.1 hx
  refine ⟨h.stored hstored, fun m u hu y hy e => ?_⟩
  have hnone := (h.taken m u hu y hy).2
  rw [e, hstored] at hnone
  cases hnone

theorem Scanned.act (h : Scanned c) (hnum : ∀ i, Numbered i c) (hn : c.threads[n]? = some ⟨call, .call e k, l⟩)
    (hclear : ∀ j, e = .clearDeltas j → Clears c j) (ha : Acts cfg (c.threads.eraseIdx n) e l c.shared r l' s') :
    Scanned ⟨s', c.threads.set n ⟨call, k r, l'⟩⟩ := by
  -- numbers scanned before the effect
  have hold : ∀ {m : Nat} {a : FsThread}, c.threads[m]? = some a → ∀ i ks, a.loc.tx.scanned = some (i, ks) →
      ∀ x ∈ ks, x.1 < s'.seqs i ∧
        Pool (fun th => ∀ y ∈ numbersOf i th.loc.tx.seqs, y.1 ≠ x.1) (c.threads.set n ⟨call, k r, l'⟩) := by
    intro m a hm i ks hs x hx
    obtain ⟨hlt, hown⟩ := h.step hn hclear ha hm hs hx
    exact ⟨hlt, Pool.set (fun m' u hu => (h m m' a u hm hu i ks hs x hx).2) hown fun _ _ _ _ hu => hu⟩
  intro m m' a b hm hm' i ks hs x hx
  have hpair : x.1 < s'.seqs i ∧
      Pool (fun th => ∀ y ∈ numbersOf i th.loc.tx.seqs, y.1 ≠ x.1) (c.threads.set n ⟨call, k r, l'⟩) := by
    rcases getElem?_set_cases hm with ⟨rfl, rfl⟩ | ⟨-, hm⟩
    · rcases ha.scanned hs with hs | ⟨rfl, rfl⟩
      · exact hold hn i ks hs x hx
      · obtain ⟨hlt, hpool⟩ := (hnum i).scan hx
        rcases ha.log_cases with ⟨h, -⟩ | ⟨j, h, -⟩ | ⟨p, d, h, -⟩ | ⟨-, hq, hl⟩
        · cases h
        · cases h
        · cases h
        refine ⟨hq ▸ hlt, hpool.set (fun y hy => ?_) fun _ _ _ _ hu => hu⟩
        rcases hl with hl | hl
        · exact hpool _ _ hn y (hl ▸ hy)
        · rw [hl] at hy
          cases hy
    · exact hold hm i ks hs x hx
  exact ⟨hpair.1, hpair.2 m' b hm'⟩

end

/-! ## No write waits -/

theorem Call.parents_subset_folds {call : Call} {p : Inode} (h : p ∈ call.parents) : p ∈ call.folds := by
  cases call <;> first | exact h | cases h

/-- What is known of a state whose threads have ghost states `γ`. -/
structure Watched (cfg : Config) (γ : Nat → LockWatch) (c : FsConf) : Prop where
  tied : ∀ m th, c.threads[m]? = some th → Tied th.loc (γ m)
  explained : ∀ m th, c.threads[m]? = some th → (γ m).Explained cfg th.tag
  numbered : ∀ i, Numbered i c
  scanned : Scanned c

/-- The contract of a thread at its ghost state. -/
def LocksFollowed (cfg : Config) (γ : Nat → LockWatch) (c : FsConf) : Prop :=
  ∀ m th, c.threads[m]? = some th → wp (locking cfg th.tag) th.prog (fun _ g => g.Idle) (γ m)

section

variable {cfg : Config} {γ : Nat → LockWatch} {c : FsConf} {m n : Nat} {a b : FsThread}

theorem isNone_of_nextEff {e : Eff} (h : a.nextEff = some e) : a.result.isNone = true := by
  unfold Thread.nextEff at h
  unfold Thread.result
  cases hp : a.prog with
  | ret x =>
      rw [hp] at h
      cases h
  | call e' k => rfl

/-- What a thread is about to do meets its contract. -/
theorem pre_of_nextEff {G : Type} {C : Contract Eff Eff.Res G} {Q : Reply → G → Prop} {g : G} {e : Eff}
    (h : wp C a.prog Q g) (he : a.nextEff = some e) : C.pre e g := by
  unfold Thread.nextEff at he
  split at he
  · cases he
  · rename_i e' k hp
    cases he
    rw [hp] at h
    exact h.1

namespace Watched

/-- A call that has returned has given everything up. -/
theorem idle_of_result (h : LocksFollowed cfg γ c) (hm : c.threads[m]? = some a) (hr : a.result.isNone = false) :
    (γ m).Idle := by
  have hwp := h m a hm
  unfold Thread.result at hr
  split at hr
  · rename_i x hp
    rw [hp] at hwp
    exact hwp
  · cases hr

/-- Clearing the deltas of `j` is apart from everybody. -/
theorem clears (h : Watched cfg γ c) (hf : LocksFollowed cfg γ c) (hyp : Apart (PushApart cfg) c.threads) {call : Call}
    {j : Inode} {k : FsResult Unit → Prog Eff Eff.Res Reply} {l : Local}
    (hn : c.threads[n]? = some ⟨call, .call (.clearDeltas j) k, l⟩) : Clears c j := by
  intro m th hm
  -- what a thread has taken or scanned, its ghost state knows
  have hnone : (∀ q, (j, q) ∉ (γ m).numbers) ∧ (∀ qs, (γ m).scanned = some (j, qs) → qs = []) := by
    by_cases hmn : m = n
    · subst hmn
      rw [hn] at hm
      cases hm
      obtain ⟨hnum, hscan⟩ : (γ m).numbers = [] ∧ (γ m).scanned = none := (hf m _ hn).1
      simp [hnum, hscan]
    cases hr : th.result.isNone with
    | false =>
        obtain ⟨-, hnum, hscan⟩ := idle_of_result hf hm hr
        exact ⟨by simp [hnum], fun qs hqs => hscan j qs hqs⟩
    | true =>
        have hj : j ∉ th.tag.folds := (hyp n m _ th (Ne.symm hmn) hn hm rfl hr).2.2
        refine ⟨fun q hq => hj ?_, fun qs hqs => absurd ?_ hj⟩
        · exact Call.parents_subset_folds ((h.explained m th hm).numbers j q hq)
        · rw [(h.explained m th hm).scanned j qs hqs]
          exact List.mem_cons_self
  have htied := h.tied m th hm
  refine ⟨List.eq_nil_iff_forall_not_mem.2 fun x hx => ?_, fun ks hs => ?_⟩
  · exact hnone.1 x.1 ((htied.numbers j x.1).2 ⟨x.2, mem_numbersOf.1 hx⟩)
  · have hqs := hnone.2 (ks.map Prod.fst) (by rw [htied.scanned, hs]; rfl)
    exact List.map_eq_nil_iff.1 hqs

theorem start (h : Watched cfg γ c) {call : Call} {admits : Server → Call → Prop} :
    Watched cfg (Function.update γ c.threads.length {}) ⟨c.shared, c.threads ++ [(fsSystem cfg admits).spawn call]⟩ := by
  refine ⟨fun m th hm => ?_, fun m th hm => ?_, fun i => (h.numbered i).start, fun m m' a b hm hm' i ks hs x hx => ?_⟩
  · rcases getElem?_append_cases hm with ⟨rfl, rfl⟩ | ⟨hne, hm⟩
    · rw [Function.update_self]
      exact ⟨rfl, (fun _ h => by cases h), rfl, fun i q => by simp [fsSystem, System.spawn], rfl, (fun _ h => by cases h),
        fun _ => rfl⟩
    · rw [Function.update_of_ne hne]
      exact h.tied m th hm
  · rcases getElem?_append_cases hm with ⟨rfl, rfl⟩ | ⟨hne, hm⟩
    · rw [Function.update_self]
      exact .empty cfg _ none
    · rw [Function.update_of_ne hne]
      exact h.explained m th hm
  · rcases getElem?_append_cases hm with ⟨-, rfl⟩ | ⟨-, hm⟩
    · cases hs
    · rcases getElem?_append_cases hm' with ⟨-, rfl⟩ | ⟨-, hm'⟩
      · exact ⟨(h.scanned m m a a hm hm i ks hs x hx).1, fun _ h => by cases h⟩
      · exact h.scanned m m' a b hm hm' i ks hs x hx

theorem act (h : Watched cfg γ c) (hf : LocksFollowed cfg γ c) (hyp : Apart (PushApart cfg) c.threads) (hi : Isolated c)
    {call : Call} {e : Eff} {k : e.Res → Prog Eff Eff.Res Reply} {r : e.Res} {l l' : Local} {s' : Server}
    (hn : c.threads[n]? = some ⟨call, .call e k, l⟩) (hpre : (γ n).Pre cfg call e)
    (hcon : (contract cfg False call).pre e l) (ha : Acts cfg (c.threads.eraseIdx n) e l c.shared r l' s') :
    Watched cfg (Function.update γ n ((γ n).upd e r)) ⟨s', c.threads.set n ⟨call, k r, l'⟩⟩ := by
  refine ⟨fun m th hm => ?_, fun m th hm => ?_, fun i => ?_, h.scanned.act h.numbered hn ?_ ha⟩
  · rcases getElem?_set_cases hm with ⟨rfl, rfl⟩ | ⟨hne, hm⟩
    · rw [Function.update_self]
      exact (h.tied m _ hn).act hpre ha
    · rw [Function.update_of_ne hne]
      exact h.tied m th hm
  · rcases getElem?_set_cases hm with ⟨rfl, rfl⟩ | ⟨hne, hm⟩
    · rw [Function.update_self]
      exact (h.explained m _ hn).step e r hpre
    · rw [Function.update_of_ne hne]
      exact h.explained m th hm
  · by_cases he : e = .clearDeltas i
    · subst he
      have hc := h.clears hf hyp hn
      rcases ha.log_cases with ⟨e, -⟩ | ⟨j, e, rfl, rfl⟩ | ⟨p, d, e, -⟩ | ⟨hd, hq, hl⟩
      · cases e
      · cases e
        exact hc.numbered hn
      · cases e
      · refine (h.numbered i).quiet hn (fun q => Db.delta_congr hd i q) (by rw [hq]) ?_
        exact hl.imp (fun e => by rw [e]) fun e => by rw [e]; rfl
    · exact (h.numbered i).act hi hn hcon he ha
  · rintro j rfl
    exact h.clears hf hyp hn

/-- Who holds a lock has not returned. -/
theorem running_of_held (hf : LocksFollowed cfg γ c) (hb : c.threads[n]? = some b) {row : Row}
    (hrow : row ∈ (γ n).locks) : b.result.isNone = true := by
  cases hr : b.result.isNone with
  | true => rfl
  | false =>
      rw [(idle_of_result hf hb hr).1] at hrow
      cases hrow

/-- An entry that a thread has read is in the database. -/
theorem entry_of_read (h : Watched cfg γ c) (hi : Isolated c) (hb : c.threads[n]? = some b) {i : Inode}
    (hread : i ∈ (γ n).reads) : ∃ p x v, (p, x, some v) ∈ b.loc.tx.dirReads ∧ v.inode = i ∧
      c.shared.db.entry p x = some v := by
  obtain ⟨p, x, v, hm, hv⟩ := (h.tied n b hb).reads i hread
  exact ⟨p, x, v, hm, hv, (hi.valid n b hb).entry hm⟩

section

variable (h : Watched cfg γ c) (ha : c.threads[m]? = some a) (hb : c.threads[n]? = some b)

include h ha hb

/-- Two transactions have no common delta number. -/
theorem numbers_apart (hne : m ≠ n) {i : Inode} {q : Nat} (hq : (i, q) ∈ (γ m).numbers) : (i, q) ∉ (γ n).numbers := by
  intro hq'
  obtain ⟨d, hd⟩ := ((h.tied m a ha).numbers i q).1 hq
  obtain ⟨d', hd'⟩ := ((h.tied n b hb).numbers i q).1 hq'
  exact (h.numbered i).apart m n a b hne ha hb (q, d) (mem_numbersOf.2 hd) (q, d') (mem_numbersOf.2 hd') rfl

/-- Nobody takes a number that a compaction has scanned. -/
theorem not_scanned {i : Inode} {q : Nat} (hq : (i, q) ∈ (γ m).numbers) {qs : List Nat}
    (hs : (γ n).scanned = some (i, qs)) : q ∉ qs := by
  intro hqs
  obtain ⟨d, hd⟩ := ((h.tied m a ha).numbers i q).1 hq
  rw [(h.tied n b hb).scanned] at hs
  obtain ⟨⟨j, ks⟩, hks, e⟩ := Option.map_eq_some_iff.1 hs
  cases e
  obtain ⟨x, hx, rfl⟩ := List.mem_map.1 hqs
  exact (h.scanned n m b a hb ha j ks hks x hx).2 _ (mem_numbersOf.2 hd) rfl

variable (hi : Isolated c) (hne : m ≠ n)

include hi hne

theorem not_held {row : Row} (hrow : row ∈ (γ m).locks) : row ∉ (γ n).locks := by
  rw [← (h.tied m a ha).locks] at hrow
  rw [← (h.tied n b hb).locks]
  exact hi.locks m n a b hne ha hb row hrow

variable (hf : LocksFollowed cfg γ c) (hyp : Apart (PushApart cfg) c.threads) (hr : a.result.isNone = true)

include hf hyp hr

/-- Nobody else has locked the record of a new inode. -/
theorem fresh_not_held {i : Inode} (hfresh : i ∈ (γ m).fresh) : .inode i ∉ (γ n).locks := by
  intro hheld
  have halloc : i ∈ a.loc.tx.allocated := (h.tied m a ha).fresh ▸ hfresh
  have hapart := hyp n m b a hne.symm hb ha (running_of_held hf hb hheld) hr
  rcases (h.explained n b hb).inode i hheld with hin | hread | hnew
  · exact hapart.1 i hin halloc
  · obtain ⟨p, x, v, -, hv, hentry⟩ := h.entry_of_read hi hb hread
    exact ((hi.valid m a ha).fresh halloc).2.1 p x v hentry hv
  · rw [← (h.tied n b hb).fresh] at hnew
    exact hi.numbers m n a b hne ha hb i halloc hnew

/-- Nobody else has locked the record that a `release` is to delete. -/
theorem due_not_held {i : Inode} (htag : a.tag = .release i) (hdue : (γ m).due = some i) : .inode i ∉ (γ n).locks := by
  intro hheld
  obtain ⟨hnames, hrelease, -⟩ := hyp m n a b hne ha hb hr (running_of_held hf hb hheld)
  have hfree : i ∉ b.tag.inodes cfg ∧ ∀ x ∈ b.loc.tx.dirReads, ∀ v ∈ x.2.2, v.inode ≠ i := by
    unfold ReleaseApart at hrelease
    rw [htag] at hrelease
    exact hrelease ((h.tied m a ha).due i hdue)
  rcases (h.explained n b hb).inode i hheld with hin | hread | hnew
  · exact hfree.1 hin
  · obtain ⟨p, x, v, hm, hv, -⟩ := h.entry_of_read hi hb hread
    exact hfree.2 _ hm v rfl hv
  · rw [← (h.tied n b hb).fresh] at hnew
    refine hnames i ?_ hnew
    rw [htag]
    exact List.mem_cons_self

/-- **A covered row is not locked elsewhere.** -/
theorem covered_not_held {op : BatchOp} (hop : (γ m).Covers a.tag op) : op.row ∉ (γ n).locks := by
  have hrecord : ∀ {i}, .inode i ∈ (γ m).locks → .inode i ∉ (γ n).locks := h.not_held ha hb hi hne
  cases op with
  | putInode i iv => exact hop.elim hrecord (h.fresh_not_held ha hb hi hne hf hyp hr)
  | deleteInode i =>
      exact hop.elim hrecord fun hdue => h.due_not_held ha hb hi hne hf hyp hr hdue.1 hdue.2
  | putDirEntry p x v => exact h.not_held ha hb hi hne hop
  | deleteDirEntry p x => exact h.not_held ha hb hi hne hop
  | putDataLocation i v => exact fun hheld => hrecord hop ((h.explained n b hb).location i hheld)
  | deleteDataLocation i => exact fun hheld => hrecord hop ((h.explained n b hb).location i hheld)
  | putSymlink i v => exact fun hheld => hrecord hop ((h.explained n b hb).symlink i hheld)
  | deleteSymlink i => exact fun hheld => hrecord hop ((h.explained n b hb).symlink i hheld)
  | putDelta i q d =>
      intro hheld
      rcases (h.explained n b hb).delta i q hheld with hnum | ⟨-, qs, hs, hqs⟩
      · exact h.numbers_apart ha hb hne hop hnum
      · exact h.not_scanned ha hb hop hs hqs
  | deleteDelta i q =>
      intro hheld
      obtain ⟨hlock, qs, hs, hqs⟩ := hop
      rcases (h.explained n b hb).delta i q hheld with hnum | ⟨hlock', -⟩
      · exact h.not_scanned hb ha hnum hs hqs
      · exact hrecord hlock hlock'

end

end Watched

end

/-- **No `push` waits**: in every state of every run whose calls keep apart, no running call is about to write
a row that another transaction has locked. -/
theorem push_never_waits {cfg : Config} {s₀ : Server} {c : FsConf} (h₀ : s₀.Wf)
    (hseqs : ∀ {i q d}, s₀.db.delta i q = some d → q < s₀.seqs i)
    (h : Reach (fsSystem cfg fun _ _ => True) (fun c => Apart (PushApart cfg) c.threads) ⟨s₀, []⟩ c) (m n : Nat) :
    ¬PushWaits c m n := by
  have hinit : Watched cfg (fun _ => {}) ⟨s₀, []⟩ :=
    ⟨by simp, by simp, fun i => ⟨hseqs, by simp [Pool], by simp [Pool], by simp [Apart]⟩, by simp [Scanned]⟩
  obtain ⟨γ, hw, hf⟩ := Reach.ghost (locking cfg) (fun _ _ g => g.Idle) {} (Watched cfg) rfl hinit
    (Call.locks_first cfg) (fun _ hJ _ _ => hJ.start)
    (fun hr hJ hwp hn hpre ha _ => ⟨_, ⟨rfl, trivial⟩, hJ.act hwp hr.hyp (isolated_of_reach h₀ hr).1 hn hpre
      ((isolated_of_reach h₀ hr).2 _ (List.mem_of_getElem? hn)).1 ha⟩) h
  rintro ⟨hne, a, ha, b, hb, row, hrow, hheld⟩
  unfold pushRow at hrow
  split at hrow
  · rename_i op hop
    cases hrow
    have hcovers : (γ m).Covers a.tag op := pre_of_nextEff (hf m a ha) hop
    rw [(hw.tied n b hb).locks] at hheld
    exact hw.covered_not_held ha hb (isolated_of_reach h₀ h).1 hne hf h.hyp
      (isNone_of_nextEff hop) hcovers hheld
  · cases hrow

/-- A `report_write` has locked the file's record and is about to write it, next to an `unlink` that has locked
the file's entry. -/
def reportAndUnlink : List (Choice Call) :=
  .start (.create ROOT_INODE [97] 0o644 0 0) :: List.replicate 17 (.run 0) ++
    .start (.reportWrite 2 1 0) :: .run 1 :: .run 1 :: .start (.unlink ROOT_INODE [97]) :: [.run 2, .run 2]

theorem push_never_waits_reportAndUnlink : ∃ c,
    Reach (fsSystem {} fun _ _ => True) (fun c => Apart (PushApart {}) c.threads) ⟨Server.fresh {}, []⟩ c ∧
    c.threads.map (fun th => (th.tag, (pushRow th).isSome)) =
      [(.create ROOT_INODE [97] 0o644 0 0, false), (.reportWrite 2 1 0, true), (.unlink ROOT_INODE [97], false)] ∧
    ∀ m n, ¬PushWaits c m n := by
  have hrun : ((fsScheduler {} (fun _ _ => True) (fun c : FsConf => Apart (PushApart {}) c.threads)).run
      reportAndUnlink ⟨Server.fresh {}, []⟩).map (fun c => c.threads.map fun th => (th.tag, (pushRow th).isSome)) =
      some [(.create ROOT_INODE [97] 0o644 0 0, false), (.reportWrite 2 1 0, true),
        (.unlink ROOT_INODE [97], false)] := by decide +kernel
  obtain ⟨c, hc, hv⟩ := Option.map_eq_some_iff.1 hrun
  have hreach := fsScheduler_reach {} _ (fun c : FsConf => Apart (PushApart {}) c.threads) reportAndUnlink
    (fun m k u v _ hu => by simp at hu) hc
  exact ⟨c, hreach, hv, push_never_waits (Server.wf_fresh {}) (fun h => by cases h) hreach⟩

end RucksFs
