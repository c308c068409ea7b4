import RucksFs.Server.Commits
import RucksFs.Server.Log
import RucksFs.Server.Walk

/-!
# Steps on the cached copy of an inode

A load reads the base of `i`, scans its deltas and puts the fold into the cache, in three steps.  A call
that writes to `i` commits first and brings the cached copy up to date afterwards: deltas of a parent are
applied, a copy that compaction or a removal has outdated is invalidated.

* `CacheWatch` — what is followed along one call: the deltas it has numbered, what it owes to the cached
  copy after its commit, and what a load has read.
* `WriterOn` — the calls that write to `i` and then apply deltas or invalidate.
* `takes_cacheSteps` — in the default build every such call pays exactly what it owes.
-/

set_option autoImplicit false

namespace RucksFs

open Prog Op

/-! ## Following a call -/

/-- What is owed to the cached copy. -/
inductive CacheDebt where
  | apply (ds : List DeltaOp)
  | forget
  deriving DecidableEq

/-- After some deltas have been applied. -/
def CacheDebt.after (ds : List DeltaOp) : CacheDebt → CacheDebt
  | .apply xs => .apply (xs.drop ds.length)
  | .forget => .forget

structure CacheWatch where
  /-- The transaction has written nothing yet. -/
  clean : Bool := true
  /-- The deltas of the inode that the transaction has numbered. -/
  taken : List DeltaOp := []
  committed : Bool := false
  owes : CacheDebt := .apply []
  /-- The base that a load has read, and the value it has folded. -/
  base : Option InodeValue := none
  value : Option InodeValue := none

/-- A writer on `i`: parent `i`, with other inodes moved or removed; or `i` is compacted, or removed. -/
def WriterOn (s : Server) (i : Inode) : Call → Prop
  | .create p _ _ _ _ | .createAndOpen p _ _ _ _ _ | .mkdir p _ _ _ _ | .symlink p _ _ _ _ =>
      p = i ∧ s.db.IsDirectory i
  | .link p _ t => p = i ∧ t ≠ i
  | .unlink p n => ∀ v, s.db.entry p n = some v → (p = i ∧ v.inode ≠ i) ∨
      (p ≠ i ∧ v.inode = i ∧ s.handles i = 0 ∧ ∀ iv, s.db.inode i = some iv → iv.nlink ≤ 1)
  | .rmdir p n => ∀ v, s.db.entry p n = some v → (p = i ∧ v.inode ≠ i) ∨ (p ≠ i ∧ v.inode = i)
  | .rename p n np nn => (∀ v, s.db.entry p n = some v → v.inode ≠ i) ∧
      ((i = p ∨ i = np) ∧ (∀ d, s.db.entry np nn = some d → d.inode ≠ i) ∨
        i ≠ p ∧ i ≠ np ∧ ∃ d, s.db.entry np nn = some d ∧ d.inode = i)
  | .release j | .forceCompactInode j => j = i
  | _ => False

/-- Effects that come after a commit. -/
def Eff.afterCommit : Eff → Bool
  | .dropBatch | .allocCurrent | .putNextInode _ | .clearDeltas _ | .cachePut _ _ | .cacheApplyDeltas _ _
  | .cacheInvalidate _ | .markDirty _ | .handleIncr _ | .pendingInsert _ => true
  | _ => false

namespace CacheWatch

def reset (g : CacheWatch) : CacheWatch := { g with clean := true, taken := [] }

/-- What a commit owes. -/
def debt (i : Inode) (c : Call) (ds : List DeltaOp) : CacheDebt := if i ∈ c.parents then .apply ds else .forget

def upd (i : Inode) (c : Call) (g : CacheWatch) : (e : Eff) → e.Res → CacheWatch
  | .beginWrite, _ => g.reset
  | .dropBatch, _ => g.reset
  | .push _, _ => { g with clean := false }
  | .nextSeq p d, _ => { g with taken := g.taken ++ if p = i then [d] else [] }
  | .commit, .ok _ => { g.reset with committed := true, owes := debt i c g.taken }
  | .commit, .error _ => g.reset
  | .cacheApplyDeltas j ds, _ => if j = i then { g with owes := g.owes.after ds } else g
  | .cacheInvalidate j, _ => if j = i ∧ g.owes = .forget then { g with owes := .apply [] } else g
  | .getInode _, .ok (some b) => { g with base := some b }
  | .scanDeltas _, .ok ds => { g with base := none, value := g.base.map (foldDeltas · ds) }
  | .cachePut _ _, _ => { g with value := none }
  | _, _ => g

/-- A load of `i`: base, deltas, cache. -/
def LoadPre (i : Inode) (e : Eff) (g : CacheWatch) : Prop :=
  match e with
  | .cacheGet j | .getInode j => j = i ∧ g.base = none ∧ g.value = none
  | .scanDeltas j => j = i ∧ g.base ≠ none ∧ g.value = none
  | .cachePut j v => j = i ∧ g.base = none ∧ g.value = some v
  | _ => False

/-- A writer on `i`: before its commit it reads what has been there from the start; what it owes after it,
it pays next. -/
def WritePre (i : Inode) (c : Call) (e : Eff) (g : CacheWatch) : Prop :=
  (g.owes ≠ .apply [] → e.afterCommit = true) ∧
  match e with
  | .cacheGet _ | .getInode _ | .scanDeltas _ => False
  | .getForUpdateDirEntry _ _ | .getForUpdateInode _ => g.clean = true ∧ g.committed = false
  | .commit => g.committed = false
  | .handleCount _ => g.committed = false ∧ ∃ p n, c = .unlink p n
  | .handleIncr _ | .checkAndClearDeferredDelete _ => ∀ p n, c ≠ .unlink p n
  | .push op => i ∈ c.parents → op.row ≠ .inode i
  | .cachePut j _ => j ≠ i
  | .cacheApplyDeltas j ds => j = i → ∃ rest, g.owes = .apply (ds ++ rest)
  | .clearDeltas j => j = i → g.owes = .forget ∧ g.taken = []
  | _ => True

/-- Answers of the state `s` before the commit. -/
def AnswerOk (s : Server) (i : Inode) : (e : Eff) → e.Res → Prop
  | .getForUpdateDirEntry p n, .ok o => o = s.db.entry p n
  | .getForUpdateInode j, .ok o => o = s.db.inode j
  | .handleCount j, n => n = s.handles j
  | .alloc, j => s.db.IsDirectory i → j ≠ i
  | _, _ => True

end CacheWatch

/-- Obligations of a load of `i` and of a writer on `i`, from state `s`. -/
def cacheSteps (s : Server) (i : Inode) (c : Call) : Contract Eff Eff.Res CacheWatch :=
  following
    (fun e g => (c = .getattr i → g.LoadPre i e) ∧ (WriterOn s i c → g.WritePre i c e))
    (CacheWatch.upd i c) (fun _ e r => WriterOn s i c → CacheWatch.AnswerOk s i e r)

/-- Nothing is owed at the end, unless a creation fails to store the allocator's counter. -/
def CacheWatch.Settled (s : Server) (i : Inode) (c : Call) (r : Reply) (g : CacheWatch) : Prop :=
  WriterOn s i c → (c.creates = none ∨ c.isLink = true ∨ r.isOk = true) → g.owes = .apply []

/-! ## Loads -/

theorem load_cacheSteps (s : Server) (i : Inode) (cfg : Config) :
    wp (cacheSteps s i (.getattr i)) ((Call.getattr i).body cfg) (CacheWatch.Settled s i (.getattr i)) {} := by
  have hpre : ∀ {e : Eff} {g : CacheWatch}, g.LoadPre i e →
      (.getattr i = Call.getattr i → g.LoadPre i e) ∧ (WriterOn s i (.getattr i) → g.WritePre i (.getattr i) e) :=
    fun h => ⟨fun _ => h, fun hw => hw.elim⟩
  have hload : wpE (cacheSteps s i (.getattr i)) (fun _ => True) (loadInode i) (fun _ _ => True) {} := by
    unfold loadInode
    rw [wpE_bind]
    refine follow_eff (hpre ⟨rfl, rfl, rfl⟩) fun o _ => ?_
    cases o with
    | some iv => trivial
    | none =>
        dsimp only
        rw [wpE_bind]
        refine follow_getInode (hpre ⟨rfl, rfl, rfl⟩) (fun o _ => ?_) fun _ => trivial
        rw [wpE_bind]
        refine follow_orNotFound (fun base ho => ?_) trivial
        subst ho
        rw [wpE_bind]
        refine follow_scanDeltas (hpre ⟨rfl, nofun, rfl⟩) (fun ds _ => ?_) fun _ => trivial
        show wpE _ _ (do cachePut i (foldDeltas base ds); return foldDeltas base ds) _ _
        rw [wpE_bind]
        exact follow_eff (hpre ⟨rfl, rfl, rfl⟩) fun _ _ => trivial
  show wp _ ((getattr i).run >>= _) _ _
  rw [wp_bind]
  have hget : wpE (cacheSteps s i (.getattr i)) (fun _ => True) (getattr i) (fun _ _ => True) {} := by
    unfold getattr
    rw [wpE_bind]
    exact wpE_mono (fun _ _ _ => trivial) (fun _ h => h) hload
  exact wp_mono (fun r g _ hw => hw.elim) hget

/-! ## Writers -/

section Writers

variable {α : Type} {s : Server} {i : Inode} {c : Call} {E : CacheWatch → Prop} {Q : Unit → CacheWatch → Prop}
  {n nn : Name} {cfg : Config} {ds xs : List DeltaOp} {j p np : Inode} {b : Bool} {uid gid mode : Nat}
  {g : CacheWatch} {D : CacheDebt}

theorem WriterOn.pre (hw : WriterOn s i c) {e : Eff} (h : g.WritePre i c e) :
    (c = .getattr i → g.LoadPre i e) ∧ (WriterOn s i c → g.WritePre i c e) :=
  ⟨fun hc => by subst hc; exact hw.elim, fun _ => h⟩

/-- Before the commit nothing is owed. -/
theorem CacheWatch.calm {P : Prop} :
    ({ clean := b, taken := ds } : CacheWatch).owes ≠ .apply [] → P := fun h => absurd rfl h

section

variable (hw : WriterOn s i c)

include hw

/-! ### Before the commit -/

theorem steps_retry {body : Op α} {Q : α → CacheWatch → Prop} (hE : E {})
    (h : wpE (cacheSteps s i c) (fun g => g.reset = {}) body (fun a g => Q a g.reset) {}) (n : Nat) :
    wpE (cacheSteps s i c) E (retry body n) Q {} := by
  refine follow_retry (I := fun g => g = ({} : CacheWatch)) (fun g hg => ?_)
    (fun g => hw.pre ⟨fun _ => rfl, trivial⟩) (fun g hg => hg ▸ hE) (fun g hg => ?_) n ({} : CacheWatch) rfl
  · subst hg
    exact hw.pre ⟨CacheWatch.calm, trivial⟩
  · subst hg
    exact h

theorem steps_entry {Q : Option DirValue → CacheWatch → Prop} (hE : E {}) (h : Q (s.db.entry p n) {}) :
    wpE (cacheSteps s i c) E (getForUpdateDirEntry p n) Q {} := by
  refine follow_getForUpdateDirEntry (hw.pre ⟨CacheWatch.calm, rfl, rfl⟩) (fun o ha => ?_) fun _ => hE
  rw [show o = s.db.entry p n from ha hw]
  exact h

theorem steps_inode {Q : Option InodeValue → CacheWatch → Prop} (hE : E {}) (h : Q (s.db.inode j) {}) :
    wpE (cacheSteps s i c) E (getForUpdateInode j) Q {} := by
  refine follow_getForUpdateInode (hw.pre ⟨CacheWatch.calm, rfl, rfl⟩) (fun o ha => ?_) fun _ => hE
  rw [show o = s.db.inode j from ha hw]
  exact h

theorem steps_isDirEmpty {d : Inode} {Q : Bool → CacheWatch → Prop} (hE : E {}) (h : ∀ b, Q b {}) :
    wpE (cacheSteps s i c) E (isDirEmpty d) Q {} :=
  follow_isDirEmpty (hw.pre ⟨CacheWatch.calm, trivial⟩) (fun b _ => h b) fun _ => hE

theorem steps_nowSecs {Q : Nat → CacheWatch → Prop} (h : ∀ ts, Q ts { clean := b, taken := ds }) :
    wpE (cacheSteps s i c) E nowSecs Q { clean := b, taken := ds } :=
  follow_skip (hw.pre ⟨CacheWatch.calm, trivial⟩) (fun _ => rfl) h

theorem steps_push {op : BatchOp} (hop : i ∈ c.parents → op.row ≠ .inode i) (h : Q () { clean := false, taken := ds }) :
    wpE (cacheSteps s i c) E (push op) Q { clean := b, taken := ds } :=
  follow_eff (hw.pre ⟨CacheWatch.calm, hop⟩) fun _ _ => h

theorem steps_forM_push {β : Type} (f : β → BatchOp) :
    ∀ (xs : List β) {Q : Unit → CacheWatch → Prop}, (∀ x ∈ xs, i ∈ c.parents → (f x).row ≠ .inode i) →
    Q () { clean := false, taken := ds } →
    wpE (cacheSteps s i c) E (xs.forM fun x => push (f x)) Q { clean := false, taken := ds }
  | [], _, _, h => h
  | x :: xs, _, hops, h => by
      show wpE _ _ (push (f x) >>= _) _ _
      rw [wpE_bind]
      exact steps_push hw (hops x List.mem_cons_self)
        (steps_forM_push f xs (fun y hy => hops y (List.mem_cons_of_mem _ hy)) h)

theorem steps_pushDeltas (p : Inode) (ds : List DeltaOp) : ∀ {xs : List DeltaOp}
    {Q : Unit → CacheWatch → Prop}, Q () { clean := false, taken := xs ++ if p = i then ds else [] } →
    wpE (cacheSteps s i c) E (pushDeltas p ds) Q { clean := false, taken := xs } := by
  induction ds with
  | nil =>
      intro xs Q h
      have hnil : (xs ++ if p = i then [] else []) = xs := by simp
      rw [hnil] at h
      exact h
  | cons d ds ih =>
      intro xs Q h
      unfold pushDeltas
      rw [wpE_bind]
      refine follow_eff (hw.pre ⟨CacheWatch.calm, trivial⟩) fun q _ => ?_
      rw [wpE_bind]
      refine steps_push hw (fun _ h => by cases h) (ih ?_)
      by_cases e : p = i <;> simpa [e] using h

theorem steps_batchParentDeltas (hb : cfg.build = .delta) (p : Inode) (ds : List DeltaOp)
    (h : Q () { clean := false, taken := xs ++ if p = i then ds else [] }) :
    wpE (cacheSteps s i c) E (batchParentDeltas cfg p ds) Q { clean := false, taken := xs } := by
  unfold batchParentDeltas
  rw [hb]
  exact steps_pushDeltas hw p ds h

/-- The deltas of `i` among those of the parents. -/
theorem steps_batchParentDeltasAll (hb : cfg.build = .delta) :
    ∀ (dss : List (Inode × List DeltaOp)) {xs : List DeltaOp} {Q : Unit → CacheWatch → Prop},
    Q () { clean := false, taken := xs ++ deltasOf dss i } →
    wpE (cacheSteps s i c) E (dss.forM fun d => batchParentDeltas cfg d.1 d.2) Q { clean := false, taken := xs }
  | [], xs, Q, h => by
      have hnil : deltasOf [] i = [] := rfl
      rw [hnil, List.append_nil] at h
      exact h
  | d :: dss, xs, Q, h => by
      show wpE _ _ (batchParentDeltas cfg d.1 d.2 >>= _) _ _
      rw [wpE_bind]
      refine steps_batchParentDeltas hw hb d.1 d.2 (steps_batchParentDeltasAll hb dss ?_)
      rw [List.append_assoc]
      exact h

theorem steps_commit (hE : E {}) (h : Q () { committed := true, owes := CacheWatch.debt i c ds }) :
    wpE (cacheSteps s i c) E commit Q { clean := b, taken := ds } :=
  follow_commit (hw.pre ⟨CacheWatch.calm, rfl⟩) (fun _ _ => h) fun _ => hE

/-! ### After the commit -/

theorem steps_cachePut {v : InodeValue} (hj : j ≠ i) (h : Q () { committed := true, owes := D }) :
    wpE (cacheSteps s i c) E (cachePut j v) Q { committed := true, owes := D } :=
  follow_eff (hw.pre ⟨fun _ => rfl, hj⟩) fun _ _ => h

theorem steps_applyDeltas {rest : List DeltaOp} (h : Q () { committed := true, owes := .apply rest }) :
    wpE (cacheSteps s i c) E (cacheApplyDeltas j ds) Q
      { committed := true, owes := .apply ((if j = i then ds else []) ++ rest) } := by
  refine follow_eff (hw.pre ⟨fun _ => rfl, fun hj => ⟨rest, ?_⟩⟩) fun (_ : Unit) _ => ?_
  · rw [if_pos hj]
  · unfold CacheWatch.upd
    by_cases e : j = i
    · simpa [e, CacheDebt.after] using h
    · simpa [e] using h

theorem steps_clearDeltas (hD : j = i → D = .forget) (h : Q () { committed := true, owes := D }) :
    wpE (cacheSteps s i c) E (clearDeltas j) Q { committed := true, owes := D } := by
  unfold clearDeltas
  rw [wpE_bind]
  exact follow_skip (hw.pre ⟨fun _ => rfl, fun e => ⟨hD e, rfl⟩⟩) (fun _ => rfl) fun _ => h

/-- `invalidate` of another inode. -/
theorem steps_invalidate_other (hj : j ≠ i) (h : Q () { committed := true, owes := D }) :
    wpE (cacheSteps s i c) E (cacheInvalidate j) Q { committed := true, owes := D } := by
  refine follow_eff (hw.pre ⟨fun _ => rfl, trivial⟩) fun (_ : Unit) _ => ?_
  unfold CacheWatch.upd
  simpa [hj] using h

/-- `invalidate` pays for compaction and removal. -/
theorem steps_invalidate_self (h : Q () { committed := true }) :
    wpE (cacheSteps s i c) E (cacheInvalidate i) Q { committed := true, owes := .forget } := by
  refine follow_eff (hw.pre ⟨fun _ => rfl, trivial⟩) fun (_ : Unit) _ => ?_
  unfold CacheWatch.upd
  simpa using h

theorem steps_markDirty (h : Q () g) : wpE (cacheSteps s i c) E (markDirty j) Q g :=
  follow_skip (hw.pre ⟨fun _ => rfl, trivial⟩) (fun _ => rfl) fun _ => h

end

/-! ### Creation -/

/-- The cached copy is up to date. -/
def CacheWatch.Paid (g : CacheWatch) : Prop := g.owes = .apply []

theorem steps_validateName (hE : E g) (h : Q () g) : wpE (cacheSteps s i c) E (validateName n) Q g := by
  unfold validateName
  split
  · exact hE
  · exact h

theorem steps_createTxn {size nlink : Nat} {extra : Inode → List BatchOp} {deltas : Nat → List DeltaOp}
    {Q : InodeValue → CacheWatch → Prop} (hb : cfg.build = .delta) (hw : WriterOn s i c) (hp : c.parents = [i])
    (hdir : s.db.IsDirectory i) (hextra : ∀ j, ∀ op ∈ extra j, op.row ≠ .inode i) (hE : E {})
    (h : ∀ j ts, j ≠ i → Q (newInodeValue j size mode nlink uid gid ts)
      { committed := true, owes := .apply (deltas ts) }) :
    wpE (cacheSteps s i c) E (createTxn cfg i n size mode nlink uid gid extra deltas) Q {} := by
  refine steps_retry hw hE ?_ _
  rw [wpE_bind]
  refine steps_entry hw rfl ?_
  refine wpE_guard (f := fun _ => _) (fun _ => rfl) fun _ => ?_
  rw [wpE_bind]
  refine follow_eff (hw.pre ⟨CacheWatch.calm, trivial⟩) fun (j : Inode) ha => ?_
  have hj : j ≠ i := ha hw hdir
  rw [wpE_bind]
  refine steps_nowSecs hw fun ts => ?_
  rw [wpE_bind]
  refine steps_push hw (fun _ e => hj (Row.inode.inj e)) ?_
  rw [wpE_bind]
  refine steps_push hw (fun _ => nofun) ?_
  rw [wpE_bind]
  refine steps_forM_push hw (fun op => op) _ (fun op ho _ => hextra j op ho) ?_
  rw [wpE_bind]
  refine steps_batchParentDeltas hw hb i (deltas ts) ?_
  rw [wpE_bind]
  refine steps_commit hw rfl ?_
  have hdebt : CacheWatch.debt i c ([] ++ if i = i then deltas ts else []) = .apply (deltas ts) := by
    simp [CacheWatch.debt, hp]
  rw [hdebt]
  exact h j ts hj

theorem steps_afterCreate {iv : InodeValue} (hw : WriterOn s i c) (hj : iv.inode ≠ i) :
    wpE (cacheSteps s i c) (fun _ => True) (afterCreate i iv ds) (fun _ g => g.Paid)
      { committed := true, owes := .apply ds } := by
  have hrest : wpE (cacheSteps s i c) (fun _ => True) (do
      cachePut iv.inode iv
      cacheApplyDeltas i ds
      markDirty i
      return iv.toAttr) (fun _ g => g.Paid) { committed := true, owes := .apply ds } := by
    rw [wpE_bind]
    refine steps_cachePut hw hj ?_
    have hself : (.apply ds : CacheDebt) = .apply ((if i = i then ds else []) ++ []) := by simp
    rw [hself, wpE_bind]
    refine steps_applyDeltas hw ?_
    rw [wpE_bind]
    exact steps_markDirty hw rfl
  unfold afterCreate maybePersist
  rw [wpE_bind, wpE_bind]
  refine follow_skip (hw.pre ⟨fun _ => rfl, trivial⟩) (fun _ => rfl) fun (val : Nat) => ?_
  split
  · exact follow_putNextInode (hw.pre ⟨fun _ => rfl, trivial⟩) (fun _ _ => hrest) fun _ => trivial
  · exact hrest

theorem steps_create (hb : cfg.build = .delta) (hw : WriterOn s i c) (hp : c.parents = [i])
    (hdir : s.db.IsDirectory i) :
    wpE (cacheSteps s i c) (fun _ => True) (create cfg i n mode uid gid) (fun _ g => g.Paid) {} := by
  unfold create
  rw [wpE_bind]
  refine steps_validateName trivial ?_
  rw [wpE_bind]
  exact steps_createTxn hb hw hp hdir (by simp [BatchOp.row]) trivial fun j ts hj => steps_afterCreate hw hj

theorem steps_mkdir (hb : cfg.build = .delta) (hw : WriterOn s i c) (hp : c.parents = [i]) (hdir : s.db.IsDirectory i) :
    wpE (cacheSteps s i c) (fun _ => True) (mkdir cfg i n mode uid gid) (fun _ g => g.Paid) {} := by
  unfold mkdir
  rw [wpE_bind]
  refine steps_validateName trivial ?_
  rw [wpE_bind]
  exact steps_createTxn hb hw hp hdir (by simp) trivial fun j ts hj => steps_afterCreate hw hj

theorem steps_symlink {target : List Byte} (hb : cfg.build = .delta) (hw : WriterOn s i c) (hp : c.parents = [i])
    (hdir : s.db.IsDirectory i) :
    wpE (cacheSteps s i c) (fun _ => True) (symlink cfg i n target uid gid) (fun _ g => g.Paid) {} := by
  unfold symlink
  rw [wpE_bind]
  refine steps_validateName trivial ?_
  rw [wpE_bind]
  exact steps_createTxn hb hw hp hdir (by simp [BatchOp.row]) trivial fun j ts hj => steps_afterCreate hw hj

theorem steps_createAndOpen {flags : Nat} (hb : cfg.build = .delta)
    (hw : WriterOn s i (.createAndOpen i n mode uid gid flags)) :
    wpE (cacheSteps s i (.createAndOpen i n mode uid gid flags)) (fun _ => True)
      (createAndOpen cfg i n mode uid gid flags) (fun _ g => g.Paid) {} := by
  unfold createAndOpen
  rw [wpE_bind]
  refine wpE_mono (fun attr g hg => ?_) (fun _ h => h) (steps_create hb hw rfl hw.2)
  rw [wpE_bind]
  exact follow_skip (hw.pre ⟨fun _ => rfl, fun _ _ => nofun⟩) (fun _ => rfl) fun _ => hg

/-- The last step: what is owed is applied to the parent. -/
theorem steps_touchSelf (j : Inode) (ds : List DeltaOp) (a : α) (hw : WriterOn s i c) :
    wpE (cacheSteps s i c) CacheWatch.Paid (do cacheApplyDeltas j ds; markDirty j; return a)
      (fun _ g => g.Paid) { committed := true, owes := .apply (if j = i then ds else []) } := by
  have hnil : (if j = i then ds else []) = (if j = i then ds else []) ++ [] := (List.append_nil _).symm
  rw [hnil, wpE_bind]
  refine steps_applyDeltas hw ?_
  rw [wpE_bind]
  exact steps_markDirty hw rfl

theorem steps_link {t : Inode} (hb : cfg.build = .delta) (hw : WriterOn s i (.link i n t)) :
    wpE (cacheSteps s i (.link i n t)) CacheWatch.Paid (link cfg i n t) (fun _ g => g.Paid) {} := by
  have ht : t ≠ i := hw.2
  unfold link
  rw [wpE_bind]
  refine steps_validateName rfl ?_
  rw [wpE_bind]
  refine steps_retry (E := CacheWatch.Paid) hw rfl ?_ _
  rw [wpE_bind]
  refine steps_inode hw rfl ?_
  rw [wpE_bind]
  refine follow_orNotFound (fun targetIv _ => ?_) rfl
  refine wpE_guard (f := fun _ => _) (fun _ => rfl) fun _ => ?_
  rw [wpE_bind]
  refine steps_entry hw rfl ?_
  refine wpE_guard (f := fun _ => _) (fun _ => rfl) fun _ => ?_
  rw [wpE_bind]
  refine steps_inode hw rfl ?_
  rw [wpE_bind]
  refine follow_orNotFound (fun parentIv _ => ?_) rfl
  refine wpE_guard (f := fun _ => _) (fun _ => rfl) fun _ => ?_
  rw [wpE_bind]
  refine steps_nowSecs hw fun ts => ?_
  rw [wpE_bind]
  refine steps_push hw (fun _ e => ht (Row.inode.inj e)) ?_
  rw [wpE_bind]
  refine steps_push hw (fun _ => nofun) ?_
  rw [wpE_bind]
  refine steps_nowSecs hw fun ts' => ?_
  rw [wpE_bind]
  refine steps_batchParentDeltas hw hb i _ ?_
  rw [wpE_bind]
  refine steps_commit hw rfl ?_
  have hdebt : ∀ ds, CacheWatch.debt i (.link i n t) ([] ++ ds) = .apply ds := by
    simp [CacheWatch.debt, Call.parents, Call.folds]
  rw [hdebt, wpE_bind]
  exact steps_cachePut hw ht (steps_touchSelf _ _ _ hw)

/-! ### Removal -/

theorem steps_unlinkChild {iv : InodeValue} {Q : InodeValue × Option (Inode × Bool) → CacheWatch → Prop}
    (hw : WriterOn s i c) (hc : ∃ p n, c = .unlink p n) (hp : i ∈ c.parents → j ≠ i)
    (hlast : j = i → iv.nlink = 0 ∧ s.handles i = 0) (hkeep : j ≠ i → ∀ iv', Q (iv', none) { clean := false })
    (hopen : j ≠ i → ∀ iv', Q (iv', some (j, true)) { clean := false })
    (hdrop : Q (iv, some (j, false)) { clean := false }) :
    wpE (cacheSteps s i c) E (unlinkChild j iv) Q { clean := false } := by
  have hrow : ∀ v : InodeValue, i ∈ c.parents → (BatchOp.putInode j v).row ≠ .inode i :=
    fun _ hi e => hp hi (Row.inode.inj e)
  unfold unlinkChild
  split
  · rw [wpE_bind]
    refine follow_eff (hw.pre ⟨CacheWatch.calm, rfl, hc⟩) fun (count : Nat) hcount => ?_
    have hcount : count = s.handles j := hcount hw
    split
    · rename_i hpos
      have hj : j ≠ i := by
        rintro rfl
        have := (hlast rfl).2
        omega
      rw [wpE_bind]
      refine steps_nowSecs hw fun ts => ?_
      rw [wpE_bind]
      exact steps_push hw (hrow _) (hopen hj _)
    · rw [wpE_bind]
      refine steps_push hw (fun hi e => hp hi (Row.inode.inj e)) ?_
      rw [wpE_bind]
      exact steps_push hw (fun _ => nofun) hdrop
  · rename_i hnz
    have hj : j ≠ i := fun e => hnz (hlast e).1
    rw [wpE_bind]
    refine steps_nowSecs hw fun ts => ?_
    rw [wpE_bind]
    exact steps_push hw (hrow _) (hkeep hj _)

/-- The debt of a call with one parent: deltas for it, or a removal. -/
theorem CacheWatch.debt_parent (hp : c.parents = [p]) (ds : List DeltaOp) :
    debt i c ([] ++ if p = i then ds else []) = if p = i then .apply ds else .forget := by
  by_cases e : p = i
  · simp [debt, hp, e]
  · simp [debt, hp, e, Ne.symm e]

theorem steps_unlink (hb : cfg.build = .delta) (hw : WriterOn s i (.unlink p n)) :
    wpE (cacheSteps s i (.unlink p n)) CacheWatch.Paid (unlink cfg p n) (fun _ g => g.Paid) {} := by
  unfold unlink
  rw [wpE_bind]
  refine steps_validateName rfl ?_
  rw [wpE_bind]
  refine steps_retry (E := CacheWatch.Paid) hw rfl ?_ _
  rw [wpE_bind]
  refine steps_entry hw rfl ?_
  rw [wpE_bind]
  refine follow_orNotFound (fun v hv => ?_) rfl
  have hrole := hw v hv
  refine wpE_guard (f := fun _ => _) (fun _ => rfl) fun _ => ?_
  rw [wpE_bind]
  refine steps_inode hw rfl ?_
  rw [wpE_bind]
  refine follow_orNotFound (fun iv hiv => ?_) rfl
  have hlast : v.inode = i → iv.nlink - 1 = 0 ∧ s.handles i = 0 := by
    intro e
    rcases hrole with ⟨-, hne⟩ | ⟨-, -, hz, hle⟩
    · exact absurd e hne
    · have := hle iv (e ▸ hiv)
      exact ⟨by omega, hz⟩
  have hpar : i ∈ (Call.unlink p n).parents → v.inode ≠ i := by
    intro hi
    rcases hrole with ⟨-, hne⟩ | ⟨hne, -⟩
    · exact hne
    · exact absurd (List.mem_singleton.1 hi).symm hne
  have hother : v.inode ≠ i → p = i := fun hne =>
    hrole.elim (fun h => h.1) fun h => absurd h.2.1 hne
  have hdebt : ∀ ds, CacheWatch.debt i (.unlink p n) ([] ++ if p = i then ds else []) =
      if p = i then .apply ds else .forget := CacheWatch.debt_parent rfl
  rw [wpE_bind]
  refine steps_push hw (fun _ => nofun) ?_
  rw [wpE_bind]
  refine steps_unlinkChild hw ⟨p, n, rfl⟩ hpar hlast (fun hne iv' => ?_) (fun hne iv' => ?_) ?_
  · rw [wpE_bind]
    refine steps_nowSecs hw fun ts => ?_
    rw [wpE_bind]
    refine steps_batchParentDeltas hw hb p _ ?_
    rw [wpE_bind]
    refine steps_commit hw rfl ?_
    obtain rfl := hother hne
    rw [hdebt, if_pos rfl]
    dsimp only
    rw [wpE_bind]
    refine steps_cachePut hw hne ?_
    have hself := steps_touchSelf p [.setMtime ts, .setCtime ts] ([] : List Inode) hw
    rw [if_pos rfl] at hself
    exact hself
  · rw [wpE_bind]
    refine steps_nowSecs hw fun ts => ?_
    rw [wpE_bind]
    refine steps_batchParentDeltas hw hb p _ ?_
    rw [wpE_bind]
    refine steps_commit hw rfl ?_
    obtain rfl := hother hne
    rw [hdebt, if_pos rfl]
    dsimp only
    rw [wpE_bind]
    refine steps_cachePut hw hne ?_
    have hself := steps_touchSelf p [.setMtime ts, .setCtime ts] ([] : List Inode) hw
    rw [if_pos rfl] at hself
    show wpE _ _ (pendingInsert _ >>= _) _ _
    rw [wpE_bind]
    exact follow_skip (hw.pre ⟨fun _ => rfl, trivial⟩) (fun _ => rfl) fun _ => hself
  · rw [wpE_bind]
    refine steps_nowSecs hw fun ts => ?_
    rw [wpE_bind]
    refine steps_batchParentDeltas hw hb p _ ?_
    rw [wpE_bind]
    refine steps_commit hw rfl ?_
    rw [hdebt]
    dsimp only
    have hself := steps_touchSelf p [.setMtime ts, .setCtime ts] [v.inode] hw
    rcases hrole with ⟨rfl, hne⟩ | ⟨hne, hself', -⟩
    · rw [if_pos rfl] at hself ⊢
      rw [wpE_bind]
      refine steps_clearDeltas hw (fun e => absurd e hne) ?_
      rw [wpE_bind]
      exact steps_invalidate_other hw hne hself
    · rw [if_neg hne] at hself ⊢
      rw [hself'] at hself ⊢
      rw [wpE_bind]
      refine steps_clearDeltas hw (fun _ => rfl) ?_
      rw [wpE_bind]
      exact steps_invalidate_self hw hself

theorem steps_rmdir (hb : cfg.build = .delta) (hw : WriterOn s i (.rmdir p n)) :
    wpE (cacheSteps s i (.rmdir p n)) CacheWatch.Paid (rmdir cfg p n) (fun _ g => g.Paid) {} := by
  unfold rmdir
  rw [wpE_bind]
  refine steps_validateName rfl ?_
  rw [wpE_bind]
  refine steps_retry (E := CacheWatch.Paid) hw rfl ?_ _
  rw [wpE_bind]
  refine steps_entry hw rfl ?_
  rw [wpE_bind]
  refine follow_orNotFound (fun v hv => ?_) rfl
  have hrole := hw v hv
  refine wpE_guard (f := fun _ => _) (fun _ => rfl) fun _ => ?_
  rw [wpE_bind]
  refine steps_inode hw rfl ?_
  rw [wpE_bind]
  refine follow_orNotFound (fun iv _ => ?_) rfl
  rw [wpE_bind]
  refine steps_isDirEmpty hw rfl fun b => ?_
  refine wpE_guard (f := fun _ => _) (fun _ => rfl) fun _ => ?_
  have hpar : i ∈ (Call.rmdir p n).parents → v.inode ≠ i := by
    intro hi
    rcases hrole with ⟨-, hne⟩ | ⟨hne, -⟩
    · exact hne
    · exact absurd (List.mem_singleton.1 hi).symm hne
  rw [wpE_bind]
  refine steps_push hw (fun _ => nofun) ?_
  rw [wpE_bind]
  refine steps_push hw (fun hi e => hpar hi (Row.inode.inj e)) ?_
  rw [wpE_bind]
  refine steps_nowSecs hw fun ts => ?_
  rw [wpE_bind]
  refine steps_batchParentDeltas hw hb p _ ?_
  rw [wpE_bind]
  refine steps_commit hw rfl ?_
  have hdebt : ∀ ds, CacheWatch.debt i (.rmdir p n) ([] ++ if p = i then ds else []) =
      if p = i then .apply ds else .forget := CacheWatch.debt_parent rfl
  rw [hdebt, wpE_bind]
  have hself := steps_touchSelf p [.incrementNlink (-1), .setMtime ts, .setCtime ts] () hw
  rcases hrole with ⟨rfl, hne⟩ | ⟨hne, hself'⟩
  · rw [if_pos rfl] at hself ⊢
    refine steps_clearDeltas hw (fun e => absurd e hne) ?_
    rw [wpE_bind]
    exact steps_invalidate_other hw hne hself
  · rw [if_neg hne] at hself ⊢
    rw [hself']
    refine steps_clearDeltas hw (fun _ => rfl) ?_
    rw [wpE_bind]
    exact steps_invalidate_self hw hself

theorem steps_release (hw : WriterOn s i (.release i)) :
    wpE (cacheSteps s i (.release i)) CacheWatch.Paid (release i) (fun _ g => g.Paid) {} := by
  unfold release
  rw [wpE_bind]
  refine follow_skip (hw.pre ⟨CacheWatch.calm, fun _ _ => nofun⟩) (fun _ => rfl) fun due => ?_
  cases due with
  | false => exact rfl
  | true =>
      show wpE _ _ (do executeWithRetry _; _) _ _
      rw [wpE_bind]
      refine steps_retry (E := CacheWatch.Paid) hw rfl ?_ _
      rw [wpE_bind]
      refine steps_push hw nofun ?_
      rw [wpE_bind]
      refine steps_push hw nofun ?_
      refine steps_commit hw rfl ?_
      rw [wpE_bind]
      refine steps_clearDeltas hw (fun _ => rfl) ?_
      rw [wpE_bind]
      exact steps_invalidate_self hw rfl

theorem steps_forceCompactInode (hw : WriterOn s i (.forceCompactInode i)) :
    wpE (cacheSteps s i (.forceCompactInode i)) CacheWatch.Paid (forceCompactInode i) (fun _ g => g.Paid) {} := by
  unfold forceCompactInode
  rw [wpE_bind]
  refine follow_scanDeltasWithKeys (hw.pre ⟨CacheWatch.calm, trivial⟩) (fun ks _ => ?_) fun _ => rfl
  split
  · exact rfl
  refine follow_withBatch (hw.pre ⟨CacheWatch.calm, trivial⟩) (fun g => hw.pre ⟨fun _ => rfl, trivial⟩) ?_
  rw [wpE_bind]
  refine steps_inode hw rfl ?_
  cases s.db.inode i with
  | none => exact rfl
  | some base =>
      show wpE _ _ (do push _; _) _ _
      rw [wpE_bind]
      refine steps_push hw nofun ?_
      rw [wpE_bind]
      refine steps_forM_push hw (fun k : Nat × DeltaOp => .deleteDelta i k.1) _ (fun _ _ => nofun) ?_
      rw [wpE_bind, wpE_lift]
      refine ⟨hw.pre ⟨CacheWatch.calm, rfl⟩, fun r g hp => ?_⟩
      obtain ⟨rfl, -⟩ := hp
      match r with
      | .ok _ =>
          show wpE _ _ (do cacheInvalidate i; return true) _ _
          rw [wpE_bind]
          exact steps_invalidate_self hw rfl
      | .error x => cases x <;> exact rfl

/-! ### `rename` -/

theorem steps_lockInodes (hw : WriterOn s i c) (hE : E {}) : ∀ (ids : List Inode)
    {Q : List (Inode × InodeValue) → CacheWatch → Prop}, (∀ vals, Q vals {}) →
    wpE (cacheSteps s i c) E (lockInodes ids) Q {}
  | [], _, h => h []
  | j :: ids, Q, h => by
      unfold lockInodes
      rw [wpE_bind]
      refine steps_inode hw hE ?_
      rw [wpE_bind]
      refine steps_lockInodes hw hE ids fun vals => ?_
      cases s.db.inode j with
      | none => exact h vals
      | some iv => exact h ((j, iv) :: vals)

theorem steps_renameTarget {srcIsDir : Bool} {ts : Nat} {values : List (Inode × InodeValue)}
    {dst : Option DirValue} {Q : Option Inode × Bool → CacheWatch → Prop} (hw : WriterOn s i c) (hE : E {})
    (hd : ∀ d, dst = some d → i ∈ c.parents → d.inode ≠ i) (h : ∀ x b, Q x { clean := b }) :
    wpE (cacheSteps s i c) E (renameTarget srcIsDir ts values dst) Q {} := by
  cases dst with
  | none => exact h _ true
  | some d =>
      unfold renameTarget
      refine wpE_guard (f := fun _ => _) (fun _ => hE) fun _ => ?_
      refine wpE_guard (f := fun _ => _) (fun _ => hE) fun _ => ?_
      split
      · rw [wpE_bind]
        refine steps_isDirEmpty hw hE fun b => ?_
        exact wpE_guard (f := fun _ => _) (fun _ => hE) fun _ => h _ true
      · rw [wpE_bind]
        refine follow_orNotFound (fun iv _ => ?_) hE
        split
        · rw [wpE_bind]
          exact steps_push hw (fun hi e => hd d rfl hi (Row.inode.inj e)) (h _ false)
        · exact h _ true

theorem steps_removeDst {del : Option Inode} {dst : Option DirValue} (hw : WriterOn s i c)
    (hd : ∀ d, dst = some d → i ∈ c.parents → d.inode ≠ i) (h : ∀ b, Q () { clean := b }) :
    wpE (cacheSteps s i c) E (removeDst np nn del dst) Q { clean := b } := by
  cases dst with
  | none => exact h b
  | some d =>
      unfold removeDst
      rw [wpE_bind]
      refine steps_push hw (fun _ => nofun) ?_
      split
      · rw [wpE_bind]
        refine steps_push hw (fun hi e => hd d rfl hi (Row.inode.inj e)) ?_
        exact steps_push hw (fun _ => nofun) (h false)
      · exact h false

theorem steps_applyAll (hw : WriterOn s i c) : ∀ (dss : List (Inode × List DeltaOp)) {Q : Unit → CacheWatch → Prop},
    Q () { committed := true } → wpE (cacheSteps s i c) E (dss.forM fun d => do
      cacheApplyDeltas d.1 d.2
      markDirty d.1) Q { committed := true, owes := .apply (deltasOf dss i) }
  | [], _, h => h
  | d :: dss, _, h => by
      show wpE _ _ ((do cacheApplyDeltas d.1 d.2; markDirty d.1) >>= _) _ _
      rw [wpE_bind, wpE_bind, deltasOf_cons]
      exact steps_applyDeltas hw (steps_markDirty hw (steps_applyAll hw dss h))

/-- After its commit `rename` forgets what it has replaced. -/
theorem steps_forgetDst (hw : WriterOn s i (.rename p n np nn)) (hds : i ≠ p → i ≠ np → ds = [])
    (h : Q () { committed := true, owes := .apply ds }) :
    wpE (cacheSteps s i (.rename p n np nn)) E (forgetDst (s.db.entry np nn)) Q
      { committed := true, owes := CacheWatch.debt i (.rename p n np nn) ds } := by
  have hdebt : CacheWatch.debt i (.rename p n np nn) ds = if i = p ∨ i = np then .apply ds else .forget := by
    simp [CacheWatch.debt, Call.parents, Call.folds]
  rw [hdebt]
  rcases hw.2 with ⟨hi, hd⟩ | ⟨hp, hnp, d, hd, hdi⟩
  · rw [if_pos hi]
    cases he : s.db.entry np nn with
    | none => exact h
    | some d =>
        unfold forgetDst
        rw [wpE_bind]
        refine steps_clearDeltas hw (fun e => absurd e (hd d he)) ?_
        exact steps_invalidate_other hw (hd d he) h
  · rw [if_neg (by simp [hp, hnp]), hd]
    rw [hds hp hnp] at h
    unfold forgetDst
    rw [wpE_bind, hdi]
    exact steps_clearDeltas hw (fun _ => rfl) (steps_invalidate_self hw h)

theorem steps_rename (hb : cfg.build = .delta) (hw : WriterOn s i (.rename p n np nn)) :
    wpE (cacheSteps s i (.rename p n np nn)) CacheWatch.Paid (rename cfg p n np nn) (fun _ g => g.Paid) {} := by
  have hdst : ∀ d, s.db.entry np nn = some d → i ∈ (Call.rename p n np nn).parents → d.inode ≠ i := by
    intro d hd hi
    rcases hw.2 with ⟨-, hne⟩ | ⟨hp, hnp, -⟩
    · exact hne d hd
    · exact absurd hi (by simp [Call.parents, Call.folds, hp, hnp])
  unfold rename
  rw [wpE_bind]
  refine steps_validateName rfl ?_
  rw [wpE_bind]
  refine steps_validateName rfl ?_
  rw [wpE_bind]
  refine steps_retry (E := CacheWatch.Paid) hw rfl ?_ _
  unfold renameTxn
  rw [wpE_bind]
  refine steps_entry hw rfl ?_
  rw [wpE_bind]
  refine follow_orNotFound (fun v hv => ?_) rfl
  have hsrc : v.inode ≠ i := hw.1 v hv
  rw [wpE_bind]
  refine steps_entry hw rfl ?_
  rw [wpE_bind]
  refine steps_lockInodes (E := fun g => g.reset = {}) hw rfl _ fun values => ?_
  rw [wpE_bind]
  refine follow_orNotFound (fun srcIv _ => ?_) rfl
  rw [wpE_bind]
  refine steps_nowSecs hw fun ts => ?_
  rw [wpE_bind]
  refine steps_renameTarget hw rfl hdst fun x b => ?_
  obtain ⟨del, wasDir⟩ := x
  dsimp only
  rw [wpE_bind]
  refine steps_removeDst hw hdst fun b => ?_
  rw [wpE_bind]
  refine steps_push hw (fun _ => nofun) ?_
  rw [wpE_bind]
  refine steps_push hw (fun _ => nofun) ?_
  rw [wpE_bind]
  refine steps_push hw (fun _ e => hsrc (Row.inode.inj e)) ?_
  rw [wpE_bind]
  refine steps_batchParentDeltasAll hw hb _ ?_
  rw [wpE_bind]
  refine steps_commit hw rfl ?_
  rw [wpE_bind]
  refine steps_forgetDst hw (fun hp hnp => deltasOf_rename_other hp hnp _ _ _) ?_
  rw [wpE_bind]
  refine steps_cachePut hw hsrc ?_
  show wpE _ _ (do List.forM _ _; _) _ _
  rw [wpE_bind]
  exact steps_applyAll hw _ rfl

end Writers

section Replies

variable {α : Type} {s : Server} {i : Inode} {c : Call} {x : Op α} {mk : FsResult α → Reply}

theorem settled_of_paid (h : wpE (cacheSteps s i c) CacheWatch.Paid x (fun _ g => g.Paid) {}) :
    wp (cacheSteps s i c) (do return mk (← x.run)) (CacheWatch.Settled s i c) {} := by
  rw [wp_bind]
  refine wp_mono (fun r g hg => ?_) h
  cases r <;> exact fun _ _ => hg

theorem settled_of_created (hc : c.creates ≠ none) (hl : c.isLink = false)
    (hmk : ∀ x, (mk (.error x)).isOk = false)
    (h : wpE (cacheSteps s i c) (fun _ => True) x (fun _ g => g.Paid) {}) :
    wp (cacheSteps s i c) (do return mk (← x.run)) (CacheWatch.Settled s i c) {} := by
  rw [wp_bind]
  refine wp_mono (fun r g hg => ?_) h
  cases r with
  | ok a => exact fun _ _ => hg
  | error y =>
      rintro - (h | h | h)
      · exact absurd h hc
      · rw [hl] at h
        cases h
      · rw [show (mk (.error y)).isOk = false from hmk y] at h
        cases h

end Replies

/-- **Every writer pays what it owes to the cached copy**, unless a creation fails after its commit. -/
theorem takes_cacheSteps {cfg : Config} (hb : cfg.build = .delta) (s : Server) (i : Inode) (c : Call) :
    wp (cacheSteps s i c) (c.body cfg) (CacheWatch.Settled s i c) {} := by
  by_cases hg : c = .getattr i
  · subst hg
    exact load_cacheSteps s i cfg
  by_cases hw : WriterOn s i c
  · cases c with
    | create p n mode uid gid =>
        obtain ⟨rfl, hdir⟩ := hw
        exact settled_of_created nofun rfl (fun _ => rfl) (steps_create hb ⟨rfl, hdir⟩ rfl hdir)
    | createAndOpen p n mode uid gid flags =>
        obtain ⟨rfl, hdir⟩ := hw
        exact settled_of_created nofun rfl (fun _ => rfl) (steps_createAndOpen hb ⟨rfl, hdir⟩)
    | mkdir p n mode uid gid =>
        obtain ⟨rfl, hdir⟩ := hw
        exact settled_of_created nofun rfl (fun _ => rfl) (steps_mkdir hb ⟨rfl, hdir⟩ rfl hdir)
    | symlink p n target uid gid =>
        obtain ⟨rfl, hdir⟩ := hw
        exact settled_of_created nofun rfl (fun _ => rfl) (steps_symlink hb ⟨rfl, hdir⟩ rfl hdir)
    | link p n t =>
        obtain ⟨rfl, ht⟩ := hw
        exact settled_of_paid (steps_link hb ⟨rfl, ht⟩)
    | unlink p n => exact settled_of_paid (steps_unlink hb hw)
    | rmdir p n => exact settled_of_paid (steps_rmdir hb hw)
    | rename p n np nn => exact settled_of_paid (steps_rename hb hw)
    | release j =>
        obtain rfl : j = i := hw
        exact settled_of_paid (steps_release rfl)
    | forceCompactInode j =>
        obtain rfl : j = i := hw
        exact settled_of_paid (steps_forceCompactInode rfl)
    | _ => exact hw.elim
  · exact wp_mono (fun r g _ h => absurd h hw)
      (wp_true (C := cacheSteps s i c) (fun e g => ⟨fun h => absurd h hg, fun h => absurd h hw⟩) _ _)

end RucksFs
