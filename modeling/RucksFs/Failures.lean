import RucksFs.Server.Concurrent
import RucksFs.Server.Outcome
import RucksFs.Server.Transactions

/-!
# Calls that fail

One call is served alone and any of its storage calls may fail.  Almost every failure leaves the stored
records and the handle tables as they were.  Three failures come too late for that:

* the allocator's counter cannot be stored, after the commit of a creation;
* the data location cannot be read, after `open` has counted the handle;
* the record cannot be deleted, after `release` has dropped the last handle and the deferred deletion.

`failed_call_unchanged_iff` says that these are all, and that each of them does change something.
-/

set_option autoImplicit false

namespace RucksFs

open Prog Op

/-- One effect of a call that is served alone: done or failed. -/
def actsAlone (cfg : Config) (e : Eff) (x : Local × Server) (r : e.Res) (x' : Local × Server) : Prop :=
  Acts cfg [] e x.1 x.2 r x'.1 x'.2

/-- `c` is served alone from `s`; `es` are its effects and what they answered. -/
def ServedAlone (cfg : Config) (c : Call) (s : Server) (es : List ((e : Eff) × e.Res)) (r : Reply)
    (s' : Server) : Prop :=
  ∃ l, Runs (actsAlone cfg) (c.body cfg) ({}, s) es r (l, s')

/-- The stored records and the handle tables are the same. -/
structure Server.SameTables (s s' : Server) : Prop where
  inodes : s'.db.inodes = s.db.inodes
  dirEntries : s'.db.dirEntries = s.db.dirEntries
  deltas : s'.db.deltaEntries = s.db.deltaEntries
  dataLocations : s'.db.dataLocations = s.db.dataLocations
  symlinks : s'.db.symlinks = s.db.symlinks
  openHandles : s'.openHandles = s.openHandles
  pendingDeletes : s'.pendingDeletes = s.pendingDeletes

/-- The answer is an error that comes after the call has changed something. -/
def Call.lateFailure (c : Call) : (e : Eff) → e.Res → Bool
  | .putNextInode _, .error _ => true
  | .getDataLocation _, .error _ => true
  | .commit, .error _ =>
      match c with
      | .release _ => true
      | _ => false
  | _, _ => false

/-- A late failure has been seen. -/
def Call.noteLate (c : Call) (late : Bool) (e : Eff) (r : e.Res) : Bool := late || c.lateFailure e r

/-- The state of a call that is served alone, and whether it has seen a late failure. -/
abbrev Alone := (Local × Server) × Bool

/-- What the operations are verified against here: real states and late failures. -/
abbrev Call.alone (c : Call) (cfg : Config) : Contract Eff Eff.Res Alone :=
  acting (actsAlone cfg) c.noteLate

namespace Server.SameTables

theorem refl (s : Server) : s.SameTables s := ⟨rfl, rfl, rfl, rfl, rfl, rfl, rfl⟩

theorem trans {s s' s'' : Server} (h : s.SameTables s') (h' : s'.SameTables s'') : s.SameTables s'' :=
  ⟨h'.inodes.trans h.inodes, h'.dirEntries.trans h.dirEntries, h'.deltas.trans h.deltas,
    h'.dataLocations.trans h.dataLocations, h'.symlinks.trans h.symlinks, h'.openHandles.trans h.openHandles,
    h'.pendingDeletes.trans h.pendingDeletes⟩

end Server.SameTables

/-! ## Effects -/

/-- What the read paths do. -/
def Eff.reads : Eff → Bool
  | .cacheGet .. | .getInode .. | .scanDeltas .. | .scanDeltasWithKeys .. | .cachePut .. | .resolvePath ..
  | .listDir .. | .getSymlink .. => true
  | _ => false

section

variable {cfg : Config} {c : Call} {s : Server} {e : Eff} {x x' : Local × Server} {r : e.Res} {i : Inode}

/-- Preparing and reading change none of the tables. -/
theorem actsAlone_keeps (he : e.prepares = true ∨ e.reads = true) (h : actsAlone cfg e x r x') :
    x.2.SameTables x'.2 := by
  obtain ⟨l, s⟩ := x
  obtain ⟨l', s'⟩ := x'
  cases h with
  | failed _ => exact .refl s
  | done _ =>
      cases e with
      | commit | allocCurrent | putNextInode | clearDeltas | getDataLocation | cacheApplyDeltas | cacheInvalidate
      | markDirty | handleIncr | checkAndClearDeferredDelete | pendingInsert => rcases he with he | he <;> cases he
      | _ => exact ⟨rfl, rfl, rfl, rfl, rfl, rfl, rfl⟩

/-- They never fail late. -/
theorem lateFailure_prepares (he : e.prepares = true ∨ e.reads = true) : c.lateFailure e r = false := by
  cases e with
  | commit | putNextInode | getDataLocation => rcases he with he | he <;> cases he
  | _ => rfl

/-- A commit that fails changes nothing. -/
theorem actsAlone_abort {r : Eff.Res .commit} {y : FsError} (hr : r = .error y)
    (h : actsAlone cfg .commit x r x') : x'.2 = x.2 := by
  obtain ⟨l, s⟩ := x
  obtain ⟨l', s'⟩ := x'
  cases h with
  | done _ => cases hr
  | failed _ => rfl

theorem actsAlone_commit {r : Eff.Res .commit} {u : Unit} (hr : r = .ok u) (h : actsAlone cfg .commit x r x') :
    x'.2 = { x.2 with db := x.2.db.applyBatch x.1.tx.batch } := by
  obtain ⟨l, s⟩ := x
  obtain ⟨l', s'⟩ := x'
  cases h with
  | done _ => rfl
  | failed hf =>
      cases hf
      cases hr

theorem actsAlone_beginWrite {r : Eff.Res .beginWrite} (h : actsAlone cfg .beginWrite x r x') : x'.1.tx.batch = [] := by
  obtain ⟨l, s⟩ := x
  obtain ⟨l', s'⟩ := x'
  cases h with
  | done _ => rfl
  | failed hf => cases hf

theorem actsAlone_push {op : BatchOp} {r : Eff.Res (.push op)} (h : actsAlone cfg (.push op) x r x') :
    x'.1.tx.batch = x.1.tx.batch ++ [op] ∧ x'.2 = x.2 := by
  obtain ⟨l, s⟩ := x
  obtain ⟨l', s'⟩ := x'
  cases h with
  | done _ => exact ⟨rfl, rfl⟩
  | failed hf => cases hf

theorem actsAlone_getForUpdateDirEntry {p : Inode} {n : Name} {r : Eff.Res (.getForUpdateDirEntry p n)}
    {v : Option DirValue} (hr : r = .ok v) (h : actsAlone cfg (.getForUpdateDirEntry p n) x r x') :
    v = (x.2.db.applyBatch x.1.tx.batch).entry p n := by
  obtain ⟨l, s⟩ := x
  obtain ⟨l', s'⟩ := x'
  cases h with
  | done _ =>
      cases hr
      rfl
  | failed hf =>
      cases hf
      cases hr

/-- Settling leaves the names and the open handles alone. -/
theorem actsAlone_settles (he : e.settles = true) (h : actsAlone cfg e x r x') :
    x'.2.db.dirEntries = x.2.db.dirEntries ∧ x'.2.openHandles = x.2.openHandles := by
  obtain ⟨l, s⟩ := x
  obtain ⟨l', s'⟩ := x'
  cases h with
  | failed _ => exact ⟨rfl, rfl⟩
  | done _ =>
      cases e with
      | dropBatch | allocCurrent | putNextInode | clearDeltas | cacheApplyDeltas | cacheInvalidate | cachePut
      | markDirty | pendingInsert => exact ⟨rfl, rfl⟩
      | _ => cases he

theorem actsAlone_handleIncr {r : Eff.Res (.handleIncr i)} (h : actsAlone cfg (.handleIncr i) x r x') :
    x'.2 = x.2.handleIncr i := by
  obtain ⟨l, s⟩ := x
  obtain ⟨l', s'⟩ := x'
  cases h with
  | done _ => rfl
  | failed hf => cases hf

theorem actsAlone_getDataLocation {r : Eff.Res (.getDataLocation i)} (h : actsAlone cfg (.getDataLocation i) x r x') :
    x'.2 = x.2 := by
  obtain ⟨l, s⟩ := x
  obtain ⟨l', s'⟩ := x'
  cases h <;> rfl

/-- A deferred deletion that is due: the last handle was open and is closed now. -/
theorem actsAlone_checkAndClear {r : Eff.Res (.checkAndClearDeferredDelete i)} (hr : r = true)
    (h : actsAlone cfg (.checkAndClearDeferredDelete i) x r x') :
    x.2.openHandles i ≠ none ∧ x'.2.openHandles i = none := by
  obtain ⟨l, s⟩ := x
  obtain ⟨l', s'⟩ := x'
  cases h with
  | failed hf => cases hf
  | done _ =>
      have hdue : (s.checkAndClearDeferredDelete i).1 = true := hr
      show s.openHandles i ≠ none ∧ (s.checkAndClearDeferredDelete i).2.openHandles i = none
      unfold Server.checkAndClearDeferredDelete at hdue ⊢
      split
      · rename_i ho
        rw [ho] at hdue
        cases hdue
      · rename_i count ho
        rw [ho] at hdue
        refine ⟨by rw [ho]; nofun, ?_⟩
        dsimp only at hdue ⊢
        split
        · exact Function.update_self ..
        · rename_i hne
          rw [if_neg hne] at hdue
          cases hdue

end

/-! ## Operations -/

/-- Nothing has happened yet: the tables are those of `s` and no failure was late. -/
def Untouched (s : Server) (y : Alone) : Prop := s.SameTables y.1.2 ∧ y.2 = false

/-- The tables are those of `s` exactly when no failure was late. -/
def Verdict (s : Server) (y : Alone) : Prop := s.SameTables y.1.2 ↔ y.2 = false

theorem Untouched.verdict {s : Server} {y : Alone} (h : Untouched s y) : Verdict s y :=
  ⟨fun _ => h.2, fun _ => h.1⟩

section

variable {cfg : Config} {c : Call} {s : Server} {α β : Type} {y : Alone} {p i : Inode} {n : Name} {x : Op α}
  {E : Alone → Prop}

theorem untouched_step (e : Eff) (y : Alone) (r : e.Res) (y' : Alone)
    (he : e.prepares = true ∨ e.reads = true) (hy : Untouched s y) (hp : (c.alone cfg).post e y r y') :
    Untouched s y' := by
  refine ⟨hy.1.trans (actsAlone_keeps he hp.1), ?_⟩
  rw [hp.2, Call.noteLate, hy.2, lateFailure_prepares he]
  rfl

theorem untouched_abort (hc : ∀ i, c ≠ .release i) (y : Alone) (x : FsError) (y' : Alone) (hy : Untouched s y)
    (hp : (c.alone cfg).post .commit y (.error x) y') : Untouched s y' := by
  refine ⟨by rw [actsAlone_abort rfl hp.1]; exact hy.1, ?_⟩
  rw [hp.2]
  show (y.2 || c.lateFailure .commit _) = false
  rw [hy.2]
  cases c with
  | release i => exact absurd rfl (hc i)
  | _ => rfl

/-- A transaction that fails has changed nothing; what it keeps of the open handles it keeps on success. -/
theorem Transacts.alone (h : Transacts x) (hc : ∀ i, c ≠ .release i) (hy : Untouched s y) :
    wpE (c.alone cfg) (Untouched s) x (fun _ y' => y'.1.2.openHandles = s.openHandles) y := by
  refine h ⟨fun _ _ => trivial, fun e l r l' he => untouched_step e l r l' (Or.inl he), untouched_abort hc,
    fun l l' hl hp => ?_, fun e l r l' he hl hp => ?_⟩ y hy
  · rw [actsAlone_commit rfl hp.1]
    exact hl.1.openHandles
  · exact (actsAlone_settles he hp.1).2.trans hl

/-- A part that does not fail. -/
theorem Only.sure {p : Eff → Bool} (h : Only p False x) : wpE (c.alone cfg) E x (fun _ _ => True) y :=
  wpE_mono (fun _ _ h => h) (fun _ h => h.1.elim)
    (h.invariant (I := fun _ => True) (fun _ _ => trivial) (fun _ _ _ _ _ _ _ => trivial) y trivial)

/-- A part that does not fail and keeps `I`, in front of the rest. -/
theorem Only.then_keeping {p : Eff → Bool} {I : Alone → Prop} {f : α → Op β} {Q : β → Alone → Prop}
    (hx : Only p False x) (hstep : ∀ e y r y', p e = true → I y → (c.alone cfg).post e y r y' → I y') (hy : I y)
    (h : ∀ a y', I y' → wpE (c.alone cfg) E (f a) Q y') : wpE (c.alone cfg) E (x >>= f) Q y := by
  rw [wpE_bind]
  exact wpE_mono h (fun _ h => h.1.elim) (hx.invariant (fun _ _ => trivial) hstep y hy)

theorem Only.then_prepared {f : α → Op β} {Q : β → Alone → Prop} (hx : Only Eff.prepares False x) (hy : Untouched s y)
    (h : ∀ a y', Untouched s y' → wpE (c.alone cfg) E (f a) Q y') : wpE (c.alone cfg) E (x >>= f) Q y :=
  hx.then_keeping (fun e l r l' he => untouched_step e l r l' (Or.inl he)) hy h

/-- A part that only reads. -/
theorem Only.alone (h : Only Eff.reads True x) (hy : Untouched s y) :
    wpE (c.alone cfg) (Untouched s) x (fun _ => Untouched s) y :=
  wpE_mono (fun _ _ h => h) (fun _ h => h.2)
    (h.invariant (fun _ _ => trivial) (fun e l r l' he => untouched_step e l r l' (Or.inr he)) y hy)

theorem Only.loads (i : Inode) : Only Eff.reads True (RucksFs.loadInode i) :=
  Only.loadInode rfl rfl rfl fun _ => rfl

/-! ### Creations -/

/-- What a creation does between the push of its entry and its commit. -/
def Eff.leavesEntries : Eff → Bool
  | .push (.putDirEntry ..) | .push (.deleteDirEntry ..) | .beginWrite | .dropBatch => false
  | e => e.prepares

theorem Eff.prepares_of_leavesEntries {e : Eff} (h : e.leavesEntries = true) : e.prepares = true := by
  unfold Eff.leavesEntries at h
  split at h
  · cases h
  · cases h
  · cases h
  · cases h
  · exact h

/-- `p/n` has no entry, and the batch would give it one. -/
def Entering (s : Server) (p : Inode) (n : Name) (y : Alone) : Prop :=
  Untouched s y ∧ s.db.entry p n = none ∧ ((y.1.2.db.applyBatch y.1.1.tx.batch).entry p n).isSome = true

/-- `p/n` had no entry and has one now. -/
def Entered (s : Server) (p : Inode) (n : Name) (y : Alone) : Prop :=
  s.db.entry p n = none ∧ (y.1.2.db.entry p n).isSome = true

theorem Entered.not_same (h : Entered s p n y) : ¬s.SameTables y.1.2 := by
  intro hs
  have hsame : y.1.2.db.entry p n = s.db.entry p n := by
    unfold Db.entry
    rw [hs.dirEntries]
  have hsome := h.2
  rw [hsame, h.1] at hsome
  cases hsome

theorem entering_step (e : Eff) (y : Alone) (r : e.Res) (y' : Alone) (he : e.leavesEntries = true)
    (hy : Entering s p n y) (hp : (c.alone cfg).post e y r y') : Entering s p n y' := by
  refine ⟨untouched_step e y r y' (Or.inl (Eff.prepares_of_leavesEntries he)) hy.1 hp, hy.2.1, ?_⟩
  have hsome := hy.2.2
  obtain ⟨⟨l, t⟩, b⟩ := y
  obtain ⟨⟨l', t'⟩, b'⟩ := y'
  have hacts : Acts cfg [] e l t r l' t' := hp.1
  cases hacts with
  | failed hf =>
      cases e with
      | commit => cases he
      | _ => exact hsome
  | done _ =>
      cases e with
      | push op =>
          show ((t.db.applyBatch (l.tx.batch ++ [op])).entry p n).isSome = true
          rw [Db.applyBatch_append]
          cases op with
          | putDirEntry | deleteDirEntry => cases he
          | _ => exact hsome
      | getForUpdateDirEntry | getForUpdateInode | isDirEmpty | nowSecs | alloc | nextSeq | handleCount =>
          exact hsome
      | _ => cases he

theorem entered_settle (e : Eff) (y : Alone) (r : e.Res) (y' : Alone) (he : e.settles = true) (hy : Entered s p n y)
    (hp : (c.alone cfg).post e y r y') : Entered s p n y' := by
  refine ⟨hy.1, ?_⟩
  unfold Db.entry
  rw [(actsAlone_settles he hp.1).1]
  exact hy.2

/-- The transaction of a creation: nothing on failure, a new entry on success. -/
theorem createTxn_alone (hc : ∀ i, c ≠ .release i) {size mode nlink uid gid : Nat} {extra : Inode → List BatchOp}
    {deltas : Nat → List DeltaOp} (hx : ∀ i, ∀ op ∈ extra i, Eff.leavesEntries (.push op) = true) (hy : Untouched s y) :
    wpE (c.alone cfg) (Untouched s) (createTxn cfg p n size mode nlink uid gid extra deltas)
      (fun _ => Entered s p n) y := by
  refine wpE_retry (I := Untouched s) (fun _ _ => trivial) (fun _ => trivial) (fun _ h => h) ?_ _ y hy
  intro y hy y₁ h₁
  have hU₁ : Untouched s y₁ := untouched_step .beginWrite y () y₁ (Or.inl rfl) hy h₁
  have hdrop : ∀ y₂ : Alone, Untouched s y₂ → ∀ y₃, (c.alone cfg).post .dropBatch y₂ () y₃ → Untouched s y₃ :=
    fun y₂ h₂ y₃ h₃ => untouched_step .dropBatch y₂ () y₃ (Or.inl rfl) h₂ h₃
  rw [wpE_bind]
  refine ⟨trivial, fun o y₂ h₂ => ?_⟩
  have hU₂ : Untouched s y₂ := untouched_step _ y₁ o y₂ (Or.inl rfl) hU₁ h₂
  cases o with
  | error x => exact hdrop y₂ hU₂
  | ok v =>
      -- the batch is still empty, so the locked read has seen the stored entry
      have hread : v = s.db.entry p n := by
        rw [actsAlone_getForUpdateDirEntry rfl h₂.1, actsAlone_beginWrite h₁.1]
        show y₁.1.2.db.dirEntries.get _ = _
        rw [hU₁.1.dirEntries]
        rfl
      refine wpE_guard (fun _ => hdrop y₂ hU₂) fun hnone => ?_
      have hfree : s.db.entry p n = none := by
        rw [← hread]
        simpa using hnone
      refine Only.then_prepared (x := alloc) (Only.eff rfl) hU₂ fun i y₃ h₃ => ?_
      refine Only.then_prepared Only.nowSecs h₃ fun ts y₄ h₄ => ?_
      refine Only.then_prepared (Only.push _) h₄ fun _ y₅ h₅ => ?_
      rw [wpE_bind]
      refine ⟨trivial, fun _ y₆ h₆ => ?_⟩
      have hpushed := actsAlone_push h₆.1
      have hE₆ : Entering s p n y₆ := by
        refine ⟨untouched_step _ y₅ _ y₆ (Or.inl rfl) h₅ h₆, hfree, ?_⟩
        rw [hpushed.1, hpushed.2, Db.applyBatch_append]
        show ((OrdMap.put _ _ _).get _).isSome = true
        simp
      refine Only.then_keeping (Only.forM _ _ fun op ho => Only.eff (hx i op ho)) entering_step hE₆ fun _ y₇ h₇ => ?_
      refine Only.then_keeping (Only.batchParentDeltas cfg (fun _ => rfl) (fun _ _ => rfl) rfl (fun _ => rfl) _)
        entering_step h₇ fun _ y₈ h₈ => ?_
      rw [wpE_bind]
      refine ⟨trivial, fun r y₉ h₉ => ?_⟩
      cases r with
      | error x => exact hdrop y₉ (untouched_abort hc y₈ x y₉ h₈.1 h₉)
      | ok _ =>
          have hentered : Entered s p n y₉ := by
            refine ⟨hfree, ?_⟩
            rw [actsAlone_commit rfl h₉.1]
            exact h₈.2.2
          exact fun y' h' => entered_settle .dropBatch y₉ () y' rfl hentered h'

/-- After the commit of a creation only the allocator's counter can fail, and that is late. -/
theorem afterCreate_alone {iv : InodeValue} {ds : List DeltaOp} (hy : Entered s p n y) :
    wpE (c.alone cfg) (Verdict s) (afterCreate p iv ds) (fun _ _ => True) y := by
  have hrest : Only Eff.settles False (do
      cachePut iv.inode iv
      cacheApplyDeltas p ds
      markDirty p
      return iv.toAttr) :=
    (Only.cachePut _ _).bind fun _ => (Only.cacheApplyDeltas _ _).bind fun _ => (Only.markDirty _).bind fun _ =>
      Only.pure _
  unfold afterCreate maybePersist
  rw [wpE_bind, wpE_bind]
  refine ⟨trivial, fun val y₁ h₁ => ?_⟩
  have hy₁ : Entered s p n y₁ := entered_settle .allocCurrent y val y₁ rfl hy h₁
  show wpE _ _ (if _ then _ else _) _ _
  split
  · refine ⟨trivial, fun r y₂ h₂ => ?_⟩
    have hy₂ : Entered s p n y₂ := entered_settle _ y₁ r y₂ rfl hy₁ h₂
    cases r with
    | ok _ => exact hrest.sure
    | error x =>
        have hlate : y₂.2 = true := by
          rw [h₂.2]
          exact Bool.or_true _
        exact ⟨fun h => absurd h hy₂.not_same, fun h => by rw [hlate] at h; cases h⟩
  · exact hrest.sure

/-- `create`, `mkdir` and `symlink`. -/
theorem creation_alone (hc : ∀ i, c ≠ .release i) {size mode nlink uid gid : Nat} {extra : Inode → List BatchOp}
    {deltas : Nat → List DeltaOp} {after : InodeValue → List DeltaOp}
    (hx : ∀ i, ∀ op ∈ extra i, Eff.leavesEntries (.push op) = true) (hy : Untouched s y) :
    wpE (c.alone cfg) (Verdict s) (do
      validateName n
      let iv ← createTxn cfg p n size mode nlink uid gid extra deltas
      afterCreate p iv (after iv)) (fun _ _ => True) y := by
  rw [wpE_bind]
  refine wpE_mono (fun _ y₁ hy₁ => ?_) (fun _ h => h.verdict) ((Only.validateName n).alone hy)
  rw [wpE_bind]
  exact wpE_mono (fun iv y₂ h₂ => afterCreate_alone h₂) (fun _ h => h.verdict) (createTxn_alone hc hx hy₁)

/-! ### Handles -/

/-- The count of open handles never stays what it was. -/
theorem handleIncr_ne (t : Server) (i : Inode) : (t.handleIncr i).openHandles ≠ t.openHandles := by
  intro h
  have hi := congrFun h i
  unfold Server.handleIncr Server.handles at hi
  dsimp only at hi
  rw [Function.update_self] at hi
  cases ho : t.openHandles i with
  | none => rw [ho] at hi; cases hi
  | some k =>
      rw [ho] at hi
      have hk : (k + 1) % U32_SIZE = k := Option.some.inj hi
      have hlt : k < U32_SIZE := hk ▸ Nat.mod_lt _ (by decide)
      by_cases hmax : k + 1 = U32_SIZE
      · rw [hmax, Nat.mod_self] at hk
        rw [← hk] at hmax
        exact absurd hmax (by decide)
      · rw [Nat.mod_eq_of_lt (by omega)] at hk
        omega

/-- `open` has counted its handle before it reads the data location. -/
theorem openFile_alone (hc : ∀ i, c ≠ .release i) {flags : Nat} (hy : Untouched s y) :
    wpE (c.alone cfg) (Verdict s) (openFile cfg i flags) (fun _ _ => True) y := by
  have hopen : ∀ y₁ : Alone, y₁.1.2.openHandles = s.openHandles → wpE (c.alone cfg) (Verdict s) (do
      handleIncr i
      let serverId := (← getDataLocation i).getD cfg.defaultDataLocation.serverId
      return (⟨i, ⟨serverId⟩⟩ : OpenResponse)) (fun _ _ => True) y₁ := by
    intro y₁ h₁
    rw [wpE_bind]
    refine ⟨trivial, fun _ y₂ h₂ => ?_⟩
    have hcounted : y₂.1.2 = y₁.1.2.handleIncr i := actsAlone_handleIncr h₂.1
    show wpE _ _ (_ >>= _) _ _
    rw [wpE_bind]
    refine ⟨trivial, fun r y₃ h₃ => ?_⟩
    have hread : y₃.1.2 = y₂.1.2 := actsAlone_getDataLocation h₃.1
    cases r with
    | ok o => trivial
    | error x =>
        have hlate : y₃.2 = true := by
          rw [h₃.2]
          exact Bool.or_true _
        refine ⟨fun h => ?_, fun h => by rw [hlate] at h; cases h⟩
        have hsame := h.openHandles
        rw [hread, hcounted, ← h₁] at hsame
        exact absurd hsame (handleIncr_ne _ i)
  unfold openFile
  rw [wpE_bind]
  refine wpE_mono (fun iv y₁ hy₁ => ?_) (fun _ h => h.verdict) ((Only.loads i).alone hy)
  refine wpE_guard (fun _ => hy₁.verdict) fun _ => ?_
  dsimp only
  split
  · rw [wpE_bind]
    exact wpE_mono (fun _ y₂ h₂ => hopen y₂ h₂) (fun _ h => h.verdict) ((Transacts.truncateTxn i).alone hc hy₁)
  · exact hopen y₁ hy₁.1.openHandles

/-- `release` has dropped its handle before it deletes the record. -/
theorem release_alone (hy : Untouched s y) :
    wpE ((Call.release i).alone cfg) (Verdict s) (release i) (fun _ _ => True) y := by
  unfold release
  rw [wpE_bind]
  refine ⟨trivial, fun (due : Bool) y₁ h₁ => ?_⟩
  show wpE _ _ (if due = true then _ else _) _ _
  split
  · rename_i hdue
    obtain ⟨hopen, hclosed⟩ := actsAlone_checkAndClear hdue h₁.1
    rw [hy.1.openHandles] at hopen
    rw [wpE_bind]
    -- every attempt keeps the handle closed, and an attempt can only fail at its commit
    let closed : Alone → Prop := fun y' => y'.1.2.openHandles i = none
    have hstep : ∀ {e : Eff} {y' : Alone} {r : e.Res} {y'' : Alone}, e.prepares = true → closed y' →
        ((Call.release i).alone cfg).post e y' r y'' → closed y'' := by
      intro e y' r y'' he hcl hp
      show y''.1.2.openHandles i = none
      rw [(actsAlone_keeps (Or.inl he) hp.1).openHandles]
      exact hcl
    refine wpE_mono (Q := fun _ _ => True) (E := fun y' => closed y' ∧ y'.2 = true) ?_ ?_
      (wpE_retry (I := closed) (fun _ _ => trivial) (fun _ => trivial) (fun _ h => h.1) ?_ _ y₁ hclosed)
    · intro _ y' _
      exact ((Only.clearDeltas i).bind fun _ => (Only.cacheInvalidate i).bind fun _ => Only.pure [i]).sure
    · rintro y' ⟨hcl, hlate⟩
      refine ⟨fun h => ?_, fun h => by rw [hlate] at h; cases h⟩
      have hsame := congrFun h.openHandles i
      rw [hcl] at hsame
      exact absurd hsame.symm hopen
    · intro y' hcl y₂ h₂
      have hcl₂ : closed y₂ := hstep rfl hcl h₂
      rw [wpE_bind]
      refine ⟨trivial, fun _ y₃ h₃ => ?_⟩
      have hcl₃ : closed y₃ := hstep rfl hcl₂ h₃
      show wpE _ _ (_ >>= _) _ _
      rw [wpE_bind]
      refine ⟨trivial, fun _ y₄ h₄ => ?_⟩
      have hcl₄ : closed y₄ := hstep rfl hcl₃ h₄
      refine ⟨trivial, fun r y₅ h₅ => ?_⟩
      cases r with
      | ok _ => exact fun _ _ => trivial
      | error x =>
          intro y₆ h₆
          have hcl₅ : closed y₅ := by
            show y₅.1.2.openHandles i = none
            rw [actsAlone_abort rfl h₅.1]
            exact hcl₄
          refine ⟨hstep rfl hcl₅ h₆, ?_⟩
          rw [h₆.2, h₅.2]
          show ((_ || true) || false) = true
          simp
  · trivial

/-- A compaction that fails has changed nothing. -/
theorem forceCompactInode_alone (hc : ∀ i, c ≠ .release i) (hy : Untouched s y) :
    wpE (c.alone cfg) (Untouched s) (forceCompactInode i) (fun _ _ => True) y := by
  have hscan : Only Eff.reads True (scanDeltasWithKeys i) :=
    Only.of_perform (e := .scanDeltasWithKeys i) (k := fun r => r) rfl rfl
  have hdrop : ∀ y₂ : Alone, Untouched s y₂ → ∀ y₃, (c.alone cfg).post .dropBatch y₂ () y₃ → Untouched s y₃ :=
    fun y₂ h₂ y₃ h₃ => untouched_step .dropBatch y₂ () y₃ (Or.inl rfl) h₂ h₃
  unfold forceCompactInode
  rw [wpE_bind]
  refine wpE_mono (fun kvs y₁ h₁ => ?_) (fun _ h => h) (hscan.alone hy)
  show wpE _ _ (if kvs.isEmpty then pure false else _) _ _
  split
  · trivial
  · refine wpE_withBatch trivial (fun _ => trivial) fun y₂ h₂ => ?_
    have hU₂ : Untouched s y₂ := untouched_step .beginWrite y₁ () y₂ (Or.inl rfl) h₁ h₂
    rw [wpE_bind]
    refine ⟨trivial, fun o y₃ h₃ => ?_⟩
    have hU₃ : Untouched s y₃ := untouched_step _ y₂ o y₃ (Or.inl rfl) hU₂ h₃
    match o with
    | .error x => exact hdrop y₃ hU₃
    | .ok none => exact fun _ _ => trivial
    | .ok (some base) =>
        refine Only.then_prepared (Only.push _) hU₃ fun _ y₄ h₄ => ?_
        refine Only.then_prepared (Only.forM _ _ fun p _ => Only.push _) h₄ fun _ y₅ h₅ => ?_
        rw [wpE_bind, wpE_lift]
        refine ⟨trivial, fun r y₆ h₆ => ?_⟩
        cases r with
        | ok _ => exact ⟨trivial, fun _ _ _ _ _ => trivial⟩
        | error x =>
            have hU₆ : Untouched s y₆ := untouched_abort hc y₅ x y₆ h₅ h₆
            cases x with
            | transactionConflict => exact fun _ _ => trivial
            | _ => exact hdrop y₆ hU₆

end

/-! ## Calls -/

section

variable {α : Type} {cfg : Config} {c : Call} {s : Server} {y : Alone} {x : Op α} {mk : FsResult α → Reply}

theorem alone_reply (hok : ∀ a, (mk (.ok a)).isError = false)
    (h : wpE (c.alone cfg) (Verdict s) x (fun _ _ => True) y) :
    wp (c.alone cfg) (do return mk (← x.run)) (fun r y' => r.isError = true → Verdict s y') y := by
  rw [wp_bind]
  refine wp_mono (fun r y' hr he => ?_) h
  cases r with
  | ok a => rw [hok a] at he; cases he
  | error x => exact hr

/-- A call whose failures leave everything as it was. -/
theorem Transacts.alone_reply (h : Transacts x) (hc : ∀ i, c ≠ .release i)
    (hok : ∀ a, (mk (.ok a)).isError = false) (hy : Untouched s y) :
    wp (c.alone cfg) (do return mk (← x.run)) (fun r y' => r.isError = true → Verdict s y') y :=
  RucksFs.alone_reply hok (wpE_mono (fun _ _ _ => trivial) (fun _ h => h.verdict) (h.alone hc hy))

theorem Only.alone_reply (h : Only Eff.reads True x) (hok : ∀ a, (mk (.ok a)).isError = false)
    (hy : Untouched s y) : wp (c.alone cfg) (do return mk (← x.run)) (fun r y' => r.isError = true → Verdict s y') y :=
  RucksFs.alone_reply hok (wpE_mono (fun _ _ _ => trivial) (fun _ h => h.verdict) (h.alone hy))

/-- A call that ends with an error changed something exactly when it saw a late failure. -/
theorem Call.alone_verdict (cfg : Config) (c : Call) (s : Server) (hy : Untouched s y) :
    wp (c.alone cfg) (c.body cfg) (fun r y' => r.isError = true → Verdict s y') y := by
  cases c with
  | lookup p n =>
      refine Only.alone_reply ((Only.validateName n).bind fun _ => ?_) (fun _ => rfl) hy
      refine Only.bind (Only.of_perform (e := .resolvePath p n) (k := fun r => r) rfl rfl) fun o => ?_
      exact (Only.orNotFound o).bind fun i => (Only.loads i).bind fun _ => Only.pure _
  | getattr i => exact Only.alone_reply ((Only.loads i).bind fun _ => Only.pure _) (fun _ => rfl) hy
  | readdir i =>
      refine Only.alone_reply ((Only.loads i).bind fun iv => Only.guard fun _ => ?_) (fun _ => rfl) hy
      exact Only.of_perform (e := .listDir i) (k := fun r => r) rfl rfl
  | readlink i =>
      refine Only.alone_reply ((Only.loads i).bind fun iv => Only.guard fun _ => ?_) (fun _ => rfl) hy
      refine Only.bind (Only.of_perform (e := .getSymlink i) (k := fun r => r) rfl rfl) fun o => ?_
      cases o with
      | none => exact Only.throw _
      | some t => exact Only.pure t
  | setattr i req => exact (Transacts.setattr i req).alone_reply nofun (fun _ => rfl) hy
  | reportWrite i sz t => exact (Transacts.reportWrite i sz t).alone_reply nofun (fun _ => rfl) hy
  | link p n t => exact (Transacts.link cfg p n t).alone_reply nofun (fun _ => rfl) hy
  | unlink p n => exact (Transacts.unlink cfg p n).alone_reply nofun (fun _ => rfl) hy
  | rmdir p n => exact (Transacts.rmdir cfg p n).alone_reply nofun (fun _ => rfl) hy
  | rename p n np nn => exact (Transacts.rename cfg p n np nn).alone_reply nofun (fun _ => rfl) hy
  | create p n m u g =>
      refine RucksFs.alone_reply (fun _ => rfl) (creation_alone (fun _ h => by cases h) (fun i op ho => ?_) hy)
      rw [List.mem_singleton.1 ho]
      rfl
  | mkdir p n m u g =>
      exact RucksFs.alone_reply (fun _ => rfl) (creation_alone (fun _ h => by cases h) (fun i op ho => by cases ho) hy)
  | symlink p n t u g =>
      refine RucksFs.alone_reply (fun _ => rfl) (creation_alone (fun _ h => by cases h) (fun i op ho => ?_) hy)
      rw [List.mem_singleton.1 ho]
      rfl
  | createAndOpen p n m u g f =>
      refine RucksFs.alone_reply (fun _ => rfl) ?_
      unfold RucksFs.createAndOpen
      rw [wpE_bind]
      refine wpE_mono (fun attr y' _ => ?_) (fun _ h => h) (creation_alone (fun _ h => by cases h) (fun i op ho => ?_) hy)
      · exact (Only.bind (p := fun _ => true) (x := handleIncr attr.inode) (Only.eff rfl) fun _ => Only.pure _).sure
      · rw [List.mem_singleton.1 ho]
        rfl
  | openFile i f => exact RucksFs.alone_reply (fun _ => rfl) (openFile_alone (fun _ h => by cases h) hy)
  | release i => exact RucksFs.alone_reply (fun _ => rfl) (release_alone hy)
  | forceCompactInode i =>
      exact RucksFs.alone_reply (fun _ => rfl)
        (wpE_mono (fun _ _ h => h) (fun _ h => h.verdict) (forceCompactInode_alone (fun _ h => by cases h) hy))

theorem foldl_noteLate (c : Call) : ∀ (es : List ((e : Eff) × e.Res)) (late : Bool),
    es.foldl (fun late ev => c.noteLate late ev.1 ev.2) late = false ↔
      late = false ∧ ∀ ev ∈ es, c.lateFailure ev.1 ev.2 = false
  | [], late => by simp
  | ev :: es, late => by
      rw [List.foldl_cons, foldl_noteLate c es, Call.noteLate, Bool.or_eq_false_iff, List.forall_mem_cons, and_assoc]

end

/-! ## Runs with failures at given effects -/

/-- Serve a program; the effects marked in `fails` fail with `x`. -/
def serveFailing {α : Type} (cfg : Config) (x : FsError) :
    Prog Eff Eff.Res α → List Bool → Local → Server → Option (List ((e : Eff) × e.Res) × α × Local × Server)
  | .ret a, _, l, s => some ([], a, l, s)
  | .call e k, true :: fails, l, s =>
      (e.failure x).bind fun r =>
        (serveFailing cfg x (k r) fails (l.afterFailure e) s).map fun y => (⟨e, r⟩ :: y.1, y.2)
  | .call e k, fails, l, s =>
      (serveFailing cfg x (k (handle cfg e (l.tx, s)).1) fails.tail (l.after cfg s e)
        (handle cfg e (l.tx, s)).2.2).map fun y => (⟨e, (handle cfg e (l.tx, s)).1⟩ :: y.1, y.2)

theorem serveFailing_runs {α : Type} {cfg : Config} {x : FsError} (p : Prog Eff Eff.Res α) (fails : List Bool)
    (l : Local) (s : Server) : ∀ {es : List ((e : Eff) × e.Res)} {a : α} {l' : Local} {s' : Server},
      serveFailing cfg x p fails l s = some (es, a, l', s') → Runs (actsAlone cfg) p (l, s) es a (l', s') := by
  fun_induction serveFailing cfg x p fails l s with
  | case1 a fails l s =>
      intro es b l' s' h
      cases h
      exact .ret _ _
  | case2 e k fails l s ih =>
      intro es a l' s' h
      obtain ⟨r, hr, hrest⟩ := Option.bind_eq_some_iff.1 h
      obtain ⟨⟨es', z⟩, hz, heq⟩ := Option.map_eq_some_iff.1 hrest
      cases heq
      have hfail : actsAlone cfg e (l, s) r (l.afterFailure e, s) := Acts.failed hr
      exact .call hfail (ih r hz)
  | case3 e k fails l s _ ih =>
      intro es a l' s' h
      obtain ⟨⟨es', z⟩, hz, heq⟩ := Option.map_eq_some_iff.1 h
      cases heq
      have hdone : actsAlone cfg e (l, s) (handle cfg e (l.tx, s)).1
          (l.after cfg s e, (handle cfg e (l.tx, s)).2.2) := Acts.done (by unfold blocked; split <;> rfl)
      exact .call hdone (ih hz)

theorem servedAlone_of_serveFailing {cfg : Config} {x : FsError} {c : Call} {s : Server} (fails : List Bool)
    {es : List ((e : Eff) × e.Res)} {r : Reply} {l' : Local} {s' : Server}
    (h : serveFailing cfg x (c.body cfg) fails {} s = some (es, r, l', s')) : ServedAlone cfg c s es r s' :=
  ⟨l', serveFailing_runs _ _ _ _ h⟩

/-! ## The result -/

section

variable {cfg : Config} {c : Call} {s : Server}

/-- **What a failed call leaves behind.**  Whatever storage calls fail, a call that returns an error has left
the stored records and the handle tables as they were, except exactly when the failure was one of the late
ones. -/
theorem failed_call_unchanged_iff {es : List ((e : Eff) × e.Res)} {r : Reply} {s' : Server}
    (h : ServedAlone cfg c s es r s') (hr : r.isError = true) :
    s.SameTables s' ↔ ∀ ev ∈ es, c.lateFailure ev.1 ev.2 = false := by
  obtain ⟨l, hruns⟩ := h
  have hverdict := hruns.wp (c.alone_verdict cfg s ⟨.refl s, rfl⟩) hr
  rw [Verdict, foldl_noteLate] at hverdict
  simpa using hverdict

/-- A file is created and removed again, but the removal cannot be committed. -/
theorem failed_call_unchanged_unlink :
    let s := ((Server.fresh {}).exec {} (.create ROOT_INODE [97] 0o644 0 0)).2
    ∃ es r s', ServedAlone {} (.unlink ROOT_INODE [97]) s es r s' ∧ r.isError = true ∧ s.SameTables s' := by
  intro s
  let fails := List.replicate 12 false ++ [true]
  have hrun : ((serveFailing {} (.io "disk") (Call.body {} (.unlink ROOT_INODE [97])) fails {} s).map fun y =>
      y.2.1.isError && y.1.all fun ev => !(Call.unlink ROOT_INODE [97]).lateFailure ev.1 ev.2) = some true := by
    decide +kernel
  obtain ⟨⟨es, r, l, s'⟩, hy, hcheck⟩ := Option.map_eq_some_iff.1 hrun
  rw [Bool.and_eq_true, List.all_eq_true] at hcheck
  have hserved := servedAlone_of_serveFailing fails hy
  refine ⟨es, r, s', hserved, hcheck.1, (failed_call_unchanged_iff hserved hcheck.1).2 fun ev hev => ?_⟩
  simpa using hcheck.2 ev hev

end

/-- An `open` whose read of the data location fails: the caller has no handle, and the server counts one. -/
theorem failed_open_counted :
    let s := ((Server.fresh {}).exec {} (.create ROOT_INODE [97] 0o644 0 0)).2
    ∃ es r s', ServedAlone {} (.openFile 2 0) s es r s' ∧ r.isError = true ∧ ¬s.SameTables s' := by
  intro s
  let fails := [false, false, true]
  have hrun : ((serveFailing {} (.io "disk") (Call.body {} (.openFile 2 0)) fails {} s).map fun y =>
      y.2.1.isError && decide (y.2.2.2.openHandles 2 ≠ s.openHandles 2)) = some true := by
    decide +kernel
  obtain ⟨⟨es, r, l, s'⟩, hy, hcheck⟩ := Option.map_eq_some_iff.1 hrun
  rw [Bool.and_eq_true, decide_eq_true_iff] at hcheck
  refine ⟨es, r, s', servedAlone_of_serveFailing fails hy, hcheck.1, fun hs => hcheck.2 ?_⟩
  rw [hs.openHandles]

end RucksFs
