import RucksFs.Server.Ops

/-!
# The shape of an operation

Every operation that writes prepares one transaction, commits it, and then brings the in-memory tables
up to date.  An attempt that is not committed is dropped, and after a conflict the preparation starts
again.

* `Only` — every effect of a part of an operation is of one kind.
* `Transacts` — the shape itself: what preparing and failing to commit keeps (`I`) holds whenever the
  operation fails, and what a commit establishes and settling keeps (`J`) holds whenever it succeeds.
-/

set_option autoImplicit false

namespace RucksFs

open Prog Op

/-! ## Batches and retries -/

section

variable {L α : Type} {C : Contract Eff Eff.Res L} {E : L → Prop} {Q : α → L → Prop} {body : Op α}

theorem wpE_withBatch_of {l : L} (hb : C.pre .beginWrite l)
    (h : ∀ l₁, C.post .beginWrite l () l₁ →
      wpE C (fun l₂ => C.pre .dropBatch l₂ ∧ ∀ l₃, C.post .dropBatch l₂ () l₃ → E l₃) body
        (fun a l₂ => C.pre .dropBatch l₂ ∧ ∀ l₃, C.post .dropBatch l₂ () l₃ → Q a l₃) l₁) :
    wpE C E (withBatch body) Q l := by
  unfold withBatch
  show wp _ (perform Eff.beginWrite >>= _) _ _
  rw [wp_bind]
  refine ⟨hb, fun _ l₁ h₁ => ?_⟩
  show wp _ (body.run >>= _) _ _
  rw [wp_bind]
  refine wp_mono (fun r l₂ hr => ?_) (h l₁ h₁)
  cases r with
  | ok a => exact ⟨hr.1, fun _ => hr.2⟩
  | error e => exact ⟨hr.1, fun _ => hr.2⟩

/-- What a failed attempt leaves, `E`, is enough to try again. -/
theorem wpE_retry_of {I : L → Prop} (hb : ∀ l, I l → C.pre .beginWrite l) (hE : ∀ l, E l → I l)
    (h : ∀ l, I l → ∀ l₁, C.post .beginWrite l () l₁ →
      wpE C (fun l₂ => C.pre .dropBatch l₂ ∧ ∀ l₃, C.post .dropBatch l₂ () l₃ → E l₃) body
        (fun a l₂ => C.pre .dropBatch l₂ ∧ ∀ l₃, C.post .dropBatch l₂ () l₃ → Q a l₃) l₁) :
    ∀ (n : Nat) (l : L), I l → wpE C E (retry body n) Q l
  | 0, l, hI => wpE_withBatch_of (hb l hI) (h l hI)
  | n + 1, l, hI => by
    unfold retry
    show wp _ ((withBatch body).run >>= _) _ _
    rw [wp_bind]
    refine wp_mono (fun r l' hr => ?_) (wpE_withBatch_of (E := E) (hb l hI) (h l hI))
    cases r with
    | ok a => exact hr
    | error e =>
        have hE' : E l' := hr
        cases e with
        | transactionConflict => exact wpE_retry_of hb hE h n l' (hE l' hE')
        | _ => exact hE'

/-- A batch may always be dropped. -/
theorem wpE_withBatch {l : L} (hb : C.pre .beginWrite l) (hd : ∀ l, C.pre .dropBatch l)
    (h : ∀ l₁, C.post .beginWrite l () l₁ →
      wpE C (fun l₂ => ∀ l₃, C.post .dropBatch l₂ () l₃ → E l₃) body
        (fun a l₂ => ∀ l₃, C.post .dropBatch l₂ () l₃ → Q a l₃) l₁) :
    wpE C E (withBatch body) Q l :=
  wpE_withBatch_of hb fun l₁ h₁ =>
    wpE_mono (fun _ l₂ hq => ⟨hd l₂, hq⟩) (fun l₂ hq => ⟨hd l₂, hq⟩) (h l₁ h₁)

theorem wpE_retry {I : L → Prop} (hb : ∀ l, I l → C.pre .beginWrite l) (hd : ∀ l, C.pre .dropBatch l)
    (hE : ∀ l, E l → I l)
    (h : ∀ l, I l → ∀ l₁, C.post .beginWrite l () l₁ →
      wpE C (fun l₂ => ∀ l₃, C.post .dropBatch l₂ () l₃ → E l₃) body
        (fun a l₂ => ∀ l₃, C.post .dropBatch l₂ () l₃ → Q a l₃) l₁) (n : Nat) (l : L) (hI : I l) :
    wpE C E (retry body n) Q l :=
  wpE_retry_of hb hE (fun l hI l₁ h₁ =>
    wpE_mono (fun _ l₂ hq => ⟨hd l₂, hq⟩) (fun l₂ hq => ⟨hd l₂, hq⟩) (h l hI l₁ h₁)) n l hI

end

/-! ## Parts of an operation -/

/-- Before the commit: locks, reads, pushes, numbers and the clock. -/
def Eff.prepares : Eff → Bool
  | .beginWrite | .getForUpdateDirEntry .. | .getForUpdateInode .. | .isDirEmpty .. | .push .. | .dropBatch
  | .nowSecs | .alloc | .nextSeq .. | .handleCount .. => true
  | _ => false

/-- After the commit: the stored counter, the deltas of a removed inode, the cache and the tables. -/
def Eff.settles : Eff → Bool
  | .dropBatch | .allocCurrent | .putNextInode .. | .clearDeltas .. | .cachePut .. | .cacheApplyDeltas ..
  | .cacheInvalidate .. | .markDirty .. | .pendingInsert .. => true
  | _ => false

/-- Every effect that `x` can perform satisfies `p`; `fails` says whether `x` can fail. -/
def Only {α : Type} (p : Eff → Bool) (fails : Prop) (x : Op α) : Prop :=
  wpE ⟨fun e _ => p e = true, fun _ _ _ _ => True⟩ (fun _ => fails) x (fun _ _ => True) ()

/-- `I` is kept by what comes before a commit, `J` established by the commit and kept afterwards. -/
structure Respects {L : Type} (C : Contract Eff Eff.Res L) (I J : L → Prop) : Prop where
  pre : ∀ e l, C.pre e l
  prepare : ∀ e l r l', e.prepares = true → I l → C.post e l r l' → I l'
  abort : ∀ l x l', I l → C.post .commit l (.error x) l' → I l'
  commit : ∀ l l', I l → C.post .commit l (.ok ()) l' → J l'
  settle : ∀ e l r l', e.settles = true → J l → C.post e l r l' → J l'

/-- One commit, which comes last of what can fail. -/
def Transacts {α : Type} (x : Op α) : Prop :=
  ∀ ⦃L : Type⦄ ⦃C : Contract Eff Eff.Res L⦄ ⦃I J : L → Prop⦄, Respects C I J →
    ∀ l, I l → wpE C I x (fun _ => J) l

section

variable {α β : Type} {p : Eff → Bool} {fails : Prop}

namespace Only

variable {x : Op α} {L : Type} {C : Contract Eff Eff.Res L} {I : L → Prop} {i : Inode}

/-- An invariant of the effects is one of the program. -/
theorem wp_invariant {Q : α → Unit → Prop} (hpre : ∀ e l, p e = true → I l → C.pre e l)
    (hstep : ∀ e l r l', p e = true → I l → C.post e l r l' → I l') :
    ∀ (x : Prog Eff Eff.Res α),
      wp ⟨fun e _ => p e = true, fun _ _ _ _ => True⟩ x Q () → ∀ l, I l → wp C x (fun a l' => Q a () ∧ I l') l
  | .ret _, h, _, hl => ⟨h, hl⟩
  | .call e k, h, l, hl =>
      ⟨hpre e l h.1 hl,
        fun r l' hp => wp_invariant hpre hstep (k r) (h.2 r () trivial) l' (hstep e l r l' h.1 hl hp)⟩

/-- The effects may rely on the invariant. -/
theorem kept (h : Only p fails x) (hpre : ∀ e l, p e = true → I l → C.pre e l)
    (hstep : ∀ e l r l', p e = true → I l → C.post e l r l' → I l') (l : L) (hl : I l) :
    wpE C (fun l' => fails ∧ I l') x (fun _ => I) l := by
  refine wp_mono (fun r l' hr => ?_) (wp_invariant hpre hstep x.run h l hl)
  cases r with
  | ok a => exact hr.2
  | error e => exact hr

theorem invariant (h : Only p fails x) (hpre : ∀ e l, C.pre e l)
    (hstep : ∀ e l r l', p e = true → I l → C.post e l r l' → I l') (l : L) (hl : I l) :
    wpE C (fun l' => fails ∧ I l') x (fun _ => I) l :=
  h.kept (fun e l _ _ => hpre e l) hstep l hl

/-- Effects of a smaller kind. -/
theorem mono {p' : Eff → Bool} (h : Only p fails x) (hp : ∀ e, p e = true → p' e = true) : Only p' fails x := by
  refine wpE_mono (fun _ _ _ => trivial) (fun _ he => he.1) (h.kept (I := fun _ => True) ?_ ?_ () trivial)
  · exact fun e _ he _ => hp e he
  · exact fun _ _ _ _ _ _ _ => trivial

theorem pure (a : α) : Only p fails (pure a : Op α) := trivial

theorem throw (e : FsError) : Only p True (throw e : Op α) := trivial

theorem bind {f : α → Op β} (hx : Only p fails x) (hf : ∀ a, Only p fails (f a)) : Only p fails (x >>= f) := by
  unfold Only
  rw [wpE_bind]
  exact wpE_mono (fun a _ _ => hf a) (fun _ h => h) hx

theorem ite {q : Prop} [Decidable q] {y : Op α} (hx : q → Only p fails x) (hy : ¬q → Only p fails y) :
    Only p fails (if q then x else y) := by
  split
  · exact hx ‹_›
  · exact hy ‹_›

/-- `if q then throw e` in front of a part of an operation. -/
theorem guard {q : Prop} [Decidable q] {e : FsError} {f : Unit → Op α} (hf : ¬q → Only p True (f ())) :
    Only p True (if q then MonadExcept.throw e >>= f else f ()) :=
  wpE_guard (fun _ => trivial) hf

theorem eff {e : Eff} (he : p e = true) : Only p fails (eff e) := by
  unfold Only Op.eff
  rw [wpE_lift]
  exact ⟨he, fun _ _ _ => trivial⟩

/-- A call on the stores that can fail. -/
theorem of_perform {e : Eff} {k : e.Res → FsResult α} (hx : x.run = .call e fun r => .ret (k r)) (he : p e = true) :
    Only p True x := by
  unfold Only wpE
  rw [hx]
  refine ⟨he, fun r _ _ => ?_⟩
  rw [wp_ret]
  cases k r <;> exact trivial

theorem orNotFound (o : Option α) : Only p True (orNotFound o) := by
  cases o with
  | none => exact throw _
  | some a => exact pure a

theorem forM (f : β → Op Unit) : ∀ bs : List β, (∀ b ∈ bs, Only p fails (f b)) → Only p fails (ForM.forM bs f)
  | [], _ => pure ()
  | b :: bs, hf =>
      (hf b List.mem_cons_self).bind fun _ => forM f bs fun b' hb => hf b' (List.mem_cons_of_mem b hb)

theorem validateName (n : Name) : Only p True (validateName n) :=
  ite (fun _ => throw _) fun _ => pure ()

theorem pushDeltas (hseq : ∀ d, p (.nextSeq i d) = true) (hpush : ∀ q d, p (.push (.putDelta i q d)) = true) :
    ∀ ds : List DeltaOp, Only p fails (pushDeltas i ds)
  | [] => pure ()
  | d :: ds =>
      bind (x := nextSeq i d) (eff (hseq d)) fun _ =>
        bind (x := push _) (eff (hpush _ d)) fun _ => pushDeltas hseq hpush ds

theorem batchParentDeltas (cfg : Config) (hseq : ∀ d, p (.nextSeq i d) = true)
    (hpush : ∀ q d, p (.push (.putDelta i q d)) = true) (hget : p (.getForUpdateInode i) = true)
    (hput : ∀ iv, p (.push (.putInode i iv)) = true) (ds : List DeltaOp) :
    Only p fails (batchParentDeltas cfg i ds) := by
  unfold RucksFs.batchParentDeltas
  split
  · exact pushDeltas hseq hpush ds
  · refine bind (eff hget) fun r => ?_
    split
    · exact eff (hput _)
    · exact pure ()

theorem loadInode (hcache : p (.cacheGet i) = true) (hget : p (.getInode i) = true) (hscan : p (.scanDeltas i) = true)
    (hput : ∀ v, p (.cachePut i v) = true) : Only p True (loadInode i) := by
  refine bind (x := cacheGet i) (eff hcache) fun cached => ?_
  cases cached with
  | some v => exact pure v
  | none =>
      refine bind (of_perform (e := .getInode i) (k := fun r => r) rfl hget) fun o => ?_
      refine (orNotFound o).bind fun base => ?_
      refine bind (of_perform (e := .scanDeltas i) (k := fun r => r) rfl hscan) fun ds => ?_
      exact bind (x := Op.cachePut i _) (eff (hput _)) fun _ => pure _

theorem withBatch {body : Op α} (hb : p .beginWrite = true) (hd : p .dropBatch = true) (h : Only p fails body) :
    Only p fails (withBatch body) :=
  wpE_withBatch hb (fun _ => hd) fun _ _ => wpE_mono (fun _ _ _ _ _ => trivial) (fun _ hf _ _ => hf) h

theorem executeWithRetry {body : Op α} (hb : p .beginWrite = true) (hd : p .dropBatch = true) (h : Only p True body) :
    Only p True (executeWithRetry body) :=
  wpE_retry (I := fun _ => True) (fun _ _ => hb) (fun _ => hd) (fun _ _ => trivial)
    (fun _ _ _ _ => wpE_mono (fun _ _ _ _ _ => trivial) (fun _ _ _ _ => trivial) h) _ _ trivial

/-! ### Parts before the commit -/

section

variable {fails : Prop}

theorem getForUpdateDirEntry (i : Inode) (n : Name) : Only Eff.prepares True (getForUpdateDirEntry i n) :=
  of_perform (e := .getForUpdateDirEntry i n) (k := fun r => r) rfl rfl

theorem getForUpdateInode (i : Inode) : Only Eff.prepares True (getForUpdateInode i) :=
  of_perform (e := .getForUpdateInode i) (k := fun r => r) rfl rfl

theorem isDirEmpty (d : Inode) : Only Eff.prepares True (isDirEmpty d) :=
  of_perform (e := .isDirEmpty d) (k := fun r => r) rfl rfl

theorem push (op : BatchOp) : Only Eff.prepares fails (push op) := eff rfl

theorem nowSecs : Only Eff.prepares fails nowSecs := eff rfl

theorem parentDeltas (cfg : Config) (i : Inode) (ds : List DeltaOp) :
    Only Eff.prepares fails (RucksFs.batchParentDeltas cfg i ds) :=
  batchParentDeltas cfg (fun _ => rfl) (fun _ _ => rfl) rfl (fun _ => rfl) ds

theorem lockInodes : ∀ is : List Inode, Only Eff.prepares True (lockInodes is)
  | [] => pure []
  | i :: is => by
      refine (getForUpdateInode i).bind fun raw => (lockInodes is).bind fun vals => ?_
      cases raw <;> exact pure _

theorem renameTarget (srcIsDir : Bool) (ts : Nat) (values : List (Inode × InodeValue))
    (dst : Option DirValue) : Only Eff.prepares True (renameTarget srcIsDir ts values dst) := by
  cases dst with
  | none => exact pure _
  | some d =>
      refine guard (f := fun _ => _) fun _ => guard fun _ => ite (fun _ => ?_) fun _ => ?_
      · exact (isDirEmpty _).bind fun b => guard fun _ => pure _
      · refine (orNotFound _).bind fun iv => ite (fun _ => ?_) fun _ => pure _
        exact (push _).bind fun _ => pure _

theorem removeDst (np : Inode) (nn : Name) (del : Option Inode) (dst : Option DirValue) :
    Only Eff.prepares fails (removeDst np nn del dst) := by
  cases dst with
  | none => exact pure _
  | some d =>
      refine (push _).bind fun _ => ite (fun _ => ?_) fun _ => pure _
      exact (push _).bind fun _ => push _

theorem unlinkChild (i : Inode) (iv : InodeValue) : Only Eff.prepares fails (unlinkChild i iv) := by
  refine ite (fun _ => ?_) fun _ => ?_
  · refine bind (x := handleCount i) (eff rfl) fun count => ite (fun _ => ?_) fun _ => ?_
    · exact nowSecs.bind fun _ => (push _).bind fun _ => pure _
    · exact (push _).bind fun _ => (push _).bind fun _ => pure _
  · exact nowSecs.bind fun _ => (push _).bind fun _ => pure _

/-! ### Parts after it -/

theorem cachePut (i : Inode) (v : InodeValue) : Only Eff.settles fails (cachePut i v) := eff rfl

theorem cacheInvalidate (i : Inode) : Only Eff.settles fails (cacheInvalidate i) := eff rfl

theorem cacheApplyDeltas (i : Inode) (ds : List DeltaOp) : Only Eff.settles fails (cacheApplyDeltas i ds) :=
  eff rfl

theorem markDirty (i : Inode) : Only Eff.settles fails (markDirty i) := eff rfl

theorem clearDeltas (i : Inode) : Only Eff.settles fails (clearDeltas i) :=
  bind (x := Op.eff (.clearDeltas i)) (eff rfl) fun _ => pure ()

/-- `cache.apply_deltas` and `mark_dirty`. -/
theorem touch (i : Inode) (ds : List DeltaOp) :
    Only Eff.settles fails (do Op.cacheApplyDeltas i ds; Op.markDirty i) :=
  (cacheApplyDeltas i ds).bind fun _ => markDirty i

theorem forgetDst (dst : Option DirValue) : Only Eff.settles fails (forgetDst dst) := by
  cases dst with
  | none => exact pure _
  | some d => exact (clearDeltas _).bind fun _ => cacheInvalidate _

theorem afterCreate (i : Inode) (iv : InodeValue) (ds : List DeltaOp) :
    Only Eff.settles True (afterCreate i iv ds) := by
  have hput : ∀ val, Only Eff.settles True (putNextInode val) := fun val =>
    of_perform (e := .putNextInode val) (k := fun r => r) rfl rfl
  have hpersist : Only Eff.settles True maybePersist :=
    bind (x := allocCurrent) (eff rfl) fun val => ite (fun _ => hput val) fun _ => pure ()
  refine hpersist.bind fun _ => (cachePut _ _).bind fun _ => (cacheApplyDeltas _ _).bind fun _ => ?_
  exact (markDirty _).bind fun _ => pure _

end

end Only

/-! ## Transactions -/

namespace Transacts

/-- `if q then throw e` in front of a transaction. -/
theorem guard {q : Prop} [Decidable q] {e : FsError} {f : Unit → Op α} (hf : ¬q → Transacts (f ())) :
    Transacts (if q then MonadExcept.throw e >>= f else f ()) :=
  fun _ _ _ _ hR _ hl => wpE_guard (fun _ => hl) fun hq => hf hq hR _ hl

theorem prepare {x : Op α} {f : α → Op β} (hx : Only Eff.prepares True x) (hf : ∀ a, Transacts (f a)) :
    Transacts (x >>= f) := by
  intro L C I J hR l hl
  rw [wpE_bind]
  exact wpE_mono (fun a l' h => hf a hR l' h) (fun _ h => h.2) (hx.invariant hR.pre hR.prepare l hl)

/-- What follows a commit does not fail. -/
theorem settle {x : Op α} {f : α → Op β} (hx : Transacts x) (hf : ∀ a, Only Eff.settles False (f a)) :
    Transacts (x >>= f) := by
  intro L C I J hR l hl
  rw [wpE_bind]
  refine wpE_mono (fun a l' h => ?_) (fun _ h => h) (hx hR l hl)
  exact wpE_mono (fun _ _ h => h) (fun _ h => h.1.elim) ((hf a).invariant hR.pre hR.settle l' h)

theorem commit : Transacts commit := by
  intro L C I J hR l hl
  refine ⟨hR.pre _ _, fun r l' hp => ?_⟩
  cases r with
  | ok _ => exact hR.commit l l' hl hp
  | error x => exact hR.abort l x l' hl hp

/-- Only attempts that were not committed are repeated. -/
theorem executeWithRetry {body : Op α} (h : Transacts body) : Transacts (executeWithRetry body) := by
  intro L C I J hR l hl
  refine wpE_retry (I := I) (fun l _ => hR.pre _ l) (fun l => hR.pre _ l) (fun _ hI => hI)
    (fun l hI l₁ h₁ => ?_) _ l hl
  refine wpE_mono (fun a l₂ hJ l₃ h₃ => ?_) (fun l₂ hI₂ l₃ h₃ => ?_) (h hR l₁ (hR.prepare _ l _ l₁ rfl hI h₁))
  · exact hR.settle .dropBatch l₂ _ l₃ rfl hJ h₃
  · exact hR.prepare .dropBatch l₂ _ l₃ rfl hI₂ h₃

theorem createTxn (cfg : Config) (i : Inode) (n : Name) (size mode nlink uid gid : Nat)
    (extra : Inode → List BatchOp) (deltas : Nat → List DeltaOp) :
    Transacts (createTxn cfg i n size mode nlink uid gid extra deltas) := by
  refine executeWithRetry ?_
  refine prepare (Only.getForUpdateDirEntry i n) fun o => guard fun _ => ?_
  refine prepare (Only.eff rfl) fun i => prepare Only.nowSecs fun ts => ?_
  refine prepare (Only.push _) fun _ => prepare (Only.push _) fun _ => ?_
  refine prepare (Only.forM _ _ fun op _ => Only.push op) fun _ => ?_
  refine prepare (Only.parentDeltas cfg _ _) fun _ => ?_
  exact commit.settle fun _ => Only.pure _

theorem setattr (i : Inode) (req : SetAttrRequest) : Transacts (setattr i req) := by
  refine settle (executeWithRetry ?_) fun _ => Only.pure _
  refine prepare (Only.getForUpdateInode i) fun o => prepare (Only.orNotFound o) fun iv => ?_
  refine prepare Only.nowSecs fun ts => prepare (Only.push _) fun _ => ?_
  exact commit.settle fun _ => (Only.cachePut _ _).bind fun _ => Only.pure _

theorem reportWrite (i : Inode) (newSize mtime : Nat) : Transacts (reportWrite i newSize mtime) := by
  refine executeWithRetry ?_
  refine prepare (Only.getForUpdateInode i) fun o => prepare (Only.orNotFound o) fun iv => ?_
  exact prepare (Only.push _) fun _ => commit.settle fun _ => Only.cachePut _ _

theorem link (cfg : Config) (i : Inode) (n : Name) (t : Inode) : Transacts (link cfg i n t) := by
  refine prepare (Only.validateName n) fun _ => settle (executeWithRetry ?_) fun a => ?_
  · refine prepare (Only.getForUpdateInode t) fun o => prepare (Only.orNotFound o) fun tv => ?_
    refine guard fun _ => prepare (Only.getForUpdateDirEntry i n) fun d => guard fun _ => ?_
    refine prepare (Only.getForUpdateInode i) fun o => prepare (Only.orNotFound o) fun pv => ?_
    refine guard fun _ => prepare Only.nowSecs fun ts => prepare (Only.push _) fun _ => ?_
    refine prepare (Only.push _) fun _ => prepare Only.nowSecs fun ts' => ?_
    refine prepare (Only.parentDeltas cfg i _) fun _ => commit.settle fun _ => ?_
    exact (Only.cachePut _ _).bind fun _ => Only.pure _
  · obtain ⟨tv, ts⟩ := a
    exact (Only.cacheApplyDeltas _ _).bind fun _ => (Only.markDirty _).bind fun _ => Only.pure _

theorem unlink (cfg : Config) (i : Inode) (n : Name) : Transacts (unlink cfg i n) := by
  refine prepare (Only.validateName n) fun _ => settle (executeWithRetry ?_) fun a => ?_
  · refine prepare (Only.getForUpdateDirEntry i n) fun o => prepare (Only.orNotFound o) fun v => ?_
    refine guard fun _ => prepare (Only.getForUpdateInode _) fun o => ?_
    refine prepare (Only.orNotFound o) fun iv => prepare (Only.push _) fun _ => ?_
    refine prepare (Only.unlinkChild _ _) fun res => prepare Only.nowSecs fun ts => ?_
    refine prepare (Only.parentDeltas cfg i _) fun _ => commit.settle fun _ => ?_
    obtain ⟨iv', o'⟩ := res
    match o' with
    | some (j, false) =>
        exact (Only.clearDeltas j).bind fun _ => (Only.cacheInvalidate j).bind fun _ => Only.pure _
    | some (j, true) => exact (Only.cachePut _ _).bind fun _ => Only.pure _
    | none => exact (Only.cachePut _ _).bind fun _ => Only.pure _
  · obtain ⟨o, ts⟩ := a
    have htail : ∀ purged : List Inode, Only Eff.settles False
        (do cacheApplyDeltas i [.setMtime ts, .setCtime ts]; markDirty i; return purged) :=
      fun _ => (Only.cacheApplyDeltas _ _).bind fun _ => (Only.markDirty _).bind fun _ => Only.pure _
    match o with
    | some (j, true) =>
        have hpend : Only Eff.settles False (pendingInsert j) := Only.eff rfl
        exact hpend.bind fun _ => (Only.pure _).bind htail
    | some (j, false) => exact (Only.pure _).bind htail
    | none => exact (Only.pure _).bind htail

theorem rmdir (cfg : Config) (i : Inode) (n : Name) : Transacts (rmdir cfg i n) := by
  refine prepare (Only.validateName n) fun _ => settle (executeWithRetry ?_) fun ts => Only.touch _ _
  refine prepare (Only.getForUpdateDirEntry i n) fun o => prepare (Only.orNotFound o) fun v => ?_
  refine guard fun _ => prepare (Only.getForUpdateInode _) fun o => ?_
  refine prepare (Only.orNotFound o) fun iv => prepare (Only.isDirEmpty _) fun b => guard fun _ => ?_
  refine prepare (Only.push _) fun _ => prepare (Only.push _) fun _ => ?_
  refine prepare Only.nowSecs fun ts => prepare (Only.parentDeltas cfg i _) fun _ => ?_
  refine commit.settle fun _ => ?_
  exact (Only.clearDeltas _).bind fun _ => (Only.cacheInvalidate _).bind fun _ => Only.pure _

theorem rename (cfg : Config) (i : Inode) (n : Name) (ni : Inode) (nn : Name) :
    Transacts (rename cfg i n ni nn) := by
  refine prepare (Only.validateName n) fun _ => prepare (Only.validateName nn) fun _ => ?_
  refine settle (executeWithRetry ?_) fun a => ?_
  · refine prepare (Only.getForUpdateDirEntry i n) fun o => prepare (Only.orNotFound o) fun v => ?_
    refine prepare (Only.getForUpdateDirEntry ni nn) fun d => ?_
    refine prepare (Only.lockInodes _) fun vals => prepare (Only.orNotFound _) fun srcIv => ?_
    refine prepare Only.nowSecs fun ts => prepare (Only.renameTarget _ _ _ _) fun res => ?_
    obtain ⟨del, wasDir⟩ := res
    refine prepare (Only.removeDst _ _ _ _) fun _ => prepare (Only.push _) fun _ => ?_
    refine prepare (Only.push _) fun _ => prepare (Only.push _) fun _ => ?_
    refine prepare (Only.forM _ _ fun d _ => Only.parentDeltas cfg d.1 d.2) fun _ => ?_
    refine commit.settle fun _ => (Only.forgetDst _).bind fun _ => ?_
    exact (Only.cachePut _ _).bind fun _ => Only.pure _
  · obtain ⟨del, deltas⟩ := a
    exact (Only.forM _ _ fun d _ => Only.touch d.1 d.2).bind fun _ => Only.pure _

/-- The transaction of `open` with `O_TRUNC`. -/
theorem truncateTxn (i : Inode) : Transacts (Op.executeWithRetry do
    let raw ← Op.orNotFound (← Op.getForUpdateInode i)
    let ts ← Op.nowSecs
    let iv := { raw with size := 0, mtime := ts, ctime := ts }
    Op.push (.putInode i iv)
    Op.commit
    Op.cachePut i iv) := by
  refine executeWithRetry ?_
  refine prepare (Only.getForUpdateInode i) fun o => prepare (Only.orNotFound o) fun iv => ?_
  refine prepare Only.nowSecs fun ts => prepare (Only.push _) fun _ => ?_
  exact commit.settle fun _ => Only.cachePut _ _

end Transacts

end

end RucksFs
