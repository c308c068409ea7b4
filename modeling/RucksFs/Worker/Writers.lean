import RucksFs.Server.Commits
import RucksFs.Worker.Rounds

/-!
# Calls mark what they commit deltas of

* `MarkWatch` — the inodes with a delta in the batch, and those with a committed delta that are not marked since.
* `stores_parents` — every call stores deltas of its parents only.
* `Call.pays` — a call that returns `Ok` has marked them.  Only a creation can fail in between, when the
  allocator's counter cannot be stored.
-/

set_option autoImplicit false

namespace RucksFs

open Prog Op

structure MarkWatch where
  puts : List Inode := []
  owes : List Inode := []

namespace MarkWatch

def upd (g : MarkWatch) : (e : Eff) → e.Res → MarkWatch
  | .beginWrite, _ | .dropBatch, _ => { g with puts := [] }
  | .push (.putDelta i _ _), _ => { g with puts := g.puts ++ [i] }
  | .commit, .ok _ => ⟨[], g.owes ++ g.puts⟩
  | .commit, .error _ => { g with puts := [] }
  | .markDirty i, _ => { g with owes := g.owes.filter (· ≠ i) }
  | _, _ => g

/-- Everything is of inodes in `ps`. -/
def Within (ps : List Inode) (g : MarkWatch) : Prop := (∀ i ∈ g.puts, i ∈ ps) ∧ ∀ i ∈ g.owes, i ∈ ps

end MarkWatch

/-- A delta that is pushed is of an inode in `ps`. -/
def Eff.storesIn (ps : List Inode) : Eff → Bool
  | .push (.putDelta i _ _) => decide (i ∈ ps)
  | _ => true

theorem MarkWatch.Within.step {ps : List Inode} (e : Eff) (g : MarkWatch) (r : e.Res) (g' : MarkWatch)
    (he : e.storesIn ps = true) (h : g.Within ps) (hg : g' = g.upd e r) : g'.Within ps := by
  subst hg
  obtain ⟨hputs, howes⟩ := h
  cases e with
  | beginWrite => exact ⟨nofun, howes⟩
  | dropBatch => exact ⟨nofun, howes⟩
  | push op =>
      cases op with
      | putDelta i q d =>
          refine ⟨fun j hj => ?_, howes⟩
          rcases List.mem_append.1 hj with hj | hj
          · exact hputs j hj
          · rw [List.mem_singleton.1 hj]
            exact of_decide_eq_true he
      | _ => exact ⟨hputs, howes⟩
  | commit =>
      cases r with
      | ok _ => exact ⟨nofun, fun j hj => (List.mem_append.1 hj).elim (howes j) (hputs j)⟩
      | error x => exact ⟨nofun, howes⟩
  | markDirty i => exact ⟨hputs, fun j hj => howes j (List.mem_of_mem_filter hj)⟩
  | _ => exact ⟨hputs, howes⟩

/-! ## Whose deltas a call stores -/

/-- Deltas of inodes in `ps` only. -/
def Stores (ps : List Inode) {α : Type} (x : Op α) : Prop := Only (Eff.storesIn ps) True x

namespace Stores

variable {α β : Type} {ps : List Inode} {p : Inode}

theorem effect {e : Eff} (he : e.storesIn ps = true) : Stores ps (eff e) := Only.eff he

theorem fallible {x : Op α} {e : Eff} {k : e.Res → FsResult α} (hx : x.run = .call e fun r => .ret (k r))
    (he : e.storesIn ps = true) : Stores ps x := Only.of_perform hx he

theorem dirEntry (n : Name) : Stores ps (getForUpdateDirEntry p n) :=
  fallible (e := .getForUpdateDirEntry p n) (k := fun r => r) rfl rfl

theorem inode : Stores ps (getForUpdateInode p) := fallible (e := .getForUpdateInode p) (k := fun r => r) rfl rfl

theorem emptyCheck : Stores ps (isDirEmpty p) := fallible (e := .isDirEmpty p) (k := fun r => r) rfl rfl

theorem committing : Stores ps commit := fallible (e := .commit) (k := fun r => r) rfl rfl

theorem parentDeltas (cfg : Config) (hp : p ∈ ps) (ds : List DeltaOp) : Stores ps (batchParentDeltas cfg p ds) :=
  Only.batchParentDeltas cfg (fun _ => rfl) (fun _ _ => decide_eq_true hp) rfl (fun _ => rfl) ds

theorem attempts {body : Op α} (h : Stores ps body) : Stores ps (executeWithRetry body) :=
  Only.executeWithRetry rfl rfl h

theorem load : Stores ps (loadInode p) := Only.loadInode rfl rfl rfl fun _ => rfl

theorem creating (cfg : Config) (hp : p ∈ ps) (n : Name) (size mode nlink uid gid : Nat) {extra : Inode → List BatchOp}
    (hextra : ∀ i, ∀ op ∈ extra i, (Eff.push op).storesIn ps = true) (deltas : Nat → List DeltaOp) :
    Stores ps (createTxn cfg p n size mode nlink uid gid extra deltas) := by
  refine attempts (Only.bind (dirEntry n) fun o => Only.guard fun _ => ?_)
  refine Only.bind (effect (e := .alloc) rfl) fun i => Only.bind (effect (e := .nowSecs) rfl) fun ts => ?_
  refine Only.bind (effect rfl) fun _ => Only.bind (effect rfl) fun _ => ?_
  refine Only.bind (Only.forM _ _ fun op hop => effect (hextra i op hop)) fun _ => ?_
  exact Only.bind (parentDeltas cfg hp _) fun _ => Only.bind committing fun _ => Only.pure _

end Stores

/-! ## Marks -/

def paying : Contract Eff Eff.Res MarkWatch := tracking MarkWatch.upd

/-- With nothing but deltas of `ps` in the batch and owed, nothing is owed after success. -/
def Pays (ps : List Inode) {α : Type} (x : Op α) : Prop :=
  ∀ g : MarkWatch, g.Within ps → wpE paying (fun _ => True) x (fun _ g' => g'.owes = []) g

namespace Pays

variable {α β : Type} {ps : List Inode} {p : Inode}

theorem within {x : Op α} (h : Stores ps x) {g : MarkWatch} (hg : g.Within ps) :
    wpE paying (fun _ => True) x (fun _ g' => g'.Within ps) g :=
  wpE_mono (fun _ _ hg' => hg') (fun _ _ => trivial)
    (Only.invariant h (fun _ _ => trivial) MarkWatch.Within.step g hg)

theorem after {x : Op α} {f : α → Op β} (hx : Stores ps x) (hf : ∀ a, Pays ps (f a)) : Pays ps (x >>= f) := by
  intro g hg
  rw [wpE_bind]
  exact wpE_mono (fun a g' hg' => hf a g' hg') (fun _ h => h) (within hx hg)

/-- Without deltas nothing is ever owed. -/
theorem of_none {x : Op α} (h : Stores [] x) : Pays [] x := fun _ hg =>
  wpE_mono (fun _ _ hg' => List.eq_nil_iff_forall_not_mem.2 fun i hi => nomatch hg'.2 i hi) (fun _ h => h)
    (within h hg)

theorem marking : Pays [p] (markDirty p) := by
  intro g hg
  refine (wpE_lift _).2 ⟨trivial, fun _ g' h' => ?_⟩
  obtain rfl : g' = { g with owes := g.owes.filter (· ≠ p) } := h'
  refine List.filter_eq_nil_iff.2 fun i hi => ?_
  simpa using hg.2 i hi

theorem value {x : Op α} (h : Pays ps x) (f : α → β) : Pays ps (x >>= fun a => pure (f a)) := by
  intro g hg
  rw [wpE_bind]
  exact wpE_mono (fun _ _ hg' => hg') (fun _ h => h) (h g hg)

/-- The end of a creation: only the counter can fail before the mark. -/
theorem created (iv : InodeValue) (ds : List DeltaOp) : Pays [p] (afterCreate p iv ds) := by
  have hput : ∀ val, Stores [p] (putNextInode val) := fun val =>
    Stores.fallible (e := .putNextInode val) (k := fun r => r) rfl rfl
  have hpersist : Stores [p] maybePersist :=
    Only.bind (Stores.effect (e := .allocCurrent) rfl) fun val => Only.ite (fun _ => hput val) fun _ => Only.pure ()
  refine after hpersist fun _ => after (Stores.effect rfl) fun _ => after (Stores.effect rfl) fun _ => ?_
  exact marking.value _

theorem creation (cfg : Config) (n : Name) (size mode nlink uid gid : Nat) {extra : Inode → List BatchOp}
    (hextra : ∀ i, ∀ op ∈ extra i, (Eff.push op).storesIn [p] = true) (deltas : Nat → List DeltaOp)
    (ds : InodeValue → List DeltaOp) :
    Pays [p] (do
      validateName n
      let iv ← createTxn cfg p n size mode nlink uid gid extra deltas
      afterCreate p iv (ds iv)) := by
  refine after (Only.validateName n) fun _ => after ?_ fun iv => created iv _
  exact Stores.creating cfg List.mem_cons_self n size mode nlink uid gid hextra deltas

theorem createAndOpen (cfg : Config) (n : Name) (mode uid gid flags : Nat) :
    Pays [p] (createAndOpen cfg p n mode uid gid flags) := by
  intro g hg
  refine (wpE_bind _ _ _ _).2 (wpE_mono (fun attr g' hg' => ?_) (fun _ h => h)
    (creation cfg n 0 _ 1 uid gid (by simp [Eff.storesIn]) _ _ g hg))
  refine (wpE_bind _ _ _ _).2 ((wpE_lift _).2 ⟨trivial, fun _ g'' h'' => ?_⟩)
  obtain rfl : g'' = g' := h''
  exact hg'

theorem link (cfg : Config) (n : Name) (t : Inode) : Pays [p] (link cfg p n t) := by
  refine after (Only.validateName n) fun _ => after (Stores.attempts ?_) fun a => ?_
  · refine Only.bind Stores.inode fun o => Only.bind (Only.orNotFound o) fun tv => Only.guard fun _ => ?_
    refine Only.bind (Stores.dirEntry n) fun d => Only.guard fun _ => Only.bind Stores.inode fun o => ?_
    refine Only.bind (Only.orNotFound o) fun pv => Only.guard fun _ => ?_
    refine Only.bind (Stores.effect (e := .nowSecs) rfl) fun ts => Only.bind (Stores.effect rfl) fun _ => ?_
    refine Only.bind (Stores.effect rfl) fun _ => Only.bind (Stores.effect (e := .nowSecs) rfl) fun ts' => ?_
    refine Only.bind (Stores.parentDeltas cfg List.mem_cons_self _) fun _ => ?_
    exact Only.bind Stores.committing fun _ => Only.bind (Stores.effect rfl) fun _ => Only.pure _
  · exact after (Stores.effect rfl) fun _ => marking.value _

theorem unlink (cfg : Config) (n : Name) : Pays [p] (unlink cfg p n) := by
  have hchild : ∀ i iv, Stores [p] (unlinkChild i iv) := by
    intro i iv
    refine Only.ite (fun _ => ?_) fun _ => ?_
    · refine Only.bind (Stores.effect (e := .handleCount i) rfl) fun count => Only.ite (fun _ => ?_) fun _ => ?_
      · exact Only.bind (Stores.effect (e := .nowSecs) rfl) fun _ => Only.bind (Stores.effect rfl) fun _ => Only.pure _
      · exact Only.bind (Stores.effect rfl) fun _ => Only.bind (Stores.effect rfl) fun _ => Only.pure _
    · exact Only.bind (Stores.effect (e := .nowSecs) rfl) fun _ => Only.bind (Stores.effect rfl) fun _ => Only.pure _
  have hclear : ∀ i, Stores [p] (clearDeltas i) := fun i =>
    Only.bind (Stores.effect (e := .clearDeltas i) rfl) fun _ => Only.pure ()
  refine after (Only.validateName n) fun _ => after (Stores.attempts ?_) fun a => ?_
  · refine Only.bind (Stores.dirEntry n) fun o => Only.bind (Only.orNotFound o) fun v => Only.guard fun _ => ?_
    refine Only.bind Stores.inode fun o => Only.bind (Only.orNotFound o) fun iv => ?_
    refine Only.bind (Stores.effect rfl) fun _ => Only.bind (hchild _ _) fun res => ?_
    refine Only.bind (Stores.effect (e := .nowSecs) rfl) fun ts => ?_
    refine Only.bind (Stores.parentDeltas cfg List.mem_cons_self _) fun _ => Only.bind Stores.committing fun _ => ?_
    obtain ⟨iv', o'⟩ := res
    match o' with
    | some (j, false) =>
        exact Only.bind (hclear j) fun _ => Only.bind (Stores.effect rfl) fun _ => Only.pure _
    | some (j, true) => exact Only.bind (Stores.effect rfl) fun _ => Only.pure _
    | none => exact Only.bind (Stores.effect rfl) fun _ => Only.pure _
  · obtain ⟨o, ts⟩ := a
    have htail : ∀ purged : List Inode,
        Pays [p] (do cacheApplyDeltas p [.setMtime ts, .setCtime ts]; markDirty p; return purged) :=
      fun _ => after (Stores.effect rfl) fun _ => marking.value _
    match o with
    | some (j, true) => exact after (Stores.effect (e := .pendingInsert j) rfl) fun _ => htail []
    | some (j, false) => exact htail [j]
    | none => exact htail []

theorem rmdir (cfg : Config) (n : Name) : Pays [p] (rmdir cfg p n) := by
  refine after (Only.validateName n) fun _ => after (Stores.attempts ?_) fun ts => ?_
  · refine Only.bind (Stores.dirEntry n) fun o => Only.bind (Only.orNotFound o) fun v => Only.guard fun _ => ?_
    refine Only.bind Stores.inode fun o => Only.bind (Only.orNotFound o) fun iv => ?_
    refine Only.bind Stores.emptyCheck fun b => Only.guard fun _ => Only.bind (Stores.effect rfl) fun _ => ?_
    refine Only.bind (Stores.effect rfl) fun _ => Only.bind (Stores.effect (e := .nowSecs) rfl) fun ts => ?_
    refine Only.bind (Stores.parentDeltas cfg List.mem_cons_self _) fun _ => Only.bind Stores.committing fun _ => ?_
    refine Only.bind (Only.bind (Stores.effect (e := .clearDeltas _) rfl) fun _ => Only.pure ()) fun _ => ?_
    exact Only.bind (Stores.effect rfl) fun _ => Only.pure _
  · exact after (Stores.effect rfl) fun _ => marking

end Pays

/-! ## Rename -/

/-- Every value that `x` returns satisfies `P`. -/
def Returns {α : Type} (P : α → Prop) (x : Op α) : Prop :=
  wpE (⟨fun _ _ => True, fun _ _ _ _ => True⟩ : Contract Eff Eff.Res Unit) (fun _ => True) x (fun a _ => P a) ()

namespace Returns

variable {α β : Type} {P : α → Prop}

theorem bind {x : Op β} {f : β → Op α} (hf : ∀ b, Returns P (f b)) : Returns P (x >>= f) := by
  unfold Returns
  rw [wpE_bind]
  refine wp_mono (fun r l _ => ?_) (wp_true (fun _ _ => trivial) x.run ())
  cases r with
  | ok b => exact hf b
  | error _ => trivial

theorem attempts {body : Op α} (h : Returns P body) : Returns P (executeWithRetry body) := by
  unfold Returns
  refine wpE_retry (I := fun _ => True) (fun _ _ => trivial) (fun _ => trivial) (fun _ _ => trivial)
    (fun _ _ _ _ => ?_) _ _ trivial
  exact wpE_mono (fun _ _ hP _ _ => hP) (fun _ _ _ _ => trivial) h

theorem wp_conj {L : Type} {C : Contract Eff Eff.Res L} {R : α → Unit → Prop} {Q : α → L → Prop} :
    ∀ (x : Prog Eff Eff.Res α) (l : L), wp ⟨fun _ _ => True, fun _ _ _ _ => True⟩ x R () → wp C x Q l →
      wp C x (fun a l' => R a () ∧ Q a l') l
  | .ret _, _, hR, hQ => ⟨hR, hQ⟩
  | .call _ k, _, hR, hQ => ⟨hQ.1, fun r l' hp => wp_conj (k r) l' (hR.2 r () trivial) (hQ.2 r l' hp)⟩

/-- What holds of the returned values holds next to any contract. -/
theorem conj {L : Type} {C : Contract Eff Eff.Res L} {E : L → Prop} {x : Op α} {Q : α → L → Prop} {l : L}
    (hP : Returns P x) (hQ : wpE C E x Q l) : wpE C E x (fun a l' => P a ∧ Q a l') l := by
  refine wp_mono (fun r l' hr => ?_) (wp_conj x.run l hP hQ)
  cases r with
  | ok a => exact hr
  | error _ => exact hr.2

end Returns

namespace Pays

variable {p np : Inode}

/-- The deltas of a rename are those of its parents. -/
theorem renameTxn_returns (cfg : Config) (n nn : Name) :
    Returns (fun a => ∃ srcIsDir wasDir ts, a.2 = renameDeltas p np srcIsDir wasDir ts) (renameTxn cfg p n np nn) := by
  refine Returns.bind fun _ => Returns.bind fun v => Returns.bind fun dst => Returns.bind fun vals => ?_
  refine Returns.bind fun srcIv => Returns.bind fun ts => Returns.bind fun res => ?_
  obtain ⟨del, wasDir⟩ := res
  refine Returns.bind fun _ => Returns.bind fun _ => Returns.bind fun _ => Returns.bind fun _ => ?_
  refine Returns.bind fun _ => Returns.bind fun _ => Returns.bind fun _ => Returns.bind fun _ => ?_
  exact ⟨_, _, _, rfl⟩

theorem renameTxn_stores (cfg : Config) (n nn : Name) : Stores [p, np] (renameTxn cfg p n np nn) := by
  have hlocks : ∀ is : List Inode, Stores [p, np] (lockInodes is) := by
    intro is
    induction is with
    | nil => exact Only.pure _
    | cons i is ih =>
        refine Only.bind Stores.inode fun raw => Only.bind ih fun vals => ?_
        cases raw <;> exact Only.pure _
  have htarget : ∀ srcIsDir ts vals dst, Stores [p, np] (renameTarget srcIsDir ts vals dst) := by
    intro srcIsDir ts vals dst
    cases dst with
    | none => exact Only.pure _
    | some d =>
        refine Only.guard (f := fun _ => _) fun _ => Only.guard fun _ => Only.ite (fun _ => ?_) fun _ => ?_
        · exact Only.bind Stores.emptyCheck fun b => Only.guard fun _ => Only.pure _
        · refine Only.bind (Only.orNotFound _) fun iv => Only.ite (fun _ => ?_) fun _ => Only.pure _
          exact Only.bind (Stores.effect rfl) fun _ => Only.pure _
  have hremove : ∀ del dst, Stores [p, np] (removeDst np nn del dst) := by
    intro del dst
    cases dst with
    | none => exact Only.pure _
    | some d =>
        refine Only.bind (Stores.effect rfl) fun _ => Only.ite (fun _ => ?_) fun _ => Only.pure _
        exact Only.bind (Stores.effect rfl) fun _ => Stores.effect rfl
  have hforget : ∀ dst, Stores [p, np] (forgetDst dst) := by
    intro dst
    cases dst with
    | none => exact Only.pure _
    | some d =>
        exact Only.bind (Only.bind (Stores.effect (e := .clearDeltas _) rfl) fun _ => Only.pure ()) fun _ =>
          Stores.effect rfl
  refine Only.bind (Stores.dirEntry n) fun o => Only.bind (Only.orNotFound o) fun v => ?_
  refine Only.bind (Stores.dirEntry nn) fun d => Only.bind (hlocks _) fun vals => ?_
  refine Only.bind (Only.orNotFound _) fun srcIv => Only.bind (Stores.effect (e := .nowSecs) rfl) fun ts => ?_
  refine Only.bind (htarget _ _ _ _) fun res => ?_
  obtain ⟨del, wasDir⟩ := res
  refine Only.bind (hremove _ _) fun _ => Only.bind (Stores.effect rfl) fun _ => ?_
  refine Only.bind (Stores.effect rfl) fun _ => Only.bind (Stores.effect rfl) fun _ => ?_
  refine Only.bind (Only.forM _ _ fun ds hds => Stores.parentDeltas cfg ?_ ds.2) fun _ => ?_
  · simpa using renameDeltas_fst _ hds
  · refine Only.bind Stores.committing fun _ => Only.bind (hforget _) fun _ => ?_
    exact Only.bind (Stores.effect rfl) fun _ => Only.pure _

/-- Both parents are among the deltas of a rename. -/
theorem exists_renameDeltas (srcIsDir wasDir : Bool) (ts : Nat) {i : Inode} (hi : i ∈ [p, np]) :
    ∃ d ∈ renameDeltas p np srcIsDir wasDir ts, d.1 = i := by
  have hp : (p, [DeltaOp.setMtime ts, .setCtime ts]) ∈ renameDeltas p np srcIsDir wasDir ts := by
    simp [renameDeltas]
  by_cases hip : i = p
  · exact ⟨_, hp, hip.symm⟩
  · obtain rfl : i = np := by simpa [hip] using hi
    have hnp : (i, [DeltaOp.setMtime ts, .setCtime ts]) ∈ renameDeltas p i srcIsDir wasDir ts := by
      simp [renameDeltas, Ne.symm hip]
    exact ⟨_, hnp, rfl⟩

theorem touchAll {E : MarkWatch → Prop} (dss : List (Inode × List DeltaOp)) :
    ∀ g : MarkWatch, wpE paying E (dss.forM fun d => do cacheApplyDeltas d.1 d.2; markDirty d.1)
      (fun _ g' => ∀ i ∈ g'.owes, i ∈ g.owes ∧ ∀ d ∈ dss, d.1 ≠ i) g := by
  induction dss with
  | nil => exact fun g i hi => ⟨hi, nofun⟩
  | cons d dss ih =>
      intro g
      show wpE paying E ((do cacheApplyDeltas d.1 d.2; markDirty d.1) >>= fun _ => dss.forM _) _ g
      refine (wpE_bind _ _ _ _).2 ((wpE_bind _ _ _ _).2 ((wpE_lift _).2 ⟨trivial, fun _ g₁ h₁ => ?_⟩))
      refine (wpE_lift _).2 ⟨trivial, fun _ g₂ h₂ => ?_⟩
      obtain rfl : g₁ = g := h₁
      obtain rfl : g₂ = { g₁ with owes := g₁.owes.filter (· ≠ d.1) } := h₂
      refine wpE_mono (fun _ g' hg' i hi => ?_) (fun _ h => h) (ih _)
      obtain ⟨hmem, hrest⟩ := hg' i hi
      have hkept := List.mem_filter.1 hmem
      refine ⟨hkept.1, fun d' hd' => ?_⟩
      rcases List.mem_cons.1 hd' with rfl | hd'
      · exact fun e => of_decide_eq_true hkept.2 e.symm
      · exact hrest d' hd'

theorem rename (cfg : Config) (n nn : Name) : Pays [p, np] (rename cfg p n np nn) := by
  refine after (Only.validateName n) fun _ => after (Only.validateName nn) fun _ => ?_
  intro g hg
  have hstores := within (Stores.attempts (renameTxn_stores cfg n nn)) hg
  have htxn := (Returns.attempts (renameTxn_returns cfg n nn)).conj hstores
  refine (wpE_bind _ _ _ _).2 (wpE_mono (fun a g' ha => ?_) (fun _ h => h) htxn)
  obtain ⟨⟨srcIsDir, wasDir, ts, hdeltas⟩, hwithin⟩ := ha
  obtain ⟨del, deltas⟩ := a
  obtain rfl : deltas = renameDeltas p np srcIsDir wasDir ts := hdeltas
  refine (wpE_bind _ _ _ _).2 (wpE_mono (fun _ g'' hg'' => ?_) (fun _ h => h) (touchAll _ g'))
  refine List.eq_nil_iff_forall_not_mem.2 fun i hi => ?_
  obtain ⟨howed, hmarked⟩ := hg'' i hi
  obtain ⟨d, hd, hdi⟩ := exists_renameDeltas srcIsDir wasDir ts (hwithin.2 i howed)
  exact hmarked d hd hdi

end Pays

/-! ## Calls -/

section

variable {α : Type} {ps : List Inode} {x : Op α} {mk : FsResult α → Reply}

theorem Pays.reply (h : Pays ps x) (hmk : ∀ y, (mk (.error y)).isOk = false) :
    wp paying (do return mk (← x.run)) (fun r g => r.isOk = true → g.owes = []) {} := by
  refine (wp_bind _ _ _ _ _).2 (wp_mono (fun r g hr => ?_) (h {} ⟨nofun, nofun⟩))
  cases r with
  | ok a => exact fun _ => hr
  | error y =>
      intro hok
      have hbad : (mk (.error y)).isOk = true := hok
      rw [hmk] at hbad
      cases hbad

end

namespace Stores

variable {ps : List Inode} {i : Inode}

/-! ### Calls without a parent -/

theorem setattr (req : SetAttrRequest) : Stores ps (setattr i req) := by
  refine Only.bind (attempts ?_) fun _ => Only.pure _
  refine Only.bind inode fun o => Only.bind (Only.orNotFound o) fun iv => ?_
  refine Only.bind (effect (e := .nowSecs) rfl) fun ts => Only.bind (effect rfl) fun _ => ?_
  exact Only.bind committing fun _ => Only.bind (effect rfl) fun _ => Only.pure _

theorem reportWrite (newSize mtime : Nat) : Stores ps (reportWrite i newSize mtime) := by
  refine attempts (Only.bind inode fun o => Only.bind (Only.orNotFound o) fun iv => ?_)
  exact Only.bind (effect rfl) fun _ => Only.bind committing fun _ => effect rfl

theorem openFile (cfg : Config) (flags : Nat) : Stores ps (openFile cfg i flags) := by
  have hrest : Stores ps (do
      handleIncr i
      let serverId := (← getDataLocation i).getD cfg.defaultDataLocation.serverId
      return (⟨i, ⟨serverId⟩⟩ : OpenResponse)) :=
    Only.bind (effect (e := .handleIncr i) rfl) fun _ =>
      Only.bind (fallible (e := .getDataLocation i) (k := fun r => r) rfl rfl) fun _ => Only.pure _
  refine Only.bind load fun iv => Only.guard fun _ => Only.ite (fun _ => ?_) fun _ => hrest
  refine Only.bind (attempts ?_) fun _ => hrest
  refine Only.bind inode fun o => Only.bind (Only.orNotFound o) fun iv => ?_
  refine Only.bind (effect (e := .nowSecs) rfl) fun ts => Only.bind (effect rfl) fun _ => ?_
  exact Only.bind committing fun _ => effect rfl

theorem release : Stores ps (release i) := by
  refine Only.bind (effect (e := .checkAndClearDeferredDelete i) rfl) fun due =>
    Only.ite (fun _ => ?_) fun _ => Only.pure _
  refine Only.bind (attempts ?_) fun _ => ?_
  · exact Only.bind (effect rfl) fun _ => Only.bind (effect rfl) fun _ => committing
  · refine Only.bind (Only.bind (effect (e := .clearDeltas i) rfl) fun _ => Only.pure ()) fun _ => ?_
    exact Only.bind (effect rfl) fun _ => Only.pure _

theorem forceCompactInode : Stores ps (forceCompactInode i) := by
  refine Only.bind (fallible (e := .scanDeltasWithKeys i) (k := fun r => r) rfl rfl) fun kvs => ?_
  refine Only.ite (fun _ => Only.pure _) fun _ => Only.withBatch rfl rfl (Only.bind inode fun base => ?_)
  cases base with
  | none => exact Only.pure _
  | some base =>
      refine Only.bind (effect rfl) fun _ => Only.bind (Only.forM _ _ fun kv _ => effect rfl) fun _ => ?_
      refine Only.bind (effect (e := .commit) rfl) fun r => ?_
      cases r with
      | ok _ => exact Only.bind (effect rfl) fun _ => Only.pure _
      | error x => cases x <;> first | exact Only.pure _ | exact Only.throw _

theorem readlink : Stores ps (readlink i) := by
  refine Only.bind load fun iv => Only.guard fun _ => ?_
  refine Only.bind (fallible (e := .getSymlink i) (k := fun r => r) rfl rfl) fun target => ?_
  cases target with
  | none => exact Only.throw _
  | some t => exact Only.pure _

end Stores

/-- **A call that returns `Ok` has marked every inode it has committed a delta of.** -/
theorem Call.pays (cfg : Config) (c : Call) :
    wp paying (c.body cfg) (fun r g => r.isOk = true → g.owes = []) {} := by
  cases c with
  | lookup p n =>
      refine (Pays.of_none ?_).reply fun _ => rfl
      refine Only.bind (Only.validateName n) fun _ =>
        Only.bind (Stores.fallible (e := .resolvePath p n) (k := fun r => r) rfl rfl) fun o => ?_
      exact Only.bind (Only.orNotFound o) fun i => Only.bind Stores.load fun _ => Only.pure _
  | getattr i => exact (Pays.of_none (Only.bind Stores.load fun _ => Only.pure _)).reply fun _ => rfl
  | setattr i req => exact (Pays.of_none (Stores.setattr req)).reply fun _ => rfl
  | readdir i =>
      refine (Pays.of_none (Only.bind Stores.load fun iv => Only.guard fun _ => ?_)).reply fun _ => rfl
      exact Stores.fallible (e := .listDir i) (k := fun r => r) rfl rfl
  | create p n mode uid gid =>
      exact (Pays.creation cfg n 0 _ 1 uid gid (by simp [Eff.storesIn]) _ _).reply fun _ => rfl
  | createAndOpen p n mode uid gid flags => exact (Pays.createAndOpen cfg n mode uid gid flags).reply fun _ => rfl
  | mkdir p n mode uid gid =>
      exact (Pays.creation cfg n 0 _ 2 uid gid (by simp) _ _).reply fun _ => rfl
  | symlink p n target uid gid =>
      exact (Pays.creation cfg n _ _ 1 uid gid (by simp [Eff.storesIn]) _ _).reply fun _ => rfl
  | link p n t => exact (Pays.link cfg n t).reply fun _ => rfl
  | unlink p n => exact (Pays.unlink cfg n).reply fun _ => rfl
  | rmdir p n => exact (Pays.rmdir cfg n).reply fun _ => rfl
  | rename p n np nn => exact (Pays.rename cfg n nn).reply fun _ => rfl
  | openFile i flags => exact (Pays.of_none (Stores.openFile cfg flags)).reply fun _ => rfl
  | reportWrite i newSize mtime => exact (Pays.of_none (Stores.reportWrite newSize mtime)).reply fun _ => rfl
  | readlink i => exact (Pays.of_none Stores.readlink).reply fun _ => rfl
  | release i => exact (Pays.of_none Stores.release).reply fun _ => rfl
  | forceCompactInode i => exact (Pays.of_none Stores.forceCompactInode).reply fun _ => rfl

end RucksFs
