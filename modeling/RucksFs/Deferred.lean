import RucksFs.Server.Numbers
import RucksFs.Server.Watch

/-!
# Deferred deletion next to `open` and `release`

* `Tended` — an open file has a record, a cached one has, and a record without links is open and
  registered, or some running call owes the rest.
* `handle_left_behind` — the interleavings that break this.
* `handles_tended` — while no `open` or `release` of an inode runs next to a call that is removing it,
  whenever no call is running, there is no unopened record without links and no open file without record.
-/

set_option autoImplicit false

namespace RucksFs

open Prog Op

/-! ## Conditions on a run -/

/-- The call opens or releases `i`. -/
def Call.touches (c : Call) (i : Inode) : Bool :=
  match c with
  | .openFile j _ | .release j => i == j
  | _ => false

/-- Next to a call that is removing an inode (an `unlink` that has locked its record, or a `release` that
has found its deletion due) no other call removes it, and none opens or releases it. -/
def RemovesAlone (a b : FsThread) : Prop :=
  a.result = none → b.result = none → b.tag.removes = true → ∀ i ∈ b.loc.files,
    a.tag.touches i = false ∧ (a.tag.removes = true → i ∉ a.loc.files)

/-- An `open` that is running does not wrap the 32-bit count of its inode. -/
def CountFits (s : Server) (th : FsThread) : Prop :=
  match th.tag with
  | .openFile i _ => th.result = none → s.handles i + 1 < U32_SIZE
  | _ => True

def releaseFailed (th : FsThread) : Bool :=
  match th.tag, th.result with
  | .release _, some r => !r.isOk
  | _, _ => false

/-- The condition on every state of a run. -/
structure HandlesApart (c : FsConf) : Prop where
  alone : Apart RemovesAlone c.threads
  fits : Pool (CountFits c.shared) c.threads
  released : Pool (fun th : FsThread => releaseFailed th = false) c.threads

instance : DecidableRel RemovesAlone := fun a b =>
  inferInstanceAs (Decidable (a.result = none → b.result = none → b.tag.removes = true →
    ∀ i ∈ b.loc.files, a.tag.touches i = false ∧ (a.tag.removes = true → i ∉ a.loc.files)))

/-- The inode of an `open`. -/
def Call.opening : Call → Option Inode
  | .openFile i _ => some i
  | _ => none

theorem countFits_iff (s : Server) (th : FsThread) :
    CountFits s th ↔ ∀ i ∈ th.tag.opening, th.result = none → s.handles i + 1 < U32_SIZE := by
  unfold CountFits
  cases th.tag <;> simp [Call.opening]

instance (s : Server) : DecidablePred (CountFits s) := fun th => decidable_of_iff' _ (countFits_iff s th)

instance : DecidablePred HandlesApart := fun c =>
  decidable_of_iff (Apart RemovesAlone c.threads ∧ Pool (CountFits c.shared) c.threads ∧
      Pool (fun th : FsThread => releaseFailed th = false) c.threads)
    ⟨fun h => ⟨h.1, h.2.1, h.2.2⟩, fun h => ⟨h.1, h.2, h.3⟩⟩

/-! ## The invariant -/

/-- Some call owes `i` a debt of kind `P`. -/
def Owed (P : Debt → Prop) (γ : Nat → Watch) (ts : List FsThread) (i : Inode) : Prop :=
  ∃ n th d, ts[n]? = some th ∧ (γ n).owes = some (i, d) ∧ P d

/-- What a running call knows. -/
structure ThreadOk (g : Watch) (call : Call) (l : Local) (s : Server) : Prop where
  seen : ∀ i f, call = .openFile i f → g.seen = true → ∃ iv, s.db.inode i = some iv
  entry : call.isUnlink = true → g.child = none → ∀ v, g.entry = some v →
    ∃ p n, (p, n, some v) ∈ l.tx.dirReads
  child : call.isUnlink = true → ∀ i, g.child = some i → i ∈ l.files ∧
    (g.count = some (i, 0) ∨ ∃ iv, s.db.inode i = some iv)
  count : ∀ i n, g.count = some (i, n) → call.isUnlink = true ∧ g.child = some i ∧ s.handles i = n
  owes : ∀ i d, g.owes = some (i, d) → call.removes = true ∧ i ∈ l.files ∧
    (d = .register → 0 < s.handles i) ∧ (d = .delete → s.handles i = 0)
  empty : call.isUnlink = true → g.child = none → l.tx.batch = []
  pushed : ∀ op ∈ l.tx.batch, g.PushOk call op

/-- **Open files have records, and records without links are open and registered**, up to what running
calls still owe. -/
structure Tended (γ : Nat → Watch) (c : FsConf) : Prop where
  handled : ∀ i, 0 < c.shared.handles i → ∃ iv, c.shared.db.inode i = some iv
  cached : ∀ i v, c.shared.cache.find i = some v →
    (∃ iv, c.shared.db.inode i = some iv) ∨ Owed (· = .forget) γ c.threads i
  orphan : ∀ i iv, c.shared.db.inode i = some iv → iv.nlink = 0 → isDir iv.mode = false ∧
    (0 < c.shared.handles i ∧ c.shared.pendingDeletes i = true ∨ Owed (· ≠ .forget) γ c.threads i)
  threads : ∀ n th, c.threads[n]? = some th → th.result = none → ThreadOk (γ n) th.tag th.loc c.shared
  tags : Pool (fun th : FsThread => th.tag.onHandles = true) c.threads

section Owed

variable {P : Debt → Prop} {γ : Nat → Watch} {ts : List FsThread} {n : Nat} {th th' : FsThread} {g : Watch}
  {i : Inode} {X : Prop}

theorem Owed.own {d : Debt} (hn : ts[n]? = some th) (hg : g.owes = some (i, d)) (hd : P d) :
    Owed P (Function.update γ n g) (ts.set n th') i := by
  refine ⟨n, th', d, ?_, ?_, hd⟩
  · rw [List.getElem?_set_self (List.getElem?_eq_some_iff.1 hn).1]
  · rw [Function.update_self]
    exact hg

/-- What others owe they still owe; the thread that has moved may have paid. -/
theorem Owed.set (h : Owed P γ ts i) (hn : ts[n]? = some th)
    (hown : ∀ d, (γ n).owes = some (i, d) → P d → g.owes = some (i, d) ∨ X) :
    Owed P (Function.update γ n g) (ts.set n th') i ∨ X := by
  obtain ⟨m, u, d, hm, ho, hd⟩ := h
  by_cases hmn : m = n
  · subst hmn
    exact (hown d ho hd).imp_left fun hg => .own hn hg hd
  · refine Or.inl ⟨m, u, d, ?_, ?_, hd⟩
    · rw [List.getElem?_set_ne (Ne.symm hmn)]
      exact hm
    · rw [Function.update_of_ne hmn]
      exact ho

end Owed

/-! ## Other calls -/

/-- What a step of `call` leaves to the others. -/
structure Spares (call : Call) (l : Local) (s s' : Server) : Prop where
  record : ∀ {i iv}, s.db.inode i = some iv →
    (∃ iv', s'.db.inode i = some iv') ∨ call.removes = true ∧ i ∈ l.files
  handles : ∀ i, s'.handles i = s.handles i ∨ call.touches i = true

theorem ThreadOk.beside {g : Watch} {th u : FsThread} {s s' : Server} (h : ThreadOk g th.tag th.loc s)
    (hth : th.result = none) (hu : u.result = none) (hk : Spares u.tag u.loc s s')
    (ha : RemovesAlone th u) (hb : RemovesAlone u th) : ThreadOk g th.tag th.loc s' := by
  have hhandles : ∀ i, th.tag.removes = true → i ∈ th.loc.files → s'.handles i = s.handles i := by
    intro i hr hi
    refine (hk.handles i).resolve_right fun ht => ?_
    rw [(hb hu hth hr i hi).1] at ht
    cases ht
  have hremoves : th.tag.isUnlink = true → th.tag.removes = true := by
    cases th.tag <;> first | exact fun _ => rfl | nofun
  refine { h with seen := ?_, child := ?_, count := ?_, owes := ?_ }
  · intro i f htag hs
    obtain ⟨iv, hi⟩ := h.seen i f htag hs
    refine (hk.record hi).resolve_right fun ⟨hr, hm⟩ => ?_
    have hfalse := (ha hth hu hr i hm).1
    rw [htag] at hfalse
    simp [Call.touches] at hfalse
  · intro hc i hi
    obtain ⟨hm, hor⟩ := h.child hc i hi
    refine ⟨hm, hor.imp_right fun ⟨iv, hiv⟩ => (hk.record hiv).resolve_right fun ⟨hr, hmu⟩ => ?_⟩
    exact (hb hu hth (hremoves hc) i hm).2 hr hmu
  · intro i n hc
    obtain ⟨hul, hch, hn⟩ := h.count i n hc
    exact ⟨hul, hch, (hhandles i (hremoves hul) (h.child hul i hch).1).trans hn⟩
  · intro i d ho
    obtain ⟨hr, hm, hreg, hdel⟩ := h.owes i d ho
    rw [← hhandles i hr hm] at hreg hdel
    exact ⟨hr, hm, hreg, hdel⟩

section Steps

variable {γ : Nat → Watch} {c : FsConf} {n : Nat} {call : Call} {e : Eff}
  {k : e.Res → Prog Eff Eff.Res Reply} {l l' : Local} {p : Prog Eff Eff.Res Reply} {g' : Watch} {s' : Server}

/-- The frame of every step. -/
theorem Tended.set (h : Tended γ c) (hH : HandlesApart c) (hn : c.threads[n]? = some ⟨call, .call e k, l⟩)
    (hk : Spares call l c.shared s') (hself : ThreadOk g' call l' s')
    (handled : ∀ i, 0 < s'.handles i → ∃ iv, s'.db.inode i = some iv)
    (cached : ∀ i v, s'.cache.find i = some v → (∃ iv, s'.db.inode i = some iv) ∨
      Owed (· = .forget) (Function.update γ n g') (c.threads.set n ⟨call, p, l'⟩) i)
    (orphan : ∀ i iv, s'.db.inode i = some iv → iv.nlink = 0 → isDir iv.mode = false ∧
      (0 < s'.handles i ∧ s'.pendingDeletes i = true ∨
        Owed (· ≠ .forget) (Function.update γ n g') (c.threads.set n ⟨call, p, l'⟩) i)) :
    Tended (Function.update γ n g') ⟨s', c.threads.set n ⟨call, p, l'⟩⟩ where
  handled := handled
  cached := cached
  orphan := orphan
  threads := by
    intro m th hm hth
    rcases getElem?_set_cases hm with ⟨rfl, rfl⟩ | ⟨hne, hm⟩
    · rw [Function.update_self]
      exact hself
    · rw [Function.update_of_ne hne]
      exact (h.threads m th hm hth).beside hth rfl hk (hH.alone m n _ _ hne hm hn)
        (hH.alone n m _ _ (Ne.symm hne) hn hm)
  tags := h.tags.set (show call.onHandles = true from h.tags n _ hn) fun _ _ _ _ hu => hu

/-! ## Steps that move nothing -/

/-- Records, handles and registrations are as before, and nothing is cached that was not. -/
structure Unmoved (s s' : Server) : Prop where
  inode : ∀ i, s'.db.inode i = s.db.inode i
  handles : ∀ i, s'.handles i = s.handles i
  pending : s'.pendingDeletes = s.pendingDeletes
  cached : ∀ {i v}, s'.cache.find i = some v → ∃ w, s.cache.find i = some w

theorem Unmoved.refl (s : Server) : Unmoved s s := ⟨fun _ => rfl, fun _ => rfl, rfl, fun h => ⟨_, h⟩⟩

theorem Unmoved.spares {s : Server} (h : Unmoved s s') : Spares call l s s' :=
  ⟨fun {i iv} hi => Or.inl ⟨iv, (h.inode i).trans hi⟩, fun i => Or.inl (h.handles i)⟩

theorem Unmoved.cacheGet (s : Server) (i : Inode) : Unmoved s { s with cache := (s.cache.get i).2 } := by
  refine ⟨fun _ => rfl, fun _ => rfl, rfl, fun {j v} hj => ⟨v, ?_⟩⟩
  have hj : (s.cache.get i).2.find j = some v := hj
  rw [InodeFoldedCache.find_get] at hj
  exact hj

theorem Unmoved.cacheApplyDeltas (s : Server) (i : Inode) (ds : List DeltaOp) :
    Unmoved s { s with cache := s.cache.applyDeltas i ds } := by
  refine ⟨fun _ => rfl, fun _ => rfl, rfl, fun {j v} hj => ?_⟩
  have hj : (s.cache.applyDeltas i ds).find j = some v := hj
  rw [InodeFoldedCache.find_applyDeltas] at hj
  split at hj
  · rename_i hji
    obtain ⟨w, hw, -⟩ := Option.map_eq_some_iff.1 hj
    exact ⟨w, hji ▸ hw⟩
  · exact ⟨v, hj⟩

theorem Unmoved.cacheInvalidate (s : Server) (i : Inode) :
    Unmoved s { s with cache := s.cache.invalidate i } := by
  refine ⟨fun _ => rfl, fun _ => rfl, rfl, fun {j v} hj => ?_⟩
  have hj : (s.cache.invalidate i).find j = some v := hj
  rw [InodeFoldedCache.find_invalidate] at hj
  split at hj
  · cases hj
  · exact ⟨v, hj⟩

theorem Tended.unmoved (h : Tended γ c) (hH : HandlesApart c)
    (hn : c.threads[n]? = some ⟨call, .call e k, l⟩) (hu : Unmoved c.shared s')
    (hself : ThreadOk g' call l' s') (howes : g'.owes = (γ n).owes) :
    Tended (Function.update γ n g') ⟨s', c.threads.set n ⟨call, p, l'⟩⟩ := by
  have howed : ∀ {P : Debt → Prop} {i : Inode}, Owed P γ c.threads i →
      Owed P (Function.update γ n g') (c.threads.set n ⟨call, p, l'⟩) i := by
    intro P i ho
    exact (ho.set (X := False) hn fun d hd _ => Or.inl (howes.trans hd)).resolve_right id
  refine h.set hH hn hu.spares hself (fun i hi => ?_) (fun i v hv => ?_) fun i iv hi hz => ?_
  · rw [hu.inode]
    exact h.handled i (hu.handles i ▸ hi)
  · obtain ⟨w, hw⟩ := hu.cached hv
    rw [hu.inode]
    exact (h.cached i w hw).imp_right howed
  · rw [hu.inode] at hi
    obtain ⟨hd, hor⟩ := h.orphan i iv hi hz
    rw [hu.handles, hu.pending]
    exact ⟨hd, hor.imp_right howed⟩

end Steps

/-! ## The call that moves -/

namespace ThreadOk

variable {g : Watch} {call : Call} {l l' : Local} {s s' : Server} {i : Inode}

/-- Nothing the call knows has changed. -/
theorem keep (h : ThreadOk g call l s) (hu : Unmoved s s') (hb : l'.tx.batch = l.tx.batch)
    (hd : ∀ x ∈ l.tx.dirReads, x ∈ l'.tx.dirReads) (hf : ∀ i ∈ l.files, i ∈ l'.files) :
    ThreadOk g call l' s' where
  seen := fun i f hc hs => by
    rw [hu.inode]
    exact h.seen i f hc hs
  entry := fun hc hn v hv => by
    obtain ⟨p, n, hm⟩ := h.entry hc hn v hv
    exact ⟨p, n, hd _ hm⟩
  child := fun hc i hi => by
    rw [hu.inode]
    exact (h.child hc i hi).imp_left (hf i)
  count := fun i n hc => by
    rw [hu.handles]
    exact h.count i n hc
  owes := fun i d ho => by
    rw [hu.handles]
    obtain ⟨hr, hm, hreg⟩ := h.owes i d ho
    exact ⟨hr, hf i hm, hreg⟩
  empty := fun hc hn => hb.trans (h.empty hc hn)
  pushed := hb ▸ h.pushed

/-- A transaction starts or ends. -/
theorem reset (h : ThreadOk g call l s) {tx : Txn} (hb : tx.batch = []) :
    ThreadOk g.reset call ⟨tx, l.files⟩ s :=
  { h with
    entry := nofun
    child := nofun
    count := nofun
    empty := fun _ _ => hb
    pushed := fun op ho => by rw [hb] at ho; cases ho }

/-- A commit has failed. -/
theorem dropped (h : ThreadOk g call l s) : ThreadOk { g with entry := none } call ⟨{}, l.files⟩ s :=
  { h with
    entry := nofun
    empty := fun _ _ => rfl
    pushed := nofun }

theorem readEntry (h : ThreadOk g call l s) (cfg : Config) (p : Inode) (n : Name) :
    ThreadOk (g.upd call (.getForUpdateDirEntry p n) (.ok ((s.db.applyBatch l.tx.batch).entry p n))) call
      (l.after cfg s (.getForUpdateDirEntry p n)) s := by
  have hkeep : ThreadOk g call (l.after cfg s (.getForUpdateDirEntry p n)) s :=
    h.keep (.refl s) rfl (fun _ hx => List.mem_cons_of_mem _ hx) fun _ hi => hi
  cases ho : (s.db.applyBatch l.tx.batch).entry p n with
  | none => exact hkeep
  | some v =>
      refine { hkeep with entry := fun hc hn v' hv' => ?_ }
      cases hv'
      rw [h.empty hc hn] at ho
      exact ⟨p, n, List.mem_cons.2 (Or.inl (by rw [← ho]; rfl))⟩

theorem readInode (h : ThreadOk g call l s) (cfg : Config) (i : Inode) :
    ThreadOk (g.upd call (.getForUpdateInode i) (.ok ((s.db.applyBatch l.tx.batch).inode i))) call
      (l.after cfg s (.getForUpdateInode i)) s := by
  have hkeep : ThreadOk g call (l.after cfg s (.getForUpdateInode i)) s :=
    h.keep (.refl s) rfl (fun _ hx => hx) fun _ hi => Eff.mem_remember (e := .getForUpdateInode i) (s := s) hi
  cases ho : (s.db.applyBatch l.tx.batch).inode i with
  | none => exact hkeep
  | some iv =>
      unfold Watch.upd
      dsimp only
      split
      · rename_i hnew
        refine { hkeep with entry := nofun, child := fun hc j hj => ?_, count := fun j m hm => ?_,
                            empty := nofun, pushed := fun op hop => ?_ }
        · cases hj
          rw [h.empty hc hnew.1] at ho
          have ho : s.db.inode i = some iv := ho
          refine ⟨?_, Or.inr ⟨iv, ho⟩⟩
          show i ∈ Eff.remember s l.files (.getForUpdateInode i)
          simp [Eff.remember, ho, hnew.2]
        · obtain ⟨-, hch, -⟩ := h.count j m hm
          rw [hnew.1] at hch
          cases hch
        · exact (hkeep.pushed op hop).mono (fun j hj => by rw [hnew.1] at hj; cases hj) (fun _ _ h => h)
            fun _ h => h
      · exact hkeep

theorem readCount (h : ThreadOk g call l s) (hc : call.isUnlink = true) (hch : g.child = some i)
    (hnone : g.count = none) : ThreadOk { g with count := some (i, s.handles i) } call l s := by
  refine { h with child := fun hc' j hj => ?_, count := fun j m hm => ?_, pushed := fun op hop => ?_ }
  · obtain ⟨hm, hor⟩ := h.child hc' j hj
    rw [hnone] at hor
    exact ⟨hm, Or.inr (hor.resolve_left nofun)⟩
  · cases hm
    exact ⟨hc, hch, rfl⟩
  · exact (h.pushed op hop).mono (fun _ h => h) (fun j m hj => by rw [hnone] at hj; cases hj) fun _ h => h

theorem see (h : ThreadOk g call l s) (hi : ∀ i f, call = .openFile i f → ∃ iv, s.db.inode i = some iv) :
    ThreadOk { g with seen := true } call l s :=
  { h with
    seen := fun i f hc _ => hi i f hc
    pushed := fun op hop => (h.pushed op hop).mono (fun _ h => h) (fun _ _ h => h) fun _ h => h }

theorem push (h : ThreadOk g call l s) (cfg : Config) {op : BatchOp} (hop : g.PushOk call op)
    (hc : call.isUnlink = true → g.child ≠ none) : ThreadOk g call (l.after cfg s (.push op)) s :=
  { h with
    empty := fun hu hn => absurd hn (hc hu)
    pushed := fun o ho => by
      rcases List.mem_append.1 ho with ho | ho
      · exact h.pushed o ho
      · rw [List.mem_singleton.1 ho]
        exact hop }

/-- The debt is paid. -/
theorem paid (h : ThreadOk g call l s) (hno : ∀ i, g.owes ≠ some (i, .delete)) :
    ThreadOk { g with owes := none } call l s :=
  { h with
    owes := nofun
    pushed := fun op hop => (h.pushed op hop).mono (fun _ h => h) (fun _ _ h => h)
      fun i hi => absurd hi (hno i) }

/-- A record is deleted by a call that has found it closed, and then owes the cached copy. -/
theorem deleted (h : ThreadOk g call l s) (hdue : g.owes = Watch.due call)
    (hi : .deleteInode i ∈ l.tx.batch) : call.removes = true ∧ i ∈ l.files ∧ s.handles i = 0 ∧
      g.committed call = some (i, .forget) ∧ (call.isUnlink = true → g.count = some (i, 0)) := by
  rcases h.pushed _ hi with hc | ho
  · obtain ⟨hu, hch, hz⟩ := h.count i 0 hc
    have hm := (h.child hu i hch).1
    cases call with
    | unlink p n => exact ⟨rfl, hm, hz, by unfold Watch.committed; rw [hc], fun _ => hc⟩
    | _ => cases hu
  · obtain ⟨hr, hm, -, hz⟩ := h.owes i .delete ho
    rw [hdue] at ho
    cases call with
    | release j =>
        cases ho
        exact ⟨hr, hm, hz rfl, rfl, nofun⟩
    | _ => cases ho

/-- What the call knows after its commit. -/
theorem commit (h : ThreadOk g call l s) (hdue : g.owes = Watch.due call) {tx : Txn} (hb : tx.batch = []) :
    ThreadOk { g with entry := none, owes := g.committed call } call ⟨tx, l.files⟩
      { s with db := s.db.applyBatch l.tx.batch } := by
  have hkeep : ∀ {i iv}, s.db.inode i = some iv → (∃ iv', (s.db.applyBatch l.tx.batch).inode i = some iv') ∨
      call.removes = true ∧ (call.isUnlink = true → g.count = some (i, 0)) := by
    intro i iv hi
    cases hnew : (s.db.applyBatch l.tx.batch).inode i with
    | some iv' => exact Or.inl ⟨iv', rfl⟩
    | none =>
        rcases Db.inode_applyBatch_none hnew with hold | hdel
        · rw [hi] at hold
          cases hold
        · obtain ⟨hr, -, -, -, hc⟩ := h.deleted hdue hdel
          exact Or.inr ⟨hr, hc⟩
  refine { h with seen := fun i f hc hs => ?_, entry := nofun, child := fun hu i hi => ?_,
                  owes := fun i d ho => ?_, empty := fun _ _ => hb,
                  pushed := fun op hop => by rw [hb] at hop; cases hop }
  · obtain ⟨iv, hi⟩ := h.seen i f hc hs
    refine (hkeep hi).resolve_right fun hr => ?_
    rw [hc] at hr
    cases hr.1
  · obtain ⟨hm, hor⟩ := h.child hu i hi
    refine ⟨hm, hor.elim Or.inl fun ⟨iv, hiv⟩ => ?_⟩
    exact (hkeep hiv).elim Or.inr fun hr => Or.inl (hr.2 hu)
  · cases hcount : g.count with
    | some x =>
        obtain ⟨j, m⟩ := x
        obtain ⟨hu, hch, hm⟩ := h.count j m hcount
        have hfile := (h.child hu j hch).1
        cases call with
        | unlink p n =>
            cases m with
            | zero =>
                have ho : some (j, Debt.forget) = some (i, d) := by
                  rw [← ho]
                  unfold Watch.committed
                  rw [hcount]
                cases ho
                exact ⟨rfl, hfile, nofun, nofun⟩
            | succ m =>
                have ho : some (j, Debt.register) = some (i, d) := by
                  rw [← ho]
                  unfold Watch.committed
                  rw [hcount]
                cases ho
                exact ⟨rfl, hfile, fun _ => (show s.handles i = m + 1 from hm) ▸ Nat.succ_pos m, nofun⟩
        | _ => cases hu
    | none =>
        cases call with
        | release j =>
            have hdel : g.owes = some (j, .delete) := hdue
            cases ho
            exact ⟨rfl, (h.owes i .delete hdel).2.1, nofun, nofun⟩
        | _ =>
            unfold Watch.committed at ho
            rw [hcount] at ho
            cases ho

end ThreadOk

section Moves

variable {γ : Nat → Watch} {c : FsConf} {n : Nat} {call : Call} {l : Local} {p : Prog Eff Eff.Res Reply} {i : Inode}
  {k : Unit → Prog Eff Eff.Res Reply}

/-- `invalidate` pays the debt to the cache. -/
theorem Tended.cacheInvalidate (h : Tended γ c) (hH : HandlesApart c)
    (hn : c.threads[n]? = some ⟨call, .call (.cacheInvalidate i) k, l⟩) :
    Tended (Function.update γ n ((γ n).upd call (.cacheInvalidate i) ()))
      ⟨{ c.shared with cache := c.shared.cache.invalidate i }, c.threads.set n ⟨call, p, l⟩⟩ := by
  have hu := Unmoved.cacheInvalidate c.shared i
  have hself := (h.threads n _ hn rfl).keep hu rfl (fun _ hx => hx) fun _ hi => hi
  by_cases hg : (γ n).owes = some (i, .forget)
  · have hpaid : (γ n).upd call (.cacheInvalidate i) () = { γ n with owes := none } := if_pos hg
    rw [hpaid]
    have hself' := hself.paid fun j hj => by
      rw [hg] at hj
      cases hj
    refine h.set hH hn hu.spares hself' (fun j hj => h.handled j hj) (fun j v hv => ?_) fun j iv hj hz => ?_
    · obtain ⟨w, hw⟩ := hu.cached hv
      refine (h.cached j w hw).elim Or.inl fun ho => ?_
      refine (ho.set (X := False) hn fun d hd _ => ?_).elim Or.inr False.elim
      rw [hg] at hd
      cases hd
      have hv : (c.shared.cache.invalidate i).find i = some v := hv
      rw [InodeFoldedCache.find_invalidate, if_pos rfl] at hv
      cases hv
    · obtain ⟨hd, hor⟩ := h.orphan j iv hj hz
      refine ⟨hd, hor.imp_right fun ho => ?_⟩
      refine (ho.set (X := False) hn fun d hd hne => ?_).resolve_right id
      rw [hg] at hd
      cases hd
      exact absurd rfl hne
  · have hsame : (γ n).upd call (.cacheInvalidate i) () = γ n := if_neg hg
    rw [hsame]
    exact h.unmoved hH hn hu hself rfl

/-- What is cached has a record. -/
theorem Tended.cachePut {v : InodeValue} (h : Tended γ c) (hH : HandlesApart c)
    (hn : c.threads[n]? = some ⟨call, .call (.cachePut i v) k, l⟩) (hrec : ∃ iv, c.shared.db.inode i = some iv) :
    Tended (Function.update γ n (γ n))
      ⟨{ c.shared with cache := c.shared.cache.put i v }, c.threads.set n ⟨call, p, l⟩⟩ := by
  have howed : ∀ {P : Debt → Prop} {j : Inode}, Owed P γ c.threads j →
      Owed P (Function.update γ n (γ n)) (c.threads.set n ⟨call, p, l⟩) j := fun ho =>
    (ho.set (X := False) hn fun d hd _ => Or.inl hd).resolve_right id
  have hself := h.threads n _ hn rfl
  refine h.set hH hn ⟨fun hi => Or.inl ⟨_, hi⟩, fun _ => Or.inl rfl⟩ { hself with } h.handled
    (fun j w hw => ?_) fun j iv hj hz => ?_
  · rcases InodeFoldedCache.find_put hw with ⟨rfl, -⟩ | ⟨-, hw⟩
    · exact Or.inl hrec
    · exact (h.cached j w hw).imp_right howed
  · obtain ⟨hd, hor⟩ := h.orphan j iv hj hz
    exact ⟨hd, hor.imp_right howed⟩

/-- `unlink` registers the deletion of an open file. -/
theorem Tended.pendingInsert (h : Tended γ c) (hH : HandlesApart c)
    (hn : c.threads[n]? = some ⟨call, .call (.pendingInsert i) k, l⟩) (ho : (γ n).owes = some (i, .register)) :
    Tended (Function.update γ n { γ n with owes := none })
      ⟨{ c.shared with pendingDeletes := Function.update c.shared.pendingDeletes i true },
        c.threads.set n ⟨call, p, l⟩⟩ := by
  have hth := h.threads n _ hn rfl
  have hself := hth.paid fun j hj => by
    rw [ho] at hj
    cases hj
  refine h.set hH hn ⟨fun hi => Or.inl ⟨_, hi⟩, fun _ => Or.inl rfl⟩ { hself with } h.handled
    (fun j w hw => ?_) fun j iv hj hz => ?_
  · refine (h.cached j w hw).imp_right fun hc => ?_
    refine (hc.set (X := False) hn fun d hd he => ?_).resolve_right id
    rw [ho] at hd
    cases hd
    cases he
  · obtain ⟨hd, hor⟩ := h.orphan j iv hj hz
    refine ⟨hd, hor.elim (fun hp => Or.inl ⟨hp.1, ?_⟩) fun hc => ?_⟩
    · by_cases e : j = i
      · simp [e]
      · simpa [e] using hp.2
    · refine (hc.set hn fun d hd _ => Or.inr ?_).symm
      rw [ho] at hd
      cases hd
      exact ⟨(hth.owes i .register ho).2.2.1 rfl, by simp⟩

/-- `open` counts a handle of an inode that has a record. -/
theorem Tended.handleIncr {f : Nat} (h : Tended γ c) (hH : HandlesApart c)
    (hn : c.threads[n]? = some ⟨.openFile i f, .call (.handleIncr i) k, l⟩) (hseen : (γ n).seen = true) :
    Tended (Function.update γ n (γ n)) ⟨c.shared.handleIncr i, c.threads.set n ⟨.openFile i f, p, l⟩⟩ := by
  have howed : ∀ {P : Debt → Prop} {j : Inode}, Owed P γ c.threads j →
      Owed P (Function.update γ n (γ n)) (c.threads.set n ⟨.openFile i f, p, l⟩) j := fun ho =>
    (ho.set (X := False) hn fun d hd _ => Or.inl hd).resolve_right id
  have hth := h.threads n _ hn rfl
  have hfits : c.shared.handles i + 1 < U32_SIZE := hH.fits n _ hn rfl
  have hle : ∀ j, c.shared.handles j ≤ (c.shared.handleIncr i).handles j := by
    intro j
    rw [Server.handles_handleIncr]
    split
    · rename_i e
      rw [e, Nat.mod_eq_of_lt hfits]
      exact Nat.le_succ _
    · exact Nat.le_refl _
  have hrec : ∃ iv, c.shared.db.inode i = some iv := hth.seen i f rfl hseen
  have hself : ThreadOk (γ n) (.openFile i f) l (c.shared.handleIncr i) :=
    { hth with
      count := fun j m hm => by cases (hth.count j m hm).1
      owes := fun j d ho => by cases (hth.owes j d ho).1 }
  refine h.set hH hn ⟨fun hi => Or.inl ⟨_, hi⟩, fun j => ?_⟩ hself (fun j hj => ?_)
    (fun j w hw => (h.cached j w hw).imp_right howed) fun j iv hj hz => ?_
  · by_cases e : j = i
    · exact Or.inr (by simp [Call.touches, e])
    · exact Or.inl (by rw [Server.handles_handleIncr, if_neg e])
  · by_cases e : j = i
    · exact e ▸ hrec
    · rw [Server.handles_handleIncr, if_neg e] at hj
      exact h.handled j hj
  · obtain ⟨hd, hor⟩ := h.orphan j iv hj hz
    exact ⟨hd, hor.imp (fun hp => ⟨Nat.lt_of_lt_of_le hp.1 (hle j), hp.2⟩) howed⟩

/-- `release` takes a handle away; with the last one, a registered deletion becomes due. -/
theorem Tended.checkAndClear {k : Bool → Prog Eff Eff.Res Reply} (h : Tended γ c) (cfg : Config)
    (hH : HandlesApart c) (hn : c.threads[n]? = some ⟨.release i, .call (.checkAndClearDeferredDelete i) k, l⟩)
    (hnone : (γ n).owes = none) :
    Tended (Function.update γ n ((γ n).upd (.release i) (.checkAndClearDeferredDelete i)
        (c.shared.checkAndClearDeferredDelete i).1))
      ⟨(c.shared.checkAndClearDeferredDelete i).2,
        c.threads.set n ⟨.release i, p, l.after cfg c.shared (.checkAndClearDeferredDelete i)⟩⟩ := by
  have hth := h.threads n _ hn rfl
  have hdb : (c.shared.checkAndClearDeferredDelete i).2.db = c.shared.db := Server.checkAndClear_db _
  have hcache : (c.shared.checkAndClearDeferredDelete i).2.cache = c.shared.cache := by
    obtain ⟨_, _, hs⟩ := c.shared.checkAndClear_snd (i := i)
    rw [hs]
  have hhandles := c.shared.checkAndClear_handles (i := i)
  have howed : ∀ {P : Debt → Prop} {j : Inode} {g : Watch}, Owed P γ c.threads j → Owed P (Function.update γ n g)
      (c.threads.set n ⟨.release i, p, l.after cfg c.shared (.checkAndClearDeferredDelete i)⟩) j := by
    intro P j g ho
    refine (ho.set (X := False) hn fun d hd _ => ?_).resolve_right id
    rw [hnone] at hd
    cases hd
  have hself : ThreadOk ((γ n).upd (.release i) (.checkAndClearDeferredDelete i)
      (c.shared.checkAndClearDeferredDelete i).1) (.release i)
      (l.after cfg c.shared (.checkAndClearDeferredDelete i)) (c.shared.checkAndClearDeferredDelete i).2 := by
    cases hr : (c.shared.checkAndClearDeferredDelete i).1 with
    | false =>
        exact { hth with
          seen := fun _ _ h => by cases h
          child := fun h => by cases h
          count := fun j m hm => by cases (hth.count j m hm).1
          owes := fun j d hd => by cases hnone.symm.trans hd }
    | true =>
        refine { hth with
          seen := fun _ _ h => by cases h
          child := fun h => by cases h
          count := fun j m hm => by cases (hth.count j m hm).1
          owes := fun j d hd => ?_
          pushed := fun op hop => (hth.pushed op hop).mono (fun _ h => h) (fun _ _ h => h)
            fun j hj => by rw [hnone] at hj; cases hj }
        cases hd
        refine ⟨rfl, ?_, (fun h => by cases h), fun _ => ?_⟩
        · show i ∈ Eff.remember c.shared l.files (.checkAndClearDeferredDelete i)
          simp [Eff.remember, hr]
        · have hle := (Server.checkAndClear_true _ hr).2.1
          rw [hhandles, if_pos rfl]
          omega
  refine h.set hH hn ⟨fun {j iv} hj => Or.inl ⟨iv, by rw [hdb]; exact hj⟩, fun j => ?_⟩ hself (fun j hj => ?_)
    (fun j w hw => ?_) fun j iv hj hz => ?_
  · by_cases e : j = i
    · exact Or.inr (by simp [Call.touches, e])
    · exact Or.inl (by rw [hhandles, if_neg e])
  · rw [hdb]
    refine h.handled j ?_
    rw [hhandles] at hj
    split at hj
    · rename_i e
      rw [e]
      omega
    · exact hj
  · rw [hcache] at hw
    rw [hdb]
    exact (h.cached j w hw).imp_right howed
  · rw [hdb] at hj
    obtain ⟨hd, hor⟩ := h.orphan j iv hj hz
    refine ⟨hd, hor.elim (fun hreg => ?_) fun ho => Or.inr (howed ho)⟩
    obtain ⟨hpos, hpend⟩ := hreg
    by_cases e : j = i
    · subst e
      cases hr : (c.shared.checkAndClearDeferredDelete j).1 with
      | true => exact Or.inr (.own (d := .delete) hn rfl fun h => by cases h)
      | false =>
          obtain ⟨hsame, hne⟩ := Server.checkAndClear_false _ hr
          refine Or.inl ⟨?_, hsame ▸ hpend⟩
          have := hne hpend
          rw [hhandles, if_pos rfl]
          omega
    · refine Or.inl ⟨?_, ?_⟩
      · rw [hhandles, if_neg e]
        exact hpos
      · rw [Server.checkAndClear_pending_ne _ e]
        exact hpend

/-- A commit deletes closed files only, and what it leaves without links is owed its registration. -/
theorem Tended.commit {cfg : Config} {k : FsResult Unit → Prog Eff Eff.Res Reply} (h : Tended γ c)
    (hH : HandlesApart c) (hn : c.threads[n]? = some ⟨call, .call .commit k, l⟩)
    (hdue : (γ n).owes = Watch.due call) (hcommit : Committing cfg call l c.shared.db)
    (hpar : ∀ i ∈ call.parents, ∀ iv, (c.shared.db.applyBatch l.tx.batch).inode i = some iv →
      isDir iv.mode = true) {tx : Txn} (hb : tx.batch = []) :
    Tended (Function.update γ n { γ n with entry := none, owes := (γ n).committed call })
      ⟨{ c.shared with db := c.shared.db.applyBatch l.tx.batch },
        c.threads.set n ⟨call, p, ⟨tx, l.files⟩⟩⟩ := by
  have hth := h.threads n _ hn rfl
  have hkept : ∀ {i iv}, c.shared.db.inode i = some iv →
      (∃ iv', (c.shared.db.applyBatch l.tx.batch).inode i = some iv') ∨ .deleteInode i ∈ l.tx.batch := by
    intro i iv hi
    cases hnew : (c.shared.db.applyBatch l.tx.batch).inode i with
    | some iv' => exact Or.inl ⟨iv', rfl⟩
    | none =>
        refine Or.inr ((Db.inode_applyBatch_none hnew).resolve_left fun hold => ?_)
        rw [hi] at hold
        cases hold
  -- a record that was there without links: nothing is paid by the commit, unless the record is deleted
  have hold : ∀ {i iv iv'}, c.shared.db.inode i = some iv → iv.nlink = 0 →
      (c.shared.db.applyBatch l.tx.batch).inode i = some iv' →
      0 < c.shared.handles i ∧ c.shared.pendingDeletes i = true ∨
        Owed (· ≠ .forget) (Function.update γ n { γ n with entry := none, owes := (γ n).committed call })
          (c.threads.set n ⟨call, p, ⟨tx, l.files⟩⟩) i := by
    intro i iv iv' hi hz hi'
    refine (h.orphan i iv hi hz).2.imp_right fun ho => ?_
    refine (ho.set (X := False) hn fun d hd _ => ?_).resolve_right id
    rw [hdue] at hd
    cases call with
    | release j =>
        cases hd
        rw [hcommit.release] at hi'
        simp [Db.inode_applyOp] at hi'
    | _ => cases hd
  refine h.set hH hn ⟨fun hi => ?_, fun _ => Or.inl rfl⟩ (hth.commit hdue hb) (fun i hi => ?_)
    (fun i v hv => ?_) fun i iv hi hz => ?_
  · exact (hkept hi).imp_right fun hdel => ⟨(hth.deleted hdue hdel).1, (hth.deleted hdue hdel).2.1⟩
  · obtain ⟨iv, hiv⟩ := h.handled i hi
    refine (hkept hiv).resolve_right fun hdel => ?_
    have hz : c.shared.handles i = 0 := (hth.deleted hdue hdel).2.2.1
    exact absurd (show 0 < c.shared.handles i from hi) (by omega)
  · rcases h.cached i v hv with ⟨iv, hiv⟩ | ho
    · exact (hkept hiv).imp_right fun hdel => .own hn (hth.deleted hdue hdel).2.2.2.1 rfl
    · refine Or.inr ((ho.set (X := False) hn fun d hd he => ?_).resolve_right id)
      rw [hdue, he] at hd
      cases call <;> cases hd
  · rcases Db.inode_applyBatch_some hi with hi₀ | hput
    · exact ⟨(h.orphan i iv hi₀ hz).1, hold hi₀ hz hi⟩
    · obtain ⟨hd, hwhy⟩ := hth.pushed _ hput
      refine ⟨hd hz, ?_⟩
      rcases hwhy (hd hz) with hp | hr | ⟨hch, hcount⟩
      · rw [hpar i hp iv hi] at hd
        cases hd hz
      · obtain ⟨iv₀, iv', hi₀, hbatch, -, hl⟩ := hcommit.rewritten hr
        rw [hbatch] at hput
        cases List.mem_singleton.1 hput
        exact hold hi₀ (hl ▸ hz) hi
      · obtain ⟨m, hm⟩ := hcount hz
        have hu := (hth.count i _ hm).1
        refine Or.inr (.own (d := .register) hn ?_ nofun)
        cases call with
        | unlink q a =>
            show Watch.committed (.unlink q a) (γ n) = _
            unfold Watch.committed
            rw [hm]
        | _ => cases hu

end Moves

/-! ## Every step -/

/-- What the call is told about records is so. -/
theorem ThreadOk.answerOk {g : Watch} {call : Call} {l : Local} {s : Server} (h : ThreadOk g call l s)
    (cfg : Config) (hv : l.tx.Valid s.db s.next) (hw : s.db.Wf s.next)
    (hlinks : ∀ i iv, s.db.inode i = some iv → iv.nlink = 0 → isDir iv.mode = false) (e : Eff) :
    g.AnswerOk call e (handle cfg e (l.tx, s)).1 := by
  cases e with
  | getForUpdateInode i =>
      show g.AnswerOk call (.getForUpdateInode i) (.ok ((s.db.applyBatch l.tx.batch).inode i))
      cases ho : (s.db.applyBatch l.tx.batch).inode i with
      | none => trivial
      | some iv =>
          refine ⟨fun hz => ?_, fun hu hc v hv' hvi => ?_⟩
          · rcases Db.inode_applyBatch_some ho with hi | hput
            · exact hlinks i iv hi hz
            · exact (h.pushed _ hput).1 hz
          · obtain ⟨p, n, hm⟩ := h.entry hu hc v hv'
            rw [h.empty hu hc] at ho
            subst hvi
            exact hw.isDir_eq (hv.entry hm) ho
  | _ => trivial

/-- A record that `open` finds is there. -/
theorem Tended.found {γ : Nat → Watch} {c : FsConf} (h : Tended γ c) (hH : HandlesApart c)
    (hrun : ∀ m th, c.threads[m]? = some th → (γ m).owes ≠ none → th.result = none) {n : Nat} {i : Inode}
    {f : Nat} {th : FsThread} (hn : c.threads[n]? = some th) (hres : th.result = none)
    (htag : th.tag = .openFile i f) {v : InodeValue} (hv : c.shared.cache.find i = some v) :
    ∃ iv, c.shared.db.inode i = some iv := by
  refine (h.cached i v hv).resolve_right ?_
  rintro ⟨m, u, d, hm, ho, rfl⟩
  have hures := hrun m u hm (by rw [ho]; nofun)
  obtain ⟨hr, hfile, -⟩ := (h.threads m u hm hures).owes i .forget ho
  have hne : n ≠ m := by
    rintro rfl
    rw [hn] at hm
    cases hm
    rw [htag] at hr
    cases hr
  have halone := (hH.alone n m th u hne hn hm hres hures hr i hfile).1
  rw [htag] at halone
  simp [Call.touches] at halone

theorem Tended.act {cfg : Config} {γ : Nat → Watch} {c : FsConf} {n : Nat} {call : Call} {e : Eff}
    {k : e.Res → Prog Eff Eff.Res Reply} {l l' : Local} {r : e.Res} {s' : Server} (h : Tended γ c)
    (hH : HandlesApart c) (hi : Isolated c)
    (hrun : ∀ m th, c.threads[m]? = some th → (γ m).owes ≠ none → th.result = none)
    (hn : c.threads[n]? = some ⟨call, .call e k, l⟩) (hpre : (watching call).pre e (γ n))
    (hcpre : (contract cfg False call).pre e l)
    (ha : Acts cfg (c.threads.eraseIdx n) e l c.shared r l' s')
    (hro : Roles ⟨s', c.threads.set n ⟨call, k r, l'⟩⟩) :
    (γ n).AnswerOk call e r ∧
      Tended (Function.update γ n ((γ n).upd call e r)) ⟨s', c.threads.set n ⟨call, k r, l'⟩⟩ := by
  have hth := h.threads n _ hn rfl
  have hpre := hpre (h.tags n _ hn)
  have hv := hi.valid n _ hn
  have hlinks : ∀ i iv, c.shared.db.inode i = some iv → iv.nlink = 0 → isDir iv.mode = false :=
    fun i iv hiv hz => (h.orphan i iv hiv hz).1
  cases ha with
  | failed hf =>
      refine ⟨?_, ?_⟩
      · cases e <;> first | trivial | (cases hf; trivial)
      · cases e with
        | commit =>
            cases hf
            exact h.unmoved hH hn (.refl _) hth.dropped rfl
        | _ =>
            cases hf
            all_goals exact h.unmoved hH hn (.refl _) hth rfl
  | done hb =>
      refine ⟨hth.answerOk cfg hv hi.wf hlinks e, ?_⟩
      cases e with
      | beginWrite => exact h.unmoved hH hn (.refl _) (hth.reset rfl) rfl
      | dropBatch => exact h.unmoved hH hn (.refl _) (hth.reset rfl) rfl
      | getForUpdateDirEntry q a =>
          refine h.unmoved hH hn (.refl _) (hth.readEntry cfg q a) ?_
          show ((γ n).upd call (.getForUpdateDirEntry q a) (.ok _)).owes = _
          cases (c.shared.db.applyBatch l.tx.batch).entry q a <;> rfl
      | getForUpdateInode i =>
          refine h.unmoved hH hn (.refl _) (hth.readInode cfg i) ?_
          show ((γ n).upd call (.getForUpdateInode i) (.ok _)).owes = _
          cases (c.shared.db.applyBatch l.tx.batch).inode i with
          | none => rfl
          | some iv =>
              unfold Watch.upd
              dsimp only
              split <;> rfl
      | handleCount i =>
          obtain ⟨hu, hch, hnone⟩ := hpre
          exact h.unmoved hH hn (.refl _) (hth.readCount hu hch hnone) rfl
      | push op => exact h.unmoved hH hn (.refl _) (hth.push cfg hpre.1 hpre.2) rfl
      | cacheGet i =>
          have hu := Unmoved.cacheGet c.shared i
          have hself := hth.keep hu rfl (fun _ hx => hx) fun _ hj => hj
          obtain ⟨f, rfl⟩ := hpre
          show Tended (Function.update γ n ((γ n).upd _ (.cacheGet i) (c.shared.cache.get i).1)) _
          cases hg : (c.shared.cache.get i).1 with
          | none => exact h.unmoved hH hn hu hself rfl
          | some v =>
              rw [InodeFoldedCache.get_fst] at hg
              refine h.unmoved hH hn hu (hself.see fun j f' hj => ?_) rfl
              cases hj
              exact h.found hH hrun hn rfl rfl hg
      | getInode i =>
          obtain ⟨f, rfl⟩ := hpre
          show Tended (Function.update γ n ((γ n).upd _ (.getInode i) (.ok (c.shared.db.inode i)))) _
          cases hg : c.shared.db.inode i with
          | none => exact h.unmoved hH hn (.refl _) hth rfl
          | some iv =>
              refine h.unmoved hH hn (.refl _) (hth.see fun j f' hj => ?_) rfl
              cases hj
              exact ⟨iv, hg⟩
      | cacheApplyDeltas i ds =>
          have hu := Unmoved.cacheApplyDeltas c.shared i ds
          exact h.unmoved hH hn hu (hth.keep hu rfl (fun _ hx => hx) fun _ hj => hj) rfl
      | cacheInvalidate i => exact h.cacheInvalidate hH hn
      | cachePut i v =>
          refine h.cachePut hH hn ?_
          rcases hpre with ⟨⟨f, rfl⟩, hs⟩ | ⟨hu, hch, hne⟩
          · exact hth.seen i f rfl hs
          · exact (hth.child hu i hch).2.resolve_left hne
      | pendingInsert i => exact h.pendingInsert hH hn hpre
      | handleIncr i =>
          obtain ⟨⟨f, rfl⟩, hs⟩ := hpre
          exact h.handleIncr hH hn hs
      | checkAndClearDeferredDelete i =>
          obtain ⟨rfl, hnone⟩ := hpre
          exact h.checkAndClear cfg hH hn hnone
      | commit =>
          have hcommit : Committing cfg call l c.shared.db := hcpre _ _ hv hi.wf
          have hlt : n < c.threads.length := (List.getElem?_eq_some_iff.1 hn).1
          refine h.commit hH hn hpre hcommit (fun i hp iv hiv => ?_) rfl
          exact (hro.parents n _ (List.getElem?_set_self hlt) i hp).2 iv hiv
      | _ =>
          exact h.unmoved hH hn ⟨fun _ => rfl, fun _ => rfl, rfl, fun hj => ⟨_, hj⟩⟩
            (hth.keep ⟨fun _ => rfl, fun _ => rfl, rfl, fun hj => ⟨_, hj⟩⟩ rfl (fun _ hx => hx) fun _ hj => hj) rfl

/-! ## Runs -/

/-- A server before the calls: what is open or cached has a record, and every record has links. -/
structure Server.Tidy (s : Server) : Prop where
  starts : s.Starts
  opened : ∀ i, 0 < s.handles i → ∃ iv, s.db.inode i = some iv
  cached : ∀ i v, s.cache.find i = some v → ∃ iv, s.db.inode i = some iv
  linked : ∀ i iv, s.db.inode i = some iv → iv.nlink ≠ 0

/-- A server on which the file `1/a`, of number 2, has been created. -/
def oneFileMade : Server := ((Server.fresh {}).exec {} (.create ROOT_INODE [97] 0o644 0 0)).2

theorem oneFileMade_tidy : oneFileMade.Tidy where
  starts := by
    refine ⟨(Server.wf_fresh {}).exec {} _, fun {i q d} hd => ?_, fun _ => rfl⟩
    have hall : ∀ x ∈ oneFileMade.db.deltaEntries.toList, (ofLex x.1).1 = ROOT_INODE := by decide +kernel
    have hroot : i = ROOT_INODE := hall _ (OrdMap.mem_toList.2 hd)
    rw [hroot]
    exact (((Server.wf_fresh {}).exec {} _).db).root
  opened := fun i hi => absurd hi (Nat.lt_irrefl 0)
  cached := fun i v hv => by
    have hcache : ∃ iv ds, oneFileMade.cache = ((Server.fresh {}).cache.put 2 iv).applyDeltas ROOT_INODE ds :=
      ⟨_, _, rfl⟩
    have hstored : ∀ i ∈ [ROOT_INODE, 2], (oneFileMade.db.inode i).isSome = true := by decide +kernel
    obtain ⟨iv, ds, hcache⟩ := hcache
    rw [hcache, InodeFoldedCache.find_applyDeltas] at hv
    refine Option.isSome_iff_exists.1 (hstored i ?_)
    split at hv
    · rename_i hi
      simp [hi]
    · rcases InodeFoldedCache.find_put hv with ⟨rfl, -⟩ | ⟨-, hv⟩
      · simp
      · cases hv
  linked := fun i iv hi => by
    have hall : ∀ x ∈ oneFileMade.db.inodes.toList, x.2.nlink ≠ 0 := by decide +kernel
    exact hall _ (OrdMap.mem_toList.2 hi)

/-- The calls are `open`, `unlink` in existing directories, and `release`. -/
def opensAndUnlinks (s : Server) (call : Call) : Prop := call.onHandles = true ∧ call.ParentsExist s.db

instance (s : Server) (call : Call) : Decidable (opensAndUnlinks s call) :=
  inferInstanceAs (Decidable (_ ∧ _))

/-- `open` loads the record, `unlink` finds no handle and deletes it, `open` counts its handle. -/
def unlinkedInOpen : List (Choice Call) :=
  [.start (.openFile 2 0), .start (.unlink ROOT_INODE [97]), .run 0] ++ List.replicate 18 (.run 1) ++
    [.run 0, .run 0]

/-- `unlink` finds the handle and commits, `release` takes it away and finds no registration, `unlink`
registers the inode. -/
def releasedInUnlink : List (Choice Call) :=
  [.start (.openFile 2 0), .run 0, .run 0, .run 0, .start (.unlink ROOT_INODE [97])] ++
    List.replicate 13 (.run 1) ++ [.start (.release 2), .run 2] ++ List.replicate 5 (.run 1)

/-- All calls have returned without error: once an open file is left without its record, and once a record
without links and without handles is left. -/
theorem handle_left_behind :
    (∃ c, Reach (fsSystem {} opensAndUnlinks) (fun _ => True) ⟨oneFileMade, []⟩ c ∧
      c.threads.map (fun th => th.result.map Reply.isOk) = [some true, some true] ∧
      c.shared.handles 2 = 1 ∧ c.shared.db.inode 2 = none) ∧
    ∃ c, Reach (fsSystem {} opensAndUnlinks) (fun _ => True) ⟨oneFileMade, []⟩ c ∧
      c.threads.map (fun th => th.result.map Reply.isOk) = [some true, some true, some true] ∧
      c.shared.handles 2 = 0 ∧ (c.shared.db.inode 2).map (·.nlink) = some 0 := by
  have hopen : ((fsScheduler {} opensAndUnlinks (fun _ => True)).run unlinkedInOpen ⟨oneFileMade, []⟩).map
      (fun c => decide (c.threads.map (fun th => th.result.map Reply.isOk) = [some true, some true] ∧
        c.shared.handles 2 = 1 ∧ c.shared.db.inode 2 = none)) = some true := by decide +kernel
  have hrelease : ((fsScheduler {} opensAndUnlinks (fun _ => True)).run releasedInUnlink ⟨oneFileMade, []⟩).map
      (fun c => decide (c.threads.map (fun th => th.result.map Reply.isOk) = [some true, some true, some true] ∧
        c.shared.handles 2 = 0 ∧ (c.shared.db.inode 2).map (·.nlink) = some 0)) = some true := by
    decide +kernel
  obtain ⟨a, ha, hva⟩ := Option.map_eq_some_iff.1 hopen
  obtain ⟨b, hb, hvb⟩ := Option.map_eq_some_iff.1 hrelease
  exact ⟨⟨a, fsScheduler_reach {} _ _ unlinkedInOpen trivial ha, of_decide_eq_true hva⟩,
    b, fsScheduler_reach {} _ _ releasedInUnlink trivial hb, of_decide_eq_true hvb⟩

theorem ThreadOk.init (call : Call) (s : Server) : ThreadOk {} call {} s where
  seen := nofun
  entry := nofun
  child := nofun
  count := nofun
  owes := nofun
  empty := fun _ _ => rfl
  pushed := nofun

theorem Tended.of_server {s : Server} (hs : s.Tidy) : Tended (fun _ => {}) ⟨s, []⟩ where
  handled := hs.opened
  cached := fun i v hv => Or.inl (hs.cached i v hv)
  orphan := fun i iv hi hz => absurd hz (hs.linked i iv hi)
  threads := fun n th hn => by simp at hn
  tags := fun n th hn => by simp at hn

theorem Owed.append {P : Debt → Prop} {γ : Nat → Watch} {ts : List FsThread} {i : Inode} (h : Owed P γ ts i)
    (g : Watch) (th' : FsThread) : Owed P (Function.update γ ts.length g) (ts ++ [th']) i := by
  obtain ⟨n, th, d, hn, ho, hd⟩ := h
  have hlt : n < ts.length := (List.getElem?_eq_some_iff.1 hn).1
  refine ⟨n, th, d, ?_, ?_, hd⟩
  · rw [List.getElem?_append_left hlt]
    exact hn
  · rw [Function.update_of_ne (Nat.ne_of_lt hlt)]
    exact ho

theorem Tended.start {cfg : Config} {γ : Nat → Watch} {c : FsConf} {call : Call} (h : Tended γ c)
    (hc : call.onHandles = true) : Tended (Function.update γ c.threads.length {})
      ⟨c.shared, c.threads ++ [(fsSystem cfg opensAndUnlinks).spawn call]⟩ where
  handled := h.handled
  cached := fun i v hv => (h.cached i v hv).imp_right fun ho => ho.append _ _
  orphan := fun i iv hi hz => (h.orphan i iv hi hz).imp_right (Or.imp_right fun ho => ho.append _ _)
  threads := fun m th hm hth => by
    rcases getElem?_append_cases hm with ⟨rfl, rfl⟩ | ⟨hne, hm⟩
    · rw [Function.update_self]
      exact .init call c.shared
    · rw [Function.update_of_ne hne]
      exact h.threads m th hm hth
  tags := h.tags.append hc

section

variable {cfg : Config} {s₀ : Server} {c : FsConf}

/-- A call that has returned owes nothing. -/
theorem Watch.Settled.owes_none {g : Watch} {th : FsThread} {r : Reply} (h : g.Settled th.tag r)
    (hc : th.tag.onHandles = true) (hres : th.result = some r) (hok : releaseFailed th = false) :
    g.owes = none := by
  refine h hc ?_
  unfold releaseFailed at hok
  cases htag : th.tag with
  | openFile i f => exact Or.inr (Or.inr nofun)
  | unlink p n => exact Or.inr (Or.inl rfl)
  | release i =>
      rw [htag, hres] at hok
      exact Or.inl (by simpa using hok)
  | _ =>
      rw [htag] at hc
      cases hc

theorem tended_of_reach (h₀ : s₀.Tidy) (h : Reach (fsSystem cfg opensAndUnlinks) HandlesApart ⟨s₀, []⟩ c) :
    ∃ γ, Tended γ c ∧ ∀ m th, c.threads[m]? = some th → (γ m).owes ≠ none → th.result = none := by
  have hrun : ∀ {c : FsConf} {γ : Nat → Watch}, HandlesApart c → Tended γ c →
      (∀ m th, c.threads[m]? = some th → wp (watching th.tag) th.prog (Watch.Settled th.tag) (γ m)) →
      ∀ m th, c.threads[m]? = some th → (γ m).owes ≠ none → th.result = none := by
    intro c γ hH hJ hwp m th hm ho
    have hth := hwp m th hm
    obtain ⟨tag, prog, loc⟩ := th
    cases prog with
    | call e k => rfl
    | ret r => exact absurd (Watch.Settled.owes_none hth (hJ.tags m _ hm) rfl (hH.released m _ hm)) ho
  refine (Reach.ghost watching Watch.Settled {} Tended rfl (.of_server h₀) (watches cfg)
    (fun _ hJ hadm _ => hJ.start hadm.1) ?_ h).imp fun γ hJ => ⟨hJ.1, hrun h.hyp hJ.1 hJ.2⟩
  intro γ c n call e k l l' r s' hr hJ hwp hn hpre ha hH
  obtain ⟨⟨hro, hi⟩, hcon⟩ := roles_of_reach h₀.starts (fun _ _ hadm => hadm.2) hr
  have hcpre := (hcon _ (List.mem_of_getElem? hn)).1
  obtain ⟨hans, hJ'⟩ := hJ.act hr.hyp hi (hrun hr.hyp hJ hwp) hn hpre hcpre ha (hro.act hi hn hcpre ha)
  exact ⟨_, ⟨rfl, fun _ => hans⟩, hJ'⟩

/-- **Deferred deletion loses nothing and leaves nothing behind** while no `open` or `release` of an inode
runs next to a call that is removing it: when no call is in progress, a record without links is open, and an
open file has its record. -/
theorem handles_tended (h₀ : s₀.Tidy) (h : Reach (fsSystem cfg opensAndUnlinks) HandlesApart ⟨s₀, []⟩ c)
    (hdone : ∀ th ∈ c.threads, th.result ≠ none) :
    (∀ i iv, c.shared.db.inode i = some iv → iv.nlink = 0 → 0 < c.shared.handles i) ∧
    ∀ i, 0 < c.shared.handles i → ∃ iv, c.shared.db.inode i = some iv := by
  obtain ⟨γ, hJ, hrun⟩ := tended_of_reach h₀ h
  refine ⟨fun i iv hi hz => ?_, hJ.handled⟩
  rcases (hJ.orphan i iv hi hz).2 with hopen | ⟨m, th, d, hm, ho, -⟩
  · exact hopen.1
  · exact absurd (hrun m th hm (by rw [ho]; nofun)) (hdone th (List.mem_of_getElem? hm))

end

/-- `unlink` has read its entry when `open` runs, and then defers the deletion. -/
def openedInUnlink : List (Choice Call) :=
  [.start (.unlink ROOT_INODE [97]), .run 0, .run 0, .start (.openFile 2 0), .run 1, .run 1, .run 1] ++
    List.replicate 16 (.run 0)

theorem handles_tended_deferred : ∃ c,
    Reach (fsSystem {} opensAndUnlinks) HandlesApart ⟨oneFileMade, []⟩ c ∧
    (∀ th ∈ c.threads, th.result ≠ none) ∧ (c.shared.db.inode 2).map (·.nlink) = some 0 ∧
    (∀ i iv, c.shared.db.inode i = some iv → iv.nlink = 0 → 0 < c.shared.handles i) ∧
    ∀ i, 0 < c.shared.handles i → ∃ iv, c.shared.db.inode i = some iv := by
  have hrun : ((fsScheduler {} opensAndUnlinks HandlesApart).run openedInUnlink ⟨oneFileMade, []⟩).map
      (fun c => decide ((∀ th ∈ c.threads, th.result ≠ none) ∧
        (c.shared.db.inode 2).map (·.nlink) = some 0)) = some true := by decide +kernel
  obtain ⟨c, hc, hv⟩ := Option.map_eq_some_iff.1 hrun
  have hreach := fsScheduler_reach {} _ HandlesApart openedInUnlink (by decide) hc
  obtain ⟨hdone, hlinks⟩ := of_decide_eq_true hv
  exact ⟨c, hreach, hdone, hlinks, handles_tended oneFileMade_tidy hreach hdone⟩

end RucksFs
