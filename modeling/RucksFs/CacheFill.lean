import RucksFs.Server.CacheSteps
import RucksFs.Server.Numbers

/-!
# A load next to a writer

`load_inode` reads the base, scans the deltas and fills the cache in three steps; a writer on the same inode
commits and brings the cached copy up to date in two.  Neither holds a lock over its steps.

* `fill_outdated` — a load that falls between the two steps of a writer, or around them, leaves a cached copy
  that misses deltas, or has them twice, or belongs to a removed inode.
* `Filling` — what is cached is what is stored, up to what a writer between its commit and its cache step
  still owes.
* `fill_coherent` — while no load is under way next to a writer that has committed and not returned, loads
  and a writer leave the stored value in the cache, or none.
-/

set_option autoImplicit false

namespace RucksFs

open Prog

/-! ## Conditions on a run -/

/-- Loads of `i` and the writer `w`. -/
def loadsAndWriter (i : Inode) (w : Call) (_ : Server) (call : Call) : Prop := call = .getattr i ∨ call = w

/-- The call is about to do what comes after a commit. -/
def pastCommit (th : FsThread) : Bool :=
  match th.nextEff with
  | some e => e.afterCommit
  | none => false

/-- A load of `i` has read the base and not yet filled the cache. -/
def midway (i : Inode) (th : FsThread) : Bool :=
  match th.nextEff with
  | some (.scanDeltas _) | some (.cachePut _ _) => th.tag == .getattr i
  | _ => false

def failedCreation (th : FsThread) : Bool :=
  match th.result with
  | some r => th.tag.creates.isSome && !th.tag.isLink && !r.isOk
  | none => false

/-- One writer, whose time from its commit to its return is not in the middle of a load; a creation does not
fail. -/
structure LoadsApart (i : Inode) (w : Call) (c : FsConf) : Prop where
  one : Apart (fun a b : FsThread => a.tag = w → b.tag ≠ w) c.threads
  windows : ∀ a ∈ c.threads, ∀ b ∈ c.threads, midway i a = true → b.tag = w → pastCommit b = false
  stored : Pool (fun th : FsThread => failedCreation th = false) c.threads

instance (i : Inode) (w : Call) : DecidablePred (LoadsApart i w) := fun c =>
  decidable_of_iff (Apart (fun a b : FsThread => a.tag = w → b.tag ≠ w) c.threads ∧
      (∀ a ∈ c.threads, ∀ b ∈ c.threads, midway i a = true → b.tag = w → pastCommit b = false) ∧
      Pool (fun th : FsThread => failedCreation th = false) c.threads)
    ⟨fun h => ⟨h.1, h.2.1, h.2.2⟩, fun h => ⟨h.1, h.2, h.3⟩⟩

instance (i : Inode) (w : Call) (s : Server) (call : Call) : Decidable (loadsAndWriter i w s call) :=
  inferInstanceAs (Decidable (_ ∨ _))

/-- `mkdir` commits and updates the cache between the scan of a load and its put. -/
def filledAfterApply : List (Choice Call) :=
  [.start (.getattr ROOT_INODE), .start (.mkdir ROOT_INODE [97] 0o755 0 0), .run 0, .run 0, .run 0] ++
    List.replicate 18 (.run 1) ++ [.run 0]

/-- A load between the commit of `mkdir` and its cache step. -/
def filledBeforeApply : List (Choice Call) :=
  .start (.mkdir ROOT_INODE [97] 0o755 0 0) :: List.replicate 13 (.run 0) ++
    .start (.getattr ROOT_INODE) :: List.replicate 4 (.run 1) ++ List.replicate 5 (.run 0)

/-- A restarted server on which the file `1/a`, of number 2, exists and is not cached. -/
def oneFileCold : Server :=
  Server.new {} ((Server.fresh {}).exec {} (.create ROOT_INODE [97] 0o644 0 0)).2.db 0

/-- `unlink` removes a file between the scan of a load and its put. -/
def filledAfterRemoval : List (Choice Call) :=
  [.start (.getattr 2), .start (.unlink ROOT_INODE [97]), .run 0, .run 0, .run 0] ++
    List.replicate 18 (.run 1) ++ [.run 0]

/-- Both calls have returned without error, the root has three links, and the cached copy has two, or four;
or the inode has been removed and is cached. -/
theorem fill_outdated :
    (∃ c, Reach (fsSystem {} (loadsAndWriter ROOT_INODE (.mkdir ROOT_INODE [97] 0o755 0 0))) (fun _ => True)
        ⟨Server.fresh {}, []⟩ c ∧ c.threads.map (fun th => th.result.map Reply.isOk) = [some true, some true] ∧
      (c.shared.db.effective ROOT_INODE).map (·.nlink) = some 3 ∧
      (c.shared.cache.find ROOT_INODE).map (·.nlink) = some 2) ∧
    (∃ c, Reach (fsSystem {} (loadsAndWriter ROOT_INODE (.mkdir ROOT_INODE [97] 0o755 0 0))) (fun _ => True)
        ⟨Server.fresh {}, []⟩ c ∧ c.threads.map (fun th => th.result.map Reply.isOk) = [some true, some true] ∧
      (c.shared.db.effective ROOT_INODE).map (·.nlink) = some 3 ∧
      (c.shared.cache.find ROOT_INODE).map (·.nlink) = some 4) ∧
    ∃ c, Reach (fsSystem {} (loadsAndWriter 2 (.unlink ROOT_INODE [97]))) (fun _ => True) ⟨oneFileCold, []⟩ c ∧
      c.threads.map (fun th => th.result.map Reply.isOk) = [some true, some true] ∧
      c.shared.db.inode 2 = none ∧ (c.shared.cache.find 2).isSome = true := by
  have hafter : ((fsScheduler {} (loadsAndWriter ROOT_INODE (.mkdir ROOT_INODE [97] 0o755 0 0)) (fun _ => True)).run
      filledAfterApply ⟨Server.fresh {}, []⟩).map (fun c =>
        decide (c.threads.map (fun th => th.result.map Reply.isOk) = [some true, some true] ∧
          (c.shared.db.effective ROOT_INODE).map (·.nlink) = some 3 ∧
          (c.shared.cache.find ROOT_INODE).map (·.nlink) = some 2)) = some true := by decide +kernel
  have hbefore : ((fsScheduler {} (loadsAndWriter ROOT_INODE (.mkdir ROOT_INODE [97] 0o755 0 0)) (fun _ => True)).run
      filledBeforeApply ⟨Server.fresh {}, []⟩).map (fun c =>
        decide (c.threads.map (fun th => th.result.map Reply.isOk) = [some true, some true] ∧
          (c.shared.db.effective ROOT_INODE).map (·.nlink) = some 3 ∧
          (c.shared.cache.find ROOT_INODE).map (·.nlink) = some 4)) = some true := by decide +kernel
  have hremoved : ((fsScheduler {} (loadsAndWriter 2 (.unlink ROOT_INODE [97])) (fun _ => True)).run
      filledAfterRemoval ⟨oneFileCold, []⟩).map (fun c =>
        decide (c.threads.map (fun th => th.result.map Reply.isOk) = [some true, some true] ∧
          c.shared.db.inode 2 = none ∧ (c.shared.cache.find 2).isSome = true)) = some true := by decide +kernel
  obtain ⟨a, ha, hva⟩ := Option.map_eq_some_iff.1 hafter
  obtain ⟨b, hb, hvb⟩ := Option.map_eq_some_iff.1 hbefore
  obtain ⟨d, hd, hvd⟩ := Option.map_eq_some_iff.1 hremoved
  exact ⟨⟨a, fsScheduler_reach {} _ _ filledAfterApply trivial ha, of_decide_eq_true hva⟩,
    ⟨b, fsScheduler_reach {} _ _ filledBeforeApply trivial hb, of_decide_eq_true hvb⟩,
    d, fsScheduler_reach {} _ _ filledAfterRemoval trivial hd, of_decide_eq_true hvd⟩

/-! ## The invariant -/

/-- With what is owed, the cached copy is the stored value. -/
def CacheDebt.Holds (i : Inode) (s : Server) : CacheDebt → Prop
  | .apply ds => ∀ v, s.cache.find i = some v → s.db.effective i = some (foldDeltas v ds)
  | .forget => True

/-- What a load has read is still stored. -/
def CacheWatch.Fresh (i : Inode) (s : Server) (g : CacheWatch) : Prop :=
  (∀ b, g.base = some b → s.db.inode i = some b) ∧ ∀ v, g.value = some v → s.db.effective i = some v

def CacheWatch.Loading (g : CacheWatch) : Prop := g.base ≠ none ∨ g.value ≠ none

/-- What the running writer has taken and written. -/
structure WriterOk (i : Inode) (w : Call) (g : CacheWatch) (l : Local) (s : Server) : Prop where
  taken : g.taken = (numbersOf i l.tx.seqs).map (·.2)
  sorted : (numbersOf i l.tx.seqs).Pairwise fun x y => x.1 < y.1
  above : ∀ x ∈ numbersOf i l.tx.seqs, x.1 < s.seqs i ∧ ∀ q d, s.db.delta i q = some d → q < x.1
  clean : g.clean = true → l.tx.batch = []
  pushed : i ∈ w.parents → ∀ op ∈ l.tx.batch, op.row ≠ .inode i
  idle : g.base = none ∧ g.value = none

/-- What the writer owes; nothing before it starts. -/
def Owing (w : Call) (γ : Nat → CacheWatch) (ts : List FsThread) (D : CacheDebt) : Prop :=
  (∃ (n : Nat) (th : FsThread), ts[n]? = some th ∧ th.tag = w ∧ (γ n).owes = D) ∨ (∀ (n : Nat) (th : FsThread), ts[n]? = some th → th.tag ≠ w) ∧
    D = .apply []

/-- The writer has not committed. -/
def Uncommitted (w : Call) (γ : Nat → CacheWatch) (ts : List FsThread) : Prop :=
  ∀ n th, ts[n]? = some th → th.tag = w → (γ n).committed = false

/-- **The cached copy is what is stored**, up to what the writer owes. -/
structure Filling (s₀ : Server) (i : Inode) (w : Call) (γ : Nat → CacheWatch) (c : FsConf) : Prop where
  debt : ∀ D, Owing w γ c.threads D → D.Holds i c.shared
  loads : ∀ n th, c.threads[n]? = some th → th.result = none → (γ n).Loading →
    (γ n).Fresh i c.shared ∧ ∀ D, Owing w γ c.threads D → D = .apply []
  writer : ∀ n th, c.threads[n]? = some th → th.tag = w → th.result = none →
    WriterOk i w (γ n) th.loc c.shared
  stored : ∀ q d, c.shared.db.delta i q = some d → q < c.shared.seqs i
  same : Uncommitted w γ c.threads →
    c.shared.db.inodes = s₀.db.inodes ∧ c.shared.db.dirEntries = s₀.db.dirEntries
  handles : (∃ p n, w = .unlink p n) → c.shared.openHandles = s₀.openHandles
  next : s₀.next ≤ c.shared.next
  tags : Pool (fun th : FsThread => th.tag = .getattr i ∨ th.tag = w) c.threads

section Owing

variable {w : Call} {γ : Nat → CacheWatch} {ts : List FsThread} {n : Nat} {th th' : FsThread}
  {g : CacheWatch} {D : CacheDebt}

theorem Owing.of_set_other (hn : ts[n]? = some th) (ht : th.tag ≠ w) (ht' : th'.tag ≠ w)
    (h : Owing w (Function.update γ n g) (ts.set n th') D) : Owing w γ ts D := by
  rcases h with ⟨m, u, hm, hu, ho⟩ | ⟨hno, hD⟩
  · rcases getElem?_set_cases hm with ⟨rfl, rfl⟩ | ⟨hne, hm⟩
    · exact absurd hu ht'
    · rw [Function.update_of_ne hne] at ho
      exact Or.inl ⟨m, u, hm, hu, ho⟩
  · refine Or.inr ⟨fun m u hm => ?_, hD⟩
    by_cases hmn : m = n
    · subst hmn
      rw [hn] at hm
      cases hm
      exact ht
    · exact hno m u (by rw [List.getElem?_set_ne (Ne.symm hmn)]; exact hm)

theorem Owing.of_set_writer (hone : Apart (fun a b : FsThread => a.tag = w → b.tag ≠ w) ts)
    (hn : ts[n]? = some th) (ht : th.tag = w) (ht' : th'.tag = w)
    (h : Owing w (Function.update γ n g) (ts.set n th') D) : D = g.owes := by
  have hlt : n < ts.length := (List.getElem?_eq_some_iff.1 hn).1
  rcases h with ⟨m, u, hm, hu, ho⟩ | ⟨hno, -⟩
  · rcases getElem?_set_cases hm with ⟨rfl, rfl⟩ | ⟨hne, hm⟩
    · rw [Function.update_self] at ho
      exact ho.symm
    · exact absurd hu (hone n m th u (Ne.symm hne) hn hm ht)
  · exact absurd ht' (hno n th' (List.getElem?_set_self hlt))

theorem Owing.writer (γ : Nat → CacheWatch) (hn : ts[n]? = some th) (ht : th.tag = w) : Owing w γ ts (γ n).owes :=
  Or.inl ⟨n, th, hn, ht, rfl⟩

theorem Owing.exists (w : Call) (γ : Nat → CacheWatch) (ts : List FsThread) : ∃ D, Owing w γ ts D := by
  by_cases hex : ∃ (n : Nat) (th : FsThread), ts[n]? = some th ∧ th.tag = w
  · obtain ⟨n, th, hn, ht⟩ := hex
    exact ⟨_, .writer γ hn ht⟩
  · exact ⟨_, Or.inr ⟨fun n th hn ht => hex ⟨n, th, hn, ht⟩, rfl⟩⟩

theorem Uncommitted.of_set_writer (hone : Apart (fun a b : FsThread => a.tag = w → b.tag ≠ w) ts)
    (hn : ts[n]? = some th) (ht : th.tag = w) (hγ : (γ n).committed = false) : Uncommitted w γ ts := by
  intro m u hm hu
  by_cases hmn : m = n
  · rw [hmn]
    exact hγ
  · exact absurd hu (hone n m th u (Ne.symm hmn) hn hm ht)

end Owing

/-! ## Windows -/

section Windows

variable {s₀ : Server} {i : Inode} {u : FsThread} {g : CacheWatch}

/-- A writer that is not past its commit, or has returned, owes nothing. -/
theorem owes_of_not_past (hw : WriterOn s₀ i u.tag)
    (hwp : wp (cacheSteps s₀ i u.tag) u.prog (CacheWatch.Settled s₀ i u.tag) g)
    (hp : pastCommit u = false) (hf : failedCreation u = false) : g.owes = .apply [] := by
  obtain ⟨tag, prog, loc⟩ := u
  cases prog with
  | ret r =>
      refine hwp hw ?_
      have hf : (tag.creates.isSome && !tag.isLink && !r.isOk) = false := hf
      cases hc : tag.creates with
      | none => exact Or.inl rfl
      | some x =>
          rw [hc] at hf
          refine Or.inr ?_
          cases hl : tag.isLink with
          | true => exact Or.inl rfl
          | false =>
              rw [hl] at hf
              exact Or.inr (by simpa using hf)
  | call e k =>
      by_contra hne
      have hafter : e.afterCommit = true := (hwp.1.2 hw).1 hne
      have hp : e.afterCommit = false := hp
      rw [hafter] at hp
      cases hp

theorem midway_of_loading {Q : Reply → CacheWatch → Prop} (htag : u.tag = .getattr i)
    (hwp : wp (cacheSteps s₀ i (.getattr i)) u.prog Q g) (hres : u.result = none) (hg : g.Loading) :
    midway i u = true := by
  obtain ⟨tag, prog, loc⟩ := u
  cases htag
  cases prog with
  | ret r => cases hres
  | call e k =>
      have hpre : g.LoadPre i e := hwp.1.1 rfl
      cases e with
      | scanDeltas j => simp [midway, Thread.nextEff]
      | cachePut j v => simp [midway, Thread.nextEff]
      | cacheGet j => exact absurd hg (by simp [CacheWatch.Loading, hpre.2.1, hpre.2.2])
      | getInode j => exact absurd hg (by simp [CacheWatch.Loading, hpre.2.1, hpre.2.2])
      | _ => exact hpre.elim

end Windows

/-! ## Steps of a load -/

section Steps

variable {cfg : Config} {s₀ : Server} {i : Inode} {w : Call} {γ : Nat → CacheWatch} {c : FsConf} {n : Nat}
  {e : Eff} {k : e.Res → Prog Eff Eff.Res Reply} {l l' : Local} {p : Prog Eff Eff.Res Reply}
  {g' : CacheWatch} {s' : Server}

theorem Filling.read (h : Filling s₀ i w γ c) (hwl : w ≠ .getattr i)
    (hn : c.threads[n]? = some ⟨.getattr i, .call e k, l⟩) {x : InodeFoldedCache}
    (hfind : ∀ D, Owing w γ c.threads D → D.Holds i { c.shared with cache := x })
    (hself : (⟨.getattr i, p, l'⟩ : FsThread).result = none → g'.Loading →
      g'.Fresh i c.shared ∧ ∀ D, Owing w γ c.threads D → D = .apply []) :
    Filling s₀ i w (Function.update γ n g')
      ⟨{ c.shared with cache := x }, c.threads.set n ⟨.getattr i, p, l'⟩⟩ := by
  have howing : ∀ {D}, Owing w (Function.update γ n g') (c.threads.set n ⟨.getattr i, p, l'⟩) D →
      Owing w γ c.threads D := fun h => h.of_set_other hn (Ne.symm hwl) (Ne.symm hwl)
  refine ⟨fun D hD => hfind D (howing hD), fun m u hm hres hload => ?_, fun m u hm hu hres => ?_, h.stored,
    fun hun => h.same fun m u hm hu => ?_, h.handles, h.next, ?_⟩
  · rcases getElem?_set_cases hm with ⟨rfl, rfl⟩ | ⟨hne, hm⟩
    · rw [Function.update_self] at hload ⊢
      exact (hself hres hload).imp_right fun hD D h => hD D (howing h)
    · rw [Function.update_of_ne hne] at hload ⊢
      exact (h.loads m u hm hres hload).imp_right fun hD D h => hD D (howing h)
  · rcases getElem?_set_cases hm with ⟨rfl, rfl⟩ | ⟨hne, hm⟩
    · exact absurd hu.symm hwl
    · rw [Function.update_of_ne hne]
      exact { h.writer m u hm hu hres with }
  · have hne : m ≠ n := by
      rintro rfl
      rw [hn] at hm
      cases hm
      exact hwl hu.symm
    have := hun m u (by rw [List.getElem?_set_ne (Ne.symm hne)]; exact hm) hu
    rwa [Function.update_of_ne hne] at this
  · exact h.tags.set (Or.inl rfl) fun _ _ _ _ hu => hu

/-- Every step of a load. -/
theorem Filling.load {r : e.Res} (h : Filling s₀ i w γ c) (hwl : w ≠ .getattr i)
    (hn : c.threads[n]? = some ⟨.getattr i, .call e k, l⟩) (hpre : (γ n).LoadPre i e)
    (ha : Acts cfg (c.threads.eraseIdx n) e l c.shared r l' s')
    (hcalm : (⟨.getattr i, k r, l'⟩ : FsThread).result = none → ((γ n).upd i (.getattr i) e r).Loading →
      ∀ D, Owing w γ c.threads D → D = .apply []) :
    Filling s₀ i w (Function.update γ n ((γ n).upd i (.getattr i) e r))
      ⟨s', c.threads.set n ⟨.getattr i, k r, l'⟩⟩ := by
  have hkeep : ∀ {g : CacheWatch} {p : Prog Eff Eff.Res Reply} {l' : Local} {x : InodeFoldedCache},
      (∀ j v, x.find j = some v → c.shared.cache.find j = some v) → (g.Loading → g = γ n) →
      Filling s₀ i w (Function.update γ n g) ⟨{ c.shared with cache := x }, c.threads.set n ⟨.getattr i, p, l'⟩⟩ := by
    intro g p l' x hx hg
    refine h.read hwl hn (fun D hD => ?_) fun _ hload => ?_
    · have hold := h.debt D hD
      cases D with
      | apply ds => exact fun v hv => hold v (hx i v hv)
      | forget => trivial
    · cases hg hload
      exact h.loads n _ hn rfl hload
  cases ha with
  | failed hf =>
      cases e with
      | getInode j =>
          cases hf
          exact hkeep (fun _ _ hv => hv) fun _ => rfl
      | scanDeltas j =>
          cases hf
          exact hkeep (fun _ _ hv => hv) fun _ => rfl
      | cacheGet j => cases hf
      | cachePut j v => cases hf
      | _ => exact hpre.elim
  | done hb =>
      cases e with
      | cacheGet j =>
          refine hkeep (fun j' v hv => ?_) fun _ => rfl
          rw [InodeFoldedCache.find_get] at hv
          exact hv
      | getInode j =>
          obtain ⟨rfl, hbase, hvalue⟩ := hpre
          refine h.read hwl hn (fun D hD => h.debt D hD) fun hres hload => ⟨?_, hcalm hres hload⟩
          show ((γ n).upd j (.getattr j) (.getInode j) (.ok (c.shared.db.inode j))).Fresh j c.shared
          cases ho : c.shared.db.inode j with
          | none => exact ⟨fun b hb => (nomatch hbase.symm.trans hb), fun v hv => nomatch hvalue.symm.trans hv⟩
          | some b =>
              refine ⟨fun b' hb' => ?_, fun v hv => nomatch hvalue.symm.trans hv⟩
              cases hb'
              exact ho
      | scanDeltas j =>
          obtain ⟨rfl, hbase, hvalue⟩ := hpre
          obtain ⟨⟨hfresh, -⟩, -⟩ := h.loads n _ hn rfl (Or.inl hbase)
          refine h.read hwl hn (fun D hD => h.debt D hD) fun hres hload => ⟨⟨nofun, fun v hv => ?_⟩, hcalm hres hload⟩
          obtain ⟨b, hb, rfl⟩ := Option.map_eq_some_iff.1 hv
          unfold Db.effective
          rw [hfresh b hb]
          rfl
      | cachePut j v =>
          obtain ⟨rfl, hbase, hvalue⟩ := hpre
          obtain ⟨⟨-, hfresh⟩, hnone⟩ := h.loads n _ hn rfl (Or.inr (by rw [hvalue]; nofun))
          refine h.read hwl hn (fun D hD => ?_) fun _ hload => ?_
          · have hold := h.debt D hD
            cases hnone D hD
            intro v' hv'
            rcases InodeFoldedCache.find_put hv' with ⟨-, rfl⟩ | ⟨hne, -⟩
            · exact hfresh _ hvalue
            · exact absurd rfl hne
          · rcases hload with hl | hl
            · exact absurd hbase hl
            · exact absurd rfl hl
      | _ => exact hpre.elim

/-! ## Steps of the writer -/

/-- What is stored of `i` stays, and nothing new of it is cached. -/
structure Still (i : Inode) (s s' : Server) : Prop where
  inodes : s'.db.inodes = s.db.inodes
  dirEntries : s'.db.dirEntries = s.db.dirEntries
  delta : ∀ q, s'.db.delta i q = s.db.delta i q
  deltas : s'.db.deltas i = s.db.deltas i
  seqs : s'.seqs i = s.seqs i
  cached : ∀ v, s'.cache.find i = some v → s.cache.find i = some v

theorem Still.refl (s : Server) : Still i s s := ⟨rfl, rfl, fun _ => rfl, rfl, rfl, fun _ h => h⟩

theorem Still.inode {s s' : Server} (h : Still i s s') : s'.db.inode i = s.db.inode i := by
  unfold Db.inode
  rw [h.inodes]

theorem Still.effective {s s' : Server} (h : Still i s s') : s'.db.effective i = s.db.effective i :=
  Db.effective_congr h.inode h.deltas

theorem Still.holds {s s' : Server} (h : Still i s s') {D : CacheDebt} (hD : D.Holds i s) : D.Holds i s' := by
  cases D with
  | apply ds =>
      intro v hv
      rw [h.effective]
      exact hD v (h.cached v hv)
  | forget => trivial

theorem WriterOk.still {g : CacheWatch} {s : Server} (h : WriterOk i w g l s) (hs : Still i s s')
    (hseqs : l'.tx.seqs = l.tx.seqs) (hbatch : l'.tx.batch = l.tx.batch) : WriterOk i w g l' s' where
  taken := hseqs ▸ h.taken
  sorted := hseqs ▸ h.sorted
  above := by
    rw [hseqs, hs.seqs]
    simp only [hs.delta]
    exact h.above
  clean := hbatch ▸ h.clean
  pushed := hbatch ▸ h.pushed
  idle := h.idle

/-- Between transactions. -/
theorem WriterOk.reset {g g₁ : CacheWatch} {s s₁ : Server} {tx : Txn} (h : WriterOk i w g l s)
    (hg : g₁.taken = []) (hidle : g₁.base = g.base ∧ g₁.value = g.value) (hseqs : tx.seqs = [])
    (hbatch : tx.batch = []) : WriterOk i w g₁ ⟨tx, l.files⟩ s₁ where
  taken := by
    rw [hg, hseqs]
    rfl
  sorted := by
    rw [hseqs]
    exact .nil
  above := by
    rw [hseqs]
    nofun
  clean := fun _ => hbatch
  pushed := fun _ => by
    rw [hbatch]
    nofun
  idle := by
    rw [hidle.1, hidle.2]
    exact h.idle

section

variable (h : Filling s₀ i w γ c)
  (hone : Apart (fun a b : FsThread => a.tag = w → b.tag ≠ w) c.threads)

include h hone

/-- The frame of every step of the writer. -/
theorem Filling.write (hn : c.threads[n]? = some ⟨w, .call e k, l⟩) (hdebt : g'.owes.Holds i s')
    (hloads : ∀ m u, m ≠ n → c.threads[m]? = some u → u.result = none → (γ m).Loading →
      (γ m).Fresh i s' ∧ g'.owes = .apply []) (hself : WriterOk i w g' l' s')
    (hstored : ∀ q d, s'.db.delta i q = some d → q < s'.seqs i)
    (hsame : g'.committed = false → (γ n).committed = false ∧ s'.db.inodes = c.shared.db.inodes ∧
      s'.db.dirEntries = c.shared.db.dirEntries)
    (hhandles : (∃ p n, w = .unlink p n) → s'.openHandles = c.shared.openHandles) (hnext : c.shared.next ≤ s'.next) :
    Filling s₀ i w (Function.update γ n g') ⟨s', c.threads.set n ⟨w, p, l'⟩⟩ := by
  have howing : ∀ {D}, Owing w (Function.update γ n g') (c.threads.set n ⟨w, p, l'⟩) D → D = g'.owes :=
    fun h => h.of_set_writer hone hn rfl rfl
  refine ⟨fun D hD => howing hD ▸ hdebt, fun m u hm hres hload => ?_, fun m u hm hu hres => ?_, hstored,
    fun hun => ?_, fun hu => (hhandles hu).trans (h.handles hu), Nat.le_trans h.next hnext, ?_⟩
  · rcases getElem?_set_cases hm with ⟨rfl, rfl⟩ | ⟨hne, hm⟩
    · rw [Function.update_self] at hload
      exact absurd hload (by simp [CacheWatch.Loading, hself.idle.1, hself.idle.2])
    · rw [Function.update_of_ne hne] at hload ⊢
      obtain ⟨hfresh, hnone⟩ := hloads m u hne hm hres hload
      exact ⟨hfresh, fun D hD => (howing hD).trans hnone⟩
  · rcases getElem?_set_cases hm with ⟨rfl, rfl⟩ | ⟨hne, hm⟩
    · rw [Function.update_self]
      exact hself
    · exact absurd hu (hone n m _ u (Ne.symm hne) hn hm rfl)
  · have hlt : n < c.threads.length := (List.getElem?_eq_some_iff.1 hn).1
    have hg : g'.committed = false := by
      have := hun n ⟨w, p, l'⟩ (List.getElem?_set_self hlt) rfl
      rwa [Function.update_self] at this
    obtain ⟨hγ, hin, hde⟩ := hsame hg
    obtain ⟨hin₀, hde₀⟩ := h.same (.of_set_writer hone hn rfl hγ)
    exact ⟨hin.trans hin₀, hde.trans hde₀⟩
  · exact h.tags.set (Or.inr rfl) fun _ _ _ _ hu => hu

theorem Filling.still (hn : c.threads[n]? = some ⟨w, .call e k, l⟩) (hs : Still i c.shared s')
    (howes : g'.owes = (γ n).owes) (hcom : g'.committed = (γ n).committed) (hself : WriterOk i w g' l' s')
    (hhandles : (∃ p n, w = .unlink p n) → s'.openHandles = c.shared.openHandles) (hnext : c.shared.next ≤ s'.next) :
    Filling s₀ i w (Function.update γ n g') ⟨s', c.threads.set n ⟨w, p, l'⟩⟩ := by
  have hw := Owing.writer γ hn rfl
  refine h.write hone hn (howes ▸ hs.holds (h.debt _ hw)) (fun m u _ hm hres hload => ?_) hself (fun q d hq => ?_)
    (fun hg => ⟨hcom ▸ hg, hs.inodes, hs.dirEntries⟩) hhandles hnext
  · obtain ⟨hfresh, hnone⟩ := h.loads m u hm hres hload
    refine ⟨⟨fun b hb => ?_, fun v hv => ?_⟩, howes.trans (hnone _ hw)⟩
    · rw [hs.inode]
      exact hfresh.1 b hb
    · rw [hs.effective]
      exact hfresh.2 v hv
  · rw [hs.delta] at hq
    rw [hs.seqs]
    exact h.stored q d hq

/-- A commit appends the numbered deltas of a parent, and is otherwise owed an invalidation. -/
theorem Filling.commit {k : FsResult Unit → Prog Eff Eff.Res Reply}
    (hn : c.threads[n]? = some ⟨w, .call .commit k, l⟩) (hb : cfg.build = .delta)
    (hcommit : Committing cfg w l c.shared.db) (howes : (γ n).owes = .apply [])
    (hcalm : ∀ m u, m ≠ n → c.threads[m]? = some u → u.result = none → (γ m).Loading →
      CacheWatch.debt i w (γ n).taken = .apply []) {tx : Txn} (hseqs : tx.seqs = []) (hbatch : tx.batch = []) :
    Filling s₀ i w (Function.update γ n
        { (γ n).reset with committed := true, owes := CacheWatch.debt i w (γ n).taken })
      ⟨{ c.shared with db := c.shared.db.applyBatch l.tx.batch }, c.threads.set n ⟨w, p, ⟨tx, l.files⟩⟩⟩ := by
  have hwr := h.writer n _ hn rfl rfl
  -- in the directory of a call the base stays and the deltas of the call come last
  have hparent : i ∈ w.parents → (c.shared.db.applyBatch l.tx.batch).inode i = c.shared.db.inode i ∧
      (c.shared.db.applyBatch l.tx.batch).deltas i = c.shared.db.deltas i ++ (γ n).taken := by
    intro hi
    refine ⟨Db.inode_applyBatch_of_row (hwr.pushed hi), ?_⟩
    rw [hwr.taken]
    refine hcommit.deltas_append hb (fun j hj => ?_) hwr.sorted fun x hx => (hwr.above x hx).2
    rw [hj] at hi
    cases hi
  have heffective : i ∈ w.parents → (c.shared.db.applyBatch l.tx.batch).effective i =
      (c.shared.db.effective i).map (foldDeltas · (γ n).taken) := by
    intro hi
    unfold Db.effective
    rw [(hparent hi).1, (hparent hi).2]
    cases c.shared.db.inode i with
    | none => rfl
    | some base => exact congrArg some (foldDeltas_append _ _ _)
  have hown : DistinctNumbers (numbersOf i l.tx.seqs) := hwr.sorted.imp fun hlt => Nat.ne_of_lt hlt
  refine h.write hone hn ?_ (fun m u hne hm hres hload => ?_) (hwr.reset rfl ⟨rfl, rfl⟩ hseqs hbatch)
    (fun q d hq => ?_) nofun (fun _ => rfl) (Nat.le_refl _)
  · show (CacheWatch.debt i w (γ n).taken).Holds i _
    unfold CacheWatch.debt
    split
    · rename_i hi
      intro v hv
      have hold : c.shared.db.effective i = some v := by
        have := h.debt _ (Owing.writer _ hn rfl)
        rw [howes] at this
        exact this v hv
      show (c.shared.db.applyBatch l.tx.batch).effective i = _
      rw [heffective hi, hold]
      rfl
    · trivial
  · have hnone := hcalm m u hne hm hres hload
    refine ⟨?_, hnone⟩
    obtain ⟨⟨hbase, hvalue⟩, -⟩ := h.loads m u hm hres hload
    unfold CacheWatch.debt at hnone
    split at hnone
    · rename_i hi
      have hnil : (γ n).taken = [] := CacheDebt.apply.inj hnone
      refine ⟨fun b hb => ((hparent hi).1).trans (hbase b hb), fun v hv => ?_⟩
      show (c.shared.db.applyBatch l.tx.batch).effective i = _
      rw [heffective hi, hvalue v hv, hnil]
      rfl
    · cases hnone
  · rcases (hcommit.delta_iff hown).1 hq with ⟨⟨hold, -⟩, -⟩ | hm
    · exact h.stored q d hold
    · exact (hwr.above _ hm).1

theorem Filling.nextSeq {q : Inode} {d : DeltaOp} {k : Nat → Prog Eff Eff.Res Reply}
    (hn : c.threads[n]? = some ⟨w, .call (.nextSeq q d) k, l⟩) :
    Filling s₀ i w (Function.update γ n { γ n with taken := (γ n).taken ++ if q = i then [d] else [] })
      ⟨{ c.shared with seqs := Function.update c.shared.seqs q (c.shared.seqs q + 1) },
        c.threads.set n ⟨w, p, ⟨{ l.tx with seqs := l.tx.seqs ++ [(q, c.shared.seqs q, d)] }, l.files⟩⟩⟩ := by
  have hwr := h.writer n _ hn rfl rfl
  have hw := Owing.writer γ hn rfl
  have hnumbers : numbersOf i (l.tx.seqs ++ [(q, c.shared.seqs q, d)]) =
      numbersOf i l.tx.seqs ++ if q = i then [(c.shared.seqs q, d)] else [] := by
    rw [numbersOf_append, numbersOf_singleton]
  have hle : c.shared.seqs i ≤ Function.update c.shared.seqs q (c.shared.seqs q + 1) i := by
    by_cases e : i = q
    · rw [e, Function.update_self]
      exact Nat.le_succ _
    · rw [Function.update_of_ne e]
  have hself : WriterOk i w { γ n with taken := (γ n).taken ++ if q = i then [d] else [] }
      ⟨{ l.tx with seqs := l.tx.seqs ++ [(q, c.shared.seqs q, d)] }, l.files⟩
      { c.shared with seqs := Function.update c.shared.seqs q (c.shared.seqs q + 1) } := by
    refine { hwr with taken := ?_, sorted := ?_, above := ?_ }
    · show _ = (numbersOf i (l.tx.seqs ++ [(q, c.shared.seqs q, d)])).map _
      rw [hnumbers, hwr.taken]
      split <;> simp
    · show (numbersOf i (l.tx.seqs ++ [(q, c.shared.seqs q, d)])).Pairwise _
      rw [hnumbers]
      refine List.pairwise_append.2 ⟨hwr.sorted, by split <;> simp, fun x hx y hy => ?_⟩
      split at hy
      · rename_i e
        rw [List.mem_singleton.1 hy, e]
        exact (hwr.above x hx).1
      · cases hy
    · intro x hx
      have hmem : x ∈ numbersOf i (l.tx.seqs ++ [(q, c.shared.seqs q, d)]) := hx
      rw [hnumbers] at hmem
      rcases List.mem_append.1 hmem with hx | hx
      · exact ⟨Nat.lt_of_lt_of_le (hwr.above x hx).1 hle, (hwr.above x hx).2⟩
      · by_cases e : q = i
        · subst e
          rw [if_pos rfl] at hx
          rw [List.mem_singleton.1 hx]
          refine ⟨?_, fun q' d' hq => h.stored q' d' hq⟩
          show c.shared.seqs q < Function.update c.shared.seqs q (c.shared.seqs q + 1) q
          rw [Function.update_self]
          exact Nat.lt_succ_self _
        · rw [if_neg e] at hx
          cases hx
  refine h.write hone hn (h.debt _ hw) (fun m u _ hm hres hload => ?_) hself
    (fun q' d' hq => Nat.lt_of_lt_of_le (h.stored q' d' hq) hle) (fun hg => ⟨hg, rfl, rfl⟩) (fun _ => rfl) (Nat.le_refl _)
  exact (h.loads m u hm hres hload).imp_right fun hD => hD _ hw

theorem Filling.clearDeltas {j : Inode} {k : FsResult Unit → Prog Eff Eff.Res Reply}
    (hn : c.threads[n]? = some ⟨w, .call (.clearDeltas j) k, l⟩)
    (hpre : j = i → (γ n).owes = .forget ∧ (γ n).taken = []) :
    Filling s₀ i w (Function.update γ n (γ n)) ⟨c.shared.clearDeltas j, c.threads.set n ⟨w, p, l⟩⟩ := by
  have hwr := h.writer n _ hn rfl rfl
  have hw := Owing.writer γ hn rfl
  by_cases e : i = j
  · subst e
    obtain ⟨howes, htaken⟩ := hpre rfl
    have hdelta : ∀ q, (c.shared.clearDeltas i).db.delta i q = none := fun q => by
      rw [Db.delta_clearDeltas, if_pos rfl]
    have hnil : numbersOf i l.tx.seqs = [] := List.map_eq_nil_iff.1 (hwr.taken.symm.trans htaken)
    refine h.write hone hn ?_ (fun m u _ hm hres hload => ?_) ?_ (fun q d hq => ?_) (fun hg => ⟨hg, rfl, rfl⟩)
      (fun _ => rfl) (Nat.le_refl _)
    · rw [howes]
      trivial
    · have hnone := (h.loads m u hm hres hload).2 _ hw
      rw [howes] at hnone
      cases hnone
    · refine { hwr with above := ?_ }
      show ∀ x ∈ numbersOf i l.tx.seqs, _
      rw [hnil]
      nofun
    · rw [hdelta] at hq
      cases hq
  · have hs : Still i c.shared (c.shared.clearDeltas j) := by
      refine ⟨rfl, rfl, fun q => ?_, ?_, Function.update_of_ne e _ _, fun _ hv => hv⟩
      · rw [Db.delta_clearDeltas, if_neg e]
      · rw [deltas_clearDeltas, if_neg e]
    exact h.still hone hn hs rfl rfl (hwr.still hs rfl rfl) (fun _ => rfl) (Nat.le_refl _)

theorem Filling.applyDeltas {j : Inode} {ds : List DeltaOp} {k : Unit → Prog Eff Eff.Res Reply}
    (hn : c.threads[n]? = some ⟨w, .call (.cacheApplyDeltas j ds) k, l⟩)
    (hpre : j = i → ∃ rest, (γ n).owes = .apply (ds ++ rest)) :
    Filling s₀ i w (Function.update γ n ((γ n).upd i w (.cacheApplyDeltas j ds) ()))
      ⟨{ c.shared with cache := c.shared.cache.applyDeltas j ds }, c.threads.set n ⟨w, p, l⟩⟩ := by
  have hwr := h.writer n _ hn rfl rfl
  have hw := Owing.writer γ hn rfl
  by_cases e : j = i
  · subst e
    obtain ⟨rest, howes⟩ := hpre rfl
    have hpaid : (γ n).upd j w (.cacheApplyDeltas j ds) () = { γ n with owes := .apply rest } := by
      unfold CacheWatch.upd
      simp [howes, CacheDebt.after]
    rw [hpaid]
    refine h.write hone hn (fun v hv => ?_) (fun m u _ hm hres hload => ?_) { hwr with } h.stored
      (fun hg => ⟨hg, rfl, rfl⟩) (fun _ => rfl) (Nat.le_refl _)
    · have hold := h.debt _ hw
      rw [howes] at hold
      have hv : (c.shared.cache.applyDeltas j ds).find j = some v := hv
      rw [InodeFoldedCache.find_applyDeltas, if_pos rfl] at hv
      obtain ⟨v₀, hv₀, rfl⟩ := Option.map_eq_some_iff.1 hv
      show c.shared.db.effective j = _
      rw [hold v₀ hv₀, foldDeltas_append]
    · obtain ⟨hfresh, hnone⟩ := h.loads m u hm hres hload
      have hnil : ds ++ rest = [] := CacheDebt.apply.inj (howes.symm.trans (hnone _ hw))
      exact ⟨hfresh, congrArg CacheDebt.apply (List.append_eq_nil_iff.1 hnil).2⟩
  · have hsame : (γ n).upd i w (.cacheApplyDeltas j ds) () = γ n := if_neg e
    rw [hsame]
    have hs : Still i c.shared { c.shared with cache := c.shared.cache.applyDeltas j ds } := by
      refine ⟨rfl, rfl, fun _ => rfl, rfl, rfl, fun v hv => ?_⟩
      have hv : (c.shared.cache.applyDeltas j ds).find i = some v := hv
      rw [InodeFoldedCache.find_applyDeltas, if_neg (Ne.symm e)] at hv
      exact hv
    exact h.still hone hn hs rfl rfl (hwr.still hs rfl rfl) (fun _ => rfl) (Nat.le_refl _)

theorem Filling.invalidate {j : Inode} {k : Unit → Prog Eff Eff.Res Reply}
    (hn : c.threads[n]? = some ⟨w, .call (.cacheInvalidate j) k, l⟩) :
    Filling s₀ i w (Function.update γ n ((γ n).upd i w (.cacheInvalidate j) ()))
      ⟨{ c.shared with cache := c.shared.cache.invalidate j }, c.threads.set n ⟨w, p, l⟩⟩ := by
  have hwr := h.writer n _ hn rfl rfl
  have hw := Owing.writer γ hn rfl
  by_cases e : j = i ∧ (γ n).owes = .forget
  · obtain ⟨rfl, howes⟩ := e
    have hpaid : (γ n).upd j w (.cacheInvalidate j) () = { γ n with owes := .apply [] } := if_pos ⟨rfl, howes⟩
    rw [hpaid]
    refine h.write hone hn (fun v hv => ?_) (fun m u _ hm hres hload => ⟨(h.loads m u hm hres hload).1, rfl⟩)
      { hwr with } h.stored (fun hg => ⟨hg, rfl, rfl⟩) (fun _ => rfl) (Nat.le_refl _)
    have hv : (c.shared.cache.invalidate j).find j = some v := hv
    rw [InodeFoldedCache.find_invalidate, if_pos rfl] at hv
    cases hv
  · have hsame : (γ n).upd i w (.cacheInvalidate j) () = γ n := if_neg e
    rw [hsame]
    have hs : Still i c.shared { c.shared with cache := c.shared.cache.invalidate j } := by
      refine ⟨rfl, rfl, fun _ => rfl, rfl, rfl, fun v hv => ?_⟩
      have hv : (c.shared.cache.invalidate j).find i = some v := hv
      rw [InodeFoldedCache.find_invalidate] at hv
      split at hv
      · cases hv
      · exact hv
    exact h.still hone hn hs rfl rfl (hwr.still hs rfl rfl) (fun _ => rfl) (Nat.le_refl _)

/-- What the writer is told before its commit is what has been stored from the start. -/
theorem Filling.answerOk (hwf : s₀.Wf) (hn : c.threads[n]? = some ⟨w, .call e k, l⟩) (hpre : (γ n).WritePre i w e) :
    CacheWatch.AnswerOk s₀ i e (handle cfg e (l.tx, c.shared)).1 := by
  have hwr := h.writer n _ hn rfl rfl
  cases e with
  | getForUpdateDirEntry q a =>
      obtain ⟨-, hclean, hcom⟩ := hpre
      show (c.shared.db.applyBatch l.tx.batch).entry q a = s₀.db.entry q a
      rw [hwr.clean hclean]
      show c.shared.db.entry q a = _
      unfold Db.entry
      rw [(h.same (.of_set_writer hone hn rfl hcom)).2]
  | getForUpdateInode j =>
      obtain ⟨-, hclean, hcom⟩ := hpre
      show (c.shared.db.applyBatch l.tx.batch).inode j = s₀.db.inode j
      rw [hwr.clean hclean]
      show c.shared.db.inode j = _
      unfold Db.inode
      rw [(h.same (.of_set_writer hone hn rfl hcom)).1]
  | handleCount j =>
      show c.shared.handles j = s₀.handles j
      unfold Server.handles
      rw [h.handles hpre.2.2]
  | alloc =>
      rintro ⟨iv, hiv, -⟩
      have hlt : i < c.shared.next := Nat.lt_of_lt_of_le (hwf.db.inode_lt hiv) h.next
      exact Nat.ne_of_gt hlt
  | _ => trivial

end

theorem Filling.writerAct {r : e.Res} (h : Filling s₀ i w γ c) (hH : LoadsApart i w c) (hb : cfg.build = .delta)
    (hn : c.threads[n]? = some ⟨w, .call e k, l⟩) (hpre : (γ n).WritePre i w e)
    (hcommit : e = .commit → Committing cfg w l c.shared.db)
    (ha : Acts cfg (c.threads.eraseIdx n) e l c.shared r l' s')
    (hcalm : ∀ m u, m ≠ n → c.threads[m]? = some u → u.result = none → (γ m).Loading →
      ((γ n).upd i w e r).owes = .apply []) :
    Filling s₀ i w (Function.update γ n ((γ n).upd i w e r)) ⟨s', c.threads.set n ⟨w, k r, l'⟩⟩ := by
  have hone := hH.one
  have hwr := h.writer n _ hn rfl rfl
  have hquiet : ∀ {s' : Server} {l' : Local} {p : Prog Eff Eff.Res Reply}, Still i c.shared s' →
      l'.tx.seqs = l.tx.seqs → l'.tx.batch = l.tx.batch → s'.openHandles = c.shared.openHandles →
      c.shared.next ≤ s'.next → Filling s₀ i w (Function.update γ n (γ n)) ⟨s', c.threads.set n ⟨w, p, l'⟩⟩ :=
    fun hs hseqs hbatch hh hnx => h.still hone hn hs rfl rfl (hwr.still hs hseqs hbatch) (fun _ => hh) hnx
  have hend : ∀ {tx : Txn} {p : Prog Eff Eff.Res Reply}, tx.seqs = [] → tx.batch = [] →
      Filling s₀ i w (Function.update γ n (γ n).reset) ⟨c.shared, c.threads.set n ⟨w, p, ⟨tx, l.files⟩⟩⟩ :=
    fun hseqs hbatch => h.still hone hn (.refl _) rfl rfl (hwr.reset rfl ⟨rfl, rfl⟩ hseqs hbatch)
      (fun _ => rfl) (Nat.le_refl _)
  cases ha with
  | failed hf =>
      cases e with
      | commit =>
          cases hf
          exact hend rfl rfl
      | getInode j => exact hpre.2.elim
      | scanDeltas j => exact hpre.2.elim
      | _ =>
          cases hf
          all_goals exact hquiet (.refl _) rfl rfl rfl (Nat.le_refl _)
  | done hbl =>
      cases e with
      | beginWrite => exact hend rfl rfl
      | dropBatch => exact hend rfl rfl
      | push op =>
          refine h.still hone hn (.refl _) rfl rfl { hwr with clean := nofun, pushed := fun hi o ho => ?_ }
            (fun _ => rfl) (Nat.le_refl _)
          rcases List.mem_append.1 ho with ho | ho
          · exact hwr.pushed hi o ho
          · rw [List.mem_singleton.1 ho]
            exact hpre.2 hi
      | commit =>
          have howes : (γ n).owes = .apply [] := by
            by_contra hne
            cases hpre.1 hne
          exact h.commit hone hn hb (hcommit rfl) howes hcalm rfl rfl
      | nextSeq q d => exact h.nextSeq hone hn
      | clearDeltas j => exact h.clearDeltas hone hn hpre.2
      | cacheApplyDeltas j ds => exact h.applyDeltas hone hn hpre.2
      | cacheInvalidate j => exact h.invalidate hone hn
      | cachePut j v =>
          have hs : Still i c.shared { c.shared with cache := c.shared.cache.put j v } := by
            refine ⟨rfl, rfl, fun _ => rfl, rfl, rfl, fun v' hv => ?_⟩
            rcases InodeFoldedCache.find_put hv with ⟨e, -⟩ | ⟨-, hv⟩
            · exact absurd e.symm hpre.2
            · exact hv
          have hself : WriterOk i w { γ n with value := none } l { c.shared with cache := c.shared.cache.put j v } :=
            { hwr with idle := ⟨hwr.idle.1, rfl⟩ }
          exact h.still hone hn hs rfl rfl hself (fun _ => rfl) (Nat.le_refl _)
      | cacheGet j => exact hpre.2.elim
      | getInode j => exact hpre.2.elim
      | scanDeltas j => exact hpre.2.elim
      | handleIncr j =>
          have hs : Still i c.shared (c.shared.handleIncr j) := ⟨rfl, rfl, fun _ => rfl, rfl, rfl, fun _ hv => hv⟩
          exact h.still hone hn hs rfl rfl (hwr.still hs rfl rfl) (fun ⟨q, a, hq⟩ => absurd hq (hpre.2 q a))
            (Nat.le_refl _)
      | checkAndClearDeferredDelete j =>
          obtain ⟨hs, pd, hsnd⟩ := c.shared.checkAndClear_snd (i := j)
          have hst : Still i c.shared (c.shared.checkAndClearDeferredDelete j).2 := by
            rw [hsnd]
            exact ⟨rfl, rfl, fun _ => rfl, rfl, rfl, fun _ hv => hv⟩
          refine h.still hone hn hst rfl rfl (hwr.still hst rfl rfl) (fun ⟨q, a, hq⟩ => absurd hq (hpre.2 q a)) ?_
          show _ ≤ (c.shared.checkAndClearDeferredDelete j).2.next
          rw [hsnd]
      | alloc =>
          exact hquiet ⟨rfl, rfl, fun _ => rfl, rfl, rfl, fun _ hv => hv⟩ rfl rfl rfl (Nat.le_succ _)
      | _ =>
          exact hquiet ⟨rfl, rfl, fun _ => rfl, rfl, rfl, fun _ hv => hv⟩ rfl rfl rfl (Nat.le_refl _)

end Steps

/-! ## Runs -/

section Runs

variable {cfg : Config} {s₀ : Server} {i : Inode} {w : Call} {c : FsConf}

theorem Filling.of_server (hlog : s₀.LogOk cfg) (hcold : s₀.cache.find i = none) :
    Filling s₀ i w (fun _ => {}) ⟨s₀, []⟩ where
  debt := by
    rintro D (⟨n, th, hn, -⟩ | ⟨-, rfl⟩)
    · simp at hn
    · intro v hv
      cases hcold.symm.trans hv
  loads := fun n th hn => by simp at hn
  writer := fun n th hn => by simp at hn
  stored := fun q d hq => hlog.seqs hq
  same := fun _ => ⟨rfl, rfl⟩
  handles := fun _ => rfl
  next := Nat.le_refl _
  tags := fun n th hn => by simp at hn

theorem WriterOk.init (s : Server) : WriterOk i w {} {} s where
  taken := rfl
  sorted := .nil
  above := nofun
  clean := fun _ => rfl
  pushed := fun _ => nofun
  idle := ⟨rfl, rfl⟩

theorem Filling.start {γ : Nat → CacheWatch} {call : Call} (h : Filling s₀ i w γ c)
    (hc : call = .getattr i ∨ call = w)
    (hone : Apart (fun a b : FsThread => a.tag = w → b.tag ≠ w)
      (c.threads ++ [(fsSystem cfg (loadsAndWriter i w)).spawn call])) :
    Filling s₀ i w (Function.update γ c.threads.length {})
      ⟨c.shared, c.threads ++ [(fsSystem cfg (loadsAndWriter i w)).spawn call]⟩ := by
  have hold : ∀ {m : Nat} {u : FsThread}, c.threads[m]? = some u → m ≠ c.threads.length ∧
      (c.threads ++ [(fsSystem cfg (loadsAndWriter i w)).spawn call])[m]? = some u := by
    intro m u hm
    have hlt : m < c.threads.length := (List.getElem?_eq_some_iff.1 hm).1
    exact ⟨Nat.ne_of_lt hlt, (List.getElem?_append_left hlt).trans hm⟩
  have howing : ∀ {D}, Owing w (Function.update γ c.threads.length {})
      (c.threads ++ [(fsSystem cfg (loadsAndWriter i w)).spawn call]) D → Owing w γ c.threads D := by
    rintro D (⟨m, u, hm, hu, ho⟩ | ⟨hno, hD⟩)
    · rcases getElem?_append_cases hm with ⟨rfl, rfl⟩ | ⟨hne, hm'⟩
      · -- the writer starts: none has been there before
        rw [Function.update_self] at ho
        refine Or.inr ⟨fun m' u' hm' hu' => ?_, ho.symm⟩
        exact hone m' _ u' _ (hold hm').1 (hold hm').2 hm hu' hu
      · rw [Function.update_of_ne hne] at ho
        exact Or.inl ⟨m, u, hm', hu, ho⟩
    · exact Or.inr ⟨fun m u hm => hno m u (hold hm).2, hD⟩
  refine ⟨fun D hD => h.debt D (howing hD), fun m u hm hres hload => ?_, fun m u hm hu hres => ?_, h.stored,
    fun hun => h.same fun m u hm hu => ?_, h.handles, h.next, h.tags.append hc⟩
  · rcases getElem?_append_cases hm with ⟨rfl, rfl⟩ | ⟨hne, hm⟩
    · rw [Function.update_self] at hload
      exact absurd hload (by simp [CacheWatch.Loading])
    · rw [Function.update_of_ne hne] at hload ⊢
      exact (h.loads m u hm hres hload).imp_right fun hD D hD' => hD D (howing hD')
  · rcases getElem?_append_cases hm with ⟨rfl, rfl⟩ | ⟨hne, hm⟩
    · rw [Function.update_self]
      exact .init c.shared
    · rw [Function.update_of_ne hne]
      exact h.writer m u hm hu hres
  · have := hun m u (hold hm).2 hu
    rwa [Function.update_of_ne (hold hm).1] at this

theorem filling_of_reach (hb : cfg.build = .delta) (hwf : s₀.Wf) (hlog : s₀.LogOk cfg) (hw : WriterOn s₀ i w)
    (hcold : s₀.cache.find i = none)
    (h : Reach (fsSystem cfg (loadsAndWriter i w)) (LoadsApart i w) ⟨s₀, []⟩ c) :
    ∃ γ, Filling s₀ i w γ c ∧ ∀ m th, c.threads[m]? = some th →
      wp (cacheSteps s₀ i th.tag) th.prog (CacheWatch.Settled s₀ i th.tag) (γ m) := by
  have hwl : w ≠ .getattr i := by
    rintro rfl
    exact hw
  refine Reach.ghost (cacheSteps s₀ i) (CacheWatch.Settled s₀ i) {} (Filling s₀ i w) rfl
    (.of_server hlog hcold) (takes_cacheSteps hb s₀ i) (fun _ hJ hadm hH => hJ.start hadm hH.one) ?_ h
  intro γ c n call e k l l' r s' hr hJ hwp hn hpre ha hH'
  have hnext : ∀ g', (cacheSteps s₀ i call).post e (γ n) r g' →
      wp (cacheSteps s₀ i call) (k r) (CacheWatch.Settled s₀ i call) g' := (hwp n _ hn).2 r
  have hlt : n < c.threads.length := (List.getElem?_eq_some_iff.1 hn).1
  rcases hJ.tags n _ hn with htag | htag
  · -- a load
    obtain rfl : call = .getattr i := htag
    have hans : WriterOn s₀ i (.getattr i) → CacheWatch.AnswerOk s₀ i e r := fun hf => hf.elim
    refine ⟨_, ⟨rfl, hans⟩, hJ.load hwl hn (hpre.1 rfl) ha fun hres hload D hD => ?_⟩
    have hmid : midway i ⟨.getattr i, k r, l'⟩ = true :=
      midway_of_loading rfl (hnext _ ⟨rfl, hans⟩) hres hload
    rcases hD with ⟨m, u, hm, hu, ho⟩ | ⟨-, hD⟩
    · have hne : m ≠ n := by
        rintro rfl
        rw [hn] at hm
        cases hm
        exact hwl hu.symm
      have hm' : (c.threads.set n ⟨.getattr i, k r, l'⟩)[m]? = some u := by
        rw [List.getElem?_set_ne (Ne.symm hne)]
        exact hm
      rw [← ho]
      exact owes_of_not_past (hu ▸ hw) (hwp m u hm)
        (hH'.windows _ (List.mem_set hlt _) u (List.mem_of_getElem? hm') hmid hu) (hH'.stored m u hm')
    · exact hD
  · -- the writer
    obtain rfl : call = w := htag
    have hwpre : (γ n).WritePre i call e := hpre.2 hw
    obtain ⟨⟨-, hi⟩, hcon⟩ := isolated_invariant False (fun _ => True) (fun hf => hf.elim) rfl hwf
      (fun _ => trivial) (fun _ _ _ _ => trivial) (fun _ _ _ _ _ _ _ => trivial) hr
    have hcpre := (hcon _ (List.mem_of_getElem? hn)).1
    have hans : CacheWatch.AnswerOk s₀ i e r := by
      cases ha with
      | done hbl => exact hJ.answerOk hr.hyp.one hwf hn hwpre
      | failed hf => cases e <;> first | trivial | (cases hf; trivial)
    refine ⟨_, ⟨rfl, fun _ => hans⟩, hJ.writerAct hr.hyp hb hn hwpre (fun he => ?_) ha
      fun m u hne hm hres hload => ?_⟩
    · subst he
      exact hcpre _ _ (hi.valid n _ hn) hi.wf
    · have hm' : (c.threads.set n ⟨call, k r, l'⟩)[m]? = some u := by
        rw [List.getElem?_set_ne (Ne.symm hne)]
        exact hm
      have htag : u.tag = .getattr i := (hJ.tags m u hm).resolve_right
        fun hu => hr.hyp.one n m _ u (Ne.symm hne) hn hm rfl hu
      have hmid : midway i u = true := midway_of_loading htag (htag ▸ hwp m u hm) hres hload
      exact owes_of_not_past (u := ⟨call, k r, l'⟩) hw (hnext _ ⟨rfl, fun _ => hans⟩)
        (hH'.windows u (List.mem_of_getElem? hm') _ (List.mem_set hlt _) hmid rfl)
        (hH'.stored n _ (List.getElem?_set_self hlt))

/-- **Loads next to a writer fill the cache with what is stored**, while no load is under way next to a writer
that has committed and not returned: when all have returned, the cache has no copy of `i`, or the stored base
folded with the stored deltas, and none of a removed inode. -/
theorem fill_coherent (hb : cfg.build = .delta) (hwf : s₀.Wf) (hlog : s₀.LogOk cfg) (hw : WriterOn s₀ i w)
    (hcold : s₀.cache.find i = none)
    (h : Reach (fsSystem cfg (loadsAndWriter i w)) (LoadsApart i w) ⟨s₀, []⟩ c)
    (hdone : ∀ th ∈ c.threads, th.result ≠ none) :
    (c.shared.cache.find i = none ∨ c.shared.cache.find i = c.shared.db.effective i) ∧
    (c.shared.db.inode i = none → c.shared.cache.find i = none) := by
  obtain ⟨γ, hJ, hwp⟩ := filling_of_reach hb hwf hlog hw hcold h
  have hpaid : ∀ D, Owing w γ c.threads D → D = .apply [] := by
    rintro D (⟨m, u, hm, hu, ho⟩ | ⟨-, hD⟩)
    · rw [← ho]
      refine owes_of_not_past (hu ▸ hw) (hwp m u hm) ?_ (h.hyp.stored m u hm)
      have hres := hdone u (List.mem_of_getElem? hm)
      obtain ⟨tag, prog, loc⟩ := u
      cases prog with
      | ret r => rfl
      | call e k => exact absurd rfl hres
    · exact hD
  have hcoherent : ∀ v, c.shared.cache.find i = some v → c.shared.db.effective i = some v := by
    intro v hv
    obtain ⟨D, hD⟩ := Owing.exists w γ c.threads
    have hold := hJ.debt D hD
    rw [hpaid D hD] at hold
    exact hold v hv
  cases hf : c.shared.cache.find i with
  | none => exact ⟨Or.inl rfl, fun _ => rfl⟩
  | some v =>
      have heff := hcoherent v hf
      refine ⟨Or.inr heff.symm, fun hnone => ?_⟩
      unfold Db.effective at heff
      rw [hnone] at heff
      cases heff

end Runs

/-- A load fills the cache while `mkdir` has numbered its deltas and not committed. -/
def filledInTime : List (Choice Call) :=
  .start (.mkdir ROOT_INODE [97] 0o755 0 0) :: List.replicate 12 (.run 0) ++
    .start (.getattr ROOT_INODE) :: List.replicate 4 (.run 1) ++ List.replicate 6 (.run 0)

theorem fill_coherent_inTime : ∃ c,
    Reach (fsSystem {} (loadsAndWriter ROOT_INODE (.mkdir ROOT_INODE [97] 0o755 0 0)))
      (LoadsApart ROOT_INODE (.mkdir ROOT_INODE [97] 0o755 0 0)) ⟨Server.fresh {}, []⟩ c ∧
    (∀ th ∈ c.threads, th.result ≠ none) ∧ (c.shared.cache.find ROOT_INODE).map (·.nlink) = some 3 ∧
    (c.shared.cache.find ROOT_INODE = none ∨
      c.shared.cache.find ROOT_INODE = c.shared.db.effective ROOT_INODE) ∧
    (c.shared.db.inode ROOT_INODE = none → c.shared.cache.find ROOT_INODE = none) := by
  have hrun : ((fsScheduler {} (loadsAndWriter ROOT_INODE (.mkdir ROOT_INODE [97] 0o755 0 0))
      (LoadsApart ROOT_INODE (.mkdir ROOT_INODE [97] 0o755 0 0))).run filledInTime ⟨Server.fresh {}, []⟩).map
      (fun c => decide ((∀ th ∈ c.threads, th.result ≠ none) ∧
        (c.shared.cache.find ROOT_INODE).map (·.nlink) = some 3)) = some true := by decide +kernel
  obtain ⟨c, hc, hv⟩ := Option.map_eq_some_iff.1 hrun
  have hreach := fsScheduler_reach {} _ (LoadsApart ROOT_INODE (.mkdir ROOT_INODE [97] 0o755 0 0)) filledInTime
    (by decide) hc
  obtain ⟨hdone, hlinks⟩ := of_decide_eq_true hv
  have hw : WriterOn (Server.fresh {}) ROOT_INODE (.mkdir ROOT_INODE [97] 0o755 0 0) :=
    ⟨rfl, (Server.wf_fresh {}).db.root⟩
  exact ⟨c, hreach, hdone, hlinks, fill_coherent rfl (Server.wf_fresh {}) (.fresh {}) hw rfl hreach hdone⟩

end RucksFs
