import RucksFs.Coherence

/-!
# The two builds

The delta build appends deltas for a parent directory, the `no_delta` build rewrites the parent's
record.  Run side by side on the same calls and the same clock they cannot be told apart.

* `Twins` — the relation between a server of each build: same entries and counters, same records of
  files, and for the inodes in question the delta build's base folded with its deltas is the other
  build's record.
* `Twins.exec` — a call gets the same reply in both builds and keeps the relation.
* `builds_agree` — so after any run, with compactions of the delta build anywhere in between.

A replaced directory keeps its record without a name in both builds, but only the delta build
forgets what was pending for it; such a record is not compared, and no later call can name it.
-/

set_option autoImplicit false

namespace RucksFs

open Server

def Config.on (cfg : Config) (b : Build) : Config := { cfg with build := b }

/-- Records `a` with deltas `ds` and `b` of one inode in the two builds; `P` says whether they are
compared in full. -/
def TwinAt (P : Prop) (ds : List DeltaOp) : Option InodeValue → Option InodeValue → Prop
  | none, none => True
  | some a, some b =>
      a.mode = b.mode ∧ (isDir a.mode = false → ds = [] ∧ a = b) ∧ (P → foldDeltas a ds = b)
  | _, _ => False

structure Twins (cfg : Config) (P : Inode → Prop) (s t : Server) : Prop where
  log : LogOk (cfg.on .delta) s
  plain : LogOk (cfg.on .noDelta) t
  dirEntries : t.db.dirEntries = s.db.dirEntries
  next : t.next = s.next
  ticks : t.ticks = s.ticks
  openHandles : t.openHandles = s.openHandles
  fresh : ∀ {j}, s.db.deltas j ≠ [] → j < s.next
  /-- No pending time stamp is ahead of the clock. -/
  stamps : ∀ {j u}, .setCtime u ∈ s.db.deltas j → ∀ k, s.ticks ≤ k → u ≤ cfg.clock k
  at_inode : ∀ j, TwinAt (P j) (s.db.deltas j) (s.db.inode j) (t.db.inode j)

/-! ## One inode -/

namespace TwinAt

variable {P Q : Prop} {ds : List DeltaOp} {o o' : Option InodeValue} {a b : InodeValue}

theorem mono (h : TwinAt P ds o o') (hq : Q → P) : TwinAt Q ds o o' := by
  cases o with
  | none =>
      cases o' with
      | none => trivial
      | some b => exact h
  | some a =>
      cases o' with
      | none => exact h
      | some b => exact ⟨h.1, h.2.1, fun q => h.2.2 (hq q)⟩

theorem of_eq (a : InodeValue) : TwinAt P [] (some a) (some a) := ⟨rfl, fun _ => ⟨rfl, rfl⟩, fun _ => rfl⟩

/-- Both records exist, with one mode. -/
theorem some_left (h : TwinAt P ds (some a) o') : ∃ b, o' = some b ∧ a.mode = b.mode := by
  cases o' with
  | none => exact h.elim
  | some b => exact ⟨b, rfl, h.1⟩

theorem none_left (h : TwinAt P ds none o') : o' = none := by
  cases o' with
  | none => rfl
  | some b => exact h.elim

theorem file (h : TwinAt P ds (some a) o') (hd : isDir a.mode = false) : ds = [] ∧ o' = some a := by
  obtain ⟨b, rfl, -⟩ := h.some_left
  obtain ⟨hds, rfl⟩ := h.2.1 hd
  exact ⟨hds, rfl⟩

theorem effective {db : Db} {j : Inode} (h : TwinAt P (db.deltas j) (db.inode j) o') (hp : P) :
    db.effective j = o' := by
  unfold Db.effective
  cases hi : db.inode j with
  | none =>
      rw [hi] at h
      exact h.none_left.symm
  | some a =>
      rw [hi] at h
      obtain ⟨b, rfl, -⟩ := h.some_left
      exact congrArg some (h.2.2 hp)

/-- More deltas for a directory. -/
theorem fold (h : TwinAt P ds o o') (es : List DeltaOp)
    (hd : ∀ a, o = some a → isDir a.mode = false → es = []) :
    TwinAt P (ds ++ es) o (o'.map (foldDeltas · es)) := by
  cases o with
  | none => rw [h.none_left]; trivial
  | some a =>
      obtain ⟨b, rfl, hm⟩ := h.some_left
      refine ⟨by simpa using hm, fun hfile => ?_, fun p => ?_⟩
      · obtain ⟨hds, hab⟩ := h.2.1 hfile
        rw [hds, hd a rfl hfile, hab]
        exact ⟨rfl, rfl⟩
      · rw [foldDeltas_append, h.2.2 p]

end TwinAt

/-- A change time not behind the pending ones survives the fold. -/
theorem foldDeltas_ctime {ts : Nat} : ∀ (ds : List DeltaOp) (a : InodeValue),
    (∀ u, .setCtime u ∈ ds → u ≤ ts) →
    foldDeltas { a with ctime := ts } ds = { foldDeltas a ds with ctime := ts }
  | [], _, _ => rfl
  | d :: ds, a, h => by
      have hstep : foldDelta { a with ctime := ts } d = { foldDelta a d with ctime := ts } := by
        cases d with
        | setCtime u =>
            have hu := h u List.mem_cons_self
            simp [foldDelta, hu]
        | _ => rfl
      rw [foldDeltas_cons, hstep, foldDeltas_ctime ds _ fun u hu => h u (List.mem_cons_of_mem _ hu)]
      rfl

/-! ## Updates of both servers -/

/-- `s'` agrees with `s` on everything the relation looks at. -/
structure Server.SameCore (s s' : Server) : Prop where
  dirEntries : s'.db.dirEntries = s.db.dirEntries
  inode : ∀ j, s'.db.inode j = s.db.inode j
  deltaEntries : s'.db.deltaEntries = s.db.deltaEntries
  seqs : s'.seqs = s.seqs
  next : s'.next = s.next
  ticks : s'.ticks = s.ticks
  openHandles : s'.openHandles = s.openHandles

namespace Server.SameCore

variable {s s' s'' : Server}

theorem refl (s : Server) : SameCore s s := ⟨rfl, fun _ => rfl, rfl, rfl, rfl, rfl, rfl⟩

theorem trans (h : SameCore s s') (h' : SameCore s' s'') : SameCore s s'' :=
  ⟨h'.dirEntries.trans h.dirEntries, fun j => (h'.inode j).trans (h.inode j),
    h'.deltaEntries.trans h.deltaEntries, h'.seqs.trans h.seqs, h'.next.trans h.next,
    h'.ticks.trans h.ticks, h'.openHandles.trans h.openHandles⟩

theorem cachePut (s : Server) (i : Inode) (v : InodeValue) : SameCore s (s.cachePut i v) :=
  ⟨rfl, fun _ => rfl, rfl, rfl, rfl, rfl, rfl⟩

theorem cacheInvalidate (s : Server) (i : Inode) : SameCore s (s.cacheInvalidate i) :=
  ⟨rfl, fun _ => rfl, rfl, rfl, rfl, rfl, rfl⟩

theorem pendingInsert (s : Server) (i : Inode) : SameCore s (s.pendingInsert i) :=
  ⟨rfl, fun _ => rfl, rfl, rfl, rfl, rfl, rfl⟩

theorem touch (s : Server) (p : Inode) (ds : List DeltaOp) : SameCore s (s.touch p ds) :=
  ⟨rfl, fun _ => rfl, rfl, rfl, rfl, rfl, rfl⟩

theorem touchAll (dss : List (Inode × List DeltaOp)) : ∀ s : Server, SameCore s (s.touchAll dss) := by
  induction dss with
  | nil => exact fun s => refl s
  | cons d dss ih => exact fun s => (touch s d.1 d.2).trans (ih _)

theorem persist (s : Server) : SameCore s s.persist := by
  unfold Server.persist
  split
  · exact ⟨rfl, fun _ => rfl, rfl, rfl, rfl, rfl, rfl⟩
  · exact refl s

end Server.SameCore

namespace Twins

variable {cfg : Config} {P Q : Inode → Prop} {s s' t t' : Server}

theorem congr (h : Twins cfg P s t) (hs : SameCore s s') (ht : SameCore t t') : Twins cfg P s' t' := by
  have hd : ∀ j, s'.db.deltas j = s.db.deltas j := Db.deltas_congr hs.deltaEntries
  exact
    { log := h.log.congr hs.deltaEntries hs.seqs
      plain := h.plain.congr ht.deltaEntries ht.seqs
      dirEntries := by rw [hs.dirEntries, ht.dirEntries, h.dirEntries]
      next := by rw [hs.next, ht.next, h.next]
      ticks := by rw [hs.ticks, ht.ticks, h.ticks]
      openHandles := by rw [hs.openHandles, ht.openHandles, h.openHandles]
      fresh := fun {j} hj => by rw [hs.next]; exact h.fresh (hd j ▸ hj)
      stamps := fun {j u} hu k hk => h.stamps (hd j ▸ hu) k (hs.ticks ▸ hk)
      at_inode := fun j => by rw [hd, hs.inode, ht.inode]; exact h.at_inode j }

theorem mono (h : Twins cfg P s t) (hq : ∀ j, Q j → P j) : Twins cfg Q s t :=
  { h with at_inode := fun j => (h.at_inode j).mono (hq j) }

theorem tick (h : Twins cfg P s t) : Twins cfg P s.tick t.tick :=
  { h with
    log := h.log.congr rfl rfl
    plain := h.plain.congr rfl rfl
    ticks := congrArg (· + 1) h.ticks
    stamps := fun hu k hk => h.stamps hu k (Nat.le_of_succ_le hk) }

/-- The allocator moves on in both. -/
theorem alloc (h : Twins cfg P s t) :
    Twins cfg P { s with next := s.next + 1 } { t with next := t.next + 1 } :=
  { h with
    log := h.log.congr rfl rfl
    plain := h.plain.congr rfl rfl
    next := congrArg (· + 1) h.next
    fresh := fun hj => Nat.lt_succ_of_lt (h.fresh hj) }

theorem write (h : Twins cfg P s t) {ops ops' : List BatchOp} (hops : ∀ op ∈ ops, ¬op.IsDelta)
    (hops' : ∀ op ∈ ops', ¬op.IsDelta)
    (he : (t.db.applyBatch ops').dirEntries = (s.db.applyBatch ops).dirEntries)
    (hi : ∀ j, TwinAt (Q j) (s.db.deltas j) ((s.db.applyBatch ops).inode j)
      ((t.db.applyBatch ops').inode j)) : Twins cfg Q (s.write ops) (t.write ops') := by
  have hd : ∀ j, (s.write ops).db.deltas j = s.db.deltas j :=
    Db.deltas_congr (s.db.deltaEntries_applyBatch hops)
  exact
    { log := h.log.write hops
      plain := h.plain.write hops'
      dirEntries := he
      next := h.next
      ticks := h.ticks
      openHandles := h.openHandles
      fresh := fun {j} hj => h.fresh (hd j ▸ hj)
      stamps := fun {j u} hu k hk => h.stamps (hd j ▸ hu) k hk
      at_inode := fun j => by rw [hd]; exact hi j }

theorem core_parentDeltasAll (b : Config) (dss : List (Inode × List DeltaOp)) : ∀ s : Server,
    (s.parentDeltasAll b dss).db.dirEntries = s.db.dirEntries ∧ (s.parentDeltasAll b dss).next = s.next ∧
      (s.parentDeltasAll b dss).ticks = s.ticks ∧
      (s.parentDeltasAll b dss).openHandles = s.openHandles := by
  induction dss with
  | nil => exact fun _ => ⟨rfl, rfl, rfl, rfl⟩
  | cons d dss ih =>
      intro s
      have hticks : (s.parentDeltas b d.1 d.2).ticks = s.ticks := by
        unfold Server.parentDeltas
        split
        · rfl
        · split <;> rfl
      have hb : Bookkeeping [d.1] s (s.parentDeltas b d.1 d.2) := .parentDeltas b s d.2 List.mem_cons_self
      obtain ⟨he, hn, ht, ho⟩ := ih (s.parentDeltas b d.1 d.2)
      exact ⟨he.trans hb.dirEntries, hn.trans hb.next, ht.trans hticks, ho.trans hb.openHandles⟩

/-- Deltas in one build, folded records in the other. -/
theorem parentDeltasAll (h : Twins cfg P s t) (dss : List (Inode × List DeltaOp))
    (hdir : ∀ d ∈ dss, s.db.IsDirectory d.1) (hlt : ∀ d ∈ dss, d.1 < s.next)
    (hts : ∀ d ∈ dss, ∀ u, .setCtime u ∈ d.2 → ∀ k, s.ticks ≤ k → u ≤ cfg.clock k) :
    Twins cfg P (s.parentDeltasAll (cfg.on .delta) dss) (t.parentDeltasAll (cfg.on .noDelta) dss) := by
  obtain ⟨hes, hns, hts', hos⟩ := core_parentDeltasAll (cfg.on .delta) dss s
  obtain ⟨het, hnt, htt, hot⟩ := core_parentDeltasAll (cfg.on .noDelta) dss t
  have hs := fun j => deltas_parentDeltasAll_delta rfl dss j h.log
  have ht := fun j => inode_parentDeltasAll_noDelta rfl h.plain dss j
  have hmem : ∀ {j u}, u ∈ deltasOf dss j → ∃ d ∈ dss, d.1 = j ∧ u ∈ d.2 := by
    intro j u hu
    obtain ⟨d, hd, hu⟩ := List.mem_flatMap.1 hu
    split at hu
    · rename_i e
      exact ⟨d, hd, e, hu⟩
    · cases hu
  refine
    { log := h.log.parentDeltasAll dss
      plain := h.plain.parentDeltasAll dss
      dirEntries := by rw [hes, het, h.dirEntries]
      next := by rw [hns, hnt, h.next]
      ticks := by rw [hts', htt, h.ticks]
      openHandles := by rw [hos, hot, h.openHandles]
      fresh := ?_
      stamps := ?_
      at_inode := ?_ }
  · intro j hj
    rw [hns]
    rcases deltas_parentDeltasAll dss h.log hj with hj | ⟨d, hd, rfl⟩
    · exact h.fresh hj
    · exact hlt d hd
  · intro j u hu k hk
    rw [hts'] at hk
    rw [(hs j).1, List.mem_append] at hu
    rcases hu with hu | hu
    · exact h.stamps hu k hk
    · obtain ⟨d, hd, -, hu⟩ := hmem hu
      exact hts d hd u hu k hk
  · intro j
    rw [(hs j).1, (hs j).2, ht j]
    refine (h.at_inode j).fold _ fun a ha hfile => deltasOf_ne fun d hd e => ?_
    obtain ⟨b, hb, hbd⟩ := hdir d hd
    rw [e, ha] at hb
    cases hb
    rw [hfile] at hbd
    cases hbd

/-- The deltas of `i` are cleared in both; a record that had some is no longer compared. -/
theorem clearDeltas (h : Twins cfg P s t) (i : Inode) :
    Twins cfg (fun j => P j ∧ (j = i → s.db.inode j = none ∨ s.db.deltas j = [])) (s.clearDeltas i)
      (t.clearDeltas i) := by
  have hd := deltas_clearDeltas s i
  have hsub : ∀ {j}, (s.clearDeltas i).db.deltas j ≠ [] → (s.clearDeltas i).db.deltas j = s.db.deltas j := by
    intro j hj
    rw [hd] at hj ⊢
    split at hj
    · exact absurd rfl hj
    · rename_i e
      exact if_neg e
  refine
    { log := h.log.clearDeltas i
      plain := h.plain.clearDeltas i
      dirEntries := h.dirEntries
      next := h.next
      ticks := h.ticks
      openHandles := h.openHandles
      fresh := fun {j} hj => h.fresh (hsub hj ▸ hj)
      stamps := fun {j u} hu k hk => h.stamps (hsub (List.ne_nil_of_mem hu) ▸ hu) k hk
      at_inode := ?_ }
  intro j
  have hj := h.at_inode j
  show TwinAt _ ((s.clearDeltas i).db.deltas j) (s.db.inode j) (t.db.inode j)
  rw [hd]
  by_cases e : j = i
  · rw [if_pos e]
    cases hi : s.db.inode j with
    | none =>
        rw [hi] at hj
        rw [hj.none_left]
        trivial
    | some a =>
        rw [hi] at hj
        obtain ⟨b, hb, hm⟩ := hj.some_left
        rw [hb] at hj ⊢
        refine ⟨hm, fun hfile => ⟨rfl, (hj.2.1 hfile).2⟩, fun hp => ?_⟩
        rcases hp.2 e with hnone | hnil
        · cases hnone
        · rw [← hnil]
          exact hj.2.2 hp.1
  · rw [if_neg e]
    exact hj.mono And.left

/-- What `rename` drops of the destination `dst`. -/
theorem forget (h : Twins cfg P s t) (dst : Option DirValue) :
    Twins cfg (fun j => P j ∧ ∀ d, dst = some d → j = d.inode → s.db.deltas j = []) (s.forget dst)
      (t.forget dst) := by
  cases dst with
  | none => exact h.mono fun _ => And.left
  | some d =>
      refine ((h.clearDeltas d.inode).congr (.cacheInvalidate _ _) (.cacheInvalidate _ _)).mono ?_
      exact fun j hj => ⟨hj.1, fun e => Or.inr (hj.2 d rfl e)⟩

/-- A compaction of the delta build. -/
theorem compacted (h : Twins cfg P s t) {i : Inode} {base : InodeValue}
    (hi : s.db.inode i = some base) : Twins cfg P (s.compacted i base) t := by
  have hd := deltas_compacted s i base
  have hsub : ∀ {j}, (s.compacted i base).db.deltas j ≠ [] →
      (s.compacted i base).db.deltas j = s.db.deltas j := by
    intro j hj
    rw [hd] at hj ⊢
    split at hj
    · exact absurd rfl hj
    · rename_i e
      exact if_neg e
  have hb := Bookkeeping.compacted s hi
  refine
    { log := h.log.compacted i base
      plain := h.plain
      dirEntries := h.dirEntries.trans hb.dirEntries.symm
      next := h.next.trans hb.next.symm
      ticks := h.ticks
      openHandles := h.openHandles.trans hb.openHandles.symm
      fresh := fun {j} hj => by rw [hb.next]; exact h.fresh (hsub hj ▸ hj)
      stamps := fun {j u} hu k hk => h.stamps (hsub (List.ne_nil_of_mem hu) ▸ hu) k hk
      at_inode := ?_ }
  intro j
  have hj := h.at_inode j
  have hin : (s.compacted i base).db.inode j =
      if j = i then some (foldDeltas base (s.db.deltas i)) else s.db.inode j :=
    inode_compaction i _ (s.db.scanDeltas i) s.db j
  rw [hd, hin]
  by_cases e : j = i
  · subst e
    rw [hi] at hj
    obtain ⟨b, hb', hm⟩ := hj.some_left
    rw [hb'] at hj ⊢
    rw [if_pos rfl, if_pos rfl]
    refine ⟨by simpa using hm, fun hfile => ?_, hj.2.2⟩
    obtain ⟨hnil, hab⟩ := hj.2.1 (by simpa using hfile)
    rw [hnil]
    exact ⟨rfl, hab⟩
  · rw [if_neg e, if_neg e]
    exact hj

end Twins

/-! ## Checks -/

/-- The root, and what an entry names. -/
def Db.Live (db : Db) (j : Inode) : Prop := j = ROOT_INODE ∨ db.Named j

theorem Db.Live.of_names {db D : Db} {j : Inode} (h : D.Live j) (hn : D.names j ≤ db.names j) :
    db.Live j := by
  rcases h with h | h
  · exact Or.inl h
  · exact Or.inr (Db.names_pos.1 (Nat.lt_of_lt_of_le (Db.names_pos.2 h) hn))

namespace Twins

variable {cfg : Config} {P : Inode → Prop} {s t : Server} {p np i : Inode} {n nn : Name}

theorem entry (h : Twins cfg P s t) (p : Inode) (n : Name) : t.db.entry p n = s.db.entry p n := by
  unfold Db.entry
  rw [h.dirEntries]

theorem isDirEmpty (h : Twins cfg P s t) (i : Inode) : t.db.isDirEmpty i = s.db.isDirEmpty i := by
  unfold Db.isDirEmpty
  rw [h.dirEntries]

theorem handles (h : Twins cfg P s t) (i : Inode) : t.handles i = s.handles i := by
  unfold Server.handles
  rw [h.openHandles]

theorem linkCheck (h : Twins cfg P s t) : t.db.linkCheck p n i = s.db.linkCheck p n i := by
  have hi := h.at_inode i
  have hp := h.at_inode p
  unfold Db.linkCheck
  rw [h.entry]
  cases hsi : s.db.inode i with
  | none =>
      rw [hsi] at hi
      rw [hi.none_left]
  | some a =>
      rw [hsi] at hi
      obtain ⟨b, hb, hm⟩ := hi.some_left
      cases hd : isDir a.mode with
      | true =>
          rw [hb]
          dsimp only
          rw [← hm, hd]
          rfl
      | false =>
          obtain ⟨-, ht⟩ := hi.file hd
          rw [ht]
          dsimp only
          rw [hd]
          cases hsp : s.db.inode p with
          | none =>
              rw [hsp] at hp
              rw [hp.none_left]
          | some pa =>
              rw [hsp] at hp
              obtain ⟨pb, hpb, hpm⟩ := hp.some_left
              rw [hpb]
              dsimp only
              rw [hpm]

theorem unlinkCheck (h : Twins cfg P s t) (hw : s.Wf) :
    t.db.unlinkCheck p n = s.db.unlinkCheck p n := by
  unfold Db.unlinkCheck
  rw [h.entry]
  cases he : s.db.entry p n with
  | none => rfl
  | some v =>
      have hi := h.at_inode v.inode
      cases hd : isDir v.mode with
      | true => simp [hd]
      | false =>
          dsimp only
          cases hsi : s.db.inode v.inode with
          | none =>
              rw [hsi] at hi
              rw [hi.none_left]
          | some a =>
              rw [hsi] at hi
              rw [(hi.file (Outcome.isDir_record hw he hd hsi)).2]

theorem rmdirCheck (h : Twins cfg P s t) : t.db.rmdirCheck p n = s.db.rmdirCheck p n := by
  unfold Db.rmdirCheck
  rw [h.entry]
  cases he : s.db.entry p n with
  | none => rfl
  | some v =>
      have hi := h.at_inode v.inode
      dsimp only
      rw [h.isDirEmpty]
      cases hsi : s.db.inode v.inode with
      | none =>
          rw [hsi] at hi
          rw [hi.none_left]
      | some a =>
          rw [hsi] at hi
          obtain ⟨b, hb, -⟩ := hi.some_left
          rw [hb]

theorem renameVictim (h : Twins cfg P s t) (hw : s.Wf) (b : Bool) (ts : Nat) :
    t.db.renameVictim b ts (s.db.entry np nn) = s.db.renameVictim b ts (s.db.entry np nn) := by
  cases he : s.db.entry np nn with
  | none => rfl
  | some d =>
      unfold Db.renameVictim
      dsimp only
      rw [h.isDirEmpty]
      cases hd : isDir d.mode with
      | true => rfl
      | false =>
          have hi := h.at_inode d.inode
          cases hsi : s.db.inode d.inode with
          | none =>
              rw [hsi] at hi
              rw [hi.none_left]
          | some a =>
              rw [hsi] at hi
              rw [(hi.file (Outcome.isDir_record hw he hd hsi)).2]

end Twins

/-! ## Commits of both servers -/

namespace Twins

variable {cfg : Config} {s t : Server} {p : Inode} {n : Name}

theorem setCtime_touch {ts u : Nat} {l : List DeltaOp} (hl : l = [] ∨ ∃ k, l = [.incrementNlink k])
    (h : .setCtime u ∈ l ++ touchDeltas ts) : u = ts := by
  rcases hl with rfl | ⟨k, rfl⟩
  · simpa [touchDeltas] using h
  · simpa [touchDeltas] using h

theorem setCtime_renameDeltas {p np : Inode} {a b : Bool} {ts u : Nat} :
    ∀ d ∈ renameDeltas p np a b ts, .setCtime u ∈ d.2 → u = ts := by
  intro d hd hu
  unfold renameDeltas at hd
  simp only [List.mem_append, List.mem_singleton] at hd
  rcases hd with ((hd | hd) | rfl) | hd
  · split at hd
    · rw [List.mem_singleton.1 hd] at hu
      simp at hu
    · cases hd
  · split at hd
    · simp only [List.mem_cons, List.not_mem_nil, or_false] at hd
      rcases hd with rfl | rfl <;> simp at hu
    · cases hd
  · simpa using hu
  · split at hd
    · rw [List.mem_singleton.1 hd] at hu
      simpa using hu
    · cases hd

/-- The deltas of one parent, written with the time `cfg.clock k₀`. -/
theorem parentDeltas {Q : Inode → Prop} (h : Twins cfg Q s t) (hm : Monotone cfg.clock)
    {l : List DeltaOp} (k₀ : Nat) (hl : l = [] ∨ ∃ k, l = [.incrementNlink k]) (hk : k₀ ≤ s.ticks)
    (hp : s.db.IsDirectory p) (hlt : p < s.next) :
    let ds := l ++ touchDeltas (cfg.clock k₀)
    Twins cfg Q (s.parentDeltas (cfg.on .delta) p ds) (t.parentDeltas (cfg.on .noDelta) p ds) := by
  intro ds
  refine h.parentDeltasAll [(p, ds)] ?_ ?_ ?_
  · intro d hd
    rw [List.mem_singleton.1 hd]
    exact hp
  · intro d hd
    rw [List.mem_singleton.1 hd]
    exact hlt
  · intro d hd u hu k hk'
    rw [List.mem_singleton.1 hd] at hu
    rw [setCtime_touch hl hu]
    exact hm (Nat.le_trans hk hk')

/-- Both servers write the same record of an inode without deltas. -/
theorem writeRecord {Q : Inode → Prop} {ops : List BatchOp} {i : Inode} {iv : InodeValue} (h : Twins cfg Q s t)
    (hops : ∀ op ∈ ops, ¬op.IsDelta) (hentries : (t.db.applyBatch ops).dirEntries = (s.db.applyBatch ops).dirEntries)
    (hin : ∀ (db : Db) (j : Inode), (db.applyBatch ops).inode j = if j = i then some iv else db.inode j)
    (hnil : s.db.deltas i = []) : Twins cfg (fun j => j = i ∨ Q j) (s.write ops) (t.write ops) := by
  refine h.write hops hops hentries fun j => ?_
  rw [hin, hin]
  by_cases e : j = i
  · rw [if_pos e, if_pos e, e, hnil]
    exact .of_eq iv
  · rw [if_neg e, if_neg e]
    exact (h.at_inode j).mono fun hj => hj.resolve_left e

theorem names_commit (b : Config) (s : Server) (ops : List BatchOp) (p : Inode) (ds : List DeltaOp)
    {s' : Server} (h : SameCore ((s.write ops).parentDeltas b p ds) s') (j : Inode) :
    s'.db.names j = (s.db.applyBatch ops).names j :=
  Db.names_eq_of_dirEntries (h.dirEntries.trans (core_parentDeltasAll b [(p, ds)] (s.write ops)).1) j

section

variable (h : Twins cfg s.db.Live s t) (hw : s.Wf) (hm : Monotone cfg.clock)

include h hw hm

theorem created {iv : InodeValue} {extra : List BatchOp} {l : List DeltaOp} (hi : iv.inode = s.next)
    (hfree : s.db.entry p n = none) (hx : ∀ op ∈ extra, op.IsPayload) (hp : s.db.IsDirectory p)
    (hl : l = [] ∨ ∃ k, l = [.incrementNlink k]) : let ds := l ++ touchDeltas (cfg.clock s.ticks)
    let s' := s.created (cfg.on .delta) p n iv extra ds
    Twins cfg s'.db.Live s' (t.created (cfg.on .noDelta) p n iv extra ds) := by
  intro ds s'
  have hside : ∀ op ∈ extra, op.IsSide := fun op ho => (hx op ho).side
  have hnext : s.db.deltas s.next = [] := by
    by_contra hne
    exact Nat.lt_irrefl _ (h.fresh hne)
  have h₁ : Twins cfg (fun j => j = s.next ∨ s.db.Live j)
      ({ s with next := s.next + 1 }.tick.write
        (.putInode iv.inode iv :: .putDirEntry p n ⟨iv.inode, iv.mode⟩ :: extra))
      ({ t with next := t.next + 1 }.tick.write
        (.putInode iv.inode iv :: .putDirEntry p n ⟨iv.inode, iv.mode⟩ :: extra)) := by
    refine h.alloc.tick.writeRecord (BatchOp.not_isDelta_creation hx) ?_
      (fun _ j => (Change.inode_create hside j).trans (by rw [hi])) hnext
    refine (Change.dirEntries_create hside).trans (Eq.trans ?_ (Change.dirEntries_create hside).symm)
    exact congrArg (fun m => OrdMap.put m _ _) h.dirEntries
  obtain ⟨piv, hpi, hpd⟩ := hp
  have hplt := hw.db.inode_lt hpi
  have hp' : (s.db.applyBatch
      (.putInode iv.inode iv :: .putDirEntry p n ⟨iv.inode, iv.mode⟩ :: extra)).IsDirectory p :=
    ⟨piv, by rw [Change.inode_create hside, hi, if_neg (Nat.ne_of_lt hplt), hpi], hpd⟩
  have h₂ := h₁.parentDeltas hm s.ticks hl (Nat.le_succ s.ticks) hp' (Nat.lt_succ_of_lt hplt)
  have hcore : ∀ x : Server, SameCore x ((x.persist.cachePut iv.inode iv).touch p ds) := fun x =>
    ((SameCore.persist x).trans (.cachePut _ _ _)).trans (.touch _ _ _)
  refine (h₂.congr (hcore _) (hcore _)).mono fun j hj => ?_
  by_cases e : j = s.next
  · exact Or.inl e
  · have hn := (Bookkeeping.created (cfg.on .delta) s p n iv extra ds).names j
    refine Or.inr (hj.of_names (Nat.le_of_eq (hn.trans ((Change.names_create hfree hside j).trans ?_))))
    rw [hi, if_neg (Ne.symm e), Nat.add_zero]

theorem linked {i : Inode} {a : InodeValue} {nlink ctime : Nat} (hi : s.db.inode i = some a)
    (hd : isDir a.mode = false) (hfree : s.db.entry p n = none) (hp : s.db.IsDirectory p) :
    let iv := { a with nlink, ctime }
    let s' := s.linked (cfg.on .delta) p n i iv (cfg.clock (s.ticks + 1))
    Twins cfg s'.db.Live s' (t.linked (cfg.on .noDelta) p n i iv (cfg.clock (s.ticks + 1))) := by
  intro iv s'
  obtain ⟨hnil, -⟩ := (hi ▸ h.at_inode i).file hd
  have h₁ : Twins cfg (fun j => j = i ∨ s.db.Live j)
      (s.tick.tick.write [.putInode i iv, .putDirEntry p n ⟨i, iv.mode⟩])
      (t.tick.tick.write [.putInode i iv, .putDirEntry p n ⟨i, iv.mode⟩]) :=
    h.tick.tick.writeRecord (by simp [BatchOp.IsDelta]) (congrArg (fun m => OrdMap.put m _ _) h.dirEntries)
      (fun _ => Change.inode_link) hnil
  obtain ⟨piv, hpi, hpd⟩ := hp
  have hne : p ≠ i := Outcome.ne_of_file ⟨piv, hpi, hpd⟩ hi hd
  have hp' : (s.db.applyBatch [.putInode i iv, .putDirEntry p n ⟨i, iv.mode⟩]).IsDirectory p :=
    ⟨piv, by rw [Change.inode_link, if_neg hne, hpi], hpd⟩
  have h₂ := h₁.parentDeltas hm (s.ticks + 1) (Or.inl rfl) (Nat.le_succ (s.ticks + 1)) hp' (hw.db.inode_lt hpi)
  have hcore : ∀ x : Server, SameCore x ((x.cachePut i iv).touch p _) := fun x =>
    (SameCore.cachePut x i iv).trans (.touch _ p (touchDeltas (cfg.clock (s.ticks + 1))))
  refine (h₂.congr (hcore _) (hcore _)).mono fun j hj => ?_
  by_cases e : j = i
  · exact Or.inl e
  · have hn : s'.db.names j = _ := names_commit (cfg.on .delta) s.tick.tick
      [.putInode i iv, .putDirEntry p n ⟨i, iv.mode⟩] p _ (hcore _) j
    refine Or.inr (hj.of_names (Nat.le_of_eq (hn.trans ((Change.names_link hfree j).trans ?_))))
    rw [if_neg (Ne.symm e), Nat.add_zero]

theorem unlinkedKeep {v : DirValue} {a : InodeValue} {nlink ctime : Nat} (he : s.db.entry p n = some v)
    (hi : s.db.inode v.inode = some a) (hd : isDir a.mode = false) (hp : s.db.IsDirectory p) :
    let iv := { a with nlink, ctime }
    let s' := s.unlinkedKeep (cfg.on .delta) p n v.inode iv (cfg.clock (s.ticks + 1))
    Twins cfg s'.db.Live s' (t.unlinkedKeep (cfg.on .noDelta) p n v.inode iv (cfg.clock (s.ticks + 1))) := by
  intro iv s'
  obtain ⟨hnil, -⟩ := (hi ▸ h.at_inode v.inode).file hd
  have h₁ : Twins cfg (fun j => j = v.inode ∨ s.db.Live j) (s.tick.tick.write [.deleteDirEntry p n, .putInode v.inode iv])
      (t.tick.tick.write [.deleteDirEntry p n, .putInode v.inode iv]) :=
    h.tick.tick.writeRecord (by simp [BatchOp.IsDelta]) (congrArg (fun m => OrdMap.erase m _) h.dirEntries)
      (fun _ => Change.inode_unlinkKeep) hnil
  obtain ⟨piv, hpi, hpd⟩ := hp
  have hne : p ≠ v.inode := Outcome.ne_of_file ⟨piv, hpi, hpd⟩ hi hd
  have hp' : (s.db.applyBatch [.deleteDirEntry p n, .putInode v.inode iv]).IsDirectory p :=
    ⟨piv, by rw [Change.inode_unlinkKeep, if_neg hne, hpi], hpd⟩
  have h₂ := h₁.parentDeltas hm (s.ticks + 1) (Or.inl rfl) (Nat.le_succ (s.ticks + 1)) hp'
    (hw.db.inode_lt hpi)
  have hcore : ∀ x : Server, SameCore x ((if iv.nlink = 0 then (x.cachePut v.inode iv).pendingInsert v.inode
      else x.cachePut v.inode iv).touch p (touchDeltas (cfg.clock (s.ticks + 1)))) := by
    intro x
    refine SameCore.trans ?_ (.touch _ _ _)
    split
    · exact (SameCore.cachePut x v.inode iv).trans (.pendingInsert _ _)
    · exact .cachePut x v.inode iv
  refine (h₂.congr (hcore _) (hcore _)).mono fun j hj => Or.inr (hj.of_names ?_)
  have hn : s'.db.names j = _ := names_commit (cfg.on .delta) s.tick.tick
    [.deleteDirEntry p n, .putInode v.inode iv] p _ (hcore _) j
  rw [hn]
  exact Nat.le.intro (Db.names_of_unbind (by rfl) he j)

/-- A name goes together with the record of `i`. -/
theorem removed {i : Inode} {ops : List BatchOp} {l : List DeltaOp} (hops : ∀ op ∈ ops, ¬op.IsDelta)
    (hin : ∀ (db : Db) (j : Inode), (db.applyBatch ops).inode j = if j = i then none else db.inode j)
    (hent : ∀ db : Db, (db.applyBatch ops).dirEntries = db.dirEntries.erase (toLex (p, n)))
    (hl : l = [] ∨ ∃ k, l = [.incrementNlink k]) (hp : s.db.IsDirectory p) (hne : p ≠ i) :
    let ds := l ++ touchDeltas (cfg.clock s.ticks)
    let out := fun (b : Build) (x : Server) =>
      ((((x.tick.write ops).parentDeltas (cfg.on b) p ds).clearDeltas i).cacheInvalidate i).touch p ds
    Twins cfg (out .delta s).db.Live (out .delta s) (out .noDelta t) := by
  intro ds out
  have h₁ : Twins cfg s.db.Live (s.tick.write ops) (t.tick.write ops) := by
    refine h.tick.write hops hops ?_ fun j => ?_
    · rw [hent, hent]
      exact congrArg (fun m => OrdMap.erase m _) h.dirEntries
    · rw [hin, hin]
      split
      · trivial
      · exact h.at_inode j
  obtain ⟨piv, hpi, hpd⟩ := hp
  have hp' : (s.db.applyBatch ops).IsDirectory p := ⟨piv, by rw [hin, if_neg hne, hpi], hpd⟩
  have h₂ := h₁.parentDeltas hm s.ticks hl (Nat.le_succ s.ticks) hp' (hw.db.inode_lt hpi)
  have hcore : ∀ x : Server, SameCore x ((x.cacheInvalidate i).touch p ds) := fun x =>
    (SameCore.cacheInvalidate x i).trans (.touch _ _ _)
  refine ((h₂.clearDeltas i).congr (hcore _) (hcore _)).mono fun j hj => ⟨?_, fun e => Or.inl ?_⟩
  · refine hj.of_names ?_
    have hn : (out .delta s).db.names j = (s.db.applyBatch ops).names j :=
      Db.names_eq_of_dirEntries (core_parentDeltasAll (cfg.on .delta) [(p, ds)] (s.tick.write ops)).1 j
    rw [hn]
    exact Nat.le.intro (Db.names_of_erase (hent s.db) j)
  · have hd := (deltas_parentDeltasAll_delta rfl [(p, ds)] j h₁.log).2
    refine hd.trans ((hin s.db j).trans (if_pos e))

end

end Twins

/-! ## Rename in both servers -/

namespace Twins

variable {cfg : Config} {s t : Server} {p np : Inode} {n nn : Name} {v : DirValue} {a b : InodeValue}
  {vic : Victim} {isd isd' : Bool}

theorem write_rename (h : Twins cfg s.db.Live s t) (hw : s.Wf)
    (hi : s.db.inode v.inode = some a) (hb : t.db.inode v.inode = some b)
    (hv : VictimOf s.db isd (cfg.clock s.ticks) (s.db.entry np nn) vic)
    (hv' : VictimOf t.db isd' (cfg.clock s.ticks) (s.db.entry np nn) vic) :
    Twins cfg s.db.Live
      (s.tick.write (renameOps p n np nn v.inode a (s.db.entry np nn) vic (cfg.clock s.ticks)))
      (t.tick.write (renameOps p n np nn v.inode b (s.db.entry np nn) vic (cfg.clock s.ticks))) := by
  have hsrc : TwinAt (s.db.Live v.inode) (s.db.deltas v.inode) (some a) (some b) := by
    have hj := h.at_inode v.inode
    rwa [hi, hb] at hj
  refine h.tick.write not_isDelta_renameOps not_isDelta_renameOps ?_ fun j => ?_
  · have hm : a.mode = b.mode := hsrc.1
    have hd : t.tick.db.dirEntries = s.tick.db.dirEntries := h.dirEntries
    rw [dirEntries_renameOps, dirEntries_renameOps, hm, hd]
  · have hs : (s.tick.db.applyBatch (renameOps p n np nn v.inode a (s.db.entry np nn) vic
        (cfg.clock s.ticks))).inode j = vic.records v.inode { a with ctime := cfg.clock s.ticks } s.db j :=
      inode_renameOps hv j
    have ht : (t.tick.db.applyBatch (renameOps p n np nn v.inode b (s.db.entry np nn) vic
        (cfg.clock s.ticks))).inode j = vic.records v.inode { b with ctime := cfg.clock s.ticks } t.db j :=
      inode_renameOps hv' j
    rw [hs, ht]
    unfold Victim.records
    by_cases e : j = v.inode
    · rw [if_pos e, if_pos e, e]
      refine ⟨hsrc.1, fun hfile => ?_, fun hlive => ?_⟩
      · obtain ⟨hnil, hab⟩ := hsrc.2.1 hfile
        exact ⟨hnil, by rw [hab]⟩
      · have hfold := foldDeltas_ctime (s.db.deltas v.inode) a fun u hu =>
          h.stamps hu s.ticks (Nat.le_refl _)
        exact hfold.trans (by rw [hsrc.2.2 hlive])
    · rw [if_neg e, if_neg e]
      split
      · trivial
      · split
        · rename_i k hk
          split
          · rename_i hjk
            obtain ⟨d, div, hdst, hdd, -, hdi, -, rfl⟩ := hv.keep_eq hk
            have hj := h.at_inode d.inode
            rw [hdi] at hj
            obtain ⟨hnil, -⟩ := hj.file (Outcome.isDir_record hw hdst hdd hdi)
            rw [hjk]
            show TwinAt _ (s.db.deltas d.inode) _ _
            rw [hnil]
            exact .of_eq _
          · exact h.at_inode j
        · exact h.at_inode j

theorem names_renamed (b : Config) (he : s.db.entry p n = some v)
    (hne : ∀ d, s.db.entry np nn = some d → d.inode ≠ v.inode) {dss : List (Inode × List DeltaOp)}
    (j : Inode) :
    ((s.renameCommitted b p n np nn v.inode a vic dss).touchAll dss).db.names j +
      Db.nameHit j (s.db.entry np nn) = s.db.names j := by
  have hkey : ¬(p = np ∧ n = nn) := by
    rintro ⟨rfl, rfl⟩
    exact hne v he rfl
  have hops : (s.db.applyBatch (renameOps p n np nn v.inode a (s.db.entry np nn) vic
      (b.clock s.ticks))).names j + Db.nameHit j (s.db.entry np nn) = s.db.names j :=
    names_renameOps he hkey j
  refine Eq.trans (congrArg (· + _) ?_) hops
  refine Db.names_eq_of_dirEntries ?_ j
  have hf : ∀ (x : Server) (dst : Option DirValue), (x.forget dst).db.dirEntries = x.db.dirEntries := by
    intro x dst
    cases dst <;> rfl
  refine (SameCore.touchAll dss _).dirEntries.trans ?_
  refine (SameCore.cachePut _ _ _).dirEntries.trans ?_
  rw [hf]
  exact (core_parentDeltasAll b dss _).1

theorem renamed (h : Twins cfg s.db.Live s t) (hw : s.Wf) (hm : Monotone cfg.clock)
    (he : s.db.entry p n = some v) (hi : s.db.inode v.inode = some a)
    (hb : t.db.inode v.inode = some b)
    (hv : VictimOf s.db isd (cfg.clock s.ticks) (s.db.entry np nn) vic)
    (hv' : VictimOf t.db isd' (cfg.clock s.ticks) (s.db.entry np nn) vic)
    (hemp : ∀ d, s.db.entry np nn = some d → vic.wasDir = true → s.db.isDirEmpty d.inode = true)
    (hpar : ∀ q ∈ [p, np], s.db.IsDirectory q)
    (hne : ∀ d, s.db.entry np nn = some d → d.inode ≠ v.inode) :
    let dss := renameDeltas p np isd vic.wasDir (cfg.clock s.ticks)
    let s' := (s.renameCommitted (cfg.on .delta) p n np nn v.inode a vic dss).touchAll dss
    let t' := (t.renameCommitted (cfg.on .noDelta) p n np nn v.inode b vic dss).touchAll dss
    Twins cfg s'.db.Live s' t' := by
  intro dss s' t'
  have hdp := Outcome.dst_ne_parent hw.db.type_eq hpar he hv hemp
  have h₁ := h.write_rename (p := p) (n := n) hw hi hb hv hv'
  have hrec : ∀ j, (s.db.applyBatch (renameOps p n np nn v.inode a (s.db.entry np nn) vic
      (cfg.clock s.ticks))).inode j = vic.records v.inode { a with ctime := cfg.clock s.ticks } s.db j :=
    fun j => inode_renameOps hv j
  have hdir : ∀ q ∈ [p, np], (s.db.applyBatch (renameOps p n np nn v.inode a (s.db.entry np nn) vic
      (cfg.clock s.ticks))).IsDirectory q := by
    intro q hq
    obtain ⟨qiv, hqi, hqd⟩ := hpar q hq
    by_cases e : q = v.inode
    · rw [e, hi] at hqi
      cases hqi
      exact ⟨{ a with ctime := cfg.clock s.ticks }, by rw [hrec, e]; exact if_pos rfl, hqd⟩
    · exact ⟨qiv, by rw [hrec, hv.records_ne e fun d hd => hdp d hd q hq, hqi], hqd⟩
  have hfst : ∀ d ∈ dss, d.1 ∈ [p, np] := fun d hd => renameDeltas_fst d hd
  have hlt : ∀ d ∈ dss, d.1 < s.next := by
    intro d hd
    obtain ⟨qiv, hqi, -⟩ := hpar d.1 (hfst d hd)
    exact hw.db.inode_lt hqi
  have h₂ := h₁.parentDeltasAll dss (fun d hd => hdir d.1 (hfst d hd)) hlt fun d hd u hu k hk => by
    rw [setCtime_renameDeltas d hd hu]
    exact hm (Nat.le_of_succ_le hk)
  have h₃ := (h₂.forget (s.db.entry np nn)).congr
    ((SameCore.cachePut _ v.inode { a with ctime := cfg.clock s.ticks }).trans (.touchAll dss _))
    ((SameCore.cachePut _ v.inode { b with ctime := cfg.clock s.ticks }).trans (.touchAll dss _))
  have ht' : t' = (((((t.tick.write (renameOps p n np nn v.inode b (s.db.entry np nn) vic
      (cfg.clock s.ticks))).parentDeltasAll (cfg.on .noDelta) dss).forget (s.db.entry np nn)).cachePut
        v.inode { b with ctime := cfg.clock s.ticks }).touchAll dss) := by
    show ((t.renameCommitted (cfg.on .noDelta) p n np nn v.inode b vic dss).touchAll dss) = _
    unfold Server.renameCommitted
    rw [h.entry, h.ticks]
    rfl
  rw [ht']
  refine h₃.mono fun j hj => ?_
  have hnames : s'.db.names j + Db.nameHit j (s.db.entry np nn) = s.db.names j :=
    names_renamed (cfg.on .delta) he hne j
  refine ⟨hj.of_names (Nat.le.intro hnames), fun d hd e => ?_⟩
  subst e
  rcases (hd ▸ hv).wasDir_or_file with hwas | ⟨hdd, div, hdi⟩
  · -- a replaced directory has lost its only name
    exfalso
    have hdd : isDir d.mode = true := (hd ▸ hv).isDir_eq.1.trans ((hd ▸ hv).isDir_eq.2.symm.trans hwas)
    rw [hd, Db.nameHit_some, if_pos rfl, hw.db.names_dir hd hdd] at hnames
    rcases hj with hj | hj
    · exact hw.db.entry_ne_root hd hj
    · have hpos := Db.names_pos.2 hj
      omega
  · obtain ⟨hnil, -⟩ := (hdi ▸ h.at_inode d.inode).file (Outcome.isDir_record hw hd hdd hdi)
    rw [(deltas_parentDeltasAll_delta rfl dss d.inode h₁.log).1,
      deltasOf_ne fun q hq => hdp d hd q.1 (hfst q hq), List.append_nil]
    exact (Db.deltas_congr (Db.deltaEntries_applyBatch s.db not_isDelta_renameOps) d.inode).trans hnil

end Twins

/-! ## Calls in both servers -/

/-- The calls that make, move and remove names. -/
def Call.onNames : Call → Bool
  | .create .. | .mkdir .. | .symlink .. | .link .. | .unlink .. | .rmdir .. | .rename .. => true
  | _ => false

/-- `c` gets one reply from both servers and leaves twins. -/
def Server.Agree (cfg : Config) (s t : Server) (c : Call) : Prop :=
  (s.exec (cfg.on .delta) c).1 = (t.exec (cfg.on .noDelta) c).1 ∧
    Twins cfg (s.exec (cfg.on .delta) c).2.db.Live (s.exec (cfg.on .delta) c).2
      (t.exec (cfg.on .noDelta) c).2

namespace Twins

variable {cfg : Config} {s t : Server} {p np i : Inode} {n nn : Name}

theorem agree {α : Type} {c : Call} {f : FsResult α → Reply} {op op' : Op α} {r : FsResult α}
    {tx tx' : Txn} {s' t' : Server} (hc : c.body (cfg.on .delta) = do return f (← op.run))
    (hc' : c.body (cfg.on .noDelta) = do return f (← op'.run))
    (hs : Op.exec (cfg.on .delta) op ({}, s) = (r, tx, s'))
    (ht : Op.exec (cfg.on .noDelta) op' ({}, t) = (r, tx', t'))
    (h : Twins cfg s'.db.Live s' t') : s.Agree cfg t c := by
  unfold Server.Agree
  rw [Server.exec_eq hc hs, Server.exec_eq hc' ht]
  exact ⟨rfl, h⟩

section

variable (h : Twins cfg s.db.Live s t) (hw : s.Wf) (hm : Monotone cfg.clock)

include h hw hm

theorem agree_creation {c : Call} {op op' : Op FileAttr} {iv : InodeValue} {extra : List BatchOp} {l : List DeltaOp}
    (hc : c.body (cfg.on .delta) = do return .attr (← op.run))
    (hc' : c.body (cfg.on .noDelta) = do return .attr (← op'.run)) (hi : iv.inode = s.next)
    (hx : ∀ o ∈ extra, o.IsPayload) (hp : s.db.IsDirectory p) (hl : l = [] ∨ ∃ k, l = [.incrementNlink k])
    (hs : Op.exec (cfg.on .delta) op ({}, s) =
      let out := s.creation (cfg.on .delta) p n iv extra (l ++ touchDeltas (cfg.clock s.ticks))
      (out.1, {}, out.2)) (ht : Op.exec (cfg.on .noDelta) op' ({}, t) =
      let out := t.creation (cfg.on .noDelta) p n iv extra (l ++ touchDeltas (cfg.clock s.ticks))
      (out.1, {}, out.2)) : s.Agree cfg t c := by
  unfold Server.creation at hs ht
  rw [h.entry] at ht
  by_cases hn : n.length > NAME_MAX
  · rw [if_pos hn] at hs ht
    exact agree hc hc' hs ht h
  rw [if_neg hn] at hs ht
  cases he : s.db.entry p n with
  | some v =>
      rw [he] at hs ht
      exact agree hc hc' hs ht h
  | none =>
      rw [he] at hs ht
      exact agree hc hc' hs ht (h.created hw hm hi he hx hp hl)

theorem agree_create (mode uid gid : Nat) (hp : s.db.IsDirectory p) : s.Agree cfg t (.create p n mode uid gid) := by
  have ht := exec_create (cfg.on .noDelta) t p n mode uid gid
  unfold Server.newFile at ht
  rw [h.next, h.ticks] at ht
  exact h.agree_creation hw hm rfl rfl rfl (by simp [BatchOp.IsPayload]) hp (Or.inl rfl)
    (exec_create (cfg.on .delta) s p n mode uid gid) ht

theorem agree_mkdir (mode uid gid : Nat) (hp : s.db.IsDirectory p) : s.Agree cfg t (.mkdir p n mode uid gid) := by
  have ht := exec_mkdir (cfg.on .noDelta) t p n mode uid gid
  unfold Server.newDir at ht
  rw [h.next, h.ticks] at ht
  exact h.agree_creation hw hm rfl rfl rfl (by simp) hp (Or.inr ⟨1, rfl⟩)
    (exec_mkdir (cfg.on .delta) s p n mode uid gid) ht

theorem agree_symlink (target : List Byte) (uid gid : Nat) (hp : s.db.IsDirectory p) :
    s.Agree cfg t (.symlink p n target uid gid) := by
  have ht := exec_symlink (cfg.on .noDelta) t p n target uid gid
  unfold Server.newSymlink at ht
  rw [h.next, h.ticks] at ht
  exact h.agree_creation hw hm rfl rfl rfl (by simp [BatchOp.IsPayload]) hp (Or.inl rfl)
    (exec_symlink (cfg.on .delta) s p n target uid gid) ht

theorem agree_link (hp : s.db.IsDirectory p) : s.Agree cfg t (.link p n i) := by
  have hs := exec_link (cfg.on .delta) s p n i
  have ht := exec_link (cfg.on .noDelta) t p n i
  rw [h.linkCheck, h.ticks] at ht
  by_cases hn : n.length > NAME_MAX
  · rw [if_pos hn] at hs ht
    exact agree rfl rfl hs ht h
  rw [if_neg hn] at hs ht
  cases hcheck : s.db.linkCheck p n i with
  | error e =>
      rw [hcheck] at hs ht
      exact agree rfl rfl hs ht h
  | ok iv =>
      rw [hcheck] at hs ht
      obtain ⟨hi, hd, he, -⟩ := Db.linkCheck_ok hcheck
      exact agree rfl rfl hs ht (h.linked hw hm hi hd he hp)

theorem agree_unlink (hp : s.db.IsDirectory p) : s.Agree cfg t (.unlink p n) := by
  have hs := exec_unlink (cfg.on .delta) s p n
  have ht := exec_unlink (cfg.on .noDelta) t p n
  rw [h.unlinkCheck hw, h.ticks] at ht
  by_cases hn : n.length > NAME_MAX
  · rw [if_pos hn] at hs ht
    exact agree rfl rfl hs ht h
  rw [if_neg hn] at hs ht
  cases hcheck : s.db.unlinkCheck p n with
  | error e =>
      rw [hcheck] at hs ht
      exact agree rfl rfl hs ht h
  | ok r =>
      obtain ⟨v, iv⟩ := r
      rw [hcheck] at hs ht
      obtain ⟨he, hd, hi⟩ := Db.unlinkCheck_ok hcheck
      have hfile : isDir iv.mode = false := Outcome.isDir_record hw he hd hi
      dsimp only at hs ht
      rw [h.handles] at ht
      by_cases hdrop : iv.nlink - 1 = 0 ∧ s.handles v.inode = 0
      · rw [if_pos hdrop] at hs ht
        refine agree rfl rfl hs ht (h.removed hw hm (l := []) ?_ (fun _ _ => ?_) (fun _ => rfl)
          (Or.inl rfl) hp (Outcome.ne_of_file hp hi hfile))
        · simp [BatchOp.IsDelta]
        · exact Change.inode_unlinkDrop _
      · rw [if_neg hdrop] at hs ht
        exact agree rfl rfl hs ht (h.unlinkedKeep hw hm he hi hfile hp)

theorem agree_rmdir (hp : s.db.IsDirectory p) : s.Agree cfg t (.rmdir p n) := by
  have hs := exec_rmdir (cfg.on .delta) s p n
  have ht := exec_rmdir (cfg.on .noDelta) t p n
  rw [h.rmdirCheck, h.ticks] at ht
  by_cases hn : n.length > NAME_MAX
  · rw [if_pos hn] at hs ht
    exact agree rfl rfl hs ht h
  rw [if_neg hn] at hs ht
  cases hcheck : s.db.rmdirCheck p n with
  | error e =>
      rw [hcheck] at hs ht
      exact agree rfl rfl hs ht h
  | ok v =>
      rw [hcheck] at hs ht
      obtain ⟨he, -, -, hemp⟩ := Db.rmdirCheck_ok hcheck
      refine agree rfl rfl hs ht (h.removed hw hm (l := [.incrementNlink (-1)]) ?_ (fun _ _ => ?_)
        (fun _ => rfl) (Or.inr ⟨-1, rfl⟩) hp (Outcome.ne_of_empty he hemp))
      · simp [BatchOp.IsDelta]
      · exact Change.inode_rmdir _

theorem agree_rename (hpar : ∀ q ∈ [p, np], s.db.IsDirectory q) (hne : (Call.rename p n np nn).DistinctInodes s.db) :
    s.Agree cfg t (.rename p n np nn) := by
  have hs := exec_rename (cfg.on .delta) s p n np nn
  have ht := exec_rename (cfg.on .noDelta) t p n np nn
  by_cases hn : n.length > NAME_MAX
  · rw [if_pos hn] at hs ht
    exact agree rfl rfl hs ht h
  by_cases hnn : nn.length > NAME_MAX
  · rw [if_neg hn, if_pos hnn] at hs ht
    exact agree rfl rfl hs ht h
  rw [if_neg hn, if_neg hnn] at hs ht
  unfold Server.renaming at hs ht
  unfold Db.renameSource at hs ht
  rw [h.entry, h.entry, h.ticks] at ht
  cases he : s.db.entry p n with
  | none =>
      rw [he] at hs ht
      exact agree rfl rfl hs ht h
  | some v =>
      have hsrc := h.at_inode v.inode
      rw [he] at hs ht
      dsimp only at hs ht
      cases hi : s.db.inode v.inode with
      | none =>
          rw [hi] at hs hsrc
          rw [hsrc.none_left] at ht
          exact agree rfl rfl hs ht h
      | some a =>
          rw [hi] at hs hsrc
          obtain ⟨b, hb, hmode⟩ := hsrc.some_left
          rw [hb] at ht
          dsimp only at hs ht
          rw [h.renameVictim hw, ← hmode] at ht
          cases hvic : s.db.renameVictim (isDir a.mode) (cfg.clock s.ticks) (s.db.entry np nn) with
          | error e =>
              simp only [Config.on, hvic] at hs ht
              exact agree rfl rfl hs ht h.tick
          | ok vic =>
              simp only [Config.on, hvic] at hs ht
              obtain ⟨hv, hemp⟩ := Db.renameVictim_ok hvic
              have hv' := (Db.renameVictim_ok ((h.renameVictim hw _ _).trans hvic)).1
              exact agree rfl rfl hs ht
                (h.renamed hw hm he hi hb hv hv' hemp hpar fun d hd => hne v d he hd)

/-- **One call** on names in both builds. -/
theorem exec {c : Call} (hc : c.onNames = true) (hp : c.ParentsExist s.db) (hne : c.DistinctInodes s.db) :
    s.Agree cfg t c := by
  cases c with
  | create p n mode uid gid => exact h.agree_create hw hm mode uid gid (hp p List.mem_cons_self)
  | mkdir p n mode uid gid => exact h.agree_mkdir hw hm mode uid gid (hp p List.mem_cons_self)
  | symlink p n target uid gid => exact h.agree_symlink hw hm target uid gid (hp p List.mem_cons_self)
  | link p n i => exact h.agree_link hw hm (hp p List.mem_cons_self)
  | unlink p n => exact h.agree_unlink hw hm (hp p List.mem_cons_self)
  | rmdir p n => exact h.agree_rmdir hw hm (hp p List.mem_cons_self)
  | rename p n np nn => exact h.agree_rename hw hm hp hne
  | _ => cases hc

end

/-- A compaction in the delta build only. -/
theorem compact (h : Twins cfg s.db.Live s t) (i : Inode) :
    let s' := (s.exec (cfg.on .delta) (.forceCompactInode i)).2
    Twins cfg s'.db.Live s' t := by
  intro s'
  obtain ⟨tx', hop⟩ := exec_forceCompactInode (cfg.on .delta) s i {}
  have hexec : ∀ {r x}, Op.exec (cfg.on .delta) (forceCompactInode i) ({}, s) = (r, tx', x) → s' = x :=
    fun hx => congrArg Prod.snd (Server.exec_eq (c := .forceCompactInode i) rfl hx)
  by_cases hk : (s.db.scanDeltas i).isEmpty
  · rw [if_pos hk] at hop
    rw [hexec hop]
    exact h
  rw [if_neg hk] at hop
  cases hi : s.db.inode i with
  | none =>
      rw [hi] at hop
      rw [hexec hop]
      exact h
  | some base =>
      rw [hi] at hop
      rw [hexec hop]
      refine (h.compacted hi).mono fun j hj => hj.of_names (Nat.le_of_eq ?_)
      exact (Bookkeeping.compacted s hi).names j

end Twins

/-! ## Runs of both servers -/

/-- An event of a run of both builds: a call served by both, or a compaction in the delta build. -/
inductive BuildEvent where
  | both (c : Call)
  | compact (i : Inode)

/-- The replies to a call of both, if it is one, and the servers after it. -/
def BuildEvent.step (cfg : Config) : BuildEvent → Server × Server → Option (Reply × Reply) × Server × Server
  | .both c, (s, t) =>
      let a := s.exec (cfg.on .delta) c
      let b := t.exec (cfg.on .noDelta) c
      (some (a.1, b.1), a.2, b.2)
  | .compact i, (s, t) => (none, (s.exec (cfg.on .delta) (.forceCompactInode i)).2, t)

/-- The calls of the run: they make, move and remove names, under existing directories, and renames
are between different inodes. -/
def BuildEvent.Admitted (db : Db) : BuildEvent → Prop
  | .both c => c.onNames = true ∧ c.ParentsExist db ∧ c.DistinctInodes db
  | .compact _ => True

theorem Twins.fresh_servers (cfg : Config) :
    Twins cfg (Server.fresh (cfg.on .delta)).db.Live (Server.fresh (cfg.on .delta))
      (Server.fresh (cfg.on .noDelta)) where
  log := .fresh _
  plain := .fresh _
  dirEntries := rfl
  next := rfl
  ticks := rfl
  openHandles := rfl
  fresh {j} hj := absurd (Server.deltas_fresh _ j) hj
  stamps {j} _ hu := by
    rw [Server.deltas_fresh _ j] at hu
    cases hu
  at_inode j := by
    rw [Server.deltas_fresh _ j, Server.inode_fresh, Server.inode_fresh]
    by_cases e : j = ROOT_INODE
    · rw [if_pos e, if_pos e]
      exact .of_eq _
    · rw [if_neg e, if_neg e]
      trivial

/-- **The builds agree.**  Run on the same calls with one clock that never goes back, with
compactions of the delta build anywhere in between, both builds return the same replies; afterwards
they hold the same entries, and the base of every inode in use folded with its deltas is the record
of the `no_delta` build. -/
theorem builds_agree {cfg : Config} (hm : Monotone cfg.clock)
    {es : List (BuildEvent × Option (Reply × Reply))} {st : Server × Server}
    (h : Trace (BuildEvent.step cfg) (fun _ st e => e.Admitted st.1.db)
      (Server.fresh (cfg.on .delta), Server.fresh (cfg.on .noDelta)) es st) :
    (∀ e ∈ es, ∀ a b, e.2 = some (a, b) → a = b) ∧ st.2.db.dirEntries = st.1.db.dirEntries ∧
      ∀ j, j = ROOT_INODE ∨ st.1.db.Named j → st.1.db.effective j = st.2.db.inode j := by
  have hinv : (∀ e ∈ es, ∀ a b, e.2 = some (a, b) → a = b) ∧ st.1.Wf ∧
      Twins cfg st.1.db.Live st.1 st.2 := by
    refine h.invariant (fun es st => (∀ e ∈ es, ∀ a b, e.2 = some (a, b) → a = b) ∧ st.1.Wf ∧
      Twins cfg st.1.db.Live st.1 st.2) ⟨by simp, Server.wf_fresh _, .fresh_servers cfg⟩ ?_
    rintro es ⟨s, t⟩ e ⟨hreplies, hw, htw⟩ hok
    have hnew : ∀ o : Option (Reply × Reply), (∀ a b, o = some (a, b) → a = b) →
        ∀ e' ∈ es ++ [(e, o)], ∀ a b, e'.2 = some (a, b) → a = b := by
      intro o ho e' he'
      rcases List.mem_append.1 he' with he' | he'
      · exact hreplies e' he'
      · rw [List.mem_singleton.1 he']
        exact ho
    cases e with
    | both c =>
        obtain ⟨hc, hp, hne⟩ := hok
        obtain ⟨hr, htw'⟩ := htw.exec hw hm hc hp hne
        refine ⟨hnew _ fun a b hab => ?_, hw.exec _ c, htw'⟩
        cases hab
        exact hr
    | compact i =>
        refine ⟨hnew _ fun a b hab => ?_, hw.exec _ _, htw.compact i⟩
        cases hab
  obtain ⟨hreplies, -, htw⟩ := hinv
  exact ⟨hreplies, htw.dirEntries, fun j hj => (htw.at_inode j).effective hj⟩

/-- Two directories are made, the deltas of the root are compacted, and one is moved into the other;
the clock is the number of the reading. -/
theorem builds_agree_moved :
    let cfg : Config := { clock := id }
    let st₀ := (Server.fresh (cfg.on .delta), Server.fresh (cfg.on .noDelta))
    let st₁ := (BuildEvent.step cfg (.both (.mkdir 1 [97] 0o755 0 0)) st₀).2
    let st₂ := (BuildEvent.step cfg (.both (.mkdir 1 [98] 0o755 0 0)) st₁).2
    let st₃ := (BuildEvent.step cfg (.compact 1) st₂).2
    let moved := BuildEvent.step cfg (.both (.rename 1 [97] 3 [99])) st₃
    (∀ a b, moved.1 = some (a, b) → a = b) ∧ moved.2.2.db.dirEntries = moved.2.1.db.dirEntries ∧
      moved.2.1.db.effective 1 = moved.2.2.db.inode 1 ∧
      moved.2.1.db.effective 3 = moved.2.2.db.inode 3 := by
  intro cfg st₀ st₁ st₂ st₃ moved
  have h₁ : Trace (BuildEvent.step cfg) (fun _ st e => e.Admitted st.1.db) st₀ _ st₁ :=
    .snoc (BuildEvent.both (.mkdir 1 [97] 0o755 0 0)) .nil ⟨rfl, by decide, trivial⟩
  have h₂ := h₁.snoc (BuildEvent.both (.mkdir 1 [98] 0o755 0 0)) ⟨rfl, by decide, trivial⟩
  have h₃ := h₂.snoc (BuildEvent.compact 1) trivial
  have hfree : st₃.1.db.entry 3 [99] = none := by decide
  have h₄ : Trace (BuildEvent.step cfg) (fun _ st e => e.Admitted st.1.db) st₀ _ moved.2 :=
    h₃.snoc (BuildEvent.both (.rename 1 [97] 3 [99])) ⟨rfl, by decide, fun v d _ hd => by
      rw [hfree] at hd
      cases hd⟩
  obtain ⟨hreplies, he, hin⟩ := builds_agree monotone_id h₄
  have hnamed : moved.2.1.db.entry 1 [98] = some ⟨3, S_IFDIR ||| 0o755⟩ := by decide
  have hlast := hreplies _ (List.mem_append_right _ List.mem_cons_self)
  exact ⟨hlast, he, hin 1 (Or.inl rfl), hin 3 (Or.inr ⟨1, [98], _, hnamed, rfl⟩)⟩

end RucksFs
