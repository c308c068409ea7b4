import RucksFs.Entries
import RucksFs.Server.Log

/-!
# The cache of folded records

Every cached value should be the stored base record folded with all stored deltas.

* `setattr_caches_unfolded_record` — `setattr` on a directory with pending deltas caches the base
  record alone.
* `cache_coherent` — in every run in which the records that `setattr`, `report_write` and `rename`
  rewrite have no pending deltas, every cached value is the effective record.

Inside an operation the cache and the database disagree for a while.  A `Note` says how for one
inode: the cached value still lacks some deltas, or the record has just been stored and the cached
value is not to be looked at.  One lemma per update of the server moves the notes along; at the end
of an operation every note is `cached []` again.
-/

set_option autoImplicit false

namespace RucksFs

open Server

/-- How the cached value of an inode relates to its effective record. -/
inductive Note where
  /-- A cached value lacks the deltas `ds`. -/
  | cached (ds : List DeltaOp)
  /-- The effective record is `iv` folded with `ds`; the cached value may be anything. -/
  | stored (iv : InodeValue) (ds : List DeltaOp)
  | stale

def Note.append : Note → List DeltaOp → Note
  | .cached l, ds => .cached (l ++ ds)
  | .stored iv l, ds => .stored iv (l ++ ds)
  | .stale, _ => .stale

def Note.Holds (s : Server) (j : Inode) : Note → Prop
  | .cached ds => ∀ v, s.cache.find j = some v → s.db.effective j = some (foldDeltas v ds)
  | .stored iv ds => s.db.effective j = some (foldDeltas iv ds)
  | .stale => True

/-- The notes of all inodes hold, and only `busy` inodes have deltas. -/
structure Noted (cfg : Config) (busy : Inode → Prop) (s : Server) (notes : Inode → Note) : Prop where
  log : LogOk cfg s
  busy : ∀ {j}, s.db.deltas j ≠ [] → busy j
  holds : ∀ j, (notes j).Holds s j

namespace Noted

variable {cfg : Config} {busy : Inode → Prop} {s s' : Server} {notes notes' : Inode → Note}
  {dss : List (Inode × List DeltaOp)} {i : Inode} {ops : List BatchOp}

theorem congr (h : Noted cfg busy s notes) (hi : ∀ j, s'.db.inode j = s.db.inode j)
    (hd : s'.db.deltaEntries = s.db.deltaEntries) (hq : s'.seqs = s.seqs)
    (hc : s'.cache = s.cache) : Noted cfg busy s' notes := by
  have heff : ∀ j, s'.db.effective j = s.db.effective j :=
    fun j => Db.effective_congr (hi j) (Db.deltas_congr hd j)
  refine ⟨h.log.congr hd hq, fun {j} hj => h.busy (by rwa [← Db.deltas_congr hd j]), fun j => ?_⟩
  have hj := h.holds j
  unfold Note.Holds at hj ⊢
  rw [heff, hc]
  exact hj

theorem persist (h : Noted cfg busy s notes) : Noted cfg busy s.persist notes := by
  unfold Server.persist
  split
  · exact h.congr (fun _ => rfl) rfl rfl rfl
  · exact h

theorem handleIncr (h : Noted cfg busy s notes) (i : Inode) : Noted cfg busy (s.handleIncr i) notes :=
  h.congr (fun _ => rfl) rfl rfl rfl

theorem tick (h : Noted cfg busy s notes) : Noted cfg busy s.tick notes :=
  h.congr (fun _ => rfl) rfl rfl rfl

/-- A batch without deltas: a record that it stores for an inode without deltas is noted. -/
theorem write (h : Noted cfg busy s notes) (hops : ∀ op ∈ ops, ¬op.IsDelta)
    (hn : ∀ j, ((s.db.applyBatch ops).inode j = s.db.inode j ∧ notes' j = notes j) ∨
      (∃ iv, (s.db.applyBatch ops).inode j = some iv ∧ s.db.deltas j = [] ∧ notes' j = .stored iv []) ∨
      notes' j = .stale) : Noted cfg busy (s.write ops) notes' := by
  have hd : ∀ j, (s.write ops).db.deltas j = s.db.deltas j :=
    Db.deltas_congr (s.db.deltaEntries_applyBatch hops)
  refine ⟨h.log.write hops, fun {j} hj => h.busy (by rwa [← hd j]), fun j => ?_⟩
  rcases hn j with ⟨hi, e⟩ | ⟨iv, hi, hnil, e⟩ | e
  · have hj := h.holds j
    have heff : (s.write ops).db.effective j = s.db.effective j := Db.effective_congr hi (hd j)
    rw [e]
    unfold Note.Holds at hj ⊢
    rw [heff]
    exact hj
  · rw [e]
    show (s.write ops).db.effective j = some iv
    unfold Db.effective
    rw [hd, hnil, show (s.write ops).db.inode j = some iv from hi]
    rfl
  · rw [e]
    trivial

theorem cache_parentDeltasAll (dss : List (Inode × List DeltaOp)) :
    ∀ s : Server, (s.parentDeltasAll cfg dss).cache = s.cache := by
  induction dss with
  | nil => exact fun _ => rfl
  | cons d dss ih =>
      intro s
      refine (ih (s.parentDeltas cfg d.1 d.2)).trans ?_
      unfold Server.parentDeltas
      split
      · rfl
      · split <;> rfl

theorem parentDeltasAll (h : Noted cfg busy s notes) (dss : List (Inode × List DeltaOp))
    (hb : ∀ d ∈ dss, busy d.1) :
    Noted cfg busy (s.parentDeltasAll cfg dss) (fun j => (notes j).append (deltasOf dss j)) := by
  refine ⟨h.log.parentDeltasAll dss, fun {j} hj => ?_, fun j => ?_⟩
  · rcases deltas_parentDeltasAll dss h.log hj with hj | ⟨d, hd, rfl⟩
    · exact h.busy hj
    · exact hb d hd
  · have hj := h.holds j
    have heff := effective_parentDeltasAll dss j h.log
    cases hnote : notes j with
    | cached l =>
        rw [hnote] at hj
        intro v hv
        rw [cache_parentDeltasAll] at hv
        rw [heff, hj v hv, foldDeltas_append]
        rfl
    | stored iv l =>
        rw [hnote] at hj
        show (s.parentDeltasAll cfg dss).db.effective j = _
        rw [heff, show s.db.effective j = _ from hj, foldDeltas_append]
        rfl
    | stale => trivial

/-- The deltas and the cached value of `i` go. -/
theorem drop (h : Noted cfg busy s notes) (i : Inode) :
    Noted cfg busy ((s.clearDeltas i).cacheInvalidate i)
      (fun j => if j = i then .cached [] else notes j) := by
  have hd := deltas_clearDeltas s i
  refine ⟨(h.log.clearDeltas i).congr rfl rfl, fun {j} hj => ?_, fun j => ?_⟩
  · have hj : (s.clearDeltas i).db.deltas j ≠ [] := hj
    rw [hd] at hj
    split at hj
    · exact absurd rfl hj
    · exact h.busy hj
  · have hfind : ((s.clearDeltas i).cacheInvalidate i).cache.find j =
        if j = i then none else s.cache.find j := InodeFoldedCache.find_invalidate s.cache i j
    by_cases e : j = i
    · rw [if_pos e]
      intro v hv
      rw [hfind, if_pos e] at hv
      cases hv
    · have heff : ((s.clearDeltas i).cacheInvalidate i).db.effective j = s.db.effective j :=
        Db.effective_congr rfl ((hd j).trans (if_neg e))
      have hj := h.holds j
      rw [if_neg e]
      unfold Note.Holds at hj ⊢
      rw [heff, hfind, if_neg e]
      exact hj

theorem cachePut (h : Noted cfg busy s notes) (i : Inode) (iv : InodeValue) (ds : List DeltaOp)
    (hi : notes i = .stored iv ds) :
    Noted cfg busy (s.cachePut i iv) (fun j => if j = i then .cached ds else notes j) := by
  refine ⟨h.log.congr rfl rfl, h.busy, fun j => ?_⟩
  by_cases e : j = i
  · subst e
    rw [if_pos rfl]
    intro v hv
    have hj := h.holds j
    rw [hi] at hj
    rcases InodeFoldedCache.find_put hv with ⟨-, rfl⟩ | ⟨hne, -⟩
    · exact hj
    · exact absurd rfl hne
  · rw [if_neg e]
    have hj := h.holds j
    cases hnote : notes j with
    | cached l =>
        rw [hnote] at hj
        intro v hv
        rcases InodeFoldedCache.find_put hv with ⟨e', -⟩ | ⟨-, hold⟩
        · exact absurd e' e
        · exact hj v hold
    | stored iv' l =>
        rw [hnote] at hj
        exact hj
    | stale => trivial

theorem find_touchAll (j : Inode) (dss : List (Inode × List DeltaOp)) :
    ∀ s : Server, (s.touchAll dss).cache.find j =
      (s.cache.find j).map (foldDeltas · (deltasOf dss j)) := by
  induction dss with
  | nil =>
      intro s
      show s.cache.find j = (s.cache.find j).map id
      rw [Option.map_id]
      rfl
  | cons d dss ih =>
      intro s
      refine (ih (s.touch d.1 d.2)).trans ?_
      have hstep : (s.touch d.1 d.2).cache.find j = _ :=
        InodeFoldedCache.find_applyDeltas s.cache d.1 j d.2
      rw [hstep, deltasOf_cons]
      by_cases e : d.1 = j
      · subst e
        rw [if_pos rfl, if_pos rfl, Option.map_map]
        congr 1
        funext v
        exact (foldDeltas_append _ _ _).symm
      · rw [if_neg (Ne.symm e), if_neg e]
        rfl

/-- The cache catches up. -/
theorem touchAll (h : Noted cfg busy s notes) (hn : ∀ j, notes j = .cached (deltasOf dss j)) :
    Noted cfg busy (s.touchAll dss) (fun _ => .cached []) := by
  obtain ⟨hdb, hseqs⟩ := Server.db_touchAll dss s
  refine ⟨h.log.congr (by rw [hdb]) hseqs, fun {j} hj => h.busy (by rwa [hdb] at hj), fun j => ?_⟩
  intro v hv
  have hj := h.holds j
  rw [hn] at hj
  rw [find_touchAll, Option.map_eq_some_iff] at hv
  obtain ⟨u, hu, rfl⟩ := hv
  rw [hdb]
  exact hj u hu

/-! ### Commits -/

/-- A commit that stores `iv` for an inode `i` without deltas, and the deltas `dss`. -/
theorem commit (h : Noted cfg busy s fun _ => .cached []) {iv : InodeValue} (hops : ∀ op ∈ ops, ¬op.IsDelta)
    (hin : ∀ j, (s.db.applyBatch ops).inode j = if j = i then some iv else s.db.inode j) (hnil : s.db.deltas i = [])
    (hb : ∀ d ∈ dss, busy d.1) :
    Noted cfg busy ((s.write ops).parentDeltasAll cfg dss)
      (fun j => if j = i then .stored iv (deltasOf dss j) else .cached (deltasOf dss j)) := by
  have h₁ : Noted cfg busy (s.write ops) (fun j => if j = i then .stored iv [] else .cached []) := by
    refine h.write hops fun j => ?_
    have hj := hin j
    by_cases e : j = i
    · rw [if_pos e] at hj
      exact Or.inr (Or.inl ⟨iv, hj, e ▸ hnil, if_pos e⟩)
    · rw [if_neg e] at hj
      exact Or.inl ⟨hj, if_neg e⟩
  refine cast (congrArg _ (funext fun j => ?_)) (h₁.parentDeltasAll dss hb)
  by_cases e : j = i
  · simp [e, Note.append]
  · simp [e, Note.append]

/-- The new record and then the deltas reach the cache. -/
theorem putTouch {iv : InodeValue} (h : Noted cfg busy s
      (fun j => if j = i then .stored iv (deltasOf dss j) else .cached (deltasOf dss j))) :
    Noted cfg busy ((s.cachePut i iv).touchAll dss) (fun _ => .cached []) := by
  refine (h.cachePut i iv (deltasOf dss i) (if_pos rfl)).touchAll fun j => ?_
  by_cases e : j = i
  · simp [e]
  · simp [e]

/-- A commit that removes the record of `i`, which is none of the parents. -/
theorem commitDrop (h : Noted cfg busy s fun _ => .cached []) (hops : ∀ op ∈ ops, ¬op.IsDelta)
    (hin : ∀ j, j ≠ i → (s.db.applyBatch ops).inode j = s.db.inode j) (hi : deltasOf dss i = [])
    (hb : ∀ d ∈ dss, busy d.1) :
    Noted cfg busy (((((s.write ops).parentDeltasAll cfg dss).clearDeltas i).cacheInvalidate i).touchAll
      dss) (fun _ => .cached []) := by
  have h₁ : Noted cfg busy (s.write ops) (fun j => if j = i then .stale else .cached []) := by
    refine h.write hops fun j => ?_
    by_cases e : j = i
    · exact Or.inr (Or.inr (if_pos e))
    · exact Or.inl ⟨hin j e, if_neg e⟩
  refine ((h₁.parentDeltasAll dss hb).drop i).touchAll fun j => ?_
  by_cases e : j = i
  · rw [if_pos e, e, hi]
  · rw [if_neg e, if_neg e]
    rfl

/-- A loaded value is the effective record. -/
theorem load (h : Noted cfg busy s fun _ => .cached []) (i : Inode) :
    Noted cfg busy (s.load i).2 (fun _ => .cached []) ∧
      ∀ v, (s.load i).1 = .ok v → s.db.effective i = some v := by
  unfold Server.load
  split
  · rename_i v hv
    refine ⟨⟨h.log.congr rfl rfl, h.busy, fun j w hw => ?_⟩, fun w hw => ?_⟩
    · rw [InodeFoldedCache.find_get] at hw
      exact h.holds j w hw
    · cases hw
      exact h.holds i v hv
  · split
    · rename_i v hv
      refine ⟨⟨h.log.congr rfl rfl, h.busy, fun j w hw => ?_⟩, fun w hw => ?_⟩
      · rcases InodeFoldedCache.find_put hw with ⟨rfl, rfl⟩ | ⟨-, hold⟩
        · exact hv
        · rw [InodeFoldedCache.find_get] at hold
          exact h.holds j w hold
      · cases hw
        exact hv
    · refine ⟨⟨h.log.congr rfl rfl, h.busy, fun j w hw => ?_⟩, fun w hw => by cases hw⟩
      rw [InodeFoldedCache.find_get] at hw
      exact h.holds j w hw

/-- A record without deltas is rewritten and cached. -/
theorem rewritten (h : Noted cfg busy s fun _ => .cached []) (iv : InodeValue) (hnil : s.db.deltas i = []) :
    Noted cfg busy (s.rewritten i iv) (fun _ => .cached []) := by
  have h₁ : Noted cfg busy ((s.write [.putInode i iv]).parentDeltasAll cfg []) _ :=
    h.commit (by simp [BatchOp.IsDelta]) Change.inode_rewrite hnil
      fun _ hd => absurd hd List.not_mem_nil
  exact h₁.putTouch

end Noted

/-! ## One call -/

/-- The inodes that may have deltas: those that are not files and not yet to be allocated. -/
def Server.MayLog (s : Server) (j : Inode) : Prop :=
  j < s.next ∧ ∀ iv, s.db.inode j = some iv → isDir iv.mode = true

/-- Renames whose source and destination are different inodes. -/
def Call.DistinctInodes (db : Db) : Call → Prop
  | .rename p n np nn => ∀ v d, db.entry p n = some v → db.entry np nn = some d → d.inode ≠ v.inode
  | _ => True

/-- The condition on the calls that cache a record they have just written: it has no pending
deltas. -/
def Call.WritesFolded (db : Db) : Call → Prop
  | .setattr i _ | .reportWrite i _ _ => db.deltas i = []
  | .rename p n _ _ => ∀ v, db.entry p n = some v → db.deltas v.inode = []
  | _ => True

/-- The invariant between calls. -/
def Server.Coherent (cfg : Config) (s : Server) : Prop := Noted cfg s.MayLog s fun _ => .cached []

namespace Outcome

variable {cfg : Config} {s s' : Server} {c : Call} {r : Reply} {p : Inode} {n : Name} {iv : InodeValue} {v : DirValue}

theorem deltas_file (h : s.Coherent cfg) {i : Inode} (hi : s.db.inode i = some iv) (hd : isDir iv.mode = false) :
    s.db.deltas i = [] := by
  by_contra hne
  have hdir := (h.busy hne).2 iv hi
  rw [hd] at hdir
  cases hdir

theorem deltas_next (h : s.Coherent cfg) : s.db.deltas s.next = [] := by
  by_contra hne
  exact Nat.lt_irrefl _ (h.busy hne).1

theorem mayLog (hw : s.Wf) (hp : s.db.IsDirectory p) : s.MayLog p := by
  obtain ⟨iv, hi, hd⟩ := hp
  refine ⟨hw.db.inode_lt hi, fun iv' hi' => ?_⟩
  rw [hi] at hi'
  cases hi'
  exact hd

theorem mayLog_parent (hw : s.Wf) (hp : s.db.IsDirectory p) (ds : List DeltaOp) : ∀ d ∈ [(p, ds)], s.MayLog d.1 := by
  intro d hd
  rw [List.mem_singleton.1 hd]
  exact mayLog hw hp

theorem noted_created (hw : s.Wf) (h : s.Coherent cfg) {extra : List BatchOp} {ds : List DeltaOp}
    (hi : iv.inode = s.next) (hx : ∀ op ∈ extra, op.IsPayload) (hp : s.db.IsDirectory p) :
    Noted cfg s.MayLog (s.created cfg p n iv extra ds) fun _ => .cached [] := by
  have h₀ : Noted cfg s.MayLog { s with next := s.next + 1 }.tick fun _ => .cached [] :=
    h.congr (fun _ => rfl) rfl rfl rfl
  have hnil : s.db.deltas iv.inode = [] := by rw [hi]; exact deltas_next h
  exact (h₀.commit (BatchOp.not_isDelta_creation hx)
    (Change.inode_create fun op ho => (hx op ho).side) hnil (mayLog_parent hw hp ds)).persist.putTouch

/-- A directory that holds an entry is not an empty one. -/
theorem ne_of_empty {d : Inode} (he : s.db.entry p n = some v) (hemp : s.db.isDirEmpty d = true) : p ≠ d := by
  rintro rfl
  rw [Db.isDirEmpty_iff.1 hemp n] at he
  cases he

theorem ne_of_file {i : Inode} (hp : s.db.IsDirectory p) (hi : s.db.inode i = some iv) (hd : isDir iv.mode = false) :
    p ≠ i := by
  rintro rfl
  obtain ⟨piv, hpi, hpd⟩ := hp
  rw [hi] at hpi
  cases hpi
  rw [hd] at hpd
  cases hpd

theorem isDir_record (hw : s.Wf) (he : s.db.entry p n = some v) (hd : isDir v.mode = false)
    (hi : s.db.inode v.inode = some iv) : isDir iv.mode = false := by
  rw [← isDir_of_fileType_eq (hw.db.type_eq he hi), hd]

/-- The destination of a rename is none of the two parents. -/
theorem dst_ne_parent (ht : ∀ {p n v iv}, s.db.entry p n = some v → s.db.inode v.inode = some iv →
      fileType v.mode = fileType iv.mode) {np : Inode} {nn : Name} {vic : Victim} {srcIsDir : Bool} {ts : Nat}
    (hpar : ∀ q ∈ [p, np], s.db.IsDirectory q) (he : s.db.entry p n = some v)
    (hv : VictimOf s.db srcIsDir ts (s.db.entry np nn) vic)
    (hemp : ∀ d, s.db.entry np nn = some d → vic.wasDir = true → s.db.isDirEmpty d.inode = true) (d : DirValue)
    (hdst : s.db.entry np nn = some d) : ∀ q ∈ [p, np], q ≠ d.inode := by
  intro q hq
  rcases (hdst ▸ hv).wasDir_or_file with hwas | ⟨hdd, iv, hdi⟩
  · have hempty := hemp d hdst hwas
    rcases List.mem_cons.1 hq with rfl | hq
    · exact ne_of_empty he hempty
    · rw [List.mem_singleton.1 hq]
      exact ne_of_empty hdst hempty
  · exact ne_of_file (hpar q hq) hdi ((isDir_of_fileType_eq (ht hdst hdi)).symm.trans hdd)

theorem noted_rename (hw : s.Wf) (h : s.Coherent cfg) {np : Inode} {nn : Name} {srcIv : InodeValue} {vic : Victim}
    {dss : List (Inode × List DeltaOp)} (hpar : ∀ q ∈ [p, np], s.db.IsDirectory q) (he : s.db.entry p n = some v)
    (hv : VictimOf s.db (isDir srcIv.mode) (cfg.clock s.ticks) (s.db.entry np nn) vic)
    (hemp : ∀ d, s.db.entry np nn = some d → vic.wasDir = true → s.db.isDirEmpty d.inode = true)
    (hdss : ∀ d ∈ dss, d.1 ∈ [p, np]) (hne : ∀ d, s.db.entry np nn = some d → d.inode ≠ v.inode)
    (hnil : s.db.deltas v.inode = []) :
    Noted cfg s.MayLog ((s.renameCommitted cfg p n np nn v.inode srcIv vic dss).touchAll dss)
      fun _ => .cached [] := by
  have htick : Noted cfg s.MayLog s.tick fun _ => .cached [] := h.tick
  have hb : ∀ d ∈ dss, s.MayLog d.1 := fun d hd => mayLog hw (hpar d.1 (hdss d hd))
  unfold Server.renameCommitted Server.forget
  cases hdst : s.db.entry np nn with
  | none =>
      rw [hdst] at hv
      refine (htick.commit not_isDelta_renameOps (fun j => ?_) hnil hb).putTouch
      refine (inode_renameOps hv j).trans ?_
      split
      · rename_i e
        exact if_pos e
      · rename_i e
        exact hv.records_ne e fun d hd => by cases hd
  | some d =>
      have hdp := dst_ne_parent hw.db.type_eq hpar he hv hemp d hdst
      rw [hdst] at hv
      have h₁ : Noted cfg s.MayLog (s.tick.write (renameOps p n np nn v.inode srcIv (some d) vic
          (cfg.clock s.ticks))) (fun j => if j = v.inode then
            .stored { srcIv with ctime := cfg.clock s.ticks } []
          else if j = d.inode then .stale else .cached []) := by
        refine htick.write not_isDelta_renameOps fun j => ?_
        have hj : (s.db.applyBatch (renameOps p n np nn v.inode srcIv (some d) vic
            (cfg.clock s.ticks))).inode j = _ := inode_renameOps hv j
        by_cases e : j = v.inode
        · refine Or.inr (Or.inl ⟨_, hj.trans (if_pos e), e ▸ hnil, if_pos e⟩)
        · by_cases e' : j = d.inode
          · exact Or.inr (Or.inr (by rw [if_neg e, if_pos e']))
          · refine Or.inl ⟨hj.trans (hv.records_ne e fun d' hd' => ?_), by rw [if_neg e, if_neg e']⟩
            cases hd'
            exact e'
      have h₂ := (h₁.parentDeltasAll dss hb).drop d.inode
      refine (h₂.cachePut v.inode { srcIv with ctime := cfg.clock s.ticks } (deltasOf dss v.inode)
        ?_).touchAll fun j => ?_
      · rw [if_neg (Ne.symm (hne d hdst)), if_pos rfl]
        rfl
      · by_cases e : j = v.inode
        · rw [if_pos e, e]
        · by_cases e' : j = d.inode
          · rw [if_neg e, if_pos e', e', deltasOf_ne fun q hq => hdp q.1 (hdss q hq)]
          · rw [if_neg e, if_neg e', if_neg e, if_neg e']
            rfl

/-- What an outcome leaves of the cache. -/
theorem noted (ho : Outcome cfg s c r s') (hw : s.Wf) (h : s.Coherent cfg) (hp : c.ParentsExist s.db)
    (hne : c.DistinctInodes s.db) (hk : c.WritesFolded s.db) :
    Noted cfg s.MayLog s' fun _ => .cached [] := by
  have htick : Noted cfg s.MayLog s.tick fun _ => .cached [] := h.tick
  cases ho with
  | failed hr hs => rcases hs with rfl | rfl <;> assumption
  | loaded i hr => exact (h.load i).1
  | made hc he hi hx =>
      refine noted_created hw h hi hx (hp _ ?_)
      cases hc <;> exact List.mem_cons_self
  | madeOpen hl ht he hi hx hr hh =>
      exact (noted_created hw h hi hx (hp _ List.mem_cons_self)).handleIncr s.next
  | @link p n t iv a hi hd he hpd =>
      exact (htick.tick.commit (by simp [BatchOp.IsDelta]) Change.inode_link (deltas_file h hi hd)
        (mayLog_parent hw hpd (touchDeltas (cfg.clock (s.ticks + 1))))).putTouch
  | @unlinkDrop p n v iv he hd hi hl hh =>
      have hpd := hp p List.mem_cons_self
      have hfile := isDir_record hw he hd hi
      refine htick.commitDrop (by simp [BatchOp.IsDelta]) (fun j hj => ?_) (deltasOf_ne ?_)
        (mayLog_parent hw hpd _)
      · exact (Change.inode_unlinkDrop j).trans (if_neg hj)
      · intro q hq
        rw [List.mem_singleton.1 hq]
        exact ne_of_file hpd hi hfile
  | @unlinkKeep p n v iv he hd hi hkeep =>
      have hnil := deltas_file h hi (isDir_record hw he hd hi)
      have hb := mayLog_parent hw (hp p List.mem_cons_self) (touchDeltas (cfg.clock (s.ticks + 1)))
      have hin : ∀ j, (s.db.applyBatch [.deleteDirEntry p n, .putInode v.inode
          { iv with nlink := iv.nlink - 1, ctime := cfg.clock s.ticks }]).inode j = _ :=
        Change.inode_unlinkKeep
      have hkept := (htick.tick.commit (by simp [BatchOp.IsDelta]) hin hnil hb).putTouch
      unfold Server.unlinkedKeep
      dsimp only
      split
      · exact hkept.congr (fun _ => rfl) rfl rfl rfl
      · exact hkept
  | @rmdir p n v iv he hd hi hemp =>
      have hpd := hp p List.mem_cons_self
      refine htick.commitDrop (by simp [BatchOp.IsDelta]) (fun j hj => ?_) (deltasOf_ne ?_)
        (mayLog_parent hw hpd _)
      · exact (Change.inode_rmdir j).trans (if_neg hj)
      · intro q hq
        rw [List.mem_singleton.1 hq]
        exact ne_of_empty he hemp
  | rename he hi hv hemp =>
      exact noted_rename hw h hp he hv hemp renameDeltas_fst (fun d hd => hne _ d he hd) (hk _ he)
  | @rewrite c i iv iv' r t hc hi ht hl hr hs =>
      have hnil : s.db.deltas i = [] := by
        cases hc <;> exact hk
      rcases hs with rfl | rfl
      · exact h.rewritten _ hnil
      · exact htick.rewritten _ hnil
  | opened => exact (h.load _).1.handleIncr _
  | @openedTrunc i flags r iv raw hl hd hi =>
      -- the loaded value is the effective record, so the truncated object is a file
      obtain ⟨hload, hval⟩ := h.load i
      have hmode : raw.mode = iv.mode := by
        have heff := hval iv hl
        unfold Db.effective at heff
        rw [hi] at heff
        cases heff
        exact (foldDeltas_mode _ _).symm
      have hnil := deltas_file h hi (hmode ▸ hd)
      obtain ⟨cache, hc⟩ := s.load_snd i
      rw [hc] at hload ⊢
      exact (hload.tick.rewritten _ hnil).handleIncr i
  | @released i hrel =>
      obtain ⟨handles, pending, hs⟩ := s.checkAndClear_snd (i := i)
      rw [hs]
      exact h.congr (fun _ => rfl) rfl rfl rfl
  | @releasedDrop i hrel =>
      obtain ⟨handles, pending, hs⟩ := s.checkAndClear_snd (i := i)
      rw [hs]
      have h₁ : Noted cfg s.MayLog { s with openHandles := handles, pendingDeletes := pending }
          fun _ => .cached [] := h.congr (fun _ => rfl) rfl rfl rfl
      refine h₁.commitDrop (by simp [BatchOp.IsDelta]) (fun j hj => ?_) rfl
        fun _ hd => absurd hd List.not_mem_nil
      exact (Change.inode_drop j).trans (if_neg hj)
  | @compacted i base r hi =>
      refine ⟨h.log.compacted i base, fun {j} hj => h.busy ?_, fun j v hv => ?_⟩
      · rw [deltas_compacted] at hj
        split at hj
        · exact absurd rfl hj
        · exact hj
      · have hfind : (s.compacted i base).cache.find j = if j = i then none else s.cache.find j :=
          InodeFoldedCache.find_invalidate s.cache i j
        rw [hfind] at hv
        split at hv
        · cases hv
        · rw [effective_compacted hi]
          exact h.holds j v hv
  | idle => exact h

end Outcome

/-- **One call** that meets the conditions leaves the cache coherent. -/
theorem Server.Coherent.exec {cfg : Config} {s : Server} {c : Call} (h : s.Coherent cfg) (hw : s.Wf)
    (hp : c.ParentsExist s.db) (hne : c.DistinctInodes s.db) (hk : c.WritesFolded s.db) :
    (s.exec cfg c).2.Coherent cfg := by
  have hnoted := (exec_outcome cfg s c).noted hw h hp hne hk
  obtain ⟨s₁, he, hb⟩ := exec_effect cfg s c
  refine ⟨hnoted.log, fun {j} hj => ?_, hnoted.holds⟩
  obtain ⟨hlt, hdir⟩ := hnoted.busy hj
  refine ⟨Nat.lt_of_lt_of_le hlt (by rw [hb.next]; exact he.next_le hw), fun iv' hi' => ?_⟩
  obtain ⟨iv₁, hi₁, hm⟩ := hb.mode hi'
  rw [hm]
  rcases he.origin hw hi₁ with ⟨old, hold, ht⟩ | e
  · rw [isDir_of_fileType_eq ht]
    exact hdir old hold
  · exact absurd e (Nat.ne_of_lt hlt)

/-! ## Runs -/

/-- **Coherence of the cache.**  After every run under existing directories, with renames between
different inodes, in which no rewritten record has pending deltas, a cached value is the effective
record of its inode, so `load_inode` returns what a miss would. -/
theorem cache_coherent {cfg : Config} {es : List (Call × Reply)} {s : Server}
    (h : Trace (Server.exec cfg) (fun _ s c => c.ParentsExist s.db ∧ c.DistinctInodes s.db ∧
      c.WritesFolded s.db) (Server.fresh cfg) es s) :
    (∀ i v, s.cache.find i = some v → s.db.effective i = some v) ∧
      ∀ i, (s.load i).1 = (s.db.effective i).elim (.error .notFound) .ok := by
  have hinv : s.Wf ∧ s.Coherent cfg := by
    refine h.invariant (fun _ s => s.Wf ∧ s.Coherent cfg) ⟨Server.wf_fresh cfg, ?_⟩ ?_
    · refine ⟨.fresh cfg, fun {j} hj => absurd (Server.deltas_fresh cfg j) hj, fun j v hv => ?_⟩
      have hfind : (Server.fresh cfg).cache.find j = none := rfl
      rw [hfind] at hv
      cases hv
    · rintro es s c ⟨hw, hc⟩ ⟨hp, hne, hk⟩
      exact ⟨hw.exec cfg c, hc.exec hw hp hne hk⟩
  have hfind : ∀ i v, s.cache.find i = some v → s.db.effective i = some v := hinv.2.holds
  refine ⟨hfind, fun i => ?_⟩
  unfold Server.load
  cases hc : s.cache.find i with
  | some v =>
      rw [hfind i v hc]
      rfl
  | none =>
      dsimp only
      cases s.db.effective i <;> rfl

/-- A directory is created, which leaves deltas on the root; the new directory, which has none, is
then changed by `setattr`. -/
theorem cache_coherent_setattr :
    let s₁ := ((Server.fresh {}).exec {} (.mkdir 1 [97] 0o755 0 0)).2
    let s₂ := (s₁.exec {} (.setattr 2 { mode := some 0o700 })).2
    (∀ i v, s₂.cache.find i = some v → s₂.db.effective i = some v) ∧
      ∀ i, (s₂.load i).1 = (s₂.db.effective i).elim (.error .notFound) .ok := by
  intro s₁ s₂
  have h₁ : Trace (Server.exec {}) (fun _ s c => c.ParentsExist s.db ∧ c.DistinctInodes s.db ∧
      c.WritesFolded s.db) (Server.fresh {}) _ s₁ :=
    .snoc (Call.mkdir 1 [97] 0o755 0 0) .nil ⟨by decide, trivial, trivial⟩
  have hnil : s₁.db.deltas 2 = [] := by decide
  exact cache_coherent (.snoc (Call.setattr 2 { mode := some 0o700 }) h₁ ⟨by decide, trivial, hnil⟩)

/-- `mkdir a` leaves the link count of the root as a delta; `setattr` of the root then caches the
base record, whose count is 2 instead of 3. -/
theorem setattr_caches_unfolded_record :
    let s₁ := ((Server.fresh {}).exec {} (.mkdir 1 [97] 0o755 0 0)).2
    let s₂ := (s₁.exec {} (.setattr 1 { mode := some 0o700 })).2
    (s₂.cache.find 1).map InodeValue.nlink = some 2 ∧
      (s₂.db.effective 1).map InodeValue.nlink = some 3 ∧
      (s₂.cache.find 1) ≠ s₂.db.effective 1 := by
  decide

end RucksFs
