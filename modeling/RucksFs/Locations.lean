import RucksFs.Allocation
import RucksFs.Coherence
import RucksFs.SideRecords

/-!
# Data locations stay

A client looks an inode's data location up when it opens the file and keeps it.  This is sound because the
location of an inode is written once, when the inode is made.

* `Server.Known.exec` — records and cached values only ever belong to numbers that were handed out.
* `dataLocations_exec` — a call gives no old inode a location and changes no location; it may remove one.
* `load_lt` — a number that the server finds was handed out.
* `exec_openFile_created` — a file just created is opened with the location it was given.
* `createAndOpen_eq_default` — `create_and_open` is `create` followed by `open`.
-/

set_option autoImplicit false

namespace RucksFs

open Server

/-! ## Cached numbers -/

/-- The cache has a value for `j`. -/
def Server.Caches (s : Server) (j : Inode) : Prop := (s.cache.find j).isSome = true

section

variable {s : Server} {i j : Inode}

theorem Server.caches_touch {p : Inode} {ds : List DeltaOp} (h : (s.touch p ds).Caches j) : s.Caches j := by
  have hfind : (s.touch p ds).cache.find j = _ := InodeFoldedCache.find_applyDeltas s.cache p j ds
  unfold Server.Caches at h ⊢
  rw [hfind] at h
  split at h
  · rename_i e
    rw [e]
    simpa using h
  · exact h

theorem Server.caches_touchAll {dss : List (Inode × List DeltaOp)} (h : (s.touchAll dss).Caches j) :
    s.Caches j := by
  unfold Server.Caches at h ⊢
  rw [Noted.find_touchAll] at h
  simpa using h

theorem Server.caches_put {v : InodeValue} (h : (s.cachePut i v).Caches j) : j = i ∨ s.Caches j := by
  obtain ⟨w, hw⟩ := Option.isSome_iff_exists.1 h
  rcases InodeFoldedCache.find_put hw with ⟨e, -⟩ | ⟨-, hold⟩
  · exact Or.inl e
  · exact Or.inr (Option.isSome_iff_exists.2 ⟨w, hold⟩)

theorem Server.caches_invalidate (h : (s.cacheInvalidate i).Caches j) : s.Caches j := by
  have hfind : (s.cacheInvalidate i).cache.find j = _ := InodeFoldedCache.find_invalidate s.cache i j
  unfold Server.Caches at h ⊢
  rw [hfind] at h
  split at h
  · cases h
  · exact h

theorem Server.cache_parentDeltas (cfg : Config) (s : Server) (p : Inode) (ds : List DeltaOp) :
    (s.parentDeltas cfg p ds).cache = s.cache := Noted.cache_parentDeltasAll [(p, ds)] s

theorem Server.cache_persist (s : Server) : s.persist.cache = s.cache := by
  unfold Server.persist
  split <;> rfl

theorem Server.caches_pending {p : Prop} [Decidable p] :
    (if p then s.pendingInsert i else s).Caches j ↔ s.Caches j := by
  split <;> exact Iff.rfl

theorem Db.inode_of_effective {db : Db} {v : InodeValue} (h : db.effective i = some v) :
    (db.inode i).isSome = true := by
  unfold Db.effective at h
  cases hi : db.inode i with
  | none => rw [hi] at h; cases h
  | some iv => rfl

/-- A lookup caches a stored record at most. -/
theorem Server.caches_load (h : (s.load i).2.Caches j) : s.Caches j ∨ (s.db.inode j).isSome = true := by
  unfold Server.load Server.Caches at h
  unfold Server.Caches
  split at h
  · rw [InodeFoldedCache.find_get] at h
    exact Or.inl h
  · split at h
    · rename_i v hv
      obtain ⟨w, hw⟩ := Option.isSome_iff_exists.1 h
      rcases InodeFoldedCache.find_put hw with ⟨rfl, -⟩ | ⟨-, hold⟩
      · exact Or.inr (Db.inode_of_effective hv)
      · rw [InodeFoldedCache.find_get] at hold
        exact Or.inl (Option.isSome_iff_exists.2 ⟨w, hold⟩)
    · rw [InodeFoldedCache.find_get] at h
      exact Or.inl h

end

section

variable {cfg : Config} {s s' : Server} {c : Call} {r : Reply} {j : Inode} {p : Inode} {n : Name} {iv : InodeValue}

theorem Server.caches_created {extra : List BatchOp} {ds : List DeltaOp}
    (h : (s.created cfg p n iv extra ds).Caches j) : j = iv.inode ∨ s.Caches j := by
  unfold Server.created at h
  refine (caches_put (caches_touch h)).imp_right fun h => ?_
  unfold Server.Caches at h
  rw [cache_persist, cache_parentDeltas] at h
  exact h

theorem Server.caches_linked {t : Inode} {ts : Nat} (h : (s.linked cfg p n t iv ts).Caches j) : j = t ∨ s.Caches j := by
  unfold Server.linked at h
  refine (caches_put (caches_touch h)).imp_right fun h => ?_
  unfold Server.Caches at h
  rw [cache_parentDeltas] at h
  exact h

theorem Server.caches_unlinkedKeep {t : Inode} {ts : Nat} (h : (s.unlinkedKeep cfg p n t iv ts).Caches j) :
    j = t ∨ s.Caches j := by
  unfold Server.unlinkedKeep at h
  dsimp only at h
  have h := caches_touch h
  rw [caches_pending] at h
  refine (caches_put h).imp_right fun h => ?_
  unfold Server.Caches at h
  rw [cache_parentDeltas] at h
  exact h

/-- A removed child leaves the cache. -/
theorem Server.caches_removed {i : Inode} {ops : List BatchOp} {ds ds' : List DeltaOp}
    (h : ((((s.tick.write ops).parentDeltas cfg p ds).clearDeltas i).cacheInvalidate i |>.touch p ds').Caches j) :
    s.Caches j := by
  have h := caches_invalidate (caches_touch h)
  unfold Server.Caches Server.clearDeltas at h
  dsimp only at h
  rw [cache_parentDeltas] at h
  exact h

theorem Server.caches_forget {dst : Option DirValue} (h : (s.forget dst).Caches j) : s.Caches j := by
  cases dst with
  | none => exact h
  | some d =>
      unfold Server.forget at h
      exact caches_invalidate h

theorem Server.caches_renameCommitted {np : Inode} {nn : Name} {src : Inode} {srcIv : InodeValue} {vic : Victim}
    {dss : List (Inode × List DeltaOp)} (h : (s.renameCommitted cfg p n np nn src srcIv vic dss).Caches j) :
    j = src ∨ s.Caches j := by
  unfold Server.renameCommitted at h
  refine (caches_put h).imp_right fun h => ?_
  have h := caches_forget h
  unfold Server.Caches at h
  rw [Noted.cache_parentDeltasAll] at h
  exact h

/-- After a call the cache knows what it knew, stored records, and a new object. -/
theorem Outcome.caches (h : Outcome cfg s c r s') (hj : s'.Caches j) :
    s.Caches j ∨ (s.db.inode j).isSome = true ∨ j = s.next ∧ s'.next = s.next + 1 := by
  have stored : ∀ {i : Inode} {iv : InodeValue}, s.db.inode i = some iv → j = i ∨ s.Caches j →
      s.Caches j ∨ (s.db.inode j).isSome = true ∨ j = s.next ∧ s'.next = s.next + 1 := by
    rintro i iv hi (rfl | hold)
    · exact Or.inr (Or.inl (by rw [hi]; rfl))
    · exact Or.inl hold
  cases h with
  | failed hr hs => rcases hs with rfl | rfl <;> exact Or.inl hj
  | loaded i h => exact (caches_load hj).imp_right Or.inl
  | @made c p n iv extra ds hc he hi hx =>
      refine (caches_created hj).symm.imp_right fun e => Or.inr ⟨e.trans hi, ?_⟩
      exact (Server.Bookkeeping.created cfg s p n iv extra ds).next
  | @madeOpen p n mode uid gid flags iv extra ds r hl ht he hi hx hr hh =>
      have hj : (s.created cfg p n iv extra ds).Caches j := hj
      refine (caches_created hj).symm.imp_right fun e => Or.inr ⟨e.trans hi, ?_⟩
      exact (Server.Bookkeeping.created cfg s p n iv extra ds).next
  | link hi hd he hp => exact stored hi (caches_linked hj)
  | unlinkDrop he hd hi hl hh => exact Or.inl (caches_removed hj)
  | unlinkKeep he hd hi hk => exact stored hi (caches_unlinkedKeep hj)
  | rmdir he hd hi hemp => exact Or.inl (caches_removed hj)
  | rename he hi hv hemp => exact stored hi (caches_renameCommitted (caches_touchAll hj))
  | rewrite hc hi ht hl hr hs => rcases hs with rfl | rfl <;> exact stored hi (caches_put hj)
  | @opened i flags r =>
      have hj : (s.load i).2.Caches j := hj
      exact (caches_load hj).imp_right Or.inl
  | @openedTrunc i flags r iv raw hl hd hi =>
      have hput : j = i ∨ (s.load i).2.Caches j := caches_put hj
      rcases hput with e | hold
      · exact stored hi (Or.inl e)
      · exact (caches_load hold).imp_right Or.inl
  | @released i h =>
      unfold Server.Caches at hj
      rw [s.checkAndClear_cache] at hj
      exact Or.inl hj
  | @releasedDrop i h =>
      have hold : (s.checkAndClearDeferredDelete i).2.Caches j := caches_invalidate hj
      unfold Server.Caches at hold
      rw [s.checkAndClear_cache] at hold
      exact Or.inl hold
  | compacted hi => exact Or.inl (caches_invalidate hj)
  | idle => exact Or.inl hj

/-- The server is well formed, and what it has cached was handed out. -/
structure Server.Known (s : Server) : Prop where
  wf : s.Wf
  cached : ∀ {j : Inode}, s.Caches j → j < s.next

theorem Server.known_fresh (cfg : Config) : (Server.fresh cfg).Known where
  wf := Server.wf_fresh cfg
  cached h := by cases h

theorem Server.Known.exec (h : s.Known) (cfg : Config) (c : Call) : (s.exec cfg c).2.Known where
  wf := h.wf.exec cfg c
  cached := by
    intro j hj
    have hle : s.next ≤ (s.exec cfg c).2.next := next_le_exec h.wf c
    rcases (exec_outcome cfg s c).caches hj with hold | hrec | ⟨e, hnext⟩
    · exact Nat.lt_of_lt_of_le (h.cached hold) hle
    · obtain ⟨iv, hi⟩ := Option.isSome_iff_exists.1 hrec
      exact Nat.lt_of_lt_of_le (h.wf.db.inode_lt hi) hle
    · rw [hnext, e]
      exact Nat.lt_succ_self _

/-- A number that `load_inode` finds was handed out. -/
theorem Server.Known.load_lt (h : s.Known) {i : Inode} (hl : (s.load i).1 = .ok iv) : i < s.next := by
  unfold Server.load at hl
  split at hl
  · rename_i v hv
    exact h.cached (Option.isSome_iff_exists.2 ⟨v, hv⟩)
  · split at hl
    · rename_i v hv
      obtain ⟨w, hw⟩ := Option.isSome_iff_exists.1 (Db.inode_of_effective hv)
      exact h.wf.db.inode_lt hw
    · cases hl

/-! ## Locations -/

/-- A call that makes no object keeps all locations, or removes one. -/
theorem Effect.dataLocations_cases (h : Effect s c r s') (hc : c.makesObject = false) :
    s'.db.dataLocations = s.db.dataLocations ∨ ∃ i, s'.db.dataLocations = s.db.dataLocations.erase i := by
  cases h with
  | made hk => cases hk <;> cases hc
  | madeOpen => cases hc
  | unlinkDrop => exact Or.inr ⟨_, rfl⟩
  | @rename p n np nn v srcIv vic ts he hi hv =>
      have hloc : (s.db.applyBatch (renameOps p n np nn v.inode srcIv (s.db.entry np nn) vic ts)).dataLocations =
          _ := dataLocations_renameOps hv
      cases hdel : vic.delete with
      | none => rw [hdel] at hloc; exact Or.inl hloc
      | some i => rw [hdel] at hloc; exact Or.inr ⟨i, hloc⟩
  | released => exact Or.inl (by rw [s.checkAndClear_db])
  | @releasedDrop i hp =>
      refine Or.inr ⟨i, ?_⟩
      show (s.checkAndClearDeferredDelete i).2.db.dataLocations.erase i = _
      rw [s.checkAndClear_db]
  | _ => exact Or.inl rfl

/-- The location of an inode made earlier is not changed by a call; it may be removed. -/
theorem dataLocations_exec (cfg : Config) (s : Server) (c : Call) (hj : j ≠ s.next) {id : String}
    (h : (s.exec cfg c).2.db.dataLocations.get j = some id) : s.db.dataLocations.get j = some id := by
  by_cases hc : c.makesObject = true
  · rcases exec_makesObject cfg s hc with he | ⟨p, n, iv, extra, ds, hi, hx, he, -⟩ <;> rw [he] at h
    · exact h
    · rw [(Server.Bookkeeping.created cfg s p n iv extra ds).dataLocations] at h
      generalize fileType iv.mode = t at hx
      cases hx with
      | file location =>
          have h : (s.db.dataLocations.put s.next location).get j = some id := h
          rw [OrdMap.get_put, if_neg hj] at h
          exact h
      | dir => exact h
      | symlink target => exact h
  · obtain ⟨s₁, heff, hb⟩ := exec_effect cfg s c
    rw [hb.dataLocations] at h
    rcases heff.dataLocations_cases (by simpa using hc) with hl | ⟨i, hl⟩ <;> rw [hl] at h
    · exact h
    · rw [OrdMap.get_erase] at h
      split at h
      · cases h
      · exact h

end

/-! ## Creating and opening in one call -/

/-- The trait's own `create_and_open`: `create`, then `open`. -/
def defaultCreateAndOpen (cfg : Config) (parent : Inode) (name : Name) (mode uid gid flags : Nat) :
    Op CreateAndOpenResponse := do
  let attr ← create cfg parent name mode uid gid
  let openResp ← openFile cfg attr.inode flags
  return ⟨attr, openResp.handle, openResp.dataLocation⟩

/-- What holds of the cached value and of the folded record holds of what is loaded. -/
theorem load_of_effective {s : Server} {i : Inode} {P : InodeValue → Prop}
    (hcache : ∀ w, s.cache.find i = some w → P w) (hdb : ∃ w, s.db.effective i = some w ∧ P w) :
    ∃ w c, s.load i = (.ok w, { s with cache := c }) ∧ P w := by
  unfold Server.load
  cases hf : s.cache.find i with
  | some w => exact ⟨w, _, rfl, hcache w hf⟩
  | none =>
      obtain ⟨w, hw, hP⟩ := hdb
      rw [hw]
      exact ⟨w, _, rfl, hP⟩

/-- Opening an empty file truncates nothing. -/
theorem exec_openFile_empty {cfg : Config} {s : Server} {i : Inode} {w : InodeValue} {c : InodeFoldedCache}
    (hload : s.load i = (.ok w, { s with cache := c })) (hdir : isDir w.mode = false) (hsize : w.size = 0)
    (flags : Nat) : Op.exec cfg (openFile cfg i flags) ({}, s) =
      (.ok (s.opened cfg i).1, {}, { (s.opened cfg i).2 with cache := c }) := by
  rw [exec_openFile, hload]
  dsimp only
  rw [hdir, hsize]
  simp only [Bool.false_eq_true, if_false, Nat.lt_irrefl, decide_false, Bool.and_false]
  rfl

section

variable {cfg : Config} {s : Server} {p : Inode} {n : Name} {iv : InodeValue} {extra : List BatchOp}
  {ds : List DeltaOp}

/-- What the cache has for a new object: its record, touched if it is its own parent. -/
theorem find_created {w : InodeValue} (h : (s.created cfg p n iv extra ds).cache.find iv.inode = some w) :
    w.mode = iv.mode ∧ w.size = iv.size := by
  have hfind : (s.created cfg p n iv extra ds).cache.find iv.inode = _ :=
    InodeFoldedCache.find_applyDeltas _ p iv.inode ds
  have hput : ∀ {c : InodeFoldedCache} {v : InodeValue}, (c.put iv.inode iv).find iv.inode = some v → v = iv := by
    intro c v hv
    rcases InodeFoldedCache.find_put hv with ⟨-, e⟩ | ⟨hne, -⟩
    · exact e
    · exact absurd rfl hne
  rw [hfind] at h
  split at h
  · rename_i e
    obtain ⟨v, hv, rfl⟩ := Option.map_eq_some_iff.1 h
    rw [← e] at hv
    rw [hput hv, foldDeltas_mode, foldDeltas_size]
    exact ⟨rfl, rfl⟩
  · rw [hput h]
    exact ⟨rfl, rfl⟩

/-- The record that is stored for a new object, folded if it is its own parent. -/
theorem inode_created (hx : ∀ op ∈ extra, op.IsPayload) :
    ∃ w, (s.created cfg p n iv extra ds).db.inode iv.inode = some w ∧ w.mode = iv.mode ∧ w.size = iv.size := by
  have hnew : (s.db.applyBatch (.putInode iv.inode iv :: .putDirEntry p n ⟨iv.inode, iv.mode⟩ :: extra)).inode iv.inode =
      some iv := by
    rw [Change.inode_create fun op ho => (hx op ho).side, if_pos rfl]
  rcases (Server.Bookkeeping.created cfg s p n iv extra ds).inode iv.inode with h | ⟨-, v, es, hv, h⟩
  · exact ⟨iv, h.trans hnew, rfl, rfl⟩
  · obtain rfl : iv = v := Option.some.inj (hnew.symm.trans hv)
    exact ⟨_, h, foldDeltas_mode iv es, foldDeltas_size iv es⟩

/-- What the database has for a new object, pending deltas included. -/
theorem effective_created (hx : ∀ op ∈ extra, op.IsPayload) :
    ∃ w, (s.created cfg p n iv extra ds).db.effective iv.inode = some w ∧ w.mode = iv.mode ∧ w.size = iv.size := by
  have hstored : ∃ w, (s.created cfg p n iv extra ds).db.inode iv.inode = some w ∧ _ := inode_created hx
  obtain ⟨w, hw, hmode, hsize⟩ := hstored
  refine ⟨foldDeltas w ((s.created cfg p n iv extra ds).db.deltas iv.inode), ?_, ?_, ?_⟩
  · unfold Db.effective
    rw [hw, Option.map_some]
  · rw [foldDeltas_mode, hmode]
  · rw [foldDeltas_size, hsize]

/-- A new object is found, in the cache or behind it. -/
theorem load_created (hx : ∀ op ∈ extra, op.IsPayload) : ∃ w c,
    (s.created cfg p n iv extra ds).load iv.inode = (.ok w, { s.created cfg p n iv extra ds with cache := c }) ∧
      w.mode = iv.mode ∧ w.size = iv.size :=
  load_of_effective (fun _ => find_created) (effective_created hx)

end

/-- Opening a file just created only counts the handle: it is empty, and its location is the default one. -/
theorem exec_openFile_created (cfg : Config) (s : Server) (p : Inode) (n : Name) (mode uid gid flags : Nat)
    (ds : List DeltaOp) :
    let t := s.created cfg p n (s.newFile cfg mode uid gid)
      [.putDataLocation s.next cfg.defaultDataLocation.serverId] ds
    ∃ c, Op.exec cfg (openFile cfg s.next flags) ({}, t) =
      (.ok ⟨s.next, cfg.defaultDataLocation⟩, {}, { t.handleIncr s.next with cache := c }) := by
  intro t
  have hplain : ∀ op ∈ [BatchOp.putDataLocation s.next cfg.defaultDataLocation.serverId], op.IsPayload := by
    simp [BatchOp.IsPayload]
  have hlocation : t.db.dataLocations.get s.next = some cfg.defaultDataLocation.serverId := by
    rw [(Server.Bookkeeping.created cfg s p n _ _ ds).dataLocations]
    exact OrdMap.get_put_self ..
  have hload : ∃ w c, t.load s.next = (.ok w, { t with cache := c }) ∧
      w.mode = S_IFREG ||| (mode &&& 0o7777) ∧ w.size = 0 := load_created hplain
  obtain ⟨w, c, hload, hmode, hsize⟩ := hload
  have hregular : isDir w.mode = false := by rw [hmode, isDir_reg]
  have hopened : (t.opened cfg s.next).1 = ⟨s.next, cfg.defaultDataLocation⟩ := by
    unfold Server.opened
    rw [hlocation]
    rfl
  refine ⟨c, ?_⟩
  rw [exec_openFile_empty hload hregular hsize flags, hopened]
  rfl

/-- The answer of the two calls, from that of the second. -/
theorem exec_bind_openFile {cfg : Config} {t t' : Server} {attr : FileAttr} {i : Inode} {r : OpenResponse} {flags : Nat}
    (h : Op.exec cfg (openFile cfg i flags) ({}, t) = (.ok r, {}, t')) :
    Op.exec cfg (do
      let openResp ← openFile cfg i flags
      return (⟨attr, openResp.handle, openResp.dataLocation⟩ : CreateAndOpenResponse)) ({}, t) =
      (.ok ⟨attr, r.handle, r.dataLocation⟩, {}, t') := by
  rw [Op.exec_bind, h]
  rfl

/-- **The merged call is the two calls.**  From every state `create_and_open` answers as `create` followed by `open`
does, with any flags, and leaves the same server but for the cache. -/
theorem createAndOpen_eq_default (cfg : Config) (s : Server) (parent : Inode) (name : Name)
    (mode uid gid flags : Nat) :
    ∃ c, Op.exec cfg (defaultCreateAndOpen cfg parent name mode uid gid flags) ({}, s) =
      ((Op.exec cfg (createAndOpen cfg parent name mode uid gid flags) ({}, s)).1, {},
        { (Op.exec cfg (createAndOpen cfg parent name mode uid gid flags) ({}, s)).2.2 with cache := c }) := by
  have hinode : (s.newFile cfg mode uid gid).toAttr.inode = s.next := rfl
  rw [exec_createAndOpen]
  unfold defaultCreateAndOpen
  rw [Op.exec_bind, exec_create]
  rcases creation_cases cfg s parent name (s.newFile cfg mode uid gid)
    [.putDataLocation s.next cfg.defaultDataLocation.serverId] (touchDeltas (cfg.clock s.ticks)) with
    ⟨e, herr⟩ | ⟨-, hok⟩
  · rw [herr]
    exact ⟨s.cache, rfl⟩
  · obtain ⟨c, hopen⟩ := exec_openFile_created cfg s parent name mode uid gid flags (touchDeltas (cfg.clock s.ticks))
    rw [hok]
    dsimp only
    rw [hinode]
    exact ⟨c, exec_bind_openFile hopen⟩

end RucksFs
