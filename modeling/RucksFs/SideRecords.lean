import RucksFs.Entries
import RucksFs.Rename

/-!
# Data locations and symlink targets

Besides its record a regular file has a data location and a symbolic link a target, under keys of
their own.  Both are written with the record; the data location goes with it, the target does not:
`batch_delete_symlink` is called nowhere.

* `locations_match` — in every run exactly the stored regular files have a data location.
* `side_records_match` — as long as no symbolic link loses its record, exactly the stored symbolic
  links have a target.
* `symlink_target_left` — the target of an unlinked symbolic link is still stored.
-/

set_option autoImplicit false

namespace RucksFs

open Server

/-- The type field of a stored record. -/
def Db.kind (db : Db) (i : Inode) : Option Nat := (db.inode i).map fun iv => fileType iv.mode

/-- Exactly the regular files have a data location. -/
def Db.LocationsMatch (db : Db) : Prop :=
  ∀ i, (db.dataLocations.get i).isSome = true ↔ db.kind i = some S_IFREG

/-- Exactly the symbolic links have a target. -/
def Db.TargetsMatch (db : Db) : Prop :=
  ∀ i, (db.symlinks.get i).isSome = true ↔ db.kind i = some S_IFLNK

/-- Renames of the runs considered have a destination other than the source. -/
def Call.MovesApart (db : Db) : Call → Prop
  | .rename p n np nn => ∀ v d, db.entry p n = some v → db.entry np nn = some d → v.inode ≠ d.inode
  | _ => True

/-- The call takes no symbolic link's record away. -/
def Call.KeepsSymlinks (s : Server) : Call → Prop
  | .unlink p n => ∀ v, s.db.entry p n = some v → s.db.kind v.inode = some S_IFLNK →
      ∀ iv, s.db.inode v.inode = some iv → 1 < iv.nlink ∨ 0 < s.handles v.inode
  | .rename _ _ np nn => ∀ d, s.db.entry np nn = some d → s.db.kind d.inode = some S_IFLNK →
      ∀ iv, s.db.inode d.inode = some iv → 1 < iv.nlink
  | .release i => s.db.kind i = some S_IFLNK → s.pendingDeletes i = false
  | _ => True

/-! ## Kinds -/

theorem Server.Bookkeeping.kind {ps : List Inode} {s s' : Server} (h : Bookkeeping ps s s') (i : Inode) :
    s'.db.kind i = s.db.kind i := by
  unfold Db.kind
  rcases h.inode i with he | ⟨-, iv, ds, h₁, h₂⟩
  · rw [he]
  · rw [h₁, h₂, Option.map_some, Option.map_some, foldDeltas_mode]

theorem Db.kind_some {db : Db} {i : Inode} {iv : InodeValue} (h : db.inode i = some iv) :
    db.kind i = some (fileType iv.mode) := by
  unfold kind
  rw [h]
  rfl

/-- A new record of the same type. -/
theorem Db.kind_of_rewrite {db D : Db} {i : Inode} {iv iv' : InodeValue} (hi : db.inode i = some iv)
    (hD : ∀ j, D.inode j = if j = i then some iv' else db.inode j)
    (ht : fileType iv'.mode = fileType iv.mode) (j : Inode) : D.kind j = db.kind j := by
  by_cases e : j = i
  · subst e
    rw [kind_some hi, kind_some ((hD j).trans (if_pos rfl)), ht]
  · unfold kind
    rw [hD, if_neg e]

/-- A removed record. -/
theorem Db.kind_of_erase {db D : Db} {i : Inode}
    (hD : ∀ j, D.inode j = if j = i then none else db.inode j) (j : Inode) :
    D.kind j = if j = i then none else db.kind j := by
  unfold kind
  rw [hD]
  split <;> rfl

/-- The kinds after a rename: only a removed destination's changes. -/
theorem kind_renameOps {db : Db} (p : Inode) (n : Name) (np : Inode) (nn : Name) {src : Inode}
    {srcIv : InodeValue} {dst : Option DirValue} {vic : Victim} {ts : Nat} {srcIsDir : Bool}
    (hi : db.inode src = some srcIv) (hv : VictimOf db srcIsDir ts dst vic)
    (hne : ∀ d, dst = some d → src ≠ d.inode) (j : Inode) :
    (db.applyBatch (renameOps p n np nn src srcIv dst vic ts)).kind j =
      if vic.delete = some j then none else db.kind j := by
  unfold Db.kind
  rw [inode_renameOps hv]
  unfold Victim.records
  by_cases hsrc : j = src
  · subst hsrc
    have hdel : vic.delete ≠ some j := by
      intro hdel
      obtain ⟨d, iv, hd, e, -⟩ := hv.delete_eq hdel
      exact hne d hd e.symm
    rw [if_pos rfl, if_neg hdel, hi]
    rfl
  rw [if_neg hsrc]
  by_cases hdel : vic.delete = some j
  · rw [if_pos hdel, if_pos hdel]
    rfl
  rw [if_neg hdel, if_neg hdel]
  cases hkeep : vic.keep with
  | none => rfl
  | some k =>
      obtain ⟨d, iv, -, -, -, hdi, -, rfl⟩ := hv.keep_eq hkeep
      by_cases e : j = d.inode
      · subst e
        simp [hdi]
      · simp [e]

/-! ## Creations -/

/-- What a creation of type `t` and number `i` stores besides record and entry. -/
inductive Payload (i : Inode) : Nat → List BatchOp → Prop where
  | file (location : String) : Payload i S_IFREG [.putDataLocation i location]
  | dir : Payload i S_IFDIR []
  | symlink (target : List Byte) : Payload i S_IFLNK [.putSymlink i target]

/-- A creation changes nothing, or makes an object with the payload of its type. -/
theorem exec_makesObject (cfg : Config) (s : Server) {c : Call} (hc : c.makesObject = true) :
    (s.exec cfg c).2 = s ∨
    ∃ p n iv extra ds, iv.inode = s.next ∧ Payload s.next (fileType iv.mode) extra ∧
      (s.exec cfg c).2.db = (s.created cfg p n iv extra ds).db ∧ (s.exec cfg c).2.next = s.next + 1 := by
  have hnext : ∀ p n iv extra ds, (s.created cfg p n iv extra ds).next = s.next + 1 := by
    intro p n iv extra ds
    rw [(Server.Bookkeeping.created cfg s p n iv extra ds).next]
  cases c with
  | create p n mode uid gid =>
      have hop := exec_create cfg s p n mode uid gid
      rcases creation_cases cfg s p n (s.newFile cfg mode uid gid)
        [.putDataLocation s.next cfg.defaultDataLocation.serverId] (touchDeltas (cfg.clock s.ticks)) with
        ⟨e, h⟩ | ⟨-, h⟩ <;> rw [h] at hop <;> rw [Server.exec_eq rfl hop]
      · exact Or.inl rfl
      · refine Or.inr ⟨p, n, _, _, _, rfl, ?_, rfl, hnext _ _ _ _ _⟩
        rw [show fileType (s.newFile cfg mode uid gid).mode = S_IFREG from fileType_reg mode]
        exact .file _
  | createAndOpen p n mode uid gid flags =>
      have hop := exec_createAndOpen cfg s p n mode uid gid flags
      rcases creation_cases cfg s p n (s.newFile cfg mode uid gid)
        [.putDataLocation s.next cfg.defaultDataLocation.serverId] (touchDeltas (cfg.clock s.ticks)) with
        ⟨e, h⟩ | ⟨-, h⟩ <;> rw [h] at hop <;> rw [Server.exec_eq rfl hop]
      · exact Or.inl rfl
      · refine Or.inr ⟨p, n, s.newFile cfg mode uid gid,
          [.putDataLocation s.next cfg.defaultDataLocation.serverId], touchDeltas (cfg.clock s.ticks), rfl,
          ?_, rfl, hnext p n (s.newFile cfg mode uid gid)
            [.putDataLocation s.next cfg.defaultDataLocation.serverId] (touchDeltas (cfg.clock s.ticks))⟩
        rw [show fileType (s.newFile cfg mode uid gid).mode = S_IFREG from fileType_reg mode]
        exact .file _
  | mkdir p n mode uid gid =>
      have hop := exec_mkdir cfg s p n mode uid gid
      rcases creation_cases cfg s p n (s.newDir cfg mode uid gid) []
        (.incrementNlink 1 :: touchDeltas (cfg.clock s.ticks)) with
        ⟨e, h⟩ | ⟨-, h⟩ <;> rw [h] at hop <;> rw [Server.exec_eq rfl hop]
      · exact Or.inl rfl
      · refine Or.inr ⟨p, n, _, _, _, rfl, ?_, rfl, hnext _ _ _ _ _⟩
        rw [show fileType (s.newDir cfg mode uid gid).mode = S_IFDIR from fileType_dir mode]
        exact .dir
  | symlink p n target uid gid =>
      have hop := exec_symlink cfg s p n target uid gid
      rcases creation_cases cfg s p n (s.newSymlink cfg target uid gid)
        [.putSymlink s.next target] (touchDeltas (cfg.clock s.ticks)) with
        ⟨e, h⟩ | ⟨-, h⟩ <;> rw [h] at hop <;> rw [Server.exec_eq rfl hop]
      · exact Or.inl rfl
      · refine Or.inr ⟨p, n, _, _, _, rfl, ?_, rfl, hnext _ _ _ _ _⟩
        rw [show fileType (s.newSymlink cfg target uid gid).mode = S_IFLNK from fileType_perm 0o777 (by decide)]
        exact .symlink _
  | _ => cases hc

section

variable {cfg : Config} {s : Server} {p : Inode} {n : Name} {iv : InodeValue} {extra : List BatchOp}
  {ds : List DeltaOp}

theorem Payload.isPayload {i : Inode} {t : Nat} (h : Payload i t extra) : ∀ op ∈ extra, op.IsPayload := by
  cases h <;> simp [BatchOp.IsPayload]

theorem kind_created (hi : iv.inode = s.next) (hx : ∀ op ∈ extra, op.IsPayload) (j : Inode) :
    (s.created cfg p n iv extra ds).db.kind j =
      if j = s.next then some (fileType iv.mode) else s.db.kind j := by
  rw [(Server.Bookkeeping.created cfg s p n iv extra ds).kind]
  unfold Db.kind
  rw [hi]
  show ((s.db.applyBatch (.putInode s.next iv :: .putDirEntry p n ⟨s.next, iv.mode⟩ :: extra)).inode j).map _ = _
  rw [Change.inode_create fun op ho => (hx op ho).side]
  split <;> rfl

theorem dataLocations_created (hx : Payload s.next (fileType iv.mode) extra)
    (j : Inode) : ((s.created cfg p n iv extra ds).db.dataLocations.get j).isSome =
      if j = s.next then decide (fileType iv.mode = S_IFREG) || (s.db.dataLocations.get j).isSome
      else (s.db.dataLocations.get j).isSome := by
  rw [(Server.Bookkeeping.created cfg s p n iv extra ds).dataLocations]
  generalize fileType iv.mode = t at hx
  cases hx with
  | file location =>
      show ((s.db.dataLocations.put s.next location).get j).isSome = _
      rw [OrdMap.get_put]
      split <;> simp
  | dir =>
      show (s.db.dataLocations.get j).isSome = _
      split <;> simp [S_IFDIR, S_IFREG]
  | symlink target =>
      show (s.db.dataLocations.get j).isSome = _
      split <;> simp [S_IFLNK, S_IFREG]

end

/-! ## Every other call -/

/-- A call that makes no object keeps the kinds of all records and the data locations, or takes one
record away.  The location goes with it, unless the record is not a regular file's. -/
theorem Effect.kind_cases {s s' : Server} {c : Call} {r : Reply} (h : Effect s c r s') (hw : s.Wf)
    (hm : c.MovesApart s.db) (hc : c.makesObject = false) :
    ((∀ j, s'.db.kind j = s.db.kind j) ∧ s'.db.dataLocations = s.db.dataLocations) ∨
    ∃ i, (∀ j, s'.db.kind j = if j = i then none else s.db.kind j) ∧
      (s'.db.dataLocations = s.db.dataLocations.erase i ∨
        s'.db.dataLocations = s.db.dataLocations ∧ s.db.kind i ≠ some S_IFREG) ∧
      (c.KeepsSymlinks s → s.db.kind i ≠ some S_IFLNK) := by
  cases h with
  | quiet => exact Or.inl ⟨fun _ => rfl, rfl⟩
  | made hk => cases hk <;> cases hc
  | madeOpen => cases hc
  | link ts hi => exact Or.inl ⟨Db.kind_of_rewrite hi Change.inode_link rfl, rfl⟩
  | unlinkKeep ts he hd hi => exact Or.inl ⟨Db.kind_of_rewrite hi Change.inode_unlinkKeep rfl, rfl⟩
  | unlinkDefer ts he hd hi => exact Or.inl ⟨Db.kind_of_rewrite hi Change.inode_unlinkKeep rfl, rfl⟩
  | unlinkDrop he hd hi hl hh =>
      refine Or.inr ⟨_, Db.kind_of_erase Change.inode_unlinkDrop, Or.inl rfl, fun hk hlnk => ?_⟩
      have := hk _ he hlnk _ hi
      omega
  | @rmdir p n v iv he hd hi =>
      have hdir : ∀ t, t &&& S_IFDIR = 0 → s.db.kind v.inode ≠ some t := by
        intro t ht e
        rw [Db.kind_some hi, ← hw.db.type_eq he hi] at e
        rw [isDir_eq_fileType, Option.some.inj e, ht] at hd
        cases hd
      exact Or.inr ⟨_, Db.kind_of_erase Change.inode_rmdir, Or.inr ⟨rfl, hdir _ (by decide)⟩,
        fun _ => hdir _ (by decide)⟩
  | @rename p n np nn v srcIv vic ts he hi hv =>
      have hne : ∀ d, s.db.entry np nn = some d → v.inode ≠ d.inode := fun d hd => hm v d he hd
      have hkind := kind_renameOps p n np nn hi hv hne
      have hloc : (s.db.applyBatch (renameOps p n np nn v.inode srcIv (s.db.entry np nn) vic ts)).dataLocations =
          _ := dataLocations_renameOps hv
      cases hdel : vic.delete with
      | none =>
          rw [hdel] at hloc
          exact Or.inl ⟨fun j => (hkind j).trans (if_neg (by simp [hdel])), hloc⟩
      | some i =>
          rw [hdel] at hloc
          refine Or.inr ⟨i, fun j => (hkind j).trans ?_, Or.inl hloc, fun hk hlnk => ?_⟩
          · rw [hdel]
            by_cases e : j = i
            · rw [if_pos e, if_pos (by rw [e])]
            · rw [if_neg e, if_neg fun h => e (Option.some.inj h).symm]
          · obtain ⟨d, iv, hd, rfl, -, -, hdi, hle⟩ := hv.delete_eq hdel
            have := hk d hd hlnk iv hdi
            omega
  | rewrite _ hi ht => exact Or.inl ⟨Db.kind_of_rewrite hi Change.inode_rewrite ht, rfl⟩
  | opened => exact Or.inl ⟨fun _ => rfl, rfl⟩
  | openedTrunc hi ht =>
      exact Or.inl ⟨Db.kind_of_rewrite hi Change.inode_rewrite (congrArg fileType ht), rfl⟩
  | @released i =>
      rw [s.checkAndClear_db]
      exact Or.inl ⟨fun _ => rfl, rfl⟩
  | @releasedDrop i hp =>
      have hdb : ((s.checkAndClearDeferredDelete i).2.write [.deleteInode i, .deleteDataLocation i]).db =
          s.db.applyBatch [.deleteInode i, .deleteDataLocation i] := by
        show (s.checkAndClearDeferredDelete i).2.db.applyBatch _ = _
        rw [s.checkAndClear_db]
      rw [hdb]
      refine Or.inr ⟨i, Db.kind_of_erase Change.inode_drop, Or.inl rfl, fun hk hlnk => ?_⟩
      have hpending := (s.checkAndClear_true hp).1
      rw [hk hlnk] at hpending
      cases hpending

/-! ## Symlink targets -/

theorem Db.aside_symlinks : Db.Aside Db.symlinks where
  applyOp db op hput hdel := by
    cases op with
    | putSymlink i t => exact absurd rfl (hput i t)
    | deleteSymlink i => exact absurd rfl (hdel i)
    | _ => rfl
  deltas _ _ := rfl

/-! ## Runs -/

section

variable {cfg : Config} {s : Server}

theorem Server.symlinks_created {p : Inode} {n : Name} {iv : InodeValue} {extra : List BatchOp}
    {ds : List DeltaOp} (hx : Payload s.next (fileType iv.mode) extra) (j : Inode) :
    ((s.created cfg p n iv extra ds).db.symlinks.get j).isSome =
      if j = s.next then decide (fileType iv.mode = S_IFLNK) || (s.db.symlinks.get j).isSome
      else (s.db.symlinks.get j).isSome := by
  have hpersist : ∀ t : Server, t.persist.db.symlinks = t.db.symlinks := by
    intro t
    unfold Server.persist
    split <;> rfl
  have hchain : (s.created cfg p n iv extra ds).db.symlinks = (s.db.applyBatch
      (.putInode iv.inode iv :: .putDirEntry p n ⟨iv.inode, iv.mode⟩ :: extra)).symlinks :=
    (hpersist _).trans (Db.aside_symlinks.parentDeltas _ _ _ _)
  rw [hchain]
  generalize fileType iv.mode = t at hx
  cases hx with
  | file location =>
      show (s.db.symlinks.get j).isSome = _
      split <;> simp [S_IFLNK, S_IFREG]
  | dir =>
      show (s.db.symlinks.get j).isSome = _
      split <;> simp [S_IFLNK, S_IFDIR]
  | symlink target =>
      show ((s.db.symlinks.put s.next target).get j).isSome = _
      rw [OrdMap.get_put]
      split <;> simp

/-- A creation keeps a match between the objects of type `t` and a set `has` to which it adds objects
of that type only: the new number was in neither. -/
theorem matches_created {p : Inode} {n : Name} {iv : InodeValue} {extra : List BatchOp} {ds : List DeltaOp}
    (hw : s.Wf) (hi : iv.inode = s.next) (hx : Payload s.next (fileType iv.mode) extra) {t : Nat}
    {has has' : Inode → Bool} (h : ∀ j, has j = true ↔ s.db.kind j = some t)
    (hhas : ∀ j, has' j = if j = s.next then decide (fileType iv.mode = t) || has j else has j) (j : Inode) :
    has' j = true ↔ (s.created cfg p n iv extra ds).db.kind j = some t := by
  rw [hhas, kind_created hi hx.isPayload]
  by_cases e : j = s.next
  · have hkind : s.db.kind s.next = none := by
      unfold Db.kind
      rw [(Effect.fresh_next hw.db).1]
      rfl
    have hnone : has s.next = false := by
      rw [← Bool.not_eq_true, h s.next, hkind]
      simp
    rw [if_pos e, if_pos e, e, hnone]
    simp
  · rw [if_neg e, if_neg e]
    exact h j

theorem Db.LocationsMatch.exec (h : s.db.LocationsMatch) (hw : s.Wf) {c : Call} (hm : c.MovesApart s.db) :
    (s.exec cfg c).2.db.LocationsMatch := by
  by_cases hc : c.makesObject = true
  · rcases exec_makesObject cfg s hc with he | ⟨p, n, iv, extra, ds, hi, hx, he, -⟩ <;> rw [he]
    · exact h
    · exact matches_created hw hi hx h (dataLocations_created hx)
  · obtain ⟨s₁, heff, hb⟩ := exec_effect cfg s c
    intro j
    rw [hb.kind, hb.dataLocations]
    rcases heff.kind_cases hw hm (by simpa using hc) with ⟨hk, hl⟩ | ⟨i, hk, hl, -⟩
    · rw [hk, hl]
      exact h j
    · rw [hk]
      rcases hl with hl | ⟨hl, hreg⟩
      · rw [hl, OrdMap.get_erase]
        by_cases e : j = i
        · simp [e]
        · rw [if_neg e, if_neg e]
          exact h j
      · rw [hl, h j]
        by_cases e : j = i
        · rw [if_pos e, e]
          simpa using hreg
        · rw [if_neg e]

theorem Db.TargetsMatch.exec (h : s.db.TargetsMatch) (hw : s.Wf) {c : Call} (hm : c.MovesApart s.db)
    (hk : c.KeepsSymlinks s) : (s.exec cfg c).2.db.TargetsMatch := by
  by_cases hc : c.makesObject = true
  · rcases exec_makesObject cfg s hc with he | ⟨p, n, iv, extra, ds, hi, hx, he, -⟩ <;> rw [he]
    · exact h
    · exact matches_created hw hi hx h (Server.symlinks_created hx)
  · have hc : c.makesObject = false := by simpa using hc
    obtain ⟨s₁, heff, hb⟩ := exec_effect cfg s c
    intro j
    rw [hb.kind, (exec_outcome cfg s c).aside Db.aside_symlinks hc, h j]
    rcases heff.kind_cases hw hm hc with ⟨hkind, -⟩ | ⟨i, hkind, -, hlnk⟩
    · rw [hkind]
    · rw [hkind]
      by_cases e : j = i
      · rw [if_pos e, e]
        simpa using hlnk hk
      · rw [if_neg e]

theorem Server.kind_fresh (cfg : Config) (i : Inode) :
    (Server.fresh cfg).db.kind i = if i = ROOT_INODE then some S_IFDIR else none := by
  unfold Db.kind
  rw [Server.inode_fresh]
  split
  · exact congrArg some (by decide : fileType (S_IFDIR ||| 0o777) = S_IFDIR)
  · rfl

/-- **Data locations.**  In every run whose renames have distinct source and destination, exactly the
stored regular files have a data location. -/
theorem locations_match {es : List (Call × Reply)}
    (h : Trace (Server.exec cfg) (fun _ s c => c.MovesApart s.db) (Server.fresh cfg) es s) :
    s.Wf ∧ s.db.LocationsMatch := by
  refine h.invariant (fun _ s => s.Wf ∧ s.db.LocationsMatch) ⟨Server.wf_fresh cfg, fun i => ?_⟩
    fun ⟨hw, hl⟩ hm => ⟨hw.exec cfg _, hl.exec hw hm⟩
  have hnone : (Server.fresh cfg).db.dataLocations.get i = none := rfl
  rw [hnone, Server.kind_fresh]
  split <;> simp [S_IFDIR, S_IFREG]

/-- **Side records.**  In every run whose renames have distinct source and destination and in which no
call takes the record of a symbolic link away, exactly the stored symbolic links have a target and
exactly the stored regular files a data location. -/
theorem side_records_match {es : List (Call × Reply)}
    (h : Trace (Server.exec cfg) (fun _ s c => c.MovesApart s.db ∧ c.KeepsSymlinks s) (Server.fresh cfg) es s) :
    s.db.TargetsMatch ∧ s.db.LocationsMatch := by
  have hinv : s.Wf ∧ s.db.TargetsMatch ∧ s.db.LocationsMatch := by
    refine h.invariant (fun _ s => s.Wf ∧ s.db.TargetsMatch ∧ s.db.LocationsMatch)
      ⟨Server.wf_fresh cfg, fun i => ?_, (locations_match .nil).2⟩
      fun ⟨hw, ht, hl⟩ ⟨hm, hk⟩ => ⟨hw.exec cfg _, ht.exec hw hm hk, hl.exec hw hm⟩
    have hnone : (Server.fresh cfg).db.symlinks.get i = none := rfl
    rw [hnone, Server.kind_fresh]
    split <;> simp [S_IFDIR, S_IFLNK]
  exact hinv.2

end

/-- A symbolic link with two names loses one of them. -/
theorem side_records_match_linked :
    let s₁ := ((Server.fresh {}).exec {} (.symlink 1 [97] [120] 0 0)).2
    let s₂ := (s₁.exec {} (.link 1 [98] 2)).2
    let s₃ := (s₂.exec {} (.unlink 1 [97])).2
    s₃.db.symlinks.get 2 = some [120] ∧ s₃.db.TargetsMatch ∧ s₃.db.LocationsMatch := by
  intro s₁ s₂ s₃
  have h₂ : Trace (Server.exec {}) (fun _ s c => c.MovesApart s.db ∧ c.KeepsSymlinks s) (Server.fresh {}) _ s₂ :=
    .snoc (Call.link 1 [98] 2) (.snoc (Call.symlink 1 [97] [120] 0 0) .nil ⟨trivial, trivial⟩) ⟨trivial, trivial⟩
  refine ⟨by decide +kernel, side_records_match (.snoc (Call.unlink 1 [97]) h₂ ⟨trivial, ?_⟩)⟩
  have ha : s₂.db.entry 1 [97] = some ⟨2, S_IFLNK ||| 0o777⟩ := by decide +kernel
  have hnl : (s₂.db.inode 2).map InodeValue.nlink = some 2 := by decide +kernel
  intro v hv _ iv hi
  rw [ha] at hv
  cases hv
  rw [show s₂.db.inode 2 = some iv from hi] at hnl
  have : iv.nlink = 2 := Option.some.inj hnl
  omega

/-- A symbolic link is made and unlinked: its record is gone, its target is still stored. -/
theorem symlink_target_left :
    let s₁ := ((Server.fresh {}).exec {} (.symlink 1 [97] [120] 0 0)).2
    let s₂ := (s₁.exec {} (.unlink 1 [97])).2
    (s₁.exec {} (.unlink 1 [97])).1.isError = false ∧ s₂.db.inode 2 = none ∧
      s₂.db.symlinks.get 2 = some [120] := by
  decide +kernel

end RucksFs
