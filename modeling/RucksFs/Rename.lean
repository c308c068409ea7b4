import RucksFs.Coherence
import RucksFs.Entries
import RucksFs.Links

/-!
# What `rename` does

`rename` combines two entry keys, up to four records that may coincide with the parents, type and
emptiness checks, three link-count rules and a purge decision in one batch.

* `rename_result` — in every sound state, when it succeeds and everything a success changes.
* `rename_same_inode` — when a rename whose two entries name one inode is the no-op POSIX asks for;
  `rename_onto_itself` is a rename that is not.
-/

set_option autoImplicit false

namespace RucksFs

open Server

/-! ## Link counts of the parents -/

/-- What `rename` adds to the link count of `q`. -/
def renameLinks (p np : Inode) (srcIsDir dstWasDir : Bool) (q : Inode) : Int :=
  (if np = q ∧ dstWasDir = true then -1 else 0) +
  (if srcIsDir = true ∧ p ≠ np then (if p = q then -1 else 0) + (if np = q then 1 else 0) else 0)

theorem nlink_foldDeltas_rename {e : InodeValue} (p np : Inode) (a b : Bool) (ts : Nat) (q : Inode)
    (hpos : 1 ≤ e.nlink) (hlt : e.nlink < U32_SIZE) :
    ((foldDeltas e (deltasOf (renameDeltas p np a b ts) q)).nlink : Int) =
      (e.nlink + renameLinks p np a b q) % U32_SIZE := by
  have hU : U32_SIZE = 4294967296 := rfl
  by_cases hk : p = np
  · subst hk
    by_cases hq : p = q
    · cases a <;> cases b <;>
        simp [renameDeltas, deltasOf, renameLinks, foldDeltas, foldDelta, hU, hq] <;> omega
    · cases a <;> cases b <;>
        simp [renameDeltas, deltasOf, renameLinks, foldDeltas, hU, hq] <;> omega
  · by_cases hq : p = q
    · subst hq
      cases a <;> cases b <;>
        simp [renameDeltas, deltasOf, renameLinks, foldDeltas, foldDelta, hU, hk, Ne.symm hk] <;> omega
    · by_cases hq' : np = q
      · subst hq'
        cases a <;> cases b <;>
          simp [renameDeltas, deltasOf, renameLinks, foldDeltas, foldDelta, hU, hk] <;> omega
      · cases a <;> cases b <;>
          simp [renameDeltas, deltasOf, renameLinks, foldDeltas, hU, hk, hq, hq'] <;> omega

/-- The link count of a fold depends on the base's link count only. -/
theorem foldDeltas_nlink_congr {a b : InodeValue} (h : a.nlink = b.nlink) (ds : List DeltaOp) :
    (foldDeltas a ds).nlink = (foldDeltas b ds).nlink := by
  induction ds generalizing a b with
  | nil => exact h
  | cons d ds ih =>
      refine ih ?_
      cases d with
      | incrementNlink k => simp only [foldDelta, h]
      | _ => exact h

/-! ## Subdirectories -/

section

variable {db : Db} {p : Inode} {n : Name} {np : Inode} {nn : Name} {v : DirValue} {srcIv : InodeValue}
  {vic : Victim} {ts : Nat}

/-- The entry's type is the record's. -/
theorem Db.EntriesBacked.isDir_eq (h : db.EntriesBacked) (he : db.entry p n = some v)
    (hi : db.inode v.inode = some srcIv) : isDir v.mode = isDir srcIv.mode := by
  obtain ⟨iv, hiv, ht⟩ := h p n v he
  rw [hi] at hiv
  cases hiv
  exact isDir_of_fileType_eq ht

/-- A rename makes no record a directory and no directory something else. -/
theorem isDirAt_renameOps (hb : db.EntriesBacked) (hi : db.inode v.inode = some srcIv)
    (hv : VictimOf db (isDir srcIv.mode) ts (db.entry np nn) vic) (i : Inode) :
    (db.applyBatch (renameOps p n np nn v.inode srcIv (db.entry np nn) vic ts)).isDirAt i =
      db.isDirAt i := by
  unfold Db.isDirAt
  rw [inode_renameOps hv]
  unfold Victim.records
  by_cases hsrc : i = v.inode
  · subst hsrc
    rw [if_pos rfl, hi]
  rw [if_neg hsrc]
  by_cases hdel : vic.delete = some i
  · obtain ⟨d, iv, hd, rfl, hdm, -, hdi, -⟩ := hv.delete_eq hdel
    rw [if_pos hdel, hdi]
    exact hdm.symm.trans (hb.isDir_eq hd hdi)
  rw [if_neg hdel]
  cases hkeep : vic.keep with
  | none => rfl
  | some k =>
      obtain ⟨d, iv, -, -, -, hdi, -, rfl⟩ := hv.keep_eq hkeep
      by_cases e : i = d.inode
      · subst e
        simp [hdi]
      · simp [e]

/-- The subdirectories of every directory change as the link counts do. -/
theorem subdirs_renameOps (hb : db.EntriesBacked) (he : db.entry p n = some v)
    (hi : db.inode v.inode = some srcIv)
    (hv : VictimOf db (isDir srcIv.mode) ts (db.entry np nn) vic) (hk : ¬(p = np ∧ n = nn)) (q : Inode) :
    ((db.applyBatch (renameOps p n np nn v.inode srcIv (db.entry np nn) vic ts)).subdirs q : Int) =
      db.subdirs q + renameLinks p np (isDir srcIv.mode) vic.wasDir q := by
  have hcount := count_renameOps v.inode srcIv vic ts
    (fun k w => (ofLex k).1 == q && db.isDirAt w.inode) he hk
  have hdst : OrdMap.hit (fun k w => (ofLex k).1 == q && db.isDirAt w.inode) (toLex (np, nn))
      (db.entry np nn) = if np = q ∧ vic.wasDir = true then 1 else 0 := by
    cases hd : db.entry np nn with
    | none =>
        rw [hd] at hv
        cases hv
        simp
    | some d =>
        obtain ⟨iv, hiv, -⟩ := hb np nn d hd
        have hdir := hb.isDir_eq hd hiv
        rw [hd] at hv
        obtain ⟨hdm, hwas⟩ := hv.isDir_eq
        rw [OrdMap.hit_some, Db.isDirAt_some hiv, ← hdir, hdm, hwas]
        simp only [ofLex_toLex, Bool.and_eq_true, beq_iff_eq]
  rw [hdst, OrdMap.hit_some, OrdMap.hit_some, Db.isDirAt_some hi, ← Db.subdirs_eq] at hcount
  have hsub : (db.applyBatch (renameOps p n np nn v.inode srcIv (db.entry np nn) vic ts)).subdirs q =
      (db.applyBatch (renameOps p n np nn v.inode srcIv (db.entry np nn) vic ts)).dirEntries.count
        (fun k w => (ofLex k).1 == q && db.isDirAt w.inode) := by
    rw [Db.subdirs_eq]
    congr 1
    funext k w
    rw [isDirAt_renameOps hb hi hv]
  rw [hsub]
  simp only [ofLex_toLex, Bool.and_eq_true, beq_iff_eq] at hcount
  unfold renameLinks
  grind

end

/-! ## The state a rename leaves -/

/-- The server after a successful rename. -/
def Server.renamed (cfg : Config) (s : Server) (p : Inode) (n : Name) (np : Inode) (nn : Name)
    (v : DirValue) (srcIv : InodeValue) (vic : Victim) : Server :=
  let dss := renameDeltas p np (isDir srcIv.mode) vic.wasDir (cfg.clock s.ticks)
  (s.renameCommitted cfg p n np nn v.inode srcIv vic dss).touchAll dss

/-- The checks of `rename` that the rows decide. -/
def Db.MayRename (db : Db) (p : Inode) (n : Name) (np : Inode) (nn : Name) : Prop :=
  ∃ v iv, db.entry p n = some v ∧ db.inode v.inode = some iv ∧
    ∀ d, db.entry np nn = some d → isDir d.mode = isDir iv.mode ∧
      if isDir d.mode = true then db.isDirEmpty d.inode = true else (db.inode d.inode).isSome = true

theorem Db.renameVictim_error {db : Db} {srcIsDir : Bool} {ts : Nat} {dst : Option DirValue} {e : FsError}
    (h : db.renameVictim srcIsDir ts dst = .error e) :
    ∃ d, dst = some d ∧ (isDir d.mode = srcIsDir →
      ¬if isDir d.mode = true then db.isDirEmpty d.inode = true else (db.inode d.inode).isSome = true) := by
  cases dst with
  | none => cases h
  | some d =>
      refine ⟨d, rfl, fun hd => ?_⟩
      unfold renameVictim at h
      subst hd
      cases hm : isDir d.mode
      · simp only [hm, Bool.not_false, Bool.and_true, Bool.false_eq_true, if_false, Bool.and_false] at h ⊢
        cases hi : db.inode d.inode with
        | none => simp
        | some iv =>
            rw [hi] at h
            dsimp only at h
            split at h <;> cases h
      · simp only [hm, Bool.not_true, Bool.and_false, Bool.false_eq_true, if_false, if_true,
          Bool.false_and] at h ⊢
        split at h
        · cases h
        · assumption

/-- The data locations after a rename: only a deleted destination's goes. -/
theorem dataLocations_renameOps {db : Db} {p : Inode} {n : Name} {np : Inode} {nn : Name} {src : Inode}
    {srcIv : InodeValue} {dst : Option DirValue} {vic : Victim} {ts : Nat} {srcIsDir : Bool}
    (hv : VictimOf db srcIsDir ts dst vic) :
    (db.applyBatch (renameOps p n np nn src srcIv dst vic ts)).dataLocations =
      match vic.delete with
      | some i => db.dataLocations.erase i
      | none => db.dataLocations := by
  cases hv <;> rfl

section

variable {cfg : Config} {s : Server} {p : Inode} {n : Name} {np : Inode} {nn : Name} {v : DirValue}
  {srcIv : InodeValue} {vic : Victim}

/-- `rename` fails, or commits what its checks lead to. -/
theorem exec_rename_cases (cfg : Config) (s : Server) (p : Inode) (n : Name) (np : Inode) (nn : Name) :
    (∃ e s', s.exec cfg (.rename p n np nn) = (.purged (.error e), s') ∧
      ¬(n.length ≤ NAME_MAX ∧ nn.length ≤ NAME_MAX ∧ s.db.MayRename p n np nn)) ∨
    (n.length ≤ NAME_MAX ∧ nn.length ≤ NAME_MAX ∧ s.db.MayRename p n np nn ∧
      ∃ v srcIv vic, s.db.entry p n = some v ∧ s.db.inode v.inode = some srcIv ∧
        s.exec cfg (.rename p n np nn) =
          (.purged (.ok vic.delete.toList), s.renamed cfg p n np nn v srcIv vic) ∧
        VictimOf s.db (isDir srcIv.mode) (cfg.clock s.ticks) (s.db.entry np nn) vic ∧
        ∀ d, s.db.entry np nn = some d → vic.wasDir = true → s.db.isDirEmpty d.inode = true) := by
  have hop := exec_rename cfg s p n np nn
  by_cases hn : n.length > NAME_MAX
  · rw [if_pos hn] at hop
    exact Or.inl ⟨_, _, Server.exec_eq rfl hop, fun h => absurd h.1 (by omega)⟩
  by_cases hnn : nn.length > NAME_MAX
  · rw [if_neg hn, if_pos hnn] at hop
    exact Or.inl ⟨_, _, Server.exec_eq rfl hop, fun h => absurd h.2.1 (by omega)⟩
  rw [if_neg hn, if_neg hnn] at hop
  unfold Server.renaming at hop
  cases he : s.db.entry p n with
  | none =>
      have hsrc : s.db.renameSource p n = .error .notFound := by
        unfold Db.renameSource
        rw [he]
      rw [hsrc] at hop
      refine Or.inl ⟨_, _, Server.exec_eq rfl hop, fun h => ?_⟩
      obtain ⟨-, -, v, iv, hv, -⟩ := h
      rw [he] at hv
      cases hv
  | some v =>
    cases hi : s.db.inode v.inode with
    | none =>
        have hsrc : s.db.renameSource p n = .error .notFound := by
          unfold Db.renameSource
          rw [he]
          dsimp only
          rw [hi]
        rw [hsrc] at hop
        refine Or.inl ⟨_, _, Server.exec_eq rfl hop, fun h => ?_⟩
        obtain ⟨-, -, w, iv, hw, hiv, -⟩ := h
        rw [he] at hw
        cases hw
        rw [hi] at hiv
        cases hiv
    | some srcIv =>
        have hsrc : s.db.renameSource p n = .ok (v.inode, srcIv) := by
          unfold Db.renameSource
          rw [he]
          dsimp only
          rw [hi]
        rw [hsrc] at hop
        dsimp only at hop
        cases hvic : s.db.renameVictim (isDir srcIv.mode) (cfg.clock s.ticks) (s.db.entry np nn) with
        | error e =>
            rw [hvic] at hop
            refine Or.inl ⟨_, _, Server.exec_eq rfl hop, fun h => ?_⟩
            obtain ⟨-, -, w, iv, hw, hiv, hdst⟩ := h
            rw [he] at hw
            cases hw
            rw [hi] at hiv
            cases hiv
            obtain ⟨d, hd, hno⟩ := Db.renameVictim_error hvic
            exact hno (hdst d hd).1 (hdst d hd).2
        | ok vic =>
            rw [hvic] at hop
            obtain ⟨hv, hemp⟩ := Db.renameVictim_ok hvic
            refine Or.inr ⟨by omega, by omega, ⟨v, srcIv, he, hi, fun d hd => ?_⟩, v, srcIv, vic, rfl, hi,
              Server.exec_eq rfl hop, hv, hemp⟩
            rw [hd] at hv
            obtain ⟨hdm, hwas⟩ := hv.isDir_eq
            refine ⟨hdm, ?_⟩
            split
            · rename_i hdir
              exact hemp d hd (hwas.trans (hdm.symm.trans hdir))
            · rename_i hdir
              rcases hv.wasDir_or_file with hw | ⟨-, iv, hiv⟩
              · exact absurd (hdm.trans (hwas.symm.trans hw)) hdir
              · rw [hiv]
                rfl

theorem bookkeeping_renamed : Bookkeeping [p, np] (s.write (renameOps p n np nn v.inode srcIv (s.db.entry np nn) vic
    (cfg.clock s.ticks))) (s.renamed cfg p n np nn v srcIv vic) := .renamed ..

/-- The replaced inode has no deltas left. -/
theorem deltas_renamed_dst {d : DirValue} (hd : s.db.entry np nn = some d) :
    (s.renamed cfg p n np nn v srcIv vic).db.deltas d.inode = [] := by
  have hchain := (Server.db_touchAll (renameDeltas p np (isDir srcIv.mode) vic.wasDir (cfg.clock s.ticks))
    (s.renameCommitted cfg p n np nn v.inode srcIv vic
      (renameDeltas p np (isDir srcIv.mode) vic.wasDir (cfg.clock s.ticks)))).1
  unfold Server.renamed
  dsimp only
  rw [hchain]
  unfold Server.renameCommitted
  rw [hd]
  exact (deltas_clearDeltas _ d.inode d.inode).trans (if_pos rfl)

theorem entry_renamed (a : Inode) (b : Name) : (s.renamed cfg p n np nn v srcIv vic).db.entry a b =
    if a = np ∧ b = nn then some ⟨v.inode, srcIv.mode⟩ else if a = p ∧ b = n then none else s.db.entry a b :=
  (bookkeeping_renamed.entry a b).trans (entry_renameOps a b)

variable (hv : VictimOf s.db (isDir srcIv.mode) (cfg.clock s.ticks) (s.db.entry np nn) vic)

include hv

/-- In both builds the records are those of the batch, the parents' apart. -/
theorem inode_renamed_ne {j : Inode} (hp : j ≠ p) (hnp : j ≠ np) :
    (s.renamed cfg p n np nn v srcIv vic).db.inode j =
      vic.records v.inode { srcIv with ctime := cfg.clock s.ticks } s.db j := by
  rcases bookkeeping_renamed.inode j with h | ⟨hm, -⟩
  · exact h.trans (inode_renameOps hv j)
  · simp [hp, hnp] at hm

theorem dataLocations_renamed (i : Inode) :
    (s.renamed cfg p n np nn v srcIv vic).db.dataLocations.get i =
      if vic.delete = some i then none else s.db.dataLocations.get i := by
  rw [bookkeeping_renamed.dataLocations.trans (dataLocations_renameOps hv)]
  cases vic.delete with
  | none => rfl
  | some k => simp [OrdMap.get_erase, eq_comm]

/-- What becomes of a replaced file. -/
theorem replaced_renamed {d : DirValue} {iv : InodeValue} (hd : s.db.entry np nn = some d) (hm : isDir d.mode = false)
    (hi : s.db.inode d.inode = some iv) (hsrc : d.inode ≠ v.inode) (hp : d.inode ≠ p) (hnp : d.inode ≠ np) :
    (s.renamed cfg p n np nn v srcIv vic).db.inode d.inode =
        (if 1 < iv.nlink then some { iv with nlink := iv.nlink - 1, ctime := cfg.clock s.ticks } else none) ∧
      vic.delete = if 1 < iv.nlink then none else some d.inode := by
  rw [inode_renamed_ne hv hp hnp]
  rw [hd] at hv
  cases hv with
  | dir hf =>
      rw [hm] at hf
      cases hf
  | keep _ _ hi' hl =>
      rw [hi] at hi'
      cases hi'
      simp [Victim.records, hsrc, hl]
  | drop _ _ hi' hl =>
      rw [hi] at hi'
      cases hi'
      simp [Victim.records, hsrc, Nat.not_lt.2 hl]

variable (hl : s.LogOk cfg)

include hl

/-- The stored deltas and records, seen from an inode that is not the replaced one. -/
theorem effective_renamed {q : Inode} (hq : ∀ d, s.db.entry np nn = some d → q ≠ d.inode) :
    (s.renamed cfg p n np nn v srcIv vic).db.effective q =
      ((vic.records v.inode { srcIv with ctime := cfg.clock s.ticks } s.db q).map
        (foldDeltas · (s.db.deltas q))).map (foldDeltas · (deltasOf
          (renameDeltas p np (isDir srcIv.mode) vic.wasDir (cfg.clock s.ticks)) q)) := by
  set dss := renameDeltas p np (isDir srcIv.mode) vic.wasDir (cfg.clock s.ticks) with hdss
  set t := s.tick.write (renameOps p n np nn v.inode srcIv (s.db.entry np nn) vic (cfg.clock s.ticks))
    with ht
  have htl : t.LogOk cfg := (hl.congr rfl rfl : s.tick.LogOk cfg).write not_isDelta_renameOps
  have hforget : ∀ u : Server, (u.forget (s.db.entry np nn)).db.effective q = u.db.effective q := by
    intro u
    cases hd : s.db.entry np nn with
    | none => rfl
    | some d =>
        refine Db.effective_congr rfl ?_
        exact (deltas_clearDeltas u d.inode q).trans (if_neg (hq d hd))
  have hteff : t.db.effective q = (vic.records v.inode { srcIv with ctime := cfg.clock s.ticks } s.db q).map
      (foldDeltas · (s.db.deltas q)) := by
    unfold Db.effective
    have hdel : t.db.deltas q = s.db.deltas q :=
      Db.deltas_congr (s.db.deltaEntries_applyBatch not_isDelta_renameOps) q
    rw [hdel]
    congr 1
    exact inode_renameOps hv q
  have hchain : (s.renamed cfg p n np nn v srcIv vic).db =
      ((t.parentDeltasAll cfg dss).forget (s.db.entry np nn)).db :=
    (Server.db_touchAll dss _).1
  rw [hchain, hforget, effective_parentDeltasAll dss q htl, hteff]

/-- The stored records: in the `no_delta` build the parents' are folded. -/
theorem inode_renamed (j : Inode) : (s.renamed cfg p n np nn v srcIv vic).db.inode j =
      match cfg.build with
      | .delta => vic.records v.inode { srcIv with ctime := cfg.clock s.ticks } s.db j
      | .noDelta => (vic.records v.inode { srcIv with ctime := cfg.clock s.ticks } s.db j).map
          (foldDeltas · (deltasOf
            (renameDeltas p np (isDir srcIv.mode) vic.wasDir (cfg.clock s.ticks)) j)) := by
  set dss := renameDeltas p np (isDir srcIv.mode) vic.wasDir (cfg.clock s.ticks)
  set t := s.tick.write (renameOps p n np nn v.inode srcIv (s.db.entry np nn) vic (cfg.clock s.ticks))
    with ht
  have htl : t.LogOk cfg := (hl.congr rfl rfl : s.tick.LogOk cfg).write not_isDelta_renameOps
  have hforget : ∀ u : Server, (u.forget (s.db.entry np nn)).db.inode j = u.db.inode j := by
    intro u
    cases s.db.entry np nn <;> rfl
  have hchain : (s.renamed cfg p n np nn v srcIv vic).db =
      ((t.parentDeltasAll cfg dss).forget (s.db.entry np nn)).db :=
    (Server.db_touchAll dss _).1
  have htj : t.db.inode j = vic.records v.inode { srcIv with ctime := cfg.clock s.ticks } s.db j :=
    inode_renameOps hv j
  rw [hchain, hforget, ← htj]
  cases hb : cfg.build with
  | delta => exact (deltas_parentDeltasAll_delta hb dss j htl).2
  | noDelta => exact inode_parentDeltasAll_noDelta hb htl dss j

end

/-! ## Results -/

/-- Every directory's effective link count is 2 plus its number of subdirectories. -/
def Db.DirLinksCounted (db : Db) : Prop :=
  ∀ i iv, db.effective i = some iv → isDir iv.mode = true → iv.nlink = 2 + db.subdirs i

/-- A well-formed state.  `nlink_lt` says that link counts are `u32`s, `log` that the delta store's
counters are ahead of its keys. -/
structure Server.Sound (cfg : Config) (s : Server) : Prop where
  entries : s.db.EntriesBacked
  links : s.db.LinksCounted
  dirLinks : s.db.DirLinksCounted
  nlink_lt : ∀ i iv, s.db.effective i = some iv → iv.nlink < U32_SIZE
  log : s.LogOk cfg

/-- Soundness, checked binding by binding. -/
theorem Server.sound_of_bindings {cfg : Config} {s : Server} (hb : cfg.build = .delta)
    (he : ∀ b ∈ s.db.dirEntries.toList,
      (s.db.inode b.2.inode).any (fun iv => fileType b.2.mode == fileType iv.mode) = true)
    (hi : ∀ b ∈ s.db.inodes.toList, (foldDeltas b.2 (s.db.deltas b.1)).nlink < U32_SIZE ∧
      if isDir b.2.mode = true then (foldDeltas b.2 (s.db.deltas b.1)).nlink = 2 + s.db.subdirs b.1
      else b.2.nlink = s.db.names b.1)
    (hq : ∀ b ∈ s.db.deltaEntries.toList, (ofLex b.1).2 < s.seqs (ofLex b.1).1) : s.Sound cfg where
  entries p n v hv := by
    have hany := he _ (OrdMap.mem_toList.2 hv)
    dsimp only at hany
    cases hiv : s.db.inode v.inode with
    | none =>
        rw [hiv] at hany
        cases hany
    | some iv =>
        rw [hiv] at hany
        exact ⟨iv, rfl, by simpa using hany⟩
  links i iv hiv hd := by
    have hb := (hi _ (OrdMap.mem_toList.2 hiv)).2
    dsimp only at hb
    rwa [hd, if_neg (by simp)] at hb
  dirLinks i e heff hd := by
    obtain ⟨iv, hiv, rfl⟩ := Option.map_eq_some_iff.1 heff
    have hb := (hi _ (OrdMap.mem_toList.2 hiv)).2
    rw [foldDeltas_mode] at hd
    dsimp only at hb
    rwa [if_pos hd] at hb
  nlink_lt i e heff := by
    obtain ⟨iv, hiv, rfl⟩ := Option.map_eq_some_iff.1 heff
    exact (hi _ (OrdMap.mem_toList.2 hiv)).1
  log := ⟨fun hd => hq _ (OrdMap.mem_toList.2 hd), fun h => by rw [hb] at h; cases h⟩

/-- What a successful rename of the entry `v` with record `srcIv` leaves behind.  Link counts are
`u32`s, so a parent's changes modulo their range. -/
structure Renamed (cfg : Config) (s : Server) (p : Inode) (n : Name) (np : Inode) (nn : Name)
    (v : DirValue) (srcIv : InodeValue) (purged : List Inode) (s' : Server) : Prop where
  entry : ∀ a b, s'.db.entry a b =
    if a = np ∧ b = nn then some ⟨v.inode, srcIv.mode⟩
    else if a = p ∧ b = n then none
    else s.db.entry a b
  /-- In the `no_delta` build a directory that holds its own entry is also rewritten as a parent. -/
  source : cfg.build = .delta ∨ v.inode ≠ p →
    ∃ ts, s'.db.inode v.inode = some { srcIv with ctime := ts }
  parents : ∀ q, q = p ∨ q = np → ∃ e e', s.db.effective q = some e ∧ s'.db.effective q = some e' ∧
    (e'.nlink : Int) = (e.nlink + (s'.db.subdirs q - s.db.subdirs q)) % U32_SIZE
  absent : s.db.entry np nn = none → purged = []
  replaced_dir : ∀ d, s.db.entry np nn = some d → isDir d.mode = true → purged = []
  replaced_many : ∀ d iv, s.db.entry np nn = some d → isDir d.mode = false →
    s.db.inode d.inode = some iv → 1 < iv.nlink →
    (∃ ts, s'.db.inode d.inode = some { iv with nlink := iv.nlink - 1, ctime := ts }) ∧
      s'.db.dataLocations.get d.inode = s.db.dataLocations.get d.inode ∧ purged = []
  replaced_single : ∀ d iv, s.db.entry np nn = some d → isDir d.mode = false →
    s.db.inode d.inode = some iv → iv.nlink = 1 →
    s'.db.inode d.inode = none ∧ s'.db.dataLocations.get d.inode = none ∧ purged = [d.inode]

section

variable {cfg : Config} {s : Server} {p : Inode} {n : Name} {np : Inode} {nn : Name} {v : DirValue}
  {srcIv : InodeValue} {vic : Victim}

theorem Server.Sound.type_eq (h : s.Sound cfg) {iv : InodeValue}
    (he : s.db.entry p n = some v) (hi : s.db.inode v.inode = some iv) :
    fileType v.mode = fileType iv.mode := by
  obtain ⟨iv', hi', ht⟩ := h.entries p n v he
  rw [hi] at hi'
  cases hi'
  exact ht

/-- The checks in terms of the entries alone. -/
theorem Db.EntriesBacked.mayRename_iff {db : Db} (h : db.EntriesBacked) : db.MayRename p n np nn ↔
    ∃ v, db.entry p n = some v ∧ ∀ d, db.entry np nn = some d →
      isDir v.mode = false ∧ isDir d.mode = false ∨
      isDir v.mode = true ∧ isDir d.mode = true ∧ db.isDirEmpty d.inode = true := by
  constructor
  · rintro ⟨v, iv, he, hi, hdst⟩
    refine ⟨v, he, fun d hd => ?_⟩
    obtain ⟨hdm, hok⟩ := hdst d hd
    rw [h.isDir_eq he hi, ← hdm]
    cases hm : isDir d.mode with
    | false => exact Or.inl ⟨rfl, rfl⟩
    | true =>
        rw [if_pos hm] at hok
        exact Or.inr ⟨rfl, rfl, hok⟩
  · rintro ⟨v, he, hdst⟩
    obtain ⟨iv, hi, -⟩ := h p n v he
    refine ⟨v, iv, he, hi, fun d hd => ?_⟩
    rw [← h.isDir_eq he hi]
    rcases hdst d hd with ⟨hv, hm⟩ | ⟨hv, hm, hemp⟩
    · refine ⟨hm.trans hv.symm, ?_⟩
      obtain ⟨div, hdi, -⟩ := h np nn d hd
      simp [hm, hdi]
    · exact ⟨hm.trans hv.symm, by rw [if_pos hm]; exact hemp⟩

section

variable (h : s.Sound cfg) (he : s.db.entry p n = some v) (hi : s.db.inode v.inode = some srcIv)
  (hv : VictimOf s.db (isDir srcIv.mode) (cfg.clock s.ticks) (s.db.entry np nn) vic)

include h he hi hv

/-- A parent's link count follows its subdirectories. -/
theorem nlink_renamed_parent (hk : ¬(p = np ∧ n = nn)) {q : Inode} (hq : s.db.IsDirectory q)
    (hqd : ∀ d, s.db.entry np nn = some d → q ≠ d.inode) :
    ∃ e e', s.db.effective q = some e ∧
      (s.renamed cfg p n np nn v srcIv vic).db.effective q = some e' ∧
      (e'.nlink : Int) = (e.nlink +
        ((s.renamed cfg p n np nn v srcIv vic).db.subdirs q - s.db.subdirs q)) % U32_SIZE := by
  obtain ⟨qv, hqv, hqdir⟩ := hq
  have heff : s.db.effective q = some (foldDeltas qv (s.db.deltas q)) := by
    unfold Db.effective
    rw [hqv]
    rfl
  have hcount := h.dirLinks q _ heff ((foldDeltas_mode _ _).symm ▸ hqdir)
  have hlt := h.nlink_lt q _ heff
  -- the record of `q` differs at most in its change time
  obtain ⟨rv, hrv, hnl⟩ : ∃ rv, vic.records v.inode { srcIv with ctime := cfg.clock s.ticks } s.db q = some rv ∧
      rv.nlink = qv.nlink := by
    by_cases e : q = v.inode
    · subst e
      rw [hi] at hqv
      cases hqv
      exact ⟨_, if_pos rfl, rfl⟩
    · exact ⟨qv, (hv.records_ne e hqd).trans hqv, rfl⟩
  have heff' := effective_renamed (p := p) (n := n) (v := v) hv h.log hqd
  rw [hrv] at heff'
  have hfold := foldDeltas_nlink_congr hnl (s.db.deltas q)
  have hsub := subdirs_renameOps h.entries he hi hv hk q
  have hsame : (s.renamed cfg p n np nn v srcIv vic).db.subdirs q = (s.db.applyBatch
      (renameOps p n np nn v.inode srcIv (s.db.entry np nn) vic (cfg.clock s.ticks))).subdirs q := by
    rw [Db.subdirs_eq, Db.subdirs_eq, bookkeeping_renamed.dirEntries]
    congr 1
    funext k w
    rw [bookkeeping_renamed.isDirAt]
    rfl
  refine ⟨_, _, heff, heff', ?_⟩
  rw [nlink_foldDeltas_rename p np _ _ _ q (by rw [hfold, hcount]; omega) (by rw [hfold]; exact hlt), hfold,
    hsame, hsub]
  congr 2
  omega

/-- What a rename that passes its checks leaves behind. -/
theorem renamed_of_victim (hp : s.db.IsDirectory p) (hnp : s.db.IsDirectory np) (hout : v.inode ≠ np)
    (hne : ∀ d, s.db.entry np nn = some d → v.inode ≠ d.inode)
    (hemp : ∀ d, s.db.entry np nn = some d → vic.wasDir = true → s.db.isDirEmpty d.inode = true) :
    Renamed cfg s p n np nn v srcIv vic.delete.toList (s.renamed cfg p n np nn v srcIv vic) := by
  have hk : ¬(p = np ∧ n = nn) := by
    rintro ⟨rfl, rfl⟩
    exact hne v he rfl
  have hpar : ∀ q ∈ [p, np], s.db.IsDirectory q := by
    simpa using ⟨hp, hnp⟩
  have hdp := Outcome.dst_ne_parent h.type_eq hpar he hv hemp
  refine
    { entry := entry_renamed
      source := fun hb => ⟨cfg.clock s.ticks, ?_⟩
      parents := fun q hq => ?_
      absent := fun hd => ?_
      replaced_dir := fun d hd hm => ?_
      replaced_many := fun d iv hd hm hdi hl => ?_
      replaced_single := fun d iv hd hm hdi hl => ?_ }
  · rcases hb with hb | hb
    · have hrec := inode_renamed (p := p) (n := n) (v := v) hv h.log v.inode
      rw [hb] at hrec
      exact hrec.trans (if_pos rfl)
    · exact (inode_renamed_ne hv hb hout).trans (if_pos rfl)
  · have hm : q ∈ [p, np] := by simpa using hq
    exact nlink_renamed_parent h he hi hv hk (hpar q hm) fun d hd => hdp d hd q hm
  · rw [hd] at hv
    cases hv
    rfl
  · rw [hd] at hv
    cases hv with
    | dir => rfl
    | keep hf => exact absurd hm (by rw [hf]; simp)
    | drop hf => exact absurd hm (by rw [hf]; simp)
  · obtain ⟨hrec, hdel⟩ := replaced_renamed (n := n) hv hd hm hdi (hne d hd).symm (hdp d hd p (by simp)).symm
      (hdp d hd np (by simp)).symm
    rw [if_pos hl] at hrec hdel
    exact ⟨⟨_, hrec⟩, (dataLocations_renamed hv _).trans (by simp [hdel]), by rw [hdel]; rfl⟩
  · obtain ⟨hrec, hdel⟩ := replaced_renamed (n := n) hv hd hm hdi (hne d hd).symm (hdp d hd p (by simp)).symm
      (hdp d hd np (by simp)).symm
    rw [if_neg (by omega)] at hrec hdel
    exact ⟨hrec, (dataLocations_renamed hv _).trans (if_pos hdel), by rw [hdel]; rfl⟩

end

/-- **Rename.**  In a sound state, with existing parents and a destination that is not the source, a
rename succeeds exactly when the source exists and can take the destination's place, and then moves
the entry, keeps the links of the parents, and takes one link, or with the last link the record and
the data location, from a replaced file.  A destination below the source is not excluded. -/
theorem rename_result (h : s.Sound cfg) (hp : s.db.IsDirectory p) (hnp : s.db.IsDirectory np)
    (hn : n.length ≤ NAME_MAX) (hnn : nn.length ≤ NAME_MAX)
    (hout : ∀ v, s.db.entry p n = some v → v.inode ≠ np)
    (hne : ∀ v d, s.db.entry p n = some v → s.db.entry np nn = some d → v.inode ≠ d.inode) :
    ((∃ purged, (s.exec cfg (.rename p n np nn)).1 = .purged (.ok purged)) ↔
      ∃ v, s.db.entry p n = some v ∧ ∀ d, s.db.entry np nn = some d →
        isDir v.mode = false ∧ isDir d.mode = false ∨
        isDir v.mode = true ∧ isDir d.mode = true ∧ s.db.isDirEmpty d.inode = true) ∧
    ∀ purged, (s.exec cfg (.rename p n np nn)).1 = .purged (.ok purged) →
      ∃ v srcIv, s.db.entry p n = some v ∧ s.db.inode v.inode = some srcIv ∧
        Renamed cfg s p n np nn v srcIv purged (s.exec cfg (.rename p n np nn)).2 := by
  rw [← h.entries.mayRename_iff]
  rcases exec_rename_cases cfg s p n np nn with ⟨e, s', hex, hno⟩ | ⟨-, -, hok, v, srcIv, vic, he, hi, hex, hv, hemp⟩ <;>
    rw [hex]
  · exact ⟨⟨fun ⟨_, h⟩ => (by cases h), fun hm => absurd ⟨hn, hnn, hm⟩ hno⟩, fun _ h => by cases h⟩
  · refine ⟨⟨fun _ => hok, fun _ => ⟨_, rfl⟩⟩, fun purged hr => ⟨v, srcIv, he, hi, ?_⟩⟩
    cases hr
    exact renamed_of_victim h he hi hv hp hnp (hout v he) (fun d hd => hne v d he hd) hemp

end

/-- Two files of the root. -/
def twoFilesMade : Server :=
  (((Server.fresh {}).exec {} (.create ROOT_INODE [97] 0o644 0 0)).2.exec {}
    (.create ROOT_INODE [98] 0o644 0 0)).2

theorem twoFilesMade_sound : twoFilesMade.Sound {} :=
  Server.sound_of_bindings rfl (by decide +kernel) (by decide +kernel) (by decide +kernel)

/-- One of the two files takes the place of the other. -/
theorem rename_result_replaced : ∃ v srcIv, twoFilesMade.db.entry ROOT_INODE [97] = some v ∧
    twoFilesMade.db.inode v.inode = some srcIv ∧
    Renamed {} twoFilesMade ROOT_INODE [97] ROOT_INODE [98] v srcIv [3]
      (twoFilesMade.exec {} (.rename ROOT_INODE [97] ROOT_INODE [98])).2 := by
  have hroot : twoFilesMade.db.IsDirectory ROOT_INODE :=
    (((Server.wf_fresh {}).exec {} _).exec {} _).db.root
  have ha : twoFilesMade.db.entry ROOT_INODE [97] = some ⟨2, S_IFREG ||| 0o644⟩ := by decide +kernel
  have hb : twoFilesMade.db.entry ROOT_INODE [98] = some ⟨3, S_IFREG ||| 0o644⟩ := by decide +kernel
  refine (rename_result twoFilesMade_sound hroot hroot (by decide) (by decide) (fun v hv => ?_)
    fun v d hv hd => ?_).2 [3] rfl
  · rw [ha] at hv
    cases hv
    decide
  · rw [ha] at hv
    rw [hb] at hd
    cases hv
    cases hd
    decide

/-! ## Source and destination the same inode -/

/-- What POSIX asks of a rename between two names of one inode `i`. -/
structure RenameNoOp (s : Server) (i p np : Inode) (r : Reply) (s' : Server) : Prop where
  reply : r = .purged (.ok [])
  entries : s'.db.dirEntries = s.db.dirEntries
  nlink : (s'.db.inode i).map (·.nlink) = (s.db.inode i).map (·.nlink)
  parents : ∀ q, q = p ∨ q = np →
    (s'.db.effective q).map (·.nlink) = (s.db.effective q).map (·.nlink)
  location : s'.db.dataLocations.get i = s.db.dataLocations.get i
  deltas : s'.db.deltas i = s.db.deltas i

/-- The renames that are one: a name given twice, of a file with further links.  An empty directory
whose parent has no link to lose would also do. -/
def Db.KeptByRename (db : Db) (p : Inode) (n : Name) (np : Inode) (nn : Name) (v : DirValue) : Prop :=
  p = np ∧ n = nn ∧ n.length ≤ NAME_MAX ∧ db.deltas v.inode = [] ∧
    ∃ iv, db.inode v.inode = some iv ∧ v.mode = iv.mode ∧
      (isDir iv.mode = false ∧ 1 < iv.nlink ∨
        isDir iv.mode = true ∧ db.isDirEmpty v.inode = true ∧
          ∀ e, db.effective p = some e → e.nlink = 0)

section

variable {cfg : Config} {s : Server} {p : Inode} {n : Name} {v : DirValue} {srcIv : InodeValue}
  {vic : Victim}

/-- A file with further links that is renamed onto itself keeps its record, up to times. -/
theorem nlink_renamed_self (hl : s.LogOk cfg)
    (hv : VictimOf s.db (isDir srcIv.mode) (cfg.clock s.ticks) (s.db.entry p n) vic)
    (hd : vic.wasDir = false ∨ p ≠ v.inode) :
    ((s.renamed cfg p n p n v srcIv vic).db.inode v.inode).map (·.nlink) = some srcIv.nlink := by
  have hrec := inode_renamed (p := p) (n := n) (v := v) hv hl v.inode
  have hsrc : vic.records v.inode { srcIv with ctime := cfg.clock s.ticks } s.db v.inode =
      some { srcIv with ctime := cfg.clock s.ticks } := if_pos rfl
  rw [hrec, hsrc, deltasOf_rename_within]
  cases cfg.build with
  | delta => rfl
  | noDelta =>
      rcases hd with hd | hd
      · rw [hd]
        by_cases e : p = v.inode <;> simp [e, touchDeltas, foldDeltas, foldDelta]
      · simp [hd]

/-- The parents of a rename onto itself. -/
theorem nlink_renamed_within (hl : s.LogOk cfg) (he : s.db.entry p n = some v)
    (hv : VictimOf s.db (isDir srcIv.mode) (cfg.clock s.ticks) (s.db.entry p n) vic) (hp : p ≠ v.inode) :
    ((s.renamed cfg p n p n v srcIv vic).db.effective p).map (·.nlink) =
      (s.db.effective p).map fun e =>
        if vic.wasDir = true then (max ((e.nlink : Int) - 1) 0).toNat % U32_SIZE else e.nlink := by
  have hq : ∀ d, s.db.entry p n = some d → p ≠ d.inode := fun d hd => by
    rw [he] at hd
    cases hd
    exact hp
  rw [effective_renamed (p := p) (n := n) (v := v) hv hl hq, hv.records_ne hp hq, deltasOf_rename_within,
    if_pos rfl]
  unfold Db.effective
  cases s.db.inode p with
  | none => rfl
  | some pv => cases vic.wasDir <;> rfl

/-- A rename that is kept passes the checks. -/
theorem Db.KeptByRename.mayRename {db : Db} {np : Inode} {nn : Name} (hk : db.KeptByRename p n np nn v)
    (he : db.entry p n = some v) : n.length ≤ NAME_MAX ∧ nn.length ≤ NAME_MAX ∧ db.MayRename p n np nn := by
  obtain ⟨rfl, rfl, hn, -, iv, hi, hm, hkind⟩ := hk
  refine ⟨hn, hn, v, iv, he, hi, fun d hd => ?_⟩
  rw [he] at hd
  cases hd
  refine ⟨congrArg isDir hm, ?_⟩
  rw [hm]
  rcases hkind with ⟨hf, -⟩ | ⟨hdir, hempty, -⟩
  · simp [hf, hi]
  · rw [if_pos hdir]
    exact hempty

/-- The entries stay exactly when the name is given twice with the mode of its record. -/
theorem dirEntries_renamed_iff {np : Inode} {nn : Name} (he : s.db.entry p n = some v) :
    (s.renamed cfg p n np nn v srcIv vic).db.dirEntries = s.db.dirEntries ↔ p = np ∧ n = nn ∧ v.mode = srcIv.mode := by
  constructor
  · intro h
    have hpn : (s.renamed cfg p n np nn v srcIv vic).db.entry p n = _ := entry_renamed p n
    unfold Db.entry at hpn he
    rw [h, he] at hpn
    by_cases hk : p = np ∧ n = nn
    · rw [if_pos hk] at hpn
      exact ⟨hk.1, hk.2, congrArg DirValue.mode (Option.some.inj hpn)⟩
    · rw [if_neg hk, if_pos ⟨rfl, rfl⟩] at hpn
      cases hpn
  · rintro ⟨rfl, rfl, hmode⟩
    refine OrdMap.ext_get fun k => (entry_renamed (ofLex k).1 (ofLex k).2).trans ?_
    by_cases e : (ofLex k).1 = p ∧ (ofLex k).2 = n
    · rw [if_pos e, ← hmode]
      obtain ⟨rfl, rfl⟩ := e
      exact he.symm
    · rw [if_neg e, if_neg e]
      rfl

section

variable {np : Inode} {nn : Name} (hl : s.LogOk cfg) (he : s.db.entry p n = some v)
  (hi : s.db.inode v.inode = some srcIv)
  (hv : VictimOf s.db (isDir srcIv.mode) (cfg.clock s.ticks) (s.db.entry np nn) vic)

include hl he hi hv

/-- What is left as POSIX asks was kept. -/
theorem keptByRename_of_noOp {d : DirValue} (hn : n.length ≤ NAME_MAX) (hd : s.db.entry np nn = some d)
    (hsame : v.inode = d.inode)
    (hemp : ∀ d, s.db.entry np nn = some d → vic.wasDir = true → s.db.isDirEmpty d.inode = true)
    (h : RenameNoOp s v.inode p np (.purged (.ok vic.delete.toList)) (s.renamed cfg p n np nn v srcIv vic)) :
    s.db.KeptByRename p n np nn v := by
  have hgone : s.db.deltas v.inode = [] := h.deltas.symm.trans (hsame ▸ deltas_renamed_dst hd)
  obtain ⟨rfl, rfl, hmode⟩ := (dirEntries_renamed_iff he).1 h.entries
  refine ⟨rfl, rfl, hn, hgone, srcIv, hi, hmode, ?_⟩
  have hv' := hv
  rw [he] at hv'
  cases hv' with
  | dir hvd hsd =>
      have hempty := hemp v he rfl
      refine Or.inr ⟨hsd, hempty, fun e heff => ?_⟩
      have hpar := h.parents p (Or.inl rfl)
      rw [nlink_renamed_within hl he hv (Outcome.ne_of_empty he hempty), heff] at hpar
      have hnl : (max ((e.nlink : Int) - 1) 0).toNat % U32_SIZE = e.nlink := by simpa using hpar
      have hle := Nat.mod_le (max ((e.nlink : Int) - 1) 0).toNat U32_SIZE
      omega
  | keep _ hsd hi' hlt =>
      rw [hi] at hi'
      cases hi'
      exact Or.inl ⟨hsd, hlt⟩
  | drop => cases h.reply

/-- What is kept is left as POSIX asks. -/
theorem noOp_of_keptByRename (hk : s.db.KeptByRename p n np nn v) :
    RenameNoOp s v.inode p np (.purged (.ok vic.delete.toList)) (s.renamed cfg p n np nn v srcIv vic) := by
  obtain ⟨rfl, rfl, -, hnil, iv, hi', hmode, hkind⟩ := hk
  rw [hi] at hi'
  cases hi'
  have hgone : (s.renamed cfg p n p n v srcIv vic).db.deltas v.inode = [] := deltas_renamed_dst he
  have hwas : vic.wasDir = isDir srcIv.mode := (he ▸ hv).isDir_eq.2
  have hdel : vic.delete = none := by
    refine Option.eq_none_iff_forall_ne_some.2 fun i hdel => ?_
    obtain ⟨d, div, hd, rfl, -, hsd, hdi, hle⟩ := hv.delete_eq hdel
    rw [he] at hd
    cases hd
    rcases hkind with ⟨-, hlt⟩ | ⟨hdir, -⟩
    · rw [hi] at hdi
      cases hdi
      omega
    · rw [hsd] at hdir
      cases hdir
  have hself := nlink_renamed_self (n := n) (v := v) hl hv (hkind.imp (hwas.trans ·.1) fun h => Outcome.ne_of_empty he h.2.1)
  refine
    { reply := by rw [hdel]; rfl
      entries := (dirEntries_renamed_iff he).2 ⟨rfl, rfl, hmode⟩
      nlink := by rw [hself, hi]; rfl
      parents := fun q hq => ?_
      location := (dataLocations_renamed hv _).trans (by simp [hdel])
      deltas := hgone.trans hnil.symm }
  obtain rfl : q = p := hq.elim id id
  by_cases hqv : q = v.inode
  · -- a directory that holds its own name has no deltas
    subst hqv
    unfold Db.effective
    rw [hgone, hnil, hi]
    simpa [foldDeltas, Function.comp_def] using hself
  · rw [nlink_renamed_within hl he hv hqv]
    rcases hkind with ⟨hf, -⟩ | ⟨-, -, hzero⟩
    · simp [hwas, hf]
    · cases heff : s.db.effective q with
      | none => rfl
      | some e => simp [hzero e heff]

end

/-- **A rename between two names of one inode** leaves everything as POSIX asks exactly when it is
`Db.KeptByRename`. -/
theorem rename_same_inode {np : Inode} {nn : Name} {d : DirValue} (hl : s.LogOk cfg)
    (he : s.db.entry p n = some v) (hd : s.db.entry np nn = some d) (hsame : v.inode = d.inode) :
    RenameNoOp s v.inode p np (s.exec cfg (.rename p n np nn)).1 (s.exec cfg (.rename p n np nn)).2 ↔
      s.db.KeptByRename p n np nn v := by
  rcases exec_rename_cases cfg s p n np nn with
    ⟨e, s', hex, hno⟩ | ⟨hn, -, -, w, srcIv, vic, hw, hi, hex, hv, hemp⟩ <;> rw [hex]
  · exact ⟨fun h => absurd h.reply (by simp), fun hk => absurd (hk.mayRename he) hno⟩
  · rw [he] at hw
    cases hw
    exact ⟨keptByRename_of_noOp hl he hi hv hn hd hsame hemp, noOp_of_keptByRename hl he hi hv⟩

end

/-- A file with two names, one of them given twice. -/
theorem rename_same_inode_linked :
    let s := (twoFilesMade.exec {} (.link ROOT_INODE [99] 2)).2
    RenameNoOp s 2 ROOT_INODE ROOT_INODE (s.exec {} (.rename ROOT_INODE [97] ROOT_INODE [97])).1
      (s.exec {} (.rename ROOT_INODE [97] ROOT_INODE [97])).2 := by
  intro s
  have hsound : s.Sound {} :=
    Server.sound_of_bindings rfl (by decide +kernel) (by decide +kernel) (by decide +kernel)
  have ha : s.db.entry ROOT_INODE [97] = some ⟨2, S_IFREG ||| 0o644⟩ := by decide +kernel
  have hi : s.db.inode 2 = some
      { version := 1, inode := 2, size := 0, mode := S_IFREG ||| 0o644, nlink := 2, uid := 0,
        gid := 0, atime := 0, mtime := 0, ctime := 0 } := by decide +kernel
  exact (rename_same_inode hsound.log ha ha rfl).2
    ⟨rfl, rfl, by decide, by decide +kernel, _, hi, rfl, Or.inl ⟨by decide, by decide⟩⟩

/-- A file with one link, renamed onto itself: it is reported as purged, and its data location is
gone although the file is still there. -/
theorem rename_onto_itself :
    let s' := (twoFilesMade.exec {} (.rename ROOT_INODE [97] ROOT_INODE [97])).2
    twoFilesMade.db.LinksCounted ∧ twoFilesMade.db.DirLinksCounted ∧
      twoFilesMade.db.entry ROOT_INODE [97] = some ⟨2, S_IFREG ||| 0o644⟩ ∧
      (twoFilesMade.exec {} (.rename ROOT_INODE [97] ROOT_INODE [97])).1 = .purged (.ok [2]) ∧
      s'.db.entry ROOT_INODE [97] = some ⟨2, S_IFREG ||| 0o644⟩ ∧ (s'.db.inode 2).isSome = true ∧
      (twoFilesMade.db.dataLocations.get 2).isSome = true ∧ s'.db.dataLocations.get 2 = none ∧
      ¬RenameNoOp twoFilesMade 2 ROOT_INODE ROOT_INODE
        (twoFilesMade.exec {} (.rename ROOT_INODE [97] ROOT_INODE [97])).1 s' := by
  intro s'
  have hr : (twoFilesMade.exec {} (.rename ROOT_INODE [97] ROOT_INODE [97])).1 = .purged (.ok [2]) := rfl
  exact ⟨twoFilesMade_sound.links, twoFilesMade_sound.dirLinks, by decide +kernel, hr, by decide +kernel,
    by decide +kernel, by decide +kernel, by decide +kernel, fun h => nomatch hr.symm.trans h.reply⟩

end RucksFs
