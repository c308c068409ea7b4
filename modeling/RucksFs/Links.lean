import RucksFs.Server.Isolation

/-!
# Link counts of files under any interleaving

Any number of calls run at once, each effect of each of them at any time its row locks allow.  In every
committed state the link count of a file or symbolic link is the number of its names.

* `Db.LinksCounted` — the invariant of the database; `Writes.linksCounted` its commit lemma.
* `file_links_counted` — the run theorem, in both builds and with compaction running.
-/

set_option autoImplicit false

namespace RucksFs

open Server Prog

/-- Every file and symbolic link has as many links as names. -/
def Db.LinksCounted (db : Db) : Prop :=
  ∀ i iv, db.inode i = some iv → isDir iv.mode = false → iv.nlink = db.names i

/-- Number of directory entries. -/
def Db.entries (db : Db) : Nat := db.dirEntries.toList.length

theorem Db.names_le_entries (db : Db) (i : Inode) : db.names i ≤ db.entries :=
  List.countP_le_length

theorem Server.linksCounted_fresh (cfg : Config) : (Server.fresh cfg).db.LinksCounted := by
  intro i iv hi hd
  rw [Server.inode_fresh] at hi
  split at hi
  · cases hi
    exact absurd hd (by show isDir (S_IFDIR ||| 0o777) ≠ false; decide)
  · cases hi

/-- A change of one record. -/
theorem Db.LinksCounted.oneRecord {db D : Db} {t : Inode} {o : Option InodeValue} (hc : db.LinksCounted)
    (h : db.OneRecord D t o) (ht : ∀ iv, o = some iv → isDir iv.mode = false → iv.nlink = D.names t) : D.LinksCounted :=
  fun j => h.forall (P := fun _ o k => ∀ iv, o = some iv → isDir iv.mode = false → iv.nlink = k) ht j fun _ => hc j

namespace Writes

variable {db : Db} {l : Local} {c : Call} {main : List BatchOp} {dss : List (Inode × List DeltaOp)}
  {next : Nat}

/-- A rename between different inodes takes the destination's name away and its link with it. -/
theorem linksCounted_rename {p : Inode} {n : Name} {np : Inode} {nn : Name} {v : DirValue}
    {srcIv : InodeValue} {vic : Victim} {ts : Nat} (hc : db.LinksCounted) (hw : db.Wf next)
    (he : db.entry p n = some v) (hi : db.inode v.inode = some srcIv)
    (hv : VictimOf db (isDir srcIv.mode) ts (db.entry np nn) vic)
    (hne : ∀ d, db.entry np nn = some d → d.inode ≠ v.inode) :
    (db.applyBatch (renameOps p n np nn v.inode srcIv (db.entry np nn) vic ts)).LinksCounted := by
  have hk : ¬(p = np ∧ n = nn) := by
    rintro ⟨rfl, rfl⟩
    exact hne v he rfl
  intro j jv hj hd
  have hnames : (db.applyBatch (renameOps p n np nn v.inode srcIv (db.entry np nn) vic ts)).names j +
      Db.nameHit j (db.entry np nn) = db.names j := names_renameOps he hk j
  rw [inode_renameOps hv] at hj
  unfold Victim.records at hj
  split at hj
  · -- the source keeps its count and its number of names
    rename_i e
    subst e
    cases hj
    have hhit : Db.nameHit v.inode (db.entry np nn) = 0 := by
      cases hdst : db.entry np nn with
      | none => rfl
      | some d => exact if_neg (hne d hdst)
    have hold : srcIv.nlink = db.names v.inode := hc _ _ hi hd
    show srcIv.nlink = _
    omega
  · rename_i hsrc
    split at hj
    · cases hj
    · rename_i hdel
      split at hj
      · rename_i kp hkeep
        obtain ⟨d, div, hdst, hdd, -, hdi, hlt, rfl⟩ := hv.keep_eq hkeep
        split at hj
        · -- the destination keeps its other names
          rename_i e
          have e : j = d.inode := e
          subst e
          cases hj
          have hhit : Db.nameHit d.inode (db.entry np nn) = 1 := by
            rw [hdst]
            exact if_pos rfl
          have hold : div.nlink = db.names d.inode := hc _ _ hdi hd
          show div.nlink - 1 = (db.applyBatch _).names d.inode
          omega
        · rename_i hne'
          have hhit : Db.nameHit j (db.entry np nn) = 0 := by
            rw [hdst]
            exact if_neg fun e => hne' e.symm
          rw [hc _ _ hj hd]
          omega
      · rename_i hkeep
        have hhit : Db.nameHit j (db.entry np nn) = 0 := by
          cases hwas : vic.wasDir with
          | false => exact hv.nameHit_eq hwas hdel fun k hk' => by rw [hkeep] at hk'; cases hk'
          | true =>
              obtain ⟨d, hdst, hdd, -⟩ := hv.wasDir_eq hwas
              rw [hdst]
              refine if_neg fun e => ?_
              subst e
              rw [hw.isDir_eq hdst hj, hdd] at hd
              cases hd
        rw [hc _ _ hj hd]
        omega

theorem linksCounted_link {p : Inode} {n : Name} {t : Inode} {iv : InodeValue} {ts : Nat} (hc : db.LinksCounted)
    (hi : db.inode t = some iv) (he : db.entry p n = none)
    (hsize : (db.applyBatch [.putInode t { iv with nlink := (iv.nlink + 1) % U32_SIZE, ctime := ts },
      .putDirEntry p n ⟨t, iv.mode⟩]).entries < U32_SIZE) :
    (db.applyBatch [.putInode t { iv with nlink := (iv.nlink + 1) % U32_SIZE, ctime := ts },
      .putDirEntry p n ⟨t, iv.mode⟩]).LinksCounted := by
  refine hc.oneRecord (Change.oneRecord_link he) fun iv' h hd => ?_
  cases h
  have hlt := (Db.names_le_entries _ t).trans_lt hsize
  have hold : iv.nlink = db.names t := hc _ _ hi hd
  rw [Change.names_link he, if_pos rfl] at hlt ⊢
  show (iv.nlink + 1) % U32_SIZE = _
  rw [hold, Nat.mod_eq_of_lt hlt]

/-- A commit, without the parents' part, keeps the counts. -/
theorem linksCounted (h : Writes db l c main dss) (hc : db.LinksCounted) (hw : db.Wf next)
    (hv : l.tx.Valid db next) (hdistinct : c.DistinctRead l.tx)
    (hscan : ∀ i ks, l.tx.scanned = some (i, ks) → ks ≠ [] → ∀ iv, db.inode i = some iv →
      isDir iv.mode = true)
    (hsize : (db.applyBatch main).entries < U32_SIZE) : (db.applyBatch main).LinksCounted := by
  cases h with
  | @create c p n i iv extra ds ts hcall hnl he hi hx hkind hr =>
      refine hc.oneRecord (Change.oneRecord_create he fun op ho => (hx op ho).side) fun iv' h hd => ?_
      cases h
      have hfree : db.names i = 0 := by
        refine Nat.eq_zero_of_not_pos fun hpos => ?_
        obtain ⟨q, m, w, hw', e⟩ := Db.names_pos.1 hpos
        exact (hv.fresh hi).2.1 q m w hw' e
      rw [Change.names_create he (fun op ho => (hx op ho).side), hfree, if_pos rfl]
      rcases hkind with ⟨-, hl, -⟩ | ⟨hdir, -, -⟩
      · exact hl
      · rw [hd] at hdir
        cases hdir
  | link hi hdt he hp hlock hr => exact linksCounted_link hc hi he hsize
  | @unlinkKeep p n v iv ts ts' he hdv hi hr =>
      refine hc.oneRecord (Change.oneRecord_unlinkKeep he) fun iv' h hd => ?_
      cases h
      have hold : iv.nlink = db.names v.inode := hc _ _ hi hd
      show iv.nlink - 1 = _
      rw [hold]
      exact Nat.sub_eq_of_eq_add (Eq.symm (Db.names_of_unbind_self rfl he))
  | unlinkDrop he hdv hi hz hr => exact hc.oneRecord (Change.oneRecord_unlinkDrop he) fun _ h => by cases h
  | rmdir he hdv hi hemp hne hr => exact hc.oneRecord (Change.oneRecord_rmdir he) fun _ h => by cases h
  | @rename p n np nn v srcIv vic ts he hi hvic hemp hr =>
      refine linksCounted_rename hc hw he hi hvic fun d hd => ?_
      refine hdistinct v d ?_ ?_
      · rw [hr]
        exact List.mem_cons_of_mem _ List.mem_cons_self
      · rw [hr, hd]
        exact List.mem_cons_self
  | @rewrite c i iv iv' hcall hi ht hl hr =>
      refine hc.oneRecord Change.oneRecord_rewrite fun jv h hd => ?_
      cases h
      rw [hl]
      exact hc _ _ hi (by rw [← isDir_of_fileType_eq ht]; exact hd)
  | drop hf hr => exact hc.oneRecord Change.oneRecord_drop fun _ h => by cases h
  | @compact i base ks hi hs hk hr =>
      have hfold : Folds [i] db (db.applyBatch (.putInode i (foldDeltas base (ks.map (·.2))) ::
          ks.map fun k => .deleteDelta i k.1)) := folds_compaction hi (foldDeltas_mode _ _)
      refine hc.oneRecord ⟨inode_compaction _ _ _ _, fun j _ => Db.names_eq_of_dirEntries hfold.dirEntries j⟩ fun jv h hd => ?_
      cases h
      rw [foldDeltas_mode, hscan i ks hs hk base hi] at hd
      cases hd

end Writes

/-- The conditions on a run: renames are between different inodes and there are fewer than 2³²
entries. -/
def LinkHyp (c : FsConf) : Prop :=
  (∀ th ∈ c.threads, th.tag.DistinctRead th.loc.tx) ∧ c.shared.db.entries < U32_SIZE

instance : DecidablePred LinkHyp := fun _ => instDecidableAnd

/-- **In every state of every interleaving, the link count of every file and symbolic link is the number
of its names.** -/
theorem file_links_counted {cfg : Config} {s₀ : Server} {c : FsConf} (h₀ : s₀.Starts)
    (hc : s₀.db.LinksCounted) (h : Reach (fsSystem cfg fun s call => call.ParentsExist s.db) LinkHyp ⟨s₀, []⟩ c) :
    ∀ i iv, c.shared.db.inode i = some iv → isDir iv.mode = false → iv.nlink = c.shared.db.names i := by
  have hinv := isolated_invariant True (fun c => Roles c ∧ c.shared.db.LinksCounted)
    (fun _ c hH => hH.1) rfl h₀.wf (fun _ => ⟨.of_server h₀, hc⟩)
    (fun _ hi hX hadm => ⟨hX.1.start hi hadm, hX.2⟩) ?_ h
  · exact hinv.1.1.2
  · intro c n call e k l l' r s' hH hi hX hn hpre ha hH'
    have hroles := hX.1.act hi hn hpre ha
    refine ⟨hroles, ?_⟩
    rcases ha.db_cases with ⟨rfl, rfl, rfl⟩ | ⟨hin, hen⟩
    · have hv := hi.valid n _ hn
      have hcommit : Committing cfg call l c.shared.db := hpre _ _ hv hi.wf
      obtain ⟨main, dss, rest, hb, hw, hp⟩ := hcommit
      have hfold := hp.folds
      have hsize : (c.shared.db.applyBatch main).entries < U32_SIZE := by
        have hlt : (c.shared.db.applyBatch l.tx.batch).entries < U32_SIZE := hH'.2
        unfold Db.entries at hlt ⊢
        rw [hb, Db.applyBatch_append, hfold.dirEntries] at hlt
        exact hlt
      have hmain := hw.linksCounted hX.2 hi.wf hv (hH.1 _ (List.mem_of_getElem? hn))
        (fun i ks hs hne => (hX.1.scanned n _ hn i ks hs hne).2) hsize
      intro i iv hiv hd
      have hiv : (c.shared.db.applyBatch l.tx.batch).inode i = some iv := hiv
      show iv.nlink = (c.shared.db.applyBatch l.tx.batch).names i
      by_cases hps : i ∈ dss.map Prod.fst
      · -- the record of a parent is a directory's
        obtain ⟨d, hdm, rfl⟩ := List.mem_map.1 hps
        have hlt : n < c.threads.length := (List.getElem?_eq_some_iff.1 hn).1
        have hdir := (hroles.parents.of_mem (List.mem_set hlt _) d.1 (hw.parents d hdm)).2 iv hiv
        rw [hd] at hdir
        cases hdir
      · rw [hb, Db.applyBatch_append] at hiv ⊢
        rw [hfold.other hps] at hiv
        rw [Db.names_eq_of_dirEntries hfold.dirEntries]
        exact hmain i iv hiv hd
    · intro i iv hiv hd
      have hiv : c.shared.db.inode i = some iv := by
        unfold Db.inode at hiv ⊢
        rw [← hin]
        exact hiv
      rw [hX.2 i iv hiv hd]
      exact (Db.names_eq_of_dirEntries hen i).symm

/-- A file is created as `1/a`; then `unlink` has locked that entry when `link` gives the file the name
`1/b`, and goes on when `link` is done. -/
def linkedWhileUnlinking : List (Choice Call) :=
  .start (.create ROOT_INODE [97] 0o644 0 0) :: List.replicate 17 (.run 0) ++
    .start (.link ROOT_INODE [98] 2) :: .start (.unlink ROOT_INODE [97]) ::
      List.replicate 2 (.run 2) ++ List.replicate 17 (.run 1) ++ List.replicate 14 (.run 2)

theorem file_links_counted_linked : ∃ c iv,
    Reach (fsSystem {} fun s call => call.ParentsExist s.db) LinkHyp ⟨Server.fresh {}, []⟩ c ∧
    (∀ th ∈ c.threads, th.result.isSome = true) ∧ c.threads.length = 3 ∧
    c.shared.db.inode 2 = some iv ∧ iv.nlink = 1 ∧ iv.nlink = c.shared.db.names 2 := by
  have hrun : ((fsScheduler {} (fun s call => call.ParentsExist s.db) LinkHyp).run linkedWhileUnlinking
      ⟨Server.fresh {}, []⟩).map (fun c => (c.threads.map fun th => th.result.isSome,
        (c.shared.db.inode 2).map fun iv => (iv.nlink, isDir iv.mode))) =
      some ([true, true, true], some (1, false)) := by decide +kernel
  obtain ⟨c, hc, hv⟩ := Option.map_eq_some_iff.1 hrun
  have hreach := fsScheduler_reach {} _ LinkHyp linkedWhileUnlinking (by decide) hc
  obtain ⟨hres, hrec⟩ := Prod.mk.inj hv
  obtain ⟨iv, hiv, hval⟩ := Option.map_eq_some_iff.1 hrec
  obtain ⟨hnlink, hdir⟩ := Prod.mk.inj hval
  refine ⟨c, iv, hreach, fun th hth => ?_, ?_, hiv, hnlink,
    file_links_counted (Server.starts_fresh {}) (Server.linksCounted_fresh {}) hreach 2 iv hiv hdir⟩
  · have hm := List.mem_map_of_mem (f := fun th : FsThread => th.result.isSome) hth
    rw [hres] at hm
    simpa using hm
  · have hlen := congrArg List.length hres
    simpa using hlen

end RucksFs
