import RucksFs.Entries

/-!
# Records without a name

A stored record other than the root's should be named by an entry, or wait for the last
`release` of an open file.

* `rename_over_directory_leaks` — `rename` onto an empty directory drops the entry of the
  replaced directory and leaves its record behind.
* `no_orphans` — in every run without such a rename, without a rename between two names of one
  inode, and without a wrap of the 32-bit handle count, no record is orphaned.

The invariant is the converse of the one in `RucksFs.Entries`: the link count of a file never
exceeds the number of its names (`KeptAt`).
-/

set_option autoImplicit false

namespace RucksFs

open Server

/-- Every record but the root's has a name, or belongs to an open file that waits for deletion. -/
def Server.NoOrphans (s : Server) : Prop :=
  ∀ i iv, s.db.inode i = some iv → i ≠ ROOT_INODE →
    s.db.Named i ∨ (s.pendingDeletes i = true ∧ 0 < s.handles i)

/-- The condition on the calls that can break it. -/
def Call.KeepsRecords (s : Server) : Call → Prop
  | .rename p n np nn => ∀ v d, s.db.entry p n = some v → s.db.entry np nn = some d →
      (p = np ∧ n = nn) ∨ (d.inode ≠ v.inode ∧
        ¬(isDir v.mode = true ∧ isDir d.mode = true ∧ s.db.isDirEmpty d.inode = true))
  | .openFile i _ => s.handles i + 1 < U32_SIZE
  | _ => True

/-! ## One inode -/

/-- An inode with record `r` and `k` names; `waiting` says that an open file's deletion is
deferred. -/
def KeptAt (r : Option InodeValue) (k : Nat) (waiting : Prop) : Prop :=
  ∀ iv, r = some iv → (isDir iv.mode = true → 0 < k) ∧
    (isDir iv.mode = false → iv.nlink ≤ k ∧ (k = 0 → waiting))

theorem KeptAt.of_none {k : Nat} {w : Prop} : KeptAt none k w := by
  intro iv e
  cases e

theorem KeptAt.of_file {iv : InodeValue} {k : Nat} {w : Prop} (hd : isDir iv.mode = false)
    (hl : iv.nlink ≤ k) (hw : k = 0 → w) : KeptAt (some iv) k w := fun _ e => by
  cases e
  refine ⟨fun h => ?_, fun _ => ⟨hl, hw⟩⟩
  rw [hd] at h
  cases h

theorem KeptAt.of_pos {iv : InodeValue} {k : Nat} {w : Prop} (hl : isDir iv.mode = false → iv.nlink ≤ k)
    (hk : 0 < k) : KeptAt (some iv) k w := fun _ e => by
  cases e
  exact ⟨fun _ => hk, fun hd => ⟨hl hd, fun h₀ => absurd h₀ (Nat.ne_of_gt hk)⟩⟩

/-- Another record of the same type and count. -/
theorem KeptAt.rewrite {iv iv' : InodeValue} {k : Nat} {w : Prop} (h : KeptAt (some iv) k w)
    (hm : isDir iv'.mode = isDir iv.mode) (hl : iv'.nlink = iv.nlink) : KeptAt (some iv') k w :=
  fun _ e => by
    cases e
    rw [hm, hl]
    exact h iv rfl

theorem KeptAt.mono {r : Option InodeValue} {k : Nat} {w w' : Prop} (h : KeptAt r k w) (hw : w → w') :
    KeptAt r k w' := fun iv e => by
  obtain ⟨hdir, hfile⟩ := h iv e
  exact ⟨hdir, fun hd => ⟨(hfile hd).1, fun hk => hw ((hfile hd).2 hk)⟩⟩

/-! ## One call -/

/-- The inode waits for its last `release`. -/
def Server.Waiting (s : Server) (i : Inode) : Prop := s.pendingDeletes i = true ∧ 0 < s.handles i

structure Kept (s : Server) : Prop where
  wf : s.Wf
  at_inode : ∀ {i}, i ≠ ROOT_INODE → KeptAt (s.db.inode i) (s.db.names i) (s.Waiting i)

namespace Kept

variable {s s' : Server} {c : Call} {r : Reply} {i j : Inode} {iv : InodeValue} {p : Inode} {n : Name}

/-- A change of one record. -/
theorem oneRecord (h : Kept s) {D : Db} {t : Inode} {o : Option InodeValue} {w : Inode → Prop}
    (hD : s.db.OneRecord D t o) (ht : t ≠ ROOT_INODE → KeptAt o (D.names t) (w t))
    (hw : j ≠ t → s.Waiting j → w j) (hj : j ≠ ROOT_INODE) : KeptAt (D.inode j) (D.names j) (w j) :=
  hD.forall (P := fun j o k => j ≠ ROOT_INODE → KeptAt o k (w j)) ht j (fun e hj => (h.at_inode hj).mono (hw e)) hj

theorem rewrite_at (h : Kept s) {iv' : InodeValue} (hi : s.db.inode i = some iv)
    (ht : fileType iv'.mode = fileType iv.mode) (hl : iv'.nlink = iv.nlink) (hj : j ≠ ROOT_INODE) :
    KeptAt ((s.db.applyBatch [.putInode i iv']).inode j)
      ((s.db.applyBatch [.putInode i iv']).names j) (s.Waiting j) := by
  refine h.oneRecord Change.oneRecord_rewrite (fun hi' => ?_) (fun _ => id) hj
  have hold := h.at_inode hi'
  rw [hi] at hold
  exact hold.rewrite (isDir_of_fileType_eq ht) hl

theorem unlink_at (h : Kept s) {v : DirValue} (ts : Nat) {w : Inode → Prop} (he : s.db.entry p n = some v)
    (hd : isDir v.mode = false) (hi : s.db.inode v.inode = some iv) (hw : ∀ j, s.Waiting j → w j)
    (hlast : iv.nlink - 1 = 0 → w v.inode) (hj : j ≠ ROOT_INODE) :
    let iv' := { iv with nlink := iv.nlink - 1, ctime := ts }
    KeptAt ((s.db.applyBatch [.deleteDirEntry p n, .putInode v.inode iv']).inode j)
      ((s.db.applyBatch [.deleteDirEntry p n, .putInode v.inode iv']).names j) (w j) := by
  intro iv'
  refine h.oneRecord (Change.oneRecord_unlinkKeep he) (fun hv => ?_) (fun _ => hw j) hj
  have hfile := isDir_of_fileType_eq (h.wf.db.type_eq he hi)
  rw [hd] at hfile
  have hle := ((h.at_inode hv iv hi).2 hfile.symm).1
  have hn : (s.db.applyBatch [.deleteDirEntry p n, .putInode v.inode iv']).names v.inode + 1 = s.db.names v.inode :=
    Db.names_of_unbind_self rfl he
  exact .of_file hfile.symm (show iv.nlink - 1 ≤ _ by omega) fun hz => hlast (by omega)

theorem made_at (h : Kept s) {extra : List BatchOp} (hfree : s.db.entry p n = none) (hx : ∀ op ∈ extra, op.IsSide)
    (hkind : isDir iv.mode = false ∧ iv.nlink = 1 ∨ isDir iv.mode = true ∧ iv.nlink = 2) (hj : j ≠ ROOT_INODE) :
    let D := s.db.applyBatch (.putInode s.next iv :: .putDirEntry p n ⟨s.next, iv.mode⟩ :: extra)
    KeptAt (D.inode j) (D.names j) (j ≠ s.next ∧ s.Waiting j) := by
  intro D
  refine h.oneRecord (w := fun j => j ≠ s.next ∧ s.Waiting j) (Change.oneRecord_create hfree hx) (fun _ => ?_) And.intro hj
  rw [Change.names_create hfree hx, if_pos rfl]
  refine .of_pos (fun hd => ?_) (Nat.succ_pos _)
  rcases hkind with ⟨-, hl⟩ | ⟨hd', -⟩
  · rw [hl]
    exact Nat.le_add_left _ _
  · rw [hd] at hd'
    cases hd'

theorem rename_at {np : Inode} {nn : Name} {v : DirValue} {srcIv : InodeValue} {vic : Victim} {ts : Nat} (h : Kept s)
    (he : s.db.entry p n = some v) (hi : s.db.inode v.inode = some srcIv)
    (hv : VictimOf s.db (isDir srcIv.mode) ts (s.db.entry np nn) vic)
    (hemp : ∀ d, s.db.entry np nn = some d → vic.wasDir = true → s.db.isDirEmpty d.inode = true)
    (hk : Call.KeepsRecords s (.rename p n np nn)) (hj : j ≠ ROOT_INODE) :
    let D := s.db.applyBatch (renameOps p n np nn v.inode srcIv (s.db.entry np nn) vic ts)
    KeptAt (D.inode j) (D.names j) (s.Waiting j) := by
  intro D
  have hold := h.at_inode hj
  by_cases hkey : p = np ∧ n = nn
  · -- renamed onto itself: the record is rewritten, the names stay
    obtain ⟨rfl, rfl⟩ := hkey
    have hn : D.names j = s.db.names j := names_renameOps_self he j
    rw [hn, inode_renameOps hv]
    unfold Victim.records
    split
    · rename_i e
      rw [e, hi] at hold
      rw [e]
      exact hold.rewrite rfl rfl
    · rename_i hne
      split
      · exact .of_none
      · split
        · rename_i k hk
          obtain ⟨d, div, hdst, -, -, -, -, rfl⟩ := hv.keep_eq hk
          rw [he] at hdst
          cases hdst
          rw [if_neg hne]
          exact hold
        · exact hold
  · have hn : D.names j + Db.nameHit j (s.db.entry np nn) = s.db.names j := names_renameOps he hkey j
    have hsafe : ∀ d, s.db.entry np nn = some d → d.inode ≠ v.inode ∧
        ¬(isDir v.mode = true ∧ isDir d.mode = true ∧ s.db.isDirEmpty d.inode = true) :=
      fun d hd => (hk v d he hd).resolve_left hkey
    have hnd : vic.wasDir = false := by
      cases hw : vic.wasDir with
      | false => rfl
      | true =>
          obtain ⟨d, hd, hdd, hsd⟩ := hv.wasDir_eq hw
          have hvd := isDir_of_fileType_eq (h.wf.db.type_eq he hi)
          exact absurd ⟨hvd.trans hsd, hdd, hemp d hd hw⟩ (hsafe d hd).2
    rw [inode_renameOps hv]
    unfold Victim.records
    split
    · rename_i e
      have hhit : Db.nameHit j (s.db.entry np nn) = 0 := by
        cases hd : s.db.entry np nn with
        | none => rfl
        | some d =>
            rw [Db.nameHit_some, if_neg]
            exact fun e' => (hsafe d hd).1 (e'.trans e)
      rw [hhit, Nat.add_zero] at hn
      rw [e, hi] at hold
      rw [hn, e]
      exact hold.rewrite rfl rfl
    · rename_i hne
      split
      · exact .of_none
      · rename_i hdel
        split
        · rename_i k hkeep
          split
          · rename_i e
            obtain ⟨d, div, hdst, hdd, -, hdi, hdl, rfl⟩ := hv.keep_eq hkeep
            have hfile : isDir div.mode = false := by
              rw [← isDir_of_fileType_eq (h.wf.db.type_eq hdst hdi), hdd]
            have hle := (hold div (e ▸ hdi)).2 hfile |>.1
            rw [hdst, Db.nameHit_some, if_pos e.symm] at hn
            refine .of_pos (fun _ => show div.nlink - 1 ≤ _ by omega) (by omega)
          · rename_i e
            rw [hv.nameHit_eq hnd hdel (fun k' hk' => by rw [hkeep] at hk'; cases hk'; exact Ne.symm e),
              Nat.add_zero] at hn
            rw [hn]
            exact hold
        · rename_i hkeep
          rw [hv.nameHit_eq hnd hdel (fun k' hk' => by rw [hkeep] at hk'; cases hk'),
            Nat.add_zero] at hn
          rw [hn]
          exact hold

/-- What an effect leaves of every inode. -/
theorem effect_at (h : Kept s) (he : Effect s c r s') (hk : c.KeepsRecords s) (hj : j ≠ ROOT_INODE) :
    KeptAt (s'.db.inode j) (s'.db.names j) (s'.Waiting j) := by
  have hold := h.at_inode hj
  have hopen : ∀ {i : Inode} {s₁ : Server}, s.handles i + 1 < U32_SIZE → s₁.openHandles = s.openHandles →
      s₁.pendingDeletes = s.pendingDeletes → s.Waiting j → (s₁.handleIncr i).Waiting j := by
    intro i s₁ hlt ho hp hw
    refine ⟨show s₁.pendingDeletes j = true by rw [hp]; exact hw.1, ?_⟩
    have hsame : ∀ k, s₁.handles k = s.handles k := fun k => by unfold Server.handles; rw [ho]
    rw [s₁.handles_handleIncr, hsame, hsame]
    split
    · rw [Nat.mod_eq_of_lt hlt]
      exact Nat.succ_pos _
    · exact hw.2
  cases he with
  | quiet hq => exact hold
  | opened => exact hold.mono (hopen hk rfl rfl)
  | @made c p n iv extra hc hfree hnum hx =>
      exact (h.made_at hfree (fun op ho => (hx op ho).side) (Effect.isDir_of_makes hc) hj).mono And.right
  | @madeOpen p n mode uid gid flags iv extra rep hl ht hfree hx hr hh =>
      refine (h.made_at hfree (fun op ho => (hx op ho).side) (Or.inl ⟨by rw [isDir_eq_fileType, ht]; decide, hl⟩) hj).mono fun hw => ?_
      refine ⟨hw.2.1, ?_⟩
      rw [Server.handles_handleIncr, if_neg hw.1]
      exact hw.2.2
  | @link p n t iv ts a hi hd hfree hp =>
      refine h.oneRecord (Change.oneRecord_link hfree) (fun ht => ?_) (fun _ => id) hj
      show KeptAt _ ((s.db.applyBatch _).names t) _
      rw [Change.names_link hfree, if_pos rfl]
      refine .of_pos (fun _ => ?_) (Nat.succ_pos _)
      have hle := ((h.at_inode ht iv hi).2 hd).1
      exact Nat.le_trans (Nat.mod_le _ _) (Nat.succ_le_succ hle)
  | @unlinkKeep p n v iv ts hent hd hi hl =>
      exact h.unlink_at ts hent hd hi (fun _ hw => hw) (fun h₀ => absurd h₀ hl) hj
  | @unlinkDefer p n v iv ts hent hd hi hl hh =>
      refine h.unlink_at ts hent hd hi (fun i hw => ?_) (fun _ => ?_) hj
      · refine ⟨?_, hw.2⟩
        show Function.update s.pendingDeletes v.inode true i = true
        by_cases e : i = v.inode
        · simp [e]
        · simpa [e] using hw.1
      · exact ⟨Function.update_self .., Nat.pos_of_ne_zero hh⟩
  | @unlinkDrop p n v iv hent hd hi hl hh =>
      exact h.oneRecord (Change.oneRecord_unlinkDrop hent) (fun _ => .of_none) (fun _ => id) hj
  | @rmdir p n v iv hent hd hi hemp =>
      exact h.oneRecord (Change.oneRecord_rmdir hent) (fun _ => .of_none) (fun _ => id) hj
  | rename hent hi hv hemp => exact h.rename_at hent hi hv hemp hk hj
  | @rewrite c i iv iv' r hc hi ht hl hr => exact h.rewrite_at hi ht hl hj
  | @openedTrunc i flags r iv iv' hi ht hl =>
      exact (h.rewrite_at hi (by rw [ht]) hl hj).mono (hopen hk rfl rfl)
  | @released i hp =>
      rw [s.checkAndClear_db]
      refine hold.mono fun hw => ?_
      obtain ⟨hpend, hone⟩ := s.checkAndClear_false hp
      refine ⟨by rw [hpend]; exact hw.1, ?_⟩
      rw [s.checkAndClear_handles]
      split
      · rename_i e
        subst e
        have hpos := hw.2
        have hne := hone hw.1
        omega
      · exact hw.2
  | @releasedDrop i hp =>
      show KeptAt (((s.checkAndClearDeferredDelete i).2.db.applyBatch _).inode j)
        (((s.checkAndClearDeferredDelete i).2.db.applyBatch _).names j)
        ((s.checkAndClearDeferredDelete i).2.Waiting j)
      rw [s.checkAndClear_db]
      refine h.oneRecord Change.oneRecord_drop (fun _ => .of_none) (fun e hw => ?_) hj
      refine ⟨?_, by rw [s.checkAndClear_handles, if_neg e]; exact hw.2⟩
      rw [s.checkAndClear_pending_ne e]
      exact hw.1

/-- **One call** that meets the condition keeps the invariant. -/
theorem exec (h : Kept s) (cfg : Config) (ha : c.Admitted s) (hk : c.KeepsRecords s) :
    Kept (s.exec cfg c).2 := by
  obtain ⟨s₁, he, hf⟩ := exec_files cfg h.wf ha.2 ha.1
  refine ⟨h.wf.exec cfg c, fun {i} hi iv hiv => ?_⟩
  have h₁ := h.effect_at he hk hi
  unfold Server.Waiting at h₁ ⊢
  rw [hf.names, hf.pendingDeletes, hf.handles]
  obtain ⟨iv₁, hiv₁, hm⟩ := hf.mode_eq hiv
  refine ⟨fun hd => (h₁ iv₁ hiv₁).1 (hm ▸ hd), fun hd => ?_⟩
  exact (h₁ iv ((hf.file hd).1 hiv)).2 hd

theorem noOrphans (h : Kept s) : s.NoOrphans := by
  intro i iv hi hr
  rcases Nat.eq_zero_or_pos (s.db.names i) with hz | hpos
  · obtain ⟨hdir, hfile⟩ := h.at_inode hr iv hi
    cases hd : isDir iv.mode with
    | true => exact absurd (hdir hd) (Nat.not_lt.2 (Nat.le_of_eq hz))
    | false => exact Or.inr ((hfile hd).2 hz)
  · exact Or.inl (Db.names_pos.1 hpos)

theorem fresh (cfg : Config) : Kept (Server.fresh cfg) := by
  refine ⟨Server.wf_fresh cfg, fun {i} hi iv hiv => ?_⟩
  rw [Server.inode_fresh, if_neg hi] at hiv
  cases hiv

end Kept

/-! ## Runs -/

/-- **No record is orphaned** in a run of admitted calls that meet `KeepsRecords`. -/
theorem no_orphans {cfg : Config} {es : List (Call × Reply)} {s : Server}
    (h : Trace (Server.exec cfg) (fun _ s c => c.Admitted s ∧ c.KeepsRecords s)
      (Server.fresh cfg) es s) : s.NoOrphans := by
  have hinv : Kept s := h.invariant (fun _ s => Kept s) (Kept.fresh cfg)
    fun hb hok => hb.exec cfg hok.1 hok.2
  exact hinv.noOrphans

/-- A file replaced by a rename. -/
theorem no_orphans_replaced_file :
    let s₁ := ((Server.fresh {}).exec {} (.create 1 [97] 0o644 0 0)).2
    let s₂ := (s₁.exec {} (.create 1 [98] 0o644 0 0)).2
    (s₂.exec {} (.rename 1 [97] 1 [98])).2.NoOrphans := by
  intro s₁ s₂
  have h₁ : Trace (Server.exec {}) (fun _ s c => c.Admitted s ∧ c.KeepsRecords s)
      (Server.fresh {}) _ s₁ :=
    .snoc (Call.create 1 [97] 0o644 0 0) .nil ⟨⟨by simp, by decide⟩, trivial⟩
  have h₂ : Trace (Server.exec {}) (fun _ s c => c.Admitted s ∧ c.KeepsRecords s)
      (Server.fresh {}) _ s₂ :=
    .snoc (Call.create 1 [98] 0o644 0 0) h₁ ⟨⟨by simp, by decide⟩, trivial⟩
  have ha : s₂.db.entry 1 [97] = some ⟨2, S_IFREG ||| 0o644⟩ := by decide
  have hb : s₂.db.entry 1 [98] = some ⟨3, S_IFREG ||| 0o644⟩ := by decide
  refine no_orphans (.snoc (Call.rename 1 [97] 1 [98]) h₂ ⟨⟨by simp, by decide⟩, fun v d hv hd => ?_⟩)
  rw [ha] at hv
  rw [hb] at hd
  cases hv
  cases hd
  exact Or.inr (by decide)

/-- `mkdir a`, `mkdir b`, `rename a b`: the record of the replaced directory 3 stays, without a
name and without an open handle. -/
theorem rename_over_directory_leaks :
    let s₁ := ((Server.fresh {}).exec {} (.mkdir 1 [97] 0o755 0 0)).2
    let s₂ := (s₁.exec {} (.mkdir 1 [98] 0o755 0 0)).2
    let r₃ := s₂.exec {} (.rename 1 [97] 1 [98])
    r₃.1.isError = false ∧ (r₃.2.db.inode 3).isSome = true ∧ r₃.2.db.names 3 = 0 ∧
      r₃.2.pendingDeletes 3 = false ∧ ¬r₃.2.NoOrphans := by
  intro s₁ s₂ r₃
  have hi : (r₃.2.db.inode 3).isSome = true := by decide
  have hn : r₃.2.db.names 3 = 0 := by decide
  have hp : r₃.2.pendingDeletes 3 = false := by decide
  refine ⟨by decide, hi, hn, hp, fun h => ?_⟩
  obtain ⟨iv, hiv⟩ := Option.isSome_iff_exists.1 hi
  rcases h 3 iv hiv (by decide) with hnamed | ⟨hpend, -⟩
  · exact absurd (Db.names_pos.2 hnamed) (by rw [hn]; exact Nat.lt_irrefl 0)
  · rw [hp] at hpend
    cases hpend

end RucksFs
