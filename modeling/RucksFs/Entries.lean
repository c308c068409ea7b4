import RucksFs.Lib.Trace
import RucksFs.Server.Effect

/-!
# Entries and the records they name

Every directory entry should name an inode whose record is stored and of the entry's type.

* `relinked_release_dangles` — a run that breaks this: a file is unlinked while open, linked
  again through its inode number, and the last `release` still deletes the record.
* `entries_backed` — in every run in which the last `release` of a pending inode finds its link
  count at 0, and no `link` wraps the 32-bit count, every reached state has it.

The invariant behind it is that an inode never has more names than its link count says
(`BackedAt`), so a record that goes at count 0 or 1 leaves no name behind.
-/

set_option autoImplicit false

namespace RucksFs

open Server

/-- Every entry names a stored record of its own type. -/
def Db.EntriesBacked (db : Db) : Prop :=
  ∀ p n v, db.entry p n = some v → ∃ iv, db.inode v.inode = some iv ∧ fileType v.mode = fileType iv.mode

/-- The condition on the two calls that can break it. -/
def Call.KeepsEntries (s : Server) : Call → Prop
  | .release i => s.pendingDeletes i = true → s.handles i ≤ 1 →
      ∀ iv, s.db.inode i = some iv → iv.nlink = 0
  | .link _ _ t => ∀ iv, s.db.inode t = some iv → iv.nlink + 1 < U32_SIZE
  | _ => True

/-- Calls of the runs considered: any but compaction, under existing directories. -/
def Call.Admitted (s : Server) (c : Call) : Prop :=
  (∀ i, c ≠ .forceCompactInode i) ∧ c.ParentsExist s.db

/-! ## One inode -/

/-- An inode with record `r` and `k` names. -/
def BackedAt (r : Option InodeValue) (k : Nat) : Prop :=
  (0 < k → r.isSome = true) ∧ ∀ iv, r = some iv → isDir iv.mode = false → k ≤ iv.nlink

theorem BackedAt.of_file {iv : InodeValue} {k : Nat} (h : k ≤ iv.nlink) : BackedAt (some iv) k :=
  ⟨fun _ => rfl, fun _ e _ => by cases e; exact h⟩

theorem BackedAt.of_dir {iv : InodeValue} {k : Nat} (h : isDir iv.mode = true) :
    BackedAt (some iv) k :=
  ⟨fun _ => rfl, fun _ e hd => by cases e; rw [h] at hd; cases hd⟩

theorem BackedAt.of_none : BackedAt none 0 := ⟨fun h => absurd h (Nat.lt_irrefl _), fun _ e => by cases e⟩

/-- Another record of the same type and count, and no more names. -/
theorem BackedAt.mono {iv iv' : InodeValue} {k k' : Nat} (h : BackedAt (some iv) k)
    (hm : isDir iv'.mode = isDir iv.mode) (hl : isDir iv.mode = false → iv'.nlink = iv.nlink)
    (hk : k' ≤ k) : BackedAt (some iv') k' := by
  cases hd : isDir iv.mode with
  | true => exact .of_dir (hm.trans hd)
  | false => exact .of_file (by rw [hl hd]; exact Nat.le_trans hk (h.2 iv rfl hd))

/-! ## One call -/

/-- The invariant. -/
structure Backed (s : Server) : Prop where
  wf : s.Wf
  at_inode : ∀ i, BackedAt (s.db.inode i) (s.db.names i)
  pending : ∀ {i}, s.pendingDeletes i = true → i < s.next ∧
    ∀ iv, s.db.inode i = some iv → isDir iv.mode = false

namespace Backed

variable {s s' : Server} {c : Call} {r : Reply} {i : Inode} {iv : InodeValue}

theorem names_eq_zero (h : Backed s) (hi : s.db.inode i = none) : s.db.names i = 0 := by
  rcases Nat.eq_zero_or_pos (s.db.names i) with h₀ | hpos
  · exact h₀
  · have hsome := (h.at_inode i).1 hpos
    rw [hi] at hsome
    cases hsome

/-- Removing a name and the record of a file whose count is at most 1. -/
theorem drop_last (h : Backed s) {k : Nat} (hi : s.db.inode i = some iv) (hd : isDir iv.mode = false)
    (hl : iv.nlink ≤ 1) (hk : k + 1 = s.db.names i) : BackedAt none k := by
  have hle := (h.at_inode i).2 iv hi hd
  have hk₀ : k = 0 := by omega
  rw [hk₀]
  exact .of_none

theorem rename {p : Inode} {n : Name} {np : Inode} {nn : Name} {v : DirValue} {srcIv : InodeValue}
    {vic : Victim} {ts : Nat} (h : Backed s) (he : s.db.entry p n = some v)
    (hi : s.db.inode v.inode = some srcIv)
    (hv : VictimOf s.db (isDir srcIv.mode) ts (s.db.entry np nn) vic) (j : Inode) :
    BackedAt ((s.db.applyBatch (renameOps p n np nn v.inode srcIv (s.db.entry np nn) vic ts)).inode j)
      ((s.db.applyBatch (renameOps p n np nn v.inode srcIv (s.db.entry np nn) vic ts)).names j) := by
  set D := s.db.applyBatch (renameOps p n np nn v.inode srcIv (s.db.entry np nn) vic ts) with hD
  have hnames : D.names j ≤ s.db.names j ∧ ∀ d, s.db.entry np nn = some d → d.inode = j →
      j ≠ v.inode → D.names j + 1 = s.db.names j := by
    by_cases hk : p = np ∧ n = nn
    · obtain ⟨rfl, rfl⟩ := hk
      rw [hD, names_renameOps_self he]
      refine ⟨Nat.le_refl _, fun d hd hj hne => ?_⟩
      rw [he] at hd
      cases hd
      exact absurd hj.symm hne
    · have hn : D.names j + Db.nameHit j (s.db.entry np nn) = s.db.names j := names_renameOps he hk j
      refine ⟨by omega, fun d hd hj _ => ?_⟩
      rw [hd, Db.nameHit_some, if_pos hj] at hn
      exact hn
  rw [hD, inode_renameOps hv, ← hD]
  unfold Victim.records
  split
  · rename_i e
    have hsrc := h.at_inode j
    rw [e, hi] at hsrc
    rw [e] at hnames ⊢
    exact hsrc.mono rfl (fun _ => rfl) hnames.1
  · rename_i hne
    split
    · rename_i hdel
      obtain ⟨d, div, hdst, hdj, hdd, hds, hdi, hdl⟩ := hv.delete_eq hdel
      have hfile : isDir div.mode = false := by
        rw [← isDir_of_fileType_eq (h.wf.db.type_eq hdst (hdj ▸ hdi)), hdd]
      exact h.drop_last hdi hfile hdl (hnames.2 d hdst hdj hne)
    · split
      · rename_i k hk
        obtain ⟨d, div, hdst, hdd, hds, hdi, hdl, rfl⟩ := hv.keep_eq hk
        dsimp only
        split
        · rename_i e
          have hfile : isDir div.mode = false := by
            rw [← isDir_of_fileType_eq (h.wf.db.type_eq hdst hdi), hdd]
          have hle := (h.at_inode j).2 div (e ▸ hdi) hfile
          have hone := hnames.2 d hdst e.symm hne
          refine .of_file ?_
          dsimp only
          omega
        · have hj := h.at_inode j
          exact ⟨fun hpos => hj.1 (Nat.lt_of_lt_of_le hpos hnames.1),
            fun iv hiv hd => Nat.le_trans hnames.1 (hj.2 iv hiv hd)⟩
      · have hj := h.at_inode j
        exact ⟨fun hpos => hj.1 (Nat.lt_of_lt_of_le hpos hnames.1),
          fun iv hiv hd => Nat.le_trans hnames.1 (hj.2 iv hiv hd)⟩

/-- A change of one record. -/
theorem oneRecord (h : Backed s) {D : Db} {t : Inode} {o : Option InodeValue} (hD : s.db.OneRecord D t o)
    (ht : BackedAt o (D.names t)) (j : Inode) : BackedAt (D.inode j) (D.names j) :=
  hD.forall (P := fun _ => BackedAt) ht j fun _ => h.at_inode j

theorem unlink_at (h : Backed s) {p : Inode} {n : Name} {v : DirValue} {ts : Nat} (he : s.db.entry p n = some v)
    (hd : isDir v.mode = false) (hi : s.db.inode v.inode = some iv) (j : Inode) :
    let iv' := { iv with nlink := iv.nlink - 1, ctime := ts }
    BackedAt ((s.db.applyBatch [.deleteDirEntry p n, .putInode v.inode iv']).inode j)
      ((s.db.applyBatch [.deleteDirEntry p n, .putInode v.inode iv']).names j) := by
  intro iv'
  refine h.oneRecord (Change.oneRecord_unlinkKeep he) ?_ j
  have hfile := isDir_of_fileType_eq (h.wf.db.type_eq he hi)
  rw [hd] at hfile
  have hle := (h.at_inode v.inode).2 iv hi hfile.symm
  exact .of_file (Nat.le_sub_of_add_le (Nat.le_trans (Nat.le_of_eq (Db.names_of_unbind_self rfl he)) hle))

theorem rewrite_at (h : Backed s) {iv' : InodeValue} (hi : s.db.inode i = some iv)
    (ht : fileType iv'.mode = fileType iv.mode) (hl : iv'.nlink = iv.nlink) (j : Inode) :
    BackedAt ((s.db.applyBatch [.putInode i iv']).inode j)
      ((s.db.applyBatch [.putInode i iv']).names j) := by
  refine h.oneRecord Change.oneRecord_rewrite ?_ j
  have hold := h.at_inode i
  rw [hi] at hold
  exact hold.mono (isDir_of_fileType_eq ht) (fun _ => hl) (Nat.le_refl _)

theorem made_at (h : Backed s) {p : Inode} {n : Name} {extra : List BatchOp} (hfree : s.db.entry p n = none)
    (hx : ∀ op ∈ extra, op.IsSide) (hkind : isDir iv.mode = true ∨ iv.nlink = 1) (j : Inode) :
    let D := s.db.applyBatch (.putInode s.next iv :: .putDirEntry p n ⟨s.next, iv.mode⟩ :: extra)
    BackedAt (D.inode j) (D.names j) := by
  refine h.oneRecord (Change.oneRecord_create hfree hx) ?_ j
  rw [Change.names_create hfree hx, if_pos rfl, h.names_eq_zero (Effect.fresh_next h.wf.db).1]
  exact hkind.elim .of_dir fun hl => .of_file (Nat.le_of_eq hl.symm)

/-- What an effect leaves of every inode. -/
theorem effect_at (h : Backed s) (he : Effect s c r s') (hk : c.KeepsEntries s) (j : Inode) :
    BackedAt (s'.db.inode j) (s'.db.names j) := by
  have hj := h.at_inode j
  cases he with
  | quiet hq => exact hj
  | opened => exact hj
  | @made c p n iv extra hc hfree hnum hx =>
      refine h.made_at hfree (fun op ho => (hx op ho).side) ?_ j
      exact (Effect.isDir_of_makes hc).symm.imp And.left And.right
  | @madeOpen p n mode uid gid flags iv extra rep hl ht hfree hx hr hh =>
      exact h.made_at hfree (fun op ho => (hx op ho).side) (Or.inr hl) j
  | @link p n t iv ts a hi hd hfree hp =>
      refine h.oneRecord (Change.oneRecord_link hfree) ?_ j
      rw [Change.names_link hfree, if_pos rfl]
      refine .of_file ?_
      show _ ≤ (iv.nlink + 1) % U32_SIZE
      rw [Nat.mod_eq_of_lt (hk iv hi)]
      exact Nat.succ_le_succ ((h.at_inode t).2 iv hi hd)
  | @unlinkKeep p n v iv ts hent hd hi hl => exact h.unlink_at hent hd hi j
  | @unlinkDefer p n v iv ts hent hd hi hl hh => exact h.unlink_at hent hd hi j
  | @unlinkDrop p n v iv hent hd hi hl hh =>
      refine h.oneRecord (Change.oneRecord_unlinkDrop hent) ?_ j
      have hfile := isDir_of_fileType_eq (h.wf.db.type_eq hent hi)
      rw [hd] at hfile
      exact h.drop_last hi hfile.symm (by omega) (Db.names_of_unbind_self rfl hent)
  | @rmdir p n v iv hent hd hi hemp =>
      refine h.oneRecord (Change.oneRecord_rmdir hent) ?_ j
      rw [Nat.succ.inj ((Db.names_of_unbind_self (by rfl) hent).trans (h.wf.db.names_dir hent hd))]
      exact .of_none
  | rename hent hi hv hemp => exact h.rename hent hi hv j
  | @rewrite c i iv iv' r hc hi ht hl hr => exact h.rewrite_at hi ht hl j
  | @openedTrunc i flags r iv iv' hi ht hl => exact h.rewrite_at hi (by rw [ht]) hl j
  | @released i hp =>
      rw [s.checkAndClear_db]
      exact hj
  | @releasedDrop i hp =>
      obtain ⟨hpend, hle, -⟩ := s.checkAndClear_true hp
      show BackedAt (((s.checkAndClearDeferredDelete i).2.db.applyBatch _).inode j)
        (((s.checkAndClearDeferredDelete i).2.db.applyBatch _).names j)
      rw [s.checkAndClear_db]
      refine h.oneRecord Change.oneRecord_drop ?_ j
      have hz : s.db.names i = 0 := by
        cases hi : s.db.inode i with
        | none => exact h.names_eq_zero hi
        | some iv =>
            have hl := (h.at_inode i).2 iv hi ((h.pending hpend).2 iv hi)
            rw [hk hpend hle iv hi] at hl
            exact Nat.le_zero.1 hl
      show BackedAt none (s.db.names i)
      rw [hz]
      exact .of_none

theorem effect_pending (h : Backed s) (he : Effect s c r s') (hp : s'.pendingDeletes i = true) :
    i < s'.next ∧ ∀ iv, s'.db.inode i = some iv → isDir iv.mode = false := by
  have hold : i < s.next ∧ ∀ iv, s.db.inode i = some iv → isDir iv.mode = false := by
    rcases he.pending_of hp with hs | ⟨p, n, v, hent, rfl, hd⟩
    · exact h.pending hs
    · refine ⟨h.wf.db.entry_lt hent, fun iv hi => ?_⟩
      rw [← isDir_of_fileType_eq (h.wf.db.type_eq hent hi), hd]
  refine ⟨Nat.lt_of_lt_of_le hold.1 (he.next_le h.wf), fun iv hi => ?_⟩
  rcases he.origin h.wf hi with ⟨old, hi₀, ht⟩ | e
  · rw [isDir_of_fileType_eq ht]
    exact hold.2 old hi₀
  · exact absurd e (Nat.ne_of_lt hold.1)

/-- **One call** that meets the condition keeps the invariant. -/
theorem exec (h : Backed s) (cfg : Config) (ha : c.Admitted s) (hk : c.KeepsEntries s) :
    Backed (s.exec cfg c).2 := by
  obtain ⟨s₁, he, hf⟩ := exec_files cfg h.wf ha.2 ha.1
  refine ⟨h.wf.exec cfg c, fun i => ?_, fun {i} hp => ?_⟩
  · have h₁ := h.effect_at he hk i
    rw [hf.names]
    refine ⟨fun hpos => ?_, fun iv hi hd => h₁.2 iv ((hf.file hd).1 hi) hd⟩
    rw [hf.isSome_inode]
    exact h₁.1 hpos
  · rw [hf.pendingDeletes] at hp
    have h₁ := h.effect_pending he hp
    rw [hf.next]
    refine ⟨h₁.1, fun iv hi => ?_⟩
    obtain ⟨iv₁, hi₁, hm⟩ := hf.mode_eq hi
    rw [← hm]
    exact h₁.2 iv₁ hi₁

theorem entriesBacked (h : Backed s) : s.db.EntriesBacked := by
  intro p n v he
  have hpos : 0 < s.db.names v.inode := Db.names_pos.2 ⟨p, n, v, he, rfl⟩
  obtain ⟨iv, hi⟩ := Option.isSome_iff_exists.1 ((h.at_inode v.inode).1 hpos)
  exact ⟨iv, hi, h.wf.db.type_eq he hi⟩

theorem fresh (cfg : Config) : Backed (Server.fresh cfg) := by
  refine ⟨Server.wf_fresh cfg, fun i => ?_, fun {i} hp => by cases hp⟩
  have hn : (Server.fresh cfg).db.names i = 0 := rfl
  rw [hn]
  exact ⟨fun h => absurd h (Nat.lt_irrefl _), fun _ _ _ => Nat.zero_le _⟩

end Backed

/-! ## Runs -/

/-- **Entries and records stay in step** in every run of admitted calls whose `release` and
`link` calls meet `KeepsEntries`. -/
theorem entries_backed {cfg : Config} {es : List (Call × Reply)} {s : Server}
    (h : Trace (Server.exec cfg) (fun _ s c => c.Admitted s ∧ c.KeepsEntries s)
      (Server.fresh cfg) es s) : s.db.EntriesBacked := by
  have hinv : Backed s := h.invariant (fun _ s => Backed s) (Backed.fresh cfg)
    fun hb hok => hb.exec cfg hok.1 hok.2
  exact hinv.entriesBacked

/-- A file created and opened, unlinked while open (so that its deletion is deferred) and
released. -/
theorem entries_backed_deferred :
    let s₁ := ((Server.fresh {}).exec {} (.createAndOpen 1 [97] 0o644 0 0 0)).2
    let s₂ := (s₁.exec {} (.unlink 1 [97])).2
    (s₂.exec {} (.release 2)).2.db.EntriesBacked := by
  intro s₁ s₂
  have h₁ : Trace (Server.exec {}) (fun _ s c => c.Admitted s ∧ c.KeepsEntries s)
      (Server.fresh {}) _ s₁ :=
    .snoc (Call.createAndOpen 1 [97] 0o644 0 0 0) .nil ⟨⟨by simp, by decide⟩, trivial⟩
  have h₂ : Trace (Server.exec {}) (fun _ s c => c.Admitted s ∧ c.KeepsEntries s)
      (Server.fresh {}) _ s₂ :=
    .snoc (Call.unlink 1 [97]) h₁ ⟨⟨by simp, by decide⟩, trivial⟩
  have hrec : s₂.db.inode 2 = some
      { version := 1, inode := 2, size := 0, mode := S_IFREG ||| 0o644, nlink := 0, uid := 0,
        gid := 0, atime := 0, mtime := 0, ctime := 0 } := by decide
  refine entries_backed (.snoc (Call.release 2) h₂ ⟨⟨by simp, by decide⟩, fun _ _ iv hi => ?_⟩)
  rw [hrec] at hi
  cases hi
  rfl

/-- Unlinked while open, linked again, released: the entry `b` names an inode without a record. -/
theorem relinked_release_dangles :
    let s₁ := ((Server.fresh {}).exec {} (.create 1 [97] 0o644 0 0)).2
    let s₂ := (s₁.exec {} (.openFile 2 0)).2
    let s₃ := (s₂.exec {} (.unlink 1 [97])).2
    let s₄ := (s₃.exec {} (.link 1 [98] 2)).2
    let s₅ := (s₄.exec {} (.release 2)).2
    s₅.db.entry 1 [98] = some ⟨2, S_IFREG ||| 0o644⟩ ∧ s₅.db.inode 2 = none ∧
      ¬s₅.db.EntriesBacked := by
  intro s₁ s₂ s₃ s₄ s₅
  have he : s₅.db.entry 1 [98] = some ⟨2, S_IFREG ||| 0o644⟩ := by decide
  have hi : s₅.db.inode 2 = none := by decide
  refine ⟨he, hi, fun h => ?_⟩
  obtain ⟨iv, hiv, -⟩ := h _ _ _ he
  rw [hi] at hiv
  cases hiv

end RucksFs
