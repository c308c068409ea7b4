import RucksFs.Server.Isolation

/-!
# Circles of waiting calls

A call keeps its row locks until its transaction ends, and asks for them one after the other.  `rename`
sorts the inodes it locks but not its two entries, and `link` locks its target before its entry: two calls
can wait for each other, and RocksDB's deadlock detection is off.

* `Waits` — one call's next effect needs a row another has locked.
* `renames_wait_in_circle` — the interleaving of two renames.
* `no_deadlock` — in the default build, with the keys of each rename in order and no `link` next to a call
  that holds its entry or its parent, no state of any run has calls waiting in a circle.
-/

set_option autoImplicit false

namespace RucksFs

open Server Prog Relation

/-! ## Waiting -/

/-- The row a running call asks for next. -/
def nextRow (th : FsThread) : Option Row :=
  match th.prog with
  | .call e _ => e.needs
  | .ret _ => none

/-- Thread `m` waits for the lock of a directory entry or an inode that thread `n` holds. -/
def Waits (c : FsConf) (m n : Nat) : Prop :=
  m ≠ n ∧ ∃ a b row, c.threads[m]? = some a ∧ c.threads[n]? = some b ∧ nextRow a = some row ∧
    row.isKey = true ∧ row ∈ b.loc.tx.locks

/-- Some calls wait for each other in a circle. -/
def Deadlocked (c : FsConf) : Prop := ∃ m, TransGen (Waits c) m m

instance (c : FsConf) (m n : Nat) : Decidable (Waits c m n) :=
  decidable_of_iff (m ≠ n ∧ ∃ a ∈ c.threads[m]?, ∃ b ∈ c.threads[n]?, ∃ row ∈ nextRow a,
    row.isKey = true ∧ row ∈ b.loc.tx.locks) <| by
    unfold Waits
    constructor
    · rintro ⟨hne, a, ha, b, hb, row, hr, hk, hl⟩
      exact ⟨hne, a, b, row, ha, hb, hr, hk, hl⟩
    · rintro ⟨hne, a, b, row, ha, hb, hr, hk, hl⟩
      exact ⟨hne, a, ha, b, hb, row, hr, hk, hl⟩

/-! ## The order of locks -/

/-- The entry a rename takes away comes before the one it puts. -/
def Call.KeysSorted : Call → Prop
  | .rename p n np nn => (toLex (p, n) : DirKey) ≤ toLex (np, nn)
  | _ => True

instance : DecidablePred Call.KeysSorted := fun c => by
  cases c <;> first | exact instDecidableTrue | exact inferInstanceAs (Decidable ((_ : DirKey) ≤ _))

/-- No `link` runs next to a removal of its own name, nor next to a rename that has its parent as a parent,
as source or as destination. -/
def LinkApart (a b : FsThread) : Prop :=
  a.result.isNone = true → b.result.isNone = true →
    match a.tag, b.tag with
    | .link p n _, .unlink q m => (p, n) ≠ (q, m)
    | .link p n _, .rmdir q m => (p, n) ≠ (q, m)
    | .link p _ _, .rename q _ nq _ => ¬b.loc.RenameInode q nq p
    | _, _ => True

instance : DecidableRel LinkApart := fun a b => by
  unfold LinkApart
  have hmatch : Decidable (match a.tag, b.tag with
    | .link p n _, .unlink q m => (p, n) ≠ (q, m)
    | .link p n _, .rmdir q m => (p, n) ≠ (q, m)
    | .link p _ _, .rename q _ nq _ => ¬b.loc.RenameInode q nq p
    | _, _ => True) := by
    split <;> infer_instance
  infer_instance

/-- How far a call that asks for a row is, in an order in which it comes before all it can wait for:
entries by key, records of entries read, records by number, then what `link` and the creations ask for
last. -/
def waitRank (call : Call) : Row → ℕ ×ₗ DirKey
  | .dirEntry p n => if call.isLink then toLex (3, toLex (0, [])) else toLex (0, toLex (p, n))
  | .inode i =>
      match call with
      | .unlink _ _ | .rmdir _ _ => toLex (1, toLex (0, []))
      | .link p _ _ => if i = p then toLex (4, toLex (0, [])) else toLex (2, toLex (i, []))
      | .create .. | .createAndOpen .. | .mkdir .. | .symlink .. => toLex (4, toLex (0, []))
      | _ => toLex (2, toLex (i, []))
  | _ => toLex (4, toLex (0, []))

theorem waitRank_entry {call : Call} (h : call.isLink = false) (p : Inode) (n : Name) :
    waitRank call (.dirEntry p n) = toLex (0, toLex (p, n)) := by
  unfold waitRank
  rw [h]
  rfl

theorem waitRank_entry_lt (call : Call) (p : Inode) (n : Name) {r : ℕ × DirKey} (hr : 3 < r.1) :
    waitRank call (.dirEntry p n) < toLex r := by
  show (if call.isLink = true then _ else _) < _
  have hr' : 0 < r.1 := by omega
  split
  · exact Prod.Lex.toLex_lt_toLex.2 (Or.inl hr)
  · exact Prod.Lex.toLex_lt_toLex.2 (Or.inl hr')

/-- What may wait for the record of `j`: not the creation that has `j` as its new number, and not a `link`
into `j`. -/
theorem waitRank_inode_le {call : Call} {j : Inode} (hc : call.creates = none ∨ call.isLink = true)
    (hl : ∀ p n t, call = .link p n t → j ≠ p) :
    waitRank call (.inode j) ≤ toLex (2, toLex (j, [])) := by
  have hone : (toLex (1, toLex (0, [])) : ℕ ×ₗ DirKey) ≤ toLex (2, toLex (j, [])) :=
    le_of_lt (Prod.Lex.toLex_lt_toLex.2 (Or.inl (Nat.lt_succ_self 1)))
  cases call with
  | unlink p n => exact hone
  | rmdir p n => exact hone
  | link p n t =>
      show (if j = p then _ else _) ≤ _
      rw [if_neg (hl p n t rfl)]
  | create p n => simp [Call.creates, Call.isLink] at hc
  | createAndOpen p n => simp [Call.creates, Call.isLink] at hc
  | mkdir p n => simp [Call.creates, Call.isLink] at hc
  | symlink p n => simp [Call.creates, Call.isLink] at hc
  | _ => exact le_refl _

/-- The rank of a thread of a configuration. -/
def FsConf.rank (c : FsConf) (m : Nat) : ℕ ×ₗ DirKey :=
  match c.threads[m]? with
  | some th =>
      match nextRow th with
      | some row => waitRank th.tag row
      | none => toLex (4, toLex (0, []))
  | none => toLex (4, toLex (0, []))

theorem FsConf.rank_eq {c : FsConf} {m : Nat} {th : FsThread} {row : Row} (hm : c.threads[m]? = some th)
    (hr : nextRow th = some row) : c.rank m = waitRank th.tag row := by
  unfold FsConf.rank
  rw [hm]
  dsimp only
  rw [hr]

section

variable {c : FsConf} {m n : Nat} {a b : FsThread}

/-- A record that another transaction has locked and read is not one of a new object. -/
theorem Isolated.not_allocated_of_read (hi : Isolated c) (ha : c.threads[m]? = some a)
    (hb : c.threads[n]? = some b) {t : Inode} {iv : InodeValue}
    (hread : (t, some iv) ∈ b.loc.tx.inodeReads) : t ∉ a.loc.tx.allocated := by
  intro hmem
  have hnone := ((hi.valid m a ha).fresh hmem).1
  rw [(hi.valid n b hb).inode hread] at hnone
  cases hnone

/-- The inodes a rename locks are not new. -/
theorem Isolated.not_allocated_of_rename (hi : Isolated c) (hr : Roles c) (ha : c.threads[m]? = some a)
    (hb : c.threads[n]? = some b) {p np j : Inode} {x y : Name} (htag : b.tag = .rename p x np y)
    (hj : b.loc.RenameInode p np j) : j ∉ a.loc.tx.allocated := by
  intro hmem
  have hpar : ∀ q ∈ b.tag.parents, ¬Unborn c q := fun q hq => (hr.parents n b hb q hq).1
  have hunborn : Unborn c j := Or.inr ⟨a, List.mem_of_getElem? ha, hmem⟩
  rw [htag] at hpar
  rcases hj with rfl | rfl | ⟨q, z, v, hread, rfl⟩
  · exact hpar j (by simp [Call.parents, Call.folds]) hunborn
  · exact hpar j (by simp [Call.parents, Call.folds]) hunborn
  · exact ((hi.valid m a ha).fresh hmem).2.1 q z v ((hi.valid n b hb).entry hread) rfl

/-- The target of a `link` is no parent of any call. -/
theorem Roles.target_ne_parent (hr : Roles c) (hi : Isolated c) (ha : c.threads[m]? = some a)
    (hb : c.threads[n]? = some b) {t p : Inode} {iv : InodeValue}
    (hread : (t, some iv) ∈ b.loc.tx.inodeReads) (hd : isDir iv.mode = false) (hp : p ∈ a.tag.parents) :
    t ≠ p := by
  rintro rfl
  have hdir := (hr.parents m a ha t hp).2 iv ((hi.valid n b hb).inode hread)
  rw [hd] at hdir
  cases hdir

end

/-! ## No circle -/

/-- What is known of a state in which calls may wait for each other. -/
structure Orderly (c : FsConf) : Prop where
  isolated : Isolated c
  roles : Roles c
  sorted : Pool (fun th : FsThread => th.tag.KeysSorted) c.threads
  apart : Apart LinkApart c.threads
  steps : Pool (fun th => ∀ row, nextRow th = some row → LockStep th.loc th.tag row) c.threads

section

variable {c : FsConf} {m n : Nat} {a b : FsThread}

theorem isNone_of_nextRow {th : FsThread} {row : Row} (h : nextRow th = some row) :
    th.result.isNone = true := by
  unfold nextRow at h
  unfold Thread.result
  split at h
  · rename_i e k hp
    rw [hp]
    rfl
  · cases h

/-- A `link` that asks for an entry asks for its own. -/
theorem LockStep.link_entry {l : Local} {p q t : Inode} {x y : Name}
    (h : LockStep l (.link p x t) (.dirEntry q y)) (hno : .dirEntry q y ∉ l.tx.locks) : q = p ∧ y = x := by
  cases h with
  | side h => cases h
  | held h => exact absurd h hno
  | first hc => cases hc
  | firstEntry hc hnl => cases hnl
  | linkEntry => exact ⟨rfl, rfl⟩

/-- A creation asks for the record of its new object only. -/
theorem LockStep.create_inode {l : Local} {call : Call} {j : Inode} (h : LockStep l call (.inode j))
    (hc : call.creates.isSome = true) (hnl : call.isLink = false) (hno : .inode j ∉ l.tx.locks) :
    j ∈ l.tx.allocated := by
  cases h with
  | side h => cases h
  | held h => exact absurd h hno
  | first h => rw [h] at hc; cases hc
  | fresh _ _ _ hi => exact hi
  | child h => rcases h with ⟨rfl, -⟩ | ⟨rfl, -⟩ <;> cases hc
  | linkTarget => cases hnl
  | linkParent => cases hnl
  | ascend => cases hc

namespace Orderly

variable (h : Orderly c) (hne : m ≠ n) (ha : c.threads[m]? = some a) (hb : c.threads[n]? = some b)

include h hne ha hb

/-- Whoever waits for the record of `j` ranks at most as such, if `j` is neither new nor the parent of a
`link`. -/
theorem rank_inode {j : Inode} (hr : nextRow a = some (.inode j)) (hheld : .inode j ∈ b.loc.tx.locks)
    (hnew : j ∉ a.loc.tx.allocated) (hpar : ∀ p x t, a.tag = .link p x t → j ≠ p) :
    c.rank m ≤ toLex (2, toLex (j, [])) := by
  rw [FsConf.rank_eq ha hr]
  refine waitRank_inode_le ?_ hpar
  cases hl : a.tag.isLink with
  | true => exact Or.inr rfl
  | false =>
      refine Or.inl (Option.not_isSome_iff_eq_none.1 fun hc => hnew ?_)
      have hfree : .inode j ∉ a.loc.tx.locks := fun hm => h.isolated.locks m n a b hne ha hb _ hm hheld
      exact (h.steps m a ha _ hr).create_inode hc hl hfree

/-- Whoever waits for an entry held by a rename or a removal is no `link`. -/
theorem not_link {q : Inode} {y : Name} (hr : nextRow a = some (.dirEntry q y))
    (hheld : .dirEntry q y ∈ b.loc.tx.locks) (hrun : b.result.isNone = true)
    (hcall : b.tag = .unlink q y ∨ b.tag = .rmdir q y ∨
      ∃ p x np z, b.tag = .rename p x np z ∧ (q = p ∨ q = np)) : a.tag.isLink = false := by
  have hstep := h.steps m a ha _ hr
  have hapart := h.apart m n a b hne ha hb (isNone_of_nextRow hr) hrun
  have hfree : .dirEntry q y ∉ a.loc.tx.locks := fun hm => h.isolated.locks m n a b hne ha hb _ hm hheld
  cases htag : a.tag with
  | link p x t =>
      rw [htag] at hstep hapart
      obtain ⟨rfl, rfl⟩ := hstep.link_entry hfree
      rcases hcall with e | e | ⟨p', x', np, z, e, hq⟩
      · rw [e] at hapart
        exact absurd rfl hapart
      · rw [e] at hapart
        exact absurd rfl hapart
      · rw [e] at hapart
        rcases hq with rfl | rfl
        · exact absurd (Or.inl rfl) hapart
        · exact absurd (Or.inr (Or.inl rfl)) hapart
  | _ => rfl

end Orderly

/-- **The rank grows** from a call that waits to the one it waits for, when that one waits too. -/
theorem Orderly.rank_lt (h : Orderly c) {k : Nat} (hw : Waits c m n) (hw' : Waits c n k) :
    c.rank m < c.rank n := by
  obtain ⟨hne, a, b, row, ha, hb, hr, hkey, hheld⟩ := hw
  obtain ⟨hne', b', d, row', hb', hd, hr', hkey', hheld'⟩ := hw'
  rw [hb] at hb'
  cases hb'
  have hfree : row' ∉ b.loc.tx.locks := fun hm => h.isolated.locks n k b d hne' hb hd _ hm hheld'
  have hrun := isNone_of_nextRow hr'
  have hstep := h.steps n b hb row' hr'
  have hrank := FsConf.rank_eq hb hr'
  -- the target of a `link` is an old file, so only its record's rank can be that of the waiting call
  have htarget : ∀ {t iv}, row = .inode t → (t, some iv) ∈ b.loc.tx.inodeReads → isDir iv.mode = false →
      c.rank m ≤ toLex (2, toLex (t, [])) := by
    rintro t iv rfl hread hdir
    refine h.rank_inode hne ha hb hr hheld (h.isolated.not_allocated_of_read ha hb hread) ?_
    intro p x t' htag
    refine h.roles.target_ne_parent h.isolated ha hb hread hdir ?_
    rw [htag]
    exact List.mem_cons_self
  generalize htag : b.tag = call at hstep hrank
  rw [hrank]
  cases hstep with
  | side hs => rw [hs] at hkey'; cases hkey'
  | held hm => exact absurd hm hfree
  | first _ hl => rw [hl] at hheld; cases hheld
  | firstEntry _ _ hl => rw [hl] at hheld; cases hheld
  | linkTarget hl => rw [hl] at hheld; cases hheld
  | @fresh call p x i hc hnl hl hi =>
      rw [hl] at hheld
      obtain rfl := List.mem_singleton.1 hheld
      have hfour : waitRank call (.inode i) = toLex (4, toLex (0, [])) := by
        cases call <;> first | rfl | (cases hc; done) | cases hnl
      rw [hfour, FsConf.rank_eq ha hr]
      exact waitRank_entry_lt _ _ _ (Nat.lt_succ_self 3)
  | @child call p x v hc hl hread =>
      have hrow : row = .dirEntry p x := by simpa [hl] using hheld
      subst hrow
      have hnl := h.not_link hne ha hb hr hheld hrun
        (hc.imp (fun e => htag.trans e.1) fun e => Or.inl (htag.trans e.1))
      have hone : waitRank call (.inode v.inode) = toLex (1, toLex (0, [])) := by
        rcases hc with ⟨rfl, -⟩ | ⟨rfl, -⟩ <;> rfl
      rw [hone, FsConf.rank_eq ha hr, waitRank_entry hnl]
      exact Prod.Lex.toLex_lt_toLex.2 (Or.inl Nat.zero_lt_one)
  | @linkEntry p x t iv hl hread hdir =>
      have hrow : row = .inode t := by simpa [hl] using hheld
      refine lt_of_le_of_lt (htarget hrow hread hdir) ?_
      exact Prod.Lex.toLex_lt_toLex.2 (Or.inl (Nat.lt_succ_self 2))
  | @linkParent p x t iv hl hread hdir =>
      have hfour : waitRank (.link p x t) (.inode p) = toLex (4, toLex (0, [])) := if_pos rfl
      rw [hfour]
      have hrow : row = .dirEntry p x ∨ row = .inode t := by simpa [hl] using hheld
      rcases hrow with rfl | hrow
      · rw [FsConf.rank_eq ha hr]
        exact waitRank_entry_lt _ _ _ (Nat.lt_succ_self 3)
      · refine lt_of_le_of_lt (htarget hrow hread hdir) ?_
        exact Prod.Lex.toLex_lt_toLex.2 (Or.inl (by show 2 < 4; decide))
  | @second p x np z hl =>
      have hrow : row = .dirEntry p x := by simpa [hl] using hheld
      subst hrow
      have hnl := h.not_link hne ha hb hr hheld hrun
        (Or.inr (Or.inr ⟨p, x, np, z, htag, Or.inl rfl⟩))
      have hsorted : (toLex (p, x) : DirKey) ≤ toLex (np, z) := by
        have hs : b.tag.KeysSorted := h.sorted n b hb
        rw [htag] at hs
        exact hs
      have hdiff : (toLex (p, x) : DirKey) ≠ toLex (np, z) := by
        intro e
        cases e
        exact hfree hheld
      rw [FsConf.rank_eq ha hr, waitRank_entry hnl, waitRank_entry rfl]
      exact Prod.Lex.toLex_lt_toLex.2 (Or.inr ⟨rfl, lt_of_le_of_ne hsorted hdiff⟩)
  | @ascend p x np z i hl =>
      have htwo : waitRank (.rename p x np z) (.inode i) = toLex (2, toLex (i, [])) := rfl
      rw [htwo]
      have hentry : ∀ q y, row = .dirEntry q y → q = p ∨ q = np →
          c.rank m < (toLex (2, toLex (i, [])) : ℕ ×ₗ DirKey) := by
        rintro q y rfl hq
        have hnl := h.not_link hne ha hb hr hheld hrun (Or.inr (Or.inr ⟨p, x, np, z, htag, hq⟩))
        rw [FsConf.rank_eq ha hr, waitRank_entry hnl]
        exact Prod.Lex.toLex_lt_toLex.2 (Or.inl (by show 0 < 2; decide))
      rcases hl row hheld with hrow | hrow | ⟨j, rfl, hlt, hj⟩
      · exact hentry p x hrow (Or.inl rfl)
      · exact hentry np z hrow (Or.inr rfl)
      · refine lt_of_le_of_lt (h.rank_inode hne ha hb hr hheld
          (h.isolated.not_allocated_of_rename h.roles ha hb htag hj) ?_) ?_
        · rintro q y t hlink rfl
          have hapart := h.apart m n a b hne ha hb (isNone_of_nextRow hr) hrun
          rw [hlink, htag] at hapart
          exact hapart hj
        · exact Prod.Lex.toLex_lt_toLex.2 (Or.inr ⟨rfl, Prod.Lex.toLex_lt_toLex.2 (Or.inl hlt)⟩)

theorem Orderly.not_deadlocked (h : Orderly c) : ¬Deadlocked c := by
  rintro ⟨m, hm⟩
  exact not_waits_in_circle c.rank (fun hab hbd => h.rank_lt hab hbd) m hm

end

/-! ## Runs -/

/-- **No calls wait for each other in a circle**, in the default build, in any state of any run in which
the keys of each rename are in order and every `link` keeps apart from removals of its name and from
renames around its parent. -/
theorem no_deadlock {cfg : Config} {s₀ : Server} {c : FsConf} (hb : cfg.build = .delta) (h₀ : s₀.Starts)
    (h : Reach (fsSystem cfg fun s call => call.ParentsExist s.db ∧ call.KeysSorted)
      (fun c => Apart LinkApart c.threads) ⟨s₀, []⟩ c) : ¬Deadlocked c := by
  have hinv := isolated_invariant False
    (fun c : FsConf => Roles c ∧ Pool (fun th : FsThread => th.tag.KeysSorted) c.threads)
    (fun hf => hf.elim) rfl h₀.wf (fun _ => ⟨.of_server h₀, fun m th hm => by simp at hm⟩)
    (fun _ hi hX hadm => ⟨hX.1.start hi hadm.1, hX.2.append hadm.2⟩) ?_ h
  · obtain ⟨⟨⟨hroles, hsorted⟩, hi⟩, hwp⟩ := hinv
    refine Orderly.not_deadlocked ⟨hi, hroles, hsorted, h.hyp, fun m th hm row hr => ?_⟩
    have hth := hwp th (List.mem_of_getElem? hm)
    unfold nextRow at hr
    split at hr
    · rename_i e k hp
      rw [hp] at hth
      have hpre := hth.1
      cases e with
      | getForUpdateDirEntry p x =>
          cases hr
          exact hpre hb
      | getForUpdateInode i =>
          cases hr
          exact hpre hb
      | push op =>
          cases hr
          exact hpre hb
      | _ => cases hr
    · cases hr
  · intro c n call e k l l' r s' hH hi hX hn hpre ha hH'
    have hkeys : call.KeysSorted := hX.2 n _ hn
    exact ⟨hX.1.act hi hn hpre ha, hX.2.set hkeys fun _ _ _ _ hu => hu⟩

/-- Two files are made as `1/a` and `1/b`; then each of two renames, from `1/a` to `1/b` and from `1/b` to
`1/a`, has locked its source. -/
def renamesCrossing : List (Choice Call) :=
  .start (.create ROOT_INODE [97] 0o644 0 0) :: List.replicate 17 (.run 0) ++
    .start (.create ROOT_INODE [98] 0o644 0 0) :: List.replicate 17 (.run 1) ++
      .start (.rename ROOT_INODE [97] ROOT_INODE [98]) :: .run 2 :: .run 2 ::
        .start (.rename ROOT_INODE [98] ROOT_INODE [97]) :: [.run 3, .run 3]

/-- Each of the two renames waits for the entry the other one holds. -/
theorem renames_wait_in_circle : ∃ c,
    Reach (fsSystem {} fun s call => call.ParentsExist s.db) (fun _ => True) ⟨Server.fresh {}, []⟩ c ∧
    c.threads.map (fun th => (th.tag, th.result.isSome)) =
      [(.create ROOT_INODE [97] 0o644 0 0, true), (.create ROOT_INODE [98] 0o644 0 0, true),
        (.rename ROOT_INODE [97] ROOT_INODE [98], false),
        (.rename ROOT_INODE [98] ROOT_INODE [97], false)] ∧
    Deadlocked c := by
  have hrun : ((fsScheduler {} (fun s call => call.ParentsExist s.db) (fun _ => True)).run
      renamesCrossing ⟨Server.fresh {}, []⟩).map (fun c =>
        (c.threads.map (fun th => (th.tag, th.result.isSome)), decide (Waits c 2 3 ∧ Waits c 3 2))) =
      some ([(.create ROOT_INODE [97] 0o644 0 0, true), (.create ROOT_INODE [98] 0o644 0 0, true),
        (.rename ROOT_INODE [97] ROOT_INODE [98], false),
        (.rename ROOT_INODE [98] ROOT_INODE [97], false)], true) := by decide +kernel
  obtain ⟨c, hc, hv⟩ := Option.map_eq_some_iff.1 hrun
  obtain ⟨hcalls, hwaits⟩ := Prod.mk.inj hv
  obtain ⟨h₁, h₂⟩ := of_decide_eq_true hwaits
  exact ⟨c, fsScheduler_reach {} _ (fun _ => True) renamesCrossing trivial hc, hcalls, 2,
    .tail (.single h₁) h₂⟩

/-- A rename from `1/a` to `1/b` waits for `unlink` of `1/b`. -/
def renameWaiting : List (Choice Call) :=
  .start (.create ROOT_INODE [97] 0o644 0 0) :: List.replicate 17 (.run 0) ++
    .start (.create ROOT_INODE [98] 0o644 0 0) :: List.replicate 17 (.run 1) ++
      .start (.unlink ROOT_INODE [98]) :: List.replicate 3 (.run 2) ++
        .start (.rename ROOT_INODE [97] ROOT_INODE [98]) :: [.run 3, .run 3]

theorem no_deadlock_renameWaiting : ∃ c,
    Reach (fsSystem {} fun s call => call.ParentsExist s.db ∧ call.KeysSorted)
      (fun c => Apart LinkApart c.threads) ⟨Server.fresh {}, []⟩ c ∧
    Waits c 3 2 ∧ ¬Deadlocked c := by
  have hrun : ((fsScheduler {} (fun s call => call.ParentsExist s.db ∧ call.KeysSorted)
      (fun c : FsConf => Apart LinkApart c.threads)).run renameWaiting ⟨Server.fresh {}, []⟩).map
        (fun c => decide (Waits c 3 2)) = some true := by decide +kernel
  obtain ⟨c, hc, hw⟩ := Option.map_eq_some_iff.1 hrun
  have hreach := fsScheduler_reach {} _ (fun c : FsConf => Apart LinkApart c.threads) renameWaiting
    (fun m k u v _ hu => by simp at hu) hc
  exact ⟨c, hreach, of_decide_eq_true hw, no_deadlock rfl (Server.starts_fresh {}) hreach⟩

end RucksFs
