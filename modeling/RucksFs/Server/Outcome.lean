import RucksFs.Server.Spec

/-!
# The outcomes of a call

`Outcome cfg s c r s'` lists the ways a call `c` can end, with the rows it found and the server it
leaves: the equations of `RucksFs.Server.Spec` with their case splits done once.

* `exec_outcome` — every call ends in one of them.
-/

set_option autoImplicit false

namespace RucksFs

open Server

def Reply.isError : Reply → Bool
  | .attr (.error _) | .setAttr (.error _) | .entries (.error _) | .created (.error _)
  | .purged (.error _) | .opened (.error _) | .done (.error _) | .target (.error _)
  | .compacted (.error _) => true
  | _ => false

/-- Calls that change no file. -/
def Call.reads : Call → Bool
  | .lookup _ _ | .getattr _ | .readdir _ | .readlink _ | .forceCompactInode _ => true
  | _ => false

/-- `c` makes a new object `iv` as `p/n`. -/
inductive Call.Makes : Call → Inode → Name → InodeValue → Prop where
  | create {p : Inode} {n : Name} {mode uid gid : Nat} {iv : InodeValue}
      (hl : iv.nlink = 1) (ht : fileType iv.mode = S_IFREG) :
      Makes (.create p n mode uid gid) p n iv
  | mkdir {p : Inode} {n : Name} {mode uid gid : Nat} {iv : InodeValue}
      (hl : iv.nlink = 2) (ht : fileType iv.mode = S_IFDIR) :
      Makes (.mkdir p n mode uid gid) p n iv
  | symlink {p : Inode} {n : Name} {target : List Byte} {uid gid : Nat} {iv : InodeValue}
      (hl : iv.nlink = 1) (ht : fileType iv.mode = S_IFLNK) :
      Makes (.symlink p n target uid gid) p n iv

/-- `c` replaces the record of `i` and nothing else. -/
inductive Call.Rewrites : Call → Inode → Prop where
  | setattr {i : Inode} {req : SetAttrRequest} : Rewrites (.setattr i req) i
  | reportWrite {i : Inode} {newSize mtime : Nat} : Rewrites (.reportWrite i newSize mtime) i

inductive Outcome (cfg : Config) (s : Server) : Call → Reply → Server → Prop where
  /-- A failure; `rename` may have read the clock before it. -/
  | failed {c : Call} {r : Reply} {s' : Server} (hr : r.isError = true) (hs : s' = s ∨ s' = s.tick) :
      Outcome cfg s c r s'
  | loaded {c : Call} {r : Reply} (i : Inode) (h : r.isError = true ∨ c.reads = true) :
      Outcome cfg s c r (s.load i).2
  | made {c : Call} {p : Inode} {n : Name} {iv : InodeValue} {extra : List BatchOp}
      {ds : List DeltaOp} (hc : c.Makes p n iv) (he : s.db.entry p n = none) (hi : iv.inode = s.next)
      (hx : ∀ op ∈ extra, op.IsPayload) :
      Outcome cfg s c (.attr (.ok iv.toAttr)) (s.created cfg p n iv extra ds)
  | madeOpen {p : Inode} {n : Name} {mode uid gid flags : Nat} {iv : InodeValue}
      {extra : List BatchOp} {ds : List DeltaOp} {r : CreateAndOpenResponse} (hl : iv.nlink = 1)
      (ht : fileType iv.mode = S_IFREG) (he : s.db.entry p n = none) (hi : iv.inode = s.next)
      (hx : ∀ op ∈ extra, op.IsPayload) (hr : r.attr.inode = s.next) (hh : r.handle = s.next) :
      Outcome cfg s (.createAndOpen p n mode uid gid flags) (.created (.ok r))
        ((s.created cfg p n iv extra ds).handleIncr s.next)
  | link {p : Inode} {n : Name} {t : Inode} {iv : InodeValue} {a : FileAttr}
      (hi : s.db.inode t = some iv) (hd : isDir iv.mode = false) (he : s.db.entry p n = none)
      (hp : s.db.IsDirectory p) :
      Outcome cfg s (.link p n t) (.attr (.ok a)) (s.linked cfg p n t
        { iv with nlink := (iv.nlink + 1) % U32_SIZE, ctime := cfg.clock s.ticks }
        (cfg.clock (s.ticks + 1)))
  | unlinkDrop {p : Inode} {n : Name} {v : DirValue} {iv : InodeValue}
      (he : s.db.entry p n = some v) (hd : isDir v.mode = false) (hi : s.db.inode v.inode = some iv)
      (hl : iv.nlink - 1 = 0) (hh : s.handles v.inode = 0) :
      Outcome cfg s (.unlink p n) (.purged (.ok [v.inode]))
        (s.unlinkedDrop cfg p n v.inode (cfg.clock s.ticks))
  | unlinkKeep {p : Inode} {n : Name} {v : DirValue} {iv : InodeValue}
      (he : s.db.entry p n = some v) (hd : isDir v.mode = false) (hi : s.db.inode v.inode = some iv)
      (hk : ¬(iv.nlink - 1 = 0 ∧ s.handles v.inode = 0)) :
      Outcome cfg s (.unlink p n) (.purged (.ok [])) (s.unlinkedKeep cfg p n v.inode
        { iv with nlink := iv.nlink - 1, ctime := cfg.clock s.ticks } (cfg.clock (s.ticks + 1)))
  | rmdir {p : Inode} {n : Name} {v : DirValue} {iv : InodeValue}
      (he : s.db.entry p n = some v) (hd : isDir v.mode = true) (hi : s.db.inode v.inode = some iv)
      (hemp : s.db.isDirEmpty v.inode = true) :
      Outcome cfg s (.rmdir p n) (.done (.ok ())) (s.rmdired cfg p n v.inode (cfg.clock s.ticks))
  | rename {p : Inode} {n : Name} {np : Inode} {nn : Name} {v : DirValue} {srcIv : InodeValue}
      {vic : Victim} (he : s.db.entry p n = some v) (hi : s.db.inode v.inode = some srcIv)
      (hv : VictimOf s.db (isDir srcIv.mode) (cfg.clock s.ticks) (s.db.entry np nn) vic)
      (hemp : ∀ d, s.db.entry np nn = some d → vic.wasDir = true → s.db.isDirEmpty d.inode = true) :
      Outcome cfg s (.rename p n np nn) (.purged (.ok vic.delete.toList))
        (let dss := renameDeltas p np (isDir srcIv.mode) vic.wasDir (cfg.clock s.ticks)
        (s.renameCommitted cfg p n np nn v.inode srcIv vic dss).touchAll dss)
  | rewrite {c : Call} {i : Inode} {iv iv' : InodeValue} {r : Reply} {t : Server} (hc : c.Rewrites i)
      (hi : s.db.inode i = some iv) (ht : fileType iv'.mode = fileType iv.mode)
      (hl : iv'.nlink = iv.nlink) (hr : r.isError = false) (hs : t = s ∨ t = s.tick) :
      Outcome cfg s c r (t.rewritten i iv')
  | opened {i : Inode} {flags : Nat} {r : OpenResponse} :
      Outcome cfg s (.openFile i flags) (.opened (.ok r)) ((s.load i).2.handleIncr i)
  | openedTrunc {i : Inode} {flags : Nat} {r : OpenResponse} {iv raw : InodeValue}
      (hl : (s.load i).1 = .ok iv) (hd : isDir iv.mode = false) (hi : s.db.inode i = some raw) :
      Outcome cfg s (.openFile i flags) (.opened (.ok r))
        (((s.load i).2.tick.rewritten i (raw.truncated (cfg.clock s.ticks))).handleIncr i)
  | released {i : Inode} (h : (s.checkAndClearDeferredDelete i).1 = false) :
      Outcome cfg s (.release i) (.purged (.ok [])) (s.checkAndClearDeferredDelete i).2
  | releasedDrop {i : Inode} (h : (s.checkAndClearDeferredDelete i).1 = true) :
      Outcome cfg s (.release i) (.purged (.ok [i])) ((s.checkAndClearDeferredDelete i).2.dropped i)
  | compacted {i : Inode} {base : InodeValue} {r : Reply} (hi : s.db.inode i = some base) :
      Outcome cfg s (.forceCompactInode i) r (s.compacted i base)
  | idle {i : Inode} {r : Reply} : Outcome cfg s (.forceCompactInode i) r s

/-! ### What a passed check says -/

section

variable {db : Db} {p : Inode} {n : Name}

theorem Db.linkCheck_ok {t : Inode} {iv : InodeValue} (h : db.linkCheck p n t = .ok iv) :
    db.inode t = some iv ∧ isDir iv.mode = false ∧ db.entry p n = none ∧ db.IsDirectory p := by
  unfold linkCheck at h
  split at h
  · cases h
  · rename_i iv' hi
    split at h
    · cases h
    · split at h
      · cases h
      · split at h
        · cases h
        · rename_i hd he _ piv hp
          split at h
          · rename_i hpd
            cases h
            exact ⟨hi, by simpa using hd, by simpa using he, piv, hp, hpd⟩
          · cases h

theorem Db.unlinkCheck_ok {v : DirValue} {iv : InodeValue} (h : db.unlinkCheck p n = .ok (v, iv)) :
    db.entry p n = some v ∧ isDir v.mode = false ∧ db.inode v.inode = some iv := by
  unfold unlinkCheck at h
  split at h
  · cases h
  · rename_i w he
    split at h
    · cases h
    · rename_i hd
      split at h
      · cases h
      · rename_i jv hi
        cases h
        exact ⟨he, by simpa using hd, hi⟩

theorem Db.rmdirCheck_ok {v : DirValue} (h : db.rmdirCheck p n = .ok v) :
    db.entry p n = some v ∧ isDir v.mode = true ∧ (∃ iv, db.inode v.inode = some iv) ∧
      db.isDirEmpty v.inode = true := by
  unfold rmdirCheck at h
  split at h
  · cases h
  · rename_i w he
    split at h
    · rename_i hd
      split at h
      · cases h
      · rename_i iv hi
        split at h
        · rename_i hemp
          cases h
          exact ⟨he, hd, ⟨iv, hi⟩, hemp⟩
        · cases h
    · cases h

theorem Db.renameSource_ok {src : Inode} {iv : InodeValue} (h : db.renameSource p n = .ok (src, iv)) :
    ∃ v, db.entry p n = some v ∧ v.inode = src ∧ db.inode v.inode = some iv := by
  unfold renameSource at h
  split at h
  · cases h
  · rename_i v he
    split at h
    · cases h
    · rename_i jv hi
      cases h
      exact ⟨v, he, rfl, hi⟩

theorem Db.renameVictim_ok {srcIsDir : Bool} {ts : Nat} {dst : Option DirValue} {vic : Victim}
    (h : db.renameVictim srcIsDir ts dst = .ok vic) :
    VictimOf db srcIsDir ts dst vic ∧
      ∀ d, dst = some d → vic.wasDir = true → db.isDirEmpty d.inode = true := by
  cases dst with
  | none =>
      cases h
      exact ⟨.none, fun d hd => by cases hd⟩
  | some d =>
      unfold renameVictim at h
      cases hs : srcIsDir <;> cases hd : isDir d.mode <;> simp only [hs, hd] at h
      case false.true => cases h
      case true.false => cases h
      case true.true =>
        simp only [Bool.not_true, Bool.and_false, Bool.false_eq_true, if_false, if_true,
          Bool.and_true] at h
        split at h
        · rename_i hemp
          cases h
          refine ⟨.dir hd rfl, fun d' hd' _ => ?_⟩
          cases hd'
          exact hemp
        · cases h
      case false.false =>
        simp only [Bool.not_false, Bool.and_false, Bool.false_eq_true, if_false, Bool.and_true] at h
        split at h
        · cases h
        · rename_i iv hi
          split at h
          · rename_i hl
            cases h
            exact ⟨.keep hd rfl hi hl, fun _ _ hw => by cases hw⟩
          · rename_i hl
            cases h
            exact ⟨.drop hd rfl hi (Nat.le_of_not_lt hl), fun _ _ hw => by cases hw⟩

end

/-! ## Every call has an outcome -/

/-- The server's answer to a call in terms of the operation behind it. -/
theorem Server.exec_eq {α : Type} {cfg : Config} {s s' : Server} {c : Call} {op : Op α}
    {f : FsResult α → Reply} {r : FsResult α} {tx' : Txn}
    (hc : c.body cfg = do return f (← op.run)) (h : Op.exec cfg op ({}, s) = (r, tx', s')) :
    Server.exec cfg c s = (f r, s') := by
  unfold Server.exec
  unfold Op.exec at h
  rw [hc, Prog.run_bind, h]
  rfl

/-- How the call `c` of `s` ends. -/
def Server.Ends (cfg : Config) (s : Server) (c : Call) : Prop :=
  Outcome cfg s c (s.exec cfg c).1 (s.exec cfg c).2

section

variable (cfg : Config) (s : Server)

theorem ends_of_error {α : Type} {c : Call} {op : Op α} {f : FsResult α → Reply} {e : FsError}
    {tx' : Txn} {s' : Server} (hc : c.body cfg = do return f (← op.run))
    (hf : (f (.error e)).isError = true) (h : Op.exec cfg op ({}, s) = (.error e, tx', s'))
    (hs : s' = s ∨ s' = s.tick) : s.Ends cfg c := by
  unfold Server.Ends
  rw [Server.exec_eq hc h]
  exact .failed hf hs

theorem ends_of_load {α : Type} {c : Call} {op : Op α} {f : FsResult α → Reply} {r : FsResult α}
    {tx' : Txn} (i : Inode) (hc : c.body cfg = do return f (← op.run))
    (hr : (f r).isError = true ∨ c.reads = true)
    (h : Op.exec cfg op ({}, s) = (r, tx', (s.load i).2)) : s.Ends cfg c := by
  unfold Server.Ends
  rw [Server.exec_eq hc h]
  exact .loaded i hr

theorem creation_cases (p : Inode) (n : Name) (iv : InodeValue) (extra : List BatchOp)
    (ds : List DeltaOp) :
    (∃ e, s.creation cfg p n iv extra ds = (.error e, s)) ∨
    (s.db.entry p n = none ∧
      s.creation cfg p n iv extra ds = (.ok iv.toAttr, s.created cfg p n iv extra ds)) := by
  unfold Server.creation
  by_cases hn : n.length > NAME_MAX
  · exact Or.inl ⟨_, by rw [if_pos hn]⟩
  · by_cases he : (s.db.entry p n).isSome
    · exact Or.inl ⟨_, by rw [if_neg hn, if_pos he]⟩
    · exact Or.inr ⟨by simpa using he, by rw [if_neg hn, if_neg he]⟩

/-- The shared part of `create`, `mkdir` and `symlink`. -/
theorem ends_of_creation {c : Call} {op : Op FileAttr} {p : Inode} {n : Name} {iv : InodeValue}
    {extra : List BatchOp} {ds : List DeltaOp}
    (hc : c.body cfg = do return .attr (← op.run)) (hm : c.Makes p n iv)
    (hi : iv.inode = s.next) (hx : ∀ o ∈ extra, o.IsPayload)
    (hop : Op.exec cfg op ({}, s) =
      let out := s.creation cfg p n iv extra ds
      (out.1, {}, out.2)) : s.Ends cfg c := by
  unfold Server.Ends
  rw [Server.exec_eq hc hop]
  rcases creation_cases cfg s p n iv extra ds with ⟨e, h⟩ | ⟨he, h⟩
  · rw [h]
    exact .failed rfl (Or.inl rfl)
  · rw [h]
    exact .made hm he hi hx

theorem ends_create (p : Inode) (n : Name) (mode uid gid : Nat) :
    s.Ends cfg (.create p n mode uid gid) :=
  ends_of_creation cfg s rfl (.create rfl (fileType_reg mode)) rfl
    (by simp [BatchOp.IsPayload]) (exec_create cfg s p n mode uid gid)

theorem ends_mkdir (p : Inode) (n : Name) (mode uid gid : Nat) :
    s.Ends cfg (.mkdir p n mode uid gid) :=
  ends_of_creation cfg s rfl (.mkdir rfl (fileType_dir mode)) rfl
    (by simp) (exec_mkdir cfg s p n mode uid gid)

theorem ends_symlink (p : Inode) (n : Name) (target : List Byte) (uid gid : Nat) :
    s.Ends cfg (.symlink p n target uid gid) :=
  ends_of_creation cfg s rfl (.symlink rfl (show fileType (S_IFLNK ||| 0o777) = S_IFLNK by decide)) rfl
    (by simp [BatchOp.IsPayload]) (exec_symlink cfg s p n target uid gid)

theorem ends_createAndOpen (p : Inode) (n : Name) (mode uid gid flags : Nat) :
    s.Ends cfg (.createAndOpen p n mode uid gid flags) := by
  have hop := exec_createAndOpen cfg s p n mode uid gid flags
  rcases creation_cases cfg s p n (s.newFile cfg mode uid gid)
    [.putDataLocation s.next cfg.defaultDataLocation.serverId] (touchDeltas (cfg.clock s.ticks))
    with ⟨e, h⟩ | ⟨he, h⟩
  · rw [h] at hop
    exact ends_of_error cfg s rfl rfl hop (Or.inl rfl)
  · rw [h] at hop
    unfold Server.Ends
    rw [Server.exec_eq rfl hop]
    have hx : ∀ o ∈ [BatchOp.putDataLocation s.next cfg.defaultDataLocation.serverId], o.IsPayload := by
      simp [BatchOp.IsPayload]
    have hl : (s.newFile cfg mode uid gid).nlink = 1 := rfl
    exact .madeOpen hl (fileType_reg mode) he rfl hx rfl rfl

theorem ends_link (p : Inode) (n : Name) (t : Inode) : s.Ends cfg (.link p n t) := by
  have hop := exec_link cfg s p n t
  by_cases hn : n.length > NAME_MAX
  · rw [if_pos hn] at hop
    exact ends_of_error cfg s rfl rfl hop (Or.inl rfl)
  rw [if_neg hn] at hop
  cases hcheck : s.db.linkCheck p n t with
  | error e =>
      rw [hcheck] at hop
      exact ends_of_error cfg s rfl rfl hop (Or.inl rfl)
  | ok iv =>
      rw [hcheck] at hop
      obtain ⟨hi, hd, he, hp⟩ := Db.linkCheck_ok hcheck
      unfold Server.Ends
      rw [Server.exec_eq rfl hop]
      exact .link hi hd he hp

theorem ends_unlink (p : Inode) (n : Name) : s.Ends cfg (.unlink p n) := by
  have hop := exec_unlink cfg s p n
  by_cases hn : n.length > NAME_MAX
  · rw [if_pos hn] at hop
    exact ends_of_error cfg s rfl rfl hop (Or.inl rfl)
  rw [if_neg hn] at hop
  cases hcheck : s.db.unlinkCheck p n with
  | error e =>
      rw [hcheck] at hop
      exact ends_of_error cfg s rfl rfl hop (Or.inl rfl)
  | ok r =>
      obtain ⟨v, iv⟩ := r
      rw [hcheck] at hop
      dsimp only at hop
      obtain ⟨he, hd, hi⟩ := Db.unlinkCheck_ok hcheck
      unfold Server.Ends
      by_cases hdrop : iv.nlink - 1 = 0 ∧ s.handles v.inode = 0
      · rw [if_pos hdrop] at hop
        rw [Server.exec_eq rfl hop]
        exact .unlinkDrop he hd hi hdrop.1 hdrop.2
      · rw [if_neg hdrop] at hop
        rw [Server.exec_eq rfl hop]
        exact .unlinkKeep he hd hi hdrop

theorem ends_rmdir (p : Inode) (n : Name) : s.Ends cfg (.rmdir p n) := by
  have hop := exec_rmdir cfg s p n
  by_cases hn : n.length > NAME_MAX
  · rw [if_pos hn] at hop
    exact ends_of_error cfg s rfl rfl hop (Or.inl rfl)
  rw [if_neg hn] at hop
  cases hcheck : s.db.rmdirCheck p n with
  | error e =>
      rw [hcheck] at hop
      exact ends_of_error cfg s rfl rfl hop (Or.inl rfl)
  | ok v =>
      rw [hcheck] at hop
      obtain ⟨he, hd, ⟨iv, hi⟩, hemp⟩ := Db.rmdirCheck_ok hcheck
      unfold Server.Ends
      rw [Server.exec_eq rfl hop]
      exact .rmdir he hd hi hemp

theorem ends_rename (p : Inode) (n : Name) (np : Inode) (nn : Name) :
    s.Ends cfg (.rename p n np nn) := by
  have hop := exec_rename cfg s p n np nn
  by_cases hn : n.length > NAME_MAX
  · rw [if_pos hn] at hop
    exact ends_of_error cfg s rfl rfl hop (Or.inl rfl)
  by_cases hnn : nn.length > NAME_MAX
  · rw [if_neg hn, if_pos hnn] at hop
    exact ends_of_error cfg s rfl rfl hop (Or.inl rfl)
  rw [if_neg hn, if_neg hnn] at hop
  unfold Server.renaming at hop
  cases hsrc : s.db.renameSource p n with
  | error e =>
      rw [hsrc] at hop
      exact ends_of_error cfg s rfl rfl hop (Or.inl rfl)
  | ok r =>
      obtain ⟨src, srcIv⟩ := r
      rw [hsrc] at hop
      dsimp only at hop
      obtain ⟨v, he, rfl, hi⟩ := Db.renameSource_ok hsrc
      cases hvic : s.db.renameVictim (isDir srcIv.mode) (cfg.clock s.ticks) (s.db.entry np nn) with
      | error e =>
          rw [hvic] at hop
          exact ends_of_error cfg s rfl rfl hop (Or.inr rfl)
      | ok vic =>
          rw [hvic] at hop
          obtain ⟨hv, hemp⟩ := Db.renameVictim_ok hvic
          unfold Server.Ends
          rw [Server.exec_eq rfl hop]
          exact .rename he hi hv hemp

theorem ends_lookup (p : Inode) (n : Name) : s.Ends cfg (.lookup p n) := by
  have hop := exec_lookup cfg s p n
  by_cases hn : n.length > NAME_MAX
  · rw [if_pos hn] at hop
    exact ends_of_error cfg s rfl rfl hop (Or.inl rfl)
  rw [if_neg hn] at hop
  cases he : s.db.entry p n with
  | none =>
      rw [he] at hop
      exact ends_of_error cfg s rfl rfl hop (Or.inl rfl)
  | some v =>
      rw [he] at hop
      exact ends_of_load cfg s v.inode rfl (Or.inr rfl) hop

theorem ends_forceCompactInode (i : Inode) : s.Ends cfg (.forceCompactInode i) := by
  obtain ⟨tx', hop⟩ := exec_forceCompactInode cfg s i {}
  unfold Server.Ends
  by_cases hk : (s.db.scanDeltas i).isEmpty
  · rw [if_pos hk] at hop
    rw [Server.exec_eq rfl hop]
    exact .idle
  rw [if_neg hk] at hop
  cases hi : s.db.inode i with
  | none =>
      rw [hi] at hop
      rw [Server.exec_eq rfl hop]
      exact .idle
  | some base =>
      rw [hi] at hop
      rw [Server.exec_eq rfl hop]
      exact .compacted hi

theorem SetAttrRequest.fileType_apply (req : SetAttrRequest) (ts : Nat) (iv : InodeValue) :
    fileType (req.apply ts iv).1.mode = fileType iv.mode := by
  have hm : (req.apply ts iv).1.mode = (req.applyFields iv).mode := by
    unfold SetAttrRequest.apply SetAttrRequest.applySize
    dsimp only
    split
    · rfl
    · split <;> rfl
  rw [hm]
  unfold SetAttrRequest.applyFields
  dsimp only
  split
  · exact fileType_chmod _ _
  · rfl

theorem SetAttrRequest.nlink_apply (req : SetAttrRequest) (ts : Nat) (iv : InodeValue) :
    (req.apply ts iv).1.nlink = iv.nlink := by
  unfold SetAttrRequest.apply SetAttrRequest.applySize
  dsimp only
  split
  · rfl
  · split <;> rfl

theorem ends_setattr (i : Inode) (req : SetAttrRequest) : s.Ends cfg (.setattr i req) := by
  have hop := exec_setattr cfg s i req
  cases hi : s.db.inode i with
  | none =>
      rw [hi] at hop
      exact ends_of_error cfg s rfl rfl hop (Or.inl rfl)
  | some raw =>
      rw [hi] at hop
      unfold Server.Ends
      rw [Server.exec_eq rfl hop]
      exact .rewrite .setattr hi (req.fileType_apply (cfg.clock s.ticks) raw)
        (req.nlink_apply (cfg.clock s.ticks) raw) rfl (Or.inr rfl)

theorem ends_reportWrite (i : Inode) (newSize mtime : Nat) :
    s.Ends cfg (.reportWrite i newSize mtime) := by
  have hop := exec_reportWrite cfg s i newSize mtime
  cases hi : s.db.inode i with
  | none =>
      rw [hi] at hop
      exact ends_of_error cfg s rfl rfl hop (Or.inl rfl)
  | some raw =>
      rw [hi] at hop
      unfold Server.Ends
      rw [Server.exec_eq rfl hop]
      have ht : fileType (raw.written newSize mtime).mode = fileType raw.mode := rfl
      exact .rewrite .reportWrite hi ht rfl rfl (Or.inl rfl)

theorem ends_openFile (i : Inode) (flags : Nat) : s.Ends cfg (.openFile i flags) := by
  have hop := exec_openFile cfg s i flags
  obtain ⟨c, hc⟩ := s.load_snd i
  rcases hl : s.load i with ⟨r, s'⟩
  have hs' : s' = (s.load i).2 := by rw [hl]
  have hr : (s.load i).1 = r := by rw [hl]
  have hdb : s'.db = s.db := by rw [hs', hc]
  have hticks : s'.ticks = s.ticks := by rw [hs', hc]
  rw [hl] at hop
  rw [hs'] at hop hdb hticks
  cases r with
  | error e => exact ends_of_load cfg s i rfl (Or.inl rfl) hop
  | ok iv =>
      dsimp only at hop
      split at hop
      · exact ends_of_load cfg s i rfl (Or.inl rfl) hop
      · rename_i hd
        split at hop
        · rw [hdb, hticks] at hop
          cases hi : s.db.inode i with
          | none =>
              rw [hi] at hop
              exact ends_of_load cfg s i rfl (Or.inl rfl) hop
          | some raw =>
              rw [hi] at hop
              unfold Server.Ends
              rw [Server.exec_eq rfl hop]
              exact .openedTrunc hr (by simpa using hd) hi
        · unfold Server.Ends
          rw [Server.exec_eq rfl hop]
          exact .opened

theorem ends_release (i : Inode) : s.Ends cfg (.release i) := by
  have hop := exec_release cfg s i
  unfold Server.Ends
  cases hp : (s.checkAndClearDeferredDelete i).1
  · rw [hp, if_neg (by simp)] at hop
    rw [Server.exec_eq rfl hop]
    exact .released hp
  · rw [hp, if_pos rfl] at hop
    rw [Server.exec_eq rfl hop]
    exact .releasedDrop hp

/-- **Every call has an outcome.** -/
theorem exec_outcome (c : Call) : Outcome cfg s c (s.exec cfg c).1 (s.exec cfg c).2 := by
  cases c with
  | lookup p n => exact ends_lookup cfg s p n
  | getattr i => exact ends_of_load cfg s i rfl (Or.inr rfl) (exec_getattr cfg s i)
  | setattr i req => exact ends_setattr cfg s i req
  | readdir i => exact ends_of_load cfg s i rfl (Or.inr rfl) (exec_readdir cfg s i)
  | create p n mode uid gid => exact ends_create cfg s p n mode uid gid
  | createAndOpen p n mode uid gid flags => exact ends_createAndOpen cfg s p n mode uid gid flags
  | mkdir p n mode uid gid => exact ends_mkdir cfg s p n mode uid gid
  | unlink p n => exact ends_unlink cfg s p n
  | rmdir p n => exact ends_rmdir cfg s p n
  | rename p n np nn => exact ends_rename cfg s p n np nn
  | openFile i flags => exact ends_openFile cfg s i flags
  | reportWrite i newSize mtime => exact ends_reportWrite cfg s i newSize mtime
  | link p n t => exact ends_link cfg s p n t
  | symlink p n target uid gid => exact ends_symlink cfg s p n target uid gid
  | readlink i =>
      obtain ⟨r, h⟩ := exec_readlink cfg s i
      exact ends_of_load cfg s i rfl (Or.inr rfl) h
  | release i => exact ends_release cfg s i
  | forceCompactInode i => exact ends_forceCompactInode cfg s i

end

end RucksFs
