import RucksFs.Client.Fuse
import RucksFs.Server.Effect

/-!
# Names of the kernel

A file name of the kernel is any byte string of 1 to 255 bytes without `/` and NUL.  `FuseClient` works with its
text; the metadata server keys directory entries by the bytes of that text and refuses texts of more than
`NAME_MAX` bytes.

* `NameCall` — the nine callbacks that carry names; `NameCall.answer` is one of them, with its errno.
* `answer_request` — a callback is a request to the metadata server under the texts of its names.
* `told_apart_iff` — two names are told apart, and neither is refused as too long, exactly when their texts differ
  and fit.
* `told_apart_of_valid` — names that are UTF-8 are.
* `names_collide` — others need not be.
-/

set_option autoImplicit false

namespace RucksFs

/-- A callback that carries names. -/
inductive NameCall where
  | lookup (parent : Inode) (name : List Byte)
  | create (parent : Inode) (name : List Byte) (mode flags uid gid : Nat)
  | mkdir (parent : Inode) (name : List Byte) (mode umask uid gid : Nat)
  | mknod (parent : Inode) (name : List Byte) (mode uid gid : Nat)
  | unlink (parent : Inode) (name : List Byte)
  | rmdir (parent : Inode) (name : List Byte)
  | rename (parent : Inode) (name : List Byte) (newParent : Inode) (newName : List Byte)
  | link (inode newParent : Inode) (newName : List Byte)
  | symlink (parent : Inode) (name target : List Byte) (uid gid : Nat)

namespace NameCall

variable {δ : Type}

/-- The errno of an operation, and the state after it. -/
def report {α : Type} (S : VfsSetup δ) (x : VfsOp α) (v : VfsState δ) : Option Errno × VfsState δ :=
  (errorOf (v.fuse S x).1, (v.fuse S x).2)

/-- One callback. -/
def answer (S : VfsSetup δ) : NameCall → VfsState δ → Option Errno × VfsState δ
  | .lookup p n => report S (FuseClient.lookup p n)
  | .create p n mode flags uid gid => report S (FuseClient.create p n mode flags uid gid)
  | .mkdir p n mode umask uid gid => report S (FuseClient.mkdir p n mode umask uid gid)
  | .mknod p n mode uid gid => report S (FuseClient.mknod p n mode uid gid)
  | .unlink p n => report S (FuseClient.unlink p n)
  | .rmdir p n => report S (FuseClient.rmdir p n)
  | .rename p n np nn => report S (FuseClient.rename p n np nn)
  | .link i np nn => report S (FuseClient.link i np nn)
  | .symlink p n t uid gid => report S (FuseClient.symlink p n t uid gid)

/-- The file names it carries. -/
def names : NameCall → List (List Byte)
  | .lookup _ n | .create _ n .. | .mkdir _ n .. | .mknod _ n .. | .unlink _ n | .rmdir _ n | .link _ _ n
  | .symlink _ n .. => [n]
  | .rename _ n _ nn => [n, nn]

/-- The entry it would make. -/
def creates : NameCall → Option (Inode × List Byte)
  | .create p n .. | .mkdir p n .. | .mknod p n .. | .symlink p n .. => some (p, n)
  | .link _ np nn => some (np, nn)
  | .rename _ _ np nn => some (np, nn)
  | .lookup .. | .unlink .. | .rmdir .. => none

/-- The entry that it looks up, makes or removes. -/
def probes : NameCall → Inode × List Byte
  | .lookup p n | .create p n .. | .mkdir p n .. | .mknod p n .. | .unlink p n | .rmdir p n | .rename p n _ _
  | .symlink p n .. => (p, n)
  | .link _ np nn => (np, nn)

/-- It finds that entry: a lookup succeeds, a creation is refused because of it, a removal gets at it. -/
def Finds (S : VfsSetup δ) (v : VfsState δ) (c : NameCall) : Prop :=
  match c with
  | .lookup .. => (c.answer S v).1 = none
  | .create .. | .mkdir .. | .mknod .. | .link .. | .symlink .. => (c.answer S v).1 = some .eexist
  | .unlink .. | .rmdir .. | .rename .. =>
      (c.answer S v).1 ≠ some .enoent ∧ (c.answer S v).1 ≠ some .enametoolong

/-! ## Requests -/

/-- The request to the metadata server; `mknod` of a special file makes none. -/
def request : NameCall → Option MetadataOp
  | .lookup p n => some (.lookup p (toStringLossy n))
  | .create p n mode flags uid gid => some (.createAndOpen p (toStringLossy n) (mode &&& 0o7777) uid gid flags)
  | .mkdir p n mode umask uid gid =>
      some (.mkdir p (toStringLossy n) (mode &&& (0xffffffff ^^^ umask) &&& 0o7777) uid gid)
  | .mknod p n mode uid gid =>
      if fileType mode ≠ S_IFREG ∧ fileType mode ≠ 0 then none
      else some (.create p (toStringLossy n) (mode &&& 0o7777) uid gid)
  | .unlink p n => some (.unlink p (toStringLossy n))
  | .rmdir p n => some (.rmdir p (toStringLossy n))
  | .rename p n np nn => some (.rename p (toStringLossy n) np (toStringLossy nn))
  | .link i np nn => some (.link np (toStringLossy nn) i)
  | .symlink p n t uid gid => some (.symlink p (toStringLossy n) (toStringLossy t) uid gid)

end NameCall

section

variable {δ α β : Type} {S : VfsSetup δ} {v : VfsState δ} {m : MetadataOp}

/-- An operation that asks the metadata server `m` and fails only with it. -/
def Carries (S : VfsSetup δ) (v : VfsState δ) (m : MetadataOp) (x : VfsOp α) : Prop :=
  errorOf (v.run S x).1 = errorOf (v.server.serve S.cfg m).1 ∧
    (v.run S x).2.server = (v.server.serve S.cfg m).2

theorem Carries.metadata (m : MetadataOp) : Carries S v m (VfsOp.metadata m) := ⟨rfl, rfl⟩

/-- The rest of the operation succeeds and leaves the metadata server alone. -/
theorem Carries.bind {x : VfsOp α} {f : α → VfsOp β} (hx : Carries S v m x)
    (hf : ∀ a u, errorOf (VfsState.run S (f a) u).1 = none ∧ (VfsState.run S (f a) u).2.server = u.server) :
    Carries S v m (x >>= f) := by
  obtain ⟨herr, hserver⟩ := hx
  unfold Carries
  rw [VfsState.run_bind]
  rcases hr : v.run S x with ⟨r, u⟩
  rw [hr] at herr hserver
  cases r with
  | error e => exact ⟨herr, hserver⟩
  | ok a => exact ⟨(hf a u).1.trans herr, (hf a u).2.trans hserver⟩

theorem Carries.map {x : VfsOp α} (hx : Carries S v m x) (f : α → β) :
    Carries S v m (x >>= fun a => pure (f a)) :=
  hx.bind fun _ _ => ⟨rfl, rfl⟩

theorem Carries.purge {x : VfsOp (List Inode)} (hx : Carries S v m x) :
    Carries S v m (x >>= VfsOp.deletePurged) := by
  apply hx.bind
  intro purged u
  obtain ⟨data, h⟩ := VfsState.run_deletePurged S purged u
  rw [h]
  exact ⟨rfl, rfl⟩

theorem Carries.report {x : VfsOp α} (hx : Carries S v m x) :
    (NameCall.report S x v).1 = (errorOf (v.server.serve S.cfg m).1).map fsErrorToErrno ∧
      (NameCall.report S x v).2.server = (v.server.serve S.cfg m).2 := by
  refine ⟨?_, hx.2⟩
  rw [← hx.1]
  unfold NameCall.report VfsState.fuse
  cases (v.run S x).1 <;> rfl

/-- **A callback is a request under the texts of its names.** -/
theorem answer_request {c : NameCall} (h : c.request = some m) :
    (c.answer S v).1 = (errorOf (v.server.serve S.cfg m).1).map fsErrorToErrno ∧
      (c.answer S v).2.server = (v.server.serve S.cfg m).2 := by
  cases c with
  | lookup p n =>
      cases h
      exact ((Carries.metadata (.lookup p (toStringLossy n))).map replyEntry).report
  | create p n mode flags uid gid =>
      cases h
      have hopen := (Carries.metadata (S := S) (v := v) (.createAndOpen p (toStringLossy n) (mode &&& 0o7777) uid gid
        flags)).bind (f := fun resp : CreateAndOpenResponse => do
          VfsOp.eff (.handleInsert resp.handle resp.dataLocation.serverId)
          return (resp.attr, resp.handle)) fun _ _ => ⟨rfl, rfl⟩
      exact (hopen.map fun r => (⟨TTL, toFuse3Attr r.1, 0, r.2, 0⟩ : ReplyCreated)).report
  | mkdir p n mode umask uid gid =>
      cases h
      exact ((Carries.metadata (.mkdir p (toStringLossy n) (mode &&& (0xffffffff ^^^ umask) &&& 0o7777) uid gid)).map
        replyEntry).report
  | mknod p n mode uid gid =>
      unfold NameCall.request at h
      dsimp only at h
      split at h
      · cases h
      · rename_i hmode
        cases h
        have hop : FuseClient.mknod p n mode uid gid =
            (VfsOp.metadata (.create p (toStringLossy n) (mode &&& 0o7777) uid gid) >>= fun attr : FileAttr =>
              pure (replyEntry attr)) := by
          unfold FuseClient.mknod
          rw [if_neg hmode]
          rfl
        unfold NameCall.answer
        dsimp only
        rw [hop]
        exact ((Carries.metadata (.create p (toStringLossy n) (mode &&& 0o7777) uid gid)).map replyEntry).report
  | unlink p n =>
      cases h
      have hx : Carries S v (.unlink p (toStringLossy n)) (VfsCore.unlink p (toStringLossy n)) :=
        Carries.purge (Carries.metadata (.unlink p (toStringLossy n)))
      exact hx.report
  | rmdir p n =>
      cases h
      exact (Carries.metadata (.rmdir p (toStringLossy n))).report
  | rename p n np nn =>
      cases h
      have hx : Carries S v (.rename p (toStringLossy n) np (toStringLossy nn))
          (VfsCore.rename p (toStringLossy n) np (toStringLossy nn)) :=
        Carries.purge (Carries.metadata (.rename p (toStringLossy n) np (toStringLossy nn)))
      exact hx.report
  | link i np nn =>
      cases h
      exact ((Carries.metadata (.link np (toStringLossy nn) i)).map replyEntry).report
  | symlink p n t uid gid =>
      cases h
      exact ((Carries.metadata (.symlink p (toStringLossy n) (toStringLossy t) uid gid)).map replyEntry).report

end

/-! ## Answers of the metadata server -/

theorem tooLong_iff {e : Option FsError} : e.map fsErrorToErrno = some .enametoolong ↔ e = some .nameTooLong := by
  rcases e with _ | _ | _ <;> simp [fsErrorToErrno]

theorem exists_iff {e : Option FsError} : e.map fsErrorToErrno = some .eexist ↔ e = some .alreadyExists := by
  rcases e with _ | _ | _ <;> simp [fsErrorToErrno]

section

variable (cfg : Config) (s : Server) (p np : Inode) (n nn : Name)

theorem errorOf_load (i : Inode) : errorOf (s.load i).1 = none ∨ errorOf (s.load i).1 = some .notFound := by
  unfold Server.load
  split
  · exact Or.inl rfl
  · split
    · exact Or.inl rfl
    · exact Or.inr rfl

/-- A creation is refused for a long name and for an entry. -/
theorem errorOf_creation (iv : InodeValue) (extra : List BatchOp) (ds : List DeltaOp) :
    errorOf (s.creation cfg p n iv extra ds).1 =
      if n.length > NAME_MAX then some .nameTooLong
      else if (s.db.entry p n).isSome then some .alreadyExists
      else none := by
  unfold Server.creation
  split
  · rfl
  · split <;> rfl

theorem errorOf_lookup : errorOf (s.serve cfg (.lookup p n)).1 =
    if n.length > NAME_MAX then some .nameTooLong
    else match s.db.entry p n with
      | none => some .notFound
      | some v => errorOf (s.load v.inode).1 := by
  show errorOf (Op.exec cfg (lookup p n) ({}, s)).1 = _
  rw [exec_lookup]
  split
  · rfl
  · cases s.db.entry p n with
    | none => rfl
    | some v =>
        dsimp only
        cases (s.load v.inode).1 <;> rfl

theorem errorOf_link (t : Inode) : errorOf (s.serve cfg (.link p n t)).1 =
    if n.length > NAME_MAX then some .nameTooLong else errorOf (s.db.linkCheck p n t) := by
  show errorOf (Op.exec cfg (link cfg p n t) ({}, s)).1 = _
  rw [exec_link]
  split
  · rfl
  · cases s.db.linkCheck p n t <;> rfl

theorem errorOf_unlink : errorOf (s.serve cfg (.unlink p n)).1 =
    if n.length > NAME_MAX then some .nameTooLong else errorOf (s.db.unlinkCheck p n) := by
  show errorOf (Op.exec cfg (unlink cfg p n) ({}, s)).1 = _
  rw [exec_unlink]
  split
  · rfl
  · cases s.db.unlinkCheck p n with
    | error e => rfl
    | ok r =>
        dsimp only
        split <;> rfl

theorem errorOf_rmdir : errorOf (s.serve cfg (.rmdir p n)).1 =
    if n.length > NAME_MAX then some .nameTooLong else errorOf (s.db.rmdirCheck p n) := by
  show errorOf (Op.exec cfg (rmdir cfg p n) ({}, s)).1 = _
  rw [exec_rmdir]
  split
  · rfl
  · cases s.db.rmdirCheck p n <;> rfl

theorem errorOf_rename : errorOf (s.serve cfg (.rename p n np nn)).1 =
    if n.length > NAME_MAX then some .nameTooLong
    else if nn.length > NAME_MAX then some .nameTooLong
    else errorOf (s.renaming cfg p n np nn).1 := by
  show errorOf (Op.exec cfg (rename cfg p n np nn) ({}, s)).1 = _
  rw [exec_rename]
  split
  · rfl
  · split
    · rfl
    · rcases s.renaming cfg p n np nn with ⟨r, s'⟩
      cases r <;> rfl

theorem errorOf_createAndOpen (mode uid gid flags : Nat) :
    errorOf (s.serve cfg (.createAndOpen p n mode uid gid flags)).1 =
      if n.length > NAME_MAX then some .nameTooLong
      else if (s.db.entry p n).isSome then some .alreadyExists
      else none := by
  show errorOf (Op.exec cfg (createAndOpen cfg p n mode uid gid flags) ({}, s)).1 = _
  rw [exec_createAndOpen, ← errorOf_creation cfg s p n (s.newFile cfg mode uid gid)
    [.putDataLocation s.next cfg.defaultDataLocation.serverId] (touchDeltas (cfg.clock s.ticks))]
  rcases s.creation cfg p n (s.newFile cfg mode uid gid)
    [.putDataLocation s.next cfg.defaultDataLocation.serverId] (touchDeltas (cfg.clock s.ticks)) with ⟨r, s'⟩
  cases r <;> rfl

/-! ### Names that fit -/

theorem linkCheck_ne_tooLong (t : Inode) : errorOf (s.db.linkCheck p n t) ≠ some .nameTooLong := by
  unfold Db.linkCheck
  repeat' split
  all_goals simp [errorOf]

theorem linkCheck_ne_exists (t : Inode) (h : s.db.entry p n = none) :
    errorOf (s.db.linkCheck p n t) ≠ some .alreadyExists := by
  unfold Db.linkCheck
  rw [h]
  repeat' split
  all_goals simp_all [errorOf]

theorem unlinkCheck_ne_tooLong : errorOf (s.db.unlinkCheck p n) ≠ some .nameTooLong := by
  unfold Db.unlinkCheck
  repeat' split
  all_goals simp [errorOf]

theorem rmdirCheck_ne_tooLong : errorOf (s.db.rmdirCheck p n) ≠ some .nameTooLong := by
  unfold Db.rmdirCheck
  repeat' split
  all_goals simp [errorOf]

theorem renameVictim_ne_tooLong (srcIsDir : Bool) (ts : Nat) (dst : Option DirValue) :
    errorOf (s.db.renameVictim srcIsDir ts dst) ≠ some .nameTooLong := by
  unfold Db.renameVictim
  repeat' split
  all_goals simp [errorOf]

theorem renameSource_ne_tooLong : errorOf (s.db.renameSource p n) ≠ some .nameTooLong := by
  unfold Db.renameSource
  repeat' split
  all_goals simp [errorOf]

theorem renaming_ne_tooLong : errorOf (s.renaming cfg p n np nn).1 ≠ some .nameTooLong := by
  have hsource := renameSource_ne_tooLong s p n
  unfold Server.renaming
  rcases hs : s.db.renameSource p n with e | ⟨src, iv⟩
  · rw [hs] at hsource
    exact hsource
  · have hvictim := renameVictim_ne_tooLong s (isDir iv.mode) (cfg.clock s.ticks) (s.db.entry np nn)
    dsimp only
    cases hv : s.db.renameVictim (isDir iv.mode) (cfg.clock s.ticks) (s.db.entry np nn) with
    | error e =>
        rw [hv] at hvictim
        exact hvictim
    | ok vic => simp [errorOf]

theorem lookup_ne_tooLong (h : n.length ≤ NAME_MAX) :
    errorOf (s.serve cfg (.lookup p n)).1 ≠ some .nameTooLong := by
  rw [errorOf_lookup, if_neg (Nat.not_lt.2 h)]
  cases s.db.entry p n with
  | none => simp
  | some v => rcases errorOf_load s v.inode with h | h <;> simp [h]

end

section

variable {δ : Type} {S : VfsSetup δ} {v : VfsState δ} {c : NameCall} {p : Inode} {n : List Byte}

/-- The error of a plain creation. -/
theorem errorOf_plainCreation {m : MetadataOp} (h : c.request = some m) (hc : c.creates = some (p, n))
    (hlink : ∀ i np nn, c ≠ .link i np nn) (hrename : ∀ q k np nn, c ≠ .rename q k np nn) :
    errorOf (v.server.serve S.cfg m).1 =
      if (toStringLossy n).length > NAME_MAX then some .nameTooLong
      else if (v.server.db.entry p (toStringLossy n)).isSome then some .alreadyExists
      else none := by
  cases c with
  | create q k mode flags uid gid =>
      cases h
      cases hc
      exact errorOf_createAndOpen S.cfg v.server p _ _ uid gid flags
  | mkdir q k mode umask uid gid =>
      cases h
      cases hc
      exact (congrArg (fun r : FsResult FileAttr × Txn × Server => errorOf r.1)
        (exec_mkdir S.cfg v.server p _ _ uid gid)).trans (errorOf_creation ..)
  | mknod q k mode uid gid =>
      unfold NameCall.request at h
      dsimp only at h
      split at h
      · cases h
      · cases h
        cases hc
        exact (congrArg (fun r : FsResult FileAttr × Txn × Server => errorOf r.1)
          (exec_create S.cfg v.server p _ _ uid gid)).trans (errorOf_creation ..)
  | symlink q k t uid gid =>
      cases h
      cases hc
      exact (congrArg (fun r : FsResult FileAttr × Txn × Server => errorOf r.1)
        (exec_symlink S.cfg v.server p _ _ uid gid)).trans (errorOf_creation ..)
  | link i np nn => exact absurd rfl (hlink i np nn)
  | rename q k np nn => exact absurd rfl (hrename q k np nn)
  | lookup q k => cases hc
  | unlink q k => cases hc
  | rmdir q k => cases hc

/-- `mknod` of a special file. -/
theorem answer_unsupported (h : c.request = none) : (c.answer S v).1 = some .eopnotsupp := by
  cases c with
  | mknod q k mode uid gid =>
      unfold NameCall.request at h
      dsimp only at h
      split at h
      · rename_i hmode
        have hop : FuseClient.mknod q k mode uid gid = throw .notImplemented := by
          unfold FuseClient.mknod
          rw [if_pos hmode]
          rfl
        unfold NameCall.answer
        dsimp only
        rw [hop]
        rfl
      · cases h
  | _ => cases h

/-- **Names whose texts fit are not refused as too long.** -/
theorem answer_ne_tooLong (h : ∀ n ∈ c.names, (toStringLossy n).length ≤ NAME_MAX) :
    (c.answer S v).1 ≠ some .enametoolong := by
  cases hreq : c.request with
  | none =>
      rw [answer_unsupported hreq]
      decide
  | some m =>
      rw [(answer_request hreq).1, Ne, tooLong_iff]
      have hplain : ∀ {p n}, c.creates = some (p, n) → n ∈ c.names → (∀ i np nn, c ≠ .link i np nn) →
          (∀ q k np nn, c ≠ .rename q k np nn) → errorOf (v.server.serve S.cfg m).1 ≠ some .nameTooLong := by
        intro p n hc hn hlink hrename
        rw [errorOf_plainCreation hreq hc hlink hrename, if_neg (Nat.not_lt.2 (h n hn))]
        split <;> simp
      cases c with
      | lookup p n =>
          cases hreq
          exact lookup_ne_tooLong S.cfg v.server p _ (h n List.mem_cons_self)
      | unlink p n =>
          cases hreq
          rw [errorOf_unlink, if_neg (Nat.not_lt.2 (h n List.mem_cons_self))]
          exact unlinkCheck_ne_tooLong v.server p _
      | rmdir p n =>
          cases hreq
          rw [errorOf_rmdir, if_neg (Nat.not_lt.2 (h n List.mem_cons_self))]
          exact rmdirCheck_ne_tooLong v.server p _
      | rename p n np nn =>
          cases hreq
          rw [errorOf_rename, if_neg (Nat.not_lt.2 (h n List.mem_cons_self)),
            if_neg (Nat.not_lt.2 (h nn (List.mem_cons_of_mem _ List.mem_cons_self)))]
          exact renaming_ne_tooLong S.cfg v.server p np _ _
      | link i np nn =>
          cases hreq
          rw [errorOf_link, if_neg (Nat.not_lt.2 (h nn List.mem_cons_self))]
          exact linkCheck_ne_tooLong v.server np _ i
      | create p n mode flags uid gid =>
          exact hplain rfl List.mem_cons_self (fun _ _ _ => nofun) fun _ _ _ _ => nofun
      | mkdir p n mode umask uid gid =>
          exact hplain rfl List.mem_cons_self (fun _ _ _ => nofun) fun _ _ _ _ => nofun
      | mknod p n mode uid gid =>
          exact hplain rfl List.mem_cons_self (fun _ _ _ => nofun) fun _ _ _ _ => nofun
      | symlink p n t uid gid =>
          exact hplain rfl List.mem_cons_self (fun _ _ _ => nofun) fun _ _ _ _ => nofun

/-- **Nothing is found under a name without an entry.** -/
theorem not_finds_of_entry (hp : c.probes = (p, n)) (h : v.server.db.entry p (toStringLossy n) = none) :
    ¬c.Finds S v := by
  have hplain : ∀ {p n}, c.creates = some (p, n) → v.server.db.entry p (toStringLossy n) = none →
      (∀ i np nn, c ≠ .link i np nn) → (∀ q k np nn, c ≠ .rename q k np nn) →
      (c.answer S v).1 ≠ some .eexist := by
    intro p n hc hnone hlink hrename
    cases hreq : c.request with
    | none =>
        rw [answer_unsupported hreq]
        decide
    | some m =>
        rw [(answer_request hreq).1, Ne, exists_iff, errorOf_plainCreation hreq hc hlink hrename, hnone]
        split <;> simp
  have hgone : ∀ {m : MetadataOp} {e : FsError}, c.request = some m →
      errorOf (v.server.serve S.cfg m).1 =
        (if (toStringLossy n).length > NAME_MAX then some .nameTooLong else some e) →
      e = .notFound ∨ e = .nameTooLong →
      ¬((c.answer S v).1 ≠ some .enoent ∧ (c.answer S v).1 ≠ some .enametoolong) := by
    rintro m e hreq herr he ⟨hne, hne'⟩
    rw [(answer_request hreq).1, herr] at hne hne'
    split at hne
    · rename_i hlong
      rw [if_pos hlong] at hne'
      exact hne' rfl
    · rename_i hshort
      rw [if_neg hshort] at hne'
      rcases he with rfl | rfl
      · exact hne rfl
      · exact hne' rfl
  cases c with
  | lookup q k =>
      cases hp
      intro hfound
      have hnone : (NameCall.answer S (.lookup p n) v).1 = none := hfound
      rw [(answer_request rfl).1, errorOf_lookup, h] at hnone
      split at hnone <;> cases hnone
  | unlink q k =>
      cases hp
      refine hgone (e := .notFound) rfl ?_ (Or.inl rfl)
      rw [errorOf_unlink]
      unfold Db.unlinkCheck
      rw [h]
      rfl
  | rmdir q k =>
      cases hp
      refine hgone (e := .notFound) rfl ?_ (Or.inl rfl)
      rw [errorOf_rmdir]
      unfold Db.rmdirCheck
      rw [h]
      rfl
  | rename q k np nn =>
      cases hp
      have hmissing : errorOf (v.server.renaming S.cfg p (toStringLossy n) np (toStringLossy nn)).1 = some .notFound := by
        unfold Server.renaming Db.renameSource
        rw [h]
        rfl
      refine hgone (e := if (toStringLossy nn).length > NAME_MAX then .nameTooLong else .notFound) rfl ?_ ?_
      · rw [errorOf_rename, hmissing]
        split
        · rfl
        · split <;> rfl
      · split
        · exact Or.inr rfl
        · exact Or.inl rfl
  | link i np nn =>
      cases hp
      intro hfound
      have hexists : (NameCall.answer S (.link i p n) v).1 = some .eexist := hfound
      rw [(answer_request rfl).1, exists_iff, errorOf_link] at hexists
      split at hexists
      · cases hexists
      · exact linkCheck_ne_exists v.server p (toStringLossy n) i h hexists
  | create q k mode flags uid gid =>
      cases hp
      exact hplain rfl h (fun _ _ _ => nofun) fun _ _ _ _ => nofun
  | mkdir q k mode umask uid gid =>
      cases hp
      exact hplain rfl h (fun _ _ _ => nofun) fun _ _ _ _ => nofun
  | mknod q k mode uid gid =>
      cases hp
      exact hplain rfl h (fun _ _ _ => nofun) fun _ _ _ _ => nofun
  | symlink q k t uid gid =>
      cases hp
      exact hplain rfl h (fun _ _ _ => nofun) fun _ _ _ _ => nofun

end

/-! ## Entries that a call leaves alone -/

/-- The entry that a call can put. -/
def Call.puts : Call → Option (Inode × Name)
  | .create p n _ _ _ | .createAndOpen p n _ _ _ _ | .mkdir p n _ _ _ | .symlink p n _ _ _ | .link p n _
  | .rename _ _ p n => some (p, n)
  | _ => none

/-- An entry comes into being by being put. -/
theorem Db.entry_none_applyBatch {db : Db} {p : Inode} {n : Name} {ops : List BatchOp} (h : db.entry p n = none)
    (hops : ∀ v, .putDirEntry p n v ∉ ops) : (db.applyBatch ops).entry p n = none := by
  induction ops generalizing db with
  | nil => exact h
  | cons op ops ih =>
      rw [applyBatch_cons]
      apply ih
      · rw [entry_applyOp]
        split
        · rename_i q k v
          rw [if_neg]
          · exact h
          · rintro ⟨rfl, rfl⟩
            exact hops v List.mem_cons_self
        · split
          · rfl
          · exact h
        · exact h
      · exact fun v hv => hops v (List.mem_cons_of_mem _ hv)

/-- A call makes no entry but its own. -/
theorem entry_none_effect {s s' : Server} {c : Call} {r : Reply} {p : Inode} {n : Name} (he : Effect s c r s')
    (h : s.db.entry p n = none) (hc : c.puts ≠ some (p, n)) : s'.db.entry p n = none := by
  have hcreate : ∀ {q k i iv} {extra : List BatchOp}, (∀ op ∈ extra, op.IsPayload) → (q, k) ≠ (p, n) →
      ∀ v, BatchOp.putDirEntry p n v ∉ BatchOp.putInode i iv :: .putDirEntry q k ⟨i, iv.mode⟩ :: extra := by
    intro q k i iv extra hx hne v hv
    rcases List.mem_cons.1 hv with heq | hv
    · cases heq
    · rcases List.mem_cons.1 hv with heq | hv
      · cases heq
        exact hne rfl
      · exact hx _ hv
  cases he with
  | quiet => exact h
  | made hmakes _ _ hx =>
      apply Db.entry_none_applyBatch h
      apply hcreate hx
      cases hmakes <;> exact fun heq => hc (congrArg some heq)
  | madeOpen _ _ _ hx =>
      apply Db.entry_none_applyBatch h
      exact hcreate hx fun heq => hc (congrArg some heq)
  | link ts _ _ _ _ =>
      apply Db.entry_none_applyBatch h
      intro v hv
      simp only [List.mem_cons, reduceCtorEq, List.not_mem_nil, or_false, false_or] at hv
      cases hv
      exact hc rfl
  | rename he' _ _ _ =>
      show Db.entry (Db.applyBatch _ _) p n = none
      rw [entry_renameOps]
      rw [if_neg]
      · split
        · rfl
        · exact h
      · rintro ⟨rfl, rfl⟩
        exact hc rfl
  | unlinkKeep | unlinkDefer | unlinkDrop | rmdir | rewrite | openedTrunc =>
      apply Db.entry_none_applyBatch h
      simp
  | opened => exact h
  | released =>
      rw [Server.checkAndClear_db]
      exact h
  | releasedDrop =>
      apply Db.entry_none_applyBatch
      · rw [Server.checkAndClear_db]
        exact h
      · simp

theorem entry_none_exec {s : Server} {c : Call} {p : Inode} {n : Name} (cfg : Config) (h : s.db.entry p n = none)
    (hc : c.puts ≠ some (p, n)) : (s.exec cfg c).2.db.entry p n = none := by
  obtain ⟨s₁, heffect, hbook⟩ := exec_effect cfg s c
  rw [hbook.entry]
  exact entry_none_effect heffect h hc

/-! ## Two names -/

section

variable {δ : Type} {S : VfsSetup δ} {v : VfsState δ} {c : NameCall} {p : Inode} {a b : List Byte}

theorem puts_request {m : MetadataOp} (hreq : c.request = some m) (hc : c.creates = some (p, a)) :
    ∃ call, m.call = some call ∧ call.puts = some (p, toStringLossy a) := by
  cases c with
  | mknod q k mode uid gid =>
      unfold NameCall.request at hreq
      dsimp only at hreq
      split at hreq
      · cases hreq
      · cases hreq
        cases hc
        exact ⟨_, rfl, rfl⟩
  | lookup => cases hc
  | unlink => cases hc
  | rmdir => cases hc
  | _ =>
      cases hreq
      cases hc
      exact ⟨_, rfl, rfl⟩

/-- Making an entry under one text makes none under another. -/
theorem entry_none_answer (hc : c.creates = some (p, a)) (hne : toStringLossy a ≠ toStringLossy b)
    (hok : (c.answer S v).1 = none) (h : v.server.db.entry p (toStringLossy b) = none) :
    (c.answer S v).2.server.db.entry p (toStringLossy b) = none := by
  cases hreq : c.request with
  | none =>
      rw [answer_unsupported hreq] at hok
      cases hok
  | some m =>
      obtain ⟨call, hcall, hputs⟩ := puts_request hreq hc
      rw [(answer_request hreq).2, Server.serve_snd, hcall]
      apply entry_none_exec S.cfg h
      rw [hputs]
      intro heq
      exact hne (Prod.ext_iff.1 (Option.some.inj heq)).2

theorem answer_mknod : (NameCall.answer S (.mknod p b 0 0 0) v).1 =
    if (toStringLossy b).length > NAME_MAX then some .enametoolong
    else if (v.server.db.entry p (toStringLossy b)).isSome then some .eexist
    else none := by
  have hreq : (NameCall.mknod p b 0 0 0).request = some (.create p (toStringLossy b) (0 &&& 0o7777) 0 0) := rfl
  rw [(answer_request hreq).1, errorOf_plainCreation hreq rfl (fun _ _ _ => nofun) fun _ _ _ _ => nofun]
  split
  · rfl
  · split <;> rfl

theorem mknod_finds_iff (h : (toStringLossy b).length ≤ NAME_MAX) :
    (NameCall.mknod p b 0 0 0).Finds S v ↔ (v.server.db.entry p (toStringLossy b)).isSome = true := by
  show (NameCall.answer S (.mknod p b 0 0 0) v).1 = some .eexist ↔ _
  rw [answer_mknod, if_neg (Nat.not_lt.2 h)]
  split <;> simp_all

theorem entry_mknod (h : (toStringLossy b).length ≤ NAME_MAX) (hnone : v.server.db.entry p (toStringLossy b) = none) :
    ((NameCall.answer S (.mknod p b 0 0 0) v).2.server.db.entry p (toStringLossy b)).isSome = true := by
  have hreq : (NameCall.mknod p b 0 0 0).request = some (.create p (toStringLossy b) (0 &&& 0o7777) 0 0) := rfl
  rw [(answer_request hreq).2]
  show ((Op.exec S.cfg (create S.cfg p (toStringLossy b) (0 &&& 0o7777) 0 0) ({}, v.server)).2.2.db.entry p
    (toStringLossy b)).isSome = true
  rw [exec_create]
  unfold Server.creation
  rw [if_neg (Nat.not_lt.2 h), hnone]
  dsimp only [Option.isSome_none]
  rw [if_neg Bool.false_ne_true, (Server.Bookkeeping.created ..).entry]
  refine congrArg Option.isSome (Eq.trans (Db.entry_of_put (Change.dirEntries_create ?_) p _) (if_pos ⟨rfl, rfl⟩))
  simp [BatchOp.IsSide]

end

/-- Nothing that was not found under `b` is found because `a` was made, and neither name is too long. -/
structure ToldApart (a b : List Byte) : Prop where
  apart : ∀ {δ : Type} (S : VfsSetup δ) (v : VfsState δ) (p : Inode) (c : NameCall), c.creates = some (p, a) →
    (c.answer S v).1 = none → (∀ k : NameCall, k.probes = (p, b) → ¬k.Finds S v) →
    ∀ k : NameCall, k.probes = (p, b) → ¬k.Finds S (c.answer S v).2
  fits : ∀ {δ : Type} (S : VfsSetup δ) (v : VfsState δ) (c : NameCall), (∀ n ∈ c.names, n = a ∨ n = b) →
    (c.answer S v).1 ≠ some .enametoolong

section

variable {a b : List Byte}

/-- A client of an empty file system. -/
def emptyVolume : VfsState (Nat → RawDisk) := ⟨Server.fresh {}, fun _ => ⟨.empty, 1024⟩, {}, 0⟩

def oneServer : VfsSetup (Nat → RawDisk) := .onDisks {} ⟨0, fun _ => none⟩

theorem ToldApart.length_le (h : ToldApart a b) {n : List Byte} (hn : n = a ∨ n = b) :
    (toStringLossy n).length ≤ NAME_MAX := by
  by_contra hlong
  apply h.fits oneServer emptyVolume (.lookup 1 n)
  · intro k hk
    rw [List.mem_singleton.1 hk]
    exact hn
  · rw [(answer_request rfl).1, errorOf_lookup, if_pos (Nat.not_le.1 hlong)]
    rfl

/-- In an empty root, a file made under one name is found under every name with the same text. -/
theorem ToldApart.texts_ne (h : ToldApart a b) : toStringLossy a ≠ toStringLossy b := by
  intro heq
  have ha := h.length_le (Or.inl rfl)
  have hb := h.length_le (Or.inr rfl)
  have hcreate : (NameCall.answer oneServer (.mknod 1 a 0 0 0) emptyVolume).1 = none := by
    rw [answer_mknod, if_neg (Nat.not_lt.2 ha)]
    rfl
  refine h.apart oneServer emptyVolume 1 (.mknod 1 a 0 0 0) rfl hcreate (fun k hk => not_finds_of_entry hk rfl)
    (.mknod 1 b 0 0 0) rfl ?_
  rw [mknod_finds_iff hb, ← heq]
  exact entry_mknod ha rfl

theorem ToldApart.of_texts (hne : toStringLossy a ≠ toStringLossy b) (ha : (toStringLossy a).length ≤ NAME_MAX)
    (hb : (toStringLossy b).length ≤ NAME_MAX) : ToldApart a b where
  apart := by
    intro δ S v p c hc hok hbefore k hk
    have hnone : v.server.db.entry p (toStringLossy b) = none := by
      have hmknod := hbefore (.mknod p b 0 0 0) rfl
      rw [mknod_finds_iff hb] at hmknod
      simpa using hmknod
    exact not_finds_of_entry hk (entry_none_answer hc hne hok hnone)
  fits := by
    intro δ S v c hnames
    apply answer_ne_tooLong
    intro n hn
    rcases hnames n hn with rfl | rfl
    · exact ha
    · exact hb

/-- **Names are told apart by their texts.** -/
theorem told_apart_iff (a b : List Byte) : ToldApart a b ↔
    toStringLossy a ≠ toStringLossy b ∧ (toStringLossy a).length ≤ NAME_MAX ∧
      (toStringLossy b).length ≤ NAME_MAX := by
  constructor
  · intro h
    exact ⟨h.texts_ne, h.length_le (Or.inl rfl), h.length_le (Or.inr rfl)⟩
  · rintro ⟨hne, ha, hb⟩
    exact .of_texts hne ha hb

/-- Names in UTF-8 are told apart. -/
theorem told_apart_of_valid (ha : Utf8.valid a = true) (hb : Utf8.valid b = true) (hne : a ≠ b)
    (hla : a.length ≤ NAME_MAX) (hlb : b.length ≤ NAME_MAX) : ToldApart a b := by
  have hta : toStringLossy a = a := Utf8.lossy_of_valid ha
  have htb : toStringLossy b = b := Utf8.lossy_of_valid hb
  apply ToldApart.of_texts
  · rw [hta, htb]
    exact hne
  · rw [hta]
    exact hla
  · rw [htb]
    exact hlb

end

/-- **Two names of the kernel are one name**: a file made as `FF` is found as `FE`, and deleted as `FE`; and a name of
255 bytes is refused as too long. -/
theorem names_collide :
    let v := (NameCall.answer oneServer (.create 1 [0xFF] 0o644 0 0 0) emptyVolume).2
    (NameCall.answer oneServer (.lookup 1 [0xFE]) emptyVolume).1 = some .enoent ∧
      (NameCall.answer oneServer (.create 1 [0xFF] 0o644 0 0 0) emptyVolume).1 = none ∧
      (NameCall.answer oneServer (.lookup 1 [0xFE]) v).1 = none ∧
      (NameCall.answer oneServer (.create 1 [0xFE] 0o644 0 0 0) v).1 = some .eexist ∧
      (NameCall.answer oneServer (.unlink 1 [0xFE]) v).1 = none ∧
      (NameCall.answer oneServer (.lookup 1 [0xFF]) (NameCall.answer oneServer (.unlink 1 [0xFE]) v).2).1 =
        some .enoent ∧
      (List.replicate 255 (0xFF : Byte)).length = NAME_MAX ∧
      (NameCall.answer oneServer (.create 1 (List.replicate 255 0xFF) 0o644 0 0 0) emptyVolume).1 =
        some .enametoolong := by
  decide +kernel

end RucksFs
