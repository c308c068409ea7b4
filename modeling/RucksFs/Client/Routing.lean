import Mathlib.Data.List.Induction
import RucksFs.Client.Core
import RucksFs.Locations

/-!
# Where data requests go

A `VfsCore` keeps one routing entry per inode.  Opening a file sets it and releasing the file removes it, so
the entry is there between an open and the next release.

* `sent_eq` — the data requests of every call, and the server each of them goes to.
* `handleMap_serve` — what a call does to the table, in terms of the metadata server's answer.
* `routed_while_open` — reads, writes and flushes of an open file reach its server, as long as no file is
  released while it has been opened more than once.
* `request_routed_iff` — deletions, truncations and all other requests reach the file's server exactly when the
  file has a routing entry, or its server is the default one.
-/

set_option autoImplicit false

namespace RucksFs

open VfsOp

/-- The inode a data request is about. -/
def DataCall.inode : DataCall → Nat
  | .readData i _ _ | .writeData i _ _ | .truncate i _ | .flush i | .deleteData i => i

namespace VfsState

variable {δ : Type} (S : VfsSetup δ) (v : VfsState δ)

/-! ## The requests of a call -/

/-- The deletions after an answer of the metadata server. -/
def deletions : FsResult (List Inode) → List DataCall
  | .ok purged => purged.map .deleteData
  | .error _ => []

/-- The truncation after an answer to `setattr`. -/
def truncations (i : Inode) : FsResult SetAttrResponse → List DataCall
  | .ok resp => (resp.needsTruncate.map (DataCall.truncate i)).toList
  | .error _ => []

/-- What a call asks of data servers. -/
def requests : VfsCall → List DataCall
  | .unlink p n => deletions (v.server.serve S.cfg (.unlink p n)).1
  | .rename p n np nn => deletions (v.server.serve S.cfg (.rename p n np nn)).1
  | .release i => deletions (v.server.serve S.cfg (.release i)).1
  | .setattr i req => truncations i (v.server.serve S.cfg (.setattr i req)).1
  | .read i off n => [.readData i off n]
  | .write i off data _ => [.writeData i off data]
  | .flush i => if v.core.writtenInodes i then [.flush i] else []
  | .fsync i _ => [.flush i]
  | _ => []

variable {S v} in
/-- A metadata request whose answer lists the inodes to delete. -/
theorem sends_purging {x : VfsOp (List Inode)} {g : List Inode → VfsOp Unit} (hx : v.sends S x = [])
    (hcore : (v.run S x).2.core = v.core)
    (hg : ∀ l (u : VfsState δ), u.sends S (g l) = l.map fun i => (u.core.resolveData S.reg i, .deleteData i)) :
    v.sends S (x >>= g) =
      (deletions (v.run S x).1).map fun dc => (v.core.resolveData S.reg dc.inode, dc) := by
  rw [sends_bind, hx]
  rcases hrun : v.run S x with ⟨r, u⟩
  have hu : u.core = v.core := by
    rw [hrun] at hcore
    exact hcore
  cases r with
  | error e => rfl
  | ok purged =>
      dsimp only
      rw [hg, hu]
      unfold deletions
      rw [List.map_map]
      rfl

theorem sends_release (i : Inode) (l : List Inode) (u : VfsState δ) :
    u.sends S (do
      deletePurged l
      eff (.handleRemove i)
      let _ ← eff (.writtenRemove i)
      return ()) = l.map fun i => (u.core.resolveData S.reg i, .deleteData i) := by
  obtain ⟨data, hrun⟩ := run_deletePurged S l u
  rw [sends_bind, hrun, sends_deletePurged]
  exact List.append_nil _

theorem sends_setattr (i : Inode) (resp : SetAttrResponse) (u : VfsState δ) :
    u.sends S (match resp.needsTruncate with
      | some size => do
          let ds ← VfsOp.resolveData i
          truncateData ds i size
          return resp.attr
      | none => return resp.attr) =
      (truncations i (.ok resp)).map fun dc => (u.core.resolveData S.reg dc.inode, dc) := by
  unfold truncations
  dsimp only
  cases resp.needsTruncate with
  | none => rfl
  | some size =>
      rw [sends_bind, run_resolveData]
      dsimp only
      rw [sends_bind]
      rcases run S (truncateData (u.core.resolveData S.reg i) i size) u with ⟨r, u'⟩
      cases r <;> rfl

/-- After the data was written only the metadata server is addressed. -/
theorem sends_report (i newEnd n : Nat) (u : VfsState δ) :
    u.sends S (do
      let ts ← eff .nowSecs
      let _ ← metadata (.reportWrite i newEnd ts)
      eff (.writtenInsert i)
      return n) = [] := by
  refine (sends_eff_bind S u .nowSecs _).trans ((sends_metadata_bind S _ (.reportWrite i newEnd _) _).trans ?_)
  generalize Server.serve S.cfg _ _ = o
  rcases o with ⟨r, s'⟩
  cases r <;> rfl

theorem sends_write (srv i off : Nat) (data : List Byte) {g : Nat → VfsOp Nat}
    (hg : ∀ n (u : VfsState δ), u.sends S (g n) = []) :
    v.sends S (writeData srv i off data >>= g) = [(srv, .writeData i off data)] := by
  rw [sends_bind]
  rcases v.run S (writeData srv i off data) with ⟨r, u⟩
  cases r with
  | error e => rfl
  | ok n =>
      dsimp only
      rw [hg]
      rfl

theorem sends_flush (i : Inode) (written : Bool) (u : VfsState δ) :
    u.sends S (do
      if !written then return ()
      let ds ← VfsOp.resolveData i
      flushData ds i) = if written then [(u.core.resolveData S.reg i, .flush i)] else [] := by
  cases written <;> rfl

/-- **Every data request goes where the table sends its inode** at the time of the call. -/
theorem sent_eq (c : VfsCall) :
    v.sent S c = (v.requests S c).map fun dc => (v.core.resolveData S.reg dc.inode, dc) := by
  cases c with
  | unlink p n => exact sends_purging (x := metadata (.unlink p n)) rfl rfl (sends_deletePurged S)
  | rename p n np nn => exact sends_purging (x := metadata (.rename p n np nn)) rfl rfl (sends_deletePurged S)
  | release i => exact sends_purging (x := metadata (.release i)) rfl rfl (sends_release S i)
  | setattr i req =>
      refine (sends_metadata_bind S v (.setattr i req) _).trans ?_
      show _ = (truncations i (v.server.serve S.cfg (.setattr i req)).1).map _
      rcases v.server.serve S.cfg (.setattr i req) with ⟨r, s'⟩
      cases r with
      | error e => rfl
      | ok resp => exact sends_setattr S i resp _
  | write i off data flags => exact sends_write S v _ i off data fun n u => sends_report S i (off + n) n u
  | flush i =>
      refine (sends_eff_bind S v (.writtenRemove i) _).trans ((sends_flush S i _ _).trans ?_)
      unfold requests
      dsimp only
      rw [apply_ite (List.map _)]
      rfl
  | createAndOpen p n mode uid gid flags =>
      refine (sends_metadata_bind S v (.createAndOpen p n mode uid gid flags) _).trans ?_
      rcases v.server.serve S.cfg (.createAndOpen p n mode uid gid flags) with ⟨r, s'⟩
      cases r <;> rfl
  | openFile i flags =>
      refine (sends_metadata_bind S v (.openFile i flags) _).trans ?_
      rcases v.server.serve S.cfg (.openFile i flags) with ⟨r, s'⟩
      cases r <;> rfl
  | _ => rfl

/-! ## The table -/

/-- A change of the routing table. -/
inductive HandleEvent where
  | opened (handle : Inode) (serverId : String)
  | released (inode : Inode)
  deriving DecidableEq

def HandleEvent.apply : Option HandleEvent → (Inode → Option String) → Inode → Option String
  | none, handleMap => handleMap
  | some (.opened i id), handleMap => Function.update handleMap i (some id)
  | some (.released i), handleMap => Function.update handleMap i none

def openedBy : FsResult OpenResponse → Option HandleEvent
  | .ok resp => some (.opened resp.handle resp.dataLocation.serverId)
  | .error _ => none

def createdBy : FsResult CreateAndOpenResponse → Option HandleEvent
  | .ok resp => some (.opened resp.handle resp.dataLocation.serverId)
  | .error _ => none

def releasedBy (i : Inode) : FsResult (List Inode) → Option HandleEvent
  | .ok _ => some (.released i)
  | .error _ => none

/-- What a call does to the table, by the answer that the metadata server gives it. -/
def handleEvent : VfsCall → Option HandleEvent
  | .openFile i flags => openedBy (v.server.serve S.cfg (.openFile i flags)).1
  | .createAndOpen p n mode uid gid flags =>
      createdBy (v.server.serve S.cfg (.createAndOpen p n mode uid gid flags)).1
  | .release i => releasedBy i (v.server.serve S.cfg (.release i)).1
  | _ => none

/-- What a call leaves: the metadata server has served at most one request, and the table has changed as
`ev` says. -/
structure Served (ev : Option HandleEvent) (v' : VfsState δ) : Prop where
  server : v'.server = v.server ∨ ∃ m, v'.server = (v.server.serve S.cfg m).2
  handleMap : v'.core.handleMap = HandleEvent.apply ev v.core.handleMap

/-- A part of a call without metadata requests, which changes the table as `ev` says. -/
def Changes {β : Type} (ev : Option HandleEvent) (x : VfsOp β) : Prop :=
  ∀ u : VfsState δ, (u.run S x).2.server = u.server ∧
    (u.run S x).2.core.handleMap = HandleEvent.apply ev u.core.handleMap

section

variable {S v} {α β : Type} {ev : Option HandleEvent} {u v' : VfsState δ}

theorem changes_deletePurged (l : List Inode) : Changes S none (deletePurged l) := by
  intro u
  obtain ⟨data, h⟩ := run_deletePurged S l u
  rw [h]
  exact ⟨rfl, rfl⟩

theorem changes_release (i : Inode) (l : List Inode) :
    Changes S (some (.released i)) (do
      deletePurged l
      eff (.handleRemove i)
      let _ ← eff (.writtenRemove i)
      return ()) := by
  intro u
  obtain ⟨data, h⟩ := run_deletePurged S l u
  rw [run_bind, h]
  exact ⟨rfl, rfl⟩

theorem changes_setattr (i : Inode) (resp : SetAttrResponse) :
    Changes S none (match resp.needsTruncate with
      | some size => do
          let ds ← VfsOp.resolveData i
          truncateData ds i size
          return resp.attr
      | none => return resp.attr) := by
  cases resp.needsTruncate with
  | none => exact fun u => ⟨rfl, rfl⟩
  | some size =>
      intro u
      dsimp only
      rw [run_bind, run_resolveData]
      dsimp only
      rw [run_bind]
      have hrun : (run S (truncateData (u.core.resolveData S.reg i) i size) u).2 =
        { u with data := (S.answer (u.core.resolveData S.reg i) (.truncate i size) u.data).2 } := rfl
      rcases h : run S (truncateData (u.core.resolveData S.reg i) i size) u with ⟨r, u'⟩
      rw [h] at hrun
      cases hrun
      cases r <;> exact ⟨rfl, rfl⟩

theorem changes_flush (i : Inode) (written : Bool) :
    Changes S none (do
      if !written then return ()
      let ds ← VfsOp.resolveData i
      flushData ds i) := by
  cases written <;> exact fun u => ⟨rfl, rfl⟩

theorem Served.congr (h : Served S u ev v') (hs : u.server = v.server) (hc : u.core = v.core) :
    Served S v ev v' :=
  ⟨by rw [← hs]; exact h.server, by rw [← hc]; exact h.handleMap⟩

/-- One metadata request, whose answer decides what becomes of the table. -/
theorem Served.metadata_bind (m : MetadataOp) (ev : FsResult m.Out → Option HandleEvent) {f : m.Out → VfsOp β}
    (herr : ∀ e, ev (.error e) = none) (hok : ∀ a, Changes S (ev (.ok a)) (f a)) :
    Served S v (ev (v.server.serve S.cfg m).1) (v.run S (metadata m >>= f)).2 := by
  rw [run_metadata_bind]
  rcases h : v.server.serve S.cfg m with ⟨r, s'⟩
  cases r with
  | error e =>
      rw [herr]
      exact ⟨Or.inr ⟨m, by rw [h]⟩, rfl⟩
  | ok a =>
      obtain ⟨hs, hm⟩ := hok a { v with server := s' }
      exact ⟨Or.inr ⟨m, by rw [h]; exact hs⟩, hm⟩

/-- A data request first; when it fails nothing else happens. -/
theorem Served.write_bind (srv i off : Nat) (data : List Byte) {g : Nat → VfsOp Nat}
    (hg : ∀ n (u : VfsState δ), Served S u none (u.run S (g n)).2) :
    Served S v none (v.run S (writeData srv i off data >>= g)).2 := by
  rw [run_bind]
  have hrun : (run S (writeData srv i off data) v).2 =
    { v with data := (S.answer srv (.writeData i off data) v.data).2 } := rfl
  rcases h : run S (writeData srv i off data) v with ⟨r, u⟩
  rw [h] at hrun
  cases hrun
  cases r with
  | error e => exact ⟨Or.inl rfl, rfl⟩
  | ok n => exact (hg n _).congr rfl rfl

theorem Served.report (i newEnd n : Nat) (u : VfsState δ) :
    Served S u none (u.run S (do
      let ts ← eff .nowSecs
      let _ ← metadata (.reportWrite i newEnd ts)
      eff (.writtenInsert i)
      return n)).2 := by
  have h : Served S { u with ticks := u.ticks + 1 } none _ :=
    metadata_bind (.reportWrite i newEnd (S.clock u.ticks)) (fun _ => none)
      (f := fun _ => eff (.writtenInsert i) >>= fun _ => pure n) (fun _ => rfl) fun _ _ => ⟨rfl, rfl⟩
  exact h.congr rfl rfl

end

/-- **What a call does** to the metadata server and to the table. -/
theorem serve_spec (c : VfsCall) : Served S v (v.handleEvent S c) (v.serve S c).2 := by
  cases c with
  | unlink p n => exact .metadata_bind (.unlink p n) (fun _ => none) (fun _ => rfl) changes_deletePurged
  | rename p n np nn => exact .metadata_bind (.rename p n np nn) (fun _ => none) (fun _ => rfl) changes_deletePurged
  | release i => exact .metadata_bind (.release i) (releasedBy i) (fun _ => rfl) (changes_release i)
  | setattr i req => exact .metadata_bind (.setattr i req) (fun _ => none) (fun _ => rfl) (changes_setattr i)
  | openFile i flags => exact .metadata_bind (.openFile i flags) openedBy (fun _ => rfl) fun _ _ => ⟨rfl, rfl⟩
  | createAndOpen p n mode uid gid flags =>
      exact .metadata_bind (.createAndOpen p n mode uid gid flags) createdBy (fun _ => rfl) fun _ _ => ⟨rfl, rfl⟩
  | write i off data flags => exact .write_bind _ i off data fun n u => .report i (off + n) n u
  | flush i =>
      obtain ⟨hs, hm⟩ := changes_flush (S := S) i (v.core.writtenInodes i) (handle S (.writtenRemove i) v).2
      exact ⟨Or.inl hs, hm⟩
  | read i off n => exact ⟨Or.inl rfl, rfl⟩
  | fsync i d => exact ⟨Or.inl rfl, rfl⟩
  | _ => exact ⟨Or.inr ⟨_, rfl⟩, rfl⟩

/-! ## Entries and stored locations -/

end VfsState

section

variable {s : Server} (cfg : Config) (m : MetadataOp)

theorem Server.Known.serve (h : s.Known) : (s.serve cfg m).2.Known := by
  rw [Server.serve_snd]
  split
  · exact h.exec cfg _
  · exact h

theorem Server.Known.next_le_serve (h : s.Known) : s.next ≤ (s.serve cfg m).2.next := by
  rw [Server.serve_snd]
  split
  · exact next_le_exec h.wf _
  · exact Nat.le_refl _

variable {cfg m}

theorem dataLocations_serve {j : Inode} (hj : j ≠ s.next) {id : String}
    (h : (s.serve cfg m).2.db.dataLocations.get j = some id) : s.db.dataLocations.get j = some id := by
  rw [Server.serve_snd] at h
  split at h
  · exact dataLocations_exec cfg s _ hj h
  · exact h

/-- `open` returns the number it was given and the stored location, if there is one. -/
theorem serve_openFile (h : s.Known) {i flags : Nat} {resp : OpenResponse}
    (hr : (s.serve cfg (.openFile i flags)).1 = .ok resp) : resp.handle = i ∧ i < s.next ∧
      resp.dataLocation.serverId = (s.db.dataLocations.get i).getD cfg.defaultDataLocation.serverId := by
  have hr : (Op.exec cfg (RucksFs.openFile cfg i flags) ({}, s)).1 = .ok resp := hr
  rw [exec_openFile] at hr
  obtain ⟨cache, hload⟩ := s.load_snd i
  rcases hl : s.load i with ⟨r, s'⟩
  rw [hl] at hr hload
  cases hload
  cases r with
  | error e => cases hr
  | ok iv =>
      have hok : (s.load i).1 = .ok iv := by rw [hl]
      have hlt : i < s.next := h.load_lt hok
      dsimp only at hr
      split at hr
      · cases hr
      · split at hr
        · split at hr
          · cases hr
          · cases hr
            exact ⟨rfl, hlt, rfl⟩
        · cases hr
          exact ⟨rfl, hlt, rfl⟩

/-- `create_and_open` returns the new number and the location it has stored for it. -/
theorem serve_createAndOpen {p : Inode} {n : Name} {mode uid gid flags : Nat} {resp : CreateAndOpenResponse}
    (hr : (s.serve cfg (.createAndOpen p n mode uid gid flags)).1 = .ok resp) :
    resp.handle = s.next ∧ (s.serve cfg (.createAndOpen p n mode uid gid flags)).2.next = s.next + 1 ∧
      (s.serve cfg (.createAndOpen p n mode uid gid flags)).2.db.dataLocations.get s.next =
        some resp.dataLocation.serverId := by
  have hop := exec_createAndOpen cfg s p n mode uid gid flags
  have hs : (s.serve cfg (.createAndOpen p n mode uid gid flags)).2 =
    (Op.exec cfg (RucksFs.createAndOpen cfg p n mode uid gid flags) ({}, s)).2.2 := rfl
  have hr : (Op.exec cfg (RucksFs.createAndOpen cfg p n mode uid gid flags) ({}, s)).1 = .ok resp := hr
  rw [hs]
  rcases creation_cases cfg s p n (s.newFile cfg mode uid gid)
    [.putDataLocation s.next cfg.defaultDataLocation.serverId] (touchDeltas (cfg.clock s.ticks)) with
    ⟨e, h⟩ | ⟨-, h⟩ <;> rw [h] at hop <;> rw [hop] at hr ⊢
  · cases hr
  · cases hr
    have hb := Server.Bookkeeping.created cfg s p n (s.newFile cfg mode uid gid)
      [.putDataLocation s.next cfg.defaultDataLocation.serverId] (touchDeltas (cfg.clock s.ticks))
    refine ⟨rfl, hb.next, (congrArg (OrdMap.get · s.next) hb.dataLocations).trans ?_⟩
    show (s.db.dataLocations.put s.next cfg.defaultDataLocation.serverId).get s.next = _
    rw [OrdMap.get_put, if_pos rfl]

/-- The data of `j` is at `id`: no other location is stored for `j`, nor will one be. -/
structure Server.Locates (s : Server) (j : Inode) (id : String) : Prop where
  lt : j < s.next
  agrees : ∀ {id'}, s.db.dataLocations.get j = some id' → id' = id

/-- Requests of any client leave data where it is. -/
theorem Server.Locates.served {j : Inode} {id : String} (h : s.Locates j id) (hk : s.Known) {s' : Server}
    (hs : s' = s ∨ ∃ m, s' = (s.serve cfg m).2) : s'.Locates j id := by
  rcases hs with rfl | ⟨m, rfl⟩
  · exact h
  · exact ⟨Nat.lt_of_lt_of_le h.lt (hk.next_le_serve cfg m),
      fun hl => h.agrees (dataLocations_serve (Nat.ne_of_lt h.lt) hl)⟩

theorem Server.Known.served (h : s.Known) {s' : Server} (hs : s' = s ∨ ∃ m, s' = (s.serve cfg m).2) :
    s'.Known := by
  rcases hs with rfl | ⟨m, rfl⟩
  · exact h
  · exact h.serve cfg m

end

namespace VfsState

variable {δ : Type} {S : VfsSetup δ} {v v' : VfsState δ}

theorem server_createAndOpen (p : Inode) (n : Name) (mode uid gid flags : Nat) :
    (v.serve S (.createAndOpen p n mode uid gid flags)).2.server =
      (v.server.serve S.cfg (.createAndOpen p n mode uid gid flags)).2 := by
  have hrun : (v.serve S (.createAndOpen p n mode uid gid flags)).2 = _ :=
    congrArg Prod.snd (run_metadata_bind S v (.createAndOpen p n mode uid gid flags) _)
  rw [hrun]
  rcases v.server.serve S.cfg (.createAndOpen p n mode uid gid flags) with ⟨r, s'⟩
  cases r <;> rfl

/-- An open gets the location of the file. -/
theorem locates_opened (hk : v.server.Known) {c : VfsCall} {j : Inode} {id : String}
    (he : v.handleEvent S c = some (.opened j id)) : (v.serve S c).2.server.Locates j id := by
  cases c with
  | openFile i flags =>
      have he : openedBy (v.server.serve S.cfg (.openFile i flags)).1 = _ := he
      cases hr : (v.server.serve S.cfg (.openFile i flags)).1 with
      | error e => rw [hr] at he; cases he
      | ok resp =>
          rw [hr] at he
          cases he
          obtain ⟨hhandle, hlt, hid⟩ := serve_openFile hk hr
          rw [hhandle, hid]
          have hloc : v.server.Locates i
              ((v.server.db.dataLocations.get i).getD S.cfg.defaultDataLocation.serverId) :=
            ⟨hlt, fun hl => by rw [hl]; rfl⟩
          exact hloc.served hk (serve_spec S v (.openFile i flags)).server
  | createAndOpen p n mode uid gid flags =>
      have he : createdBy (v.server.serve S.cfg (.createAndOpen p n mode uid gid flags)).1 = _ := he
      cases hr : (v.server.serve S.cfg (.createAndOpen p n mode uid gid flags)).1 with
      | error e => rw [hr] at he; cases he
      | ok resp =>
          rw [hr] at he
          cases he
          obtain ⟨hhandle, hnext, hloc⟩ := serve_createAndOpen hr
          rw [server_createAndOpen, hhandle]
          exact ⟨hnext ▸ Nat.lt_succ_self _, fun hl => Option.some.inj (hl.symm.trans hloc)⟩
  | release i =>
      have he : releasedBy i (v.server.serve S.cfg (.release i)).1 = _ := he
      cases hr : (v.server.serve S.cfg (.release i)).1 <;> rw [hr] at he <;> cases he
  | _ => cases he

/-- Only `release` takes an entry away. -/
theorem eq_release_of_released {c : VfsCall} {j : Inode} (he : v.handleEvent S c = some (.released j)) :
    c = .release j := by
  cases c with
  | openFile i flags =>
      have he : openedBy (v.server.serve S.cfg (.openFile i flags)).1 = _ := he
      cases hr : (v.server.serve S.cfg (.openFile i flags)).1 <;> rw [hr] at he <;> cases he
  | createAndOpen p n mode uid gid flags =>
      have he : createdBy (v.server.serve S.cfg (.createAndOpen p n mode uid gid flags)).1 = _ := he
      cases hr : (v.server.serve S.cfg (.createAndOpen p n mode uid gid flags)).1 <;> rw [hr] at he <;> cases he
  | release i =>
      have he : releasedBy i (v.server.serve S.cfg (.release i)).1 = _ := he
      cases hr : (v.server.serve S.cfg (.release i)).1 <;> rw [hr] at he <;> cases he
      rfl
  | _ => cases he

/-- Every entry says where the data is. -/
structure Routed (v : VfsState δ) : Prop where
  known : v.server.Known
  locates : ∀ {j id}, v.core.handleMap j = some id → v.server.Locates j id

end VfsState

/-! ## Runs -/

/-- A run is made of the calls on one `VfsCore` and the metadata requests of other clients. -/
inductive VfsEvent where
  | own (c : VfsCall)
  | other (m : MetadataOp)

namespace VfsEvent

open VfsState

variable {δ : Type} {S : VfsSetup δ} {v₀ v : VfsState δ} {es : List (VfsEvent × Option HandleEvent)} {i : Inode}

def step (S : VfsSetup δ) : VfsEvent → VfsState δ → Option HandleEvent × VfsState δ
  | .own c, v => (v.handleEvent S c, (v.serve S c).2)
  | .other m, v => (none, { v with server := (v.server.serve S.cfg m).2 })

/-- Every step changes the table as it records. -/
theorem step_spec (e : VfsEvent) (v : VfsState δ) : Served S v (e.step S v).1 (e.step S v).2 := by
  cases e with
  | own c => exact serve_spec S v c
  | other m => exact ⟨Or.inr ⟨m, rfl⟩, rfl⟩

theorem routed_step (h : v.Routed) (e : VfsEvent) : (e.step S v).2.Routed := by
  have hspec := e.step_spec (S := S) v
  refine ⟨h.known.served hspec.server, fun {j id} hj => ?_⟩
  rw [hspec.handleMap] at hj
  have hold : v.core.handleMap j = some id → (e.step S v).2.server.Locates j id :=
    fun hj => (h.locates hj).served h.known hspec.server
  cases hev : (e.step S v).1 with
  | none =>
      rw [hev] at hj
      exact hold hj
  | some ev =>
      rw [hev] at hj
      cases ev with
      | released i =>
          by_cases e : j = i
          · simp [HandleEvent.apply, e] at hj
          · exact hold (by simpa [HandleEvent.apply, e] using hj)
      | opened i id₀ =>
          by_cases hji : j = i
          · subst hji
            have hid : id₀ = id := by simpa [HandleEvent.apply] using hj
            subst hid
            cases e with
            | own c => exact locates_opened h.known hev
            | other m => cases hev
          · exact hold (by simpa [HandleEvent.apply, hji] using hj)

theorem routed_start (hk : v₀.server.Known) (hcore : v₀.core = {}) : v₀.Routed :=
  ⟨hk, fun hj => by rw [hcore] at hj; cases hj⟩

/-- Successful opens of `i` that no release has balanced. -/
def countOpen (i : Inode) (n : Nat) : Option HandleEvent → Nat
  | some (.opened j _) => if j = i then n + 1 else n
  | some (.released j) => if j = i then n - 1 else n
  | none => n

def outstandingOpens (es : List (VfsEvent × Option HandleEvent)) (i : Inode) : Nat :=
  (es.map Prod.snd).foldl (countOpen i) 0

/-- The location that the metadata server gave for `i` last. -/
def noteLocation (i : Inode) (id : Option String) : Option HandleEvent → Option String
  | some (.opened j id') => if j = i then some id' else id
  | _ => id

def lastLocation (es : List (VfsEvent × Option HandleEvent)) (i : Inode) : Option String :=
  (es.map Prod.snd).foldl (noteLocation i) none

theorem outstandingOpens_snoc (es : List (VfsEvent × Option HandleEvent)) (e : VfsEvent × Option HandleEvent) :
    outstandingOpens (es ++ [e]) i = countOpen i (outstandingOpens es i) e.2 := by
  simp [outstandingOpens]

theorem lastLocation_snoc (es : List (VfsEvent × Option HandleEvent)) (e : VfsEvent × Option HandleEvent) :
    lastLocation (es ++ [e]) i = noteLocation i (lastLocation es i) e.2 := by
  simp [lastLocation]

/-- The last location was an answer to an open. -/
theorem mem_of_lastLocation {id : String} (h : lastLocation es i = some id) :
    ∃ e ∈ es, ∃ j, e.2 = some (.opened j id) := by
  induction es using List.reverseRecOn with
  | nil => cases h
  | append_singleton es e ih =>
      rw [lastLocation_snoc] at h
      unfold noteLocation at h
      split at h
      · rename_i j id' hev
        split at h
        · cases h
          exact ⟨e, by simp, j, hev⟩
        · obtain ⟨e', hmem, hj⟩ := ih h
          exact ⟨e', by simp [hmem], hj⟩
      · obtain ⟨e', hmem, hj⟩ := ih h
        exact ⟨e', by simp [hmem], hj⟩

/-- No file is released while it is open twice. -/
def releasesLast (es : List (VfsEvent × Option HandleEvent)) (_ : VfsState δ) (e : VfsEvent) : Prop :=
  ∀ i, e = .own (.release i) → outstandingOpens es i ≤ 1

/-- An open file has the entry that its last open made. -/
def EntriesKept (es : List (VfsEvent × Option HandleEvent)) (v : VfsState δ) : Prop :=
  ∀ i, 0 < outstandingOpens es i → ∃ id, lastLocation es i = some id ∧ v.core.handleMap i = some id

theorem entriesKept_step (h : EntriesKept es v) {e : VfsEvent} (hok : releasesLast es v e) :
    EntriesKept (es ++ [(e, (e.step S v).1)]) (e.step S v).2 := by
  intro i hi
  have hspec := e.step_spec (S := S) v
  rw [outstandingOpens_snoc] at hi
  rw [lastLocation_snoc, hspec.handleMap]
  cases hev : (e.step S v).1 with
  | none =>
      rw [hev] at hi
      exact h i hi
  | some ev =>
      rw [hev] at hi
      cases ev with
      | opened j id =>
          by_cases hji : j = i
          · subst hji
            exact ⟨id, by simp [noteLocation], by simp [HandleEvent.apply]⟩
          · obtain ⟨id', hlast, hmap⟩ := h i (by simpa [countOpen, hji] using hi)
            exact ⟨id', by simpa [noteLocation, hji] using hlast,
              by simpa [HandleEvent.apply, Ne.symm hji] using hmap⟩
      | released j =>
          by_cases hji : j = i
          · -- a release of an open file would have to be its last one
            subst hji
            have hc : e = .own (.release j) := by
              cases e with
              | own c => rw [eq_release_of_released hev]
              | other m => cases hev
            have hle := hok j hc
            have hi : 0 < outstandingOpens es j - 1 := by simpa [countOpen] using hi
            omega
          · obtain ⟨id', hlast, hmap⟩ := h i (by simpa [countOpen, hji] using hi)
            exact ⟨id', hlast, by simpa [HandleEvent.apply, Ne.symm hji] using hmap⟩

end VfsEvent

/-- Calls that move the data of `i`. -/
def VfsCall.Transfers (i : Inode) : VfsCall → Prop
  | .read j _ _ | .write j _ _ _ | .flush j | .fsync j _ => j = i
  | _ => False

/-! ### Two servers -/

/-- Files are stored at `far`, which is server 1; the default is server 0. -/
def farSetup : VfsSetup (Nat → RawDisk) :=
  .onDisks { defaultDataLocation := ⟨"far"⟩ } ⟨0, fun id => if id = "far" then some 1 else none⟩

def farStart : VfsState (Nat → RawDisk) where
  server := Server.fresh farSetup.cfg
  data _ := ⟨.empty, 1024⟩

/-- The history of some calls of the client, and the state they leave. -/
def farRun (cs : List VfsCall) : List (VfsEvent × Option VfsState.HandleEvent) × VfsState (Nat → RawDisk) :=
  cs.foldl (fun r c => (r.1 ++ [(.own c, ((VfsEvent.own c).step farSetup r.2).1)],
    ((VfsEvent.own c).step farSetup r.2).2)) ([], farStart)

/-! ### Results -/

section

open VfsEvent VfsState

variable {δ : Type} {S : VfsSetup δ} {v₀ v : VfsState δ} {es : List (VfsEvent × Option HandleEvent)} {i : Inode}
  {c : VfsCall} {srv : Nat} {dc : DataCall}

theorem VfsCall.Transfers.inode_eq (hc : c.Transfers i) (h : dc ∈ v.requests S c) : dc.inode = i := by
  cases c with
  | read j off n =>
      cases List.mem_singleton.1 h
      exact hc
  | write j off data flags =>
      cases List.mem_singleton.1 h
      exact hc
  | fsync j d =>
      cases List.mem_singleton.1 h
      exact hc
  | flush j =>
      unfold requests at h
      dsimp only at h
      split at h
      · cases List.mem_singleton.1 h
        exact hc
      · cases h
  | _ => cases hc

/-- A request was sent where the table sends its inode. -/
theorem mem_sent (h : (srv, dc) ∈ v.sent S c) : dc ∈ v.requests S c ∧ srv = v.core.resolveData S.reg dc.inode := by
  rw [sent_eq] at h
  obtain ⟨dc', hmem, heq⟩ := List.mem_map.1 h
  cases heq
  exact ⟨hmem, rfl⟩

/-- **Routing of open files.**  In every run in which no file is released while it is open twice, and in which
the metadata server has answered opens with registered locations only, every read, write, flush and fsync of a
file that is open goes to the data server registered under the location that its last open returned; if a
location is still stored for the file, it is this one. -/
theorem routed_while_open (hk : v₀.server.Known) (hcore : v₀.core = {})
    (h : Trace (VfsEvent.step S) releasesLast v₀ es v)
    (hreg : ∀ e ∈ es, ∀ j id, e.2 = some (.opened j id) → (S.reg.dataServers id).isSome = true)
    (hopen : 0 < outstandingOpens es i) (hc : c.Transfers i) (hsent : (srv, dc) ∈ v.sent S c) :
    ∃ id, lastLocation es i = some id ∧ S.reg.dataServers id = some srv ∧
      ∀ id', v.server.db.dataLocations.get i = some id' → id' = id := by
  have hinv : v.Routed ∧ EntriesKept es v := by
    refine h.invariant (fun es v => v.Routed ∧ EntriesKept es v) ⟨routed_start hk hcore, fun i hi => by cases hi⟩ ?_
    exact fun ⟨hr, hkept⟩ hok => ⟨routed_step hr _, entriesKept_step hkept hok⟩
  obtain ⟨id, hlast, hmap⟩ := hinv.2 i hopen
  obtain ⟨hmem, hsrv⟩ := mem_sent hsent
  obtain ⟨e, hmemE, j, hev⟩ := mem_of_lastLocation hlast
  obtain ⟨srv', hsrv'⟩ := Option.isSome_iff_exists.1 (hreg e hmemE j id hev)
  refine ⟨id, hlast, ?_, fun id' hl => (hinv.1.locates hmap).agrees hl⟩
  rw [hsrv, hc.inode_eq hmem]
  unfold VfsCore.resolveData
  rw [hmap]
  dsimp only
  rw [hsrv']
  rfl

/-- A file that was made and opened is written. -/
theorem routed_while_open_created :
    ∃ id, lastLocation (farRun [.createAndOpen 1 [97] 0 0 0 0]).1 2 = some id ∧
      farSetup.reg.dataServers id = some 1 ∧
      ∀ id', (farRun [.createAndOpen 1 [97] 0 0 0 0]).2.server.db.dataLocations.get 2 = some id' → id' = id := by
  have h : Trace (VfsEvent.step farSetup) releasesLast farStart (farRun [.createAndOpen 1 [97] 0 0 0 0]).1
      (farRun [.createAndOpen 1 [97] 0 0 0 0]).2 :=
    .snoc (VfsEvent.own (.createAndOpen 1 [97] 0 0 0 0)) .nil fun i hi => by cases hi
  have hsent : (1, DataCall.writeData 2 0 [65]) ∈
      (farRun [.createAndOpen 1 [97] 0 0 0 0]).2.sent farSetup (.write 2 0 [65] 0) := by decide +kernel
  have hev : (farRun [.createAndOpen 1 [97] 0 0 0 0]).1.map Prod.snd = [some (.opened 2 "far")] := by
    decide +kernel
  refine routed_while_open (c := .write 2 0 [65] 0) (Server.known_fresh _) rfl h (fun e he j id heq => ?_)
    (by decide +kernel) rfl hsent
  have hmem : some (.opened j id) ∈ [some (HandleEvent.opened 2 "far")] := by
    rw [← hev, ← heq]
    exact List.mem_map_of_mem he
  cases List.mem_singleton.1 hmem
  decide +kernel

/-- A file is opened twice and released once: a write of the file that is still open goes to the default server,
not to the one that its location names. -/
theorem open_file_misrouted :
    let run := farRun [.createAndOpen 1 [97] 0 0 0 0, .openFile 2 0, .release 2]
    outstandingOpens run.1 2 = 1 ∧ lastLocation run.1 2 = some "far" ∧
      run.2.server.db.dataLocations.get 2 = some "far" ∧ farSetup.reg.dataServers "far" = some 1 ∧
      run.2.sent farSetup (.write 2 0 [65] 0) = [(0, .writeData 2 0 [65])] := by
  decide +kernel

/-- **Routing of requests.**  In every state of every run, a request that a call sends on an inode with a stored
location, such as a deletion of `unlink`, `rename` and `release` or a truncation of `setattr`, reaches the data
server registered under that location exactly when the inode has an entry in the table and the location is
registered, or the default server is registered under it. -/
theorem request_routed_iff (hk : v₀.server.Known) (hcore : v₀.core = {})
    (h : Trace (VfsEvent.step S) (fun _ _ _ => True) v₀ es v) (hsent : (srv, dc) ∈ v.sent S c) {id : String}
    (hid : v.server.db.dataLocations.get dc.inode = some id) :
    S.reg.dataServers id = some srv ↔
      ((v.core.handleMap dc.inode).isSome = true ∧ (S.reg.dataServers id).isSome = true) ∨
        S.reg.dataServers id = some S.reg.defaultData := by
  have hr : v.Routed :=
    h.invariant (fun _ v => v.Routed) (routed_start hk hcore) fun hr _ => routed_step hr _
  obtain ⟨-, rfl⟩ := mem_sent hsent
  unfold VfsCore.resolveData
  cases hmap : v.core.handleMap dc.inode with
  | none => simp
  | some id' =>
      have hsame : id = id' := (hr.locates hmap).agrees hid
      subst hsame
      cases hsrv : S.reg.dataServers id with
      | none => simp [hsrv]
      | some srv' => simp [hsrv]

/-- An open file is unlinked; its data is deleted with its last handle, where it is. -/
theorem request_routed_iff_released :
    let v := (farRun [.createAndOpen 1 [97] 0 0 0 0, .unlink 1 [97]]).2
    farSetup.reg.dataServers "far" = some 1 ↔
      ((v.core.handleMap 2).isSome = true ∧ (farSetup.reg.dataServers "far").isSome = true) ∨
        farSetup.reg.dataServers "far" = some 0 := by
  have h : Trace (VfsEvent.step farSetup) (fun _ _ _ => True) farStart
      (farRun [.createAndOpen 1 [97] 0 0 0 0, .unlink 1 [97]]).1
      (farRun [.createAndOpen 1 [97] 0 0 0 0, .unlink 1 [97]]).2 :=
    .snoc (VfsEvent.own (.unlink 1 [97]))
      (.snoc (VfsEvent.own (.createAndOpen 1 [97] 0 0 0 0)) .nil trivial) trivial
  have hsent : (1, DataCall.deleteData 2) ∈
      (farRun [.createAndOpen 1 [97] 0 0 0 0, .unlink 1 [97]]).2.sent farSetup (.release 2) := by decide +kernel
  exact request_routed_iff (Server.known_fresh _) rfl h hsent (by decide +kernel)

/-- A file that is not open is unlinked: the deletion goes to the default server, not to the one that the stored
location names. -/
theorem closed_file_misrouted :
    let run := farRun [.create 1 [97] 0 0 0]
    run.2.server.db.dataLocations.get 2 = some "far" ∧ farSetup.reg.dataServers "far" = some 1 ∧
      run.2.sent farSetup (.unlink 1 [97]) = [(0, .deleteData 2)] := by
  decide +kernel

end

end RucksFs
