import RucksFs.Client.Resize
import RucksFs.Locations

/-!
# The contents of a file (`VfsCore::{setattr, open, read, write}`)

The size of a file is kept by the metadata server and its bytes by the data server, which knows no sizes: a read
returns whatever the region of the file holds.  Bytes beyond the size must therefore be zero, or they appear when
the file grows.  `setattr` sees to this by a truncation; `open` with `O_TRUNC` sets the size and sends none.

* `ContentCall`, `ContentCall.onBytes` — the calls on one file, and what they do to a byte string.
* `VfsState.Shows` — the refinement: the stored size is the length, and the region is the byte string and zeros.
* `Shows.step` — every call keeps it, if `O_TRUNC` finds the file empty and no write is longer than a `u32` counts.
* `contents_refine` — what `read` returns after any run of such calls.
* `truncated_bytes_return` — the run in which the old bytes come back.
-/

set_option autoImplicit false

namespace RucksFs

/-! ## The calls -/

/-- A call on the file `i` that was created as `p/n`. -/
inductive ContentCall where
  | create (mode uid gid : Nat)
  | openFile (flags : Nat)
  | write (offset : Nat) (data : List Byte) (flags : Nat)
  | setattr (req : SetAttrRequest) (size : Nat)
  | read (offset size : Nat)
  | release
  deriving DecidableEq

namespace ContentCall

def call (p : Inode) (n : Name) (i : Inode) : ContentCall → VfsCall
  | .create mode uid gid => .create p n mode uid gid
  | .openFile flags => .openFile i flags
  | .write off data flags => .write i off data flags
  | .setattr req z => .setattr i { req with size := some z }
  | .read off len => .read i off len
  | .release => .release i

/-- What the call does to the contents of the file. -/
def onBytes : ContentCall → List Byte → List Byte
  | .openFile flags, bytes => if flags &&& O_TRUNC != 0 then [] else bytes
  | .write off data _, bytes => ZeroFilled.overwrite bytes off data
  | .setattr _ z, bytes => ZeroFilled.resize bytes z
  | .create .., bytes | .read .., bytes | .release, bytes => bytes

/-- The contents of a new file after some calls. -/
def contents (cs : List ContentCall) : List Byte := cs.foldl (fun bytes c => c.onBytes bytes) []

/-- Offsets, lengths and sizes are below the limit, and a write has at least one byte. -/
def Below (cap : Nat) : ContentCall → Prop
  | .write off data _ => off < cap ∧ data.length < cap ∧ data ≠ []
  | .setattr _ z => z < cap
  | .read off len => off < cap ∧ len < cap
  | .create .. | .openFile _ | .release => True

/-- `O_TRUNC` finds the file empty, and a `u32` counts the bytes of a write. -/
def Harmless (i : Inode) (s : Server) : ContentCall → Prop
  | .openFile flags => flags &&& O_TRUNC = 0 ∨ (s.db.inode i).map InodeValue.size = some 0
  | .write _ data _ => data.length < U32_SIZE
  | _ => True

/-- Serve one call, and whether it succeeded. -/
def step (S : VfsSetup (Nat → RawDisk)) (p : Inode) (n : Name) (i : Inode) (c : ContentCall)
    (v : VfsState (Nat → RawDisk)) : Bool × VfsState (Nat → RawDisk) :=
  ((v.serve S (c.call p n i)).1.isOk, (v.serve S (c.call p n i)).2)

/-- Serve some calls. -/
def after (S : VfsSetup (Nat → RawDisk)) (p : Inode) (n : Name) (i : Inode) (cs : List ContentCall)
    (v : VfsState (Nat → RawDisk)) : VfsState (Nat → RawDisk) :=
  cs.foldl (fun v c => (c.step S p n i v).2) v

end ContentCall

/-! ## The metadata server -/

/-- The file `i` is there as `p/n`, its size is `z`, and it is not waiting for deletion. -/
structure Server.HasFile (p : Inode) (n : Name) (i z : Nat) (s : Server) : Prop where
  entry : (s.db.entry p n).isSome = true
  record : ∃ iv, s.db.inode i = some iv ∧ iv.size = z
  cached : ∀ {v}, s.cache.find i = some v → v.size = z
  kept : s.pendingDeletes i = false

namespace Server.HasFile

variable {cfg : Config} {s : Server} {p : Inode} {n : Name} {i z : Nat}

/-- A load answers the size and leaves the file. -/
theorem load (h : s.HasFile p n i z) :
    ∃ iv c, s.load i = (.ok iv, { s with cache := c }) ∧ iv.size = z ∧
      ({ s with cache := c } : Server).HasFile p n i z := by
  obtain ⟨raw, hraw, hsize⟩ := h.record
  unfold Server.load
  cases hf : s.cache.find i with
  | some v =>
      refine ⟨v, _, rfl, h.cached hf, h.entry, h.record, ?_, h.kept⟩
      intro w hw
      rw [InodeFoldedCache.find_get] at hw
      exact h.cached hw
  | none =>
      have heff : s.db.effective i = some (foldDeltas raw (s.db.deltas i)) := by
        unfold Db.effective
        rw [hraw]
        rfl
      have hfold : (foldDeltas raw (s.db.deltas i)).size = z := (foldDeltas_size raw _).trans hsize
      rw [heff]
      refine ⟨_, _, rfl, hfold, h.entry, h.record, ?_, h.kept⟩
      intro w hw
      rcases InodeFoldedCache.find_put hw with ⟨-, rfl⟩ | ⟨hne, -⟩
      · exact hfold
      · exact absurd rfl hne

/-- The record is stored again with another size. -/
theorem rewritten (h : s.HasFile p n i z) {iv : InodeValue} {z' : Nat} (hiv : iv.size = z') :
    (s.rewritten i iv).HasFile p n i z' where
  entry := h.entry
  record := ⟨iv, (Db.inode_applyOp s.db (.putInode i iv) i).trans (if_pos rfl), hiv⟩
  cached := by
    intro v hv
    rcases InodeFoldedCache.find_put hv with ⟨-, rfl⟩ | ⟨hne, -⟩
    · exact hiv
    · exact absurd rfl hne
  kept := h.kept

theorem tick (h : s.HasFile p n i z) : s.tick.HasFile p n i z := ⟨h.entry, h.record, h.cached, h.kept⟩

/-- A name that is taken is not created again. -/
theorem create (h : s.HasFile p n i z) (mode uid gid : Nat) :
    (s.serve cfg (.create p n mode uid gid)).2 = s := by
  have hexec : (s.serve cfg (.create p n mode uid gid)).2 = _ :=
    congrArg (fun r : FsResult FileAttr × Txn × Server => r.2.2) (exec_create cfg s p n mode uid gid)
  rw [hexec]
  dsimp only
  unfold Server.creation
  rw [if_pos h.entry]
  split <;> rfl

/-- An `open` that truncates nothing leaves the file. -/
theorem openFile (h : s.HasFile p n i z) {flags : Nat} (hf : flags &&& O_TRUNC = 0 ∨ z = 0) :
    (s.serve cfg (.openFile i flags)).2.HasFile p n i z := by
  have hexec : (s.serve cfg (.openFile i flags)).2 = _ :=
    congrArg (fun r : FsResult OpenResponse × Txn × Server => r.2.2) (exec_openFile cfg s i flags)
  obtain ⟨iv, c, hload, hsize, hfile⟩ := h.load
  rw [hexec, hload]
  dsimp only
  have hno : (flags &&& O_TRUNC != 0 && decide (iv.size > 0)) = false := by
    rcases hf with hf | hf
    · simp [hf]
    · simp [hsize, hf]
  rw [hno]
  split
  · exact hfile
  · exact ⟨hfile.entry, hfile.record, hfile.cached, hfile.kept⟩

/-- The end of a write is reported. -/
theorem reportWrite (h : s.HasFile p n i z) (cfg : Config) (newEnd ts : Nat) :
    (s.serve cfg (.reportWrite i newEnd ts)).1 = .ok () ∧
      (s.serve cfg (.reportWrite i newEnd ts)).2.HasFile p n i (max z newEnd) := by
  obtain ⟨raw, hraw, hsize⟩ := h.record
  have hexec : s.serve cfg (.reportWrite i newEnd ts) = _ :=
    congrArg (fun r : FsResult Unit × Txn × Server => (r.1, r.2.2)) (exec_reportWrite cfg s i newEnd ts)
  rw [hexec, hraw]
  refine ⟨rfl, h.rewritten ?_⟩
  show max raw.size newEnd = max z newEnd
  rw [hsize]

/-- Nothing is deleted when the last handle is given back. -/
theorem release (h : s.HasFile p n i z) (cfg : Config) :
    (s.serve cfg (.release i)).1 = .ok [] ∧ (s.serve cfg (.release i)).2.HasFile p n i z := by
  have hexec : s.serve cfg (.release i) = _ :=
    congrArg (fun r : FsResult (List Inode) × Txn × Server => (r.1, r.2.2)) (exec_release cfg s i)
  have hfalse : (s.checkAndClearDeferredDelete i).1 = false := by
    by_contra htrue
    have hp := (s.checkAndClear_true (Bool.of_not_eq_false htrue)).1
    rw [h.kept] at hp
    cases hp
  rw [hexec, hfalse]
  refine ⟨rfl, ?_⟩
  have hdb : (s.checkAndClearDeferredDelete i).2.db = s.db := s.checkAndClear_db
  have hcache : (s.checkAndClearDeferredDelete i).2.cache = s.cache := s.checkAndClear_cache
  constructor
  · rw [if_neg Bool.false_ne_true, hdb]
    exact h.entry
  · rw [if_neg Bool.false_ne_true, hdb]
    exact h.record
  · intro v hv
    rw [if_neg Bool.false_ne_true, hcache] at hv
    exact h.cached hv
  · rw [if_neg Bool.false_ne_true, (s.checkAndClear_false hfalse).1]
    exact h.kept

/-- A new file is empty. -/
theorem created (hpending : s.pendingDeletes s.next = false) {mode uid gid : Nat} {attr : FileAttr}
    (hr : (s.serve cfg (.create p n mode uid gid)).1 = .ok attr) :
    attr.inode = s.next ∧ (s.serve cfg (.create p n mode uid gid)).2.HasFile p n s.next 0 := by
  have hexec : s.serve cfg (.create p n mode uid gid) = _ :=
    congrArg (fun r : FsResult FileAttr × Txn × Server => (r.1, r.2.2)) (exec_create cfg s p n mode uid gid)
  rw [hexec] at hr ⊢
  dsimp only at hr ⊢
  rcases creation_cases cfg s p n (s.newFile cfg mode uid gid)
    [.putDataLocation s.next cfg.defaultDataLocation.serverId] (touchDeltas (cfg.clock s.ticks)) with
    ⟨e, h⟩ | ⟨-, h⟩
  · rw [h] at hr
    cases hr
  · rw [h] at hr ⊢
    cases hr
    have hb := Server.Bookkeeping.created cfg s p n (s.newFile cfg mode uid gid)
      [.putDataLocation s.next cfg.defaultDataLocation.serverId] (touchDeltas (cfg.clock s.ticks))
    have hplain : ∀ op ∈ [BatchOp.putDataLocation s.next cfg.defaultDataLocation.serverId], op.IsPayload := by
      simp [BatchOp.IsPayload]
    refine ⟨rfl, ?_, ?_, fun hv => (find_created hv).2, ?_⟩
    · unfold Db.entry
      rw [hb.dirEntries]
      show ((s.db.applyBatch [.putInode s.next _, .putDirEntry p n _, .putDataLocation s.next _]).entry p n).isSome = true
      simp [Db.applyBatch, Db.entry_applyOp]
    · exact (inode_created hplain).imp fun _ hw => ⟨hw.1, hw.2.2⟩
    · rw [hb.pendingDeletes]
      exact hpending

end Server.HasFile

/-! ## The refinement -/

/-- Every identifier names the default data server. -/
def Registry.Single (reg : Registry) : Prop := ∀ id, (reg.dataServers id).getD reg.defaultData = reg.defaultData

theorem Registry.Single.resolveData {reg : Registry} (h : reg.Single) (c : VfsCore) (i : Inode) :
    c.resolveData reg i = reg.defaultData := by
  unfold VfsCore.resolveData
  split
  · exact h _
  · rfl

/-- The file `i` shows `bytes`: they are what the region of the file holds, and beyond them it is zero. -/
structure VfsState.Shows (reg : Registry) (cap : Nat) (p : Inode) (n : Name) (i : Nat) (v : VfsState (Nat → RawDisk))
    (bytes : List Byte) : Prop where
  file : v.server.HasFile p n i (min bytes.length cap)
  limit : (v.data reg.defaultData).maxFileSize = cap
  region : ∀ k < cap, (v.data reg.defaultData).region i k = bytes.getD k 0

namespace VfsState

variable {cfg : Config} {reg : Registry} {clock : Nat → Nat} {cap : Nat} {p : Inode} {n : Name} {i : Nat}
  {v v' : VfsState (Nat → RawDisk)} {bytes : List Byte}

/-- `read`. -/
def readBytes (S : VfsSetup (Nat → RawDisk)) (i off len : Nat) (v : VfsState (Nat → RawDisk)) : FsResult (List Byte) :=
  (v.serve S (.read i off len)).1

/-! ### What each call leaves -/

theorem serve_openFile_snd (S : VfsSetup (Nat → RawDisk)) (flags : Nat) :
    (v.serve S (.openFile i flags)).2.server = (v.server.serve S.cfg (.openFile i flags)).2 ∧
      (v.serve S (.openFile i flags)).2.data = v.data := by
  have hrun : (v.serve S (.openFile i flags)).2 = _ :=
    congrArg Prod.snd (run_metadata_bind S v (.openFile i flags) _)
  rw [hrun]
  rcases v.server.serve S.cfg (.openFile i flags) with ⟨r, s'⟩
  cases r <;> exact ⟨rfl, rfl⟩

theorem serve_release_snd {S : VfsSetup (Nat → RawDisk)} (h : (v.server.serve S.cfg (.release i)).1 = .ok []) :
    (v.serve S (.release i)).2.server = (v.server.serve S.cfg (.release i)).2 ∧
      (v.serve S (.release i)).2.data = v.data := by
  have hserve : v.server.serve S.cfg (.release i) = (.ok [], (v.server.serve S.cfg (.release i)).2) := Prod.ext h rfl
  have hrun : (v.serve S (.release i)).2 = _ := congrArg Prod.snd (run_metadata_ok S v _ hserve)
  rw [hrun]
  exact ⟨rfl, rfl⟩

theorem serve_read (off len : Nat) :
    v.readBytes (.onDisks cfg reg clock) i off len = (v.diskOf reg i).readAt i off len ∧
      (v.serve (.onDisks cfg reg clock) (.read i off len)).2.server = v.server ∧
      (v.serve (.onDisks cfg reg clock) (.read i off len)).2.data = v.data :=
  ⟨rfl, rfl, Function.update_eq_self _ _⟩

theorem serve_write_snd {off w : Nat} (flags : Nat) {data : List Byte} {d' : RawDisk} {s' : Server}
    (hw : (v.diskOf reg i).writeAt i off data = (.ok w, d'))
    (hrep : v.server.serve cfg (.reportWrite i (off + w) (clock v.ticks)) = (.ok (), s')) :
    (v.serve (.onDisks cfg reg clock) (.write i off data flags)).2.server = s' ∧
      (v.serve (.onDisks cfg reg clock) (.write i off data flags)).2.data =
        Function.update v.data (v.core.resolveData reg i) d' := by
  have hdata : run (.onDisks cfg reg clock) (VfsOp.writeData (v.core.resolveData reg i) i off data) v =
      (.ok w, { v with data := Function.update v.data (v.core.resolveData reg i) d' }) := by
    show (((v.diskOf reg i).writeAt i off data).1, ({ v with
      data := Function.update v.data (v.core.resolveData reg i) ((v.diskOf reg i).writeAt i off data).2 } :
        VfsState (Nat → RawDisk))) = _
    rw [hw]
  have hrun : v.serve (.onDisks cfg reg clock) (.write i off data flags) = _ :=
    run_bind _ v (VfsOp.writeData (v.core.resolveData reg i) i off data) _
  rw [hrun, hdata]
  dsimp only
  let v' : VfsState (Nat → RawDisk) :=
    { v with data := Function.update v.data (v.core.resolveData reg i) d', ticks := v.ticks + 1 }
  have hreport := run_metadata_ok (.onDisks cfg reg clock) v'
    (fun _ => do VfsOp.eff (.writtenInsert i); return w) hrep
  exact ⟨congrArg (fun r : FsResult Nat × VfsState (Nat → RawDisk) => r.2.server) hreport,
    congrArg (fun r : FsResult Nat × VfsState (Nat → RawDisk) => r.2.data) hreport⟩

/-! ### One call -/

namespace Shows

/-- The metadata server keeps the size, and no data is touched. -/
theorem of_server (h : v.Shows reg cap p n i bytes) (hfile : v'.server.HasFile p n i (min bytes.length cap))
    (hdata : v'.data = v.data) : v'.Shows reg cap p n i bytes := by
  constructor
  · exact hfile
  · rw [hdata]
    exact h.limit
  · rw [hdata]
    exact h.region

theorem openFile (h : v.Shows reg cap p n i bytes) {flags : Nat}
    (hf : flags &&& O_TRUNC = 0 ∨ (v.server.db.inode i).map InodeValue.size = some 0) :
    (v.serve (.onDisks cfg reg clock) (.openFile i flags)).2.Shows reg cap p n i
      ((ContentCall.openFile flags).onBytes bytes) := by
  obtain ⟨hserver, hdata⟩ := v.serve_openFile_snd (i := i) (.onDisks cfg reg clock) flags
  obtain ⟨raw, hraw, hsize⟩ := h.file.record
  have hf : flags &&& O_TRUNC = 0 ∨ min bytes.length cap = 0 := by
    rcases hf with hf | hf
    · exact Or.inl hf
    · rw [hraw] at hf
      exact Or.inr (hsize.symm.trans (Option.some.inj hf))
  have hold : (v.serve (.onDisks cfg reg clock) (.openFile i flags)).2.Shows reg cap p n i bytes := by
    apply h.of_server _ hdata
    rw [hserver]
    exact h.file.openFile hf
  by_cases htrunc : flags &&& O_TRUNC != 0
  · have hbytes : (ContentCall.openFile flags).onBytes bytes = [] := if_pos htrunc
    rw [hbytes]
    have hempty : min bytes.length cap = 0 := by
      rcases hf with hf | hf
      · simp [hf] at htrunc
      · exact hf
    constructor
    · have hfile := hold.file
      rw [hempty] at hfile
      simpa using hfile
    · exact hold.limit
    · intro k hk
      rw [hold.region k hk, List.getD_eq_default _ _ (by omega)]
      rfl
  · have hbytes : (ContentCall.openFile flags).onBytes bytes = bytes := if_neg htrunc
    rw [hbytes]
    exact hold

theorem release (h : v.Shows reg cap p n i bytes) :
    (v.serve (.onDisks cfg reg clock) (.release i)).2.Shows reg cap p n i bytes := by
  obtain ⟨hok, hfile⟩ := h.file.release cfg
  obtain ⟨hserver, hdata⟩ := serve_release_snd (S := .onDisks cfg reg clock) hok
  apply h.of_server _ hdata
  rw [hserver]
  exact hfile

theorem write (h : v.Shows reg cap p n i bytes) (hone : reg.Single) (hfit : (i + 1) * cap < RawDisk.OFF_SIZE)
    {off flags : Nat} {data : List Byte} (hoff : off < cap) (hlen : data.length < U32_SIZE) :
    (v.serve (.onDisks cfg reg clock) (.write i off data flags)).2.Shows reg cap p n i
      (ZeroFilled.overwrite bytes off data) := by
  have hdisk : v.diskOf reg i = v.data reg.defaultData := by rw [diskOf, hone.resolveData]
  have hlimit := h.limit
  rw [← hdisk] at hlimit
  have hdone : ∃ d', (v.diskOf reg i).writeAt i off data = (.ok _, d') :=
    RawDisk.writeAt_succeeds (by rwa [hlimit]) (by rwa [hlimit])
  obtain ⟨d', hw⟩ := hdone
  obtain ⟨-, -, hmax, hregion⟩ := RawDisk.writeAt_ok hw
  rw [hlimit, Nat.mod_eq_of_lt (by omega)] at hw
  obtain ⟨hok, hfile⟩ := h.file.reportWrite cfg (off + min data.length (cap - off)) (clock v.ticks)
  obtain ⟨hserver, hdata⟩ := serve_write_snd flags hw (Prod.ext hok rfl)
  rw [hone.resolveData] at hdata
  constructor
  · have hsize : min (ZeroFilled.overwrite bytes off data).length cap =
        max (min bytes.length cap) (off + min data.length (cap - off)) := by
      rw [ZeroFilled.length_overwrite]
      omega
    rw [hserver, hsize]
    exact hfile
  · rw [hdata, Function.update_self, hmax, hlimit]
  · intro k hk
    rw [hdata, Function.update_self, hregion i k (by rwa [hlimit]), ZeroFilled.getD_overwrite, SparseFile.splice, hdisk,
      h.region k hk]
    simp

theorem setattr (h : v.Shows reg cap p n i bytes) (hone : reg.Single) (hfit : (i + 1) * cap < RawDisk.OFF_SIZE)
    {z : Nat} (hz : z < cap) (req : SetAttrRequest) :
    (v.serve (.onDisks cfg reg clock) (.setattr i { req with size := some z })).2.Shows reg cap p n i
      (ZeroFilled.resize bytes z) := by
  have hdisk : v.diskOf reg i = v.data reg.defaultData := by rw [diskOf, hone.resolveData]
  obtain ⟨raw, hraw, hsize⟩ := h.file.record
  have hlength : min (ZeroFilled.resize bytes z).length cap = z := by
    rw [ZeroFilled.length_resize]
    omega
  have hnew : (({ req with size := some z } : SetAttrRequest).apply (cfg.clock v.server.ticks) raw).1.size = z :=
    (SetAttrRequest.applySize_some rfl _ raw).1
  have hfile := h.file.tick.rewritten hnew
  rw [serve_setattr rfl, hraw]
  dsimp only
  split
  · -- the file shrinks: the region is cleared from the new end on
    have hlimit := h.limit
    rw [← hdisk] at hlimit
    have hok : ((v.diskOf reg i).truncate i z).1 = .ok () :=
      (RawDisk.truncate_isOk_iff _ i z).2 ⟨by rwa [hlimit], by rwa [hlimit]⟩
    obtain ⟨-, hmax, hregion⟩ := RawDisk.truncate_ok (Prod.ext hok rfl)
    unfold afterTruncate
    constructor
    · rw [hlength]
      exact hfile
    · show ((Function.update v.data (v.core.resolveData reg i) ((v.diskOf reg i).truncate i z).2)
        reg.defaultData).maxFileSize = cap
      rw [hone.resolveData, Function.update_self, hmax, hlimit]
    · intro k hk
      show ((Function.update v.data (v.core.resolveData reg i) ((v.diskOf reg i).truncate i z).2)
        reg.defaultData).region i k = _
      rw [hone.resolveData, Function.update_self, hregion i k (by rwa [hlimit]), ZeroFilled.getD_resize, hdisk,
        h.region k hk]
      by_cases hk' : z ≤ k
      · rw [if_pos ⟨rfl, hk'⟩, if_neg (by omega)]
      · rw [if_neg (by simp [hk']), if_pos (by omega)]
  · -- the file grows: beyond its old end the region is zero already
    rename_i hgrow
    constructor
    · rw [hlength]
      exact hfile
    · exact h.limit
    · intro k hk
      rw [ZeroFilled.getD_resize]
      apply (h.region k hk).trans
      by_cases hk' : k < z
      · rw [if_pos hk']
      · rw [if_neg hk', List.getD_eq_default _ _ (by omega)]

/-- **One call.** -/
theorem step (h : v.Shows reg cap p n i bytes) (hone : reg.Single) (hfit : (i + 1) * cap < RawDisk.OFF_SIZE)
    {c : ContentCall} (hb : c.Below cap) (hc : c.Harmless i v.server) :
    (c.step (.onDisks cfg reg clock) p n i v).2.Shows reg cap p n i (c.onBytes bytes) := by
  cases c with
  | create mode uid gid =>
      have hfile : (v.server.serve cfg (.create p n mode uid gid)).2.HasFile p n i (min bytes.length cap) := by
        rw [h.file.create]
        exact h.file
      exact h.of_server hfile rfl
  | openFile flags => exact h.openFile hc
  | write off data flags => exact h.write hone hfit hb.1 hc
  | setattr req z => exact h.setattr hone hfit hb req
  | read off len => exact h.of_server h.file (v.serve_read off len).2.2
  | release => exact h.release

/-- A new file shows no bytes. -/
theorem created (hpending : v.server.pendingDeletes v.server.next = false)
    (hzero : ∀ k < (v.data reg.defaultData).maxFileSize, (v.data reg.defaultData).region v.server.next k = 0)
    {mode uid gid : Nat} {attr : FileAttr}
    (hr : (v.serve (.onDisks cfg reg clock) (.create p n mode uid gid)).1 = .ok attr) :
    attr.inode = v.server.next ∧ (v.serve (.onDisks cfg reg clock) (.create p n mode uid gid)).2.Shows reg
      (v.data reg.defaultData).maxFileSize p n v.server.next [] := by
  have hserver : (v.server.serve cfg (.create p n mode uid gid)).1 = .ok attr := hr
  obtain ⟨hi, hfile⟩ := Server.HasFile.created hpending hserver
  refine ⟨hi, ?_, rfl, fun k hk => (hzero k hk).trans rfl⟩
  rw [List.length_nil, Nat.zero_min]
  exact hfile

/-- What `getattr` and `read` answer. -/
theorem observed (h : v.Shows reg cap p n i bytes) (hone : reg.Single) (hfit : (i + 1) * cap < RawDisk.OFF_SIZE) :
    Except.map FileAttr.size (v.serve (.onDisks cfg reg clock) (.getattr i)).1 = .ok (min bytes.length cap) ∧
      ∀ off len, off < cap → ∃ out, v.readBytes (.onDisks cfg reg clock) i off len = .ok out ∧
        out.take (min bytes.length cap - off) = ((bytes.take (min bytes.length cap)).drop off).take len := by
  obtain ⟨raw, hraw, hsize⟩ := h.file.record
  constructor
  · rw [serve_getattr]
    apply (v.server.size_load hraw).trans
    cases hf : v.server.cache.find i with
    | none => exact congrArg Except.ok hsize
    | some w => exact congrArg Except.ok (h.file.cached hf)
  · intro off len hoff
    have hdisk : v.diskOf reg i = v.data reg.defaultData := by rw [diskOf, hone.resolveData]
    have hlimit := h.limit
    rw [← hdisk] at hlimit
    have hend : i * cap + cap < RawDisk.OFF_SIZE := by rwa [← Nat.succ_mul]
    have hread : (v.diskOf reg i).readAt i off len = _ :=
      RawDisk.readAt_window (by rwa [hlimit]) (by rw [hlimit]; omega)
    rw [hlimit] at hread
    refine ⟨_, (v.serve_read off len).1.trans hread, ?_⟩
    have hregion : ∀ k < (bytes.take cap).length, (v.diskOf reg i).region i k = (bytes.take cap).getD k 0 := by
      intro k hk
      rw [List.length_take] at hk
      rw [hdisk, h.region k (by omega), List.getD_eq_getElem?_getD, List.getD_eq_getElem?_getD,
        List.getElem?_take_of_lt (by omega)]
    have hshown := ZeroFilled.take_window hregion off (min len (cap - off))
    have hwhole : bytes.take (min bytes.length cap) = bytes.take cap := by
      rw [List.take_eq_take_iff]
      omega
    rw [List.length_take, Nat.min_comm cap] at hshown
    rw [hwhole, hshown, List.take_eq_take_iff, List.length_drop, List.length_take]
    omega

end Shows

/-! ## Runs -/

/-- **The contents of a file.**  A file is created on the only data server, in a region that is blank.  After any calls
on it, in which `O_TRUNC` always found it empty, its size is the length of the byte string that they make (or the limit
of a file), and below its size `read` returns that byte string. -/
theorem contents_refine (hone : reg.Single) (hpending : v.server.pendingDeletes v.server.next = false)
    (hzero : ∀ k < (v.data reg.defaultData).maxFileSize, (v.data reg.defaultData).region v.server.next k = 0)
    (hfit : (v.server.next + 1) * (v.data reg.defaultData).maxFileSize < RawDisk.OFF_SIZE)
    {mode uid gid : Nat} {attr : FileAttr}
    (hr : (v.serve (.onDisks cfg reg clock) (.create p n mode uid gid)).1 = .ok attr)
    {es : List (ContentCall × Bool)}
    (h : Trace (ContentCall.step (.onDisks cfg reg clock) p n attr.inode)
      (fun _ u c => c.Below (v.data reg.defaultData).maxFileSize ∧ c.Harmless attr.inode u.server)
      (v.serve (.onDisks cfg reg clock) (.create p n mode uid gid)).2 es v') :
    let cap := (v.data reg.defaultData).maxFileSize
    let bytes := ContentCall.contents (es.map Prod.fst)
    let size := min bytes.length cap
    Except.map FileAttr.size (v'.serve (.onDisks cfg reg clock) (.getattr attr.inode)).1 = .ok size ∧
      ∀ off len, off < cap → ∃ out, v'.readBytes (.onDisks cfg reg clock) attr.inode off len = .ok out ∧
        out.take (size - off) = ((bytes.take size).drop off).take len := by
  obtain ⟨hi, hnew⟩ := Shows.created hpending hzero hr
  rw [hi] at h ⊢
  intro cap bytes size
  -- the byte string is followed along the run
  have hshows : v'.Shows reg cap p n v.server.next bytes := by
    refine h.invariant (fun es u => u.Shows reg cap p n v.server.next (ContentCall.contents (es.map Prod.fst))) hnew ?_
    intro es u c hu hc
    rw [List.map_append, ContentCall.contents, List.foldl_append]
    exact hu.step hone hfit hc.1 hc.2
  exact hshows.observed hone hfit

/-- A new file system on one data server that keeps 1024 bytes of each file. -/
def freshSystem : VfsState (Nat → RawDisk) := ⟨Server.fresh {}, fun _ => ⟨.empty, 1024⟩, {}, 0⟩

/-- An open with `O_TRUNC` of the empty file, three bytes, and a larger size. -/
theorem contents_refine_grown :
    let S := VfsSetup.onDisks {} ⟨0, fun _ => none⟩
    let v₁ := (freshSystem.serve S (.create 1 [97] 0o644 0 0)).2
    let v₂ := ((ContentCall.openFile O_TRUNC).step S 1 [97] 2 v₁).2
    let v₃ := ((ContentCall.write 0 [65, 66, 67] 0).step S 1 [97] 2 v₂).2
    let v₄ := ((ContentCall.setattr {} 5).step S 1 [97] 2 v₃).2
    Except.map FileAttr.size (v₄.serve S (.getattr 2)).1 = .ok 5 ∧
      ∀ off len, off < 1024 → ∃ out, v₄.readBytes S 2 off len = .ok out ∧
        out.take (5 - off) = ([65, 66, 67, 0, 0].drop off).take len := by
  intro S v₁ v₂ v₃ v₄
  have hempty : (ContentCall.openFile O_TRUNC).Below 1024 ∧ (ContentCall.openFile O_TRUNC).Harmless 2 v₁.server :=
    ⟨trivial, Or.inr (by decide +kernel)⟩
  have hwrite : ∀ s, (ContentCall.write 0 [65, 66, 67] 0).Below 1024 ∧
      (ContentCall.write 0 [65, 66, 67] 0).Harmless 2 s := by
    simp [ContentCall.Below, ContentCall.Harmless, U32_SIZE]
  have hgrow : ∀ s, (ContentCall.setattr {} 5).Below 1024 ∧ (ContentCall.setattr {} 5).Harmless 2 s := by
    simp [ContentCall.Below, ContentCall.Harmless]
  have h₁ : Trace (ContentCall.step S 1 [97] 2) (fun _ u c => c.Below 1024 ∧ c.Harmless 2 u.server) v₁ [] v₁ := .nil
  have h₂ := Trace.snoc (.openFile O_TRUNC) h₁ hempty
  have h₃ := Trace.snoc (.write 0 [65, 66, 67] 0) h₂ (hwrite _)
  have h₄ := Trace.snoc (.setattr {} 5) h₃ (hgrow _)
  have hr : (freshSystem.serve S (.create 1 [97] 0o644 0 0)).1 =
    .ok (Server.newFile {} (Server.fresh {}) 0o644 0 0).toAttr := rfl
  exact contents_refine (fun _ => rfl) rfl (fun _ _ => rfl) (by decide) hr h₄

/-- **Old bytes return.**  `O_TRUNC` empties the file for the metadata server alone: when the file is extended again,
what it held is read where zeros should be. -/
theorem truncated_bytes_return :
    let S := VfsSetup.onDisks {} ⟨0, fun _ => none⟩
    let cs : List ContentCall := [.openFile 0, .write 0 [97, 98, 99] 0, .openFile O_TRUNC, .setattr {} 3]
    let v := ContentCall.after S 1 [97] 2 (.create 0o644 0 0 :: cs) freshSystem
    (∀ c ∈ cs, c.Below 1024) ∧ Except.map FileAttr.size (v.serve S (.getattr 2)).1 = .ok 3 ∧
      v.readBytes S 2 0 3 = .ok [97, 98, 99] ∧ ContentCall.contents cs = [0, 0, 0] := by
  refine ⟨?_, by decide +kernel, by decide +kernel, by decide +kernel⟩
  simp [ContentCall.Below]

end VfsState

end RucksFs
