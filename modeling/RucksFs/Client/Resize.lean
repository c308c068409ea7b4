import RucksFs.Client.Core

/-!
# Setting the size of a file (`VfsCore::setattr`)

The metadata server stores the new size first; when the file shrinks, the client then asks the data server to
clear what is beyond it.  The data server alone knows the limit of a file and refuses sizes at or above it, so
the second step can fail when the first one is done.

* `serve_setattr` — the whole call as one equation.
* `resize_iff` — all or nothing, exactly when the file does not shrink or the data server accepts the new size.
* `resize_half_done` — a file that was extended past the limit and is then shrunk to a size above it.
-/

set_option autoImplicit false

namespace RucksFs

namespace VfsState

variable {cfg : Config} {reg : Registry} {clock : Nat → Nat}

/-- `setattr` with a size alone. -/
def resize (S : VfsSetup (Nat → RawDisk)) (i z : Nat) (v : VfsState (Nat → RawDisk)) :
    FsResult FileAttr × VfsState (Nat → RawDisk) :=
  v.serve S (.setattr i { size := some z })

/-- The record that is stored for the new size. -/
def resized (cfg : Config) (z : Nat) (v : VfsState (Nat → RawDisk)) (raw : InodeValue) : InodeValue :=
  (SetAttrRequest.apply { size := some z } (cfg.clock v.server.ticks) raw).1

/-- The server has stored the new size. -/
def afterResize (cfg : Config) (i z : Nat) (v : VfsState (Nat → RawDisk)) (raw : InodeValue) :
    VfsState (Nat → RawDisk) :=
  { v with server := v.server.tick.rewritten i (v.resized cfg z raw) }

/-- The disk that the requests for file `i` reach. -/
def diskOf (reg : Registry) (i : Nat) (v : VfsState (Nat → RawDisk)) : RawDisk := v.data (v.core.resolveData reg i)

/-- The data server has done what it does on `truncate`. -/
def afterTruncate (reg : Registry) (i z : Nat) (v : VfsState (Nat → RawDisk)) : VfsState (Nat → RawDisk) :=
  { v with data := Function.update v.data (v.core.resolveData reg i) ((v.diskOf reg i).truncate i z).2 }

theorem size_resized (v : VfsState (Nat → RawDisk)) (z : Nat) (raw : InodeValue) : (v.resized cfg z raw).size = z :=
  (SetAttrRequest.applySize_some rfl _ raw).1

theorem inode_afterResize (i z : Nat) (v : VfsState (Nat → RawDisk)) (raw : InodeValue) :
    (v.afterResize cfg i z raw).server.db.inode i = some (v.resized cfg z raw) :=
  (Db.inode_applyOp v.server.db (.putInode i (v.resized cfg z raw)) i).trans (if_pos rfl)

/-- `setattr` with a size: the metadata server, then the data server if the file shrinks. -/
theorem serve_setattr {req : SetAttrRequest} {z : Nat} (hreq : req.size = some z) (i : Nat)
    (v : VfsState (Nat → RawDisk)) :
    v.serve (.onDisks cfg reg clock) (.setattr i req) =
      match v.server.db.inode i with
      | none => (.error .notFound, v)
      | some raw =>
          let iv := (req.apply (cfg.clock v.server.ticks) raw).1
          let v' : VfsState (Nat → RawDisk) := { v with server := v.server.tick.rewritten i iv }
          if z < raw.size then (((v.diskOf reg i).truncate i z).1.map fun _ => iv.toAttr, v'.afterTruncate reg i z)
          else (.ok iv.toAttr, v') := by
  let m : MetadataOp := .setattr i req
  have hexec := congrArg (fun r : FsResult SetAttrResponse × Txn × Server => (r.1, r.2.2))
    (exec_setattr cfg v.server i req)
  cases hi : v.server.db.inode i with
  | none =>
      rw [hi] at hexec
      have hserve : v.server.serve cfg m = (.error .notFound, v.server) := hexec
      exact run_metadata_error (.onDisks cfg reg clock) v _ hserve
  | some raw =>
      rw [hi] at hexec
      dsimp only at hexec ⊢
      have hflag : (req.apply (cfg.clock v.server.ticks) raw).2 = decide (z < raw.size) :=
        (SetAttrRequest.applySize_some hreq _ raw).2
      rw [hflag, hreq] at hexec
      generalize (req.apply (cfg.clock v.server.ticks) raw).1 = iv at hexec ⊢
      have hserve : v.server.serve cfg m = (.ok (⟨iv.toAttr,
          if decide (z < raw.size) = true then some z else none⟩ : SetAttrResponse),
          v.server.tick.rewritten i iv) := hexec
      apply (run_metadata_ok (.onDisks cfg reg clock) v _ hserve).trans
      by_cases hz : z < raw.size
      · simp only [hz, decide_true, if_true]
        let v' : VfsState (Nat → RawDisk) := { v with server := v.server.tick.rewritten i iv }
        apply (run_bind _ _ (VfsOp.truncateData (v.core.resolveData reg i) i z) _).trans
        have hdata : run (.onDisks cfg reg clock) (VfsOp.truncateData (v.core.resolveData reg i) i z) v' =
            (((v.diskOf reg i).truncate i z).1, v'.afterTruncate reg i z) := rfl
        rw [show (handle (.onDisks cfg reg clock) (.resolveData i) v').2 = v' from rfl, hdata]
        cases ((v.diskOf reg i).truncate i z).1 with
        | error e => rfl
        | ok u => rfl
      · simp only [hz, decide_false]
        rfl

/-- `setattr` with a size alone. -/
theorem serve_resize (i z : Nat) (v : VfsState (Nat → RawDisk)) :
    v.resize (.onDisks cfg reg clock) i z =
      match v.server.db.inode i with
      | none => (.error .notFound, v)
      | some raw =>
          if z < raw.size then
            (((v.diskOf reg i).truncate i z).1.map fun _ => (v.resized cfg z raw).toAttr,
              (v.afterResize cfg i z raw).afterTruncate reg i z)
          else (.ok (v.resized cfg z raw).toAttr, v.afterResize cfg i z raw) :=
  serve_setattr rfl i v

/-- All or nothing: the new size is stored, `getattr` answers it and what a shrinking file has lost reads as zero, or
the stored size and times are what they were. -/
def ResizesOrFails (cfg : Config) (reg : Registry) (clock : Nat → Nat) (i z : Nat) (v : VfsState (Nat → RawDisk)) :
    Prop :=
  match v.resize (.onDisks cfg reg clock) i z with
  | (.ok _, v') =>
      (∃ iv, v'.server.db.inode i = some iv ∧ iv.size = z) ∧
      Except.map FileAttr.size (v'.serve (.onDisks cfg reg clock) (.getattr i)).1 = .ok z ∧
      ∀ raw, v.server.db.inode i = some raw → z < raw.size →
        ∀ off n, z ≤ off → off < (v.diskOf reg i).maxFileSize →
          ∃ bytes : List Byte, (v'.serve (.onDisks cfg reg clock) (.read i off n)).1 = .ok bytes ∧ ∀ b ∈ bytes, b = 0
  | (.error _, v') =>
      (v'.server.db.inode i).map (fun iv => (iv.size, iv.mtime, iv.ctime)) =
        (v.server.db.inode i).map fun iv => (iv.size, iv.mtime, iv.ctime)

/-- What a truncation has cleared is read as zeros. -/
theorem read_truncated {i z off : Nat} (n : Nat) {d : RawDisk} (hok : (d.truncate i z).1 = .ok ()) (hz : z ≤ off)
    (hoff : off < d.maxFileSize) : ∃ bytes, (d.truncate i z).2.readAt i off n = .ok bytes ∧ ∀ b ∈ bytes, b = 0 := by
  have hdone : d.truncate i z = (.ok (), (d.truncate i z).2) := Prod.ext hok rfl
  obtain ⟨-, hmax, hregion⟩ := RawDisk.truncate_ok hdone
  obtain ⟨-, hfit⟩ := (RawDisk.truncate_isOk_iff d i z).1 hok
  obtain ⟨bytes, hread⟩ := RawDisk.readAt_succeeds (d := (d.truncate i z).2) (i := i) (by rwa [hmax]) (by rwa [hmax]) n
  refine ⟨bytes, hread, fun b hb => ?_⟩
  rw [RawDisk.readAt_ok hread, SparseFile.window] at hb
  obtain ⟨j, hj, rfl⟩ := List.mem_map.1 hb
  rw [hmax] at hj
  have hlt : off + j < d.maxFileSize := by
    have := List.mem_range.1 hj
    omega
  rw [hregion i (off + j) hlt, if_pos ⟨rfl, by omega⟩]

theorem size_getattr_afterResize (i z : Nat) (v : VfsState (Nat → RawDisk)) (raw : InodeValue)
    {w : VfsState (Nat → RawDisk)} (hw : w.server = (v.afterResize cfg i z raw).server) :
    Except.map FileAttr.size (w.serve (.onDisks cfg reg clock) (.getattr i)).1 = .ok z := by
  have hiv : w.server.db.inode i = some (v.resized cfg z raw) := by
    rw [hw]
    exact v.inode_afterResize i z raw
  rw [serve_getattr]
  apply (w.server.size_load hiv).trans
  cases hf : w.server.cache.find i with
  | none => exact congrArg Except.ok (v.size_resized z raw)
  | some c =>
      rw [hw] at hf
      rcases InodeFoldedCache.find_put hf with ⟨-, rfl⟩ | ⟨hne, -⟩
      · exact congrArg Except.ok (v.size_resized z raw)
      · exact absurd rfl hne

/-- **Setting the size.**  The call does all of it or nothing exactly when the file does not shrink, or shrinks to a
size below the limit of the data server in a region inside the address space. -/
theorem resize_iff (cfg : Config) (reg : Registry) (clock : Nat → Nat) (i z : Nat) (v : VfsState (Nat → RawDisk)) :
    v.ResizesOrFails cfg reg clock i z ↔
      ∀ raw, v.server.db.inode i = some raw → z < raw.size →
        z < (v.diskOf reg i).maxFileSize ∧ (i + 1) * (v.diskOf reg i).maxFileSize < RawDisk.OFF_SIZE := by
  unfold ResizesOrFails
  rw [serve_resize]
  cases hi : v.server.db.inode i with
  | none => simp [hi]
  | some raw =>
      have hsize : (v.resized cfg z raw).size = z := v.size_resized z raw
      by_cases hz : z < raw.size
      · simp only [hz, if_true, Option.some.injEq, forall_eq', forall_true_left]
        rw [← RawDisk.truncate_isOk_iff]
        cases ht : ((v.diskOf reg i).truncate i z).1 with
        | ok u =>
            refine iff_of_true ⟨⟨_, v.inode_afterResize i z raw, hsize⟩, v.size_getattr_afterResize i z raw rfl, ?_⟩ rfl
            intro off n hoff hlt
            obtain ⟨bytes, hread, hzero⟩ := read_truncated n ht hoff hlt
            refine ⟨bytes, ?_, hzero⟩
            show ((Function.update v.data (v.core.resolveData reg i) ((v.diskOf reg i).truncate i z).2)
              (v.core.resolveData reg i)).readAt i off n = .ok bytes
            rw [Function.update_self]
            exact hread
        | error e =>
            refine iff_of_false (fun h => ?_) (by nofun)
            have hiv : ((v.afterResize cfg i z raw).afterTruncate reg i z).server.db.inode i = _ :=
              v.inode_afterResize i z raw
            dsimp only [Except.map] at h
            rw [hiv] at h
            simp only [Option.map_some, Option.some.injEq, Prod.mk.injEq] at h
            omega
      · simp only [hz, if_false, Option.some.injEq, forall_eq', false_imp_iff, iff_true, and_true]
        exact ⟨⟨_, v.inode_afterResize i z raw, hsize⟩, v.size_getattr_afterResize i z raw rfl⟩

/-- A new file, extended to 2000 bytes on a data server that keeps 1024 of each file. -/
def extendedFile : VfsState (Nat → RawDisk) :=
  let S := VfsSetup.onDisks {} ⟨0, fun _ => none⟩
  let v : VfsState (Nat → RawDisk) := ⟨Server.fresh {}, fun _ => ⟨.empty, 1024⟩, {}, 0⟩
  (serve S (.setattr 2 { size := some 2000 }) (v.serve S (.create 1 [97] 0o644 0 0)).2).2

/-- **A change half done.**  Shrunk to 1500, the file has its new size while the call answers an error. -/
theorem resize_half_done :
    ¬extendedFile.ResizesOrFails {} ⟨0, fun _ => none⟩ (fun _ => 0) 2 1500 ∧
      (extendedFile.resize (.onDisks {} ⟨0, fun _ => none⟩) 2 1500).1 =
        .error (.invalidInput "truncate size 1500 exceeds max_file_size 1024") := by
  have hbefore : (extendedFile.server.db.inode 2).map (·.size) = some 2000 := by decide +kernel
  have hafter : ((extendedFile.resize (.onDisks {} ⟨0, fun _ => none⟩) 2 1500).2.server.db.inode 2).map (·.size) =
      some 1500 := by decide +kernel
  have herror : (extendedFile.resize (.onDisks {} ⟨0, fun _ => none⟩) 2 1500).1 =
      .error (.invalidInput "truncate size 1500 exceeds max_file_size 1024") := by decide +kernel
  refine ⟨fun h => ?_, herror⟩
  unfold ResizesOrFails at h
  split at h
  · rename_i a v' hrun
    rw [hrun] at herror
    cases herror
  · rename_i e v' hrun
    rw [hrun] at hafter
    have hsize := congrArg (Option.map Prod.fst) h
    simp only [Option.map_map, Function.comp_def, hafter, hbefore] at hsize
    cases hsize

end VfsState

end RucksFs
